import Prd.Pycprd.Hbg
import Prd.Pycprd.Pdg
import Prd.Pycprd.PyString

/-!
# The trace parser

A line consists of fields between colons. Lines of events may start with an event
id, which shows in the second field being a number. Events with an id are kept in a
table for each thread, which the lines of dependencies refer to.
-/
namespace Prd.Pycprd

open Prd.Foundation PyStr

/-- The keys that the parser knows. -/
inductive TraceKey
  | pd
  | hbEdge
  | epocInc
  | pmem
  | volatile
  | module
  | instruction (itype : NodeType)
  deriving DecidableEq

def TraceKey.ofStr (key : PyStr) : Option TraceKey :=
  if key = "PD".toList then some .pd
  else if key = "HB_EDGE".toList then some .hbEdge
  else if key = "EPOC_INC".toList then some .epocInc
  else if key = "PMEM".toList then some .pmem
  else if key = "VOLATILE".toList then some .volatile
  else if key = "MODULE".toList then some .module
  else if key = "READ".toList then some (.instruction .read)
  else if key = "WRITE".toList then some (.instruction .write)
  else if key = "FLUSH".toList then some (.instruction .flush)
  else none

theorem TraceKey.isFieldText {key : PyStr} {k : TraceKey} (h : TraceKey.ofStr key = some k) :
    isDigitStr key = false ∧ IsFieldText key := by
  have hkey : isDigitStr key = false ∧ key.isEmpty = false ∧ key.all isFieldChar = true := by
    unfold TraceKey.ofStr at h
    split_ifs at h <;> subst_vars <;> exact ⟨rfl, rfl, rfl⟩
  exact ⟨hkey.1, by simpa using hkey.2.1, List.all_eq_true.mp hkey.2.2⟩

/-- The state of the parser; of a module only its address range matters here. -/
structure TraceParser where
  hbgBuilder : HBGBuilder
  pdgBuilder : PDGBuilder
  events : Dict ThreadId (Dict ℕ InstructionNode)
  pmemRange : Option (ℕ × ℕ)
  ignoreRanges : List (ℕ × ℕ)
  modules : List (ℤ × ℤ × PyStr)

namespace TraceParser

def new : TraceParser := ⟨.new, .new, ∅, none, [], []⟩

/-- The table lookup `self._events[tid][event_id]`. -/
def event (s : TraceParser) (tid eventId : ℕ) : Py InstructionNode :=
  pyGet (s.events.getD tid ∅) eventId

def addEvent (s : TraceParser) (n : InstructionNode) (eventId : ℕ) : TraceParser :=
  { s with events := s.events.insert n.tid ((s.events.getD n.tid ∅).insert eventId n) }

/-- Thread and event ids, addresses and sizes are natural numbers here. A line with a negative one
is read by the program as well, and the model stops at it. -/
def natural (n : ℤ) : Py ℕ := if 0 ≤ n then pure n.toNat else throw .negative

def parsePd (s : TraceParser) (tid : ℕ) (args : List PyStr) : Py TraceParser := do
  if args.length = 2 then
    match ← args.mapM anyInt with
    | [readPc, writePc] => do
      let readPc ← natural readPc
      let writePc ← natural writePc
      pure { s with pdgBuilder := s.pdgBuilder.addDependencyPc writePc readPc }
    | _ => throw .valueError
  else
    match ← args.mapM anyInt with
    | [_readPc, readEventId, _writePc, writeEventId] => do
      let readEventId ← natural readEventId
      let writeEventId ← natural writeEventId
      let readNode ← s.event tid readEventId
      let writeNode ← s.event tid writeEventId
      let pdgBuilder ← s.pdgBuilder.addDependency writeNode readNode
      pure { s with pdgBuilder := pdgBuilder }
    | _ => throw .valueError

def parseHbEdge (s : TraceParser) (args : List PyStr) : Py TraceParser := do
  match ← args.mapM anyInt with
  | [srcTid, srcEpoch, dstTid, dstEpoch] => do
    let srcTid ← natural srcTid
    let dstTid ← natural dstTid
    pure { s with hbgBuilder := s.hbgBuilder.addHappensBeforeEdge srcTid srcEpoch dstTid dstEpoch }
  | _ => throw .valueError

def parseEpocInc (s : TraceParser) (tid : ℕ) (args : List PyStr) : Py TraceParser := do
  match ← args.mapM anyInt with
  | [fromEpoch, toEpoch] =>
    if fromEpoch ≠ toEpoch then
      pure { s with hbgBuilder := s.hbgBuilder.addEpochNode tid toEpoch }
    else pure s
  | _ => throw .valueError

def parsePmem (s : TraceParser) (args : List PyStr) : Py TraceParser := do
  match ← args.mapM anyInt with
  | [start, size] => do
    let start ← natural start
    let size ← natural size
    pure { s with pmemRange := some (start, start + size) }
  | _ => throw .valueError

def parseVolatile (s : TraceParser) (args : List PyStr) : Py TraceParser := do
  match ← args.mapM anyInt with
  | [start, size] => do
    let start ← natural start
    let size ← natural size
    pure { s with ignoreRanges := s.ignoreRanges.insert (start, start + size) }
  | _ => throw .valueError

/-- The interval tree of the symbolizer refuses an empty range. -/
def parseModule (s : TraceParser) (args : List PyStr) : Py TraceParser := do
  match ← (args.take 2).mapM anyInt with
  | [start, stop] =>
    match args[2]? with
    | some name =>
      if start < stop then pure { s with modules := s.modules ++ [(start, stop, name)] }
      else throw .valueError
    | none => throw .indexError
  | _ => throw .valueError

/-- The flags and the info of an event, from the fields after its size. -/
def parseInfo (fields : List PyStr) : Py (Bool × Bool × Info) := do
  let info := join ':' fields
  if "0x".toList.isPrefixOf info then
    let info := ((info.splitHead '#').strip).split '|'
    let (addr, isAtomic, isNonTemporal) ←
      if ':' ∈ info.headD [] then
        match ← ((info.headD []).split ':').mapM anyInt with
        | [addr, isAtomic, isNonTemporal] => pure (addr, isAtomic != 0, isNonTemporal != 0)
        | _ => throw .valueError
      else do
        let addr ← anyInt (info.headD [])
        pure (addr, false, false)
    let callstack ← match info[1]? with
      | some callstack => ((callstack.stripChar ',').split ',').mapM anyInt
      | none => pure []
    pure (isAtomic, isNonTemporal, .event ⟨addr, callstack⟩)
  else pure (false, false, .text (info.splitHead '|'))

def parseInstruction (s : TraceParser) (itype : NodeType) (tid : ℕ) (eventId : Option ℤ)
    (lineNumber : ℕ) (fields : List PyStr) : Py TraceParser := do
  match fields with
  | pc :: address :: size :: rest => do
    let pc ← anyInt pc
    let address ← anyInt address
    let size ← anyInt size
    let (isAtomic, isNonTemporal, info) ← parseInfo rest
    let pc ← natural pc
    let address ← natural address
    let size ← natural size
    let eventId ← eventId.mapM natural
    let (node, hbgBuilder) ← s.hbgBuilder.addInstructionNode itype tid pc address size info
      (some lineNumber) isAtomic isNonTemporal eventId
    let s := { s with hbgBuilder := hbgBuilder }
    match eventId with
    | some eventId => pure (s.addEvent node eventId)
    | none => pure s
  | _ => throw .valueError

/-- The first fields of a line: the event id if there is one, the thread, the key, and where the
arguments start. A number in the second field makes the first field the event id. -/
def parseHead (parts : List PyStr) : Py (Option ℤ × PyStr × PyStr × ℕ) :=
  match parts with
  | tid :: key :: rest =>
    if isDigitStr key then
      match rest with
      | key' :: _ => do
        let eventId ← int tid
        pure (some eventId, key, key', 3)
      | [] => throw .valueError
    else pure (none, tid, key, 2)
  | _ => throw .valueError

/-- What the line with the key adds. -/
def parseKey (s : TraceParser) (key : TraceKey) (tid : ℕ) (eventId : Option ℤ) (lineNumber : ℕ)
    (args fields : List PyStr) : Py TraceParser :=
  match key with
  | .pd => s.parsePd tid args
  | .hbEdge => s.parseHbEdge args
  | .epocInc => s.parseEpocInc tid args
  | .pmem => s.parsePmem args
  | .volatile => s.parseVolatile args
  | .module => s.parseModule args
  | .instruction itype => s.parseInstruction itype tid eventId lineNumber fields

/-- `_parse_line` on a stripped line; `allowKeys` lists the keys that are not skipped. -/
def parseLine (allowKeys : Option (List PyStr)) (s : TraceParser) (line : PyStr) (lineNumber : ℕ) :
    Py TraceParser := do
  let line := line.removePrefix "<null>".toList
  if " ".toList.isPrefixOf line || "#".toList.isPrefixOf line ||
    "[CPRD]".toList.isPrefixOf line then
    return s
  let parts := line.split ':'
  if parts.length < 2 then
    return s
  let (eventId, tid, key, argsIndex) ← parseHead parts
  let args := (((line.splitHead '#').strip).split ':').drop argsIndex
  if !isDigitStr tid then
    return s
  -- digits have no sign
  let tid ← int tid
  let tid := tid.toNat
  if allowKeys.any (fun keys => key ∉ keys) then
    return s
  match TraceKey.ofStr key with
  | some key => s.parseKey key tid eventId lineNumber args (parts.drop argsIndex)
  | none => return s

/-- The loop of `parse` from the line with the given index on. -/
def parseLines (allowKeys : Option (List PyStr)) (maxLines : Option ℕ) :
    TraceParser → ℕ → List PyStr → Py TraceParser
  | s, _, [] => pure s
  | s, i, line :: lines => do
    if maxLines.any (fun m => m ≠ 0 ∧ m < i) then pure s
    else do
      let s ← s.parseLine allowKeys line (i + 1)
      parseLines allowKeys maxLines s (i + 1) lines

/-- A new parser on the lines of a trace. -/
def parse (traceLines : List PyStr) (allowKeys : Option (List PyStr)) (maxLines : Option ℕ) :
    Py TraceParser :=
  parseLines allowKeys maxLines new 0 (traceLines.map strip)

section Lines

theorem natural_nat (n : ℕ) : natural (n : ℤ) = .ok n := by
  unfold natural
  rw [if_pos (Int.natCast_nonneg n)]
  rfl

theorem mapM_natural_some (n : ℕ) : (some (n : ℤ)).mapM natural = .ok (some n) := by
  rw [Option.mapM_some, natural_nat]
  rfl

theorem mapM_natural_none : (none : Option ℤ).mapM natural = .ok none := rfl

/-- A line that starts with a number is not skipped. -/
theorem parseLine_of_parseHead (s : TraceParser) {line text key : PyStr} {n tid argsIndex : ℕ}
    {eventId : Option ℤ} {k : TraceKey} (hline : line = Nat.toDigits 10 n ++ ':' :: text)
    (hhead : parseHead (Nat.toDigits 10 n :: text.split ':') =
      .ok (eventId, Nat.toDigits 10 tid, key, argsIndex))
    (hkey : TraceKey.ofStr key = some k) (lineNumber : ℕ) :
    s.parseLine none line lineNumber = s.parseKey k tid eventId lineNumber
      ((((line.splitHead '#').strip).split ':').drop argsIndex)
      ((Nat.toDigits 10 n :: text.split ':').drop argsIndex) := by
  have hsplit : line.split ':' = Nat.toDigits 10 n :: text.split ':' := by
    rw [hline, split_append (not_mem_toDigits rfl n)]
  have hpre : ∀ c pre, c.isDigit = false → (c :: pre).isPrefixOf line = false := by
    intro c pre hc
    rw [hline]
    exact isPrefixOf_toDigits hc pre n _
  have hnull : "<null>".toList.isPrefixOf line = false := hpre '<' "null>".toList rfl
  have hspace : " ".toList.isPrefixOf line = false := hpre ' ' [] rfl
  have hhash : "#".toList.isPrefixOf line = false := hpre '#' [] rfl
  have hcprd : "[CPRD]".toList.isPrefixOf line = false := hpre '[' "CPRD]".toList rfl
  have hlen : ¬ (Nat.toDigits 10 n :: text.split ':').length < 2 := by
    have hpos := List.length_pos_of_ne_nil (List.splitOn_ne_nil ':' text)
    rw [List.length_cons]
    unfold split
    omega
  unfold parseLine removePrefix
  simp only [hnull, hspace, hhash, hcprd, hsplit, hlen, hhead, hkey, isDigitStr_toDigits,
    int_toDigits, Int.toNat_natCast, ok_bind, Bool.or_self, Bool.not_true, Bool.false_eq_true,
    if_false,
    Option.any_none]

theorem parseLine_key (s : TraceParser) {line text : PyStr} (tid : ℕ) {key : PyStr} {k : TraceKey}
    (hkey : TraceKey.ofStr key = some k)
    (hline : line = Nat.toDigits 10 tid ++ ':' :: (key ++ ':' :: text)) (lineNumber : ℕ) :
    s.parseLine none line lineNumber =
      s.parseKey k tid none lineNumber ((((line.splitHead '#').strip).split ':').drop 2)
        (text.split ':') := by
  obtain ⟨hdigit, hfield⟩ := TraceKey.isFieldText hkey
  have hcolon : ':' ∉ key := hfield.notMem rfl
  have hhead : parseHead (Nat.toDigits 10 tid :: split (key ++ ':' :: text) ':') =
      .ok (none, Nat.toDigits 10 tid, key, 2) := by
    rw [split_append hcolon]
    simp only [parseHead, hdigit, Bool.false_eq_true, if_false]
    rfl
  rw [parseLine_of_parseHead s hline hhead hkey, split_append hcolon]
  rfl

theorem parseLine_id_key (s : TraceParser) {line text : PyStr} (eventId tid : ℕ) {key : PyStr}
    {k : TraceKey} (hkey : TraceKey.ofStr key = some k)
    (hline : line = Nat.toDigits 10 eventId ++ ':' :: (Nat.toDigits 10 tid ++ ':' ::
      (key ++ ':' :: text))) (lineNumber : ℕ) :
    s.parseLine none line lineNumber =
      s.parseKey k tid (some (eventId : ℤ)) lineNumber
      ((((line.splitHead '#').strip).split ':').drop 3)
        (text.split ':') := by
  have hcolon : ':' ∉ key := (TraceKey.isFieldText hkey).2.notMem rfl
  have hparts : split (Nat.toDigits 10 tid ++ ':' :: (key ++ ':' :: text)) ':' =
      Nat.toDigits 10 tid :: key :: text.split ':' := by
    rw [split_append (not_mem_toDigits rfl tid), split_append hcolon]
  have hhead : parseHead (Nat.toDigits 10 eventId ::
      split (Nat.toDigits 10 tid ++ ':' :: (key ++ ':' :: text)) ':') =
        .ok (some (eventId : ℤ), Nat.toDigits 10 tid, key, 3) := by
    rw [hparts]
    simp only [parseHead, isDigitStr_toDigits, int_toDigits, ok_bind, if_true]
    rfl
  rw [parseLine_of_parseHead s hline hhead hkey, hparts]
  rfl

theorem isFieldText_of_mem (tid : ℕ) {key : PyStr} {k : TraceKey} {args : List PyStr}
    (hkey : TraceKey.ofStr key = some k) (hargs : ∀ arg ∈ args, IsFieldText arg) :
    ∀ field ∈ Nat.toDigits 10 tid :: key :: args, IsFieldText field := by
  intro field hfield
  rcases List.mem_cons.mp hfield with rfl | hfield
  · exact isFieldText_toDigits tid
  · rcases List.mem_cons.mp hfield with rfl | hfield
    · exact (TraceKey.isFieldText hkey).2
    · exact hargs field hfield

/-- The arguments of a line without an event id. -/
theorem parseLine_fields (s : TraceParser) (tid : ℕ) {key comment : PyStr} {k : TraceKey}
    {args : List PyStr} (hkey : TraceKey.ofStr key = some k) (hne : args ≠ [])
    (hargs : ∀ arg ∈ args, IsFieldText arg) (hcomment : IsComment comment) (lineNumber : ℕ) :
    s.parseLine none (join ':' (Nat.toDigits 10 tid :: key :: args) ++ comment) lineNumber =
      s.parseKey k tid none lineNumber args (split (join ':' args ++ comment) ':') := by
  obtain ⟨arg, args, rfl⟩ := List.exists_cons_of_ne_nil hne
  have hline : join ':' (Nat.toDigits 10 tid :: key :: arg :: args) ++ comment =
      Nat.toDigits 10 tid ++ ':' :: (key ++ ':' :: (join ':' (arg :: args) ++ comment)) := by
    rw [join_cons_cons, join_cons_cons]
    simp
  rw [parseLine_key s tid hkey hline,
    split_comment (List.cons_ne_nil _ _) (isFieldText_of_mem tid hkey hargs) hcomment]
  rfl

/-- The arguments of a printed line without an event id, which may end in a comment. -/
theorem parseLine_printed (s : TraceParser) (tid : ℕ) {key comment : PyStr} {k : TraceKey}
    {args : List PyStr} (hkey : TraceKey.ofStr key = some k) (hne : args ≠ [])
    (hargs : ∀ arg ∈ args, IsFieldText arg) (hcomment : IsComment comment) (lineNumber : ℕ) :
    ∃ fields, s.parseLine none (strip (join ':' (Nat.toDigits 10 tid :: key :: args) ++
      (comment ++ ['\n']))) lineNumber = s.parseKey k tid none lineNumber args fields := by
  obtain ⟨comment', hcomment', hstrip⟩ := exists_strip_comment (List.cons_ne_nil _ _)
    (isFieldText_of_mem tid hkey hargs) hcomment
  rw [hstrip, parseLine_fields s tid hkey hne hargs hcomment']
  exact ⟨_, rfl⟩

/-- A line without an event id and without a comment. -/
theorem parseLine_plain (s : TraceParser) (tid : ℕ) {key : PyStr} {k : TraceKey} {args : List PyStr}
    (hkey : TraceKey.ofStr key = some k) (hne : args ≠ [])
    (hargs : ∀ arg ∈ args, IsFieldText arg) (lineNumber : ℕ) :
    s.parseLine none (strip (join ':' (Nat.toDigits 10 tid :: key :: args) ++ ['\n'])) lineNumber =
      s.parseKey k tid none lineNumber args args := by
  have hfields := parseLine_fields s tid hkey hne hargs (Or.inl rfl) lineNumber
  rw [List.append_nil, List.append_nil, split_join_fields hne hargs] at hfields
  rw [strip_join_append (List.cons_ne_nil _ _) (isFieldText_of_mem tid hkey hargs) (by simp),
    hfields]

/-- A line with an event id. -/
theorem parseLine_id (s : TraceParser) (eventId tid : ℕ) {key : PyStr} {k : TraceKey}
    {args : List PyStr} (hkey : TraceKey.ofStr key = some k) (hne : args ≠ [])
    (hargs : ∀ arg ∈ args, IsFieldText arg) (lineNumber : ℕ) :
    s.parseLine none (strip
      (join ':' (Nat.toDigits 10 eventId :: Nat.toDigits 10 tid :: key :: args) ++ ['\n']))
      lineNumber = s.parseKey k tid (some (eventId : ℤ)) lineNumber args args := by
  have hfields : ∀ field ∈ Nat.toDigits 10 eventId :: Nat.toDigits 10 tid :: key :: args,
      IsFieldText field := by
    intro field hfield
    rcases List.mem_cons.mp hfield with rfl | hfield
    · exact isFieldText_toDigits eventId
    · exact isFieldText_of_mem tid hkey hargs field hfield
  obtain ⟨arg, args, rfl⟩ := List.exists_cons_of_ne_nil hne
  have hline : join ':' (Nat.toDigits 10 eventId :: Nat.toDigits 10 tid :: key :: arg :: args) =
      Nat.toDigits 10 eventId ++ ':' :: (Nat.toDigits 10 tid ++ ':' ::
        (key ++ ':' :: join ':' (arg :: args))) := by
    rw [join_cons_cons, join_cons_cons, join_cons_cons]
  have hsplit := split_comment (List.cons_ne_nil _ _) hfields (Or.inl rfl)
  rw [List.append_nil] at hsplit
  rw [strip_join_append (List.cons_ne_nil _ _) hfields (by simp),
    parseLine_id_key s eventId tid hkey hline, hsplit, split_join_fields hne hargs]
  rfl

end Lines

section Rest

end Rest

end TraceParser

end Prd.Pycprd
