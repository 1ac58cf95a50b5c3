import Prd.Pycprd.TraceGraphs
import Prd.Runtime.ClockRuns
import Prd.Runtime.TraceReadBack

/-!
# The lines of a run

A trace has the epochs and the edges of the clocks and between them what the threads print. The
parser reads all of it, as long as every thread keeps to its own numbers.
-/
namespace Prd.Runtime

open Prd.Foundation Prd.Pycprd PyStr

namespace LogLine

def print : LogLine → Option PyStr
  | .epochInc thread sourceEpoch targetEpoch comment =>
    logEpochInc thread sourceEpoch targetEpoch (some comment)
  | .happensBeforeEdge sourceThread sourceEpoch targetThread targetEpoch comment =>
    logHappensBeforeEdge sourceThread sourceEpoch targetThread targetEpoch (some comment)
  | .event line => line.print

/-- What the parser makes of a line. -/
def read (b : HBGBuilder) (lineNumber : ℕ) : LogLine → HBGBuilder
  | .epochInc thread sourceEpoch targetEpoch _ =>
    if lowInt sourceEpoch ≠ lowInt targetEpoch then b.addEpochNode thread (lowInt targetEpoch) else
      b
  | .happensBeforeEdge sourceThread sourceEpoch targetThread targetEpoch _ =>
    b.addHappensBeforeEdge sourceThread (lowInt sourceEpoch) targetThread (lowInt targetEpoch)
  | .event line =>
    match line.node b.nextIdent lineNumber with
    | some n => { b with nodes := b.nodes ++ [.instruction n], nextIdent := b.nextIdent + 1 }
    | none => b

def TidsFit : LogLine → Prop
  | .epochInc thread _ _ _ => thread < 2 ^ 31
  | .happensBeforeEdge sourceThread _ targetThread _ _ =>
    sourceThread < 2 ^ 31 ∧ targetThread < 2 ^ 31
  | .event _ => True

end LogLine

def readFrom (b : HBGBuilder) (lineNumber : ℕ) : List LogLine → HBGBuilder
  | [] => b
  | line :: lines => readFrom (line.read b lineNumber) (lineNumber + 1) lines

def readLines (lines : List LogLine) : HBGBuilder := readFrom .new 1 lines

/-- What a thread has printed. -/
def printedBy (t : ℕ) (lines : List Line) : List Line := lines.filter (·.tid = t)

/-- One of the lines and what stands before it. -/
def HasLine (lines : List LogLine) (P : List LogLine → LogLine → Prop) : Prop :=
  ∃ pre line post, lines = pre ++ line :: post ∧ P pre line

/-- The node of an event that is printed after the lines. -/
def nodeAfter (pre : List LogLine) (line : Line) : Option InstructionNode :=
  line.node (readLines pre).nextIdent (pre.length + 1)

/-- The node of the access that the thread has given the number. -/
def IsAccessNode (lines : List LogLine) (tid eventId : ℕ) (n : InstructionNode) : Prop :=
  HasLine lines fun pre line => ∃ a, line = .event (.access a) ∧ a.tid = tid ∧ a.eventId = eventId ∧
    nodeAfter pre (.access a) = some n

section Lines

variable {lines : List LogLine} {P : List LogLine → LogLine → Prop}

theorem hasLine_append_singleton (line : LogLine) :
    HasLine (lines ++ [line]) P ↔ HasLine lines P ∨ P lines line := by
  constructor
  · rintro ⟨pre, x, post, he, hP⟩
    rcases append_singleton_eq_iff.mp he with ⟨rfl, rfl, -⟩ | ⟨post', -, he⟩
    · exact Or.inr hP
    · exact Or.inl ⟨pre, x, post', he, hP⟩
  · rintro (⟨pre, x, post, rfl, hP⟩ | hP)
    · exact ⟨pre, x, post ++ [line], by simp, hP⟩
    · exact ⟨lines, line, [], rfl, hP⟩

theorem not_hasLine_nil : ¬ HasLine [] P := by
  simp [HasLine]

theorem HasLine.of_prefix {pre : List LogLine} (h : HasLine pre P) (hpre : pre <+: lines) :
    HasLine lines P := by
  obtain ⟨rest, rfl⟩ := hpre
  obtain ⟨l, x, r, rfl, hP⟩ := h
  exact ⟨l, x, r ++ rest, by simp, hP⟩

theorem readFrom_append (b : HBGBuilder) (lineNumber : ℕ) (lines more : List LogLine) :
    readFrom b lineNumber (lines ++ more) =
      readFrom (readFrom b lineNumber lines) (lineNumber + lines.length) more := by
  induction lines generalizing b lineNumber with
  | nil => rfl
  | cons line lines ih =>
    rw [List.cons_append, readFrom, readFrom, ih, List.length_cons]
    congr 1
    omega

theorem readLines_append_singleton (lines : List LogLine) (line : LogLine) :
    readLines (lines ++ [line]) = line.read (readLines lines) (lines.length + 1) := by
  unfold readLines
  rw [readFrom_append, Nat.add_comm]
  rfl

theorem lowInt_lt (v : ℕ) : lowInt v < 2 ^ 31 := by
  unfold lowInt
  split_ifs <;> omega

/-- An event adds its node. -/
theorem nodes_read_event (pre : List LogLine) (line : Line) :
    (readLines (pre ++ [.event line])).nodes =
      (readLines pre).nodes ++ ((nodeAfter pre line).map Node.instruction).toList := by
  rw [readLines_append_singleton]
  unfold LogLine.read nodeAfter
  dsimp only
  cases line.node (readLines pre).nextIdent (pre.length + 1) with
  | none => simp
  | some n => rfl

theorem edges_read_event (pre : List LogLine) (line : Line) :
    (readLines (pre ++ [.event line])).edges = (readLines pre).edges := by
  rw [readLines_append_singleton]
  unfold LogLine.read
  dsimp only
  cases line.node (readLines pre).nextIdent (pre.length + 1) with
  | none => rfl
  | some n => rfl

/-- The parser takes no epoch for more than 31 bits. -/
theorem epoch_lt_of_mem_readLines {n : EpochNode} (hn : Node.epoch n ∈ (readLines lines).nodes) :
    n.epoch < 2 ^ 31 := by
  induction lines using List.reverseRecOn with
  | nil => cases hn
  | append_singleton lines line ih =>
    cases line with
    | epochInc t fromEpoch toEpoch comment =>
      rw [readLines_append_singleton] at hn
      simp only [LogLine.read] at hn
      split_ifs at hn
      · rcases List.mem_append.mp hn with hn | hn
        · exact ih hn
        · cases List.mem_singleton.mp hn
          exact lowInt_lt toEpoch
      · exact ih hn
    | happensBeforeEdge st se tt te comment =>
      rw [readLines_append_singleton] at hn
      exact ih hn
    | event line =>
      rw [nodes_read_event] at hn
      simpa using ih (by simpa using hn)

/-- The instructions of a trace are what the events have become. -/
theorem instruction_mem_readLines (n : InstructionNode) :
    Node.instruction n ∈ (readLines lines).nodes ↔
    HasLine lines fun pre line => ∃ l, line = .event l ∧ nodeAfter pre l = some n := by
  induction lines using List.reverseRecOn with
  | nil => simp [readLines, readFrom, HBGBuilder.new, not_hasLine_nil]
  | append_singleton lines line ih =>
    rw [hasLine_append_singleton, ← ih]
    cases line with
    | epochInc t fromEpoch toEpoch comment =>
      rw [readLines_append_singleton, LogLine.read]
      split_ifs
      · simp [HBGBuilder.addEpochNode]
      · simp
    | happensBeforeEdge st se tt te comment =>
      rw [readLines_append_singleton]
      simp [LogLine.read, HBGBuilder.addHappensBeforeEdge]
    | event line =>
      rw [nodes_read_event]
      simp [eq_comm]

theorem nodeAfter_fields {pre : List LogLine} {line : Line} {n : InstructionNode}
    (h : nodeAfter pre line = some n) :
    n.ident = (readLines pre).nextIdent ∧ n.tid = line.tid ∧ n.eventId = line.eventId := by
  have hfields := Line.node_fields h
  cases line with
  | access a =>
    cases h
    exact ⟨rfl, hfields⟩
  | flush f =>
    cases h
    exact ⟨rfl, hfields⟩
  | pd p => cases h

/-- The nodes of a longer trace are those of the shorter one and some more. -/
theorem nodes_readLines_append (lines more : List LogLine) :
    (readLines lines).nodes <+: (readLines (lines ++ more)).nodes ∧
      (readLines lines).nextIdent ≤ (readLines (lines ++ more)).nextIdent := by
  induction more using List.reverseRecOn with
  | nil =>
    rw [List.append_nil]
    exact ⟨List.prefix_refl _, le_rfl⟩
  | append_singleton more line ih =>
    rw [← List.append_assoc, readLines_append_singleton]
    have hread : (readLines (lines ++ more)).nodes <+:
        (line.read (readLines (lines ++ more)) ((lines ++ more).length + 1)).nodes ∧
        (readLines (lines ++ more)).nextIdent ≤
          (line.read (readLines (lines ++ more)) ((lines ++ more).length + 1)).nextIdent := by
      cases line with
      | epochInc t fromEpoch toEpoch comment =>
        unfold LogLine.read
        dsimp only
        split_ifs
        · exact ⟨List.prefix_append _ _, le_rfl⟩
        · exact ⟨List.prefix_refl _, le_rfl⟩
      | happensBeforeEdge st se tt te comment => exact ⟨List.prefix_refl _, le_rfl⟩
      | event line =>
        unfold LogLine.read
        dsimp only
        split
        · exact ⟨List.prefix_append _ _, Nat.le_succ _⟩
        · exact ⟨List.prefix_refl _, le_rfl⟩
    exact ⟨ih.1.trans hread.1, ih.2.trans hread.2⟩

/-- The parser numbers the instructions. -/
theorem ident_lt_nextIdent {n : InstructionNode}
    (hn : Node.instruction n ∈ (readLines lines).nodes) :
    n.ident < (readLines lines).nextIdent := by
  obtain ⟨pre, line, post, rfl, l, rfl, hnode⟩ := (instruction_mem_readLines n).mp hn
  have hone := nodes_readLines_append (pre ++ [.event l]) post
  rw [List.append_assoc, List.singleton_append, readLines_append_singleton] at hone
  unfold nodeAfter at hnode
  unfold LogLine.read at hone
  simp only [hnode] at hone
  have hident := (nodeAfter_fields hnode).1
  omega

end Lines

section Reading

variable {lines : List LogLine} {s : TraceParser} {tid eventId : ℕ} {n m : InstructionNode}

/-- What the parser has after the lines. -/
structure Reads (lines : List LogLine) (s : TraceParser) : Prop where
  builder : s.hbgBuilder = readLines lines
  event : ∀ tid eventId n, IsAccessNode lines tid eventId n → s.event tid eventId = .ok n
  dependencies : s.pdgBuilder.dependencies = ∅
  dependency : ∀ w r, s.pdgBuilder.graph.HasEdge w r ↔ HasLine lines fun pre line =>
    ∃ p, line = .event (.pd p) ∧ IsAccessNode pre p.tid p.writeEventId w ∧
      IsAccessNode pre p.tid p.readEventId r
  ranges : s.pmemRange = none ∧ s.ignoreRanges = []

theorem reads_new : Reads [] .new where
  builder := rfl
  event := fun _ _ _ hn => absurd hn not_hasLine_nil
  dependencies := rfl
  dependency := by
    intro w r
    simp [TraceParser.new, PDGBuilder.new, Digraph.empty, Digraph.HasEdge, not_hasLine_nil]
  ranges := ⟨rfl, rfl⟩

/-- Every thread keeps to its own numbers. -/
def AllCoherent (lines : List LogLine) : Prop :=
  ∀ t, Coherent t (printedBy t (lines.filterMap LogLine.line))

theorem AllCoherent.of_append {more : List LogLine} (h : AllCoherent (lines ++ more)) :
    AllCoherent lines := by
  intro t
  refine (h t).of_prefix_of ?_
  unfold printedBy
  rw [List.filterMap_append, List.filter_append]
  exact List.prefix_append _ _

theorem printedBy_append_event (lines : List LogLine) (line : Line) :
    printedBy line.tid ((lines ++ [LogLine.event line]).filterMap LogLine.line) =
      printedBy line.tid (lines.filterMap LogLine.line) ++ [line] := by
  simp [printedBy, LogLine.line]

theorem mem_printedBy {line : Line} : line ∈ printedBy tid (lines.filterMap LogLine.line) ↔
    HasLine lines (fun _ l => l = .event line) ∧ line.tid = tid := by
  induction lines using List.reverseRecOn with
  | nil => simp [printedBy, not_hasLine_nil]
  | append_singleton lines l ih =>
    rw [hasLine_append_singleton, or_and_right, ← ih]
    cases l with
    | epochInc t fromEpoch toEpoch comment => simp [printedBy, List.filterMap_cons, LogLine.line]
    | happensBeforeEdge st se tt te comment => simp [printedBy, List.filterMap_cons, LogLine.line]
    | event line' =>
      simp only [printedBy, List.filterMap_append, List.filter_append, List.mem_append]
      simp [LogLine.line, eq_comm]

/-- A number that a thread has used stands for one access. -/
theorem AllCoherent.access_unique (h : AllCoherent lines) (hn : IsAccessNode lines tid eventId n)
    (hm : IsAccessNode lines tid eventId m) : n = m := by
  induction lines using List.reverseRecOn with
  | nil => exact absurd hn not_hasLine_nil
  | append_singleton lines line ih =>
    have hfresh : ∀ n, IsAccessNode lines tid eventId n → ∀ a, line = .event (.access a) →
        a.tid = tid → a.eventId ≠ eventId := by
      rintro n ⟨pre, l, post, rfl, b, rfl, hbt, hb, -⟩ a rfl rfl rfl
      have hnd := (h a.tid).nodup
      have hline : (pre ++ LogLine.event (.access b) :: post).filterMap LogLine.line =
          pre.filterMap LogLine.line ++ .access b :: post.filterMap LogLine.line := by
        simp [LogLine.line]
      have hid : Line.eventId (.access b) = some a.eventId := congrArg some hb
      have hself : Line.eventId (.access a) = some a.eventId := rfl
      rw [show a.tid = (Line.access a).tid from rfl, printedBy_append_event, hline] at hnd
      simp [printedBy, Line.tid, hbt, hid, hself, List.nodup_append] at hnd
    unfold IsAccessNode at hn hm
    rw [hasLine_append_singleton] at hn hm
    rcases hn with hn | ⟨a, hline, ht, hid, hn⟩
    · rcases hm with hm | ⟨b, hline, ht, hid, -⟩
      · exact ih h.of_append hn hm
      · exact absurd hid (hfresh n hn b hline ht)
    · rcases hm with hm | ⟨b, hline', -, -, hm⟩
      · exact absurd hid (hfresh m hm a hline ht)
      · rw [hline] at hline'
        cases hline'
        exact Option.some.inj (hn.symm.trans hm)

/-- A dependency names a write and a read that its thread has printed. -/
theorem AllCoherent.exists_nodes {p : PdLine} (h : AllCoherent (lines ++ [.event (.pd p)])) :
    ∃ w r, IsAccessNode lines p.tid p.writeEventId w ∧ w.itype = .write ∧ w.tid = p.tid ∧
      IsAccessNode lines p.tid p.readEventId r ∧ r.itype = .read ∧ r.tid = p.tid := by
  have hcoh := h p.tid
  have happ := printedBy_append_event lines (.pd p)
  rw [show (Line.pd p).tid = p.tid from rfl] at happ
  rw [happ] at hcoh
  have hfind : ∀ a, Line.access a ∈ printedBy p.tid (lines.filterMap LogLine.line) → ∃ n,
      IsAccessNode lines p.tid a.eventId n ∧ n.itype = (if a.isWrite then .write else .read) ∧
        n.tid = p.tid := by
    intro a ha
    obtain ⟨⟨pre, line, post, hlines, rfl⟩, ht⟩ := mem_printedBy.mp ha
    exact ⟨_, ⟨pre, _, post, hlines, a, rfl, ht, rfl, rfl⟩, rfl, ht⟩
  obtain ⟨a, ha, haw, hid⟩ := hcoh.write _ p [] rfl
  obtain ⟨b, hb, hbr, hid'⟩ := hcoh.read _ p [] rfl
  obtain ⟨w, hw, hwt, hwtid⟩ := hfind a ha
  obtain ⟨r, hr, hrt, hrtid⟩ := hfind b hb
  rw [hid] at hw
  rw [hid'] at hr
  rw [haw] at hwt
  rw [hbr] at hrt
  exact ⟨w, r, hw, hwt, hwtid, hr, hrt, hrtid⟩

theorem isAccessNode_append_of_ne {line : LogLine} (hline : ∀ a, line ≠ .event (.access a)) :
    IsAccessNode (lines ++ [line]) tid eventId n ↔ IsAccessNode lines tid eventId n := by
  unfold IsAccessNode
  rw [hasLine_append_singleton]
  refine or_iff_left_of_imp ?_
  rintro ⟨a, he, -⟩
  exact absurd he (hline a)

/-- A line that is neither an access nor a dependency only changes the nodes and the edges. -/
theorem Reads.other (h : Reads lines s) {line : LogLine} (haccess : ∀ a, line ≠ .event (.access a))
    (hpd : ∀ p, line ≠ .event (.pd p)) {b : HBGBuilder}
    (hb : b = line.read s.hbgBuilder (lines.length + 1)) :
    Reads (lines ++ [line]) { s with hbgBuilder := b } where
  builder := by
    rw [readLines_append_singleton, ← h.builder]
    exact hb
  event := fun tid eventId n hn => h.event tid eventId n ((isAccessNode_append_of_ne haccess).mp hn)
  dependencies := h.dependencies
  dependency := by
    intro w r
    rw [hasLine_append_singleton, ← h.dependency w r]
    refine (or_iff_left_of_imp ?_).symm
    rintro ⟨p, he, -⟩
    exact absurd he (hpd p)
  ranges := h.ranges

theorem Reads.access (h : Reads lines s) {a : AccessLine}
    (hall : AllCoherent (lines ++ [.event (.access a)])) (ha : a.Valid) :
    ∃ s', readBack a.print s (lines.length + 1) = some (.ok s') ∧
      Reads (lines ++ [.event (.access a)]) s' := by
  refine ⟨_, readBack_access ha s (lines.length + 1), ?_, ?_, h.dependencies, ?_, h.ranges⟩
  · rw [readLines_append_singleton, ← h.builder]
    rfl
  · intro tid eventId n hn
    rw [event_addEvent_eq]
    have hself : IsAccessNode (lines ++ [.event (.access a)]) a.tid a.eventId
        (a.node s.hbgBuilder.nextIdent (lines.length + 1)) := by
      refine ⟨lines, _, [], rfl, a, rfl, rfl, rfl, ?_⟩
      rw [h.builder]
      rfl
    split_ifs with hsame
    · obtain ⟨rfl, rfl⟩ := hsame
      rw [hall.access_unique hn hself]
    · refine h.event tid eventId n ?_
      unfold IsAccessNode at hn
      rw [hasLine_append_singleton] at hn
      refine hn.resolve_right ?_
      rintro ⟨b, he, ht, hid, -⟩
      cases he
      exact hsame ⟨ht, hid⟩
  · intro w r
    rw [hasLine_append_singleton, ← h.dependency w r]
    refine (or_iff_left_of_imp ?_).symm
    rintro ⟨p, he, -⟩
    cases he

theorem Reads.pd (h : Reads lines s) {p : PdLine} (hall : AllCoherent (lines ++ [.event (.pd p)]))
    (hp : p.Valid) : ∃ s', readBack p.print s (lines.length + 1) = some (.ok s') ∧
      Reads (lines ++ [.event (.pd p)]) s' := by
  obtain ⟨w, r, hw, hwt, hwtid, hr, hrt, hrtid⟩ := hall.exists_nodes
  have hadd : s.pdgBuilder.addDependency w r =
      .ok { s.pdgBuilder with graph := s.pdgBuilder.graph.addEdge w r () } := by
    unfold PDGBuilder.addDependency
    simp [hwt, hrt, hwtid, hrtid, pyAssert]
  have hread := readBack_pd hp s (lines.length + 1)
  rw [h.event _ _ _ hr, h.event _ _ _ hw, ok_bind, ok_bind, hadd, ok_bind] at hread
  refine ⟨_, hread, ?_, fun tid eventId n hn => ?_, h.dependencies, fun w' r' => ?_, h.ranges⟩
  · rw [readLines_append_singleton]
    exact h.builder
  · exact h.event tid eventId n ((isAccessNode_append_of_ne (by simp)).mp hn)
  · rw [hasLine_append_singleton, Digraph.hasEdge_addEdge, h.dependency]
    refine or_congr_right ⟨?_, ?_⟩
    · rintro ⟨rfl, rfl⟩
      exact ⟨p, rfl, hw, hr⟩
    · rintro ⟨p', he, hw', hr'⟩
      cases he
      exact ⟨hall.of_append.access_unique hw' hw, hall.of_append.access_unique hr' hr⟩

/-- The parser reads the next line. -/
theorem Reads.next (h : Reads lines s) {line : LogLine} (hok : line.Ok) (htid : line.TidsFit)
    (hall : AllCoherent (lines ++ [line])) :
    ∃ s', readBack line.print s (lines.length + 1) = some (.ok s') ∧ Reads
    (lines ++ [line]) s' := by
  cases line with
  | epochInc t fromEpoch toEpoch comment =>
    have hfits : CommentFits (some comment) := fun text ht => Option.some.inj ht ▸ hok.2
    have hread := readBack_logEpochInc htid fromEpoch toEpoch hfits s (lines.length + 1)
    refine ⟨_, hread, ?_⟩
    have hone : (if lowInt fromEpoch ≠ lowInt toEpoch then
        { s with hbgBuilder := s.hbgBuilder.addEpochNode t (lowInt toEpoch) } else s) =
        { s with
          hbgBuilder := (LogLine.epochInc t fromEpoch toEpoch comment).read s.hbgBuilder
            (lines.length + 1) } := by
      unfold LogLine.read
      dsimp only
      split_ifs <;> rfl
    rw [hone]
    exact h.other (by simp) (by simp) rfl
  | happensBeforeEdge st se tt te comment =>
    have hfits : CommentFits (some comment) := fun text ht => Option.some.inj ht ▸ hok
    exact ⟨_, readBack_logHappensBeforeEdge htid.1 htid.2 se te hfits s (lines.length + 1),
      h.other (by simp) (by simp) rfl⟩
  | event line =>
    have hvalid : line.Valid := by
      have hmem : line ∈ printedBy line.tid
          ((lines ++ [LogLine.event line]).filterMap LogLine.line) := by
        rw [printedBy_append_event]
        exact List.mem_append_right _ List.mem_cons_self
      exact ((hall line.tid).valid line hmem).1
    cases line with
    | access a => exact h.access hall hvalid
    | flush f =>
      exact ⟨_, readBack_flush hvalid s (lines.length + 1), h.other (by simp) (by simp) rfl⟩
    | pd p => exact h.pd hall hvalid

/-- The lines are printed, and every prefix of them is read. -/
theorem exists_texts (hok : ∀ line ∈ lines, line.Ok) (htid : ∀ line ∈ lines, line.TidsFit)
    (hall : AllCoherent lines) : ∃ texts, lines.mapM LogLine.print = some texts ∧
      texts.length = lines.length ∧
      ∀ k, ∃ s, TraceParser.parse (texts.take k) none none = .ok s ∧ Reads (lines.take k) s := by
  induction lines using List.reverseRecOn with
  | nil =>
    refine ⟨[], rfl, rfl, fun k => ⟨.new, ?_, ?_⟩⟩
    · rw [List.take_nil]
      rfl
    · rw [List.take_nil]
      exact reads_new
  | append_singleton lines line ih =>
    obtain ⟨texts, htexts, hlen, hparse⟩ := ih (fun l hl => hok l (List.mem_append_left _ hl))
      (fun l hl => htid l (List.mem_append_left _ hl)) hall.of_append
    obtain ⟨s, hs, hreads⟩ := hparse lines.length
    rw [List.take_length] at hreads
    rw [← hlen, List.take_length] at hs
    obtain ⟨s', hread, hreads'⟩ := hreads.next (hok line (by simp)) (htid line (by simp)) hall
    obtain ⟨text, hprint, hread⟩ := Option.map_eq_some_iff.mp hread
    refine ⟨texts ++ [text], ?_, by simp [hlen], fun k => ?_⟩
    · simp [List.mapM_append, htexts, hprint]
    · by_cases hk : k ≤ lines.length
      · rw [List.take_append_of_le_length (hlen.symm ▸ hk), List.take_append_of_le_length hk]
        exact hparse k
      · refine ⟨s', ?_, ?_⟩
        · rw [List.take_of_length_le (by simp; omega), parse_append_singleton, hs, ok_bind, hlen]
          exact hread
        · rw [List.take_of_length_le (by simp; omega)]
          exact hreads'

end Reading

end Prd.Runtime
