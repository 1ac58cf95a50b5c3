import Prd.Runtime.PendingReads
import Prd.Runtime.TraceLines

/-!
# The lines of events

A line for an access to persistent memory starts with an event id and ends in the call
stack. The lines of flushes have no id, and those of dependencies name the ids of the
accesses. The parser reads every such line back.
-/
namespace Prd.Runtime

open Prd.Pycprd PyStr

/-- The bit of the addresses that stand for no machine code. -/
def kExternalPCBit : ℕ := 2 ^ 60

def kStackTraceMax : ℕ := 256

/-- The page size of x86-64. -/
def getPageSizeCached : ℕ := 4096

/-- `pc - 1` on 64-bit words. -/
def getPreviousInstructionPc (pc : ℕ) : ℕ := (pc + (2 ^ 64 - 1)) % 2 ^ 64

/-- The address that is printed for a return address. -/
def symbolPc (pc : ℕ) : ℕ := if pc &&& kExternalPCBit = 0 then getPreviousInstructionPc pc else pc

def sGetSymbolInfo (iss : InternalScopedString) (pc : ℕ) : Option InternalScopedString :=
  iss.append "%p" [.pointer (symbolPc pc)]

/-- `trace` is the stack as it was obtained, its top last. -/
def sLogCallstack (iss : InternalScopedString) (trace : List ℕ) : Option InternalScopedString :=
  trace.reverse.foldlM (fun iss pc => iss.append "%p%c" [.pointer (symbolPc pc), .char ',']) iss

/-- What a READ or WRITE line is printed for. -/
structure AccessLine where
  tid : ℕ
  eventId : ℕ
  isWrite : Bool
  pc : ℕ
  addr : ℕ
  accessSizeLog : ℕ
  isAtomic : Bool
  isNonTemporal : Bool
  trace : List ℕ
  deriving DecidableEq

def AccessLine.key (a : AccessLine) : String := if a.isWrite then "WRITE" else "READ"

def AccessLine.print (a : AccessLine) : Option PyStr := do
  let res : InternalScopedString := ⟨[], 2 * getPageSizeCached⟩
  let res ← res.append "%llu:%d:%s:%p:%p:%d:" [.unsigned a.eventId, .signed a.tid,
    .string a.key.toList, .pointer a.pc, .pointer a.addr, .signed (2 ^ a.accessSizeLog : ℕ)]
  let res ← sGetSymbolInfo res a.pc
  let res ← res.append ":%d:%d" [.signed a.isAtomic.toNat, .signed a.isNonTemporal.toNat]
  let res ← res.append "%c" [.char '|']
  let res ← sLogCallstack res a.trace
  let res ← res.append "\n" []
  printf res.data []

structure FlushLine where
  tid : ℕ
  pc : ℕ
  addr : ℕ
  deriving DecidableEq

def FlushLine.print (f : FlushLine) : Option PyStr := do
  let res ← sGetSymbolInfo ⟨[], 2 * getPageSizeCached⟩ f.pc
  printf "%d:FLUSH:%p:%p:%d:%s\n".toList [.signed f.tid, .pointer f.pc, .pointer f.addr,
    .signed kCacheLineSize, .string res.data]

def PdLine.print (p : PdLine) : Option PyStr :=
  printf "%llu:PD:%p:%llu:%p:%llu\n".toList [.unsigned p.tid, .pointer p.readPc,
    .unsigned p.readEventId, .pointer p.writePc, .unsigned p.writeEventId]

/-- The values are in the ranges of their types, the size is at most 8, and there is a stack. -/
structure AccessLine.Valid (a : AccessLine) : Prop where
  tid : a.tid < 2 ^ 31
  eventId : a.eventId < 2 ^ 64
  pc : a.pc < 2 ^ 64
  addr : a.addr < 2 ^ 64
  accessSizeLog : a.accessSizeLog ≤ 3
  trace_ne_nil : a.trace ≠ []
  trace_length : a.trace.length ≤ kStackTraceMax
  trace : ∀ pc ∈ a.trace, pc < 2 ^ 64

structure FlushLine.Valid (f : FlushLine) : Prop where
  tid : f.tid < 2 ^ 31
  pc : f.pc < 2 ^ 64
  addr : f.addr < 2 ^ 64

structure PdLine.Valid (p : PdLine) : Prop where
  tid : p.tid < 2 ^ 31
  readPc : p.readPc < 2 ^ 64
  readEventId : p.readEventId < 2 ^ 64
  writePc : p.writePc < 2 ^ 64
  writeEventId : p.writeEventId < 2 ^ 64

section Texts

theorem symbolPc_lt {pc : ℕ} (hpc : pc < 2 ^ 64) : symbolPc pc < 2 ^ 64 := by
  unfold symbolPc getPreviousInstructionPc
  split_ifs
  · exact Nat.mod_lt _ (by decide)
  · exact hpc

theorem isFieldText_appendPointer (v : ℕ) : IsFieldText (appendPointer v) := by
  refine ⟨?_, fun c hc => isFieldChar_of_isAlphanum (isAlphanum_of_mem_appendPointer hc)⟩
  rw [appendPointer_eq]
  exact List.cons_ne_nil _ _

theorem anyInt_appendPointer (v : ℕ) : anyInt (appendPointer v) = .ok (v : ℤ) := by
  rw [appendPointer_eq]
  exact anyInt_hex v _

/-- What fits is appended as it is. -/
theorem append_eq {s : InternalScopedString} {fmt : String} {args : List PrintfArg} {text : PyStr}
    (h : format fmt.toList args = some text) (hlen : s.data.length + text.length < s.size) :
    s.append fmt args = some { s with data := s.data ++ text } := by
  have htake : (s.data ++ text).take (s.size - 1) = s.data ++ text := by
    apply List.take_of_length_le
    rw [List.length_append]
    omega
  unfold InternalScopedString.append
  rw [h, Option.map_some, htake]

theorem format_p (v : ℕ) : format "%p".toList [.pointer v] = some (appendPointer v) := by
  have hfmt : "%p".toList = ['%', 'p'] := by simp
  unfold format
  rw [hfmt]
  simp only [List.length_cons, List.length_nil, vsnPrintf_p, vsnPrintf_nil, Option.map_some,
    List.append_nil]

/-- The text of a call stack: every address is followed by a comma. -/
def stackText (frames : List ℕ) : PyStr :=
  frames.flatMap fun pc => appendPointer (symbolPc pc) ++ [',']

theorem sGetSymbolInfo_eq {s : InternalScopedString} {pc : ℕ} (hpc : pc < 2 ^ 64)
    (hlen : s.data.length + 18 < s.size) :
    sGetSymbolInfo s pc = some { s with data := s.data ++ appendPointer (symbolPc pc) } := by
  have hptr := length_appendPointer_le (symbolPc_lt hpc)
  exact append_eq (format_p _) (by omega)

theorem format_pc (v : ℕ) :
    format "%p%c".toList [.pointer v, .char ','] = some (appendPointer v ++ [',']) := by
  have hfmt : "%p%c".toList = ['%', 'p', '%', 'c'] := by simp
  unfold format
  rw [hfmt]
  simp only [List.length_cons, List.length_nil, vsnPrintf_p, vsnPrintf_c, vsnPrintf_nil,
    Option.map_some]

theorem length_stackText_le {frames : List ℕ} (hframes : ∀ pc ∈ frames, pc < 2 ^ 64) :
    (stackText frames).length ≤ 19 * frames.length := by
  unfold stackText
  induction frames with
  | nil => simp
  | cons pc frames ih =>
    have hptr := length_appendPointer_le (symbolPc_lt (hframes pc List.mem_cons_self))
    have hrest := ih fun pc' hpc' => hframes pc' (List.mem_cons_of_mem _ hpc')
    simp only [List.flatMap_cons, List.length_append, List.length_cons, List.length_nil]
    omega

theorem appendFrames_eq {s : InternalScopedString} {frames : List ℕ}
    (hframes : ∀ pc ∈ frames, pc < 2 ^ 64) (hlen : s.data.length + 19 * frames.length < s.size) :
    frames.foldlM (fun iss pc => iss.append "%p%c" [.pointer (symbolPc pc), .char ',']) s =
      some { s with data := s.data ++ stackText frames } := by
  unfold stackText
  induction frames generalizing s with
  | nil => simp
  | cons pc frames ih =>
    have hptr := length_appendPointer_le (symbolPc_lt (hframes pc List.mem_cons_self))
    rw [List.length_cons] at hlen
    have hone : (appendPointer (symbolPc pc) ++ [',']).length ≤ 19 := by
      rw [List.length_append, List.length_singleton]
      omega
    have happend : s.append "%p%c" [.pointer (symbolPc pc), .char ','] =
        some { s with data := s.data ++ (appendPointer (symbolPc pc) ++ [',']) } :=
      append_eq (format_pc _) (by omega)
    have hlen' : (s.data ++ (appendPointer (symbolPc pc) ++ [','])).length + 19 * frames.length <
        s.size := by
      rw [List.length_append]
      omega
    have hrest := ih (s := { s with data := s.data ++ (appendPointer (symbolPc pc) ++ [',']) })
      (fun pc' hpc' => hframes pc' (List.mem_cons_of_mem _ hpc')) hlen'
    rw [List.foldlM_cons, happend, Option.bind_eq_bind, Option.bind_some, hrest, List.flatMap_cons,
      List.append_assoc]

theorem isFieldChar_of_mem_stackText {frames : List ℕ} {c : Char} (hc : c ∈ stackText frames) :
    isFieldChar c = true ∧ c ≠ '|' := by
  obtain ⟨pc, -, hc⟩ := List.mem_flatMap.mp hc
  rcases List.mem_append.mp hc with hc | hc
  · have hword := isAlphanum_of_mem_appendPointer hc
    refine ⟨isFieldChar_of_isAlphanum hword, ?_⟩
    rintro rfl
    cases hword
  · rw [List.mem_singleton.mp hc]
    exact ⟨rfl, by decide⟩

/-- The fields after the key. -/
def AccessLine.fields (a : AccessLine) : List PyStr :=
  [appendPointer a.pc, appendPointer a.addr, Nat.toDigits 10 (2 ^ a.accessSizeLog),
    appendPointer (symbolPc a.pc), Nat.toDigits 10 a.isAtomic.toNat,
    Nat.toDigits 10 a.isNonTemporal.toNat ++ '|' :: stackText a.trace.reverse]

theorem AccessLine.isFieldText_fields (a : AccessLine) : ∀ field ∈ a.fields, IsFieldText field := by
  have hlast :
      IsFieldText (Nat.toDigits 10 a.isNonTemporal.toNat ++ '|' :: stackText a.trace.reverse) := by
    refine ⟨by simp, fun c hc => ?_⟩
    rcases List.mem_append.mp hc with hc | hc
    · exact (isFieldText_toDigits _).2 c hc
    · rcases List.mem_cons.mp hc with rfl | hc
      · rfl
      · exact (isFieldChar_of_mem_stackText hc).1
  simp [AccessLine.fields, isFieldText_appendPointer, isFieldText_toDigits, hlast]

theorem AccessLine.ofStr_key (a : AccessLine) : TraceKey.ofStr a.key.toList =
    some (.instruction (if a.isWrite then .write else .read)) := by
  unfold AccessLine.key
  split_ifs
  · rfl
  · rfl

theorem length_toDigits_le {n k : ℕ} (hk : 0 < k) (hn : n < 10 ^ k) :
    (Nat.toDigits 10 n).length ≤ k :=
  (Nat.length_toDigits_le_iff (by decide) hk).mpr hn

theorem signedText_lowInt {v : ℕ} (hv : v < 2 ^ 31) :
    signedText (lowInt v) = Nat.toDigits 10 v := by
  rw [lowInt_of_lt hv, signedText_nat]

/-- The text up to the size and the colon behind it. -/
def AccessLine.head (a : AccessLine) : PyStr :=
  join ':' [Nat.toDigits 10 a.eventId, Nat.toDigits 10 a.tid, a.key.toList, appendPointer a.pc,
    appendPointer a.addr, Nat.toDigits 10 (2 ^ a.accessSizeLog)] ++ [':']

theorem AccessLine.size_lt {a : AccessLine} (h : a.Valid) : 2 ^ a.accessSizeLog < 10 := by
  have hpow : 2 ^ a.accessSizeLog ≤ 2 ^ 3 := Nat.pow_le_pow_right (by decide) h.accessSizeLog
  omega

theorem AccessLine.format_head {a : AccessLine} (h : a.Valid) :
    format "%llu:%d:%s:%p:%p:%d:".toList [.unsigned a.eventId, .signed a.tid, .string a.key.toList,
      .pointer a.pc, .pointer a.addr, .signed (2 ^ a.accessSizeLog : ℕ)] = some a.head := by
  have hfmt : "%llu:%d:%s:%p:%p:%d:".toList = ['%', 'l', 'l', 'u', ':', '%', 'd', ':', '%', 's',
      ':', '%', 'p', ':', '%', 'p', ':', '%', 'd', ':'] := by simp
  have hsize := size_lt h
  unfold format AccessLine.head
  rw [hfmt]
  simp (disch := first | decide | exact h.eventId) only [List.length_cons, List.length_nil,
    vsnPrintf_char, vsnPrintf_llu, vsnPrintf_d, vsnPrintf_s, vsnPrintf_p, vsnPrintf_nil,
    Option.map_some]
  rw [signedText_lowInt h.tid, signedText_lowInt (by omega)]
  simp [join_cons_cons, join_singleton]

theorem AccessLine.length_head_le {a : AccessLine} (h : a.Valid) : a.head.length ≤ 80 := by
  have h₁ : (Nat.toDigits 10 a.eventId).length ≤ 20 :=
    length_toDigits_le (by decide) (lt_trans h.eventId (by decide))
  have h₂ : (Nat.toDigits 10 a.tid).length ≤ 10 :=
    length_toDigits_le (by decide) (lt_trans h.tid (by decide))
  have h₃ : a.key.toList.length ≤ 5 := by
    unfold AccessLine.key
    split_ifs
    · exact le_rfl
    · exact Nat.le_succ 4
  have h₄ := length_appendPointer_le h.pc
  have h₅ := length_appendPointer_le h.addr
  have h₆ : (Nat.toDigits 10 (2 ^ a.accessSizeLog)).length ≤ 1 :=
    length_toDigits_le (by decide) (size_lt h)
  unfold AccessLine.head
  simp only [join_cons_cons, join_singleton, List.length_append, List.length_cons, List.length_nil]
  omega

theorem toNat_lt (b : Bool) : b.toNat < 10 := by
  cases b
  · decide
  · decide

/-- The text of the flags. -/
def AccessLine.flagsText (a : AccessLine) : PyStr :=
  ':' :: (Nat.toDigits 10 a.isAtomic.toNat ++ ':' :: Nat.toDigits 10 a.isNonTemporal.toNat)

theorem AccessLine.format_flags (a : AccessLine) : format ":%d:%d".toList
    [.signed a.isAtomic.toNat, .signed a.isNonTemporal.toNat] = some a.flagsText := by
  have hfmt : ":%d:%d".toList = [':', '%', 'd', ':', '%', 'd'] := by simp
  have hb := toNat_lt a.isAtomic
  have hc := toNat_lt a.isNonTemporal
  unfold format AccessLine.flagsText
  rw [hfmt]
  simp (disch := decide) only [List.length_cons, List.length_nil, vsnPrintf_char, vsnPrintf_d,
    vsnPrintf_nil, Option.map_some]
  rw [signedText_lowInt (by omega), signedText_lowInt (by omega), List.append_nil]

theorem AccessLine.length_flagsText_le (a : AccessLine) : a.flagsText.length ≤ 4 := by
  have hatomic : (Nat.toDigits 10 a.isAtomic.toNat).length ≤ 1 :=
    length_toDigits_le (by decide) (toNat_lt _)
  have hnonTemporal : (Nat.toDigits 10 a.isNonTemporal.toNat).length ≤ 1 :=
    length_toDigits_le (by decide) (toNat_lt _)
  unfold AccessLine.flagsText
  simp only [List.length_cons, List.length_append]
  omega

theorem format_plain {fmt : PyStr} (h : '%' ∉ fmt) : format fmt [] = some fmt :=
  vsnPrintf_plain (Nat.lt_succ_self _) h []

theorem format_c (c : Char) : format "%c".toList [.char c] = some [c] := by
  have hfmt : "%c".toList = ['%', 'c'] := by simp
  unfold format
  rw [hfmt]
  simp only [List.length_cons, List.length_nil, vsnPrintf_c, vsnPrintf_nil, Option.map_some]

theorem percent_notMem_join {fields : List PyStr} (h : ∀ field ∈ fields, IsFieldText field) :
    '%' ∉ join ':' fields ++ ['\n'] := by
  intro hmem
  rcases List.mem_append.mp hmem with hmem | hmem
  · rcases mem_join hmem with hc | ⟨field, hfield, hc⟩
    · cases hc
    · exact (h field hfield).notMem rfl hc
  · exact absurd hmem (by decide)

theorem AccessLine.isFieldText (a : AccessLine) : ∀ field ∈ Nat.toDigits 10 a.eventId ::
    Nat.toDigits 10 a.tid :: a.key.toList :: a.fields, IsFieldText field := by
  intro field hfield
  rcases List.mem_cons.mp hfield with rfl | hfield
  · exact isFieldText_toDigits a.eventId
  · exact TraceParser.isFieldText_of_mem a.tid a.ofStr_key a.isFieldText_fields field hfield

/-- The text of an access. -/
theorem AccessLine.print_eq {a : AccessLine} (h : a.Valid) :
    a.print = some (join ':' (Nat.toDigits 10 a.eventId :: Nat.toDigits 10 a.tid ::
      a.key.toList :: a.fields) ++ ['\n']) := by
  have hsize : 2 * getPageSizeCached = 8192 := rfl
  have hframes : ∀ pc ∈ a.trace.reverse, pc < 2 ^ 64 :=
    fun pc hpc => h.trace pc (List.mem_reverse.mp hpc)
  have hcount : a.trace.reverse.length ≤ 256 := by
    rw [List.length_reverse]
    exact h.trace_length
  have hhead := length_head_le h
  have hsymbol := length_appendPointer_le (symbolPc_lt h.pc)
  have hflags := a.length_flagsText_le
  have hstack := length_stackText_le hframes
  have h₁ : InternalScopedString.append ⟨[], 2 * getPageSizeCached⟩ "%llu:%d:%s:%p:%p:%d:"
      [.unsigned a.eventId, .signed a.tid, .string a.key.toList, .pointer a.pc, .pointer a.addr,
        .signed (2 ^ a.accessSizeLog : ℕ)] = some ⟨a.head, 2 * getPageSizeCached⟩ := by
    apply append_eq (format_head h)
    simp only [List.length_nil, hsize]
    omega
  have h₂ : sGetSymbolInfo ⟨a.head, 2 * getPageSizeCached⟩ a.pc =
      some ⟨a.head ++ appendPointer (symbolPc a.pc), 2 * getPageSizeCached⟩ := by
    apply sGetSymbolInfo_eq h.pc
    simp only [hsize]
    omega
  have h₃ : InternalScopedString.append
      ⟨a.head ++ appendPointer (symbolPc a.pc), 2 * getPageSizeCached⟩ ":%d:%d"
      [.signed a.isAtomic.toNat, .signed a.isNonTemporal.toNat] =
        some ⟨a.head ++ appendPointer (symbolPc a.pc) ++ a.flagsText, 2 * getPageSizeCached⟩ := by
    apply append_eq a.format_flags
    simp only [List.length_append, hsize]
    omega
  have h₄ : InternalScopedString.append
      ⟨a.head ++ appendPointer (symbolPc a.pc) ++ a.flagsText, 2 * getPageSizeCached⟩ "%c"
      [.char '|'] = some ⟨a.head ++ appendPointer (symbolPc a.pc) ++ a.flagsText ++ ['|'],
        2 * getPageSizeCached⟩ := by
    apply append_eq (format_c _)
    simp only [List.length_append, List.length_singleton, hsize]
    omega
  have h₅ : sLogCallstack ⟨a.head ++ appendPointer (symbolPc a.pc) ++ a.flagsText ++ ['|'],
      2 * getPageSizeCached⟩ a.trace = some ⟨a.head ++ appendPointer (symbolPc a.pc) ++
        a.flagsText ++ ['|'] ++ stackText a.trace.reverse, 2 * getPageSizeCached⟩ := by
    apply appendFrames_eq hframes
    simp only [List.length_append, List.length_singleton, hsize]
    omega
  have h₆ : InternalScopedString.append ⟨a.head ++ appendPointer (symbolPc a.pc) ++ a.flagsText ++
      ['|'] ++ stackText a.trace.reverse, 2 * getPageSizeCached⟩ "\n" [] = some ⟨a.head ++
        appendPointer (symbolPc a.pc) ++ a.flagsText ++ ['|'] ++ stackText a.trace.reverse ++
          ['\n'], 2 * getPageSizeCached⟩ := by
    have hnewline : "\n".toList.length = 1 := rfl
    apply append_eq (format_plain (by decide))
    simp only [List.length_append, List.length_singleton, hsize, hnewline]
    omega
  have htext : a.head ++ appendPointer (symbolPc a.pc) ++ a.flagsText ++ ['|'] ++
      stackText a.trace.reverse ++ ['\n'] = join ':' (Nat.toDigits 10 a.eventId ::
        Nat.toDigits 10 a.tid :: a.key.toList :: a.fields) ++ ['\n'] := by
    simp [AccessLine.head, AccessLine.flagsText, AccessLine.fields, join_cons_cons, join_singleton]
  unfold AccessLine.print
  simp only [h₁, h₂, h₃, h₄, h₅, h₆, htext, Option.bind_eq_bind, Option.bind_some]
  apply printf_plain _ (percent_notMem_join a.isFieldText)
  rw [← htext]
  simp only [List.length_append, List.length_singleton]
  unfold kLen
  omega

/-- The fields after the key. -/
def FlushLine.fields (f : FlushLine) : List PyStr :=
  [appendPointer f.pc, appendPointer f.addr, Nat.toDigits 10 kCacheLineSize,
    appendPointer (symbolPc f.pc)]

theorem FlushLine.isFieldText_fields (f : FlushLine) : ∀ field ∈ f.fields, IsFieldText field := by
  simp [FlushLine.fields, isFieldText_appendPointer, isFieldText_toDigits]

theorem FlushLine.print_eq {f : FlushLine} (h : f.Valid) :
    f.print = some (join ':' (Nat.toDigits 10 f.tid :: "FLUSH".toList :: f.fields) ++ ['\n']) := by
  have hsize : 2 * getPageSizeCached = 8192 := rfl
  have hfmt : "%d:FLUSH:%p:%p:%d:%s\n".toList = ['%', 'd', ':', 'F', 'L', 'U', 'S', 'H', ':', '%',
      'p', ':', '%', 'p', ':', '%', 'd', ':', '%', 's', '\n'] := by simp
  have hkey : "FLUSH".toList = ['F', 'L', 'U', 'S', 'H'] := by simp
  have hsymbol := length_appendPointer_le (symbolPc_lt h.pc)
  have hinfo : sGetSymbolInfo ⟨[], 2 * getPageSizeCached⟩ f.pc =
      some ⟨appendPointer (symbolPc f.pc), 2 * getPageSizeCached⟩ := by
    apply sGetSymbolInfo_eq h.pc
    simp only [List.length_nil, hsize]
    omega
  unfold FlushLine.print
  rw [hinfo, Option.bind_eq_bind, Option.bind_some]
  apply printf_eq
  · unfold format
    rw [hfmt, hkey]
    simp (disch := decide) only [List.length_cons, List.length_nil, vsnPrintf_char, vsnPrintf_d,
      vsnPrintf_p, vsnPrintf_s, vsnPrintf_nil, Option.map_some]
    rw [signedText_lowInt h.tid, signedText_lowInt (by decide)]
    simp [FlushLine.fields, join_cons_cons, join_singleton]
  · have h₁ : (Nat.toDigits 10 f.tid).length ≤ 10 :=
      length_toDigits_le (by decide) (lt_trans h.tid (by decide))
    have h₂ := length_appendPointer_le h.pc
    have h₃ := length_appendPointer_le h.addr
    have h₄ : (Nat.toDigits 10 kCacheLineSize).length ≤ 2 :=
      length_toDigits_le (by decide) (by decide)
    simp only [FlushLine.fields, hkey, join_cons_cons, join_singleton, List.length_append,
      List.length_cons, List.length_nil]
    unfold kLen
    omega

/-- The fields after the key. -/
def PdLine.fields (p : PdLine) : List PyStr :=
  [appendPointer p.readPc, Nat.toDigits 10 p.readEventId, appendPointer p.writePc,
    Nat.toDigits 10 p.writeEventId]

theorem PdLine.isFieldText_fields (p : PdLine) : ∀ field ∈ p.fields, IsFieldText field := by
  simp [PdLine.fields, isFieldText_appendPointer, isFieldText_toDigits]

theorem PdLine.print_eq {p : PdLine} (h : p.Valid) :
    p.print = some (join ':' (Nat.toDigits 10 p.tid :: "PD".toList :: p.fields) ++ ['\n']) := by
  have hfmt : "%llu:PD:%p:%llu:%p:%llu\n".toList =
    ['%', 'l', 'l', 'u', ':', 'P', 'D', ':', '%', 'p',
      ':', '%', 'l', 'l', 'u', ':', '%', 'p', ':', '%', 'l', 'l', 'u', '\n'] := by simp
  have hkey : "PD".toList = ['P', 'D'] := by simp
  have htid : p.tid < 2 ^ 64 := lt_trans h.tid (by decide)
  unfold PdLine.print
  apply printf_eq
  · unfold format
    rw [hfmt, hkey]
    simp (disch := first | decide | exact htid | exact h.readEventId | exact h.writeEventId) only
      [List.length_cons, List.length_nil, vsnPrintf_char, vsnPrintf_llu, vsnPrintf_p, vsnPrintf_nil,
        Option.map_some]
    simp [PdLine.fields, join_cons_cons, join_singleton]
  · have h₁ : (Nat.toDigits 10 p.tid).length ≤ 20 :=
      length_toDigits_le (by decide) (lt_trans htid (by decide))
    have h₂ := length_appendPointer_le h.readPc
    have h₃ : (Nat.toDigits 10 p.readEventId).length ≤ 20 :=
      length_toDigits_le (by decide) (lt_trans h.readEventId (by decide))
    have h₄ := length_appendPointer_le h.writePc
    have h₅ : (Nat.toDigits 10 p.writeEventId).length ≤ 20 :=
      length_toDigits_le (by decide) (lt_trans h.writeEventId (by decide))
    simp only [PdLine.fields, hkey, join_cons_cons, join_singleton, List.length_append,
      List.length_cons, List.length_nil]
    unfold kLen
    omega

end Texts

section ReadBack

theorem isPrefixOf_appendPointer (v : ℕ) (text : PyStr) :
    "0x".toList.isPrefixOf (appendPointer v ++ text) = true := by
  have hstart : "0x".toList = ['0', 'x'] := by simp
  rw [appendPointer_eq, hstart]
  simp [List.isPrefixOf]

theorem comma_notMem_appendPointer (v : ℕ) : ',' ∉ appendPointer v := by
  intro hmem
  cases isAlphanum_of_mem_appendPointer hmem

/-- The addresses in front of a last one. -/
theorem split_stackText (frames : List ℕ) (pc : ℕ) :
    split (stackText frames ++ appendPointer (symbolPc pc)) ',' =
      (frames ++ [pc]).map fun pc => appendPointer (symbolPc pc) := by
  induction frames with
  | nil => exact split_of_notMem (comma_notMem_appendPointer _)
  | cons frame frames ih =>
    have htext : stackText (frame :: frames) ++ appendPointer (symbolPc pc) =
        appendPointer (symbolPc frame) ++ ',' ::
          (stackText frames ++ appendPointer (symbolPc pc)) := by
      simp [stackText]
    rw [htext, split_append (comma_notMem_appendPointer _), ih]
    rfl

/-- The comma after the last address is stripped. -/
theorem stripChar_stackText (frames : List ℕ) (pc : ℕ) :
    stripChar (stackText (frames ++ [pc])) ',' =
      stackText frames ++ appendPointer (symbolPc pc) := by
  have hptr : appendPointer (symbolPc pc) ≠ [] := (isFieldText_appendPointer _).1
  have hne : stackText frames ++ appendPointer (symbolPc pc) ≠ [] := by simp [hptr]
  have hhead : ((stackText frames ++ appendPointer (symbolPc pc)).head hne == ',') = false := by
    cases frames with
    | nil => simp [stackText, appendPointer_eq]
    | cons frame frames => simp [stackText, appendPointer_eq]
  have hlast : ((stackText frames ++ appendPointer (symbolPc pc)).getLast hne == ',') = false := by
    rw [List.getLast_append_of_ne_nil _ hptr, beq_eq_false_iff_ne]
    intro he
    exact comma_notMem_appendPointer _ (he ▸ List.getLast_mem hptr)
  have htext : stackText (frames ++ [pc]) =
      (stackText frames ++ appendPointer (symbolPc pc)) ++ [','] := by
    simp [stackText]
  unfold stripChar
  rw [htext, stripBy_append_singleton hne hhead rfl, stripBy_eq_self hne hhead hlast]

theorem mapM_anyInt_appendPointer (frames : List ℕ) :
    (frames.map fun pc => appendPointer (symbolPc pc)).mapM anyInt =
      .ok (frames.map fun pc => (symbolPc pc : ℤ)) := by
  induction frames with
  | nil => rfl
  | cons frame frames ih =>
    rw [List.map_cons, List.mapM_cons, anyInt_appendPointer, ok_bind, ih, ok_bind]
    rfl

/-- The addresses of a call stack are read back. -/
theorem mapM_anyInt_stackText {frames : List ℕ} (hne : frames ≠ []) :
    (split (stripChar (stackText frames) ',') ',').mapM anyInt =
      .ok (frames.map fun pc => (symbolPc pc : ℤ)) := by
  obtain ⟨frames, pc, rfl⟩ : ∃ fs pc, frames = fs ++ [pc] :=
    ⟨_, _, (List.dropLast_append_getLast hne).symm⟩
  rw [stripChar_stackText, split_stackText, mapM_anyInt_appendPointer]

theorem parseInfo_symbol (pc : ℕ) : TraceParser.parseInfo [appendPointer (symbolPc pc)] =
    .ok (false, false, .event ⟨symbolPc pc, []⟩) := by
  have hfield := isFieldText_appendPointer (symbolPc pc)
  have hstart := isPrefixOf_appendPointer (symbolPc pc) []
  have hfields : ∀ field ∈ [appendPointer (symbolPc pc)], IsFieldText field := by simp [hfield]
  have hstrip := strip_join (List.cons_ne_nil _ _) hfields
  have hbar : '|' ∉ appendPointer (symbolPc pc) := by
    intro hmem
    cases isAlphanum_of_mem_appendPointer hmem
  have hcolon : ':' ∉ appendPointer (symbolPc pc) := hfield.notMem rfl
  rw [List.append_nil] at hstart
  rw [join_singleton] at hstrip
  unfold TraceParser.parseInfo
  simp only [join_singleton, hstart, if_true, splitHead_of_notMem (hfield.notMem (c := '#') rfl),
    hstrip, split_of_notMem hbar, List.headD_cons, hcolon, if_false, anyInt_appendPointer, ok_bind]
  rfl

theorem AccessLine.parseInfo_fields (a : AccessLine) (hne : a.trace ≠ []) :
    TraceParser.parseInfo (a.fields.drop 3) = .ok (a.isAtomic, a.isNonTemporal,
      .event ⟨symbolPc a.pc, a.trace.reverse.map fun pc => (symbolPc pc : ℤ)⟩) := by
  have hflags : ∀ field ∈ [appendPointer (symbolPc a.pc), Nat.toDigits 10 a.isAtomic.toNat,
      Nat.toDigits 10 a.isNonTemporal.toNat], IsFieldText field ∧ '|' ∉ field := by
    have hdigits : ∀ n, '|' ∉ Nat.toDigits 10 n := not_mem_toDigits rfl
    have hptr : '|' ∉ appendPointer (symbolPc a.pc) := by
      intro hmem
      cases isAlphanum_of_mem_appendPointer hmem
    simp [isFieldText_appendPointer, isFieldText_toDigits, hdigits, hptr]
  have hbar : '|' ∉ join ':' [appendPointer (symbolPc a.pc), Nat.toDigits 10 a.isAtomic.toNat,
      Nat.toDigits 10 a.isNonTemporal.toNat] := by
    intro hmem
    rcases mem_join hmem with hc | ⟨field, hfield, hc⟩
    · cases hc
    · exact (hflags field hfield).2 hc
  have hstackBar : '|' ∉ stackText a.trace.reverse :=
    fun hmem => (isFieldChar_of_mem_stackText hmem).2 rfl
  have hinfo : join ':' (a.fields.drop 3) = join ':' [appendPointer (symbolPc a.pc),
      Nat.toDigits 10 a.isAtomic.toNat, Nat.toDigits 10 a.isNonTemporal.toNat] ++
        '|' :: stackText a.trace.reverse := by
    simp [AccessLine.fields, join_cons_cons, join_singleton]
  have hfields : ∀ field ∈ a.fields.drop 3, IsFieldText field :=
    fun field hfield => a.isFieldText_fields field (List.mem_of_mem_drop hfield)
  have hdrop : a.fields.drop 3 ≠ [] := List.cons_ne_nil _ _
  have hstart : "0x".toList.isPrefixOf (join ':' (a.fields.drop 3)) = true := by
    rw [hinfo, join_cons_cons, List.append_assoc]
    exact isPrefixOf_appendPointer _ _
  have hsplit : split (join ':' (a.fields.drop 3)) '|' = [join ':' [appendPointer (symbolPc a.pc),
      Nat.toDigits 10 a.isAtomic.toNat, Nat.toDigits 10 a.isNonTemporal.toNat],
        stackText a.trace.reverse] := by
    rw [hinfo, split_append hbar, split_of_notMem hstackBar]
  have hcolon : ':' ∈ join ':' [appendPointer (symbolPc a.pc), Nat.toDigits 10 a.isAtomic.toNat,
      Nat.toDigits 10 a.isNonTemporal.toNat] := by
    simp [join_cons_cons]
  have hparts :=
    split_join_fields (List.cons_ne_nil _ _) fun field hfield => (hflags field hfield).1
  have hstack := mapM_anyInt_stackText (List.reverse_ne_nil_iff.mpr hne)
  unfold TraceParser.parseInfo
  simp only [hstart, if_true, splitHead_of_notMem (hash_notMem_join hfields),
    strip_join hdrop hfields, hsplit, List.headD_cons, hcolon, hparts, List.mapM_cons,
    List.mapM_nil,
    anyInt_appendPointer, anyInt_toDigits, ok_bind, pure_bind]
  have hatomic : ((a.isAtomic.toNat : ℤ) != 0) = a.isAtomic := by cases a.isAtomic <;> rfl
  have hnonTemporal : ((a.isNonTemporal.toNat : ℤ) != 0) = a.isNonTemporal := by
    cases a.isNonTemporal <;> rfl
  simp only [List.getElem?_cons_succ, List.getElem?_cons_zero, hstack, ok_bind, hatomic,
    hnonTemporal]
  rfl

/-- The node of an access. -/
def AccessLine.node (a : AccessLine) (ident lineNumber : ℕ) : InstructionNode where
  ident := ident
  itype := if a.isWrite then .write else .read
  tid := a.tid
  pc := a.pc
  address := a.addr
  size := 2 ^ a.accessSizeLog
  isAtomic := a.isAtomic
  isNonTemporal := a.isNonTemporal
  info := .event ⟨symbolPc a.pc, a.trace.reverse.map fun pc => (symbolPc pc : ℤ)⟩
  traceLineNumber := some lineNumber
  eventId := some a.eventId
  itype_instruction := by split_ifs <;> rfl
  size_ne_zero := by simp

/-- The node of a flushed line. -/
def FlushLine.node (f : FlushLine) (ident lineNumber : ℕ) : InstructionNode where
  ident := ident
  itype := .flush
  tid := f.tid
  pc := f.pc
  address := f.addr
  size := kCacheLineSize
  isAtomic := false
  isNonTemporal := false
  info := .event ⟨symbolPc f.pc, []⟩
  traceLineNumber := some lineNumber
  eventId := none
  itype_instruction := NodeType.isInstructionType_flush
  size_ne_zero := kCacheLineSize_ne_zero

/-- The parser with one more node. -/
def withNode (s : TraceParser) (n : InstructionNode) : TraceParser :=
  { s with hbgBuilder := { s.hbgBuilder with
      nodes := s.hbgBuilder.nodes ++ [.instruction n], nextIdent := s.hbgBuilder.nextIdent + 1 } }

theorem addInstructionNode_eq (b : HBGBuilder) (n : InstructionNode) (hi : n.ident = b.nextIdent) :
    b.addInstructionNode n.itype n.tid n.pc n.address n.size n.info n.traceLineNumber n.isAtomic
      n.isNonTemporal n.eventId =
        .ok (n, { b with nodes := b.nodes ++ [.instruction n], nextIdent := b.nextIdent + 1 }) := by
  unfold HBGBuilder.addInstructionNode createInstructionNode
  rw [dif_pos n.itype_instruction, dif_pos n.size_ne_zero, ← hi]
  rfl

theorem readBack_access {a : AccessLine} (h : a.Valid) (s : TraceParser) (lineNumber : ℕ) :
    readBack a.print s lineNumber = some (.ok ((withNode s (a.node s.hbgBuilder.nextIdent
      lineNumber)).addEvent (a.node s.hbgBuilder.nextIdent lineNumber) a.eventId)) := by
  have hinfo := a.parseInfo_fields h.trace_ne_nil
  have hne : a.fields ≠ [] := List.cons_ne_nil _ _
  have hadd := addInstructionNode_eq s.hbgBuilder (a.node s.hbgBuilder.nextIdent lineNumber) rfl
  unfold readBack
  rw [a.print_eq h, Option.map_some, s.parseLine_id _ _ a.ofStr_key hne a.isFieldText_fields]
  unfold TraceParser.parseKey TraceParser.parseInstruction
  simp only [AccessLine.fields, List.drop_succ_cons, List.drop_zero] at hinfo ⊢
  simp only [anyInt_appendPointer, anyInt_toDigits, ok_bind, hinfo, TraceParser.natural_nat,
    TraceParser.mapM_natural_some]
  unfold AccessLine.node at hadd ⊢
  rw [hadd]
  rfl

theorem readBack_flush {f : FlushLine} (h : f.Valid) (s : TraceParser) (lineNumber : ℕ) :
    readBack f.print s lineNumber =
      some (.ok (withNode s (f.node s.hbgBuilder.nextIdent lineNumber))) := by
  have hkey : TraceKey.ofStr "FLUSH".toList = some (.instruction .flush) := rfl
  have hne : f.fields ≠ [] := List.cons_ne_nil _ _
  have hadd := addInstructionNode_eq s.hbgBuilder (f.node s.hbgBuilder.nextIdent lineNumber) rfl
  unfold readBack
  rw [f.print_eq h, Option.map_some, s.parseLine_plain _ hkey hne f.isFieldText_fields]
  unfold TraceParser.parseKey TraceParser.parseInstruction
  simp only [FlushLine.fields, anyInt_appendPointer, anyInt_toDigits, ok_bind, parseInfo_symbol,
    TraceParser.natural_nat, TraceParser.mapM_natural_none]
  unfold FlushLine.node at hadd ⊢
  rw [hadd]
  rfl

theorem readBack_pd {p : PdLine} (h : p.Valid) (s : TraceParser) (lineNumber : ℕ) :
    readBack p.print s lineNumber = some (do
      let readNode ← s.event p.tid p.readEventId
      let writeNode ← s.event p.tid p.writeEventId
      let pdgBuilder ← s.pdgBuilder.addDependency writeNode readNode
      pure { s with pdgBuilder := pdgBuilder }) := by
  have hkey : TraceKey.ofStr "PD".toList = some .pd := rfl
  have hne : p.fields ≠ [] := List.cons_ne_nil _ _
  unfold readBack
  rw [p.print_eq h, Option.map_some, s.parseLine_plain _ hkey hne p.isFieldText_fields]
  unfold TraceParser.parseKey TraceParser.parsePd
  simp only [PdLine.fields, List.length_cons, List.length_nil, List.mapM_cons, List.mapM_nil,
    anyInt_appendPointer, anyInt_toDigits, ok_bind, pure_bind, TraceParser.natural_nat]
  rw [if_neg (by decide)]

end ReadBack

end Prd.Runtime
