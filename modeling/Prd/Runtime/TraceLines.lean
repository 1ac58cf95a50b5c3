import Prd.Pycprd.TraceParser
import Prd.Runtime.Printf

/-!
# The lines of the logical clocks

The runtime prints a line for every new epoch of a thread and for every edge of the
happens-before relation, and the parser reads them back. Epochs have 64 bits, of which
the format keeps the lower half as a signed number.
-/
namespace Prd.Runtime

open Prd.Pycprd PyStr

/-- The width of an epoch. -/
def kClkBits : ℕ := 42

/-- A comment and what stands before it. -/
def commentArgs : Option PyStr → List PrintfArg
  | some comment => [.string "  # ".toList, .string comment]
  | none => [.string [], .string []]

def logHappensBeforeEdge (sourceThread sourceEpoch targetThread targetEpoch : ℕ)
    (comment : Option PyStr) : Option PyStr :=
  printf "%d:HB_EDGE:%d:%d:%d:%d%s%s\n".toList
    ([.signed targetThread, .signed sourceThread, .signed sourceEpoch, .signed targetThread,
      .signed targetEpoch] ++ commentArgs comment)

def logEpochInc (thread sourceEpoch targetEpoch : ℕ) (comment : Option PyStr) : Option PyStr :=
  printf "%d:EPOC_INC:%d:%d%s%s\n".toList
    ([.signed thread, .signed sourceEpoch, .signed targetEpoch] ++ commentArgs comment)

/-- The end of a line with a comment. -/
def commentText : Option PyStr → PyStr
  | some comment => "  # ".toList ++ comment
  | none => []

/-- The comment leaves room in the buffer for the rest of the line. -/
def CommentFits (comment : Option PyStr) : Prop := ∀ text ∈ comment, text.length ≤ 2 ^ 13

section Texts

theorem isComment_commentText (comment : Option PyStr) : IsComment (commentText comment) := by
  cases comment with
  | none => exact Or.inl rfl
  | some text => exact Or.inr ⟨' ' :: text, rfl⟩

theorem length_commentText_le {comment : Option PyStr} (h : CommentFits comment) :
    (commentText comment).length ≤ 2 ^ 13 + 4 := by
  cases comment with
  | none => exact Nat.zero_le _
  | some text =>
    have hlen := h text rfl
    have hstart : "  # ".toList.length = 4 := by rfl
    simp only [commentText, List.length_append, hstart]
    omega

theorem length_signedText_le (v : ℕ) : (signedText (lowInt v)).length ≤ 11 := by
  have habs : (lowInt v).natAbs ≤ 2 ^ 31 := by
    unfold lowInt
    split_ifs <;> omega
  have hdigits : (Nat.toDigits 10 (lowInt v).natAbs).length ≤ 10 :=
    (Nat.length_toDigits_le_iff (by decide) (by decide)).mpr (by omega)
  unfold signedText
  split_ifs
  · rw [List.length_cons]
    omega
  · omega

theorem isFieldText_signedText (z : ℤ) : IsFieldText (signedText z) := by
  have hdigits := isFieldText_toDigits z.natAbs
  unfold signedText
  split_ifs
  · refine ⟨List.cons_ne_nil _ _, fun c hc => ?_⟩
    rcases List.mem_cons.mp hc with rfl | hc
    · rfl
    · exact hdigits.2 c hc
  · exact hdigits

theorem anyInt_signedText (z : ℤ) : anyInt (signedText z) = .ok z := by
  unfold signedText
  split_ifs with hz
  · rw [anyInt_minus_toDigits]
    congr 1
    omega
  · rw [anyInt_toDigits]
    congr 1
    omega

theorem commentArgs_eq (comment : Option PyStr) : ∃ before text,
    commentArgs comment = [.string before, .string text] ∧
    commentText comment = before ++ text := by
  cases comment with
  | none => exact ⟨[], [], rfl, rfl⟩
  | some text => exact ⟨_, text, rfl, rfl⟩

theorem logHappensBeforeEdge_eq (st se tt te : ℕ) {comment : Option PyStr}
    (h : CommentFits comment) : logHappensBeforeEdge st se tt te comment =
      some (join ':' [signedText (lowInt tt), "HB_EDGE".toList, signedText (lowInt st),
        signedText (lowInt se), signedText (lowInt tt), signedText (lowInt te)] ++
          (commentText comment ++ ['\n'])) := by
  have hfmt : "%d:HB_EDGE:%d:%d:%d:%d%s%s\n".toList = ['%', 'd', ':', 'H', 'B', '_', 'E', 'D', 'G',
      'E', ':', '%', 'd', ':', '%', 'd', ':', '%', 'd', ':', '%', 'd', '%', 's', '%', 's',
      '\n'] := by
    simp
  have hkey : "HB_EDGE".toList = ['H', 'B', '_', 'E', 'D', 'G', 'E'] := by simp
  have hcomment := length_commentText_le h
  obtain ⟨before, text, hargs, htext⟩ := commentArgs_eq comment
  apply printf_eq
  · unfold format
    rw [hfmt, hkey, hargs, htext]
    simp (disch := decide) only [List.length_cons, List.length_nil, List.cons_append,
      List.nil_append, vsnPrintf_char, vsnPrintf_d, vsnPrintf_s, vsnPrintf_nil, Option.map_some]
    simp [join_cons_cons, join_singleton]
  · have h₁ := length_signedText_le tt
    have h₂ := length_signedText_le st
    have h₃ := length_signedText_le se
    have h₄ := length_signedText_le te
    simp only [hkey, join_cons_cons, join_singleton, List.length_append, List.length_cons,
      List.length_nil]
    unfold kLen
    omega

theorem logEpochInc_eq (t fromEpoch toEpoch : ℕ) {comment : Option PyStr}
    (h : CommentFits comment) : logEpochInc t fromEpoch toEpoch comment =
      some (join ':' [signedText (lowInt t), "EPOC_INC".toList, signedText (lowInt fromEpoch),
        signedText (lowInt toEpoch)] ++ (commentText comment ++ ['\n'])) := by
  have hfmt : "%d:EPOC_INC:%d:%d%s%s\n".toList = ['%', 'd', ':', 'E', 'P', 'O', 'C', '_', 'I', 'N',
      'C', ':', '%', 'd', ':', '%', 'd', '%', 's', '%', 's', '\n'] := by
    simp
  have hkey : "EPOC_INC".toList = ['E', 'P', 'O', 'C', '_', 'I', 'N', 'C'] := by simp
  have hcomment := length_commentText_le h
  obtain ⟨before, text, hargs, htext⟩ := commentArgs_eq comment
  apply printf_eq
  · unfold format
    rw [hfmt, hkey, hargs, htext]
    simp (disch := decide) only [List.length_cons, List.length_nil, List.cons_append,
      List.nil_append, vsnPrintf_char, vsnPrintf_d, vsnPrintf_s, vsnPrintf_nil, Option.map_some]
    simp [join_cons_cons, join_singleton]
  · have h₁ := length_signedText_le t
    have h₂ := length_signedText_le fromEpoch
    have h₃ := length_signedText_le toEpoch
    simp only [hkey, join_cons_cons, join_singleton, List.length_append, List.length_cons,
      List.length_nil]
    unfold kLen
    omega

end Texts

section RoundTrip

variable {comment : Option PyStr}

/-- What a parser makes of the line when it is the next one. -/
def readBack (line : Option PyStr) (s : TraceParser) (lineNumber : ℕ) : Option (Py TraceParser) :=
  line.map fun text => s.parseLine none text.strip lineNumber

/-- The edge and the epoch nodes of the lines are exactly what the parser adds for them. -/
structure SyncLinesReadBack (st se tt te t : ℕ) (incs : List (ℕ × ℕ)) (comment : Option PyStr) :
    Prop where
  edge : ∀ (s : TraceParser) lineNumber,
    readBack (logHappensBeforeEdge st se tt te comment) s lineNumber =
      some (.ok { s with hbgBuilder := s.hbgBuilder.addHappensBeforeEdge st se tt te })
  epoch : ∀ inc ∈ incs, inc.1 ≠ inc.2 → ∀ (s : TraceParser) lineNumber,
    readBack (logEpochInc t inc.1 inc.2 comment) s lineNumber =
      some (.ok { s with hbgBuilder := s.hbgBuilder.addEpochNode t inc.2 })
  distinct : ∀ inc ∈ incs, ∀ inc' ∈ incs, inc.1 ≠ inc.2 → inc'.1 ≠ inc'.2 → inc.2 ≠ inc'.2 →
    ∀ (s : TraceParser) lineNumber,
      readBack (logEpochInc t inc.1 inc.2 comment) s lineNumber ≠
        readBack (logEpochInc t inc'.1 inc'.2 comment) s lineNumber

theorem readBack_logHappensBeforeEdge {st tt : ℕ} (hst : st < 2 ^ 31) (htt : tt < 2 ^ 31)
    (se te : ℕ) (h : CommentFits comment) (s : TraceParser) (lineNumber : ℕ) :
    readBack (logHappensBeforeEdge st se tt te comment) s lineNumber = some (.ok { s with
      hbgBuilder := s.hbgBuilder.addHappensBeforeEdge st (lowInt se) tt (lowInt te) }) := by
  have hkey : TraceKey.ofStr "HB_EDGE".toList = some .hbEdge := rfl
  have hargs : ∀ arg ∈ [signedText (lowInt st), signedText (lowInt se), signedText (lowInt tt),
      signedText (lowInt te)], IsFieldText arg := by
    simp [isFieldText_signedText]
  obtain ⟨fields, hparse⟩ := s.parseLine_printed tt hkey (List.cons_ne_nil _ _) hargs
    (isComment_commentText comment) lineNumber
  rw [← signedText_nat, ← lowInt_of_lt htt] at hparse
  unfold readBack
  rw [logHappensBeforeEdge_eq st se tt te h, Option.map_some, hparse]
  simp only [TraceParser.parseKey, TraceParser.parseHbEdge, List.mapM_cons, List.mapM_nil,
    anyInt_signedText, ok_bind, pure_bind, lowInt_of_lt htt, lowInt_of_lt hst,
    TraceParser.natural_nat]
  rfl

theorem readBack_logEpochInc {t : ℕ} (ht : t < 2 ^ 31) (fromEpoch toEpoch : ℕ)
    (h : CommentFits comment) (s : TraceParser) (lineNumber : ℕ) :
    readBack (logEpochInc t fromEpoch toEpoch comment) s lineNumber =
      some (.ok (if lowInt fromEpoch ≠ lowInt toEpoch then
        { s with hbgBuilder := s.hbgBuilder.addEpochNode t (lowInt toEpoch) } else s)) := by
  have hkey : TraceKey.ofStr "EPOC_INC".toList = some .epocInc := rfl
  have hargs : ∀ arg ∈ [signedText (lowInt fromEpoch), signedText (lowInt toEpoch)],
      IsFieldText arg := by
    simp [isFieldText_signedText]
  obtain ⟨fields, hparse⟩ := s.parseLine_printed t hkey (List.cons_ne_nil _ _) hargs
    (isComment_commentText comment) lineNumber
  rw [← signedText_nat, ← lowInt_of_lt ht] at hparse
  unfold readBack
  rw [logEpochInc_eq t fromEpoch toEpoch h, Option.map_some, hparse]
  simp only [TraceParser.parseKey, TraceParser.parseEpocInc, List.mapM_cons, List.mapM_nil,
    anyInt_signedText, ok_bind, pure_bind]
  split_ifs <;> rfl

theorem addEpochNode_inj {s : TraceParser} {t : ℕ} {e e' : ℤ}
    (h : { s with hbgBuilder := s.hbgBuilder.addEpochNode t e } =
      { s with hbgBuilder := s.hbgBuilder.addEpochNode t e' }) : e = e' := by
  have hnodes := congrArg (fun s : TraceParser => s.hbgBuilder.nodes) h
  simpa [HBGBuilder.addEpochNode] using hnodes

/-- The lines are read back exactly when the epochs that they add fit 31 bits and the parser sees
that they are new. -/
theorem sync_lines_read_back_iff {st tt t : ℕ} (hst : st < 2 ^ 31) (htt : tt < 2 ^ 31)
    (ht : t < 2 ^ 31) (h : CommentFits comment) (se te : ℕ) (incs : List (ℕ × ℕ)) :
    SyncLinesReadBack st se tt te t incs comment ↔ (se < 2 ^ 31 ∧ te < 2 ^ 31) ∧
      ∀ inc ∈ incs, inc.1 ≠ inc.2 → inc.2 < 2 ^ 31 ∧ inc.1 % 2 ^ 32 ≠ inc.2 := by
  constructor
  · intro hread
    have hedge := hread.edge .new 1
    rw [readBack_logHappensBeforeEdge hst htt se te h] at hedge
    have hedges := congrArg (fun s : TraceParser => s.hbgBuilder.edges)
      (Except.ok.inj (Option.some.inj hedge))
    have hepochs : lowInt se = se ∧ lowInt te = te := by
      simpa [HBGBuilder.addHappensBeforeEdge, TraceParser.new, HBGBuilder.new] using hedges
    refine ⟨⟨(lowInt_eq_iff se).mp hepochs.1, (lowInt_eq_iff te).mp hepochs.2⟩, ?_⟩
    intro inc hinc hne
    have hepoch := hread.epoch inc hinc hne .new 1
    rw [readBack_logEpochInc ht inc.1 inc.2 h] at hepoch
    have hs := Except.ok.inj (Option.some.inj hepoch)
    split_ifs at hs with hlow
    · have hto := (lowInt_eq_iff inc.2).mp (addEpochNode_inj hs)
      refine ⟨hto, fun hmod => hlow ?_⟩
      rw [lowInt_of_lt hto]
      exact (lowInt_eq_nat_iff hto).mpr hmod
    · have hnodes := congrArg (fun s : TraceParser => s.hbgBuilder.nodes) hs
      simp [HBGBuilder.addEpochNode] at hnodes
  · intro hfit
    obtain ⟨⟨hse, hte⟩, hincs⟩ := hfit
    have hepoch : ∀ inc ∈ incs, inc.1 ≠ inc.2 → ∀ (s : TraceParser) lineNumber,
        readBack (logEpochInc t inc.1 inc.2 comment) s lineNumber =
          some (.ok { s with hbgBuilder := s.hbgBuilder.addEpochNode t inc.2 }) := by
      intro inc hinc hne s lineNumber
      obtain ⟨hto, hfrom⟩ := hincs inc hinc hne
      have hlow : lowInt inc.1 ≠ inc.2 := fun hlow => hfrom ((lowInt_eq_nat_iff hto).mp hlow)
      rw [readBack_logEpochInc ht inc.1 inc.2 h, lowInt_of_lt hto, if_pos hlow]
    constructor
    · intro s lineNumber
      rw [readBack_logHappensBeforeEdge hst htt se te h, lowInt_of_lt hse, lowInt_of_lt hte]
    · exact hepoch
    · intro inc hinc inc' hinc' hne hne' hdistinct s lineNumber heq
      rw [hepoch inc hinc hne, hepoch inc' hinc' hne'] at heq
      have hto := addEpochNode_inj (Except.ok.inj (Option.some.inj heq))
      exact hdistinct (by omega)

theorem sync_lines_read_back_small : SyncLinesReadBack 0 5 1 7 1 [(0, 7), (7, 9)] none :=
  (sync_lines_read_back_iff (by decide) (by decide) (by decide) (by simp [CommentFits]) 5 7
    [(0, 7), (7, 9)]).mpr (by decide)

/-- The epochs 1 and `2 ^ 32 + 1` of a thread become one node, and `2 ^ 31` becomes negative. -/
theorem epoch_lines_merge : 2 ^ 32 + 1 < 2 ^ kClkBits ∧
    readBack (logEpochInc 0 0 (2 ^ 32 + 1) none) .new 1 =
      readBack (logEpochInc 0 0 1 none) .new 1 ∧
    readBack (logEpochInc 0 0 (2 ^ 31) none) .new 1 = some (.ok { TraceParser.new with
      hbgBuilder := HBGBuilder.new.addEpochNode 0 (-2 ^ 31) }) ∧
    ¬ SyncLinesReadBack 0 1 1 1 0 [(0, 1), (0, 2 ^ 32 + 1)] none := by
  have hfits : CommentFits none := by simp [CommentFits]
  have hmerge : readBack (logEpochInc 0 0 (2 ^ 32 + 1) none) .new 1 =
      readBack (logEpochInc 0 0 1 none) .new 1 := by
    rw [readBack_logEpochInc (by decide) 0 (2 ^ 32 + 1) hfits,
      readBack_logEpochInc (by decide) 0 1 hfits]
    rfl
  refine ⟨by decide, hmerge, ?_, fun h => ?_⟩
  · rw [readBack_logEpochInc (by decide) 0 (2 ^ 31) hfits]
    rfl
  · exact h.distinct (0, 2 ^ 32 + 1) (by simp) (0, 1) (by simp) (by decide) (by decide) (by decide)
      .new 1 hmerge

end RoundTrip

end Prd.Runtime
