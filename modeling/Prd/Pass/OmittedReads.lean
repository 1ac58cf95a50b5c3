import Mathlib.Data.List.Basic
import Prd.Foundation.FirstMatch
import Prd.Pass.TsanPass

/-!
# Which loads are left out

The entries of a stretch are described from its front: an instruction comes before the entries
of those after it, or it is dropped, or it marks the first entry that stores to its address.
-/
namespace Prd.Pass

open Prd.Foundation

variable {V : Type} [DecidableEq V]

def isStoreTo (addr : V) (i : Instruction V) : Bool := i.isWrite && i.pointerOperand = addr

def insts (l : List (InstructionInfo V)) : List (Instruction V) := l.map InstructionInfo.inst

section Entries

variable (M : Module V) (opts : Options)

/-- Whether a load is left out before the entries `rest` of the instructions after it. -/
def omits (rest : List (InstructionInfo V)) (i : Instruction V) : Bool :=
  ! i.isWrite && ! opts.instrumentReadBeforeWrite &&
    ((insts rest).find? (isStoreTo i.pointerOperand)).any fun wi =>
      ! (opts.distinguishVolatile && (i.isVolatile || wi.isVolatile))

/-- Marks the first store to the address. -/
def markFirst (addr : V) : List (InstructionInfo V) → List (InstructionInfo V)
  | [] => []
  | info :: rest =>
    if isStoreTo addr info.inst then info.markCompound :: rest else info :: markFirst addr rest

/-- The entries of a stretch, from those of the instructions after its first one. -/
def entriesStep (i : Instruction V) (rest : List (InstructionInfo V)) : List (InstructionInfo V) :=
  if ! shouldInstrumentReadWriteFromAddress M i.pointerOperand then rest
  else if omits opts rest i then markFirst i.pointerOperand rest
  else if ! i.isWrite && addrPointsToConstantData M i.pointerOperand then rest
  else if isNonCaptured M i.pointerOperand then rest
  else { inst := i } :: rest

def entries (locals : List (Instruction V)) : List (InstructionInfo V) :=
  locals.foldr (entriesStep M opts) []

end Entries

theorem insts_markFirst (addr : V) (rest : List (InstructionInfo V)) :
    insts (markFirst addr rest) = insts rest := by
  induction rest with
  | nil => rfl
  | cons info rest ih =>
    rw [markFirst]
    unfold insts at ih ⊢
    split_ifs
    · rfl
    · rw [List.map_cons, ih, List.map_cons]

theorem markFirst_append {addr : V} {near far : List (InstructionInfo V)} {wi : InstructionInfo V}
    (hwi : isStoreTo addr wi.inst = true)
    (hnear : ∀ info ∈ near, isStoreTo addr info.inst = false) :
    markFirst addr (near ++ wi :: far) = near ++ wi.markCompound :: far := by
  induction near with
  | nil => exact if_pos hwi
  | cons info near ih =>
    rw [List.forall_mem_cons] at hnear
    rw [List.cons_append, markFirst, if_neg (by simp [hnear.1]), ih hnear.2, List.cons_append]

section Loop

variable {M : Module V} {opts : Options} {all rest : List (InstructionInfo V)} {s : Choice V}

/-- The state of the loop after the instructions whose entries are `rest`. -/
structure Follows (all rest : List (InstructionInfo V)) (s : Choice V) : Prop where
  all_eq : s.all = all ++ rest.reverse
  missing : ∀ addr, (insts rest).find? (isStoreTo addr) = none →
    s.writeTargets.lookup addr = none
  target : ∀ addr near i far, insts rest = near ++ i :: far → isStoreTo addr i = true →
    (∀ j ∈ near, isStoreTo addr j = false) →
      s.writeTargets.lookup addr = some (all.length + far.length)

theorem follows_start (all : List (InstructionInfo V)) : Follows all [] ⟨all, ∅⟩ where
  all_eq := by simp
  missing := fun _ _ => rfl
  target := fun _ _ _ _ h => absurd h (by simp [insts])

theorem exists_split_of_find? {addr : V} {i : Instruction V}
    (h : (insts rest).find? (isStoreTo addr) = some i) :
    ∃ near wi far, rest = near ++ wi :: far ∧ wi.inst = i ∧ isStoreTo addr wi.inst = true ∧
      ∀ info ∈ near, isStoreTo addr info.inst = false := by
  obtain ⟨hi, as, bs, hsplit, has⟩ := List.find?_eq_some_iff_append.mp h
  obtain ⟨near, l, rfl, rfl, hl⟩ := List.map_eq_append_iff.mp hsplit
  obtain ⟨wi, far, rfl, rfl, -⟩ := List.map_eq_cons_iff.mp hl
  refine ⟨near, wi, far, rfl, rfl, hi, ?_⟩
  intro info hinfo
  simpa using has info.inst (List.mem_map_of_mem hinfo)

theorem Follows.getElem?_target {near far : List (InstructionInfo V)} {wi : InstructionInfo V}
    (h : Follows all (near ++ wi :: far) s) : s.all[all.length + far.length]? = some wi := by
  rw [h.all_eq, List.getElem?_append_right (Nat.le_add_right _ _), Nat.add_sub_cancel_left,
    List.reverse_append, List.reverse_cons, List.append_assoc, ← @List.length_reverse _ far,
    List.getElem?_append_right le_rfl, Nat.sub_self]
  rfl

theorem Follows.target_entry {addr : V} {near far : List (InstructionInfo V)}
    {wi : InstructionInfo V} (h : Follows all (near ++ wi :: far) s)
    (hwi : isStoreTo addr wi.inst = true)
    (hnear : ∀ info ∈ near, isStoreTo addr info.inst = false) :
    s.writeTargets.lookup addr = some (all.length + far.length) := by
  have hsplit : insts (near ++ wi :: far) = insts near ++ wi.inst :: insts far := by
    unfold insts
    rw [List.map_append, List.map_cons]
  have hlen : (insts far).length = far.length := List.length_map _
  rw [← hlen]
  refine h.target addr _ _ _ hsplit hwi ?_
  intro j hj
  obtain ⟨info, hinfo, rfl⟩ := List.mem_map.mp hj
  exact hnear info hinfo

variable (opts) in
/-- The loop finds the store for which a load is left out. -/
theorem Follows.omittedFor_cases (h : Follows all rest s) (i : Instruction V) :
    omits opts rest i = false ∧ omittedFor opts s i = none ∨
      omits opts rest i = true ∧ ∃ near wi far, rest = near ++ wi :: far ∧
        isStoreTo i.pointerOperand wi.inst = true ∧
        (∀ info ∈ near, isStoreTo i.pointerOperand info.inst = false) ∧
        omittedFor opts s i = some (all.length + far.length) := by
  unfold omits omittedFor
  cases hw : i.isWrite || opts.instrumentReadBeforeWrite with
  | true =>
    left
    have hand : (! i.isWrite && ! opts.instrumentReadBeforeWrite) = false := by
      rw [← Bool.not_or, hw]
      rfl
    rw [hand]
    exact ⟨rfl, rfl⟩
  | false =>
    have hand : (! i.isWrite && ! opts.instrumentReadBeforeWrite) = true := by
      rw [← Bool.not_or, hw]
      rfl
    rw [hand, Bool.true_and]
    cases hf : (insts rest).find? (isStoreTo i.pointerOperand) with
    | none =>
      left
      rw [h.missing _ hf]
      exact ⟨rfl, rfl⟩
    | some w =>
      obtain ⟨near, wi, far, rfl, rfl, hwi, hnear⟩ := exists_split_of_find? hf
      rw [h.target_entry hwi hnear]
      simp only [Option.bind_eq_bind, Option.bind_some, h.getElem?_target, Option.any_some,
        Bool.false_eq_true, if_false]
      cases opts.distinguishVolatile && (i.isVolatile || wi.inst.isVolatile) with
      | true => exact Or.inl ⟨rfl, rfl⟩
      | false => exact Or.inr ⟨rfl, near, wi, far, rfl, hwi, hnear, rfl⟩

theorem lookup_emplace (targets : Dict V ℕ) (i : Instruction V) (k : ℕ) (addr : V) :
    (if i.isWrite then targets.insert i.pointerOperand k else targets).lookup addr =
      if isStoreTo addr i then some k else targets.lookup addr := by
  unfold isStoreTo
  cases i.isWrite with
  | false => simp
  | true =>
    by_cases haddr : i.pointerOperand = addr
    · subst haddr
      simp
    · simp [haddr, AList.lookup_insert_ne (Ne.symm haddr)]

/-- A new entry comes last, and a new store is the target for its address. -/
theorem Follows.emplace (h : Follows all rest s) (i : Instruction V) :
    Follows all ({ inst := i } :: rest)
      { all := s.all ++ [{ inst := i }]
        writeTargets :=
          if i.isWrite then s.writeTargets.insert i.pointerOperand s.all.length
          else s.writeTargets } := by
  have hlength : s.all.length = all.length + (insts rest).length := by
    rw [h.all_eq]
    simp [insts]
  have hinsts : insts ({ inst := i } :: rest) = i :: insts rest := rfl
  refine ⟨by rw [h.all_eq]; simp, ?_, ?_⟩
  · intro addr hf
    rw [hinsts, List.find?_eq_none, List.forall_mem_cons] at hf
    rw [lookup_emplace, if_neg hf.1]
    exact h.missing addr (List.find?_eq_none.mpr hf.2)
  · intro addr near j far hsplit hj hnear
    rw [hinsts] at hsplit
    rw [lookup_emplace]
    cases near with
    | nil =>
      obtain ⟨rfl, rfl⟩ := List.cons.inj hsplit
      rw [if_pos hj, hlength]
    | cons i' near =>
      obtain ⟨rfl, hrest⟩ := List.cons.inj hsplit
      rw [List.forall_mem_cons] at hnear
      rw [if_neg (by simp [hnear.1])]
      exact h.target addr near j far hrest hj hnear.2

/-- Marking an entry does not move the targets. -/
theorem Follows.mark {near far : List (InstructionInfo V)} {wi : InstructionInfo V}
    (h : Follows all (near ++ wi :: far) s) :
    Follows all (near ++ wi.markCompound :: far)
      { s with all := s.all.modify (all.length + far.length) InstructionInfo.markCompound } := by
  have hinsts : insts (near ++ wi.markCompound :: far) = insts (near ++ wi :: far) := by
    unfold insts
    rw [List.map_append, List.map_append]
    rfl
  refine ⟨?_, fun addr hf => h.missing addr (hinsts ▸ hf), ?_⟩
  · have hsplit : s.all = (all ++ far.reverse) ++ wi :: near.reverse := by
      rw [h.all_eq]
      simp
    have hlength : all.length + far.length = (all ++ far.reverse).length := by simp
    show s.all.modify _ _ = _
    rw [hsplit, hlength, modify_length_append]
    simp
  · intro addr near' j far' hsplit
    exact h.target addr near' j far' (hinsts.symm.trans hsplit)

theorem Follows.step (h : Follows all rest s) (i : Instruction V) :
    Follows all (entriesStep M opts i rest) (chooseStep M opts s i) := by
  unfold entriesStep chooseStep
  by_cases hshould : (! shouldInstrumentReadWriteFromAddress M i.pointerOperand) = true
  · rw [if_pos hshould, if_pos hshould]
    exact h
  · rw [if_neg hshould, if_neg hshould]
    rcases h.omittedFor_cases opts i with
      ⟨homits, hnone⟩ | ⟨homits, near, wi, far, rfl, hwi, hnear, hsome⟩
    · rw [homits, hnone, if_neg Bool.false_ne_true]
      dsimp only
      by_cases hconst : (! i.isWrite && addrPointsToConstantData M i.pointerOperand) = true
      · rw [if_pos hconst, if_pos hconst]
        exact h
      · rw [if_neg hconst, if_neg hconst]
        by_cases hstack : isNonCaptured M i.pointerOperand = true
        · rw [if_pos hstack, if_pos hstack]
          exact h
        · rw [if_neg hstack, if_neg hstack]
          exact h.emplace i
    · rw [homits, hsome, if_pos rfl, markFirst_append hwi hnear]
      exact h.mark

/-- The entries come after those of earlier stretches, from the last one to the first. -/
theorem chooseInstructionsToInstrument_eq (locals : List (Instruction V))
    (all : List (InstructionInfo V)) :
    chooseInstructionsToInstrument M opts locals all = all ++ (entries M opts locals).reverse := by
  have hfollows : Follows all (entries M opts locals)
      (locals.reverse.foldl (chooseStep M opts) ⟨all, ∅⟩) := by
    rw [List.foldl_reverse]
    unfold entries
    induction locals with
    | nil => exact follows_start all
    | cons i locals ih => exact ih.step i
  exact hfollows.all_eq

end Loop

section Stretch

variable {M : Module V} {opts : Options} {rest rest' : List (InstructionInfo V)}
  {addr : V} {i : Instruction V}

/-- The address is one that the pass instruments, of no constant data and of no stack slot that
only its own thread can reach. -/
structure Reportable (M : Module V) (addr : V) : Prop where
  instrumented : shouldInstrumentReadWriteFromAddress M addr = true
  notConstant : addrPointsToConstantData M addr = false
  captured : isNonCaptured M addr = false

theorem insts_entriesStep (i : Instruction V) (rest : List (InstructionInfo V)) :
    insts (entriesStep M opts i rest) =
      if shouldInstrumentReadWriteFromAddress M i.pointerOperand && ! omits opts rest i &&
        ! (! i.isWrite && addrPointsToConstantData M i.pointerOperand) &&
        ! isNonCaptured M i.pointerOperand
      then i :: insts rest else insts rest := by
  unfold entriesStep
  cases shouldInstrumentReadWriteFromAddress M i.pointerOperand with
  | false => rfl
  | true =>
    cases omits opts rest i with
    | true => exact insts_markFirst i.pointerOperand rest
    | false =>
      cases ! i.isWrite && addrPointsToConstantData M i.pointerOperand with
      | true => rfl
      | false =>
        cases isNonCaptured M i.pointerOperand with
        | true => rfl
        | false => rfl

theorem insts_entriesStep_congr (h : insts rest = insts rest') (i : Instruction V) :
    insts (entriesStep M opts i rest) = insts (entriesStep M opts i rest') := by
  rw [insts_entriesStep, insts_entriesStep, h]
  unfold omits
  rw [h]

theorem insts_foldr_congr (h : insts rest = insts rest') (pre : List (Instruction V)) :
    insts (pre.foldr (entriesStep M opts) rest) = insts (pre.foldr (entriesStep M opts) rest') := by
  induction pre with
  | nil => exact h
  | cons i pre ih => exact insts_entriesStep_congr ih i

/-- Stores to an address that is reported are all kept. -/
theorem entriesStep_store (h : Reportable M addr) (hi : isStoreTo addr i = true)
    (rest : List (InstructionInfo V)) : entriesStep M opts i rest = { inst := i } :: rest := by
  unfold isStoreTo at hi
  rw [Bool.and_eq_true, decide_eq_true_eq] at hi
  obtain ⟨hwrite, rfl⟩ := hi
  unfold entriesStep omits
  simp [hwrite, h.instrumented, h.captured]

/-- The first store to an address that is reported. -/
theorem find?_insts_entries (h : Reportable M addr) (locals : List (Instruction V)) :
    (insts (entries M opts locals)).find? (isStoreTo addr) = locals.find? (isStoreTo addr) := by
  induction locals with
  | nil => rfl
  | cons i locals ih =>
    have hcons : entries M opts (i :: locals) = entriesStep M opts i (entries M opts locals) := rfl
    rw [hcons]
    by_cases hi : isStoreTo addr i = true
    · rw [entriesStep_store h hi, List.find?_cons_of_pos hi]
      exact List.find?_cons_of_pos hi
    · rw [List.find?_cons_of_neg hi, insts_entriesStep]
      split_ifs
      · rw [List.find?_cons_of_neg hi, ih]
      · exact ih

omit [DecidableEq V] in
theorem markCompound_markCompound (info : InstructionInfo V) :
    info.markCompound.markCompound = info.markCompound := by
  unfold InstructionInfo.markCompound
  simp only [Nat.or_assoc, Nat.or_self]

omit [DecidableEq V] in
theorem markCompound_new (i : Instruction V) : ({ inst := i } : InstructionInfo V).markCompound =
    { inst := i, flags := InstructionInfo.kCompoundRW } := by
  simp [InstructionInfo.markCompound, InstructionInfo.kCompoundRW]

/-- The entry `x` with the mark of a compound access or without it. -/
def MarkedOr (x x' : InstructionInfo V) : Prop := x' = x ∨ x' = x.markCompound

omit [DecidableEq V] in
theorem MarkedOr.inst_eq {x x' : InstructionInfo V} (h : MarkedOr x x') : x'.inst = x.inst := by
  rcases h with rfl | rfl
  · rfl
  · rfl

omit [DecidableEq V] in
theorem MarkedOr.trans {x x' x'' : InstructionInfo V} (h : MarkedOr x x') (h' : MarkedOr x' x'') :
    MarkedOr x x'' := by
  rcases h with rfl | rfl
  · exact h'
  · rcases h' with rfl | rfl
    · exact Or.inr rfl
    · exact Or.inr (markCompound_markCompound x)

theorem markFirst_split (addr : V) (a b : List (InstructionInfo V)) (x : InstructionInfo V) :
    ∃ a' x' b', markFirst addr (a ++ x :: b) = a' ++ x' :: b' ∧ insts a' = insts a ∧
      insts b' = insts b ∧ MarkedOr x x' := by
  induction a with
  | nil =>
    by_cases hx : isStoreTo addr x.inst = true
    · exact ⟨[], x.markCompound, b, if_pos hx, rfl, rfl, Or.inr rfl⟩
    · exact ⟨[], x, markFirst addr b, if_neg hx, rfl, insts_markFirst addr b, Or.inl rfl⟩
  | cons y a ih =>
    by_cases hy : isStoreTo addr y.inst = true
    · exact ⟨y.markCompound :: a, x, b, if_pos hy, rfl, rfl, Or.inl rfl⟩
    · obtain ⟨a', x', b', heq, ha, hb, hx⟩ := ih
      refine ⟨y :: a', x', b', ?_, congrArg (y.inst :: ·) ha, hb, hx⟩
      rw [List.cons_append, markFirst, if_neg hy, heq, List.cons_append]

variable (M opts) in
/-- An entry stays behind the entries of the instructions before it, and may be marked. -/
theorem entriesStep_split (i : Instruction V) (a b : List (InstructionInfo V))
    (x : InstructionInfo V) :
    ∃ a' x' b', entriesStep M opts i (a ++ x :: b) = a' ++ x' :: b' ∧
      (∀ j ∈ insts a', j ∈ insts a ∨ j = i) ∧ insts b' = insts b ∧ MarkedOr x x' := by
  unfold entriesStep
  split_ifs
  · exact ⟨a, x, b, rfl, fun j hj => Or.inl hj, rfl, Or.inl rfl⟩
  · obtain ⟨a', x', b', heq, ha, hb, hx⟩ := markFirst_split i.pointerOperand a b x
    exact ⟨a', x', b', heq, fun j hj => Or.inl (ha ▸ hj), hb, hx⟩
  · exact ⟨a, x, b, rfl, fun j hj => Or.inl hj, rfl, Or.inl rfl⟩
  · exact ⟨a, x, b, rfl, fun j hj => Or.inl hj, rfl, Or.inl rfl⟩
  · refine ⟨{ inst := i } :: a, x, b, rfl, ?_, rfl, Or.inl rfl⟩
    intro j hj
    exact (List.mem_cons.mp hj).symm

variable (M opts) in
theorem foldr_split (pre : List (Instruction V)) (a b : List (InstructionInfo V))
    (x : InstructionInfo V) :
    ∃ a' x' b', pre.foldr (entriesStep M opts) (a ++ x :: b) = a' ++ x' :: b' ∧
      (∀ j ∈ insts a', j ∈ insts a ∨ j ∈ pre) ∧ insts b' = insts b ∧ MarkedOr x x' := by
  induction pre with
  | nil => exact ⟨a, x, b, rfl, fun j hj => Or.inl hj, rfl, Or.inl rfl⟩
  | cons i pre ih =>
    obtain ⟨a₁, x₁, b₁, heq, ha, hb, hx⟩ := ih
    obtain ⟨a₂, x₂, b₂, heq', ha', hb', hx'⟩ := entriesStep_split M opts i a₁ b₁ x₁
    refine ⟨a₂, x₂, b₂, ?_, ?_, hb'.trans hb, hx.trans hx'⟩
    · rw [List.foldr_cons, heq, heq']
    · intro j hj
      rcases ha' j hj with hj | rfl
      · exact (ha j hj).imp id (List.mem_cons_of_mem i)
      · exact Or.inr List.mem_cons_self

theorem markFirst_skip {x : InstructionInfo V} (hx : isStoreTo addr x.inst = false)
    (a b : List (InstructionInfo V)) :
    ∃ a' b', markFirst addr (a ++ x :: b) = a' ++ x :: b' ∧ markFirst addr (a ++ b) = a' ++ b' := by
  induction a with
  | nil => exact ⟨[], markFirst addr b, if_neg (by simp [hx]), rfl⟩
  | cons y a ih =>
    by_cases hy : isStoreTo addr y.inst = true
    · exact ⟨y.markCompound :: a, b, if_pos hy, if_pos hy⟩
    · obtain ⟨a', b', heq, heq'⟩ := ih
      refine ⟨y :: a', b', ?_, ?_⟩
      · rw [List.cons_append, markFirst, if_neg hy, heq, List.cons_append]
      · rw [List.cons_append, markFirst, if_neg hy, heq', List.cons_append]

omit [DecidableEq V] in
theorem insts_append (a b : List (InstructionInfo V)) : insts (a ++ b) = insts a ++ insts b :=
  List.map_append

/-- The entry of a load makes no difference to the instructions before it. -/
theorem entriesStep_skip {x : InstructionInfo V} (hx : x.inst.isWrite = false) (i : Instruction V)
    (a b : List (InstructionInfo V)) :
    ∃ a' b', entriesStep M opts i (a ++ x :: b) = a' ++ x :: b' ∧
      entriesStep M opts i (a ++ b) = a' ++ b' := by
  have hstore : isStoreTo i.pointerOperand x.inst = false := by
    unfold isStoreTo
    rw [hx]
    rfl
  have homits : omits opts (a ++ x :: b) i = omits opts (a ++ b) i := by
    have hcons : insts (x :: b) = x.inst :: insts b := rfl
    unfold omits
    rw [insts_append, insts_append, hcons, List.find?_append, List.find?_append,
      List.find?_cons_of_neg (by simp [hstore])]
  unfold entriesStep
  rw [homits]
  split_ifs
  · exact ⟨a, b, rfl, rfl⟩
  · exact markFirst_skip hstore a b
  · exact ⟨a, b, rfl, rfl⟩
  · exact ⟨a, b, rfl, rfl⟩
  · exact ⟨{ inst := i } :: a, b, rfl, rfl⟩

variable (M opts) in
theorem foldr_skip (x : InstructionInfo V) (hx : x.inst.isWrite = false)
    (pre : List (Instruction V)) (rest : List (InstructionInfo V)) :
    ∃ a b, pre.foldr (entriesStep M opts) (x :: rest) = a ++ x :: b ∧
      pre.foldr (entriesStep M opts) rest = a ++ b := by
  induction pre with
  | nil => exact ⟨[], rest, rfl, rfl⟩
  | cons i pre ih =>
    obtain ⟨a, b, heq, heq'⟩ := ih
    rw [List.foldr_cons, List.foldr_cons, heq, heq']
    exact entriesStep_skip hx i a b

theorem entries_append (pre post : List (Instruction V)) :
    entries M opts (pre ++ post) = pre.foldr (entriesStep M opts) (entries M opts post) :=
  List.foldr_append

/-- An access with no store to its address after it is kept, and so is every one if the option is
set that keeps loads before stores. -/
theorem entriesStep_kept (h : Reportable M i.pointerOperand) {post : List (Instruction V)}
    (hkeep : opts.instrumentReadBeforeWrite = true ∨
      ∀ s ∈ post, isStoreTo i.pointerOperand s = false) :
    entriesStep M opts i (entries M opts post) = { inst := i } :: entries M opts post := by
  have homits : omits opts (entries M opts post) i = false := by
    unfold omits
    rcases hkeep with hopt | hnone
    · simp [hopt]
    · have hfind : post.find? (isStoreTo i.pointerOperand) = none :=
        List.find?_eq_none.mpr (fun s hs => by simp [hnone s hs])
      rw [find?_insts_entries h, hfind]
      simp
  unfold entriesStep
  rw [homits]
  simp [h.instrumented, h.notConstant, h.captured]

/-- With the default options a load before a store to its address marks the first such store. -/
theorem entriesStep_omitted (h : Reportable M i.pointerOperand) (hload : i.isWrite = false)
    {post : List (Instruction V)} {s : Instruction V} (hs : s ∈ post)
    (hstore : isStoreTo i.pointerOperand s = true) :
    entriesStep M {} i (entries M {} post) = markFirst i.pointerOperand (entries M {} post) := by
  have homits : omits {} (entries M {} post) i = true := by
    unfold omits
    cases hfind : post.find? (isStoreTo i.pointerOperand) with
    | none => exact absurd hstore (List.find?_eq_none.mp hfind s hs)
    | some w =>
      rw [find?_insts_entries h, hfind, hload]
      rfl
  unfold entriesStep
  rw [homits, h.instrumented]
  rfl

/-- The entry of the first store after a load that is left out. -/
theorem exists_marked (h : Reportable M i.pointerOperand) (hload : i.isWrite = false)
    (pre far : List (Instruction V)) {near : List (Instruction V)} {s : Instruction V}
    (hstore : isStoreTo i.pointerOperand s = true)
    (hnear : ∀ j ∈ near, isStoreTo i.pointerOperand j = false) :
    ∃ a b, entries M {} (pre ++ i :: (near ++ s :: far)) =
        a ++ { inst := s, flags := InstructionInfo.kCompoundRW } :: b ∧
      insts b = insts (entries M {} far) := by
  have hs : entries M {} (s :: far) = { inst := s } :: entries M {} far :=
    entriesStep_store h hstore _
  obtain ⟨a, x, b, heq, ha, hb, hx⟩ := foldr_split M {} near []
    (entries M {} far) { inst := s }
  have hnearA : ∀ info ∈ a, isStoreTo i.pointerOperand info.inst = false := by
    intro info hinfo
    rcases ha info.inst (List.mem_map_of_mem hinfo) with hj | hj
    · cases hj
    · exact hnear _ hj
  have hxstore : isStoreTo i.pointerOperand x.inst = true := by rw [hx.inst_eq]; exact hstore
  have hmark : x.markCompound = { inst := s, flags := InstructionInfo.kCompoundRW } := by
    rcases hx with rfl | rfl
    · exact markCompound_new s
    · rw [markCompound_markCompound, markCompound_new]
  have hrest : entries M {} (i :: (near ++ s :: far)) =
      a ++ { inst := s, flags := InstructionInfo.kCompoundRW } :: b := by
    have hmem : s ∈ near ++ s :: far := by simp
    rw [← hmark, ← markFirst_append hxstore hnearA, ← heq, List.nil_append, ← hs, ← entries_append]
    exact entriesStep_omitted h hload hmem hstore
  obtain ⟨a', x', b', heq', -, hb', hx'⟩ := foldr_split M {} pre a b
    { inst := s, flags := InstructionInfo.kCompoundRW }
  have hmarked : x' = { inst := s, flags := InstructionInfo.kCompoundRW } := by
    rcases hx' with rfl | rfl
    · rfl
    · rw [← markCompound_new, markCompound_markCompound]
  refine ⟨a', b', ?_, hb'.trans hb⟩
  rw [entries_append, hrest, heq', hmarked]

/-- A load of an address that is reported is chosen if no store to the address follows in the
stretch. Otherwise the choice is made as if the load were not there, and the first such store,
which is chosen after the instructions behind it, is marked as compound. -/
theorem chooseInstructionsToInstrument_load (M : Module V) (all : List (InstructionInfo V))
    (pre post : List (Instruction V)) (i : Instruction V) (hload : i.isWrite = false)
    (haddr : Reportable M i.pointerOperand) :
    ((∀ s ∈ post, isStoreTo i.pointerOperand s = false) →
      ∃ before after, chooseInstructionsToInstrument M {} (pre ++ i :: post) all =
          before ++ { inst := i } :: after ∧
        chooseInstructionsToInstrument M {} (pre ++ post) all = before ++ after) ∧
      ∀ near s far, post = near ++ s :: far → isStoreTo i.pointerOperand s = true →
        (∀ j ∈ near, isStoreTo i.pointerOperand j = false) →
        insts (chooseInstructionsToInstrument M {} (pre ++ i :: post) all) =
            insts (chooseInstructionsToInstrument M {} (pre ++ post) all) ∧
          ∃ before after, chooseInstructionsToInstrument M {} (pre ++ i :: post) all =
              before ++ { inst := s, flags := InstructionInfo.kCompoundRW } :: after ∧
            insts before = insts (chooseInstructionsToInstrument M {} far all) := by
  simp only [chooseInstructionsToInstrument_eq]
  have hcons : entries M {} (i :: post) = entriesStep M {} i (entries M {} post) := rfl
  refine ⟨?_, ?_⟩
  · intro hnone
    obtain ⟨a, b, heq, heq'⟩ := foldr_skip M {} { inst := i } hload pre (entries M {} post)
    refine ⟨all ++ b.reverse, a.reverse, ?_, ?_⟩
    · rw [entries_append, hcons, entriesStep_kept haddr (Or.inr hnone), heq]
      simp
    · rw [entries_append, heq']
      simp
  · intro near s far hpost hstore hnear
    have hs : s ∈ post := by rw [hpost]; simp
    refine ⟨?_, ?_⟩
    · have hinsts : insts (entries M {} (pre ++ i :: post)) = insts
          (entries M {} (pre ++ post)) := by
        rw [entries_append, entries_append, hcons, entriesStep_omitted haddr hload hs hstore]
        exact insts_foldr_congr (insts_markFirst _ _) pre
      unfold insts at hinsts ⊢
      rw [List.map_append, List.map_append, List.map_reverse, List.map_reverse, hinsts]
    · obtain ⟨a, b, heq, hb⟩ := exists_marked haddr hload pre far hstore hnear
      refine ⟨all ++ b.reverse, a.reverse, ?_, ?_⟩
      · rw [hpost, heq]
        simp
      · unfold insts at hb ⊢
        rw [List.map_append, List.map_append, List.map_reverse, List.map_reverse, hb]

/-- Values that are all addresses of memory which other threads can reach. -/
def plainModule : Module ℕ where
  kind := fun _ => .other
  pointerAddressSpace := fun _ => 0
  stripInBoundsOffsets := id
  getUnderlyingObject := id
  pointerMayBeCaptured := fun _ => true
  instrProfSectionName := "__llvm_prf_cnts"

theorem reportable_plainModule (addr : ℕ) : Reportable plainModule addr := ⟨rfl, rfl, rfl⟩

/-- The store that a load of its address marks, over a store to another address. -/
theorem chooseInstructionsToInstrument_load_marked :
    insts (chooseInstructionsToInstrument plainModule {}
        [⟨10, false, 0, false⟩, ⟨11, true, 1, false⟩, ⟨12, true, 0, false⟩] []) =
      insts (chooseInstructionsToInstrument plainModule {}
        [⟨11, true, 1, false⟩, ⟨12, true, 0, false⟩] []) ∧
      ∃ before after, chooseInstructionsToInstrument plainModule {}
          [⟨10, false, 0, false⟩, ⟨11, true, 1, false⟩, ⟨12, true, 0, false⟩] [] =
        before ++ { inst := ⟨12, true, 0, false⟩, flags := InstructionInfo.kCompoundRW } :: after ∧
        insts before = insts (chooseInstructionsToInstrument plainModule {} [] []) :=
  (chooseInstructionsToInstrument_load plainModule [] []
    [⟨11, true, 1, false⟩, ⟨12, true, 0, false⟩] ⟨10, false, 0, false⟩ rfl
    (reportable_plainModule 0)).2 [⟨11, true, 1, false⟩]
    ⟨12, true, 0, false⟩ [] rfl rfl (by decide)

/-- The load of one address is followed by a store to another one and by a store to its own. -/
theorem load_not_chosen :
    Reportable plainModule 0 ∧ (⟨10, false, 0, false⟩ : Instruction ℕ) ∉
      insts (chooseInstructionsToInstrument plainModule {}
        [⟨10, false, 0, false⟩, ⟨11, true, 1, false⟩, ⟨12, true, 0, false⟩] []) :=
  ⟨reportable_plainModule 0, by decide⟩

end Stretch

section Functions

variable (M : Module V) (opts : Options)

/-- The stretches of a block between its calls, the first of which goes on from `locals`. -/
def stretches : List (Inst V) → List (Instruction V) → List (List (Instruction V))
  | [], locals => [locals]
  | .access i :: block, locals => stretches block (locals ++ [i])
  | .call :: block, locals => locals :: stretches block []
  | .other :: block, locals => stretches block locals

theorem collectBlock_eq (block : List (Inst V)) (locals : List (Instruction V))
    (all : List (InstructionInfo V)) :
    collectBlock M opts block locals all =
      all ++ (stretches block locals).flatMap fun l => (entries M opts l).reverse := by
  induction block generalizing locals all with
  | nil => simp [collectBlock, stretches, chooseInstructionsToInstrument_eq]
  | cons inst block ih =>
    cases inst with
    | access i => exact ih (locals ++ [i]) all
    | call =>
      rw [collectBlock, ih, chooseInstructionsToInstrument_eq, stretches, List.flatMap_cons,
        List.append_assoc]
    | other => exact ih locals all

/-- Each stretch of a function is chosen from on its own. -/
theorem collectLoadsAndStores_eq (blocks : List (List (Inst V))) :
    collectLoadsAndStores M opts blocks =
      (blocks.flatMap fun block => stretches block []).flatMap
        fun l => (entries M opts l).reverse := by
  unfold collectLoadsAndStores
  induction blocks using List.reverseRecOn with
  | nil => rfl
  | append_singleton blocks block ih =>
    rw [List.foldl_append, List.foldl_cons, List.foldl_nil, ih, collectBlock_eq,
      List.flatMap_append, List.flatMap_append, List.flatMap_singleton]

end Functions

end Prd.Pass
