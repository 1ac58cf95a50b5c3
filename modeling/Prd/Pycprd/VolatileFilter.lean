import Prd.Pycprd.Hbg

/-!
# The filter of volatile accesses

The interval tree package is a parameter. Its documented behaviour determines which
reads and writes the filter keeps: the ignored ranges are looked up inside the
interval of an access, not around it.
-/
namespace Prd.Pycprd

open Prd.Foundation

/-- The half-open intervals share a point. -/
def SharePoint (i j : ℕ × ℕ) : Prop := ∃ x, (i.1 ≤ x ∧ x < i.2) ∧ j.1 ≤ x ∧ x < j.2

theorem sharePoint_iff {i j : ℕ × ℕ} : SharePoint i j ↔ max i.1 j.1 < min i.2 j.2 := by
  constructor
  · rintro ⟨x, hi, hj⟩
    omega
  · intro h
    exact ⟨max i.1 j.1, by omega, by omega⟩

instance (i j : ℕ × ℕ) : Decidable (SharePoint i j) := decidable_of_iff _ sharePoint_iff.symm

/-- The first interval lies in the second one. -/
def Within (i j : ℕ × ℕ) : Prop := j.1 ≤ i.1 ∧ i.2 ≤ j.2

instance (i j : ℕ × ℕ) : Decidable (Within i j) := inferInstanceAs (Decidable (_ ∧ _))

/-- The documented behaviour of the package: a tree stores a set of nonempty intervals. -/
structure IntervalTreeApi.Documented (it : IntervalTreeApi) where
  stored : it.Tree → Set (ℕ × ℕ)
  stored_empty : ∀ i, i ∉ stored it.empty
  addi_null : ∀ t i j, ¬ i < j → it.addi t i j = .error .valueError
  addi : ∀ t i j, i < j → ∃ t', it.addi t i j = .ok t' ∧
    ∀ k, k ∈ stored t' ↔ k ∈ stored t ∨ k = (i, j)
  mergeOverlaps : ∀ t x, (∃ i ∈ stored (it.mergeOverlaps t), i.1 ≤ x ∧ x < i.2) ↔
    ∃ i ∈ stored t, i.1 ≤ x ∧ x < i.2
  envelop : ∀ t i j k, k ∈ it.envelop t i j ↔ k ∈ stored t ∧ Within k (i, j)
  overlapsRange : ∀ t i j, it.overlapsRange t i j = true ↔ ∃ k ∈ stored t, SharePoint k (i, j)

namespace IntervalTreeApi.Documented

variable {it : IntervalTreeApi} (doc : it.Documented)

/-- Adding ranges to a tree succeeds when none of them is empty. -/
theorem foldlM_addi {l : List (ℕ × ℕ)} (hl : ∀ r ∈ l, r.1 < r.2) (t : it.Tree) :
    ∃ t', l.foldlM (fun tree r => it.addi tree r.1 r.2) t = .ok t' ∧
      ∀ k, k ∈ doc.stored t' ↔ k ∈ doc.stored t ∨ k ∈ l := by
  induction l generalizing t with
  | nil => exact ⟨t, rfl, by simp⟩
  | cons r l ih =>
    obtain ⟨t₁, ht₁, hmem₁⟩ := doc.addi t r.1 r.2 (hl r List.mem_cons_self)
    obtain ⟨t', ht', hmem⟩ := ih (fun r' hr' => hl r' (List.mem_cons_of_mem r hr')) t₁
    refine ⟨t', ?_, fun k => ?_⟩
    · rw [List.foldlM_cons, ht₁]
      exact ht'
    · rw [hmem, hmem₁, List.mem_cons, or_assoc]

include doc in
theorem foldlM_addi_null {l : List (ℕ × ℕ)} (hl : ¬ ∀ r ∈ l, r.1 < r.2) (t : it.Tree) :
    l.foldlM (fun tree r => it.addi tree r.1 r.2) t = .error .valueError := by
  induction l generalizing t with
  | nil => exact absurd (by simp) hl
  | cons r l ih =>
    rw [List.foldlM_cons]
    by_cases hr : r.1 < r.2
    · obtain ⟨t₁, ht₁, -⟩ := doc.addi t r.1 r.2 hr
      rw [ht₁]
      exact ih (fun hall => hl (by simpa [hr] using hall)) t₁
    · rw [doc.addi_null t r.1 r.2 hr]
      rfl

/-- Merging does not change what a range overlaps. -/
theorem overlapsRange_mergeOverlaps (t : it.Tree) (i j : ℕ) :
    it.overlapsRange (it.mergeOverlaps t) i j = true ↔ ∃ k ∈ doc.stored t, SharePoint k (i, j) := by
  rw [doc.overlapsRange]
  constructor
  · rintro ⟨k, hk, x, hx, hr⟩
    obtain ⟨k', hk', hx'⟩ := (doc.mergeOverlaps t x).mp ⟨k, hk, hx⟩
    exact ⟨k', hk', x, hx', hr⟩
  · rintro ⟨k, hk, x, hx, hr⟩
    obtain ⟨k', hk', hx'⟩ := (doc.mergeOverlaps t x).mpr ⟨k, hk, hx⟩
    exact ⟨k', hk', x, hx', hr⟩

end IntervalTreeApi.Documented

namespace HBGBuilder

/-- The intervals of the flushes. -/
def flushIntervals (l : List Node) : List (ℕ × ℕ) :=
  l.filterMap fun
    | .epoch _ => none
    | .instruction n => if n.itype = .flush then some n.interval else none

/-- The ranges that an access has to overlap. -/
def keepRanges (l : List Node) (pmemRange : Option (ℕ × ℕ)) : List (ℕ × ℕ) :=
  match pmemRange with
  | some range => [range]
  | none => flushIntervals l

/-- A read or write of persistent memory outside the ignored ranges, or any other node. -/
def IsKept (l : List Node) (pmemRange : Option (ℕ × ℕ)) (ignoreRanges : List (ℕ × ℕ)) :
    Node → Prop
  | .epoch _ => True
  | .instruction n => n.itype.isReadWriteType = true →
    (∃ r ∈ keepRanges l pmemRange, SharePoint r n.interval) ∧
      ¬ ∃ r ∈ ignoreRanges, Within n.interval r

instance (l : List Node) (pmemRange : Option (ℕ × ℕ)) (ignoreRanges : List (ℕ × ℕ)) :
    DecidablePred (IsKept l pmemRange ignoreRanges) := fun n =>
  match n with
  | .epoch _ => inferInstanceAs (Decidable True)
  | .instruction n => inferInstanceAs (Decidable (n.itype.isReadWriteType = true → _ ∧ ¬ _))

theorem flushIntervals_nonempty {l : List Node} {r : ℕ × ℕ} (hr : r ∈ flushIntervals l) :
    r.1 < r.2 := by
  obtain ⟨n, -, hn⟩ := List.mem_filterMap.mp hr
  cases n with
  | epoch _ => cases hn
  | instruction n =>
    simp only [Option.ite_none_right_eq_some, Option.some.injEq] at hn
    obtain ⟨-, rfl⟩ := hn
    have hs := n.size_ne_zero
    simp only [InstructionNode.interval]
    omega

section Filter

variable {it : IntervalTreeApi} (doc : it.Documented) (b : HBGBuilder)
  (pmemRange : Option (ℕ × ℕ)) (ignoreRanges : List (ℕ × ℕ))

/-- No range that was given is empty. -/
def RangesNonempty (pmemRange : Option (ℕ × ℕ)) (ignoreRanges : List (ℕ × ℕ)) : Prop :=
  (∀ r ∈ pmemRange, r.1 < r.2) ∧ ∀ r ∈ ignoreRanges, r.1 < r.2

/-- The ignored ranges inside an access of persistent memory and those around it go together. -/
def IgnoredAlike (l : List Node) (pmemRange : Option (ℕ × ℕ)) (ignoreRanges : List (ℕ × ℕ)) :
    Prop :=
  ∀ n, Node.instruction n ∈ l → n.itype.isReadWriteType = true →
    (∃ r ∈ keepRanges l pmemRange, SharePoint r n.interval) →
      ((∃ r ∈ ignoreRanges, Within r n.interval) ↔ ∃ r ∈ ignoreRanges, Within n.interval r)

include doc in
/-- The filter drops an access when an ignored range lies in it. -/
theorem filterVolatileNodes_eq (hr : RangesNonempty pmemRange ignoreRanges) :
    ∃ p : Node → Bool, b.filterVolatileNodes it pmemRange ignoreRanges =
        .ok { b with nodes := b.nodes.filter p } ∧ (∀ e, p (.epoch e) = true) ∧
      ∀ n, p (.instruction n) = true ↔ (n.itype.isReadWriteType = true →
        (∃ r ∈ keepRanges b.nodes pmemRange, SharePoint r n.interval) ∧
          ¬ ∃ r ∈ ignoreRanges, Within r n.interval) := by
  have hkeep : ∀ r ∈ keepRanges b.nodes pmemRange, r.1 < r.2 := by
    intro r hmem
    cases pmemRange with
    | some range =>
      obtain rfl : r = range := List.mem_singleton.mp hmem
      exact hr.1 r rfl
    | none => exact flushIntervals_nonempty hmem
  obtain ⟨keepTree, hkt, hkm⟩ := doc.foldlM_addi hkeep it.empty
  obtain ⟨ignoreTree, hit, him⟩ := doc.foldlM_addi hr.2 it.empty
  refine ⟨shouldKeep it (it.mergeOverlaps keepTree) ignoreTree, ?_, fun _ => rfl, fun n => ?_⟩
  · unfold filterVolatileNodes
    show (List.foldlM _ _ (keepRanges b.nodes pmemRange) >>= _) = _
    rw [hkt, ok_bind, hit]
    rfl
  · have hoverlap : it.overlapsRange (it.mergeOverlaps keepTree) n.interval.1 n.interval.2 = true ↔
        ∃ r ∈ keepRanges b.nodes pmemRange, SharePoint r n.interval := by
      rw [doc.overlapsRange_mergeOverlaps]
      refine exists_congr fun r => and_congr_left' ?_
      rw [hkm, or_iff_right (doc.stored_empty r)]
    have henvelop : it.envelop ignoreTree n.interval.1 n.interval.2 ≠ [] ↔
        ∃ r ∈ ignoreRanges, Within r n.interval := by
      rw [ne_eq, List.eq_nil_iff_forall_not_mem, not_forall_not]
      refine exists_congr fun r => ?_
      rw [doc.envelop, him, or_iff_right (doc.stored_empty r)]
    rw [← hoverlap, ← henvelop]
    show (if _ then if _ then _ else _ else _) = true ↔ _
    split_ifs with hi he
    · exact ⟨fun hc => (nomatch hc), fun hall => absurd he (hall hi).2⟩
    · exact ⟨fun ho _ => ⟨ho, he⟩, fun hall => (hall hi).1⟩
    · exact ⟨fun _ hc => absurd hc hi, fun _ => rfl⟩

include doc in
/-- An empty range makes the package raise an exception. -/
theorem filterVolatileNodes_null (hr : ¬ RangesNonempty pmemRange ignoreRanges) :
    b.filterVolatileNodes it pmemRange ignoreRanges = .error .valueError := by
  unfold filterVolatileNodes
  show (List.foldlM _ _ (keepRanges b.nodes pmemRange) >>= _) = _
  by_cases hkeep : ∀ r ∈ keepRanges b.nodes pmemRange, r.1 < r.2
  · obtain ⟨keepTree, hkt, -⟩ := doc.foldlM_addi hkeep it.empty
    have hignore : ¬ ∀ r ∈ ignoreRanges, r.1 < r.2 := by
      intro hall
      refine hr ⟨fun r hmem => ?_, hall⟩
      rw [Option.mem_def] at hmem
      subst hmem
      exact hkeep r List.mem_cons_self
    rw [hkt, ok_bind, doc.foldlM_addi_null hignore]
    rfl
  · rw [doc.foldlM_addi_null hkeep]
    rfl

include doc in
/-- The filter keeps the nodes that it is meant to keep exactly when no range is empty and the
accesses of persistent memory contain an ignored range just when one contains them. -/
theorem filter_exact_iff :
    (∃ b', b.filterVolatileNodes it pmemRange ignoreRanges = .ok b' ∧
        b'.nodes = b.nodes.filter fun n => decide (IsKept b.nodes pmemRange ignoreRanges n)) ↔
      RangesNonempty pmemRange ignoreRanges ∧ IgnoredAlike b.nodes pmemRange ignoreRanges := by
  by_cases hr : RangesNonempty pmemRange ignoreRanges
  · obtain ⟨p, hp, hepoch, hinstr⟩ := filterVolatileNodes_eq doc b pmemRange ignoreRanges hr
    rw [and_iff_right hr]
    constructor
    · rintro ⟨b', hb', hnodes⟩ n hn hi ho
      rw [hp] at hb'
      obtain rfl := Except.ok.inj hb'
      have hsame : p (.instruction n) = true ↔
          IsKept b.nodes pmemRange ignoreRanges (.instruction n) := by
        have hmem : Node.instruction n ∈ b.nodes.filter p ↔ Node.instruction n ∈
            b.nodes.filter fun n => decide (IsKept b.nodes pmemRange ignoreRanges n) := by
          rw [← hnodes]
        simpa [List.mem_filter, hn] using hmem
      rw [hinstr] at hsame
      simp only [IsKept, hi, ho, true_and, true_implies] at hsame
      exact not_iff_not.mp hsame
    · intro halike
      refine ⟨_, hp, List.filter_congr fun n hn => ?_⟩
      cases n with
      | epoch e => exact (hepoch e).trans (decide_eq_true trivial).symm
      | instruction n =>
        rw [Bool.eq_iff_iff, hinstr, decide_eq_true_iff]
        refine forall_congr' fun hi => and_congr_right fun ho => not_congr ?_
        exact halike n hn hi ho
  · refine iff_of_false ?_ (fun h => hr h.1)
    rintro ⟨b', hb', -⟩
    rw [filterVolatileNodes_null doc b pmemRange ignoreRanges hr] at hb'
    cases hb'

end Filter

/-- Trees as lists of intervals; merging is not needed for a single range. -/
def listTrees : IntervalTreeApi where
  Tree := List (ℕ × ℕ)
  empty := []
  addi := fun (tree : List (ℕ × ℕ)) i j =>
    if i < j then pure (tree ++ [(i, j)]) else throw .valueError
  mergeOverlaps := id
  envelop := fun (tree : List (ℕ × ℕ)) i j => tree.filter fun k => decide (Within k (i, j))
  overlapsRange := fun (tree : List (ℕ × ℕ)) i j => tree.any fun k => decide (SharePoint k (i, j))

def listTreesDocumented : listTrees.Documented where
  stored := fun (tree : List (ℕ × ℕ)) => {i | i ∈ tree}
  stored_empty := fun i => List.not_mem_nil
  addi_null := fun t i j h => if_neg h
  addi := by
    intro (t : List (ℕ × ℕ)) i j h
    exact ⟨t ++ [(i, j)], if_pos h, fun k =>
      List.mem_append.trans (or_congr_right List.mem_singleton)⟩
  mergeOverlaps := fun t x => Iff.rfl
  envelop := by
    intro (t : List (ℕ × ℕ)) i j k
    exact List.mem_filter.trans (and_congr_right' decide_eq_true_iff)
  overlapsRange := by
    intro (t : List (ℕ × ℕ)) i j
    exact List.any_eq_true.trans
      (exists_congr fun k => and_congr_right' decide_eq_true_iff)

def volatileRead : InstructionNode :=
  ⟨0, .read, 0, 0, 0x1800, 8, false, false, .none, none, none, NodeType.isInstructionType_read,
    word_ne_zero⟩

def volatileTrace : HBGBuilder := ⟨[.instruction volatileRead], [], 1⟩

theorem filter_exact_iff_volatile :
    (∃ b', volatileTrace.filterVolatileNodes listTrees (some (0, 0x10000)) [(0x1000, 0x2000)] =
        .ok b' ∧ b'.nodes = volatileTrace.nodes.filter fun n =>
          decide (IsKept volatileTrace.nodes (some (0, 0x10000)) [(0x1000, 0x2000)] n)) ↔
      RangesNonempty (some (0, 0x10000)) [(0x1000, 0x2000)] ∧
        IgnoredAlike volatileTrace.nodes (some (0, 0x10000)) [(0x1000, 0x2000)] :=
  filter_exact_iff listTreesDocumented volatileTrace (some (0, 0x10000)) [(0x1000, 0x2000)]

/-- A read inside a volatile range is kept. -/
theorem volatile_read_kept :
    ∃ b', volatileTrace.filterVolatileNodes listTrees (some (0, 0x10000)) [(0x1000, 0x2000)] =
        .ok b' ∧ b'.nodes = [.instruction volatileRead] ∧
      ¬ IsKept volatileTrace.nodes (some (0, 0x10000)) [(0x1000, 0x2000)]
        (.instruction volatileRead) :=
  ⟨_, rfl, by decide, by decide⟩

end HBGBuilder

end Prd.Pycprd
