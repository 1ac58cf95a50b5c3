import Mathlib.Data.Set.Card

/-!
# Counted references

Every holder refers to at most one object, and the counter of an object that is held
at all is the number of its holders.
-/
namespace Prd.Foundation

variable {H I : Type}

def Counted (hold : H → Option I) (ref : I → ℕ) : Prop :=
  ∀ i, (∃ h, hold h = some i) → {h | hold h = some i}.encard = ref i

namespace Counted

variable {hold : H → Option I} {ref ref' : I → ℕ} {h : H} {i : I}

theorem pos (hc : Counted hold ref) (hh : hold h = some i) : 0 < ref i := by
  have hcard := hc i ⟨h, hh⟩
  by_contra hle
  rw [Nat.eq_zero_of_not_pos hle, Nat.cast_zero, Set.encard_eq_zero] at hcard
  have hmem : h ∈ {h | hold h = some i} := hh
  rw [hcard] at hmem
  exact hmem

/-- A counter of one has a single holder. -/
theorem exclusive (hc : Counted hold ref) (href : ref i = 1) (hh : hold h = some i) {h' : H}
    (hh' : hold h' = some i) : h' = h := by
  have hcard := hc i ⟨h, hh⟩
  rw [href, Nat.cast_one, Set.encard_eq_one] at hcard
  obtain ⟨x, hx⟩ := hcard
  have hmem : h ∈ {h | hold h = some i} := hh
  have hmem' : h' ∈ {h | hold h = some i} := hh'
  rw [hx] at hmem hmem'
  exact hmem'.trans hmem.symm

theorem congr (hc : Counted hold ref) (href : ∀ i, (∃ h, hold h = some i) → ref' i = ref i) :
    Counted hold ref' := by
  intro i hi
  rw [href i hi]
  exact hc i hi

variable [DecidableEq H]

theorem holders_update_self (hold : H → Option I) (h : H) (i : I) :
    {x | Function.update hold h (some i) x = some i} = insert h {x | hold x = some i} := by
  ext x
  by_cases hx : x = h
  · subst hx
    simp
  · simp [hx]

/-- The holders of an object after one of them holds something else. -/
theorem holders_update_of_ne (hold : H → Option I) (h : H) {o : Option I} {i : I}
    (ho : o ≠ some i) : {x | Function.update hold h o x = some i} = {x | hold x = some i} \
    {h} := by
  ext x
  by_cases hx : x = h
  · subst hx
    simp [ho]
  · simp [hx]

/-- A holder of nothing takes an object, whose counter is right afterwards. -/
theorem take (hc : Counted hold ref) (hnone : hold h = none) (hother : ∀ j, j ≠ i → ref' j = ref j)
    (hself : (insert h {x | hold x = some i}).encard = ref' i) :
    Counted (Function.update hold h (some i)) ref' := by
  intro j hj
  by_cases hij : i = j
  · subst hij
    rw [holders_update_self, hself]
  · have hnotMem : h ∉ {x | hold x = some j} := by
      intro hj
      cases hnone.symm.trans hj
    rw [holders_update_of_ne hold h (by simpa using hij), Set.sdiff_singleton_eq_self hnotMem,
      hother j (Ne.symm hij)]
    apply hc
    obtain ⟨x, hx⟩ := hj
    by_cases hxh : x = h
    · subst hxh
      rw [Function.update_self] at hx
      exact absurd (Option.some.inj hx) hij
    · rw [Function.update_of_ne hxh] at hx
      exact ⟨x, hx⟩

/-- The object is held already. -/
theorem share (hc : Counted hold ref) (hnone : hold h = none) (hi : ∃ h', hold h' = some i)
    (hother : ∀ j, j ≠ i → ref' j = ref j) (hself : ref' i = ref i + 1) :
    Counted (Function.update hold h (some i)) ref' := by
  have hnotMem : h ∉ {x | hold x = some i} := by
    intro hj
    cases hnone.symm.trans hj
  refine hc.take hnone hother ?_
  rw [Set.encard_insert_of_notMem hnotMem, hc i hi, hself]
  rfl

/-- Nobody holds the object yet. -/
theorem takeFresh (hc : Counted hold ref) (hnone : hold h = none) (hi : ∀ h', hold h' ≠ some i)
    (hother : ∀ j, j ≠ i → ref' j = ref j) (hself : ref' i = 1) :
    Counted (Function.update hold h (some i)) ref' := by
  have hempty : {x | hold x = some i} = ∅ := Set.eq_empty_iff_forall_notMem.mpr hi
  refine hc.take hnone hother ?_
  rw [hempty, insert_empty_eq, Set.encard_singleton, hself, Nat.cast_one]

/-- A holder lets go of an object, whose counter goes down unless it was the last one. -/
theorem drop (hc : Counted hold ref) (hh : hold h = some i) (hother : ∀ j, j ≠ i → ref' j = ref j)
    (hself : 1 < ref i → ref' i + 1 = ref i) : Counted (Function.update hold h none) ref' := by
  intro j hj
  obtain ⟨x, hx⟩ := hj
  have hxh : x ≠ h := by
    intro he
    subst he
    rw [Function.update_self] at hx
    cases hx
  rw [Function.update_of_ne hxh] at hx
  rw [holders_update_of_ne hold h (Option.some_ne_none j).symm]
  by_cases hji : j = i
  · subst hji
    have hcard := hc j ⟨h, hh⟩
    have hlt : 1 < ref j := by
      have hpos := hc.pos hh
      by_contra hle
      exact hxh (hc.exclusive (by omega) hh hx)
    have hmem : h ∈ {x | hold x = some j} := hh
    rw [← Set.encard_sdiff_singleton_add_one hmem, ← hself hlt, Nat.cast_add, Nat.cast_one] at hcard
    exact WithTop.add_right_cancel ENat.one_ne_top hcard
  · have hnotMem : h ∉ {x | hold x = some j} := by
      intro hj
      exact hji (Option.some.inj (hj.symm.trans hh))
    rw [Set.sdiff_singleton_eq_self hnotMem, hother j hji]
    exact hc j ⟨x, hx⟩

end Counted

end Prd.Foundation
