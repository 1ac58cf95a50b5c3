import Mathlib.Data.List.Basic
import Mathlib.Data.List.Induction
import Mathlib.Data.List.Nodup
import Mathlib.Data.List.TakeWhile

/-!
# Elements that wait for the first one to take them

A loop over a list keeps the elements that wait. An element that starts to wait stays
until some later one takes it. After any prefix those wait that nothing took, and each
other one was taken by the first that could.
-/
namespace Prd.Foundation

variable {α : Type*} (starts : α → Prop) (takes : α → α → Prop)

/-- `r` starts to wait and nothing after it takes it. -/
def Waits (l : List α) (r : α) : Prop :=
  ∃ pre post, l = pre ++ r :: post ∧ starts r ∧ ∀ x ∈ post, ¬ takes x r

/-- `w` is the first to take `r`. -/
def TakenBy (l : List α) (w r : α) : Prop :=
  ∃ pre post, l = pre ++ w :: post ∧ Waits starts takes pre r ∧ takes w r

theorem not_waits_nil (r : α) : ¬ Waits starts takes [] r := by
  intro h
  obtain ⟨pre, post, hl, -⟩ := h
  simp at hl

theorem not_takenBy_nil (w r : α) : ¬ TakenBy starts takes [] w r := by
  intro h
  obtain ⟨pre, post, hl, -⟩ := h
  simp at hl

variable {starts takes}

/-- An element of an extended list is the new one or an element of the old list. -/
theorem append_singleton_eq_iff {l pre post : List α} {x y : α} :
    l ++ [x] = pre ++ y :: post ↔
      pre = l ∧ y = x ∧ post = [] ∨ ∃ mid, post = mid ++ [x] ∧ l = pre ++ y :: mid := by
  constructor
  · intro h
    rcases List.eq_nil_or_concat' post with rfl | ⟨mid, z, rfl⟩
    · obtain ⟨rfl, hx⟩ := List.append_inj' h rfl
      exact Or.inl ⟨rfl, (List.singleton_inj.mp hx).symm, rfl⟩
    · have h' : l ++ [x] = (pre ++ y :: mid) ++ [z] := by rw [h]; simp
      obtain ⟨rfl, hx⟩ := List.append_inj' h' rfl
      exact Or.inr ⟨mid, by rw [List.singleton_inj.mp hx], rfl⟩
  · intro h
    rcases h with ⟨rfl, rfl, rfl⟩ | ⟨mid, rfl, rfl⟩
    · rfl
    · simp

theorem modify_length_append (pre post : List α) (y : α) (f : α → α) :
    (pre ++ y :: post).modify pre.length f = pre ++ f y :: post := by
  induction pre with
  | nil => rfl
  | cons x pre ih => simp [ih]

/-- A property of all splits of an extended list: the new element adds one split. -/
theorem forall_split_append_singleton {P : List α → α → Prop} {l : List α} {y : α} :
    (∀ pre x post, l ++ [y] = pre ++ x :: post → P pre x) ↔
      (∀ pre x post, l = pre ++ x :: post → P pre x) ∧ P l y := by
  constructor
  · intro h
    constructor
    · intro pre x post hl
      exact h pre x (post ++ [y]) (append_singleton_eq_iff.mpr (Or.inr ⟨post, rfl, hl⟩))
    · exact h l y [] rfl
  · intro h pre x post hl
    rcases append_singleton_eq_iff.mp hl with ⟨rfl, rfl, -⟩ | ⟨mid, -, hl⟩
    · exact h.2
    · exact h.1 pre x mid hl

/-- Some element starts, in view of those before it, and no element ends it since. -/
def Since (starts : List α → α → Prop) (ends : α → Prop) (l : List α) : Prop :=
  ∃ pre x post, l = pre ++ x :: post ∧ starts pre x ∧ ∀ y ∈ post, ¬ ends y

section Since

variable {starts starts' : List α → α → Prop} {ends : α → Prop} {l : List α} {x : α}

theorem not_since_nil : ¬ Since starts ends [] := by
  intro h
  obtain ⟨pre, x, post, hl, -⟩ := h
  simp at hl

theorem since_append_singleton :
    Since starts ends (l ++ [x]) ↔ starts l x ∨ Since starts ends l ∧ ¬ ends x := by
  constructor
  · intro h
    obtain ⟨pre, y, post, hl, hs, hpost⟩ := h
    rcases append_singleton_eq_iff.mp hl with ⟨rfl, rfl, -⟩ | ⟨mid, rfl, rfl⟩
    · exact Or.inl hs
    · refine Or.inr ⟨⟨pre, y, mid, rfl, hs, fun z hz => hpost z ?_⟩, hpost x ?_⟩
      · exact List.mem_append_left _ hz
      · exact List.mem_append_right _ (List.mem_singleton_self x)
  · intro h
    rcases h with hs | ⟨⟨pre, y, post, rfl, hs, hpost⟩, hx⟩
    · exact ⟨l, x, [], rfl, hs, fun z hz => absurd hz List.not_mem_nil⟩
    · refine ⟨pre, y, post ++ [x], by simp, hs, fun z hz => ?_⟩
      rcases List.mem_append.mp hz with hz | hz
      · exact hpost z hz
      · rw [List.mem_singleton.mp hz]
        exact hx

theorem since_or : Since (fun pre y => starts pre y ∨ starts' pre y) ends l ↔
    Since starts ends l ∨ Since starts' ends l := by
  induction l using List.reverseRecOn with
  | nil => simp [not_since_nil]
  | append_singleton l x ih =>
    simp only [since_append_singleton, ih]
    tauto

end Since

theorem waits_iff_since {l : List α} {r : α} :
    Waits starts takes l r ↔ Since (fun _ x => r = x ∧ starts x) (takes · r) l := by
  constructor
  · intro h
    obtain ⟨pre, post, hl, hs, hpost⟩ := h
    exact ⟨pre, r, post, hl, ⟨rfl, hs⟩, hpost⟩
  · intro h
    obtain ⟨pre, x, post, hl, ⟨rfl, hs⟩, hpost⟩ := h
    exact ⟨pre, post, hl, hs, hpost⟩

theorem waits_append_singleton {l : List α} {x r : α} :
    Waits starts takes (l ++ [x]) r ↔ r = x ∧ starts x ∨ Waits starts takes l r ∧ ¬ takes x r := by
  rw [waits_iff_since, waits_iff_since, since_append_singleton]

theorem takenBy_append_singleton {l : List α} {x w r : α} :
    TakenBy starts takes (l ++ [x]) w r ↔
      TakenBy starts takes l w r ∨ w = x ∧ Waits starts takes l r ∧ takes x r := by
  constructor
  · intro h
    obtain ⟨pre, post, hl, hw, ht⟩ := h
    rcases append_singleton_eq_iff.mp hl with ⟨rfl, rfl, -⟩ | ⟨mid, rfl, rfl⟩
    · exact Or.inr ⟨rfl, hw, ht⟩
    · exact Or.inl ⟨pre, mid, rfl, hw, ht⟩
  · intro h
    rcases h with ⟨pre, post, rfl, hw, ht⟩ | ⟨rfl, hw, ht⟩
    · exact ⟨pre, post ++ [x], by simp, hw, ht⟩
    · exact ⟨l, [], rfl, hw, ht⟩

theorem Waits.mem {l : List α} {r : α} (h : Waits starts takes l r) : starts r ∧ r ∈ l := by
  obtain ⟨pre, post, rfl, hs, -⟩ := h
  exact ⟨hs, by simp⟩

theorem TakenBy.mem {l : List α} {w r : α} (h : TakenBy starts takes l w r) :
    takes w r ∧ w ∈ l ∧ r ∈ l := by
  obtain ⟨pre, post, rfl, hw, ht⟩ := h
  exact ⟨ht, by simp, List.mem_append_left _ hw.mem.2⟩

/-- What a loop knows after `l`: who waits, and who took whom on top of `before`. -/
structure Matched (starts : α → Prop) (takes : α → α → Prop) (before : α → α → Prop) (l : List α)
    (waiting : α → Prop) (taken : α → α → Prop) : Prop where
  waiting : ∀ r, waiting r ↔ Waits starts takes l r
  taken : ∀ w r, taken w r ↔ before w r ∨ TakenBy starts takes l w r

namespace Matched

variable {before taken taken' : α → α → Prop} {waiting waiting' : α → Prop} {l : List α}

theorem nil (hw : ∀ r, ¬ waiting r) : Matched starts takes before [] waiting before where
  waiting := fun r => iff_of_false (hw r) (not_waits_nil starts takes r)
  taken := fun w r => (or_iff_left (not_takenBy_nil starts takes w r)).symm

/-- The step of the loop: those that the element takes leave, and it may start to wait. -/
theorem append_singleton (h : Matched starts takes before l waiting taken) {x : α}
    (hw : ∀ r, waiting' r ↔ r = x ∧ starts x ∨ waiting r ∧ ¬ takes x r)
    (ht : ∀ w r, taken' w r ↔ taken w r ∨ w = x ∧ waiting r ∧ takes x r) :
    Matched starts takes before (l ++ [x]) waiting' taken' where
  waiting := fun r => by rw [hw, h.waiting, waits_append_singleton]
  taken := fun w r => by rw [ht, h.taken, h.waiting, takenBy_append_singleton, or_assoc]

end Matched

section Search

variable [DecidableEq α]

/-- What comes after the first occurrence of `r`. -/
def after (l : List α) (r : α) : List α := (l.dropWhile (· ≠ r)).tail

theorem after_split {pre post : List α} {r : α} (h : r ∉ pre) :
    after (pre ++ r :: post) r = post := by
  unfold after
  rw [List.dropWhile_append_of_pos]
  · simp
  · intro x hx
    exact decide_eq_true fun hxr => h (hxr ▸ hx)

theorem after_of_notMem {l : List α} {r : α} (h : r ∉ l) : after l r = [] := by
  unfold after
  rw [List.dropWhile_eq_nil_iff.mpr]
  · rfl
  · intro x hx
    exact decide_eq_true fun hxr => h (hxr ▸ hx)

/-- Without repetitions the first to take an element is found by a search after it. -/
theorem takenBy_iff_find? [DecidableRel takes] {l : List α} (hnd : l.Nodup) {w r : α} :
    TakenBy starts takes l w r ↔
      starts r ∧ (after l r).find? (fun x => decide (takes x r)) = some w := by
  constructor
  · intro h
    obtain ⟨-, post, rfl, ⟨pre, mid, rfl, hs, hmid⟩, ht⟩ := h
    refine ⟨hs, ?_⟩
    rw [List.append_assoc, List.cons_append] at hnd ⊢
    have hr : r ∉ pre := fun hr => (List.nodup_append.mp hnd).2.2 r hr r List.mem_cons_self rfl
    rw [after_split hr, List.find?_append, List.find?_eq_none.mpr, List.find?_cons_of_pos]
    · rfl
    · exact decide_eq_true ht
    · intro x hx
      simpa using hmid x hx
  · intro h
    obtain ⟨hs, hfind⟩ := h
    by_cases hr : r ∈ l
    · obtain ⟨pre, post, rfl, hpre⟩ := List.eq_append_cons_of_mem hr
      rw [after_split hpre, List.find?_eq_some_iff_append] at hfind
      obtain ⟨ht, mid, rest, rfl, hmid⟩ := hfind
      refine ⟨pre ++ r :: mid,
        rest, by simp, ⟨pre, mid, rfl, hs, fun x hx => ?_⟩, of_decide_eq_true ht⟩
      simpa using hmid x hx
    · rw [after_of_notMem hr] at hfind
      cases hfind

theorem mem_of_mem_after {l : List α} {r x : α} (h : x ∈ after l r) : x ∈ l :=
  (List.dropWhile_sublist _).subset (List.mem_of_mem_tail h)

/-- `after` is a suffix of the list. -/
theorem exists_append_after (l : List α) (r : α) : ∃ pre, l = pre ++ after l r := by
  have hsuffix : after l r <:+ l := (List.tail_suffix _).trans (List.dropWhile_suffix _)
  obtain ⟨pre, hpre⟩ := hsuffix
  exact ⟨pre, hpre.symm⟩

end Search

/-- A search for more finds something no later. -/
theorem exists_find?_of_imp {p q : α → Bool} (himp : ∀ x, q x = true → p x = true) {l : List α}
    {w : α} (h : l.find? q = some w) :
    ∃ x pre post, l.find? p = some x ∧ l = pre ++ x :: post ∧ w ∈ x :: post := by
  have hw : p w = true := himp w (List.find?_some h)
  obtain ⟨x, hx⟩ := Option.isSome_iff_exists.mp
    (List.find?_isSome.mpr ⟨w, List.mem_of_find?_eq_some h, hw⟩)
  obtain ⟨hpx, pre, post, rfl, hpre⟩ := List.find?_eq_some_iff_append.mp hx
  refine ⟨x, pre, post, hx, rfl, ?_⟩
  rcases List.mem_append.mp (List.mem_of_find?_eq_some h) with hmem | hmem
  · have hno := hpre w hmem
    rw [hw] at hno
    cases hno
  · exact hmem

end Prd.Foundation
