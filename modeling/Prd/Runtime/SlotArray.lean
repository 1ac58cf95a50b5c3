import Mathlib.Data.List.Basic
import Mathlib.Order.Nat
import Mathlib.Tactic.Common
import Prd.Foundation.FirstMatch

/-!
# Arrays that always grow

A removed element keeps its slot, which is marked as not valid. Every slot is read
through its index, and an index out of range is undefined behaviour: there is no result.
The iteration starts at the first slot, valid or not, and goes on to the valid ones.
-/
namespace Prd.Runtime

/-- The first element that satisfies `p` splits the list. -/
theorem exists_split_of_findIdx? {α : Type} {p : α → Bool} {l : List α} {k : ℕ}
    (h : l.findIdx? p = some k) :
    ∃ pre y post, l = pre ++ y :: post ∧ pre.length = k ∧ p y = true ∧ ∀ z ∈ pre, p z = false := by
  induction l generalizing k with
  | nil => cases h
  | cons x l ih =>
    rw [List.findIdx?_cons] at h
    split_ifs at h with hx
    · cases h
      exact ⟨[], x, l, rfl, rfl, hx, fun z hz => absurd hz List.not_mem_nil⟩
    · obtain ⟨j, hj, rfl⟩ := Option.map_eq_some_iff.mp h
      obtain ⟨pre, y, post, rfl, rfl, hy, hpre⟩ := ih hj
      refine ⟨x :: pre, y, post, rfl, rfl, hy, ?_⟩
      rw [List.forall_mem_cons]
      exact ⟨Bool.eq_false_iff.mpr hx, hpre⟩

structure Item (α : Type) where
  valid : Bool
  data : α
  deriving DecidableEq, Repr

/-- The items are the slots below the count. -/
structure SlotArray (α : Type) (maxSize : ℕ) where
  items : List (Item α)
  length_le : items.length ≤ maxSize

namespace SlotArray

variable {α : Type} {maxSize : ℕ}

def new : SlotArray α maxSize := ⟨[], Nat.zero_le _⟩

def count (arr : SlotArray α maxSize) : ℕ := arr.items.length

section Operations

variable [Inhabited α] (arr : SlotArray α maxSize)

/-- The slots that were never used are zero. -/
def slot (i : ℕ) : Option (Item α) :=
  if i < maxSize then some (arr.items[i]?.getD ⟨false, default⟩) else none

def pushBack (v : α) : Option (SlotArray α maxSize) :=
  if h : arr.count < maxSize then
    some ⟨arr.items ++ [⟨true, v⟩], by simpa [count, Nat.succ_le_iff] using h⟩
  else none

/-- The loop of `_find` from index `i` on, `n` slots before the count. -/
def findFrom [DecidableEq α] (v : α) : ℕ → ℕ → Option (Option ℕ)
  | 0, _ => some none
  | n + 1, i => do
    let item ← arr.slot i
    if item.valid = true ∧ item.data = v then some (some i) else findFrom v n (i + 1)

def find [DecidableEq α] (v : α) : Option (Option ℕ) := arr.findFrom v arr.count 0

def contains [DecidableEq α] (v : α) : Option Bool := do
  let i ← arr.find v
  some i.isSome

/-- The slot at the index is no longer valid. -/
def invalidate (i : ℕ) : SlotArray α maxSize :=
  ⟨arr.items.modify i fun item => { item with valid := false }, by
    rw [List.length_modify]
    exact arr.length_le⟩

def remove [DecidableEq α] (v : α) : Option (Bool × SlotArray α maxSize) := do
  match ← arr.find v with
  | none => some (false, arr)
  | some i => some (true, arr.invalidate i)

/-- The loop of `operator++` at index `i`, `n` slots before the count. -/
def nextFrom : ℕ → ℕ → Option ℕ
  | 0, i => some i
  | n + 1, i => do
    let item ← arr.slot (i + 1)
    if item.valid then some (i + 1) else nextFrom n (i + 1)

def next (i : ℕ) : Option ℕ := arr.nextFrom (arr.count - i) i

/-- The loop over the array from index `i` on, until an element satisfies `p`. -/
def anyFrom (p : α → Bool) : ℕ → ℕ → Option Bool
  | 0, _ => some false
  | n + 1, i =>
    if i = arr.count then some false
    else do
      let item ← arr.slot i
      if p item.data then some true
      else do
        let j ← arr.next i
        anyFrom p n j

/-- Every step of the iterator goes up, so the count bounds the number of steps. -/
def any (p : α → Bool) : Option Bool := arr.anyFrom p (arr.count + 1) 0

end Operations

variable {arr : SlotArray α maxSize}

/-- The elements that an iteration meets. -/
def visited (arr : SlotArray α maxSize) : List α :=
  arr.items.head?.toList.map Item.data ++ (arr.items.tail.filter Item.valid).map Item.data

section Specs

variable [Inhabited α]

theorem slot_of_drop {i : ℕ} {x : Item α} {l : List (Item α)} (h : arr.items.drop i = x :: l) :
    arr.slot i = some x := by
  have hx : arr.items[i]? = some x := by
    rw [← List.head?_drop, h]
    rfl
  have hlt : i < arr.items.length := (List.getElem?_eq_some_iff.mp hx).1
  unfold slot
  rw [if_pos (lt_of_lt_of_le hlt arr.length_le), hx]
  rfl

theorem slot_count : arr.slot arr.count =
    if arr.count < maxSize then some ⟨false, default⟩ else none := by
  unfold slot count
  rw [List.getElem?_eq_none le_rfl]
  rfl

omit [Inhabited α] in
theorem drop_succ {i : ℕ} {x : Item α} {l : List (Item α)} (h : arr.items.drop i = x :: l) :
    arr.items.drop (i + 1) = l := by
  rw [← List.tail_drop, h]
  rfl

/-- The search looks at no slot outside the array. -/
theorem findFrom_eq [DecidableEq α] (v : α) {l : List (Item α)} {i : ℕ}
    (h : arr.items.drop i = l) : arr.findFrom v l.length i =
      some ((l.findIdx? fun item => item.valid = true ∧ item.data = v).map (i + ·)) := by
  induction l generalizing i with
  | nil => rfl
  | cons x l ih =>
    rw [List.length_cons, findFrom, slot_of_drop h, Option.bind_eq_bind, Option.bind_some,
      List.findIdx?_cons]
    by_cases hx : x.valid = true ∧ x.data = v
    · simp [hx]
    · rw [if_neg hx, ih (drop_succ h)]
      simp [hx, Function.comp_def, Nat.add_comm, Nat.add_left_comm]

theorem find_eq [DecidableEq α] (v : α) : arr.find v =
    some (arr.items.findIdx? fun item => item.valid = true ∧ item.data = v) := by
  unfold find count
  rw [findFrom_eq v List.drop_zero]
  simp

/-- The iterator goes on to the next valid slot, or else past the last one, which it has looked
at. -/
theorem nextFrom_eq {l : List (Item α)} {i : ℕ} (h : arr.items.drop (i + 1) = l)
    (hi : i < arr.count) : arr.nextFrom (l.length + 1) i =
      match l.findIdx? Item.valid with
      | some k => some (i + 1 + k)
      | none => if arr.count < maxSize then some arr.count else none := by
  induction l generalizing i with
  | nil =>
    have hle : arr.items.length ≤ i + 1 := List.drop_eq_nil_iff.mp h
    have hcount : i + 1 = arr.count := le_antisymm hi hle
    rw [List.length_nil, nextFrom, hcount, slot_count]
    split_ifs with hm
    · rfl
    · rfl
  | cons x l ih =>
    rw [List.length_cons, nextFrom, slot_of_drop h, Option.bind_eq_bind, Option.bind_some,
      List.findIdx?_cons]
    have hlt : i + 1 < arr.count := by
      by_contra hc
      rw [List.drop_eq_nil_iff.mpr (not_lt.mp hc)] at h
      cases h
    cases hx : x.valid with
    | true => rfl
    | false =>
      simp only [Bool.false_eq_true, if_false]
      rw [ih (drop_succ h) hlt]
      cases l.findIdx? Item.valid with
      | none => rfl
      | some k => simp [Nat.add_comm, Nat.add_left_comm]

/-- A loop over the array meets the element it is at and the valid ones after it. -/
theorem anyFrom_eq (p : α → Bool) {n i : ℕ} {x : Item α} {l : List (Item α)}
    (h : arr.items.drop i = x :: l) (hn : l.length + 1 < n) : arr.anyFrom p n i =
      if (x.data :: (l.filter Item.valid).map Item.data).any p then some true
      else if arr.count < maxSize then some false else none := by
  induction n generalizing i x l with
  | zero => omega
  | succ n ih =>
    have hi : i < arr.count := by
      by_contra hc
      rw [List.drop_eq_nil_iff.mpr (not_lt.mp hc)] at h
      cases h
    rw [anyFrom, if_neg hi.ne, slot_of_drop h, Option.bind_eq_bind, Option.bind_some, List.any_cons]
    by_cases hp : p x.data = true
    · rw [if_pos hp, hp]
      rfl
    · rw [if_neg hp, Bool.eq_false_iff.mpr hp, Bool.false_or]
      have hlen : arr.count - i = l.length + 1 := by
        have hdrop := congrArg List.length h
        rw [List.length_drop, List.length_cons] at hdrop
        exact hdrop
      unfold next
      rw [hlen, nextFrom_eq (drop_succ h) hi]
      cases hk : l.findIdx? Item.valid with
      | none =>
        have hnone : l.filter Item.valid = [] := by
          rw [List.filter_eq_nil_iff]
          intro y hy
          rw [List.findIdx?_eq_none_iff] at hk
          simp [hk y hy]
        rw [hnone]
        obtain ⟨m, rfl⟩ : ∃ m, n = m + 1 := ⟨n - 1, by omega⟩
        simp only [List.map_nil, List.any_nil, Bool.false_eq_true, if_false]
        split_ifs with hm
        · show arr.anyFrom p (m + 1) arr.count = _
          rw [anyFrom, if_pos rfl]
        · rfl
      | some k =>
        obtain ⟨pre, y, post, rfl, rfl, hy, hpre⟩ := exists_split_of_findIdx? hk
        have hfilter : (pre ++ y :: post).filter Item.valid = y :: post.filter Item.valid := by
          rw [List.filter_append, List.filter_eq_nil_iff.mpr fun z hz => by simp [hpre z hz],
            List.filter_cons_of_pos hy]
          rfl
        have hdrop : arr.items.drop (i + 1 + pre.length) = y :: post := by
          rw [← List.drop_drop, drop_succ h, List.drop_left]
        rw [List.length_append, List.length_cons] at hn
        rw [hfilter, List.map_cons]
        exact ih hdrop (by omega)

/-- An iteration finds what it meets, and looks past the last slot when it does not. -/
theorem any_eq (p : α → Bool) (hmax : 0 < maxSize) : arr.any p =
    if arr.visited.any p then some true
    else if arr.count < maxSize then some false else none := by
  unfold any visited
  cases hitems : arr.items with
  | nil =>
    have hcount : arr.count = 0 := by
      unfold count
      rw [hitems]
      rfl
    simp [hcount, anyFrom, hmax]
  | cons x l =>
    have hlen : l.length + 1 < arr.count + 1 := by
      unfold count
      rw [hitems]
      simp
    rw [anyFrom_eq p (List.drop_zero.trans hitems) hlen]
    rfl

end Specs

/-- The elements that were not removed. -/
def contents (arr : SlotArray α maxSize) : List α := (arr.items.filter Item.valid).map Item.data

/-- The element that came first, removed or not. -/
def first? (arr : SlotArray α maxSize) : Option α := arr.items.head?.map Item.data

/-- An iteration meets the elements of the array and the one that came first. -/
theorem mem_visited {x : α} : x ∈ arr.visited ↔ x ∈ arr.contents ∨ arr.first? = some x := by
  unfold visited contents first?
  cases arr.items with
  | nil => simp
  | cons y l =>
    cases hy : y.valid with
    | true =>
      simp only [List.head?_cons, List.tail_cons, List.filter_cons, hy, Option.toList_some,
        Option.map_some, List.map_cons, List.map_nil, List.mem_append, List.mem_cons, if_true,
        Option.some.injEq, eq_comm]
      tauto
    | false =>
      simp only [List.head?_cons, List.tail_cons, List.filter_cons, hy, Option.toList_some,
        Option.map_some, List.map_cons, List.map_nil, List.mem_append, List.mem_singleton,
        Bool.false_eq_true, if_false, Option.some.injEq, eq_comm]
      tauto

section Contents

variable [DecidableEq α] {v : α}

omit [DecidableEq α] in
theorem mem_contents : v ∈ arr.contents ↔ ∃ item ∈ arr.items, item.valid = true ∧
    item.data = v := by
  simp [contents, and_assoc]

theorem contains_eq [Inhabited α] : arr.contains v = some (decide (v ∈ arr.contents)) := by
  unfold contains
  rw [find_eq, Option.bind_eq_bind, Option.bind_some, Option.some.injEq, Bool.eq_iff_iff,
    List.findIdx?_isSome, List.any_eq_true, decide_eq_true_eq, mem_contents]
  simp

omit [DecidableEq α] in
theorem pushBack_spec (h : arr.count < maxSize) (v : α) :
    ∃ arr', arr.pushBack v = some arr' ∧ arr'.items = arr.items ++ [⟨true, v⟩] :=
  ⟨_, dif_pos h, rfl⟩

omit [DecidableEq α] in
theorem pushBack_eq_none (h : ¬ arr.count < maxSize) (v : α) : arr.pushBack v = none :=
  dif_neg h

/-- The search finds the first valid slot with the element. -/
theorem findIdx?_eq_some_iff {i : ℕ} :
    (arr.items.findIdx? fun item => item.valid = true ∧ item.data = v) = some i ↔
      arr.items[i]? = some ⟨true, v⟩ ∧ ∀ j < i, arr.items[j]? ≠ some ⟨true, v⟩ := by
  have hitem : ∀ item : Item α, item.valid = true ∧ item.data = v ↔ item = ⟨true, v⟩ := by
    intro item
    cases item
    simp
  rw [List.findIdx?_eq_some_iff_getElem]
  simp only [hitem, decide_eq_true_eq]
  constructor
  · intro h
    obtain ⟨hi, hv, hbefore⟩ := h
    refine ⟨List.getElem?_eq_some_iff.mpr ⟨hi, hv⟩, fun j hj hjv => ?_⟩
    obtain ⟨_, heq⟩ := List.getElem?_eq_some_iff.mp hjv
    exact hbefore j hj heq
  · intro h
    obtain ⟨hv, hbefore⟩ := h
    obtain ⟨hi, hv⟩ := List.getElem?_eq_some_iff.mp hv
    exact ⟨hi, hv, fun j hj hjv => hbefore j hj (List.getElem?_eq_some_iff.mpr ⟨_, hjv⟩)⟩

omit [DecidableEq α] in
theorem getElem?_invalidate (i j : ℕ) : (arr.invalidate i).items[j]? =
    if i = j then arr.items[j]?.map fun item => { item with valid := false }
    else arr.items[j]? := by
  show (arr.items.modify i _)[j]? = _
  rw [List.getElem?_modify]
  split_ifs with hij
  · rfl
  · cases arr.items[j]? with
    | none => rfl
    | some item => rfl

theorem remove_eq [Inhabited α] : arr.remove v =
    match arr.items.findIdx? fun item => item.valid = true ∧ item.data = v with
    | none => some (false, arr)
    | some i => some (true, arr.invalidate i) := by
  unfold remove
  rw [find_eq, Option.bind_eq_bind, Option.bind_some]

/-- The slots keep their data. -/
theorem data_remove [Inhabited α] {arr' : SlotArray α maxSize} {b : Bool}
    (h : arr.remove v = some (b, arr')) :
    arr'.items.map Item.data = arr.items.map Item.data := by
  rw [remove_eq] at h
  split at h
  · cases h
    rfl
  · cases h
    apply List.ext_getElem?
    intro j
    simp only [invalidate, List.getElem?_map, List.getElem?_modify]
    cases arr.items[j]? with
    | none => rfl
    | some item => split_ifs <;> rfl

/-- The first element that is equal is removed, if there is one. -/
theorem remove_spec [Inhabited α] (arr : SlotArray α maxSize) (v : α) :
    ∃ arr', arr.remove v = some (decide (v ∈ arr.contents), arr') ∧
      arr'.contents = arr.contents.erase v ∧ arr'.count = arr.count ∧ arr'.first? = arr.first? := by
  have hcontains : arr.contains v = some (decide (v ∈ arr.contents)) := contains_eq
  unfold contains at hcontains
  rw [find_eq, Option.bind_eq_bind, Option.bind_some] at hcontains
  rw [remove_eq, ← Option.some.inj hcontains]
  cases hk : arr.items.findIdx? fun item => item.valid = true ∧ item.data = v with
  | none =>
    rw [hk] at hcontains
    have hnot : v ∉ arr.contents := of_decide_eq_false (Option.some.inj hcontains).symm
    exact ⟨arr, rfl, (List.erase_of_not_mem hnot).symm, rfl, rfl⟩
  | some k =>
    obtain ⟨pre, y, post, hitems, rfl, hy, hpre⟩ := exists_split_of_findIdx? hk
    rw [decide_eq_true_eq] at hy
    have hinv : (arr.invalidate pre.length).items = pre ++ { y with valid := false } :: post := by
      show arr.items.modify pre.length _ = _
      rw [hitems]
      exact Foundation.modify_length_append pre post y _
    have hpreC : v ∉ (pre.filter Item.valid).map Item.data := by
      intro hmem
      obtain ⟨z, hz, hzv⟩ := List.mem_map.mp hmem
      obtain ⟨hz, hzvalid⟩ := List.mem_filter.mp hz
      exact of_decide_eq_false (hpre z hz) ⟨hzvalid, hzv⟩
    refine ⟨arr.invalidate pre.length, rfl, ?_, ?_, ?_⟩
    · unfold contents
      rw [hinv, hitems, List.filter_append, List.filter_append, List.map_append, List.map_append,
        List.erase_append_right _ hpreC, List.filter_cons_of_pos hy.1, List.filter_cons_of_neg
        (by simp),
        List.map_cons, hy.2, List.erase_cons_head]
    · unfold count
      rw [hinv, hitems]
      simp
    · unfold first?
      rw [hinv, hitems]
      cases pre with
      | nil => rfl
      | cons x pre => rfl

omit [DecidableEq α] in
theorem contents_pushBack {arr' : SlotArray α maxSize} {v : α}
    (h : arr'.items = arr.items ++ [⟨true, v⟩]) : arr'.contents = arr.contents ++ [v] ∧
      arr'.count = arr.count + 1 ∧ arr'.first? = arr.first?.or (some v) := by
  refine ⟨?_, ?_, ?_⟩
  · simp [contents, h]
  · simp [count, h]
  · unfold first?
    rw [h]
    cases arr.items with
    | nil => rfl
    | cons x l => rfl

end Contents

end SlotArray

end Prd.Runtime
