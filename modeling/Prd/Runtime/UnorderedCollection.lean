import Mathlib.Data.List.Perm.Basic
import Prd.Runtime.SlotArray

/-!
# Collections of a fixed number of slots

A new element takes the first slot that is free. An iterator stands at a valid slot or at
the end, and the body of a loop may remove the element it is at: what a loop does to the
slots is what a pass over the list of them does.
-/
namespace Prd.Runtime

structure UnorderedCollection (α : Type) (maxSize : ℕ) where
  items : List (Item α)
  count : ℕ
  length_eq : items.length = maxSize

namespace UnorderedCollection

variable {α σ : Type} {maxSize : ℕ}

section Operations

variable (c : UnorderedCollection α maxSize)

/-- The collection of zeroed memory. -/
def new [Inhabited α] : UnorderedCollection α maxSize :=
  ⟨List.replicate maxSize ⟨false, default⟩, 0, List.length_replicate⟩

/-- The loop of `find_valid` from index `i` on, `n` slots before the end. -/
def findValidFrom : ℕ → ℕ → ℕ
  | 0, i => i
  | n + 1, i => if c.items[i]?.map Item.valid = some true then i else findValidFrom n (i + 1)

def findValid (i : ℕ) : ℕ := c.findValidFrom (maxSize - i) i

def begin : ℕ := c.findValid 0

def next (i : ℕ) : ℕ := c.findValid (i + 1)

def findNextFree : Option ℕ := c.items.findIdx? fun item => ! item.valid

def setItem (i : ℕ) (item : Item α) : UnorderedCollection α maxSize :=
  { c with items := c.items.set i item, length_eq := by rw [List.length_set, c.length_eq] }

/-- The removal of the element that an iterator is at. -/
def remove (i : ℕ) : UnorderedCollection α maxSize :=
  match c.items[i]? with
  | some ⟨true, v⟩ => { c.setItem i ⟨false, v⟩ with count := c.count - 1 }
  | _ => c

/-- There is no result if all slots are taken. -/
def add (v : α) : Option (UnorderedCollection α maxSize) := do
  let i ← c.findNextFree
  some { c.setItem i ⟨true, v⟩ with count := c.count + 1 }

/-- The rest of a loop at index `i`, which takes at most `n` steps. The end is the first index
without a slot. The body leaves the element with another value or removes it. -/
def forEachFrom (body : σ → α → σ × Option α) :
    ℕ → ℕ → UnorderedCollection α maxSize → σ → UnorderedCollection α maxSize × σ
  | 0, _, c, s => (c, s)
  | n + 1, i, c, s =>
    match c.items[i]? with
    | none => (c, s)
    | some item =>
      let r := body s item.data
      let c' := match r.2 with
        | some v => c.setItem i { item with data := v }
        | none => c.remove i
      forEachFrom body n (c'.next i) c' r.1

def forEach (body : σ → α → σ × Option α) (s : σ) : UnorderedCollection α maxSize × σ :=
  forEachFrom body (maxSize + 1) c.begin c s

end Operations

/-- What a loop does to the slots in their order. -/
def visitItems (body : σ → α → σ × Option α) : σ → List (Item α) → List (Item α) × σ
  | s, [] => ([], s)
  | s, ⟨false, v⟩ :: l =>
    let r := visitItems body s l
    (⟨false, v⟩ :: r.1, r.2)
  | s, ⟨true, v⟩ :: l =>
    let b := body s v
    let r := visitItems body b.1 l
    (match b.2 with
      | some v' => ⟨true, v'⟩ :: r.1
      | none => ⟨false, v⟩ :: r.1, r.2)

/-- The count is the number of valid slots. -/
def Counted (c : UnorderedCollection α maxSize) : Prop :=
  c.count = c.items.countP Item.valid

def validData (l : List (Item α)) : List α := (l.filter Item.valid).map Item.data

def entries (c : UnorderedCollection α maxSize) : List α := validData c.items

section Specs

variable {c : UnorderedCollection α maxSize} {pre l : List (Item α)} {x : Item α} {i : ℕ}

theorem counted_new [Inhabited α] : (new : UnorderedCollection α maxSize).Counted := by
  simp [Counted, new, List.countP_replicate]

theorem entries_new [Inhabited α] : (new : UnorderedCollection α maxSize).entries = [] := by
  simp [entries, validData, new]

theorem Counted.count_eq (h : c.Counted) : c.count = c.entries.length := by
  unfold entries validData
  rw [List.length_map, ← List.countP_eq_length_filter]
  exact h

theorem getElem?_at (h : c.items = pre ++ x :: l) : c.items[pre.length]? = some x := by
  rw [h, List.getElem?_append_right le_rfl, Nat.sub_self]
  rfl

theorem findValid_end (h : c.items = pre) : c.findValid pre.length = maxSize := by
  unfold findValid
  rw [← h, c.length_eq, Nat.sub_self]
  rfl

theorem findValid_valid (h : c.items = pre ++ x :: l) (hx : x.valid = true) :
    c.findValid pre.length = pre.length := by
  have hlen := c.length_eq
  rw [h, List.length_append, List.length_cons] at hlen
  have hn : maxSize - pre.length = l.length + 1 := by omega
  unfold findValid
  rw [hn, findValidFrom, getElem?_at h, Option.map_some, hx, if_pos rfl]

theorem findValid_invalid (h : c.items = pre ++ x :: l) (hx : x.valid = false) :
    c.findValid pre.length = c.findValid (pre ++ [x]).length := by
  have hlen := c.length_eq
  rw [h, List.length_append, List.length_cons] at hlen
  have hn : maxSize - pre.length = l.length + 1 := by omega
  have hn' : maxSize - (pre ++ [x]).length = l.length := by
    rw [List.length_append, List.length_singleton]
    omega
  unfold findValid
  rw [hn, hn', findValidFrom, getElem?_at h, Option.map_some, hx, List.length_append,
    List.length_singleton, if_neg (by simp)]

theorem items_setItem (h : c.items = pre ++ x :: l) (y : Item α) :
    (c.setItem pre.length y).items = pre ++ y :: l := by
  show c.items.set pre.length y = _
  rw [h, List.set_append_right _ _ le_rfl, Nat.sub_self]
  rfl

theorem items_remove (h : c.items = pre ++ x :: l) :
    (c.remove pre.length).items = pre ++ { x with valid := false } :: l := by
  unfold remove
  rw [getElem?_at h]
  obtain ⟨valid, v⟩ := x
  cases valid with
  | false => exact h
  | true => exact items_setItem h _

/-- A loop does to the slots what a pass over them does. -/
theorem forEachFrom_eq (body : σ → α → σ × Option α) {n : ℕ} (s : σ)
    (h : c.items = pre ++ l) (hn : l.length < n) :
    (forEachFrom body n (c.findValid pre.length) c s).1.items = pre ++ (visitItems body s l).1 ∧
      (forEachFrom body n (c.findValid pre.length) c s).2 = (visitItems body s l).2 := by
  induction l generalizing n c pre s with
  | nil =>
    obtain ⟨m, rfl⟩ : ∃ m, n = m + 1 := ⟨n - 1, by omega⟩
    rw [List.append_nil] at h
    have hend : c.items[maxSize]? = none := by
      rw [List.getElem?_eq_none_iff, c.length_eq]
    rw [findValid_end h, forEachFrom, hend, visitItems, List.append_nil]
    exact ⟨h, rfl⟩
  | cons x l ih =>
    obtain ⟨valid, v⟩ := x
    rw [List.length_cons] at hn
    cases valid with
    | false =>
      have h' : c.items = (pre ++ [⟨false, v⟩]) ++ l := by rw [h, List.append_assoc]; rfl
      rw [findValid_invalid h rfl, visitItems]
      have hrest := ih s h' (n := n) (by omega)
      rw [List.append_assoc] at hrest
      exact hrest
    | true =>
      obtain ⟨m, rfl⟩ : ∃ m, n = m + 1 := ⟨n - 1, by omega⟩
      rw [findValid_valid h rfl, forEachFrom, getElem?_at h, visitItems]
      dsimp only
      cases hb : (body s v).2 with
      | some v' =>
        have hitems := items_setItem h ⟨true, v'⟩
        have h' : (c.setItem pre.length ⟨true, v'⟩).items = (pre ++ [⟨true, v'⟩]) ++ l := by
          rw [hitems, List.append_assoc]
          rfl
        have hrest := ih (body s v).1 h' (n := m) (by omega)
        rw [List.append_assoc, List.length_append] at hrest
        exact hrest
      | none =>
        have hitems := items_remove h
        have h' : (c.remove pre.length).items = (pre ++ [⟨false, v⟩]) ++ l := by
          rw [hitems, List.append_assoc]
          rfl
        have hrest := ih (body s v).1 h' (n := m) (by omega)
        rw [List.append_assoc, List.length_append] at hrest
        exact hrest

theorem forEach_eq (body : σ → α → σ × Option α) (s : σ) :
    (c.forEach body s).1.items = (visitItems body s c.items).1 ∧
      (c.forEach body s).2 = (visitItems body s c.items).2 := by
  have hsplit : c.items = [] ++ c.items := rfl
  refine forEachFrom_eq body s hsplit ?_
  rw [c.length_eq]
  exact Nat.lt_succ_self _

/-- If the body decides by the element alone whether it stays, the entries that stay are known. -/
theorem validData_visitItems {body : σ → α → σ × Option α} {f : α → Option α}
    (hf : ∀ s v, (body s v).2 = f v) (s : σ) (l : List (Item α)) :
    validData (visitItems body s l).1 = (validData l).filterMap f ∧
      (visitItems body s l).2 = (validData l).foldl (fun s v => (body s v).1) s := by
  induction l generalizing s with
  | nil => exact ⟨rfl, rfl⟩
  | cons x l ih =>
    obtain ⟨valid, v⟩ := x
    cases valid with
    | false => exact ih s
    | true =>
      obtain ⟨hdata, hstate⟩ := ih (body s v).1
      have hcons : validData (⟨true, v⟩ :: l) = v :: validData l := rfl
      rw [hcons, List.filterMap_cons, List.foldl_cons, ← hf s v, ← hdata, ← hstate, visitItems]
      cases (body s v).2 with
      | some v' => exact ⟨rfl, rfl⟩
      | none => exact ⟨rfl, rfl⟩

theorem entries_forEach {body : σ → α → σ × Option α} {f : α → Option α}
    (hf : ∀ s v, (body s v).2 = f v) (s : σ) :
    (c.forEach body s).1.entries = c.entries.filterMap f ∧
      (c.forEach body s).2 = c.entries.foldl (fun s v => (body s v).1) s := by
  unfold entries
  rw [(forEach_eq body s).1, (forEach_eq body s).2]
  exact validData_visitItems hf s c.items

theorem exists_split_of_getElem? (h : c.items[i]? = some x) :
    ∃ pre l, c.items = pre ++ x :: l ∧ pre.length = i := by
  obtain ⟨hi, rfl⟩ := List.getElem?_eq_some_iff.mp h
  refine ⟨c.items.take i, c.items.drop (i + 1), ?_, by rw [List.length_take]; omega⟩
  rw [← List.drop_eq_getElem_cons hi, List.take_append_drop]

theorem Counted.setItem (hc : c.Counted) (h : c.items[i]? = some x) (v : α) :
    (c.setItem i { x with data := v }).Counted := by
  obtain ⟨pre, l, hitems, rfl⟩ := exists_split_of_getElem? h
  unfold Counted at hc ⊢
  rw [items_setItem hitems]
  show c.count = _
  rw [hc, hitems]
  simp [List.countP_cons]

theorem Counted.remove (hc : c.Counted) (i : ℕ) : (c.remove i).Counted := by
  cases h : c.items[i]? with
  | none =>
    unfold UnorderedCollection.remove
    rw [h]
    exact hc
  | some x =>
    obtain ⟨pre, l, hitems, rfl⟩ := exists_split_of_getElem? h
    unfold Counted at hc ⊢
    rw [items_remove hitems]
    unfold UnorderedCollection.remove
    rw [h]
    rw [hitems] at hc
    obtain ⟨valid, v⟩ := x
    cases valid with
    | false => simpa using hc
    | true =>
      show c.count - 1 = _
      simp only [List.countP_append, List.countP_cons, if_true] at hc
      simp [hc]

theorem Counted.forEach (hc : c.Counted) (body : σ → α → σ × Option α) (s : σ) :
    (c.forEach body s).1.Counted := by
  have hfrom : ∀ n i (c : UnorderedCollection α maxSize) s, c.Counted →
      (forEachFrom body n i c s).1.Counted := by
    intro n
    induction n with
    | zero => exact fun i c s hc => hc
    | succ n ih =>
      intro i c s hc
      rw [forEachFrom]
      cases hi : c.items[i]? with
      | none => exact hc
      | some x =>
        dsimp only
        cases hb : (body s x.data).2 with
        | some v => exact ih _ _ _ (hc.setItem hi v)
        | none => exact ih _ _ _ (hc.remove i)
  exact hfrom _ _ _ _ hc

/-- There is room as long as there are fewer entries than slots. An entry more takes a free
slot. -/
theorem Counted.add (hc : c.Counted) (hlt : c.count < maxSize) (v : α) :
    ∃ c', c.add v = some c' ∧ c'.Counted ∧ c'.entries.Perm (v :: c.entries) := by
  unfold UnorderedCollection.add findNextFree
  cases hfree : c.items.findIdx? fun item => ! item.valid with
  | none =>
    rw [List.findIdx?_eq_none_iff] at hfree
    have hall : c.items.countP Item.valid = c.items.length := by
      rw [List.countP_eq_length]
      intro item hitem
      simpa using hfree item hitem
    unfold Counted at hc
    rw [hc, hall, c.length_eq] at hlt
    exact absurd hlt (lt_irrefl _)
  | some i =>
    obtain ⟨pre, y, post, hitems, rfl, hy, -⟩ := exists_split_of_findIdx? hfree
    have hset := items_setItem hitems ⟨true, v⟩
    have hyv : y.valid = false := by simpa using hy
    refine ⟨_, rfl, ?_, ?_⟩
    · unfold Counted at hc ⊢
      show c.count + 1 = (c.setItem pre.length ⟨true, v⟩).items.countP Item.valid
      rw [hset, hc, hitems]
      simp [hyv, Nat.add_assoc]
    · show (validData (c.setItem pre.length ⟨true, v⟩).items).Perm _
      unfold entries validData
      rw [hset, hitems, List.filter_append, List.filter_append, List.filter_cons_of_pos rfl,
        List.filter_cons_of_neg (by simp [hyv]), List.map_append, List.map_append]
      exact List.perm_middle

end Specs

end UnorderedCollection

end Prd.Runtime
