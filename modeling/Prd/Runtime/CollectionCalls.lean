import Mathlib.Data.List.Induction
import Prd.Runtime.UnorderedCollection

/-!
# Calls on collections of slots

Slots are taken and freed in any order, also by the body of a loop. The iterator searches
for the next valid slot in the collection that the body leaves behind, so a loop is one
pass over the slots in which each is judged when its turn comes.
-/
namespace Prd.Runtime.UnorderedCollection

variable {α σ : Type} {maxSize : ℕ}

section Operations

variable (c : UnorderedCollection α maxSize)

def isValid (i : ℕ) : Bool := c.items[i]?.map Item.valid = some true

/-- `add` without a value gives the free slot, which keeps the data that it holds. -/
def addSlot : Option (ℕ × UnorderedCollection α maxSize) := do
  let i ← c.findNextFree
  let item ← c.items[i]?
  some (i, { c.setItem i { item with valid := true } with count := c.count + 1 })

def find [BEq α] (v : α) : Option ℕ := c.items.findIdx? fun item => item.valid && item.data == v

def removeValue [BEq α] (v : α) : Bool × UnorderedCollection α maxSize :=
  match c.find v with
  | none => (false, c)
  | some i => (true, c.remove i)

/-- A caller writes through the pointer that `add` gave it. -/
def assign (i : ℕ) (v : α) : UnorderedCollection α maxSize :=
  match c.items[i]? with
  | some item => c.setItem i { item with data := v }
  | none => c

/-- The index of `end()`, which searches as every iterator does. -/
def pastEnd : ℕ := c.findValid maxSize

/-- The rest of a loop at index `i`, with no result if it takes more than `n` tests. The body
may change the collection in any way. -/
def iterateFrom
    (body : ℕ → UnorderedCollection α maxSize → σ → UnorderedCollection α maxSize × σ) :
    ℕ → ℕ → UnorderedCollection α maxSize → σ → Option (UnorderedCollection α maxSize × σ)
  | 0, _, _, _ => none
  | n + 1, i, c, s =>
    if i = c.pastEnd then some (c, s)
    else
      let r := body i c s
      iterateFrom body n (r.1.next i) r.1 r.2

def iterate (body : ℕ → UnorderedCollection α maxSize → σ → UnorderedCollection α maxSize × σ)
    (s : σ) : Option (UnorderedCollection α maxSize × σ) :=
  iterateFrom body (maxSize + 1) c.begin c s

end Operations

inductive Call (α : Type) (maxSize : ℕ) where
  | addSlot
  | add (v : α)
  | assign (i : Fin maxSize) (v : α)
  | removeAt (i : Fin maxSize)
  | removeValue (v : α)

/-- A call on a collection. One that finds no slot leaves it as it is. -/
def Call.step [BEq α] (c : UnorderedCollection α maxSize) :
    Call α maxSize → UnorderedCollection α maxSize
  | addSlot => (c.addSlot.map Prod.snd).getD c
  | add v => (c.add v).getD c
  | assign i v => c.assign i v
  | removeAt i => c.remove i
  | removeValue v => (c.removeValue v).2

/-- The collection after calls on zeroed memory. -/
def run [BEq α] [Inhabited α] (calls : List (Call α maxSize)) : UnorderedCollection α maxSize :=
  calls.foldl Call.step new

/-- One free slot was taken, and no other slot changed. -/
structure Occupies (c c' : UnorderedCollection α maxSize) (i : ℕ) : Prop where
  lt : i < maxSize
  free : c.isValid i = false
  taken : c'.isValid i = true
  others : ∀ j, j ≠ i → c'.items[j]? = c.items[j]?

/-- What a pass over the slots does at one of them. -/
def takeTurn (body : ℕ → UnorderedCollection α maxSize → σ → UnorderedCollection α maxSize × σ)
    (r : UnorderedCollection α maxSize × σ) (i : ℕ) : UnorderedCollection α maxSize × σ :=
  if r.1.isValid i then body i r.1 r.2 else r

/-- The state of a pass when the turn of slot `i` comes. -/
def turn (body : ℕ → UnorderedCollection α maxSize → σ → UnorderedCollection α maxSize × σ)
    (c : UnorderedCollection α maxSize) (s : σ) (i : ℕ) : UnorderedCollection α maxSize × σ :=
  (List.range i).foldl (takeTurn body) (c, s)

/-- The same body, with a log of the slots that the loop comes to. -/
def logged (body : ℕ → UnorderedCollection α maxSize → σ → UnorderedCollection α maxSize × σ)
    (i : ℕ) (c : UnorderedCollection α maxSize) (s : σ × List ℕ) :
    UnorderedCollection α maxSize × σ × List ℕ :=
  let r := body i c s.1
  (r.1, r.2, s.2 ++ [i])

section Loops

variable (body : ℕ → UnorderedCollection α maxSize → σ → UnorderedCollection α maxSize × σ)

theorem findValid_maxSize (c : UnorderedCollection α maxSize) : c.findValid maxSize = maxSize := by
  unfold findValid
  rw [Nat.sub_self]
  rfl

theorem findValid_of_lt (c : UnorderedCollection α maxSize) {i : ℕ} (hi : i < maxSize) :
    c.findValid i = if c.isValid i then i else c.findValid (i + 1) := by
  have hn : maxSize - i = (maxSize - (i + 1)) + 1 := by omega
  unfold findValid isValid
  rw [hn, findValidFrom]
  simp only [decide_eq_true_eq]

/-- The loop from the first valid slot at or after `i` on goes over the slots from `i` on. -/
theorem iterateFrom_eq {n i k : ℕ} (c : UnorderedCollection α maxSize) (s : σ)
    (hik : i + k = maxSize) (hn : k < n) :
    iterateFrom body n (c.findValid i) c s =
      some ((List.range' i k).foldl (takeTurn body) (c, s)) := by
  induction k generalizing n i c s with
  | zero =>
    obtain ⟨m, rfl⟩ : ∃ m, n = m + 1 := ⟨n - 1, by omega⟩
    obtain rfl : i = maxSize := by omega
    have hend : c.findValid i = c.pastEnd := rfl
    rw [iterateFrom, if_pos hend]
    rfl
  | succ k ih =>
    have hi : i < maxSize := by omega
    rw [findValid_of_lt c hi, List.range'_succ, List.foldl_cons, takeTurn]
    by_cases hv : c.isValid i = true
    · obtain ⟨m, rfl⟩ : ∃ m, n = m + 1 := ⟨n - 1, by omega⟩
      have hne : i ≠ c.pastEnd := by
        unfold pastEnd
        rw [findValid_maxSize]
        omega
      rw [if_pos hv, if_pos hv, iterateFrom, if_neg hne]
      exact ih (body i c s).1 (body i c s).2 (by omega) (by omega)
    · rw [if_neg hv, if_neg hv]
      exact ih c s (by omega) (by omega)

/-- A loop ends and is one pass over the slots. -/
theorem iterate_eq (c : UnorderedCollection α maxSize) (s : σ) :
    c.iterate body s = some (turn body c s maxSize) := by
  unfold iterate begin turn
  rw [iterateFrom_eq body c s (Nat.zero_add maxSize) (Nat.lt_succ_self maxSize),
    List.range_eq_range']

theorem turn_succ (c : UnorderedCollection α maxSize) (s : σ) (i : ℕ) :
    turn body c s (i + 1) = takeTurn body (turn body c s i) i := by
  unfold turn
  rw [List.range_succ, List.foldl_append, List.foldl_cons, List.foldl_nil]

/-- The log holds the slots that were valid at their turn. -/
theorem turn_logged (c : UnorderedCollection α maxSize) (s : σ) (i : ℕ) :
    turn (logged body) c (s, []) i =
      ((turn body c s i).1, (turn body c s i).2,
        (List.range i).filter fun j => (turn body c s j).1.isValid j) := by
  induction i with
  | zero => rfl
  | succ i ih =>
    rw [turn_succ, turn_succ, ih, List.range_succ, List.filter_append, List.filter_singleton]
    unfold takeTurn
    by_cases hv : (turn body c s i).1.isValid i = true
    · simp only [hv, if_true]
      rfl
    · simp [hv]

/-- A loop comes to each slot that is valid at its turn, once and in the order of the slots. -/
theorem iterate_logged (c : UnorderedCollection α maxSize) (s : σ) :
    c.iterate (logged body) (s, []) =
      some ((turn body c s maxSize).1, (turn body c s maxSize).2,
        (List.range maxSize).filter fun i => (turn body c s i).1.isValid i) := by
  rw [iterate_eq, turn_logged]

end Loops

section Specs

variable {c : UnorderedCollection α maxSize} {i : ℕ} {x y : Item α}

theorem getElem?_setItem (hx : c.items[i]? = some x) (y : Item α) (j : ℕ) :
    (c.setItem i y).items[j]? = if j = i then some y else c.items[j]? := by
  obtain ⟨hi, -⟩ := List.getElem?_eq_some_iff.mp hx
  show (c.items.set i y)[j]? = _
  rw [List.getElem?_set]
  by_cases hij : i = j
  · rw [if_pos hij, if_pos hi, if_pos hij.symm]
  · rw [if_neg hij, if_neg (Ne.symm hij)]

theorem exists_of_findNextFree (h : c.findNextFree = some i) :
    ∃ x, c.items[i]? = some x ∧ x.valid = false := by
  obtain ⟨pre, x, post, hitems, rfl, hx, -⟩ := exists_split_of_findIdx? h
  exact ⟨x, getElem?_at hitems, by simpa using hx⟩

/-- There is no free slot if and only if as many are counted as there are. -/
theorem Counted.findNextFree_eq_none (hc : c.Counted) :
    c.findNextFree = none ↔ c.count = maxSize := by
  have hle := List.countP_eq_length (p := Item.valid) (l := c.items)
  unfold Counted at hc
  rw [← hc, c.length_eq] at hle
  unfold findNextFree
  rw [hle, List.findIdx?_eq_none_iff]
  simp

theorem occupies_setItem (hx : c.items[i]? = some x) (hfree : x.valid = false)
    (hy : y.valid = true) (n : ℕ) : c.Occupies { c.setItem i y with count := n } i where
  lt := by
    obtain ⟨hi, -⟩ := List.getElem?_eq_some_iff.mp hx
    rwa [c.length_eq] at hi
  free := by
    unfold isValid
    rw [hx, Option.map_some, hfree]
    rfl
  taken := by
    have hi : (c.setItem i y).items[i]? = some y := by rw [getElem?_setItem hx, if_pos rfl]
    unfold isValid
    rw [hi, Option.map_some, hy]
    rfl
  others := by
    intro j hj
    exact (getElem?_setItem hx y j).trans (if_neg hj)

theorem Counted.take (hc : c.Counted) (hx : c.items[i]? = some x) (hfree : x.valid = false)
    (hy : y.valid = true) :
    ({ c.setItem i y with count := c.count + 1 } : UnorderedCollection α maxSize).Counted := by
  obtain ⟨pre, l, hitems, rfl⟩ := exists_split_of_getElem? hx
  unfold Counted at hc ⊢
  show c.count + 1 = (c.setItem pre.length y).items.countP Item.valid
  rw [items_setItem hitems, hc, hitems]
  simp [hfree, hy, Nat.add_assoc]

theorem addSlot_eq_none : c.addSlot = none ↔ c.findNextFree = none := by
  unfold addSlot
  cases h : c.findNextFree with
  | none => simp
  | some i =>
    obtain ⟨x, hx, -⟩ := exists_of_findNextFree h
    simp [hx]

theorem addSlot_eq_some {c' : UnorderedCollection α maxSize} (h : c.addSlot = some (i, c')) :
    ∃ x, c.items[i]? = some x ∧ x.valid = false ∧
      c' = { c.setItem i { x with valid := true } with count := c.count + 1 } := by
  unfold addSlot at h
  cases hf : c.findNextFree with
  | none => simp [hf] at h
  | some j =>
    obtain ⟨x, hx, hfree⟩ := exists_of_findNextFree hf
    simp only [hf, hx, Option.bind_eq_bind, Option.bind_some, Option.some.injEq,
      Prod.mk.injEq] at h
    obtain ⟨rfl, rfl⟩ := h
    exact ⟨x, hx, hfree, rfl⟩

theorem add_eq_none {v : α} : c.add v = none ↔ c.findNextFree = none := by
  unfold UnorderedCollection.add
  cases c.findNextFree with
  | none => simp
  | some i => simp

theorem add_eq_some {v : α} {c' : UnorderedCollection α maxSize} (h : c.add v = some c') :
    ∃ i x, c.items[i]? = some x ∧ x.valid = false ∧
      c' = { c.setItem i ⟨true, v⟩ with count := c.count + 1 } := by
  unfold UnorderedCollection.add at h
  cases hf : c.findNextFree with
  | none => simp [hf] at h
  | some i =>
    obtain ⟨x, hx, hfree⟩ := exists_of_findNextFree hf
    simp only [hf, Option.bind_eq_bind, Option.bind_some, Option.some.injEq] at h
    exact ⟨i, x, hx, hfree, h.symm⟩

theorem Counted.step [BEq α] (hc : c.Counted) (call : Call α maxSize) : (call.step c).Counted := by
  cases call with
  | addSlot =>
    show ((c.addSlot.map Prod.snd).getD c).Counted
    cases h : c.addSlot with
    | none => exact hc
    | some r =>
      obtain ⟨x, hx, hfree, hr⟩ := addSlot_eq_some h
      rw [Option.map_some, Option.getD_some, hr]
      exact hc.take hx hfree rfl
  | add v =>
    show ((c.add v).getD c).Counted
    cases h : c.add v with
    | none => exact hc
    | some c' =>
      obtain ⟨i, x, hx, hfree, rfl⟩ := add_eq_some h
      exact hc.take hx hfree rfl
  | assign i v =>
    show (c.assign i v).Counted
    unfold assign
    cases h : c.items[i.val]? with
    | none => exact hc
    | some x => exact hc.setItem h v
  | removeAt i => exact hc.remove i
  | removeValue v =>
    show (c.removeValue v).2.Counted
    unfold removeValue
    cases c.find v with
    | none => exact hc
    | some i => exact hc.remove i

theorem counted_run [BEq α] [Inhabited α] (calls : List (Call α maxSize)) :
    (run calls).Counted := by
  induction calls using List.reverseRecOn with
  | nil => exact counted_new
  | append_singleton calls call ih =>
    unfold run at ih ⊢
    rw [List.foldl_append]
    exact ih.step call

/-- After any calls the collection is a bag of the valid slots: the count is their number, a new
element takes one free slot as long as there is one, and a loop comes to each slot that is
valid at its turn, whatever its body does. -/
theorem boundedBag_run [BEq α] [Inhabited α] (calls : List (Call α maxSize)) :
    (run calls).count = (run calls).items.countP Item.valid ∧
      ((run calls).addSlot = none ↔ (run calls).count = maxSize) ∧
      (∀ i c', (run calls).addSlot = some (i, c') → (run calls).Occupies c' i ∧
        c'.items[i]?.map Item.data = (run calls).items[i]?.map Item.data) ∧
      (∀ v, ((run calls).add v = none ↔ (run calls).count = maxSize) ∧
        ∀ c', (run calls).add v = some c' →
          ∃ i, (run calls).Occupies c' i ∧ c'.items[i]? = some ⟨true, v⟩) ∧
      ∀ (σ : Type) (s : σ)
        (body : ℕ → UnorderedCollection α maxSize → σ → UnorderedCollection α maxSize × σ),
        (run calls).iterate (logged body) (s, []) =
          some ((turn body (run calls) s maxSize).1, (turn body (run calls) s maxSize).2,
            (List.range maxSize).filter fun i => (turn body (run calls) s i).1.isValid i) := by
  have hc := counted_run calls
  refine ⟨hc, ?_, ?_, ?_, ?_⟩
  · rw [addSlot_eq_none, hc.findNextFree_eq_none]
  · intro i c' h
    obtain ⟨x, hx, hfree, rfl⟩ := addSlot_eq_some h
    refine ⟨occupies_setItem hx hfree rfl _, ?_⟩
    show ((run calls).setItem i { x with valid := true }).items[i]?.map Item.data = _
    rw [getElem?_setItem hx, if_pos rfl, hx]
    rfl
  · intro v
    refine ⟨?_, ?_⟩
    · rw [add_eq_none, hc.findNextFree_eq_none]
    · intro c' h
      obtain ⟨i, x, hx, hfree, rfl⟩ := add_eq_some h
      refine ⟨i, occupies_setItem hx hfree rfl _, ?_⟩
      show ((run calls).setItem i ⟨true, v⟩).items[i]? = _
      rw [getElem?_setItem hx, if_pos rfl]
  · intro σ s body
    exact iterate_logged body (run calls) s

end Specs

end Prd.Runtime.UnorderedCollection
