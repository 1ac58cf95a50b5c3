import Mathlib.Data.List.Induction
import Prd.Foundation.Dict

/-!
# Dictionaries that remember insertion order

The keys are listed in the order in which they first came. A table has two levels and
sets at its ends, and groups what it was given by two keys.
-/
namespace Prd.Foundation

section Occurrences

variable {κ : Type*} [DecidableEq κ]

def appendNew (l : List κ) (k : κ) : List κ := if k ∈ l then l else l ++ [k]

@[simp] theorem mem_appendNew {l : List κ} {k k' : κ} : k' ∈ appendNew l k ↔ k' ∈ l ∨ k' = k := by
  unfold appendNew
  split_ifs with h
  · exact ⟨Or.inl, fun hk => hk.elim id fun he => he ▸ h⟩
  · simp

theorem nodup_appendNew {l : List κ} (h : l.Nodup) (k : κ) : (appendNew l k).Nodup := by
  unfold appendNew
  split_ifs with hk
  · exact h
  · rw [← List.concat_eq_append]
    exact h.concat hk

/-- The elements of a list without the later repetitions. -/
def firstOccurrences (l : List κ) : List κ := l.foldl appendNew []

theorem firstOccurrences_append_singleton (l : List κ) (k : κ) :
    firstOccurrences (l ++ [k]) = appendNew (firstOccurrences l) k := by
  unfold firstOccurrences
  rw [List.foldl_append]
  rfl

@[simp] theorem mem_firstOccurrences {l : List κ} {k : κ} : k ∈ firstOccurrences l ↔ k ∈ l := by
  induction l using List.reverseRecOn with
  | nil => rfl
  | append_singleton l x ih =>
    rw [firstOccurrences_append_singleton, mem_appendNew, ih, List.mem_append, List.mem_singleton]

theorem head?_firstOccurrences (l : List κ) : (firstOccurrences l).head? = l.head? := by
  induction l using List.reverseRecOn with
  | nil => rfl
  | append_singleton l x ih =>
    rw [firstOccurrences_append_singleton]
    unfold appendNew
    split_ifs with h
    · have hne : l ≠ [] := List.ne_nil_of_mem (mem_firstOccurrences.mp h)
      rw [ih, List.head?_append_of_ne_nil l hne]
    · rw [List.head?_append, List.head?_append, ih]

end Occurrences

structure OrderedDict (κ α : Type*) where
  keys : List κ
  values : Dict κ α
  mem_values : ∀ k, k ∈ values ↔ k ∈ keys
  nodup : keys.Nodup

namespace OrderedDict

variable {κ α : Type*} [DecidableEq κ]

def empty : OrderedDict κ α := ⟨[], ∅, fun _ => Iff.rfl, List.nodup_nil⟩

def getD (d : OrderedDict κ α) (k : κ) (v : α) : α := d.values.getD k v

/-- A new key comes last, and another one keeps its place. -/
def insert (d : OrderedDict κ α) (k : κ) (x : α) : OrderedDict κ α where
  keys := appendNew d.keys k
  values := d.values.insert k x
  mem_values := by
    intro k'
    rw [AList.mem_insert, d.mem_values, mem_appendNew, or_comm]
  nodup := nodup_appendNew d.nodup k

@[simp] theorem getD_empty (k : κ) (v : α) : (empty : OrderedDict κ α).getD k v = v :=
  Dict.getD_empty k v

@[simp] theorem getD_insert (d : OrderedDict κ α) (k : κ) (x : α) (k' : κ) (v : α) :
    (d.insert k x).getD k' v = if k' = k then x else d.getD k' v :=
  Dict.getD_insert d.values k x k' v

omit [DecidableEq κ] in
@[simp] theorem keys_empty : (empty : OrderedDict κ α).keys = [] := rfl

@[simp] theorem keys_insert (d : OrderedDict κ α) (k : κ) (x : α) :
    (d.insert k x).keys = appendNew d.keys k := rfl

def lookup (d : OrderedDict κ α) (k : κ) : Option α := d.values.lookup k

/-- The entry a defaulting read leaves behind. -/
def touch (d : OrderedDict κ α) (k : κ) (v : α) : OrderedDict κ α :=
  if k ∈ d.keys then d else d.insert k v

theorem getD_of_notMem {d : OrderedDict κ α} {k : κ} (h : k ∉ d.keys) (v : α) : d.getD k v = v :=
  Dict.getD_of_notMem (mt (d.mem_values k).mp h) v

theorem lookup_of_mem {d : OrderedDict κ α} {k : κ} (h : k ∈ d.keys) (v : α) :
    d.lookup k = some (d.getD k v) :=
  Dict.lookup_eq_some_getD ((d.mem_values k).mpr h) v

theorem lookup_of_notMem {d : OrderedDict κ α} {k : κ} (h : k ∉ d.keys) : d.lookup k = none :=
  AList.lookup_eq_none.mpr (mt (d.mem_values k).mp h)

@[simp] theorem getD_touch (d : OrderedDict κ α) (k k' : κ) (v : α) :
    (d.touch k v).getD k' v = d.getD k' v := by
  unfold touch
  split_ifs with h
  · rfl
  · rw [getD_insert]
    split_ifs with hk
    · subst hk; exact (getD_of_notMem h v).symm
    · rfl

@[simp] theorem mem_keys_insert (d : OrderedDict κ α) (k k' : κ) (x : α) :
    k' ∈ (d.insert k x).keys ↔ k' ∈ d.keys ∨ k' = k :=
  mem_appendNew

@[simp] theorem mem_keys_touch (d : OrderedDict κ α) (k k' : κ) (v : α) :
    k' ∈ (d.touch k v).keys ↔ k' ∈ d.keys ∨ k' = k := by
  unfold touch
  split_ifs with h
  · exact ⟨Or.inl, fun hk => hk.elim id fun he => he ▸ h⟩
  · exact mem_keys_insert d k k' v

/-- Updates the set at a key. -/
def update (d : OrderedDict κ (List α)) (k : κ) (add : List α → List α) : OrderedDict κ (List α) :=
  d.insert k (add (d.getD k []))

/-- The sets of the dictionary are the groups of the values by a key. -/
structure Groups {ρ : Type*} (l : List ρ) (key : ρ → κ) (value : ρ → α)
    (d : OrderedDict κ (List α)) : Prop where
  keys : d.keys = firstOccurrences (l.map key)
  mem : ∀ k y, y ∈ d.getD k [] ↔ ∃ x ∈ l, key x = k ∧ value x = y

theorem groups_empty {ρ : Type*} (key : ρ → κ) (value : ρ → α) :
    Groups [] key value (empty : OrderedDict κ (List α)) where
  keys := rfl
  mem := fun k y => by simp

theorem Groups.update {ρ : Type*} {l : List ρ} {key : ρ → κ} {value : ρ → α}
    {d : OrderedDict κ (List α)} (h : Groups l key value d) (x : ρ) {add : List α → List α}
    (hadd : ∀ y, y ∈ add (d.getD (key x) []) ↔ y ∈ d.getD (key x) [] ∨ y = value x) :
    Groups (l ++ [x]) key value (d.update (key x) add) where
  keys := by
    rw [List.map_append, List.map_singleton, firstOccurrences_append_singleton, ← h.keys]
    rfl
  mem := by
    intro k y
    unfold OrderedDict.update
    rw [getD_insert]
    split_ifs with hk
    · subst hk
      rw [hadd, h.mem]
      simp [or_and_right, exists_or, eq_comm]
    · have hne : ¬ key x = k := fun he => hk he.symm
      rw [h.mem]
      simp [or_and_right, exists_or, hne]

end OrderedDict

/-- A dictionary of dictionaries of sets. -/
abbrev Table (κ α : Type*) := OrderedDict κ (OrderedDict κ (List α))

namespace Table

variable {κ α β ρ : Type*} [DecidableEq κ]

def at₂ (d : Table κ α) (k k' : κ) : List α := (d.getD k .empty).getD k' []

/-- Updates the set at two keys. -/
def update₂ (d : Table κ α) (k k' : κ) (add : List α → List α) : Table κ α :=
  d.insert k ((d.getD k .empty).update k' add)

theorem at₂_update₂ (d : Table κ α) (k k' : κ) (add : List α → List α) (i i' : κ) :
    (d.update₂ k k' add).at₂ i i' = if i = k ∧ i' = k' then add (d.at₂ k k') else d.at₂ i i' := by
  unfold at₂ update₂ OrderedDict.update
  rw [OrderedDict.getD_insert]
  by_cases hi : i = k
  · subst hi
    rw [if_pos rfl, OrderedDict.getD_insert]
    simp
  · rw [if_neg hi, if_neg fun h => hi h.1]

theorem keys_getD_update₂ (d : Table κ α) (k k' : κ) (add : List α → List α) (i : κ) :
    ((d.update₂ k k' add).getD i .empty).keys =
      if i = k then appendNew (d.getD i .empty).keys k' else (d.getD i .empty).keys := by
  unfold update₂
  rw [OrderedDict.getD_insert]
  split_ifs with hi
  · subst hi
    rfl
  · rfl

/-- The sets of the table, seen through `view`, are the groups of the values by the two keys, and
the keys are in the order in which they came. -/
structure Groups (l : List ρ) (key : ρ → κ × κ) (value : ρ → β) (view : List α → List β)
    (d : Table κ α) : Prop where
  keys : d.keys = firstOccurrences (l.map fun x => (key x).1)
  keys₂ : ∀ k, (d.getD k .empty).keys =
    firstOccurrences ((l.filter fun x => (key x).1 = k).map fun x => (key x).2)
  mem : ∀ k k' y, y ∈ view (d.at₂ k k') ↔ ∃ x ∈ l, key x = (k, k') ∧ value x = y

theorem groups_empty (key : ρ → κ × κ) (value : ρ → β) {view : List α → List β}
    (hview : view [] = []) : Groups [] key value view (.empty : Table κ α) where
  keys := rfl
  keys₂ := fun k => by
    rw [OrderedDict.getD_empty]
    rfl
  mem := fun k k' y => by simp [at₂, hview]

theorem Groups.mem_of_mem_at₂ {l : List ρ} {key : ρ → κ × κ} {d : Table κ ρ}
    (h : Groups l key id id d) (k k' : κ) : ∀ x ∈ d.at₂ k k', x ∈ l := by
  intro x hx
  obtain ⟨y, hy, -, rfl⟩ := (h.mem k k' x).mp hx
  exact hy

theorem Groups.update₂ {l : List ρ} {key : ρ → κ × κ} {value : ρ → β} {view : List α → List β}
    {d : Table κ α} (h : Groups l key value view d) (x : ρ) {add : List α → List α}
    (hadd : ∀ y, y ∈ view (add (d.at₂ (key x).1 (key x).2)) ↔
      y ∈ view (d.at₂ (key x).1 (key x).2) ∨ y = value x) :
    Groups (l ++ [x]) key value view (d.update₂ (key x).1 (key x).2 add) where
  keys := by
    rw [List.map_append, List.map_singleton, firstOccurrences_append_singleton, ← h.keys]
    rfl
  keys₂ := by
    intro k
    rw [keys_getD_update₂, h.keys₂, List.filter_append]
    split_ifs with hk
    · subst hk
      simp [firstOccurrences_append_singleton]
    · have hk' : ¬ (key x).1 = k := fun he => hk he.symm
      simp [hk']
  mem := by
    intro k k' y
    rw [at₂_update₂]
    split_ifs with hk
    · obtain ⟨rfl, rfl⟩ := hk
      rw [hadd, h.mem]
      simp [or_and_right, exists_or, eq_comm]
    · have hne : ¬ key x = (k, k') := fun he => hk (by rw [he]; exact ⟨rfl, rfl⟩)
      rw [h.mem]
      simp [or_and_right, exists_or, hne]

end Table

end Prd.Foundation
