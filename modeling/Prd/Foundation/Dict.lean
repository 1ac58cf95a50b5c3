import Mathlib.Data.List.AList

/-!
# Dictionaries with a default

A finite dictionary is an `AList`. A read gives a caller's default where the key
is missing, as a dictionary with a default factory does, and `touch` is the entry
such a read leaves behind.
-/
namespace Prd.Foundation

abbrev Dict (κ α : Type*) := AList (fun _ : κ => α)

namespace Dict

variable {κ α : Type*} [DecidableEq κ]

def getD (d : Dict κ α) (k : κ) (v : α) : α := (d.lookup k).getD v

@[simp] theorem getD_empty (k : κ) (v : α) : getD (∅ : Dict κ α) k v = v := by
  simp [getD]

@[simp] theorem getD_insert (d : Dict κ α) (k : κ) (x : α) (k' : κ) (v : α) :
    getD (d.insert k x) k' v = if k' = k then x else getD d k' v := by
  unfold getD
  split_ifs with h
  · subst h; simp
  · rw [AList.lookup_insert_ne h]

@[simp] theorem getD_erase (d : Dict κ α) (k k' : κ) (v : α) :
    getD (d.erase k) k' v = if k' = k then v else getD d k' v := by
  unfold getD
  split_ifs with h
  · subst h; simp
  · rw [AList.lookup_erase_ne h]

theorem getD_of_notMem {d : Dict κ α} {k : κ} (h : k ∉ d) (v : α) : getD d k v = v := by
  simp [getD, AList.lookup_eq_none.mpr h]

theorem lookup_eq_some_getD {d : Dict κ α} {k : κ} (h : k ∈ d) (v : α) :
    d.lookup k = some (getD d k v) := by
  obtain ⟨x, hx⟩ := Option.isSome_iff_exists.mp (AList.lookup_isSome.mpr h)
  simp [getD, hx]

/-- The entry a defaulting read leaves behind. -/
def touch (d : Dict κ α) (k : κ) (v : α) : Dict κ α := if k ∈ d then d else d.insert k v

@[simp] theorem getD_touch (d : Dict κ α) (k k' : κ) (v : α) :
    getD (touch d k v) k' v = getD d k' v := by
  unfold touch
  split_ifs with h
  · rfl
  · rw [getD_insert]
    split_ifs with hk
    · subst hk; exact (getD_of_notMem h v).symm
    · rfl

@[simp] theorem mem_touch (d : Dict κ α) (k k' : κ) (v : α) :
    k' ∈ touch d k v ↔ k' = k ∨ k' ∈ d := by
  unfold touch
  split_ifs with h
  · exact ⟨Or.inr, fun hk => hk.elim (fun he => he ▸ h) id⟩
  · exact AList.mem_insert d

/-- The in-place update of every entry. -/
def mapVal (d : Dict κ α) (f : α → α) : Dict κ α :=
  ⟨d.entries.map (Sigma.map id fun _ => f), by
    rw [List.NodupKeys, List.map₂_keys]
    exact d.nodupKeys⟩

omit [DecidableEq κ] in
@[simp] theorem mem_mapVal (d : Dict κ α) (f : α → α) (k : κ) : k ∈ d.mapVal f ↔ k ∈ d := by
  unfold mapVal
  rw [AList.mem_keys, AList.mem_keys, AList.keys, AList.keys, List.map₂_keys]

theorem getD_mapVal {d : Dict κ α} {k : κ} (h : k ∈ d) (f : α → α) (v : α) :
    getD (d.mapVal f) k v = f (getD d k v) := by
  obtain ⟨x, hx⟩ := Option.isSome_iff_exists.mp (AList.lookup_isSome.mpr h)
  have hm : (d.mapVal f).lookup k = some (f x) := by
    have hmap := List.dlookup_map₂ (l := d.entries) (f := fun _ => f) k
    exact hmap.trans (by rw [show d.entries.dlookup k = some x from hx]; rfl)
  simp [getD, hx, hm]

/-- The dictionary that a loop over keys fills. -/
def fill (l : List κ) (f : κ → α) (d : Dict κ α) : Dict κ α :=
  l.foldl (fun d k => d.insert k (f k)) d

theorem getD_fill (l : List κ) (f : κ → α) (d : Dict κ α) (k : κ) (v : α) :
    (fill l f d).getD k v = if k ∈ l then f k else d.getD k v := by
  unfold fill
  induction l generalizing d with
  | nil => simp
  | cons x l ih =>
    rw [List.foldl_cons, ih, getD_insert]
    by_cases hk : k ∈ l
    · simp [hk]
    · by_cases hx : k = x
      · simp [hx]
      · simp [hk, hx]

theorem mem_fill (l : List κ) (f : κ → α) (d : Dict κ α) (k : κ) :
    k ∈ fill l f d ↔ k ∈ l ∨ k ∈ d := by
  unfold fill
  induction l generalizing d with
  | nil => simp
  | cons x l ih => rw [List.foldl_cons, ih, AList.mem_insert, List.mem_cons, or_left_comm, or_assoc]

/-- Each new key gets one entry. -/
theorem entries_fill {l : List κ} (hnd : l.Nodup) (f : κ → α) {d : Dict κ α} (hd : ∀ k ∈ l, k ∉ d) :
    (fill l f d).entries = (l.map fun k => Sigma.mk k (f k)).reverse ++ d.entries := by
  unfold fill
  induction l generalizing d with
  | nil => rfl
  | cons x l ih =>
    rw [List.nodup_cons] at hnd
    rw [List.foldl_cons, ih hnd.2, AList.entries_insert_of_notMem (hd x List.mem_cons_self)]
    · simp
    · intro k hk hmem
      rcases (AList.mem_insert d).mp hmem with rfl | hmem
      · exact hnd.1 hk
      · exact hd k (List.mem_cons_of_mem x hk) hmem

end Dict

end Prd.Foundation
