import Prd.Foundation.Dict
import Prd.Pycprd.Basic

/-!
# Vectors of dirty cache lines

For every other thread a vector holds the lines that thread has not been told
about. Lines a thread dirties itself wait in a pending buffer until the vector is
read. `Owes` is the vector with the buffer spread over all of its cells.
-/
namespace Prd.Pycprd

open Prd.Foundation

structure DirtyCachelinesVector where
  tid : ThreadId
  vector : Dict ThreadId (List Cacheline)
  pendingDirtyCachelines : List Cacheline

namespace DirtyCachelinesVector

def new (tid : ThreadId) (tids : List ThreadId) : DirtyCachelinesVector where
  tid := tid
  vector := (tids.filter (· ≠ tid)).foldl (fun d t => d.insert t []) ∅
  pendingDirtyCachelines := []

/-- Every read of the property `vector` does this first. -/
def clearPending (dv : DirtyCachelinesVector) : DirtyCachelinesVector :=
  if dv.pendingDirtyCachelines = [] then dv
  else
    { dv with
      vector := dv.vector.mapVal (· ∪ dv.pendingDirtyCachelines)
      pendingDirtyCachelines := [] }

def getDirtyCachelines (dv : DirtyCachelinesVector) (tid : ThreadId) :
    Py (List Cacheline × DirtyCachelinesVector) := do
  let dv := dv.clearPending
  let lines ← pyGet dv.vector tid
  pure (lines, dv)

def setCachelineDirty (dv : DirtyCachelinesVector) (address size : ℕ) :
    Py DirtyCachelinesVector := do
  let lines ← getCachelineAddresses address size defaultCachelineSize
  pure { dv with pendingDirtyCachelines := dv.pendingDirtyCachelines ∪ lines }

/-- A loop over keys that updates the cell of each. -/
def forCells (f : ThreadId → List Cacheline → Py (List Cacheline)) :
    List ThreadId → Dict ThreadId (List Cacheline) → Py (Dict ThreadId (List Cacheline))
  | [], cells => pure cells
  | tid :: tids, cells => do
    let lines ← f tid (cells.getD tid [])
    forCells f tids (cells.insert tid lines)

/-- The body of the loop of `update_child`. -/
def tellCell (dv child : DirtyCachelinesVector) (tid : ThreadId) (lines : List Cacheline) :
    Py (List Cacheline) := do
  pyAssert (tid != child.tid) "Child is not expected to have a cell for itself"
  if tid = dv.tid then pure lines
  else do
    let own ← pyGet dv.vector tid
    pure (lines ∪ own)

/-- Returns both vectors, as the child is updated and the own cell of the child cleared. -/
def updateChild (dv child : DirtyCachelinesVector) :
    Py (DirtyCachelinesVector × DirtyCachelinesVector) := do
  pyAssert (dv.tid != child.tid) "Expecting to update an inter-child but got an intra-child"
  pyAssert (child.tid ∉ child.vector) "Expected child's tid to not be in the child node's vector"
  pyAssert (dv.tid ∉ dv.vector) "Expected tid to not be in my vector"
  let child := child.clearPending
  -- the own buffer is only dumped when some cell reads the property
  let dv := if ∃ tid ∈ child.vector.keys, tid ≠ dv.tid then dv.clearPending else dv
  let cells ← forCells (dv.tellCell child) child.vector.keys child.vector
  let _ ← pyGet dv.vector child.tid
  let dv := { dv with vector := dv.vector.insert child.tid [] }
  let child := { child with vector := cells }
  pyAssert (dv.pendingDirtyCachelines.isEmpty) "Pending dirty cachelines are not expected"
  pyAssert (child.tid ∉ child.vector) "Expected tid to not be in the child node's vector"
  pyAssert (dv.tid ∉ dv.vector) "Expected tid to not be in my vector"
  pyAssert (dv.tid ∈ child.vector) "Expected child to have my tid in its vector"
  pure (dv, child)

def merge (dv other : DirtyCachelinesVector) : Py DirtyCachelinesVector := do
  pyAssert (dv.tid == other.tid) "Expecting to merge with epochs from the same thread as me"
  pyAssert (other.pendingDirtyCachelines.isEmpty)
    "Epoch node is not expected to have pending dirty cachelines"
  pyAssert (other.tid ∉ other.vector) "Expected tid to not be in the epoch node's vector"
  pyAssert (dv.tid ∉ dv.vector) "Expected tid to not be in my vector"
  let cells ← forCells (fun tid _ => do
    let lines ← pyGet dv.vector tid
    pure (lines ∪ other.vector.getD tid [])) other.vector.keys dv.vector
  pure { dv with vector := cells }

/-- The line waits for the thread, in its cell or in the buffer. -/
def Owes (dv : DirtyCachelinesVector) (tid : ThreadId) (line : Cacheline) : Prop :=
  line ∈ dv.vector.getD tid [] ∨ tid ∈ dv.vector ∧ line ∈ dv.pendingDirtyCachelines

/-- The cells are those of the other threads. -/
structure WellFormed (dv : DirtyCachelinesVector) (tid : ThreadId) (tids : List ThreadId) :
    Prop where
  tid_eq : dv.tid = tid
  mem_iff : ∀ t, t ∈ dv.vector ↔ t ∈ tids ∧ t ≠ tid

variable {dv child other : DirtyCachelinesVector} {tid ctid : ThreadId} {tids : List ThreadId}

theorem mem_new_loop (l : List ThreadId) (d : Dict ThreadId (List Cacheline)) (t : ThreadId) :
    t ∈ l.foldl (fun d t => d.insert t []) d ↔ t ∈ l ∨ t ∈ d := by
  induction l generalizing d with
  | nil => simp
  | cons a l ih => rw [List.foldl_cons, ih, AList.mem_insert, List.mem_cons, or_assoc, or_left_comm]

theorem getD_new_loop (l : List ThreadId) (d : Dict ThreadId (List Cacheline)) (t : ThreadId)
    (h : d.getD t [] = []) : (l.foldl (fun d t => d.insert t []) d).getD t [] = [] := by
  induction l generalizing d with
  | nil => exact h
  | cons a l ih =>
    refine ih _ ?_
    rw [Dict.getD_insert, h, ite_self]

theorem wellFormed_new (tid : ThreadId) (tids : List ThreadId) :
    (new tid tids).WellFormed tid tids where
  tid_eq := rfl
  mem_iff := by
    intro t
    unfold new
    simp [mem_new_loop]

theorem not_owes_new (tid t : ThreadId) (tids : List ThreadId) (line : Cacheline) :
    ¬ (new tid tids).Owes t line := by
  unfold Owes new
  rw [getD_new_loop _ _ _ (Dict.getD_empty t [])]
  simp

theorem WellFormed.not_mem_self (h : dv.WellFormed tid tids) : tid ∉ dv.vector :=
  fun hm => ((h.mem_iff tid).mp hm).2 rfl

theorem WellFormed.owes_imp (h : dv.WellFormed tid tids) {t : ThreadId} {line : Cacheline}
    (ho : dv.Owes t line) : t ∈ tids ∧ t ≠ tid := by
  refine (h.mem_iff t).mp ?_
  rcases ho with ho | ⟨ho, _⟩
  · by_contra hn
    rw [Dict.getD_of_notMem hn] at ho
    cases ho
  · exact ho

theorem WellFormed.clearPending (h : dv.WellFormed tid tids) :
    dv.clearPending.WellFormed tid tids := by
  unfold DirtyCachelinesVector.clearPending
  split_ifs
  · exact h
  · exact ⟨h.tid_eq, fun t => (Dict.mem_mapVal _ _ t).trans (h.mem_iff t)⟩

@[simp] theorem pending_clearPending (dv : DirtyCachelinesVector) :
    dv.clearPending.pendingDirtyCachelines = [] := by
  unfold clearPending
  split_ifs with h
  · exact h
  · rfl

@[simp] theorem tid_clearPending (dv : DirtyCachelinesVector) : dv.clearPending.tid = dv.tid := by
  unfold clearPending
  split_ifs
  · rfl
  · rfl

/-- Dumping the buffer does not change what is owed. -/
@[simp] theorem owes_clearPending (dv : DirtyCachelinesVector) (t : ThreadId) (line : Cacheline) :
    dv.clearPending.Owes t line ↔ dv.Owes t line := by
  unfold clearPending
  split_ifs with h
  · rfl
  · unfold Owes
    by_cases ht : t ∈ dv.vector
    · simp [Dict.getD_mapVal ht, ht]
    · have htm : t ∉ dv.vector.mapVal (· ∪ dv.pendingDirtyCachelines) :=
        fun hm => ht ((Dict.mem_mapVal _ _ t).mp hm)
      simp [Dict.getD_of_notMem ht, Dict.getD_of_notMem htm, ht]

theorem owes_iff_of_pending (h : dv.pendingDirtyCachelines = []) (t : ThreadId) (line : Cacheline) :
    dv.Owes t line ↔ line ∈ dv.vector.getD t [] := by
  unfold Owes
  simp [h]

theorem getDirtyCachelines_spec (h : dv.WellFormed tid tids) {t : ThreadId} (ht : t ∈ tids)
    (hne : t ≠ tid) :
    ∃ lines, dv.getDirtyCachelines t = .ok (lines, dv.clearPending) ∧
      ∀ line, line ∈ lines ↔ dv.Owes t line := by
  have hm : t ∈ dv.clearPending.vector := (h.clearPending.mem_iff t).mpr ⟨ht, hne⟩
  refine ⟨dv.clearPending.vector.getD t [], ?_, ?_⟩
  · unfold getDirtyCachelines
    simp only [pyGet_eq hm []]
    rfl
  · intro line
    rw [← owes_clearPending, owes_iff_of_pending (pending_clearPending dv)]

theorem setCachelineDirty_spec (h : dv.WellFormed tid tids) {address size : ℕ}
    (hline : InOneLine address size) (hs : size ≠ 0) :
    ∃ dv', dv.setCachelineDirty address size = .ok dv' ∧ dv'.WellFormed tid tids ∧
      ∀ t line, dv'.Owes t line ↔ dv.Owes t line ∨
        (t ∈ tids ∧ t ≠ tid ∧ line = getCachelineAddress address defaultCachelineSize) := by
  refine ⟨{ dv with pendingDirtyCachelines := dv.pendingDirtyCachelines ∪
    [getCachelineAddress address defaultCachelineSize] }, ?_, ⟨h.tid_eq, h.mem_iff⟩, ?_⟩
  · unfold setCachelineDirty
    rw [getCachelineAddresses_eq hline hs]
    rfl
  · intro t line
    unfold Owes
    simp only [List.mem_union_iff, List.mem_singleton, h.mem_iff]
    tauto

theorem forCells_spec (f : ThreadId → List Cacheline → Py (List Cacheline))
    (g : ThreadId → List Cacheline → List Cacheline) (ts : List ThreadId) (hnd : ts.Nodup)
    (hf : ∀ t ∈ ts, ∀ c, f t c = .ok (g t c)) (cells : Dict ThreadId (List Cacheline)) :
    ∃ cells', forCells f ts cells = .ok cells' ∧
      (∀ t, cells'.getD t [] = if t ∈ ts then g t (cells.getD t []) else cells.getD t []) ∧
      ∀ t, t ∈ cells' ↔ t ∈ ts ∨ t ∈ cells := by
  induction ts generalizing cells with
  | nil => exact ⟨cells, rfl, by simp, by simp⟩
  | cons a ts ih =>
    obtain ⟨ha, hnd⟩ := List.nodup_cons.mp hnd
    obtain ⟨cells', hok, hget, hmem⟩ := ih hnd (fun t ht => hf t (List.mem_cons_of_mem a ht))
      (cells.insert a (g a (cells.getD a [])))
    refine ⟨cells', ?_, ?_, ?_⟩
    · unfold forCells
      rw [hf a List.mem_cons_self]
      exact hok
    · intro t
      rw [hget, Dict.getD_insert]
      by_cases hta : t = a
      · subst hta; simp [ha]
      · simp [hta]
    · intro t
      rw [hmem, AList.mem_insert, List.mem_cons, or_assoc, or_left_comm]

theorem WellFormed.tellCell_eq (h : dv.WellFormed tid tids) (hc : child.WellFormed ctid tids)
    {t : ThreadId} (ht : t ∈ child.vector) (lines : List Cacheline) :
    dv.tellCell child t lines =
      .ok (if t = tid then lines else lines ∪ dv.vector.getD t []) := by
  obtain ⟨htt, htc⟩ := (hc.mem_iff t).mp ht
  unfold tellCell
  rw [pyAssert_bind (by rw [hc.tid_eq]; exact bne_iff_ne.mpr htc), h.tid_eq]
  by_cases htd : t = tid
  · rw [if_pos htd, if_pos htd]; rfl
  · rw [if_neg htd, if_neg htd, pyGet_eq ((h.mem_iff t).mpr ⟨htt, htd⟩) []]
    rfl

/-- The cells of the other threads of `tids`. -/
theorem mem_told {d : Dict ThreadId (List Cacheline)}
    (hd : ∀ t, t ∈ d ↔ t ∈ tids ∧ t ≠ tid) (hct : ctid ∈ tids) (hne : tid ≠ ctid) (t : ThreadId) :
    t ∈ d.insert ctid [] ↔ t ∈ tids ∧ t ≠ tid := by
  rw [AList.mem_insert, hd]
  constructor
  · rintro (rfl | h')
    · exact ⟨hct, Ne.symm hne⟩
    · exact h'
  · exact Or.inr

/-- What the cells of a child hold after it was told about the third threads. -/
theorem lines_told {d c cells : Dict ThreadId (List Cacheline)}
    (hd : ∀ t, t ∈ d ↔ t ∈ tids ∧ t ≠ tid) (hc : ∀ t, t ∈ c ↔ t ∈ tids ∧ t ≠ ctid)
    (hget : ∀ t, cells.getD t [] = if t ∈ c.keys then
      (if t = tid then c.getD t [] else c.getD t [] ∪ d.getD t []) else c.getD t [])
    (t : ThreadId) (line : Cacheline) :
    line ∈ cells.getD t [] ↔ line ∈ c.getD t [] ∨ t ≠ ctid ∧ line ∈ d.getD t [] := by
  simp only [hget, ← AList.mem_keys, hc]
  have hself : d.getD tid [] = [] := Dict.getD_of_notMem (fun hm => ((hd tid).mp hm).2 rfl) []
  have hout : ∀ t, t ∉ tids → d.getD t [] = [] :=
    fun t htn => Dict.getD_of_notMem (fun hm => htn ((hd t).mp hm).1) []
  by_cases htt : t ∈ tids
  · by_cases htc : t = ctid
    · simp [htc]
    · by_cases htd : t = tid
      · subst htd; simp [htt, htc, hself]
      · simp [htt, htc, htd]
  · simp [htt, hout t htt]

/-- A child takes over what is owed to third threads, and nothing is owed to it any more. -/
theorem updateChild_spec (h : dv.WellFormed tid tids) (hc : child.WellFormed ctid tids)
    (hne : tid ≠ ctid) (ht : tid ∈ tids) (hct : ctid ∈ tids)
    (hpend : dv.pendingDirtyCachelines = []) (hcpend : child.pendingDirtyCachelines = []) :
    ∃ dv' child', dv.updateChild child = .ok (dv', child') ∧
      dv'.WellFormed tid tids ∧ child'.WellFormed ctid tids ∧
      dv'.pendingDirtyCachelines = [] ∧ child'.pendingDirtyCachelines = [] ∧
      (∀ t line, dv'.Owes t line ↔ t ≠ ctid ∧ dv.Owes t line) ∧
      ∀ t line, child'.Owes t line ↔ child.Owes t line ∨ t ≠ ctid ∧ dv.Owes t line := by
  have hdvc : dv.clearPending = dv := by unfold clearPending; rw [if_pos hpend]
  have hcc : child.clearPending = child := by unfold clearPending; rw [if_pos hcpend]
  obtain ⟨cells, hok, hget, hmem⟩ := forCells_spec (dv.tellCell child)
    (fun t lines => if t = tid then lines else lines ∪ dv.vector.getD t []) child.vector.keys
    child.vector.keys_nodup (fun t ht c => h.tellCell_eq hc (AList.mem_keys.mpr ht) c) child.vector
  have hcells : ∀ t, t ∈ cells ↔ t ∈ tids ∧ t ≠ ctid := by
    intro t
    rw [hmem, ← AList.mem_keys, or_self, hc.mem_iff]
  have hctidv : ctid ∈ dv.vector := (h.mem_iff ctid).mpr ⟨hct, Ne.symm hne⟩
  have hins := mem_told h.mem_iff hct hne
  have hself : tid ∉ dv.vector.insert ctid [] := fun hm => ((hins tid).mp hm).2 rfl
  have hcself : ctid ∉ cells := fun hm => ((hcells ctid).mp hm).2 rfl
  have htcell : tid ∈ cells := (hcells tid).mpr ⟨ht, hne⟩
  refine ⟨{ dv with vector := dv.vector.insert ctid [] }, { child with vector := cells }, ?_,
    ⟨h.tid_eq, hins⟩, ⟨hc.tid_eq, hcells⟩, hpend, hcpend, ?_, ?_⟩
  · unfold updateChild
    rw [pyAssert_bind (by rw [h.tid_eq, hc.tid_eq]; exact bne_iff_ne.mpr hne),
      pyAssert_bind (decide_eq_true (hc.tid_eq.symm ▸ hc.not_mem_self)),
      pyAssert_bind (decide_eq_true (h.tid_eq.symm ▸ h.not_mem_self))]
    simp only [hcc, hdvc, ite_self]
    rw [hok]
    simp only [ok_bind, hc.tid_eq, pyGet_eq hctidv []]
    rw [pyAssert_bind (by rw [hpend]; rfl), pyAssert_bind (decide_eq_true hcself),
      pyAssert_bind (decide_eq_true (h.tid_eq.symm ▸ hself)),
      pyAssert_bind (decide_eq_true (h.tid_eq.symm ▸ htcell))]
    rfl
  · intro t line
    rw [owes_iff_of_pending (by exact hpend), owes_iff_of_pending hpend, Dict.getD_insert]
    by_cases htc : t = ctid
    · simp [htc]
    · simp [htc]
  · intro t line
    rw [owes_iff_of_pending (by exact hcpend), owes_iff_of_pending hcpend,
      owes_iff_of_pending hpend]
    exact lines_told h.mem_iff hc.mem_iff hget t line

/-- A thread takes over what its epoch node was told. -/
theorem merge_spec (h : dv.WellFormed tid tids) (ho : other.WellFormed tid tids)
    (hpend : other.pendingDirtyCachelines = []) :
    ∃ dv', dv.merge other = .ok dv' ∧ dv'.WellFormed tid tids ∧
      ∀ t line, dv'.Owes t line ↔ dv.Owes t line ∨ other.Owes t line := by
  have hkey : ∀ t, t ∈ other.vector → t ∈ dv.vector :=
    fun t htm => (h.mem_iff t).mpr ((ho.mem_iff t).mp htm)
  obtain ⟨cells, hok, hget, hmem⟩ := forCells_spec
    (fun tid _ => do
      let lines ← pyGet dv.vector tid
      pure (lines ∪ other.vector.getD tid []))
    (fun t _ => dv.vector.getD t [] ∪ other.vector.getD t []) other.vector.keys
    other.vector.keys_nodup (by
      intro t ht c
      rw [pyGet_eq (hkey t (AList.mem_keys.mpr ht)) []]
      rfl) dv.vector
  refine ⟨{ dv with vector := cells }, ?_, ⟨h.tid_eq, ?_⟩, ?_⟩
  · unfold merge
    rw [pyAssert_bind (by rw [h.tid_eq, ho.tid_eq]; exact beq_self_eq_true tid),
      pyAssert_bind (by rw [hpend]; rfl),
      pyAssert_bind (decide_eq_true (ho.tid_eq.symm ▸ ho.not_mem_self)),
      pyAssert_bind (decide_eq_true (h.tid_eq.symm ▸ h.not_mem_self)), hok]
    rfl
  · intro t
    rw [hmem, ← AList.mem_keys, ho.mem_iff, h.mem_iff, or_self]
  · intro t line
    have hcell : t ∈ cells ↔ t ∈ dv.vector := by
      rw [hmem, ← AList.mem_keys, ho.mem_iff, h.mem_iff, or_self]
    rw [owes_iff_of_pending hpend]
    unfold Owes
    simp only [hget, hcell, ← AList.mem_keys]
    by_cases ht : t ∈ other.vector
    · simp [ht]; tauto
    · simp [ht, Dict.getD_of_notMem ht]

end DirtyCachelinesVector

end Prd.Pycprd
