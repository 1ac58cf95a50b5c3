import Prd.Pycprd.DirtyVector

/-!
# Vectors of dirty cache lines without a buffer

The eager vector adds each line to all of its cells at once. A vector with a buffer mirrors an
eager one if it owes the lines that the eager cells hold, and each operation keeps this.
-/
namespace Prd.Pycprd

open Prd.Foundation

structure EagerDirtyVector where
  tid : ThreadId
  vector : Dict ThreadId (List Cacheline)

namespace EagerDirtyVector

def new (tid : ThreadId) (tids : List ThreadId) : EagerDirtyVector :=
  ⟨tid, (DirtyCachelinesVector.new tid tids).vector⟩

section Operations

variable (ev child other : EagerDirtyVector)

def getDirtyCachelines (tid : ThreadId) : Py (List Cacheline) := pyGet ev.vector tid

def setCachelineDirty (address size : ℕ) : Py EagerDirtyVector := do
  let lines ← getCachelineAddresses address size defaultCachelineSize
  pure { ev with vector := ev.vector.mapVal (· ∪ lines) }

/-- The body of the loop of `updateChild`. -/
def tellCell (tid : ThreadId) (lines : List Cacheline) : Py (List Cacheline) :=
  if tid = ev.tid then pure lines
  else do
    let own ← pyGet ev.vector tid
    pure (lines ∪ own)

def updateChild : Py (EagerDirtyVector × EagerDirtyVector) := do
  let cells ← DirtyCachelinesVector.forCells ev.tellCell child.vector.keys child.vector
  let _ ← pyGet ev.vector child.tid
  pure ({ ev with vector := ev.vector.insert child.tid [] }, { child with vector := cells })

def merge : Py EagerDirtyVector := do
  let cells ← DirtyCachelinesVector.forCells (fun tid _ => do
    let lines ← pyGet ev.vector tid
    pure (lines ∪ other.vector.getD tid [])) other.vector.keys ev.vector
  pure { ev with vector := cells }

end Operations

end EagerDirtyVector

namespace DirtyCachelinesVector

/-- The eager vector holds in its cells what this one owes. -/
structure Mirrors (dv : DirtyCachelinesVector) (ev : EagerDirtyVector) (tid : ThreadId)
    (tids : List ThreadId) : Prop where
  wellFormed : dv.WellFormed tid tids
  tid_eq : ev.tid = tid
  mem_iff : ∀ t, t ∈ ev.vector ↔ t ∈ tids ∧ t ≠ tid
  owes_iff : ∀ t line, dv.Owes t line ↔ line ∈ ev.vector.getD t []

variable {dv child other : DirtyCachelinesVector} {ev ec eo : EagerDirtyVector}
  {tid ctid : ThreadId} {tids : List ThreadId}

theorem mirrors_new (tid : ThreadId) (tids : List ThreadId) :
    (new tid tids).Mirrors (.new tid tids) tid tids where
  wellFormed := wellFormed_new tid tids
  tid_eq := rfl
  mem_iff := (wellFormed_new tid tids).mem_iff
  owes_iff := by
    intro t line
    exact owes_iff_of_pending rfl t line

theorem Mirrors.clearPending (h : dv.Mirrors ev tid tids) :
    dv.clearPending.Mirrors ev tid tids where
  wellFormed := h.wellFormed.clearPending
  tid_eq := h.tid_eq
  mem_iff := h.mem_iff
  owes_iff := by
    intro t line
    rw [owes_clearPending, h.owes_iff]

/-- A dictionary of sets is equal to another one. -/
structure SameCells (d d' : Dict ThreadId (List Cacheline)) : Prop where
  mem_iff : ∀ t, t ∈ d ↔ t ∈ d'
  lines_iff : ∀ t line, line ∈ d.getD t [] ↔ line ∈ d'.getD t []

/-- The property `vector` shows the cells of the eager vector. -/
theorem Mirrors.sameCells (h : dv.Mirrors ev tid tids) :
    SameCells dv.clearPending.vector ev.vector where
  mem_iff := fun t => (h.wellFormed.clearPending.mem_iff t).trans (h.mem_iff t).symm
  lines_iff := by
    intro t line
    rw [← owes_iff_of_pending (pending_clearPending dv), owes_clearPending, h.owes_iff]

/-- Adding lines to the buffer is adding them to all cells. -/
theorem Mirrors.addLines (h : dv.Mirrors ev tid tids) (lines : List Cacheline) :
    ({ dv with pendingDirtyCachelines := dv.pendingDirtyCachelines ∪ lines } :
      DirtyCachelinesVector).Mirrors
        { ev with vector := ev.vector.mapVal (· ∪ lines) } tid tids where
  wellFormed := ⟨h.wellFormed.tid_eq, h.wellFormed.mem_iff⟩
  tid_eq := h.tid_eq
  mem_iff := fun t => (Dict.mem_mapVal _ _ t).trans (h.mem_iff t)
  owes_iff := by
    intro t line
    have howes := h.owes_iff t line
    unfold Owes at howes ⊢
    by_cases ht : t ∈ ev.vector
    · have htd : t ∈ dv.vector := (h.wellFormed.mem_iff t).mpr ((h.mem_iff t).mp ht)
      rw [Dict.getD_mapVal ht]
      simp only [List.mem_union_iff, ← howes, htd, true_and, or_assoc]
    · have htd : t ∉ dv.vector := fun hm => ht ((h.mem_iff t).mpr ((h.wellFormed.mem_iff t).mp hm))
      have htm : t ∉ ev.vector.mapVal (· ∪ lines) := fun hm => ht ((Dict.mem_mapVal _ _ t).mp hm)
      rw [Dict.getD_of_notMem htm, Dict.getD_of_notMem htd]
      simp [htd]

theorem Mirrors.tellCell_eq (h : dv.Mirrors ev tid tids) (hc : child.Mirrors ec ctid tids)
    {t : ThreadId} (ht : t ∈ ec.vector) (lines : List Cacheline) :
    ev.tellCell t lines = .ok (if t = tid then lines else lines ∪ ev.vector.getD t []) := by
  unfold EagerDirtyVector.tellCell
  rw [h.tid_eq]
  by_cases htd : t = tid
  · rw [if_pos htd, if_pos htd]
    rfl
  · rw [if_neg htd, if_neg htd, pyGet_eq ((h.mem_iff t).mpr ⟨((hc.mem_iff t).mp ht).1, htd⟩) []]
    rfl

theorem Mirrors.updateChild (h : dv.Mirrors ev tid tids) (hc : child.Mirrors ec ctid tids)
    (hne : tid ≠ ctid) (ht : tid ∈ tids) (hct : ctid ∈ tids)
    (hpend : dv.pendingDirtyCachelines = []) (hcpend : child.pendingDirtyCachelines = []) :
    ∃ dv' child' ev' ec', dv.updateChild child = .ok (dv', child') ∧
      ev.updateChild ec = .ok (ev', ec') ∧ dv'.Mirrors ev' tid tids ∧
      child'.Mirrors ec' ctid tids ∧ dv'.pendingDirtyCachelines = [] ∧
      child'.pendingDirtyCachelines = [] := by
  obtain ⟨dv', child', hok, hwf, hcwf, hp, hcp, howes, hcowes⟩ :=
    updateChild_spec h.wellFormed hc.wellFormed hne ht hct hpend hcpend
  obtain ⟨cells, hcells, hget, hmem⟩ := forCells_spec ev.tellCell
    (fun t lines => if t = tid then lines else lines ∪ ev.vector.getD t []) ec.vector.keys
    ec.vector.keys_nodup (fun t ht c => h.tellCell_eq hc (AList.mem_keys.mpr ht) c) ec.vector
  refine ⟨dv', child', { ev with vector := ev.vector.insert ctid [] },
    { ec with vector := cells }, hok, ?_, ?_, ?_, hp, hcp⟩
  · unfold EagerDirtyVector.updateChild
    rw [hcells, ok_bind, hc.tid_eq, pyGet_eq ((h.mem_iff ctid).mpr ⟨hct, Ne.symm hne⟩) []]
    rfl
  · refine ⟨hwf, h.tid_eq, mem_told h.mem_iff hct hne, ?_⟩
    intro t line
    rw [howes, h.owes_iff]
    show _ ↔ line ∈ Dict.getD (ev.vector.insert ctid []) t []
    rw [Dict.getD_insert]
    by_cases htc : t = ctid
    · simp [htc]
    · simp [htc]
  · refine ⟨hcwf, hc.tid_eq, ?_, ?_⟩
    · intro t
      rw [hmem, ← AList.mem_keys, or_self, hc.mem_iff]
    · intro t line
      rw [hcowes, hc.owes_iff, h.owes_iff]
      exact (lines_told h.mem_iff hc.mem_iff hget t line).symm

theorem pending_merge {dv' : DirtyCachelinesVector} (h : dv.merge other = .ok dv') :
    dv'.pendingDirtyCachelines = dv.pendingDirtyCachelines := by
  unfold DirtyCachelinesVector.merge at h
  obtain ⟨-, -, h⟩ := bind_eq_ok.mp h
  obtain ⟨-, -, h⟩ := bind_eq_ok.mp h
  obtain ⟨-, -, h⟩ := bind_eq_ok.mp h
  obtain ⟨-, -, h⟩ := bind_eq_ok.mp h
  obtain ⟨cells, -, h⟩ := bind_eq_ok.mp h
  cases h
  rfl

theorem Mirrors.merge (h : dv.Mirrors ev tid tids) (ho : other.Mirrors eo tid tids)
    (hpend : other.pendingDirtyCachelines = []) :
    ∃ dv' ev', dv.merge other = .ok dv' ∧ ev.merge eo = .ok ev' ∧ dv'.Mirrors ev' tid tids ∧
      dv'.pendingDirtyCachelines = dv.pendingDirtyCachelines := by
  obtain ⟨dv', hok, hwf, howes⟩ := merge_spec h.wellFormed ho.wellFormed hpend
  have hkey : ∀ t, t ∈ eo.vector → t ∈ ev.vector :=
    fun t ht => (h.mem_iff t).mpr ((ho.mem_iff t).mp ht)
  obtain ⟨cells, hcells, hget, hmem⟩ := forCells_spec
    (fun t _ => do
      let lines ← pyGet ev.vector t
      pure (lines ∪ eo.vector.getD t []))
    (fun t _ => ev.vector.getD t [] ∪ eo.vector.getD t []) eo.vector.keys eo.vector.keys_nodup
    (by
      intro t ht c
      rw [pyGet_eq (hkey t (AList.mem_keys.mpr ht)) []]
      rfl) ev.vector
  refine ⟨dv', { ev with vector := cells }, hok, ?_, ⟨hwf, h.tid_eq, ?_, ?_⟩, pending_merge hok⟩
  · unfold EagerDirtyVector.merge
    rw [hcells]
    rfl
  · intro t
    rw [hmem, ← AList.mem_keys, ho.mem_iff, h.mem_iff, or_self]
  · intro t line
    rw [howes, h.owes_iff, ho.owes_iff]
    show _ ↔ line ∈ Dict.getD cells t []
    simp only [hget, ← AList.mem_keys]
    by_cases ht : t ∈ eo.vector
    · simp [ht]
    · simp [ht, Dict.getD_of_notMem ht]

end DirtyCachelinesVector

end Prd.Pycprd
