import Prd.Foundation.RefCount
import Prd.Runtime.Clock

/-!
# The memory of the clocks

A block is held by the objects whose table it is and by the threads that cache it. Its
counter is the number of its holders, so a table with a counter of one can be changed
without a change to any other clock.
-/
namespace Prd.Runtime

open Prd.Foundation

namespace ClockAlloc

/-- The block is in use. -/
structure Allocated (a : ClockAlloc) (idx : ℕ) : Prop where
  pos : 0 < idx
  lt : idx < a.fillpos
  notMem : idx ∉ a.freelist

structure Ok (a : ClockAlloc) : Prop where
  fillpos : 0 < a.fillpos
  nodup : a.freelist.Nodup
  free : ∀ idx ∈ a.freelist, 0 < idx ∧ idx < a.fillpos

theorem ok_new : new.Ok where
  fillpos := Nat.one_pos
  nodup := List.nodup_nil
  free := by simp [new]

variable {a : ClockAlloc}

@[simp] theorem block_alloc (a : ClockAlloc) : a.alloc.2.block = a.block := by
  unfold alloc
  split <;> rfl

theorem Ok.alloc (h : a.Ok) : a.alloc.2.Ok := by
  unfold ClockAlloc.alloc
  cases hfree : a.freelist with
  | nil =>
    refine ⟨Nat.succ_pos _, ?_, ?_⟩
    · simp
    · simp
  | cons idx rest =>
    have hnd := h.nodup
    rw [hfree] at hnd
    refine ⟨h.fillpos, (List.nodup_cons.mp hnd).2, fun j hj => h.free j ?_⟩
    rw [hfree]
    exact List.mem_cons_of_mem _ hj

/-- The new block was not in use, and it is now. -/
theorem Ok.allocated_alloc (h : a.Ok) :
    a.alloc.2.Allocated a.alloc.1 ∧ ¬ a.Allocated a.alloc.1 := by
  unfold ClockAlloc.alloc
  cases hfree : a.freelist with
  | nil =>
    refine ⟨⟨h.fillpos, Nat.lt_succ_self _, ?_⟩, fun hall => lt_irrefl _ hall.lt⟩
    simp
  | cons idx rest =>
    have hnd := h.nodup
    rw [hfree] at hnd
    have hmem : idx ∈ a.freelist := by
      rw [hfree]
      exact List.mem_cons_self
    obtain ⟨hpos, hlt⟩ := h.free idx hmem
    exact ⟨⟨hpos, hlt, (List.nodup_cons.mp hnd).1⟩, fun hall => hall.notMem hmem⟩

theorem Allocated.alloc {idx : ℕ} (hi : a.Allocated idx) : a.alloc.2.Allocated idx := by
  unfold ClockAlloc.alloc
  cases hfree : a.freelist with
  | nil =>
    refine ⟨hi.pos, hi.lt.trans (Nat.lt_succ_self _), ?_⟩
    simp
  | cons j rest =>
    refine ⟨hi.pos, hi.lt, fun hmem => hi.notMem ?_⟩
    rw [hfree]
    exact List.mem_cons_of_mem _ hmem

theorem Ok.free_ok (h : a.Ok) {idx : ℕ} (hi : a.Allocated idx) : (a.free idx).Ok where
  fillpos := h.fillpos
  nodup := List.nodup_cons.mpr ⟨hi.notMem, h.nodup⟩
  free := by
    intro j hj
    rcases List.mem_cons.mp hj with rfl | hj
    · exact ⟨hi.pos, hi.lt⟩
    · exact h.free j hj

theorem Allocated.free {idx j : ℕ} (hj : a.Allocated j) (hne : j ≠ idx) :
    (a.free idx).Allocated j where
  pos := hj.pos
  lt := hj.lt
  notMem := by
    intro hmem
    rcases List.mem_cons.mp hmem with h | h
    · exact hne h
    · exact hj.notMem h

end ClockAlloc

/-- Who holds which blocks: the objects and the threads. -/
abbrev Holders := ℕ ⊕ ℕ → Option ℕ

/-- The counters of the blocks are right, and held blocks are not free. -/
structure MemoryOk (a : ClockAlloc) (holds : Holders) : Prop where
  ok : a.Ok
  counted : Counted holds fun idx => (a.block idx).ref
  allocated : ∀ h idx, holds h = some idx → a.Allocated idx

namespace MemoryOk

variable {a : ClockAlloc} {holds : Holders}

/-- Only the counters of held blocks matter. -/
theorem congr (m : MemoryOk a holds) {block : ℕ → ClockBlock}
    (href : ∀ h idx, holds h = some idx → (block idx).ref = (a.block idx).ref) :
    MemoryOk { a with block := block } holds where
  ok := ⟨m.ok.fillpos, m.ok.nodup, m.ok.free⟩
  counted := m.counted.congr fun idx hidx => by
    obtain ⟨h, hh⟩ := hidx
    exact href h idx hh
  allocated := fun h idx hh =>
    ⟨(m.allocated h idx hh).pos, (m.allocated h idx hh).lt, (m.allocated h idx hh).notMem⟩

/-- Nobody holds a block that is about to be allocated. -/
theorem not_held (m : MemoryOk a holds) (h : ℕ ⊕ ℕ) : holds h ≠ some a.alloc.1 :=
  fun hh => m.ok.allocated_alloc.2 (m.allocated h _ hh)

theorem alloc (m : MemoryOk a holds) (cb : ClockBlock) :
    MemoryOk { a.alloc.2 with block := Function.update a.block a.alloc.1 cb } holds := by
  have hm : MemoryOk a.alloc.2 holds := by
    refine ⟨m.ok.alloc, ?_, fun h idx hh => (m.allocated h idx hh).alloc⟩
    rw [ClockAlloc.block_alloc]
    exact m.counted
  refine hm.congr fun h idx hh => ?_
  have hne : idx ≠ a.alloc.1 := by
    intro he
    subst he
    exact m.not_held h hh
  rw [Function.update_of_ne hne, ClockAlloc.block_alloc]

/-- A block in use with a counter of one, which nobody holds, finds its holder. -/
theorem takeFresh (m : MemoryOk a holds) {h : ℕ ⊕ ℕ} {idx : ℕ} (hnone : holds h = none)
    (hi : a.Allocated idx) (hfree : ∀ h', holds h' ≠ some idx) (href : (a.block idx).ref = 1) :
    MemoryOk a (Function.update holds h (some idx)) where
  ok := m.ok
  counted := m.counted.takeFresh hnone hfree (fun _ _ => rfl) href
  allocated := by
    intro h' j hj
    by_cases hh : h' = h
    · subst hh
      rw [Function.update_self] at hj
      exact Option.some.inj hj ▸ hi
    · rw [Function.update_of_ne hh] at hj
      exact m.allocated h' j hj

/-- A holder of nothing takes a block that is held. -/
theorem share (m : MemoryOk a holds) {h h' : ℕ ⊕ ℕ} {idx : ℕ} (hnone : holds h = none)
    (hh' : holds h' = some idx) {cb : ClockBlock} (href : cb.ref = (a.block idx).ref + 1) :
    MemoryOk { a with block := Function.update a.block idx cb }
      (Function.update holds h (some idx)) where
  ok := ⟨m.ok.fillpos, m.ok.nodup, m.ok.free⟩
  counted := by
    refine m.counted.share hnone ⟨h', hh'⟩ (fun j hj => ?_) ?_
    · simp [Function.update_of_ne hj]
    · simp [href]
  allocated := by
    intro x j hj
    by_cases hx : x = h
    · subst hx
      rw [Function.update_self] at hj
      have := m.allocated h' idx hh'
      cases hj
      exact ⟨this.pos, this.lt, this.notMem⟩
    · rw [Function.update_of_ne hx] at hj
      have := m.allocated x j hj
      exact ⟨this.pos, this.lt, this.notMem⟩

theorem ref_pos (m : MemoryOk a holds) {h : ℕ ⊕ ℕ} {idx : ℕ} (hh : holds h = some idx) :
    0 < (a.block idx).ref :=
  m.counted.pos hh

theorem exclusive (m : MemoryOk a holds) {h h' : ℕ ⊕ ℕ} {idx : ℕ} (href : (a.block idx).ref = 1)
    (hh : holds h = some idx) (hh' : holds h' = some idx) : h' = h :=
  m.counted.exclusive href hh hh'

end MemoryOk

namespace ClockState

variable {σ : ClockState}

/-- Empty objects hold nothing, and 0 stands for no cached block. -/
def holds (σ : ClockState) : Holders
  | .inl s => if (σ.syncs s).size = 0 then none else some (σ.syncs s).tabIdx
  | .inr t => if (σ.threads t).cachedIdx = 0 then none else some (σ.threads t).cachedIdx

theorem holds_setSync (σ : ClockState) (s : ℕ) (sync : SyncClock) : (σ.setSync s sync).holds =
    Function.update σ.holds (.inl s) (if sync.size = 0 then none else some sync.tabIdx) := by
  funext h
  cases h with
  | inl s' =>
    by_cases hs : s' = s
    · subst hs
      simp [holds, setSync]
    · simp [holds, setSync, hs]
  | inr t =>
    rw [Function.update_of_ne Sum.inr_ne_inl]
    rfl

theorem holds_setThread (σ : ClockState) (t : ℕ) (thr : ThreadClock) : (σ.setThread t thr).holds =
    Function.update σ.holds (.inr t) (if thr.cachedIdx = 0 then none else some thr.cachedIdx) := by
  funext h
  cases h with
  | inl s =>
    rw [Function.update_of_ne Sum.inl_ne_inr]
    rfl
  | inr t' =>
    by_cases ht : t' = t
    · subst ht
      simp [holds, setThread]
    · simp [holds, setThread, ht]

@[simp] theorem holds_setBlock (σ : ClockState) (idx : ℕ) (cb : ClockBlock) :
    (σ.setBlock idx cb).holds = σ.holds := rfl

/-- Dropping a reference changes neither the clocks nor the elements of a block. -/
theorem unrefClockBlock_eq {holds : Holders} (m : MemoryOk σ.alloc holds) {h : ℕ ⊕ ℕ} {idx : ℕ}
    (hh : holds h = some idx) : ∃ a, σ.unrefClockBlock idx = some { σ with alloc := a } ∧
      MemoryOk a (Function.update holds h none) ∧
      (∀ j, (a.block j).clock = (σ.alloc.block j).clock) ∧
      (∀ j, j ≠ idx → (a.block j).ref = (σ.alloc.block j).ref) ∧
      ∀ j, j ≠ idx → σ.alloc.Allocated j → a.Allocated j := by
  have hpos := m.ref_pos hh
  have hi := m.allocated h idx hh
  have hdrop : ∀ h' j, Function.update holds h none h' = some j → h' ≠ h ∧ holds h' = some j := by
    intro h' j hj
    by_cases hne : h' = h
    · subst hne
      rw [Function.update_self] at hj
      cases hj
    · rw [Function.update_of_ne hne] at hj
      exact ⟨hne, hj⟩
  unfold unrefClockBlock
  rw [if_neg (by omega)]
  by_cases hone : (σ.alloc.block idx).ref = 1
  · refine ⟨σ.alloc.free idx, if_pos hone, ⟨m.ok.free_ok hi, ?_, ?_⟩, fun _ => rfl, fun _ _ => rfl,
      fun j hj hall => hall.free hj⟩
    · exact m.counted.drop hh (fun _ _ => rfl) (fun hlt => by omega)
    · intro h' j hj
      obtain ⟨hne, hj⟩ := hdrop h' j hj
      refine (m.allocated h' j hj).free fun he => ?_
      subst he
      exact hne (m.exclusive hone hh hj)
  · refine ⟨_, if_neg hone, ⟨⟨m.ok.fillpos, m.ok.nodup, m.ok.free⟩, ?_, ?_⟩, fun j => ?_,
      fun j hj => by simp [Function.update_of_ne hj],
      fun j _ hall => ⟨hall.pos, hall.lt, hall.notMem⟩⟩
    · refine m.counted.drop hh (fun j hj => by simp [Function.update_of_ne hj]) (fun _ => ?_)
      simp only [Function.update_self]
      omega
    · intro h' j hj
      have hall := m.allocated h' j (hdrop h' j hj).2
      exact ⟨hall.pos, hall.lt, hall.notMem⟩
    · by_cases hj : j = idx
      · subst hj
        simp
      · simp [Function.update_of_ne hj]

end ClockState

end Prd.Runtime
