import Prd.Runtime.ClockMemory

/-!
# What an object says

The view of an object is its vector with the entries beside it, wherever its table is.
Making a table private changes no view, and writing to a private one changes a single view.
-/
namespace Prd.Runtime

open Prd.Foundation

structure SyncView where
  size : ℕ
  releaseStoreTid : Option ℕ
  releaseStoreReused : ℕ
  dirty₀ : Option Dirty
  dirty₁ : Option Dirty
  clock : ℕ → ClockElem

/-- The elements of a table that is not there. -/
def noElems : ℕ → ClockElem := fun _ => ⟨0, 0⟩

/-- The elements after an entry is flushed. -/
def SyncView.flush (clock : ℕ → ClockElem) : Option Dirty → ℕ → ClockElem
  | none => clock
  | some dirty => Function.update clock dirty.tid { clock dirty.tid with epoch := dirty.epoch }

namespace ClockState

def view (σ : ClockState) (s : ℕ) : SyncView where
  size := (σ.syncs s).size
  releaseStoreTid := (σ.syncs s).releaseStoreTid
  releaseStoreReused := (σ.syncs s).releaseStoreReused
  dirty₀ := (σ.syncs s).dirty₀
  dirty₁ := (σ.syncs s).dirty₁
  clock := if (σ.syncs s).size = 0 then noElems else (σ.tab s).clock

/-- The elements that a thread caches. -/
def cachedClock (σ : ClockState) (t : ℕ) : ℕ → ClockElem :=
  if (σ.threads t).cachedIdx = 0 then noElems else (σ.alloc.block (σ.threads t).cachedIdx).clock

/-- The size that a holder takes its block to have. -/
def heldSize (σ : ClockState) : ℕ ⊕ ℕ → ℕ
  | .inl s => (σ.syncs s).size
  | .inr t => (σ.threads t).cachedSize

/-- Blocks are counted, and the holders of a block agree on its size. -/
structure Memory (σ : ClockState) : Prop where
  ok : MemoryOk σ.alloc σ.holds
  sizes : ∀ h h' idx, σ.holds h = some idx → σ.holds h' = some idx → σ.heldSize h = σ.heldSize h'

/-- The table of the object is its own. -/
def Unshared (σ : ClockState) (s : ℕ) : Prop := (σ.syncs s).size ≠ 0 → (σ.tab s).ref = 1

/-- One object changes, and nothing else that can be seen. -/
structure Updates (σ σ' : ClockState) (s : ℕ) (v : SyncView) : Prop where
  threads : σ'.threads = σ.threads
  lines : σ'.lines = σ.lines
  self : σ'.view s = v
  other : ∀ s', s' ≠ s → σ'.view s' = σ.view s'
  cached : ∀ t, σ'.cachedClock t = σ.cachedClock t
  memory : σ'.Memory

variable {σ σ₁ σ₂ : ClockState} {s : ℕ}

theorem Updates.trans {v v' : SyncView} (h : Updates σ σ₁ s v) (h' : Updates σ₁ σ₂ s v') :
    Updates σ σ₂ s v' where
  threads := h'.threads.trans h.threads
  lines := h'.lines.trans h.lines
  self := h'.self
  other := fun s' hs => (h'.other s' hs).trans (h.other s' hs)
  cached := fun t => (h'.cached t).trans (h.cached t)
  memory := h'.memory

theorem Updates.refl (m : σ.Memory) (s : ℕ) : Updates σ σ s (σ.view s) :=
  ⟨rfl, rfl, rfl, fun _ _ => rfl, fun _ => rfl, m⟩

theorem view_size (σ : ClockState) (s : ℕ) : (σ.view s).size = (σ.syncs s).size := rfl

/-- Objects that have a table hold it. -/
theorem holds_sync (hs : (σ.syncs s).size ≠ 0) : σ.holds (.inl s) = some (σ.syncs s).tabIdx :=
  if_neg hs

theorem heldSize_setSync (σ : ClockState) {s : ℕ} (sync : SyncClock) {h : ℕ ⊕ ℕ}
    (hne : h ≠ .inl s) : (σ.setSync s sync).heldSize h = σ.heldSize h := by
  cases h with
  | inl s' =>
    have hs' : s' ≠ s := fun he => hne (congrArg Sum.inl he)
    simp [heldSize, setSync, hs']
  | inr t => rfl

theorem heldSize_setThread (σ : ClockState) {t : ℕ} (thr : ThreadClock) {h : ℕ ⊕ ℕ}
    (hne : h ≠ .inr t) : (σ.setThread t thr).heldSize h = σ.heldSize h := by
  cases h with
  | inl s => rfl
  | inr t' =>
    have ht' : t' ≠ t := fun he => hne (congrArg Sum.inr he)
    simp [heldSize, setThread, ht']

/-- A holder takes a block whose other holders, if there are any, have its size. -/
theorem sizes_update {σ σ' : ClockState} (m : σ.Memory) {h₀ : ℕ ⊕ ℕ} {o : Option ℕ}
    (hholds : σ'.holds = Function.update σ.holds h₀ o)
    (hsize : ∀ h, h ≠ h₀ → σ'.heldSize h = σ.heldSize h)
    (hnew : ∀ h idx, h ≠ h₀ → o = some idx → σ.holds h = some idx → σ.heldSize h = σ'.heldSize h₀)
    (h h' : ℕ ⊕ ℕ) (idx : ℕ) (hh : σ'.holds h = some idx) (hh' : σ'.holds h' = some idx) :
    σ'.heldSize h = σ'.heldSize h' := by
  rw [hholds] at hh hh'
  by_cases he : h = h₀
  · subst he
    rw [Function.update_self] at hh
    by_cases he' : h' = h
    · rw [he']
    · rw [Function.update_of_ne he'] at hh'
      rw [hsize h' he']
      exact (hnew h' idx he' hh hh').symm
  · rw [Function.update_of_ne he] at hh
    rw [hsize h he]
    by_cases he' : h' = h₀
    · subst he'
      rw [Function.update_self] at hh'
      exact hnew h idx he hh' hh
    · rw [Function.update_of_ne he'] at hh'
      rw [hsize h' he']
      exact m.sizes h h' idx hh hh'

theorem view_clock (hs : (σ.syncs s).size ≠ 0) : (σ.view s).clock = (σ.tab s).clock := if_neg hs

/-- A view depends on the table only when there is one. -/
theorem view_eq_of_clock {σ σ' : ClockState} {s : ℕ} (hsync : σ'.syncs s = σ.syncs s)
    (hclock : (σ.syncs s).size ≠ 0 → (σ'.alloc.block (σ.syncs s).tabIdx).clock =
      (σ.alloc.block (σ.syncs s).tabIdx).clock) : σ'.view s = σ.view s := by
  unfold view tab
  rw [hsync]
  by_cases hs : (σ.syncs s).size = 0
  · rw [if_pos hs, if_pos hs]
  · rw [if_neg hs, if_neg hs, hclock hs]

theorem cachedClock_eq_of_clock {σ σ' : ClockState} {t : ℕ} (hthr : σ'.threads t = σ.threads t)
    (hclock : (σ.threads t).cachedIdx ≠ 0 → (σ'.alloc.block (σ.threads t).cachedIdx).clock =
      (σ.alloc.block (σ.threads t).cachedIdx).clock) : σ'.cachedClock t = σ.cachedClock t := by
  unfold cachedClock
  rw [hthr]
  by_cases ht : (σ.threads t).cachedIdx = 0
  · rw [if_pos ht, if_pos ht]
  · rw [if_neg ht, if_neg ht, hclock ht]

/-- Writing to a private table. -/
theorem updates_setBlock (m : σ.Memory) (hun : σ.Unshared s)
    (hs : (σ.syncs s).size ≠ 0) (clock : ℕ → ClockElem) :
    Updates σ (σ.setBlock (σ.syncs s).tabIdx { σ.tab s with clock := clock }) s
      { σ.view s with clock := clock } ∧
    (σ.setBlock (σ.syncs s).tabIdx { σ.tab s with clock := clock }).Unshared s := by
  have hholds := holds_sync hs
  have hother : ∀ h idx, σ.holds h = some idx → h ≠ .inl s → idx ≠ (σ.syncs s).tabIdx := by
    intro h idx hh hne he
    subst he
    exact hne (m.ok.exclusive (hun hs) hholds hh)
  refine ⟨⟨rfl, rfl, ?_, ?_, ?_, ?_⟩, fun _ => ?_⟩
  · simp [view, tab, setBlock, hs]
  · intro s' hs'
    refine view_eq_of_clock rfl fun hsize => ?_
    have hne := hother _ _ (holds_sync hsize) (fun he => hs' (Sum.inl.inj he))
    simp [setBlock, Function.update_of_ne hne]
  · intro t
    refine cachedClock_eq_of_clock rfl fun hidx => ?_
    have hne := hother (.inr t) (σ.threads t).cachedIdx (if_neg hidx) Sum.inr_ne_inl
    simp [setBlock, Function.update_of_ne hne]
  · refine ⟨m.ok.congr fun h idx _ => ?_, m.sizes⟩
    by_cases hi : idx = (σ.syncs s).tabIdx
    · subst hi
      simp [tab]
    · rw [Function.update_of_ne hi]
  · simpa [tab, setBlock] using hun hs

/-- Replacing the entries beside the table. -/
theorem updates_setSync (m : σ.Memory) {sync : SyncClock}
    (hsize : sync.size = (σ.syncs s).size) (hidx : sync.tabIdx = (σ.syncs s).tabIdx) :
    Updates σ (σ.setSync s sync) s
      ⟨sync.size, sync.releaseStoreTid, sync.releaseStoreReused, sync.dirty₀, sync.dirty₁,
        (σ.view s).clock⟩ := by
  refine ⟨rfl, rfl, ?_, ?_, fun _ => rfl, ?_⟩
  · simp [view, setSync, tab, hsize, hidx]
  · intro s' hs'
    exact view_eq_of_clock (Function.update_of_ne hs' _ _) fun _ => rfl
  · have hholds : (σ.setSync s sync).holds = Function.update σ.holds (.inl s)
        (σ.holds (.inl s)) := by
      rw [holds_setSync, hsize, hidx]
      rfl
    refine ⟨?_, sizes_update m hholds (fun h hh => heldSize_setSync σ _ hh) fun h idx _ hs hh => ?_⟩
    · rw [hholds, Function.update_eq_self]
      exact m.ok
    · rw [m.sizes h _ idx hh hs]
      simp [heldSize, setSync, hsize]

theorem unshared_setSync (hun : σ.Unshared s) {sync : SyncClock}
    (hsize : sync.size = (σ.syncs s).size) (hidx : sync.tabIdx = (σ.syncs s).tabIdx) :
    (σ.setSync s sync).Unshared s := by
  intro hs
  simp only [setSync, Function.update_self, hsize] at hs
  simpa [tab, setSync, hidx] using hun hs

/-- What `Unshare` does to a shared object before it drops the reference to the old table. -/
def copied (σ : ClockState) (s : ℕ) : ClockState :=
  { σ with
    alloc := { σ.alloc.alloc.2 with
      block := Function.update σ.alloc.block σ.alloc.alloc.1
        ⟨fun i => if i < (σ.syncs s).size then (σ.tab s).clock i else ⟨0, 0⟩, 1⟩ }
    syncs := Function.update σ.syncs s { σ.syncs s with tabIdx := σ.alloc.alloc.1 } }

theorem unshare_eq (m : σ.Memory) (hs : (σ.syncs s).size ≠ 0)
    (href : 1 < (σ.tab s).ref) :
    σ.unshare s = (σ.copied s).unrefClockBlock (σ.syncs s).tabIdx := by
  have hne : (σ.syncs s).tabIdx ≠ σ.alloc.alloc.1 := by
    intro he
    exact m.ok.not_held (.inl s) ((holds_sync hs).trans (congrArg some he))
  have hshared : σ.isShared s = some true := by
    unfold isShared
    rw [if_neg hs, if_neg (by omega), decide_eq_true href]
  unfold unshare
  rw [hshared]
  simp [grow, copied, mapElems, setSync, setBlock, elem, tab, SyncClock.new, hne,
    Nat.pos_of_ne_zero hs]

/-- After `Unshare` the table of the object is its own, and nothing can be seen of it. -/
theorem unshare_spec (m : σ.Memory)
    (hbound : ∀ i, (σ.view s).size ≤ i → (σ.view s).clock i = ⟨0, 0⟩) :
    ∃ σ', σ.unshare s = some σ' ∧ Updates σ σ' s (σ.view s) ∧ σ'.Unshared s := by
  by_cases hs : (σ.syncs s).size = 0
  · refine ⟨σ, ?_, Updates.refl m s, fun h => absurd hs h⟩
    simp [unshare, isShared, hs]
  have hholds := holds_sync hs
  have hpos := m.ok.ref_pos hholds
  by_cases href : (σ.tab s).ref = 1
  · refine ⟨σ, ?_, Updates.refl m s, fun _ => href⟩
    simp [unshare, isShared, hs, href]
  have hlt : 1 < (σ.tab s).ref := by
    have : (σ.alloc.block (σ.syncs s).tabIdx).ref = (σ.tab s).ref := rfl
    omega
  have hnew := m.ok.not_held
  have halloc := m.ok.ok.allocated_alloc.1
  have hne : ∀ h idx, σ.holds h = some idx → idx ≠ σ.alloc.alloc.1 := by
    intro h idx hh he
    subst he
    exact hnew h hh
  have hcopied : MemoryOk (σ.copied s).alloc σ.holds := m.ok.alloc _
  obtain ⟨a, hunref, hmem, hclock, href', hall⟩ :=
    unrefClockBlock_eq (σ := σ.copied s) hcopied hholds
  have hidx : (a.block σ.alloc.alloc.1).ref = 1 := by
    rw [href' _ (Ne.symm (hne _ _ hholds))]
    simp [copied]
  have hclock' : ∀ j, j ≠ σ.alloc.alloc.1 → (a.block j).clock = (σ.alloc.block j).clock := by
    intro j hj
    rw [hclock]
    simp [copied, Function.update_of_ne hj]
  have hholds' : ClockState.holds { σ.copied s with alloc := a } =
      Function.update σ.holds (.inl s) (some σ.alloc.alloc.1) := by
    have hset : ClockState.holds { σ.copied s with alloc := a } =
        (σ.setSync s { σ.syncs s with tabIdx := σ.alloc.alloc.1 }).holds := rfl
    rw [hset, holds_setSync, if_neg hs]
  refine ⟨_, (unshare_eq m hs hlt).trans hunref, ⟨rfl, rfl, ?_, ?_, ?_, ⟨?_, ?_⟩⟩, fun _ => ?_⟩
  · have htab : (a.block σ.alloc.alloc.1).clock = (σ.view s).clock := by
      rw [hclock]
      funext i
      by_cases hi : i < (σ.syncs s).size
      · simp [copied, hi, view_clock hs]
      · rw [hbound i (not_lt.mp hi)]
        simp [copied, hi]
    rw [view_clock hs] at htab
    simp [view, tab, copied, hs, htab]
  · intro s' hs'
    refine view_eq_of_clock (Function.update_of_ne hs' _ _) fun hsize => hclock' _ ?_
    exact hne _ _ (holds_sync hsize)
  · intro t
    refine cachedClock_eq_of_clock rfl fun hcached => hclock' _ ?_
    exact hne (.inr t) _ (if_neg hcached)
  · have htwice : Function.update σ.holds (.inl s) (some σ.alloc.alloc.1) = Function.update
        (Function.update σ.holds (.inl s) none) (.inl s) (some σ.alloc.alloc.1) := by
      rw [Function.update_idem]
    rw [hholds', htwice]
    refine hmem.takeFresh (Function.update_self _ _ _) ?_ ?_ hidx
    · refine hall _ (Ne.symm (hne _ _ hholds)) ?_
      exact ⟨halloc.pos, halloc.lt, halloc.notMem⟩
    · intro h hh
      by_cases hhs : h = .inl s
      · subst hhs
        rw [Function.update_self] at hh
        cases hh
      · rw [Function.update_of_ne hhs] at hh
        exact hnew h hh
  · exact sizes_update m hholds' (fun h hh => heldSize_setSync σ _ hh)
      fun h _ _ hfree hh => absurd (Option.some.inj hfree ▸ hh) (hnew h)
  · simpa [tab, copied] using hidx

theorem grow_spec (m : σ.Memory) (hun : σ.Unshared s) {nclk : ℕ} (hpos : 0 < nclk) :
    Updates σ (σ.grow s nclk) s { σ.view s with size := nclk } ∧ (σ.grow s nclk).Unshared s := by
  unfold grow
  by_cases hs : (σ.syncs s).size = 0
  · simp only [hs, hpos, and_self, if_true]
    have hnone : σ.holds (.inl s) = none := if_pos hs
    have hmem := m.ok.alloc ⟨noElems, 1⟩
    have hne : ∀ h idx, σ.holds h = some idx → idx ≠ σ.alloc.alloc.1 := by
      intro h idx hh he
      subst he
      exact m.ok.not_held h hh
    have hholds := holds_setSync
      (({ σ with alloc := σ.alloc.alloc.2 } : ClockState).setBlock σ.alloc.alloc.1
        ⟨fun _ => ⟨0, 0⟩, 1⟩)
      s { σ.syncs s with tabIdx := σ.alloc.alloc.1, size := nclk }
    rw [if_neg hpos.ne'] at hholds
    refine ⟨⟨rfl, rfl, ?_, ?_, ?_, ⟨?_, ?_⟩⟩, fun _ => ?_⟩
    · simp only [view, setSync, tab, setBlock, hs, hpos.ne', Function.update_self, if_true,
        if_false]
      rfl
    · intro s' hs'
      refine view_eq_of_clock (Function.update_of_ne hs' _ _) fun hsize => ?_
      simp [setSync, setBlock, Function.update_of_ne (hne _ _ (holds_sync hsize))]
    · intro t
      refine cachedClock_eq_of_clock rfl fun hcached => ?_
      have hidx := hne (.inr t) (σ.threads t).cachedIdx (if_neg hcached)
      simp [setSync, setBlock, Function.update_of_ne hidx]
    · rw [hholds]
      have htake := hmem.takeFresh hnone ?_ m.ok.not_held ?_
      · simp only [setSync, setBlock, ClockAlloc.block_alloc]
        exact htake
      · have hall := m.ok.ok.allocated_alloc.1
        exact ⟨hall.pos, hall.lt, hall.notMem⟩
      · simp
    · exact sizes_update m hholds (fun h hh => heldSize_setSync _ _ hh)
        fun h idx _ hnew hh => absurd (hh.trans hnew.symm) (m.ok.not_held h)
    · simp [setSync, tab, setBlock]
  · simp only [hs, false_and, if_false]
    have hholds : (σ.setSync s { σ.syncs s with size := nclk }).holds =
        Function.update σ.holds (.inl s) (some (σ.syncs s).tabIdx) := by
      rw [holds_setSync, if_neg hpos.ne']
    refine ⟨⟨rfl, rfl, ?_, ?_, fun _ => rfl, ⟨?_, ?_⟩⟩, fun _ => ?_⟩
    · simp [view, setSync, tab, hs, hpos.ne']
    · intro s' hs'
      exact view_eq_of_clock (Function.update_of_ne hs' _ _) fun _ => rfl
    · rw [hholds, ← holds_sync hs, Function.update_eq_self]
      exact m.ok
    · refine sizes_update m hholds (fun h hh => heldSize_setSync σ _ hh) fun h idx hne htab hh => ?_
      rw [← holds_sync hs] at htab
      obtain rfl : (σ.syncs s).tabIdx = idx := Option.some.inj ((holds_sync hs).symm.trans htab)
      exact absurd (m.ok.exclusive (hun hs) htab hh) hne
    · simpa [setSync, tab] using hun hs

/-- After `Resize`, where it is needed, the object has room for the thread. -/
theorem makeRoom_spec (m : σ.Memory) {t : ℕ}
    (hbound : ∀ i, (σ.view s).size ≤ i → (σ.view s).clock i = ⟨0, 0⟩) :
    ∃ σ', σ.makeRoom t s = some σ' ∧
      Updates σ σ' s { σ.view s with size := max (σ.view s).size (σ.threads t).nclk } := by
  unfold makeRoom
  by_cases hlt : (σ.syncs s).size < (σ.threads t).nclk
  · obtain ⟨σ₁, hσ₁, hup, hun⟩ := unshare_spec m hbound
    obtain ⟨hgrow, -⟩ := grow_spec hup.memory hun (Nat.zero_lt_of_lt hlt)
    refine ⟨σ₁.grow s (σ.threads t).nclk, ?_, ?_⟩
    · rw [if_pos hlt]
      unfold resize
      rw [hσ₁]
      rfl
    · have htrans := hup.trans hgrow
      rw [hup.self] at htrans
      rw [view_size, max_eq_right hlt.le]
      exact htrans
  · refine ⟨σ, if_neg hlt, ?_⟩
    rw [view_size, max_eq_left (not_lt.mp hlt)]
    exact Updates.refl m s

theorem flushEntry_spec (m : σ.Memory) (hun : σ.Unshared s)
    (hs : (σ.syncs s).size ≠ 0) {dirty : Option Dirty}
    (hlt : ∀ d ∈ dirty, d.tid < (σ.view s).size) :
    ∃ σ', σ.flushEntry s dirty = some σ' ∧
      Updates σ σ' s { σ.view s with clock := SyncView.flush (σ.view s).clock dirty } ∧
      σ'.Unshared s := by
  cases dirty with
  | none => exact ⟨σ, rfl, Updates.refl m s, hun⟩
  | some dirty =>
    have hlt := hlt dirty rfl
    refine ⟨_, if_pos hlt, ?_⟩
    have hset := updates_setBlock m hun hs
      (Function.update (σ.tab s).clock dirty.tid { σ.elem s dirty.tid with epoch := dirty.epoch })
    rw [view_clock hs]
    exact hset

theorem Updates.size_ne {σ' : ClockState} {v : SyncView} (h : Updates σ σ' s v) (hv : v.size ≠ 0) :
    (σ'.syncs s).size ≠ 0 := by
  rw [← view_size, h.self]
  exact hv

theorem flushDirty_spec (m : σ.Memory) (hun : σ.Unshared s)
    (hs : (σ.syncs s).size ≠ 0) (hlt₀ : ∀ d ∈ (σ.view s).dirty₀, d.tid < (σ.view s).size)
    (hlt₁ : ∀ d ∈ (σ.view s).dirty₁, d.tid < (σ.view s).size) :
    ∃ σ', σ.flushDirty s = some σ' ∧
      Updates σ σ' s { σ.view s with
        dirty₀ := none
        dirty₁ := none
        clock := SyncView.flush (SyncView.flush (σ.view s).clock (σ.view s).dirty₀)
          (σ.view s).dirty₁ } ∧
      σ'.Unshared s := by
  obtain ⟨σ₁, hσ₁, hup₁, hun₁⟩ := flushEntry_spec m hun hs hlt₀
  have hs₁ := hup₁.size_ne hs
  have hdirty : (σ₁.syncs s).dirty₁ = (σ.view s).dirty₁ := congrArg SyncView.dirty₁ hup₁.self
  have hlt₁' : ∀ d ∈ (σ₁.syncs s).dirty₁, d.tid < (σ₁.view s).size := by
    rw [hdirty, hup₁.self]
    exact hlt₁
  obtain ⟨σ₂, hσ₂, hup₂, hun₂⟩ := flushEntry_spec hup₁.memory hun₁ hs₁ hlt₁'
  have hview : σ₂.view s = { σ.view s with
      clock := SyncView.flush (SyncView.flush (σ.view s).clock (σ.view s).dirty₀)
        (σ.view s).dirty₁ } := by
    rw [hup₂.self, hup₁.self, hdirty]
  have hset : Updates σ₂ (σ₂.setSync s { σ₂.syncs s with dirty₀ := none, dirty₁ := none }) s
      { σ₂.view s with dirty₀ := none, dirty₁ := none } :=
    updates_setSync hup₂.memory rfl rfl
  rw [hview] at hset
  refine ⟨_, ?_, (hup₁.trans hup₂).trans hset, unshared_setSync hun₂ rfl rfl⟩
  unfold flushDirty
  have hflush : σ.flushEntry s (σ.syncs s).dirty₀ = some σ₁ := hσ₁
  rw [hflush, Option.bind_eq_bind, Option.bind_some, hσ₂]
  rfl

/-- A change of the counter of a block cannot be seen. -/
theorem clock_setRef (σ : ClockState) (idx ref j : ℕ) :
    ((σ.setBlock idx { σ.alloc.block idx with ref := ref }).alloc.block j).clock =
      (σ.alloc.block j).clock := by
  by_cases hj : j = idx
  · subst hj
    simp [setBlock]
  · simp [setBlock, hj]

/-- An empty object takes the block that a thread caches. -/
theorem updates_takeCached (m : σ.Memory) {t : ℕ} (hs : (σ.syncs s).size = 0)
    (hcached : (σ.threads t).cachedIdx ≠ 0) (hsize : (σ.threads t).cachedSize ≠ 0)
    {sync : SyncClock} (hidx : sync.tabIdx = (σ.threads t).cachedIdx)
    (hsync : sync.size = (σ.threads t).cachedSize) {cb : ClockBlock}
    (hcb : cb = { σ.alloc.block sync.tabIdx with ref := (σ.alloc.block sync.tabIdx).ref + 1 }) :
    Updates σ ((σ.setSync s sync).setBlock sync.tabIdx cb) s
      ⟨sync.size, sync.releaseStoreTid, sync.releaseStoreReused, sync.dirty₀, sync.dirty₁,
        σ.cachedClock t⟩ := by
  subst hcb
  have hnone : σ.holds (.inl s) = none := if_pos hs
  have hhold : σ.holds (.inr t) = some sync.tabIdx := by
    rw [hidx]
    exact if_neg hcached
  have hclock := clock_setRef (σ.setSync s sync) sync.tabIdx ((σ.alloc.block sync.tabIdx).ref + 1)
  have hholds := holds_setSync σ s sync
  rw [if_neg (by rw [hsync]; exact hsize)] at hholds
  refine ⟨rfl, rfl, ?_, fun s' hs' => ?_, fun u => ?_, ⟨?_, ?_⟩⟩
  · have htab : sync.size ≠ 0 := by
      rw [hsync]
      exact hsize
    simp [view, cachedClock, setSync, setBlock, tab, htab, hcached, hidx]
  · exact view_eq_of_clock (Function.update_of_ne hs' _ _) fun _ => hclock _
  · exact cachedClock_eq_of_clock rfl fun _ => hclock _
  · rw [holds_setBlock, hholds]
    exact m.ok.share hnone hhold rfl
  · refine sizes_update m hholds (fun h hh => heldSize_setSync σ _ hh) fun h idx _ hi hh => ?_
    obtain rfl : sync.tabIdx = idx := Option.some.inj hi
    rw [m.sizes h _ _ hh hhold]
    simp [heldSize, setSync, setBlock, hsync]

/-- An object that is reset drops its reference and is empty. -/
theorem reset_spec (m : σ.Memory) (s : ℕ) : ∃ σ', σ.reset s = some σ' ∧
    Updates σ σ' s ⟨0, none, 0, none, none, noElems⟩ := by
  have hmem : ∃ a, (if (σ.syncs s).size ≠ 0 then σ.unrefClockBlock (σ.syncs s).tabIdx else some σ) =
      some { σ with alloc := a } ∧ MemoryOk a (Function.update σ.holds (.inl s) none) ∧
        ∀ j, (a.block j).clock = (σ.alloc.block j).clock := by
    by_cases hs : (σ.syncs s).size = 0
    · have hnone : σ.holds (.inl s) = none := if_pos hs
      refine ⟨σ.alloc, if_neg (not_not.mpr hs), ?_, fun _ => rfl⟩
      rw [← hnone, Function.update_eq_self]
      exact m.ok
    · obtain ⟨a, hunref, hmem, hclock, -⟩ := unrefClockBlock_eq m.ok (holds_sync hs)
      exact ⟨a, (if_pos hs).trans hunref, hmem, hclock⟩
  obtain ⟨a, hunref, hmem, hclock⟩ := hmem
  refine ⟨({ σ with alloc := a } : ClockState).setSync s .new, ?_, rfl, rfl, ?_, fun s' hs' => ?_,
    fun t => cachedClock_eq_of_clock rfl fun _ => hclock _, ?_⟩
  · unfold reset
    simp only [hunref, Option.bind_eq_bind, Option.bind_some]
  · simp [view, setSync, SyncClock.new]
  · exact view_eq_of_clock (Function.update_of_ne hs' _ _) fun _ => hclock _
  · have hholds : (({ σ with alloc := a } : ClockState).setSync s .new).holds =
        Function.update σ.holds (.inl s) none := holds_setSync _ s _
    refine ⟨?_, sizes_update m hholds (fun h hh => ?_) fun h idx _ ho => ?_⟩
    · rw [hholds]
      exact hmem
    · exact heldSize_setSync { σ with alloc := a } _ hh
    · cases ho

/-- A thread changes, but not what it has cached. -/
theorem Memory.setThread (m : σ.Memory) {t : ℕ} {thr : ThreadClock}
    (hidx : thr.cachedIdx = (σ.threads t).cachedIdx)
    (hsize : thr.cachedSize = (σ.threads t).cachedSize) :
    (σ.setThread t thr).Memory := by
  have hholds := holds_setThread σ t thr
  refine ⟨?_, sizes_update m hholds (fun h hh => heldSize_setThread _ _ hh) fun h idx _ hi hh => ?_⟩
  · have hsame : (if thr.cachedIdx = 0 then none else some thr.cachedIdx) = σ.holds (.inr t) := by
      rw [hidx]
      rfl
    rw [hholds, hsame, Function.update_eq_self]
    exact m.ok
  · rw [hidx] at hi
    rw [m.sizes h (.inr t) idx hh hi]
    simp [heldSize, ClockState.setThread, hsize]

/-- A thread without a cached block takes the block of an object. -/
theorem memory_cache (m : σ.Memory) {t : ℕ} (hs : (σ.syncs s).size ≠ 0)
    (hcached : (σ.threads t).cachedIdx = 0) {thr : ThreadClock}
    (hidx : thr.cachedIdx = (σ.syncs s).tabIdx) (hsize : thr.cachedSize = (σ.syncs s).size) :
    ((σ.setBlock (σ.syncs s).tabIdx
      { σ.tab s with ref := (σ.tab s).ref + 1 }).setThread t thr).Memory := by
  have hnone : σ.holds (.inr t) = none := if_pos hcached
  have hhold := holds_sync hs
  have hpos : (σ.syncs s).tabIdx ≠ 0 := (m.ok.allocated _ _ hhold).pos.ne'
  have hholds := holds_setThread
    (σ.setBlock (σ.syncs s).tabIdx { σ.tab s with ref := (σ.tab s).ref + 1 }) t thr
  rw [hidx, if_neg hpos, holds_setBlock] at hholds
  refine ⟨?_, ?_⟩
  · rw [hholds]
    exact m.ok.share hnone hhold rfl
  · refine sizes_update m hholds (fun h hh => heldSize_setThread _ _ hh) fun h idx _ hi hh => ?_
    obtain rfl : (σ.syncs s).tabIdx = idx := Option.some.inj hi
    rw [m.sizes h _ _ hh hhold]
    simp [heldSize, setThread, hsize]

end ClockState

end Prd.Runtime
