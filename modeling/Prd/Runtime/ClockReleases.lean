import Prd.Foundation.LoggedClocks
import Prd.Runtime.ClockVectors

/-!
# Releases of the optimized clocks

The clocks stand for plain vector clocks. A flag says that its thread knows all of the
table, and an object that one thread has stored says nothing that the thread does not know.
A release does to the vectors what a plain release does.
-/
namespace Prd.Runtime

open Prd.Foundation

/-- The epoch that a line adds. -/
def LogLine.node : LogLine → Option (ℕ × ℕ)
  | .epochInc thread _ targetEpoch _ => some (thread, targetEpoch)
  | .happensBeforeEdge _ _ _ _ _ => none
  | .event _ => none

def LogLine.edge : LogLine → Option ((ℕ × ℕ) × (ℕ × ℕ))
  | .epochInc _ _ _ _ => none
  | .happensBeforeEdge sourceThread sourceEpoch targetThread targetEpoch _ =>
    some ((sourceThread, sourceEpoch), (targetThread, targetEpoch))
  | .event _ => none

/-- Epochs grow, and comments are short. -/
def LogLine.Ok : LogLine → Prop
  | .epochInc _ sourceEpoch targetEpoch comment =>
    sourceEpoch < targetEpoch ∧ comment.length ≤ 2 ^ 13
  | .happensBeforeEdge _ _ _ _ comment => comment.length ≤ 2 ^ 13
  | .event _ => True

/-- The ends of an edge are logged before it. -/
structure LinesOk (lines : List LogLine) : Prop where
  ok : ∀ line ∈ lines, line.Ok
  known : ∀ l, l <+: lines → ∀ e ∈ l.filterMap LogLine.edge,
    e.1 ∈ l.filterMap LogLine.node ∧ e.2 ∈ l.filterMap LogLine.node

theorem linesOk_nil : LinesOk [] where
  ok := by simp
  known := by
    intro l hl
    rw [List.prefix_nil.mp hl]
    simp

theorem LinesOk.append {lines new : List LogLine} (h : LinesOk lines) (hok : ∀ line ∈ new, line.Ok)
    (hnew : ∀ e ∈ new.filterMap LogLine.edge, e.1 ∈ lines.filterMap LogLine.node ∧
      e.2 ∈ lines.filterMap LogLine.node) : LinesOk (lines ++ new) where
  ok := by
    intro line hline
    rcases List.mem_append.mp hline with hline | hline
    · exact h.ok line hline
    · exact hok line hline
  known := by
    intro l hl e he
    rcases List.prefix_or_prefix_of_prefix hl (List.prefix_append lines new) with hold | ⟨l', rfl⟩
    · exact h.known l hold e he
    · have hends : e.1 ∈ lines.filterMap LogLine.node ∧ e.2 ∈ lines.filterMap LogLine.node := by
        rw [List.filterMap_append] at he
        rcases List.mem_append.mp he with he | he
        · exact h.known lines (List.prefix_refl lines) e he
        · have hsub := ((List.prefix_append_right_inj lines).mp hl).sublist.filterMap LogLine.edge
          exact hnew e (hsub.subset he)
      rw [List.filterMap_append]
      exact ⟨List.mem_append_left _ hends.1, List.mem_append_left _ hends.2⟩

/-- The clock of a thread stands for its vector. -/
structure ThreadClock.Shows (thr : ThreadClock) (t : ℕ) (V : ℕ → ℕ) (lastAcquire : ℕ) : Prop where
  tid : thr.tid = t
  prdTrace : thr.prdTrace = true
  reused : thr.reused ≠ 0
  globalAcquire : thr.globalAcquire = 0
  clk : thr.clk = V
  lastAcquire : thr.lastAcquire = lastAcquire
  lt_nclk : t < thr.nclk
  bound : ∀ i, thr.nclk ≤ i → V i = 0

/-- A thread whose flag is set knows all of the table. -/
def FlagsOk (reused : ℕ → ℕ) (clock : ℕ → ℕ → ℕ) (tab : ℕ → ClockElem) : Prop :=
  ∀ t, (tab t).reused = reused t → ∀ i, (tab i).epoch ≤ clock t i

theorem FlagsOk.mono {reused : ℕ → ℕ} {clock clock' : ℕ → ℕ → ℕ} {tab : ℕ → ClockElem}
    (h : FlagsOk reused clock tab) (hle : ∀ u i, clock u i ≤ clock' u i) :
    FlagsOk reused clock' tab :=
  fun u hu i => (h u hu i).trans (hle u i)

theorem FlagsOk.withFlag {reused : ℕ → ℕ} {clock : ℕ → ℕ → ℕ} {tab : ℕ → ClockElem}
    (h : FlagsOk reused clock tab) {t : ℕ} (ht : ∀ i, (tab i).epoch ≤ clock t i) (r : ℕ) :
    FlagsOk reused clock (withFlag tab t r) := by
  intro u hu i
  rw [epoch_withFlag]
  by_cases hut : u = t
  · subst hut
    exact ht i
  · rw [withFlag_of_ne tab r hut] at hu
    exact h u hu i

/-- A cached table is the vector of its thread but for the thread's own time. -/
structure CachedOk (t size : ℕ) (V : ℕ → ℕ) (tab : ℕ → ClockElem) : Prop where
  size_ne : size ≠ 0
  bound : ∀ i, size ≤ i → tab i = ⟨0, 0⟩
  elem : ∀ i, i ≠ t → (tab i).epoch = V i
  pos : 0 < (tab t).epoch
  le : (tab t).epoch ≤ V t

theorem CachedOk.withFlag {t size : ℕ} {V : ℕ → ℕ} {tab : ℕ → ClockElem} (h : CachedOk t size V tab)
    {u : ℕ} (hu : u < size) (r : ℕ) : CachedOk t size V (withFlag tab u r) where
  size_ne := h.size_ne
  bound := by
    intro i hi
    have hiu : i ≠ u := by
      intro he
      subst he
      exact absurd hi (not_le.mpr hu)
    rw [withFlag_of_ne tab r hiu]
    exact h.bound i hi
  elem := by
    intro i hi
    rw [epoch_withFlag]
    exact h.elem i hi
  pos := by
    rw [epoch_withFlag]
    exact h.pos
  le := by
    rw [epoch_withFlag]
    exact h.le

namespace ClockState

def reused (σ : ClockState) (t : ℕ) : ℕ := (σ.threads t).reused

/-- The clocks and their lines stand for a system of logged vectors. -/
structure Stands (σ : ClockState) (c : LoggedClocks ℕ ℕ) : Prop where
  memory : σ.Memory
  thread : ∀ t, (σ.threads t).Shows t (c.clock t) (c.lastAcquire t)
  sync : ∀ s, (σ.view s).Shows (c.sync s)
  flags : ∀ s, FlagsOk σ.reused c.clock (σ.view s).clock
  owner : ∀ s t, (σ.view s).releaseStoreTid = some t → (σ.view s).releaseStoreReused = σ.reused t →
    ∀ i, c.sync s i ≤ c.clock t i
  nodes : c.nodes = σ.lines.filterMap LogLine.node
  edges : ∀ e, e ∈ c.edges ↔ e ∈ σ.lines.filterMap LogLine.edge
  lines : LinesOk σ.lines

/-- What a thread has cached can be used for its next release. -/
def CacheOk (σ : ClockState) (c : LoggedClocks ℕ ℕ) (t : ℕ) : Prop :=
  (σ.threads t).cachedIdx ≠ 0 →
    CachedOk t (σ.threads t).cachedSize (c.clock t) (σ.cachedClock t) ∧
      FlagsOk σ.reused c.clock (σ.cachedClock t)

/-- The clocks between two operations. -/
structure Refines (σ : ClockState) (c : LoggedClocks ℕ ℕ) : Prop extends σ.Stands c where
  cached : ∀ t, σ.CacheOk c t

variable {σ σ' : ClockState} {c : LoggedClocks ℕ ℕ} {s t : ℕ} {v : SyncView} {V : ℕ → ℕ}

/-- What is known of one object changes. -/
theorem Refines.updates (r : σ.Refines c) (u : Updates σ σ' s v) (hV : v.Shows V)
    (hflags : FlagsOk σ.reused c.clock v.clock)
    (howner : ∀ t, v.releaseStoreTid = some t → v.releaseStoreReused = σ.reused t →
      ∀ i, V i ≤ c.clock t i) (released : ℕ → ℕ) :
    σ'.Refines { c with sync := Function.update c.sync s V, released := released } := by
  have hreused : σ'.reused = σ.reused := by
    unfold reused
    rw [u.threads]
  refine ⟨⟨u.memory, ?_, fun s' => ?_, fun s' => ?_, fun s' => ?_, ?_, ?_, ?_⟩, ?_⟩
  · rw [u.threads]
    exact r.thread
  · by_cases hs : s' = s
    · subst hs
      rw [u.self]
      simpa using hV
    · rw [u.other s' hs]
      simpa [hs] using r.sync s'
  · rw [hreused]
    by_cases hs : s' = s
    · subst hs
      rw [u.self]
      exact hflags
    · rw [u.other s' hs]
      exact r.flags s'
  · rw [hreused]
    by_cases hs : s' = s
    · subst hs
      rw [u.self]
      simpa using howner
    · rw [u.other s' hs]
      simpa [hs] using r.owner s'
  · rw [u.lines]
    exact r.nodes
  · rw [u.lines]
    exact r.edges
  · rw [u.lines]
    exact r.lines
  · intro t
    unfold CacheOk
    rw [u.threads, u.cached, hreused]
    exact r.cached t

/-- Nothing that is known changes. -/
theorem Refines.updates_same (r : σ.Refines c) (u : Updates σ σ' s v) (hV : v.Shows (c.sync s))
    (hflags : FlagsOk σ.reused c.clock v.clock)
    (howner : v.releaseStoreTid = (σ.view s).releaseStoreTid ∧
      v.releaseStoreReused = (σ.view s).releaseStoreReused) : σ'.Refines c := by
  have hup :=
    r.updates u hV hflags (fun t h h' => r.owner s t (howner.1 ▸ h) (howner.2 ▸ h')) c.released
  rw [Function.update_eq_self] at hup
  exact hup

/-- Flags that are reset say nothing. -/
theorem Refines.flagsOk_of_reset (r : σ.Refines c) (tab : ℕ → ClockElem)
    (htab : ∀ i, (tab i).reused = 0) : FlagsOk σ.reused c.clock tab := by
  intro t ht
  exact absurd (ht.symm.trans (htab t)) (r.thread t).reused

theorem Refines.makeRoom (r : σ.Refines c) (t s : ℕ) : ∃ σ', σ.makeRoom t s = some σ' ∧
    Updates σ σ' s { σ.view s with size := max (σ.view s).size (σ.threads t).nclk } ∧
    σ'.Refines c := by
  obtain ⟨σ', hok, hup⟩ := makeRoom_spec (t := t) r.memory (r.sync s).bound
  exact ⟨σ', hok, hup, r.updates_same hup ((r.sync s).of_size_le (le_max_left _ _)) (r.flags s)
    ⟨rfl, rfl⟩⟩

theorem Refines.lt_of_not_acquired (r : σ.Refines c) (hs : (σ.syncs s).size ≠ 0)
    (h : σ.hasAcquiredAfterRelease t s = false) :
    0 < ((σ.view s).clock t).epoch ∧ c.lastAcquire t < c.sync s t := by
  have hthr := r.thread t
  unfold hasAcquiredAfterRelease at h
  simp only [hthr.tid, hthr.lastAcquire, hthr.globalAcquire, elem_eq hs, Bool.or_eq_false_iff,
    decide_eq_false_iff_not, not_le] at h
  exact ⟨h.2, h.1.trans_le ((r.sync s).le t)⟩

/-- A thread that has learned nothing since its release to an object updates its own entry. -/
theorem Refines.updateCurrentThread (r : σ.Refines c) (hc : c.Coherent) (hs : (σ.syncs s).size ≠ 0)
    (h : σ.hasAcquiredAfterRelease t s = false) :
    ∃ σ' v, σ.updateCurrentThread t s = some σ' ∧ Updates σ σ' s v ∧
      v.Shows (fun i => max (c.sync s i) (c.clock t i)) ∧ FlagsOk σ.reused c.clock v.clock ∧
      v.releaseStoreTid = (σ.view s).releaseStoreTid ∧
      v.releaseStoreReused = (σ.view s).releaseStoreReused := by
  have hthr := r.thread t
  obtain ⟨hpos, hlt⟩ := r.lt_of_not_acquired hs h
  have hle : c.sync s t ≤ c.clock t t := (hc.le_released t _ (.sync s)).trans (hc.released_le t)
  obtain ⟨σ', v, hok, hup, hshows, htid, hreused, hflags⟩ := updateCurrentThread_spec r.memory hs
    (r.sync s) hthr.tid hpos (by rw [hthr.clk]; exact ((r.sync s).le t).trans hle)
  rw [hthr.clk, hc.update_eq_max hlt] at hshows
  refine ⟨σ', v, hok, hup, hshows, ?_, htid, hreused⟩
  rcases hflags with hsame | hreset
  · rw [hsame]
    exact r.flags s
  · exact r.flagsOk_of_reset _ hreset

theorem Refines.releaseOwn (r : σ.Refines c) (hc : c.Coherent) (hs : (σ.syncs s).size ≠ 0)
    (h : σ.hasAcquiredAfterRelease t s = false) :
    ∃ σ', σ.releaseOwn t s = some σ' ∧ σ'.Refines (c.release t s) := by
  have hthr := r.thread t
  obtain ⟨σ₁, v, hok, hup, hshows, hflags, htid, hreused⟩ := r.updateCurrentThread hc hs h
  unfold ClockState.releaseOwn
  simp only [hok, Option.bind_eq_bind, Option.bind_some]
  have hview : (σ₁.syncs s).releaseStoreTid = v.releaseStoreTid ∧
      (σ₁.syncs s).releaseStoreReused = v.releaseStoreReused := by
    rw [← hup.self]
    exact ⟨rfl, rfl⟩
  by_cases hown : (σ₁.syncs s).releaseStoreTid ≠ some (σ.threads t).tid ∨
      (σ₁.syncs s).releaseStoreReused ≠ (σ.threads t).reused
  · rw [if_pos hown]
    have hset : Updates σ₁ (σ₁.setSync s { σ₁.syncs s with releaseStoreTid := none }) s
        { σ₁.view s with releaseStoreTid := none } := updates_setSync hup.memory rfl rfl
    rw [hup.self] at hset
    refine ⟨_, rfl, r.updates (hup.trans hset) ?_ hflags (fun t ht => by cases ht) _⟩
    exact ⟨hshows.bound, hshows.entry, hshows.elem, hshows.distinct, hshows.first⟩
  · rw [if_neg hown]
    push Not at hown
    refine ⟨_, rfl, r.updates hup hshows hflags (fun u hu hu' i => ?_) _⟩
    rw [hview.1, hthr.tid] at hown
    obtain rfl : u = t := Option.some.inj (hu.symm.trans hown.1)
    exact max_le (r.owner s u (htid ▸ hu) (hreused ▸ hu') i) le_rfl

theorem Refines.le_of_isAlreadyAcquired (r : σ.Refines c) (hs : (σ.syncs s).size ≠ 0)
    (h : σ.isAlreadyAcquired t s = true) (i : ℕ) : c.sync s i ≤ c.clock t i := by
  have hthr := r.thread t
  unfold isAlreadyAcquired at h
  simp only [hthr.tid, elem_eq hs, Bool.and_eq_true, beq_iff_eq] at h
  obtain ⟨⟨hflag, h₀⟩, h₁⟩ := h
  have hknows : ∀ dirty : Option Dirty, knowsEntry (σ.threads t) dirty = true → ∀ d ∈ dirty,
      d.epoch ≤ c.clock t d.tid := by
    intro dirty hd d he
    obtain rfl : dirty = some d := he
    rw [← hthr.clk]
    exact of_decide_eq_true hd
  by_cases hi : ∃ d ∈ (σ.view s).dirties, d.tid = i
  · obtain ⟨d, hd, rfl⟩ := hi
    rw [((r.sync s).entry d hd).1]
    rcases List.mem_append.mp hd with hd | hd
    · exact hknows _ h₀ d (Option.mem_toList.mp hd)
    · exact hknows _ h₁ d (Option.mem_toList.mp hd)
  · rw [← (r.sync s).elem i fun d hd he => hi ⟨d, hd, he⟩]
    exact r.flags s t hflag i

theorem Refines.releaseAll (r : σ.Refines c) (hle : (σ.threads t).nclk ≤ (σ.view s).size) :
    ∃ σ', σ.releaseAll t s = some σ' ∧ σ'.Refines (c.release t s) := by
  have hthr := r.thread t
  have ht : t < (σ.view s).size := hthr.lt_nclk.trans_le hle
  have hs : (σ.syncs s).size ≠ 0 := Nat.ne_zero_of_lt ht
  obtain ⟨σ₁, hσ₁, hup₁, hun₁⟩ := unshare_spec r.memory (r.sync s).bound
  have hs₁ := hup₁.size_ne hs
  have r₁ := r.updates_same hup₁ (r.sync s) (r.flags s) ⟨rfl, rfl⟩
  obtain ⟨σ₂, v₂, hσ₂, hup₂, hun₂, hv₂, -⟩ := flushDirty_shows r₁.memory hun₁ hs₁ (r₁.sync s)
  rw [hup₁.self] at hv₂
  have hs₂ : (σ₂.syncs s).size ≠ 0 := by
    refine hup₂.size_ne ?_
    rw [hv₂]
    exact hs
  have hsize : (σ₂.view s).size = (σ.view s).size := by rw [hup₂.self, hv₂]
  have hdirty : (σ₂.view s).dirty₀ = none ∧ (σ₂.view s).dirty₁ = none := by
    rw [hup₂.self, hv₂]
    exact ⟨rfl, rfl⟩
  have hepoch : ∀ i, ((σ₂.view s).clock i).epoch = c.sync s i := by
    intro i
    rw [hup₂.self, hv₂]
  have hzero : ∀ i, (σ.view s).size ≤ i → max (c.sync s i) (c.clock t i) = 0 := by
    intro i hi
    rw [(r.sync s).eq_zero hi, hthr.bound i (hle.trans hi), max_self]
  obtain ⟨hup₃, hun₃⟩ := updates_plain (V := fun i => max (c.sync s i) (c.clock t i))
    (f := fun i ce => ⟨max ce.epoch ((σ.threads t).clk i), 0⟩)
    { σ₂.syncs s with releaseStoreTid := none, releaseStoreReused := 0 }
    hup₂.memory hun₂ hs₂ rfl rfl hdirty.1 hdirty.2
    (fun i _ => by rw [hepoch, hthr.clk])
    (fun i hi => by
      rw [hsize] at hi
      rw [hup₂.self, hv₂, hzero i hi]
      dsimp only
      rw [(r.sync s).bound i hi, (r.sync s).eq_zero hi])
  rw [hsize] at hup₃
  have hup := (hup₁.trans hup₂).trans hup₃
  have hreset := r.flagsOk_of_reset (fun i => ⟨max (c.sync s i) (c.clock t i), 0⟩) fun _ => rfl
  have r₃ := r.updates hup (SyncView.shows_plain none 0 hzero) hreset (fun u hu => by cases hu)
    (Function.update c.released t (c.clock t t))
  have hs₃ := hup₃.size_ne hs
  simp only [ClockState.releaseAll, hσ₁, hσ₂, Option.bind_eq_bind, Option.bind_some]
  by_cases hacq : σ₁.isAlreadyAcquired t s = true
  · rw [if_pos hacq]
    have hknown := r₁.le_of_isAlreadyAcquired hs₁ hacq
    have hflag := updates_setFlag hup₃.memory hun₃ hs₃ t (σ.threads t).reused
    rw [hthr.tid]
    refine ⟨_, rfl, r₃.updates_same hflag ((r₃.sync s).setFlag ?_ _) ((r₃.flags s).withFlag ?_ _)
      ⟨rfl, rfl⟩⟩
    · rw [hup₃.self]
      exact ht
    · intro i
      rw [hup₃.self]
      exact max_le (hknown i) le_rfl
  · rw [if_neg hacq]
    exact ⟨_, rfl, r₃⟩

theorem cachedClock_eq (ht : (σ.threads t).cachedIdx ≠ 0) :
    σ.cachedClock t = (σ.alloc.block (σ.threads t).cachedIdx).clock := if_neg ht

/-- A thread that knows the table of an object sets its flag there, wherever the table is seen. -/
theorem Stands.setFlag (r : σ.Stands c) (ht : t < (σ.view s).size)
    (hknown : ∀ i, ((σ.view s).clock i).epoch ≤ c.clock t i) (n : ℕ) :
    (σ.setElem s t { σ.elem s t with reused := n }).Stands c := by
  have hs : (σ.syncs s).size ≠ 0 := Nat.ne_zero_of_lt ht
  have hholds := holds_sync hs
  rw [view_clock hs] at hknown
  have hmemory : (σ.setElem s t { σ.elem s t with reused := n }).Memory := by
    refine ⟨r.memory.ok.congr fun h idx _ => ?_, r.memory.sizes⟩
    by_cases hi : idx = (σ.syncs s).tabIdx
    · subst hi
      simp [tab]
    · rw [Function.update_of_ne hi]
  have hview : ∀ s', (σ.setElem s t { σ.elem s t with reused := n }).view s' = σ.view s' ∨
      (σ.setElem s t { σ.elem s t with reused := n }).view s' = (σ.view s').setFlag t n ∧
        t < (σ.view s').size ∧ ∀ i, ((σ.view s').clock i).epoch ≤ c.clock t i := by
    intro s'
    by_cases hs' : (σ.syncs s').size ≠ 0 ∧ (σ.syncs s').tabIdx = (σ.syncs s).tabIdx
    · right
      have hclock : (σ.view s').clock = (σ.tab s).clock := by
        rw [view_clock hs'.1, tab, tab, hs'.2]
      have hsize : (σ.view s').size = (σ.view s).size := by
        have hholds' := holds_sync hs'.1
        rw [hs'.2] at hholds'
        exact r.memory.sizes (.inl s') (.inl s) _ hholds' hholds
      rw [hclock, hsize]
      refine ⟨?_, ht, hknown⟩
      unfold SyncView.setFlag withFlag
      rw [hclock]
      simp [view, setElem, setBlock, tab, hs'.1, hs'.2, elem]
    · left
      refine view_eq_of_clock rfl fun hsize => ?_
      have hne : (σ.syncs s').tabIdx ≠ (σ.syncs s).tabIdx := fun he => hs' ⟨hsize, he⟩
      simp [setElem, setBlock, Function.update_of_ne hne]
  refine ⟨hmemory, r.thread, fun s' => ?_, fun s' => ?_, r.owner, r.nodes, r.edges, r.lines⟩
  · rcases hview s' with hv | ⟨hv, hlt, -⟩
    · rw [hv]
      exact r.sync s'
    · rw [hv]
      exact (r.sync s').setFlag hlt n
  · rcases hview s' with hv | ⟨hv, -, hknown'⟩
    · rw [hv]
      exact r.flags s'
    · rw [hv]
      exact (r.flags s').withFlag hknown' n

theorem CacheOk.setFlag {u : ℕ} (h : σ.CacheOk c u) (m : σ.Memory) (ht : t < (σ.view s).size)
    (hknown : ∀ i, ((σ.view s).clock i).epoch ≤ c.clock t i) (n : ℕ) :
    (σ.setElem s t { σ.elem s t with reused := n }).CacheOk c u := by
  intro hu
  have hu : (σ.threads u).cachedIdx ≠ 0 := hu
  have hs : (σ.syncs s).size ≠ 0 := Nat.ne_zero_of_lt ht
  rw [view_clock hs] at hknown
  obtain ⟨hcached, hflags⟩ := h hu
  by_cases hidx : (σ.threads u).cachedIdx = (σ.syncs s).tabIdx
  · have hclock : σ.cachedClock u = (σ.tab s).clock := by rw [cachedClock_eq hu, hidx, tab]
    have hset : (σ.setElem s t { σ.elem s t with reused := n }).cachedClock u =
        withFlag (σ.cachedClock u) t n := by
      rw [hclock]
      unfold withFlag
      rw [hidx] at hu
      simp [cachedClock, setElem, setBlock, elem, hidx, hu]
    have hsize : (σ.threads u).cachedSize = (σ.view s).size := by
      have hholds : σ.holds (.inr u) = some (σ.threads u).cachedIdx := if_neg hu
      rw [hidx] at hholds
      exact m.sizes (.inr u) (.inl s) _ hholds (holds_sync hs)
    rw [hset]
    refine ⟨hcached.withFlag (hsize ▸ ht) n, hflags.withFlag (fun i => ?_) n⟩
    rw [hclock]
    exact hknown i
  · have hsame :
        (σ.setElem s t { σ.elem s t with reused := n }).cachedClock u = σ.cachedClock u := by
      refine cachedClock_eq_of_clock rfl fun _ => ?_
      simp [setElem, setBlock, Function.update_of_ne hidx]
    rw [hsame]
    exact ⟨hcached, hflags⟩

theorem Refines.storeAll (r : σ.Refines c) (hle : (σ.threads t).nclk ≤ (σ.view s).size) :
    ∃ σ' v, σ.storeAll t s = some σ' ∧ Updates σ σ' s v ∧ σ'.Refines (c.releaseStore t s) ∧
      v = (SyncView.plain (σ.view s).size (some t) (σ.reused t) (c.clock t)).setFlag t
      (σ.reused t) := by
  have hthr := r.thread t
  have ht : t < (σ.view s).size := hthr.lt_nclk.trans_le hle
  have hs : (σ.syncs s).size ≠ 0 := Nat.ne_zero_of_lt ht
  obtain ⟨σ₁, hσ₁, hup₁, hun₁⟩ := unshare_spec r.memory (r.sync s).bound
  have hs₁ := hup₁.size_ne hs
  have hzero : ∀ i, (σ.view s).size ≤ i → c.clock t i = 0 := fun i hi => hthr.bound i (hle.trans hi)
  obtain ⟨hup₂, hun₂⟩ := updates_plain (V := c.clock t) (f := fun i _ => ⟨(σ.threads t).clk i, 0⟩)
    { σ₁.syncs s with
      dirty₀ := none
      dirty₁ := none
      releaseStoreTid := some (σ.threads t).tid
      releaseStoreReused := (σ.threads t).reused } hup₁.memory hun₁ hs₁ rfl rfl rfl rfl
    (fun i _ => by rw [hthr.clk])
    (fun i hi => by
      rw [hup₁.self] at hi ⊢
      rw [hzero i hi]
      exact (r.sync s).bound i hi)
  have hs₂ := hup₂.size_ne hs₁
  have hup := (hup₁.trans hup₂).trans (updates_setFlag hup₂.memory hun₂ hs₂ t (σ.threads t).reused)
  rw [hup₂.self, hup₁.self, hthr.tid] at hup
  refine ⟨_, _, ?_, hup, ?_, rfl⟩
  · simp only [ClockState.storeAll, hσ₁, Option.bind_eq_bind, Option.bind_some, hthr.tid]
    rfl
  · refine r.updates hup ((SyncView.shows_plain _ _ hzero).setFlag ht _) ?_ ?_ _
    · exact (r.flagsOk_of_reset _ fun _ => rfl).withFlag (fun _ => le_rfl) _
    · intro u hu _ i
      obtain rfl : t = u := Option.some.inj hu
      exact le_rfl

/-- Only what threads cache changes. -/
theorem Stands.recache (r : σ.Stands c) (σ' : ClockState) (hmemory : σ'.Memory)
    (hthr : ∀ u, ∃ idx size, σ'.threads u =
      { σ.threads u with cachedIdx := idx, cachedSize := size })
    (hview : ∀ s, σ'.view s = σ.view s) (hlines : σ'.lines = σ.lines) :
    σ'.Stands c ∧ σ'.reused = σ.reused := by
  have hreused : σ'.reused = σ.reused := by
    funext u
    obtain ⟨idx, size, hu⟩ := hthr u
    rw [reused, reused, hu]
  refine ⟨⟨hmemory, fun u => ?_, fun s => ?_, fun s => ?_, fun s => ?_, ?_, ?_, ?_⟩, hreused⟩
  · obtain ⟨idx, size, hu⟩ := hthr u
    have hold := r.thread u
    rw [hu]
    exact ⟨hold.tid, hold.prdTrace, hold.reused, hold.globalAcquire, hold.clk, hold.lastAcquire,
      hold.lt_nclk, hold.bound⟩
  · rw [hview]
    exact r.sync s
  · rw [hview, hreused]
    exact r.flags s
  · rw [hview, hreused]
    exact r.owner s
  · rw [hlines]
    exact r.nodes
  · rw [hlines]
    exact r.edges
  · rw [hlines]
    exact r.lines

/-- The clocks after a thread has cached the table of an object. -/
def grabbed (σ : ClockState) (t s : ℕ) : ClockState :=
  (σ.setBlock (σ.syncs s).tabIdx { σ.tab s with ref := (σ.tab s).ref + 1 }).setThread t
    { σ.threads t with cachedIdx := (σ.syncs s).tabIdx, cachedSize := (σ.syncs s).size }

/-- Caching the table of an object that says what the thread knows. -/
theorem Refines.cacheTab (r : σ.Refines c) (hs : (σ.syncs s).size ≠ 0)
    (hclock : ∀ i, ((σ.view s).clock i).epoch = c.clock t i) (hpos : 0 < c.clock t t) :
    (σ.cacheTab t s).Refines c := by
  by_cases hcache : ((σ.threads t).cachedIdx == 0 && σ.cachable s) = true
  · have heq : σ.cacheTab t s = σ.grabbed t s := if_pos hcache
    rw [heq]
    have hidx : (σ.threads t).cachedIdx = 0 := by
      simp only [Bool.and_eq_true, beq_iff_eq] at hcache
      exact hcache.1
    have hblock : ∀ j, ((σ.grabbed t s).alloc.block j).clock = (σ.alloc.block j).clock :=
      clock_setRef σ (σ.syncs s).tabIdx ((σ.tab s).ref + 1)
    have hself : (σ.grabbed t s).threads t =
        { σ.threads t with cachedIdx := (σ.syncs s).tabIdx, cachedSize := (σ.syncs s).size } :=
      Function.update_self _ _ _
    have hother : ∀ u, u ≠ t → (σ.grabbed t s).threads u = σ.threads u :=
      fun u hu => Function.update_of_ne hu _ _
    obtain ⟨hstands, hreused⟩ := r.toStands.recache (σ.grabbed t s)
      (memory_cache r.memory hs hidx rfl rfl)
      (fun u => by
        by_cases hut : u = t
        · rw [hut]
          exact ⟨_, _, hself⟩
        · exact ⟨_, _, hother u hut⟩)
      (fun s' => view_eq_of_clock rfl fun _ => hblock _) rfl
    refine ⟨hstands, fun u hu => ?_⟩
    rw [hreused]
    by_cases hut : u = t
    · subst hut
      have htab : (σ.grabbed u s).cachedClock u = (σ.view s).clock := by
        rw [cachedClock_eq hu, hblock, hself, view_clock hs, tab]
      have hown := hclock u
      rw [htab, hself]
      refine ⟨⟨hs, (r.sync s).bound, fun i _ => hclock i, ?_, hown.le⟩, r.flags s⟩
      rw [hown]
      exact hpos
    · rw [cachedClock_eq_of_clock (hother u hut) fun _ => hblock _, hother u hut]
      rw [hother u hut] at hu
      exact r.cached u hu
  · have heq : σ.cacheTab t s = σ := if_neg hcache
    rw [heq]
    exact r

/-- An empty object after it has taken the cached table of a thread. -/
def takenSync (σ : ClockState) (t s : ℕ) : SyncClock :=
  { σ.syncs s with
    tabIdx := (σ.threads t).cachedIdx
    size := (σ.threads t).cachedSize
    dirty₀ := some ⟨(σ.threads t).tid, (σ.threads t).clk (σ.threads t).tid⟩
    releaseStoreTid := some (σ.threads t).tid
    releaseStoreReused := (σ.threads t).reused }

def taken (σ : ClockState) (t s : ℕ) : ClockState :=
  (σ.setSync s (σ.takenSync t s)).setBlock (σ.takenSync t s).tabIdx
    { σ.alloc.block (σ.takenSync t s).tabIdx with
      ref := (σ.alloc.block (σ.takenSync t s).tabIdx).ref + 1 }

theorem reuseCached_eq (h : (σ.syncs s).dirty₀ = none) : σ.reuseCached t s =
    some ((σ.taken t s).setElem s (σ.threads t).tid
      { (σ.taken t s).elem s (σ.threads t).tid with reused := (σ.threads t).reused }) := by
  unfold ClockState.reuseCached
  simp [h, taken, takenSync, setElem, setBlock, setSync, elem, tab]

/-- An empty object takes what the thread has cached. -/
theorem Refines.reuseCached (r : σ.Refines c) (hs : (σ.syncs s).size = 0)
    (hcached : (σ.threads t).cachedIdx ≠ 0) :
    ∃ σ', σ.reuseCached t s = some σ' ∧ σ'.Refines (c.releaseStore t s) := by
  have hthr := r.thread t
  obtain ⟨hok, hflags⟩ := r.cached t hcached
  have hempty : (σ.view s).dirties = [] := by
    refine List.eq_nil_iff_forall_not_mem.mpr fun d hd => ?_
    have hlt := (r.sync s).lt_size ((r.sync s).entry d hd).2.1
    rw [view_size, hs] at hlt
    exact absurd hlt (Nat.not_lt_zero _)
  have hdirty : (σ.syncs s).dirty₀ = none ∧ (σ.syncs s).dirty₁ = none := by
    simpa [SyncView.dirties, view] using hempty
  have hup : Updates σ (σ.taken t s) s _ :=
    updates_takeCached r.memory hs hcached hok.size_ne rfl rfl rfl
  have hshows : SyncView.Shows ⟨(σ.threads t).cachedSize, some t, (σ.threads t).reused, none, none,
      σ.cachedClock t⟩ (Function.update (c.clock t) t (σ.cachedClock t t).epoch) := by
    refine SyncView.shows_of_clock hok.bound rfl rfl fun i => ?_
    by_cases hi : i = t
    · subst hi
      simp
    · simp [hi, hok.elem i hi]
  have hentry :=
    hshows.first_entry (t := t) (e := c.clock t t) (fun d hd => by cases hd) hok.pos hok.le
  rw [Function.update_idem, Function.update_eq_self] at hentry
  have hview : (σ.taken t s).view s = ⟨(σ.threads t).cachedSize, some t, (σ.threads t).reused,
      some ⟨t, c.clock t t⟩, none, σ.cachedClock t⟩ := by
    rw [hup.self]
    simp only [takenSync, hthr.tid, hthr.clk, hdirty.2]
  rw [← hup.self, hview] at hup
  have r₁ : (σ.taken t s).Refines (c.releaseStore t s) := by
    refine r.updates hup hentry hflags (fun u hu _ i => ?_) _
    obtain rfl : t = u := Option.some.inj hu
    exact le_rfl
  have ht : t < ((σ.taken t s).view s).size := by
    rw [hview]
    by_contra hle
    have hpos := hok.pos
    rw [hok.bound t (not_lt.mp hle)] at hpos
    exact lt_irrefl 0 hpos
  rw [reuseCached_eq hdirty.1, hthr.tid]
  have hknown : ∀ i, (((σ.taken t s).view s).clock i).epoch ≤ c.clock t i := by
    intro i
    rw [hview]
    by_cases hi : i = t
    · subst hi
      exact hok.le
    · exact (hok.elem i hi).le
  exact ⟨_, rfl, r₁.toStands.setFlag ht hknown _,
    fun u => (r₁.cached u).setFlag r₁.memory ht hknown _⟩

/-- A release-store does to the vectors what a plain one does. -/
theorem Refines.releaseStore (r : σ.Refines c) (hc : c.Coherent) (hpos : 0 < c.clock t t) (s : ℕ) :
    ∃ σ', σ.releaseStore t s = some σ' ∧ σ'.Refines (c.releaseStore t s) := by
  unfold ClockState.releaseStore
  by_cases hreuse : (σ.syncs s).size = 0 ∧ (σ.threads t).cachedIdx ≠ 0
  · rw [if_pos hreuse]
    exact r.reuseCached hreuse.1 hreuse.2
  rw [if_neg hreuse]
  obtain ⟨σ₁, hσ₁, hup₁, r₁⟩ := r.makeRoom t s
  have hthr₁ := r₁.thread t
  have hle : (σ₁.threads t).nclk ≤ (σ₁.view s).size := by
    rw [hup₁.self, hup₁.threads]
    exact le_max_right _ _
  have hs₁ : (σ₁.syncs s).size ≠ 0 := Nat.ne_zero_of_lt (hthr₁.lt_nclk.trans_le hle)
  simp only [hσ₁, Option.bind_eq_bind, Option.bind_some]
  by_cases hown : (σ₁.syncs s).releaseStoreTid = some (σ₁.threads t).tid ∧
      (σ₁.syncs s).releaseStoreReused = (σ₁.threads t).reused ∧
      σ₁.hasAcquiredAfterRelease t s = false
  · rw [if_pos hown]
    obtain ⟨htid, hreused, hacq⟩ := hown
    rw [hthr₁.tid] at htid
    obtain ⟨σ₂, v, hok, hup, hshows, hflags, hvtid, -⟩ := r₁.updateCurrentThread hc hs₁ hacq
    have hmax : (fun i => max (c.sync s i) (c.clock t i)) = c.clock t :=
      funext fun i => max_eq_right (r₁.owner s t htid hreused i)
    rw [hmax] at hshows
    refine ⟨σ₂, hok, r₁.updates hup hshows hflags (fun u hu _ i => ?_) _⟩
    obtain rfl : t = u := Option.some.inj (htid.symm.trans (hvtid.symm.trans hu))
    exact le_rfl
  · rw [if_neg hown]
    obtain ⟨σ₂, v, hok, hup, r₂, hv⟩ := r₁.storeAll (s := s) hle
    have hs₂ : (σ₂.syncs s).size ≠ 0 := by
      refine hup.size_ne ?_
      rw [hv]
      exact hs₁
    rw [hok]
    refine ⟨_, rfl, r₂.cacheTab hs₂ (fun i => ?_) hpos⟩
    rw [hup.self, hv]
    exact epoch_withFlag _ _ _ _

/-- A release does to the vectors what a plain one does. -/
theorem Refines.release (r : σ.Refines c) (hc : c.Coherent) (hpos : 0 < c.clock t t) (s : ℕ) :
    ∃ σ', σ.release t s = some σ' ∧ σ'.Refines (c.release t s) := by
  unfold ClockState.release
  by_cases hs : (σ.syncs s).size = 0
  · rw [if_pos hs]
    have hempty : c.release t s = c.releaseStore t s := by
      have hzero : ∀ i, c.sync s i = 0 := fun i => (r.sync s).eq_zero (hs.le.trans (Nat.zero_le i))
      simp [LoggedClocks.release, LoggedClocks.releaseStore, hzero]
    rw [hempty]
    exact r.releaseStore hc hpos s
  rw [if_neg hs]
  obtain ⟨σ₁, hσ₁, hup₁, r₁⟩ := r.makeRoom t s
  have hle : (σ₁.threads t).nclk ≤ (σ₁.view s).size := by
    rw [hup₁.self, hup₁.threads]
    exact le_max_right _ _
  have hs₁ : (σ₁.syncs s).size ≠ 0 := Nat.ne_zero_of_lt ((r₁.thread t).lt_nclk.trans_le hle)
  simp only [hσ₁, Option.bind_eq_bind, Option.bind_some]
  by_cases hacq : σ₁.hasAcquiredAfterRelease t s = false
  · rw [if_pos hacq]
    exact r₁.releaseOwn hc hs₁ hacq
  · rw [if_neg hacq]
    exact r₁.releaseAll hle

end ClockState

end Prd.Runtime
