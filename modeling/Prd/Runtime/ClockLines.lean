import Prd.Runtime.Clock

/-!
# The trace only grows

Releases and the memory of the clocks print nothing. A thread that sets its clock or acquires an
object logs something at the end of the trace.
-/
namespace Prd.Runtime

/-- What a thread has printed itself. -/
def LogLine.line : LogLine → Option Line
  | .epochInc _ _ _ _ => none
  | .happensBeforeEdge _ _ _ _ _ => none
  | .event line => some line

/-- The clocks have logged something more. -/
def LogsMore (lines lines' : List LogLine) : Prop :=
  ∃ more, lines' = lines ++ more ∧ more.filterMap LogLine.line = []

namespace LogsMore

variable {lines lines' lines'' : List LogLine}

theorem refl (lines : List LogLine) : LogsMore lines lines := ⟨[], by simp⟩

theorem trans (h : LogsMore lines lines') (h' : LogsMore lines' lines'') :
    LogsMore lines lines'' := by
  obtain ⟨more, rfl, hmore⟩ := h
  obtain ⟨more', rfl, hmore'⟩ := h'
  exact ⟨more ++ more', by simp, by simp [hmore, hmore']⟩

theorem append {line : LogLine} (h : line.line = none) (lines : List LogLine) :
    LogsMore lines (lines ++ [line]) := ⟨[line], rfl, by simp [h]⟩

end LogsMore

namespace ClockState

@[simp] theorem lines_setBlock (σ : ClockState) (idx : ℕ) (cb : ClockBlock) :
    (σ.setBlock idx cb).lines = σ.lines := rfl

@[simp] theorem lines_setSync (σ : ClockState) (s : ℕ) (sync : SyncClock) :
    (σ.setSync s sync).lines = σ.lines := rfl

@[simp] theorem lines_setThread (σ : ClockState) (t : ℕ) (thr : ThreadClock) :
    (σ.setThread t thr).lines = σ.lines := rfl

@[simp] theorem lines_mapElems (σ : ClockState) (s : ℕ) (f : ℕ → ClockElem → ClockElem) :
    (σ.mapElems s f).lines = σ.lines := rfl

@[simp] theorem lines_setElem (σ : ClockState) (s tid : ℕ) (ce : ClockElem) :
    (σ.setElem s tid ce).lines = σ.lines := rfl

@[simp] theorem lines_grow (σ : ClockState) (s nclk : ℕ) : (σ.grow s nclk).lines = σ.lines := by
  unfold grow
  dsimp only
  split_ifs
  · rfl
  · rfl

@[simp] theorem lines_cacheTab (σ : ClockState) (t s : ℕ) : (σ.cacheTab t s).lines = σ.lines := by
  unfold cacheTab
  dsimp only
  split_ifs
  · rfl
  · rfl

/-- A result with the lines of the state before. -/
def SameLines (σ : ClockState) (r : Option ClockState) : Prop :=
    ∀ σ', r = some σ' → σ'.lines = σ.lines

variable {σ : ClockState}

theorem SameLines.some {σ₁ : ClockState} (h : σ₁.lines = σ.lines) : σ.SameLines (some σ₁) := by
  intro σ' hok
  rw [← Option.some.inj hok]
  exact h

theorem SameLines.none : σ.SameLines none := fun _ => nofun

theorem SameLines.bind {r : Option ClockState} {f : ClockState → Option ClockState}
    (hr : σ.SameLines r) (hf : ∀ σ₁ : ClockState, σ₁.SameLines (f σ₁)) : σ.SameLines (r >>= f) := by
  intro σ' hok
  obtain ⟨σ₁, hσ₁, hσ'⟩ := Option.bind_eq_some_iff.mp hok
  exact (hf σ₁ σ' hσ').trans (hr σ₁ hσ₁)

/-- The continuation may depend on the state before. -/
theorem SameLines.of_eq {σ₁ : ClockState} {r : Option ClockState} (h : σ₁.SameLines r)
    (heq : σ₁.lines = σ.lines) : σ.SameLines r := fun σ' hok => (h σ' hok).trans heq

theorem sameLines_unrefClockBlock (σ : ClockState) (idx : ℕ) :
    σ.SameLines (σ.unrefClockBlock idx) := by
  unfold unrefClockBlock
  dsimp only
  split_ifs
  · exact .none
  · exact .some rfl
  · exact .some rfl

theorem sameLines_unshare (σ : ClockState) (s : ℕ) : σ.SameLines (σ.unshare s) := by
  unfold unshare
  intro σ' hok
  obtain ⟨shared, -, hσ'⟩ := Option.bind_eq_some_iff.mp hok
  split_ifs at hσ' with h
  · exact (sameLines_unrefClockBlock _ _ σ' hσ').trans (by simp)
  · rw [← Option.some.inj hσ']

theorem sameLines_makeRoom (σ : ClockState) (t s : ℕ) : σ.SameLines (σ.makeRoom t s) := by
  unfold makeRoom resize
  split_ifs
  · exact (sameLines_unshare σ s).bind fun _ => .some (by simp)
  · exact .some rfl

theorem sameLines_flushEntry (σ : ClockState) (s : ℕ) (d : Option Dirty) :
    σ.SameLines (σ.flushEntry s d) := by
  cases d with
  | none => exact .some rfl
  | some d =>
    unfold flushEntry
    dsimp only
    split_ifs
    · exact .some rfl
    · exact .none

theorem sameLines_flushDirty (σ : ClockState) (s : ℕ) : σ.SameLines (σ.flushDirty s) :=
  (sameLines_flushEntry σ s _).bind fun σ₁ => (sameLines_flushEntry σ₁ s _).bind fun _ => .some rfl

theorem sameLines_updateCurrentThread (σ : ClockState) (t s : ℕ) :
    σ.SameLines (σ.updateCurrentThread t s) := by
  unfold updateCurrentThread
  dsimp only
  split_ifs
  · exact .some rfl
  · exact .some rfl
  · exact (sameLines_unshare σ s).bind fun _ => (sameLines_flushDirty _ s).of_eq (by simp)

theorem sameLines_reuseCached (σ : ClockState) (t s : ℕ) : σ.SameLines (σ.reuseCached t s) := by
  unfold reuseCached
  dsimp only
  split_ifs
  · exact .none
  · exact .some rfl

theorem sameLines_releaseStore (σ : ClockState) (t s : ℕ) : σ.SameLines (σ.releaseStore t s) := by
  unfold releaseStore
  split_ifs
  · exact sameLines_reuseCached σ t s
  · refine (sameLines_makeRoom σ t s).bind fun σ₁ => ?_
    dsimp only
    split_ifs
    · exact sameLines_updateCurrentThread σ₁ t s
    · exact ((sameLines_unshare σ₁ s).bind fun _ => .some (by simp)).bind fun _ => .some (by simp)

theorem sameLines_release (σ : ClockState) (t s : ℕ) : σ.SameLines (σ.release t s) := by
  unfold release
  split_ifs
  · exact sameLines_releaseStore σ t s
  · refine (sameLines_makeRoom σ t s).bind fun σ₁ => ?_
    split_ifs
    · refine (sameLines_updateCurrentThread σ₁ t s).bind fun _ => ?_
      dsimp only
      split_ifs
      · exact .some rfl
      · exact .some rfl
    · refine (sameLines_unshare σ₁ s).bind fun σ₂ => (sameLines_flushDirty σ₂ s).bind fun _ => ?_
      dsimp only
      split_ifs
      · exact .some (by simp)
      · exact .some (by simp)

theorem sameLines_resetCached (σ : ClockState) (t : ℕ) : σ.SameLines (σ.resetCached t) := by
  unfold resetCached
  dsimp only
  split_ifs
  · exact (sameLines_unrefClockBlock σ _).bind fun _ => .some rfl
  · exact .some rfl

theorem sameLines_reset (σ : ClockState) (s : ℕ) : σ.SameLines (σ.reset s) := by
  refine SameLines.bind ?_ fun _ => .some rfl
  split_ifs
  · exact sameLines_unrefClockBlock σ _
  · exact .some rfl

theorem logsMore_acquireEpoch (t : ℕ) (comment : Pycprd.PyStr) (st : ClockState × Bool)
    (tid epoch : ℕ) : LogsMore st.1.lines (acquireEpoch t comment st tid epoch).1.lines := by
  unfold acquireEpoch
  dsimp only
  split_ifs
  · exact LogsMore.append rfl _
  · exact LogsMore.refl _
  · exact LogsMore.refl _

theorem logsMore_acquireDirty (t : ℕ) (st : ClockState × Bool) (d : Option Dirty) :
    LogsMore st.1.lines (acquireDirty t st d).1.lines := by
  cases d with
  | none => exact LogsMore.refl _
  | some d => exact logsMore_acquireEpoch t _ st _ _

theorem logsMore_acquireElems (t s : ℕ) (st : ClockState × Bool) (n : ℕ) :
    LogsMore st.1.lines (acquireElems t s st n).1.lines := by
  induction n with
  | zero => exact LogsMore.refl _
  | succ n ih => exact ih.trans (logsMore_acquireEpoch t _ _ _ _)

theorem logsMore_acquireFull (t s : ℕ) (st : ClockState × Bool) :
    LogsMore st.1.lines (acquireFull t s st).1.lines := by
  have hall := logsMore_acquireElems t s
    (st.1.setThread t { st.1.threads t with nclk := max (st.1.threads t).nclk (st.1.syncs s).size },
      st.2)
    (st.1.syncs s).size
  unfold acquireFull
  dsimp only
  split_ifs
  · exact hall
  · exact hall

theorem logsMore_acquire {σ' : ClockState} {t s : ℕ} (h : σ.acquire t s = some σ') :
    LogsMore σ.lines σ'.lines := by
  unfold acquire at h
  dsimp only at h
  split_ifs at h
  · rw [Option.some.inj h]
    exact LogsMore.refl _
  all_goals
    have hdirty := (logsMore_acquireDirty t (σ, false) (σ.syncs s).dirty₀).trans
      (logsMore_acquireDirty t _ (σ.syncs s).dirty₁)
  · rw [sameLines_resetCached _ _ _ h]
    exact hdirty.trans (logsMore_acquireFull t s _)
  · rw [← Option.some.inj h]
    exact hdirty.trans (logsMore_acquireFull t s _)
  · rw [sameLines_resetCached _ _ _ h]
    exact hdirty
  · rw [← Option.some.inj h]
    exact hdirty

theorem logsMore_acqRel {σ' : ClockState} {t s : ℕ} (h : σ.acqRel t s = some σ') :
    LogsMore σ.lines σ'.lines := by
  obtain ⟨σ₁, hσ₁, hσ'⟩ := Option.bind_eq_some_iff.mp h
  rw [sameLines_releaseStore σ₁ t s σ' hσ']
  exact logsMore_acquire hσ₁

theorem logsMore_set (σ : ClockState) (t v : ℕ) : LogsMore σ.lines (σ.set t v).lines := by
  unfold set
  dsimp only
  split_ifs
  · exact LogsMore.append rfl _
  · exact LogsMore.refl _

end ClockState

end Prd.Runtime
