import Prd.Runtime.ClockViews

/-!
# The vectors of the objects

The entries beside a table override it. They belong to threads whose time in the table is
positive and no later, so the table alone never says more than the vector.
-/
namespace Prd.Runtime

/-- The elements after a thread has remembered that it knows them. -/
def withFlag (tab : ℕ → ClockElem) (t r : ℕ) : ℕ → ClockElem :=
  Function.update tab t { tab t with reused := r }

theorem withFlag_of_ne (tab : ℕ → ClockElem) {t i : ℕ} (r : ℕ) (hi : i ≠ t) :
    withFlag tab t r i = tab i := Function.update_of_ne hi _ _

@[simp] theorem epoch_withFlag (tab : ℕ → ClockElem) (t r i : ℕ) :
    (withFlag tab t r i).epoch = (tab i).epoch := by
  by_cases hi : i = t
  · subst hi
    simp [withFlag]
  · rw [withFlag_of_ne tab r hi]

namespace SyncView

/-- The view after a run over the elements. -/
def mapClock (v : SyncView) (f : ℕ → ClockElem → ClockElem) : SyncView :=
  { v with clock := fun i => if i < v.size then f i (v.clock i) else v.clock i }

def dirties (v : SyncView) : List Dirty := v.dirty₀.toList ++ v.dirty₁.toList

/-- The view stands for the vector `V`. -/
structure Shows (v : SyncView) (V : ℕ → ℕ) : Prop where
  bound : ∀ i, v.size ≤ i → v.clock i = ⟨0, 0⟩
  entry : ∀ d ∈ v.dirties, V d.tid = d.epoch ∧ 0 < (v.clock d.tid).epoch ∧
    (v.clock d.tid).epoch ≤ d.epoch
  elem : ∀ i, (∀ d ∈ v.dirties, d.tid ≠ i) → (v.clock i).epoch = V i
  distinct : (v.dirties.map Dirty.tid).Nodup
  first : v.dirty₀ = none → v.dirty₁ = none

variable {v : SyncView} {V : ℕ → ℕ} {t e : ℕ}

theorem Shows.le (h : v.Shows V) (i : ℕ) : (v.clock i).epoch ≤ V i := by
  by_cases hd : ∃ d ∈ v.dirties, d.tid = i
  · obtain ⟨d, hd, rfl⟩ := hd
    rw [(h.entry d hd).1]
    exact (h.entry d hd).2.2
  · refine (h.elem i fun d hd' he => hd ⟨d, hd', he⟩).le

theorem Shows.lt_size (h : v.Shows V) {i : ℕ} (hi : 0 < (v.clock i).epoch) : i < v.size := by
  by_contra hle
  rw [h.bound i (not_lt.mp hle)] at hi
  exact lt_irrefl 0 hi

/-- Beyond its size a vector is zero. -/
theorem Shows.eq_zero (h : v.Shows V) {i : ℕ} (hi : v.size ≤ i) : V i = 0 := by
  have hclock := h.bound i hi
  rw [← h.elem i, hclock]
  intro d hd he
  have hpos := (h.entry d hd).2.1
  rw [he, hclock] at hpos
  exact lt_irrefl 0 hpos

/-- A vector in a table without flags. -/
def plain (size : ℕ) (releaseStoreTid : Option ℕ) (releaseStoreReused : ℕ) (V : ℕ → ℕ) : SyncView :=
  ⟨size, releaseStoreTid, releaseStoreReused, none, none, fun i => ⟨V i, 0⟩⟩

/-- A vector without entries beside its table. -/
theorem shows_of_clock (hbound : ∀ i, v.size ≤ i → v.clock i = ⟨0, 0⟩) (h₀ : v.dirty₀ = none)
    (h₁ : v.dirty₁ = none) (hclock : ∀ i, (v.clock i).epoch = V i) : v.Shows V where
  bound := hbound
  entry := by simp [dirties, h₀, h₁]
  elem := fun i _ => hclock i
  distinct := by simp [dirties, h₀, h₁]
  first := fun _ => h₁

theorem shows_plain {size : ℕ} (o : Option ℕ) (r : ℕ) (hV : ∀ i, size ≤ i → V i = 0) :
    (plain size o r V).Shows V :=
  shows_of_clock (fun i hi => by simp only [plain, hV i hi]) rfl rfl fun _ => rfl

theorem Shows.flush_flush (h : v.Shows V) (i : ℕ) :
    flush (flush v.clock v.dirty₀) v.dirty₁ i = { v.clock i with epoch := V i } := by
  have helem := h.elem i
  have hentry := h.entry
  have hdistinct := h.distinct
  have hfirst := h.first
  unfold dirties at helem hentry hdistinct
  cases h₀ : v.dirty₀ with
  | none =>
    rw [hfirst h₀]
    rw [h₀, hfirst h₀] at helem
    rw [flush, flush, ← helem (by simp)]
  | some d₀ =>
    cases h₁ : v.dirty₁ with
    | none =>
      rw [h₀, h₁] at helem hentry
      by_cases hi : i = d₀.tid
      · subst hi
        simp [flush, (hentry d₀ (by simp)).1]
      · rw [flush, flush, Function.update_of_ne hi, ← helem]
        simpa using Ne.symm hi
    | some d₁ =>
      rw [h₀, h₁] at helem hentry hdistinct
      have hne : d₀.tid ≠ d₁.tid := by simpa using hdistinct
      by_cases hi₁ : i = d₁.tid
      · subst hi₁
        simp [flush, Function.update_of_ne (Ne.symm hne), (hentry d₁ (by simp)).1]
      · rw [flush, Function.update_of_ne hi₁]
        by_cases hi₀ : i = d₀.tid
        · subst hi₀
          simp [flush, (hentry d₀ (by simp)).1]
        · rw [flush, Function.update_of_ne hi₀, ← helem]
          simpa using ⟨Ne.symm hi₀, Ne.symm hi₁⟩

/-- The first entry beside the table is the thread's own one. -/
theorem Shows.first_entry (h : v.Shows V) (hown : ∀ d ∈ v.dirty₀, d.tid = t)
    (hpos : 0 < (v.clock t).epoch) (hle : (v.clock t).epoch ≤ e) :
    { v with dirty₀ := some ⟨t, e⟩ }.Shows (Function.update V t e) := by
  have hother : ∀ d ∈ v.dirty₁, d.tid ≠ t := by
    intro d hd
    cases h₀ : v.dirty₀ with
    | none =>
      rw [h.first h₀] at hd
      cases hd
    | some d₀ =>
      have hdistinct := h.distinct
      have hd' : v.dirty₁ = some d := hd
      rw [← hown d₀ h₀]
      unfold dirties at hdistinct
      rw [h₀, hd'] at hdistinct
      simpa [eq_comm] using hdistinct
  refine ⟨h.bound, ?_, ?_, ?_, fun hnone => by cases hnone⟩
  · intro d hd
    rcases List.mem_append.mp hd with hd | hd
    · obtain rfl : d = ⟨t, e⟩ := by simpa using hd
      exact ⟨Function.update_self _ _ _, hpos, hle⟩
    · have hne := hother d (by simpa using hd)
      have hentry := h.entry d (List.mem_append_right _ hd)
      rw [Function.update_of_ne hne]
      exact hentry
  · intro i hi
    have hit : i ≠ t := fun he => hi ⟨t, e⟩ (by simp [dirties]) he.symm
    rw [Function.update_of_ne hit]
    refine h.elem i fun d hd => ?_
    rcases List.mem_append.mp hd with hd | hd
    · rw [hown d (by simpa using hd)]
      exact Ne.symm hit
    · exact hi d (List.mem_append_right _ hd)
  · cases h₁ : v.dirty₁ with
    | none => simp [dirties]
    | some d₁ =>
      have hne := hother d₁ h₁
      simpa [dirties, h₁, eq_comm] using hne

/-- The second entry beside the table is the thread's own one. -/
theorem Shows.second_entry (h : v.Shows V) {d₀ : Dirty} (h₀ : v.dirty₀ = some d₀)
    (hne : d₀.tid ≠ t) (hown : ∀ d ∈ v.dirty₁, d.tid = t) (hpos : 0 < (v.clock t).epoch)
    (hle : (v.clock t).epoch ≤ e) :
    { v with dirty₁ := some ⟨t, e⟩ }.Shows (Function.update V t e) := by
  refine ⟨h.bound, ?_, ?_, ?_, fun hnone => ?_⟩
  · intro d hd
    rcases List.mem_append.mp hd with hd | hd
    · obtain rfl : d = d₀ := by simpa [h₀] using hd
      rw [Function.update_of_ne hne]
      exact h.entry d (List.mem_append_left _ hd)
    · obtain rfl : d = ⟨t, e⟩ := by simpa using hd
      exact ⟨Function.update_self _ _ _, hpos, hle⟩
  · intro i hi
    have hit : i ≠ t := fun he => hi ⟨t, e⟩ (by simp [dirties]) he.symm
    rw [Function.update_of_ne hit]
    refine h.elem i fun d hd => ?_
    rcases List.mem_append.mp hd with hd | hd
    · exact hi d (List.mem_append_left _ hd)
    · rw [hown d (by simpa using hd)]
      exact Ne.symm hit
  · simpa [dirties, h₀] using hne
  · rw [h₀] at hnone
    cases hnone

/-- The table takes the thread's own time. -/
theorem Shows.own_elem (h : v.Shows V) (hne : ∀ d ∈ v.dirties, d.tid ≠ t) (ht : t < v.size)
    (r : ℕ) : { v with clock := Function.update v.clock t ⟨e, r⟩ }.Shows
    (Function.update V t e) := by
  refine ⟨fun i hi => ?_, fun d hd => ?_, fun i hi => ?_, h.distinct, h.first⟩
  · have hit : i ≠ t := by
      intro he
      subst he
      exact absurd hi (not_le.mpr ht)
    simpa [hit] using h.bound i hi
  · simpa [hne d hd] using h.entry d hd
  · by_cases hit : i = t
    · subst hit
      simp
    · simpa [hit] using h.elem i hi

/-- The flags do not matter. -/
theorem Shows.mapClock (h : v.Shows V) {f : ℕ → ClockElem → ClockElem}
    (hf : ∀ i ce, (f i ce).epoch = ce.epoch) : (v.mapClock f).Shows V := by
  have hclock : ∀ i, ((v.mapClock f).clock i).epoch = (v.clock i).epoch := by
    intro i
    unfold SyncView.mapClock
    dsimp only
    split_ifs
    · exact hf i _
    · rfl
  refine ⟨fun i hi => ?_, fun d hd => ?_, fun i hi => ?_, h.distinct, h.first⟩
  · have hlt : ¬ i < v.size := not_lt.mpr hi
    exact (if_neg hlt).trans (h.bound i hi)
  · rw [hclock]
    exact h.entry d hd
  · rw [hclock]
    exact h.elem i hi

def setFlag (v : SyncView) (t r : ℕ) : SyncView := { v with clock := withFlag v.clock t r }

theorem Shows.setFlag (h : v.Shows V) (ht : t < v.size) (r : ℕ) : (v.setFlag t r).Shows V := by
  refine ⟨fun i hi => ?_, fun d hd => ?_, fun i hi => ?_, h.distinct, h.first⟩
  · have hit : i ≠ t := by
      intro he
      subst he
      exact absurd hi (not_le.mpr ht)
    exact (withFlag_of_ne v.clock r hit).trans (h.bound i hi)
  · unfold SyncView.setFlag
    rw [epoch_withFlag]
    exact h.entry d hd
  · unfold SyncView.setFlag
    rw [epoch_withFlag]
    exact h.elem i hi

theorem Shows.of_size_le (h : v.Shows V) {n : ℕ} (hn : v.size ≤ n) :
    { v with size := n }.Shows V where
  bound := fun i hi => h.bound i (hn.trans hi)
  entry := h.entry
  elem := h.elem
  distinct := h.distinct
  first := h.first

end SyncView

namespace ClockState

open Prd.Foundation SyncView

variable {σ : ClockState} {s t : ℕ} {V : ℕ → ℕ}

theorem updates_mapElems (m : σ.Memory) (hun : σ.Unshared s) (hs : (σ.syncs s).size ≠ 0)
    (f : ℕ → ClockElem → ClockElem) :
    Updates σ (σ.mapElems s f) s ((σ.view s).mapClock f) ∧ (σ.mapElems s f).Unshared s := by
  unfold mapClock
  rw [view_clock hs]
  exact updates_setBlock m hun hs _

theorem updates_setElem (m : σ.Memory) (hun : σ.Unshared s)
    (hs : (σ.syncs s).size ≠ 0) (tid : ℕ) (ce : ClockElem) :
    Updates σ (σ.setElem s tid ce) s
      { σ.view s with clock := Function.update (σ.view s).clock tid ce } ∧
    (σ.setElem s tid ce).Unshared s := by
  rw [view_clock hs]
  exact updates_setBlock m hun hs _

theorem elem_eq (hs : (σ.syncs s).size ≠ 0) (i : ℕ) : σ.elem s i = (σ.view s).clock i := by
  rw [view_clock hs]
  rfl

/-- A run over a private table that writes a vector into it. -/
theorem updates_plain (sync : SyncClock) (m : σ.Memory) (hun : σ.Unshared s)
    (hs : (σ.syncs s).size ≠ 0) {f : ℕ → ClockElem → ClockElem}
    (hsize : sync.size = (σ.syncs s).size)
    (hidx : sync.tabIdx = (σ.syncs s).tabIdx) (h₀ : sync.dirty₀ = none) (h₁ : sync.dirty₁ = none)
    (hf : ∀ i, i < (σ.view s).size → f i ((σ.view s).clock i) = ⟨V i, 0⟩)
    (hbound : ∀ i, (σ.view s).size ≤ i → (σ.view s).clock i = ⟨V i, 0⟩) :
    Updates σ ((σ.mapElems s f).setSync s sync) s
      (plain (σ.view s).size sync.releaseStoreTid sync.releaseStoreReused V) ∧
    ((σ.mapElems s f).setSync s sync).Unshared s := by
  obtain ⟨hup, hun'⟩ := updates_mapElems m hun hs f
  have hset := hup.trans (updates_setSync hup.memory hsize hidx)
  have hclock : ((σ.view s).mapClock f).clock = fun i => ⟨V i, 0⟩ := by
    funext i
    unfold mapClock
    dsimp only
    split_ifs with hi
    · exact hf i hi
    · exact hbound i (not_lt.mp hi)
  rw [hup.self, hclock, h₀, h₁, hsize] at hset
  exact ⟨hset, unshared_setSync hun' hsize hidx⟩

theorem updates_setFlag (m : σ.Memory) (hun : σ.Unshared s) (hs : (σ.syncs s).size ≠ 0) (t r : ℕ) :
    Updates σ (σ.setElem s t { σ.elem s t with reused := r }) s ((σ.view s).setFlag t r) := by
  have hup := (updates_setElem m hun hs t { σ.elem s t with reused := r }).1
  rw [elem_eq hs] at hup ⊢
  exact hup

theorem flushDirty_shows (m : σ.Memory) (hun : σ.Unshared s) (hs : (σ.syncs s).size ≠ 0)
    (h : (σ.view s).Shows V) :
    ∃ σ' v, σ.flushDirty s = some σ' ∧ Updates σ σ' s v ∧ σ'.Unshared s ∧
      v = { σ.view s with
        dirty₀ := none
        dirty₁ := none
        clock := fun i => { (σ.view s).clock i with epoch := V i } } ∧ v.Shows V := by
  have hlt : ∀ d ∈ (σ.view s).dirties, d.tid < (σ.view s).size :=
    fun d hd => h.lt_size (h.entry d hd).2.1
  obtain ⟨σ', hok, hup, hun'⟩ := flushDirty_spec m hun hs
    (fun d hd => hlt d (List.mem_append_left _ (Option.mem_toList.mpr hd)))
    (fun d hd => hlt d (List.mem_append_right _ (Option.mem_toList.mpr hd)))
  rw [show flush (flush (σ.view s).clock (σ.view s).dirty₀) (σ.view s).dirty₁ =
    fun i => { (σ.view s).clock i with epoch := V i } from funext h.flush_flush] at hup
  refine ⟨σ', _, hok, hup, hun', rfl, shows_of_clock (fun i hi => ?_) rfl rfl fun _ => rfl⟩
  dsimp only
  rw [h.bound i hi, h.eq_zero hi]

theorem updateTable_spec (m : σ.Memory) (hs : (σ.syncs s).size ≠ 0) (h : (σ.view s).Shows V)
    (htid : (σ.threads t).tid = t) (hne : ∀ d ∈ (σ.view s).dirties, d.tid ≠ t)
    (ht : t < (σ.view s).size) :
    ∃ σ' v, σ.updateTable t s = some σ' ∧ Updates σ σ' s v ∧
      v.Shows (Function.update V t ((σ.threads t).clk t)) ∧
      v.releaseStoreTid = (σ.view s).releaseStoreTid ∧
      v.releaseStoreReused = (σ.view s).releaseStoreReused ∧ ∀ i, (v.clock i).reused = 0 := by
  obtain ⟨σ₁, hσ₁, hup₁, hun₁⟩ := unshare_spec m h.bound
  have hs₁ := hup₁.size_ne hs
  obtain ⟨hup₂, hun₂⟩ := updates_setElem hup₁.memory hun₁ hs₁ t
    ⟨(σ.threads t).clk t, (σ₁.elem s t).reused⟩
  have hs₂ := hup₂.size_ne hs₁
  obtain ⟨hup₃, hun₃⟩ := updates_mapElems hup₂.memory hun₂ hs₂ fun _ ce => { ce with reused := 0 }
  have hs₃ := hup₃.size_ne hs₂
  have hup := (hup₁.trans hup₂).trans hup₃
  have hown := h.own_elem (e := (σ.threads t).clk t) hne ht (σ₁.elem s t).reused
  have hshows := hown.mapClock (f := fun _ ce => { ce with reused := 0 }) fun _ _ => rfl
  rw [← hup₁.self, ← hup₂.self, ← hup₃.self] at hshows
  obtain ⟨σ₄, v, hσ₄, hup₄, -, hv, hshows₄⟩ := flushDirty_shows hup₃.memory hun₃ hs₃ hshows
  rw [hup₃.self, hup₂.self, hup₁.self] at hv
  refine ⟨σ₄, v, ?_, hup.trans hup₄, hshows₄, by rw [hv]; rfl, by rw [hv]; rfl, fun i => ?_⟩
  · unfold updateTable
    simp only [htid, hσ₁, Option.bind_eq_bind, Option.bind_some]
    exact hσ₄
  · rw [hv]
    unfold mapClock
    dsimp only
    by_cases hi : i < (σ.view s).size
    · rw [if_pos hi]
    · have hit : i ≠ t := fun he => hi (he ▸ ht)
      rw [if_neg hi, Function.update_of_ne hit, h.bound i (not_lt.mp hi)]

/-- A thread puts its time beside the table, or into it where two others have entries. -/
theorem updateCurrentThread_spec (m : σ.Memory) (hs : (σ.syncs s).size ≠ 0)
    (h : (σ.view s).Shows V) (htid : (σ.threads t).tid = t)
    (hpos : 0 < ((σ.view s).clock t).epoch)
    (hle : ((σ.view s).clock t).epoch ≤ (σ.threads t).clk t) :
    ∃ σ' v, σ.updateCurrentThread t s = some σ' ∧ Updates σ σ' s v ∧
      v.Shows (Function.update V t ((σ.threads t).clk t)) ∧
      v.releaseStoreTid = (σ.view s).releaseStoreTid ∧
      v.releaseStoreReused = (σ.view s).releaseStoreReused ∧
      (v.clock = (σ.view s).clock ∨ ∀ i, (v.clock i).reused = 0) := by
  have howns : ∀ d : Option Dirty, d.all (·.tid == t) = true ↔ ∀ x ∈ d, x.tid = t := by
    intro d
    cases d <;> simp
  simp only [updateCurrentThread, htid]
  by_cases h₀ : (σ.syncs s).dirty₀.all (·.tid == t) = true
  · rw [if_pos h₀]
    exact ⟨_, _, rfl, updates_setSync m rfl rfl,
      h.first_entry ((howns _).mp h₀) hpos hle, rfl, rfl, Or.inl rfl⟩
  rw [if_neg h₀]
  obtain ⟨d₀, hd₀, hne₀⟩ : ∃ d₀, (σ.syncs s).dirty₀ = some d₀ ∧ d₀.tid ≠ t := by
    rw [howns] at h₀
    push Not at h₀
    exact h₀
  by_cases h₁ : (σ.syncs s).dirty₁.all (·.tid == t) = true
  · rw [if_pos h₁]
    exact ⟨_, _, rfl, updates_setSync m rfl rfl,
      h.second_entry hd₀ hne₀ ((howns _).mp h₁) hpos hle, rfl, rfl, Or.inl rfl⟩
  rw [if_neg h₁]
  obtain ⟨d₁, hd₁, hne₁⟩ : ∃ d₁, (σ.syncs s).dirty₁ = some d₁ ∧ d₁.tid ≠ t := by
    rw [howns] at h₁
    push Not at h₁
    exact h₁
  -- both entries are of other threads, so the table takes all three
  have hne : ∀ d ∈ (σ.view s).dirties, d.tid ≠ t := by
    simp [dirties, view, hd₀, hd₁, hne₀, hne₁]
  obtain ⟨σ', v, hok, hup, hshows, htid', hreused, hflags⟩ :=
    updateTable_spec m hs h htid hne (h.lt_size hpos)
  exact ⟨σ', v, hok, hup, hshows, htid', hreused, Or.inr hflags⟩

end ClockState

end Prd.Runtime
