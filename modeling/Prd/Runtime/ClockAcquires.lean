import Prd.Runtime.ClockReleases

/-!
# Acquisitions of the optimized clocks

An acquisition takes newer times over one by one and logs an edge for each of them. A
thread that skips the table has its flag there, so the table has nothing new for it.
-/
namespace Prd.Runtime

open Prd.Foundation Prd.Pycprd

namespace ClockState

variable {σ : ClockState} {c : LoggedClocks ℕ ℕ} {s t n : ℕ} {V clk : ℕ → ℕ}
  {st : ClockState × Bool}

/-- A new epoch of another thread is logged and taken over. -/
theorem acquireEpoch_new (htid : (st.1.threads t).tid = t)
    (htrace : (st.1.threads t).prdTrace = true) {i e : ℕ} (hne : i ≠ t)
    (hlt : (st.1.threads t).clk i < e) (comment : PyStr) :
    acquireEpoch t comment st i e =
      ((st.1.log (.happensBeforeEdge i e t ((st.1.threads t).clk t) comment)).setThread t
        { st.1.threads t with clk := Function.update (st.1.threads t).clk i e }, true) := by
  have hlog : (t != i) = true := by simpa using Ne.symm hne
  unfold acquireEpoch
  simp only [htid, htrace, hlog, hlt, if_true, Bool.and_self]

theorem acquireEpoch_old {i e : ℕ} (hle : e ≤ (st.1.threads t).clk i) (comment : PyStr) :
    acquireEpoch t comment st i e = st := by
  unfold acquireEpoch
  simp only [not_lt.mpr hle, if_false]

/-- A thread in the middle of an acquisition of the vector `V`. -/
structure Acquiring (σ : ClockState) (t : ℕ) (V : ℕ → ℕ) (st : ClockState × Bool) (clk : ℕ → ℕ)
    (n : ℕ) : Prop where
  alloc : st.1.alloc = σ.alloc
  syncs : st.1.syncs = σ.syncs
  threads : st.1.threads = Function.update σ.threads t { σ.threads t with clk := clk, nclk := n }
  grows : ∀ i, clk i = (σ.threads t).clk i ∨ (σ.threads t).clk i < V i ∧ clk i = V i
  flag : st.2 = true ↔ ∃ i, (σ.threads t).clk i < clk i
  lines : ∃ new, st.1.lines = σ.lines ++ new ∧ ∀ line ∈ new, line.Ok ∧ line.node = none
  edges : ∀ e, e ∈ st.1.lines.filterMap LogLine.edge ↔ e ∈ σ.lines.filterMap LogLine.edge ∨
    ∃ i, i ≠ t ∧ (σ.threads t).clk i < clk i ∧ e = ((i, clk i), (t, (σ.threads t).clk t))

theorem acquiring_refl (σ : ClockState) (t : ℕ) (V : ℕ → ℕ) :
    Acquiring σ t V (σ, false) (σ.threads t).clk (σ.threads t).nclk where
  alloc := rfl
  syncs := rfl
  threads := (Function.update_eq_self _ _).symm
  grows := fun _ => Or.inl rfl
  flag := by simp
  lines := ⟨[], by simp⟩
  edges := by simp

namespace Acquiring

theorem thread (a : Acquiring σ t V st clk n) :
    st.1.threads t = { σ.threads t with clk := clk, nclk := n } := by
  rw [a.threads, Function.update_self]

theorem le (a : Acquiring σ t V st clk n) (i : ℕ) : (σ.threads t).clk i ≤ clk i := by
  rcases a.grows i with h | h
  · exact h.ge
  · rw [h.2]
    exact h.1.le

theorem own (a : Acquiring σ t V st clk n) (hown : V t ≤ (σ.threads t).clk t) :
    clk t = (σ.threads t).clk t := by
  rcases a.grows t with h | h
  · exact h
  · exact absurd hown (not_le.mpr h.1)

/-- An epoch is taken over when it is new, and only the newest one of its thread is. -/
theorem acquireEpoch (a : Acquiring σ t V st clk n) (htid : (σ.threads t).tid = t)
    (htrace : (σ.threads t).prdTrace = true) (hown : V t ≤ (σ.threads t).clk t) {i e : ℕ}
    (he : e = V i ∨ e ≤ clk i) (comment : PyStr) (hcomment : comment.length ≤ 2 ^ 13) :
    ∃ clk', Acquiring σ t V (acquireEpoch t comment st i e) clk' n ∧ e ≤ clk' i ∧
      ∀ j, clk j ≤ clk' j := by
  have hclk : (st.1.threads t).clk = clk := by rw [a.thread]
  by_cases hle : e ≤ clk i
  · refine ⟨clk, ?_, hle, fun _ => le_rfl⟩
    rw [acquireEpoch_old (by rw [hclk]; exact hle)]
    exact a
  obtain rfl : e = V i := he.resolve_right hle
  have hlt : clk i < V i := not_le.mp hle
  have hold : clk i = (σ.threads t).clk i := by
    rcases a.grows i with h | h
    · exact h
    · exact absurd h.2 hlt.ne
  have hne : i ≠ t := by
    intro hi
    subst hi
    rw [hold] at hlt
    exact absurd hown (not_le.mpr hlt)
  have hold' : ∀ j, j ≠ i → Function.update clk i (V i) j = clk j := fun j hj =>
    Function.update_of_ne hj _ _
  have hnew : (σ.threads t).clk i < Function.update clk i (V i) i := by
    rw [Function.update_self, ← hold]
    exact hlt
  rw [acquireEpoch_new (by rw [a.thread]; exact htid) (by rw [a.thread]; exact htrace) hne
    (by rw [hclk]; exact hlt), hclk, a.own hown]
  refine ⟨Function.update clk i (V i), ⟨a.alloc, a.syncs, ?_, fun j => ?_, ?_, ?_, fun e => ?_⟩, ?_,
    fun j => ?_⟩
  · simp [setThread, log, a.threads]
  · by_cases hj : j = i
    · subst hj
      rw [Function.update_self, ← hold]
      exact Or.inr ⟨hlt, rfl⟩
    · rw [hold' j hj]
      exact a.grows j
  · exact ⟨fun _ => ⟨i, hnew⟩, fun _ => rfl⟩
  · obtain ⟨new, hlines, hnew⟩ := a.lines
    refine ⟨new ++ [.happensBeforeEdge i (V i) t ((σ.threads t).clk t) comment], ?_,
      fun line hline => ?_⟩
    · simp [setThread, log, hlines]
    · rcases List.mem_append.mp hline with hline | hline
      · exact hnew line hline
      · rw [List.mem_singleton.mp hline]
        exact ⟨hcomment, rfl⟩
  · have hlines : ∀ st' : ClockState, e ∈ ((st'.log (.happensBeforeEdge i (V i) t
        ((σ.threads t).clk t) comment)).lines).filterMap LogLine.edge ↔
          e ∈ st'.lines.filterMap LogLine.edge ∨ e = ((i, V i), (t, (σ.threads t).clk t)) := by
      intro st'
      simp [log, LogLine.edge]
    refine (hlines st.1).trans ?_
    rw [a.edges, or_assoc]
    refine or_congr_right ⟨?_, ?_⟩
    · rintro (⟨j, hj, hlt', rfl⟩ | rfl)
      · have hji : j ≠ i := by
          intro he
          subst he
          exact absurd hold hlt'.ne'
        exact ⟨j, hj, by rw [hold' j hji]; exact hlt', by rw [hold' j hji]⟩
      · exact ⟨i, hne, hnew, by rw [Function.update_self]⟩
    · rintro ⟨j, hj, hlt', rfl⟩
      by_cases hji : j = i
      · subst hji
        right
        rw [Function.update_self]
      · rw [hold' j hji] at hlt' ⊢
        exact Or.inl ⟨j, hj, hlt', rfl⟩
  · rw [Function.update_self]
  · by_cases hj : j = i
    · subst hj
      rw [Function.update_self]
      exact hlt.le
    · rw [hold' j hj]

theorem acquireDirty (a : Acquiring σ t V st clk n) (htid : (σ.threads t).tid = t)
    (htrace : (σ.threads t).prdTrace = true) (hown : V t ≤ (σ.threads t).clk t)
    (dirty : Option Dirty) (hd : ∀ d ∈ dirty, V d.tid = d.epoch) :
    ∃ clk', Acquiring σ t V (acquireDirty t st dirty) clk' n ∧ (∀ d ∈ dirty, V d.tid ≤ clk' d.tid) ∧
      ∀ j, clk j ≤ clk' j := by
  cases dirty with
  | none => exact ⟨clk, a, by simp, fun _ => le_rfl⟩
  | some d =>
    have hV := hd d rfl
    obtain ⟨clk', a', hle, hmono⟩ := a.acquireEpoch htid htrace hown (Or.inl hV.symm)
      "ThreadClock::acquire 1".toList (by decide)
    refine ⟨clk', a', fun d' hd' => ?_, hmono⟩
    obtain rfl : d = d' := Option.some.inj hd'
    rw [hV]
    exact hle

/-- The loop over the elements, each of which is the newest of its thread or known already. -/
theorem acquireElems (a : Acquiring σ t V st clk n) (htid : (σ.threads t).tid = t)
    (htrace : (σ.threads t).prdTrace = true) (hown : V t ≤ (σ.threads t).clk t)
    (helem : ∀ i, (σ.elem s i).epoch = V i ∨ (σ.elem s i).epoch ≤ clk i) (m : ℕ) :
    ∃ clk', Acquiring σ t V (acquireElems t s st m) clk' n ∧
      (∀ i, i < m → (σ.elem s i).epoch ≤ clk' i) ∧ ∀ j, clk j ≤ clk' j := by
  induction m with
  | zero => exact ⟨clk, a, fun i hi => absurd hi (Nat.not_lt_zero i), fun _ => le_rfl⟩
  | succ m ih =>
    obtain ⟨clk₁, a₁, hdone, hmono₁⟩ := ih
    have hm : ((ClockState.acquireElems t s st m).1.elem s m) = σ.elem s m := by
      unfold elem tab
      rw [a₁.alloc, a₁.syncs]
    obtain ⟨clk₂, a₂, hle, hmono₂⟩ := a₁.acquireEpoch htid htrace hown
      ((helem m).imp id fun h => h.trans (hmono₁ m)) "ThreadClock::acquire 2 (full)".toList
      (by decide)
    refine ⟨clk₂, ?_, fun i hi => ?_, fun j => (hmono₁ j).trans (hmono₂ j)⟩
    · rw [← hm] at a₂
      exact a₂
    · rcases Nat.lt_succ_iff_lt_or_eq.mp hi with hi | rfl
      · exact (hdone i hi).trans (hmono₂ i)
      · exact hle

/-- An acquisition that has seen everything has joined the two vectors. -/
theorem eq_max (a : Acquiring σ t V st clk n) (hall : ∀ i, V i ≤ clk i) :
    clk = fun i => max ((σ.threads t).clk i) (V i) := by
  funext i
  rcases a.grows i with h | ⟨hlt, h⟩
  · rw [h, max_eq_left]
    rw [← h]
    exact hall i
  · rw [h, max_eq_right hlt.le]

theorem nodes (a : Acquiring σ t V st clk n) :
    st.1.lines.filterMap LogLine.node = σ.lines.filterMap LogLine.node := by
  obtain ⟨new, hlines, hnew⟩ := a.lines
  rw [hlines, List.filterMap_append, List.filterMap_eq_nil_iff.mpr fun line hline =>
    (hnew line hline).2, List.append_nil]

theorem view (a : Acquiring σ t V st clk n) (s : ℕ) : st.1.view s = σ.view s :=
  view_eq_of_clock (by rw [a.syncs]) fun _ => by rw [a.alloc]

theorem cachedIdx (a : Acquiring σ t V st clk n) (u : ℕ) :
    (st.1.threads u).cachedIdx = (σ.threads u).cachedIdx ∧
      (st.1.threads u).cachedSize = (σ.threads u).cachedSize ∧ st.1.reused u = σ.reused u := by
  unfold reused
  rw [a.threads]
  by_cases hu : u = t
  · subst hu
    rw [Function.update_self]
    exact ⟨rfl, rfl, rfl⟩
  · rw [Function.update_of_ne hu]
    exact ⟨rfl, rfl, rfl⟩

theorem cachedClock (a : Acquiring σ t V st clk n) (u : ℕ) :
    st.1.cachedClock u = σ.cachedClock u := by
  unfold ClockState.cachedClock
  rw [(a.cachedIdx u).1, a.alloc]

theorem memory (a : Acquiring σ t V st clk n) (m : σ.Memory) : st.1.Memory := by
  have hholds : st.1.holds = σ.holds := by
    funext h
    cases h with
    | inl s => simp only [holds, a.syncs]
    | inr u => simp only [holds, (a.cachedIdx u).1]
  have hsize : ∀ h, st.1.heldSize h = σ.heldSize h := by
    intro h
    cases h with
    | inl s => simp only [heldSize, a.syncs]
    | inr u => exact (a.cachedIdx u).2.1
  refine ⟨?_, fun h h' idx hh hh' => ?_⟩
  · rw [a.alloc, hholds]
    exact m.ok
  · rw [hholds] at hh hh'
    rw [hsize, hsize]
    exact m.sizes h h' idx hh hh'

end Acquiring

/-- What an acquisition has changed when it has seen everything. -/
theorem Stands.join (r : σ.Stands c) (a : Acquiring σ t (c.sync s) st clk n)
    (hall : ∀ i, c.sync s i ≤ clk i) (hn : (σ.threads t).nclk ≤ n)
    (hbound : ∀ i, n ≤ i → clk i = 0) (hends : ∀ e ∈ c.growth t s, e.1 ∈ c.nodes ∧ e.2 ∈ c.nodes) :
    st.1.Stands (c.join t s) := by
  have hthr := r.thread t
  have hclk := a.eq_max hall
  rw [hthr.clk] at hclk
  have hreused : st.1.reused = σ.reused := funext fun u => (a.cachedIdx u).2.2
  have hedges : ∀ e, e ∈ (c.join t s).edges ↔ e ∈ st.1.lines.filterMap LogLine.edge := by
    intro e
    have hnew : ∀ i, c.clock t i < c.sync s i ↔ c.clock t i < clk i := by
      intro i
      simp [hclk]
    have hval : ∀ i, c.clock t i < c.sync s i → clk i = c.sync s i := by
      intro i hlt
      rw [hclk]
      exact max_eq_right hlt.le
    rw [a.edges, ← r.edges, hthr.clk]
    refine or_congr_right ⟨?_, ?_⟩
    · rintro ⟨i, hi, hlt, rfl⟩
      exact ⟨i, hi, (hnew i).mp hlt, by rw [hval i hlt]⟩
    · rintro ⟨i, hi, hlt, rfl⟩
      rw [← hnew] at hlt
      exact ⟨i, hi, hlt, by rw [hval i hlt]⟩
  refine ⟨a.memory r.memory, fun u => ?_, fun s' => ?_, fun s' => ?_, fun s' u hu hu' i => ?_, ?_,
    hedges, ?_⟩
  · by_cases hu : u = t
    · subst hu
      rw [a.thread]
      refine ⟨hthr.tid, hthr.prdTrace, hthr.reused, hthr.globalAcquire, ?_, hthr.lastAcquire,
        hthr.lt_nclk.trans_le hn, fun i hi => ?_⟩
      · simp [LoggedClocks.join, hclk]
      · have hzero := hbound i hi
        rw [hclk] at hzero
        simpa [LoggedClocks.join] using hzero
    · have hsame : (c.join t s).clock u = c.clock u := by simp [LoggedClocks.join, hu]
      rw [a.threads, Function.update_of_ne hu, hsame]
      exact r.thread u
  · rw [a.view]
    exact r.sync s'
  · rw [a.view, hreused]
    exact (r.flags s').mono (c.clock_le_join t s)
  · rw [a.view] at hu hu'
    rw [hreused] at hu'
    exact (r.owner s' u hu hu' i).trans (c.clock_le_join t s u i)
  · rw [a.nodes]
    exact r.nodes
  · obtain ⟨new, hlines, hnew⟩ := a.lines
    rw [hlines]
    refine r.lines.append (fun line hline => (hnew line hline).1) fun e he => ?_
    have hmem : e ∈ (c.join t s).edges := by
      rw [hedges, hlines, List.filterMap_append]
      exact List.mem_append_right _ he
    rw [← r.nodes]
    rcases hmem with hold | hgrowth
    · rw [r.nodes]
      exact r.lines.known σ.lines (List.prefix_refl _) e ((r.edges e).mp hold)
    · exact hends e hgrowth

theorem resetCached_spec (m : σ.Memory) (t : ℕ) : ∃ σ', σ.resetCached t = some σ' ∧ σ'.Memory ∧
    σ'.lines = σ.lines ∧ (∀ s, σ'.view s = σ.view s) ∧
    (∀ u, ∃ idx size, σ'.threads u = { σ.threads u with cachedIdx := idx, cachedSize := size }) ∧
    (σ'.threads t).cachedIdx = 0 ∧
    ∀ u, u ≠ t → σ'.threads u = σ.threads u ∧ σ'.cachedClock u = σ.cachedClock u := by
  unfold resetCached
  by_cases hidx : (σ.threads t).cachedIdx = 0
  · refine ⟨σ, ?_, m, rfl, fun _ => rfl, fun _ => ⟨_, _, rfl⟩, hidx, fun _ _ => ⟨rfl, rfl⟩⟩
    simp [hidx]
  have hold : σ.holds (.inr t) = some (σ.threads t).cachedIdx := if_neg hidx
  obtain ⟨a, hunref, hmem, hclock, -, -⟩ := unrefClockBlock_eq m.ok hold
  have hother : ∀ u, u ≠ t → (({ σ with alloc := a } : ClockState).setThread t { σ.threads t with
      cachedIdx := 0, cachedSize := 0 }).threads u = σ.threads u :=
    fun u hu => Function.update_of_ne hu _ _
  have hself : (({ σ with alloc := a } : ClockState).setThread t { σ.threads t with
      cachedIdx := 0, cachedSize := 0 }).threads t =
      { σ.threads t with cachedIdx := 0, cachedSize := 0 } :=
    Function.update_self _ _ _
  have hholds := holds_setThread ({ σ with alloc := a } : ClockState) t
    { σ.threads t with cachedIdx := 0, cachedSize := 0 }
  simp only [if_true] at hholds
  simp only [hunref, Option.bind_eq_bind, Option.bind_some]
  refine ⟨_, if_pos hidx, ⟨?_, ?_⟩, rfl, fun s => view_eq_of_clock rfl fun _ => hclock _,
    fun u => ?_, ?_, fun u hu => ⟨hother u hu, ?_⟩⟩
  · rw [hholds]
    exact hmem
  · exact sizes_update m hholds (fun h hh => heldSize_setThread _ _ hh)
      fun h idx _ ho => by cases ho
  · by_cases hu : u = t
    · subst hu
      exact ⟨_, _, hself⟩
    · exact ⟨_, _, hother u hu⟩
  · rw [hself]
  · exact cachedClock_eq_of_clock (hother u hu) fun _ => hclock _

/-- A thread that has joined what an object says, but still holds what it has cached. -/
structure Joined (σ : ClockState) (c : LoggedClocks ℕ ℕ) (t s : ℕ) (st : ClockState × Bool) :
    Prop where
  stands : st.1.Stands (c.join t s)
  flag : st.2 = true ↔ ∃ i, c.clock t i < c.sync s i
  cached : ∀ u, σ.CacheOk c u → u ≠ t ∨ st.2 = false → st.1.CacheOk (c.join t s) u

theorem Stands.joined_of_acquiring (r : σ.Stands c) (a : Acquiring σ t (c.sync s) st clk n)
    (hall : ∀ i, c.sync s i ≤ clk i) (hn : (σ.threads t).nclk ≤ n)
    (hbound : ∀ i, n ≤ i → clk i = 0) (hends : ∀ e ∈ c.growth t s, e.1 ∈ c.nodes ∧ e.2 ∈ c.nodes) :
    Joined σ c t s st := by
  have hclk := a.eq_max hall
  rw [(r.thread t).clk] at hclk
  have hflag : st.2 = true ↔ ∃ i, c.clock t i < c.sync s i := by
    rw [a.flag, (r.thread t).clk, hclk]
    simp
  refine ⟨r.join a hall hn hbound hends, hflag, fun u hu hcase hidx => ?_⟩
  rw [(a.cachedIdx u).1] at hidx
  obtain ⟨hcached, hflags⟩ := hu hidx
  have hclock : (c.join t s).clock u = c.clock u := by
    unfold LoggedClocks.join
    rcases hcase with hne | hfalse
    · exact Function.update_of_ne hne _ _
    · have hsame : (fun i => max (c.clock t i) (c.sync s i)) = c.clock t := by
        funext i
        refine max_eq_left (not_lt.mp fun hlt => ?_)
        rw [hflag.mpr ⟨i, hlt⟩] at hfalse
        cases hfalse
      dsimp only
      rw [hsame, Function.update_eq_self]
  have hreused : st.1.reused = σ.reused := funext fun u => (a.cachedIdx u).2.2
  rw [a.cachedClock, (a.cachedIdx u).2.1, hclock, hreused]
  exact ⟨hcached, hflags.mono (c.clock_le_join t s)⟩

theorem Joined.setFlag (j : Joined σ c t s st) (ht : t < (st.1.view s).size) (m : ℕ) :
    Joined σ c t s (st.1.setElem s t { st.1.elem s t with reused := m }, st.2) := by
  have hknown : ∀ i, ((st.1.view s).clock i).epoch ≤ (c.join t s).clock t i := by
    intro i
    have hle := (j.stands.sync s).le i
    rw [LoggedClocks.clock_join_self]
    exact le_max_of_le_right hle
  exact ⟨j.stands.setFlag ht hknown m, j.flag,
    fun u hu hcase => (j.cached u hu hcase).setFlag j.stands.memory ht hknown m⟩

/-- The thread has seen the entries beside the table. -/
theorem Stands.acquireDirties (r : σ.Stands c) (hown : c.sync s t ≤ c.clock t t) :
    ∃ clk, Acquiring σ t (c.sync s) (acquireDirty t (acquireDirty t (σ, false) (σ.syncs s).dirty₀)
        (σ.syncs s).dirty₁) clk (σ.threads t).nclk ∧
      (∀ i, c.clock t i ≤ clk i) ∧ ∀ i, ((σ.view s).clock i).epoch = c.sync s i ∨
      c.sync s i ≤ clk i := by
  have hthr := r.thread t
  rw [← hthr.clk] at hown ⊢
  have hentry := (r.sync s).entry
  obtain ⟨clk₀, a₀, hd₀, hmono₀⟩ :=
    (acquiring_refl σ t (c.sync s)).acquireDirty hthr.tid hthr.prdTrace
    hown (σ.syncs s).dirty₀
    fun d hd => (hentry d (List.mem_append_left _ (Option.mem_toList.mpr hd))).1
  obtain ⟨clk₁, a₁, hd₁, hmono₁⟩ := a₀.acquireDirty hthr.tid hthr.prdTrace hown
    (σ.syncs s).dirty₁
    fun d hd => (hentry d (List.mem_append_right _ (Option.mem_toList.mpr hd))).1
  refine ⟨clk₁, a₁, a₁.le, fun i => ?_⟩
  by_cases hi : ∃ d ∈ (σ.view s).dirties, d.tid = i
  · obtain ⟨d, hd, rfl⟩ := hi
    rcases List.mem_append.mp hd with hd | hd
    · exact Or.inr ((hd₀ d (Option.mem_toList.mp hd)).trans (hmono₁ _))
    · exact Or.inr (hd₁ d (Option.mem_toList.mp hd))
  · exact Or.inl ((r.sync s).elem i fun d hd he => hi ⟨d, hd, he⟩)

/-- The table has nothing that the thread does not know. -/
theorem Stands.joined_of_flag (r : σ.Stands c)
    (a : Acquiring σ t (c.sync s) st clk (σ.threads t).nclk) (hle : ∀ i, c.clock t i ≤ clk i)
    (hseen : ∀ i, ((σ.view s).clock i).epoch = c.sync s i ∨ c.sync s i ≤ clk i)
    (hflag : ((σ.view s).clock t).reused = σ.reused t)
    (hends : ∀ e ∈ c.growth t s, e.1 ∈ c.nodes ∧ e.2 ∈ c.nodes) : Joined σ c t s st := by
  have hthr := r.thread t
  have hall : ∀ i, c.sync s i ≤ clk i := by
    intro i
    rcases hseen i with h | h
    · rw [← h]
      exact (r.flags s t hflag i).trans (hle i)
    · exact h
  refine r.joined_of_acquiring a hall le_rfl (fun i hi => ?_) hends
  have hzero : c.clock t i = 0 := hthr.bound i hi
  rcases a.grows i with h | ⟨hlt, h⟩
  · rw [h, hthr.clk, hzero]
  · -- the entry of a thread that the flag does not cover would be new to the table
    exfalso
    have hepoch := r.flags s t hflag i
    rw [hzero] at hepoch
    by_cases hd : ∃ d ∈ (σ.view s).dirties, d.tid = i
    · obtain ⟨d, hd, rfl⟩ := hd
      exact absurd ((r.sync s).entry d hd).2.1 (not_lt.mpr hepoch)
    · have hV := (r.sync s).elem i fun d hd' he => hd ⟨d, hd', he⟩
      rw [← hV] at hlt
      omega

/-- The thread goes through the whole table. -/
theorem Stands.joined_of_acquireFull (r : σ.Stands c) (hown : c.sync s t ≤ c.clock t t)
    (hs : (σ.syncs s).size ≠ 0) (a : Acquiring σ t (c.sync s) st clk (σ.threads t).nclk)
    (hseen : ∀ i, ((σ.view s).clock i).epoch = c.sync s i ∨ c.sync s i ≤ clk i)
    (hends : ∀ e ∈ c.growth t s, e.1 ∈ c.nodes ∧ e.2 ∈ c.nodes) :
    Joined σ c t s (acquireFull t s st) := by
  have hthr := r.thread t
  rw [← hthr.clk] at hown
  have hsize : (st.1.syncs s).size = (σ.view s).size := by rw [a.syncs, view_size]
  have hself : st.1.threads t = { σ.threads t with clk := clk, nclk := (σ.threads t).nclk } :=
    a.thread
  have a₁ : Acquiring σ t (c.sync s) (st.1.setThread t { st.1.threads t with
      nclk := max (st.1.threads t).nclk (st.1.syncs s).size }, st.2) clk
      (max (σ.threads t).nclk (σ.view s).size) := by
    refine ⟨a.alloc, a.syncs, ?_, a.grows, a.flag, a.lines, a.edges⟩
    simp [setThread, a.threads, hsize]
  have helem : ∀ i, (σ.elem s i).epoch = c.sync s i ∨ (σ.elem s i).epoch ≤ clk i := by
    intro i
    rw [elem_eq hs]
    exact (hseen i).imp id fun h => ((r.sync s).le i).trans h
  obtain ⟨clk', a₂, hdone, hmono⟩ :=
    a₁.acquireElems hthr.tid hthr.prdTrace hown helem (σ.view s).size
  have hall : ∀ i, c.sync s i ≤ clk' i := by
    intro i
    by_cases hi : i < (σ.view s).size
    · have hle := hdone i hi
      rw [elem_eq hs] at hle
      rcases hseen i with h | h
      · exact h ▸ hle
      · exact h.trans (hmono i)
    · rw [(r.sync s).eq_zero (not_lt.mp hi)]
      exact Nat.zero_le _
  have hbound : ∀ i, max (σ.threads t).nclk (σ.view s).size ≤ i → clk' i = 0 := by
    intro i hi
    have hV := (r.sync s).eq_zero ((le_max_right _ _).trans hi)
    rcases a₂.grows i with h | h
    · rw [h, hthr.clk]
      exact hthr.bound i ((le_max_left _ _).trans hi)
    · exact h.2.trans hV
  have j := r.joined_of_acquiring a₂ hall (le_max_left _ _) hbound hends
  have hview := a₂.view s
  unfold acquireFull
  simp only [hsize, hself, hthr.tid] at j hview ⊢
  split_ifs with ht
  · refine j.setFlag ?_ (σ.threads t).reused
    rw [hview]
    exact ht
  · exact j

theorem reused_setThread (thr : ThreadClock) (h : thr.reused = σ.reused t) :
    (σ.setThread t thr).reused = σ.reused := by
  funext u
  by_cases hu : u = t
  · subst hu
    simpa [reused, setThread] using h
  · simp [reused, setThread, hu]

/-- The thread remembers when it has learned something. -/
theorem Stands.setLastAcquire (r : σ.Stands (c.join t s)) (hown : c.sync s t ≤ c.clock t t)
    (hnew : ∃ i, c.clock t i < c.sync s i) {thr : ThreadClock}
    (hthr : thr = { σ.threads t with lastAcquire := (σ.threads t).clk (σ.threads t).tid }) :
    (σ.setThread t thr).Stands (c.acquire t s) := by
  have hold := r.thread t
  have hacq : c.acquire t s = { c.join t s with
      lastAcquire := Function.update c.lastAcquire t (c.clock t t) } := by
    unfold LoggedClocks.acquire
    rw [if_pos hnew]
  have hreused := reused_setThread (σ := σ) (t := t) thr (by rw [hthr]; rfl)
  rw [hacq]
  refine ⟨r.memory.setThread (by rw [hthr]) (by rw [hthr]), fun u => ?_, r.sync, ?_, ?_, r.nodes,
    r.edges, r.lines⟩
  · by_cases hu : u = t
    · subst hu
      have hlast : thr.lastAcquire = c.clock u u := by
        rw [hthr, hold.tid, hold.clk, LoggedClocks.clock_join_self]
        exact max_eq_left hown
      simp only [setThread, Function.update_self]
      subst hthr
      exact ⟨hold.tid, hold.prdTrace, hold.reused, hold.globalAcquire, hold.clk, hlast,
        hold.lt_nclk, hold.bound⟩
    · simp only [setThread, Function.update_of_ne hu]
      exact r.thread u
  · rw [hreused]
    exact r.flags
  · rw [hreused]
    exact r.owner

/-- The end of an acquisition. -/
theorem Joined.finish (j : Joined σ c t s st) (r : σ.Refines c) (hown : c.sync s t ≤ c.clock t t) :
    ∃ σ', (if st.2 then (st.1.setThread t { st.1.threads t with
        lastAcquire := (st.1.threads t).clk (st.1.threads t).tid }).resetCached t else some st.1) =
      some σ' ∧ σ'.Refines (c.acquire t s) := by
  by_cases hflag : st.2 = true
  · have hstands := j.stands.setLastAcquire hown (j.flag.mp hflag) rfl
    obtain ⟨σ', hok, hmemory, hlines, hview, hthr, hself, hother⟩ :=
      resetCached_spec hstands.memory t
    obtain ⟨hstands', hreused⟩ := hstands.recache σ' hmemory hthr hview hlines
    refine ⟨σ', by rw [if_pos hflag]; exact hok, hstands', fun u hu => ?_⟩
    by_cases hut : u = t
    · subst hut
      exact absurd hself hu
    · obtain ⟨hthr', hclock⟩ := hother u hut
      have hsame : (st.1.setThread t { st.1.threads t with
          lastAcquire := (st.1.threads t).clk (st.1.threads t).tid }).threads u = st.1.threads u :=
        Function.update_of_ne hut _ _
      rw [hthr', hsame] at hu
      rw [hreused, hthr', hclock, hsame, cachedClock_eq_of_clock hsame fun _ => rfl,
        reused_setThread { st.1.threads t with
          lastAcquire := (st.1.threads t).clk (st.1.threads t).tid } rfl]
      exact j.cached u (r.cached u) (Or.inl hut) hu
  · have hle : ∀ i, c.sync s i ≤ c.clock t i :=
      fun i => not_lt.mp fun hlt => hflag (j.flag.mpr ⟨i, hlt⟩)
    have hstands := j.stands
    have hcached := j.cached
    rw [LoggedClocks.join_of_le hle] at hstands hcached
    rw [LoggedClocks.acquire_of_le hle]
    exact ⟨st.1, if_neg hflag, hstands, fun u =>
      hcached u (r.cached u) (Or.inr (Bool.eq_false_iff.mpr hflag))⟩

/-- An acquisition does to the vectors what a plain one does. -/
theorem Refines.acquire (r : σ.Refines c) (hown : c.sync s t ≤ c.clock t t)
    (hends : ∀ e ∈ c.growth t s, e.1 ∈ c.nodes ∧ e.2 ∈ c.nodes) :
    ∃ σ', σ.acquire t s = some σ' ∧ σ'.Refines (c.acquire t s) := by
  have hthr := r.thread t
  unfold ClockState.acquire
  by_cases hs : (σ.syncs s).size = 0
  · have hzero : ∀ i, c.sync s i ≤ c.clock t i := by
      intro i
      rw [(r.sync s).eq_zero (hs.le.trans (Nat.zero_le i))]
      exact Nat.zero_le _
    rw [LoggedClocks.acquire_of_le hzero]
    exact ⟨σ, if_pos hs, r⟩
  obtain ⟨clk, a, hle, hseen⟩ := r.toStands.acquireDirties (s := s) hown
  simp only [hs, if_false]
  have hself := a.thread
  have hclock : σ.elem s t = (σ.view s).clock t := elem_eq hs t
  have helem : (acquireDirty t (acquireDirty t (σ, false) (σ.syncs s).dirty₀)
      (σ.syncs s).dirty₁).1.elem s t = (σ.view s).clock t := by
    rw [← hclock, elem, elem, tab, tab, a.alloc, a.syncs]
  refine Joined.finish ?_ r hown
  rw [hself, hthr.tid, helem]
  split_ifs with hfull
  · exact r.toStands.joined_of_acquireFull hown hs a hseen hends
  · have hflag : ((σ.view s).clock t).reused = σ.reused t := by
      simp only [Bool.or_eq_true, decide_eq_true_eq, bne_iff_ne, ne_eq, not_or, not_not] at hfull
      exact hfull.2
    exact r.toStands.joined_of_flag a hle hseen hflag hends

end ClockState

end Prd.Runtime
