import Prd.Foundation.HappensBefore
import Prd.Foundation.LoggedClocks

/-!
# The order that logged clocks log

Threads do things between the times that they log, and log a new time before they release or
acquire. Then what happens before what in a run can be read off the logged graph, and a single
edge between two threads tells it.
-/
namespace Prd.Foundation

open Relation

variable {T S : Type} [DecidableEq T] [DecidableEq S]

namespace LoggedClocks

noncomputable def step (c : LoggedClocks T S) : RunOp T S → LoggedClocks T S
  | .event _ => c
  | .tick t time => c.tick t time
  | .acquire t s => c.acquire t s
  | .release t s => c.release t s
  | .releaseStore t s => c.releaseStore t s
  | .acqRel t s => (c.acquire t s).releaseStore t s
  | .reset s => c.reset s

noncomputable def run (ops : List (RunOp T S)) : LoggedClocks T S := ops.foldl step new

@[simp] theorem run_append (ops : List (RunOp T S)) (op : RunOp T S) :
    run (ops ++ [op]) = (run ops).step op := by
  simp [run]

end LoggedClocks

open LoggedClocks

/-- The last time that the thread has logged before the position. -/
noncomputable def stamp (ops : List (RunOp T S)) (p : ℕ) (t : T) : ℕ := (run (ops.take p)).clock t t

/-- Everything that the thread has done was done before its last time. -/
def Settled (ops : List (RunOp T S)) (t : T) : Prop :=
  ∀ p, EventOf ops t p → stamp ops p t < (run ops).clock t t

/-- Times do not decrease. A thread that has released logs a new time before it acquires. -/
def Allows (ops : List (RunOp T S)) : RunOp T S → Prop
  | .event _ => True
  | .tick t time => 0 < time ∧ (run ops).clock t t ≤ time
  | .acquire t _ => (run ops).released t < (run ops).clock t t ∧ Settled ops t
  | .release t _ => Settled ops t
  | .releaseStore t _ => Settled ops t
  | .acqRel t _ => (run ops).released t < (run ops).clock t t ∧ Settled ops t
  | .reset _ => True

inductive Legal : List (RunOp T S) → Prop
  | nil : Legal []
  | append_singleton {ops op} : Legal ops → Allows ops op → Legal (ops ++ [op])

/-- The logged graph is the order of the run. -/
structure Ordered (ops : List (RunOp T S)) : Prop where
  coherent : (run ops).Coherent
  logged : (run ops).Logged
  stamp_le : ∀ t p, EventOf ops t p → stamp ops p t ≤ (run ops).clock t t
  stamp_mem : ∀ t p, EventOf ops t p → stamp ops p t ≠ 0 → (t, stamp ops p t) ∈ (run ops).nodes
  seen : ∀ i p t, EventOf ops i p → t ≠ i → (Seen ops t p ↔ stamp ops p i < (run ops).clock t i)
  published : ∀ i p s, EventOf ops i p → (Published ops s p ↔ stamp ops p i < (run ops).sync s i)
  learned : ∀ t i, i ≠ t → (run ops).clock t i ≠ 0 →
    ∃ time ≤ (run ops).clock t t, ((i, (run ops).clock t i), (t, time)) ∈ (run ops).edges
  direct : ∀ i p t q, EventOf ops i p → EventOf ops t q → i ≠ t → HappensBefore ops p q →
    ∃ time time', stamp ops p i < time ∧ time' ≤ stamp ops q t ∧ ((i, time), (t, time')) ∈
    (run ops).edges
  path : ∀ i p t q, EventOf ops i p → EventOf ops t q → i ≠ t → ∀ time, stamp ops p i < time →
    TransGen (run ops).Before (i, time) (t, stamp ops q t) → HappensBefore ops p q
  irredundant : ∀ a b, (a, b) ∈ (run ops).edges → ∀ time < b.2,
    ¬ TransGen (run ops).Before a (b.1, time)

variable {ops : List (RunOp T S)} {op : RunOp T S} {p q : ℕ} {t i : T} {s : S}

theorem stamp_append (hp : p ≤ ops.length) : stamp (ops ++ [op]) p t = stamp ops p t := by
  unfold stamp
  rw [List.take_append_of_le_length hp]

@[simp] theorem stamp_last : stamp (ops ++ [op]) ops.length t = (run ops).clock t t := by
  simp [stamp]

theorem ordered_nil : Ordered ([] : List (RunOp T S)) := by
  have hnone : ∀ (t : T) p, ¬ EventOf ([] : List (RunOp T S)) t p :=
    fun t p h => absurd h.lt (by simp)
  refine ⟨coherent_new, logged_new, fun t p h => absurd h (hnone t p),
    fun t p h => absurd h (hnone t p), fun i p t h => absurd h (hnone i p),
    fun i p s h => absurd h (hnone i p), ?_,
    fun i p t q h => absurd h (hnone i p), fun i p t q h => absurd h (hnone i p), ?_⟩
  · intro t i _ h
    simp [run, new] at h
  · intro a b h
    simp [run, new] at h

/-- What a thread does is seen by the thread itself only. -/
theorem Ordered.event (h : Ordered ops) (t : T) : Ordered (ops ++ [.event t]) := by
  have hrun : run (ops ++ [RunOp.event t]) = run ops := run_append ops _
  have hstamp : ∀ u p, EventOf ops u p → stamp (ops ++ [.event t]) p u = stamp ops p u :=
    fun u p hp => stamp_append hp.lt.le
  have hown : ∀ i (W : T → ℕ), (run ops).IsCopy i W → W i ≤ (run ops).clock i i :=
    fun i W hW => (h.coherent.le_released i W hW).trans (h.coherent.released_le i)
  have hseen : ∀ i p u, EventOf (ops ++ [.event t]) i p → u ≠ i →
      (Seen (ops ++ [.event t]) u p ↔ stamp (ops ++ [.event t]) p i < (run ops).clock u i) := by
    intro i p u hp hu
    rcases eventOf_append.mp hp with hp | ⟨rfl, hop⟩
    · rw [seen_append hp.lt, hstamp i p hp, ← h.seen i p u hp hu]
      simp [RunOp.Acquires]
    · cases hop
      rw [seen_last, stamp_last]
      have hle := hown t _ (.clock u hu)
      simp only [RunOp.thread, Option.some.injEq]
      exact ⟨fun he => absurd he.symm hu, fun hlt => absurd hle (not_le.mpr hlt)⟩
  constructor
  · rw [hrun]
    exact h.coherent
  · rw [hrun]
    exact h.logged
  · intro u p hp
    rw [hrun]
    rcases eventOf_append.mp hp with hp | ⟨rfl, hop⟩
    · rw [hstamp u p hp]
      exact h.stamp_le u p hp
    · rw [stamp_last]
  · intro u p hp hne
    rw [hrun]
    rcases eventOf_append.mp hp with hp | ⟨rfl, hop⟩
    · rw [hstamp u p hp] at hne ⊢
      exact h.stamp_mem u p hp hne
    · rw [stamp_last] at hne ⊢
      exact h.logged.node_of_vector _ (.clock u) u hne
  · rw [hrun]
    exact hseen
  · intro i p s hp
    rw [hrun]
    rcases eventOf_append.mp hp with hp | ⟨rfl, hop⟩
    · rw [published_append hp.lt, hstamp i p hp, ← h.published i p s hp]
      simp [RunOp.Overwrites, RunOp.Publishes]
    · rw [published_last, stamp_last]
      have hle := hown i _ (.sync s)
      exact ⟨fun hpub => hpub.elim, fun hlt => absurd hle (not_le.mpr hlt)⟩
  · rw [hrun]
    exact h.learned
  · intro i p u q hp hq hne hpq
    rw [hrun]
    rcases eventOf_append.mp hp with hp | ⟨rfl, -⟩
    · rcases eventOf_append.mp hq with hq | ⟨rfl, hop⟩
      · rw [happensBefore_append hq.lt] at hpq
        rw [hstamp i p hp, hstamp u q hq]
        exact h.direct i p u q hp hq hne hpq
      · cases hop
        rw [happensBefore_last] at hpq
        rcases hpq with ⟨u', hu', hsee⟩ | ⟨s, hs, -⟩
        · cases hu'
          have hlt := (h.seen i p t hp hne.symm).mp hsee
          obtain ⟨time, hle, hedge⟩ := h.learned t i hne (by omega)
          rw [hstamp i p hp, stamp_last]
          exact ⟨_, _, hlt, hle, hedge⟩
        · exact absurd hs id
    · exact absurd hpq not_happensBefore_last
  · intro i p u q hp hq hne time htime hr
    rw [hrun] at hr
    rcases eventOf_append.mp hp with hp | ⟨rfl, -⟩
    · rw [hstamp i p hp] at htime
      rcases eventOf_append.mp hq with hq | ⟨rfl, hop⟩
      · rw [hstamp u q hq] at hr
        exact (happensBefore_append hq.lt).mpr (h.path i p u q hp hq hne time htime hr)
      · cases hop
        rw [stamp_last] at hr
        have hle := h.logged.closed_reach (.clock t) hr le_rfl
        refine happensBefore_last.mpr (Or.inl ⟨t, rfl, (h.seen i p t hp hne.symm).mpr ?_⟩)
        exact htime.trans_le hle
    · rw [stamp_last] at htime
      exact absurd (h.logged.node_le _ (h.logged.reach_mem hr).1) (not_le.mpr htime)
  · rw [hrun]
    exact h.irredundant

/-- What an operation other than an event has to do to the clocks. -/
structure OrdersLast (ops : List (RunOp T S)) (op : RunOp T S) (c : LoggedClocks T S) : Prop where
  coherent : c.Coherent
  logged : c.Logged
  own : ∀ t, (run ops).clock t t ≤ c.clock t t
  nodes : ∀ a ∈ (run ops).nodes, a ∈ c.nodes
  edges : ∀ e ∈ (run ops).edges, e ∈ c.edges
  clock : ∀ t i e, t ≠ i → (e < c.clock t i ↔ e < (run ops).clock t i ∨
    op.thread = some t ∧ ∃ s, op.Acquires s ∧ e < (run ops).sync s i)
  sync : ∀ s i p, EventOf ops i p → (stamp ops p i < c.sync s i ↔
    ¬ op.Overwrites s ∧ stamp ops p i < (run ops).sync s i ∨
      op.Publishes s ∧ ((∃ t, op.thread = some t ∧ (t = i ∨ stamp ops p i < (run ops).clock t i)) ∨
        ∃ s', op.Acquires s' ∧ stamp ops p i < (run ops).sync s' i))
  keeps : ∀ t q, EventOf ops t q → ∀ a, TransGen c.Before a (t, stamp ops q t) →
    TransGen (run ops).Before a (t, stamp ops q t)
  learned : ∀ t i, i ≠ t → c.clock t i ≠ 0 →
    ∃ time ≤ c.clock t t, ((i, c.clock t i), (t, time)) ∈ c.edges
  irredundant : ∀ a b, (a, b) ∈ c.edges → ∀ time < b.2, ¬ TransGen c.Before a (b.1, time)

theorem Ordered.step (h : Ordered ops) (hop : ∀ t, op ≠ .event t)
    (o : OrdersLast ops op ((run ops).step op)) : Ordered (ops ++ [op]) := by
  have hold : ∀ t p, EventOf (ops ++ [op]) t p → EventOf ops t p :=
    fun t p hp => (eventOf_append.mp hp).resolve_right fun hlast => hop t hlast.2
  have hstamp : ∀ t p, EventOf ops t p → stamp (ops ++ [op]) p t = stamp ops p t :=
    fun t p hp => stamp_append hp.lt.le
  have hseen : ∀ t i p, EventOf ops i p →
      (Seen ops t p ↔ t = i ∨ stamp ops p i < (run ops).clock t i) := by
    intro t i p hp
    by_cases ht : t = i
    · subst ht
      simp [hp.seen]
    · simp [ht, h.seen i p t hp ht]
  constructor
  · rw [run_append]
    exact o.coherent
  · rw [run_append]
    exact o.logged
  · intro t p hp
    rw [run_append, hstamp t p (hold t p hp)]
    exact (h.stamp_le t p (hold t p hp)).trans (o.own t)
  · intro t p hp hne
    rw [hstamp t p (hold t p hp)] at hne ⊢
    rw [run_append]
    exact o.nodes _ (h.stamp_mem t p (hold t p hp) hne)
  · intro i p t hp ht
    have hp := hold i p hp
    rw [run_append, hstamp i p hp, seen_append hp.lt, o.clock t i _ ht, h.seen i p t hp ht]
    simp only [h.published i p _ hp]
  · intro i p s hp
    have hp := hold i p hp
    rw [run_append, hstamp i p hp, published_append hp.lt, happensBefore_last, o.sync s i p hp]
    simp only [h.published i p _ hp, hseen _ i p hp]
  · rw [run_append]
    exact o.learned
  · intro i p t q hp hq hne hpq
    have hp := hold i p hp
    have hq := hold t q hq
    rw [happensBefore_append hq.lt] at hpq
    obtain ⟨time, time', hlt, hle, hedge⟩ := h.direct i p t q hp hq hne hpq
    rw [run_append, hstamp i p hp, hstamp t q hq]
    exact ⟨time, time', hlt, hle, o.edges _ hedge⟩
  · intro i p t q hp hq hne time htime hr
    have hp := hold i p hp
    have hq := hold t q hq
    rw [hstamp i p hp] at htime
    rw [run_append, hstamp t q hq] at hr
    exact (happensBefore_append hq.lt).mpr
      (h.path i p t q hp hq hne time htime (o.keeps t q hq _ hr))
  · rw [run_append]
    exact o.irredundant

/-- A new time has no way out. -/
theorem Ordered.tick (h : Ordered ops) {time : ℕ} (hpos : 0 < time)
    (hle : (run ops).clock t t ≤ time) : Ordered (ops ++ [.tick t time]) := by
  refine h.step (fun _ => nofun) ?_
  change OrdersLast ops (.tick t time) ((run ops).tick t time)
  rcases hle.eq_or_lt with rfl | hlt
  · rw [tick_self]
    exact ⟨h.coherent, h.logged, fun _ => le_rfl, fun _ ha => ha, fun _ he => he,
      fun _ _ _ _ => by simp [RunOp.Acquires],
      fun _ _ _ _ => by simp [RunOp.Overwrites, RunOp.Publishes], fun _ _ _ _ hr => hr, h.learned,
      h.irredundant⟩
  have hother : ∀ u i, u ≠ i → ((run ops).tick t time).clock u i = (run ops).clock u i := by
    intro u i hu
    by_cases hut : u = t
    · subst hut
      rw [clock_tick_self, Function.update_of_ne hu.symm]
    · rw [clock_tick_of_ne _ _ hut]
  have hown : ∀ u, (run ops).clock u u ≤ ((run ops).tick t time).clock u u := by
    intro u
    by_cases hu : u = t
    · subst hu
      rw [clock_tick_self, Function.update_self]
      exact hle
    · rw [clock_tick_of_ne _ _ hu]
  have hpath : ∀ a b, b ≠ (t, time) → TransGen ((run ops).tick t time).Before a b →
      TransGen (run ops).Before a b := by
    intro a b hb hr
    refine transGen_of_sink (fun b hzb => (before_tick h.logged hlt hzb).1 rfl)
      (fun a b hab hb => ?_) hr hb
    rcases (before_tick h.logged hlt hab).2 with hab | ⟨hb', -⟩
    · exact hab
    · exact absurd hb' hb
  have hnew : ∀ u e, e ≤ (run ops).clock u u → (u, e) ≠ (t, time) := by
    intro u e he heq
    cases heq
    omega
  refine ⟨h.coherent.tick hle, h.logged.tick h.coherent hpos hle, hown,
    fun a ha => (mem_nodes_tick hlt.ne a).mpr (Or.inl ha), fun _ he => he, fun u i e hu => ?_,
    fun s i p hp => by simp [RunOp.Overwrites, RunOp.Publishes, LoggedClocks.tick],
    fun u q hq a hr => hpath a _ (hnew u _ (h.stamp_le u q hq)) hr, fun u i hne hnz => ?_, ?_⟩
  · rw [hother u i hu]
    simp [RunOp.Acquires]
  · rw [hother u i hne.symm] at hnz ⊢
    obtain ⟨e, he, hedge⟩ := h.learned u i hne hnz
    exact ⟨e, he.trans (hown u), hedge⟩
  · intro a b hab e he hr
    have hb := h.logged.node_le b (h.logged.edge a b hab).2.1
    exact h.irredundant a b hab e he (hpath a _ (hnew b.1 e (he.le.trans hb)) hr)

section Acquire

/-- All edges of an acquisition lead to the current time of the thread, which has no way out. -/
theorem Ordered.path_acquire (h : Ordered ops) (hnew : (run ops).released t < (run ops).clock t t)
    {a b : T × ℕ} (hb : b ≠ (t, (run ops).clock t t))
    (hr : TransGen ((run ops).acquire t s).Before a b) :
    TransGen (run ops).Before a b := by
  have hown := h.coherent.clock_acquire_own t t s
  have hsink := (h.logged.acquire (s := s) h.coherent hnew).sink t (hnew.trans_eq hown.symm)
  rw [hown] at hsink
  refine transGen_of_sink hsink (fun x y hxy hy => ?_) hr hb
  rcases before_acquire hxy with hxy | ⟨i, -, -, he⟩
  · exact hxy
  · exact absurd (Prod.ext_iff.mp he).2 hy

theorem Ordered.learned_acquire (h : Ordered ops) (t : T) (s : S) (u i : T) (hne : i ≠ u)
    (hnz : ((run ops).acquire t s).clock u i ≠ 0) : ∃ time ≤ ((run ops).acquire t s).clock u u,
      ((i, ((run ops).acquire t s).clock u i), (u, time)) ∈ ((run ops).acquire t s).edges := by
  rw [h.coherent.clock_acquire_own]
  have hold : (run ops).clock u i ≠ 0 → ∃ time ≤ (run ops).clock u u,
      ((i, (run ops).clock u i), (u, time)) ∈ ((run ops).acquire t s).edges := by
    intro hnz
    obtain ⟨time, hle, hedge⟩ := h.learned u i hne hnz
    exact ⟨time, hle, Or.inl hedge⟩
  by_cases hu : u = t
  · subst hu
    rw [clock_acquire_self] at hnz ⊢
    dsimp only at hnz ⊢
    rcases le_or_gt ((run ops).sync s i) ((run ops).clock u i) with hle | hlt
    · rw [max_eq_left hle] at hnz ⊢
      exact hold hnz
    · rw [max_eq_right hlt.le]
      exact ⟨_, le_rfl, Or.inr ⟨i, hne, hlt, rfl⟩⟩
  · rw [clock_acquire_of_ne _ _ hu] at hnz ⊢
    exact hold hnz

theorem Ordered.irredundant_acquire (h : Ordered ops)
    (hnew : (run ops).released t < (run ops).clock t t) (a b : T × ℕ)
    (hab : (a, b) ∈ ((run ops).acquire t s).edges) (time : ℕ) (htime : time < b.2) :
    ¬ TransGen ((run ops).acquire t s).Before a (b.1, time) := by
  intro hr
  rcases hab with hab | ⟨i, hi, hlt, he⟩
  · have hb := h.logged.node_le b (h.logged.edge a b hab).2.1
    refine h.irredundant a b hab time htime (h.path_acquire hnew (fun he => ?_) hr)
    obtain ⟨ht, he⟩ := Prod.ext_iff.mp he
    simp only at ht he
    rw [ht] at hb
    omega
  · obtain ⟨rfl, rfl⟩ := Prod.ext_iff.mp he
    -- the thread would have known the time that it learns
    have hold := h.path_acquire hnew (fun he => htime.ne (Prod.ext_iff.mp he).2) hr
    have hle := h.logged.closed_reach (.clock t) hold htime.le
    exact absurd hle (not_le.mpr hlt)

theorem Ordered.keeps_acquire (h : Ordered ops) (hnew : (run ops).released t < (run ops).clock t t)
    (hset : Settled ops t) (u : T) (q : ℕ) (hq : EventOf ops u q) (a : T × ℕ)
    (hr : TransGen ((run ops).acquire t s).Before a (u, stamp ops q u)) :
    TransGen (run ops).Before a (u, stamp ops q u) := by
  refine h.path_acquire hnew (fun he => ?_) hr
  obtain ⟨rfl, he⟩ := Prod.ext_iff.mp he
  exact (hset q hq).ne he

theorem Ordered.acquire (h : Ordered ops) (hnew : (run ops).released t < (run ops).clock t t)
    (hset : Settled ops t) (s : S) : Ordered (ops ++ [.acquire t s]) := by
  refine h.step (fun _ => nofun) ?_
  change OrdersLast ops (.acquire t s) ((run ops).acquire t s)
  refine ⟨h.coherent.acquire hnew, h.logged.acquire h.coherent hnew,
    fun u => (h.coherent.clock_acquire_own t u s).ge, fun _ ha => ha, fun _ he => Or.inl he,
    fun u i e _ => ?_, fun s' i p hp => ?_, h.keeps_acquire hnew hset, h.learned_acquire t s,
    h.irredundant_acquire hnew⟩
  · rw [clock_acquire_iff]
    simp [RunOp.thread, RunOp.Acquires]
  · simp [RunOp.Overwrites, RunOp.Publishes, LoggedClocks.acquire, LoggedClocks.join]

end Acquire

section Release

/-- A release is made after everything that the thread has done. -/
theorem Settled.lt_iff (hset : Settled ops t) (hp : EventOf ops i p) :
    (t = i ∨ stamp ops p i < (run ops).clock t i) ↔ stamp ops p i < (run ops).clock t i := by
  refine or_iff_right_of_imp fun he => ?_
  subst he
  exact hset p hp

theorem Ordered.releaseStore (h : Ordered ops) (hset : Settled ops t) (s : S) :
    Ordered (ops ++ [.releaseStore t s]) := by
  have p := (run ops).publishes_releaseStore t s
  refine h.step (fun _ => nofun) ?_
  change OrdersLast ops (.releaseStore t s) ((run ops).releaseStore t s)
  refine ⟨p.coherent h.coherent, p.logged h.logged h.coherent, fun _ => le_rfl, fun _ ha => ha,
    fun _ he => he, fun _ _ _ _ => by simp [RunOp.Acquires, LoggedClocks.releaseStore],
    fun s' i q hq => ?_, fun _ _ _ _ hr => p.before ▸ hr, h.learned, ?_⟩
  · by_cases hs : s' = s
    · subst hs
      simp [LoggedClocks.releaseStore, RunOp.Overwrites, RunOp.Publishes, RunOp.Acquires,
        RunOp.thread, hset.lt_iff hq]
    · simp [LoggedClocks.releaseStore, RunOp.Overwrites, RunOp.Publishes, hs, Ne.symm hs]
  · rw [p.before]
    exact h.irredundant

theorem Ordered.release (h : Ordered ops) (hset : Settled ops t) (s : S) :
    Ordered (ops ++ [.release t s]) := by
  have p := (run ops).publishes_release t s
  refine h.step (fun _ => nofun) ?_
  change OrdersLast ops (.release t s) ((run ops).release t s)
  refine ⟨p.coherent h.coherent, p.logged h.logged h.coherent, fun _ => le_rfl, fun _ ha => ha,
    fun _ he => he, fun _ _ _ _ => by simp [RunOp.Acquires, LoggedClocks.release],
    fun s' i q hq => ?_, fun _ _ _ _ hr => p.before ▸ hr, h.learned, ?_⟩
  · by_cases hs : s' = s
    · subst hs
      simp [LoggedClocks.release, RunOp.Overwrites, RunOp.Publishes, RunOp.Acquires,
        RunOp.thread, hset.lt_iff hq]
    · simp [LoggedClocks.release, RunOp.Overwrites, RunOp.Publishes, hs, Ne.symm hs]
  · rw [p.before]
    exact h.irredundant

theorem Ordered.reset (h : Ordered ops) (s : S) : Ordered (ops ++ [.reset s]) := by
  refine h.step (fun _ => nofun) ?_
  change OrdersLast ops (.reset s) ((run ops).reset s)
  refine ⟨h.coherent.reset s, h.logged.reset s, fun _ => le_rfl, fun _ ha => ha, fun _ he => he,
    fun _ _ _ _ => by simp [RunOp.Acquires, LoggedClocks.reset], fun s' i q hq => ?_,
    fun _ _ _ _ hr => hr, h.learned, h.irredundant⟩
  by_cases hs : s' = s
  · subst hs
    simp [LoggedClocks.reset, RunOp.Overwrites, RunOp.Publishes]
  · simp [LoggedClocks.reset, RunOp.Overwrites, RunOp.Publishes, hs, Ne.symm hs]

theorem Ordered.acqRel (h : Ordered ops) (hnew : (run ops).released t < (run ops).clock t t)
    (hset : Settled ops t) (s : S) : Ordered (ops ++ [.acqRel t s]) := by
  have hc := h.coherent.acquire (s := s) hnew
  have hl := h.logged.acquire (s := s) h.coherent hnew
  have p := ((run ops).acquire t s).publishes_releaseStore t s
  refine h.step (fun _ => nofun) ?_
  change OrdersLast ops (.acqRel t s) (((run ops).acquire t s).releaseStore t s)
  refine ⟨p.coherent hc, p.logged hl hc, fun u => (h.coherent.clock_acquire_own t u s).ge,
    fun _ ha => ha, fun _ he => Or.inl he, fun u i e _ => ?_, fun s' i q hq => ?_, ?_,
    h.learned_acquire t s, ?_⟩
  · rw [p.clock, clock_acquire_iff]
    simp [RunOp.thread, RunOp.Acquires]
  · rw [p.sync]
    by_cases hs : s' = s
    · subst hs
      rw [Function.update_self, clock_acquire_iff]
      simp [RunOp.Overwrites, RunOp.Publishes, RunOp.Acquires, RunOp.thread, hset.lt_iff hq]
    · rw [Function.update_of_ne hs]
      simp [RunOp.Overwrites, RunOp.Publishes, Ne.symm hs, LoggedClocks.acquire, LoggedClocks.join]
  · rw [p.before]
    exact h.keeps_acquire hnew hset
  · rw [p.before]
    exact h.irredundant_acquire hnew

end Release

/-- The log of every legal run is its order. -/
theorem Legal.ordered (h : Legal ops) : Ordered ops := by
  induction h with
  | nil => exact ordered_nil
  | @append_singleton ops op _ hop h =>
    cases op with
    | event t => exact h.event t
    | tick t time => exact h.tick hop.1 hop.2
    | acquire t s => exact h.acquire hop.1 hop.2 s
    | release t s => exact h.release hop s
    | releaseStore t s => exact h.releaseStore hop s
    | acqRel t s => exact h.acqRel hop.1 hop.2 s
    | reset s => exact h.reset s

end Prd.Foundation
