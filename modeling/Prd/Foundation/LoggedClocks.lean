import Mathlib.Data.Set.Basic
import Mathlib.Logic.Function.Basic
import Mathlib.Logic.Relation
import Mathlib.Order.Basic
import Mathlib.Order.MinMax
import Mathlib.Order.Nat

/-!
# Vector clocks that log what they learn

Threads and synchronization objects have a vector of times, one for each thread. A
thread logs every time that it reaches, and an edge for every entry that grows when it
acquires an object. When a thread moves on between a release and what follows, the
logged graph is the order of the vectors.
-/
namespace Prd.Foundation

open Relation

/-- Paths do not pass through a node without a way out. -/
theorem transGen_of_sink {V : Type} {R R' : V → V → Prop} {z : V} (hz : ∀ b, ¬ R' z b)
    (hold : ∀ a b, R' a b → b ≠ z → R a b) {a b : V} (h : TransGen R' a b) (hb : b ≠ z) :
    TransGen R a b := by
  induction h with
  | single h => exact .single (hold _ _ h hb)
  | @tail c b _ h ih =>
    have hc : c ≠ z := by
      intro hc
      subst hc
      exact hz b h
    exact (ih hc).tail (hold _ _ h hb)

/-- Paths that end in a node without a way out make no cycle. -/
theorem acyclic_of_sink {V : Type} {R R' : V → V → Prop} {z : V} (hR : ∀ a, ¬ TransGen R a a)
    (hz : ∀ b, ¬ R' z b) (hold : ∀ a b, R' a b → b ≠ z → R a b) (a : V) : ¬ TransGen R' a a := by
  intro hcycle
  have ha : a ≠ z := by
    intro ha
    subst ha
    obtain ⟨b, hb, -⟩ := TransGen.head'_iff.mp hcycle
    exact hz b hb
  exact hR a (transGen_of_sink hz hold hcycle ha)

structure LoggedClocks (T S : Type) where
  clock : T → T → ℕ
  sync : S → T → ℕ
  /-- The time of the last release of a thread. -/
  released : T → ℕ
  /-- The time at which a thread has last learned something. -/
  lastAcquire : T → ℕ
  nodes : List (T × ℕ)
  edges : Set ((T × ℕ) × (T × ℕ))

namespace LoggedClocks

variable {T S : Type}

def new : LoggedClocks T S := ⟨fun _ _ => 0, fun _ _ => 0, fun _ => 0, fun _ => 0, [], ∅⟩

variable (c : LoggedClocks T S)

/-- The vectors of a system. -/
inductive IsVector : (T → ℕ) → Prop
  | clock (u : T) : IsVector (c.clock u)
  | sync (s : S) : IsVector (c.sync s)

/-- The vectors that know of a thread by its releases only. -/
inductive IsCopy (t : T) : (T → ℕ) → Prop
  | clock (u : T) : u ≠ t → IsCopy t (c.clock u)
  | sync (s : S) : IsCopy t (c.sync s)

/-- An edge of the graph, whose nodes of one thread are ordered by their times. -/
def Before (a b : T × ℕ) : Prop :=
  (a ∈ c.nodes ∧ b ∈ c.nodes ∧ a.1 = b.1 ∧ a.2 < b.2) ∨ (a, b) ∈ c.edges

/-- What a thread would learn from an object. -/
def growth (t : T) (s : S) : Set ((T × ℕ) × (T × ℕ)) :=
  {e | ∃ i, i ≠ t ∧ c.clock t i < c.sync s i ∧ e = ((i, c.sync s i), (t, c.clock t t))}

section Operations

variable [DecidableEq T] [DecidableEq S]

def tick (t : T) (time : ℕ) : LoggedClocks T S :=
  { c with
    clock := Function.update c.clock t (Function.update (c.clock t) t time)
    nodes := if c.clock t t = time then c.nodes else c.nodes ++ [(t, time)] }

/-- A thread learns what an object says. -/
def join (t : T) (s : S) : LoggedClocks T S :=
  { c with
    clock := Function.update c.clock t (fun i => max (c.clock t i) (c.sync s i))
    edges := c.edges ∪ c.growth t s }

open Classical in
noncomputable def acquire (t : T) (s : S) : LoggedClocks T S :=
  { c.join t s with
    lastAcquire := if ∃ i, c.clock t i < c.sync s i then
      Function.update c.lastAcquire t (c.clock t t) else c.lastAcquire }

def release (t : T) (s : S) : LoggedClocks T S :=
  { c with
    sync := Function.update c.sync s (fun i => max (c.sync s i) (c.clock t i))
    released := Function.update c.released t (c.clock t t) }

def releaseStore (t : T) (s : S) : LoggedClocks T S :=
  { c with
    sync := Function.update c.sync s (c.clock t)
    released := Function.update c.released t (c.clock t t) }

/-- Everything that was released to an object is forgotten. -/
def reset (s : S) : LoggedClocks T S := { c with sync := Function.update c.sync s fun _ => 0 }

end Operations

/-- What a vector knows of a thread was released, and what a thread releases after it has
learned something comes with all that the thread knows. -/
structure Coherent : Prop where
  released_le : ∀ t, c.released t ≤ c.clock t t
  le_released : ∀ t W, c.IsCopy t W → W t ≤ c.released t
  learned : ∀ t W, c.IsCopy t W → c.lastAcquire t < W t → ∀ i, i ≠ t → c.clock t i ≤ W i

/-- The graph is the order of the vectors. -/
structure Logged : Prop where
  increasing : c.nodes.Pairwise fun a b => a.1 = b.1 → a.2 < b.2
  node_pos : ∀ a ∈ c.nodes, 0 < a.2
  node_le : ∀ a ∈ c.nodes, a.2 ≤ c.clock a.1 a.1
  node_of_vector : ∀ W, c.IsVector W → ∀ i, W i ≠ 0 → (i, W i) ∈ c.nodes
  edge : ∀ a b, (a, b) ∈ c.edges → a ∈ c.nodes ∧ b ∈ c.nodes ∧ a.1 ≠ b.1
  closed : ∀ W, c.IsVector W → ∀ a b, c.Before a b → b.2 ≤ W b.1 → a.2 ≤ W a.1
  reach : ∀ t i time, i ≠ t → (i, time) ∈ c.nodes → time ≤ c.clock t i →
    TransGen c.Before (i, time) (t, c.clock t t)
  sink : ∀ t, c.released t < c.clock t t → ∀ b, ¬ c.Before (t, c.clock t t) b
  acyclic : ∀ a, ¬ TransGen c.Before a a

theorem coherent_new : (new : LoggedClocks T S).Coherent where
  released_le := fun _ => le_rfl
  le_released := by
    intro t W hW
    cases hW <;> exact le_rfl
  learned := fun _ _ _ _ _ _ => Nat.zero_le _

theorem not_before_new (a b : T × ℕ) : ¬ (new : LoggedClocks T S).Before a b := by
  simp [Before, new]

theorem logged_new : (new : LoggedClocks T S).Logged where
  increasing := List.Pairwise.nil
  node_pos := by simp [new]
  node_le := by simp [new]
  node_of_vector := by
    intro W hW i hi
    cases hW <;> exact absurd rfl hi
  edge := by simp [new]
  closed := fun _ _ a b hab => absurd hab (not_before_new a b)
  reach := by simp [new]
  sink := fun _ _ b => not_before_new _ b
  acyclic := by
    intro a ha
    obtain ⟨b, hb, -⟩ := TransGen.head'_iff.mp ha
    exact not_before_new a b hb

variable {c}

section Facts

theorem IsCopy.isVector {t : T} {W : T → ℕ} (h : c.IsCopy t W) : c.IsVector W := by
  cases h with
  | clock u _ => exact .clock u
  | sync s => exact .sync s

theorem Logged.before_mem (h : c.Logged) {a b : T × ℕ} (hab : c.Before a b) :
    a ∈ c.nodes ∧ b ∈ c.nodes := by
  rcases hab with ⟨ha, hb, -⟩ | hab
  · exact ⟨ha, hb⟩
  · exact ⟨(h.edge a b hab).1, (h.edge a b hab).2.1⟩

theorem Logged.reach_mem (h : c.Logged) {a b : T × ℕ} (hab : TransGen c.Before a b) :
    a ∈ c.nodes ∧ b ∈ c.nodes := by
  induction hab with
  | single hab => exact h.before_mem hab
  | tail _ hbc ih => exact ⟨ih.1, (h.before_mem hbc).2⟩

theorem Logged.closed_reach (h : c.Logged) {W : T → ℕ} (hW : c.IsVector W) {a b : T × ℕ}
    (hab : TransGen c.Before a b) (hb : b.2 ≤ W b.1) : a.2 ≤ W a.1 := by
  induction hab using TransGen.head_induction_on with
  | single hab => exact h.closed W hW _ _ hab hb
  | head hac _ ih => exact h.closed W hW _ _ hac ih

theorem Logged.nodup (h : c.Logged) : c.nodes.Nodup := by
  refine List.Pairwise.imp (fun {a b} hab => ?_) h.increasing
  rintro rfl
  exact lt_irrefl _ (hab rfl)

/-- The nodes of a thread reach its later nodes only. -/
theorem Logged.reaches_thread_iff (h : c.Logged) {t : T} {time time' : ℕ} (hn : (t, time) ∈ c.nodes)
    (hn' : (t, time') ∈ c.nodes) : TransGen c.Before (t, time) (t, time') ↔ time < time' := by
  constructor
  · intro hr
    by_contra hle
    rcases (not_lt.mp hle).eq_or_lt with rfl | hlt
    · exact h.acyclic _ hr
    · exact h.acyclic _ (hr.tail (Or.inl ⟨hn', hn, rfl, hlt⟩))
  · exact fun hlt => .single (Or.inl ⟨hn, hn', rfl, hlt⟩)

/-- What a thread learns is between nodes. -/
theorem Logged.mem_of_growth (h : c.Logged) {t : T} {s : S} (hpos : 0 < c.clock t t)
    {e : (T × ℕ) × (T × ℕ)} (he : e ∈ c.growth t s) : e.1 ∈ c.nodes ∧ e.2 ∈ c.nodes := by
  obtain ⟨i, -, hlt, rfl⟩ := he
  exact ⟨h.node_of_vector _ (.sync s) i (by omega), h.node_of_vector _ (.clock t) t hpos.ne'⟩

/-- A thread that has learned nothing since its release to an object changes its own entry only. -/
theorem Coherent.update_eq_max [DecidableEq T] (h : c.Coherent) {t : T} {s : S}
    (hlt : c.lastAcquire t < c.sync s t) : Function.update (c.sync s) t (c.clock t t) =
      fun i => max (c.sync s i) (c.clock t i) := by
  have hle := (h.le_released t _ (.sync s)).trans (h.released_le t)
  funext i
  by_cases hi : i = t
  · subst hi
    rw [Function.update_self, max_eq_right hle]
  · rw [Function.update_of_ne hi, max_eq_left (h.learned t _ (.sync s) hlt i hi)]

/-- A node reaches the current node of another thread exactly when the thread's clock has it. -/
theorem Logged.reaches_iff (h : c.Logged) {t i : T} {time : ℕ} (hne : i ≠ t)
    (hn : (i, time) ∈ c.nodes) :
    TransGen c.Before (i, time) (t, c.clock t t) ↔ time ≤ c.clock t i :=
  ⟨fun hr => h.closed_reach (.clock t) hr le_rfl, h.reach t i time hne hn⟩

end Facts

section Tick

variable [DecidableEq T] {t : T} {time : ℕ}

@[simp] theorem clock_tick_self (c : LoggedClocks T S) (t : T) (time : ℕ) :
    (c.tick t time).clock t = Function.update (c.clock t) t time := by
  simp [tick]

theorem clock_tick_of_ne (c : LoggedClocks T S) {t u : T} (time : ℕ) (hu : u ≠ t) :
    (c.tick t time).clock u = c.clock u := by
  simp [tick, hu]

/-- The vectors do not know of the new time. -/
theorem isVector_tick {W : T → ℕ} (h : (c.tick t time).IsVector W) :
    W = Function.update (c.clock t) t time ∨ c.IsCopy t W := by
  cases h with
  | clock u =>
    by_cases hu : u = t
    · subst hu
      exact Or.inl (clock_tick_self c u time)
    · rw [clock_tick_of_ne c time hu]
      exact Or.inr (.clock u hu)
  | sync s => exact Or.inr (.sync s)

theorem Coherent.tick (h : c.Coherent) (hle : c.clock t t ≤ time) : (c.tick t time).Coherent where
  released_le := by
    intro u
    have hu := h.released_le u
    by_cases hut : u = t
    · subst hut
      rw [clock_tick_self, Function.update_self]
      exact hu.trans hle
    · rw [clock_tick_of_ne c time hut]
      exact hu
  le_released := by
    intro u W hW
    cases hW with
    | clock v hv =>
      have hvu := h.le_released u _ (.clock v hv)
      by_cases hvt : v = t
      · subst hvt
        rw [clock_tick_self, Function.update_of_ne (Ne.symm hv)]
        exact hvu
      · rw [clock_tick_of_ne c time hvt]
        exact hvu
    | sync s => exact h.le_released u _ (.sync s)
  learned := by
    intro u W hW hlt i hi
    have hclock : (c.tick t time).clock u i = c.clock u i := by
      by_cases hut : u = t
      · subst hut
        rw [clock_tick_self, Function.update_of_ne hi]
      · rw [clock_tick_of_ne c time hut]
    rw [hclock]
    cases hW with
    | clock v hv =>
      by_cases hvt : v = t
      · subst hvt
        rw [clock_tick_self] at hlt ⊢
        rw [Function.update_of_ne (Ne.symm hv)] at hlt
        have hvi := h.learned u _ (.clock v hv) hlt i hi
        by_cases hiv : i = v
        · subst hiv
          rw [Function.update_self]
          exact hvi.trans hle
        · rw [Function.update_of_ne hiv]
          exact hvi
      · rw [clock_tick_of_ne c time hvt] at hlt ⊢
        exact h.learned u _ (.clock v hv) hlt i hi
    | sync s => exact h.learned u _ (.sync s) hlt i hi

theorem tick_self (c : LoggedClocks T S) (t : T) : c.tick t (c.clock t t) = c := by
  unfold LoggedClocks.tick
  rw [if_pos rfl, Function.update_eq_self, Function.update_eq_self]

theorem mem_nodes_tick (hne : c.clock t t ≠ time) (a : T × ℕ) :
    a ∈ (c.tick t time).nodes ↔ a ∈ c.nodes ∨ a = (t, time) := by
  simp [tick, hne]

theorem Before.tick {a b : T × ℕ} (h : c.Before a b) (time : ℕ) : (c.tick t time).Before a b := by
  by_cases hne : c.clock t t = time
  · subst hne
    rw [tick_self]
    exact h
  · rcases h with ⟨ha, hb, hab⟩ | hab
    · exact Or.inl ⟨(mem_nodes_tick hne a).mpr (Or.inl ha), (mem_nodes_tick hne b).mpr (Or.inl hb),
        hab⟩
    · exact Or.inr hab

theorem reach_tick {a b : T × ℕ} (h : TransGen c.Before a b) (time : ℕ) :
    TransGen (c.tick t time).Before a b :=
  h.lift id fun _ _ hab => hab.tick time

/-- A new node only has ways in, from its own thread. -/
theorem before_tick (h : c.Logged) (hlt : c.clock t t < time) {a b : T × ℕ}
    (hab : (c.tick t time).Before a b) :
    a ≠ (t, time) ∧ (c.Before a b ∨ b = (t, time) ∧ a ∈ c.nodes ∧ a.1 = t) := by
  have hold : ∀ a ∈ c.nodes, a.1 = t → a.2 < time := by
    intro a ha hat
    have hle := h.node_le a ha
    rw [hat] at hle
    exact hle.trans_lt hlt
  have hne : ∀ a ∈ c.nodes, a ≠ (t, time) := by
    intro a ha he
    subst he
    exact lt_irrefl _ (hold _ ha rfl)
  rcases hab with ⟨ha, hb, htid, htime⟩ | hab
  · rw [mem_nodes_tick hlt.ne] at ha hb
    rcases hb with hb | rfl
    · rcases ha with ha | rfl
      · exact ⟨hne a ha, Or.inl (Or.inl ⟨ha, hb, htid, htime⟩)⟩
      · exact absurd (hold b hb htid.symm) (lt_asymm htime)
    · rcases ha with ha | rfl
      · exact ⟨hne a ha, Or.inr ⟨rfl, ha, htid⟩⟩
      · exact absurd htime (lt_irrefl _)
  · exact ⟨hne a (h.edge a b hab).1, Or.inl (Or.inr hab)⟩

theorem Logged.tick (h : c.Logged) (hc : c.Coherent) (hpos : 0 < time) (hle : c.clock t t ≤ time) :
    (c.tick t time).Logged := by
  rcases hle.eq_or_lt with rfl | hlt
  · rw [tick_self]
    exact h
  have hcopy : ∀ W, c.IsCopy t W → W t < time := fun W hW =>
    ((hc.le_released t W hW).trans (hc.released_le t)).trans_lt hlt
  have hmem := fun a => mem_nodes_tick (c := c) (t := t) hlt.ne a
  have hsink : ∀ b, ¬ (c.tick t time).Before (t, time) b :=
    fun b hb => (before_tick h hlt hb).1 rfl
  have hclosed : ∀ W, (c.tick t time).IsVector W → ∀ a b, (c.tick t time).Before a b → b.2 ≤ W b.1 →
      a.2 ≤ W a.1 := by
    intro W hW a b hab hb
    obtain ⟨hne, hab⟩ := before_tick h hlt hab
    rcases isVector_tick hW with rfl | hW
    · rcases hab with hab | ⟨rfl, ha, hat⟩
      · by_cases hat : a.1 = t
        · rw [hat, Function.update_self]
          have := h.node_le a (h.before_mem hab).1
          rw [hat] at this
          exact this.trans hle
        · rw [Function.update_of_ne hat]
          by_cases hbt : b.1 = t
          · have hbn := h.node_le b (h.before_mem hab).2
            rw [hbt] at hbn
            exact h.closed _ (.clock t) a b hab (by rw [hbt]; exact hbn)
          · rw [Function.update_of_ne hbt] at hb
            exact h.closed _ (.clock t) a b hab hb
      · rw [hat, Function.update_self]
        have := h.node_le a ha
        rw [hat] at this
        exact this.trans hle
    · rcases hab with hab | ⟨rfl, -, -⟩
      · exact h.closed W hW.isVector a b hab hb
      · exact absurd hb (not_le.mpr (hcopy W hW))
  constructor
  · unfold LoggedClocks.tick
    rw [if_neg hlt.ne, List.pairwise_append]
    refine ⟨h.increasing, List.pairwise_singleton _ _, ?_⟩
    intro a ha b hb hab
    rw [List.mem_singleton] at hb
    subst hb
    have := h.node_le a ha
    rw [hab] at this
    exact this.trans_lt hlt
  · intro a ha
    rcases (hmem a).mp ha with ha | rfl
    · exact h.node_pos a ha
    · exact hpos
  · intro a ha
    rcases (hmem a).mp ha with ha | rfl
    · have hn := h.node_le a ha
      by_cases hat : a.1 = t
      · rw [hat] at hn ⊢
        rw [clock_tick_self, Function.update_self]
        exact hn.trans hle
      · rw [clock_tick_of_ne c time hat]
        exact hn
    · rw [clock_tick_self, Function.update_self]
  · intro W hW i hi
    rw [hmem]
    rcases isVector_tick hW with rfl | hW
    · by_cases hit : i = t
      · subst hit
        rw [Function.update_self]
        exact Or.inr rfl
      · rw [Function.update_of_ne hit] at hi ⊢
        exact Or.inl (h.node_of_vector _ (.clock t) i hi)
    · exact Or.inl (h.node_of_vector _ hW.isVector i hi)
  · intro a b hab
    obtain ⟨ha, hb, hne⟩ := h.edge a b hab
    exact ⟨(hmem a).mpr (Or.inl ha), (hmem b).mpr (Or.inl hb), hne⟩
  · exact hclosed
  · intro u i e hne hn' he
    have hn : (i, e) ∈ c.nodes := by
      rcases (hmem _).mp hn' with hn | hn
      · exact hn
      · cases hn
        exfalso
        rw [clock_tick_of_ne c time (Ne.symm hne)] at he
        exact absurd he (not_le.mpr (hcopy _ (.clock u (Ne.symm hne))))
    by_cases hu : u = t
    · subst hu
      rw [clock_tick_self, Function.update_of_ne hne] at he
      have hr := h.reach u i e hne hn he
      rw [clock_tick_self, Function.update_self]
      refine (reach_tick hr time).tail (Or.inl ⟨?_, ?_, rfl, hlt⟩)
      · exact (hmem _).mpr (Or.inl (h.reach_mem hr).2)
      · exact (hmem _).mpr (Or.inr rfl)
    · rw [clock_tick_of_ne c time hu] at he ⊢
      exact reach_tick (h.reach u i e hne hn he) time
  · intro u hu b hb
    by_cases hut : u = t
    · subst hut
      rw [clock_tick_self, Function.update_self] at hb
      exact hsink b hb
    · rw [clock_tick_of_ne c time hut] at hu hb
      rcases (before_tick h hlt hb).2 with hb | ⟨-, -, hut'⟩
      · exact h.sink u hu b hb
      · exact hut hut'
  · refine acyclic_of_sink h.acyclic hsink (fun a b hab hb => ?_)
    rcases (before_tick h hlt hab).2 with hab | ⟨rfl, -⟩
    · exact hab
    · exact absurd rfl hb

end Tick

section Acquire

variable [DecidableEq T] {t : T} {s : S}

theorem clock_join_self (c : LoggedClocks T S) (t : T) (s : S) :
    (c.join t s).clock t = fun i => max (c.clock t i) (c.sync s i) := Function.update_self _ _ _

theorem clock_join_of_ne (c : LoggedClocks T S) {t u : T} (s : S) (hu : u ≠ t) :
    (c.join t s).clock u = c.clock u := Function.update_of_ne hu _ _

theorem clock_le_join (c : LoggedClocks T S) (t : T) (s : S) (u i : T) :
    c.clock u i ≤ (c.join t s).clock u i := by
  by_cases hu : u = t
  · subst hu
    rw [clock_join_self]
    exact le_max_left _ _
  · rw [clock_join_of_ne c s hu]

@[simp] theorem clock_acquire_self (c : LoggedClocks T S) (t : T) (s : S) :
    (c.acquire t s).clock t = fun i => max (c.clock t i) (c.sync s i) := clock_join_self c t s

theorem clock_acquire_of_ne (c : LoggedClocks T S) {t u : T} (s : S) (hu : u ≠ t) :
    (c.acquire t s).clock u = c.clock u := clock_join_of_ne c s hu

theorem clock_acquire_iff (c : LoggedClocks T S) (t u i : T) (s : S) (e : ℕ) :
    e < (c.acquire t s).clock u i ↔ e < c.clock u i ∨ t = u ∧ e < c.sync s i := by
  by_cases hu : u = t
  · subst hu
    simp
  · rw [clock_acquire_of_ne c s hu]
    simp [Ne.symm hu]

/-- A thread learns nothing about itself. -/
theorem Coherent.clock_acquire_own (h : c.Coherent) (t u : T) (s : S) :
    (c.acquire t s).clock u u = c.clock u u := by
  by_cases hu : u = t
  · subst hu
    have hle := (h.le_released u _ (.sync s)).trans (h.released_le u)
    simp [hle]
  · rw [clock_acquire_of_ne c s hu]

theorem isVector_acquire {W : T → ℕ} (h : (c.acquire t s).IsVector W) :
    (W = fun i => max (c.clock t i) (c.sync s i)) ∨ c.IsCopy t W := by
  cases h with
  | clock u =>
    by_cases hu : u = t
    · subst hu
      exact Or.inl (clock_acquire_self c u s)
    · rw [clock_acquire_of_ne c s hu]
      exact Or.inr (.clock u hu)
  | sync s' => exact Or.inr (.sync s')

/-- Joining what is known already changes nothing. -/
theorem join_of_le (h : ∀ i, c.sync s i ≤ c.clock t i) : c.join t s = c := by
  have hclock : (fun i => max (c.clock t i) (c.sync s i)) = c.clock t :=
    funext fun i => max_eq_left (h i)
  have hgrowth : c.growth t s = ∅ := by
    refine Set.eq_empty_iff_forall_notMem.mpr fun e he => ?_
    obtain ⟨i, -, hlt, -⟩ := he
    exact absurd (h i) (not_le.mpr hlt)
  unfold join
  rw [hclock, Function.update_eq_self, hgrowth, Set.union_empty]

theorem acquire_of_le (h : ∀ i, c.sync s i ≤ c.clock t i) : c.acquire t s = c := by
  have hnone : ¬ ∃ i, c.clock t i < c.sync s i := by
    rintro ⟨i, hlt⟩
    exact absurd (h i) (not_le.mpr hlt)
  unfold acquire
  rw [join_of_le h, if_neg hnone]

/-- The copies after an acquisition are old ones or join two of them. -/
theorem isCopy_acquire {u : T} {W : T → ℕ} (h : (c.acquire t s).IsCopy u W) :
    c.IsCopy u W ∨ t ≠ u ∧ W = fun i => max (c.clock t i) (c.sync s i) := by
  cases h with
  | clock v hv =>
    by_cases hvt : v = t
    · subst hvt
      exact Or.inr ⟨hv, clock_acquire_self c v s⟩
    · rw [clock_acquire_of_ne c s hvt]
      exact Or.inl (.clock v hv)
  | sync s' => exact Or.inl (.sync s')

theorem lastAcquire_acquire (c : LoggedClocks T S) (t : T) (s : S) (u : T) :
    (c.acquire t s).lastAcquire u = c.lastAcquire u ∧ (u = t → ∀ i, c.sync s i ≤ c.clock t i) ∨
      u = t ∧ (c.acquire t s).lastAcquire u = c.clock t t := by
  unfold acquire
  by_cases hgrow : ∃ i, c.clock t i < c.sync s i
  · rw [if_pos hgrow]
    by_cases hu : u = t
    · subst hu
      exact Or.inr ⟨rfl, Function.update_self _ _ _⟩
    · exact Or.inl ⟨Function.update_of_ne hu _ _, fun he => absurd he hu⟩
  · rw [if_neg hgrow]
    exact Or.inl ⟨rfl, fun _ i => not_lt.mp fun hlt => hgrow ⟨i, hlt⟩⟩

theorem Coherent.acquire (h : c.Coherent) (hnew : c.released t < c.clock t t) :
    (c.acquire t s).Coherent where
  released_le := by
    intro u
    rw [h.clock_acquire_own]
    exact h.released_le u
  le_released := by
    intro u W hW
    rcases isCopy_acquire hW with hW | ⟨htu, rfl⟩
    · exact h.le_released u W hW
    · exact max_le (h.le_released u _ (.clock t htu)) (h.le_released u _ (.sync s))
  learned := by
    intro u W hW hlt i hi
    have hWu : W u ≤ c.released u := by
      rcases isCopy_acquire hW with hW | ⟨htu, rfl⟩
      · exact h.le_released u W hW
      · exact max_le (h.le_released u _ (.clock t htu)) (h.le_released u _ (.sync s))
    rcases lastAcquire_acquire c t s u with ⟨hlast, hsame⟩ | ⟨rfl, hlast⟩
    · have hclock : (c.acquire t s).clock u i = c.clock u i := by
        by_cases hut : u = t
        · subst hut
          rw [clock_acquire_self]
          exact max_eq_left (hsame rfl i)
        · rw [clock_acquire_of_ne c s hut]
      rw [hlast] at hlt
      rw [hclock]
      rcases isCopy_acquire hW with hW | ⟨htu, rfl⟩
      · exact h.learned u W hW hlt i hi
      · rcases lt_max_iff.mp hlt with hlt | hlt
        · exact le_max_of_le_left (h.learned u _ (.clock t htu) hlt i hi)
        · exact le_max_of_le_right (h.learned u _ (.sync s) hlt i hi)
    · rw [hlast] at hlt
      exact absurd (hWu.trans_lt hnew) (lt_asymm hlt)

theorem Before.acquire {a b : T × ℕ} (h : c.Before a b) (t : T) (s : S) :
    (c.acquire t s).Before a b := by
  rcases h with h | h
  · exact Or.inl h
  · exact Or.inr (Or.inl h)

theorem before_acquire {a b : T × ℕ} (hab : (c.acquire t s).Before a b) :
    c.Before a b ∨ (a, b) ∈ c.growth t s := by
  rcases hab with hab | hab | hab
  · exact Or.inl (Or.inl hab)
  · exact Or.inl (Or.inr hab)
  · exact Or.inr hab

theorem Logged.acquire (h : c.Logged) (hc : c.Coherent) (hnew : c.released t < c.clock t t) :
    (c.acquire t s).Logged := by
  have hcopy : ∀ W, c.IsCopy t W → W t < c.clock t t := fun W hW =>
    (hc.le_released t W hW).trans_lt hnew
  have hown := fun u => hc.clock_acquire_own t u s
  have hgrowth : ∀ a b, (a, b) ∈ c.growth t s → a.1 ≠ t ∧ a.2 = c.sync s a.1 ∧
      c.clock t a.1 < a.2 ∧ b = (t, c.clock t t) := by
    intro a b hab
    obtain ⟨i, hi, hlt, he⟩ := hab
    cases he
    exact ⟨hi, rfl, hlt, rfl⟩
  have hcur : (t, c.clock t t) ∈ c.nodes := h.node_of_vector _ (.clock t) t (by omega)
  have hsink : ∀ u, c.released u < c.clock u u →
      ∀ b, ¬ (c.acquire t s).Before (u, c.clock u u) b := by
    intro u hu b hb
    rcases before_acquire hb with hb | hb
    · exact h.sink u hu b hb
    · obtain ⟨-, htime, -⟩ := hgrowth _ _ hb
      have hle := hc.le_released u _ (.sync s)
      simp only at htime
      omega
  constructor
  · exact h.increasing
  · exact h.node_pos
  · intro a ha
    rw [hown]
    exact h.node_le a ha
  · intro W hW i hi
    change (i, W i) ∈ c.nodes
    rcases isVector_acquire hW with rfl | hW
    · rcases max_choice (c.clock t i) (c.sync s i) with hmax | hmax
      · simp only [hmax] at hi ⊢
        exact h.node_of_vector _ (.clock t) i hi
      · simp only [hmax] at hi ⊢
        exact h.node_of_vector _ (.sync s) i hi
    · exact h.node_of_vector _ hW.isVector i hi
  · intro a b hab
    rcases hab with hab | hab
    · exact h.edge a b hab
    · obtain ⟨hne, htime, hlt, rfl⟩ := hgrowth a b hab
      refine ⟨?_, hcur, hne⟩
      have ha := h.node_of_vector _ (.sync s) a.1 (by omega)
      rw [← htime] at ha
      exact ha
  · intro W hW a b hab hb
    rcases before_acquire hab with hab | hab
    · rcases isVector_acquire hW with rfl | hW
      · rcases le_max_iff.mp hb with hb | hb
        · exact le_max_of_le_left (h.closed _ (.clock t) a b hab hb)
        · exact le_max_of_le_right (h.closed _ (.sync s) a b hab hb)
      · exact h.closed W hW.isVector a b hab hb
    · obtain ⟨-, htime, -, rfl⟩ := hgrowth a b hab
      rcases isVector_acquire hW with rfl | hW
      · exact le_max_of_le_right htime.le
      · exact absurd hb (not_le.mpr (hcopy W hW))
  · intro u i e hne hn he
    rw [hown]
    have hold : e ≤ c.clock u i → TransGen (c.acquire t s).Before (i, e) (u, c.clock u u) :=
      fun he => (h.reach u i e hne hn he).lift id fun _ _ hab => hab.acquire t s
    by_cases hu : u = t
    · subst hu
      rw [clock_acquire_self] at he
      by_cases hle : e ≤ c.clock u i
      · exact hold hle
      · -- the edge of the entry that grows, after the chain of its thread
        have hsync : e ≤ c.sync s i := (le_max_iff.mp he).resolve_left hle
        have hedge : (c.acquire u s).Before (i, c.sync s i) (u, c.clock u u) :=
          Or.inr (Or.inr ⟨i, hne, by omega, rfl⟩)
        rcases hsync.eq_or_lt with rfl | hlt
        · exact .single hedge
        · have hnode := h.node_of_vector _ (.sync s) i (by omega)
          have hchain : (c.acquire u s).Before (i, e) (i, c.sync s i) :=
            Or.inl ⟨hn, hnode, rfl, hlt⟩
          exact (TransGen.single hchain).tail hedge
    · rw [clock_acquire_of_ne c s hu] at he
      exact hold he
  · intro u hu b hb
    rw [hown] at hu hb
    exact hsink u hu b hb
  · refine acyclic_of_sink h.acyclic (hsink t hnew) (fun a b hab hb => ?_)
    rcases before_acquire hab with hab | hab
    · exact hab
    · exact absurd (hgrowth a b hab).2.2.2 hb

end Acquire

section Release

variable [DecidableEq T] [DecidableEq S] {t : T} {s : S}

/-- An object takes over a vector that joins vectors of the system, the thread's own among them. -/
structure Publishes (c c' : LoggedClocks T S) (t : T) (s : S) (V : T → ℕ) : Prop where
  clock : c'.clock = c.clock
  sync : c'.sync = Function.update c.sync s V
  released : c'.released = Function.update c.released t (c.clock t t)
  lastAcquire : c'.lastAcquire = c.lastAcquire
  nodes : c'.nodes = c.nodes
  edges : c'.edges = c.edges
  own : ∀ i, c.clock t i ≤ V i
  join : ∀ i, V i = c.clock t i ∨ V i = c.sync s i
  whole : V = c.clock t ∨ ∀ i, c.sync s i ≤ V i

theorem publishes_release (c : LoggedClocks T S) (t : T) (s : S) :
    c.Publishes (c.release t s) t s (fun i => max (c.sync s i) (c.clock t i)) where
  clock := rfl
  sync := rfl
  released := rfl
  lastAcquire := rfl
  nodes := rfl
  edges := rfl
  own := fun _ => le_max_right _ _
  join := fun i => (max_choice (c.sync s i) (c.clock t i)).symm
  whole := Or.inr fun _ => le_max_left _ _

theorem publishes_releaseStore (c : LoggedClocks T S) (t : T) (s : S) :
    c.Publishes (c.releaseStore t s) t s (c.clock t) where
  clock := rfl
  sync := rfl
  released := rfl
  lastAcquire := rfl
  nodes := rfl
  edges := rfl
  own := fun _ => le_rfl
  join := fun _ => Or.inl rfl
  whole := Or.inl rfl

variable {c' : LoggedClocks T S} {V : T → ℕ}

namespace Publishes

theorem isVector (p : c.Publishes c' t s V) {W : T → ℕ} (h : c'.IsVector W) :
    W = V ∨ c.IsVector W := by
  cases h with
  | clock u =>
    rw [p.clock]
    exact Or.inr (.clock u)
  | sync s' =>
    rw [p.sync]
    by_cases hs : s' = s
    · subst hs
      rw [Function.update_self]
      exact Or.inl rfl
    · rw [Function.update_of_ne hs]
      exact Or.inr (.sync s')

theorem isCopy (p : c.Publishes c' t s V) {u : T} {W : T → ℕ} (h : c'.IsCopy u W) :
    W = V ∨ c.IsCopy u W := by
  cases h with
  | clock v hv =>
    rw [p.clock]
    exact Or.inr (.clock v hv)
  | sync s' =>
    rw [p.sync]
    by_cases hs : s' = s
    · subst hs
      rw [Function.update_self]
      exact Or.inl rfl
    · rw [Function.update_of_ne hs]
      exact Or.inr (.sync s')

theorem before (p : c.Publishes c' t s V) : c'.Before = c.Before := by
  unfold Before
  rw [p.nodes, p.edges]

theorem released_le (p : c.Publishes c' t s V) (h : c.Coherent) (u : T) :
    c.released u ≤ c'.released u := by
  rw [p.released]
  by_cases hu : u = t
  · subst hu
    rw [Function.update_self]
    exact h.released_le u
  · rw [Function.update_of_ne hu]

theorem coherent (p : c.Publishes c' t s V) (h : c.Coherent) : c'.Coherent where
  released_le := by
    intro u
    rw [p.released, p.clock]
    by_cases hu : u = t
    · subst hu
      rw [Function.update_self]
    · rw [Function.update_of_ne hu]
      exact h.released_le u
  le_released := by
    intro u W hW
    rcases p.isCopy hW with rfl | hW
    · rcases p.join u with hu | hu
      · rw [hu]
        by_cases hut : u = t
        · subst hut
          rw [p.released, Function.update_self]
        · exact (h.le_released u _ (.clock t (Ne.symm hut))).trans (p.released_le h u)
      · rw [hu]
        exact (h.le_released u _ (.sync s)).trans (p.released_le h u)
    · exact (h.le_released u W hW).trans (p.released_le h u)
  learned := by
    intro u W hW hlt i hi
    rw [p.lastAcquire] at hlt
    rw [p.clock]
    rcases p.isCopy hW with rfl | hW
    · by_cases hut : u = t
      · subst hut
        exact p.own i
      · rcases p.join u with hu | hu
        · rw [hu] at hlt
          exact (h.learned u _ (.clock t (Ne.symm hut)) hlt i hi).trans (p.own i)
        · rcases p.whole with rfl | hsync
          · exact h.learned u _ (.clock t (Ne.symm hut)) hlt i hi
          · rw [hu] at hlt
            exact (h.learned u _ (.sync s) hlt i hi).trans (hsync i)
    · exact h.learned u W hW hlt i hi

theorem logged (p : c.Publishes c' t s V) (h : c.Logged) (hc : c.Coherent) : c'.Logged where
  increasing := by
    rw [p.nodes]
    exact h.increasing
  node_pos := by
    rw [p.nodes]
    exact h.node_pos
  node_le := by
    rw [p.nodes, p.clock]
    exact h.node_le
  node_of_vector := by
    intro W hW i hi
    rw [p.nodes]
    rcases p.isVector hW with rfl | hW
    · rcases p.join i with hi' | hi'
      · rw [hi'] at hi ⊢
        exact h.node_of_vector _ (.clock t) i hi
      · rw [hi'] at hi ⊢
        exact h.node_of_vector _ (.sync s) i hi
    · exact h.node_of_vector W hW i hi
  edge := by
    rw [p.nodes, p.edges]
    exact h.edge
  closed := by
    intro W hW a b hab hb
    rw [p.before] at hab
    rcases p.isVector hW with rfl | hW
    · rcases p.join b.1 with hb' | hb'
      · rw [hb'] at hb
        exact (h.closed _ (.clock t) a b hab hb).trans (p.own a.1)
      · rcases p.whole with rfl | hsync
        · exact h.closed _ (.clock t) a b hab hb
        · rw [hb'] at hb
          exact (h.closed _ (.sync s) a b hab hb).trans (hsync a.1)
    · exact h.closed W hW a b hab hb
  reach := by
    rw [p.before, p.nodes, p.clock]
    exact h.reach
  sink := by
    intro u hu b
    rw [p.clock] at hu ⊢
    rw [p.before]
    exact h.sink u ((p.released_le hc u).trans_lt hu) b
  acyclic := by
    rw [p.before]
    exact h.acyclic

end Publishes

end Release

section Reset

variable [DecidableEq S] {s : S}

theorem isVector_reset {W : T → ℕ} (h : (c.reset s).IsVector W) :
    (W = fun _ => 0) ∨ c.IsVector W := by
  cases h with
  | clock u => exact Or.inr (.clock u)
  | sync s' =>
    by_cases hs : s' = s
    · subst hs
      exact Or.inl (Function.update_self _ _ _)
    · have hsync : (c.reset s).sync s' = c.sync s' := Function.update_of_ne hs _ _
      rw [hsync]
      exact Or.inr (.sync s')

theorem isCopy_reset {u : T} {W : T → ℕ} (h : (c.reset s).IsCopy u W) :
    (W = fun _ => 0) ∨ c.IsCopy u W := by
  cases h with
  | clock v hv => exact Or.inr (.clock v hv)
  | sync s' =>
    by_cases hs : s' = s
    · subst hs
      exact Or.inl (Function.update_self _ _ _)
    · have hsync : (c.reset s).sync s' = c.sync s' := Function.update_of_ne hs _ _
      rw [hsync]
      exact Or.inr (.sync s')

theorem Coherent.reset (h : c.Coherent) (s : S) : (c.reset s).Coherent where
  released_le := h.released_le
  le_released := by
    intro u W hW
    rcases isCopy_reset hW with rfl | hW
    · exact Nat.zero_le _
    · exact h.le_released u W hW
  learned := by
    intro u W hW hlt i hi
    rcases isCopy_reset hW with rfl | hW
    · exact absurd hlt (Nat.not_lt_zero _)
    · exact h.learned u W hW hlt i hi

theorem Logged.reset (h : c.Logged) (s : S) : (c.reset s).Logged where
  increasing := h.increasing
  node_pos := h.node_pos
  node_le := h.node_le
  node_of_vector := by
    intro W hW i hi
    rcases isVector_reset hW with rfl | hW
    · exact absurd rfl hi
    · exact h.node_of_vector W hW i hi
  edge := h.edge
  closed := by
    intro W hW a b hab hb
    rcases isVector_reset hW with rfl | hW
    · exact absurd hb (not_le.mpr (h.node_pos b (h.before_mem hab).2))
    · exact h.closed W hW a b hab hb
  reach := h.reach
  sink := h.sink
  acyclic := h.acyclic

end Reset

end LoggedClocks

end Prd.Foundation
