import Prd.Runtime.CallEffects

/-!
# Where the order comes from

The operations of a run come from what the threads do. What happens before something that another
thread does was handed over: its thread has released it, and the other one has acquired later.
-/
namespace Prd.Runtime

open Prd.Foundation

namespace Sys

/-- The thread may release what it has seen. -/
def Releases (s : Sys) (t : ℕ) : Act → Prop
  | .go v => v = t ∧ ∃ q ∈ s.stepOf (.go v), q.IsRelease
  | .finish v => v = t
  | _ => False

/-- The thread may acquire what others have released. -/
def Acquires (s : Sys) (t : ℕ) : Act → Prop
  | .start v => v = t
  | .go v => v = t ∧ ∃ q ∈ s.stepOf (.go v), q.IsAcquire
  | _ => False

variable {s s' s₀ s₁ s₂ : Sys} {acts more : List Act} {a : Act} {op : ClockOp} {t u v c i p q : ℕ}

theorem stepOf_unique {x y : RtlStep} (hx : x ∈ s.stepOf a) (hy : y ∈ s.stepOf a) : x = y := by
  cases a with
  | go t =>
    cases htodo : s.todo t with
    | nil => simp [stepOf, htodo] at hx
    | cons z rest =>
      simp only [stepOf, htodo, List.take_succ_cons, List.take_zero, List.mem_singleton] at hx hy
      exact hx.trans hy.symm
  | _ => simp [stepOf] at hx

theorem MayLog.releases (h : s.MayLog a op) (hop : op.sync.Publishes c)
    (ht : op.sync.thread = some t) : s.Releases t a := by
  cases a with
  | start v => exact (h.released c hop).2.elim
  | call v k => exact h.elim
  | go v =>
    obtain ⟨x, hx, hlog⟩ := h
    obtain ⟨hv, hrelease⟩ := hlog.released c hop
    exact ⟨Option.some.inj (hv.symm.trans ht), x, hx, hrelease⟩
  | finish v => exact Option.some.inj ((h.released c hop).1.symm.trans ht)

theorem MayLog.acquires (h : s.MayLog a op) (hop : op.sync.Acquires c)
    (ht : op.sync.thread = some t) : s.Acquires t a := by
  cases a with
  | start v => exact Option.some.inj ((h.acquired c hop).1.symm.trans ht)
  | call v k => exact h.elim
  | go v =>
    obtain ⟨x, hx, hlog⟩ := h
    obtain ⟨hv, hacquire⟩ := hlog.acquired c hop
    exact ⟨Option.some.inj (hv.symm.trans ht), x, hx, hacquire⟩
  | finish v => exact (h.acquired c hop).2.elim

/-- Who prints neither releases nor acquires. -/
theorem MayLog.only_prints (h : s.MayLog a op) (hop : op.sync = .event v) :
    ¬ s.Releases t a ∧ ¬ s.Acquires t a := by
  cases a with
  | start w => exact (h.printed v hop).elim
  | call w k => exact h.elim
  | go w =>
    obtain ⟨x, hx, hlog⟩ := h
    have hprint := hlog.printed v hop
    constructor
    · rintro ⟨-, y, hy, hrelease⟩
      obtain rfl := stepOf_unique hx hy
      cases x <;> first | exact hprint.elim | exact hrelease.elim
    · rintro ⟨-, y, hy, hacquire⟩
      obtain rfl := stepOf_unique hx hy
      cases x <;> first | exact hprint.elim | exact hacquire.elim
  | finish w => exact (h.printed v hop).elim

/-- One thread acts at a time. -/
theorem releases_acquires (h : s.Releases t a) (h' : s.Acquires u a) : t = u := by
  cases a with
  | go v => exact h.1.symm.trans h'.1
  | start v => exact h.elim
  | call v k => exact h.elim
  | finish v => exact h'.elim

/-- What is logged comes from something that happens in the run. -/
theorem exists_origin (hrun : s.run acts = .ok s') (hi : s.rtl.ops.length ≤ i)
    (hop : s'.rtl.ops[i]? = some op) : ∃ before a after s₁ s₂, acts = before ++ a :: after ∧
      s.run before = .ok s₁ ∧ s₁.step a = .ok s₂ ∧ s₂.run after = .ok s' ∧ s₁.rtl.ops.length ≤ i ∧
      i < s₂.rtl.ops.length := by
  induction acts generalizing s with
  | nil =>
    cases hrun
    have hlt := (List.getElem?_eq_some_iff.mp hop).1
    omega
  | cons a acts ih =>
    obtain ⟨s₁, hstep, hrest⟩ := ThreadRegistry.bind_eq_ok.mp hrun
    by_cases hlt : i < s₁.rtl.ops.length
    · exact ⟨[], a, acts, s, s₁, rfl, rfl, hstep, hrest, hi, hlt⟩
    · obtain ⟨before, b, after, s₂, s₃, rfl, hbefore, hb, hafter, hle, hlater⟩ :=
        ih hrest (not_lt.mp hlt)
      refine ⟨a :: before, b, after, s₂, s₃, rfl, ?_, hb, hafter, hle, hlater⟩
      exact ThreadRegistry.bind_eq_ok.mpr ⟨s₁, hstep, hbefore⟩

/-- What stands between two states of a run was logged by what happens between them. -/
theorem mayLog_of_between (hstep : s₁.step a = .ok s₂) (hrun : s₂.run acts = .ok s)
    (hop : s.rtl.ops[i]? = some op) (hi : s₁.rtl.ops.length ≤ i) (hlt : i < s₂.rtl.ops.length) :
    s₁.MayLog a op := by
  obtain ⟨new, hnew, hall⟩ := step_emits hstep
  obtain ⟨later, hlater⟩ := run_ops hrun
  rw [hlater, List.getElem?_append_left hlt, hnew, List.getElem?_append_right hi] at hop
  exact hall op (List.mem_of_getElem? hop)

theorem Prints.event (h : s.Prints t p) : ∃ op, s.rtl.ops[p]? = some op ∧ op.sync = .event t := by
  obtain ⟨line, hp, rfl⟩ := h
  exact ⟨_, hp, rfl⟩

theorem isAt_sync {P : RunOp ℕ ℕ → Prop} (h : IsAt (s.rtl.ops.map ClockOp.sync) i P) :
    ∃ op, s.rtl.ops[i]? = some op ∧ P op.sync := by
  obtain ⟨x, hx, hP⟩ := h
  rw [List.getElem?_map] at hx
  obtain ⟨op, hop, rfl⟩ := Option.map_eq_some_iff.mp hx
  exact ⟨op, hop, hP⟩

/-- The order between threads comes from synchronization: when what a thread prints comes
before what another one prints, the first one has released in between, and later the
other one has acquired. -/
theorem order_needs_sync (hrun : new.run acts = .ok s) (hp : s.Prints t p) (hq : s.Prints u q)
    (hne : t ≠ u) (hbefore : RunsBefore s.rtl.ops p q) :
    ∃ before a between b after s₁ s₂ s₃ s₄, acts = before ++ a :: (between ++ b :: after) ∧
      new.run before = .ok s₁ ∧ s₁.Releases t a ∧ s₁.step a = .ok s₂ ∧ s₂.run between = .ok s₃ ∧
      s₃.Acquires u b ∧ s₃.step b = .ok s₄ ∧ s₄.run after = .ok s ∧ p < s₁.rtl.ops.length ∧
      s₄.rtl.ops.length ≤ q := by
  have hstepOf : ∀ {v r}, s.Prints v r → StepOf (s.rtl.ops.map ClockOp.sync) v r := by
    intro v r hr
    obtain ⟨x, hx, rfl⟩ := hr.eventOf
    exact ⟨_, hx, rfl⟩
  obtain ⟨i, j, hpi, hij, hjq, hi, hj⟩ := HappensBefore.handed hbefore (hstepOf hp) (hstepOf hq) hne
  obtain ⟨op, hop, ht, c, hpub⟩ := isAt_sync hi
  obtain ⟨op', hop', hu, c', hacq⟩ := isAt_sync hj
  obtain ⟨before, a, rest, s₁, s₂, rfl, h₁, ha, hrest, hle, hlt⟩ :=
    exists_origin hrun (Nat.zero_le _) hop
  have hreleases := (mayLog_of_between ha hrest hop hle hlt).releases hpub ht
  have hlater : s₂.rtl.ops.length ≤ j := by
    by_contra hno
    have hacquires :=
      (mayLog_of_between ha hrest hop' (hle.trans hij.le) (not_le.mp hno)).acquires hacq hu
    exact hne (releases_acquires hreleases hacquires)
  obtain ⟨between, b, after, s₃, s₄, rfl, h₃, hb, hafter, hle', hlt'⟩ :=
    exists_origin hrest hlater hop'
  have hacquires := (mayLog_of_between hb hafter hop' hle' hlt').acquires hacq hu
  refine ⟨before, a, between, b, after, s₁, s₂, s₃, s₄, rfl, h₁, hreleases, ha, h₃, hacquires, hb,
    hafter, ?_, ?_⟩
  · by_contra hno
    obtain ⟨e, he, hevent⟩ := hp.event
    exact ((mayLog_of_between ha hrest he (not_lt.mp hno) (hpi.trans_lt hlt)).only_prints hevent).1
      hreleases
  · by_contra hno
    obtain ⟨e, he, hevent⟩ := hq.event
    exact ((mayLog_of_between hb hafter he (hle'.trans hjq) (not_le.mp hno)).only_prints hevent).2
      hacquires

/-- What the two threads of the sample do until the second one writes. -/
def sampleSync : List (RunOp ℕ ℕ) :=
  [.tick 0 8192, .acquire 0 2, .reset 2, .event 0, .tick 0 8195, .release 0 5, .tick 1 8192,
    .acquire 1 5, .reset 5, .event 1]

/-- The main thread releases when it creates the other one, which acquires when it starts. -/
theorem order_needs_sync_sample : ∃ (before : List Act) (a : Act) (between : List Act) (b : Act)
    (after : List Act) (s₁ s₃ : Sys),
    sampleCreate ++ sampleStart ++ sampleWrite 1 = before ++ a :: (between ++ b :: after) ∧
      new.run before = .ok s₁ ∧ s₁.Releases 0 a ∧ s₃.Acquires 1 b := by
  obtain ⟨s, hrun, hops, ⟨e, he, het⟩, c, hc, hct⟩ :
    ∃ s, new.run (sampleCreate ++ sampleStart ++ sampleWrite 1) = .ok s ∧
        s.rtl.ops.map ClockOp.sync = sampleSync ∧
        (∃ e, s.rtl.ops[3]? = some (.print (.access e)) ∧ e.tid = 0) ∧
        ∃ c, s.rtl.ops[9]? = some (.print (.access c)) ∧ c.tid = 1 :=
    ⟨_, rfl, rfl, ⟨_, rfl, rfl⟩, _, rfl, rfl⟩
  have hbefore : RunsBefore s.rtl.ops 3 9 := by
    unfold RunsBefore
    rw [hops]
    have hcreate : Precedes sampleSync 3 5 := .program 0 (by decide) ⟨_, rfl, rfl⟩ ⟨_, rfl, rfl⟩
    have hstart : Precedes sampleSync 5 7 := by
      refine .sync 5 (by decide) ⟨⟨_, rfl, rfl⟩, fun r hr hr' hover => ?_⟩ ⟨_, rfl, rfl⟩
      obtain rfl : r = 6 := by omega
      obtain ⟨x, hx, hover⟩ := hover
      cases hx
      exact hover
    exact ((Relation.TransGen.single hcreate).tail hstart).tail
      (.program 1 (by decide) ⟨_, rfl, rfl⟩ ⟨_, rfl, rfl⟩)
  obtain ⟨before, a, between, b, after, s₁, s₂, s₃, s₄, hsplit, h₁, hreleases, -, -, hacquires,
    -⟩ :=
    order_needs_sync hrun ⟨_, he, het⟩ ⟨_, hc, hct⟩ (by decide) hbefore
  exact ⟨before, a, between, b, after, s₁, s₃, hsplit, h₁, hreleases, hacquires⟩

end Sys

end Prd.Runtime
