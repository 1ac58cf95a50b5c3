import Prd.Foundation.ClockedRuns
import Prd.Runtime.ClockAcquires
import Prd.Runtime.ClockLines

/-!
# Runs of the optimized clocks

The callers set the clock of a thread to its epoch before they use it, and a thread that
has released or printed something moves on before it acquires. Any interleaving of such calls
logs what plain vector clocks log, and that is the order of the calls.
-/
namespace Prd.Runtime

open Prd.Foundation Prd.Pycprd

inductive ClockOp
  | set (thread epoch : ℕ)
  | acquire (thread sync : ℕ)
  | release (thread sync : ℕ)
  | releaseStore (thread sync : ℕ)
  | acqRel (thread sync : ℕ)
  | reset (sync : ℕ)
  | print (line : Line)
  deriving DecidableEq

/-- What an operation is to the order of a run. -/
def ClockOp.sync : ClockOp → RunOp ℕ ℕ
  | .set t e => .tick t e
  | .acquire t s => .acquire t s
  | .release t s => .release t s
  | .releaseStore t s => .releaseStore t s
  | .acqRel t s => .acqRel t s
  | .reset s => .reset s
  | .print line => .event line.tid

/-- What a thread prints. -/
def ClockOp.line : ClockOp → Option Line
  | .print line => some line
  | _ => none

/-- The epochs of the threads, those of their last releases, and who has printed since its last
epoch. -/
structure Callers where
  epoch : ℕ → ℕ
  released : ℕ → ℕ
  printed : ℕ → Bool

namespace Callers

def new : Callers := ⟨fun _ => 0, fun _ => 0, fun _ => false⟩

def noteRelease (g : Callers) (t : ℕ) : Callers :=
  { g with released := Function.update g.released t (g.epoch t) }

/-- Epochs fit their bit field and do not decrease. -/
def Allows (g : Callers) : ClockOp → Prop
  | .set t e => t < kMaxTid ∧ 0 < e ∧ g.epoch t ≤ e ∧ e < 2 ^ kClkBits
  | .acquire t _ => g.released t < g.epoch t ∧ g.printed t = false
  | .release t _ => 0 < g.epoch t ∧ g.printed t = false
  | .releaseStore t _ => 0 < g.epoch t ∧ g.printed t = false
  | .acqRel t _ => g.released t < g.epoch t ∧ g.printed t = false
  | .reset _ => True
  | .print line => line.tid < kMaxTid

def after (g : Callers) : ClockOp → Callers
  | .set t e =>
    { g with
      epoch := Function.update g.epoch t e
      printed := Function.update g.printed t (g.printed t && g.epoch t == e) }
  | .acquire _ _ => g
  | .release t _ => g.noteRelease t
  | .releaseStore t _ => g.noteRelease t
  | .acqRel t _ => g.noteRelease t
  | .reset _ => g
  | .print line => { g with printed := Function.update g.printed line.tid true }

def Follows (g : Callers) : List ClockOp → Prop
  | [] => True
  | op :: ops => g.Allows op ∧ (g.after op).Follows ops

theorem Follows.of_append {g : Callers} {ops more : List ClockOp} (h : g.Follows (ops ++ more)) :
    g.Follows ops := by
  induction ops generalizing g with
  | nil => trivial
  | cons op ops ih => exact ⟨h.1, ih h.2⟩

end Callers

namespace ClockState

def step (σ : ClockState) : ClockOp → Option ClockState
  | .set t e => some (σ.set t e)
  | .acquire t s => σ.acquire t s
  | .release t s => σ.release t s
  | .releaseStore t s => σ.releaseStore t s
  | .acqRel t s => σ.acqRel t s
  | .reset s => σ.reset s
  | .print line => some (σ.log (.event line))

def run (σ : ClockState) : List ClockOp → Option ClockState
  | [] => some σ
  | op :: ops => do
    let σ ← σ.step op
    σ.run ops

theorem run_append (σ : ClockState) (ops more : List ClockOp) :
    σ.run (ops ++ more) = (σ.run ops).bind fun σ => σ.run more := by
  induction ops generalizing σ with
  | nil => rfl
  | cons op ops ih =>
    simp only [List.cons_append, run, Option.bind_eq_bind, Option.bind_assoc, ih]

variable {σ σ' : ClockState} {c : LoggedClocks ℕ ℕ} {s t : ℕ}

/-- An operation adds to the trace, and the only line of a thread is what it prints. -/
theorem lines_step {op : ClockOp} (h : σ.step op = some σ') : ∃ more, σ'.lines = σ.lines ++ more ∧
    more.filterMap LogLine.line = op.line.toList := by
  cases op with
  | set t e =>
    cases h
    exact logsMore_set σ t e
  | acquire t s => exact logsMore_acquire h
  | release t s => exact ⟨[], by rw [sameLines_release σ t s σ' h, List.append_nil], rfl⟩
  | releaseStore t s => exact ⟨[], by rw [sameLines_releaseStore σ t s σ' h, List.append_nil], rfl⟩
  | acqRel t s => exact logsMore_acqRel h
  | reset s => exact ⟨[], by rw [sameLines_reset σ s σ' h, List.append_nil], rfl⟩
  | print line =>
    cases h
    exact ⟨[.event line], rfl, rfl⟩

theorem lines_run {ops : List ClockOp} (h : σ.run ops = some σ') :
    ∃ more, σ'.lines = σ.lines ++ more ∧
    more.filterMap LogLine.line = ops.filterMap ClockOp.line := by
  induction ops generalizing σ with
  | nil =>
    cases h
    exact ⟨[], by simp⟩
  | cons op ops ih =>
    obtain ⟨σ₁, hstep, hrun⟩ := Option.bind_eq_some_iff.mp h
    obtain ⟨more, hmore, hline⟩ := lines_step hstep
    obtain ⟨more', hmore', hlines⟩ := ih hrun
    refine ⟨more ++ more', by rw [hmore', hmore, List.append_assoc], ?_⟩
    rw [List.filterMap_append, hline, hlines, List.filterMap_cons]
    cases op.line with
    | none => rfl
    | some line => rfl

/-- The lines after a thread has set its clock. -/
def linesAfterSet (σ : ClockState) (t e : ℕ) : List LogLine :=
  if (σ.threads t).clk t = e then σ.lines
  else σ.lines ++ [.epochInc t ((σ.threads t).clk t) e "ThreadClock::set(u64)".toList]

theorem set_eq {V : ℕ → ℕ} {last : ℕ} (h : (σ.threads t).Shows t V last) (e : ℕ) :
    σ.set t e = ({ σ with lines := σ.linesAfterSet t e } : ClockState).setThread t
      { σ.threads t with clk := Function.update (σ.threads t).clk t e } := by
  unfold ClockState.set linesAfterSet
  by_cases he : (σ.threads t).clk t = e
  · simp [h.tid, he]
  · simp [h.tid, h.prdTrace, he, log]

theorem linesOk_set (h : LinesOk σ.lines) {e : ℕ} (hle : (σ.threads t).clk t ≤ e) :
    LinesOk (σ.linesAfterSet t e) := by
  unfold linesAfterSet
  split_ifs with he
  · exact h
  · refine h.append (fun line hline => ?_) (by simp [LogLine.edge])
    rw [List.mem_singleton.mp hline]
    exact ⟨lt_of_le_of_ne hle he, by decide⟩

theorem clock_le_tick {e : ℕ} (hle : c.clock t t ≤ e) (u i : ℕ) :
    c.clock u i ≤ (c.tick t e).clock u i := by
  by_cases hu : u = t
  · subst hu
    rw [LoggedClocks.clock_tick_self]
    by_cases hi : i = u
    · subst hi
      rw [Function.update_self]
      exact hle
    · rw [Function.update_of_ne hi]
  · rw [LoggedClocks.clock_tick_of_ne c e hu]

/-- A thread that sets its clock logs the epoch when it is new. -/
theorem Refines.set (r : σ.Refines c) {e : ℕ} (hle : c.clock t t ≤ e) :
    (σ.set t e).Refines (c.tick t e) := by
  have hthr := r.thread t
  have hclk : (σ.threads t).clk t = c.clock t t := by rw [hthr.clk]
  have hreused := reused_setThread (σ := { σ with lines := σ.linesAfterSet t e }) (t := t)
    { σ.threads t with clk := Function.update (σ.threads t).clk t e } rfl
  have hself : (({ σ with lines := σ.linesAfterSet t e } : ClockState).setThread t
      { σ.threads t with clk := Function.update (σ.threads t).clk t e }).threads t =
      { σ.threads t with clk := Function.update (σ.threads t).clk t e } :=
      Function.update_self _ _ _
  have hother : ∀ u, u ≠ t → (({ σ with lines := σ.linesAfterSet t e } : ClockState).setThread t
      { σ.threads t with clk := Function.update (σ.threads t).clk t e }).threads u = σ.threads u :=
    fun u hu => Function.update_of_ne hu _ _
  rw [set_eq hthr]
  refine ⟨⟨?_, fun u => ?_, r.sync, fun s => ?_, fun s u hu hu' i => ?_, ?_, fun a => ?_, ?_⟩,
    fun u hu => ?_⟩
  · exact Memory.setThread (σ := { σ with lines := σ.linesAfterSet t e })
      ⟨r.memory.ok, r.memory.sizes⟩ rfl rfl
  · by_cases hu : u = t
    · subst hu
      rw [hself, LoggedClocks.clock_tick_self]
      refine ⟨hthr.tid, hthr.prdTrace, hthr.reused, hthr.globalAcquire, ?_, hthr.lastAcquire,
        hthr.lt_nclk, fun i hi => ?_⟩
      · rw [hthr.clk]
      · have hne : i ≠ u := by
          intro he
          subst he
          exact absurd hthr.lt_nclk (not_lt.mpr hi)
        rw [Function.update_of_ne hne]
        exact hthr.bound i hi
    · rw [hother u hu, LoggedClocks.clock_tick_of_ne c e hu]
      exact r.thread u
  · rw [hreused]
    exact (r.flags s).mono (clock_le_tick hle)
  · rw [hreused] at hu'
    exact (r.owner s u hu hu' i).trans (clock_le_tick hle u i)
  · simp only [LoggedClocks.tick, setThread, linesAfterSet, hclk, r.nodes]
    split_ifs <;> simp [LogLine.node]
  · have hlines :
        (linesAfterSet σ t e).filterMap LogLine.edge = σ.lines.filterMap LogLine.edge := by
      unfold linesAfterSet
      split_ifs <;> simp [LogLine.edge]
    simp only [LoggedClocks.tick, setThread, hlines]
    exact r.edges a
  · exact linesOk_set r.lines (hclk.trans_le hle)
  · rw [hreused]
    by_cases hut : u = t
    · subst hut
      rw [hself] at hu ⊢
      obtain ⟨hcached, hflags⟩ := r.cached u hu
      have hclock : (({ σ with lines := σ.linesAfterSet u e } : ClockState).setThread u
          { σ.threads u with clk := Function.update (σ.threads u).clk u e }).cachedClock u =
            σ.cachedClock u := by
        rw [cachedClock_eq hu]
        simp [cachedClock, setThread, hu]
      rw [hclock, LoggedClocks.clock_tick_self]
      refine ⟨⟨hcached.size_ne, hcached.bound, fun i hi => ?_, hcached.pos, ?_⟩,
        hflags.mono (clock_le_tick hle)⟩
      · rw [Function.update_of_ne hi]
        exact hcached.elem i hi
      · rw [Function.update_self]
        exact hcached.le.trans hle
    · rw [cachedClock_eq_of_clock (hother u hut) fun _ => rfl]
      rw [hother u hut] at hu ⊢
      obtain ⟨hcached, hflags⟩ := r.cached u hu
      rw [LoggedClocks.clock_tick_of_ne c e hut]
      exact ⟨hcached, hflags.mono (clock_le_tick hle)⟩

/-- An object that is reset is like a new one. -/
theorem Refines.reset (r : σ.Refines c) (s : ℕ) :
    ∃ σ', σ.reset s = some σ' ∧ σ'.Refines (c.reset s) := by
  obtain ⟨σ', hok, hup⟩ := reset_spec r.memory s
  refine ⟨σ', hok, r.updates hup (SyncView.shows_of_clock (fun _ _ => rfl) rfl rfl fun _ => rfl)
    (fun u hu => ?_) (fun u hu => by cases hu) c.released⟩
  exact absurd hu.symm (r.thread u).reused

/-- What a thread prints changes no clock. -/
theorem Refines.print (r : σ.Refines c) (line : Line) : (σ.log (.event line)).Refines c where
  memory := ⟨r.memory.ok, r.memory.sizes⟩
  thread := r.thread
  sync := r.sync
  flags := r.flags
  owner := r.owner
  nodes := by simpa [log, List.filterMap_cons, LogLine.node] using r.nodes
  edges := by simpa [log, List.filterMap_cons, LogLine.edge] using r.edges
  lines := r.lines.append (fun l hl => by rw [List.mem_singleton.mp hl]; trivial)
    (by simp [List.filterMap_cons, LogLine.edge])
  cached := r.cached

theorem refines_new (reused : ℕ → ℕ) : (new reused).Refines .new := by
  have hholds : ∀ h, (new reused).holds h = none := by
    intro h
    cases h <;> rfl
  refine ⟨⟨⟨⟨ClockAlloc.ok_new, ?_, ?_⟩, ?_⟩, fun t => ?_, fun s => ?_, fun s t ht => ?_,
    fun s t ht => ?_, rfl, fun e => ?_, linesOk_nil⟩, fun t ht => absurd rfl ht⟩
  · rintro i ⟨h, hh⟩
    cases (hholds h).symm.trans hh
  · intro h i hh
    cases (hholds h).symm.trans hh
  · intro h h' i hh
    cases (hholds h).symm.trans hh
  · exact ⟨rfl, rfl, Nat.succ_ne_zero _, rfl, rfl, rfl, Nat.lt_succ_self _, fun _ _ => rfl⟩
  · exact SyncView.shows_of_clock (fun _ _ => rfl) rfl rfl fun _ => rfl
  · exact absurd ht (Nat.succ_ne_zero _).symm
  · cases ht
  · simp [new, LoggedClocks.new]

end ClockState

/-- The clocks and the callers after a run. -/
structure Reached (ops : List ClockOp) (g : Callers) (σ : ClockState) : Prop where
  refines : σ.Refines (LoggedClocks.run (ops.map ClockOp.sync))
  ordered : Ordered (ops.map ClockOp.sync)
  epoch : ∀ t, (LoggedClocks.run (ops.map ClockOp.sync)).clock t t = g.epoch t
  released : ∀ t, (LoggedClocks.run (ops.map ClockOp.sync)).released t = g.released t
  settled : ∀ t, g.printed t = false → Settled (ops.map ClockOp.sync) t
  tid_lt : ∀ a ∈ (LoggedClocks.run (ops.map ClockOp.sync)).nodes, a.1 < kMaxTid
  nodes : ∀ a, a ∈ (LoggedClocks.run (ops.map ClockOp.sync)).nodes ↔ .set a.1 a.2 ∈ ops

namespace Reached

variable {ops : List ClockOp} {g : Callers} {σ σ' : ClockState} {s t : ℕ}

theorem new (reused : ℕ → ℕ) : Reached [] .new (.new reused) where
  refines := ClockState.refines_new reused
  ordered := ordered_nil
  epoch := fun _ => rfl
  released := fun _ => rfl
  settled := fun _ _ p hp => absurd hp.lt (Nat.not_lt_zero p)
  tid_lt := by simp [LoggedClocks.run, LoggedClocks.new]
  nodes := by simp [LoggedClocks.run, LoggedClocks.new]

theorem run_append (ops : List ClockOp) (op : ClockOp) :
    LoggedClocks.run ((ops ++ [op]).map ClockOp.sync) =
      (LoggedClocks.run (ops.map ClockOp.sync)).step op.sync := by
  rw [List.map_append, List.map_singleton, LoggedClocks.run_append]

/-- An operation that sets no clock and prints nothing adds no epoch, and who
was settled stays so. -/
theorem of_step (h : Reached ops g σ) {op : ClockOp} {g' : Callers}
    (hrefines : σ'.Refines ((LoggedClocks.run (ops.map ClockOp.sync)).step op.sync))
    (hordered : Ordered (ops.map ClockOp.sync ++ [op.sync])) (hop : ∀ t, op.sync ≠ .event t)
    (hset : ∀ t e, op ≠ .set t e)
    (hown : ∀ t, ((LoggedClocks.run (ops.map ClockOp.sync)).step op.sync).clock t t =
      (LoggedClocks.run (ops.map ClockOp.sync)).clock t t)
    (hnodes : ((LoggedClocks.run (ops.map ClockOp.sync)).step op.sync).nodes =
      (LoggedClocks.run (ops.map ClockOp.sync)).nodes)
    (hepoch : g'.epoch = g.epoch) (hprinted : g'.printed = g.printed)
    (hreleased : ∀ t, ((LoggedClocks.run (ops.map ClockOp.sync)).step op.sync).released t =
      g'.released t) :
    Reached (ops ++ [op]) g' σ' where
  refines := by
    rw [run_append]
    exact hrefines
  ordered := by
    rw [List.map_append, List.map_singleton]
    exact hordered
  epoch := by
    intro t
    rw [run_append, hown, hepoch, h.epoch]
  released := by
    intro t
    rw [run_append]
    exact hreleased t
  settled := by
    intro t ht p hp
    rw [List.map_append, List.map_singleton] at hp ⊢
    have hold := (eventOf_append.mp hp).resolve_right fun hlast => hop t hlast.2
    rw [stamp_append hold.lt.le, LoggedClocks.run_append, hown]
    exact h.settled t (hprinted ▸ ht) p hold
  tid_lt := by
    rw [run_append, hnodes]
    exact h.tid_lt
  nodes := by
    intro a
    rw [run_append, hnodes, h.nodes]
    simp [Ne.symm (hset a.1 a.2)]

theorem set (h : Reached ops g σ) {e : ℕ} (ht : t < kMaxTid) (hpos : 0 < e) (hle : g.epoch t ≤ e) :
    Reached (ops ++ [.set t e]) (g.after (.set t e)) (σ.set t e) := by
  have hown : (LoggedClocks.run (ops.map ClockOp.sync)).clock t t ≤ e := by
    rw [h.epoch]
    exact hle
  have hclock : ∀ u, ((LoggedClocks.run (ops.map ClockOp.sync)).tick t e).clock u u =
      Function.update g.epoch t e u := by
    intro u
    by_cases hu : u = t
    · subst hu
      simp
    · rw [LoggedClocks.clock_tick_of_ne _ e hu, h.epoch]
      simp [hu]
  have hnodes : ∀ a, a ∈ ((LoggedClocks.run (ops.map ClockOp.sync)).tick t e).nodes ↔
      ClockOp.set a.1 a.2 ∈ ops ∨ a = (t, e) := by
    intro a
    by_cases he : (LoggedClocks.run (ops.map ClockOp.sync)).clock t t = e
    · have hmem : (t, e) ∈ (LoggedClocks.run (ops.map ClockOp.sync)).nodes := by
        rw [← he]
        exact h.ordered.logged.node_of_vector _ (.clock t) t (by omega)
      have htick := LoggedClocks.tick_self (LoggedClocks.run (ops.map ClockOp.sync)) t
      rw [he] at htick
      rw [htick, h.nodes]
      refine (or_iff_left_of_imp fun ha => ?_).symm
      rw [ha]
      exact (h.nodes _).mp hmem
    · rw [LoggedClocks.mem_nodes_tick he, h.nodes]
  constructor
  · rw [run_append]
    exact h.refines.set hown
  · rw [List.map_append]
    exact h.ordered.tick hpos hown
  · intro u
    rw [run_append]
    exact hclock u
  · intro u
    rw [run_append]
    exact h.released u
  · intro u hu p hp
    rw [List.map_append, List.map_singleton] at hp ⊢
    have hold := (eventOf_append.mp hp).resolve_right fun hlast => nomatch hlast.2
    rw [stamp_append hold.lt.le, LoggedClocks.run_append]
    refine lt_of_lt_of_eq ?_ (hclock u).symm
    by_cases hut : u = t
    · subst hut
      simp only [Callers.after, Function.update_self, Bool.and_eq_false_iff,
        beq_eq_false_iff_ne] at hu ⊢
      have hstamp := h.ordered.stamp_le u p hold
      rcases hu with hu | hu
      · exact (h.settled u hu p hold).trans_le hown
      · rw [h.epoch] at hstamp
        omega
    · simp only [Callers.after, Function.update_of_ne hut] at hu ⊢
      rw [← h.epoch]
      exact h.settled u hu p hold
  · intro a ha
    rw [run_append] at ha
    rcases (hnodes a).mp ha with ha | rfl
    · exact h.tid_lt a ((h.nodes a).mpr ha)
    · exact ht
  · intro a
    rw [run_append]
    refine (hnodes a).trans ?_
    simp [Prod.ext_iff]

theorem print (h : Reached ops g σ) {line : Line} :
    Reached (ops ++ [.print line]) (g.after (.print line)) (σ.log (.event line)) := by
  have hrun : LoggedClocks.run ((ops ++ [ClockOp.print line]).map ClockOp.sync) =
      LoggedClocks.run (ops.map ClockOp.sync) := run_append ops _
  constructor
  · rw [hrun]
    exact h.refines.print line
  · rw [List.map_append]
    exact h.ordered.event line.tid
  · rw [hrun]
    exact h.epoch
  · rw [hrun]
    exact h.released
  · intro u hu p hp
    have hne : u ≠ line.tid := by
      rintro rfl
      simp [Callers.after] at hu
    simp only [Callers.after, Function.update_of_ne hne] at hu
    rw [List.map_append, List.map_singleton] at hp
    have hold :=
      (eventOf_append.mp hp).resolve_right fun hlast => hne (RunOp.event.inj hlast.2).symm
    rw [hrun, List.map_append, List.map_singleton, stamp_append hold.lt.le]
    exact h.settled u hu p hold
  · rw [hrun]
    exact h.tid_lt
  · intro a
    rw [hrun, h.nodes]
    simp

theorem acquire (h : Reached ops g σ) (hnew : g.released t < g.epoch t)
    (hprinted : g.printed t = false) (s : ℕ) : ∃ σ', σ.acquire t s = some σ' ∧ Reached
    (ops ++ [.acquire t s]) g σ' := by
  rw [← h.epoch, ← h.released] at hnew
  have hcoh := h.ordered.coherent
  have hown := (hcoh.le_released t _ (.sync s)).trans hnew.le
  obtain ⟨σ', hok, hrefines⟩ := h.refines.acquire hown fun e he =>
    h.ordered.logged.mem_of_growth (Nat.zero_lt_of_lt hnew) he
  exact ⟨σ', hok, h.of_step hrefines (h.ordered.acquire hnew (h.settled t hprinted) s)
    (fun _ => nofun) (fun _ _ => nofun) (fun u => hcoh.clock_acquire_own t u s) rfl rfl rfl
    h.released⟩

theorem noteRelease_eq (h : Reached ops g σ) (t u : ℕ) : Function.update
    (LoggedClocks.run (ops.map ClockOp.sync)).released t
    ((LoggedClocks.run (ops.map ClockOp.sync)).clock t t)
      u = (g.noteRelease t).released u := by
  have hreleased : (LoggedClocks.run (ops.map ClockOp.sync)).released = g.released :=
    funext h.released
  rw [h.epoch, hreleased]
  rfl

theorem release (h : Reached ops g σ) (hpos : 0 < g.epoch t) (hprinted : g.printed t = false)
    (s : ℕ) : ∃ σ', σ.release t s = some σ' ∧ Reached (ops ++ [.release t s])
    (g.noteRelease t) σ' := by
  rw [← h.epoch] at hpos
  obtain ⟨σ', hok, hrefines⟩ := h.refines.release h.ordered.coherent hpos s
  exact ⟨σ', hok, h.of_step hrefines (h.ordered.release (h.settled t hprinted) s) (fun _ => nofun)
    (fun _ _ => nofun) (fun _ => rfl) rfl rfl rfl (h.noteRelease_eq t)⟩

theorem releaseStore (h : Reached ops g σ) (hpos : 0 < g.epoch t) (hprinted : g.printed t = false)
    (s : ℕ) :
    ∃ σ', σ.releaseStore t s = some σ' ∧ Reached (ops ++ [.releaseStore t s])
    (g.noteRelease t) σ' := by
  rw [← h.epoch] at hpos
  obtain ⟨σ', hok, hrefines⟩ := h.refines.releaseStore h.ordered.coherent hpos s
  exact ⟨σ', hok, h.of_step hrefines (h.ordered.releaseStore (h.settled t hprinted) s)
    (fun _ => nofun) (fun _ _ => nofun) (fun _ => rfl) rfl rfl rfl (h.noteRelease_eq t)⟩

theorem acqRel (h : Reached ops g σ) (hnew : g.released t < g.epoch t)
    (hprinted : g.printed t = false) (s : ℕ) : ∃ σ', σ.acqRel t s = some σ' ∧ Reached
    (ops ++ [.acqRel t s]) (g.noteRelease t) σ' := by
  obtain ⟨σ₁, hok₁, h₁⟩ := h.acquire hnew hprinted s
  rw [← h.epoch, ← h.released] at hnew
  have hcoh := h.ordered.coherent
  have hown := hcoh.clock_acquire_own t t s
  have hrun := run_append ops (.acquire t s)
  have hpos :
      0 < (LoggedClocks.run ((ops ++ [ClockOp.acquire t s]).map ClockOp.sync)).clock t t := by
    rw [hrun]
    exact (Nat.zero_lt_of_lt hnew).trans_eq hown.symm
  obtain ⟨σ', hok, hrefines⟩ := h₁.refines.releaseStore h₁.ordered.coherent hpos s
  rw [hrun] at hrefines
  have hstep : σ.acqRel t s = some σ' := by
    unfold ClockState.acqRel
    simp only [hok₁, Option.bind_eq_bind, Option.bind_some]
    exact hok
  refine ⟨σ', hstep, h.of_step hrefines (h.ordered.acqRel hnew (h.settled t hprinted) s)
    (fun _ => nofun) (fun _ _ => nofun) (fun u => hcoh.clock_acquire_own t u s) rfl rfl rfl fun u =>
    ?_⟩
  rw [← h.noteRelease_eq t u, ← hown]
  rfl

theorem reset (h : Reached ops g σ) (s : ℕ) :
    ∃ σ', σ.reset s = some σ' ∧ Reached (ops ++ [.reset s]) g σ' := by
  obtain ⟨σ', hok, hrefines⟩ := h.refines.reset s
  exact ⟨σ', hok, h.of_step hrefines (h.ordered.reset s) (fun _ => nofun) (fun _ _ => nofun)
    (fun _ => rfl) rfl rfl rfl h.released⟩

/-- An operation that is allowed succeeds. -/
theorem step (h : Reached ops g σ) {op : ClockOp} (hop : g.Allows op) :
    ∃ σ', σ.step op = some σ' ∧ Reached (ops ++ [op]) (g.after op) σ' := by
  cases op with
  | set t e => exact ⟨_, rfl, h.set hop.1 hop.2.1 hop.2.2.1⟩
  | acquire t s => exact h.acquire hop.1 hop.2 s
  | release t s => exact h.release hop.1 hop.2 s
  | releaseStore t s => exact h.releaseStore hop.1 hop.2 s
  | acqRel t s => exact h.acqRel hop.1 hop.2 s
  | reset s => exact h.reset s
  | print line => exact ⟨_, rfl, h.print⟩

/-- A run succeeds. -/
theorem run (h : Reached ops g σ) {more : List ClockOp} (hmore : g.Follows more) :
    ∃ σ' g', σ.run more = some σ' ∧ Reached (ops ++ more) g' σ' := by
  induction more generalizing ops g σ with
  | nil =>
    refine ⟨σ, g, rfl, ?_⟩
    rw [List.append_nil]
    exact h
  | cons op more ih =>
    obtain ⟨hop, hmore⟩ := hmore
    obtain ⟨σ₁, hok₁, h₁⟩ := h.step hop
    obtain ⟨σ', g', hok, h'⟩ := ih h₁ hmore
    refine ⟨σ', g', ?_, ?_⟩
    · unfold ClockState.run
      simp only [hok₁, Option.bind_eq_bind, Option.bind_some]
      exact hok
    · rw [List.append_cons]
      exact h'

end Reached

end Prd.Runtime
