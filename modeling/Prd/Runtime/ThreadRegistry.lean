import Mathlib.Data.List.Count
import Mathlib.Data.List.DropRight
import Mathlib.Data.List.Range
import Mathlib.Logic.Function.Basic
import Mathlib.Tactic.Common
import Prd.Runtime.Clock

/-!
# The thread registry

The registry gives out thread ids. A thread is created, runs and finishes, and is dead when it has
been joined. Dead threads wait in a queue before their ids are given out again.
-/
namespace Prd.Runtime

inductive ThreadStatus
  | invalid
  | created
  | running
  | finished
  | dead
  deriving DecidableEq

/-- Why a call does not return: a `CHECK` ends the program, or another thread has to go on first. -/
inductive Stop
  | checkFailed
  | waits
  deriving DecidableEq

/-- A `CHECK`. -/
def check (p : Prop) [Decidable p] : Except Stop Unit := if p then .ok () else .error .checkFailed

/-- `ThreadContextBase`. -/
structure ThreadContext where
  uniqueId : ℕ
  reuseCount : ℕ
  userId : ℕ
  status : ThreadStatus
  detached : Bool
  parentTid : ℕ
  destroyed : Bool

namespace ThreadContext

def new : ThreadContext := ⟨0, 0, 0, .invalid, false, 0, false⟩

/-- Created or running. -/
def alive (c : ThreadContext) : Bool := c.status = .created ∨ c.status = .running

def running (c : ThreadContext) : Bool := c.status = .running

end ThreadContext

structure ThreadRegistry where
  maxThreads : ℕ
  threadQuarantineSize : ℕ
  maxReuse : ℕ
  nContexts : ℕ
  totalThreads : ℕ
  aliveThreads : ℕ
  maxAliveThreads : ℕ
  runningThreads : ℕ
  threads : ℕ → ThreadContext
  deadThreads : List ℕ
  invalidThreads : List ℕ

def kThreadQuarantineSize : ℕ := 16
def kMaxTidReuse : ℕ := 2 ^ (64 - kClkBits) - 1

namespace ThreadRegistry

def new (maxThreads threadQuarantineSize maxReuse : ℕ) : ThreadRegistry :=
  ⟨maxThreads, threadQuarantineSize, maxReuse, 0, 0, 0, 0, 0, fun _ => .new, [], []⟩

def setThread (g : ThreadRegistry) (tid : ℕ) (c : ThreadContext) : ThreadRegistry :=
  { g with threads := Function.update g.threads tid c }

/-- `ThreadContextBase::Reset`. -/
def reset (g : ThreadRegistry) (tid : ℕ) : ThreadRegistry :=
  g.setThread tid { g.threads tid with status := .invalid, destroyed := false }

def quarantinePush (g : ThreadRegistry) (tid : ℕ) : Except Stop ThreadRegistry :=
  if tid = 0 then .ok g
  else
    match g.deadThreads ++ [tid] with
    | [] => .ok g
    | front :: rest =>
      if (front :: rest).length ≤ g.threadQuarantineSize then
        .ok { g with deadThreads := front :: rest }
      else do
        let g := { g with deadThreads := rest }
        check ((g.threads front).status = .dead)
        let g := g.reset front
        let c := g.threads front
        let g := g.setThread front { c with reuseCount := c.reuseCount + 1 }
        if 0 < g.maxReuse ∧ g.maxReuse ≤ (g.threads front).reuseCount then .ok g
        else .ok { g with invalidThreads := g.invalidThreads ++ [front] }

/-- The id of a dead thread, or a new one. -/
def takeTid (g : ThreadRegistry) : Except Stop (ℕ × ThreadRegistry) :=
  match g.invalidThreads with
  | tid :: rest => .ok (tid, { g with invalidThreads := rest })
  | [] =>
    if g.nContexts < g.maxThreads then
      .ok (g.nContexts, { g with nContexts := g.nContexts + 1 }.setThread g.nContexts .new)
    else .error .checkFailed

def createThread (g : ThreadRegistry) (userId : ℕ) (detached : Bool) (parentTid : ℕ) :
    Except Stop (ℕ × ThreadRegistry) := do
  let (tid, g) ← g.takeTid
  check (tid < g.maxThreads)
  check ((g.threads tid).status = .invalid)
  let aliveThreads := g.aliveThreads + 1
  let maxAliveThreads := if g.maxAliveThreads < aliveThreads then g.maxAliveThreads + 1
    else g.maxAliveThreads
  check (g.maxAliveThreads < aliveThreads → aliveThreads = maxAliveThreads)
  let c := g.threads tid
  let g := { g with
    aliveThreads := aliveThreads
    maxAliveThreads := maxAliveThreads
    totalThreads := g.totalThreads + 1 }.setThread tid
      { c with
        status := .created
        userId := userId
        uniqueId := g.totalThreads
        detached := detached
        parentTid := if tid ≠ 0 then parentTid else c.parentTid }
  pure (tid, g)

def startThread (g : ThreadRegistry) (tid : ℕ) : Except Stop ThreadRegistry := do
  let g := { g with runningThreads := g.runningThreads + 1 }
  check (tid < g.nContexts)
  check ((g.threads tid).status = .created)
  pure (g.setThread tid { g.threads tid with status := .running })

/-- `ThreadContextBase::SetDead` and the way into the queue. -/
def setDead (g : ThreadRegistry) (tid : ℕ) : Except Stop ThreadRegistry := do
  check ((g.threads tid).status = .running ∨ (g.threads tid).status = .finished)
  (g.setThread tid { g.threads tid with status := .dead, userId := 0 }).quarantinePush tid

def setDestroyed (g : ThreadRegistry) (tid : ℕ) : ThreadRegistry :=
  g.setThread tid { g.threads tid with destroyed := true }

def finishThread (g : ThreadRegistry) (tid : ℕ) : Except Stop ThreadRegistry := do
  check (0 < g.aliveThreads)
  let g := { g with aliveThreads := g.aliveThreads - 1 }
  check (tid < g.nContexts)
  let c := g.threads tid
  let dead := c.detached || c.status ≠ .running
  let g ← if c.status = .running then do
      check (0 < g.runningThreads)
      pure { g with runningThreads := g.runningThreads - 1 }
    else do
      -- The thread never really existed.
      check (c.status = .created)
      pure g
  let g := g.setThread tid
    { c with status := if c.detached = false ∨ c.status = .created then .finished else c.status }
  let g ← if dead then g.setDead tid else pure g
  pure (g.setDestroyed tid)

def joinThread (g : ThreadRegistry) (tid : ℕ) : Except Stop ThreadRegistry := do
  check (tid < g.nContexts)
  let c := g.threads tid
  if c.status = .invalid then pure g
  else if c.destroyed then do
    check (c.detached = false)
    check (c.status = .finished)
    (g.setThread tid { c with status := .dead, userId := 0 }).quarantinePush tid
  else .error .waits

def detachThread (g : ThreadRegistry) (tid : ℕ) : Except Stop ThreadRegistry := do
  check (tid < g.nContexts)
  let c := g.threads tid
  if c.status = .invalid then pure g
  else if c.status = .finished then g.setDead tid
  else pure (g.setThread tid { c with detached := true })

def setThreadUserId (g : ThreadRegistry) (tid userId : ℕ) : Except Stop ThreadRegistry := do
  check (tid < g.nContexts)
  let c := g.threads tid
  check (c.status ≠ .invalid)
  check (c.status ≠ .dead)
  check (c.userId = 0)
  pure (g.setThread tid { c with userId := userId })

/-- `ThreadConsumeTid`: the thread gives its user id away. -/
def consumeTid (g : ThreadRegistry) (userId : ℕ) : Except Stop (Option ℕ × ThreadRegistry) :=
  match (List.range g.nContexts).filter fun tid =>
      (g.threads tid).userId = userId ∧ (g.threads tid).status ≠ .invalid with
  | [] => .ok (none, g)
  | [tid] => .ok (some tid, g.setThread tid { g.threads tid with userId := 0 })
  | _ => .error .checkFailed

end ThreadRegistry

inductive RegistryCall
  | create (userId : ℕ) (detached : Bool) (parentTid : ℕ)
  | start (tid : ℕ)
  | finish (tid : ℕ)
  | join (tid : ℕ)
  | detach (tid : ℕ)
  | setUserId (tid userId : ℕ)
  | consume (userId : ℕ)

namespace ThreadRegistry

def step (g : ThreadRegistry) : RegistryCall → Except Stop ThreadRegistry
  | .create userId detached parentTid => do
    let (_, g) ← g.createThread userId detached parentTid
    pure g
  | .start tid => g.startThread tid
  | .finish tid => g.finishThread tid
  | .join tid => g.joinThread tid
  | .detach tid => g.detachThread tid
  | .setUserId tid userId => g.setThreadUserId tid userId
  | .consume userId => do
    let (_, g) ← g.consumeTid userId
    pure g

def run (g : ThreadRegistry) : List RegistryCall → Except Stop ThreadRegistry
  | [] => .ok g
  | c :: calls => do
    let g ← g.step c
    g.run calls

/-- The number of threads whose context has the property. -/
def count (g : ThreadRegistry) (p : ThreadContext → Bool) : ℕ :=
  (List.range g.nContexts).countP fun tid => p (g.threads tid)

/-- Whoever joins waits until the thread is destroyed, and a thread that is detached is not left
to be joined. -/
structure Settled (c : ThreadContext) : Prop where
  destroyed : c.destroyed = true ↔ c.status = .finished ∨ c.status = .dead
  joinable : c.status = .finished → c.detached = false

/-- The counters count the threads, and the two queues hold dead and reset threads. -/
structure Counted (g : ThreadRegistry) : Prop where
  nContexts_le : g.nContexts ≤ g.maxThreads
  unused : ∀ tid, g.nContexts ≤ tid → g.threads tid = .new
  dead : ∀ tid ∈ g.deadThreads, tid < g.nContexts ∧ (g.threads tid).status = .dead
  invalid : ∀ tid ∈ g.invalidThreads, tid < g.nContexts ∧ (g.threads tid).status = .invalid
  nodup : g.deadThreads.Nodup
  nodup_invalid : g.invalidThreads.Nodup
  queue_le : g.deadThreads.length ≤ g.threadQuarantineSize
  alive : g.aliveThreads = g.count ThreadContext.alive
  running : g.runningThreads = g.count ThreadContext.running
  alive_le : g.aliveThreads ≤ g.maxAliveThreads

structure Valid (g : ThreadRegistry) : Prop extends Counted g where
  settled : ∀ tid, Settled (g.threads tid)

section Checks

variable {α : Type} {p : Prop} [Decidable p] {f : Unit → Except Stop α} {a : α}

@[simp] theorem check_bind_eq_ok : (check p >>= f) = .ok a ↔ p ∧ f () = .ok a := by
  by_cases hp : p <;> simp [check, hp, bind, Except.bind]

theorem bind_eq_ok {β : Type} {e : Except Stop β} {f : β → Except Stop α} :
    (e >>= f) = .ok a ↔ ∃ b, e = .ok b ∧ f b = .ok a := by
  cases e <;> simp [bind, Except.bind]

@[simp] theorem ite_eq_ok {e : Except Stop α} {s : Stop} :
    (if p then e else .error s) = .ok a ↔ p ∧ e = .ok a := by
  by_cases hp : p <;> simp [hp]

end Checks

section Counts

variable {g : ThreadRegistry} {tid u : ℕ} {c : ThreadContext}

theorem countP_update {α : Type} (f : ℕ → α) (p : α → Bool) {n i : ℕ} (hi : i < n) (x : α) :
    ((List.range n).countP fun j => p (Function.update f i x j)) + (p (f i)).toNat =
      ((List.range n).countP fun j => p (f j)) + (p x).toNat := by
  induction n with
  | zero => omega
  | succ n ih =>
    rw [List.range_succ, List.countP_append, List.countP_append]
    by_cases hn : i = n
    · subst hn
      have hsame : ((List.range i).countP fun j => p (Function.update f i x j)) =
          (List.range i).countP fun j => p (f j) := by
        refine List.countP_congr fun j hj => ?_
        rw [Function.update_of_ne (List.mem_range.mp hj).ne]
      simp only [hsame, List.countP_singleton, Function.update_self]
      cases p x <;> cases p (f i) <;> simp
    · have := ih (by omega)
      simp only [List.countP_singleton, Function.update_of_ne (Ne.symm hn)]
      omega

@[simp] theorem setThread_self : (g.setThread tid c).threads tid = c := Function.update_self _ _ _

theorem setThread_eq_self (h : g.threads tid = c) : g.setThread tid c = g := by
  simp [setThread, ← h]

theorem setThread_of_ne (hu : u ≠ tid) : (g.setThread tid c).threads u = g.threads u :=
  Function.update_of_ne hu _ _

theorem count_setThread (p : ThreadContext → Bool) (hlt : tid < g.nContexts) :
    (g.setThread tid c).count p + (p (g.threads tid)).toNat = g.count p + (p c).toNat :=
  countP_update g.threads p hlt c

theorem Counted.notMem_dead (h : g.Counted) (hs : (g.threads tid).status ≠ .dead) :
    tid ∉ g.deadThreads := fun hm => hs (h.dead tid hm).2

theorem Counted.notMem_invalid (h : g.Counted) (hs : (g.threads tid).status ≠ .invalid) :
    tid ∉ g.invalidThreads := fun hm => hs (h.invalid tid hm).2

theorem Counted.lt (h : g.Counted) (hs : (g.threads tid).status ≠ .invalid) :
    tid < g.nContexts := by
  by_contra hn
  exact hs (by rw [h.unused tid (by omega)]; rfl)

/-- One thread outside the queues changes, and the counters with it. -/
theorem Counted.setThread (h : g.Counted) (hlt : tid < g.nContexts) (hd : tid ∉ g.deadThreads)
    (hi : tid ∉ g.invalidThreads) (c : ThreadContext) (alive maxAlive running total : ℕ)
    (halive : alive + (g.threads tid).alive.toNat = g.aliveThreads + c.alive.toNat)
    (hrunning : running + (g.threads tid).running.toNat = g.runningThreads + c.running.toNat)
    (hle : alive ≤ maxAlive) :
    ({ g with
      aliveThreads := alive
      maxAliveThreads := maxAlive
      runningThreads := running
      totalThreads := total }.setThread tid c).Counted where
  nContexts_le := h.nContexts_le
  unused := by
    intro u hu
    have hne : u ≠ tid := by
      rintro rfl
      exact absurd hlt (not_lt.mpr hu)
    rw [setThread_of_ne hne]
    exact h.unused u hu
  dead := by
    intro u hu
    have hne : u ≠ tid := by
      rintro rfl
      exact hd hu
    rw [setThread_of_ne hne]
    exact h.dead u hu
  invalid := by
    intro u hu
    have hne : u ≠ tid := by
      rintro rfl
      exact hi hu
    rw [setThread_of_ne hne]
    exact h.invalid u hu
  nodup := h.nodup
  nodup_invalid := h.nodup_invalid
  queue_le := h.queue_le
  alive := by
    have hcount := count_setThread (c := c) ThreadContext.alive hlt
    have hold := h.alive
    change alive = (g.setThread tid c).count ThreadContext.alive
    omega
  running := by
    have hcount := count_setThread (c := c) ThreadContext.running hlt
    have hold := h.running
    change running = (g.setThread tid c).count ThreadContext.running
    omega
  alive_le := hle

/-- The main thread never joins the queue. -/
def queued (tid : ℕ) : List ℕ := if tid = 0 then [] else [tid]

theorem rtake_of_length_le {l : List ℕ} {n : ℕ} (h : l.length ≤ n) : l.rtake n = l := by
  rw [List.rtake, Nat.sub_eq_zero_of_le h, List.drop_zero]

/-- A dead thread joins the queue, and the one at its head is reset when the queue is full. -/
structure Pushed (g : ThreadRegistry) (tid : ℕ) (g' : ThreadRegistry) : Prop where
  counted : g'.Counted
  nContexts : g'.nContexts = g.nContexts
  maxThreads : g'.maxThreads = g.maxThreads
  size : g'.threadQuarantineSize = g.threadQuarantineSize
  queue : g'.deadThreads = (g.deadThreads ++ queued tid).rtake g.threadQuarantineSize
  stays : ∀ u, u ∉ g.deadThreads → g'.threads u = g.threads u
  reset : ∀ u, g'.threads u = g.threads u ∨
    (g'.threads u).status = .invalid ∧ (g'.threads u).destroyed = false
  room : (g.deadThreads ++ queued tid).length ≤ g.threadQuarantineSize →
    g'.threads = g.threads ∧ g'.invalidThreads = g.invalidThreads

@[simp] theorem setThread_setThread {c' : ThreadContext} :
    (g.setThread tid c).setThread tid c' = g.setThread tid c' := by
  simp [setThread]

/-- The context of a thread that leaves the queue. -/
def released (c : ThreadContext) : ThreadContext :=
  { c with status := .invalid, destroyed := false, reuseCount := c.reuseCount + 1 }

/-- The thread at the head of the queue is reset, and its id is free unless it
was used too often. -/
theorem quarantinePush_full {front : ℕ} {rest : List ℕ} (h0 : tid ≠ 0)
    (hq : g.deadThreads ++ [tid] = front :: rest)
    (hfull : g.threadQuarantineSize < (front :: rest).length)
    (hdead : (g.threads front).status = .dead) : ∃ free, (free = [] ∨ free = [front]) ∧
      g.quarantinePush tid = .ok ({ g with
        deadThreads := rest
        invalidThreads :=
        g.invalidThreads ++ free }.setThread front (released (g.threads front))) := by
  unfold quarantinePush
  rw [if_neg h0, hq]
  simp only [if_neg (not_le.mpr hfull), hdead, check, if_true, reset]
  by_cases hreuse : 0 < g.maxReuse ∧ g.maxReuse ≤ (g.threads front).reuseCount + 1
  · refine ⟨[], Or.inl rfl, ?_⟩
    simp [bind, Except.bind, hreuse, setThread, released]
  · refine ⟨[front], Or.inr rfl, ?_⟩
    simp [bind, Except.bind, hreuse, setThread, released]

/-- A thread that leaves the queue. -/
theorem Counted.leaves {front : ℕ} {rest free : List ℕ} (h : ({ g with deadThreads := rest } :
      ThreadRegistry).Counted) (hlt : front < g.nContexts)
      (hdead : (g.threads front).status = .dead)
    (hout : front ∉ rest) (hfree : free = [] ∨ free = [front]) :
    ({ g with
      deadThreads := rest
      invalidThreads := g.invalidThreads ++ free }.setThread front
        (released (g.threads front))).Counted := by
  have hfront : front ∉ g.invalidThreads := by
    intro hm
    have hs := (h.invalid front hm).2
    rw [hdead] at hs
    cases hs
  have hset :=
    h.setThread hlt hout hfront (released (g.threads front)) g.aliveThreads g.maxAliveThreads
    g.runningThreads g.totalThreads (by simp [ThreadContext.alive, released, hdead])
    (by simp [ThreadContext.running, released, hdead]) h.alive_le
  refine ⟨hset.nContexts_le, hset.unused, hset.dead, fun u hu => ?_, hset.nodup, ?_, hset.queue_le,
    hset.alive, hset.running, hset.alive_le⟩
  · rcases List.mem_append.mp hu with hu | hu
    · exact hset.invalid u hu
    · have hu : u = front := by
        rcases hfree with rfl | rfl
        · cases hu
        · exact List.mem_singleton.mp hu
      subst hu
      exact ⟨hlt, by simp [released]⟩
  · rcases hfree with rfl | rfl
    · simpa using hset.nodup_invalid
    · exact List.nodup_append.mpr ⟨hset.nodup_invalid, List.nodup_singleton _, fun u hu v hv he =>
        hfront (List.mem_singleton.mp hv ▸ he ▸ hu)⟩

theorem exists_quarantinePush (h : g.Counted) (hsize : 0 < g.threadQuarantineSize)
    (hlt : tid < g.nContexts) (hdead : (g.threads tid).status = .dead)
    (hout : tid ∉ g.deadThreads) :
    ∃ g', g.quarantinePush tid = .ok g' ∧ Pushed g tid g' := by
  by_cases h0 : tid = 0
  · refine ⟨g, by simp [quarantinePush, h0], h, rfl, rfl, rfl, ?_, fun _ _ => rfl,
      fun _ => Or.inl rfl, fun _ => ⟨rfl, rfl⟩⟩
    rw [queued, if_pos h0, List.append_nil, rtake_of_length_le h.queue_le]
  have hqueued : queued tid = [tid] := if_neg h0
  have hnd : (g.deadThreads ++ [tid]).Nodup := by
    simp only [List.nodup_append, h.nodup, List.nodup_singleton, List.mem_singleton, true_and]
    rintro a ha b rfl rfl
    exact hout ha
  have hall : ∀ u ∈ g.deadThreads ++ [tid], u < g.nContexts ∧ (g.threads u).status = .dead := by
    simp only [List.mem_append, List.mem_singleton]
    rintro u (hu | rfl)
    · exact h.dead u hu
    · exact ⟨hlt, hdead⟩
  have hlen := h.queue_le
  have hlen' : (g.deadThreads ++ [tid]).length = g.deadThreads.length + 1 := by simp
  cases hq : g.deadThreads ++ [tid] with
  | nil => simp at hq
  | cons front rest =>
    rw [hq] at hnd hall hlen'
    by_cases hfull : (front :: rest).length ≤ g.threadQuarantineSize
    · refine ⟨{ g with deadThreads := front :: rest }, ?_,
        ⟨h.nContexts_le, h.unused, hall, h.invalid, hnd,
        h.nodup_invalid, hfull, h.alive, h.running, h.alive_le⟩, rfl, rfl, rfl, ?_, fun _ _ => rfl,
        fun _ => Or.inl rfl, fun _ => ⟨rfl, rfl⟩⟩
      · unfold quarantinePush
        rw [if_neg h0, hq]
        exact if_pos hfull
      · rw [hqueued, hq, rtake_of_length_le hfull]
    · obtain ⟨hfront, hrest⟩ := List.nodup_cons.mp hnd
      obtain ⟨hflt, hfdead⟩ := hall front List.mem_cons_self
      obtain ⟨free, hfree, hok⟩ := quarantinePush_full h0 hq (by omega) hfdead
      have hmem : front ∈ g.deadThreads := by
        cases hd : g.deadThreads with
        | nil =>
          rw [hd] at hlen'
          simp only [List.length_nil] at hlen'
          omega
        | cons a as =>
          rw [hd] at hq
          cases hq
          exact List.mem_cons_self
      have hrest' : ({ g with deadThreads := rest } : ThreadRegistry).Counted := by
        refine ⟨h.nContexts_le, h.unused, fun u hu => hall u (List.mem_cons_of_mem _ hu), h.invalid,
          hrest, h.nodup_invalid, ?_, h.alive, h.running, h.alive_le⟩
        simp only [List.length_cons] at hlen'
        dsimp only
        omega
      refine ⟨_, hok, hrest'.leaves hflt hfdead hfront hfree, rfl, rfl, rfl, ?_, fun u hu => ?_,
        fun u => ?_, fun hroom => absurd hroom (by rw [hqueued, hq]; exact hfull)⟩
      · have hdrop : (front :: rest).length - g.threadQuarantineSize = 1 := by omega
        rw [hqueued, hq, List.rtake, hdrop]
        rfl
      · have hne : u ≠ front := by
          rintro rfl
          exact hu hmem
        exact setThread_of_ne hne
      · by_cases hu : u = front
        · subst hu
          exact Or.inr ⟨by simp [released], by simp [released]⟩
        · exact Or.inl (setThread_of_ne hu)

/-- A thread changes, but not its status. -/
theorem Counted.sameStatus (h : g.Counted) (hlt : tid < g.nContexts)
    (hs : c.status = (g.threads tid).status) : (g.setThread tid c).Counted where
  nContexts_le := h.nContexts_le
  unused := by
    intro u hu
    have hne : u ≠ tid := by
      rintro rfl
      exact absurd hlt (not_lt.mpr hu)
    rw [setThread_of_ne hne]
    exact h.unused u hu
  dead := by
    intro u hu
    by_cases hut : u = tid
    · subst hut
      rw [setThread_self, hs]
      exact h.dead u hu
    · rw [setThread_of_ne hut]
      exact h.dead u hu
  invalid := by
    intro u hu
    by_cases hut : u = tid
    · subst hut
      rw [setThread_self, hs]
      exact h.invalid u hu
    · rw [setThread_of_ne hut]
      exact h.invalid u hu
  nodup := h.nodup
  nodup_invalid := h.nodup_invalid
  queue_le := h.queue_le
  alive := by
    have hcount := count_setThread (c := c) ThreadContext.alive hlt
    have hsame : c.alive = (g.threads tid).alive := by simp [ThreadContext.alive, hs]
    rw [hsame] at hcount
    exact h.alive.trans (by omega)
  running := by
    have hcount := count_setThread (c := c) ThreadContext.running hlt
    have hsame : c.running = (g.threads tid).running := by simp [ThreadContext.running, hs]
    rw [hsame] at hcount
    exact h.running.trans (by omega)
  alive_le := h.alive_le

end Counts

section Deaths

variable {g g' : ThreadRegistry} {tid u : ℕ} {c : ThreadContext}

/-- The threads that have died. -/
def died (g g' : ThreadRegistry) : List ℕ :=
  (List.range g.nContexts).filter fun u =>
    u ≠ 0 ∧ (g.threads u).status ≠ .dead ∧ (g'.threads u).status = .dead

theorem died_eq_nil (h : ∀ u, (g'.threads u).status = .dead → (g.threads u).status = .dead) :
    died g g' = [] := by
  refine List.filter_eq_nil_iff.mpr fun u _ => ?_
  simp only [decide_eq_true_eq, not_and]
  exact fun _ hold hnew => hold (h u hnew)

theorem died_eq (hlt : tid < g.nContexts) (hold : (g.threads tid).status ≠ .dead)
    (hnew : (g'.threads tid).status = .dead)
    (h : ∀ u, u ≠ tid → (g'.threads u).status = .dead → (g.threads u).status = .dead) :
    died g g' = queued tid := by
  have hiff : ∀ u ∈ List.range g.nContexts,
      decide (u ≠ 0 ∧ (g.threads u).status ≠ .dead ∧ (g'.threads u).status = .dead) =
        decide (u ≠ 0 ∧ u = tid) := by
    intro u _
    refine decide_eq_decide.mpr (and_congr_right fun _ => ⟨fun hu => ?_, ?_⟩)
    · by_contra hne
      exact hu.1 (h u hne hu.2)
    · rintro rfl
      exact ⟨hold, hnew⟩
  unfold died queued
  rw [List.filter_congr hiff]
  by_cases h0 : tid = 0
  · rw [if_pos h0]
    refine List.filter_eq_nil_iff.mpr fun u _ => ?_
    simp only [decide_eq_true_eq, not_and, h0]
    exact fun hu => hu
  · have heq : ∀ u ∈ List.range g.nContexts, decide (u ≠ 0 ∧ u = tid) = (u == tid) := by
      intro u _
      by_cases hu : u = tid
      · subst hu
        simp [h0]
      · simp [hu]
    rw [if_neg h0, List.filter_congr heq, List.filter_beq,
      List.count_eq_one_of_mem List.nodup_range (List.mem_range.mpr hlt), List.replicate_one]

/-- What a call may do. The queue holds the threads that have died last. -/
structure Advances (g g' : ThreadRegistry) : Prop where
  valid : g'.Valid
  maxThreads : g'.maxThreads = g.maxThreads
  size : g'.threadQuarantineSize = g.threadQuarantineSize
  queue : g'.deadThreads = (g.deadThreads ++ died g g').rtake g.threadQuarantineSize
  room : (g.deadThreads ++ died g g').length ≤ g.threadQuarantineSize →
    g'.invalidThreads ⊆ g.invalidThreads ∧ ∀ u, (g'.threads u).reuseCount = (g.threads u).reuseCount

/-- A call by which nobody dies. -/
theorem Valid.advances (h : g.Valid) (hvalid : g'.Valid) (hmax : g'.maxThreads = g.maxThreads)
    (hsize : g'.threadQuarantineSize = g.threadQuarantineSize)
    (hqueue : g'.deadThreads = g.deadThreads)
    (hinvalid : g'.invalidThreads ⊆ g.invalidThreads)
    (hdead : ∀ u, (g'.threads u).status = .dead → (g.threads u).status = .dead)
    (hreuse : ∀ u, (g'.threads u).reuseCount = (g.threads u).reuseCount) : Advances g g' := by
  refine ⟨hvalid, hmax, hsize, ?_, fun _ => ⟨hinvalid, hreuse⟩⟩
  rw [died_eq_nil hdead, List.append_nil, rtake_of_length_le h.queue_le, hqueue]

/-- A call by which a thread dies. -/
theorem Valid.exists_bury (h : g.Valid) (hsize : 0 < g.threadQuarantineSize)
    (hs : (g.threads tid).status ≠ .dead) (hs' : (g.threads tid).status ≠ .invalid)
    (hc : c.status = .dead) (hreuse : c.reuseCount = (g.threads tid).reuseCount) (alive running : ℕ)
    (halive : alive + (g.threads tid).alive.toNat = g.aliveThreads)
    (hrunning : running + (g.threads tid).running.toNat = g.runningThreads) :
    ∃ g', ({ g with
        aliveThreads := alive
        runningThreads := running }.setThread tid c).quarantinePush tid = .ok g' ∧
      g'.threads tid = c ∧ Advances g (g'.setThread tid { c with destroyed := true }) := by
  have hlt := h.toCounted.lt hs'
  have hout := h.toCounted.notMem_dead hs
  have hcounted := h.toCounted.setThread hlt hout (h.toCounted.notMem_invalid hs') c alive
    g.maxAliveThreads running g.totalThreads
    (by rw [halive]; simp [ThreadContext.alive, hc])
    (by rw [hrunning]; simp [ThreadContext.running, hc])
    (by have := h.alive_le; omega)
  obtain ⟨g', hok, hp⟩ := exists_quarantinePush hcounted hsize hlt (by rw [setThread_self, hc]) hout
  have hself : g'.threads tid = c := (hp.stays tid hout).trans setThread_self
  refine ⟨g', hok, hself, ?_⟩
  have hother : ∀ u, u ≠ tid →
      (g'.setThread tid { c with destroyed := true }).threads u = g.threads u ∨
        (g'.threads u).status = .invalid ∧ (g'.threads u).destroyed = false := by
    intro u hu
    rw [setThread_of_ne hu]
    refine (hp.reset u).imp_left fun he => he.trans (setThread_of_ne hu)
  have hdied : died g (g'.setThread tid { c with destroyed := true }) = queued tid := by
    refine died_eq hlt hs (by simp [hc]) fun u hu hdead => ?_
    rcases hother u hu with he | he
    · rw [he] at hdead
      exact hdead
    · rw [setThread_of_ne hu, he.1] at hdead
      cases hdead
  refine ⟨⟨hp.counted.sameStatus (by rw [hp.nContexts]; exact hlt) (by rw [hself]), fun u => ?_⟩,
    hp.maxThreads, hp.size, ?_, ?_⟩
  · by_cases hu : u = tid
    · subst hu
      rw [setThread_self]
      exact ⟨by simp [hc], by simp [hc]⟩
    · rcases hother u hu with he | he
      · rw [he]
        exact h.settled u
      · rw [setThread_of_ne hu]
        exact ⟨by simp [he.1, he.2], by simp [he.1]⟩
  · rw [hdied]
    exact hp.queue
  · intro hroom
    rw [hdied] at hroom
    obtain ⟨hthreads, hinvalid⟩ := hp.room hroom
    refine ⟨fun u hu => hinvalid ▸ hu, fun u => ?_⟩
    by_cases hu : u = tid
    · subst hu
      rw [setThread_self]
      exact hreuse
    · rw [setThread_of_ne hu, hthreads, setThread_of_ne hu]

theorem Valid.refl (h : g.Valid) : Advances g g :=
  h.advances h rfl rfl rfl (List.Subset.refl _) (fun _ hu => hu) fun _ => rfl

end Deaths

section Steps

variable {g g' : ThreadRegistry} {tid u : ℕ}

/-- A thread outside the queues changes, and does not die. -/
theorem Valid.changes (h : g.Valid) (hlt : tid < g.nContexts) (hd : tid ∉ g.deadThreads)
    (hi : tid ∉ g.invalidThreads) (c : ThreadContext) (hc : Settled c) (hs : c.status ≠ .dead)
    (hreuse : c.reuseCount = (g.threads tid).reuseCount) (alive maxAlive running total : ℕ)
    (halive : alive + (g.threads tid).alive.toNat = g.aliveThreads + c.alive.toNat)
    (hrunning : running + (g.threads tid).running.toNat = g.runningThreads + c.running.toNat)
    (hle : alive ≤ maxAlive) :
    Advances g ({ g with
      aliveThreads := alive
      maxAliveThreads := maxAlive
      runningThreads := running
      totalThreads := total }.setThread tid c) := by
  have hcounted :=
    h.toCounted.setThread hlt hd hi c alive maxAlive running total halive hrunning hle
  refine h.advances ⟨hcounted, fun u => ?_⟩ rfl rfl rfl (List.Subset.refl _)
    (fun u hu => ?_) fun u => ?_
  all_goals by_cases hut : u = tid
  · subst hut
    rw [setThread_self]
    exact hc
  · rw [setThread_of_ne hut]
    exact h.settled u
  · subst hut
    rw [setThread_self] at hu
    exact absurd hu hs
  · rwa [setThread_of_ne hut] at hu
  · subst hut
    rw [setThread_self]
    exact hreuse
  · rw [setThread_of_ne hut]

/-- A thread changes, but not its status. -/
theorem Valid.sameStatus (h : g.Valid) (hlt : tid < g.nContexts) (c : ThreadContext)
    (hc : Settled c) (hs : c.status = (g.threads tid).status)
    (hreuse : c.reuseCount = (g.threads tid).reuseCount) :
    Advances g (g.setThread tid c) := by
  refine h.advances ⟨h.toCounted.sameStatus hlt hs, fun u => ?_⟩ rfl rfl rfl (List.Subset.refl _)
    (fun u hu => ?_) fun u => ?_
  all_goals by_cases hut : u = tid
  · subst hut
    rw [setThread_self]
    exact hc
  · rw [setThread_of_ne hut]
    exact h.settled u
  · subst hut
    rwa [setThread_self, hs] at hu
  · rwa [setThread_of_ne hut] at hu
  · subst hut
    rw [setThread_self]
    exact hreuse
  · rw [setThread_of_ne hut]

theorem startThread_eq_ok : g.startThread tid = .ok g' ↔ tid < g.nContexts ∧
    (g.threads tid).status = .created ∧ g' =
    { g with runningThreads := g.runningThreads + 1 }.setThread tid
      { g.threads tid with status := .running } := by
  simp only [startThread, check_bind_eq_ok, pure, Except.pure, Except.ok.injEq, eq_comm (b := g')]

theorem Valid.start (h : g.Valid) (hs : (g.threads tid).status = .created) :
    Advances g ({ g with runningThreads := g.runningThreads + 1 }.setThread tid
      { g.threads tid with status := .running }) := by
  have hlt : tid < g.nContexts := h.toCounted.lt (by simp [hs])
  have hold := h.settled tid
  have hdestroyed : (g.threads tid).destroyed = false := by
    have := hold.destroyed
    simp only [hs] at this
    simpa using this
  exact h.changes hlt (h.toCounted.notMem_dead (by simp [hs]))
    (h.toCounted.notMem_invalid (by simp [hs])) { g.threads tid with status := .running }
    ⟨by simp [hdestroyed], by simp⟩ (by simp) rfl g.aliveThreads
    g.maxAliveThreads (g.runningThreads + 1) g.totalThreads (by simp [ThreadContext.alive, hs])
    (by simp [ThreadContext.running, hs]) h.alive_le

theorem Counted.alive_pos (h : g.Counted) (hs : (g.threads tid).alive = true) :
    0 < g.aliveThreads := by
  have hlt : tid < g.nContexts := h.lt fun hn => by simp [ThreadContext.alive, hn] at hs
  rw [h.alive]
  exact List.countP_pos_iff.mpr ⟨tid, List.mem_range.mpr hlt, hs⟩

theorem Counted.running_pos (h : g.Counted) (hs : (g.threads tid).running = true) :
    0 < g.runningThreads := by
  have hlt : tid < g.nContexts := h.lt fun hn => by simp [ThreadContext.running, hn] at hs
  rw [h.running]
  exact List.countP_pos_iff.mpr ⟨tid, List.mem_range.mpr hlt, hs⟩

theorem Valid.finish (h : g.Valid) (hsize : 0 < g.threadQuarantineSize)
    (hs : (g.threads tid).status = .created ∨ (g.threads tid).status = .running) :
    ∃ g', g.finishThread tid = .ok g' ∧ Advances g g' := by
  have halive : (g.threads tid).alive = true := by simpa [ThreadContext.alive] using hs
  have hpos := h.toCounted.alive_pos halive
  have hni : (g.threads tid).status ≠ .invalid := by rcases hs with hs | hs <;> simp [hs]
  have hnd : (g.threads tid).status ≠ .dead := by rcases hs with hs | hs <;> simp [hs]
  have hlt := h.toCounted.lt hni
  cases hs with
  | inl hs =>
    obtain ⟨g', hok, hself, hadv⟩ := h.exists_bury hsize hnd hni
      (c := { g.threads tid with status := .dead, userId := 0 }) rfl rfl
      (g.aliveThreads - 1) g.runningThreads
      (by rw [halive]; simp; omega) (by simp [ThreadContext.running, hs])
    have hcall : g.finishThread tid = .ok (g'.setDestroyed tid) := by
      simp [finishThread, setDead, check, hpos, hlt, hs, bind, Except.bind, pure, Except.pure, hok]
    rw [setDestroyed, hself] at hcall
    exact ⟨_, hcall, hadv⟩
  | inr hs =>
    have hrunning : (g.threads tid).running = true := by simpa [ThreadContext.running] using hs
    have hpos' := h.toCounted.running_pos hrunning
    cases hdet : (g.threads tid).detached with
    | true =>
      obtain ⟨g', hok, hself, hadv⟩ := h.exists_bury hsize hnd hni
        (c := { g.threads tid with status := .dead, userId := 0 }) rfl rfl (g.aliveThreads - 1)
        (g.runningThreads - 1) (by rw [halive]; simp; omega) (by rw [hrunning]; simp; omega)
      have hcall : g.finishThread tid = .ok (g'.setDestroyed tid) := by
        simp only [hdet] at hok
        simp [finishThread, setDead, check, hpos, hpos', hlt, hs, hdet, bind, Except.bind, pure,
          Except.pure, hok]
      rw [setDestroyed, hself] at hcall
      exact ⟨_, hcall, hadv⟩
    | false =>
      refine ⟨_, ?_, h.changes hlt (h.toCounted.notMem_dead hnd) (h.toCounted.notMem_invalid hni)
        { g.threads tid with status := .finished, destroyed := true } ⟨by simp, by simp [hdet]⟩
        (by simp) rfl
        (g.aliveThreads - 1) g.maxAliveThreads (g.runningThreads - 1) g.totalThreads
        (by rw [halive]; simp [ThreadContext.alive]; omega)
        (by rw [hrunning]; simp [ThreadContext.running]; omega) (by have := h.alive_le; omega)⟩
      simp [finishThread, setDestroyed, check, hpos, hpos', hlt, hs, hdet, bind, Except.bind, pure,
        Except.pure]

theorem finishThread_eq_ok (hok : g.finishThread tid = .ok g') :
    (g.threads tid).status = .created ∨ (g.threads tid).status = .running := by
  by_contra hs
  obtain ⟨hc, hr⟩ := not_or.mp hs
  simp [finishThread, hr, hc] at hok

/-- A finished thread dies when it is joined or detached. -/
theorem Valid.exists_reap (h : g.Valid) (hsize : 0 < g.threadQuarantineSize)
    (hs : (g.threads tid).status = .finished) : ∃ g', (g.setThread tid
      { g.threads tid with status := .dead, userId := 0 }).quarantinePush tid = .ok g' ∧
      Advances g g' := by
  have hdestroyed := (h.settled tid).destroyed.mpr (Or.inl hs)
  have hnd : (g.threads tid).status ≠ .dead := by simp [hs]
  have hni : (g.threads tid).status ≠ .invalid := by simp [hs]
  obtain ⟨g', hok, hself, hadv⟩ := h.exists_bury hsize hnd hni
    (c := { g.threads tid with status := .dead, userId := 0 }) rfl rfl g.aliveThreads
    g.runningThreads
    (by simp [ThreadContext.alive, hs]) (by simp [ThreadContext.running, hs])
  refine ⟨g', hok, ?_⟩
  rw [setThread_eq_self] at hadv
  · exact hadv
  · simp [hself, hdestroyed]

theorem Valid.join (h : g.Valid) (hsize : 0 < g.threadQuarantineSize)
    (hs : (g.threads tid).status = .finished) : ∃ g', g.joinThread tid = .ok g' ∧
    Advances g g' := by
  have hlt : tid < g.nContexts := h.toCounted.lt (by simp [hs])
  have hdestroyed := (h.settled tid).destroyed.mpr (Or.inl hs)
  have hjoinable := (h.settled tid).joinable hs
  obtain ⟨g', hok, hadv⟩ := h.exists_reap hsize hs
  refine ⟨g', ?_, hadv⟩
  simp only [hdestroyed, hjoinable] at hok
  simp [joinThread, check, hlt, hs, hdestroyed, hjoinable, bind, Except.bind, hok]

theorem joinThread_eq_ok (hok : g.joinThread tid = .ok g') :
    (g.threads tid).status = .finished ∨ g' = g := by
  by_contra hno
  obtain ⟨hs, hne⟩ := not_or.mp hno
  by_cases hi : (g.threads tid).status = .invalid
  · simp [joinThread, hi, pure, Except.pure] at hok
    exact hne hok.2.symm
  · by_cases hd : (g.threads tid).destroyed = true
    · simp [joinThread, hi, hd, hs] at hok
    · simp [joinThread, hi, hd] at hok

theorem Valid.detach (h : g.Valid) (hsize : 0 < g.threadQuarantineSize) (hlt : tid < g.nContexts) :
    ∃ g', g.detachThread tid = .ok g' ∧ Advances g g' := by
  by_cases hi : (g.threads tid).status = .invalid
  · exact ⟨g, by simp [detachThread, check, hlt, hi, bind, Except.bind, pure, Except.pure], h.refl⟩
  · by_cases hs : (g.threads tid).status = .finished
    · obtain ⟨g', hok, hadv⟩ := h.exists_reap hsize hs
      refine ⟨g', ?_, hadv⟩
      simp [detachThread, setDead, check, hlt, hs, bind, Except.bind, hok]
    · have hold := h.settled tid
      refine ⟨_, ?_, h.sameStatus hlt { g.threads tid with detached := true }
        ⟨hold.destroyed, fun he => absurd he hs⟩ rfl rfl⟩
      simp [detachThread, check, hlt, hi, hs, bind, Except.bind, pure, Except.pure]

theorem Valid.setUserId (h : g.Valid) {userId : ℕ} (hok : g.setThreadUserId tid userId = .ok g') :
    Advances g g' := by
  simp only [setThreadUserId, check_bind_eq_ok, pure, Except.pure, Except.ok.injEq] at hok
  obtain ⟨hlt, -, -, -, rfl⟩ := hok
  have hold := h.settled tid
  exact h.sameStatus hlt { g.threads tid with userId := userId }
    ⟨hold.destroyed, hold.joinable⟩ rfl rfl

theorem Valid.consume (h : g.Valid) {userId : ℕ} {found : Option ℕ}
    (hok : g.consumeTid userId = .ok (found, g')) : Advances g g' := by
  unfold consumeTid at hok
  split at hok
  · cases hok
    exact h.refl
  · rename_i tid hfilter
    cases hok
    have hmem : tid ∈ (List.range g.nContexts).filter fun tid =>
        (g.threads tid).userId = userId ∧ (g.threads tid).status ≠ .invalid := by
      rw [hfilter]
      exact List.mem_singleton_self tid
    have hold := h.settled tid
    exact h.sameStatus (List.mem_range.mp (List.mem_filter.mp hmem).1)
      { g.threads tid with userId := 0 } ⟨hold.destroyed, hold.joinable⟩ rfl rfl
  · cases hok

/-- There is an id for one more thread. -/
def HasRoom (g : ThreadRegistry) : Prop := g.invalidThreads ≠ [] ∨ g.nContexts < g.maxThreads

/-- An id is taken that nobody uses. -/
structure Takes (g : ThreadRegistry) (tid : ℕ) (g' : ThreadRegistry) : Prop where
  valid : g'.Valid
  lt : tid < g'.nContexts
  status : (g.threads tid).status = .invalid
  origin : tid = g.nContexts ∨ tid ∈ g.invalidThreads
  notMem_dead : tid ∉ g.deadThreads
  notMem_invalid : tid ∉ g'.invalidThreads
  threads : g'.threads = g.threads
  deadThreads : g'.deadThreads = g.deadThreads
  invalidThreads : g'.invalidThreads ⊆ g.invalidThreads
  maxThreads : g'.maxThreads = g.maxThreads
  size : g'.threadQuarantineSize = g.threadQuarantineSize

theorem Valid.take (h : g.Valid) (hroom : g.HasRoom) : ∃ tid g', g.takeTid = .ok (tid, g') ∧
    Takes g tid g' := by
  cases hi : g.invalidThreads with
  | cons tid rest =>
    have hnd := h.nodup_invalid
    rw [hi] at hnd
    obtain ⟨hlt, hs⟩ := h.invalid tid (by simp [hi])
    refine ⟨tid, { g with invalidThreads := rest }, by simp [takeTid, hi], ?_⟩
    refine ⟨⟨⟨h.nContexts_le, h.unused, h.dead, fun u hu => h.invalid u (by simp [hi, hu]), h.nodup,
      hnd.of_cons, h.queue_le, h.alive, h.running, h.alive_le⟩, h.settled⟩, hlt, hs,
      Or.inr (by simp [hi]),
      h.toCounted.notMem_dead (by simp [hs]), (List.nodup_cons.mp hnd).1, rfl, rfl,
      fun u hu => by simp only [hi]; exact List.mem_cons_of_mem _ hu, rfl, rfl⟩
  | nil =>
    have hlt : g.nContexts < g.maxThreads := hroom.resolve_left fun hne => hne hi
    have hnew := h.unused g.nContexts le_rfl
    refine ⟨g.nContexts, { g with nContexts := g.nContexts + 1 }, ?_, ?_⟩
    · simp [takeTid, hi, hlt, setThread, ← hnew]
    · have hcount : ∀ p, p ThreadContext.new = false →
          (List.range (g.nContexts + 1)).countP (fun tid => p (g.threads tid)) = g.count p := by
        intro p hp
        rw [List.range_succ, List.countP_append, List.countP_singleton, hnew, hp]
        rfl
      refine ⟨⟨⟨hlt, fun u hu => h.unused u (Nat.le_of_succ_le hu), fun u hu => ?_, fun u hu => ?_,
        h.nodup, h.nodup_invalid, h.queue_le, h.alive.trans (hcount _ rfl).symm, h.running.trans
        (hcount _ rfl).symm,
        h.alive_le⟩, h.settled⟩, Nat.lt_succ_self
        _, by rw [hnew]; rfl, Or.inl rfl, fun hm => ?_, fun hm => ?_,
        rfl, rfl, List.Subset.refl _, rfl, rfl⟩
      · exact ⟨(h.dead u hu).1.trans (Nat.lt_succ_self _), (h.dead u hu).2⟩
      · exact ⟨(h.invalid u hu).1.trans (Nat.lt_succ_self _), (h.invalid u hu).2⟩
      · exact lt_irrefl _ (h.dead _ hm).1
      · exact lt_irrefl _ (h.invalid _ hm).1

theorem Valid.create (h : g.Valid) (hroom : g.HasRoom) (userId : ℕ) (detached : Bool)
    (parentTid : ℕ) : ∃ tid g', g.createThread userId detached parentTid = .ok (tid, g') ∧
      Advances g g' ∧ (g.threads tid).status = .invalid ∧ tid ∉ g.deadThreads ∧
      (tid = g.nContexts ∨ tid ∈ g.invalidThreads) := by
  obtain ⟨tid, g₁, htake, t⟩ := h.take hroom
  have hs : (g₁.threads tid).status = .invalid := by rw [t.threads, t.status]
  have hdestroyed : (g₁.threads tid).destroyed = false := by
    have hold := (t.valid.settled tid).destroyed
    simpa [hs] using hold
  have hle := t.valid.alive_le
  have hadv := t.valid.changes t.lt (t.deadThreads ▸ t.notMem_dead) t.notMem_invalid
    { g₁.threads tid with
      status := .created
      userId := userId
      uniqueId := g₁.totalThreads
      detached := detached
      parentTid := if tid ≠ 0 then parentTid else (g₁.threads tid).parentTid }
    ⟨by simp [hdestroyed], by simp⟩ (by simp) rfl (g₁.aliveThreads + 1)
    (if g₁.maxAliveThreads < g₁.aliveThreads + 1 then g₁.maxAliveThreads + 1 else
      g₁.maxAliveThreads)
    g₁.runningThreads (g₁.totalThreads + 1) (by simp [ThreadContext.alive, hs])
    (by simp [ThreadContext.running, hs]) (by split_ifs <;> omega)
  refine ⟨tid, _, ?_, h.advances hadv.valid (hadv.maxThreads.trans t.maxThreads)
    (hadv.size.trans t.size) t.deadThreads
    t.invalidThreads (fun u hu => ?_) fun u => ?_, t.status, t.notMem_dead, t.origin⟩
  · have hlt : tid < g₁.maxThreads := t.lt.trans_le t.valid.nContexts_le
    have hmax : g₁.maxAliveThreads < g₁.aliveThreads + 1 → g₁.aliveThreads + 1 =
        if g₁.maxAliveThreads < g₁.aliveThreads + 1 then g₁.maxAliveThreads + 1
        else g₁.maxAliveThreads := by
      intro hmore
      rw [if_pos hmore]
      omega
    unfold createThread
    rw [htake]
    exact check_bind_eq_ok.mpr ⟨hlt, check_bind_eq_ok.mpr ⟨hs, check_bind_eq_ok.mpr ⟨hmax, rfl⟩⟩⟩
  · by_cases hut : u = tid
    · subst hut
      rw [setThread_self] at hu
      cases hu
    · rw [setThread_of_ne hut] at hu
      rwa [← t.threads]
  · by_cases hut : u = tid
    · subst hut
      rw [setThread_self, t.threads]
    · rw [setThread_of_ne hut, t.threads]

end Steps

end ThreadRegistry

end Prd.Runtime
