import Prd.Runtime.RegistryRuns
import Prd.Runtime.RunOrder
import Prd.Runtime.SyncCalls

/-!
# Runs of the calls

Whatever the threads call, and in whatever order their steps come, the clocks are used as they
have to be, and each thread prints what its program prints.
-/
namespace Prd.Runtime

/-- The thread whose clock is used, or who prints. -/
def ClockOp.thread : ClockOp → Option ℕ
  | .set t _ => some t
  | .acquire t _ => some t
  | .release t _ => some t
  | .releaseStore t _ => some t
  | .acqRel t _ => some t
  | .reset _ => none
  | .print line => some line.tid

/-- The three operations of a thread that release. -/
def ClockOp.IsRelease (t : ℕ) (op : ClockOp) : Prop :=
  ∃ s, op = .release t s ∨ op = .releaseStore t s ∨ op = .acqRel t s

namespace Callers

variable {g : Callers} {ops more : List ClockOp} {t : ℕ}

/-- What the callers are after a run. -/
def runs (g : Callers) (ops : List ClockOp) : Callers := ops.foldl after g

@[simp] theorem runs_append (g : Callers) (ops more : List ClockOp) :
    g.runs (ops ++ more) = (g.runs ops).runs more :=
  List.foldl_append

theorem follows_append (g : Callers) (ops more : List ClockOp) :
    g.Follows (ops ++ more) ↔ g.Follows ops ∧ (g.runs ops).Follows more := by
  induction ops generalizing g with
  | nil => simp [Follows, runs]
  | cons op ops ih =>
    simp only [List.cons_append, Follows, ih, runs, List.foldl_cons, and_assoc]

/-- The operations of other threads change nothing for a thread. -/
theorem after_of_ne (g : Callers) {op : ClockOp} (h : op.thread ≠ some t) :
    (g.after op).epoch t = g.epoch t ∧ (g.after op).released t = g.released t ∧
      (g.after op).printed t = g.printed t := by
  cases op with
  | set u e =>
    have hne : t ≠ u := fun heq => h (heq ▸ rfl)
    simp [after, hne]
  | acquire u s => simp [after]
  | release u s =>
    have hne : t ≠ u := fun heq => h (heq ▸ rfl)
    simp [after, noteRelease, hne]
  | releaseStore u s =>
    have hne : t ≠ u := fun heq => h (heq ▸ rfl)
    simp [after, noteRelease, hne]
  | acqRel u s =>
    have hne : t ≠ u := fun heq => h (heq ▸ rfl)
    simp [after, noteRelease, hne]
  | reset s => simp [after]
  | print line =>
    have hne : t ≠ line.tid := fun heq => h (heq ▸ rfl)
    simp [after, hne]

theorem runs_of_ne (g : Callers) (h : ∀ op ∈ ops, op.thread ≠ some t) :
    (g.runs ops).epoch t = g.epoch t ∧ (g.runs ops).released t = g.released t ∧
      (g.runs ops).printed t = g.printed t := by
  induction ops generalizing g with
  | nil => exact ⟨rfl, rfl, rfl⟩
  | cons op ops ih =>
    obtain ⟨he, hr, hp⟩ := g.after_of_ne (h op List.mem_cons_self)
    obtain ⟨he', hr', hp'⟩ := ih (g.after op) fun op' hop => h op' (List.mem_cons_of_mem op hop)
    exact ⟨he'.trans he, hr'.trans hr, hp'.trans hp⟩

end Callers

section Clocks

variable {epoch epoch' : ℕ → ℕ} {ops more : List ClockOp} {t u : ℕ}

/-- The thread may acquire: it has moved on since it released and since it printed. -/
structure Ready (epoch : ℕ → ℕ) (ops : List ClockOp) (t : ℕ) : Prop where
  released : (Callers.new.runs ops).released t < epoch t
  printed : (Callers.new.runs ops).printed t = true → (Callers.new.runs ops).epoch t < epoch t

/-- The clocks have been used as they have to be, as long as no epoch is too large. -/
structure Clocked (epoch : ℕ → ℕ) (ops : List ClockOp) : Prop where
  follows : (∀ t e, .set t e ∈ ops → e < 2 ^ 31) → Callers.new.Follows ops
  released_le : ∀ t, (Callers.new.runs ops).released t ≤ (Callers.new.runs ops).epoch t
  epoch_le : ∀ t, (Callers.new.runs ops).epoch t ≤ epoch t

/-- A thread that does nothing stays ready. -/
theorem Ready.frame (h : Ready epoch ops t) (he : epoch' t = epoch t)
    (hmore : ∀ op ∈ more, op.thread ≠ some t) : Ready epoch' (ops ++ more) t := by
  obtain ⟨hepoch, hreleased, hprinted⟩ := (Callers.new.runs ops).runs_of_ne hmore
  constructor
  · rw [Callers.runs_append, hreleased, he]
    exact h.released
  · rw [Callers.runs_append, hprinted, hepoch, he]
    exact h.printed

theorem clocked_new : Clocked (fun _ => 0) [] where
  follows := fun _ => trivial
  released_le := fun _ => le_rfl
  epoch_le := fun _ => le_rfl

/-- A thread that moves on may acquire. -/
theorem Clocked.ready (h : Clocked epoch ops) (ht : epoch t < epoch' t) : Ready epoch' ops t where
  released := ((h.released_le t).trans (h.epoch_le t)).trans_lt ht
  printed := fun _ => (h.epoch_le t).trans_lt ht

theorem Clocked.mono (h : Clocked epoch ops) (hle : ∀ t, epoch t ≤ epoch' t) : Clocked epoch' ops :=
  ⟨h.follows, h.released_le, fun t => (h.epoch_le t).trans (hle t)⟩

/-- One more operation. -/
theorem Clocked.append (h : Clocked epoch ops) {op : ClockOp}
    (hop : (∀ t e, op = .set t e → e < 2 ^ 31) → (Callers.new.runs ops).Allows op)
    (hreleased : ∀ u, ((Callers.new.runs ops).after op).released u ≤
      ((Callers.new.runs ops).after op).epoch u)
    (hepoch : ∀ u, ((Callers.new.runs ops).after op).epoch u ≤ epoch u) :
    Clocked epoch (ops ++ [op]) where
  follows := by
    intro hsmall
    rw [Callers.follows_append]
    refine ⟨h.follows fun t e he => hsmall t e (List.mem_append_left _ he), hop fun t e he => ?_,
      trivial⟩
    exact hsmall t e (List.mem_append_right ops (List.mem_singleton.mpr he.symm))
  released_le := by
    rw [Callers.runs_append]
    exact hreleased
  epoch_le := by
    rw [Callers.runs_append]
    exact hepoch

/-- The thread has set its clock, and may acquire and release. -/
structure IsSet (epoch : ℕ → ℕ) (ops : List ClockOp) (t : ℕ) : Prop where
  current : (Callers.new.runs ops).epoch t = epoch t
  printed : (Callers.new.runs ops).printed t = false
  released : (Callers.new.runs ops).released t < epoch t

theorem IsSet.ready (h : IsSet epoch ops t) : Ready epoch ops t :=
  ⟨h.released, fun hp => by simp [h.printed] at hp⟩

theorem Clocked.set (h : Clocked epoch ops) (ht : t < kMaxTid) (hpos : 0 < epoch t)
    (hr : Ready epoch ops t) : Clocked epoch (ops ++ [.set t (epoch t)]) ∧ IsSet epoch
    (ops ++ [.set t (epoch t)]) t := by
  have hprinted : ((Callers.new.runs ops).printed t && (Callers.new.runs ops).epoch t == epoch t) =
      false := by
    cases hp : (Callers.new.runs ops).printed t with
    | false => rfl
    | true => simpa using (hr.printed hp).ne
  refine ⟨h.append (fun hsmall => ?_) (fun u => ?_) fun u => ?_, ?_, ?_, ?_⟩
  · exact ⟨ht, hpos, h.epoch_le t, (hsmall t _ rfl).trans (by decide)⟩
  · by_cases hu : u = t
    · subst hu
      simpa [Callers.after] using hr.released.le
    · simpa [Callers.after, hu] using h.released_le u
  · by_cases hu : u = t
    · subst hu
      simp [Callers.after]
    · simpa [Callers.after, hu] using h.epoch_le u
  · rw [Callers.runs_append]
    simp [Callers.runs, Callers.after]
  · rw [Callers.runs_append]
    simpa [Callers.runs, Callers.after] using hprinted
  · rw [Callers.runs_append]
    simpa [Callers.runs, Callers.after] using hr.released

theorem Clocked.acquire (h : Clocked epoch ops) (hs : IsSet epoch ops t) (s : ℕ) :
    Clocked epoch (ops ++ [.acquire t s]) ∧ IsSet epoch (ops ++ [.acquire t s]) t := by
  have hruns : Callers.new.runs (ops ++ [.acquire t s]) = Callers.new.runs ops := by
    rw [Callers.runs_append]
    rfl
  refine ⟨h.append (fun _ => ⟨?_, hs.printed⟩) h.released_le h.epoch_le, ?_, ?_, ?_⟩
  · rw [hs.current]
    exact hs.released
  · rw [hruns]
    exact hs.current
  · rw [hruns]
    exact hs.printed
  · rw [hruns]
    exact hs.released

theorem Clocked.release (h : Clocked epoch ops) (hs : IsSet epoch ops t) (hpos : 0 < epoch t)
    {op : ClockOp} (hop : op.IsRelease t) : Clocked epoch (ops ++ [op]) := by
  have hallows : (Callers.new.runs ops).Allows op ∧
      (Callers.new.runs ops).after op = (Callers.new.runs ops).noteRelease t := by
    rw [← hs.current] at hpos
    obtain ⟨s, rfl | rfl | rfl⟩ := hop
    · exact ⟨⟨hpos, hs.printed⟩, rfl⟩
    · exact ⟨⟨hpos, hs.printed⟩, rfl⟩
    · exact ⟨⟨hs.current ▸ hs.released, hs.printed⟩, rfl⟩
  refine h.append (fun _ => hallows.1) ?_ ?_
  · intro u
    rw [hallows.2]
    by_cases hu : u = t
    · subst hu
      simp [Callers.noteRelease]
    · simpa [Callers.noteRelease, hu] using h.released_le u
  · rw [hallows.2]
    exact h.epoch_le

theorem Clocked.reset (h : Clocked epoch ops) (s : ℕ) : Clocked epoch (ops ++ [.reset s]) :=
  h.append (fun _ => trivial) h.released_le h.epoch_le

theorem Clocked.print (h : Clocked epoch ops) {line : Line} (hline : line.tid < kMaxTid) :
    Clocked epoch (ops ++ [.print line]) :=
  h.append (fun _ => hline) h.released_le h.epoch_le

end Clocks

namespace ThreadRegistry

/-- The registry of the runtime. -/
structure OfRuntime (g : ThreadRegistry) : Prop where
  valid : g.Valid
  maxThreads : g.maxThreads = kMaxTid
  size : 0 < g.threadQuarantineSize

theorem OfRuntime.step {g g' : ThreadRegistry} (h : g.OfRuntime) {c : RegistryCall}
    (hok : g.step c = .ok g') : g'.OfRuntime := by
  have hadv := h.valid.step h.size hok
  exact ⟨hadv.valid, hadv.maxThreads.trans h.maxThreads, hadv.size ▸ h.size⟩

end ThreadRegistry

namespace Rtl

variable {r r' r'' : Rtl} {t u s : ℕ} {op : ClockOp}

theorem registry_clockOp (r : Rtl) (t : ℕ) (op : ClockOp) :
    (r.clockOp t op).registry = r.registry := by
  unfold Rtl.clockOp
  split_ifs <;> rfl

/-- A thread that runs, and what is known of the runtime then. -/
structure Runs (r : Rtl) (t : ℕ) : Prop where
  clocked : Clocked r.epoch r.ops
  tid_lt : t < kMaxTid
  pos : 0 < r.epoch t

/-- What a thread may do to the clocks. -/
structure Syncs (t : ℕ) (r r' : Rtl) : Prop where
  clocked : Clocked r'.epoch r'.ops
  epoch_le : r.epoch t ≤ r'.epoch t
  epoch_of_ne : ∀ u, u ≠ t → r'.epoch u = r.epoch u
  printing : r'.printing = r.printing
  registry : r.registry.OfRuntime → r'.registry.OfRuntime
  ops : ∃ more, r'.ops = r.ops ++ more ∧
    ∀ op ∈ more, op.line = none ∧ (op.thread = none ∨ op.thread = some t)

/-- The epochs and the operations are the same. -/
theorem Runs.same (h : r.Runs t) (he : r'.epoch = r.epoch) (ho : r'.ops = r.ops)
    (hp : r'.printing = r.printing) (hg : r.registry.OfRuntime → r'.registry.OfRuntime) :
    Syncs t r r' where
  clocked := by
    rw [he, ho]
    exact h.clocked
  epoch_le := (congrFun he t).ge
  epoch_of_ne := fun u _ => congrFun he u
  printing := hp
  registry := hg
  ops := ⟨[], by simp [ho], by simp⟩

theorem Runs.after (h : r.Runs t) (hs : Syncs t r r') : r'.Runs t :=
  ⟨hs.clocked, h.tid_lt, h.pos.trans_le hs.epoch_le⟩

theorem Syncs.trans (h : Syncs t r r') (h' : Syncs t r' r'') : Syncs t r r'' where
  clocked := h'.clocked
  epoch_le := h.epoch_le.trans h'.epoch_le
  epoch_of_ne := fun u hu => (h'.epoch_of_ne u hu).trans (h.epoch_of_ne u hu)
  printing := h'.printing.trans h.printing
  registry := h'.registry ∘ h.registry
  ops := by
    obtain ⟨more, hmore, hall⟩ := h.ops
    obtain ⟨more', hmore', hall'⟩ := h'.ops
    refine ⟨more ++ more', by rw [hmore', hmore, List.append_assoc], fun op hop => ?_⟩
    rcases List.mem_append.mp hop with hop | hop
    · exact hall op hop
    · exact hall' op hop

def Ready (r : Rtl) (t : ℕ) : Prop := Runtime.Ready r.epoch r.ops t

theorem Runs.incrementEpoch (h : r.Runs t) :
    Syncs t r (r.incrementEpoch t) ∧ (r.incrementEpoch t).Ready t := by
  have hlt : r.epoch t < (r.incrementEpoch t).epoch t := by simp [Rtl.incrementEpoch]
  have hne : ∀ u, u ≠ t → (r.incrementEpoch t).epoch u = r.epoch u := fun u hu => by
    simp [Rtl.incrementEpoch, hu]
  refine ⟨⟨h.clocked.mono fun u => ?_, hlt.le, hne, rfl, id, [],
    by simp [Rtl.incrementEpoch], by simp⟩,
    h.clocked.ready hlt⟩
  by_cases hu : u = t
  · subst hu
    exact hlt.le
  · exact (hne u hu).ge

/-- The thread sets its clock and uses it. -/
theorem Runs.clockOp (h : r.Runs t) (hline : op.line = none) (hthread : op.thread = some t)
    (hclocked : Clocked r.epoch (r.ops ++ [.set t (r.epoch t), op])) :
    Syncs t r (r.clockOp t op) := by
  unfold Rtl.clockOp
  split_ifs
  · exact h.same rfl rfl rfl id
  · refine ⟨hclocked, le_rfl, fun u _ => rfl, rfl, id, _, rfl, fun op' hop => ?_⟩
    rcases List.mem_cons.mp hop with rfl | hop
    · exact ⟨rfl, Or.inr rfl⟩
    · rw [List.mem_singleton.mp hop]
      exact ⟨hline, Or.inr hthread⟩

theorem Runs.acquireImpl (h : r.Runs t) (hr : r.Ready t) (s : ℕ) :
    Syncs t r (r.acquireImpl t s) ∧ (r.acquireImpl t s).Ready t := by
  obtain ⟨hclocked, hset⟩ := h.clocked.set h.tid_lt h.pos hr
  obtain ⟨hclocked', hset'⟩ := hclocked.acquire hset s
  rw [List.append_assoc] at hclocked' hset'
  refine ⟨h.clockOp rfl rfl hclocked', ?_⟩
  unfold Rtl.acquireImpl Rtl.clockOp
  split_ifs
  · exact hr
  · exact hset'.ready

theorem Runs.release (h : r.Runs t) (hr : r.Ready t) (hop : op.IsRelease t) :
    Syncs t r (r.clockOp t op) := by
  obtain ⟨hclocked, hset⟩ := h.clocked.set h.tid_lt h.pos hr
  have hclocked' := hclocked.release hset h.pos hop
  rw [List.append_assoc] at hclocked'
  obtain ⟨s, rfl | rfl | rfl⟩ := hop
  · exact h.clockOp rfl rfl hclocked'
  · exact h.clockOp rfl rfl hclocked'
  · exact h.clockOp rfl rfl hclocked'

theorem Runs.releaseImpl (h : r.Runs t) (hr : r.Ready t) (s : ℕ) : Syncs t r (r.releaseImpl t s) :=
  h.release hr ⟨s, Or.inl rfl⟩

theorem Runs.releaseStoreImpl (h : r.Runs t) (hr : r.Ready t) (s : ℕ) :
    Syncs t r (r.releaseStoreImpl t s) :=
  h.release hr ⟨s, Or.inr (Or.inl rfl)⟩

theorem Runs.acquireReleaseImpl (h : r.Runs t) (hr : r.Ready t) (s : ℕ) :
    Syncs t r (r.acquireReleaseImpl t s) :=
  h.release hr ⟨s, Or.inr (Or.inr rfl)⟩

theorem Runs.resetClock (h : r.Runs t) (s : ℕ) : Syncs t r (r.resetClock s) :=
  ⟨h.clocked.reset s, le_rfl, fun _ _ => rfl, rfl, id, [.reset s], rfl,
    by simp [ClockOp.line, ClockOp.thread]⟩

theorem Runs.resetVar (h : r.Runs t) (addr : ℕ) : Syncs t r (r.resetVar addr) :=
  (h.resetClock _).trans ((h.after (h.resetClock _)).resetClock _)

/-- An object changes, and no clock. -/
theorem Runs.setVar (h : r.Runs t) (addr : ℕ) (v : Option SyncVar) : Syncs t r (r.setVar addr v) :=
  h.same rfl rfl rfl id

theorem Runs.atomicRMW (h : r.Runs t) (addr : ℕ) (mo : MemoryOrder) :
    Syncs t r (r.atomicRMW t addr mo) := by
  have hvar := h.setVar addr (some (r.getOrCreate addr))
  obtain ⟨hinc, hready⟩ := (h.after hvar).incrementEpoch
  have hstep := hvar.trans hinc
  have hruns := h.after hstep
  unfold Rtl.atomicRMW
  split_ifs
  · exact hstep.trans (hruns.acquireReleaseImpl hready _)
  · exact hstep.trans (hruns.releaseImpl hready _)
  · exact hstep.trans (hruns.acquireImpl hready _).1
  · exact hstep

theorem Runs.mutexDestroy (h : r.Runs t) (addr flagz : ℕ) :
    Syncs t r (r.mutexDestroy addr flagz).1 := by
  unfold Rtl.mutexDestroy
  split
  · exact h.same rfl rfl rfl id
  · split_ifs
    · exact h.same rfl rfl rfl id
    · exact (h.resetVar addr).trans ((h.after (h.resetVar addr)).setVar addr _)

/-- A lock that comes first acquires both clocks of the object, and no other does. -/
theorem mutexPostLock_eq_ok {addr flagz depth : ℕ}
    (hok : r.mutexPostLock t addr flagz depth = .ok r') :
    ∃ v d, v = (r.getOrCreate addr).updateFlags flagz ∧ 0 < d ∧
      ((v.ownerTid = none ∧ v.recursion = 0 ∧ r' = (((r.incrementEpoch t).setVar addr
          (some { v with ownerTid := some t, recursion := d })).acquireImpl t
            (clockOf addr)).acquireImpl t (readClockOf addr)) ∨
        ∃ owner, v.ownerTid = some owner ∧ (owner = t → 0 < v.recursion) ∧
          ((v.recursion = 0 ∧ r' = (((r.incrementEpoch t).setVar addr
              (some { v with recursion := d })).acquireImpl t (clockOf addr)).acquireImpl t
                (readClockOf addr)) ∨
            v.recursion ≠ 0 ∧ r' = (r.incrementEpoch t).setVar addr
              (some { v with recursion := v.recursion + d }))) := by
  unfold Rtl.mutexPostLock at hok
  obtain ⟨hd, hok⟩ := ThreadRegistry.check_bind_eq_ok.mp hok
  refine ⟨_, _, rfl, hd, ?_⟩
  cases howner : ((r.getOrCreate addr).updateFlags flagz).ownerTid with
  | none =>
    simp only [howner] at hok
    obtain ⟨hzero, hok⟩ := ThreadRegistry.check_bind_eq_ok.mp hok
    simp only [hzero, pure, Except.pure, bind, Except.bind, if_true, Except.ok.injEq,
      zero_add] at hok
    exact Or.inl ⟨rfl, hzero, hok.symm⟩
  | some owner =>
    simp only [howner] at hok
    obtain ⟨hpos, hok⟩ := ThreadRegistry.check_bind_eq_ok.mp hok
    simp only [pure, Except.pure, bind, Except.bind] at hok
    refine Or.inr ⟨owner, rfl, hpos, ?_⟩
    by_cases hzero : ((r.getOrCreate addr).updateFlags flagz).recursion = 0
    · simp only [hzero, if_true, Except.ok.injEq, zero_add] at hok
      rw [howner] at hok
      exact Or.inl ⟨hzero, hok.symm⟩
    · simp only [hzero, if_false, Except.ok.injEq] at hok
      rw [howner] at hok
      exact Or.inr ⟨hzero, hok.symm⟩

theorem Runs.mutexPostLock (h : r.Runs t) {addr flagz depth : ℕ}
    (hok : r.mutexPostLock t addr flagz depth = .ok r') : Syncs t r r' := by
  obtain ⟨hinc, hready⟩ := h.incrementEpoch
  have hvar := fun v => hinc.trans ((h.after hinc).setVar addr (some v))
  have hlock : ∀ v, Syncs t r ((((r.incrementEpoch t).setVar addr (some v)).acquireImpl t
      (clockOf addr)).acquireImpl t (readClockOf addr)) := by
    intro v
    obtain ⟨hacq, hready'⟩ :=
      (h.after (hvar v)).acquireImpl (show Ready _ t from hready) (clockOf addr)
    have hboth := (hvar v).trans hacq
    exact hboth.trans ((h.after hboth).acquireImpl hready' (readClockOf addr)).1
  obtain ⟨v, d, -, -, ⟨-, -, rfl⟩ | ⟨owner, -, -, ⟨-, rfl⟩ | ⟨-, rfl⟩⟩⟩ := mutexPostLock_eq_ok hok
  · exact hlock _
  · exact hlock _
  · exact hvar _

/-- Only the owner unlocks, and its last unlock is a release. -/
theorem mutexUnlock_cases (r : Rtl) (t addr flagz : ℕ) :
    ∃ v, v = r.getOrCreate addr ∧
      ((v.recursion = 0 ∨ v.ownerTid ≠ some t) ∧
          r.mutexUnlock t addr flagz = (r.incrementEpoch t).setVar addr (some v) ∨
        v.ownerTid = some t ∧ (v.recursion ≠ 0 ∧ r.mutexUnlock t addr flagz =
            ((r.incrementEpoch t).setVar addr
              (some { v with ownerTid := none, recursion := 0 })).releaseStoreImpl t
              (clockOf addr) ∨
          ∃ n, n ≠ 0 ∧ r.mutexUnlock t addr flagz =
            (r.incrementEpoch t).setVar addr (some { v with recursion := n }))) := by
  refine ⟨_, rfl, ?_⟩
  unfold Rtl.mutexUnlock
  dsimp only
  by_cases hbad : (r.getOrCreate addr).recursion = 0 ∨ (r.getOrCreate addr).ownerTid ≠ some t
  · rw [if_pos hbad]
    exact Or.inl ⟨hbad, rfl⟩
  · obtain ⟨hpos, howner⟩ := not_or.mp hbad
    rw [if_neg hbad]
    refine Or.inr ⟨not_not.mp howner, ?_⟩
    by_cases hlast : (r.getOrCreate addr).recursion -
        (if flagz &&& mutexFlagRecursiveUnlock ≠ 0 then (r.getOrCreate addr).recursion else 1) = 0
    · rw [if_pos hlast]
      exact Or.inl ⟨hpos, rfl⟩
    · rw [if_neg hlast]
      exact Or.inr ⟨_, hlast, rfl⟩

theorem Runs.mutexUnlock (h : r.Runs t) (addr flagz : ℕ) :
    Syncs t r (r.mutexUnlock t addr flagz) := by
  obtain ⟨hinc, hready⟩ := h.incrementEpoch
  have hvar := fun v => hinc.trans ((h.after hinc).setVar addr (some v))
  obtain ⟨v, -, ⟨-, hunlock⟩ | ⟨-, ⟨-, hunlock⟩ | ⟨n, -, hunlock⟩⟩⟩ :=
    r.mutexUnlock_cases t addr flagz
  · rw [hunlock]
    exact hvar _
  · rw [hunlock]
    exact (hvar _).trans
      ((h.after (hvar _)).releaseStoreImpl (show Ready _ t from hready) (clockOf addr))
  · rw [hunlock]
    exact hvar _

theorem Runs.mutexPostReadLock (h : r.Runs t) (addr flagz : ℕ) :
    Syncs t r (r.mutexPostReadLock t addr flagz) := by
  have hvar := h.setVar addr (some ((r.getOrCreate addr).updateFlags flagz))
  obtain ⟨hinc, hready⟩ := (h.after hvar).incrementEpoch
  have hstep := hvar.trans hinc
  exact hstep.trans ((h.after hstep).acquireImpl hready _).1

theorem Runs.mutexReadUnlock (h : r.Runs t) (addr : ℕ) : Syncs t r (r.mutexReadUnlock t addr) := by
  have hvar := h.setVar addr (some (r.getOrCreate addr))
  obtain ⟨hinc, hready⟩ := (h.after hvar).incrementEpoch
  have hstep := hvar.trans hinc
  exact hstep.trans ((h.after hstep).releaseImpl hready _)

/-- With an owner it is a write unlock, and only the owner may. -/
theorem mutexReadOrWriteUnlock_eq_ok {addr : ℕ} (hok : r.mutexReadOrWriteUnlock t addr = .ok r') :
    ∃ v, v = r.getOrCreate addr ∧
      ((v.ownerTid = none ∧
          r' = ((r.setVar addr (some v)).incrementEpoch t).releaseImpl t (readClockOf addr)) ∨
        (v.ownerTid = some t ∧ v.recursion = 1 ∧
          r' = (((r.setVar addr (some v)).incrementEpoch t).setVar addr
          (some { v with ownerTid := none, recursion := 0 })).releaseStoreImpl t (clockOf addr)) ∨
        (v.ownerTid = some t ∧ 1 < v.recursion ∧
          r' = ((r.setVar addr (some v)).incrementEpoch t).setVar addr
          (some { v with recursion := v.recursion - 1 })) ∨
        ∃ owner, v.ownerTid = some owner ∧ owner ≠ t ∧ r' = r.setVar addr (some v)) := by
  refine ⟨_, rfl, ?_⟩
  unfold Rtl.mutexReadOrWriteUnlock at hok
  cases howner : (r.getOrCreate addr).ownerTid with
  | none =>
    simp only [howner, pure, Except.pure, Except.ok.injEq] at hok
    exact Or.inl ⟨rfl, hok.symm⟩
  | some owner =>
    refine Or.inr ?_
    simp only [howner] at hok
    split_ifs at hok with htid hzero
    · subst htid
      obtain ⟨hpos, hok⟩ := ThreadRegistry.check_bind_eq_ok.mp hok
      exact Or.inl ⟨rfl, by omega, (Except.ok.inj hok).symm⟩
    · subst htid
      obtain ⟨hpos, hok⟩ := ThreadRegistry.check_bind_eq_ok.mp hok
      exact Or.inr (Or.inl ⟨rfl, by omega, (Except.ok.inj hok).symm⟩)
    · exact Or.inr (Or.inr ⟨owner, rfl, htid, (Except.ok.inj hok).symm⟩)

theorem Runs.mutexReadOrWriteUnlock (h : r.Runs t) {addr : ℕ}
    (hok : r.mutexReadOrWriteUnlock t addr = .ok r') : Syncs t r r' := by
  obtain ⟨v, -, hcases⟩ := mutexReadOrWriteUnlock_eq_ok hok
  have hvar := h.setVar addr (some v)
  obtain ⟨hinc, hready⟩ := (h.after hvar).incrementEpoch
  have hstep := hvar.trans hinc
  have hvar' := fun w => hstep.trans ((h.after hstep).setVar addr (some w))
  obtain ⟨-, rfl⟩ | ⟨-, -, rfl⟩ | ⟨-, -, rfl⟩ | ⟨owner, -, -, rfl⟩ := hcases
  · exact hstep.trans ((h.after hstep).releaseImpl hready _)
  · exact (hvar' _).trans ((h.after (hvar' _)).releaseStoreImpl (show Ready _ t from hready) _)
  · exact hvar' _
  · exact hvar

theorem Runs.freeVar (h : r.Runs t) (addr : ℕ) : Syncs t r (r.freeVar addr) := by
  unfold Rtl.freeVar
  split
  · exact h.same rfl rfl rfl id
  · exact (h.resetVar addr).trans ((h.after (h.resetVar addr)).setVar addr none)

theorem Runs.freeRange (h : r.Runs t) (addr size : ℕ) : Syncs t r (r.freeRange addr size) := by
  unfold Rtl.freeRange
  induction size with
  | zero => exact h.same rfl rfl rfl id
  | succ size ih =>
    rw [List.range_succ, List.foldl_append]
    exact ih.trans ((h.after ih).freeVar _)

theorem createThread_eq_ok {userId tid : ℕ} {detached : Bool}
    (hok : r.createThread t userId detached = .ok (tid, r')) :
    ∃ g, r.registry.createThread userId detached t = .ok (tid, g) ∧ r' = if tid = 0 then
      { r with registry := g } else ({ r with registry := g }.incrementEpoch t).releaseImpl t
      (threadSync tid) := by
  unfold Rtl.createThread at hok
  cases hc : r.registry.createThread userId detached t with
  | error e => simp [hc, bind, Except.bind] at hok
  | ok p =>
    obtain ⟨tid', g⟩ := p
    simp only [hc, bind, Except.bind] at hok
    split_ifs at hok with h0
    · cases hok
      exact ⟨g, rfl, by rw [if_pos h0]⟩
    · cases hok
      exact ⟨g, rfl, by rw [if_neg h0]⟩

theorem Runs.createThread (h : r.Runs t) {userId tid : ℕ} {detached : Bool}
    (hok : r.createThread t userId detached = .ok (tid, r')) : Syncs t r r' := by
  obtain ⟨g, hcreate, rfl⟩ := createThread_eq_ok hok
  have hg : Syncs t r { r with registry := g } := by
    refine h.same rfl rfl rfl fun hreg => hreg.step (c := .create userId detached t) ?_
    simp [ThreadRegistry.step, hcreate, bind, Except.bind, pure, Except.pure]
  split_ifs
  · exact hg
  · obtain ⟨hinc, hready⟩ := (h.after hg).incrementEpoch
    have hstep := hg.trans hinc
    exact hstep.trans ((h.after hstep).releaseImpl hready _)

/-- A thread that is not there is not joined. -/
theorem joinThread_eq_ok {tid : ℕ} (hok : r.joinThread t tid = .ok r') :
    ∃ g, r.registry.joinThread tid = .ok g ∧ ((r.registry.threads tid).status = .invalid ∧ r' = r ∨
      r' = ({ r with registry := g }.acquireImpl t (threadSync tid)).resetClock
      (threadSync tid)) := by
  unfold Rtl.joinThread at hok
  simp only [ThreadRegistry.check_bind_eq_ok] at hok
  obtain ⟨-, -, hok⟩ := hok
  obtain ⟨g, hg, hok⟩ := ThreadRegistry.bind_eq_ok.mp hok
  refine ⟨g, hg, ?_⟩
  split_ifs at hok with hs
  · exact Or.inl ⟨hs, (Except.ok.inj hok).symm⟩
  · exact Or.inr (Except.ok.inj hok).symm

theorem Runs.joinThread (h : r.Runs t) (hr : r.Ready t) {tid : ℕ}
    (hok : r.joinThread t tid = .ok r') : Syncs t r r' := by
  obtain ⟨g, hjoin, ⟨-, rfl⟩ | rfl⟩ := joinThread_eq_ok hok
  · exact h.same rfl rfl rfl id
  · have hg : Syncs t r { r with registry := g } :=
      h.same rfl rfl rfl fun hreg => hreg.step (c := .join tid) hjoin
    have hacq := hg.trans ((h.after hg).acquireImpl (show Ready _ t from hr) (threadSync tid)).1
    exact hacq.trans ((h.after hacq).resetClock _)

theorem detachThread_eq_ok {tid : ℕ} (hok : r.detachThread tid = .ok r') :
    r' = r ∨ ∃ g, r.registry.detachThread tid = .ok g ∧
      r' = { r with registry := g }.resetClock (threadSync tid) := by
  unfold Rtl.detachThread at hok
  simp only [ThreadRegistry.check_bind_eq_ok] at hok
  obtain ⟨-, -, hok⟩ := hok
  cases hd : r.registry.detachThread tid with
  | error e => simp [hd, bind, Except.bind] at hok
  | ok g =>
    simp only [hd, bind, Except.bind] at hok
    split_ifs at hok
    · exact Or.inl (Except.ok.inj hok).symm
    · exact Or.inr ⟨g, rfl, (Except.ok.inj hok).symm⟩

theorem Runs.detachThread (h : r.Runs t) {tid : ℕ} (hok : r.detachThread tid = .ok r') :
    Syncs t r r' := by
  obtain rfl | ⟨g, hdetach, rfl⟩ := detachThread_eq_ok hok
  · exact h.same rfl rfl rfl id
  · have hg : Syncs t r { r with registry := g } :=
      h.same rfl rfl rfl fun hreg => hreg.step (c := .detach tid) hdetach
    exact hg.trans ((h.after hg).resetClock _)

/-- A thread that starts acquires what its creator has seen. -/
theorem startThread_eq_ok (hok : r.startThread t = .ok r') :
    ∃ g r₁, r.registry.startThread t = .ok g ∧
      r₁ = { r with
        registry := g
        epoch := Function.update r.epoch t (roundUp (r.epoch1 t + 1) kTracePartSize)
        epoch1 := Function.update r.epoch1 t (2 ^ 64 - 1)
        ignoreSync := Function.update r.ignoreSync t 0
        printing := Function.update r.printing t .new } ∧
      r' = (r₁.acquireImpl t (threadSync t)).resetClock (threadSync t) := by
  unfold Rtl.startThread at hok
  obtain ⟨g, hstart, hok⟩ := ThreadRegistry.bind_eq_ok.mp hok
  exact ⟨g, _, hstart, rfl, (Except.ok.inj hok).symm⟩

/-- A thread that somebody may join releases what it has seen. -/
theorem finishThread_eq_ok (hok : r.finishThread t = .ok r') :
    ∃ g r₁, r.ignoreSync t = 0 ∧ r.registry.finishThread t = .ok g ∧
      r₁ = (if (r.registry.threads t).detached then r
        else (r.incrementEpoch t).releaseImpl t (threadSync t)) ∧
      r' = { r₁ with
        registry := g
        epoch1 := Function.update r₁.epoch1 t (r₁.epoch t) } := by
  unfold Rtl.finishThread at hok
  obtain ⟨hsync, hok⟩ := ThreadRegistry.check_bind_eq_ok.mp hok
  obtain ⟨g, hf, hok⟩ := ThreadRegistry.bind_eq_ok.mp hok
  exact ⟨g, _, hsync, hf, rfl, (Except.ok.inj hok).symm⟩

theorem Runs.finishThread (h : r.Runs t) (hok : r.finishThread t = .ok r') : Syncs t r r' := by
  obtain ⟨g, r₁, -, hfinish, rfl, rfl⟩ := finishThread_eq_ok hok
  obtain ⟨hinc, hready⟩ := h.incrementEpoch
  have hrelease : Syncs t r (if (r.registry.threads t).detached then r
      else (r.incrementEpoch t).releaseImpl t (threadSync t)) := by
    split_ifs
    · exact h.same rfl rfl rfl id
    · exact hinc.trans ((h.after hinc).releaseImpl hready _)
  refine hrelease.trans ((h.after hrelease).same rfl rfl rfl fun hreg => ?_)
  have hsame : (if (r.registry.threads t).detached then r
      else (r.incrementEpoch t).releaseImpl t (threadSync t)).registry = r.registry := by
    split_ifs
    · rfl
    · exact registry_clockOp _ _ _
  rw [hsame] at hreg
  exact hreg.step (c := .finish t) hfinish

end Rtl

namespace RtlStep

/-- The step acquires for its thread, or one that it leads to. -/
def needsReady : RtlStep → Bool
  | .acquire _ => true
  | .joinThread _ => true
  | .consumeTid _ _ => true
  | _ => false

def readies : RtlStep → Bool
  | .incrementEpoch => true
  | _ => false

/-- What the step prints. -/
def line : RtlStep → Option Line
  | .print line => some line
  | _ => none

/-- Nothing is printed yet, and what acquires comes right after the thread has moved on. -/
def Safe : Bool → List RtlStep → Prop
  | _, [] => True
  | b, p :: rest => (p.needsReady = true → b = true) ∧ p.line = none ∧ Safe p.readies rest

/-- The step may stand anywhere. -/
def Plain (p : RtlStep) : Prop := p.needsReady = false ∧ p.line = none

theorem Safe.mono {steps : List RtlStep} (h : Safe false steps) (b : Bool) : Safe b steps := by
  cases steps with
  | nil => trivial
  | cons p rest => exact ⟨fun hp => absurd (h.1 hp) Bool.false_ne_true, h.2⟩

theorem Safe.plain_append {steps rest : List RtlStep} (h : ∀ p ∈ steps, p.Plain)
    (hrest : Safe false rest) (b : Bool) : Safe b (steps ++ rest) := by
  induction steps generalizing b with
  | nil => exact hrest.mono b
  | cons p steps ih =>
    obtain ⟨hneeds, hline⟩ := h p List.mem_cons_self
    exact ⟨fun hp => by simp [hneeds] at hp, hline,
      ih (fun q hq => h q (List.mem_cons_of_mem p hq)) _⟩

theorem Safe.of_plain {steps : List RtlStep} (h : ∀ p ∈ steps, p.Plain) (b : Bool) :
    Safe b steps := by
  have hnil : Safe false [] := trivial
  have hsafe := Safe.plain_append h hnil b
  rwa [List.append_nil] at hsafe

end RtlStep

theorem Site.plain_memoryAccess (s : Site) (p : CellPart) (isWrite isAtomic isNonTemporal : Bool) :
    ∀ q ∈ s.memoryAccess p isWrite isAtomic isNonTemporal, q.Plain := by
  unfold Site.memoryAccess
  split_ifs <;> simp [RtlStep.Plain, RtlStep.needsReady, RtlStep.line]

theorem Site.plain_mutexAccess (s : Site) (addr : ℕ) (isWrite isAtomic : Bool) :
    ∀ q ∈ s.mutexAccess addr isWrite isAtomic, q.Plain := by
  unfold Site.mutexAccess
  split_ifs
  · exact s.plain_memoryAccess _ _ _ _
  · simp

theorem plain_rangeSteps (ignored : Bool) (site : CellPart → Site) (addr size : ℕ)
    (h : addr + size ≤ 2 ^ 64) (isWrite : Bool) : ∀ q ∈ rangeSteps ignored site addr size h isWrite,
    q.Plain := by
  unfold rangeSteps
  split_ifs
  · simp
  · intro q hq
    rcases List.mem_cons.mp hq with rfl | hq
    · exact ⟨rfl, rfl⟩
    · obtain ⟨p, -, hq⟩ := List.mem_flatMap.mp hq
      unfold Site.rangeAccess at hq
      split_ifs at hq
      · cases hq
      · rw [List.mem_singleton.mp hq]
        exact ⟨rfl, rfl⟩

namespace Interceptor

theorem plain_lockSteps (addr flagz depth : ℕ) (ownerDied : Bool) (s : Site) :
    ∀ q ∈ lockSteps addr flagz depth ownerDied s, q.Plain := by
  refine List.forall_mem_append.mpr ⟨List.forall_mem_append.mpr ⟨?_, s.plain_mutexAccess _ _ _⟩, ?_⟩
  · split_ifs <;> simp [RtlStep.Plain, RtlStep.needsReady, RtlStep.line]
  · exact List.forall_mem_singleton.mpr ⟨rfl, rfl⟩

/-- Only three interceptors acquire with a step that does not move on itself. -/
theorem plain_steps (i : Interceptor) : (∀ q ∈ i.steps, q.Plain) ∨ ∃ q, i.steps = [q] ∧
    q.line = none := by
  have haccess : ∀ (s : Site) (addr : ℕ) (isWrite isAtomic : Bool) (q : RtlStep), q.Plain →
      ∀ p ∈ s.mutexAccess addr isWrite isAtomic ++ [q], p.Plain :=
      fun s addr isWrite isAtomic q hq =>
    List.forall_mem_append.mpr ⟨s.plain_mutexAccess _ _ _, List.forall_mem_singleton.mpr hq⟩
  cases i with
  | mutexInit addr flagz s =>
    refine Or.inl (List.forall_mem_append.mpr ⟨?_, List.forall_mem_singleton.mpr ⟨rfl, rfl⟩⟩)
    split_ifs
    · exact s.plain_mutexAccess _ _ _
    · simp
  | mutexDestroy addr flagz s => exact Or.inl (List.forall_mem_singleton.mpr ⟨rfl, rfl⟩)
  | mutexLock addr flagz depth ownerDied s => exact Or.inl (plain_lockSteps _ _ _ _ _)
  | mutexUnlock addr flagz s => exact Or.inl (haccess _ _ _ _ _ ⟨rfl, rfl⟩)
  | readLock addr flagz s => exact Or.inl (haccess _ _ _ _ _ ⟨rfl, rfl⟩)
  | readUnlock addr s => exact Or.inl (haccess _ _ _ _ _ ⟨rfl, rfl⟩)
  | rwlockUnlock addr s => exact Or.inl (haccess _ _ _ _ _ ⟨rfl, rfl⟩)
  | condWait cond addr h ignored ownerDied site s s' =>
    refine Or.inl (List.forall_mem_append.mpr
      ⟨List.forall_mem_append.mpr ⟨plain_rangeSteps _ _ _ _ _ _, ?_⟩,
        plain_lockSteps _ _ _ _ _⟩)
    exact haccess _ _ _ _ _ ⟨rfl, rfl⟩
  | guardAcquire addr => exact Or.inr ⟨_, rfl, rfl⟩
  | guardRelease addr => exact Or.inl (List.forall_mem_singleton.mpr ⟨rfl, rfl⟩)
  | malloc ignored =>
    refine Or.inl ?_
    cases ignored with
    | true => exact List.forall_mem_nil _
    | false => exact List.forall_mem_singleton.mpr ⟨rfl, rfl⟩
  | free addr size h ignored site =>
    refine Or.inl (List.forall_mem_cons.mpr ⟨⟨rfl, rfl⟩, ?_⟩)
    split_ifs
    · simp
    · exact List.forall_mem_append.mpr
        ⟨plain_rangeSteps _ _ _ _ _ _, List.forall_mem_singleton.mpr ⟨rfl, rfl⟩⟩
  | pthreadCreate userId detached => exact Or.inl (List.forall_mem_singleton.mpr ⟨rfl, rfl⟩)
  | pthreadJoin userId => exact Or.inr ⟨_, rfl, rfl⟩
  | pthreadDetach userId => exact Or.inr ⟨_, rfl, rfl⟩
  | ignoreSyncBegin => exact Or.inl (List.forall_mem_singleton.mpr ⟨rfl, rfl⟩)
  | ignoreSyncEnd => exact Or.inl (List.forall_mem_singleton.mpr ⟨rfl, rfl⟩)

theorem safe_steps (i : Interceptor) {rest : List RtlStep} (hrest : RtlStep.Safe false rest) :
    RtlStep.Safe true (i.steps ++ rest) := by
  rcases i.plain_steps with h | ⟨q, h, hline⟩
  · exact .plain_append h hrest true
  · rw [h]
    exact ⟨fun _ => rfl, hline, hrest.mono _⟩

end Interceptor

namespace RtlCall

theorem safe_inScope {steps : List RtlStep}
    (h : RtlStep.Safe true (steps ++ [.incrementEpoch])) : RtlStep.Safe false (inScope steps) :=
  ⟨fun hp => absurd hp Bool.false_ne_true, rfl, h⟩

/-- What a call does is safe. -/
theorem safe_steps {ignoreSync : Bool} {c : RtlCall} {steps : List RtlStep}
    (h : c.steps ignoreSync = .ok steps) : RtlStep.Safe false steps := by
  have hinc : ∀ b, RtlStep.Safe b [.incrementEpoch] := fun b =>
    ⟨fun hp => absurd hp Bool.false_ne_true, rfl, trivial⟩
  cases c with
  | funcEntry =>
    cases h
    exact hinc false
  | funcExit =>
    cases h
    exact hinc false
  | memoryAccess s p isWrite isNonTemporal =>
    cases h
    exact .of_plain (s.plain_memoryAccess _ _ _ _) false
  | unalignedAccess site addr size hsize isWrite =>
    cases h
    refine .of_plain (fun q hq => ?_) false
    obtain ⟨p, -, hq⟩ := List.mem_flatMap.mp hq
    exact (site p).plain_memoryAccess _ _ _ _ q hq
  | memoryAccessRange ignored site addr size hsize isWrite =>
    cases h
    exact .of_plain (plain_rangeSteps _ _ _ _ _ _) false
  | flush addr haddr =>
    cases h
    exact .of_plain (List.forall_mem_singleton.mpr ⟨rfl, rfl⟩) false
  | fence pc hpc =>
    cases h
    exact .of_plain (List.forall_mem_singleton.mpr ⟨rfl, rfl⟩) false
  | atomicLoad s p mo =>
    unfold RtlCall.steps at h
    split_ifs at h
    · cases h
      trivial
    · obtain ⟨-, h⟩ := ThreadRegistry.check_bind_eq_ok.mp h
      cases h
      refine safe_inScope ?_
      rw [List.append_assoc]
      have hrest :=
        fun b => RtlStep.Safe.plain_append (s.plain_memoryAccess p false true false) (hinc false) b
      split_ifs
      · exact ⟨fun _ => rfl, rfl, hrest _⟩
      · exact hrest _
  | atomicStore s p mo =>
    unfold RtlCall.steps at h
    split_ifs at h
    · cases h
      trivial
    · obtain ⟨-, h⟩ := ThreadRegistry.check_bind_eq_ok.mp h
      cases h
      refine safe_inScope
        (.plain_append (List.forall_mem_append.mpr ⟨s.plain_memoryAccess _ _ _ _, ?_⟩)
        (hinc false) true)
      split_ifs <;> simp [RtlStep.Plain, RtlStep.needsReady, RtlStep.line]
  | atomicRMW s p mo =>
    unfold RtlCall.steps at h
    split_ifs at h
    · cases h
      trivial
    · cases h
      refine safe_inScope
        (.plain_append (List.forall_mem_append.mpr ⟨s.plain_memoryAccess _ _ _ _, ?_⟩)
        (hinc false) true)
      split_ifs <;> simp [RtlStep.Plain, RtlStep.needsReady, RtlStep.line]
  | intercepted i =>
    cases h
    exact safe_inScope (i.safe_steps (hinc false))

end RtlCall

namespace Rtl

variable {r r' : Rtl} {t : ℕ} {b : Bool} {p : RtlStep} {rest more : List RtlStep}

/-- A step that prints nothing uses the clocks as they have to be used, and so does the rest. -/
theorem Runs.exec (h : r.Runs t) (hsafe : RtlStep.Safe b (p :: rest)) (hb : b = true → r.Ready t)
    (hhook : ∀ op fits, p ≠ .hook op fits) (hexec : r.exec t p = .ok (r', more)) :
    Syncs t r r' ∧ ∃ b', (b' = true → r'.Ready t) ∧ RtlStep.Safe b' (more ++ rest) := by
  obtain ⟨hneeds, hline, hrest⟩ := hsafe
  -- Most steps lead to no other, and nothing after them relies on them.
  have hend : Syncs t r r' → p.readies = false → more = [] → Syncs t r r' ∧
      ∃ b', (b' = true → r'.Ready t) ∧ RtlStep.Safe b' (more ++ rest) := by
    rintro hs hp rfl
    rw [hp] at hrest
    exact ⟨hs, false, fun hf => absurd hf Bool.false_ne_true, hrest⟩
  cases p with
  | incrementEpoch =>
    cases hexec
    exact ⟨h.incrementEpoch.1, true, fun _ => h.incrementEpoch.2, hrest⟩
  | hook op fits => exact absurd rfl (hhook op fits)
  | print line => cases hline
  | acquire addr =>
    simp only [Rtl.exec] at hexec
    split at hexec
    · cases hexec
      exact hend (h.same rfl rfl rfl id) rfl rfl
    · cases hexec
      exact hend (h.acquireImpl (hb (hneeds rfl)) _).1 rfl rfl
  | release addr =>
    have hvar := h.setVar addr (some (r.getOrCreate addr))
    obtain ⟨hinc, hready⟩ := (h.after hvar).incrementEpoch
    have hstep := hvar.trans hinc
    unfold Rtl.exec at hexec
    split_ifs at hexec
    · cases hexec
      exact hend (h.same rfl rfl rfl id) rfl rfl
    · cases hexec
      exact hend (hstep.trans ((h.after hstep).releaseImpl hready _)) rfl rfl
  | releaseStore addr =>
    have hvar := h.setVar addr (some (r.getOrCreate addr))
    obtain ⟨hinc, hready⟩ := (h.after hvar).incrementEpoch
    have hstep := hvar.trans hinc
    unfold Rtl.exec at hexec
    split_ifs at hexec
    · cases hexec
      exact hend (h.same rfl rfl rfl id) rfl rfl
    · cases hexec
      exact hend (hstep.trans ((h.after hstep).releaseStoreImpl hready _)) rfl rfl
  | atomicRMW addr mo =>
    cases hexec
    exact hend (h.atomicRMW addr mo) rfl rfl
  | mutexCreate addr flagz =>
    cases hexec
    exact hend (h.setVar addr _) rfl rfl
  | mutexDestroy addr flagz s =>
    cases hexec
    refine ⟨h.mutexDestroy addr flagz, false, fun hf => absurd hf Bool.false_ne_true, ?_⟩
    refine .plain_append ?_ hrest false
    split_ifs
    · exact s.plain_mutexAccess _ _ _
    · simp
  | mutexPostLock addr flagz depth =>
    obtain ⟨r₁, hl, hexec⟩ := ThreadRegistry.bind_eq_ok.mp hexec
    cases hexec
    exact hend (h.mutexPostLock hl) rfl rfl
  | mutexUnlock addr flagz =>
    cases hexec
    exact hend (h.mutexUnlock addr flagz) rfl rfl
  | mutexPostReadLock addr flagz =>
    cases hexec
    exact hend (h.mutexPostReadLock addr flagz) rfl rfl
  | mutexReadUnlock addr =>
    cases hexec
    exact hend (h.mutexReadUnlock addr) rfl rfl
  | mutexReadOrWriteUnlock addr =>
    obtain ⟨r₁, hl, hexec⟩ := ThreadRegistry.bind_eq_ok.mp hexec
    cases hexec
    exact hend (h.mutexReadOrWriteUnlock hl) rfl rfl
  | mutexRepair addr =>
    cases hexec
    exact hend (h.setVar addr _) rfl rfl
  | freeRange addr size =>
    cases hexec
    exact hend (h.freeRange addr size) rfl rfl
  | createThread userId detached =>
    obtain ⟨⟨tid, r₁⟩, hl, hexec⟩ := ThreadRegistry.bind_eq_ok.mp hexec
    obtain ⟨-, hexec⟩ := ThreadRegistry.check_bind_eq_ok.mp hexec
    cases hexec
    refine ⟨h.createThread hl, false, fun hf => absurd hf Bool.false_ne_true, ?_⟩
    exact .plain_append (List.forall_mem_singleton.mpr ⟨rfl, rfl⟩) hrest false
  | waitStarted tid =>
    simp only [Rtl.exec] at hexec
    split at hexec
    · cases hexec
    · cases hexec
      exact hend (h.same rfl rfl rfl id) rfl rfl
  | consumeTid userId detach =>
    cases hl : r.registry.consumeTid userId with
    | error e => simp [Rtl.exec, hl, bind, Except.bind] at hexec
    | ok q =>
      obtain ⟨found, g⟩ := q
      cases found with
      | none => simp [Rtl.exec, hl, bind, Except.bind] at hexec
      | some tid =>
        simp only [Rtl.exec, hl, bind, Except.bind, pure, Except.pure] at hexec
        cases hexec
        refine ⟨h.same rfl rfl rfl fun hreg => hreg.step (c := .consume userId) ?_, true,
          fun _ => ?_, ?_⟩
        · simp [ThreadRegistry.step, hl, bind, Except.bind, pure, Except.pure]
        · exact hb (hneeds rfl)
        · cases detach with
          | true => exact ⟨fun _ => rfl, rfl, hrest.mono _⟩
          | false => exact ⟨fun _ => rfl, rfl, hrest.mono _⟩
  | joinThread tid =>
    obtain ⟨r₁, hl, hexec⟩ := ThreadRegistry.bind_eq_ok.mp hexec
    cases hexec
    exact hend (h.joinThread (hb (hneeds rfl)) hl) rfl rfl
  | detachThread tid =>
    obtain ⟨r₁, hl, hexec⟩ := ThreadRegistry.bind_eq_ok.mp hexec
    cases hexec
    exact hend (h.detachThread hl) rfl rfl
  | ignoreSyncBegin =>
    cases hexec
    exact hend (h.same rfl rfl rfl id) rfl rfl
  | ignoreSyncEnd =>
    unfold Rtl.exec at hexec
    obtain ⟨-, hexec⟩ := ThreadRegistry.check_bind_eq_ok.mp hexec
    cases hexec
    exact hend (h.same rfl rfl rfl id) rfl rfl

end Rtl

namespace PrintingThread

variable {t : ℕ} {done lines : List Line} {s s' : PrintingThread} {op : ThreadOp}
    {ops : List ThreadOp}

/-- The lines of a step are the lines of the thread, and its accesses stay in
a line of the cache. -/
theorem step_lines (h : s.step t op = some (lines, s')) (hfits : op.FitsCell) {l : Line}
    (hl : l ∈ lines) : l.tid = t ∧ ∀ a, l = .access a → a.InLine := by
  cases op with
  | access regions a table labelContent labelAddress =>
    have hline : ∀ eventId b, Line.access (line a t eventId) = .access b → b.InLine := by
      intro eventId b hb
      cases hb
      have hcell : a.addr % 8 + 2 ^ a.accessSizeLog ≤ 8 := hfits
      refine ⟨a.addr_lt, ?_⟩
      change a.addr % 64 + 2 ^ a.accessSizeLog ≤ 64
      omega
    unfold PrintingThread.step instrumentMemoryAccess at h
    dsimp only at h
    split_ifs at h
    · cases h
      rcases List.mem_cons.mp hl with rfl | hl
      · exact ⟨rfl, hline _⟩
      · obtain ⟨p, hp, rfl⟩ := List.mem_map.mp hl
        obtain ⟨q, -, rfl⟩ := (dfProcessWrite_spec rfl).1 p hp
        exact ⟨rfl, fun b hb => nomatch hb⟩
    · obtain ⟨⟨dataFlow, table'⟩, -, h⟩ := Option.bind_eq_some_iff.mp h
      cases h
      rw [List.mem_singleton.mp hl]
      exact ⟨rfl, hline _⟩
    · cases h
      cases hl
  | flush addr haddr =>
    cases h
    cases hl
  | fence pc hpc =>
    cases h
    obtain ⟨addr, -, rfl⟩ := List.mem_map.mp hl
    exact ⟨rfl, fun b hb => nomatch hb⟩

/-- What a thread has done, what it prints for it, and its state then. -/
inductive Ran (t : ℕ) : List ThreadOp → List Line → PrintingThread → Prop
  | new : Ran t [] [] .new
  | step {ops lines s op more s'} (h : Ran t ops lines s) (hfits : op.FitsCell)
    (hstep : s.step t op = some (more, s')) : Ran t (ops ++ [op]) (lines ++ more) s'

theorem Ran.of_mem (h : Ran t ops lines s) {l : Line} (hl : l ∈ lines) :
    l.tid = t ∧ ∀ a, l = .access a → a.InLine := by
  induction h with
  | new => cases hl
  | step h hfits hstep ih =>
    rcases List.mem_append.mp hl with hl | hl
    · exact ih hl
    · exact step_lines hstep hfits hl

theorem Ran.run_append (h : Ran t ops lines s) (more : List ThreadOp) :
    PrintingThread.run t .new (ops ++ more) = (PrintingThread.run t s more).map (lines ++ ·) := by
  induction h generalizing more with
  | new => simp
  | @step ops lines s op first s' h hfits hstep ih =>
    rw [List.append_assoc, ih]
    simp only [List.singleton_append, PrintingThread.run, hstep, bind, Option.bind, pure]
    cases PrintingThread.run t s' more <;> simp

theorem Ran.run (h : Ran t ops lines s) : PrintingThread.run t .new ops = some lines := by
  have hrun := h.run_append []
  simpa [PrintingThread.run] using hrun

end PrintingThread

theorem ClockOp.thread_of_line {op : ClockOp} {line : Line} (h : op.line = some line) :
    op.thread = some line.tid := by
  cases op with
  | print l =>
    cases h
    rfl
  | _ => cases h

namespace Rtl

variable {r r' : Rtl} {t u n : ℕ} {todo : List RtlStep}

/-- Only the thread does something. -/
structure Others (t : ℕ) (r r' : Rtl) : Prop where
  epoch : ∀ u, u ≠ t → r'.epoch u = r.epoch u
  printing : ∀ u, u ≠ t → r'.printing u = r.printing u
  ops : ∃ more, r'.ops = r.ops ++ more ∧ ∀ op ∈ more, op.thread = none ∨ op.thread = some t

theorem Syncs.others (h : Syncs t r r') : Others t r r' where
  epoch := h.epoch_of_ne
  printing := fun u _ => congrFun h.printing u
  ops := by
    obtain ⟨more, hmore, hall⟩ := h.ops
    exact ⟨more, hmore, fun op hop => (hall op hop).2⟩

theorem Others.trans {r'' : Rtl} (h : Others t r r') (h' : Others t r' r'') : Others t r r'' where
  epoch := fun u hu => (h'.epoch u hu).trans (h.epoch u hu)
  printing := fun u hu => (h'.printing u hu).trans (h.printing u hu)
  ops := by
    obtain ⟨more, hmore, hall⟩ := h.ops
    obtain ⟨more', hmore', hall'⟩ := h'.ops
    refine ⟨more ++ more', by rw [hmore', hmore, List.append_assoc], fun op hop => ?_⟩
    rcases List.mem_append.mp hop with hop | hop
    · exact hall op hop
    · exact hall' op hop

/-- The lines that a thread is about to print, and the steps that come after them. -/
structure Expects (r : Rtl) (t n : ℕ) (todo : List RtlStep) (lines : List Line)
    (rest : List RtlStep) (b : Bool) (ops : List ThreadOp) : Prop where
  todo_eq : todo = lines.map .print ++ rest
  safe : RtlStep.Safe b rest
  ready : b = true → lines = [] ∧ r.Ready t
  length_le : ops.length ≤ n
  ran : PrintingThread.Ran t ops (printedBy t (r.ops.filterMap ClockOp.line) ++ lines)
    (r.printing t)

/-- What a thread has still to do fits what it has done. -/
def OnTrack (r : Rtl) (t n : ℕ) (todo : List RtlStep) : Prop :=
  ∃ lines rest b ops, r.Expects t n todo lines rest b ops

theorem printedBy_append (ops : List ClockOp) {more : List ClockOp}
    (hmore : ∀ op ∈ more, op.thread ≠ some u) : printedBy u
    ((ops ++ more).filterMap ClockOp.line) = printedBy u (ops.filterMap ClockOp.line) := by
  have hnone : (more.filterMap ClockOp.line).filter (·.tid = u) = [] := by
    refine List.filter_eq_nil_iff.mpr fun l hl => ?_
    obtain ⟨op, hop, hline⟩ := List.mem_filterMap.mp hl
    have hthread := ClockOp.thread_of_line hline
    intro htid
    rw [decide_eq_true_eq] at htid
    exact hmore op hop (htid ▸ hthread)
  rw [printedBy, List.filterMap_append, List.filter_append, hnone, List.append_nil]
  rfl

/-- A step that prints nothing. -/
theorem Syncs.ran (h : Syncs t r r') {ops : List ThreadOp} {lines : List Line}
    (hran : PrintingThread.Ran t ops (printedBy t (r.ops.filterMap ClockOp.line) ++ lines)
      (r.printing t)) :
    PrintingThread.Ran t ops (printedBy t (r'.ops.filterMap ClockOp.line) ++ lines)
    (r'.printing t) := by
  obtain ⟨more, hmore, hall⟩ := h.ops
  have hnil : more.filterMap ClockOp.line = [] :=
    List.filterMap_eq_nil_iff.mpr fun op hop => (hall op hop).1
  rw [hmore, List.filterMap_append, hnil, List.append_nil, congrFun h.printing t]
  exact hran

theorem OnTrack.frame (h : r.OnTrack u n todo) (ho : Others t r r') (hu : u ≠ t) :
    r'.OnTrack u (n + 1) todo := by
  obtain ⟨lines, rest, b, ops, h⟩ := h
  obtain ⟨more, hmore, hall⟩ := ho.ops
  have hne : ∀ op ∈ more, op.thread ≠ some u := by
    intro op hop hthread
    rcases hall op hop with hnone | hsome
    · exact nomatch hnone.symm.trans hthread
    · exact hu (Option.some.inj (hthread.symm.trans hsome))
  refine ⟨lines, rest, b, ops, h.todo_eq, h.safe, fun hb => ⟨(h.ready hb).1, ?_⟩,
    h.length_le.trans n.le_succ, ?_⟩
  · unfold Rtl.Ready
    rw [hmore]
    exact (h.ready hb).2.frame (ho.epoch u hu) hne
  · rw [hmore, printedBy_append _ hne, ho.printing u hu]
    exact h.ran

end Rtl

namespace Sys

variable {s s' : Sys} {acts : List Act} {a : Act} {t : ℕ}

/-- What holds of the system in every run. -/
structure Kept (acts : List Act) (s : Sys) : Prop where
  registry : s.rtl.registry.OfRuntime
  clocked : Clocked s.rtl.epoch s.rtl.ops
  quiet : ∀ t, t ∉ acts.filterMap Act.started → ∀ op ∈ s.rtl.ops, op.thread ≠ some t
  live : ∀ t, s.live t = true → t < kMaxTid ∧ 0 < s.rtl.epoch t ∧ t ∈ acts.filterMap Act.started
  idle : ∀ t, s.live t = false → s.todo t = []
  onTrack : ∀ t, s.rtl.OnTrack t acts.length (s.todo t)

theorem Kept.runs (h : Kept acts s) (ht : s.live t = true) : s.rtl.Runs t :=
  ⟨h.clocked, (h.live t ht).1, (h.live t ht).2.1⟩

/-- One thread does something. -/
theorem Kept.act (h : Kept acts s) (ht : t ∈ (acts ++ [a]).filterMap Act.started)
    (ho : Rtl.Others t s.rtl s'.rtl) (hregistry : s'.rtl.registry.OfRuntime)
    (hclocked : Clocked s'.rtl.epoch s'.rtl.ops) (htodo : ∀ u, u ≠ t → s'.todo u = s.todo u)
    (hlive : ∀ u, u ≠ t → s'.live u = s.live u)
    (ht' : s'.live t = true → t < kMaxTid ∧ 0 < s'.rtl.epoch t)
    (hidle : s'.live t = false → s'.todo t = [])
    (honTrack : s'.rtl.OnTrack t (acts.length + 1) (s'.todo t)) : Kept (acts ++ [a]) s' := by
  have hsub : ∀ u, u ∈ acts.filterMap Act.started → u ∈ (acts ++ [a]).filterMap Act.started := by
    intro u hu
    rw [List.filterMap_append]
    exact List.mem_append_left _ hu
  obtain ⟨more, hmore, hall⟩ := ho.ops
  constructor
  · exact hregistry
  · exact hclocked
  · intro u hu op hop
    rw [hmore] at hop
    rcases List.mem_append.mp hop with hop | hop
    · exact h.quiet u (fun hmem => hu (hsub u hmem)) op hop
    · rcases hall op hop with hnone | hsome
      · rw [hnone]
        exact fun hf => nomatch hf
      · rw [hsome]
        rintro hf
        cases hf
        exact hu ht
  · intro u hu
    by_cases hut : u = t
    · subst hut
      exact ⟨(ht' hu).1, (ht' hu).2, ht⟩
    · obtain ⟨hlt, hpos, hmem⟩ := h.live u (hlive u hut ▸ hu)
      exact ⟨hlt, ho.epoch u hut ▸ hpos, hsub u hmem⟩
  · intro u hu
    by_cases hut : u = t
    · subst hut
      exact hidle hu
    · rw [htodo u hut]
      exact h.idle u (hlive u hut ▸ hu)
  · intro u
    rw [List.length_append, List.length_singleton]
    by_cases hut : u = t
    · subst hut
      exact honTrack
    · rw [htodo u hut]
      exact (h.onTrack u).frame ho hut

theorem start_eq_ok (hstep : s.step (.start t) = .ok s') : ∃ r, s.rtl.startThread t = .ok r ∧
    s' = { s with
      rtl := r
      live := Function.update s.live t true } := by
  obtain ⟨r, hstart, hstep⟩ := ThreadRegistry.bind_eq_ok.mp hstep
  exact ⟨r, hstart, (Except.ok.inj hstep).symm⟩

theorem call_eq_ok {c : RtlCall} (hstep : s.step (.call t c) = .ok s') :
    s.live t = true ∧ s.todo t = [] ∧ ∃ steps, c.steps (0 < s.rtl.ignoreSync t) = .ok steps ∧
      s' = { s with todo := Function.update s.todo t steps } := by
  simp only [Sys.step] at hstep
  split_ifs at hstep with hcan
  refine ⟨hcan.1, List.isEmpty_iff.mp hcan.2, ?_⟩
  obtain ⟨steps, hsteps, hstep⟩ := ThreadRegistry.bind_eq_ok.mp hstep
  exact ⟨steps, hsteps, (Except.ok.inj hstep).symm⟩

theorem go_eq_ok (hstep : s.step (.go t) = .ok s') : ∃ p rest r more, s.todo t = p :: rest ∧
    s.rtl.exec t p = .ok (r, more) ∧ s' = { s with
      rtl := r
      todo := Function.update s.todo t (more ++ rest) } := by
  simp only [Sys.step] at hstep
  cases htodo : s.todo t with
  | nil => simp [htodo] at hstep
  | cons p rest =>
    rw [htodo] at hstep
    obtain ⟨q, hexec, hstep⟩ := ThreadRegistry.bind_eq_ok.mp hstep
    exact ⟨p, rest, q.1, q.2, rfl, hexec, (Except.ok.inj hstep).symm⟩

theorem finish_eq_ok (hstep : s.step (.finish t) = .ok s') :
    s.live t = true ∧ s.todo t = [] ∧ ∃ r, s.rtl.finishThread t = .ok r ∧
      s' = { s with
        rtl := r
        live := Function.update s.live t false } := by
  simp only [Sys.step] at hstep
  split_ifs at hstep with hcan
  refine ⟨hcan.1, List.isEmpty_iff.mp hcan.2, ?_⟩
  obtain ⟨r, hfinish, hstep⟩ := ThreadRegistry.bind_eq_ok.mp hstep
  exact ⟨r, hfinish, (Except.ok.inj hstep).symm⟩

theorem Kept.mem_started (h : Kept acts s) (ht : s.live t = true) (a : Act) :
    t ∈ (acts ++ [a]).filterMap Act.started := by
  rw [List.filterMap_append]
  exact List.mem_append_left _ (h.live t ht).2.2

theorem Kept.call (h : Kept acts s) {c : RtlCall} (hstep : s.step (.call t c) = .ok s') :
    Kept (acts ++ [.call t c]) s' := by
  obtain ⟨hlive, hnil, steps, hsteps, rfl⟩ := call_eq_ok hstep
  obtain ⟨hlt, hpos, -⟩ := h.live t hlive
  refine h.act (h.mem_started hlive _) ⟨fun u _ => rfl, fun u _ => rfl, [], by simp, by simp⟩
    h.registry h.clocked (fun u hu => Function.update_of_ne hu _ _) (fun u _ => rfl)
    (fun _ => ⟨hlt, hpos⟩)
    (fun hdead => nomatch hlive.symm.trans hdead) ?_
  obtain ⟨lines, rest, b, ops, hold⟩ := h.onTrack t
  have htodo := hold.todo_eq
  rw [hnil] at htodo
  obtain rfl := List.map_eq_nil_iff.mp (List.append_eq_nil_iff.mp htodo.symm).1
  exact ⟨[], steps, false,
    ops, by simp, RtlCall.safe_steps hsteps, fun hf => absurd hf Bool.false_ne_true,
    hold.length_le.trans (Nat.le_succ _), hold.ran⟩

theorem Kept.finish (h : Kept acts s) (hstep : s.step (.finish t) = .ok s') :
    Kept (acts ++ [.finish t]) s' := by
  obtain ⟨hlive, hnil, r, hfinish, rfl⟩ := finish_eq_ok hstep
  have hs := (h.runs hlive).finishThread hfinish
  obtain ⟨hlt, hpos, -⟩ := h.live t hlive
  refine h.act (h.mem_started hlive _) hs.others (hs.registry h.registry) hs.clocked
    (fun u _ => rfl) (fun u hu => Function.update_of_ne hu _ _)
    (fun _ => ⟨hlt, hpos.trans_le hs.epoch_le⟩) (fun _ => hnil) ?_
  obtain ⟨lines, rest, b, ops, hold⟩ := h.onTrack t
  have htodo := hold.todo_eq
  rw [hnil] at htodo
  obtain rfl := List.map_eq_nil_iff.mp (List.append_eq_nil_iff.mp htodo.symm).1
  exact ⟨[], [], false, ops, hnil, trivial, fun hf => absurd hf Bool.false_ne_true,
    hold.length_le.trans (Nat.le_succ _), hs.ran hold.ran⟩

/-- A line that is about to be printed is printed. -/
theorem Kept.go_print (h : Kept acts s) (hlive : s.live t = true) {l : Line} {lines : List Line}
    {rest : List RtlStep} {b : Bool} {ops : List ThreadOp}
    (hold : s.rtl.Expects t acts.length (s.todo t) (l :: lines) rest b ops) :
    Kept (acts ++ [.go t]) { s with
      rtl := { s.rtl with ops := s.rtl.ops ++ [.print l] }
      todo := Function.update s.todo t (lines.map .print ++ rest) } := by
  obtain ⟨hlt, hpos, -⟩ := h.live t hlive
  have htid : l.tid = t := (hold.ran.of_mem (by simp)).1
  refine h.act (h.mem_started hlive _) ⟨fun u _ => rfl, fun u _ => rfl, [.print l], rfl, ?_⟩
    h.registry (h.clocked.print (htid ▸ hlt)) (fun u hu => Function.update_of_ne hu _ _)
    (fun u _ => rfl)
    (fun _ => ⟨hlt, hpos⟩) (fun hdead => nomatch hlive.symm.trans hdead) ?_
  · intro op hop
    rw [List.mem_singleton.mp hop]
    exact Or.inr (congrArg some htid)
  · refine ⟨lines, rest, false, ops, Function.update_self _ _ _, ?_,
      fun hf => absurd hf Bool.false_ne_true, hold.length_le.trans (Nat.le_succ _), ?_⟩
    · cases b with
      | false => exact hold.safe
      | true => exact nomatch (hold.ready rfl).1
    · have hprinted : printedBy t ((s.rtl.ops ++ [ClockOp.print l]).filterMap ClockOp.line) ++
          lines = printedBy t (s.rtl.ops.filterMap ClockOp.line) ++ l :: lines := by
        simp [printedBy, ClockOp.line, htid]
      change PrintingThread.Ran t ops
        (printedBy t ((s.rtl.ops ++ [ClockOp.print l]).filterMap ClockOp.line) ++ lines) _
      rw [hprinted]
      exact hold.ran

/-- An access, a flush or a fence leaves its lines to be printed. -/
theorem Kept.go_hook (h : Kept acts s) (hlive : s.live t = true) {op : ThreadOp}
    {fits : op.FitsCell} {lines : List Line} {rest : List RtlStep} {b : Bool} {ops : List ThreadOp}
    {r : Rtl}
    (hold : s.rtl.Expects t acts.length (s.todo t) [] (.hook op fits :: rest) b ops)
    (hhook : s.rtl.hook t op = .ok (r, lines)) : Kept (acts ++ [.go t]) { s with
      rtl := r
      todo := Function.update s.todo t (lines.map .print ++ rest) } := by
  obtain ⟨hlt, hpos, -⟩ := h.live t hlive
  unfold Rtl.hook at hhook
  cases hp : (s.rtl.printing t).step t op with
  | none => simp [hp] at hhook
  | some q =>
    obtain ⟨lines', p⟩ := q
    simp only [hp] at hhook
    cases hhook
    refine h.act (h.mem_started hlive _)
      ⟨fun u _ => rfl, fun u hu => Function.update_of_ne hu _ _, [], by simp, by simp⟩ h.registry
      h.clocked
      (fun u hu => Function.update_of_ne hu _ _) (fun u _ => rfl) (fun _ => ⟨hlt, hpos⟩)
      (fun hdead => nomatch hlive.symm.trans hdead) ?_
    refine ⟨lines, rest, false, ops ++ [op], Function.update_self _ _ _, hold.safe.2.2,
      fun hf => absurd hf Bool.false_ne_true, ?_, ?_⟩
    · rw [List.length_append, List.length_singleton]
      exact Nat.succ_le_succ hold.length_le
    · have hran := hold.ran
      rw [List.append_nil] at hran
      have hnext := hran.step fits hp
      simpa using hnext

theorem Kept.go (h : Kept acts s) (hstep : s.step (.go t) = .ok s') :
    Kept (acts ++ [.go t]) s' := by
  obtain ⟨p, rest, r, more, htodo, hexec, rfl⟩ := go_eq_ok hstep
  have hlive : s.live t = true := by
    by_contra hdead
    rw [h.idle t (Bool.not_eq_true _ ▸ hdead)] at htodo
    cases htodo
  obtain ⟨lines, rest', b, ops, hold⟩ := h.onTrack t
  have heq := hold.todo_eq
  rw [htodo] at heq
  cases lines with
  | cons l lines =>
    obtain ⟨rfl, rfl⟩ := List.cons.inj heq
    cases hexec
    exact h.go_print hlive hold
  | nil =>
    obtain rfl : p :: rest = rest' := heq
    by_cases hhook : ∃ op fits, p = .hook op fits
    · obtain ⟨op, fits, rfl⟩ := hhook
      obtain ⟨q, hh, hexec⟩ := ThreadRegistry.bind_eq_ok.mp hexec
      cases hexec
      exact h.go_hook hlive hold hh
    · have hno : ∀ op fits, p ≠ .hook op fits := fun op fits hp => hhook ⟨op, fits, hp⟩
      obtain ⟨hs, b', hready, hsafe⟩ :=
        (h.runs hlive).exec hold.safe (fun hb => (hold.ready hb).2) hno hexec
      obtain ⟨hlt, hpos, -⟩ := h.live t hlive
      refine h.act (h.mem_started hlive _) hs.others (hs.registry h.registry) hs.clocked
        (fun u hu => Function.update_of_ne hu _ _) (fun u _ => rfl)
        (fun _ => ⟨hlt, hpos.trans_le hs.epoch_le⟩) (fun hdead => nomatch hlive.symm.trans hdead) ?_
      exact ⟨[], more ++ rest, b', ops, Function.update_self _ _ _, hsafe,
        fun hb => ⟨rfl, hready hb⟩, hold.length_le.trans (Nat.le_succ _), hs.ran hold.ran⟩

theorem roundUp_pos {x boundary : ℕ} (hx : 0 < x) (hb : 0 < boundary) : 0 < roundUp x boundary :=
  Nat.mul_pos (Nat.div_pos (by omega) hb) hb

/-- A thread that starts has not been there before. -/
theorem Kept.start (h : Kept acts s) (hnew : t ∉ acts.filterMap Act.started)
    (hstep : s.step (.start t) = .ok s') : Kept (acts ++ [.start t]) s' := by
  obtain ⟨r, hstart, rfl⟩ := start_eq_ok hstep
  obtain ⟨g, r₁, hg, hr₁, rfl⟩ := Rtl.startThread_eq_ok hstart
  have hquiet := h.quiet t hnew
  obtain ⟨hepoch, hreleased, hprinted⟩ := Callers.new.runs_of_ne hquiet
  have hregistry : g.OfRuntime := h.registry.step (c := .start t) hg
  have hdead : s.live t = false := by
    by_contra hlive
    exact hnew (h.live t (Bool.not_eq_false _ ▸ hlive)).2.2
  have hlt : t < kMaxTid := by
    obtain ⟨hlt, -⟩ := ThreadRegistry.startThread_eq_ok.mp hg
    have hle := h.registry.valid.nContexts_le
    rw [h.registry.maxThreads] at hle
    exact hlt.trans_le hle
  have hne : ∀ u, u ≠ t → r₁.epoch u = s.rtl.epoch u := fun u hu => by
    rw [hr₁]
    exact Function.update_of_ne hu _ _
  have hpos : 0 < r₁.epoch t := by
    have hself : r₁.epoch t = roundUp (s.rtl.epoch1 t + 1) kTracePartSize := by
      rw [hr₁]
      exact Function.update_self _ _ _
    rw [hself]
    exact roundUp_pos (Nat.succ_pos _) (by decide)
  have hops : r₁.ops = s.rtl.ops := by rw [hr₁]
  have hclocked : Clocked r₁.epoch r₁.ops := by
    rw [hops]
    refine ⟨h.clocked.follows, h.clocked.released_le, fun u => ?_⟩
    by_cases hu : u = t
    · subst hu
      rw [hepoch]
      exact Nat.zero_le _
    · rw [hne u hu]
      exact h.clocked.epoch_le u
  have hready : r₁.Ready t := by
    unfold Rtl.Ready
    rw [hops]
    exact ⟨hreleased ▸ hpos, fun hp => absurd (hprinted.symm.trans hp) Bool.false_ne_true⟩
  have hruns : r₁.Runs t := ⟨hclocked, hlt, hpos⟩
  have hacq := (hruns.acquireImpl hready (threadSync t)).1
  have hs := hacq.trans ((hruns.after hacq).resetClock (threadSync t))
  have hothers : Rtl.Others t s.rtl r₁ := by
    refine ⟨hne, fun u hu => ?_, [], by simp [hops], by simp⟩
    rw [hr₁]
    exact Function.update_of_ne hu _ _
  refine h.act (by simp [Act.started]) (hothers.trans hs.others)
    (hs.registry (by rw [hr₁]; exact hregistry)) hs.clocked (fun u _ => rfl)
    (fun u hu => Function.update_of_ne hu _ _)
    (fun _ => ⟨hlt, hpos.trans_le hs.epoch_le⟩) (fun _ => h.idle t hdead) ?_
  refine ⟨[], [], false, [], h.idle t hdead, trivial, fun hf => absurd hf Bool.false_ne_true,
    Nat.zero_le _, hs.ran ?_⟩
  have hnone : printedBy t (r₁.ops.filterMap ClockOp.line) = [] := by
    rw [hops]
    exact Rtl.printedBy_append [] hquiet
  rw [hnone, hr₁]
  change PrintingThread.Ran t [] [] (Function.update s.rtl.printing t PrintingThread.new t)
  rw [Function.update_self]
  exact .new

theorem Kept.step (h : Kept acts s) (hnew : ((acts ++ [a]).filterMap Act.started).Nodup)
    (hstep : s.step a = .ok s') : Kept (acts ++ [a]) s' := by
  cases a with
  | start tid =>
    refine h.start (fun hmem => ?_) hstep
    rw [List.filterMap_append] at hnew
    exact (List.nodup_append.mp hnew).2.2 tid hmem tid (by simp [Act.started]) rfl
  | call t c => exact h.call hstep
  | go t => exact h.go hstep
  | finish t => exact h.finish hstep

theorem Kept.run (h : Kept acts s) {more : List Act}
    (hnew : ((acts ++ more).filterMap Act.started).Nodup)
    (hrun : s.run more = .ok s') : Kept (acts ++ more) s' := by
  induction more generalizing acts s with
  | nil =>
    cases hrun
    rw [List.append_nil]
    exact h
  | cons a more ih =>
    obtain ⟨s₁, hstep, hrun⟩ := ThreadRegistry.bind_eq_ok.mp hrun
    have hsplit : acts ++ a :: more = (acts ++ [a]) ++ more := by simp
    rw [hsplit] at hnew ⊢
    refine ih (h.step ?_ hstep) hnew hrun
    rw [List.filterMap_append] at hnew
    exact (List.nodup_append.mp hnew).1

theorem kept_new : Kept [] new where
  registry := by
    have hbase : (ThreadRegistry.new kMaxTid kThreadQuarantineSize kMaxTidReuse).OfRuntime :=
      ⟨ThreadRegistry.valid_new _ _ _, rfl, by decide⟩
    cases hcreate :
        (ThreadRegistry.new kMaxTid kThreadQuarantineSize kMaxTidReuse).createThread 0 true 0 with
    | error e =>
      simp only [new, hcreate]
      exact hbase
    | ok q =>
      simp only [new, hcreate]
      refine hbase.step (c := .create 0 true 0) ?_
      simp [ThreadRegistry.step, hcreate, bind, Except.bind, pure, Except.pure]
  clocked := clocked_new
  quiet := fun _ _ op hop => nomatch hop
  live := fun _ hlive => nomatch hlive
  idle := fun _ _ => rfl
  onTrack :=
  fun _ => ⟨[], [], false, [], rfl, trivial, fun hf => absurd hf Bool.false_ne_true, le_rfl, .new⟩

/-- No access leaves its cache line. -/
theorem Kept.inLine (h : Kept acts s) : AccessesInLine s.rtl.ops := by
  intro a ha
  obtain ⟨lines, rest, b, ops, hold⟩ := h.onTrack a.tid
  refine (hold.ran.of_mem (l := .access a) (List.mem_append_left _ ?_)).2 a rfl
  refine List.mem_filter.mpr ⟨List.mem_filterMap.mpr ⟨_, ha, rfl⟩, ?_⟩
  simp [Line.tid]

/-- What is left of the run of a thread in the trace. -/
theorem Kept.recordable (h : Kept acts s) (hlength : acts.length ≤ 2 ^ 64)
    (hsmall : ∀ t e, ClockOp.set t e ∈ s.rtl.ops → e < 2 ^ 31) : Recordable s.rtl.ops where
  follows := h.clocked.follows hsmall
  prints := by
    intro t ht
    obtain ⟨lines, rest, b, ops, hold⟩ := h.onTrack t
    exact ⟨⟨t, ops, ht.trans (by decide), hold.length_le.trans hlength⟩, rfl, _, hold.ran.run,
      List.prefix_append _ _⟩
  inLine := h.inLine
  small := hsmall

/-- Whatever the threads call, and in whatever order their steps come, the trace that is recorded
is one of those that the analysis reads correctly. -/
theorem calls_recordable (hnew : (acts.filterMap Act.started).Nodup)
    (hlength : acts.length ≤ 2 ^ 64) (hrun : new.run acts = .ok s)
    (hsmall : ∀ t e, ClockOp.set t e ∈ s.rtl.ops → e < 2 ^ 31) :
    Recordable s.rtl.ops :=
  (kept_new.run hnew hrun).recordable hlength hsmall

/-- What the runtime finds at the accesses of the sample. -/
def sampleSite (dropped : Bool) : Site :=
  let a := sampleAccess true 0x1000 sharedAddr_lt
  ⟨dropped, [⟨0x1000, 0x3000⟩], [⟨0, 0⟩], 0, 0, a.pc, a.trace, a.pc_lt, a.trace_ne_nil,
    a.trace_length, a.trace_lt⟩

/-- A thread makes a call and does the first steps of it. -/
def callActs (t : ℕ) (c : RtlCall) (n : ℕ) : List Act := .call t c :: List.replicate n (.go t)

def sampleWrite (t : ℕ) : List Act :=
  callActs t (.memoryAccess (sampleSite false) (.byte 0x1000 sharedAddr_lt) true false) 3

def sampleFlush (t : ℕ) : List Act :=
  callActs t (.flush 0x1000 sharedAddr_lt) 1 ++ callActs t (.fence 0x2000 writtenAddr_lt) 2

def sampleLock (t : ℕ) : List Act :=
  callActs t (.intercepted (.mutexLock 0x2000 0 1 false (sampleSite true))) 3

def sampleUnlock (t : ℕ) : List Act :=
    callActs t (.intercepted (.mutexUnlock 0x2000 0 (sampleSite true))) 3

/-- A thread is about to lock a mutex for reading, or to unlock it. -/
def sampleReadLock (t : ℕ) : List Act :=
    callActs t (.intercepted (.readLock 0x2000 0 (sampleSite true))) 1

def sampleReadUnlock (t : ℕ) : List Act :=
    callActs t (.intercepted (.rwlockUnlock 0x2000 (sampleSite true))) 1

/-- The main thread writes and is about to create another one. -/
def sampleCreate : List Act :=
  .start 0 :: sampleWrite 0 ++ callActs 0 (.intercepted (.pthreadCreate 7 false)) 1

def sampleStart : List Act := [.go 0, .start 1, .go 0, .go 0]

/-- The other thread starts, and the main one writes under a mutex and flushes
what it has written. -/
def sampleOwned : List Act := sampleStart ++ sampleLock 0 ++ sampleWrite 0 ++ sampleFlush 0

/-- The mutex is handed over. -/
def samplePass : List Act := sampleUnlock 0 ++ sampleLock 1

/-- The main thread is about to join the other one. -/
def sampleJoin : List Act := callActs 0 (.intercepted (.pthreadJoin 7)) 2

theorem calls_recordable_sample :
    ∃ s, new.run (sampleCreate ++ sampleOwned ++ samplePass ++ sampleWrite 1) = .ok s ∧
    Recordable s.rtl.ops := by
  obtain ⟨s, hrun, hsets⟩ :
      ∃ s, new.run (sampleCreate ++ sampleOwned ++ samplePass ++ sampleWrite 1) = .ok s ∧
      ∀ op ∈ s.rtl.ops, (match op with | .set _ e => e | _ => 0) < 2 ^ 31 := ⟨_, rfl, by decide⟩
  exact ⟨s, hrun, calls_recordable (by decide) (by decide) hrun fun t e he => hsets _ he⟩

end Sys

end Prd.Runtime
