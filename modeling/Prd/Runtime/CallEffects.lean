import Prd.Foundation.Handover
import Prd.Runtime.CallRuns

/-!
# What the steps of the calls do

A step adds operations that clear only some synchronization objects, and it changes only some
mutexes. What a thread has seen at some time comes before what it prints later.
-/
namespace Prd.Runtime

open Prd.Foundation

/-- A mutex is owned as long as it is locked. -/
def SyncVar.Ok (v : SyncVar) : Prop := v.ownerTid = none ↔ v.recursion = 0

namespace SyncVar

theorem ok_new : SyncVar.new.Ok := by
  simp [SyncVar.Ok, SyncVar.new]

@[simp] theorem ownerTid_setFlags (v : SyncVar) (f : ℕ) : (v.setFlags f).ownerTid = v.ownerTid :=
    rfl

@[simp] theorem recursion_setFlags (v : SyncVar) (f : ℕ) : (v.setFlags f).recursion = v.recursion :=
    rfl

@[simp] theorem ownerTid_updateFlags (v : SyncVar) (f : ℕ) :
    (v.updateFlags f).ownerTid = v.ownerTid := by
  unfold SyncVar.updateFlags
  split_ifs <;> rfl

@[simp] theorem recursion_updateFlags (v : SyncVar) (f : ℕ) :
    (v.updateFlags f).recursion = v.recursion := by
  unfold SyncVar.updateFlags
  split_ifs <;> rfl

end SyncVar

namespace RtlStep

/-- The objects that the step may clear. -/
def Clears (c : ℕ) : RtlStep → Prop
  | .releaseStore addr => c = clockOf addr
  | .mutexDestroy addr _ _ => c = clockOf addr ∨ c = readClockOf addr
  | .mutexUnlock addr _ => c = clockOf addr
  | .mutexReadOrWriteUnlock addr => c = clockOf addr
  | .freeRange addr size => ∃ i < size, c = clockOf (addr + i) ∨ c = readClockOf (addr + i)
  | .joinThread tid => c = threadSync tid
  | .detachThread tid => c = threadSync tid
  | _ => False

/-- The step may change who owns the mutex. -/
def SetsOwner (m : ℕ) : RtlStep → Prop
  | .mutexDestroy addr _ _ => addr = m
  | .mutexPostLock addr _ _ => addr = m
  | .mutexUnlock addr _ => addr = m
  | .mutexReadOrWriteUnlock addr => addr = m
  | .mutexRepair addr => addr = m
  | .freeRange addr size => ∃ i < size, addr + i = m
  | _ => False

/-- The step may release what its thread has seen. -/
def IsRelease : RtlStep → Prop
  | .release _ => True
  | .releaseStore _ => True
  | .atomicRMW _ mo => mo.isReleaseOrder = true
  | .mutexUnlock _ _ => True
  | .mutexReadUnlock _ => True
  | .mutexReadOrWriteUnlock _ => True
  | .createThread _ _ => True
  | _ => False

/-- The step may acquire what others have released. -/
def IsAcquire : RtlStep → Prop
  | .acquire _ => True
  | .atomicRMW _ mo => mo.isAcquireOrder = true
  | .mutexPostLock _ _ _ => True
  | .mutexPostReadLock _ _ => True
  | .joinThread _ => True
  | _ => False

def IsPrint : RtlStep → Prop
  | .print _ => True
  | _ => False

/-- What the step calls the registry for. -/
def registryCall (t : ℕ) : RtlStep → Option RegistryCall
  | .createThread userId detached => some (.create userId detached t)
  | .consumeTid userId _ => some (.consume userId)
  | .joinThread tid => some (.join tid)
  | .detachThread tid => some (.detach tid)
  | _ => none

end RtlStep

/-- Operations are added, and all of them are of a kind. -/
def Emits (P : ClockOp → Prop) (ops ops' : List ClockOp) : Prop :=
  ∃ more, ops' = ops ++ more ∧ ∀ op ∈ more, P op

section Emits

variable {P Q : ClockOp → Prop} {ops ops' ops'' : List ClockOp}

theorem Emits.refl : Emits P ops ops := ⟨[], by simp, by simp⟩

theorem Emits.trans (h : Emits P ops ops') (h' : Emits P ops' ops'') : Emits P ops ops'' := by
  obtain ⟨more, rfl, hmore⟩ := h
  obtain ⟨more', rfl, hmore'⟩ := h'
  refine ⟨more ++ more', List.append_assoc _ _ _, fun op hop => ?_⟩
  rcases List.mem_append.mp hop with hop | hop
  · exact hmore op hop
  · exact hmore' op hop

theorem Emits.mono (h : Emits P ops ops') (hPQ : ∀ op, P op → Q op) : Emits Q ops ops' := by
  obtain ⟨more, hops, hmore⟩ := h
  exact ⟨more, hops, fun op hop => hPQ op (hmore op hop)⟩

theorem Emits.single {op : ClockOp} (h : P op) : Emits P ops (ops ++ [op]) :=
  ⟨[op], rfl, fun _ hop => List.mem_singleton.mp hop ▸ h⟩

end Emits

/-- The operation is one of a thread that clears some objects, and may release, acquire or print. -/
structure Within (t : ℕ) (clears : ℕ → Prop) (releases acquires prints : Prop) (op : ClockOp) :
    Prop where
  cleared : ∀ c, op.sync.Clears c → clears c
  released : ∀ c, op.sync.Publishes c → op.sync.thread = some t ∧ releases
  acquired : ∀ c, op.sync.Acquires c → op.sync.thread = some t ∧ acquires
  printed : ∀ v, op.sync = .event v → prints

namespace Within

variable {t s e : ℕ} {clears clears' : ℕ → Prop} {releases acquires prints : Prop} {op : ClockOp}

theorem set (t' e : ℕ) : Within t clears releases acquires prints (.set t' e) := by
  constructor <;> simp [ClockOp.sync, RunOp.Clears, RunOp.Publishes, RunOp.Acquires]

theorem acquire (h : acquires) (s : ℕ) :
    Within t clears releases acquires prints (.acquire t s) := by
  constructor <;> simp [ClockOp.sync, RunOp.Clears, RunOp.Publishes, RunOp.Acquires, RunOp.thread,
    h]

theorem release (h : releases) (s : ℕ) :
    Within t clears releases acquires prints (.release t s) := by
  constructor <;> simp [ClockOp.sync, RunOp.Clears, RunOp.Publishes, RunOp.Acquires, RunOp.thread,
    h]

theorem releaseStore (h : releases) (hs : clears s) :
    Within t clears releases acquires prints (.releaseStore t s) := by
  constructor <;> simp [ClockOp.sync, RunOp.Clears, RunOp.Publishes, RunOp.Acquires, RunOp.thread,
    h, hs]

theorem acqRel (h : releases) (h' : acquires) (s : ℕ) :
    Within t clears releases acquires prints (.acqRel t s) := by
  constructor <;> simp [ClockOp.sync, RunOp.Clears, RunOp.Publishes, RunOp.Acquires, RunOp.thread,
    h, h']

theorem reset (hs : clears s) : Within t clears releases acquires prints (.reset s) := by
  constructor <;> simp [ClockOp.sync, RunOp.Clears, RunOp.Publishes, RunOp.Acquires, hs]

theorem print (h : prints) (line : Line) :
    Within t clears releases acquires prints (.print line) := by
  constructor <;> simp [ClockOp.sync, RunOp.Clears, RunOp.Publishes, RunOp.Acquires, h]

theorem mono (h : Within t clears releases acquires prints op) (hc : ∀ c, clears c → clears' c) :
    Within t clears' releases acquires prints op :=
  ⟨fun c hop => hc c (h.cleared c hop), h.released, h.acquired, h.printed⟩

end Within

/-- What the step may log. -/
def RtlStep.MayLog (t : ℕ) (p : RtlStep) : ClockOp → Prop :=
  Within t (RtlStep.Clears · p) p.IsRelease p.IsAcquire p.IsPrint

namespace Rtl

variable {r r' : Rtl} {t m addr : ℕ} {op : ClockOp} {P : ClockOp → Prop} {clears : ℕ → Prop}
  {releases acquires prints : Prop}

def owner (r : Rtl) (m : ℕ) : Option ℕ := (r.getOrCreate m).ownerTid

/-- The objects that are there are right. -/
def VarsOk (r : Rtl) : Prop := ∀ m, (r.getOrCreate m).Ok

theorem emits_clockOp (h : Within t clears releases acquires prints op) :
    Emits (Within t clears releases acquires prints) r.ops (r.clockOp t op).ops := by
  unfold Rtl.clockOp
  split_ifs
  · exact .refl
  · refine ⟨_, rfl, fun op' hop => ?_⟩
    rcases List.mem_cons.mp hop with rfl | hop
    · exact .set t (r.epoch t)
    · rw [List.mem_singleton.mp hop]
      exact h

theorem emits_acquireImpl (h : acquires) (s : ℕ) :
    Emits (Within t clears releases acquires prints) r.ops (r.acquireImpl t s).ops :=
    emits_clockOp (.acquire h s)

theorem emits_releaseImpl (h : releases) (s : ℕ) :
    Emits (Within t clears releases acquires prints) r.ops (r.releaseImpl t s).ops :=
    emits_clockOp (.release h s)

theorem emits_releaseStoreImpl {s : ℕ} (h : releases) (hs : clears s) :
    Emits (Within t clears releases acquires prints) r.ops (r.releaseStoreImpl t s).ops :=
  emits_clockOp (.releaseStore h hs)

theorem emits_resetClock {s : ℕ} (hs : clears s) :
    Emits (Within t clears releases acquires prints) r.ops (r.resetClock s).ops :=
    .single (.reset hs)

theorem metamap_clockOp (r : Rtl) (t : ℕ) (op : ClockOp) :
    (r.clockOp t op).metamap = r.metamap := by
  unfold Rtl.clockOp
  split_ifs <;> rfl

theorem ignoreSync_clockOp (r : Rtl) (t : ℕ) (op : ClockOp) :
    (r.clockOp t op).ignoreSync = r.ignoreSync := by
  unfold Rtl.clockOp
  split_ifs <;> rfl

theorem ops_clockOp (h : r.ignoreSync t = 0) (op : ClockOp) :
    (r.clockOp t op).ops = r.ops ++ [.set t (r.epoch t), op] := by
  unfold Rtl.clockOp
  rw [if_neg (by omega)]

section Passing

variable {c p : ℕ}

theorem sees_clockOp (h : Published (r.ops.map ClockOp.sync) c p) (hsync : r.ignoreSync t = 0)
    (ht : op.sync.thread = some t) (hop : op.sync.Acquires c) :
    Seen ((r.clockOp t op).ops.map ClockOp.sync) t p := by
  have hset : Published (r.ops.map ClockOp.sync ++ [.tick t (r.epoch t)]) c p :=
    h.append (by simp [RunOp.Clears])
  have hseen := hset.acquire_op op.sync ht hop
  rw [List.append_assoc] at hseen
  rw [ops_clockOp hsync, List.map_append]
  exact hseen

theorem sees_acquireImpl (h : Published (r.ops.map ClockOp.sync) c p) (hsync : r.ignoreSync t = 0) :
    Seen ((r.acquireImpl t c).ops.map ClockOp.sync) t p := sees_clockOp h hsync rfl rfl

theorem publishes_clockOp (h : Seen (r.ops.map ClockOp.sync) t p) (hsync : r.ignoreSync t = 0)
    (ht : op.sync.thread = some t) (hop : op.sync.Publishes c) :
    Published ((r.clockOp t op).ops.map ClockOp.sync) c p := by
  have hset := h.append [.tick t (r.epoch t)]
  have hpublished := hset.publish op.sync ht hop
  rw [List.append_assoc] at hpublished
  rw [ops_clockOp hsync, List.map_append]
  exact hpublished

theorem publishes_releaseImpl (h : Seen (r.ops.map ClockOp.sync) t p) (hsync : r.ignoreSync t = 0)
    (c : ℕ) : Published ((r.releaseImpl t c).ops.map ClockOp.sync) c p :=
    publishes_clockOp h hsync rfl rfl

/-- What an object passes on it passes on until it is cleared. -/
theorem published_emits {ops ops' : List ClockOp} (h : Published (ops.map ClockOp.sync) c p)
    (hemits : Emits (Within t clears releases acquires prints) ops ops') (hc : ¬ clears c) :
    Published (ops'.map ClockOp.sync) c p := by
  obtain ⟨more, rfl, hmore⟩ := hemits
  rw [List.map_append]
  refine h.append fun op hop hclears => hc ?_
  obtain ⟨op', hop', rfl⟩ := List.mem_map.mp hop
  exact (hmore op' hop').cleared c hclears

end Passing

/-- What a step does apart from the clocks of its thread. -/
structure Does (t : ℕ) (p : RtlStep) (r r' : Rtl) : Prop where
  emits : Emits (p.MayLog t) r.ops r'.ops
  owner : ∀ m, ¬ p.SetsOwner m → r'.owner m = r.owner m
  vars : r.VarsOk → r'.VarsOk
  ignoreSync : p ≠ .ignoreSyncBegin → ∀ v, r'.ignoreSync v ≤ r.ignoreSync v
  registry : r'.registry = r.registry ∨
    ∃ c, p.registryCall t = some c ∧ r.registry.step c = .ok r'.registry
  objects : ∀ m, r.metamap m ≠ none → ¬ p.Clears (clockOf m) → r'.metamap m ≠ none

variable {p : RtlStep} {v : SyncVar}

theorem owner_congr (h : r'.metamap = r.metamap) (m : ℕ) : r'.owner m = r.owner m := by
  unfold Rtl.owner Rtl.getOrCreate
  rw [h]

theorem varsOk_congr (h : r'.metamap = r.metamap) (hr : r.VarsOk) : r'.VarsOk := by
  intro m
  unfold Rtl.getOrCreate
  rw [h]
  exact hr m

/-- A step that changes no object. -/
theorem Does.clocks (hemits : Emits (p.MayLog t) r.ops r'.ops) (hmap : r'.metamap = r.metamap)
    (hignore : p ≠ .ignoreSyncBegin → ∀ v, r'.ignoreSync v ≤ r.ignoreSync v)
    (hregistry : r'.registry = r.registry ∨
      ∃ c, p.registryCall t = some c ∧ r.registry.step c = .ok r'.registry) : Does t p r r' :=
  ⟨hemits, fun m _ => owner_congr hmap m, varsOk_congr hmap, hignore, hregistry,
    fun m hm _ => by rwa [hmap]⟩

/-- A step that works on one object. -/
theorem Does.var (hemits : Emits (p.MayLog t) r.ops r'.ops)
    (hmap : r'.metamap = Function.update r.metamap addr (some v))
    (howner : ¬ p.SetsOwner addr → v.ownerTid = r.owner addr) (hv : r.VarsOk → v.Ok)
    (hignore : r'.ignoreSync = r.ignoreSync) (hregistry : r'.registry = r.registry) :
    Does t p r r' := by
  have hget : ∀ m, r'.getOrCreate m = if m = addr then v else r.getOrCreate m := by
    intro m
    unfold Rtl.getOrCreate
    rw [hmap]
    by_cases hm : m = addr
    · subst hm
      simp
    · simp [hm]
  refine ⟨hemits, fun m hm => ?_, fun hr m => ?_, fun _ u => (congrFun hignore u).le,
    Or.inl hregistry, fun m hm _ => ?_⟩
  · unfold Rtl.owner
    rw [hget]
    split_ifs with heq
    · subst heq
      exact howner hm
    · rfl
  · rw [hget]
    split_ifs
    · exact hv hr
    · exact hr m
  · rw [hmap, Function.update_apply]
    split_ifs
    · simp
    · exact hm

/-- A step that makes its thread use a clock of the object. -/
theorem does_clockOp (hop : p.MayLog t op) (addr : ℕ) :
    Does t p r (((r.setVar addr (some (r.getOrCreate addr))).incrementEpoch t).clockOp t op) :=
  .var (emits_clockOp hop) (metamap_clockOp _ _ _) (fun _ => rfl) (fun hr => hr addr)
    (ignoreSync_clockOp _ _ _) (registry_clockOp _ _ _)

theorem does_atomicRMW (addr : ℕ) (mo : MemoryOrder) :
    Does t (.atomicRMW addr mo) r (r.atomicRMW t addr mo) := by
  unfold Rtl.atomicRMW
  dsimp only
  split_ifs with hboth hrelease hacquire
  · have hmo : mo.isReleaseOrder = true ∧ mo.isAcquireOrder = true := by
      cases mo <;> simp_all [MemoryOrder.isAcqRelOrder, MemoryOrder.isReleaseOrder,
        MemoryOrder.isAcquireOrder]
    refine does_clockOp ?_ addr
    exact .acqRel hmo.1 hmo.2 _
  · refine does_clockOp ?_ addr
    exact .release hrelease _
  · refine does_clockOp ?_ addr
    exact .acquire hacquire _
  · exact .var .refl rfl (fun _ => rfl) (fun hr => hr addr) rfl rfl

theorem does_mutexDestroy (addr flagz : ℕ) (s : Site) :
    Does t (.mutexDestroy addr flagz s) r (r.mutexDestroy addr flagz).1 := by
  have hsame : Does t (.mutexDestroy addr flagz s) r r :=
    .clocks .refl rfl (fun _ _ => le_rfl) (Or.inl rfl)
  unfold Rtl.mutexDestroy
  split
  · exact hsame
  · split_ifs
    · exact hsame
    · refine .var (v := .new) ?_ rfl (fun hno => absurd rfl hno) (fun _ => SyncVar.ok_new) rfl rfl
      exact (emits_resetClock (Or.inl rfl)).trans (emits_resetClock (Or.inr rfl))

/-- The locking of a mutex. -/
theorem does_acquires (v : SyncVar) (hv : r.VarsOk → v.Ok) (addr flagz depth : ℕ) :
    Does t (.mutexPostLock addr flagz depth) r
      ((((r.incrementEpoch t).setVar addr (some v)).acquireImpl t (clockOf addr)).acquireImpl t
        (readClockOf addr)) := by
  refine .var (v := v) ?_ ?_ (fun hno => absurd rfl hno) hv ?_ ?_
  · exact (emits_acquireImpl (r := (r.incrementEpoch t).setVar addr (some v)) trivial _).trans
      (emits_acquireImpl trivial _)
  · unfold Rtl.acquireImpl
    rw [metamap_clockOp, metamap_clockOp]
    rfl
  · unfold Rtl.acquireImpl
    rw [ignoreSync_clockOp, ignoreSync_clockOp]
    rfl
  · unfold Rtl.acquireImpl
    rw [registry_clockOp, registry_clockOp]
    rfl

theorem does_mutexPostLock {addr flagz depth : ℕ}
    (hok : r.mutexPostLock t addr flagz depth = .ok r') :
    Does t (.mutexPostLock addr flagz depth) r r' := by
  obtain ⟨v, d, rfl, hd, hcases⟩ := mutexPostLock_eq_ok hok
  simp only [SyncVar.ownerTid_updateFlags, SyncVar.recursion_updateFlags] at hcases
  obtain ⟨-, -, rfl⟩ | ⟨owner, howner, -, ⟨hzero, rfl⟩ | ⟨-, rfl⟩⟩ := hcases
  · exact does_acquires _ (fun _ => by simp [SyncVar.Ok, hd.ne']) _ _ _
  · refine does_acquires _ (fun hr => ?_) _ _ _
    have hfree := (hr addr).mpr hzero
    rw [howner] at hfree
    cases hfree
  · refine .var .refl rfl (fun hno => absurd rfl hno) (fun _ => ?_) rfl rfl
    simp [SyncVar.Ok, howner, hd.ne']

theorem does_mutexUnlock (addr flagz : ℕ) :
    Does t (.mutexUnlock addr flagz) r (r.mutexUnlock t addr flagz) := by
  obtain ⟨v, rfl, hcases⟩ := r.mutexUnlock_cases t addr flagz
  obtain ⟨-, hunlock⟩ | ⟨howner, ⟨-, hunlock⟩ | ⟨n, hn, hunlock⟩⟩ := hcases
  · rw [hunlock]
    exact .var .refl rfl (fun hno => absurd rfl hno) (fun hr => hr addr) rfl rfl
  · rw [hunlock]
    exact .var (v := { r.getOrCreate addr with ownerTid := none, recursion := 0 })
      (emits_releaseStoreImpl trivial rfl) (metamap_clockOp _ _ _) (fun hno => absurd rfl hno)
      (fun _ => by simp [SyncVar.Ok]) (ignoreSync_clockOp _ _ _) (registry_clockOp _ _ _)
  · rw [hunlock]
    exact .var .refl rfl (fun hno => absurd rfl hno)
      (fun _ => by simp [SyncVar.Ok, howner, hn]) rfl rfl

theorem does_mutexPostReadLock (addr flagz : ℕ) :
    Does t (.mutexPostReadLock addr flagz) r (r.mutexPostReadLock t addr flagz) := by
  refine .var (v := (r.getOrCreate addr).updateFlags flagz) (emits_acquireImpl trivial _)
    (metamap_clockOp _ _ _) (fun _ => by simp [Rtl.owner]) (fun hr => ?_) (ignoreSync_clockOp _ _ _)
    (registry_clockOp _ _ _)
  have hok := hr addr
  simpa [SyncVar.Ok] using hok

theorem does_mutexReadOrWriteUnlock {addr : ℕ} (hok : r.mutexReadOrWriteUnlock t addr = .ok r') :
    Does t (.mutexReadOrWriteUnlock addr) r r' := by
  obtain ⟨v, rfl, hcases⟩ := mutexReadOrWriteUnlock_eq_ok hok
  obtain ⟨-, rfl⟩ | ⟨-, -, rfl⟩ | ⟨howner, hdeep, rfl⟩ | ⟨owner, -, -, rfl⟩ := hcases
  · refine does_clockOp ?_ addr
    exact .release trivial _
  · refine .var (v := { r.getOrCreate addr with ownerTid := none, recursion := 0 })
      (emits_releaseStoreImpl trivial rfl) ?_ (fun hno => absurd rfl hno)
      (fun _ => by simp [SyncVar.Ok]) ?_ ?_
    · refine (metamap_clockOp _ _ _).trans ?_
      simp [Rtl.setVar, Rtl.incrementEpoch]
    · exact ignoreSync_clockOp _ _ _
    · exact registry_clockOp _ _ _
  · refine .var (v := { r.getOrCreate addr with recursion := (r.getOrCreate addr).recursion - 1 })
      .refl ?_ (fun hno => absurd rfl hno) (fun _ => ?_) rfl rfl
    · simp [Rtl.setVar, Rtl.incrementEpoch]
    · have hne : (r.getOrCreate addr).recursion - 1 ≠ 0 := by omega
      simp [SyncVar.Ok, howner, hne]
  · exact .var .refl rfl (fun _ => rfl) (fun hr => hr addr) rfl rfl

theorem freeVar_keeps (r : Rtl) (t addr : ℕ) :
    Emits (Within t (fun c => c = clockOf addr ∨ c = readClockOf addr) False False False) r.ops
      (r.freeVar addr).ops ∧ (∀ m, m ≠ addr → (r.freeVar addr).owner m = r.owner m) ∧
      (r.VarsOk → (r.freeVar addr).VarsOk) ∧
      (r.freeVar addr).ignoreSync = r.ignoreSync ∧ (r.freeVar addr).registry = r.registry ∧
      ∀ m, m ≠ addr → (r.freeVar addr).metamap m = r.metamap m := by
  unfold Rtl.freeVar
  split
  · exact ⟨.refl, fun _ _ => rfl, id, rfl, rfl, fun _ _ => rfl⟩
  · have hget : ∀ m, ((r.resetVar addr).setVar addr none).getOrCreate m =
        if m = addr then .new else r.getOrCreate m := by
      intro m
      unfold Rtl.getOrCreate Rtl.setVar
      by_cases hm : m = addr
      · subst hm
        simp
      · simp [hm, Rtl.resetVar, Rtl.resetClock]
    refine ⟨(emits_resetClock (Or.inl rfl)).trans (emits_resetClock (Or.inr rfl)), fun m hm => ?_,
      fun hr m => ?_, rfl, rfl, fun m hm => Function.update_of_ne hm _ _⟩
    · unfold Rtl.owner
      rw [hget, if_neg hm]
    · rw [hget]
      split_ifs
      · exact SyncVar.ok_new
      · exact hr m

theorem does_freeRange (addr size : ℕ) :
    Does t (.freeRange addr size) r (r.freeRange addr size) := by
  unfold Rtl.freeRange
  induction size with
  | zero => exact .clocks .refl rfl (fun _ _ => le_rfl) (Or.inl rfl)
  | succ size ih =>
    rw [List.range_succ, List.foldl_append, List.foldl_cons, List.foldl_nil]
    obtain ⟨hemits, howner, hvars, hignore, hregistry, hothers⟩ :=
      freeVar_keeps ((List.range size).foldl (fun r i => r.freeVar (addr + i)) r) t (addr + size)
    refine ⟨(ih.emits.mono ?_).trans (hemits.mono ?_), fun m hm => ?_, fun hr => hvars (ih.vars hr),
      fun hp v => ?_, ?_, fun m hm hno => ?_⟩
    · refine fun op hop => hop.mono ?_
      rintro c ⟨i, hi, hc⟩
      exact ⟨i, hi.trans (Nat.lt_succ_self _), hc⟩
    · exact fun op hop => hop.mono fun c hc => ⟨size, Nat.lt_succ_self _, hc⟩
    · rw [howner m fun heq => hm ⟨size, Nat.lt_succ_self _, heq.symm⟩]
      exact ih.owner m fun ⟨i, hi, heq⟩ => hm ⟨i, hi.trans (Nat.lt_succ_self _), heq⟩
    · rw [hignore]
      exact ih.ignoreSync (fun hf => nomatch hf) v
    · rw [hregistry]
      exact Or.inl (ih.registry.resolve_right fun ⟨c, hc, _⟩ => nomatch hc)
    · rw [hothers m fun heq => hno ⟨size, Nat.lt_succ_self _, Or.inl (congrArg clockOf heq)⟩]
      exact ih.objects m hm fun ⟨i, hi, hc⟩ => hno ⟨i, hi.trans (Nat.lt_succ_self _), hc⟩

theorem does_createThread {userId tid : ℕ} {detached : Bool}
    (hok : r.createThread t userId detached = .ok (tid, r')) :
    Does t (.createThread userId detached) r r' := by
  obtain ⟨g, hcreate, rfl⟩ := createThread_eq_ok hok
  have hcall : r.registry.step (.create userId detached t) = .ok g := by
    simp [ThreadRegistry.step, hcreate, bind, Except.bind, pure, Except.pure]
  split_ifs
  · exact .clocks .refl rfl (fun _ _ => le_rfl) (Or.inr ⟨_, rfl, hcall⟩)
  · refine .clocks ?_
      (metamap_clockOp _ _ _) (fun _ v => (congrFun (ignoreSync_clockOp _ _ _) v).le)
      (Or.inr ⟨_, rfl, ?_⟩)
    · exact emits_releaseImpl (r := ({ r with registry := g } : Rtl).incrementEpoch t) trivial _
    · rw [Rtl.releaseImpl, registry_clockOp]
      exact hcall

theorem does_joinThread {tid : ℕ} (hok : r.joinThread t tid = .ok r') :
    Does t (.joinThread tid) r r' := by
  obtain ⟨g, hjoin, ⟨-, rfl⟩ | rfl⟩ := joinThread_eq_ok hok
  · exact .clocks .refl rfl (fun _ _ => le_rfl) (Or.inl rfl)
  · refine .clocks ?_ (metamap_clockOp _ _ _)
      (fun _ v => (congrFun (ignoreSync_clockOp _ _ _) v).le)
      (Or.inr ⟨_, rfl, ?_⟩)
    · exact (emits_acquireImpl (r := { r with registry := g }) trivial _).trans
        (emits_resetClock rfl)
    · have hregistry : ({ r with registry := g }.acquireImpl t (threadSync tid)).registry = g :=
        registry_clockOp _ _ _
      exact hjoin.trans (congrArg Except.ok hregistry.symm)

theorem does_detachThread {tid : ℕ} (hok : r.detachThread tid = .ok r') :
    Does t (.detachThread tid) r r' := by
  obtain rfl | ⟨g, hdetach, rfl⟩ := detachThread_eq_ok hok
  · exact .clocks .refl rfl (fun _ _ => le_rfl) (Or.inl rfl)
  · exact .clocks (emits_resetClock rfl) rfl (fun _ _ => le_rfl) (Or.inr ⟨_, rfl, hdetach⟩)

variable {more : List RtlStep}

/-- What each step does. -/
theorem exec_does (hexec : r.exec t p = .ok (r', more)) : Does t p r r' := by
  have hsame : Does t p r r := .clocks .refl rfl (fun _ _ => le_rfl) (Or.inl rfl)
  cases p with
  | incrementEpoch =>
    cases hexec
    exact .clocks .refl rfl (fun _ _ => le_rfl) (Or.inl rfl)
  | hook op fits =>
    obtain ⟨q, hh, hexec⟩ := ThreadRegistry.bind_eq_ok.mp hexec
    cases hexec
    unfold Rtl.hook at hh
    split at hh
    · cases hh
    · cases hh
      exact .clocks .refl rfl (fun _ _ => le_rfl) (Or.inl rfl)
  | print line =>
    cases hexec
    exact .clocks (.single (.print trivial line)) rfl (fun _ _ => le_rfl) (Or.inl rfl)
  | acquire addr =>
    simp only [Rtl.exec] at hexec
    split at hexec
    · cases hexec
      exact hsame
    · cases hexec
      exact .clocks (emits_acquireImpl trivial _) (metamap_clockOp _ _ _)
        (fun _ v => (congrFun (ignoreSync_clockOp _ _ _) v).le) (Or.inl (registry_clockOp _ _ _))
  | release addr =>
    simp only [Rtl.exec] at hexec
    split at hexec
    · cases hexec
      exact hsame
    · cases hexec
      refine does_clockOp ?_ addr
      exact .release trivial _
  | releaseStore addr =>
    simp only [Rtl.exec] at hexec
    split at hexec
    · cases hexec
      exact hsame
    · cases hexec
      refine does_clockOp ?_ addr
      exact .releaseStore trivial rfl
  | atomicRMW addr mo =>
    cases hexec
    exact does_atomicRMW addr mo
  | mutexCreate addr flagz =>
    cases hexec
    exact .var .refl rfl (fun _ => rfl) (fun hr => hr addr) rfl rfl
  | mutexDestroy addr flagz s =>
    cases hexec
    exact does_mutexDestroy addr flagz s
  | mutexPostLock addr flagz depth =>
    obtain ⟨r₁, hl, hexec⟩ := ThreadRegistry.bind_eq_ok.mp hexec
    cases hexec
    exact does_mutexPostLock hl
  | mutexUnlock addr flagz =>
    cases hexec
    exact does_mutexUnlock addr flagz
  | mutexPostReadLock addr flagz =>
    cases hexec
    exact does_mutexPostReadLock addr flagz
  | mutexReadUnlock addr =>
    cases hexec
    refine does_clockOp ?_ addr
    exact .release trivial _
  | mutexReadOrWriteUnlock addr =>
    obtain ⟨r₁, hl, hexec⟩ := ThreadRegistry.bind_eq_ok.mp hexec
    cases hexec
    exact does_mutexReadOrWriteUnlock hl
  | mutexRepair addr =>
    cases hexec
    exact .var .refl rfl (fun hno => absurd rfl hno) (fun _ => by simp [SyncVar.Ok]) rfl rfl
  | freeRange addr size =>
    cases hexec
    exact does_freeRange addr size
  | createThread userId detached =>
    obtain ⟨⟨tid, r₁⟩, hl, hexec⟩ := ThreadRegistry.bind_eq_ok.mp hexec
    obtain ⟨-, hexec⟩ := ThreadRegistry.check_bind_eq_ok.mp hexec
    cases hexec
    exact does_createThread hl
  | waitStarted tid =>
    simp only [Rtl.exec] at hexec
    split at hexec
    · cases hexec
    · cases hexec
      exact hsame
  | consumeTid userId detach =>
    cases hl : r.registry.consumeTid userId with
    | error e => simp [Rtl.exec, hl, bind, Except.bind] at hexec
    | ok q =>
      obtain ⟨found, g⟩ := q
      cases found with
      | none => simp [Rtl.exec, hl, bind, Except.bind] at hexec
      | some tid =>
        simp only [Rtl.exec, hl, bind, Except.bind, pure, Except.pure] at hexec
        cases hexec
        refine .clocks .refl rfl (fun _ _ => le_rfl) (Or.inr ⟨.consume userId, rfl, ?_⟩)
        simp [ThreadRegistry.step, hl, bind, Except.bind, pure, Except.pure]
  | joinThread tid =>
    obtain ⟨r₁, hl, hexec⟩ := ThreadRegistry.bind_eq_ok.mp hexec
    cases hexec
    exact does_joinThread hl
  | detachThread tid =>
    obtain ⟨r₁, hl, hexec⟩ := ThreadRegistry.bind_eq_ok.mp hexec
    cases hexec
    exact does_detachThread hl
  | ignoreSyncBegin =>
    cases hexec
    exact .clocks .refl rfl (fun hno => absurd rfl hno) (Or.inl rfl)
  | ignoreSyncEnd =>
    unfold Rtl.exec at hexec
    obtain ⟨-, hexec⟩ := ThreadRegistry.check_bind_eq_ok.mp hexec
    cases hexec
    refine .clocks .refl rfl (fun _ v => ?_) (Or.inl rfl)
    by_cases hv : v = t
    · subst hv
      simp
    · simp [hv]

theorem startThread_does (hok : r.startThread t = .ok r') :
    Emits (Within t (· = threadSync t) False True False) r.ops r'.ops ∧
    r'.metamap = r.metamap ∧ ∀ v, r'.ignoreSync v ≤ r.ignoreSync v := by
  obtain ⟨g, r₁, -, hr₁, rfl⟩ := startThread_eq_ok hok
  have hmap : r₁.metamap = r.metamap := by rw [hr₁]
  have hops : r₁.ops = r.ops := by rw [hr₁]
  refine ⟨?_, (metamap_clockOp _ _ _).trans hmap, fun v => ?_⟩
  · rw [← hops]
    exact (emits_acquireImpl trivial _).trans (emits_resetClock rfl)
  · refine (congrFun (ignoreSync_clockOp _ _ _) v).trans_le ?_
    rw [hr₁]
    by_cases hv : v = t
    · subst hv
      simp
    · simp [hv]

theorem finishThread_does (hok : r.finishThread t = .ok r') :
    Emits (Within t (fun _ => False) True False False) r.ops r'.ops ∧
    r'.metamap = r.metamap ∧ ∀ v, r'.ignoreSync v ≤ r.ignoreSync v := by
  obtain ⟨g, r₁, -, -, rfl, rfl⟩ := finishThread_eq_ok hok
  split_ifs
  · exact ⟨.refl, rfl, fun _ => le_rfl⟩
  · exact ⟨emits_releaseImpl (r := r.incrementEpoch t) trivial _, metamap_clockOp _ _ _,
      fun v => (congrFun (ignoreSync_clockOp _ _ _) v).le⟩

end Rtl

namespace Sys

/-- The step of a call that is done. -/
def stepOf (s : Sys) : Act → List RtlStep
  | .go t => (s.todo t).take 1
  | _ => []

/-- The steps that are done in a run. -/
def steps (s : Sys) : List Act → List RtlStep
  | [] => []
  | a :: acts =>
    match s.step a with
    | .ok s' => s.stepOf a ++ s'.steps acts
    | .error _ => []

variable {s s' : Sys} {acts : List Act} {a : Act} {t m p : ℕ}

/-- What may be logged by what happens next. -/
def MayLog (s : Sys) : Act → ClockOp → Prop
  | .start t => Within t (· = threadSync t) False True False
  | .call _ _ => fun _ => False
  | .go t => fun op => ∃ q ∈ s.stepOf (.go t), q.MayLog t op
  | .finish t => Within t (fun _ => False) True False False

theorem step_emits (hstep : s.step a = .ok s') : Emits (s.MayLog a) s.rtl.ops s'.rtl.ops := by
  cases a with
  | start t =>
    obtain ⟨r, hstart, rfl⟩ := start_eq_ok hstep
    exact (Rtl.startThread_does hstart).1
  | call t c =>
    obtain ⟨-, -, steps, -, rfl⟩ := call_eq_ok hstep
    exact .refl
  | go t =>
    obtain ⟨q, rest, r, more, htodo, hexec, rfl⟩ := go_eq_ok hstep
    exact (Rtl.exec_does hexec).emits.mono fun op hop => ⟨q, by simp [stepOf, htodo], hop⟩
  | finish t =>
    obtain ⟨-, -, r, hfinish, rfl⟩ := finish_eq_ok hstep
    exact (Rtl.finishThread_does hfinish).1

/-- A run adds operations. -/
theorem run_ops (hrun : s.run acts = .ok s') : ∃ more, s'.rtl.ops = s.rtl.ops ++ more := by
  induction acts generalizing s with
  | nil =>
    cases hrun
    exact ⟨[], by simp⟩
  | cons a acts ih =>
    obtain ⟨s₁, hstep, hrun⟩ := ThreadRegistry.bind_eq_ok.mp hrun
    obtain ⟨more, hmore, -⟩ := step_emits hstep
    obtain ⟨more', hmore'⟩ := ih hrun
    exact ⟨more ++ more', by rw [hmore', hmore, List.append_assoc]⟩

/-- The thread has printed something at the position. -/
def Prints (s : Sys) (t p : ℕ) : Prop := ∃ line, s.rtl.ops[p]? = some (.print line) ∧ line.tid = t

/-- What the thread has seen. -/
def Sees (s : Sys) (t p : ℕ) : Prop := Seen (s.rtl.ops.map ClockOp.sync) t p

theorem Prints.eventOf (h : s.Prints t p) : EventOf (s.rtl.ops.map ClockOp.sync) t p := by
  obtain ⟨line, hp, rfl⟩ := h
  exact ⟨.event line.tid, by rw [List.getElem?_map, hp]; rfl, rfl⟩

theorem Prints.sees (h : s.Prints t p) : s.Sees t p := h.eventOf.seen

/-- What a thread has seen comes before what it prints later. -/
theorem Sees.runsBefore (h : s.Sees t p) (hrun : s.run acts = .ok s') {q : ℕ} (hq : s'.Prints t q)
    (hlate : s.rtl.ops.length ≤ q) : RunsBefore s'.rtl.ops p q := by
  obtain ⟨more, hmore⟩ := run_ops hrun
  have hevent := hq.eventOf
  unfold RunsBefore
  rw [hmore, List.map_append] at hevent ⊢
  obtain ⟨op, hop, rfl⟩ := hevent
  exact Seen.before h ⟨_, hop, rfl⟩ (by simpa using hlate)

end Sys

end Prd.Runtime
