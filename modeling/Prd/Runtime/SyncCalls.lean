import Prd.Runtime.AccessPieces
import Prd.Runtime.ClockRuns
import Prd.Runtime.ThreadRegistry

/-!
# Calls of the instrumented program

The program and the interceptors call the runtime. A call is a few steps: it moves the epoch of
its thread on, it traces an access, or it works on a synchronization object while it holds the
lock of the object. The steps of different threads come in any order.
-/
namespace Prd.Runtime

inductive MemoryOrder
  | relaxed
  | consume
  | acquire
  | release
  | acqRel
  | seqCst
  deriving DecidableEq

namespace MemoryOrder

def isLoadOrder (mo : MemoryOrder) : Bool :=
  mo = .relaxed ∨ mo = .consume ∨ mo = .acquire ∨ mo = .seqCst

def isStoreOrder (mo : MemoryOrder) : Bool := mo = .relaxed ∨ mo = .release ∨ mo = .seqCst

def isReleaseOrder (mo : MemoryOrder) : Bool := mo = .release ∨ mo = .acqRel ∨ mo = .seqCst

def isAcquireOrder (mo : MemoryOrder) : Bool :=
  mo = .consume ∨ mo = .acquire ∨ mo = .acqRel ∨ mo = .seqCst

def isAcqRelOrder (mo : MemoryOrder) : Bool := mo = .acqRel ∨ mo = .seqCst

end MemoryOrder

def mutexFlagLinkerInit : ℕ := 1 <<< 0
def mutexFlagWriteReentrant : ℕ := 1 <<< 1
def mutexFlagReadReentrant : ℕ := 1 <<< 2
def mutexFlagRecursiveLock : ℕ := 1 <<< 6
def mutexFlagRecursiveUnlock : ℕ := 1 <<< 7
def mutexFlagNotStatic : ℕ := 1 <<< 8

def mutexCreationFlagMask : ℕ :=
  mutexFlagLinkerInit ||| mutexFlagWriteReentrant ||| mutexFlagReadReentrant ||| mutexFlagNotStatic

/-- What a synchronization object knows of a mutex. Its two clocks are among the
objects of the clocks. -/
structure SyncVar where
  ownerTid : Option ℕ
  recursion : ℕ
  flags : ℕ
  deriving DecidableEq

namespace SyncVar

def new : SyncVar := ⟨none, 0, 0⟩

def isFlagSet (s : SyncVar) (f : ℕ) : Bool := s.flags &&& f ≠ 0

def setFlags (s : SyncVar) (f : ℕ) : SyncVar := { s with flags := s.flags ||| f }

def updateFlags (s : SyncVar) (flagz : ℕ) : SyncVar :=
  if flagz &&& mutexCreationFlagMask = 0 then s
  else if s.flags &&& mutexCreationFlagMask ≠ 0 then s
  else s.setFlags (flagz &&& mutexCreationFlagMask)

end SyncVar

/-- The clocks of the object at an address, and that of a thread. -/
def clockOf (addr : ℕ) : ℕ := 3 * addr
def readClockOf (addr : ℕ) : ℕ := 3 * addr + 1
def threadSync (tid : ℕ) : ℕ := 3 * tid + 2

def kTracePartSize : ℕ := 1 <<< 13

def roundUp (x boundary : ℕ) : ℕ := (x + boundary - 1) / boundary * boundary

/-- A part of a shadow cell that is accessed. -/
structure CellPart where
  addr : ℕ
  sizeLog : ℕ
  addr_lt : addr < 2 ^ 64
  sizeLog_le : sizeLog ≤ 3
  fits : addr % kShadowCell + 2 ^ sizeLog ≤ kShadowCell

theorem isAppMem_lt {addr : ℕ} (h : isAppMem addr = true) : addr < 2 ^ 64 := by
  have := of_decide_eq_true h
  omega

def CellPart.byte (addr : ℕ) (h : addr < 2 ^ 64) : CellPart :=
  ⟨addr, 0, h, Nat.zero_le 3, by unfold kShadowCell; omega⟩

/-- The parts that an access is split into. -/
def Tiles.parts {pieces : List (ℕ × ℕ)} {addr size : ℕ} (h : Tiles pieces addr size)
    (hlt : addr + size ≤ 2 ^ 64) : List CellPart :=
  pieces.pmap
  (fun p hp => ⟨p.1, p.2, (h.le_of_mem hp).trans_le hlt, (h.fits p hp).1, (h.fits p hp).2⟩)
    fun _ hp => hp

/-- The access stays in one cell. -/
def ThreadOp.FitsCell : ThreadOp → Prop
  | .access _ a _ _ _ => a.addr % kShadowCell + 2 ^ a.accessSizeLog ≤ kShadowCell
  | _ => True

/-- What the runtime finds at an access: whether the shadow has it already, the regions, the
labels and the stack. -/
structure Site where
  dropped : Bool
  regions : List PMRegion
  table : LabelTable
  labelContent : DfsanLabel
  labelAddress : DfsanLabel
  pc : ℕ
  trace : List ℕ
  pc_lt : pc < 2 ^ 64
  trace_ne_nil : trace ≠ []
  trace_length : trace.length ≤ kStackTraceMax
  trace_lt : ∀ pc ∈ trace, pc < 2 ^ 64

def Site.op (s : Site) (p : CellPart) (isWrite isAtomic isNonTemporal : Bool) : ThreadOp :=
  .access s.regions ⟨s.pc, p.addr, p.sizeLog, isWrite, isAtomic, isNonTemporal, s.trace, s.pc_lt,
    p.addr_lt, p.sizeLog_le, s.trace_ne_nil, s.trace_length, s.trace_lt⟩ s.table s.labelContent
    s.labelAddress

/-- The steps of the calls. Each of them is done under one lock. -/
inductive RtlStep
  | incrementEpoch
  | hook (op : ThreadOp) (fits : op.FitsCell)
  | print (line : Line)
  | acquire (addr : ℕ)
  | release (addr : ℕ)
  | releaseStore (addr : ℕ)
  | atomicRMW (addr : ℕ) (mo : MemoryOrder)
  | mutexCreate (addr flagz : ℕ)
  | mutexDestroy (addr flagz : ℕ) (s : Site)
  | mutexPostLock (addr flagz depth : ℕ)
  | mutexUnlock (addr flagz : ℕ)
  | mutexPostReadLock (addr flagz : ℕ)
  | mutexReadUnlock (addr : ℕ)
  | mutexReadOrWriteUnlock (addr : ℕ)
  | mutexRepair (addr : ℕ)
  | freeRange (addr size : ℕ)
  | createThread (userId : ℕ) (detached : Bool)
  | waitStarted (tid : ℕ)
  | consumeTid (userId : ℕ) (detach : Bool)
  | joinThread (tid : ℕ)
  | detachThread (tid : ℕ)
  | ignoreSyncBegin
  | ignoreSyncEnd

namespace Site

/-- `MemoryAccess`. -/
def memoryAccess (s : Site) (p : CellPart) (isWrite isAtomic isNonTemporal : Bool) : List RtlStep :=
  if s.dropped then []
  else [.incrementEpoch, .hook (s.op p isWrite isAtomic isNonTemporal) p.fits]

/-- The access to the first byte of a mutex, when the program may access it. -/
def mutexAccess (s : Site) (addr : ℕ) (isWrite isAtomic : Bool) : List RtlStep :=
  if h : isAppMem addr = true then
    s.memoryAccess (.byte addr (isAppMem_lt h)) isWrite isAtomic false
  else []

/-- One of the accesses of `MemoryAccessRange`, which share an epoch. -/
def rangeAccess (s : Site) (p : CellPart) (isWrite : Bool) : List RtlStep :=
  if s.dropped then [] else [.hook (s.op p isWrite false false) p.fits]

end Site

/-- `MemoryAccessRange`, with what is found at each of the accesses. -/
def rangeSteps (ignored : Bool) (site : CellPart → Site) (addr size : ℕ) (h : addr + size ≤ 2 ^ 64)
    (isWrite : Bool) : List RtlStep :=
  if size = 0 ∨ ignored then []
  else .incrementEpoch :: ((memoryAccessRange_tiles addr size).parts h).flatMap fun p =>
    (site p).rangeAccess p isWrite

structure Rtl where
  registry : ThreadRegistry
  epoch : ℕ → ℕ
  epoch1 : ℕ → ℕ
  ignoreSync : ℕ → ℕ
  printing : ℕ → PrintingThread
  metamap : ℕ → Option SyncVar
  ops : List ClockOp

namespace Rtl

def incrementEpoch (r : Rtl) (t : ℕ) : Rtl :=
  { r with epoch := Function.update r.epoch t (r.epoch t + 1) }

/-- The common part of `AcquireImpl`, `ReleaseImpl`, `ReleaseStoreImpl` and `AcquireReleaseImpl`. -/
def clockOp (r : Rtl) (t : ℕ) (op : ClockOp) : Rtl :=
  if 0 < r.ignoreSync t then r else { r with ops := r.ops ++ [.set t (r.epoch t), op] }

def acquireImpl (r : Rtl) (t s : ℕ) : Rtl := r.clockOp t (.acquire t s)
def releaseImpl (r : Rtl) (t s : ℕ) : Rtl := r.clockOp t (.release t s)
def releaseStoreImpl (r : Rtl) (t s : ℕ) : Rtl := r.clockOp t (.releaseStore t s)
def acquireReleaseImpl (r : Rtl) (t s : ℕ) : Rtl := r.clockOp t (.acqRel t s)

/-- `SyncClock::Reset`. -/
def resetClock (r : Rtl) (s : ℕ) : Rtl := { r with ops := r.ops ++ [.reset s] }

def getOrCreate (r : Rtl) (addr : ℕ) : SyncVar := (r.metamap addr).getD .new

def setVar (r : Rtl) (addr : ℕ) (s : Option SyncVar) : Rtl :=
  { r with metamap := Function.update r.metamap addr s }

/-- `SyncVar::Reset` without the fields. -/
def resetVar (r : Rtl) (addr : ℕ) : Rtl :=
    (r.resetClock (clockOf addr)).resetClock (readClockOf addr)

/-- What the access, the flush or the fence prints, line by line. -/
def hook (r : Rtl) (t : ℕ) (op : ThreadOp) : Except Stop (Rtl × List Line) :=
  match (r.printing t).step t op with
  | none => .error .checkFailed
  | some (lines, s) => .ok ({ r with printing := Function.update r.printing t s }, lines)

def atomicRMW (r : Rtl) (t addr : ℕ) (mo : MemoryOrder) : Rtl :=
  let r := (r.setVar addr (some (r.getOrCreate addr))).incrementEpoch t
  if mo.isAcqRelOrder then r.acquireReleaseImpl t (clockOf addr)
  else if mo.isReleaseOrder then r.releaseImpl t (clockOf addr)
  else if mo.isAcquireOrder then r.acquireImpl t (clockOf addr)
  else r

/-- The part of `MutexDestroy` up to the write, and whether the write follows. -/
def mutexDestroy (r : Rtl) (addr flagz : ℕ) : Rtl × Bool :=
  match r.metamap addr with
  | none => (r, false)
  | some s =>
    if flagz &&& mutexFlagLinkerInit ≠ 0 ∨ s.isFlagSet mutexFlagLinkerInit ∨
        (flagz &&& mutexFlagNotStatic ≠ 0 ∧ ¬ s.isFlagSet mutexFlagNotStatic) then (r, false)
    else ((r.resetVar addr).setVar addr (some .new), true)

def mutexPostLock (r : Rtl) (t addr flagz depth : ℕ) : Except Stop Rtl := do
  let depth := if flagz &&& mutexFlagRecursiveLock ≠ 0 then depth else 1
  check (0 < depth)
  let s := (r.getOrCreate addr).updateFlags flagz
  let r := r.incrementEpoch t
  let s ← match s.ownerTid with
    | none => do
      check (s.recursion = 0)
      pure { s with ownerTid := some t }
    | some owner => do
      -- A lock that another thread holds is only reported.
      check (owner = t → 0 < s.recursion)
      pure s
  let r := r.setVar addr (some { s with recursion := s.recursion + depth })
  if s.recursion = 0 then pure ((r.acquireImpl t (clockOf addr)).acquireImpl t (readClockOf addr))
  else pure r

def mutexUnlock (r : Rtl) (t addr flagz : ℕ) : Rtl :=
  let s := r.getOrCreate addr
  let r := r.incrementEpoch t
  if s.recursion = 0 ∨ s.ownerTid ≠ some t then r.setVar addr (some s)
  else
    let depth := if flagz &&& mutexFlagRecursiveUnlock ≠ 0 then s.recursion else 1
    if s.recursion - depth = 0 then
      (r.setVar addr (some { s with recursion := 0, ownerTid := none })).releaseStoreImpl t
      (clockOf addr)
    else r.setVar addr (some { s with recursion := s.recursion - depth })

def mutexPostReadLock (r : Rtl) (t addr flagz : ℕ) : Rtl :=
  let s := (r.getOrCreate addr).updateFlags flagz
  ((r.setVar addr (some s)).incrementEpoch t).acquireImpl t (clockOf addr)

def mutexReadUnlock (r : Rtl) (t addr : ℕ) : Rtl :=
  ((r.setVar addr (some (r.getOrCreate addr))).incrementEpoch t).releaseImpl t (readClockOf addr)

def mutexReadOrWriteUnlock (r : Rtl) (t addr : ℕ) : Except Stop Rtl := do
  let s := r.getOrCreate addr
  let r := r.setVar addr (some s)
  match s.ownerTid with
  | none => pure ((r.incrementEpoch t).releaseImpl t (readClockOf addr))
  | some owner =>
    if owner = t then do
      let r := r.incrementEpoch t
      check (0 < s.recursion)
      if s.recursion - 1 = 0 then
        pure ((r.setVar addr (some { s with recursion := 0, ownerTid := none })).releaseStoreImpl t
          (clockOf addr))
      else pure (r.setVar addr (some { s with recursion := s.recursion - 1 }))
    else pure r

def mutexRepair (r : Rtl) (addr : ℕ) : Rtl :=
  r.setVar addr (some { r.getOrCreate addr with ownerTid := none, recursion := 0 })

/-- An object is destroyed with the memory that it is in. -/
def freeVar (r : Rtl) (addr : ℕ) : Rtl :=
  match r.metamap addr with
  | none => r
  | some _ => (r.resetVar addr).setVar addr none

def freeRange (r : Rtl) (addr size : ℕ) : Rtl :=
  (List.range size).foldl (fun r i => r.freeVar (addr + i)) r

/-- `ThreadCreate` with `ThreadContext::OnCreated`. -/
def createThread (r : Rtl) (t userId : ℕ) (detached : Bool) : Except Stop (ℕ × Rtl) := do
  let (tid, g) ← r.registry.createThread userId detached t
  let r := { r with registry := g }
  if tid = 0 then pure (tid, r) else pure (tid, (r.incrementEpoch t).releaseImpl t (threadSync tid))

/-- `ThreadStart` with `ThreadContext::OnStarted`. The clock of a thread id that has run before
would be a new one, which it is not here: results on runs are about runs that start no thread id
twice. -/
def startThread (r : Rtl) (tid : ℕ) : Except Stop Rtl := do
  let g ← r.registry.startThread tid
  let r := { r with
    registry := g
    epoch := Function.update r.epoch tid (roundUp (r.epoch1 tid + 1) kTracePartSize)
    epoch1 := Function.update r.epoch1 tid (2 ^ 64 - 1)
    ignoreSync := Function.update r.ignoreSync tid 0
    printing := Function.update r.printing tid .new }
  pure ((r.acquireImpl tid (threadSync tid)).resetClock (threadSync tid))

/-- `ThreadFinish` with `ThreadContext::OnFinished`. -/
def finishThread (r : Rtl) (t : ℕ) : Except Stop Rtl := do
  check (r.ignoreSync t = 0)
  let g ← r.registry.finishThread t
  let r := if (r.registry.threads t).detached then r
    else (r.incrementEpoch t).releaseImpl t (threadSync t)
  pure { r with
    registry := g
    epoch1 := Function.update r.epoch1 t (r.epoch t) }

/-- `ThreadJoin` with `ThreadContext::OnJoined`. -/
def joinThread (r : Rtl) (t tid : ℕ) : Except Stop Rtl := do
  check (0 < tid)
  check (tid < kMaxTid)
  let g ← r.registry.joinThread tid
  if (r.registry.threads tid).status = .invalid then pure r
  else pure (({ r with registry := g }.acquireImpl t (threadSync tid)).resetClock (threadSync tid))

/-- `ThreadDetach` with `ThreadContext::OnDetached`. -/
def detachThread (r : Rtl) (tid : ℕ) : Except Stop Rtl := do
  check (0 < tid)
  check (tid < kMaxTid)
  let g ← r.registry.detachThread tid
  if (r.registry.threads tid).status = .invalid then pure r
  else pure ({ r with registry := g }.resetClock (threadSync tid))

/-- A step and what its call has to do next because of it. -/
def exec (r : Rtl) (t : ℕ) : RtlStep → Except Stop (Rtl × List RtlStep)
  | .incrementEpoch => .ok (r.incrementEpoch t, [])
  | .hook op _ => do
    let (r, lines) ← r.hook t op
    pure (r, lines.map .print)
  | .print line => .ok ({ r with ops := r.ops ++ [.print line] }, [])
  | .acquire addr =>
    if 0 < r.ignoreSync t ∨ r.metamap addr = none then .ok (r, [])
    else .ok (r.acquireImpl t (clockOf addr), [])
  | .release addr =>
    if 0 < r.ignoreSync t then .ok (r, [])
    else
      let r := (r.setVar addr (some (r.getOrCreate addr))).incrementEpoch t
      .ok (r.releaseImpl t (clockOf addr), [])
  | .releaseStore addr =>
    if 0 < r.ignoreSync t then .ok (r, [])
    else
      let r := (r.setVar addr (some (r.getOrCreate addr))).incrementEpoch t
      .ok (r.releaseStoreImpl t (clockOf addr), [])
  | .atomicRMW addr mo => .ok (r.atomicRMW t addr mo, [])
  | .mutexCreate addr flagz =>
    .ok (r.setVar addr (some ((r.getOrCreate addr).setFlags (flagz &&& mutexCreationFlagMask))), [])
  | .mutexDestroy addr flagz s =>
    let (r, writes) := r.mutexDestroy addr flagz
    .ok (r, if writes then s.mutexAccess addr true false else [])
  | .mutexPostLock addr flagz depth => do pure (← r.mutexPostLock t addr flagz depth, [])
  | .mutexUnlock addr flagz => .ok (r.mutexUnlock t addr flagz, [])
  | .mutexPostReadLock addr flagz => .ok (r.mutexPostReadLock t addr flagz, [])
  | .mutexReadUnlock addr => .ok (r.mutexReadUnlock t addr, [])
  | .mutexReadOrWriteUnlock addr => do pure (← r.mutexReadOrWriteUnlock t addr, [])
  | .mutexRepair addr => .ok (r.mutexRepair addr, [])
  | .freeRange addr size => .ok (r.freeRange addr size, [])
  | .createThread userId detached => do
    let (tid, r) ← r.createThread t userId detached
    check (tid ≠ 0)
    pure (r, [.waitStarted tid])
  | .waitStarted tid =>
    if (r.registry.threads tid).status = .created then .error .waits else .ok (r, [])
  | .consumeTid userId detach => do
    let (found, g) ← r.registry.consumeTid userId
    match found with
    | none => .error .checkFailed
    | some tid =>
      pure ({ r with registry := g }, [if detach then .detachThread tid else .joinThread tid])
  | .joinThread tid => do pure (← r.joinThread t tid, [])
  | .detachThread tid => do pure (← r.detachThread tid, [])
  | .ignoreSyncBegin =>
    .ok ({ r with ignoreSync := Function.update r.ignoreSync t (r.ignoreSync t + 1) }, [])
  | .ignoreSyncEnd => do
    check (0 < r.ignoreSync t)
    pure ({ r with ignoreSync := Function.update r.ignoreSync t (r.ignoreSync t - 1) }, [])

end Rtl

/-- The bodies of the interceptors. -/
inductive Interceptor
  | mutexInit (addr flagz : ℕ) (s : Site)
  | mutexDestroy (addr flagz : ℕ) (s : Site)
  | mutexLock (addr flagz depth : ℕ) (ownerDied : Bool) (s : Site)
  | mutexUnlock (addr flagz : ℕ) (s : Site)
  | readLock (addr flagz : ℕ) (s : Site)
  | readUnlock (addr : ℕ) (s : Site)
  | rwlockUnlock (addr : ℕ) (s : Site)
  | condWait (cond addr : ℕ) (h : cond + 8 ≤ 2 ^ 64) (ignored ownerDied : Bool)
    (site : CellPart → Site) (s s' : Site)
  | guardAcquire (addr : ℕ)
  | guardRelease (addr : ℕ)
  | malloc (ignored : Bool)
  | free (addr size : ℕ) (h : addr + min size 1024 ≤ 2 ^ 64) (ignored : Bool)
    (site : CellPart → Site)
  | pthreadCreate (userId : ℕ) (detached : Bool)
  | pthreadJoin (userId : ℕ)
  | pthreadDetach (userId : ℕ)
  | ignoreSyncBegin
  | ignoreSyncEnd

namespace Interceptor

def lockSteps (addr flagz depth : ℕ) (ownerDied : Bool) (s : Site) : List RtlStep :=
  (if ownerDied then [.mutexRepair addr] else []) ++ s.mutexAccess addr false true ++
    [.mutexPostLock addr flagz depth]

def unlockSteps (addr flagz : ℕ) (s : Site) : List RtlStep :=
  s.mutexAccess addr false true ++ [.mutexUnlock addr flagz]

def steps : Interceptor → List RtlStep
  | mutexInit addr flagz s =>
    (if flagz &&& mutexFlagLinkerInit = 0 then s.mutexAccess addr true false else []) ++
      [.mutexCreate addr flagz]
  | mutexDestroy addr flagz s => [.mutexDestroy addr flagz s]
  | mutexLock addr flagz depth ownerDied s => lockSteps addr flagz depth ownerDied s
  | mutexUnlock addr flagz s => unlockSteps addr flagz s
  | readLock addr flagz s => s.mutexAccess addr false true ++ [.mutexPostReadLock addr flagz]
  | readUnlock addr s => s.mutexAccess addr false true ++ [.mutexReadUnlock addr]
  | rwlockUnlock addr s => s.mutexAccess addr false true ++ [.mutexReadOrWriteUnlock addr]
  | condWait cond addr h ignored ownerDied site s s' =>
    rangeSteps ignored site cond 8 h false ++ unlockSteps addr 0 s ++ lockSteps addr 0 1 ownerDied
    s'
  | guardAcquire addr => [.acquire addr]
  | guardRelease addr => [.release addr]
  | malloc ignored => if ignored then [] else [.incrementEpoch]
  | free addr size h ignored site =>
    .freeRange addr size ::
      if ignored then [] else rangeSteps false site addr (min size 1024) h true ++ [.incrementEpoch]
  | pthreadCreate userId detached => [.createThread userId detached]
  | pthreadJoin userId => [.consumeTid userId false]
  | pthreadDetach userId => [.consumeTid userId true]
  | ignoreSyncBegin => [.ignoreSyncBegin]
  | ignoreSyncEnd => [.ignoreSyncEnd]

end Interceptor

/-- What a thread may call. -/
inductive RtlCall
  | funcEntry
  | funcExit
  | memoryAccess (s : Site) (p : CellPart) (isWrite isNonTemporal : Bool)
  | unalignedAccess (site : CellPart → Site) (addr size : ℕ) (h : addr + size ≤ 2 ^ 64)
    (isWrite : Bool)
  | memoryAccessRange (ignored : Bool) (site : CellPart → Site) (addr size : ℕ)
    (h : addr + size ≤ 2 ^ 64) (isWrite : Bool)
  | flush (addr : ℕ) (h : addr < 2 ^ 64)
  | fence (pc : ℕ) (h : pc < 2 ^ 64)
  | atomicLoad (s : Site) (p : CellPart) (mo : MemoryOrder)
  | atomicStore (s : Site) (p : CellPart) (mo : MemoryOrder)
  | atomicRMW (s : Site) (p : CellPart) (mo : MemoryOrder)
  | intercepted (i : Interceptor)

namespace RtlCall

/-- `FuncEntry` and `FuncExit` around the steps. -/
def inScope (steps : List RtlStep) : List RtlStep := .incrementEpoch :: steps ++ [.incrementEpoch]

/-- The steps of a call of a thread, which ignores synchronization or does not. -/
def steps (ignoreSync : Bool) : RtlCall → Except Stop (List RtlStep)
  | funcEntry => .ok [.incrementEpoch]
  | funcExit => .ok [.incrementEpoch]
  | memoryAccess s p isWrite isNonTemporal => .ok (s.memoryAccess p isWrite false isNonTemporal)
  | unalignedAccess site addr size h isWrite =>
    .ok (((unalignedMemoryAccess_tiles addr size).parts h).flatMap fun p =>
      (site p).memoryAccess p isWrite false false)
  | memoryAccessRange ignored site addr size h isWrite =>
    .ok (rangeSteps ignored site addr size h isWrite)
  | flush addr h => .ok [.hook (.flush addr h) trivial]
  | fence pc h => .ok [.hook (.fence pc h) trivial]
  | atomicLoad s p mo =>
    if ignoreSync then .ok []
    else do
      check mo.isLoadOrder
      pure (inScope ((if mo.isAcquireOrder then [.acquire p.addr] else []) ++
        s.memoryAccess p false true false))
  | atomicStore s p mo =>
    if ignoreSync then .ok []
    else do
      check mo.isStoreOrder
      pure (inScope (s.memoryAccess p true true false ++
        if mo.isReleaseOrder then [.releaseStore p.addr] else []))
  | atomicRMW s p mo =>
    if ignoreSync then .ok []
    else .ok (inScope (s.memoryAccess p true true false ++
      if mo ≠ .relaxed then [.atomicRMW p.addr mo] else []))
  | intercepted i => .ok (inScope i.steps)

end RtlCall

/-- The runtime, what each thread still has to do for its call, and the threads that run. -/
structure Sys where
  rtl : Rtl
  todo : ℕ → List RtlStep
  live : ℕ → Bool

/-- What happens next: the operating system starts a thread, a thread calls the runtime, does the
next step of its call, or ends. -/
inductive Act
  | start (tid : ℕ)
  | call (t : ℕ) (c : RtlCall)
  | go (t : ℕ)
  | finish (t : ℕ)

/-- The thread that is started. -/
def Act.started : Act → Option ℕ
  | start tid => some tid
  | _ => none

namespace Sys

/-- The main thread is created, and no thread runs. -/
def new : Sys :=
  ⟨⟨match (ThreadRegistry.new kMaxTid kThreadQuarantineSize kMaxTidReuse).createThread 0 true 0 with
    | .ok (_, g) => g
    | .error _ => .new kMaxTid kThreadQuarantineSize kMaxTidReuse,
    fun _ => 0, fun _ => 0, fun _ => 0, fun _ => .new, fun _ => none, []⟩, fun _ => [],
      fun _ => false⟩

def step (s : Sys) : Act → Except Stop Sys
  | .start tid => do
    let r ← s.rtl.startThread tid
    pure { s with
      rtl := r
      live := Function.update s.live tid true }
  | .call t c =>
    if s.live t ∧ (s.todo t).isEmpty then do
      let steps ← c.steps (0 < s.rtl.ignoreSync t)
      pure { s with todo := Function.update s.todo t steps }
    else .error .waits
  | .go t =>
    match s.todo t with
    | [] => .error .waits
    | p :: rest => do
      let (r, more) ← s.rtl.exec t p
      pure { s with
        rtl := r
        todo := Function.update s.todo t (more ++ rest) }
  | .finish t =>
    if s.live t ∧ (s.todo t).isEmpty then do
      let r ← s.rtl.finishThread t
      pure { s with
        rtl := r
        live := Function.update s.live t false }
    else .error .waits

def run (s : Sys) : List Act → Except Stop Sys
  | [] => .ok s
  | a :: acts => do
    let s ← s.step a
    s.run acts

end Sys

end Prd.Runtime
