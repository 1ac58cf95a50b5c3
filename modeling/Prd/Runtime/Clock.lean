import Mathlib.Logic.Function.Basic
import Prd.Runtime.ThreadLines

/-!
# The clocks of threads and synchronization objects

A synchronization object keeps its vector in a table of elements that several objects
and a thread may share, and up to two entries beside it that override the table. Every
element remembers which thread has acquired the table. An empty object has no table.
-/
namespace Prd.Runtime

open Prd.Pycprd

/-- The registry numbers threads below this bound. -/
def kMaxTid : ℕ := 2 ^ 13 - 64

/-- The times fit their bit field, as those of `FastState` do. -/
structure ClockElem where
  epoch : ℕ
  reused : ℕ
  deriving DecidableEq, Repr

/-- A first-level block with the second-level blocks that it owns, in the order of `elem`. -/
structure ClockBlock where
  clock : ℕ → ClockElem
  ref : ℕ

/-- The memory for blocks. The index 0 is not used. -/
structure ClockAlloc where
  block : ℕ → ClockBlock
  freelist : List ℕ
  fillpos : ℕ

structure Dirty where
  tid : ℕ
  epoch : ℕ
  deriving DecidableEq, Repr

/-- The invalid tid is `none`, and so is an entry with it. -/
structure SyncClock where
  releaseStoreTid : Option ℕ
  releaseStoreReused : ℕ
  dirty₀ : Option Dirty
  dirty₁ : Option Dirty
  tabIdx : ℕ
  size : ℕ

structure ThreadClock where
  tid : ℕ
  reused : ℕ
  lastAcquire : ℕ
  globalAcquire : ℕ
  cachedIdx : ℕ
  cachedSize : ℕ
  /-- The number of active elements of `clk`; the rest is zeros. -/
  nclk : ℕ
  clk : ℕ → ℕ
  prdTrace : Bool

/-- A line of the trace: a call of one of the two logging functions, or what a thread prints. -/
inductive LogLine
  | epochInc (thread sourceEpoch targetEpoch : ℕ) (comment : PyStr)
  | happensBeforeEdge (sourceThread sourceEpoch targetThread targetEpoch : ℕ) (comment : PyStr)
  | event (line : Line)

/-- All clocks with the memory that they share, and the trace so far. -/
structure ClockState where
  alloc : ClockAlloc
  syncs : ℕ → SyncClock
  threads : ℕ → ThreadClock
  lines : List LogLine

def SyncClock.new : SyncClock := ⟨none, 0, none, none, 0, 0⟩

/-- The reuse count 0 has a special meaning. -/
def ThreadClock.new (tid reused : ℕ) (prdTrace : Bool) : ThreadClock :=
  ⟨tid, reused + 1, 0, 0, 0, 0, tid + 1, fun _ => 0, prdTrace⟩

namespace ClockAlloc

def new : ClockAlloc := ⟨fun _ => ⟨fun _ => ⟨0, 0⟩, 0⟩, [], 1⟩

def alloc (a : ClockAlloc) : ℕ × ClockAlloc :=
  match a.freelist with
  | idx :: rest => (idx, { a with freelist := rest })
  | [] => (a.fillpos, { a with fillpos := a.fillpos + 1 })

def free (a : ClockAlloc) (idx : ℕ) : ClockAlloc := { a with freelist := idx :: a.freelist }

end ClockAlloc

namespace ClockState

/-- No clock is used yet. Every thread id has a reuse count. -/
def new (reused : ℕ → ℕ) : ClockState :=
  ⟨.new, fun _ => .new, fun tid => .new tid (reused tid) true, []⟩

def setBlock (σ : ClockState) (idx : ℕ) (cb : ClockBlock) : ClockState :=
  { σ with alloc := { σ.alloc with block := Function.update σ.alloc.block idx cb } }

def setSync (σ : ClockState) (s : ℕ) (sync : SyncClock) : ClockState :=
  { σ with syncs := Function.update σ.syncs s sync }

def setThread (σ : ClockState) (t : ℕ) (thr : ThreadClock) : ClockState :=
  { σ with threads := Function.update σ.threads t thr }

def log (σ : ClockState) (line : LogLine) : ClockState := { σ with lines := σ.lines ++ [line] }

/-- The table of an object. -/
def tab (σ : ClockState) (s : ℕ) : ClockBlock := σ.alloc.block (σ.syncs s).tabIdx

def elem (σ : ClockState) (s tid : ℕ) : ClockElem := (σ.tab s).clock tid

/-- Runs over the elements of an object and replaces each of them. -/
def mapElems (σ : ClockState) (s : ℕ) (f : ℕ → ClockElem → ClockElem) : ClockState :=
  σ.setBlock (σ.syncs s).tabIdx { σ.tab s with
    clock := fun i => if i < (σ.syncs s).size then f i (σ.elem s i) else σ.elem s i }

def setElem (σ : ClockState) (s tid : ℕ) (ce : ClockElem) : ClockState :=
  σ.setBlock (σ.syncs s).tabIdx { σ.tab s with clock := Function.update (σ.tab s).clock tid ce }

/-- Drops a reference to a block. -/
def unrefClockBlock (σ : ClockState) (idx : ℕ) : Option ClockState :=
  let cb := σ.alloc.block idx
  if cb.ref = 0 then none
  else if cb.ref = 1 then some { σ with alloc := σ.alloc.free idx }
  else some (σ.setBlock idx { cb with ref := cb.ref - 1 })

section SyncClock

/-- `SyncClock::Reset` -/
def reset (σ : ClockState) (s : ℕ) : Option ClockState := do
  let σ ← (if (σ.syncs s).size ≠ 0 then σ.unrefClockBlock (σ.syncs s).tabIdx else some σ)
  some (σ.setSync s .new)

/-- The part of `Resize` after the clock is unshared. -/
def grow (σ : ClockState) (s nclk : ℕ) : ClockState :=
  let sync := σ.syncs s
  if sync.size = 0 ∧ 0 < nclk then
    let (idx, alloc) := σ.alloc.alloc
    let σ := { σ with alloc := alloc }
    let σ := σ.setBlock idx ⟨fun _ => ⟨0, 0⟩, 1⟩
    σ.setSync s { sync with tabIdx := idx, size := nclk }
  else σ.setSync s { sync with size := nclk }

def isShared (σ : ClockState) (s : ℕ) : Option Bool :=
  if (σ.syncs s).size = 0 then some false
  else if (σ.tab s).ref = 0 then none
  else some (decide (1 < (σ.tab s).ref))

/-- Shared clocks are immutable, so they are copied before any update. -/
def unshare (σ : ClockState) (s : ℕ) : Option ClockState := do
  if ← σ.isShared s then
    let old := σ.syncs s
    let σ := σ.setSync s .new
    let σ := σ.grow s old.size
    let σ := σ.mapElems s fun i _ => (σ.alloc.block old.tabIdx).clock i
    let σ := σ.setSync s { σ.syncs s with
      releaseStoreTid := old.releaseStoreTid
      releaseStoreReused := old.releaseStoreReused
      dirty₀ := old.dirty₀
      dirty₁ := old.dirty₁ }
    σ.unrefClockBlock old.tabIdx
  else some σ

def resize (σ : ClockState) (s nclk : ℕ) : Option ClockState := do
  let σ ← σ.unshare s
  some (σ.grow s nclk)

def flushEntry (σ : ClockState) (s : ℕ) : Option Dirty → Option ClockState
  | none => some σ
  | some dirty =>
    if dirty.tid < (σ.syncs s).size then
      some (σ.setElem s dirty.tid { σ.elem s dirty.tid with epoch := dirty.epoch })
    else none

/-- Flushes all dirty elements into the table. -/
def flushDirty (σ : ClockState) (s : ℕ) : Option ClockState := do
  let σ ← σ.flushEntry s (σ.syncs s).dirty₀
  let σ ← σ.flushEntry s (σ.syncs s).dirty₁
  some (σ.setSync s { σ.syncs s with dirty₀ := none, dirty₁ := none })

def cachable (σ : ClockState) (s : ℕ) : Bool :=
  (σ.syncs s).size != 0 && (σ.syncs s).dirty₀.isNone && (σ.syncs s).dirty₁.isNone &&
    (σ.tab s).ref == 1

end SyncClock

section ThreadClock

def resetCached (σ : ClockState) (t : ℕ) : Option ClockState := do
  let thr := σ.threads t
  if thr.cachedIdx ≠ 0 then
    let σ ← σ.unrefClockBlock thr.cachedIdx
    some (σ.setThread t { thr with cachedIdx := 0, cachedSize := 0 })
  else some σ

/-- `ThreadClock::set(u64)` -/
def set (σ : ClockState) (t v : ℕ) : ClockState :=
  let thr := σ.threads t
  let σ := if thr.prdTrace && thr.clk thr.tid != v then
      σ.log (.epochInc thr.tid (thr.clk thr.tid) v "ThreadClock::set(u64)".toList)
    else σ
  σ.setThread t { thr with clk := Function.update thr.clk thr.tid v }

/-- Takes an epoch over when it is new. The flag says whether anything has been acquired. -/
def acquireEpoch (t : ℕ) (comment : PyStr) (st : ClockState × Bool) (tid epoch : ℕ) :
    ClockState × Bool :=
  let (σ, _) := st
  let thr := σ.threads t
  if thr.clk tid < epoch then
    let σ := if thr.prdTrace && thr.tid != tid then
        σ.log (.happensBeforeEdge tid epoch thr.tid (thr.clk thr.tid) comment)
      else σ
    (σ.setThread t { thr with clk := Function.update thr.clk tid epoch }, true)
  else st

def acquireDirty (t : ℕ) (st : ClockState × Bool) : Option Dirty → ClockState × Bool
  | none => st
  | some dirty => acquireEpoch t "ThreadClock::acquire 1".toList st dirty.tid dirty.epoch

/-- The loop over the first `nclk` elements. -/
def acquireElems (t s : ℕ) (st : ClockState × Bool) : ℕ → ClockState × Bool
  | 0 => st
  | i + 1 =>
    let st := acquireElems t s st i
    acquireEpoch t "ThreadClock::acquire 2 (full)".toList st i (st.1.elem s i).epoch

/-- The acquisition of the whole table. -/
def acquireFull (t s : ℕ) (st : ClockState × Bool) : ClockState × Bool :=
  let (σ, acquired) := st
  let nclk := (σ.syncs s).size
  let thr := σ.threads t
  let σ := σ.setThread t { thr with nclk := max thr.nclk nclk }
  let (σ, acquired) := acquireElems t s (σ, acquired) nclk
  if thr.tid < nclk then (σ.setElem s thr.tid { σ.elem s thr.tid with reused := thr.reused },
    acquired)
  else (σ, acquired)

def acquire (σ : ClockState) (t s : ℕ) : Option ClockState :=
  let sync := σ.syncs s
  if sync.size = 0 then some σ
  else
    let st := acquireDirty t (acquireDirty t (σ, false) sync.dirty₀) sync.dirty₁
    let thr := st.1.threads t
    let st :=
      if sync.size ≤ thr.tid || (st.1.elem s thr.tid).reused != thr.reused then acquireFull t s st
      else st
    if st.2 then
      let thr := st.1.threads t
      (st.1.setThread t { thr with lastAcquire := thr.clk thr.tid }).resetCached t
    else some st.1

/-- The entry is no newer than what the thread knows. -/
def knowsEntry (thr : ThreadClock) : Option Dirty → Bool
  | none => true
  | some dirty => decide (dirty.epoch ≤ thr.clk dirty.tid)

/-- Whether the thread has already acquired the object. -/
def isAlreadyAcquired (σ : ClockState) (t s : ℕ) : Bool :=
  let thr := σ.threads t
  (σ.elem s thr.tid).reused == thr.reused && knowsEntry thr (σ.syncs s).dirty₀ &&
    knowsEntry thr (σ.syncs s).dirty₁

/-- Whether the thread has acquired anything after releasing to the object. -/
def hasAcquiredAfterRelease (σ : ClockState) (t s : ℕ) : Bool :=
  let thr := σ.threads t
  let myEpoch := (σ.elem s thr.tid).epoch
  decide (myEpoch ≤ thr.lastAcquire) || decide (myEpoch ≤ thr.globalAcquire)

/-- The O(N) part of `UpdateCurrentThread`, which resets all flags. -/
def updateTable (σ : ClockState) (t s : ℕ) : Option ClockState := do
  let thr := σ.threads t
  let σ ← σ.unshare s
  let σ := σ.setElem s thr.tid { σ.elem s thr.tid with epoch := thr.clk thr.tid }
  let σ := σ.mapElems s fun _ ce => { ce with reused := 0 }
  σ.flushDirty s

/-- Updates the element of the thread only. -/
def updateCurrentThread (σ : ClockState) (t s : ℕ) : Option ClockState :=
  let thr := σ.threads t
  let sync := σ.syncs s
  let entry := some ⟨thr.tid, thr.clk thr.tid⟩
  if sync.dirty₀.all (·.tid == thr.tid) then some (σ.setSync s { sync with dirty₀ := entry })
  else if sync.dirty₁.all (·.tid == thr.tid) then some (σ.setSync s { sync with dirty₁ := entry })
  else σ.updateTable t s

/-- `Resize`, where the object is too small for the thread. -/
def makeRoom (σ : ClockState) (t s : ℕ) : Option ClockState :=
  if (σ.syncs s).size < (σ.threads t).nclk then σ.resize s (σ.threads t).nclk else some σ

/-- An empty object takes the cached table of the thread. -/
def reuseCached (σ : ClockState) (t s : ℕ) : Option ClockState :=
  let thr := σ.threads t
  let sync := σ.syncs s
  if sync.dirty₀.isSome then none
  else
    let σ := σ.setSync s { sync with
      tabIdx := thr.cachedIdx
      size := thr.cachedSize
      dirty₀ := some ⟨thr.tid, thr.clk thr.tid⟩
      releaseStoreTid := some thr.tid
      releaseStoreReused := thr.reused }
    let σ := σ.setElem s thr.tid { σ.elem s thr.tid with reused := thr.reused }
    some (σ.setBlock thr.cachedIdx { σ.tab s with ref := (σ.tab s).ref + 1 })

/-- Caches the table of the object for later releases. -/
def cacheTab (σ : ClockState) (t s : ℕ) : ClockState :=
  let thr := σ.threads t
  let sync := σ.syncs s
  if thr.cachedIdx == 0 && σ.cachable s then
    let σ := σ.setBlock sync.tabIdx { σ.tab s with ref := (σ.tab s).ref + 1 }
    σ.setThread t { thr with cachedIdx := sync.tabIdx, cachedSize := sync.size }
  else σ

/-- The O(N) release-store, up to the caching of the table. -/
def storeAll (σ : ClockState) (t s : ℕ) : Option ClockState := do
  let thr := σ.threads t
  let σ ← σ.unshare s
  let σ := σ.mapElems s fun i _ => ⟨thr.clk i, 0⟩
  let σ := σ.setSync s { σ.syncs s with
    dirty₀ := none
    dirty₁ := none
    releaseStoreTid := some thr.tid
    releaseStoreReused := thr.reused }
  some (σ.setElem s thr.tid { σ.elem s thr.tid with reused := thr.reused })

def releaseStore (σ : ClockState) (t s : ℕ) : Option ClockState :=
  if (σ.syncs s).size = 0 ∧ (σ.threads t).cachedIdx ≠ 0 then σ.reuseCached t s
  else do
    let σ ← σ.makeRoom t s
    let thr := σ.threads t
    let sync := σ.syncs s
    if sync.releaseStoreTid = some thr.tid ∧ sync.releaseStoreReused = thr.reused ∧
        σ.hasAcquiredAfterRelease t s = false then
      σ.updateCurrentThread t s
    else
      let σ ← σ.storeAll t s
      some (σ.cacheTab t s)

/-- The O(1) release, which may leave the object with what one thread has released. -/
def releaseOwn (σ : ClockState) (t s : ℕ) : Option ClockState := do
  let thr := σ.threads t
  let σ ← σ.updateCurrentThread t s
  let sync := σ.syncs s
  if sync.releaseStoreTid ≠ some thr.tid ∨ sync.releaseStoreReused ≠ thr.reused then
    some (σ.setSync s { sync with releaseStoreTid := none })
  else some σ

/-- The O(N) release. -/
def releaseAll (σ : ClockState) (t s : ℕ) : Option ClockState := do
  let thr := σ.threads t
  let σ ← σ.unshare s
  let acquired := σ.isAlreadyAcquired t s
  let σ ← σ.flushDirty s
  let σ := σ.mapElems s fun i ce => ⟨max ce.epoch (thr.clk i), 0⟩
  let σ := σ.setSync s { σ.syncs s with releaseStoreTid := none, releaseStoreReused := 0 }
  if acquired then some (σ.setElem s thr.tid { σ.elem s thr.tid with reused := thr.reused })
  else some σ

def release (σ : ClockState) (t s : ℕ) : Option ClockState :=
  if (σ.syncs s).size = 0 then σ.releaseStore t s
  else do
    let σ ← σ.makeRoom t s
    if σ.hasAcquiredAfterRelease t s = false then σ.releaseOwn t s else σ.releaseAll t s

def acqRel (σ : ClockState) (t s : ℕ) : Option ClockState := do
  let σ ← σ.acquire t s
  σ.releaseStore t s

end ThreadClock

end ClockState

end Prd.Runtime
