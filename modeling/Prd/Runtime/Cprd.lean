import Prd.Pycprd.Basic

/-!
# The tracing hooks of the runtime

Accesses to persistent memory are printed at once and numbered by thread. The lines
of flushes are kept in a buffer and printed at the next fence of the thread.
-/
namespace Prd.Runtime

/-- The line size of x86-64. -/
def kCacheLineSize : ℕ := 64

theorem kCacheLineSize_ne_zero : kCacheLineSize ≠ 0 := by decide

/-- `x & ~(boundary - 1)` on 64-bit words. -/
def roundDown (x boundary : ℕ) : ℕ := x &&& (2 ^ 64 - 1 - (boundary - 1))

/-- The mask of a line clears the offset in it. -/
theorem roundDown_eq {a : ℕ} (ha : a < 2 ^ 64) : roundDown a kCacheLineSize = 64 * (a / 64) := by
  have hmask : 2 ^ 64 - 1 - (kCacheLineSize - 1) = (2 ^ 58 - 1) <<< 6 := rfl
  unfold roundDown
  rw [hmask, Pycprd.and_mask_eq]
  omega

/-- An access as the instrumentation splits it: it never leaves an 8-byte cell. -/
structure Access where
  pc : ℕ
  addr : ℕ
  accessSizeLog : ℕ
  isWrite : Bool
  isAtomic : Bool
  isNonTemporal : Bool
  addr_lt : addr < 2 ^ 64
  cell : addr % 8 + 2 ^ accessSizeLog ≤ 8

structure PMRegion where
  start : ℕ
  stop : ℕ
  deriving DecidableEq, Inhabited, Repr

def PMRegion.contains (r : PMRegion) (addr : ℕ) : Bool := decide (r.start ≤ addr ∧ addr < r.stop)

def isPmAddress (regions : List PMRegion) (addr : ℕ) : Bool := regions.any (·.contains addr)

/-- The printed events; a FLUSH is printed with the line size. -/
inductive Event
  | access (eventId : ℕ) (a : Access)
  | flush (pc addr : ℕ)

/-- The parts of the thread state that the hooks use. -/
structure ThreadState where
  flushesCache : List ℕ
  eventCounter : ℕ

namespace ThreadState

def new : ThreadState := ⟨[], 0⟩

def instrumentMemoryAccess (thr : ThreadState) (regions : List PMRegion) (a : Access) :
    List Event × ThreadState :=
  if isPmAddress regions a.addr then
    ([.access thr.eventCounter a], { thr with eventCounter := thr.eventCounter + 1 })
  else ([], thr)

def instrumentFlush (thr : ThreadState) (addr : ℕ) : ThreadState :=
  { thr with flushesCache := thr.flushesCache ++ [roundDown addr kCacheLineSize] }

def instrumentFence (thr : ThreadState) (pc : ℕ) : List Event × ThreadState :=
  (thr.flushesCache.map (.flush pc), { thr with flushesCache := [] })

end ThreadState

end Prd.Runtime
