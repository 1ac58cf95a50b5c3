import Mathlib.Data.List.Induction
import Mathlib.Data.Nat.Bitwise
import Mathlib.Tactic.Common
import Prd.Runtime.Cprd

/-!
# Accesses that reach the tracing hook

An access is compared with the four shadow values of its cell before it is traced.
It is dropped when its thread made the same access, or wrote what it now reads,
since the last release of the thread. Flushes and fences do not take part in this.
-/
namespace Prd.Runtime

section Shadow

def kShadowCell : ℕ := 8
def kShadowCnt : ℕ := 4
def kAppMemMsk : ℕ := 0x780000000000
def kAppMemXor : ℕ := 0x040000000000

/-- The address ranges of the program on x86-64: heap, middle, low and high. -/
def isAppMem (mem : ℕ) : Bool :=
  decide (0x7b0000000000 ≤ mem ∧ mem < 0x7c0000000000 ∨
    0x550000000000 ≤ mem ∧ mem < 0x568000000000 ∨
    0x000000001000 ≤ mem ∧ mem < 0x008000000000 ∨
    0x7e8000000000 ≤ mem ∧ mem < 0x800000000000)

def memToShadow (x : ℕ) : ℕ :=
  ((x &&& (2 ^ 64 - 1 - (kAppMemMsk ||| (kShadowCell - 1)))) ^^^ kAppMemXor) * kShadowCnt

/-- The mask keeps the number of the cell modulo `2 ^ 40`. -/
theorem and_appMask_eq {x : ℕ} (hx : x < 2 ^ 47) :
    x &&& (2 ^ 64 - 1 - (kAppMemMsk ||| (kShadowCell - 1))) = 8 * (x / 8 % 2 ^ 40) := by
  have hlow : x &&& (2 ^ 47 - 1) = x := by rw [Nat.and_two_pow_sub_one_eq_mod, Nat.mod_eq_of_lt hx]
  have hmask : (2 ^ 47 - 1) &&& (2 ^ 64 - 1 - (kAppMemMsk ||| (kShadowCell - 1))) =
      (2 ^ 40 - 1) <<< 3 := by decide
  conv_lhs => rw [← hlow]
  rw [Nat.and_assoc, hmask]
  exact Pycprd.and_mask_eq x 40 3

/-- Different cells of the program have different shadows. -/
theorem memToShadow_inj {a b : ℕ} (ha : isAppMem a = true) (hb : isAppMem b = true)
    (h : memToShadow a = memToShadow b) : a / 8 = b / 8 := by
  have ha' := of_decide_eq_true ha
  have hb' := of_decide_eq_true hb
  have hxor := Nat.eq_of_mul_eq_mul_right (by decide : 0 < kShadowCnt) h
  rw [Nat.xor_left_inj, and_appMask_eq (by omega), and_appMask_eq (by omega)] at hxor
  omega

/-- A shadow value. -/
structure Shadow where
  freed : Bool
  tid : ℕ
  isAtomic : Bool
  isRead : Bool
  sizeLog : ℕ
  addr0 : ℕ
  epoch : ℕ
  deriving DecidableEq

/-- The marker of read-only data has all its bits set. -/
def kShadowRodata : Shadow := ⟨true, 2 ^ 13 - 1, true, true, 3, 7, 2 ^ 42 - 1⟩

def Shadow.addr0AndSizeAreEqual (s1 s2 : Shadow) : Bool :=
  s1.addr0 == s2.addr0 && s1.sizeLog == s2.sizeLog

def containsSameAccessSlow (s : ℕ → Shadow) (cur : Shadow) (syncEpoch : ℕ) : Bool :=
  (List.range kShadowCnt).any fun i =>
    let old := s i
    cur.addr0AndSizeAreEqual old && (old.freed == cur.freed && old.tid == cur.tid) &&
      decide (syncEpoch < old.epoch) && old.isAtomic == cur.isAtomic && (!old.isRead || cur.isRead)

/-- The upper 32 bits of a shadow value: all but the lower 32 bits of the epoch. -/
def Shadow.high (s : Shadow) : Bool × ℕ × Bool × Bool × ℕ × ℕ × ℕ :=
  (s.freed, s.tid, s.isAtomic, s.isRead, s.sizeLog, s.addr0, s.epoch / 2 ^ 32)

/-- A 32-bit word as a signed number. -/
def toInt32 (x : ℕ) : ℤ := if x % 2 ^ 32 < 2 ^ 31 then x % 2 ^ 32 else x % 2 ^ 32 - 2 ^ 32

/-- The version with vector instructions compares words of 32 bits, the lower ones as signed. -/
def containsSameAccessFast (s : ℕ → Shadow) (cur : Shadow) (syncEpoch : ℕ) (isWrite : Bool) :
    Bool :=
  (List.range kShadowCnt).any fun i =>
    let addr := if isWrite then s i else { s i with isRead := true }
    cur.high == addr.high && decide (toInt32 syncEpoch < toInt32 (s i).epoch)

/-- Builds for processors with SSE3 use the fast version. -/
def containsSameAccess (sse3 : Bool) (s : ℕ → Shadow) (cur : Shadow) (syncEpoch : ℕ)
    (isWrite : Bool) : Bool :=
  if sse3 then containsSameAccessFast s cur syncEpoch isWrite
  else containsSameAccessSlow s cur syncEpoch

/-- What an access has in common with the one that makes it superfluous. -/
structure Shadow.Covers (old cur : Shadow) (syncEpoch : ℕ) : Prop where
  freed : old.freed = cur.freed
  tid : old.tid = cur.tid
  isAtomic : old.isAtomic = cur.isAtomic
  isRead : old.isRead = true → cur.isRead = true
  sizeLog : old.sizeLog = cur.sizeLog
  addr0 : old.addr0 = cur.addr0
  epoch : syncEpoch < old.epoch

/-- Both versions find a value that covers the access; the fast one needs the sign of the lower
word of the synchronization epoch to be clear. -/
theorem covers_of_containsSameAccess {sse3 : Bool} {s : ℕ → Shadow} {cur : Shadow}
    {syncEpoch : ℕ} {isWrite : Bool} (hread : cur.isRead = !isWrite)
    (hsync : syncEpoch ≤ cur.epoch) (hsign : sse3 = true → syncEpoch % 2 ^ 32 < 2 ^ 31)
    (h : containsSameAccess sse3 s cur syncEpoch isWrite = true) :
    ∃ i, (s i).Covers cur syncEpoch := by
  unfold containsSameAccess at h
  cases sse3 with
  | false =>
    obtain ⟨i, -, hi⟩ := List.any_eq_true.mp h
    simp only [Shadow.addr0AndSizeAreEqual, Bool.and_eq_true, beq_iff_eq, decide_eq_true_eq,
      Bool.or_eq_true, Bool.not_eq_true'] at hi
    obtain ⟨⟨⟨⟨⟨h0, hs⟩, hf, ht⟩, he⟩, ha⟩, hr⟩ := hi
    refine ⟨i, hf, ht, ha, fun hold => ?_, hs.symm, h0.symm, he⟩
    exact hr.resolve_left (by rw [hold]; exact Bool.noConfusion)
  | true =>
    obtain ⟨i, -, hi⟩ := List.any_eq_true.mp h
    obtain ⟨hhigh, hlow⟩ := Bool.and_eq_true_iff.mp hi
    have hhigh := beq_iff_eq.mp hhigh
    have hlow := of_decide_eq_true hlow
    have hepoch : cur.epoch / 2 ^ 32 = (s i).epoch / 2 ^ 32 → syncEpoch < (s i).epoch := by
      intro hdiv
      have hlt := hsign rfl
      unfold toInt32 at hlow
      rw [if_pos hlt] at hlow
      split_ifs at hlow with hold
      · omega
      · omega
    cases isWrite with
    | true =>
      simp only [Shadow.high, if_true, Prod.mk.injEq] at hhigh
      obtain ⟨hf, ht, ha, hr, hs, h0, he⟩ := hhigh
      exact ⟨i, hf.symm, ht.symm, ha.symm, fun hold => hr.trans hold, hs.symm, h0.symm, hepoch he⟩
    | false =>
      simp only [Shadow.high, Bool.false_eq_true, if_false, Prod.mk.injEq] at hhigh
      obtain ⟨hf, ht, ha, -, hs, h0, he⟩ := hhigh
      exact ⟨i, hf.symm, ht.symm, ha.symm, fun _ => hread, hs.symm, h0.symm, hepoch he⟩

end Shadow

/-- The parts of the thread state that decide whether an access is traced. -/
structure FastState where
  tid : ℕ
  ignoreBit : Bool
  epoch : ℕ

def FastState.incrementEpoch (s : FastState) : FastState := { s with epoch := s.epoch + 1 }

/-- The shadow value of an access by the thread at its present epoch. -/
def FastState.shadow (s : FastState) (a : Access) : Shadow :=
  ⟨s.ignoreBit, s.tid, a.isAtomic, !a.isWrite, a.accessSizeLog, a.addr % 8, s.epoch⟩

inductive SyncOp
  | acquire
  | release
  | releaseStore
  | releaseStoreAcquire
  | acquireRelease
  deriving DecidableEq

/-- All but an acquire make the present epoch the synchronization epoch. -/
def SyncOp.isRelease : SyncOp → Bool
  | .acquire => false
  | _ => true

structure MemoryState where
  fastState : FastState
  fastSynchEpoch : ℕ
  shadow : ℕ → ℕ → Shadow
  cprd : ThreadState

/-- What one thread calls; the epoch is also counted up by calls that trace no access. -/
inductive Call
  | memoryAccess (a : Access) (isAppMem : isAppMem a.addr = true)
  | memoryFlushAccess (addr : ℕ)
  | memoryFenceAccess (pc : ℕ)
  | incrementEpoch
  | sync (op : SyncOp)

namespace MemoryState

/-- The access is dropped before it reaches the hook. -/
def suppresses (sse3 : Bool) (s : MemoryState) (a : Access) : Bool :=
  let shadowMem := s.shadow (memToShadow a.addr)
  (!a.isWrite && shadowMem 0 == kShadowRodata) || s.fastState.ignoreBit ||
    containsSameAccess sse3 shadowMem (s.fastState.shadow a) s.fastSynchEpoch a.isWrite

def setShadow (s : MemoryState) (cell slot : ℕ) (value : Shadow) : MemoryState :=
  { s with shadow := Function.update s.shadow cell (Function.update (s.shadow cell) slot value) }

def memoryAccess (sse3 : Bool) (regions : List PMRegion) (s : MemoryState) (a : Access) :
    List Event × MemoryState :=
  if s.suppresses sse3 a then ([], s)
  else
    let fastState := s.fastState.incrementEpoch
    let (events, cprd) := s.cprd.instrumentMemoryAccess regions a
    let s := { s with fastState := fastState, cprd := cprd }
    (events, s.setShadow (memToShadow a.addr) (fastState.epoch % kShadowCnt) (fastState.shadow a))

def call (sse3 : Bool) (regions : List PMRegion) (s : MemoryState) : Call → List Event × MemoryState
  | .memoryAccess a _ => s.memoryAccess sse3 regions a
  | .memoryFlushAccess addr => ([], { s with cprd := s.cprd.instrumentFlush addr })
  | .memoryFenceAccess pc =>
    let (events, cprd) := s.cprd.instrumentFence pc
    (events, { s with cprd := cprd })
  | .incrementEpoch => ([], { s with fastState := s.fastState.incrementEpoch })
  | .sync op =>
    ([], if op.isRelease then { s with fastSynchEpoch := s.fastState.epoch } else s)

/-- The state after some calls. -/
def after (sse3 : Bool) (regions : List PMRegion) (s : MemoryState) (calls : List Call) :
    MemoryState :=
  calls.foldl (fun s c => (s.call sse3 regions c).2) s

/-- What the call at the position prints. -/
def printedAt (sse3 : Bool) (regions : List PMRegion) (s : MemoryState) (calls : List Call)
    (k : ℕ) : List Event :=
  match calls[k]? with
  | some c => ((s.after sse3 regions (calls.take k)).call sse3 regions c).1
  | none => []

/-- The state of a thread that has just started, on memory that is not read-only: the values that
carry its id are from earlier threads. -/
structure Started (s : MemoryState) : Prop where
  ignoreBit : s.fastState.ignoreBit = false
  fastSynchEpoch : s.fastSynchEpoch = s.fastState.epoch
  earlier : ∀ cell slot, (s.shadow cell slot).freed = false →
    (s.shadow cell slot).tid = s.fastState.tid → (s.shadow cell slot).epoch ≤ s.fastState.epoch
  notRodata : ∀ cell slot, s.shadow cell slot ≠ kShadowRodata

end MemoryState

/-- The call at the position makes a new synchronization epoch. -/
def ReleaseAt (calls : List Call) (k : ℕ) : Prop :=
  ∃ op, calls[k]? = some (.sync op) ∧ op.isRelease = true

/-- The two accesses are of one kind, or the first is a write and the second a read. -/
structure Access.Stands (a a' : Access) : Prop where
  addr : a.addr = a'.addr
  accessSizeLog : a.accessSizeLog = a'.accessSizeLog
  isAtomic : a.isAtomic = a'.isAtomic
  kind : a.isWrite = a'.isWrite ∨ a.isWrite = true

namespace MemoryState

variable (sse3 : Bool) (regions : List PMRegion) (start : MemoryState)

/-- The access at the position gets as far as the hook. -/
def HookedAt (calls : List Call) (k : ℕ) (a : Access) : Prop :=
  (∃ h, calls[k]? = some (.memoryAccess a h)) ∧
    (start.after sse3 regions (calls.take k)).suppresses sse3 a = false

/-- A value that the thread wrote since its last release belongs to an access that got as far
as the hook, with no release after it. -/
structure Remembers (calls : List Call) (s : MemoryState) : Prop where
  ignoreBit : s.fastState.ignoreBit = false
  synched : s.fastSynchEpoch ≤ s.fastState.epoch
  notRodata : ∀ cell slot, s.shadow cell slot ≠ kShadowRodata
  past : ∀ cell slot, (s.shadow cell slot).freed = false →
    (s.shadow cell slot).tid = s.fastState.tid → (s.shadow cell slot).epoch ≤ s.fastState.epoch
  hooked : ∀ cell slot, (s.shadow cell slot).freed = false →
    (s.shadow cell slot).tid = s.fastState.tid → s.fastSynchEpoch < (s.shadow cell slot).epoch →
    ∃ k a, HookedAt sse3 regions start calls k a ∧ isAppMem a.addr = true ∧
      memToShadow a.addr = cell ∧
      s.shadow cell slot =
        { s.fastState.shadow a with epoch := (s.shadow cell slot).epoch } ∧
      ∀ m, k < m → ¬ ReleaseAt calls m

variable {sse3 : Bool} {regions : List PMRegion} {start : MemoryState}

theorem after_append_singleton (calls : List Call) (c : Call) :
    start.after sse3 regions (calls ++ [c]) =
      ((start.after sse3 regions calls).call sse3 regions c).2 := by
  simp [after]

theorem remembers_start (h : start.Started) : Remembers sse3 regions start [] start where
  ignoreBit := h.ignoreBit
  synched := h.fastSynchEpoch.le
  notRodata := h.notRodata
  past := h.earlier
  hooked := by
    intro cell slot hf ht hlt
    rw [h.fastSynchEpoch] at hlt
    exact absurd (h.earlier cell slot hf ht) (not_le.mpr hlt)

theorem HookedAt.append {calls : List Call} {k : ℕ} {a : Access}
    (h : HookedAt sse3 regions start calls k a) (c : Call) :
    HookedAt sse3 regions start (calls ++ [c]) k a := by
  obtain ⟨⟨happ, hk⟩, hs⟩ := h
  have hlt := (List.getElem?_eq_some_iff.mp hk).1
  refine ⟨⟨happ, ?_⟩, ?_⟩
  · rw [List.getElem?_append_left hlt, hk]
  · rwa [List.take_append_of_le_length hlt.le]

theorem releaseAt_append {calls : List Call} {c : Call} {m : ℕ} :
    ReleaseAt (calls ++ [c]) m ↔ ReleaseAt calls m ∨
      m = calls.length ∧ ∃ op, c = .sync op ∧ op.isRelease = true := by
  unfold ReleaseAt
  rcases lt_trichotomy m calls.length with hlt | rfl | hgt
  · rw [List.getElem?_append_left hlt]
    refine (or_iff_left ?_).symm
    rintro ⟨rfl, -⟩
    exact lt_irrefl _ hlt
  · simp
  · have hnone : (calls ++ [c])[m]? = none := by
      rw [List.getElem?_eq_none_iff, List.length_append, List.length_singleton]
      exact hgt
    have hnone' : calls[m]? = none := List.getElem?_eq_none_iff.mpr hgt.le
    simp [hnone, hnone', hgt.ne']

section Step

variable {calls : List Call} {s s' : MemoryState} {c : Call}

/-- A call that writes no shadow value and is no release. -/
theorem Remembers.idle (h : Remembers sse3 regions start calls s)
    (hc : ∀ op, c = .sync op → op.isRelease = false) (hshadow : s'.shadow = s.shadow)
    (hsynch : s'.fastSynchEpoch = s.fastSynchEpoch) (htid : s'.fastState.tid = s.fastState.tid)
    (hignore : s'.fastState.ignoreBit = s.fastState.ignoreBit)
    (hepoch : s.fastState.epoch ≤ s'.fastState.epoch) :
    Remembers sse3 regions start (calls ++ [c]) s' where
  ignoreBit := hignore.trans h.ignoreBit
  synched := hsynch ▸ h.synched.trans hepoch
  notRodata := hshadow ▸ h.notRodata
  past := by
    intro cell slot hf ht
    rw [hshadow] at hf ht ⊢
    exact (h.past cell slot hf (ht.trans htid)).trans hepoch
  hooked := by
    intro cell slot hf ht hlt
    rw [hshadow] at hf ht hlt ⊢
    obtain ⟨k, a, hk, happ, hcell, hvalue, hno⟩ :=
      h.hooked cell slot hf (ht.trans htid) (hsynch ▸ hlt)
    refine ⟨k, a, hk.append c, happ, hcell, ?_, fun m hkm hm => ?_⟩
    · rw [hvalue]
      unfold FastState.shadow
      rw [htid, hignore]
    · rcases releaseAt_append.mp hm with hm | ⟨-, op, rfl, hop⟩
      · exact hno m hkm hm
      · rw [hc op rfl] at hop
        cases hop

theorem Remembers.release (h : Remembers sse3 regions start calls s) (op : SyncOp) :
    Remembers sse3 regions start (calls ++ [.sync op])
      { s with fastSynchEpoch := s.fastState.epoch } where
  ignoreBit := h.ignoreBit
  synched := le_rfl
  notRodata := h.notRodata
  past := h.past
  hooked := fun cell slot hf ht hlt => absurd (h.past cell slot hf ht) (not_le.mpr hlt)

/-- The value of an access that is traced takes one of the slots of its cell. -/
theorem Remembers.store (h : Remembers sse3 regions start calls s) {a : Access}
    (happ : isAppMem a.addr = true) (hs : s = start.after sse3 regions calls)
    (hno : s.suppresses sse3 a = false) (cprd : ThreadState) (slot : ℕ) :
    Remembers sse3 regions start (calls ++ [.memoryAccess a happ])
      ({ s with fastState := s.fastState.incrementEpoch, cprd := cprd }.setShadow
        (memToShadow a.addr) slot (s.fastState.incrementEpoch.shadow a)) := by
  have hcalls : ∀ m, ReleaseAt (calls ++ [.memoryAccess a happ]) m → ReleaseAt calls m := by
    intro m hm
    rcases releaseAt_append.mp hm with hm | ⟨-, op, hc, -⟩
    · exact hm
    · cases hc
  -- every value is the new one or one that was there before
  have hvalue :
    ∀ cell i, ({ s with fastState := s.fastState.incrementEpoch, cprd := cprd }.setShadow
      (memToShadow a.addr) slot (s.fastState.incrementEpoch.shadow a)).shadow cell i =
        if cell = memToShadow a.addr ∧ i = slot then s.fastState.incrementEpoch.shadow a
        else s.shadow cell i := by
    intro cell i
    unfold setShadow
    by_cases hcell : cell = memToShadow a.addr
    · subst hcell
      by_cases hi : i = slot
      · subst hi
        simp
      · simp [hi]
    · simp [hcell]
  refine ⟨h.ignoreBit, h.synched.trans (Nat.le_succ _), ?_, ?_, ?_⟩
  · intro cell i
    rw [hvalue]
    split_ifs
    · intro he
      have hfreed := congrArg Shadow.freed he
      exact absurd (h.ignoreBit.symm.trans hfreed) Bool.noConfusion
    · exact h.notRodata cell i
  · intro cell i hf ht
    rw [hvalue] at hf ht ⊢
    split_ifs at hf ht ⊢ with hnew
    · exact le_rfl
    · exact (h.past cell i hf ht).trans (Nat.le_succ _)
  · intro cell i hf ht hlt
    rw [hvalue] at hf ht hlt ⊢
    split_ifs at hf ht hlt ⊢ with hnew
    · refine ⟨calls.length, a, ⟨⟨happ, by simp⟩, ?_⟩, happ, hnew.1.symm, rfl, fun m hm hrel => ?_⟩
      · rw [List.take_left', ← hs]
        · exact hno
        · rfl
      · obtain ⟨op, hop, -⟩ := hcalls m hrel
        have hm' := (List.getElem?_eq_some_iff.mp hop).1
        omega
    · obtain ⟨k, a', hk, happ', hcell, hval, hnone⟩ := h.hooked cell i hf ht hlt
      exact ⟨k, a', hk.append _, happ', hcell, hval, fun m hkm hm => hnone m hkm (hcalls m hm)⟩

theorem Remembers.call (h : Remembers sse3 regions start calls s)
    (hs : s = start.after sse3 regions calls) (c : Call) :
    Remembers sse3 regions start (calls ++ [c]) (s.call sse3 regions c).2 := by
  cases c with
  | memoryAccess a happ =>
    show Remembers sse3 regions start _ (s.memoryAccess sse3 regions a).2
    unfold memoryAccess
    split_ifs with hsup
    · exact h.idle (fun op hc => nomatch hc) rfl rfl rfl rfl le_rfl
    · exact h.store happ hs (Bool.not_eq_true _ ▸ hsup) _ _
  | memoryFlushAccess addr => exact h.idle (fun op hc => nomatch hc) rfl rfl rfl rfl le_rfl
  | memoryFenceAccess pc => exact h.idle (fun op hc => nomatch hc) rfl rfl rfl rfl le_rfl
  | incrementEpoch => exact h.idle (fun op hc => nomatch hc) rfl rfl rfl rfl (Nat.le_succ _)
  | sync op =>
    show Remembers sse3 regions start _ (if op.isRelease then _ else s)
    split_ifs with hop
    · exact h.release op
    · refine h.idle (fun op' hc => ?_) rfl rfl rfl rfl le_rfl
      cases hc
      exact Bool.not_eq_true _ ▸ hop

end Step

/-- The invariant after any run of a thread. -/
theorem remembers_after (h : start.Started) (calls : List Call) :
    Remembers sse3 regions start calls (start.after sse3 regions calls) := by
  induction calls using List.reverseRecOn with
  | nil => exact remembers_start h
  | append_singleton calls c ih =>
    rw [after_append_singleton]
    exact ih.call rfl c

/-- The run up to a position within a run. -/
theorem HookedAt.of_take {calls : List Call} {j k : ℕ} {a : Access}
    (h : HookedAt sse3 regions start (calls.take j) k a) :
    k < j ∧ HookedAt sse3 regions start calls k a := by
  obtain ⟨⟨happ, hk⟩, hs⟩ := h
  have hlt := (List.getElem?_eq_some_iff.mp hk).1
  rw [List.length_take] at hlt
  have hkj : k < j := by omega
  rw [List.getElem?_take_of_lt hkj] at hk
  rw [List.take_take, min_eq_left hkj.le] at hs
  exact ⟨hkj, ⟨happ, hk⟩, hs⟩

/-- An access of persistent memory that gets as far as the hook is printed. -/
theorem HookedAt.printed {calls : List Call} {k : ℕ} {a : Access}
    (h : HookedAt sse3 regions start calls k a) (hpm : isPmAddress regions a.addr = true) :
    ∃ id, .access id a ∈ start.printedAt sse3 regions calls k := by
  obtain ⟨⟨happ, hk⟩, hs⟩ := h
  refine ⟨(start.after sse3 regions (calls.take k)).cprd.eventCounter, ?_⟩
  simp [printedAt, hk, call, memoryAccess, hs, ThreadState.instrumentMemoryAccess, hpm]

/-- A call of an access of persistent memory is printed, or the same access, or a write of what
it reads, was printed since the last release of the thread. -/
theorem access_printed_or_stands (h : start.Started) (calls : List Call) {j : ℕ} {a : Access}
    {happ : isAppMem a.addr = true} (hj : calls[j]? = some (.memoryAccess a happ))
    (hpm : isPmAddress regions a.addr = true)
    (hsign : sse3 = true →
      (start.after sse3 regions (calls.take j)).fastSynchEpoch % 2 ^ 32 < 2 ^ 31) :
    (∃ id, .access id a ∈ start.printedAt sse3 regions calls j) ∨
      ∃ k < j, ∃ id a', .access id a' ∈ start.printedAt sse3 regions calls k ∧ a'.Stands a ∧
        ∀ m, k < m → m < j → ¬ ReleaseAt calls m := by
  have hrem : Remembers sse3 regions start (calls.take j)
    (start.after sse3 regions (calls.take j)) := remembers_after h _
  cases hsup : (start.after sse3 regions (calls.take j)).suppresses sse3 a with
  | false => exact Or.inl (HookedAt.printed ⟨⟨happ, hj⟩, hsup⟩ hpm)
  | true =>
    right
    simp only [suppresses, hrem.ignoreBit, beq_eq_false_iff_ne.mpr (hrem.notRodata _ _),
      Bool.and_false, Bool.or_self, Bool.false_or] at hsup
    obtain ⟨i, hcov⟩ := covers_of_containsSameAccess rfl hrem.synched hsign hsup
    obtain ⟨k, a', hk, happ', hcell, hvalue, hno⟩ :=
      hrem.hooked _ i (hcov.freed.trans hrem.ignoreBit) hcov.tid hcov.epoch
    obtain ⟨hkj, hk⟩ := hk.of_take
    have hatomic := hcov.isAtomic
    have hread := hcov.isRead
    have hsize := hcov.sizeLog
    have haddr0 := hcov.addr0
    rw [hvalue] at hatomic hread hsize haddr0
    have haddr : a'.addr = a.addr := by
      have hdiv := memToShadow_inj happ' happ hcell
      have hmod : a'.addr % 8 = a.addr % 8 := haddr0
      omega
    obtain ⟨id, hid⟩ := hk.printed (haddr ▸ hpm)
    refine ⟨k, hkj, id, a', hid, ⟨haddr, hsize, hatomic, ?_⟩, fun m hkm hmj hm => ?_⟩
    · cases hw : a'.isWrite with
      | true => exact Or.inr rfl
      | false =>
        have hr : (!a.isWrite) = true := hread (by simp [FastState.shadow, hw])
        exact Or.inl (by simpa using hr.symm)
    · refine hno m hkm ?_
      obtain ⟨op, hop, hrel⟩ := hm
      exact ⟨op, by rw [List.getElem?_take_of_lt hmj, hop], hrel⟩

section Samples

/-- Thread 1 has just started on untouched memory. -/
def startedThread : MemoryState where
  fastState := ⟨1, false, 64⟩
  fastSynchEpoch := 64
  shadow := fun _ _ => ⟨false, 0, false, false, 0, 0, 0⟩
  cprd := .new

theorem startedThread_started : startedThread.Started where
  ignoreBit := rfl
  fastSynchEpoch := rfl
  earlier := fun _ _ _ _ => Nat.zero_le _
  notRodata := fun _ _ h => Bool.noConfusion (congrArg Shadow.freed h)

def sampleStore : Access := ⟨0, 0x2000, 3, true, false, false, by decide, by decide⟩

def sampleLoad : Access := { sampleStore with isWrite := false }

/-- A store that is repeated after its line was flushed and fenced, and a load of what it stored. -/
def repeatedStore : List Call :=
  [.memoryAccess sampleStore rfl, .memoryFlushAccess 0x2000, .memoryFenceAccess 0,
    .memoryAccess sampleStore rfl, .memoryAccess sampleLoad rfl]

theorem access_printed_or_stands_load :
    (∃ id, .access id sampleLoad ∈ startedThread.printedAt false [⟨0x2000, 0x3000⟩] repeatedStore 4)
      ∨ ∃ k < 4, ∃ id a', .access id a' ∈
          startedThread.printedAt false [⟨0x2000, 0x3000⟩] repeatedStore k ∧ a'.Stands sampleLoad ∧
        ∀ m, k < m → m < 4 → ¬ ReleaseAt repeatedStore m :=
  have happ : isAppMem sampleLoad.addr = true := rfl
  have hj : repeatedStore[4]? = some (.memoryAccess sampleLoad happ) := rfl
  access_printed_or_stands startedThread_started repeatedStore hj rfl (fun h => nomatch h)

/-- An access is printed, or one of its kind was printed after the last FLUSH of its line. -/
def IsKept (sse3 : Bool) (regions : List PMRegion) (start : MemoryState) (calls : List Call) (j : ℕ)
    (a : Access) : Prop :=
  (∃ id, .access id a ∈ start.printedAt sse3 regions calls j) ∨
    ∃ k < j, ∃ id a', .access id a' ∈ start.printedAt sse3 regions calls k ∧ a'.Stands a ∧
      a'.isWrite = a.isWrite ∧ ∀ m < j, ∀ pc,
        .flush pc (roundDown a.addr kCacheLineSize) ∈ start.printedAt sse3 regions calls m → m < k

/-- Nothing is printed after the FLUSH: not the repeated store, and not the load. -/
theorem repeated_store_not_printed :
    startedThread.Started ∧ repeatedStore[3]? = some (.memoryAccess sampleStore rfl) ∧
      isPmAddress [⟨0x2000, 0x3000⟩] sampleStore.addr = true ∧
      ¬ IsKept false [⟨0x2000, 0x3000⟩] startedThread repeatedStore 3 sampleStore ∧
      ¬ IsKept false [⟨0x2000, 0x3000⟩] startedThread repeatedStore 4 sampleLoad := by
  have hfirst : ∀ k < 5, k ≠ 0 → ∀ id a,
      .access id a ∉ startedThread.printedAt false [⟨0x2000, 0x3000⟩] repeatedStore k := by
    intro k hk h0 id a ha
    have hcases : k = 1 ∨ k = 2 ∨ k = 3 ∨ k = 4 := by omega
    rcases hcases with rfl | rfl | rfl | rfl
    · cases ha
    · cases List.mem_singleton.mp ha
    · cases ha
    · cases ha
  have hflush : .flush 0 (roundDown sampleStore.addr kCacheLineSize) ∈
      startedThread.printedAt false [⟨0x2000, 0x3000⟩] repeatedStore 2 := List.mem_singleton.mpr rfl
  refine ⟨startedThread_started, rfl, rfl, ?_, ?_⟩
  · rintro (⟨id, hid⟩ | ⟨k, hk, id, a, hid, -, -, hlast⟩)
    · exact hfirst 3 (by omega) (by omega) id _ hid
    · have hk2 := hlast 2 (by omega) 0 hflush
      exact hfirst k (by omega) (by omega) id a hid
  · rintro (⟨id, hid⟩ | ⟨k, hk, id, a, hid, -, -, hlast⟩)
    · exact hfirst 4 (by omega) (by omega) id _ hid
    · have hk2 := hlast 2 (by omega) 0 hflush
      exact hfirst k (by omega) (by omega) id a hid

end Samples

end MemoryState

end Prd.Runtime
