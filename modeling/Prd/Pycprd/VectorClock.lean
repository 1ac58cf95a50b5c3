import Prd.Foundation.Dict
import Prd.Pycprd.Basic
import Mathlib.Order.Lattice.Nat
import Mathlib.Order.OrderDual
import Mathlib.Order.WithBot

/-!
# Vector clocks

One implementation serves both epoch classes: a clock over any linear order whose
least element is the epoch class called without an argument. Reading a missing
component leaves a default entry behind, so a query also returns the clock.
-/
namespace Prd.Pycprd

open Prd.Foundation

/-- `Epoch(None)` is minus infinity. -/
abbrev Epoch := WithBot ℕ

/-- `ReversedEpoch(None)` is infinity, and the comparisons are turned round. -/
abbrev ReversedEpoch := (WithTop ℕ)ᵒᵈ

def Epoch.ofInt (e : ℕ) : Epoch := (e : WithBot ℕ)

def ReversedEpoch.ofInt (e : ℕ) : ReversedEpoch := OrderDual.toDual (e : WithTop ℕ)

structure AbstractVectorClock (E : Type) where
  tid : ThreadId
  epochs : Dict ThreadId E

namespace AbstractVectorClock

variable {E : Type}

def new (tid : ThreadId) : AbstractVectorClock E := ⟨tid, ∅⟩

def threads (vc : AbstractVectorClock E) : List ThreadId := vc.epochs.keys

/-- The assignment `self._epochs[tid] = e`. -/
def setEpoch (vc : AbstractVectorClock E) (tid : ThreadId) (e : E) : AbstractVectorClock E :=
  { vc with epochs := vc.epochs.insert tid e }

@[simp] theorem tid_new (t : ThreadId) : (new t : AbstractVectorClock E).tid = t := rfl

@[simp] theorem tid_setEpoch (vc : AbstractVectorClock E) (t : ThreadId) (e : E) :
    (vc.setEpoch t e).tid = vc.tid := rfl

theorem tid_foldl (f : AbstractVectorClock E → ThreadId → AbstractVectorClock E)
    (hf : ∀ vc t, (f vc t).tid = vc.tid) (l : List ThreadId) (vc : AbstractVectorClock E) :
    (l.foldl f vc).tid = vc.tid := by
  induction l generalizing vc with
  | nil => rfl
  | cons a l ih => rw [List.foldl_cons, ih, hf]

variable [LinearOrder E] [OrderBot E]

/-- The value of `self._epochs[tid]`. -/
def epochAt (vc : AbstractVectorClock E) (tid : ThreadId) : E := vc.epochs.getD tid ⊥

/-- What a read of `self._epochs[tid]` leaves behind. -/
def touch (vc : AbstractVectorClock E) (tid : ThreadId) : AbstractVectorClock E :=
  { vc with epochs := vc.epochs.touch tid ⊥ }

def addEpoch (vc : AbstractVectorClock E) (e : E) : Py (AbstractVectorClock E) := do
  pyAssert (vc.epochAt vc.tid < e) "Can't change epoch"
  pure (vc.setEpoch vc.tid e)

def merge (vc other : AbstractVectorClock E) : AbstractVectorClock E :=
  other.threads.foldl (fun vc tid =>
    if vc.epochAt tid < other.epochAt tid then vc.setEpoch tid (other.epochAt tid)
    else vc.touch tid) vc

def copyFrom (vc other : AbstractVectorClock E) : AbstractVectorClock E :=
  other.threads.foldl (fun vc tid => vc.setEpoch tid (other.epochAt tid)) vc

/-- Both `is_happens_before` and `is_happens_after`: does the component reach `e`? -/
def hasReached (vc : AbstractVectorClock E) (tid : ThreadId) (e : E) :
    Bool × AbstractVectorClock E :=
  (decide (e ≤ vc.epochAt tid), vc.touch tid)

@[simp] theorem epochAt_new (t s : ThreadId) : (new t : AbstractVectorClock E).epochAt s = ⊥ :=
  Dict.getD_empty s ⊥

@[simp] theorem epochAt_setEpoch (vc : AbstractVectorClock E) (t s : ThreadId) (e : E) :
    (vc.setEpoch t e).epochAt s = if s = t then e else vc.epochAt s :=
  Dict.getD_insert vc.epochs t e s ⊥

@[simp] theorem epochAt_touch (vc : AbstractVectorClock E) (t s : ThreadId) :
    (vc.touch t).epochAt s = vc.epochAt s :=
  Dict.getD_touch vc.epochs t s ⊥

@[simp] theorem tid_touch (vc : AbstractVectorClock E) (t : ThreadId) :
    (vc.touch t).tid = vc.tid := rfl

theorem epochAt_of_notMem {vc : AbstractVectorClock E} {t : ThreadId} (h : t ∉ vc.threads) :
    vc.epochAt t = ⊥ :=
  Dict.getD_of_notMem h ⊥

theorem addEpoch_eq {vc : AbstractVectorClock E} {e : E} (h : vc.epochAt vc.tid < e) :
    vc.addEpoch e = .ok (vc.setEpoch vc.tid e) := by
  unfold addEpoch
  rw [pyAssert_bind (decide_eq_true h)]
  rfl

section Loops

variable (other : AbstractVectorClock E)

theorem epochAt_merge_loop (l : List ThreadId) (vc : AbstractVectorClock E) (t : ThreadId) :
    (l.foldl (fun vc tid =>
      if vc.epochAt tid < other.epochAt tid then vc.setEpoch tid (other.epochAt tid)
      else vc.touch tid) vc).epochAt t =
      if t ∈ l then max (vc.epochAt t) (other.epochAt t) else vc.epochAt t := by
  induction l generalizing vc with
  | nil => simp
  | cons a l ih =>
    have hstep : (if vc.epochAt a < other.epochAt a then vc.setEpoch a (other.epochAt a)
        else vc.touch a).epochAt t =
          if t = a then max (vc.epochAt t) (other.epochAt t) else vc.epochAt t := by
      by_cases hlt : vc.epochAt a < other.epochAt a
      · rw [if_pos hlt, epochAt_setEpoch]
        by_cases hta : t = a
        · subst hta; simp [max_eq_right hlt.le]
        · simp [hta]
      · rw [if_neg hlt, epochAt_touch]
        by_cases hta : t = a
        · subst hta; simp [max_eq_left (not_lt.mp hlt)]
        · simp [hta]
    rw [List.foldl_cons, ih, hstep]
    by_cases hta : t = a
    · subst hta; simp
    · simp [hta]

theorem epochAt_copy_loop (l : List ThreadId) (vc : AbstractVectorClock E) (t : ThreadId) :
    (l.foldl (fun vc tid => vc.setEpoch tid (other.epochAt tid)) vc).epochAt t =
      if t ∈ l then other.epochAt t else vc.epochAt t := by
  induction l generalizing vc with
  | nil => simp
  | cons a l ih =>
    rw [List.foldl_cons, ih, epochAt_setEpoch]
    by_cases hta : t = a
    · subst hta; simp
    · simp [hta]

end Loops

@[simp] theorem epochAt_merge (vc other : AbstractVectorClock E) (t : ThreadId) :
    (vc.merge other).epochAt t = max (vc.epochAt t) (other.epochAt t) := by
  unfold merge
  rw [epochAt_merge_loop]
  split_ifs with h
  · rfl
  · rw [epochAt_of_notMem h, max_eq_left bot_le]

@[simp] theorem tid_merge (vc other : AbstractVectorClock E) : (vc.merge other).tid = vc.tid := by
  apply tid_foldl
  intro vc t
  split_ifs
  · rfl
  · rfl

@[simp] theorem tid_copyFrom (vc other : AbstractVectorClock E) :
    (vc.copyFrom other).tid = vc.tid := by
  apply tid_foldl
  intro vc t
  rfl

/-- An overwriting copy of a clock that is nowhere behind yields that clock. -/
theorem epochAt_copyFrom {vc other : AbstractVectorClock E} {t : ThreadId}
    (h : vc.epochAt t ≤ other.epochAt t) : (vc.copyFrom other).epochAt t = other.epochAt t := by
  unfold copyFrom
  rw [epochAt_copy_loop]
  split_ifs with ht
  · rfl
  · rw [epochAt_of_notMem ht] at h ⊢
    exact le_bot_iff.mp h

@[simp] theorem epochAt_hasReached (vc : AbstractVectorClock E) (t s : ThreadId) (e : E) :
    (vc.hasReached t e).2.epochAt s = vc.epochAt s :=
  epochAt_touch vc t s

@[simp] theorem tid_hasReached (vc : AbstractVectorClock E) (t : ThreadId) (e : E) :
    (vc.hasReached t e).2.tid = vc.tid := rfl

end AbstractVectorClock

abbrev VectorClock := AbstractVectorClock Epoch

abbrev ReversedVectorClock := AbstractVectorClock ReversedEpoch

def VectorClock.isHappensBefore (vc : VectorClock) (tid : ThreadId) (epoch : Epoch) :
    Bool × VectorClock :=
  vc.hasReached tid epoch

def ReversedVectorClock.isHappensAfter (vc : ReversedVectorClock) (tid : ThreadId)
    (epoch : ReversedEpoch) : Bool × ReversedVectorClock :=
  vc.hasReached tid epoch

/-- `get` leaves no entry behind, and a missing or empty epoch gives `None`. -/
def VectorClock.getEpoch (vc : VectorClock) (tid : ThreadId) : Option ℕ := vc.epochAt tid

structure PersistencyVectorClock where
  tid : ThreadId
  lastSeen : VectorClock
  lastPersisted : VectorClock

namespace PersistencyVectorClock

def new (tid : ThreadId) : PersistencyVectorClock := ⟨tid, .new tid, .new tid⟩

def addEpoch (pvc : PersistencyVectorClock) (epoch : Epoch) : Py PersistencyVectorClock := do
  let seen ← pvc.lastSeen.addEpoch epoch
  pure { pvc with lastSeen := seen }

def flush (pvc : PersistencyVectorClock) : PersistencyVectorClock :=
  { pvc with lastPersisted := pvc.lastPersisted.copyFrom pvc.lastSeen }

def merge (pvc other : PersistencyVectorClock) : PersistencyVectorClock :=
  { pvc with
    lastSeen := pvc.lastSeen.merge other.lastSeen
    lastPersisted := pvc.lastPersisted.merge other.lastPersisted }

def isEventHappenedBefore (pvc : PersistencyVectorClock) (tid : ThreadId) (epoch : Epoch) :
    Bool × PersistencyVectorClock :=
  let r := VectorClock.isHappensBefore pvc.lastSeen tid epoch
  (r.1, { pvc with lastSeen := r.2 })

def getPersistedEpoch (pvc : PersistencyVectorClock) (tid : ThreadId) : Option ℕ :=
  VectorClock.getEpoch pvc.lastPersisted tid

def isEventPersisted (pvc : PersistencyVectorClock) (tid : ThreadId) (epoch : Epoch) :
    Bool × PersistencyVectorClock :=
  let r := VectorClock.isHappensBefore pvc.lastPersisted tid epoch
  (r.1, { pvc with lastPersisted := r.2 })

/-- The components of the two clocks. -/
def seen (pvc : PersistencyVectorClock) (s : ThreadId) : Epoch := pvc.lastSeen.epochAt s

def persisted (pvc : PersistencyVectorClock) (s : ThreadId) : Epoch := pvc.lastPersisted.epochAt s

/-- Two clocks that no query tells apart. -/
structure SameEpochs (a b : PersistencyVectorClock) : Prop where
  tid : a.lastSeen.tid = b.lastSeen.tid
  seen : ∀ s, a.seen s = b.seen s
  persisted : ∀ s, a.persisted s = b.persisted s

@[simp] theorem seen_new (t s : ThreadId) : (new t).seen s = ⊥ :=
  AbstractVectorClock.epochAt_new t s

@[simp] theorem persisted_new (t s : ThreadId) : (new t).persisted s = ⊥ :=
  AbstractVectorClock.epochAt_new t s

@[simp] theorem seen_merge (a b : PersistencyVectorClock) (s : ThreadId) :
    (a.merge b).seen s = max (a.seen s) (b.seen s) :=
  AbstractVectorClock.epochAt_merge _ _ s

@[simp] theorem persisted_merge (a b : PersistencyVectorClock) (s : ThreadId) :
    (a.merge b).persisted s = max (a.persisted s) (b.persisted s) :=
  AbstractVectorClock.epochAt_merge _ _ s

@[simp] theorem seen_flush (a : PersistencyVectorClock) (s : ThreadId) :
    a.flush.seen s = a.seen s := rfl

theorem persisted_flush {a : PersistencyVectorClock} {s : ThreadId}
    (h : a.persisted s ≤ a.seen s) : a.flush.persisted s = a.seen s :=
  AbstractVectorClock.epochAt_copyFrom h

@[simp] theorem ownTid_merge (a b : PersistencyVectorClock) :
    (a.merge b).lastSeen.tid = a.lastSeen.tid :=
  AbstractVectorClock.tid_merge _ _

/-- Adding an epoch to a clock that is behind it replaces the own component. -/
theorem addEpoch_spec {a : PersistencyVectorClock} {e : Epoch} (h : a.seen a.lastSeen.tid < e) :
    ∃ b, a.addEpoch e = .ok b ∧ b.lastSeen.tid = a.lastSeen.tid ∧
      (∀ s, b.seen s = if s = a.lastSeen.tid then e else a.seen s) ∧
      ∀ s, b.persisted s = a.persisted s := by
  refine ⟨{ a with lastSeen := a.lastSeen.setEpoch a.lastSeen.tid e }, ?_, rfl, ?_, fun s => rfl⟩
  · unfold addEpoch
    rw [AbstractVectorClock.addEpoch_eq h]
    rfl
  · intro s
    exact AbstractVectorClock.epochAt_setEpoch _ _ s e

theorem SameEpochs.refl (a : PersistencyVectorClock) : SameEpochs a a :=
  ⟨rfl, fun _ => rfl, fun _ => rfl⟩

theorem SameEpochs.trans {a b c : PersistencyVectorClock} (h : SameEpochs a b)
    (h' : SameEpochs b c) : SameEpochs a c :=
  ⟨h.tid.trans h'.tid, fun s => (h.seen s).trans (h'.seen s),
    fun s => (h.persisted s).trans (h'.persisted s)⟩

theorem sameEpochs_isEventPersisted (a : PersistencyVectorClock) (t : ThreadId) (e : Epoch) :
    SameEpochs (a.isEventPersisted t e).2 a :=
  ⟨rfl, fun _ => rfl, fun s => AbstractVectorClock.epochAt_hasReached _ t s e⟩

theorem sameEpochs_isEventHappenedBefore (a : PersistencyVectorClock) (t : ThreadId) (e : Epoch) :
    SameEpochs (a.isEventHappenedBefore t e).2 a :=
  ⟨rfl, fun s => AbstractVectorClock.epochAt_hasReached _ t s e, fun _ => rfl⟩

end PersistencyVectorClock

end Prd.Pycprd
