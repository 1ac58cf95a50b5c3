import Prd.Foundation.OrderedDict
import Prd.Pycprd.EpochObjects

/-!
# Vector clocks over epoch objects

The clocks keep epoch objects under their threads, in the order in which the threads came.
A call that raises may leave an entry behind, so every call gives the clock after it besides
what it returns. Comparisons see the values of the components, and there a missing entry
and the default object are alike.
-/
namespace Prd.Pycprd.Objects

open Prd.Foundation

structure AbstractVectorClock (c : EpochClass) where
  tid : ThreadId
  epochs : OrderedDict ThreadId (EpochObject c)

namespace AbstractVectorClock

variable {c : EpochClass}

def new (tid : ThreadId) : AbstractVectorClock c := ⟨tid, .empty⟩

section Operations

variable (vc other : AbstractVectorClock c)

def threads : List ThreadId := vc.epochs.keys

/-- The value of `self._epochs[tid]`. -/
def component (tid : ThreadId) : EpochObject c := vc.epochs.getD tid .empty

/-- What a read of `self._epochs[tid]` leaves behind. -/
def touch (tid : ThreadId) : AbstractVectorClock c :=
  { vc with epochs := vc.epochs.touch tid .empty }

/-- The assignment `self._epochs[tid] = o`. -/
def setEpoch (tid : ThreadId) (o : EpochObject c) : AbstractVectorClock c :=
  { vc with epochs := vc.epochs.insert tid o }

def cantChange (e : AnyEpoch) : PyError :=
  .assertionError ("Can't change epoch " ++
    (AnyEpoch.object c (vc.component vc.tid).epoch).str ++ " to " ++ e.str)

def addEpoch (e : AnyEpoch) : Py Unit × AbstractVectorClock c :=
  match EpochObject.ofAny c e with
  | .error err => (.error err, vc.touch vc.tid)
  | .ok o =>
    if (vc.component vc.tid).value < o.value then (.ok (), (vc.touch vc.tid).setEpoch vc.tid o)
    else (.error (vc.cantChange e), vc.touch vc.tid)

def merge : AbstractVectorClock c :=
  other.threads.foldl (fun vc tid =>
    if (vc.component tid).value < (other.component tid).value then
      vc.setEpoch tid (other.component tid)
    else vc.touch tid) vc

def copyFrom : AbstractVectorClock c :=
  other.threads.foldl (fun vc tid => vc.setEpoch tid (other.component tid)) vc

/-- The read with `get` leaves no entry behind, and `None == Epoch()` holds. -/
def getEpoch (tid : ThreadId) : Py (Option ℤ) :=
  match vc.epochs.lookup tid with
  | none => pure none
  | some o => do
    if ← o.isEqual (.object .epoch .none) then pure none
    else do
      let n ← o.toInt
      pure (some n)

/-- Both `is_happens_before` and `is_happens_after`. -/
def hasReached (tid : ThreadId) (e : AnyEpoch) : Py Bool × AbstractVectorClock c :=
  (do
    let o ← EpochObject.ofAny c e
    pure (decide (o.value ≤ (vc.component tid).value)), vc.touch tid)

/-- What comparisons see of a component. -/
def valueAt (tid : ThreadId) : EpochValue c := (vc.component tid).value

end Operations

variable {vc other : AbstractVectorClock c}

theorem component_of_notMem {t : ThreadId} (h : t ∉ vc.threads) : vc.component t = .empty :=
  OrderedDict.getD_of_notMem h .empty

theorem valueAt_of_notMem {t : ThreadId} (h : t ∉ vc.threads) : vc.valueAt t = ⊥ := by
  unfold valueAt
  rw [component_of_notMem h]
  rfl

@[simp] theorem component_new (t s : ThreadId) :
    (new t : AbstractVectorClock c).component s = .empty :=
  OrderedDict.getD_empty s EpochObject.empty

@[simp] theorem component_touch (vc : AbstractVectorClock c) (t s : ThreadId) :
    (vc.touch t).component s = vc.component s :=
  OrderedDict.getD_touch vc.epochs t s .empty

@[simp] theorem component_setEpoch (vc : AbstractVectorClock c) (t s : ThreadId)
    (o : EpochObject c) : (vc.setEpoch t o).component s = if s = t then o else vc.component s :=
  OrderedDict.getD_insert vc.epochs t o s .empty

@[simp] theorem mem_threads_touch (vc : AbstractVectorClock c) (t s : ThreadId) :
    s ∈ (vc.touch t).threads ↔ s ∈ vc.threads ∨ s = t :=
  OrderedDict.mem_keys_touch vc.epochs t s .empty

@[simp] theorem mem_threads_setEpoch (vc : AbstractVectorClock c) (t s : ThreadId)
    (o : EpochObject c) : s ∈ (vc.setEpoch t o).threads ↔ s ∈ vc.threads ∨ s = t :=
  OrderedDict.mem_keys_insert vc.epochs t s o

@[simp] theorem tid_touch (vc : AbstractVectorClock c) (t : ThreadId) :
    (vc.touch t).tid = vc.tid := rfl

@[simp] theorem tid_setEpoch (vc : AbstractVectorClock c) (t : ThreadId) (o : EpochObject c) :
    (vc.setEpoch t o).tid = vc.tid := rfl

section Loops

/-- A loop that sets a component for each thread of a list, or leaves it as it is. -/
theorem foldl_components {f : AbstractVectorClock c → ThreadId → AbstractVectorClock c}
    {g : ThreadId → EpochObject c → EpochObject c}
    (htid : ∀ vc t, (f vc t).tid = vc.tid)
    (hmem : ∀ vc t s, s ∈ (f vc t).threads ↔ s ∈ vc.threads ∨ s = t)
    (hcomp : ∀ vc t s, (f vc t).component s =
      if s = t then g t (vc.component t) else vc.component s)
    (hidem : ∀ t o, g t (g t o) = g t o) (l : List ThreadId) (vc : AbstractVectorClock c) :
    (l.foldl f vc).tid = vc.tid ∧
      (∀ s, s ∈ (l.foldl f vc).threads ↔ s ∈ vc.threads ∨ s ∈ l) ∧
      ∀ s, (l.foldl f vc).component s =
        if s ∈ l then g s (vc.component s) else vc.component s := by
  induction l generalizing vc with
  | nil => exact ⟨rfl, by simp, by simp⟩
  | cons a l ih =>
    obtain ⟨ht, hm, hc⟩ := ih (f vc a)
    rw [List.foldl_cons]
    refine ⟨ht.trans (htid vc a), ?_, ?_⟩
    · intro s
      rw [hm, hmem, List.mem_cons, or_assoc]
    · intro s
      rw [hc, hcomp]
      by_cases hsa : s = a
      · subst hsa
        by_cases hsl : s ∈ l
        · simp [hsl, hidem]
        · simp [hsl]
      · simp [hsa]

theorem merge_loop (vc other : AbstractVectorClock c) :
    (vc.merge other).tid = vc.tid ∧
      (∀ s, s ∈ (vc.merge other).threads ↔ s ∈ vc.threads ∨ s ∈ other.threads) ∧
      ∀ s, (vc.merge other).component s =
        if s ∈ other.threads then
          if (vc.component s).value < (other.component s).value then other.component s
          else vc.component s
        else vc.component s := by
  refine foldl_components (g := fun t o =>
    if o.value < (other.component t).value then other.component t else o) ?_ ?_ ?_ ?_ _ vc
  · intro vc t
    split_ifs
    · rfl
    · rfl
  · intro vc t s
    split_ifs
    · exact mem_threads_setEpoch vc t s _
    · exact mem_threads_touch vc t s
  · intro vc t s
    by_cases hlt : (vc.component t).value < (other.component t).value
    · rw [if_pos hlt, if_pos hlt, component_setEpoch]
    · rw [if_neg hlt, if_neg hlt, component_touch]
      by_cases hst : s = t
      · rw [if_pos hst, hst]
      · rw [if_neg hst]
  · intro t o
    by_cases hlt : o.value < (other.component t).value
    · rw [if_pos hlt, if_neg (lt_irrefl _)]
    · rw [if_neg hlt, if_neg hlt]

theorem copyFrom_loop (vc other : AbstractVectorClock c) :
    (vc.copyFrom other).tid = vc.tid ∧
      (∀ s, s ∈ (vc.copyFrom other).threads ↔ s ∈ vc.threads ∨ s ∈ other.threads) ∧
      ∀ s, (vc.copyFrom other).component s =
        if s ∈ other.threads then other.component s else vc.component s :=
  foldl_components (f := fun vc t => vc.setEpoch t (other.component t))
    (g := fun t _ => other.component t) (fun _ _ => rfl)
    (fun vc t s => mem_threads_setEpoch vc t s _) (fun vc t s => component_setEpoch vc t s _)
    (fun _ _ => rfl) _ vc

end Loops

@[simp] theorem tid_merge (vc other : AbstractVectorClock c) : (vc.merge other).tid = vc.tid :=
  (merge_loop vc other).1

@[simp] theorem mem_threads_merge (vc other : AbstractVectorClock c) (s : ThreadId) :
    s ∈ (vc.merge other).threads ↔ s ∈ vc.threads ∨ s ∈ other.threads :=
  (merge_loop vc other).2.1 s

/-- A missing entry of the other clock is behind every component. -/
theorem component_merge (vc other : AbstractVectorClock c) (s : ThreadId) :
    (vc.merge other).component s =
      if vc.valueAt s < other.valueAt s then other.component s else vc.component s := by
  rw [(merge_loop vc other).2.2]
  by_cases hs : s ∈ other.threads
  · rw [if_pos hs]
    rfl
  · rw [if_neg hs, valueAt_of_notMem hs, if_neg not_lt_bot]

@[simp] theorem valueAt_merge (vc other : AbstractVectorClock c) (s : ThreadId) :
    (vc.merge other).valueAt s = max (vc.valueAt s) (other.valueAt s) := by
  have hcomp := component_merge vc other s
  unfold valueAt at hcomp ⊢
  rw [hcomp]
  split_ifs with hlt
  · exact (max_eq_right hlt.le).symm
  · exact (max_eq_left (not_lt.mp hlt)).symm

@[simp] theorem tid_copyFrom (vc other : AbstractVectorClock c) :
    (vc.copyFrom other).tid = vc.tid :=
  (copyFrom_loop vc other).1

@[simp] theorem mem_threads_copyFrom (vc other : AbstractVectorClock c) (s : ThreadId) :
    s ∈ (vc.copyFrom other).threads ↔ s ∈ vc.threads ∨ s ∈ other.threads :=
  (copyFrom_loop vc other).2.1 s

theorem component_copyFrom (vc other : AbstractVectorClock c) (s : ThreadId) :
    (vc.copyFrom other).component s =
      if s ∈ other.threads then other.component s else vc.component s :=
  (copyFrom_loop vc other).2.2 s

/-- An overwriting copy of a clock that is not behind yields the values of that clock. -/
theorem valueAt_copyFrom {s : ThreadId} (h : vc.valueAt s ≤ other.valueAt s) :
    (vc.copyFrom other).valueAt s = other.valueAt s := by
  have hcomp := component_copyFrom vc other s
  by_cases hs : s ∈ other.threads
  · rw [if_pos hs] at hcomp
    exact congrArg EpochObject.value hcomp
  · rw [if_neg hs] at hcomp
    rw [valueAt_of_notMem hs] at h ⊢
    exact (congrArg EpochObject.value hcomp).trans (le_bot_iff.mp h)

/-- Adding an epoch sets the own component to a value above it, or leaves all components. -/
theorem addEpoch_cases (vc : AbstractVectorClock c) (e : AnyEpoch) :
    (∃ o, EpochObject.ofAny c e = .ok o ∧ vc.valueAt vc.tid < o.value ∧
      vc.addEpoch e = (.ok (), (vc.touch vc.tid).setEpoch vc.tid o)) ∨
      ∃ err, vc.addEpoch e = (.error err, vc.touch vc.tid) := by
  unfold addEpoch
  cases h : EpochObject.ofAny c e with
  | error err => exact Or.inr ⟨err, rfl⟩
  | ok o =>
    by_cases hlt : vc.valueAt vc.tid < o.value
    · exact Or.inl ⟨o, rfl, hlt, if_pos hlt⟩
    · exact Or.inr ⟨vc.cantChange e, if_neg hlt⟩

@[simp] theorem tid_addEpoch (vc : AbstractVectorClock c) (e : AnyEpoch) :
    (vc.addEpoch e).2.tid = vc.tid := by
  obtain ⟨o, -, -, h⟩ | ⟨err, h⟩ := vc.addEpoch_cases e
  · rw [h]
    rfl
  · rw [h]
    rfl

theorem mem_threads_addEpoch (vc : AbstractVectorClock c) (e : AnyEpoch) (s : ThreadId) :
    s ∈ (vc.addEpoch e).2.threads ↔ s ∈ vc.threads ∨ s = vc.tid := by
  obtain ⟨o, -, -, h⟩ | ⟨err, h⟩ := vc.addEpoch_cases e
  · rw [h]
    simp
  · rw [h]
    simp

theorem le_valueAt_addEpoch (vc : AbstractVectorClock c) (e : AnyEpoch) (s : ThreadId) :
    vc.valueAt s ≤ (vc.addEpoch e).2.valueAt s := by
  obtain ⟨o, -, hlt, h⟩ | ⟨err, h⟩ := vc.addEpoch_cases e
  · rw [h]
    unfold valueAt at hlt ⊢
    rw [component_setEpoch, component_touch]
    split_ifs with hs
    · rw [hs]
      exact hlt.le
    · exact le_rfl
  · rw [h]
    unfold valueAt
    rw [component_touch]

end AbstractVectorClock

structure PersistencyVectorClock where
  tid : ThreadId
  lastSeen : AbstractVectorClock .epoch
  lastPersisted : AbstractVectorClock .epoch

namespace PersistencyVectorClock

def new (tid : ThreadId) : PersistencyVectorClock := ⟨tid, .new tid, .new tid⟩

section Operations

variable (pvc other : PersistencyVectorClock)

def threads : Py (List ThreadId) := do
  pyAssert (decide (∀ t ∈ pvc.lastPersisted.threads, t ∈ pvc.lastSeen.threads))
    "asserting for now, delete later"
  pure pvc.lastSeen.threads

def addEpoch (e : AnyEpoch) : Py Unit × PersistencyVectorClock :=
  let r := pvc.lastSeen.addEpoch e
  (r.1, { pvc with lastSeen := r.2 })

def flush : PersistencyVectorClock :=
  { pvc with lastPersisted := pvc.lastPersisted.copyFrom pvc.lastSeen }

def merge : PersistencyVectorClock :=
  { pvc with
    lastSeen := pvc.lastSeen.merge other.lastSeen
    lastPersisted := pvc.lastPersisted.merge other.lastPersisted }

def isEventHappenedBefore (tid : ThreadId) (e : AnyEpoch) : Py Bool × PersistencyVectorClock :=
  let r := pvc.lastSeen.hasReached tid e
  (r.1, { pvc with lastSeen := r.2 })

def getPersistedEpoch (tid : ThreadId) : Py (Option ℤ) := pvc.lastPersisted.getEpoch tid

def isEventPersisted (tid : ThreadId) (e : AnyEpoch) : Py Bool × PersistencyVectorClock :=
  let r := pvc.lastPersisted.hasReached tid e
  (r.1, { pvc with lastPersisted := r.2 })

/-- The loop of `is_persisted`. -/
def isPersistedFrom : List ThreadId → Py Bool
  | [] => pure true
  | t :: ts => do
    let persisted ← pvc.lastPersisted.getEpoch t
    let seen ← pvc.lastSeen.getEpoch t
    if persisted ≠ seen then pure false else isPersistedFrom ts

def isPersisted : Py Bool := do
  let ts ← pvc.threads
  pvc.isPersistedFrom ts

end Operations

end PersistencyVectorClock

end Prd.Pycprd.Objects
