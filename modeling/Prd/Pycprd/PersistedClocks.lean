import Mathlib.Data.List.Induction
import Prd.Pycprd.ClockCalls

/-!
# What is persisted was seen

A flush overwrites what is persisted by what was seen. It loses nothing, since no component
of what is persisted is ever ahead of the same component of what was seen, whatever clocks
were merged. Components are compared by their values, so a missing entry is the least epoch.
-/
namespace Prd.Pycprd.Objects.PersistencyVectorClock

open Prd.Foundation

variable {a b d : PersistencyVectorClock}

/-- The value of a component of `_last_seen`. -/
def seen (pvc : PersistencyVectorClock) (t : ThreadId) : EpochValue .epoch := pvc.lastSeen.valueAt t

/-- The value of a component of `_last_persisted`. -/
def persisted (pvc : PersistencyVectorClock) (t : ThreadId) : EpochValue .epoch :=
  pvc.lastPersisted.valueAt t

def PersistedSeen (pvc : PersistencyVectorClock) : Prop := ∀ t, pvc.persisted t ≤ pvc.seen t

/-- The components of both vectors are equal as epochs. -/
structure SameValues (a b : PersistencyVectorClock) : Prop where
  seen : ∀ t, a.seen t = b.seen t
  persisted : ∀ t, a.persisted t = b.persisted t

@[simp] theorem seen_merge (a b : PersistencyVectorClock) (t : ThreadId) :
    (a.merge b).seen t = max (a.seen t) (b.seen t) :=
  AbstractVectorClock.valueAt_merge _ _ t

@[simp] theorem persisted_merge (a b : PersistencyVectorClock) (t : ThreadId) :
    (a.merge b).persisted t = max (a.persisted t) (b.persisted t) :=
  AbstractVectorClock.valueAt_merge _ _ t

@[simp] theorem seen_flush (a : PersistencyVectorClock) (t : ThreadId) :
    a.flush.seen t = a.seen t := rfl

theorem PersistedSeen.persisted_flush (h : a.PersistedSeen) (t : ThreadId) :
    a.flush.persisted t = a.seen t :=
  AbstractVectorClock.valueAt_copyFrom (h t)

theorem persistedSeen_new (t : ThreadId) : (new t).PersistedSeen := fun _ => le_rfl

theorem PersistedSeen.addEpoch (h : a.PersistedSeen) (e : AnyEpoch) :
    (a.addEpoch e).2.PersistedSeen :=
  fun t => (h t).trans (AbstractVectorClock.le_valueAt_addEpoch a.lastSeen e t)

theorem PersistedSeen.flush (h : a.PersistedSeen) : a.flush.PersistedSeen :=
  fun t => (h.persisted_flush t).le

theorem PersistedSeen.merge (h : a.PersistedSeen) (h' : b.PersistedSeen) :
    (a.merge b).PersistedSeen := by
  intro t
  rw [seen_merge, persisted_merge]
  exact max_le_max (h t) (h' t)

theorem seen_isEventHappenedBefore (a : PersistencyVectorClock) (t s : ThreadId) (e : AnyEpoch) :
    (a.isEventHappenedBefore t e).2.seen s = a.seen s :=
  congrArg EpochObject.value (AbstractVectorClock.component_touch a.lastSeen t s)

theorem persisted_isEventPersisted (a : PersistencyVectorClock) (t s : ThreadId) (e : AnyEpoch) :
    (a.isEventPersisted t e).2.persisted s = a.persisted s :=
  congrArg EpochObject.value (AbstractVectorClock.component_touch a.lastPersisted t s)

theorem PersistedSeen.isEventHappenedBefore (h : a.PersistedSeen) (t : ThreadId) (e : AnyEpoch) :
    (a.isEventHappenedBefore t e).2.PersistedSeen :=
  fun s => (h s).trans (seen_isEventHappenedBefore a t s e).ge

theorem PersistedSeen.isEventPersisted (h : a.PersistedSeen) (t : ThreadId) (e : AnyEpoch) :
    (a.isEventPersisted t e).2.PersistedSeen :=
  fun s => (persisted_isEventPersisted a t s e).le.trans (h s)

/-- A call changes one clock of the family, and every clock keeps the invariant. -/
theorem persistedSeen_step {ι : Type} [DecidableEq ι] {s : ι → PersistencyVectorClock}
    (h : ∀ i, (s i).PersistedSeen) (call : Call ι) (k : ι) :
    ((call.step s).2 k).PersistedSeen := by
  have hupdate : ∀ i pvc, PersistedSeen pvc → (Function.update s i pvc k).PersistedSeen := by
    intro i pvc hpvc
    rw [Function.update_apply]
    split_ifs
    · exact hpvc
    · exact h k
  cases call with
  | addEpoch i e => exact hupdate i _ ((h i).addEpoch e)
  | flush i => exact hupdate i _ (h i).flush
  | merge i j => exact hupdate i _ ((h i).merge (h j))
  | isEventHappenedBefore i t e => exact hupdate i _ ((h i).isEventHappenedBefore t e)
  | getPersistedEpoch i t => exact h k
  | isEventPersisted i t e => exact hupdate i _ ((h i).isEventPersisted t e)
  | isPersisted i => exact h k

theorem persistedSeen_run {ι : Type} [DecidableEq ι] (tids : ι → ThreadId) (calls : List (Call ι))
    (i : ι) : (run tids calls i).PersistedSeen := by
  induction calls using List.reverseRecOn generalizing i with
  | nil => exact persistedSeen_new (tids i)
  | append_singleton calls call ih =>
    unfold run runFrom at ih ⊢
    rw [List.foldl_append]
    exact persistedSeen_step ih call i

theorem sameValues_merge_comm (a b : PersistencyVectorClock) :
    SameValues (a.merge b) (b.merge a) where
  seen := fun t => by simp [max_comm]
  persisted := fun t => by simp [max_comm]

theorem sameValues_merge_assoc (a b d : PersistencyVectorClock) :
    SameValues ((a.merge b).merge d) (a.merge (b.merge d)) where
  seen := fun t => by simp [max_assoc]
  persisted := fun t => by simp [max_assoc]

theorem sameValues_merge_self (a : PersistencyVectorClock) : SameValues (a.merge a) a where
  seen := fun t => by simp
  persisted := fun t => by simp

theorem PersistedSeen.flush_flush (h : a.PersistedSeen) : SameValues a.flush.flush a.flush where
  seen := fun _ => rfl
  persisted := fun t => (h.flush.persisted_flush t).trans (h.persisted_flush t).symm

/-- In every run nothing is persisted that was not seen. So a flush lowers no component and a
second one does nothing, and the merges are those of a semilattice. -/
theorem clocks_run {ι : Type} [DecidableEq ι] (tids : ι → ThreadId) (calls : List (Call ι)) :
    (∀ i t, (run tids calls i).persisted t ≤ (run tids calls i).seen t) ∧
      (∀ i t, (run tids calls i).persisted t ≤ (run tids calls i).flush.persisted t) ∧
      (∀ i, SameValues (run tids calls i).flush.flush (run tids calls i).flush) ∧
      (∀ i j, SameValues ((run tids calls i).merge (run tids calls j))
        ((run tids calls j).merge (run tids calls i))) ∧
      (∀ i j k, SameValues
        (((run tids calls i).merge (run tids calls j)).merge (run tids calls k))
        ((run tids calls i).merge ((run tids calls j).merge (run tids calls k)))) ∧
      ∀ i, SameValues ((run tids calls i).merge (run tids calls i)) (run tids calls i) := by
  have h := persistedSeen_run tids calls
  refine ⟨h, ?_, fun i => (h i).flush_flush, fun i j => sameValues_merge_comm _ _,
    fun i j k => sameValues_merge_assoc _ _ _, fun i => sameValues_merge_self _⟩
  intro i t
  rw [(h i).persisted_flush]
  exact h i t

end Prd.Pycprd.Objects.PersistencyVectorClock
