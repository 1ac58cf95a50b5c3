import Mathlib.Logic.Function.Basic
import Prd.Foundation.Queries
import Prd.Pycprd.ClockObjects

/-!
# Calls on families of clocks

The calls name the clocks of a family by an index. A merge or a copy takes two clocks of one
class. A call that raises leaves its clock as the exception found it, and the run goes on.
-/
namespace Prd.Pycprd.Objects

open Prd.Foundation

/-- What a call returns. -/
inductive Answer where
  | done
  | bool (b : Bool)
  | epoch (e : Option ℤ)
  deriving DecidableEq, Repr

namespace AbstractVectorClock

inductive Call (ι : Type) where
  | addEpoch (i : ι) (e : AnyEpoch)
  | merge (i j : ι)
  | copyFrom (i j : ι)
  | getEpoch (i : ι) (t : ThreadId)
  | hasReached (i : ι) (t : ThreadId) (e : AnyEpoch)

def Call.isQuery {ι : Type} : Call ι → Bool
  | getEpoch _ _ | hasReached _ _ _ => true
  | _ => false

def Call.step {ι : Type} [DecidableEq ι] {c : EpochClass} (s : ι → AbstractVectorClock c) :
    Call ι → Py Answer × (ι → AbstractVectorClock c)
  | addEpoch i e =>
    let r := (s i).addEpoch e
    (r.1.map fun _ => .done, Function.update s i r.2)
  | merge i j => (.ok .done, Function.update s i ((s i).merge (s j)))
  | copyFrom i j => (.ok .done, Function.update s i ((s i).copyFrom (s j)))
  | getEpoch i t => (((s i).getEpoch t).map .epoch, s)
  | hasReached i t e =>
    let r := (s i).hasReached t e
    (r.1.map .bool, Function.update s i r.2)

end AbstractVectorClock

namespace PersistencyVectorClock

inductive Call (ι : Type) where
  | addEpoch (i : ι) (e : AnyEpoch)
  | flush (i : ι)
  | merge (i j : ι)
  | isEventHappenedBefore (i : ι) (t : ThreadId) (e : AnyEpoch)
  | getPersistedEpoch (i : ι) (t : ThreadId)
  | isEventPersisted (i : ι) (t : ThreadId) (e : AnyEpoch)
  | isPersisted (i : ι)

def Call.isQuery {ι : Type} : Call ι → Bool
  | addEpoch _ _ | flush _ | merge _ _ => false
  | _ => true

def Call.step {ι : Type} [DecidableEq ι] (s : ι → PersistencyVectorClock) :
    Call ι → Py Answer × (ι → PersistencyVectorClock)
  | addEpoch i e =>
    let r := (s i).addEpoch e
    (r.1.map fun _ => .done, Function.update s i r.2)
  | flush i => (.ok .done, Function.update s i (s i).flush)
  | merge i j => (.ok .done, Function.update s i ((s i).merge (s j)))
  | isEventHappenedBefore i t e =>
    let r := (s i).isEventHappenedBefore t e
    (r.1.map .bool, Function.update s i r.2)
  | getPersistedEpoch i t => (((s i).getPersistedEpoch t).map .epoch, s)
  | isEventPersisted i t e =>
    let r := (s i).isEventPersisted t e
    (r.1.map .bool, Function.update s i r.2)
  | isPersisted i => ((s i).isPersisted.map .bool, s)

/-- The clocks of a family after calls on new clocks. -/
def run {ι : Type} [DecidableEq ι] (tids : ι → ThreadId) (calls : List (Call ι)) :
    ι → PersistencyVectorClock :=
  runFrom Call.step (fun i => new (tids i)) calls

end PersistencyVectorClock

/-- The clocks of all classes. -/
structure Clocks (ι κ π : Type) where
  vector : ι → AbstractVectorClock .epoch
  reversed : κ → AbstractVectorClock .reversed
  persistency : π → PersistencyVectorClock

def Clocks.new {ι κ π : Type} (tids : ι → ThreadId) (reversedTids : κ → ThreadId)
    (persistencyTids : π → ThreadId) : Clocks ι κ π where
  vector := fun i => .new (tids i)
  reversed := fun i => .new (reversedTids i)
  persistency := fun i => .new (persistencyTids i)

inductive Call (ι κ π : Type) where
  | vector (call : AbstractVectorClock.Call ι)
  | reversed (call : AbstractVectorClock.Call κ)
  | persistency (call : PersistencyVectorClock.Call π)

namespace Call

variable {ι κ π : Type}

def isQuery : Call ι κ π → Bool
  | vector call => call.isQuery
  | reversed call => call.isQuery
  | persistency call => call.isQuery

def step [DecidableEq ι] [DecidableEq κ] [DecidableEq π] (s : Clocks ι κ π) :
    Call ι κ π → Py Answer × Clocks ι κ π
  | vector call =>
    let r := call.step s.vector
    (r.1, { s with vector := r.2 })
  | reversed call =>
    let r := call.step s.reversed
    (r.1, { s with reversed := r.2 })
  | persistency call =>
    let r := call.step s.persistency
    (r.1, { s with persistency := r.2 })

end Call

end Prd.Pycprd.Objects
