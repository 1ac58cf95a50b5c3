import Mathlib.Order.OrderDual
import Mathlib.Order.WithBot
import Prd.Pycprd.Basic

/-!
# Epochs as objects

An epoch object wraps a number, `None` or another epoch object. Each of the two classes
gives a value to the objects of its own and raises on those of the other one. Comparisons
look at the values only, which the second class orders the other way round.
-/
namespace Prd.Pycprd.Objects

inductive EpochClass where
  | epoch
  | reversed
  deriving DecidableEq, Repr

/-- What callers pass as an epoch. -/
inductive AnyEpoch where
  | int (n : ℤ)
  | none
  | object (c : EpochClass) (epoch : AnyEpoch)
  deriving DecidableEq, Repr

def EpochClass.name : EpochClass → String
  | epoch => "Epoch"
  | reversed => "ReversedEpoch"

def AnyEpoch.str : AnyEpoch → String
  | int n => toString n
  | none => "None"
  | object c e => c.name ++ "(epoch=" ++ e.str ++ ")"

/-- The integers with the two infinities of `float`. -/
abbrev Number := WithBot (WithTop ℤ)

/-- The numbers in the order in which a class compares them. -/
def EpochValue : EpochClass → Type
  | .epoch => Number
  | .reversed => Numberᵒᵈ

namespace EpochValue

instance : (c : EpochClass) → LinearOrder (EpochValue c)
  | .epoch => inferInstanceAs (LinearOrder Number)
  | .reversed => inferInstanceAs (LinearOrder Numberᵒᵈ)

/-- The least value is minus infinity in one class and infinity in the other. -/
instance : (c : EpochClass) → OrderBot (EpochValue c)
  | .epoch => { bot := (⊥ : Number), bot_le := @bot_le Number _ _ }
  | .reversed => { bot := OrderDual.toDual (⊤ : Number), bot_le := @bot_le Numberᵒᵈ _ _ }

def ofInt : (c : EpochClass) → ℤ → EpochValue c
  | .epoch, n => ((n : WithTop ℤ) : Number)
  | .reversed, n => OrderDual.toDual ((n : WithTop ℤ) : Number)

theorem ofInt_ne_bot (c : EpochClass) (n : ℤ) : ofInt c n ≠ ⊥ := by
  cases c with
  | epoch => exact WithBot.coe_ne_bot
  | reversed =>
    intro h
    have htop : (n : WithTop ℤ) = ⊤ := WithBot.coe_injective (OrderDual.toDual.injective h)
    exact WithTop.coe_ne_top htop

end EpochValue

/-- The static method `_epoch_value` of a class. -/
def epochValue (c : EpochClass) : AnyEpoch → Py (EpochValue c)
  | .int n => pure (.ofInt c n)
  | .none => pure ⊥
  | .object c' e => if c' = c then epochValue c e else throw .typeError

/-- An object of a class whose value can be had. -/
structure EpochObject (c : EpochClass) where
  epoch : AnyEpoch
  value : EpochValue c
  value_eq : epochValue c epoch = .ok value

namespace EpochObject

variable {c : EpochClass}

/-- The class called without an argument. -/
def empty : EpochObject c := ⟨.none, ⊥, rfl⟩

/-- The class called with an argument, as far as comparisons with the object do not raise. -/
def ofAny (c : EpochClass) (e : AnyEpoch) : Py (EpochObject c) :=
  match h : epochValue c e with
  | .ok v => .ok ⟨e, v, h⟩
  | .error err => .error err

/-- The call `int(self)`, which does not accept another object. -/
def toInt (o : EpochObject c) : Py ℤ :=
  match o.epoch with
  | .int n => pure n
  | _ => throw .typeError

/-- The comparison `self == other`. -/
def isEqual (o : EpochObject c) (other : AnyEpoch) : Py Bool := do
  let v ← epochValue c other
  pure (decide (o.value = v))

@[simp] theorem value_empty : (empty : EpochObject c).value = ⊥ := rfl

theorem exists_ofAny {e : AnyEpoch} {v : EpochValue c} (h : epochValue c e = .ok v) :
    ∃ o, ofAny c e = .ok o ∧ o.value = v := by
  unfold ofAny
  split
  · rename_i v' h'
    rw [h] at h'
    cases h'
    exact ⟨_, rfl, rfl⟩
  · rename_i err h'
    rw [h] at h'
    cases h'

end EpochObject

end Prd.Pycprd.Objects
