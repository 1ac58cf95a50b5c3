import Mathlib.Data.List.Basic
import Prd.Foundation.Dict

/-!
# The choice of loads and stores to instrument

The pass walks each stretch of a basic block without calls from its end. A load is left out when
a store to the same address follows in the stretch, and that store is marked instead. Values
of the intermediate representation and what the compiler knows about them are parameters.
-/
namespace Prd.Pass

open Prd.Foundation

structure GlobalVariable where
  sectionName : Option String
  name : String
  isConstant : Bool

/-- The classes of values that the pass tells apart. -/
inductive ValueKind (V : Type) where
  | globalVariable (gv : GlobalVariable)
  | getElementPtr (pointerOperand : V)
  | load (isVtableAccess : Bool)
  | alloca
  | other

/-- What the compiler tells of the values of a module. -/
structure Module (V : Type) where
  kind : V → ValueKind V
  pointerAddressSpace : V → ℕ
  stripInBoundsOffsets : V → V
  getUnderlyingObject : V → V
  pointerMayBeCaptured : V → Bool
  instrProfSectionName : String

/-- The command-line options that the choice looks at. -/
structure Options where
  instrumentReadBeforeWrite : Bool := false
  distinguishVolatile : Bool := false

/-- A load or a store. -/
structure Instruction (V : Type) where
  value : V
  isWrite : Bool
  pointerOperand : V
  isVolatile : Bool
  deriving DecidableEq, Repr

structure InstructionInfo (V : Type) where
  inst : Instruction V
  flags : ℕ := 0
  deriving DecidableEq, Repr

namespace InstructionInfo

def kCompoundRW : ℕ := 1

def markCompound {V : Type} (info : InstructionInfo V) : InstructionInfo V :=
  { info with flags := info.flags ||| kCompoundRW }

end InstructionInfo

section Addresses

variable {V : Type} (M : Module V)

def isProfilingData (gv : GlobalVariable) : Bool :=
  (match gv.sectionName with
    | some s => M.instrProfSectionName.toList.isSuffixOf s.toList
    | none => false) ||
  "__llvm_gcov".toList.isPrefixOf gv.name.toList || "__llvm_gcda".toList.isPrefixOf gv.name.toList

def shouldInstrumentReadWriteFromAddress (addr : V) : Bool :=
  let addr := M.stripInBoundsOffsets addr
  match M.kind addr with
  | .globalVariable gv => ! isProfilingData M gv && M.pointerAddressSpace addr == 0
  | _ => M.pointerAddressSpace addr == 0

def addrPointsToConstantData (addr : V) : Bool :=
  let addr := match M.kind addr with
    | .getElementPtr pointer => pointer
    | _ => addr
  match M.kind addr with
  | .globalVariable gv => gv.isConstant
  | .load isVtableAccess => isVtableAccess
  | _ => false

/-- The variable on the stack cannot be reached by another thread. -/
def isNonCaptured (addr : V) : Bool :=
  match M.kind (M.getUnderlyingObject addr) with
  | .alloca => ! M.pointerMayBeCaptured addr
  | _ => false

end Addresses

section Choice

variable {V : Type} [DecidableEq V] (M : Module V) (opts : Options)

/-- `All`, and the addresses with the index in it of the store that was met last. -/
structure Choice (V : Type) where
  all : List (InstructionInfo V)
  writeTargets : Dict V ℕ

/-- The index of the store that stands in for a load. -/
def omittedFor (s : Choice V) (i : Instruction V) : Option ℕ :=
  if i.isWrite || opts.instrumentReadBeforeWrite then none
  else do
    let k ← s.writeTargets.lookup i.pointerOperand
    let wi ← s.all[k]?
    let anyVolatile := opts.distinguishVolatile && (i.isVolatile || wi.inst.isVolatile)
    if anyVolatile then none else some k

/-- The turn of an instruction in the loop over the reversed stretch. -/
def chooseStep (s : Choice V) (i : Instruction V) : Choice V :=
  if ! shouldInstrumentReadWriteFromAddress M i.pointerOperand then s
  else
    match omittedFor opts s i with
    | some k => { s with all := s.all.modify k InstructionInfo.markCompound }
    | none =>
      if ! i.isWrite && addrPointsToConstantData M i.pointerOperand then s
      else if isNonCaptured M i.pointerOperand then s
      else
        { all := s.all ++ [{ inst := i }]
          writeTargets :=
            if i.isWrite then s.writeTargets.insert i.pointerOperand s.all.length
            else s.writeTargets }

def chooseInstructionsToInstrument (locals : List (Instruction V))
    (all : List (InstructionInfo V)) : List (InstructionInfo V) :=
  (locals.reverse.foldl (chooseStep M opts) ⟨all, ∅⟩).all

/-- What the traversal of a function makes of an instruction. Atomic accesses are collected
elsewhere. -/
inductive Inst (V : Type) where
  | access (i : Instruction V)
  | call
  | other

/-- The loop of `sanitizeFunction` over a block, with the accesses since the last call. -/
def collectBlock : List (Inst V) → List (Instruction V) → List (InstructionInfo V) →
    List (InstructionInfo V)
  | [], locals, all => chooseInstructionsToInstrument M opts locals all
  | .access i :: block, locals, all => collectBlock block (locals ++ [i]) all
  | .call :: block, locals, all =>
    collectBlock block [] (chooseInstructionsToInstrument M opts locals all)
  | .other :: block, locals, all => collectBlock block locals all

/-- The loads and stores of a function that `sanitizeFunction` instruments. -/
def collectLoadsAndStores (blocks : List (List (Inst V))) : List (InstructionInfo V) :=
  blocks.foldl (fun all block => collectBlock M opts block [] all) []

end Choice

end Prd.Pass
