import Prd.Pycprd.Basic

/-!
# Nodes of the happens-before graph

Epoch nodes are compared by value. Instruction nodes are compared by object
identity, which `ident` stands for, and cannot be built with size zero.
-/
namespace Prd.Pycprd

inductive NodeType
  | read
  | write
  | flush
  | epoch
  deriving DecidableEq, Repr

def NodeType.isInstructionType (itype : NodeType) : Bool :=
  itype == .read || itype == .write || itype == .flush

def NodeType.isReadWriteType (itype : NodeType) : Bool :=
  itype == .read || itype == .write

theorem NodeType.isInstructionType_read : NodeType.read.isInstructionType = true := rfl

theorem NodeType.isInstructionType_write : NodeType.write.isInstructionType = true := rfl

theorem NodeType.isInstructionType_flush : NodeType.flush.isInstructionType = true := rfl

theorem word_ne_zero : (8 : ℕ) ≠ 0 := by decide

structure EpochNode where
  tid : ThreadId
  epoch : ℤ
  deriving DecidableEq, Repr

/-- Symbols are compared by their addresses only. -/
structure TraceEventInfo where
  symbol : ℤ
  callstack : List ℤ
  deriving DecidableEq, Repr

/-- The info of an event: a decoded one, or the rest of a trace line as it stands. A caller of the
builder may give an integer as well. -/
inductive Info
  | none
  | text (s : List Char)
  | event (e : TraceEventInfo)
  | int (k : ℤ)
  deriving DecidableEq, Repr

structure InstructionNode where
  ident : ℕ
  itype : NodeType
  tid : ThreadId
  pc : ℕ
  address : ℕ
  size : ℕ
  isAtomic : Bool
  isNonTemporal : Bool
  info : Info
  traceLineNumber : Option ℕ
  eventId : Option ℕ
  itype_instruction : itype.isInstructionType = true
  size_ne_zero : size ≠ 0
  deriving DecidableEq

namespace InstructionNode

def interval (n : InstructionNode) : ℕ × ℕ := (n.address, n.address + n.size)

def isIntervalOverlap (n other : InstructionNode) : Bool :=
  max n.interval.1 other.interval.1 < min n.interval.2 other.interval.2

/-- The bytes of the other are among its own. -/
def isIntervalContains (n other : InstructionNode) : Bool :=
  n.interval.1 ≤ other.interval.1 && other.interval.1 < other.interval.2 &&
    other.interval.2 ≤ n.interval.2

def getCachelineAddress (n : InstructionNode) : Cacheline :=
  Pycprd.getCachelineAddress n.address defaultCachelineSize

/-- The accessed bytes lie in one 64-byte line. -/
def InOneLine (n : InstructionNode) : Prop := Pycprd.InOneLine n.address n.size

instance (n : InstructionNode) : Decidable n.InOneLine :=
  inferInstanceAs (Decidable (Pycprd.InOneLine _ _))

theorem itype_cases (n : InstructionNode) :
    n.itype = .read ∨ n.itype = .write ∨ n.itype = .flush := by
  have h := n.itype_instruction
  cases hi : n.itype with
  | read => exact Or.inl rfl
  | write => exact Or.inr (Or.inl rfl)
  | flush => exact Or.inr (Or.inr rfl)
  | epoch => rw [hi] at h; cases h

theorem itype_ne_epoch (n : InstructionNode) : n.itype ≠ .epoch := by
  rcases n.itype_cases with h | h | h
  · simp [h]
  · simp [h]
  · simp [h]

theorem line_eq_of_overlap {n m : InstructionNode} (hn : n.InOneLine) (hm : m.InOneLine)
    (h : n.isIntervalOverlap m = true) : n.getCachelineAddress = m.getCachelineAddress :=
  Pycprd.line_eq_of_overlap hn hm (of_decide_eq_true h)

theorem isIntervalOverlap_of_contains {n m : InstructionNode} (h : n.isIntervalContains m = true) :
    n.isIntervalOverlap m = true := by
  have hm := m.size_ne_zero
  simp only [isIntervalContains, isIntervalOverlap, Bool.and_eq_true, decide_eq_true_eq] at h ⊢
  unfold interval at h ⊢
  omega

end InstructionNode

/-- The class table has no entry for epoch nodes, and a size of zero is refused. -/
def createInstructionNode (ident : ℕ) (itype : NodeType) (tid : ThreadId) (pc address size : ℕ)
    (isAtomic isNonTemporal : Bool) (info : Info) (traceLineNumber eventId : Option ℕ) :
    Py InstructionNode :=
  if h : itype.isInstructionType = true then
    if hs : size ≠ 0 then
      pure ⟨ident, itype, tid, pc, address, size, isAtomic, isNonTemporal, info, traceLineNumber,
        eventId, h, hs⟩
    else throw (.assertionError "Size can't be 0")
  else throw .keyError

inductive Node
  | epoch (n : EpochNode)
  | instruction (n : InstructionNode)
  deriving DecidableEq

namespace Node

def itype : Node → NodeType
  | epoch _ => .epoch
  | instruction n => n.itype

def tid : Node → ThreadId
  | epoch n => n.tid
  | instruction n => n.tid

/-- An instruction of one of the given types on the cache line. -/
def On (itypes : NodeType → Bool) (line : Cacheline) : Node → Prop
  | epoch _ => False
  | instruction n => itypes n.itype = true ∧ n.getCachelineAddress = line

instance (itypes : NodeType → Bool) (line : Cacheline) (n : Node) : Decidable (n.On itypes line) :=
  match n with
  | epoch _ => inferInstanceAs (Decidable False)
  | instruction _ => inferInstanceAs (Decidable (_ ∧ _))

def InOneLine : Node → Prop
  | epoch _ => True
  | instruction n => n.InOneLine

instance (n : Node) : Decidable n.InOneLine :=
  match n with
  | epoch _ => inferInstanceAs (Decidable True)
  | instruction n => inferInstanceAs (Decidable n.InOneLine)

theorem not_on_of_epoch {n : Node} (hn : n.itype = .epoch) {itypes : NodeType → Bool}
    {line : Cacheline} : ¬ n.On itypes line := by
  cases n with
  | epoch _ => exact id
  | instruction n => exact absurd hn n.itype_ne_epoch

end Node

end Prd.Pycprd
