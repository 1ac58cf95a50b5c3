import Mathlib.Data.List.Nodup
import Mathlib.Data.List.Perm.Basic
import Prd.Runtime.Cprd

/-!
# Labels of pending reads

A read gets a data-flow label, and a write whose value or address has it depends on
the read. The label of a read that is no longer pending is used again. The memory
keeps it, though, so a later read of the same memory comes with a label that is
unused or held already.
-/
namespace Prd.Runtime

abbrev DfsanLabel := ℕ

/-- The labels that a label is the union of, which are zero for a base label. -/
structure DfsanLabelInfo where
  l1 : DfsanLabel
  l2 : DfsanLabel
  deriving DecidableEq

/-- The entries for the labels that were created, in their order; the first is for label 0. -/
abbrev LabelTable := List DfsanLabelInfo

def kInitializingLabel : DfsanLabel := 2 ^ 16 - 1

/-- The program dies when it is out of labels. -/
def dfsanCreateLabel (table : LabelTable) : Option (DfsanLabel × LabelTable) :=
  if table.length = kInitializingLabel then none
  else some (table.length, table ++ [⟨0, 0⟩])

/-- A union is made of labels that were created before it, so its number bounds the depth. -/
def dfsanHasLabel (table : LabelTable) (label elem : DfsanLabel) : Bool :=
  go label label
where
  go : ℕ → DfsanLabel → Bool
    | 0, label => label == elem
    | fuel + 1, label =>
      if label == elem then true
      else
        match table[label]? with
        | some info => if info.l1 ≠ 0 then go fuel info.l1 || go fuel info.l2 else false
        | none => false

structure DependencyState where
  label : DfsanLabel
  eventId : ℕ
  addr : ℕ
  size : ℕ
  pc : ℕ
  life : UInt32
  deriving DecidableEq

def pendingReadsMax : ℕ := 1000

def pendingReadsLifeMax : UInt32 := 30

/-- The slots of a collection; an invalid one is empty. -/
abbrev PendingReadsCollection := List (Option DependencyState)

namespace PendingReadsCollection

def entries (c : PendingReadsCollection) : List DependencyState := c.filterMap id

def labels (c : PendingReadsCollection) : List DfsanLabel := c.entries.map DependencyState.label

/-- Fills the first free slot, if there is one. -/
def add (p : DependencyState) : PendingReadsCollection → PendingReadsCollection
  | [] => []
  | none :: c => some p :: c
  | some q :: c => some q :: add p c

/-- A loop over the valid slots. An entry stays as `f` leaves it, or it is removed and its label
is unused from then on. -/
def visit (f : DependencyState → Option DependencyState) :
    PendingReadsCollection → List DfsanLabel → PendingReadsCollection × List DfsanLabel
  | [], unusedLabels => ([], unusedLabels)
  | none :: c, unusedLabels =>
    let r := visit f c unusedLabels
    (none :: r.1, r.2)
  | some p :: c, unusedLabels =>
    match f p with
    | some p =>
      let r := visit f c unusedLabels
      (some p :: r.1, r.2)
    | none =>
      let r := visit f c (unusedLabels ++ [p.label])
      (none :: r.1, r.2)

end PendingReadsCollection

/-- A printed PD line. -/
structure PdLine where
  tid : ℕ
  readPc : ℕ
  readEventId : ℕ
  writePc : ℕ
  writeEventId : ℕ
  deriving DecidableEq

structure CprdThreadState where
  dfPendingReads : PendingReadsCollection
  unusedLabels : List DfsanLabel
  deriving DecidableEq

namespace CprdThreadState

def new : CprdThreadState := ⟨List.replicate pendingReadsMax none, []⟩

def getUnusedLabel (s : CprdThreadState) (table : LabelTable) :
    Option (DfsanLabel × CprdThreadState × LabelTable) :=
  match s.unusedLabels.getLast? with
  | some label => some (label, { s with unusedLabels := s.unusedLabels.dropLast }, table)
  | none => do
    let (label, table) ← dfsanCreateLabel table
    pure (label, s, table)

/-- An entry dies when its life is over. -/
def age (p : DependencyState) : Option DependencyState :=
  let life := p.life - 1
  if life = 0 then none else some { p with life := life }

/-- `label` is what `dfsan_read_label` returns for the memory. -/
def dfMarkRead (s : CprdThreadState) (table : LabelTable) (label : DfsanLabel)
    (eventId pc addr size : ℕ) : Option (CprdThreadState × LabelTable) := do
  let (label, s, table) ← (if label = 0 then s.getUnusedLabel table else some (label, s, table))
  let r := s.dfPendingReads.visit age s.unusedLabels
  let p : DependencyState := ⟨label, eventId, addr, size, pc, pendingReadsLifeMax⟩
  pure (⟨r.1.add p, r.2⟩, table)

/-- The write depends on the pending read, which is not on its line. -/
def reports (table : LabelTable) (labelContent labelAddress : DfsanLabel) (addr : ℕ)
    (p : DependencyState) : Bool :=
  roundDown addr kCacheLineSize ≠ roundDown p.addr kCacheLineSize &&
    (dfsanHasLabel table labelContent p.label || dfsanHasLabel table labelAddress p.label)

/-- `labelContent` and `labelAddress` are what `dfsan_read_label` returns for the memory and
`dfsan_get_label` for the address. -/
def dfProcessWrite (s : CprdThreadState) (table : LabelTable)
    (labelContent labelAddress : DfsanLabel) (eventId tid pc addr : ℕ) :
    List PdLine × CprdThreadState :=
  if labelContent = 0 ∧ labelAddress = 0 then ([], s)
  else
    let reports := reports table labelContent labelAddress addr
    let lines := (s.dfPendingReads.entries.filter reports).map fun p =>
      ⟨tid, p.pc, p.eventId, pc, eventId⟩
    let r := s.dfPendingReads.visit (fun p => if reports p then none else some p) s.unusedLabels
    (lines, ⟨r.1, r.2⟩)

end CprdThreadState

structure DataFlow where
  thread : CprdThreadState
  table : LabelTable
  deriving DecidableEq

namespace DataFlow

/-- The calls of a thread with the labels that the sanitizer returns in them. Between them labels
are created for unions and by other threads. -/
inductive Call
  | markRead (label : DfsanLabel) (eventId pc addr size : ℕ)
  | processWrite (labelContent labelAddress : DfsanLabel) (eventId tid pc addr : ℕ)
  | created (infos : List DfsanLabelInfo)

/-- There is no next state when the program dies. -/
def step (s : DataFlow) : Call → Option (List PdLine × DataFlow)
  | .markRead label eventId pc addr size => do
    let (thread, table) ← s.thread.dfMarkRead s.table label eventId pc addr size
    pure ([], ⟨thread, table⟩)
  | .processWrite labelContent labelAddress eventId tid pc addr =>
    let r := s.thread.dfProcessWrite s.table labelContent labelAddress eventId tid pc addr
    some (r.1, ⟨r.2, s.table⟩)
  | .created infos => some ([], ⟨s.thread, s.table ++ infos⟩)

/-- The labels of the pending reads. -/
def held (s : DataFlow) : List DfsanLabel := s.thread.dfPendingReads.labels

/-- The returned labels were created. -/
def Returns (s : DataFlow) : Call → Prop
  | .markRead label .. => label < s.table.length
  | .processWrite labelContent labelAddress .. =>
    labelContent < s.table.length ∧ labelAddress < s.table.length
  | .created _ => True

instance (s : DataFlow) (call : Call) : Decidable (s.Returns call) :=
  match call with
  | .markRead .. => inferInstanceAs (Decidable (_ < _))
  | .processWrite .. => inferInstanceAs (Decidable (_ ∧ _))
  | .created _ => inferInstanceAs (Decidable True)

/-- The state of a new thread, given the labels that others have created. -/
def start (infos : List DfsanLabelInfo) : DataFlow := ⟨.new, ⟨0, 0⟩ :: infos⟩

/-- A run whose calls meet a condition, with the lines that each prints and the last state. -/
inductive Run (allowed : DataFlow → Call → Prop) :
    DataFlow → List Call → List (List PdLine) → DataFlow → Prop
  | nil (s : DataFlow) : Run allowed s [] [] s
  | cons {call : Call} {calls : List Call} {lines : List PdLine} {printed : List (List PdLine)}
      {s s' s'' : DataFlow} : s.Returns call → allowed s call → s.step call = some (lines, s') →
      Run allowed s' calls printed s'' → Run allowed s (call :: calls) (lines :: printed) s''

end DataFlow

namespace PendingReadsCollection

@[simp] theorem labels_none (c : PendingReadsCollection) : labels (none :: c) = labels c := rfl

@[simp] theorem labels_some (p : DependencyState) (c : PendingReadsCollection) :
    labels (some p :: c) = p.label :: labels c := rfl

/-- A label leaves the pending reads for the unused ones. -/
theorem visit_perm {f : DependencyState → Option DependencyState}
    (hf : ∀ p p', f p = some p' → p'.label = p.label) (c : PendingReadsCollection)
    (unusedLabels : List DfsanLabel) :
    ((c.visit f unusedLabels).2 ++ (c.visit f unusedLabels).1.labels).Perm
      (unusedLabels ++ c.labels) := by
  induction c generalizing unusedLabels with
  | nil => exact .refl _
  | cons slot c ih =>
    cases slot with
    | none => exact ih unusedLabels
    | some p =>
      simp only [visit, labels_some]
      cases hp : f p with
      | some p' =>
        simp only [labels_some, hf p p' hp]
        exact (List.perm_middle.trans ((ih unusedLabels).cons _)).trans List.perm_middle.symm
      | none =>
        simp only [labels_none]
        refine (ih _).trans ?_
        rw [List.append_assoc]
        rfl

/-- A full collection stays as it is. -/
theorem labels_add (p : DependencyState) (c : PendingReadsCollection) :
    (c.add p).labels.Perm (p.label :: c.labels) ∨ (c.add p).labels = c.labels := by
  induction c with
  | nil => exact Or.inr rfl
  | cons slot c ih =>
    cases slot with
    | none => exact Or.inl (.refl _)
    | some q =>
      simp only [add, labels_some]
      rcases ih with hperm | heq
      · exact Or.inl ((hperm.cons _).trans (.swap _ _ _))
      · rw [heq]
        exact Or.inr rfl

@[simp] theorem labels_replicate (n : ℕ) : labels (List.replicate n none) = [] := by
  induction n with
  | zero => rfl
  | succ n ih => exact ih

end PendingReadsCollection

end Prd.Runtime
