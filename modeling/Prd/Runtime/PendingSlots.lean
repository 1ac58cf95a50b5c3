import Mathlib.Data.List.Induction
import Prd.Runtime.PendingReads
import Prd.Runtime.UnorderedCollection

/-!
# The slots of pending reads

Each marked read ages the pending ones before it takes a slot, with the whole life in
front of it. So no two of them have the same life left, and there are never more of them
than a life is long.
-/
namespace Prd.Runtime

instance : Inhabited DependencyState := ⟨⟨0, 0, 0, 0, 0, 0⟩⟩

/-- The state of a thread with the slots as they are in memory. -/
structure SlottedThreadState where
  dfPendingReads : UnorderedCollection DependencyState pendingReadsMax
  unusedLabels : List DfsanLabel

namespace SlottedThreadState

def new : SlottedThreadState := ⟨.new, []⟩

def getUnusedLabel (s : SlottedThreadState) (table : LabelTable) :
    Option (DfsanLabel × SlottedThreadState × LabelTable) :=
  match s.unusedLabels.getLast? with
  | some label => some (label, { s with unusedLabels := s.unusedLabels.dropLast }, table)
  | none => do
    let (label, table) ← dfsanCreateLabel table
    pure (label, s, table)

/-- The body of the loop of `df_mark_read`. The label of a removed read is unused from then on. -/
def ageRead (unusedLabels : List DfsanLabel) (p : DependencyState) :
    List DfsanLabel × Option DependencyState :=
  let life := p.life - 1
  if life = 0 then (unusedLabels ++ [p.label], none) else
    (unusedLabels, some { p with life := life })

/-- The result tells whether the read got a slot. -/
def dfMarkRead (s : SlottedThreadState) (table : LabelTable) (label : DfsanLabel)
    (eventId pc addr size : ℕ) : Option (Bool × SlottedThreadState × LabelTable) := do
  let (label, s, table) ← (if label = 0 then s.getUnusedLabel table else some (label, s, table))
  let r := s.dfPendingReads.forEach ageRead s.unusedLabels
  match r.1.add ⟨label, eventId, addr, size, pc, pendingReadsLifeMax⟩ with
  | none => pure (false, ⟨r.1, r.2⟩, table)
  | some c => pure (true, ⟨c, r.2⟩, table)

/-- The body of the loop of `df_process_write`, which prints a line for a read that it removes. -/
def reportRead (table : LabelTable) (labelContent labelAddress : DfsanLabel)
    (eventId tid pc addr : ℕ) (out : List PdLine × List DfsanLabel) (p : DependencyState) :
    (List PdLine × List DfsanLabel) × Option DependencyState :=
  if roundDown addr kCacheLineSize = roundDown p.addr kCacheLineSize then (out, some p)
  else if ¬ dfsanHasLabel table labelContent p.label ∧
      ¬ dfsanHasLabel table labelAddress p.label then
    (out, some p)
  else ((out.1 ++ [⟨tid, p.pc, p.eventId, pc, eventId⟩], out.2 ++ [p.label]), none)

def dfProcessWrite (s : SlottedThreadState) (table : LabelTable)
    (labelContent labelAddress : DfsanLabel) (eventId tid pc addr : ℕ) :
    List PdLine × SlottedThreadState :=
  if labelContent = 0 ∧ labelAddress = 0 then ([], s)
  else
    let r := s.dfPendingReads.forEach
      (reportRead table labelContent labelAddress eventId tid pc addr) ([], s.unusedLabels)
    (r.2.1, ⟨r.1, r.2.2⟩)

end SlottedThreadState

/-- What a call of the thread prints, and whether it marked a read that got no slot. -/
structure CallOutput where
  full : Bool
  lines : List PdLine

structure SlottedFlow where
  thread : SlottedThreadState
  table : LabelTable

section Refinement

open UnorderedCollection PendingReadsCollection

/-- An invalid slot is empty. -/
def Item.toOption {α : Type} (item : Item α) : Option α :=
    if item.valid then some item.data else none

/-- A loop over the slots is a visit of the entries, if its body decides by the entry alone and
records the labels of those it removes. -/
theorem visit_map_toOption {σ : Type} {body : σ → DependencyState → σ × Option DependencyState}
    {f : DependencyState → Option DependencyState} {labels : σ → List DfsanLabel}
    (hf : ∀ s p, (body s p).2 = f p)
    (hlabels : ∀ s p, labels (body s p).1 = match f p with
      | some _ => labels s
      | none => labels s ++ [p.label]) (s : σ) (l : List (Item DependencyState)) :
    visit f (l.map Item.toOption) (labels s) =
      ((visitItems body s l).1.map Item.toOption, labels (visitItems body s l).2) := by
  induction l generalizing s with
  | nil => rfl
  | cons x l ih =>
    obtain ⟨valid, p⟩ := x
    cases valid with
    | false =>
      show (none :: (visit f (l.map Item.toOption) (labels s)).1, _) = _
      rw [ih s]
      rfl
    | true =>
      have hrest := ih (body s p).1
      rw [hlabels] at hrest
      rw [visitItems, hf]
      show visit f (some p :: l.map Item.toOption) (labels s) = _
      rw [visit]
      cases hp : f p with
      | some p' =>
        rw [hp] at hrest
        dsimp only at hrest ⊢
        rw [hrest]
        rfl
      | none =>
        rw [hp] at hrest
        dsimp only at hrest ⊢
        rw [hrest]
        rfl

theorem add_map_toOption (p : DependencyState) (l : List (Item DependencyState)) :
    PendingReadsCollection.add p (l.map Item.toOption) =
      match l.findIdx? fun item => ! item.valid with
      | some i => (l.set i ⟨true, p⟩).map Item.toOption
      | none => l.map Item.toOption := by
  induction l with
  | nil => rfl
  | cons x l ih =>
    obtain ⟨valid, q⟩ := x
    cases valid with
    | false => rfl
    | true =>
      show some q :: PendingReadsCollection.add p (l.map Item.toOption) = _
      rw [ih, List.findIdx?_cons]
      cases l.findIdx? fun item => ! item.valid with
      | some i => rfl
      | none => rfl

namespace SlottedThreadState

/-- The state without what the invalid slots hold. -/
def toThread (s : SlottedThreadState) : CprdThreadState :=
  ⟨s.dfPendingReads.items.map Item.toOption, s.unusedLabels⟩

section

variable {c c' : UnorderedCollection DependencyState pendingReadsMax}

theorem toOption_add {p : DependencyState} :
    PendingReadsCollection.add p (c.items.map Item.toOption) =
      ((c.add p).getD c).items.map Item.toOption := by
  rw [add_map_toOption]
  unfold UnorderedCollection.add findNextFree
  cases c.items.findIdx? fun item => ! item.valid with
  | some i => rfl
  | none => rfl

theorem toOption_forEach {σ : Type} {body : σ → DependencyState → σ × Option DependencyState}
    {f : DependencyState → Option DependencyState} (labels : σ → List DfsanLabel)
    (hf : ∀ s p, (body s p).2 = f p)
    (hlabels : ∀ s p, labels (body s p).1 = match f p with
      | some _ => labels s
      | none => labels s ++ [p.label]) (s : σ) :
    visit f (c.items.map Item.toOption) (labels s) =
      ((c.forEach body s).1.items.map Item.toOption, labels (c.forEach body s).2) := by
  rw [(forEach_eq body s).1, (forEach_eq body s).2]
  exact visit_map_toOption hf hlabels s c.items

end

theorem ageRead_snd (unusedLabels : List DfsanLabel) (p : DependencyState) :
    (ageRead unusedLabels p).2 = CprdThreadState.age p := by
  simp only [ageRead, CprdThreadState.age]
  split_ifs
  · rfl
  · rfl

theorem ageRead_fst (unusedLabels : List DfsanLabel) (p : DependencyState) :
    (ageRead unusedLabels p).1 = match CprdThreadState.age p with
      | some _ => unusedLabels
      | none => unusedLabels ++ [p.label] := by
  simp only [ageRead, CprdThreadState.age]
  split_ifs
  · rfl
  · rfl

variable (table : LabelTable) (labelContent labelAddress : DfsanLabel) (eventId tid pc addr : ℕ)

theorem reportRead_eq (out : List PdLine × List DfsanLabel) (p : DependencyState) :
    reportRead table labelContent labelAddress eventId tid pc addr out p =
      if CprdThreadState.reports table labelContent labelAddress addr p then
        ((out.1 ++ [⟨tid, p.pc, p.eventId, pc, eventId⟩], out.2 ++ [p.label]), none)
      else (out, some p) := by
  unfold reportRead CprdThreadState.reports
  by_cases hline : roundDown addr kCacheLineSize = roundDown p.addr kCacheLineSize
  · simp [hline]
  · cases hcontent : dfsanHasLabel table labelContent p.label with
    | true => simp [hline]
    | false =>
      cases haddress : dfsanHasLabel table labelAddress p.label with
      | true => simp [hline]
      | false => simp [hline]

theorem reportRead_snd (out : List PdLine × List DfsanLabel) (p : DependencyState) :
    (reportRead table labelContent labelAddress eventId tid pc addr out p).2 =
      if CprdThreadState.reports table labelContent labelAddress addr p then none else some p := by
  rw [reportRead_eq]
  split_ifs
  · rfl
  · rfl

theorem reportRead_labels (out : List PdLine × List DfsanLabel) (p : DependencyState) :
    (reportRead table labelContent labelAddress eventId tid pc addr out p).1.2 =
      match if CprdThreadState.reports table labelContent labelAddress addr p then none
        else some p with
      | some _ => out.2
      | none => out.2 ++ [p.label] := by
  rw [reportRead_eq]
  split_ifs
  · rfl
  · rfl

theorem entries_map_toOption (l : List (Item DependencyState)) :
    PendingReadsCollection.entries (l.map Item.toOption) = validData l := by
  induction l with
  | nil => rfl
  | cons x l ih =>
    obtain ⟨valid, p⟩ := x
    cases valid with
    | false => exact ih
    | true => exact congrArg (p :: ·) ih

/-- The lines of a loop are those of the reads it reports. -/
theorem foldl_reportRead (l : List DependencyState) (out : List PdLine × List DfsanLabel) :
    (l.foldl (fun out p =>
      (reportRead table labelContent labelAddress eventId tid pc addr out p).1) out).1 =
      out.1 ++ (l.filter (CprdThreadState.reports table labelContent labelAddress addr)).map
        fun p => ⟨tid, p.pc, p.eventId, pc, eventId⟩ := by
  induction l generalizing out with
  | nil => simp
  | cons p l ih =>
    rw [List.foldl_cons, ih, reportRead_eq]
    split_ifs with hp
    · rw [List.filter_cons_of_pos hp]
      simp
    · rw [List.filter_cons_of_neg hp]

theorem getUnusedLabel_toThread (s : SlottedThreadState) (table : LabelTable) :
    s.toThread.getUnusedLabel table =
      (s.getUnusedLabel table).map fun r => (r.1, r.2.1.toThread, r.2.2) := by
  unfold CprdThreadState.getUnusedLabel getUnusedLabel toThread
  dsimp only
  cases s.unusedLabels.getLast? with
  | some label => rfl
  | none =>
    cases dfsanCreateLabel table with
    | none => rfl
    | some r => rfl

/-- A marked read does to the entries what it does to the slots. -/
theorem dfMarkRead_toThread (s : SlottedThreadState) (label : DfsanLabel) (size : ℕ) :
    s.toThread.dfMarkRead table label eventId pc addr size =
      (s.dfMarkRead table label eventId pc addr size).map fun r => (r.2.1.toThread, r.2.2) := by
  have hmark : ∀ (label : DfsanLabel) (s : SlottedThreadState) (table : LabelTable),
      some ((⟨((s.toThread.dfPendingReads.visit CprdThreadState.age s.unusedLabels).1.add
          ⟨label, eventId, addr, size, pc, pendingReadsLifeMax⟩),
        (s.toThread.dfPendingReads.visit CprdThreadState.age s.unusedLabels).2⟩ : CprdThreadState),
          table) =
      Option.map (fun r : Bool × SlottedThreadState × LabelTable => (r.2.1.toThread, r.2.2))
        (match (s.dfPendingReads.forEach ageRead s.unusedLabels).1.add
            ⟨label, eventId, addr, size, pc, pendingReadsLifeMax⟩ with
          | none => some (false, ⟨(s.dfPendingReads.forEach ageRead s.unusedLabels).1,
              (s.dfPendingReads.forEach ageRead s.unusedLabels).2⟩, table)
          | some c =>
            some (true, ⟨c, (s.dfPendingReads.forEach ageRead s.unusedLabels).2⟩, table)) := by
    intro label s table
    have hvisit :=
      toOption_forEach (c := s.dfPendingReads) id ageRead_snd ageRead_fst s.unusedLabels
    rw [id_eq] at hvisit
    unfold toThread
    rw [hvisit]
    dsimp only
    rw [toOption_add]
    cases (s.dfPendingReads.forEach ageRead s.unusedLabels).1.add
        ⟨label, eventId, addr, size, pc, pendingReadsLifeMax⟩ with
    | none => rfl
    | some c => rfl
  unfold CprdThreadState.dfMarkRead dfMarkRead
  split_ifs with h0
  · rw [getUnusedLabel_toThread]
    cases s.getUnusedLabel table with
    | none => rfl
    | some r => exact hmark r.1 r.2.1 r.2.2
  · exact hmark label s table

/-- A write does to the entries what it does to the slots. -/
theorem dfProcessWrite_toThread (s : SlottedThreadState) :
    s.toThread.dfProcessWrite table labelContent labelAddress eventId tid pc addr =
      ((s.dfProcessWrite table labelContent labelAddress eventId tid pc addr).1,
        (s.dfProcessWrite table labelContent labelAddress eventId tid pc addr).2.toThread) := by
  unfold CprdThreadState.dfProcessWrite dfProcessWrite
  split_ifs with h0
  · rfl
  · have hsnd := reportRead_snd table labelContent labelAddress eventId tid pc addr
    have hvisit := toOption_forEach (c := s.dfPendingReads) Prod.snd hsnd
      (reportRead_labels table labelContent labelAddress eventId tid pc addr) ([], s.unusedLabels)
    have hlines := (entries_forEach (c := s.dfPendingReads) hsnd ([], s.unusedLabels)).2
    unfold toThread
    dsimp only at hvisit ⊢
    rw [hvisit, hlines, foldl_reportRead, entries_map_toOption]
    rfl

end SlottedThreadState

end Refinement

namespace SlottedFlow

def step (s : SlottedFlow) : DataFlow.Call → Option (CallOutput × SlottedFlow)
  | .markRead label eventId pc addr size => do
    let (added, thread, table) ← s.thread.dfMarkRead s.table label eventId pc addr size
    pure (⟨! added, []⟩, ⟨thread, table⟩)
  | .processWrite labelContent labelAddress eventId tid pc addr =>
    let r := s.thread.dfProcessWrite s.table labelContent labelAddress eventId tid pc addr
    some (⟨false, r.1⟩, ⟨r.2, s.table⟩)
  | .created infos => some (⟨false, []⟩, ⟨s.thread, s.table ++ infos⟩)

/-- The state of a new thread, given the labels that others have created. -/
def start (infos : List DfsanLabelInfo) : SlottedFlow := ⟨.new, ⟨0, 0⟩ :: infos⟩

/-- The lines that the calls print and the state after them, unless the program dies. -/
def run (infos : List DfsanLabelInfo) (calls : List DataFlow.Call) :
    Option (List PdLine × SlottedFlow) :=
  calls.foldlM (fun r call => do
    let (out, s) ← r.2.step call
    some (r.1 ++ out.lines, s)) ([], start infos)

theorem run_append_singleton (infos : List DfsanLabelInfo) (calls : List DataFlow.Call)
    (call : DataFlow.Call) :
    run infos (calls ++ [call]) = (run infos calls).bind fun r =>
      (r.2.step call).map fun o => (r.1 ++ o.1.lines, o.2) := by
  unfold run
  rw [List.foldlM_append]
  cases calls.foldlM (fun r call => do
      let (out, s) ← SlottedFlow.step r.2 call
      some (r.1 ++ out.lines, s)) (([] : List PdLine), start infos) with
  | none => rfl
  | some r =>
    rw [Option.bind_eq_bind, Option.bind_some, Option.bind_some, List.foldlM_cons]
    cases r.2.step call with
    | none => rfl
    | some o => rfl

/-- The state without what the invalid slots hold. -/
def toFlow (s : SlottedFlow) : DataFlow := ⟨s.thread.toThread, s.table⟩

/-- A call does to the entries what it does to the slots. -/
theorem step_toFlow (s : SlottedFlow) (call : DataFlow.Call) :
    s.toFlow.step call = (s.step call).map fun r => (r.1.lines, r.2.toFlow) := by
  cases call with
  | markRead label eventId pc addr size =>
    have hmark := SlottedThreadState.dfMarkRead_toThread s.table eventId pc addr s.thread label size
    simp only [DataFlow.step, toFlow, step, hmark]
    cases s.thread.dfMarkRead s.table label eventId pc addr size with
    | none => rfl
    | some r => rfl
  | processWrite labelContent labelAddress eventId tid pc addr =>
    simp only [DataFlow.step, toFlow, step, SlottedThreadState.dfProcessWrite_toThread]
    rfl
  | created infos => rfl

theorem start_toFlow (infos : List DfsanLabelInfo) :
    (start infos).toFlow = DataFlow.start infos := by
  have hslots : ((UnorderedCollection.new : UnorderedCollection DependencyState
      pendingReadsMax).items.map Item.toOption) = List.replicate pendingReadsMax none :=
    List.map_replicate
  unfold start toFlow SlottedThreadState.toThread DataFlow.start CprdThreadState.new
  exact congrArg (fun slots => (⟨⟨slots, []⟩, ⟨0, 0⟩ :: infos⟩ : DataFlow)) hslots

/-- A run prints the lines that the entries give. -/
theorem run_toFlow (infos : List DfsanLabelInfo) (calls : List DataFlow.Call) :
    calls.foldlM (fun r call => (r.2.step call).map fun o => (r.1 ++ o.1, o.2))
      ([], DataFlow.start infos) = (run infos calls).map fun r => (r.1, r.2.toFlow) := by
  induction calls using List.reverseRecOn with
  | nil => exact congrArg (fun s => some ([], s)) (start_toFlow infos).symm
  | append_singleton calls call ih =>
    rw [List.foldlM_append, ih, run_append_singleton]
    cases run infos calls with
    | none => rfl
    | some r =>
      simp only [Option.map_some, Option.bind_eq_bind, Option.bind_some, List.foldlM_cons,
        List.foldlM_nil, step_toFlow]
      cases r.2.step call with
      | none => rfl
      | some o => rfl

end SlottedFlow

end Prd.Runtime
