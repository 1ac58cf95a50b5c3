import Prd.Runtime.DataFlowLabels
import Prd.Runtime.PendingBound

/-!
# Reports of tracked reads

A thread marks the memory that it reads with a label, the program computes with labels and stores
them, and a write is reported with the pending reads whose labels reach it.
-/
namespace Prd.Runtime

namespace PendingReadsCollection

/-- The labels that are in use after the reads have aged and one was added were in use before. -/
theorem mem_mark {c : PendingReadsCollection} {unusedLabels : List DfsanLabel} {p : DependencyState}
    {l : DfsanLabel} (hl : l ∈ (c.visit CprdThreadState.age unusedLabels).2 ++
      ((c.visit CprdThreadState.age unusedLabels).1.add p).labels) :
    l = p.label ∨ l ∈ unusedLabels ++ c.labels := by
  have hage : ∀ q q', CprdThreadState.age q = some q' → q'.label = q.label := by
    intro q q' hq
    obtain ⟨rfl, -⟩ := age_eq_some hq
    rfl
  have hvisit := c.visit_perm hage unusedLabels
  rcases labels_add p (c.visit CprdThreadState.age unusedLabels).1 with hadd | hadd
  · rcases List.mem_append.mp hl with hl | hl
    · exact Or.inr (hvisit.mem_iff.mp (List.mem_append_left _ hl))
    · rcases List.mem_cons.mp (hadd.mem_iff.mp hl) with rfl | hl
      · exact Or.inl rfl
      · exact Or.inr (hvisit.mem_iff.mp (List.mem_append_right _ hl))
  · rw [hadd] at hl
    exact Or.inr (hvisit.mem_iff.mp hl)

end PendingReadsCollection

/-- The labels of the memory, and what a thread knows of the reads that it has marked. -/
structure TrackedThread where
  dfsan : Dfsan
  thread : CprdThreadState

namespace TrackedThread

def new : TrackedThread := ⟨.new, .new⟩

/-- The first part of `df_mark_read`: the label of the memory, or an unused one
that is added to it. -/
def labelRead (s : TrackedThread) (addr size : ℕ) : Option (DfsanLabel × TrackedThread) := do
  let (label, d) ← s.dfsan.readLabel addr size
  if label = 0 then
    let (label, thread, table) ← s.thread.getUnusedLabel d.table
    let d ← ({ d with table := table } : Dfsan).addLabel label addr size
    pure (label, ⟨d, thread⟩)
  else pure (label, ⟨d, s.thread⟩)

def markRead (s : TrackedThread) (eventId pc addr size : ℕ) : Option TrackedThread := do
  let (label, s) ← s.labelRead addr size
  let r := s.thread.dfPendingReads.visit CprdThreadState.age s.thread.unusedLabels
  pure ⟨s.dfsan, ⟨r.1.add ⟨label, eventId, addr, size, pc, pendingReadsLifeMax⟩, r.2⟩⟩

/-- `labelAddress` is what `dfsan_get_label` returns for the address. -/
def processWrite (s : TrackedThread) (labelAddress : DfsanLabel) (eventId tid pc addr size : ℕ) :
    Option (List PdLine × TrackedThread) := do
  let (labelContent, d) ← s.dfsan.readLabel addr size
  let r := s.thread.dfProcessWrite d.table labelContent labelAddress eventId tid pc addr
  pure (r.1, ⟨d, r.2⟩)

/-- What the program does with its labels, and the reads and writes that it is tracked at. -/
inductive Call
  | label (c : LabelCall)
  | markRead (eventId pc addr size : ℕ)
  | processWrite (labelAddress : DfsanLabel) (eventId tid pc addr size : ℕ)

/-- The program has only labels that it was given. -/
def Valid (s : TrackedThread) : Call → Prop
  | .label c => c.Valid s.dfsan
  | .markRead .. => True
  | .processWrite labelAddress .. => labelAddress < s.dfsan.table.length

def Call.Sets (a : ℕ) : Call → Prop
  | .label c => c.Sets a
  | _ => False

def step (s : TrackedThread) : Call → Option (List PdLine × TrackedThread)
  | .label c => (c.exec s.dfsan).map fun d => ([], ⟨d, s.thread⟩)
  | .markRead eventId pc addr size => (s.markRead eventId pc addr size).map fun s => ([], s)
  | .processWrite labelAddress eventId tid pc addr size =>
    s.processWrite labelAddress eventId tid pc addr size

/-- A run, with the lines that each call prints. -/
inductive Run : TrackedThread → List Call → List (List PdLine) → TrackedThread → Prop
  | nil (s : TrackedThread) : Run s [] [] s
  | cons {call : Call} {calls : List Call} {lines : List PdLine} {printed : List (List PdLine)}
      {s s' s'' : TrackedThread} (hvalid : s.Valid call) (hstep : s.step call = some (lines, s'))
      (h : Run s' calls printed s'') : Run s (call :: calls) (lines :: printed) s''

/-- The labels of the thread. -/
def labels (s : TrackedThread) : List DfsanLabel :=
    s.thread.unusedLabels ++ s.thread.dfPendingReads.labels

structure Ok (s : TrackedThread) : Prop where
  dfsan : s.dfsan.Ok
  created : ∀ l ∈ s.labels, l ≠ 0 ∧ l < s.dfsan.table.length

variable {s s' : TrackedThread} {label : DfsanLabel} {call : Call} {calls : List Call}
  {lines : List PdLine} {printed : List (List PdLine)} {eventId tid pc addr size a : ℕ}
  {p : DependencyState}

/-- What a call leaves behind. -/
structure Keeps (s s' : TrackedThread) (a : ℕ) : Prop where
  ok : s'.Ok
  grows : s.dfsan.Grows s'.dfsan
  byte : s.dfsan.Keeps s'.dfsan a

/-- The labels of a thread exist when more are created. -/
theorem Ok.grow {d : Dfsan} (h : s.Ok) (hd : d.Ok) (hg : s.dfsan.Grows d) :
    (⟨d, s.thread⟩ : TrackedThread).Ok :=
  ⟨hd, fun l hl => (h.created l hl).imp id fun hlt => hlt.trans_le hg.length⟩

theorem getUnusedLabel_cases {t t' : CprdThreadState} {table table' : LabelTable}
    (hget : t.getUnusedLabel table = some (label, t', table')) :
    t'.dfPendingReads = t.dfPendingReads ∧ (∀ l ∈ t'.unusedLabels, l ∈ t.unusedLabels) ∧
      (label ∈ t.unusedLabels ∧ table' = table ∨ label = table.length ∧
        table' = table ++ [⟨0, 0⟩]) := by
  unfold CprdThreadState.getUnusedLabel at hget
  cases hlast : t.unusedLabels.getLast? with
  | some l =>
    rw [hlast] at hget
    cases hget
    exact ⟨rfl, fun _ hl => (List.dropLast_sublist _).subset hl,
      Or.inl ⟨List.mem_of_getLast? hlast, rfl⟩⟩
  | none =>
    rw [hlast] at hget
    unfold dfsanCreateLabel at hget
    split_ifs at hget
    · cases hget
    · cases hget
      exact ⟨rfl, fun _ hl => hl, Or.inr ⟨rfl, rfl⟩⟩

/-- An unused label is one that was created. -/
theorem getUnusedLabel_ok {thread : CprdThreadState} {table : LabelTable} (h : s.Ok)
    (hget : s.thread.getUnusedLabel s.dfsan.table = some (label, thread, table)) :
    let s' : TrackedThread := ⟨{ s.dfsan with table := table }, thread⟩
    s'.Ok ∧ s.dfsan.Grows s'.dfsan ∧ label ≠ 0 ∧ label < table.length := by
  obtain ⟨hpending, hunused, hlabel⟩ := getUnusedLabel_cases hget
  have hmem : ∀ l ∈ (⟨s.dfsan, thread⟩ : TrackedThread).labels, l ∈ s.labels := by
    intro l hl
    unfold labels at hl ⊢
    rw [hpending] at hl
    exact List.mem_append.mpr ((List.mem_append.mp hl).imp (hunused l) id)
  rcases hlabel with ⟨hold, rfl⟩ | ⟨rfl, rfl⟩
  · obtain ⟨hne, hlt⟩ := h.created label (List.mem_append_left _ hold)
    exact ⟨⟨h.dfsan, fun l hl => h.created l (hmem l hl)⟩, .refl _, hne, hlt⟩
  · have hg : s.dfsan.Grows (s.dfsan.push ⟨0, 0⟩) := Dfsan.grows_push h.dfsan
    refine ⟨⟨h.dfsan.push ⟨fun _ => rfl, fun hne => absurd rfl hne⟩, fun l hl => ?_⟩, hg,
      h.dfsan.pos.ne', ?_⟩
    · obtain ⟨hne, hlt⟩ := h.created l (hmem l hl)
      exact ⟨hne, hlt.trans_le hg.length⟩
    · simp

theorem labelRead_keeps (h : s.Ok) (hok : s.labelRead addr size = some (label, s')) :
    Keeps s s' a ∧ label ≠ 0 ∧ label < s'.dfsan.table.length := by
  obtain ⟨⟨l, d⟩, hread, hrest⟩ := Option.bind_eq_some_iff.mp hok
  have hreads := Dfsan.readLabel_reads h.dfsan hread
  have hd : (⟨d, s.thread⟩ : TrackedThread).Ok := h.grow hreads.ok hreads.grows
  have hbyte : s.dfsan.Keeps d a := hreads.grows.keeps h.dfsan (congrFun hreads.shadow a)
  by_cases hzero : l = 0
  · simp only [hzero, if_true] at hrest
    obtain ⟨⟨new, thread, table⟩, hget, hrest⟩ := Option.bind_eq_some_iff.mp hrest
    obtain ⟨d', hadd, hrest⟩ := Option.bind_eq_some_iff.mp hrest
    cases hrest
    obtain ⟨hs, hg, hne, hlt⟩ := getUnusedLabel_ok hd hget
    have hadds := Dfsan.addLabel_adds hs.dfsan hlt hadd
    have hgrows := hreads.grows.trans (hg.trans hadds.grows)
    refine ⟨⟨hs.grow hadds.ok hadds.grows, hgrows, fun elem he hhas => ?_⟩, hne,
      hlt.trans_le hadds.grows.length⟩
    exact hadds.keeps hs.dfsan elem he (hg.keeps hd.dfsan rfl elem he (hbyte elem he hhas))
  · simp only [hzero, if_false] at hrest
    cases hrest
    exact ⟨⟨hd, hreads.grows, hbyte⟩, hzero, hreads.lt⟩

theorem markRead_keeps (h : s.Ok) (hok : s.markRead eventId pc addr size = some s') :
    Keeps s s' a := by
  obtain ⟨⟨label, t⟩, hread, hrest⟩ := Option.bind_eq_some_iff.mp hok
  cases hrest
  obtain ⟨hkeeps, hne, hlt⟩ := labelRead_keeps (a := a) h hread
  refine ⟨⟨hkeeps.ok.dfsan, fun l hl => ?_⟩, hkeeps.grows, hkeeps.byte⟩
  rcases PendingReadsCollection.mem_mark hl with rfl | hl
  · exact ⟨hne, hlt⟩
  · exact hkeeps.ok.created l hl

/-- The labels of the reads that a write reports are unused afterwards. -/
theorem dfProcessWrite_labels {t : CprdThreadState} {table : LabelTable} {l1 l2 l : DfsanLabel} :
    let t' := (t.dfProcessWrite table l1 l2 eventId tid pc addr).2
    l ∈ t'.unusedLabels ++ t'.dfPendingReads.labels →
    l ∈ t.unusedLabels ++ t.dfPendingReads.labels := by
  unfold CprdThreadState.dfProcessWrite
  split_ifs with hzero
  · exact id
  · have hkeep : ∀ p p', (if CprdThreadState.reports table l1 l2 addr p then none else some p) =
        some p' → p'.label = p.label := by
      intro p p' hp
      split_ifs at hp
      cases hp
      rfl
    exact (t.dfPendingReads.visit_perm hkeep t.unusedLabels).mem_iff.mp

theorem processWrite_keeps {labelAddress : DfsanLabel} (h : s.Ok)
    (hok : s.processWrite labelAddress eventId tid pc addr size = some (lines, s')) :
    Keeps s s' a := by
  obtain ⟨⟨labelContent, d⟩, hread, hrest⟩ := Option.bind_eq_some_iff.mp hok
  cases hrest
  have hreads := Dfsan.readLabel_reads h.dfsan hread
  refine ⟨⟨hreads.ok, fun l hl => ?_⟩, hreads.grows,
    hreads.grows.keeps h.dfsan (congrFun hreads.shadow a)⟩
  exact (h.grow hreads.ok hreads.grows).created l (dfProcessWrite_labels hl)

/-- One call: the labels of the thread exist, and a byte that is not set keeps what its label
stands for. -/
theorem step_keeps (h : s.Ok) (hvalid : s.Valid call) (hstep : s.step call = some (lines, s')) :
    s'.Ok ∧ (¬ call.Sets a → s.dfsan.Keeps s'.dfsan a) := by
  cases call with
  | label c =>
    obtain ⟨d, hexec, hs⟩ := Option.map_eq_some_iff.mp hstep
    cases hs
    obtain ⟨hok, hg, hbyte⟩ := Dfsan.exec_keeps (a := a) h.dfsan hvalid hexec
    exact ⟨h.grow hok hg, hbyte⟩
  | markRead eventId pc addr size =>
    obtain ⟨t, hmark, hs⟩ := Option.map_eq_some_iff.mp hstep
    cases hs
    have hkeeps : Keeps s s' a := markRead_keeps h hmark
    exact ⟨hkeeps.ok, fun _ => hkeeps.byte⟩
  | processWrite labelAddress eventId tid pc addr size =>
    have hkeeps : Keeps s s' a := processWrite_keeps h hstep
    exact ⟨hkeeps.ok, fun _ => hkeeps.byte⟩

theorem Run.keeps (hrun : Run s calls printed s') (h : s.Ok) :
    s'.Ok ∧ ((∀ c ∈ calls, ¬ c.Sets a) → s.dfsan.Keeps s'.dfsan a) := by
  induction hrun with
  | nil s => exact ⟨h, fun _ _ _ hhas => hhas⟩
  | cons hvalid hstep _ ih =>
    obtain ⟨hok, hbyte⟩ := step_keeps (a := a) h hvalid hstep
    obtain ⟨hok', hbyte'⟩ := ih hok
    refine ⟨hok', fun hset elem he hhas => ?_⟩
    exact hbyte' (fun c hc => hset c (List.mem_cons_of_mem _ hc)) elem he
      (hbyte (hset _ List.mem_cons_self) elem he hhas)

theorem ok_new : new.Ok :=
  ⟨Dfsan.ok_new, fun l hl => by simp [labels, new, CprdThreadState.new] at hl⟩

theorem Run.ok (hrun : Run new calls printed s) : s.Ok := (hrun.keeps (a := 0) ok_new).1

theorem Ok.pending (h : s.Ok) (hp : p ∈ s.thread.dfPendingReads.entries) : p.label ≠ 0 :=
  (h.created p.label (List.mem_append_right _ (List.mem_map_of_mem hp))).1

variable {s₁ s₂ s₃ : TrackedThread} {before later : List Call} {printed' : List (List PdLine)}
  {labelAddress : DfsanLabel} {line : PdLine}

/-- A read of one line, the label of which the program stores on another one. -/
def readThenStore : List Call := [.markRead 0 1 0x1000 1, .label (.set 1 0x2000 1)]

/-- A write is reported with pending reads of other lines only, and with one that has a label of
its own only when a byte of the write or its address has the label. -/
theorem report_has_source (hrun : Run new before printed s₁)
    (haddress : labelAddress < s₁.dfsan.table.length)
    (hwrite : s₁.processWrite labelAddress eventId tid pc addr size = some (lines, s₂))
    (hline : line ∈ lines) :
    ∃ p ∈ s₁.thread.dfPendingReads.entries, line = ⟨tid, p.pc, p.eventId, pc, eventId⟩ ∧
      roundDown addr kCacheLineSize ≠ roundDown p.addr kCacheLineSize ∧ (s₁.dfsan.IsBase p.label →
        (∃ a, addr ≤ a ∧ a < addr + size ∧
          dfsanHasLabel s₁.dfsan.table (s₁.dfsan.shadow a) p.label = true) ∨
          dfsanHasLabel s₁.dfsan.table labelAddress p.label = true) := by
  obtain ⟨⟨labelContent, d⟩, hread, hrest⟩ := Option.bind_eq_some_iff.mp hwrite
  cases hrest
  have hreads := Dfsan.readLabel_reads hrun.ok.dfsan hread
  unfold CprdThreadState.dfProcessWrite at hline
  split_ifs at hline with hzero
  · simp at hline
  · obtain ⟨p, hp, rfl⟩ := List.mem_map.mp hline
    obtain ⟨hmem, hreports⟩ := List.mem_filter.mp hp
    simp only [CprdThreadState.reports, ne_eq, Bool.and_eq_true, decide_eq_true_eq,
      Bool.or_eq_true] at hreports
    obtain ⟨hfar, hlabel⟩ := hreports
    refine ⟨p, hmem, rfl, hfar, fun hbase => ?_⟩
    simp only [hreads.ok.hasLabel_iff] at hlabel
    simp only [hrun.ok.dfsan.hasLabel_iff]
    exact hlabel.imp (hreads.tight p.label hbase)
      (hreads.grows.has labelAddress p.label haddress).mp

theorem report_has_source_sample : ∃ s₁ s₂ lines, Run new readThenStore [[], []] s₁ ∧
    s₁.processWrite 0 1 0 2 0x2000 1 = some (lines, s₂) ∧ ∃ p ∈ s₁.thread.dfPendingReads.entries,
      (⟨0, 1, 0, 2, 1⟩ : PdLine) = ⟨0, p.pc, p.eventId, 2, 1⟩ ∧
        roundDown 0x2000 kCacheLineSize ≠ roundDown p.addr kCacheLineSize ∧
          (s₁.dfsan.IsBase p.label → (∃ a, 0x2000 ≤ a ∧ a < 0x2000 + 1 ∧
            dfsanHasLabel s₁.dfsan.table (s₁.dfsan.shadow a) p.label = true) ∨
              dfsanHasLabel s₁.dfsan.table 0 p.label = true) := by
  have hrun : Run new readThenStore [[], []] _ :=
    .cons trivial rfl (.cons (show 1 < 2 by decide) rfl (.nil _))
  refine ⟨_, _, _, hrun, rfl, report_has_source hrun (show 0 < 2 by decide) rfl ?_⟩
  decide

/-- The thread as it is when the labels of the memory are taken as they come. -/
def toFlow (s : TrackedThread) : DataFlow := ⟨s.thread, s.dfsan.table⟩

/-- The calls of one flow are those of the other, with the labels that were created in between. -/
def Follows (f f' : DataFlow) (lines : List PdLine) : Prop :=
  ∃ calls printed, DataFlow.Run (fun _ _ => True) f calls printed f' ∧ printed.flatten = lines

theorem follows_call {f f' : DataFlow} {c : DataFlow.Call} (hret : f.Returns c)
    (hstep : f.step c = some (lines, f')) : Follows f f' lines :=
  ⟨[c], [lines], .cons hret trivial hstep (.nil _), by simp⟩

theorem follows_created {t : CprdThreadState} {table table' : LabelTable} (h : table <+: table') :
    Follows ⟨t, table⟩ ⟨t, table'⟩ [] := by
  obtain ⟨infos, rfl⟩ := h
  exact follows_call (c := .created infos) trivial rfl

theorem Follows.trans {f f' f'' : DataFlow} {lines' : List PdLine} (h : Follows f f' lines)
    (h' : Follows f' f'' lines') : Follows f f'' (lines ++ lines') := by
  obtain ⟨calls, printed, hrun, rfl⟩ := h
  obtain ⟨calls', printed', hrun', rfl⟩ := h'
  induction hrun with
  | nil f => exact ⟨calls', printed', hrun', rfl⟩
  | cons hret hallowed hstep _ ih =>
    obtain ⟨cs, ps, hrest, hlines⟩ := ih hrun'
    exact ⟨_, _, .cons hret hallowed hstep hrest, by simp [hlines]⟩

theorem Follows.created {f : DataFlow} {t : CprdThreadState} {table table' : LabelTable}
    (h : Follows f ⟨t, table⟩ lines) (hgrows : table <+: table') : Follows f ⟨t, table'⟩ lines := by
  have htrans := h.trans (follows_created hgrows)
  rwa [List.append_nil] at htrans

theorem Follows.of_created {f : DataFlow} {t : CprdThreadState} {table table' : LabelTable}
    (hgrows : table <+: table') (h : Follows ⟨t, table'⟩ f lines) : Follows ⟨t, table⟩ f lines :=
  (follows_created hgrows).trans h

theorem markRead_follows (h : s.Ok) (hok : s.markRead eventId pc addr size = some s') :
    Follows s.toFlow s'.toFlow [] := by
  obtain ⟨⟨label, t⟩, hlabel, hrest⟩ := Option.bind_eq_some_iff.mp hok
  obtain ⟨⟨l, d⟩, hread, hlabel⟩ := Option.bind_eq_some_iff.mp hlabel
  cases hrest
  have hreads := Dfsan.readLabel_reads h.dfsan hread
  refine .of_created hreads.grows.table ?_
  by_cases hzero : l = 0
  · simp only [hzero, if_true] at hlabel
    obtain ⟨⟨new, thread, table⟩, hget, hlabel⟩ := Option.bind_eq_some_iff.mp hlabel
    obtain ⟨d', hadd, hlabel⟩ := Option.bind_eq_some_iff.mp hlabel
    cases hlabel
    obtain ⟨hs, -, -, hlt⟩ := getUnusedLabel_ok (h.grow hreads.ok hreads.grows) hget
    have hadds := Dfsan.addLabel_adds hs.dfsan hlt hadd
    refine .created ?_ hadds.grows.table
    refine follows_call (c := .markRead 0 eventId pc addr size) hreads.ok.pos ?_
    simp [DataFlow.step, CprdThreadState.dfMarkRead, hget]
  · simp only [hzero, if_false] at hlabel
    cases hlabel
    refine follows_call (c := .markRead label eventId pc addr size) hreads.lt ?_
    simp [DataFlow.step, CprdThreadState.dfMarkRead, hzero, toFlow]

theorem step_follows (h : s.Ok) (hvalid : s.Valid call) (hstep : s.step call = some (lines, s')) :
    Follows s.toFlow s'.toFlow lines := by
  cases call with
  | label c =>
    obtain ⟨d, hexec, hs⟩ := Option.map_eq_some_iff.mp hstep
    cases hs
    obtain ⟨-, hg, -⟩ := Dfsan.exec_keeps (a := 0) h.dfsan hvalid hexec
    exact follows_created hg.table
  | markRead eventId pc addr size =>
    obtain ⟨t, hmark, hs⟩ := Option.map_eq_some_iff.mp hstep
    cases hs
    exact markRead_follows h hmark
  | processWrite labelAddress eventId tid pc addr size =>
    obtain ⟨⟨labelContent, d⟩, hread, hrest⟩ := Option.bind_eq_some_iff.mp hstep
    cases hrest
    have hreads := Dfsan.readLabel_reads h.dfsan hread
    refine .of_created hreads.grows.table ?_
    exact follows_call (c := .processWrite labelContent labelAddress eventId tid pc addr)
      ⟨hreads.lt, (show labelAddress < _ from hvalid).trans_le hreads.grows.length⟩ rfl

theorem Run.follows (hrun : Run s calls printed s') (h : s.Ok) :
    Follows s.toFlow s'.toFlow printed.flatten := by
  induction hrun with
  | nil s => exact ⟨[], [], .nil _, rfl⟩
  | cons hvalid hstep _ ih =>
    obtain ⟨hok, -⟩ := step_keeps (a := 0) h hvalid hstep
    exact (step_follows h hvalid hstep).trans (ih hok)

/-- A thread with the labels of its memory does what it does when the labels are taken as they
come: each label that comes was created, and the same lines are printed. -/
theorem tracked_run_is_flow (hrun : Run new calls printed s) :
    Follows (DataFlow.start []) s.toFlow printed.flatten :=
  hrun.follows ok_new

theorem tracked_run_is_flow_sample : ∃ s, Run new readThenStore [[], []] s ∧
    Follows (DataFlow.start []) s.toFlow [] := by
  have hrun : Run new readThenStore [[], []] _ :=
    .cons trivial rfl (.cons (show 1 < 2 by decide) rfl (.nil _))
  exact ⟨_, hrun, tracked_run_is_flow hrun⟩

end TrackedThread

end Prd.Runtime
