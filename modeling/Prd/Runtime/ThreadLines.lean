import Prd.Runtime.EventLines

/-!
# The lines of a thread

A thread numbers its accesses to persistent memory and keeps the lines it flushed and
the reads that a write may depend on. So the dependencies that it prints name reads and
writes that it has printed before, by numbers that it uses once.
-/
namespace Prd.Runtime

open Prd.Pycprd PyStr

inductive Line
  | access (a : AccessLine)
  | flush (f : FlushLine)
  | pd (p : PdLine)
  deriving DecidableEq

namespace Line

def print : Line → Option PyStr
  | access a => a.print
  | flush f => f.print
  | pd p => p.print

def tid : Line → ℕ
  | access a => a.tid
  | flush f => f.tid
  | pd p => p.tid

def Valid : Line → Prop
  | access a => a.Valid
  | flush f => f.Valid
  | pd p => p.Valid

/-- The event id that the line introduces. -/
def eventId : Line → Option ℕ
  | access a => some a.eventId
  | _ => none

end Line

/-- An access and the stack that is obtained at it, which is cut to `kStackTraceMax` addresses. -/
structure TracedAccess where
  pc : ℕ
  addr : ℕ
  accessSizeLog : ℕ
  isWrite : Bool
  isAtomic : Bool
  isNonTemporal : Bool
  trace : List ℕ
  pc_lt : pc < 2 ^ 64
  addr_lt : addr < 2 ^ 64
  accessSizeLog_le : accessSizeLog ≤ 3
  trace_ne_nil : trace ≠ []
  trace_length : trace.length ≤ kStackTraceMax
  trace_lt : ∀ pc ∈ trace, pc < 2 ^ 64

/-- What a thread does. The regions, the table of labels and the labels that the sanitizer returns
are those at the time of the access. -/
inductive ThreadOp
  | access (regions : List PMRegion) (a : TracedAccess) (table : LabelTable)
      (labelContent labelAddress : DfsanLabel)
  | flush (addr : ℕ) (addr_lt : addr < 2 ^ 64)
  | fence (pc : ℕ) (pc_lt : pc < 2 ^ 64)

structure PrintingThread where
  thr : ThreadState
  dataFlow : CprdThreadState

namespace PrintingThread

def new : PrintingThread := ⟨.new, .new⟩

def line (a : TracedAccess) (tid eventId : ℕ) : AccessLine :=
  ⟨tid, eventId, a.isWrite, a.pc, a.addr, a.accessSizeLog, a.isAtomic, a.isNonTemporal, a.trace⟩

/-- `instrument_memory_access` with the analysis of dependencies. -/
def instrumentMemoryAccess (s : PrintingThread) (tid : ℕ) (regions : List PMRegion)
    (a : TracedAccess) (table : LabelTable) (labelContent labelAddress : DfsanLabel) :
    Option (List Line × PrintingThread) :=
  if isPmAddress regions a.addr then
    let eventId := s.thr.eventCounter
    let thr := { s.thr with eventCounter := eventId + 1 }
    if a.isWrite then
      let r := s.dataFlow.dfProcessWrite table labelContent labelAddress eventId tid a.pc a.addr
      some (.access (line a tid eventId) :: r.1.map .pd, ⟨thr, r.2⟩)
    else do
      let (dataFlow, _) ← s.dataFlow.dfMarkRead table labelContent eventId a.pc a.addr
        (2 ^ a.accessSizeLog)
      pure ([.access (line a tid eventId)], ⟨thr, dataFlow⟩)
  else some ([], s)

def instrumentFence (s : PrintingThread) (tid pc : ℕ) : List Line × PrintingThread :=
  (s.thr.flushesCache.map fun addr => .flush ⟨tid, pc, addr⟩,
    { s with thr := { s.thr with flushesCache := [] } })

/-- There is no next state when the program dies. -/
def step (s : PrintingThread) (tid : ℕ) : ThreadOp → Option (List Line × PrintingThread)
  | .access regions a table labelContent labelAddress =>
    s.instrumentMemoryAccess tid regions a table labelContent labelAddress
  | .flush addr _ => some ([], { s with thr := s.thr.instrumentFlush addr })
  | .fence pc _ => some (s.instrumentFence tid pc)

/-- The lines of a run. -/
def run (tid : ℕ) : PrintingThread → List ThreadOp → Option (List Line)
  | _, [] => some []
  | s, op :: ops => do
    let (lines, s) ← s.step tid op
    let rest ← run tid s ops
    pure (lines ++ rest)

end PrintingThread

/-- The lines of one thread: numbers are used once, and a dependency names a write and a read that
were printed before it. -/
structure Coherent (tid : ℕ) (lines : List Line) : Prop where
  valid : ∀ l ∈ lines, l.Valid ∧ l.tid = tid
  nodup : (lines.filterMap Line.eventId).Nodup
  write : ∀ pre p post, lines = pre ++ .pd p :: post →
    ∃ a, .access a ∈ pre ∧ a.isWrite = true ∧ a.eventId = p.writeEventId
  read : ∀ pre p post, lines = pre ++ .pd p :: post →
    ∃ a, .access a ∈ pre ∧ a.isWrite = false ∧ a.eventId = p.readEventId

namespace Coherent

variable {tid : ℕ} {lines : List Line}

theorem nil : Coherent tid [] where
  valid := by simp
  nodup := List.nodup_nil
  write := by simp
  read := by simp

theorem of_prefix_of (h : Coherent tid lines) {pre : List Line} (hpre : pre <+: lines) :
    Coherent tid pre := by
  obtain ⟨rest, rfl⟩ := hpre
  refine ⟨fun l hl => h.valid l (List.mem_append_left _ hl), ?_, ?_, ?_⟩
  · have hnd := h.nodup
    rw [List.filterMap_append] at hnd
    exact (List.nodup_append.mp hnd).1
  · intro pre' p post he
    exact h.write pre' p (post ++ rest) (by simp [he])
  · intro pre' p post he
    exact h.read pre' p (post ++ rest) (by simp [he])

/-- One more line. -/
theorem append_singleton (h : Coherent tid lines) {l : Line} (hl : l.Valid ∧ l.tid = tid)
    (hid : ∀ id ∈ l.eventId, ∀ l' ∈ lines, l'.eventId ≠ some id)
    (hwrite : ∀ p, l = .pd p →
      ∃ a, .access a ∈ lines ∧ a.isWrite = true ∧ a.eventId = p.writeEventId)
    (hread : ∀ p, l = .pd p →
      ∃ a, .access a ∈ lines ∧ a.isWrite = false ∧ a.eventId = p.readEventId) :
    Coherent tid (lines ++ [l]) := by
  refine ⟨fun l' hl' => ?_, ?_, ?_, ?_⟩
  · rcases List.mem_append.mp hl' with hl' | hl'
    · exact h.valid l' hl'
    · rw [List.mem_singleton.mp hl']
      exact hl
  · rw [List.filterMap_append, List.nodup_append]
    refine ⟨h.nodup, ?_, ?_⟩
    · cases hid : l.eventId <;> simp [hid]
    · intro id hold id' hnew
      obtain ⟨l', hl', hold⟩ := List.mem_filterMap.mp hold
      obtain ⟨l'', hl'', hnew⟩ := List.mem_filterMap.mp hnew
      rw [List.mem_singleton.mp hl''] at hnew
      rintro rfl
      exact hid id hnew l' hl' hold
  · intro pre p post he
    rcases Foundation.append_singleton_eq_iff.mp he with ⟨rfl, hl, -⟩ | ⟨post', -, he⟩
    · exact hwrite p hl.symm
    · exact h.write pre p post' he
  · intro pre p post he
    rcases Foundation.append_singleton_eq_iff.mp he with ⟨rfl, hl, -⟩ | ⟨post', -, he⟩
    · exact hread p hl.symm
    · exact h.read pre p post' he

/-- Lines without a number of their own. -/
theorem append (h : Coherent tid lines) {more : List Line}
    (hmore : ∀ l ∈ more, (l.Valid ∧ l.tid = tid) ∧ l.eventId = none)
    (hwrite : ∀ p, .pd p ∈ more →
      ∃ a, .access a ∈ lines ∧ a.isWrite = true ∧ a.eventId = p.writeEventId)
    (hread : ∀ p, .pd p ∈ more →
      ∃ a, .access a ∈ lines ∧ a.isWrite = false ∧ a.eventId = p.readEventId) :
    Coherent tid (lines ++ more) := by
  induction more generalizing lines with
  | nil =>
    rw [List.append_nil]
    exact h
  | cons l more ih =>
    obtain ⟨hvalid, hid⟩ := hmore l List.mem_cons_self
    have hlater : ∀ b id, (∃ a, Line.access a ∈ lines ∧ a.isWrite = b ∧ a.eventId = id) →
        ∃ a, Line.access a ∈ lines ++ [l] ∧ a.isWrite = b ∧ a.eventId = id := by
      intro b id h
      obtain ⟨a, ha, hb⟩ := h
      exact ⟨a, List.mem_append_left _ ha, hb⟩
    have hone : Coherent tid (lines ++ [l]) := by
      apply h.append_singleton hvalid
      · rw [hid]
        simp
      · rintro p rfl
        exact hwrite p List.mem_cons_self
      · rintro p rfl
        exact hread p List.mem_cons_self
    rw [List.append_cons]
    apply ih hone (fun l' hl' => hmore l' (List.mem_cons_of_mem _ hl'))
    · exact fun p hp => hlater _ _ (hwrite p (List.mem_cons_of_mem _ hp))
    · exact fun p hp => hlater _ _ (hread p (List.mem_cons_of_mem _ hp))

end Coherent

namespace PendingReadsCollection

theorem mem_entries_add {p q : DependencyState} {c : PendingReadsCollection}
    (hq : q ∈ (c.add p).entries) : q = p ∨ q ∈ c.entries := by
  induction c with
  | nil => cases hq
  | cons slot c ih =>
    cases slot with
    | none =>
      rcases List.mem_cons.mp hq with rfl | hq
      · exact Or.inl rfl
      · exact Or.inr hq
    | some r =>
      rcases List.mem_cons.mp hq with rfl | hq
      · exact Or.inr List.mem_cons_self
      · exact (ih hq).imp id (List.mem_cons_of_mem _)

/-- The entries after a loop over the slots. -/
theorem entries_visit (f : DependencyState → Option DependencyState) (c : PendingReadsCollection)
    (unusedLabels : List DfsanLabel) :
    (c.visit f unusedLabels).1.entries = c.entries.filterMap f := by
  induction c generalizing unusedLabels with
  | nil => rfl
  | cons slot c ih =>
    cases slot with
    | none => exact ih unusedLabels
    | some p =>
      have hentries : entries (some p :: c) = p :: entries c := rfl
      unfold visit
      rw [hentries, List.filterMap_cons]
      cases hp : f p with
      | some p' => exact congrArg (p' :: ·) (ih unusedLabels)
      | none => exact ih _

end PendingReadsCollection

namespace PrintingThread

/-- What holds of a thread that has printed the lines. -/
structure Printed (tid : ℕ) (lines : List Line) (s : PrintingThread) : Prop where
  coherent : Coherent tid lines
  used : ∀ a, .access a ∈ lines → a.eventId < s.thr.eventCounter
  pending : ∀ q ∈ s.dataFlow.dfPendingReads.entries, ∃ a, .access a ∈ lines ∧ a.isWrite = false ∧
    a.eventId = q.eventId ∧ a.pc = q.pc
  cache : ∀ addr ∈ s.thr.flushesCache, addr < 2 ^ 64

theorem printed_new (tid : ℕ) : Printed tid [] new where
  coherent := .nil
  used := by simp
  pending := by
    intro q hq
    simp [new, CprdThreadState.new, PendingReadsCollection.entries] at hq
  cache := by simp [new, ThreadState.new]

variable {tid : ℕ} {done lines : List Line} {s s' : PrintingThread}

theorem Printed.access_mono (h : Printed tid done s) {a : AccessLine}
    (hid : a.eventId = s.thr.eventCounter) {b : AccessLine}
    (hb : .access b ∈ done ++ [.access a]) : b.eventId < s.thr.eventCounter + 1 := by
  rcases List.mem_append.mp hb with hb | hb
  · exact Nat.lt_succ_of_lt (h.used b hb)
  · rw [Line.access.inj (List.mem_singleton.mp hb), hid]
    exact Nat.lt_succ_self _

theorem valid_line (a : TracedAccess) (htid : tid < 2 ^ 31) {eventId : ℕ} (hid : eventId < 2 ^ 64) :
    (line a tid eventId).Valid :=
  ⟨htid, hid, a.pc_lt, a.addr_lt, a.accessSizeLog_le, a.trace_ne_nil, a.trace_length, a.trace_lt⟩

/-- The line of the access itself. -/
theorem Printed.coherent_access (h : Printed tid done s) (htid : tid < 2 ^ 31)
    (hcount : s.thr.eventCounter < 2 ^ 64) (a : TracedAccess) :
    Coherent tid (done ++ [.access (line a tid s.thr.eventCounter)]) := by
  have hvalid : (Line.access (line a tid s.thr.eventCounter)).Valid ∧
      (Line.access (line a tid s.thr.eventCounter)).tid = tid :=
    ⟨valid_line a htid hcount, rfl⟩
  apply h.coherent.append_singleton hvalid
  · intro id hid l hl he
    cases hid
    cases l with
    | access b =>
      have heq : b.eventId = s.thr.eventCounter := Option.some.inj he
      exact absurd (h.used b hl) (by omega)
    | flush f => cases he
    | pd p => cases he
  · intro p hp
    cases hp
  · intro p hp
    cases hp

theorem dfPendingReads_getUnusedLabel {c c' : CprdThreadState} {table table' : LabelTable}
    {label : DfsanLabel} (h : c.getUnusedLabel table = some (label, c', table')) :
    c'.dfPendingReads = c.dfPendingReads := by
  unfold CprdThreadState.getUnusedLabel at h
  cases hlast : c.unusedLabels.getLast? with
  | some l =>
    rw [hlast] at h
    cases h
    rfl
  | none =>
    rw [hlast] at h
    obtain ⟨_, -, h⟩ := Option.bind_eq_some_iff.mp h
    cases h
    rfl

theorem Printed.markRead (h : Printed tid done s) (htid : tid < 2 ^ 31)
    (hcount : s.thr.eventCounter < 2 ^ 64) {a : TracedAccess} (hread : a.isWrite = false)
    {table table' : LabelTable} {label : DfsanLabel} {dataFlow : CprdThreadState}
    (hmark : s.dataFlow.dfMarkRead table label s.thr.eventCounter a.pc a.addr
      (2 ^ a.accessSizeLog) = some (dataFlow, table')) :
    Printed tid (done ++ [.access (line a tid s.thr.eventCounter)])
      ⟨{ s.thr with eventCounter := s.thr.eventCounter + 1 }, dataFlow⟩ where
  coherent := h.coherent_access htid hcount a
  used := fun b hb => h.access_mono rfl hb
  pending := by
    intro q hq
    unfold CprdThreadState.dfMarkRead at hmark
    obtain ⟨⟨label', t, table''⟩, hlabel, hmark⟩ := Option.bind_eq_some_iff.mp hmark
    cases hmark
    have hreads : t.dfPendingReads = s.dataFlow.dfPendingReads := by
      split_ifs at hlabel with h0
      · exact dfPendingReads_getUnusedLabel hlabel
      · cases hlabel
        rfl
    rcases PendingReadsCollection.mem_entries_add hq with rfl | hq
    · exact ⟨_, List.mem_append_right _ List.mem_cons_self, hread, rfl, rfl⟩
    · rw [PendingReadsCollection.entries_visit, List.mem_filterMap] at hq
      obtain ⟨p, hp, hage⟩ := hq
      rw [hreads] at hp
      obtain ⟨b, hb, hbread, hbid, hbpc⟩ := h.pending p hp
      have hsame : q.eventId = p.eventId ∧ q.pc = p.pc := by
        unfold CprdThreadState.age at hage
        dsimp only at hage
        split_ifs at hage
        cases hage
        exact ⟨rfl, rfl⟩
      exact ⟨b, List.mem_append_left _ hb, hbread, hbid.trans hsame.1.symm, hbpc.trans hsame.2.symm⟩
  cache := h.cache

/-- What a write prints is about entries, and it only removes entries. -/
theorem dfProcessWrite_spec {c : CprdThreadState} {table : LabelTable}
    {labelContent labelAddress : DfsanLabel} {eventId pc addr : ℕ}
    {r : List PdLine × CprdThreadState}
    (hr : c.dfProcessWrite table labelContent labelAddress eventId tid pc addr = r) :
    (∀ p ∈ r.1, ∃ q ∈ c.dfPendingReads.entries, p = ⟨tid, q.pc, q.eventId, pc, eventId⟩) ∧
      ∀ q ∈ r.2.dfPendingReads.entries, q ∈ c.dfPendingReads.entries := by
  unfold CprdThreadState.dfProcessWrite at hr
  split_ifs at hr
  · cases hr
    exact ⟨by simp, fun q hq => hq⟩
  · cases hr
    refine ⟨fun p hp => ?_, fun q hq => ?_⟩
    · obtain ⟨q, hq, rfl⟩ := List.mem_map.mp hp
      exact ⟨q, (List.mem_filter.mp hq).1, rfl⟩
    · rw [PendingReadsCollection.entries_visit, List.mem_filterMap] at hq
      obtain ⟨p, hp, he⟩ := hq
      split_ifs at he
      cases he
      exact hp

theorem Printed.processWrite (h : Printed tid done s) (htid : tid < 2 ^ 31)
    (hcount : s.thr.eventCounter < 2 ^ 64) {a : TracedAccess} (hwrite : a.isWrite = true)
    (table : LabelTable) (labelContent labelAddress : DfsanLabel)
    {r : List PdLine × CprdThreadState} (hr : s.dataFlow.dfProcessWrite table labelContent
      labelAddress s.thr.eventCounter tid a.pc a.addr = r) :
    Printed tid (done ++ .access (line a tid s.thr.eventCounter) :: r.1.map .pd)
      ⟨{ s.thr with eventCounter := s.thr.eventCounter + 1 }, r.2⟩ := by
  obtain ⟨hlines, hpending⟩ := dfProcessWrite_spec hr
  have hmem : ∀ b, .access b ∈ done ++ Line.access (line a tid s.thr.eventCounter) :: r.1.map .pd →
      .access b ∈ done ++ [Line.access (line a tid s.thr.eventCounter)] := by
    intro b hb
    simpa using hb
  constructor
  · rw [List.append_cons]
    apply (h.coherent_access htid hcount a).append
    · intro l hl
      obtain ⟨p, hp, rfl⟩ := List.mem_map.mp hl
      obtain ⟨q, hq, rfl⟩ := hlines p hp
      obtain ⟨b, hb, -, hid, hpc⟩ := h.pending q hq
      have hvalid : b.Valid := (h.coherent.valid _ hb).1
      exact ⟨⟨⟨htid, hpc ▸ hvalid.pc, hid ▸ hvalid.eventId, a.pc_lt, hcount⟩, rfl⟩, rfl⟩
    · intro p hp
      obtain ⟨p', hp', he⟩ := List.mem_map.mp hp
      obtain ⟨q, hq, rfl⟩ := hlines p' hp'
      cases he
      exact ⟨_, List.mem_append_right _ List.mem_cons_self, hwrite, rfl⟩
    · intro p hp
      obtain ⟨p', hp', he⟩ := List.mem_map.mp hp
      obtain ⟨q, hq, rfl⟩ := hlines p' hp'
      cases he
      obtain ⟨b, hb, hbread, hid, -⟩ := h.pending q hq
      exact ⟨b, List.mem_append_left _ hb, hbread, hid⟩
  · exact fun b hb => h.access_mono rfl (hmem b hb)
  · intro q hq
    obtain ⟨b, hb, hrest⟩ := h.pending q (hpending q hq)
    exact ⟨b, List.mem_append_left _ hb, hrest⟩
  · exact h.cache

theorem Printed.fence (h : Printed tid done s) (htid : tid < 2 ^ 31) {pc : ℕ} (hpc : pc < 2 ^ 64) :
    Printed tid (done ++ (s.instrumentFence tid pc).1) (s.instrumentFence tid pc).2 := by
  have hmem : ∀ b, .access b ∈ done ++ (s.instrumentFence tid pc).1 → .access b ∈ done := by
    intro b hb
    simpa [instrumentFence] using hb
  have hflush : ∀ l ∈ (s.instrumentFence tid pc).1, ∃ addr ∈ s.thr.flushesCache,
      Line.flush ⟨tid, pc, addr⟩ = l := fun l hl => List.mem_map.mp hl
  constructor
  · apply h.coherent.append
    · intro l hl
      obtain ⟨addr, haddr, rfl⟩ := hflush l hl
      exact ⟨⟨⟨htid, hpc, h.cache addr haddr⟩, rfl⟩, rfl⟩
    · intro p hp
      obtain ⟨addr, -, he⟩ := hflush _ hp
      cases he
    · intro p hp
      obtain ⟨addr, -, he⟩ := hflush _ hp
      cases he
  · exact fun b hb => h.used b (hmem b hb)
  · intro q hq
    obtain ⟨b, hb, hrest⟩ := h.pending q hq
    exact ⟨b, List.mem_append_left _ hb, hrest⟩
  · simp [instrumentFence]

theorem Printed.step (h : Printed tid done s) (htid : tid < 2 ^ 31)
    (hcount : s.thr.eventCounter < 2 ^ 64) {op : ThreadOp}
    (hstep : s.step tid op = some (lines, s')) :
    Printed tid (done ++ lines) s' ∧ s'.thr.eventCounter ≤ s.thr.eventCounter + 1 := by
  cases op with
  | access regions a table labelContent labelAddress =>
    unfold PrintingThread.step instrumentMemoryAccess at hstep
    dsimp only at hstep
    split_ifs at hstep with hpm hw
    · cases hstep
      exact ⟨h.processWrite htid hcount hw table labelContent labelAddress rfl, le_rfl⟩
    · obtain ⟨⟨dataFlow, table'⟩, hmark, hstep⟩ := Option.bind_eq_some_iff.mp hstep
      cases hstep
      exact ⟨h.markRead htid hcount (Bool.not_eq_true _ ▸ hw) hmark, le_rfl⟩
    · cases hstep
      rw [List.append_nil]
      exact ⟨h, Nat.le_succ _⟩
  | flush addr haddr =>
    cases hstep
    rw [List.append_nil]
    refine ⟨⟨h.coherent, h.used, h.pending, fun addr' haddr' => ?_⟩, Nat.le_succ _⟩
    rcases List.mem_append.mp haddr' with haddr' | haddr'
    · exact h.cache addr' haddr'
    · rw [List.mem_singleton.mp haddr', roundDown_eq haddr]
      omega
  | fence pc hpc =>
    cases hstep
    exact ⟨h.fence htid hpc, Nat.le_succ _⟩

/-- A run keeps what holds of its lines. -/
theorem Printed.run (h : Printed tid done s) (htid : tid < 2 ^ 31) {ops : List ThreadOp}
    (hcount : s.thr.eventCounter + ops.length ≤ 2 ^ 64) (hrun : run tid s ops = some lines) :
    Coherent tid (done ++ lines) := by
  induction ops generalizing done s lines with
  | nil =>
    cases hrun
    rw [List.append_nil]
    exact h.coherent
  | cons op ops ih =>
    obtain ⟨⟨first, s₁⟩, hstep, hrun⟩ := Option.bind_eq_some_iff.mp hrun
    obtain ⟨rest, hrest, hrun⟩ := Option.bind_eq_some_iff.mp hrun
    cases hrun
    rw [List.length_cons] at hcount
    obtain ⟨hprinted, hle⟩ := h.step htid (by omega) hstep
    rw [← List.append_assoc]
    exact ih hprinted (by omega) hrest

theorem coherent_run (htid : tid < 2 ^ 31) {ops : List ThreadOp} (hcount : ops.length ≤ 2 ^ 64)
    (hrun : run tid new ops = some lines) : Coherent tid lines :=
  (printed_new tid).run htid (by simpa [new, ThreadState.new] using hcount) hrun

end PrintingThread

end Prd.Runtime
