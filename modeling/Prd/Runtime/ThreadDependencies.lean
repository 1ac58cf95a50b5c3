import Prd.Runtime.ThreadLines

/-!
# Where the lines of a thread point

A thread flushes whole lines, and a dependency that it prints is between accesses to different
lines. The pending reads keep the addresses that they were printed with.
-/
namespace Prd.Runtime

open Prd.Pycprd

/-- The lines of one thread stand for whole cache lines. -/
structure Aligned (lines : List Line) : Prop where
  flush : ∀ f, .flush f ∈ lines → f.addr % 64 = 0
  apart : ∀ p, .pd p ∈ lines → ∀ a b, .access a ∈ lines → .access b ∈ lines →
    a.eventId = p.writeEventId → b.eventId = p.readEventId → a.addr / 64 ≠ b.addr / 64

theorem Aligned.of_prefix_of {lines pre : List Line} (h : Aligned lines) (hpre : pre <+: lines) :
    Aligned pre where
  flush := fun f hf => h.flush f (hpre.subset hf)
  apart := fun p hp a b ha hb => h.apart p (hpre.subset hp) a b (hpre.subset ha) (hpre.subset hb)

namespace PrintingThread

/-- What holds of a thread that has printed the lines. -/
structure Addressed (tid : ℕ) (lines : List Line) (s : PrintingThread) : Prop where
  printed : Printed tid lines s
  aligned : Aligned lines
  pending : ∀ q ∈ s.dataFlow.dfPendingReads.entries, q.addr < 2 ^ 64 ∧
    ∀ b, .access b ∈ lines → b.eventId = q.eventId → b.addr = q.addr
  cache : ∀ addr ∈ s.thr.flushesCache, addr % 64 = 0

theorem addressed_new (tid : ℕ) : Addressed tid [] new where
  printed := printed_new tid
  aligned := ⟨by simp, by simp⟩
  pending := by
    intro q hq
    simp [new, CprdThreadState.new, PendingReadsCollection.entries] at hq
  cache := by simp [new, ThreadState.new]

variable {tid : ℕ} {done lines : List Line} {s s' : PrintingThread}

/-- A pending read was printed before. -/
theorem Addressed.pending_lt (h : Addressed tid done s) {q : DependencyState}
    (hq : q ∈ s.dataFlow.dfPendingReads.entries) : q.eventId < s.thr.eventCounter := by
  obtain ⟨a, ha, -, hid, -⟩ := h.printed.pending q hq
  rw [← hid]
  exact h.printed.used a ha

/-- A number that was used before stands for the same access after one more. -/
theorem Addressed.access_old (h : Addressed tid done s) {a : AccessLine}
    (hid : a.eventId = s.thr.eventCounter) {b : AccessLine} (hb : .access b ∈ done ++ [.access a]) :
    .access b ∈ done ∨ b = a ∧ ∀ q ∈ s.dataFlow.dfPendingReads.entries, b.eventId ≠ q.eventId := by
  rcases List.mem_append.mp hb with hb | hb
  · exact Or.inl hb
  · cases List.mem_singleton.mp hb
    refine Or.inr ⟨rfl, fun q hq he => ?_⟩
    have hlt := h.pending_lt hq
    omega

theorem Addressed.pending_access (h : Addressed tid done s) {a : AccessLine}
    (hid : a.eventId = s.thr.eventCounter) {q : DependencyState}
    (hq : q ∈ s.dataFlow.dfPendingReads.entries) {b : AccessLine}
    (hb : .access b ∈ done ++ [.access a]) (he : b.eventId = q.eventId) : b.addr = q.addr := by
  rcases h.access_old hid hb with hb | ⟨-, hne⟩
  · exact (h.pending q hq).2 b hb he
  · exact absurd he (hne q hq)

theorem Addressed.aligned_access (h : Addressed tid done s) {a : AccessLine}
    (hid : a.eventId = s.thr.eventCounter) : Aligned (done ++ [.access a]) := by
  have hused : ∀ p, .pd p ∈ done → p.writeEventId < s.thr.eventCounter ∧
      p.readEventId < s.thr.eventCounter := by
    intro p hp
    obtain ⟨pre, post, rfl⟩ := List.append_of_mem hp
    obtain ⟨w, hw, -, hwid⟩ := h.printed.coherent.write pre p post rfl
    obtain ⟨r, hr, -, hrid⟩ := h.printed.coherent.read pre p post rfl
    rw [← hwid, ← hrid]
    exact ⟨h.printed.used w (List.mem_append_left _ hw),
      h.printed.used r (List.mem_append_left _ hr)⟩
  have hold : ∀ b id, id < s.thr.eventCounter → Line.access b ∈ done ++ [.access a] →
      b.eventId = id → Line.access b ∈ done := by
    intro b id hlt hb he
    rcases List.mem_append.mp hb with hb | hb
    · exact hb
    · cases List.mem_singleton.mp hb
      omega
  constructor
  · intro f hf
    exact h.aligned.flush f (by simpa using hf)
  · intro p hp b d hb hd hbid hdid
    have hp : Line.pd p ∈ done := by simpa using hp
    obtain ⟨hw, hr⟩ := hused p hp
    exact h.aligned.apart p hp b d (hold b _ hw hb hbid) (hold d _ hr hd hdid) hbid hdid

/-- The entries after a read was marked. -/
theorem dfMarkRead_entries {c c' : CprdThreadState} {table table' : LabelTable} {label : DfsanLabel}
    {eventId pc addr size : ℕ}
    (h : c.dfMarkRead table label eventId pc addr size = some (c', table')) :
    ∀ q ∈ c'.dfPendingReads.entries, (q.eventId = eventId ∧ q.addr = addr) ∨
      ∃ p ∈ c.dfPendingReads.entries, q.eventId = p.eventId ∧ q.addr = p.addr := by
  intro q hq
  unfold CprdThreadState.dfMarkRead at h
  obtain ⟨⟨label', t, table''⟩, hlabel, h⟩ := Option.bind_eq_some_iff.mp h
  cases h
  have hreads : t.dfPendingReads = c.dfPendingReads := by
    split_ifs at hlabel
    · exact dfPendingReads_getUnusedLabel hlabel
    · cases hlabel
      rfl
  rcases PendingReadsCollection.mem_entries_add hq with rfl | hq
  · exact Or.inl ⟨rfl, rfl⟩
  · rw [PendingReadsCollection.entries_visit, List.mem_filterMap, hreads] at hq
    obtain ⟨p, hp, hage⟩ := hq
    refine Or.inr ⟨p, hp, ?_⟩
    unfold CprdThreadState.age at hage
    dsimp only at hage
    split_ifs at hage
    cases hage
    exact ⟨rfl, rfl⟩

theorem Addressed.markRead (h : Addressed tid done s) (htid : tid < 2 ^ 31)
    (hcount : s.thr.eventCounter < 2 ^ 64) {a : TracedAccess} (hread : a.isWrite = false)
    {table table' : LabelTable} {label : DfsanLabel} {dataFlow : CprdThreadState}
    (hmark : s.dataFlow.dfMarkRead table label s.thr.eventCounter a.pc a.addr
      (2 ^ a.accessSizeLog) = some (dataFlow, table')) :
    Addressed tid (done ++ [.access (line a tid s.thr.eventCounter)])
      ⟨{ s.thr with eventCounter := s.thr.eventCounter + 1 }, dataFlow⟩ where
  printed := h.printed.markRead htid hcount hread hmark
  aligned := h.aligned_access rfl
  pending := by
    intro q hq
    rcases dfMarkRead_entries hmark q hq with ⟨hid, haddr⟩ | ⟨p, hp, hid, haddr⟩
    · rw [hid, haddr]
      refine ⟨a.addr_lt, fun b hb he => ?_⟩
      rcases List.mem_append.mp hb with hb | hb
      · have hlt := h.printed.used b hb
        omega
      · cases List.mem_singleton.mp hb
        rfl
    · rw [hid, haddr]
      exact ⟨(h.pending p hp).1, fun b hb he => h.pending_access (a := line a tid _) rfl hp hb he⟩
  cache := h.cache

/-- What a write prints is about entries of other lines. -/
theorem dfProcessWrite_reports {c : CprdThreadState} {table : LabelTable}
    {labelContent labelAddress : DfsanLabel} {eventId pc addr : ℕ} {p : PdLine}
    (hp : p ∈ (c.dfProcessWrite table labelContent labelAddress eventId tid pc addr).1) :
    p.writeEventId = eventId ∧ ∃ q ∈ c.dfPendingReads.entries, p.readEventId = q.eventId ∧
      roundDown addr kCacheLineSize ≠ roundDown q.addr kCacheLineSize := by
  unfold CprdThreadState.dfProcessWrite at hp
  split_ifs at hp
  · cases hp
  · obtain ⟨q, hq, rfl⟩ := List.mem_map.mp hp
    obtain ⟨hq, hreports⟩ := List.mem_filter.mp hq
    refine ⟨rfl, q, hq, rfl, ?_⟩
    unfold CprdThreadState.reports at hreports
    exact of_decide_eq_true (Bool.and_eq_true_iff.mp hreports).1

theorem Addressed.processWrite (h : Addressed tid done s) (htid : tid < 2 ^ 31)
    (hcount : s.thr.eventCounter < 2 ^ 64) {a : TracedAccess} (hwrite : a.isWrite = true)
    (table : LabelTable) (labelContent labelAddress : DfsanLabel)
    {r : List PdLine × CprdThreadState} (hr : s.dataFlow.dfProcessWrite table labelContent
      labelAddress s.thr.eventCounter tid a.pc a.addr = r) :
    Addressed tid (done ++ .access (line a tid s.thr.eventCounter) :: r.1.map .pd)
      ⟨{ s.thr with eventCounter := s.thr.eventCounter + 1 }, r.2⟩ := by
  have hone := h.aligned_access (a := line a tid s.thr.eventCounter) rfl
  have hmem : ∀ b, .access b ∈ done ++ Line.access (line a tid s.thr.eventCounter) :: r.1.map .pd →
      .access b ∈ done ++ [Line.access (line a tid s.thr.eventCounter)] := by
    intro b hb
    simpa using hb
  obtain ⟨-, hpending⟩ := dfProcessWrite_spec hr
  refine ⟨h.printed.processWrite htid hcount hwrite table labelContent labelAddress hr, ⟨?_, ?_⟩,
    ?_, h.cache⟩
  · intro f hf
    exact hone.flush f (by simpa using hf)
  · intro p hp b d hb hd hbid hdid
    rw [List.append_cons] at hp
    rcases List.mem_append.mp hp with hp | hp
    · exact hone.apart p hp b d (hmem b hb) (hmem d hd) hbid hdid
    · obtain ⟨p', hp', he⟩ := List.mem_map.mp hp
      cases he
      rw [← hr] at hp'
      obtain ⟨hwid, q, hq, hrid, hne⟩ := dfProcessWrite_reports hp'
      have hd := h.pending_access (a := line a tid s.thr.eventCounter) rfl hq (hmem d hd)
        (hdid.trans hrid)
      have hb : b.addr = a.addr := by
        rcases List.mem_append.mp (hmem b hb) with hb | hb
        · have hlt := h.printed.used b hb
          omega
        · cases List.mem_singleton.mp hb
          rfl
      rw [roundDown_eq a.addr_lt, roundDown_eq (h.pending q hq).1] at hne
      rw [hb, hd]
      omega
  · intro q hq
    have hq := hpending q hq
    exact ⟨(h.pending q hq).1, fun b hb he =>
      h.pending_access (a := line a tid s.thr.eventCounter) rfl hq (hmem b hb) he⟩

theorem Addressed.fence (h : Addressed tid done s) (htid : tid < 2 ^ 31) {pc : ℕ}
    (hpc : pc < 2 ^ 64) : Addressed tid (done ++ (s.instrumentFence tid pc).1)
    (s.instrumentFence tid pc).2 := by
  have hflush : ∀ l ∈ (s.instrumentFence tid pc).1, ∃ addr ∈ s.thr.flushesCache,
      Line.flush ⟨tid, pc, addr⟩ = l := fun l hl => List.mem_map.mp hl
  have hmem : ∀ b, .access b ∈ done ++ (s.instrumentFence tid pc).1 → .access b ∈ done := by
    intro b hb
    simpa [instrumentFence] using hb
  refine ⟨h.printed.fence htid hpc, ⟨?_, ?_⟩, fun q hq => ?_, ?_⟩
  · intro f hf
    rcases List.mem_append.mp hf with hf | hf
    · exact h.aligned.flush f hf
    · obtain ⟨addr, haddr, he⟩ := hflush _ hf
      cases he
      exact h.cache addr haddr
  · intro p hp b d hb hd
    rcases List.mem_append.mp hp with hp | hp
    · exact h.aligned.apart p hp b d (hmem b hb) (hmem d hd)
    · obtain ⟨addr, -, he⟩ := hflush _ hp
      cases he
  · exact ⟨(h.pending q hq).1, fun b hb => (h.pending q hq).2 b (hmem b hb)⟩
  · simp [instrumentFence]

theorem Addressed.step (h : Addressed tid done s) (htid : tid < 2 ^ 31)
    (hcount : s.thr.eventCounter < 2 ^ 64) {op : ThreadOp}
    (hstep : s.step tid op = some (lines, s')) :
    Addressed tid (done ++ lines) s' := by
  cases op with
  | access regions a table labelContent labelAddress =>
    unfold PrintingThread.step instrumentMemoryAccess at hstep
    dsimp only at hstep
    split_ifs at hstep with hpm hw
    · cases hstep
      exact h.processWrite htid hcount hw table labelContent labelAddress rfl
    · obtain ⟨⟨dataFlow, table'⟩, hmark, hstep⟩ := Option.bind_eq_some_iff.mp hstep
      cases hstep
      exact h.markRead htid hcount (Bool.not_eq_true _ ▸ hw) hmark
    · cases hstep
      rw [List.append_nil]
      exact h
  | flush addr haddr =>
    have hprinted := (h.printed.step htid hcount hstep).1
    cases hstep
    rw [List.append_nil] at hprinted ⊢
    refine ⟨hprinted, h.aligned, h.pending, fun addr' haddr' => ?_⟩
    rcases List.mem_append.mp haddr' with haddr' | haddr'
    · exact h.cache addr' haddr'
    · rw [List.mem_singleton.mp haddr', roundDown_eq haddr]
      omega
  | fence pc hpc =>
    cases hstep
    exact h.fence htid hpc

/-- A run keeps what holds of its lines. -/
theorem Addressed.run (h : Addressed tid done s) (htid : tid < 2 ^ 31) {ops : List ThreadOp}
    (hcount : s.thr.eventCounter + ops.length ≤ 2 ^ 64) (hrun : run tid s ops = some lines) :
    Aligned (done ++ lines) := by
  induction ops generalizing done s lines with
  | nil =>
    cases hrun
    rw [List.append_nil]
    exact h.aligned
  | cons op ops ih =>
    obtain ⟨⟨first, s₁⟩, hstep, hrun⟩ := Option.bind_eq_some_iff.mp hrun
    obtain ⟨rest, hrest, hrun⟩ := Option.bind_eq_some_iff.mp hrun
    cases hrun
    rw [List.length_cons] at hcount
    have hle := (h.printed.step htid (by omega) hstep).2
    rw [← List.append_assoc]
    exact ih (h.step htid (by omega) hstep) (by omega) hrest

/-- The flushes of a thread are of whole lines, and its dependencies are between different ones. -/
theorem aligned_run (htid : tid < 2 ^ 31) {ops : List ThreadOp} (hcount : ops.length ≤ 2 ^ 64)
    (hrun : run tid new ops = some lines) : Aligned lines :=
  (addressed_new tid).run htid (by simpa [new, ThreadState.new] using hcount) hrun

end PrintingThread

end Prd.Runtime
