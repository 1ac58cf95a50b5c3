import Mathlib.Data.List.Induction
import Mathlib.Data.List.Nodup
import Prd.Runtime.PendingSlots

/-!
# Bounds of pending reads

A read is pending for as many marked reads as a life is long, and it leaves the slots with
its line. The lives tell the pending reads apart, so few slots are enough.
-/
namespace Prd.Runtime

open UnorderedCollection
namespace DataFlow.Call

def eventId? : DataFlow.Call → Option ℕ
  | markRead _ eventId .. => some eventId
  | processWrite _ _ eventId .. => some eventId
  | created _ => none

def isMark : DataFlow.Call → Bool
  | markRead .. => true
  | _ => false

end DataFlow.Call

/-- The calls have event ids from `make_event_id`, which returns a counter that goes up. -/
def HaveEventIds (calls : List DataFlow.Call) : Prop :=
  (calls.filterMap DataFlow.Call.eventId?).Pairwise (· < ·)

/-- The entry was marked, and each read marked since took one from its life. -/
def MarkedAt (calls : List DataFlow.Call) (p : DependencyState) : Prop :=
  ∃ pre label mid, calls = pre ++ .markRead label p.eventId p.pc p.addr p.size :: mid ∧
    mid.countP DataFlow.Call.isMark + p.life.toNat = pendingReadsLifeMax.toNat ∧ 0 < p.life.toNat

/-- The line is for a later write on another cache line, with fewer reads marked in between than a
life is long. -/
def ReportedAt (calls : List DataFlow.Call) (line : PdLine) : Prop :=
  ∃ pre label addr size mid labelContent labelAddress writeAddr post,
    calls = pre ++ .markRead label line.readEventId line.readPc addr size :: mid ++
      .processWrite labelContent labelAddress line.writeEventId line.tid line.writePc writeAddr ::
      post ∧
    line.readEventId < line.writeEventId ∧
    roundDown writeAddr kCacheLineSize ≠ roundDown addr kCacheLineSize ∧
    mid.countP DataFlow.Call.isMark < pendingReadsLifeMax.toNat

/-- The pending reads of a state. Whatever is called next, a marked read gets a slot. -/
structure PendingBounded (s : SlottedFlow) : Prop where
  lives : ∀ p ∈ s.thread.dfPendingReads.entries, 1 ≤ p.life ∧ p.life ≤ pendingReadsLifeMax
  distinct : (s.thread.dfPendingReads.entries.map DependencyState.life).Nodup
  count : s.thread.dfPendingReads.count = s.thread.dfPendingReads.entries.length
  count_le : s.thread.dfPendingReads.count ≤ pendingReadsLifeMax.toNat
  room : ∀ call out s', s.step call = some (out, s') → out.full = false

section Ages

variable {p q : DependencyState} {calls : List DataFlow.Call} {call : DataFlow.Call}

theorem age_eq_some (h : CprdThreadState.age p = some q) :
    q = { p with life := p.life - 1 } ∧ p.life - 1 ≠ 0 := by
  unfold CprdThreadState.age at h
  dsimp only at h
  split_ifs at h with hlife
  exact ⟨(Option.some.inj h).symm, hlife⟩

theorem age_ids_sublist (l : List DependencyState) :
    ((l.filterMap CprdThreadState.age).map DependencyState.eventId).Sublist
      (l.map DependencyState.eventId) := by
  induction l with
  | nil => exact List.Sublist.refl _
  | cons p l ih =>
    rw [List.filterMap_cons]
    cases hage : CprdThreadState.age p with
    | none => exact ih.cons _
    | some q =>
      obtain ⟨rfl, -⟩ := age_eq_some hage
      exact ih.cons_cons _

theorem toNat_life_sub_one (h : 0 < p.life.toNat) : (p.life - 1).toNat = p.life.toNat - 1 := by
  have hle : (1 : UInt32) ≤ p.life := UInt32.le_iff_toNat_le.mpr h
  rw [UInt32.toNat_sub_of_le _ _ hle]
  rfl

theorem MarkedAt.append (h : MarkedAt calls p) (hcall : call.isMark = false) :
    MarkedAt (calls ++ [call]) p := by
  obtain ⟨pre, label, mid, rfl, hlife, hpos⟩ := h
  refine ⟨pre, label, mid ++ [call], by simp, ?_, hpos⟩
  rw [List.countP_append, List.countP_singleton, hcall]
  exact hlife

theorem MarkedAt.age (h : MarkedAt calls p) (hage : CprdThreadState.age p = some q)
    (hcall : call.isMark = true) : MarkedAt (calls ++ [call]) q := by
  obtain ⟨pre, label, mid, rfl, hlife, hpos⟩ := h
  obtain ⟨rfl, hne⟩ := age_eq_some hage
  have hsub := toNat_life_sub_one hpos
  have hpos' : 0 < (p.life - 1).toNat := by
    by_contra hzero
    exact hne (UInt32.toNat.inj (Nat.eq_zero_of_not_pos hzero))
  refine ⟨pre, label, mid ++ [call], by simp, ?_, hpos'⟩
  rw [List.countP_append, List.countP_singleton, hcall, if_pos rfl]
  dsimp only
  omega

theorem MarkedAt.le (h : MarkedAt calls p) : p.life.toNat ≤ pendingReadsLifeMax.toNat := by
  obtain ⟨-, -, mid, -, hlife, -⟩ := h
  omega

theorem markedAt_new (calls : List DataFlow.Call) (label' label : DfsanLabel)
    (eventId pc addr size : ℕ) : MarkedAt (calls ++ [.markRead label' eventId pc addr size])
      ⟨label, eventId, addr, size, pc, pendingReadsLifeMax⟩ :=
  ⟨calls, label', [], rfl, rfl, (by decide : 0 < pendingReadsLifeMax.toNat)⟩

theorem ReportedAt.append {line : PdLine} (h : ReportedAt calls line) (call : DataFlow.Call) :
    ReportedAt (calls ++ [call]) line := by
  obtain ⟨pre, label, addr, size, mid, labelContent, labelAddress, writeAddr, post, rfl, h⟩ := h
  exact ⟨pre, label, addr, size, mid, labelContent, labelAddress, writeAddr,
    post ++ [call], by simp, h⟩

end Ages

section Ids

variable {calls : List DataFlow.Call} {call : DataFlow.Call}

theorem HaveEventIds.of_append_singleton (h : HaveEventIds (calls ++ [call])) :
    HaveEventIds calls ∧ ∀ e, call.eventId? = some e →
      ∀ c ∈ calls, ∀ e', c.eventId? = some e' → e' < e := by
  unfold HaveEventIds at h
  rw [List.filterMap_append, List.pairwise_append] at h
  obtain ⟨hcalls, -, hlt⟩ := h
  refine ⟨hcalls, fun e he c hc e' he' => ?_⟩
  refine hlt e' (List.mem_filterMap.mpr ⟨c, hc, he'⟩) e ?_
  simp [he]

end Ids

section Entries

variable {s s' : SlottedThreadState} {table table' : LabelTable} {added : Bool}
  {label : DfsanLabel} {eventId pc addr size : ℕ}

theorem getUnusedLabel_pending
    (h : s.getUnusedLabel table = some (label, s', table')) :
    s'.dfPendingReads = s.dfPendingReads := by
  unfold SlottedThreadState.getUnusedLabel at h
  split at h
  · cases h
    rfl
  · obtain ⟨r, -, hr⟩ := Option.bind_eq_some_iff.mp h
    cases hr
    rfl

/-- A marked read joins the entries that age, if there is room for it. -/
theorem dfMarkRead_entries
    (h : s.dfMarkRead table label eventId pc addr size = some (added, s', table'))
    (hc : s.dfPendingReads.Counted) (hroom : s.dfPendingReads.entries.length < pendingReadsMax) :
    added = true ∧ s'.dfPendingReads.Counted ∧ ∃ label', s'.dfPendingReads.entries.Perm
      (⟨label', eventId, addr, size, pc, pendingReadsLifeMax⟩ ::
        s.dfPendingReads.entries.filterMap CprdThreadState.age) := by
  unfold SlottedThreadState.dfMarkRead at h
  obtain ⟨⟨label', t, table''⟩, hlabel, hmark⟩ := Option.bind_eq_some_iff.mp h
  have hpending : t.dfPendingReads = s.dfPendingReads := by
    split_ifs at hlabel
    · exact getUnusedLabel_pending hlabel
    · cases hlabel
      rfl
  dsimp only at hmark
  rw [hpending] at hmark
  have hentries := (entries_forEach (c := s.dfPendingReads) SlottedThreadState.ageRead_snd
    t.unusedLabels).1
  have hcounted := hc.forEach SlottedThreadState.ageRead t.unusedLabels
  have hlt : (s.dfPendingReads.forEach SlottedThreadState.ageRead t.unusedLabels).1.count <
      pendingReadsMax := by
    rw [hcounted.count_eq, hentries]
    exact (List.length_filterMap_le _ _).trans_lt hroom
  obtain ⟨c, hadd, hc', hperm⟩ := hcounted.add hlt
    ⟨label', eventId, addr, size, pc, pendingReadsLifeMax⟩
  rw [hadd] at hmark
  cases hmark
  rw [hentries] at hperm
  exact ⟨rfl, hc', label', hperm⟩

/-- A write prints the lines of the entries that it removes. -/
theorem dfProcessWrite_entries (table : LabelTable) (hc : s.dfPendingReads.Counted)
    (labelContent labelAddress : DfsanLabel) (eventId tid pc addr : ℕ) :
    ∃ reported : DependencyState → Bool,
      (∀ p, reported p = true → roundDown addr kCacheLineSize ≠ roundDown p.addr kCacheLineSize) ∧
      (s.dfProcessWrite table labelContent labelAddress eventId tid pc addr).1 =
        (s.dfPendingReads.entries.filter reported).map
          (fun p => ⟨tid, p.pc, p.eventId, pc, eventId⟩) ∧
      (s.dfProcessWrite table labelContent labelAddress eventId tid pc
        addr).2.dfPendingReads.entries = s.dfPendingReads.entries.filter (fun p => ! reported p) ∧
      (s.dfProcessWrite table labelContent labelAddress eventId tid pc
        addr).2.dfPendingReads.Counted := by
  unfold SlottedThreadState.dfProcessWrite
  split_ifs with h0
  · exact ⟨fun _ => false, by simp, by simp, by simp, hc⟩
  · have hsnd :=
      SlottedThreadState.reportRead_snd table labelContent labelAddress eventId tid pc addr
    obtain ⟨hentries, hlines⟩ := entries_forEach (c := s.dfPendingReads) hsnd ([], s.unusedLabels)
    refine ⟨CprdThreadState.reports table labelContent labelAddress addr, ?_, ?_, ?_,
      hc.forEach _ _⟩
    · intro p hp
      unfold CprdThreadState.reports at hp
      rw [Bool.and_eq_true, decide_eq_true_eq] at hp
      exact hp.1
    · dsimp only
      rw [hlines, SlottedThreadState.foldl_reportRead]
      rfl
    · dsimp only
      rw [hentries, ← List.filterMap_eq_filter]
      refine List.filterMap_congr fun p _ => ?_
      cases hp : CprdThreadState.reports table labelContent labelAddress addr p with
      | false => simp [Option.guard, hp]
      | true => simp [Option.guard, hp]

end Entries

/-- What holds along a run: each entry and each line has its read, and no two of them the same. -/
structure TracksReads (calls : List DataFlow.Call) (lines : List PdLine) (s : SlottedFlow) :
    Prop where
  counted : s.thread.dfPendingReads.Counted
  marked : ∀ p ∈ s.thread.dfPendingReads.entries, MarkedAt calls p
  distinct : s.thread.dfPendingReads.entries.Pairwise fun p q => p.life ≠ q.life
  reported : ∀ line ∈ lines, ReportedAt calls line
  ids : (lines.map PdLine.readEventId ++
    s.thread.dfPendingReads.entries.map DependencyState.eventId).Nodup

namespace TracksReads

variable {calls : List DataFlow.Call} {call : DataFlow.Call} {lines : List PdLine}
  {s s' : SlottedFlow} {out : CallOutput}

@[simp] theorem entries_start (infos : List DfsanLabelInfo) :
    (SlottedFlow.start infos).thread.dfPendingReads.entries = [] := entries_new

theorem start (infos : List DfsanLabelInfo) : TracksReads [] [] (SlottedFlow.start infos) where
  counted := counted_new
  marked := by simp
  distinct := by simp
  reported := by simp
  ids := by simp

/-- Different lives between one and the longest: there are no more entries than that. -/
theorem length_le (h : TracksReads calls lines s) :
    s.thread.dfPendingReads.entries.length ≤ pendingReadsLifeMax.toNat := by
  have hnd : (s.thread.dfPendingReads.entries.map fun p => p.life.toNat).Nodup := by
    rw [List.nodup_iff_pairwise_ne, List.pairwise_map]
    exact h.distinct.imp fun hne heq => hne (UInt32.toNat.inj heq)
  have hsub : (s.thread.dfPendingReads.entries.map fun p => p.life.toNat) ⊆
      List.range' 1 pendingReadsLifeMax.toNat := by
    intro n hn
    obtain ⟨p, hp, rfl⟩ := List.mem_map.mp hn
    obtain ⟨-, -, -, -, -, hpos⟩ := h.marked p hp
    have hle := (h.marked p hp).le
    rw [List.mem_range'_1]
    omega
  have hle := (List.subperm_of_subset hnd hsub).length_le
  rw [List.length_map, List.length_range'] at hle
  exact hle

theorem room (h : TracksReads calls lines s) :
    s.thread.dfPendingReads.entries.length < pendingReadsMax :=
  h.length_le.trans_lt (by decide)

/-- The ids of the lines and the entries are those of calls before. -/
theorem id_lt (h : TracksReads calls lines s) {e : ℕ}
    (he : ∀ c ∈ calls, ∀ e', c.eventId? = some e' → e' < e) :
    ∀ e' ∈ lines.map PdLine.readEventId ++
      s.thread.dfPendingReads.entries.map DependencyState.eventId, e' < e := by
  intro e' he'
  rcases List.mem_append.mp he' with hl | hl
  · obtain ⟨line, hline, rfl⟩ := List.mem_map.mp hl
    obtain ⟨pre, label, addr, size, mid, lc, la, wa, post, hcalls, -⟩ := h.reported line hline
    exact he (.markRead label line.readEventId line.readPc addr size) (by simp [hcalls]) _ rfl
  · obtain ⟨p, hp, rfl⟩ := List.mem_map.mp hl
    obtain ⟨pre, label, mid, hcalls, -⟩ := h.marked p hp
    exact he (.markRead label p.eventId p.pc p.addr p.size) (by simp [hcalls]) _ rfl

theorem markRead (h : TracksReads calls lines s) {label eventId pc addr size : ℕ}
    (hlt : ∀ c ∈ calls, ∀ e', c.eventId? = some e' → e' < eventId)
    (hstep : s.step (.markRead label eventId pc addr size) = some (out, s')) :
    out.full = false ∧ TracksReads (calls ++ [.markRead label eventId pc addr size])
      (lines ++ out.lines) s' := by
  obtain ⟨⟨added, thread, table⟩, hmark, hs⟩ := Option.bind_eq_some_iff.mp hstep
  cases hs
  obtain ⟨rfl, hcounted, label', hperm⟩ := dfMarkRead_entries hmark h.counted h.room
  have hsub : ((s.thread.dfPendingReads.entries.filterMap CprdThreadState.age).map
      DependencyState.eventId).Sublist
      (s.thread.dfPendingReads.entries.map DependencyState.eventId) :=
    age_ids_sublist _
  refine ⟨rfl, hcounted, ?_, ?_, ?_, ?_⟩
  · intro p hp
    rcases List.mem_cons.mp (hperm.mem_iff.mp hp) with rfl | hp
    · exact markedAt_new calls label label' eventId pc addr size
    · obtain ⟨q, hq, hage⟩ := List.mem_filterMap.mp hp
      exact (h.marked q hq).age hage rfl
  · dsimp only
    rw [hperm.pairwise_iff (fun hne => hne.symm), List.pairwise_cons, List.pairwise_filterMap]
    constructor
    · intro q hq heq
      obtain ⟨p, hp, hage⟩ := List.mem_filterMap.mp hq
      obtain ⟨rfl, -⟩ := age_eq_some hage
      obtain ⟨-, -, -, -, -, hpos⟩ := h.marked p hp
      have hle := (h.marked p hp).le
      have hnat := congrArg UInt32.toNat heq
      dsimp only at hnat
      rw [toNat_life_sub_one hpos] at hnat
      omega
    · refine h.distinct.imp fun {p q} hne p' hp' q' hq' heq => hne ?_
      obtain ⟨rfl, -⟩ := age_eq_some hp'
      obtain ⟨rfl, -⟩ := age_eq_some hq'
      exact (UInt32.sub_left_inj 1).mp heq
  · dsimp only
    rw [List.append_nil]
    intro line hline
    exact (h.reported line hline).append _
  · dsimp only
    rw [List.append_nil]
    have hnew : eventId ∉ lines.map PdLine.readEventId ++
        (s.thread.dfPendingReads.entries.filterMap CprdThreadState.age).map
          DependencyState.eventId := by
      intro hmem
      exact lt_irrefl _ (h.id_lt hlt eventId ((hsub.append_left _).subset hmem))
    have hnd := List.nodup_cons.mpr ⟨hnew, h.ids.sublist (hsub.append_left _)⟩
    exact (((hperm.map DependencyState.eventId).append_left _).trans
      List.perm_middle).nodup_iff.mpr hnd

theorem processWrite (h : TracksReads calls lines s)
    {labelContent labelAddress eventId tid pc addr : ℕ}
    (hlt : ∀ c ∈ calls, ∀ e', c.eventId? = some e' → e' < eventId)
    (hstep : s.step (.processWrite labelContent labelAddress eventId tid pc addr) =
      some (out, s')) :
    out.full = false ∧
      TracksReads (calls ++ [.processWrite labelContent labelAddress eventId tid pc addr])
        (lines ++ out.lines) s' := by
  cases hstep
  obtain ⟨reported, haddr, hlines, hentries, hcounted⟩ :=
    dfProcessWrite_entries s.table h.counted labelContent labelAddress eventId tid pc addr
  have hids : ((s.thread.dfPendingReads.entries.filter reported).map DependencyState.eventId ++
      (s.thread.dfPendingReads.entries.filter fun p => ! reported p).map
        DependencyState.eventId).Perm
      (s.thread.dfPendingReads.entries.map DependencyState.eventId) := by
    rw [← List.map_append]
    exact (List.filter_append_perm _ _).map _
  refine ⟨rfl, hcounted, ?_, ?_, ?_, ?_⟩
  · intro p hp
    dsimp only at hp
    rw [hentries] at hp
    exact (h.marked p (List.mem_of_mem_filter hp)).append rfl
  · dsimp only
    rw [hentries]
    exact h.distinct.filter _
  · intro line hline
    rcases List.mem_append.mp hline with hline | hline
    · exact (h.reported line hline).append _
    · rw [hlines] at hline
      obtain ⟨p, hp, rfl⟩ := List.mem_map.mp hline
      obtain ⟨hp, hrep⟩ := List.mem_filter.mp hp
      obtain ⟨pre, label, mid, hcalls, hlife, hpos⟩ := h.marked p hp
      refine ⟨pre, label, p.addr, p.size, mid, labelContent, labelAddress, addr, [], ?_, ?_,
        haddr p hrep, by omega⟩
      · rw [hcalls]
      · exact hlt (.markRead label p.eventId p.pc p.addr p.size) (by simp [hcalls]) _ rfl
  · dsimp only
    rw [hlines, hentries, List.map_append, List.map_map, List.append_assoc]
    exact ((hids.append_left _).nodup_iff).mpr h.ids

theorem created (h : TracksReads calls lines s) {infos : List DfsanLabelInfo}
    (hstep : s.step (.created infos) = some (out, s')) :
    out.full = false ∧ TracksReads (calls ++ [.created infos]) (lines ++ out.lines) s' := by
  cases hstep
  refine ⟨rfl, h.counted, ?_, h.distinct, ?_, ?_⟩
  · intro p hp
    exact (h.marked p hp).append rfl
  · rw [List.append_nil]
    intro line hline
    exact (h.reported line hline).append _
  · rw [List.append_nil]
    exact h.ids

theorem step (h : TracksReads calls lines s) (hids : HaveEventIds (calls ++ [call]))
    (hstep : s.step call = some (out, s')) :
    out.full = false ∧ TracksReads (calls ++ [call]) (lines ++ out.lines) s' := by
  have hlt := hids.of_append_singleton.2
  cases call with
  | markRead label eventId pc addr size => exact h.markRead (hlt eventId rfl) hstep
  | processWrite labelContent labelAddress eventId tid pc addr =>
    exact h.processWrite (hlt eventId rfl) hstep
  | created infos => exact h.created hstep

/-- Each call of a run keeps track of the reads. -/
theorem run {infos : List DfsanLabelInfo} (hids : HaveEventIds calls)
    (hrun : SlottedFlow.run infos calls = some (lines, s)) : TracksReads calls lines s := by
  induction calls using List.reverseRecOn generalizing lines s with
  | nil =>
    cases hrun
    exact start infos
  | append_singleton calls call ih =>
    rw [SlottedFlow.run_append_singleton] at hrun
    obtain ⟨⟨lines', t⟩, ht, hr⟩ := Option.bind_eq_some_iff.mp hrun
    obtain ⟨⟨out, t'⟩, hstep, heq⟩ := Option.map_eq_some_iff.mp hr
    cases heq
    exact ((ih hids.of_append_singleton.1 ht).step hids hstep).2

theorem pendingBounded (h : TracksReads calls lines s) : PendingBounded s where
  lives := by
    intro p hp
    obtain ⟨-, -, -, -, -, hpos⟩ := h.marked p hp
    exact ⟨UInt32.le_iff_toNat_le.mpr hpos, UInt32.le_iff_toNat_le.mpr (h.marked p hp).le⟩
  distinct := by
    rw [List.nodup_iff_pairwise_ne, List.pairwise_map]
    exact h.distinct
  count := h.counted.count_eq
  count_le := h.counted.count_eq.trans_le h.length_le
  room := by
    intro call out s' hstep
    cases call with
    | markRead label eventId pc addr size =>
      obtain ⟨⟨added, thread, table⟩, hmark, hs⟩ := Option.bind_eq_some_iff.mp hstep
      cases hs
      obtain ⟨rfl, -⟩ := dfMarkRead_entries hmark h.counted h.room
      rfl
    | processWrite labelContent labelAddress eventId tid pc addr =>
      cases hstep
      rfl
    | created infos =>
      cases hstep
      rfl

end TracksReads

/-- Pending reads are bounded, and each is reported at most once, by a later write. -/
theorem pending_reads_bounded {infos : List DfsanLabelInfo} {calls : List DataFlow.Call}
    {lines : List PdLine} {s : SlottedFlow} (hids : HaveEventIds calls)
    (hrun : SlottedFlow.run infos calls = some (lines, s)) :
    PendingBounded s ∧ (lines.map PdLine.readEventId).Nodup ∧
      ∀ line ∈ lines, ReportedAt calls line := by
  have h := TracksReads.run hids hrun
  exact ⟨h.pendingBounded, (List.nodup_append.mp h.ids).1, h.reported⟩

/-- A read and a write of its label on another line. -/
def readThenWrite : List DataFlow.Call := [.markRead 0 0 1 0x1000 8, .processWrite 1 0 1 0 2 0x2000]

theorem pending_reads_bounded_readThenWrite : ∃ s,
    SlottedFlow.run [] readThenWrite = some ([⟨0, 1, 0, 2, 1⟩], s) ∧ PendingBounded s ∧
      ReportedAt readThenWrite ⟨0, 1, 0, 2, 1⟩ := by
  have hlines : (SlottedFlow.run [] readThenWrite).map Prod.fst = some [⟨0, 1, 0, 2, 1⟩] := by
    have hflow := congrArg (Option.map Prod.fst) (SlottedFlow.run_toFlow [] readThenWrite)
    rw [Option.map_map] at hflow
    refine Eq.trans hflow.symm ?_
    decide +kernel
  obtain ⟨⟨lines, s⟩, hrun, heq⟩ := Option.map_eq_some_iff.mp hlines
  obtain rfl : lines = [⟨0, 1, 0, 2, 1⟩] := heq
  have hids :
    HaveEventIds readThenWrite := by simp [HaveEventIds, readThenWrite, DataFlow.Call.eventId?]
  obtain ⟨hbounded, -, hreported⟩ := pending_reads_bounded hids hrun
  exact ⟨s, hrun, hbounded, hreported _ (List.mem_singleton_self _)⟩

end Prd.Runtime
