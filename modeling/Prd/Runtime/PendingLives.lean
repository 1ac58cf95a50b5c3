import Prd.Runtime.DataFlowReports
import Prd.Runtime.ThreadLines

/-!
# Lives of pending reads

The lives of the pending reads of a thread are different, so there is always a slot for one more.
A read stays pending until a write is reported with it or its life is over.
-/
namespace Prd.Runtime

namespace PendingReadsCollection

variable {f : DependencyState → Option DependencyState} {p : DependencyState}
    {c : PendingReadsCollection}

@[simp] theorem entries_none : entries (none :: c) = entries c := rfl

@[simp] theorem entries_some : entries (some p :: c) = p :: entries c := rfl

theorem length_visit (c : PendingReadsCollection) (unusedLabels : List DfsanLabel) :
    (c.visit f unusedLabels).1.length = c.length := by
  induction c generalizing unusedLabels with
  | nil => rfl
  | cons slot c ih =>
    cases slot with
    | none => simp [visit, ih]
    | some p => cases hp : f p <;> simp [visit, hp, ih]

theorem length_add (p : DependencyState) (c : PendingReadsCollection) :
    (c.add p).length = c.length := by
  induction c with
  | nil => rfl
  | cons slot c ih => cases slot <;> simp [add, ih]

/-- An entry is added when a slot is free. -/
theorem entries_add (c : PendingReadsCollection) (hroom : c.entries.length < c.length) :
    (c.add p).entries.Perm (p :: c.entries) := by
  induction c with
  | nil => simp at hroom
  | cons slot c ih =>
    cases slot with
    | none => exact .refl _
    | some q =>
      simp only [entries_some, List.length_cons, Nat.add_lt_add_iff_right] at hroom
      simp only [add, entries_some]
      exact ((ih hroom).cons q).trans (.swap p q _)

end PendingReadsCollection

/-- The pending reads have lives that are not over and different. -/
structure Aging (c : PendingReadsCollection) : Prop where
  slots : c.length = pendingReadsMax
  lives : ∀ p ∈ c.entries, 0 < p.life.toNat ∧ p.life.toNat ≤ pendingReadsLifeMax.toNat
  distinct : (c.entries.map fun p => p.life.toNat).Nodup

namespace Aging

variable {c : PendingReadsCollection} {p q : DependencyState} {unusedLabels : List DfsanLabel}

theorem length_le (h : Aging c) : c.entries.length ≤ pendingReadsLifeMax.toNat := by
  have hsub : (c.entries.map fun p => p.life.toNat) ⊆ List.range' 1 pendingReadsLifeMax.toNat := by
    intro n hn
    obtain ⟨p, hp, rfl⟩ := List.mem_map.mp hn
    obtain ⟨hpos, hle⟩ := h.lives p hp
    rw [List.mem_range'_1]
    omega
  have hle := (List.subperm_of_subset h.distinct hsub).length_le
  rwa [List.length_map, List.length_range'] at hle

theorem new : Aging CprdThreadState.new.dfPendingReads := by
  have hentries : CprdThreadState.new.dfPendingReads.entries = [] := by
    unfold CprdThreadState.new PendingReadsCollection.entries
    simp
  refine ⟨?_, ?_, ?_⟩
  · simp [CprdThreadState.new]
  · simp [hentries]
  · simp [hentries]

theorem age_toNat (hpos : 0 < p.life.toNat) (hage : CprdThreadState.age p = some q) :
    q = { p with life := q.life } ∧ q.life.toNat + 1 = p.life.toNat ∧ 0 < q.life.toNat := by
  obtain ⟨rfl, hne⟩ := age_eq_some hage
  have hsub := toNat_life_sub_one hpos
  have hpos' : 0 < (p.life - 1).toNat := by
    by_contra hzero
    exact hne (UInt32.toNat.inj (Nat.eq_zero_of_not_pos hzero))
  refine ⟨rfl, ?_, hpos'⟩
  dsimp only
  omega

/-- The entries after a marked read: those that have aged, and the new one. -/
theorem mark_entries (h : Aging c) (p : DependencyState) :
    ((c.visit CprdThreadState.age unusedLabels).1.add p).entries.Perm
      (p :: c.entries.filterMap CprdThreadState.age) := by
  rw [← PendingReadsCollection.entries_visit _ c unusedLabels]
  refine PendingReadsCollection.entries_add _ ?_
  rw [PendingReadsCollection.entries_visit, PendingReadsCollection.length_visit, h.slots]
  exact ((List.length_filterMap_le _ _).trans h.length_le).trans_lt (by decide)

theorem mark (h : Aging c) (hlife : p.life = pendingReadsLifeMax) :
    Aging ((c.visit CprdThreadState.age unusedLabels).1.add p) := by
  have hperm : ((c.visit CprdThreadState.age unusedLabels).1.add p).entries.Perm
      (p :: c.entries.filterMap CprdThreadState.age) := h.mark_entries p
  have haged : ∀ q ∈ c.entries.filterMap CprdThreadState.age,
      0 < q.life.toNat ∧ q.life.toNat < pendingReadsLifeMax.toNat := by
    intro q hq
    obtain ⟨p', hp', hage⟩ := List.mem_filterMap.mp hq
    obtain ⟨hpos, hle⟩ := h.lives p' hp'
    obtain ⟨-, hsub, hpos'⟩ := age_toNat hpos hage
    omega
  refine ⟨?_, fun q hq => ?_, ?_⟩
  · rw [PendingReadsCollection.length_add, PendingReadsCollection.length_visit, h.slots]
  · rcases List.mem_cons.mp (hperm.mem_iff.mp hq) with rfl | hq
    · rw [hlife]
      decide
    · exact (haged q hq).imp id fun hlt => hlt.le
  · rw [(hperm.map _).nodup_iff, List.map_cons, List.nodup_cons, hlife]
    refine ⟨fun hmem => ?_, ?_⟩
    · obtain ⟨q, hq, heq⟩ := List.mem_map.mp hmem
      exact absurd heq (haged q hq).2.ne
    · rw [List.nodup_iff_pairwise_ne, List.pairwise_map, List.pairwise_filterMap]
      have hdistinct := h.distinct
      rw [List.nodup_iff_pairwise_ne, List.pairwise_map] at hdistinct
      refine hdistinct.imp_of_mem fun hp₁ hp₂ hne q₁ hq₁ q₂ hq₂ heq => hne ?_
      obtain ⟨-, hsub₁, -⟩ := age_toNat (h.lives _ hp₁).1 hq₁
      obtain ⟨-, hsub₂, -⟩ := age_toNat (h.lives _ hp₂).1 hq₂
      omega

/-- The entries after a write: those that were not reported. -/
theorem entries_unreported (reported : DependencyState → Bool) :
    (c.visit (fun p => if reported p then none else some p) unusedLabels).1.entries =
      c.entries.filter fun p => ! reported p := by
  rw [PendingReadsCollection.entries_visit, ← List.filterMap_eq_filter]
  refine List.filterMap_congr fun p _ => ?_
  cases hp : reported p with
  | false => simp [Option.guard, hp]
  | true => simp [Option.guard, hp]

theorem unreported (h : Aging c) (reported : DependencyState → Bool) :
    Aging (c.visit (fun p => if reported p then none else some p) unusedLabels).1 := by
  refine ⟨(PendingReadsCollection.length_visit _ _).trans h.slots, fun p hp => ?_, ?_⟩
  · rw [entries_unreported] at hp
    exact h.lives p (List.mem_of_mem_filter hp)
  · rw [entries_unreported]
    exact h.distinct.sublist (List.filter_sublist.map _)

end Aging

namespace TrackedThread

def Call.isMark : Call → Bool
  | .markRead .. => true
  | _ => false

/-- The pending reads of a thread. -/
def pending (s : TrackedThread) : PendingReadsCollection := s.thread.dfPendingReads

variable {s s' s'' : TrackedThread} {call : Call} {calls : List Call} {lines : List PdLine}
  {printed : List (List PdLine)} {p : DependencyState} {eventId tid pc addr size : ℕ}

/-- The read is pending with so much less of its life, or it is on a line. -/
def Carries (s : TrackedThread) (lines : List PdLine) (p : DependencyState) (marks : ℕ) : Prop :=
  (∃ q ∈ s.pending.entries, q = { p with life := q.life } ∧ q.life.toNat + marks = p.life.toNat) ∨
    ∃ line ∈ lines, line.readPc = p.pc ∧ line.readEventId = p.eventId

theorem labelRead_pending {label : DfsanLabel} (hok : s.labelRead addr size = some (label, s')) :
    s'.pending = s.pending := by
  obtain ⟨⟨l, d⟩, -, hrest⟩ := Option.bind_eq_some_iff.mp hok
  by_cases hzero : l = 0
  · simp only [hzero, if_true] at hrest
    obtain ⟨⟨new, thread, table⟩, hget, hrest⟩ := Option.bind_eq_some_iff.mp hrest
    obtain ⟨d', -, hrest⟩ := Option.bind_eq_some_iff.mp hrest
    cases hrest
    exact (getUnusedLabel_cases hget).1
  · simp only [hzero, if_false] at hrest
    cases hrest
    rfl

theorem markRead_pending (hok : s.markRead eventId pc addr size = some s') : ∃ label unusedLabels,
    s'.pending = (s.pending.visit CprdThreadState.age unusedLabels).1.add
      ⟨label, eventId, addr, size, pc, pendingReadsLifeMax⟩ := by
  obtain ⟨⟨label, t⟩, hread, hrest⟩ := Option.bind_eq_some_iff.mp hok
  cases hrest
  refine ⟨label, t.thread.unusedLabels, ?_⟩
  rw [← labelRead_pending hread]
  rfl

/-- A pending read stays so, or the write is reported with it. -/
theorem dfProcessWrite_carries {t : CprdThreadState} (h : Aging t.dfPendingReads)
    (table : LabelTable) (l1 l2 : DfsanLabel) :
    Aging (t.dfProcessWrite table l1 l2 eventId tid pc addr).2.dfPendingReads ∧
      ∀ p ∈ t.dfPendingReads.entries, p ∈
      (t.dfProcessWrite table l1 l2 eventId tid pc addr).2.dfPendingReads.entries ∨
        ∃ line ∈ (t.dfProcessWrite table l1 l2 eventId tid pc addr).1,
          line.readPc = p.pc ∧ line.readEventId = p.eventId := by
  unfold CprdThreadState.dfProcessWrite
  split_ifs with hzero
  · exact ⟨h, fun p hp => Or.inl hp⟩
  · refine ⟨h.unreported _, fun p hp => ?_⟩
    cases hreports : CprdThreadState.reports table l1 l2 addr p with
    | true =>
      exact Or.inr ⟨_, List.mem_map.mpr ⟨p, List.mem_filter.mpr ⟨hp, hreports⟩, rfl⟩, rfl, rfl⟩
    | false =>
      left
      dsimp only
      rw [Aging.entries_unreported]
      exact List.mem_filter.mpr ⟨hp, by simp [hreports]⟩

/-- One call: a read that is pending stays so with a shorter life, or it is on a line that the
call prints. -/
theorem step_carries (h : Aging s.pending) (hstep : s.step call = some (lines, s')) :
    Aging s'.pending ∧ ∀ p ∈ s.pending.entries, (call.isMark = true → 1 < p.life.toNat) →
      s'.Carries lines p (if call.isMark then 1 else 0) := by
  cases call with
  | label c =>
    obtain ⟨d, -, hs⟩ := Option.map_eq_some_iff.mp hstep
    cases hs
    exact ⟨h, fun p hp _ => Or.inl ⟨p, hp, rfl, rfl⟩⟩
  | markRead eventId pc addr size =>
    obtain ⟨t, hmark, hs⟩ := Option.map_eq_some_iff.mp hstep
    cases hs
    obtain ⟨label, unusedLabels, hpending⟩ := markRead_pending hmark
    unfold Carries
    rw [hpending]
    refine ⟨h.mark rfl, fun p hp hlife => Or.inl ?_⟩
    have hone : 1 < p.life.toNat := hlife rfl
    have hage : ∃ q, CprdThreadState.age p = some q := by
      unfold CprdThreadState.age
      dsimp only
      rw [if_neg]
      · exact ⟨_, rfl⟩
      · intro hzero
        have hsub := toNat_life_sub_one (Nat.zero_lt_of_lt hone)
        rw [hzero] at hsub
        have hnat : (0 : UInt32).toNat = 0 := rfl
        omega
    obtain ⟨q, hq⟩ := hage
    obtain ⟨heq, hsub, -⟩ := Aging.age_toNat (Nat.zero_lt_of_lt hone) hq
    refine ⟨q, (h.mark_entries _).mem_iff.mpr (List.mem_cons_of_mem _ ?_), heq, hsub⟩
    exact List.mem_filterMap.mpr ⟨p, hp, hq⟩
  | processWrite labelAddress eventId tid pc addr size =>
    obtain ⟨⟨labelContent, d⟩, -, hrest⟩ := Option.bind_eq_some_iff.mp hstep
    cases hrest
    obtain ⟨haging, hentries⟩ := dfProcessWrite_carries h d.table labelContent labelAddress
    exact ⟨haging, fun p hp _ => (hentries p hp).imp (fun hp' => ⟨p, hp', rfl, rfl⟩) id⟩

theorem Run.aging (hrun : Run s calls printed s') (h : Aging s.pending) : Aging s'.pending := by
  induction hrun with
  | nil s => exact h
  | cons _ hstep _ ih => exact ih (step_carries h hstep).1

theorem Run.carries (hrun : Run s calls printed s') (h : Aging s.pending)
    (hp : p ∈ s.pending.entries) (hmarks : calls.countP Call.isMark < p.life.toNat) :
    s'.Carries printed.flatten p (calls.countP Call.isMark) := by
  induction hrun generalizing p with
  | nil s => exact Or.inl ⟨p, hp, rfl, rfl⟩
  | @cons call calls lines printed s s₁ s' _ hstep _ ih =>
    rw [List.countP_cons] at hmarks ⊢
    obtain ⟨haging, hcarries⟩ := step_carries h hstep
    have hlife : call.isMark = true → 1 < p.life.toNat := by
      intro hmark
      rw [if_pos hmark] at hmarks
      omega
    rcases hcarries p hp hlife with ⟨q, hq, heq, hsum⟩ | ⟨line, hline, hsame⟩
    · rcases ih haging hq (by omega) with ⟨q', hq', heq', hsum'⟩ | ⟨line, hline, hsame⟩
      · refine Or.inl ⟨q', hq', ?_, by omega⟩
        rw [heq', heq]
      · rw [heq] at hsame
        exact Or.inr ⟨line, by simp [hline], hsame⟩
    · exact Or.inr ⟨line, by simp [hline], hsame⟩

variable {before later : List Call} {printed' : List (List PdLine)}

/-- A marked read is on a line, or it is still pending as long as fewer reads are marked after it
than a life is long. -/
theorem read_pending_or_reported (hrun : Run new before printed s)
    (hmark : s.markRead eventId pc addr size = some s') (hlater : Run s' later printed' s'')
    (hmarks : later.countP Call.isMark < pendingReadsLifeMax.toNat) :
    (∃ p ∈ s''.thread.dfPendingReads.entries, p.eventId = eventId ∧ p.pc = pc ∧ p.addr = addr ∧
      p.size = size ∧ p.life.toNat + later.countP Call.isMark = pendingReadsLifeMax.toNat) ∨
        ∃ line ∈ printed'.flatten, line.readPc = pc ∧ line.readEventId = eventId := by
  have haging := hrun.aging Aging.new
  obtain ⟨label, unusedLabels, hpending⟩ := markRead_pending hmark
  have haging' : Aging s'.pending := by
    rw [hpending]
    exact haging.mark rfl
  have hp :
      (⟨label, eventId, addr, size, pc, pendingReadsLifeMax⟩ : DependencyState) ∈
        s'.pending.entries := by
    rw [hpending]
    exact (haging.mark_entries _).mem_iff.mpr List.mem_cons_self
  rcases hlater.carries haging' hp hmarks with ⟨q, hq, heq, hsum⟩ | hline
  · refine Or.inl ⟨q, hq, ?_, ?_, ?_, ?_, hsum⟩ <;> rw [heq]
  · exact Or.inr hline

/-- A read is marked, then another one, and then something is written to an address with the label
of the first. -/
def sampleMarked : TrackedThread := (new.markRead 0 1 0x1000 1).get (by rfl)

theorem sampleMarked_marks : (sampleMarked.markRead 1 2 0x1040 1).isSome = true := by decide +kernel

def sampleMarkedTwice : TrackedThread := (sampleMarked.markRead 1 2 0x1040 1).get sampleMarked_marks

def sampleLater : List Call := [.markRead 1 2 0x1040 1, .processWrite 1 2 0 3 0x2000 1]

theorem sampleMarkedTwice_writes :
    (sampleMarkedTwice.processWrite 1 2 0 3 0x2000 1).isSome = true := by decide +kernel

theorem sampleLater_run : ∃ printed s, Run sampleMarked sampleLater printed s := by
  have hmark : sampleMarked.step (.markRead 1 2 0x1040 1) = some ([], sampleMarkedTwice) := by
    unfold step sampleMarkedTwice
    simp
  obtain ⟨⟨lines, s⟩, hwrite⟩ := Option.isSome_iff_exists.mp sampleMarkedTwice_writes
  have hlabel : 1 < sampleMarkedTwice.dfsan.table.length := by decide +kernel
  exact ⟨_, s, .cons trivial hmark (.cons hlabel hwrite (.nil s))⟩

theorem read_pending_or_reported_sample : ∃ s printed, Run new [] [] new ∧
    new.markRead 0 1 0x1000 1 = some sampleMarked ∧ Run sampleMarked sampleLater printed s ∧
      ((∃ p ∈ s.thread.dfPendingReads.entries, p.eventId = 0 ∧ p.pc = 1 ∧ p.addr = 0x1000 ∧
        p.size = 1 ∧ p.life.toNat + sampleLater.countP Call.isMark = pendingReadsLifeMax.toNat) ∨
          ∃ line ∈ printed.flatten, line.readPc = 1 ∧ line.readEventId = 0) := by
  obtain ⟨printed, s, hlater⟩ := sampleLater_run
  exact ⟨s, printed, .nil _, rfl, hlater, read_pending_or_reported (.nil _) rfl hlater (by decide)⟩

end TrackedThread

end Prd.Runtime
