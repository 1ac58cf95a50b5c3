import Prd.Runtime.PendingLives

/-!
# Fresh labels of pending reads

The label of a read that is no longer pending is unused from then on. If another pending read holds
it as well, it is handed out while it is held, or twice. The labels that are handed out are fresh as
long as no read leaves whose label another one holds.
-/
namespace Prd.Runtime

open Foundation

namespace PendingReadsCollection

variable {f : DependencyState → Option DependencyState}

/-- The labels of the entries that a loop removes are unused afterwards. -/
theorem unusedLabels_visit (f : DependencyState → Option DependencyState)
    (c : PendingReadsCollection) (unusedLabels : List DfsanLabel) : (c.visit f unusedLabels).2 =
      unusedLabels ++ (c.entries.filter fun p => (f p).isNone).map DependencyState.label := by
  induction c generalizing unusedLabels with
  | nil => simp [visit, entries]
  | cons slot c ih =>
    cases slot with
    | none => simp [visit, ih]
    | some p => cases hp : f p <;> simp [visit, hp, ih]

end PendingReadsCollection

/-- No label is unused twice or both unused and held. -/
structure FreshIn (unusedLabels : List DfsanLabel) (entries : List DependencyState) : Prop where
  nodup : unusedLabels.Nodup
  notHeld : ∀ label ∈ unusedLabels, label ∉ entries.map DependencyState.label

namespace FreshIn

variable {unusedLabels : List DfsanLabel} {entries entries' : List DependencyState}
  {f : DependencyState → Option DependencyState} {p : DependencyState}

theorem perm (h : entries.Perm entries') : FreshIn unusedLabels entries ↔
    FreshIn unusedLabels entries' := by
  have hmem : ∀ label, label ∈ entries.map DependencyState.label ↔
      label ∈ entries'.map DependencyState.label := fun label => (h.map _).mem_iff
  exact ⟨fun hf => ⟨hf.nodup, fun l hl => mt (hmem l).mpr (hf.notHeld l hl)⟩,
    fun hf => ⟨hf.nodup, fun l hl => mt (hmem l).mp (hf.notHeld l hl)⟩⟩

theorem cons : FreshIn unusedLabels (p :: entries) ↔
    p.label ∉ unusedLabels ∧ FreshIn unusedLabels entries := by
  constructor
  · intro h
    refine ⟨fun hp => h.notHeld _ hp (by simp), h.nodup, fun l hl hmem => ?_⟩
    exact h.notHeld l hl (List.mem_cons_of_mem _ hmem)
  · rintro ⟨hp, h⟩
    refine ⟨h.nodup, fun l hl hmem => ?_⟩
    rcases List.mem_cons.mp hmem with rfl | hmem
    · exact hp hl
    · exact h.notHeld l hl hmem

/-- Entries leave their labels behind fresh exactly when no other entry holds them. -/
theorem leave (h : FreshIn unusedLabels entries) (hf : ∀ p p', f p = some p' → p'.label = p.label) :
    FreshIn (unusedLabels ++ (entries.filter fun p => (f p).isNone).map DependencyState.label)
        (entries.filterMap f) ↔
      entries.Pairwise fun p q => (f p = none ∨ f q = none) → p.label ≠ q.label := by
  have hkept : ∀ q ∈ entries, f q ≠ none →
      q.label ∈ (entries.filterMap f).map DependencyState.label := by
    intro q hq hne
    obtain ⟨q', hq'⟩ := Option.ne_none_iff_exists'.mp hne
    exact List.mem_map.mpr ⟨q', List.mem_filterMap.mpr ⟨q, hq, hq'⟩, hf q q' hq'⟩
  have hleft : ∀ q ∈ entries, f q = none →
      q.label ∈ (entries.filter fun p => (f p).isNone).map DependencyState.label := by
    intro q hq hnone
    exact List.mem_map.mpr ⟨q, List.mem_filter.mpr ⟨hq, by simp [hnone]⟩, rfl⟩
  constructor
  · intro h'
    have hdup := (List.nodup_append.mp h'.nodup).2.1
    rw [List.nodup_iff_pairwise_ne, List.pairwise_map, List.pairwise_filter] at hdup
    refine hdup.imp_of_mem fun {p q} hp hq hne hnone heq => ?_
    by_cases hpn : f p = none
    · by_cases hqn : f q = none
      · exact hne (by simp [hpn]) (by simp [hqn]) heq
      · exact h'.notHeld _ (List.mem_append_right _ (hleft p hp hpn)) (heq ▸ hkept q hq hqn)
    · have hqn := hnone.resolve_left hpn
      exact h'.notHeld _ (List.mem_append_right _ (hleft q hq hqn)) (heq ▸ hkept p hp hpn)
  · intro halone
    have hapart : ∀ p ∈ entries, ∀ q ∈ entries, p ≠ q → f p = none → p.label ≠ q.label := by
      intro p hp q hq hne hnone
      have hsymm : Std.Symm fun p q => (f p = none ∨ f q = none) → p.label ≠ q.label :=
        ⟨fun p q hpq hor => (hpq hor.symm).symm⟩
      exact halone.forall hp hq hne (Or.inl hnone)
    refine ⟨List.nodup_append.mpr ⟨h.nodup, ?_, ?_⟩, ?_⟩
    · rw [List.nodup_iff_pairwise_ne, List.pairwise_map, List.pairwise_filter]
      exact halone.imp fun hpq hp _ => hpq (Or.inl (by simpa using hp))
    · rintro l hl _ hl' rfl
      obtain ⟨p, hp, rfl⟩ := List.mem_map.mp hl'
      exact h.notHeld _ hl (List.mem_map_of_mem (List.mem_of_mem_filter hp))
    · intro l hl hheld
      obtain ⟨q', hq', rfl⟩ := List.mem_map.mp hheld
      obtain ⟨q, hq, hfq⟩ := List.mem_filterMap.mp hq'
      rw [hf q q' hfq] at hl
      rcases List.mem_append.mp hl with hl | hl
      · exact h.notHeld _ hl (List.mem_map_of_mem hq)
      · obtain ⟨p, hp, heq⟩ := List.mem_map.mp hl
        obtain ⟨hp, hnone⟩ := List.mem_filter.mp hp
        have hnone' : f p = none := by simpa using hnone
        refine hapart p hp q hq (fun hpq => ?_) hnone' heq
        rw [hpq, hfq] at hnone'
        cases hnone'

end FreshIn

namespace DataFlow

/-- The pending reads of a state. -/
def pending (s : DataFlow) : List DependencyState := s.thread.dfPendingReads.entries

/-- The read was marked when the memory had no label, and each read marked since took one from its
life. -/
def UnlabelledAt (calls : List Call) (p : DependencyState) : Prop :=
  ∃ pre mid, calls = pre ++ .markRead 0 p.eventId p.pc p.addr p.size :: mid ∧
    mid.countP Call.isMark + p.life.toNat = pendingReadsLifeMax.toNat

/-- No label is unused twice or both unused and held, and the next one that is handed out is not
held. Reads that were marked without a label do not share theirs, and a line is printed for one of
them only on account of its own. -/
structure LabelsFresh (s : DataFlow) (calls : List Call) : Prop where
  unused : s.thread.unusedLabels.Nodup
  notHeld : ∀ label ∈ s.thread.unusedLabels, label ∉ s.held
  fresh : ∀ label thread table, s.thread.getUnusedLabel s.table = some (label, thread, table) →
    label ∉ s.held
  apart : s.pending.Pairwise fun p q => UnlabelledAt calls p → UnlabelledAt calls q →
    p.label ≠ q.label
  printed : ∀ labelContent labelAddress eventId tid pc addr, ∀ line ∈
    (s.thread.dfProcessWrite s.table labelContent labelAddress eventId tid pc addr).1,
      ∃ p ∈ s.pending, line = ⟨tid, p.pc, p.eventId, pc, eventId⟩ ∧
        (dfsanHasLabel s.table labelContent p.label = true ∨
          dfsanHasLabel s.table labelAddress p.label = true) ∧
        ∀ q ∈ s.pending, UnlabelledAt calls p → UnlabelledAt calls q → q.label = p.label → q = p

/-- The pending reads that a call removes. -/
def leaves (s : DataFlow) : Call → DependencyState → Bool
  | .markRead .., p => (CprdThreadState.age p).isNone
  | .processWrite labelContent labelAddress _ _ _ addr, p =>
    !(labelContent == 0 && labelAddress == 0) &&
      CprdThreadState.reports s.table labelContent labelAddress addr p
  | .created _, _ => false

/-- A marked read does not come with an unused label or with that of a read that leaves. -/
def ReadsApart (s : DataFlow) : Call → Prop
  | .markRead label .. => label ≠ 0 →
    label ∉ s.thread.unusedLabels ∧ ∀ p ∈ s.pending, CprdThreadState.age p = none → p.label ≠ label
  | _ => True

instance (s : DataFlow) (call : Call) : Decidable (s.ReadsApart call) :=
  match call with
  | .markRead .. => inferInstanceAs (Decidable (_ → _))
  | .processWrite .. => inferInstanceAs (Decidable True)
  | .created _ => inferInstanceAs (Decidable True)

/-- No read leaves whose label another one holds, nor does one come with a label that is unused. -/
structure KeepsFresh (s : DataFlow) (call : Call) : Prop where
  alone : s.pending.Pairwise fun p q =>
    (s.leaves call p = true ∨ s.leaves call q = true) → p.label ≠ q.label
  apart : s.ReadsApart call

section Unlabelled

variable {calls : List Call} {call : Call} {p q : DependencyState}

/-- The last call is the one that marked the read, or it came after it. -/
theorem UnlabelledAt.cases_last (h : UnlabelledAt (calls ++ [call]) p) :
    (call = .markRead 0 p.eventId p.pc p.addr p.size ∧ p.life.toNat = pendingReadsLifeMax.toNat) ∨
      ∃ pre mid, calls = pre ++ .markRead 0 p.eventId p.pc p.addr p.size :: mid ∧
        mid.countP Call.isMark + [call].countP Call.isMark + p.life.toNat =
          pendingReadsLifeMax.toNat := by
  obtain ⟨pre, mid, hcalls, hlife⟩ := h
  rcases append_singleton_eq_iff.mp hcalls with ⟨-, hcall, rfl⟩ | ⟨mid, rfl, hsplit⟩
  · exact Or.inl ⟨hcall.symm, by simpa using hlife⟩
  · rw [List.countP_append] at hlife
    exact Or.inr ⟨pre, mid, hsplit, hlife⟩

theorem UnlabelledAt.of_age (h : UnlabelledAt (calls ++ [call]) q) (hcall : call.isMark = true)
    (hpos : 0 < p.life.toNat) (hle : p.life.toNat ≤ pendingReadsLifeMax.toNat)
    (hage : CprdThreadState.age p = some q) : UnlabelledAt calls p := by
  obtain ⟨hq, hlife, -⟩ := Aging.age_toNat hpos hage
  rcases h.cases_last with ⟨-, hmax⟩ | ⟨pre, mid, hcalls, hsum⟩
  · omega
  · rw [List.countP_singleton, if_pos hcall] at hsum
    rw [hq] at hcalls
    exact ⟨pre, mid, hcalls, by omega⟩

theorem UnlabelledAt.of_not_mark (h : UnlabelledAt (calls ++ [call]) p)
    (hcall : call.isMark = false) : UnlabelledAt calls p := by
  rcases h.cases_last with ⟨rfl, -⟩ | ⟨pre, mid, hcalls, hsum⟩
  · cases hcall
  · rw [List.countP_singleton, hcall] at hsum
    exact ⟨pre, mid, hcalls, hsum⟩

/-- A read that is just marked without a label had none. -/
theorem UnlabelledAt.label_eq_zero {label' label : DfsanLabel} {eventId pc addr size : ℕ}
    (h : UnlabelledAt (calls ++ [.markRead label eventId pc addr size])
      ⟨label', eventId, addr, size, pc, pendingReadsLifeMax⟩) : label = 0 := by
  rcases h.cases_last with ⟨hcall, -⟩ | ⟨pre, mid, -, hsum⟩
  · cases hcall
    rfl
  · have hmark : [Call.markRead label eventId pc addr size].countP Call.isMark = 1 := rfl
    dsimp only at hsum
    omega

end Unlabelled

/-- What holds along a run whose labels are fresh. -/
structure Tidy (s : DataFlow) (calls : List Call) : Prop where
  aging : Aging s.thread.dfPendingReads
  lt : ∀ label ∈ s.thread.unusedLabels ++ s.held, label < s.table.length
  fresh : FreshIn s.thread.unusedLabels s.pending
  apart : s.pending.Pairwise fun p q => UnlabelledAt calls p → UnlabelledAt calls q →
    p.label ≠ q.label

namespace Tidy

variable {s s' : DataFlow} {calls : List Call} {call : Call} {lines : List PdLine}
    {label : DfsanLabel}

/-- The label that is handed out is not in use. -/
theorem getUnusedLabel (h : s.Tidy calls) {thread : CprdThreadState} {table : LabelTable}
    (hget : s.thread.getUnusedLabel s.table = some (label, thread, table)) :
    thread.dfPendingReads = s.thread.dfPendingReads ∧ FreshIn thread.unusedLabels s.pending ∧
      (label ∉ thread.unusedLabels ∧ label ∉ s.held) ∧
      ∀ l ∈ label :: (thread.unusedLabels ++ s.held), l < table.length := by
  have hlt := h.lt
  unfold CprdThreadState.getUnusedLabel at hget
  cases hlast : s.thread.unusedLabels.getLast? with
  | some l =>
    rw [hlast] at hget
    cases hget
    obtain ⟨rest, hrest⟩ := List.getLast?_eq_some_iff.mp hlast
    have hnodup := h.fresh.nodup
    have hnotHeld := h.fresh.notHeld
    rw [hrest] at hlt hnodup hnotHeld ⊢
    rw [List.dropLast_concat]
    obtain ⟨hrestNodup, -, hapart⟩ := List.nodup_append.mp hnodup
    refine ⟨rfl, ⟨hrestNodup, fun l hl => hnotHeld l (List.mem_append_left _ hl)⟩,
      ⟨fun hmem => hapart label hmem label (by simp) rfl, hnotHeld label (by simp)⟩,
      fun l hl => hlt l ?_⟩
    simp only [List.mem_cons, List.mem_append, List.not_mem_nil, or_false] at hl ⊢
    tauto
  | none =>
    rw [hlast] at hget
    unfold dfsanCreateLabel at hget
    split_ifs at hget
    · cases hget
    · cases hget
      refine ⟨rfl, h.fresh, ⟨fun hmem => ?_, fun hmem => ?_⟩, fun l hl => ?_⟩
      · exact lt_irrefl _ (hlt _ (List.mem_append_left _ hmem))
      · exact lt_irrefl _ (hlt _ (List.mem_append_right _ hmem))
      · rw [List.length_append]
        rcases List.mem_cons.mp hl with rfl | hl
        · exact Nat.lt_succ_self _
        · exact Nat.lt_succ_of_lt (hlt l hl)

theorem age_label {p p' : DependencyState} (hage : CprdThreadState.age p = some p') :
    p'.label = p.label := by
  obtain ⟨rfl, -⟩ := age_eq_some hage
  rfl

/-- A marked read gets its label, and then the others age and it joins them. -/
structure Marked (s s' : DataFlow) (label : DfsanLabel) (eventId pc addr size : ℕ)
    (label' : DfsanLabel) (unusedLabels : List DfsanLabel) : Prop where
  pending : s'.pending.Perm (⟨label', eventId, addr, size, pc, pendingReadsLifeMax⟩ ::
    s.pending.filterMap CprdThreadState.age)
  unused : s'.thread.unusedLabels = unusedLabels ++
    (s.pending.filter fun p => (CprdThreadState.age p).isNone).map DependencyState.label
  fresh : FreshIn unusedLabels s.pending
  lt : ∀ l ∈ label' :: (unusedLabels ++ s.held), l < s'.table.length
  unlabelled : label = 0 → label' ∉ unusedLabels ∧ label' ∉ s.held
  labelled : label ≠ 0 → label' = label ∧ unusedLabels = s.thread.unusedLabels

theorem exists_marked (h : s.Tidy calls) {eventId pc addr size : ℕ}
    (hret : s.Returns (.markRead label eventId pc addr size))
    (hstep : s.step (.markRead label eventId pc addr size) = some (lines, s')) :
    Aging s'.thread.dfPendingReads ∧
      ∃ label' unusedLabels, Marked s s' label eventId pc addr size label' unusedLabels := by
  obtain ⟨⟨thread, table⟩, hmark, hs⟩ := Option.bind_eq_some_iff.mp hstep
  cases hs
  unfold CprdThreadState.dfMarkRead at hmark
  obtain ⟨⟨label', t, table'⟩, hlabel, hmark⟩ := Option.bind_eq_some_iff.mp hmark
  cases hmark
  have hreads : t.dfPendingReads = s.thread.dfPendingReads ∧ FreshIn t.unusedLabels s.pending ∧
      (∀ l ∈ label' :: (t.unusedLabels ++ s.held), l < table.length) ∧
      (label = 0 → label' ∉ t.unusedLabels ∧ label' ∉ s.held) ∧
      (label ≠ 0 → label' = label ∧ t.unusedLabels = s.thread.unusedLabels) := by
    split_ifs at hlabel with h0
    · obtain ⟨hpending, hfresh, hout, hlt⟩ := h.getUnusedLabel hlabel
      exact ⟨hpending, hfresh, hlt, fun _ => hout, fun hne => absurd h0 hne⟩
    · cases hlabel
      refine ⟨rfl, h.fresh, fun l hl => ?_, fun h0' => absurd h0' h0, fun _ => ⟨rfl, rfl⟩⟩
      rcases List.mem_cons.mp hl with rfl | hl
      · exact hret
      · exact h.lt l hl
  obtain ⟨hpending, hfresh, hlt, hzero, hne⟩ := hreads
  dsimp only
  rw [hpending]
  refine ⟨h.aging.mark rfl, label', t.unusedLabels, ?_, ?_, hfresh, hlt, hzero, hne⟩
  · unfold DataFlow.pending
    dsimp only
    exact h.aging.mark_entries _
  · exact PendingReadsCollection.unusedLabels_visit _ _ _

namespace Marked

variable {eventId pc addr size : ℕ} {label' : DfsanLabel} {unusedLabels : List DfsanLabel}

theorem mem_unused (hm : Marked s s' label eventId pc addr size label' unusedLabels)
    (l : DfsanLabel) : l ∈ s'.thread.unusedLabels ↔
      l ∈ unusedLabels ∨ ∃ p ∈ s.pending, CprdThreadState.age p = none ∧ p.label = l := by
  rw [hm.unused]
  simp [and_assoc]

theorem mem_held_of_aged {q : DependencyState}
    (hq : q ∈ s.pending.filterMap CprdThreadState.age) : q.label ∈ s.held := by
  obtain ⟨p, hp, hage⟩ := List.mem_filterMap.mp hq
  rw [age_label hage]
  exact List.mem_map_of_mem hp

/-- The label of the read is not unused afterwards when it is not in use before, or comes with a
label that no read leaves. -/
theorem notMem_unused_iff (hm : Marked s s' label eventId pc addr size label' unusedLabels) :
    label' ∉ s'.thread.unusedLabels ↔ s.ReadsApart (.markRead label eventId pc addr size) := by
  rw [hm.mem_unused]
  constructor
  · intro hno h0
    obtain ⟨rfl, rfl⟩ := hm.labelled h0
    exact ⟨fun hl => hno (Or.inl hl), fun p hp hnone heq => hno (Or.inr ⟨p, hp, hnone, heq⟩)⟩
  · intro hapart
    by_cases h0 : label = 0
    · obtain ⟨hnot, hheld⟩ := hm.unlabelled h0
      rintro (hl | ⟨p, hp, -, rfl⟩)
      · exact hnot hl
      · exact hheld (List.mem_map_of_mem hp)
    · obtain ⟨rfl, rfl⟩ := hm.labelled h0
      obtain ⟨hnot, hleft⟩ := hapart h0
      rintro (hl | ⟨p, hp, hnone, heq⟩)
      · exact hnot hl
      · exact hleft p hp hnone heq

theorem freshIn_iff (hm : Marked s s' label eventId pc addr size label' unusedLabels) :
    FreshIn s'.thread.unusedLabels s'.pending ↔
      s.KeepsFresh (.markRead label eventId pc addr size) := by
  have hleaves : ∀ p, s.leaves (.markRead label eventId pc addr size) p = true ↔
      CprdThreadState.age p = none := fun p => Option.isNone_iff_eq_none
  have hleave := hm.fresh.leave fun p p' => age_label
  rw [← hm.unused] at hleave
  rw [FreshIn.perm hm.pending, FreshIn.cons, hleave, hm.notMem_unused_iff]
  constructor
  · rintro ⟨hapart, halone⟩
    exact ⟨by simpa only [hleaves] using halone, hapart⟩
  · intro hkeeps
    exact ⟨hkeeps.apart, by simpa only [hleaves] using hkeeps.alone⟩

theorem lt_table (hm : Marked s s' label eventId pc addr size label' unusedLabels) :
    ∀ l ∈ s'.thread.unusedLabels ++ s'.held, l < s'.table.length := by
  intro l hl
  refine hm.lt l ?_
  rcases List.mem_append.mp hl with hl | hl
  · rcases (hm.mem_unused l).mp hl with hl | ⟨p, hp, -, rfl⟩
    · exact List.mem_cons_of_mem _ (List.mem_append_left _ hl)
    · exact List.mem_cons_of_mem _ (List.mem_append_right _ (List.mem_map_of_mem hp))
  · rcases List.mem_cons.mp ((hm.pending.map DependencyState.label).mem_iff.mp hl) with rfl | hl
    · exact List.mem_cons_self
    · obtain ⟨q, hq, rfl⟩ := List.mem_map.mp hl
      exact List.mem_cons_of_mem _ (List.mem_append_right _ (mem_held_of_aged hq))

/-- Only a read of memory without a label gets a label of its own. -/
theorem apart (hm : Marked s s' label eventId pc addr size label' unusedLabels) (h : s.Tidy calls) :
    s'.pending.Pairwise fun p q =>
      UnlabelledAt (calls ++ [.markRead label eventId pc addr size]) p →
        UnlabelledAt (calls ++ [.markRead label eventId pc addr size]) q → p.label ≠ q.label := by
  rw [hm.pending.pairwise_iff fun hpq hq hp => (hpq hp hq).symm, List.pairwise_cons,
    List.pairwise_filterMap]
  constructor
  · intro q hq hp _ heq
    have heq' : label' = q.label := heq
    exact (hm.unlabelled hp.label_eq_zero).2 (heq' ▸ mem_held_of_aged hq)
  · refine h.apart.imp_of_mem fun hp hq hapart p' hp' q' hq' hup huq => ?_
    rw [age_label hp', age_label hq']
    obtain ⟨hppos, hple⟩ := h.aging.lives _ hp
    obtain ⟨hqpos, hqle⟩ := h.aging.lives _ hq
    exact hapart (hup.of_age rfl hppos hple hp') (huq.of_age rfl hqpos hqle hq')

end Marked

/-- A write takes the reads that it reports away, and their labels are unused. -/
theorem processWrite (h : s.Tidy calls) {labelContent labelAddress eventId tid pc addr : ℕ}
    (hstep : s.step (.processWrite labelContent labelAddress eventId tid pc addr) =
      some (lines, s')) :
    (FreshIn s'.thread.unusedLabels s'.pending ↔
        s.KeepsFresh (.processWrite labelContent labelAddress eventId tid pc addr)) ∧
      Aging s'.thread.dfPendingReads ∧
      (∀ l ∈ s'.thread.unusedLabels ++ s'.held, l < s'.table.length) ∧
      s'.pending.Sublist s.pending := by
  have hkeeps : s.KeepsFresh (.processWrite labelContent labelAddress eventId tid pc addr) ↔
      s.pending.Pairwise fun p q =>
        (s.leaves (.processWrite labelContent labelAddress eventId tid pc addr) p = true ∨
          s.leaves (.processWrite labelContent labelAddress eventId tid pc addr) q = true) →
            p.label ≠ q.label :=
    ⟨fun hk => hk.alone, fun halone => ⟨halone, trivial⟩⟩
  cases hstep
  rw [hkeeps]
  unfold CprdThreadState.dfProcessWrite leaves
  split_ifs with h0
  · refine ⟨iff_of_true h.fresh (List.pairwise_of_forall fun p q hor => ?_), h.aging, h.lt, .refl _⟩
    simp [h0.1, h0.2] at hor
  · let reported := CprdThreadState.reports s.table labelContent labelAddress addr
    let f := fun p => if reported p = true then none else some p
    have hnone : ∀ p, f p = none ↔ reported p = true := by
      intro p
      by_cases hp : reported p = true <;> simp [f, hp]
    have hlabel : ∀ p p', f p = some p' → p'.label = p.label := by
      intro p p' hp
      by_cases hr : reported p = true
      · simp [f, hr] at hp
      · simp only [f, hr] at hp
        cases hp
        rfl
    have hsome : (labelContent == 0 && labelAddress == 0) = false := by
      simpa using h0
    have hentries : (s.thread.dfPendingReads.visit f s.thread.unusedLabels).1.entries =
        s.pending.filter fun p => ! reported p := Aging.entries_unreported reported
    have hleave : FreshIn (s.thread.dfPendingReads.visit f s.thread.unusedLabels).2
        (s.thread.dfPendingReads.visit f s.thread.unusedLabels).1.entries ↔
          s.pending.Pairwise fun p q => (f p = none ∨ f q = none) → p.label ≠ q.label := by
      rw [PendingReadsCollection.unusedLabels_visit, PendingReadsCollection.entries_visit]
      exact h.fresh.leave hlabel
    simp only [hnone] at hleave
    simp only [hsome, Bool.not_false, Bool.true_and]
    refine ⟨hleave, h.aging.unreported reported, fun l hl => ?_, ?_⟩
    · exact h.lt l ((s.thread.dfPendingReads.visit_perm hlabel s.thread.unusedLabels).mem_iff.mp hl)
    · change (s.thread.dfPendingReads.visit f s.thread.unusedLabels).1.entries.Sublist _
      rw [hentries]
      exact List.filter_sublist

/-- After a call the labels are fresh exactly when it keeps them so. -/
theorem step (h : s.Tidy calls) (hret : s.Returns call) (hstep : s.step call = some (lines, s')) :
    (FreshIn s'.thread.unusedLabels s'.pending ↔ s.KeepsFresh call) ∧
      (s.KeepsFresh call → s'.Tidy (calls ++ [call])) := by
  have hother : ∀ {l : List DependencyState}, call.isMark = false → l.Sublist s.pending →
      l.Pairwise fun p q => UnlabelledAt (calls ++ [call]) p → UnlabelledAt (calls ++ [call]) q →
        p.label ≠ q.label := by
    intro l hcall hl
    refine (h.apart.sublist hl).imp fun hpq hp hq => ?_
    exact hpq (hp.of_not_mark hcall) (hq.of_not_mark hcall)
  cases call with
  | markRead label eventId pc addr size =>
    obtain ⟨haging, label', unusedLabels, hm⟩ := h.exists_marked hret hstep
    exact ⟨hm.freshIn_iff,
      fun hkeeps => ⟨haging, hm.lt_table, hm.freshIn_iff.mpr hkeeps, hm.apart h⟩⟩
  | processWrite labelContent labelAddress eventId tid pc addr =>
    obtain ⟨hiff, haging, hlt, hsub⟩ := h.processWrite hstep
    exact ⟨hiff, fun hkeeps => ⟨haging, hlt, hiff.mpr hkeeps, hother rfl hsub⟩⟩
  | created infos =>
    cases hstep
    have hkeeps : s.KeepsFresh (.created infos) :=
      ⟨List.pairwise_of_forall fun p q hor => by simp [leaves] at hor, trivial⟩
    refine ⟨iff_of_true h.fresh hkeeps,
      fun _ => ⟨h.aging, fun l hl => ?_, h.fresh, hother rfl (.refl _)⟩⟩
    rw [List.length_append]
    exact Nat.lt_add_right _ (h.lt l hl)

theorem labelsFresh (h : s.Tidy calls) : s.LabelsFresh calls where
  unused := h.fresh.nodup
  notHeld := h.fresh.notHeld
  fresh := fun _ _ _ hget => (h.getUnusedLabel hget).2.2.1.2
  apart := h.apart
  printed := by
    intro labelContent labelAddress eventId tid pc addr line hline
    unfold CprdThreadState.dfProcessWrite at hline
    split_ifs at hline with h0
    · cases hline
    · obtain ⟨p, hp, rfl⟩ := List.mem_map.mp hline
      obtain ⟨hmem, hreports⟩ := List.mem_filter.mp hp
      have hlabel := (Bool.and_eq_true_iff.mp hreports).2
      refine ⟨p, hmem, rfl, Bool.or_eq_true_iff.mp hlabel, fun q hq hup huq heq => ?_⟩
      by_contra hne
      have hsymm : Std.Symm fun p q =>
          UnlabelledAt calls p → UnlabelledAt calls q → p.label ≠ q.label :=
        ⟨fun p q hpq hq hp => (hpq hp hq).symm⟩
      exact h.apart.forall hq hmem hne huq hup heq

theorem start (infos : List DfsanLabelInfo) : (start infos).Tidy [] where
  aging := .new
  lt := by simp [DataFlow.start, CprdThreadState.new, held]
  fresh := ⟨List.nodup_nil, fun _ hl => absurd hl List.not_mem_nil⟩
  apart := by simp [DataFlow.start, CprdThreadState.new, pending, PendingReadsCollection.entries]

end Tidy

section Runs

variable {s s' : DataFlow} {calls past : List Call} {printed : List (List PdLine)}

/-- The labels are fresh in every state that the calls lead through. -/
def StaysFresh (s : DataFlow) (past calls : List Call) : Prop :=
  ∀ pre post printed s', calls = pre ++ post → Run (fun _ _ => True) s pre printed s' →
    s'.LabelsFresh (past ++ pre)

theorem Tidy.staysFresh (h : s.Tidy past) (hrun : Run KeepsFresh s calls printed s') :
    s.StaysFresh past calls := by
  induction hrun generalizing past with
  | nil s =>
    intro pre post printed s' hsplit hpre
    obtain ⟨rfl, -⟩ := List.append_eq_nil_iff.mp hsplit.symm
    cases hpre
    rw [List.append_nil]
    exact h.labelsFresh
  | cons hret hkeeps hstep _ ih =>
    intro pre post printed s' hsplit hpre
    cases hpre with
    | nil _ =>
      rw [List.append_nil]
      exact h.labelsFresh
    | cons hret' _ hstep' hpre =>
      obtain ⟨rfl, htail⟩ := List.cons.inj hsplit
      obtain ⟨rfl, rfl⟩ := Prod.mk.inj (Option.some.inj (hstep.symm.trans hstep'))
      have hnext := ih ((h.step hret hstep).2 hkeeps) _ _ _ _ htail hpre
      rwa [List.append_assoc] at hnext

/-- The first call that does not keep the labels fresh leads to a state in which they are not. -/
theorem Tidy.keepsFresh (h : s.Tidy past) (hrun : Run (fun _ _ => True) s calls printed s')
    (hfresh : s.StaysFresh past calls) : Run KeepsFresh s calls printed s' := by
  induction hrun generalizing past with
  | nil s => exact .nil s
  | cons hret _ hstep hrun ih =>
    have hnext := hfresh [_] _ _ _ rfl (.cons hret trivial hstep (.nil _))
    have hkeeps := (h.step hret hstep).1.mp ⟨hnext.unused, hnext.notHeld⟩
    refine .cons hret hkeeps hstep (ih ((h.step hret hstep).2 hkeeps) ?_)
    intro pre post printed s' hsplit hpre
    have hall := hfresh (_ :: pre) post _ _ (congrArg _ hsplit) (.cons hret trivial hstep hpre)
    rwa [List.append_assoc]

/-- Fresh labels are fresh in every state of a run exactly when every call keeps them so. -/
theorem labels_fresh_iff {infos : List DfsanLabelInfo}
    (hrun : Run (fun _ _ => True) (start infos) calls printed s) :
    (start infos).StaysFresh [] calls ↔ Run KeepsFresh (start infos) calls printed s :=
  ⟨(Tidy.start infos).keepsFresh hrun, (Tidy.start infos).staysFresh⟩

/-- The state in which the first slots are taken. -/
def holding (entries : List DependencyState) (unusedLabels : List DfsanLabel) (created : ℕ) :
    DataFlow :=
  ⟨⟨entries.map some ++ List.replicate (pendingReadsMax - entries.length) none, unusedLabels⟩,
    List.replicate (created + 1) ⟨0, 0⟩⟩

/-- A read that came with a label, with the life that is left of it. -/
def sampleHeld (label eventId addr : ℕ) (life : UInt32) : DependencyState :=
    ⟨label, eventId, addr, 8, 1, life⟩

/-- Memory is read twice and other memory once, which a write depends on. -/
def rereadCalls : List Call :=
  [.markRead 0 0 1 0x1000 8, .markRead 1 1 1 0x1000 8, .markRead 0 2 1 0x3000 8,
    .processWrite 2 0 3 0 2 0x2000]

/-- Two pending reads share a label, and the one that leaves has another. -/
theorem labels_fresh_iff_reread : (start []).StaysFresh [] rereadCalls ∧
    Run (fun _ _ => True) (start []) rereadCalls [[], [], [], [⟨0, 1, 2, 2, 3⟩]]
      (holding [sampleHeld 1 0 0x1000 28, sampleHeld 1 1 0x1000 29] [2] 2) := by
  have hstep₁ : (start []).step (.markRead 0 0 1 0x1000 8) =
      some ([], holding [sampleHeld 1 0 0x1000 30] [] 1) := by decide +kernel
  have hstep₂ : (holding [sampleHeld 1 0 0x1000 30] [] 1).step (.markRead 1 1 1 0x1000 8) =
      some ([], holding [sampleHeld 1 0 0x1000 29, sampleHeld 1 1 0x1000 30] []
        1) := by decide +kernel
  have hstep₃ : (holding [sampleHeld 1 0 0x1000 29, sampleHeld 1 1 0x1000 30] [] 1).step
      (.markRead 0 2 1 0x3000 8) = some ([], holding [sampleHeld 1 0 0x1000 28,
        sampleHeld 1 1 0x1000 29, sampleHeld 2 2 0x3000 30] [] 2) := by decide +kernel
  have hstep₄ :
    (holding [sampleHeld 1 0 0x1000 28, sampleHeld 1 1 0x1000 29, sampleHeld 2 2 0x3000 30]
      [] 2).step (.processWrite 2 0 3 0 2 0x2000) = some ([⟨0, 1, 2, 2, 3⟩],
        holding [sampleHeld 1 0 0x1000 28, sampleHeld 1 1 0x1000 29] [2] 2) := by decide +kernel
  have hkeeps : Run KeepsFresh (start []) rereadCalls [[], [], [], [⟨0, 1, 2, 2, 3⟩]]
      (holding [sampleHeld 1 0 0x1000 28, sampleHeld 1 1 0x1000 29] [2] 2) :=
    .cons (by decide) ⟨by decide +kernel, by decide +kernel⟩ hstep₁ <|
    .cons (by decide) ⟨by decide +kernel, by decide +kernel⟩ hstep₂ <|
    .cons (by decide) ⟨by decide +kernel, by decide +kernel⟩ hstep₃ <|
    .cons (by decide) ⟨by decide +kernel, trivial⟩ hstep₄ (.nil _)
  have hrun : Run (fun _ _ => True) (start []) rereadCalls [[], [], [], [⟨0, 1, 2, 2, 3⟩]]
      (holding [sampleHeld 1 0 0x1000 28, sampleHeld 1 1 0x1000 29] [2] 2) :=
    .cons (by decide) trivial hstep₁ <| .cons (by decide) trivial hstep₂ <|
    .cons (by decide) trivial hstep₃ <| .cons (by decide) trivial hstep₄ (.nil _)
  exact ⟨(labels_fresh_iff hrun).mpr hkeeps, hrun⟩

/-- The memory at 0x1000 is read twice and comes with its label the second time. After the write
that depends on both reads the label is unused twice. So the next two reads of unlabelled memory
both get it, and a write that depends on one of them is printed for both. -/
theorem reread_label_shared :
    Run (fun _ _ => True) (start [])
        [.markRead 0 0 1 0x1000 8, .markRead 1 1 1 0x1000 8, .processWrite 1 0 2 0 2 0x2000]
        [[], [], [⟨0, 1, 0, 2, 2⟩, ⟨0, 1, 1, 2, 2⟩]] (holding [] [1, 1] 1) ∧
      ¬ (holding [] [1, 1] 1).LabelsFresh
        [.markRead 0 0 1 0x1000 8, .markRead 1 1 1 0x1000 8, .processWrite 1 0 2 0 2 0x2000] ∧
      Run (fun _ _ => True) (holding [] [1, 1] 1)
        [.markRead 0 3 1 0x3000 8, .markRead 0 4 1 0x4000 8, .processWrite 1 0 5 0 5 0x2000]
        [[], [], [⟨0, 1, 3, 5, 5⟩, ⟨0, 1, 4, 5, 5⟩]] (holding [] [1, 1] 1) := by
  have hmark₁ : (start []).step (.markRead 0 0 1 0x1000 8) =
      some ([], holding [sampleHeld 1 0 0x1000 30] [] 1) := by decide +kernel
  have hmark₂ : (holding [sampleHeld 1 0 0x1000 30] [] 1).step (.markRead 1 1 1 0x1000 8) =
      some ([], holding [sampleHeld 1 0 0x1000 29, sampleHeld 1 1 0x1000 30] []
        1) := by decide +kernel
  have hmark₃ : (holding [] [1, 1] 1).step (.markRead 0 3 1 0x3000 8) =
      some ([], holding [sampleHeld 1 3 0x3000 30] [1] 1) := by decide +kernel
  have hmark₄ : (holding [sampleHeld 1 3 0x3000 30] [1] 1).step (.markRead 0 4 1 0x4000 8) =
      some ([], holding [sampleHeld 1 3 0x3000 29, sampleHeld 1 4 0x4000 30] []
        1) := by decide +kernel
  refine ⟨?_, fun h => absurd h.unused (by decide), ?_⟩
  · exact .cons (by decide) trivial hmark₁ <| .cons (by decide) trivial hmark₂ <|
      .cons (by decide) trivial (by decide +kernel) (.nil _)
  · exact .cons (by decide) trivial hmark₃ <| .cons (by decide) trivial hmark₄ <|
      .cons (by decide) trivial (by decide +kernel) (.nil _)

end Runs

end DataFlow

end Prd.Runtime
