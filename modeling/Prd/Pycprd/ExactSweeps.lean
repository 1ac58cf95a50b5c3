import Prd.Foundation.DirectGossip
import Prd.Pycprd.Exactness
import Prd.Pycprd.SweepsAgree

/-!
# Graphs on which the detector is exact

When no edge is redundant and a single edge links the threads of any two instructions on a path,
both sweeps find all paths. Then both versions of a run report the races of the graph and nothing
else.
-/
namespace Prd.Pycprd

open Prd.Foundation Relation

/-- Every path between two instructions has a shortcut with at most one inter-thread edge. -/
def LinksDirectly {hbg : HBG} (h : hbg.WellFormed) : Prop :=
  ∀ y x : InstructionNode, hbg.graph.Reaches (.instruction y) (.instruction x) →
    (h.dag false).Direct (.instruction y) (.instruction x)

variable {it : IntervalTreeApi} {b : HBGBuilder} {edgeOrder : List (EpochNode × EpochNode)}
  {o : HBGBuilder.BuildOptions} {hbg : HBG} {pdg : PDG} {flags : Flags} {knows : Spread}
  {postorder reversePostorder : List Node}

theorem LinksDirectly.direct {h : hbg.WellFormed} (hD : LinksDirectly h) {i : Bool}
    {y x : InstructionNode} (hr : (h.dag i).Reach (.instruction y) (.instruction x)) :
    (h.dag i).Direct (.instruction y) (.instruction x) := by
  cases i with
  | false => exact hD y x (h.reach_reaches hr)
  | true =>
    have hlt : ∀ {u v}, (h.dag true).Reach u v → u.tid = v.tid := by
      intro u v hr
      induction hr with
      | single hs => exact hs.elim (fun hlt => hlt.2.2.1) (fun hk => nomatch hk)
      | tail _ hs ih => exact ih.trans (hs.elim (fun hlt => hlt.2.2.1) fun hk => nomatch hk)
    exact Or.inl ((h.dag_acyclic true).lt_of_reach hr (hlt hr))

/-- A spread that follows all paths between instructions. -/
def SpreadsAlongPaths (h : hbg.WellFormed) (flags : Flags) (knows : Spread) : Prop :=
  ∀ line (y x : InstructionNode), Node.instruction y ∈ hbg.nodes →
    (Node.instruction y).On flags.isNews line → (knows line (.instruction y) (.instruction x) ↔
      y = x ∨ (h.dag flags.ignoreInterThreadEdges).Reach (.instruction y) (.instruction x))

theorem fastKnows_alongPaths (h : hbg.WellFormed) (hI : hbg.Irredundant) (flags : Flags) :
    SpreadsAlongPaths h flags (FastKnows h flags) := by
  intro line y x hy hon
  rw [fastKnows_iff h hI hy hon]
  exact or_congr_left ⟨Node.instruction.inj, congrArg _⟩

theorem plainKnows_alongPaths (h : hbg.WellFormed) (hI : hbg.Irredundant) (hD : LinksDirectly h)
    (flags : Flags) : SpreadsAlongPaths h flags (PlainKnows h flags) := by
  intro line y x hy hon
  unfold PlainKnows
  rw [ThreadDag.knowsLate_iff_reach (hI.dag h _) hon hy hD.direct]
  exact or_congr_left ⟨Node.instruction.inj, congrArg _⟩

/-- The access reaches a flush of the line, and the flush the node. -/
theorem persistedBy_iff (h : hbg.WellFormed) (hk : Spreads h flags knows)
    (ha : SpreadsAlongPaths h flags knows) {line : Cacheline} {y x : InstructionNode}
    (hy : (Node.instruction y).On NodeType.isReadWriteType line) :
    PersistedBy flags knows line (.instruction y) (.instruction x) ↔ ∃ f : InstructionNode,
      (Node.instruction f).On flags.isFlush line ∧
        (h.dag flags.ignoreInterThreadEdges).Reach (.instruction y) (.instruction f) ∧
          (f = x ∨ (h.dag flags.ignoreInterThreadEdges).Reach (.instruction f)
            (.instruction x)) := by
  constructor
  · rintro ⟨f, hf, hyf, hfx⟩
    cases f with
    | epoch _ => exact absurd hf id
    | instruction f =>
      have hyf' := (ha line y f (hk.point hyf).1 hy.access_news).mp hyf
      have hfx' := (ha line f x (hk.point hfx).1 hf.flush_news).mp hfx
      refine ⟨f, hf, hyf'.resolve_left fun he => ?_, hfx'⟩
      subst he
      exact hy.not_flush hf
  · rintro ⟨f, hf, hyf, hfx⟩
    have hmem : Node.instruction f ∈ hbg.nodes := hyf.point.2
    exact ⟨_, hf, (ha line y f hyf.point.1 hy.access_news).mpr (Or.inr hyf),
      (ha line f x hmem hf.flush_news).mpr hfx⟩

section Exact

variable (hb : Built it b edgeOrder o hbg pdg) (ho : Orders hbg postorder reversePostorder)

include hb in
theorem persistedBy_iff_flushedBetween (hk : Spreads hb.wf .default knows)
    (ha : SpreadsAlongPaths hb.wf .default knows) {line : Cacheline} {y x : InstructionNode}
    (hy : (Node.instruction y).On NodeType.isReadWriteType line) (hx : x.itype ≠ .flush) :
    PersistedBy .default knows line (.instruction y) (.instruction x) ↔
      FlushedBetween hbg line y x := by
  have hreach : ∀ u v, (hb.wf.dag Flags.default.ignoreInterThreadEdges).Reach u v ↔
      hbg.graph.Reaches u v := fun u v => hb.wf.reaches_iff.symm
  have hflush : ∀ f : InstructionNode, (Node.instruction f).On Flags.default.isFlush line ↔
      f.itype = .flush ∧ f.getCachelineAddress = line := by
    intro f
    simp [Node.On, Flags.isFlush, Flags.default]
  rw [persistedBy_iff hb.wf hk ha hy]
  unfold FlushedBetween
  simp only [hreach, hflush, and_assoc]
  refine exists_congr fun f => and_congr_right fun hf => and_congr_right fun _ =>
    and_congr_right fun _ => or_iff_right fun he => ?_
  subst he
  exact hx hf

/-- What passes all checks is a race of the graph. -/
theorem race_iff_isRace (hk : Spreads hb.wf .default knows)
    (ha : SpreadsAlongPaths hb.wf .default knows)
    (hD : LinksDirectly hb.wf) {r w d : InstructionNode} :
    Race hb.wf pdg .default knows r w d ↔ Candidate hbg pdg r w d ∧ IsRace hbg r w d := by
  rw [race_default_iff hb]
  refine and_congr_right fun hc => ?_
  obtain ⟨hr, hw, hd⟩ := hc.not_flush hb
  have hdep := hb.isDependency hc.dependency
  have hron : (Node.instruction r).On NodeType.isReadWriteType r.getCachelineAddress := by
    refine ⟨?_, rfl⟩
    rw [hdep.isRead]
    rfl
  have hwon : (Node.instruction w).On NodeType.isReadWriteType r.getCachelineAddress := by
    refine ⟨?_, (hc.writesTo hb).2.2.1⟩
    rw [hc.isWrite]
    rfl
  have hahead : (hb.wf.dag false).Ahead (.instruction r) (.instruction w) ↔
      hbg.graph.Reaches (.instruction r) (.instruction w) :=
    ⟨fun h => hb.wf.reaches_iff.mpr h.reach, fun h => (hD r w h).ahead⟩
  rw [persistedBy_iff_flushedBetween hb hk ha hron hd,
    persistedBy_iff_flushedBetween hb hk ha hwon hd,
    hahead]
  exact ⟨fun ⟨h₁, h₂, h₃⟩ => ⟨hc.overlap, h₃, h₁, h₂⟩,
    fun h => ⟨h.readUnflushed, h.writeUnflushed, h.notAfter⟩⟩

include ho in
/-- Both versions report the races and nothing else. -/
theorem run_reports_iff (hI : hbg.Irredundant) (hD : LinksDirectly hb.wf) (fast : Bool) :
    ∃ races, run hbg pdg .default postorder reversePostorder fast = .ok races ∧
      ∀ r w d, races.Reports r w d ↔ Candidate hbg pdg r w d ∧ IsRace hbg r w d := by
  cases fast with
  | true =>
    obtain ⟨races, hrun, hrep, -⟩ := run_fast_spec hb ho .default
    refine ⟨races, hrun, fun r w d => (hrep r w d).trans ?_⟩
    exact race_iff_isRace hb (fastKnows_spreads hb.wf _) (fastKnows_alongPaths hb.wf hI _) hD
  | false =>
    obtain ⟨races, hrun, hrep⟩ := run_plain_spec hb ho .default
    refine ⟨races, hrun, fun r w d => (hrep r w d).trans ?_⟩
    exact race_iff_isRace hb (plainKnows_spreads hb.wf _) (plainKnows_alongPaths hb.wf hI hD _) hD

include hb in
theorem race_fast_iff_plain (hI : hbg.Irredundant) (hD : LinksDirectly hb.wf) (flags : Flags)
    (r w d : InstructionNode) : Race hb.wf pdg flags (FastKnows hb.wf flags) r w d ↔
      Race hb.wf pdg flags (PlainKnows hb.wf flags) r w d := by
  have hpers : ∀ v : InstructionNode, v.itype.isReadWriteType = true →
      v.getCachelineAddress = r.getCachelineAddress →
      (PersistedBy flags (FastKnows hb.wf flags) r.getCachelineAddress (.instruction v)
        (.instruction d) ↔ PersistedBy flags (PlainKnows hb.wf flags) r.getCachelineAddress
          (.instruction v) (.instruction d)) := by
    intro v hv hline
    rw [persistedBy_iff hb.wf (fastKnows_spreads hb.wf flags) (fastKnows_alongPaths hb.wf hI flags)
        ⟨hv, hline⟩,
      persistedBy_iff hb.wf (plainKnows_spreads hb.wf flags)
        (plainKnows_alongPaths hb.wf hI hD flags) ⟨hv, hline⟩]
  unfold Race
  refine RaceWith.congr (fun hdep => ?_) (fun _ v hv => ⟨?_, Iff.rfl⟩)
  · have hr := (hb.isDependency (PDG.mem_getDependencies.mp hdep)).isRead
    exact hpers r (by rw [hr]; rfl) rfl
  · exact hpers v (by rw [hv.2.1]; rfl) hv.2.2.1

include ho in
/-- Under all flags the two versions report the same. -/
theorem versions_agree (hI : hbg.Irredundant) (hD : LinksDirectly hb.wf) (flags : Flags) :
    ∃ races races', run hbg pdg flags postorder reversePostorder true = .ok races ∧
      run hbg pdg flags postorder reversePostorder false = .ok races' ∧
        ∀ r w d, races.Reports r w d ↔ races'.Reports r w d := by
  obtain ⟨races, hrun, hrep, -⟩ := run_fast_spec hb ho flags
  obtain ⟨races', hrun', hrep'⟩ := run_plain_spec hb ho flags
  refine ⟨races, races', hrun, hrun', fun r w d => ?_⟩
  rw [hrep, hrep']
  exact race_fast_iff_plain hb hI hD flags r w d

end Exact

/-- When a thread that receives messages never sends any, a path has one message at most. -/
theorem linksDirectly_of_oneWay (h : hbg.WellFormed)
    (hone : ∀ m q m' q', q ∈ hbg.getInterChildren m → q' ∈ hbg.getInterChildren m' →
      q.tid ≠ m'.tid) :
    LinksDirectly h := by
  let G := h.dag false
  have hpath : ∀ (y : InstructionNode) x, G.Reach (.instruction y) x → G.Lt (.instruction y) x ∨
      ∃ m q, G.Lt (.instruction y) m ∧ q ∈ G.kids m ∧ G.Le q x := by
    intro y x hr
    induction hr with
    | single hs =>
      rcases hs with hlt | hkid
      · exact Or.inl hlt
      · -- only epochs send messages
        exact absurd (h.inter _ _ (HBG.WellFormed.mem_interChildren.mp hkid)).2.1 y.itype_ne_epoch
    | tail _ hs ih =>
      rcases ih, hs with ⟨hyx | ⟨m, q, hym, hq, hqx⟩, hlt | hkid⟩
      · exact Or.inl ⟨hyx.1, hlt.2.1, hyx.2.2.1.trans hlt.2.2.1, hyx.2.2.2.trans hlt.2.2.2⟩
      · exact Or.inr ⟨_, _, hyx, hkid, ThreadDag.Le.refl (G.kids_point hkid).2⟩
      · exact Or.inr ⟨m, q, hym, hq, hqx.trans hlt.le⟩
      · exact absurd hqx.2.2.1 (hone m q _ _ hq hkid)
  intro y x hr
  rcases hpath y _ (h.reaches_iff.mp hr) with hlt | ⟨m, q, hym, hq, hqx⟩
  · exact Or.inl hlt
  · refine Or.inr ⟨m, q, hym, hq, ?_⟩
    rcases hqx.eq_or_lt with rfl | hlt
    · exact absurd (h.inter _ _ (HBG.WellFormed.mem_interChildren.mp hq)).2.2 x.itype_ne_epoch
    · exact hlt

/-- Thread 2 only sends, the others only receive. -/
theorem fork_linksDirectly : LinksDirectly fork_built.wf := by
  have hone : ∀ e ∈ forkGraph.graph.edges, ∀ e' ∈ forkGraph.graph.edges,
      e.2.2 = .interThread → e'.2.2 = .interThread → e.2.1.tid ≠ e'.1.tid := by decide
  refine linksDirectly_of_oneWay fork_built.wf fun m q m' q' hq hq' => ?_
  exact hone _ (HBG.WellFormed.mem_interChildren.mp hq) _
    (HBG.WellFormed.mem_interChildren.mp hq') rfl
    rfl

theorem versions_agree_fork :
    (∃ e ∈ forkGraph.graph.edges, e.2.2 = .interThread) ∧
      ∃ races races',
        run forkGraph samplePdg .default forkTrace.nodes.reverse forkTrace.nodes true =
          .ok races ∧
        run forkGraph samplePdg .default forkTrace.nodes.reverse forkTrace.nodes false =
          .ok races' ∧
        ∀ r w d, races.Reports r w d ↔ races'.Reports r w d :=
  ⟨by decide,
    versions_agree fork_built fork_orders fork_irredundant fork_linksDirectly .default⟩

end Prd.Pycprd
