import Prd.Foundation.DirectGossip
import Prd.Pycprd.Exactness

/-!
# When the two versions of a run agree

Both versions open the same writes to a check of persistency, and each drops those
its own sweep knows to be persisted. The fast sweep passes news on where it comes in,
the plain sweep only from a later node of the thread. Without redundant edges that is
the whole difference: a flush is lost to the plain sweep when every path to it, or from
it on, takes two inter-thread edges in a row.
-/
namespace Prd.Pycprd

open Prd.Foundation Relation

variable {it : IntervalTreeApi} {b : HBGBuilder} {edgeOrder : List (EpochNode × EpochNode)}
  {o : HBGBuilder.BuildOptions} {hbg : HBG} {pdg : PDG} {flags : Flags}
  {postorder reversePostorder : List Node} {r w d : InstructionNode}

/-- A candidate that the check of the happens-after clock lets pass. -/
def Open (h : hbg.WellFormed) (pdg : PDG) (flags : Flags) (r w d : InstructionNode) : Prop :=
  Candidate hbg pdg r w d ∧ ¬ (flags.ignoreHappensAfterIndex = false ∧
    (h.dag flags.ignoreInterThreadEdges).Ahead (.instruction r) (.instruction w))

/-- The read or the write is known to be persisted, and this is checked. -/
def Dropped (flags : Flags) (knows : Spread) (r w d : InstructionNode) : Prop :=
  flags.ignorePersistedBeforeIndex = false ∧
    (flags.ignoreReadNodePersistency = false ∧
        PersistedBy flags knows r.getCachelineAddress (.instruction r) (.instruction d) ∨
      PersistedBy flags knows r.getCachelineAddress (.instruction w) (.instruction d))

/-- The open writes of the thread before `w` that a search for the first bug decides first. -/
def OpenBefore (h : hbg.WellFormed) (pdg : PDG) (flags : Flags) (r w d v : InstructionNode) :
    Prop :=
  flags.showOnlyFirstBugInThread = true ∧ Open h pdg flags r v d ∧ v.tid = w.tid ∧ earlier hbg v w

/-- An open write is reported unless it is dropped or an earlier one is reported. -/
theorem race_iff_open (hb : Built it b edgeOrder o hbg pdg) (knows : Spread) :
    Race hb.wf pdg flags knows r w d ↔ Open hb.wf pdg flags r w d ∧ ¬ Dropped flags knows r w d ∧
      ∀ v, OpenBefore hb.wf pdg flags r w d v → Dropped flags knows r v d := by
  constructor
  · rintro ⟨hdep, hr, hw, ⟨hnt, ho, hp, ha⟩, hfirst⟩
    have hedge := PDG.mem_getDependencies.mp hdep
    refine ⟨⟨⟨hedge, hw.1, hw.2.1, hnt, ho⟩, ha⟩, ?_, ?_⟩
    · rintro ⟨hi, ⟨hri, hrp⟩ | hwp⟩
      · exact hr ⟨⟨hri, hi⟩, hrp⟩
      · exact hp ⟨hi, hwp⟩
    · rintro v ⟨hf, ⟨hc, hva⟩, hvt, hvw⟩
      have hvl := hc.writesTo hb
      rw [hvt] at hvl
      by_contra hno
      refine hfirst hf v hvl hvw ⟨hc.temporal, hc.overlap, fun hvp => hno ?_, hva⟩
      exact ⟨hvp.1, Or.inr hvp.2⟩
  · rintro ⟨⟨hc, ha⟩, hno, hfirst⟩
    refine ⟨PDG.mem_getDependencies.mpr hc.dependency, ?_, hc.writesTo hb,
      ⟨hc.temporal, hc.overlap, fun hwp => hno ⟨hwp.1, Or.inr hwp.2⟩, ha⟩, ?_⟩
    · rintro ⟨⟨hri, hi⟩, hrp⟩
      exact hno ⟨hi, Or.inl ⟨hri, hrp⟩⟩
    · rintro hf v hv hvw ⟨hnt, ho, hp, hva⟩
      have hvc : Candidate hbg pdg r v d := ⟨hc.dependency, hv.1, hv.2.1, hnt, ho⟩
      obtain ⟨hi, ⟨hri, hrp⟩ | hvp⟩ := hfirst v ⟨hf, ⟨hvc, hva⟩, hv.2.2.2, hvw⟩
      · exact hno ⟨hi, Or.inl ⟨hri, hrp⟩⟩
      · exact hp ⟨hi, hvp⟩

/-- The same writes are dropped in both ways of spreading, of the open ones that no earlier one of
their thread hides. -/
def SpreadsAgree (h : hbg.WellFormed) (pdg : PDG) (flags : Flags) (knows knows' : Spread) : Prop :=
  ∀ r w d, Open h pdg flags r w d →
    (∀ v, OpenBefore h pdg flags r w d v →
      Dropped flags knows r v d ∧ Dropped flags knows' r v d) →
    (Dropped flags knows r w d ↔ Dropped flags knows' r w d)

/-- When the spreads agree, a write all of whose predecessors one version drops is treated alike. -/
theorem SpreadsAgree.dropped_iff {h : hbg.WellFormed} {knows knows' : Spread}
    (hagree : SpreadsAgree h pdg flags knows knows') (w : InstructionNode)
    (ho : Open h pdg flags r w d)
    (hone : (∀ v, OpenBefore h pdg flags r w d v → Dropped flags knows r v d) ∨
      ∀ v, OpenBefore h pdg flags r w d v → Dropped flags knows' r v d) :
    (∀ v, OpenBefore h pdg flags r w d v →
      Dropped flags knows r v d ∧ Dropped flags knows' r v d) ∧
    (Dropped flags knows r w d ↔ Dropped flags knows' r w d) := by
  induction hn : hbg.index (.instruction w) using Nat.strong_induction_on generalizing w with
  | _ n ih =>
    have hboth : ∀ v, OpenBefore h pdg flags r w d v →
        Dropped flags knows r v d ∧ Dropped flags knows' r v d := by
      intro v hv
      have hbefore : ∀ u, OpenBefore h pdg flags r v d u → OpenBefore h pdg flags r w d u :=
        fun u hu => ⟨hu.1, hu.2.1, hu.2.2.1.trans hv.2.2.1, lt_trans hu.2.2.2 hv.2.2.2⟩
      have hv' := ih _ (hn ▸ hv.2.2.2) v hv.2.1
        (hone.imp (fun hall u hu => hall u (hbefore u hu))
          (fun hall u hu => hall u (hbefore u hu))) rfl
      rcases hone with hall | hall
      · exact ⟨hall v hv, hv'.2.mp (hall v hv)⟩
      · exact ⟨hv'.2.mpr (hall v hv), hall v hv⟩
    exact ⟨hboth, hagree r w d ho hboth⟩

/-- A write that only one way of spreading drops, while no earlier one of its thread decides. -/
structure DroppedOnlyBy (h : hbg.WellFormed) (pdg : PDG) (flags : Flags) (knows knows' : Spread)
    (r w d : InstructionNode) : Prop where
  isOpen : Open h pdg flags r w d
  undecided : ∀ v, OpenBefore h pdg flags r w d v →
    Dropped flags knows r v d ∧ Dropped flags knows' r v d
  dropped : Dropped flags knows r w d
  kept : ¬ Dropped flags knows' r w d

theorem spreadsAgree_iff {h : hbg.WellFormed} {knows knows' : Spread} :
    SpreadsAgree h pdg flags knows knows' ↔ ∀ r w d,
      ¬ DroppedOnlyBy h pdg flags knows knows' r w d ∧
        ¬ DroppedOnlyBy h pdg flags knows' knows r w d := by
  constructor
  · intro hagree r w d
    constructor
    · intro hd
      exact hd.kept ((hagree r w d hd.isOpen hd.undecided).mp hd.dropped)
    · intro hd
      have hiff := hagree r w d hd.isOpen fun v hv => (hd.undecided v hv).symm
      exact hd.kept (hiff.mpr hd.dropped)
  · intro hnone r w d hopen hboth
    constructor
    · intro hd
      by_contra hk
      exact (hnone r w d).1 ⟨hopen, hboth, hd, hk⟩
    · intro hd
      by_contra hk
      exact (hnone r w d).2 ⟨hopen, fun v hv => (hboth v hv).symm, hd, hk⟩

section Paths

/-- News goes along the paths of the graph. -/
def PathsLead (h : hbg.WellFormed) (flags : Flags) : Spread := fun _ y x =>
  y ∈ hbg.nodes ∧ ReflTransGen (h.dag flags.ignoreInterThreadEdges).Step y x

/-- News goes along the paths that never take two inter-thread edges in a row. -/
def SpacedPathsLead (h : hbg.WellFormed) (flags : Flags) : Spread := fun _ =>
  (h.dag flags.ignoreInterThreadEdges).Spaced

variable {knows knows' : Spread} {line : Cacheline} {x y : Node}

theorem fastKnows_iff_pathsLead (h : hbg.WellFormed) (hI : hbg.Irredundant)
    (hy : y.On flags.isNews line) :
    FastKnows h flags line y x ↔ PathsLead h flags line y x := by
  constructor
  · intro hk
    exact ⟨hk.point.1, hk.reach⟩
  · rintro ⟨hmem, hr⟩
    rw [fastKnows_iff h hI hmem hy]
    exact (reflTransGen_iff_eq_or_transGen.mp hr).imp_left Eq.symm

theorem plainKnows_iff_spacedPathsLead (h : hbg.WellFormed) (hI : hbg.Irredundant)
    (hy : y.On flags.isNews line) :
    PlainKnows h flags line y x ↔ SpacedPathsLead h flags line y x :=
  ThreadDag.knowsLate_iff_spaced (hI.dag h _) hy

theorem PersistedBy.imp (hk : ∀ y x, y.On flags.isNews line → knows line y x → knows' line y x)
    (hy : y.On NodeType.isReadWriteType line) (h : PersistedBy flags knows line y x) :
    PersistedBy flags knows' line y x := by
  obtain ⟨f, hf, hyf, hfx⟩ := h
  exact ⟨f, hf, hk y f hy.access_news hyf, hk f x hf.flush_news hfx⟩

theorem Dropped.imp
    (hk : ∀ line y x, y.On flags.isNews line → knows line y x → knows' line y x)
    (hb : Built it b edgeOrder o hbg pdg) (hc : Candidate hbg pdg r w d)
    (h : Dropped flags knows r w d) : Dropped flags knows' r w d := by
  have hr : (Node.instruction r).On NodeType.isReadWriteType r.getCachelineAddress := by
    refine ⟨?_, rfl⟩
    rw [(hb.isDependency hc.dependency).isRead]
    rfl
  have hw : (Node.instruction w).On NodeType.isReadWriteType r.getCachelineAddress := by
    refine ⟨?_, (hc.writesTo hb).2.2.1⟩
    rw [hc.isWrite]
    rfl
  obtain ⟨hi, hpersisted⟩ := h
  refine ⟨hi, hpersisted.imp (And.imp_right fun hp => ?_) fun hp => ?_⟩
  · exact hp.imp (hk _) hr
  · exact hp.imp (hk _) hw

theorem dropped_congr (hk : ∀ line y x, y.On flags.isNews line → (knows line y x ↔ knows' line y x))
    (hb : Built it b edgeOrder o hbg pdg) (hc : Candidate hbg pdg r w d) :
    Dropped flags knows r w d ↔ Dropped flags knows' r w d :=
  ⟨Dropped.imp (fun line y x hy => (hk line y x hy).mp) hb hc,
    Dropped.imp (fun line y x hy => (hk line y x hy).mpr) hb hc⟩

/-- Without redundant edges the one difference is between paths and spaced paths. -/
theorem spreadsAgree_iff_paths (hb : Built it b edgeOrder o hbg pdg) (hI : hbg.Irredundant) :
    SpreadsAgree hb.wf pdg flags (FastKnows hb.wf flags) (PlainKnows hb.wf flags) ↔ ∀ r w d,
      ¬ DroppedOnlyBy hb.wf pdg flags (PathsLead hb.wf flags) (SpacedPathsLead hb.wf flags)
        r w d := by
  have hfast : ∀ {r w d}, Open hb.wf pdg flags r w d →
    (Dropped flags (FastKnows hb.wf flags) r w d ↔
      Dropped flags (PathsLead hb.wf flags) r w d) := fun ho =>
    dropped_congr (fun _ _ _ hy => fastKnows_iff_pathsLead hb.wf hI hy) hb ho.1
  have hplain : ∀ {r w d}, Open hb.wf pdg flags r w d →
      (Dropped flags (PlainKnows hb.wf flags) r w d ↔
        Dropped flags (SpacedPathsLead hb.wf flags) r w d) := fun ho =>
    dropped_congr (fun _ _ _ hy => plainKnows_iff_spacedPathsLead hb.wf hI hy) hb ho.1
  have hspaced : ∀ {r w d}, Open hb.wf pdg flags r w d →
      Dropped flags (SpacedPathsLead hb.wf flags) r w d →
        Dropped flags (PathsLead hb.wf flags) r w d := fun ho =>
    Dropped.imp (fun _ _ _ _ hy => ⟨hy.point.1, hy.reach⟩) hb ho.1
  constructor
  · intro hagree r w d hd
    refine hd.kept ((hplain hd.isOpen).mp ?_)
    refine (hagree r w d hd.isOpen fun v hv => ?_).mp ((hfast hd.isOpen).mpr hd.dropped)
    have hboth := hd.undecided v hv
    exact ⟨(hfast hv.2.1).mpr hboth.1, (hplain hv.2.1).mpr hboth.2⟩
  · intro hnone r w d ho hboth
    rw [hfast ho, hplain ho]
    refine ⟨fun hd => ?_, hspaced ho⟩
    by_contra hk
    refine hnone r w d ⟨ho, fun v hv => ?_, hd, hk⟩
    exact ⟨(hfast hv.2.1).mp (hboth v hv).1, (hplain hv.2.1).mp (hboth v hv).2⟩

end Paths

/-- Two ways of dropping writes report the same triples exactly when they agree. -/
theorem race_iff_race_iff (hb : Built it b edgeOrder o hbg pdg) (knows knows' : Spread) :
    (∀ r w d, Race hb.wf pdg flags knows r w d ↔ Race hb.wf pdg flags knows' r w d) ↔
      SpreadsAgree hb.wf pdg flags knows knows' := by
  simp only [race_iff_open hb]
  constructor
  · intro hsame r w d hopen hbefore
    have hiff := hsame r w d
    rw [and_iff_right hopen, and_iff_right hopen, and_iff_left (fun v hv => (hbefore v hv).1),
      and_iff_left (fun v hv => (hbefore v hv).2)] at hiff
    exact not_iff_not.mp hiff
  · intro hagree r w d
    refine and_congr_right fun hopen => ?_
    constructor
    · rintro ⟨hno, hall⟩
      obtain ⟨hboth, hiff⟩ := hagree.dropped_iff w hopen (Or.inl hall)
      exact ⟨fun hd => hno (hiff.mpr hd), fun v hv => (hboth v hv).2⟩
    · rintro ⟨hno, hall⟩
      obtain ⟨hboth, hiff⟩ := hagree.dropped_iff w hopen (Or.inr hall)
      exact ⟨fun hd => hno (hiff.mp hd), fun v hv => (hboth v hv).1⟩

/-- The two versions of a run report the same triples exactly when neither sweep alone drops a write
that the earlier ones of its thread leave undecided. Without redundant edges this is so exactly when
every such write that paths show to be flushed is shown to be so by spaced paths. -/
theorem versions_agree_iff (hb : Built it b edgeOrder o hbg pdg)
    (ho : Orders hbg postorder reversePostorder) (flags : Flags) :
    ∃ races races', run hbg pdg flags postorder reversePostorder true = .ok races ∧
      run hbg pdg flags postorder reversePostorder false = .ok races' ∧
        ((∀ r w d, races.Reports r w d ↔ races'.Reports r w d) ↔ ∀ r w d,
          ¬ DroppedOnlyBy hb.wf pdg flags (FastKnows hb.wf flags) (PlainKnows hb.wf flags) r w d ∧
          ¬ DroppedOnlyBy hb.wf pdg flags (PlainKnows hb.wf flags) (FastKnows hb.wf flags) r w d) ∧
        (hbg.Irredundant → ((∀ r w d, races.Reports r w d ↔ races'.Reports r w d) ↔ ∀ r w d,
          ¬ DroppedOnlyBy hb.wf pdg flags (PathsLead hb.wf flags) (SpacedPathsLead hb.wf flags)
            r w d)) := by
  obtain ⟨races, hrun, hrep, -⟩ := run_fast_spec hb ho flags
  obtain ⟨races', hrun', hrep'⟩ := run_plain_spec hb ho flags
  refine ⟨races, races', hrun, hrun', ?_⟩
  simp only [hrep, hrep']
  rw [race_iff_race_iff hb]
  exact ⟨spreadsAgree_iff, spreadsAgree_iff_paths hb⟩

/-- Thread 1 receives news of the flush at its first epoch and writes to thread 0 at its second. -/
def pausedFlushTrace : HBGBuilder where
  nodes := [.instruction sampleWrite, .instruction sampleFlush, .epoch ⟨2, 1⟩, .epoch ⟨1, 1⟩,
    .epoch ⟨1, 2⟩, .epoch ⟨0, 1⟩, .instruction sampleRead, .instruction sampleDependent]
  edges := [(⟨2, 1⟩, ⟨1, 1⟩), (⟨1, 2⟩, ⟨0, 1⟩)]
  nextIdent := 4

def pausedFlushGraph : HBG :=
  (pausedFlushTrace.build noTrees pausedFlushTrace.edges .default).toOption.get (by rfl)

theorem pausedFlush_built :
    Built noTrees pausedFlushTrace pausedFlushTrace.edges .default pausedFlushGraph samplePdg where
  build := rfl
  edgeOrder := fun _ => Iff.rfl
  endpoints := by decide
  chains := rfl
  dag := rfl
  oneLine := by decide
  dependency := by decide

theorem pausedFlush_orders :
    Orders pausedFlushGraph pausedFlushTrace.nodes.reverse pausedFlushTrace.nodes :=
  orders_of_perm (by decide) (by decide) (by decide) (by decide)
    (by decide)

theorem pausedFlush_irredundant : pausedFlushGraph.Irredundant := by
  intro n c c' hc _ _ hlt
  have hfirst : ∀ e ∈ pausedFlushGraph.graph.edges, e.2.2 = .interThread →
      pausedFlushGraph.index e.2.1 = 0 := by decide
  rw [hfirst _ (HBG.WellFormed.mem_interChildren.mp hc) rfl] at hlt
  exact absurd hlt (Nat.not_lt_zero _)

theorem pausedFlush_lt {u v : Node} (hu : u ∈ pausedFlushGraph.nodes)
    (hv : v ∈ pausedFlushGraph.nodes) (ht : u.tid = v.tid)
    (hlt : pausedFlushGraph.index u < pausedFlushGraph.index v) :
    (pausedFlush_built.wf.dag false).Lt u v := ⟨hu, hv, ht, hlt⟩

theorem pausedFlush_dropped : Dropped .default (SpacedPathsLead pausedFlush_built.wf .default)
    sampleRead sampleWrite sampleDependent := by
  have hw : Node.instruction sampleWrite ∈ pausedFlushGraph.nodes := by decide
  have hf : Node.instruction sampleFlush ∈ pausedFlushGraph.nodes := by decide
  have hflush : (pausedFlush_built.wf.dag false).Spaced (.instruction sampleWrite)
      (.instruction sampleFlush) := by
    exact .later (.stay hw) (pausedFlush_lt hw hf rfl (by decide))
  have hrelay : (pausedFlush_built.wf.dag false).Spaced (.instruction sampleFlush)
      (.epoch ⟨1, 1⟩) := by
    refine .sent (m := .epoch ⟨2, 1⟩) (.stay hf) (pausedFlush_lt hf ?_ rfl ?_)
      (HBG.WellFormed.mem_interChildren.mpr ?_)
    all_goals decide
  have hsent : (pausedFlush_built.wf.dag false).Spaced (.instruction sampleFlush)
      (.epoch ⟨0, 1⟩) := by
    refine .sent (m := .epoch ⟨1, 2⟩) hrelay (pausedFlush_lt ?_ ?_ rfl ?_)
      (HBG.WellFormed.mem_interChildren.mpr ?_)
    all_goals decide
  have hdependent : (pausedFlush_built.wf.dag false).Spaced (.instruction sampleFlush)
      (.instruction sampleDependent) := by
    refine .later hsent (pausedFlush_lt ?_ ?_ rfl ?_)
    all_goals decide
  exact ⟨rfl, Or.inr ⟨_, by decide, hflush, hdependent⟩⟩

/-- Both versions drop the flushed write. -/
theorem versions_agree_iff_paused :
    ∃ races races', run pausedFlushGraph samplePdg .default pausedFlushTrace.nodes.reverse
        pausedFlushTrace.nodes true = .ok races ∧
      run pausedFlushGraph samplePdg .default pausedFlushTrace.nodes.reverse
        pausedFlushTrace.nodes false = .ok races' ∧
        ∀ r w d, races.Reports r w d ↔ races'.Reports r w d := by
  obtain ⟨races, races', hrun, hrun', -, hiff⟩ :=
    versions_agree_iff pausedFlush_built pausedFlush_orders .default
  refine ⟨races, races', hrun, hrun', (hiff pausedFlush_irredundant).mpr ?_⟩
  intro r w d hd
  have hc := hd.isOpen.1
  obtain ⟨hd', hr⟩ : d = sampleDependent ∧ r = sampleRead := by
    have hedge : ∀ e ∈ samplePdg.graph.edges, e.1 = sampleDependent ∧ e.2.1 = sampleRead := by
      decide
    obtain ⟨l, hl⟩ := hc.dependency
    exact hedge _ hl
  subst hd' hr
  have hwrite : ∀ n ∈ pausedFlushGraph.nodes, n.itype = .write →
      n = .instruction sampleWrite ∨ n = .instruction sampleDependent := by decide
  rcases hwrite _ hc.mem hc.isWrite with hw | hw
  · obtain rfl := Node.instruction.inj hw
    exact hd.kept pausedFlush_dropped
  · obtain rfl := Node.instruction.inj hw
    exact absurd hc.overlap (by decide)

/-- The flush is known to thread 1 only by the message it receives when it writes to thread 0. -/
def relayedFlushTrace : HBGBuilder where
  nodes := [.instruction sampleWrite, .instruction sampleFlush, .epoch ⟨2, 1⟩, .epoch ⟨1, 1⟩,
    .instruction sampleRead, .epoch ⟨0, 1⟩, .instruction sampleDependent]
  edges := [(⟨2, 1⟩, ⟨1, 1⟩), (⟨1, 1⟩, ⟨0, 1⟩)]
  nextIdent := 4

def relayedFlushGraph : HBG :=
  (relayedFlushTrace.build noTrees relayedFlushTrace.edges .default).toOption.get (by rfl)

/-- Only the plain version reports the write that was flushed. -/
theorem versions_disagree :
    Built noTrees relayedFlushTrace relayedFlushTrace.edges .default relayedFlushGraph
        samplePdg ∧
      Orders relayedFlushGraph relayedFlushTrace.nodes.reverse relayedFlushTrace.nodes ∧
      ∃ races races', run relayedFlushGraph samplePdg .default relayedFlushTrace.nodes.reverse
          relayedFlushTrace.nodes true = .ok races ∧
        run relayedFlushGraph samplePdg .default relayedFlushTrace.nodes.reverse
          relayedFlushTrace.nodes false = .ok races' ∧
        ¬ races.Reports sampleRead sampleWrite sampleDependent ∧
          races'.Reports sampleRead sampleWrite sampleDependent := by
  refine ⟨⟨rfl,
    fun _ => Iff.rfl, by decide, rfl, rfl, by decide, by decide⟩,
    orders_of_perm (by decide) (by decide) (by decide) (by decide)
      (by decide), _, _, rfl, rfl, ?_, ?_⟩
  · unfold PersistencyRaces.Reports
    decide
  · unfold PersistencyRaces.Reports
    decide

end Prd.Pycprd
