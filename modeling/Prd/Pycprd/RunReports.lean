import Prd.Pycprd.FastSweep
import Prd.Pycprd.PlainSweep

/-!
# What a run of the detector reports

Both versions of a run succeed on a built graph and report the triples of `Race`
for the spreading of their sweep. A triple of the graph definition of a race is
always among them. The converse needs the sweeps to find every path that matters.
-/
namespace Prd.Pycprd

open Prd.Foundation Relation

/-- A dependency of a write on a read of its thread, on another line. -/
structure IsDependency (hbg : HBG) (d r : InstructionNode) : Prop where
  dependentMem : Node.instruction d ∈ hbg.nodes
  readMem : Node.instruction r ∈ hbg.nodes
  isWrite : d.itype = .write
  isRead : r.itype = .read
  tid : d.tid = r.tid
  line : d.getCachelineAddress ≠ r.getCachelineAddress

instance (hbg : HBG) (d r : InstructionNode) : Decidable (IsDependency hbg d r) :=
  decidable_of_iff (Node.instruction d ∈ hbg.nodes ∧ Node.instruction r ∈ hbg.nodes ∧
      d.itype = .write ∧ r.itype = .read ∧ d.tid = r.tid ∧
      d.getCachelineAddress ≠ r.getCachelineAddress)
    ⟨fun ⟨hd, hr, hw, hi, ht, hl⟩ => ⟨hd, hr, hw, hi, ht, hl⟩,
      fun ⟨hd, hr, hw, hi, ht, hl⟩ => ⟨hd, hr, hw, hi, ht, hl⟩⟩

/-- A built graph and a dependency graph on its nodes, as the detector expects them. -/
structure Built (it : IntervalTreeApi) (b : HBGBuilder) (edgeOrder : List (EpochNode × EpochNode))
    (o : HBGBuilder.BuildOptions) (hbg : HBG) (pdg : PDG) : Prop where
  build : b.build it edgeOrder o = .ok hbg
  edgeOrder : ∀ e, e ∈ edgeOrder ↔ e ∈ b.edges
  endpoints : b.EndpointsAdded
  chains : o.makeDaisyChains = true
  dag : o.assertDag = true
  oneLine : ∀ n ∈ hbg.nodes, n.InOneLine
  dependency : ∀ e ∈ pdg.graph.edges, IsDependency hbg e.1 e.2.1

/-- The orders that the graph library yields for the two sweeps. -/
structure Orders (hbg : HBG) (postorder reversePostorder : List Node) : Prop where
  postorder : hbg.graph.IsTopological postorder.reverse
  reversePostorder : hbg.graph.IsTopological reversePostorder

/-- The check of `Orders` on the lists. -/
theorem orders_of_perm {hbg : HBG} {postorder reversePostorder : List Node}
    (hp : postorder.reverse.Perm hbg.graph.nodes) (hr : reversePostorder.Perm hbg.graph.nodes)
    (hnd : hbg.graph.nodes.Nodup) (hps : hbg.graph.SourcesFirst [] postorder.reverse)
    (hrs : hbg.graph.SourcesFirst [] reversePostorder) : Orders hbg postorder reversePostorder where
  postorder := ⟨hp.nodup_iff.mpr hnd, fun _ => hp.mem_iff, hps⟩
  reversePostorder := ⟨hr.nodup_iff.mpr hnd, fun _ => hr.mem_iff, hrs⟩

section Samples

/-- The filter is not used in the samples. -/
def noTrees : IntervalTreeApi where
  Tree := Unit
  empty := ()
  addi := fun tree _ _ => pure tree
  mergeOverlaps := id
  envelop := fun _ _ _ => []
  overlapsRange := fun _ _ _ => false

/-- An eight-byte access or flush at the start of a line. -/
def sampleNode (ident : ℕ) (itype : NodeType) (h : itype.isInstructionType = true)
    (tid line : ℕ) : InstructionNode :=
  ⟨ident, itype, tid, 0, 64 * line, 8, false, false, .none, none, none, h, word_ne_zero⟩

def sampleRead : InstructionNode := sampleNode 0 .read NodeType.isInstructionType_read 0 1

def sampleWrite : InstructionNode := sampleNode 1 .write NodeType.isInstructionType_write 2 1

def sampleDependent : InstructionNode := sampleNode 2 .write NodeType.isInstructionType_write 0 2

def sampleFlush : InstructionNode := sampleNode 3 .flush NodeType.isInstructionType_flush 2 1

def samplePdg : PDG := ⟨Digraph.empty.addEdge sampleDependent sampleRead (), by rfl⟩

/-- Thread 1 receives from thread 0 and writes to thread 2 at one epoch. -/
def relayTrace : HBGBuilder where
  nodes := [.instruction sampleRead, .epoch ⟨0, 1⟩, .instruction sampleDependent, .epoch ⟨1, 1⟩,
    .epoch ⟨2, 1⟩, .instruction sampleWrite]
  edges := [(⟨0, 1⟩, ⟨1, 1⟩), (⟨1, 1⟩, ⟨2, 1⟩)]
  nextIdent := 3

def relayGraph : HBG :=
  (relayTrace.build noTrees relayTrace.edges .default).toOption.get (by rfl)

theorem relay_built :
    Built noTrees relayTrace relayTrace.edges .default relayGraph samplePdg where
  build := rfl
  edgeOrder := fun _ => Iff.rfl
  endpoints := by decide
  chains := rfl
  dag := rfl
  oneLine := by decide
  dependency := by decide

theorem relay_orders : Orders relayGraph relayTrace.nodes.reverse relayTrace.nodes :=
  orders_of_perm (by decide) (by decide) (by decide) (by decide)
    (by decide)

/-- The threads of the trace do not synchronize. -/
def freeTrace : HBGBuilder := { relayTrace with edges := [] }

def freeGraph : HBG :=
  (freeTrace.build noTrees freeTrace.edges .default).toOption.get (by rfl)

theorem free_built :
    Built noTrees freeTrace freeTrace.edges .default freeGraph samplePdg where
  build := rfl
  edgeOrder := fun _ => Iff.rfl
  endpoints := by decide
  chains := rfl
  dag := rfl
  oneLine := by decide
  dependency := by decide

theorem free_orders : Orders freeGraph freeTrace.nodes.reverse freeTrace.nodes :=
  orders_of_perm (by decide) (by decide) (by decide) (by decide)
    (by decide)

/-- A write that comes after the flush of the line. -/
def sampleLateWrite : InstructionNode := sampleNode 4 .write NodeType.isInstructionType_write 2 1

/-- Thread 2 writes, flushes and synchronizes with both other threads before it writes again. -/
def forkTrace : HBGBuilder where
  nodes := [.instruction sampleWrite, .instruction sampleFlush, .epoch ⟨2, 1⟩,
    .instruction sampleLateWrite, .epoch ⟨0, 1⟩, .instruction sampleRead, .epoch ⟨1, 1⟩,
    .instruction sampleDependent]
  edges := [(⟨2, 1⟩, ⟨0, 1⟩), (⟨2, 1⟩, ⟨1, 1⟩)]
  nextIdent := 5

def forkGraph : HBG :=
  (forkTrace.build noTrees forkTrace.edges .default).toOption.get (by rfl)

theorem fork_built :
    Built noTrees forkTrace forkTrace.edges .default forkGraph samplePdg where
  build := rfl
  edgeOrder := fun _ => Iff.rfl
  endpoints := by decide
  chains := rfl
  dag := rfl
  oneLine := by decide
  dependency := by decide

theorem fork_orders : Orders forkGraph forkTrace.nodes.reverse forkTrace.nodes :=
  orders_of_perm (by decide) (by decide) (by decide) (by decide)
    (by decide)

/-- The nodes of the trace come in the order of the paths. -/
theorem fork_idxOf_lt {u v : Node} (h : forkGraph.graph.Reaches u v) :
    forkTrace.nodes.idxOf u < forkTrace.nodes.idxOf v := by
  have hedge : ∀ e ∈ forkGraph.graph.edges,
      forkTrace.nodes.idxOf e.1 < forkTrace.nodes.idxOf e.2.1 := by decide
  induction h with
  | single h => exact h.elim fun l hl => hedge _ hl
  | tail _ h ih => exact ih.trans (h.elim fun l hl => hedge _ hl)

end Samples

variable {it : IntervalTreeApi} {b : HBGBuilder} {edgeOrder : List (EpochNode × EpochNode)}
  {o : HBGBuilder.BuildOptions} {hbg : HBG} {pdg : PDG} {postorder reversePostorder : List Node}

theorem Built.wf (hb : Built it b edgeOrder o hbg pdg) : hbg.WellFormed :=
  HBGBuilder.build_wellFormed hb.build hb.edgeOrder hb.endpoints hb.dag

theorem Built.isDependency (hb : Built it b edgeOrder o hbg pdg) {d r : InstructionNode}
    (he : pdg.graph.HasEdge d r) : IsDependency hbg d r := by
  obtain ⟨l, hl⟩ := he
  exact hb.dependency _ hl

theorem Built.input (hb : Built it b edgeOrder o hbg pdg) : Input hbg pdg where
  wf := hb.wf
  chains := HBGBuilder.build_daisyChains hb.build hb.chains
  oneLine := fun _ hn => hb.oneLine _ hn
  dependency := by
    intro d r hdep
    have hd := hb.isDependency (PDG.mem_getDependencies.mp hdep)
    exact ⟨hd.dependentMem, hd.readMem, hd.isWrite, hd.isRead, hd.tid, hd.line⟩

/-- A run of the fast version reports the races of its spreading, with their labels. -/
theorem run_fast_spec (hb : Built it b edgeOrder o hbg pdg)
    (ho : Orders hbg postorder reversePostorder) (flags : Flags) :
    ∃ races, run hbg pdg flags postorder reversePostorder true = .ok races ∧
      (∀ r w d, races.Reports r w d ↔ Race hb.wf pdg flags (FastKnows hb.wf flags) r w d) ∧
      ∀ x ∈ races.races, ∃ label, x.isWriteHbDependent = some label ∧ (label = true ↔
        FastKnows hb.wf flags x.readNode.getCachelineAddress (.instruction x.writeNode)
          (.instruction x.dependentNode)) := by
  obtain ⟨vcs, hvcs, hsum⟩ := buildHappensAfterVectorClocks_spec hb.wf flags ho.postorder
  obtain ⟨s, hs, hI⟩ := persistedBeforeAnalysisFast_spec hb.wf hb.input hsum ho.reversePostorder
    (List.append_nil _).symm
  refine ⟨s.found.races, ?_, fun r w d => ?_, hI.verdicts.labels⟩
  · unfold run
    simp only [hvcs, hs, ok_bind, if_true]
    rfl
  · rw [hI.verdicts.reports]
    refine and_iff_right_of_imp fun hrace => ?_
    rw [ho.reversePostorder.mem_iff, hb.wf.mem_graph]
    exact (hb.input.dependency d r hrace.1).1

/-- A run of the plain version reports the races of its spreading. -/
theorem run_plain_spec (hb : Built it b edgeOrder o hbg pdg)
    (ho : Orders hbg postorder reversePostorder) (flags : Flags) :
    ∃ races, run hbg pdg flags postorder reversePostorder false = .ok races ∧
      ∀ r w d, races.Reports r w d ↔ Race hb.wf pdg flags (PlainKnows hb.wf flags) r w d := by
  obtain ⟨vcs, hvcs, hsum⟩ := buildHappensAfterVectorClocks_spec hb.wf flags ho.postorder
  obtain ⟨s, hs, hI⟩ := persistedBeforeAnalysis_spec hb.wf hb.input hsum ho.reversePostorder
    (List.append_nil _).symm
  refine ⟨s.found.races, ?_, fun r w d => ?_⟩
  · unfold run
    simp only [hvcs, hs, ok_bind, Bool.false_eq_true, if_false]
    rfl
  · rw [hI.verdicts.reports]
    refine and_iff_right_of_imp fun hrace => ?_
    rw [ho.reversePostorder.mem_iff, hb.wf.mem_graph]
    exact (hb.input.dependency d r hrace.1).1

/-- A dependency of the second node on the first and a write that may race with it. -/
structure Candidate (hbg : HBG) (pdg : PDG) (r w d : InstructionNode) : Prop where
  dependency : pdg.graph.HasEdge d r
  mem : Node.instruction w ∈ hbg.nodes
  isWrite : w.itype = .write
  temporal : w.isNonTemporal = false
  overlap : w.isIntervalOverlap r = true

/-- A flush of the line is on a path between the two nodes. -/
def FlushedBetween (hbg : HBG) (line : Cacheline) (y x : InstructionNode) : Prop :=
  ∃ f, f.itype = .flush ∧ f.getCachelineAddress = line ∧
    hbg.graph.Reaches (.instruction y) (.instruction f) ∧
      hbg.graph.Reaches (.instruction f) (.instruction x)

/-- The graph definition of a persistency race. -/
structure IsRace (hbg : HBG) (r w d : InstructionNode) : Prop where
  overlap : w.isIntervalOverlap r = true
  notAfter : ¬ hbg.graph.Reaches (.instruction r) (.instruction w)
  readUnflushed : ¬ FlushedBetween hbg r.getCachelineAddress r d
  writeUnflushed : ¬ FlushedBetween hbg r.getCachelineAddress w d

theorem Candidate.writesTo (hb : Built it b edgeOrder o hbg pdg) {r w d : InstructionNode}
    (hc : Candidate hbg pdg r w d) : WritesTo hbg r.getCachelineAddress w.tid w := by
  refine ⟨hc.mem, hc.isWrite, ?_, rfl⟩
  have hr := (hb.isDependency hc.dependency).readMem
  exact InstructionNode.line_eq_of_overlap (hb.oneLine _ hc.mem) (hb.oneLine _ hr) hc.overlap

/-- Under the default flags a candidate is reported unless one of the checks drops it. -/
theorem race_default_iff (hb : Built it b edgeOrder o hbg pdg) {knows : Spread}
    {r w d : InstructionNode} :
    Race hb.wf pdg .default knows r w d ↔ Candidate hbg pdg r w d ∧
      ¬ PersistedBy .default knows r.getCachelineAddress (.instruction r) (.instruction d) ∧
      ¬ PersistedBy .default knows r.getCachelineAddress (.instruction w) (.instruction d) ∧
      ¬ (hb.wf.dag false).Ahead (.instruction r) (.instruction w) := by
  constructor
  · rintro ⟨hdep, hr, hw, ⟨hnt, ho, hp, ha⟩, -⟩
    refine ⟨⟨PDG.mem_getDependencies.mp hdep, hw.1, hw.2.1, hnt, ho⟩, ?_, ?_, ?_⟩
    · exact fun hc => hr ⟨⟨rfl, rfl⟩, hc⟩
    · exact fun hc => hp ⟨rfl, hc⟩
    · exact fun hc => ha ⟨rfl, hc⟩
  · rintro ⟨hc, hr, hw, ha⟩
    refine ⟨PDG.mem_getDependencies.mpr hc.dependency, fun h => hr h.2, hc.writesTo hb,
      ⟨hc.temporal, hc.overlap, fun h => hw h.2, fun h => ha h.2⟩, fun hf => ?_⟩
    cases hf

theorem flushedBetween_of_persistedBy (hb : Built it b edgeOrder o hbg pdg) {knows : Spread}
    (hk : Spreads hb.wf .default knows) {line : Cacheline} {y x : InstructionNode}
    (hy : y.itype ≠ .flush) (hx : x.itype ≠ .flush)
    (h : PersistedBy .default knows line (.instruction y) (.instruction x)) :
    FlushedBetween hbg line y x := by
  obtain ⟨f, hf, hyf, hfx⟩ := h
  cases f with
  | epoch _ => exact absurd hf id
  | instruction f =>
    have hfi : f.itype = .flush := by
      have hflush := hf.1
      unfold Flags.isFlush at hflush
      simpa using (Bool.and_eq_true_iff.mp hflush).1
    refine ⟨f, hfi, hf.2, ?_, ?_⟩
    · rcases reflTransGen_iff_eq_or_transGen.mp (hk.reach hyf) with he | hr
      · cases he
        exact absurd hfi hy
      · exact hb.wf.reaches_iff.mpr hr
    · rcases reflTransGen_iff_eq_or_transGen.mp (hk.reach hfx) with he | hr
      · cases he
        exact absurd hfi hx
      · exact hb.wf.reaches_iff.mpr hr

theorem Candidate.not_flush (hb : Built it b edgeOrder o hbg pdg) {r w d : InstructionNode}
    (hc : Candidate hbg pdg r w d) : r.itype ≠ .flush ∧ w.itype ≠ .flush ∧ d.itype ≠ .flush := by
  have hd := hb.isDependency hc.dependency
  refine ⟨?_, ?_, ?_⟩
  · rw [hd.isRead]; exact NodeType.noConfusion
  · rw [hc.isWrite]; exact NodeType.noConfusion
  · rw [hd.isWrite]; exact NodeType.noConfusion

/-- No race is missed. -/
theorem run_reports_every_race (hb : Built it b edgeOrder o hbg pdg)
    (ho : Orders hbg postorder reversePostorder) :
    ∃ races, run hbg pdg .default postorder reversePostorder true = .ok races ∧
      ∀ r w d, Candidate hbg pdg r w d → IsRace hbg r w d → races.Reports r w d := by
  obtain ⟨races, hrun, hrep, -⟩ := run_fast_spec hb ho .default
  refine ⟨races, hrun, fun r w d hc hrace => ?_⟩
  have hk := fastKnows_spreads hb.wf .default
  obtain ⟨hr, hw, hd⟩ := hc.not_flush hb
  rw [hrep, race_default_iff hb]
  refine ⟨hc, ?_, ?_, ?_⟩
  · exact fun h => hrace.readUnflushed (flushedBetween_of_persistedBy hb hk hr hd h)
  · exact fun h => hrace.writeUnflushed (flushedBetween_of_persistedBy hb hk hw hd h)
  · exact fun h => hrace.notAfter (hb.wf.reaches_iff.mpr h.reach)

theorem run_reports_every_race_free :
    ∃ races, run freeGraph samplePdg .default freeTrace.nodes.reverse freeTrace.nodes true =
      .ok races ∧ races.Reports sampleRead sampleWrite sampleDependent := by
  obtain ⟨races, hrun, hall⟩ := run_reports_every_race free_built free_orders
  have hedge : ∀ e ∈ freeGraph.graph.edges, e.1.tid = e.2.1.tid := by decide
  have htid : ∀ {u v}, freeGraph.graph.Reaches u v → u.tid = v.tid := by
    intro u v hr
    induction hr with
    | single h => exact h.elim fun l hl => hedge _ hl
    | tail _ h ih => exact ih.trans (h.elim fun l hl => hedge _ hl)
  have hflush : ∀ n ∈ freeGraph.graph.nodes, n.itype ≠ .flush := by decide
  have hnone : ∀ line y x, ¬ FlushedBetween freeGraph line y x := by
    rintro line y x ⟨f, hf, -, hyf, -⟩
    exact hflush _ hyf.mem.2 hf
  have hcand : Candidate freeGraph samplePdg sampleRead sampleWrite sampleDependent :=
    ⟨⟨(), by decide⟩, by decide, rfl, rfl, rfl⟩
  refine ⟨races, hrun, hall _ _ _ hcand ⟨rfl, ?_, hnone _ _ _, hnone _ _ _⟩⟩
  intro hr
  exact absurd (htid hr) (by decide)

/-- Whenever the graph shows that a candidate is no race, the sweeps find that out: a path from
the read to the write without two inter-thread edges in a row that starts and ends inside its
threads, or news of one of the two that is spread to a flush and on to the dependent write. -/
def SweepsFindPaths (h : hbg.WellFormed) (pdg : PDG) : Prop :=
  ∀ r w d, Candidate hbg pdg r w d → ¬ IsRace hbg r w d →
    (h.dag false).Ahead (.instruction r) (.instruction w) ∨
      ∃ y, (y = r ∨ y = w) ∧ PersistedBy .default (FastKnows h .default) r.getCachelineAddress
        (.instruction y) (.instruction d)

/-- Every reported race is a race of the graph exactly when the sweeps find the paths. -/
theorem run_reports_only_races_iff (hb : Built it b edgeOrder o hbg pdg)
    (ho : Orders hbg postorder reversePostorder) :
    ∃ races, run hbg pdg .default postorder reversePostorder true = .ok races ∧
      ((∀ r w d, races.Reports r w d → IsRace hbg r w d) ↔ SweepsFindPaths hb.wf pdg) := by
  obtain ⟨races, hrun, hrep, -⟩ := run_fast_spec hb ho .default
  refine ⟨races, hrun, ?_⟩
  constructor
  · intro hall r w d hc hno
    by_contra hfind
    push Not at hfind
    refine hno (hall r w d ((hrep r w d).mpr ((race_default_iff hb).mpr ⟨hc, ?_, ?_, hfind.1⟩)))
    · exact hfind.2 r (Or.inl rfl)
    · exact hfind.2 w (Or.inr rfl)
  · intro hfind r w d hr
    obtain ⟨hc, hpr, hpw, hna⟩ := (race_default_iff hb).mp ((hrep r w d).mp hr)
    by_contra hno
    rcases hfind r w d hc hno with ha | ⟨y, rfl | rfl, hy⟩
    · exact hna ha
    · exact hpr hy
    · exact hpw hy

theorem fork_run :
    ∃ races, run forkGraph samplePdg .default forkTrace.nodes.reverse forkTrace.nodes true =
      .ok races ∧
        races.races.map PersistencyRace.triple = [(sampleRead, sampleLateWrite, sampleDependent)] :=
  ⟨_, rfl, by decide⟩

/-- The flush comes before the read and before the later write. -/
theorem fork_unflushed {y x : InstructionNode} (hy : y = sampleRead ∨ y = sampleLateWrite)
    (line : Cacheline) : ¬ FlushedBetween forkGraph line y x := by
  have hflush : ∀ n ∈ forkGraph.graph.nodes, n.itype = .flush → n = .instruction sampleFlush := by
    decide
  rintro ⟨f, hf, -, hyf, -⟩
  have hlt := fork_idxOf_lt hyf
  rw [hflush _ hyf.mem.2 hf] at hlt
  rcases hy with rfl | rfl
  · exact absurd hlt (by decide)
  · exact absurd hlt (by decide)

theorem fork_isRace : IsRace forkGraph sampleRead sampleLateWrite sampleDependent where
  overlap := rfl
  notAfter := fun hr => absurd (fork_idxOf_lt hr) (by decide)
  readUnflushed := fork_unflushed (Or.inl rfl) _
  writeUnflushed := fork_unflushed (Or.inr rfl) _

/-- The write before the flush is dropped, and the one after it is a race. -/
theorem run_reports_only_races_iff_fork :
    ∃ races, run forkGraph samplePdg .default forkTrace.nodes.reverse forkTrace.nodes true =
      .ok races ∧ races.Reports sampleRead sampleLateWrite sampleDependent ∧
        ¬ races.Reports sampleRead sampleWrite sampleDependent ∧
          SweepsFindPaths fork_built.wf samplePdg := by
  obtain ⟨races, hrun, hiff⟩ := run_reports_only_races_iff fork_built fork_orders
  obtain ⟨races', hrun', htriples⟩ := fork_run
  obtain rfl := Except.ok.inj (hrun.symm.trans hrun')
  refine ⟨races, hrun, ?_⟩
  unfold PersistencyRaces.Reports at hiff ⊢
  simp only [htriples, List.mem_singleton, Prod.mk.injEq] at hiff ⊢
  refine ⟨trivial, by decide, hiff.mp ?_⟩
  rintro r w d ⟨rfl, rfl, rfl⟩
  exact fork_isRace

/-- The read leads to the write by way of thread 1. -/
theorem relay_reaches :
    relayGraph.graph.Reaches (.instruction sampleRead) (.instruction sampleWrite) := by
  have h₁ : relayGraph.graph.HasEdge (.instruction sampleRead) (.epoch ⟨0, 1⟩) :=
    ⟨.intraThread, by decide⟩
  have h₂ : relayGraph.graph.HasEdge (.epoch ⟨0, 1⟩) (.epoch ⟨1, 1⟩) :=
    ⟨.interThread, by decide⟩
  have h₃ : relayGraph.graph.HasEdge (.epoch ⟨1, 1⟩) (.epoch ⟨2, 1⟩) :=
    ⟨.interThread, by decide⟩
  have h₄ : relayGraph.graph.HasEdge (.epoch ⟨2, 1⟩) (.instruction sampleWrite) :=
    ⟨.intraThread, by decide⟩
  exact (((TransGen.single h₁).tail h₂).tail h₃).tail h₄

/-- The write comes after the read by way of thread 1, and is reported all the same. -/
theorem relayed_write_reported :
    Built noTrees relayTrace relayTrace.edges .default relayGraph samplePdg ∧
      Orders relayGraph relayTrace.nodes.reverse relayTrace.nodes ∧
      ∃ races, run relayGraph samplePdg .default relayTrace.nodes.reverse relayTrace.nodes true =
        .ok races ∧ races.Reports sampleRead sampleWrite sampleDependent ∧
          relayGraph.graph.Reaches (.instruction sampleRead) (.instruction sampleWrite) ∧
            ¬ IsRace relayGraph sampleRead sampleWrite sampleDependent := by
  refine ⟨relay_built, relay_orders, _, rfl, ?_, relay_reaches,
    fun h => h.notAfter relay_reaches⟩
  unfold PersistencyRaces.Reports
  decide

end Prd.Pycprd
