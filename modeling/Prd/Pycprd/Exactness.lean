import Prd.Pycprd.RunReports

/-!
# Graphs without redundant edges

An inter-thread edge is redundant when its source also reaches an earlier node of
the thread it leads to. Without such edges the fast sweep finds every path, so its
clocks are exact and its reports do not depend on the order of the children.
-/
namespace Prd.Pycprd

open Prd.Foundation Relation

/-- No edge leads to a node when its source reaches an earlier node of that thread. -/
def HBG.Irredundant (hbg : HBG) : Prop :=
  ∀ n c c', c ∈ hbg.getInterChildren n → c' ∈ hbg.nodes → c'.tid = c.tid →
    hbg.index c' < hbg.index c → ¬ hbg.graph.Reaches n c'

/-- The greatest index of a node of the thread with the property, if there is one. -/
def IsGreatestIndex (hbg : HBG) (t : ThreadId) (P : Node → Prop) (e : Epoch) : Prop :=
  (e = ⊥ ∧ ∀ y, P y → y.tid ≠ t) ∨
    ∃ y, P y ∧ y.tid = t ∧ e = Epoch.ofInt (hbg.index y) ∧
      ∀ z, P z → z.tid = t → hbg.index z ≤ hbg.index y

variable {it : IntervalTreeApi} {b : HBGBuilder} {edgeOrder : List (EpochNode × EpochNode)}
  {o : HBGBuilder.BuildOptions} {hbg : HBG} {pdg : PDG} {flags : Flags}
  {postorder reversePostorder : List Node}

theorem HBG.Irredundant.dag (hI : hbg.Irredundant) (h : hbg.WellFormed) (i : Bool) :
    (h.dag i).Irredundant := by
  intro n c c' hc hlt hr
  cases i with
  | true => cases hc
  | false => exact hI n c c' hc hlt.1 hlt.2.2.1 hlt.2.2.2 (h.reach_reaches hr)

/-- On an irredundant graph the fast sweep spreads news along all paths. -/
theorem fastKnows_iff (h : hbg.WellFormed) (hI : hbg.Irredundant) {line : Cacheline} {y x : Node}
    (hy : y ∈ hbg.nodes) (hn : y.On flags.isNews line) :
    FastKnows h flags line y x ↔ y = x ∨ (h.dag flags.ignoreInterThreadEdges).Reach y x := by
  unfold FastKnows
  rw [ThreadDag.knows_iff_reach (h.dag_acyclic _) (hI.dag h _) hy]
  exact and_iff_right hn

theorem isGreatestIndex_of_summarizes {clock : ThreadId → Epoch} {P Q : Node → Prop}
    (hs : Summarizes Node.tid hbg.stamp clock P) (hPQ : ∀ y, P y ↔ Q y) (t : ThreadId) :
    IsGreatestIndex hbg t Q (clock t) := by
  rcases (hs.congr hPQ).eq_bot_or_greatest (fun y _ => Epoch.bot_lt _) t with
    ⟨hb, hno⟩ | ⟨y, hy, ht, he, hmax⟩
  · exact Or.inl ⟨hb, hno⟩
  · exact Or.inr ⟨y, hy, ht, he, fun z hz hzt => Epoch.ofInt_le.mp (hmax z hz hzt)⟩

section Exact

variable (hb : Built it b edgeOrder o hbg pdg) (ho : Orders hbg postorder reversePostorder)
  (hI : hbg.Irredundant) (hi : flags.ignoreInterThreadEdges = false)

include hI hi in
theorem fastKnows_iff_reaches {line : Cacheline} {y x : Node} (hx : x ∈ hbg.nodes)
    (hy : y.On flags.isNews line) :
    FastKnows hb.wf flags line y x ↔ y = x ∨ hbg.graph.Reaches y x := by
  have hreach : (hb.wf.dag flags.ignoreInterThreadEdges).Reach y x ↔ hbg.graph.Reaches y x := by
    rw [hi, hb.wf.reaches_iff]
  rw [← hreach]
  constructor
  · intro h
    exact (fastKnows_iff hb.wf hI ((fastKnows_spreads hb.wf flags).point h).1 hy).mp h
  · intro h
    have hyn : y ∈ hbg.nodes := by
      rcases h with rfl | hr
      · exact hx
      · exact hr.point.1
    exact (fastKnows_iff hb.wf hI hyn hy).mpr h

theorem isFlush_iff (hfl : flags.ignoreFlushNodes = false) {f : Node} {line : Cacheline} :
    f.On flags.isFlush line ↔ f.On (· == .flush) line := by
  have hsame : flags.isFlush = (· == .flush) := by
    funext k
    simp [Flags.isFlush, hfl]
  rw [hsame]

/-- What both parts of a clock of the thread of `d` say at `d`, line by line. -/
structure ExactClock (hbg : HBG) (d : InstructionNode) (line : Cacheline)
    (pvc : PersistencyVectorClock) : Prop where
  seen : ∀ t, IsGreatestIndex hbg t (fun y => y.On NodeType.isReadWriteType line ∧
    (y = .instruction d ∨ hbg.graph.Reaches y (.instruction d))) (pvc.seen t)
  persisted : ∀ t, IsGreatestIndex hbg t (fun y => y.On NodeType.isReadWriteType line ∧
    ∃ f, f.On (· == .flush) line ∧ hbg.graph.Reaches y f ∧
      hbg.graph.Reaches f (.instruction d)) (pvc.persisted t)

include hb ho hI hi in
/-- The clocks are exact at the moment the fast sweep looks for races at a write. -/
theorem fast_clocks_exact (hfl : flags.ignoreFlushNodes = false) {pre post : List Node}
    {d : InstructionNode} (hsplit : reversePostorder = pre ++ .instruction d :: post)
    (hd : d.itype = .write) :
    ∃ vcs s s', buildHappensAfterVectorClocks hbg flags postorder = .ok vcs ∧
      persistedBeforeAnalysisFast hbg pdg flags vcs pre = .ok s ∧ s.access hbg d = .ok s' ∧
        ∀ line, ExactClock hbg d line (s'.found.pvc d.tid line) := by
  have hk := fastKnows_spreads hb.wf flags
  obtain ⟨vcs, hvcs, hsum⟩ := buildHappensAfterVectorClocks_spec hb.wf flags ho.postorder
  obtain ⟨s, hs, hinv⟩ := persistedBeforeAnalysisFast_spec hb.wf hb.input hsum ho.reversePostorder
    hsplit
  have hf := forward_of_split hb.wf flags.ignoreInterThreadEdges ho.reversePostorder hsplit
  have hacc : d.itype.isReadWriteType = true := by rw [hd]; rfl
  obtain ⟨s', hs', hc, -, -⟩ := access_spec hb.input hf hinv hacc
  have hdon : (Node.instruction d).On NodeType.isReadWriteType d.getCachelineAddress := ⟨hacc, rfl⟩
  have hknown : ∀ line y, KnownBy (FastKnows hb.wf flags) (pre ++ [.instruction d]) d.tid line y ↔
      FastKnows hb.wf flags line y (.instruction d) := fun line y => hf.knownBy_iff hk y
  refine ⟨vcs, s, s', hvcs, hs, hs', fun line => ⟨fun t => ?_, fun t => ?_⟩⟩
  · refine isGreatestIndex_of_summarizes (hc.shows d.tid line).seen (fun y => ?_) t
    refine and_congr_right fun hy => ?_
    rw [hknown, fastKnows_iff_reaches hb hI hi hf.mem hy.access_news]
  · refine isGreatestIndex_of_summarizes (hc.shows d.tid line).persisted (fun y => ?_) t
    refine and_congr_right fun hy => exists_congr fun f => ?_
    rw [hknown, ← isFlush_iff hfl]
    refine and_congr_right fun hff => ?_
    rw [fastKnows_iff_reaches hb hI hi hf.mem hff.flush_news]
    constructor
    · rintro ⟨hyf, rfl | hfd⟩
      · exact absurd hff hdon.not_flush
      · rw [fastKnows_iff_reaches hb hI hi ((hb.wf.mem_graph f).mp hfd.mem.1) hy.access_news] at hyf
        rcases hyf with rfl | hyf
        · exact absurd hff hy.not_flush
        · exact ⟨hyf, hfd⟩
    · rintro ⟨hyf, hfd⟩
      refine ⟨?_, Or.inr hfd⟩
      rw [fastKnows_iff_reaches hb hI hi ((hb.wf.mem_graph f).mp hfd.mem.1) hy.access_news]
      exact Or.inr hyf

include hb ho hI hi in
/-- A race is labelled by whether its write happens before its dependent write. -/
theorem fast_labels_exact :
    ∃ races, run hbg pdg flags postorder reversePostorder true = .ok races ∧
      ∀ x ∈ races.races, ∃ label, x.isWriteHbDependent = some label ∧ (label = true ↔
        hbg.graph.Reaches (.instruction x.writeNode) (.instruction x.dependentNode)) := by
  obtain ⟨races, hrun, hrep, hlab⟩ := run_fast_spec hb ho flags
  refine ⟨races, hrun, fun x hx => ?_⟩
  obtain ⟨label, hlabel, hiff⟩ := hlab x hx
  refine ⟨label, hlabel, hiff.trans ?_⟩
  have hrace := (hrep _ _ _).mp (List.mem_map_of_mem hx)
  have hdep := hb.isDependency (PDG.mem_getDependencies.mp hrace.1)
  have hw := hrace.2.2.1
  have hwon : (Node.instruction x.writeNode).On NodeType.isReadWriteType
      x.readNode.getCachelineAddress := ⟨by rw [hw.2.1]; rfl, hw.2.2.1⟩
  rw [fastKnows_iff_reaches hb hI hi hdep.dependentMem hwon.access_news]
  refine or_iff_right ?_
  intro heq
  apply hdep.line
  rw [← Node.instruction.inj heq]
  exact hw.2.2.1

include hb ho hI hi in
theorem fast_sweep_exact (hfl : flags.ignoreFlushNodes = false) :
    (∀ pre post d, reversePostorder = pre ++ .instruction d :: post → d.itype = .write →
      ∃ vcs s s', buildHappensAfterVectorClocks hbg flags postorder = .ok vcs ∧
        persistedBeforeAnalysisFast hbg pdg flags vcs pre = .ok s ∧ s.access hbg d = .ok s' ∧
          ∀ line, ExactClock hbg d line (s'.found.pvc d.tid line)) ∧
      ∃ races, run hbg pdg flags postorder reversePostorder true = .ok races ∧
        ∀ x ∈ races.races, ∃ label, x.isWriteHbDependent = some label ∧ (label = true ↔
          hbg.graph.Reaches (.instruction x.writeNode) (.instruction x.dependentNode)) :=
  ⟨fun _ _ _ hsplit hd => fast_clocks_exact hb ho hI hi hfl hsplit hd,
    fast_labels_exact hb ho hI hi⟩

theorem fork_irredundant : forkGraph.Irredundant := by
  intro n c c' hc _ _ hlt
  have hfirst : ∀ e ∈ forkGraph.graph.edges, e.2.2 = .interThread →
      forkGraph.index e.2.1 = 0 := by decide
  rw [hfirst _ (HBG.WellFormed.mem_interChildren.mp hc) rfl] at hlt
  exact absurd hlt (Nat.not_lt_zero _)

/-- At the dependent write the clocks know the first write of thread 2 and that it is flushed, and
nothing of the later one. -/
theorem fast_sweep_exact_fork :
    (∃ vcs s s', buildHappensAfterVectorClocks forkGraph .default forkTrace.nodes.reverse =
        .ok vcs ∧
      persistedBeforeAnalysisFast forkGraph samplePdg .default vcs
        (forkTrace.nodes.take 7) = .ok s ∧ s.access forkGraph sampleDependent = .ok s' ∧
          (∀ line, ExactClock forkGraph sampleDependent line (s'.found.pvc 0 line)) ∧
            (s'.found.pvc 0 64).seen 2 = Epoch.ofInt 0 ∧
              (s'.found.pvc 0 64).persisted 2 = Epoch.ofInt 0) ∧
      ∃ races, run forkGraph samplePdg .default forkTrace.nodes.reverse forkTrace.nodes true =
        .ok races ∧ ∀ x ∈ races.races, ∃ label, x.isWriteHbDependent = some label ∧ (label = true ↔
          forkGraph.graph.Reaches (.instruction x.writeNode) (.instruction x.dependentNode)) := by
  obtain ⟨hclocks, hlabels⟩ := fast_sweep_exact fork_built fork_orders fork_irredundant
    (rfl : Flags.default.ignoreInterThreadEdges = false) rfl
  obtain ⟨vcs, s, s', hvcs, hs, hs', hexact⟩ :=
    hclocks (forkTrace.nodes.take 7) [] sampleDependent rfl rfl
  obtain ⟨vcs₁, s₁, s₁', hvcs₁, hs₁, hs₁', hseen, hpersisted⟩ : ∃ vcs s s',
      buildHappensAfterVectorClocks forkGraph .default forkTrace.nodes.reverse = .ok vcs ∧
      persistedBeforeAnalysisFast forkGraph samplePdg .default vcs
        (forkTrace.nodes.take 7) = .ok s ∧ s.access forkGraph sampleDependent = .ok s' ∧
          (s'.found.pvc 0 64).seen 2 = Epoch.ofInt 0 ∧
            (s'.found.pvc 0 64).persisted 2 = Epoch.ofInt 0 :=
    ⟨_, _, _, rfl, rfl, rfl, by decide, by decide⟩
  obtain rfl := Except.ok.inj (hvcs.symm.trans hvcs₁)
  obtain rfl := Except.ok.inj (hs.symm.trans hs₁)
  obtain rfl := Except.ok.inj (hs'.symm.trans hs₁')
  exact ⟨⟨vcs, s, s', hvcs, hs, hs', hexact, hseen, hpersisted⟩, hlabels⟩

end Exact

section Orders

variable {b : HBGBuilder} {es es' : List (EpochNode × EpochNode)} {hbg' : HBG}

theorem Built.sameLinks (hb : Built it b es o hbg pdg) (hb' : Built it b es' o hbg' pdg)
    (i : Bool) : (hb.wf.dag i).SameLinks (hb'.wf.dag i) := by
  have hnodes := HBGBuilder.build_nodes_eq hb.build hb'.build
  have hindex : ∀ n, hbg.index n = hbg'.index n := by
    intro n
    unfold HBG.index
    rw [hnodes]
  have hpoint : ∀ a, a ∈ hbg.nodes → a ∈ hbg'.nodes := fun a ha => hnodes ▸ ha
  refine ⟨?_, hpoint, ?_⟩
  · rintro x y ⟨hx, hy, ht, hlt⟩
    refine ⟨hpoint x hx, hpoint y hy, ht, ?_⟩
    show hbg'.index x < hbg'.index y
    rw [← hindex, ← hindex]
    exact hlt
  · intro x y hk
    cases i with
    | true => cases hk
    | false =>
      have he := (HBGBuilder.build_edges hb.build x y .interThread).mp
        (HBG.WellFormed.mem_interChildren.mp hk)
      refine HBG.WellFormed.mem_interChildren.mpr
        ((HBGBuilder.build_edges hb'.build x y .interThread).mpr ?_)
      rcases he with ⟨-, e, hmem, hx, hy⟩ | ⟨hc, -⟩
      · exact Or.inl ⟨rfl, e, (hb'.edgeOrder e).mpr ((hb.edgeOrder e).mp hmem), hx, hy⟩
      · cases hc

/-- Redundancy does not depend on the order of the edges. -/
theorem Built.irredundant (hb : Built it b es o hbg pdg) (hb' : Built it b es' o hbg' pdg)
    (hI : hbg.Irredundant) : hbg'.Irredundant := by
  have hl := hb.sameLinks hb' false
  have hl' := hb'.sameLinks hb false
  intro n c c' hc hmem ht hlt hr
  have hcm : c ∈ hbg'.nodes := ((hb'.wf.dag false).kids_point hc).2
  have hlt' := hl'.lt c' c ⟨hmem, hcm, ht, hlt⟩
  refine hI n c c' (hl'.kids n c hc) hlt'.1 hlt'.2.2.1 hlt'.2.2.2 ?_
  exact hb.wf.reaches_iff.mpr (hl'.reach (hb'.wf.reaches_iff.mp hr))

theorem Built.fastKnows_imp (hb : Built it b es o hbg pdg) (hb' : Built it b es' o hbg' pdg)
    (hI : hbg.Irredundant) {line : Cacheline} {y x : Node} (hy : y.On flags.isNews line)
    (h : FastKnows hb.wf flags line y x) : FastKnows hb'.wf flags line y x := by
  have hyn := ((fastKnows_spreads hb.wf flags).point h).1
  have hl := hb.sameLinks hb' flags.ignoreInterThreadEdges
  rw [fastKnows_iff hb.wf hI hyn hy] at h
  rw [fastKnows_iff hb'.wf (hb.irredundant hb' hI) (hl.point y hyn) hy]
  exact h.imp_right hl.reach

theorem Built.persistedBy_imp (hb : Built it b es o hbg pdg) (hb' : Built it b es' o hbg' pdg)
    (hI : hbg.Irredundant) {line : Cacheline} {y x : Node}
    (hy : y.On NodeType.isReadWriteType line)
    (h : PersistedBy flags (FastKnows hb.wf flags) line y x) :
    PersistedBy flags (FastKnows hb'.wf flags) line y x := by
  obtain ⟨f, hf, hyf, hfx⟩ := h
  exact ⟨f, hf, hb.fastKnows_imp hb' hI hy.access_news hyf,
    hb.fastKnows_imp hb' hI hf.flush_news hfx⟩

theorem Built.race_iff (hb : Built it b es o hbg pdg) (hb' : Built it b es' o hbg' pdg)
    (hI : hbg.Irredundant) (r w d : InstructionNode) :
    Race hb.wf pdg flags (FastKnows hb.wf flags) r w d ↔
      Race hb'.wf pdg flags (FastKnows hb'.wf flags) r w d := by
  have hI' := hb.irredundant hb' hI
  have hl := hb.sameLinks hb' flags.ignoreInterThreadEdges
  have hl' := hb'.sameLinks hb flags.ignoreInterThreadEdges
  have hnodes := HBGBuilder.build_nodes_eq hb.build hb'.build
  -- the nodes of a race are the same in both graphs
  have hsame : ∀ P A, RaceWith hbg pdg flags P A r w d ↔ RaceWith hbg' pdg flags P A r w d := by
    intro P A
    unfold RaceWith Reported WritesTo earlier HBG.index
    rw [hnodes]
  have hpers : ∀ v : InstructionNode, v.itype.isReadWriteType = true →
      v.getCachelineAddress = r.getCachelineAddress →
      (PersistedBy flags (FastKnows hb.wf flags) r.getCachelineAddress (.instruction v)
        (.instruction d) ↔ PersistedBy flags (FastKnows hb'.wf flags) r.getCachelineAddress
          (.instruction v) (.instruction d)) := by
    intro v hv hline
    exact ⟨hb.persistedBy_imp hb' hI ⟨hv, hline⟩, hb'.persistedBy_imp hb hI' ⟨hv, hline⟩⟩
  unfold Race
  rw [hsame]
  refine RaceWith.congr (fun hdep => ?_) (fun _ v hv => ⟨?_, ⟨hl.ahead, hl'.ahead⟩⟩)
  · have hr := (hb.isDependency (PDG.mem_getDependencies.mp hdep)).isRead
    exact hpers r (by rw [hr]; rfl) rfl
  · exact hpers v (by rw [hv.2.1]; rfl) hv.2.2.1

end Orders

end Prd.Pycprd
