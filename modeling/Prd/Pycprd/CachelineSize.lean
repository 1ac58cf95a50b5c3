import Prd.Pycprd.RunReports

/-!
# The cache-line size of a trace

The builder takes the size of the flushes for the size of a line, and the checks of
the graph use it. The sweeps name lines with the default size. A flush of more than
64 bytes is refused, and one of fewer bytes persists what its thread knows of the
whole 64-byte line.
-/
namespace Prd.Pycprd

open Prd.Foundation Relation

variable {it : IntervalTreeApi} {b : HBGBuilder} {es : List (EpochNode × EpochNode)}
  {o : HBGBuilder.BuildOptions} {hbg : HBG} {pdg : PDG} {postorder reversePostorder : List Node}

/-- A built graph whose flushes have the size of its lines, at addresses of lines, and
dependencies of its writes on reads of their threads. -/
structure Sized (it : IntervalTreeApi) (b : HBGBuilder) (edgeOrder : List (EpochNode × EpochNode))
    (o : HBGBuilder.BuildOptions) (hbg : HBG) (pdg : PDG) : Prop where
  build : b.build it edgeOrder o = .ok hbg
  edgeOrder : ∀ e, e ∈ edgeOrder ↔ e ∈ b.edges
  endpoints : b.EndpointsAdded
  chains : o.makeDaisyChains = true
  dag : o.assertDag = true
  size : ∃ k, hbg.cachelineSize = 2 ^ k
  flush : ∀ f, Node.instruction f ∈ hbg.nodes → f.itype = .flush →
    f.size = hbg.cachelineSize ∧ hbg.cachelineSize ∣ f.address
  inSpace : ∀ n, Node.instruction n ∈ hbg.nodes → n.address + n.size ≤ 2 ^ 64
  dependency : ∀ d r, r ∈ pdg.getDependencies d → Node.instruction d ∈ hbg.nodes ∧
    Node.instruction r ∈ hbg.nodes ∧ d.itype = .write ∧ r.itype = .read ∧ d.tid = r.tid

/-- The clock that the flush leaves for its line says that the access is persisted. Clocks of
other lines are as before. -/
def TreatsAsPersisted (hbg : HBG) (s : Findings) (f a : InstructionNode) : Prop :=
  f.getCachelineAddress = a.getCachelineAddress ∧
    ∃ loc, hbg.getNodeLocation (.instruction a) = .ok loc ∧
      (((flushLine s f).pvcPerThread.clock f.tid f.tid f.getCachelineAddress).isEventPersisted
        loc.tid (Epoch.ofInt loc.tindex)).1 = true

/-- A run succeeds, and every flush that it meets persists the accesses inside its interval that
happen before it and no other. -/
structure HonoursSize (hbg : HBG) (pdg : PDG) (postorder reversePostorder : List Node) : Prop where
  completes : ∃ races, run hbg pdg .default postorder reversePostorder true = .ok races
  persists : ∀ vcs pre f post s, buildHappensAfterVectorClocks hbg .default postorder = .ok vcs →
    reversePostorder = pre ++ Node.instruction f :: post → f.itype = .flush →
    persistedBeforeAnalysisFast hbg pdg .default vcs pre = .ok s →
    ∀ a, Node.instruction a ∈ hbg.nodes → a.itype.isReadWriteType = true →
      (TreatsAsPersisted hbg s.found f a ↔
        f.isIntervalContains a = true ∧ hbg.graph.Reaches (.instruction a) (.instruction f))

/-- Accesses of the 64-byte line of a flush whose news comes to it lie inside its interval, and
the news of those inside that happen before it does come to it. -/
structure FlushesFit (h : hbg.WellFormed) : Prop where
  inside : ∀ f a, Node.instruction f ∈ hbg.nodes → f.itype = .flush →
    Node.instruction a ∈ hbg.nodes → a.itype.isReadWriteType = true →
    f.getCachelineAddress = a.getCachelineAddress →
    FastKnows h .default f.getCachelineAddress (.instruction a) (.instruction f) →
      f.isIntervalContains a = true
  spread : ∀ f a, Node.instruction f ∈ hbg.nodes → f.itype = .flush →
    Node.instruction a ∈ hbg.nodes → a.itype.isReadWriteType = true →
    f.isIntervalContains a = true →
    hbg.graph.Reaches (.instruction a) (.instruction f) →
      FastKnows h .default f.getCachelineAddress (.instruction a) (.instruction f)

namespace Sized

theorem wf (hb : Sized it b es o hbg pdg) : hbg.WellFormed :=
  HBGBuilder.build_wellFormed hb.build hb.edgeOrder hb.endpoints hb.dag

/-- The checks of the graph were made with the size of its flushes. -/
theorem fitsBlock (hb : Sized it b es o hbg pdg) {k : ℕ} (hk : hbg.cachelineSize = 2 ^ k)
    {n : InstructionNode} (hn : Node.instruction n ∈ hbg.nodes) :
    n.address + n.size ≤ 2 ^ k * (n.address / 2 ^ k) + 2 ^ k := by
  rcases n.itype_cases with hi | hi | hi
  · exact HBGBuilder.build_fitsBlock hb.build hk (hb.inSpace n hn) hn
      (by simp [hi, NodeType.isReadWriteType])
  · exact HBGBuilder.build_fitsBlock hb.build hk (hb.inSpace n hn) hn
      (by simp [hi, NodeType.isReadWriteType])
  · obtain ⟨hsize, hdvd⟩ := hb.flush n hn hi
    rw [hk] at hsize hdvd
    rw [hsize, Nat.mul_div_cancel' hdvd]

/-- Up to 64 bytes everything stays in one line. -/
theorem inOneLine (hb : Sized it b es o hbg pdg) (hle : hbg.cachelineSize ≤ 64) {n : Node}
    (hn : n ∈ hbg.nodes) : n.InOneLine := by
  obtain ⟨k, hk⟩ := hb.size
  have hk6 : k ≤ 6 := by
    have h64 : 2 ^ k ≤ 2 ^ 6 := hk ▸ hle
    exact (Nat.pow_le_pow_iff_right (by decide)).mp h64
  cases n with
  | epoch _ => exact trivial
  | instruction n =>
    have hspace := hb.inSpace n hn
    have hsize := n.size_ne_zero
    exact ⟨by omega, le_of_block hk6 (hb.fitsBlock hk hn)⟩

theorem built (hb : Sized it b es o hbg pdg) (hle : hbg.cachelineSize ≤ 64)
    (hline : ∀ d r, r ∈ pdg.getDependencies d → d.getCachelineAddress ≠ r.getCachelineAddress) :
    Built it b es o hbg pdg where
  build := hb.build
  edgeOrder := hb.edgeOrder
  endpoints := hb.endpoints
  chains := hb.chains
  dag := hb.dag
  oneLine := fun _ hn => hb.inOneLine hle hn
  dependency := by
    intro e he
    have hdep : e.2.1 ∈ pdg.getDependencies e.1 := PDG.mem_getDependencies.mpr ⟨_, he⟩
    obtain ⟨hd, hr, hw, hi, ht⟩ := hb.dependency _ _ hdep
    exact ⟨hd, hr, hw, hi, ht, hline _ _ hdep⟩

end Sized

/-- After a flush the clock of its line holds what is spread to the flush. -/
theorem treatsAsPersisted_iff {h : hbg.WellFormed} {seen : List Node} {s : Findings}
    {f a : InstructionNode} (hc : Clocks hbg .default (FastKnows h .default) seen s)
    (hf : Forward h Flags.default.ignoreInterThreadEdges seen (.instruction f))
    (hi : f.itype = .flush) (ha : Node.instruction a ∈ hbg.nodes)
    (hia : a.itype.isReadWriteType = true) :
    TreatsAsPersisted hbg s f a ↔ f.getCachelineAddress = a.getCachelineAddress ∧
      FastKnows h .default f.getCachelineAddress (.instruction a) (.instruction f) := by
  have hk := fastKnows_spreads h .default
  have hflush : Flags.default.isFlush f.itype = true := by
    rw [hi]
    rfl
  have hon : (Node.instruction f).On Flags.default.isFlush f.getCachelineAddress := ⟨hflush, rfl⟩
  have hc' := flushLine_spec hc hk hf hflush
  unfold TreatsAsPersisted
  refine and_congr_right fun hline => ?_
  have hup := upTo_persisted_iff hc' hk hf ha hia hline.symm
  have hpersisted : PersistedBy .default (FastKnows h .default) f.getCachelineAddress
      (.instruction a) (.instruction f) ↔
        FastKnows h .default f.getCachelineAddress (.instruction a) (.instruction f) := by
    constructor
    · intro hp
      obtain ⟨g, -, hag, hgf⟩ := hp
      exact hk.trans hag hgf
    · intro hknows
      exact ⟨.instruction f, hon, hknows, hk.self hf.mem hon.flush_news⟩
  rw [← hpersisted, ← hup]
  show _ ↔ hbg.stamp (.instruction a) ≤
    ((flushLine s f).pvc f.tid f.getCachelineAddress).persisted a.tid
  constructor
  · intro hex
    obtain ⟨loc, hloc, htrue⟩ := hex
    rw [h.location _ ha] at hloc
    cases hloc
    exact of_decide_eq_true htrue
  · intro hle
    exact ⟨_, h.location _ ha, decide_eq_true hle⟩

/-- A run that succeeds has refused no flush and no dependency. -/
theorem Sized.fits_of_run (hb : Sized it b es o hbg pdg)
    (ho : hbg.graph.IsTopological reversePostorder) {races : PersistencyRaces}
    (hrun : run hbg pdg .default postorder reversePostorder true = .ok races) :
    hbg.cachelineSize ≤ 64 ∧
      ∀ d r, r ∈ pdg.getDependencies d → d.getCachelineAddress ≠ r.getCachelineAddress := by
  have hmem : ∀ n, n ∈ reversePostorder ↔ n ∈ hbg.nodes := by
    intro n
    rw [ho.mem_iff, hb.wf.mem_graph]
  obtain ⟨vcs, -, hrun⟩ := bind_eq_ok.mp hrun
  rw [if_pos rfl] at hrun
  obtain ⟨s, hs, -⟩ := bind_eq_ok.mp hrun
  constructor
  · by_contra hgt
    obtain ⟨k, hk⟩ := hb.size
    obtain ⟨f, hf, hi⟩ := HBGBuilder.exists_flush_of_build hb.build (by
      intro hdef
      rw [hdef] at hgt
      exact hgt le_rfl)
    obtain ⟨hsize, hdvd⟩ := hb.flush f hf hi
    have hk6 : 6 < k := by
      by_contra hle
      have h64 : 2 ^ k ≤ 2 ^ 6 := Nat.pow_le_pow_right (by decide) (by omega)
      omega
    obtain ⟨t, t', hstep⟩ := foldlM_step_ok hs ((hmem _).mpr hf)
    simp only [fastStep, hi] at hstep
    rw [if_neg (by decide)] at hstep
    obtain ⟨dv, hdv, -⟩ := bind_eq_ok.mp hstep
    unfold DirtyCachelinesVector.setCachelineDirty at hdv
    obtain ⟨l, hl, -⟩ := bind_eq_ok.mp hdv
    have hspace := hb.inSpace f hf
    rw [hsize, hk] at hl hspace
    rw [hk] at hdvd
    exact getCachelineAddresses_block hk6 hdvd hspace l hl
  · intro d r hdep hline
    obtain ⟨hd, -, hw, -⟩ := hb.dependency d r hdep
    obtain ⟨t, t', hstep⟩ := foldlM_step_ok hs ((hmem _).mpr hd)
    simp only [fastStep, hw] at hstep
    obtain ⟨t₁, -, hstep⟩ := bind_eq_ok.mp hstep
    obtain ⟨found, hfound, -⟩ := bind_eq_ok.mp hstep
    obtain ⟨u, u', hread⟩ := foldlM_step_ok hfound hdep
    obtain ⟨_, hassert, -⟩ := bind_eq_ok.mp hread
    exact bne_iff_ne.mp (pyAssert_eq_ok.mp hassert) hline.symm

/-- The size is honoured exactly when it is at most 64, no dependency stays in a 64-byte line, and
what comes to a flush from its 64-byte line is what its own interval sends there. -/
theorem honours_size_iff (hb : Sized it b es o hbg pdg)
    (ho : Orders hbg postorder reversePostorder) :
    HonoursSize hbg pdg postorder reversePostorder ↔ hbg.cachelineSize ≤ 64 ∧
      (∀ d r, r ∈ pdg.getDependencies d → d.getCachelineAddress ≠ r.getCachelineAddress) ∧
      FlushesFit hb.wf := by
  have htreats : ∀ (hbuilt : Built it b es o hbg pdg) (vcs : ReversedClocks Node)
      (pre post : List Node) (f : InstructionNode),
      buildHappensAfterVectorClocks hbg .default postorder = .ok vcs →
      reversePostorder = pre ++ Node.instruction f :: post → f.itype = .flush →
      ∃ s, persistedBeforeAnalysisFast hbg pdg .default vcs pre = .ok s ∧
        ∀ a, Node.instruction a ∈ hbg.nodes → a.itype.isReadWriteType = true →
          (TreatsAsPersisted hbg s.found f a ↔ f.getCachelineAddress = a.getCachelineAddress ∧
            FastKnows hb.wf .default f.getCachelineAddress (.instruction a) (.instruction f)) := by
    intro hbuilt vcs pre post f hvcs hsplit hi
    obtain ⟨vcs', hvcs', hsum⟩ := buildHappensAfterVectorClocks_spec hb.wf .default ho.postorder
    obtain rfl := Except.ok.inj (hvcs.symm.trans hvcs')
    obtain ⟨s, hs, hI⟩ := persistedBeforeAnalysisFast_spec hb.wf hbuilt.input hsum
      ho.reversePostorder hsplit
    have hf :=
      forward_of_split hb.wf Flags.default.ignoreInterThreadEdges ho.reversePostorder hsplit
    exact ⟨s, hs, fun a ha hia => treatsAsPersisted_iff hI.clocks hf hi ha hia⟩
  constructor
  · intro hh
    obtain ⟨races, hrun⟩ := hh.completes
    obtain ⟨hle, hline⟩ := hb.fits_of_run ho.reversePostorder hrun
    have hbuilt := hb.built hle hline
    have hiff : ∀ f a, Node.instruction f ∈ hbg.nodes → f.itype = .flush →
        Node.instruction a ∈ hbg.nodes → a.itype.isReadWriteType = true →
        (f.isIntervalContains a = true ∧
          hbg.graph.Reaches (.instruction a) (.instruction f) ↔
            f.getCachelineAddress = a.getCachelineAddress ∧
              FastKnows hb.wf .default f.getCachelineAddress (.instruction a)
              (.instruction f)) := by
      intro f a hf hi ha hia
      obtain ⟨vcs, hvcs, -⟩ := buildHappensAfterVectorClocks_spec hb.wf .default ho.postorder
      obtain ⟨pre, post, hsplit⟩ := List.append_of_mem
        ((ho.reversePostorder.mem_iff _).mpr ((hb.wf.mem_graph _).mpr hf))
      obtain ⟨s, hs, hiff⟩ := htreats hbuilt vcs pre post f hvcs hsplit hi
      rw [← hh.persists vcs pre f post s hvcs hsplit hi hs a ha hia, hiff a ha hia]
    refine ⟨hle, hline, ?_, ?_⟩
    · intro f a hf hi ha hia hfa hk
      exact ((hiff f a hf hi ha hia).mpr ⟨hfa, hk⟩).1
    · intro f a hf hi ha hia hin hr
      exact ((hiff f a hf hi ha hia).mp ⟨hin, hr⟩).2
  · intro hfit
    obtain ⟨hle, hline, hfit⟩ := hfit
    have hbuilt := hb.built hle hline
    obtain ⟨races, hrun, -⟩ := run_fast_spec hbuilt ho .default
    refine ⟨⟨races, hrun⟩, ?_⟩
    intro vcs pre f post s hvcs hsplit hi hs a ha hia
    obtain ⟨s', hs', hiff⟩ := htreats hbuilt vcs pre post f hvcs hsplit hi
    obtain rfl := Except.ok.inj (hs.symm.trans hs')
    have hf : Node.instruction f ∈ hbg.nodes := by
      rw [← hb.wf.mem_graph, ← ho.reversePostorder.mem_iff, hsplit]
      simp
    rw [hiff a ha hia]
    constructor
    · intro hk
      refine ⟨hfit.inside f a hf hi ha hia hk.1 hk.2, hb.wf.reaches_iff.mpr ?_⟩
      have hne : Node.instruction f ≠ .instruction a := by
        intro heq
        cases heq
        rw [hi] at hia
        cases hia
      exact (reflTransGen_iff_eq_or_transGen.mp
        ((fastKnows_spreads hb.wf .default).reach hk.2)).resolve_left hne
    · intro hin
      have hfa := InstructionNode.line_eq_of_overlap (hb.inOneLine hle hf) (hb.inOneLine hle ha)
        (InstructionNode.isIntervalOverlap_of_contains hin.1)
      exact ⟨hfa, hfit.spread f a hf hi ha hia hin.1 hin.2⟩

section Samples

def noDependencies : PDG := ⟨.empty, Digraph.isDirectedAcyclicGraph_empty⟩

def sizedWrite (offset : ℕ) : InstructionNode :=
  { sampleNode 0 .write NodeType.isInstructionType_write 0 32 with address := 2048 + offset }

def sizedFlush (size : ℕ) (h : size ≠ 0) : InstructionNode :=
  { sampleNode 1 .flush NodeType.isInstructionType_flush 0 32 with size := size, size_ne_zero := h }

/-- A write, and then a flush of the given size by its thread. -/
def sizedTrace (offset size : ℕ) (h : size ≠ 0) : HBGBuilder where
  nodes := [.instruction (sizedWrite offset), .instruction (sizedFlush size h)]
  edges := []
  nextIdent := 2

theorem sized_of_sizedTrace {offset k : ℕ} (hoffset : offset ≤ 64) (hk : k ≤ 7)
    (hbuild : (sizedTrace offset (2 ^ k) (Nat.two_pow_pos k).ne').build noTrees [] .default =
      .ok hbg)
    (hnodes : hbg.nodes = (sizedTrace offset (2 ^ k) (Nat.two_pow_pos k).ne').nodes)
    (hsize : hbg.cachelineSize = 2 ^ k) :
    Sized noTrees (sizedTrace offset (2 ^ k) (Nat.two_pow_pos k).ne')
    [] .default hbg noDependencies where
  build := hbuild
  edgeOrder := fun _ => Iff.rfl
  endpoints := by
    intro e he
    cases he
  chains := rfl
  dag := rfl
  size := ⟨k, hsize⟩
  flush := by
    intro f hf hi
    rw [hnodes] at hf
    rcases List.mem_cons.mp hf with h | h
    · cases h
      cases hi
    · cases List.mem_singleton.mp h
      refine ⟨hsize.symm, ?_⟩
      rw [hsize]
      show 2 ^ k ∣ 2 ^ 11
      exact pow_dvd_pow 2 (by omega)
  inSpace := by
    intro n hn
    rw [hnodes] at hn
    have hpow : 2 ^ k ≤ 2 ^ 7 := Nat.pow_le_pow_right (by decide) hk
    rcases List.mem_cons.mp hn with h | h
    · cases h
      show 2048 + offset + 8 ≤ 2 ^ 64
      omega
    · cases List.mem_singleton.mp h
      show 64 * 32 + 2 ^ k ≤ 2 ^ 64
      omega
  dependency := by
    intro d r hdep
    cases hdep

/-- The flush clears the first half of the line, and the write is in the second. -/
def halfTrace : HBGBuilder := sizedTrace 32 (2 ^ 5) (by decide)

def halfGraph : HBG := (halfTrace.build noTrees [] .default).toOption.get (by rfl)

theorem half_sized : Sized noTrees halfTrace [] .default halfGraph noDependencies :=
  sized_of_sizedTrace (by decide) (by decide) rfl rfl rfl

theorem half_orders : Orders halfGraph halfTrace.nodes.reverse halfTrace.nodes :=
  orders_of_perm (by decide) (by decide) (by decide) (by decide)
    (by decide)

/-- The flush clears two 64-byte lines. -/
def wideTrace : HBGBuilder := sizedTrace 64 (2 ^ 7) (by decide)

def wideGraph : HBG := (wideTrace.build noTrees [] .default).toOption.get (by rfl)

theorem wide_sized : Sized noTrees wideTrace [] .default wideGraph noDependencies :=
  sized_of_sizedTrace (by decide) (by decide) rfl rfl rfl

theorem wide_orders : Orders wideGraph wideTrace.nodes.reverse wideTrace.nodes :=
  orders_of_perm (by decide) (by decide) (by decide) (by decide)
    (by decide)

end Samples

/-- The flush of 32 bytes persists the write behind them. -/
theorem half_not_honoured :
    ¬ HonoursSize halfGraph noDependencies halfTrace.nodes.reverse halfTrace.nodes := by
  rw [honours_size_iff half_sized half_orders]
  intro h
  obtain ⟨-, -, hfit⟩ := h
  have hk := fastKnows_spreads half_sized.wf .default
  have hw : Node.instruction (sizedWrite 32) ∈ halfGraph.nodes := by decide
  have hf : Node.instruction (sizedFlush 32 (by decide)) ∈ halfGraph.nodes := by decide
  have hself : FastKnows half_sized.wf .default 2048 (.instruction (sizedWrite 32))
      (.instruction (sizedWrite 32)) := hk.self hw (Node.On.access_news ⟨rfl, rfl⟩)
  have hknows := hk.later hself ⟨hw, hf, rfl, by decide⟩
  exact absurd (hfit.inside _ _ hf rfl hw rfl rfl hknows) (by decide)

/-- A run on lines of 128 bytes raises. -/
theorem wide_flush_refused :
    Sized noTrees wideTrace [] .default wideGraph noDependencies ∧
      Orders wideGraph wideTrace.nodes.reverse wideTrace.nodes ∧
      run wideGraph noDependencies .default wideTrace.nodes.reverse wideTrace.nodes true =
        .error (.assertionError "got more than 1 cacheline (2)") ∧
      ¬ HonoursSize wideGraph noDependencies wideTrace.nodes.reverse wideTrace.nodes := by
  have herror : run wideGraph noDependencies .default wideTrace.nodes.reverse wideTrace.nodes true =
      .error (.assertionError "got more than 1 cacheline (2)") := by rfl
  refine ⟨wide_sized, wide_orders, herror, fun h => ?_⟩
  obtain ⟨races, hrun⟩ := h.completes
  rw [herror] at hrun
  cases hrun

end Prd.Pycprd
