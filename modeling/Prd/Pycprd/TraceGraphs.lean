import Prd.Pycprd.RunCompletes
import Prd.Pycprd.TraceParser
import Prd.Pycprd.VolatileFilter

/-!
# The two graphs of a trace

The happens-before graph is built from the nodes that pass the filter. Dependencies
between events with ids are recorded while the trace is read, before the filter runs,
and the others are looked for in the built graph.
-/
namespace Prd.Pycprd

open Prd.Foundation Relation

namespace TraceParser

/-- The happens-before graph of the trace that was read. -/
def buildHbg (s : TraceParser) (it : IntervalTreeApi) (edgeOrder : List (EpochNode × EpochNode))
    (filterVolatileNodes makeDaisyChains assertDag : Bool) : Py HBG :=
  s.hbgBuilder.build it edgeOrder
    ⟨filterVolatileNodes, s.pmemRange, makeDaisyChains, s.ignoreRanges, assertDag⟩

/-- Fallback to the mock graph when the trace has no dependencies. -/
def buildPdg (s : TraceParser) (order : SetOrder) (hbg : HBG) : Py PDG :=
  if s.pdgBuilder.totalDependencies = 0 then generateMockPdgV2 order hbg
  else s.pdgBuilder.build order hbg

section Reading

/-- The events of the tables and of the dependencies are among the nodes that were read. -/
structure Registered (s : TraceParser) : Prop where
  events : ∀ tid id n, s.event tid id = .ok n → Node.instruction n ∈ s.hbgBuilder.nodes
  graph : ∀ n ∈ s.pdgBuilder.graph.nodes, Node.instruction n ∈ s.hbgBuilder.nodes
  bipartite : s.pdgBuilder.Bipartite

theorem registered_new : new.Registered where
  events := by
    intro tid id n h
    cases h
  graph := fun n hn => absurd hn List.not_mem_nil
  bipartite := fun e he => absurd he List.not_mem_nil

variable {s s' : TraceParser}

theorem Registered.mono (h : s.Registered)
    (hnodes : ∀ n ∈ s.hbgBuilder.nodes, n ∈ s'.hbgBuilder.nodes) (hevents : s'.events = s.events)
    (hgraph : s'.pdgBuilder.graph = s.pdgBuilder.graph) : s'.Registered where
  events := by
    intro tid id n hn
    unfold event at hn
    rw [hevents] at hn
    exact hnodes _ (h.events tid id n hn)
  graph := by
    rw [hgraph]
    exact fun n hn => hnodes _ (h.graph n hn)
  bipartite := by
    unfold PDGBuilder.Bipartite
    rw [hgraph]
    exact h.bipartite

theorem event_addEvent {n m : InstructionNode} {eventId tid id : ℕ}
    (h : (s.addEvent n eventId).event tid id = .ok m) : m = n ∨ s.event tid id = .ok m := by
  unfold addEvent event at h
  simp only [Dict.getD_insert] at h
  by_cases ht : tid = n.tid
  · subst ht
    rw [if_pos rfl] at h
    unfold pyGet at h
    by_cases hid : id = eventId
    · subst hid
      rw [AList.lookup_insert] at h
      exact Or.inl (Except.ok.inj h).symm
    · rw [AList.lookup_insert_ne hid] at h
      exact Or.inr h
  · rw [if_neg ht] at h
    exact Or.inr h

theorem Registered.parsePd (h : s.Registered) {tid : ℕ} {args : List PyStr}
    (hs : s.parsePd tid args = .ok s') : s'.Registered := by
  unfold TraceParser.parsePd at hs
  split_ifs at hs
  · obtain ⟨l, -, hs⟩ := bind_eq_ok.mp hs
    split at hs
    · obtain ⟨_, -, hs⟩ := bind_eq_ok.mp hs
      obtain ⟨_, -, hs⟩ := bind_eq_ok.mp hs
      cases hs
      exact h.mono (fun _ hn => hn) rfl rfl
    · cases hs
  · obtain ⟨l, -, hs⟩ := bind_eq_ok.mp hs
    split at hs
    · obtain ⟨_, -, hs⟩ := bind_eq_ok.mp hs
      obtain ⟨_, -, hs⟩ := bind_eq_ok.mp hs
      obtain ⟨r, hr, hs⟩ := bind_eq_ok.mp hs
      obtain ⟨d, hd, hs⟩ := bind_eq_ok.mp hs
      obtain ⟨b, hb, hs⟩ := bind_eq_ok.mp hs
      cases hs
      unfold PDGBuilder.addDependency at hb
      obtain ⟨_, hwrite, hb⟩ := bind_eq_ok.mp hb
      obtain ⟨_, hread, hb⟩ := bind_eq_ok.mp hb
      obtain ⟨_, -, hb⟩ := bind_eq_ok.mp hb
      cases hb
      refine ⟨h.events, fun n hn => ?_, fun e he => ?_⟩
      · rcases (Digraph.mem_nodes_addEdge _ _ _ _ _).mp hn with hn | rfl | rfl
        · exact h.graph n hn
        · exact h.events _ _ _ hd
        · exact h.events _ _ _ hr
      · rcases (Digraph.mem_edges_addEdge _ _ _ _ _).mp he with rfl | ⟨he, -⟩
        · exact ⟨beq_iff_eq.mp (pyAssert_eq_ok.mp hwrite), beq_iff_eq.mp (pyAssert_eq_ok.mp hread)⟩
        · exact h.bipartite e he
    · cases hs

theorem Registered.parseInstruction (h : s.Registered) {itype : NodeType} {tid lineNumber : ℕ}
    {eventId : Option ℤ} {fields : List PyStr}
    (hs : s.parseInstruction itype tid eventId lineNumber fields = .ok s') : s'.Registered := by
  unfold TraceParser.parseInstruction at hs
  split at hs
  · obtain ⟨pc, -, hs⟩ := bind_eq_ok.mp hs
    obtain ⟨address, -, hs⟩ := bind_eq_ok.mp hs
    obtain ⟨size, -, hs⟩ := bind_eq_ok.mp hs
    obtain ⟨⟨isAtomic, isNonTemporal, info⟩, -, hs⟩ := bind_eq_ok.mp hs
    obtain ⟨pc, -, hs⟩ := bind_eq_ok.mp hs
    obtain ⟨address, -, hs⟩ := bind_eq_ok.mp hs
    obtain ⟨size, -, hs⟩ := bind_eq_ok.mp hs
    obtain ⟨eventId, -, hs⟩ := bind_eq_ok.mp hs
    obtain ⟨⟨n, b⟩, hb, hs⟩ := bind_eq_ok.mp hs
    obtain ⟨n', -, hb⟩ := bind_eq_ok.mp hb
    cases hb
    have hadded : Node.instruction n ∈ s.hbgBuilder.nodes ++ [.instruction n] := by simp
    have hgrown : TraceParser.Registered { s with hbgBuilder :=
        { s.hbgBuilder with
          nodes := s.hbgBuilder.nodes ++ [.instruction n]
          nextIdent := s.hbgBuilder.nextIdent + 1 } } :=
      h.mono (fun m hm => List.mem_append_left _ hm) rfl rfl
    cases eventId with
    | none =>
      cases hs
      exact hgrown
    | some eventId =>
      cases hs
      refine ⟨fun tid id m hm => ?_, hgrown.graph, hgrown.bipartite⟩
      rcases event_addEvent hm with rfl | hm
      · exact hadded
      · exact hgrown.events tid id m hm
  · cases hs

theorem Registered.parseKey (h : s.Registered) {key : TraceKey} {tid lineNumber : ℕ}
    {eventId : Option ℤ} {args fields : List PyStr}
    (hs : s.parseKey key tid eventId lineNumber args fields = .ok s') : s'.Registered := by
  cases key with
  | pd => exact h.parsePd hs
  | hbEdge =>
    obtain ⟨l, -, hs⟩ := bind_eq_ok.mp hs
    split at hs
    · obtain ⟨_, -, hs⟩ := bind_eq_ok.mp hs
      obtain ⟨_, -, hs⟩ := bind_eq_ok.mp hs
      cases hs
      exact h.mono (fun _ hn => hn) rfl rfl
    · cases hs
  | epocInc =>
    obtain ⟨l, -, hs⟩ := bind_eq_ok.mp hs
    split at hs
    · split_ifs at hs
      · cases hs
        exact h.mono (fun n hn => List.mem_append_left _ hn) rfl rfl
      · cases hs
        exact h
    · cases hs
  | pmem =>
    obtain ⟨l, -, hs⟩ := bind_eq_ok.mp hs
    split at hs
    · obtain ⟨_, -, hs⟩ := bind_eq_ok.mp hs
      obtain ⟨_, -, hs⟩ := bind_eq_ok.mp hs
      cases hs
      exact h.mono (fun _ hn => hn) rfl rfl
    · cases hs
  | volatile =>
    obtain ⟨l, -, hs⟩ := bind_eq_ok.mp hs
    split at hs
    · obtain ⟨_, -, hs⟩ := bind_eq_ok.mp hs
      obtain ⟨_, -, hs⟩ := bind_eq_ok.mp hs
      cases hs
      exact h.mono (fun _ hn => hn) rfl rfl
    · cases hs
  | module =>
    obtain ⟨l, -, hs⟩ := bind_eq_ok.mp hs
    split at hs
    · split at hs
      · split_ifs at hs
        cases hs
        exact h.mono (fun _ hn => hn) rfl rfl
      · cases hs
    · cases hs
  | instruction itype => exact h.parseInstruction hs

theorem Registered.parseLine (h : s.Registered) {allowKeys : Option (List PyStr)} {line : PyStr}
    {lineNumber : ℕ} (hs : s.parseLine allowKeys line lineNumber = .ok s') : s'.Registered := by
  unfold TraceParser.parseLine at hs
  simp only at hs
  split_ifs at hs
  · cases hs
    exact h
  · cases hs
    exact h
  · obtain ⟨⟨eventId, tid, key, argsIndex⟩, -, hs⟩ := bind_eq_ok.mp hs
    simp only at hs
    split_ifs at hs
    · cases hs
      exact h
    · obtain ⟨tid, -, hs⟩ := bind_eq_ok.mp hs
      cases hs
      exact h
    · obtain ⟨tid, -, hs⟩ := bind_eq_ok.mp hs
      split at hs
      · exact h.parseKey hs
      · cases hs
        exact h

/-- A trace that is read leaves only nodes that were read in the tables and dependencies. -/
theorem registered_of_parse {traceLines : List PyStr} {allowKeys : Option (List PyStr)}
    {maxLines : Option ℕ} (hs : parse traceLines allowKeys maxLines = .ok s) : s.Registered := by
  have hlines : ∀ (lines : List PyStr) (i : ℕ) {s₀ : TraceParser}, s₀.Registered →
      parseLines allowKeys maxLines s₀ i lines = .ok s → s.Registered := by
    intro lines
    induction lines with
    | nil =>
      intro i s₀ h₀ hs
      cases hs
      exact h₀
    | cons line lines ih =>
      intro i s₀ h₀ hs
      unfold parseLines at hs
      split_ifs at hs
      · cases hs
        exact h₀
      · obtain ⟨s₁, hs₁, hs⟩ := bind_eq_ok.mp hs
        exact ih (i + 1) (h₀.parseLine hs₁) hs
  exact hlines _ 0 registered_new hs

end Reading

section Agreement

/-- The filter lets the events of the dependencies pass that were recorded by event ids. -/
def EventsPass (s : TraceParser) (filterVolatileNodes : Bool) : Prop :=
  filterVolatileNodes = true → ∀ n ∈ s.pdgBuilder.graph.nodes, n.itype.isReadWriteType = true →
    (∃ r ∈ HBGBuilder.keepRanges s.hbgBuilder.nodes s.pmemRange, SharePoint r n.interval) ∧
      ¬ ∃ r ∈ s.ignoreRanges, Within r n.interval

end Agreement

end TraceParser

/-- The nodes of the dependency graph belong to the happens-before graph, which can locate the
reads that writes depend on. -/
structure GraphsAgree (hbg : HBG) (pdg : PDG) : Prop where
  nodes : ∀ n ∈ pdg.graph.nodes, Node.instruction n ∈ hbg.nodes
  located : ∀ d r, r ∈ pdg.getDependencies d →
    ∃ loc, hbg.getNodeLocation (.instruction r) = .ok loc

section Agreement

variable {it : IntervalTreeApi} {b : HBGBuilder} {es : List (EpochNode × EpochNode)}
  {o : HBGBuilder.BuildOptions} {hbg : HBG} {pdg : PDG} {order : SetOrder} {s : TraceParser}

theorem HBGBuilder.build_getNodeLocation (h : b.build it es o = .ok hbg) {n : Node}
    (hn : n ∈ hbg.nodes) : ∃ loc, hbg.getNodeLocation n = .ok loc := by
  obtain ⟨-, -, -, -, -, -, -, hloc, -⟩ := build_eq_ok h
  obtain ⟨pre, post, -, -, hlook⟩ := (ThreadTables.lists_addNodes hbg.nodes).location n hn
  refine ⟨⟨n.tid, pre.length⟩, ?_⟩
  unfold HBG.getNodeLocation pyGet
  rw [hloc, hlook]
  rfl

theorem GraphsAgree.of_nodes (h : b.build it es o = .ok hbg)
    (hn : ∀ n ∈ pdg.graph.nodes, Node.instruction n ∈ hbg.nodes) : GraphsAgree hbg pdg where
  nodes := hn
  located := by
    intro d r hr
    exact HBGBuilder.build_getNodeLocation h (hn r (PDG.mem_getDependencies.mp hr).mem.2)

/-- Which instructions are left by the first step of a build. -/
theorem HBGBuilder.mem_nodes_iff (doc : it.Documented) (h : b.build it es o = .ok hbg)
    (n : InstructionNode) :
    Node.instruction n ∈ hbg.nodes ↔ Node.instruction n ∈ b.nodes ∧
      (o.filterVolatileNodes = true → n.itype.isReadWriteType = true →
        (∃ r ∈ keepRanges b.nodes o.pmemRange, SharePoint r n.interval) ∧
          ¬ ∃ r ∈ o.ignoreRanges, Within r n.interval) := by
  obtain ⟨b', hb', h⟩ := bind_eq_ok.mp h
  obtain ⟨g, -, h⟩ := bind_eq_ok.mp h
  obtain ⟨rfl, -⟩ := HBG.init_eq_ok h
  unfold filterIfAsked at hb'
  split_ifs at hb' with hf
  · by_cases hr : RangesNonempty o.pmemRange o.ignoreRanges
    · obtain ⟨p, hp, -, hinstr⟩ := filterVolatileNodes_eq doc b o.pmemRange o.ignoreRanges hr
      obtain rfl := Except.ok.inj (hp.symm.trans hb')
      simp only [List.mem_filter, hinstr, hf, true_implies]
    · rw [filterVolatileNodes_null doc b o.pmemRange o.ignoreRanges hr] at hb'
      cases hb'
  · cases hb'
    exact (and_iff_left fun hc => absurd hc hf).symm

/-- The nodes of the dependency graph are those of the recorded events, up to nodes of the
happens-before graph. -/
theorem TraceParser.buildPdg_nodes (hreg : s.Registered) (hthreads : hbg.ListsThreads)
    (h : s.buildPdg order hbg = .ok pdg) :
    (∀ n ∈ pdg.graph.nodes, Node.instruction n ∈ hbg.nodes) ↔
      ∀ n ∈ s.pdgBuilder.graph.nodes, Node.instruction n ∈ hbg.nodes := by
  unfold buildPdg at h
  split_ifs at h with hzero
  · obtain ⟨pdg', hpdg', hnodes, -⟩ := generateMockPdgV2_spec order hthreads
    obtain rfl := Except.ok.inj (h.symm.trans hpdg')
    refine iff_of_true hnodes ?_
    have hempty : s.pdgBuilder.graph.nodes = [] := by
      unfold PDGBuilder.totalDependencies at hzero
      exact List.length_eq_zero_iff.mp (by omega)
    rw [hempty]
    exact fun n hn => absurd hn List.not_mem_nil
  · obtain ⟨b', pdg', hpdg', hgraph, hext⟩ := PDGBuilder.build_spec order hthreads hreg.bipartite
      (PDGBuilder.keys_or_nodes_of_build order h)
    obtain rfl := Except.ok.inj (h.symm.trans hpdg')
    rw [hgraph]
    exact ⟨fun hall n hn => hall n (hext.keeps n hn),
      fun hall n hn => (hext.nodes n hn).elim (hall n) id⟩

/-- The two graphs of a trace agree exactly when the filter lets pass the events of the recorded
dependencies. -/
theorem graphs_agree_iff (doc : it.Documented) {traceLines : List PyStr}
    {allowKeys : Option (List PyStr)} {maxLines : Option ℕ}
    {filterVolatileNodes makeDaisyChains assertDag : Bool}
    (hparse : TraceParser.parse traceLines allowKeys maxLines = .ok s)
    (hhbg : s.buildHbg it es filterVolatileNodes makeDaisyChains assertDag = .ok hbg)
    (hpdg : s.buildPdg order hbg = .ok pdg) :
    GraphsAgree hbg pdg ↔ s.EventsPass filterVolatileNodes := by
  have hreg := TraceParser.registered_of_parse hparse
  have hnodes := TraceParser.buildPdg_nodes hreg (HBGBuilder.build_listsThreads hhbg) hpdg
  have hmem := HBGBuilder.mem_nodes_iff doc hhbg
  constructor
  · intro hagree hf n hn hi
    exact ((hmem n).mp (hnodes.mp hagree.nodes n hn)).2 hf hi
  · intro hpass
    refine .of_nodes hhbg (hnodes.mpr fun n hn => (hmem n).mpr ⟨hreg.graph n hn, fun hf hi => ?_⟩)
    exact hpass hf n hn hi

/-- The line of the read is never flushed. -/
def unflushedReadTrace : List PyStr :=
  ["0:0:READ:0x10:0x1000:8:0x10:0:0|0x1,".toList, "1:0:WRITE:0x20:0x2000:8:0x20:0:0|0x1,".toList,
    "0:PD:0x10:0:0x20:1".toList, "0:FLUSH:0x30:0x2000:64:0x30".toList]

def unflushedReadParser : TraceParser :=
  (TraceParser.parse unflushedReadTrace none none).toOption.get (by decide)

def unflushedReadHbg : HBG :=
  (unflushedReadParser.buildHbg HBGBuilder.listTrees [] true true true).toOption.get
    (by decide)

def unflushedReadPdg : PDG :=
  (unflushedReadParser.buildPdg insertionOrder unflushedReadHbg).toOption.get (by decide)

theorem unflushedRead_parse :
    TraceParser.parse unflushedReadTrace none none = .ok unflushedReadParser :=
  eq_ok_get _

theorem unflushedRead_buildHbg :
    unflushedReadParser.buildHbg HBGBuilder.listTrees [] true true true = .ok unflushedReadHbg :=
  eq_ok_get _

theorem unflushedRead_buildPdg :
    unflushedReadParser.buildPdg insertionOrder unflushedReadHbg = .ok unflushedReadPdg :=
  eq_ok_get _

theorem graphs_agree_iff_unflushedRead :
    GraphsAgree unflushedReadHbg unflushedReadPdg ↔ unflushedReadParser.EventsPass true :=
  graphs_agree_iff HBGBuilder.listTreesDocumented unflushedRead_parse unflushedRead_buildHbg
    unflushedRead_buildPdg

/-- The filter drops the read, and the run fails to locate it. -/
theorem unflushed_read_not_located :
    TraceParser.parse unflushedReadTrace none none = .ok unflushedReadParser ∧
      unflushedReadParser.buildHbg HBGBuilder.listTrees [] true true true = .ok unflushedReadHbg ∧
      unflushedReadParser.buildPdg insertionOrder unflushedReadHbg = .ok unflushedReadPdg ∧
      ¬ GraphsAgree unflushedReadHbg unflushedReadPdg ∧
      run unflushedReadHbg unflushedReadPdg .default unflushedReadHbg.nodes.reverse
        unflushedReadHbg.nodes true = .error .keyError := by
  refine ⟨unflushedRead_parse, unflushedRead_buildHbg, unflushedRead_buildPdg, fun hagree => ?_,
    rfl⟩
  have hall : ∀ n ∈ unflushedReadPdg.graph.nodes, Node.instruction n ∈ unflushedReadHbg.nodes :=
    hagree.nodes
  revert hall
  decide

end Agreement

end Prd.Pycprd
