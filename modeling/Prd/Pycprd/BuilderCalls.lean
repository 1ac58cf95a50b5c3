import Prd.Pycprd.HbgWellFormed
import Prd.Pycprd.VolatileFilter

/-!
# Graphs built by sequences of calls

A builder is only changed by its three methods. The graph that it builds is located
when its tables and its edges describe the listed nodes and nothing else, which
edges can break by naming epochs that were never added.
-/
namespace Prd.Pycprd

open Prd.Foundation Relation

inductive BuilderCall
  | addEpochNode (tid : ThreadId) (epoch : ℤ)
  | addInstructionNode (itype : NodeType) (tid pc address size : ℕ) (info : Info)
      (traceLineNumber : Option ℕ) (isAtomic isNonTemporal : Bool) (eventId : Option ℕ)
  | addHappensBeforeEdge (srcTid : ThreadId) (srcEpoch : ℤ) (dstTid : ThreadId) (dstEpoch : ℤ)

namespace BuilderCall

def apply (b : HBGBuilder) : BuilderCall → Py HBGBuilder
  | addEpochNode tid epoch => pure (b.addEpochNode tid epoch)
  | addInstructionNode itype tid pc address size info line isAtomic isNonTemporal eventId => do
    let (_, b) ← b.addInstructionNode itype tid pc address size info line isAtomic isNonTemporal
      eventId
    pure b
  | addHappensBeforeEdge srcTid srcEpoch dstTid dstEpoch =>
    pure (b.addHappensBeforeEdge srcTid srcEpoch dstTid dstEpoch)

def run (calls : List BuilderCall) : Py HBGBuilder := calls.foldlM apply .new

/-- Every epoch that an edge of the calls names is added by one of the calls. -/
def EdgesNameEpochs (calls : List BuilderCall) : Prop :=
  ∀ srcTid srcEpoch dstTid dstEpoch, addHappensBeforeEdge srcTid srcEpoch dstTid dstEpoch ∈ calls →
    addEpochNode srcTid srcEpoch ∈ calls ∧ addEpochNode dstTid dstEpoch ∈ calls

/-- What one call adds to the epoch nodes and to the edges. -/
theorem apply_spec {b b' : HBGBuilder} {call : BuilderCall} (h : call.apply b = .ok b') :
    (∀ tid epoch, Node.epoch ⟨tid, epoch⟩ ∈ b'.nodes ↔
      Node.epoch ⟨tid, epoch⟩ ∈ b.nodes ∨ addEpochNode tid epoch = call) ∧
    ∀ i j k l, (⟨i, j⟩, ⟨k, l⟩) ∈ b'.edges ↔
      (⟨i, j⟩, ⟨k, l⟩) ∈ b.edges ∨ addHappensBeforeEdge i j k l = call := by
  cases call with
  | addEpochNode tid epoch =>
    cases h
    simp [HBGBuilder.addEpochNode]
  | addInstructionNode itype tid pc address size info line isAtomic isNonTemporal eventId =>
    obtain ⟨⟨n, b₁⟩, hadd, h⟩ := bind_eq_ok.mp h
    cases h
    obtain ⟨n', -, hadd⟩ := bind_eq_ok.mp hadd
    cases hadd
    simp
  | addHappensBeforeEdge srcTid srcEpoch dstTid dstEpoch =>
    cases h
    simp only [HBGBuilder.addHappensBeforeEdge, List.mem_insert_iff]
    simp [or_comm, and_assoc]

/-- The epoch nodes and edges of a builder are those of its calls. -/
theorem run_spec {calls : List BuilderCall} {b : HBGBuilder} (h : run calls = .ok b) :
    (∀ tid epoch, Node.epoch ⟨tid, epoch⟩ ∈ b.nodes ↔ addEpochNode tid epoch ∈ calls) ∧
    ∀ i j k l, (⟨i, j⟩, ⟨k, l⟩) ∈ b.edges ↔ addHappensBeforeEdge i j k l ∈ calls := by
  unfold run at h
  induction calls using List.reverseRecOn generalizing b with
  | nil =>
    cases h
    simp [HBGBuilder.new]
  | append_singleton calls call ih =>
    rw [List.foldlM_append] at h
    obtain ⟨b₁, hb₁, h⟩ := bind_eq_ok.mp h
    obtain ⟨b₂, hb₂, h⟩ := bind_eq_ok.mp h
    cases h
    obtain ⟨hepoch, hedge⟩ := ih hb₁
    obtain ⟨hepoch', hedge'⟩ := apply_spec hb₂
    constructor
    · intro tid epoch
      rw [hepoch', hepoch, List.mem_append, List.mem_singleton]
    · intro i j k l
      rw [hedge', hedge, List.mem_append, List.mem_singleton]

theorem endpointsAdded_iff {calls : List BuilderCall} {b : HBGBuilder} (h : run calls = .ok b) :
    b.EndpointsAdded ↔ EdgesNameEpochs calls := by
  obtain ⟨hepoch, hedge⟩ := run_spec h
  constructor
  · intro hends i j k l hcall
    obtain ⟨hsrc, hdst⟩ := hends _ ((hedge i j k l).mpr hcall)
    exact ⟨(hepoch i j).mp hsrc, (hepoch k l).mp hdst⟩
  · rintro hname ⟨⟨i, j⟩, k, l⟩ he
    obtain ⟨hsrc, hdst⟩ := hname i j k l ((hedge i j k l).mp he)
    exact ⟨(hepoch i j).mpr hsrc, (hepoch k l).mpr hdst⟩

end BuilderCall

namespace HBG

/-- The graph has the nodes of the list, its tables locate them, and the nodes of a thread are
ordered by the graph as they are listed. -/
structure Located (hbg : HBG) (l : List Node) : Prop where
  mem_graph : ∀ n, n ∈ hbg.graph.nodes ↔ n ∈ l
  nodeAt : ∀ n ∈ hbg.graph.nodes, ∃ loc, hbg.getNodeLocation n = .ok loc ∧
    hbg.getNodeByLocation loc = .ok n
  locationOf : ∀ loc n, hbg.getNodeByLocation loc = .ok n →
    n ∈ hbg.graph.nodes ∧ hbg.getNodeLocation n = .ok loc
  thread : ∀ t ∈ hbg.tids, hbg.getThreadNodes t = .ok (threadOf t l)
  reaches : ∀ n n' loc loc', hbg.getNodeLocation n = .ok loc → hbg.getNodeLocation n' = .ok loc' →
    n ∈ hbg.graph.nodes → n' ∈ hbg.graph.nodes → n.tid = n'.tid →
    (hbg.graph.Reaches n n' ↔ loc.tindex < loc'.tindex)

variable {hbg : HBG}

theorem WellFormed.getThreadNodes_eq (h : hbg.WellFormed) {t : ThreadId} (ht : t ∈ hbg.tids) :
    hbg.getThreadNodes t = .ok (threadOf t hbg.nodes) := by
  have hmem : t ∈ hbg.nodesByThread := AList.mem_keys.mpr ht
  unfold getThreadNodes
  rw [pyGet_eq hmem [], h.byThread]

theorem WellFormed.getNodeByLocation_eq_ok (h : hbg.WellFormed) {loc : NodeLocation} {n : Node}
    (hn : hbg.getNodeByLocation loc = .ok n) :
    n ∈ hbg.nodes ∧ n.tid = loc.tid ∧ hbg.index n = loc.tindex := by
  obtain ⟨l, hl, hn⟩ := bind_eq_ok.mp hn
  have ht : loc.tid ∈ hbg.nodesByThread := by
    by_contra hno
    unfold pyGet at hl
    rw [AList.lookup_eq_none.mpr hno] at hl
    cases hl
  obtain rfl : threadOf loc.tid hbg.nodes = l :=
    Except.ok.inj ((h.getThreadNodes_eq (AList.mem_keys.mp ht)).symm.trans hl)
  cases hget : (threadOf loc.tid hbg.nodes)[loc.tindex]? with
  | none =>
    rw [hget] at hn
    cases hn
  | some m =>
    rw [hget] at hn
    cases hn
    obtain ⟨hmem, htid⟩ := mem_threadOf.mp (List.mem_of_getElem? hget)
    refine ⟨hmem, htid, ?_⟩
    obtain ⟨hlt, he⟩ := List.getElem?_eq_some_iff.mp hget
    unfold index
    rw [htid, ← he, (h.nodup_thread loc.tid).idxOf_getElem]

theorem WellFormed.located (h : hbg.WellFormed) : hbg.Located hbg.nodes where
  mem_graph := h.mem_graph
  nodeAt := by
    intro n hn
    have hmem := (h.mem_graph n).mp hn
    exact ⟨_, h.location n hmem, h.getNodeByLocation_eq hmem⟩
  locationOf := by
    intro loc n hn
    obtain ⟨hmem, ht, hi⟩ := h.getNodeByLocation_eq_ok hn
    refine ⟨(h.mem_graph n).mpr hmem, ?_⟩
    rw [h.location n hmem, ht, hi]
  thread := fun t ht => h.getThreadNodes_eq ht
  reaches := by
    intro n n' loc loc' hloc hloc' hn hn' ht
    have hmem := (h.mem_graph n).mp hn
    have hmem' := (h.mem_graph n').mp hn'
    rw [h.location n hmem] at hloc
    rw [h.location n' hmem'] at hloc'
    cases hloc
    cases hloc'
    constructor
    · intro hr
      exact ((h.dag_acyclic false).lt_of_reach (h.reaches_iff.mp hr) ht).2.2.2
    · exact h.reaches_of_index_lt hmem hmem' ht

end HBG

namespace HBGBuilder

variable {it : IntervalTreeApi} {b : HBGBuilder} {es : List (EpochNode × EpochNode)}
  {o : BuildOptions} {hbg : HBG}

theorem build_filtered (h : b.build it es o = .ok hbg) :
    ∃ b', b.filterIfAsked it o = .ok b' ∧ hbg.nodes = b'.nodes := by
  obtain ⟨b', hb', h⟩ := bind_eq_ok.mp h
  obtain ⟨g, -, h⟩ := bind_eq_ok.mp h
  obtain ⟨rfl, -⟩ := HBG.init_eq_ok h
  exact ⟨b', hb', rfl⟩

/-- The ends of the edges are nodes of the graph, whether they were added or not. -/
theorem build_endpoints_mem (h : b.build it es o = .ok hbg) {e : EpochNode × EpochNode}
    (he : e ∈ es) : Node.epoch e.1 ∈ hbg.graph.nodes ∧ Node.epoch e.2 ∈ hbg.graph.nodes := by
  have hedge := (build_edges h (.epoch e.1) (.epoch e.2) .interThread).mpr
    (Or.inl ⟨rfl, e, he, rfl, rfl⟩)
  exact hbg.graph.edges_mem _ hedge

/-- A built graph is located exactly when the edges only name epochs that were added. -/
theorem located_iff {calls : List BuilderCall} (hb : BuilderCall.run calls = .ok b)
    (h : b.build it es o = .ok hbg) (hes : ∀ e, e ∈ es ↔ e ∈ b.edges)
    (hdag : o.assertDag = true) :
    ∃ b', b.filterIfAsked it o = .ok b' ∧
      (hbg.Located b'.nodes ↔ BuilderCall.EdgesNameEpochs calls) := by
  obtain ⟨b', hb', hnodes⟩ := build_filtered h
  refine ⟨b', hb', ?_⟩
  rw [← hnodes, ← BuilderCall.endpointsAdded_iff hb]
  constructor
  · intro hlocated e he
    obtain ⟨p, g, -, hfilter, -⟩ := build_eq_ok h
    obtain ⟨hsrc, hdst⟩ := build_endpoints_mem h ((hes e).mpr he)
    rw [hlocated.mem_graph, hfilter, List.mem_filter] at hsrc hdst
    exact ⟨hsrc.1, hdst.1⟩
  · intro hend
    exact (build_wellFormed h hes hend hdag).located

/-- The edge names an epoch of thread 1, which was never added. -/
def danglingCalls : List BuilderCall := [.addEpochNode 0 1, .addHappensBeforeEdge 0 1 1 1]

def danglingBuilder : HBGBuilder :=
  ⟨[.epoch ⟨0, 1⟩], [(⟨0, 1⟩, ⟨1, 1⟩)], 0⟩

def danglingGraph : HBG :=
  (danglingBuilder.build listTrees danglingBuilder.edges .default).toOption.get (by rfl)

theorem located_iff_dangling :
    ∃ b', danglingBuilder.filterIfAsked listTrees .default = .ok b' ∧
      (danglingGraph.Located b'.nodes ↔ BuilderCall.EdgesNameEpochs danglingCalls) :=
  have hbuild :
      danglingBuilder.build listTrees danglingBuilder.edges .default = .ok danglingGraph :=
    rfl
  located_iff rfl hbuild (fun _ => Iff.rfl) rfl

/-- The graph has a node without a location. -/
theorem dangling_epoch_unlocated :
    BuilderCall.run danglingCalls = .ok danglingBuilder ∧
      danglingBuilder.build listTrees danglingBuilder.edges .default = .ok danglingGraph ∧
      Node.epoch ⟨1, 1⟩ ∈ danglingGraph.graph.nodes ∧
      danglingGraph.getNodeLocation (.epoch ⟨1, 1⟩) = .error .keyError ∧
      ¬ danglingGraph.Located danglingBuilder.nodes := by
  refine ⟨rfl, rfl, by decide, rfl, fun hlocated => ?_⟩
  obtain ⟨loc, hloc, -⟩ := hlocated.nodeAt (.epoch ⟨1, 1⟩) (by decide)
  cases hloc

end HBGBuilder

end Prd.Pycprd
