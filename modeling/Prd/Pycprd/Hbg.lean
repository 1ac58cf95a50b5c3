import Prd.Foundation.Digraph
import Prd.Pycprd.DaisyChain

/-!
# The happens-before graph and its builder

The builder lists nodes in the order of the trace and keeps the inter-thread edges
in a set. Building links the nodes of every thread into a chain, adds the edges in
the order in which the set happens to be iterated, and checks the result.
-/
namespace Prd.Pycprd

open Prd.Foundation

inductive EdgeType
  | interThread
  | intraThread
  deriving DecidableEq, Repr

structure NodeLocation where
  tid : ThreadId
  tindex : ℕ
  deriving DecidableEq, Repr

structure HBG where
  graph : Digraph Node EdgeType
  nodes : List Node
  nodesByThread : Dict ThreadId (List Node)
  nodesByType : Dict NodeType (List Node)
  nodesLocation : Dict Node NodeLocation
  cachelineSize : ℕ
  daisyChains : Option DaisyChains

namespace HBG

def tids (hbg : HBG) : List ThreadId := hbg.nodesByThread.keys

def getNodeByLocation (hbg : HBG) (location : NodeLocation) : Py Node := do
  let threadNodes ← pyGet hbg.nodesByThread location.tid
  match threadNodes[location.tindex]? with
  | some n => pure n
  | none => throw .indexError

def getNodeLocation (hbg : HBG) (node : Node) : Py NodeLocation := pyGet hbg.nodesLocation node

def getThreadNodes (hbg : HBG) (tid : ThreadId) : Py (List Node) := pyGet hbg.nodesByThread tid

def getInterChildren (hbg : HBG) (node : Node) : List Node :=
  hbg.graph.successors (· == .interThread) node

def getInterParents (hbg : HBG) (node : Node) : List Node :=
  hbg.graph.predecessors (· == .interThread) node

def getNodesByType (hbg : HBG) (itype : NodeType) : List Node := hbg.nodesByType.getD itype []

def readWriteNodes (hbg : HBG) : List Node := hbg.getNodesByType .read ∪ hbg.getNodesByType .write

def hexDigits (a : ℕ) : String := "0x" ++ String.ofList (Nat.toDigits 16 a)

/-- The check of `_find_vars`; its tables of variables are not kept. -/
def findVars (hbg : HBG) : Py Unit :=
  hbg.readWriteNodes.forM fun
    | .epoch _ => pure ()
    | .instruction n => do
      let address := n.address
      let size := n.size
      let nextCachelineAddress :=
        getCachelineAddress address hbg.cachelineSize + hbg.cachelineSize
      pyAssert (n.interval.2 ≤ nextCachelineAddress)
        s!"Variable at {hexDigits address} of size {size} crosses a cacheline"

/-- The checks that construction makes. -/
def init (hbg : HBG) (assertDag : Bool) : Py HBG := do
  hbg.findVars
  if assertDag then
    pyAssert hbg.graph.isDirectedAcyclicGraph "HBG graph is not a DAG"
  pure hbg

end HBG

/-- The interval tree package, as far as the filter uses it. -/
structure IntervalTreeApi where
  Tree : Type
  empty : Tree
  addi : Tree → ℕ → ℕ → Py Tree
  mergeOverlaps : Tree → Tree
  envelop : Tree → ℕ → ℕ → List (ℕ × ℕ)
  overlapsRange : Tree → ℕ → ℕ → Bool

/-- Instruction nodes get their identity from a counter of the builder. -/
structure HBGBuilder where
  nodes : List Node
  edges : List (EpochNode × EpochNode)
  nextIdent : ℕ

/-- What `_add_node` builds up, which is empty until `build` is called. -/
structure ThreadTables where
  graph : Digraph Node EdgeType
  threadTails : Dict ThreadId Node
  nodesByThread : Dict ThreadId (List Node)
  nodesByType : Dict NodeType (List Node)
  nodesLocation : Dict Node NodeLocation

namespace ThreadTables

def new : ThreadTables := ⟨.empty, ∅, ∅, ∅, ∅⟩

def addNode (s : ThreadTables) (node : Node) : ThreadTables :=
  let threadNodes := s.nodesByThread.getD node.tid []
  let graph := s.graph.addNode node
  { graph := match s.threadTails.lookup node.tid with
      | some tail => graph.addEdge tail node .intraThread
      | none => graph
    threadTails := s.threadTails.insert node.tid node
    nodesByThread := s.nodesByThread.insert node.tid (threadNodes ++ [node])
    nodesByType := s.nodesByType.insert node.itype
      ((s.nodesByType.getD node.itype []).insert node)
    nodesLocation := s.nodesLocation.insert node ⟨node.tid, threadNodes.length⟩ }

end ThreadTables

namespace HBGBuilder

def new : HBGBuilder := ⟨[], [], 0⟩

def addEpochNode (b : HBGBuilder) (tid : ThreadId) (epoch : ℤ) : HBGBuilder :=
  { b with nodes := b.nodes ++ [.epoch ⟨tid, epoch⟩] }

def addInstructionNode (b : HBGBuilder) (itype : NodeType) (tid : ThreadId)
    (pc address size : ℕ) (info : Info) (traceLineNumber : Option ℕ)
    (isAtomic isNonTemporal : Bool) (eventId : Option ℕ) :
    Py (InstructionNode × HBGBuilder) := do
  let n ← createInstructionNode b.nextIdent itype tid pc address size isAtomic isNonTemporal info
    traceLineNumber eventId
  pure (n, { b with nodes := b.nodes ++ [.instruction n], nextIdent := b.nextIdent + 1 })

def addHappensBeforeEdge (b : HBGBuilder) (srcTid : ThreadId) (srcEpoch : ℤ) (dstTid : ThreadId)
    (dstEpoch : ℤ) : HBGBuilder :=
  { b with edges := b.edges.insert (⟨srcTid, srcEpoch⟩, ⟨dstTid, dstEpoch⟩) }

/-- The filter on reads and writes, given the two trees of intervals. -/
def shouldKeep (it : IntervalTreeApi) (keepTree ignoreTree : it.Tree) : Node → Bool
  | .epoch _ => true
  | .instruction n =>
    if n.itype.isReadWriteType then
      if it.envelop ignoreTree n.interval.1 n.interval.2 ≠ [] then false
      else it.overlapsRange keepTree n.interval.1 n.interval.2
    else true

def filterVolatileNodes (it : IntervalTreeApi) (b : HBGBuilder) (pmemRange : Option (ℕ × ℕ))
    (ignoreRanges : List (ℕ × ℕ)) : Py HBGBuilder := do
  let flushes := b.nodes.filterMap fun
    | .epoch _ => none
    | .instruction n => if n.itype = .flush then some n.interval else none
  let keepRanges : List (ℕ × ℕ) := match pmemRange with
    | some range => [range]
    | none => flushes
  let keepTree ← keepRanges.foldlM (fun tree r => it.addi tree r.1 r.2) it.empty
  let keepTree := it.mergeOverlaps keepTree
  let ignoreTree ← ignoreRanges.foldlM (fun tree r => it.addi tree r.1 r.2) it.empty
  pure { b with nodes := b.nodes.filter (shouldKeep it keepTree ignoreTree) }

def addHappensBeforeEdges :
    List (EpochNode × EpochNode) → Digraph Node EdgeType → Py (Digraph Node EdgeType)
  | [], g => pure g
  | (src, dst) :: es, g => do
    pyAssert (src.tid != dst.tid) "TIDs must be different"
    addHappensBeforeEdges es (g.addEdge (.epoch src) (.epoch dst) .interThread)

/-- The size of the first flush. -/
def flushSize (l : List Node) : Option ℕ :=
  l.findSome? fun
    | .epoch _ => none
    | .instruction n => if n.itype = .flush then some n.size else none

structure BuildOptions where
  filterVolatileNodes : Bool
  pmemRange : Option (ℕ × ℕ)
  makeDaisyChains : Bool
  ignoreRanges : List (ℕ × ℕ)
  assertDag : Bool

/-- The options of `TraceParser.build_hbg` without ranges. -/
def BuildOptions.default : BuildOptions := ⟨false, none, true, [], true⟩

/-- The first step of `build`. -/
def filterIfAsked (it : IntervalTreeApi) (b : HBGBuilder) (o : BuildOptions) : Py HBGBuilder :=
  if o.filterVolatileNodes then b.filterVolatileNodes it o.pmemRange o.ignoreRanges else pure b

/-- `edgeOrder` is the order in which the set of edges is iterated. -/
def build (it : IntervalTreeApi) (b : HBGBuilder) (edgeOrder : List (EpochNode × EpochNode))
    (o : BuildOptions) : Py HBG := do
  let b ← b.filterIfAsked it o
  let tables := b.nodes.foldl ThreadTables.addNode .new
  let daisyChains :=
    if o.makeDaisyChains then some (b.nodes.foldl DaisyChains.addNode .new) else none
  let graph ← addHappensBeforeEdges edgeOrder tables.graph
  let hbg : HBG :=
    { graph := graph
      nodes := b.nodes
      nodesByThread := tables.nodesByThread
      nodesByType := tables.nodesByType
      nodesLocation := tables.nodesLocation
      cachelineSize := (flushSize b.nodes).getD defaultCachelineSize
      daisyChains := daisyChains }
  hbg.init o.assertDag

/-- Every end of an inter-thread edge was added as an epoch node. -/
def EndpointsAdded (b : HBGBuilder) : Prop :=
  ∀ e ∈ b.edges, Node.epoch e.1 ∈ b.nodes ∧ Node.epoch e.2 ∈ b.nodes

instance (b : HBGBuilder) : Decidable b.EndpointsAdded :=
  inferInstanceAs (Decidable (∀ e ∈ b.edges, _ ∧ _))

end HBGBuilder

end Prd.Pycprd
