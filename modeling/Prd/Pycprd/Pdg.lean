import Prd.Foundation.Digraph
import Prd.Pycprd.Nodes

/-!
# The program dependency graph

An edge from a write to a read says that the write may depend on what was read.
-/
namespace Prd.Pycprd

open Prd.Foundation

/-- Construction checks that the graph is acyclic. -/
structure PDG where
  graph : Digraph InstructionNode Unit
  isDag : graph.isDirectedAcyclicGraph = true

namespace PDG

def ofGraph (g : Digraph InstructionNode Unit) : Py PDG :=
  if h : g.isDirectedAcyclicGraph = true then pure ⟨g, h⟩
  else throw (.assertionError "PDG graph is not a DAG")

theorem ofGraph_eq_ok {g : Digraph InstructionNode Unit} {pdg : PDG} (h : ofGraph g = .ok pdg) :
    pdg.graph = g := by
  unfold ofGraph at h
  split_ifs at h
  cases h
  rfl

def getDependencies (pdg : PDG) (writeNode : InstructionNode) : List InstructionNode :=
  pdg.graph.successors (fun _ => true) writeNode

def getDependants (pdg : PDG) (readNode : InstructionNode) : List InstructionNode :=
  pdg.graph.predecessors (fun _ => true) readNode

theorem mem_getDependencies {pdg : PDG} {d r : InstructionNode} :
    r ∈ pdg.getDependencies d ↔ pdg.graph.HasEdge d r := by
  unfold getDependencies
  rw [Digraph.mem_successors]
  exact ⟨fun ⟨l, he, _⟩ => ⟨l, he⟩, fun ⟨l, he⟩ => ⟨l, he, rfl⟩⟩

theorem mem_getDependants {pdg : PDG} {d r : InstructionNode} :
    d ∈ pdg.getDependants r ↔ pdg.graph.HasEdge d r :=
  Digraph.mem_predecessors.trans mem_getDependencies

end PDG

structure PDGBuilder where
  graph : Digraph InstructionNode Unit
  dependencies : Dict ℕ (List ℕ)

namespace PDGBuilder

def new : PDGBuilder := ⟨.empty, ∅⟩

def addDependency (b : PDGBuilder) (writeNode readNode : InstructionNode) : Py PDGBuilder := do
  pyAssert (writeNode.itype == .write) "expected a write node"
  pyAssert (readNode.itype == .read) "expected a read node"
  pyAssert (writeNode.tid == readNode.tid) "expected tids to be the same"
  pure { b with graph := b.graph.addEdge writeNode readNode () }

def addDependencyPc (b : PDGBuilder) (writeNodePc readNodePc : ℕ) : PDGBuilder :=
  let reads := (b.dependencies.getD writeNodePc []).insert readNodePc
  { b with dependencies := b.dependencies.insert writeNodePc reads }

end PDGBuilder

end Prd.Pycprd
