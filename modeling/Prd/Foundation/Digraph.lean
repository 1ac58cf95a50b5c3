import Mathlib.Data.Fintype.Basic
import Mathlib.Data.List.Basic
import Mathlib.Data.Set.Finite.Basic
import Mathlib.Logic.Relation
import Mathlib.Order.RelClasses
import Mathlib.Order.WellFounded

/-!
# Directed graphs that remember insertion order

Nodes and labelled edges are lists in insertion order. Adding an edge adds its
ends, and relabels the edge when it is there already. Acyclicity is decided by
repeatedly removing the nodes without a source among the remaining ones.
-/
namespace Prd.Foundation

open Relation

structure Digraph (V L : Type) where
  nodes : List V
  edges : List (V × V × L)
  edges_mem : ∀ e ∈ edges, e.1 ∈ nodes ∧ e.2.1 ∈ nodes

namespace Digraph

variable {V L : Type}

def empty : Digraph V L := ⟨[], [], by simp⟩

def HasEdge (g : Digraph V L) (u v : V) : Prop := ∃ l, (u, v, l) ∈ g.edges

/-- A nonempty path. -/
def Reaches (g : Digraph V L) : V → V → Prop := TransGen g.HasEdge

def Acyclic (g : Digraph V L) : Prop := ∀ v, ¬ g.Reaches v v

theorem not_hasEdge_empty (u v : V) : ¬ (empty : Digraph V L).HasEdge u v := by
  simp [HasEdge, empty]

variable {g : Digraph V L}

theorem HasEdge.mem {u v : V} (h : g.HasEdge u v) : u ∈ g.nodes ∧ v ∈ g.nodes := by
  obtain ⟨l, hl⟩ := h
  exact g.edges_mem _ hl

theorem Reaches.mem {u v : V} (h : g.Reaches u v) : u ∈ g.nodes ∧ v ∈ g.nodes := by
  induction h with
  | single h => exact h.mem
  | tail _ h ih => exact ⟨ih.1, h.mem.2⟩

/-- Every node comes after all its sources, given those already seen. -/
def SourcesFirst (g : Digraph V L) : List V → List V → Prop
  | _, [] => True
  | seen, x :: rest => (∀ e ∈ g.edges, e.2.1 = x → e.1 ∈ seen) ∧ g.SourcesFirst (seen ++ [x]) rest

/-- The orders a topological sort may yield. -/
structure IsTopological (g : Digraph V L) (order : List V) : Prop where
  nodup : order.Nodup
  mem_iff : ∀ v, v ∈ order ↔ v ∈ g.nodes
  sources : g.SourcesFirst [] order

theorem SourcesFirst.mem_of_hasEdge {seen pre post : List V} {x u : V}
    (h : g.SourcesFirst seen (pre ++ x :: post)) (he : g.HasEdge u x) : u ∈ seen ++ pre := by
  induction pre generalizing seen with
  | nil =>
    obtain ⟨l, hl⟩ := he
    simpa using h.1 _ hl rfl
  | cons y pre ih => simpa using ih h.2

theorem sourcesFirst_of_split {seen l : List V}
    (h : ∀ pre x rest, l = pre ++ x :: rest → ∀ e ∈ g.edges, e.2.1 = x → e.1 ∈ seen ++ pre) :
    g.SourcesFirst seen l := by
  induction l generalizing seen with
  | nil => trivial
  | cons x l ih =>
    refine ⟨fun e he hx => by simpa using h [] x l rfl e he hx, ih ?_⟩
    intro pre y rest hl e he hy
    have hsplit := h (x :: pre) y rest (by rw [hl]; rfl) e he hy
    simpa using hsplit

theorem IsTopological.mem_of_hasEdge {order pre post : List V} {x u : V}
    (h : g.IsTopological order) (ho : order = pre ++ x :: post) (he : g.HasEdge u x) : u ∈ pre := by
  have hs := h.sources
  rw [ho] at hs
  simpa using hs.mem_of_hasEdge he

theorem IsTopological.mem_of_reaches {order pre post : List V} {x u : V}
    (h : g.IsTopological order) (ho : order = pre ++ x :: post) (hr : g.Reaches u x) : u ∈ pre := by
  induction hr generalizing pre post with
  | single he => exact h.mem_of_hasEdge ho he
  | @tail y z _ he ih =>
    obtain ⟨a, b, rfl⟩ := List.append_of_mem (h.mem_of_hasEdge ho he)
    have hsplit : order = a ++ y :: (b ++ z :: post) := by rw [ho]; simp
    exact List.mem_append_left _ (ih hsplit)

/-- What a node reaches comes after it. -/
theorem IsTopological.mem_of_reaches' {order pre post : List V} {x y : V}
    (h : g.IsTopological order) (ho : order = pre ++ x :: post) (hr : g.Reaches x y) :
    y ∈ post := by
  have hy : y ∈ order := (h.mem_iff y).mpr hr.mem.2
  have hnd := h.nodup
  rw [ho] at hy hnd
  have hdisj := List.disjoint_of_nodup_append hnd
  rcases List.mem_append.mp hy with hy | hy
  · obtain ⟨c, d, hcd⟩ := List.append_of_mem hy
    have hpre : order = c ++ y :: (d ++ x :: post) := by rw [ho, hcd]; simp
    have hxc : x ∈ c := h.mem_of_reaches hpre hr
    exact absurd List.mem_cons_self (hdisj (by rw [hcd]; exact List.mem_append_left _ hxc))
  · rcases List.mem_cons.mp hy with rfl | hy
    · have hxy : y ∈ pre := h.mem_of_reaches ho hr
      exact absurd List.mem_cons_self (hdisj hxy)
    · exact hy

variable [DecidableEq V]

instance (g : Digraph V L) (seen rest : List V) : Decidable (g.SourcesFirst seen rest) :=
  go seen rest
where
  go : (seen rest : List V) → Decidable (g.SourcesFirst seen rest)
    | _, [] => inferInstanceAs (Decidable True)
    | seen, x :: rest =>
      have := go (seen ++ [x]) rest
      inferInstanceAs (Decidable (_ ∧ _))

def addNode (g : Digraph V L) (n : V) : Digraph V L :=
  if n ∈ g.nodes then g
  else ⟨g.nodes ++ [n], g.edges, fun e he =>
    ⟨List.mem_append_left _ (g.edges_mem e he).1, List.mem_append_left _ (g.edges_mem e he).2⟩⟩

@[simp] theorem mem_addNode (g : Digraph V L) (n m : V) :
    m ∈ (g.addNode n).nodes ↔ m ∈ g.nodes ∨ m = n := by
  unfold addNode
  split_ifs with h
  · exact ⟨Or.inl, fun hm => hm.elim id (fun he => he ▸ h)⟩
  · simp

@[simp] theorem edges_addNode (g : Digraph V L) (n : V) : (g.addNode n).edges = g.edges := by
  unfold addNode
  split_ifs <;> rfl

/-- An edge that is there keeps its place and takes the new label. -/
def addEdge (g : Digraph V L) (u v : V) (l : L) : Digraph V L where
  nodes := ((g.addNode u).addNode v).nodes
  edges :=
    if g.edges.any (fun e => e.1 == u && e.2.1 == v) then
      g.edges.map (fun e => if e.1 = u ∧ e.2.1 = v then (u, v, l) else e)
    else g.edges ++ [(u, v, l)]
  edges_mem := by
    have hold : ∀ e ∈ g.edges, e.1 ∈ ((g.addNode u).addNode v).nodes ∧
        e.2.1 ∈ ((g.addNode u).addNode v).nodes := by
      intro e he
      have hm := g.edges_mem e he
      simp [hm.1, hm.2]
    intro e he
    split_ifs at he
    · obtain ⟨e', he', rfl⟩ := List.mem_map.mp he
      split_ifs
      · simp
      · exact hold e' he'
    · rcases List.mem_append.mp he with he | he
      · exact hold e he
      · rw [List.mem_singleton.mp he]
        simp

section Map

variable {W : Type} [DecidableEq W]

/-- The graph with other nodes in the place of its own. -/
def map (f : V → W) (g : Digraph V L) : Digraph W L where
  nodes := g.nodes.map f
  edges := g.edges.map fun e => (f e.1, f e.2.1, e.2.2)
  edges_mem := by
    intro e he
    obtain ⟨e', he', rfl⟩ := List.mem_map.mp he
    have hm := g.edges_mem e' he'
    exact ⟨List.mem_map_of_mem hm.1, List.mem_map_of_mem hm.2⟩

variable {f : V → W}

end Map

@[simp] theorem mem_nodes_addEdge (g : Digraph V L) (u v m : V) (l : L) :
    m ∈ (g.addEdge u v l).nodes ↔ m ∈ g.nodes ∨ m = u ∨ m = v := by
  unfold addEdge
  simp [or_assoc]

theorem mem_edges_addEdge (g : Digraph V L) (u v : V) (l : L) (e : V × V × L) :
    e ∈ (g.addEdge u v l).edges ↔ e = (u, v, l) ∨ e ∈ g.edges ∧ ¬ (e.1 = u ∧ e.2.1 = v) := by
  unfold addEdge
  simp only
  split_ifs with h
  · obtain ⟨e₀, he₀, hm⟩ := List.any_eq_true.mp h
    have hm : e₀.1 = u ∧ e₀.2.1 = v := by simpa using hm
    rw [List.mem_map]
    constructor
    · rintro ⟨e', he', rfl⟩
      split_ifs with hc
      · exact Or.inl rfl
      · exact Or.inr ⟨he', hc⟩
    · rintro (rfl | ⟨he, hc⟩)
      · exact ⟨e₀, he₀, if_pos hm⟩
      · exact ⟨e, he, if_neg hc⟩
  · rw [List.mem_append, List.mem_singleton]
    constructor
    · rintro (he | he)
      · refine Or.inr ⟨he, fun hc => h (List.any_eq_true.mpr ⟨e, he, ?_⟩)⟩
        simpa using hc
      · exact Or.inl he
    · rintro (he | ⟨he, _⟩)
      · exact Or.inr he
      · exact Or.inl he

theorem hasEdge_addEdge (g : Digraph V L) (u v : V) (l : L) (a b : V) :
    (g.addEdge u v l).HasEdge a b ↔ g.HasEdge a b ∨ a = u ∧ b = v := by
  unfold HasEdge
  simp only [mem_edges_addEdge, Prod.mk.injEq]
  constructor
  · intro h
    obtain ⟨m, ⟨ha, hb, -⟩ | ⟨he, -⟩⟩ := h
    · exact Or.inr ⟨ha, hb⟩
    · exact Or.inl ⟨m, he⟩
  · intro h
    by_cases hab : a = u ∧ b = v
    · exact ⟨l, Or.inl ⟨hab.1, hab.2, rfl⟩⟩
    · obtain ⟨m, he⟩ := h.resolve_right hab
      exact ⟨m, Or.inr ⟨he, hab⟩⟩

/-- The heads of the edges out of `u` with an accepted label, in insertion order. -/
def successors (g : Digraph V L) (p : L → Bool) (u : V) : List V :=
  (g.edges.filter fun e => e.1 == u && p e.2.2).map fun e => e.2.1

def predecessors (g : Digraph V L) (p : L → Bool) (v : V) : List V :=
  (g.edges.filter fun e => e.2.1 == v && p e.2.2).map fun e => e.1

theorem mem_successors {p : L → Bool} {u v : V} :
    v ∈ g.successors p u ↔ ∃ l, (u, v, l) ∈ g.edges ∧ p l = true := by
  simp only [successors, List.mem_map, List.mem_filter, Bool.and_eq_true, beq_iff_eq]
  constructor
  · rintro ⟨⟨a, b, l⟩, ⟨he, rfl, hp⟩, rfl⟩
    exact ⟨l, he, hp⟩
  · rintro ⟨l, he, hp⟩
    exact ⟨(u, v, l), ⟨he, rfl, hp⟩, rfl⟩

theorem mem_predecessors {p : L → Bool} {u v : V} :
    u ∈ g.predecessors p v ↔ v ∈ g.successors p u := by
  rw [mem_successors]
  simp only [predecessors, List.mem_map, List.mem_filter, Bool.and_eq_true, beq_iff_eq]
  constructor
  · rintro ⟨⟨a, b, l⟩, ⟨he, rfl, hp⟩, rfl⟩
    exact ⟨l, he, hp⟩
  · rintro ⟨l, he, hp⟩
    exact ⟨(u, v, l), ⟨he, rfl, hp⟩, rfl⟩

/-- One round of the acyclicity test keeps the nodes with a remaining source. -/
def peel (g : Digraph V L) (rest : List V) : List V :=
  rest.filter fun v => g.edges.any fun e => e.2.1 == v && decide (e.1 ∈ rest)

def isDirectedAcyclicGraph (g : Digraph V L) : Bool :=
  (g.peel^[g.nodes.length] g.nodes).isEmpty

theorem mem_peel {rest : List V} {v : V} :
    v ∈ g.peel rest ↔ v ∈ rest ∧ ∃ u ∈ rest, g.HasEdge u v := by
  simp only [peel, List.mem_filter, List.any_eq_true, Bool.and_eq_true, beq_iff_eq,
    decide_eq_true_eq]
  constructor
  · rintro ⟨hv, ⟨u, w, l⟩, he, rfl, hu⟩
    exact ⟨hv, u, hu, l, he⟩
  · rintro ⟨hv, u, hu, l, he⟩
    exact ⟨hv, (u, v, l), he, rfl, hu⟩

theorem mem_peel_of_cycle {u v : V} (hu : g.Reaches v u ∧ g.Reaches u v) (k : ℕ) :
    u ∈ g.peel^[k] g.nodes := by
  induction k generalizing u with
  | zero => exact hu.1.mem.2
  | succ k ih =>
    rw [Function.iterate_succ_apply', mem_peel]
    refine ⟨ih hu, ?_⟩
    -- the cycle through `u` enters it from a node that is on the cycle as well
    obtain ⟨w, hw, he⟩ := TransGen.tail'_iff.mp hu.1
    have hvu : g.Reaches v v := hu.1.trans hu.2
    rcases reflTransGen_iff_eq_or_transGen.mp hw with rfl | hvw
    · exact ⟨w, ih ⟨hvu, hvu⟩, he⟩
    · exact ⟨w, ih ⟨hvw, (TransGen.single he).trans hu.2⟩, he⟩

theorem length_peel_lt (hg : g.Acyclic) {rest : List V} (hne : rest ≠ []) :
    (g.peel rest).length < rest.length := by
  have : IsTrans {v // v ∈ rest} (fun a b => g.Reaches a b) := ⟨fun _ _ _ h h' => h.trans h'⟩
  have : Std.Irrefl (fun a b : {v // v ∈ rest} => g.Reaches a b) := ⟨fun a => hg a⟩
  have hwf : WellFounded (fun a b : {v // v ∈ rest} => g.Reaches a b) :=
    Finite.wellFounded_of_trans_of_irrefl _
  obtain ⟨x, hx⟩ := List.exists_mem_of_ne_nil rest hne
  obtain ⟨m, -, hmin⟩ := hwf.has_min Set.univ ⟨⟨x, hx⟩, trivial⟩
  unfold peel
  refine List.length_filter_lt_length_iff_exists.mpr ⟨m, m.2, fun hm => ?_⟩
  obtain ⟨-, u, hu, he⟩ := mem_peel.mp (List.mem_filter.mpr ⟨m.2, hm⟩)
  exact hmin ⟨u, hu⟩ trivial (TransGen.single he)

theorem length_iterate_peel_le (hg : g.Acyclic) (k : ℕ) :
    (g.peel^[k] g.nodes).length ≤ g.nodes.length - k := by
  induction k with
  | zero => exact le_rfl
  | succ k ih =>
    rw [Function.iterate_succ_apply']
    rcases eq_or_ne (g.peel^[k] g.nodes) [] with hnil | hne
    · rw [hnil]
      exact Nat.zero_le _
    · have hlt := length_peel_lt hg hne
      omega

theorem isDirectedAcyclicGraph_empty : (empty : Digraph V L).isDirectedAcyclicGraph = true := rfl

theorem isDirectedAcyclicGraph_iff (g : Digraph V L) :
    g.isDirectedAcyclicGraph = true ↔ g.Acyclic := by
  unfold isDirectedAcyclicGraph
  rw [List.isEmpty_iff]
  constructor
  · intro h v hv
    have hm := mem_peel_of_cycle ⟨hv, hv⟩ g.nodes.length
    rw [h] at hm
    cases hm
  · intro hg
    have hle := length_iterate_peel_le hg g.nodes.length
    exact List.length_eq_zero_iff.mp (by omega)

end Digraph

end Prd.Foundation
