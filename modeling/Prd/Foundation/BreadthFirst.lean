import Mathlib.Order.Lattice.Nat
import Prd.Foundation.Digraph

/-!
# Breadth-first orders

A breadth-first search takes the nodes that a node reaches into a queue. The node
at the head of the queue brings in the nodes that its edges lead to, in the order in
which the edges were added. So the nodes are met by the number of edges of a
shortest path, and those at the same distance in the order of the first nodes that
lead to them.
-/
namespace Prd.Foundation.Digraph

open Relation

variable {V L : Type} {g : Digraph V L}

/-- A path of so many edges. -/
inductive Walk (g : Digraph V L) : ℕ → V → V → Prop
  | nil (v : V) : Walk g 0 v v
  | cons {n : ℕ} {u v w : V} : g.HasEdge u v → Walk g n v w → Walk g (n + 1) u w

theorem Walk.trans {m n : ℕ} {u v w : V} (h : g.Walk m u v) (h' : g.Walk n v w) :
    g.Walk (m + n) u w := by
  induction h with
  | nil _ => rwa [Nat.zero_add]
  | cons he _ ih =>
    rw [Nat.succ_add_eq_add_succ]
    exact .cons he (ih h')

/-- The last edge of a path. -/
theorem Walk.exists_last {n : ℕ} {u w : V} (h : g.Walk (n + 1) u w) :
    ∃ v, g.Walk n u v ∧ g.HasEdge v w := by
  induction n generalizing u with
  | zero =>
    obtain _ | ⟨he, hw⟩ := h
    obtain _ | _ := hw
    exact ⟨u, .nil u, he⟩
  | succ n ih =>
    obtain _ | ⟨he, hw⟩ := h
    obtain ⟨v, hv, hlast⟩ := ih hw
    exact ⟨v, .cons he hv, hlast⟩

theorem Walk.eq_of_zero {u v : V} (h : g.Walk 0 u v) : u = v := by
  obtain _ | _ := h
  rfl

theorem Walk.reaches {n : ℕ} {u v : V} (h : g.Walk (n + 1) u v) : g.Reaches u v := by
  induction n generalizing v with
  | zero =>
    obtain ⟨x, hx, he⟩ := h.exists_last
    exact .single (hx.eq_of_zero ▸ he)
  | succ n ih =>
    obtain ⟨x, hx, he⟩ := h.exists_last
    exact (ih hx).tail he

theorem Walk.of_reaches {u v : V} (h : g.Reaches u v) : ∃ n, g.Walk n u v := by
  induction h with
  | single he => exact ⟨1, .cons he (.nil _)⟩
  | tail _ he ih =>
    obtain ⟨n, hn⟩ := ih
    exact ⟨n + 1, hn.trans (.cons he (.nil _))⟩

/-- The number of edges of a shortest path. -/
noncomputable def hops (g : Digraph V L) (u v : V) : ℕ := sInf {n | g.Walk n u v}

theorem hops_le {n : ℕ} {u v : V} (h : g.Walk n u v) : g.hops u v ≤ n := Nat.sInf_le h

theorem hops_self (v : V) : g.hops v v = 0 := Nat.le_zero.mp (hops_le (.nil v))

/-- A shortest path. -/
theorem walk_hops {n : ℕ} {u v : V} (h : g.Walk n u v) : g.Walk (g.hops u v) u v := by
  have hne : {n | g.Walk n u v}.Nonempty := ⟨n, h⟩
  exact Nat.sInf_mem hne

theorem hops_le_succ {n : ℕ} {u v w : V} (h : g.Walk n u v) (he : g.HasEdge v w) :
    g.hops u w ≤ g.hops u v + 1 :=
  hops_le ((walk_hops h).trans (.cons he (.nil _)))

/-- The graph with its edges turned round. -/
def reverse (g : Digraph V L) : Digraph V L where
  nodes := g.nodes
  edges := g.edges.map fun e => (e.2.1, e.1, e.2.2)
  edges_mem := by
    intro e he
    obtain ⟨e', he', rfl⟩ := List.mem_map.mp he
    exact (g.edges_mem e' he').symm

theorem hasEdge_reverse {u v : V} : g.reverse.HasEdge u v ↔ g.HasEdge v u := by
  constructor
  · intro h
    obtain ⟨l, hl⟩ := h
    obtain ⟨e, he, heq⟩ := List.mem_map.mp hl
    cases heq
    exact ⟨_, he⟩
  · intro h
    obtain ⟨l, hl⟩ := h
    exact ⟨l, List.mem_map.mpr ⟨_, hl, rfl⟩⟩

theorem reaches_reverse {u v : V} : g.reverse.Reaches u v ↔ g.Reaches v u := by
  unfold Reaches
  rw [← transGen_swap]
  have hedge : g.reverse.HasEdge = Function.swap g.HasEdge := by
    ext x y
    exact hasEdge_reverse
  rw [hedge]

theorem notMem_left_of_nodup {l l' : List V} {v : V} (h : (l ++ v :: l').Nodup) : v ∉ l := by
  intro hv
  exact List.disjoint_of_nodup_append h hv List.mem_cons_self

section Order

variable [DecidableEq V]

/-- The first element stands before the second one. -/
def Precedes (l : List V) (u v : V) : Prop := l.idxOf u < l.idxOf v

instance (l : List V) (u v : V) : Decidable (Precedes l u v) := Nat.decLt _ _

theorem Precedes.mem_left {l : List V} {u v : V} (h : Precedes l u v) : u ∈ l :=
  List.idxOf_lt_length_iff.mp (lt_of_lt_of_le h List.idxOf_le_length)

theorem not_precedes_head (l : List V) (u v : V) : ¬ Precedes (v :: l) u v := by
  unfold Precedes
  rw [List.idxOf_cons_self]
  exact Nat.not_lt_zero _

theorem precedes_or {l : List V} {u v : V} (hu : u ∈ l) (hne : u ≠ v) :
    Precedes l u v ∨ Precedes l v u := by
  rcases lt_trichotomy (l.idxOf u) (l.idxOf v) with h | h | h
  · exact Or.inl h
  · exact absurd ((List.idxOf_inj hu).mp h) hne
  · exact Or.inr h

theorem precedes_append_iff {l l' : List V} {u v : V} (hv : v ∈ l) :
    Precedes (l ++ l') u v ↔ Precedes l u v := by
  unfold Precedes
  have hlt := List.idxOf_lt_length_of_mem hv
  rw [List.idxOf_append_of_mem hv]
  by_cases hu : u ∈ l
  · rw [List.idxOf_append_of_mem hu]
  · rw [List.idxOf_append_of_notMem hu, List.idxOf_eq_length hu]
    omega

theorem precedes_append {l l' : List V} {u v : V} (hu : u ∈ l) (hv : v ∉ l) :
    Precedes (l ++ l') u v := by
  unfold Precedes
  have hlt := List.idxOf_lt_length_of_mem hu
  rw [List.idxOf_append_of_mem hu, List.idxOf_append_of_notMem hv]
  omega

/-- Where the edges of a node lead, in the order in which they were added. -/
def targets (g : Digraph V L) (u : V) : List V :=
  (g.edges.filter fun e => e.1 = u).map fun e => e.2.1

theorem mem_targets {u v : V} : v ∈ g.targets u ↔ g.HasEdge u v := by
  unfold targets HasEdge
  rw [List.mem_map]
  constructor
  · intro h
    obtain ⟨⟨x, y, l⟩, he, rfl⟩ := h
    obtain ⟨he, hx⟩ := List.mem_filter.mp he
    exact ⟨l, of_decide_eq_true hx ▸ he⟩
  · intro h
    obtain ⟨l, hl⟩ := h
    exact ⟨_, List.mem_filter.mpr ⟨hl, decide_eq_true rfl⟩, rfl⟩

/-- Some edge to the first target is looked at before that edge of the node to the second. -/
def EntersFirst (g : Digraph V L) (met : List V) (x u v : V) : Prop :=
  ∃ y, g.HasEdge y u ∧ (Precedes met y x ∨ y = x ∧ Precedes (g.targets x) u v)

/-- The order in which the queue of a breadth-first search takes the nodes in. -/
structure IsBreadthFirst (g : Digraph V L) (source : V) (order : List V) : Prop where
  nodup : (source :: order).Nodup
  closed : ∀ u ∈ source :: order, ∀ v, g.HasEdge u v → v ∈ source :: order
  entered : ∀ v ∈ order, ∃ u, g.HasEdge u v ∧ Precedes (source :: order) u v
  queued : ∀ u ∈ order, ∀ v ∈ order, Precedes (source :: order) u v →
    ∀ x ∈ source :: order, g.HasEdge x v → g.EntersFirst (source :: order) x u v

/-- Among the nodes that are so many edges away, the one whose first node on the level before comes
first is ahead, and of two with the same such node the one to which the edge was added first. -/
def Ahead (g : Digraph V L) (source : V) : ℕ → V → V → Prop
  | 0, _, _ => False
  | n + 1, u, v => ∃ x, g.Walk n source x ∧ g.HasEdge x u ∧ ∀ y, g.Walk n source y →
      g.HasEdge y v → Ahead g source n x y ∨ x = y ∧ Precedes (g.targets x) u v

/-- The first node is nearer, or as near and ahead. -/
def MetBefore (g : Digraph V L) (source u v : V) : Prop :=
  g.hops source u < g.hops source v ∨
    g.hops source u = g.hops source v ∧ g.Ahead source (g.hops source v) u v

theorem Ahead.asymm {source u v : V} {n : ℕ} (h : g.Ahead source n u v) :
    ¬ g.Ahead source n v u := by
  induction n generalizing u v with
  | zero => exact absurd h id
  | succ n ih =>
    intro h'
    obtain ⟨x, hx, hxu, hfirst⟩ := h
    obtain ⟨y, hy, hyv, hfirst'⟩ := h'
    rcases hfirst y hy hyv with hxy | ⟨rfl, hlt⟩
    · rcases hfirst' x hx hxu with hyx | ⟨rfl, -⟩
      · exact ih hxy hyx
      · exact ih hxy hxy
    · rcases hfirst' x hx hxu with hxx | ⟨-, hgt⟩
      · exact ih hxx hxx
      · exact lt_asymm hlt hgt

theorem MetBefore.asymm {source u v : V} (h : g.MetBefore source u v) :
    ¬ g.MetBefore source v u := by
  intro h'
  rcases h with hlt | ⟨heq, hahead⟩
  · rcases h' with hgt | ⟨heq, -⟩
    · omega
    · omega
  · rcases h' with hgt | ⟨-, hahead'⟩
    · omega
    · rw [heq] at hahead'
      exact hahead.asymm hahead'

namespace IsBreadthFirst

variable {source u v : V} {order : List V}

theorem mem_of_walk (h : g.IsBreadthFirst source order) {n : ℕ} (hw : g.Walk n source v) :
    v ∈ source :: order := by
  induction n generalizing v with
  | zero => exact hw.eq_of_zero ▸ List.mem_cons_self
  | succ n ih =>
    obtain ⟨x, hx, he⟩ := hw.exists_last
    exact h.closed x (ih hx) v he

/-- The place of a node is what the induction is on, as it was entered from an earlier one. -/
theorem exists_walk (h : g.IsBreadthFirst source order) (hv : v ∈ source :: order) :
    ∃ n, g.Walk n source v := by
  induction hn : (source :: order).idxOf v using Nat.strong_induction_on generalizing v with
  | h n ih =>
    subst hn
    rcases List.mem_cons.mp hv with rfl | hv
    · exact ⟨0, .nil _⟩
    · obtain ⟨u, he, hlt⟩ := h.entered v hv
      obtain ⟨m, hm⟩ := ih _ hlt hlt.mem_left rfl
      exact ⟨m + 1, hm.trans (.cons he (.nil _))⟩

theorem ne_source (h : g.IsBreadthFirst source order) (hv : v ∈ order) : v ≠ source := by
  rintro rfl
  exact (List.nodup_cons.mp h.nodup).1 hv

theorem mem_iff (h : g.IsBreadthFirst source order) (v : V) :
    v ∈ order ↔ g.Reaches source v ∧ v ≠ source := by
  constructor
  · intro hv
    have hne := h.ne_source hv
    obtain ⟨n, hn⟩ := h.exists_walk (List.mem_cons_of_mem _ hv)
    cases n with
    | zero => exact absurd hn.eq_of_zero.symm hne
    | succ n => exact ⟨hn.reaches, hne⟩
  · intro hv
    obtain ⟨n, hn⟩ := Walk.of_reaches hv.1
    exact (List.mem_cons.mp (h.mem_of_walk hn)).resolve_left hv.2

theorem mem_order_of_precedes (hv : v ∈ source :: order) (huv : Precedes (source :: order) u v) :
    v ∈ order := by
  rcases List.mem_cons.mp hv with rfl | hv
  · exact absurd huv (not_precedes_head _ _ _)
  · exact hv

theorem hops_le_of_walk (h : g.IsBreadthFirst source order) (hv : v ∈ source :: order)
    (huv : Precedes (source :: order) u v) {n : ℕ} (hw : g.Walk n source v) :
    g.hops source u ≤ n := by
  induction n generalizing u v with
  | zero =>
    rw [← hw.eq_of_zero] at huv
    exact absurd huv (not_precedes_head _ _ _)
  | succ n ih =>
    rcases List.mem_cons.mp huv.mem_left with rfl | hu
    · rw [hops_self]
      exact Nat.zero_le _
    · obtain ⟨x, hx, hxv⟩ := hw.exists_last
      have hxmem := h.mem_of_walk hx
      obtain ⟨y, hyu, hyx⟩ :=
        h.queued u hu v (mem_order_of_precedes hv huv) huv x hxmem hxv
      have hy : g.hops source y ≤ n ∧ y ∈ source :: order := by
        rcases hyx with hyx | ⟨rfl, -⟩
        · exact ⟨ih hxmem hyx hx, hyx.mem_left⟩
        · exact ⟨hops_le hx, hxmem⟩
      obtain ⟨m, hm⟩ := h.exists_walk hy.2
      exact (hops_le_succ hm hyu).trans (Nat.add_le_add_right hy.1 1)

/-- Nodes are met by distance. -/
theorem hops_le (h : g.IsBreadthFirst source order) (hv : v ∈ source :: order)
    (huv : Precedes (source :: order) u v) : g.hops source u ≤ g.hops source v := by
  obtain ⟨n, hn⟩ := h.exists_walk hv
  exact h.hops_le_of_walk hv huv (walk_hops hn)

/-- The first node that leads to another one. -/
theorem exists_first_source (met : List V) {x : V} (hx : g.HasEdge x u) :
    ∃ y, g.HasEdge y u ∧ ∀ z, g.HasEdge z u → met.idxOf y ≤ met.idxOf z := by
  obtain ⟨y, hy, hmin⟩ :=
    (measure fun x => met.idxOf x).wf.has_min {x | g.HasEdge x u} ⟨x, hx⟩
  exact ⟨y, hy, fun z hz => Nat.le_of_not_lt (hmin z hz)⟩

/-- The first node that leads to a node is one edge nearer. -/
theorem exists_first_parent (h : g.IsBreadthFirst source order) (hu : u ∈ source :: order) {n : ℕ}
    (hun : g.hops source u = n + 1) :
    ∃ x ∈ source :: order, g.HasEdge x u ∧ g.hops source x = n ∧
      ∀ z, g.HasEdge z u → (source :: order).idxOf x ≤ (source :: order).idxOf z := by
  obtain ⟨m, hm⟩ := h.exists_walk hu
  have hw := walk_hops hm
  rw [hun] at hw
  obtain ⟨p, hp, hpu⟩ := hw.exists_last
  obtain ⟨x, hxu, hfirst⟩ := exists_first_source (source :: order) hpu
  have hpmem := h.mem_of_walk hp
  have hxp := hfirst p hpu
  have hxmem : x ∈ source :: order :=
    List.idxOf_lt_length_iff.mp (hxp.trans_lt (List.idxOf_lt_length_of_mem hpmem))
  have hxle : g.hops source x ≤ n := by
    rcases hxp.lt_or_eq with hlt | heq
    · exact h.hops_le_of_walk hpmem hlt hp
    · rw [(List.idxOf_inj hxmem).mp heq]
      exact Digraph.hops_le hp
  obtain ⟨k, hk⟩ := h.exists_walk hxmem
  have hxge := hops_le_succ hk hxu
  exact ⟨x, hxmem, hxu, by omega, hfirst⟩

/-- Of two nodes at the same distance the one that is met first is ahead. -/
theorem ahead_of_precedes (h : g.IsBreadthFirst source order) (hv : v ∈ source :: order)
    (huv : Precedes (source :: order) u v) {n : ℕ} (hun : g.hops source u = n)
    (hvn : g.hops source v = n) : g.Ahead source n u v := by
  induction n generalizing u v with
  | zero =>
    obtain ⟨m, hm⟩ := h.exists_walk hv
    have hw := walk_hops hm
    rw [hvn] at hw
    rw [← hw.eq_of_zero] at huv
    exact absurd huv (not_precedes_head _ _ _)
  | succ n ih =>
    obtain ⟨x, hxmem, hxu, hxn, hfirst⟩ := h.exists_first_parent huv.mem_left hun
    obtain ⟨k, hk⟩ := h.exists_walk hxmem
    refine ⟨x, hxn ▸ walk_hops hk, hxu, fun y hy hyv => ?_⟩
    have hymem := h.mem_of_walk hy
    have hyn : g.hops source y = n := by
      have hge := hops_le_succ hy hyv
      have hle := Digraph.hops_le hy
      omega
    have hu : u ∈ order := by
      refine (List.mem_cons.mp huv.mem_left).resolve_left ?_
      rintro rfl
      rw [hops_self] at hun
      omega
    obtain ⟨z, hzu, hzy⟩ := h.queued u hu v (mem_order_of_precedes hv huv) huv y hymem hyv
    have hxz := hfirst z hzu
    by_cases hxy : x = y
    · subst hxy
      rcases hzy with hlt | ⟨rfl, hlt⟩
      · exact absurd hlt (Nat.not_lt.mpr hxz)
      · exact Or.inr ⟨rfl, hlt⟩
    · refine Or.inl (ih hymem ?_ hxn hyn)
      rcases precedes_or hxmem hxy with hlt | hgt
      · exact hlt
      · rcases hzy with hlt | ⟨rfl, -⟩
        · exact hxz.trans_lt hlt
        · exact absurd hgt (Nat.not_lt.mpr hxz)

/-- The graph says which of two nodes is met first. -/
theorem precedes_iff (h : g.IsBreadthFirst source order) (hu : u ∈ order) (hv : v ∈ order)
    (hne : u ≠ v) : Precedes (source :: order) u v ↔ g.MetBefore source u v := by
  have hmet : ∀ {x y : V}, y ∈ order → Precedes (source :: order) x y →
      g.MetBefore source x y := by
    intro x y hy hxy
    have hmem := List.mem_cons_of_mem source hy
    rcases (h.hops_le hmem hxy).lt_or_eq with hlt | heq
    · exact Or.inl hlt
    · exact Or.inr ⟨heq, h.ahead_of_precedes hmem hxy heq rfl⟩
  constructor
  · exact hmet hv
  · intro huv
    rcases precedes_or (List.mem_cons_of_mem source hu) hne with hlt | hgt
    · exact hlt
    · exact absurd (hmet hu hgt) huv.asymm

end IsBreadthFirst

section Search

/-- A node that is not met yet goes to the end of the queue. -/
def enter (done queue : List V) (v : V) : List V :=
  if v ∈ done ++ queue then queue else queue ++ [v]

/-- The node at the head of the queue brings in its targets. -/
def queueSearchFrom (g : Digraph V L) : ℕ → List V → List V → List V
  | 0, done, queue => done ++ queue
  | _ + 1, done, [] => done
  | fuel + 1, done, u :: queue =>
    g.queueSearchFrom fuel (done ++ [u]) ((g.targets u).foldl (enter (done ++ [u])) queue)

/-- A breadth-first search with a queue. -/
def queueSearch (g : Digraph V L) (source : V) : List V :=
  (g.queueSearchFrom g.nodes.length [] [source]).tail

/-- What holds between two nodes of the queue. -/
structure Searching (g : Digraph V L) (source : V) (done queue : List V) : Prop where
  head : ∃ rest, done ++ queue = source :: rest
  nodup : (done ++ queue).Nodup
  closed : ∀ u ∈ done, ∀ v, g.HasEdge u v → v ∈ done ++ queue
  entered : ∀ v ∈ done ++ queue, v ≠ source →
    ∃ u ∈ done, g.HasEdge u v ∧ Precedes (done ++ queue) u v
  queued : ∀ u ∈ done ++ queue, ∀ v ∈ done ++ queue, u ≠ source → Precedes (done ++ queue) u v →
    ∀ x ∈ done, g.HasEdge x v → g.EntersFirst (done ++ queue) x u v

/-- What holds while the targets of a node are looked at, of which some have been. -/
structure Scanning (g : Digraph V L) (source : V) (done : List V) (c : V) (scanned queue : List V) :
    Prop where
  head : ∃ rest, done ++ c :: queue = source :: rest
  nodup : (done ++ c :: queue).Nodup
  closed : ∀ u ∈ done, ∀ v, g.HasEdge u v → v ∈ done ++ c :: queue
  scanned_mem : ∀ v ∈ scanned, v ∈ done ++ c :: queue
  entered : ∀ v ∈ done ++ c :: queue, v ≠ source → ∃ u, g.HasEdge u v ∧
    Precedes (done ++ c :: queue) u v ∧ (u ∈ done ∨ u = c ∧ v ∈ scanned)
  queued : ∀ u ∈ done ++ c :: queue, ∀ v ∈ done ++ c :: queue, u ≠ source →
    Precedes (done ++ c :: queue) u v → ∀ x, x ∈ done ∨ x = c → g.HasEdge x v →
      g.EntersFirst (done ++ c :: queue) x u v

variable {source c v : V} {done queue scanned rest : List V}

theorem Searching.scan (h : g.Searching source done (c :: queue)) :
    g.Scanning source done c [] queue where
  head := h.head
  nodup := h.nodup
  closed := h.closed
  scanned_mem := fun v hv => absurd hv List.not_mem_nil
  entered := by
    intro v hv hne
    obtain ⟨u, hu, he, hlt⟩ := h.entered v hv hne
    exact ⟨u, he, hlt, Or.inl hu⟩
  queued := by
    intro u hu v hv hne huv x hx he
    rcases hx with hx | rfl
    · exact h.queued u hu v hv hne huv x hx he
    · obtain ⟨y, hy, hyu, -⟩ := h.entered u hu hne
      exact ⟨y, hyu, Or.inl (precedes_append hy (notMem_left_of_nodup h.nodup))⟩

theorem EntersFirst.append {met met' : List V} {x u : V} (h : g.EntersFirst met x u v)
    (hx : x ∈ met) : g.EntersFirst (met ++ met') x u v := by
  obtain ⟨y, hy, hlt⟩ := h
  exact ⟨y, hy, hlt.imp_left (precedes_append_iff hx).mpr⟩

/-- A target that is met already stays where it is. -/
theorem Scanning.enter_met (h : g.Scanning source done c scanned queue)
    (hv : v ∈ done ++ c :: queue) : g.Scanning source done c (scanned ++ [v]) queue := by
  refine { h with scanned_mem := ?_, entered := ?_ }
  · intro w hw
    rcases List.mem_append.mp hw with hw | hw
    · exact h.scanned_mem w hw
    · rwa [List.mem_singleton.mp hw]
  · intro w hw hne
    obtain ⟨u, he, hlt, hu⟩ := h.entered w hw hne
    exact ⟨u, he, hlt, hu.imp_right (And.imp_right (List.mem_append_left _))⟩

/-- A node that is met before the new target was entered by an earlier node, or was an earlier
target of the same one. -/
theorem Scanning.entersFirst_new (h : g.Scanning source done c scanned queue)
    (htargets : g.targets c = scanned ++ v :: rest) (hv : v ∉ done ++ c :: queue) {u : V}
    (hu : u ∈ done ++ c :: queue) (hne : u ≠ source) :
    g.EntersFirst (done ++ c :: queue) c u v := by
  obtain ⟨y, hyu, hlt, hy⟩ := h.entered u hu hne
  rcases hy with hy | ⟨rfl, hscanned⟩
  · exact ⟨y, hyu, Or.inl (precedes_append hy (notMem_left_of_nodup h.nodup))⟩
  · refine ⟨y, hyu, Or.inr ⟨rfl, ?_⟩⟩
    rw [htargets]
    exact precedes_append hscanned fun hw => hv (h.scanned_mem v hw)

/-- A target that is new is entered by the node whose targets are looked at, and by none
before it. -/
theorem Scanning.enter_new (h : g.Scanning source done c scanned queue)
    (htargets : g.targets c = scanned ++ v :: rest) (hv : v ∉ done ++ c :: queue) :
    g.Scanning source done c (scanned ++ [v]) (queue ++ [v]) := by
  have hcv : g.HasEdge c v := mem_targets.mp (by rw [htargets]; simp)
  have hmet : done ++ c :: (queue ++ [v]) = (done ++ c :: queue) ++ [v] := by simp
  have hc : c ∈ done ++ c :: queue := by simp
  have hmem : ∀ {w}, w ∈ (done ++ c :: queue) ++ [v] → w ∈ done ++ c :: queue ∨ w = v := by
    intro w hw
    exact (List.mem_append.mp hw).imp_right List.mem_singleton.mp
  constructor
  · obtain ⟨l, hl⟩ := h.head
    exact ⟨l ++ [v], by rw [hmet, hl]; rfl⟩
  · rw [hmet]
    exact h.nodup.append (List.nodup_singleton v) (List.disjoint_singleton.mpr hv)
  · intro u hu w he
    rw [hmet]
    exact List.mem_append_left _ (h.closed u hu w he)
  · intro w hw
    rw [hmet]
    rcases List.mem_append.mp hw with hw | hw
    · exact List.mem_append_left _ (h.scanned_mem w hw)
    · exact List.mem_append_right _ hw
  · rw [hmet]
    intro w hw hne
    rcases hmem hw with hw | rfl
    · obtain ⟨u, he, hlt, hu⟩ := h.entered w hw hne
      exact ⟨u, he, (precedes_append_iff hw).mpr hlt,
        hu.imp_right (And.imp_right (List.mem_append_left _))⟩
    · exact ⟨c, hcv, precedes_append hc hv, Or.inr ⟨rfl, by simp⟩⟩
  · rw [hmet]
    intro u hu w hw hne huw x hx he
    have hxmet : x ∈ done ++ c :: queue := by
      rcases hx with hx | rfl
      · exact List.mem_append_left _ hx
      · exact hc
    rcases hmem hw with hw | rfl
    · have huw := (precedes_append_iff hw).mp huw
      exact (h.queued u huw.mem_left w hw hne huw x hx he).append hxmet
    · rcases hx with hx | rfl
      · exact absurd (h.closed x hx w he) hv
      · rcases hmem hu with hu | rfl
        · exact (h.entersFirst_new htargets hv hu hne).append hxmet
        · exact absurd huw (lt_irrefl _)

theorem Scanning.enter (h : g.Scanning source done c scanned queue)
    (htargets : g.targets c = scanned ++ v :: rest) :
    g.Scanning source done c (scanned ++ [v]) (enter (done ++ [c]) queue v) := by
  unfold Digraph.enter
  rw [List.append_assoc, List.singleton_append]
  by_cases hv : v ∈ done ++ c :: queue
  · rw [if_pos hv]
    exact h.enter_met hv
  · rw [if_neg hv]
    exact h.enter_new htargets hv

theorem Scanning.enterAll (h : g.Scanning source done c scanned queue)
    (htargets : g.targets c = scanned ++ rest) :
    g.Scanning source done c (g.targets c) (rest.foldl (Digraph.enter (done ++ [c])) queue) := by
  induction rest generalizing scanned queue with
  | nil =>
    rw [htargets, List.append_nil]
    exact h
  | cons v rest ih =>
    refine ih (h.enter htargets) ?_
    rw [htargets, List.append_assoc, List.singleton_append]

theorem Scanning.finish (h : g.Scanning source done c (g.targets c) queue) :
    g.Searching source (done ++ [c]) queue := by
  have hmet : (done ++ [c]) ++ queue = done ++ c :: queue := by simp
  have hdone : ∀ {x}, x ∈ done ++ [c] ↔ x ∈ done ∨ x = c := by simp
  constructor
  · rw [hmet]
    exact h.head
  · rw [hmet]
    exact h.nodup
  · rw [hmet]
    intro u hu v he
    rcases hdone.mp hu with hu | rfl
    · exact h.closed u hu v he
    · exact h.scanned_mem v (mem_targets.mpr he)
  · rw [hmet]
    intro v hv hne
    obtain ⟨u, he, hlt, hu⟩ := h.entered v hv hne
    exact ⟨u, hdone.mpr (hu.imp_right And.left), he, hlt⟩
  · rw [hmet]
    intro u hu v hv hne huv x hx he
    exact h.queued u hu v hv hne huv x (hdone.mp hx) he

/-- A search that has no one left to look at is over. -/
theorem Searching.isBreadthFirst (h : g.Searching source done []) :
    g.IsBreadthFirst source done.tail := by
  obtain ⟨order, ho⟩ := h.head
  rw [List.append_nil] at ho
  subst ho
  have hclosed := h.closed
  have hentered := h.entered
  have hqueued := h.queued
  have hnodup := h.nodup
  rw [List.append_nil] at hclosed hentered hqueued hnodup
  have hne : ∀ v ∈ order, v ≠ source := by
    rintro v hv rfl
    exact (List.nodup_cons.mp hnodup).1 hv
  refine ⟨hnodup, hclosed, fun v hv => ?_, fun u hu v hv huv x hx he => ?_⟩
  · obtain ⟨u, -, he, hlt⟩ := hentered v (List.mem_cons_of_mem _ hv) (hne v hv)
    exact ⟨u, he, hlt⟩
  · exact hqueued u (List.mem_cons_of_mem _ hu) v (List.mem_cons_of_mem _ hv) (hne u hu) huv x hx he

theorem Searching.length_le (h : g.Searching source done queue) (hs : source ∈ g.nodes) :
    (done ++ queue).length ≤ g.nodes.length := by
  refine (List.subperm_of_subset h.nodup fun v hv => ?_).length_le
  by_cases hvs : v = source
  · rwa [hvs]
  · obtain ⟨u, -, he, -⟩ := h.entered v hv hvs
    exact he.mem.2

theorem Searching.run (h : g.Searching source done queue) (hs : source ∈ g.nodes) {fuel : ℕ}
    (hfuel : g.nodes.length ≤ done.length + fuel) :
    g.IsBreadthFirst source (g.queueSearchFrom fuel done queue).tail := by
  induction fuel generalizing done queue with
  | zero =>
    have hle := h.length_le hs
    rw [List.length_append] at hle
    obtain rfl : queue = [] := List.eq_nil_of_length_eq_zero (by omega)
    unfold queueSearchFrom
    rw [List.append_nil]
    exact h.isBreadthFirst
  | succ fuel ih =>
    cases queue with
    | nil => exact h.isBreadthFirst
    | cons c queue =>
      refine ih (h.scan.enterAll (List.nil_append (g.targets c)).symm).finish ?_
      rw [List.length_append, List.length_singleton]
      omega

theorem isBreadthFirst_queueSearch (g : Digraph V L) (hs : source ∈ g.nodes) :
    g.IsBreadthFirst source (g.queueSearch source) := by
  have hstart : g.Searching source [] [source] := by
    constructor
    · exact ⟨[], rfl⟩
    · exact List.nodup_singleton _
    · exact fun u hu => absurd hu List.not_mem_nil
    · exact fun v hv hne => absurd (List.mem_singleton.mp hv) hne
    · exact fun u hu v hv hne => absurd (List.mem_singleton.mp hu) hne
  exact hstart.run hs (Nat.le_add_left _ _)

/-- The search decides what a node reaches. -/
theorem mem_queueSearch (hs : source ∈ g.nodes) :
    v ∈ g.queueSearch source ↔ g.Reaches source v ∧ v ≠ source :=
  (isBreadthFirst_queueSearch g hs).mem_iff v

end Search

end Order

end Prd.Foundation.Digraph
