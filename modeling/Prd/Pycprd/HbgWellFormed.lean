import Prd.Foundation.Gossip
import Prd.Pycprd.Hbg

/-!
# What a successful build returns

The threads of a built graph are lists without repetition, its locations are the
positions in them, and its edges link neighbours of a thread or distinct threads.
A graph of this kind is a threaded acyclic graph with the inter-thread children as
the addressees.
-/
namespace Prd.Pycprd

open Prd.Foundation Relation

/-- The nodes of one thread in order. -/
def threadOf (t : ThreadId) (l : List Node) : List Node := l.filter fun n => n.tid = t

theorem mem_threadOf {t : ThreadId} {l : List Node} {n : Node} :
    n ∈ threadOf t l ↔ n ∈ l ∧ n.tid = t := by
  simp [threadOf]

theorem threadOf_append_self (l : List Node) (x : Node) :
    threadOf x.tid (l ++ [x]) = threadOf x.tid l ++ [x] := by
  simp [threadOf]

theorem threadOf_append_of_ne {t : ThreadId} (l : List Node) {x : Node} (h : x.tid ≠ t) :
    threadOf t (l ++ [x]) = threadOf t l := by
  simp [threadOf, h]

namespace ThreadTables

/-- The tables after the nodes of `l` were added. -/
structure Lists (s : ThreadTables) (l : List Node) : Prop where
  mem_graph : ∀ n, n ∈ s.graph.nodes ↔ n ∈ l
  byThread : ∀ t, s.nodesByThread.getD t [] = threadOf t l
  mem_byThread : ∀ t, t ∈ s.nodesByThread ↔ ∃ n ∈ l, n.tid = t
  mem_byType : ∀ k n, n ∈ s.nodesByType.getD k [] ↔ n ∈ l ∧ n.itype = k
  tail : ∀ t, s.threadTails.lookup t = (threadOf t l).getLast?
  edge : ∀ u v k, (u, v, k) ∈ s.graph.edges ↔
    k = .intraThread ∧ ∃ pre post, threadOf v.tid l = pre ++ u :: v :: post
  location : ∀ n ∈ l, ∃ pre post, threadOf n.tid l = pre ++ n :: post ∧ n ∉ post ∧
    s.nodesLocation.lookup n = some ⟨n.tid, pre.length⟩

theorem lists_new : new.Lists [] where
  mem_graph := by intro n; rfl
  byThread := by intro t; exact Dict.getD_empty t []
  mem_byThread := by intro t; simp [new]
  mem_byType := by intro k n; simp [new]
  tail := by intro t; rfl
  edge := by intro u v k; simp [new, Digraph.empty, threadOf]
  location := by intro n hn; cases hn

variable {s : ThreadTables} {l : List Node}

theorem Lists.edge_addNode (h : s.Lists l) (x u v : Node) (k : EdgeType) :
    (u, v, k) ∈ (s.addNode x).graph.edges ↔
      (u, v, k) ∈ s.graph.edges ∨
        k = .intraThread ∧ v = x ∧ (threadOf x.tid l).getLast? = some u := by
  have hsame : (u, v, k) ∈ s.graph.edges → k = .intraThread := fun he => ((h.edge u v k).mp he).1
  unfold addNode
  simp only [h.tail]
  cases ht : (threadOf x.tid l).getLast? with
  | none => simp
  | some tail =>
    simp only [Digraph.mem_edges_addEdge, Digraph.edges_addNode, Prod.mk.injEq, Option.some.injEq]
    constructor
    · rintro (⟨rfl, rfl, rfl⟩ | ⟨he, _⟩)
      · exact Or.inr ⟨rfl, rfl, rfl⟩
      · exact Or.inl he
    · rintro (he | ⟨rfl, rfl, rfl⟩)
      · by_cases hc : u = tail ∧ v = x
        · exact Or.inl ⟨hc.1, hc.2, hsame he⟩
        · exact Or.inr ⟨he, hc⟩
      · exact Or.inl ⟨rfl, rfl, rfl⟩

/-- A new last element follows the one that was last. -/
theorem consecutive_append_singleton {l : List Node} {u v x : Node} :
    (∃ pre post, l ++ [x] = pre ++ u :: v :: post) ↔
      (∃ pre post, l = pre ++ u :: v :: post) ∨ v = x ∧ l.getLast? = some u := by
  constructor
  · rintro ⟨pre, post, hl⟩
    have hl' : l ++ [x] = (pre ++ [u]) ++ v :: post := by rw [hl]; simp
    rcases append_singleton_eq_iff.mp hl' with ⟨hpre, rfl, rfl⟩ | ⟨post', rfl, hpre⟩
    · exact Or.inr ⟨rfl, by rw [← hpre]; simp⟩
    · exact Or.inl ⟨pre, post', by rw [hpre]; simp⟩
  · rintro (⟨pre, post, hl⟩ | ⟨rfl, hlast⟩)
    · exact ⟨pre, post ++ [x], by rw [hl]; simp⟩
    · obtain ⟨pre, hpre⟩ := List.getLast?_eq_some_iff.mp hlast
      exact ⟨pre, [], by rw [hpre]; simp⟩

theorem Lists.mem_graph_addNode (h : s.Lists l) (x n : Node) :
    n ∈ (s.addNode x).graph.nodes ↔ n ∈ l ++ [x] := by
  have hx : ∀ tail, (threadOf x.tid l).getLast? = some tail → tail ∈ l := fun tail ht =>
    (mem_threadOf.mp (List.mem_of_getLast? ht)).1
  unfold ThreadTables.addNode
  simp only [h.tail, List.mem_append, List.mem_singleton]
  cases ht : (threadOf x.tid l).getLast? with
  | none => simp [h.mem_graph]
  | some tail =>
    simp only [Digraph.mem_nodes_addEdge, Digraph.mem_addNode, h.mem_graph]
    constructor
    · rintro ((hn | hn) | rfl | hn)
      · exact Or.inl hn
      · exact Or.inr hn
      · exact Or.inl (hx _ ht)
      · exact Or.inr hn
    · rintro (hn | hn)
      · exact Or.inl (Or.inl hn)
      · exact Or.inl (Or.inr hn)

theorem Lists.location_addNode (h : s.Lists l) (x n : Node) (hn : n ∈ l ++ [x]) :
    ∃ pre post, threadOf n.tid (l ++ [x]) = pre ++ n :: post ∧ n ∉ post ∧
      (s.addNode x).nodesLocation.lookup n = some ⟨n.tid, pre.length⟩ := by
  have hx : ∀ t, s.nodesByThread.getD t [] = threadOf t l := h.byThread
  by_cases hnx : n = x
  · subst hnx
    refine ⟨threadOf n.tid l, [], threadOf_append_self l n, by simp, ?_⟩
    unfold ThreadTables.addNode
    rw [AList.lookup_insert, hx]
  · have hn : n ∈ l := by
      rcases List.mem_append.mp hn with hn | hn
      · exact hn
      · exact absurd (List.mem_singleton.mp hn) hnx
    obtain ⟨pre, post, hl, hpost, hloc⟩ := h.location n hn
    have hloc' : (s.addNode x).nodesLocation.lookup n = some ⟨n.tid, pre.length⟩ := by
      unfold ThreadTables.addNode
      rw [AList.lookup_insert_ne hnx, hloc]
    by_cases ht : n.tid = x.tid
    · refine ⟨pre, post ++ [x], ?_, ?_, hloc'⟩
      · rw [ht, threadOf_append_self, ← ht, hl]
        simp
      · simp [hpost, hnx]
    · refine ⟨pre, post, ?_, hpost, hloc'⟩
      rw [threadOf_append_of_ne l (Ne.symm ht), hl]

theorem Lists.addNode (h : s.Lists l) (x : Node) : (s.addNode x).Lists (l ++ [x]) where
  mem_graph := h.mem_graph_addNode x
  byThread := by
    intro t
    unfold ThreadTables.addNode
    simp only [Dict.getD_insert, h.byThread]
    by_cases ht : t = x.tid
    · subst ht
      rw [if_pos rfl, threadOf_append_self]
    · rw [if_neg ht, threadOf_append_of_ne l (Ne.symm ht)]
  mem_byThread := by
    intro t
    unfold ThreadTables.addNode
    simp only [AList.mem_insert, h.mem_byThread, List.mem_append, List.mem_singleton]
    constructor
    · rintro (rfl | ⟨n, hn, ht⟩)
      · exact ⟨x, Or.inr rfl, rfl⟩
      · exact ⟨n, Or.inl hn, ht⟩
    · rintro ⟨n, hn | rfl, ht⟩
      · exact Or.inr ⟨n, hn, ht⟩
      · exact Or.inl ht.symm
  mem_byType := by
    intro k n
    unfold ThreadTables.addNode
    simp only [Dict.getD_insert, List.mem_append, List.mem_singleton]
    by_cases hk : k = x.itype
    · subst hk
      rw [if_pos rfl, List.mem_insert_iff, h.mem_byType]
      constructor
      · rintro (rfl | ⟨hn, hk⟩)
        · exact ⟨Or.inr rfl, rfl⟩
        · exact ⟨Or.inl hn, hk⟩
      · rintro ⟨hn | rfl, hk⟩
        · exact Or.inr ⟨hn, hk⟩
        · exact Or.inl rfl
    · rw [if_neg hk, h.mem_byType]
      constructor
      · rintro ⟨hn, hnk⟩
        exact ⟨Or.inl hn, hnk⟩
      · rintro ⟨hn | rfl, hnk⟩
        · exact ⟨hn, hnk⟩
        · exact absurd hnk.symm hk
  tail := by
    intro t
    unfold ThreadTables.addNode
    by_cases ht : t = x.tid
    · subst ht
      rw [AList.lookup_insert, threadOf_append_self]
      simp
    · rw [AList.lookup_insert_ne ht, threadOf_append_of_ne l (Ne.symm ht), h.tail]
  edge := by
    intro u v k
    rw [h.edge_addNode, h.edge]
    by_cases hv : v.tid = x.tid
    · have happ : threadOf v.tid (l ++ [x]) = threadOf v.tid l ++ [x] := by
        rw [hv, threadOf_append_self]
      rw [happ, consecutive_append_singleton, hv, and_or_left]
    · rw [threadOf_append_of_ne l (Ne.symm hv)]
      constructor
      · rintro (⟨rfl, hex⟩ | ⟨_, rfl, _⟩)
        · exact ⟨rfl, hex⟩
        · exact absurd rfl hv
      · exact fun hex => Or.inl hex
  location := h.location_addNode x

theorem lists_addNodes (l : List Node) : (l.foldl ThreadTables.addNode new).Lists l := by
  induction l using List.reverseRecOn with
  | nil => exact lists_new
  | append_singleton l x ih =>
    rw [List.foldl_append]
    exact ih.addNode x

end ThreadTables

/-- Two places of a list that are linked step by step. -/
theorem reaches_of_consecutive {g : Digraph Node EdgeType} {l : List Node}
    (h : ∀ pre u v post, l = pre ++ u :: v :: post → g.HasEdge u v) {pre mid post : List Node}
    {a b : Node} (hl : l = pre ++ a :: (mid ++ b :: post)) : g.Reaches a b := by
  induction mid generalizing pre a with
  | nil => exact .single (h pre a b post hl)
  | cons m mid ih =>
    have hl' : l = (pre ++ [a]) ++ m :: (mid ++ b :: post) := by rw [hl]; simp
    exact .head (h pre a m (mid ++ b :: post) hl) (ih hl')

/-- A linked list without a cycle has no repetition. -/
theorem nodup_of_consecutive {g : Digraph Node EdgeType} (hg : g.Acyclic) {l : List Node}
    (h : ∀ pre u v post, l = pre ++ u :: v :: post → g.HasEdge u v) : l.Nodup := by
  by_contra hnd
  obtain ⟨x, hx⟩ := List.exists_duplicate_iff_not_nodup.mpr hnd
  obtain ⟨pre, post', hl, hmem⟩ : ∃ pre post, l = pre ++ x :: post ∧ x ∈ post := by
    induction hx with
    | cons_mem hm => exact ⟨[], _, rfl, hm⟩
    | @cons_duplicate y l' hd ih =>
      obtain ⟨pre, post, hl, hm⟩ :=
        ih (fun pre u v post hl => h (y :: pre) u v post (by rw [hl]; simp))
        hd.not_nodup
      exact ⟨y :: pre, post, by rw [hl]; simp, hm⟩
  obtain ⟨mid, post, rfl⟩ := List.append_of_mem hmem
  exact hg x (reaches_of_consecutive h hl)

theorem idxOf_lt_of_consecutive {l pre post : List Node} {u v : Node} (hnd : l.Nodup)
    (hl : l = pre ++ u :: v :: post) : l.idxOf u < l.idxOf v := by
  rw [hl] at hnd ⊢
  have hupre : u ∉ pre := fun hm => (List.disjoint_of_nodup_append hnd) hm List.mem_cons_self
  have hvpre : v ∉ pre := fun hm => (List.disjoint_of_nodup_append hnd) hm (by simp)
  have huv : v ≠ u := by
    rintro rfl
    have hnd' := (List.nodup_append.mp hnd).2.1
    simp at hnd'
  rw [List.idxOf_append_of_notMem hupre, List.idxOf_append_of_notMem hvpre,
    List.idxOf_cons_self, List.idxOf_cons_ne _ huv.symm, List.idxOf_cons_self]
  omega

namespace HBG

/-- The position of a node in its thread. -/
def index (hbg : HBG) (n : Node) : ℕ := (threadOf n.tid hbg.nodes).idxOf n

structure WellFormed (hbg : HBG) : Prop where
  nodup : hbg.nodes.Nodup
  mem_graph : ∀ n, n ∈ hbg.graph.nodes ↔ n ∈ hbg.nodes
  byThread : ∀ t, hbg.nodesByThread.getD t [] = threadOf t hbg.nodes
  mem_tids : ∀ t, t ∈ hbg.tids ↔ ∃ n ∈ hbg.nodes, n.tid = t
  location : ∀ n ∈ hbg.nodes, hbg.getNodeLocation n = .ok ⟨n.tid, hbg.index n⟩
  intra : ∀ u v, (u, v, .intraThread) ∈ hbg.graph.edges ↔
    ∃ pre post, threadOf v.tid hbg.nodes = pre ++ u :: v :: post
  inter : ∀ u v, (u, v, .interThread) ∈ hbg.graph.edges →
    u.tid ≠ v.tid ∧ u.itype = .epoch ∧ v.itype = .epoch
  acyclic : hbg.graph.Acyclic

variable {hbg : HBG}

namespace WellFormed

theorem nodup_thread (h : hbg.WellFormed) (t : ThreadId) : (threadOf t hbg.nodes).Nodup :=
  h.nodup.filter _

theorem thread_eq (h : hbg.WellFormed) {n : Node} (hn : n ∈ hbg.nodes) :
    ∃ pre post, threadOf n.tid hbg.nodes = pre ++ n :: post ∧ pre.length = hbg.index n := by
  obtain ⟨pre, post, hl⟩ := List.append_of_mem (mem_threadOf.mpr ⟨hn, rfl⟩)
  refine ⟨pre, post, hl, ?_⟩
  have hnd := h.nodup_thread n.tid
  rw [hl] at hnd
  have hpre : n ∉ pre := fun hm => (List.disjoint_of_nodup_append hnd) hm List.mem_cons_self
  unfold index
  rw [hl, List.idxOf_append_of_notMem hpre, List.idxOf_cons_self, Nat.add_zero]

theorem getElem?_index (_h : hbg.WellFormed) {n : Node} (hn : n ∈ hbg.nodes) :
    (threadOf n.tid hbg.nodes)[hbg.index n]? = some n :=
  List.getElem?_idxOf (mem_threadOf.mpr ⟨hn, rfl⟩)

theorem index_inj (h : hbg.WellFormed) {a b : Node} (ha : a ∈ hbg.nodes) (hb : b ∈ hbg.nodes)
    (ht : a.tid = b.tid) (hi : hbg.index a = hbg.index b) : a = b := by
  have h1 := h.getElem?_index ha
  have h2 := h.getElem?_index hb
  rw [ht, hi, h2] at h1
  exact (Option.some.inj h1).symm

theorem getNodeByLocation_eq (h : hbg.WellFormed) {n : Node} (hn : n ∈ hbg.nodes) :
    hbg.getNodeByLocation ⟨n.tid, hbg.index n⟩ = .ok n := by
  have ht : n.tid ∈ hbg.nodesByThread := AList.mem_keys.mpr ((h.mem_tids n.tid).mpr ⟨n, hn, rfl⟩)
  unfold getNodeByLocation
  rw [pyGet_eq ht [], h.byThread]
  simp only [ok_bind, h.getElem?_index hn]
  rfl

/-- A node reaches all later nodes of its thread. -/
theorem reaches_of_index_lt (h : hbg.WellFormed) {a b : Node} (ha : a ∈ hbg.nodes)
    (hb : b ∈ hbg.nodes) (ht : a.tid = b.tid) (hlt : hbg.index a < hbg.index b) :
    hbg.graph.Reaches a b := by
  obtain ⟨pre, post, hl, hpre⟩ := h.thread_eq ha
  have hb' := h.getElem?_index hb
  rw [← ht, hl, List.getElem?_append_right (by omega)] at hb'
  obtain ⟨k, hk⟩ : ∃ k, hbg.index b - pre.length = k + 1 := ⟨hbg.index b - pre.length - 1, by omega⟩
  rw [hk, List.getElem?_cons_succ] at hb'
  obtain ⟨mid, post', rfl⟩ := List.append_of_mem (List.mem_of_getElem? hb')
  have hcons : ∀ pre u v post, threadOf a.tid hbg.nodes = pre ++ u :: v :: post →
      hbg.graph.HasEdge u v := by
    intro pre u v post hl
    have hv : v.tid = a.tid :=
      (mem_threadOf.mp (show v ∈ threadOf a.tid hbg.nodes by rw [hl]; simp)).2
    exact ⟨_, (h.intra u v).mpr ⟨pre, post, by rw [hv, hl]⟩⟩
  exact reaches_of_consecutive hcons hl

/-- The threads of the graph as tracks, with or without the inter-thread edges. -/
def dag (h : hbg.WellFormed) (ignoreInter : Bool) : ThreadDag Node ThreadId where
  Point n := n ∈ hbg.nodes
  track := Node.tid
  pos := hbg.index
  kids n := if ignoreInter then [] else hbg.getInterChildren n
  pos_inj := h.index_inj
  kids_point := by
    intro p c hc
    split_ifs at hc
    · cases hc
    · obtain ⟨l, he, -⟩ := Digraph.mem_successors.mp hc
      exact ⟨(h.mem_graph p).mp (hbg.graph.edges_mem _ he).1,
        (h.mem_graph c).mp (hbg.graph.edges_mem _ he).2⟩
  kids_track := by
    intro p c hc
    split_ifs at hc
    · cases hc
    · obtain ⟨l, he, hl⟩ := Digraph.mem_successors.mp hc
      rw [beq_iff_eq.mp hl] at he
      exact (h.inter p c he).1

theorem mem_interChildren {u v : Node} :
    v ∈ hbg.getInterChildren u ↔ (u, v, .interThread) ∈ hbg.graph.edges := by
  unfold getInterChildren
  rw [Digraph.mem_successors]
  constructor
  · rintro ⟨l, he, hl⟩
    rwa [beq_iff_eq.mp hl] at he
  · intro he
    exact ⟨_, he, rfl⟩

theorem mem_interParents {u v : Node} : u ∈ hbg.getInterParents v ↔ v ∈ hbg.getInterChildren u :=
  Digraph.mem_predecessors

theorem step_reaches (h : hbg.WellFormed) {i : Bool} {u v : Node} (hs : (h.dag i).Step u v) :
    hbg.graph.Reaches u v := by
  rcases hs with ⟨hu, hv, ht, hlt⟩ | hc
  · exact h.reaches_of_index_lt hu hv ht hlt
  · cases i with
    | true => cases hc
    | false => exact .single ⟨_, mem_interChildren.mp hc⟩

theorem reach_reaches (h : hbg.WellFormed) {i : Bool} {u v : Node} (hr : (h.dag i).Reach u v) :
    hbg.graph.Reaches u v := by
  induction hr with
  | single hs => exact h.step_reaches hs
  | tail _ hs ih => exact ih.trans (h.step_reaches hs)

theorem dag_acyclic (h : hbg.WellFormed) (i : Bool) : (h.dag i).Acyclic :=
  fun v hv => h.acyclic v (h.reach_reaches hv)

theorem lt_of_edge (h : hbg.WellFormed) {u v : Node}
    (he : (u, v, .intraThread) ∈ hbg.graph.edges) (i : Bool) : (h.dag i).Lt u v := by
  obtain ⟨pre, post, hl⟩ := (h.intra u v).mp he
  have hv := mem_threadOf.mp (show v ∈ threadOf v.tid hbg.nodes by rw [hl]; simp)
  have hu := mem_threadOf.mp (show u ∈ threadOf v.tid hbg.nodes by rw [hl]; simp)
  refine ⟨hu.1, hv.1, hu.2, ?_⟩
  have hlt := idxOf_lt_of_consecutive (h.nodup_thread v.tid) hl
  show hbg.index u < hbg.index v
  unfold index
  rw [hu.2]
  exact hlt

/-- The nodes of a thread are listed by index. -/
theorem pairwise_index (h : hbg.WellFormed) (t : ThreadId) :
    hbg.nodes.Pairwise (fun a b => a.tid = t → b.tid = t → hbg.index a < hbg.index b) := by
  have hthread : (threadOf t hbg.nodes).Pairwise (fun a b => hbg.index a < hbg.index b) := by
    have hnd := h.nodup_thread t
    rw [List.pairwise_iff_getElem]
    intro i j hi hj hij
    have hidx : ∀ k (hk : k < (threadOf t hbg.nodes).length),
        hbg.index (threadOf t hbg.nodes)[k] = k := by
      intro k hk
      have ht := (mem_threadOf.mp (List.getElem_mem hk)).2
      unfold HBG.index
      rw [ht]
      exact hnd.idxOf_getElem k hk
    rw [hidx i hi, hidx j hj]
    exact hij
  have hp := List.pairwise_filter.mp hthread
  exact hp.imp (fun hab ha hb => hab (by simpa using ha) (by simpa using hb))

/-- Without inter-thread edges the nodes are listed in a topological order. -/
theorem isTopological_nodes (h : hbg.WellFormed)
    (hno : ∀ u v, (u, v, .interThread) ∉ hbg.graph.edges) : hbg.graph.IsTopological hbg.nodes where
  nodup := h.nodup
  mem_iff := fun v => (h.mem_graph v).symm
  sources := by
    refine Digraph.sourcesFirst_of_split (fun pre x rest hl e he hx => ?_)
    obtain ⟨u, v, k⟩ := e
    obtain rfl : v = x := hx
    cases k with
    | interThread => exact absurd he (hno u v)
    | intraThread =>
      have hlt := h.lt_of_edge he false
      have hu : u ∈ pre ++ v :: rest := hl ▸ hlt.1
      rcases List.mem_append.mp hu with hu | hu
      · simpa using hu
      · have hpair := pairwise_index h v.tid
        rw [hl] at hpair
        have hrest := (List.pairwise_cons.mp (List.pairwise_append.mp hpair).2.1).1
        rcases List.mem_cons.mp hu with rfl | hu
        · exact absurd hlt.2.2.2 (lt_irrefl _)
        · exact absurd hlt.2.2.2 (not_lt.mpr (hrest u hu rfl hlt.2.2.1).le)

/-- Paths of the graph are paths along the tracks and the messages. -/
theorem reaches_iff (h : hbg.WellFormed) {u v : Node} :
    hbg.graph.Reaches u v ↔ (h.dag false).Reach u v := by
  constructor
  · intro hr
    have hstep : ∀ {a b}, hbg.graph.HasEdge a b → (h.dag false).Step a b := by
      rintro a b ⟨l, he⟩
      cases l with
      | interThread => exact Or.inr (mem_interChildren.mpr he)
      | intraThread => exact Or.inl (h.lt_of_edge he false)
    induction hr with
    | single he => exact .single (hstep he)
    | tail _ he ih => exact ih.tail (hstep he)
  · exact h.reach_reaches

end WellFormed

end HBG

theorem HBG.init_eq_ok {hbg hbg' : HBG} {assertDag : Bool} (h : hbg.init assertDag = .ok hbg') :
    hbg = hbg' ∧ (assertDag = true → hbg'.graph.isDirectedAcyclicGraph = true) := by
  unfold HBG.init at h
  obtain ⟨_, _, h⟩ := bind_eq_ok.mp h
  cases assertDag with
  | false =>
    cases h
    exact ⟨rfl, fun hc => nomatch hc⟩
  | true =>
    obtain ⟨_, hassert, h⟩ := bind_eq_ok.mp h
    cases h
    exact ⟨rfl, fun _ => pyAssert_eq_ok.mp hassert⟩

theorem HBG.findVars_of_init {hbg hbg' : HBG} {assertDag : Bool}
    (h : hbg.init assertDag = .ok hbg') : hbg.findVars = .ok () := by
  unfold HBG.init at h
  obtain ⟨_, hvars, -⟩ := bind_eq_ok.mp h
  exact hvars

theorem HBG.fits_of_findVars {hbg : HBG} (h : hbg.findVars = .ok ()) {n : InstructionNode}
    (hn : Node.instruction n ∈ hbg.readWriteNodes) :
    n.interval.2 ≤ Pycprd.getCachelineAddress n.address hbg.cachelineSize + hbg.cachelineSize := by
  unfold HBG.findVars at h
  generalize hbg.readWriteNodes = l at h hn
  induction l with
  | nil => cases hn
  | cons m l ih =>
    obtain ⟨_, hm, hl⟩ := bind_eq_ok.mp h
    rcases List.mem_cons.mp hn with rfl | hn
    · exact of_decide_eq_true (pyAssert_eq_ok.mp hm)
    · exact ih hl hn

namespace HBGBuilder

/-- The nodes are linked by an edge of the list. -/
def Linked (es : List (EpochNode × EpochNode)) (u v : Node) : Prop :=
  ∃ e ∈ es, u = .epoch e.1 ∧ v = .epoch e.2

theorem linked_cons {e : EpochNode × EpochNode} {es : List (EpochNode × EpochNode)} {u v : Node} :
    Linked (e :: es) u v ↔ (u = .epoch e.1 ∧ v = .epoch e.2) ∨ Linked es u v := by
  simp [Linked]

theorem addHappensBeforeEdges_spec {es : List (EpochNode × EpochNode)}
    {g g' : Digraph Node EdgeType} (h : addHappensBeforeEdges es g = .ok g') :
    (∀ e ∈ es, e.1.tid ≠ e.2.tid) ∧
    (∀ n, n ∈ g'.nodes ↔ n ∈ g.nodes ∨ ∃ e ∈ es, n = .epoch e.1 ∨ n = .epoch e.2) ∧
    ∀ u v k, (u, v, k) ∈ g'.edges ↔
      k = .interThread ∧ Linked es u v ∨ (u, v, k) ∈ g.edges ∧ ¬ Linked es u v := by
  induction es generalizing g with
  | nil =>
    cases h
    simp [Linked]
  | cons e es ih =>
    unfold addHappensBeforeEdges at h
    obtain ⟨_, hassert, h⟩ := bind_eq_ok.mp h
    have hne : e.1.tid ≠ e.2.tid := bne_iff_ne.mp (pyAssert_eq_ok.mp hassert)
    obtain ⟨htid, hnodes, hedges⟩ := ih h
    refine ⟨?_, ?_, ?_⟩
    · intro e' he'
      rcases List.mem_cons.mp he' with rfl | he'
      · exact hne
      · exact htid e' he'
    · intro n
      rw [hnodes, Digraph.mem_nodes_addEdge]
      simp only [List.exists_mem_cons_iff]
      rw [or_assoc]
    · intro u v k
      rw [hedges, Digraph.mem_edges_addEdge, linked_cons]
      simp only [Prod.mk.injEq]
      tauto

theorem filterVolatileNodes_spec {it : IntervalTreeApi} {b b' : HBGBuilder}
    {pmemRange : Option (ℕ × ℕ)} {ignoreRanges : List (ℕ × ℕ)}
    (h : b.filterVolatileNodes it pmemRange ignoreRanges = .ok b') :
    ∃ p : Node → Bool, (∀ e, p (.epoch e) = true) ∧ b' = { b with nodes := b.nodes.filter p } := by
  unfold filterVolatileNodes at h
  obtain ⟨keepTree, _, h⟩ := bind_eq_ok.mp h
  obtain ⟨ignoreTree, _, h⟩ := bind_eq_ok.mp h
  exact ⟨_, fun e => rfl, (Except.ok.inj h).symm⟩

/-- What a build returns, given the kept nodes. -/
theorem build_eq_ok {it : IntervalTreeApi} {b : HBGBuilder} {es : List (EpochNode × EpochNode)}
    {o : BuildOptions} {hbg : HBG} (h : b.build it es o = .ok hbg) :
    ∃ (p : Node → Bool) (g : Digraph Node EdgeType), (∀ e, p (.epoch e) = true) ∧
      hbg.nodes = b.nodes.filter p ∧
      addHappensBeforeEdges es (hbg.nodes.foldl ThreadTables.addNode .new).graph = .ok g ∧
      hbg.graph = g ∧
      hbg.nodesByThread = (hbg.nodes.foldl ThreadTables.addNode .new).nodesByThread ∧
      hbg.nodesLocation = (hbg.nodes.foldl ThreadTables.addNode .new).nodesLocation ∧
      hbg.daisyChains =
        (if o.makeDaisyChains then some (hbg.nodes.foldl DaisyChains.addNode .new) else none) ∧
      (o.assertDag = true → hbg.graph.isDirectedAcyclicGraph = true) := by
  unfold build at h
  obtain ⟨b', hb', h⟩ := bind_eq_ok.mp h
  obtain ⟨g, hg, h⟩ := bind_eq_ok.mp h
  obtain ⟨p, hp, hnodes⟩ : ∃ p : Node → Bool, (∀ e, p (.epoch e) = true) ∧
      b'.nodes = b.nodes.filter p := by
    unfold filterIfAsked at hb'
    split_ifs at hb' with hf
    · obtain ⟨p, hp, rfl⟩ := filterVolatileNodes_spec hb'
      exact ⟨p, hp, rfl⟩
    · cases hb'
      exact ⟨fun _ => true, fun _ => rfl, (List.filter_true _).symm⟩
  obtain ⟨rfl, hacyc⟩ := HBG.init_eq_ok h
  exact ⟨p, g, hp, hnodes, hg, rfl, rfl, rfl, rfl, hacyc⟩

variable {it : IntervalTreeApi} {b : HBGBuilder} {es : List (EpochNode × EpochNode)}
  {o : BuildOptions} {hbg : HBG}

theorem build_edges (h : b.build it es o = .ok hbg) (u v : Node) (k : EdgeType) :
    (u, v, k) ∈ hbg.graph.edges ↔ k = .interThread ∧ Linked es u v ∨
      k = .intraThread ∧ ∃ pre post, threadOf v.tid hbg.nodes = pre ++ u :: v :: post := by
  obtain ⟨p, g, -, -, hg, rfl, -⟩ := build_eq_ok h
  obtain ⟨htid, -, hedges⟩ := addHappensBeforeEdges_spec hg
  have hl := ThreadTables.lists_addNodes hbg.nodes
  rw [hedges, hl.edge]
  refine or_congr_right ⟨fun he => he.1, fun he => ⟨he, ?_⟩⟩
  rintro ⟨e, he', rfl, rfl⟩
  obtain ⟨-, pre, post, hthread⟩ := he
  have hu := mem_threadOf.mp (show Node.epoch e.1 ∈ threadOf _ hbg.nodes by rw [hthread]; simp)
  exact htid e he' hu.2

/-- An access of a built graph stays in a block of the line size of the graph. -/
theorem build_fitsBlock (h : b.build it es o = .ok hbg) {k : ℕ} (hk : hbg.cachelineSize = 2 ^ k)
    {n : InstructionNode} (hspace : n.address + n.size ≤ 2 ^ 64)
    (hn : Node.instruction n ∈ hbg.nodes) (hi : n.itype.isReadWriteType = true) :
    n.address + n.size ≤ 2 ^ k * (n.address / 2 ^ k) + 2 ^ k := by
  unfold build at h
  obtain ⟨b', -, h⟩ := bind_eq_ok.mp h
  obtain ⟨g, -, h⟩ := bind_eq_ok.mp h
  have hvars := HBG.findVars_of_init h
  obtain ⟨rfl, -⟩ := HBG.init_eq_ok h
  have hl := ThreadTables.lists_addNodes b'.nodes
  have hsize := n.size_ne_zero
  have hmem := HBG.fits_of_findVars hvars (n := n) (by
    unfold HBG.readWriteNodes HBG.getNodesByType
    rw [List.mem_union_iff, hl.mem_byType, hl.mem_byType]
    unfold NodeType.isReadWriteType at hi
    rcases Bool.or_eq_true_iff.mp hi with hi | hi
    · exact Or.inl ⟨hn, beq_iff_eq.mp hi⟩
    · exact Or.inr ⟨hn, beq_iff_eq.mp hi⟩)
  rw [hk, getCachelineAddress_two_pow (by omega)] at hmem
  exact hmem

/-- A line size that is not the default one comes from a flush. -/
theorem exists_flush_of_build (h : b.build it es o = .ok hbg)
    (hsize : hbg.cachelineSize ≠ defaultCachelineSize) :
    ∃ f, Node.instruction f ∈ hbg.nodes ∧ f.itype = .flush := by
  unfold build at h
  obtain ⟨b', -, h⟩ := bind_eq_ok.mp h
  obtain ⟨g, -, h⟩ := bind_eq_ok.mp h
  obtain ⟨rfl, -⟩ := HBG.init_eq_ok h
  cases hfs : flushSize b'.nodes with
  | none => exact absurd (by simp [hfs]) hsize
  | some size =>
    obtain ⟨n, hn, hs⟩ := List.exists_of_findSome?_eq_some hfs
    cases n with
    | epoch _ => cases hs
    | instruction f =>
      by_cases hf : f.itype = .flush
      · exact ⟨f, hn, hf⟩
      · simp [hf] at hs

theorem build_wellFormed (h : b.build it es o = .ok hbg) (hes : ∀ e, e ∈ es ↔ e ∈ b.edges)
    (hend : b.EndpointsAdded) (hdag : o.assertDag = true) : hbg.WellFormed := by
  have hedges := build_edges h
  obtain ⟨p, g, hp, hnodes, hg, hgraph, hthread, hloc, -, hacyc⟩ := build_eq_ok h
  obtain ⟨htid, hgnodes, -⟩ := addHappensBeforeEdges_spec hg
  have hl := ThreadTables.lists_addNodes hbg.nodes
  have hacyclic := (Digraph.isDirectedAcyclicGraph_iff _).mp (hacyc hdag)
  have hnd : hbg.nodes.Nodup := by
    by_contra hc
    obtain ⟨x, hx⟩ := List.exists_duplicate_iff_not_nodup.mpr hc
    have hcons : ∀ pre u v post, threadOf x.tid hbg.nodes = pre ++ u :: v :: post →
        hbg.graph.HasEdge u v := by
      intro pre u v post ht
      have hv := mem_threadOf.mp (show v ∈ threadOf x.tid hbg.nodes by rw [ht]; simp)
      exact ⟨_, (hedges u v .intraThread).mpr (Or.inr ⟨rfl, pre, post, by rw [hv.2, ht]⟩)⟩
    have hcount : 2 ≤ (threadOf x.tid hbg.nodes).count x := by
      unfold threadOf
      rw [List.count_filter (by simp)]
      exact List.duplicate_iff_two_le_count.mp hx
    exact (List.duplicate_iff_two_le_count.mpr hcount).not_nodup
      (nodup_of_consecutive hacyclic hcons)
  refine ⟨hnd, ?_, ?_, ?_, ?_, ?_, ?_, hacyclic⟩
  · intro n
    rw [hgraph, hgnodes, hl.mem_graph]
    constructor
    · rintro (hn | ⟨e, he, hn⟩)
      · exact hn
      · have hends := hend e ((hes e).mp he)
        rw [hnodes, List.mem_filter]
        rcases hn with rfl | rfl
        · exact ⟨hends.1, hp _⟩
        · exact ⟨hends.2, hp _⟩
    · exact Or.inl
  · intro t
    rw [hthread, hl.byThread]
  · intro t
    rw [← hl.mem_byThread, ← hthread]
    rfl
  · intro n hn
    obtain ⟨pre, post, ht, -, hlook⟩ := hl.location n hn
    unfold HBG.getNodeLocation pyGet
    rw [hloc, hlook]
    have hnd' : (threadOf n.tid hbg.nodes).Nodup := hnd.filter _
    rw [ht] at hnd'
    have hpre : n ∉ pre := fun hm => (List.disjoint_of_nodup_append hnd') hm List.mem_cons_self
    unfold HBG.index
    rw [ht, List.idxOf_append_of_notMem hpre, List.idxOf_cons_self, Nat.add_zero]
    rfl
  · intro u v
    rw [hedges]
    simp
  · intro u v he
    rcases (hedges u v _).mp he with ⟨-, e, hmem, rfl, rfl⟩ | ⟨hk, -⟩
    · exact ⟨htid e hmem, rfl, rfl⟩
    · cases hk

/-- Threads that do not synchronize form no cycle. -/
theorem acyclic_of_nodup {l : List Node} (hnd : l.Nodup) :
    (l.foldl ThreadTables.addNode .new).graph.Acyclic := by
  have hlists := ThreadTables.lists_addNodes l
  have hlt : ∀ {u v}, (l.foldl ThreadTables.addNode .new).graph.Reaches u v →
      u.tid = v.tid ∧ (threadOf u.tid l).idxOf u < (threadOf v.tid l).idxOf v := by
    intro u v hr
    have hedge : ∀ {u v}, (l.foldl ThreadTables.addNode .new).graph.HasEdge u v →
        u.tid = v.tid ∧ (threadOf u.tid l).idxOf u < (threadOf v.tid l).idxOf v := by
      rintro u v ⟨k, hk⟩
      obtain ⟨-, pre, post, hl⟩ := (hlists.edge u v k).mp hk
      have hu := mem_threadOf.mp (show u ∈ threadOf v.tid l by rw [hl]; simp)
      have hnd' : (threadOf v.tid l).Nodup := hnd.filter _
      refine ⟨hu.2, ?_⟩
      rw [hu.2]
      exact idxOf_lt_of_consecutive hnd' hl
    induction hr with
    | single h => exact hedge h
    | tail _ h ih => exact ⟨ih.1.trans (hedge h).1, ih.2.trans (hedge h).2⟩
  exact fun v hv => lt_irrefl _ (hlt hv).2

/-- The accesses fit into the lines of the first flush, or of the default size. -/
def FitsLines (nodes : List Node) : Prop :=
  ∀ n, Node.instruction n ∈ nodes → n.itype.isReadWriteType = true →
    n.interval.2 ≤ Pycprd.getCachelineAddress n.address
    ((flushSize nodes).getD defaultCachelineSize) +
      (flushSize nodes).getD defaultCachelineSize

theorem findVars_eq {hbg : HBG} (h : ∀ n, Node.instruction n ∈ hbg.readWriteNodes →
    n.interval.2 ≤ Pycprd.getCachelineAddress n.address hbg.cachelineSize + hbg.cachelineSize) :
    hbg.findVars = .ok () := by
  unfold HBG.findVars
  revert h
  generalize hbg.readWriteNodes = l
  intro h
  induction l with
  | nil => rfl
  | cons x l ih =>
    have hl := ih (fun n hn => h n (List.mem_cons_of_mem x hn))
    cases x with
    | epoch _ => exact hl
    | instruction n =>
      simp only [List.forM]
      rw [pyAssert_bind (decide_eq_true (h n List.mem_cons_self))]
      exact hl

theorem exists_addHappensBeforeEdges {es : List (EpochNode × EpochNode)}
    (h : ∀ e ∈ es, e.1.tid ≠ e.2.tid) (g : Digraph Node EdgeType) :
    ∃ g', addHappensBeforeEdges es g = .ok g' := by
  induction es generalizing g with
  | nil => exact ⟨g, rfl⟩
  | cons e es ih =>
    obtain ⟨g', hg'⟩ := ih (fun e' he' => h e' (List.mem_cons_of_mem e he'))
      (g.addEdge (.epoch e.1) (.epoch e.2) .interThread)
    refine ⟨g', ?_⟩
    unfold addHappensBeforeEdges
    rw [pyAssert_bind (bne_iff_ne.mpr (h e List.mem_cons_self))]
    exact hg'

/-- A build succeeds when its edges make no cycle. -/
theorem build_ok {b' : HBGBuilder} {g : Digraph Node EdgeType} (hb : b.filterIfAsked it o = .ok b')
    (hfits : FitsLines b'.nodes)
    (hg : addHappensBeforeEdges es (b'.nodes.foldl ThreadTables.addNode .new).graph = .ok g)
    (hacyclic : g.Acyclic) : ∃ hbg, b.build it es o = .ok hbg ∧ hbg.nodes = b'.nodes := by
  have hlists := ThreadTables.lists_addNodes b'.nodes
  unfold build
  simp only [hb, hg, ok_bind]
  generalize hhbg : HBG.mk _ _ _ _ _ _ _ = hbg
  have hvars : hbg.findVars = .ok () := by
    refine findVars_eq (fun n hn => ?_)
    unfold HBG.readWriteNodes HBG.getNodesByType at hn
    rw [List.mem_union_iff, ← hhbg] at hn
    rw [← hhbg]
    rcases hn with hn | hn
    · obtain ⟨hm, hi⟩ := (hlists.mem_byType _ _).mp hn
      exact hfits n hm (by rw [show n.itype = .read from hi]; rfl)
    · obtain ⟨hm, hi⟩ := (hlists.mem_byType _ _).mp hn
      exact hfits n hm (by rw [show n.itype = .write from hi]; rfl)
  refine ⟨hbg, ?_, by rw [← hhbg]⟩
  unfold HBG.init
  rw [hvars]
  simp only [ok_bind]
  cases o.assertDag with
  | false => rfl
  | true =>
    have hdag : hbg.graph.isDirectedAcyclicGraph = true := by
      rw [← hhbg]
      exact (Digraph.isDirectedAcyclicGraph_iff _).mpr hacyclic
    simp only [hdag, if_true]
    rfl

/-- A trace without inter-thread edges is built, with its nodes as they are. -/
theorem build_ok_of_no_edges (it : IntervalTreeApi) {b : HBGBuilder} {o : BuildOptions}
    (hf : o.filterVolatileNodes = false) (hnd : b.nodes.Nodup) (hfits : FitsLines b.nodes) :
    ∃ hbg, b.build it [] o = .ok hbg ∧ hbg.nodes = b.nodes := by
  have hb : b.filterIfAsked it o = .ok b := by
    unfold filterIfAsked
    rw [hf]
    rfl
  exact build_ok hb hfits rfl (acyclic_of_nodup hnd)

/-- The order in which the edges are iterated does not matter for the nodes. -/
theorem build_nodes_eq {es' : List (EpochNode × EpochNode)} {hbg' : HBG}
    (h : b.build it es o = .ok hbg) (h' : b.build it es' o = .ok hbg') :
    hbg.nodes = hbg'.nodes := by
  unfold build at h h'
  obtain ⟨b₁, hb₁, h⟩ := bind_eq_ok.mp h
  obtain ⟨b₂, hb₂, h'⟩ := bind_eq_ok.mp h'
  obtain ⟨g, -, h⟩ := bind_eq_ok.mp h
  obtain ⟨g', -, h'⟩ := bind_eq_ok.mp h'
  rw [hb₁] at hb₂
  obtain rfl := Except.ok.inj hb₂
  obtain ⟨rfl, -⟩ := HBG.init_eq_ok h
  obtain ⟨rfl, -⟩ := HBG.init_eq_ok h'
  rfl

theorem build_daisyChains (h : b.build it es o = .ok hbg) (hmake : o.makeDaisyChains = true) :
    hbg.daisyChains = some (hbg.nodes.foldl DaisyChains.addNode .new) := by
  obtain ⟨-, -, -, -, -, -, -, -, hchains, -⟩ := build_eq_ok h
  rw [hchains, if_pos hmake]

end HBGBuilder

end Prd.Pycprd
