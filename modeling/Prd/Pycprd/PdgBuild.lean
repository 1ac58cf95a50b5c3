import Prd.Pycprd.HbgWellFormed
import Prd.Pycprd.Pdg

/-!
# Dependency graphs made from a happens-before graph

Both ways of making them go through the threads with the set of reads that no write
depends on yet. A write takes the pending reads of other lines, all of them for the
mock graph and those of the known pairs of program counters otherwise.
-/
namespace Prd.Pycprd

open Prd.Foundation Relation

/-- The orders in which sets happen to be iterated. -/
structure SetOrder where
  nodes : List InstructionNode → List InstructionNode
  pcs : List ℕ → List ℕ
  mem_nodes : ∀ l n, n ∈ nodes l ↔ n ∈ l
  mem_pcs : ∀ l pc, pc ∈ pcs l ↔ pc ∈ l

namespace InstructionNode

def getCachelineInterval (n : InstructionNode) : ℕ × ℕ :=
  Pycprd.getCachelineInterval n.address n.size defaultCachelineSize

end InstructionNode

namespace PDGBuilder

def totalDependencies (b : PDGBuilder) : ℕ :=
  b.graph.nodes.length + (b.dependencies.entries.map fun e => e.2.length).sum

def addDependencies (b : PDGBuilder) (writeNode : InstructionNode)
    (readNodes : List InstructionNode) : Py PDGBuilder :=
  readNodes.foldlM (fun b readNode => b.addDependency writeNode readNode) b

section Pc

variable (order : SetOrder)

/-- The pending reads by their program counters. -/
abbrev PendingReads := Dict ℕ (List InstructionNode)

/-- The body of the loop over the read counters that a write depends on. -/
def takeReads (n : InstructionNode) (s : PDGBuilder × PendingReads) (readPc : ℕ) :
    Py (PDGBuilder × PendingReads) := do
  let reads := s.2.getD readPc []
  let taken := (order.nodes reads).filter fun r => n.getCachelineInterval ≠ r.getCachelineInterval
  let b ← s.1.addDependencies n taken
  pure (b, s.2.insert readPc (reads.filter (· ∉ taken)))

def pcStep (s : PDGBuilder × PendingReads) : Node → Py (PDGBuilder × PendingReads)
  | .epoch _ => pure s
  | .instruction n =>
    match n.itype with
    | .read => pure (s.1, s.2.insert n.pc ((s.2.getD n.pc []).insert n))
    | .write => (order.pcs (s.1.dependencies.getD n.pc [])).foldlM (takeReads order n) s
    | _ => pure s

def addPcDependencies (b : PDGBuilder) (threadNodes : List Node) : Py PDGBuilder := do
  let s ← threadNodes.foldlM (pcStep order) (b, ∅)
  pure s.1

/-- An empty graph counts as none. -/
def build (b : PDGBuilder) (hbg : HBG) : Py PDG :=
  if b.dependencies.keys = [] then PDG.ofGraph b.graph
  else do
    pyAssert (hbg.nodes.length != 0) "There are PC based dependencies, HBG is required"
    let b ← hbg.tids.foldlM (fun b tid => do
      let threadNodes ← hbg.getThreadNodes tid
      b.addPcDependencies order threadNodes) b
    PDG.ofGraph b.graph

end Pc

end PDGBuilder

section Mock

variable (order : SetOrder)

def mockStep (s : PDGBuilder × List InstructionNode) : Node → Py (PDGBuilder × List InstructionNode)
  | .epoch _ => pure s
  | .instruction n =>
    match n.itype with
    | .read => pure (s.1, s.2.insert n)
    | .write => do
      let taken := order.nodes (s.2.filter fun r => r.getCachelineAddress ≠ n.getCachelineAddress)
      let b ← s.1.addDependencies n taken
      pure (b, s.2.filter (· ∉ taken))
    | _ => pure s

def addMockDependencies (b : PDGBuilder) (threadNodes : List Node) : Py PDGBuilder := do
  let s ← threadNodes.foldlM (mockStep order) (b, [])
  pure s.1

def generateMockPdgV2 (hbg : HBG) : Py PDG := do
  let b ← hbg.tids.foldlM (fun b tid => do
    let threadNodes ← hbg.getThreadNodes tid
    addMockDependencies order b threadNodes) .new
  PDG.ofGraph b.graph

end Mock

/-- A write of the list and a read of its thread that may be linked. -/
structure Links (l : List Node) (apart : InstructionNode → InstructionNode → Prop)
    (d r : InstructionNode) : Prop where
  writeMem : Node.instruction d ∈ l
  readMem : Node.instruction r ∈ l
  isWrite : d.itype = .write
  isRead : r.itype = .read
  tid : d.tid = r.tid
  apart : apart d r

/-- What was added to a builder are links between nodes of the list. -/
structure Extends (l : List Node) (apart : InstructionNode → InstructionNode → Prop)
    (b b' : PDGBuilder) : Prop where
  dependencies : b'.dependencies = b.dependencies
  keeps : ∀ v ∈ b.graph.nodes, v ∈ b'.graph.nodes
  nodes : ∀ v ∈ b'.graph.nodes, v ∈ b.graph.nodes ∨ Node.instruction v ∈ l
  edges : ∀ e ∈ b'.graph.edges, e ∈ b.graph.edges ∨ Links l apart e.1 e.2.1

namespace Extends

variable {l : List Node} {apart : InstructionNode → InstructionNode → Prop} {b b' b'' : PDGBuilder}

theorem refl (b : PDGBuilder) : Extends l apart b b :=
  ⟨rfl, fun _ hv => hv, fun _ hv => Or.inl hv, fun _ he => Or.inl he⟩

theorem trans (h : Extends l apart b b') (h' : Extends l apart b' b'') : Extends l apart b b'' where
  dependencies := h'.dependencies.trans h.dependencies
  keeps := fun v hv => h'.keeps v (h.keeps v hv)
  nodes := fun v hv => (h'.nodes v hv).elim (h.nodes v) Or.inr
  edges := fun e he => (h'.edges e he).elim (h.edges e) Or.inr

end Extends

section Adding

variable {l : List Node} {apart : InstructionNode → InstructionNode → Prop}

theorem addDependency_spec (b : PDGBuilder) {d r : InstructionNode} (h : Links l apart d r) :
    ∃ b', b.addDependency d r = .ok b' ∧ Extends l apart b b' := by
  refine ⟨{ b with graph := b.graph.addEdge d r () }, ?_, rfl, ?_, ?_, ?_⟩
  · unfold PDGBuilder.addDependency
    rw [pyAssert_bind (beq_iff_eq.mpr h.isWrite), pyAssert_bind (beq_iff_eq.mpr h.isRead),
      pyAssert_bind (beq_iff_eq.mpr h.tid)]
    rfl
  · intro v hv
    exact (Digraph.mem_nodes_addEdge _ _ _ _ _).mpr (Or.inl hv)
  · intro v hv
    rcases (Digraph.mem_nodes_addEdge _ _ _ _ _).mp hv with hv | rfl | rfl
    · exact Or.inl hv
    · exact Or.inr h.writeMem
    · exact Or.inr h.readMem
  · intro e he
    rcases (Digraph.mem_edges_addEdge _ _ _ _ _).mp he with rfl | ⟨he, -⟩
    · exact Or.inr h
    · exact Or.inl he

theorem addDependencies_spec (b : PDGBuilder) {d : InstructionNode} {reads : List InstructionNode}
    (h : ∀ r ∈ reads, Links l apart d r) :
    ∃ b', b.addDependencies d reads = .ok b' ∧ Extends l apart b b' := by
  induction reads generalizing b with
  | nil => exact ⟨b, rfl, .refl b⟩
  | cons r reads ih =>
    obtain ⟨b₁, hb₁, hext₁⟩ := addDependency_spec b (h r List.mem_cons_self)
    obtain ⟨b', hb', hext⟩ := ih b₁ fun r' hr' => h r' (List.mem_cons_of_mem r hr')
    refine ⟨b', ?_, hext₁.trans hext⟩
    unfold PDGBuilder.addDependencies at hb' ⊢
    rw [List.foldlM_cons, hb₁]
    exact hb'

/-- The reads come from the list and belong to the thread. -/
def ReadsOf (l : List Node) (t : ThreadId) (reads : List InstructionNode) : Prop :=
  ∀ r ∈ reads, Node.instruction r ∈ l ∧ r.itype = .read ∧ r.tid = t

theorem ReadsOf.links {t : ThreadId} {reads : List InstructionNode} (h : ReadsOf l t reads)
    {d r : InstructionNode} (hd : Node.instruction d ∈ l) (hw : d.itype = .write) (ht : d.tid = t)
    (hr : r ∈ reads) (ha : apart d r) : Links l apart d r := by
  obtain ⟨hmem, hi, hrt⟩ := h r hr
  exact ⟨hd, hmem, hw, hi, ht.trans hrt.symm, ha⟩

theorem ReadsOf.insert {t : ThreadId} {reads : List InstructionNode} (h : ReadsOf l t reads)
    {n : InstructionNode} (hn : Node.instruction n ∈ l) (hi : n.itype = .read) (ht : n.tid = t) :
    ReadsOf l t (reads.insert n) := by
  intro r hr
  rcases List.mem_insert_iff.mp hr with rfl | hr
  · exact ⟨hn, hi, ht⟩
  · exact h r hr

theorem ReadsOf.filter {t : ThreadId} {reads : List InstructionNode} (h : ReadsOf l t reads)
    (p : InstructionNode → Bool) : ReadsOf l t (reads.filter p) :=
  fun r hr => h r (List.mem_filter.mp hr).1

/-- The nodes belong to one thread of the list. -/
def NodesOf (l : List Node) (t : ThreadId) (threadNodes : List Node) : Prop :=
  ∀ n ∈ threadNodes, n ∈ l ∧ n.tid = t

end Adding

section Threads

variable {l : List Node} {apart : InstructionNode → InstructionNode → Prop}

/-- A loop over the nodes of a thread extends the builder when every step does. -/
theorem foldlM_extends {σ : Type} {step : PDGBuilder × σ → Node → Py (PDGBuilder × σ)}
    {Inv : PDGBuilder × σ → Prop} {t : ThreadId}
    (hstep : ∀ s n, Inv s → n ∈ l → n.tid = t →
      ∃ s', step s n = .ok s' ∧ Extends l apart s.1 s'.1 ∧ Inv s')
    {threadNodes : List Node} (hnodes : NodesOf l t threadNodes) {s : PDGBuilder × σ}
    (hs : Inv s) : ∃ s', threadNodes.foldlM step s = .ok s' ∧ Extends l apart s.1 s'.1 := by
  induction threadNodes generalizing s with
  | nil => exact ⟨s, rfl, .refl _⟩
  | cons n threadNodes ih =>
    obtain ⟨hn, ht⟩ := hnodes n List.mem_cons_self
    obtain ⟨s₁, hs₁, hext₁, hI₁⟩ := hstep s n hs hn ht
    obtain ⟨s', hs', hext⟩ := ih (fun m hm => hnodes m (List.mem_cons_of_mem n hm)) hI₁
    refine ⟨s', ?_, hext₁.trans hext⟩
    rw [List.foldlM_cons, hs₁]
    exact hs'

/-- The tables of the graph list its threads. -/
def HBG.ListsThreads (hbg : HBG) : Prop :=
  ∀ t ∈ hbg.tids, hbg.getThreadNodes t = .ok (threadOf t hbg.nodes)

theorem foldlM_threads {hbg : HBG} (h : hbg.ListsThreads)
    {add : PDGBuilder → List Node → Py PDGBuilder}
    (hadd : ∀ b t threadNodes, NodesOf hbg.nodes t threadNodes →
      ∃ b', add b threadNodes = .ok b' ∧ Extends hbg.nodes apart b b') (b : PDGBuilder) :
    ∃ b', hbg.tids.foldlM (fun b tid => do
        let threadNodes ← hbg.getThreadNodes tid
        add b threadNodes) b = .ok b' ∧ Extends hbg.nodes apart b b' := by
  unfold HBG.ListsThreads at h
  revert h
  generalize hbg.tids = ts
  intro h
  induction ts generalizing b with
  | nil => exact ⟨b, rfl, .refl b⟩
  | cons t ts ih =>
    have hnodes : NodesOf hbg.nodes t (threadOf t hbg.nodes) := fun n hn => mem_threadOf.mp hn
    obtain ⟨b₁, hb₁, hext₁⟩ := hadd b t _ hnodes
    obtain ⟨b', hb', hext⟩ := ih b₁ fun t' ht' => h t' (List.mem_cons_of_mem t ht')
    refine ⟨b', ?_, hext₁.trans hext⟩
    rw [List.foldlM_cons, h t List.mem_cons_self, ok_bind, hb₁]
    exact hb'

/-- Links lead from writes to reads, so they form no cycle. -/
theorem isDirectedAcyclicGraph_of_links {g : Digraph InstructionNode Unit}
    (h : ∀ e ∈ g.edges, e.1.itype = .write ∧ e.2.1.itype = .read) :
    g.isDirectedAcyclicGraph = true := by
  rw [Digraph.isDirectedAcyclicGraph_iff]
  intro v hv
  obtain ⟨_, ⟨_, hout⟩, -⟩ := TransGen.head'_iff.mp hv
  obtain ⟨_, -, ⟨_, hin⟩⟩ := TransGen.tail'_iff.mp hv
  have hwrite := (h _ hout).1
  rw [(h _ hin).2] at hwrite
  cases hwrite

theorem PDG.ofGraph_eq {g : Digraph InstructionNode Unit} (h : g.isDirectedAcyclicGraph = true) :
    PDG.ofGraph g = .ok ⟨g, h⟩ :=
  dif_pos h

end Threads

section Mock

variable {l : List Node} {t : ThreadId} (order : SetOrder)

def LinesDiffer (d r : InstructionNode) : Prop := r.getCachelineAddress ≠ d.getCachelineAddress

theorem mockStep_spec {s : PDGBuilder × List InstructionNode} (hs : ReadsOf l t s.2) {n : Node}
    (hn : n ∈ l) (ht : n.tid = t) :
    ∃ s', mockStep order s n = .ok s' ∧ Extends l LinesDiffer s.1 s'.1 ∧ ReadsOf l t s'.2 := by
  cases n with
  | epoch _ => exact ⟨s, rfl, .refl _, hs⟩
  | instruction n =>
    simp only [mockStep]
    rcases n.itype_cases with hi | hi | hi
    · rw [hi]
      exact ⟨_, rfl, .refl _, hs.insert hn hi ht⟩
    · have hlinks : ∀ r ∈ order.nodes (s.2.filter fun r =>
          r.getCachelineAddress ≠ n.getCachelineAddress), Links l LinesDiffer n r := by
        intro r hr
        rw [order.mem_nodes, List.mem_filter] at hr
        have hapart : r.getCachelineAddress ≠ n.getCachelineAddress := of_decide_eq_true hr.2
        exact hs.links hn hi ht hr.1 hapart
      obtain ⟨b', hb', hext⟩ := addDependencies_spec s.1 hlinks
      rw [hi]
      simp only [hb', ok_bind]
      exact ⟨_, rfl, hext, hs.filter _⟩
    · rw [hi]
      exact ⟨s, rfl, .refl _, hs⟩

theorem addMockDependencies_spec {b : PDGBuilder} {threadNodes : List Node}
    (hnodes : NodesOf l t threadNodes) :
    ∃ b', addMockDependencies order b threadNodes = .ok b' ∧ Extends l LinesDiffer b b' := by
  have hnone : ReadsOf l t (b, ([] : List InstructionNode)).2 :=
    fun r hr => absurd hr List.not_mem_nil
  obtain ⟨s, hs, hext⟩ := foldlM_extends
    (fun s n (hI : ReadsOf l t s.2) hn ht => mockStep_spec order hI hn ht) hnodes hnone
  refine ⟨s.1, ?_, hext⟩
  unfold addMockDependencies
  rw [hs]
  rfl

/-- The mock graph is made, and links writes to reads of other lines. -/
theorem generateMockPdgV2_spec {hbg : HBG} (h : hbg.ListsThreads) :
    ∃ pdg, generateMockPdgV2 order hbg = .ok pdg ∧
      (∀ v ∈ pdg.graph.nodes, Node.instruction v ∈ hbg.nodes) ∧
      ∀ e ∈ pdg.graph.edges, Links hbg.nodes LinesDiffer e.1 e.2.1 := by
  obtain ⟨b, hb, hext⟩ := foldlM_threads h
    (fun b _ _ hnodes => addMockDependencies_spec order hnodes (b := b)) .new
  have hedges : ∀ e ∈ b.graph.edges, Links hbg.nodes LinesDiffer e.1 e.2.1 :=
    fun e he => (hext.edges e he).resolve_left List.not_mem_nil
  have hdag :=
    isDirectedAcyclicGraph_of_links fun e he => ⟨(hedges e he).isWrite, (hedges e he).isRead⟩
  refine ⟨⟨b.graph, hdag⟩, ?_, fun v hv => (hext.nodes v hv).resolve_left List.not_mem_nil, hedges⟩
  unfold generateMockPdgV2
  rw [hb]
  exact PDG.ofGraph_eq hdag

end Mock

section Pc

variable {l : List Node} {t : ThreadId} (order : SetOrder)

def IntervalsDiffer (d r : InstructionNode) : Prop :=
  d.getCachelineInterval ≠ r.getCachelineInterval

/-- Every set of pending reads belongs to the thread. -/
def PendingOf (l : List Node) (t : ThreadId) (pending : PDGBuilder.PendingReads) : Prop :=
  ∀ pc, ReadsOf l t (pending.getD pc [])

theorem PendingOf.insert {pending : PDGBuilder.PendingReads} (h : PendingOf l t pending) (pc : ℕ)
    {reads : List InstructionNode} (hr : ReadsOf l t reads) :
    PendingOf l t (pending.insert pc reads) := by
  intro pc'
  rw [Dict.getD_insert]
  split_ifs
  · exact hr
  · exact h pc'

theorem takeReads_spec {s : PDGBuilder × PDGBuilder.PendingReads} (hs : PendingOf l t s.2)
    {n : InstructionNode} (hn : Node.instruction n ∈ l) (hi : n.itype = .write) (ht : n.tid = t)
    (readPc : ℕ) :
    ∃ s', PDGBuilder.takeReads order n s readPc = .ok s' ∧ Extends l IntervalsDiffer s.1 s'.1 ∧
      PendingOf l t s'.2 := by
  have hlinks : ∀ r ∈ (order.nodes (s.2.getD readPc [])).filter (fun r =>
      n.getCachelineInterval ≠ r.getCachelineInterval), Links l IntervalsDiffer n r := by
    intro r hr
    rw [List.mem_filter, order.mem_nodes] at hr
    have hapart : n.getCachelineInterval ≠ r.getCachelineInterval := of_decide_eq_true hr.2
    exact (hs readPc).links hn hi ht hr.1 hapart
  obtain ⟨b', hb', hext⟩ := addDependencies_spec s.1 hlinks
  unfold PDGBuilder.takeReads
  simp only [hb', ok_bind]
  exact ⟨_, rfl, hext, hs.insert readPc ((hs readPc).filter _)⟩

theorem foldlM_takeReads_spec {s : PDGBuilder × PDGBuilder.PendingReads} (hs : PendingOf l t s.2)
    {n : InstructionNode} (hn : Node.instruction n ∈ l) (hi : n.itype = .write) (ht : n.tid = t)
    (pcs : List ℕ) :
    ∃ s', pcs.foldlM (PDGBuilder.takeReads order n) s = .ok s' ∧
      Extends l IntervalsDiffer s.1 s'.1 ∧ PendingOf l t s'.2 := by
  induction pcs generalizing s with
  | nil => exact ⟨s, rfl, .refl _, hs⟩
  | cons pc pcs ih =>
    obtain ⟨s₁, hs₁, hext₁, hI₁⟩ := takeReads_spec order hs hn hi ht pc
    obtain ⟨s', hs', hext, hI⟩ := ih hI₁
    refine ⟨s', ?_, hext₁.trans hext, hI⟩
    rw [List.foldlM_cons, hs₁]
    exact hs'

theorem pcStep_spec {s : PDGBuilder × PDGBuilder.PendingReads} (hs : PendingOf l t s.2) {n : Node}
    (hn : n ∈ l) (ht : n.tid = t) :
    ∃ s', PDGBuilder.pcStep order s n = .ok s' ∧ Extends l IntervalsDiffer s.1 s'.1 ∧
      PendingOf l t s'.2 := by
  cases n with
  | epoch _ => exact ⟨s, rfl, .refl _, hs⟩
  | instruction n =>
    simp only [PDGBuilder.pcStep]
    rcases n.itype_cases with hi | hi | hi
    · rw [hi]
      exact ⟨_, rfl, .refl _, hs.insert n.pc ((hs n.pc).insert hn hi ht)⟩
    · rw [hi]
      exact foldlM_takeReads_spec order hs hn hi ht _
    · rw [hi]
      exact ⟨s, rfl, .refl _, hs⟩

theorem addPcDependencies_spec {b : PDGBuilder} {threadNodes : List Node}
    (hnodes : NodesOf l t threadNodes) :
    ∃ b', b.addPcDependencies order threadNodes = .ok b' ∧ Extends l IntervalsDiffer b b' := by
  have hnone : PendingOf l t (b, (∅ : PDGBuilder.PendingReads)).2 := by
    intro pc r hr
    rw [Dict.getD_empty] at hr
    cases hr
  obtain ⟨s, hs, hext⟩ := foldlM_extends
    (fun s n (hI : PendingOf l t s.2) hn ht => pcStep_spec order hI hn ht) hnodes hnone
  refine ⟨s.1, ?_, hext⟩
  unfold PDGBuilder.addPcDependencies
  rw [hs]
  rfl

/-- A build with dependencies by program counters only succeeds on a nonempty graph. -/
theorem PDGBuilder.keys_or_nodes_of_build {pb : PDGBuilder} {hbg : HBG} {pdg : PDG}
    (h : pb.build order hbg = .ok pdg) : pb.dependencies.keys = [] ∨ hbg.nodes ≠ [] := by
  by_contra hc
  rw [not_or, not_not] at hc
  unfold PDGBuilder.build at h
  rw [if_neg hc.1, hc.2] at h
  cases h

/-- The links of a builder lead from writes to reads. -/
def PDGBuilder.Bipartite (b : PDGBuilder) : Prop :=
  ∀ e ∈ b.graph.edges, e.1.itype = .write ∧ e.2.1.itype = .read

/-- A builder with links between writes and reads makes its graph, unless it needs nodes of an
empty happens-before graph. -/
theorem PDGBuilder.build_spec {hbg : HBG} (h : hbg.ListsThreads) {b : PDGBuilder}
    (hb : b.Bipartite) (hne : b.dependencies.keys = [] ∨ hbg.nodes ≠ []) :
    ∃ b' pdg, b.build order hbg = .ok pdg ∧ pdg.graph = b'.graph ∧
      Extends hbg.nodes IntervalsDiffer b b' := by
  have hdag : ∀ {b' : PDGBuilder}, Extends hbg.nodes IntervalsDiffer b b' →
      b'.graph.isDirectedAcyclicGraph = true := by
    intro b' hext
    refine isDirectedAcyclicGraph_of_links fun e he => ?_
    rcases hext.edges e he with he | hlink
    · exact hb e he
    · exact ⟨hlink.isWrite, hlink.isRead⟩
  unfold PDGBuilder.build
  split_ifs with hkeys
  · exact ⟨b, ⟨b.graph, hdag (.refl b)⟩, PDG.ofGraph_eq _, rfl, .refl b⟩
  · have hlen : (hbg.nodes.length != 0) = true := by
      rw [bne_iff_ne, ne_eq, List.length_eq_zero_iff]
      exact hne.resolve_left hkeys
    obtain ⟨b', hb', hext⟩ := foldlM_threads h
      (fun b _ _ hnodes => addPcDependencies_spec order hnodes (b := b)) b
    refine ⟨b', ⟨b'.graph, hdag hext⟩, ?_, rfl, hext⟩
    rw [pyAssert_bind hlen, hb']
    exact PDG.ofGraph_eq _

end Pc

end Prd.Pycprd
