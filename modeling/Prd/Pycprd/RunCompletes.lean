import Prd.Pycprd.PdgBuild
import Prd.Pycprd.RunReports

/-!
# A run on generated dependencies completes

The dependency graphs that are made from a happens-before graph link writes to reads
of their threads on other lines. With them the fast version of a run raises nothing.
-/
namespace Prd.Pycprd

open Prd.Foundation Relation

variable {it : IntervalTreeApi} {b : HBGBuilder} {es : List (EpochNode × EpochNode)}
  {o : HBGBuilder.BuildOptions} {hbg : HBG} {pdg : PDG} {postorder reversePostorder : List Node}

theorem HBGBuilder.build_listsThreads (h : b.build it es o = .ok hbg) : hbg.ListsThreads := by
  obtain ⟨-, -, -, -, -, -, hthread, -⟩ := build_eq_ok h
  have hlists := ThreadTables.lists_addNodes hbg.nodes
  intro t ht
  have hmem : t ∈ hbg.nodesByThread := AList.mem_keys.mpr ht
  unfold HBG.getThreadNodes
  rw [pyGet_eq hmem [], hthread, hlists.byThread]

/-- Nodes that each stay in one line and have different line intervals are on different lines. -/
theorem line_ne_of_intervalsDiffer {d r : InstructionNode} (hd : d.InOneLine) (hr : r.InOneLine)
    (h : IntervalsDiffer d r) : d.getCachelineAddress ≠ r.getCachelineAddress := by
  intro hline
  apply h
  unfold InstructionNode.getCachelineAddress at hline
  rw [line_eq hd.1, line_eq hr.1] at hline
  unfold InstructionNode.getCachelineInterval
  rw [getCachelineInterval_eq hd d.size_ne_zero, getCachelineInterval_eq hr r.size_ne_zero, hline]

/-- The builder of dependencies that were given by program counters only. -/
def pcBuilder (pairs : List (ℕ × ℕ)) : PDGBuilder :=
  pairs.foldl (fun b p => b.addDependencyPc p.1 p.2) .new

theorem pcBuilder_graph (pairs : List (ℕ × ℕ)) : (pcBuilder pairs).graph = .empty := by
  unfold pcBuilder
  induction pairs using List.reverseRecOn with
  | nil => rfl
  | append_singleton pairs p ih =>
    rw [List.foldl_append]
    exact ih

/-- The two ways of making a dependency graph. -/
def IsGenerated (order : SetOrder) (hbg : HBG) (pdg : PDG) : Prop :=
  generateMockPdgV2 order hbg = .ok pdg ∨ ∃ pairs, (pcBuilder pairs).build order hbg = .ok pdg

/-- A builder that only knows program counters adds links only. -/
theorem links_of_pcBuilder {order : SetOrder} (h : hbg.ListsThreads) {pairs : List (ℕ × ℕ)}
    (hpdg : (pcBuilder pairs).build order hbg = .ok pdg)
    {e : InstructionNode × InstructionNode × Unit}
    (he : e ∈ pdg.graph.edges) : Links hbg.nodes IntervalsDiffer e.1 e.2.1 := by
  have hbip : (pcBuilder pairs).Bipartite := by
    intro e he
    rw [pcBuilder_graph] at he
    cases he
  obtain ⟨b', pdg', hpdg', hgraph, hext⟩ := PDGBuilder.build_spec order h hbip
    (PDGBuilder.keys_or_nodes_of_build order hpdg)
  obtain rfl := Except.ok.inj (hpdg.symm.trans hpdg')
  rw [hgraph] at he
  refine (hext.edges e he).resolve_left ?_
  rw [pcBuilder_graph]
  exact List.not_mem_nil

theorem IsGenerated.isDependency {order : SetOrder} (h : IsGenerated order hbg pdg)
    (hthreads : hbg.ListsThreads) (hline : ∀ n ∈ hbg.nodes, n.InOneLine) :
    ∀ e ∈ pdg.graph.edges, IsDependency hbg e.1 e.2.1 := by
  intro e he
  rcases h with hmock | ⟨pairs, hpc⟩
  · obtain ⟨pdg', hpdg', -, hedges⟩ := generateMockPdgV2_spec order hthreads
    obtain rfl := Except.ok.inj (hmock.symm.trans hpdg')
    have hlink := hedges e he
    exact ⟨hlink.writeMem, hlink.readMem, hlink.isWrite, hlink.isRead, hlink.tid, hlink.apart.symm⟩
  · have hlink := links_of_pcBuilder hthreads hpc he
    exact ⟨hlink.writeMem, hlink.readMem, hlink.isWrite, hlink.isRead, hlink.tid,
      line_ne_of_intervalsDiffer (hline _ hlink.writeMem) (hline _ hlink.readMem) hlink.apart⟩

/-- The fast version of a run returns a set of races, whatever the flags are. -/
theorem fast_run_completes {order : SetOrder} (hbuild : b.build it es o = .ok hbg)
    (hes : ∀ e, e ∈ es ↔ e ∈ b.edges) (hends : b.EndpointsAdded)
    (hchains : o.makeDaisyChains = true) (hdag : o.assertDag = true)
    (hline : ∀ n ∈ hbg.nodes, n.InOneLine) (hpdg : IsGenerated order hbg pdg)
    (ho : Orders hbg postorder reversePostorder) (flags : Flags) :
    ∃ races, run hbg pdg flags postorder reversePostorder true = .ok races := by
  have hdep := hpdg.isDependency (HBGBuilder.build_listsThreads hbuild) hline
  have hb : Built it b es o hbg pdg := ⟨hbuild, hes, hends, hchains, hdag, hline, hdep⟩
  obtain ⟨races, hrun, -⟩ := run_fast_spec hb ho flags
  exact ⟨races, hrun⟩

/-- Sets that are iterated in the order of insertion. -/
def insertionOrder : SetOrder := ⟨id, id, fun _ _ => Iff.rfl, fun _ _ => Iff.rfl⟩

def relayMockPdg : PDG := (generateMockPdgV2 insertionOrder relayGraph).toOption.get (by rfl)

theorem fast_run_completes_relay :
    ∃ races, run relayGraph relayMockPdg .default relayTrace.nodes.reverse relayTrace.nodes true =
      .ok races :=
  have hpdg : generateMockPdgV2 insertionOrder relayGraph = .ok relayMockPdg := rfl
  fast_run_completes relay_built.build relay_built.edgeOrder relay_built.endpoints rfl rfl
    relay_built.oneLine (Or.inl hpdg) relay_orders .default

end Prd.Pycprd
