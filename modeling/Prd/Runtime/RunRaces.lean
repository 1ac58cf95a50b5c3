import Prd.Pycprd.ExactSweeps
import Prd.Runtime.RunOrder
import Prd.Runtime.ThreadDependencies

/-!
# The races of a run

No edge of the graph of a run is redundant, and a single edge links two threads whenever any path
does. So both versions of the detector report the races of the run and nothing else.
-/
namespace Prd.Runtime

open Relation Prd.Foundation Prd.Pycprd

section Shape

variable {reused : ℕ → ℕ} {ops : List ClockOp} {g : Callers} {σ : ClockState} {it : IntervalTreeApi}
  {edgeOrder : List (EpochNode × EpochNode)} {o : HBGBuilder.BuildOptions} {hbg : HBG}

/-- What is known of the graph that is built from the lines of a run. -/
structure GraphOfRun (reused : ℕ → ℕ) (ops : List ClockOp) (σ : ClockState) (hbg : HBG) : Prop where
  nodes : hbg.nodes = (readLines σ.lines).nodes
  reaches : ∀ u v, hbg.graph.Reaches u v ↔
    TransGen (Next (readLines σ.lines).nodes (LoggedClocks.run (ops.map ClockOp.sync))) u v
  inter : ∀ u v, (u, v, .interThread) ∈ hbg.graph.edges ↔
    ∃ x y, (x, y) ∈ (LoggedClocks.run (ops.map ClockOp.sync)).edges ∧ u = epochOf x ∧ v = epochOf y
  order : OrdersEvents reused ops hbg

theorem Reached.graphOfRun (hops : Recordable ops) (hrun : (ClockState.new reused).run ops = some σ)
    (h : Reached ops g σ) (hes : ∀ e, e ∈ edgeOrder ↔ e ∈ (readLines σ.lines).edges)
    (hbuild : (readLines σ.lines).build it edgeOrder o = .ok hbg)
    (hnodes : hbg.nodes = (readLines σ.lines).nodes)
    (hreach : ∀ u v, hbg.graph.Reaches u v ↔
      TransGen (Next (readLines σ.lines).nodes (LoggedClocks.run (ops.map ClockOp.sync))) u v) :
    GraphOfRun reused ops σ hbg where
  nodes := hnodes
  reaches := hreach
  inter := by
    intro u v
    rw [HBGBuilder.build_edges hbuild]
    have hedges := (h.holdsLog hops.small).edges
    constructor
    · rintro (⟨-, e, he, hu, hv⟩ | ⟨hk, -⟩)
      · obtain ⟨x, hx, rfl⟩ := (hedges e).mp ((hes e).mp he)
        exact ⟨x.1, x.2, hx, hu, hv⟩
      · cases hk
    · rintro ⟨x, y, hxy, hu, hv⟩
      exact Or.inl ⟨rfl, _, (hes _).mpr ((hedges _).mpr ⟨(x, y), hxy, rfl⟩), hu, hv⟩
  order := h.ordersEvents hops hrun hnodes hreach

/-- No source of an edge reaches an earlier node of the thread that the edge leads to. -/
theorem Reached.irredundant (hops : Recordable ops) (h : Reached ops g σ)
    (hg : GraphOfRun reused ops σ hbg) : hbg.Irredundant := by
  have hb := h.holdsLog hops.small
  have hlogged := h.ordered.logged
  intro n c c' hc hmem htid hlt hr
  obtain ⟨x, y, hxy, rfl, rfl⟩ := (hg.inter n c).mp (HBG.WellFormed.mem_interChildren.mp hc)
  obtain ⟨-, hy, hne⟩ := hlogged.edge x y hxy
  have hback : Earlier (readLines σ.lines).nodes c' (epochOf y) := by
    rw [hg.nodes] at hmem
    unfold HBG.index at hlt
    rw [hg.nodes] at hlt
    exact ⟨hmem, hb.mem_iff.mpr hy, htid, hlt⟩
  rcases hb.path_cases hlogged ((hg.reaches _ _).mp hr) with he | ⟨a, b, hxa, hab, hbc⟩
  · exact hne (he.2.2.1.trans htid)
  · have hby : Earlier (readLines σ.lines).nodes (epochOf b) (epochOf y) := by
      rcases hbc with rfl | hbc
      · exact hback
      · exact hbc.trans hback
    have hpath : TransGen (LoggedClocks.run (ops.map ClockOp.sync)).Before x b := by
      rcases hb.eq_or_before hlogged hxa with rfl | hxa
      · exact hab
      · exact .head hxa hab
    have hbt : b.1 = y.1 := hby.2.2.1
    rcases hb.before_of_earlier hlogged hby with ⟨-, -, -, hlt⟩ | hby'
    · refine h.ordered.irredundant x y hxy b.2 hlt ?_
      rw [← hbt]
      exact hpath
    · exact (hlogged.edge b y hby').2.2 hbt

/-- Threads are linked by single edges. -/
theorem Reached.linksDirectly (hops : Recordable ops)
    (hrun : (ClockState.new reused).run ops = some σ) (h : Reached ops g σ)
    (hg : GraphOfRun reused ops σ hbg) (hw : hbg.WellFormed) : LinksDirectly hw := by
  intro y x hr
  have hearlier : ∀ u v, Earlier (readLines σ.lines).nodes u v → (hw.dag false).Lt u v := by
    intro u v huv
    rw [← hg.nodes] at huv
    exact huv
  have hplace : ∀ n, Node.instruction n ∈ hbg.graph.nodes → ∃ p, IsNodeAt reused ops p n :=
    fun n hn => (hg.order.mem_nodes n).mp ((hw.mem_graph _).mp hn)
  obtain ⟨p, hp⟩ := hplace y hr.mem.1
  obtain ⟨q, hq⟩ := hplace x hr.mem.2
  have hpq := (hg.order.reaches p q y x hp hq).mp hr
  by_cases htid : y.tid = x.tid
  · have hyp := h.placedAt hops.follows hops.small hrun hp
    have hxq := h.placedAt hops.follows hops.small hrun hq
    have hlt := (runsBefore_iff_lt hyp.event hxq.event htid).mp hpq
    exact Or.inl (hearlier _ _ (earlier_of_lt (h.holdsLog hops.small).nodup hrun hp hq hlt htid))
  · obtain ⟨a, b, hab, hya, hbx⟩ := h.exists_link hops.follows hops.small hrun hp hq htid hpq
    refine Or.inr ⟨_, _, hearlier _ _ hya, ?_, hearlier _ _ hbx⟩
    exact HBG.WellFormed.mem_interChildren.mpr ((hg.inter _ _).mpr ⟨a, b, hab, rfl, rfl⟩)

end Shape

section Dependencies

variable {reused : ℕ → ℕ} {ops : List ClockOp} {g : Callers} {σ : ClockState} {s : TraceParser}
  {lines : List LogLine} {hbg : HBG} {line : Line} {a : AccessLine} {n w r : InstructionNode}
  {tid eventId p : ℕ}

/-- What a thread has printed belongs to a run of its program. -/
theorem Recordable.exists_run (hops : Recordable ops) (hline : .print line ∈ ops) :
    ∃ thread : Thread, thread.tid = line.tid ∧ ∃ lines,
      PrintingThread.run line.tid .new thread.ops = some lines ∧
        printedBy line.tid (ops.filterMap ClockOp.line) <+: lines :=
  hops.prints line.tid (hops.follows.tid_lt hline)

theorem Recordable.aligned (hops : Recordable ops) (hline : .print line ∈ ops) :
    Aligned (printedBy line.tid (ops.filterMap ClockOp.line)) := by
  obtain ⟨thread, htid, lines, hrun, hpre⟩ := hops.exists_run hline
  exact (PrintingThread.aligned_run (htid ▸ thread.tid_lt) thread.length_ops hrun).of_prefix_of hpre

theorem mem_printedBy_self (hline : .print line ∈ ops) :
    line ∈ printedBy line.tid (ops.filterMap ClockOp.line) :=
  List.mem_filter.mpr ⟨List.mem_filterMap.mpr ⟨_, hline, rfl⟩, decide_eq_true rfl⟩

theorem Recordable.valid (hops : Recordable ops) (hline : .print line ∈ ops) : line.Valid := by
  obtain ⟨thread, htid, lines, hrun, hpre⟩ := hops.exists_run hline
  have hcoh := PrintingThread.coherent_run (htid ▸ thread.tid_lt) thread.length_ops hrun
  exact (hcoh.valid line (hpre.subset (mem_printedBy_self hline))).1

/-- No event of a run crosses a line. -/
theorem Recordable.inOneLine (hops : Recordable ops) (hn : IsNodeAt reused ops p n) :
    n.InOneLine := by
  obtain ⟨line, σ₁, hp, -, hnode⟩ := hn
  have hline := List.mem_of_getElem? hp
  cases line with
  | access a =>
    cases hnode
    exact hops.inLine a hline
  | flush f =>
    have haligned := (hops.aligned hline).flush f (mem_printedBy_self hline)
    have hvalid : f.addr < 2 ^ 64 := (hops.valid hline).addr
    cases hnode
    refine ⟨hvalid, ?_⟩
    show f.addr % 64 + 64 ≤ 64
    omega
  | pd p => cases hnode

theorem IsAccessNode.exists_access (h : IsAccessNode lines tid eventId n) :
    Node.instruction n ∈ (readLines lines).nodes ∧
      ∃ a, HasLine lines (fun _ l => l = .event (.access a)) ∧ a.tid = tid ∧ a.eventId = eventId ∧
        ∃ ident lineNumber, n = a.node ident lineNumber := by
  obtain ⟨pre, line, post, hlines, a, rfl, htid, hid, hnode⟩ := h
  refine ⟨(instruction_mem_readLines n).mpr ⟨pre, _, post, hlines, _, rfl, hnode⟩, a,
    ⟨pre, _, post, hlines, rfl⟩, htid, hid, ?_⟩
  cases hnode
  exact ⟨_, _, rfl⟩

theorem IsAccessNode.of_prefix {pre : List LogLine} (h : IsAccessNode pre tid eventId n)
    (hpre : pre <+: lines) : IsAccessNode lines tid eventId n :=
  HasLine.of_prefix h hpre

/-- A dependency of the trace is one of its thread, between accesses to different lines. -/
theorem Recordable.isDependency (hops : Recordable ops)
    (hrun : (ClockState.new reused).run ops = some σ) (hall : AllCoherent σ.lines)
    (hreads : Reads σ.lines s) (hnodes : hbg.nodes = (readLines σ.lines).nodes)
    (hedge : s.pdgBuilder.graph.HasEdge w r) : IsDependency hbg w r := by
  obtain ⟨pre, line, post, hlines, p, rfl, hw, hr⟩ := (hreads.dependency w r).mp hedge
  have hall' : AllCoherent (pre ++ [.event (.pd p)]) := by
    rw [hlines, List.append_cons] at hall
    exact hall.of_append
  obtain ⟨w', r', hw', hwt, hwtid, hr', hrt, hrtid⟩ := hall'.exists_nodes
  obtain rfl := hall'.of_append.access_unique hw hw'
  obtain rfl := hall'.of_append.access_unique hr hr'
  have hpre : pre <+: σ.lines := ⟨_, hlines.symm⟩
  obtain ⟨hwmem, a, ha, hatid, haid, _, _, hwnode⟩ := (hw.of_prefix hpre).exists_access
  obtain ⟨hrmem, b, hb, hbtid, hbid, _, _, hrnode⟩ := (hr.of_prefix hpre).exists_access
  have hmem : ∀ line, HasLine σ.lines (fun _ l => l = .event line) → .print line ∈ ops :=
    fun line => (mem_lines_iff hrun line).mp
  have hpd : ClockOp.print (.pd p) ∈ ops := hmem _ ⟨pre, _, post, hlines, rfl⟩
  have hprinted : ∀ a : AccessLine, .print (.access a) ∈ ops → a.tid = p.tid →
      .access a ∈ printedBy p.tid (ops.filterMap ClockOp.line) := by
    intro a ha htid
    rw [← htid]
    exact mem_printedBy_self ha
  have hapart := (hops.aligned hpd).apart p (mem_printedBy_self hpd) a b
    (hprinted a (hmem _ ha) hatid) (hprinted b (hmem _ hb) hbtid) haid hbid
  have hline : ∀ a : AccessLine, .print (.access a) ∈ ops →
      getCachelineAddress a.addr defaultCachelineSize = 64 * (a.addr / 64) :=
    fun a ha => line_eq (hops.valid ha).addr
  refine ⟨?_, ?_, hwt, hrt, hwtid.trans hrtid.symm, ?_⟩
  · rw [hnodes]
    exact hwmem
  · rw [hnodes]
    exact hrmem
  · have hwline := hline a (hmem _ ha)
    have hrline := hline b (hmem _ hb)
    subst hwnode hrnode
    unfold InstructionNode.getCachelineAddress
    simp only [AccessLine.node]
    rw [hwline, hrline]
    exact fun he => hapart (Nat.eq_of_mul_eq_mul_left (by decide) he)

/-- The dependency graph is the recorded one, or the mock graph when no dependency was recorded. -/
theorem Reads.exists_buildPdg (hreads : Reads lines s) (order : SetOrder)
    (hthreads : hbg.ListsThreads) (hdep : ∀ w r, s.pdgBuilder.graph.HasEdge w r →
      IsDependency hbg w r) :
    ∃ pdg, s.buildPdg order hbg = .ok pdg ∧ (∀ e ∈ pdg.graph.edges, IsDependency hbg e.1 e.2.1) ∧
      ((∃ w r, s.pdgBuilder.graph.HasEdge w r) → pdg.graph = s.pdgBuilder.graph) := by
  unfold TraceParser.buildPdg
  split_ifs with hzero
  · obtain ⟨pdg, hpdg, -, hlinks⟩ := generateMockPdgV2_spec order hthreads
    refine ⟨pdg, hpdg, fun e he => ?_, ?_⟩
    · have hl := hlinks e he
      exact ⟨hl.writeMem, hl.readMem, hl.isWrite, hl.isRead, hl.tid, hl.apart.symm⟩
    · rintro ⟨w, r, hedge⟩
      unfold PDGBuilder.totalDependencies at hzero
      have hnone : s.pdgBuilder.graph.nodes = [] := List.length_eq_zero_iff.mp (by omega)
      obtain ⟨l, hl⟩ := hedge
      have hmem := (s.pdgBuilder.graph.edges_mem _ hl).1
      rw [hnone] at hmem
      cases hmem
  · have hedges : ∀ e ∈ s.pdgBuilder.graph.edges, IsDependency hbg e.1 e.2.1 :=
      fun e he => hdep e.1 e.2.1 ⟨e.2.2, he⟩
    have hdag :=
      isDirectedAcyclicGraph_of_links fun e he => ⟨(hedges e he).isWrite, (hedges e he).isRead⟩
    refine ⟨⟨s.pdgBuilder.graph, hdag⟩, ?_, hedges, fun _ => rfl⟩
    unfold PDGBuilder.build
    rw [hreads.dependencies, if_pos AList.keys_empty]
    exact PDG.ofGraph_eq hdag

end Dependencies

/-- A flush of the line comes after the one and before the other. -/
def FlushedInRun (ops : List ClockOp) (line p q : ℕ) : Prop :=
  ∃ k f, ops[k]? = some (.print (.flush f)) ∧ f.addr / kCacheLineSize = line ∧ RunsBefore ops p k ∧
    RunsBefore ops k q

/-- The thread has printed that what it writes depends on what it has read. -/
def DependsInRun (ops : List ClockOp) (a c : AccessLine) : Prop :=
  ∃ p, .print (.pd p) ∈ ops ∧ a.tid = p.tid ∧ c.tid = p.tid ∧ a.eventId = p.readEventId ∧
    c.eventId = p.writeEventId

/-- The first access reads from the second, which may not be persistent when the third is. -/
structure IsRunRace (ops : List ClockOp) (i j k : ℕ) (a b c : AccessLine) : Prop where
  read : ops[i]? = some (.print (.access a))
  write : ops[j]? = some (.print (.access b))
  dependent : ops[k]? = some (.print (.access c))
  depends : DependsInRun ops a c
  isWrite : b.isWrite = true
  temporal : b.isNonTemporal = false
  overlap : max b.addr a.addr < min (b.addr + 2 ^ b.accessSizeLog) (a.addr + 2 ^ a.accessSizeLog)
  notAfter : ¬ RunsBefore ops i j
  readUnflushed : ¬ FlushedInRun ops (a.addr / kCacheLineSize) i k
  writeUnflushed : ¬ FlushedInRun ops (a.addr / kCacheLineSize) j k

section Races

variable {reused : ℕ → ℕ} {ops : List ClockOp} {g : Callers} {σ : ClockState} {s : TraceParser}
  {hbg : HBG} {line : Line} {a b c : AccessLine} {n m r w d : InstructionNode} {i j k p q : ℕ}

/-- The run up to a position. -/
theorem exists_run_take (hrun : (ClockState.new reused).run ops = some σ) (p : ℕ) :
    ∃ σ₁, (ClockState.new reused).run (ops.take p) = some σ₁ := by
  rw [← List.take_append_drop p ops, ClockState.run_append] at hrun
  obtain ⟨σ₁, hσ₁, -⟩ := Option.bind_eq_some_iff.mp hrun
  exact ⟨σ₁, hσ₁⟩

theorem exists_node_of_access (hrun : (ClockState.new reused).run ops = some σ)
    (hp : ops[p]? = some (.print (.access a))) : ∃ n, IsNodeAt reused ops p n := by
  obtain ⟨σ₁, hσ₁⟩ := exists_run_take hrun p
  exact ⟨_, _, σ₁, hp, hσ₁, rfl⟩

theorem exists_node_of_flush (hrun : (ClockState.new reused).run ops = some σ) {f : FlushLine}
    (hp : ops[p]? = some (.print (.flush f))) : ∃ n, IsNodeAt reused ops p n := by
  obtain ⟨σ₁, hσ₁⟩ := exists_run_take hrun p
  exact ⟨_, _, σ₁, hp, hσ₁, rfl⟩

theorem IsNodeAt.of_access (hn : IsNodeAt reused ops p n)
    (hp : ops[p]? = some (.print (.access a))) :
    ∃ ident lineNumber, n = a.node ident lineNumber := by
  obtain ⟨line, σ₁, hline, -, hnode⟩ := hn
  cases hp.symm.trans hline
  cases hnode
  exact ⟨_, _, rfl⟩

/-- A node is an access or a flush. -/
theorem IsNodeAt.cases (hn : IsNodeAt reused ops p n) :
    (∃ a, ops[p]? = some (.print (.access a)) ∧ ∃ ident lineNumber, n = a.node ident lineNumber) ∨
      ∃ f, ops[p]? = some (.print (.flush f)) ∧ ∃ ident lineNumber,
      n = f.node ident lineNumber := by
  obtain ⟨line, σ₁, hp, -, hnode⟩ := hn
  cases line with
  | access a =>
    cases hnode
    exact Or.inl ⟨a, hp, _, _, rfl⟩
  | flush f =>
    cases hnode
    exact Or.inr ⟨f, hp, _, _, rfl⟩
  | pd p => cases hnode

theorem IsNodeAt.exists_access (hn : IsNodeAt reused ops p n) (hi : n.itype ≠ .flush) :
    ∃ a, ops[p]? = some (.print (.access a)) ∧ ∃ ident lineNumber, n = a.node ident lineNumber := by
  rcases hn.cases with ha | ⟨f, -, _, _, rfl⟩
  · exact ha
  · exact absurd rfl hi

theorem IsNodeAt.isAccessNode (hrun : (ClockState.new reused).run ops = some σ)
    (hn : IsNodeAt reused ops p n) (hp : ops[p]? = some (.print (.access a))) :
    IsAccessNode σ.lines a.tid a.eventId n := by
  obtain ⟨line, σ₁, hline, hpre, hnode⟩ := hn
  cases hp.symm.trans hline
  obtain ⟨post, hlines⟩ := lines_split hrun hline hpre
  exact ⟨σ₁.lines, _, post, hlines, a, rfl, rfl, rfl, hnode⟩

theorem Recordable.line_eq (hops : Recordable ops) (hn : IsNodeAt reused ops p n) :
    n.getCachelineAddress = kCacheLineSize * (n.address / kCacheLineSize) :=
  Prd.Pycprd.line_eq (hops.inOneLine hn).1

theorem flushedBetween_iff (hops : Recordable ops) (hrun : (ClockState.new reused).run ops = some σ)
    (hw : hbg.WellFormed) (ho : OrdersEvents reused ops hbg) (hr : IsNodeAt reused ops i r)
    (hn : IsNodeAt reused ops p n) (hm : IsNodeAt reused ops q m) :
    FlushedBetween hbg r.getCachelineAddress n m ↔
      FlushedInRun ops (r.address / kCacheLineSize) p q := by
  have hsame : ∀ {k f}, IsNodeAt reused ops k f → (f.getCachelineAddress = r.getCachelineAddress ↔
      f.address / kCacheLineSize = r.address / kCacheLineSize) := by
    intro k f hf
    rw [hops.line_eq hf, hops.line_eq hr]
    exact Nat.mul_right_inj (by decide)
  constructor
  · rintro ⟨f, hflush, hline, hnf, hfm⟩
    obtain ⟨k, hk⟩ := (ho.mem_nodes f).mp ((hw.mem_graph _).mp hnf.mem.2)
    rcases hk.cases with ⟨a, -, _, _, rfl⟩ | ⟨f', hop, _, _, rfl⟩
    · cases ha : a.isWrite <;> simp [AccessLine.node, ha] at hflush
    · exact ⟨k, f', hop, (hsame hk).mp hline, (ho.reaches p k n _ hn hk).mp hnf,
        (ho.reaches k q _ m hk hm).mp hfm⟩
  · rintro ⟨k, f, hop, hline, hpk, hkq⟩
    obtain ⟨x, hx⟩ := exists_node_of_flush hrun hop
    rcases hx.cases with ⟨a, hop', -⟩ | ⟨f', hop', _, _, rfl⟩
    · cases hop.symm.trans hop'
    · cases hop.symm.trans hop'
      exact ⟨_, rfl, (hsame hx).mpr hline, (ho.reaches p k n _ hn hx).mpr hpk,
        (ho.reaches k q _ m hx hm).mpr hkq⟩

/-- The recorded dependencies are those that the threads have printed. -/
theorem Reads.hasEdge_iff (hrun : (ClockState.new reused).run ops = some σ)
    (hall : AllCoherent σ.lines) (hreads : Reads σ.lines s) (hr : IsNodeAt reused ops i r)
    (hd : IsNodeAt reused ops k d)
    (ha : ops[i]? = some (.print (.access a))) (hc : ops[k]? = some (.print (.access c))) :
    s.pdgBuilder.graph.HasEdge d r ↔ DependsInRun ops a c := by
  rw [hreads.dependency]
  constructor
  · rintro ⟨pre, line, post, hlines, p, rfl, hdp, hrp⟩
    obtain ⟨-, c', -, hctid, hcid, _, _, hd'⟩ := hdp.exists_access
    obtain ⟨-, a', -, hatid, haid, _, _, hr'⟩ := hrp.exists_access
    obtain ⟨_, _, hdc⟩ := hd.of_access hc
    obtain ⟨_, _, hra⟩ := hr.of_access ha
    have hsameTid : ∀ {x y : AccessLine} {u l u' l'}, x.node u l = y.node u' l' →
        x.tid = y.tid ∧ x.eventId = y.eventId := by
      intro x y u l u' l' he
      exact ⟨congrArg InstructionNode.tid he, Option.some.inj (congrArg InstructionNode.eventId he)⟩
    obtain ⟨hct, hce⟩ := hsameTid (hdc.symm.trans hd')
    obtain ⟨hat, hae⟩ := hsameTid (hra.symm.trans hr')
    refine ⟨p, (mem_lines_iff hrun _).mp ⟨pre, _, post, hlines, rfl⟩, hat.trans hatid,
      hct.trans hctid, hae.trans haid, hce.trans hcid⟩
  · rintro ⟨p, hp, hat, hct, hae, hce⟩
    obtain ⟨pre, line, post, hlines, rfl⟩ := (mem_lines_iff hrun _).mpr hp
    have hall' : AllCoherent (pre ++ [.event (.pd p)]) := by
      rw [hlines, List.append_cons] at hall
      exact hall.of_append
    obtain ⟨d', r', hd', -, -, hr', -, -⟩ := hall'.exists_nodes
    have hpre : pre <+: σ.lines := ⟨_, hlines.symm⟩
    have hdn := hd.isAccessNode hrun hc
    have hrn := hr.isAccessNode hrun ha
    rw [hct, hce] at hdn
    rw [hat, hae] at hrn
    obtain rfl := hall.access_unique hdn (hd'.of_prefix hpre)
    obtain rfl := hall.access_unique hrn (hr'.of_prefix hpre)
    exact ⟨pre, _, post, hlines, p, rfl, hd', hr'⟩

theorem Reads.exists_edge (hrun : (ClockState.new reused).run ops = some σ)
    (hall : AllCoherent σ.lines) (hreads : Reads σ.lines s) (hpd : ∃ p, .print (.pd p) ∈ ops) :
    ∃ w r, s.pdgBuilder.graph.HasEdge w r := by
  obtain ⟨p, hp⟩ := hpd
  obtain ⟨pre, line, post, hlines, rfl⟩ := (mem_lines_iff hrun _).mpr hp
  rw [hlines, List.append_cons] at hall
  obtain ⟨w, r, hw, -, -, hr, -, -⟩ := hall.of_append.exists_nodes
  exact ⟨w, r, (hreads.dependency w r).mpr ⟨pre, _, post, hlines, p, rfl, hw, hr⟩⟩

/-- A race of the graph between the nodes of three accesses is one of the run. -/
theorem isRunRace_iff (hops : Recordable ops) (hrun : (ClockState.new reused).run ops = some σ)
    (hw : hbg.WellFormed) (ho : OrdersEvents reused ops hbg) {pdg : PDG}
    (hdep : pdg.graph.HasEdge d r ↔ DependsInRun ops a c) (hr : IsNodeAt reused ops i r)
    (hwn : IsNodeAt reused ops j w) (hd : IsNodeAt reused ops k d)
    (ha : ops[i]? = some (.print (.access a))) (hb : ops[j]? = some (.print (.access b)))
    (hc : ops[k]? = some (.print (.access c))) :
    Candidate hbg pdg r w d ∧ IsRace hbg r w d ↔ IsRunRace ops i j k a b c := by
  have hread := flushedBetween_iff hops hrun hw ho hr hr hd
  have hwrite := flushedBetween_iff hops hrun hw ho hr hwn hd
  have hafter := ho.reaches i j r w hr hwn
  have hmem := (ho.mem_nodes w).mpr ⟨j, hwn⟩
  obtain ⟨u, l, rfl⟩ := hr.of_access ha
  obtain ⟨u', l', rfl⟩ := hwn.of_access hb
  constructor
  · rintro ⟨hcand, hrace⟩
    refine ⟨ha, hb, hc, hdep.mp hcand.dependency, ?_, hcand.temporal,
      of_decide_eq_true hcand.overlap, fun h => hrace.notAfter (hafter.mpr h),
      fun h => hrace.readUnflushed (hread.mpr h),
      fun h => hrace.writeUnflushed (hwrite.mpr h)⟩
    have hwrites := hcand.isWrite
    cases hbw : b.isWrite with
    | true => rfl
    | false => simp [AccessLine.node, hbw] at hwrites
  · intro h
    have hoverlap : (b.node u' l').isIntervalOverlap (a.node u l) = true := decide_eq_true h.overlap
    refine ⟨⟨hdep.mpr h.depends, hmem, ?_, h.temporal, hoverlap⟩, hoverlap,
      fun hr => h.notAfter (hafter.mp hr), fun hr => h.readUnflushed (hread.mp hr),
      fun hr => h.writeUnflushed (hwrite.mp hr)⟩
    simp [AccessLine.node, h.isWrite]

/-- The graphs of a trace of a run are what the detector expects. -/
theorem Reached.built (hops : Recordable ops) (hrun : (ClockState.new reused).run ops = some σ)
    (h : Reached ops g σ) (hreads : Reads σ.lines s) (it : IntervalTreeApi)
    {edgeOrder : List (EpochNode × EpochNode)} (hes : ∀ e, e ∈ edgeOrder ↔ e ∈ s.hbgBuilder.edges)
    (order : SetOrder) :
    ∃ hbg pdg, s.buildHbg it edgeOrder false true true = .ok hbg ∧ s.buildPdg order hbg = .ok pdg ∧
      Built it (readLines σ.lines) edgeOrder ⟨false, none, true, [], true⟩ hbg pdg ∧
      GraphOfRun reused ops σ hbg ∧
      ((∃ w r, s.pdgBuilder.graph.HasEdge w r) → pdg.graph = s.pdgBuilder.graph) := by
  have hall := allCoherent_of_run hrun (fun line hline => hops.follows.tid_lt hline) hops.prints
  obtain ⟨hbg, hhbg, hnodes, hreach⟩ :=
    h.exists_build hops.small hrun hops.inLine hreads it true true hes
  have hbuild : (readLines σ.lines).build it edgeOrder ⟨false, none, true, [], true⟩ = .ok hbg := by
    unfold TraceParser.buildHbg at hhbg
    rw [hreads.builder, hreads.ranges.1, hreads.ranges.2] at hhbg
    exact hhbg
  rw [hreads.builder] at hes
  obtain ⟨pdg, hpdg, hedges, hrecorded⟩ := hreads.exists_buildPdg order
    (HBGBuilder.build_listsThreads hbuild) fun w r => hops.isDependency hrun hall hreads hnodes
  refine ⟨hbg, pdg, hhbg, hpdg, ⟨hbuild, hes, ?_, rfl, rfl, fun n hn => ?_, hedges⟩,
    h.graphOfRun hops hrun hes hbuild hnodes hreach, hrecorded⟩
  · exact endpointsAdded_readLines h.refines.lines (h.short hops.small)
  · cases n with
    | epoch e => trivial
    | instruction n =>
      rw [hnodes] at hn
      obtain ⟨p, hp⟩ := (instruction_mem_iff hrun n).mp hn
      exact hops.inOneLine hp

/-- Both versions of the detector report the races of the run and nothing else, when the threads
have printed their dependencies. -/
theorem detector_exact_on_runs (reused : ℕ → ℕ) (hops : Recordable ops)
    (hpd : ∃ p, .print (.pd p) ∈ ops) :
    ∃ σ texts s, (ClockState.new reused).run ops = some σ ∧
      σ.lines.mapM LogLine.print = some texts ∧ TraceParser.parse texts none none = .ok s ∧
      ∀ it edgeOrder order, (∀ e, e ∈ edgeOrder ↔ e ∈ s.hbgBuilder.edges) →
        ∃ hbg pdg, s.buildHbg it edgeOrder false true true = .ok hbg ∧
          s.buildPdg order hbg = .ok pdg ∧ ∀ postorder reversePostorder fast,
            Orders hbg postorder reversePostorder → ∃ races,
            run hbg pdg .default postorder reversePostorder fast = .ok races ∧
              ∀ r w d, races.Reports r w d ↔ ∃ i j k a b c, IsRunRace ops i j k a b c ∧
                IsNodeAt reused ops i r ∧ IsNodeAt reused ops j w ∧ IsNodeAt reused ops k d := by
  obtain ⟨σ, g, hrun, h⟩ := (Reached.new reused).run hops.follows
  have hall := allCoherent_of_run hrun (fun line hline => hops.follows.tid_lt hline) hops.prints
  obtain ⟨texts, hprint, -, s, hparse, hreads⟩ := h.exists_texts hall
  refine ⟨σ, texts, s, hrun, hprint, hparse, fun it edgeOrder order hes => ?_⟩
  obtain ⟨hbg, pdg, hhbg, hpdg, hb, hg, hrecorded⟩ := h.built hops hrun hreads it hes order
  refine ⟨hbg, pdg, hhbg, hpdg, fun postorder reversePostorder fast ho => ?_⟩
  obtain ⟨races, hraces, hrep⟩ := Prd.Pycprd.run_reports_iff hb ho (h.irredundant hops hg)
    (h.linksDirectly hops hrun hg hb.wf) fast
  refine ⟨races, hraces, fun r w d => (hrep r w d).trans ?_⟩
  have hedge : ∀ {i k a c}, IsNodeAt reused ops i r → IsNodeAt reused ops k d →
      ops[i]? = some (.print (.access a)) → ops[k]? = some (.print (.access c)) →
        (pdg.graph.HasEdge d r ↔ DependsInRun ops a c) := by
    intro i k a c hr hd ha hc
    rw [hrecorded (hreads.exists_edge hrun hall hpd)]
    exact hreads.hasEdge_iff hrun hall hr hd ha hc
  constructor
  · rintro ⟨hcand, hrace⟩
    have hdep := hb.isDependency hcand.dependency
    obtain ⟨hnr, hnw, hnd⟩ := hcand.not_flush hb
    obtain ⟨i, hi⟩ := (hg.order.mem_nodes r).mp hdep.readMem
    obtain ⟨j, hj⟩ := (hg.order.mem_nodes w).mp hcand.mem
    obtain ⟨k, hk⟩ := (hg.order.mem_nodes d).mp hdep.dependentMem
    obtain ⟨a, ha, -⟩ := hi.exists_access hnr
    obtain ⟨b, hb', -⟩ := hj.exists_access hnw
    obtain ⟨c, hc, -⟩ := hk.exists_access hnd
    refine ⟨i, j, k, a, b, c, ?_, hi, hj, hk⟩
    exact (isRunRace_iff hops hrun hb.wf hg.order (hedge hi hk ha hc) hi hj hk ha hb' hc).mp
      ⟨hcand, hrace⟩
  · rintro ⟨i, j, k, a, b, c, hrace, hi, hj, hk⟩
    exact (isRunRace_iff hops hrun hb.wf hg.order (hedge hi hk hrace.read hrace.dependent) hi hj hk
      hrace.read hrace.write hrace.dependent).mpr hrace

theorem sampleRun_pd : ∃ p, .print (.pd p) ∈ sampleRun :=
  ⟨⟨0, 0x400, 0, 0x400, 1⟩, by simp [sampleRun]⟩

/-- Nothing of the sample is flushed, so what was read is a race. -/
theorem sampleRun_race : ∃ a b c, IsRunRace sampleRun 6 1 7 a b c := by
  have hno : ∀ line p q, ¬ FlushedInRun sampleRun line p q := by
    rintro line p q ⟨k, f, hop, -⟩
    have hmem := List.mem_of_getElem? hop
    simp [sampleRun, sampleLine] at hmem
  refine ⟨_, _, _, rfl, rfl, rfl,
    ⟨⟨0, 0x400, 0, 0x400, 1⟩, by simp [sampleRun], rfl, rfl, rfl, rfl⟩,
    rfl, rfl, by decide, fun h => ?_, hno _ _ _, hno _ _ _⟩
  exact absurd h.lt.1 (by decide)

theorem detector_exact_on_runs_sample :
    ∃ σ texts s, (ClockState.new fun _ => 0).run sampleRun = some σ ∧
      σ.lines.mapM LogLine.print = some texts ∧ TraceParser.parse texts none none = .ok s ∧
      ∃ hbg pdg, s.buildHbg noTrees s.hbgBuilder.edges false true true = .ok hbg ∧
        s.buildPdg insertionOrder hbg = .ok pdg ∧
        ∀ postorder reversePostorder fast, Orders hbg postorder reversePostorder →
          ∃ races, run hbg pdg .default postorder reversePostorder fast = .ok races ∧
            ∃ r w d, races.Reports r w d := by
  obtain ⟨σ, texts, s, hrun, hprint, hparse, hall⟩ := detector_exact_on_runs (fun _ => 0)
    sampleRun_recordable sampleRun_pd
  obtain ⟨hbg, pdg, hhbg, hpdg, hexact⟩ := hall noTrees s.hbgBuilder.edges insertionOrder
    fun _ => Iff.rfl
  refine ⟨σ, texts, s, hrun, hprint, hparse, hbg, pdg, hhbg, hpdg,
    fun postorder reversePostorder fast ho => ?_⟩
  obtain ⟨races, hraces, hrep⟩ := hexact postorder reversePostorder fast ho
  obtain ⟨a, b, c, hrace⟩ := sampleRun_race
  obtain ⟨r, hr⟩ := exists_node_of_access hrun hrace.read
  obtain ⟨w, hw⟩ := exists_node_of_access hrun hrace.write
  obtain ⟨d, hd⟩ := exists_node_of_access hrun hrace.dependent
  exact ⟨races, hraces, r, w, d, (hrep r w d).mpr ⟨6, 1, 7, a, b, c, hrace, hr, hw, hd⟩⟩

/-- Under all flags the reports depend on the run only, and not on the version of the detector or on
the orders in which the libraries go through sets and graphs. -/
theorem reports_depend_on_run (reused : ℕ → ℕ) (hops : Recordable ops)
    (hpd : ∃ p, .print (.pd p) ∈ ops) : ∃ σ texts s, (ClockState.new reused).run ops = some σ ∧
      σ.lines.mapM LogLine.print = some texts ∧ TraceParser.parse texts none none = .ok s ∧
      ∀ it flags, ∃ found : InstructionNode → InstructionNode → InstructionNode → Prop,
        ∀ edgeOrder order, (∀ e, e ∈ edgeOrder ↔ e ∈ s.hbgBuilder.edges) →
          ∃ hbg pdg, s.buildHbg it edgeOrder false true true = .ok hbg ∧
            s.buildPdg order hbg = .ok pdg ∧ ∀ postorder reversePostorder fast,
              Orders hbg postorder reversePostorder → ∃ races,
              run hbg pdg flags postorder reversePostorder fast = .ok races ∧
                ∀ r w d, races.Reports r w d ↔ found r w d := by
  obtain ⟨σ, g, hrun, h⟩ := (Reached.new reused).run hops.follows
  have hall := allCoherent_of_run hrun (fun line hline => hops.follows.tid_lt hline) hops.prints
  obtain ⟨texts, hprint, -, s, hparse, hreads⟩ := h.exists_texts hall
  refine ⟨σ, texts, s, hrun, hprint, hparse, fun it flags => ?_⟩
  have hedge := hreads.exists_edge hrun hall hpd
  obtain ⟨hbg₀, pdg₀, -, -, hb₀, hg₀, hrecorded₀⟩ := h.built hops hrun hreads it
    (fun _ => Iff.rfl) insertionOrder
  have hI := h.irredundant hops hg₀
  refine ⟨Race hb₀.wf pdg₀ flags (FastKnows hb₀.wf flags), fun edgeOrder order hes => ?_⟩
  obtain ⟨hbg, pdg, hhbg, hpdg, hb, hg, hrecorded⟩ := h.built hops hrun hreads it hes order
  obtain rfl : pdg₀ = pdg := by
    have hgraph := (hrecorded₀ hedge).trans (hrecorded hedge).symm
    cases pdg₀
    cases pdg
    simpa using hgraph
  have hsame : ∀ r w d, Race hb₀.wf pdg₀ flags (FastKnows hb₀.wf flags) r w d ↔
      Race hb.wf pdg₀ flags (FastKnows hb.wf flags) r w d := fun r w d => hb₀.race_iff hb hI r w d
  refine ⟨hbg, pdg₀, hhbg, hpdg, fun postorder reversePostorder fast ho => ?_⟩
  cases fast with
  | true =>
    obtain ⟨races, hraces, hrep, -⟩ := run_fast_spec hb ho flags
    exact ⟨races, hraces, fun r w d => (hrep r w d).trans (hsame r w d).symm⟩
  | false =>
    obtain ⟨races, hraces, hrep⟩ := run_plain_spec hb ho flags
    refine ⟨races, hraces, fun r w d => (hrep r w d).trans ?_⟩
    rw [hsame]
    exact (race_fast_iff_plain hb (h.irredundant hops hg) (h.linksDirectly hops hrun hg hb.wf) flags
      r w d).symm

theorem reports_depend_on_run_sample :
    ∃ σ texts s, (ClockState.new fun _ => 0).run sampleRun = some σ ∧
      σ.lines.mapM LogLine.print = some texts ∧ TraceParser.parse texts none none = .ok s ∧
      ∃ found : InstructionNode → InstructionNode → InstructionNode → Prop,
        ∃ hbg pdg, s.buildHbg noTrees s.hbgBuilder.edges false true true = .ok hbg ∧
          s.buildPdg insertionOrder hbg = .ok pdg ∧
          ∀ postorder reversePostorder fast, Orders hbg postorder reversePostorder →
            ∃ races, run hbg pdg .default postorder reversePostorder fast = .ok races ∧
              ∀ r w d, races.Reports r w d ↔ found r w d := by
  obtain ⟨σ, texts, s, hrun, hprint, hparse, hall⟩ := reports_depend_on_run (fun _ => 0)
    sampleRun_recordable sampleRun_pd
  obtain ⟨found, hfound⟩ := hall noTrees .default
  exact ⟨σ, texts, s, hrun, hprint, hparse, found,
    hfound s.hbgBuilder.edges insertionOrder fun _ => Iff.rfl⟩

end Races

end Prd.Runtime
