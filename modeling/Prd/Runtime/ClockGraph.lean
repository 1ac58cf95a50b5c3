import Prd.Runtime.LogGraph
import Prd.Runtime.RunLines

/-!
# The graph of a run

The runtime prints the epochs and the edges of the clocks and the events of the threads, the
parser reads them, and the builder makes a graph of them. As long as the epochs fit 31 bits, an
epoch reaches the current epoch of another thread exactly when the clock of that thread has it.
-/
namespace Prd.Runtime

open Relation Prd.Foundation Prd.Pycprd PyStr

section Epochs

variable {lines : List LogLine}

theorem LinesOk.of_append {more : List LogLine} (h : LinesOk (lines ++ more)) : LinesOk lines where
  ok := fun line hline => h.ok line (List.mem_append_left _ hline)
  known := fun l hl => h.known l (hl.trans (List.prefix_append _ _))

/-- Short epochs are read as they are. -/
theorem readLines_eq (h : LinesOk lines)
    (hsmall : ∀ a ∈ lines.filterMap LogLine.node, a.2 < 2 ^ 31) :
    ((readLines lines).nodes.filter fun n => n.itype = .epoch) =
        (lines.filterMap LogLine.node).map epochOf ∧
      ∀ e, e ∈ (readLines lines).edges ↔
        ∃ x ∈ lines.filterMap LogLine.edge, e = (epochNode x.1, epochNode x.2) := by
  induction lines using List.reverseRecOn with
  | nil => simp [readLines, readFrom, HBGBuilder.new]
  | append_singleton lines line ih =>
    rw [List.filterMap_append] at hsmall
    obtain ⟨hnodes, hedges⟩ := ih h.of_append fun a ha => hsmall a (List.mem_append_left _ ha)
    rw [List.filterMap_append, List.filterMap_append]
    cases line with
    | epochInc t fromEpoch toEpoch comment =>
      obtain ⟨hlt, -⟩ := h.ok (.epochInc t fromEpoch toEpoch comment) (by simp)
      have hto : toEpoch < 2 ^ 31 := hsmall (t, toEpoch) (by simp [LogLine.node])
      have hne : lowInt fromEpoch ≠ lowInt toEpoch := by
        rw [lowInt_of_lt hto, lowInt_of_lt (hlt.trans hto)]
        omega
      have hread : LogLine.read (readLines lines) (lines.length + 1)
          (.epochInc t fromEpoch toEpoch comment) = (readLines lines).addEpochNode t toEpoch := by
        rw [LogLine.read, if_pos hne, lowInt_of_lt hto]
      have hnode : [LogLine.epochInc t fromEpoch toEpoch comment].filterMap LogLine.node =
          [(t, toEpoch)] := rfl
      have hedge : [LogLine.epochInc t fromEpoch toEpoch comment].filterMap LogLine.edge = [] := rfl
      rw [readLines_append_singleton, hread, hnode, hedge, List.map_append, List.append_nil,
        ← hnodes]
      unfold HBGBuilder.addEpochNode
      rw [List.filter_append]
      exact ⟨rfl, hedges⟩
    | happensBeforeEdge st se tt te comment =>
      obtain ⟨hse, hte⟩ :=
        h.known _ (List.prefix_refl _) ((st, se), (tt, te)) (by simp [LogLine.edge])
      rw [List.filterMap_append] at hse hte
      have hread : LogLine.read (readLines lines) (lines.length + 1)
          (.happensBeforeEdge st se tt te comment) =
          (readLines lines).addHappensBeforeEdge st se tt te := by
        rw [LogLine.read, lowInt_of_lt (hsmall _ hse), lowInt_of_lt (hsmall _ hte)]
      have hnode : [LogLine.happensBeforeEdge st se tt te comment].filterMap LogLine.node = [] :=
        rfl
      have hedge : [LogLine.happensBeforeEdge st se tt te comment].filterMap LogLine.edge =
          [((st, se), (tt, te))] := rfl
      rw [readLines_append_singleton, hread, hnode, hedge, List.append_nil]
      refine ⟨hnodes, fun e => ?_⟩
      unfold HBGBuilder.addHappensBeforeEdge
      simp only [List.mem_insert_iff, hedges, List.mem_append, List.mem_singleton]
      constructor
      · rintro (rfl | ⟨x, hx, rfl⟩)
        · exact ⟨_, Or.inr rfl, rfl⟩
        · exact ⟨x, Or.inl hx, rfl⟩
      · rintro ⟨x, hx | rfl, rfl⟩
        · exact Or.inr ⟨x, hx, rfl⟩
        · exact Or.inl rfl
    | event line =>
      have hnode : [LogLine.event line].filterMap LogLine.node = [] := rfl
      have hedge : [LogLine.event line].filterMap LogLine.edge = [] := rfl
      rw [nodes_read_event, edges_read_event, hnode, hedge, List.append_nil, List.append_nil,
        List.filter_append, hnodes]
      refine ⟨?_, hedges⟩
      cases nodeAfter lines line with
      | none => simp
      | some n => simp [Node.itype, n.itype_ne_epoch]

theorem mem_readLines_iff (h : LinesOk lines)
    (hsmall : ∀ a ∈ lines.filterMap LogLine.node, a.2 < 2 ^ 31)
    (a : ℕ × ℕ) : epochOf a ∈ (readLines lines).nodes ↔ a ∈ lines.filterMap LogLine.node := by
  have hmem : epochOf a ∈ ((readLines lines).nodes.filter fun n => n.itype = .epoch) ↔
      epochOf a ∈ (readLines lines).nodes := by
    simp [epochOf, Node.itype]
  rw [← hmem, (readLines_eq h hsmall).1, List.mem_map]
  constructor
  · rintro ⟨b, hb, he⟩
    rw [← epochOf_inj he]
    exact hb
  · exact fun ha => ⟨a, ha, rfl⟩

/-- No node is read twice. -/
theorem nodup_readLines (h : LinesOk lines)
    (hsmall : ∀ a ∈ lines.filterMap LogLine.node, a.2 < 2 ^ 31)
    (hnd : (lines.filterMap LogLine.node).Nodup) : (readLines lines).nodes.Nodup := by
  induction lines using List.reverseRecOn with
  | nil => exact List.nodup_nil
  | append_singleton lines line ih =>
    have hepochs := (readLines_eq h hsmall).1
    rw [List.filterMap_append] at hsmall hnd
    have ih := ih h.of_append (fun a ha => hsmall a (List.mem_append_left _ ha)) hnd.of_append_left
    cases line with
    | epochInc t fromEpoch toEpoch comment =>
      have hfresh : (t, toEpoch) ∉ lines.filterMap LogLine.node := fun hm =>
        List.disjoint_of_nodup_append hnd hm (by simp [LogLine.node])
      have hto : toEpoch < 2 ^ 31 := hsmall (t, toEpoch) (by simp [LogLine.node])
      rw [readLines_append_singleton, LogLine.read]
      split_ifs
      · refine List.nodup_append.mpr ⟨ih, List.nodup_singleton _, ?_⟩
        intro u hu v hv huv
        rw [List.mem_singleton.mp hv, lowInt_of_lt hto] at huv
        subst huv
        exact hfresh ((mem_readLines_iff h.of_append
          (fun a ha => hsmall a (List.mem_append_left _ ha)) (t, toEpoch)).mp hu)
      · exact ih
    | happensBeforeEdge st se tt te comment =>
      rw [readLines_append_singleton]
      exact ih
    | event line =>
      rw [nodes_read_event]
      cases hnode : nodeAfter lines line with
      | none => simpa using ih
      | some n =>
        refine List.nodup_append.mpr ⟨ih, List.nodup_singleton _, ?_⟩
        intro u hu v hv huv
        rw [List.mem_singleton.mp hv] at huv
        subst huv
        exact absurd (ident_lt_nextIdent hu) (not_lt.mpr (nodeAfter_fields hnode).1.ge)

/-- Every prefix of the log has the ends of its edges. -/
theorem endpointsAdded_readLines (h : LinesOk lines)
    (hsmall : ∀ a ∈ lines.filterMap LogLine.node, a.2 < 2 ^ 31) :
    (readLines lines).EndpointsAdded := by
  intro e he
  obtain ⟨x, hx, rfl⟩ := ((readLines_eq h hsmall).2 e).mp he
  obtain ⟨hs, ht⟩ := h.known lines (List.prefix_refl _) x hx
  exact ⟨(mem_readLines_iff h hsmall x.1).mpr hs, (mem_readLines_iff h hsmall x.2).mpr ht⟩

/-- The access stays in one line of 64 bytes. -/
def AccessLine.InLine (a : AccessLine) : Prop := InOneLine a.addr (2 ^ a.accessSizeLog)

/-- The accesses fit their lines when each of them stays in one. -/
theorem fitsLines_readLines (h : ∀ a, HasLine lines (fun _ l => l = .event (.access a)) →
    a.InLine) : HBGBuilder.FitsLines (readLines lines).nodes := by
  have hsize :
      (HBGBuilder.flushSize (readLines lines).nodes).getD defaultCachelineSize = 2 ^ 6 := by
    cases hfs : HBGBuilder.flushSize (readLines lines).nodes with
    | none => rfl
    | some size =>
      obtain ⟨u, hu, hs⟩ := List.exists_of_findSome?_eq_some hfs
      cases u with
      | epoch e => cases hs
      | instruction n =>
        obtain ⟨pre, l, post, -, line, -, hnode⟩ := (instruction_mem_readLines n).mp hu
        cases line with
        | access a =>
          cases hnode
          rcases ha : a.isWrite <;> simp [AccessLine.node, ha] at hs
        | flush f =>
          cases hnode
          simpa [FlushLine.node, kCacheLineSize] using hs.symm
        | pd p => cases hnode
  intro n hn hi
  rw [hsize]
  obtain ⟨pre, l, post, hlines, line, rfl, hnode⟩ := (instruction_mem_readLines n).mp hn
  cases line with
  | access a =>
    obtain ⟨hlt, hle⟩ := h a ⟨pre, _, post, hlines, rfl⟩
    cases hnode
    rw [getCachelineAddress_two_pow (show (a.node _ _).address < 2 ^ 64 from hlt)]
    simp only [InstructionNode.interval, AccessLine.node]
    omega
  | flush f =>
    cases hnode
    cases hi
  | pd p => cases hnode

end Epochs

section Runs

/-- The threads print what their programs have printed at some time. -/
def PrintsPrograms (ops : List ClockOp) : Prop :=
  ∀ t < kMaxTid, ∃ thread : Thread, thread.tid = t ∧ ∃ lines,
    PrintingThread.run t .new thread.ops = some lines ∧
      printedBy t (ops.filterMap ClockOp.line) <+: lines

/-- No access of the run crosses a line. -/
def AccessesInLine (ops : List ClockOp) : Prop := ∀ a, .print (.access a) ∈ ops → a.InLine

/-- One node for each epoch, chained in each thread, and the clocks tell which of them come before
the current epoch of a thread. -/
structure GraphIsOrder (ops : List ClockOp) (σ : ClockState) (hbg : HBG) : Prop where
  nodup : hbg.nodes.Nodup
  mem_nodes : ∀ n, n.itype = .epoch →
    (n ∈ hbg.nodes ↔ ∃ t e, ClockOp.set t e ∈ ops ∧ n = epochOf (t, e))
  chained : ∀ t e e', ClockOp.set t e ∈ ops → ClockOp.set t e' ∈ ops →
    (hbg.graph.Reaches (epochOf (t, e)) (epochOf (t, e')) ↔ e < e')
  reaches : ∀ i e t, i ≠ t → ClockOp.set i e ∈ ops →
    (hbg.graph.Reaches (epochOf (i, e)) (epochOf (t, (σ.threads t).clk t)) ↔
      e ≤ (σ.threads t).clk i)

/-- The lines of a run are printed and read, the ends of every edge are nodes when it is read, and
the graph that is built is the order of the clocks. -/
def LogIsOrder (ops : List ClockOp) (σ : ClockState) : Prop :=
  ∃ texts s, σ.lines.mapM LogLine.print = some texts ∧ TraceParser.parse texts none none = .ok s ∧
    (∀ k, ∃ s', TraceParser.parse (texts.take k) none none = .ok s' ∧ s'.hbgBuilder.EndpointsAdded)
    ∧
    ∀ it edgeOrder makeDaisyChains assertDag,
      (∀ e, e ∈ edgeOrder ↔ e ∈ s.hbgBuilder.edges) →
        ∃ hbg, s.buildHbg it edgeOrder false makeDaisyChains assertDag = .ok hbg ∧
          GraphIsOrder ops σ hbg

variable {ops : List ClockOp} {g : Callers} {σ : ClockState} {reused : ℕ → ℕ}

theorem mem_lines_iff (hrun : (ClockState.new reused).run ops = some σ) (line : Line) :
    HasLine σ.lines (fun _ l => l = .event line) ↔ .print line ∈ ops := by
  obtain ⟨more, hmore, hlines⟩ := ClockState.lines_run hrun
  have hmem : line ∈ σ.lines.filterMap LogLine.line ↔ line ∈ ops.filterMap ClockOp.line := by
    rw [hmore, List.filterMap_append, hlines]
    rfl
  constructor
  · rintro ⟨pre, l, post, hsplit, rfl⟩
    have hline : line ∈ σ.lines.filterMap LogLine.line := by
      rw [hsplit]
      simp [LogLine.line]
    obtain ⟨op, hop, he⟩ := List.mem_filterMap.mp (hmem.mp hline)
    cases op <;> cases he
    exact hop
  · intro hop
    obtain ⟨l, hl, he⟩ := List.mem_filterMap.mp (hmem.mpr (List.mem_filterMap.mpr ⟨_, hop, rfl⟩))
    obtain ⟨pre, post, hsplit⟩ := List.append_of_mem hl
    refine ⟨pre, l, post, hsplit, ?_⟩
    cases l <;> cases he
    rfl

/-- The lines of the programs are coherent. -/
theorem allCoherent_of_run (hrun : (ClockState.new reused).run ops = some σ)
    (htids : ∀ line, .print line ∈ ops → line.tid < kMaxTid) (hprints : PrintsPrograms ops) :
    AllCoherent σ.lines := by
  obtain ⟨more, hmore, hlines⟩ := ClockState.lines_run hrun
  have hsame : σ.lines.filterMap LogLine.line = ops.filterMap ClockOp.line := by
    rw [hmore, List.filterMap_append, hlines]
    rfl
  intro t
  rw [hsame]
  by_cases ht : t < kMaxTid
  · obtain ⟨thread, rfl, lines, hthread, hpre⟩ := hprints t ht
    exact (PrintingThread.coherent_run thread.tid_lt thread.length_ops hthread).of_prefix_of hpre
  · have hempty : printedBy t (ops.filterMap ClockOp.line) = [] := by
      refine List.filter_eq_nil_iff.mpr fun line hline htid => ht ?_
      obtain ⟨op, hop, he⟩ := List.mem_filterMap.mp hline
      have hop : ClockOp.print line ∈ ops := by
        cases op <;> cases he
        exact hop
      rw [← of_decide_eq_true htid]
      exact htids line hop
    rw [hempty]
    exact .nil

theorem Callers.Follows.tid_lt (h : g.Follows ops) {line : Line} (hline : .print line ∈ ops) :
    line.tid < kMaxTid := by
  induction ops generalizing g with
  | nil => cases hline
  | cons op ops ih =>
    rcases List.mem_cons.mp hline with rfl | hline
    · exact h.1
    · exact ih h.2 hline

theorem Reached.mem_nodes_iff (h : Reached ops g σ) (a : ℕ × ℕ) :
    a ∈ σ.lines.filterMap LogLine.node ↔ ClockOp.set a.1 a.2 ∈ ops := by
  rw [← h.refines.nodes, h.nodes]

theorem Reached.tidsFit (h : Reached ops g σ) (line : LogLine) (hline : line ∈ σ.lines) :
    line.TidsFit := by
  have hlt : ∀ a, a ∈ σ.lines.filterMap LogLine.node → a.1 < 2 ^ 31 := by
    intro a ha
    rw [← h.refines.nodes] at ha
    exact (h.tid_lt a ha).trans (by decide)
  cases line with
  | epochInc t fromEpoch toEpoch comment =>
    exact hlt (t, toEpoch) (List.mem_filterMap.mpr ⟨_, hline, rfl⟩)
  | happensBeforeEdge st se tt te comment =>
    obtain ⟨hs, ht⟩ := h.refines.lines.known _ (List.prefix_refl _) ((st, se), (tt, te))
      (List.mem_filterMap.mpr ⟨_, hline, rfl⟩)
    exact ⟨hlt _ hs, hlt _ ht⟩
  | event line => trivial

/-- The texts of a run and what the parser makes of them. -/
theorem Reached.exists_texts (h : Reached ops g σ) (hall : AllCoherent σ.lines) :
    ∃ texts, σ.lines.mapM LogLine.print = some texts ∧
      (∀ k, ∃ s, TraceParser.parse (texts.take k) none none = .ok s ∧ Reads (σ.lines.take k) s) ∧
      ∃ s, TraceParser.parse texts none none = .ok s ∧ Reads σ.lines s := by
  obtain ⟨texts, hprint, hlen, hparse⟩ := Prd.Runtime.exists_texts h.refines.lines.ok h.tidsFit hall
  refine ⟨texts, hprint, hparse, ?_⟩
  have hwhole := hparse texts.length
  rw [List.take_length, hlen, List.take_length] at hwhole
  exact hwhole

theorem Reached.short (h : Reached ops g σ) (hsmall : ∀ t e, ClockOp.set t e ∈ ops → e < 2 ^ 31) :
    ∀ a ∈ σ.lines.filterMap LogLine.node, a.2 < 2 ^ 31 :=
  fun a ha => hsmall a.1 a.2 ((h.mem_nodes_iff a).mp ha)

theorem Reached.holdsLog (h : Reached ops g σ)
    (hsmall : ∀ t e, ClockOp.set t e ∈ ops → e < 2 ^ 31) :
    HoldsLog (readLines σ.lines) (LoggedClocks.run (ops.map ClockOp.sync)) := by
  have hlines := h.refines.lines
  obtain ⟨hepochs, hedges⟩ := readLines_eq hlines (h.short hsmall)
  refine ⟨nodup_readLines hlines (h.short hsmall) ?_, ?_, fun e => ?_⟩
  · rw [← h.refines.nodes]
    exact h.ordered.logged.nodup
  · rw [hepochs, h.refines.nodes]
  · rw [hedges]
    simp only [h.refines.edges]

/-- The trace is built into a graph whose paths are those of the log. -/
theorem Reached.exists_build (h : Reached ops g σ)
    (hsmall : ∀ t e, ClockOp.set t e ∈ ops → e < 2 ^ 31)
    (hrun : (ClockState.new reused).run ops = some σ) (hinLine : AccessesInLine ops)
    {s : TraceParser}
    (hreads : Reads σ.lines s) (it : IntervalTreeApi) {edgeOrder : List (EpochNode × EpochNode)}
    (makeDaisyChains assertDag : Bool) (hes : ∀ e, e ∈ edgeOrder ↔ e ∈ s.hbgBuilder.edges) :
    ∃ hbg, s.buildHbg it edgeOrder false makeDaisyChains assertDag = .ok hbg ∧
      hbg.nodes = (readLines σ.lines).nodes ∧ ∀ u v, hbg.graph.Reaches u v ↔
        TransGen (Next (readLines σ.lines).nodes (LoggedClocks.run (ops.map ClockOp.sync))) u
        v := by
  have hfits := fitsLines_readLines fun a ha => hinLine a ((mem_lines_iff hrun (.access a)).mp ha)
  rw [hreads.builder] at hes
  have hkeep : (readLines σ.lines).filterIfAsked it ⟨false, none, makeDaisyChains, [], assertDag⟩ =
      .ok (readLines σ.lines) := rfl
  obtain ⟨hbg, hbuild, hnodes, hreach⟩ :=
    (h.holdsLog hsmall).exists_build h.ordered.logged hes hkeep hfits
  refine ⟨hbg, ?_, hnodes, hreach⟩
  unfold TraceParser.buildHbg
  rw [hreads.builder, hreads.ranges.1, hreads.ranges.2]
  exact hbuild

/-- An epoch of more than 31 bits is no node of the graph. -/
theorem Reached.small_of_logIsOrder (h : Reached ops g σ) (hall : AllCoherent σ.lines)
    (hlog : LogIsOrder ops σ) {t e : ℕ} (hset : ClockOp.set t e ∈ ops) : e < 2 ^ 31 := by
  obtain ⟨texts, hprint, -, s, hparse, hreads⟩ := h.exists_texts hall
  obtain ⟨texts', s', hprint', hparse', -, hbuild⟩ := hlog
  obtain rfl : texts = texts' := Option.some.inj (hprint.symm.trans hprint')
  obtain rfl : s = s' := Except.ok.inj (hparse.symm.trans hparse')
  obtain ⟨hbg, hok, horder⟩ := hbuild ⟨Unit, (), fun tree _ _ => pure tree, id, fun _ _ _ => [],
    fun _ _ _ => false⟩ s.hbgBuilder.edges false false fun _ => Iff.rfl
  have hmem : epochOf (t, e) ∈ hbg.nodes := (horder.mem_nodes _ rfl).mpr ⟨t, e, hset, rfl⟩
  obtain ⟨p, -, -, hnodes, -⟩ := HBGBuilder.build_eq_ok hok
  rw [hnodes, hreads.builder] at hmem
  have hlt := epoch_lt_of_mem_readLines (List.mem_of_mem_filter hmem)
  simp only [epochNode] at hlt
  omega

theorem Reached.logIsOrder (h : Reached ops g σ)
    (hsmall : ∀ t e, ClockOp.set t e ∈ ops → e < 2 ^ 31)
    (hrun : (ClockState.new reused).run ops = some σ) (hinLine : AccessesInLine ops)
    (hall : AllCoherent σ.lines) : LogIsOrder ops σ := by
  have hlogged := h.ordered.logged
  obtain ⟨texts, hprint, hprefix, s, hparse, hreads⟩ := h.exists_texts hall
  refine ⟨texts, s, hprint, hparse, fun k => ?_, ?_⟩
  · obtain ⟨s', hs', hreads'⟩ := hprefix k
    have hlines := h.refines.lines
    have hshort := h.short hsmall
    rw [← List.take_append_drop k σ.lines] at hlines hshort
    rw [List.filterMap_append] at hshort
    refine ⟨s', hs', ?_⟩
    rw [hreads'.builder]
    exact endpointsAdded_readLines hlines.of_append fun a ha => hshort a (List.mem_append_left _ ha)
  · intro it edgeOrder makeDaisyChains assertDag hes
    obtain ⟨hbg, hbuild, hnodes, hreach⟩ :=
      h.exists_build hsmall hrun hinLine hreads it makeDaisyChains assertDag hes
    have hb := h.holdsLog hsmall
    refine ⟨hbg, hbuild, ?_, fun n hn => ?_, fun t e e' he he' => ?_, fun i e t hne he => ?_⟩
    · rw [hnodes]
      exact hb.nodup
    · rw [hnodes]
      have hfilter : n ∈ (readLines σ.lines).nodes ↔
          n ∈ ((readLines σ.lines).nodes.filter fun n => n.itype = .epoch) := by
        simp [hn]
      rw [hfilter, hb.epochs, List.mem_map]
      constructor
      · rintro ⟨a, ha, rfl⟩
        exact ⟨a.1, a.2, (h.nodes a).mp ha, rfl⟩
      · rintro ⟨t, e, he, rfl⟩
        exact ⟨(t, e), (h.nodes (t, e)).mpr he, rfl⟩
    · rw [hreach, hb.path_epochs hlogged]
      exact hlogged.reaches_thread_iff ((h.nodes (t, e)).mpr he) ((h.nodes (t, e')).mpr he')
    · rw [hreach, hb.path_epochs hlogged, (h.refines.thread t).clk]
      exact hlogged.reaches_iff hne ((h.nodes (i, e)).mpr he)

/-- The graph that is read from the trace of a run is the order of its clocks exactly when all
epochs of the run fit 31 bits. -/
theorem log_is_order_iff (reused : ℕ → ℕ) {ops : List ClockOp} (hops : Callers.new.Follows ops)
    (hprints : PrintsPrograms ops) (hinLine : AccessesInLine ops) :
    ∃ σ, (ClockState.new reused).run ops = some σ ∧
      (LogIsOrder ops σ ↔ ∀ t e, ClockOp.set t e ∈ ops → e < 2 ^ 31) := by
  obtain ⟨σ, g, hrun, h⟩ := (Reached.new reused).run hops
  have hall := allCoherent_of_run hrun (fun line hline => hops.tid_lt hline) hprints
  exact ⟨σ, hrun, fun hlog t e he => h.small_of_logIsOrder hall hlog he,
    fun hsmall => h.logIsOrder hsmall hrun hinLine hall⟩

def sampleLine (isWrite : Bool) (addr : ℕ) (addr_lt : addr < 2 ^ 64) (tid eventId : ℕ) : Line :=
  .access (PrintingThread.line (sampleAccess isWrite addr addr_lt) tid eventId)

theorem sharedAddr_lt : 0x1000 < 2 ^ 64 := by decide

/-- Thread 0 reads what thread 1 has written, and writes what depends on it. -/
def sampleRun : List ClockOp :=
  [.set 1 1, .print (sampleLine true 0x1000 sharedAddr_lt 1 0), .set 1 2, .release 1 0, .set 0 1,
    .acquire 0 0, .print (sampleLine false 0x1000 sharedAddr_lt 0 0),
    .print (sampleLine true 0x2000 writtenAddr_lt 0 1), .print (.pd ⟨0, 0x400, 0, 0x400, 1⟩)]

theorem writingThread_tid_lt : 1 < 2 ^ 31 := by decide

theorem writingThread_length : 1 ≤ 2 ^ 64 := by decide

def writingThread : Thread :=
  ⟨1, [.access [⟨0x1000, 0x3000⟩] (sampleAccess true 0x1000 sharedAddr_lt) [⟨0, 0⟩] 0 0],
    writingThread_tid_lt, writingThread_length⟩

theorem sampleRun_follows : Callers.new.Follows sampleRun := by
  simp [sampleRun, sampleLine, PrintingThread.line, Line.tid, Callers.Follows, Callers.Allows,
    Callers.after, Callers.noteRelease, Callers.new, kMaxTid, kClkBits, Function.update]

theorem sampleRun_prints : PrintsPrograms sampleRun := by
  intro t ht
  by_cases h0 : t = 0
  · subst h0
    exact ⟨sampleThreads.get ⟨0, by decide⟩, rfl, _, rfl, by decide⟩
  · by_cases h1 : t = 1
    · subst h1
      exact ⟨writingThread, rfl, _, rfl, by decide⟩
    · refine ⟨⟨t, [], ht.trans (by decide), by decide⟩, rfl, [], rfl, ?_⟩
      have htids : ∀ l ∈ sampleRun.filterMap ClockOp.line, l.tid = 0 ∨ l.tid = 1 := by decide
      rw [List.prefix_nil]
      refine List.filter_eq_nil_iff.mpr fun l hl => ?_
      have htid := htids l hl
      simp only [decide_eq_true_eq]
      omega

theorem sampleRun_inLine : AccessesInLine sampleRun := by
  have hall : ∀ op ∈ sampleRun, ∀ a, op = .print (.access a) →
      a.addr % 64 = 0 ∧ a.addr < 2 ^ 64 ∧ a.accessSizeLog = 3 := by
    simp [sampleRun, sampleLine, PrintingThread.line, sampleAccess]
  intro a ha
  obtain ⟨hmod, hlt, hsize⟩ := hall _ ha a rfl
  refine ⟨hlt, ?_⟩
  rw [hmod, hsize]
  decide

theorem sampleRun_small : ∀ t e, ClockOp.set t e ∈ sampleRun → e < 2 ^ 31 := by
  intro t e h
  simp [sampleRun] at h
  omega

theorem log_is_order_iff_sample : ∃ σ, (ClockState.new fun _ => 0).run sampleRun = some σ ∧
    LogIsOrder sampleRun σ := by
  obtain ⟨σ, hrun, hiff⟩ := log_is_order_iff (fun _ => 0) sampleRun_follows sampleRun_prints
    sampleRun_inLine
  exact ⟨σ, hrun, hiff.mpr sampleRun_small⟩

end Runs

end Prd.Runtime
