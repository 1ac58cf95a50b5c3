import Prd.Runtime.ClockGraph

/-!
# The graph of a run is its order

Every event of a run becomes one node of the graph. Between epochs that fit 31 bits, a path leads
from one event to another exactly when the one happens before the other.
-/
namespace Prd.Runtime

open Relation Prd.Foundation Prd.Pycprd

/-- The node that the line printed at the position has become. -/
def IsNodeAt (reused : ℕ → ℕ) (ops : List ClockOp) (p : ℕ) (n : InstructionNode) : Prop :=
  ∃ line σ, ops[p]? = some (.print line) ∧ (ClockState.new reused).run (ops.take p) = some σ ∧
    nodeAfter σ.lines line = some n

/-- The order of a run of the clocks. -/
def RunsBefore (ops : List ClockOp) : ℕ → ℕ → Prop := HappensBefore (ops.map ClockOp.sync)

section Places

variable {reused : ℕ → ℕ} {ops : List ClockOp} {g : Callers} {σ σ₁ : ClockState} {p q : ℕ}
  {line : Line} {n m : InstructionNode}

/-- The lines before and after those of one event. -/
theorem lines_split (hrun : (ClockState.new reused).run ops = some σ)
    (hp : ops[p]? = some (.print line))
    (hpre : (ClockState.new reused).run (ops.take p) = some σ₁) :
    ∃ post, σ.lines = σ₁.lines ++ .event line :: post := by
  obtain ⟨hlt, hget⟩ := List.getElem?_eq_some_iff.mp hp
  have hsplit : ops = ops.take p ++ .print line :: ops.drop (p + 1) := by
    rw [← hget, List.cons_getElem_drop_succ, List.take_append_drop]
  rw [hsplit, ClockState.run_append, hpre, Option.bind_some] at hrun
  have hrest : (σ₁.log (.event line)).run (ops.drop (p + 1)) = some σ := hrun
  obtain ⟨more, hmore, -⟩ := ClockState.lines_run hrest
  refine ⟨more, ?_⟩
  rw [hmore]
  simp [ClockState.log]

/-- The node of an event stands between the epochs that its thread has logged before it and those
that it logs later. -/
structure PlacedAt (ops : List ClockOp) (σ : ClockState) (p : ℕ) (n : InstructionNode) : Prop where
  event : EventOf (ops.map ClockOp.sync) n.tid p
  mem : Node.instruction n ∈ (readLines σ.lines).nodes
  epochs : ∀ e, (n.tid, e) ∈ (LoggedClocks.run (ops.map ClockOp.sync)).nodes →
    (e ≤ stamp (ops.map ClockOp.sync) p n.tid ∧
        Earlier (readLines σ.lines).nodes (epochOf (n.tid, e)) (.instruction n)) ∨
      (stamp (ops.map ClockOp.sync) p n.tid < e ∧
        Earlier (readLines σ.lines).nodes (.instruction n) (epochOf (n.tid, e)))

/-- The nodes before and after that of one event. -/
theorem nodes_split_at {pre post lines : List LogLine} (hlines : lines = pre ++ .event line :: post)
    (hnode : nodeAfter pre line = some n) :
    ∃ rest, (readLines lines).nodes = (readLines pre).nodes ++ .instruction n :: rest := by
  obtain ⟨rest, hrest⟩ := (nodes_readLines_append (pre ++ [.event line]) post).1
  refine ⟨rest, ?_⟩
  rw [hlines, List.append_cons, ← hrest, nodes_read_event, hnode]
  simp

theorem Reached.placedAt (hops : Callers.new.Follows ops)
    (hsmall : ∀ t e, ClockOp.set t e ∈ ops → e < 2 ^ 31)
    (hrun : (ClockState.new reused).run ops = some σ) (h : Reached ops g σ)
    (hn : IsNodeAt reused ops p n) : PlacedAt ops σ p n := by
  obtain ⟨line, σ₁, hp, hpre, hnode⟩ := hn
  have htid : n.tid = line.tid := (nodeAfter_fields hnode).2.1
  have hfollows : Callers.new.Follows (ops.take p) := by
    rw [← List.take_append_drop p ops] at hops
    exact hops.of_append
  obtain ⟨σ', g₁, hrun₁, h₁⟩ := (Reached.new reused).run hfollows
  obtain rfl : σ₁ = σ' := Option.some.inj (hpre.symm.trans hrun₁)
  rw [List.nil_append] at h₁
  obtain ⟨post, hlines⟩ := lines_split hrun hp hpre
  obtain ⟨rest, hrest⟩ := nodes_split_at hlines hnode
  have hnd := (h.holdsLog hsmall).nodup
  have hlogged := h.ordered.logged
  have hlogged₁ := h₁.ordered.logged
  have hstamp : ∀ t, stamp (ops.map ClockOp.sync) p t =
      (LoggedClocks.run ((ops.take p).map ClockOp.sync)).clock t t := by
    intro t
    unfold stamp
    rw [List.map_take]
  have hsplit : (LoggedClocks.run (ops.map ClockOp.sync)).nodes =
      (LoggedClocks.run ((ops.take p).map ClockOp.sync)).nodes ++ post.filterMap LogLine.node := by
    rw [h.refines.nodes, h₁.refines.nodes, hlines, List.filterMap_append, List.filterMap_cons]
    rfl
  refine ⟨⟨_, ?_, rfl⟩, ?_, fun e he => ?_⟩
  · rw [List.getElem?_map, hp, htid]
    rfl
  · rw [hrest]
    simp
  · rw [hstamp, hrest]
    have hnd' := hnd
    rw [hrest] at hnd'
    by_cases hold : (n.tid, e) ∈ (LoggedClocks.run ((ops.take p).map ClockOp.sync)).nodes
    · refine Or.inl ⟨hlogged₁.node_le _ hold, earlier_of_append hnd' ?_ List.mem_cons_self rfl⟩
      have hfits : LinesOk σ₁.lines := h₁.refines.lines
      refine (mem_readLines_iff hfits (fun a ha => ?_) _).mpr (h₁.refines.nodes ▸ hold)
      refine h.short hsmall a ?_
      rw [hlines, List.filterMap_append]
      exact List.mem_append_left _ ha
    · refine Or.inr ⟨?_, ?_⟩
      · rcases Nat.eq_zero_or_pos
          ((LoggedClocks.run ((ops.take p).map ClockOp.sync)).clock n.tid n.tid)
          with hzero | hpos
        · rw [hzero]
          exact hlogged.node_pos _ he
        · have hlast := hlogged₁.node_of_vector _ (.clock n.tid) n.tid (Nat.pos_iff_ne_zero.mp hpos)
          have hinc := hlogged.increasing
          rw [hsplit] at he hinc
          exact (List.pairwise_append.mp hinc).2.2 _ hlast _
            ((List.mem_append.mp he).resolve_left hold) rfl
      · have hmem := (h.holdsLog hsmall).mem_iff.mpr he
        rw [hrest] at hmem
        have hlater : epochOf (n.tid, e) ∈ rest := by
          rcases List.mem_append.mp hmem with hm | hm
          · refine absurd ?_ hold
            rw [h₁.refines.nodes]
            refine (mem_readLines_iff h₁.refines.lines (fun a ha => ?_) _).mp hm
            refine h.short hsmall a ?_
            rw [hlines, List.filterMap_append]
            exact List.mem_append_left _ ha
          · rcases List.mem_cons.mp hm with hm | hm
            · cases hm
            · exact hm
        rw [List.append_cons] at hnd' ⊢
        exact earlier_of_append hnd' (by simp) hlater rfl

/-- The events of a thread are listed in their order. -/
theorem earlier_of_lt (hnd : (readLines σ.lines).nodes.Nodup)
    (hrun : (ClockState.new reused).run ops = some σ) (hn : IsNodeAt reused ops p n)
    (hm : IsNodeAt reused ops q m) (hlt : p < q) (htid : n.tid = m.tid) :
    Earlier (readLines σ.lines).nodes (.instruction n) (.instruction m) := by
  obtain ⟨line, σ₁, hp, hpre, hnode⟩ := hn
  obtain ⟨line', σ₂, hq, hpre', hnode'⟩ := hm
  obtain ⟨post, hlines⟩ := lines_split hrun hq hpre'
  obtain ⟨rest, hrest⟩ := nodes_split_at hlines hnode'
  have htake : (ops.take q).take p = ops.take p := by
    rw [List.take_take, min_eq_left hlt.le]
  have hp' : (ops.take q)[p]? = some (.print line) := by
    rw [List.getElem?_take_of_lt hlt]
    exact hp
  obtain ⟨post', hlines'⟩ := lines_split hpre' hp' (htake.symm ▸ hpre)
  obtain ⟨rest', hrest'⟩ := nodes_split_at hlines' hnode
  rw [hrest] at hnd ⊢
  refine earlier_of_append hnd ?_ List.mem_cons_self htid
  rw [hrest']
  simp

theorem IsNodeAt.unique (hn : IsNodeAt reused ops p n) (hm : IsNodeAt reused ops p m) : n = m := by
  obtain ⟨line, σ₁, hp, hpre, hnode⟩ := hn
  obtain ⟨line', σ₂, hq, hpre', hnode'⟩ := hm
  obtain rfl : σ₁ = σ₂ := Option.some.inj (hpre.symm.trans hpre')
  cases hp.symm.trans hq
  exact Option.some.inj (hnode.symm.trans hnode')

end Places

section Order

variable {reused : ℕ → ℕ} {ops : List ClockOp} {g : Callers} {σ : ClockState} {p q : ℕ}
  {n m : InstructionNode}

/-- A single edge links two threads when an event of the one happens before an
event of the other. -/
theorem Reached.exists_link (hops : Callers.new.Follows ops)
    (hsmall : ∀ t e, ClockOp.set t e ∈ ops → e < 2 ^ 31)
    (hrun : (ClockState.new reused).run ops = some σ) (h : Reached ops g σ)
    (hn : IsNodeAt reused ops p n) (hm : IsNodeAt reused ops q m) (htid : n.tid ≠ m.tid)
    (hpq : RunsBefore ops p q) : ∃ x y, (x, y) ∈ (LoggedClocks.run (ops.map ClockOp.sync)).edges ∧
      Earlier (readLines σ.lines).nodes (.instruction n) (epochOf x) ∧
      Earlier (readLines σ.lines).nodes (epochOf y) (.instruction m) := by
  have hpn := h.placedAt hops hsmall hrun hn
  have hqm := h.placedAt hops hsmall hrun hm
  obtain ⟨e, e', hlt, hle, hedge⟩ := h.ordered.direct n.tid p m.tid q hpn.event hqm.event htid hpq
  obtain ⟨hmem, hmem', -⟩ := h.ordered.logged.edge _ _ hedge
  refine ⟨(n.tid, e), (m.tid, e'), hedge, ?_, ?_⟩
  · rcases hpn.epochs e hmem with ⟨hle, -⟩ | ⟨-, hout⟩
    · exact absurd hlt (not_lt.mpr hle)
    · exact hout
  · rcases hqm.epochs e' hmem' with ⟨-, hin⟩ | ⟨hlt, -⟩
    · exact hin
    · exact absurd hle (not_le.mpr hlt)

/-- Events of one thread are ordered by their positions. -/
theorem runsBefore_iff_lt (hp : EventOf (ops.map ClockOp.sync) n.tid p)
    (hq : EventOf (ops.map ClockOp.sync) m.tid q) (htid : n.tid = m.tid) :
    RunsBefore ops p q ↔ p < q := by
  refine ⟨fun hpq => hpq.lt.1, fun hlt => .single (.program n.tid hlt ?_ ?_)⟩
  · obtain ⟨op, hop, rfl⟩ := hp
    exact ⟨_, hop, rfl⟩
  · obtain ⟨op, hop, rfl⟩ := hq
    exact ⟨_, hop, congrArg some htid.symm⟩

/-- A path leads from one event to another exactly when the one happens before the other. -/
theorem Reached.path_iff (hops : Callers.new.Follows ops)
    (hsmall : ∀ t e, ClockOp.set t e ∈ ops → e < 2 ^ 31)
    (hrun : (ClockState.new reused).run ops = some σ) (h : Reached ops g σ)
    (hn : IsNodeAt reused ops p n) (hm : IsNodeAt reused ops q m) :
    TransGen (Next (readLines σ.lines).nodes (LoggedClocks.run (ops.map ClockOp.sync)))
      (.instruction n) (.instruction m) ↔ RunsBefore ops p q := by
  have hb := h.holdsLog hsmall
  have hlogged := h.ordered.logged
  have hpn := h.placedAt hops hsmall hrun hn
  have hqm := h.placedAt hops hsmall hrun hm
  by_cases htid : n.tid = m.tid
  · rw [runsBefore_iff_lt hpn.event hqm.event htid]
    constructor
    · intro hpath
      by_contra hle
      refine hb.not_path_self (u := .instruction n) hlogged ?_
      rcases (not_lt.mp hle).eq_or_lt with rfl | hlt
      · rw [← hn.unique hm] at hpath
        exact hpath
      · exact hpath.tail (Or.inl (earlier_of_lt hb.nodup hrun hm hn hlt htid.symm))
    · exact fun hlt => .single (Or.inl (earlier_of_lt hb.nodup hrun hn hm hlt htid))
  · constructor
    · intro hpath
      rcases hb.path_cases hlogged hpath with he | ⟨⟨i, e⟩, ⟨t, e'⟩, hx, hxy, hy⟩
      · exact absurd he.2.2.1 htid
      · have hx : Earlier (readLines σ.lines).nodes (.instruction n) (epochOf (i, e)) :=
          hx.resolve_left (fun he => nomatch he)
        have hy : Earlier (readLines σ.lines).nodes (epochOf (t, e')) (.instruction m) :=
          hy.resolve_left (fun he => nomatch he)
        obtain rfl : n.tid = i := hx.2.2.1
        obtain rfl : t = m.tid := hy.2.2.1
        have he : stamp (ops.map ClockOp.sync) p n.tid < e := by
          rcases hpn.epochs e (hb.mem_iff.mp hx.2.1) with ⟨-, hback⟩ | ⟨hlt, -⟩
          · exact absurd (hx.trans hback) not_earlier_self
          · exact hlt
        have hmem' := hb.mem_iff.mp hy.1
        have he' : e' ≤ stamp (ops.map ClockOp.sync) q m.tid := by
          rcases hqm.epochs e' hmem' with ⟨hle, -⟩ | ⟨-, hback⟩
          · exact hle
          · exact absurd (hy.trans hback) not_earlier_self
        refine h.ordered.path n.tid p m.tid q hpn.event hqm.event htid e he ?_
        rcases he'.eq_or_lt with heq | hlt
        · rw [← heq]
          exact hxy
        · have hlast := h.ordered.stamp_mem m.tid q hqm.event (by omega)
          exact hxy.tail (Or.inl ⟨hmem', hlast, rfl, hlt⟩)
    · intro hpq
      obtain ⟨x, y, hedge, hout, hin⟩ := h.exists_link hops hsmall hrun hn hm htid hpq
      have hnext : Next (readLines σ.lines).nodes (LoggedClocks.run (ops.map ClockOp.sync))
          (epochOf x) (epochOf y) := Or.inr ⟨_, _, hedge, rfl, rfl⟩
      refine .head (Or.inl hout) (.head hnext (.single ?_))
      exact Or.inl hin

theorem IsNodeAt.append (h : IsNodeAt reused ops p n) (op : ClockOp) :
    IsNodeAt reused (ops ++ [op]) p n := by
  obtain ⟨line, σ₁, hp, hpre, hnode⟩ := h
  have hlt := (List.getElem?_eq_some_iff.mp hp).1
  refine ⟨line, σ₁, ?_, ?_, hnode⟩
  · rw [List.getElem?_append_left hlt]
    exact hp
  · rw [List.take_append_of_le_length hlt.le]
    exact hpre

/-- The instructions of the trace are the nodes of the events. -/
theorem instruction_mem_iff (hrun : (ClockState.new reused).run ops = some σ)
    (n : InstructionNode) : Node.instruction n ∈ (readLines σ.lines).nodes ↔ ∃ p,
    IsNodeAt reused ops p n := by
  constructor
  · intro hn
    rw [instruction_mem_readLines] at hn
    induction ops using List.reverseRecOn generalizing σ with
    | nil =>
      cases hrun
      exact absurd hn not_hasLine_nil
    | append_singleton ops op ih =>
      rw [ClockState.run_append] at hrun
      obtain ⟨σ₁, hrun₁, hstep⟩ := Option.bind_eq_some_iff.mp hrun
      obtain ⟨σ₂, hstep, hσ⟩ := Option.bind_eq_some_iff.mp hstep
      cases hσ
      have hold : HasLine σ₁.lines (fun pre line => ∃ l, line = .event l ∧ nodeAfter pre l = some n)
          → ∃ p, IsNodeAt reused (ops ++ [op]) p n := by
        intro hold
        obtain ⟨p, hp⟩ := ih hrun₁ hold
        exact ⟨p, hp.append op⟩
      by_cases hop : ∃ line, op = .print line
      · obtain ⟨line, rfl⟩ := hop
        cases hstep
        rcases (hasLine_append_singleton _).mp hn with hn | ⟨l, he, hnode⟩
        · exact hold hn
        · cases he
          refine ⟨ops.length, line, σ₁, by simp, ?_, hnode⟩
          rw [List.take_left]
          exact hrun₁
      · obtain ⟨more, hmore, hlines⟩ := ClockState.lines_step hstep
        have hnone : op.line = none := by
          cases op with
          | print line => exact absurd ⟨line, rfl⟩ hop
          | _ => rfl
        rw [hnone] at hlines
        refine hold ?_
        obtain ⟨pre, x, post, hsplit, l, rfl, hnode⟩ := hn
        rw [hmore] at hsplit
        rcases List.append_eq_append_iff.mp hsplit with ⟨c, rfl, hc⟩ | ⟨c, hσ₁, hc⟩
        · rw [hc] at hlines
          simp [LogLine.line] at hlines
        · cases c with
          | nil =>
            rw [List.nil_append] at hc
            rw [← hc] at hlines
            simp [LogLine.line] at hlines
          | cons y c =>
            cases hc
            exact ⟨pre, _, c, hσ₁, l, rfl, hnode⟩
  · rintro ⟨p, line, σ₁, hp, hpre, hnode⟩
    obtain ⟨post, hlines⟩ := lines_split hrun hp hpre
    obtain ⟨rest, hrest⟩ := nodes_split_at hlines hnode
    rw [hrest]
    simp

/-- A run of programs that is short enough for the format of the trace. -/
structure Recordable (ops : List ClockOp) : Prop where
  follows : Callers.new.Follows ops
  prints : PrintsPrograms ops
  inLine : AccessesInLine ops
  small : ∀ t e, ClockOp.set t e ∈ ops → e < 2 ^ 31

/-- The graph has one node for each event, and its paths are the order of the run. -/
structure OrdersEvents (reused : ℕ → ℕ) (ops : List ClockOp) (hbg : HBG) : Prop where
  mem_nodes : ∀ n, Node.instruction n ∈ hbg.nodes ↔ ∃ p, IsNodeAt reused ops p n
  reaches : ∀ p q n m, IsNodeAt reused ops p n → IsNodeAt reused ops q m →
    (hbg.graph.Reaches (.instruction n) (.instruction m) ↔ RunsBefore ops p q)

theorem Reached.ordersEvents (hops : Recordable ops)
    (hrun : (ClockState.new reused).run ops = some σ)
    (h : Reached ops g σ) {hbg : HBG} (hnodes : hbg.nodes = (readLines σ.lines).nodes)
    (hreach : ∀ u v, hbg.graph.Reaches u v ↔
      TransGen (Next (readLines σ.lines).nodes (LoggedClocks.run (ops.map ClockOp.sync))) u v) :
    OrdersEvents reused ops hbg where
  mem_nodes := by
    intro n
    rw [hnodes]
    exact instruction_mem_iff hrun n
  reaches := by
    intro p q n m hn hm
    rw [hreach]
    exact h.path_iff hops.follows hops.small hrun hn hm

/-- The events of a run are ordered in the graph of its trace as they are in the run. -/
theorem trace_orders_events (reused : ℕ → ℕ) {ops : List ClockOp} (hops : Recordable ops) :
    ∃ σ texts s, (ClockState.new reused).run ops = some σ ∧
      σ.lines.mapM LogLine.print = some texts ∧ TraceParser.parse texts none none = .ok s ∧
      ∀ it edgeOrder makeDaisyChains assertDag, (∀ e, e ∈ edgeOrder ↔ e ∈ s.hbgBuilder.edges) →
        ∃ hbg, s.buildHbg it edgeOrder false makeDaisyChains assertDag = .ok hbg ∧
          OrdersEvents reused ops hbg := by
  obtain ⟨σ, g, hrun, h⟩ := (Reached.new reused).run hops.follows
  have hall := allCoherent_of_run hrun (fun line hline => hops.follows.tid_lt hline) hops.prints
  obtain ⟨texts, hprint, -, s, hparse, hreads⟩ := h.exists_texts hall
  refine ⟨σ, texts, s, hrun, hprint, hparse, fun it edgeOrder makeDaisyChains assertDag hes => ?_⟩
  obtain ⟨hbg, hbuild, hnodes, hreach⟩ :=
    h.exists_build hops.small hrun hops.inLine hreads it makeDaisyChains assertDag hes
  exact ⟨hbg, hbuild, h.ordersEvents hops hrun hnodes hreach⟩

theorem sampleRun_recordable : Recordable sampleRun :=
  ⟨sampleRun_follows, sampleRun_prints, sampleRun_inLine, sampleRun_small⟩

theorem trace_orders_events_sample :
    ∃ σ texts s, (ClockState.new fun _ => 0).run sampleRun = some σ ∧
      σ.lines.mapM LogLine.print = some texts ∧ TraceParser.parse texts none none = .ok s ∧
      ∃ hbg, s.buildHbg noTrees s.hbgBuilder.edges false true true = .ok hbg ∧
        OrdersEvents (fun _ => 0) sampleRun hbg := by
  obtain ⟨σ, texts, s, hrun, hprint, hparse, hbuild⟩ := trace_orders_events (fun _ => 0)
    sampleRun_recordable
  exact ⟨σ, texts, s, hrun, hprint, hparse, hbuild noTrees s.hbgBuilder.edges true true fun _ =>
    Iff.rfl⟩

end Order

end Prd.Runtime
