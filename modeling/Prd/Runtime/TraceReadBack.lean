import Prd.Runtime.ThreadLines

/-!
# The parser undoes the printer

A trace interleaves the lines of the threads. The id of a thread may be used again when
it is over, but the lines of its successor all come later, so the number in a dependency
always stands for the access of the thread that printed it.
-/
namespace Prd.Runtime

open Prd.Foundation Prd.Pycprd PyStr

/-- A thread and what it does. It does not run out of event ids, which have 64 bits. -/
structure Thread where
  tid : ℕ
  ops : List ThreadOp
  tid_lt : tid < 2 ^ 31
  length_ops : ops.length ≤ 2 ^ 64

/-- The lines of one thread in a trace, whose lines come with the indices of their threads. -/
def linesOf (trace : List (ℕ × Line)) (k : ℕ) : List Line :=
  (trace.filter (·.1 = k)).map Prod.snd

/-- An interleaving of what the threads have printed at some time. Threads with the same id do
not overlap. -/
structure IsTrace (threads : List Thread) (trace : List (ℕ × Line)) : Prop where
  thread : ∀ x ∈ trace, x.1 < threads.length
  lines : ∀ k thread, threads[k]? = some thread →
    ∃ lines, PrintingThread.run thread.tid .new thread.ops = some lines ∧ linesOf trace k <+: lines
  turns : ∀ x y z, [x, y, z].Sublist trace → x.1 = z.1 → x.2.tid = y.2.tid → y.1 = x.1

/-- The node that a line adds. -/
def Line.node (ident lineNumber : ℕ) : Line → Option InstructionNode
  | access a => some (a.node ident lineNumber)
  | flush f => some (f.node ident lineNumber)
  | pd _ => none

/-- One node for each access and each flushed line, in their order. -/
def nodesFrom (ident lineNumber : ℕ) : List Line → List InstructionNode
  | [] => []
  | line :: lines =>
    match line.node ident lineNumber with
    | some n => n :: nodesFrom (ident + 1) (lineNumber + 1) lines
    | none => nodesFrom ident (lineNumber + 1) lines

def nodes (trace : List (ℕ × Line)) : List InstructionNode := nodesFrom 0 1 (trace.map Prod.snd)

/-- The node of the access that the thread has given the number. -/
def IsNodeOf (trace : List (ℕ × Line)) (k eventId : ℕ) (n : InstructionNode) : Prop :=
  ∃ pre a post, trace = pre ++ (k, .access a) :: post ∧ a.eventId = eventId ∧
    n = a.node (nodes pre).length (pre.length + 1)

section Nodes

theorem nodesFrom_append (ident lineNumber : ℕ) (lines more : List Line) :
    nodesFrom ident lineNumber (lines ++ more) = nodesFrom ident lineNumber lines ++
      nodesFrom (ident + (nodesFrom ident lineNumber lines).length) (lineNumber + lines.length)
        more := by
  induction lines generalizing ident lineNumber with
  | nil => simp [nodesFrom]
  | cons line lines ih =>
    rw [List.cons_append, nodesFrom, nodesFrom]
    cases line.node ident lineNumber with
    | some n => simp [ih, Nat.add_assoc, Nat.add_comm 1]
    | none => simp [ih, Nat.add_assoc, Nat.add_comm 1]

/-- The nodes of a trace at one of its lines. -/
theorem nodes_split (pre : List (ℕ × Line)) (x : ℕ × Line) (post : List (ℕ × Line)) :
    ∃ ident lineNumber, nodes (pre ++ x :: post) = nodes pre ++
      ((x.2.node (nodes pre).length (pre.length + 1)).toList ++
        nodesFrom ident lineNumber (post.map Prod.snd)) := by
  unfold nodes
  rw [List.map_append, nodesFrom_append, List.map_cons, List.length_map, Nat.zero_add,
    Nat.add_comm 1, nodesFrom]
  cases x.2.node _ (pre.length + 1) with
  | some n => exact ⟨_, _, rfl⟩
  | none => exact ⟨_, _, rfl⟩

theorem nodes_append_singleton (trace : List (ℕ × Line)) (x : ℕ × Line) :
    nodes (trace ++ [x]) =
      nodes trace ++ (x.2.node (nodes trace).length (trace.length + 1)).toList := by
  obtain ⟨i, l, h⟩ := nodes_split trace x []
  rw [h, List.map_nil, nodesFrom, List.append_nil]

theorem Line.node_fields {line : Line} {ident lineNumber : ℕ} {n : InstructionNode}
    (h : line.node ident lineNumber = some n) : n.tid = line.tid ∧ n.eventId = line.eventId := by
  cases line with
  | access a =>
    cases h
    exact ⟨rfl, rfl⟩
  | flush f =>
    cases h
    exact ⟨rfl, rfl⟩
  | pd p => cases h

theorem mem_nodesFrom {ident lineNumber : ℕ} {lines : List Line} {n : InstructionNode}
    (h : n ∈ nodesFrom ident lineNumber lines) :
    ∃ line ∈ lines, n.tid = line.tid ∧ n.eventId = line.eventId := by
  induction lines generalizing ident lineNumber with
  | nil => cases h
  | cons line lines ih =>
    rw [nodesFrom] at h
    cases hnode : line.node ident lineNumber with
    | some m =>
      rw [hnode] at h
      rcases List.mem_cons.mp h with rfl | h
      · exact ⟨line, List.mem_cons_self, Line.node_fields hnode⟩
      · obtain ⟨l, hl, hn⟩ := ih h
        exact ⟨l, List.mem_cons_of_mem _ hl, hn⟩
    | none =>
      rw [hnode] at h
      obtain ⟨l, hl, hn⟩ := ih h
      exact ⟨l, List.mem_cons_of_mem _ hl, hn⟩

/-- The last node with the number. -/
def lastEvent (trace : List (ℕ × Line)) (tid eventId : ℕ) : Option InstructionNode :=
  ((nodes trace).filter fun n => n.tid = tid ∧ n.eventId = some eventId).getLast?

theorem lastEvent_append_singleton (trace : List (ℕ × Line)) (x : ℕ × Line) (tid eventId : ℕ) :
    lastEvent (trace ++ [x]) tid eventId =
      if x.2.tid = tid ∧ x.2.eventId = some eventId then
        x.2.node (nodes trace).length (trace.length + 1)
      else lastEvent trace tid eventId := by
  unfold lastEvent
  rw [nodes_append_singleton, List.filter_append]
  cases hnode : x.2.node (nodes trace).length (trace.length + 1) with
  | none =>
    have hid : x.2.eventId = none := by
      cases hx : x.2 with
      | access a =>
        rw [hx] at hnode
        cases hnode
      | flush f => rfl
      | pd p => rfl
    simp [hid]
  | some n =>
    obtain ⟨htid, hid⟩ := Line.node_fields hnode
    by_cases h : x.2.tid = tid ∧ x.2.eventId = some eventId
    · rw [if_pos h, Option.toList_some, List.filter_singleton]
      simp [htid, hid, h]
    · rw [if_neg h, Option.toList_some, List.filter_singleton]
      have hnot : ¬ (n.tid = tid ∧ n.eventId = some eventId) := by rwa [htid, hid]
      simp [hnot]

end Nodes

section Interleaving

variable {trace : List (ℕ × Line)} {threads : List Thread}

/-- What the lines of a trace have in common with those of a single thread. -/
structure Interleaved (trace : List (ℕ × Line)) : Prop where
  coherent : ∀ k, ∃ tid, Coherent tid (linesOf trace k)
  turns : ∀ x y z, [x, y, z].Sublist trace → x.1 = z.1 → x.2.tid = y.2.tid → y.1 = x.1

theorem IsTrace.interleaved (h : IsTrace threads trace) : Interleaved trace where
  coherent := by
    intro k
    cases hk : threads[k]? with
    | some thread =>
      obtain ⟨lines, hrun, hpre⟩ := h.lines k thread hk
      exact ⟨thread.tid,
        (PrintingThread.coherent_run thread.tid_lt thread.length_ops hrun).of_prefix_of hpre⟩
    | none =>
      have hempty : linesOf trace k = [] := by
        unfold linesOf
        rw [List.map_eq_nil_iff, List.filter_eq_nil_iff]
        intro x hx he
        have hlt := h.thread x hx
        have hle := List.getElem?_eq_none_iff.mp hk
        rw [of_decide_eq_true he] at hlt
        omega
      exact ⟨0, hempty ▸ Coherent.nil⟩
  turns := h.turns

theorem linesOf_append (trace more : List (ℕ × Line)) (k : ℕ) :
    linesOf (trace ++ more) k = linesOf trace k ++ linesOf more k := by
  unfold linesOf
  rw [List.filter_append, List.map_append]

theorem linesOf_cons_self (k : ℕ) (line : Line) (trace : List (ℕ × Line)) :
    linesOf ((k, line) :: trace) k = line :: linesOf trace k := by
  unfold linesOf
  rw [List.filter_cons_of_pos (by simp), List.map_cons]

theorem mem_linesOf {k : ℕ} {line : Line} : line ∈ linesOf trace k ↔ (k, line) ∈ trace := by
  unfold linesOf
  simp

theorem Interleaved.of_append {more : List (ℕ × Line)} (h : Interleaved (trace ++ more)) :
    Interleaved trace where
  coherent := by
    intro k
    obtain ⟨tid, hk⟩ := h.coherent k
    rw [linesOf_append] at hk
    exact ⟨tid, hk.of_prefix_of (List.prefix_append _ _)⟩
  turns := fun x y z hsub => h.turns x y z (hsub.trans (List.sublist_append_left _ _))

/-- The number of an access is not used again by its thread. -/
theorem Interleaved.eventId_ne (h : Interleaved trace) {pre post : List (ℕ × Line)} {k : ℕ}
    {a b : AccessLine} (htrace : trace = pre ++ (k, .access a) :: post)
    (hb : (k, Line.access b) ∈ post) : b.eventId ≠ a.eventId := by
  obtain ⟨tid, hk⟩ := h.coherent k
  have hnd := hk.nodup
  have hid : Line.eventId (.access a) = some a.eventId := rfl
  rw [htrace, linesOf_append, linesOf_cons_self, List.filterMap_append,
    List.filterMap_cons_some hid] at hnd
  have hnotMem := (List.nodup_cons.mp (List.nodup_append.mp hnd).2.1).1
  intro he
  exact hnotMem (List.mem_filterMap.mpr ⟨_, mem_linesOf.mpr hb, congrArg some he⟩)

/-- While a thread prints, its numbers stand for its own accesses. -/
theorem Interleaved.lastEvent_eq {k : ℕ} {line : Line} (h : Interleaved (trace ++ [(k, line)]))
    {pre post : List (ℕ × Line)} {a : AccessLine} (htrace : trace = pre ++ (k, .access a) :: post) :
    lastEvent trace a.tid a.eventId = some (a.node (nodes pre).length (pre.length + 1)) := by
  have hlater : ∀ x ∈ post, ¬ (x.2.tid = a.tid ∧ x.2.eventId = some a.eventId) := by
    intro x hx hsame
    have hsub : [(k, Line.access a), x, (k, line)].Sublist (trace ++ [(k, line)]) := by
      have hpair : [(k, Line.access a), x].Sublist trace := by
        rw [htrace]
        exact ((List.singleton_sublist.mpr hx).cons_cons _).trans (List.sublist_append_right _ _)
      exact hpair.append (List.Sublist.refl [(k, line)])
    have hk : x.1 = k := h.turns _ _ _ hsub rfl hsame.1.symm
    obtain ⟨k', l⟩ := x
    subst hk
    cases l with
    | access b =>
      exact h.of_append.eventId_ne htrace hx (Option.some.inj hsame.2)
    | flush f => cases hsame.2
    | pd p => cases hsame.2
  obtain ⟨i, l, hnodes⟩ := nodes_split pre (k, .access a) post
  have hrest : (nodesFrom i l (post.map Prod.snd)).filter
      (fun n => n.tid = a.tid ∧ n.eventId = some a.eventId) = [] := by
    rw [List.filter_eq_nil_iff]
    intro n hn hsame
    have hsame := of_decide_eq_true hsame
    obtain ⟨line', hline, htid, hid⟩ := mem_nodesFrom hn
    obtain ⟨x, hx, rfl⟩ := List.mem_map.mp hline
    exact hlater x hx ⟨htid.symm.trans hsame.1, hid.symm.trans hsame.2⟩
  have hself : (a.node (nodes pre).length (pre.length + 1)).tid = a.tid ∧
      (a.node (nodes pre).length (pre.length + 1)).eventId = some a.eventId := ⟨rfl, rfl⟩
  unfold lastEvent
  rw [htrace, hnodes, List.filter_append, List.filter_append, hrest, List.append_nil]
  unfold Line.node
  rw [Option.toList_some, List.filter_singleton]
  simp [hself]

/-- An access that a dependency names. -/
theorem IsNodeOf.unique (h : Interleaved trace) {k eventId : ℕ} {n m : InstructionNode}
    (hn : IsNodeOf trace k eventId n) (hm : IsNodeOf trace k eventId m) : n = m := by
  obtain ⟨pre, a, post, htrace, hid, rfl⟩ := hn
  obtain ⟨pre', b, post', htrace', hid', rfl⟩ := hm
  have hsplit := htrace.symm.trans htrace'
  rcases List.append_eq_append_iff.mp hsplit with ⟨c, rfl, hc⟩ | ⟨c, rfl, hc⟩
  · cases c with
    | nil =>
      cases hc
      rw [List.append_nil]
    | cons x c =>
      cases hc
      exact absurd (hid'.trans hid.symm) (h.eventId_ne htrace (by simp))
  · cases c with
    | nil =>
      cases hc
      rw [List.append_nil]
    | cons x c =>
      cases hc
      exact absurd (hid.trans hid'.symm) (h.eventId_ne htrace' (by simp))

theorem IsNodeOf.append {k eventId : ℕ} {n : InstructionNode} (h : IsNodeOf trace k eventId n)
    (more : List (ℕ × Line)) : IsNodeOf (trace ++ more) k eventId n := by
  obtain ⟨pre, a, post, rfl, hid, hn⟩ := h
  exact ⟨pre, a, post ++ more, by simp, hid, hn⟩

/-- The nodes that a dependency names, and where the parser finds them. -/
theorem Interleaved.exists_nodes {k : ℕ} {p : PdLine} (h : Interleaved (trace ++ [(k, .pd p)])) :
    ∃ w r, IsNodeOf trace k p.writeEventId w ∧ lastEvent trace p.tid p.writeEventId = some w ∧
      w.itype = .write ∧ w.tid = p.tid ∧
      IsNodeOf trace k p.readEventId r ∧ lastEvent trace p.tid p.readEventId = some r ∧
      r.itype = .read ∧ r.tid = p.tid := by
  obtain ⟨tid, hk⟩ := h.coherent k
  have hlines : linesOf (trace ++ [(k, Line.pd p)]) k = linesOf trace k ++ .pd p :: [] := by
    rw [linesOf_append, linesOf_cons_self]
    rfl
  have htid : ∀ line, (k, line) ∈ trace ++ [(k, Line.pd p)] → line.tid = tid :=
    fun line hline => (hk.valid line (mem_linesOf.mpr hline)).2
  have hp : p.tid = tid := htid (.pd p) (by simp)
  have hfind : ∀ a, Line.access a ∈ linesOf trace k → ∃ n, IsNodeOf trace k a.eventId n ∧
      lastEvent trace p.tid a.eventId = some n ∧ n.itype = (if a.isWrite then .write else .read) ∧
        n.tid = p.tid := by
    intro a ha
    have hmem := mem_linesOf.mp ha
    have hatid : a.tid = p.tid := (htid (.access a) (List.mem_append_left _ hmem)).trans hp.symm
    obtain ⟨pre, post, htrace⟩ := List.append_of_mem hmem
    have hlast := h.lastEvent_eq htrace
    rw [hatid] at hlast
    exact ⟨_, ⟨pre, a, post, htrace, rfl, rfl⟩, hlast, rfl, hatid⟩
  obtain ⟨a, ha, haw, hid⟩ := hk.write _ _ _ hlines
  obtain ⟨b, hb, hbr, hid'⟩ := hk.read _ _ _ hlines
  obtain ⟨w, hw, hwl, hwt, hwtid⟩ := hfind a ha
  obtain ⟨r, hr, hrl, hrt, hrtid⟩ := hfind b hb
  rw [hid] at hw hwl
  rw [hid'] at hr hrl
  rw [haw] at hwt
  rw [hbr] at hrt
  exact ⟨w, r, hw, hwl, hwt, hwtid, hr, hrl, hrt, hrtid⟩

end Interleaving

section Parser

/-- What the parser has after the lines of a trace. -/
structure Tracks (trace : List (ℕ × Line)) (s : TraceParser) : Prop where
  nodes : s.hbgBuilder.nodes = (nodes trace).map Node.instruction
  nextIdent : s.hbgBuilder.nextIdent = (Runtime.nodes trace).length
  event : ∀ tid eventId n, lastEvent trace tid eventId = some n → s.event tid eventId = .ok n
  dependency : ∀ w r, s.pdgBuilder.graph.HasEdge w r ↔ ∃ pre k p post,
    trace = pre ++ (k, .pd p) :: post ∧ IsNodeOf pre k p.writeEventId w ∧
    IsNodeOf pre k p.readEventId r

variable {trace : List (ℕ × Line)} {s : TraceParser}

theorem tracks_new : Tracks [] .new where
  nodes := rfl
  nextIdent := rfl
  event := by
    intro tid eventId n h
    cases h
  dependency := by
    intro w r
    simp [TraceParser.new, PDGBuilder.new, Digraph.empty, Digraph.HasEdge]

theorem event_addEvent_eq (s : TraceParser) (n : InstructionNode) (id tid eventId : ℕ) :
    (s.addEvent n id).event tid eventId =
      if n.tid = tid ∧ id = eventId then .ok n else s.event tid eventId := by
  unfold TraceParser.addEvent TraceParser.event
  simp only [Dict.getD_insert]
  by_cases ht : tid = n.tid
  · subst ht
    rw [if_pos rfl]
    unfold pyGet
    by_cases hid : eventId = id
    · subst hid
      rw [AList.lookup_insert, if_pos ⟨rfl, rfl⟩]
      rfl
    · rw [AList.lookup_insert_ne hid, if_neg (fun h => hid h.2.symm)]
  · rw [if_neg ht, if_neg (fun h => ht h.1.symm)]

/-- The dependencies of one more line. -/
theorem split_iff (x : ℕ × Line) (P : List (ℕ × Line) → ℕ → PdLine → Prop) :
    (∃ pre k p post, trace ++ [x] = pre ++ (k, .pd p) :: post ∧ P pre k p) ↔
      (∃ pre k p post, trace = pre ++ (k, .pd p) :: post ∧ P pre k p) ∨
        ∃ k p, x = (k, .pd p) ∧ P trace k p := by
  constructor
  · intro h
    obtain ⟨pre, k, p, post, he, hP⟩ := h
    rcases append_singleton_eq_iff.mp he with ⟨rfl, hx, -⟩ | ⟨post', -, he⟩
    · exact Or.inr ⟨k, p, hx.symm, hP⟩
    · exact Or.inl ⟨pre, k, p, post', he, hP⟩
  · intro h
    rcases h with ⟨pre, k, p, post, rfl, hP⟩ | ⟨k, p, rfl, hP⟩
    · exact ⟨pre, k, p, post ++ [x], by simp, hP⟩
    · exact ⟨trace, k, p, [], rfl, hP⟩

theorem Tracks.access (h : Tracks trace s) {k : ℕ} {a : AccessLine} (ha : a.Valid) :
    ∃ s', readBack a.print s (trace.length + 1) = some (.ok s') ∧
      Tracks (trace ++ [(k, .access a)]) s' := by
  refine ⟨_, readBack_access ha s (trace.length + 1), ?_, ?_, ?_, ?_⟩
  · rw [nodes_append_singleton, List.map_append, ← h.nodes, h.nextIdent]
    rfl
  · rw [nodes_append_singleton, List.length_append, ← h.nextIdent]
    rfl
  · intro tid eventId n hn
    rw [lastEvent_append_singleton, ← h.nextIdent] at hn
    rw [event_addEvent_eq]
    split_ifs at hn with hsame
    · cases hn
      exact if_pos ⟨hsame.1, Option.some.inj hsame.2⟩
    · rw [if_neg (fun hs => hsame ⟨hs.1, congrArg some hs.2⟩)]
      exact h.event tid eventId n hn
  · intro w r
    rw [split_iff]
    simp only [Prod.mk.injEq, reduceCtorEq, and_false, false_and, exists_false, or_false]
    exact h.dependency w r

theorem Tracks.flush (h : Tracks trace s) {k : ℕ} {f : FlushLine} (hf : f.Valid) :
    ∃ s', readBack f.print s (trace.length + 1) = some (.ok s') ∧
      Tracks (trace ++ [(k, .flush f)]) s' := by
  refine ⟨_, readBack_flush hf s (trace.length + 1), ?_, ?_, ?_, ?_⟩
  · rw [nodes_append_singleton, List.map_append, ← h.nodes, h.nextIdent]
    rfl
  · rw [nodes_append_singleton, List.length_append, ← h.nextIdent]
    rfl
  · intro tid eventId n hn
    rw [lastEvent_append_singleton, if_neg (by simp [Line.eventId])] at hn
    exact h.event tid eventId n hn
  · intro w r
    rw [split_iff]
    simp only [Prod.mk.injEq, reduceCtorEq, and_false, false_and, exists_false, or_false]
    exact h.dependency w r

theorem Tracks.pd (h : Tracks trace s) {k : ℕ} {p : PdLine}
    (htrace : Interleaved (trace ++ [(k, .pd p)])) (hp : p.Valid) :
    ∃ s', readBack p.print s (trace.length + 1) = some (.ok s') ∧
      Tracks (trace ++ [(k, .pd p)]) s' := by
  obtain ⟨w, r, hw, hwl, hwt, hwtid, hr, hrl, hrt, hrtid⟩ := htrace.exists_nodes
  have hadd : s.pdgBuilder.addDependency w r =
      .ok { s.pdgBuilder with graph := s.pdgBuilder.graph.addEdge w r () } := by
    unfold PDGBuilder.addDependency
    simp [hwt, hrt, hwtid, hrtid, pyAssert]
  have hread := readBack_pd hp s (trace.length + 1)
  rw [h.event _ _ _ hrl, h.event _ _ _ hwl, ok_bind, ok_bind, hadd, ok_bind] at hread
  refine ⟨_, hread, ?_, ?_, ?_, ?_⟩
  · rw [nodes_append_singleton]
    simpa [Line.node] using h.nodes
  · rw [nodes_append_singleton]
    simpa [Line.node] using h.nextIdent
  · intro tid eventId n hn
    rw [lastEvent_append_singleton, if_neg (by simp [Line.eventId])] at hn
    exact h.event tid eventId n hn
  · intro w' r'
    rw [split_iff, Digraph.hasEdge_addEdge, h.dependency]
    apply or_congr_right
    constructor
    · intro he
      obtain ⟨rfl, rfl⟩ := he
      exact ⟨k, p, rfl, hw, hr⟩
    · intro he
      obtain ⟨k', p', hx, hw', hr'⟩ := he
      cases hx
      exact ⟨hw'.unique htrace.of_append hw, hr'.unique htrace.of_append hr⟩

theorem parseLines_append_singleton (s : TraceParser) (i : ℕ) (lines : List PyStr) (line : PyStr) :
    TraceParser.parseLines none none s i (lines ++ [line]) = (do
      let s ← TraceParser.parseLines none none s i lines
      s.parseLine none line (i + lines.length + 1)) := by
  induction lines generalizing s i with
  | nil =>
    simp only [List.nil_append, TraceParser.parseLines, Option.any_none, Bool.false_eq_true,
      if_false, pure_bind, List.length_nil, Nat.add_zero]
    cases s.parseLine none line (i + 1) <;> rfl
  | cons first lines ih =>
    have hlen : i + (first :: lines).length + 1 = i + 1 + lines.length + 1 := by
      rw [List.length_cons]
      omega
    rw [hlen]
    simp [TraceParser.parseLines, ih]

theorem parse_append_singleton (texts : List PyStr) (text : PyStr) :
    TraceParser.parse (texts ++ [text]) none none = (do
      let s ← TraceParser.parse texts none none
      s.parseLine none text.strip (texts.length + 1)) := by
  unfold TraceParser.parse
  rw [List.map_append, List.map_singleton, parseLines_append_singleton, List.length_map,
    Nat.zero_add]

/-- The parser reads every interleaving. -/
theorem Interleaved.exists_tracks (h : Interleaved trace) : ∃ texts s,
    trace.mapM (fun x => x.2.print) = some texts ∧ texts.length = trace.length ∧
      TraceParser.parse texts none none = .ok s ∧ Tracks trace s := by
  induction trace using List.reverseRecOn with
  | nil => exact ⟨[], .new, rfl, rfl, rfl, tracks_new⟩
  | append_singleton trace x ih =>
    obtain ⟨texts, s, htexts, hlen, hparse, hs⟩ := ih h.of_append
    obtain ⟨k, line⟩ := x
    have hvalid : line.Valid := by
      obtain ⟨tid, hk⟩ := h.coherent k
      exact (hk.valid line (mem_linesOf.mpr (by simp))).1
    have hnext : ∃ s', readBack line.print s (trace.length + 1) = some (.ok s') ∧
        Tracks (trace ++ [(k, line)]) s' := by
      cases line with
      | access a => exact hs.access hvalid
      | flush f => exact hs.flush hvalid
      | pd p => exact hs.pd h hvalid
    obtain ⟨s', hread, hs'⟩ := hnext
    obtain ⟨text, hprint, hread⟩ := Option.map_eq_some_iff.mp hread
    refine ⟨texts ++ [text], s', ?_, by simp [hlen], ?_, hs'⟩
    · simp [List.mapM_append, htexts, hprint]
    · rw [parse_append_singleton, hparse, ok_bind, hlen]
      exact hread

/-- Printing succeeds, and the parser finds one node for each access and each flush in the order of
the lines, and the dependencies between exactly the writes and reads that they were printed for. -/
theorem parser_undoes_printer {threads : List Thread} (h : IsTrace threads trace) :
    ∃ texts s, trace.mapM (fun x => x.2.print) = some texts ∧
      TraceParser.parse texts none none = .ok s ∧
      s.hbgBuilder.nodes = (nodes trace).map Node.instruction ∧
      (∀ k p, (k, .pd p) ∈ trace → ∃ w r,
        (IsNodeOf trace k p.writeEventId w ∧ w.itype = .write ∧
          ∀ n, IsNodeOf trace k p.writeEventId n → n = w) ∧
        (IsNodeOf trace k p.readEventId r ∧ r.itype = .read ∧
          ∀ n, IsNodeOf trace k p.readEventId n → n = r)) ∧
      ∀ w r, s.pdgBuilder.graph.HasEdge w r ↔ ∃ k p, (k, .pd p) ∈ trace ∧
        IsNodeOf trace k p.writeEventId w ∧ IsNodeOf trace k p.readEventId r := by
  have hi := h.interleaved
  obtain ⟨texts, s, htexts, -, hparse, hs⟩ := hi.exists_tracks
  have hnamed : ∀ pre k p post, trace = pre ++ (k, .pd p) :: post → ∃ w r,
      (IsNodeOf pre k p.writeEventId w ∧ w.itype = .write) ∧
        (IsNodeOf pre k p.readEventId r ∧ r.itype = .read) := by
    intro pre k p post htrace
    rw [htrace, List.append_cons] at hi
    obtain ⟨w, r, hw, -, hwt, -, hr, -, hrt, -⟩ := hi.of_append.exists_nodes
    exact ⟨w, r, ⟨hw, hwt⟩, hr, hrt⟩
  refine ⟨texts, s, htexts, hparse, hs.nodes, ?_, fun w r => ?_⟩
  · intro k p hp
    obtain ⟨pre, post, htrace⟩ := List.append_of_mem hp
    obtain ⟨w, r, ⟨hw, hwt⟩, hr, hrt⟩ := hnamed pre k p post htrace
    have hw' := hw.append ((k, .pd p) :: post)
    have hr' := hr.append ((k, .pd p) :: post)
    rw [← htrace] at hw' hr'
    exact ⟨w, r, ⟨hw', hwt, fun n hn => hn.unique hi hw'⟩, hr', hrt, fun n hn => hn.unique hi hr'⟩
  · rw [hs.dependency]
    constructor
    · intro he
      obtain ⟨pre, k, p, post, htrace, hw, hr⟩ := he
      have hw' := hw.append ((k, .pd p) :: post)
      have hr' := hr.append ((k, .pd p) :: post)
      rw [← htrace] at hw' hr'
      exact ⟨k, p, by simp [htrace], hw', hr'⟩
    · intro he
      obtain ⟨k, p, hp, hw, hr⟩ := he
      obtain ⟨pre, post, htrace⟩ := List.append_of_mem hp
      obtain ⟨w', r', ⟨hw', -⟩, hr', -⟩ := hnamed pre k p post htrace
      have hw'' := hw'.append ((k, .pd p) :: post)
      have hr'' := hr'.append ((k, .pd p) :: post)
      rw [← htrace] at hw'' hr''
      refine ⟨pre, k, p, post, htrace, ?_, ?_⟩
      · rw [hw.unique hi hw'']
        exact hw'
      · rw [hr.unique hi hr'']
        exact hr'

def sampleAccess (isWrite : Bool) (addr : ℕ) (addr_lt : addr < 2 ^ 64) : TracedAccess :=
  ⟨0x400, addr, 3, isWrite, false, false, [0x100, 0x400], by decide, addr_lt, le_rfl, by decide,
    by decide, by decide⟩

theorem writtenAddr_lt : 0x2000 < 2 ^ 64 := by decide

/-- The first thread reads and writes what depends on it, and the second one flushes a line. -/
def sampleThreads : List Thread :=
  [⟨0, [.access [⟨0x1000, 0x3000⟩] (sampleAccess false 0x1000 (by decide)) [⟨0, 0⟩] 0 0,
      .access [⟨0x1000, 0x3000⟩] (sampleAccess true 0x2000 writtenAddr_lt) [⟨0, 0⟩, ⟨0, 0⟩] 1 0],
      by decide, by decide⟩,
    ⟨1, [.flush 0x1010 (by decide), .fence 0x500 (by decide)], by decide, by decide⟩]

def sampleTrace : List (ℕ × Line) :=
  [(0, .access (PrintingThread.line (sampleAccess false 0x1000 (by decide)) 0 0)),
    (1, .flush ⟨1, 0x500, 0x1000⟩),
    (0, .access (PrintingThread.line (sampleAccess true 0x2000 writtenAddr_lt) 0 1)),
    (0, .pd ⟨0, 0x400, 0, 0x400, 1⟩)]

theorem sampleTrace_isTrace : IsTrace sampleThreads sampleTrace where
  thread := by decide
  lines := by
    intro k thread hk
    match k, hk with
    | 0, hk =>
      cases hk
      exact ⟨_, rfl, by decide⟩
    | 1, hk =>
      cases hk
      exact ⟨_, rfl, by decide⟩
  turns := by
    intro x y z hsub _ htid
    have hown : ∀ x ∈ sampleTrace, x.2.tid = x.1 := by decide
    have hx := hown x (hsub.subset (by simp))
    have hy := hown y (hsub.subset (by simp))
    omega

theorem parser_undoes_printer_sample : ∃ texts s,
    sampleTrace.mapM (fun x => x.2.print) = some texts ∧
      TraceParser.parse texts none none = .ok s ∧ s.hbgBuilder.nodes.length = 3 := by
  obtain ⟨texts, s, htexts, hparse, hnodes, -⟩ := parser_undoes_printer sampleTrace_isTrace
  exact ⟨texts, s, htexts, hparse, by rw [hnodes]; rfl⟩

end Parser

end Prd.Runtime
