import Prd.Pycprd.RunReports
import Prd.Runtime.Cprd

/-!
# Tracing flushes and fences

The runtime keeps the lines that a thread flushed and prints a FLUSH event for each
at the next fence. The detector takes everything before that event as persisted, so
it also counts a store between the flush and the fence.
-/
namespace Prd.Runtime

open Prd.Foundation Prd.Pycprd

/-- What the thread executes. -/
inductive Op
  | access (a : Access)
  | flush (pc addr : ℕ) (addr_lt : addr < 2 ^ 64)
  | fence (pc : ℕ)

namespace ThreadState

variable (regions : List PMRegion)

def traceOp (thr : ThreadState) : Op → List Event × ThreadState
  | .access a => thr.instrumentMemoryAccess regions a
  | .flush _ addr _ => ([], thr.instrumentFlush addr)
  | .fence pc => thr.instrumentFence pc

/-- The state after a run. -/
def after (thr : ThreadState) (ops : List Op) : ThreadState :=
  ops.foldl (fun thr op => (thr.traceOp regions op).2) thr

/-- The events of a run. -/
def trace : ThreadState → List Op → List Event
  | _, [] => []
  | thr, op :: ops => (thr.traceOp regions op).1 ++ trace (thr.traceOp regions op).2 ops

end ThreadState

def Access.nodeType (a : Access) : NodeType := if a.isWrite then .write else .read

theorem Access.isReadWriteType_nodeType (a : Access) : a.nodeType.isReadWriteType = true := by
  unfold nodeType
  split_ifs
  · rfl
  · rfl

theorem Access.nodeType_ne_flush (a : Access) : a.nodeType ≠ .flush := by
  unfold nodeType
  split_ifs
  · exact NodeType.noConfusion
  · exact NodeType.noConfusion

theorem Access.isInstructionType_nodeType (a : Access) : a.nodeType.isInstructionType = true := by
  unfold nodeType
  split_ifs
  · rfl
  · rfl

/-- The node that the parser adds for an event of the thread. -/
def addEvent (tid : ThreadId) (b : HBGBuilder) : Event → Py HBGBuilder
  | .access eventId a => do
    let r ← b.addInstructionNode a.nodeType tid a.pc a.addr
      (2 ^ a.accessSizeLog) .none none a.isAtomic a.isNonTemporal (some eventId)
    pure r.2
  | .flush pc addr => do
    let r ← b.addInstructionNode .flush tid pc addr kCacheLineSize .none none false false none
    pure r.2

/-- Is the store at position `j` considered persisted at position `p`? The detector has then
processed the events that were printed before `p`. -/
def isConsideredPersisted (it : IntervalTreeApi) (tid : ThreadId) (regions : List PMRegion)
    (ops : List Op) (p j : ℕ) : Py Bool := do
  let b ← (ThreadState.new.trace regions ops).foldlM (addEvent tid) .new
  let hbg ← b.build it [] .default
  let vcs ← buildHappensAfterVectorClocks hbg .default b.nodes.reverse
  let done := b.nodes.take (ThreadState.new.trace regions (ops.take p)).length
  let s ← persistedBeforeAnalysisFast hbg ⟨.empty, Digraph.isDirectedAcyclicGraph_empty⟩ .default
    vcs done
  match b.nodes[(ThreadState.new.trace regions (ops.take j)).length]? with
  | some (.instruction n) => do
    let loc ← hbg.getNodeLocation (.instruction n)
    let pvc := s.found.pvc tid n.getCachelineAddress
    pure (pvc.isEventPersisted loc.tid (Epoch.ofInt loc.tindex)).1
  | _ => throw .indexError

/-- The operation flushes the line. -/
def Op.Flushes (line : Cacheline) : Op → Prop
  | .flush _ addr _ => roundDown addr kCacheLineSize = line
  | _ => False

def Op.IsFence : Op → Prop
  | .fence _ => True
  | _ => False

namespace ThreadState

variable (regions : List PMRegion) (thr : ThreadState) (ops : List Op)

theorem after_append_singleton (op : Op) :
    thr.after regions (ops ++ [op]) = ((thr.after regions ops).traceOp regions op).2 := by
  simp [after]

theorem trace_append (ops' : List Op) : thr.trace regions (ops ++ ops') =
    thr.trace regions ops ++ (thr.after regions ops).trace regions ops' := by
  induction ops generalizing thr with
  | nil => rfl
  | cons op ops ih =>
    rw [List.cons_append, trace, ih, trace, List.append_assoc]
    rfl

theorem trace_append_singleton (op : Op) : thr.trace regions (ops ++ [op]) =
    thr.trace regions ops ++ ((thr.after regions ops).traceOp regions op).1 := by
  rw [trace_append]
  simp [trace]

end ThreadState

/-- The operation at the position has the property. -/
def OpAt (ops : List Op) (i : ℕ) (P : Op → Prop) : Prop := ∃ op, ops[i]? = some op ∧ P op

theorem OpAt.lt {ops : List Op} {i : ℕ} {P : Op → Prop} (h : OpAt ops i P) : i < ops.length := by
  obtain ⟨op, hi, -⟩ := h
  exact (List.getElem?_eq_some_iff.mp hi).1

theorem opAt_append (ops : List Op) (op : Op) (i : ℕ) (P : Op → Prop) :
    OpAt (ops ++ [op]) i P ↔ OpAt ops i P ∨ i = ops.length ∧ P op := by
  unfold OpAt
  rcases lt_trichotomy i ops.length with hlt | rfl | hgt
  · rw [List.getElem?_append_left hlt]
    refine (or_iff_left ?_).symm
    rintro ⟨rfl, -⟩
    exact lt_irrefl _ hlt
  · simp
  · have hnone : (ops ++ [op])[i]? = none := by
      rw [List.getElem?_eq_none_iff, List.length_append, List.length_singleton]
      exact hgt
    have hnone' : ops[i]? = none := List.getElem?_eq_none_iff.mpr hgt.le
    simp [hnone, hnone', hgt.ne']

/-- A flush of the line waits for the next fence. -/
def Pending (ops : List Op) (line : Cacheline) : Prop :=
  ∃ i, OpAt ops i (Op.Flushes line) ∧ ∀ m, i < m → ¬ OpAt ops m Op.IsFence

theorem pending_append (ops : List Op) (op : Op) (line : Cacheline) :
    Pending (ops ++ [op]) line ↔ op.Flushes line ∨ ¬ op.IsFence ∧ Pending ops line := by
  unfold Pending
  simp only [opAt_append, not_or, not_and]
  constructor
  · rintro ⟨i, hi | ⟨-, hfl⟩, hno⟩
    · exact Or.inr ⟨(hno ops.length hi.lt).2 rfl, i, hi, fun m him => (hno m him).1⟩
    · exact Or.inl hfl
  · rintro (hfl | ⟨hnf, i, hi, hno⟩)
    · refine ⟨ops.length, Or.inr ⟨rfl, hfl⟩, fun m him => ⟨fun hm => ?_, fun hm => ?_⟩⟩
      · exact absurd hm.lt him.le.not_gt
      · exact absurd hm him.ne'
    · exact ⟨i, Or.inl hi, fun m him => ⟨hno m him, fun _ => hnf⟩⟩

/-- The buffer holds the lines with a pending flush. -/
theorem mem_flushesCache (regions : List PMRegion) (ops : List Op) (line : Cacheline) :
    line ∈ (ThreadState.new.after regions ops).flushesCache ↔ Pending ops line := by
  induction ops using List.reverseRecOn with
  | nil =>
    constructor
    · intro h
      cases h
    · rintro ⟨i, hi, -⟩
      exact absurd hi.lt (Nat.not_lt_zero i)
  | append_singleton ops op ih =>
    rw [ThreadState.after_append_singleton, pending_append, ← ih]
    cases op with
    | access a =>
      have hkeep : ∀ thr : ThreadState,
          (thr.instrumentMemoryAccess regions a).2.flushesCache = thr.flushesCache := by
        intro thr
        unfold ThreadState.instrumentMemoryAccess
        split_ifs
        · rfl
        · rfl
      simp [ThreadState.traceOp, hkeep, Op.Flushes, Op.IsFence]
    | flush pc addr _ =>
      simp [ThreadState.traceOp, ThreadState.instrumentFlush, Op.Flushes, Op.IsFence, or_comm,
        eq_comm]
    | fence pc => simp [ThreadState.traceOp, ThreadState.instrumentFence, Op.Flushes, Op.IsFence]

section Printed

variable {regions : List PMRegion} {thr : ThreadState} {ops : List Op} {e : Event}

/-- An event is printed by one of the operations. -/
theorem mem_trace : e ∈ thr.trace regions ops ↔
    ∃ k op, ops[k]? = some op ∧ e ∈ ((thr.after regions (ops.take k)).traceOp regions op).1 := by
  induction ops generalizing thr with
  | nil => simp [ThreadState.trace]
  | cons op ops ih =>
    rw [ThreadState.trace, List.mem_append, ih]
    constructor
    · rintro (he | ⟨k, op', hk, he⟩)
      · exact ⟨0, op, rfl, he⟩
      · exact ⟨k + 1, op', hk, he⟩
    · rintro ⟨k, op', hk, he⟩
      cases k with
      | zero =>
        obtain rfl : op = op' := Option.some.inj hk
        exact Or.inl he
      | succ k => exact Or.inr ⟨k, op', hk, he⟩

theorem flush_mem_traceOp {op : Op} {pc addr : ℕ} :
    .flush pc addr ∈ (thr.traceOp regions op).1 ↔ op = .fence pc ∧ addr ∈ thr.flushesCache := by
  cases op with
  | access a =>
    show _ ∈ (thr.instrumentMemoryAccess regions a).1 ↔ _
    unfold ThreadState.instrumentMemoryAccess
    split_ifs
    · simp
    · simp
  | flush _ _ _ => simp [ThreadState.traceOp]
  | fence pc' =>
    simp only [ThreadState.traceOp, ThreadState.instrumentFence, List.mem_map, Event.flush.injEq,
      Op.fence.injEq]
    constructor
    · rintro ⟨a, ha, rfl, rfl⟩
      exact ⟨rfl, ha⟩
    · rintro ⟨rfl, ha⟩
      exact ⟨addr, ha, rfl, rfl⟩

/-- A FLUSH of the line is printed between a store and a later position exactly when there is a
fence between them at which a flush of the line waits. -/
theorem flush_printed_between {j p : ℕ} (hjp : j < p) {a : Access} (hj : ops[j]? = some (.access a))
    (hpm : isPmAddress regions a.addr = true) (line : Cacheline) :
    (∃ i pc, (ThreadState.new.trace regions (ops.take j)).length < i ∧
      (ThreadState.new.trace regions (ops.take p))[i]? = some (.flush pc line)) ↔
    ∃ k, j < k ∧ k < p ∧ OpAt ops k Op.IsFence ∧ Pending (ops.take k) line := by
  have htake : ops.take p = ops.take (j + 1) ++ (ops.take p).drop (j + 1) := by
    conv_lhs => rw [← List.take_append_drop (j + 1) (ops.take p), List.take_take, min_eq_left hjp]
  have hlast : ops.take (j + 1) = ops.take j ++ [.access a] := by
    rw [List.take_add_one, hj]
    rfl
  have hlen : (ThreadState.new.trace regions (ops.take (j + 1))).length =
      (ThreadState.new.trace regions (ops.take j)).length + 1 := by
    rw [hlast, ThreadState.trace_append_singleton]
    simp [ThreadState.traceOp, ThreadState.instrumentMemoryAccess, hpm]
  have hafter : ∀ k, (ThreadState.new.after regions (ops.take (j + 1))).after regions
      (((ops.take p).drop (j + 1)).take k) =
        ThreadState.new.after regions ((ops.take p).take (j + 1 + k)) := by
    intro k
    have hadd : (ops.take p).take (j + 1 + k) =
        ops.take (j + 1) ++ ((ops.take p).drop (j + 1)).take k := by
      have hpre : (ops.take p).take (j + 1) = ops.take (j + 1) := by
        rw [List.take_take, min_eq_left hjp]
      rw [List.take_add, hpre]
    unfold ThreadState.after
    rw [← List.foldl_append, hadd]
  have hmem : (∃ i pc, (ThreadState.new.trace regions (ops.take j)).length < i ∧
      (ThreadState.new.trace regions (ops.take p))[i]? = some (.flush pc line)) ↔
      ∃ pc, .flush pc line ∈
        (ThreadState.new.after regions (ops.take (j + 1))).trace regions
        ((ops.take p).drop (j + 1)) := by
    rw [htake, ThreadState.trace_append]
    simp only [List.mem_iff_getElem?, ← htake]
    constructor
    · rintro ⟨i, pc, hi, he⟩
      rw [List.getElem?_append_right (by omega)] at he
      exact ⟨pc, _, he⟩
    · rintro ⟨pc, i, he⟩
      refine ⟨(ThreadState.new.trace regions (ops.take (j + 1))).length + i, pc, by omega, ?_⟩
      rw [List.getElem?_append_right (by omega), Nat.add_sub_cancel_left]
      exact he
  rw [hmem]
  simp only [mem_trace, flush_mem_traceOp, hafter, mem_flushesCache]
  constructor
  · rintro ⟨pc, k, op, hk, rfl, hp⟩
    rw [List.getElem?_drop] at hk
    have hkp : j + 1 + k < p := by
      have hlt := (List.getElem?_eq_some_iff.mp hk).1
      rw [List.length_take] at hlt
      omega
    rw [List.getElem?_take_of_lt hkp] at hk
    rw [List.take_take, min_eq_left hkp.le] at hp
    exact ⟨j + 1 + k, by omega, hkp, ⟨_, hk, trivial⟩, hp⟩
  · rintro ⟨k, hjk, hkp, ⟨op, hk, hop⟩, hp⟩
    cases op with
    | access _ => exact absurd hop id
    | flush _ _ _ => exact absurd hop id
    | fence pc =>
      have hsplit : j + 1 + (k - (j + 1)) = k := by omega
      refine ⟨pc, k - (j + 1), .fence pc, ?_, rfl, ?_⟩
      · rw [List.getElem?_drop, hsplit, List.getElem?_take_of_lt hkp, hk]
      · rwa [hsplit, List.take_take, min_eq_left hkp.le]

end Printed

section OneThread

variable {hbg : HBG} {pdg : PDG} {flags : Flags} {t : ThreadId}

/-- Without messages there is no path out of a thread. -/
theorem le_of_reach (h : hbg.WellFormed) {i : Bool}
    (hno : ∀ u v, (u, v, .interThread) ∉ hbg.graph.edges) {a b : Node} (ha : a ∈ hbg.nodes)
    (hr : Relation.ReflTransGen (h.dag i).Step a b) : (h.dag i).Le a b := by
  induction hr with
  | refl => exact .refl ha
  | tail _ hs ih =>
    rcases hs with hlt | hc
    · exact ih.trans hlt.le
    · cases i with
      | true => cases hc
      | false => exact absurd (HBG.WellFormed.mem_interChildren.mp hc) (hno _ _)

/-- After a prefix of the nodes of one thread, an access is persisted when a flush of its line
follows it in the prefix. -/
theorem upTo_persisted_iff_flush (h : hbg.WellFormed)
    (hno : ∀ u v, (u, v, .interThread) ∉ hbg.graph.edges) (ht : ∀ n ∈ hbg.nodes, n.tid = t)
    {seen : List Node} (hseen : ∀ x ∈ seen, x ∈ hbg.nodes)
    (hfirst : ∀ x ∈ seen, ∀ y, (h.dag flags.ignoreInterThreadEdges).Le y x → y ∈ seen)
    {found : Findings} (hc : Clocks hbg flags (FastKnows h flags) seen found)
    {line : Cacheline} {w : InstructionNode} (hw : Node.instruction w ∈ hbg.nodes)
    (hi : w.itype.isReadWriteType = true) (hl : w.getCachelineAddress = line) :
    hbg.UpTo (found.pvc t line).persisted w ↔
      ∃ f ∈ seen, f.On flags.isFlush line ∧ hbg.index (.instruction w) ≤ hbg.index f := by
  have hk := fastKnows_spreads h flags
  have hon : (Node.instruction w).On NodeType.isReadWriteType line := ⟨hi, hl⟩
  have hle : ∀ {y x}, FastKnows h flags line y x → (h.dag flags.ignoreInterThreadEdges).Le y x :=
    fun hy => le_of_reach h hno (hk.point hy).1 (hk.reach hy)
  rw [upTo_iff_of_summarizes (hc.shows t line).persisted]
  · constructor
    · rintro ⟨-, f, hf, hwf, x, hx, -, hfx⟩
      exact ⟨f, hfirst x hx f (hle hfx), hf, (hle hwf).2.2.2⟩
    · rintro ⟨f, hfs, hf, hidx⟩
      have hfn := hseen f hfs
      have hwf : (h.dag flags.ignoreInterThreadEdges).Le (.instruction w) f :=
        ⟨hw, hfn, (ht _ hw).trans (ht f hfn).symm, hidx⟩
      exact ⟨hon, f, hf, hk.later (hk.self hw hon.access_news) hwf, f, hfs, ht f hfn,
        hk.self hfn hf.flush_news⟩
  · rintro y ⟨-, f, hf, hyf, hfs⟩ hyt hidx
    exact ⟨hon, f, hf, hk.of_le hw hon hyf hyt hidx, hfs⟩

end OneThread

section Nodes

/-- An event of a run has its address in the address space, and a flush at the start of a line. -/
def Event.Placed : Event → Prop
  | .access _ _ => True
  | .flush _ addr => addr < 2 ^ 64 ∧ addr % 64 = 0

theorem placed_of_mem_trace {regions : List PMRegion} {ops : List Op} {e : Event}
    (he : e ∈ ThreadState.new.trace regions ops) : e.Placed := by
  cases e with
  | access _ a => trivial
  | flush pc line =>
    obtain ⟨k, op, -, he⟩ := mem_trace.mp he
    obtain ⟨-, hline⟩ := flush_mem_traceOp.mp he
    obtain ⟨i, ⟨op', -, hfl⟩, -⟩ := (mem_flushesCache _ _ _).mp hline
    cases op' with
    | access _ => exact absurd hfl id
    | fence _ => exact absurd hfl id
    | flush _ addr hlt =>
      have hfl : roundDown addr kCacheLineSize = line := hfl
      rw [roundDown_eq hlt] at hfl
      exact ⟨by omega, by omega⟩

/-- The node of an event. -/
def Event.node (tid : ThreadId) (ident : ℕ) : Event → InstructionNode
  | .access eventId a => ⟨ident, a.nodeType, tid, a.pc, a.addr, 2 ^ a.accessSizeLog, a.isAtomic,
      a.isNonTemporal, .none, none, some eventId, a.isInstructionType_nodeType,
      (Nat.two_pow_pos _).ne'⟩
  | .flush pc addr =>
    ⟨ident, .flush, tid, pc, addr, kCacheLineSize, false, false, .none, none, none,
      NodeType.isInstructionType_flush, kCacheLineSize_ne_zero⟩

@[simp] theorem Event.ident_node (tid : ThreadId) (ident : ℕ) (e : Event) :
    (e.node tid ident).ident = ident := by
  cases e <;> rfl

@[simp] theorem Event.tid_node (tid : ThreadId) (ident : ℕ) (e : Event) :
    (e.node tid ident).tid = tid := by
  cases e <;> rfl

theorem addEvent_eq (tid : ThreadId) (b : HBGBuilder) (e : Event) :
    addEvent tid b e = .ok
      { b with
        nodes := b.nodes ++ [.instruction (e.node tid b.nextIdent)]
        nextIdent := b.nextIdent + 1 } := by
  cases e with
  | access eventId a =>
    have hsize : 2 ^ a.accessSizeLog ≠ 0 := (Nat.two_pow_pos _).ne'
    simp only [addEvent, HBGBuilder.addInstructionNode, createInstructionNode, dif_pos hsize,
      dif_pos a.isInstructionType_nodeType]
    rfl
  | flush pc addr => rfl

def eventNodes (tid : ThreadId) (k : ℕ) (es : List Event) : List Node :=
  es.mapIdx fun i e => .instruction (e.node tid (k + i))

theorem addEvents_spec (tid : ThreadId) (b : HBGBuilder) (es : List Event) :
    ∃ b', es.foldlM (addEvent tid) b = .ok b' ∧ b'.edges = b.edges ∧
      b'.nodes = b.nodes ++ eventNodes tid b.nextIdent es := by
  induction es generalizing b with
  | nil => exact ⟨b, rfl, rfl, (List.append_nil _).symm⟩
  | cons e es ih =>
    rw [List.foldlM_cons, addEvent_eq, ok_bind]
    obtain ⟨b', hb', hedges, hnodes⟩ := ih _
    refine ⟨b', hb', hedges, ?_⟩
    rw [hnodes]
    unfold eventNodes
    rw [List.mapIdx_cons, List.append_assoc]
    simp [Nat.add_assoc, Nat.add_comm 1]

theorem getElem?_eventNodes (tid : ThreadId) (k i : ℕ) (es : List Event) :
    (eventNodes tid k es)[i]? = es[i]?.map fun e => .instruction (e.node tid (k + i)) := by
  unfold eventNodes
  rw [List.getElem?_mapIdx]

theorem mem_eventNodes {tid : ThreadId} {k : ℕ} {es : List Event} {n : Node}
    (hn : n ∈ eventNodes tid k es) :
    ∃ (i : ℕ) (e : Event), es[i]? = some e ∧ n = .instruction (e.node tid (k + i)) := by
  obtain ⟨i, hi⟩ := List.mem_iff_getElem?.mp hn
  rw [getElem?_eventNodes] at hi
  obtain ⟨e, he, rfl⟩ := Option.map_eq_some_iff.mp hi
  exact ⟨i, e, he, rfl⟩

theorem nodup_eventNodes (tid : ThreadId) (k : ℕ) (es : List Event) :
    (eventNodes tid k es).Nodup := by
  rw [List.nodup_iff_getElem?_ne_getElem?]
  intro i j hij hj he
  rw [getElem?_eventNodes, getElem?_eventNodes] at he
  unfold eventNodes at hj
  rw [List.length_mapIdx] at hj
  rw [List.getElem?_eq_getElem (hij.trans hj), List.getElem?_eq_getElem hj] at he
  simp only [Option.map_some, Option.some.injEq, Node.instruction.injEq] at he
  have hident := congrArg InstructionNode.ident he
  simp only [Event.ident_node] at hident
  omega

theorem tid_eventNodes {tid : ThreadId} {k : ℕ} {es : List Event} {n : Node}
    (hn : n ∈ eventNodes tid k es) : n.tid = tid := by
  obtain ⟨i, e, -, rfl⟩ := mem_eventNodes hn
  exact e.tid_node tid (k + i)

theorem flushSize_eventNodes (tid : ThreadId) (k : ℕ) (es : List Event) :
    (HBGBuilder.flushSize (eventNodes tid k es)).getD defaultCachelineSize = 64 := by
  cases hsize : HBGBuilder.flushSize (eventNodes tid k es) with
  | none => rfl
  | some size =>
    obtain ⟨n, hn, hs⟩ := List.exists_of_findSome?_eq_some hsize
    obtain ⟨i, e, -, rfl⟩ := mem_eventNodes hn
    cases e with
    | access _ a =>
      have hnone := hs.symm.trans (if_neg a.nodeType_ne_flush)
      cases hnone
    | flush _ _ =>
      simp only [Event.node, if_true, Option.some.injEq] at hs
      rw [Option.getD_some, ← hs]
      rfl

theorem Event.node_inOneLine {e : Event} (he : e.Placed) (tid : ThreadId) (ident : ℕ) :
    (e.node tid ident).InOneLine := by
  cases e with
  | access eventId a =>
    have hcell := a.cell
    have hmod : a.addr % 8 = a.addr % 64 % 8 := (Nat.mod_mod_of_dvd a.addr (by decide)).symm
    refine ⟨a.addr_lt, ?_⟩
    show a.addr % 64 + 2 ^ a.accessSizeLog ≤ 64
    omega
  | flush pc addr =>
    refine ⟨he.1, ?_⟩
    show addr % 64 + 64 ≤ 64
    rw [he.2]

/-- The node of an event is a flush of the line when the event is. -/
theorem Event.node_on_flush {e : Event} (he : e.Placed) {tid : ThreadId} {ident : ℕ}
    {line : Cacheline} : (Node.instruction (e.node tid ident)).On Flags.default.isFlush line ↔
      ∃ pc, e = .flush pc line := by
  cases e with
  | access eventId a =>
    constructor
    · intro hf
      have hon : (Node.instruction (Event.node tid ident (.access eventId a))).On
          NodeType.isReadWriteType (getCachelineAddress a.addr defaultCachelineSize) :=
        ⟨a.isReadWriteType_nodeType, rfl⟩
      exact absurd hf hon.not_flush
    · rintro ⟨_, he⟩
      cases he
  | flush pc addr =>
    have haddr : getCachelineAddress addr defaultCachelineSize = addr := by
      obtain ⟨hlt, hmod⟩ : addr < 2 ^ 64 ∧ addr % 64 = 0 := he
      rw [getCachelineAddress_eq]
      show 64 * (addr / 64 % 2 ^ 64) = addr
      omega
    constructor
    · rintro ⟨-, hl⟩
      exact ⟨pc, congrArg _ (haddr.symm.trans hl)⟩
    · rintro ⟨_, he⟩
      cases he
      exact ⟨rfl, haddr⟩

theorem fitsLines_eventNodes {tid : ThreadId} {k : ℕ} {es : List Event} (hes : ∀ e ∈ es, e.Placed) :
    HBGBuilder.FitsLines (eventNodes tid k es) := by
  intro n hn _
  rw [flushSize_eventNodes]
  obtain ⟨i, e, hi, he⟩ := mem_eventNodes hn
  obtain rfl : n = e.node tid (k + i) := Node.instruction.inj he
  obtain ⟨hlt, hfit⟩ := e.node_inOneLine (hes e (List.mem_of_getElem? hi)) tid (k + i)
  show (e.node tid (k + i)).address + (e.node tid (k + i)).size ≤
    getCachelineAddress (e.node tid (k + i)).address defaultCachelineSize + 64
  rw [getCachelineAddress_eq]
  omega

/-- The graph of the events of one thread. -/
theorem build_events (it : IntervalTreeApi) (tid : ThreadId) {es : List Event}
    (hes : ∀ e ∈ es, e.Placed) :
    ∃ b hbg, es.foldlM (addEvent tid) .new = .ok b ∧ b.build it [] .default = .ok hbg ∧
      b.nodes = hbg.nodes ∧ hbg.nodes = eventNodes tid 0 es ∧ Input hbg ⟨.empty, rfl⟩ ∧
      ∀ u v, (u, v, .interThread) ∉ hbg.graph.edges := by
  obtain ⟨b, hb, hedges, hnodes⟩ := addEvents_spec tid .new es
  have hnodes : b.nodes = eventNodes tid 0 es := hnodes
  obtain ⟨hbg, hbuild, hn⟩ := HBGBuilder.build_ok_of_no_edges it (o := .default) rfl
    (hnodes ▸ nodup_eventNodes tid 0 es) (hnodes ▸ fitsLines_eventNodes hes)
  have hends : b.EndpointsAdded := by
    intro e he
    rw [hedges] at he
    cases he
  refine ⟨b, hbg, hb, hbuild, hn.symm, hn.trans hnodes, ⟨?_, ?_, ?_, ?_⟩, ?_⟩
  · exact HBGBuilder.build_wellFormed hbuild (fun e => by rw [hedges]; exact Iff.rfl) hends rfl
  · exact HBGBuilder.build_daisyChains hbuild rfl
  · intro n hmem
    rw [hn, hnodes] at hmem
    obtain ⟨i, e, hi, he⟩ := mem_eventNodes hmem
    rw [Node.instruction.inj he]
    exact e.node_inOneLine (hes e (List.mem_of_getElem? hi)) tid _
  · intro d r hdep
    obtain ⟨l, hl⟩ := PDG.mem_getDependencies.mp hdep
    cases hl
  · intro u v he
    rcases (HBGBuilder.build_edges hbuild u v _).mp he with ⟨-, e, hmem, -⟩ | ⟨hk, -⟩
    · cases hmem
    · cases hk

/-- The index of a node of one thread is its position in the trace. -/
theorem index_eventNodes {hbg : HBG} {tid : ThreadId} {es : List Event}
    (hn : hbg.nodes = eventNodes tid 0 es) {i : ℕ} {n : Node}
    (hi : (eventNodes tid 0 es)[i]? = some n) : hbg.index n = i := by
  have hthread : threadOf n.tid hbg.nodes = eventNodes tid 0 es := by
    rw [hn, tid_eventNodes (List.mem_of_getElem? hi)]
    exact List.filter_eq_self.mpr (fun m hm => decide_eq_true (tid_eventNodes hm))
  obtain ⟨hlt, rfl⟩ := List.getElem?_eq_some_iff.mp hi
  unfold HBG.index
  rw [hthread]
  exact (nodup_eventNodes tid 0 es).idxOf_getElem i hlt

end Nodes

section Persisted

variable {it : IntervalTreeApi} {tid : ThreadId} {regions : List PMRegion} {ops : List Op}
  {p j : ℕ} {a : Access}

theorem getElem?_trace_access (hj : ops[j]? = some (.access a))
    (hpm : isPmAddress regions a.addr = true) :
    (ThreadState.new.trace regions ops)[(ThreadState.new.trace regions (ops.take j)).length]? =
      some (.access (ThreadState.new.after regions (ops.take j)).eventCounter a) := by
  obtain ⟨hlt, hget⟩ := List.getElem?_eq_some_iff.mp hj
  have hsplit : ops = ops.take j ++ .access a :: ops.drop (j + 1) := by
    rw [← hget, ← List.drop_eq_getElem_cons hlt, List.take_append_drop]
  have htrace := congrArg (ThreadState.new.trace regions) hsplit
  rw [ThreadState.trace_append] at htrace
  rw [htrace, List.getElem?_append_right le_rfl, Nat.sub_self]
  simp [ThreadState.trace, ThreadState.traceOp, ThreadState.instrumentMemoryAccess, hpm]

/-- The trace up to a position is a prefix of the trace. -/
theorem take_trace (regions : List PMRegion) (ops : List Op) (p : ℕ) :
    (ThreadState.new.trace regions ops).take (ThreadState.new.trace regions (ops.take p)).length =
      ThreadState.new.trace regions (ops.take p) := by
  have hsplit := ThreadState.trace_append regions .new (ops.take p) (ops.drop p)
  rw [List.take_append_drop] at hsplit
  rw [hsplit, List.take_left']
  rfl

/-- After the first nodes of a trace, a store is persisted when a FLUSH of its line is among them
and comes after it. -/
theorem upTo_persisted_iff_printed {hbg : HBG} {es : List Event} (h : hbg.WellFormed)
    (hno : ∀ u v, (u, v, .interThread) ∉ hbg.graph.edges) (hn : hbg.nodes = eventNodes tid 0 es)
    (hes : ∀ e ∈ es, e.Placed) {m : ℕ} {found : Findings}
    (hc : Clocks hbg .default (FastKnows h .default) (hbg.nodes.take m) found)
    {w : InstructionNode} {q : ℕ} (hw : hbg.nodes[q]? = some (.instruction w))
    (hi : w.itype.isReadWriteType = true) :
    hbg.UpTo (found.pvc tid w.getCachelineAddress).persisted w ↔
      ∃ i pc, q < i ∧ (es.take m)[i]? = some (.flush pc w.getCachelineAddress) := by
  have hidx : ∀ {i : ℕ} {x : Node}, hbg.nodes[i]? = some x → hbg.index x = i :=
    fun hx => index_eventNodes hn (hn ▸ hx)
  have hmem : ∀ {x : Node}, x ∈ hbg.nodes → hbg.nodes[hbg.index x]? = some x := by
    intro x hx
    obtain ⟨i, hi⟩ := List.mem_iff_getElem?.mp hx
    rw [hidx hi, hi]
  have htake : ∀ {x : Node}, x ∈ hbg.nodes.take m ↔ x ∈ hbg.nodes ∧ hbg.index x < m := by
    intro x
    constructor
    · intro hx
      obtain ⟨i, hi⟩ := List.mem_iff_getElem?.mp hx
      rw [List.getElem?_take] at hi
      split_ifs at hi with him
      exact ⟨List.mem_of_getElem? hi, hidx hi ▸ him⟩
    · rintro ⟨hx, hlt⟩
      refine List.mem_of_getElem? (i := hbg.index x) ?_
      rw [List.getElem?_take, if_pos hlt, hmem hx]
  have hpers := upTo_persisted_iff_flush h hno
    (fun n hx => tid_eventNodes (hn ▸ hx)) (fun x hx => (htake.mp hx).1)
    (fun x hx y hle => htake.mpr ⟨hle.1, lt_of_le_of_lt hle.2.2.2 (htake.mp hx).2⟩) hc
    (List.mem_of_getElem? hw) hi rfl
  rw [hpers, hidx hw]
  constructor
  · rintro ⟨f, hf, hon, hle⟩
    obtain ⟨hfn, hlt⟩ := htake.mp hf
    have hget := hmem hfn
    rw [hn, getElem?_eventNodes] at hget
    obtain ⟨e, he, hfe⟩ := Option.map_eq_some_iff.mp hget
    rw [← hfe] at hon
    obtain ⟨pc, rfl⟩ := (Event.node_on_flush (hes e (List.mem_of_getElem? he))).mp hon
    refine ⟨hbg.index f, pc, lt_of_le_of_ne hle ?_, ?_⟩
    · intro hq
      have hfw : f = .instruction w := Option.some.inj ((hmem hfn).symm.trans (hq ▸ hw))
      rw [hfe, hfw] at hon
      exact (show (Node.instruction w).On NodeType.isReadWriteType _ from ⟨hi, rfl⟩).not_flush hon
    · rw [List.getElem?_take, if_pos hlt, he]
  · rintro ⟨i, pc, hqi, hfl⟩
    rw [List.getElem?_take] at hfl
    split_ifs at hfl with him
    have hget : hbg.nodes[i]? =
        some (.instruction (Event.node tid (0 + i) (.flush pc w.getCachelineAddress))) := by
      rw [hn, getElem?_eventNodes, hfl]
      rfl
    refine ⟨_, htake.mpr ⟨List.mem_of_getElem? hget, (hidx hget).symm ▸ him⟩, ?_, ?_⟩
    · exact (Event.node_on_flush (hes _ (List.mem_of_getElem? hfl))).mpr ⟨pc, rfl⟩
    · rw [hidx hget]
      exact hqi.le

/-- The detector takes a store as persisted when a FLUSH of its line is printed after it. -/
theorem isConsideredPersisted_spec (it : IntervalTreeApi) (tid : ThreadId) (p : ℕ)
    (hj : ops[j]? = some (.access a))
    (hpm : isPmAddress regions a.addr = true) :
    ∃ b, isConsideredPersisted it tid regions ops p j = .ok b ∧ (b = true ↔
      ∃ i pc, (ThreadState.new.trace regions (ops.take j)).length < i ∧
        (ThreadState.new.trace regions (ops.take p))[i]? =
          some (.flush pc (getCachelineAddress a.addr defaultCachelineSize))) := by
  obtain ⟨b, hbg, hb, hbuild, hbn, hn, hin, hno⟩ :=
    build_events it tid (fun e he => placed_of_mem_trace he)
  have hrev : hbg.graph.IsTopological hbg.nodes.reverse.reverse := by
    rw [List.reverse_reverse]
    exact hin.wf.isTopological_nodes hno
  obtain ⟨vcs, hvcs, hsum⟩ := buildHappensAfterVectorClocks_spec hin.wf .default hrev
  obtain ⟨st, hst, hI⟩ := persistedBeforeAnalysisFast_spec hin.wf hin hsum
    (hin.wf.isTopological_nodes hno)
    (List.take_append_drop (ThreadState.new.trace regions (ops.take p)).length hbg.nodes).symm
  have hw : hbg.nodes[(ThreadState.new.trace regions (ops.take j)).length]? = some (.instruction
      (Event.node tid (ThreadState.new.trace regions (ops.take j)).length
        (.access (ThreadState.new.after regions (ops.take j)).eventCounter a))) := by
    rw [hn, getElem?_eventNodes, getElem?_trace_access hj hpm, Nat.zero_add]
    rfl
  generalize hwn : Event.node tid (ThreadState.new.trace regions (ops.take j)).length
    (.access (ThreadState.new.after regions (ops.take j)).eventCounter a) = w at hw
  have hwmem := List.mem_of_getElem? hw
  have hwtid : w.tid = tid := by rw [← hwn]; exact Event.tid_node _ _ _
  have hwi : w.itype.isReadWriteType = true := by
    rw [← hwn]
    exact a.isReadWriteType_nodeType
  have hwl : w.getCachelineAddress = getCachelineAddress a.addr defaultCachelineSize := by
    rw [← hwn]; rfl
  have hwx : hbg.index (.instruction w) = (ThreadState.new.trace regions (ops.take j)).length :=
    index_eventNodes hn (hn ▸ hw)
  unfold isConsideredPersisted
  rw [hb]
  simp only [ok_bind, hbuild, hbn, hvcs, hst, hw, hin.wf.location _ hwmem, pure_eq_ok]
  refine ⟨_, rfl, ?_⟩
  have hplaced : ∀ e ∈ ThreadState.new.trace regions ops, e.Placed :=
    fun e he => placed_of_mem_trace he
  have hpers := upTo_persisted_iff_printed hin.wf hno hn hplaced hI.clocks hw hwi
  rw [take_trace, hwl] at hpers
  rw [← hpers, ← hwl]
  unfold HBG.UpTo HBG.stamp
  exact decide_eq_true_iff

/-- The line was flushed and then fenced between the two positions. -/
def FlushedAndFenced (ops : List Op) (line : Cacheline) (j p : ℕ) : Prop :=
  ∃ i k, j < i ∧ i < k ∧ k < p ∧ OpAt ops i (Op.Flushes line) ∧ OpAt ops k Op.IsFence

/-- A store to a line with a flush under way is followed by another flush before the fence. -/
def FlushesAgain (regions : List PMRegion) (ops : List Op) : Prop :=
  ∀ i j k a, i < j → j < k → ops[j]? = some (.access a) → a.isWrite = true →
    isPmAddress regions a.addr = true →
    OpAt ops i (Op.Flushes (getCachelineAddress a.addr defaultCachelineSize)) →
    OpAt ops k Op.IsFence → (∀ m, i < m → m < k → ¬ OpAt ops m Op.IsFence) →
    ∃ i', j < i' ∧ i' < k ∧ OpAt ops i'
    (Op.Flushes (getCachelineAddress a.addr defaultCachelineSize))

theorem opAt_take {P : Op → Prop} {k i : ℕ} : OpAt (ops.take k) i P ↔ i < k ∧ OpAt ops i P := by
  unfold OpAt
  rw [List.getElem?_take]
  split_ifs with hi
  · simp [hi]
  · simp [hi]

/-- A pending flush, seen from the whole run. -/
theorem pending_take {line : Cacheline} {k : ℕ} : Pending (ops.take k) line ↔
    ∃ i < k, OpAt ops i (Op.Flushes line) ∧ ∀ m, i < m → m < k → ¬ OpAt ops m Op.IsFence := by
  unfold Pending
  simp only [opAt_take, not_and]
  constructor
  · rintro ⟨i, ⟨hik, hi⟩, hno⟩
    exact ⟨i, hik, hi, fun m him hmk => hno m him hmk⟩
  · rintro ⟨i, hik, hi, hno⟩
    exact ⟨i, ⟨hik, hi⟩, fun m him hmk => hno m him hmk⟩

/-- At the first fence after a flush the flush is pending. -/
theorem pending_of_flushedAndFenced {line : Cacheline} (h : FlushedAndFenced ops line j p) :
    ∃ k, j < k ∧ k < p ∧ OpAt ops k Op.IsFence ∧ Pending (ops.take k) line := by
  classical
  obtain ⟨i, k, hji, hik, hkp, hi, hk⟩ := h
  have hex : ∃ k, i < k ∧ OpAt ops k Op.IsFence := ⟨k, hik, hk⟩
  have hle : Nat.find hex ≤ k := Nat.find_min' hex ⟨hik, hk⟩
  obtain ⟨hlt, hfence⟩ := Nat.find_spec hex
  refine ⟨Nat.find hex, by omega, by omega, hfence, pending_take.mpr ⟨i, hlt, hi, ?_⟩⟩
  exact fun m him hmk hm => Nat.find_min hex hmk ⟨him, hm⟩

/-- The detector takes exactly the stores as persisted that were flushed and fenced, in the runs
in which no store slips in between a flush of its line and the fence. -/
theorem isConsideredPersisted_iff (it : IntervalTreeApi) (tid : ThreadId)
    (regions : List PMRegion) (ops : List Op) :
    (∀ j p a, j < p → ops[j]? = some (.access a) → a.isWrite = true →
      isPmAddress regions a.addr = true →
      ∃ b, isConsideredPersisted it tid regions ops p j = .ok b ∧ (b = true ↔
        FlushedAndFenced ops (getCachelineAddress a.addr defaultCachelineSize) j p)) ↔
    FlushesAgain regions ops := by
  constructor
  · intro hall i j k a hij hjk hj hw hpm hi hk hno
    obtain ⟨b, hb, hiff⟩ := hall j (k + 1) a (by omega) hj hw hpm
    obtain ⟨b', hb', hiff'⟩ :=
      isConsideredPersisted_spec it tid (k + 1) hj hpm
    obtain rfl : b = b' := Except.ok.inj (hb.symm.trans hb')
    rw [flush_printed_between (by omega) hj hpm] at hiff'
    obtain ⟨i', k', hji', hik', hkp', hi', hk'⟩ := hiff.mp
      (hiff'.mpr ⟨k, hjk, by omega, hk, pending_take.mpr ⟨i, by omega, hi, hno⟩⟩)
    have hkk : ¬ k' < k := fun hlt => hno k' (by omega) hlt hk'
    exact ⟨i', hji', by omega, hi'⟩
  · intro hagain j p a hjp hj hw hpm
    obtain ⟨b, hb, hiff⟩ := isConsideredPersisted_spec it tid p hj hpm
    refine ⟨b, hb, hiff.trans ?_⟩
    rw [flush_printed_between hjp hj hpm]
    constructor
    · rintro ⟨k, hjk, hkp, hk, hpend⟩
      obtain ⟨i, hik, hi, hno⟩ := pending_take.mp hpend
      rcases lt_trichotomy i j with hij | rfl | hij
      · obtain ⟨i', hji', hik', hi'⟩ := hagain i j k a hij hjk hj hw hpm hi hk hno
        exact ⟨i', k, hji', hik', hkp, hi', hk⟩
      · obtain ⟨op, hop, hfl⟩ := hi
        rw [hj] at hop
        cases hop
        exact absurd hfl id
      · exact ⟨i, k, hij, hik, hkp, hi, hk⟩
    · exact pending_of_flushedAndFenced

/-- A flush of the first line, a store to it, and a fence. -/
def storeAfterFlush : List Op :=
  [.flush 0 0 (by decide), .access ⟨0, 0, 3, true, false, false, by decide, by decide⟩, .fence 0]

/-- The store between the flush of its line and the fence is taken as persisted. -/
theorem store_after_flush_considered :
    isConsideredPersisted noTrees 0 [⟨0, 64⟩] storeAfterFlush 3 1 = .ok true ∧
      ¬ FlushedAndFenced storeAfterFlush 0 1 3 := by
  refine ⟨rfl, ?_⟩
  rintro ⟨i, k, hji, hik, hkp, -⟩
  omega

end Persisted

end Prd.Runtime
