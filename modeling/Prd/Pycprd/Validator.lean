import Prd.Foundation.BreadthFirst
import Prd.Pycprd.RunReports

/-!
# The validator of reported races

The validator looks for a flush of the read that comes after the read or the write
and before the dependent write. Of every thread it keeps the first flush that a
backward breadth-first search meets. It is a nearest one by the number of edges, and
need not be the last one of the thread.
-/
namespace Prd.Pycprd

open Prd.Foundation Relation

/-- The nodes that `bfs_edges` of the graph package yields, with `reverse` or without. -/
abbrev BfsEdges := Digraph Node EdgeType → Node → Bool → List Node

/-- What the package promises on the nodes of a graph: a queue, and the neighbours of a node in the
order of its adjacency, in which their edges were added. -/
def BfsEdges.Documented (bfs : BfsEdges) (g : Digraph Node EdgeType) : Prop :=
  ∀ v ∈ g.nodes, g.IsBreadthFirst v (bfs g v false) ∧ g.reverse.IsBreadthFirst v (bfs g v true)

namespace HBG

def bfsSuccessors (bfs : BfsEdges) (hbg : HBG) (source : Node) : List Node :=
  bfs hbg.graph source false

def bfsPredecessors (bfs : BfsEdges) (hbg : HBG) (source : Node) : List Node :=
  bfs hbg.graph source true

end HBG

/-- A flush whose interval contains the read. -/
def flushOf (r : InstructionNode) : Node → Option InstructionNode
  | .epoch _ => none
  | .instruction n => if n.itype = .flush ∧ n.isIntervalContains r = true then some n else none

/-- The body of the loop over the backward search. -/
def keepFlush (r : InstructionNode) (known : Dict ThreadId InstructionNode) (n : Node) :
    Dict ThreadId InstructionNode :=
  if n.tid ∈ known then known
  else
    match flushOf r n with
    | some f => known.insert n.tid f
    | none => known

/-- Find last known FLUSH from each thread. -/
def lastKnownFlushes (r : InstructionNode) (predecessors : List Node) :
    Dict ThreadId InstructionNode :=
  predecessors.foldl (keepFlush r) ∅

/-- Find persisted-before group. -/
def persistedBefore (bfs : BfsEdges) (hbg : HBG) (flushes : Dict ThreadId InstructionNode) :
    List Node :=
  flushes.entries.flatMap fun e =>
    (hbg.bfsPredecessors bfs (.instruction e.2)).filter fun n => n.itype.isInstructionType

/-- The method `is_bug`. -/
def isBug (bfs : BfsEdges) (hbg : HBG) (race : PersistencyRace) : Py Bool := do
  pyAssert (race.readNode.itype == .read) ""
  pyAssert (race.writeNode.itype == .write) ""
  pyAssert (race.dependentNode.itype == .write) ""
  if !race.readNode.isIntervalOverlap race.writeNode then pure false
  else
    let happensAfterGroup :=
      (hbg.bfsSuccessors bfs (.instruction race.readNode)).filter fun n => n.itype.isInstructionType
    pyAssert (Node.instruction race.dependentNode ∈ happensAfterGroup)
      "W(Y) isn't happening after R(X)"
    if Node.instruction race.writeNode ∈ happensAfterGroup then pure false
    else
      let flushes :=
        lastKnownFlushes race.readNode (hbg.bfsPredecessors bfs (.instruction race.dependentNode))
      let persisted := persistedBefore bfs hbg flushes
      if Node.instruction race.readNode ∈ persisted then pure false
      else if Node.instruction race.writeNode ∈ persisted then pure false
      else pure true

theorem flushOf_eq_some {r f : InstructionNode} {n : Node} :
    flushOf r n = some f ↔
      n = .instruction f ∧ f.itype = .flush ∧ f.isIntervalContains r = true := by
  cases n with
  | epoch _ => simp [flushOf]
  | instruction n =>
    simp only [flushOf]
    split_ifs with h
    · rw [Option.some.injEq, Node.instruction.injEq]
      exact ⟨fun he => ⟨he, he ▸ h⟩, fun he => he.1⟩
    · rw [Node.instruction.injEq]
      exact ⟨fun he => (nomatch he), fun he => absurd (he.1 ▸ he.2) h⟩

theorem lookup_keepFlush (r : InstructionNode) (known : Dict ThreadId InstructionNode) (n : Node)
    (t : ThreadId) :
    (keepFlush r known n).lookup t =
      (known.lookup t).or (if n.tid = t then flushOf r n else none) := by
  unfold keepFlush
  by_cases hk : n.tid ∈ known
  · rw [if_pos hk]
    by_cases ht : n.tid = t
    · obtain ⟨f, hf⟩ := Option.isSome_iff_exists.mp (AList.lookup_isSome.mpr (ht ▸ hk))
      rw [hf, Option.some_or]
    · rw [if_neg ht, Option.or_none]
  · rw [if_neg hk]
    by_cases ht : n.tid = t
    · subst ht
      rw [if_pos rfl, AList.lookup_eq_none.mpr hk, Option.none_or]
      cases flushOf r n with
      | none => exact AList.lookup_eq_none.mpr hk
      | some f => exact AList.lookup_insert known
    · rw [if_neg ht, Option.or_none]
      cases flushOf r n with
      | none => rfl
      | some f => exact AList.lookup_insert_ne (Ne.symm ht)

/-- The flush that is kept for a thread is the first one that is met. -/
theorem lookup_lastKnownFlushes (r : InstructionNode) (l : List Node) (t : ThreadId) :
    (lastKnownFlushes r l).lookup t =
      l.findSome? fun n => if n.tid = t then flushOf r n else none := by
  unfold lastKnownFlushes
  induction l using List.reverseRecOn with
  | nil => rfl
  | append_singleton l n ih =>
    rw [List.foldl_append, List.foldl_cons, List.foldl_nil, lookup_keepFlush, ih,
      List.findSome?_append, List.findSome?_singleton]

/-- A flush of the read before the dependent write. -/
structure FlushesBefore (hbg : HBG) (r d f : InstructionNode) : Prop where
  isFlush : f.itype = .flush
  contains : f.isIntervalContains r = true
  reaches : hbg.graph.Reaches (.instruction f) (.instruction d)

/-- The flush comes after the read or the write. -/
def Persists (hbg : HBG) (r w f : InstructionNode) : Prop :=
  hbg.graph.Reaches (.instruction r) (.instruction f) ∨
    hbg.graph.Reaches (.instruction w) (.instruction f)

/-- The definition of a race, for a dependent write that the read leads to. -/
structure IsRaceUpTo (hbg : HBG) (r w d : InstructionNode) : Prop where
  overlap : r.isIntervalOverlap w = true
  notAfter : ¬ hbg.graph.Reaches (.instruction r) (.instruction w)
  unflushed : ∀ f, FlushesBefore hbg r d f → ¬ Persists hbg r w f

section Run

variable {bfs : BfsEdges} {hbg : HBG} {r w d f : InstructionNode}

theorem mem_bfsSuccessors (hbfs : bfs.Documented hbg.graph) {source n : Node}
    (hs : source ∈ hbg.graph.nodes) :
    n ∈ hbg.bfsSuccessors bfs source ↔ hbg.graph.Reaches source n ∧ n ≠ source :=
  (hbfs source hs).1.mem_iff n

theorem mem_bfsPredecessors (hbfs : bfs.Documented hbg.graph) {source n : Node}
    (hs : source ∈ hbg.graph.nodes) :
    n ∈ hbg.bfsPredecessors bfs source ↔ hbg.graph.Reaches n source ∧ n ≠ source := by
  rw [← Digraph.reaches_reverse]
  exact (hbfs source hs).2.mem_iff n

/-- A kept flush is the first flush of the read in its thread. -/
theorem kept_split (hbfs : bfs.Documented hbg.graph) (hd : Node.instruction d ∈ hbg.graph.nodes)
    {t : ThreadId} {f : InstructionNode}
    (hf : (lastKnownFlushes r (hbg.bfsPredecessors bfs (.instruction d))).lookup t = some f) :
    f.tid = t ∧ FlushesBefore hbg r d f ∧ ∃ pre post,
      hbg.bfsPredecessors bfs (.instruction d) = pre ++ .instruction f :: post ∧
        ∀ g, FlushesBefore hbg r d g → g.tid = t → Node.instruction g ∉ pre := by
  rw [lookup_lastKnownFlushes] at hf
  obtain ⟨pre, n, post, hsplit, hn, hpre⟩ := List.findSome?_eq_some_iff.mp hf
  by_cases ht : n.tid = t
  · rw [if_pos ht] at hn
    obtain ⟨rfl, hi, hc⟩ := flushOf_eq_some.mp hn
    have hmem : Node.instruction f ∈ hbg.bfsPredecessors bfs (.instruction d) := by
      rw [hsplit]
      simp
    refine ⟨ht, ⟨hi, hc, ((mem_bfsPredecessors hbfs hd).mp hmem).1⟩, pre, post, hsplit, ?_⟩
    intro g hg hgt hgpre
    have hnone := hpre _ hgpre
    rw [if_pos (show (Node.instruction g).tid = t from hgt),
      flushOf_eq_some.mpr ⟨rfl, hg.isFlush, hg.contains⟩] at hnone
    cases hnone
  · rw [if_neg ht] at hn
    cases hn

theorem FlushesBefore.mem_bfsPredecessors (h : FlushesBefore hbg r d f)
    (hbfs : bfs.Documented hbg.graph) (hw : d.itype = .write) :
    Node.instruction f ∈ hbg.bfsPredecessors bfs (.instruction d) := by
  refine (Pycprd.mem_bfsPredecessors hbfs h.reaches.mem.2).mpr ⟨h.reaches, ?_⟩
  intro he
  cases he
  rw [h.isFlush] at hw
  cases hw

/-- A thread with a flush of the read has a kept flush. -/
theorem exists_kept (hbfs : bfs.Documented hbg.graph) (hw : d.itype = .write)
    (hf : FlushesBefore hbg r d f) : ∃ k,
      (lastKnownFlushes r (hbg.bfsPredecessors bfs (.instruction d))).lookup f.tid = some k := by
  rw [lookup_lastKnownFlushes, ← Option.isSome_iff_exists, List.findSome?_isSome_iff]
  refine ⟨_, hf.mem_bfsPredecessors hbfs hw, ?_⟩
  rw [if_pos (show (Node.instruction f).tid = f.tid from rfl),
    flushOf_eq_some.mpr ⟨rfl, hf.isFlush, hf.contains⟩]
  rfl

/-- What is persisted before is what comes before a kept flush. -/
theorem mem_persistedBefore (hbfs : bfs.Documented hbg.graph)
    {flushes : Dict ThreadId InstructionNode}
    (hflushes : ∀ t f, flushes.lookup t = some f →
      Node.instruction f ∈ hbg.graph.nodes ∧ f.itype = .flush) {a : InstructionNode}
    (ha : a.itype ≠ .flush) :
    Node.instruction a ∈ persistedBefore bfs hbg flushes ↔ ∃ t f, flushes.lookup t = some f ∧
      hbg.graph.Reaches (.instruction a) (.instruction f) := by
  unfold persistedBefore
  rw [List.mem_flatMap]
  constructor
  · intro h
    obtain ⟨⟨t, f⟩, he, hm⟩ := h
    have hlookup := AList.mem_lookup_iff.mpr he
    have hr := (mem_bfsPredecessors hbfs (hflushes t f hlookup).1).mp (List.mem_filter.mp hm).1
    exact ⟨t, f, hlookup, hr.1⟩
  · intro h
    obtain ⟨t, f, hlookup, hr⟩ := h
    refine ⟨⟨t, f⟩, AList.mem_lookup_iff.mp hlookup, List.mem_filter.mpr ⟨?_, a.itype_instruction⟩⟩
    refine (mem_bfsPredecessors hbfs hr.mem.2).mpr ⟨hr, ?_⟩
    intro he
    cases he
    exact ha (hflushes t _ hlookup).2

theorem isBug_spec (hbfs : bfs.Documented hbg.graph) (hr : r.itype = .read) (hw : w.itype = .write)
    (hd : d.itype = .write) (hrd : hbg.graph.Reaches (.instruction r) (.instruction d))
    (label : Option Bool) :
    ∃ answer, isBug bfs hbg ⟨r, w, d, label⟩ = .ok answer ∧ (answer = true ↔
      r.isIntervalOverlap w = true ∧
      ¬ hbg.graph.Reaches (.instruction r) (.instruction w) ∧
      ∀ t f, (lastKnownFlushes r (hbg.bfsPredecessors bfs (.instruction d))).lookup t = some f →
        ¬ Persists hbg r w f) := by
  have hgroup : ∀ a : InstructionNode, a.itype = .write →
      (Node.instruction a ∈ (hbg.bfsSuccessors bfs (.instruction r)).filter
        (fun n => n.itype.isInstructionType) ↔
          hbg.graph.Reaches (.instruction r) (.instruction a)) := by
    intro a ha
    rw [List.mem_filter, mem_bfsSuccessors hbfs hrd.mem.1]
    constructor
    · exact fun h => h.1.1
    · intro h
      refine ⟨⟨h, ?_⟩, a.itype_instruction⟩
      intro he
      cases he
      rw [hr] at ha
      cases ha
  have hkept : ∀ t f,
      (lastKnownFlushes r (hbg.bfsPredecessors bfs (.instruction d))).lookup t = some f →
        Node.instruction f ∈ hbg.graph.nodes ∧ f.itype = .flush := by
    intro t f hf
    obtain ⟨-, hfb, -⟩ := kept_split hbfs hrd.mem.2 hf
    exact ⟨hfb.reaches.mem.1, hfb.isFlush⟩
  have hkeeps : (∀ t f, (lastKnownFlushes r
      (hbg.bfsPredecessors bfs (.instruction d))).lookup t = some f → ¬ Persists hbg r w f) ↔
        Node.instruction r ∉ persistedBefore bfs hbg (lastKnownFlushes r
          (hbg.bfsPredecessors bfs (.instruction d))) ∧
        Node.instruction w ∉ persistedBefore bfs hbg (lastKnownFlushes r
          (hbg.bfsPredecessors bfs (.instruction d))) := by
    rw [mem_persistedBefore hbfs hkept (by simp [hr]),
      mem_persistedBefore hbfs hkept (by simp [hw])]
    constructor
    · intro h
      constructor
      · intro hex
        obtain ⟨t, f, hf, hrf⟩ := hex
        exact h t f hf (Or.inl hrf)
      · intro hex
        obtain ⟨t, f, hf, hwf⟩ := hex
        exact h t f hf (Or.inr hwf)
    · intro h t f hf hp
      rcases hp with hrf | hwf
      · exact h.1 ⟨t, f, hf, hrf⟩
      · exact h.2 ⟨t, f, hf, hwf⟩
  rw [hkeeps, ← hgroup w hw]
  unfold isBug
  simp only [hr, hw, hd, BEq.rfl, pyAssert_bind]
  cases ho : r.isIntervalOverlap w with
  | false => exact ⟨false, rfl, by simp⟩
  | true =>
    rw [if_neg (by simp), pyAssert_bind (decide_eq_true ((hgroup d hd).mpr hrd))]
    split_ifs with h₁ h₂ h₃
    · exact ⟨false, rfl, by simp [h₁]⟩
    · exact ⟨false, rfl, by simp [h₂]⟩
    · exact ⟨false, rfl, by simp [h₃]⟩
    · exact ⟨true, rfl, by simp [h₁, h₂, h₃]⟩

/-- Some flush before the dependent write comes after the read or the write, and the search meets it
before the other flushes of its thread. -/
def KeepsFlush (hbg : HBG) (r w d : InstructionNode) : Prop :=
  ∃ f, FlushesBefore hbg r d f ∧ Persists hbg r w f ∧
    ∀ g, FlushesBefore hbg r d g → g.tid = f.tid → g ≠ f →
      hbg.graph.reverse.MetBefore (.instruction d) (.instruction f) (.instruction g)

/-- The kept flush of a thread is the one that is met before the others. -/
theorem metBefore_of_kept (hbfs : bfs.Documented hbg.graph) (hw : d.itype = .write)
    {g : InstructionNode} (hg : FlushesBefore hbg r d g) (hne : g ≠ f)
    (hf : (lastKnownFlushes r (hbg.bfsPredecessors bfs (.instruction d))).lookup g.tid = some f) :
    hbg.graph.reverse.MetBefore (.instruction d) (.instruction f) (.instruction g) := by
  have hd := hg.reaches.mem.2
  obtain ⟨-, hfb, pre, post, hsplit, hfirst⟩ := kept_split hbfs hd hf
  have hbf := (hbfs _ hd).2
  have hnode : Node.instruction f ≠ .instruction g := fun he => hne (Node.instruction.inj he).symm
  rw [← hbf.precedes_iff (hfb.mem_bfsPredecessors hbfs hw) (hg.mem_bfsPredecessors hbfs hw) hnode]
  unfold HBG.bfsPredecessors at hsplit
  rw [hsplit, ← List.cons_append, List.append_cons]
  refine Digraph.precedes_append (List.mem_append_right _ List.mem_cons_self) ?_
  intro hmem
  rcases List.mem_append.mp hmem with hmem | hmem
  · rcases List.mem_cons.mp hmem with he | hmem
    · cases he
      rw [hg.isFlush] at hw
      cases hw
    · exact hfirst g hg rfl hmem
  · exact hnode (List.mem_singleton.mp hmem).symm

theorem keepsFlush_iff (hbfs : bfs.Documented hbg.graph) (hw : d.itype = .write)
    (hd : Node.instruction d ∈ hbg.graph.nodes) :
    KeepsFlush hbg r w d ↔ ∃ t f, (lastKnownFlushes r
      (hbg.bfsPredecessors bfs (.instruction d))).lookup t = some f ∧ Persists hbg r w f := by
  constructor
  · intro h
    obtain ⟨f, hf, hp, hfirst⟩ := h
    obtain ⟨k, hk⟩ := exists_kept hbfs hw hf
    obtain ⟨hkt, hkf, -⟩ := kept_split hbfs hd hk
    by_cases hkeq : f = k
    · exact ⟨f.tid, k, hk, hkeq ▸ hp⟩
    · have hkf' := metBefore_of_kept hbfs hw hf hkeq hk
      exact absurd (hfirst k hkf hkt (Ne.symm hkeq)) hkf'.asymm
  · intro h
    obtain ⟨t, f, hk, hp⟩ := h
    obtain ⟨rfl, hf, -⟩ := kept_split hbfs hd hk
    refine ⟨f, hf, hp, fun g hg hgt hne => metBefore_of_kept hbfs hw hg hne ?_⟩
    rw [hgt]
    exact hk

/-- The validator decides the definition exactly when there is no overlap, the write comes after the
read, nothing is persisted, or a flush that persists is the first of its thread to be met. -/
theorem is_bug_exact_iff (hbfs : bfs.Documented hbg.graph) (hr : r.itype = .read)
    (hw : w.itype = .write) (hd : d.itype = .write)
    (hrd : hbg.graph.Reaches (.instruction r) (.instruction d)) (label : Option Bool) :
    (∃ answer, isBug bfs hbg ⟨r, w, d, label⟩ = .ok answer ∧
      (answer = true ↔ IsRaceUpTo hbg r w d)) ↔
      (r.isIntervalOverlap w = true → ¬ hbg.graph.Reaches (.instruction r) (.instruction w) →
        (∃ f, FlushesBefore hbg r d f ∧ Persists hbg r w f) → KeepsFlush hbg r w d) := by
  obtain ⟨answer, hrun, hiff⟩ := isBug_spec hbfs hr hw hd hrd label
  rw [keepsFlush_iff hbfs hd hrd.mem.2]
  constructor
  · intro hexact ho hrw hex
    obtain ⟨answer', hrun', hiff'⟩ := hexact
    obtain rfl := Except.ok.inj (hrun.symm.trans hrun')
    by_contra hlost
    have hnone : ∀ t f, (lastKnownFlushes r
        (hbg.bfsPredecessors bfs (.instruction d))).lookup t = some f → ¬ Persists hbg r w f :=
      fun t f hf hp => hlost ⟨t, f, hf, hp⟩
    obtain ⟨f, hf, hp⟩ := hex
    exact (hiff'.mp (hiff.mpr ⟨ho, hrw, hnone⟩)).unflushed f hf hp
  · intro hkeeps
    refine ⟨answer, hrun, ?_⟩
    rw [hiff]
    constructor
    · intro h
      obtain ⟨ho, hrw, hnone⟩ := h
      refine ⟨ho, hrw, fun f hf hp => ?_⟩
      obtain ⟨t, k, hk, hkp⟩ := hkeeps ho hrw ⟨f, hf, hp⟩
      exact hnone t k hk hkp
    · intro h
      refine ⟨h.overlap, h.notAfter, fun t f hf => ?_⟩
      obtain ⟨-, hfb, -⟩ := kept_split hbfs hrd.mem.2 hf
      exact h.unflushed f hfb

/-- The search of the package with its queue. -/
def queueBfs : BfsEdges := fun g source backward =>
  if backward then g.reverse.queueSearch source else g.queueSearch source

theorem queueBfs_documented (g : Digraph Node EdgeType) : queueBfs.Documented g :=
  fun _ hv => ⟨g.isBreadthFirst_queueSearch hv, g.reverse.isBreadthFirst_queueSearch hv⟩

end Run

section Samples

variable {hbg : HBG} {f : InstructionNode}

def detourWrite : InstructionNode := sampleNode 3 .write NodeType.isInstructionType_write 1 1

/-- A flush of the whole line of the read. -/
def detourFlush (ident : ℕ) : InstructionNode :=
  { sampleNode ident .flush NodeType.isInstructionType_flush 1 1 with
    size := 64
    size_ne_zero := by decide }

/-- Thread 1 flushes, writes and flushes again. Its news of the first flush comes straight to
thread 0, and its news of the second one by way of thread 2. -/
def detourTrace : HBGBuilder where
  nodes := [.instruction sampleRead, .instruction (detourFlush 4), .epoch ⟨1, 1⟩,
    .instruction detourWrite, .instruction (detourFlush 5), .epoch ⟨1, 2⟩, .epoch ⟨2, 1⟩,
    .epoch ⟨0, 1⟩, .instruction sampleDependent]
  edges := [(⟨1, 1⟩, ⟨0, 1⟩), (⟨1, 2⟩, ⟨2, 1⟩), (⟨2, 1⟩, ⟨0, 1⟩)]
  nextIdent := 6

def detourGraph : HBG :=
  (detourTrace.build noTrees detourTrace.edges .default).toOption.get (by rfl)

/-- The news of both flushes comes straight to thread 0, that of the second one first. -/
def tieTrace : HBGBuilder where
  nodes := [.instruction sampleRead, .instruction (detourFlush 4), .epoch ⟨1, 1⟩,
    .instruction detourWrite, .instruction (detourFlush 5), .epoch ⟨1, 2⟩, .epoch ⟨0, 1⟩,
    .instruction sampleDependent]
  edges := [(⟨1, 2⟩, ⟨0, 1⟩), (⟨1, 1⟩, ⟨0, 1⟩)]
  nextIdent := 6

def tieGraph : HBG :=
  (tieTrace.build noTrees tieTrace.edges .default).toOption.get (by rfl)

theorem reaches_of_search {u v : Node} (hu : u ∈ hbg.graph.nodes)
    (h : v ∈ hbg.graph.queueSearch u) : hbg.graph.Reaches u v :=
  ((Digraph.mem_queueSearch hu).mp h).1

theorem not_reaches_of_search {u v : Node} (hu : u ∈ hbg.graph.nodes)
    (h : v ∉ hbg.graph.queueSearch u) (hne : v ≠ u) : ¬ hbg.graph.Reaches u v :=
  fun hr => h ((Digraph.mem_queueSearch hu).mpr ⟨hr, hne⟩)

theorem eq_detourFlush (h : ∀ n ∈ hbg.graph.nodes, n.itype = .flush →
      n = .instruction (detourFlush 4) ∨ n = .instruction (detourFlush 5))
    (hf : FlushesBefore hbg sampleRead sampleDependent f) :
    f = detourFlush 4 ∨ f = detourFlush 5 :=
  (h _ hf.reaches.mem.1 hf.isFlush).imp Node.instruction.inj Node.instruction.inj

theorem detour_flushesBefore (hf : f = detourFlush 4 ∨ f = detourFlush 5) :
    FlushesBefore detourGraph sampleRead sampleDependent f := by
  rcases hf with rfl | rfl
  · exact ⟨rfl, by decide, reaches_of_search (by decide) (by decide)⟩
  · exact ⟨rfl, by decide, reaches_of_search (by decide) (by decide)⟩

theorem detour_read_reaches :
    detourGraph.graph.Reaches (.instruction sampleRead) (.instruction sampleDependent) :=
  reaches_of_search (by decide) (by decide)

theorem detour_not_after :
    ¬ detourGraph.graph.Reaches (.instruction sampleRead) (.instruction detourWrite) :=
  not_reaches_of_search (by decide) (by decide) (by decide)

/-- Only the second flush comes after the write, and none comes after the read. -/
theorem detour_first_not_persists :
    ¬ Persists detourGraph sampleRead detourWrite (detourFlush 4) := by
  intro hp
  rcases hp with hr | hw
  · exact not_reaches_of_search (by decide) (by decide) (by decide) hr
  · exact not_reaches_of_search (by decide) (by decide) (by decide) hw

theorem detour_second_persists : Persists detourGraph sampleRead detourWrite (detourFlush 5) :=
  Or.inr (reaches_of_search (by decide) (by decide))

theorem detour_first_met : detourGraph.graph.reverse.MetBefore (.instruction sampleDependent)
    (.instruction (detourFlush 4)) (.instruction (detourFlush 5)) := by
  have hd : Node.instruction sampleDependent ∈ detourGraph.graph.reverse.nodes := by decide
  have hbf := Digraph.isBreadthFirst_queueSearch detourGraph.graph.reverse hd
  exact (hbf.precedes_iff (by decide) (by decide) (by decide)).mp
    (by decide)

theorem tie_flushesBefore :
    FlushesBefore tieGraph sampleRead sampleDependent (detourFlush 5) :=
  ⟨rfl, by decide, reaches_of_search (by decide) (by decide)⟩

theorem tie_second_persists : Persists tieGraph sampleRead detourWrite (detourFlush 5) :=
  Or.inr (reaches_of_search (by decide) (by decide))

theorem tie_second_met : tieGraph.graph.reverse.MetBefore (.instruction sampleDependent)
    (.instruction (detourFlush 5)) (.instruction (detourFlush 4)) := by
  have hd : Node.instruction sampleDependent ∈ tieGraph.graph.reverse.nodes := by decide
  have hbf := Digraph.isBreadthFirst_queueSearch tieGraph.graph.reverse hd
  exact (hbf.precedes_iff (by decide) (by decide) (by decide)).mp
    (by decide)

end Samples

/-- Both flushes are as near, and the one after the write is met first. -/
theorem is_bug_exact_iff_tie :
    ∃ answer,
      isBug queueBfs tieGraph ⟨sampleRead, detourWrite, sampleDependent, none⟩ = .ok answer ∧
        (answer = true ↔ IsRaceUpTo tieGraph sampleRead detourWrite sampleDependent) := by
  have hrd : tieGraph.graph.Reaches (.instruction sampleRead) (.instruction sampleDependent) :=
    reaches_of_search (by decide) (by decide)
  refine (is_bug_exact_iff (queueBfs_documented _) rfl rfl rfl hrd none).mpr fun _ _ _ => ?_
  refine ⟨detourFlush 5, tie_flushesBefore, tie_second_persists, fun g hg _ hne => ?_⟩
  rcases eq_detourFlush (by decide) hg with rfl | rfl
  · exact tie_second_met
  · exact absurd rfl hne

/-- Every breadth-first search meets the first flush before the second, and the write is called
unflushed. -/
theorem detour_flush_lost :
    detourTrace.build noTrees detourTrace.edges .default = .ok detourGraph ∧
      detourGraph.graph.Reaches (.instruction sampleRead) (.instruction sampleDependent) ∧
      (∃ bfs : BfsEdges, bfs.Documented detourGraph.graph) ∧
      (∀ bfs : BfsEdges, bfs.Documented detourGraph.graph →
        isBug bfs detourGraph ⟨sampleRead, detourWrite, sampleDependent, none⟩ = .ok true) ∧
      ¬ IsRaceUpTo detourGraph sampleRead detourWrite sampleDependent := by
  have hsecond := detour_flushesBefore (f := detourFlush 5) (Or.inr rfl)
  refine ⟨rfl, detour_read_reaches, ⟨queueBfs, queueBfs_documented _⟩, ?_,
    fun h => h.unflushed _ hsecond detour_second_persists⟩
  intro bfs hbfs
  obtain ⟨answer, hrun, hiff⟩ := isBug_spec hbfs (r := sampleRead) (w := detourWrite)
    (d := sampleDependent) rfl rfl rfl detour_read_reaches none
  rw [hrun]
  refine congrArg Except.ok (hiff.mpr ⟨rfl, detour_not_after, fun t f hf => ?_⟩)
  obtain ⟨rfl, hfb, -⟩ := kept_split hbfs detour_read_reaches.mem.2 hf
  rcases eq_detourFlush (by decide) hfb with rfl | rfl
  · exact detour_first_not_persists
  · have hfirst := detour_flushesBefore (f := detourFlush 4) (Or.inl rfl)
    exact absurd (metBefore_of_kept hbfs rfl hfirst (by decide) hf) detour_first_met.asymm

end Prd.Pycprd
