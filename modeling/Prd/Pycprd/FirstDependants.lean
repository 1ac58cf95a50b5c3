import Mathlib.Data.List.Find
import Prd.Foundation.FirstMatch
import Prd.Pycprd.BuilderCalls
import Prd.Pycprd.RunCompletes

/-!
# Reads are linked to the first write that may depend on them

Both ways of making a dependency graph go through a thread with the reads that wait for
a write. The mock graph lets a write take every waiting read of another line, and the
graph of program counters those among them whose counters were given with its own.
-/
namespace Prd.Pycprd

open Prd.Foundation

def Node.instruction? : Node → Option InstructionNode
  | .epoch _ => none
  | .instruction n => some n

theorem mem_filterMap_instruction? {l : List Node} {n : InstructionNode} :
    n ∈ l.filterMap Node.instruction? ↔ Node.instruction n ∈ l := by
  rw [List.mem_filterMap]
  constructor
  · intro h
    obtain ⟨m, hm, hn⟩ := h
    cases m with
    | epoch e => cases hn
    | instruction m =>
      cases hn
      exact hm
  · intro h
    exact ⟨.instruction n, h, rfl⟩

/-- The instructions of a thread in order. -/
def HBG.threadInstructions (hbg : HBG) (tid : ThreadId) : List InstructionNode :=
  (threadOf tid hbg.nodes).filterMap Node.instruction?

/-- The first write after `r` in its thread that is apart from it. -/
def HBG.firstWriteAfter (hbg : HBG) (apart : InstructionNode → InstructionNode → Prop)
    [DecidableRel apart] (r : InstructionNode) : Option InstructionNode :=
  (after (hbg.threadInstructions r.tid) r).find? fun w => w.itype = .write ∧ apart w r

def HBG.IsRead (hbg : HBG) (r : InstructionNode) : Prop :=
  Node.instruction r ∈ hbg.nodes ∧ r.itype = .read

/-- A read has the first write apart from it as its only dependant, and there are no other
dependencies. -/
structure PDG.LinksFirstWrites (pdg : PDG) (hbg : HBG)
    (apart : InstructionNode → InstructionNode → Prop) [DecidableRel apart] : Prop where
  dependants : ∀ r w, w ∈ pdg.getDependants r ↔ hbg.IsRead r ∧ hbg.firstWriteAfter apart r = some w
  dependencies : ∀ w r, r ∈ pdg.getDependencies w ↔
    hbg.IsRead r ∧ hbg.firstWriteAfter apart r = some w

def StartsWaiting (r : InstructionNode) : Prop := r.itype = .read

def Takes (apart : InstructionNode → InstructionNode → Prop) (w r : InstructionNode) : Prop :=
  w.itype = .write ∧ apart w r

instance (apart : InstructionNode → InstructionNode → Prop) [DecidableRel apart] :
    DecidableRel (Takes apart) :=
  fun _ _ => inferInstanceAs (Decidable (_ ∧ _))

section Loops

variable {apart : InstructionNode → InstructionNode → Prop}

theorem PDGBuilder.addDependency_eq_ok {b b' : PDGBuilder} {d r : InstructionNode}
    (h : b.addDependency d r = .ok b') : b' = { b with graph := b.graph.addEdge d r () } := by
  unfold addDependency at h
  obtain ⟨_, -, h⟩ := bind_eq_ok.mp h
  obtain ⟨_, -, h⟩ := bind_eq_ok.mp h
  obtain ⟨_, -, h⟩ := bind_eq_ok.mp h
  exact (Except.ok.inj h).symm

theorem PDGBuilder.hasEdge_addDependencies {b b' : PDGBuilder} {d : InstructionNode}
    {reads : List InstructionNode} (h : b.addDependencies d reads = .ok b') :
    b'.dependencies = b.dependencies ∧
      ∀ w r, b'.graph.HasEdge w r ↔ b.graph.HasEdge w r ∨ w = d ∧ r ∈ reads := by
  unfold addDependencies at h
  induction reads generalizing b with
  | nil =>
    cases h
    simp
  | cons x reads ih =>
    rw [List.foldlM_cons] at h
    obtain ⟨b₁, hb₁, h⟩ := bind_eq_ok.mp h
    obtain rfl := addDependency_eq_ok hb₁
    obtain ⟨hdep, hedge⟩ := ih h
    refine ⟨hdep, fun w r => ?_⟩
    rw [hedge, Digraph.hasEdge_addEdge, List.mem_cons, and_or_left, or_assoc]

/-- What one step of a loop over a thread does with the waiting reads and the links. -/
structure StepTakes {σ : Type} (apart : InstructionNode → InstructionNode → Prop)
    (waiting : σ → InstructionNode → Prop) (n : InstructionNode) (s s' : PDGBuilder × σ) :
    Prop where
  waits : ∀ r, waiting s'.2 r ↔ r = n ∧ StartsWaiting n ∨ waiting s.2 r ∧ ¬ Takes apart n r
  links : ∀ w r, s'.1.graph.HasEdge w r ↔
    s.1.graph.HasEdge w r ∨ w = n ∧ waiting s.2 r ∧ Takes apart n r

/-- A loop whose steps take the waiting reads links the reads of the thread to the first writes
that take them. -/
theorem foldlM_matched {σ : Type} {step : PDGBuilder × σ → Node → Py (PDGBuilder × σ)}
    (waiting : σ → InstructionNode → Prop) (Inv : PDGBuilder × σ → Prop)
    (hepoch : ∀ s e s', step s (.epoch e) = .ok s' → s' = s)
    (hstep : ∀ s n s', Inv s → step s (.instruction n) = .ok s' →
      Inv s' ∧ StepTakes apart waiting n s s')
    {threadNodes : List Node} {s s' : PDGBuilder × σ} (h : threadNodes.foldlM step s = .ok s')
    (hs : Inv s) (hnone : ∀ r, ¬ waiting s.2 r) :
    Inv s' ∧ Matched StartsWaiting (Takes apart) s.1.graph.HasEdge
      (threadNodes.filterMap Node.instruction?) (waiting s'.2) s'.1.graph.HasEdge := by
  induction threadNodes using List.reverseRecOn generalizing s' with
  | nil =>
    cases h
    exact ⟨hs, .nil hnone⟩
  | append_singleton threadNodes n ih =>
    rw [List.foldlM_append] at h
    obtain ⟨s₁, hs₁, h⟩ := bind_eq_ok.mp h
    obtain ⟨s₂, hs₂, h⟩ := bind_eq_ok.mp h
    cases h
    obtain ⟨hI, hm⟩ := ih hs₁
    rw [List.filterMap_append]
    cases n with
    | epoch e =>
      obtain rfl := hepoch _ _ _ hs₂
      have hnil : [Node.epoch e].filterMap Node.instruction? = [] := rfl
      rw [hnil, List.append_nil]
      exact ⟨hI, hm⟩
    | instruction n =>
      obtain ⟨hI', hn⟩ := hstep _ _ _ hI hs₂
      exact ⟨hI', hm.append_singleton hn.waits hn.links⟩

end Loops

section Threads

variable {apart : InstructionNode → InstructionNode → Prop} {hbg : HBG}

/-- The loop over the threads collects the links of each. -/
theorem foldlM_threads_hasEdge (h : hbg.ListsThreads) {add : PDGBuilder → List Node → Py PDGBuilder}
    (Inv : PDGBuilder → Prop)
    (hadd : ∀ b b' threadNodes, Inv b → add b threadNodes = .ok b' →
      Inv b' ∧ ∀ w r, b'.graph.HasEdge w r ↔ b.graph.HasEdge w r ∨
        TakenBy StartsWaiting (Takes apart) (threadNodes.filterMap Node.instruction?) w r)
    {b b' : PDGBuilder} (hb : Inv b)
    (h' : hbg.tids.foldlM (fun b tid => do
      let threadNodes ← hbg.getThreadNodes tid
      add b threadNodes) b = .ok b') (w r : InstructionNode) :
    b'.graph.HasEdge w r ↔ b.graph.HasEdge w r ∨ ∃ t ∈ hbg.tids,
      TakenBy StartsWaiting (Takes apart) (hbg.threadInstructions t) w r := by
  unfold HBG.ListsThreads at h
  revert h h'
  generalize hbg.tids = ts
  intro h h'
  induction ts generalizing b with
  | nil =>
    cases h'
    simp
  | cons t ts ih =>
    rw [List.foldlM_cons, h t List.mem_cons_self, ok_bind] at h'
    obtain ⟨b₁, hb₁, h'⟩ := bind_eq_ok.mp h'
    obtain ⟨hI, hedge⟩ := hadd _ _ _ hb hb₁
    rw [ih hI (fun t' ht' => h t' (List.mem_cons_of_mem t ht')) h', hedge, or_assoc]
    simp [HBG.threadInstructions]

end Threads

section Mock

variable (order : SetOrder)

theorem mockStep_takes {s s' : PDGBuilder × List InstructionNode} {n : InstructionNode}
    (h : mockStep order s (.instruction n) = .ok s') :
    StepTakes LinesDiffer (fun reads r => r ∈ reads) n s s' := by
  simp only [mockStep] at h
  rcases n.itype_cases with hi | hi | hi
  · rw [hi] at h
    cases h
    constructor
    · intro r
      simp [StartsWaiting, Takes, hi, List.mem_insert_iff]
    · intro w r
      simp [Takes, hi]
  · rw [hi] at h
    obtain ⟨b, hb, h⟩ := bind_eq_ok.mp h
    cases h
    obtain ⟨-, hedge⟩ := PDGBuilder.hasEdge_addDependencies hb
    constructor
    · intro r
      simp [StartsWaiting, Takes, hi, order.mem_nodes, LinesDiffer]
      tauto
    · intro w r
      rw [hedge, order.mem_nodes]
      simp [Takes, hi, LinesDiffer]
  · rw [hi] at h
    cases h
    constructor
    · intro r
      simp [StartsWaiting, Takes, hi]
    · intro w r
      simp [Takes, hi]

theorem addMockDependencies_hasEdge {b b' : PDGBuilder} {threadNodes : List Node}
    (h : addMockDependencies order b threadNodes = .ok b') (w r : InstructionNode) :
    b'.graph.HasEdge w r ↔ b.graph.HasEdge w r ∨
      TakenBy StartsWaiting (Takes LinesDiffer) (threadNodes.filterMap Node.instruction?) w r := by
  unfold addMockDependencies at h
  obtain ⟨s, hs, h⟩ := bind_eq_ok.mp h
  cases h
  have hmatched := foldlM_matched (fun reads r => r ∈ reads) (fun _ => True)
    (fun _ _ _ he => (Except.ok.inj he).symm)
    (fun _ _ _ _ hstep => ⟨trivial, mockStep_takes order hstep⟩)
    hs trivial (fun _ => List.not_mem_nil)
  exact hmatched.2.taken w r

end Mock

section Pc

variable (order : SetOrder)

/-- The pending reads are filed under their program counters. -/
def FiledByPc (pending : PDGBuilder.PendingReads) : Prop :=
  ∀ pc, ∀ r ∈ pending.getD pc [], r.pc = pc

def IsPending (pending : PDGBuilder.PendingReads) (r : InstructionNode) : Prop :=
  r ∈ pending.getD r.pc []

/-- The write depends on one of the counters, and the intervals of lines differ. -/
def MatchesPcs (pcs : ℕ → List ℕ) (w r : InstructionNode) : Prop :=
  r.pc ∈ pcs w.pc ∧ IntervalsDiffer w r

theorem not_isPending_empty (r : InstructionNode) : ¬ IsPending ∅ r := by
  simp [IsPending]

theorem filedByPc_empty : FiledByPc ∅ := by
  intro pc r hr
  rw [Dict.getD_empty] at hr
  cases hr

theorem FiledByPc.insert {pending : PDGBuilder.PendingReads} (h : FiledByPc pending) {pc : ℕ}
    {reads : List InstructionNode} (hr : ∀ r ∈ reads, r.pc = pc) :
    FiledByPc (pending.insert pc reads) := by
  intro pc' r hr'
  rw [Dict.getD_insert] at hr'
  split_ifs at hr' with hpc
  · rw [hpc]
    exact hr r hr'
  · exact h pc' r hr'

theorem isPending_insert {pending : PDGBuilder.PendingReads} {pc : ℕ} {reads : List InstructionNode}
    {r : InstructionNode} :
    IsPending (pending.insert pc reads) r ↔ if r.pc = pc then r ∈ reads else
    IsPending pending r := by
  unfold IsPending
  rw [Dict.getD_insert]
  split_ifs with h
  · rfl
  · rfl

theorem takeReads_takes {s s' : PDGBuilder × PDGBuilder.PendingReads} {n : InstructionNode} {pc : ℕ}
    (hn : n.itype = .write) (hs : FiledByPc s.2) (h : PDGBuilder.takeReads order n s pc = .ok s') :
    s'.1.dependencies = s.1.dependencies ∧ FiledByPc s'.2 ∧
      StepTakes (MatchesPcs fun _ => [pc]) IsPending n s s' := by
  unfold PDGBuilder.takeReads at h
  obtain ⟨b, hb, h⟩ := bind_eq_ok.mp h
  cases h
  obtain ⟨hdep, hedge⟩ := PDGBuilder.hasEdge_addDependencies hb
  refine ⟨hdep, hs.insert fun r hr => hs pc r (List.mem_filter.mp hr).1, ?_, ?_⟩
  · intro r
    rw [isPending_insert]
    split_ifs with hpc
    · subst hpc
      simp [IsPending, StartsWaiting, Takes, MatchesPcs, hn, IntervalsDiffer, order.mem_nodes]
      tauto
    · simp [StartsWaiting, Takes, MatchesPcs, hn, hpc]
  · intro w r
    rw [hedge]
    simp only [List.mem_filter, order.mem_nodes, decide_eq_true_eq]
    refine or_congr_right (and_congr_right fun _ => ?_)
    simp only [Takes, MatchesPcs, hn, List.mem_singleton, true_and, IntervalsDiffer]
    constructor
    · intro h
      have hpc := hs pc r h.1
      exact ⟨by rw [IsPending, hpc]; exact h.1, hpc, h.2⟩
    · intro h
      obtain ⟨hp, rfl, hd⟩ := h
      exact ⟨hp, hd⟩

/-- One step after another takes what either takes. -/
theorem StepTakes.trans {σ : Type} {waiting : σ → InstructionNode → Prop} {n : InstructionNode}
    {pcs pcs' : ℕ → List ℕ} {s s₁ s₂ : PDGBuilder × σ} (hn : n.itype = .write)
    (h : StepTakes (MatchesPcs pcs) waiting n s s₁)
    (h' : StepTakes (MatchesPcs pcs') waiting n s₁ s₂) :
    StepTakes (MatchesPcs fun pc => pcs pc ++ pcs' pc) waiting n s s₂ := by
  have hstart : ¬ StartsWaiting n := by
    simp [StartsWaiting, hn]
  constructor
  · intro r
    rw [h'.waits, h.waits]
    simp only [Takes, MatchesPcs, List.mem_append]
    tauto
  · intro w r
    rw [h'.links, h.links, h.waits]
    simp only [Takes, MatchesPcs, List.mem_append]
    tauto

theorem foldlM_takeReads_takes {s s' : PDGBuilder × PDGBuilder.PendingReads} {n : InstructionNode}
    {pcs : List ℕ} (hn : n.itype = .write) (hs : FiledByPc s.2)
    (h : pcs.foldlM (PDGBuilder.takeReads order n) s = .ok s') :
    s'.1.dependencies = s.1.dependencies ∧ FiledByPc s'.2 ∧
      StepTakes (MatchesPcs fun _ => pcs) IsPending n s s' := by
  induction pcs generalizing s with
  | nil =>
    cases h
    refine ⟨rfl, hs, ?_, ?_⟩
    · intro r
      simp [StartsWaiting, Takes, MatchesPcs, hn]
    · intro w r
      simp [Takes, MatchesPcs]
  | cons pc pcs ih =>
    rw [List.foldlM_cons] at h
    obtain ⟨s₁, hs₁, h⟩ := bind_eq_ok.mp h
    obtain ⟨hdep₁, hfiled₁, htakes₁⟩ := takeReads_takes order hn hs hs₁
    obtain ⟨hdep, hfiled, htakes⟩ := ih hfiled₁ h
    exact ⟨hdep.trans hdep₁, hfiled, htakes₁.trans hn htakes⟩

/-- The counters of the reads that a write may depend on. -/
def PDGBuilder.readPcs (b : PDGBuilder) (writePc : ℕ) : List ℕ := b.dependencies.getD writePc []

theorem StepTakes.congr {σ : Type} {waiting : σ → InstructionNode → Prop} {n : InstructionNode}
    {apart apart' : InstructionNode → InstructionNode → Prop} {s s' : PDGBuilder × σ}
    (h : StepTakes apart waiting n s s') (ha : ∀ r, Takes apart n r ↔ Takes apart' n r) :
    StepTakes apart' waiting n s s' where
  waits := fun r => by rw [h.waits, ha]
  links := fun w r => by rw [h.links, ha]

theorem pcStep_takes {b : PDGBuilder} {s s' : PDGBuilder × PDGBuilder.PendingReads}
    {n : InstructionNode} (hs : s.1.dependencies = b.dependencies ∧ FiledByPc s.2)
    (h : PDGBuilder.pcStep order s (.instruction n) = .ok s') :
    (s'.1.dependencies = b.dependencies ∧ FiledByPc s'.2) ∧
      StepTakes (MatchesPcs b.readPcs) IsPending n s s' := by
  obtain ⟨hdep, hfiled⟩ := hs
  simp only [PDGBuilder.pcStep] at h
  rcases n.itype_cases with hi | hi | hi
  · rw [hi] at h
    cases h
    refine ⟨⟨hdep, hfiled.insert fun r hr => ?_⟩, ?_, ?_⟩
    · rcases List.mem_insert_iff.mp hr with rfl | hr
      · rfl
      · exact hfiled _ r hr
    · intro r
      rw [isPending_insert]
      split_ifs with hpc
      · simp [StartsWaiting, Takes, hi, IsPending, hpc]
      · have hne : r ≠ n := fun he => hpc (by rw [he])
        simp [Takes, hi, hne]
    · intro w r
      simp [Takes, hi]
  · rw [hi] at h
    obtain ⟨hdep', hfiled', htakes⟩ := foldlM_takeReads_takes order hi hfiled h
    refine ⟨⟨hdep'.trans hdep, hfiled'⟩, htakes.congr fun r => ?_⟩
    simp [Takes, MatchesPcs, PDGBuilder.readPcs, order.mem_pcs, hdep]
  · rw [hi] at h
    cases h
    refine ⟨⟨hdep, hfiled⟩, ?_, ?_⟩
    · intro r
      simp [StartsWaiting, Takes, hi]
    · intro w r
      simp [Takes, hi]

theorem addPcDependencies_hasEdge {b b₁ b' : PDGBuilder} {threadNodes : List Node}
    (hb : b₁.dependencies = b.dependencies) (h : b₁.addPcDependencies order threadNodes = .ok b') :
    b'.dependencies = b.dependencies ∧ ∀ w r, b'.graph.HasEdge w r ↔ b₁.graph.HasEdge w r ∨
      TakenBy StartsWaiting (Takes (MatchesPcs b.readPcs))
        (threadNodes.filterMap Node.instruction?) w r := by
  unfold PDGBuilder.addPcDependencies at h
  obtain ⟨s, hs, h⟩ := bind_eq_ok.mp h
  cases h
  obtain ⟨⟨hdep, -⟩, hmatched⟩ := foldlM_matched IsPending
    (fun s => s.1.dependencies = b.dependencies ∧ FiledByPc s.2)
    (fun _ _ _ he => (Except.ok.inj he).symm) (fun _ _ _ hI hstep => pcStep_takes order hI hstep)
    hs ⟨hb, filedByPc_empty⟩ not_isPending_empty
  exact ⟨hdep, hmatched.taken⟩

end Pc

section Built

variable {it : IntervalTreeApi} {calls : List BuilderCall} {b : HBGBuilder}
  {es : List (EpochNode × EpochNode)} {o : HBGBuilder.BuildOptions} {hbg : HBG}

/-- Every added instruction is a new object. -/
theorem BuilderCall.run_instructions (h : run calls = .ok b) :
    (b.nodes.filterMap Node.instruction?).Nodup ∧
      ∀ n ∈ b.nodes.filterMap Node.instruction?, n.ident < b.nextIdent := by
  unfold run at h
  induction calls using List.reverseRecOn generalizing b with
  | nil =>
    cases h
    exact ⟨List.nodup_nil, fun n hn => absurd hn List.not_mem_nil⟩
  | append_singleton calls call ih =>
    rw [List.foldlM_append] at h
    obtain ⟨b₁, hb₁, h⟩ := bind_eq_ok.mp h
    obtain ⟨b₂, hb₂, h⟩ := bind_eq_ok.mp h
    cases h
    obtain ⟨hnd, hlt⟩ := ih hb₁
    cases call with
    | addEpochNode tid epoch =>
      cases hb₂
      unfold HBGBuilder.addEpochNode
      rw [List.filterMap_append]
      have hnil : [Node.epoch ⟨tid, epoch⟩].filterMap Node.instruction? = [] := rfl
      rw [hnil, List.append_nil]
      exact ⟨hnd, hlt⟩
    | addHappensBeforeEdge srcTid srcEpoch dstTid dstEpoch =>
      cases hb₂
      exact ⟨hnd, hlt⟩
    | addInstructionNode itype tid pc address size info line isAtomic isNonTemporal eventId =>
      obtain ⟨⟨n, b'⟩, hadd, h⟩ := bind_eq_ok.mp hb₂
      cases h
      obtain ⟨n', hn', hadd⟩ := bind_eq_ok.mp hadd
      cases hadd
      have hident : n.ident = b₁.nextIdent := by
        unfold createInstructionNode at hn'
        split_ifs at hn'
        cases hn'
        rfl
      have hone : [Node.instruction n].filterMap Node.instruction? = [n] := rfl
      rw [List.filterMap_append, hone]
      constructor
      · refine List.Nodup.append hnd (List.nodup_singleton n) ?_
        intro m hm hm'
        rw [List.mem_singleton.mp hm'] at hm
        exact absurd (hlt n hm) (by omega)
      · intro m hm
        show m.ident < b₁.nextIdent + 1
        rcases List.mem_append.mp hm with hm | hm
        · exact Nat.lt_succ_of_lt (hlt m hm)
        · rw [List.mem_singleton.mp hm, hident]
          exact Nat.lt_succ_self _

/-- The threads of the graph list its nodes, each instruction once. -/
structure HBG.ListsInstructions (hbg : HBG) : Prop where
  threads : hbg.ListsThreads
  tids : ∀ n ∈ hbg.nodes, n.tid ∈ hbg.tids
  nodup : (hbg.nodes.filterMap Node.instruction?).Nodup

theorem HBGBuilder.build_listsInstructions (hb : BuilderCall.run calls = .ok b)
    (h : b.build it es o = .ok hbg) : hbg.ListsInstructions where
  threads := build_listsThreads h
  tids := by
    obtain ⟨-, -, -, -, -, -, hthread, -⟩ := build_eq_ok h
    intro n hn
    rw [HBG.tids, ← AList.mem_keys, hthread, (ThreadTables.lists_addNodes hbg.nodes).mem_byThread]
    exact ⟨n, hn, rfl⟩
  nodup := by
    obtain ⟨p, -, -, hnodes, -⟩ := build_eq_ok h
    rw [hnodes]
    exact (List.filter_sublist.filterMap _).nodup (BuilderCall.run_instructions hb).1

namespace HBG.ListsInstructions

variable {apart : InstructionNode → InstructionNode → Prop} [DecidableRel apart]

theorem nodup_thread (h : hbg.ListsInstructions) (t : ThreadId) :
    (hbg.threadInstructions t).Nodup :=
  (List.filter_sublist.filterMap _).nodup h.nodup

omit [DecidableRel apart] in
theorem mem_threadInstructions {t : ThreadId} {n : InstructionNode} :
    n ∈ hbg.threadInstructions t ↔ Node.instruction n ∈ hbg.nodes ∧ n.tid = t := by
  unfold HBG.threadInstructions
  rw [mem_filterMap_instruction?, mem_threadOf]
  rfl

/-- The threads link a read to the write that a search after it finds. -/
theorem exists_takenBy_iff (h : hbg.ListsInstructions) {w r : InstructionNode} :
    (∃ t ∈ hbg.tids, TakenBy StartsWaiting (Takes apart) (hbg.threadInstructions t) w r) ↔
      hbg.IsRead r ∧ hbg.firstWriteAfter apart r = some w := by
  have hfirst : hbg.firstWriteAfter apart r = (after (hbg.threadInstructions r.tid) r).find?
      fun x => decide (Takes apart x r) := rfl
  have hsearch : TakenBy StartsWaiting (Takes apart) (hbg.threadInstructions r.tid) w r ↔
      StartsWaiting r ∧ hbg.firstWriteAfter apart r = some w :=
    hfirst ▸ takenBy_iff_find? (h.nodup_thread r.tid)
  constructor
  · intro ht
    obtain ⟨t, -, ht⟩ := ht
    obtain ⟨hmem, rfl⟩ := mem_threadInstructions.mp ht.mem.2.2
    obtain ⟨hs, hfind⟩ := hsearch.mp ht
    exact ⟨⟨hmem, hs⟩, hfind⟩
  · intro hr
    obtain ⟨⟨hmem, hs⟩, hfind⟩ := hr
    exact ⟨r.tid, h.tids _ hmem, hsearch.mpr ⟨hs, hfind⟩⟩

theorem linksFirstWrites (h : hbg.ListsInstructions) {pdg : PDG}
    (hedge : ∀ w r, pdg.graph.HasEdge w r ↔
      ∃ t ∈ hbg.tids, TakenBy StartsWaiting (Takes apart) (hbg.threadInstructions t) w r) :
    pdg.LinksFirstWrites hbg apart where
  dependants := fun r w => by
    rw [PDG.mem_getDependants, hedge, h.exists_takenBy_iff]
  dependencies := fun w r => by
    rw [PDG.mem_getDependencies, hedge, h.exists_takenBy_iff]

end HBG.ListsInstructions

instance : DecidableRel LinesDiffer := fun _ _ => inferInstanceAs (Decidable (_ ≠ _))

instance : DecidableRel IntervalsDiffer := fun _ _ => inferInstanceAs (Decidable (_ ≠ _))

/-- The mock graph has the first write on another line as the only dependant of a read. -/
theorem mock_links_first_writes (hb : BuilderCall.run calls = .ok b)
    (h : b.build it es o = .ok hbg) (order : SetOrder) :
    ∃ pdg, generateMockPdgV2 order hbg = .ok pdg ∧ pdg.LinksFirstWrites hbg LinesDiffer := by
  have hlists := HBGBuilder.build_listsInstructions hb h
  obtain ⟨pdg, hpdg, -⟩ := generateMockPdgV2_spec order hlists.threads
  refine ⟨pdg, hpdg, hlists.linksFirstWrites fun w r => ?_⟩
  obtain ⟨b', hb', hgraph⟩ := bind_eq_ok.mp hpdg
  rw [PDG.ofGraph_eq_ok hgraph, foldlM_threads_hasEdge hlists.threads (fun _ => True)
    (fun _ _ _ _ hadd => ⟨trivial, addMockDependencies_hasEdge order hadd⟩) trivial hb']
  exact or_iff_right (Digraph.not_hasEdge_empty w r)

/-- A read, a write of its line and a write of another line. -/
def linkCalls : List BuilderCall :=
  [.addInstructionNode .read 0 1 0 8 .none none false false none,
    .addInstructionNode .write 0 2 8 8 .none none false false none,
    .addInstructionNode .write 0 2 64 8 .none none false false none]

def linkBuilder : HBGBuilder := (BuilderCall.run linkCalls).toOption.get (by rfl)

def linkGraph : HBG := (linkBuilder.build HBGBuilder.listTrees [] .default).toOption.get (by rfl)

theorem mock_links_first_writes_link : ∃ pdg, generateMockPdgV2 insertionOrder linkGraph = .ok pdg ∧
    pdg.LinksFirstWrites linkGraph LinesDiffer :=
  have hrun : BuilderCall.run linkCalls = .ok linkBuilder := rfl
  have hbuild : linkBuilder.build HBGBuilder.listTrees [] .default = .ok linkGraph := rfl
  mock_links_first_writes hrun hbuild insertionOrder

/-- The counters were given together, and the lines differ. -/
def PairedOnOtherLine (pairs : List (ℕ × ℕ)) (w r : InstructionNode) : Prop :=
  (w.pc, r.pc) ∈ pairs ∧ LinesDiffer w r

instance (pairs : List (ℕ × ℕ)) : DecidableRel (PairedOnOtherLine pairs) :=
  fun _ _ => inferInstanceAs (Decidable (_ ∧ _))

instance (pcs : ℕ → List ℕ) : DecidableRel (MatchesPcs pcs) :=
  fun _ _ => inferInstanceAs (Decidable (_ ∧ _))

/-- The access ends in the line that it starts in. -/
def InstructionNode.CrossesNoLine (n : InstructionNode) : Prop :=
  n.address % defaultCachelineSize + n.size ≤ defaultCachelineSize

instance (n : InstructionNode) : Decidable n.CrossesNoLine := inferInstanceAs (Decidable (_ ≤ _))

theorem intervalsDiffer_iff {w r : InstructionNode} (hw : w.CrossesNoLine) (hr : r.CrossesNoLine) :
    IntervalsDiffer w r ↔ LinesDiffer w r :=
  (not_congr (getCachelineInterval_eq_iff hw hr w.size_ne_zero r.size_ne_zero)).trans ne_comm

theorem mem_readPcs_pcBuilder {pairs : List (ℕ × ℕ)} {writePc readPc : ℕ} :
    readPc ∈ (pcBuilder pairs).readPcs writePc ↔ (writePc, readPc) ∈ pairs := by
  unfold pcBuilder
  induction pairs using List.reverseRecOn with
  | nil => simp [PDGBuilder.readPcs, PDGBuilder.new]
  | append_singleton pairs p ih =>
    obtain ⟨w, r⟩ := p
    rw [List.foldl_append, List.mem_append, ← ih, List.mem_singleton, Prod.mk.injEq]
    simp only [List.foldl_cons, List.foldl_nil, PDGBuilder.readPcs, PDGBuilder.addDependencyPc,
      Dict.getD_insert]
    split_ifs with hw
    · subst hw
      simp [or_comm]
    · simp [hw]

theorem keys_pcBuilder (pairs : List (ℕ × ℕ)) :
    (pcBuilder pairs).dependencies.keys = [] ↔ pairs = [] := by
  constructor
  · intro h
    cases pairs with
    | nil => rfl
    | cons p pairs =>
      have hmem : p.2 ∈ (pcBuilder (p :: pairs)).readPcs p.1 :=
        mem_readPcs_pcBuilder.mpr List.mem_cons_self
      have hkey : p.1 ∉ (pcBuilder (p :: pairs)).dependencies := by
        rw [AList.mem_keys, h]
        exact List.not_mem_nil
      unfold PDGBuilder.readPcs at hmem
      rw [Dict.getD_of_notMem hkey] at hmem
      cases hmem
  · intro h
    rw [h]
    rfl

/-- A builder that only knows program counters links the reads that its counters match. -/
theorem hasEdge_pcBuilder (hlists : hbg.ListsThreads) {pairs : List (ℕ × ℕ)} {order : SetOrder}
    {pdg : PDG} (hpdg : (pcBuilder pairs).build order hbg = .ok pdg) (w r : InstructionNode) :
    pdg.graph.HasEdge w r ↔ ∃ t ∈ hbg.tids, TakenBy StartsWaiting
      (Takes (MatchesPcs (pcBuilder pairs).readPcs)) (hbg.threadInstructions t) w r := by
  unfold PDGBuilder.build at hpdg
  split_ifs at hpdg with hkeys
  · rw [PDG.ofGraph_eq_ok hpdg, pcBuilder_graph]
    refine iff_of_false (Digraph.not_hasEdge_empty w r) fun htaken => ?_
    obtain ⟨t, -, htaken⟩ := htaken
    have hpair := mem_readPcs_pcBuilder.mp htaken.mem.1.2.1
    rw [(keys_pcBuilder pairs).mp hkeys] at hpair
    cases hpair
  · obtain ⟨_, -, hpdg⟩ := bind_eq_ok.mp hpdg
    obtain ⟨b', hb', hpdg⟩ := bind_eq_ok.mp hpdg
    rw [PDG.ofGraph_eq_ok hpdg, foldlM_threads_hasEdge hlists
      (fun b => b.dependencies = (pcBuilder pairs).dependencies)
      (fun _ _ _ hdep hadd => addPcDependencies_hasEdge order hdep hadd) rfl hb', pcBuilder_graph]
    exact or_iff_right (Digraph.not_hasEdge_empty w r)

/-- A build fails only for want of nodes. -/
theorem build_pcBuilder_eq_ok_iff (hlists : hbg.ListsThreads) {pairs : List (ℕ × ℕ)}
    (order : SetOrder) :
    (∃ pdg, (pcBuilder pairs).build order hbg = .ok pdg) ↔ pairs = [] ∨ hbg.nodes ≠ [] := by
  rw [← keys_pcBuilder]
  constructor
  · intro h
    obtain ⟨pdg, hpdg⟩ := h
    exact PDGBuilder.keys_or_nodes_of_build order hpdg
  · intro h
    have hbip : (pcBuilder pairs).Bipartite := by
      intro e he
      rw [pcBuilder_graph] at he
      cases he
    obtain ⟨-, pdg, hpdg, -⟩ := PDGBuilder.build_spec order hlists hbip h
    exact ⟨pdg, hpdg⟩

theorem build_pcBuilder_of_no_nodes {pairs : List (ℕ × ℕ)} (hp : pairs ≠ []) (hn : hbg.nodes = [])
    (order : SetOrder) : (pcBuilder pairs).build order hbg =
      .error (.assertionError "There are PC based dependencies, HBG is required") := by
  unfold PDGBuilder.build
  rw [if_neg ((keys_pcBuilder pairs).not.mpr hp), hn]
  rfl

theorem HBG.firstWriteAfter_congr {apart apart' : InstructionNode → InstructionNode → Prop}
    [DecidableRel apart] [DecidableRel apart'] {r : InstructionNode}
    (h : ∀ w, Node.instruction w ∈ hbg.nodes → w.itype = .write → (apart w r ↔ apart' w r)) :
    hbg.firstWriteAfter apart r = hbg.firstWriteAfter apart' r := by
  unfold firstWriteAfter
  refine List.find?_congr fun w hw => ?_
  have hmem : w ∈ hbg.threadInstructions r.tid :=
    mem_of_mem_after hw
  obtain ⟨hw, -⟩ := ListsInstructions.mem_threadInstructions.mp hmem
  rw [decide_eq_decide]
  exact and_congr_right (h w hw)

/-- Two results with the same dependencies, or the same exception. -/
def SameDependencies : Py PDG → Py PDG → Prop
  | .ok pdg, .ok pdg' => ∀ w r, pdg.graph.HasEdge w r ↔ pdg'.graph.HasEdge w r
  | .error e, .error e' => e = e'
  | _, _ => False

/-- Only the set of the given counters matters. -/
theorem sameDependencies_of_mem_iff (hlists : hbg.ListsInstructions) {pairs pairs' : List (ℕ × ℕ)}
    (hmem : ∀ p, p ∈ pairs' ↔ p ∈ pairs) (order order' : SetOrder) :
    SameDependencies ((pcBuilder pairs).build order hbg) ((pcBuilder pairs').build order' hbg) := by
  have hnil : pairs' = [] ↔ pairs = [] := by
    simp only [List.eq_nil_iff_forall_not_mem, hmem]
  by_cases hok : pairs = [] ∨ hbg.nodes ≠ []
  · obtain ⟨pdg, hpdg⟩ := (build_pcBuilder_eq_ok_iff hlists.threads order).mpr hok
    obtain ⟨pdg', hpdg'⟩ := (build_pcBuilder_eq_ok_iff hlists.threads order').mpr
      (hok.imp_left hnil.mpr)
    have htakes : Takes (MatchesPcs (pcBuilder pairs').readPcs) =
        Takes (MatchesPcs (pcBuilder pairs).readPcs) := by
      funext w r
      simp only [Takes, MatchesPcs, mem_readPcs_pcBuilder, hmem]
    rw [hpdg, hpdg']
    intro w r
    rw [hasEdge_pcBuilder hlists.threads hpdg, hasEdge_pcBuilder hlists.threads hpdg', htakes]
  · rw [not_or, not_not] at hok
    rw [build_pcBuilder_of_no_nodes hok.1 hok.2,
      build_pcBuilder_of_no_nodes (hnil.not.mpr hok.1) hok.2]
    rfl

/-- The dependencies by program counters give a read its first matching write on another line as
the only dependant, in whatever order they were given. -/
theorem pc_links_first_writes (hb : BuilderCall.run calls = .ok b)
    (h : b.build it es o = .ok hbg)
    (hline : ∀ n, Node.instruction n ∈ hbg.nodes → n.itype.isReadWriteType = true → n.CrossesNoLine)
    (pairs : List (ℕ × ℕ)) (order : SetOrder) :
    (∀ pdg, (pcBuilder pairs).build order hbg = .ok pdg →
      pdg.LinksFirstWrites hbg (PairedOnOtherLine pairs)) ∧
    ((∃ pdg, (pcBuilder pairs).build order hbg = .ok pdg) ↔ pairs = [] ∨ hbg.nodes ≠ []) ∧
    ∀ pairs' order', (∀ p, p ∈ pairs' ↔ p ∈ pairs) →
      SameDependencies ((pcBuilder pairs).build order hbg)
      ((pcBuilder pairs').build order' hbg) := by
  have hlists := HBGBuilder.build_listsInstructions hb h
  refine ⟨fun pdg hpdg => ?_, build_pcBuilder_eq_ok_iff hlists.threads order,
    fun pairs' order' hmem => sameDependencies_of_mem_iff hlists hmem order order'⟩
  have hmatches := hlists.linksFirstWrites (hasEdge_pcBuilder hlists.threads hpdg)
  have hsame (r w : InstructionNode) : hbg.IsRead r ∧
      hbg.firstWriteAfter (MatchesPcs (pcBuilder pairs).readPcs) r = some w ↔
        hbg.IsRead r ∧ hbg.firstWriteAfter (PairedOnOtherLine pairs) r = some w := by
    refine and_congr_right fun hr => ?_
    have hrline := hline r hr.1 (by simp [hr.2, NodeType.isReadWriteType])
    have hfirst : hbg.firstWriteAfter (MatchesPcs (pcBuilder pairs).readPcs) r =
        hbg.firstWriteAfter (PairedOnOtherLine pairs) r := by
      refine HBG.firstWriteAfter_congr fun x hx hi => ?_
      have hxline := hline x hx (by simp [hi, NodeType.isReadWriteType])
      exact and_congr mem_readPcs_pcBuilder (intervalsDiffer_iff hxline hrline)
    rw [hfirst]
  exact ⟨fun r w => (hmatches.dependants r w).trans (hsame r w),
    fun w r => (hmatches.dependencies w r).trans (hsame r w)⟩

theorem link_crossesNoLine : ∀ n, Node.instruction n ∈ linkGraph.nodes →
    n.itype.isReadWriteType = true → n.CrossesNoLine := by
  have hnodes : ∀ n ∈ linkGraph.nodes.filterMap Node.instruction?, n.CrossesNoLine := by
    decide
  intro n hn _
  exact hnodes n (mem_filterMap_instruction?.mpr hn)

theorem pc_links_first_writes_link :
    (∀ pdg, (pcBuilder [(2, 1)]).build insertionOrder linkGraph = .ok pdg →
      pdg.LinksFirstWrites linkGraph (PairedOnOtherLine [(2, 1)])) ∧
    ((∃ pdg, (pcBuilder [(2, 1)]).build insertionOrder linkGraph = .ok pdg) ↔
      [(2, 1)] = [] ∨ linkGraph.nodes ≠ []) ∧
    ∀ pairs' order', (∀ p, p ∈ pairs' ↔ p ∈ [(2, 1)]) →
      SameDependencies ((pcBuilder [(2, 1)]).build insertionOrder linkGraph)
        ((pcBuilder pairs').build order' linkGraph) :=
  have hrun : BuilderCall.run linkCalls = .ok linkBuilder := rfl
  have hbuild : linkBuilder.build HBGBuilder.listTrees [] .default = .ok linkGraph := rfl
  pc_links_first_writes hrun hbuild link_crossesNoLine [(2, 1)] insertionOrder

end Built

end Prd.Pycprd
