import Mathlib.Data.Rat.Init
import Mathlib.Algebra.Field.Rat
import Prd.Pycprd.FirstDependants

/-!
# The distance of a dependency graph from the mock graph

For every read the positions of its first dependants are compared. A read without
dependants has an infinite position. The mean is taken over the finite distances, and
raises when there are none.
-/
namespace Prd.Pycprd

open Prd.Foundation

/-- A difference of two positions that may be infinite. -/
inductive Distance
  | finite (d : ℤ)
  | inf
  | negInf
  | nan
  deriving DecidableEq, Repr

namespace Distance

/-- The difference `second - first`, where no position is an infinite one. -/
def between (second first : Option ℕ) : Distance :=
  match second, first with
  | some j, some i => finite ((j : ℤ) - i)
  | none, some _ => inf
  | some _, none => negInf
  | none, none => nan

def finite? : Distance → Option ℤ
  | finite d => some d
  | _ => none

def isInf : Distance → Bool
  | inf => true
  | negInf => true
  | _ => false

end Distance

/-- The exact mean. The error of an empty list is a kind of `ValueError`. -/
def mean (l : List ℤ) : Py ℚ :=
  if l = [] then throw .valueError else pure (l.sum / l.length)

def nodesOfType (itype : NodeType) (threadNodes : List Node) : List InstructionNode :=
  (threadNodes.filterMap Node.instruction?).filter fun n => n.itype = itype

def writeLocations (writeNodes : List InstructionNode) : Dict InstructionNode ℕ :=
  writeNodes.zipIdx.foldl (fun d w => d.insert w.1 w.2) ∅

/-- The least position of a dependant, or none for an infinite one. -/
def firstDependantWriteIndex (locations : Dict InstructionNode ℕ)
    (dependants : List InstructionNode) : Py (Option ℕ) := do
  let indexes ← dependants.mapM (pyGet locations)
  pure indexes.min?

/-- The body of the loop over the reads. -/
def readDistance (pdg1 pdg2 : PDG) (locations : Dict InstructionNode ℕ) (r : InstructionNode) :
    Py Distance := do
  let pdg1Index ← firstDependantWriteIndex locations (pdg1.getDependants r)
  let pdg2Index ← firstDependantWriteIndex locations (pdg2.getDependants r)
  pure (.between pdg2Index pdg1Index)

/-- The body of the loop over the threads. -/
def threadDistances (pdg1 pdg2 : PDG) (distancePerRead : Dict InstructionNode Distance)
    (threadNodes : List Node) : Py (Dict InstructionNode Distance) :=
  let locations := writeLocations (nodesOfType .write threadNodes)
  (nodesOfType .read threadNodes).foldlM (fun distances r => do
    let distance ← readDistance pdg1 pdg2 locations r
    pure (distances.insert r distance)) distancePerRead

structure Comparison where
  meanDistance : ℚ
  distancePerRead : Dict InstructionNode Distance
  missingDependants : ℕ

def pdgDistance (hbg : HBG) (pdg1 pdg2 : PDG) : Py Comparison := do
  let distancePerRead ← hbg.tids.foldlM (fun distances tid => do
    let threadNodes ← hbg.getThreadNodes tid
    threadDistances pdg1 pdg2 distances threadNodes) ∅
  let values := distancePerRead.entries.map fun e => e.2
  let distances := values.filterMap Distance.finite?
  pyAssert (distances.all fun v => 0 ≤ v)
    "There are negative distances when comparing to mock -mock must be optimal"
  let meanDistance ← mean distances
  let missingDependants := (values.filter Distance.isInf).length
  pure ⟨meanDistance, distancePerRead, missingDependants⟩

theorem writeLocations_append_singleton (l : List InstructionNode) (w : InstructionNode) :
    writeLocations (l ++ [w]) = (writeLocations l).insert w l.length := by
  unfold writeLocations
  rw [List.zipIdx_append, List.foldl_append]
  simp

theorem mem_writeLocations {l : List InstructionNode} {w : InstructionNode} :
    w ∈ writeLocations l ↔ w ∈ l := by
  induction l using List.reverseRecOn with
  | nil => rfl
  | append_singleton l x ih =>
    rw [writeLocations_append_singleton, AList.mem_insert, ih, List.mem_append,
      List.mem_singleton, or_comm]

/-- A write is located at its position among the writes. -/
theorem pyGet_writeLocations {l : List InstructionNode} (hnd : l.Nodup) {w : InstructionNode}
    (hw : w ∈ l) : pyGet (writeLocations l) w = .ok (l.idxOf w) := by
  rw [pyGet_eq (mem_writeLocations.mpr hw) 0]
  congr 1
  induction l using List.reverseRecOn with
  | nil => cases hw
  | append_singleton l x ih =>
    rw [writeLocations_append_singleton, Dict.getD_insert]
    split_ifs with hx
    · have hnot : w ∉ l := fun hmem =>
        List.disjoint_of_nodup_append hnd hmem (List.mem_singleton.mpr hx)
      rw [List.idxOf_append_of_notMem hnot, hx, List.idxOf_cons_self, Nat.add_zero]
    · have hmem : w ∈ l := (List.mem_append.mp hw).resolve_right fun hs =>
        hx (List.mem_singleton.mp hs)
      rw [ih hnd.of_append_left hmem, List.idxOf_append_of_mem hmem]

theorem mapM_eq_replicate {α β : Type} {f : α → Py β} {l : List α} {y : β}
    (h : ∀ x ∈ l, f x = .ok y) : l.mapM f = .ok (List.replicate l.length y) := by
  induction l with
  | nil => rfl
  | cons x l ih =>
    rw [List.mapM_cons, h x List.mem_cons_self, ih fun x' hx' => h x' (List.mem_cons_of_mem x hx')]
    rfl

/-- With a single dependant its position is the least one. -/
theorem firstDependantWriteIndex_eq {l : List InstructionNode} (hnd : l.Nodup)
    {dependants : List InstructionNode} {first : Option InstructionNode}
    (hdep : ∀ w, w ∈ dependants ↔ first = some w) (hmem : ∀ w, first = some w → w ∈ l) :
    firstDependantWriteIndex (writeLocations l) dependants = .ok (first.map l.idxOf) := by
  unfold firstDependantWriteIndex
  cases first with
  | none =>
    have hnil : dependants = [] := by
      rw [List.eq_nil_iff_forall_not_mem]
      intro w hw
      cases (hdep w).mp hw
    rw [hnil]
    rfl
  | some w =>
    have hone : ∀ x ∈ dependants, pyGet (writeLocations l) x = .ok (l.idxOf w) := by
      intro x hx
      obtain rfl := Option.some.inj ((hdep x).mp hx)
      exact pyGet_writeLocations hnd (hmem w rfl)
    have hlen : dependants.length ≠ 0 := by
      have hw : w ∈ dependants := (hdep w).mpr rfl
      exact (List.length_pos_of_mem hw).ne'
    rw [mapM_eq_replicate hone, ok_bind, List.min?_replicate, if_neg hlen]
    rfl

theorem mem_nodesOfType {itype : NodeType} {threadNodes : List Node} {n : InstructionNode} :
    n ∈ nodesOfType itype threadNodes ↔ Node.instruction n ∈ threadNodes ∧ n.itype = itype := by
  unfold nodesOfType
  rw [List.mem_filter, mem_filterMap_instruction?, decide_eq_true_eq]

theorem foldlM_insert_eq {f : InstructionNode → Py Distance} {v : InstructionNode → Distance}
    {reads : List InstructionNode} (h : ∀ r ∈ reads, f r = .ok (v r))
    (d : Dict InstructionNode Distance) :
    reads.foldlM (fun d r => do
      let x ← f r
      pure (d.insert r x)) d = .ok (Dict.fill reads v d) := by
  induction reads generalizing d with
  | nil => rfl
  | cons r reads ih =>
    rw [List.foldlM_cons, h r List.mem_cons_self]
    exact ih (fun r' hr' => h r' (List.mem_cons_of_mem r hr')) _

namespace HBG

variable {hbg : HBG}

/-- The writes of a thread in order. -/
def threadWrites (hbg : HBG) (t : ThreadId) : List InstructionNode :=
  nodesOfType .write (threadOf t hbg.nodes)

/-- The reads in the order in which their distances are taken. -/
def reads (hbg : HBG) : List InstructionNode :=
  hbg.tids.flatMap fun t => nodesOfType .read (threadOf t hbg.nodes)

/-- The difference of the positions of two first writes. -/
def distanceBetween (hbg : HBG) (apart₁ apart₂ : InstructionNode → InstructionNode → Prop)
    [DecidableRel apart₁] [DecidableRel apart₂] (r : InstructionNode) : Distance :=
  .between ((hbg.firstWriteAfter apart₂ r).map (hbg.threadWrites r.tid).idxOf)
    ((hbg.firstWriteAfter apart₁ r).map (hbg.threadWrites r.tid).idxOf)

namespace ListsInstructions

variable {apart₁ apart₂ : InstructionNode → InstructionNode → Prop} [DecidableRel apart₁]
  [DecidableRel apart₂] {mock pdg : PDG}

theorem mem_reads (h : hbg.ListsInstructions) {r : InstructionNode} :
    r ∈ hbg.reads ↔ hbg.IsRead r := by
  unfold reads
  simp only [List.mem_flatMap, mem_nodesOfType, mem_threadOf]
  constructor
  · intro hr
    obtain ⟨t, -, ⟨hmem, -⟩, hi⟩ := hr
    exact ⟨hmem, hi⟩
  · intro hr
    exact ⟨r.tid, h.tids _ hr.1, ⟨hr.1, rfl⟩, hr.2⟩

theorem nodup_nodesOfType (h : hbg.ListsInstructions) (itype : NodeType) (t : ThreadId) :
    (nodesOfType itype (threadOf t hbg.nodes)).Nodup :=
  (h.nodup_thread t).filter _

theorem nodup_reads (h : hbg.ListsInstructions) : hbg.reads.Nodup := by
  unfold reads
  rw [List.nodup_flatMap]
  refine ⟨fun t _ => h.nodup_nodesOfType .read t, ?_⟩
  have hts : hbg.tids.Nodup := AList.keys_nodup hbg.nodesByThread
  refine hts.imp fun hne r hr hr' => hne ?_
  rw [mem_nodesOfType, mem_threadOf] at hr hr'
  exact hr.1.2.symm.trans hr'.1.2

theorem mem_threadWrites_of_first {r w : InstructionNode}
    (hw : hbg.firstWriteAfter apart₁ r = some w) : w ∈ hbg.threadWrites r.tid := by
  have hmem := mem_of_mem_after (List.mem_of_find?_eq_some hw)
  have htrue := List.find?_some hw
  rw [decide_eq_true_eq] at htrue
  obtain ⟨hnode, ht⟩ := mem_threadInstructions.mp hmem
  exact mem_nodesOfType.mpr ⟨mem_threadOf.mpr ⟨hnode, ht⟩, htrue.1⟩

theorem firstDependantWriteIndex_eq (h : hbg.ListsInstructions)
    (hlinks : pdg.LinksFirstWrites hbg apart₁) {r : InstructionNode} (hr : hbg.IsRead r) :
    firstDependantWriteIndex (writeLocations (hbg.threadWrites r.tid)) (pdg.getDependants r) =
      .ok ((hbg.firstWriteAfter apart₁ r).map (hbg.threadWrites r.tid).idxOf) := by
  refine Pycprd.firstDependantWriteIndex_eq (h.nodup_nodesOfType .write r.tid) (fun w => ?_)
    fun w hw => mem_threadWrites_of_first hw
  rw [hlinks.dependants]
  exact and_iff_right hr

theorem readDistance_eq (h : hbg.ListsInstructions) (h₁ : mock.LinksFirstWrites hbg apart₁)
    (h₂ : pdg.LinksFirstWrites hbg apart₂) {r : InstructionNode} (hr : hbg.IsRead r) :
    readDistance mock pdg (writeLocations (hbg.threadWrites r.tid)) r =
      .ok (hbg.distanceBetween apart₁ apart₂ r) := by
  unfold readDistance
  rw [h.firstDependantWriteIndex_eq h₁ hr, h.firstDependantWriteIndex_eq h₂ hr]
  rfl

/-- The loops over threads and reads give every read its distance. -/
theorem foldlM_threadDistances (h : hbg.ListsInstructions) (h₁ : mock.LinksFirstWrites hbg apart₁)
    (h₂ : pdg.LinksFirstWrites hbg apart₂) :
    hbg.tids.foldlM (fun distances tid => do
      let threadNodes ← hbg.getThreadNodes tid
      threadDistances mock pdg distances threadNodes) ∅ =
        .ok (Dict.fill hbg.reads (hbg.distanceBetween apart₁ apart₂) ∅) := by
  have hthreads := h.threads
  unfold HBG.ListsThreads at hthreads
  unfold reads
  revert hthreads
  generalize hbg.tids = ts
  generalize (∅ : Dict InstructionNode Distance) = d
  intro hthreads
  induction ts generalizing d with
  | nil => rfl
  | cons t ts ih =>
    have hreads : ∀ r ∈ nodesOfType .read (threadOf t hbg.nodes),
        readDistance mock pdg (writeLocations (nodesOfType .write (threadOf t hbg.nodes))) r =
          .ok (hbg.distanceBetween apart₁ apart₂ r) := by
      intro r hr
      obtain ⟨hmem, hi⟩ := mem_nodesOfType.mp hr
      obtain ⟨hnode, rfl⟩ := mem_threadOf.mp hmem
      exact h.readDistance_eq h₁ h₂ ⟨hnode, hi⟩
    have hthread : threadDistances mock pdg d (threadOf t hbg.nodes) =
        .ok (Dict.fill (nodesOfType .read (threadOf t hbg.nodes))
          (hbg.distanceBetween apart₁ apart₂) d) := foldlM_insert_eq hreads d
    rw [List.foldlM_cons, hthreads t List.mem_cons_self, ok_bind, hthread, ok_bind,
      ih _ fun t' ht' => hthreads t' (List.mem_cons_of_mem t ht')]
    simp [Dict.fill]

/-- A graph that links for more reasons links no later. -/
theorem exists_first_of_imp (h : hbg.ListsInstructions) (himp : ∀ w r, apart₂ w r → apart₁ w r)
    {r w : InstructionNode} (hw : hbg.firstWriteAfter apart₂ r = some w) :
    ∃ x, hbg.firstWriteAfter apart₁ r = some x ∧
      (hbg.threadWrites r.tid).idxOf x ≤ (hbg.threadWrites r.tid).idxOf w := by
  obtain ⟨x, pre, post, hx, hsplit, hmem⟩ := exists_find?_of_imp
    (p := fun w : InstructionNode => decide (w.itype = NodeType.write ∧ apart₁ w r))
    (fun w hw => decide_eq_true ((of_decide_eq_true hw).imp_right (himp w r))) hw
  refine ⟨x, hx, ?_⟩
  obtain ⟨front, hfront⟩ := exists_append_after (hbg.threadInstructions r.tid) r
  have hxw : x.itype = .write := (mem_nodesOfType.mp (mem_threadWrites_of_first hx)).2
  have hww : w.itype = .write := (mem_nodesOfType.mp (mem_threadWrites_of_first hw)).2
  obtain ⟨l, hl⟩ : ∃ l, hbg.threadWrites r.tid =
      l ++ x :: post.filter fun n => decide (n.itype = .write) := by
    refine ⟨(front ++ pre).filter fun n => decide (n.itype = .write), ?_⟩
    show (hbg.threadInstructions r.tid).filter (fun n => decide (n.itype = .write)) = _
    rw [hfront, hsplit]
    simp [hxw]
  have hnd : (hbg.threadWrites r.tid).Nodup := h.nodup_nodesOfType .write r.tid
  rw [hl] at hnd ⊢
  have hwmem : w ∈ x :: post.filter fun n => decide (n.itype = .write) := by
    rcases List.mem_cons.mp hmem with rfl | hpost
    · exact List.mem_cons_self
    · exact List.mem_cons_of_mem x (List.mem_filter.mpr ⟨hpost, decide_eq_true hww⟩)
  have hdisj := List.disjoint_of_nodup_append hnd
  rw [List.idxOf_append_of_notMem fun hm => hdisj hm List.mem_cons_self, List.idxOf_cons_self,
    List.idxOf_append_of_notMem fun hm => hdisj hm hwmem]
  omega

/-- The distances to a graph that links for fewer reasons are not negative. -/
theorem nonneg_of_distanceBetween (h : hbg.ListsInstructions)
    (himp : ∀ w r, apart₂ w r → apart₁ w r) {r : InstructionNode} {d : ℤ}
    (hd : hbg.distanceBetween apart₁ apart₂ r = .finite d) : 0 ≤ d := by
  unfold distanceBetween at hd
  cases hw : hbg.firstWriteAfter apart₂ r with
  | none =>
    rw [hw] at hd
    cases hx : hbg.firstWriteAfter apart₁ r with
    | none => rw [hx] at hd; cases hd
    | some x => rw [hx] at hd; cases hd
  | some w =>
    obtain ⟨x, hx, hle⟩ := h.exists_first_of_imp himp hw
    rw [hw, hx] at hd
    cases hd
    exact Int.sub_nonneg_of_le (Int.ofNat_le.mpr hle)

/-- A distance is infinite when one of the graphs has a first write and the other has none. -/
theorem isInf_distanceBetween (r : InstructionNode) :
    (hbg.distanceBetween apart₁ apart₂ r).isInf =
      ((hbg.firstWriteAfter apart₁ r).isSome != (hbg.firstWriteAfter apart₂ r).isSome) := by
  unfold distanceBetween
  cases hbg.firstWriteAfter apart₁ r with
  | none =>
    cases hbg.firstWriteAfter apart₂ r with
    | none => rfl
    | some w => rfl
  | some x =>
    cases hbg.firstWriteAfter apart₂ r with
    | none => rfl
    | some w => rfl

theorem isSome_finite?_distanceBetween (r : InstructionNode) :
    (hbg.distanceBetween apart₁ apart₂ r).finite?.isSome =
      ((hbg.firstWriteAfter apart₁ r).isSome && (hbg.firstWriteAfter apart₂ r).isSome) := by
  unfold distanceBetween
  cases hbg.firstWriteAfter apart₁ r with
  | none =>
    cases hbg.firstWriteAfter apart₂ r with
    | none => rfl
    | some w => rfl
  | some x =>
    cases hbg.firstWriteAfter apart₂ r with
    | none => rfl
    | some w => rfl

end ListsInstructions

end HBG

/-- The read has a dependant in the graph. -/
def PDG.hasDependant (pdg : PDG) (r : InstructionNode) : Bool := pdg.getDependants r ≠ []

/-- What a comparison says of the reads: each has a distance, no finite one is negative, and those
linked in one graph only are counted. -/
structure Compares (hbg : HBG) (mock pdg : PDG) (c : Comparison) : Prop where
  reads : ∀ r, r ∈ c.distancePerRead ↔ hbg.IsRead r
  nonneg : ∀ r d, c.distancePerRead.lookup r = some (.finite d) → 0 ≤ d
  missing : c.missingDependants = (((hbg.nodes.filterMap Node.instruction?).filter fun r =>
    r.itype = .read).filter fun r => mock.hasDependant r != pdg.hasDependant r).length

namespace HBG.ListsInstructions

variable {hbg : HBG} {apart₁ apart₂ : InstructionNode → InstructionNode → Prop}
  [DecidableRel apart₁] [DecidableRel apart₂] {mock pdg : PDG}

theorem hasDependant_eq (hlinks : pdg.LinksFirstWrites hbg apart₁) {r : InstructionNode}
    (hr : hbg.IsRead r) : pdg.hasDependant r = (hbg.firstWriteAfter apart₁ r).isSome := by
  rw [Bool.eq_iff_iff, Option.isSome_iff_exists]
  unfold PDG.hasDependant
  rw [decide_eq_true_eq, ne_eq, List.eq_nil_iff_forall_not_mem]
  simp only [hlinks.dependants, hr, true_and, not_forall, not_not]

/-- The values of the filled table, the last one first. -/
theorem values_fill (h : hbg.ListsInstructions) (v : InstructionNode → Distance) :
    ((Dict.fill hbg.reads v ∅).entries.map fun e => e.2) = (hbg.reads.map v).reverse := by
  rw [Dict.entries_fill h.nodup_reads v fun _ _ => AList.notMem_empty _]
  simp [Function.comp_def]

/-- Counting over the table is counting over the reads of the graph. -/
theorem length_filter_reads (h : hbg.ListsInstructions) (p : InstructionNode → Bool) :
    (hbg.reads.filter p).length =
      (((hbg.nodes.filterMap Node.instruction?).filter fun r =>
        r.itype = .read).filter p).length := by
  refine (List.Perm.filter p ?_).length_eq
  rw [List.perm_ext_iff_of_nodup h.nodup_reads (h.nodup.filter _)]
  intro r
  rw [h.mem_reads, List.mem_filter, mem_filterMap_instruction?, decide_eq_true_eq]
  rfl

/-- The finite distances of a comparison, the last one first. -/
def finiteDistances (hbg : HBG) (apart₁ apart₂ : InstructionNode → InstructionNode → Prop)
    [DecidableRel apart₁] [DecidableRel apart₂] : List ℤ :=
  (hbg.reads.map (hbg.distanceBetween apart₁ apart₂)).reverse.filterMap Distance.finite?

theorem mem_finiteDistances {d : ℤ} : d ∈ finiteDistances hbg apart₁ apart₂ ↔
    ∃ r ∈ hbg.reads, hbg.distanceBetween apart₁ apart₂ r = .finite d := by
  unfold finiteDistances
  rw [List.mem_filterMap]
  constructor
  · intro h
    obtain ⟨v, hv, hd⟩ := h
    obtain ⟨r, hr, rfl⟩ := List.mem_map.mp (List.mem_reverse.mp hv)
    refine ⟨r, hr, ?_⟩
    generalize hbg.distanceBetween apart₁ apart₂ r = v at hd
    cases v with
    | finite e => cases hd; rfl
    | inf => cases hd
    | negInf => cases hd
    | nan => cases hd
  · intro h
    obtain ⟨r, hr, hd⟩ := h
    exact ⟨_, List.mem_reverse.mpr (List.mem_map_of_mem hr), by rw [hd]; rfl⟩

/-- A comparison with a graph that links for fewer reasons is decided by the mean. -/
theorem pdgDistance_eq (h : hbg.ListsInstructions) (h₁ : mock.LinksFirstWrites hbg apart₁)
    (h₂ : pdg.LinksFirstWrites hbg apart₂) (himp : ∀ w r, apart₂ w r → apart₁ w r) :
    pdgDistance hbg mock pdg = (do
      let meanDistance ← mean (finiteDistances hbg apart₁ apart₂)
      pure ⟨meanDistance, Dict.fill hbg.reads (hbg.distanceBetween apart₁ apart₂) ∅,
        (hbg.reads.filter fun r => (hbg.distanceBetween apart₁ apart₂ r).isInf).length⟩) := by
  have hassert : (finiteDistances hbg apart₁ apart₂).all (fun v => 0 ≤ v) = true := by
    rw [List.all_eq_true]
    intro d hd
    obtain ⟨r, -, hd⟩ := mem_finiteDistances.mp hd
    exact decide_eq_true (h.nonneg_of_distanceBetween himp hd)
  have hcount : ((hbg.reads.map (hbg.distanceBetween apart₁ apart₂)).reverse.filter
      Distance.isInf).length =
        (hbg.reads.filter fun r => (hbg.distanceBetween apart₁ apart₂ r).isInf).length := by
    rw [List.filter_reverse, List.length_reverse, List.filter_map, List.length_map]
    rfl
  unfold pdgDistance
  rw [h.foldlM_threadDistances h₁ h₂, ok_bind, h.values_fill, ← hcount]
  exact pyAssert_bind hassert _ _

/-- A comparison returns what it should exactly when the mean has a distance to be taken over. -/
theorem exists_compares_iff (h : hbg.ListsInstructions) (h₁ : mock.LinksFirstWrites hbg apart₁)
    (h₂ : pdg.LinksFirstWrites hbg apart₂) (himp : ∀ w r, apart₂ w r → apart₁ w r) :
    (∃ c, pdgDistance hbg mock pdg = .ok c ∧ Compares hbg mock pdg c) ↔
      ∃ r, hbg.IsRead r ∧ (hbg.firstWriteAfter apart₂ r).isSome = true := by
  rw [h.pdgDistance_eq h₁ h₂ himp]
  constructor
  · intro hc
    obtain ⟨c, hok, -⟩ := hc
    obtain ⟨m, hm, -⟩ := bind_eq_ok.mp hok
    unfold mean at hm
    split_ifs at hm with hnil
    obtain ⟨d, hd⟩ := List.exists_mem_of_ne_nil _ hnil
    obtain ⟨r, hr, hd⟩ := mem_finiteDistances.mp hd
    have hsome : (hbg.distanceBetween apart₁ apart₂ r).finite?.isSome = _ :=
      isSome_finite?_distanceBetween r
    rw [hd] at hsome
    exact ⟨r, h.mem_reads.mp hr, (Bool.and_eq_true_iff.mp hsome.symm).2⟩
  · intro hr
    obtain ⟨r, hr, hsome⟩ := hr
    obtain ⟨w, hw⟩ := Option.isSome_iff_exists.mp hsome
    obtain ⟨x, hx, -⟩ := h.exists_first_of_imp himp hw
    have hne : finiteDistances hbg apart₁ apart₂ ≠ [] := by
      have hd : hbg.distanceBetween apart₁ apart₂ r =
          .finite ((hbg.threadWrites r.tid).idxOf w - (hbg.threadWrites r.tid).idxOf x) := by
        unfold distanceBetween
        rw [hw, hx]
        rfl
      exact List.ne_nil_of_mem (mem_finiteDistances.mpr ⟨r, h.mem_reads.mpr hr, hd⟩)
    unfold mean
    rw [if_neg hne]
    refine ⟨_, rfl, ?_, ?_, ?_⟩
    · intro r
      rw [Dict.mem_fill, h.mem_reads]
      exact or_iff_left (AList.notMem_empty r)
    · intro r d hd
      have hmem : r ∈ Dict.fill hbg.reads (hbg.distanceBetween apart₁ apart₂) ∅ :=
        AList.lookup_isSome.mp (by rw [hd]; rfl)
      have hreads : r ∈ hbg.reads :=
        ((Dict.mem_fill _ _ _ _).mp hmem).resolve_right (AList.notMem_empty r)
      rw [Dict.lookup_eq_some_getD hmem .nan, Dict.getD_fill, if_pos hreads] at hd
      exact h.nonneg_of_distanceBetween himp (Option.some.inj hd)
    · show (hbg.reads.filter _).length = _
      rw [← h.length_filter_reads]
      congr 1
      refine List.filter_congr fun r hr => ?_
      have hread := h.mem_reads.mp hr
      rw [isInf_distanceBetween, hasDependant_eq h₁ hread, hasDependant_eq h₂ hread]

end HBG.ListsInstructions

/-- Some write comes after a read of its thread, with which its counter was given and which is on
another line. -/
def HBG.HasPairedWrite (hbg : HBG) (pairs : List (ℕ × ℕ)) : Prop :=
  ∃ r w, hbg.IsRead r ∧ w ∈ after (hbg.threadInstructions r.tid) r ∧ w.itype = .write ∧
    PairedOnOtherLine pairs w r

theorem HBG.hasPairedWrite_iff {hbg : HBG} {pairs : List (ℕ × ℕ)} : hbg.HasPairedWrite pairs ↔
    ∃ r, hbg.IsRead r ∧ (hbg.firstWriteAfter (PairedOnOtherLine pairs) r).isSome = true := by
  unfold HasPairedWrite firstWriteAfter
  refine exists_congr fun r => ?_
  rw [List.find?_isSome]
  constructor
  · intro h
    obtain ⟨w, hr, hw, hi, hp⟩ := h
    exact ⟨hr, w, hw, decide_eq_true ⟨hi, hp⟩⟩
  · intro h
    obtain ⟨hr, w, hw, hp⟩ := h
    exact ⟨w, hr, hw, of_decide_eq_true hp⟩

/-- A comparison with the mock graph returns, with no negative distance and the right count of
missing dependants, exactly when some read has a dependant: otherwise there is no mean. -/
theorem pdg_distance_total_iff {it : IntervalTreeApi} {calls : List BuilderCall} {b : HBGBuilder}
    {es : List (EpochNode × EpochNode)} {o : HBGBuilder.BuildOptions} {hbg : HBG}
    {order order' : SetOrder} {pairs : List (ℕ × ℕ)} {mock pdg : PDG}
    (hb : BuilderCall.run calls = .ok b) (h : b.build it es o = .ok hbg)
    (hline : ∀ n, Node.instruction n ∈ hbg.nodes → n.itype.isReadWriteType = true → n.CrossesNoLine)
    (hmock : generateMockPdgV2 order hbg = .ok mock)
    (hpdg : (pcBuilder pairs).build order' hbg = .ok pdg) :
    (∃ c, pdgDistance hbg mock pdg = .ok c ∧ Compares hbg mock pdg c) ↔
      hbg.HasPairedWrite pairs := by
  have hlists := HBGBuilder.build_listsInstructions hb h
  obtain ⟨mock', hmock', h₁⟩ := mock_links_first_writes hb h order
  obtain rfl := Except.ok.inj (hmock.symm.trans hmock')
  have h₂ := (pc_links_first_writes hb h hline pairs order').1 pdg hpdg
  rw [hlists.exists_compares_iff h₁ h₂ fun _ _ hp => hp.2, HBG.hasPairedWrite_iff]

def linkMock : PDG := (generateMockPdgV2 insertionOrder linkGraph).toOption.get (by rfl)

def linkPdg : PDG := ((pcBuilder [(2, 1)]).build insertionOrder linkGraph).toOption.get (by rfl)

theorem pdg_distance_total_iff_link :
    (∃ c, pdgDistance linkGraph linkMock linkPdg = .ok c ∧ Compares linkGraph linkMock linkPdg c) ↔
      linkGraph.HasPairedWrite [(2, 1)] :=
  have hrun : BuilderCall.run linkCalls = .ok linkBuilder := rfl
  have hbuild : linkBuilder.build HBGBuilder.listTrees [] .default = .ok linkGraph := rfl
  have hmock : generateMockPdgV2 insertionOrder linkGraph = .ok linkMock := rfl
  have hpdg : (pcBuilder [(2, 1)]).build insertionOrder linkGraph = .ok linkPdg := rfl
  pdg_distance_total_iff hrun hbuild link_crossesNoLine hmock hpdg

/-- The counter 5 of the writes is not in the trace. -/
def unlinkedPdg : PDG := ((pcBuilder [(5, 1)]).build insertionOrder linkGraph).toOption.get (by rfl)

/-- The comparison of a graph without dependencies has nothing to take the mean of. -/
theorem pdg_distance_raises : BuilderCall.run linkCalls = .ok linkBuilder ∧
    linkBuilder.build HBGBuilder.listTrees [] .default = .ok linkGraph ∧
    (∀ n, Node.instruction n ∈ linkGraph.nodes → n.itype.isReadWriteType = true → n.CrossesNoLine) ∧
    generateMockPdgV2 insertionOrder linkGraph = .ok linkMock ∧
    (pcBuilder [(5, 1)]).build insertionOrder linkGraph = .ok unlinkedPdg ∧
    pdgDistance linkGraph linkMock unlinkedPdg = .error .valueError :=
  ⟨rfl, rfl, link_crossesNoLine, rfl, rfl, rfl⟩

end Prd.Pycprd
