import Prd.Foundation.Relay
import Prd.Foundation.Summary
import Prd.Pycprd.Detector
import Prd.Pycprd.HbgWellFormed

/-!
# What the backward sweep computes

The clock of a read summarizes the writes that are ahead of it: those reached by a
path that never follows two inter-thread edges in a row. An epoch node tells its
parents the state of its thread before it merges what it was told itself, so news
is not relayed through it.
-/
namespace Prd.Pycprd

open Prd.Foundation

/-- The epochs under which the clocks know a node. -/
def HBG.stamp (hbg : HBG) (n : Node) : Epoch := Epoch.ofInt (hbg.index n)

def HBG.reversedStamp (hbg : HBG) (n : Node) : ReversedEpoch := ReversedEpoch.ofInt (hbg.index n)

theorem Epoch.ofInt_le {a b : ℕ} : Epoch.ofInt a ≤ Epoch.ofInt b ↔ a ≤ b := WithBot.coe_le_coe

theorem Epoch.bot_lt (a : ℕ) : ⊥ < Epoch.ofInt a := WithBot.bot_lt_coe a

theorem ReversedEpoch.ofInt_le {a b : ℕ} : ReversedEpoch.ofInt a ≤ ReversedEpoch.ofInt b ↔ b ≤ a :=
  WithTop.coe_le_coe

theorem ReversedEpoch.bot_lt (a : ℕ) : ⊥ < ReversedEpoch.ofInt a := WithTop.coe_lt_top a

variable {hbg : HBG}

namespace HBG.WellFormed

theorem kids_eq_nil (h : hbg.WellFormed) (i : Bool) {n : Node} (hn : n.itype ≠ .epoch) :
    (h.dag i).kids n = [] := by
  refine List.eq_nil_iff_forall_not_mem.mpr (fun c hc => ?_)
  cases i with
  | true => cases hc
  | false => exact hn (h.inter n c (mem_interChildren.mp hc)).2.1

theorem not_mem_kids (h : hbg.WellFormed) (i : Bool) {n p : Node} (hn : n.itype ≠ .epoch) :
    n ∉ (h.dag i).kids p := by
  intro hc
  cases i with
  | true => cases hc
  | false => exact hn (h.inter p n (mem_interChildren.mp hc)).2.2

end HBG.WellFormed

/-- The next node of a backward sweep, and the nodes that were handled before it. -/
structure Backward (h : hbg.WellFormed) (i : Bool) (seen : List Node) (n : Node) : Prop where
  mem : n ∈ hbg.nodes
  notMem : n ∉ seen
  seen_of_step : ∀ y, (h.dag i).Step n y → y ∈ seen
  lt_of_seen : ∀ x ∈ seen, x.tid = n.tid → (h.dag i).Lt n x

theorem backward_of_split (h : hbg.WellFormed) (i : Bool) {order seen rest : List Node} {n : Node}
    (ht : hbg.graph.IsTopological order.reverse) (ho : order = seen ++ n :: rest) :
    Backward h i seen n := by
  have hrev : order.reverse = rest.reverse ++ n :: seen.reverse := by rw [ho]; simp
  have hmem : ∀ x, x ∈ order ↔ x ∈ hbg.nodes := by
    intro x
    rw [← List.mem_reverse, ht.mem_iff, h.mem_graph]
  have hn : n ∈ hbg.nodes := (hmem n).mp (by rw [ho]; simp)
  have hnotMem : n ∉ seen := by
    have hnd := List.nodup_reverse.mp ht.nodup
    rw [ho] at hnd
    exact fun hx => (List.disjoint_of_nodup_append hnd) hx List.mem_cons_self
  refine ⟨hn, hnotMem, ?_, ?_⟩
  · intro y hy
    exact List.mem_reverse.mp (ht.mem_of_reaches' hrev (h.step_reaches hy))
  · intro x hx hxt
    have hxn : x ∈ hbg.nodes := (hmem x).mp (by rw [ho]; simp [hx])
    have hcmp : (h.dag i).Le x n ∨ (h.dag i).Lt n x := ThreadDag.le_or_lt hxn hn hxt
    rcases hcmp with hle | hlt
    · rcases hle.eq_or_lt with rfl | hlt
      · exact absurd hx hnotMem
      · have hpre := ht.mem_of_reaches hrev (h.step_reaches (Or.inl hlt))
        have hnd := List.nodup_reverse.mp ht.nodup
        rw [ho] at hnd
        exact absurd (List.mem_cons_of_mem n (List.mem_reverse.mp hpre))
          ((List.disjoint_of_nodup_append hnd) hx)
    · exact hlt

/-- The state of the backward sweep after the nodes in `seen`. -/
structure HappensAfter (h : hbg.WellFormed) (i : Bool) (seen : List Node)
    (s : HappensAfterState) : Prop where
  tid : ∀ t, (s.vcPerThread.getD t (.new t)).tid = t
  thread : ∀ t, Summarizes Node.tid hbg.reversedStamp (s.vcPerThread.getD t (.new t)).epochAt
    (fun w => w.itype = .write ∧ ∃ x ∈ seen, x.tid = t ∧ (h.dag i).Hops x w)
  epoch : ∀ p, p ∉ seen → Summarizes Node.tid hbg.reversedStamp
    (s.vcPerEpochNode.getD p (.new p.tid)).epochAt
    (fun w => w.itype = .write ∧ ∃ c ∈ seen, c ∈ (h.dag i).kids p ∧ (h.dag i).Ahead c w)
  read : ∀ r ∈ seen, r.itype = .read → Summarizes Node.tid hbg.reversedStamp
    (s.vcPerReadNode.getD r (.new r.tid)).epochAt
    (fun w => w.itype = .write ∧ (h.dag i).Ahead r w)
  fresh : ∀ r, r ∉ seen → ∀ t, (s.vcPerReadNode.getD r (.new r.tid)).epochAt t = ⊥

theorem happensAfter_new (h : hbg.WellFormed) (i : Bool) : HappensAfter h i [] .new where
  tid := by intro t; simp [HappensAfterState.new]
  thread := by
    intro t
    exact Summarizes.bot (by simp [HappensAfterState.new]) (by simp)
  epoch := by
    intro p _
    exact Summarizes.bot (by simp [HappensAfterState.new]) (by simp)
  read := by intro r hr; cases hr
  fresh := by intro r _ t; simp [HappensAfterState.new]

section Step

variable {h : hbg.WellFormed} {i : Bool} {seen : List Node} {n : Node} {s : HappensAfterState}

/-- Before its turn the thread of a node knows what is ahead of the node. -/
theorem Backward.ahead_iff (hb : Backward h i seen n) (w : Node) :
    (∃ x ∈ seen, x.tid = n.tid ∧ (h.dag i).Hops x w) ↔ (h.dag i).Ahead n w := by
  constructor
  · rintro ⟨x, hx, ht, hw⟩
    exact ⟨x, hb.lt_of_seen x hx ht, hw⟩
  · rintro ⟨y, hlt, hw⟩
    exact ⟨y, hb.seen_of_step y (Or.inl hlt), hlt.2.2.1.symm, hw⟩

theorem exists_seen_append {Q : Node → Prop} :
    (∃ x ∈ seen ++ [n], Q x) ↔ (∃ x ∈ seen, Q x) ∨ Q n := by
  simp only [List.mem_append, List.mem_singleton]
  constructor
  · rintro ⟨x, hx | rfl, hq⟩
    · exact Or.inl ⟨x, hx, hq⟩
    · exact Or.inr hq
  · rintro (⟨x, hx, hq⟩ | hq)
    · exact ⟨x, Or.inl hx, hq⟩
    · exact ⟨n, Or.inr rfl, hq⟩

theorem reversedStamp_lt_of_ahead (hb : Backward h i seen n) (hs : HappensAfter h i seen s) :
    (s.vcPerThread.getD n.tid (.new n.tid)).epochAt n.tid < hbg.reversedStamp n := by
  by_contra hle
  obtain ⟨w, ⟨-, hw⟩, ht, hstamp⟩ :=
    (hs.thread n.tid n.tid _ (ReversedEpoch.bot_lt _)).mp (not_lt.mp hle)
  have hahead := (hb.ahead_iff w).mp hw
  have hlt := (h.dag_acyclic i).lt_of_reach hahead.reach ht.symm
  exact absurd (ReversedEpoch.ofInt_le.mp hstamp) (not_le.mpr hlt.2.2.2)

theorem epoch_append (hs : HappensAfter h i seen s)
    (hn : n.itype ≠ .epoch) (p : Node) (hp : p ∉ seen ++ [n]) :
    Summarizes Node.tid hbg.reversedStamp (s.vcPerEpochNode.getD p (.new p.tid)).epochAt
      (fun w => w.itype = .write ∧
        ∃ c ∈ seen ++ [n], c ∈ (h.dag i).kids p ∧ (h.dag i).Ahead c w) := by
  refine (hs.epoch p (fun hc => hp (List.mem_append_left _ hc))).congr (fun w => ?_)
  rw [exists_seen_append]
  have hkid : n ∉ (h.dag i).kids p := h.not_mem_kids i hn
  simp [hkid]

/-- A point that gets no mail adds nothing but itself. -/
theorem hops_append (hb : Backward h i seen n) (hkids : (h.dag i).kids n = []) (t : ThreadId)
    (w : Node) : (∃ x ∈ seen ++ [n], x.tid = t ∧ (h.dag i).Hops x w) ↔
      (∃ x ∈ seen, x.tid = t ∧ (h.dag i).Hops x w) ∨ n.tid = t ∧ n = w := by
  rw [exists_seen_append, ThreadDag.hops_iff hb.mem, hkids]
  constructor
  · rintro (hx | ⟨rfl, rfl | ⟨y, hlt, hy⟩ | ⟨c, hc, _⟩⟩)
    · exact Or.inl hx
    · exact Or.inr ⟨rfl, rfl⟩
    · exact Or.inl ((hb.ahead_iff w).mpr ⟨y, hlt, hy⟩)
    · cases hc
  · rintro (hx | ⟨rfl, rfl⟩)
    · exact Or.inl hx
    · exact Or.inr ⟨rfl, Or.inl rfl⟩

theorem happensAfter_idle (hb : Backward h i seen n) (hs : HappensAfter h i seen s)
    (hn : n.itype ≠ .write) (hr : n.itype ≠ .read) (hkids : (h.dag i).kids n = [])
    (hmail : ∀ p, n ∉ (h.dag i).kids p) : HappensAfter h i (seen ++ [n]) s where
  tid := hs.tid
  thread := by
    intro t
    refine (hs.thread t).congr (fun w => ?_)
    rw [hops_append hb hkids]
    constructor
    · rintro ⟨hw, hx⟩; exact ⟨hw, Or.inl hx⟩
    · rintro ⟨hw, hx | ⟨-, rfl⟩⟩
      · exact ⟨hw, hx⟩
      · exact absurd hw hn
  epoch := by
    intro p hp
    refine (hs.epoch p (fun hc => hp (List.mem_append_left _ hc))).congr (fun w => ?_)
    rw [exists_seen_append]
    simp [hmail p]
  read := by
    intro r hrs hri
    rcases List.mem_append.mp hrs with hrs | hrs
    · exact hs.read r hrs hri
    · rw [List.mem_singleton.mp hrs] at hri
      exact absurd hri hr
  fresh := by
    intro r hr
    exact hs.fresh r (fun hc => hr (List.mem_append_left _ hc))

variable {flags : Flags}

theorem happensAfterStep_write (hb : Backward h i seen n) (hs : HappensAfter h i seen s)
    (hn : n.itype = .write) :
    ∃ s', happensAfterStep hbg flags s n = .ok s' ∧ HappensAfter h i (seen ++ [n]) s' := by
  have hne : n.itype ≠ .epoch := by rw [hn]; exact NodeType.noConfusion
  have hepoch := epoch_append hs hne
  have hlt := reversedStamp_lt_of_ahead hb hs
  have htid := hs.tid n.tid
  refine ⟨⟨s.vcPerThread.insert n.tid
    ((s.vcPerThread.getD n.tid (.new n.tid)).setEpoch n.tid (hbg.reversedStamp n)),
    s.vcPerEpochNode, s.vcPerReadNode⟩, ?_, ?_⟩
  · unfold happensAfterStep
    simp only [hn, h.location n hb.mem, ok_bind]
    rw [AbstractVectorClock.addEpoch_eq (by rw [htid]; exact hlt), htid]
    rfl
  · refine ⟨?_, ?_, ?_, ?_, ?_⟩
    · intro t
      rw [Dict.getD_insert]
      split_ifs with ht
      · subst ht; exact htid
      · exact hs.tid t
    · intro t
      rw [Dict.getD_insert]
      split_ifs with ht
      · subst ht
        refine ((hs.thread n.tid).insert hlt.le
          (AbstractVectorClock.epochAt_setEpoch _ _ · _)).congr
          (fun w => ?_)
        rw [hops_append hb (h.kids_eq_nil i hne)]
        constructor
        · rintro (⟨hw, hx⟩ | rfl)
          · exact ⟨hw, Or.inl hx⟩
          · exact ⟨hn, Or.inr ⟨rfl, rfl⟩⟩
        · rintro ⟨hw, hx | ⟨-, rfl⟩⟩
          · exact Or.inl ⟨hw, hx⟩
          · exact Or.inr rfl
      · refine (hs.thread t).congr (fun w => ?_)
        rw [hops_append hb (h.kids_eq_nil i hne)]
        simp [Ne.symm ht]
    · exact hepoch
    · intro r hrs hri
      rcases List.mem_append.mp hrs with hrs | hrs
      · exact hs.read r hrs hri
      · rw [List.mem_singleton.mp hrs, hn] at hri
        cases hri
    · intro r hr
      exact hs.fresh r (fun hc => hr (List.mem_append_left _ hc))

theorem happensAfterStep_read (hb : Backward h i seen n) (hs : HappensAfter h i seen s)
    (hn : n.itype = .read) :
    ∃ s', happensAfterStep hbg flags s n = .ok s' ∧ HappensAfter h i (seen ++ [n]) s' := by
  have hne : n.itype ≠ .epoch := by rw [hn]; exact NodeType.noConfusion
  have hepoch := epoch_append hs hne
  have hcopy : ∀ t, ((s.vcPerReadNode.getD n (.new n.tid)).copyFrom
      (s.vcPerThread.getD n.tid (.new n.tid))).epochAt t =
        (s.vcPerThread.getD n.tid (.new n.tid)).epochAt t := by
    intro t
    refine AbstractVectorClock.epochAt_copyFrom ?_
    rw [hs.fresh n hb.notMem t]
    exact bot_le
  refine ⟨⟨s.vcPerThread, s.vcPerEpochNode, s.vcPerReadNode.insert n
    ((s.vcPerReadNode.getD n (.new n.tid)).copyFrom (s.vcPerThread.getD n.tid (.new n.tid)))⟩,
    ?_, ?_⟩
  · unfold happensAfterStep
    simp only [hn]
    rfl
  · refine ⟨hs.tid, ?_, hepoch, ?_, ?_⟩
    · intro t
      refine (hs.thread t).congr (fun w => ?_)
      rw [hops_append hb (h.kids_eq_nil i hne)]
      constructor
      · rintro ⟨hw, hx⟩; exact ⟨hw, Or.inl hx⟩
      · rintro ⟨hw, hx | ⟨-, rfl⟩⟩
        · exact ⟨hw, hx⟩
        · rw [hn] at hw; cases hw
    · intro r hrs hri
      rw [Dict.getD_insert]
      split_ifs with hrn
      · subst hrn
        refine ((hs.thread r.tid).congr_clock hcopy).congr (fun w => ?_)
        rw [hb.ahead_iff]
      · rcases List.mem_append.mp hrs with hrs | hrs
        · exact hs.read r hrs hri
        · exact absurd (List.mem_singleton.mp hrs) hrn
    · intro r hr t
      have hrn : r ≠ n := fun hc => hr (by simp [hc])
      rw [Dict.getD_insert, if_neg hrn]
      exact hs.fresh r (fun hc => hr (List.mem_append_left _ hc)) t

theorem epochAt_tellParents (vc : ReversedVectorClock) (parents : List Node)
    (clocks : ReversedClocks Node) (p : Node) (t : ThreadId) :
    ((tellParents vc parents clocks).getD p (.new p.tid)).epochAt t =
      if p ∈ parents then max ((clocks.getD p (.new p.tid)).epochAt t) (vc.epochAt t)
      else (clocks.getD p (.new p.tid)).epochAt t := by
  unfold tellParents
  induction parents generalizing clocks with
  | nil => simp
  | cons a parents ih =>
    rw [List.foldl_cons, ih, Dict.getD_insert]
    by_cases hpa : p = a
    · subst hpa; simp
    · simp [hpa]

/-- The clock of an epoch node's thread after it took in what later epoch nodes told the node. -/
theorem HappensAfter.thread_merged (hb : Backward h false seen n) (hs : HappensAfter h false seen s)
    (hn : n.itype = .epoch) : Summarizes Node.tid hbg.reversedStamp
      ((s.vcPerThread.getD n.tid (.new n.tid)).merge
        ((tellParents (s.vcPerThread.getD n.tid (.new n.tid)) (hbg.getInterParents n)
          s.vcPerEpochNode).getD n (.new n.tid))).epochAt
      (fun w => w.itype = .write ∧
        ∃ x ∈ seen ++ [n], x.tid = n.tid ∧ (h.dag false).Hops x w) := by
  have hself : n ∉ hbg.getInterParents n := fun hp =>
    absurd rfl ((h.dag false).kids_track (HBG.WellFormed.mem_interParents.mp hp))
  have hnw : ∀ {w : Node}, w.itype = .write → n ≠ w := by
    rintro w hw rfl
    rw [hn] at hw
    cases hw
  have hown : Summarizes Node.tid hbg.reversedStamp
      ((tellParents (s.vcPerThread.getD n.tid (.new n.tid)) (hbg.getInterParents n)
        s.vcPerEpochNode).getD n (.new n.tid)).epochAt
      (fun w => w.itype = .write ∧
        ∃ c ∈ seen, c ∈ (h.dag false).kids n ∧ (h.dag false).Ahead c w) :=
    (hs.epoch n hb.notMem).congr_clock (fun u => by rw [epochAt_tellParents, if_neg hself])
  refine (((hs.thread n.tid).sup hown).congr_clock
    (AbstractVectorClock.epochAt_merge _ _)).congr (fun w => ?_)
  rw [exists_seen_append, ThreadDag.hops_iff hb.mem]
  constructor
  · rintro (⟨hw, hx⟩ | ⟨hw, c, -, hc, hx⟩)
    · exact ⟨hw, Or.inl hx⟩
    · exact ⟨hw, Or.inr ⟨rfl, Or.inr (Or.inr ⟨c, hc, hx⟩)⟩⟩
  · rintro ⟨hw, hx | ⟨-, rfl | hx | ⟨c, hc, hx⟩⟩⟩
    · exact Or.inl ⟨hw, hx⟩
    · exact absurd rfl (hnw hw)
    · exact Or.inl ⟨hw, (hb.ahead_iff w).mpr hx⟩
    · exact Or.inr ⟨hw, c, hb.seen_of_step c (Or.inr hc), hc, hx⟩

/-- The clocks of the epoch nodes that have not had their turn, after one told its parents. -/
theorem HappensAfter.epoch_told (hb : Backward h false seen n) (hs : HappensAfter h false seen s)
    {p : Node} (hp : p ∉ seen ++ [n]) : Summarizes Node.tid hbg.reversedStamp
      ((tellParents (s.vcPerThread.getD n.tid (.new n.tid)) (hbg.getInterParents n)
        s.vcPerEpochNode).getD p (.new p.tid)).epochAt
      (fun w => w.itype = .write ∧
        ∃ c ∈ seen ++ [n], c ∈ (h.dag false).kids p ∧ (h.dag false).Ahead c w) := by
  have hparent : p ∈ hbg.getInterParents n ↔ n ∈ (h.dag false).kids p :=
    HBG.WellFormed.mem_interParents
  have hps : p ∉ seen := fun hc => hp (List.mem_append_left _ hc)
  by_cases hpar : p ∈ hbg.getInterParents n
  · refine (((hs.epoch p hps).sup (hs.thread n.tid)).congr_clock (fun u => ?_)).congr (fun w => ?_)
    · rw [epochAt_tellParents, if_pos hpar]
    · rw [exists_seen_append, hb.ahead_iff]
      simp only [hparent.mp hpar, true_and]
      rw [← and_or_left]
  · refine ((hs.epoch p hps).congr_clock (fun u => ?_)).congr (fun w => ?_)
    · rw [epochAt_tellParents, if_neg hpar]
    · rw [exists_seen_append]
      simp [mt hparent.mpr hpar]

theorem happensAfterStep_epoch (hb : Backward h false seen n) (hs : HappensAfter h false seen s)
    (hn : n.itype = .epoch) (hi : flags.ignoreInterThreadEdges = false) :
    ∃ s', happensAfterStep hbg flags s n = .ok s' ∧ HappensAfter h false (seen ++ [n]) s' := by
  refine ⟨_, by unfold happensAfterStep; simp only [hn, hi]; rfl, ?_, ?_, ?_, ?_, ?_⟩
  · intro t
    rw [Dict.getD_insert]
    split_ifs with ht
    · subst ht
      rw [AbstractVectorClock.tid_merge]
      exact hs.tid n.tid
    · exact hs.tid t
  · intro t
    rw [Dict.getD_insert]
    split_ifs with ht
    · subst ht
      exact hs.thread_merged hb hn
    · refine (hs.thread t).congr (fun w => ?_)
      rw [exists_seen_append]
      simp [Ne.symm ht]
  · intro p hp
    have hpn : p ≠ n := fun hc => hp (by simp [hc])
    rw [Dict.getD_erase, if_neg hpn]
    exact hs.epoch_told hb hp
  · intro r hrs hri
    rcases List.mem_append.mp hrs with hrs | hrs
    · exact hs.read r hrs hri
    · rw [List.mem_singleton.mp hrs, hn] at hri
      cases hri
  · intro r hr
    exact hs.fresh r (fun hc => hr (List.mem_append_left _ hc))

/-- The relation that a step computes under the flags: without the edges nothing is sent. -/
theorem happensAfterStep_spec (hb : Backward h flags.ignoreInterThreadEdges seen n)
    (hs : HappensAfter h flags.ignoreInterThreadEdges seen s) :
    ∃ s', happensAfterStep hbg flags s n = .ok s' ∧
      HappensAfter h flags.ignoreInterThreadEdges (seen ++ [n]) s' := by
  cases hn : n.itype with
  | write => exact happensAfterStep_write hb hs hn
  | read => exact happensAfterStep_read hb hs hn
  | flush =>
    have hne : n.itype ≠ .epoch := by rw [hn]; exact NodeType.noConfusion
    refine ⟨s, by unfold happensAfterStep; simp only [hn]; rfl, ?_⟩
    exact happensAfter_idle hb hs (by rw [hn]; exact NodeType.noConfusion)
      (by rw [hn]; exact NodeType.noConfusion) (h.kids_eq_nil _ hne)
      (fun p => h.not_mem_kids _ hne)
  | epoch =>
    cases hi : flags.ignoreInterThreadEdges with
    | false =>
      rw [hi] at hb hs
      exact happensAfterStep_epoch hb hs hn hi
    | true =>
      rw [hi] at hb hs
      refine ⟨s, by unfold happensAfterStep; simp only [hn, hi]; rfl, ?_⟩
      exact happensAfter_idle hb hs (by rw [hn]; exact NodeType.noConfusion)
        (by rw [hn]; exact NodeType.noConfusion) rfl (fun p => List.not_mem_nil)

end Step

/-- The clock of every read summarizes the writes ahead of it. -/
theorem buildHappensAfterVectorClocks_spec (h : hbg.WellFormed) (flags : Flags)
    {postorder : List Node} (ht : hbg.graph.IsTopological postorder.reverse) :
    ∃ vcs, buildHappensAfterVectorClocks hbg flags postorder = .ok vcs ∧
      ∀ r ∈ hbg.nodes, r.itype = .read →
        Summarizes Node.tid hbg.reversedStamp (vcs.getD r (.new r.tid)).epochAt
          (fun w => w.itype = .write ∧ (h.dag flags.ignoreInterThreadEdges).Ahead r w) := by
  obtain ⟨s, hs, hI⟩ := foldlM_invariant (happensAfter_new h flags.ignoreInterThreadEdges)
    (fun seen n rest s ho hs => happensAfterStep_spec (backward_of_split h _ ht ho) hs)
    (List.append_nil postorder).symm
  refine ⟨s.vcPerReadNode, ?_, ?_⟩
  · unfold buildHappensAfterVectorClocks
    rw [hs]
    rfl
  · intro r hr hri
    refine hI.read r ?_ hri
    rw [← List.mem_reverse, ht.mem_iff, h.mem_graph]
    exact hr

end Prd.Pycprd
