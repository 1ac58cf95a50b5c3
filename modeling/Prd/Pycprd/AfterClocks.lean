import Prd.Pycprd.RunReports

/-!
# Exactness of the happens-after clocks

The clock of a read dominates the location of a write exactly when the write is
ahead of it. A path with two inter-thread edges in a row is not followed by the
backward sweep, so the clock can miss a write that the read leads to.
-/
namespace Prd.Pycprd

open Prd.Foundation Relation

variable {hbg : HBG} {flags : Flags} {postorder : List Node}

/-- What the clock of a read answers for the location of a write. -/
theorem isHappensAfter_iff (h : hbg.WellFormed) {vcs : ReversedClocks Node} {i : Bool}
    {r w : InstructionNode} (hw : Node.instruction w ∈ hbg.nodes) (hi : w.itype = .write)
    (hsum : Summarizes Node.tid hbg.reversedStamp
      (vcs.getD (.instruction r) (.new r.tid)).epochAt
      (fun v => v.itype = .write ∧ (h.dag i).Ahead (.instruction r) v)) :
    (ReversedVectorClock.isHappensAfter (vcs.getD (.instruction r) (.new r.tid)) w.tid
        (ReversedEpoch.ofInt (hbg.index (.instruction w)))).1 = true ↔
      (h.dag i).Ahead (.instruction r) (.instruction w) := by
  have hle := hsum w.tid (ReversedEpoch.ofInt (hbg.index (.instruction w)))
    (ReversedEpoch.bot_lt _)
  refine decide_eq_true_iff.trans (hle.trans ?_)
  constructor
  · rintro ⟨v, ⟨-, hv⟩, ht, hstamp⟩
    obtain ⟨y, hy, hhops⟩ := hv
    have hvm : v ∈ hbg.nodes := hhops.point.2
    have hidx : hbg.index v ≤ hbg.index (.instruction w) := ReversedEpoch.ofInt_le.mp hstamp
    have hvw : (h.dag i).Le v (.instruction w) := ⟨hvm, hw, ht, hidx⟩
    rcases hvw.eq_or_lt with rfl | hlt
    · exact ⟨y, hy, hhops⟩
    · exact ThreadDag.Ahead.trans_lt ⟨y, hy, hhops⟩ hlt
  · intro ha
    exact ⟨.instruction w, ⟨hi, ha⟩, rfl, le_rfl⟩

section Built

variable {it : IntervalTreeApi} {b : HBGBuilder} {es : List (EpochNode × EpochNode)}
  {o : HBGBuilder.BuildOptions}

/-- The clock of a read is right about a write exactly when the read does not lead to it, or leads
to it without two inter-thread edges in a row, starting and ending inside the threads. -/
theorem after_clocks_exact_iff (hbuild : b.build it es o = .ok hbg)
    (hes : ∀ e, e ∈ es ↔ e ∈ b.edges) (hends : b.EndpointsAdded) (hdag : o.assertDag = true)
    (hpost : hbg.graph.IsTopological postorder.reverse) :
    ∃ vcs, buildHappensAfterVectorClocks hbg .default postorder = .ok vcs ∧
      ∀ r w loc, Node.instruction r ∈ hbg.nodes → Node.instruction w ∈ hbg.nodes →
        r.itype = .read → w.itype = .write → hbg.getNodeLocation (.instruction w) = .ok loc →
        (((ReversedVectorClock.isHappensAfter (vcs.getD (.instruction r) (.new r.tid)) loc.tid
              (ReversedEpoch.ofInt loc.tindex)).1 = true ↔
            hbg.graph.Reaches (.instruction r) (.instruction w)) ↔
          (hbg.graph.Reaches (.instruction r) (.instruction w) →
            ((HBGBuilder.build_wellFormed hbuild hes hends hdag).dag false).Ahead (.instruction r)
              (.instruction w))) := by
  have h := HBGBuilder.build_wellFormed hbuild hes hends hdag
  obtain ⟨vcs, hvcs, hsum⟩ := buildHappensAfterVectorClocks_spec h .default hpost
  refine ⟨vcs, hvcs, fun r w loc hr hw hri hwi hloc => ?_⟩
  rw [h.location _ hw] at hloc
  obtain rfl := Except.ok.inj hloc
  have hafter := isHappensAfter_iff h hw hwi (hsum _ hr hri)
  refine (iff_congr hafter Iff.rfl).trans ⟨fun he => he.mpr, fun hfollow => ⟨?_, hfollow⟩⟩
  exact fun ha => h.reach_reaches ha.reach

theorem after_clocks_exact_iff_relay :
    ∃ vcs, buildHappensAfterVectorClocks relayGraph .default relayTrace.nodes.reverse = .ok vcs ∧
      (((ReversedVectorClock.isHappensAfter (vcs.getD (.instruction sampleRead) (.new 0)) 2
            (ReversedEpoch.ofInt 1)).1 = true ↔
          relayGraph.graph.Reaches (.instruction sampleRead) (.instruction sampleWrite)) ↔
        (relayGraph.graph.Reaches (.instruction sampleRead) (.instruction sampleWrite) →
          (relay_built.wf.dag false).Ahead (.instruction sampleRead)
          (.instruction sampleWrite))) := by
  obtain ⟨vcs, hvcs, hall⟩ := after_clocks_exact_iff relay_built.build relay_built.edgeOrder
    relay_built.endpoints rfl relay_orders.postorder
  have hloc : relayGraph.getNodeLocation (.instruction sampleWrite) = .ok ⟨2, 1⟩ := rfl
  exact ⟨vcs, hvcs, hall sampleRead sampleWrite ⟨2, 1⟩ (by decide) (by decide) rfl
    rfl hloc⟩

/-- The read leads to the write, and its clock does not say so. -/
theorem relayed_write_not_after :
    ∃ vcs, buildHappensAfterVectorClocks relayGraph .default relayTrace.nodes.reverse = .ok vcs ∧
      relayGraph.getNodeLocation (.instruction sampleWrite) = .ok ⟨2, 1⟩ ∧
      relayGraph.graph.Reaches (.instruction sampleRead) (.instruction sampleWrite) ∧
      (ReversedVectorClock.isHappensAfter (vcs.getD (.instruction sampleRead) (.new 0)) 2
        (ReversedEpoch.ofInt 1)).1 = false :=
  ⟨_, rfl, rfl, relay_reaches, by decide⟩

end Built

end Prd.Pycprd
