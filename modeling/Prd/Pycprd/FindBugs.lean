import Prd.Pycprd.HappensAfter

/-!
# What the search for races reports

The search at a dependent write reads three clocks: what its thread has seen and
what was persisted on the line of the read, and what happens after the read. Its
loop over a chain starts at the last persisted access and ends at the first write
after the read, and it misses no write that survives the checks.
-/
namespace Prd.Pycprd

open Prd.Foundation

/-- The input of a detector that finds every node of its dependencies in the graph. -/
structure Input (hbg : HBG) (pdg : PDG) : Prop where
  wf : hbg.WellFormed
  chains : hbg.daisyChains = some (hbg.nodes.foldl DaisyChains.addNode .new)
  oneLine : ∀ n, Node.instruction n ∈ hbg.nodes → n.InOneLine
  dependency : ∀ d r, r ∈ pdg.getDependencies d →
    Node.instruction d ∈ hbg.nodes ∧ Node.instruction r ∈ hbg.nodes ∧ d.itype = .write ∧
      r.itype = .read ∧ d.tid = r.tid ∧ d.getCachelineAddress ≠ r.getCachelineAddress

variable {hbg : HBG} {pdg : PDG} {flags : Flags}

/-- The events up to a clock, and those from a reversed clock on. -/
def HBG.UpTo (hbg : HBG) (clock : ThreadId → Epoch) (w : InstructionNode) : Prop :=
  hbg.stamp (.instruction w) ≤ clock w.tid

def HBG.From (hbg : HBG) (clock : ThreadId → ReversedEpoch) (w : InstructionNode) : Prop :=
  hbg.reversedStamp (.instruction w) ≤ clock w.tid

/-- The write passes the checks of the loop over a chain. -/
def Survives (flags : Flags) (r : InstructionNode) (persisted after : InstructionNode → Prop)
    (w : InstructionNode) : Prop :=
  w.isNonTemporal = false ∧ w.isIntervalOverlap r = true ∧
    ¬ (flags.ignorePersistedBeforeIndex = false ∧ persisted w) ∧
    ¬ (flags.ignoreHappensAfterIndex = false ∧ after w)

/-- The writes to a line by a thread. -/
def WritesTo (hbg : HBG) (line : Cacheline) (t : ThreadId) (w : InstructionNode) : Prop :=
  Node.instruction w ∈ hbg.nodes ∧ w.itype = .write ∧ w.getCachelineAddress = line ∧ w.tid = t

def earlier (hbg : HBG) (a b : InstructionNode) : Prop :=
  hbg.index (.instruction a) < hbg.index (.instruction b)

/-- A surviving write is reported, or only the first of its thread. -/
def Reported (hbg : HBG) (flags : Flags) (r : InstructionNode)
    (persisted after writes : InstructionNode → Prop) (w : InstructionNode) : Prop :=
  writes w ∧ Survives flags r persisted after w ∧
    (flags.showOnlyFirstBugInThread = true →
      ∀ v, writes v → earlier hbg v w → ¬ Survives flags r persisted after v)

/-- The verdict on a write. -/
def verdict (hbg : HBG) (flags : Flags) (persisted : ThreadId → Epoch)
    (after : ThreadId → ReversedEpoch) (seen : ThreadId → Epoch) (n : Node) : Verdict :=
  if flags.ignorePersistedBeforeIndex = false ∧ hbg.stamp n ≤ persisted n.tid then .skip
  else if flags.ignoreHappensAfterIndex = false ∧ hbg.reversedStamp n ≤ after n.tid then .stop
  else .report (decide (hbg.stamp n ≤ seen n.tid))

/-- Two pairs of clocks that no query tells apart. -/
structure ChainClocks.Same (c c' : ChainClocks) : Prop where
  seen : c.pvc.seen = c'.pvc.seen
  persisted : c.pvc.persisted = c'.pvc.persisted
  after : c.vc.epochAt = c'.vc.epochAt
  tid : c.pvc.lastSeen.tid = c'.pvc.lastSeen.tid

theorem ChainClocks.Same.refl (c : ChainClocks) : c.Same c := ⟨rfl, rfl, rfl, rfl⟩

theorem ChainClocks.Same.trans {a b c : ChainClocks} (h : a.Same b) (h' : b.Same c) : a.Same c :=
  ⟨h.seen.trans h'.seen, h.persisted.trans h'.persisted, h.after.trans h'.after, h.tid.trans h'.tid⟩

theorem ChainClocks.same_of {c : ChainClocks} {pvc : PersistencyVectorClock}
    {vc : ReversedVectorClock} (hp : pvc.SameEpochs c.pvc)
    (hv : ∀ t, vc.epochAt t = c.vc.epochAt t) :
    ChainClocks.Same ⟨pvc, vc⟩ c :=
  ⟨funext hp.seen, funext hp.persisted, funext hv, hp.tid⟩

theorem checkPersisted_spec (hbg : HBG) (flags : Flags) (n : Node) (c : ChainClocks) :
    (checkPersisted flags ⟨n.tid, hbg.index n⟩ c).1 =
        decide (flags.ignorePersistedBeforeIndex = false ∧ hbg.stamp n ≤ c.pvc.persisted n.tid) ∧
      (checkPersisted flags ⟨n.tid, hbg.index n⟩ c).2.SameEpochs c.pvc := by
  unfold checkPersisted
  cases flags.ignorePersistedBeforeIndex with
  | true => exact ⟨rfl, .refl _⟩
  | false => exact ⟨by simp; rfl, PersistencyVectorClock.sameEpochs_isEventPersisted _ _ _⟩

theorem checkAfter_spec (hbg : HBG) (flags : Flags) (n : Node) (c : ChainClocks) :
    (checkAfter flags ⟨n.tid, hbg.index n⟩ c).1 =
        decide (flags.ignoreHappensAfterIndex = false ∧
          hbg.reversedStamp n ≤ c.vc.epochAt n.tid) ∧
      ∀ t, (checkAfter flags ⟨n.tid, hbg.index n⟩ c).2.epochAt t = c.vc.epochAt t := by
  unfold checkAfter
  cases flags.ignoreHappensAfterIndex with
  | true => exact ⟨rfl, fun _ => rfl⟩
  | false => exact ⟨by simp; rfl, fun t => AbstractVectorClock.epochAt_hasReached _ _ t _⟩

theorem inspect_spec (hbg : HBG) (flags : Flags) (n : Node) (c : ChainClocks) :
    (inspect flags ⟨n.tid, hbg.index n⟩ c).1 =
        verdict hbg flags c.pvc.persisted c.vc.epochAt c.pvc.seen n ∧
      (inspect flags ⟨n.tid, hbg.index n⟩ c).2.Same c := by
  obtain ⟨hp, hpsame⟩ := checkPersisted_spec hbg flags n c
  obtain ⟨ha, hasame⟩ := checkAfter_spec hbg flags n c
  have hseen := PersistencyVectorClock.sameEpochs_isEventHappenedBefore
    (checkPersisted flags ⟨n.tid, hbg.index n⟩ c).2 n.tid (hbg.stamp n)
  unfold inspect verdict
  simp only [hp, ha, decide_eq_true_eq]
  split_ifs
  · exact ⟨rfl, ChainClocks.same_of hpsame (fun _ => rfl)⟩
  · exact ⟨rfl, ChainClocks.same_of hpsame hasame⟩
  · refine ⟨?_, ChainClocks.same_of (hseen.trans hpsame) hasame⟩
    have heq := hpsame.seen n.tid
    show Verdict.report (decide (hbg.stamp n ≤ PersistencyVectorClock.seen _ n.tid)) = _
    rw [heq]

/-- A write on another line makes a race with a read and its dependent. -/
theorem create_eq {r w d : InstructionNode} (hr : r.InOneLine) (hw : w.InOneLine)
    (hd : d.InOneLine) (ht : d.tid = r.tid) (hline : d.getCachelineAddress ≠ r.getCachelineAddress)
    (ho : w.isIntervalOverlap r = true) (hb : Option Bool) :
    PersistencyRace.create r w d hb = .ok ⟨r, w, d, hb⟩ := by
  have hsymm : ∀ a b : InstructionNode, a.isIntervalOverlap b = b.isIntervalOverlap a := by
    intro a b
    unfold InstructionNode.isIntervalOverlap
    rw [max_comm, min_comm]
  have hrd : r.isIntervalOverlap d = false := by
    by_contra hc
    exact hline (InstructionNode.line_eq_of_overlap hr hd (by simpa using hc)).symm
  have hwd : w.isIntervalOverlap d = false := by
    by_contra hc
    have h1 := InstructionNode.line_eq_of_overlap hw hd (by simpa using hc)
    exact hline (h1.symm.trans (InstructionNode.line_eq_of_overlap hw hr ho))
  unfold PersistencyRace.create
  rw [pyAssert_bind (beq_iff_eq.mpr ht.symm), pyAssert_bind (by rw [hsymm, ho]),
    pyAssert_bind (by rw [hrd]; rfl), pyAssert_bind (by rw [hwd]; rfl)]
  rfl

section Scan

variable (hin : Input hbg pdg) {r d : InstructionNode} (hdep : r ∈ pdg.getDependencies d)

/-- What the reports of a part of the search are, in terms of the clocks it read. -/
structure ScanResult (hbg : HBG) (flags : Flags) (r d : InstructionNode) (c c' : ChainClocks)
    (writes : InstructionNode → Prop) (races races' : PersistencyRaces) : Prop where
  same : c'.Same c
  reports : ∀ r' w d', races'.Reports r' w d' ↔ races.Reports r' w d' ∨ r' = r ∧ d' = d ∧
    Reported hbg flags r (hbg.UpTo c.pvc.persisted) (hbg.From c.vc.epochAt) writes w
  hb : ∀ x ∈ races'.races, x ∈ races.races ∨ x.readNode = r ∧ x.dependentNode = d ∧
    x.isWriteHbDependent =
      some (decide (hbg.stamp (.instruction x.writeNode) ≤ c.pvc.seen x.writeNode.tid))

theorem ScanResult.refl (c : ChainClocks) {writes : InstructionNode → Prop}
    {races : PersistencyRaces}
    (h : ∀ w, ¬ Reported hbg flags r (hbg.UpTo c.pvc.persisted) (hbg.From c.vc.epochAt) writes w) :
    ScanResult hbg flags r d c c writes races races where
  same := .refl c
  reports := by
    intro r' w d'
    simp [h w]
  hb := fun x hx => Or.inl hx

theorem ScanResult.of_same {c c₁ c' : ChainClocks} {writes : InstructionNode → Prop}
    {races races' : PersistencyRaces} (hc : c₁.Same c)
    (h : ScanResult hbg flags r d c₁ c' writes races races') :
    ScanResult hbg flags r d c c' writes races races' where
  same := h.same.trans hc
  reports := by
    rw [← hc.persisted, ← hc.after]
    exact h.reports
  hb := by
    rw [← hc.seen]
    exact h.hb

theorem ScanResult.of_iff {c c' : ChainClocks} {writes writes' : InstructionNode → Prop}
    {races races' : PersistencyRaces}
    (hw : ∀ w, Reported hbg flags r (hbg.UpTo c.pvc.persisted) (hbg.From c.vc.epochAt) writes w ↔
      Reported hbg flags r (hbg.UpTo c.pvc.persisted) (hbg.From c.vc.epochAt) writes' w)
    (h : ScanResult hbg flags r d c c' writes races races') :
    ScanResult hbg flags r d c c' writes' races races' where
  same := h.same
  reports := by
    intro r' w d'
    rw [h.reports, hw]
  hb := h.hb

variable {persisted after : InstructionNode → Prop} {w : InstructionNode}
  {chain : List InstructionNode}

theorem reported_cons_of_not_survives (hw : ¬ Survives flags r persisted after w)
    (v : InstructionNode) :
    Reported hbg flags r persisted after (· ∈ chain) v ↔
      Reported hbg flags r persisted after (· ∈ w :: chain) v := by
  constructor
  · rintro ⟨hv, hs, hfirst⟩
    refine ⟨List.mem_cons_of_mem w hv, hs, fun hf u hu huv => ?_⟩
    rcases List.mem_cons.mp hu with rfl | hu
    · exact hw
    · exact hfirst hf u hu huv
  · rintro ⟨hv, hs, hfirst⟩
    rcases List.mem_cons.mp hv with rfl | hv
    · exact absurd hs hw
    · exact ⟨hv, hs, fun hf u hu huv => hfirst hf u (List.mem_cons_of_mem w hu) huv⟩

theorem reported_cons_of_survives (hw : Survives flags r persisted after w)
    (hlater : ∀ v ∈ chain, earlier hbg w v) (v : InstructionNode) :
    Reported hbg flags r persisted after (· ∈ w :: chain) v ↔
      v = w ∨ flags.showOnlyFirstBugInThread = false ∧
        Reported hbg flags r persisted after (· ∈ chain) v := by
  constructor
  · rintro ⟨hv, hs, hfirst⟩
    rcases List.mem_cons.mp hv with rfl | hv
    · exact Or.inl rfl
    · right
      cases hf : flags.showOnlyFirstBugInThread with
      | true => exact absurd hw (hfirst hf w List.mem_cons_self (hlater v hv))
      | false => exact ⟨rfl, hv, hs, fun hc => nomatch hf.symm.trans hc⟩
  · rintro (rfl | ⟨hf, hv, hs, -⟩)
    · refine ⟨List.mem_cons_self, hw, fun _ u hu huv => ?_⟩
      rcases List.mem_cons.mp hu with rfl | hu
      · exact absurd huv (lt_irrefl _)
      · exact absurd huv (not_lt.mpr (le_of_lt (hlater u hu)))
    · exact ⟨List.mem_cons_of_mem w hv, hs, fun hc => nomatch hf.symm.trans hc⟩

/-- Everything later in the thread of a write after the read is after the read as well. -/
theorem not_survives_of_stop {clock : ThreadId → ReversedEpoch} {t : ThreadId} (hwt : w.tid = t)
    (hi : flags.ignoreHappensAfterIndex = false) (hw : hbg.From clock w) {v : InstructionNode}
    (hvt : v.tid = t) (hlt : earlier hbg w v) : ¬ Survives flags r persisted
    (hbg.From clock) v := by
  rintro ⟨-, -, -, hv⟩
  refine hv ⟨hi, ?_⟩
  unfold HBG.From
  rw [hvt, ← hwt]
  exact le_trans (ReversedEpoch.ofInt_le.mpr (le_of_lt hlt)) hw

theorem reports_addRace_write {races : PersistencyRaces} {label : Option Bool}
    {r' v d' : InstructionNode} :
    (races.addRace ⟨r, w, d, label⟩).Reports r' v d' ↔
      races.Reports r' v d' ∨ r' = r ∧ d' = d ∧ v = w := by
  rw [PersistencyRaces.reports_addRace]
  simp only [PersistencyRace.triple, Prod.mk.injEq]
  exact or_congr_right (and_congr_right fun _ => and_comm)

section AddRace

variable {c c' : ChainClocks} {races races' : PersistencyRaces}
  (hw : Survives flags r (hbg.UpTo c.pvc.persisted) (hbg.From c.vc.epochAt) w)
  (hlater : ∀ v ∈ chain, earlier hbg w v)

/-- The race of a write, labelled by the clocks that the search reads. -/
def labelled (hbg : HBG) (r w d : InstructionNode) (c : ChainClocks) : PersistencyRace :=
  ⟨r, w, d, some (decide (hbg.stamp (.instruction w) ≤ c.pvc.seen w.tid))⟩

theorem hb_addRace : ∀ x ∈ (races.addRace (labelled hbg r w d c)).races,
    x ∈ races.races ∨ x.readNode = r ∧ x.dependentNode = d ∧ x.isWriteHbDependent =
      some (decide (hbg.stamp (.instruction x.writeNode) ≤ c.pvc.seen x.writeNode.tid)) := by
  intro x hx
  rcases PersistencyRaces.mem_races_addRace hx with hx | rfl
  · exact Or.inl hx
  · exact Or.inr ⟨rfl, rfl, rfl⟩

include hw hlater in
/-- The search stops at the first write that survives. -/
theorem ScanResult.stop (hf : flags.showOnlyFirstBugInThread = true) :
    ScanResult hbg flags r d c c (· ∈ w :: chain) races (races.addRace (labelled hbg r w d c)) where
  same := .refl c
  reports := by
    intro r' v d'
    unfold labelled
    rw [reports_addRace_write, reported_cons_of_survives hw hlater, hf]
    simp
  hb := hb_addRace

include hw hlater in
/-- The search goes on with the writes after one that survives. -/
theorem ScanResult.cons (hf : flags.showOnlyFirstBugInThread = false)
    (h : ScanResult hbg flags r d c c' (· ∈ chain) (races.addRace (labelled hbg r w d c)) races') :
    ScanResult hbg flags r d c c' (· ∈ w :: chain) races races' where
  same := h.same
  reports := by
    intro r' v d'
    rw [h.reports, reported_cons_of_survives hw hlater, hf, labelled, reports_addRace_write,
      or_assoc, ← and_or_left, ← and_or_left]
    simp only [true_and]
  hb := by
    intro x hx
    rcases h.hb x hx with hx | hx
    · exact hb_addRace x hx
    · exact Or.inr hx

end AddRace

include hin hdep in
/-- The loop over a chain in order of its writes. -/
theorem scanChain_spec (flags : Flags) {t : ThreadId} (chain : List InstructionNode)
    (hchain : ∀ w ∈ chain, WritesTo hbg r.getCachelineAddress t w)
    (hsorted : chain.Pairwise (earlier hbg)) (c : ChainClocks) (races : PersistencyRaces) :
    ∃ c' races', scanChain hbg flags r d chain c races = .ok (c', races') ∧
      ScanResult hbg flags r d c c' (· ∈ chain) races races' := by
  induction chain generalizing c races with
  | nil => exact ⟨c, races, rfl, .refl c (fun w hw => nomatch hw.1)⟩
  | cons w chain ih =>
    obtain ⟨hlater, hsorted⟩ := List.pairwise_cons.mp hsorted
    obtain ⟨hwn, -, -, hwt⟩ := hchain w List.mem_cons_self
    have hchain' : ∀ v ∈ chain, WritesTo hbg r.getCachelineAddress t v :=
      fun v hv => hchain v (List.mem_cons_of_mem w hv)
    unfold scanChain
    by_cases hcand : (w.isNonTemporal || !w.isIntervalOverlap r) = true
    · rw [if_pos hcand]
      obtain ⟨c', races', hok, hres⟩ := ih hchain' hsorted c races
      refine ⟨c', races', hok, hres.of_iff (reported_cons_of_not_survives ?_)⟩
      rintro ⟨hnt, ho, -⟩
      rw [hnt, ho] at hcand
      cases hcand
    rw [if_neg hcand]
    obtain ⟨hnt, ho⟩ : w.isNonTemporal = false ∧ w.isIntervalOverlap r = true := by
      simpa using hcand
    rw [hin.wf.location _ hwn]
    simp only [ok_bind]
    obtain ⟨hv, hsame⟩ := inspect_spec hbg flags (.instruction w) c
    cases hi : inspect flags ⟨(Node.instruction w).tid, hbg.index (.instruction w)⟩ c with
    | mk v c₁ =>
      rw [hi] at hv hsame
      simp only at hv hsame ⊢
      unfold verdict at hv
      split_ifs at hv with hpers hafter
      · subst hv
        obtain ⟨c', races', hok, hres⟩ := ih hchain' hsorted c₁ races
        refine ⟨c', races', hok, (hres.of_same hsame).of_iff (reported_cons_of_not_survives ?_)⟩
        rintro ⟨-, -, hnp, -⟩
        exact hnp hpers
      · subst hv
        refine ⟨c₁, races, rfl, ScanResult.of_same hsame (.refl c₁ ?_)⟩
        rw [hsame.persisted, hsame.after]
        rintro v ⟨hv, hs, -⟩
        rcases List.mem_cons.mp hv with rfl | hv
        · exact hs.2.2.2 hafter
        · exact not_survives_of_stop hwt hafter.1 hafter.2 (hchain' v hv).2.2.2 (hlater v hv) hs
      · subst hv
        have hsurv : Survives flags r (hbg.UpTo c.pvc.persisted) (hbg.From c.vc.epochAt) w :=
          ⟨hnt, ho, hpers, hafter⟩
        obtain ⟨hdn, hrn, -, -, hdt, hline⟩ := hin.dependency d r hdep
        simp only [create_eq (hin.oneLine r hrn) (hin.oneLine w hwn) (hin.oneLine d hdn) hdt hline
          ho, ok_bind]
        cases hf : flags.showOnlyFirstBugInThread with
        | true =>
          have hstop : ScanResult hbg flags r d c c (· ∈ w :: chain) races
              (races.addRace (labelled hbg r w d c)) := .stop hsurv hlater hf
          exact ⟨c₁, _, rfl, hsame, hstop.reports, hstop.hb⟩
        | false =>
          obtain ⟨c', races', hok, hres⟩ :=
            ih hchain' hsorted c₁ (races.addRace (labelled hbg r w d c))
          exact ⟨c', races', hok, (hres.of_same hsame).cons hsurv hlater hf⟩

theorem sorted_accesses (h : hbg.WellFormed) (line : Cacheline) (t : ThreadId) {l : List Node}
    (hl : l.Sublist hbg.nodes) :
    ((DaisyChains.accesses line t l).filter DaisyChains.isWrite).Pairwise (earlier hbg) := by
  refine List.Pairwise.filter _ ?_
  refine ((h.pairwise_index t).sublist hl).filterMap _ ?_
  intro a a' haa b hb b' hb'
  obtain ⟨rfl, -, -, ht⟩ := DaisyChains.access_eq_some.mp hb
  obtain ⟨rfl, -, -, ht'⟩ := DaisyChains.access_eq_some.mp hb'
  exact haa ht ht'

theorem mem_writes {line : Cacheline} {t : ThreadId} {l : List Node} {w : InstructionNode} :
    w ∈ (DaisyChains.accesses line t l).filter DaisyChains.isWrite ↔
      Node.instruction w ∈ l ∧ w.itype = .write ∧ w.getCachelineAddress = line ∧ w.tid = t := by
  rw [List.mem_filter, DaisyChains.mem_accesses]
  unfold DaisyChains.isWrite
  constructor
  · rintro ⟨⟨hw, -, hl, ht⟩, hi⟩
    exact ⟨hw, beq_iff_eq.mp hi, hl, ht⟩
  · rintro ⟨hw, hi, hl, ht⟩
    exact ⟨⟨hw, by rw [hi]; rfl, hl, ht⟩, beq_iff_eq.mpr hi⟩

/-- Every component is empty or the stamp of an access to the line. -/
def Stamped (hbg : HBG) (line : Cacheline) (persisted : ThreadId → Epoch) : Prop :=
  ∀ t, persisted t = ⊥ ∨ ∃ y, Node.instruction y ∈ hbg.nodes ∧ y.itype.isReadWriteType = true ∧
    y.getCachelineAddress = line ∧ y.tid = t ∧ persisted t = hbg.stamp (.instruction y)

include hin in
/-- The scanned chain holds all writes but some that were persisted. -/
theorem chainToScan_spec (flags : Flags) {pvc : PersistencyVectorClock}
    (hst : Stamped hbg r.getCachelineAddress pvc.persisted) (t : ThreadId) :
    ∃ chain, chainToScan hbg flags (hbg.nodes.foldl DaisyChains.addNode .new) r pvc t = .ok chain ∧
      chain.Pairwise (earlier hbg) ∧
      (∀ w ∈ chain, WritesTo hbg r.getCachelineAddress t w) ∧
      ∀ w, WritesTo hbg r.getCachelineAddress t w → w ∉ chain →
        flags.ignorePersistedBeforeIndex = false ∧ hbg.UpTo pvc.persisted w := by
  have hwhole : ∃ chain, (hbg.nodes.foldl DaisyChains.addNode .new).getChainByThread t
      r.getCachelineAddress = .ok chain ∧ chain.Pairwise (earlier hbg) ∧
      ∀ w, w ∈ chain ↔ WritesTo hbg r.getCachelineAddress t w :=
    ⟨_, DaisyChains.getChainByThread_eq hin.wf.nodup t _,
      sorted_accesses hin.wf _ _ (List.Sublist.refl _), fun w => mem_writes⟩
  unfold chainToScan
  cases hi : flags.ignorePersistedBeforeIndex with
  | true =>
    obtain ⟨chain, hok, hsorted, hmem⟩ := hwhole
    exact ⟨chain, hok, hsorted, fun w hw => (hmem w).mp hw,
      fun w hw hc => absurd ((hmem w).mpr hw) hc⟩
  | false =>
    rcases hst t with hbot | ⟨y, hyn, hyi, hyl, hyt, hstamp⟩
    · have hnone : pvc.getPersistedEpoch t = none := hbot
      rw [if_neg Bool.false_ne_true, hnone]
      obtain ⟨chain, hok, hsorted, hmem⟩ := hwhole
      exact ⟨chain, hok, hsorted, fun w hw => (hmem w).mp hw,
        fun w hw hc => absurd ((hmem w).mpr hw) hc⟩
    · have hsome : pvc.getPersistedEpoch t = some (hbg.index (.instruction y)) := hstamp
      rw [if_neg Bool.false_ne_true, hsome]
      obtain ⟨pre, post, hsplit⟩ := List.append_of_mem hyn
      have hloc := hin.wf.getNodeByLocation_eq hyn
      rw [show (Node.instruction y).tid = t from hyt] at hloc
      have hchain := DaisyChains.getChainByNode_eq hin.wf.nodup hsplit hyi
      rw [hyl, hyt] at hchain
      have hcons : y :: DaisyChains.accesses r.getCachelineAddress t post =
          DaisyChains.accesses r.getCachelineAddress t (.instruction y :: post) := by
        unfold DaisyChains.accesses
        rw [List.filterMap_cons_some]
        exact DaisyChains.access_eq_some.mpr ⟨rfl, hyi, hyl, hyt⟩
      rw [hcons] at hchain
      have hsub : (Node.instruction y :: post).Sublist hbg.nodes := by
        rw [hsplit]
        exact List.sublist_append_right _ _
      simp only [hloc, ok_bind]
      refine ⟨_, hchain, sorted_accesses hin.wf _ _ hsub, ?_, ?_⟩
      · intro w hw
        obtain ⟨hwm, hw⟩ := mem_writes.mp hw
        exact ⟨hsub.subset hwm, hw⟩
      · intro w hw hnot
        have hpre : Node.instruction w ∈ pre := by
          have hmem := hw.1
          rw [hsplit] at hmem
          rcases List.mem_append.mp hmem with hmem | hmem
          · exact hmem
          · exact absurd (mem_writes.mpr ⟨hmem, hw.2⟩) hnot
        have hpair := hin.wf.pairwise_index t
        rw [hsplit] at hpair
        have hlt := (List.pairwise_append.mp hpair).2.2 _ hpre _ List.mem_cons_self hw.2.2.2 hyt
        refine ⟨trivial, ?_⟩
        unfold HBG.UpTo
        rw [hw.2.2.2, hstamp]
        exact Epoch.ofInt_le.mpr (le_of_lt hlt)

/-- The chain that is scanned gives the same reports as all writes of the thread. -/
theorem reported_iff_of_scanned {writes : InstructionNode → Prop} {chain : List InstructionNode}
    (hsub : ∀ w ∈ chain, writes w)
    (hskip : ∀ w, writes w → w ∉ chain → flags.ignorePersistedBeforeIndex = false ∧ persisted w)
    (v : InstructionNode) :
    Reported hbg flags r persisted after (· ∈ chain) v ↔
      Reported hbg flags r persisted after writes v := by
  have hns : ∀ w, writes w → w ∉ chain → ¬ Survives flags r persisted after w :=
    fun w hw hc hs => hs.2.2.1 (hskip w hw hc)
  constructor
  · rintro ⟨hv, hs, hfirst⟩
    refine ⟨hsub v hv, hs, fun hf u hu huv => ?_⟩
    by_cases hc : u ∈ chain
    · exact hfirst hf u hc huv
    · exact hns u hu hc
  · rintro ⟨hv, hs, hfirst⟩
    have hc : v ∈ chain := by
      by_contra hc
      exact hns v hv hc hs
    exact ⟨hc, hs, fun hf u hu huv => hfirst hf u (hsub u hu) huv⟩

include hin hdep in
/-- The loop over the threads reports, thread by thread, what survives. -/
theorem scanThreads_spec (flags : Flags) (tids : List ThreadId) (c : ChainClocks)
    (races : PersistencyRaces) (hst : Stamped hbg r.getCachelineAddress c.pvc.persisted) :
    ∃ c' races', scanThreads hbg flags (hbg.nodes.foldl DaisyChains.addNode .new) r d tids c races =
        .ok (c', races') ∧ c'.Same c ∧
      (∀ r' w d', races'.Reports r' w d' ↔ races.Reports r' w d' ∨ r' = r ∧ d' = d ∧
        w.tid ∈ tids ∧ Reported hbg flags r (hbg.UpTo c.pvc.persisted) (hbg.From c.vc.epochAt)
          (WritesTo hbg r.getCachelineAddress w.tid) w) ∧
      ∀ x ∈ races'.races, x ∈ races.races ∨ x.readNode = r ∧ x.dependentNode = d ∧
        x.isWriteHbDependent =
          some (decide (hbg.stamp (.instruction x.writeNode) ≤ c.pvc.seen x.writeNode.tid)) := by
  induction tids generalizing c races with
  | nil => exact ⟨c, races, rfl, .refl c, by simp, fun x hx => Or.inl hx⟩
  | cons t tids ih =>
    obtain ⟨chain, hok, hsorted, hwrites, hskip⟩ := chainToScan_spec hin flags hst t
    obtain ⟨c₁, races₁, hok₁, hres⟩ := scanChain_spec hin hdep flags chain hwrites hsorted c races
    have hst₁ : Stamped hbg r.getCachelineAddress c₁.pvc.persisted := by
      rw [hres.same.persisted]
      exact hst
    obtain ⟨c₂, races₂, hok₂, hsame, hrep, hhb⟩ := ih c₁ races₁ hst₁
    refine ⟨c₂, races₂, ?_, hsame.trans hres.same, ?_, ?_⟩
    · unfold scanThreads
      simp only [hok, hok₁, ok_bind]
      exact hok₂
    · intro r' w d'
      rw [hrep, hres.reports, hres.same.persisted, hres.same.after,
        reported_iff_of_scanned hwrites hskip, List.mem_cons]
      constructor
      · rintro ((hr | ⟨rfl, rfl, hw⟩) | ⟨rfl, rfl, ht, hw⟩)
        · exact Or.inl hr
        · have ht : w.tid = t := hw.1.2.2.2
          rw [ht]
          exact Or.inr ⟨rfl, rfl, Or.inl rfl, hw⟩
        · exact Or.inr ⟨rfl, rfl, Or.inr ht, hw⟩
      · rintro (hr | ⟨rfl, rfl, rfl | ht, hw⟩)
        · exact Or.inl (Or.inl hr)
        · exact Or.inl (Or.inr ⟨rfl, rfl, hw⟩)
        · exact Or.inr ⟨rfl, rfl, ht, hw⟩
    · intro x hx
      rcases hhb x hx with hx | hx
      · exact hres.hb x hx
      · rw [hres.same.seen] at hx
        exact Or.inr hx

end Scan

@[simp] theorem LineClocks.clock_setClock {κ : Type} [DecidableEq κ] (d : LineClocks κ) (k k' : κ)
    (tid : ThreadId) (line line' : Cacheline) (pvc : PersistencyVectorClock) :
    (d.setClock k line pvc).clock k' tid line' =
      if k' = k ∧ line' = line then pvc else d.clock k' tid line' := by
  unfold LineClocks.clock LineClocks.setClock
  rw [Dict.getD_insert]
  by_cases hk : k' = k
  · subst hk
    rw [if_pos rfl, Dict.getD_insert]
    simp
  · simp [hk]

namespace Findings

def pvc (s : Findings) (t : ThreadId) (line : Cacheline) : PersistencyVectorClock :=
  s.pvcPerThread.clock t t line

/-- The clock of what happens after a read. -/
def after (s : Findings) (r : InstructionNode) : ThreadId → ReversedEpoch :=
  (s.vcPerReadNode.getD (.instruction r) (.new r.tid)).epochAt

/-- The search for races only leaves default entries in the clocks. -/
structure SameClocks (s s' : Findings) : Prop where
  seen : ∀ t line, (s.pvc t line).seen = (s'.pvc t line).seen
  persisted : ∀ t line, (s.pvc t line).persisted = (s'.pvc t line).persisted
  tid : ∀ t line, (s.pvc t line).lastSeen.tid = (s'.pvc t line).lastSeen.tid
  after : ∀ r, s.after r = s'.after r

theorem SameClocks.refl (s : Findings) : s.SameClocks s :=
  ⟨fun _ _ => rfl, fun _ _ => rfl, fun _ _ => rfl, fun _ => rfl⟩

theorem SameClocks.trans {s s' s'' : Findings} (h : s.SameClocks s') (h' : s'.SameClocks s'') :
    s.SameClocks s'' :=
  ⟨fun t l => (h.seen t l).trans (h'.seen t l),
    fun t l => (h.persisted t l).trans (h'.persisted t l),
    fun t l => (h.tid t l).trans (h'.tid t l), fun r => (h.after r).trans (h'.after r)⟩

theorem SameClocks.of_setClock {s s' : Findings} {t : ThreadId} {line : Cacheline}
    {pvc : PersistencyVectorClock} (hs : s'.pvcPerThread = s.pvcPerThread.setClock t line pvc)
    (hseen : pvc.seen = (s.pvc t line).seen) (hpers : pvc.persisted = (s.pvc t line).persisted)
    (htid : pvc.lastSeen.tid = (s.pvc t line).lastSeen.tid) (hafter : ∀ r, s'.after r = s.after r) :
    s'.SameClocks s := by
  have hclock : ∀ t' line', s'.pvc t' line' =
      if t' = t ∧ line' = line then pvc else s.pvc t' line' := by
    intro t' line'
    unfold Findings.pvc
    rw [hs, LineClocks.clock_setClock]
  refine ⟨?_, ?_, ?_, hafter⟩
  all_goals
    intro t' line'
    rw [hclock]
    split_ifs with h
    · obtain ⟨rfl, rfl⟩ := h
      assumption
    · rfl

end Findings

/-- The triples that are reported, given what counts as persisted before a write and what
counts as happening after a read. -/
def RaceWith (hbg : HBG) (pdg : PDG) (flags : Flags)
    (persisted : Cacheline → InstructionNode → InstructionNode → Prop)
    (after : InstructionNode → InstructionNode → Prop) (r w d : InstructionNode) : Prop :=
  r ∈ pdg.getDependencies d ∧
    ¬ ((flags.ignoreReadNodePersistency = false ∧ flags.ignorePersistedBeforeIndex = false) ∧
      persisted r.getCachelineAddress r d) ∧
    Reported hbg flags r (persisted r.getCachelineAddress · d) (after r)
      (WritesTo hbg r.getCachelineAddress w.tid) w

/-- The triple is reported by a search that reads the clocks of `s`. -/
def RaceAt (hbg : HBG) (pdg : PDG) (flags : Flags) (s : Findings) : InstructionNode →
    InstructionNode → InstructionNode → Prop :=
  RaceWith hbg pdg flags (fun line y d => hbg.UpTo (s.pvc d.tid line).persisted y)
    (fun r w => hbg.From (s.after r) w)

/-- The read is dropped because it was persisted itself. -/
def ReadPersisted (hbg : HBG) (flags : Flags) (s : Findings) (r d : InstructionNode) : Prop :=
  (flags.ignoreReadNodePersistency = false ∧ flags.ignorePersistedBeforeIndex = false) ∧
    hbg.UpTo (s.pvc d.tid r.getCachelineAddress).persisted r

/-- The label of a race that a search with the clocks of `s` reports. -/
def LabelAt (hbg : HBG) (s : Findings) (x : PersistencyRace) : Prop :=
  x.isWriteHbDependent = some (decide (hbg.stamp (.instruction x.writeNode) ≤
    (s.pvc x.dependentNode.tid x.readNode.getCachelineAddress).seen x.writeNode.tid))

theorem RaceAt.congr {s s' : Findings} (h : s'.SameClocks s) (r w d : InstructionNode) :
    RaceAt hbg pdg flags s' r w d ↔ RaceAt hbg pdg flags s r w d := by
  unfold RaceAt
  simp only [h.persisted, h.after]

theorem LabelAt.congr {s s' : Findings} (h : s'.SameClocks s) (x : PersistencyRace) :
    LabelAt hbg s' x ↔ LabelAt hbg s x := by
  unfold LabelAt
  rw [h.seen]

section Search

theorem checkReadPersisted_spec (hbg : HBG) (flags : Flags) (s : Findings) (r d : InstructionNode) :
    ((checkReadPersisted flags ⟨(Node.instruction r).tid, hbg.index (.instruction r)⟩
        (s.pvc d.tid r.getCachelineAddress)).1 = true ↔ ReadPersisted hbg flags s r d) ∧
      (checkReadPersisted flags ⟨(Node.instruction r).tid, hbg.index (.instruction r)⟩
        (s.pvc d.tid r.getCachelineAddress)).2.SameEpochs (s.pvc d.tid r.getCachelineAddress) := by
  unfold checkReadPersisted ReadPersisted
  cases flags.ignoreReadNodePersistency with
  | true => exact ⟨by simp, .refl _⟩
  | false =>
    cases flags.ignorePersistedBeforeIndex with
    | true => exact ⟨by simp, .refl _⟩
    | false =>
      refine ⟨?_, PersistencyVectorClock.sameEpochs_isEventPersisted _ _ _⟩
      simp only [and_self, true_and]
      exact decide_eq_true_iff

variable (hin : Input hbg pdg) {d : InstructionNode}

include hin in
theorem scanRead_spec (flags : Flags) {r : InstructionNode} (hdep : r ∈ pdg.getDependencies d)
    (s : Findings)
    (hst : Stamped hbg r.getCachelineAddress (s.pvc d.tid r.getCachelineAddress).persisted) :
    ∃ s', scanRead hbg flags d s r = .ok s' ∧ s'.SameClocks s ∧
      (∀ r' w d', s'.races.Reports r' w d' ↔ s.races.Reports r' w d' ∨
        r' = r ∧ d' = d ∧ RaceAt hbg pdg flags s r' w d') ∧
      ∀ x ∈ s'.races.races, x ∈ s.races.races ∨ x.dependentNode = d ∧ LabelAt hbg s x := by
  obtain ⟨-, hrn, -, -, -, hline⟩ := hin.dependency d r hdep
  obtain ⟨hp, hpsame⟩ := checkReadPersisted_spec hbg flags s r d
  have hseen := funext hpsame.seen
  have hpers := funext hpsame.persisted
  unfold scanRead
  rw [pyAssert_bind (bne_iff_ne.mpr (Ne.symm hline)), hin.wf.location _ hrn, hin.chains]
  simp only [ok_bind]
  simp only [show ∀ t line, s.pvcPerThread.clock t t line = s.pvc t line from fun _ _ => rfl]
  by_cases hread : ReadPersisted hbg flags s r d
  · rw [if_pos (hp.mpr hread)]
    refine ⟨_, rfl, .of_setClock rfl hseen hpers hpsame.tid (fun _ => rfl), ?_,
      fun x hx => Or.inl hx⟩
    intro r' w d'
    constructor
    · exact Or.inl
    · rintro (hr | ⟨rfl, rfl, -, hn, -⟩)
      · exact hr
      · exact absurd hread hn
  · rw [if_neg (fun hc => hread (hp.mp hc))]
    obtain ⟨c', races', hok, hsame, hrep, hhb⟩ := scanThreads_spec hin hdep flags hbg.tids
      ⟨(checkReadPersisted flags ⟨(Node.instruction r).tid, hbg.index (.instruction r)⟩
        (s.pvc d.tid r.getCachelineAddress)).2,
        s.vcPerReadNode.getD (.instruction r) (.new r.tid)⟩ s.races
      (by simp only [hpers]; exact hst)
    have hafter : ∀ r', Findings.after ⟨s.pvcPerThread.setClock d.tid r.getCachelineAddress c'.pvc,
        s.vcPerReadNode.insert (.instruction r) c'.vc, races',
        s.raceCounterDroppedByReadPersistency⟩ r' = s.after r' := by
      intro r'
      unfold Findings.after
      rw [Dict.getD_insert]
      split_ifs with hr
      · cases hr
        exact hsame.after
      · rfl
    rw [hok]
    refine ⟨_, rfl, .of_setClock rfl (hsame.seen.trans hseen) (hsame.persisted.trans hpers)
      (hsame.tid.trans hpsame.tid) hafter, ?_, ?_⟩
    · intro r' w d'
      rw [hrep]
      refine or_congr_right ⟨?_, ?_⟩
      · rintro ⟨rfl, rfl, -, hw⟩
        simp only [hpers] at hw
        exact ⟨rfl, rfl, hdep, hread, hw⟩
      · rintro ⟨rfl, rfl, -, -, hw⟩
        refine ⟨rfl, rfl, (hin.wf.mem_tids _).mpr ⟨_, hw.1.1, rfl⟩, ?_⟩
        simp only [hpers]
        exact hw
    · intro x hx
      rcases hhb x hx with hx | ⟨hxr, hxd, hx⟩
      · exact Or.inl hx
      · refine Or.inr ⟨hxd, ?_⟩
        unfold LabelAt
        rw [hx, hxd, hxr]
        simp only [hseen]

include hin in
theorem scanReads_spec (flags : Flags) (reads : List InstructionNode)
    (hreads : ∀ r ∈ reads, r ∈ pdg.getDependencies d) (s : Findings)
    (hst : ∀ line, Stamped hbg line (s.pvc d.tid line).persisted) :
    ∃ s', reads.foldlM (scanRead hbg flags d) s = .ok s' ∧ s'.SameClocks s ∧
      (∀ r w d', s'.races.Reports r w d' ↔ s.races.Reports r w d' ∨
        r ∈ reads ∧ d' = d ∧ RaceAt hbg pdg flags s r w d') ∧
      ∀ x ∈ s'.races.races, x ∈ s.races.races ∨ x.dependentNode = d ∧ LabelAt hbg s x := by
  induction reads generalizing s with
  | nil => exact ⟨s, rfl, .refl s, by simp, fun x hx => Or.inl hx⟩
  | cons r reads ih =>
    obtain ⟨s₁, hok₁, hsame₁, hrep₁, hhb₁⟩ :=
      scanRead_spec hin flags (hreads r List.mem_cons_self) s (hst _)
    have hst₁ : ∀ line, Stamped hbg line (s₁.pvc d.tid line).persisted := by
      intro line
      rw [hsame₁.persisted]
      exact hst line
    obtain ⟨s₂, hok₂, hsame₂, hrep₂, hhb₂⟩ :=
      ih (fun r hr => hreads r (List.mem_cons_of_mem _ hr)) s₁ hst₁
    refine ⟨s₂, ?_, hsame₂.trans hsame₁, ?_, ?_⟩
    · rw [List.foldlM_cons, hok₁]
      exact hok₂
    · intro r' w d'
      rw [hrep₂, hrep₁, RaceAt.congr hsame₁, List.mem_cons, or_assoc, ← or_and_right]
    · intro x hx
      rcases hhb₂ x hx with hx | hx
      · exact hhb₁ x hx
      · rw [LabelAt.congr hsame₁] at hx
        exact Or.inr hx

include hin in
/-- The search at a write reports exactly the races that its clocks show. -/
theorem findBugs_spec (flags : Flags) (s : Findings)
    (hst : ∀ line, Stamped hbg line (s.pvc d.tid line).persisted) :
    ∃ s', findBugs hbg pdg flags s d = .ok s' ∧ s'.SameClocks s ∧
      (∀ r w d', s'.races.Reports r w d' ↔ s.races.Reports r w d' ∨
        d' = d ∧ RaceAt hbg pdg flags s r w d') ∧
      ∀ x ∈ s'.races.races, x ∈ s.races.races ∨ x.dependentNode = d ∧ LabelAt hbg s x := by
  obtain ⟨s', hok, hsame, hrep, hhb⟩ :=
    scanReads_spec hin flags (pdg.getDependencies d) (fun r hr => hr) s hst
  refine ⟨s', hok, hsame, ?_, hhb⟩
  intro r w d'
  rw [hrep]
  refine or_congr_right ⟨And.right, ?_⟩
  rintro ⟨rfl, hrace⟩
  exact ⟨hrace.1, rfl, hrace⟩

end Search

end Prd.Pycprd
