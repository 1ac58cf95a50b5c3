import Prd.Pycprd.RunReports

/-!
# The ablation flags

An ignore flag only ever takes a reason away for which a write would be dropped, so
more flags give more races. Showing only the first bug of a thread keeps one race of
every group of a read, a dependent write and a thread.
-/
namespace Prd.Pycprd

open Prd.Foundation Relation

namespace Flags

/-- Every ignore flag of `f` is set in `g` as well. -/
structure Le (f g : Flags) : Prop where
  ignoreInterThreadEdges : f.ignoreInterThreadEdges = true → g.ignoreInterThreadEdges = true
  ignoreFlushNodes : f.ignoreFlushNodes = true → g.ignoreFlushNodes = true
  ignorePersistedBeforeIndex :
    f.ignorePersistedBeforeIndex = true → g.ignorePersistedBeforeIndex = true
  ignoreHappensAfterIndex : f.ignoreHappensAfterIndex = true → g.ignoreHappensAfterIndex = true
  ignoreReadNodePersistency :
    f.ignoreReadNodePersistency = true → g.ignoreReadNodePersistency = true

def showOnlyFirst (f : Flags) : Flags := { f with showOnlyFirstBugInThread := true }

theorem eq_false_of_imp {x y : Bool} (h : x = true → y = true) (hy : y = false) : x = false := by
  cases x with
  | false => rfl
  | true => rw [h rfl] at hy; cases hy

end Flags

variable {hbg : HBG} {pdg : PDG} {f g : Flags} {line : Cacheline} {y x : Node}

section Spreading

/-- Without inter-thread edges less is known. -/
theorem knows_of_ignored (h : hbg.WellFormed) {i j : Bool} (hij : i = true → j = true)
    {news : Node → Prop} (hk : (h.dag j).Knows news y x) : (h.dag i).Knows news y x := by
  cases j with
  | false => rwa [Flags.eq_false_of_imp hij rfl]
  | true =>
    induction hk with
    | self hn hp => exact .self hn hp
    | later _ hle ih => exact .later ih hle
    | told _ ht _ => exact absurd ht.mem List.not_mem_nil

theorem knowsLate_of_ignored (h : hbg.WellFormed) {i j : Bool} (hij : i = true → j = true)
    {news : Node → Prop} (hk : (h.dag j).KnowsLate news y x) : (h.dag i).KnowsLate news y x := by
  cases j with
  | false => rwa [Flags.eq_false_of_imp hij rfl]
  | true =>
    induction hk with
    | self hn hp => exact .self hn hp
    | later _ hle ih => exact .later ih hle
    | told _ _ ht _ => exact absurd ht.mem List.not_mem_nil

theorem ahead_of_ignored (h : hbg.WellFormed) {i j : Bool} (hij : i = true → j = true)
    (ha : (h.dag j).Ahead y x) : (h.dag i).Ahead y x := by
  cases j with
  | false => rwa [Flags.eq_false_of_imp hij rfl]
  | true =>
    obtain ⟨z, hlt, hz⟩ := ha
    refine ⟨z, hlt, ?_⟩
    clear hlt
    induction hz with
    | stay hp => exact .stay hp
    | later hlt _ ih => exact .later hlt ih
    | sent hc _ _ _ => exact absurd hc List.not_mem_nil

/-- How news spreads in one of the two versions of a run. -/
def knowsOf (h : hbg.WellFormed) (useFasterVersion : Bool) (flags : Flags) : Spread :=
  if useFasterVersion then FastKnows h flags else PlainKnows h flags

theorem knowsOf_of_ignored (h : hbg.WellFormed) {useFasterVersion : Bool} (hfg : f.Le g)
    (hnews : f.isNews = g.isNews) (hk : knowsOf h useFasterVersion g line y x) :
    knowsOf h useFasterVersion f line y x := by
  cases useFasterVersion with
  | true =>
    show (h.dag f.ignoreInterThreadEdges).Knows (Node.On f.isNews line) y x
    rw [hnews]
    exact knows_of_ignored h hfg.ignoreInterThreadEdges hk
  | false =>
    show (h.dag f.ignoreInterThreadEdges).KnowsLate (Node.On f.isNews line) y x
    rw [hnews]
    exact knowsLate_of_ignored h hfg.ignoreInterThreadEdges hk

/-- What is persisted under more flags is persisted under fewer. -/
theorem persistedBy_of_le (h : hbg.WellFormed) {useFasterVersion : Bool} (hfg : f.Le g)
    (hp : PersistedBy g (knowsOf h useFasterVersion g) line y x) :
    PersistedBy f (knowsOf h useFasterVersion f) line y x := by
  obtain ⟨z, hz, hyz, hzx⟩ := hp
  have hgf : g.ignoreFlushNodes = false := by
    cases z with
    | epoch _ => exact absurd hz id
    | instruction z =>
      have hflush := hz.1
      unfold Flags.isFlush at hflush
      simpa using (Bool.and_eq_true_iff.mp hflush).2
  have hff := Flags.eq_false_of_imp hfg.ignoreFlushNodes hgf
  have hflush : f.isFlush = g.isFlush := by
    funext k
    simp only [Flags.isFlush, hff, hgf]
  have hnews : f.isNews = g.isNews := by
    funext k
    simp only [Flags.isNews, hflush]
  refine ⟨z, hflush ▸ hz, ?_, ?_⟩
  · exact knowsOf_of_ignored h hfg hnews hyz
  · exact knowsOf_of_ignored h hfg hnews hzx

end Spreading

/-- More ignore flags leave every race a race. -/
theorem race_of_le (h : hbg.WellFormed) {useFasterVersion : Bool} (hfg : f.Le g)
    (hg : g.showOnlyFirstBugInThread = false) {r w d : InstructionNode}
    (hr : Race h pdg f (knowsOf h useFasterVersion f) r w d) :
    Race h pdg g (knowsOf h useFasterVersion g) r w d := by
  obtain ⟨hdep, hread, hw, ⟨hnt, ho, hp, ha⟩, -⟩ := hr
  refine ⟨hdep, ?_, hw, ⟨hnt, ho, ?_, ?_⟩, fun hc => ?_⟩
  · rintro ⟨⟨hri, hpi⟩, hpers⟩
    refine hread ⟨⟨Flags.eq_false_of_imp hfg.ignoreReadNodePersistency hri,
      Flags.eq_false_of_imp hfg.ignorePersistedBeforeIndex hpi⟩, persistedBy_of_le h hfg hpers⟩
  · rintro ⟨hpi, hpers⟩
    exact hp ⟨Flags.eq_false_of_imp hfg.ignorePersistedBeforeIndex hpi,
      persistedBy_of_le h hfg hpers⟩
  · rintro ⟨hai, hahead⟩
    exact ha ⟨Flags.eq_false_of_imp hfg.ignoreHappensAfterIndex hai,
      ahead_of_ignored h hfg.ignoreInterThreadEdges hahead⟩
  · rw [hg] at hc
    cases hc

/-- With only the first bug of a thread shown, a race is kept when no race of its group comes
before it. -/
theorem race_showOnlyFirst_iff (h : hbg.WellFormed) {useFasterVersion : Bool}
    (hf : f.showOnlyFirstBugInThread = false) {r w d : InstructionNode} :
    Race h pdg f.showOnlyFirst (knowsOf h useFasterVersion f.showOnlyFirst) r w d ↔
      Race h pdg f (knowsOf h useFasterVersion f) r w d ∧
        ∀ v, v.tid = w.tid → Race h pdg f (knowsOf h useFasterVersion f) r v d →
          ¬ earlier hbg v w := by
  have hshow : ∀ {P : Prop}, f.showOnlyFirstBugInThread = true → P := fun hc => by
    rw [hf] at hc
    cases hc
  constructor
  · rintro ⟨hdep, hread, hw, hsurvives, hfirst⟩
    refine ⟨⟨hdep, hread, hw, hsurvives, hshow⟩, ?_⟩
    rintro v ht ⟨-, -, hv, hvs, -⟩ hlt
    rw [ht] at hv
    exact hfirst rfl v hv hlt hvs
  · rintro ⟨⟨hdep, hread, hw, hsurvives, -⟩, hfirst⟩
    refine ⟨hdep, hread, hw, hsurvives, fun _ v hv hlt hvs => ?_⟩
    have ht : v.tid = w.tid := hv.2.2.2
    rw [← ht] at hv
    exact hfirst v ht ⟨hdep, hread, hv, hvs, hshow⟩ hlt

section Run

variable {it : IntervalTreeApi} {b : HBGBuilder} {es : List (EpochNode × EpochNode)}
  {o : HBGBuilder.BuildOptions}
  {postorder reversePostorder postorder' reversePostorder' : List Node}

theorem run_spec (hb : Built it b es o hbg pdg) (ho : Orders hbg postorder reversePostorder)
    (useFasterVersion : Bool) (flags : Flags) :
    ∃ races, run hbg pdg flags postorder reversePostorder useFasterVersion = .ok races ∧
      ∀ r w d, races.Reports r w d ↔
        Race hb.wf pdg flags (knowsOf hb.wf useFasterVersion flags) r w d := by
  cases useFasterVersion with
  | true =>
    obtain ⟨races, hrun, hrep, -⟩ := run_fast_spec hb ho flags
    exact ⟨races, hrun, hrep⟩
  | false => exact run_plain_spec hb ho flags

/-- Of a nonempty set of nodes of the graph one has the least index. -/
theorem exists_first (hbg : HBG) {P : InstructionNode → Prop} (w : InstructionNode) (hw : P w) :
    ∃ v, P v ∧ ∀ u, P u → ¬ earlier hbg u v := by
  induction hn : hbg.index (.instruction w) using Nat.strong_induction_on generalizing w with
  | _ n ih =>
    by_cases hex : ∃ u, P u ∧ earlier hbg u w
    · obtain ⟨u, hu, hlt⟩ := hex
      exact ih _ (hn ▸ hlt) u hu rfl
    · exact ⟨w, hw, fun u hu hlt => hex ⟨u, hu, hlt⟩⟩

/-- The first race of every group. -/
def KeepsFirst (hbg : HBG) (races races' : PersistencyRaces) : Prop :=
  (∀ r w d, races'.Reports r w d → races.Reports r w d ∧
    ∀ v, v.tid = w.tid → races.Reports r v d →
      hbg.index (.instruction w) ≤ hbg.index (.instruction v)) ∧
  ∀ r d t, (∃ w, w.tid = t ∧ races.Reports r w d) → ∃! w, w.tid = t ∧ races'.Reports r w d

/-- The flags are monotone, and showing only the first bug of a thread keeps exactly the race of
every group of a read, a dependent write and a thread whose write comes first in the thread. -/
theorem flags_monotone (hb : Built it b es o hbg pdg) (ho : Orders hbg postorder reversePostorder)
    (ho' : Orders hbg postorder' reversePostorder') (useFasterVersion : Bool) :
    (∀ f g : Flags, f.Le g → f.showOnlyFirstBugInThread = false →
      g.showOnlyFirstBugInThread = false →
      ∃ races races', run hbg pdg f postorder reversePostorder useFasterVersion = .ok races ∧
        run hbg pdg g postorder' reversePostorder' useFasterVersion = .ok races' ∧
          ∀ r w d, races.Reports r w d → races'.Reports r w d) ∧
    ∀ f : Flags, f.showOnlyFirstBugInThread = false →
      ∃ races races', run hbg pdg f postorder reversePostorder useFasterVersion = .ok races ∧
        run hbg pdg f.showOnlyFirst postorder' reversePostorder' useFasterVersion = .ok races' ∧
          KeepsFirst hbg races races' := by
  constructor
  · intro f g hfg _ hg
    obtain ⟨races, hrun, hrep⟩ := run_spec hb ho useFasterVersion f
    obtain ⟨races', hrun', hrep'⟩ := run_spec hb ho' useFasterVersion g
    refine ⟨races, races', hrun, hrun', fun r w d hr => ?_⟩
    rw [hrep] at hr
    rw [hrep']
    exact race_of_le hb.wf hfg hg hr
  · intro f hf
    obtain ⟨races, hrun, hrep⟩ := run_spec hb ho useFasterVersion f
    obtain ⟨races', hrun', hrep'⟩ := run_spec hb ho' useFasterVersion f.showOnlyFirst
    have hmem : ∀ {r w d}, races.Reports r w d → Node.instruction w ∈ hbg.nodes := by
      intro r w d hr
      exact ((hrep r w d).mp hr).2.2.1.1
    have hiff : ∀ r w d, races'.Reports r w d ↔ races.Reports r w d ∧
        ∀ v, v.tid = w.tid → races.Reports r v d → ¬ earlier hbg v w := by
      intro r w d
      simp only [hrep, hrep']
      exact race_showOnlyFirst_iff hb.wf hf
    refine ⟨races, races', hrun, hrun', ?_, ?_⟩
    · intro r w d hr
      obtain ⟨hr, hfirst⟩ := (hiff r w d).mp hr
      exact ⟨hr, fun v ht hv => not_lt.mp (hfirst v ht hv)⟩
    · rintro r d t ⟨w₀, hw₀⟩
      obtain ⟨w, ⟨ht, hw⟩, hfirst⟩ := exists_first hbg
        (P := fun w => w.tid = t ∧ races.Reports r w d) w₀ hw₀
      refine ⟨w, ⟨ht, (hiff r w d).mpr ⟨hw, fun v hvt hv => hfirst v ⟨hvt.trans ht, hv⟩⟩⟩, ?_⟩
      rintro v ⟨hvt, hv⟩
      obtain ⟨hv, hvfirst⟩ := (hiff r v d).mp hv
      have hvw := not_lt.mp (hfirst v ⟨hvt, hv⟩)
      have hwv := not_lt.mp (hvfirst w (ht.trans hvt.symm) hw)
      exact Node.instruction.inj (hb.wf.index_inj (hmem hv) (hmem hw) (hvt.trans ht.symm)
        (le_antisymm hwv hvw))

theorem flags_monotone_relay :
    ∃ races races',
      run relayGraph samplePdg .default relayTrace.nodes.reverse relayTrace.nodes true =
        .ok races ∧
      run relayGraph samplePdg Flags.default.showOnlyFirst relayTrace.nodes.reverse
        relayTrace.nodes true = .ok races' ∧
      KeepsFirst relayGraph races races' :=
  (flags_monotone relay_built relay_orders relay_orders true).2 .default rfl

end Run

end Prd.Pycprd
