import Prd.Foundation.LateGossip
import Prd.Foundation.Relay

/-!
# News that one message carries

Without redundant messages, news that is read last spreads along the paths that rest on a track
between any two messages. Where a single message leads from one track to the other whenever any
path does, these are all paths, and it does not matter whether a point reads its mail before it
writes.
-/
namespace Prd.Foundation

open Relation

namespace ThreadDag

section Messages

variable {V T : Type*} {G : ThreadDag V T} {news : V → Prop} {y m q x : V}

/-- A path with at most one message, which is neither its first nor its last point. -/
def Direct (G : ThreadDag V T) (y x : V) : Prop :=
  G.Lt y x ∨ ∃ m q, G.Lt y m ∧ q ∈ G.kids m ∧ G.Lt q x

theorem Direct.reach (h : G.Direct y x) : G.Reach y x := by
  rcases h with hlt | ⟨m, q, hym, hq, hqx⟩
  · exact .single (Or.inl hlt)
  · exact .head (Or.inl hym) (.head (Or.inr hq) (.single (Or.inl hqx)))

/-- The first message to a track that is sent after a point. -/
theorem exists_first_message (hlt : G.Lt y m) (hq : q ∈ G.kids m) :
    ∃ m' j c, G.Lt y m' ∧ G.Le m' m ∧ (G.kids m')[j]? = some c ∧ G.track c = G.track q ∧
    G.SilentAfter (G.track q) y m' j := by
  classical
  let Writes : ℕ → Prop := fun k =>
    ∃ z, G.Lt y z ∧ G.Le z m ∧ G.pos z = k ∧ ∃ c ∈ G.kids z, G.track c = G.track q
  have hex : ∃ k, Writes k := ⟨_, m, hlt, Le.refl hlt.2.1, rfl, q, hq, rfl⟩
  obtain ⟨z, hyz, hzm, hz, c₀, hc₀, hc₀q⟩ := Nat.find_spec hex
  have hmin : ∀ w, G.Lt y w → G.Lt w z → ∀ c ∈ G.kids w, G.track c ≠ G.track q := by
    intro w hyw hwz c hc hcq
    have hlt : G.pos w < Nat.find hex := hz ▸ hwz.2.2.2
    exact Nat.find_min hex hlt ⟨w, hyw, hwz.le.trans hzm, rfl, c, hc, hcq⟩
  have hexj : ∃ (j : ℕ) (c : V), (G.kids z)[j]? = some c ∧ G.track c = G.track q := by
    obtain ⟨j, hj⟩ := List.mem_iff_getElem?.mp hc₀
    exact ⟨j, c₀, hj, hc₀q⟩
  obtain ⟨c, hc, hcq⟩ := Nat.find_spec hexj
  refine ⟨z, Nat.find hexj, c, hyz, hzm, hc, hcq, hmin, fun d hd hdq => ?_⟩
  obtain ⟨k, hk⟩ := List.mem_iff_getElem?.mp hd
  rw [List.getElem?_take] at hk
  split_ifs at hk with hlt
  exact Nat.find_min hexj hlt ⟨d, hk, hdq⟩

/-- Where the news that is known came in. -/
theorem KnowsLate.exists_source (h : G.KnowsLate news y x) :
    ∃ s, G.SourceLate news s ∧ G.KnowsLate news y s ∧ G.Le s x := by
  induction h with
  | self hy hp => exact ⟨y, Or.inl hy, .self hy hp, Le.refl hp⟩
  | later _ hle ih =>
    obtain ⟨s, hs, hk, hsx⟩ := ih
    exact ⟨s, hs, hk, hsx.trans hle⟩
  | @told _ m j q hk hlt ht _ =>
    exact ⟨q, Or.inr ⟨m, j, ht⟩, .told hk hlt ht, Le.refl (G.kids_point ht.mem).2⟩

/-- Without redundant messages the first one to a track comes in no later than the others. -/
theorem KnowsLate.message (h : G.KnowsLate news y x) (hI : G.Irredundant) (hlt : G.Lt x m)
    (hq : q ∈ G.kids m) : G.KnowsLate news y q := by
  obtain ⟨s, hs, hys, hsx⟩ := h.exists_source
  have hsm : G.Lt s m := ⟨hsx.1, hlt.2.1, hsx.2.2.1.trans hlt.2.2.1, hsx.2.2.2.trans_lt hlt.2.2.2⟩
  obtain ⟨m', j, c, hsm', hmm, hc, hcq, hsilent⟩ := exists_first_message hsm hq
  have htrack : G.track m' ≠ G.track q := by
    rw [hmm.2.2.1]
    exact G.kids_track hq
  have htells : G.TellsLate news m' j c :=
    ⟨hc, hcq ▸ owesLate_iff.mpr ⟨s, hs, hsm', htrack, hsilent⟩⟩
  have hknows : G.KnowsLate news y c := .told hys hsm' htells
  rcases le_or_lt (G.kids_point htells.mem).2 (G.kids_point hq).2 hcq with hle | hback
  · exact .later hknows hle
  · exact absurd (TransGen.tail' hmm.reach (Or.inr hq)) (hI m' c q htells.mem hback)

/-- A path that goes on along its track before each message. -/
inductive Spaced (G : ThreadDag V T) (y : V) : V → Prop
  | stay : G.Point y → Spaced G y y
  | later {x x' : V} : Spaced G y x → G.Lt x x' → Spaced G y x'
  | sent {x m q : V} : Spaced G y x → G.Lt x m → q ∈ G.kids m → Spaced G y q

theorem Spaced.point (h : G.Spaced y x) : G.Point y ∧ G.Point x := by
  induction h with
  | stay hy => exact ⟨hy, hy⟩
  | later _ hlt ih => exact ⟨ih.1, hlt.2.1⟩
  | sent _ _ hq ih => exact ⟨ih.1, (G.kids_point hq).2⟩

theorem Spaced.reach (h : G.Spaced y x) : ReflTransGen G.Step y x := by
  induction h with
  | stay _ => exact .refl
  | later _ hlt ih => exact ih.tail (Or.inl hlt)
  | sent _ hlt hq ih => exact (ih.tail (Or.inl hlt)).tail (Or.inr hq)

/-- Without redundant messages news that is read last spreads along the spaced paths. -/
theorem knowsLate_iff_spaced (hI : G.Irredundant) (hnews : news y) :
    G.KnowsLate news y x ↔ G.Spaced y x := by
  constructor
  · intro h
    induction h with
    | self _ hp => exact .stay hp
    | later _ hle ih =>
      rcases hle.eq_or_lt with rfl | hlt
      · exact ih
      · exact .later ih hlt
    | told _ hlt ht ih => exact .sent ih hlt ht.mem
  · intro h
    induction h with
    | stay hy => exact .self hnews hy
    | later _ hlt ih => exact .later ih hlt.le
    | sent _ hlt hq ih => exact ih.message hI hlt hq

theorem Direct.knowsLate (hI : G.Irredundant) (hnews : news y) (h : G.Direct y x) :
    G.KnowsLate news y x := by
  rcases h with hlt | ⟨m, q, hym, hq, hqx⟩
  · exact .later (.self hnews hlt.1) hlt.le
  · exact .later ((KnowsLate.self hnews hym.1).message hI hym hq) hqx.le

/-- News spreads along the paths that a single message makes. -/
theorem knowsLate_iff_reach (hI : G.Irredundant) (hnews : news y) (hy : G.Point y)
    (hdirect : G.Reach y x → G.Direct y x) : G.KnowsLate news y x ↔ y = x ∨ G.Reach y x := by
  constructor
  · intro h
    exact (reflTransGen_iff_eq_or_transGen.mp h.reach).imp_left Eq.symm
  · rintro (rfl | hr)
    · exact .self hnews hy
    · exact (hdirect hr).knowsLate hI hnews

end Messages

variable {V T : Type} {G : ThreadDag V T} {y x : V}

theorem Direct.ahead (h : G.Direct y x) : G.Ahead y x := by
  rcases h with hlt | ⟨m, q, hym, hq, hqx⟩
  · exact ⟨x, hlt, .stay hlt.2.1⟩
  · exact ⟨m, hym, .sent hq hqx (.stay hqx.2.1)⟩

end ThreadDag

end Prd.Foundation
