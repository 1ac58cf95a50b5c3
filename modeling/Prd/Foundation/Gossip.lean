import Mathlib.Data.List.Basic
import Mathlib.Data.Nat.Find
import Mathlib.Logic.Relation
import Mathlib.Tactic.Cases

/-!
# Spreading news along the edges of a threaded acyclic graph

Points lie on tracks, each totally ordered by a position, and may send messages
to points of other tracks. A track that comes to know some news owes it to every
other track until it next writes to that track, whichever of its points the
message goes to. `Knows` is what the points learn when only owed news is sent.
-/
namespace Prd.Foundation

open Relation

/-- Points on tracks, with the addressees of each point in the order it writes to them. -/
structure ThreadDag (V T : Type*) where
  Point : V → Prop
  track : V → T
  pos : V → ℕ
  kids : V → List V
  pos_inj : ∀ {a b}, Point a → Point b → track a = track b → pos a = pos b → a = b
  kids_point : ∀ {p c}, c ∈ kids p → Point p ∧ Point c
  kids_track : ∀ {p c}, c ∈ kids p → track p ≠ track c

namespace ThreadDag

variable {V T : Type*} (G : ThreadDag V T)

def Le (a b : V) : Prop := G.Point a ∧ G.Point b ∧ G.track a = G.track b ∧ G.pos a ≤ G.pos b

def Lt (a b : V) : Prop := G.Point a ∧ G.Point b ∧ G.track a = G.track b ∧ G.pos a < G.pos b

def Step (a b : V) : Prop := G.Lt a b ∨ b ∈ G.kids a

/-- A nonempty path of the graph. -/
def Reach : V → V → Prop := TransGen G.Step

def Acyclic : Prop := ∀ a, ¬ G.Reach a a

/-- No message goes to a point when an earlier point of its track is reached as well. -/
def Irredundant : Prop := ∀ n c c', c ∈ G.kids n → G.Lt c' c → ¬ G.Reach n c'

variable {G}

theorem Le.refl {a : V} (h : G.Point a) : G.Le a a := ⟨h, h, rfl, le_rfl⟩

theorem Le.trans {a b c : V} (h : G.Le a b) (h' : G.Le b c) : G.Le a c :=
  ⟨h.1, h'.2.1, h.2.2.1.trans h'.2.2.1, le_trans h.2.2.2 h'.2.2.2⟩

theorem Lt.le {a b : V} (h : G.Lt a b) : G.Le a b := ⟨h.1, h.2.1, h.2.2.1, le_of_lt h.2.2.2⟩

theorem Le.eq_or_lt {a b : V} (h : G.Le a b) : a = b ∨ G.Lt a b := by
  rcases Nat.eq_or_lt_of_le h.2.2.2 with he | hlt
  · exact Or.inl (G.pos_inj h.1 h.2.1 h.2.2.1 he)
  · exact Or.inr ⟨h.1, h.2.1, h.2.2.1, hlt⟩

theorem le_or_lt {a b : V} (ha : G.Point a) (hb : G.Point b) (ht : G.track a = G.track b) :
    G.Le a b ∨ G.Lt b a := by
  rcases Nat.lt_or_ge (G.pos b) (G.pos a) with hlt | hge
  · exact Or.inr ⟨hb, ha, ht.symm, hlt⟩
  · exact Or.inl ⟨ha, hb, ht, hge⟩

theorem Le.reach {a b : V} (h : G.Le a b) : ReflTransGen G.Step a b := by
  rcases h.eq_or_lt with rfl | hlt
  · exact ReflTransGen.refl
  · exact ReflTransGen.single (Or.inl hlt)

theorem Step.point {a b : V} (h : G.Step a b) : G.Point a ∧ G.Point b := by
  rcases h with h | h
  · exact ⟨h.1, h.2.1⟩
  · exact G.kids_point h

theorem Reach.point {a b : V} (h : G.Reach a b) : G.Point a ∧ G.Point b := by
  induction h with
  | single h => exact h.point
  | tail _ h ih => exact ⟨ih.1, h.point.2⟩

/-- Reachable points of one track come later on it. -/
theorem Acyclic.lt_of_reach (hG : G.Acyclic) {a b : V} (h : G.Reach a b)
    (ht : G.track a = G.track b) : G.Lt a b := by
  rcases le_or_lt h.point.2 h.point.1 ht.symm with hle | hlt
  · exact absurd (TransGen.trans_left h hle.reach) (hG a)
  · exact hlt

section News

variable (G) (news : V → Prop)

/-- From `q` on, nothing is sent to track `v` before the `i`-th message of `p`. -/
def Silent (v : T) (q p : V) (i : ℕ) : Prop :=
  (∀ x, G.Le q x → G.Lt x p → ∀ c ∈ G.kids x, G.track c ≠ v) ∧
    ∀ c ∈ (G.kids p).take i, G.track c ≠ v

/-- When `p` has sent its first `i` messages, its track still owes the news to track `v`.
A debt arises where the news does, and travels along with every message. -/
inductive Owes (v : T) : V → ℕ → Prop
  | arises {q p i} : news q → G.Le q p → G.track p ≠ v → G.Silent v q p i → Owes v p i
  | passed {m j q p i} : Owes v m j → (G.kids m)[j]? = some q → G.Le q p → G.track p ≠ v →
      G.Silent v q p i → Owes v p i

/-- The `j`-th message of `m` goes to `q` and carries the news. -/
def Tells (m : V) (j : ℕ) (q : V) : Prop :=
  (G.kids m)[j]? = some q ∧ G.Owes news (G.track q) m j

/-- The news that arises at `y` is known at `x`. -/
inductive Knows (y : V) : V → Prop
  | self : news y → G.Point y → Knows y y
  | later {x x'} : Knows y x → G.Le x x' → Knows y x'
  | told {m j q} : Knows y m → G.Tells news m j q → Knows y q

/-- A debt to track `v` starts at `q`. -/
def Source (v : T) (q : V) : Prop :=
  news q ∨ ∃ m j, G.Owes news v m j ∧ (G.kids m)[j]? = some q

end News

variable {news : V → Prop}

theorem owes_iff {v : T} {p : V} {i : ℕ} :
    G.Owes news v p i ↔
      ∃ q, G.Source news v q ∧ G.Le q p ∧ G.track p ≠ v ∧ G.Silent v q p i := by
  constructor
  · rintro (⟨hq, hle, hv, hs⟩ | ⟨ho, hk, hle, hv, hs⟩)
    · exact ⟨_, Or.inl hq, hle, hv, hs⟩
    · exact ⟨_, Or.inr ⟨_, _, ho, hk⟩, hle, hv, hs⟩
  · rintro ⟨q, hq | ⟨m, j, ho, hk⟩, hle, hv, hs⟩
    · exact .arises hq hle hv hs
    · exact .passed ho hk hle hv hs

theorem Tells.mem {m q : V} {j : ℕ} (h : G.Tells news m j q) : q ∈ G.kids m :=
  List.mem_of_getElem? h.1

theorem Knows.point {y x : V} (h : G.Knows news y x) : G.Point y ∧ G.Point x := by
  induction h with
  | self _ hp => exact ⟨hp, hp⟩
  | later _ hle ih => exact ⟨ih.1, hle.2.1⟩
  | told _ ht ih => exact ⟨ih.1, (G.kids_point ht.mem).2⟩

theorem Knows.arises {y x : V} (h : G.Knows news y x) : news y := by
  induction h with
  | self ht _ => exact ht
  | later _ _ ih => exact ih
  | told _ _ ih => exact ih

/-- News only travels along paths. -/
theorem Knows.reach {y x : V} (h : G.Knows news y x) : ReflTransGen G.Step y x := by
  induction h with
  | self _ _ => exact ReflTransGen.refl
  | later _ hle ih => exact ih.trans hle.reach
  | told _ ht ih => exact ih.tail (Or.inr ht.mem)

theorem Knows.trans {y f x : V} (h : G.Knows news y f) (h' : G.Knows news f x) :
    G.Knows news y x := by
  induction h' with
  | self _ _ => exact h
  | later _ hle ih => exact .later ih hle
  | told _ ht ih => exact .told ih ht

/-- What is known at a point arises there, was known before on its track, or came in. -/
theorem knows_iff {y n : V} (hn : G.Point n) :
    G.Knows news y n ↔ (news n ∧ y = n) ∨ (∃ x, G.Lt x n ∧ G.Knows news y x) ∨
      ∃ m j, G.Tells news m j n ∧ G.Knows news y m := by
  constructor
  · intro h
    induction h with
    | self ht _ => exact Or.inl ⟨ht, rfl⟩
    | later hk hle ih =>
      rcases hle.eq_or_lt with rfl | hlt
      · exact ih hn
      · exact Or.inr (Or.inl ⟨_, hlt, hk⟩)
    | told hk ht _ => exact Or.inr (Or.inr ⟨_, _, ht, hk⟩)
  · rintro (⟨ht, rfl⟩ | ⟨x, hlt, hk⟩ | ⟨m, j, ht, hk⟩)
    · exact .self ht hn
    · exact .later hk hlt.le
    · exact .told hk ht

/-- A debt either lasts to a later point or is paid on the way there. -/
theorem Owes.lasts_or_tells {v : T} {x x' : V} (ho : G.Owes news v x 0) (hle : G.Le x x')
    (i : ℕ) :
    G.Owes news v x' i ∨
      ∃ z j c, G.Le x z ∧ G.Le z x' ∧ G.Tells news z j c ∧ G.track c = v := by
  classical
  obtain ⟨q, hq, hqx, hv, hsil, -⟩ := owes_iff.mp ho
  have hv' : G.track x' ≠ v := hle.2.2.1 ▸ hv
  by_cases hs : G.Silent v q x' i
  · exact Or.inl (owes_iff.mpr ⟨q, hq, hqx.trans hle, hv', hs⟩)
  right
  let Writes : ℕ → Prop := fun k =>
    ∃ z, G.Le q z ∧ G.Le z x' ∧ G.pos z = k ∧ ∃ c ∈ G.kids z, G.track c = v
  have hex : ∃ k, Writes k := by
    by_contra hno
    apply hs
    refine ⟨fun z hqz hzx c hc hcv => hno ⟨_, z, hqz, hzx.le, rfl, c, hc, hcv⟩, ?_⟩
    intro c hc hcv
    exact hno ⟨_, x', hqx.trans hle, Le.refl hle.2.1, rfl, c, List.mem_of_mem_take hc, hcv⟩
  -- the first point from `q` on that writes to `v`, and its first such message
  obtain ⟨z, hqz, hzx, hz, c₀, hc₀, hc₀v⟩ := Nat.find_spec hex
  have hmin : ∀ w, G.Le q w → G.Lt w z → ∀ c ∈ G.kids w, G.track c ≠ v := by
    intro w hqw hwz c hc hcv
    have hlt : G.pos w < Nat.find hex := hz ▸ hwz.2.2.2
    exact Nat.find_min hex hlt ⟨w, hqw, hwz.le.trans hzx, rfl, c, hc, hcv⟩
  have hexj : ∃ (j : ℕ) (c : V), (G.kids z)[j]? = some c ∧ G.track c = v := by
    obtain ⟨j, hj⟩ := List.mem_iff_getElem?.mp hc₀
    exact ⟨j, c₀, hj, hc₀v⟩
  obtain ⟨c, hc, hcv⟩ := Nat.find_spec hexj
  have hxz : G.Le x z := by
    rcases le_or_lt hqx.2.1 hqz.2.1 (hle.2.2.1.trans hzx.2.2.1.symm) with h | h
    · exact h
    · exact absurd hc₀v (hsil z hqz h c₀ hc₀)
  refine ⟨z, Nat.find hexj, c, hxz, hzx, ⟨hc, ?_⟩, hcv⟩
  refine owes_iff.mpr ⟨q, hcv ▸ hq, hqz, ?_, ?_⟩
  · rw [hcv, hzx.2.2.1]; exact hv'
  · rw [hcv]
    refine ⟨hmin, fun d hd hdv => ?_⟩
    obtain ⟨k, hk⟩ := List.mem_iff_getElem?.mp hd
    rw [List.getElem?_take] at hk
    split_ifs at hk with hlt
    exact Nat.find_min hexj hlt ⟨d, hk, hdv⟩

/-- Track `v` has heard of `y` at a point that is upstream of `x`, or is written to
from there. -/
def Heard (G : ThreadDag V T) (news : V → Prop) (v : T) (y x : V) : Prop :=
  ∃ m c, ReflTransGen G.Step m x ∧ (m = c ∨ c ∈ G.kids m) ∧ G.track c = v ∧ G.Knows news y c

theorem Heard.step {v : T} {y x x' : V} (h : G.Heard news v y x)
    (hx : ReflTransGen G.Step x x') : G.Heard news v y x' := by
  obtain ⟨m, c, hm, hc⟩ := h
  exact ⟨m, c, hm.trans hx, hc⟩

theorem Heard.of_owes {v : T} {y x x' : V} (hk : G.Knows news y x) (ho : G.Owes news v x 0)
    (hle : G.Le x x') (i : ℕ) : G.Owes news v x' i ∨ G.Heard news v y x' := by
  rcases ho.lasts_or_tells hle i with h | ⟨z, j, c, hxz, hzx, ht, hcv⟩
  · exact Or.inl h
  · exact Or.inr ⟨z, c, hzx.reach, Or.inr ht.mem, hcv, .told (.later hk hxz) ht⟩

/-- Whoever knows some news owes it to a track, or that track has already heard of it. -/
theorem Knows.owes_or_heard {y x : V} (h : G.Knows news y x) (v : T) (i : ℕ) :
    G.Owes news v x i ∨ G.Heard news v y x := by
  induction h generalizing i with
  | self ht hp =>
    by_cases hv : G.track y = v
    · exact Or.inr ⟨y, y, ReflTransGen.refl, Or.inl rfl, hv, .self ht hp⟩
    · have h0 : G.Owes news v y 0 :=
        .arises ht
        (Le.refl hp) hv ⟨fun x hyx hxy => absurd hxy.2.2.2 (not_lt.mpr hyx.2.2.2), by simp⟩
      exact Heard.of_owes (.self ht hp) h0 (Le.refl hp) i
  | @later x x' hk hle ih =>
    rcases ih 0 with ho | hh
    · exact Heard.of_owes hk ho hle i
    · exact Or.inr (hh.step hle.reach)
  | @told m j q hk ht ih =>
    have hq : G.Point q := (G.kids_point ht.mem).2
    by_cases hv : G.track q = v
    · exact Or.inr ⟨q, q, ReflTransGen.refl, Or.inl rfl, hv, .told hk ht⟩
    · rcases ih j with ho | hh
      · have h0 : G.Owes news v q 0 :=
          .passed ho ht.1 (Le.refl hq) hv
            ⟨fun x hqx hxq => absurd hxq.2.2.2 (not_lt.mpr hqx.2.2.2), by simp⟩
        exact Heard.of_owes (.told hk ht) h0 (Le.refl hq) i
      · exact Or.inr (hh.step (ReflTransGen.single (Or.inr ht.mem)))

/-- Without redundant messages news reaches every point that a path leads to. -/
theorem Knows.step (hG : G.Acyclic) (hI : G.Irredundant) {y p q : V} (h : G.Knows news y p)
    (hs : G.Step p q) : G.Knows news y q := by
  rcases hs with hlt | hq
  · exact .later h hlt.le
  obtain ⟨j, hj⟩ := List.mem_iff_getElem?.mp hq
  rcases h.owes_or_heard (G.track q) j with ho | ⟨m, c, hmp, hmc, hcq, hkc⟩
  · exact .told h ⟨hj, ho⟩
  · have hmq : G.Reach m q := TransGen.tail' hmp (Or.inr hq)
    rcases le_or_lt hkc.point.2 (G.kids_point hq).2 hcq with hle | hlt
    · exact .later hkc hle
    · rcases hmc with rfl | hc
      · exact absurd (hmq.tail (Or.inl hlt)) (hG m)
      · exact absurd hmq (hI m c q hc hlt)

theorem knows_of_reach (hG : G.Acyclic) (hI : G.Irredundant) {y x : V} (ht : news y)
    (h : G.Reach y x) : G.Knows news y x := by
  induction h with
  | single h => exact Knows.step hG hI (.self ht h.point.1) h
  | tail _ h ih => exact ih.step hG hI h

/-- On an irredundant graph the news spreads exactly along the paths. -/
theorem knows_iff_reach (hG : G.Acyclic) (hI : G.Irredundant) {y x : V} (hy : G.Point y) :
    G.Knows news y x ↔ news y ∧ (y = x ∨ G.Reach y x) := by
  constructor
  · intro h
    exact ⟨h.arises, reflTransGen_iff_eq_or_transGen.mp h.reach |>.imp_left Eq.symm⟩
  · rintro ⟨ht, rfl | hr⟩
    · exact .self ht hy
    · exact knows_of_reach hG hI ht hr

end ThreadDag

end Prd.Foundation
