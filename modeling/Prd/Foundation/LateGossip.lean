import Prd.Foundation.Gossip

/-!
# Spreading news when mail is read last

Here a point writes to its addressees before it reads its own mail, so that news
only goes on from a later point of the track. What came in is then owed to every
other track, whoever sent it.
-/
namespace Prd.Foundation

open Relation

namespace ThreadDag

variable {V T : Type*} (G : ThreadDag V T) (news : V → Prop)

/-- After `q` nothing is sent to track `v` before the `i`-th message of `p`. -/
def SilentAfter (v : T) (q p : V) (i : ℕ) : Prop :=
  (∀ x, G.Lt q x → G.Lt x p → ∀ c ∈ G.kids x, G.track c ≠ v) ∧
    ∀ c ∈ (G.kids p).take i, G.track c ≠ v

/-- When `p` has sent its first `i` messages, its track still owes the news to track `v`. -/
inductive OwesLate : T → V → ℕ → Prop
  | arises {v q p i} : news q → G.Lt q p → G.track p ≠ v → G.SilentAfter v q p i → OwesLate v p i
  | passed {v m j q p i} : OwesLate (G.track q) m j → (G.kids m)[j]? = some q → G.Lt q p →
      G.track p ≠ v → G.SilentAfter v q p i → OwesLate v p i

def TellsLate (m : V) (j : ℕ) (q : V) : Prop :=
  (G.kids m)[j]? = some q ∧ G.OwesLate news (G.track q) m j

/-- The news that arises at `y` is known at `x`: a message carries what was known before. -/
inductive KnowsLate (y : V) : V → Prop
  | self : news y → G.Point y → KnowsLate y y
  | later {x x'} : KnowsLate y x → G.Le x x' → KnowsLate y x'
  | told {x m j q} : KnowsLate y x → G.Lt x m → G.TellsLate news m j q → KnowsLate y q

/-- News arises at `q` or comes in there. -/
def SourceLate (q : V) : Prop := news q ∨ ∃ m j, G.TellsLate news m j q

variable {G} {news}

theorem owesLate_iff {v : T} {p : V} {i : ℕ} :
    G.OwesLate news v p i ↔
      ∃ q, G.SourceLate news q ∧ G.Lt q p ∧ G.track p ≠ v ∧ G.SilentAfter v q p i := by
  constructor
  · rintro (⟨hq, hlt, hv, hs⟩ | ⟨ho, hk, hlt, hv, hs⟩)
    · exact ⟨_, Or.inl hq, hlt, hv, hs⟩
    · exact ⟨_, Or.inr ⟨_, _, hk, ho⟩, hlt, hv, hs⟩
  · rintro ⟨q, hq | ⟨m, j, hk, ho⟩, hlt, hv, hs⟩
    · exact .arises hq hlt hv hs
    · exact .passed ho hk hlt hv hs

theorem TellsLate.mem {m q : V} {j : ℕ} (h : G.TellsLate news m j q) : q ∈ G.kids m :=
  List.mem_of_getElem? h.1

theorem KnowsLate.point {y x : V} (h : G.KnowsLate news y x) : G.Point y ∧ G.Point x := by
  induction h with
  | self _ hp => exact ⟨hp, hp⟩
  | later _ hle ih => exact ⟨ih.1, hle.2.1⟩
  | told _ _ ht ih => exact ⟨ih.1, (G.kids_point ht.mem).2⟩

theorem KnowsLate.reach {y x : V} (h : G.KnowsLate news y x) : ReflTransGen G.Step y x := by
  induction h with
  | self _ _ => exact ReflTransGen.refl
  | later _ hle ih => exact ih.trans hle.reach
  | told _ hlt ht ih => exact (ih.tail (Or.inl hlt)).tail (Or.inr ht.mem)

theorem KnowsLate.trans {y f x : V} (h : G.KnowsLate news y f) (h' : G.KnowsLate news f x) :
    G.KnowsLate news y x := by
  induction h' with
  | self _ _ => exact h
  | later _ hle ih => exact .later ih hle
  | told _ hlt ht ih => exact .told ih hlt ht

theorem knowsLate_iff {y n : V} (hn : G.Point n) :
    G.KnowsLate news y n ↔ (news n ∧ y = n) ∨ (∃ x, G.Lt x n ∧ G.KnowsLate news y x) ∨
      ∃ m j, G.TellsLate news m j n ∧ ∃ x, G.Lt x m ∧ G.KnowsLate news y x := by
  constructor
  · intro h
    induction h with
    | self ht _ => exact Or.inl ⟨ht, rfl⟩
    | later hk hle ih =>
      rcases hle.eq_or_lt with rfl | hlt
      · exact ih hn
      · exact Or.inr (Or.inl ⟨_, hlt, hk⟩)
    | told hk hlt ht _ => exact Or.inr (Or.inr ⟨_, _, ht, _, hlt, hk⟩)
  · rintro (⟨ht, rfl⟩ | ⟨x, hlt, hk⟩ | ⟨m, j, ht, x, hlt, hk⟩)
    · exact .self ht hn
    · exact .later hk hlt.le
    · exact .told hk hlt ht

end ThreadDag

end Prd.Foundation
