import Mathlib.Order.BoundedOrder.Basic
import Mathlib.Order.Lattice
import Mathlib.Order.MinMax

/-!
# Clocks as summaries of sets of points

Points lie on tracks and carry a stamp from a linear order with a least element.
A clock keeps one stamp for each track. It summarizes a set of points when the
stamps it dominates on a track are exactly those some member of the set dominates.
-/
namespace Prd.Foundation

variable {V T E : Type*} [LinearOrder E] [OrderBot E]

/-- `clock` dominates a stamp above `⊥` on a track exactly when a member of `P` does. -/
def Summarizes (track : V → T) (stamp : V → E) (clock : T → E) (P : V → Prop) : Prop :=
  ∀ s e, ⊥ < e → (e ≤ clock s ↔ ∃ y, P y ∧ track y = s ∧ e ≤ stamp y)

namespace Summarizes

variable {track : V → T} {stamp : V → E} {clock clock' : T → E} {P Q : V → Prop}

theorem congr (h : Summarizes track stamp clock P) (hPQ : ∀ y, P y ↔ Q y) :
    Summarizes track stamp clock Q := by
  intro s e he
  simp only [h s e he, hPQ]

theorem congr_clock (h : Summarizes track stamp clock P) (hc : ∀ s, clock' s = clock s) :
    Summarizes track stamp clock' P := by
  intro s e he
  rw [hc s, h s e he]

theorem bot (hc : ∀ s, clock s = ⊥) (hP : ∀ y, ¬ P y) : Summarizes track stamp clock P := by
  intro s e he
  rw [hc s]
  constructor
  · intro h; exact absurd (lt_of_lt_of_le he h) (lt_irrefl _)
  · rintro ⟨y, hy, _⟩; exact absurd hy (hP y)

theorem sup (h : Summarizes track stamp clock P) (h' : Summarizes track stamp clock' Q) :
    Summarizes track stamp (fun s => max (clock s) (clock' s)) (fun y => P y ∨ Q y) := by
  intro s e he
  rw [le_max_iff, h s e he, h' s e he]
  constructor
  · rintro (⟨y, hy, hr⟩ | ⟨y, hy, hr⟩)
    · exact ⟨y, Or.inl hy, hr⟩
    · exact ⟨y, Or.inr hy, hr⟩
  · rintro ⟨y, hy | hy, hr⟩
    · exact Or.inl ⟨y, hy, hr⟩
    · exact Or.inr ⟨y, hy, hr⟩

/-- Raising one component to a stamp adds a point that has it. -/
theorem insert [DecidableEq T] (h : Summarizes track stamp clock P) {n : V}
    (hn : clock (track n) ≤ stamp n)
    (hc : ∀ s, clock' s = if s = track n then stamp n else clock s) :
    Summarizes track stamp clock' (fun y => P y ∨ y = n) := by
  intro s e he
  rw [hc s]
  split_ifs with hs
  · subst hs
    constructor
    · intro hle; exact ⟨n, Or.inr rfl, rfl, hle⟩
    · rintro ⟨y, hy | rfl, ht, hle⟩
      · exact le_trans ((h _ e he).mpr ⟨y, hy, ht, hle⟩) hn
      · exact hle
  · rw [h s e he]
    constructor
    · rintro ⟨y, hy, hr⟩; exact ⟨y, Or.inl hy, hr⟩
    · rintro ⟨y, hy | rfl, ht, hle⟩
      · exact ⟨y, hy, ht, hle⟩
      · exact absurd ht.symm hs

theorem mono (h : Summarizes track stamp clock P) (h' : Summarizes track stamp clock' Q)
    (hPQ : ∀ y, P y → Q y) (s : T) : clock s ≤ clock' s := by
  rcases eq_or_ne (clock s) ⊥ with hb | hb
  · rw [hb]; exact bot_le
  · have hlt : ⊥ < clock s := bot_lt_iff_ne_bot.mpr hb
    obtain ⟨y, hy, ht, hle⟩ := (h s _ hlt).mp le_rfl
    exact (h' s _ hlt).mpr ⟨y, hPQ y hy, ht, hle⟩

/-- A clock component is the greatest stamp of its track, or `⊥` when there is none. -/
theorem eq_bot_or_greatest (h : Summarizes track stamp clock P) (hs : ∀ y, P y → ⊥ < stamp y)
    (s : T) :
    (clock s = ⊥ ∧ ∀ y, P y → track y ≠ s) ∨
      ∃ y, P y ∧ track y = s ∧ clock s = stamp y ∧
        ∀ z, P z → track z = s → stamp z ≤ stamp y := by
  have hub : ∀ z, P z → track z = s → stamp z ≤ clock s := fun z hz ht =>
    (h s _ (hs z hz)).mpr ⟨z, hz, ht, le_rfl⟩
  rcases eq_or_ne (clock s) ⊥ with hb | hb
  · left
    refine ⟨hb, fun y hy ht => ?_⟩
    have hlt := hs y hy
    rw [← hb] at hlt
    exact absurd (hub y hy ht) (not_le.mpr hlt)
  · right
    obtain ⟨y, hy, ht, hle⟩ := (h s _ (bot_lt_iff_ne_bot.mpr hb)).mp le_rfl
    have he : clock s = stamp y := le_antisymm hle (hub y hy ht)
    exact ⟨y, hy, ht, he, fun z hz hzt => he ▸ hub z hz hzt⟩

end Summarizes

end Prd.Foundation
