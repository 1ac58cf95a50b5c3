import Prd.Foundation.Gossip
import Prd.Foundation.Digraph

/-!
# Sweeps over a threaded graph

A sweep handles the points one after another and keeps an invariant on what was
handled. A backward sweep in which every point writes to its parents before it
takes in its own mail follows the paths without two messages in a row.
-/
namespace Prd.Foundation

open Relation

/-- A sweep that can take every step keeps its invariant. -/
theorem foldlM_invariant {σ ε V : Type} {step : σ → V → Except ε σ} {Inv : List V → σ → Prop}
    {order : List V} {s₀ : σ} (h₀ : Inv [] s₀)
    (hstep : ∀ seen n rest s, order = seen ++ n :: rest → Inv seen s →
      ∃ s', step s n = .ok s' ∧ Inv (seen ++ [n]) s') {pre post : List V}
    (horder : order = pre ++ post) : ∃ s, pre.foldlM step s₀ = .ok s ∧ Inv pre s := by
  induction pre using List.reverseRecOn generalizing post with
  | nil => exact ⟨s₀, rfl, h₀⟩
  | append_singleton pre n ih =>
    have hsplit : order = pre ++ n :: post := by rw [horder]; simp
    obtain ⟨s, hs, hI⟩ := ih hsplit
    obtain ⟨s', hs', hI'⟩ := hstep pre n post s hsplit hI
    refine ⟨s', ?_, hI'⟩
    rw [List.foldlM_append, hs]
    show (step s n >>= fun s' => pure s') = _
    rw [hs']
    rfl

namespace ThreadDag

variable {V T : Type} {G : ThreadDag V T}

/-- Paths without two messages in a row, and not ending with a message. -/
inductive Hops (G : ThreadDag V T) : V → V → Prop
  | stay {x} : G.Point x → Hops G x x
  | later {x y w} : G.Lt x y → Hops G y w → Hops G x w
  | sent {x c y w} : c ∈ G.kids x → G.Lt c y → Hops G y w → Hops G x w

theorem Hops.point {x w : V} (h : G.Hops x w) : G.Point x ∧ G.Point w := by
  induction h with
  | stay hx => exact ⟨hx, hx⟩
  | later hlt _ ih => exact ⟨hlt.1, ih.2⟩
  | sent hc _ _ ih => exact ⟨(G.kids_point hc).1, ih.2⟩

theorem Hops.reach {x w : V} (h : G.Hops x w) : ReflTransGen G.Step x w := by
  induction h with
  | stay _ => exact .refl
  | later hlt _ ih => exact .head (Or.inl hlt) ih
  | sent hc hlt _ ih => exact .head (Or.inr hc) (.head (Or.inl hlt) ih)

theorem hops_iff {x w : V} (hx : G.Point x) :
    G.Hops x w ↔ x = w ∨ (∃ y, G.Lt x y ∧ G.Hops y w) ∨
      ∃ c ∈ G.kids x, ∃ y, G.Lt c y ∧ G.Hops y w := by
  constructor
  · rintro (_ | ⟨hlt, h⟩ | ⟨hc, hlt, h⟩)
    · exact Or.inl rfl
    · exact Or.inr (Or.inl ⟨_, hlt, h⟩)
    · exact Or.inr (Or.inr ⟨_, hc, _, hlt, h⟩)
  · rintro (rfl | ⟨y, hlt, h⟩ | ⟨c, hc, y, hlt, h⟩)
    · exact .stay hx
    · exact .later hlt h
    · exact .sent hc hlt h

theorem Hops.trans_lt {x w w' : V} (h : G.Hops x w) (hlt : G.Lt w w') : G.Hops x w' := by
  induction h with
  | stay hx => exact .later hlt (.stay hlt.2.1)
  | later hxy _ ih => exact .later hxy (ih hlt)
  | sent hc hcy _ ih => exact .sent hc hcy (ih hlt)

/-- What the thread knows strictly after a point is ahead of it. -/
def Ahead (G : ThreadDag V T) (x w : V) : Prop := ∃ y, G.Lt x y ∧ G.Hops y w

theorem Ahead.reach {x w : V} (h : G.Ahead x w) : G.Reach x w := by
  obtain ⟨y, hlt, hy⟩ := h
  exact TransGen.head' (Or.inl hlt) hy.reach

theorem Ahead.trans_lt {x w w' : V} (h : G.Ahead x w) (hlt : G.Lt w w') : G.Ahead x w' := by
  obtain ⟨y, hxy, hy⟩ := h
  exact ⟨y, hxy, hy.trans_lt hlt⟩

/-- Two graphs that only differ in the order in which points write to their addressees. -/
structure SameLinks (G G' : ThreadDag V T) : Prop where
  lt : ∀ a b, G.Lt a b → G'.Lt a b
  point : ∀ a, G.Point a → G'.Point a
  kids : ∀ a b, b ∈ G.kids a → b ∈ G'.kids a

variable {G' : ThreadDag V T}

theorem SameLinks.reach (h : G.SameLinks G') {a b : V} (hr : G.Reach a b) : G'.Reach a b := by
  have hstep : ∀ {x y}, G.Step x y → G'.Step x y :=
    fun hs => hs.imp (h.lt _ _) (h.kids _ _)
  induction hr with
  | single hs => exact .single (hstep hs)
  | tail _ hs ih => exact ih.tail (hstep hs)

theorem SameLinks.hops (h : G.SameLinks G') {a b : V} (hh : G.Hops a b) : G'.Hops a b := by
  induction hh with
  | stay hx => exact .stay (h.point _ hx)
  | later hlt _ ih => exact .later (h.lt _ _ hlt) ih
  | sent hc hlt _ ih => exact .sent (h.kids _ _ hc) (h.lt _ _ hlt) ih

theorem SameLinks.ahead (h : G.SameLinks G') {a b : V} (ha : G.Ahead a b) : G'.Ahead a b := by
  obtain ⟨y, hlt, hy⟩ := ha
  exact ⟨y, h.lt _ _ hlt, h.hops hy⟩

end ThreadDag

end Prd.Foundation
