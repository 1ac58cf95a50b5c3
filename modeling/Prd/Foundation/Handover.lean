import Mathlib.Data.List.Induction
import Prd.Foundation.HappensBefore

/-!
# Handing over

What a thread has seen it sees for good, and an object passes on what was released to it until
somebody clears it. So objects that only their holders clear hand everything over from one holder
to the next.
-/
namespace Prd.Foundation

namespace RunOp

variable {T S : Type}

/-- The object forgets what was released to it. -/
def Clears (s : S) : RunOp T S → Prop
  | releaseStore _ o => o = s
  | reset o => o = s
  | _ => False

end RunOp

section Growth

variable {T S : Type} {ops more : List (RunOp T S)} {op : RunOp T S} {p q : ℕ} {t : T} {s : S}

theorem Seen.lt (h : Seen ops t p) : p < ops.length := by
  obtain ⟨q, hq, rfl | hpq⟩ := h
  · exact hq.lt
  · exact hpq.lt.1.trans hpq.lt.2

theorem Published.lt (h : Published ops s p) : p < ops.length := by
  obtain ⟨q, hq, rfl | hpq⟩ := h
  · exact hq.1.lt
  · exact hpq.lt.1.trans hpq.lt.2

theorem Seen.append (h : Seen ops t p) (more : List (RunOp T S)) : Seen (ops ++ more) t p := by
  induction more using List.reverseRecOn with
  | nil => simpa using h
  | append_singleton more op ih =>
    rw [← List.append_assoc]
    exact (seen_append ih.lt).mpr (Or.inl ih)

theorem Published.append_op (h : Published ops s p) (hop : ¬ op.Clears s) :
    Published (ops ++ [op]) s p := by
  refine (published_append h.lt).mpr ?_
  by_cases ho : op.Overwrites s
  · -- An operation that overwrites and clears nothing has acquired before it releases.
    refine Or.inr ⟨?_, happensBefore_last.mpr (Or.inr ⟨s, ?_, h⟩)⟩
    · cases op <;> simp_all [RunOp.Overwrites, RunOp.Clears, RunOp.Publishes]
    · cases op <;> simp_all [RunOp.Overwrites, RunOp.Clears, RunOp.Acquires]
  · exact Or.inl ⟨ho, h⟩

theorem Published.append (h : Published ops s p) (hmore : ∀ op ∈ more, ¬ op.Clears s) :
    Published (ops ++ more) s p := by
  induction more using List.reverseRecOn with
  | nil => simpa using h
  | append_singleton more op ih =>
    rw [← List.append_assoc]
    exact (ih fun op' hop => hmore op' (List.mem_append_left _ hop)).append_op
      (hmore op (List.mem_append_right _ List.mem_cons_self))

/-- Who acquires an object sees what it passes on. -/
theorem Published.acquire_op (h : Published ops s p) (op : RunOp T S) (ht : op.thread = some t)
    (hop : op.Acquires s) : Seen (ops ++ [op]) t p :=
  (seen_append h.lt).mpr (Or.inr ⟨ht, s, hop, h⟩)

theorem Published.acquire (h : Published ops s p) (t : T) : Seen (ops ++ [.acquire t s]) t p :=
  h.acquire_op (.acquire t s) rfl rfl

/-- What a thread has seen it passes on when it releases. -/
theorem Seen.publish (h : Seen ops t p) (op : RunOp T S) (ht : op.thread = some t)
    (hop : op.Publishes s) : Published (ops ++ [op]) s p :=
  (published_append h.lt).mpr (Or.inr ⟨hop, happensBefore_last.mpr (Or.inl ⟨t, ht, h⟩)⟩)

theorem StepOf.unique {u : T} (h : StepOf ops t p) (h' : StepOf ops u p) : t = u := by
  obtain ⟨op, hop, ht⟩ := h
  obtain ⟨op', hop', hu⟩ := h'
  cases hop.symm.trans hop'
  exact Option.some.inj (ht.symm.trans hu)

theorem RunOp.Publishes.thread (h : op.Publishes s) : ∃ t, op.thread = some t := by
  cases op <;> first | exact ⟨_, rfl⟩ | exact h.elim

theorem RunOp.Acquires.thread (h : op.Acquires s) : ∃ t, op.thread = some t := by
  cases op <;> first | exact ⟨_, rfl⟩ | exact h.elim

/-- What comes before something that another thread does was released by its thread, and the other
thread has acquired later. -/
theorem HappensBefore.handed {u : T} (h : HappensBefore ops p q) (hp : StepOf ops t p)
    (hq : StepOf ops u q) (hne : t ≠ u) : ∃ i j, p ≤ i ∧ i < j ∧ j ≤ q ∧
      IsAt ops i (fun op => op.thread = some t ∧ ∃ s, op.Publishes s) ∧
      IsAt ops j (fun op => op.thread = some u ∧ ∃ s, op.Acquires s) := by
  have hfirst : ∀ {v i s} (_ : StepOf ops v i) (_ : IsAt ops i (RunOp.Publishes s)),
      IsAt ops i fun op => op.thread = some v ∧ ∃ s, op.Publishes s := by
    rintro v i s ⟨op, hop, hv⟩ ⟨op', hop', hs⟩
    cases hop.symm.trans hop'
    exact ⟨op, hop, hv, s, hs⟩
  have hlast : ∀ {v j s} (_ : StepOf ops v j) (_ : IsAt ops j (RunOp.Acquires s)),
      IsAt ops j fun op => op.thread = some v ∧ ∃ s, op.Acquires s := by
    rintro v j s ⟨op, hop, hv⟩ ⟨op', hop', hs⟩
    cases hop.symm.trans hop'
    exact ⟨op, hop, hv, s, hs⟩
  induction h using Relation.TransGen.head_induction_on generalizing t with
  | single h =>
    cases h with
    | program v hlt hv hv' => exact absurd ((hp.unique hv).trans (hv'.unique hq)) hne
    | sync s hlt hlasts hacq => exact ⟨_, q, le_rfl, hlt, le_rfl, hfirst hp hlasts.1, hlast hq hacq⟩
  | @head p r h hrest ih =>
    cases h with
    | program v hlt hv hv' =>
      obtain rfl := hp.unique hv
      obtain ⟨i, j, hi, hij, hj, hpub, hacq⟩ := ih hv' hne
      exact ⟨i, j, hlt.le.trans hi, hij, hj, hpub, hacq⟩
    | sync s hlt hlasts hacq =>
      obtain ⟨op, hop, hs⟩ := hacq
      obtain ⟨v, hv⟩ := hs.thread
      have hstep : StepOf ops v r := ⟨op, hop, hv⟩
      by_cases hvu : v = u
      · subst hvu
        exact ⟨_, r, le_rfl, hlt, (HappensBefore.lt hrest).1.le, hfirst hp hlasts.1,
          hlast hstep ⟨op, hop, hs⟩⟩
      · obtain ⟨i, j, hi, hij, hj, -, hacq⟩ := ih hstep hvu
        exact ⟨_, j, le_rfl, by omega, hj, hfirst hp hlasts.1, hacq⟩

theorem HappensBefore.append (h : HappensBefore ops p q) (more : List (RunOp T S)) :
    HappensBefore (ops ++ more) p q := by
  induction more using List.reverseRecOn with
  | nil => simpa using h
  | append_singleton more op ih =>
    rw [← List.append_assoc]
    exact (happensBefore_append ih.lt.2).mpr ih

/-- What a thread has seen comes before what it does next. -/
theorem Seen.before (h : Seen ops t p) (hq : StepOf (ops ++ more) t q) (hlate : ops.length ≤ q) :
    HappensBefore (ops ++ more) p q := by
  obtain ⟨r, hr, hpr⟩ := h
  have hr' : StepOf (ops ++ more) t r := by
    have hlt := hr.lt
    obtain ⟨op, hop, hthread⟩ := hr
    exact ⟨op, by rw [List.getElem?_append_left hlt, hop], hthread⟩
  have hlast : HappensBefore (ops ++ more) r q := .single (.program t (hr.lt.trans_le hlate) hr' hq)
  rcases hpr with rfl | hpr
  · exact hlast
  · exact (hpr.append more).trans hlast

end Growth

section Holders

variable {T S : Type} {ops more : List (RunOp T S)} {objects : List S} {p : ℕ} {t : T}

/-- The holder of the objects has seen it, and when there is none one of the
objects passes it on. -/
def HandsOver (ops : List (RunOp T S)) (objects : List S) (p : ℕ) : Option T → Prop
  | none => ∃ s ∈ objects, Published ops s p
  | some t => Seen ops t p

variable {holder : Option T}

theorem HandsOver.append (h : HandsOver ops objects p holder)
    (hmore : ∀ op ∈ more, ∀ s ∈ objects, ¬ op.Clears s) :
    HandsOver (ops ++ more) objects p holder := by
  cases holder with
  | none =>
    obtain ⟨s, hs, hpub⟩ := h
    exact ⟨s, hs, hpub.append fun op hop => hmore op hop s hs⟩
  | some t => exact Seen.append h more

/-- The next holder acquires all the objects. -/
theorem HandsOver.take (h : HandsOver ops objects p none)
    (hmore : ∀ op ∈ more, ∀ s ∈ objects, ¬ op.Clears s)
    (hacquire : ∀ s ∈ objects, .acquire t s ∈ more) : HandsOver (ops ++ more) objects p
    (some t) := by
  obtain ⟨s, hs, hpub⟩ := h
  obtain ⟨first, rest, rfl⟩ := List.append_of_mem (hacquire s hs)
  have hsplit : ops ++ (first ++ .acquire t s :: rest) =
    (ops ++ first ++ [.acquire t s]) ++ rest := by simp
  rw [hsplit]
  have hfirst := hpub.append fun op (hop : op ∈ first) => hmore op (List.mem_append_left _ hop) s hs
  exact (hfirst.acquire t).append rest

/-- A holder leaves and releases one of the objects. -/
theorem HandsOver.leave (h : HandsOver ops objects p (some t)) {s : S} (hs : s ∈ objects)
    (op : RunOp T S) (ht : op.thread = some t) (hop : op.Publishes s) :
    HandsOver (ops ++ [op]) objects p none :=
  ⟨s, hs, Seen.publish h op ht hop⟩

end Holders

end Prd.Foundation
