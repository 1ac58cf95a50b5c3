import Mathlib.Data.List.Basic
import Mathlib.Logic.Relation
import Mathlib.Order.Nat

/-!
# Happens-before

A run interleaves what threads do. What a thread releases to an object stays there until the
object is overwritten, and whoever acquires the object until then comes after it.
-/
namespace Prd.Foundation

open Relation

inductive RunOp (T S : Type)
  | event (thread : T)
  | tick (thread : T) (time : ℕ)
  | acquire (thread : T) (object : S)
  | release (thread : T) (object : S)
  | releaseStore (thread : T) (object : S)
  | acqRel (thread : T) (object : S)
  | reset (object : S)

namespace RunOp

variable {T S : Type}

/-- Nobody resets an object. -/
def thread : RunOp T S → Option T
  | event t => some t
  | tick t _ => some t
  | acquire t _ => some t
  | release t _ => some t
  | releaseStore t _ => some t
  | acqRel t _ => some t
  | reset _ => none

def Acquires (s : S) : RunOp T S → Prop
  | acquire _ o => o = s
  | acqRel _ o => o = s
  | _ => False

def Publishes (s : S) : RunOp T S → Prop
  | release _ o => o = s
  | releaseStore _ o => o = s
  | acqRel _ o => o = s
  | _ => False

def Overwrites (s : S) : RunOp T S → Prop
  | releaseStore _ o => o = s
  | acqRel _ o => o = s
  | reset o => o = s
  | _ => False

end RunOp

variable {T S : Type}

/-- The operation at a position of a run. -/
def IsAt (ops : List (RunOp T S)) (p : ℕ) (P : RunOp T S → Prop) : Prop :=
  ∃ op, ops[p]? = some op ∧ P op

/-- The positions of a thread. -/
def StepOf (ops : List (RunOp T S)) (t : T) (p : ℕ) : Prop :=
    IsAt ops p fun op => op.thread = some t

def EventOf (ops : List (RunOp T S)) (t : T) (p : ℕ) : Prop := IsAt ops p fun op => op = .event t

/-- What is published at the position is still there. -/
def Lasts (ops : List (RunOp T S)) (s : S) (p q : ℕ) : Prop :=
  IsAt ops p (RunOp.Publishes s) ∧ ∀ r, p < r → r < q → ¬ IsAt ops r (RunOp.Overwrites s)

/-- The order of a thread, and the pairs of a release and an acquisition that sees it. -/
inductive Precedes (ops : List (RunOp T S)) (p q : ℕ) : Prop
  | program (t : T) : p < q → StepOf ops t p → StepOf ops t q → Precedes ops p q
  | sync (s : S) : p < q → Lasts ops s p q → IsAt ops q (RunOp.Acquires s) → Precedes ops p q

def HappensBefore (ops : List (RunOp T S)) : ℕ → ℕ → Prop := TransGen (Precedes ops)

/-- The thread has done it, or something that it happens before. -/
def Seen (ops : List (RunOp T S)) (t : T) (p : ℕ) : Prop :=
  ∃ q, StepOf ops t q ∧ (p = q ∨ HappensBefore ops p q)

/-- Who acquires the object now comes after it. -/
def Published (ops : List (RunOp T S)) (s : S) (p : ℕ) : Prop :=
  ∃ q, Lasts ops s q ops.length ∧ (p = q ∨ HappensBefore ops p q)

variable {ops : List (RunOp T S)} {op : RunOp T S} {P : RunOp T S → Prop} {p q : ℕ} {t : T} {s : S}

theorem IsAt.lt (h : IsAt ops p P) : p < ops.length := by
  obtain ⟨op, hop, -⟩ := h
  exact (List.getElem?_eq_some_iff.mp hop).1

theorem IsAt.lt_or_eq (h : IsAt (ops ++ [op]) p P) : p < ops.length ∨ p = ops.length := by
  have hlt := h.lt
  rw [List.length_append, List.length_singleton] at hlt
  omega

@[simp] theorem isAt_append_of_lt (hp : p < ops.length) :
    IsAt (ops ++ [op]) p P ↔ IsAt ops p P := by
  simp [IsAt, List.getElem?_append_left hp]

@[simp] theorem isAt_append_last : IsAt (ops ++ [op]) ops.length P ↔ P op := by
  simp [IsAt]

theorem Precedes.lt (h : Precedes ops p q) : p < q ∧ q < ops.length := by
  cases h with
  | program t hlt _ hq => exact ⟨hlt, hq.lt⟩
  | sync s hlt _ hq => exact ⟨hlt, hq.lt⟩

theorem HappensBefore.lt (h : HappensBefore ops p q) : p < q ∧ q < ops.length := by
  induction h with
  | single h => exact h.lt
  | tail _ h ih => exact ⟨ih.1.trans h.lt.1, h.lt.2⟩

theorem lasts_append (hpq : p < q) (hq : q ≤ ops.length) :
    Lasts (ops ++ [op]) s p q ↔ Lasts ops s p q := by
  unfold Lasts
  rw [isAt_append_of_lt (hpq.trans_le hq)]
  refine and_congr_right fun _ => forall_congr' fun r => forall_congr' fun _ =>
    forall_congr' fun hr => ?_
  rw [isAt_append_of_lt (hr.trans_le hq)]

theorem precedes_append (hq : q < ops.length) : Precedes (ops ++ [op]) p q ↔ Precedes ops p q := by
  constructor
  · intro h
    cases h with
    | program t hlt hp hq' =>
      unfold StepOf at hp hq'
      rw [isAt_append_of_lt (hlt.trans hq)] at hp
      rw [isAt_append_of_lt hq] at hq'
      exact .program t hlt hp hq'
    | sync s hlt hp hq' =>
      rw [lasts_append hlt hq.le] at hp
      rw [isAt_append_of_lt hq] at hq'
      exact .sync s hlt hp hq'
  · intro h
    cases h with
    | program t hlt hp hq' =>
      exact .program t hlt ((isAt_append_of_lt hp.lt).mpr hp) ((isAt_append_of_lt hq).mpr hq')
    | sync s hlt hp hq' =>
      exact .sync s hlt ((lasts_append hlt hq.le).mpr hp) ((isAt_append_of_lt hq).mpr hq')

/-- What happens later does not change what came before what. -/
theorem happensBefore_append (hq : q < ops.length) :
    HappensBefore (ops ++ [op]) p q ↔ HappensBefore ops p q := by
  constructor
  · intro h
    induction h with
    | single h => exact .single ((precedes_append hq).mp h)
    | tail _ h ih => exact (ih (h.lt.1.trans hq)).tail ((precedes_append hq).mp h)
  · intro h
    induction h with
    | single h => exact .single ((precedes_append hq).mpr h)
    | tail _ h ih => exact (ih (h.lt.1.trans hq)).tail ((precedes_append hq).mpr h)

theorem precedes_last {r : ℕ} : Precedes (ops ++ [op]) r ops.length ↔
    (∃ t, op.thread = some t ∧ StepOf ops t r) ∨
      ∃ s, op.Acquires s ∧ r < ops.length ∧ Lasts ops s r ops.length := by
  constructor
  · intro h
    cases h with
    | program t hlt hr hlast =>
      unfold StepOf at hr hlast
      rw [isAt_append_of_lt hlt] at hr
      rw [isAt_append_last] at hlast
      exact Or.inl ⟨t, hlast, hr⟩
    | sync s hlt hr hlast =>
      rw [lasts_append hlt le_rfl] at hr
      rw [isAt_append_last] at hlast
      exact Or.inr ⟨s, hlast, hlt, hr⟩
  · rintro (⟨t, ht, hr⟩ | ⟨s, hs, hlt, hr⟩)
    · exact .program t hr.lt ((isAt_append_of_lt hr.lt).mpr hr) (isAt_append_last.mpr ht)
    · exact .sync s hlt ((lasts_append hlt le_rfl).mpr hr) (isAt_append_last.mpr hs)

/-- What comes before the last operation: what its thread has seen and what it acquires. -/
theorem happensBefore_last : HappensBefore (ops ++ [op]) p ops.length ↔
    (∃ t, op.thread = some t ∧ Seen ops t p) ∨ ∃ s, op.Acquires s ∧ Published ops s p := by
  have hstep : HappensBefore (ops ++ [op]) p ops.length ↔
      ∃ r, (p = r ∨ HappensBefore ops p r) ∧ Precedes (ops ++ [op]) r ops.length := by
    constructor
    · intro h
      rcases TransGen.tail'_iff.mp h with ⟨r, hpr, hr⟩
      refine ⟨r, ?_, hr⟩
      rcases reflTransGen_iff_eq_or_transGen.mp hpr with rfl | hpr
      · exact Or.inl rfl
      · exact Or.inr ((happensBefore_append hr.lt.1).mp hpr)
    · rintro ⟨r, rfl | hpr, hr⟩
      · exact .single hr
      · exact ((happensBefore_append hr.lt.1).mpr hpr).tail hr
  rw [hstep]
  constructor
  · rintro ⟨r, hpr, hr⟩
    rcases precedes_last.mp hr with ⟨t, ht, hrt⟩ | ⟨s, hs, -, hrs⟩
    · exact Or.inl ⟨t, ht, r, hrt, hpr⟩
    · exact Or.inr ⟨s, hs, r, hrs, hpr⟩
  · rintro (⟨t, ht, r, hrt, hpr⟩ | ⟨s, hs, r, hrs, hpr⟩)
    · exact ⟨r, hpr, precedes_last.mpr (Or.inl ⟨t, ht, hrt⟩)⟩
    · exact ⟨r, hpr, precedes_last.mpr (Or.inr ⟨s, hs, hrs.1.lt, hrs⟩)⟩

/-- What was there before the last operation comes before a position or is it. -/
theorem reaches_append (hq : q < ops.length) :
    (p = q ∨ HappensBefore (ops ++ [op]) p q) ↔ (p = q ∨ HappensBefore ops p q) :=
  or_congr_right (happensBefore_append hq)

/-- What a thread sees of the past: an operation of its own adds what it acquires. -/
theorem seen_append (hp : p < ops.length) : Seen (ops ++ [op]) t p ↔ Seen ops t p ∨
    op.thread = some t ∧ ∃ s, op.Acquires s ∧ Published ops s p := by
  constructor
  · rintro ⟨q, hq, hpq⟩
    rcases hq.lt_or_eq with hlt | rfl
    · exact Or.inl ⟨q, (isAt_append_of_lt hlt).mp hq, (reaches_append hlt).mp hpq⟩
    · have ht : op.thread = some t := isAt_append_last.mp hq
      rcases happensBefore_last.mp (hpq.resolve_left hp.ne) with ⟨t', ht', hseen⟩ | hacq
      · exact Or.inl (Option.some.inj (ht'.symm.trans ht) ▸ hseen)
      · exact Or.inr ⟨ht, hacq⟩
  · rintro (⟨q, hq, hpq⟩ | ⟨ht, hacq⟩)
    · exact ⟨q, (isAt_append_of_lt hq.lt).mpr hq, (reaches_append hq.lt).mpr hpq⟩
    · exact ⟨ops.length, isAt_append_last.mpr ht, Or.inr (happensBefore_last.mpr (Or.inr hacq))⟩

/-- What an object passes on of the past: what was there and what the operation publishes. -/
theorem published_append (hp : p < ops.length) : Published (ops ++ [op]) s p ↔
    ¬ op.Overwrites s ∧ Published ops s p ∨
      op.Publishes s ∧ HappensBefore (ops ++ [op]) p ops.length := by
  have hlasts : ∀ q, q < ops.length → (Lasts (ops ++ [op]) s q (ops ++ [op]).length ↔
      ¬ op.Overwrites s ∧ Lasts ops s q ops.length) := by
    intro q hq
    unfold Lasts
    rw [isAt_append_of_lt hq, List.length_append, List.length_singleton]
    constructor
    · rintro ⟨hpub, hno⟩
      refine ⟨fun hop => hno ops.length hq (Nat.lt_succ_self _) (isAt_append_last.mpr hop), hpub,
        fun r hqr hr hat => hno r hqr (hr.trans (Nat.lt_succ_self _))
          ((isAt_append_of_lt hr).mpr hat)⟩
    · rintro ⟨hop, hpub, hno⟩
      refine ⟨hpub, fun r hqr hr hat => ?_⟩
      rcases Nat.lt_succ_iff_lt_or_eq.mp hr with hr | rfl
      · exact hno r hqr hr ((isAt_append_of_lt hr).mp hat)
      · exact hop (isAt_append_last.mp hat)
  constructor
  · rintro ⟨q, hq, hpq⟩
    rcases hq.1.lt_or_eq with hlt | rfl
    · obtain ⟨hop, hq⟩ := (hlasts q hlt).mp hq
      exact Or.inl ⟨hop, q, hq, (reaches_append hlt).mp hpq⟩
    · exact Or.inr ⟨isAt_append_last.mp hq.1, hpq.resolve_left hp.ne⟩
  · rintro (⟨hop, q, hq, hpq⟩ | ⟨hop, hpq⟩)
    · exact ⟨q, (hlasts q hq.1.lt).mpr ⟨hop, hq⟩, (reaches_append hq.1.lt).mpr hpq⟩
    · refine ⟨ops.length, ⟨isAt_append_last.mpr hop, fun r hr hr' => ?_⟩, Or.inr hpq⟩
      rw [List.length_append, List.length_singleton] at hr'
      omega

/-- Nothing comes after the last operation. -/
theorem not_happensBefore_last : ¬ HappensBefore (ops ++ [op]) ops.length q := by
  intro h
  have hlt := h.lt
  rw [List.length_append, List.length_singleton] at hlt
  omega

/-- Only its own thread has seen an operation that publishes nothing. -/
theorem seen_last : Seen (ops ++ [op]) t ops.length ↔ op.thread = some t := by
  constructor
  · rintro ⟨q, hq, rfl | hpq⟩
    · exact isAt_append_last.mp hq
    · exact absurd hpq not_happensBefore_last
  · exact fun ht => ⟨ops.length, isAt_append_last.mpr ht, Or.inl rfl⟩

theorem published_last : Published (ops ++ [op]) s ops.length ↔ op.Publishes s := by
  constructor
  · rintro ⟨q, hq, rfl | hpq⟩
    · exact isAt_append_last.mp hq.1
    · exact absurd hpq not_happensBefore_last
  · intro hop
    refine ⟨ops.length, ⟨isAt_append_last.mpr hop, fun r hr hr' => ?_⟩, Or.inl rfl⟩
    rw [List.length_append, List.length_singleton] at hr'
    omega

theorem eventOf_append : EventOf (ops ++ [op]) t p ↔
    EventOf ops t p ∨ p = ops.length ∧ op = .event t := by
  constructor
  · intro h
    rcases h.lt_or_eq with hp | rfl
    · exact Or.inl ((isAt_append_of_lt hp).mp h)
    · unfold EventOf at h
      rw [isAt_append_last] at h
      exact Or.inr ⟨rfl, h⟩
  · rintro (h | ⟨rfl, hop⟩)
    · exact (isAt_append_of_lt h.lt).mpr h
    · exact isAt_append_last.mpr hop

theorem EventOf.seen (h : EventOf ops t p) : Seen ops t p := by
  obtain ⟨op, hop, rfl⟩ := h
  exact ⟨p, ⟨_, hop, rfl⟩, Or.inl rfl⟩

end Prd.Foundation
