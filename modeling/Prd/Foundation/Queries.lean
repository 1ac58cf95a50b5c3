import Mathlib.Data.List.Basic

/-!
# Queries and the runs without them

An object takes calls, some of which are queries. Queries are pure in a run if each returns,
and returns what it would return had the earlier queries not been made. It is enough to relate
the states of the two runs, by a relation that a mutator keeps on both sides and a query on
the one side on which it is made.
-/
namespace Prd.Foundation

variable {σ γ ε α : Type*}

section Runs

variable (step : σ → γ → Except ε α × σ) (isQuery : γ → Bool)

def runFrom (s : σ) (calls : List γ) : σ := calls.foldl (fun s c => (step s c).2) s

def withoutQueries (calls : List γ) : List γ := calls.filter fun c => ! isQuery c

/-- Each query returns what it returns after the mutators alone. -/
def PureQueries (s s' : σ) (calls : List γ) : Prop :=
  ∀ pre q post, calls = pre ++ q :: post → isQuery q = true →
    ∃ a, (step (runFrom step s pre) q).1 = .ok a ∧
      (step (runFrom step s' (withoutQueries isQuery pre)) q).1 = .ok a

/-- All calls meet a condition on the call and the states in which the two runs make it. -/
def AllFine (fine : σ → σ → γ → Prop) : σ → σ → List γ → Prop
  | _, _, [] => True
  | s, s', c :: calls =>
    fine s s' c ∧ AllFine fine (step s c).2 (if isQuery c then s' else (step s' c).2) calls

end Runs

variable {step : σ → γ → Except ε α × σ} {isQuery : γ → Bool} {fine : σ → σ → γ → Prop}

theorem AllFine.nil (s s' : σ) : AllFine step isQuery fine s s' [] := trivial

theorem AllFine.cons {s s' : σ} {c : γ} {calls : List γ} (hc : fine s s' c)
    (h : AllFine step isQuery fine (step s c).2 (if isQuery c then s' else (step s' c).2) calls) :
    AllFine step isQuery fine s s' (c :: calls) := ⟨hc, h⟩

/-- What a relation between the two runs has to do. -/
structure ErasesQueries (step : σ → γ → Except ε α × σ) (isQuery : γ → Bool)
    (fine : σ → σ → γ → Prop) (R : σ → σ → Prop) : Prop where
  mutator : ∀ {s s' c}, R s s' → isQuery c = false → fine s s' c → R (step s c).2 (step s' c).2
  query : ∀ {s s' c}, R s s' → isQuery c = true → fine s s' c → R (step s c).2 s'
  answer : ∀ {s s' c}, R s s' → isQuery c = true → fine s s' c →
    ∃ a, (step s c).1 = .ok a ∧ (step s' c).1 = .ok a

theorem ErasesQueries.pureQueries {R : σ → σ → Prop} (h : ErasesQueries step isQuery fine R)
    {calls : List γ} {s s' : σ} (hR : R s s') (hfine : AllFine step isQuery fine s s' calls) :
    PureQueries step isQuery s s' calls := by
  induction calls generalizing s s' with
  | nil =>
    intro pre q post heq
    exact absurd heq (by simp)
  | cons c calls ih =>
    obtain ⟨hc, hrest⟩ := hfine
    intro pre q post heq hq
    cases pre with
    | nil =>
      obtain ⟨rfl, -⟩ := List.cons.inj heq
      exact h.answer hR hq hc
    | cons c' pre =>
      obtain ⟨rfl, hcalls⟩ := List.cons.inj heq
      cases hcq : isQuery c with
      | true =>
        rw [hcq, if_pos rfl] at hrest
        have hans := ih (h.query hR hcq hc) hrest pre q post hcalls hq
        have hwithout : withoutQueries isQuery (c :: pre) = withoutQueries isQuery pre :=
          List.filter_cons_of_neg (by simp [hcq])
        rw [hwithout]
        exact hans
      | false =>
        rw [hcq, if_neg Bool.false_ne_true] at hrest
        have hans := ih (h.mutator hR hcq hc) hrest pre q post hcalls hq
        have hwithout : withoutQueries isQuery (c :: pre) = c :: withoutQueries isQuery pre :=
          List.filter_cons_of_pos (by simp [hcq])
        rw [hwithout]
        exact hans

end Prd.Foundation
