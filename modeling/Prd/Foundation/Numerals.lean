import Mathlib.Data.Nat.Digits.Defs
import Mathlib.Tactic.Common
import Mathlib.Tactic.IntervalCases

/-!
# The characters of numerals

Numerals to a base of at most sixteen consist of digits and small letters.
-/
namespace Prd.Foundation

variable {b : ℕ}

theorem isAlphanum_digitChar {d : ℕ} (hd : d < 16) : (Nat.digitChar d).isAlphanum = true := by
  interval_cases d <;> rfl

/-- A property of the digits holds of the whole numeral. -/
theorem of_mem_toDigits {P : Char → Prop} (hb : 1 < b) (hP : ∀ d < b, P (Nat.digitChar d)) (n : ℕ) :
    ∀ c ∈ Nat.toDigits b n, P c := by
  induction n using Nat.strong_induction_on with
  | _ n ih =>
    intro c hc
    rw [Nat.toDigits_eq_if hb] at hc
    split_ifs at hc with hlt
    · rw [List.mem_singleton.mp hc]
      exact hP n hlt
    · rcases List.mem_append.mp hc with hc | hc
      · exact ih _ (Nat.div_lt_self (by omega) hb) c hc
      · rw [List.mem_singleton.mp hc]
        exact hP _ (Nat.mod_lt n (by omega))

theorem isAlphanum_of_mem_toDigits (hb : 1 < b) (hb' : b ≤ 16) {n : ℕ} {c : Char}
    (hc : c ∈ Nat.toDigits b n) : c.isAlphanum = true :=
  of_mem_toDigits (P := fun c => c.isAlphanum = true) hb
    (fun _ hd => isAlphanum_digitChar (lt_of_lt_of_le hd hb')) n c hc

theorem toNat_of_isAlphanum {c : Char} (hc : c.isAlphanum = true) :
    48 ≤ c.toNat ∧ c.toNat ≤ 57 ∨ 65 ≤ c.toNat ∧ c.toNat ≤ 90 ∨ 97 ≤ c.toNat ∧ c.toNat ≤ 122 := by
  have hranges : (decide (c.val ≥ 'A'.val ∧ c.val ≤ 'Z'.val) ||
      decide (c.val ≥ 'a'.val) && decide (c.val ≤ 'z'.val) ||
      decide (c.val ≥ '0'.val) && decide (c.val ≤ '9'.val)) = true := hc
  simp only [Bool.or_eq_true, Bool.and_eq_true, decide_eq_true_eq, UInt32.le_iff_toNat_le,
    ge_iff_le] at hranges
  have hval : c.toNat = c.val.toNat := rfl
  have hconst : '0'.val.toNat = 48 ∧ '9'.val.toNat = 57 ∧ 'A'.val.toNat = 65 ∧ 'Z'.val.toNat = 90 ∧
      'a'.val.toNat = 97 ∧ 'z'.val.toNat = 122 := by decide
  omega

end Prd.Foundation
