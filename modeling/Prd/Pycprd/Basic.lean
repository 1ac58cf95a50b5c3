import Mathlib.Data.Nat.Bitwise
import Mathlib.Logic.Function.Basic
import Mathlib.Tactic.Common
import Mathlib.Tactic.IntervalCases
import Prd.Foundation.Dict

/-!
# Exceptions and cache-line arithmetic

A function of the analyzer that may raise returns in `Py`. Addresses, sizes and
thread ids are natural numbers, and a cache line is named by its first address.
-/
namespace Prd.Pycprd

open Prd.Foundation

abbrev ThreadId := ℕ
abbrev Cacheline := ℕ

/-- The exceptions that are raised. The last two are none: `negative` stands for a program that goes
on with a negative number, of which nothing is said here, and `outOfFuel` for a loop that has not
ended. -/
inductive PyError
  | assertionError (msg : String)
  | keyError
  | indexError
  | typeError
  | attributeError
  | valueError
  | networkXUnfeasible
  | runtimeError
  | negative
  | outOfFuel
  deriving DecidableEq, Repr

abbrev Py := Except PyError

/-- The statement `assert c, msg`. -/
def pyAssert (c : Bool) (msg : String) : Py Unit :=
  if c then pure () else throw (.assertionError msg)

@[simp] theorem ok_bind {α β : Type} (a : α) (f : α → Py β) : (Except.ok a : Py α) >>= f = f a :=
  rfl

@[simp] theorem pure_eq_ok {α : Type} (a : α) : (pure a : Py α) = .ok a := rfl

theorem bind_eq_ok {α β : Type} {x : Py α} {f : α → Py β} {b : β} :
    x >>= f = .ok b ↔ ∃ a, x = .ok a ∧ f a = .ok b := by
  cases x with
  | error e => exact ⟨fun h => (nomatch h), fun ⟨_, h, _⟩ => (nomatch h)⟩
  | ok a => exact ⟨fun h => ⟨a, rfl, h⟩, fun ⟨_, h, hf⟩ => by cases h; exact hf⟩

@[simp] theorem pyAssert_eq_ok {c : Bool} {msg : String} :
    pyAssert c msg = .ok () ↔ c = true := by
  cases c
  · exact ⟨fun h => (nomatch h), fun h => (nomatch h)⟩
  · exact ⟨fun _ => rfl, fun _ => rfl⟩

/-- A fold that succeeds has made the step of each element. -/
theorem foldlM_step_ok {σ α : Type} {f : σ → α → Py σ} {l : List α} {s s' : σ}
    (h : l.foldlM f s = .ok s') {x : α} (hx : x ∈ l) : ∃ t t', f t x = .ok t' := by
  induction l generalizing s with
  | nil => cases hx
  | cons y l ih =>
    obtain ⟨t, hy, hl⟩ := bind_eq_ok.mp h
    rcases List.mem_cons.mp hx with rfl | hx
    · exact ⟨s, t, hy⟩
    · exact ih hl hx

theorem pyAssert_bind {α : Type} {c : Bool} (h : c = true) (msg : String) (f : Unit → Py α) :
    pyAssert c msg >>= f = f () := by
  subst h; rfl

/-- A loop whose calls all return collects what they return. -/
theorem exists_mapM {α β : Type} {f : α → Py β} {R : α → β → Prop} {l : List α}
    (h : ∀ x ∈ l, ∃ y, f x = .ok y ∧ R x y) :
    ∃ ys, l.mapM f = .ok ys ∧ (∀ y ∈ ys, ∃ x ∈ l, R x y) ∧ ∀ x ∈ l, ∃ y ∈ ys, R x y := by
  induction l with
  | nil => exact ⟨[], rfl, by simp, by simp⟩
  | cons x l ih =>
    obtain ⟨y, hy, hR⟩ := h x List.mem_cons_self
    obtain ⟨ys, hys, hall, hex⟩ := ih fun x' hx' => h x' (List.mem_cons_of_mem x hx')
    refine ⟨y :: ys, by rw [List.mapM_cons, hy, hys]; rfl, ?_, ?_⟩
    · rw [List.forall_mem_cons]
      refine ⟨⟨x, List.mem_cons_self, hR⟩, fun y' hy' => ?_⟩
      obtain ⟨x', hx', hR'⟩ := hall y' hy'
      exact ⟨x', List.mem_cons_of_mem x hx', hR'⟩
    · rw [List.forall_mem_cons]
      refine ⟨⟨y, List.mem_cons_self, hR⟩, fun x' hx' => ?_⟩
      obtain ⟨y', hy', hR'⟩ := hex x' hx'
      exact ⟨y', List.mem_cons_of_mem y hy', hR'⟩

/-- A call that returns, returns what `get` extracts. -/
theorem eq_ok_get {α : Type} {x : Py α} (h : x.toOption.isSome = true) :
    x = .ok (x.toOption.get h) := by
  cases x with
  | error e => cases h
  | ok a => rfl

/-- A relation between two families, of which one member each is changed. -/
theorem forall_update {ι α β : Type} [DecidableEq ι] {R : ι → α → β → Prop} {s : ι → α}
    {s' : ι → β} (h : ∀ k, R k (s k) (s' k)) (i : ι) {a : α} {b : β} (hi : R i a b) (k : ι) :
    R k (Function.update s i a k) (Function.update s' i b k) := by
  rw [Function.update_apply, Function.update_apply]
  split_ifs with hk
  · rw [hk]
    exact hi
  · exact h k

/-- The same, where the other family stays as it is. -/
theorem forall_update_left {ι α β : Type} [DecidableEq ι] {R : ι → α → β → Prop} {s : ι → α}
    {s' : ι → β} (h : ∀ k, R k (s k) (s' k)) (i : ι) {a : α} (hi : R i a (s' i)) (k : ι) :
    R k (Function.update s i a k) (s' k) := by
  have hboth := forall_update h i hi k
  rwa [Function.update_eq_self] at hboth

/-- The subscript `d[k]` of a plain dictionary. -/
def pyGet {κ α : Type} [DecidableEq κ] (d : Dict κ α) (k : κ) : Py α :=
  match d.lookup k with
  | some v => pure v
  | none => throw .keyError

theorem pyGet_eq {κ α : Type} [DecidableEq κ] {d : Dict κ α} {k : κ} (h : k ∈ d) (v : α) :
    pyGet d k = .ok (d.getD k v) := by
  unfold pyGet
  rw [Dict.lookup_eq_some_getD h v]
  rfl

theorem pyGet_of_notMem {κ α : Type} [DecidableEq κ] {d : Dict κ α} {k : κ} (h : k ∉ d) :
    pyGet d k = .error .keyError := by
  unfold pyGet
  rw [AList.lookup_eq_none.mpr h]
  rfl

def defaultCachelineSize : ℕ := 64

def getCachelineAddress (address cachelineSize : ℕ) : Cacheline :=
  let mask := (2 ^ 64 - 1) * cachelineSize
  address &&& mask

def getCachelineInterval (address size cachelineSize : ℕ) : ℕ × ℕ :=
  let mask := (2 ^ 64 - 1) * cachelineSize
  let start := address &&& mask
  let stop := (address + size + cachelineSize - 1) &&& mask
  (start, stop)

/-- The list of `range(start, stop, step)`. -/
def pyRange (start stop step : ℕ) : List ℕ :=
  List.range' start ((stop - start + step - 1) / step) step

/-- The interval is always taken with the default size: the argument is only the step. -/
def getCachelineAddresses (address size cachelineSize : ℕ) : Py (List Cacheline) := do
  let i := getCachelineInterval address size defaultCachelineSize
  let l := pyRange i.1 i.2 cachelineSize
  pyAssert (l.length == 1) s!"got more than 1 cacheline ({l.length})"
  pure l

/-- A mask of `n` bits from bit `k` on keeps the quotient by `2 ^ k` modulo `2 ^ n`. -/
theorem and_mask_eq (x n k : ℕ) :
    x &&& ((2 ^ n - 1) <<< k) = 2 ^ k * (x / 2 ^ k % 2 ^ n) := by
  have hmul : 2 ^ k * (x / 2 ^ k % 2 ^ n) = (x >>> k &&& (2 ^ n - 1)) <<< k := by
    rw [Nat.and_two_pow_sub_one_eq_mod, Nat.shiftRight_eq_div_pow, Nat.shiftLeft_eq, Nat.mul_comm]
  rw [hmul]
  apply Nat.eq_of_testBit_eq
  intro i
  simp only [Nat.testBit_and, Nat.testBit_shiftLeft, Nat.testBit_shiftRight]
  by_cases hi : k ≤ i
  · simp [hi]
  · simp [hi]

/-- The mask keeps the line number modulo `2 ^ 64`. -/
theorem getCachelineAddress_eq (a : ℕ) :
    getCachelineAddress a defaultCachelineSize = 64 * (a / 64 % 2 ^ 64) := by
  have hmask : (2 ^ 64 - 1) * defaultCachelineSize = (2 ^ 64 - 1) <<< 6 := rfl
  unfold getCachelineAddress
  rw [hmask]
  exact and_mask_eq a 64 6

theorem getCachelineAddress_two_pow {a : ℕ} (ha : a < 2 ^ 64) (k : ℕ) :
    getCachelineAddress a (2 ^ k) = 2 ^ k * (a / 2 ^ k) := by
  have hlt : a / 2 ^ k < 2 ^ 64 := lt_of_le_of_lt (Nat.div_le_self a _) ha
  unfold getCachelineAddress
  rw [← Nat.shiftLeft_eq, and_mask_eq, Nat.mod_eq_of_lt hlt]

/-- What stays in one block of at most 64 bytes stays in one line. -/
theorem le_of_block {a s k : ℕ} (hk : k ≤ 6) (h : a + s ≤ 2 ^ k * (a / 2 ^ k) + 2 ^ k) :
    a % 64 + s ≤ 64 := by
  interval_cases k <;> omega

/-- A block of more than 64 bytes is not one line. -/
theorem getCachelineAddresses_block {a k : ℕ} (hk : 6 < k) (hdvd : 2 ^ k ∣ a)
    (hle : a + 2 ^ k ≤ 2 ^ 64) (l : List Cacheline) :
    getCachelineAddresses a (2 ^ k) defaultCachelineSize ≠ .ok l := by
  have hblock : 128 ∣ 2 ^ k := by
    have h7 : 2 ^ 7 ∣ 2 ^ k := pow_dvd_pow 2 hk
    exact h7
  have ha : 128 ∣ a := hblock.trans hdvd
  have hpos : 0 < 2 ^ k := Nat.two_pow_pos k
  have hstart := getCachelineAddress_eq a
  have hstop := getCachelineAddress_eq (a + 2 ^ k + 64 - 1)
  rw [Nat.mod_eq_of_lt (by omega)] at hstart hstop
  have hlen : (pyRange (getCachelineInterval a (2 ^ k) defaultCachelineSize).1
      (getCachelineInterval a (2 ^ k) defaultCachelineSize).2 defaultCachelineSize).length ≠ 1 := by
    unfold pyRange getCachelineInterval
    unfold getCachelineAddress at hstart hstop
    simp only [defaultCachelineSize] at hstart hstop ⊢
    simp only [hstart, hstop, List.length_range']
    omega
  intro h
  obtain ⟨_, hassert, -⟩ := bind_eq_ok.mp h
  exact hlen (beq_iff_eq.mp (pyAssert_eq_ok.mp hassert))

/-- The interval from `address` on lies in one 64-byte line of the 64-bit address space. -/
def InOneLine (address size : ℕ) : Prop := address < 2 ^ 64 ∧ address % 64 + size ≤ 64

instance (address size : ℕ) : Decidable (InOneLine address size) :=
  inferInstanceAs (Decidable (_ ∧ _))

theorem line_eq {a : ℕ} (ha : a < 2 ^ 64) :
    getCachelineAddress a defaultCachelineSize = 64 * (a / 64) := by
  have hlt : a / 64 < 2 ^ 64 := lt_of_le_of_lt (Nat.div_le_self a 64) ha
  rw [getCachelineAddress_eq, Nat.mod_eq_of_lt hlt]

/-- What ends in the line that it starts in has the interval of that line. The mask makes the
interval a function of the line, also past the end of the address space. -/
theorem getCachelineInterval_eq_iff {a s b t : ℕ} (ha : a % 64 + s ≤ 64) (hb : b % 64 + t ≤ 64)
    (hs : s ≠ 0) (ht : t ≠ 0) :
    getCachelineInterval a s defaultCachelineSize = getCachelineInterval b t defaultCachelineSize ↔
      getCachelineAddress a defaultCachelineSize = getCachelineAddress b defaultCachelineSize := by
  have hstop (x u : ℕ) (hx : x % 64 + u ≤ 64) (hu : u ≠ 0) :
      (getCachelineInterval x u defaultCachelineSize).2 = 64 * ((x / 64 + 1) % 2 ^ 64) := by
    have hdiv : (x + u + 64 - 1) / 64 = x / 64 + 1 := by omega
    exact (getCachelineAddress_eq (x + u + 64 - 1)).trans (by rw [hdiv])
  rw [Prod.ext_iff, hstop a s ha hs, hstop b t hb ht]
  constructor
  · intro h
    exact h.1
  · intro h
    refine ⟨h, ?_⟩
    rw [getCachelineAddress_eq, getCachelineAddress_eq] at h
    have hmod : a / 64 % 2 ^ 64 = b / 64 % 2 ^ 64 := Nat.eq_of_mul_eq_mul_left (by decide) h
    rw [Nat.add_mod, hmod, ← Nat.add_mod]

theorem getCachelineInterval_eq {a s : ℕ} (h : InOneLine a s) (hs : s ≠ 0) :
    getCachelineInterval a s defaultCachelineSize = (64 * (a / 64), 64 * (a / 64) + 64) := by
  obtain ⟨ha, hle⟩ := h
  have hstart := line_eq ha
  have hstop := getCachelineAddress_eq (a + s + 64 - 1)
  have hdiv : (a + s + 64 - 1) / 64 = a / 64 + 1 := by omega
  have hlt : a / 64 + 1 < 2 ^ 64 := by omega
  rw [hdiv, Nat.mod_eq_of_lt hlt] at hstop
  exact Prod.ext hstart hstop

theorem getCachelineAddresses_eq {a s : ℕ} (h : InOneLine a s) (hs : s ≠ 0) :
    getCachelineAddresses a s defaultCachelineSize
      = .ok [getCachelineAddress a defaultCachelineSize] := by
  have hlist : pyRange (64 * (a / 64)) (64 * (a / 64) + 64) defaultCachelineSize
      = [64 * (a / 64)] := by
    simp [pyRange, defaultCachelineSize]
  unfold getCachelineAddresses
  simp only [getCachelineInterval_eq h hs, hlist, line_eq h.1]
  rfl

/-- Overlapping intervals that each stay in one line are on the same line. -/
theorem line_eq_of_overlap {a s b t : ℕ} (ha : InOneLine a s) (hb : InOneLine b t)
    (h : max a b < min (a + s) (b + t)) :
    getCachelineAddress a defaultCachelineSize = getCachelineAddress b defaultCachelineSize := by
  rw [line_eq ha.1, line_eq hb.1]
  have h1 := ha.2
  have h2 := hb.2
  have hdiv : a / 64 = b / 64 := by omega
  rw [hdiv]

end Prd.Pycprd
