import Mathlib.Data.List.Induction
import Prd.Foundation.Numerals
import Prd.Pycprd.Basic

/-!
# Python strings

Strings are lists of characters. The methods are those that the parser of traces calls;
`int` also takes the base from the prefix of a literal. White space and digits are
those of Unicode 14, and only some of the digits are decimal.
-/
namespace Prd.Pycprd

open Prd.Foundation

abbrev PyStr := List Char

instance : LawfulBEq PyStr := inferInstance

namespace PyStr

/-- White space beyond ASCII. -/
def wideSpaces : List ℕ :=
  [0x85, 0xa0, 0x1680, 0x2000, 0x2001, 0x2002, 0x2003, 0x2004, 0x2005, 0x2006, 0x2007, 0x2008,
    0x2009, 0x200a, 0x2028, 0x2029, 0x202f, 0x205f, 0x3000]

/-- The white space of C. -/
def isAsciiSpace (c : Char) : Bool := c == ' ' || decide (9 ≤ c.toNat ∧ c.toNat ≤ 13)

/-- The characters that `isspace` takes as white space. -/
def isSpace (c : Char) : Bool :=
  isAsciiSpace c || decide (28 ≤ c.toNat ∧ c.toNat ≤ 31) || wideSpaces.contains c.toNat

@[simp] theorem isSpace_blank : isSpace ' ' = true := rfl

@[simp] theorem isSpace_newline : isSpace '\n' = true := rfl

@[simp] theorem isSpace_hash : isSpace '#' = false := rfl

/-- The zeros beyond ASCII, each followed by its other nine decimal digits. -/
def wideZeros : List ℕ :=
  [0x660, 0x6f0, 0x7c0, 0x966, 0x9e6, 0xa66, 0xae6, 0xb66, 0xbe6, 0xc66, 0xce6, 0xd66, 0xde6,
    0xe50, 0xed0, 0xf20, 0x1040, 0x1090, 0x17e0, 0x1810, 0x1946, 0x19d0, 0x1a80, 0x1a90, 0x1b50,
    0x1bb0, 0x1c40, 0x1c50, 0xa620, 0xa8d0, 0xa900, 0xa9d0, 0xa9f0, 0xaa50, 0xabf0, 0xff10,
    0x104a0, 0x10d30, 0x11066, 0x110f0, 0x11136, 0x111d0, 0x112f0, 0x11450, 0x114d0, 0x11650,
    0x116c0, 0x11730, 0x118e0, 0x11950, 0x11c50, 0x11d50, 0x11da0, 0x16a60, 0x16ac0, 0x16b50,
    0x1d7ce, 0x1d7d8, 0x1d7e2, 0x1d7ec, 0x1d7f6, 0x1e140, 0x1e2f0, 0x1e950, 0x1fbf0]

/-- The value of a decimal digit beyond ASCII. -/
def wideDecimal (c : Char) : Option ℕ :=
  (wideZeros.find? fun z => decide (z ≤ c.toNat ∧ c.toNat < z + 10)).map (c.toNat - ·)

/-- Digits that are not decimal, such as superscripts, from the first to the last of each kind. -/
def otherDigits : List (ℕ × ℕ) :=
  [(0xb2, 0xb3), (0xb9, 0xb9), (0x1369, 0x1371), (0x19da, 0x19da), (0x2070, 0x2070),
    (0x2074, 0x2079), (0x2080, 0x2089), (0x2460, 0x2468), (0x2474, 0x247c), (0x2488, 0x2490),
    (0x24ea, 0x24ea), (0x24f5, 0x24fd), (0x24ff, 0x24ff), (0x2776, 0x277e), (0x2780, 0x2788),
    (0x278a, 0x2792), (0x10a40, 0x10a43), (0x10e60, 0x10e68), (0x11052, 0x1105a),
    (0x1f100, 0x1f10a)]

def isDigitChar (c : Char) : Bool :=
  c.isDigit || (wideDecimal c).isSome ||
    otherDigits.any fun kind => decide (kind.1 ≤ c.toNat ∧ c.toNat ≤ kind.2)

/-- Removes the characters with the property from both ends. -/
def stripBy (p : Char → Bool) (s : PyStr) : PyStr := ((s.dropWhile p).reverse.dropWhile p).reverse

def strip (s : PyStr) : PyStr := s.stripBy isSpace

def stripChar (s : PyStr) (c : Char) : PyStr := s.stripBy (· == c)

/-- `s.split(sep)` for a separator of one character. -/
def split (s : PyStr) (sep : Char) : List PyStr := s.splitOn sep

/-- `s.split(sep)[0]`. -/
def splitHead (s : PyStr) (sep : Char) : PyStr := (s.split sep).headD []

/-- `sep.join(l)` for a separator of one character. -/
def join (sep : Char) (l : List PyStr) : PyStr := [sep].intercalate l

def removePrefix (s pre : PyStr) : PyStr := if pre.isPrefixOf s then s.drop pre.length else s

def isDigitStr (s : PyStr) : Bool := !s.isEmpty && s.all isDigitChar

def digitVal (c : Char) : Option ℕ :=
  if c.isDigit then some (c.toNat - '0'.toNat)
  else if c.isLower then some (c.toNat - 'a'.toNat + 10)
  else if c.isUpper then some (c.toNat - 'A'.toNat + 10)
  else none

/-- The digits of a literal; an underscore may stand between two of them. -/
def readDigits (base : ℕ) : ℕ → Bool → PyStr → Option ℕ
  | acc, afterDigit, [] => if afterDigit then some acc else none
  | acc, afterDigit, c :: cs =>
    if c = '_' then if afterDigit then readDigits base acc false cs else none
    else
      match digitVal c with
      | some d => if d < base then readDigits base (acc * base + d) true cs else none
      | none => none

/-- Whether there is a minus sign, and what follows the sign. -/
def splitSign (s : PyStr) : Bool × PyStr :=
  if s.head? = some '+' then (false, s.tail)
  else if s.head? = some '-' then (true, s.tail)
  else (false, s)

def signed (negative : Bool) (n : ℕ) : ℤ := if negative then -n else n

/-- A character as `int` reads it. -/
def asciiChar (c : Char) : Char :=
  if c.toNat < 128 then c
  else if isSpace c then ' '
  else
    match wideDecimal c with
    | some d => Nat.digitChar d
    | none => '?'

/-- The text of a number in ASCII, without the white space around it. -/
def numberText (s : PyStr) : PyStr := stripBy isAsciiSpace (s.map asciiChar)

/-- `int(s)`. -/
def int (s : PyStr) : Py ℤ :=
  let r := splitSign s.numberText
  match readDigits 10 0 false r.2 with
  | some n => pure (signed r.1 n)
  | none => throw .valueError

/-- The base of a literal and its digits, when it has a prefix. -/
def basePrefix : PyStr → Option (ℕ × PyStr)
  | '0' :: c :: cs =>
    if c = 'x' ∨ c = 'X' then some (16, cs)
    else if c = 'o' ∨ c = 'O' then some (8, cs)
    else if c = 'b' ∨ c = 'B' then some (2, cs)
    else none
  | _ => none

/-- A literal without its sign: without a prefix it is decimal and has no leading zeros. -/
def readLiteral (s : PyStr) : Py ℕ :=
  match basePrefix s with
  | some (base, digits) =>
    if digits.isEmpty then throw .valueError
    else
      match readDigits base 0 true digits with
      | some n => pure n
      | none => throw .valueError
  | none =>
    match readDigits 10 0 false s with
    | some n => if s.head? = some '0' ∧ n ≠ 0 then throw .valueError else pure n
    | none => throw .valueError

/-- `int(s, 0)`. -/
def anyInt (s : PyStr) : Py ℤ := do
  let r := splitSign s.numberText
  let n ← readLiteral r.2
  pure (signed r.1 n)

section Strip

/-- Nothing is removed when neither end has the property. -/
theorem stripBy_eq_self {p : Char → Bool} {s : PyStr} (hs : s ≠ [])
    (hhead : p (s.head hs) = false) (hlast : p (s.getLast hs) = false) : s.stripBy p = s := by
  have hfront : s.dropWhile p = s := by
    cases s with
    | nil => rfl
    | cons c cs => exact List.dropWhile_cons_of_neg (by simpa using hhead)
  have hback : s.reverse.dropWhile p = s.reverse := by
    rw [← List.head_reverse (List.reverse_ne_nil_iff.mpr hs)] at hlast
    cases hr : s.reverse with
    | nil => rfl
    | cons c cs =>
      simp only [hr, List.head_cons] at hlast
      exact List.dropWhile_cons_of_neg (by simpa using hlast)
  unfold stripBy
  rw [hfront, hback, List.reverse_reverse]

/-- A last character with the property is removed. -/
theorem stripBy_append_singleton {p : Char → Bool} {s : PyStr} (hs : s ≠ [])
    (hhead : p (s.head hs) = false) {c : Char} (hc : p c = true) :
    stripBy p (s ++ [c]) = stripBy p s := by
  have hfront : ∀ t : PyStr, (s ++ t).dropWhile p = s ++ t := by
    intro t
    cases s with
    | nil => exact absurd rfl hs
    | cons d ds => exact List.dropWhile_cons_of_neg (by simpa using hhead)
  have hfront' := hfront []
  rw [List.append_nil] at hfront'
  unfold stripBy
  rw [hfront, hfront', List.reverse_append, List.reverse_singleton, List.singleton_append,
    List.dropWhile_cons_of_pos hc]

end Strip

section Numerals

theorem digitVal_digitChar {d : ℕ} (hd : d < 16) :
    digitVal (Nat.digitChar d) = some d ∧ Nat.digitChar d ≠ '_' := by
  interval_cases d <;> exact ⟨rfl, by decide⟩

/-- One more digit. -/
theorem readDigits_digitChar {b d : ℕ} (hb : b ≤ 16) (hd : d < b) (acc : ℕ) (afterDigit : Bool)
    (rest : PyStr) : readDigits b acc afterDigit (Nat.digitChar d :: rest) =
      readDigits b (acc * b + d) true rest := by
  obtain ⟨hval, hne⟩ := digitVal_digitChar (lt_of_lt_of_le hd hb)
  rw [readDigits, if_neg hne, hval]
  exact if_pos hd

/-- The digits of a number in front of others. -/
theorem readDigits_toDigits {b : ℕ} (hb : 1 < b) (hb' : b ≤ 16) (n acc : ℕ) (afterDigit : Bool)
    (rest : PyStr) : readDigits b acc afterDigit (Nat.toDigits b n ++ rest) =
      readDigits b (acc * b ^ (Nat.toDigits b n).length + n) true rest := by
  induction n using Nat.strong_induction_on generalizing rest with
  | _ n ih =>
    by_cases hlt : n < b
    · rw [Nat.toDigits_of_lt_base hlt]
      simpa using readDigits_digitChar hb' hlt acc afterDigit rest
    · have hle : b ≤ n := not_lt.mp hlt
      rw [Nat.toDigits_of_base_le hb hle, List.append_assoc,
        ih _ (Nat.div_lt_self (by omega) hb), List.singleton_append,
        readDigits_digitChar hb' (Nat.mod_lt n (by omega))]
      have hsplit : (acc * b ^ (Nat.toDigits b (n / b)).length + n / b) * b + n % b =
          acc * b ^ (Nat.toDigits b (n / b) ++ [Nat.digitChar (n % b)]).length + n := by
        rw [List.length_append, List.length_singleton, pow_succ, Nat.add_mul, Nat.mul_assoc,
          Nat.add_assoc, Nat.div_add_mod' n b]
      rw [hsplit]

/-- Zeros in front of a number do not change it. -/
theorem readDigits_replicate {b : ℕ} (hb : 0 < b) (hb' : b ≤ 16) (k : ℕ) (rest : PyStr) :
    readDigits b 0 true (List.replicate k '0' ++ rest) = readDigits b 0 true rest := by
  induction k with
  | zero => rfl
  | succ k ih =>
    rw [List.replicate_succ, List.cons_append]
    have hzero := readDigits_digitChar hb' hb 0 true (List.replicate k '0' ++ rest)
    rw [Nat.zero_mul, Nat.zero_add, ih] at hzero
    exact hzero

theorem isDigit_of_mem_toDigits {n : ℕ} {c : Char} (hc : c ∈ Nat.toDigits 10 n) :
    c.isDigit = true :=
  Nat.isDigit_of_mem_toDigits (by decide) le_rfl hc

theorem isDigitStr_toDigits (n : ℕ) : isDigitStr (Nat.toDigits 10 n) = true := by
  unfold isDigitStr
  rw [Bool.and_eq_true]
  refine ⟨?_, List.all_eq_true.mpr (fun c hc => ?_)⟩
  · simp
  · simp [isDigitChar, isDigit_of_mem_toDigits hc]

theorem isSpace_of_isAlphanum {c : Char} (hc : c.isAlphanum = true) : isSpace c = false := by
  have hn := toNat_of_isAlphanum hc
  have hne : c ≠ ' ' := by
    rintro rfl
    exact absurd hc (by decide)
  have hwide : c.toNat ∉ wideSpaces := by
    intro hmem
    simp only [wideSpaces, List.mem_cons, List.not_mem_nil, or_false] at hmem
    omega
  unfold isSpace isAsciiSpace
  rw [beq_eq_false_iff_ne.mpr hne, decide_eq_false (by omega), decide_eq_false (by omega)]
  simpa using hwide

theorem isAsciiSpace_of_isSpace {c : Char} (h : isSpace c = false) : isAsciiSpace c = false := by
  unfold isSpace at h
  rw [Bool.or_eq_false_iff, Bool.or_eq_false_iff] at h
  exact h.1.1

theorem asciiChar_of_lt {c : Char} (hc : c.toNat < 128) : asciiChar c = c := by
  unfold asciiChar
  rw [if_pos hc]

/-- The text of a number that has no white space around it. -/
theorem numberText_eq_self {s : PyStr} (hs : s ≠ []) (hascii : ∀ c ∈ s, c.toNat < 128)
    (hhead : isSpace (s.head hs) = false) (hlast : isSpace (s.getLast hs) = false) :
    s.numberText = s := by
  have hmap : s.map asciiChar = s := by
    rw [List.map_congr_left fun c hc => asciiChar_of_lt (hascii c hc), List.map_id']
  unfold numberText
  rw [hmap]
  exact stripBy_eq_self hs (isAsciiSpace_of_isSpace hhead) (isAsciiSpace_of_isSpace hlast)

theorem toNat_lt_of_isAlphanum {c : Char} (hc : c.isAlphanum = true) : c.toNat < 128 := by
  have hn := toNat_of_isAlphanum hc
  omega

theorem numberText_word {s : PyStr} (hs : s ≠ []) (h : ∀ c ∈ s, c.isAlphanum = true) :
    s.numberText = s :=
  numberText_eq_self hs (fun c hc => toNat_lt_of_isAlphanum (h c hc))
    (isSpace_of_isAlphanum (h _ (List.head_mem hs)))
    (isSpace_of_isAlphanum (h _ (List.getLast_mem hs)))

/-- A word has no sign. -/
theorem splitSign_word {s : PyStr} (h : ∀ c ∈ s, c.isAlphanum = true) :
    splitSign s = (false, s) := by
  have hno : ∀ c : Char, c.isAlphanum = false → s.head? ≠ some c := by
    intro c hc hhead
    rw [h c (List.mem_of_mem_head? hhead)] at hc
    cases hc
  unfold splitSign
  rw [if_neg (hno '+' rfl), if_neg (hno '-' rfl)]

theorem isAlphanum_of_isDigit {c : Char} (hc : c.isDigit = true) : c.isAlphanum = true := by
  simp [Char.isAlphanum, hc]

theorem isAlphanum_of_mem_numeral {n : ℕ} {c : Char} (hc : c ∈ Nat.toDigits 10 n) :
    c.isAlphanum = true :=
  isAlphanum_of_isDigit (isDigit_of_mem_toDigits hc)

/-- `int` reads a decimal numeral. -/
theorem int_toDigits (n : ℕ) : int (Nat.toDigits 10 n) = .ok (n : ℤ) := by
  have hdigits := readDigits_toDigits (b := 10) (by decide) (by decide) n 0 false []
  rw [List.append_nil, Nat.zero_mul, Nat.zero_add] at hdigits
  have hword : ∀ c ∈ Nat.toDigits 10 n, c.isAlphanum = true := fun c => isAlphanum_of_mem_numeral
  unfold int
  rw [numberText_word Nat.toDigits_ne_nil hword, splitSign_word hword]
  simp only [hdigits]
  rfl

theorem head?_toDigits_ne_zero {n : ℕ} (hn : n ≠ 0) : (Nat.toDigits 10 n).head? ≠ some '0' := by
  induction n using Nat.strong_induction_on with
  | _ n ih =>
    by_cases hlt : n < 10
    · rw [Nat.toDigits_of_lt_base hlt]
      interval_cases n <;> first | exact absurd rfl hn | decide
    · rw [Nat.toDigits_of_base_le (by decide) (by omega),
        List.head?_append_of_ne_nil _ Nat.toDigits_ne_nil]
      exact ih _ (by omega) (by omega)

/-- A decimal numeral has no prefix for its base. -/
theorem basePrefix_toDigits (n : ℕ) : basePrefix (Nat.toDigits 10 n) = none := by
  unfold basePrefix
  split
  · next c cs hs =>
    have hc : c.isDigit = true := isDigit_of_mem_toDigits (n := n) (by rw [hs]; simp)
    have hno : ∀ d : Char, d.isDigit = false → c ≠ d := by
      rintro d hd rfl
      rw [hc] at hd
      cases hd
    rw [if_neg (by simp [hno 'x' rfl, hno 'X' rfl]), if_neg (by simp [hno 'o' rfl, hno 'O' rfl]),
      if_neg (by simp [hno 'b' rfl, hno 'B' rfl])]
  · rfl

theorem readLiteral_toDigits (n : ℕ) : readLiteral (Nat.toDigits 10 n) = .ok n := by
  have hdigits := readDigits_toDigits (b := 10) (by decide) (by decide) n 0 false []
  rw [List.append_nil, Nat.zero_mul, Nat.zero_add] at hdigits
  unfold readLiteral
  simp only [basePrefix_toDigits, hdigits, readDigits, if_true]
  exact if_neg (fun h => head?_toDigits_ne_zero h.2 h.1)

theorem readLiteral_hex (n k : ℕ) :
    readLiteral ('0' :: 'x' :: (List.replicate k '0' ++ Nat.toDigits 16 n)) = .ok n := by
  have hdigits := readDigits_toDigits (b := 16) (by decide) le_rfl n 0 true []
  rw [List.append_nil, Nat.zero_mul, Nat.zero_add] at hdigits
  have hne : (List.replicate k '0' ++ Nat.toDigits 16 n).isEmpty = false := by simp
  unfold readLiteral
  simp only [basePrefix, true_or, if_true, hne, readDigits_replicate (b := 16) (by decide) le_rfl,
    hdigits, readDigits]
  rfl

/-- `int(s, 0)` on a word. -/
theorem anyInt_word {s : PyStr} (hs : s ≠ []) (h : ∀ c ∈ s, c.isAlphanum = true) {n : ℕ}
    (hn : readLiteral s = .ok n) : anyInt s = .ok (n : ℤ) := by
  unfold anyInt
  rw [numberText_word hs h, splitSign_word h]
  simp only [hn, ok_bind]
  rfl

/-- `int(s, 0)` on a word behind a minus sign. -/
theorem anyInt_minus_word {s : PyStr} (hs : s ≠ []) (h : ∀ c ∈ s, c.isAlphanum = true) {n : ℕ}
    (hn : readLiteral s = .ok n) : anyInt ('-' :: s) = .ok (-n : ℤ) := by
  have hstrip : numberText ('-' :: s) = '-' :: s := by
    refine numberText_eq_self (List.cons_ne_nil _ _) ?_ rfl ?_
    · intro c hc
      rcases List.mem_cons.mp hc with rfl | hc
      · decide
      · exact toNat_lt_of_isAlphanum (h c hc)
    · rw [List.getLast_cons hs]
      exact isSpace_of_isAlphanum (h _ (List.getLast_mem hs))
  have hsplit : splitSign ('-' :: s) = (true, s) := by simp [splitSign]
  unfold anyInt
  rw [hstrip, hsplit]
  simp only [hn, ok_bind]
  rfl

theorem anyInt_toDigits (n : ℕ) : anyInt (Nat.toDigits 10 n) = .ok (n : ℤ) :=
  anyInt_word Nat.toDigits_ne_nil (fun _ => isAlphanum_of_mem_numeral) (readLiteral_toDigits n)

theorem anyInt_minus_toDigits (n : ℕ) : anyInt ('-' :: Nat.toDigits 10 n) = .ok (-n : ℤ) :=
  anyInt_minus_word Nat.toDigits_ne_nil (fun _ => isAlphanum_of_mem_numeral)
  (readLiteral_toDigits n)

/-- `int(s, 0)` reads a hexadecimal numeral with its prefix, padded or not. -/
theorem anyInt_hex (n k : ℕ) :
    anyInt ('0' :: 'x' :: (List.replicate k '0' ++ Nat.toDigits 16 n)) = .ok (n : ℤ) := by
  refine anyInt_word (List.cons_ne_nil _ _) (fun c hc => ?_) (readLiteral_hex n k)
  simp only [List.mem_cons, List.mem_append, List.mem_replicate] at hc
  rcases hc with rfl | rfl | ⟨-, rfl⟩ | hc
  · rfl
  · rfl
  · rfl
  · exact isAlphanum_of_mem_toDigits (by decide) le_rfl hc

/-- A text that starts with a digit starts with no other prefix. -/
theorem isPrefixOf_toDigits {c : Char} (hc : c.isDigit = false) (pre : PyStr) (n : ℕ)
    (text : PyStr) : (c :: pre).isPrefixOf (Nat.toDigits 10 n ++ text) = false := by
  cases hdigits : Nat.toDigits 10 n with
  | nil => exact absurd hdigits Nat.toDigits_ne_nil
  | cons d ds =>
    have hd : d.isDigit = true := isDigit_of_mem_toDigits (n := n) (by simp [hdigits])
    have hne : c ≠ d := by
      intro he
      rw [he, hd] at hc
      cases hc
    simp [List.isPrefixOf, hne]

theorem not_mem_toDigits {c : Char} (hc : c.isDigit = false) (n : ℕ) : c ∉ Nat.toDigits 10 n := by
  intro hmem
  rw [isDigit_of_mem_toDigits hmem] at hc
  cases hc

end Numerals

section Split

variable {s t : PyStr} {c : Char}

theorem split_of_notMem (h : c ∉ s) : s.split c = [s] := List.splitOn_eq_singleton h

/-- The text before the first separator is the first part. -/
theorem split_append (h : c ∉ s) (t : PyStr) : split (s ++ c :: t) c = s :: t.split c :=
  List.splitOn_append_cons_self_of_not_mem h t

theorem splitHead_of_notMem (h : c ∉ s) : s.splitHead c = s := by
  unfold splitHead
  rw [split_of_notMem h]
  rfl

theorem splitHead_append (h : c ∉ s) (t : PyStr) : splitHead (s ++ c :: t) c = s := by
  unfold splitHead
  rw [split_append h]
  rfl

theorem split_join {fields : List PyStr} (hne : fields ≠ []) (h : ∀ field ∈ fields, c ∉ field) :
    split (join c fields) c = fields := List.splitOn_intercalate c h hne

/-- What is stripped from the end does not reach into a text that ends in no white space. -/
theorem exists_strip_append (hs : s ≠ []) (hhead : isSpace (s.head hs) = false)
    (hlast : isSpace (s.getLast hs) = false) (t : PyStr) : ∃ u, strip (s ++ t) = s ++ u := by
  have hfront : (s ++ t).dropWhile isSpace = s ++ t := by
    cases s with
    | nil => exact absurd rfl hs
    | cons d ds => exact List.dropWhile_cons_of_neg (by simpa using hhead)
  have hback : s.reverse.dropWhile isSpace = s.reverse := by
    rw [← List.head_reverse (List.reverse_ne_nil_iff.mpr hs)] at hlast
    cases hr : s.reverse with
    | nil => rfl
    | cons d ds =>
      simp only [hr, List.head_cons] at hlast
      exact List.dropWhile_cons_of_neg (by simpa using hlast)
  unfold strip stripBy
  rw [hfront, List.reverse_append, List.dropWhile_append, hback]
  split_ifs
  · exact ⟨[], by simp⟩
  · exact ⟨(t.reverse.dropWhile isSpace).reverse, by simp⟩

end Split

section Fields

/-- The characters in the fields of printed lines. -/
def isFieldChar (c : Char) : Bool :=
  c.isAlphanum || c == '_' || c == '-' || c == '|' || c == ','

/-- A field of a printed line. -/
def IsFieldText (field : PyStr) : Prop := field ≠ [] ∧ ∀ c ∈ field, isFieldChar c = true

theorem isFieldChar_of_isAlphanum {c : Char} (hc : c.isAlphanum = true) : isFieldChar c = true := by
  simp [isFieldChar, hc]

theorem isSpace_of_isFieldChar {c : Char} (hc : isFieldChar c = true) : isSpace c = false := by
  simp only [isFieldChar, Bool.or_eq_true, beq_iff_eq] at hc
  rcases hc with (((hc | rfl) | rfl) | rfl) | rfl
  · exact isSpace_of_isAlphanum hc
  · rfl
  · rfl
  · rfl
  · rfl

theorem IsFieldText.notMem {field : PyStr} (h : IsFieldText field) {c : Char}
    (hc : isFieldChar c = false) : c ∉ field := by
  intro hmem
  rw [h.2 c hmem] at hc
  cases hc

theorem isFieldText_toDigits (n : ℕ) : IsFieldText (Nat.toDigits 10 n) :=
  ⟨Nat.toDigits_ne_nil, fun _ hc => isFieldChar_of_isAlphanum (isAlphanum_of_mem_numeral hc)⟩

theorem join_singleton (sep : Char) (field : PyStr) : join sep [field] = field := by
  simp [join]

theorem join_cons_cons (sep : Char) (field field' : PyStr) (fields : List PyStr) :
    join sep (field :: field' :: fields) = field ++ sep :: join sep (field' :: fields) := by
  simp [join, List.intercalate_cons_cons]

theorem mem_join {sep c : Char} {fields : List PyStr} (hc : c ∈ join sep fields) :
    c = sep ∨ ∃ field ∈ fields, c ∈ field := by
  induction fields with
  | nil => cases hc
  | cons field fields ih =>
    cases fields with
    | nil =>
      rw [join_singleton] at hc
      exact Or.inr ⟨field, List.mem_singleton_self _, hc⟩
    | cons field' fields =>
      rw [join_cons_cons, List.mem_append, List.mem_cons] at hc
      rcases hc with hc | hc | hc
      · exact Or.inr ⟨field, List.mem_cons_self, hc⟩
      · exact Or.inl hc
      · rcases ih hc with h | ⟨f, hf, hcf⟩
        · exact Or.inl h
        · exact Or.inr ⟨f, List.mem_cons_of_mem _ hf, hcf⟩

variable {fields : List PyStr}

theorem join_ne_nil (hne : fields ≠ []) (h : ∀ field ∈ fields, IsFieldText field) :
    join ':' fields ≠ [] := by
  obtain ⟨field, fields, rfl⟩ := List.exists_cons_of_ne_nil hne
  have hfield := (h field List.mem_cons_self).1
  cases fields with
  | nil =>
    rw [join_singleton]
    exact hfield
  | cons field' fields =>
    rw [join_cons_cons]
    simp

theorem isSpace_of_mem_join (h : ∀ field ∈ fields, IsFieldText field) {c : Char}
    (hc : c ∈ join ':' fields) : isSpace c = false := by
  rcases mem_join hc with rfl | ⟨field, hfield, hc⟩
  · rfl
  · exact isSpace_of_isFieldChar ((h field hfield).2 c hc)

theorem hash_notMem_join (h : ∀ field ∈ fields, IsFieldText field) : '#' ∉ join ':' fields := by
  intro hmem
  rcases mem_join hmem with hc | ⟨field, hfield, hc⟩
  · cases hc
  · exact (h field hfield).notMem rfl hc

theorem split_join_fields (hne : fields ≠ []) (h : ∀ field ∈ fields, IsFieldText field) :
    split (join ':' fields) ':' = fields :=
  split_join hne fun field hfield => (h field hfield).notMem rfl

theorem strip_join (hne : fields ≠ []) (h : ∀ field ∈ fields, IsFieldText field) :
    strip (join ':' fields) = join ':' fields :=
  stripBy_eq_self (join_ne_nil hne h) (isSpace_of_mem_join h (List.head_mem _))
    (isSpace_of_mem_join h (List.getLast_mem _))

/-- White space at the end of a printed line is stripped. -/
theorem strip_join_append (hne : fields ≠ []) (h : ∀ field ∈ fields, IsFieldText field)
    {spaces : PyStr} (hspaces : ∀ c ∈ spaces, isSpace c = true) :
    strip (join ':' fields ++ spaces) = join ':' fields := by
  induction spaces using List.reverseRecOn with
  | nil =>
    rw [List.append_nil]
    exact strip_join hne h
  | append_singleton spaces c ih =>
    have hjoin := join_ne_nil hne h
    have hhead : isSpace ((join ':' fields ++ spaces).head (by simp [hjoin])) = false := by
      rw [List.head_append_of_ne_nil hjoin]
      exact isSpace_of_mem_join h (List.head_mem _)
    rw [← List.append_assoc]
    unfold strip at ih ⊢
    rw [stripBy_append_singleton (by simp [hjoin]) hhead (hspaces c (by simp))]
    exact ih fun d hd => hspaces d (by simp [hd])

/-- What may follow the fields of a printed line. -/
def IsComment (comment : PyStr) : Prop := comment = [] ∨ ∃ text, comment = "  #".toList ++ text

/-- The fields in front of a comment. -/
theorem split_comment (hne : fields ≠ []) (h : ∀ field ∈ fields, IsFieldText field)
    {comment : PyStr} (hcomment : IsComment comment) :
    split (strip (splitHead (join ':' fields ++ comment) '#')) ':' = fields := by
  have hhash := hash_notMem_join h
  rcases hcomment with rfl | ⟨text, rfl⟩
  · rw [List.append_nil, splitHead_of_notMem hhash, strip_join hne h, split_join_fields hne h]
  · have hsplit : join ':' fields ++ ("  #".toList ++ text) =
        (join ':' fields ++ [' ', ' ']) ++ '#' :: text := by simp
    rw [hsplit, splitHead_append (by simp [hhash]), strip_join_append hne h (by simp),
      split_join_fields hne h]

/-- The newline and white space at the end of a comment are stripped. -/
theorem exists_strip_comment (hne : fields ≠ []) (h : ∀ field ∈ fields, IsFieldText field)
    {comment : PyStr} (hcomment : IsComment comment) :
    ∃ comment', IsComment comment' ∧
      strip (join ':' fields ++ (comment ++ ['\n'])) = join ':' fields ++ comment' := by
  rcases hcomment with rfl | ⟨text, rfl⟩
  · refine ⟨[], Or.inl rfl, ?_⟩
    rw [List.append_nil, List.nil_append, strip_join_append hne h (by simp)]
  · have hjoin := join_ne_nil hne h
    obtain ⟨u, hu⟩ := exists_strip_append (s := join ':' fields ++ "  #".toList) (by simp)
      (by rw [List.head_append_of_ne_nil hjoin]; exact isSpace_of_mem_join h (List.head_mem _))
      (by simp) (text ++ ['\n'])
    refine ⟨"  #".toList ++ u, Or.inr ⟨u, rfl⟩, ?_⟩
    simpa only [List.append_assoc] using hu

end Fields

end PyStr

end Prd.Pycprd
