import Prd.Foundation.Numerals

/-!
# The formatted output of the runtime

The formats are those of the sanitizers' own `VSNPrintf`. A failed check aborts the
program, which has no result here. Strings are lists of characters.
-/
namespace Prd.Runtime

/-- An argument as it is passed: it is cut to the width that the format asks for. -/
inductive PrintfArg
  | signed (v : ℤ)
  | unsigned (v : ℕ)
  | pointer (v : ℕ)
  | char (c : Char)
  | string (s : List Char)

def appendNumber (absoluteValue base minimalNumLength : ℕ)
    (padWithZero negative uppercase : Bool) : List Char :=
  let minimalNumLength := if negative then minimalNumLength - 1 else minimalNumLength
  let digits := (Nat.toDigits base absoluteValue).map fun c => if uppercase then c.toUpper else c
  let pad := List.replicate (minimalNumLength - digits.length) (if padWithZero then '0' else ' ')
  if negative then
    if padWithZero then '-' :: (pad ++ digits) else pad ++ '-' :: digits
  else pad ++ digits

def appendSignedDecimal (num : ℤ) (minimalNumLength : ℕ) (padWithZero : Bool) : List Char :=
  appendNumber num.natAbs 10 minimalNumLength padWithZero (decide (num < 0)) false

def appendString (width : ℤ) (maxChars : Option ℕ) (s : List Char) : List Char :=
  let s := match maxChars with
    | some n => s.take n
    | none => s
  s ++ List.replicate ((-width).toNat - s.length) ' '

/-- `SANITIZER_POINTER_FORMAT_LENGTH` of x86-64. -/
def pointerFormatLength : ℕ := 12

def appendPointer (ptrValue : ℕ) : List Char :=
  "0x".toList ++ appendNumber ptrValue 16 pointerFormatLength true false false

structure FormatSpec where
  leftJustified : Bool
  haveWidth : Bool
  padWithZero : Bool
  width : ℕ
  havePrecision : Bool
  haveZ : Bool
  haveLl : Bool

def readWidth : List Char → ℕ → ℕ × List Char
  | [], width => (width, [])
  | c :: cs, width =>
    if c.isDigit then readWidth cs (width * 10 + (c.toNat - '0'.toNat)) else (width, c :: cs)

/-- What stands between the percent sign and the conversion. -/
def parseSpec (cur : List Char) : FormatSpec × List Char :=
  let leftJustified := cur.head? == some '-'
  let cur := if leftJustified then cur.tail else cur
  let haveWidth := cur.head?.any Char.isDigit
  let padWithZero := cur.head? == some '0'
  let (width, cur) := if haveWidth then readWidth cur 0 else (0, cur)
  let havePrecision := cur.take 2 == ['.', '*']
  let cur := if havePrecision then cur.drop 2 else cur
  let haveZ := cur.head? == some 'z'
  let cur := if haveZ then cur.tail else cur
  let haveLl := !haveZ && cur.take 2 == ['l', 'l']
  let cur := if haveLl then cur.drop 2 else cur
  (⟨leftJustified, haveWidth, padWithZero, width, havePrecision, haveZ, haveLl⟩, cur)

/-- The precision comes before the value. -/
def takePrecision (spec : FormatSpec) (args : List PrintfArg) :
    Option (Option ℕ × List PrintfArg) :=
  if spec.havePrecision then
    match args with
    | .signed n :: args => some (if 0 ≤ n then some n.toNat else none, args)
    | _ => none
  else some (none, args)

def convert (spec : FormatSpec) (conversion : Char) (precision : Option ℕ)
    (args : List PrintfArg) : Option (List Char × List PrintfArg) :=
  let bits := if spec.haveZ || spec.haveLl then 64 else 32
  let haveFlags := spec.haveWidth || spec.haveZ || spec.haveLl
  if (precision.isSome || spec.leftJustified) && conversion != 's' then none
  else match conversion, args with
    | 'd', .signed v :: args =>
      some (appendSignedDecimal (v.bmod (2 ^ bits)) spec.width spec.padWithZero, args)
    | 'u', .unsigned v :: args =>
      some (appendNumber (v % 2 ^ bits) 10 spec.width spec.padWithZero false false, args)
    | 'x', .unsigned v :: args =>
      some (appendNumber (v % 2 ^ bits) 16 spec.width spec.padWithZero false false, args)
    | 'X', .unsigned v :: args =>
      some (appendNumber (v % 2 ^ bits) 16 spec.width spec.padWithZero false true, args)
    | 'p', .pointer v :: args => if haveFlags then none else some (appendPointer v, args)
    | 's', .string s :: args =>
      if spec.haveZ || spec.haveLl || spec.haveWidth && !spec.leftJustified then none
      else some (appendString (if spec.leftJustified then -spec.width else spec.width) precision s,
        args)
    | 'c', .char c :: args => if haveFlags then none else some ([c], args)
    | '%', args => if haveFlags then none else some (['%'], args)
    | _, _ => none

/-- The text that the format asks for; the first number bounds the length of the format. -/
def vsnPrintf : ℕ → List Char → List PrintfArg → Option (List Char)
  | 0, _, _ => none
  | _ + 1, [], _ => some []
  | n + 1, c :: cur, args =>
    if c ≠ '%' then (vsnPrintf n cur args).map (c :: ·)
    else do
      let (spec, cur) := parseSpec cur
      let (precision, args) ← takePrecision spec args
      let (text, args) ← convert spec (cur.headD '\x00') precision args
      (vsnPrintf n cur.tail args).map (text ++ ·)

def format (fmt : List Char) (args : List PrintfArg) : Option (List Char) :=
  vsnPrintf (fmt.length + 1) fmt args

structure InternalScopedString where
  data : List Char
  size : ℕ

/-- What does not fit is cut off. -/
def InternalScopedString.append (s : InternalScopedString) (fmt : String)
    (args : List PrintfArg) : Option InternalScopedString :=
  (format fmt.toList args).map fun text => { s with data := (s.data ++ text).take (s.size - 1) }

/-- The longest text of one call is bounded by the second buffer. -/
def kLen : ℕ := 16 * 1024

def printf (fmt : List Char) (args : List PrintfArg) : Option (List Char) := do
  let text ← format fmt args
  if text.length < kLen then some text else none

section Plain

/-- A text without a percent sign is its own output. -/
theorem vsnPrintf_plain {n : ℕ} {text : List Char} (hn : text.length < n) (h : '%' ∉ text)
    (args : List PrintfArg) : vsnPrintf n text args = some text := by
  induction text generalizing n with
  | nil =>
    obtain ⟨n, rfl⟩ := Nat.exists_eq_succ_of_ne_zero (Nat.ne_of_gt hn)
    rfl
  | cons c text ih =>
    obtain ⟨n, rfl⟩ := Nat.exists_eq_succ_of_ne_zero (Nat.ne_of_gt (Nat.zero_lt_of_lt hn))
    rw [List.mem_cons, not_or] at h
    rw [vsnPrintf, if_pos (Ne.symm h.1), ih (Nat.lt_of_succ_lt_succ hn) h.2]
    rfl

theorem printf_plain {text : List Char} (hlen : text.length < kLen) (h : '%' ∉ text) :
    printf text [] = some text := by
  unfold printf format
  rw [vsnPrintf_plain (Nat.lt_succ_self _) h]
  exact if_pos hlen

end Plain

section Numbers

open Prd.Foundation

theorem appendPointer_eq (v : ℕ) : appendPointer v = '0' :: 'x' ::
    (List.replicate (12 - (Nat.toDigits 16 v).length) '0' ++ Nat.toDigits 16 v) := by
  unfold appendPointer appendNumber
  simp [pointerFormatLength]

theorem isAlphanum_of_mem_appendPointer {v : ℕ} {c : Char} (hc : c ∈ appendPointer v) :
    c.isAlphanum = true := by
  rw [appendPointer_eq] at hc
  simp only [List.mem_cons, List.mem_append, List.mem_replicate] at hc
  rcases hc with rfl | rfl | ⟨-, rfl⟩ | hc
  · rfl
  · rfl
  · rfl
  · exact isAlphanum_of_mem_toDigits (by decide) le_rfl hc

/-- A pointer takes at most 18 characters. -/
theorem length_appendPointer_le {v : ℕ} (hv : v < 2 ^ 64) : (appendPointer v).length ≤ 18 := by
  have hlen : (Nat.toDigits 16 v).length ≤ 16 :=
    (Nat.length_toDigits_le_iff (by decide) (by decide)).mpr (by omega)
  rw [appendPointer_eq]
  simp only [List.length_cons, List.length_append, List.length_replicate]
  omega

theorem appendNumber_decimal (v : ℕ) :
    appendNumber v 10 0 false false false = Nat.toDigits 10 v := by
  simp [appendNumber]

/-- The text of an integer. -/
def signedText (z : ℤ) : List Char :=
  if z < 0 then '-' :: Nat.toDigits 10 z.natAbs else Nat.toDigits 10 z.natAbs

theorem signedText_nat (v : ℕ) : signedText v = Nat.toDigits 10 v := by
  unfold signedText
  rw [if_neg (by omega), Int.natAbs_natCast]

theorem appendSignedDecimal_eq (z : ℤ) : appendSignedDecimal z 0 false = signedText z := by
  by_cases hz : z < 0
  · simp [appendSignedDecimal, appendNumber, signedText, hz]
  · simp [appendSignedDecimal, appendNumber, signedText, hz]

/-- What `%d` leaves of an unsigned argument. -/
def lowInt (v : ℕ) : ℤ :=
  if v % 2 ^ 32 < 2 ^ 31 then (v % 2 ^ 32 : ℕ) else (v % 2 ^ 32 : ℕ) - 2 ^ 32

theorem bmod_eq_lowInt (v : ℕ) : (v : ℤ).bmod (2 ^ 32) = lowInt v := by
  unfold lowInt
  rw [Int.bmod_def]
  split_ifs <;> omega

theorem lowInt_of_lt {v : ℕ} (hv : v < 2 ^ 31) : lowInt v = v := by
  unfold lowInt
  split_ifs <;> omega

theorem lowInt_eq_iff (v : ℕ) : lowInt v = v ↔ v < 2 ^ 31 := by
  unfold lowInt
  split_ifs <;> omega

theorem lowInt_eq_nat_iff {v n : ℕ} (hn : n < 2 ^ 31) : lowInt v = n ↔ v % 2 ^ 32 = n := by
  unfold lowInt
  split_ifs <;> omega

end Numbers

section Conversions

variable (n : ℕ) (cur : List Char) (args : List PrintfArg)

theorem vsnPrintf_nil : vsnPrintf (n + 1) [] args = some [] := by rw [vsnPrintf]

theorem vsnPrintf_char {c : Char} (hc : c ≠ '%') :
    vsnPrintf (n + 1) (c :: cur) args = (vsnPrintf n cur args).map (c :: ·) := by
  rw [vsnPrintf, if_pos hc]

theorem vsnPrintf_d (v : ℕ) : vsnPrintf (n + 1) ('%' :: 'd' :: cur) (.signed v :: args) =
    (vsnPrintf n cur args).map (signedText (lowInt v) ++ ·) := by
  rw [← appendSignedDecimal_eq, ← bmod_eq_lowInt, vsnPrintf]
  rfl

theorem vsnPrintf_llu {v : ℕ} (hv : v < 2 ^ 64) :
    vsnPrintf (n + 1) ('%' :: 'l' :: 'l' :: 'u' :: cur) (.unsigned v :: args) =
      (vsnPrintf n cur args).map (Nat.toDigits 10 v ++ ·) := by
  have hnumber : appendNumber (v % 2 ^ 64) 10 0 false false false = Nat.toDigits 10 v := by
    rw [Nat.mod_eq_of_lt hv, appendNumber_decimal]
  rw [← hnumber, vsnPrintf]
  rfl

theorem vsnPrintf_p (v : ℕ) : vsnPrintf (n + 1) ('%' :: 'p' :: cur) (.pointer v :: args) =
    (vsnPrintf n cur args).map (appendPointer v ++ ·) := by
  rw [vsnPrintf]
  rfl

theorem vsnPrintf_s (s : List Char) : vsnPrintf (n + 1) ('%' :: 's' :: cur) (.string s :: args) =
    (vsnPrintf n cur args).map (s ++ ·) := by
  have hstring : appendString 0 none s = s := by simp [appendString]
  rw [vsnPrintf]
  show (vsnPrintf n cur args).map (appendString 0 none s ++ ·) = _
  rw [hstring]

theorem vsnPrintf_c (c : Char) : vsnPrintf (n + 1) ('%' :: 'c' :: cur) (.char c :: args) =
    (vsnPrintf n cur args).map (c :: ·) := by
  rw [vsnPrintf]
  rfl

end Conversions

/-- A text that fits the buffer is printed. -/
theorem printf_eq {fmt text : List Char} {args : List PrintfArg}
    (h : format fmt args = some text) (hlen : text.length < kLen) :
    printf fmt args = some text := by
  unfold printf
  rw [h]
  exact if_pos hlen

end Prd.Runtime
