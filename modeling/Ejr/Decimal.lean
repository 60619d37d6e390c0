import Ejr.Utils
import Ejr.JsArg

/-!
# `std::to_string`

The decimal texts of the numbers a `JSArg` can hold. An integer is written in
canonical form, and can be read back from the front of a text
(`readInt_append`); a floating point number as `%f` writes it.

Mirroring notes:
- The overload is the one for the promoted type: the small integers and `bool` are
  written as `int`, a `float` as the `double` it is.
- `%f` has six decimals, correctly rounded, half to even. The sign of a NaN is not
  modelled, nor written.
-/

namespace Ejr

/-! ## Integers -/

/-- `'0' + d`. -/
def decimalChar (d : Nat) : UInt8 := UInt8.ofNat (48 + d)

/-- `isdigit`, and the digit. -/
def decimalVal (b : UInt8) : Option Nat :=
  if 48 ≤ b.toNat ∧ b.toNat ≤ 57 then some (b.toNat - 48) else none

/-- The digits of a number, the most significant first; no leading zero. -/
def decimalDigits (n : Nat) : List Nat := if n = 0 then [0] else (Nat.digits 10 n).reverse

/-- A number without a sign. -/
def decimal (n : Nat) : Bytes := (decimalDigits n).map decimalChar

/-- `std::to_string` of an integer. -/
def intToString (v : Int) : Bytes := if v < 0 then 45 :: decimal v.natAbs else decimal v.natAbs

theorem decimalVal_decimalChar {d : Nat} (h : d < 10) : decimalVal (decimalChar d) = some d := by
  have hall : ∀ d : Fin 10, decimalVal (decimalChar d) = some d.val := by decide
  exact hall ⟨d, h⟩

theorem lt_of_mem_decimalDigits {n d : Nat} (h : d ∈ decimalDigits n) : d < 10 := by
  unfold decimalDigits at h
  split at h
  next =>
    obtain rfl := List.mem_singleton.mp h
    decide
  next => exact Nat.digits_lt_base (by decide) (List.mem_reverse.mp h)

/-- A written digit is a digit. -/
theorem isSome_of_mem_decimal {n : Nat} {b : UInt8} (h : b ∈ decimal n) :
    (decimalVal b).isSome = true := by
  obtain ⟨d, hd, rfl⟩ := List.mem_map.mp h
  rw [decimalVal_decimalChar (lt_of_mem_decimalDigits hd)]
  rfl

theorem decimalDigits_ne_nil (n : Nat) : decimalDigits n ≠ [] := by
  unfold decimalDigits
  split
  next => simp
  next h => simpa using Nat.digits_ne_nil_iff_ne_zero.mpr h

/-- The digits, read from the most significant on, are the number. -/
theorem foldl_decimalDigits (n : Nat) :
    (decimalDigits n).foldl (fun acc d => acc * 10 + d) 0 = n := by
  unfold decimalDigits
  split
  next h => exact h.symm
  next => exact foldl_digits 10 n

/-! ## Reading an integer back -/

/-- The number a text begins with, and the rest of the text. -/
def readNat (s : Bytes) : Option (Nat × Bytes) :=
  match (s.takeWhile fun b => (decimalVal b).isSome).filterMap decimalVal with
  | [] => none
  | d :: ds => some ((d :: ds).foldl (fun acc d => acc * 10 + d) 0,
      s.dropWhile fun b => (decimalVal b).isSome)

/-- The integer a text begins with, and the rest of the text. -/
def readInt : Bytes → Option (Int × Bytes)
  | 45 :: s => (readNat s).map fun r => (-(r.1 : Int), r.2)
  | s => (readNat s).map fun r => ((r.1 : Int), r.2)

/-- The text does not go on with a digit. -/
def NoDigit (rest : Bytes) : Prop := ∀ b ∈ rest.head?, decimalVal b = none

theorem takeWhile_decimal {n : Nat} {rest : Bytes} (h : NoDigit rest) :
    (decimal n ++ rest).takeWhile (fun b => (decimalVal b).isSome) = decimal n ∧
      (decimal n ++ rest).dropWhile (fun b => (decimalVal b).isSome) = rest := by
  have hall : ∀ b ∈ decimal n, (decimalVal b).isSome = true := fun b hb => isSome_of_mem_decimal hb
  rw [List.takeWhile_append_of_pos hall, List.dropWhile_append_of_pos hall]
  cases rest with
  | nil => exact ⟨List.append_nil _, rfl⟩
  | cons b rest =>
    have hb : (decimalVal b).isSome = false := by rw [h b rfl]; rfl
    rw [List.takeWhile_cons_of_neg (by rw [hb]; decide),
      List.dropWhile_cons_of_neg (by rw [hb]; decide)]
    exact ⟨List.append_nil _, rfl⟩

theorem readNat_append {n : Nat} {rest : Bytes} (h : NoDigit rest) :
    readNat (decimal n ++ rest) = some (n, rest) := by
  obtain ⟨htake, hdrop⟩ := takeWhile_decimal (n := n) h
  have hdigits : (decimal n).filterMap decimalVal = decimalDigits n := by
    rw [decimal, List.filterMap_map]
    calc (decimalDigits n).filterMap (decimalVal ∘ decimalChar)
        = (decimalDigits n).filterMap some := List.filterMap_congr fun d hd =>
          decimalVal_decimalChar (lt_of_mem_decimalDigits hd)
      _ = decimalDigits n := List.filterMap_some
  have hfold := foldl_decimalDigits n
  cases hd : decimalDigits n with
  | nil => exact absurd hd (decimalDigits_ne_nil n)
  | cons d ds =>
    rw [hd] at hfold hdigits
    rw [readNat, htake, hdigits, hdrop]
    show some (_, rest) = _
    rw [hfold]

/-- A text of a number does not begin with a sign. -/
theorem decimal_head (n : Nat) : ∃ b w, decimal n = b :: w ∧ (decimalVal b).isSome = true := by
  cases hd : decimal n with
  | nil => exact absurd (List.map_eq_nil_iff.mp hd) (decimalDigits_ne_nil n)
  | cons b w => exact ⟨b, w, rfl, isSome_of_mem_decimal (hd ▸ List.mem_cons_self ..)⟩

/-- What `std::to_string` wrote of an integer is read back. -/
theorem readInt_append {v : Int} {rest : Bytes} (h : NoDigit rest) :
    readInt (intToString v ++ rest) = some (v, rest) := by
  unfold intToString
  by_cases hv : v < 0
  · rw [if_pos hv, List.cons_append]
    show (readNat (decimal v.natAbs ++ rest)).map _ = _
    rw [readNat_append h, Option.map_some]
    congr 2
    show -((v.natAbs : Nat) : Int) = v
    omega
  · rw [if_neg hv]
    obtain ⟨b, w, hw, hb⟩ := decimal_head v.natAbs
    have hne : b ≠ 45 := by
      rintro rfl
      exact absurd hb (by decide)
    have hread : readInt (decimal v.natAbs ++ rest) =
        (readNat (decimal v.natAbs ++ rest)).map fun r => ((r.1 : Int), r.2) := by
      rw [hw, List.cons_append, readInt]
      intro s hs
      exact hne (List.cons.inj hs).1
    rw [hread, readNat_append h, Option.map_some]
    congr 2
    show ((v.natAbs : Nat) : Int) = v
    omega

/-! ## Floating point numbers -/

/-- The nearest whole number to a fraction, the even one of two. -/
def roundHalfEven (num den : Nat) : Nat :=
  if den < 2 * (num % den) ∨ (2 * (num % den) = den ∧ num / den % 2 = 1) then num / den + 1
  else num / den

/-- A fraction with six decimals. -/
def fixed (num den : Nat) : Bytes :=
  let m := roundHalfEven (num * 10 ^ 6) den
  decimal (m / 10 ^ 6) ++ 46 :: [5, 4, 3, 2, 1, 0].map fun i => decimalChar (m / 10 ^ i % 10)

/-- `std::to_string` of a `double`. -/
def doubleToString : Double → Bytes
  | .finite q => if q < 0 then 45 :: fixed q.num.natAbs q.den else fixed q.num.natAbs q.den
  | .negZero => 45 :: fixed 0 1
  | .nan => ascii "nan"
  | .inf negative => if negative then ascii "-inf" else ascii "inf"

/-- The `float` with these bits. -/
def floatOfBits (b : BitVec 32) : Double :=
  let mantissa : Nat := b.toNat % 2 ^ 23
  let exponent : Nat := b.toNat / 2 ^ 23 % 2 ^ 8
  let negative := b.msb
  let signed (q : Rat) : Double := .finite (if negative then -q else q)
  if exponent = 255 then if mantissa = 0 then .inf negative else .nan
  else if exponent = 0 then
    if mantissa = 0 ∧ negative then .negZero else signed ((mantissa : Rat) / 2 ^ 149)
  else signed (((2 ^ 23 + mantissa : Nat) : Rat) * 2 ^ exponent / 2 ^ 150)

/-- `std::to_string(items[i])` for an element of a typed array. -/
def elemToString : (t : Elem) → t.Bits → Bytes
  | .uint8, b | .uint16, b | .uint32, b | .uint64, b => intToString b.toNat
  | .int8, b | .int16, b | .int32, b | .int64, b => intToString b.toInt
  | .float, b => doubleToString (floatOfBits b)

/-! ## No text has a NUL -/

theorem nulFree_decimal (n : Nat) : NulFree (decimal n) := by
  rintro b hb rfl
  exact absurd (isSome_of_mem_decimal hb) (by decide)

theorem nulFree_intToString (v : Int) : NulFree (intToString v) := by
  unfold intToString
  split
  next => exact .cons (by decide) (nulFree_decimal _)
  next => exact nulFree_decimal _

theorem nulFree_fixed (num den : Nat) : NulFree (fixed num den) := by
  refine (nulFree_decimal _).append (.cons (by decide) ?_)
  rintro b hb rfl
  obtain ⟨i, -, hi⟩ := List.mem_map.mp hb
  have hval := decimalVal_decimalChar (Nat.mod_lt (roundHalfEven (num * 10 ^ 6) den / 10 ^ i)
    (show 0 < 10 by decide))
  rw [hi] at hval
  have hzero : decimalVal 0 = none := by decide
  rw [hzero] at hval
  exact absurd hval (by simp)

theorem nulFree_doubleToString (d : Double) : NulFree (doubleToString d) := by
  cases d with
  | finite q =>
    rw [doubleToString]
    split
    next => exact .cons (by decide) (nulFree_fixed _ _)
    next => exact nulFree_fixed _ _
  | negZero => exact .cons (by decide) (nulFree_fixed _ _)
  | nan => decide
  | inf negative => cases negative <;> decide

theorem nulFree_elemToString (t : Elem) (b : t.Bits) : NulFree (elemToString t b) := by
  cases t with
  | float => exact nulFree_doubleToString _
  | _ => exact nulFree_intToString _

end Ejr
