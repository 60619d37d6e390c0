import Ejr.Lib.Split
import Ejr.Bytes
import Mathlib.Data.Nat.Digits.Lemmas
import Mathlib.Data.List.TakeWhile

/-!
# Text utilities

`str_split` (src/utils.cpp), and the two conversions of the C++ library that
module names go through: `operator<<` of a pointer and `stoull` in base 16.

Mirroring notes:
- `string::find` is `find`, an index or `none` for `npos`. The loop of
  `str_split` carries the index it searches from; the model bounds its turns
  and answers `none` when the bound is used up.
- Cut at an index, the loop is the splitting of `Ejr.Lib.Split` on what is
  left of the text (`strSplitLoop_eq`).
- An empty delimiter is not refused; the loop then never ends (`splitEnds_iff`).
-/

namespace Ejr

open Lib

/-! ## `str_split` -/

/-- `s.find(d, start)`. -/
def find (s d : Bytes) (start : Nat) : Option Nat :=
  if start ≤ s.length then (firstOcc d (s.drop start)).map (start + ·) else none

/-- The loop of `str_split`, at most as many turns as the first argument says. -/
def strSplitLoop (s delimiter : Bytes) : Nat → Nat → Option (List Bytes)
  | 0, _ => none
  | n + 1, start =>
    match find s delimiter start with
    | some stop =>
      (strSplitLoop s delimiter n (stop + delimiter.length)).map
        ((s.drop start).take (stop - start) :: ·)
    | none => some [s.drop start]

/-- `str_split`. Each turn moves past a delimiter, so a non-empty one is found
fewer times than there are bytes. -/
def strSplit (s delimiter : Bytes) : Option (List Bytes) :=
  strSplitLoop s delimiter (s.length + 1) 0

/-- The loop splits what is left of the text. -/
theorem strSplitLoop_eq {s d : Bytes} : ∀ {n start : Nat}, start ≤ s.length →
    strSplitLoop s d n start = splitFuel d n (s.drop start)
  | 0, _, _ => rfl
  | n + 1, start, h => by
    rw [strSplitLoop, splitFuel, find, if_pos h]
    cases hf : firstOcc d (s.drop start) with
    | none => rfl
    | some i =>
      have hle := firstOcc_add_length_le hf
      rw [List.length_drop] at hle
      have hnext : start + i + d.length ≤ s.length := by omega
      simp only [Option.map_some]
      rw [strSplitLoop_eq hnext, List.drop_drop, Nat.add_sub_cancel_left, Nat.add_assoc]

theorem strSplit_eq {s d : Bytes} : strSplit s d = splitFuel d (s.length + 1) s := by
  rw [strSplit, strSplitLoop_eq (Nat.zero_le _), List.drop_zero]

/-- **`str_split`** comes back for every non-empty delimiter, with the leftmost
splitting, the only one there is: one token more than there are matches. -/
theorem strSplit_leftmost {s d : Bytes} (hd : d ≠ []) :
    ∃ tokens, strSplit s d = some tokens ∧ LeftmostSplit d s tokens ∧
      (∀ others, LeftmostSplit d s others → others = tokens) ∧
      (∃ ms, Matches d s 0 ms) ∧ ∀ ms, Matches d s 0 ms → tokens.length = ms.length + 1 := by
  have hfuel : s.length < s.length + 1 := Nat.lt_succ_self _
  obtain ⟨rest, hsome⟩ := splitFuel_total hd hfuel
  have hsplit := (splitFuel_eq_some_iff hd hfuel).mp hsome
  obtain ⟨ms, hms, hlen⟩ := hsplit.exists_matches 0
  refine ⟨_, by rw [strSplit_eq, hsome], hsplit, ?_, ⟨ms, hms⟩, ?_⟩
  · intro others hothers
    have hsome' := (splitFuel_eq_some_iff hd hfuel).mpr hothers
    rw [hsome] at hsome'
    exact (Option.some.inj hsome').symm
  · intro ms' hms'
    rw [hms'.unique hms, hlen]

/-- `"aab"` cut at `"a"`: two matches, three tokens. -/
theorem strSplit_leftmost_aab : ∃ tokens, strSplit (ascii "aab") (ascii "a") = some tokens ∧
    LeftmostSplit (ascii "a") (ascii "aab") tokens ∧
    (∀ others, LeftmostSplit (ascii "a") (ascii "aab") others → others = tokens) ∧
    (∃ ms, Matches (ascii "a") (ascii "aab") 0 ms) ∧
    ∀ ms, Matches (ascii "a") (ascii "aab") 0 ms → tokens.length = ms.length + 1 :=
  strSplit_leftmost (by decide)

example : strSplit (ascii "aab") (ascii "a") = some [[], [], ascii "b"] := by decide

/-- The loop of `str_split` ends, after as many turns as it takes. -/
def SplitEnds (s delimiter : Bytes) : Prop :=
  ∃ n tokens, strSplitLoop s delimiter n 0 = some tokens

/-- The empty text is found where the search begins. -/
theorem find_nil {s : Bytes} {start : Nat} (h : start ≤ s.length) :
    find s [] start = some start := by
  have hfirst : firstOcc [] (s.drop start) = some 0 := by
    rw [firstOcc_eq_some_iff]
    exact ⟨Nat.zero_le _, List.nil_prefix, fun j hj => absurd hj (Nat.not_lt_zero j)⟩
  rw [find, if_pos h, hfirst]
  rfl

/-- An empty delimiter moves the search nowhere, however many turns there are. -/
theorem strSplitLoop_nil {s : Bytes} {start : Nat} (h : start ≤ s.length) :
    ∀ n, strSplitLoop s [] n start = none
  | 0 => rfl
  | n + 1 => by
    have hnext : start + ([] : Bytes).length = start := rfl
    simp only [strSplitLoop, find_nil h, hnext]
    rw [strSplitLoop_nil h n, Option.map_none]

/-- **`str_split` ends** exactly when its delimiter is not empty. -/
theorem splitEnds_iff (s d : Bytes) : SplitEnds s d ↔ d ≠ [] := by
  constructor
  · intro h hd
    obtain ⟨n, tokens, hloop⟩ := h
    rw [hd, strSplitLoop_nil (Nat.zero_le _)] at hloop
    exact nomatch hloop
  · intro hd
    obtain ⟨rest, hsome⟩ := splitFuel_total hd (Nat.lt_succ_self s.length)
    refine ⟨s.length + 1, beforeFirst d s :: rest, ?_⟩
    rw [strSplitLoop_eq (Nat.zero_le _), List.drop_zero]
    exact hsome

/-- `str_split("a", "")` does not come back. -/
theorem splitEnds_fails : ¬∀ s d : Bytes, SplitEnds s d := by
  intro hall
  obtain ⟨n, tokens, hloop⟩ := hall (ascii "a") []
  rw [strSplitLoop_nil (Nat.zero_le _)] at hloop
  exact nomatch hloop

/-! ## Hexadecimal numbers -/

/-- A hexadecimal digit, as `operator<<` prints it. -/
def hexChar (d : Nat) : UInt8 := if d < 10 then UInt8.ofNat (48 + d) else UInt8.ofNat (87 + d)

/-- The value of a hexadecimal digit, in either case. -/
def hexVal (b : UInt8) : Option Nat :=
  if 48 ≤ b.toNat ∧ b.toNat ≤ 57 then some (b.toNat - 48)
  else if 97 ≤ b.toNat ∧ b.toNat ≤ 102 then some (b.toNat - 87)
  else if 65 ≤ b.toNat ∧ b.toNat ≤ 70 then some (b.toNat - 55)
  else none

/-- The digits of a number, the most significant first. -/
def hexDigits (p : Nat) : Bytes := ((Nat.digits 16 p).reverse).map hexChar

/-- `oss << pointer`: a hexadecimal literal, `0` for the null pointer. -/
def printPointer (p : Nat) : Bytes := if p = 0 then ascii "0" else ascii "0x" ++ hexDigits p

/-- `isspace` in the C locale. -/
def isSpace (b : UInt8) : Bool := b == 32 || (9 ≤ b.toNat && b.toNat ≤ 13)

/-- The sign `strtoull` accepts. -/
def takeSign : Bytes → Bool × Bytes
  | 45 :: s => (true, s)
  | 43 :: s => (false, s)
  | s => (false, s)

/-- The prefix `0x` `strtoull` accepts before a digit. -/
def takePrefix : Bytes → Bytes
  | 48 :: x :: d :: s =>
    if (x = 120 ∨ x = 88) ∧ (hexVal d).isSome then d :: s else 48 :: x :: d :: s
  | s => s

/-- The digits a text starts with. -/
def leadingDigits (s : Bytes) : List Nat := (s.takeWhile fun b => (hexVal b).isSome).filterMap hexVal

/-- `stoull(s, nullptr, 16)`: `none` when it throws, for want of a digit or
because the number does not fit. A minus sign negates modulo 2^64. -/
def stoull (s : Bytes) : Option Nat :=
  let signed := takeSign ((cstr s).dropWhile isSpace)
  match leadingDigits (takePrefix signed.2) with
  | [] => none
  | d :: ds =>
    let v := (d :: ds).foldl (fun acc d => acc * 16 + d) 0
    if v < 2 ^ 64 then some (if signed.1 then (2 ^ 64 - v) % 2 ^ 64 else v) else none

theorem hexVal_hexChar {d : Nat} (h : d < 16) : hexVal (hexChar d) = some d := by
  have hall : ∀ d : Fin 16, hexVal (hexChar d) = some d.val := by decide
  exact hall ⟨d, h⟩

theorem leadingDigits_map_hexChar {ds : List Nat} (h : ∀ d ∈ ds, d < 16) :
    leadingDigits (ds.map hexChar) = ds := by
  have hall : (ds.map hexChar).takeWhile (fun b => (hexVal b).isSome) = ds.map hexChar := by
    rw [List.takeWhile_eq_self_iff]
    intro b hb
    obtain ⟨d, hd, rfl⟩ := List.mem_map.mp hb
    rw [hexVal_hexChar (h d hd)]
    rfl
  unfold leadingDigits
  rw [hall, List.filterMap_map]
  calc ds.filterMap (hexVal ∘ hexChar) = ds.filterMap some :=
        List.filterMap_congr fun d hd => hexVal_hexChar (h d hd)
    _ = ds := List.filterMap_some

/-- The digits, read from the most significant on, are the number. -/
theorem foldl_digits (b p : Nat) :
    (Nat.digits b p).reverse.foldl (fun acc d => acc * b + d) 0 = p := by
  rw [List.foldl_reverse]
  calc (Nat.digits b p).foldr (fun d acc => acc * b + d) 0 = Nat.ofDigits b (Nat.digits b p) := by
        rw [Nat.ofDigits_eq_foldr]
        congr 1
        funext d acc
        simp [Nat.mul_comm, Nat.add_comm]
    _ = p := Nat.ofDigits_digits b p

theorem digits_lt {p d : Nat} (h : d ∈ (Nat.digits 16 p).reverse) : d < 16 :=
  Nat.digits_lt_base (by decide) (List.mem_reverse.mp h)

/-- A printed digit is a letter or a figure. -/
theorem hexChar_bounds {d : Nat} (h : d < 16) :
    48 ≤ (hexChar d).toNat ∧ (hexChar d).toNat < 128 ∧ (hexChar d).toNat ≠ 58 := by
  have hall : ∀ d : Fin 16, 48 ≤ (hexChar d).toNat ∧ (hexChar d).toNat < 128 ∧
      (hexChar d).toNat ≠ 58 := by decide
  exact hall ⟨d, h⟩

/-- A printed pointer is plain ASCII without a colon. -/
theorem printPointer_bytes {p : Nat} {b : UInt8} (h : b ∈ printPointer p) :
    48 ≤ b.toNat ∧ b.toNat < 128 ∧ b.toNat ≠ 58 := by
  unfold printPointer at h
  split at h
  next =>
    obtain rfl : b = 48 := by simpa [ascii] using h
    decide
  next =>
    rcases List.mem_append.mp h with h0 | hdigit
    · have hlit : b = 48 ∨ b = 120 := by simpa [ascii] using h0
      rcases hlit with rfl | rfl <;> decide
    · obtain ⟨d, hd, rfl⟩ := List.mem_map.mp hdigit
      exact hexChar_bounds (digits_lt hd)

/-- `stoull` reads a printed pointer back. -/
theorem stoull_printPointer {p : Nat} (hp : p < 2 ^ 64) : stoull (printPointer p) = some p := by
  by_cases h0 : p = 0
  · subst h0
    decide
  · have hnul : NulFree (printPointer p) := by
      intro b hb hb0
      have := (printPointer_bytes hb).1
      rw [hb0] at this
      exact absurd this (by decide)
    have hprint : printPointer p = 48 :: 120 :: hexDigits p := by
      rw [printPointer, if_neg h0]
      rfl
    have hdigits : leadingDigits (hexDigits p) = (Nat.digits 16 p).reverse :=
      leadingDigits_map_hexChar fun d hd => digits_lt hd
    have hne : (Nat.digits 16 p).reverse ≠ [] := by
      simpa using Nat.digits_ne_nil_iff_ne_zero.mpr h0
    cases hr : (Nat.digits 16 p).reverse with
    | nil => exact absurd hr hne
    | cons d ds =>
      -- no white space and no sign in front, and `0x` is followed by a digit
      have hd : d < 16 := digits_lt (hr ▸ List.mem_cons_self ..)
      have hstrip : takePrefix (takeSign ((cstr (printPointer p)).dropWhile isSpace)).2 =
          hexDigits p := by
        rw [cstr_of_nulFree hnul, hprint]
        have hcons : hexDigits p = hexChar d :: ds.map hexChar := by
          rw [hexDigits, hr, List.map_cons]
        rw [hcons]
        simp [List.dropWhile, isSpace, takeSign, takePrefix, hexVal_hexChar hd]
      have hfold : (d :: ds).foldl (fun acc d => acc * 16 + d) 0 = p := by
        rw [← hr]
        exact foldl_digits 16 p
      have hsign : (takeSign ((cstr (printPointer p)).dropWhile isSpace)).1 = false := by
        rw [cstr_of_nulFree hnul, hprint]
        simp [List.dropWhile, isSpace, takeSign]
      simp only [stoull, hstrip, hdigits, hr, hfold, hsign]
      rw [if_pos hp]
      rfl

end Ejr
