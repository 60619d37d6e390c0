import Mathlib.Data.Rat.Floor
import Mathlib.Tactic.Positivity
import Mathlib.Tactic.Linarith

/-!
# Bit patterns of doubles

An IEEE double as its 64 bits: the fields, the rational number a finite pattern
stands for, and that number without its fraction. Everything is counted in units
of 2^-1074 (`scaled`), so that no exponent is negative. `shifted_eq` is the fact
that conversions to machine integers rest on: shifted to its place in a 64-bit
word, the significand has the low bits of the integral part at the top.
-/

namespace Ejr.Lib

/-! ## Without the fraction -/

/-- The integral part, towards zero. -/
def truncate (q : Rat) : Int := q.num.tdiv q.den

theorem truncate_neg (q : Rat) : truncate (-q) = -truncate q := by
  unfold truncate
  rw [Rat.neg_num, Rat.neg_den, Int.neg_tdiv]

theorem truncate_of_nonneg {q : Rat} (hq : 0 ≤ q) : truncate q = ⌊q⌋ := by
  rw [truncate, Int.tdiv_eq_ediv_of_nonneg (Rat.num_nonneg.mpr hq), ← Rat.floor_def']

theorem truncate_natCast_div (n d : Nat) : truncate ((n : Rat) / d) = ((n / d : Nat) : Int) := by
  rw [truncate_of_nonneg (by positivity), Rat.floor_natCast_div_natCast]
  rfl

/-- Between two integers with 0 between them it stays. -/
theorem truncate_mem {a b : Int} (ha : a ≤ 0) (hb : 0 ≤ b) {q : Rat} (hq : (a : Rat) ≤ q)
    (hq' : q ≤ (b : Rat)) : a ≤ truncate q ∧ truncate q ≤ b := by
  rcases le_total 0 q with hpos | hneg
  · have hfloor : ⌊q⌋ ≤ b := Int.floor_le_iff.mpr (by linarith)
    have hfloor' : 0 ≤ ⌊q⌋ := Int.floor_nonneg.mpr hpos
    rw [truncate_of_nonneg hpos]
    omega
  · have hfloor : ⌊-q⌋ ≤ -a := by
      refine Int.floor_le_iff.mpr ?_
      rw [Int.cast_neg]
      linarith
    have hfloor' : 0 ≤ ⌊-q⌋ := Int.floor_nonneg.mpr (by linarith)
    rw [← neg_neg q, truncate_neg, truncate_of_nonneg (by linarith)]
    omega

/-! ## The fields -/

namespace Binary64

/-- The sign bit. -/
def negative (u : UInt64) : Bool := u >>> 63 != 0

/-- The exponent field. -/
def exponent (u : UInt64) : UInt64 := (u >>> 52) &&& 0x7ff

/-- The fraction field. -/
def fraction (u : UInt64) : UInt64 := u &&& (((1 : UInt64) <<< 52) - 1)

/-- The fraction with the leading bit of a normal number. -/
def normal (u : UInt64) : UInt64 := fraction u ||| ((1 : UInt64) <<< 52)

theorem toNat_exponent (u : UInt64) : (exponent u).toNat = u.toNat / 2 ^ 52 % 2 ^ 11 := by
  rw [exponent, UInt64.toNat_and, UInt64.toNat_shiftRight,
    show (0x7ff : UInt64).toNat = 2 ^ 11 - 1 from rfl, Nat.and_two_pow_sub_one_eq_mod,
    show (52 : UInt64).toNat % 64 = 52 from rfl, Nat.shiftRight_eq_div_pow]

theorem toNat_fraction (u : UInt64) : (fraction u).toNat = u.toNat % 2 ^ 52 := by
  rw [fraction, UInt64.toNat_and,
    show (((1 : UInt64) <<< 52) - 1).toNat = 2 ^ 52 - 1 from rfl, Nat.and_two_pow_sub_one_eq_mod]

theorem toNat_normal (u : UInt64) : (normal u).toNat = 2 ^ 52 + u.toNat % 2 ^ 52 := by
  have hlt : u.toNat % 2 ^ 52 < 2 ^ 52 := Nat.mod_lt _ (by decide)
  rw [normal, UInt64.toNat_or, toNat_fraction,
    show ((1 : UInt64) <<< 52).toNat = 2 ^ 52 * 1 from rfl, Nat.or_comm,
    ← Nat.two_pow_add_eq_or_of_lt hlt, Nat.mul_one]

theorem negative_iff (u : UInt64) : negative u = true ↔ 2 ^ 63 ≤ u.toNat := by
  have hlt := u.toNat_lt
  have hshift : (u >>> 63).toNat = u.toNat / 2 ^ 63 := by
    rw [UInt64.toNat_shiftRight, show (63 : UInt64).toNat % 64 = 63 from rfl,
      Nat.shiftRight_eq_div_pow]
  rw [negative, bne_iff_ne, ne_eq, ← UInt64.toNat_inj, hshift, UInt64.toNat_zero]
  omega

/-! ## The number -/

/-- The significand: subnormal numbers have no leading bit. -/
def significand (u : UInt64) : Nat :=
  if (exponent u).toNat = 0 then (fraction u).toNat else (normal u).toNat

/-- 1, in units of 2^-1074. -/
def unit : Nat := 2 ^ 1074

theorem unit_pos : 0 < unit := by
  unfold unit
  positivity

theorem unit_eq {k : Nat} (hk : k ≤ 1074) : unit = 2 ^ k * 2 ^ (1074 - k) := by
  rw [unit, ← Nat.pow_add]
  congr 1
  omega

/-- The magnitude, in units of 2^-1074. -/
def scaled (u : UInt64) : Nat := significand u * 2 ^ ((exponent u).toNat - 1)

/-- The number a finite pattern stands for. -/
def value (u : UInt64) : Rat :=
  if negative u then -((scaled u : Rat) / unit) else (scaled u : Rat) / unit

/-- The integral part of the magnitude. -/
def integral (u : UInt64) : Nat := scaled u / unit

theorem truncate_value (u : UInt64) :
    truncate (value u) = if negative u then -(integral u : Int) else integral u := by
  unfold value integral
  split
  · rw [truncate_neg, truncate_natCast_div]
  · rw [truncate_natCast_div]

theorem significand_lt (u : UInt64) : significand u < 2 ^ 53 := by
  have hlt : u.toNat % 2 ^ 52 < 2 ^ 52 := Nat.mod_lt _ (by decide)
  unfold significand
  split
  · rw [toNat_fraction]
    omega
  · rw [toNat_normal]
    omega

/-- Below 2^(w-1) a magnitude fits a signed integer of `w` bits. -/
theorem integral_lt {u : UInt64} {w : Nat} (hw : 2 ≤ w) (he : (exponent u).toNat ≤ 1021 + w) :
    integral u < 2 ^ (w - 1) := by
  rw [integral, Nat.div_lt_iff_lt_mul unit_pos]
  calc scaled u < 2 ^ 53 * 2 ^ ((exponent u).toNat - 1) :=
        Nat.mul_lt_mul_of_pos_right (significand_lt u) (by positivity)
    _ ≤ 2 ^ 53 * 2 ^ (1020 + w) :=
        Nat.mul_le_mul_left _ (Nat.pow_le_pow_right (by decide) (by omega))
    _ = 2 ^ (w - 1) * unit := by
        rw [unit, ← Nat.pow_add, ← Nat.pow_add]
        congr 1
        omega

/-- A magnitude whose last bit is not below 2^w has no bits below 2^w. -/
theorem integral_mod {u : UInt64} {w : Nat} (he : 1075 + w ≤ (exponent u).toNat) :
    integral u % 2 ^ w = 0 := by
  have hscaled : scaled u =
      significand u * 2 ^ ((exponent u).toNat - 1075 - w) * 2 ^ w * unit := by
    rw [scaled, unit, Nat.mul_assoc, Nat.mul_assoc, ← Nat.pow_add, ← Nat.pow_add]
    congr 2
    omega
  rw [integral, hscaled, Nat.mul_div_cancel _ unit_pos, Nat.mul_mod_left]

/-- **The significand in its place**: `k` bits further left than it stands, in a
word of `k + w` bits, it has the low `w` bits of the integral part at the top. -/
theorem shifted_eq {u : UInt64} {w k : Nat} (hk : k ≤ 1074)
    (he : 1075 ≤ (exponent u).toNat + k) :
    significand u * 2 ^ ((exponent u).toNat + k - 1075) % 2 ^ (k + w) / 2 ^ k =
      integral u % 2 ^ w := by
  have hpos : 0 < 2 ^ (1074 - k) := by positivity
  have hscaled : scaled u =
      significand u * 2 ^ ((exponent u).toNat + k - 1075) * 2 ^ (1074 - k) := by
    rw [scaled, Nat.mul_assoc, ← Nat.pow_add]
    congr 2
    omega
  rw [integral, hscaled, unit_eq hk, Nat.mul_div_mul_right _ _ hpos, Nat.pow_add,
    Nat.mod_mul_right_div_self]

/-! ## The pattern of an integer -/

/-- A pattern is its sign and its other bits. -/
theorem ext {u v : UInt64} (hneg : negative u = negative v)
    (hlow : u.toNat % 2 ^ 63 = v.toNat % 2 ^ 63) : u = v := by
  have hu := u.toNat_lt
  have hv := v.toNat_lt
  have hiff : 2 ^ 63 ≤ u.toNat ↔ 2 ^ 63 ≤ v.toNat := by
    rw [← negative_iff, ← negative_iff, hneg]
  apply UInt64.toNat_inj.mp
  omega

theorem significand_eq (u : UInt64) : significand u =
    if (exponent u).toNat = 0 then u.toNat % 2 ^ 52 else 2 ^ 52 + u.toNat % 2 ^ 52 := by
  rw [significand, toNat_fraction, toNat_normal]

/-- A larger exponent is a larger magnitude, -/
theorem scaled_lt_of_exponent {u v : UInt64} (h : (exponent u).toNat < (exponent v).toNat) :
    scaled u < scaled v := by
  have hv : 2 ^ 52 ≤ significand v := by
    rw [significand_eq, if_neg (by omega)]
    exact Nat.le_add_right _ _
  unfold scaled
  by_cases hu : (exponent u).toNat = 0
  · have hlt : significand u < 2 ^ 52 := by
      rw [significand_eq, if_pos hu]
      exact Nat.mod_lt _ (by decide)
    rw [hu, Nat.zero_sub, Nat.pow_zero, Nat.mul_one]
    exact Nat.lt_of_lt_of_le (Nat.lt_of_lt_of_le hlt hv) (Nat.le_mul_of_pos_right _ (by positivity))
  · calc significand u * 2 ^ ((exponent u).toNat - 1)
        < 2 ^ 53 * 2 ^ ((exponent u).toNat - 1) :=
          Nat.mul_lt_mul_of_pos_right (significand_lt u) (by positivity)
      _ = 2 ^ 52 * 2 ^ (exponent u).toNat := by
          rw [← Nat.pow_add, ← Nat.pow_add]
          congr 1
          omega
      _ ≤ 2 ^ 52 * 2 ^ ((exponent v).toNat - 1) :=
          Nat.mul_le_mul_left _ (Nat.pow_le_pow_right (by decide) (by omega))
      _ ≤ significand v * 2 ^ ((exponent v).toNat - 1) := Nat.mul_le_mul_right _ hv

/-- so the magnitude determines all bits but the sign. -/
theorem scaled_inj {u v : UInt64} (h : scaled u = scaled v) :
    u.toNat % 2 ^ 63 = v.toNat % 2 ^ 63 := by
  have hexp : (exponent u).toNat = (exponent v).toNat := by
    rcases Nat.lt_trichotomy (exponent u).toNat (exponent v).toNat with hlt | heq | hgt
    · exact absurd h (Nat.ne_of_lt (scaled_lt_of_exponent hlt))
    · exact heq
    · exact absurd h.symm (Nat.ne_of_lt (scaled_lt_of_exponent hgt))
  have hsig : significand u = significand v := by
    unfold scaled at h
    rw [hexp] at h
    exact Nat.eq_of_mul_eq_mul_right (by positivity) h
  have hfrac : u.toNat % 2 ^ 52 = v.toNat % 2 ^ 52 := by
    rw [significand_eq, significand_eq, hexp] at hsig
    split at hsig
    · exact hsig
    · omega
  rw [toNat_exponent, toNat_exponent] at hexp
  omega

/-- The pattern of an integer of at most 53 bits. -/
def ofInt (i : Int) : UInt64 :=
  if i = 0 then 0
  else
    let k := i.natAbs.log2
    UInt64.ofNat ((if i < 0 then 2 ^ 63 else 0) + (1023 + k) * 2 ^ 52 +
      (i.natAbs - 2 ^ k) * 2 ^ (52 - k))

/-- What `ofInt` needs to know of the leading bit. -/
theorem leading {n : Nat} (hn : n ≠ 0) (hlt : n < 2 ^ 53) :
    2 ^ n.log2 ≤ n ∧ n.log2 ≤ 52 ∧ (n - 2 ^ n.log2) * 2 ^ (52 - n.log2) < 2 ^ 52 := by
  have hle : 2 ^ n.log2 ≤ n := Nat.log2_self_le hn
  have hk : n.log2 < 53 := (Nat.log2_lt hn).mpr hlt
  have hsucc : n < 2 ^ (n.log2 + 1) := Nat.lt_log2_self
  refine ⟨hle, by omega, ?_⟩
  calc (n - 2 ^ n.log2) * 2 ^ (52 - n.log2)
      < 2 ^ n.log2 * 2 ^ (52 - n.log2) := by
        refine Nat.mul_lt_mul_of_pos_right ?_ (by positivity)
        rw [Nat.pow_succ] at hsucc
        omega
    _ = 2 ^ 52 := by
        rw [← Nat.pow_add]
        congr 1
        omega

theorem toNat_ofInt {i : Int} (hi : i ≠ 0) (hlt : i.natAbs < 2 ^ 53) :
    (ofInt i).toNat = (if i < 0 then 2 ^ 63 else 0) + (1023 + i.natAbs.log2) * 2 ^ 52 +
      (i.natAbs - 2 ^ i.natAbs.log2) * 2 ^ (52 - i.natAbs.log2) := by
  obtain ⟨-, hk, hfrac⟩ := leading (Int.natAbs_ne_zero.mpr hi) hlt
  rw [ofInt, if_neg hi]
  refine UInt64.toNat_ofNat_of_lt' ?_
  show _ < 2 ^ 64
  split <;> omega

theorem negative_ofInt {i : Int} (hlt : i.natAbs < 2 ^ 53) :
    negative (ofInt i) = true ↔ i < 0 := by
  by_cases hi : i = 0
  · subst hi
    decide
  · obtain ⟨-, hk, hfrac⟩ := leading (Int.natAbs_ne_zero.mpr hi) hlt
    rw [negative_iff, toNat_ofInt hi hlt]
    by_cases hneg : i < 0
    · rw [if_pos hneg]
      omega
    · rw [if_neg hneg]
      omega

theorem exponent_ofInt {i : Int} (hi : i ≠ 0) (hlt : i.natAbs < 2 ^ 53) :
    (exponent (ofInt i)).toNat = 1023 + i.natAbs.log2 := by
  obtain ⟨-, hk, hfrac⟩ := leading (Int.natAbs_ne_zero.mpr hi) hlt
  rw [toNat_exponent, toNat_ofInt hi hlt]
  split <;> omega

theorem exponent_ofInt_lt {i : Int} (hlt : i.natAbs < 2 ^ 53) :
    (exponent (ofInt i)).toNat < 1076 := by
  by_cases hi : i = 0
  · subst hi
    decide
  · obtain ⟨-, hk, -⟩ := leading (Int.natAbs_ne_zero.mpr hi) hlt
    rw [exponent_ofInt hi hlt]
    omega

theorem scaled_ofInt {i : Int} (hlt : i.natAbs < 2 ^ 53) :
    scaled (ofInt i) = i.natAbs * unit := by
  by_cases hi : i = 0
  · subst hi
    rw [Int.natAbs_zero, Nat.zero_mul]
    decide
  · obtain ⟨hle, hk, hfrac⟩ := leading (Int.natAbs_ne_zero.mpr hi) hlt
    have hexp := exponent_ofInt hi hlt
    have hsig : significand (ofInt i) = i.natAbs * 2 ^ (52 - i.natAbs.log2) := by
      have hmod : (ofInt i).toNat % 2 ^ 52 =
          (i.natAbs - 2 ^ i.natAbs.log2) * 2 ^ (52 - i.natAbs.log2) := by
        rw [toNat_ofInt hi hlt]
        split <;> omega
      have hlead : 2 ^ 52 = 2 ^ i.natAbs.log2 * 2 ^ (52 - i.natAbs.log2) := by
        rw [← Nat.pow_add]
        congr 1
        omega
      rw [significand_eq, if_neg (by omega), hmod, hlead, ← Nat.add_mul]
      congr 1
      omega
    rw [scaled, unit, hsig, hexp, Nat.mul_assoc, ← Nat.pow_add]
    congr 2
    omega

/-! ## Values and patterns -/

theorem abs_value (u : UInt64) : |value u| = (scaled u : Rat) / unit := by
  have hnonneg : (0 : Rat) ≤ (scaled u : Rat) / unit := by positivity
  unfold value
  split
  · rw [abs_neg, abs_of_nonneg hnonneg]
  · rw [abs_of_nonneg hnonneg]

theorem scaled_eq_iff (u : UInt64) (n : Nat) : scaled u = n * unit ↔ |value u| = n := by
  have hunit : (unit : Rat) ≠ 0 := Nat.cast_ne_zero.mpr (Nat.ne_of_gt unit_pos)
  rw [abs_value, div_eq_iff hunit, ← Nat.cast_mul, Nat.cast_inj]

/-- The sign bit is the sign of the value, unless that is 0. -/
theorem negative_iff_value {u : UInt64} (h : value u ≠ 0) : negative u = true ↔ value u < 0 := by
  have hpos : (0 : Rat) < (scaled u : Rat) / unit := by
    rw [← abs_value]
    exact abs_pos.mpr h
  unfold value
  split
  next hneg => exact ⟨fun _ => neg_neg_of_pos hpos, fun _ => hneg⟩
  next hneg => exact ⟨fun h => absurd h hneg, fun h => absurd h (not_lt_of_gt hpos)⟩

/-- -0. -/
def negZero : UInt64 := 0x8000000000000000

theorem value_ofInt {i : Int} (hlt : i.natAbs < 2 ^ 53) : value (ofInt i) = i := by
  have hscaled : (scaled (ofInt i) : Rat) / unit = |(i : Rat)| := by
    rw [← abs_value, (scaled_eq_iff _ _).mp (scaled_ofInt hlt), Nat.cast_natAbs, Int.cast_abs]
  have hsign : negative (ofInt i) = true ↔ (i : Rat) < 0 := by
    rw [negative_ofInt hlt, Int.cast_lt_zero]
  unfold value
  rw [hscaled]
  split
  next hneg => rw [abs_of_neg (hsign.mp hneg), neg_neg]
  next hneg => rw [abs_of_nonneg (not_lt.mp fun h => hneg (hsign.mpr h))]

/-- **A pattern is the pattern of an integer** when it has its value, except that
-0 is not the pattern of 0. -/
theorem eq_ofInt_iff {u : UInt64} {i : Int} (hlt : i.natAbs < 2 ^ 53) :
    u = ofInt i ↔ value u = i ∧ u ≠ negZero := by
  constructor
  · intro h
    subst h
    refine ⟨value_ofInt hlt, fun hzero => ?_⟩
    have hneg : i < 0 := (negative_ofInt hlt).mp (by rw [hzero]; decide)
    have hscaled := scaled_ofInt hlt
    rw [hzero, show scaled negZero = 0 by decide] at hscaled
    have := (Nat.mul_eq_zero.mp hscaled.symm).resolve_right (Nat.ne_of_gt unit_pos)
    omega
  · intro h
    obtain ⟨hvalue, hzero⟩ := h
    have hlow : u.toNat % 2 ^ 63 = (ofInt i).toNat % 2 ^ 63 := by
      refine scaled_inj ?_
      rw [scaled_ofInt hlt, scaled_eq_iff, hvalue, Nat.cast_natAbs, Int.cast_abs]
    refine ext ?_ hlow
    by_cases hi : i = 0
    · subst hi
      rw [Bool.eq_iff_iff, negative_ofInt hlt, negative_iff]
      refine ⟨fun hneg => absurd (UInt64.toNat_inj.mp ?_) hzero, fun h => absurd h (by decide)⟩
      have hu := u.toNat_lt
      rw [show (ofInt 0).toNat = 0 from rfl] at hlow
      rw [show negZero.toNat = 2 ^ 63 from rfl]
      omega
    · have hne : (i : Rat) ≠ 0 := Int.cast_ne_zero.mpr hi
      rw [Bool.eq_iff_iff, negative_iff_value (by rwa [hvalue]), hvalue, negative_ofInt hlt,
        Int.cast_lt_zero]

end Binary64

end Ejr.Lib
