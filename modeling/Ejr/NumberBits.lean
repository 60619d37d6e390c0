import Ejr.Lib.Binary64
import Ejr.Answers
import Ejr.Numbers

/-!
# Numbers, bit by bit

Elsewhere a double is the number it stands for (`Double`), and `JS_ToInt32` is
truncation modulo 2^32. Here are the functions of QuickJS that make and convert
doubles, as they work on the 64 bits: `JS_ToInt32Free` and `JS_ToInt64Free`
(lib/quickjs.c), which shift the significand to its place, and `JS_NewFloat64`
(lib/quickjs.h), which keeps a double as an `int` where that loses nothing. They
compute what the numbers say (`toInt32Free_eq`), and `from_js` cannot tell which
of the two representations it is given (`newFloat64_read`).

Mirroring notes:
- What C leaves undefined is `none`: the conversion of a double to an integer
  type it does not fit, and a shift by less than 0 or by 64 and more.
- A negation that overflows wraps.
-/

namespace Ejr

open Lib Binary64

/-! ## The patterns -/

/-- The number with these bits. -/
def Double.ofBits (u : UInt64) : Double :=
  if (exponent u).toNat = 2047 then
    if (fraction u).toNat = 0 then .inf (negative u) else .nan
  else if u = Binary64.negZero then .negZero
  else .finite (value u)

theorem trunc_ofBits (u : UInt64) : (Double.ofBits u).trunc =
    if (exponent u).toNat = 2047 then 0
    else if negative u then -(integral u : Int) else integral u := by
  unfold Double.ofBits
  by_cases hexp : (exponent u).toNat = 2047
  · rw [if_pos hexp, if_pos hexp]
    split <;> rfl
  · rw [if_neg hexp, if_neg hexp]
    split
    next hzero =>
      subst hzero
      have hintegral : integral Binary64.negZero = 0 := by
        rw [integral, show scaled Binary64.negZero = 0 by decide, Nat.zero_div]
      rw [hintegral]
      rfl
    next => exact truncate_value u

/-! ## To an integer -/

/-- `(int32_t)d` and `(int64_t)d`. -/
def castInt (w : Nat) (d : Double) : Option (BitVec w) :=
  d.toRat?.bind fun q =>
    if -2 ^ (w - 1) ≤ truncate q ∧ truncate q < 2 ^ (w - 1) then some (BitVec.ofInt w (truncate q))
    else none

/-- `v << n`. -/
def shiftLeft (v : UInt64) (n : Int) : Option UInt64 :=
  if 0 ≤ n ∧ n < 64 then some (v <<< UInt64.ofNat n.toNat) else none

/-- The branch for a double of `JS_ToInt32Free` and of `JS_ToInt64Free`, which
are one up to the width of the result. -/
def toIntFree (w : Nat) (u : UInt64) : Option (BitVec w) :=
  let e := (exponent u).toNat
  if e ≤ 1023 + (w - 2) then castInt w (.ofBits u)
  else if e ≤ 1023 + (w - 2) + 53 then do
    let v ← shiftLeft (normal u) (((e : Int) - 1023) - 52 + (64 - w))
    let ret := BitVec.ofNat w (v >>> UInt64.ofNat (64 - w)).toNat
    some (if negative u then -ret else ret)
  else some 0

/-- `JS_ToInt32Free` of a double. -/
def toInt32Free (u : UInt64) : Option Int32 := (toIntFree 32 u).map Int32.ofBitVec

/-- `JS_ToInt64Free` of a double. -/
def toInt64Free (u : UInt64) : Option Int64 := (toIntFree 64 u).map Int64.ofBitVec

section

variable {w : Nat} {u : UInt64}

/-- The double fits where it is cast. -/
theorem castInt_eq (hw : 2 ≤ w) (hw' : w ≤ 64) (he : (exponent u).toNat ≤ 1023 + (w - 2)) :
    castInt w (.ofBits u) = some (BitVec.ofInt w (Double.ofBits u).trunc) := by
  have hlt : integral u < 2 ^ (w - 1) := integral_lt hw (by omega)
  have hexp : (exponent u).toNat ≠ 2047 := by omega
  have htrunc := trunc_ofBits u
  rw [if_neg hexp] at htrunc
  have hlt' : (integral u : Int) < 2 ^ (w - 1) := by exact_mod_cast hlt
  have hcast : castInt w (.ofBits u) =
      if -2 ^ (w - 1) ≤ (Double.ofBits u).trunc ∧ (Double.ofBits u).trunc < 2 ^ (w - 1) then
        some (BitVec.ofInt w (Double.ofBits u).trunc)
      else none := by
    unfold Double.ofBits
    rw [if_neg hexp]
    split
    next => rfl
    next => rfl
  rw [hcast, if_pos]
  rw [htrunc]
  split <;> omega

/-- The shift leaves the low bits of the integral part at the top. -/
theorem shifted_bits (hw : 2 ≤ w) (hw' : w ≤ 64) (hlow : 1023 + (w - 2) < (exponent u).toNat)
    (hhigh : (exponent u).toNat ≤ 1023 + (w - 2) + 53) :
    (shiftLeft (normal u) ((((exponent u).toNat : Int) - 1023) - 52 + (64 - w))).map
      (fun v => BitVec.ofNat w (v >>> UInt64.ofNat (64 - w)).toNat) =
      some (BitVec.ofNat w (integral u)) := by
  have hsig : significand u = (normal u).toNat := by
    rw [significand, if_neg (by omega)]
  have hshift : (((exponent u).toNat : Int) - 1023) - 52 + (64 - w) =
      ((exponent u).toNat + (64 - w) - 1075 : Nat) := by omega
  have hbound : (exponent u).toNat + (64 - w) - 1075 < 64 := by omega
  have hback : 64 - w < 64 := by omega
  have htop := shifted_eq (u := u) (w := w) (k := 64 - w) (by omega) (by omega)
  rw [hsig, show 64 - w + w = 64 by omega] at htop
  rw [shiftLeft, hshift, if_pos (by omega), Option.map_some, Int.toNat_natCast]
  congr 1
  apply BitVec.eq_of_toNat_eq
  rw [BitVec.toNat_ofNat, BitVec.toNat_ofNat, UInt64.toNat_shiftRight, UInt64.toNat_shiftLeft,
    UInt64.toNat_ofNat_of_lt' (by show _ < 2 ^ 64; omega),
    UInt64.toNat_ofNat_of_lt' (by show _ < 2 ^ 64; omega), Nat.mod_eq_of_lt hbound,
    Nat.mod_eq_of_lt hback, Nat.shiftLeft_eq, Nat.shiftRight_eq_div_pow, htop, Nat.mod_mod]

theorem toIntFree_eq (hw : 2 ≤ w) (hw' : w ≤ 64) :
    toIntFree w u = some (BitVec.ofInt w (Double.ofBits u).trunc) := by
  have htrunc := trunc_ofBits u
  unfold toIntFree
  dsimp only
  by_cases hfast : (exponent u).toNat ≤ 1023 + (w - 2)
  · rw [if_pos hfast]
    exact castInt_eq hw hw' hfast
  · rw [if_neg hfast]
    by_cases hslow : (exponent u).toNat ≤ 1023 + (w - 2) + 53
    · have hexp : (exponent u).toNat ≠ 2047 := by omega
      rw [if_pos hslow]
      obtain ⟨v, hv, hret⟩ := Option.map_eq_some_iff.mp
        (shifted_bits hw hw' (Nat.lt_of_not_le hfast) hslow)
      rw [hv, Option.bind_eq_bind, Option.bind_some, hret, htrunc, if_neg hexp]
      split
      · rw [BitVec.ofInt_neg, BitVec.ofInt_natCast]
      · rw [BitVec.ofInt_natCast]
    · rw [if_neg hslow, htrunc]
      -- a multiple of 2^w, or no number at all
      by_cases hexp : (exponent u).toNat = 2047
      · rw [if_pos hexp]
        rfl
      · have hzero : BitVec.ofNat w (integral u) = 0#w := by
          apply BitVec.eq_of_toNat_eq
          rw [BitVec.toNat_ofNat, integral_mod (by omega), BitVec.toNat_zero]
        rw [if_neg hexp]
        split
        · rw [BitVec.ofInt_neg, BitVec.ofInt_natCast, hzero, BitVec.neg_zero]
          rfl
        · rw [BitVec.ofInt_natCast, hzero]
          rfl

end

/-- **The shifts compute truncation modulo 2^w**, for every pattern, subnormal,
infinite and NaN ones included, and nothing on the way is undefined. -/
theorem toInt32Free_eq (u : UInt64) :
    toInt32Free u = some (Int32.ofInt (Double.ofBits u).trunc) ∧
      toInt64Free u = some (Int64.ofInt (Double.ofBits u).trunc) := by
  refine ⟨?_, ?_⟩
  · rw [toInt32Free, toIntFree_eq (by decide) (by decide)]
    rfl
  · rw [toInt64Free, toIntFree_eq (by decide) (by decide)]
    rfl

-- 2^40 + 2^16 + 3/4
example : toInt32Free 0x4270000010000c00 = some 65536 := by decide

/-! ## From a double -/

/-- `d >= INT32_MIN && d <= INT32_MAX`. -/
def inInt32 (d : Double) : Bool :=
  d.toRat?.any fun q => decide (-2 ^ 31 ≤ q) && decide (q ≤ 2 ^ 31 - 1)

/-- `JS_NewFloat64`. -/
def newFloat64 (u : UInt64) : Option JSVal :=
  if inInt32 (.ofBits u) then do
    let val ← (castInt 32 (.ofBits u)).map Int32.ofBitVec
    -- -0 is no int: the patterns are compared, not the numbers
    some (if u = ofInt val.toInt then .int val else .float64 (.ofBits u))
  else some (.float64 (.ofBits u))

theorem natAbs_toInt32_lt (i : Int32) : i.toInt.natAbs < 2 ^ 53 := by
  have := i.toInt_lt
  have := i.le_toInt
  omega

/-- The double of an integer is the one with its pattern. -/
theorem ofBits_eq_iff {u : UInt64} {i : Int} (hlt : i.natAbs < 2 ^ 53) :
    Double.ofBits u = .finite i ↔ u = ofInt i := by
  rw [eq_ofInt_iff hlt]
  unfold Double.ofBits
  constructor
  · intro h
    split at h
    · split at h <;> exact absurd h (by simp)
    · split at h
      next => exact absurd h (by simp)
      next hzero => exact ⟨Double.finite.inj h, hzero⟩
  · intro h
    have hexp : (exponent u).toNat < 1076 := by
      rw [(eq_ofInt_iff hlt).mpr h]
      exact exponent_ofInt_lt hlt
    rw [if_neg (by omega), if_neg h.2, h.1]

/-- In range, the cast is defined. -/
theorem castInt_of_inInt32 {d : Double} (hd : inInt32 d = true) :
    castInt 32 d = some (BitVec.ofInt 32 d.trunc) := by
  obtain ⟨q, hq, hrange⟩ : ∃ q, d.toRat? = some q ∧ -2 ^ 31 ≤ q ∧ q ≤ 2 ^ 31 - 1 := by
    obtain ⟨q, hq, hrange⟩ := (Option.any_eq_true ..).mp hd
    rw [Bool.and_eq_true, decide_eq_true_iff, decide_eq_true_iff] at hrange
    exact ⟨q, hq, hrange⟩
  have htrunc : d.trunc = truncate q := by
    cases d with
    | finite r =>
      obtain rfl : r = q := Option.some.inj hq
      rfl
    | negZero =>
      obtain rfl : 0 = q := Option.some.inj hq
      rfl
    | nan => exact absurd hq (by simp [Double.toRat?])
    | inf negative => exact absurd hq (by simp [Double.toRat?])
  have hmem := truncate_mem (a := -2 ^ 31) (b := 2 ^ 31 - 1) (by decide) (by decide) (q := q)
    (by exact_mod_cast hrange.1) (by exact_mod_cast hrange.2)
  rw [castInt, hq, Option.bind_some, if_pos (by omega), htrunc]

/-- A double that is an `int32_t` is in range. -/
theorem inInt32_toInt (i : Int32) : inInt32 (.finite i.toInt) = true := by
  have hle : -2 ^ 31 ≤ i.toInt := i.le_toInt
  have hlt : i.toInt ≤ 2 ^ 31 - 1 := by
    have := i.toInt_lt
    omega
  rw [inInt32, Double.toRat?, Option.any_some, Bool.and_eq_true, decide_eq_true_iff,
    decide_eq_true_iff]
  exact ⟨by exact_mod_cast hle, by exact_mod_cast hlt⟩

/-- The two ends of `JS_NewFloat64`. -/
theorem newFloat64_cases (u : UInt64) :
    (∃ i : Int32, Double.ofBits u = .finite i.toInt ∧ newFloat64 u = some (.int i)) ∨
      (∀ i : Int32, Double.ofBits u ≠ .finite i.toInt) ∧
        newFloat64 u = some (.float64 (.ofBits u)) := by
  unfold newFloat64
  by_cases hrange : inInt32 (.ofBits u) = true
  · rw [if_pos hrange, castInt_of_inInt32 hrange]
    by_cases hu : u = ofInt (Int32.ofInt (Double.ofBits u).trunc).toInt
    · refine .inl ⟨_, (ofBits_eq_iff (natAbs_toInt32_lt _)).mpr hu, ?_⟩
      exact congrArg some (if_pos hu)
    · refine .inr ⟨fun i hi => hu ?_, congrArg some (if_neg hu)⟩
      rw [hi, trunc_int]
      exact (ofBits_eq_iff (natAbs_toInt32_lt i)).mp hi
  · rw [if_neg hrange]
    exact .inr ⟨fun i hi => hrange (by rw [hi, inInt32_toInt]), rfl⟩

theorem fromJs_int32 {v : JSVal} (hv : v.isNumber = true) {d : Double}
    (hd : ∀ h : Heap, h.number v = .value d) (n : Nat) (forceFree : Bool) (s : Rt) :
    ∃ t, fromJs (n + 1) ⟨v, 0⟩ forceFree s = .ok (.int (Int32.ofInt d.trunc)) t := by
  have hrun : wp (fromJs (n + 1) ⟨v, 0⟩ forceFree) s
      (fun a _ => a = .int (Int32.ofInt d.trunc)) (fun _ _ => False) := by
    rw [fromJs_number hv, wp_fromJsNumber (hd s.heap)]
  obtain ⟨a, t, hok, rfl⟩ := exists_ok_of_wp hrun
  exact ⟨t, hok⟩

/-- **`JS_NewFloat64` makes an `int` of exactly the doubles that are one**, and
`from_js` reads what it makes as the double it was given. -/
theorem newFloat64_spec (u : UInt64) : ∃ v : JSVal, newFloat64 u = some v ∧
    (∀ i : Int32, v = .int i ↔ Double.ofBits u = .finite i.toInt) ∧
    ∀ (n : Nat) (forceFree : Bool) (s : Rt), ∃ t,
      fromJs (n + 1) ⟨v, 0⟩ forceFree s = .ok (.int (Int32.ofInt (Double.ofBits u).trunc)) t := by
  rcases newFloat64_cases u with ⟨i, hi, hnew⟩ | ⟨hnone, hnew⟩
  · refine ⟨.int i, hnew, fun j => ?_, ?_⟩
    · rw [hi, JSVal.int.injEq, Double.finite.injEq, Rat.intCast_inj, Int32.toInt_inj]
    · rw [hi]
      exact fromJs_int32 rfl fun _ => rfl
  · refine ⟨.float64 (.ofBits u), hnew, fun i => ?_, fromJs_int32 rfl fun _ => rfl⟩
    exact ⟨fun h => absurd h (by simp), fun h => absurd h (hnone i)⟩

end Ejr
