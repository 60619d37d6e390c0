import Ejr.Trampoline
import Ejr.Engine.Context

/-!
# Numbers across the bridge

`from_js` tries `JS_ToInt32` first, and `JS_ToInt32` succeeds on every Number
(`wp_fromJsNumber`): the later conversions of the chain are never reached, and
what a Number becomes is its ToInt32 reduction. So exactly the integers of 32
bits keep their value (`ofInt_trunc_eq_iff`), whichever side they come from.
An `int64_t` never does: it is sent as a BigInt, which `from_js` has no branch
for.
-/

namespace Ejr

open Lib

/-! ## The value of a number -/

/-- The mathematical value of a Number. -/
def JSVal.number? : JSVal → Option Rat
  | .int i => some i.toInt
  | .float64 d => d.toRat?
  | _ => none

/-- The mathematical value of a numeric argument. -/
def JSArg.number? : JSArg → Option Rat
  | .int v => some v.toInt
  | .double v | .float v => v.toRat?
  | .long v | .int64 v => some v.toInt
  | .uint32 v => some v.toNat
  | _ => none

/-- An `int`, a `uint32_t`, an `int64_t`, or a finite `float` or `double`. -/
def JSArg.Numeric (a : JSArg) : Prop := a.NotLong ∧ a.number?.isSome = true

/-- The value is an integer that fits `int32_t`. -/
def IsInt32 (q : Option Rat) : Prop := ∃ i : Int32, q = some (i.toInt : Rat)

/-- The ToInt32 reduction keeps a value exactly when it is an `int32_t`. -/
theorem ofInt_trunc_eq_iff (d : Double) :
    some ((Int32.ofInt d.trunc).toInt : Rat) = d.toRat? ↔ IsInt32 d.toRat? := by
  constructor
  · intro h
    exact ⟨Int32.ofInt d.trunc, h.symm⟩
  · intro h
    obtain ⟨i, hi⟩ := h
    rw [hi]
    cases d with
    | finite q =>
      have hq : q = (i.toInt : Rat) := by simpa [Double.toRat?] using hi
      subst hq
      simp [Double.trunc]
    | negZero =>
      have h0 : (i.toInt : Rat) = 0 := by simpa [Double.toRat?] using hi.symm
      rw [h0]
      simp [Double.trunc]
    | nan => exact absurd hi (by simp [Double.toRat?])
    | inf negative => exact absurd hi (by simp [Double.toRat?])

theorem newUint32_isNumber (n : Nat) : (newUint32 n).isNumber = true := by
  unfold newUint32
  split <;> rfl

theorem newUint32_number? (n : Nat) : (newUint32 n).number? = some (n : Rat) := by
  unfold newUint32
  split
  next h => simp [JSVal.number?, Int32.toInt_ofNat_of_lt h]
  next h => rfl

/-! ## The number branch -/

/-- A Number as `JS_ToNumber` sees it. -/
theorem number_of_isNumber (h : Heap) {v : JSVal} (hv : v.isNumber = true) :
    ∃ d : Double, h.number v = .value d ∧ d.toRat? = v.number? := by
  cases v with
  | int i => exact ⟨.finite i.toInt, rfl, rfl⟩
  | float64 d => exact ⟨d, rfl, rfl⟩
  | _ => exact absurd hv (by simp [JSVal.isNumber])

/-- The first conversion succeeds, and decides. -/
theorem wp_fromJsNumber {value : JSValue} {forceFree : Bool} {s : Rt} {d : Double}
    (h : s.heap.number value.val = .value d) {Q : JSArg → Rt → Prop} {X : Stop → Rt → Prop} :
    wp (fromJsNumber value forceFree) s Q X ↔
      Q (.int (Int32.ofInt d.trunc))
        (s.log (if forceFree then value.events .free else [])) := by
  simp [fromJsNumber, h, Outcome.get?]

/-- A Number keeps its value through `from_js` exactly when it is an `int32_t`. -/
theorem fromJs_number_iff (value : JSValue) (hv : value.val.isNumber = true) (n : Nat)
    (forceFree : Bool) (s : Rt) :
    wp (fromJs (n + 1) value forceFree) s (fun b _ => b.number? = value.val.number?)
      (fun _ _ => False) ↔ IsInt32 value.val.number? := by
  obtain ⟨d, hd, hq⟩ := number_of_isNumber s.heap hv
  rw [fromJs_number hv, wp_fromJsNumber hd, ← hq]
  exact ofInt_trunc_eq_iff d

theorem fromJs_number_keeps (n : Nat) (value : JSValue) (forceFree : Bool) (s : Rt) :
    wp (fromJs n value forceFree) s (fun b _ => value.val.isNumber = true →
      IsInt32 value.val.number? → b.number? = value.val.number?) (fun _ _ => True) := by
  cases n with
  | zero => exact trivial
  | succ n =>
    by_cases hv : value.val.isNumber = true ∧ IsInt32 value.val.number?
    · obtain ⟨hnum, hint⟩ := hv
      exact wp_mono ((fromJs_number_iff value hnum n forceFree s).mpr hint) (fun b _ hb _ _ => hb)
        (fun _ _ h => h.elim)
    · exact wp_mono wp_true (fun b _ _ hnum hint => absurd ⟨hnum, hint⟩ hv) (fun _ _ h => h)

/-- A BigInt is none of the kinds `from_js` knows. -/
theorem fromJs_shortBigInt (n : Nat) (k : Int64) (r : RefId) (forceFree : Bool) (s : Rt) :
    wp (fromJs (n + 1) ⟨.shortBigInt k, r⟩ forceFree) s
      (fun b _ => b = .string (ascii "[unsupported]")) (fun _ _ => False) := by
  rw [wp_fromJs_isArray rfl, if_pos (s.heap.isArray_of_not_object (by simp))]
  simp [fromJsRest, Heap.isError, fromJsOther, wp_jsGetTypedArrayBuffer, Heap.view, fromJsText]

/-! ## Both ways over the bridge -/

/-- `from_js(ctx, to_js(ctx, a), f)` is numeric with the value of `a`. -/
def Returns (a : JSArg) : Prop :=
  ∀ (n : Nat) (forceFree : Bool) (s : Rt),
    wp (do let v ← toJs a; fromJs (n + 1) v forceFree) s (fun b _ => b.number? = a.number?)
      (fun _ _ => False)

/-- Wherever the Number `v` stands among the arguments of a call, the callback
receives its value there. -/
def Arrives (v : JSVal) : Prop :=
  ∀ (n : Nat) (argv : List JSValue) (s : Rt),
    wp (trampolineArgs n argv) s (fun cppArgs _ => ∀ (i : Nat) (w : JSValue), argv[i]? = some w →
      w.val = v → ∃ a : JSArg, cppArgs[i]? = some a ∧ a.number? = v.number?) (fun _ _ => True)

theorem returns_of_own {a : JSArg} {v : JSVal} (ha : toJs a = own v) (hv : v.isNumber = true)
    (hq : v.number? = a.number?) : Returns a ↔ IsInt32 a.number? := by
  have hrun : ∀ n forceFree s, wp (do let v ← toJs a; fromJs (n + 1) v forceFree) s
      (fun b _ => b.number? = a.number?) (fun _ _ => False) ↔ IsInt32 a.number? := by
    intro n forceFree s
    rw [wp_bind, ha, wp_own, ← hq]
    exact fromJs_number_iff _ hv n forceFree _
  constructor
  · intro h
    exact (hrun 0 false .initial).mp (h 0 false .initial)
  · intro h n forceFree s
    exact (hrun n forceFree s).mpr h

/-- An `int64_t` comes back as a text. -/
theorem not_returns_int64 (v : Int64) : ¬Returns (.int64 v) := by
  intro h
  have h1 := h 0 false .initial
  rw [wp_bind, show toJs (.int64 v) = own (.shortBigInt v) by simp [toJs], wp_own] at h1
  obtain ⟨b, t, hrun, hb⟩ := exists_ok_of_wp (fromJs_shortBigInt 0 v 0 false (Rt.initial.owned _))
  have h2 := wp_of_ok h1 hrun
  rw [hb] at h2
  exact absurd h2 (by simp [JSArg.number?])

theorem returns_iff {a : JSArg} (ha : a.Numeric) :
    Returns a ↔ IsInt32 a.number? ∧ ∀ v, a ≠ .int64 v := by
  obtain ⟨hlong, hsome⟩ := ha
  cases a with
  | int v =>
    rw [returns_of_own (v := .int v) (by simp [toJs]) rfl rfl]
    simp
  | double v =>
    rw [returns_of_own (v := .float64 v) (by simp [toJs]) rfl rfl]
    simp
  | float v =>
    rw [returns_of_own (v := .float64 v) (by simp [toJs]) rfl rfl]
    simp
  | uint32 v =>
    rw [returns_of_own (by simp [toJs]) (newUint32_isNumber _) (newUint32_number? _)]
    simp
  | int64 v => simpa using not_returns_int64 v
  | long v => exact absurd hlong (by simp [JSArg.NotLong])
  | _ => exact absurd hsome (by simp [JSArg.number?])

theorem trampolineArgs_keeps (n : Nat) : ∀ (argv : List JSValue) (s : Rt),
    wp (trampolineArgs n argv) s (fun cppArgs _ => ∀ (i : Nat) (w : JSValue), argv[i]? = some w →
      w.val.isNumber = true → IsInt32 w.val.number? →
        ∃ a : JSArg, cppArgs[i]? = some a ∧ a.number? = w.val.number?) (fun _ _ => True)
  | [], s => by simp [trampolineArgs]
  | v :: argv, s => by
    simp only [trampolineArgs, wp_bind, wp_pure]
    refine wp_mono (fromJs_number_keeps n v false s) ?_ (fun _ _ h => h)
    intro a t ha
    refine wp_mono (trampolineArgs_keeps n argv t) ?_ (fun _ _ h => h)
    intro cppArgs _ hargs i w hw hnum hint
    cases i with
    | zero =>
      obtain rfl : v = w := by simpa using hw
      exact ⟨a, rfl, ha hnum hint⟩
    | succ i => exact hargs i w hw hnum hint

theorem arrives_iff {v : JSVal} (hv : v.isNumber = true) : Arrives v ↔ IsInt32 v.number? := by
  constructor
  · intro h
    have h1 := h 1 [⟨v, 0⟩] .initial
    simp only [trampolineArgs, wp_bind, wp_pure] at h1
    refine (fromJs_number_iff ⟨v, 0⟩ hv 0 false .initial).mp ?_
    obtain ⟨d, hd, _⟩ := number_of_isNumber Rt.initial.heap hv
    rw [fromJs_number hv, wp_fromJsNumber hd] at h1 ⊢
    obtain ⟨a, ha, hq⟩ := h1 0 ⟨v, 0⟩ rfl rfl
    obtain rfl : JSArg.int (Int32.ofInt d.trunc) = a := by simpa using ha
    exact hq
  · intro hint n argv s
    refine wp_mono (trampolineArgs_keeps n argv s) ?_ (fun _ _ h => h)
    intro cppArgs _ hargs i w hw hwv
    subst hwv
    exact hargs i w hw hv hint

/-- **Numbers keep their value exactly when they are `int32_t`s**: an argument
sent to JavaScript and back, an `int64_t` never, and a Number passed to a
callback. -/
theorem numbers_cross_iff (a : JSArg) (ha : a.Numeric) (v : JSVal) (hv : v.isNumber = true) :
    (Returns a ↔ IsInt32 a.number? ∧ ∀ w, a ≠ .int64 w) ∧ (Arrives v ↔ IsInt32 v.number?) :=
  ⟨returns_iff ha, arrives_iff hv⟩

/-- An `int` goes to JavaScript and back, and the Number 2.5 does not arrive. -/
theorem numbers_cross_iff_int_half :
    Returns (.int (-7)) ∧ ¬Arrives (.float64 (.finite (5 / 2))) := by
  have h := numbers_cross_iff (.int (-7)) ⟨trivial, rfl⟩ (.float64 (.finite (5 / 2))) rfl
  refine ⟨h.1.mpr ⟨⟨-7, rfl⟩, by simp⟩, ?_⟩
  intro harr
  obtain ⟨i, hi⟩ := h.2.mp harr
  have h2 : (5 / 2 : Rat) = (i.toInt : Rat) := by simpa [JSVal.number?, Double.toRat?] using hi
  have h3 : ((i.toInt : Rat)).den = 1 := rfl
  rw [← h2] at h3
  exact absurd h3 (by decide +kernel)

/-- The `double` 1.5 comes back as the `int` 1. -/
theorem numbers_cross_double_fails : ¬∀ a : JSArg, a.Numeric → Returns a := by
  intro h
  have h1 := h (.double (.finite (3 / 2))) ⟨trivial, rfl⟩ 0 true .initial
  rw [wp_bind, show toJs (.double (.finite (3 / 2))) = own (.float64 (.finite (3 / 2))) by
    simp [toJs], wp_own, fromJs_number rfl, wp_fromJsNumber (d := .finite (3 / 2)) rfl] at h1
  exact absurd h1 (by decide +kernel)

end Ejr
