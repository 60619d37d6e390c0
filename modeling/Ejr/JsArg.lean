import Ejr.Bytes

/-!
# `ejr::JSArg`

The dynamically typed value both halves of the bridge exchange
(include/ejr.hpp). `JSArg` has one constructor per alternative of
`JSArg::ValueType`; the nine `JSArgTypedArray<T>` alternatives are one
constructor indexed by the element type.

Mirroring notes:
- Doubles and floats are exact rationals plus the values that are not numbers
  one can compute with (`Double`); `float` to `double` is then the identity, as
  it is in C++. Inside typed arrays a float is its bit pattern.
- `std::shared_ptr<std::vector<JSArg>>` is the list it points at: a `JSArg` is
  compared by content.
- `long` is an alternative of the variant that no constructor of `JSArg`
  selects (`Constructible`).
-/

namespace Ejr

/-- An IEEE number: an exact rational, or one of the values beside them. -/
inductive Double where
  | finite (q : Rat)
  | negZero
  | nan
  | inf (negative : Bool)
  deriving DecidableEq, Repr

/-- The mathematical value, where there is one. -/
def Double.toRat? : Double → Option Rat
  | .finite q => some q
  | .negZero => some 0
  | .nan => none
  | .inf _ => none

/-- The element types `T` of `JSArgTypedArray<T>`. -/
inductive Elem where
  | uint8
  | int32
  | uint32
  | int64
  | int8
  | int16
  | uint16
  | uint64
  | float
  deriving DecidableEq, Repr

/-- `sizeof(T)`. -/
def Elem.size : Elem → Nat
  | .uint8 | .int8 => 1
  | .int16 | .uint16 => 2
  | .int32 | .uint32 | .float => 4
  | .int64 | .uint64 => 8

theorem Elem.size_pos (t : Elem) : 0 < t.size := by cases t <;> decide

/-- The bits of one element. -/
abbrev Elem.Bits (t : Elem) : Type := BitVec (8 * t.size)

/-- `JSArgTypedArray<T>`: the elements, each as its bit pattern. -/
structure JSArgTypedArray where
  elem : Elem
  values : List elem.Bits
  deriving DecidableEq

/-- `ejr::JSArg`. -/
inductive JSArg where
  | int (v : Int32)
  | double (v : Double)
  | float (v : Double)
  | long (v : Int64)
  | string (s : Bytes)
  | bool (b : Bool)
  | int64 (v : Int64)
  | uint32 (v : UInt32)
  | null
  | undefined
  | array (items : List JSArg)
  | typedArray (a : JSArgTypedArray)
  | exception (msg name : Bytes)

/-! ## Conditions on all parts of an argument -/

mutual

/-- Every part of the argument that is not itself an array meets `leaf`, and
every array in it, itself included, meets `arr`. -/
def JSArg.All (leaf : JSArg → Prop) (arr : List JSArg → Prop) : JSArg → Prop
  | .array items => arr items ∧ JSArg.AllItems leaf arr items
  | a => leaf a

/-- `JSArg.All` of every element. -/
def JSArg.AllItems (leaf : JSArg → Prop) (arr : List JSArg → Prop) : List JSArg → Prop
  | [] => True
  | a :: rest => a.All leaf arr ∧ JSArg.AllItems leaf arr rest

end

/-- A constructor of `JSArg` selects this alternative. -/
def JSArg.NotLong : JSArg → Prop
  | .long _ => False
  | _ => True

/-- The arguments the constructors of `JSArg` build. -/
def JSArg.Constructible (a : JSArg) : Prop := a.All JSArg.NotLong fun _ => True

mutual

/-- How deep arrays are nested in the argument. -/
def JSArg.depth : JSArg → Nat
  | .array items => JSArg.depthItems items + 1
  | _ => 0

/-- The depth of the deepest element. -/
def JSArg.depthItems : List JSArg → Nat
  | [] => 0
  | a :: rest => max a.depth (JSArg.depthItems rest)

end

theorem JSArg.depth_le_of_mem {a : JSArg} : ∀ {items : List JSArg}, a ∈ items →
    a.depth ≤ JSArg.depthItems items
  | [], h => nomatch h
  | b :: rest, h => by
    simp only [JSArg.depthItems]
    rcases List.mem_cons.mp h with rfl | h'
    · exact Nat.le_max_left _ _
    · exact Nat.le_trans (JSArg.depth_le_of_mem h') (Nat.le_max_right _ _)

/-- Induction over an argument: arrays from their elements. -/
theorem JSArg.induct {P : JSArg → Prop} (leaf : ∀ a, (∀ items, a ≠ .array items) → P a)
    (array : ∀ items, (∀ a ∈ items, P a) → P (.array items)) : ∀ a, P a := by
  have both : ∀ n : Nat, ∀ a : JSArg, a.depth ≤ n → P a := by
    intro n
    induction n with
    | zero =>
      intro a ha
      cases a with
      | array items => simp [JSArg.depth] at ha
      | _ => exact leaf _ (by simp)
    | succ n ih =>
      intro a ha
      cases a with
      | array items =>
        refine array items fun b hb => ih b ?_
        have := JSArg.depth_le_of_mem hb
        simp only [JSArg.depth] at ha
        omega
      | _ => exact leaf _ (by simp)
  intro a
  exact both a.depth a (Nat.le_refl _)

/-- `AllItems` is `All` of each element. -/
theorem JSArg.allItems_iff {leaf : JSArg → Prop} {arr : List JSArg → Prop} :
    ∀ items : List JSArg, JSArg.AllItems leaf arr items ↔ ∀ a ∈ items, a.All leaf arr
  | [] => by simp [JSArg.AllItems]
  | a :: rest => by simp [JSArg.AllItems, JSArg.allItems_iff rest]

/-- Weaker conditions. -/
theorem JSArg.All.mono {leaf leaf' : JSArg → Prop} {arr arr' : List JSArg → Prop} {a : JSArg}
    (h : a.All leaf arr) (hleaf : ∀ a, leaf a → leaf' a) (harr : ∀ items, arr items → arr' items) :
    a.All leaf' arr' := by
  induction a using JSArg.induct with
  | leaf a ha =>
    cases a with
    | array items => exact absurd rfl (ha items)
    | _ => exact hleaf _ h
  | array items ih =>
    obtain ⟨hitems, hall⟩ := h
    rw [JSArg.allItems_iff] at hall
    exact ⟨harr items hitems, (JSArg.allItems_iff items).mpr fun a ha => ih a ha (hall a ha)⟩

end Ejr
