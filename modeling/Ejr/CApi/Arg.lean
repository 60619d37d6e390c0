import Ejr.Lib.Store
import Ejr.JsArg

/-!
# The C `JSArg`

`struct JSArg` of include/ejr.h, the blocks of the C heap it is spread over,
and its constructors (src/ejr_c_api.cpp).

Mirroring notes:
- The tag and the member of the union it selects are one constructor of
  `CJSArg`; every constructor function sets both together.
- A pointer is the address of a block, `none` for NULL. `char` memory is the
  block's bytes, terminator included; the memory of the nine typed arrays is
  one kind of block, indexed by the element type.
- A `const char *` parameter is the memory it points at.
- `new` of an array with fewer elements than its initializer has throws
  `std::bad_array_new_length`; memory never runs out.
-/

namespace Ejr

open Lib

/-! ## Blocks -/

/-- A pointer to a block; `none` is NULL. -/
abbrev Ptr := Option Nat

/-- `struct JSArg`. -/
inductive CJSArg where
  | int (v : Int32)
  | double (v : Double)
  | string (str : Ptr)
  | float (v : Double)
  | bool (b : Bool)
  | int64 (v : Int64)
  | uint32 (v : UInt32)
  | cArray (items : Ptr) (count capacity : Nat)
  | null
  | undefined
  | typedArray (elem : Elem) (items : Ptr) (count : Nat)
  | exception (msg name : Ptr)
  deriving DecidableEq

/-- What was allocated: a `JSArg`, `char[]`, `T[]` or `JSArg *[]`. -/
inductive CBlock where
  | arg (a : CJSArg)
  | chars (memory : Bytes)
  | elems (values : JSArgTypedArray)
  | items (slots : List Ptr)
  deriving DecidableEq

/-- The block as a `JSArg`. -/
def CBlock.arg? : CBlock → Option CJSArg
  | .arg a => some a
  | _ => none

/-- The block as `char[]`. -/
def CBlock.chars? : CBlock → Option Bytes
  | .chars memory => some memory
  | _ => none

/-- The block as `JSArg *[]`. -/
def CBlock.items? : CBlock → Option (List Ptr)
  | .items slots => some slots
  | _ => none

/-- The elements of the block as `T[]`. -/
def CBlock.elems? (t : Elem) : CBlock → Option (List t.Bits)
  | .elems a => if h : a.elem = t then some (h ▸ a.values) else none
  | _ => none

/-- The C heap. -/
abbrev CHeap := Store CBlock

/-- Why a call does not return: a C++ exception, a pointer that does not lead
to what is read through it, the recursion bound of the model. -/
inductive CStop where
  | badArrayNewLength
  | badAccess
  | depth
  deriving DecidableEq, Repr

/-- A program over the C heap. -/
abbrev CM := EStateM CStop CHeap

/-- Read through a pointer what `f` finds in its block. -/
def readBlock {α : Type} (p : Ptr) (f : CBlock → Option α) : CM α :=
  match p with
  | none => throw .badAccess
  | some a => do
    let b ← load .badAccess a
    match f b with
    | some x => pure x
    | none => throw .badAccess

/-- `*arg`. -/
def derefArg (arg : Ptr) : CM CJSArg := readBlock arg CBlock.arg?

/-- The memory at a `char *`. -/
def derefChars (str : Ptr) : CM Bytes := readBlock str CBlock.chars?

section

variable {s : CHeap} {a : Nat} {X : CStop → CHeap → Prop}

theorem wp_readBlock {α : Type} {b : CBlock} {x : α} (f : CBlock → Option α)
    (h : s.cell a = some b) (hf : f b = some x) {Q : α → CHeap → Prop} :
    wp (readBlock (some a) f) s Q X ↔ Q x s := by
  rw [readBlock, wp_bind, wp_load h, hf]
  exact Iff.rfl

theorem wp_derefArg {arg : CJSArg} (h : s.cell a = some (.arg arg)) {Q : CJSArg → CHeap → Prop} :
    wp (derefArg (some a)) s Q X ↔ Q arg s := by
  rw [derefArg, wp_readBlock CBlock.arg? h rfl]

theorem wp_derefChars {m : Bytes} (h : s.cell a = some (.chars m)) {Q : Bytes → CHeap → Prop} :
    wp (derefChars (some a)) s Q X ↔ Q m s := by
  rw [derefChars, wp_readBlock CBlock.chars? h rfl]

end

/-! ## Constructors -/

/-- `new JSArg`, with its members set. -/
def newArg (a : CJSArg) : CM Ptr := some <$> allocate (.arg a)

/-- `new char[strlen(value) + 1]` and the copy of all of it. -/
def copyChars (value : Bytes) : CM Ptr := some <$> allocate (.chars (cstr value ++ [0]))

/-- `jsarg_int`. -/
def jsargInt (value : Int32) : CM Ptr := newArg (.int value)

/-- `jsarg_str`. The copy is made after the argument. -/
def jsargStr (value : Bytes) : CM Ptr := do
  let arg ← allocate (.arg (.string none))
  let valueCopy ← copyChars value
  mutate .badAccess arg fun _ => .arg (.string valueCopy)
  pure (some arg)

/-- `jsarg_double`. -/
def jsargDouble (value : Double) : CM Ptr := newArg (.double value)

/-- `jsarg_float`. -/
def jsargFloat (value : Double) : CM Ptr := newArg (.float value)

/-- `jsarg_int64t`. -/
def jsargInt64t (value : Int64) : CM Ptr := newArg (.int64 value)

/-- `jsarg_uint32t`. -/
def jsargUint32t (value : UInt32) : CM Ptr := newArg (.uint32 value)

/-- `jsarg_bool`. -/
def jsargBool (value : Bool) : CM Ptr := newArg (.bool value)

/-- `jsarg_carray`: `new JSArg *[count]{nullptr}` has one initializer. -/
def jsargCarray (count : Nat) : CM Ptr := do
  let arg ← allocate (.arg (.cArray none 0 count))
  match count with
  | 0 => throw .badArrayNewLength
  | n + 1 => do
    let items ← allocate (.items (List.replicate (n + 1) none))
    mutate .badAccess arg fun _ => .arg (.cArray (some items) 0 (n + 1))
    pure (some arg)

/-- `jsarg_null`. -/
def jsargNull : CM Ptr := newArg .null

/-- `jsarg_undefined`. -/
def jsargUndefined : CM Ptr := newArg .undefined

/-- What the nine typed array constructors do: the argument, then a copy of the
elements. -/
def jsargElems (values : JSArgTypedArray) : CM Ptr := do
  let arg ← allocate (.arg (.typedArray values.elem none values.values.length))
  let items ← allocate (.elems values)
  mutate .badAccess arg fun _ => .arg (.typedArray values.elem (some items) values.values.length)
  pure (some arg)

/-- `jsarg_u8_array`. -/
def jsargU8Array (args : List (Elem.Bits .uint8)) : CM Ptr := jsargElems ⟨.uint8, args⟩

/-- `jsarg_i32_array`. -/
def jsargI32Array (args : List (Elem.Bits .int32)) : CM Ptr := jsargElems ⟨.int32, args⟩

/-- `jsarg_u32_array`. -/
def jsargU32Array (args : List (Elem.Bits .uint32)) : CM Ptr := jsargElems ⟨.uint32, args⟩

/-- `jsarg_i64_array`. -/
def jsargI64Array (args : List (Elem.Bits .int64)) : CM Ptr := jsargElems ⟨.int64, args⟩

/-- `jsarg_i8_array`. -/
def jsargI8Array (args : List (Elem.Bits .int8)) : CM Ptr := jsargElems ⟨.int8, args⟩

/-- `jsarg_i16_array`. -/
def jsargI16Array (args : List (Elem.Bits .int16)) : CM Ptr := jsargElems ⟨.int16, args⟩

/-- `jsarg_u16_array`. -/
def jsargU16Array (args : List (Elem.Bits .uint16)) : CM Ptr := jsargElems ⟨.uint16, args⟩

/-- `jsarg_u64_array`. -/
def jsargU64Array (args : List (Elem.Bits .uint64)) : CM Ptr := jsargElems ⟨.uint64, args⟩

/-- `jsarg_float_array`. -/
def jsargFloatArray (args : List (Elem.Bits .float)) : CM Ptr := jsargElems ⟨.float, args⟩

/-- `jsarg_exception`. -/
def jsargException (message name : Bytes) : CM Ptr := do
  let arg ← allocate (.arg (.exception none none))
  let messageCopy ← copyChars message
  let nameCopy ← copyChars name
  mutate .badAccess arg fun _ => .arg (.exception messageCopy nameCopy)
  pure (some arg)

section

variable {s : CHeap} {X : CStop → CHeap → Prop} {Q : Ptr → CHeap → Prop}

@[simp] theorem wp_newArg {a : CJSArg} :
    wp (newArg a) s Q X ↔ Q (some s.next) (s.alloc (.arg a)) := by
  simp [newArg]

@[simp] theorem wp_copyChars {value : Bytes} :
    wp (copyChars value) s Q X ↔ Q (some s.next) (s.alloc (.chars (cstr value ++ [0]))) := by
  simp [copyChars]

theorem wp_jsargStr {value : Bytes} :
    wp (jsargStr value) s Q X ↔
      Q (some s.next) (((s.alloc (.arg (.string none))).alloc (.chars (cstr value ++ [0]))).update
        s.next fun _ => .arg (.string (some (s.next + 1)))) := by
  simp only [jsargStr, wp_bind, wp_allocate, wp_copyChars, wp_pure]
  rw [wp_mutate (by simp [Store.alloc_cell])]
  rfl

theorem wp_jsargElems {values : JSArgTypedArray} :
    wp (jsargElems values) s Q X ↔
      Q (some s.next) (((s.alloc (.arg (.typedArray values.elem none values.values.length))).alloc
        (.elems values)).update s.next fun _ =>
          .arg (.typedArray values.elem (some (s.next + 1)) values.values.length)) := by
  simp only [jsargElems, wp_bind, wp_allocate, wp_pure]
  rw [wp_mutate (by simp [Store.alloc_cell])]
  rfl

theorem wp_jsargException {message name : Bytes} :
    wp (jsargException message name) s Q X ↔
      Q (some s.next) ((((s.alloc (.arg (.exception none none))).alloc
        (.chars (cstr message ++ [0]))).alloc (.chars (cstr name ++ [0]))).update s.next fun _ =>
          .arg (.exception (some (s.next + 1)) (some (s.next + 2)))) := by
  simp only [jsargException, wp_bind, wp_allocate, wp_copyChars, wp_pure]
  rw [wp_mutate (by simp [Store.alloc_cell, Nat.add_assoc])]
  rfl

theorem wp_jsargCarray_zero :
    wp (jsargCarray 0) s Q X ↔ X .badArrayNewLength (s.alloc (.arg (.cArray none 0 0))) := Iff.rfl

theorem wp_jsargCarray_succ {n : Nat} :
    wp (jsargCarray (n + 1)) s Q X ↔
      Q (some s.next) (((s.alloc (.arg (.cArray none 0 (n + 1)))).alloc
        (.items (List.replicate (n + 1) none))).update s.next fun _ =>
          .arg (.cArray (some (s.next + 1)) 0 (n + 1))) := by
  simp only [jsargCarray, wp_bind, wp_allocate, wp_pure]
  rw [wp_mutate (by simp [Store.alloc_cell])]
  rfl

end

/-! ## Filling an array -/

/-- `items[i] = value`. -/
def setItem (items : Nat) (i : Nat) (value : Nat) : CM Unit := do
  let slots ← readBlock (some items) CBlock.items?
  if i < slots.length then
    mutate .badAccess items fun _ => .items (slots.set i (some value))
  else throw .badAccess

/-- `jsarg_add_value_to_c_array`: nothing happens without an array that has
room, and without a value. -/
def jsargAddValueToCArray (arg value : Ptr) : CM Unit :=
  match arg, value with
  | some arg, some value => do
    match ← derefArg (some arg) with
    | .cArray (some items) count capacity =>
      if capacity ≤ count then pure ()
      else do
        setItem items count value
        mutate .badAccess arg fun _ => .arg (.cArray (some items) (count + 1) capacity)
    | _ => pure ()
  | _, _ => pure ()

/-- Adding to an array with room. -/
theorem wp_jsargAddValueToCArray {s : CHeap} {p q : Nat} {slots : List Ptr} {count capacity v : Nat}
    (hp : s.cell p = some (.arg (.cArray (some q) count capacity)))
    (hq : s.cell q = some (.items slots)) (hcount : count < capacity)
    (hslots : count < slots.length) {Q : Unit → CHeap → Prop} {X : CStop → CHeap → Prop} :
    wp (jsargAddValueToCArray (some p) (some v)) s Q X ↔
      Q () ((s.update q fun _ => .items (slots.set count (some v))).update p fun _ =>
        .arg (.cArray (some q) (count + 1) capacity)) := by
  have hpq : p ≠ q := by
    intro h
    rw [h, hq] at hp
    exact absurd hp (by simp)
  have hp' : (s.update q fun _ => .items (slots.set count (some v))).cell p =
      some (.arg (.cArray (some q) count capacity)) := by
    rw [Store.update_cell_of_ne _ _ _ hpq, hp]
  rw [jsargAddValueToCArray, wp_bind, wp_derefArg hp]
  simp only [if_neg (Nat.not_le_of_lt hcount), wp_bind, setItem]
  rw [wp_readBlock CBlock.items? hq rfl, if_pos hslots]
  rw [wp_mutate (by rw [hq]; rfl), wp_mutate (by rw [hp']; rfl)]

/-- The array at `p`, with its slots at `q`, has these elements, and room for
more. -/
structure Filling (s : CHeap) (p q : Nat) (ps : List Nat) (room : Nat) : Prop where
  arg : s.cell p = some (.arg (.cArray (some q) ps.length (ps.length + room)))
  slots : s.cell q = some (.items (ps.map some ++ List.replicate room none))

section

variable {s t : CHeap} {p q room x : Nat} {ps : List Nat} {X : CStop → CHeap → Prop}

theorem Filling.ne (h : Filling s p q ps room) : p ≠ q := by
  intro hpq
  have harg := h.arg
  rw [hpq, h.slots] at harg
  exact absurd harg (by simp)

/-- Other blocks may come and change. -/
theorem Filling.grows {but : Nat → Prop} (h : Filling s p q ps room) (hgrows : s.Grows but t)
    (hp : ¬but p) (hq : ¬but q) : Filling t p q ps room :=
  ⟨hgrows.cell_eq h.arg hp, hgrows.cell_eq h.slots hq⟩

private theorem set_slot (ps : List Nat) (n x : Nat) :
    (ps.map some ++ List.replicate (n + 1) none).set ps.length (some x) =
      (ps ++ [x]).map some ++ List.replicate n none := by
  rw [List.set_append_right _ _ (by simp)]
  simp [List.replicate_succ]

/-- One more element. -/
theorem Filling.add (h : Filling s p q ps (room + 1)) :
    wp (jsargAddValueToCArray (some p) (some x)) s
      (fun _ t => Filling t p q (ps ++ [x]) room ∧ s.Grows (fun y => y = p ∨ y = q) t ∧
        t.next = s.next) X := by
  rw [wp_jsargAddValueToCArray h.arg h.slots (by omega) (by simp), set_slot]
  refine ⟨⟨?_, ?_⟩, ?_, rfl⟩
  · have hlen : (ps ++ [x]).length + room = ps.length + (room + 1) := by
      rw [List.length_append, List.length_singleton]
      omega
    rw [Store.update_cell_self, Store.update_cell_of_ne _ _ _ h.ne, h.arg, hlen,
      List.length_append]
    rfl
  · rw [Store.update_cell_of_ne _ _ _ (Ne.symm h.ne), Store.update_cell_self, h.slots]
    rfl
  · exact (Store.grows_update (Or.inr rfl) s _).update (Or.inl rfl) _

/-- A new array with room. -/
theorem filling_jsargCarray {n : Nat} :
    wp (jsargCarray (n + 1)) s (fun r t => r = some s.next ∧
      Filling t s.next (s.next + 1) [] (n + 1) ∧ s.Grows (fun _ => False) t ∧
      t.next = s.next + 2) X := by
  rw [wp_jsargCarray_succ]
  refine ⟨rfl, ⟨?_, ?_⟩, Store.Grows.of_new ?_, rfl⟩
  · simp [Store.alloc_cell]
  · simp [Store.alloc_cell, Store.update_cell]
  · exact ((s.grows_alloc _ _).alloc _).update (Nat.le_refl _) _

end

end Ejr
