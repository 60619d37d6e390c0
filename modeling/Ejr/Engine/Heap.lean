import Ejr.Lib.LittleEndian
import Ejr.Text
import Ejr.JsArg

/-!
# Values and the object heap

What script code has built, as the bridge can see it: JavaScript values, the
objects they refer to, and the outcome of every read and conversion the bridge
may ask the engine for (lib/quickjs.c). Everything here is a pure function of
the heap; `Ejr.Engine.Call` turns it into calls.

Mirroring notes:
- A property read is its outcome, so an accessor or a proxy trap is one entry
  like a data property: a value, or the exception it throws. The heap may be
  infinite, which is how an accessor that answers with a new object every time
  appears.
- Reading never changes the heap. The one effect of script code inside a read
  that matters to the callers, the detaching of a buffer between two looks at
  it, is kept: a view says whether it was found detached, the buffer says it
  again.
- Errors the engine itself throws are values of their own (`nativeError`); how
  they print is up to the heap, like every conversion of an object.
-/

namespace Ejr

/-! ## Values -/

/-- The address of an object. -/
abbrev Addr := Nat

/-- The classes from `JS_CLASS_UINT8C_ARRAY` to `JS_CLASS_FLOAT64_ARRAY`. -/
inductive TypedClass where
  | uint8c
  | int8
  | uint8
  | int16
  | uint16
  | int32
  | uint32
  | bigInt64
  | bigUint64
  | float16
  | float32
  | float64
  deriving DecidableEq, Repr

/-- `1 << typed_array_size_log2(class)`. -/
def TypedClass.size : TypedClass → Nat
  | .uint8c | .int8 | .uint8 => 1
  | .int16 | .uint16 | .float16 => 2
  | .int32 | .uint32 | .float32 => 4
  | .bigInt64 | .bigUint64 | .float64 => 8

theorem TypedClass.size_pos (t : TypedClass) : 0 < t.size := by cases t <;> decide

/-- The errors the modelled calls throw on their own. -/
inductive NativeError where
  | cannotReadPropertyOfNull (key : JSString)
  | cannotReadPropertyOfUndefined (key : JSString)
  | cannotConvertSymbolToString
  | cannotConvertSymbolToNumber
  | cannotConvertBigintToNumber
  | toPrimitive
  | revokedProxy
  | stackOverflow
  | notATypedArray
  | detachedArrayBuffer
  | arrayBufferExpected
  | invalidArrayBufferLength
  | invalidLength
  | duplicateExportedName (name : JSString)
  deriving DecidableEq, Repr

/-- A JavaScript value, by its tag. `uninitialized` is also what the
pending-exception slot holds when it is empty. -/
inductive JSVal where
  | undefined
  | null
  | uninitialized
  | exception
  | bool (b : Bool)
  | int (i : Int32)
  | float64 (d : Double)
  | shortBigInt (n : Int64)
  | bigInt (n : Int)
  | string (s : JSString)
  | symbol (a : Addr)
  | object (a : Addr)
  | nativeError (e : NativeError)
  deriving DecidableEq, Repr

/-- `JS_VALUE_HAS_REF_COUNT`. -/
def JSVal.hasRefCount : JSVal → Bool
  | .bigInt _ | .string _ | .symbol _ | .object _ | .nativeError _ => true
  | _ => false

/-- The tag is `JS_TAG_OBJECT`. -/
def JSVal.isObject : JSVal → Bool
  | .object _ | .nativeError _ => true
  | _ => false

/-- `JS_IsNumber`. -/
def JSVal.isNumber : JSVal → Bool
  | .int _ | .float64 _ => true
  | _ => false

/-- `JS_NewUint32`. -/
def newUint32 (n : Nat) : JSVal :=
  if n < 2 ^ 31 then .int (Int32.ofNat n) else .float64 (.finite n)

/-- `(double)n`: the nearest number with 53 significant bits, and of two the even one. -/
def roundToDouble (n : Int) : Int :=
  let unit := 2 ^ (n.natAbs.log2 - 52)
  let below := n.natAbs / unit
  let rest := n.natAbs % unit
  let roundsDown := 2 * rest < unit ∨ 2 * rest = unit ∧ below % 2 = 0
  n.sign * ((if roundsDown then below else below + 1) * unit : Nat)

/-- An integer with 53 bits or less is a `double`. -/
theorem roundToDouble_of_lt {n : Int} (h : n.natAbs < 2 ^ 53) : roundToDouble n = n := by
  have hunit : n.natAbs.log2 - 52 = 0 := by
    rcases Nat.eq_zero_or_pos n.natAbs with hzero | hpos
    · rw [hzero]
      rfl
    · have hlog := (Nat.log2_lt (Nat.ne_of_gt hpos)).mpr h
      omega
  simp only [roundToDouble, hunit, Nat.pow_zero, Nat.div_one, Nat.mod_one, Nat.mul_zero,
    Nat.zero_lt_one, true_or, if_true, Nat.mul_one]
  exact Int.sign_mul_natAbs n

/-- `JS_NewInt64`. -/
def newInt64 (n : Int64) : JSVal :=
  if n = n.toInt32.toInt64 then .int n.toInt32 else .float64 (.finite (roundToDouble n.toInt))

example : newInt64 (-9007199254740993) = .float64 (.finite (-9007199254740992)) ∧
    newInt64 9007199254740995 = .float64 (.finite 9007199254740996) ∧
    newInt64 4294967297 = .float64 (.finite 4294967297) := by decide +kernel

/-- A JavaScript string literal of the engine or the bridge. -/
def units (s : String) : JSString := s.toList.map fun c => c.toNat.toUInt16

/-- What the engine answers: a value, or `JS_EXCEPTION` because `e` was thrown,
or `JS_EXCEPTION` passed on with nothing thrown. -/
inductive Outcome (α : Type) where
  | value (a : α)
  | throws (e : JSVal)
  | exception
  deriving DecidableEq, Repr

/-- The value, if there is one. -/
def Outcome.get? {α : Type} : Outcome α → Option α
  | .value a => some a
  | _ => none

@[simp] theorem Outcome.get?_value {α : Type} (a : α) : (Outcome.value a).get? = some a := rfl
@[simp] theorem Outcome.get?_throws {α : Type} (e : JSVal) :
    (Outcome.throws e : Outcome α).get? = none := rfl
@[simp] theorem Outcome.get?_exception {α : Type} : (Outcome.exception : Outcome α).get? = none :=
  rfl

/-- The first answer that is not a value ends the computation. -/
def Outcome.bind {α β : Type} : Outcome α → (α → Outcome β) → Outcome β
  | .value a, f => f a
  | .throws e, _ => .throws e
  | .exception, _ => .exception

/-! ## Objects -/

/-- A typed array: its own view of a buffer, which is a whole number of
elements long. -/
structure View where
  cls : TypedClass
  buffer : Addr
  offset : Nat
  length : Nat
  detached : Bool
  whole : cls.size ∣ length

/-- The class of an object, with the data the engine keeps for it: the length
of an array, the target of a proxy (`none` when revoked), the bytes of a buffer
(`none` when detached). -/
inductive JSClass where
  | array (length : Nat)
  | error
  | proxy (target : Option JSVal)
  | typedArray (view : View)
  | arrayBuffer (data : Option Bytes)
  | other

/-- An object: its class and the outcome of every property read. -/
structure Obj where
  cls : JSClass
  named : JSString → Outcome JSVal
  indexed : Nat → Outcome JSVal

/-- An object after an own index has been set: arrays grow. -/
def Obj.setIndex (o : Obj) (i : Nat) (v : JSVal) : Obj :=
  { o with
    cls := match o.cls with
      | .array len => .array (if i + 1 < 2 ^ 32 then max len (i + 1) else len)
      | c => c
    indexed := fun j => if j = i then .value v else o.indexed j }

/-- An object after an own named property has been set. -/
def Obj.setNamed (o : Obj) (k : JSString) (v : JSVal) : Obj :=
  { o with named := fun j => if j = k then .value v else o.named j }

/-- Which built-in prototype a new object inherits from. -/
inductive Proto where
  | array
  | error
  | typedArray (cls : TypedClass)
  | arrayBuffer
  deriving DecidableEq, Repr

/-- `HINT_STRING` and `HINT_NUMBER`. -/
inductive Hint where
  | string
  | number
  deriving DecidableEq, Repr

/-- The objects, and what script code has made of the built-ins: how objects
convert to primitives, what primitives and new objects inherit, and the
engine's number formatting and parsing. -/
structure Heap where
  obj : Addr → Obj
  next : Nat
  toPrim : Hint → JSVal → Outcome JSVal
  primNamed : JSVal → JSString → Outcome JSVal
  primIndexed : JSVal → Nat → Outcome JSVal
  protoNamed : Proto → JSString → Outcome JSVal
  protoIndexed : Proto → Nat → Outcome JSVal
  dtoa : Double → JSString
  atof : JSString → Double

/-- The heap with one object replaced. -/
def Heap.set (h : Heap) (a : Addr) (o : Obj) : Heap :=
  { h with obj := fun b => if b = a then o else h.obj b }

@[simp] theorem Heap.set_obj_self (h : Heap) (a : Addr) (o : Obj) : (h.set a o).obj a = o :=
  if_pos rfl

theorem Heap.set_obj_of_ne (h : Heap) {a b : Addr} (o : Obj) (hne : b ≠ a) :
    (h.set a o).obj b = h.obj b :=
  if_neg hne

/-- The heap with a new object. -/
def Heap.alloc (h : Heap) (p : Proto) (cls : JSClass) : Heap :=
  { h.set h.next ⟨cls, h.protoNamed p, h.protoIndexed p⟩ with next := h.next + 1 }

@[simp] theorem Heap.alloc_next (h : Heap) (p : Proto) (cls : JSClass) :
    (h.alloc p cls).next = h.next + 1 := rfl

@[simp] theorem Heap.alloc_protoNamed (h : Heap) (p : Proto) (cls : JSClass) :
    (h.alloc p cls).protoNamed = h.protoNamed := rfl

@[simp] theorem Heap.alloc_obj_self (h : Heap) (p : Proto) (cls : JSClass) :
    (h.alloc p cls).obj h.next = ⟨cls, h.protoNamed p, h.protoIndexed p⟩ :=
  Heap.set_obj_self h h.next _

theorem Heap.alloc_obj_of_ne (h : Heap) (p : Proto) (cls : JSClass) {x : Addr} (hx : x ≠ h.next) :
    (h.alloc p cls).obj x = h.obj x :=
  Heap.set_obj_of_ne h _ hx

/-- The object `v` changed, when it is one. -/
def Heap.update (h : Heap) (v : JSVal) (f : Obj → Obj) : Heap :=
  match v with
  | .object a => h.set a (f (h.obj a))
  | _ => h

@[simp] theorem Heap.update_next (h : Heap) (v : JSVal) (f : Obj → Obj) :
    (h.update v f).next = h.next := by
  cases v <;> rfl

@[simp] theorem Heap.update_protoNamed (h : Heap) (v : JSVal) (f : Obj → Obj) :
    (h.update v f).protoNamed = h.protoNamed := by
  cases v <;> rfl

@[simp] theorem Heap.update_obj_self (h : Heap) (a : Addr) (f : Obj → Obj) :
    (h.update (.object a) f).obj a = f (h.obj a) :=
  Heap.set_obj_self h a _

theorem Heap.update_obj_of_ne (h : Heap) {a x : Addr} (f : Obj → Obj) (hx : x ≠ a) :
    (h.update (.object a) f).obj x = h.obj x :=
  Heap.set_obj_of_ne h _ hx

/-! ## Reads -/

/-- `JS_GetPropertyInternal` for a named property. -/
def Heap.named (h : Heap) : JSVal → JSString → Outcome JSVal
  | .null, k => .throws (.nativeError (.cannotReadPropertyOfNull k))
  | .undefined, k => .throws (.nativeError (.cannotReadPropertyOfUndefined k))
  | .exception, _ => .exception
  | .object a, k =>
    match (h.obj a).cls with
    | .array len => if k = units "length" then .value (newUint32 len) else (h.obj a).named k
    | _ => (h.obj a).named k
  | v, k => h.primNamed v k

/-- `JS_GetPropertyInternal` for an index. -/
def Heap.indexed (h : Heap) : JSVal → Nat → Outcome JSVal
  | .null, i => .throws (.nativeError (.cannotReadPropertyOfNull (units (toString i))))
  | .undefined, i => .throws (.nativeError (.cannotReadPropertyOfUndefined (units (toString i))))
  | .exception, _ => .exception
  | .object a, i => (h.obj a).indexed i
  | v, i => h.primIndexed v i

/-- The value `JS_GetPropertyStr` returns. -/
def Heap.property (h : Heap) (v : JSVal) (prop : Bytes) : JSVal :=
  (h.named v (newString prop)).get?.getD .exception

/-- The value `JS_GetPropertyUint32` returns. -/
def Heap.element (h : Heap) (v : JSVal) (i : Nat) : JSVal :=
  (h.indexed v i).get?.getD .exception

/-! ## Conversions -/

/-- `JS_ToPrimitive` of an object. -/
def Heap.toPrimitive (h : Heap) (hint : Hint) (v : JSVal) : Outcome JSVal :=
  (h.toPrim hint v).bind fun p =>
    if p.isObject then .throws (.nativeError .toPrimitive) else .value p

/-- `JS_ToStringInternal` of a value that is not an object. -/
def Heap.primText (h : Heap) : JSVal → Outcome JSString
  | .string s => .value s
  | .int i => .value (units (toString i.toInt))
  | .bool b => .value (units (if b then "true" else "false"))
  | .null => .value (units "null")
  | .undefined => .value (units "undefined")
  | .symbol _ => .throws (.nativeError .cannotConvertSymbolToString)
  | .float64 d => .value (h.dtoa d)
  | .shortBigInt n => .value (units (toString n.toInt))
  | .bigInt n => .value (units (toString n))
  | .uninitialized => .value (units "[unsupported type]")
  | .exception | .object _ | .nativeError _ => .exception

/-- `JS_ToStringInternal`. -/
def Heap.text (h : Heap) (v : JSVal) : Outcome JSString :=
  if v.isObject then (h.toPrimitive .string v).bind h.primText else h.primText v

@[simp] theorem Heap.text_string (h : Heap) (u : JSString) : h.text (.string u) = .value u := rfl
@[simp] theorem Heap.text_exception (h : Heap) : h.text .exception = .exception := rfl

/-- `JS_ToNumber` of a value that is not an object. -/
def Heap.primNumber (h : Heap) : JSVal → Outcome Double
  | .int i => .value (.finite i.toInt)
  | .float64 d => .value d
  | .bool b => .value (.finite (if b then 1 else 0))
  | .null => .value (.finite 0)
  | .undefined | .uninitialized => .value .nan
  | .string t => .value (h.atof t)
  | .symbol _ => .throws (.nativeError .cannotConvertSymbolToNumber)
  | .shortBigInt _ | .bigInt _ => .throws (.nativeError .cannotConvertBigintToNumber)
  | .exception | .object _ | .nativeError _ => .exception

/-- `JS_ToNumber`. -/
def Heap.number (h : Heap) (v : JSVal) : Outcome Double :=
  if v.isObject then (h.toPrimitive .number v).bind h.primNumber else h.primNumber v

/-! ## Classes -/

/-- `js_resolve_proxy`: the object behind a chain of proxies. -/
def Heap.resolveProxy (h : Heap) : Nat → JSVal → Outcome JSVal
  | budget, .object a =>
    match (h.obj a).cls with
    | .proxy target =>
      match budget, target with
      | 0, _ => .throws (.nativeError .stackOverflow)
      | _ + 1, none => .throws (.nativeError .revokedProxy)
      | budget + 1, some v => h.resolveProxy budget v
    | _ => .value (.object a)
  | _, v => .value v

/-- `JS_IsArray`. -/
def Heap.isArray (h : Heap) (v : JSVal) : Outcome Bool :=
  (h.resolveProxy 1001 v).bind fun
    | .object a =>
      match (h.obj a).cls with
      | .array _ => .value true
      | _ => .value false
    | _ => .value false

/-- Only objects are asked what they are. -/
theorem Heap.isArray_of_not_object (h : Heap) {v : JSVal} (hv : ∀ a, v ≠ .object a) :
    h.isArray v = .value false := by
  cases v with
  | object a => exact absurd rfl (hv a)
  | _ => rfl

/-- `JS_IsError`. -/
def Heap.isError (h : Heap) : JSVal → Bool
  | .object a =>
    match (h.obj a).cls with
    | .error => true
    | _ => false
  | .nativeError _ => true
  | _ => false

/-- `JS_GetTypedArrayBuffer`. -/
def Heap.view (h : Heap) : JSVal → Outcome View
  | .object a =>
    match (h.obj a).cls with
    | .typedArray view =>
      if view.detached then .throws (.nativeError .detachedArrayBuffer) else .value view
    | _ => .throws (.nativeError .notATypedArray)
  | _ => .throws (.nativeError .notATypedArray)

/-- `JS_GetArrayBuffer`: the address the data is found under. -/
def Heap.arrayBuffer (h : Heap) : JSVal → Outcome Addr
  | .object a =>
    match (h.obj a).cls with
    | .arrayBuffer (some _) => .value a
    | .arrayBuffer none => .throws (.nativeError .detachedArrayBuffer)
    | _ => .throws (.nativeError .arrayBufferExpected)
  | _ => .throws (.nativeError .arrayBufferExpected)

/-- The bytes of a buffer. -/
def Heap.data (h : Heap) (a : Addr) : Bytes :=
  match (h.obj a).cls with
  | .arrayBuffer (some data) => data
  | _ => []

end Ejr
