import Ejr.Engine.Call

/-!
# A new context

What `JS_NewContext` sets up, as far as the bridge looks at it: the twelve
typed array constructors, reachable as `constructor` of what inherits from
their prototypes and named after their class, and the texts of the engine's
own errors. `Pristine` says that script code has not touched that part.
-/

namespace Ejr

/-- What `Error.prototype.toString` makes of an error of the engine, when its
message is not cut to the 256 bytes there are for it, and no name in it that is not
ASCII to the 64 there are for that. -/
def NativeError.text : NativeError → JSString
  | .cannotReadPropertyOfNull key =>
    units "TypeError: cannot read property '" ++ key ++ units "' of null"
  | .cannotReadPropertyOfUndefined key =>
    units "TypeError: cannot read property '" ++ key ++ units "' of undefined"
  | .cannotConvertSymbolToString => units "TypeError: cannot convert symbol to string"
  | .cannotConvertSymbolToNumber => units "TypeError: cannot convert symbol to number"
  | .cannotConvertBigintToNumber => units "TypeError: cannot convert bigint to number"
  | .toPrimitive => units "TypeError: toPrimitive"
  | .revokedProxy => units "TypeError: revoked proxy"
  | .stackOverflow => units "InternalError: stack overflow"
  | .notATypedArray => units "TypeError: not a TypedArray"
  | .detachedArrayBuffer => units "TypeError: ArrayBuffer is detached"
  | .arrayBufferExpected => units "TypeError: ArrayBuffer object expected"
  | .invalidArrayBufferLength => units "RangeError: invalid array buffer length"
  | .invalidLength => units "RangeError: invalid length"
  | .duplicateExportedName name =>
    units "SyntaxError: duplicate exported name '" ++ name ++ units "'"

/-- The `name` of the constructor of a typed array class. -/
def TypedClass.name : TypedClass → Bytes
  | .uint8c => ascii "Uint8ClampedArray"
  | .int8 => ascii "Int8Array"
  | .uint8 => ascii "Uint8Array"
  | .int16 => ascii "Int16Array"
  | .uint16 => ascii "Uint16Array"
  | .int32 => ascii "Int32Array"
  | .uint32 => ascii "Uint32Array"
  | .bigInt64 => ascii "BigInt64Array"
  | .bigUint64 => ascii "BigUint64Array"
  | .float16 => ascii "Float16Array"
  | .float32 => ascii "Float32Array"
  | .float64 => ascii "Float64Array"

/-- Where a new context keeps the constructor of a typed array class. -/
def TypedClass.constructorAddr : TypedClass → Addr
  | .uint8c => 0
  | .int8 => 1
  | .uint8 => 2
  | .int16 => 3
  | .uint16 => 4
  | .int32 => 5
  | .uint32 => 6
  | .bigInt64 => 7
  | .bigUint64 => 8
  | .float16 => 9
  | .float32 => 10
  | .float64 => 11

/-- All typed array classes, in the order of `constructorAddr`. -/
def TypedClass.all : List TypedClass :=
  [.uint8c, .int8, .uint8, .int16, .uint16, .int32, .uint32, .bigInt64, .bigUint64, .float16,
    .float32, .float64]

/-- An object without properties of its own. -/
def Obj.plain : Obj := ⟨.other, fun _ => .value .undefined, fun _ => .value .undefined⟩

/-- An array of two values. -/
def Obj.pair (v w : JSVal) : Obj :=
  (Obj.setIndex { Obj.plain with cls := .array 0 } 0 v).setIndex 1 w

/-- The constructor functions of the typed array classes, and plain objects. -/
def initialObj (a : Addr) : Obj :=
  match TypedClass.all[a]? with
  | some cls => Obj.plain.setNamed (newString (ascii "name")) (.string (newString cls.name))
  | none => Obj.plain

/-- The heap of a new context. -/
def Heap.initial : Heap where
  obj := initialObj
  next := 12
  toPrim
    | .string, .nativeError e => .value (.string e.text)
    | .string, _ => .value (.string (units "[object Object]"))
    | .number, _ => .value (.float64 .nan)
  primNamed _ _ := .value .undefined
  primIndexed _ _ := .value .undefined
  protoNamed
    | .typedArray cls, k =>
      if k = newString (ascii "constructor") then .value (.object cls.constructorAddr)
      else .value .undefined
    | _, _ => .value .undefined
  protoIndexed _ _ := .value .undefined
  dtoa
    | .finite q => units (toString q.num)
    | .negZero => units "0"
    | .nan => units "NaN"
    | .inf negative => units (if negative then "-Infinity" else "Infinity")
  atof _ := .nan

/-- The runtime of a new context. -/
def Rt.initial : Rt := ⟨.initial, .uninitialized, [], 0⟩

/-- What inherits from a typed array prototype finds, below `base`, its built-in
constructor under `constructor`. -/
def Constructors (h : Heap) (base : Nat) : Prop :=
  ∀ cls : TypedClass, ∃ c : Nat, c < base ∧
    h.protoNamed (.typedArray cls) (newString (ascii "constructor")) = .value (.object c) ∧
    h.named (.object c) (newString (ascii "name")) = .value (.string (newString cls.name))

/-- The built-in constructors and prototypes of typed arrays are unmodified. -/
def Pristine (h : Heap) : Prop := Constructors h h.next

theorem pristine_initial : Pristine .initial := by
  intro cls
  refine ⟨cls.constructorAddr, ?_, ?_, ?_⟩
  · cases cls <;> decide
  · simp [Heap.initial]
  · cases cls <;> rfl

end Ejr
