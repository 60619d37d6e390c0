import Ejr.Engine.Call

/-!
# `to_js`

`ejr::to_js` (src/ejr_cpp_api.cpp) and `create_js_array_typed`
(include/ejr.hpp): a `JSArg` becomes a JavaScript value.

Mirroring notes:
- The loop over a vector's elements is `toJsItems`; its index is cut to
  `uint32_t` when it is passed to `JS_SetPropertyUint32`.
- `static_cast<double>` of a `float` is the same rational.
-/

namespace Ejr

open Lib

/-- `array_type` of `create_js_array_typed`. -/
def Elem.cls : Elem → TypedClass
  | .uint8 => .uint8
  | .int32 => .int32
  | .uint32 => .uint32
  | .int64 => .bigInt64
  | .int8 => .int8
  | .int16 => .int16
  | .uint16 => .uint16
  | .uint64 => .bigUint64
  | .float => .float32

theorem Elem.size_cls (t : Elem) : t.cls.size = t.size := by cases t <;> rfl

/-- The memory of `typed_array.values`. -/
def JSArgTypedArray.bytes (a : JSArgTypedArray) : Bytes :=
  (a.values.map fun v => bytesOfNat a.elem.size v.toNat).flatten

/-- `create_js_array_typed`. -/
def createJsArrayTyped (a : JSArgTypedArray) : EngineM JSValue := do
  let buffer ← jsNewArrayBufferCopy a.bytes
  let array ← jsNewTypedArray buffer.val a.elem.cls
  jsFreeValue buffer
  pure array

mutual

/-- `ejr::to_js`. -/
def toJs : JSArg → EngineM JSValue
  | .int v => own (.int v)
  | .long v => own (newInt64 v)
  | .float v => own (.float64 v)
  | .double v => own (.float64 v)
  | .bool b => own (.bool b)
  | .string s => jsNewString s
  | .int64 v => own (.shortBigInt v)
  | .uint32 v => own (newUint32 v.toNat)
  | .null => own .null
  | .undefined => own .undefined
  | .array items => do
    let arr ← jsNewArray
    toJsItems arr 0 items
    pure arr
  | .typedArray a => createJsArrayTyped a
  | .exception msg name => do
    let errorMsg ← jsNewString msg
    let errorName ← jsNewString name
    let error ← jsNewError
    jsSetPropertyStr error.val (ascii "message") errorMsg
    jsSetPropertyStr error.val (ascii "name") errorName
    pure error

/-- The loop of `to_js` over the elements from index `i` on. -/
def toJsItems (arr : JSValue) : Nat → List JSArg → EngineM Unit
  | _, [] => pure ()
  | i, a :: rest => do
    let elem ← toJs a
    jsSetPropertyUint32 arr.val (i % 2 ^ 32) elem
    toJsItems arr (i + 1) rest

end

/-! ## `to_js` returns -/

theorem finishes_jsNewArrayBufferCopy (data : Bytes) : Finishes (jsNewArrayBufferCopy data) := by
  unfold jsNewArrayBufferCopy
  split
  next => exact fun _ => trivial
  next => exact fun _ => trivial

theorem finishes_jsNewTypedArray (buffer : JSVal) (cls : TypedClass) :
    Finishes (jsNewTypedArray buffer cls) := by
  refine finishes_bind (fun _ => trivial) fun s => ?_
  split
  next =>
    split
    next =>
      split
      next => exact fun _ => trivial
      next => exact fun _ => trivial
    next => exact fun _ => trivial
  next => exact fun _ => trivial

theorem finishes_toJsItems (arr : JSValue) : ∀ (items : List JSArg) (i : Nat),
    (∀ a ∈ items, Finishes (toJs a)) → Finishes (toJsItems arr i items)
  | [], _, _ => by
    unfold toJsItems
    exact finishes_pure _
  | a :: rest, i, hall => by
    unfold toJsItems
    refine finishes_bind (hall a (List.mem_cons_self ..)) fun elem => ?_
    refine finishes_bind (fun _ => trivial) fun _ => ?_
    exact finishes_toJsItems arr rest (i + 1) fun b hb => hall b (List.mem_cons_of_mem _ hb)

/-- There is no argument `to_js` does not come back from. -/
theorem finishes_toJs (a : JSArg) : Finishes (toJs a) := by
  induction a using JSArg.induct with
  | array items ih =>
    unfold toJs
    refine finishes_bind (fun _ => trivial) fun arr => ?_
    exact finishes_bind (finishes_toJsItems arr items 0 ih) fun _ => finishes_pure _
  | leaf a ha =>
    cases a with
    | array items => exact absurd rfl (ha items)
    | typedArray a =>
      unfold toJs
      refine finishes_bind (finishes_jsNewArrayBufferCopy _) fun buffer => ?_
      refine finishes_bind (finishes_jsNewTypedArray _ _) fun array => ?_
      exact finishes_bind (fun _ => trivial) fun _ => finishes_pure _
    | _ =>
      unfold toJs
      exact fun _ => trivial

end Ejr
