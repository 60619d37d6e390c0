import Ejr.Engine.Call

/-!
# `from_js`

`ejr::from_js` (src/ejr_cpp_api.cpp): a JavaScript value becomes a `JSArg`.
One definition per branch of its `if` chain, and `fromJs`, the chain itself.

Mirroring notes:
- The recursion follows references of the heap, not a syntax tree, so the
  model carries a bound on its depth; `Stop.depth` says the bound was too
  small. The source has no such bound.
- Only the array branch recurses, once per index, always with
  `force_free = true` (the default argument).
- `JS_IsArray` answers -1 when it throws, which is true for the `if`.
- The Error branch computes `name_str`, guarded against NULL, and then builds
  the exception from `name_cstr`.
- The typed array branch returns out of each matched name. After a name that
  is none of the nine it runs into the common fallback, which releases the
  value a second time.
-/

namespace Ejr

open Lib

/-- `if (force_free) JS_FreeValue(ctx, value)`. -/
def freeIf (forceFree : Bool) (value : JSValue) : EngineM Unit :=
  match forceFree with
  | true => jsFreeValue value
  | false => pure ()

@[simp] theorem wp_freeIf {forceFree : Bool} {v : JSValue} {s : Rt} {Q : Unit → Rt → Prop}
    {X : Stop → Rt → Prop} :
    wp (freeIf forceFree v) s Q X ↔ Q () (s.log (if forceFree then v.events .free else [])) := by
  cases forceFree with
  | true => exact Iff.rfl
  | false =>
    show Q () s ↔ _
    simp [Rt.log]

/-- `JS_IsString`. -/
def fromJsString (value : JSValue) (forceFree : Bool) : EngineM JSArg := do
  let val ← jsToCString value.val
  let valString ← stdString val
  jsFreeCString val
  freeIf forceFree value
  pure (.string valString)

/-- `JS_IsBool`. -/
def fromJsBool (value : JSValue) (b : Bool) (forceFree : Bool) : EngineM JSArg := do
  freeIf forceFree value
  pure (.bool b)

/-- `JS_IsNumber`: the chain of conversions, each tried when the one before
has failed. -/
def fromJsNumber (value : JSValue) (forceFree : Bool) : EngineM JSArg := do
  match ← jsToInt32 value.val with
  | some i32 => do
    freeIf forceFree value
    pure (.int i32)
  | none =>
    match ← jsToInt64 value.val with
    | some i64 => do
      freeIf forceFree value
      pure (.int64 i64)
    | none =>
      match ← jsToFloat64 value.val with
      | some d => do
        freeIf forceFree value
        pure (.double d)
      | none =>
        match ← jsToUint32 value.val with
        | some u32 => do
          freeIf forceFree value
          pure (.uint32 u32)
        | none => do
          freeIf forceFree value
          pure (.int 0)

/-- The loop over the elements: `n` of them, from index `i` on. -/
def fromJsElems (rec : JSValue → Bool → EngineM JSArg) (value : JSValue) :
    Nat → Nat → EngineM (List JSArg)
  | _, 0 => pure []
  | i, n + 1 => do
    let elem ← jsGetPropertyUint32 value.val i
    let arg ← rec elem true
    let vec ← fromJsElems rec value (i + 1) n
    pure (arg :: vec)

/-- `JS_IsArray`; `rec` is `from_js`. `JS_ToUint32` stores 0 when it fails. -/
def fromJsArray (rec : JSValue → Bool → EngineM JSArg) (value : JSValue) (forceFree : Bool) :
    EngineM JSArg := do
  let lenVal ← jsGetPropertyStr value.val (ascii "length")
  let len ← jsToUint32 lenVal.val
  jsFreeValue lenVal
  let vec ← fromJsElems rec value 0 (len.getD 0).toNat
  freeIf forceFree value
  pure (.array vec)

/-- A branch that gives a fixed text. -/
def fromJsText (value : JSValue) (forceFree : Bool) (text : String) : EngineM JSArg := do
  freeIf forceFree value
  pure (.string (ascii text))

/-- `message_cstr` and `name_cstr`: NULL for `undefined`. -/
def errorCstr : JSVal → EngineM (Option CString)
  | .undefined => pure none
  | v => jsToCString v

/-- `cstr == nullptr ? "Exception" : std::string(cstr)`. -/
def orException : Option CString → EngineM Bytes
  | none => pure (ascii "Exception")
  | some c => stdString (some c)

/-- `JS_IsError`. -/
def fromJsError (value : JSValue) (forceFree : Bool) : EngineM JSArg := do
  let message ← jsGetPropertyStr value.val (ascii "message")
  let name ← jsGetPropertyStr value.val (ascii "name")
  let messageCstr ← errorCstr message.val
  let nameCstr ← errorCstr name.val
  let messageStr ← orException messageCstr
  let _nameStr ← orException nameCstr
  -- exec(message_str, name_cstr): a std::string is made of name_cstr itself
  let execName ← stdString nameCstr
  freeIf forceFree value
  jsFreeValue message
  jsFreeValue name
  jsFreeCString messageCstr
  jsFreeCString nameCstr
  pure (.exception messageStr execName)

/-- `JS_IsException`: the pending exception, as text, is message and name. -/
def fromJsException (value : JSValue) (forceFree : Bool) : EngineM JSArg := do
  let exception ← jsGetException
  let exceptionJsStr ← jsToString exception.val
  let exceptionCstr ← jsToCString exceptionJsStr.val
  let exceptionStr ← orException exceptionCstr
  jsFreeCString exceptionCstr
  jsFreeValue exception
  jsFreeValue exceptionJsStr
  freeIf forceFree value
  pure (.exception exceptionStr exceptionStr)

/-- The comparisons with `name_cstr`, in their order. -/
def elemOfName (name : Bytes) : Option Elem :=
  if name = ascii "Uint8Array" then some .uint8
  else if name = ascii "Uint16Array" then some .uint16
  else if name = ascii "Uint32Array" then some .uint32
  else if name = ascii "Int8Array" then some .int8
  else if name = ascii "Int16Array" then some .int16
  else if name = ascii "Int32Array" then some .int32
  else if name = ascii "Float32Array" then some .float
  else if name = ascii "BigUint64Array" then some .uint64
  else if name = ascii "BigInt64Array" then some .int64
  else none

/-- `JSArgTypedArray<T>(buffer_data + byte_offset, element_count)`. -/
def readElements (buffer : Addr) (offset count : Nat) (t : Elem) : EngineM JSArgTypedArray := do
  let bytes ← readBytes buffer offset (count * t.size)
  pure ⟨t, (pieces t.size count bytes).map fun p => BitVec.ofNat _ (natOfBytes p)⟩

/-- The calls of the typed array branch before it looks at the data:
`name_cstr` and `buffer_data`. Everything is released already. -/
def probeView (value : JSValue) (forceFree : Bool) (typedArrayBuffer : JSValue) :
    EngineM (Option CString × Option Addr) := do
  let constructor ← jsGetPropertyStr value.val (ascii "constructor")
  let name ← jsGetPropertyStr constructor.val (ascii "name")
  let nameCstr ← jsToCString name.val
  let bufferData ← jsGetArrayBuffer typedArrayBuffer.val
  jsFreeCString nameCstr
  jsFreeValue name
  jsFreeValue constructor
  jsFreeValue typedArrayBuffer
  freeIf forceFree value
  pure (nameCstr, bufferData)

/-- The rest of the typed array branch: the name decides the element type. -/
def convertView (value : JSValue) (forceFree : Bool) (view : View) :
    Option CString × Option Addr → EngineM JSArg
  | (_, none) => pure (.string (ascii "[unsupported]"))
  | (nameCstr, some bufferData) => do
    let elementCount := view.length / view.cls.size
    let name ← stdString nameCstr
    match elemOfName name with
    | some t => do
      let a ← readElements bufferData view.offset elementCount t
      pure (.typedArray a)
    | none => fromJsText value forceFree "[unsupported]"

/-- The typed array branch. -/
def fromJsView (value : JSValue) (forceFree : Bool) (typedArrayBuffer : JSValue) (view : View) :
    EngineM JSArg := do
  let probed ← probeView value forceFree typedArrayBuffer
  convertView value forceFree view probed

/-- The last branch: a typed array, or the fallback. -/
def fromJsOther (value : JSValue) (forceFree : Bool) : EngineM JSArg := do
  match ← jsGetTypedArrayBuffer value.val with
  | some (typedArrayBuffer, view) => fromJsView value forceFree typedArrayBuffer view
  | none => fromJsText value forceFree "[unsupported]"

/-- The branches after `JS_IsArray`. -/
def fromJsRest (value : JSValue) (forceFree : Bool) : EngineM JSArg := do
  let s ← get
  match value.val with
  | .null => fromJsText value forceFree "null"
  | .undefined => fromJsText value forceFree "undefined"
  | .exception => fromJsException value forceFree
  | v =>
    match s.heap.isError v with
    | true => fromJsError value forceFree
    | false => fromJsOther value forceFree

/-- `ejr::from_js`, at most as deep as the first argument says. -/
def fromJs : Nat → JSValue → Bool → EngineM JSArg
  | 0, _, _ => throw .depth
  | n + 1, value, forceFree =>
    match value.val with
    | .string _ => fromJsString value forceFree
    | .bool b => fromJsBool value b forceFree
    | .int _ | .float64 _ => fromJsNumber value forceFree
    | v => do
      match ← jsIsArray v with
      | 0 => fromJsRest value forceFree
      | _ => fromJsArray (fromJs n) value forceFree

/-! ## Which branch is taken -/

section

variable {n : Nat} {value : JSValue} {forceFree : Bool} {s : Rt} {Q : JSArg → Rt → Prop}
  {X : Stop → Rt → Prop}

theorem fromJs_string {u : JSString} (h : value.val = .string u) :
    fromJs (n + 1) value forceFree = fromJsString value forceFree := by
  simp only [fromJs, h]

theorem fromJs_bool {b : Bool} (h : value.val = .bool b) :
    fromJs (n + 1) value forceFree = fromJsBool value b forceFree := by
  simp only [fromJs, h]

theorem fromJs_number (h : value.val.isNumber = true) :
    fromJs (n + 1) value forceFree = fromJsNumber value forceFree := by
  cases hv : value.val with
  | int i => simp only [fromJs, hv]
  | float64 d => simp only [fromJs, hv]
  | _ => rw [hv] at h; exact absurd h (by simp [JSVal.isNumber])

/-- The values the chain has not decided before it asks `JS_IsArray`. -/
def JSVal.reachesIsArray : JSVal → Bool
  | .string _ | .bool _ | .int _ | .float64 _ => false
  | _ => true

/-- The other values. -/
theorem fromJs_isArray (h : value.val.reachesIsArray = true) :
    fromJs (n + 1) value forceFree = (do
      match ← jsIsArray value.val with
      | 0 => fromJsRest value forceFree
      | _ => fromJsArray (fromJs n) value forceFree) := by
  cases hv : value.val <;> simp_all [fromJs, JSVal.reachesIsArray]

theorem wp_fromJs_isArray (h : value.val.reachesIsArray = true) :
    wp (fromJs (n + 1) value forceFree) s Q X ↔
      if s.heap.isArray value.val = .value false then wp (fromJsRest value forceFree) s Q X
      else wp (fromJsArray (fromJs n) value forceFree) (s.raise (s.heap.isArray value.val)) Q X := by
  rw [fromJs_isArray h, wp_bind, wp_jsIsArray]
  cases hb : s.heap.isArray value.val with
  | value b => cases b <;> simp [Outcome.get?]
  | throws e => simp [Outcome.get?]
  | exception => simp [Outcome.get?]

end

end Ejr
