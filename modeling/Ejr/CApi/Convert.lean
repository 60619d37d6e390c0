import Ejr.CApi.Arg

/-!
# `ejr_to_jsarg` and `jsarg_to_ejr`

The two conversions between the C++ and the C `JSArg` (src/ejr_c_api.cpp).

Mirroring notes:
- `jsarg_to_ejr` follows pointers, so the model carries a bound on its depth,
  as in `from_js`.
- The visitor of `ejr_to_jsarg` has no branch for `long`, which ends in its
  last `else`.
- `ejr_to_jsarg` copies a string before it passes the copy to `jsarg_str`.
-/

namespace Ejr

open Lib

/-! ## From C -/

/-- `items[i]`. -/
def getItem (items i : Nat) : CM Ptr := do
  let slots ← readBlock (some items) CBlock.items?
  match slots[i]? with
  | some p => pure p
  | none => throw .badAccess

/-- The loop over the elements: `n` of them, from index `i` on. -/
def jsargToEjrItems (rec : CJSArg → CM JSArg) (items : Nat) : Nat → Nat → CM (List JSArg)
  | _, 0 => pure []
  | i, n + 1 => do
    let p ← getItem items i
    let arg ← derefArg p
    let newArg ← rec arg
    let args ← jsargToEjrItems rec items (i + 1) n
    pure (newArg :: args)

/-- `name` and `message`: a literal for NULL. -/
def orLiteral : Ptr → CM Bytes
  | none => pure (ascii "Exception")
  | some p => do
    let m ← derefChars (some p)
    pure (cstr m)

/-- `jsarg_to_ejr`, at most as deep as the first argument says. -/
def jsargToEjr : Nat → CJSArg → CM JSArg
  | 0, _ => throw .depth
  | n + 1, arg =>
    match arg with
    | .int v => pure (.int v)
    | .double v => pure (.double v)
    | .float v => pure (.float v)
    | .string str => do
      let m ← derefChars str
      pure (.string (cstr m))
    | .bool b => pure (.bool b)
    | .int64 v => pure (.int64 v)
    | .uint32 v => pure (.uint32 v)
    | .cArray none _ _ => pure (.array [])
    | .cArray (some items) count _ => do
      let args ← jsargToEjrItems (jsargToEjr n) items 0 count
      pure (.array args)
    | .null => pure .null
    | .undefined => pure .undefined
    | .typedArray t none _ => pure (.typedArray ⟨t, []⟩)
    | .typedArray t (some items) count => do
      let values ← readBlock (some items) (CBlock.elems? t)
      if count ≤ values.length then pure (.typedArray ⟨t, values.take count⟩)
      else throw .badAccess
    | .exception msg name => do
      let nameStr ← orLiteral name
      let messageStr ← orLiteral msg
      pure (.exception messageStr nameStr)

/-! ## To C -/

mutual

/-- `ejr_to_jsarg`. -/
def ejrToJsarg : JSArg → CM Ptr
  | .int value => jsargInt value
  | .float value => jsargFloat value
  | .double value => jsargDouble value
  | .bool value => jsargBool value
  | .string value => do
    let cStr ← allocate (.chars (value ++ [0]))
    let m ← derefChars (some cStr)
    jsargStr m
  | .int64 value => jsargInt64t value
  | .uint32 value => jsargUint32t value
  | .null => jsargNull
  | .undefined => jsargUndefined
  | .array items => do
    let arg ← jsargCarray items.length
    ejrToJsargItems arg items
    pure arg
  | .typedArray ⟨.uint8, values⟩ => jsargU8Array values
  | .typedArray ⟨.int32, values⟩ => jsargI32Array values
  | .typedArray ⟨.uint32, values⟩ => jsargU32Array values
  | .typedArray ⟨.int64, values⟩ => jsargI64Array values
  | .typedArray ⟨.int8, values⟩ => jsargI8Array values
  | .typedArray ⟨.int16, values⟩ => jsargI16Array values
  | .typedArray ⟨.uint16, values⟩ => jsargU16Array values
  | .typedArray ⟨.uint64, values⟩ => jsargU64Array values
  | .typedArray ⟨.float, values⟩ => jsargFloatArray values
  | .exception msg name => jsargException (msg ++ [0]) (name ++ [0])
  | .long _ => jsargNull

/-- The loop of `ejr_to_jsarg` over the elements. -/
def ejrToJsargItems (arg : Ptr) : List JSArg → CM Unit
  | [] => pure ()
  | a :: rest => do
    let iArg ← ejrToJsarg a
    jsargAddValueToCArray arg iArg
    ejrToJsargItems arg rest

end

/-- The nine typed arrays go the same way. -/
theorem ejrToJsarg_typedArray (a : JSArgTypedArray) :
    ejrToJsarg (.typedArray a) = jsargElems a := by
  obtain ⟨t, values⟩ := a
  cases t <;> simp only [ejrToJsarg] <;> rfl

end Ejr
