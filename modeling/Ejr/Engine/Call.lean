import Ejr.Lib.Wp
import Ejr.Engine.Heap

/-!
# The engine calls of the bridge

The QuickJS API functions that `to_js` and `from_js` use, as `EStateM` programs
over a runtime state `Rt`: heap, pending exception, and a trace of the
references handed out and taken back and of the buffer bytes read, which is
what the ownership and memory results are stated on. Each call comes with the
rule (`wp_…`) that says what it answers and which state it leaves; the proofs
about the bridge use these rules and never unfold a call.

Mirroring notes:
- `RefId` names an owned reference: every call that returns an owned value
  returns a new one. Freeing a value that is not reference counted does nothing.
- `JS_SetPropertyUint32` and `JS_SetPropertyStr` are used on objects the bridge
  has just made, where they define an own property.
- Memory never runs out.
-/

namespace Ejr

open Lib

/-! ## The runtime -/

/-- The name of one owned reference. -/
abbrev RefId := Nat

/-- What a call leaves in the trace. `give` hands an owned reference over to
the engine; `read` is a read of buffer bytes through a typed array. -/
inductive Event where
  | acquire (r : RefId)
  | free (r : RefId)
  | give (r : RefId)
  | acquireC (r : RefId)
  | freeC (r : RefId)
  | readC (r : RefId)
  | read (buffer : Addr) (start len : Nat)
  deriving DecidableEq, Repr

/-- The runtime: heap, pending exception, trace, and the next reference name. -/
structure Rt where
  heap : Heap
  pending : JSVal
  trace : List Event
  fresh : Nat

/-- Why a call does not return: the recursion bound of the model is used up, a
NULL C string is used as a string, a read leaves the buffer, memory is read that has
been freed. All but the first are undefined behaviour. A program that reads past a
buffer usually goes on, with what it finds there; the model says nothing about it
after that and stops. -/
inductive Stop where
  | depth
  | nullString
  | badRead
  | freedRead
  deriving DecidableEq, Repr

/-- A program over the runtime. -/
abbrev EngineM := EStateM Stop Rt

/-- A `JSValue` C++ holds, with the reference it owns or borrows. -/
structure JSValue where
  val : JSVal
  ref : Nat
  deriving DecidableEq, Repr

/-- A C string from the engine: the bytes before its terminator. -/
structure CString where
  bytes : Bytes
  ref : Nat
  deriving DecidableEq, Repr

/-- The state with more trace. -/
def Rt.log (s : Rt) (es : List Event) : Rt := { s with trace := s.trace ++ es }

/-- The events of releasing or handing over `v`: none without a reference count. -/
def JSValue.events (v : JSValue) (e : RefId → Event) : List Event :=
  if v.val.hasRefCount then [e v.ref] else []

/-- The state after a new reference to `v` has been handed out. -/
def Rt.owned (s : Rt) (v : JSVal) : Rt :=
  { s.log (JSValue.events ⟨v, s.fresh⟩ .acquire) with fresh := s.fresh + 1 }

/-- The state after a C string has been handed out. -/
def Rt.ownedC (s : Rt) : Option Bytes → Rt
  | none => s
  | some _ => { s.log [.acquireC s.fresh] with fresh := s.fresh + 1 }

/-- The state after what was thrown has been stored. -/
def Rt.raise {α : Type} (s : Rt) : Outcome α → Rt
  | .throws e => { s with pending := e }
  | _ => s

section

variable (s : Rt) (es : List Event) (v : JSVal) (b : Option Bytes)
variable {α : Type} (o : Outcome α)

@[simp] theorem Rt.log_heap : (s.log es).heap = s.heap := rfl
@[simp] theorem Rt.log_pending : (s.log es).pending = s.pending := rfl
@[simp] theorem Rt.log_trace : (s.log es).trace = s.trace ++ es := rfl
@[simp] theorem Rt.log_fresh : (s.log es).fresh = s.fresh := rfl

@[simp] theorem Rt.owned_heap : (s.owned v).heap = s.heap := rfl
@[simp] theorem Rt.owned_pending : (s.owned v).pending = s.pending := rfl
@[simp] theorem Rt.owned_trace :
    (s.owned v).trace = s.trace ++ JSValue.events ⟨v, s.fresh⟩ .acquire := rfl
@[simp] theorem Rt.owned_fresh : (s.owned v).fresh = s.fresh + 1 := rfl

@[simp] theorem Rt.ownedC_heap : (s.ownedC b).heap = s.heap := by cases b <;> rfl
@[simp] theorem Rt.ownedC_pending : (s.ownedC b).pending = s.pending := by cases b <;> rfl

@[simp] theorem Rt.raise_heap : (s.raise o).heap = s.heap := by cases o <;> rfl
@[simp] theorem Rt.raise_trace : (s.raise o).trace = s.trace := by cases o <;> rfl
@[simp] theorem Rt.raise_fresh : (s.raise o).fresh = s.fresh := by cases o <;> rfl
@[simp] theorem Rt.raise_value (a : α) : s.raise (.value a) = s := rfl

end

/-! ## Ownership -/

/-- A new owned reference. -/
def own (v : JSVal) : EngineM JSValue := do
  let s ← get
  set (s.owned v)
  pure ⟨v, s.fresh⟩

/-- A new C string, `none` for NULL. -/
def ownC (b : Option Bytes) : EngineM (Option CString) := do
  let s ← get
  set (s.ownedC b)
  pure (b.map fun b => ⟨b, s.fresh⟩)

/-- `JS_FreeValue`. -/
def jsFreeValue (v : JSValue) : EngineM Unit := modify fun s => s.log (v.events .free)

/-- The engine takes the reference over. -/
def give (v : JSValue) : EngineM Unit := modify fun s => s.log (v.events .give)

/-- `JS_FreeCString`; NULL is let through. -/
def jsFreeCString (c : Option CString) : EngineM Unit :=
  modify fun s => s.log (c.toList.map fun c => .freeC c.ref)

/-- `std::string(const char *)`, and every other use of a C string's bytes:
NULL is an error of the C++ program. -/
def stdString : Option CString → EngineM Bytes
  | none => throw .nullString
  | some c => do
    modify fun s => s.log [.readC c.ref]
    pure (cstr c.bytes)

/-- `JS_Throw`. -/
def jsThrow (e : JSVal) : EngineM Unit := modify fun s => { s with pending := e }

/-- What is thrown is stored; what else the engine answers is returned. -/
def answer {α : Type} (o : Outcome α) : EngineM (Option α) :=
  match o with
  | .value a => pure (some a)
  | .throws e => do
    jsThrow e
    pure none
  | .exception => pure none

/-- Ask the heap. -/
def ask {α : Type} (f : Heap → Outcome α) : EngineM (Option α) := do
  let s ← get
  answer (f s.heap)

section

variable {s : Rt} {X : Stop → Rt → Prop} {α : Type}

@[simp] theorem wp_own {v : JSVal} {Q : JSValue → Rt → Prop} :
    wp (own v) s Q X ↔ Q ⟨v, s.fresh⟩ (s.owned v) := Iff.rfl

@[simp] theorem wp_ownC {b : Option Bytes} {Q : Option CString → Rt → Prop} :
    wp (ownC b) s Q X ↔ Q (b.map fun b => ⟨b, s.fresh⟩) (s.ownedC b) := Iff.rfl

@[simp] theorem wp_jsFreeValue {v : JSValue} {Q : Unit → Rt → Prop} :
    wp (jsFreeValue v) s Q X ↔ Q () (s.log (v.events .free)) := Iff.rfl

@[simp] theorem wp_give {v : JSValue} {Q : Unit → Rt → Prop} :
    wp (give v) s Q X ↔ Q () (s.log (v.events .give)) := Iff.rfl

@[simp] theorem wp_jsFreeCString {c : Option CString} {Q : Unit → Rt → Prop} :
    wp (jsFreeCString c) s Q X ↔ Q () (s.log (c.toList.map fun c => .freeC c.ref)) := Iff.rfl

@[simp] theorem wp_stdString_none {Q : Bytes → Rt → Prop} :
    wp (stdString none) s Q X ↔ X .nullString s := Iff.rfl

@[simp] theorem wp_stdString_some {c : CString} {Q : Bytes → Rt → Prop} :
    wp (stdString (some c)) s Q X ↔ Q (cstr c.bytes) (s.log [.readC c.ref]) := Iff.rfl

@[simp] theorem wp_jsThrow {e : JSVal} {Q : Unit → Rt → Prop} :
    wp (jsThrow e) s Q X ↔ Q () { s with pending := e } := Iff.rfl

@[simp] theorem wp_ask {f : Heap → Outcome α} {Q : Option α → Rt → Prop} :
    wp (ask f) s Q X ↔ Q (f s.heap).get? (s.raise (f s.heap)) := by
  unfold ask
  rw [wp_bind, wp_get]
  cases f s.heap <;> rfl

end

/-! ## Reading -/

/-- `JS_GetException`: reads the slot and empties it. -/
def jsGetException : EngineM JSValue := do
  let s ← get
  set { s with pending := .uninitialized }
  own s.pending

/-- `JS_GetPropertyStr`. -/
def jsGetPropertyStr (v : JSVal) (prop : Bytes) : EngineM JSValue := do
  let r ← ask (·.named v (newString prop))
  own (r.getD .exception)

/-- `JS_GetPropertyUint32`. -/
def jsGetPropertyUint32 (v : JSVal) (i : Nat) : EngineM JSValue := do
  let r ← ask (·.indexed v i)
  own (r.getD .exception)

/-- `JS_ToString`. -/
def jsToString (v : JSVal) : EngineM JSValue := do
  let t ← ask (·.text v)
  own ((t.map .string).getD .exception)

/-- `JS_ToCString`, `none` for NULL. -/
def jsToCString (v : JSVal) : EngineM (Option CString) := do
  let t ← ask (·.text v)
  ownC (t.map toCStringLen)

/-- The integer part, 0 where there is none. -/
def Double.trunc : Double → Int
  | .finite q => q.num.tdiv q.den
  | _ => 0

/-- `JS_ToInt32`, `none` for -1: truncation, then reduction modulo 2^32. -/
def jsToInt32 (v : JSVal) : EngineM (Option Int32) := do
  let d ← ask (·.number v)
  pure (d.map fun d => Int32.ofInt d.trunc)

/-- `JS_ToUint32`: `JS_ToInt32` into unsigned memory. -/
def jsToUint32 (v : JSVal) : EngineM (Option UInt32) := do
  let i ← jsToInt32 v
  pure (i.map Int32.toUInt32)

/-- `JS_ToInt64`. -/
def jsToInt64 (v : JSVal) : EngineM (Option Int64) := do
  let d ← ask (·.number v)
  pure (d.map fun d => Int64.ofInt d.trunc)

/-- `JS_ToFloat64`. -/
def jsToFloat64 (v : JSVal) : EngineM (Option Double) := ask (·.number v)

/-- `JS_IsArray`: 1, 0, or -1 when it throws. -/
def jsIsArray (v : JSVal) : EngineM Int := do
  let b ← ask (·.isArray v)
  pure (match b with
    | none => -1
    | some true => 1
    | some false => 0)

/-- `JS_GetTypedArrayBuffer`: the buffer and the view's own offset, byte length
and element size, or `none` for `JS_EXCEPTION`. -/
def jsGetTypedArrayBuffer (v : JSVal) : EngineM (Option (JSValue × View)) := do
  match ← ask (·.view v) with
  | none => pure none
  | some view => do
    let buffer ← own (.object view.buffer)
    pure (some (buffer, view))

/-- `JS_GetArrayBuffer`: where the data of a buffer is, `none` for NULL. -/
def jsGetArrayBuffer (v : JSVal) : EngineM (Option Addr) := ask (·.arrayBuffer v)

/-- `len` bytes of a buffer from `start` on. They are found there even if the last
reference has been released before, which only a caller can know; where the caller
holds the last one the call is `lastHeld`, which stops (`Ejr.FreedReads`). -/
def readBytes (buffer : Addr) (start len : Nat) : EngineM Bytes := do
  modify fun s => s.log [.read buffer start len]
  let s ← get
  if start + len ≤ (s.heap.data buffer).length then
    pure (((s.heap.data buffer).drop start).take len)
  else
    throw .badRead

section

variable {s : Rt} {X : Stop → Rt → Prop}

@[simp] theorem wp_jsGetException {Q : JSValue → Rt → Prop} :
    wp jsGetException s Q X ↔
      Q ⟨s.pending, s.fresh⟩ (Rt.owned { s with pending := .uninitialized } s.pending) := Iff.rfl

@[simp] theorem wp_jsGetPropertyStr {v : JSVal} {prop : Bytes} {Q : JSValue → Rt → Prop} :
    wp (jsGetPropertyStr v prop) s Q X ↔
      Q ⟨s.heap.property v prop, s.fresh⟩
        ((s.raise (s.heap.named v (newString prop))).owned (s.heap.property v prop)) := by
  simp [jsGetPropertyStr, Heap.property]

@[simp] theorem wp_jsGetPropertyUint32 {v : JSVal} {i : Nat} {Q : JSValue → Rt → Prop} :
    wp (jsGetPropertyUint32 v i) s Q X ↔
      Q ⟨s.heap.element v i, s.fresh⟩
        ((s.raise (s.heap.indexed v i)).owned (s.heap.element v i)) := by
  simp [jsGetPropertyUint32, Heap.element]

@[simp] theorem wp_jsToString {v : JSVal} {Q : JSValue → Rt → Prop} :
    wp (jsToString v) s Q X ↔
      Q ⟨((s.heap.text v).get?.map .string).getD .exception, s.fresh⟩
        ((s.raise (s.heap.text v)).owned (((s.heap.text v).get?.map .string).getD .exception)) := by
  simp [jsToString]

@[simp] theorem wp_jsToCString {v : JSVal} {Q : Option CString → Rt → Prop} :
    wp (jsToCString v) s Q X ↔
      Q ((s.heap.text v).get?.map fun t => ⟨toCStringLen t, s.fresh⟩)
        ((s.raise (s.heap.text v)).ownedC ((s.heap.text v).get?.map toCStringLen)) := by
  simp [jsToCString, Function.comp_def]

@[simp] theorem wp_jsToInt32 {v : JSVal} {Q : Option Int32 → Rt → Prop} :
    wp (jsToInt32 v) s Q X ↔
      Q ((s.heap.number v).get?.map fun d => Int32.ofInt d.trunc) (s.raise (s.heap.number v)) := by
  simp [jsToInt32]

@[simp] theorem wp_jsToUint32 {v : JSVal} {Q : Option UInt32 → Rt → Prop} :
    wp (jsToUint32 v) s Q X ↔
      Q ((s.heap.number v).get?.map fun d => (Int32.ofInt d.trunc).toUInt32)
        (s.raise (s.heap.number v)) := by
  simp [jsToUint32, Function.comp_def]

@[simp] theorem wp_jsToInt64 {v : JSVal} {Q : Option Int64 → Rt → Prop} :
    wp (jsToInt64 v) s Q X ↔
      Q ((s.heap.number v).get?.map fun d => Int64.ofInt d.trunc) (s.raise (s.heap.number v)) := by
  simp [jsToInt64]

@[simp] theorem wp_jsToFloat64 {v : JSVal} {Q : Option Double → Rt → Prop} :
    wp (jsToFloat64 v) s Q X ↔ Q (s.heap.number v).get? (s.raise (s.heap.number v)) := by
  simp [jsToFloat64]

@[simp] theorem wp_jsIsArray {v : JSVal} {Q : Int → Rt → Prop} :
    wp (jsIsArray v) s Q X ↔
      Q (match (s.heap.isArray v).get? with
        | none => -1
        | some true => 1
        | some false => 0) (s.raise (s.heap.isArray v)) := by
  simp [jsIsArray]

@[simp] theorem wp_jsGetArrayBuffer {v : JSVal} {Q : Option Addr → Rt → Prop} :
    wp (jsGetArrayBuffer v) s Q X ↔
      Q (s.heap.arrayBuffer v).get? (s.raise (s.heap.arrayBuffer v)) := by
  simp [jsGetArrayBuffer]

theorem wp_jsGetTypedArrayBuffer {v : JSVal} {Q : Option (JSValue × View) → Rt → Prop} :
    wp (jsGetTypedArrayBuffer v) s Q X ↔
      match s.heap.view v with
      | .value view => Q (some (⟨.object view.buffer, s.fresh⟩, view)) (s.owned (.object view.buffer))
      | o => Q none (s.raise o) := by
  unfold jsGetTypedArrayBuffer
  rw [wp_bind, wp_ask]
  cases s.heap.view v <;> simp [Outcome.get?]

theorem wp_readBytes {a : Addr} {start len : Nat} {Q : Bytes → Rt → Prop} :
    wp (readBytes a start len) s Q X ↔
      if start + len ≤ (s.heap.data a).length then
        Q (((s.heap.data a).drop start).take len) (s.log [.read a start len])
      else X .badRead (s.log [.read a start len]) := by
  unfold readBytes
  rw [wp_bind, wp_modify, wp_bind, wp_get, wp_ite]
  rfl

end

/-! ## New objects -/

/-- A new object of a class, inheriting from its prototype. -/
def alloc (p : Proto) (cls : JSClass) : EngineM JSValue := do
  let s ← get
  set { s with heap := s.heap.alloc p cls }
  own (.object s.heap.next)

/-- `JS_NewArray`. -/
def jsNewArray : EngineM JSValue := alloc .array (.array 0)

/-- `JS_NewError`. -/
def jsNewError : EngineM JSValue := alloc .error .error

/-- `JS_NewString`. -/
def jsNewString (s : Bytes) : EngineM JSValue := own (.string (newString s))

/-- `JS_NewArrayBufferCopy`: at most 2 GB. -/
def jsNewArrayBufferCopy (data : Bytes) : EngineM JSValue :=
  if data.length ≤ 2 ^ 31 - 1 then
    alloc .arrayBuffer (.arrayBuffer (some data))
  else do
    jsThrow (.nativeError .invalidArrayBufferLength)
    own .exception

/-- `JS_NewTypedArray` over the whole of a buffer. Of the arguments the bridge
passes only the buffer varies: what `JS_NewArrayBufferCopy` returned. -/
def jsNewTypedArray (buffer : JSVal) (cls : TypedClass) : EngineM JSValue := do
  let s ← get
  match buffer with
  | .object a =>
    match (s.heap.obj a).cls with
    | .arrayBuffer (some data) =>
      if h : cls.size ∣ data.length then
        alloc (.typedArray cls) (.typedArray ⟨cls, a, 0, data.length, false, h⟩)
      else do
        jsThrow (.nativeError .invalidLength)
        own .exception
    | _ => do
      jsThrow (.nativeError .detachedArrayBuffer)
      own .exception
  | _ => own .exception

/-- `JS_SetPropertyUint32`. -/
def jsSetPropertyUint32 (obj : JSVal) (i : Nat) (v : JSValue) : EngineM Unit := do
  give v
  modify fun s => { s with heap := s.heap.update obj (·.setIndex i v.val) }

/-- `JS_SetPropertyStr`. -/
def jsSetPropertyStr (obj : JSVal) (prop : Bytes) (v : JSValue) : EngineM Unit := do
  give v
  modify fun s => { s with heap := s.heap.update obj (·.setNamed (newString prop) v.val) }

section

variable {s : Rt} {X : Stop → Rt → Prop}

@[simp] theorem wp_alloc {p : Proto} {cls : JSClass} {Q : JSValue → Rt → Prop} :
    wp (alloc p cls) s Q X ↔
      Q ⟨.object s.heap.next, s.fresh⟩
        (Rt.owned { s with heap := s.heap.alloc p cls } (.object s.heap.next)) := Iff.rfl

theorem wp_jsNewArrayBufferCopy {data : Bytes} (h : data.length ≤ 2 ^ 31 - 1)
    {Q : JSValue → Rt → Prop} :
    wp (jsNewArrayBufferCopy data) s Q X ↔
      wp (alloc .arrayBuffer (.arrayBuffer (some data))) s Q X := by
  rw [jsNewArrayBufferCopy, if_pos h]

theorem wp_jsNewTypedArray {a : Addr} {data : Bytes} {cls : TypedClass}
    (hbuffer : (s.heap.obj a).cls = .arrayBuffer (some data)) (hwhole : cls.size ∣ data.length)
    {Q : JSValue → Rt → Prop} :
    wp (jsNewTypedArray (.object a) cls) s Q X ↔
      wp (alloc (.typedArray cls) (.typedArray ⟨cls, a, 0, data.length, false, hwhole⟩)) s Q X := by
  rw [jsNewTypedArray, wp_bind, wp_get]
  simp only [hbuffer, dif_pos hwhole]

@[simp] theorem wp_jsNewString {b : Bytes} {Q : JSValue → Rt → Prop} :
    wp (jsNewString b) s Q X ↔
      Q ⟨.string (newString b), s.fresh⟩ (s.owned (.string (newString b))) := Iff.rfl

@[simp] theorem wp_jsSetPropertyUint32 {obj : JSVal} {i : Nat} {v : JSValue}
    {Q : Unit → Rt → Prop} :
    wp (jsSetPropertyUint32 obj i v) s Q X ↔
      Q () { s.log (v.events .give) with heap := s.heap.update obj (·.setIndex i v.val) } := Iff.rfl

@[simp] theorem wp_jsSetPropertyStr {obj : JSVal} {prop : Bytes} {v : JSValue}
    {Q : Unit → Rt → Prop} :
    wp (jsSetPropertyStr obj prop v) s Q X ↔
      Q () { s.log (v.events .give) with
        heap := s.heap.update obj (·.setNamed (newString prop) v.val) } := Iff.rfl

end

end Ejr
