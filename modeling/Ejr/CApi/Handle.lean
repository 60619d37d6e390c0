import Ejr.CApi.Table
import Ejr.Registry
import Ejr.Trampoline
import Ejr.Engine.Context

/-!
# A handle and its calls

What an `EasyJSRHandle` leads to, the `EasyJSR` (src/ejr_cpp_api.cpp) with its
runtime and the `JSValueAD`, and the functions of the C API that work on it
(src/ejr_c_api.cpp). `Call` names the functions with what they are called with,
and `Handle.step` is one call on an open handle; runs of it are the sequences of
calls a C program makes.

Mirroring notes:
- Where the engine runs script code (`JS_Eval`, `JS_Call`, a property read), what
  the code does is up to the label: a `Completion` says what happens on the way
  (`Work`) and what the engine answers. Work that comes back to the bridge, a
  registered callback, `module_init` or `js_module_loader`, runs the bridge's
  own code.
- Names of functions and properties, and scripts, go to the engine unseen; what
  it makes of them is in the completion. `JSArg`s have been converted already
  (`Ejr.CApi.Convert`), and are not freed here.
- A callback answers from its arguments; what it answers may be different each
  time. It does not call the C API on the same handle.
- `stored`, `raised` and `read` are history: the references the table was given,
  what was thrown by the call that stored a reference, and which exceptions
  have been turned into text. No function looks at them.
- A call that does not return ends the process, and with it the run.
- A module value (`JS_TAG_MODULE`) is counted; it stands as an object here.
-/

namespace Ejr

open Lib

/-! ## The state -/

/-- `JSPromiseData`. A promise is settled with a value of script code, so never
with `JS_EXCEPTION`. -/
inductive PromiseState where
  | pending
  | fulfilled (value : JSVal) (h : value ≠ .exception)
  | rejected (reason : JSVal) (h : reason ≠ .exception)

/-- `promise_result`. -/
def PromiseState.result : PromiseState → JSVal
  | .pending => .undefined
  | .fulfilled value _ => value
  | .rejected reason _ => reason

/-- The `EasyJSR` and the `JSValueAD` of a handle. `functions` are the references
taken for the function objects, by their number; `closed` after `ejr_free`. -/
structure Handle (Cb : Type) where
  jsvad : JSValueAD
  rt : Rt
  promises : Addr → Option PromiseState
  global : Addr
  registry : Registry Cb
  functions : List JSValue
  closed : Bool
  stored : List JSValue
  raised : RefId → Option JSVal
  read : List RefId

/-- `ejr_new`, for a context with this heap and global object. -/
def Handle.new {Cb : Type} (self : UInt64) (heap : Heap) (global : Addr) : Handle Cb where
  jsvad := .new
  rt := ⟨heap, .uninitialized, [], 0⟩
  promises _ := none
  global := global
  registry := .new self
  functions := []
  closed := false
  stored := []
  raised _ := none
  read := []

/-- A program on a handle. -/
abbrev ApiM (Cb : Type) := EStateM Stop (Handle Cb)

variable {Cb : Type}

/-- A program on the runtime, run on the handle's. -/
def onRt {α : Type} (p : EngineM α) : ApiM Cb α := fun s =>
  match p s.rt with
  | .ok a t => .ok a { s with rt := t }
  | .error e t => .error e { s with rt := t }

theorem wp_onRt {α : Type} {p : EngineM α} {s : Handle Cb} {Q : α → Handle Cb → Prop}
    {X : Stop → Handle Cb → Prop} :
    wp (onRt p) s Q X ↔
      wp p s.rt (fun a t => Q a { s with rt := t }) (fun e t => X e { s with rt := t }) := by
  unfold wp onRt
  cases p s.rt <;> rfl

/-- A value somebody else holds the reference of. -/
def borrowed (v : JSVal) : JSValue := ⟨v, 0⟩

/-! ## What the engine does meanwhile -/

/-- What happens while script code runs: the code itself, up to the next call
of the bridge; a callback; a new module of its own; the load of an import; a
failed dynamic import, which takes a job of the engine (`EasyJSR` runs none); the
evaluation of a native module. -/
inductive Work (Cb : Type) where
  | script (heap : Heap) (pending : JSVal) (promises : Addr → Option PromiseState)
  | callback (depth : Nat) (fn : FnId) (argv : List JSVal) (answers : Cb → DynCallback)
  | newModule (name : Bytes)
  | load (moduleName contents : Bytes) (compiled : Outcome Addr)
  | failImport
  | moduleInit (m : DefId)

/-- A function made by `create_trampoline` is called; its result goes to the
engine. -/
def callFunction (depth : Nat) (fn : FnId) (argv : List JSVal) (answers : Cb → DynCallback) :
    ApiM Cb Unit := do
  let s ← get
  match s.registry.functions[fn]? with
  | some f => do
    let result ← onRt (trampoline depth (fun name => (s.registry.callbacks name).map answers)
      (borrowed (.string f.funcData1)) (argv.map borrowed))
    onRt (give result)
  | none => pure ()

/-- `JS_SetModuleExport` takes the reference over. -/
def setModuleExport (fn : FnId) : ApiM Cb Unit := do
  let s ← get
  match s.functions[fn]? with
  | some methodValue => onRt (give methodValue)
  | none => pure ()

/-- The loop of `module_init`. -/
def setModuleExports : List (Bytes × FnId) → ApiM Cb Unit
  | [] => pure ()
  | (_, fn) :: methods => do
    setModuleExport fn
    setModuleExports methods

/-- `module_init`, on a native definition that is evaluated for the first time. -/
def moduleInit (m : DefId) : ApiM Cb Unit := do
  let s ← get
  match s.registry.defs[m]? with
  | some d =>
    if d.native.isSome && d.resolved && !d.initialised then do
      setModuleExports (s.registry.initMethods d)
      modify fun s => { s with registry := s.registry.evaluate m d }
    else pure ()
  | none => pure ()

/-- The part of `js_module_loader` for a module that is not registered:
`contents` is what the file loader returned, `compiled` what `JS_Eval` makes of
it. Nothing is thrown for an empty file. -/
def loadFile (contents : Bytes) (compiled : Outcome Addr) : ApiM Cb Unit :=
  match contents with
  | [] => pure ()
  | _ => do
    match ← onRt (answer compiled) with
    | some a => do
      let funcVal ← onRt (own (.object a))
      onRt (jsFreeValue funcVal)
    | none => pure ()

/-- The load of an import that has not been loaded before. -/
def loadNew (moduleName contents : Bytes) (compiled : Outcome Addr) : ApiM Cb Unit := do
  let s ← get
  match s.registry.findLoaded (newString moduleName), s.registry.modules moduleName with
  | none, none => loadFile contents compiled
  | _, _ => pure ()

/-- The load of an import. -/
def loadModule (moduleName contents : Bytes) (compiled : Outcome Addr) : ApiM Cb Unit := do
  loadNew moduleName contents compiled
  modify fun s => { s with
    registry := s.registry.resolve moduleName (!contents.isEmpty && compiled.get?.isSome) }

/-- One piece of work. -/
def Work.run : Work Cb → ApiM Cb Unit
  | .script heap pending promises =>
    modify fun s => { s with rt := { s.rt with heap := heap, pending := pending }, promises := promises }
  | .callback depth fn argv answers => callFunction depth fn argv answers
  | .newModule name => modify fun s => { s with registry := s.registry.addFile name }
  | .load moduleName contents compiled => loadModule moduleName contents compiled
  | .failImport => modify fun s => { s with registry := s.registry.freeUnresolved }
  | .moduleInit m => Ejr.moduleInit m

/-- Work, piece after piece. -/
def runWork : List (Work Cb) → ApiM Cb Unit
  | [] => pure ()
  | w :: work => do
    w.run
    runWork work

/-- What a call of the engine comes to: the work on the way and the answer. -/
structure Completion (Cb : Type) where
  work : List (Work Cb)
  result : Outcome JSVal

/-- What was thrown. -/
def Outcome.thrown {α : Type} : Outcome α → Option JSVal
  | .throws e => some e
  | _ => none

/-- A call of the engine that runs script code. -/
def engine (c : Completion Cb) : ApiM Cb JSValue := do
  runWork c.work
  let r ← onRt (answer c.result)
  onRt (own (r.getD .exception))

/-! ## `EasyJSR` -/

namespace EasyJSR

/-- `free_jsval`. -/
def freeJsval (value : JSValue) : EngineM Unit :=
  match value.val with
  | .exception => pure ()
  | _ => jsFreeValue value

/-- `free_jsvals`. -/
def freeJsvals : List JSValue → EngineM Unit
  | [] => pure ()
  | value :: values => do
    freeJsval value
    freeJsvals values

/-- An exception is not counted: leaving it alone is what `JS_FreeValue` does. -/
theorem wp_freeJsval {value : JSValue} {s : Rt} {Q : Unit → Rt → Prop} {X : Stop → Rt → Prop} :
    wp (freeJsval value) s Q X ↔ Q () (s.log (value.events .free)) := by
  unfold freeJsval
  split
  next h =>
    show Q () s ↔ _
    simp [Rt.log, JSValue.events, h, JSVal.hasRefCount]
  next => exact wp_jsFreeValue

theorem wp_freeJsvals {s : Rt} {Q : Unit → Rt → Prop} {X : Stop → Rt → Prop} :
    ∀ {values : List JSValue},
      wp (freeJsvals values) s Q X ↔ Q () (s.log (values.flatMap (·.events .free)))
  | [] => by
    show Q () s ↔ _
    simp [Rt.log]
  | value :: values => by
    rw [freeJsvals, wp_bind, wp_freeJsval, wp_freeJsvals, List.flatMap_cons]
    simp only [Rt.log, List.append_assoc]

/-- `clean_js_value`. -/
def cleanJsValue (value : JSValue) : EngineM (JSValue × Bool) :=
  match value.val with
  | .exception => do
    let jsException ← jsGetException
    pure (jsException, true)
  | _ => pure (value, false)

/-- `c_string` of `val_to_string`. -/
def cStringOf (cleanedValue : JSValue) : EngineM (Option CString) :=
  match cleanedValue.val with
  | .string _ => jsToCString cleanedValue.val
  | _ => do
    let jsString ← jsToString cleanedValue.val
    let cString ← jsToCString jsString.val
    freeJsval jsString
    pure cString

/-- `if (b) this->free_jsval(value)`. -/
def freeJsvalIf (b : Bool) (value : JSValue) : EngineM Unit :=
  match b with
  | true => freeJsval value
  | false => pure ()

/-- `val_to_string`. -/
def valToString (value : JSValue) (free : Bool) : EngineM Bytes := do
  let (cleanedValue, isException) ← cleanJsValue value
  let cString ← cStringOf cleanedValue
  freeJsvalIf isException cleanedValue
  freeJsvalIf free value
  let valueString ← stdString cString
  jsFreeCString cString
  pure valueString

/-- `eval`, `eval_script` and `eval_module`. -/
def eval (c : Completion Cb) : ApiM Cb JSValue := engine c

/-- The loop `js_args.push_back(to_js(ctx, arg))`. -/
def toJsArgs : List JSArg → EngineM (List JSValue)
  | [] => pure []
  | arg :: args => do
    let v ← toJs arg
    let jsArgs ← toJsArgs args
    pure (v :: jsArgs)

/-- `eval_class_function`: `getFunction` is `JS_GetPropertyStr` of the object,
`call` is `JS_Call`. -/
def evalClassFunction (args : List JSArg) (getFunction call : Completion Cb) :
    ApiM Cb JSValue := do
  let function ← engine getFunction
  let jsArgs ← onRt (toJsArgs args)
  let result ← engine call
  onRt (freeJsval function)
  onRt (freeJsvals jsArgs)
  pure result

/-- `eval_function`. -/
def evalFunction (args : List JSArg) (getFunction call : Completion Cb) : ApiM Cb JSValue := do
  let s ← get
  let global ← onRt (own (.object s.global))
  let result ← evalClassFunction args getFunction call
  onRt (freeJsval global)
  pure result

/-- `get_from_global`. -/
def getFromGlobal (c : Completion Cb) : ApiM Cb JSValue := do
  let s ← get
  let global ← onRt (own (.object s.global))
  let val ← engine c
  onRt (freeJsval global)
  pure val

/-- `get_property_from`. -/
def getPropertyFrom (c : Completion Cb) : ApiM Cb JSValue := engine c

/-- `JS_PromiseResult`: no job is run. -/
def promiseResult (s : Handle Cb) : JSVal → JSVal
  | .object a => ((s.promises a).map PromiseState.result).getD .undefined
  | _ => .undefined

/-- `await_promise`. -/
def awaitPromise (value : JSValue) : ApiM Cb JSValue := do
  let s ← get
  onRt (own (promiseResult s value.val))

/-- `JS_NewCFunctionData`, which keeps references of its own to the function
data. -/
def newFunctionData : EngineM JSValue := do
  let s ← get
  set { s with heap := { s.heap.set s.heap.next Obj.plain with next := s.heap.next + 1 } }
  own (.object s.heap.next)

/-- `create_trampoline`. -/
def createTrampoline (t : Target) (cb : Cb) : ApiM Cb JSValue := do
  let s ← get
  let _funcData0 ← onRt (own (.shortBigInt (Int64.ofNat s.registry.self.toNat)))
  let _funcData1 ← onRt (jsNewString t.cbName)
  let fn ← onRt newFunctionData
  modify fun s => { s with
    registry := s.registry.createTrampoline t cb
    functions := s.functions ++ [fn] }
  pure fn

/-- `register_callback`: `JS_SetPropertyStr` takes the function over, and may
find a setter. -/
def registerCallback (fnName : Bytes) (callback : Cb) (setProperty : List (Work Cb)) :
    ApiM Cb Unit := do
  let s ← get
  let global ← onRt (own (.object s.global))
  let fn ← createTrampoline (.global fnName) callback
  onRt (give fn)
  runWork setProperty
  onRt (freeJsval global)

/-- `JS_AddModuleExport`, on a definition with these exports. A name that is one of
them is not added but thrown; `register_module` does not look at the answer, and
leaves the error pending. -/
def jsAddModuleExport (exports : List JSString) (exportName : Bytes) :
    EngineM (List JSString) :=
  if newString exportName ∈ exports then do
    jsThrow (.nativeError (.duplicateExportedName (newString exportName)))
    pure exports
  else
    pure (exports ++ [newString exportName])

/-- The loop of `register_module`, on a definition with these exports. -/
def createMethods (moduleName : Bytes) :
    List JSString → List (Bytes × Cb) → ApiM Cb (List (Bytes × FnId))
  | _, [] => pure []
  | exports, (name, callback) :: methods => do
    let s ← get
    let exports ← onRt (jsAddModuleExport exports name)
    let _fn ← createTrampoline (.method moduleName name) callback
    let moduleMethods ← createMethods moduleName exports methods
    pure ((name, s.registry.functions.length) :: moduleMethods)

/-- `register_module`: the functions stay in `methods_by_module`. -/
def registerModule (moduleName : Bytes) (methods : List (Bytes × Cb)) : ApiM Cb Unit := do
  let moduleMethods ← createMethods moduleName [] methods
  modify fun s => { s with registry := { s.registry with
    methodsByModule := Function.update s.registry.methodsByModule moduleName moduleMethods
    modules := Function.update s.registry.modules moduleName (some s.registry.defs.length)
    defs := s.registry.defs ++ [⟨newString (mangledName s.registry.self moduleName),
      some ⟨moduleName, moduleMethods⟩, false, false, false⟩] } }

end EasyJSR

/-! ## The C API -/

open EasyJSR

/-- `add_value`, on the handle's table; `thrown` is kept as history. -/
def addValue (value : JSValue) (thrown : Option JSVal) : ApiM Cb Int32 := do
  let s ← get
  set { s with
    jsvad := s.jsvad.addValue value
    stored := s.stored ++ [value]
    raised := Function.update s.raised value.ref thrown }
  pure s.jsvad.nextId

/-- `ejr_eval_script`. -/
def ejrEvalScript (c : Completion Cb) : ApiM Cb Int32 := do
  let value ← eval c
  addValue value c.result.thrown

/-- `ejr_eval_module`. -/
def ejrEvalModule (c : Completion Cb) : ApiM Cb Int32 := do
  let value ← eval c
  match value.val with
  | .exception => addValue value c.result.thrown
  | _ => do
    let promiseResult ← awaitPromise value
    onRt (freeJsval value)
    addValue promiseResult none

/-- `ejr_eval_function`, for converted arguments. -/
def ejrEvalFunction (args : List JSArg) (getFunction call : Completion Cb) : ApiM Cb Int32 := do
  let value ← evalFunction args getFunction call
  addValue value call.result.thrown

/-- `ejr_eval_class_function`, for converted arguments. -/
def ejrEvalClassFunction (valueId : Int32) (args : List JSArg) (getFunction call : Completion Cb) :
    ApiM Cb Int32 := do
  let s ← get
  match (s.jsvad.get valueId).val with
  | .undefined => pure (-1)
  | _ => do
    let value ← evalClassFunction args getFunction call
    addValue value call.result.thrown

/-- `ejr_get_property_from`. -/
def ejrGetPropertyFrom (valueId : Int32) (c : Completion Cb) : ApiM Cb Int32 := do
  let s ← get
  match (s.jsvad.get valueId).val with
  | .undefined => pure (-1)
  | _ => do
    let value ← getPropertyFrom c
    addValue value c.result.thrown

/-- `ejr_get_from_global`. -/
def ejrGetFromGlobal (c : Completion Cb) : ApiM Cb Int32 := do
  let value ← getFromGlobal c
  addValue value c.result.thrown

/-- `ejr_await_promise`. -/
def ejrAwaitPromise (valueId : Int32) : ApiM Cb Int32 := do
  let s ← get
  let promiseResult ← awaitPromise (s.jsvad.get valueId)
  addValue promiseResult none

/-- `ejr_val_to_string`: the characters before the terminator, `none` for
NULL. -/
def ejrValToString (valueId : Int32) : ApiM Cb (Option Bytes) := do
  let s ← get
  let value := s.jsvad.get valueId
  match value.val with
  | .undefined => pure none
  | _ => do
    let str ← onRt (valToString value false)
    modify fun s => { s with read := s.read ++ [value.ref] }
    pure (some (cstr str))

/-- `jsarg_from_jsvalue`, before the result is converted for C. The bound on the
depth is the model's. -/
def jsargFromJsvalue (depth : Nat) (value : Int32) : ApiM Cb JSArg :=
  if value < 0 then pure .null
  else do
    let s ← get
    onRt (fromJs depth (s.jsvad.get value) true)

/-- `ejr_free_jsvalue`. -/
def ejrFreeJsvalue (valueId : Int32) : ApiM Cb Unit := do
  let s ← get
  let (value, jsvad) := s.jsvad.freeValue valueId
  onRt (freeJsvals value.toList)
  modify fun s => { s with jsvad := jsvad }

/-- `ejr_free`: the table, and the instance with its context. -/
def ejrFree : ApiM Cb Unit := do
  let s ← get
  let (values, jsvad) := s.jsvad.free
  onRt (freeJsvals values)
  modify fun s => { s with jsvad := jsvad, closed := true }

/-! ## Runs -/

/-- The functions of the C API, with what they are called with and what the
engine makes of it. -/
inductive Call (Cb : Type) where
  | evalScript (c : Completion Cb)
  | evalModule (c : Completion Cb)
  | evalFunction (args : List JSArg) (getFunction call : Completion Cb)
  | evalClassFunction (valueId : Int32) (args : List JSArg) (getFunction call : Completion Cb)
  | getPropertyFrom (valueId : Int32) (c : Completion Cb)
  | getFromGlobal (c : Completion Cb)
  | awaitPromise (valueId : Int32)
  | valToString (valueId : Int32)
  | jsargFromJsvalue (depth : Nat) (value : Int32)
  | freeJsvalue (valueId : Int32)
  | registerCallback (fnName : Bytes) (cb : Cb) (setProperty : List (Work Cb))
  | registerModule (moduleName : Bytes) (methods : List (Bytes × Cb))
  | free

/-- What a call returns. -/
inductive Answer where
  | id (i : Int32)
  | text (s : Option Bytes)
  | arg (a : JSArg)
  | done

/-- A call, run. -/
def Call.run : Call Cb → ApiM Cb Answer
  | .evalScript c => .id <$> ejrEvalScript c
  | .evalModule c => .id <$> ejrEvalModule c
  | .evalFunction args getFunction call => .id <$> ejrEvalFunction args getFunction call
  | .evalClassFunction valueId args getFunction call =>
    .id <$> ejrEvalClassFunction valueId args getFunction call
  | .getPropertyFrom valueId c => .id <$> ejrGetPropertyFrom valueId c
  | .getFromGlobal c => .id <$> ejrGetFromGlobal c
  | .awaitPromise valueId => .id <$> ejrAwaitPromise valueId
  | .valToString valueId => .text <$> ejrValToString valueId
  | .jsargFromJsvalue depth value => .arg <$> Ejr.jsargFromJsvalue depth value
  | .freeJsvalue valueId => (fun _ => .done) <$> ejrFreeJsvalue valueId
  | .registerCallback fnName cb setProperty =>
    (fun _ => .done) <$> EasyJSR.registerCallback fnName cb setProperty
  | .registerModule moduleName methods =>
    (fun _ => .done) <$> EasyJSR.registerModule moduleName methods
  | .free => (fun _ => .done) <$> ejrFree

/-- One call on an open handle that returns. -/
inductive Handle.step : Handle Cb → Call Cb → Handle Cb → Prop where
  | returns {s t : Handle Cb} {l : Call Cb} {a : Answer} (hopen : s.closed = false)
      (h : l.run s = .ok a t) : Handle.step s l t

end Ejr
