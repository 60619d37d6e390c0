import Mathlib.Logic.Function.Basic
import Ejr.ModuleName

/-!
# Registrations and module definitions

The members of `EasyJSR` that registrations write and module loading reads
(`callbacks`, `methods_by_module`, `modules`), next to what QuickJS keeps of
them: the function objects `create_trampoline` has made and the module
definitions. `Registry.step` is one registration, one load, one resolution of
an import, one failed import or one evaluation, in any order.

Mirroring notes:
- A function object is the number of its creation; wherever script code keeps
  it, what it runs depends on its function data alone. `target` says what it
  was made for: history that no modelled function reads, like `registered`.
- `methods_by_module` is total: `operator[]` creates an empty entry.
- `freed` is `js_free_modules(JS_FREE_MODULE_NOT_RESOLVED)`, which a
  failed dynamic import calls: the definitions no import has been resolved to
  are freed, while `modules` keeps pointing at them. `import()` runs as a job of
  the engine, and `EasyJSR` runs none; the step is there for a program that does.
- Exports are declared under the names of the methods; a name declared twice is
  declared once, and the value set last stays.
-/

namespace Ejr

open Lib

/-! ## What is registered -/

/-- What a function is registered for: a global property, or an export of a
module. -/
inductive Target where
  | global (fnName : Bytes)
  | method (moduleName methodName : Bytes)
  deriving DecidableEq, Repr

/-- The name `create_trampoline` is given: `fn_name`, or
`"__" + module_name + "_" + method.name`. -/
def Target.cbName : Target → Bytes
  | .global fnName => fnName
  | .method moduleName methodName => ascii "__" ++ moduleName ++ ascii "_" ++ methodName

/-- The number of a function object. -/
abbrev FnId := Nat

/-- The number of a module definition. -/
abbrev DefId := Nat

/-- A function object: `func_data[1]`, and what it was made for. -/
structure FnObject where
  funcData1 : JSString
  target : Target

/-- The name the trampoline looks its callback up under. -/
def FnObject.cbName (f : FnObject) : Bytes := cstr (toCStringLen f.funcData1)

/-- What `register_module` made a definition from: the module's name and the
functions for its methods. -/
structure Registration where
  moduleName : Bytes
  methods : List (Bytes × FnId)
  deriving DecidableEq

/-- A module definition; `native` when `register_module` made it. -/
structure ModuleDef where
  name : JSString
  native : Option Registration
  resolved : Bool
  initialised : Bool
  freed : Bool
  deriving DecidableEq

/-- The functions made for a definition, by export name. -/
def ModuleDef.methods (d : ModuleDef) : List (Bytes × FnId) :=
  match d.native with
  | some r => r.methods
  | none => []

/-- `EasyJSR`, at the address `self`, and its context. `exported` are the calls
of `JS_SetModuleExport`. -/
structure Registry (Cb : Type) where
  self : UInt64
  callbacks : Bytes → Option Cb
  methodsByModule : Bytes → List (Bytes × FnId)
  modules : Bytes → Option DefId
  functions : List FnObject
  defs : List ModuleDef
  exported : List (DefId × Bytes × FnId)
  registered : List (Target × Cb)

namespace Registry

variable {Cb : Type}

/-- Nothing registered yet. -/
def new (self : UInt64) : Registry Cb where
  self := self
  callbacks _ := none
  methodsByModule _ := []
  modules _ := none
  functions := []
  defs := []
  exported := []
  registered := []

/-! ## Registering -/

/-- `create_trampoline`; the function is number `functions.length`. -/
def createTrampoline (s : Registry Cb) (t : Target) (cb : Cb) : Registry Cb :=
  { s with
    callbacks := Function.update s.callbacks t.cbName (some cb)
    functions := s.functions ++ [⟨newString t.cbName, t⟩]
    registered := s.registered ++ [(t, cb)] }

/-- `register_callback`. -/
def registerCallback (s : Registry Cb) (fnName : Bytes) (callback : Cb) : Registry Cb :=
  s.createTrampoline (.global fnName) callback

/-- The loop of `register_module`, with `module_methods`. -/
def createMethods (moduleName : Bytes) :
    Registry Cb → List (Bytes × Cb) → Registry Cb × List (Bytes × FnId)
  | s, [] => (s, [])
  | s, (name, callback) :: rest =>
    let fn := s.functions.length
    let r := createMethods moduleName (s.createTrampoline (.method moduleName name) callback) rest
    (r.1, (name, fn) :: r.2)

/-- `register_module`. -/
def registerModule (s : Registry Cb) (moduleName : Bytes) (methods : List (Bytes × Cb)) :
    Registry Cb :=
  let (s', moduleMethods) := createMethods moduleName s methods
  { s' with
    methodsByModule := Function.update s'.methodsByModule moduleName moduleMethods
    modules := Function.update s'.modules moduleName (some s'.defs.length)
    defs := s'.defs ++ [⟨newString (mangledName s.self moduleName),
      some ⟨moduleName, moduleMethods⟩, false, false, false⟩] }

/-! ## Loading -/

/-- `js_new_module_def`, for a file. -/
def newModuleDef (s : Registry Cb) (name : Bytes) : Registry Cb :=
  { s with defs := s.defs ++ [⟨newString name, none, false, false, false⟩] }

/-- A module compiled from a file under a name; `JS_Eval` has resolved it, too. -/
def addFile (s : Registry Cb) (name : Bytes) : Registry Cb :=
  { s with defs := s.defs ++ [⟨newString name, none, true, false, false⟩] }

/-- `js_find_loaded_module`. -/
def findLoaded (s : Registry Cb) (name : JSString) : Option DefId :=
  s.defs.findIdx? fun d => !d.freed && d.name == name

/-- `js_module_loader`; `loads` when the file can be loaded and compiled. -/
def jsModuleLoader (s : Registry Cb) (moduleName : Bytes) (loads : Bool) :
    Registry Cb × Option DefId :=
  match s.modules moduleName, loads with
  | some m, _ => (s, some m)
  | none, true => (s.addFile moduleName, some s.defs.length)
  | none, false => (s, none)

/-- An import keeps what it was resolved to. -/
def bind (s : Registry Cb) (m : DefId) : Registry Cb :=
  { s with defs := s.defs.modify m fun d => { d with resolved := true } }

/-- `js_host_resolve_imported_module`, for a normalized name. -/
def resolve (s : Registry Cb) (cname : Bytes) (loads : Bool) : Registry Cb :=
  match s.findLoaded (newString cname) with
  | some m => s.bind m
  | none =>
    match s.jsModuleLoader cname loads with
    | (s', some m) => s'.bind m
    | (s', none) => s'

/-- `js_free_modules` after a failed dynamic import (`JS_LoadModuleInternal`), which
only happens where the jobs of the engine are run. -/
def freeUnresolved (s : Registry Cb) : Registry Cb :=
  { s with defs := s.defs.map fun d => { d with freed := d.freed || !d.resolved } }

/-! ## Evaluating -/

/-- The functions `module_init` finds for a definition: nothing when the
definition's memory is gone, or its name cannot be decoded. -/
def initMethods (s : Registry Cb) (d : ModuleDef) : List (Bytes × FnId) :=
  if d.freed then []
  else
    match decodeName (cstr (toCStringLen d.name)) with
    | some (ptr, realModName) => if ptr = s.self then s.methodsByModule realModName else []
    | none => []

/-- `module_init` on a definition, from `js_execute_sync_module`. -/
def evaluate (s : Registry Cb) (m : DefId) (d : ModuleDef) : Registry Cb :=
  { s with
    defs := s.defs.set m { d with initialised := true }
    exported := s.exported ++ (s.initMethods d).map fun e => (m, e) }

/-! ## Runs -/

/-- What can happen: registrations, a script's own module, the resolution of an
import, a failed dynamic import (in a job, and no function of `EasyJSR` runs
jobs), the evaluation of a native module. -/
inductive Op (Cb : Type) where
  | registerCallback (fnName : Bytes) (callback : Cb)
  | registerModule (moduleName : Bytes) (methods : List (Bytes × Cb))
  | evalModule (fileName : Bytes)
  | resolve (cname : Bytes) (loads : Bool)
  | failImport
  | evaluate (m : DefId)

/-- One step. A native definition is evaluated once, after an import has been
resolved to it. -/
inductive step : Registry Cb → Op Cb → Registry Cb → Prop where
  | registerCallback (s : Registry Cb) (fnName : Bytes) (callback : Cb) :
      step s (.registerCallback fnName callback) (s.registerCallback fnName callback)
  | registerModule (s : Registry Cb) (moduleName : Bytes) (methods : List (Bytes × Cb)) :
      step s (.registerModule moduleName methods) (s.registerModule moduleName methods)
  | evalModule (s : Registry Cb) (fileName : Bytes) :
      step s (.evalModule fileName) (s.addFile fileName)
  | resolve (s : Registry Cb) (cname : Bytes) (loads : Bool) :
      step s (.resolve cname loads) (s.resolve cname loads)
  | failImport (s : Registry Cb) : step s .failImport s.freeUnresolved
  | evaluate (s : Registry Cb) {m : DefId} {d : ModuleDef} (hd : s.defs[m]? = some d)
      (hnative : d.native.isSome = true) (hresolved : d.resolved = true)
      (hinit : d.initialised = false) : step s (.evaluate m) (s.evaluate m d)

/-! ## What the steps leave alone -/

theorem createMethods_frame (moduleName : Bytes) : ∀ (s : Registry Cb) (ms : List (Bytes × Cb)),
    (createMethods moduleName s ms).1.self = s.self ∧
    (createMethods moduleName s ms).1.methodsByModule = s.methodsByModule ∧
    (createMethods moduleName s ms).1.modules = s.modules ∧
    (createMethods moduleName s ms).1.defs = s.defs ∧
    (createMethods moduleName s ms).1.exported = s.exported
  | _, [] => ⟨rfl, rfl, rfl, rfl, rfl⟩
  | s, (name, cb) :: rest =>
    createMethods_frame moduleName (s.createTrampoline (.method moduleName name) cb) rest

/-- Loading, resolving and evaluating modules concerns definitions only. -/
theorem resolve_frame (s : Registry Cb) (cname : Bytes) (loads : Bool) :
    (s.resolve cname loads).callbacks = s.callbacks ∧
    (s.resolve cname loads).functions = s.functions ∧
    (s.resolve cname loads).registered = s.registered := by
  unfold resolve
  split
  next => exact ⟨rfl, rfl, rfl⟩
  next =>
    unfold jsModuleLoader
    cases s.modules cname with
    | some m => exact ⟨rfl, rfl, rfl⟩
    | none => cases loads <;> exact ⟨rfl, rfl, rfl⟩

/-- What is in a list with one definition more. -/
theorem getElem?_snoc {α : Type} {l : List α} {a b : α} {m : Nat}
    (h : (l ++ [a])[m]? = some b) : l[m]? = some b ∨ m = l.length ∧ b = a := by
  rcases Nat.lt_or_ge m l.length with hlt | hge
  · rw [List.getElem?_append_left hlt] at h
    exact Or.inl h
  · rw [List.getElem?_append_right hge] at h
    have hm : m - l.length = 0 := by
      by_cases h0 : m - l.length = 0
      · exact h0
      · rw [List.getElem?_cons, if_neg h0] at h
        exact absurd h (by simp)
    rw [hm] at h
    exact Or.inr ⟨by omega, (Option.some.inj h).symm⟩

end Registry

end Ejr
