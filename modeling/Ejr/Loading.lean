import Ejr.Imports
import Ejr.Lib.Wp

/-!
# Loading what a module imports

QuickJS loads the modules that a module imports when it compiles it:
`js_resolve_module` takes the requests of a module one after the other,
`js_module_loader` asks the file loader for those nobody has got yet, and
compiling what it answers resolves the next module in turn. This file has the
whole recursion, with any file loader and any import graph: cycles, missing
files, files that do not compile. `load_asks` says what one load asks the file
loader for: never twice for one name, never for a name that is loaded or
registered, and nothing more after the first file that cannot be had, which is
the one thing that makes it fail.

Mirroring notes:
- What the file loader answers may depend on everything it has been asked
  before. The parser is a parameter: a syntax error, or the specifiers that the
  file imports, in order.
- A definition is on `loaded_modules` from the start of its compilation, and it
  is marked as resolved before its requests are.
- A compilation that fails gives up its definition; those it has loaded in the
  meantime stay.
- A definition whose memory is gone is not looked at (`LoadStop.freed`); the
  recursion goes as deep as the stack allows (`LoadStop.stack`).
-/

namespace Ejr

open Lib

variable {Cb : Type}

/-! ## The state -/

/-- `JSReqModuleEntry`; `moduleDef`, its `module`, is null until it has been resolved. -/
structure ReqModuleEntry where
  moduleName : JSString
  moduleDef : Option DefId
  deriving DecidableEq

/-- What loading works on: the registry, the requests of every definition, and
what the file loader has been asked for, with its answers. -/
structure Loading (Cb : Type) where
  registry : Registry Cb
  reqModuleEntries : DefId → List ReqModuleEntry
  asked : List (Bytes × Bytes)

/-- `file_loader_fn` with what it has been asked for and has answered so far, and
the parser: the specifiers that a file imports. -/
structure Host where
  loadFile : List (Bytes × Bytes) → Bytes → Bytes
  compile : Bytes → Bytes → Option (List JSString)

/-- How loading can stop the process. -/
inductive LoadStop where
  | stack
  | freed
  deriving DecidableEq

/-- A program that loads. -/
abbrev LoadM (Cb : Type) := EStateM LoadStop (Loading Cb)

namespace Loading

/-! ## The functions -/

/-- `js_new_module_def`. -/
def newModuleDef (name : Bytes) : LoadM Cb DefId := do
  let s ← get
  set { s with registry := s.registry.newModuleDef name }
  return s.registry.defs.length

/-- `JS_FreeValue` of the last reference to a definition. -/
def freeModuleDef (m : DefId) : LoadM Cb Unit :=
  modify fun s => { s with
    registry := { s.registry with
      defs := s.registry.defs.modify m fun d => { d with freed := true } } }

/-- `js_free_modules` of those that have not been resolved. -/
def freeModules : LoadM Cb Unit := modify fun s => { s with registry := s.registry.freeUnresolved }

/-- `add_req_module_entry`, for all the imports of a file. -/
def addReqModuleEntries (m : DefId) (requests : List JSString) : LoadM Cb Unit :=
  modify fun s => { s with
    reqModuleEntries := Function.update s.reqModuleEntries m (requests.map fun r => ⟨r, none⟩) }

/-- `rme->module = m1`. -/
def setModule (m : DefId) (i : Nat) (m1 : DefId) : LoadM Cb Unit :=
  modify fun s => { s with
    reqModuleEntries := Function.update s.reqModuleEntries m
      ((s.reqModuleEntries m).modify i fun rme => { rme with moduleDef := some m1 }) }

/-- `m->resolved = TRUE`. -/
def setResolved (m : DefId) : LoadM Cb Unit :=
  modify fun s => { s with registry := s.registry.bind m }

/-- What `m` points to, unless its memory is gone. -/
def derefModule (m : DefId) : LoadM Cb ModuleDef := do
  let s ← get
  match s.registry.defs[m]? with
  | some d => if d.freed then throw .freed else pure d
  | none => throw .freed

/-- `EasyJSR::load_file`. -/
def loadFile (host : Host) (filePath : Bytes) : LoadM Cb Bytes := do
  let s ← get
  let contents := host.loadFile s.asked filePath
  set { s with asked := s.asked ++ [(filePath, contents)] }
  return contents

section

variable (host : Host) (resolve : DefId → LoadM Cb Bool)

/-- `__JS_EvalInternal` of a module that has been parsed, up to its evaluation; null
for an exception. -/
def resolveParsed (m : DefId) (requests : List JSString) : LoadM Cb (Option DefId) := do
  addReqModuleEntries m requests
  if ← resolve m then pure (some m)
  else do
    freeModuleDef m
    pure none

/-- `JS_Eval` of a module up to its evaluation. -/
def compileModule (fileName contents : Bytes) : LoadM Cb (Option DefId) := do
  let m ← newModuleDef fileName
  match host.compile fileName contents with
  | none => do
    freeModuleDef m
    pure none
  | some requests => resolveParsed resolve m requests

/-- `js_module_loader`. -/
def jsModuleLoader (moduleName : Bytes) : LoadM Cb (Option DefId) := do
  let s ← get
  match s.registry.modules moduleName with
  | some m => pure (some m)
  | none => do
    let contents ← loadFile host moduleName
    -- a size of 0 means that there was an error
    if contents = [] then pure none
    else compileModule host resolve moduleName contents

/-- `js_host_resolve_imported_module`. -/
def hostResolveImportedModule (base specifier : JSString) : LoadM Cb (Option DefId) := do
  let s ← get
  let cname := importName base specifier
  match s.registry.findLoaded (newString cname) with
  | some m => pure (some m)
  | none => jsModuleLoader host resolve cname

/-- The loop of `js_resolve_module` over the requests from number `i` on. -/
def resolveEntries (m : DefId) (base : JSString) : Nat → List JSString → LoadM Cb Bool
  | _, [] => pure true
  | i, moduleName :: rest => do
    match ← hostResolveImportedModule host resolve base moduleName with
    | none => pure false
    | some m1 => do
      setModule m i m1
      if ← resolve m1 then resolveEntries m base (i + 1) rest else pure false

end

/-- `js_resolve_module`. -/
def resolveModule (host : Host) : Nat → DefId → LoadM Cb Bool
  | 0, _ => throw .stack
  | n + 1, m => do
    let d ← derefModule m
    if d.resolved then pure true
    else do
      setResolved m
      let s ← get
      resolveEntries host (resolveModule host n) m d.name 0
        ((s.reqModuleEntries m).map ReqModuleEntry.moduleName)

/-- What makes modules load: a dynamic import, which is a job of the engine (`EasyJSR`
runs none), and the evaluation of a script as a module. -/
inductive Load where
  | importModule (base specifier : JSString)
  | evalModule (fileName contents : Bytes)

/-- A load, up to the evaluation of what it has loaded. -/
def Load.run (host : Host) (n : Nat) : Load → LoadM Cb (Option DefId)
  | .importModule base specifier => do
    match ← hostResolveImportedModule host (resolveModule host n) base specifier with
    | none => pure none
    | some m =>
      if ← resolveModule host n m then pure (some m)
      else do
        freeModules
        pure none
  | .evalModule fileName contents =>
    compileModule host (resolveModule host n) fileName contents

/-- The script itself can be compiled. -/
def Load.Parses (host : Host) : Load → Prop
  | .importModule _ _ => True
  | .evalModule fileName contents => (host.compile fileName contents).isSome = true

/-! ## Names that are taken -/

/-- A module with this name is on the list. -/
def Loaded (s : Loading Cb) (own : JSString) : Prop :=
  ∃ (m : DefId) (d : ModuleDef), s.registry.defs[m]? = some d ∧ d.freed = false ∧ d.name = own

theorem findLoaded_eq_none_iff {s : Loading Cb} {own : JSString} :
    s.registry.findLoaded own = none ↔ ¬s.Loaded own := by
  rw [Registry.findLoaded_eq_none]
  constructor
  · intro h hloaded
    obtain ⟨m, d, hd, hfreed, hname⟩ := hloaded
    exact h d (List.mem_of_getElem? hd) hfreed hname
  · intro h d hmem hfreed hname
    obtain ⟨m, hd⟩ := List.getElem?_of_mem hmem
    exact h ⟨m, d, hd, hfreed, hname⟩

/-- Neither a module nor a registration has the name. -/
structure Missing (s : Loading Cb) (name : Bytes) : Prop where
  notLoaded : ¬s.Loaded (newString name)
  notRegistered : s.registry.modules name = none

/-- What is loaded stays loaded. -/
structure Kept (s t : Loading Cb) : Prop where
  modules : t.registry.modules = s.registry.modules
  loaded : ∀ own, s.Loaded own → t.Loaded own

theorem Kept.refl (s : Loading Cb) : s.Kept s := ⟨rfl, fun _ h => h⟩

theorem Kept.trans {s t u : Loading Cb} (h : s.Kept t) (h' : t.Kept u) : s.Kept u :=
  ⟨h'.modules.trans h.modules, fun own ho => h'.loaded own (h.loaded own ho)⟩

theorem Missing.before {s t : Loading Cb} {name : Bytes} (h : t.Missing name) (hst : s.Kept t) :
    s.Missing name :=
  ⟨fun hl => h.notLoaded (hst.loaded _ hl), hst.modules ▸ h.notRegistered⟩

/-! ## What is asked -/

/-- The file loader's answer is a module. -/
def Compiles (host : Host) (e : Bytes × Bytes) : Prop :=
  e.2 ≠ [] ∧ (host.compile e.1 e.2).isSome = true

/-- Asked in between: this, no name twice, and only for names that were missing. -/
structure Asks (s t : Loading Cb) (log : List (Bytes × Bytes)) : Prop where
  asked : t.asked = s.asked ++ log
  distinct : (log.map fun e => newString e.1).Nodup
  missing : ∀ e ∈ log, s.Missing e.1

/-- A load that goes well: everything it has asked for is a module, and loaded. -/
structure GoesWell (host : Host) (s t : Loading Cb) (log : List (Bytes × Bytes)) : Prop
    extends Asks s t log where
  kept : s.Kept t
  compiles : ∀ e ∈ log, Compiles host e
  loaded : ∀ e ∈ log, t.Loaded (newString e.1)

/-- A load that fails: at the last thing it has asked for. -/
structure Fails (host : Host) (s t : Loading Cb) (log : List (Bytes × Bytes)) : Prop
    extends Asks s t log where
  last : ∃ init e, log = init ++ [e] ∧ (∀ e ∈ init, Compiles host e) ∧ ¬Compiles host e

/-- A load that stops the process. -/
structure Stops (host : Host) (s t : Loading Cb) (log : List (Bytes × Bytes)) : Prop
    extends Asks s t log where
  compiles : ∀ e ∈ log, Compiles host e

section

variable {host : Host} {s t u : Loading Cb} {log log' : List (Bytes × Bytes)}

/-- What is asked after a load that went well. -/
theorem GoesWell.asks (h : GoesWell host s t log) (h' : Asks t u log') :
    Asks s u (log ++ log') where
  asked := by rw [h'.asked, h.asked, List.append_assoc]
  distinct := by
    rw [List.map_append, List.nodup_append]
    refine ⟨h.distinct, h'.distinct, fun a ha b hb hab => ?_⟩
    obtain ⟨e, he, rfl⟩ := List.mem_map.mp ha
    obtain ⟨e', he', rfl⟩ := List.mem_map.mp hb
    -- what has been asked for before is loaded by now
    exact (h'.missing e' he').notLoaded (hab ▸ h.loaded e he)
  missing := by
    intro e he
    rcases List.mem_append.mp he with he | he
    · exact h.missing e he
    · exact (h'.missing e he).before h.kept

theorem GoesWell.trans (h : GoesWell host s t log) (h' : GoesWell host t u log') :
    GoesWell host s u (log ++ log') where
  toAsks := h.asks h'.toAsks
  kept := h.kept.trans h'.kept
  compiles := List.forall_mem_append.mpr ⟨h.compiles, h'.compiles⟩
  loaded := List.forall_mem_append.mpr
    ⟨fun e he => h'.kept.loaded _ (h.loaded e he), h'.loaded⟩

theorem GoesWell.fails (h : GoesWell host s t log) (h' : Fails host t u log') :
    Fails host s u (log ++ log') where
  toAsks := h.asks h'.toAsks
  last := by
    obtain ⟨init, e, rfl, hinit, he⟩ := h'.last
    exact ⟨log ++ init, e, (List.append_assoc ..).symm,
      List.forall_mem_append.mpr ⟨h.compiles, hinit⟩, he⟩

theorem GoesWell.stops (h : GoesWell host s t log) (h' : Stops host t u log') :
    Stops host s u (log ++ log') where
  toAsks := h.asks h'.toAsks
  compiles := List.forall_mem_append.mpr ⟨h.compiles, h'.compiles⟩

/-- Nothing is asked after a failure. -/
theorem Fails.congr (h : Fails host s t log) (hasked : u.asked = t.asked) :
    Fails host s u log where
  asked := hasked.trans h.asked
  distinct := h.distinct
  missing := h.missing
  last := h.last

theorem asks_nil (h : t.asked = s.asked) : Asks s t [] where
  asked := by rw [h, List.append_nil]
  distinct := .nil
  missing := by simp

/-- A step that asks for nothing. -/
theorem goesWell_nil (h : t.asked = s.asked) (hkept : s.Kept t) : GoesWell host s t [] where
  toAsks := asks_nil h
  kept := hkept
  compiles := by simp
  loaded := by simp

end

/-- However a program ends: what it has asked for, if `went` tells from what it
returns whether it went well. -/
def AsksOnce {α : Type} (host : Host) (went : α → Bool) (p : LoadM Cb α) : Prop :=
  ∀ s, wp p s
    (fun a t => ∃ log, if went a then GoesWell host s t log else Fails host s t log)
    (fun _ t => ∃ log, Stops host s t log)

section

variable {host : Host} {α β : Type} {went : β → Bool}

theorem asksOnce_pure {b : β} (hb : went b = true) : AsksOnce host went (pure b : LoadM Cb β) := by
  intro s
  exact ⟨[], by rw [if_pos hb]; exact goesWell_nil rfl (.refl s)⟩

theorem asksOnce_throw {e : LoadStop} : AsksOnce host went (throw e : LoadM Cb β) := by
  intro s
  exact ⟨[], asks_nil rfl, by simp⟩

/-- What is left to do after a failure. -/
def GivesUp {β : Type} (went : β → Bool) (p : LoadM Cb β) : Prop :=
  ∀ s, wp p s (fun b t => went b = false ∧ t.asked = s.asked) fun _ _ => False

/-- After something that went well. -/
theorem AsksOnce.after {p : LoadM Cb β} (hp : AsksOnce host went p) {s t : Loading Cb}
    {log : List (Bytes × Bytes)} (h : GoesWell host s t log) :
    wp p t (fun b u => ∃ log, if went b then GoesWell host s u log else Fails host s u log)
      (fun _ u => ∃ log, Stops host s u log) := by
  refine wp_mono (hp t) ?_ ?_
  · intro b u h'
    obtain ⟨log', h'⟩ := h'
    refine ⟨log ++ log', ?_⟩
    split at h'
    next hb => rw [if_pos hb]; exact h.trans h'
    next hb => rw [if_neg hb]; exact h.fails h'
  · intro _ u h'
    obtain ⟨log', h'⟩ := h'
    exact ⟨log ++ log', h.stops h'⟩

/-- The rest asks for more only when the first part went well. -/
theorem asksOnce_bind {went₁ : α → Bool} {p : LoadM Cb α} {f : α → LoadM Cb β}
    (hp : AsksOnce host went₁ p) (hf : ∀ a, went₁ a = true → AsksOnce host went (f a))
    (hfail : ∀ a, went₁ a = false → GivesUp went (f a)) : AsksOnce host went (p >>= f) := by
  intro s
  rw [wp_bind]
  refine wp_mono (hp s) ?_ (fun _ _ h => h)
  intro a t h
  obtain ⟨log, h⟩ := h
  cases ha : went₁ a with
  | false =>
    rw [ha] at h
    refine wp_mono (hfail a ha t) ?_ (fun _ _ h => h.elim)
    intro b u hu
    rw [hu.1]
    exact ⟨log, h.congr hu.2⟩
  | true =>
    rw [ha, if_pos rfl] at h
    exact (hf a ha).after h

/-- A step that asks for nothing and takes nothing off the list. -/
theorem asksOnce_keeps {p : LoadM Cb α} (went₁ : α → Bool) (hwent : ∀ a, went₁ a = true)
    (hp : ∀ s, wp p s (fun _ t => t.asked = s.asked ∧ s.Kept t) (fun _ t => t = s)) :
    AsksOnce host went₁ p := by
  intro s
  refine wp_mono (hp s) ?_ ?_
  · intro a t h
    exact ⟨[], by rw [if_pos (hwent a)]; exact goesWell_nil h.1 h.2⟩
  · rintro _ t rfl
    exact ⟨[], asks_nil rfl, by simp⟩

/-! ## The functions, one by one -/

theorem asksOnce_get : AsksOnce host (fun _ => true) (get : LoadM Cb (Loading Cb)) :=
  asksOnce_keeps _ (fun _ => rfl) fun s => ⟨rfl, .refl s⟩

theorem asksOnce_derefModule (m : DefId) :
    AsksOnce host (fun _ => true) (derefModule m : LoadM Cb ModuleDef) := by
  refine asksOnce_keeps _ (fun _ => rfl) fun s => ?_
  rw [derefModule, wp_bind, wp_get]
  split
  next =>
    split
    next => rfl
    next => exact ⟨rfl, .refl s⟩
  next => rfl

theorem asksOnce_setResolved (m : DefId) :
    AsksOnce host (fun _ => true) (setResolved m : LoadM Cb Unit) := by
  refine asksOnce_keeps _ (fun _ => rfl) fun s => ⟨rfl, rfl, fun own hloaded => ?_⟩
  obtain ⟨i, d, hd, hfreed, hname⟩ := hloaded
  refine ⟨i, if m = i then { d with resolved := true } else d, ?_, ?_, ?_⟩
  · show (s.registry.defs.modify m _)[i]? = _
    rw [List.getElem?_modify, hd]
    split <;> rfl
  · split <;> exact hfreed
  · split <;> exact hname

theorem asksOnce_setModule (m : DefId) (i : Nat) (m1 : DefId) :
    AsksOnce host (fun _ => true) (setModule m i m1 : LoadM Cb Unit) :=
  asksOnce_keeps _ (fun _ => rfl) fun _ => ⟨rfl, rfl, fun _ h => h⟩

theorem asksOnce_addReqModuleEntries (m : DefId) (requests : List JSString) :
    AsksOnce host (fun _ => true) (addReqModuleEntries m requests : LoadM Cb Unit) :=
  asksOnce_keeps _ (fun _ => rfl) fun _ => ⟨rfl, rfl, fun _ h => h⟩

/-- The new definition's name is loaded, and what was. -/
theorem kept_newModuleDef (s : Loading Cb) (name : Bytes) :
    s.Kept { s with registry := s.registry.newModuleDef name } ∧
      Loaded { s with registry := s.registry.newModuleDef name } (newString name) := by
  refine ⟨⟨rfl, fun own hloaded => ?_⟩, s.registry.defs.length,
    ⟨newString name, none, false, false, false⟩, ?_, rfl, rfl⟩
  · obtain ⟨i, d, hd, hrest⟩ := hloaded
    obtain ⟨hlt, -⟩ := List.getElem?_eq_some_iff.mp hd
    exact ⟨i, d, (List.getElem?_append_left hlt).trans hd, hrest⟩
  · exact List.getElem?_concat_length ..

section

variable {resolve : DefId → LoadM Cb Bool} {s : Loading Cb} {Q : Option DefId → Loading Cb → Prop}
  {X : LoadStop → Loading Cb → Prop}

/-- A compilation: a file that does not parse, or one whose requests are resolved. -/
theorem wp_compileModule_cases {name contents : Bytes}
    (hnone : host.compile name contents = none →
      Q none { s with
        registry := { s.registry.newModuleDef name with
          defs := (s.registry.newModuleDef name).defs.modify s.registry.defs.length
            fun d => { d with freed := true } } })
    (hsome : ∀ requests, host.compile name contents = some requests →
      wp (resolveParsed resolve s.registry.defs.length requests)
        { s with registry := s.registry.newModuleDef name } Q X) :
    wp (compileModule host resolve name contents) s Q X := by
  cases hcompile : host.compile name contents with
  | none =>
    rw [compileModule, hcompile, wp_bind]
    exact hnone hcompile
  | some requests =>
    rw [compileModule, hcompile, wp_bind]
    exact hsome requests hcompile

/-- An import: a module that is there, or an answer of the file loader. -/
theorem wp_hostResolveImportedModule_cases {base specifier : JSString} {name : Bytes}
    (hname : importName base specifier = name)
    (hfound : ∀ m, s.registry.findLoaded (newString name) = some m ∨
      s.registry.modules name = some m → Q (some m) s)
    (hempty : s.Missing name → host.loadFile s.asked name = [] →
      Q none { s with asked := s.asked ++ [(name, host.loadFile s.asked name)] })
    (hfile : s.Missing name → host.loadFile s.asked name ≠ [] →
      wp (compileModule host resolve name (host.loadFile s.asked name))
        { s with asked := s.asked ++ [(name, host.loadFile s.asked name)] } Q X) :
    wp (hostResolveImportedModule host resolve base specifier) s Q X := by
  rw [hostResolveImportedModule, wp_bind, wp_get]
  dsimp only
  rw [hname]
  cases hown : s.registry.findLoaded (newString name) with
  | some m => exact hfound m (.inl hown)
  | none =>
    show wp (jsModuleLoader host resolve name) s _ _
    rw [jsModuleLoader, wp_bind, wp_get]
    cases hmodule : s.registry.modules name with
    | some m => exact hfound m (.inr hmodule)
    | none =>
      have hmissing : s.Missing name := ⟨findLoaded_eq_none_iff.mp hown, hmodule⟩
      show wp (do
        let contents ← loadFile host name
        if contents = [] then pure none
        else compileModule host resolve name contents) s _ _
      rw [wp_bind, loadFile, wp_bind, wp_get, wp_bind, wp_set, wp_pure]
      split
      next h => exact hempty hmissing h
      next h => exact hfile hmissing h

end

section

variable {resolve : DefId → LoadM Cb Bool} (hresolve : ∀ m, AsksOnce host id (resolve m))

include hresolve

theorem asksOnce_resolveParsed (m : DefId) (requests : List JSString) :
    AsksOnce host Option.isSome (resolveParsed resolve m requests) := by
  refine asksOnce_bind (asksOnce_addReqModuleEntries _ _) (fun _ _ => ?_)
    fun _ h => absurd h (by simp)
  refine asksOnce_bind (hresolve _) (fun ok hok => ?_) fun ok hok => ?_
  · obtain rfl : ok = true := hok
    exact asksOnce_pure rfl
  · obtain rfl : ok = false := hok
    exact fun _ => ⟨rfl, rfl⟩

/-- A compilation, of what the file loader has just answered. -/
theorem asks_compileModule {s : Loading Cb} {name contents : Bytes} (hmissing : s.Missing name)
    (hcontents : contents ≠ []) :
    wp (compileModule host resolve name contents) { s with asked := s.asked ++ [(name, contents)] }
      (fun r t => ∃ log, if r.isSome then GoesWell host s t log else Fails host s t log)
      (fun _ t => ∃ log, Stops host s t log) := by
  have hasks : ∀ t : Loading Cb, t.asked = s.asked ++ [(name, contents)] →
      Asks s t [(name, contents)] := by
    intro t ht
    exact ⟨ht, List.nodup_singleton _, fun e he => by rwa [List.mem_singleton.mp he]⟩
  refine wp_compileModule_cases (fun hcompile => ?_) fun requests hcompile => ?_
  · refine ⟨[(name, contents)], hasks _ rfl, [], (name, contents), rfl, by simp, ?_⟩
    exact fun h => absurd h.2 (by simp [hcompile])
  · -- the definition is on the list before anything else is asked for
    obtain ⟨hkept, hloaded⟩ := kept_newModuleDef
      { s with asked := s.asked ++ [(name, contents)] } name
    have hwell : GoesWell host s
        { s with asked := s.asked ++ [(name, contents)], registry := s.registry.newModuleDef name }
        [(name, contents)] := by
      refine ⟨hasks _ rfl, ⟨rfl, hkept.loaded⟩, ?_, ?_⟩
      · exact fun e he => by simp [List.mem_singleton.mp he, Compiles, hcontents, hcompile]
      · exact fun e he => by rwa [List.mem_singleton.mp he]
    exact (asksOnce_resolveParsed hresolve _ requests).after hwell

/-- What is loaded, or registered, is not asked for. -/
theorem asksOnce_hostResolveImportedModule (base specifier : JSString) :
    AsksOnce host Option.isSome (hostResolveImportedModule host resolve base specifier) := by
  intro s
  refine wp_hostResolveImportedModule_cases rfl
    (fun m _ => ⟨[], goesWell_nil rfl (.refl s)⟩) (fun hmissing hempty => ?_)
    fun hmissing hcontents => asks_compileModule hresolve hmissing hcontents
  refine ⟨[(importName base specifier, _)], ⟨rfl, List.nodup_singleton _, ?_⟩,
    [], _, rfl, by simp, fun h => h.1 hempty⟩
  exact fun e he => by rwa [List.mem_singleton.mp he]

theorem asksOnce_resolveEntries (m : DefId) (base : JSString) (i : Nat) (names : List JSString) :
    AsksOnce host id (resolveEntries host resolve m base i names) := by
  induction names generalizing i with
  | nil => exact asksOnce_pure rfl
  | cons name rest ih =>
    rw [resolveEntries]
    refine asksOnce_bind (asksOnce_hostResolveImportedModule hresolve base name)
      (fun r hr => ?_) fun r hr => ?_
    · obtain ⟨m1, rfl⟩ := Option.isSome_iff_exists.mp hr
      refine asksOnce_bind (asksOnce_setModule m i m1) (fun _ _ => ?_) fun _ h => absurd h (by simp)
      refine asksOnce_bind (hresolve m1) (fun ok hok => ?_) fun ok hok => ?_
      · obtain rfl : ok = true := hok
        exact ih (i + 1)
      · obtain rfl : ok = false := hok
        exact fun _ => ⟨rfl, rfl⟩
    · obtain rfl : r = none := by simpa using hr
      exact fun _ => ⟨rfl, rfl⟩

end

/-- By induction on the depth of the recursion. -/
theorem asksOnce_resolveModule (n : Nat) (m : DefId) :
    AsksOnce host id (resolveModule host n m : LoadM Cb Bool) := by
  induction n generalizing m with
  | zero => exact asksOnce_throw
  | succ n ih =>
    rw [resolveModule]
    refine asksOnce_bind (asksOnce_derefModule m) (fun d _ => ?_) fun _ h => absurd h (by simp)
    split
    next => exact asksOnce_pure rfl
    next =>
      refine asksOnce_bind (asksOnce_setResolved m) (fun _ _ => ?_) fun _ h => absurd h (by simp)
      refine asksOnce_bind asksOnce_get (fun s _ => ?_) fun _ h => absurd h (by simp)
      exact asksOnce_resolveEntries ih m d.name 0 _

/-- The load of a dynamic import, or of a script that can be compiled. -/
theorem asksOnce_run (n : Nat) (l : Load) (hl : l.Parses host) :
    AsksOnce host Option.isSome (l.run host n : LoadM Cb (Option DefId)) := by
  cases l with
  | importModule base specifier =>
    refine asksOnce_bind
      (asksOnce_hostResolveImportedModule (asksOnce_resolveModule n) base specifier)
      (fun r hr => ?_) fun r hr => ?_
    · obtain ⟨m, rfl⟩ := Option.isSome_iff_exists.mp hr
      refine asksOnce_bind (asksOnce_resolveModule n m) (fun ok hok => ?_) fun ok hok => ?_
      · obtain rfl : ok = true := hok
        exact asksOnce_pure rfl
      · obtain rfl : ok = false := hok
        exact fun _ => ⟨rfl, rfl⟩
    · obtain rfl : r = none := by simpa using hr
      exact fun _ => ⟨rfl, rfl⟩
  | evalModule fileName contents =>
    obtain ⟨requests, hcompile⟩ := Option.isSome_iff_exists.mp hl
    intro s
    show wp (compileModule host (resolveModule host n) fileName contents) s _ _
    refine wp_compileModule_cases (fun hnone => absurd (hcompile.symm.trans hnone) (by simp))
      fun requests' _ => ?_
    exact (asksOnce_resolveParsed (asksOnce_resolveModule n) _ requests').after
      (goesWell_nil rfl (kept_newModuleDef s fileName).1)

end

/-! ## One load -/

/-- **One load asks for nothing twice, for nothing there is, and for nothing more once
a file cannot be had; it fails for no other reason.** -/
theorem load_asks (host : Host) (n : Nat) (l : Load) (s : Loading Cb) :
    wp (l.run host n) s
      (fun r t => ∃ log, Asks s t log ∧ (∀ e ∈ log.dropLast, Compiles host e) ∧
        (r.isSome = true ↔ l.Parses host ∧ ∀ e ∈ log, Compiles host e))
      (fun _ t => ∃ log, Asks s t log ∧ ∀ e ∈ log, Compiles host e) := by
  by_cases hl : l.Parses host
  · refine wp_mono (asksOnce_run n l hl s) ?_ ?_
    · intro r t h
      obtain ⟨log, h⟩ := h
      refine ⟨log, ?_⟩
      split at h
      next hr =>
        exact ⟨h.toAsks, fun e he => h.compiles e (List.mem_of_mem_dropLast he),
          iff_of_true hr ⟨hl, h.compiles⟩⟩
      next hr =>
        obtain ⟨init, e, rfl, hinit, he⟩ := h.last
        refine ⟨h.toAsks, by rwa [List.dropLast_concat], iff_of_false hr fun hall => he ?_⟩
        exact hall.2 e (by simp)
    · intro _ t h
      obtain ⟨log, h⟩ := h
      exact ⟨log, h.toAsks, h.compiles⟩
  · -- a script that cannot be compiled asks for nothing
    cases l with
    | importModule base specifier => exact absurd trivial hl
    | evalModule fileName contents =>
      refine wp_compileModule_cases (fun _ => ?_) fun requests hcompile =>
        absurd (Option.isSome_iff_exists.mpr ⟨requests, hcompile⟩) hl
      exact ⟨[], asks_nil rfl, by simp, iff_of_false (by simp) fun h => hl h.1⟩

end Loading

end Ejr
