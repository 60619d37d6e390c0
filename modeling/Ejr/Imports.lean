import Ejr.Registry
import Ejr.Lib.Run

/-!
# What an import is bound to

An import asks for a specifier; QuickJS normalizes it against the importing
module's name, looks among the modules it has by their own names, and only then
asks `js_module_loader`, which knows the registered ones. `register_module`
creates its definition under a mangled name, so it is the loader that finds it,
and only if nothing else has got the specifier for its own name. `imports_iff`
says exactly when an import of a registered name is bound to the latest
definition registered under it, in every state a run reaches.

Mirroring notes:
- The normalizer is QuickJS's own (`JS_SetModuleLoaderFunc` is given none).
- Specifier and name of the importing module pass as C strings.
-/

namespace Ejr

open Lib

/-! ## Normalizing -/

/-- `strrchr`: the index of the last `b`. -/
def strrchr (s : Bytes) (b : UInt8) : Option Nat := (s.reverse.idxOf? b).map (s.length - 1 - ·)

/-- What stands before the last slash. -/
def dirName (filename : Bytes) : Bytes := filename.take ((strrchr filename 47).getD 0)

/-- What stands behind it. -/
def lastElement (filename : Bytes) : Bytes :=
  match strrchr filename 47 with
  | some p => filename.drop (p + 1)
  | none => filename

/-- The loop of `js_default_module_normalize_name` over the leading `.` and `..`
of a name: what is left of the directory and of the name. -/
def normalizeLoop : Bytes → Bytes → Bytes × Bytes
  | filename, 46 :: 47 :: r => normalizeLoop filename r
  | filename, 46 :: 46 :: 47 :: r =>
    if filename = [] ∨ lastElement filename = ascii "." ∨ lastElement filename = ascii ".." then
      (filename, 46 :: 46 :: 47 :: r)
    else normalizeLoop (dirName filename) r
  | filename, r => (filename, r)

/-- `js_default_module_normalize_name`. -/
def normalizeName (baseName name : Bytes) : Bytes :=
  if name.head? = some 46 then
    let (filename, r) := normalizeLoop (dirName baseName) name
    if filename = [] then r else filename ++ 47 :: r
  else name

/-- `cname` of `js_host_resolve_imported_module`, for an import of `specifier`
from the module `base`. -/
def importName (base specifier : JSString) : Bytes :=
  normalizeName (cstr (toCStringLen base)) (cstr (toCStringLen specifier))

/-- A name that survives the engine and has no dot in front is looked up as it
stands, whoever imports it. -/
theorem importName_eq (base : JSString) {name : Bytes} (hstable : Stable name)
    (hdot : name.head? ≠ some 46) : importName base (newStringLen name) = name := by
  have hnul : NulFree name := by
    rw [← hstable]
    exact nulFree_cstr _
  have hname : cstr (toCStringLen (newStringLen name)) = name := by
    have h : cstr (toCStringLen (newStringLen (cstr name))) = name := hstable
    rwa [cstr_of_nulFree hnul] at h
  rw [importName, hname, normalizeName, if_neg hdot]

example : normalizeName (ascii "lib/a.js") (ascii "../b.js") = ascii "b.js" := by decide

namespace Registry

variable {Cb : Type}

/-! ## Importing -/

/-- `js_host_resolve_imported_module`, and what the import is bound to. -/
def importModule (s : Registry Cb) (base specifier : JSString) (loads : Bool) :
    Registry Cb × Option DefId :=
  let cname := importName base specifier
  match s.findLoaded (newString cname) with
  | some m => (s.bind m, some m)
  | none =>
    match s.jsModuleLoader cname loads with
    | (s', some m) => (s'.bind m, some m)
    | (s', none) => (s', none)

/-- It is a step of a run. -/
theorem importModule_step (s : Registry Cb) (base specifier : JSString) (loads : Bool) :
    step s (.resolve (importName base specifier) loads) (s.importModule base specifier loads).1 := by
  have hfst : (s.importModule base specifier loads).1 =
      s.resolve (importName base specifier) loads := by
    simp only [importModule, resolve]
    cases s.findLoaded (newString (importName base specifier)) with
    | some m => rfl
    | none =>
      obtain ⟨s', m⟩ := s.jsModuleLoader (importName base specifier) loads
      cases m <;> rfl
  rw [hfst]
  exact .resolve s _ loads

/-- The definition is there, and has not been freed. -/
def Live (s : Registry Cb) (m : DefId) : Prop := ∃ d, s.defs[m]? = some d ∧ d.freed = false

/-- An import of `specifier` from `base` is bound to the live definition `m`,
whatever files there are. -/
def BindsTo (s : Registry Cb) (base specifier : JSString) (m : DefId) : Prop :=
  s.Live m ∧ ∀ loads, (s.importModule base specifier loads).2 = some m

/-! ## The latest registration -/

/-- The name `register_module` was given for a definition. -/
def registeredName (d : ModuleDef) : Option Bytes := d.native.map Registration.moduleName

/-- `m` is the definition of the latest registration of the name. -/
structure Latest (s : Registry Cb) (name : Bytes) (m : DefId) : Prop where
  registered : ∃ d, s.defs[m]? = some d ∧ registeredName d = some name
  last : ∀ i d, s.defs[i]? = some d → registeredName d = some name → i ≤ m

theorem Latest.unique {s : Registry Cb} {name : Bytes} {m m' : DefId} (h : s.Latest name m)
    (h' : s.Latest name m') : m = m' := by
  obtain ⟨d, hd, hname⟩ := h.registered
  obtain ⟨d', hd', hname'⟩ := h'.registered
  exact Nat.le_antisymm (h'.last m d hd hname) (h.last m' d' hd' hname')

/-- A definition is registered under one name. -/
theorem Latest.name_eq {s : Registry Cb} {name name' : Bytes} {m : DefId} (h : s.Latest name m)
    (h' : s.Latest name' m) : name = name' := by
  obtain ⟨d, hd, hname⟩ := h.registered
  obtain ⟨d', hd', hname'⟩ := h'.registered
  obtain rfl := Option.some.inj (hd.symm.trans hd')
  exact Option.some.inj (hname.symm.trans hname')

/-- The map `modules` knows the latest registrations, and the own name of a
definition is its mangled one. -/
structure Filed (s : Registry Cb) : Prop where
  modules : ∀ name m, s.modules name = some m ↔ s.Latest name m
  mangled : ∀ (m : DefId) d name, s.defs[m]? = some d → registeredName d = some name →
    d.name = newString (mangledName s.self name)

theorem filed_new (self : UInt64) : (new self : Registry Cb).Filed where
  modules _ _ := by
    constructor
    · exact fun h => nomatch h
    · intro h
      obtain ⟨d, hd, -⟩ := h.registered
      exact nomatch hd
  mangled _ _ _ hd := nomatch hd

/-- What a definition is called. -/
def label (d : ModuleDef) : JSString × Option Bytes := (d.name, registeredName d)

theorem exists_of_labels_eq {l l' : List ModuleDef} (h : l.map label = l'.map label) {i : Nat}
    {d : ModuleDef} (hd : l[i]? = some d) : ∃ d', l'[i]? = some d' ∧ label d' = label d := by
  have hi := congrArg (·[i]?) h
  simp only [List.getElem?_map, hd, Option.map_some] at hi
  obtain ⟨d', hd', hlabel⟩ := Option.map_eq_some_iff.mp hi.symm
  exact ⟨d', hd', hlabel⟩

theorem Latest.congr {s s' : Registry Cb} {name : Bytes} {m : DefId} (h : s.Latest name m)
    (hdefs : s'.defs.map label = s.defs.map label) : s'.Latest name m where
  registered := by
    obtain ⟨d, hd, hname⟩ := h.registered
    obtain ⟨d', hd', hlabel⟩ := exists_of_labels_eq hdefs.symm hd
    exact ⟨d', hd', (congrArg Prod.snd hlabel).trans hname⟩
  last i d' hd' hname := by
    obtain ⟨d, hd, hlabel⟩ := exists_of_labels_eq hdefs hd'
    exact h.last i d hd ((congrArg Prod.snd hlabel).trans hname)

/-- Definitions that are called the same. -/
theorem Filed.congr {s s' : Registry Cb} (hs : s.Filed) (hself : s'.self = s.self)
    (hmodules : s'.modules = s.modules) (hdefs : s'.defs.map label = s.defs.map label) :
    s'.Filed where
  modules name m := by
    rw [hmodules, hs.modules]
    exact ⟨fun h => h.congr hdefs, fun h => h.congr hdefs.symm⟩
  mangled m d' name hd' hname := by
    obtain ⟨d, hd, hlabel⟩ := exists_of_labels_eq hdefs hd'
    have hown := hs.mangled m d name hd ((congrArg Prod.snd hlabel).trans hname)
    rw [hself, ← hown]
    exact (congrArg Prod.fst hlabel).symm

/-! ## One definition more -/

section

variable {s s' : Registry Cb} {new : ModuleDef} (hdefs : s'.defs = s.defs ++ [new])

include hdefs

theorem snoc_kept {i : Nat} {d : ModuleDef} (hd : s.defs[i]? = some d) : s'.defs[i]? = some d := by
  rw [hdefs, List.getElem?_append_left (List.getElem?_eq_some_iff.mp hd).1, hd]

theorem snoc_old {i : Nat} {d : ModuleDef} (hd : s'.defs[i]? = some d) :
    s.defs[i]? = some d ∨ i = s.defs.length ∧ d = new := by
  rw [hdefs] at hd
  exact getElem?_snoc hd

/-- It is the latest under its own name. -/
theorem latest_snoc_self {name : Bytes} {m : DefId} (hname : registeredName new = some name) :
    s'.Latest name m ↔ s.defs.length = m := by
  have hlatest : s'.Latest name s.defs.length := by
    refine ⟨⟨new, ?_, hname⟩, fun i d hd _ => ?_⟩
    · rw [hdefs, List.getElem?_append_right (Nat.le_refl _), Nat.sub_self]
      rfl
    · rcases snoc_old hdefs hd with hd | ⟨rfl, -⟩
      · exact Nat.le_of_lt (List.getElem?_eq_some_iff.mp hd).1
      · exact Nat.le_refl _
  constructor
  · exact fun h => hlatest.unique h
  · rintro rfl
    exact hlatest

/-- Under other names nothing changes. -/
theorem latest_snoc_other {name : Bytes} {m : DefId} (hname : registeredName new ≠ some name) :
    s'.Latest name m ↔ s.Latest name m := by
  have hold : ∀ {i : Nat} {d : ModuleDef}, s'.defs[i]? = some d → registeredName d = some name →
      s.defs[i]? = some d := by
    intro i d hd hd'
    rcases snoc_old hdefs hd with hd | ⟨-, rfl⟩
    · exact hd
    · exact absurd hd' hname
  constructor
  · intro h
    obtain ⟨d, hd, hd'⟩ := h.registered
    exact ⟨⟨d, hold hd hd', hd'⟩, fun i d hd hd' => h.last i d (snoc_kept hdefs hd) hd'⟩
  · intro h
    obtain ⟨d, hd, hd'⟩ := h.registered
    exact ⟨⟨d, snoc_kept hdefs hd, hd'⟩, fun i d hd hd' => h.last i d (hold hd hd') hd'⟩

theorem Filed.snoc (hs : s.Filed) (hself : s'.self = s.self)
    (hmodules : ∀ name, s'.modules name =
      if registeredName new = some name then some s.defs.length else s.modules name)
    (hown : ∀ name, registeredName new = some name →
      new.name = newString (mangledName s.self name)) : s'.Filed where
  modules name m := by
    rw [hmodules]
    split
    next hname => rw [latest_snoc_self hdefs hname, Option.some.injEq]
    next hname => rw [latest_snoc_other hdefs hname, hs.modules]
  mangled m d name hd hd' := by
    rw [hself]
    rcases snoc_old hdefs hd with hd | ⟨-, rfl⟩
    · exact hs.mangled m d name hd hd'
    · exact hown name hd'

end

/-! ## Steps -/

theorem Filed.addFile {s : Registry Cb} (hs : s.Filed) (fileName : Bytes) :
    (s.addFile fileName).Filed :=
  Filed.snoc rfl hs rfl (fun _ => rfl) fun _ h => nomatch h

theorem Filed.registerModule {s : Registry Cb} (hs : s.Filed) (moduleName : Bytes)
    (methods : List (Bytes × Cb)) : (s.registerModule moduleName methods).Filed := by
  obtain ⟨hself, -, hmodules, hdefs, -⟩ := createMethods_frame moduleName s methods
  have hname : ∀ {name : Bytes}, some moduleName = some name → name = moduleName :=
    fun h => (Option.some.inj h).symm
  refine Filed.snoc (congrArg (· ++ _) hdefs) hs hself (fun name => ?_) fun name h => ?_
  · show Function.update _ moduleName _ name = if some moduleName = some name then _ else _
    rw [hdefs, hmodules, Function.update_apply]
    split
    next h => rw [if_pos (by rw [h])]
    next h => rw [if_neg fun h' => h (hname h')]
  · rw [hname h]

/-- Marks on a definition leave its names alone. -/
theorem labels_bind (s : Registry Cb) (m : DefId) :
    (s.bind m).defs.map label = s.defs.map label := by
  refine List.ext_getElem? fun i => ?_
  simp only [Registry.bind, List.getElem?_map, List.getElem?_modify]
  cases s.defs[i]? with
  | none => rfl
  | some d => by_cases hi : m = i <;> simp [hi, label, registeredName]

theorem Filed.bind {s : Registry Cb} (hs : s.Filed) (m : DefId) : (s.bind m).Filed :=
  hs.congr rfl rfl (labels_bind s m)

theorem Filed.resolve {s : Registry Cb} (hs : s.Filed) (cname : Bytes) (loads : Bool) :
    (s.resolve cname loads).Filed := by
  unfold Registry.resolve
  split
  next m _ => exact hs.bind m
  next =>
    unfold jsModuleLoader
    cases s.modules cname with
    | some m => exact hs.bind m
    | none =>
      cases loads with
      | true => exact (hs.addFile cname).bind _
      | false => exact hs

theorem Filed.step {s s' : Registry Cb} {op : Op Cb} (hs : s.Filed)
    (hstep : Registry.step s op s') : s'.Filed := by
  cases hstep with
  | registerCallback fnName cb => exact hs.congr rfl rfl rfl
  | registerModule moduleName methods => exact hs.registerModule moduleName methods
  | evalModule fileName => exact hs.addFile fileName
  | resolve cname loads => exact hs.resolve cname loads
  | failImport =>
    refine hs.congr rfl rfl ?_
    simp only [freeUnresolved, List.map_map]
    rfl
  | @evaluate m d hd hnative hresolved hinit =>
    refine hs.congr rfl rfl (List.ext_getElem? fun i => ?_)
    simp only [Registry.evaluate, List.getElem?_map, List.getElem?_set]
    split
    next hi =>
      subst hi
      rw [if_pos (List.getElem?_eq_some_iff.mp hd).1, hd]
      rfl
    next => rfl

theorem filed_of_run {self : UInt64} {ops : List (Op Cb)} {s : Registry Cb}
    (hrun : Run step (new self) ops s) : s.Filed :=
  hrun.invariant (filed_new self) fun _ _ _ hs hstep => hs.step hstep

/-! ## What is found -/

/-- No definition that is there has this name for its own. -/
def Unclaimed (s : Registry Cb) (own : JSString) : Prop :=
  ∀ d ∈ s.defs, d.freed = false → d.name ≠ own

/-- No definition before `m` has. -/
def FirstNamed (s : Registry Cb) (own : JSString) (m : DefId) : Prop :=
  ∀ i d, i < m → s.defs[i]? = some d → d.freed = false → d.name ≠ own

theorem findLoaded_eq_none {s : Registry Cb} {own : JSString} :
    s.findLoaded own = none ↔ s.Unclaimed own := by
  rw [findLoaded, List.findIdx?_eq_none_iff]
  simp [Unclaimed]

theorem findLoaded_eq_some {s : Registry Cb} {own : JSString} {m : DefId} {d : ModuleDef}
    (hd : s.defs[m]? = some d) : s.findLoaded own = some m ↔
      d.freed = false ∧ d.name = own ∧ s.FirstNamed own m := by
  obtain ⟨hlt, rfl⟩ := List.getElem?_eq_some_iff.mp hd
  rw [findLoaded, List.findIdx?_eq_some_iff_getElem]
  constructor
  · intro h
    obtain ⟨_, hp, hbefore⟩ := h
    simp only [Bool.and_eq_true, Bool.not_eq_true', beq_iff_eq] at hp
    refine ⟨hp.1, hp.2, fun i d hi hd hlive hname => ?_⟩
    obtain ⟨hi', rfl⟩ := List.getElem?_eq_some_iff.mp hd
    exact hbefore i hi (by simp [hlive, hname])
  · intro h
    obtain ⟨hlive, hname, hfirst⟩ := h
    refine ⟨hlt, by simp [hlive, hname], fun i hi hp => ?_⟩
    simp only [Bool.and_eq_true, Bool.not_eq_true', beq_iff_eq] at hp
    have hi' : i < s.defs.length := Nat.lt_trans hi hlt
    exact hfirst i _ hi (List.getElem?_eq_getElem hi') hp.1 hp.2

/-- The import of a registered name finds the latest definition: by the map,
where nothing has got the name for its own, or by the definition's own name. -/
def Importable (s : Registry Cb) (base : JSString) (name : Bytes) (m : DefId) : Prop :=
  let cname := importName base (newStringLen name)
  cname = name ∧ s.Unclaimed (newString name) ∨
    newString cname = newString (mangledName s.self name) ∧
      s.FirstNamed (newString (mangledName s.self name)) m

theorem bindsTo_iff {s : Registry Cb} (hs : s.Filed) {base : JSString} {name : Bytes} {m : DefId}
    (hm : s.Latest name m) :
    s.BindsTo base (newStringLen name) m ↔ s.Live m ∧ s.Importable base name m := by
  obtain ⟨d, hd, hname⟩ := hm.registered
  have hown := hs.mangled m d name hd hname
  refine and_congr_right fun hlive => ?_
  obtain ⟨d', hd', hfreed⟩ := hlive
  obtain rfl := Option.some.inj (hd.symm.trans hd')
  unfold Importable
  generalize hcname : importName base (newStringLen name) = cname
  dsimp only
  cases hfound : s.findLoaded (newString cname) with
  | some m' =>
    have himport : ∀ loads, (s.importModule base (newStringLen name) loads).2 = some m' := by
      intro loads
      simp only [importModule, hcname, hfound]
    constructor
    · intro h
      obtain rfl := Option.some.inj ((himport false).symm.trans (h false))
      obtain ⟨-, hcalled, hfirst⟩ := (findLoaded_eq_some hd).mp hfound
      rw [hown] at hcalled
      rw [← hcalled] at hfirst
      exact .inr ⟨hcalled.symm, hfirst⟩
    · rintro (⟨rfl, hnone⟩ | ⟨hcalled, hfirst⟩) loads
      · rw [findLoaded_eq_none.mpr hnone] at hfound
        exact nomatch hfound
      · rw [himport, ← hfound, hcalled, findLoaded_eq_some hd]
        exact ⟨hfreed, hown, hfirst⟩
  | none =>
    have hunclaimed := findLoaded_eq_none.mp hfound
    have himport : ∀ loads, (s.importModule base (newStringLen name) loads).2 =
        (s.jsModuleLoader cname loads).2 := by
      intro loads
      simp only [importModule, hcname, hfound]
      obtain ⟨s', m'⟩ := s.jsModuleLoader cname loads
      cases m' <;> rfl
    constructor
    · intro h
      have hloader := (himport false).symm.trans (h false)
      have hmodules : s.modules cname = some m := by
        unfold jsModuleLoader at hloader
        cases hmod : s.modules cname with
        | some m' => simpa only [hmod] using hloader
        | none => simp only [hmod, reduceCtorEq] at hloader
      obtain rfl := ((hs.modules cname m).mp hmodules).name_eq hm
      exact .inl ⟨rfl, hunclaimed⟩
    · rintro (⟨rfl, -⟩ | ⟨hcalled, -⟩) loads
      · rw [himport]
        unfold jsModuleLoader
        rw [(hs.modules cname m).mpr hm]
      · -- the definition itself has that name
        rw [hcalled] at hunclaimed
        exact absurd hown (hunclaimed d (List.mem_of_getElem? hd) hfreed)

/-! ## What is freed -/

/-- Nothing has been freed. -/
def Unfreed (s : Registry Cb) : Prop := ∀ d ∈ s.defs, d.freed = false

theorem Unfreed.bind {s : Registry Cb} (hs : s.Unfreed) (m : DefId) : (s.bind m).Unfreed := by
  intro d hd
  obtain ⟨i, hi⟩ := List.mem_iff_getElem?.mp hd
  simp only [Registry.bind, List.getElem?_modify] at hi
  obtain ⟨d', hd', rfl⟩ := Option.map_eq_some_iff.mp hi
  split <;> exact hs d' (List.mem_of_getElem? hd')

theorem Unfreed.snoc {s s' : Registry Cb} {new : ModuleDef} (hs : s.Unfreed)
    (hdefs : s'.defs = s.defs ++ [new]) (hnew : new.freed = false) : s'.Unfreed := by
  intro d hd
  rw [hdefs] at hd
  rcases List.mem_append.mp hd with hd | hd
  · exact hs d hd
  · rwa [List.mem_singleton.mp hd]

theorem Unfreed.addFile {s : Registry Cb} (hs : s.Unfreed) (name : Bytes) :
    (s.addFile name).Unfreed :=
  hs.snoc rfl rfl

/-- Only a failed dynamic import frees definitions. -/
theorem Unfreed.step {s s' : Registry Cb} {op : Op Cb} (hs : s.Unfreed) (hop : op ≠ .failImport)
    (hstep : Registry.step s op s') : s'.Unfreed := by
  cases hstep with
  | registerCallback => exact hs
  | registerModule moduleName methods =>
    have hdefs := (createMethods_frame moduleName s methods).2.2.2.1
    exact hs.snoc (congrArg (· ++ _) hdefs) rfl
  | evalModule fileName => exact hs.addFile fileName
  | resolve cname loads =>
    unfold Registry.resolve
    split
    next => exact hs.bind _
    next =>
      unfold jsModuleLoader
      cases s.modules cname with
      | some m => exact hs.bind m
      | none =>
        cases loads with
        | true => exact (hs.addFile cname).bind _
        | false => exact hs
  | failImport => exact absurd rfl hop
  | @evaluate m d' hd' =>
    intro d hd
    rcases List.mem_or_eq_of_mem_set hd with hd | rfl
    · exact hs d hd
    · exact hs d' (List.mem_of_getElem? hd')

theorem live_of_run {self : UInt64} {ops : List (Op Cb)} {s : Registry Cb}
    (hrun : Run step (new self) ops s) (hops : .failImport ∉ ops) {name : Bytes} {m : DefId}
    (hm : s.Latest name m) : s.Live m := by
  have halong : Along step (fun _ op => op ≠ .failImport) (new self) ops s := by
    refine hrun.along fun pre op post _ _ heq _ _ hop => hops ?_
    rw [heq, hop]
    exact List.mem_append_right _ (List.mem_cons_self ..)
  have hunfreed : s.Unfreed :=
    halong.invariant (fun _ hd => nomatch hd) fun _ _ _ hs hop hstep => hs.step hop hstep
  obtain ⟨d, hd, -⟩ := hm.registered
  exact ⟨d, hd, hunfreed d (List.mem_of_getElem? hd)⟩

/-! ## The latest registration of a run -/

/-- Only a registration under the name changes what the map has for it. -/
theorem modules_step {s s' : Registry Cb} {op : Op Cb} {name : Bytes}
    (hop : ∀ methods, op ≠ .registerModule name methods) (hstep : step s op s') :
    s'.modules name = s.modules name := by
  cases hstep with
  | registerModule moduleName methods =>
    have hne : name ≠ moduleName := by
      rintro rfl
      exact hop methods rfl
    obtain ⟨-, -, hmodules, -, -⟩ := createMethods_frame moduleName s methods
    show Function.update _ moduleName _ name = _
    rw [Function.update_of_ne hne, hmodules]
  | resolve cname loads =>
    unfold resolve
    split
    next => rfl
    next =>
      unfold jsModuleLoader
      cases s.modules cname with
      | some m => rfl
      | none => cases loads <;> rfl
  | _ => rfl

/-- The definition `register_module` has stored stays the latest one until the
name is registered again. -/
theorem latest_of_run {self : UInt64} {pre post : List (Op Cb)} {u s : Registry Cb}
    {name : Bytes} {methods : List (Bytes × Cb)} (hpre : Run step (new self) pre u)
    (hpost : Run step (u.registerModule name methods) post s)
    (hlast : ∀ methods, .registerModule name methods ∉ post) : s.Latest name u.defs.length := by
  have halong : Along step (fun _ op => ∀ methods, op ≠ .registerModule name methods)
      (u.registerModule name methods) post s := by
    refine hpost.along fun before op after _ _ heq _ _ methods hop => hlast methods ?_
    rw [heq, hop]
    exact List.mem_append_right _ (List.mem_cons_self ..)
  have hkept : s.modules name = (u.registerModule name methods).modules name :=
    halong.invariant (I := fun t => t.modules name = (u.registerModule name methods).modules name)
      rfl fun _ _ _ h hop hstep => (modules_step hop hstep).trans h
  obtain ⟨-, -, -, hdefs, -⟩ := createMethods_frame name u methods
  have hstored : (u.registerModule name methods).modules name = some u.defs.length := by
    show Function.update _ name _ name = _
    rw [Function.update_self, hdefs]
  have hrun := hpre.append (.cons (.registerModule u name methods) hpost)
  exact ((filed_of_run hrun).modules name _).mp (hkept.trans hstored)

/-- **A registered module is importable by its name** exactly when its definition
has not been freed, which only a failed dynamic import does, and the specifier
is looked up as it stands and is no module's own name, or is made the mangled
name on the way and the definition is the first one called so. A name that
survives the engine and has no dot in front is looked up as it stands. -/
theorem imports_iff {self : UInt64} {pre post : List (Op Cb)} {u s : Registry Cb} {name : Bytes}
    {methods : List (Bytes × Cb)} (hpre : Run step (new self) pre u)
    (hpost : Run step (u.registerModule name methods) post s)
    (hlast : ∀ methods, .registerModule name methods ∉ post) (base : JSString) :
    (s.BindsTo base (newStringLen name) u.defs.length ↔
      s.Live u.defs.length ∧ s.Importable base name u.defs.length) ∧
      (.failImport ∉ pre ++ post → s.Live u.defs.length) ∧
      (Stable name → name.head? ≠ some 46 → importName base (newStringLen name) = name) := by
  have hrun := hpre.append (.cons (.registerModule u name methods) hpost)
  have hm := latest_of_run hpre hpost hlast
  refine ⟨bindsTo_iff (filed_of_run hrun) hm, fun hops => live_of_run hrun ?_ hm,
    fun hstable hdot => importName_eq base hstable hdot⟩
  intro hmem
  rcases List.mem_append.mp hmem with hmem | hmem
  · exact hops (List.mem_append_left _ hmem)
  · rcases List.mem_cons.mp hmem with heq | hmem
    · exact nomatch heq
    · exact hops (List.mem_append_right _ hmem)

/-- One module under a name of its own. -/
def oneModule (name : String) : Registry Nat := (new 16).registerModule (ascii name) []

/-- A script evaluated as `main`, and a module `n`. -/
def beforeModule : Registry Nat :=
  ((new 16).addFile (ascii "main")).registerModule (ascii "n") [(ascii "f", 1)]

/-- The module `m` as well; then the script has imported a file, `m` and `n`, and one
more module has been registered. -/
def afterModule : Registry Nat :=
  ((((beforeModule.registerModule (ascii "m") [(ascii "g", 2)]).resolve (ascii "lib.js") true).resolve
    (ascii "m") false).resolve (ascii "n") false).registerModule (ascii "o") []

/-- A module registered as `m` between loads and other registrations, imported from
the module `main`. -/
theorem imports_iff_between :
    (afterModule.BindsTo (newString (ascii "main")) (newStringLen (ascii "m")) 2 ↔
      afterModule.Live 2 ∧ afterModule.Importable (newString (ascii "main")) (ascii "m") 2) ∧
    ((.failImport : Op Nat) ∉
      [.evalModule (ascii "main"), .registerModule (ascii "n") [(ascii "f", 1)]] ++
      [.resolve (ascii "lib.js") true, .resolve (ascii "m") false, .resolve (ascii "n") false,
        .registerModule (ascii "o") []] → afterModule.Live 2) ∧
    (Stable (ascii "m") → (ascii "m").head? ≠ some 46 →
      importName (newString (ascii "main")) (newStringLen (ascii "m")) = ascii "m") := by
  have hpre : Run step (new 16)
      [.evalModule (ascii "main"), .registerModule (ascii "n") [(ascii "f", 1)]] beforeModule :=
    .cons (.evalModule ..) (.cons (.registerModule ..) (.nil _))
  have hpost : Run step (beforeModule.registerModule (ascii "m") [(ascii "g", 2)])
      [.resolve (ascii "lib.js") true, .resolve (ascii "m") false, .resolve (ascii "n") false,
        .registerModule (ascii "o") []] afterModule :=
    .cons (.resolve ..) (.cons (.resolve ..) (.cons (.resolve ..) (.cons (.registerModule ..)
      (.nil _))))
  refine imports_iff hpre hpost ?_ (newString (ascii "main"))
  have hname : ascii "m" ≠ ascii "o" := by decide
  simp [hname]

/-- A script evaluated as `m` before hides the module registered as `m`, and a
module registered as `./m` is looked for under another name. -/
theorem imports_fails :
    (¬∀ (pre post : List (Op Nat)) (u s : Registry Nat), .failImport ∉ pre ++ post →
      Run step (new 16) pre u → Run step (u.registerModule (ascii "m") []) post s →
      (∀ methods, .registerModule (ascii "m") methods ∉ post) →
        s.BindsTo (newString (ascii "main")) (newStringLen (ascii "m")) u.defs.length) ∧
    ¬∀ (pre post : List (Op Nat)) (u s : Registry Nat), .failImport ∉ pre ++ post →
      Run step (new 16) pre u → Run step (u.registerModule (ascii "./m") []) post s →
      (∀ methods, .registerModule (ascii "./m") methods ∉ post) →
        s.BindsTo (newString (ascii "main")) (newStringLen (ascii "./m")) u.defs.length := by
  constructor
  · intro hall
    have hbinds := hall [.evalModule (ascii "m")] [] _ _ (by simp)
      (.cons (.evalModule (new 16) (ascii "m")) (.nil _)) (.nil _) (by simp)
    exact absurd (hbinds.2 false) (by decide +kernel)
  · intro hall
    have hbinds := hall [] [] _ _ (by simp) (.nil (new 16)) (.nil (oneModule "./m")) (by simp)
    exact absurd (hbinds.2 false) (by decide +kernel)

end Registry

end Ejr
