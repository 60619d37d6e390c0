import Ejr.Registry
import Ejr.Lib.Run
import Mathlib.Data.List.Nodup

/-!
# Which functions `module_init` exports

From a definition back to its functions there is only the name: `module_init`
decodes it and asks `methods_by_module`, which knows the latest registration
under that name. In a run in which every definition is evaluated while it is
still the one `modules` has under a name that can be decoded, and has not been
freed, each exports the functions made for it, and no function is handed over
twice (`initsOwn_of_along`). The invariant (`Sound`) carries that the functions
of all definitions are different ones, and that what has been handed over
belongs to definitions that have been initialised.
-/

namespace Ejr

open Lib

namespace Registry

variable {Cb : Type}

/-- The exports `module_init` has set on a definition, in order. -/
def exportsOf (s : Registry Cb) (m : DefId) : List (Bytes × FnId) :=
  (s.exported.filter fun e => e.1 == m).map Prod.snd

/-- Every initialised definition has the functions made for it as its exports,
and no function has been handed over twice. -/
def InitsOwn (s : Registry Cb) : Prop :=
  (∀ (m : DefId) (d : ModuleDef), s.defs[m]? = some d → d.initialised = true →
    s.exportsOf m = d.methods) ∧
  (s.exported.map fun e => e.2.2).Nodup

/-- Where a definition is evaluated, it is not freed, its name comes back from
the engine and contains no `::`, and nothing has been registered under the name
since. -/
def LatestOp (s : Registry Cb) : Op Cb → Prop
  | .evaluate m => ∀ d r, s.defs[m]? = some d → d.native = some r →
      d.freed = false ∧ ¬colons <:+: r.moduleName ∧ Stable r.moduleName ∧
        s.modules r.moduleName = some m
  | _ => True

/-! ## The invariant -/

/-- What registering and evaluating look at of a definition. -/
def core (d : ModuleDef) : JSString × Option Registration × Bool := (d.name, d.native, d.initialised)

/-- The functions of all definitions. -/
def owned (s : Registry Cb) : List FnId := s.defs.flatMap fun d => d.methods.map Prod.snd

/-- What every state of a run has: the maps know the latest registration, the
functions of all definitions are different ones, and those handed over belong
to initialised definitions. -/
structure Sound (s : Registry Cb) : Prop where
  latest : ∀ (m : DefId) d r, s.defs[m]? = some d → d.native = some r →
    s.modules r.moduleName = some m → s.methodsByModule r.moduleName = r.methods
  name : ∀ (m : DefId) d r, s.defs[m]? = some d → d.native = some r →
    d.name = newString (mangledName s.self r.moduleName)
  fresh : ∀ f ∈ s.owned, f < s.functions.length
  apart : s.owned.Nodup
  exports : ∀ (m : DefId) d, s.defs[m]? = some d →
    s.exportsOf m = if d.initialised then d.methods else []
  handed : ∀ e ∈ s.exported, e.1 < s.defs.length
  once : (s.exported.map fun e => e.2.2).Nodup

/-- The functions are those of the methods. -/
theorem owned_congr {s s' : Registry Cb}
    (h : s'.defs.map ModuleDef.methods = s.defs.map ModuleDef.methods) : s'.owned = s.owned := by
  have hmethods : ∀ t : Registry Cb,
      t.owned = (t.defs.map ModuleDef.methods).flatMap fun ms => ms.map Prod.snd := by
    intro t
    rw [List.flatMap_map]
    rfl
  rw [hmethods s', hmethods s, h]

theorem Sound.initsOwn {s : Registry Cb} (hs : s.Sound) : s.InitsOwn := by
  refine ⟨?_, hs.once⟩
  intro m d hd hinit
  rw [hs.exports m d hd, if_pos hinit]

theorem sound_new (self : UInt64) : (new self : Registry Cb).Sound where
  latest _ _ _ hd := nomatch hd
  name _ _ _ hd := nomatch hd
  fresh _ hf := nomatch hf
  apart := List.nodup_nil
  exports _ _ hd := nomatch hd
  handed _ he := nomatch he
  once := List.nodup_nil

/-- Definitions that look the same. -/
theorem Sound.congr {s s' : Registry Cb} (hs : s.Sound) (hself : s'.self = s.self)
    (hmethods : s'.methodsByModule = s.methodsByModule) (hmodules : s'.modules = s.modules)
    (hexported : s'.exported = s.exported) (hfns : s.functions.length ≤ s'.functions.length)
    (hcore : s'.defs.map core = s.defs.map core) : s'.Sound := by
  have hold : ∀ (m : DefId) d', s'.defs[m]? = some d' →
      ∃ d, s.defs[m]? = some d ∧ core d = core d' := by
    intro m d' hd'
    have hm := congrArg (·[m]?) hcore
    simp only [List.getElem?_map, hd', Option.map_some] at hm
    obtain ⟨d, hd, hdd⟩ := Option.map_eq_some_iff.mp hm.symm
    exact ⟨d, hd, hdd⟩
  have howned : s'.owned = s.owned := by
    refine owned_congr ?_
    -- the methods are in the core
    have hmethods : ∀ l : List ModuleDef, l.map ModuleDef.methods =
        (l.map core).map fun c => c.2.1.elim [] Registration.methods := by
      intro l
      rw [List.map_map]
      refine List.map_congr_left fun d _ => ?_
      show d.methods = d.native.elim [] Registration.methods
      unfold ModuleDef.methods
      cases d.native <;> rfl
    rw [hmethods, hmethods, hcore]
  have hlen : s'.defs.length = s.defs.length := by
    simpa using congrArg List.length hcore
  constructor
  · intro m d' r hd' hr hm
    obtain ⟨d, hd, hdd⟩ := hold m d' hd'
    have hnative : d.native = d'.native := congrArg (·.2.1) hdd
    rw [hmethods]
    exact hs.latest m d r hd (hnative.trans hr) (hmodules ▸ hm)
  · intro m d' r hd' hr
    obtain ⟨d, hd, hdd⟩ := hold m d' hd'
    have hnative : d.native = d'.native := congrArg (·.2.1) hdd
    have hname : d.name = d'.name := congrArg (·.1) hdd
    rw [← hname, hself]
    exact hs.name m d r hd (hnative.trans hr)
  · intro f hf
    rw [howned] at hf
    exact Nat.lt_of_lt_of_le (hs.fresh f hf) hfns
  · rw [howned]
    exact hs.apart
  · intro m d' hd'
    obtain ⟨d, hd, hdd⟩ := hold m d' hd'
    have hnative : d.native = d'.native := congrArg (·.2.1) hdd
    have hinit : d.initialised = d'.initialised := congrArg (·.2.2) hdd
    have hm : d.methods = d'.methods := by simp only [ModuleDef.methods, hnative]
    rw [exportsOf, hexported, ← hinit, ← hm]
    exact hs.exports m d hd
  · intro e he
    rw [hexported] at he
    rw [hlen]
    exact hs.handed e he
  · rw [hexported]
    exact hs.once

/-! ## New definitions -/

/-- The numbers of the functions made for one module are new and different. -/
theorem createMethods_fns (moduleName : Bytes) : ∀ (s : Registry Cb) (ms : List (Bytes × Cb)),
    s.functions.length ≤ (createMethods moduleName s ms).1.functions.length ∧
    (∀ e ∈ (createMethods moduleName s ms).2, s.functions.length ≤ e.2 ∧
      e.2 < (createMethods moduleName s ms).1.functions.length) ∧
    ((createMethods moduleName s ms).2.map Prod.snd).Nodup
  | _, [] => ⟨Nat.le_refl _, (fun _ he => nomatch he), List.nodup_nil⟩
  | s, (name, cb) :: rest => by
    obtain ⟨hle, hfns, hnodup⟩ :=
      createMethods_fns moduleName (s.createTrampoline (.method moduleName name) cb) rest
    have hlen : (s.createTrampoline (.method moduleName name) cb).functions.length =
        s.functions.length + 1 := by simp [createTrampoline]
    rw [hlen] at hle hfns
    simp only [createMethods]
    refine ⟨by omega, ?_, ?_⟩
    · intro e he
      rcases List.mem_cons.mp he with rfl | he
      · exact ⟨Nat.le_refl _, hle⟩
      · exact ⟨Nat.le_of_succ_le (hfns e he).1, (hfns e he).2⟩
    · refine List.nodup_cons.mpr ⟨?_, hnodup⟩
      intro hmem
      obtain ⟨e, he, heq⟩ := List.mem_map.mp hmem
      have hlt : s.functions.length + 1 ≤ e.2 := (hfns e he).1
      rw [heq] at hlt
      exact Nat.not_succ_le_self _ hlt

/-- A new definition at the end. -/
theorem Sound.snoc {s s' : Registry Cb} (hs : s.Sound) {d : ModuleDef}
    (hdefs : s'.defs = s.defs ++ [d]) (hself : s'.self = s.self)
    (hexported : s'.exported = s.exported) (hfns : s.functions.length ≤ s'.functions.length)
    (hinit : d.initialised = false)
    (hname : ∀ r, d.native = some r → d.name = newString (mangledName s.self r.moduleName))
    (hlatest : ∀ (m : DefId) d' r, s'.defs[m]? = some d' → d'.native = some r →
      s'.modules r.moduleName = some m → s'.methodsByModule r.moduleName = r.methods)
    (hnew : ∀ e ∈ d.methods, s.functions.length ≤ e.2 ∧ e.2 < s'.functions.length)
    (hnodup : (d.methods.map Prod.snd).Nodup) : s'.Sound := by
  have howned : s'.owned = s.owned ++ d.methods.map Prod.snd := by
    simp only [owned, hdefs, List.flatMap_append, List.flatMap_cons, List.flatMap_nil,
      List.append_nil]
  constructor
  · exact hlatest
  · intro m d' r hd' hr
    rw [hdefs] at hd'
    rw [hself]
    rcases getElem?_snoc hd' with hd' | ⟨-, rfl⟩
    · exact hs.name m d' r hd' hr
    · exact hname r hr
  · intro f hf
    rw [howned] at hf
    rcases List.mem_append.mp hf with hf | hf
    · exact Nat.lt_of_lt_of_le (hs.fresh f hf) hfns
    · obtain ⟨e, he, rfl⟩ := List.mem_map.mp hf
      exact (hnew e he).2
  · rw [howned]
    refine List.nodup_append.mpr ⟨hs.apart, hnodup, ?_⟩
    intro f hf g hg hfg
    obtain ⟨e, he, rfl⟩ := List.mem_map.mp hg
    -- old functions have smaller numbers
    have hlt := hs.fresh f hf
    rw [hfg] at hlt
    exact Nat.not_le_of_lt hlt (hnew e he).1
  · intro m d' hd'
    rw [hdefs] at hd'
    rw [exportsOf, hexported]
    rcases getElem?_snoc hd' with hd' | ⟨hm, rfl⟩
    · exact hs.exports m d' hd'
    · rw [hinit]
      have hnone : s.exported.filter (fun e => e.1 == m) = [] := by
        refine List.filter_eq_nil_iff.mpr ?_
        intro e he heq
        have hlt := hs.handed e he
        rw [beq_iff_eq.mp heq, hm] at hlt
        exact Nat.lt_irrefl _ hlt
      rw [hnone]
      rfl
  · intro e he
    rw [hexported] at he
    rw [hdefs, List.length_append]
    exact Nat.lt_of_lt_of_le (hs.handed e he) (Nat.le_add_right _ _)
  · rw [hexported]
    exact hs.once

theorem Sound.registerModule {s : Registry Cb} (hs : s.Sound) (moduleName : Bytes)
    (ms : List (Bytes × Cb)) : (s.registerModule moduleName ms).Sound := by
  obtain ⟨hself, hmethods, hmodules, hdefs, hexported⟩ := createMethods_frame moduleName s ms
  obtain ⟨hfns, hnew, hnodup⟩ := createMethods_fns moduleName s ms
  refine hs.snoc (d := ⟨newString (mangledName s.self moduleName),
    some ⟨moduleName, (createMethods moduleName s ms).2⟩, false, false, false⟩)
    (by simp only [Registry.registerModule, hdefs]) hself hexported hfns rfl ?_ ?_ hnew hnodup
  · intro r hr
    obtain rfl := Option.some.inj hr
    rfl
  · intro m d r hd hr hm
    simp only [Registry.registerModule, hdefs] at hd
    by_cases hname : r.moduleName = moduleName
    · -- the latest registration under the name is the new one
      have hlast : m = s.defs.length := by
        simp only [Registry.registerModule, hname, Function.update_self, hdefs] at hm
        exact (Option.some.inj hm).symm
      rcases getElem?_snoc hd with hd | ⟨-, rfl⟩
      · obtain ⟨hlt, -⟩ := List.getElem?_eq_some_iff.mp hd
        exact absurd hlast (Nat.ne_of_lt hlt)
      · obtain rfl := Option.some.inj hr
        exact Function.update_self ..
    · simp only [Registry.registerModule, Function.update_of_ne hname, hmodules, hmethods] at hm ⊢
      rcases getElem?_snoc hd with hd | ⟨-, rfl⟩
      · exact hs.latest m d r hd hr hm
      · obtain rfl := Option.some.inj hr
        exact absurd rfl hname

theorem Sound.addFile {s : Registry Cb} (hs : s.Sound) (name : Bytes) : (s.addFile name).Sound := by
  refine hs.snoc rfl rfl rfl (Nat.le_refl _) rfl (fun r hr => nomatch hr) ?_
    (fun e he => nomatch he) List.nodup_nil
  intro m d r hd hr hm
  rcases getElem?_snoc hd with hd | ⟨-, rfl⟩
  · exact hs.latest m d r hd hr hm
  · exact absurd hr (by simp)

/-! ## Resolving and freeing -/

theorem Sound.bind {s : Registry Cb} (hs : s.Sound) (m : DefId) : (s.bind m).Sound := by
  refine hs.congr rfl rfl rfl rfl (Nat.le_refl _) (List.ext_getElem? fun i => ?_)
  simp only [Registry.bind, List.getElem?_map, List.getElem?_modify]
  cases s.defs[i]? with
  | none => rfl
  | some d =>
    by_cases hi : m = i
    · simp only [hi, if_true, Option.map_some]
      rfl
    · simp only [hi, if_false, Option.map_some]
      rfl

theorem Sound.freeUnresolved {s : Registry Cb} (hs : s.Sound) : s.freeUnresolved.Sound := by
  refine hs.congr rfl rfl rfl rfl (Nat.le_refl _) ?_
  simp only [Registry.freeUnresolved, List.map_map]
  rfl

theorem Sound.resolve {s : Registry Cb} (hs : s.Sound) (cname : Bytes) (loads : Bool) :
    (s.resolve cname loads).Sound := by
  unfold Registry.resolve
  split
  next m _ => exact hs.bind m
  next =>
    unfold jsModuleLoader
    cases s.modules cname with
    | some m => exact hs.bind m
    | none =>
      cases loads with
      | true => exact (hs.addFile cname).bind _
      | false => exact hs

/-! ## Evaluating -/

/-- What `module_init` finds for the latest definition under a name that can be
decoded. -/
theorem Sound.initMethods {s : Registry Cb} (hs : s.Sound) {m : DefId} {d : ModuleDef}
    {r : Registration} (hd : s.defs[m]? = some d) (hr : d.native = some r)
    (hfreed : d.freed = false) (hcolons : ¬colons <:+: r.moduleName) (hstable : Stable r.moduleName)
    (hlatest : s.modules r.moduleName = some m) : s.initMethods d = d.methods := by
  have hdecode : decodeName (cstr (toCStringLen d.name)) = some (s.self, r.moduleName) := by
    rw [hs.name m d r hd hr]
    show decodeName (throughEngine (mangledName s.self r.moduleName)) = _
    rw [decodeName_mangledName, beforeFirst_throughEngine_iff.mpr ⟨hcolons, hstable⟩]
  have hmethods : d.methods = r.methods := by simp only [ModuleDef.methods, hr]
  rw [Registry.initMethods, hfreed, hdecode, hmethods]
  simpa using hs.latest m d r hd hr hlatest

/-- Different definitions have different functions. -/
theorem Sound.disjoint {s : Registry Cb} (hs : s.Sound) {m m' : DefId} {d d' : ModuleDef}
    (hd : s.defs[m]? = some d) (hd' : s.defs[m']? = some d') (hne : m ≠ m') :
    (d.methods.map Prod.snd).Disjoint (d'.methods.map Prod.snd) := by
  obtain ⟨-, hpair⟩ := List.nodup_flatMap.mp hs.apart
  rw [List.pairwise_iff_getElem] at hpair
  obtain ⟨hm, rfl⟩ := List.getElem?_eq_some_iff.mp hd
  obtain ⟨hm', rfl⟩ := List.getElem?_eq_some_iff.mp hd'
  rcases Nat.lt_or_gt_of_ne hne with hlt | hgt
  · exact hpair m m' hm hm' hlt
  · exact (hpair m' m hm' hm hgt).symm

/-- What has been handed over belongs to an initialised definition. -/
theorem Sound.of_exported {s : Registry Cb} (hs : s.Sound) {e : DefId × Bytes × FnId}
    (he : e ∈ s.exported) :
    ∃ d, s.defs[e.1]? = some d ∧ d.initialised = true ∧ e.2 ∈ d.methods := by
  have hd := List.getElem?_eq_getElem (hs.handed e he)
  have hmem : e.2 ∈ s.exportsOf e.1 :=
    List.mem_map.mpr ⟨e, List.mem_filter.mpr ⟨he, beq_self_eq_true _⟩, rfl⟩
  rw [hs.exports e.1 _ hd] at hmem
  split at hmem
  next hinit => exact ⟨_, hd, hinit, hmem⟩
  next => exact absurd hmem (by simp)

section

variable {s : Registry Cb} {m : DefId} {d : ModuleDef}

/-- Evaluating marks one definition. -/
theorem getElem?_evaluate {m' : DefId} {d' : ModuleDef}
    (h : (s.evaluate m d).defs[m']? = some d') :
    m' ≠ m ∧ s.defs[m']? = some d' ∨ m' = m ∧ d' = { d with initialised := true } := by
  simp only [Registry.evaluate, List.getElem?_set] at h
  by_cases hm : m = m'
  · subst hm
    rw [if_pos rfl] at h
    split at h
    next => exact Or.inr ⟨rfl, (Option.some.inj h).symm⟩
    next => exact absurd h (by simp)
  · rw [if_neg hm] at h
    exact Or.inl ⟨Ne.symm hm, h⟩

theorem owned_evaluate (hd : s.defs[m]? = some d) : (s.evaluate m d).owned = s.owned := by
  refine owned_congr (List.ext_getElem? fun i => ?_)
  simp only [Registry.evaluate, List.getElem?_map, List.getElem?_set]
  by_cases hi : m = i
  · subst hi
    obtain ⟨hlt, -⟩ := List.getElem?_eq_some_iff.mp hd
    rw [if_pos rfl, if_pos hlt, hd]
    rfl
  · rw [if_neg hi]

/-- The exports set now are those of the one definition. -/
theorem exportsOf_evaluate (m' : DefId) :
    (s.evaluate m d).exportsOf m' = s.exportsOf m' ++ if m = m' then s.initMethods d else [] := by
  have hnew : (((s.initMethods d).map fun e => (m, e)).filter fun e => e.1 == m').map Prod.snd =
      if m = m' then s.initMethods d else [] := by
    rw [List.filter_map, List.map_map]
    show (((s.initMethods d).filter fun _ => m == m').map id) = _
    rw [List.map_id]
    by_cases hm : m = m'
    · rw [if_pos hm]
      exact List.filter_eq_self.mpr fun e _ => beq_iff_eq.mpr hm
    · rw [if_neg hm]
      exact List.filter_eq_nil_iff.mpr fun e _ he => hm (beq_iff_eq.mp he)
  show ((s.exported ++ (s.initMethods d).map fun e => (m, e)).filter fun e => e.1 == m').map
    Prod.snd = _
  rw [List.filter_append, List.map_append, hnew]
  rfl

/-- A definition that exports its own functions. -/
theorem Sound.evaluate (hs : s.Sound) (hd : s.defs[m]? = some d) (hinit : d.initialised = false)
    (hmethods : s.initMethods d = d.methods) : (s.evaluate m d).Sound := by
  have hexported : (s.evaluate m d).exported = s.exported ++ d.methods.map fun e => (m, e) := by
    simp only [Registry.evaluate, hmethods]
  constructor
  · intro m' d' r hd' hr hm
    rcases getElem?_evaluate hd' with ⟨-, hd'⟩ | ⟨rfl, rfl⟩
    · exact hs.latest m' d' r hd' hr hm
    · exact hs.latest m' d r hd hr hm
  · intro m' d' r hd' hr
    rcases getElem?_evaluate hd' with ⟨-, hd'⟩ | ⟨rfl, rfl⟩
    · exact hs.name m' d' r hd' hr
    · exact hs.name m' d r hd hr
  · rw [owned_evaluate hd]
    exact hs.fresh
  · rw [owned_evaluate hd]
    exact hs.apart
  · intro m' d' hd'
    rw [exportsOf_evaluate, hmethods]
    rcases getElem?_evaluate hd' with ⟨hne, hd'⟩ | ⟨rfl, rfl⟩
    · rw [if_neg (Ne.symm hne), List.append_nil]
      exact hs.exports m' d' hd'
    · -- nothing had been set before, and all that is set now is its own
      rw [if_pos rfl, hs.exports m' d hd, hinit]
      rfl
  · intro e he
    rw [hexported] at he
    simp only [Registry.evaluate, List.length_set]
    rcases List.mem_append.mp he with he | he
    · exact hs.handed e he
    · obtain ⟨x, -, rfl⟩ := List.mem_map.mp he
      exact (List.getElem?_eq_some_iff.mp hd).1
  · rw [hexported, List.map_append, List.map_map]
    obtain ⟨hnodup, -⟩ := List.nodup_flatMap.mp hs.apart
    refine List.nodup_append.mpr ⟨hs.once, hnodup d (List.mem_of_getElem? hd), ?_⟩
    intro f hf g hg hfg
    -- what has been handed over before is another definition's
    obtain ⟨e, he, rfl⟩ := List.mem_map.mp hf
    obtain ⟨d', hd', hinit', hmem⟩ := hs.of_exported he
    have hne : e.1 ≠ m := by
      intro h
      rw [h, hd] at hd'
      rw [← Option.some.inj hd', hinit] at hinit'
      exact absurd hinit' (by simp)
    exact hs.disjoint hd' hd hne (List.mem_map.mpr ⟨e.2, hmem, rfl⟩) (hfg ▸ hg)

end

/-! ## Runs -/

theorem Sound.step {s s' : Registry Cb} {op : Op Cb} (hs : s.Sound) (hop : s.LatestOp op)
    (hstep : Registry.step s op s') : s'.Sound := by
  cases hstep with
  | registerCallback fnName cb =>
    exact hs.congr rfl rfl rfl rfl (by simp [Registry.registerCallback, createTrampoline]) rfl
  | registerModule moduleName ms => exact hs.registerModule moduleName ms
  | evalModule fileName => exact hs.addFile fileName
  | resolve cname loads => exact hs.resolve cname loads
  | failImport => exact hs.freeUnresolved
  | evaluate hd hnative hresolved hinit =>
    obtain ⟨r, hr⟩ := Option.isSome_iff_exists.mp hnative
    obtain ⟨hfreed, hcolons, hstable, hlatest⟩ := hop _ r hd hr
    exact hs.evaluate hd hinit (hs.initMethods hd hr hfreed hcolons hstable hlatest)

/-- **Definitions export their own functions** in every run in which each is
evaluated while it is the latest under a name that can be decoded. -/
theorem initsOwn_of_along {self : UInt64} {ops : List (Op Cb)} {s : Registry Cb}
    (h : Along step LatestOp (new self) ops s) : s.InitsOwn :=
  (h.invariant (sound_new self) fun _ _ _ hs hop hstep => hs.step hop hstep).initsOwn

/-- The module `m` with one method, an import of it resolved. -/
def imported : Registry Nat :=
  ((new 16).registerModule (ascii "m") [(ascii "f", 1)]).resolve (ascii "m") false

theorem imported_defs : imported.defs[0]? = some ⟨newString (mangledName 16 (ascii "m")),
    some ⟨ascii "m", [(ascii "f", 0)]⟩, true, false, false⟩ := by
  decide +kernel

/-- The imported module is initialised. -/
theorem initsOwn_of_along_imported : (imported.evaluate 0
    ⟨newString (mangledName 16 (ascii "m")), some ⟨ascii "m", [(ascii "f", 0)]⟩, true, false,
      false⟩).InitsOwn := by
  have hlatest : LatestOp imported (.evaluate 0) := by
    intro d r hd hr
    rw [imported_defs] at hd
    obtain rfl := Option.some.inj hd
    obtain rfl := Option.some.inj hr
    refine ⟨rfl, by decide, stable_of_ascii (by decide +kernel), ?_⟩
    decide +kernel
  have hrun : Along step LatestOp (new 16 : Registry Nat)
      [.registerModule (ascii "m") [(ascii "f", 1)], .resolve (ascii "m") false, .evaluate 0] _ :=
    .cons trivial (.registerModule ..) (.cons trivial (.resolve ..)
      (.cons hlatest (.evaluate imported imported_defs rfl rfl rfl) (.nil _)))
  exact initsOwn_of_along hrun

/-- Registered again between import and evaluation, the first definition is
given the function made for the second. -/
theorem initsOwn_fails : ¬∀ (ops : List (Op Nat)) (s : Registry Nat),
    Run step (new 16) ops s → s.InitsOwn := by
  intro h
  have hdefs : (imported.registerModule (ascii "m") [(ascii "g", 2)]).defs[0]? =
      some ⟨newString (mangledName 16 (ascii "m")), some ⟨ascii "m", [(ascii "f", 0)]⟩, true, false,
        false⟩ := by
    decide +kernel
  have hinit := h _ _ (.cons (.registerModule (new 16) (ascii "m") [(ascii "f", 1)])
    (.cons (.resolve _ (ascii "m") false)
      (.cons (.registerModule imported (ascii "m") [(ascii "g", 2)])
        (.cons (.evaluate _ hdefs rfl rfl rfl) (.nil _)))))
  have hown := hinit.1 0 ⟨newString (mangledName 16 (ascii "m")),
    some ⟨ascii "m", [(ascii "f", 0)]⟩, true, true, false⟩ (by decide +kernel) rfl
  exact absurd hown (by decide +kernel)

end Registry

end Ejr
