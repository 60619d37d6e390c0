import Ejr.LoadGraph

/-!
# What loaded modules are bound to

A load leaves the requests of every module it has loaded bound to modules:
linking and evaluation follow these pointers without looking. `bound_of_along`
is about whole runs of registrations and loads, those that fail included: every
request of every module on the list is bound to what it asks for, a module that
is there and has been resolved, as long as each load that fails has met no
cycle. With a cycle the definition that a failed load gives up may be the one
that a module that stays is bound to.

It comes out of one induction over the recursion of a load (`hostSpec`): a new
module is in progress while its requests are bound (`Ejr.LoadGraph`), and the
modules in progress are the ones on the way to where the recursion is, so that
an import that is bound to one of them closes a cycle.
-/

namespace Ejr

open Lib

variable {Cb : Type}

namespace Loading

/-! ## The recursion -/

/-- No import leads back to where it comes from. -/
def Acyclic (E : JSString → JSString → Prop) : Prop := ∀ a, ¬Relation.TransGen E a a

/-- What the files the loader may answer import, as names. -/
def FilesImport (host : Host) (E : JSString → JSString → Prop) : Prop :=
  ∀ asked name requests, host.compile name (host.loadFile asked name) = some requests →
    ∀ specifier ∈ requests, E (newString name) (newString (importName (newString name) specifier))

/-- Where a module called `base` makes its imports: from each module in progress
they are imports of imports. -/
structure Underway (E : JSString → JSString → Prop) (P : List DefId) (base : JSString)
    (s : Loading Cb) : Prop where
  tidy : Tidy P s
  apart : Acyclic E → Apart P s
  path : ∀ p ∈ P, ∃ d : ModuleDef, s.registry.defs[p]? = some d ∧
    Relation.ReflTransGen E d.name base

/-- An import that is bound. -/
structure Binds (host : Host) (E : JSString → JSString → Prop) (P : List DefId) (cname : Bytes)
    (s t : Loading Cb) (m1 : DefId) : Prop where
  tidy : Tidy P t
  apart : Acyclic E → Apart P t
  news : NewOnes host P s t
  live : t.Live m1
  answers : t.Answers cname m1
  notInProgress : Acyclic E → m1 ∉ P

/-- What `js_host_resolve_imported_module` comes to, if modules in progress make only
imports of `E`. -/
def HostSpec (Cb : Type) (host : Host) (E : JSString → JSString → Prop) (n : Nat) : Prop :=
  ∀ (P : List DefId) (base specifier : JSString) (s : Loading Cb), Underway E P base s →
    (∀ p ∈ P, E base (newString (importName base specifier))) →
    wp (hostResolveImportedModule host (resolveModule host n) base specifier) s
      (fun r t => s.Grows (fun _ => False) t ∧
        (∀ m1, r = some m1 → Binds host E P (importName base specifier) s t m1) ∧
        (r = none → Acyclic E → Tidy P t ∧ Apart P t)) (fun _ _ => True)

section

variable {host : Host} {E : JSString → JSString → Prop} {P : List DefId} {base : JSString}
  {n : Nat} {s t : Loading Cb} {but : DefId → Prop}

theorem Underway.after (h : Underway E P base s) (hg : s.Grows but t)
    (htidy : Tidy P t) (hapart : Acyclic E → Apart P t) : Underway E P base t where
  tidy := htidy
  apart := hapart
  path p hp := by
    obtain ⟨d, hd, hpath⟩ := h.path p hp
    obtain ⟨d', hd', hname, -⟩ := hg.old p d hd
    exact ⟨d', hd', hname ▸ hpath⟩

theorem grows_setModule (s : Loading Cb) (m : DefId) (rmes : List ReqModuleEntry) :
    s.Grows (· = m) { s with reqModuleEntries := Function.update s.reqModuleEntries m rmes } where
  modules := rfl
  old _ d hd := ⟨d, hd, rfl, rfl, rfl, id⟩
  entries _ _ hne := Function.update_of_ne hne _ _

/-- By induction on the requests that are left. -/
theorem wp_resolveEntries (hhost : HostSpec Cb host E n) {m : DefId} (hm : m ∈ P)
    (names : List JSString) : ∀ (done : List ReqModuleEntry) (s : Loading Cb),
    Underway E P base s →
    s.reqModuleEntries m = done ++ names.map (fun name => ⟨name, none⟩) →
    s.Bindings base done →
    (∀ name ∈ names, E base (newString (importName base name))) →
    wp (resolveEntries host (resolveModule host n) m base done.length names) s
      (fun ok t => s.Grows (· = m) t ∧
        (ok = true → Tidy P t ∧ (Acyclic E → Apart P t) ∧ NewOnes host P s t ∧
          t.Bindings base (t.reqModuleEntries m) ∧
          (t.reqModuleEntries m).map ReqModuleEntry.moduleName =
            done.map ReqModuleEntry.moduleName ++ names) ∧
        (ok = false → Acyclic E → Tidy P t ∧ Apart P t)) (fun _ _ => True) := by
  induction names with
  | nil =>
    intro done s hs hentries hdone _
    refine ⟨.refl s, fun _ => ⟨hs.tidy, hs.apart, newOnes_nil rfl rfl, ?_, ?_⟩,
      fun h => absurd h (by simp)⟩
    · rw [hentries]
      simpa using hdone
    · rw [hentries]
      simp
  | cons name names ih =>
    intro done s hs hentries hdone hE
    rw [resolveEntries, wp_bind]
    refine wp_mono (hhost P base name s hs fun _ _ => hE name (List.mem_cons_self ..)) ?_
      (fun _ _ _ => trivial)
    intro r t h
    obtain ⟨hg, hsome, hnone⟩ := h
    cases r with
    | none =>
      exact ⟨hg.weaken fun _ h => h.elim, fun h => absurd h (by simp), fun _ => hnone rfl⟩
    | some m1 =>
      have hbinds := hsome m1 rfl
      obtain ⟨dm, hdm, -⟩ := hs.tidy.progress m hm
      have hm_lt := lt_of_defs hdm
      -- the request is bound
      have hkept : t.reqModuleEntries m = done ++ (name :: names).map (fun name => ⟨name, none⟩) :=
        (hg.entries m hm_lt id).trans hentries
      have hmodify : (t.reqModuleEntries m).modify done.length
          (fun rme => { rme with moduleDef := some m1 }) =
            (done ++ [⟨name, some m1⟩]) ++ names.map (fun name => ⟨name, none⟩) := by
        rw [hkept, List.map_cons]
        exact modify_done done ⟨name, none⟩ _ m1
      have hrmes : ∀ rme ∈ (done ++ [⟨name, some m1⟩]) ++ names.map (fun name => ⟨name, none⟩),
          rme ∈ t.reqModuleEntries m ∨ rme.moduleDef = some m1 := by
        intro rme hrme
        rw [hkept]
        rcases List.mem_append.mp hrme with hrme | hrme
        · rcases List.mem_append.mp hrme with hrme | hrme
          · exact .inl (List.mem_append_left _ hrme)
          · exact .inr (by rw [List.mem_singleton.mp hrme])
        · exact .inl (List.mem_append_right _ (List.mem_cons_of_mem _ hrme))
      rw [wp_bind]
      show wp _ { t with
        reqModuleEntries := Function.update t.reqModuleEntries m
          ((t.reqModuleEntries m).modify done.length _) } _ _
      rw [hmodify]
      have hset := grows_setModule t m
        ((done ++ [⟨name, some m1⟩]) ++ names.map (fun name => ⟨name, none⟩))
      have htidy := hbinds.tidy.setModule hrmes hm hbinds.live.lt
      have hapart : Acyclic E → Apart P _ := fun hE =>
        (hbinds.apart hE).setModule hrmes (hbinds.notInProgress hE)
      rw [wp_bind]
      refine wp_mono (wp_resolveModule_settled (· = m) n htidy hbinds.live) ?_
        (fun _ _ _ => trivial)
      intro ok u hu
      obtain ⟨rfl, hasked, hready, hgu, hlen, heq⟩ := hu
      have hgu' : t.Grows (· = m) u := hset.trans hgu
      have hnews : NewOnes host P s u :=
        hbinds.news.trans (newOnes_nil hasked hlen) hgu' fun _ h => h ▸ hm
      have hgs : s.Grows (· = m) u := (hg.weaken fun _ h => h.elim).trans hgu'
      -- the rest, from where this request is bound
      have hlength : (done ++ [(⟨name, some m1⟩ : ReqModuleEntry)]).length = done.length + 1 := by
        simp
      rw [if_pos rfl, ← hlength]
      refine wp_mono (ih (done ++ [⟨name, some m1⟩]) u
        (hs.after hgs (htidy.congr hgu hlen heq) fun hE => (hapart hE).congr hgu hlen heq) ?_ ?_
        fun name' h => hE name' (List.mem_cons_of_mem _ h)) ?_ (fun _ _ _ => trivial)
      · rw [heq]
        exact Function.update_self ..
      · refine List.forall_mem_append.mpr ⟨hgs.bindings hdone, fun rme hrme => ?_⟩
        rw [List.mem_singleton.mp hrme]
        exact ⟨m1, rfl, hready, hgu'.answers hbinds.answers⟩
      · intro ok v hv
        obtain ⟨hgv, htrue, hfalse⟩ := hv
        refine ⟨hgs.trans hgv, fun hok => ?_, hfalse⟩
        obtain ⟨h1, h2, h3, h4, h5⟩ := htrue hok
        refine ⟨h1, h2, hnews.trans h3 hgv fun _ h => h ▸ hm, h4, ?_⟩
        rw [h5, List.map_append, List.append_assoc]
        rfl

/-- A new module, with its requests bound. -/
structure NewModule (host : Host) (E : JSString → JSString → Prop) (P : List DefId) (name : Bytes)
    (requests : List JSString) (s t : Loading Cb) (m : DefId) : Prop where
  tidy : Tidy P t
  apart : Acyclic E → Apart P t
  news : NewOnes host (m :: P) s t
  last : m = s.registry.defs.length
  live : ∃ d : ModuleDef, t.registry.defs[m]? = some d ∧ d.freed = false ∧ d.resolved = true ∧
    d.name = newString name ∧ d.native = none
  requests : (t.reqModuleEntries m).map ReqModuleEntry.moduleName = requests

theorem Underway.inProgress {name : Bytes} {requests : List JSString}
    (h : Underway E P (newString name) s) :
    Underway E (s.registry.defs.length :: P) (newString name) (s.inProgress name requests) where
  tidy := h.tidy.inProgress
  apart hE := (h.apart hE).inProgress h.tidy
  path p hp := by
    rcases List.mem_cons.mp hp with rfl | hp
    · exact ⟨_, defs_inProgress_self, .refl⟩
    · obtain ⟨d, hd, hpath⟩ := h.path p hp
      exact ⟨d, defs_inProgress_old hd, hpath⟩

/-- A new module that has been parsed. -/
def parsed (s : Loading Cb) (name : Bytes) (requests : List JSString) : Loading Cb where
  registry := s.registry.newModuleDef name
  reqModuleEntries := Function.update s.reqModuleEntries s.registry.defs.length
    (requests.map fun r => ⟨r, none⟩)
  asked := s.asked

/-- Where its resolution begins. -/
theorem resolveModule_parsed (s : Loading Cb) (name : Bytes) (requests : List JSString) :
    resolveModule host (n + 1) s.registry.defs.length (s.parsed name requests) =
      resolveEntries host (resolveModule host n) s.registry.defs.length (newString name) 0 requests
        (s.inProgress name requests) := by
  have hderef : derefModule s.registry.defs.length (s.parsed name requests) =
      .ok ⟨newString name, none, false, false, false⟩ (s.parsed name requests) := by
    have hdef : (s.parsed name requests).registry.defs[s.registry.defs.length]? =
        some ⟨newString name, none, false, false, false⟩ := List.getElem?_concat_length ..
    rw [derefModule]
    refine get_bind_eq.trans ?_
    rw [hdef]
    rfl
  have hset : setResolved s.registry.defs.length (s.parsed name requests) =
      .ok () (s.inProgress name requests) := by
    have hbind : (s.registry.newModuleDef name).bind s.registry.defs.length =
        (s.inProgress name requests).registry := by
      unfold Registry.bind Registry.newModuleDef
      dsimp only
      rw [modify_concat]
      rfl
    show EStateM.Result.ok () { s.parsed name requests with
      registry := (s.registry.newModuleDef name).bind s.registry.defs.length } = _
    rw [hbind]
    rfl
  have hnames : ((s.inProgress name requests).reqModuleEntries s.registry.defs.length).map
      ReqModuleEntry.moduleName = requests := by
    have hentries : (s.inProgress name requests).reqModuleEntries s.registry.defs.length =
        requests.map fun r => ⟨r, none⟩ := Function.update_self ..
    rw [hentries, List.map_map]
    exact List.map_id' _
  rw [resolveModule]
  refine (bind_of_ok hderef).trans ?_
  refine (bind_of_ok hset).trans ?_
  refine get_bind_eq.trans ?_
  rw [hnames]

/-- A module is compiled: it is in progress while its requests are bound, and given up
if one of them cannot be. -/
theorem wp_resolveParsed (hhost : HostSpec Cb host E n) {name : Bytes} {requests : List JSString}
    (hs : Underway E P (newString name) s)
    (hE : ∀ specifier ∈ requests,
      E (newString name) (newString (importName (newString name) specifier))) :
    wp (resolveParsed (resolveModule host (n + 1)) s.registry.defs.length requests)
      { s with registry := s.registry.newModuleDef name }
      (fun r t => s.Grows (fun _ => False) t ∧
        (∀ m, r = some m → NewModule host E P name requests s t m) ∧
        (r = none → Acyclic E → Tidy P t ∧ Apart P t)) (fun _ _ => True) := by
  have hloop := wp_resolveEntries hhost
    (List.mem_cons_self (a := s.registry.defs.length) (l := P)) requests []
    (s.inProgress name requests) hs.inProgress (Function.update_self ..) (by simp [Bindings]) hE
  rw [resolveParsed, wp_bind]
  show wp (resolveModule host (n + 1) s.registry.defs.length >>= _) (s.parsed name requests) _ _
  rw [wp_bind, wp_congr (resolveModule_parsed s name requests)]
  refine wp_mono hloop ?_ (fun _ _ _ => trivial)
  intro ok t h
  obtain ⟨hg, htrue, hfalse⟩ := h
  -- the new module is none of the old ones
  have hg' : s.Grows (fun _ => False) t :=
    grows_inProgress.trans_new hg fun i hi hm => absurd hm (Nat.ne_of_lt hi)
  cases ok with
  | true =>
    obtain ⟨htidy, hapart, hnews, hbind, hnames⟩ := htrue rfl
    refine ⟨hg', fun m hm => ?_, fun h => absurd h (by simp)⟩
    obtain rfl := Option.some.inj hm
    obtain ⟨d, hd, hname, hnative, hfreed, hres⟩ := hg.old _ _ defs_inProgress_self
    exact
      { tidy := htidy.finish hd (hname ▸ hbind)
        apart := fun hE => (hapart hE).finish
        news := newOnes_inProgress hnews
        last := rfl
        live := ⟨d, hd, hfreed, hres rfl, hname, hnative⟩
        requests := hnames }
  | false =>
    refine ⟨grows_freed hg' (Nat.le_refl _), fun m hm => absurd hm (by simp), fun _ hE => ?_⟩
    obtain ⟨htidy, hapart⟩ := hfalse rfl hE
    exact ⟨htidy.freed hapart, hapart.freed⟩

/-- Asking changes nothing but the history. -/
theorem Underway.ask (h : Underway E P base s) {name : Bytes}
    (hname : ∀ p ∈ P, E base (newString name))
    (asked : List (Bytes × Bytes)) : Underway E P (newString name) { s with asked := asked } where
  tidy := ⟨h.tidy.settled, h.tidy.plain, h.tidy.native, h.tidy.progress, h.tidy.known, h.tidy.bound⟩
  apart := h.apart
  path p hp := by
    obtain ⟨d, hd, hpath⟩ := h.path p hp
    exact ⟨d, hd, hpath.tail (hname p hp)⟩

/-- What has been compiled from an answer is bound. -/
theorem NewModule.binds {name contents : Bytes} {requests : List JSString} {m : DefId}
    (htidy : Tidy P s) (hcompile : host.compile name contents = some requests)
    (h : NewModule host E P name requests { s with asked := s.asked ++ [(name, contents)] } t m) :
    Binds host E P name s t m := by
  obtain ⟨d, hd, hfreed, -, hname, -⟩ := h.live
  refine ⟨h.tidy, h.apart, ?_, ⟨d, hd, hfreed⟩, ⟨d, hd, .inl hname⟩, fun _ hmem => ?_⟩
  · obtain ⟨log, hasked, hnew⟩ := h.news
    refine ⟨(name, contents) :: log, by rw [hasked, List.append_assoc]; rfl,
      fun i di hi hdi hP => ?_⟩
    by_cases him : i = m
    · subst him
      obtain rfl := Option.some.inj (hd.symm.trans hdi)
      exact ⟨hfreed, _, List.mem_cons_self .., hname, by rw [h.requests]; exact hcompile⟩
    · obtain ⟨hlive, e, he, hrest⟩ := hnew i di hi hdi
        fun hmem => (List.mem_cons.mp hmem).elim him hP
      exact ⟨hlive, e, List.mem_cons_of_mem _ he, hrest⟩
  · obtain ⟨d', hd', -⟩ := htidy.progress m hmem
    exact absurd (lt_of_defs hd') (h.last ▸ Nat.lt_irrefl _)

/-- What there is already is bound without a load. -/
theorem binds_old (hs : Underway E P base s) {name : Bytes}
    (hname : ∀ p ∈ P, E base (newString name))
    {m1 : DefId} (hm1 : s.registry.findLoaded (newString name) = some m1 ∨
      s.registry.modules name = some m1) : Binds host E P name s s m1 := by
  obtain ⟨d, hd, hlive, hkind⟩ : ∃ d : ModuleDef, s.registry.defs[m1]? = some d ∧
      d.freed = false ∧
      (d.name = newString name ∨ ∃ r, d.native = some r ∧ r.moduleName = name) := by
    rcases hm1 with hm1 | hm1
    · obtain ⟨hlt, -⟩ := List.findIdx?_eq_some_iff_getElem.mp hm1
      obtain ⟨hlive, hown, -⟩ :=
        (Registry.findLoaded_eq_some (List.getElem?_eq_getElem hlt)).mp hm1
      exact ⟨_, List.getElem?_eq_getElem hlt, hlive, .inl hown⟩
    · obtain ⟨d, r, hd, hlive, hnative⟩ := hs.tidy.native name m1 hm1
      exact ⟨d, hd, hlive, .inr ⟨r, hnative⟩⟩
  refine ⟨hs.tidy, hs.apart, newOnes_nil rfl rfl, ⟨d, hd, hlive⟩, ⟨d, hd, hkind⟩,
    fun hE hmem => ?_⟩
  obtain ⟨dp, hdp, hnone⟩ := hs.tidy.progress m1 hmem
  obtain rfl := Option.some.inj (hd.symm.trans hdp)
  rcases hkind with hown | ⟨r, hnative, -⟩
  · -- the import would close a cycle
    obtain ⟨d', hd', hpath⟩ := hs.path m1 hmem
    obtain rfl := Option.some.inj (hd.symm.trans hd')
    rw [hown] at hpath
    exact hE _ (.tail' hpath (hname m1 hmem))
  · exact absurd (hnative.symm.trans hnone) (by simp)

/-- A compilation, where what it loads is one level further down. -/
theorem wp_compileModule (hprev : ∀ k, n = k + 1 → HostSpec Cb host E k) {name contents : Bytes}
    (hs : Underway E P (newString name) s)
    (hE : ∀ requests, host.compile name contents = some requests → ∀ specifier ∈ requests,
      E (newString name) (newString (importName (newString name) specifier))) :
    wp (compileModule host (resolveModule host n) name contents) s
      (fun r t => s.Grows (fun _ => False) t ∧
        (∀ m, r = some m → ∃ requests, host.compile name contents = some requests ∧
          NewModule host E P name requests s t m) ∧
        (r = none → Acyclic E → Tidy P t ∧ Apart P t)) (fun _ _ => True) := by
  refine wp_compileModule_cases (fun _ => ?_) fun requests hcompile => ?_
  · refine ⟨grows_freed (grows_newModuleDef s name) (Nat.le_refl _), fun m h => absurd h (by simp), ?_⟩
    exact fun _ hacyclic => notParsed hs.tidy (hs.apart hacyclic) name
  · cases n with
    | zero => trivial
    | succ k =>
      refine wp_mono (wp_resolveParsed (hprev k rfl) hs (hE requests hcompile)) ?_
        (fun _ _ _ => trivial)
      intro r t h
      exact ⟨h.1, fun m hm => ⟨requests, hcompile, h.2.1 m hm⟩, h.2.2⟩

/-- What `js_host_resolve_imported_module` comes to, by induction on the depth. -/
theorem hostSpec (hfiles : FilesImport host E) (n : Nat) : HostSpec Cb host E n := by
  have hstep : ∀ n, (∀ k, n = k + 1 → HostSpec Cb host E k) → HostSpec Cb host E n := by
    intro n hprev P base specifier s hs hE
    have hask := hs.ask hE (s.asked ++
      [(importName base specifier, host.loadFile s.asked (importName base specifier))])
    refine wp_hostResolveImportedModule_cases rfl (fun m1 hm1 => ?_) (fun _ _ => ?_) fun _ _ => ?_
    · refine ⟨.refl s, fun m hm => ?_, fun h => absurd h (by simp)⟩
      obtain rfl := Option.some.inj hm
      exact binds_old hs hE hm1
    · exact ⟨grows_ask .., fun m h => absurd h (by simp), fun _ hE => ⟨hask.tidy, hask.apart hE⟩⟩
    · refine wp_mono (wp_compileModule hprev hask (hfiles s.asked _)) ?_ (fun _ _ _ => trivial)
      intro r t h
      obtain ⟨hg, hsome, hnone⟩ := h
      refine ⟨(grows_ask s _).trans hg, fun m hm => ?_, hnone⟩
      obtain ⟨requests, hcompile, hnew⟩ := hsome m hm
      exact hnew.binds hs.tidy hcompile
  induction n with
  | zero => exact hstep 0 fun k hk => absurd hk (by simp)
  | succ n ih => exact hstep (n + 1) fun k hk => Nat.succ.inj hk ▸ ih

end

/-! ## One load -/

/-- The imports a load can meet, as names: those of the files, and those of the script. -/
inductive Load.Imports (host : Host) (l : Load) : JSString → JSString → Prop where
  | file {asked : List (Bytes × Bytes)} {name : Bytes} {requests : List JSString}
      {specifier : JSString} (h : host.compile name (host.loadFile asked name) = some requests)
      (hmem : specifier ∈ requests) :
      l.Imports host (newString name) (newString (importName (newString name) specifier))
  | script {fileName contents : Bytes} {requests : List JSString} {specifier : JSString}
      (hl : l = .evalModule fileName contents)
      (h : host.compile fileName contents = some requests) (hmem : specifier ∈ requests) :
      l.Imports host (newString fileName)
        (newString (importName (newString fileName) specifier))

/-- Where a load begins to import: the definition of a script is on the list by then. -/
def Load.start (s : Loading Cb) : Load → Loading Cb
  | .importModule _ _ => s
  | .evalModule fileName _ => { s with registry := s.registry.newModuleDef fileName }

/-- What it imports itself. -/
inductive Load.Root (host : Host) : Load → Bytes → Prop where
  | importModule (base specifier : JSString) :
      Load.Root host (.importModule base specifier) (importName base specifier)
  | evalModule {fileName contents : Bytes} {requests : List JSString} {specifier : JSString}
      (h : host.compile fileName contents = some requests) (hmem : specifier ∈ requests) :
      Load.Root host (.evalModule fileName contents) (importName (newString fileName) specifier)

/-- A load that has gone well. -/
structure LoadedBy (host : Host) (l : Load) (s t : Loading Cb) : Prop where
  tidy : Tidy [] t
  grows : (l.start s).Grows (· = s.registry.defs.length) t
  news : NewOnes host [] (l.start s) t
  roots : ∀ name, l.Root host name → ∃ m1, t.Ready m1 ∧ t.Answers name m1

/-- A script that has been compiled. -/
theorem NewModule.loadedBy {host : Host} {E : JSString → JSString → Prop}
    {fileName contents : Bytes} {requests : List JSString} {s t : Loading Cb} {m : DefId}
    (hcompile : host.compile fileName contents = some requests)
    (hg : s.Grows (fun _ => False) t) (h : NewModule host E [] fileName requests s t m) :
    LoadedBy host (.evalModule fileName contents) s t := by
  obtain ⟨d, hd, hfreed, -, hname, hnative⟩ := h.live
  have hlen : (Load.start s (.evalModule fileName contents)).registry.defs.length =
      s.registry.defs.length + 1 := List.length_append
  refine ⟨h.tidy, ⟨hg.modules, fun i d' hd' => ?_, fun i hi hne => ?_⟩, ?_, fun name hroot => ?_⟩
  · rcases Registry.getElem?_snoc hd' with hold | ⟨rfl, rfl⟩
    · exact hg.old i d' hold
    · exact ⟨d, h.last ▸ hd, hname, hnative, hfreed, fun h => absurd h (by simp)⟩
  · rw [hlen] at hi
    exact hg.entries i (Nat.lt_of_le_of_ne (Nat.le_of_lt_succ hi) hne) id
  · obtain ⟨log, hasked, hnew⟩ := h.news
    refine ⟨log, hasked, fun i di hi hdi _ => ?_⟩
    rw [hlen] at hi
    have hlt : s.registry.defs.length < i := Nat.lt_of_succ_le hi
    exact hnew i di (Nat.le_of_lt hlt) hdi (by simp [h.last, Nat.ne_of_gt hlt])
  · cases hroot with
    | @evalModule _ _ requests' specifier hcompile' hmem =>
      obtain rfl := Option.some.inj (hcompile.symm.trans hcompile')
      rw [← h.requests] at hmem
      obtain ⟨rme, hrme, rfl⟩ := List.mem_map.mp hmem
      obtain ⟨m1, -, hready, hanswers⟩ := h.tidy.bound m d hd hfreed List.not_mem_nil rme hrme
      exact ⟨m1, hready, hname ▸ hanswers⟩

/-- Modules are added, and those that were there keep their requests. -/
structure Extends (s t : Loading Cb) : Prop where
  entries : ∀ i, i < s.registry.defs.length → t.reqModuleEntries i = s.reqModuleEntries i
  length_le : s.registry.defs.length ≤ t.registry.defs.length

theorem Grows.extends {s t : Loading Cb} (h : s.Grows (fun _ => False) t) : s.Extends t :=
  ⟨fun i hi => h.entries i hi id, h.length_le⟩

/-- A load that goes well leaves every request bound, whatever the graph; so does one
that fails, if it meets no cycle. -/
theorem wp_run_tidy (host : Host) (n : Nat) (l : Load) {s : Loading Cb} (hs : Tidy [] s) :
    wp (l.run host n) s
      (fun r t => s.Extends t ∧ (∀ m, r = some m → t.Live m ∧ LoadedBy host l s t) ∧
        (r = none → Acyclic (l.Imports host) → Tidy [] t)) (fun _ _ => True) := by
  have hfiles : FilesImport host (l.Imports host) := fun _ _ _ h _ hmem => .file h hmem
  have hunder : ∀ base, Underway (l.Imports host) [] base s :=
    fun _ => ⟨hs, fun _ _ _ _ _ _ _ _ _ => List.not_mem_nil, by simp⟩
  cases l with
  | importModule base specifier =>
    rw [Load.run, wp_bind]
    refine wp_mono (hostSpec hfiles n [] base specifier s (hunder base) (by simp)) ?_
      (fun _ _ _ => trivial)
    intro r t h
    obtain ⟨hg, hsome, hnone⟩ := h
    cases r with
    | none => exact ⟨hg.extends, fun m h => absurd h (by simp), fun _ hE => (hnone rfl hE).1⟩
    | some m1 =>
      have hbinds := hsome m1 rfl
      rw [wp_bind]
      refine wp_mono (wp_resolveModule_settled (fun _ => False) n hbinds.tidy hbinds.live) ?_
        (fun _ _ _ => trivial)
      intro ok u hu
      obtain ⟨rfl, hasked, hready, hgu, hlen, heq⟩ := hu
      refine ⟨(hg.trans hgu).extends, fun m hm => ⟨?_, hbinds.tidy.congr hgu hlen heq,
        (hg.trans hgu).weaken fun _ h => h.elim,
        hbinds.news.trans (newOnes_nil hasked hlen) hgu fun _ h => h.elim, fun name hroot => ?_⟩,
        fun h => absurd h (by simp)⟩
      · exact Option.some.inj hm ▸ hready.live
      cases hroot
      exact ⟨m1, hready, hgu.answers hbinds.answers⟩
  | evalModule fileName contents =>
    refine wp_mono (wp_compileModule (P := []) (fun k _ => hostSpec hfiles k)
      (hunder (newString fileName)) fun requests h specifier hmem => .script rfl h hmem) ?_
      (fun _ _ _ => trivial)
    intro r t h
    obtain ⟨hg, hsome, hnone⟩ := h
    refine ⟨hg.extends, fun m hm => ?_, fun hr hE => (hnone hr hE).1⟩
    obtain ⟨requests, hcompile, hnew⟩ := hsome m hm
    obtain ⟨d, hd, hfreed, -⟩ := hnew.live
    exact ⟨⟨d, hd, hfreed⟩, hnew.loadedBy hcompile hg⟩

/-! ## Runs -/

/-- What happens between a script and its host: registrations, and loads that go
well or do not. -/
inductive Act (Cb : Type) where
  | registerCallback (fnName : Bytes) (callback : Cb)
  | registerModule (moduleName : Bytes) (methods : List (Bytes × Cb))
  | load (l : Load) (ok : Bool)

/-- Nothing loaded yet. -/
def new (self : UInt64) : Loading Cb := ⟨.new self, fun _ => [], []⟩

/-- One of them. A load that stops ends the process. -/
inductive step (host : Host) : Loading Cb → Act Cb → Loading Cb → Prop where
  | registerCallback (s : Loading Cb) (fnName : Bytes) (callback : Cb) :
      step host s (.registerCallback fnName callback)
        { s with registry := s.registry.registerCallback fnName callback }
  | registerModule (s : Loading Cb) (moduleName : Bytes) (methods : List (Bytes × Cb)) :
      step host s (.registerModule moduleName methods)
        { s with
          registry := s.registry.registerModule moduleName methods
          reqModuleEntries := Function.update s.reqModuleEntries s.registry.defs.length [] }
  | load {s t : Loading Cb} {l : Load} {n : Nat} {r : Option DefId}
      (h : l.run host n s = .ok r t) : step host s (.load l r.isSome) t

/-- A load that fails meets no cycle. -/
def Act.Safe (host : Host) : Act Cb → Prop
  | .load l ok => ok = true ∨ Acyclic (l.Imports host)
  | _ => True

theorem tidy_new (self : UInt64) : Tidy [] (new self : Loading Cb) := by
  constructor <;> simp [new, Registry.new]

theorem defs_registerModule (s : Registry Cb) (moduleName : Bytes)
    (methods : List (Bytes × Cb)) : ∃ (d : ModuleDef) (r : Registration),
      d.freed = false ∧ d.native = some r ∧ r.moduleName = moduleName ∧
      (s.registerModule moduleName methods).defs = s.defs ++ [d] ∧
      (s.registerModule moduleName methods).modules =
        Function.update s.modules moduleName (some s.defs.length) := by
  obtain ⟨-, -, hmodules, hdefs, -⟩ := Registry.createMethods_frame moduleName s methods
  unfold Registry.registerModule
  dsimp only
  rw [hmodules, hdefs]
  exact ⟨_, _, rfl, rfl, rfl, rfl, rfl⟩

/-- A registration adds a module that requests nothing. -/
theorem tidy_registerModule {s : Loading Cb} (hs : Tidy [] s) (moduleName : Bytes)
    (methods : List (Bytes × Cb)) :
    Tidy [] { s with
      registry := s.registry.registerModule moduleName methods
      reqModuleEntries := Function.update s.reqModuleEntries s.registry.defs.length [] } := by
  obtain ⟨new, registration, hlive, hnew, hname, hdefs, hmodules⟩ :=
    defs_registerModule s.registry moduleName methods
  generalize s.registry.registerModule moduleName methods = r at hdefs hmodules
  have hold : ∀ (i : DefId) (d : ModuleDef), s.registry.defs[i]? = some d → r.defs[i]? = some d :=
    fun i d hd => by rw [hdefs, List.getElem?_append_left (lt_of_defs hd), hd]
  have hback : ∀ (i : DefId) (d : ModuleDef), r.defs[i]? = some d →
      s.registry.defs[i]? = some d ∧
        Function.update s.reqModuleEntries s.registry.defs.length [] i = s.reqModuleEntries i ∨
      d = new ∧ Function.update s.reqModuleEntries s.registry.defs.length [] i = [] := by
    intro i d hd
    rw [hdefs] at hd
    rcases Registry.getElem?_snoc hd with hd | ⟨rfl, rfl⟩
    · exact .inl ⟨hd, Function.update_of_ne (Nat.ne_of_lt (lt_of_defs hd)) _ _⟩
    · exact .inr ⟨rfl, Function.update_self ..⟩
  refine ⟨?_, ?_, ?_, by simp, ?_, ?_⟩
  · intro i d hd hfreed hnative
    rcases hback i d hd with ⟨hd, -⟩ | ⟨rfl, -⟩
    · exact hs.settled i d hd hfreed hnative
    · exact absurd (hnew.symm.trans hnative) (by simp)
  · intro i d r' hd hnative
    rcases hback i d hd with ⟨hd, heq⟩ | ⟨rfl, heq⟩
    · obtain ⟨hplain, hsome⟩ := hs.plain i d r' hd hnative
      refine ⟨heq.trans hplain, ?_⟩
      show (r.modules _).isSome = true
      rw [hmodules]
      by_cases hown : r'.moduleName = moduleName
      · rw [hown, Function.update_self]
        rfl
      · rwa [Function.update_of_ne hown]
    · obtain rfl := Option.some.inj (hnative.symm.trans hnew)
      refine ⟨heq, ?_⟩
      show (r.modules _).isSome = true
      rw [hmodules, hname, Function.update_self]
      rfl
  · intro own m hm
    have hm' : Function.update s.registry.modules moduleName (some s.registry.defs.length) own =
        some m := hmodules ▸ hm
    by_cases hown : own = moduleName
    · rw [hown, Function.update_self] at hm'
      obtain rfl := Option.some.inj hm'
      exact ⟨new, registration, by rw [hdefs]; exact List.getElem?_concat_length .., hlive,
        hnew, hname.trans hown.symm⟩
    · rw [Function.update_of_ne hown] at hm'
      obtain ⟨d, r', hd, hrest⟩ := hs.native own m hm'
      exact ⟨d, r', hold m d hd, hrest⟩
  · intro i d hd hfreed rme hrme m1 hm1
    rcases hback i d hd with ⟨hd, heq⟩ | ⟨-, heq⟩
    · have hlt := hs.known i d hd hfreed rme (heq ▸ hrme) m1 hm1
      show m1 < r.defs.length
      rw [hdefs, List.length_append]
      exact Nat.lt_of_lt_of_le hlt (Nat.le_add_right ..)
    · have hnil : rme ∈ ([] : List ReqModuleEntry) := by
        rw [← heq]
        exact hrme
      exact absurd hnil List.not_mem_nil
  · intro i d hd hfreed hi rme hrme
    rcases hback i d hd with ⟨hd, heq⟩ | ⟨-, heq⟩
    · obtain ⟨m1, hm1, ⟨d1, hd1, hready⟩, d2, hd2, hnamed⟩ :=
        hs.bound i d hd hfreed hi rme (heq ▸ hrme)
      exact ⟨m1, hm1, ⟨d1, hold m1 d1 hd1, hready⟩, d2, hold m1 d2 hd2, hnamed⟩
    · have hnil : rme ∈ ([] : List ReqModuleEntry) := by
        rw [← heq]
        exact hrme
      exact absurd hnil List.not_mem_nil

theorem Tidy.step {host : Host} {s t : Loading Cb} {a : Act Cb} (hs : Tidy [] s)
    (ha : a.Safe host) (hstep : step host s a t) : Tidy [] t := by
  cases hstep with
  | registerCallback fnName callback =>
    exact ⟨hs.settled, hs.plain, hs.native, hs.progress, hs.known, hs.bound⟩
  | registerModule moduleName methods => exact tidy_registerModule hs moduleName methods
  | @load _ l n r h =>
    obtain ⟨-, hsome, hnone⟩ := wp_of_ok (wp_run_tidy host n l hs) h
    cases r with
    | some m => exact (hsome m rfl).2.tidy
    | none => exact hnone rfl (ha.resolve_left (by simp))

theorem extends_step {host : Host} {s t : Loading Cb} {a : Act Cb} (hs : Tidy [] s)
    (hstep : step host s a t) : s.Extends t := by
  cases hstep with
  | registerCallback fnName callback => exact ⟨fun _ _ => rfl, Nat.le_refl _⟩
  | registerModule moduleName methods =>
    obtain ⟨d, r, -, -, -, hdefs, -⟩ := defs_registerModule s.registry moduleName methods
    refine ⟨fun i hi => Function.update_of_ne (Nat.ne_of_lt hi) _ _, ?_⟩
    show _ ≤ (s.registry.registerModule moduleName methods).defs.length
    rw [hdefs, List.length_append]
    exact Nat.le_add_right ..
  | @load _ l n r h => exact (wp_of_ok (wp_run_tidy host n l hs) h).1

/-- **In every run whose loads go well or meet no cycle, every request of a loaded module is
bound to what it asks for, a module that is there and has been resolved.** -/
theorem bound_of_along {host : Host} {self : UInt64} {acts : List (Act Cb)} {s : Loading Cb}
    (hrun : Along (step host) (fun _ a => a.Safe host) (new self) acts s) :
    ∀ (i : DefId) (d : ModuleDef), s.registry.defs[i]? = some d → d.freed = false →
      s.Bindings d.name (s.reqModuleEntries i) := by
  intro i d hd hfreed
  exact (hrun.invariant (tidy_new self) fun _ _ _ hs ha hstep => hs.step ha hstep).bound i d hd
    hfreed List.not_mem_nil

/-- A host with these files, each given by the specifiers that it imports. -/
def hostOf (files : List (Bytes × List JSString)) : Host where
  loadFile _ name := if (files.lookup name).isSome then [10] else []
  compile name _ := files.lookup name

/-- `a`, which imports `./b` and `m`; and `b`, which imports `m`. -/
def twoFiles : Host := hostOf [([97], [[46, 47, 98], [109]]), ([98], [[109]])]

theorem acyclic_twoFiles (base specifier : JSString) :
    Acyclic (Load.Imports twoFiles (.importModule base specifier)) := by
  -- an import leads from `a` to `b`, and from these to others
  let rank : JSString → Nat := fun own => if own = [97] then 0 else if own = [98] then 1 else 2
  have hrank : ∀ a b, Load.Imports twoFiles (.importModule base specifier) a b →
      rank a < rank b := by
    intro a b h
    cases h with
    | @file _ name requests specifier h hmem =>
      by_cases ha : name = [97]
      · subst ha
        obtain rfl : [[46, 47, 98], [109]] = requests := Option.some.inj h
        rcases List.mem_pair.mp hmem with rfl | rfl <;> decide +kernel
      · by_cases hb : name = [98]
        · subst hb
          obtain rfl : [[109]] = requests := Option.some.inj h
          obtain rfl := List.mem_singleton.mp hmem
          decide +kernel
        · have hnone : twoFiles.compile name [] = none := by
            simp [twoFiles, hostOf, List.lookup_cons, beq_false_of_ne ha, beq_false_of_ne hb]
          exact absurd (hnone.symm.trans h) (by simp)
    | script hl => exact absurd hl (by simp)
  intro a h
  have hlt := h.lift rank hrank
  rw [Relation.transGen_eq_self] at hlt
  exact Nat.lt_irrefl _ hlt

/-- A registered module, an import of `./a`, and one of a file that is missing. -/
theorem bound_of_along_two : ∃ s : Loading Unit,
    s.reqModuleEntries 1 = [⟨[46, 47, 98], some 2⟩, ⟨[109], some 0⟩] ∧
    ∀ (i : DefId) (d : ModuleDef), s.registry.defs[i]? = some d → d.freed = false →
      s.Bindings d.name (s.reqModuleEntries i) := by
  refine ⟨_, ?_, bound_of_along (show Along (step twoFiles) (fun _ a => a.Safe twoFiles) (new 0)
    [.registerModule [109] [], .load (.importModule [120] [46, 47, 97]) true,
      .load (.importModule [120] [46, 47, 99]) false] _ from
    .cons trivial (.registerModule _ _ _) (.cons (.inl rfl) (.load (n := 3) (r := some 1) rfl)
      (.cons (.inr (acyclic_twoFiles _ _)) (.load (n := 3) (r := none) rfl) (.nil _))))⟩
  decide +kernel

/-- With a cycle that is not so: `a` imports `./b` and what is missing, `b` imports `./a`. -/
example : ∃ s : Loading Unit,
    step (hostOf [([97], [[46, 47, 98], [46, 47, 99]]), ([98], [[46, 47, 97]])]) (new 0)
      (.load (.importModule [120] [46, 47, 97]) false) s ∧
    (s.registry.defs.map fun d => (d.name, d.freed)) = [([97], true), ([98], false)] ∧
    s.reqModuleEntries 1 = [⟨[46, 47, 97], some 0⟩] :=
  ⟨_, .load (n := 3) (r := none) rfl, by decide +kernel, by decide +kernel⟩

end Loading

end Ejr
