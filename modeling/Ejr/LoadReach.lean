import Ejr.LoadRuns
import Ejr.Specifiers
import Ejr.StableText

/-!
# What a load loads

A file loader that answers each name with one text for good makes a graph of the
files: a name leads to what its file imports. `load_reaches` says that a load
goes through that graph and comes to an end, whatever cycles are in it: it asks
once for each name that is missing and that its imports lead to, and it goes
well exactly when all of these are files that compile.

That it ends rests on what is missing becoming less (`Room`): the definition of
a file is on the list before its imports are resolved. That it leaves nothing
out is read off the state at the end, where every request of every new module
is bound (`LoadedBy`). A name on the list is as good as the name it was asked
for by, since what the normalizer makes survives the engine (`stable_importName`).
-/

namespace Ejr

open Lib

variable {Cb : Type}

/-! ## Names of imports -/

theorem stable_dirName {filename : Bytes} (h : Stable filename) : Stable (dirName filename) := by
  obtain ⟨file, dir, hplain, rfl⟩ := exists_path filename
  rw [dirName_text (hplain file (List.mem_cons_self ..))]
  cases dir with
  | nil => decide +kernel
  | cons d dir =>
    rw [Path.text_cons file (by simp)] at h
    exact h.split.1

theorem stable_normalizeLoop : ∀ filename r : Bytes, Stable filename → Stable r →
    Stable (normalizeLoop filename r).1 ∧ Stable (normalizeLoop filename r).2 := by
  intro filename r
  induction filename, r using normalizeLoop.induct with
  | case1 filename r ih =>
    intro hf hr
    rw [normalizeLoop]
    exact ih hf (Stable.split (a := [46]) hr).2
  | case2 filename r hstop =>
    intro hf hr
    rw [normalizeLoop, if_pos hstop]
    exact ⟨hf, hr⟩
  | case3 filename r hgo ih =>
    intro hf hr
    rw [normalizeLoop, if_neg hgo]
    exact ih (stable_dirName hf) (Stable.split (a := [46, 46]) hr).2
  | case4 filename r h1 h2 =>
    intro hf hr
    rw [normalizeLoop]
    · exact ⟨hf, hr⟩
    · exact h1
    · exact h2

/-- What an import asks for survives the engine. -/
theorem stable_importName (base specifier : JSString) : Stable (importName base specifier) := by
  have hbase := stable_cstr_toCStringLen base
  have hname := stable_cstr_toCStringLen specifier
  rw [importName, normalizeName]
  split
  · obtain ⟨hfile, hrest⟩ := stable_normalizeLoop _ _ (stable_dirName hbase) hname
    dsimp only
    split
    · exact hrest
    · exact hfile.join hrest
  · exact hname

theorem Stable.eq {a b : Bytes} (ha : Stable a) (hb : Stable b) (h : newString a = newString b) :
    a = b := by
  rw [← ha, ← hb, throughEngine, throughEngine, h]

namespace Loading

/-! ## The graph -/

/-- The file called `name` is there and imports `next`. -/
def FileImports (host : Host) (name next : Bytes) : Prop :=
  host.loadFile [] name ≠ [] ∧ ∃ requests,
    host.compile name (host.loadFile [] name) = some requests ∧
    ∃ specifier ∈ requests, next = importName (newString name) specifier

/-- What is missing and imported, by the load itself or on the way. -/
inductive Reached (host : Host) (l : Load) (s : Loading Cb) : Bytes → Prop where
  | root {name : Bytes} (h : l.Root host name) (hmissing : (l.start s).Missing name) :
      Reached host l s name
  | next {name next : Bytes} (h : Reached host l s name) (himport : FileImports host name next)
      (hmissing : (l.start s).Missing next) : Reached host l s next

theorem Reached.missing {host : Host} {l : Load} {s : Loading Cb} {name : Bytes}
    (h : Reached host l s name) : (l.start s).Missing name := by
  cases h with
  | root _ hmissing => exact hmissing
  | next _ _ hmissing => exact hmissing

theorem Reached.stable {host : Host} {l : Load} {s : Loading Cb} {name : Bytes}
    (h : Reached host l s name) : Stable name := by
  cases h with
  | root h _ => cases h <;> exact stable_importName ..
  | next _ himport _ =>
    obtain ⟨-, -, -, specifier, -, rfl⟩ := himport
    exact stable_importName ..

theorem Grows.kept {but : DefId → Prop} {s t : Loading Cb} (h : s.Grows but t) : s.Kept t := by
  refine ⟨h.modules, fun own hloaded => ?_⟩
  obtain ⟨m, d, hd, hfreed, hname⟩ := hloaded
  obtain ⟨d', hd', hname', -, hfreed', -⟩ := h.old m d hd
  exact ⟨m, d', hd', hfreed'.trans hfreed, hname'.trans hname⟩

/-! ## The end of a load -/

/-- Asked in between: only for names of `R`, and answered as ever. -/
def AsksIn (host : Host) (R : Bytes → Prop) (s t : Loading Cb) : Prop :=
  ∃ log, t.asked = s.asked ++ log ∧ ∀ e ∈ log, R e.1 ∧ e.2 = host.loadFile [] e.1

/-- `R` has what is imported from it, and less than `n` of it is missing. -/
structure Room (host : Host) (R : Bytes → Prop) (s : Loading Cb) (n : Nat) : Prop where
  next : ∀ name next, R name → FileImports host name next → s.Missing next → R next
  room : ∃ rest : List Bytes, (∀ name, R name → s.Missing name → name ∈ rest) ∧ rest.length < n

section

variable {host : Host} {R : Bytes → Prop} {P : List DefId} {base : JSString} {n : Nat}
  {s t u : Loading Cb}

theorem asksIn_nil (h : t.asked = s.asked) : AsksIn host R s t :=
  ⟨[], by rw [h, List.append_nil], by simp⟩

theorem AsksIn.trans (h : AsksIn host R s t) (h' : AsksIn host R t u) : AsksIn host R s u := by
  obtain ⟨log, hasked, hlog⟩ := h
  obtain ⟨log', hasked', hlog'⟩ := h'
  exact ⟨log ++ log', by rw [hasked', hasked, List.append_assoc],
    List.forall_mem_append.mpr ⟨hlog, hlog'⟩⟩

theorem Room.pos (h : Room host R s n) : 0 < n := by
  obtain ⟨-, rest, -, hlt⟩ := h
  exact Nat.zero_lt_of_lt hlt

theorem Room.after (h : Room host R s n) (hkept : s.Kept t) : Room host R t n := by
  obtain ⟨hnext, rest, hrest, hlt⟩ := h
  exact ⟨fun name next hR himport hmissing => hnext name next hR himport (hmissing.before hkept),
    rest, fun name hR hmissing => hrest name hR (hmissing.before hkept), hlt⟩

/-- What is loaded is missing no more. -/
theorem Room.loaded (h : Room host R s (n + 1)) (hkept : s.Kept t) {name : Bytes} (hR : R name)
    (hmissing : s.Missing name) (hloaded : t.Loaded (newString name)) : Room host R t n := by
  obtain ⟨hnext, rest, hrest, hlt⟩ := h
  have hmem := hrest name hR hmissing
  refine ⟨fun name next hR himport hmissing => hnext name next hR himport (hmissing.before hkept),
    rest.erase name, fun name' hR' hmissing' => ?_, ?_⟩
  · have hne : name' ≠ name := fun h => hmissing'.notLoaded (h ▸ hloaded)
    exact (List.mem_erase_of_ne hne).mpr (hrest name' hR' (hmissing'.before hkept))
  · have hlength := List.length_erase_of_mem hmem
    have hpos := List.length_pos_of_mem hmem
    omega

/-- Any import, on a list that is in order. -/
theorem underway (h : Tidy P s) (base : JSString) : Underway (fun _ _ => True) P base s where
  tidy := h
  apart hE := absurd (.single trivial) (hE base)
  path p hp := by
    obtain ⟨d, hd, -⟩ := h.progress p hp
    exact ⟨d, hd, .single trivial⟩

/-- A load from a list that is in order, with room for it, ends. -/
def Ends (Cb : Type) (host : Host) (R : Bytes → Prop) (n : Nat) : Prop :=
  ∀ (P : List DefId) (base specifier : JSString) (s : Loading Cb), Tidy P s → Room host R s n →
    (s.Missing (importName base specifier) → R (importName base specifier)) →
    wp (hostResolveImportedModule host (resolveModule host n) base specifier) s
      (fun _ t => AsksIn host R s t) (fun _ _ => False)

/-- By induction on the requests that are left. -/
theorem ends_resolveEntries (hends : Ends Cb host R n) {m : DefId} (hm : m ∈ P)
    (names : List JSString) : ∀ (i : Nat) (s : Loading Cb), Tidy P s → Room host R s n →
    (∀ name ∈ names, s.Missing (importName base name) → R (importName base name)) →
    wp (resolveEntries host (resolveModule host n) m base i names) s
      (fun _ t => AsksIn host R s t) (fun _ _ => False) := by
  induction names with
  | nil => exact fun i s _ _ _ => asksIn_nil rfl
  | cons name names ih =>
    intro i s hs hroom hR
    have hR' := List.forall_mem_cons.mp hR
    rw [resolveEntries, wp_bind]
    refine wp_mono (wp_and (hends P base name s hs hroom hR'.1)
      (hostSpec (E := fun _ _ => True) (fun _ _ _ _ _ _ => trivial) n P base name s
        (underway hs base) fun _ _ => trivial)) ?_ fun _ _ h => h.1
    intro r t h
    obtain ⟨hasks, hg, hsome, -⟩ := h
    cases r with
    | none => exact hasks
    | some m1 =>
      have hbinds := hsome m1 rfl
      rw [wp_bind]
      show wp _ { t with
        reqModuleEntries := Function.update t.reqModuleEntries m
          ((t.reqModuleEntries m).modify i _) } _ _
      have hrmes : ∀ rme ∈ (t.reqModuleEntries m).modify i
          (fun rme => { rme with moduleDef := some m1 }),
          rme ∈ t.reqModuleEntries m ∨ rme.moduleDef = some m1 := by
        intro rme hrme
        obtain ⟨j, hj, rfl⟩ := List.mem_iff_getElem.mp hrme
        rw [List.getElem_modify]
        split
        · exact .inr rfl
        · exact .inl (List.getElem_mem _)
      have hset := grows_setModule t m
        ((t.reqModuleEntries m).modify i fun rme => { rme with moduleDef := some m1 })
      have htidy := hbinds.tidy.setModule hrmes hm hbinds.live.lt
      rw [wp_bind]
      refine wp_mono (wp_resolveModule_settled (· = m) n htidy hbinds.live) ?_
        fun _ _ h => absurd h (Nat.ne_of_gt hroom.pos)
      intro ok u hu
      obtain ⟨rfl, hasked, -, hgu, hlen, heq⟩ := hu
      have hkept : s.Kept u := hg.kept.trans (hset.trans hgu).kept
      rw [if_pos rfl]
      refine wp_mono (ih (i + 1) u (htidy.congr hgu hlen heq) (hroom.after hkept)
        fun name' hmem hmissing => hR'.2 name' hmem (hmissing.before hkept)) ?_ fun _ _ h => h
      exact fun _ v hv => (hasks.trans (asksIn_nil hasked)).trans hv

/-- A compilation, once it has been parsed. -/
theorem ends_resolveParsed (hends : Ends Cb host R n) {name : Bytes} {requests : List JSString}
    (hs : Tidy P s) (hroom : Room host R (s.inProgress name requests) n)
    (hR : ∀ specifier ∈ requests,
      (s.inProgress name requests).Missing (importName (newString name) specifier) →
        R (importName (newString name) specifier)) :
    wp (resolveParsed (resolveModule host (n + 1)) s.registry.defs.length requests)
      { s with registry := s.registry.newModuleDef name }
      (fun _ t => AsksIn host R s t) (fun _ _ => False) := by
  rw [resolveParsed, wp_bind]
  show wp (resolveModule host (n + 1) s.registry.defs.length >>= _) (s.parsed name requests) _ _
  rw [wp_bind, wp_congr (resolveModule_parsed s name requests)]
  refine wp_mono (ends_resolveEntries hends (List.mem_cons_self (a := s.registry.defs.length))
    requests 0 _ hs.inProgress hroom hR) ?_ fun _ _ h => h
  intro ok t h
  cases ok with
  | true => exact h
  | false => exact h

/-- By induction on the depth: what is missing becomes less. -/
theorem ends (hconst : ∀ asked name, host.loadFile asked name = host.loadFile [] name) (n : Nat) :
    Ends Cb host R n := by
  induction n with
  | zero => exact fun _ _ _ _ _ hroom => absurd hroom.pos (Nat.lt_irrefl 0)
  | succ n ih =>
    intro P base specifier s hs hroom hR
    generalize hname : importName base specifier = name at hR
    have hcontents := hconst s.asked name
    have hask : s.Missing name → ∀ t : Loading Cb,
        t.asked = s.asked ++ [(name, host.loadFile s.asked name)] → AsksIn host R s t :=
      fun hmissing t ht => ⟨_, ht, fun e he => by
        simp [List.mem_singleton.mp he, hR hmissing, hcontents]⟩
    refine wp_hostResolveImportedModule_cases hname (fun m1 _ => asksIn_nil rfl)
      (fun hmissing _ => hask hmissing _ rfl) fun hmissing hne =>
      wp_compileModule_cases (fun _ => hask hmissing _ rfl) fun requests hcompile => ?_
    let s' : Loading Cb := { s with asked := s.asked ++ [(name, host.loadFile s.asked name)] }
    have hg : s.Grows (fun _ => False) s' := grows_ask s _
    have hs' : Tidy P s' := hs.congr hg rfl rfl
    have hkept : s.Kept (s'.inProgress name requests) := hg.kept.trans grows_inProgress.kept
    have hroom' : Room host R (s'.inProgress name requests) n :=
      hroom.loaded hkept (hR hmissing) hmissing ⟨_, _, defs_inProgress_self, rfl, rfl⟩
    refine wp_mono (ends_resolveParsed ih hs' hroom' fun specifier hmem hmissing' => ?_)
      (fun _ t h => (hask hmissing s' rfl).trans h) fun _ _ h => h
    rw [hcontents] at hne hcompile
    exact hroom'.next name _ (hR hmissing) ⟨hne, requests, hcompile, specifier, hmem, rfl⟩ hmissing'

/-- A definition is on the list under its name before it is resolved. -/
theorem kept_inProgress (s : Loading Cb) (name : Bytes) (requests : List JSString) :
    Kept { s with registry := s.registry.newModuleDef name } (s.inProgress name requests) := by
  refine ⟨rfl, fun own hloaded => ?_⟩
  obtain ⟨m, d, hd, hfreed, hname⟩ := hloaded
  rcases Registry.getElem?_snoc hd with hd | ⟨rfl, rfl⟩
  · exact ⟨m, d, defs_inProgress_old hd, hfreed, hname⟩
  · exact ⟨_, _, defs_inProgress_self, rfl, hname⟩

/-- A whole load. -/
theorem ends_run (hconst : ∀ asked name, host.loadFile asked name = host.loadFile [] name)
    (l : Load) (hs : Tidy [] s) (hroom : Room host R (l.start s) n)
    (hR : ∀ name, l.Root host name → (l.start s).Missing name → R name) :
    wp (l.run host (n + 1)) s (fun _ t => AsksIn host R s t) (fun _ _ => False) := by
  cases l with
  | importModule base specifier =>
    have hroom' : Room host R s (n + 1) := by
      obtain ⟨hnext, rest, hrest, hlt⟩ := hroom
      exact ⟨hnext, rest, hrest, Nat.lt_succ_of_lt hlt⟩
    rw [Load.run, wp_bind]
    refine wp_mono (wp_and
      (ends hconst (n + 1) [] base specifier s hs hroom' (hR _ (.importModule ..)))
      (hostSpec (E := fun _ _ => True) (fun _ _ _ _ _ _ => trivial) (n + 1) [] base specifier s
        (underway hs base) fun _ _ => trivial)) ?_ fun _ _ h => h.1
    intro r t h
    obtain ⟨hasks, -, hsome, -⟩ := h
    cases r with
    | none => exact hasks
    | some m1 =>
      have hbinds := hsome m1 rfl
      rw [wp_bind]
      refine wp_mono (wp_resolveModule_settled (fun _ => False) (n + 1) hbinds.tidy hbinds.live) ?_
        fun _ _ h => absurd h (Nat.succ_ne_zero n)
      intro ok u hu
      obtain ⟨rfl, hasked, -⟩ := hu
      exact hasks.trans (asksIn_nil hasked)
  | evalModule fileName contents =>
    show wp (compileModule host (resolveModule host (n + 1)) fileName contents) s _ _
    refine wp_compileModule_cases (fun _ => asksIn_nil rfl) fun requests hcompile => ?_
    have hkept := kept_inProgress s fileName requests
    exact ends_resolveParsed (ends hconst n) hs (hroom.after hkept) fun specifier hmem hmissing =>
      hR _ (.evalModule hcompile hmem) (hmissing.before hkept)

end

/-! ## Nothing is left out -/

section

variable {host : Host} {l : Load} {s t : Loading Cb} {log : List (Bytes × Bytes)}

/-- What answers for a missing name is new. -/
theorem LoadedBy.new_of_answers (h : LoadedBy host l s t) {name : Bytes} {m1 : DefId}
    (hmissing : (l.start s).Missing name) (hlive : t.Live m1) (hanswers : t.Answers name m1) :
    (l.start s).registry.defs.length ≤ m1 ∧
      ∃ d : ModuleDef, t.registry.defs[m1]? = some d ∧ d.name = newString name := by
  obtain ⟨d, hd, hnamed⟩ := hanswers
  rcases hnamed with hname | ⟨r, hnative, hname⟩
  · refine ⟨Nat.le_of_not_lt fun hlt => hmissing.notLoaded ?_, d, hd, hname⟩
    obtain ⟨d', hd', hname', -, hfreed', -⟩ :=
      h.grows.old m1 _ (List.getElem?_eq_getElem hlt)
    obtain rfl := Option.some.inj (hd.symm.trans hd')
    obtain ⟨d', hd', hfreed⟩ := hlive
    obtain rfl := Option.some.inj (hd.symm.trans hd')
    exact ⟨m1, _, List.getElem?_eq_getElem hlt, hfreed'.symm.trans hfreed, hname'.symm.trans hname⟩
  · obtain ⟨-, hmodule⟩ := h.tidy.plain m1 d r hd hnative
    rw [h.grows.modules, hname, hmissing.notRegistered] at hmodule
    exact absurd hmodule (by simp)

/-- A module that is new has been compiled from something that was asked for. -/
theorem LoadedBy.asked_of_new (h : LoadedBy host l s t) (hasked : t.asked = s.asked ++ log)
    {i : DefId} {d : ModuleDef} (hi : (l.start s).registry.defs.length ≤ i)
    (hd : t.registry.defs[i]? = some d) : d.freed = false ∧ ∃ e ∈ log, d.name = newString e.1 ∧
      host.compile e.1 e.2 = some ((t.reqModuleEntries i).map ReqModuleEntry.moduleName) := by
  obtain ⟨log', hasked', hnews⟩ := h.news
  have hstart : (l.start s).asked = s.asked := by cases l <;> rfl
  rw [hstart, hasked] at hasked'
  obtain rfl := List.append_cancel_left hasked'
  exact hnews i d hi hd List.not_mem_nil

/-- What answers for a missing name has been asked for. -/
theorem LoadedBy.asked_of_answers (h : LoadedBy host l s t) (hasked : t.asked = s.asked ++ log)
    (hstable : ∀ e ∈ log, Stable e.1) {name : Bytes} (hname : Stable name) {m1 : DefId}
    (hmissing : (l.start s).Missing name) (hlive : t.Live m1) (hanswers : t.Answers name m1) :
    ∃ e ∈ log, e.1 = name ∧
      host.compile e.1 e.2 = some ((t.reqModuleEntries m1).map ReqModuleEntry.moduleName) := by
  obtain ⟨hnew, d, hd, hdname⟩ := h.new_of_answers hmissing hlive hanswers
  obtain ⟨-, e, he, hename, hcompile⟩ := h.asked_of_new hasked hnew hd
  exact ⟨e, he, (hstable e he).eq hname (hename.symm.trans hdname), hcompile⟩

/-- By induction on the way to a name. -/
theorem LoadedBy.asked_of_reached (h : LoadedBy host l s t) (hasked : t.asked = s.asked ++ log)
    (hanswer : ∀ e ∈ log, Stable e.1 ∧ e.2 = host.loadFile [] e.1)
    (hloaded : ∀ e ∈ log, t.Loaded (newString e.1)) {name : Bytes} (hname : Reached host l s name) :
    ∃ e ∈ log, e.1 = name := by
  have hstable : ∀ e ∈ log, Stable e.1 := fun e he => (hanswer e he).1
  induction hname with
  | @root name hroot hmissing =>
    obtain ⟨m1, hready, hanswers⟩ := h.roots name hroot
    obtain ⟨e, he, hename, -⟩ := h.asked_of_answers hasked hstable
      (Reached.root hroot hmissing).stable hmissing hready.live hanswers
    exact ⟨e, he, hename⟩
  | @next name next hname himport hmissing ih =>
    obtain ⟨e, he, rfl⟩ := ih
    -- its module, whose requests are bound
    obtain ⟨i, d, hd, hfreed, hdname⟩ := hloaded e he
    obtain ⟨e', he', hename, hcompile⟩ := h.asked_of_answers hasked hstable (hstable e he)
      hname.missing ⟨d, hd, hfreed⟩ ⟨d, hd, .inl hdname⟩
    obtain ⟨-, requests, hrequests, specifier, hmem, rfl⟩ := himport
    rw [(hanswer e' he').2, hename, hrequests] at hcompile
    obtain rfl := Option.some.inj hcompile
    obtain ⟨rme, hrme, rfl⟩ := List.mem_map.mp hmem
    obtain ⟨m1, -, hready, hanswers⟩ := h.tidy.bound i d hd hfreed List.not_mem_nil rme hrme
    rw [hdname] at hanswers
    obtain ⟨e'', he'', hename', -⟩ := h.asked_of_answers hasked hstable (stable_importName ..)
      hmissing hready.live hanswers
    exact ⟨e'', he'', hename'⟩

end

/-! ## One load -/

/-- **A load of files that do not change ends; it asks once for each name that is missing and
that imports lead to, and goes well exactly when all of these are modules.** -/
theorem load_reaches {host : Host} {self : UInt64} {acts : List (Act Cb)} {s : Loading Cb}
    (hrun : Along (step host) (fun _ a => a.Safe host) (new self) acts s)
    (hconst : ∀ asked name, host.loadFile asked name = host.loadFile [] name) (l : Load)
    {names : List Bytes} (hnames : ∀ name, Reached host l s name → name ∈ names)
    {n : Nat} (hn : names.length + 1 < n) :
    wp (l.run host n) s
      (fun r t => ∃ log : List Bytes,
        t.asked = s.asked ++ log.map (fun name => (name, host.loadFile [] name)) ∧ log.Nodup ∧
        (∀ name ∈ log, Reached host l s name) ∧
        (r.isSome = true → ∀ name, Reached host l s name → name ∈ log) ∧
        (r.isSome = true ↔ l.Parses host ∧
          ∀ name, Reached host l s name → Compiles host (name, host.loadFile [] name)))
      (fun _ _ => False) := by
  have hs : Tidy [] s :=
    hrun.invariant (tidy_new self) fun _ _ _ hs ha hstep => hs.step ha hstep
  obtain ⟨k, rfl⟩ : ∃ k, n = k + 1 := Nat.exists_eq_succ_of_ne_zero (Nat.ne_zero_of_lt hn)
  have hroom : Room host (Reached host l s) (l.start s) k :=
    ⟨fun _ _ hR himport hmissing => .next hR himport hmissing, names,
      fun name hR _ => hnames name hR, Nat.lt_of_succ_lt_succ hn⟩
  by_cases hl : l.Parses host
  · refine wp_mono (wp_and (wp_and (asksOnce_run (k + 1) l hl s) (wp_run_tidy host (k + 1) l hs))
      (ends_run hconst l hs hroom fun _ h hmissing => .root h hmissing)) ?_ fun _ _ h => h.2
    intro r t h
    obtain ⟨⟨⟨log, hlog⟩, -, hloadedBy, -⟩, log', hasked', hin⟩ := h
    have hasks : Asks s t log := by
      split at hlog
      next => exact hlog.toAsks
      next => exact hlog.toAsks
    have hasked := hasks.asked
    rw [hasked'] at hasked
    obtain rfl := List.append_cancel_left hasked
    have hlogeq : log'.map (fun e => (e.1, host.loadFile [] e.1)) = log' := by
      refine (List.map_congr_left fun e he => ?_).trans (List.map_id log')
      rw [← (hin e he).2]
      rfl
    have hall : r.isSome = true → ∀ name, Reached host l s name → ∃ e ∈ log', e.1 = name := by
      intro hr name hname
      rw [if_pos hr] at hlog
      obtain ⟨m, hm⟩ := Option.isSome_iff_exists.mp hr
      exact (hloadedBy m hm).2.asked_of_reached hasked'
        (fun e he => ⟨(hin e he).1.stable, (hin e he).2⟩) hlog.loaded hname
    refine ⟨log'.map Prod.fst, by rw [List.map_map]; exact hlogeq.symm ▸ hasked', ?_,
      List.forall_mem_map.mpr fun e he => (hin e he).1,
      fun hr name hname => List.mem_map.mpr (hall hr name hname), fun hr => ⟨hl, ?_⟩, fun h => ?_⟩
    · have hdistinct : ((log'.map Prod.fst).map newString).Nodup := by
        rw [List.map_map]
        exact hasks.distinct
      exact hdistinct.of_map
    · intro name hname
      obtain ⟨e, he, rfl⟩ := hall hr name hname
      rw [if_pos hr] at hlog
      exact (hin e he).2 ▸ hlog.compiles e he
    · by_contra hr
      rw [if_neg hr] at hlog
      -- the last one asked for is not a module
      obtain ⟨init, e, rfl, -, he⟩ := hlog.last
      have hmem : e ∈ init ++ [e] := List.mem_append_right _ (List.mem_singleton_self e)
      have hcompiles := h.2 e.1 (hin e hmem).1
      rw [← (hin e hmem).2] at hcompiles
      exact he hcompiles
  · -- a script that cannot be compiled asks for nothing
    cases l with
    | importModule base specifier => exact absurd trivial hl
    | evalModule fileName contents =>
      refine wp_compileModule_cases (fun _ => ?_) fun requests hcompile =>
        absurd (Option.isSome_iff_exists.mpr ⟨requests, hcompile⟩) hl
      exact ⟨[], by simp, .nil, by simp, fun h => absurd h (by simp),
        iff_of_false (by simp) fun h => hl h.1⟩

/-- Two files that import each other. -/
def circle : Host := hostOf [([97], [[46, 47, 98]]), ([98], [[46, 47, 97]])]

theorem load_reaches_circle : ∃ r t,
    (Load.importModule [120] [46, 47, 97]).run circle 4 (new 0 : Loading Unit) = .ok r t ∧
    ∃ log : List Bytes,
      t.asked = log.map (fun name => (name, circle.loadFile [] name)) ∧ log.Nodup ∧
      (r.isSome = true → ∀ name,
        Reached circle (.importModule [120] [46, 47, 97]) (new 0 : Loading Unit) name →
        name ∈ log) := by
  have hnames : ∀ name,
      Reached circle (.importModule [120] [46, 47, 97]) (new 0 : Loading Unit) name →
      name ∈ [[97], [98]] := by
    intro name hname
    induction hname with
    | root h _ =>
      cases h
      decide +kernel
    | next _ himport _ ih =>
      obtain ⟨-, requests, hrequests, specifier, hmem, rfl⟩ := himport
      rcases List.mem_pair.mp ih with rfl | rfl
      · obtain rfl : [[46, 47, 98]] = requests := Option.some.inj hrequests
        obtain rfl := List.mem_singleton.mp hmem
        decide +kernel
      · obtain rfl : [[46, 47, 97]] = requests := Option.some.inj hrequests
        obtain rfl := List.mem_singleton.mp hmem
        decide +kernel
  obtain ⟨r, t, hok, log, hasked, hdistinct, -, hall, -⟩ :=
    exists_ok_of_wp (load_reaches (.nil (new 0)) (fun _ _ => rfl) _ hnames (n := 4)
      (by decide))
  exact ⟨r, t, hok, log, hasked, hdistinct, hall⟩

end Loading

end Ejr
