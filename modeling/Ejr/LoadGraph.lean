import Mathlib.Logic.Relation
import Ejr.Loading

/-!
# Bound requests, and modules in progress

The invariant of a load. `Tidy` says that every request of every module on the
list is bound to a module that is ready, but for the modules in progress, whose
requests are bound one by one; `Apart` says that nothing is bound to one of
these, so that giving one up leaves the rest in order. Here is what the single
steps of a load keep of the two: a definition that is resolved, a request that
is bound, a module that is begun, finished, given up.
-/

namespace Ejr

open Lib

variable {Cb : Type}

namespace Loading

/-! ## The invariant -/

/-- The definition is there. -/
def Live (s : Loading Cb) (m : DefId) : Prop :=
  ∃ d : ModuleDef, s.registry.defs[m]? = some d ∧ d.freed = false

/-- The definition is there, and has been resolved. -/
def Ready (s : Loading Cb) (m : DefId) : Prop :=
  ∃ d : ModuleDef, s.registry.defs[m]? = some d ∧ d.freed = false ∧ d.resolved = true

/-- The definition has the name, or has been registered under it. -/
def Answers (s : Loading Cb) (cname : Bytes) (m1 : DefId) : Prop :=
  ∃ d : ModuleDef, s.registry.defs[m1]? = some d ∧
    (d.name = newString cname ∨ ∃ r, d.native = some r ∧ r.moduleName = cname)

/-- The requests of a module with this name, bound to what they ask for. -/
def Bindings (s : Loading Cb) (base : JSString) (rmes : List ReqModuleEntry) : Prop :=
  ∀ rme ∈ rmes, ∃ m1, rme.moduleDef = some m1 ∧ s.Ready m1 ∧
    s.Answers (importName base rme.moduleName) m1

/-- The requests of the modules on the list that are not in progress are bound. -/
structure Tidy (P : List DefId) (s : Loading Cb) : Prop where
  settled : ∀ (i : DefId) (d : ModuleDef), s.registry.defs[i]? = some d → d.freed = false →
    d.native = none → d.resolved = true
  plain : ∀ (i : DefId) (d : ModuleDef) (r : Registration), s.registry.defs[i]? = some d →
    d.native = some r →
    s.reqModuleEntries i = [] ∧ (s.registry.modules r.moduleName).isSome = true
  native : ∀ name m, s.registry.modules name = some m →
    ∃ (d : ModuleDef) (r : Registration), s.registry.defs[m]? = some d ∧ d.freed = false ∧
      d.native = some r ∧ r.moduleName = name
  progress : ∀ p ∈ P, ∃ d : ModuleDef, s.registry.defs[p]? = some d ∧ d.native = none
  known : ∀ (i : DefId) (d : ModuleDef), s.registry.defs[i]? = some d → d.freed = false →
    ∀ rme ∈ s.reqModuleEntries i, ∀ m1, rme.moduleDef = some m1 → m1 < s.registry.defs.length
  bound : ∀ (i : DefId) (d : ModuleDef), s.registry.defs[i]? = some d → d.freed = false →
    i ∉ P → s.Bindings d.name (s.reqModuleEntries i)

/-- Nothing on the list is bound to a module in progress. -/
def Apart (P : List DefId) (s : Loading Cb) : Prop :=
  ∀ (i : DefId) (d : ModuleDef), s.registry.defs[i]? = some d → d.freed = false →
    ∀ rme ∈ s.reqModuleEntries i, ∀ m1, rme.moduleDef = some m1 → m1 ∉ P

/-- What there was stays; only `but`'s requests are bound. -/
structure Grows (but : DefId → Prop) (s t : Loading Cb) : Prop where
  modules : t.registry.modules = s.registry.modules
  old : ∀ (i : DefId) (d : ModuleDef), s.registry.defs[i]? = some d →
    ∃ d' : ModuleDef, t.registry.defs[i]? = some d' ∧ d'.name = d.name ∧ d'.native = d.native ∧
      d'.freed = d.freed ∧ (d.resolved = true → d'.resolved = true)
  entries : ∀ i, i < s.registry.defs.length → ¬but i →
    t.reqModuleEntries i = s.reqModuleEntries i

/-- The modules that are new, but for those in progress, have been compiled from
what was asked for in between. -/
def NewOnes (host : Host) (P : List DefId) (s t : Loading Cb) : Prop :=
  ∃ log, t.asked = s.asked ++ log ∧ ∀ (i : DefId) (d : ModuleDef),
    s.registry.defs.length ≤ i → t.registry.defs[i]? = some d → i ∉ P →
      d.freed = false ∧ ∃ e ∈ log, d.name = newString e.1 ∧
        host.compile e.1 e.2 = some ((t.reqModuleEntries i).map ReqModuleEntry.moduleName)

section

variable {but : DefId → Prop} {P : List DefId} {host : Host} {s t u : Loading Cb}

theorem lt_of_defs {s : Loading Cb} {i : DefId} {d : ModuleDef}
    (hd : s.registry.defs[i]? = some d) : i < s.registry.defs.length :=
  (List.getElem?_eq_some_iff.mp hd).1

theorem Ready.live {m : DefId} (h : s.Ready m) : s.Live m := by
  obtain ⟨d, hd, hfreed, -⟩ := h
  exact ⟨d, hd, hfreed⟩

theorem Live.lt {m : DefId} (h : s.Live m) : m < s.registry.defs.length :=
  lt_of_defs h.choose_spec.1

theorem Grows.refl (s : Loading Cb) : s.Grows but s where
  modules := rfl
  old _ d hd := ⟨d, hd, rfl, rfl, rfl, id⟩
  entries _ _ _ := rfl

theorem Grows.length_le (h : s.Grows but t) :
    s.registry.defs.length ≤ t.registry.defs.length := by
  by_contra hlt
  obtain ⟨d', hd', -⟩ := h.old t.registry.defs.length _
    (List.getElem?_eq_getElem (Nat.lt_of_not_le hlt))
  exact absurd (lt_of_defs hd') (Nat.lt_irrefl _)

theorem Grows.trans (h : s.Grows but t) (h' : t.Grows but u) : s.Grows but u where
  modules := h'.modules.trans h.modules
  old i d hd := by
    obtain ⟨d', hd', hname, hnative, hfreed, hres⟩ := h.old i d hd
    obtain ⟨d'', hd'', hname', hnative', hfreed', hres'⟩ := h'.old i d' hd'
    exact ⟨d'', hd'', hname'.trans hname, hnative'.trans hnative, hfreed'.trans hfreed,
      fun hr => hres' (hres hr)⟩
  entries i hi hbut :=
    (h'.entries i (Nat.lt_of_lt_of_le hi h.length_le) hbut).trans (h.entries i hi hbut)

theorem Grows.weaken {but' : DefId → Prop} (h : s.Grows but t) (hbut : ∀ i, but i → but' i) :
    s.Grows but' t where
  modules := h.modules
  old := h.old
  entries i hi hi' := h.entries i hi fun hb => hi' (hbut i hb)

/-- New modules may have been bound in between. -/
theorem Grows.trans_new {but' : DefId → Prop} (h : s.Grows but t) (h' : t.Grows but' u)
    (hbut : ∀ i, i < s.registry.defs.length → but' i → but i) : s.Grows but u where
  modules := h'.modules.trans h.modules
  old := (h.weaken fun i (hi : but i) => Or.inl hi).trans
    (h'.weaken fun i (hi : but' i) => (Or.inr hi : but i ∨ but' i)) |>.old
  entries i hi hb := (h'.entries i (Nat.lt_of_lt_of_le hi h.length_le) fun hb' =>
    hb (hbut i hi hb')).trans (h.entries i hi hb)

theorem Grows.ready (h : s.Grows but t) {m : DefId} (hm : s.Ready m) : t.Ready m := by
  obtain ⟨d, hd, hfreed, hres⟩ := hm
  obtain ⟨d', hd', -, -, hfreed', hres'⟩ := h.old m d hd
  exact ⟨d', hd', hfreed'.trans hfreed, hres' hres⟩

theorem Grows.answers (h : s.Grows but t) {cname : Bytes} {m1 : DefId}
    (hm : s.Answers cname m1) : t.Answers cname m1 := by
  obtain ⟨d, hd, hnamed⟩ := hm
  obtain ⟨d', hd', hname, hnative, -⟩ := h.old m1 d hd
  exact ⟨d', hd', by rwa [hname, hnative]⟩

theorem Grows.bindings (h : s.Grows but t) {base : JSString} {rmes : List ReqModuleEntry}
    (hb : s.Bindings base rmes) : t.Bindings base rmes := by
  intro rme hrme
  obtain ⟨m1, hm1, hready, hanswers⟩ := hb rme hrme
  exact ⟨m1, hm1, h.ready hready, h.answers hanswers⟩

theorem newOnes_nil (hasked : t.asked = s.asked)
    (hlen : t.registry.defs.length = s.registry.defs.length) : NewOnes host P s t := by
  refine ⟨[], by rw [hasked, List.append_nil], fun i d hi hd => ?_⟩
  exact absurd (hlen ▸ lt_of_defs hd) (Nat.not_lt.mpr hi)

/-- One load after the other. -/
theorem NewOnes.trans (h : NewOnes host P s t) (h' : NewOnes host P t u) (hg : t.Grows but u)
    (hbut : ∀ i, but i → i ∈ P) : NewOnes host P s u := by
  obtain ⟨log, hasked, hnew⟩ := h
  obtain ⟨log', hasked', hnew'⟩ := h'
  refine ⟨log ++ log', by rw [hasked', hasked, List.append_assoc], fun i d hi hd hP => ?_⟩
  rcases Nat.lt_or_ge i t.registry.defs.length with hlt | hge
  · obtain ⟨d', hd', hname, -, hfreed, -⟩ := hg.old i _ (List.getElem?_eq_getElem hlt)
    obtain rfl := Option.some.inj (hd.symm.trans hd')
    obtain ⟨hlive, e, he, hrest⟩ := hnew i _ hi (List.getElem?_eq_getElem hlt) hP
    rw [hg.entries i hlt fun hb => hP (hbut i hb), hname]
    exact ⟨hfreed.trans hlive, e, List.mem_append_left _ he, hrest⟩
  · obtain ⟨hlive, e, he, hrest⟩ := hnew' i d hge hd hP
    exact ⟨hlive, e, List.mem_append_right _ he, hrest⟩

/-! ## What the steps keep -/

/-- Of the definitions, only how far they have been resolved has changed. -/
theorem Tidy.congr (h : Tidy P s) (hg : s.Grows but t)
    (hlen : t.registry.defs.length = s.registry.defs.length)
    (hentries : t.reqModuleEntries = s.reqModuleEntries) : Tidy P t := by
  have hback : ∀ (i : DefId) (d : ModuleDef), t.registry.defs[i]? = some d →
      ∃ d' : ModuleDef, s.registry.defs[i]? = some d' ∧ d.native = d'.native ∧
        d.freed = d'.freed ∧ d.name = d'.name ∧ (d'.resolved = true → d.resolved = true) := by
    intro i d hd
    have hi : i < s.registry.defs.length := hlen ▸ lt_of_defs hd
    obtain ⟨d', hd', hname, hnative, hfreed, hres⟩ := hg.old i _ (List.getElem?_eq_getElem hi)
    obtain rfl := Option.some.inj (hd.symm.trans hd')
    exact ⟨_, List.getElem?_eq_getElem hi, hnative, hfreed, hname, hres⟩
  constructor
  · intro i d hd hfreed hnative
    obtain ⟨d', hd', hn, hf, -, hres⟩ := hback i d hd
    exact hres (h.settled i d' hd' (hf ▸ hfreed) (hn ▸ hnative))
  · intro i d r hd hnative
    obtain ⟨d', hd', hn, -⟩ := hback i d hd
    rw [hentries, hg.modules]
    exact h.plain i d' r hd' (hn ▸ hnative)
  · intro name m hm
    rw [hg.modules] at hm
    obtain ⟨d, r, hd, hfreed, hnative, hname⟩ := h.native name m hm
    obtain ⟨d', hd', -, hn, hf, -⟩ := hg.old m d hd
    exact ⟨d', r, hd', hf.trans hfreed, hn ▸ hnative, hname⟩
  · intro p hp
    obtain ⟨d, hd, hnative⟩ := h.progress p hp
    obtain ⟨d', hd', -, hn, -⟩ := hg.old p d hd
    exact ⟨d', hd', hn ▸ hnative⟩
  · intro i d hd hfreed
    obtain ⟨d', hd', -, hf, -⟩ := hback i d hd
    rw [hentries, hlen]
    exact h.known i d' hd' (hf ▸ hfreed)
  · intro i d hd hfreed hi
    obtain ⟨d', hd', -, hf, hname, -⟩ := hback i d hd
    rw [hentries, hname]
    exact hg.bindings (h.bound i d' hd' (hf ▸ hfreed) hi)

theorem grows_bind (s : Loading Cb) (m : DefId) :
    s.Grows but { s with registry := s.registry.bind m } where
  modules := rfl
  old i d hd := by
    refine ⟨if m = i then { d with resolved := true } else d, ?_, ?_⟩
    · show (s.registry.defs.modify m _)[i]? = _
      rw [List.getElem?_modify, hd]
      split <;> rfl
    · split
      · exact ⟨rfl, rfl, rfl, fun _ => rfl⟩
      · exact ⟨rfl, rfl, rfl, id⟩
  entries _ _ _ := rfl

/-- A module that has been resolved, or requests nothing, is not resolved again. -/
theorem wp_resolveModule_settled (but : DefId → Prop) (n : Nat) {m1 : DefId} (htidy : Tidy P s)
    (hlive : s.Live m1) :
    wp (resolveModule host n m1) s
      (fun ok t => ok = true ∧ t.asked = s.asked ∧ t.Ready m1 ∧ s.Grows but t ∧
        t.registry.defs.length = s.registry.defs.length ∧
        t.reqModuleEntries = s.reqModuleEntries) (fun _ _ => n = 0) := by
  obtain ⟨d, hd, hlive⟩ := hlive
  cases n with
  | zero => exact rfl
  | succ n =>
    rw [resolveModule, wp_bind, derefModule, wp_bind, wp_get, hd]
    by_cases hres : d.resolved = true
    · simp [hlive, hres, Ready, hd, Grows.refl]
    · -- a registered module, with no requests
      obtain ⟨r, hnative⟩ : ∃ r, d.native = some r :=
        Option.ne_none_iff_exists'.mp fun hnone => hres (htidy.settled m1 d hd hlive hnone)
      obtain ⟨hplain, -⟩ := htidy.plain m1 d r hd hnative
      have hbind : s.Grows but { s with registry := s.registry.bind m1 } := grows_bind s m1
      dsimp only
      rw [if_neg (by simp [hlive]), wp_pure, if_neg hres, wp_bind]
      show wp (resolveEntries host (resolveModule host n) m1 d.name 0
        ((s.reqModuleEntries m1).map ReqModuleEntry.moduleName)) _ _ _
      rw [hplain]
      refine ⟨rfl, rfl, ⟨{ d with resolved := true }, ?_, hlive, rfl⟩, hbind, ?_, rfl⟩
      · show (s.registry.defs.modify m1 _)[m1]? = _
        rw [List.getElem?_modify_eq, hd]
        rfl
      · exact List.length_modify ..

theorem modify_concat {α : Type} (l : List α) (a : α) (f : α → α) :
    (l ++ [a]).modify l.length f = l ++ [f a] := by
  induction l with
  | nil => rfl
  | cons b l ih => exact congrArg (b :: ·) ih

/-- The request number `done.length` is bound. -/
theorem modify_done (done : List ReqModuleEntry) (rme : ReqModuleEntry)
    (rest : List ReqModuleEntry) (m1 : DefId) :
    (done ++ rme :: rest).modify done.length (fun r => { r with moduleDef := some m1 }) =
      (done ++ [{ rme with moduleDef := some m1 }]) ++ rest := by
  induction done with
  | nil => rfl
  | cons r done ih => exact congrArg (r :: ·) ih

section

variable {m m1 : DefId} {rmes : List ReqModuleEntry}
  (hrmes : ∀ rme ∈ rmes, rme ∈ s.reqModuleEntries m ∨ rme.moduleDef = some m1)

include hrmes

/-- Binding a request of the module in progress. -/
theorem Tidy.setModule (h : Tidy P s) (hm : m ∈ P) (hm1 : m1 < s.registry.defs.length) :
    Tidy P { s with reqModuleEntries := Function.update s.reqModuleEntries m rmes } := by
  obtain ⟨dm, hdm, hnative⟩ := h.progress m hm
  refine ⟨h.settled, fun i d r hd hn => ?_, h.native, h.progress,
    fun i d hd hfreed rme hrme m2 hm2 => ?_,
    fun i d hd hfreed hi rme hrme => ?_⟩
  · have hne : i ≠ m := by
      rintro rfl
      obtain rfl := Option.some.inj (hd.symm.trans hdm)
      exact absurd (hn.symm.trans hnative) (by simp)
    show Function.update _ _ _ _ = _ ∧ _
    rw [Function.update_of_ne hne]
    exact h.plain i d r hd hn
  · by_cases him : i = m
    · subst him
      rcases hrmes rme (by simpa using hrme) with hold | hnew
      · exact h.known i d hd hfreed rme hold m2 hm2
      · exact Option.some.inj (hm2.symm.trans hnew) ▸ hm1
    · exact h.known i d hd hfreed rme (by simpa [him] using hrme) m2 hm2
  · have hne : i ≠ m := fun he => hi (he ▸ hm)
    exact h.bound i d hd hfreed hi rme (by simpa [hne] using hrme)

theorem Apart.setModule (h : Apart P s) (hm1 : m1 ∉ P) :
    Apart P { s with reqModuleEntries := Function.update s.reqModuleEntries m rmes } := by
  intro i d hd hfreed rme hrme m2 hm2
  by_cases him : i = m
  · subst him
    rcases hrmes rme (by simpa using hrme) with hold | hnew
    · exact h i d hd hfreed rme hold m2 hm2
    · exact Option.some.inj (hm2.symm.trans hnew) ▸ hm1
  · exact h i d hd hfreed rme (by simpa [him] using hrme) m2 hm2

end

theorem Apart.congr (h : Apart P s) (hg : s.Grows but t)
    (hlen : t.registry.defs.length = s.registry.defs.length)
    (hentries : t.reqModuleEntries = s.reqModuleEntries) : Apart P t := by
  intro i d hd hfreed
  have hi : i < s.registry.defs.length := hlen ▸ lt_of_defs hd
  obtain ⟨d', hd', -, -, hf, -⟩ := hg.old i _ (List.getElem?_eq_getElem hi)
  obtain rfl := Option.some.inj (hd.symm.trans hd')
  rw [hentries]
  exact h i _ (List.getElem?_eq_getElem hi) (hf ▸ hfreed)

/-! ## Modules in progress -/

/-- A new module that is being resolved. -/
def inProgress (s : Loading Cb) (name : Bytes) (requests : List JSString) : Loading Cb where
  registry := { s.registry with
    defs := s.registry.defs ++ [⟨newString name, none, true, false, false⟩] }
  reqModuleEntries := Function.update s.reqModuleEntries s.registry.defs.length
    (requests.map fun r => ⟨r, none⟩)
  asked := s.asked

section

variable {name : Bytes} {requests : List JSString}

theorem defs_inProgress_self : (s.inProgress name requests).registry.defs[s.registry.defs.length]? =
    some ⟨newString name, none, true, false, false⟩ := List.getElem?_concat_length ..

theorem defs_inProgress_old {i : DefId} {d : ModuleDef} (hd : s.registry.defs[i]? = some d) :
    (s.inProgress name requests).registry.defs[i]? = some d :=
  (List.getElem?_append_left (lt_of_defs hd)).trans hd

theorem grows_inProgress : s.Grows (fun _ => False) (s.inProgress name requests) where
  modules := rfl
  old _ d hd := ⟨d, defs_inProgress_old hd, rfl, rfl, rfl, id⟩
  entries _ hi _ := Function.update_of_ne (Nat.ne_of_lt hi) _ _

theorem entries_inProgress {i : DefId} {d : ModuleDef} (hd : s.registry.defs[i]? = some d) :
    (s.inProgress name requests).reqModuleEntries i = s.reqModuleEntries i :=
  grows_inProgress.entries i (lt_of_defs hd) id

/-- What is in the list: what was, or the new one. -/
theorem of_defs_inProgress {i : DefId} {d : ModuleDef}
    (hd : (s.inProgress name requests).registry.defs[i]? = some d) :
    s.registry.defs[i]? = some d ∨ i = s.registry.defs.length ∧
      d = ⟨newString name, none, true, false, false⟩ :=
  Registry.getElem?_snoc hd

theorem Tidy.inProgress (h : Tidy P s) :
    Tidy (s.registry.defs.length :: P) (s.inProgress name requests) := by
  constructor
  · intro i d hd hfreed hnative
    rcases of_defs_inProgress hd with hd | ⟨-, rfl⟩
    · exact h.settled i d hd hfreed hnative
    · rfl
  · intro i d r hd hnative
    rcases of_defs_inProgress hd with hd | ⟨-, rfl⟩
    · rw [entries_inProgress hd]
      exact h.plain i d r hd hnative
    · exact absurd hnative (by simp)
  · intro own m hm
    obtain ⟨d, r, hd, hrest⟩ := h.native own m hm
    exact ⟨d, r, defs_inProgress_old hd, hrest⟩
  · intro p hp
    rcases List.mem_cons.mp hp with rfl | hp
    · exact ⟨_, defs_inProgress_self, rfl⟩
    · obtain ⟨d, hd, hnative⟩ := h.progress p hp
      exact ⟨d, defs_inProgress_old hd, hnative⟩
  · intro i d hd hfreed rme hrme m1 hm1
    rcases of_defs_inProgress hd with hd | ⟨rfl, -⟩
    · rw [entries_inProgress hd] at hrme
      exact Nat.lt_of_lt_of_le (h.known i d hd hfreed rme hrme m1 hm1) grows_inProgress.length_le
    · -- nothing of the new one is bound yet
      have hrme' : rme ∈ requests.map fun r => (⟨r, none⟩ : ReqModuleEntry) := by
        simpa [Loading.inProgress] using hrme
      obtain ⟨r, -, rfl⟩ := List.mem_map.mp hrme'
      exact absurd hm1 (by simp)
  · intro i d hd hfreed hi
    rcases of_defs_inProgress hd with hd | ⟨rfl, -⟩
    · rw [entries_inProgress hd]
      exact grows_inProgress.bindings
        (h.bound i d hd hfreed fun hP => hi (List.mem_cons_of_mem _ hP))
    · exact absurd (List.mem_cons_self ..) hi

theorem Apart.inProgress (h : Apart P s) (htidy : Tidy P s) :
    Apart (s.registry.defs.length :: P) (s.inProgress name requests) := by
  intro i d hd hfreed rme hrme m1 hm1 hmem
  rcases of_defs_inProgress hd with hd | ⟨rfl, -⟩
  · rw [entries_inProgress hd] at hrme
    rcases List.mem_cons.mp hmem with rfl | hmem
    · exact absurd (htidy.known i d hd hfreed rme hrme _ hm1) (Nat.lt_irrefl _)
    · exact h i d hd hfreed rme hrme m1 hm1 hmem
  · have hrme' : rme ∈ requests.map fun r => (⟨r, none⟩ : ReqModuleEntry) := by
      simpa [Loading.inProgress] using hrme
    obtain ⟨r, -, rfl⟩ := List.mem_map.mp hrme'
    exact absurd hm1 (by simp)

/-- The requests of the module in progress have all been bound. -/
theorem Tidy.finish {m : DefId} {dm : ModuleDef} (h : Tidy (m :: P) s)
    (hdm : s.registry.defs[m]? = some dm) (hm : s.Bindings dm.name (s.reqModuleEntries m)) :
    Tidy P s where
  settled := h.settled
  plain := h.plain
  native := h.native
  progress p hp := h.progress p (List.mem_cons_of_mem _ hp)
  known := h.known
  bound i d hd hfreed hi := by
    by_cases him : i = m
    · subst him
      obtain rfl := Option.some.inj (hd.symm.trans hdm)
      exact hm
    · exact h.bound i d hd hfreed fun h => (List.mem_cons.mp h).elim him hi

theorem Apart.finish {m : DefId} (h : Apart (m :: P) s) : Apart P s :=
  fun i d hd hfreed rme hrme m1 hm1 hmem =>
    h i d hd hfreed rme hrme m1 hm1 (List.mem_cons_of_mem _ hmem)

theorem newOnes_inProgress (h : NewOnes host (s.registry.defs.length :: P)
    (s.inProgress name requests) t) : NewOnes host (s.registry.defs.length :: P) s t := by
  obtain ⟨log, hasked, hnew⟩ := h
  refine ⟨log, hasked, fun i d hi hd hP => hnew i d ?_ hd hP⟩
  have hne : i ≠ s.registry.defs.length := fun he => hP (he ▸ List.mem_cons_self ..)
  show (s.registry.defs ++ [_]).length ≤ i
  rw [List.length_append, List.length_singleton]
  exact Nat.lt_of_le_of_ne hi (Ne.symm hne)

end

/-- A definition that is given up. -/
def freed (s : Loading Cb) (m : DefId) : Loading Cb :=
  { s with
    registry := { s.registry with
      defs := s.registry.defs.modify m fun d => { d with freed := true } } }

theorem defs_freed (s : Loading Cb) (m i : DefId) : (s.freed m).registry.defs[i]? =
    s.registry.defs[i]?.map fun d => if m = i then { d with freed := true } else d := by
  show (s.registry.defs.modify m _)[i]? = _
  rw [List.getElem?_modify]
  cases s.registry.defs[i]? with
  | none => rfl
  | some d => split <;> rfl

theorem defs_freed_of_ne {m i : DefId} (h : m ≠ i) :
    (s.freed m).registry.defs[i]? = s.registry.defs[i]? := by
  rw [defs_freed]
  simp [h]

theorem length_freed (s : Loading Cb) (m : DefId) :
    (s.freed m).registry.defs.length = s.registry.defs.length := List.length_modify ..

/-- What is left is as it was. -/
theorem of_defs_freed {m i : DefId} {d : ModuleDef}
    (hd : (s.freed m).registry.defs[i]? = some d) (hfreed : d.freed = false) :
    ∃ d' : ModuleDef, s.registry.defs[i]? = some d' ∧ m ≠ i ∧ d' = d := by
  rw [defs_freed] at hd
  obtain ⟨d', hd', heq⟩ := Option.map_eq_some_iff.mp hd
  by_cases hmi : m = i
  · rw [if_pos hmi] at heq
    exact absurd hfreed (by rw [← heq]; simp)
  · rw [if_neg hmi] at heq
    exact ⟨d', hd', hmi, heq⟩

/-- The definition that is given up is a new one. -/
theorem grows_freed (h : s.Grows but t) {m : DefId} (hm : s.registry.defs.length ≤ m) :
    s.Grows but (t.freed m) where
  modules := h.modules
  old i d hd := by
    obtain ⟨d', hd', hrest⟩ := h.old i d hd
    have hne : m ≠ i := fun he => absurd (lt_of_defs hd) (Nat.not_lt.mpr (he ▸ hm))
    exact ⟨d', (defs_freed_of_ne hne).trans hd', hrest⟩
  entries := h.entries

theorem Tidy.freed {m : DefId} (h : Tidy (m :: P) s) (hapart : Apart (m :: P) s) :
    Tidy P (s.freed m) := by
  constructor
  · intro i d hd hfreed hnative
    obtain ⟨d', hd', -, hd⟩ := of_defs_freed hd hfreed
    exact hd ▸ h.settled i d' hd' (hd ▸ hfreed) (hd ▸ hnative)
  · intro i d r hd hnative
    rw [defs_freed] at hd
    obtain ⟨d', hd', rfl⟩ := Option.map_eq_some_iff.mp hd
    exact h.plain i d' r hd' (by split at hnative <;> exact hnative)
  · intro name i hi
    obtain ⟨d, r, hd, hrest⟩ := h.native name i hi
    -- what is given up was in progress, and not registered
    have hne : m ≠ i := by
      rintro rfl
      obtain ⟨dm, hdm, hnone⟩ := h.progress m (List.mem_cons_self ..)
      obtain rfl := Option.some.inj (hd.symm.trans hdm)
      exact absurd (hrest.2.1.symm.trans hnone) (by simp)
    exact ⟨d, r, (defs_freed_of_ne hne).trans hd, hrest⟩
  · intro p hp
    obtain ⟨d, hd, hnative⟩ := h.progress p (List.mem_cons_of_mem _ hp)
    refine ⟨_, by rw [defs_freed, hd]; rfl, ?_⟩
    split <;> exact hnative
  · intro i d hd hfreed rme hrme m1 hm1
    obtain ⟨d', hd', -, rfl⟩ := of_defs_freed hd hfreed
    rw [length_freed]
    exact h.known i d' hd' hfreed rme hrme m1 hm1
  · intro i d hd hfreed hi rme hrme
    obtain ⟨d', hd', hne, rfl⟩ := of_defs_freed hd hfreed
    have hi' : i ∉ m :: P := by
      rw [List.mem_cons]
      exact fun h => h.elim (fun he => hne he.symm) hi
    obtain ⟨m1, hm1, ⟨d1, hd1, hready⟩, d2, hd2, hnamed⟩ := h.bound i d' hd' hfreed hi' rme hrme
    -- nothing is bound to what is given up
    have hm1' : m ≠ m1 := fun he =>
      hapart i d' hd' hfreed rme hrme m1 hm1 (he ▸ List.mem_cons_self ..)
    have hkept := defs_freed_of_ne (s := s) hm1'
    exact ⟨m1, hm1, ⟨d1, hkept.trans hd1, hready⟩, d2, hkept.trans hd2, hnamed⟩

theorem Apart.freed {m : DefId} (h : Apart (m :: P) s) : Apart P (s.freed m) := by
  intro i d hd hfreed rme hrme m1 hm1 hmem
  obtain ⟨d', hd', -, rfl⟩ := of_defs_freed hd hfreed
  exact h i d' hd' hfreed rme hrme m1 hm1 (List.mem_cons_of_mem _ hmem)

theorem grows_ask (s : Loading Cb) (asked : List (Bytes × Bytes)) :
    s.Grows but { s with asked := asked } where
  modules := rfl
  old _ d hd := ⟨d, hd, rfl, rfl, rfl, id⟩
  entries _ _ _ := rfl

theorem grows_newModuleDef (s : Loading Cb) (name : Bytes) :
    s.Grows but { s with registry := s.registry.newModuleDef name } where
  modules := rfl
  old _ d hd := ⟨d, (List.getElem?_append_left (lt_of_defs hd)).trans hd, rfl, rfl, rfl, id⟩
  entries _ _ _ := rfl

/-- The definition of a file that does not compile is given up at once. -/
theorem notParsed (htidy : Tidy P s) (hapart : Apart P s) (name : Bytes) :
    Tidy P (freed { s with registry := s.registry.newModuleDef name } s.registry.defs.length) ∧
      Apart P (freed { s with registry := s.registry.newModuleDef name } s.registry.defs.length) := by
  have hg : s.Grows (fun _ => False)
      (freed { s with registry := s.registry.newModuleDef name } s.registry.defs.length) :=
    grows_freed (grows_newModuleDef s name) (Nat.le_refl _)
  have hback : ∀ (i : DefId) (d : ModuleDef),
      (freed { s with registry := s.registry.newModuleDef name }
        s.registry.defs.length).registry.defs[i]? = some d →
      d.freed = false ∨ d.native.isSome = true → s.registry.defs[i]? = some d := by
    intro i d hd hkind
    rw [defs_freed] at hd
    obtain ⟨d', hd', rfl⟩ := Option.map_eq_some_iff.mp hd
    rcases Registry.getElem?_snoc hd' with hold | ⟨rfl, rfl⟩
    · rw [if_neg (Nat.ne_of_gt (lt_of_defs hold))] at hkind ⊢
      exact hold
    · exact absurd hkind (by simp)
  refine ⟨⟨?_, ?_, ?_, ?_, ?_, ?_⟩, ?_⟩
  · exact fun i d hd hfreed => htidy.settled i d (hback i d hd (.inl hfreed)) hfreed
  · exact fun i d r hd hnative =>
      htidy.plain i d r (hback i d hd (.inr (by rw [hnative]; rfl))) hnative
  · intro own m hm
    obtain ⟨d, r, hd, hfreed, hnative, hname⟩ := htidy.native own m hm
    obtain ⟨d', hd', -, hn, hf, -⟩ := hg.old m d hd
    exact ⟨d', r, hd', hf.trans hfreed, hn ▸ hnative, hname⟩
  · intro p hp
    obtain ⟨d, hd, hnative⟩ := htidy.progress p hp
    obtain ⟨d', hd', -, hn, -⟩ := hg.old p d hd
    exact ⟨d', hd', hn ▸ hnative⟩
  · intro i d hd hfreed rme hrme m1 hm1
    exact Nat.lt_of_lt_of_le
      (htidy.known i d (hback i d hd (.inl hfreed)) hfreed rme hrme m1 hm1) hg.length_le
  · exact fun i d hd hfreed hi =>
      hg.bindings (htidy.bound i d (hback i d hd (.inl hfreed)) hfreed hi)
  · exact fun i d hd hfreed => hapart i d (hback i d hd (.inl hfreed)) hfreed

end

end Loading

end Ejr
