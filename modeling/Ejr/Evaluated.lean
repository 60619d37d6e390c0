import Ejr.ModuleSearch

/-!
# What has been evaluated

The invariant of evaluation. The log says what has been run: every module at
most once, and only after each of its imports has been run to its end, but for
those that lead back to it (`Ordered`). The fields of each module agree with
the log (`Accounted`): a settled module without an exception has the root of its
cycle, which is asynchronous when the module is; what it imports is fine, and
the module is asynchronous itself if it imports from a cycle that is. An
exception has been thrown by something that the module leads to.
-/

namespace Ejr

open Lib

variable {E : Type}

theorem ModuleStatus.not_settled_evaluating : ¬Settled .evaluating := by simp [Settled]

namespace Evaluation

abbrev async (s : Evaluation E) (v : DefId) : Bool := (s.mods v).asyncEvaluation

abbrev root (s : Evaluation E) (v : DefId) : Option DefId := (s.mods v).cycleRoot

abbrev exception (s : Evaluation E) (v : DefId) : Option E := (s.mods v).evalException

abbrev promise (s : Evaluation E) (v : DefId) : Option (Settlement E) := (s.mods v).promise

/-! ## One module -/

/-- The module's code has not been run. -/
def Unrun (s : Evaluation E) (v : DefId) : Prop := ∀ x, (v, x) ∉ s.log

/-- The evaluation of the module has come to nothing so far. -/
structure Blank (s : Evaluation E) (v : DefId) : Prop where
  async : s.async v = false
  exception : s.exception v = none
  unrun : Unrun s v

/-- The module has been run to its end, or leads to one that has been started. -/
structure Done (r : Realm E) (s : Evaluation E) (v : DefId) : Prop where
  exception : s.exception v = none
  completed : s.async v = false → (v, .completed) ∈ s.log
  waits : s.async v = true → ∃ w, Reach r v w ∧ (w, .started) ∈ s.log

/-- A settled module without an exception, and the root of its cycle. -/
structure Fine (r : Realm E) (s : Evaluation E) (v c : DefId) : Prop where
  done : Done r s v
  settled : (s.status v).Settled
  root : s.root v = some c
  rootDone : Done r s c
  rootSettled : (s.status c).Settled
  rootRoot : s.root c = some c
  there : Reach r v c
  back : Reach r c v
  async : s.async v = true → s.async c = true

/-- What a settled module imports is of its cycle, or makes it wait if it has to. -/
def Closed (r : Realm E) (s : Evaluation E) (v c : DefId) : Prop :=
  ∀ w, r.Imports v w → ∃ c', Fine r s w c' ∧ (c' = c ∨ (s.async c' = true → s.async v = true))

/-- Something that the module leads to has thrown this, or has not been run because the stack
was exhausted; in `Over` are those that will not be. -/
def Fault (r : Realm E) (s : Evaluation E) (Over : DefId → Prop) (v : DefId) (e : E) : Prop :=
  ∃ w, Reach r v w ∧ ((w, .threw e) ∈ s.log ∨ e = r.stackOverflow ∧ Over w ∧ Unrun s w)

/-- A module whose evaluation has failed, and where the promise is that says so. -/
structure Failed (r : Realm E) (s : Evaluation E) (v : DefId) (e : E) : Prop where
  status : s.status v = .evaluated
  fault : Fault r s (fun w => (s.status w).Settled) v e
  root : ∃ c, s.root v = some c ∧ s.promise c = some (.rejected e)

/-- The fields of a module agree with the log. -/
structure Accounted (r : Realm E) (s : Evaluation E) (v : DefId) : Prop where
  blank : ¬(s.status v).Settled → s.status v ≠ .evaluating → Blank s v
  waiting : s.status v = .evaluatingAsync → s.async v = true
  fine : (s.status v).Settled → s.exception v = none → ∃ c, Fine r s v c ∧ Closed r s v c
  failed : ∀ e, s.exception v = some e → Failed r s v e

/-- Every module runs after its imports, but for those that lead back to it. -/
def Ordered (r : Realm E) (log : List (DefId × Ran E)) : Prop :=
  ∀ pre v x post, log = pre ++ (v, x) :: post →
    ∀ w, r.Imports v w → (w, .completed) ∈ pre ∨ Reach r w v

/-- What has been evaluated is in order. -/
structure Books (r : Realm E) (s : Evaluation E) : Prop where
  once : (s.log.map Prod.fst).Nodup
  ordered : Ordered r s.log
  accounted : ∀ v, Accounted r s v

/-! ## From one state to another -/

/-- The module is as before. -/
structure SameModule (s t : Evaluation E) (v : DefId) : Prop where
  status : t.status v = s.status v
  async : t.async v = s.async v
  root : t.root v = s.root v
  exception : t.exception v = s.exception v

section

variable {r : Realm E} {s t u : Evaluation E} {v w c : DefId} {e : E}
  {Over Over' : DefId → Prop}

theorem sameModule_of_eq (h : t.mods v = s.mods v) : SameModule s t v :=
  ⟨congrArg _ h, congrArg _ h, congrArg _ h, congrArg _ h⟩

theorem SameModule.trans (h : SameModule s t v) (h' : SameModule t u v) : SameModule s u v :=
  ⟨h'.status.trans h.status, h'.async.trans h.async, h'.root.trans h.root,
    h'.exception.trans h.exception⟩

theorem Blank.congr (h : Blank s v) (hv : SameModule s t v)
    (hlog : ∀ x, (v, x) ∈ t.log → (v, x) ∈ s.log) : Blank t v :=
  ⟨hv.async.trans h.async, hv.exception.trans h.exception, fun x hx => h.unrun x (hlog x hx)⟩

theorem Done.congr (h : Done r s v) (hv : SameModule s t v) (hlog : s.log ⊆ t.log) :
    Done r t v where
  exception := hv.exception.trans h.exception
  completed ha := hlog (h.completed (hv.async.symm.trans ha))
  waits ha := by
    obtain ⟨w, hw, hstarted⟩ := h.waits (hv.async.symm.trans ha)
    exact ⟨w, hw, hlog hstarted⟩

theorem Fine.congr (h : Fine r s v c) (hv : SameModule s t v) (hc : SameModule s t c)
    (hlog : s.log ⊆ t.log) : Fine r t v c where
  done := h.done.congr hv hlog
  settled := by rw [hv.status]; exact h.settled
  root := hv.root.trans h.root
  rootDone := h.rootDone.congr hc hlog
  rootSettled := by rw [hc.status]; exact h.rootSettled
  rootRoot := hc.root.trans h.rootRoot
  there := h.there
  back := h.back
  async ha := hc.async.trans (h.async (hv.async.symm.trans ha))

theorem Fault.imp (h : Fault r s Over v e) (hlog : s.log ⊆ t.log)
    (hover : ∀ w, Over w → Unrun s w → Over' w ∧ Unrun t w) : Fault r t Over' v e := by
  obtain ⟨w, hw, hthrew | ⟨he, ho, hrun⟩⟩ := h
  · exact ⟨w, hw, .inl (hlog hthrew)⟩
  · exact ⟨w, hw, .inr ⟨he, hover w ho hrun⟩⟩

/-- What leads to a fault has it too. -/
theorem Fault.lead (h : Fault r s Over w e) (hv : Reach r v w) : Fault r s Over v e := by
  obtain ⟨u, hu, hrest⟩ := h
  exact ⟨u, hv.trans hu, hrest⟩

/-- A module whose root is not asynchronous has been run to its end. -/
theorem Fine.completed (h : Fine r s v c) (hc : s.async c = false) : (v, .completed) ∈ s.log := by
  refine h.done.completed ?_
  by_contra ha
  rw [h.async (by simpa using ha)] at hc
  exact absurd hc (by simp)

theorem ordered_nil : Ordered r [] := fun _ _ _ _ h => absurd h (by simp)

/-- One more module is run. -/
theorem Ordered.snoc {log : List (DefId × Ran E)} (h : Ordered r log) {x : Ran E}
    (hv : ∀ w, r.Imports v w → (w, .completed) ∈ log ∨ Reach r w v) :
    Ordered r (log ++ [(v, x)]) := by
  intro pre v' x' post heq w himp
  rcases List.eq_nil_or_concat post with rfl | ⟨post', p, rfl⟩
  · obtain ⟨rfl, hlast⟩ := List.append_inj' heq rfl
    obtain ⟨rfl, -⟩ := Prod.mk.inj (List.singleton_inj.mp hlast)
    exact hv w himp
  · rw [List.concat_eq_append, ← List.cons_append, ← List.append_assoc] at heq
    exact h pre v' x' post' (List.append_inj' heq rfl).1 w himp

/-- Some modules change; what has been settled stays. -/
theorem Accounted.congr (h : Accounted r s v) (hv : SameModule s t v)
    (hsettled : ∀ w, (s.status w).Settled → SameModule s t w) (hlog : s.log ⊆ t.log)
    (hunrun : ∀ w, w = v ∨ (s.status w).Settled → ∀ x, (w, x) ∈ t.log → (w, x) ∈ s.log)
    (hpromise : ∀ c e, s.promise c = some (.rejected e) → t.promise c = some (.rejected e)) :
    Accounted r t v where
  blank hst hbusy := by
    rw [hv.status] at hst hbusy
    exact (h.blank hst hbusy).congr hv (hunrun v (.inl rfl))
  waiting hst := hv.async.trans (h.waiting (hv.status.symm.trans hst))
  fine hst hex := by
    rw [hv.status] at hst
    rw [hv.exception] at hex
    have hkeep : ∀ {w c}, Fine r s w c → Fine r t w c := fun hf =>
      hf.congr (hsettled _ hf.settled) (hsettled _ hf.rootSettled) hlog
    obtain ⟨c, hfine, hclosed⟩ := h.fine hst hex
    refine ⟨c, hkeep hfine, fun w himp => ?_⟩
    obtain ⟨c', hfine', hor⟩ := hclosed w himp
    refine ⟨c', hkeep hfine', hor.imp_right fun himp ha => ?_⟩
    rw [(hsettled c' hfine'.rootSettled).async] at ha
    rw [hv.async]
    exact himp ha
  failed e hex := by
    rw [hv.exception] at hex
    obtain ⟨hst, hfault, c, hc, hp⟩ := h.failed e hex
    refine ⟨hv.status.trans hst, hfault.imp hlog fun w hw hrun => ⟨?_, fun x hx => ?_⟩, c,
      hv.root.trans hc, hpromise c e hp⟩
    · rw [(hsettled w hw).status]
      exact hw
    · exact hrun x (hunrun w (.inr hw) x hx)

/-- The modules of `C`, none of which has been settled, change. -/
theorem Books.change (h : Books r s) (C : DefId → Prop)
    (hC : ∀ v, C v → ¬(s.status v).Settled) (hkept : ∀ v, ¬C v → SameModule s t v)
    (hpromise : ∀ c e, s.promise c = some (.rejected e) → t.promise c = some (.rejected e))
    (rest : List (DefId × Ran E)) (hlog : t.log = s.log ++ rest)
    (hrest : ∀ v x, (v, x) ∈ rest → C v) (honce : (t.log.map Prod.fst).Nodup)
    (hordered : Ordered r t.log) (hchanged : ∀ v, C v → Accounted r t v) : Books r t where
  once := honce
  ordered := hordered
  accounted v := by
    by_cases hv : C v
    · exact hchanged v hv
    · refine (h.accounted v).congr (hkept v hv) (fun w hw => hkept w fun hCw => hC w hCw hw)
        (hlog ▸ List.subset_append_left ..) (fun w hw x hx => ?_) hpromise
      have hCw : ¬C w := by
        rcases hw with rfl | hw
        · exact hv
        · exact fun hCw => hC w hCw hw
      rw [hlog] at hx
      exact (List.mem_append.mp hx).resolve_right fun hx => hCw (hrest w x hx)

theorem Books.same (h : Books r s) (hlog : t.log = s.log) (hsame : ∀ v, SameModule s t v)
    (hpromise : ∀ c e, s.promise c = some (.rejected e) → t.promise c = some (.rejected e)) :
    Books r t :=
  h.change (fun _ => False) (fun _ h => h.elim) (fun v _ => hsame v) hpromise []
    (hlog.trans (List.append_nil _).symm) (by simp) (hlog ▸ h.once) (hlog ▸ h.ordered)
    fun _ h => h.elim

/-- Nothing the books are about changes. -/
structure Quiet (s t : Evaluation E) : Prop where
  stack : t.stackTop = s.stackTop
  log : t.log = s.log
  same : ∀ v, SameModule s t v
  promise : ∀ v, t.promise v = s.promise v

theorem Quiet.trans (h : Quiet s t) (h' : Quiet t u) : Quiet s u :=
  ⟨h'.stack.trans h.stack, h'.log.trans h.log, fun v => (h.same v).trans (h'.same v),
    fun v => (h'.promise v).trans (h.promise v)⟩

theorem Books.congr (h : Books r s) (hst : Quiet s t) : Books r t :=
  h.same hst.log hst.same fun c _ hp => (hst.promise c).trans hp

end

end Evaluation

end Ejr
