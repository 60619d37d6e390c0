import Ejr.Linking
import Ejr.Visits

/-!
# What the promise of an evaluation says

`js_evaluate_module`, from a state in which nothing is being evaluated to one
like it (`wp_evaluateModule`): no assertion fails, and the promise that it
returns tells what has become of everything the module leads to (`Tells`). It
is fulfilled exactly when all of that has been run to its end
(`Tells.fulfilled_iff`).
-/

namespace Ejr

open Lib

variable {E : Type}

theorem ModuleStatus.linked_iff {st : ModuleStatus} (h : st ≠ .evaluating) :
    st.Linked ↔ ¬st.Fresh := by
  cases st <;> simp_all [ModuleStatus.Linked, ModuleStatus.Fresh]

namespace Evaluation

/-! ## Between evaluations -/

/-- The promise agrees with the fields of its module. -/
def Settles (s : Evaluation E) (c : DefId) : Settlement E → Prop
  | .pending => s.exception c = none ∧ s.async c = true
  | .fulfilled => s.exception c = none ∧ s.async c = false
  | .rejected e => s.exception c = some e

/-- The root of a cycle has the promise. -/
structure Promises (s : Evaluation E) (c : DefId) (p : Settlement E) : Prop where
  settled : (s.status c).Settled
  root : s.root c = some c
  settles : Settles s c p

/-- Nothing is being linked or evaluated. -/
structure Idle (r : Realm E) (s : Evaluation E) : Prop extends Books r s, Linkable r s where
  notLinking : ∀ v, s.status v ≠ .linking
  promises : ∀ c p, s.promise c = some p → Promises s c p

/-- What has become of the modules that `m` leads to. -/
def Tells (r : Realm E) (s : Evaluation E) (m : DefId) : Settlement E → Prop
  | .pending => ∃ w, Reach r m w ∧ (w, .started) ∈ s.log
  | .fulfilled => ∀ w, Reach r m w → (w, .completed) ∈ s.log
  | .rejected e => Fault r s (fun w => (s.status w).Settled) m e

section

variable {r : Realm E} {s t u : Evaluation E} {m v w c : DefId} {p : Settlement E} {e : E}

theorem Promises.congr (h : Promises s c p) (hc : SameModule s t c) : Promises t c p := by
  refine ⟨by rw [hc.status]; exact h.settled, hc.root.trans h.root, ?_⟩
  have hsettles := h.settles
  cases p with
  | pending => exact ⟨hc.exception.trans hsettles.1, hc.async.trans hsettles.2⟩
  | fulfilled => exact ⟨hc.exception.trans hsettles.1, hc.async.trans hsettles.2⟩
  | rejected e => exact hc.exception.trans hsettles

/-- A module whose root is not asynchronous leads to modules like it. -/
theorem Books.reached (h : Books r s) (hm : Fine r s m c) (hc : s.async c = false)
    (hw : Reach r m w) : ∃ c', Fine r s w c' ∧ s.async c' = false := by
  induction hw with
  | refl => exact ⟨c, hm, hc⟩
  | @tail v w _ himp ih =>
    obtain ⟨cv, hv, hcv⟩ := ih
    obtain ⟨cv', hv', hclosed⟩ := (h.accounted v).fine hv.settled hv.done.exception
    obtain rfl : cv = cv' := Option.some.inj (hv.root.symm.trans hv'.root)
    obtain ⟨cw, hfine, hcw⟩ := hclosed w himp
    refine ⟨cw, hfine, ?_⟩
    rcases hcw with rfl | hasync
    · exact hcv
    · by_contra ha
      rw [hv.async (hasync (by simpa using ha))] at hcv
      exact absurd hcv (by simp)

/-- The promise of the root tells what has become of the module. -/
theorem Idle.tells (h : Idle r s) (hm : (s.status m).Settled) (hroot : s.root m = some c)
    (hp : s.promise c = some p) : Tells r s m p := by
  obtain ⟨-, -, hsettles⟩ := h.promises c p hp
  have hacc := h.accounted m
  cases hex : s.exception m with
  | some e =>
    obtain ⟨-, hfault, c', hc', hp'⟩ := hacc.failed e hex
    obtain rfl : c = c' := Option.some.inj (hroot.symm.trans hc')
    obtain rfl : p = .rejected e := Option.some.inj (hp.symm.trans hp')
    exact hfault
  | none =>
    obtain ⟨c', hfine, -⟩ := hacc.fine hm hex
    obtain rfl : c = c' := Option.some.inj (hroot.symm.trans hfine.root)
    cases p with
    | pending =>
      obtain ⟨w, hw, hstarted⟩ := hfine.rootDone.waits hsettles.2
      exact ⟨w, hfine.there.trans hw, hstarted⟩
    | fulfilled =>
      intro w hw
      obtain ⟨cw, hfw, hcw⟩ := h.toBooks.reached hfine hsettles.2 hw
      exact hfw.completed hcw
    | rejected e =>
      exact absurd (hsettles.symm.trans hfine.rootDone.exception) (by simp)

theorem Books.ran_unique (h : Books r s) {x y : Ran E} (hx : (v, x) ∈ s.log)
    (hy : (v, y) ∈ s.log) : x = y := by
  have := List.inj_on_of_nodup_map h.once hx hy rfl
  exact (Prod.mk.inj this).2

/-- A promise is fulfilled exactly when everything has been run to its end. -/
theorem Tells.fulfilled_iff (h : Books r s) (hp : Tells r s m p) :
    p = .fulfilled ↔ ∀ w, Reach r m w → (w, .completed) ∈ s.log := by
  refine ⟨fun he => by subst he; exact hp, fun hall => ?_⟩
  cases p with
  | pending =>
    obtain ⟨w, hw, hstarted⟩ := hp
    exact absurd (h.ran_unique hstarted (hall w hw)) (by simp)
  | fulfilled => rfl
  | rejected e =>
    obtain ⟨w, hw, hthrew | ⟨-, -, hrun⟩⟩ := hp
    · exact absurd (h.ran_unique hthrew (hall w hw)) (by simp)
    · exact absurd (hall w hw) (hrun _)

/-! ## Linking -/

/-- Linking leaves what has been evaluated alone. -/
theorem Idle.links {R : DefId → Prop} (h : Idle r s) (hlinks : Links R s t)
    (hlinkable : Linkable r t) (hnot : ∀ v, t.status v ≠ .linking) : Idle r t := by
  have hasync : ∀ v, t.async v = s.async v := fun v => by rw [async, hlinks.rest v]
  have hex : ∀ v, t.exception v = s.exception v := fun v => by rw [exception, hlinks.rest v]
  have hroot : ∀ v, t.root v = s.root v := fun v => by rw [root, hlinks.rest v]
  have hpromise : ∀ v, t.promise v = s.promise v := fun v => by rw [promise, hlinks.rest v]
  have hsame : ∀ v, (s.status v).Linked → SameModule s t v := fun v hv =>
    ⟨hlinks.linked v hv, hasync v, hroot v, hex v⟩
  have hunsettled : ∀ v, ¬(s.status v).Linked → ¬(t.status v).Settled := fun v hv hst =>
    hv (hlinks.unsettled v hst ▸ (.inr hst))
  refine ⟨h.toBooks.change (fun v => ¬(s.status v).Linked) (fun v hv hst => hv (.inr hst))
    (fun v hv => hsame v (not_not.mp hv)) (fun c e hp => (hpromise c).trans hp) []
    (hlinks.log.trans (List.append_nil _).symm) (by simp) (hlinks.log ▸ h.once)
    (hlinks.log ▸ h.ordered) fun v hv => ?_, hlinkable, hnot, fun c p hp => ?_⟩
  · have hblank := (h.accounted v).blank (fun hst => hv (.inr hst)) (h.idle v)
    refine ⟨fun _ _ => ⟨(hasync v).trans hblank.async, (hex v).trans hblank.exception,
      fun x hx => hblank.unrun x (hlinks.log ▸ hx)⟩, fun hst => ?_, fun hst => ?_, fun e he => ?_⟩
    · exact absurd (.inl hst) (hunsettled v hv)
    · exact absurd hst (hunsettled v hv)
    · rw [hex v, hblank.exception] at he
      exact absurd he (by simp)
  · have hc := h.promises c p ((hpromise c).symm.trans hp)
    exact hc.congr (hsame c (.inr hc.settled))

/-! ## Evaluating -/

/-- `m->promise` is set. -/
def promised (m : DefId) (p : Settlement E) (s : Evaluation E) : Evaluation E :=
  { s with mods := Function.update s.mods m { s.mods m with promise := some p } }

theorem promised_same (s : Evaluation E) (m : DefId) (p : Settlement E) (v : DefId) :
    SameModule s (s.promised m p) v := by
  by_cases hv : v = m
  · subst hv
    simp only [promised]
    exact ⟨by simp [status], by simp [async], by simp [root], by simp [exception]⟩
  · exact sameModule_of_eq (Function.update_of_ne hv _ _)

theorem promise_promised (s : Evaluation E) (m : DefId) (p : Settlement E) :
    (s.promised m p).promise m = some p := by simp [promised, promise]

theorem promise_promised_of_ne (s : Evaluation E) (p : Settlement E) (hv : v ≠ m) :
    (s.promised m p).promise v = s.promise v := by simp [promised, promise, hv]

/-- What has not been linked is as before, and nothing is being evaluated. -/
theorem Idle.linkable_of_fresh (h : Idle r s) (hidle : ∀ v, t.status v ≠ .evaluating)
    (hfresh : ∀ v, (s.status v).Fresh ∨ (t.status v).Fresh → t.status v = s.status v) :
    Linkable r t ∧ ∀ v, t.status v ≠ .linking := by
  refine ⟨⟨hidle, fun v hv w himp => ?_⟩, fun v hv => ?_⟩
  · have hsv : ¬(s.status v).Fresh := fun hf =>
      (ModuleStatus.linked_iff (hidle v)).mp hv (by rwa [hfresh v (.inl hf)])
    have hsw := h.closed v ((ModuleStatus.linked_iff (h.idle v)).mpr hsv) w himp
    refine (ModuleStatus.linked_iff (hidle w)).mpr fun hf => ?_
    exact (ModuleStatus.linked_iff (h.idle w)).mp hsw (by rwa [← hfresh w (.inr hf)])
  · have heq := hfresh v (.inr (.inr hv))
    exact h.notLinking v (heq ▸ hv)

/-- `js_evaluate_module` has come back with the promise of `c`. -/
structure Evaluates (r : Realm E) (m : DefId) (s t : Evaluation E) (c : DefId) : Prop where
  idle : Idle r t
  log : ∃ rest, t.log = s.log ++ rest
  settled : (t.status m).Settled
  root : t.root m = some c
  promise : ∃ p, t.promise c = some p
  kept : ∀ v p, s.promise v = some p → t.promise v = some p
  same : ∀ v, (s.status v).Settled → SameModule s t v
  fresh : ∀ v, (s.status v).Fresh ∨ (t.status v).Fresh → t.status v = s.status v

/-- What an evaluation of `m` starts from. -/
def beginning (m : DefId) (s : Evaluation E) : Evaluation E :=
  { s.promised m .pending with stackTop := [] }

theorem beginning_same (s : Evaluation E) (m v : DefId) : SameModule s (s.beginning m) v :=
  have h := promised_same s m .pending v
  ⟨h.status, h.async, h.root, h.exception⟩

theorem Idle.beginning (h : Idle r s) (hp : s.promise m = none) :
    Steady r [] (s.beginning m) := by
  refine ⟨h.toBooks.same rfl (beginning_same s m) fun c e hc => ?_, by simp,
    fun v hv => absurd hv List.not_mem_nil⟩
  have hcm : c ≠ m := by
    rintro rfl
    exact absurd (hc.symm.trans hp) (by simp)
  exact (promise_promised_of_ne s _ hcm).trans hc

/-- The promises of other modules are those that they had. -/
theorem Idle.promises_kept (h : Idle r s) (hp : s.promise m = none)
    (hsettled : ∀ v, (s.status v).Settled → SameModule s t v)
    (hother : ∀ v, v ≠ m → t.promise v = s.promise v)
    (hm : ∀ p, t.promise m = some p → Promises t m p) :
    (∀ c p, t.promise c = some p → Promises t c p) ∧
      ∀ v p, s.promise v = some p → t.promise v = some p := by
  refine ⟨fun c p hc => ?_, fun v p hv => ?_⟩
  · by_cases hcm : c = m
    · subst hcm
      exact hm p hc
    · have hold := h.promises c p ((hother c hcm).symm.trans hc)
      exact hold.congr (hsettled c hold.settled)
  · have hvm : v ≠ m := by
      rintro rfl
      exact absurd (hv.symm.trans hp) (by simp)
    exact (hother v hvm).trans hv

/-- The evaluation has gone well: the promise is fulfilled, or stays pending. -/
theorem Evaluates.well (hs : Idle r s) (hp : s.promise m = none)
    (hcont : Continues (s.beginning m) t) (hsteady : Steady r [] t)
    (hidle : ∀ v, t.status v ≠ .evaluating) (hm : (t.status m).Settled)
    (hroot : t.root m = some m) (hex : t.exception m = none) (hu : u.log = t.log)
    (husame : ∀ v, SameModule t u v) (huother : ∀ v, v ≠ m → u.promise v = t.promise v)
    (hum : u.promise m = some p) (hsettles : Settles t m p) : Evaluates r m s u m := by
  have hstart : ∀ v, SameModule s (s.beginning m) v := beginning_same s m
  have hpending : t.promise m = some .pending :=
    (hcont.promise m).trans (promise_promised s m .pending)
  have hpromises : Promises u m p := Promises.congr ⟨hm, hroot, hsettles⟩ (husame m)
  have hfresh : ∀ v, (s.status v).Fresh ∨ (u.status v).Fresh → u.status v = s.status v := by
    intro v hv
    rw [(husame v).status] at hv ⊢
    rw [← (hstart v).status] at hv ⊢
    exact hcont.fresh v hv
  obtain ⟨hlinkable, hnot⟩ := hs.linkable_of_fresh (t := u)
    (fun v => by rw [(husame v).status]; exact hidle v) hfresh
  have hsame : ∀ v, (s.status v).Settled → SameModule s u v := by
    intro v hv
    have hv' : ((s.beginning m).status v).Settled := by
      rw [(hstart v).status]
      exact hv
    exact ((hstart v).trans (hcont.kept v (.inl hv')).1).trans (husame v)
  obtain ⟨hall, hkept⟩ := hs.promises_kept (t := u) hp hsame
    (fun v hv => (huother v hv).trans ((hcont.promise v).trans (promise_promised_of_ne s _ hv)))
    fun p' hp' => Option.some.inj (hum.symm.trans hp') ▸ hpromises
  refine ⟨⟨hsteady.toBooks.same hu husame fun c e hc => ?_, hlinkable, hnot, hall⟩, ?_,
    hpromises.settled, hpromises.root, ⟨p, hum⟩, hkept, hsame, hfresh⟩
  · have hcm : c ≠ m := by
      rintro rfl
      exact absurd (hc.symm.trans hpending) (by simp)
    exact (huother c hcm).trans hc
  · obtain ⟨rest, hrest⟩ := hcont.log
    exact ⟨rest, hu.trans hrest⟩

/-- What is done with a module on the stack after a failure. -/
def fail (m : DefId) (e : E) (d : ModuleState E) : ModuleState E :=
  { d with status := .evaluated, evalException := some e, cycleRoot := some m }

/-- After a failure: everything on the stack has the exception, and the promise is rejected. -/
def failed (m : DefId) (e : E) (t : Evaluation E) : Evaluation E :=
  (t.popped (fail m e) t.stackTop []).promised m (.rejected e)

theorem failed_onStack (hv : v ∈ t.stackTop) : (t.failed m e).status v = .evaluated ∧
    (t.failed m e).exception v = some e ∧ (t.failed m e).root v = some m := by
  have hmods : (t.popped (fail m e) t.stackTop []).mods v = fail m e (t.mods v) := if_pos hv
  have hsame := promised_same (t.popped (fail m e) t.stackTop []) m (.rejected e) v
  refine ⟨hsame.status.trans ?_, hsame.exception.trans ?_, hsame.root.trans ?_⟩
  · rw [status, hmods]
    rfl
  · rw [exception, hmods]
    rfl
  · rw [root, hmods]
    rfl

theorem failed_other (hv : v ∉ t.stackTop) : SameModule t (t.failed m e) v :=
  (sameModule_of_eq (if_neg hv)).trans (promised_same _ m _ v)

theorem failed_promise (hv : v ≠ m) : (t.failed m e).promise v = t.promise v := by
  refine (promise_promised_of_ne _ _ hv).trans ?_
  by_cases hmem : v ∈ t.stackTop
  · have hmods : (t.popped (fail m e) t.stackTop []).mods v = fail m e (t.mods v) := if_pos hmem
    rw [promise, hmods]
    rfl
  · exact congrArg ModuleState.promise (if_neg hmem)

theorem Broken.unsettled (h : Broken r [] t e) (hv : v ∈ t.stackTop) : ¬(t.status v).Settled := by
  rw [(h.busy_iff v).mpr hv]
  exact ModuleStatus.not_settled_evaluating

/-- The books after a failure. -/
theorem Broken.books (h : Broken r [] t e) (hp : t.promise m = some .pending) :
    Books r (t.failed m e) := by
  refine h.toBooks.change (· ∈ t.stackTop) (fun v hv => h.unsettled hv)
    (fun v hv => failed_other hv) (fun c e' hc => ?_) [] (List.append_nil _).symm (by simp)
    h.once h.ordered fun v hv => ?_
  · have hcm : c ≠ m := by
      rintro rfl
      exact absurd (hc.symm.trans hp) (by simp)
    exact (failed_promise hcm).trans hc
  · obtain ⟨hstatus, hexception, hroot⟩ := failed_onStack (m := m) (e := e) hv
    refine ⟨fun hst => absurd (.inr hstatus) hst, fun hst => ?_, fun _ hex => ?_, fun e' he => ?_⟩
    · rw [hstatus] at hst
      exact absurd hst (by decide)
    · rw [hexception] at hex
      exact absurd hex (by simp)
    · obtain rfl := Option.some.inj (hexception.symm.trans he)
      refine ⟨hstatus, (h.fault v hv).imp (List.Subset.refl _) fun w hw hrun => ⟨?_, hrun⟩, m,
        hroot, promise_promised _ m _⟩
      by_cases hmem : w ∈ t.stackTop
      · exact .inr (failed_onStack hmem).1
      · rw [(failed_other hmem).status]
        exact hw.resolve_right hmem

/-- The evaluation has failed. -/
theorem Evaluates.badly (hs : Idle r s) (hp : s.promise m = none)
    (hcont : Continues (s.beginning m) t) (hbroken : Broken r [] t e) (hm : m ∈ t.stackTop) :
    Evaluates r m s (t.failed m e) m := by
  have hstart := beginning_same s m
  have hpending : t.promise m = some .pending :=
    (hcont.promise m).trans (promise_promised s m .pending)
  have hrejected : (t.failed m e).promise m = some (.rejected e) := promise_promised _ m _
  obtain ⟨hstatus, hexception, hroot⟩ := failed_onStack (m := m) (e := e) hm
  have hidle : ∀ w, (t.failed m e).status w ≠ .evaluating := by
    intro w hw
    by_cases hmem : w ∈ t.stackTop
    · rw [(failed_onStack hmem).1] at hw
      exact absurd hw (by decide)
    · rw [(failed_other hmem).status] at hw
      exact hmem ((hbroken.busy_iff w).mp hw)
  have hfresh : ∀ w, (s.status w).Fresh ∨ ((t.failed m e).status w).Fresh →
      (t.failed m e).status w = s.status w := by
    intro w hw
    have hmem : w ∉ t.stackTop := by
      intro hmem
      rw [(failed_onStack hmem).1] at hw
      rcases hw with hf | hf
      · rw [← (hstart w).status] at hf
        rw [← hcont.fresh w (.inl hf), (hbroken.busy_iff w).mpr hmem] at hf
        exact absurd hf (by simp [ModuleStatus.Fresh])
      · exact absurd hf (by simp [ModuleStatus.Fresh])
    rw [(failed_other hmem).status] at hw ⊢
    rw [← (hstart w).status] at hw ⊢
    exact hcont.fresh w hw
  have hsettled : ∀ w, (s.status w).Settled → SameModule s (t.failed m e) w := by
    intro w hw
    have hw' : ((s.beginning m).status w).Settled := by
      rw [(hstart w).status]
      exact hw
    have hmem : w ∉ t.stackTop := fun hmem => hbroken.unsettled hmem (hcont.settled hw')
    exact ((hstart w).trans (hcont.kept w (.inl hw')).1).trans (failed_other hmem)
  obtain ⟨hlinkable, hnot⟩ := hs.linkable_of_fresh hidle hfresh
  obtain ⟨hall, hkept⟩ := hs.promises_kept hp hsettled
    (fun w hw => (failed_promise hw).trans
      ((hcont.promise w).trans (promise_promised_of_ne s _ hw)))
    fun p' hp' => by
      obtain rfl := Option.some.inj (hrejected.symm.trans hp')
      exact ⟨.inr hstatus, hroot, hexception⟩
  exact ⟨⟨hbroken.books hpending, hlinkable, hnot, hall⟩, hcont.log, .inr hstatus, hroot,
    ⟨_, hrejected⟩, hkept, hsettled, hfresh⟩

/-- What the root's promise is worth for a module of its cycle. -/
theorem Evaluates.of_root (h : Evaluates r c s t c) (hm : (s.status m).Settled)
    (hroot : s.root m = some c) : Evaluates r m s t c where
  idle := h.idle
  log := h.log
  settled := by
    rw [(h.same m hm).status]
    exact hm
  root := (h.same m hm).root.trans hroot
  promise := h.promise
  kept := h.kept
  same := h.same
  fresh := h.fresh

theorem wp_evaluateRoot (hs : Idle r s) (hp : s.promise m = none)
    (hm : s.status m = .linked ∨
      (s.status m).Settled ∧ s.exception m = none ∧ s.root m = some m)
    (hready : ∀ v, Reach r m v → ModuleReady r s v) (n : Nat) :
    wp (evaluateRoot r (n + 1) m) s (fun _ t => Evaluates r m s t m) (fun _ _ => False) := by
  have hstart := beginning_same s m
  have hex : s.exception m = none := by
    rcases hm with hm | ⟨-, hex, -⟩
    · refine ((hs.accounted m).blank ?_ (hs.idle m)).exception
      rw [hm]
      simp [ModuleStatus.Settled]
    · exact hex
  have hsearch : Search r .evaluating ModuleStatus.Settled [] (s.beginning m) :=
    Search.start (s := s.promised m .pending) fun v => by
      rw [(promised_same s m _ v).status]
      exact hs.idle v
  rw [evaluateRoot, wp_bind, wp_setModule, wp_bind, wp_modify, wp_bind]
  refine wp_mono (evalSpec r (n + 1) [] m (s.beginning m) 0 hsearch (hs.beginning hp)
    (fun v hv => absurd hv List.not_mem_nil) (fun v hv => absurd hv List.not_mem_nil)
    fun v hv => ?_) ?_ fun _ _ h => h
  · have hv' := hready v hv
    unfold ModuleReady at hv' ⊢
    rwa [(hstart v).status]
  rintro res t ⟨hv, hroot⟩
  have hroot' := hroot (Nat.succ_pos n) ((hstart m).exception.trans hex)
  cases res with
  | error e =>
    have hbroken := hv.error e rfl
    have hmem : m ∈ t.stackTop := hroot'.resolve_right (by
      rintro ⟨⟨i, h⟩, -⟩
      exact absurd h (by simp))
    dsimp only
    rw [wp_bind, wp_get, wp_bind]
    refine wp_mono (wp_unwind (fail m e) t.stackTop t hbroken.nodup rfl
      fun v => (hbroken.busy_iff v).mpr) ?_ fun _ _ h => h
    rintro _ u rfl
    have hfail : (t.popped (fail m e) t.stackTop []).mods m = fail m e (t.mods m) := if_pos hmem
    have hstatus : ((t.popped (fail m e) t.stackTop []).mods m).status = .evaluated := by
      rw [hfail]
      rfl
    have hexception : ((t.popped (fail m e) t.stackTop []).mods m).evalException = some e := by
      rw [hfail]
      rfl
    rw [wp_bind, wp_getModule, wp_bind, wp_assert hstatus, hexception]
    exact .badly hs hp hv.continues hbroken hmem
  | ok i =>
    obtain ⟨hsearch', hsteady, -, hexm, new, hvisited, -⟩ := hv.ok i rfl
    have hstack : t.stackTop = [] := hvisited.empty rfl
    have hidle : ∀ v, t.status v ≠ .evaluating := fun v hv => by
      simpa [hstack] using (hsearch'.busy_iff v).mp hv
    have hsettled : (t.mods m).status = .evaluatingAsync ∨ (t.mods m).status = .evaluated :=
      hvisited.found.resolve_left (by simp [hstack])
    have hrootm : t.root m = some m := by
      rcases (hroot'.resolve_left (by simp [hstack])).2 with hst | hroot
      · have hst' : (s.status m).Settled := by rwa [← (hstart m).status]
        have hsame := (hstart m).trans (hv.continues.kept m (.inl hst)).1
        refine hsame.root.trans ?_
        rcases hm with hm | ⟨-, -, hroot⟩
        · rw [hm] at hst'
          exact absurd hst' (by simp [ModuleStatus.Settled])
        · exact hroot
      · exact hroot
    have hnone : (t.mods m).evalException.isNone = true := by
      rw [show (t.mods m).evalException = none from hexm]
      rfl
    have hwell {u : Evaluation E} {p : Settlement E} := Evaluates.well (u := u) (p := p) hs hp
      hv.continues hsteady hidle hsettled hrootm hexm
    dsimp only
    rw [wp_bind, wp_getModule, wp_bind, wp_assert hsettled, wp_bind, wp_assert hnone]
    by_cases ha : t.async m = true
    · rw [if_pos ha]
      show wp (do
        let s ← get
        assert (s.stackTop = [])) t _ _
      rw [wp_bind, wp_get, wp_assert hstack]
      exact hwell (p := .pending) rfl (fun v => sameModule_of_eq rfl) (fun _ _ => rfl)
        ((hv.continues.promise m).trans (promise_promised s m _)) ⟨hexm, ha⟩
    · have hstatus : (t.mods m).status = .evaluated :=
        hsettled.resolve_left fun hst => ha ((hsteady.accounted m).waiting hst)
      rw [if_neg ha, wp_bind, wp_assert hstatus]
      show wp (do
        let s ← get
        assert (s.stackTop = [])) (t.promised m .fulfilled) _ _
      rw [wp_bind, wp_get, wp_assert (show (t.promised m .fulfilled).stackTop = [] from hstack)]
      exact hwell (p := .fulfilled) rfl (promised_same t m _)
        (fun v hv => promise_promised_of_ne t _ hv) (promise_promised t m _)
        ⟨hexm, by simpa using ha⟩

/-- Evaluating a module that has been linked. -/
theorem wp_evaluateModule (hs : Idle r s) (hm : (s.status m).Linked)
    (hbound : ∀ v, Reach r m v → none ∉ r.reqModules v) (n : Nat) :
    wp (evaluateModule r (n + 1) m) s (fun c t => Evaluates r m s t c) (fun _ _ => False) := by
  have hstatus : (s.mods m).status = .linked ∨ (s.mods m).status = .evaluatingAsync ∨
      (s.mods m).status = .evaluated := hm
  have hready : ∀ {c}, Reach r m c → ∀ v, Reach r c v → ModuleReady r s v := by
    intro c hc v hv
    have hmv := hc.trans hv
    exact ⟨(ModuleStatus.linked_iff (hs.idle v)).mp (hs.toLinkable.reached hm hmv), hbound v hmv⟩
  have hdone : ∀ {c p}, (s.status m).Settled → s.root m = some c → s.promise c = some p →
      Evaluates r m s s c := fun hst hroot hp =>
    ⟨hs, ⟨[], (List.append_nil _).symm⟩, hst, hroot, ⟨_, hp⟩, fun _ _ h => h,
      fun _ _ => sameModule_of_eq rfl, fun _ _ => rfl⟩
  rw [evaluateModule, wp_bind, wp_getModule, wp_bind, wp_assert hstatus]
  dsimp only
  by_cases hsettled : (s.mods m).status = .evaluatingAsync ∨ (s.mods m).status = .evaluated
  · rw [if_pos hsettled, wp_bind]
    cases hex : s.exception m with
    | some e =>
      -- the promise says so already
      obtain ⟨-, -, c, hroot, hp⟩ := (hs.accounted m).failed e hex
      have hpc : (s.mods c).promise.isSome = true := by
        rw [show (s.mods c).promise = some (.rejected e) from hp]
        rfl
      rw [show (s.mods m).cycleRoot = some c from hroot, wp_follow, wp_bind, wp_getModule,
        if_pos hpc, wp_pure]
      exact hdone hsettled hroot hp
    | none =>
      obtain ⟨c, hfine, -⟩ := (hs.accounted m).fine hsettled hex
      rw [show (s.mods m).cycleRoot = some c from hfine.root, wp_follow, wp_bind, wp_getModule]
      cases hp : (s.mods c).promise with
      | some p =>
        rw [if_pos (by simp), wp_pure]
        exact hdone hsettled hfine.root hp
      | none =>
        rw [if_neg (by simp), wp_bind]
        refine wp_mono (wp_evaluateRoot hs hp
          (.inr ⟨hfine.rootSettled, hfine.rootDone.exception, hfine.rootRoot⟩)
          (hready hfine.there) n) ?_ fun _ _ h => h
        intro _ t ht
        exact ht.of_root hsettled hfine.root
  · rw [if_neg hsettled, wp_bind, wp_pure, wp_bind, wp_getModule]
    have hp : s.promise m = none := by
      cases hp : s.promise m with
      | none => rfl
      | some p => exact absurd (hs.promises m p hp).settled hsettled
    rw [show (s.mods m).promise = none from hp, if_neg (by simp), wp_bind]
    exact wp_mono (wp_evaluateRoot hs hp (.inl (hstatus.resolve_right hsettled)) (hready .refl) n)
      (fun _ _ h => h) fun _ _ h => h

/-- What `JS_EvalFunctionInternal` leaves behind. -/
structure Evaluated (r : Realm E) (m : DefId) (s t : Evaluation E) (res : Except E DefId) :
    Prop where
  idle : Idle r t
  log : ∃ rest, t.log = s.log ++ rest
  kept : ∀ v p, s.promise v = some p → t.promise v = some p
  linked : ∀ v, (t.status v).Linked → (s.status v).Linked ∨ Reach r m v
  refused : ∀ e, res = .error e → t.log = s.log
  tells : ∀ c, res = .ok c → ∃ p, t.promise c = some p ∧ Tells r t m p

/-- A module is linked and evaluated; no assertion fails. -/
theorem wp_evalFunction (hs : Idle r s) (hbound : ∀ v, Reach r m v → none ∉ r.reqModules v)
    (n k : Nat) :
    wp (evalFunction r n (k + 1) m) s (fun res t => Evaluated r m s t res) (fun _ _ => False) := by
  rw [evalFunction, wp_bind]
  refine wp_mono (wp_linkModule hs.toLinkable hs.notLinking hbound) ?_ fun _ _ h => h
  rintro res t ⟨hlinks, hlinkable, hnot, hok⟩
  have ht : Idle r t := hs.links hlinks hlinkable hnot
  have hpromise : ∀ v, t.promise v = s.promise v := fun v => by
    rw [promise, hlinks.rest v]
  have hlinked : ∀ v, (t.status v).Linked → (s.status v).Linked ∨ Reach r m v := by
    intro v hv
    by_cases hmv : Reach r m v
    · exact .inr hmv
    · rw [status, hlinks.outside v hmv] at hv
      exact .inl hv
  cases res with
  | some e =>
    exact ⟨ht, ⟨[], by rw [hlinks.log, List.append_nil]⟩, fun v p hp => (hpromise v).trans hp,
      hlinked, fun _ _ => hlinks.log, fun c h => absurd h (by simp)⟩
  | none =>
    dsimp only
    rw [wp_bind]
    refine wp_mono (wp_evaluateModule ht (hok rfl).1 hbound k) ?_ fun _ _ h => h
    intro c u hu
    obtain ⟨rest, hlog⟩ := hu.log
    obtain ⟨p, hp⟩ := hu.promise
    refine ⟨hu.idle, ⟨rest, by rw [hlog, hlinks.log]⟩,
      fun v p hp => hu.kept v p ((hpromise v).trans hp), fun v hv => hlinked v ?_,
      fun e h => absurd h (by simp), fun c' h => ?_⟩
    · refine (ModuleStatus.linked_iff (ht.idle v)).mpr fun hf => ?_
      rw [← hu.fresh v (.inl hf)] at hf
      exact (ModuleStatus.linked_iff (hu.idle.idle v)).mp hv hf
    obtain rfl := Except.ok.inj h
    exact ⟨p, hp, hu.idle.tells hu.settled hu.root hp⟩

end

end Evaluation

end Ejr
