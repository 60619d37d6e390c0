import Ejr.CApi.Effects

/-!
# Awaiting a promise

`ejr_await_promise` and `ejr_eval_module` answer from the promise as it is: no
job is run. What they store is compared with what becomes of the promise once
the queue of jobs has been run down (`Jobs.Drains`). The two agree exactly when
the promise has been fulfilled before the call, or is pending and ends up
fulfilled with `undefined` (`awaits_iff`); a rejection is never told apart from
a fulfilment.

Mirroring notes:
- What a job does to the runtime is a parameter; the one thing asked of it is
  that a settled promise stays as it is (`fulfill_or_reject_promise` returns at
  once on a promise that is not pending).
- A promise object keeps its state under its address.
-/

namespace Ejr

open Lib

variable {Cb J : Type}

/-! ## Jobs -/

/-- `JS_ExecutePendingJob`: what a job does, and the jobs it enqueues. Settled
promises stay settled. -/
structure Jobs (J Cb : Type) where
  exec : J → Handle Cb → Handle Cb × List J
  settled : ∀ (j : J) (s : Handle Cb) (p : Addr) (st : PromiseState),
    s.promises p = some st → st ≠ .pending → (exec j s).1.promises p = some st

/-- The queue is run down: the first job first, what it enqueues last. -/
inductive Jobs.Drains (jobs : Jobs J Cb) : List J → Handle Cb → Handle Cb → Prop where
  | nil (s : Handle Cb) : Drains jobs [] s s
  | cons {j : J} {js : List J} {s t : Handle Cb} :
      Drains jobs (js ++ (jobs.exec j s).2) (jobs.exec j s).1 t → Drains jobs (j :: js) s t

/-- No job settles a promise twice. -/
theorem Jobs.Drains.settled {jobs : Jobs J Cb} {queue : List J} {s t : Handle Cb}
    (h : jobs.Drains queue s t) {p : Addr} {st : PromiseState} (hp : s.promises p = some st)
    (hst : st ≠ .pending) : t.promises p = some st := by
  induction h with
  | nil s => exact hp
  | cons _ ih => exact ih (jobs.settled _ _ _ _ hp hst)

/-! ## The calls that await -/

/-- The call `l` from `s` awaits the promise at `p`, which it looks at in the
state `m`: the promise under a live id, or the one of an evaluated module. -/
inductive Awaits (s : Handle Cb) (p : Addr) : Call Cb → Handle Cb → Prop where
  | awaitPromise {id : Int32} {r : RefId} (hlive : s.jsvad.find? id = some ⟨.object p, r⟩) :
      Awaits s p (.awaitPromise id) s
  | evalModule {c : Completion Cb} {r : RefId} {m : Handle Cb}
      (heval : engine c s = .ok ⟨.object p, r⟩ m) : Awaits s p (.evalModule c) m

/-- What should be stored for a settled promise: its value when it is fulfilled,
an exception when it is rejected. -/
def PromiseState.comesTo : PromiseState → JSVal → Prop
  | .pending, _ => True
  | .fulfilled value _, v => v = value
  | .rejected _ _, v => v = .exception

/-- The call returns an id that holds what the promise comes to. -/
def Delivers (s : Handle Cb) (l : Call Cb) (final : PromiseState) : Prop :=
  ∃ i t, l.run s = .ok (.id i) t ∧ final.comesTo (t.jsvad.get i).val

/-- The promise was fulfilled before the call, or is pending and will be
fulfilled with `undefined`. -/
def Ready : PromiseState → PromiseState → Prop
  | .fulfilled _ _, _ => True
  | .pending, .fulfilled value _ => value = .undefined
  | _, _ => False

/-- What has just been stored is found. -/
theorem get_addValue (ad : JSValueAD) (v : JSValue) : (ad.addValue v).get ad.nextId = v := by
  rw [JSValueAD.get, JSValueAD.find?_addValue, if_pos rfl]
  rfl

/-- Storing what `await_promise` answers. -/
theorem wp_await (m : Handle Cb) (promise : JSValue) (thrown : Option JSVal) {st : PromiseState}
    {p : Addr} (hval : promise.val = .object p) (hp : m.promises p = some st)
    (before : EngineM Unit) (hbefore : ∀ s, wp before s (fun _ _ => True) fun _ _ => False) :
    wp (do
      let promiseResult ← EasyJSR.awaitPromise promise
      onRt before
      addValue promiseResult thrown) m
      (fun i t => (t.jsvad.get i).val = st.result) (fun _ _ => False) := by
  have hresult : EasyJSR.promiseResult m promise.val = st.result := by
    rw [hval]
    show ((m.promises p).map PromiseState.result).getD .undefined = _
    rw [hp]
    rfl
  rw [wp_bind, EasyJSR.awaitPromise, wp_bind, wp_get, wp_onRt, wp_own, wp_bind, wp_onRt]
  refine wp_mono (hbefore _) ?_ (fun _ _ h => h)
  intro _ t _
  show ((JSValueAD.addValue m.jsvad _).get m.jsvad.nextId).val = _
  rw [get_addValue]
  exact hresult

/-- **What awaiting stores**: the result the promise has at the time. -/
theorem Awaits.stores {s m : Handle Cb} {p : Addr} {l : Call Cb} (h : Awaits s p l m)
    {st : PromiseState} (hp : m.promises p = some st) :
    ∃ i t, l.run s = .ok (.id i) t ∧ (t.jsvad.get i).val = st.result := by
  have hend : ∀ {q : ApiM Cb Int32}, wp q s (fun i t => (t.jsvad.get i).val = st.result)
      (fun _ _ => False) → ∃ i t, (Answer.id <$> q : ApiM Cb Answer) s = .ok (.id i) t ∧
        (t.jsvad.get i).val = st.result := by
    intro q hq
    have hmap : wp (Answer.id <$> q : ApiM Cb Answer) s
        (fun a t => ∃ i, a = .id i ∧ (t.jsvad.get i).val = st.result) (fun _ _ => False) := by
      rw [wp_map]
      exact wp_mono hq (fun i t h => ⟨i, rfl, h⟩) (fun _ _ h => h)
    obtain ⟨a, t, hrun, i, rfl, hval⟩ := exists_ok_of_wp hmap
    exact ⟨i, t, hrun, hval⟩
  cases h with
  | @awaitPromise id r hlive =>
    apply hend
    have hget : (s.jsvad.get id).val = .object p := by
      rw [JSValueAD.get, hlive]
      rfl
    rw [ejrAwaitPromise, wp_bind, wp_get]
    exact wp_await s _ none hget hp (pure ()) fun _ => trivial
  | evalModule heval =>
    apply hend
    rw [ejrEvalModule, wp_bind, EasyJSR.eval, wp_iff_of_ok heval]
    exact wp_await m _ none rfl hp _ fun t => EasyJSR.wp_freeJsval.mpr trivial

/-- **A promise is delivered exactly when it is ready**: for every queue of jobs
that runs down, whatever the jobs do. -/
theorem awaits_iff (jobs : Jobs J Cb) {s m t : Handle Cb} {p : Addr} {l : Call Cb}
    {queue : List J} {st final : PromiseState} (hawaits : Awaits s p l m)
    (hp : m.promises p = some st) (hdrain : jobs.Drains queue m t)
    (hfinal : t.promises p = some final) (hsettled : final ≠ .pending) :
    Delivers s l final ↔ Ready st final := by
  obtain ⟨i, u, hrun, hval⟩ := hawaits.stores hp
  have hdelivers : Delivers s l final ↔ final.comesTo st.result := by
    rw [← hval]
    constructor
    · intro ⟨i', u', hrun', h⟩
      injection hrun.symm.trans hrun' with ha hu
      injection ha with hi
      rw [hi, hu]
      exact h
    · exact fun h => ⟨i, u, hrun, h⟩
  rw [hdelivers]
  cases st with
  | fulfilled value hvalue =>
    -- settled once and for all
    have hsame := hdrain.settled hp (fun h => nomatch h)
    cases hfinal.symm.trans hsame
    exact ⟨fun _ => trivial, fun _ => rfl⟩
  | rejected reason hreason =>
    have hsame := hdrain.settled hp (fun h => nomatch h)
    cases hfinal.symm.trans hsame
    exact ⟨fun h => absurd h hreason, fun h => h.elim⟩
  | pending =>
    -- the call has returned `undefined` before a job has run
    cases final with
    | pending => exact absurd rfl hsettled
    | fulfilled value hvalue => exact ⟨Eq.symm, Eq.symm⟩
    | rejected reason hreason => exact ⟨(fun h => nomatch h), fun h => h.elim⟩

/-! ## One reaction -/

/-- Fulfilled with a number. -/
def withInt (i : Int32) : PromiseState := .fulfilled (.int i) (by simp)

/-- Reactions, each of which fulfils a pending promise with a number. -/
def reactions : Jobs (Addr × Int32) Unit where
  exec j s :=
    match s.promises j.1 with
    | some .pending =>
      ({ s with promises := Function.update s.promises j.1 (some (withInt j.2)) }, [])
    | _ => (s, [])
  settled j s p st hp hst := by
    split
    next hpending =>
      have hne : p ≠ j.1 := fun he => by
        rw [he, hpending] at hp
        exact hst (Option.some.inj hp).symm
      rw [← hp]
      exact Function.update_of_ne hne _ _
    next => exact hp

/-- An async function has been called: its promise, at address 20, is under id 0. -/
def asyncCalled (st : PromiseState) : Handle Unit :=
  { Handle.new 0 .initial 0 with
    jsvad := JSValueAD.new.addValue ⟨.object 20, 0⟩
    promises := fun _ => some st }

theorem awaits_asyncCalled (st : PromiseState) :
    Awaits (asyncCalled st) 20 (.awaitPromise 0) (asyncCalled st) :=
  .awaitPromise (r := 0) rfl

/-- The promise at 20 is fulfilled with 1, all others are pending. -/
def oneFulfilled : Handle Unit :=
  { asyncCalled .pending with
    promises := Function.update (fun _ => some .pending) 20 (some (withInt 1)) }

/-- Awaited when it is already fulfilled, a promise delivers, whatever is still to be done: a
second reaction on it, and one on a promise that is pending. -/
theorem awaits_iff_fulfilled : ∃ t, reactions.Drains [(20, 2), (21, 5)] oneFulfilled t ∧
    t.promises 21 = some (withInt 5) ∧ Delivers oneFulfilled (.awaitPromise 0) (withInt 1) := by
  have hdrain : reactions.Drains [(20, 2), (21, 5)] oneFulfilled
      { oneFulfilled with promises := Function.update oneFulfilled.promises 21 (some (withInt 5)) } :=
    .cons (.cons (.nil _))
  refine ⟨_, hdrain, rfl, ?_⟩
  have hawaits : Awaits oneFulfilled 20 (.awaitPromise 0) oneFulfilled := .awaitPromise (r := 0) rfl
  have hfulfilled : oneFulfilled.promises 20 = some (withInt 1) := rfl
  exact (awaits_iff reactions hawaits hfulfilled hdrain rfl (by simp [withInt])).mpr trivial

/-- One queued reaction away from being fulfilled with 1, the promise is read as
`undefined`. -/
theorem awaits_fails : ∃ t, reactions.Drains [(20, 1)] (asyncCalled .pending) t ∧
    t.promises 20 = some (withInt 1) ∧
    ¬ Delivers (asyncCalled .pending) (.awaitPromise 0) (withInt 1) := by
  refine ⟨(reactions.exec (20, 1) (asyncCalled .pending)).1, .cons (.nil _), rfl, ?_⟩
  intro ⟨i, t, hrun, hval⟩
  obtain ⟨i', t', hrun', hval'⟩ := (awaits_asyncCalled .pending).stores rfl
  injection hrun.symm.trans hrun' with ha ht
  injection ha with hi
  rw [hi, ht] at hval
  cases hval'.symm.trans hval

end Ejr
