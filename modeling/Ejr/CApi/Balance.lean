import Ejr.CApi.Arguments
import Ejr.CApi.Errors
import Ejr.Lib.Interludes

/-!
# A function call leaves nothing behind

`eval_class_function` looks a function up, converts the arguments and calls it;
`eval_function` does so on the global object. Between their own steps the engine
runs script code, which may come back to the bridge: that is an interlude, and
what it logs is not theirs. Their own events release or hand over every
reference they take, once, and leave the caller with the result and nothing else
(`functionCall_balanced`), whatever the lookup and the call come to.

An exception carries no reference, so `free_jsval` may leave one alone, and a
function that is not there or cannot be called is released like any other.
-/

namespace Ejr

open Lib EasyJSR

variable {Cb : Type}

/-- A program around the work `works` of the engine; its own references and C
strings are accounted for. -/
abbrev Repays {α : Type} (works : List (List (Work Cb))) (o : List Name) (h : α → List Name)
    (p : ApiM Cb α) : Prop :=
  Spends (eventRoles Event.NoRead) Name.rank apiLog runWork works o h p

theorem repays_onRt {α : Type} {o : List Name} {h : α → List Name} {p : EngineM α}
    (hp : Takes cleanRefs AnyHeap o h p) (hends : Finishes p) :
    Repays [] o h (onRt p : ApiM Cb α) :=
  spends_of_owes (charges_of_takes (fun _ _ h => h) hp) (finishes_onRt hends)

theorem finishes_answer {α : Type} (r : Outcome α) : Finishes (answer r) := by
  cases r with
  | value => exact finishes_pure _
  | throws => exact fun _ => trivial
  | exception => exact finishes_pure _

/-- What the engine does meanwhile is an interlude. -/
theorem repays_runWork (work : List (Work Cb)) (o : List Name) :
    Repays [work] o (fun _ => o) (runWork work) := by
  refine spends_interlude fun s => ?_
  refine wp_mono (ages_of_charges (charges_runWork books_loose work) s trivial) ?_ ?_
  · exact fun _ _ ht => ht.1
  · exact fun _ _ _ => trivial

theorem repays_engine (c : Completion Cb) : Repays [c.work] [] JSValue.owned (engine c) := by
  refine spends_bind (repays_runWork c.work []) fun _ => ?_
  refine spends_bind_quiet (repays_onRt (takes_answer bookkeeping_clean c.result [])
    (finishes_answer _)) fun r => ?_
  exact repays_onRt (takes_own bookkeeping_clean _) fun _ => trivial

theorem repays_freeJsval (v : JSValue) :
    Repays [] v.owned (fun _ => []) (onRt (freeJsval v) : ApiM Cb Unit) :=
  repays_onRt (takes_freeJsval bookkeeping_clean v) (finishes_freeJsval v)

theorem repays_evalClassFunction (args : List JSArg) (getFunction call : Completion Cb) :
    Repays [getFunction.work, call.work] [] JSValue.owned
      (evalClassFunction args getFunction call) := by
  have hargs := takes_toJsArgs bookkeeping_clean (handsOver_exact fun _ => trivial) args
  refine spends_bind (repays_engine getFunction) fun function => ?_
  refine spends_new_quiet (repays_onRt hargs (finishes_toJsArgs args)) fun jsArgs => ?_
  refine spends_new (repays_engine call) fun result => ?_
  refine spends_drop (repays_freeJsval function)
    (x := jsArgs.flatMap JSValue.owned ++ result.owned) ?_ fun _ => ?_
  · rw [← List.append_assoc]
    exact List.perm_append_comm.trans (List.perm_append_comm.append_left _)
  refine spends_drop (repays_onRt (takes_freeJsvals bookkeeping_clean jsArgs)
    (finishes_freeJsvals jsArgs)) (.refl _) fun _ => ?_
  exact spends_pure (.refl _)

theorem repays_evalFunction (args : List JSArg) (getFunction call : Completion Cb) :
    Repays [getFunction.work, call.work] [] JSValue.owned (evalFunction args getFunction call) := by
  refine spends_bind_quiet (spends_of_owes (account_exact _ _).owes_get fun _ => trivial)
    fun s => ?_
  refine spends_bind_quiet (repays_onRt (takes_own bookkeeping_clean _) fun _ => trivial)
    fun global => ?_
  refine spends_new (repays_evalClassFunction args getFunction call) fun result => ?_
  refine spends_drop (repays_freeJsval global) List.perm_append_comm fun _ => ?_
  exact spends_pure (.refl _)

/-! ## The value returned -/

/-- What a call of the engine returns. -/
def Completion.answer (c : Completion Cb) : JSVal := c.result.get?.getD .exception

/-- The program returns `v`, if it returns. -/
def ReturnsVal (v : JSVal) (p : ApiM Cb JSValue) : Prop :=
  ∀ s, wp p s (fun result _ => result.val = v) fun _ _ => True

theorem returnsVal_bind {α : Type} {v : JSVal} {p : ApiM Cb α} {f : α → ApiM Cb JSValue}
    (hf : ∀ a, ReturnsVal v (f a)) : ReturnsVal v (p >>= f) := by
  intro s
  rw [wp_bind]
  exact wp_mono wp_true (fun a t _ => hf a t) fun _ _ h => h

/-- What comes after leaves the value alone. -/
theorem returnsVal_then {α : Type} {v : JSVal} {p : ApiM Cb JSValue} {f : JSValue → ApiM Cb α}
    (hp : ReturnsVal v p) :
    ReturnsVal v (do let result ← p; let _ ← f result; pure result) := by
  intro s
  rw [wp_bind]
  refine wp_mono (hp s) ?_ fun _ _ h => h
  intro result t hresult
  rw [wp_bind]
  exact wp_mono wp_true (fun _ _ _ => hresult) fun _ _ h => h

theorem returnsVal_engine (c : Completion Cb) : ReturnsVal c.answer (engine c) := by
  refine returnsVal_bind fun _ => ?_
  intro s
  rw [Completion.answer, wp_bind, wp_onRt]
  cases c.result with
  | value => rfl
  | throws => rfl
  | exception => rfl

theorem returnsVal_evalClassFunction (args : List JSArg) (getFunction call : Completion Cb) :
    ReturnsVal call.answer (evalClassFunction args getFunction call) := by
  refine returnsVal_bind fun function => returnsVal_bind fun jsArgs => ?_
  have hcall := returnsVal_then (f := fun _ => do
    onRt (freeJsval function)
    onRt (freeJsvals jsArgs)) (returnsVal_engine call)
  simpa only [bind_assoc] using hcall

theorem returnsVal_evalFunction (args : List JSArg) (getFunction call : Completion Cb) :
    ReturnsVal call.answer (evalFunction args getFunction call) :=
  returnsVal_bind fun _ => returnsVal_bind fun _ =>
    returnsVal_then (returnsVal_evalClassFunction args getFunction call)

/-! ## Balanced -/

/-- From `s`, a call of a function has returned `result` in `t`. Its own events
put away what they take, once, and no other reference or C string; `result` is
what is left. -/
structure CallBalanced (getFunction call : Completion Cb) (s : Handle Cb) (result : JSValue)
    (t : Handle Cb) (own : List Event) : Prop where
  interleaved : Interleaved apiLog runWork [getFunction.work, call.work] s own t
  account : cleanRefs s.rt.fresh t.rt.fresh [] result.owned own
  answer : result.val = call.answer
  elders : ∀ classObj : JSValue, classObj.ref < s.rt.fresh →
    .free classObj.ref ∉ own ∧ .give classObj.ref ∉ own

/-- What an account from nothing puts away is not older than itself. -/
theorem not_put_of_elder {lo hi : Nat} {h : List Name} {own : List Event}
    (hA : cleanRefs lo hi [] h own) {r : RefId} (hr : r < lo) {e : Event}
    (hput : e.puts = some (.ref r)) : e ∉ own := fun he =>
  absurd (hA.elder (n := .ref r) hr (List.mem_filterMap.mpr ⟨e, he, hput⟩)) List.not_mem_nil

/-- From every state the program ends so; where it does not return, the engine's
work has not. -/
def BalancesOut (getFunction call : Completion Cb) (p : ApiM Cb JSValue) : Prop :=
  ∀ s, wp p s (fun result t => ∃ own, CallBalanced getFunction call s result t own)
    (fun e t => ∃ work ∈ [getFunction.work, call.work], ∃ u, runWork work u = .error e t)

theorem balancesOut_of_repays {getFunction call : Completion Cb} {p : ApiM Cb JSValue}
    (hp : Repays [getFunction.work, call.work] [] JSValue.owned p)
    (hreturns : ReturnsVal call.answer p) : BalancesOut getFunction call p := by
  intro s
  refine wp_mono (wp_and (hp s (Held.nil _ _)) (hreturns s)) ?_ fun _ _ h => h.1
  intro result t ht
  obtain ⟨⟨own, hown, hA⟩, hanswer⟩ := ht
  refine ⟨own, hown, hA, hanswer, fun classObj hlt => ?_⟩
  exact ⟨not_put_of_elder hA hlt rfl, not_put_of_elder hA hlt rfl⟩

/-- **A function call is reference-balanced.** -/
theorem functionCall_balanced (args : List JSArg) (getFunction call : Completion Cb) :
    BalancesOut getFunction call (evalClassFunction args getFunction call) ∧
      BalancesOut getFunction call (evalFunction args getFunction call) :=
  ⟨balancesOut_of_repays (repays_evalClassFunction _ _ _) (returnsVal_evalClassFunction _ _ _),
    balancesOut_of_repays (repays_evalFunction _ _ _) (returnsVal_evalFunction _ _ _)⟩

end Ejr
