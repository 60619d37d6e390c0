import Ejr.CApi.Invoke
import Ejr.Lib.Simulation

/-!
# C callbacks as functions

The trampoline of `Ejr.Trampoline` calls functions from arguments to an argument; what is
registered are C functions, which work on blocks of the C heap. For callbacks that
compute, the two are the same: a script on the engine and the C heap does on the
handle what it does there with the functions in place of the callbacks
(`runScript_refines`), and a callback in a run of the handle stands for the call of
the C function (`callFromScript_follows`). Which functions these are depends on the
callbacks only and is settled before the script runs. The values, the objects, the
references and the trace are the same, for any depth and any arguments.

What stops a run on the C side (an empty array on its way to C, blocks that are nested too
deep) has no counterpart on the handle, and nothing is said about such a run.
-/

namespace Ejr

open Lib

/-- What a machine does on its handle only. -/
theorem follows_onHandle {α : Type} {s : Machine CCallback} (p : ApiM CCallback α) :
    Follows Machine.handle MStop.engine (onHandle p) p s := by
  unfold Follows
  rw [wp_onHandle]
  exact wp_mono (wp_self p s.handle) (fun _ _ h => h) fun e _ h d hd => MStop.engine.inj hd ▸ h

/-! ## One call -/

/-- For every callback there is, `answers` is what is left of the function it computes. -/
def PureBy (answers : CCallback → DynCallback) (s : Handle CCallback) : Prop :=
  ∀ name cb, s.registry.callbacks name = some cb →
    ∃ g, Computes cb g ∧ ∀ args, answers cb args = (g args).truncated

/-- The trampoline of `f` on the handle alone, where `answers` stands for the callbacks. -/
def invokeOn (depth : Nat) (answers : CCallback → DynCallback) (f : FnObject)
    (argv : List JSValue) : ApiM CCallback JSValue := do
  let s ← get
  onRt (trampoline depth (fun name => (s.registry.callbacks name).map answers)
    (borrowed (.string f.funcData1)) argv)

/-- The arguments of a callback are settled. -/
theorem trampolineArgs_settled {depth : Nat} : ∀ (argv : List JSValue) (s : Rt),
    wp (trampolineArgs depth argv) s (fun args _ => ∀ a ∈ args, a.Settled) (fun _ _ => True)
  | [], _ => fun _ ha => absurd ha List.not_mem_nil
  | v :: argv, s => by
    simp only [trampolineArgs, wp_bind, wp_pure]
    refine wp_mono (received_fromJs depth v false s) ?_ (fun _ _ _ => trivial)
    intro a t ha
    refine wp_mono (trampolineArgs_settled argv t) ?_ (fun _ _ _ => trivial)
    intro args u hargs
    exact List.forall_mem_cons.mpr ⟨ha.settled, hargs⟩

section

variable {depth : Nat} {f : FnObject} {argv : List JSValue} {s : Machine CCallback}
  {answers : CCallback → DynCallback}

/-- The trampoline of a function whose callback is not there. -/
theorem wp_trampoline_none {callbacks : Bytes → Option DynCallback} {r : RefId} {rt : Rt}
    (hcb : callbacks f.cbName = none) {Q : JSValue → Rt → Prop} {X : Stop → Rt → Prop} :
    wp (trampoline depth callbacks ⟨.string f.funcData1, r⟩ argv) rt Q X ↔
      wp (trampolineArgs depth argv) rt
        (fun _ rt' => wp (own .undefined) (afterName f rt') Q X) X := by
  have hcb' : callbacks (cstr (toCStringLen f.funcData1)) = none := hcb
  simp only [trampoline, wp_bind, wp_jsToCString, Heap.text_string, Outcome.get?_value,
    Option.map_some, wp_stdString_some, wp_jsFreeCString, hcb', Rt.raise_value, Option.toList_some,
    List.map_cons, List.map_nil]
  exact Iff.rfl

/-- One call: the arguments are the same, and so is what the wrapper returns. -/
theorem invoke_follows (hpure : PureBy answers s.handle) :
    Follows Machine.handle MStop.engine (invoke depth f argv) (invokeOn depth answers f argv)
      s := by
  have hself := wp_self (invokeOn depth answers f argv) s.handle
  rw [invokeOn, wp_bind, wp_get, wp_onRt, ← invokeOn] at hself
  unfold Follows
  cases hcb : s.handle.registry.callbacks f.cbName with
  | none =>
    rw [wp_invoke_none hcb]
    refine wp_mono ((wp_trampoline_none (by rw [hcb]; rfl)).mp hself) ?_ ?_
    · intro _ rt hrt
      exact wp_mono hrt (fun _ _ h => h) fun e _ h d hd => MStop.engine.inj hd ▸ h
    · exact fun e _ h d hd => MStop.engine.inj hd ▸ h
  | some cb =>
    obtain ⟨g, hg, hanswers⟩ := hpure _ cb hcb
    have hsame : (s.handle.registry.callbacks f.cbName).map answers = some (answers cb) := by
      rw [hcb]
      rfl
    rw [wp_invoke hcb]
    refine wp_mono (wp_and ((wp_trampoline hsame).mp hself)
      (trampolineArgs_settled argv s.handle.rt)) ?_ ?_
    · intro cppArgs rt hrt
      obtain ⟨hrt, hsettled⟩ := hrt
      refine wp_mono (wrapper_answers hg hsettled depth s.heap) ?_
        (fun _ _ _ _ hd => absurd hd (by simp))
      intro result heap hresult
      rw [hresult, ← hanswers cppArgs]
      exact wp_mono hrt (fun _ _ h => h) fun e _ h d hd => MStop.engine.inj hd ▸ h
    · exact fun e _ h d hd => MStop.engine.inj hd ▸ h.1

/-- A call leaves what is registered alone. -/
theorem invokeOn_registry {v : JSValue} {s t : Handle CCallback}
    (h : invokeOn depth answers f argv s = .ok v t) : t.registry = s.registry := by
  have hkeeps : wp (invokeOn depth answers f argv) s (fun _ t => t.registry = s.registry)
      (fun _ _ => True) := by
    rw [invokeOn, wp_bind, wp_get, wp_onRt]
    exact wp_mono wp_true (fun _ _ _ => rfl) fun _ _ _ => trivial
  exact (wp_iff_of_ok h).mp hkeeps

end

/-- The script calls the function `fn`, whose result goes to the engine. -/
def callFromScript (depth : Nat) (fn : FnId) (argv : List JSVal) : MachineM CCallback Unit := do
  let s ← get
  match s.handle.registry.functions[fn]? with
  | some f => do
    let result ← invoke depth f (argv.map borrowed)
    inEngine (give result)
  | none => pure ()

/-- **A callback in a run of the handle** (`Work.callback`) stands for the call of a C
callback that computes. -/
theorem callFromScript_follows {answers : CCallback → DynCallback} {s : Machine CCallback}
    (hpure : PureBy answers s.handle) (depth : Nat) (fn : FnId) (argv : List JSVal) :
    Follows Machine.handle MStop.engine (callFromScript depth fn argv)
      (callFunction depth fn argv answers) s := by
  unfold callFromScript callFunction
  refine follows_get ?_
  cases s.handle.registry.functions[fn]? with
  | none => exact follows_pure ()
  | some f =>
    have hcall : Follows Machine.handle MStop.engine (invoke depth f (argv.map borrowed))
        (invokeOn depth answers f (argv.map borrowed)) s := invoke_follows hpure
    refine Follows.bind hcall ?_
    intro result t _
    exact follows_onHandle (onRt (give result))

/-! ## Scripts -/

/-- `runScript` on the handle alone. -/
def runScriptOn (depth : Nat) (answers : CCallback → DynCallback) :
    List ScriptStep → List JSValue → ApiM CCallback (List JSValue)
  | [], vals => pure vals
  | .work effect _ :: steps, vals => do
    modify fun s => { s with rt := { s.rt with heap := effect s.rt.heap } }
    runScriptOn depth answers steps vals
  | .call fn argv :: steps, vals => do
    let s ← get
    match s.registry.functions[fn]? with
    | none => pure vals
    | some f => do
      let v ← invokeOn depth answers f (argv.map (scriptValue vals))
      runScriptOn depth answers steps (vals ++ [v])

/-- **A script over C callbacks that compute refines the script over the functions
they compute.** -/
theorem runScript_refines {answers : CCallback → DynCallback} (depth : Nat) :
    ∀ (steps : List ScriptStep) (vals : List JSValue) (s : Machine CCallback),
    PureBy answers s.handle →
    Follows Machine.handle MStop.engine (runScript depth steps vals)
      (runScriptOn depth answers steps vals) s
  | [], vals, s, _ => follows_pure vals
  | .work effect _ :: steps, vals, s, hpure => by
    rw [runScript, runScriptOn]
    refine Follows.bind (follows_modify rfl) ?_
    intro _ t ht
    obtain rfl : s.withRt { s.handle.rt with heap := effect s.handle.rt.heap } = t := by
      injection ht
    exact runScript_refines depth steps vals _ hpure
  | .call fn argv :: steps, vals, s, hpure => by
    rw [runScript, runScriptOn]
    refine follows_get ?_
    cases s.handle.registry.functions[fn]? with
    | none => exact follows_pure vals
    | some f =>
      have hcall : Follows Machine.handle MStop.engine
          (invoke depth f (argv.map (scriptValue vals)))
          (invokeOn depth answers f (argv.map (scriptValue vals))) s := invoke_follows hpure
      refine Follows.bind hcall ?_
      intro v t hrun
      -- the callbacks are still the same ones
      have hregistry := invokeOn_registry (hcall.ok hrun)
      refine runScript_refines depth steps (vals ++ [v]) t ?_
      unfold PureBy
      rw [hregistry]
      exact hpure

/-- `let x = f(); let y = f(x)`, where `f` answers an array of 7 and a typed array. -/
theorem runScript_refines_pair : ∃ (s t : Machine CCallback) (x y : JSValue),
    runScript 10 [.call 0 [], .call 0 [0]] [] s = .ok [x, y] t ∧
      runScriptOn 10 (fun _ _ => .array [.int 7, .typedArray ⟨.int8, [3]⟩])
        [.call 0 [], .call 0 [0]] [] s.handle = .ok [x, y] t.handle := by
  let a : JSArg := .array [.int 7, .typedArray ⟨.int8, [3]⟩]
  have hfull : a.NoEmptyArray := ⟨by simp, trivial, trivial, trivial⟩
  have hfits : a.truncated.Fits := ⟨by decide, trivial, fits_byte, trivial⟩
  have hcomputes : Computes (fun _ => ejrToJsarg a) fun _ => a :=
    computes_ejrToJsarg hfull ⟨trivial, trivial, trivial, trivial⟩
  obtain ⟨s, f, hf, hserves, hp, hpure⟩ : ∃ (s : Machine CCallback) (f : FnObject),
      s.handle.registry.functions[0]? = some f ∧ (Serves s fun _ _ => a) ∧
      Pristine s.handle.rt.heap ∧ PureBy (fun _ _ => a) s.handle := by
    refine ⟨_, ⟨newString (ascii "f"), .global (ascii "f")⟩, rfl,
      serves_serving (stable_of_ascii (by decide +kernel)) hcomputes, pristine_serving _ _, ?_⟩
    intro name cb hcb
    have hname : (Function.update (fun _ => none) (ascii "f") (some fun _ => ejrToJsarg a) :
        Bytes → Option CCallback) name = some cb := hcb
    by_cases heq : name = ascii "f"
    · rw [heq, Function.update_self] at hname
      obtain rfl := Option.some.inj hname
      exact ⟨_, hcomputes, fun _ => rfl⟩
    · rw [Function.update_of_ne heq] at hname
      exact absurd hname (by simp)
  obtain ⟨cb, hcb, hg⟩ := hserves 0 f hf
  obtain ⟨x, t, hfirst, hgrows, hx, -⟩ := exists_ok_of_wp (invoke_computes hcb hg hp .nil
    (fun _ ha => absurd ha List.not_mem_nil) hfits (show 5 ≤ 10 by decide))
  rw [← hgrows.registry] at hcb
  obtain ⟨y, u, hsecond, -⟩ := exists_ok_of_wp (invoke_computes hcb hg (hp.grows hgrows.objects)
    (.cons hx .nil) (List.forall_mem_singleton.mpr hfull) hfits (show 10 ≤ 10 by decide))
  have hrun : runScript 10 [.call 0 [], .call 0 [0]] [] s = .ok [x, y] u := by
    rw [runScript, get_bind_eq, hf]
    refine (bind_of_ok hfirst).trans ?_
    rw [List.nil_append, runScript, get_bind_eq, hgrows.registry, hf]
    exact bind_of_ok hsecond
  exact ⟨s, u, x, y, hrun,
    (runScript_refines 10 [.call 0 [], .call 0 [0]] [] s hpure).ok hrun⟩

end Ejr
