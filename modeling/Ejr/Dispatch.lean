import Ejr.Registry
import Ejr.Trampoline
import Ejr.Lib.Run

/-!
# Which callback a function runs

All functions look their callback up in one map, under a name made from what
they were registered for. In a run in which every registration is `Clean`, its
name comes back from the engine and is not the name of another target
registered before, every function made so far runs a callback registered for
its own target (`dispatches_of_along`). The invariant carries that the name
kept in a function is its target's.
-/

namespace Ejr

open Lib

namespace Registry

variable {Cb : Type}

/-- The function runs a callback that was registered for its target. -/
def RunsOwn (s : Registry Cb) (f : FnObject) : Prop :=
  ∃ cb, s.callbacks f.cbName = some cb ∧ (f.target, cb) ∈ s.registered

/-- Every function made so far runs a callback that was registered for its
target. -/
def Dispatches (s : Registry Cb) : Prop := ∀ f ∈ s.functions, s.RunsOwn f

/-- The target's name survives the engine, and is no other target's name so
far. -/
def Clean (s : Registry Cb) (t : Target) : Prop :=
  Stable t.cbName ∧ ∀ r ∈ s.registered, r.1.cbName = t.cbName → r.1 = t

/-- What is registered in the step is clean. -/
def CleanOp (s : Registry Cb) : Op Cb → Prop
  | .registerCallback fnName _ => s.Clean (.global fnName)
  | .registerModule moduleName methods => ∀ e ∈ methods, s.Clean (.method moduleName e.1)
  | _ => True

/-- Functions and registrations belong together: every function keeps its
target's name, which the engine gives back, and runs a callback of its target. -/
structure Named (s : Registry Cb) : Prop where
  data : ∀ f ∈ s.functions, f.funcData1 = newString f.target.cbName
  stable : ∀ f ∈ s.functions, Stable f.target.cbName
  made : ∀ r ∈ s.registered, ∃ f ∈ s.functions, f.target = r.1
  known : ∀ k cb, s.callbacks k = some cb → ∃ t, (t, cb) ∈ s.registered
  runs : s.Dispatches

theorem Named.name {s : Registry Cb} (hs : s.Named) {f : FnObject} (hf : f ∈ s.functions) :
    f.cbName = f.target.cbName := by
  rw [FnObject.cbName, hs.data f hf]
  exact hs.stable f hf

theorem cbName_method_inj {moduleName a b : Bytes}
    (h : (Target.method moduleName a).cbName = (Target.method moduleName b).cbName) : a = b :=
  List.append_cancel_left h

section

variable {s : Registry Cb} {t : Target} {cb : Cb}

theorem mem_functions_createTrampoline {f : FnObject} :
    f ∈ (s.createTrampoline t cb).functions ↔ f ∈ s.functions ∨ f = ⟨newString t.cbName, t⟩ := by
  simp [Registry.createTrampoline]

theorem mem_registered_createTrampoline {r : Target × Cb} :
    r ∈ (s.createTrampoline t cb).registered ↔ r ∈ s.registered ∨ r = (t, cb) := by
  simp [Registry.createTrampoline]

theorem callbacks_createTrampoline_self : (s.createTrampoline t cb).callbacks t.cbName = some cb :=
  Function.update_self ..

theorem callbacks_createTrampoline_of_ne {k : Bytes} (h : k ≠ t.cbName) :
    (s.createTrampoline t cb).callbacks k = s.callbacks k :=
  Function.update_of_ne h ..

/-- One registration. -/
theorem Named.createTrampoline (hs : s.Named) (ht : s.Clean t) (cb : Cb) :
    (s.createTrampoline t cb).Named := by
  obtain ⟨hstable, hother⟩ := ht
  have hreg : (t, cb) ∈ (s.createTrampoline t cb).registered :=
    mem_registered_createTrampoline.mpr (Or.inr rfl)
  constructor
  · intro f hf
    rcases mem_functions_createTrampoline.mp hf with hf | rfl
    · exact hs.data f hf
    · rfl
  · intro f hf
    rcases mem_functions_createTrampoline.mp hf with hf | rfl
    · exact hs.stable f hf
    · exact hstable
  · intro r hr
    rcases mem_registered_createTrampoline.mp hr with hr | rfl
    · obtain ⟨f, hf, htarget⟩ := hs.made r hr
      exact ⟨f, mem_functions_createTrampoline.mpr (Or.inl hf), htarget⟩
    · exact ⟨_, mem_functions_createTrampoline.mpr (Or.inr rfl), rfl⟩
  · intro k cb' hk
    -- only the new entry has changed
    by_cases hkey : k = t.cbName
    · rw [hkey, callbacks_createTrampoline_self] at hk
      exact ⟨t, Option.some.inj hk ▸ hreg⟩
    · rw [callbacks_createTrampoline_of_ne hkey] at hk
      obtain ⟨t', ht'⟩ := hs.known k cb' hk
      exact ⟨t', mem_registered_createTrampoline.mpr (Or.inl ht')⟩
  · intro f hf
    rcases mem_functions_createTrampoline.mp hf with hf | rfl
    · obtain ⟨cb', hcb', hreg'⟩ := hs.runs f hf
      by_cases hkey : f.cbName = t.cbName
      · -- the name is taken over by the function's own target
        have htarget : f.target = t :=
          hother (f.target, cb') hreg' ((hs.name hf).symm.trans hkey)
        exact ⟨cb, hkey ▸ callbacks_createTrampoline_self, htarget ▸ hreg⟩
      · exact ⟨cb', (callbacks_createTrampoline_of_ne hkey).trans hcb',
          mem_registered_createTrampoline.mpr (Or.inl hreg')⟩
    · -- the name comes back from the engine as it went in
      refine ⟨cb, ?_, hreg⟩
      show (s.createTrampoline t cb).callbacks (throughEngine t.cbName) = some cb
      rw [hstable, callbacks_createTrampoline_self]

/-- The condition is exact: registering a callback that was not registered
before keeps the dispatch right only for a clean target. -/
theorem Named.clean_of_dispatches (hs : s.Named) (hcb : ∀ r ∈ s.registered, r.2 ≠ cb)
    (h : (s.createTrampoline t cb).Dispatches) : s.Clean t := by
  constructor
  · obtain ⟨cb', hcb', hreg⟩ := h ⟨newString t.cbName, t⟩
      (mem_functions_createTrampoline.mpr (Or.inr rfl))
    by_cases hkey : throughEngine t.cbName = t.cbName
    · exact hkey
    · -- the new function finds something older, so its target was there before
      have hold : s.callbacks (throughEngine t.cbName) = some cb' :=
        (callbacks_createTrampoline_of_ne hkey).symm.trans hcb'
      obtain ⟨t', ht'⟩ := hs.known _ _ hold
      rcases mem_registered_createTrampoline.mp hreg with hreg | heq
      · obtain ⟨f, hf, htarget⟩ := hs.made _ hreg
        have hstable := hs.stable f hf
        rwa [htarget] at hstable
      · have hsame : cb' = cb := congrArg Prod.snd heq
        exact absurd hsame (hcb _ ht')
  · intro r hr hkey
    obtain ⟨f, hf, htarget⟩ := hs.made r hr
    obtain ⟨cb', hcb', hreg⟩ := h f (mem_functions_createTrampoline.mpr (Or.inl hf))
    rw [hs.name hf, htarget, hkey, callbacks_createTrampoline_self] at hcb'
    obtain rfl : cb = cb' := Option.some.inj hcb'
    rcases mem_registered_createTrampoline.mp hreg with hreg | heq
    · exact absurd rfl (hcb _ hreg)
    · exact htarget.symm.trans (congrArg Prod.fst heq)

end

/-- The methods of one module do not get in each other's way. -/
theorem Clean.createTrampoline {s : Registry Cb} {moduleName a b : Bytes}
    (hb : s.Clean (.method moduleName b)) (cb : Cb) :
    (s.createTrampoline (.method moduleName a) cb).Clean (.method moduleName b) := by
  refine ⟨hb.1, ?_⟩
  intro r hr hkey
  rcases List.mem_append.mp hr with hr | hr
  · exact hb.2 r hr hkey
  · obtain rfl : r = (.method moduleName a, cb) := by simpa using hr
    rw [cbName_method_inj hkey]

theorem Named.createMethods (moduleName : Bytes) : ∀ (s : Registry Cb) (ms : List (Bytes × Cb)),
    s.Named → (∀ e ∈ ms, s.Clean (.method moduleName e.1)) →
    (Registry.createMethods moduleName s ms).1.Named
  | _, [], hs, _ => hs
  | s, (name, cb) :: rest, hs, hms => by
    have hhead : s.Clean (.method moduleName name) := hms (name, cb) (List.mem_cons_self ..)
    refine Named.createMethods moduleName (s.createTrampoline (.method moduleName name) cb) rest
      (hs.createTrampoline hhead cb) ?_
    intro e he
    exact (hms e (List.mem_cons_of_mem _ he)).createTrampoline cb

/-- Functions, map and history decide. -/
theorem Named.congr {s s' : Registry Cb} (hs : s.Named) (hcallbacks : s'.callbacks = s.callbacks)
    (hfunctions : s'.functions = s.functions) (hregistered : s'.registered = s.registered) :
    s'.Named := by
  obtain ⟨data, stable, made, known, runs⟩ := hs
  constructor
  · rwa [hfunctions]
  · rwa [hfunctions]
  · rwa [hfunctions, hregistered]
  · rwa [hcallbacks, hregistered]
  · unfold Dispatches RunsOwn
    rwa [hfunctions, hcallbacks, hregistered]

/-- One step whose registrations are clean. -/
theorem Named.step {s s' : Registry Cb} {op : Op Cb} (hs : s.Named) (hop : s.CleanOp op)
    (hstep : Registry.step s op s') : s'.Named := by
  cases hstep with
  | registerCallback fnName cb => exact hs.createTrampoline hop cb
  | registerModule moduleName methods =>
    exact (hs.createMethods moduleName s methods hop).congr rfl rfl rfl
  | evalModule fileName => exact hs.congr rfl rfl rfl
  | resolve cname loads =>
    obtain ⟨h1, h2, h3⟩ := s.resolve_frame cname loads
    exact hs.congr h1 h2 h3
  | failImport => exact hs.congr rfl rfl rfl
  | evaluate => exact hs.congr rfl rfl rfl

/-- **Callbacks are dispatched to their own functions** in every run whose
registrations are clean, whatever else happens in between. -/
theorem dispatches_of_along {self : UInt64} {ops : List (Op Cb)} {s : Registry Cb}
    (h : Along step CleanOp (new self) ops s) : s.Dispatches := by
  have hnew : (new self : Registry Cb).Named :=
    ⟨(fun _ hf => nomatch hf), (fun _ hf => nomatch hf), (fun _ hr => nomatch hr),
      (fun _ _ hk => nomatch hk), (fun _ hf => nomatch hf)⟩
  exact (h.invariant hnew fun s op s' hs hop hstep => hs.step hop hstep).runs

/-- A global function and a module's method. -/
theorem dispatches_of_along_two :
    (((new 16 : Registry Nat).registerCallback (ascii "f") 1).registerModule (ascii "m")
      [(ascii "g", 2)]).Dispatches := by
  have hf : (new 16 : Registry Nat).Clean (.global (ascii "f")) :=
    ⟨stable_of_ascii (by decide +kernel), fun r hr => nomatch hr⟩
  have hg : ((new 16 : Registry Nat).registerCallback (ascii "f") 1).Clean
      (.method (ascii "m") (ascii "g")) := by
    refine ⟨stable_of_ascii (by decide +kernel), ?_⟩
    intro r hr hkey
    obtain rfl : r = (.global (ascii "f"), 1) := by
      simpa [registerCallback, Registry.createTrampoline, new] using hr
    exact absurd hkey (by decide)
  have hrun : Along step CleanOp (new 16 : Registry Nat)
      [.registerCallback (ascii "f") 1, .registerModule (ascii "m") [(ascii "g", 2)]] _ :=
    .cons hf (.registerCallback ..)
      (.cons (by simpa [CleanOp] using hg) (.registerModule ..) (.nil _))
  exact dispatches_of_along hrun

/-- The method `n` of the module `m` and the callback `__m_n` share a name: the
function made first runs the callback registered last. -/
theorem dispatches_fails : ¬∀ (ops : List (Op Nat)) (s : Registry Nat),
    Run step (new 16) ops s → s.Dispatches := by
  intro h
  have hdis := h _ _ (.cons (.registerModule (new 16) (ascii "m") [(ascii "n", 1)])
    (.cons (.registerCallback _ (ascii "__m_n") 2) (.nil _)))
  obtain ⟨cb, hcb, hreg⟩ := hdis
    ⟨newString (ascii "__m_n"), .method (ascii "m") (ascii "n")⟩ (List.mem_cons_self ..)
  have hname : cstr (toCStringLen (newString (ascii "__m_n"))) = ascii "__m_n" :=
    stable_of_ascii (by decide +kernel)
  rw [FnObject.cbName, hname] at hcb
  obtain rfl : 2 = cb := by
    simpa [registerCallback, Registry.createTrampoline, Target.cbName] using hcb
  simp [registerModule, Registry.createMethods, registerCallback, Registry.createTrampoline, new]
    at hreg

/-- What a function of a state that dispatches does when it is called. -/
theorem trampoline_of_dispatches {s : Registry DynCallback} (hs : s.Dispatches) {f : FnObject}
    (hf : f ∈ s.functions) : ∃ cb, (f.target, cb) ∈ s.registered ∧
      ∀ (depth : Nat) (r : RefId) (argv : List JSValue) (rt : Rt) (Q : JSValue → Rt → Prop)
        (X : Stop → Rt → Prop),
        wp (trampoline depth s.callbacks ⟨.string f.funcData1, r⟩ argv) rt Q X ↔
          wp (trampolineArgs depth argv) rt (fun cppArgs t => wp (toJs (cb cppArgs))
            (((t.ownedC (some (toCStringLen f.funcData1))).log [.readC t.fresh]).log
              [.freeC t.fresh]) Q X) X := by
  obtain ⟨cb, hcb, hreg⟩ := hs f hf
  exact ⟨cb, hreg, fun depth r argv rt Q X => wp_trampoline hcb⟩

end Registry

end Ejr
