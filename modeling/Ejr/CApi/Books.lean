import Ejr.CApi.Effects
import Ejr.Releases

/-!
# Accounts of handles

The accounts of `Ejr.Custody`, on programs of a handle. `Books` is an account
that the two pieces of work which come back to functions of the bridge keep, a
callback and the evaluation of a module; from it follows what each part of the
bridge owes (`charges_…`): the functions of `EasyJSR` leave their caller with the
value they return, whatever script code does on the way.
-/

namespace Ejr

open Lib EasyJSR

variable {Cb : Type}

/-! ## Calls of the engine, of one runtime -/

section

variable {A : Nat → Nat → List Name → List Name → List Event → Prop} (hA : Bookkeeping A)

include hA

theorem takes_answer {α : Type} (r : Outcome α) (o : List Name) :
    Takes A AnyHeap o (fun _ => o) (answer r) := by
  cases r with
  | value a => exact hA.owes_pure (.refl _)
  | throws e =>
    exact hA.owes_bind (takes_jsThrow hA e o) fun _ => hA.owes_pure (.refl _)
  | exception => exact hA.owes_pure (.refl _)

theorem takes_freeJsval (v : JSValue) :
    Takes A AnyHeap v.owned (fun _ => []) (freeJsval v) := by
  unfold freeJsval
  split
  next hval =>
    have howned : v.owned = [] := by simp [JSValue.owned, hval, JSVal.hasRefCount]
    rw [howned]
    exact hA.owes_pure (.refl _)
  next => exact takes_jsFreeValue hA v

theorem takes_freeJsvals : ∀ vs : List JSValue,
    Takes A AnyHeap (vs.flatMap JSValue.owned) (fun _ => []) (freeJsvals vs)
  | [] => hA.owes_pure (.refl _)
  | v :: vs => hA.owes_drop (takes_freeJsval hA v) (.refl _) fun _ => takes_freeJsvals vs

/-- The pending exception, where the value is one. -/
theorem takes_cleanJsValue (v : JSValue) :
    Takes A AnyHeap [] (fun r => if r.2 then r.1.owned else []) (cleanJsValue v) := by
  unfold cleanJsValue
  split
  next =>
    exact hA.owes_bind (takes_jsGetException hA) fun _ => hA.owes_pure (.refl _)
  next => exact hA.owes_pure (.refl _)

theorem takes_cStringOf (v : JSValue) : Takes A AnyHeap [] cstrOwned (cStringOf v) := by
  unfold cStringOf
  split
  next => exact takes_jsToCString hA _
  next =>
    refine hA.owes_bind (takes_jsToString hA _) fun jsString => ?_
    refine hA.owes_new (takes_jsToCString hA _) fun cString => ?_
    refine hA.owes_drop (takes_freeJsval hA jsString) List.perm_append_comm fun _ => ?_
    exact hA.owes_pure (.refl _)

/-- `val_to_string` leaves the value to the table. -/
theorem takes_valToString (v : JSValue) :
    Takes A AnyHeap [] (fun _ => []) (valToString v false) := by
  refine hA.owes_bind (takes_cleanJsValue hA v) fun cleaned => ?_
  obtain ⟨cleanedValue, isException⟩ := cleaned
  refine hA.owes_new (takes_cStringOf hA cleanedValue) fun cString => ?_
  refine hA.owes_drop (o := if isException then cleanedValue.owned else []) (x := cstrOwned cString)
    ?_ List.perm_append_comm fun _ => ?_
  · cases isException with
    | true => exact takes_freeJsval hA cleanedValue
    | false => exact hA.owes_pure (.refl _)
  refine hA.owes_bind (m := fun _ => cstrOwned cString) (hA.owes_pure (.refl _)) fun _ => ?_
  refine hA.owes_bind (takes_stdString hA cString) fun valueString => ?_
  exact hA.owes_bind (takes_jsFreeCString hA cString) fun _ => hA.owes_pure (.refl _)

variable (hgive : HandsOver A)

include hgive

theorem takes_toJsArgs : ∀ args : List JSArg,
    Takes A AnyHeap [] (fun vs => vs.flatMap JSValue.owned) (toJsArgs args)
  | [] => hA.owes_pure (.refl _)
  | arg :: args => by
    refine hA.owes_bind (takes_toJs hA hgive arg) fun v => ?_
    refine hA.owes_new (takes_toJsArgs args) fun vs => hA.owes_pure ?_
    exact List.perm_append_comm

end

/-! ## Accounts of handles -/

/-- The trace of a handle's runtime. -/
def apiLog : Log (Handle Cb) Event := ⟨fun s => s.rt.trace, fun s => s.rt.fresh⟩

/-- A program on handles in `I`: from owning `o` to owning `h`. -/
abbrev Charges {α : Type} (A : Nat → Nat → List Name → List Name → List Event → Prop)
    (I : Handle Cb → Prop) (o : List Name) (h : α → List Name) (p : ApiM Cb α) : Prop :=
  Owes Name.rank A apiLog I o h p

/-- An account of handles in `I`, which looks at the functions registered: what
comes back to the bridge while script code runs owes nothing. -/
structure Books (A : Nat → Nat → List Name → List Name → List Event → Prop)
    (I : Handle Cb → Prop) : Prop extends Bookkeeping A where
  gives : HandsOver A
  stable : ∀ {s t : Handle Cb}, I s → t.registry.functions = s.registry.functions →
    t.functions = s.functions → I t
  callback : ∀ (depth : Nat) (fn : FnId) (argv : List JSVal) (answers : Cb → DynCallback),
    Charges A I [] (fun _ => []) (callFunction depth fn argv answers)
  moduleExport : ∀ fn : FnId, Charges A I [] (fun _ => []) (setModuleExport fn)

/-- A program on the runtime. -/
theorem charges_of_takes {A : Nat → Nat → List Name → List Name → List Event → Prop}
    {I : Handle Cb → Prop} (hI : ∀ s rt, I s → I { s with rt := rt }) {α : Type} {o : List Name}
    {h : α → List Name} {p : EngineM α} (hp : Takes A AnyHeap o h p) : Charges A I o h (onRt p) := by
  intro s hs ho
  rw [wp_onRt]
  refine wp_mono (hp s.rt trivial ho) ?_ (fun _ _ h => h)
  exact fun _ t ht => ⟨hI s t hs, ht.2⟩

section

variable {A : Nat → Nat → List Name → List Name → List Event → Prop} {I : Handle Cb → Prop}
variable (hB : Books A I)

include hB

theorem charges_onRt {α : Type} {o : List Name} {h : α → List Name} {p : EngineM α}
    (hp : Takes A AnyHeap o h p) : Charges A I o h (onRt p) :=
  charges_of_takes (fun _ _ hs => hB.stable hs rfl rfl) hp

/-- Changes of other fields than the trace. -/
theorem charges_modify {f : Handle Cb → Handle Cb} (o : List Name)
    (htrace : ∀ s, (f s).rt.trace = s.rt.trace) (hfresh : ∀ s, (f s).rt.fresh = s.rt.fresh)
    (hregistry : ∀ s, (f s).registry.functions = s.registry.functions)
    (hfunctions : ∀ s, (f s).functions = s.functions) :
    Charges A I o (fun _ => o) (modify f : ApiM Cb PUnit) :=
  fun s hs ho => ⟨hB.stable hs (hregistry s) (hfunctions s),
    entry_quiet hB.toBookkeeping ho (htrace s) (hfresh s)⟩

/-! ## Work of the engine -/

theorem charges_loadFile (contents : Bytes) (compiled : Outcome Addr) :
    Charges A I [] (fun _ => []) (loadFile contents compiled : ApiM Cb Unit) := by
  unfold loadFile
  split
  next => exact hB.owes_pure (.refl _)
  next =>
    refine hB.owes_bind (charges_onRt hB (takes_answer hB.toBookkeeping compiled [])) fun r => ?_
    split
    next =>
      refine hB.owes_bind (charges_onRt hB (takes_own hB.toBookkeeping _)) fun funcVal => ?_
      exact charges_onRt hB (takes_jsFreeValue hB.toBookkeeping funcVal)
    next => exact hB.owes_pure (.refl _)

theorem charges_loadModule (moduleName contents : Bytes) (compiled : Outcome Addr) :
    Charges A I [] (fun _ => []) (loadModule moduleName contents compiled : ApiM Cb Unit) := by
  refine hB.owes_bind (m := fun _ => []) ?_ fun _ => ?_
  · refine hB.owes_bind hB.owes_get fun s => ?_
    split
    next => exact charges_loadFile hB contents compiled
    next => exact hB.owes_pure (.refl _)
  · exact charges_modify hB [] (fun _ => rfl) (fun _ => rfl)
      (fun s => (s.registry.resolve_frame moduleName _).2.1) fun _ => rfl

theorem charges_setModuleExports : ∀ methods : List (Bytes × FnId),
    Charges A I [] (fun _ => []) (setModuleExports methods)
  | [] => hB.owes_pure (.refl _)
  | (_, fn) :: methods =>
    hB.owes_bind (hB.moduleExport fn) fun _ => charges_setModuleExports methods

theorem charges_moduleInit (m : DefId) : Charges A I [] (fun _ => []) (moduleInit m) := by
  refine hB.owes_bind hB.owes_get fun s => ?_
  split
  next =>
    split
    next =>
      refine hB.owes_bind (charges_setModuleExports hB _) fun _ => ?_
      exact charges_modify hB [] (fun _ => rfl) (fun _ => rfl) (fun _ => rfl) fun _ => rfl
    next => exact hB.owes_pure (.refl _)
  next => exact hB.owes_pure (.refl _)

theorem charges_work : ∀ w : Work Cb, Charges A I [] (fun _ => []) w.run
  | .script .. =>
    charges_modify hB [] (fun _ => rfl) (fun _ => rfl) (fun _ => rfl) fun _ => rfl
  | .callback depth fn argv answers => hB.callback depth fn argv answers
  | .newModule _ =>
    charges_modify hB [] (fun _ => rfl) (fun _ => rfl) (fun _ => rfl) fun _ => rfl
  | .load moduleName contents compiled => charges_loadModule hB moduleName contents compiled
  | .failImport =>
    charges_modify hB [] (fun _ => rfl) (fun _ => rfl) (fun _ => rfl) fun _ => rfl
  | .moduleInit m => charges_moduleInit hB m

theorem charges_runWork : ∀ ws : List (Work Cb), Charges A I [] (fun _ => []) (runWork ws)
  | [] => hB.owes_pure (.refl _)
  | w :: ws => hB.owes_bind (charges_work hB w) fun _ => charges_runWork ws

/-- What the engine answers is owned. -/
theorem charges_engine (c : Completion Cb) : Charges A I [] JSValue.owned (engine c) := by
  refine hB.owes_bind (charges_runWork hB c.work) fun _ => ?_
  refine hB.owes_bind (charges_onRt hB (takes_answer hB.toBookkeeping c.result [])) fun r => ?_
  exact charges_onRt hB (takes_own hB.toBookkeeping _)

/-! ## The functions of `EasyJSR` -/

theorem charges_evalClassFunction (args : List JSArg) (getFunction call : Completion Cb) :
    Charges A I [] JSValue.owned (evalClassFunction args getFunction call) := by
  refine hB.owes_bind (charges_engine hB getFunction) fun function => ?_
  refine hB.owes_new (charges_onRt hB (takes_toJsArgs hB.toBookkeeping hB.gives args))
    fun jsArgs => ?_
  refine hB.owes_new (charges_engine hB call) fun result => ?_
  refine hB.owes_drop (charges_onRt hB (takes_freeJsval hB.toBookkeeping function))
    (x := jsArgs.flatMap JSValue.owned ++ result.owned) ?_ fun _ => ?_
  · rw [← List.append_assoc]
    exact List.perm_append_comm.trans (List.perm_append_comm.append_left _)
  refine hB.owes_drop (charges_onRt hB (takes_freeJsvals hB.toBookkeeping jsArgs)) (.refl _)
    fun _ => ?_
  exact hB.owes_pure (.refl _)

/-- A reference to the global object around a call of the engine. -/
theorem charges_withGlobal {p : ApiM Cb JSValue} (hp : Charges A I [] JSValue.owned p) :
    Charges A I [] JSValue.owned (do
      let s ← get
      let global ← onRt (own (.object s.global))
      let result ← p
      onRt (freeJsval global)
      pure result : ApiM Cb JSValue) := by
  refine hB.owes_bind hB.owes_get fun s => ?_
  refine hB.owes_bind (charges_onRt hB (takes_own hB.toBookkeeping _)) fun global => ?_
  refine hB.owes_new hp fun result => ?_
  refine hB.owes_drop (charges_onRt hB (takes_freeJsval hB.toBookkeeping global))
    List.perm_append_comm fun _ => ?_
  exact hB.owes_pure (.refl _)

theorem charges_evalFunction (args : List JSArg) (getFunction call : Completion Cb) :
    Charges A I [] JSValue.owned (evalFunction args getFunction call) :=
  charges_withGlobal hB (charges_evalClassFunction hB args getFunction call)

theorem charges_getFromGlobal (c : Completion Cb) :
    Charges A I [] JSValue.owned (getFromGlobal c) :=
  charges_withGlobal hB (charges_engine hB c)

theorem charges_awaitPromise (v : JSValue) :
    Charges A I [] JSValue.owned (awaitPromise v : ApiM Cb JSValue) :=
  hB.owes_bind hB.owes_get fun _ => charges_onRt hB (takes_own hB.toBookkeeping _)

/-- A value without a reference is converted and nothing is released. -/
theorem charges_fromJs (depth : Nat) {v : JSValue} (hv : v.val.hasRefCount = false) :
    Charges A I [] (fun _ => []) (onRt (fromJs depth v true) : ApiM Cb JSArg) := by
  intro s hs ho
  have hobj : ∀ a, v.val ≠ .object a := fun a h => by
    rw [h] at hv
    exact nomatch hv
  have harr : ¬s.rt.heap.ArrayLike v.val := by
    unfold Heap.ArrayLike
    rw [Heap.isArray_of_not_object _ hobj]
    exact fun h => h rfl
  have hmis : s.rt.heap.mishandles v.val = false := by
    cases hval : v.val <;>
      simp_all [JSVal.hasRefCount, Heap.mishandles, Heap.isError, Heap.view, Outcome.get?]
  have howned : handed v true = [] := by simp [handed, JSValue.owned, hv]
  have htakes := takes_fromJs hB.toBookkeeping depth v.val v.ref true (h := s.rt.heap) (by
    rw [meets_leaf_iff harr, hmis]
    exact Bool.false_ne_true)
  rw [howned] at htakes
  rw [wp_onRt]
  refine wp_mono (htakes s.rt rfl ho) ?_ (fun _ _ h => h)
  exact fun _ t ht => ⟨hB.stable hs rfl rfl, ht.2⟩

end

end Ejr
