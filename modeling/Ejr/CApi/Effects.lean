import Ejr.CApi.Handle

/-!
# What a call does to the table

Most of what a call of the C API runs never looks at the table of values: the
engine, script code, callbacks, conversions. `Apart` says that the table and its
history are as they were, and goes through those parts as a whole. What is left
is `Call.touches`: a call leaves the table alone, adds one value under `next_id`
and returns that id, erases one id, or is `ejr_free`. Every result about ids
starts from this lemma and unfolds no function of the C API.
-/

namespace Ejr

open Lib EasyJSR

variable {Cb : Type}

/-! ## Away from the table -/

/-- The table and its history are as they were. -/
structure Apart (s t : Handle Cb) : Prop where
  jsvad : t.jsvad = s.jsvad
  closed : t.closed = s.closed
  stored : t.stored = s.stored
  raised : t.raised = s.raised
  read : t.read = s.read

theorem apart_refl (s : Handle Cb) : Apart s s := ⟨rfl, rfl, rfl, rfl, rfl⟩

theorem Apart.then {s t u : Handle Cb} (h : Apart s t) (h' : Apart t u) : Apart s u :=
  ⟨h'.jsvad.trans h.jsvad, h'.closed.trans h.closed, h'.stored.trans h.stored,
    h'.raised.trans h.raised, h'.read.trans h.read⟩

theorem framing_apart : Framing (@Apart Cb) fun _ => True where
  refl := apart_refl
  trans _ _ _ := Apart.then
  stable _ _ _ _ := trivial

/-- However it ends, the program stays away from the table. -/
abbrev StaysApart {α : Type} (p : ApiM Cb α) : Prop :=
  Keeps Apart (fun _ => True) (fun _ => True) p

theorem apart_pure {α : Type} (a : α) : StaysApart (pure a : ApiM Cb α) :=
  keeps_pure framing_apart trivial

theorem apart_bind {α β : Type} {p : ApiM Cb α} {f : α → ApiM Cb β} (hp : StaysApart p)
    (hf : ∀ a, StaysApart (f a)) : StaysApart (p >>= f) :=
  keeps_bind framing_apart hp fun a _ => hf a

theorem apart_get : StaysApart (get : ApiM Cb (Handle Cb)) := keeps_get framing_apart

theorem apart_onRt {α : Type} (p : EngineM α) : StaysApart (onRt p : ApiM Cb α) := by
  intro s _
  rw [wp_onRt]
  exact wp_mono wp_true (fun _ _ _ => ⟨⟨rfl, rfl, rfl, rfl, rfl⟩, trivial⟩)
    (fun _ _ _ => ⟨rfl, rfl, rfl, rfl, rfl⟩)

/-- Changes of the other fields. -/
theorem apart_modify {f : Handle Cb → Handle Cb} (h : ∀ s, Apart s (f s)) :
    StaysApart (modify f : ApiM Cb PUnit) :=
  keeps_modify fun s _ => h s

section

variable (d : Nat) (fn : FnId) (argv : List JSVal) (answers : Cb → DynCallback)

theorem apart_callFunction : StaysApart (callFunction d fn argv answers) := by
  refine apart_bind apart_get fun s => ?_
  split
  next => exact apart_bind (apart_onRt _) fun _ => apart_onRt _
  next => exact apart_pure _

theorem apart_setModuleExport : StaysApart (setModuleExport fn : ApiM Cb Unit) := by
  refine apart_bind apart_get fun s => ?_
  split
  next => exact apart_onRt _
  next => exact apart_pure _

theorem apart_setModuleExports : ∀ methods : List (Bytes × FnId),
    StaysApart (setModuleExports methods : ApiM Cb Unit)
  | [] => apart_pure _
  | (_, fn) :: methods =>
    apart_bind (apart_setModuleExport fn) fun _ => apart_setModuleExports methods

theorem apart_moduleInit (m : DefId) : StaysApart (moduleInit m : ApiM Cb Unit) := by
  refine apart_bind apart_get fun s => ?_
  split
  next =>
    split
    next =>
      exact apart_bind (apart_setModuleExports _) fun _ =>
        apart_modify fun _ => ⟨rfl, rfl, rfl, rfl, rfl⟩
    next => exact apart_pure _
  next => exact apart_pure _

theorem apart_loadFile (contents : Bytes) (compiled : Outcome Addr) :
    StaysApart (loadFile contents compiled : ApiM Cb Unit) := by
  unfold loadFile
  split
  next => exact apart_pure _
  next =>
    refine apart_bind (apart_onRt _) fun r => ?_
    split
    next => exact apart_bind (apart_onRt _) fun _ => apart_onRt _
    next => exact apart_pure _

theorem apart_loadModule (moduleName contents : Bytes) (compiled : Outcome Addr) :
    StaysApart (loadModule moduleName contents compiled : ApiM Cb Unit) := by
  refine apart_bind (apart_bind apart_get fun s => ?_) fun _ =>
    apart_modify fun _ => ⟨rfl, rfl, rfl, rfl, rfl⟩
  split
  next => exact apart_loadFile _ _
  next => exact apart_pure _

end

theorem apart_work : ∀ w : Work Cb, StaysApart w.run
  | .script .. => apart_modify fun _ => ⟨rfl, rfl, rfl, rfl, rfl⟩
  | .callback d fn argv answers => apart_callFunction d fn argv answers
  | .newModule _ => apart_modify fun _ => ⟨rfl, rfl, rfl, rfl, rfl⟩
  | .load name contents compiled => apart_loadModule name contents compiled
  | .failImport => apart_modify fun _ => ⟨rfl, rfl, rfl, rfl, rfl⟩
  | .moduleInit m => apart_moduleInit m

theorem apart_runWork : ∀ ws : List (Work Cb), StaysApart (runWork ws)
  | [] => apart_pure _
  | w :: ws => apart_bind (apart_work w) fun _ => apart_runWork ws

theorem apart_engine (c : Completion Cb) : StaysApart (engine c) :=
  apart_bind (apart_runWork _) fun _ => apart_bind (apart_onRt _) fun _ => apart_onRt _

theorem apart_evalClassFunction (args : List JSArg) (getFunction call : Completion Cb) :
    StaysApart (evalClassFunction args getFunction call) := by
  refine apart_bind (apart_engine _) fun _ => apart_bind (apart_onRt _) fun _ => ?_
  refine apart_bind (apart_engine _) fun _ => apart_bind (apart_onRt _) fun _ => ?_
  exact apart_bind (apart_onRt _) fun _ => apart_pure _

theorem apart_evalFunction (args : List JSArg) (getFunction call : Completion Cb) :
    StaysApart (evalFunction args getFunction call) := by
  refine apart_bind apart_get fun _ => apart_bind (apart_onRt _) fun _ => ?_
  refine apart_bind (apart_evalClassFunction _ _ _) fun _ => ?_
  exact apart_bind (apart_onRt _) fun _ => apart_pure _

theorem apart_getFromGlobal (c : Completion Cb) : StaysApart (getFromGlobal c) := by
  refine apart_bind apart_get fun _ => apart_bind (apart_onRt _) fun _ => ?_
  refine apart_bind (apart_engine _) fun _ => ?_
  exact apart_bind (apart_onRt _) fun _ => apart_pure _

theorem apart_awaitPromise (v : JSValue) : StaysApart (awaitPromise v : ApiM Cb JSValue) :=
  apart_bind apart_get fun _ => apart_onRt _

theorem apart_createTrampoline (t : Target) (cb : Cb) : StaysApart (createTrampoline t cb) := by
  refine apart_bind apart_get fun _ => apart_bind (apart_onRt _) fun _ => ?_
  refine apart_bind (apart_onRt _) fun _ => apart_bind (apart_onRt _) fun _ => ?_
  exact apart_bind (apart_modify fun _ => ⟨rfl, rfl, rfl, rfl, rfl⟩) fun _ => apart_pure _

theorem apart_registerCallback (fnName : Bytes) (cb : Cb) (setProperty : List (Work Cb)) :
    StaysApart (EasyJSR.registerCallback fnName cb setProperty) := by
  refine apart_bind apart_get fun _ => apart_bind (apart_onRt _) fun _ => ?_
  refine apart_bind (apart_createTrampoline _ _) fun _ => apart_bind (apart_onRt _) fun _ => ?_
  exact apart_bind (apart_runWork _) fun _ => apart_onRt _

theorem apart_createMethods (moduleName : Bytes) : ∀ (exports : List JSString)
    (methods : List (Bytes × Cb)), StaysApart (EasyJSR.createMethods moduleName exports methods)
  | _, [] => apart_pure _
  | _, (_, cb) :: methods => by
    refine apart_bind apart_get fun _ => apart_bind (apart_onRt _) fun exports => ?_
    refine apart_bind (apart_createTrampoline _ cb) fun _ => ?_
    exact apart_bind (apart_createMethods moduleName exports methods) fun _ => apart_pure _

theorem apart_registerModule (moduleName : Bytes) (methods : List (Bytes × Cb)) :
    StaysApart (EasyJSR.registerModule moduleName methods) :=
  apart_bind (apart_createMethods _ _ _) fun _ =>
    apart_modify fun _ => ⟨rfl, rfl, rfl, rfl, rfl⟩

/-! ## The table -/

/-- What a call does to the table, with what it answers. -/
inductive Touches (s t : Handle Cb) : Answer → Prop where
  | apart {a : Answer} (h : Apart s t) (ha : ∀ i, a = .id i → i = -1) : Touches s t a
  | read {a : Answer} (id : Int32) (ha : ∀ i, a ≠ .id i) (hjsvad : t.jsvad = s.jsvad)
      (hclosed : t.closed = s.closed) (hstored : t.stored = s.stored)
      (hraised : t.raised = s.raised)
      (hread : t.read = s.read ++ [(s.jsvad.get id).ref]) : Touches s t a
  | stored (value : JSValue) (thrown : Option JSVal)
      (hjsvad : t.jsvad = s.jsvad.addValue value) (hclosed : t.closed = s.closed)
      (hstored : t.stored = s.stored ++ [value])
      (hraised : t.raised = Function.update s.raised value.ref thrown) (hread : t.read = s.read) :
      Touches s t (.id s.jsvad.nextId)
  | freed (id : Int32) (hjsvad : t.jsvad = (s.jsvad.freeValue id).2)
      (hclosed : t.closed = s.closed) (hstored : t.stored = s.stored)
      (hraised : t.raised = s.raised) (hread : t.read = s.read) : Touches s t .done
  | closed (hjsvad : t.jsvad = s.jsvad.free.2) (hclosed : t.closed = true)
      (hstored : t.stored = s.stored) (hraised : t.raised = s.raised) (hread : t.read = s.read) :
      Touches s t .done

theorem Apart.touches {s m t : Handle Cb} {a : Answer} (h : Apart s m) (h' : Touches m t a) :
    Touches s t a := by
  obtain ⟨hjsvad, hclosed, hstored, hraised, hread⟩ := h
  cases h' with
  | apart h ha => exact .apart (Apart.then ⟨hjsvad, hclosed, hstored, hraised, hread⟩ h) ha
  | read id ha h1 h2 h3 h4 h5 =>
    rw [hjsvad, hread] at h5
    exact .read id ha (h1.trans hjsvad) (h2.trans hclosed) (h3.trans hstored) (h4.trans hraised) h5
  | stored value thrown h1 h2 h3 h4 h5 =>
    rw [hjsvad] at h1 ⊢
    rw [hstored] at h3
    rw [hraised] at h4
    exact .stored value thrown h1 (h2.trans hclosed) h3 h4 (h5.trans hread)
  | freed id h1 h2 h3 h4 h5 =>
    rw [hjsvad] at h1
    exact .freed id h1 (h2.trans hclosed) (h3.trans hstored) (h4.trans hraised) (h5.trans hread)
  | closed h1 h2 h3 h4 h5 =>
    rw [hjsvad] at h1
    exact .closed h1 h2 (h3.trans hstored) (h4.trans hraised) (h5.trans hread)

/-- If it returns, the program has done to the table what `Touches` says. -/
def DoesTouch {α : Type} (answer : α → Answer) (p : ApiM Cb α) : Prop :=
  ∀ s, wp p s (fun a t => Touches s t (answer a)) (fun _ _ => True)

/-- What stays away from the table comes first. -/
theorem touch_bind {α β : Type} {answer : β → Answer} {p : ApiM Cb α} {f : α → ApiM Cb β}
    (hp : StaysApart p) (hf : ∀ a, DoesTouch answer (f a)) : DoesTouch answer (p >>= f) := by
  intro s
  rw [wp_bind]
  refine wp_mono (hp s trivial) ?_ (fun _ _ _ => trivial)
  intro a m hm
  exact wp_mono (hf a m) (fun b t ht => hm.1.touches ht) (fun _ _ _ => trivial)

theorem touch_addValue (value : JSValue) (thrown : Option JSVal) :
    DoesTouch .id (addValue value thrown : ApiM Cb Int32) :=
  fun _ => .stored value thrown rfl rfl rfl rfl rfl

/-- The failure result of the functions that return an id. -/
theorem touch_fail : DoesTouch .id (pure (-1) : ApiM Cb Int32) := by
  intro s
  refine .apart (apart_refl s) fun i hi => ?_
  cases hi
  rfl

/-- Nothing but what stays away from the table. -/
theorem touch_of_apart {α : Type} {answer : α → Answer} {p : ApiM Cb α} (hp : StaysApart p)
    (ha : ∀ a i, answer a ≠ .id i) : DoesTouch answer p := by
  intro s
  refine wp_mono (hp s trivial) ?_ (fun _ _ _ => trivial)
  intro a t ht
  exact .apart ht.1 fun i hi => absurd hi (ha a i)

theorem touch_map {α : Type} {answer : α → Answer} {p : ApiM Cb α} (hp : DoesTouch answer p) :
    DoesTouch id (answer <$> p) := by
  intro s
  rw [wp_map]
  exact hp s

theorem touch_ejrEvalModule (c : Completion Cb) : DoesTouch .id (ejrEvalModule c) := by
  refine touch_bind (apart_engine c) fun value => ?_
  split
  next => exact touch_addValue _ _
  next =>
    refine touch_bind (apart_awaitPromise value) fun promiseResult => ?_
    exact touch_bind (apart_onRt _) fun _ => touch_addValue _ _

theorem touch_ejrEvalClassFunction (valueId : Int32) (args : List JSArg)
    (getFunction call : Completion Cb) :
    DoesTouch .id (ejrEvalClassFunction valueId args getFunction call) := by
  refine touch_bind apart_get fun s => ?_
  split
  next => exact touch_fail
  next => exact touch_bind (apart_evalClassFunction _ _ _) fun _ => touch_addValue _ _

theorem touch_ejrGetPropertyFrom (valueId : Int32) (c : Completion Cb) :
    DoesTouch .id (ejrGetPropertyFrom valueId c) := by
  refine touch_bind apart_get fun s => ?_
  split
  next => exact touch_fail
  next => exact touch_bind (apart_engine c) fun _ => touch_addValue _ _

theorem touch_ejrValToString (valueId : Int32) :
    DoesTouch .text (ejrValToString valueId : ApiM Cb (Option Bytes)) := by
  intro s
  unfold ejrValToString
  rw [wp_bind, wp_get]
  dsimp only
  split
  next => exact .apart (apart_refl s) fun i hi => nomatch hi
  next =>
    rw [wp_bind]
    refine wp_mono (apart_onRt _ s trivial) ?_ (fun _ _ _ => trivial)
    intro str m hm
    obtain ⟨⟨hjsvad, hclosed, hstored, hraised, hread⟩, -⟩ := hm
    refine .read valueId (fun i hi => nomatch hi) hjsvad hclosed hstored hraised ?_
    show m.read ++ _ = _
    rw [hread]

theorem touch_jsargFromJsvalue (depth : Nat) (value : Int32) :
    DoesTouch .arg (Ejr.jsargFromJsvalue depth value : ApiM Cb JSArg) := by
  refine touch_of_apart ?_ fun _ _ h => nomatch h
  unfold Ejr.jsargFromJsvalue
  split
  next => exact apart_pure _
  next => exact apart_bind apart_get fun _ => apart_onRt _

theorem touch_ejrFreeJsvalue (valueId : Int32) :
    DoesTouch (fun _ => .done) (ejrFreeJsvalue valueId : ApiM Cb Unit) := by
  intro s
  unfold ejrFreeJsvalue
  rw [wp_bind, wp_get, wp_bind]
  refine wp_mono (apart_onRt _ s trivial) ?_ (fun _ _ _ => trivial)
  intro _ m hm
  obtain ⟨⟨-, hclosed, hstored, hraised, hread⟩, -⟩ := hm
  exact .freed valueId rfl hclosed hstored hraised hread

theorem touch_ejrFree : DoesTouch (fun _ => .done) (ejrFree : ApiM Cb Unit) := by
  intro s
  unfold ejrFree
  rw [wp_bind, wp_get, wp_bind]
  refine wp_mono (apart_onRt _ s trivial) ?_ (fun _ _ _ => trivial)
  intro _ m hm
  obtain ⟨⟨-, -, hstored, hraised, hread⟩, -⟩ := hm
  exact .closed rfl rfl hstored hraised hread

/-- **Every call of the C API**, in one lemma. -/
theorem Call.touches (l : Call Cb) : DoesTouch id l.run := by
  cases l with
  | evalScript c => exact touch_map (touch_bind (apart_engine c) fun _ => touch_addValue _ _)
  | evalModule c => exact touch_map (touch_ejrEvalModule c)
  | evalFunction args getFunction call =>
    exact touch_map (touch_bind (apart_evalFunction _ _ _) fun _ => touch_addValue _ _)
  | evalClassFunction valueId args getFunction call =>
    exact touch_map (touch_ejrEvalClassFunction valueId args getFunction call)
  | getPropertyFrom valueId c => exact touch_map (touch_ejrGetPropertyFrom valueId c)
  | getFromGlobal c =>
    exact touch_map (touch_bind (apart_getFromGlobal c) fun _ => touch_addValue _ _)
  | awaitPromise valueId =>
    exact touch_map (touch_bind apart_get fun _ =>
      touch_bind (apart_awaitPromise _) fun _ => touch_addValue _ _)
  | valToString valueId => exact touch_map (touch_ejrValToString valueId)
  | jsargFromJsvalue depth value => exact touch_map (touch_jsargFromJsvalue depth value)
  | freeJsvalue valueId => exact touch_map (touch_ejrFreeJsvalue valueId)
  | registerCallback fnName cb setProperty =>
    exact touch_map (touch_of_apart (apart_registerCallback _ _ _) fun _ _ h => nomatch h)
  | registerModule moduleName methods =>
    exact touch_map (touch_of_apart (apart_registerModule _ _) fun _ _ h => nomatch h)
  | free => exact touch_map touch_ejrFree

end Ejr
