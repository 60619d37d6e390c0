import Ejr.CApi.Computes
import Ejr.CApi.Arguments
import Ejr.Crossing

/-!
# Scripts that call C functions

A script calls functions of the bridge one after the other and passes on what it
gets (`runScript`). On the way every value goes from JavaScript over C++ to the
C heap, and every answer the same way back. When the callbacks compute
functions on arguments, none of this is visible: the values of the script are
those of the same calls made directly, with every answer settled
(`script_computes`), whatever the script does between the calls as long as it
leaves the objects there are alone.

`invoke` is the trampoline with the wrapper of a C callback in it, on the engine
and the C heap; `Ejr.CApi.PureCallbacks` compares it with the trampoline of a handle
whose callbacks are functions. `handBack_spec` is about a value that a C program gets
out of the table and passes on.

Mirroring notes:
- The callback does not call the C API on the same handle.
- The function data of a trampoline are its name, as in `Ejr.Trampoline`.
- `fetchValue` looks for reads of freed bytes. That `from_js` releases a typed array
  of an unknown class twice is told in `Ejr.Releases`; here it counts as its text.
-/

namespace Ejr

open Lib

/-- `C_Callback`, with its `opaque`: what it does with its arguments. -/
abbrev CCallback := List Ptr → CM Ptr

/-! ## The call of one function -/

/-- A program on the engine. -/
def inEngine {α : Type} (p : EngineM α) : MachineM CCallback α := onHandle (onRt p)

/-- The machine with another runtime. -/
def Machine.withRt (s : Machine CCallback) (rt : Rt) : Machine CCallback :=
  { s with handle := { s.handle with rt := rt } }

theorem wp_inEngine {α : Type} {p : EngineM α} {s : Machine CCallback}
    {Q : α → Machine CCallback → Prop} {X : MStop → Machine CCallback → Prop} :
    wp (inEngine p) s Q X ↔
      wp p s.handle.rt (fun a t => Q a (s.withRt t)) (fun e t => X (.engine e) (s.withRt t)) := by
  rw [inEngine, wp_onHandle, wp_onRt]
  exact Iff.rfl

/-- The trampoline of the function `f`, with the wrapper that
`ejr_register_callback` or `ejr_register_module` has put around its callback. -/
def invoke (depth : Nat) (f : FnObject) (argv : List JSValue) : MachineM CCallback JSValue := do
  let s ← get
  let cppArgs ← inEngine (trampolineArgs depth argv)
  let cbnameCstr ← inEngine (jsToCString (.string f.funcData1))
  let cbName ← inEngine (stdString cbnameCstr)
  inEngine (jsFreeCString cbnameCstr)
  match s.handle.registry.callbacks cbName with
  | none => inEngine (own .undefined)
  | some cb => do
    let result ← onHeap (wrapper depth cb cppArgs)
    inEngine (toJs result)

section

variable {depth : Nat} {f : FnObject} {argv : List JSValue} {s t : Machine CCallback}
  {cb : CCallback}

/-- The runtime after the name of the callback has been read. -/
def afterName (f : FnObject) (rt : Rt) : Rt :=
  ((rt.ownedC (some (toCStringLen f.funcData1))).log [.readC rt.fresh]).log [.freeC rt.fresh]

theorem wp_invoke (hcb : s.handle.registry.callbacks f.cbName = some cb)
    {Q : JSValue → Machine CCallback → Prop} {X : MStop → Machine CCallback → Prop} :
    wp (invoke depth f argv) s Q X ↔
      wp (trampolineArgs depth argv) s.handle.rt
        (fun cppArgs rt => wp (wrapper depth cb cppArgs) s.heap
          (fun result heap => wp (toJs result) (afterName f rt)
            (fun v rt' => Q v { s.withRt rt' with heap := heap })
            (fun e rt' => X (.engine e) { s.withRt rt' with heap := heap }))
          (fun e heap => X (.memory e) { s.withRt (afterName f rt) with heap := heap }))
        (fun e rt => X (.engine e) (s.withRt rt)) := by
  have hcb' : s.handle.registry.callbacks (cstr (toCStringLen f.funcData1)) = some cb := hcb
  simp only [invoke, wp_bind, wp_get, wp_inEngine, wp_jsToCString, Heap.text_string,
    Outcome.get?_value, Option.map_some, wp_stdString_some, wp_jsFreeCString, hcb', wp_onHeap,
    Rt.raise_value, Option.toList_some, List.map_cons, List.map_nil]
  exact Iff.rfl

theorem wp_invoke_none (hcb : s.handle.registry.callbacks f.cbName = none)
    {Q : JSValue → Machine CCallback → Prop} {X : MStop → Machine CCallback → Prop} :
    wp (invoke depth f argv) s Q X ↔
      wp (trampolineArgs depth argv) s.handle.rt
        (fun _ rt => wp (own .undefined) (afterName f rt) (fun v rt' => Q v (s.withRt rt'))
          (fun e rt' => X (.engine e) (s.withRt rt')))
        (fun e rt => X (.engine e) (s.withRt rt)) := by
  have hcb' : s.handle.registry.callbacks (cstr (toCStringLen f.funcData1)) = none := hcb
  simp only [invoke, wp_bind, wp_get, wp_inEngine, wp_jsToCString, Heap.text_string,
    Outcome.get?_value, Option.map_some, wp_stdString_some, wp_jsFreeCString, hcb',
    Rt.raise_value, Option.toList_some, List.map_cons, List.map_nil]
  exact Iff.rfl

end

/-! ## A callback that computes -/

theorem Reads.settled {h : Heap} {dom : Addr → Prop} {a : JSArg} {v : JSVal}
    (hv : Reads h dom a v) : a.Settled := by
  obtain ⟨b, t, hok, rfl⟩ := exists_ok_of_wp
    (hv ⟨h, .uninitialized, [], 0⟩ (fun _ _ => rfl) 0 false (a.depth + 1) (Nat.lt_succ_self _))
  have hrun := received_fromJs (b.depth + 1) ⟨v, 0⟩ false ⟨h, .uninitialized, [], 0⟩
  exact (@wp_of_ok _ _ _ _ _ t b (fun b _ => Received b) _ hrun hok).settled

/-- The values `argv` are read as these arguments, by the objects there are. -/
def ReadsAll (h : Heap) (args : List JSArg) (argv : List JSValue) : Prop :=
  List.Forall₂ (fun a v => Reads h (· < h.next) a v.val) args argv

section

variable {h h' : Heap} {args : List JSArg} {argv : List JSValue}

theorem ReadsAll.grows (hargs : ReadsAll h args argv) (hg : h.Grows (fun _ => False) h') :
    ReadsAll h' args argv :=
  hargs.imp fun _ _ hv =>
    hv.frame (fun x hx => hg.obj x hx fun h => h) fun _ hx => Nat.lt_of_lt_of_le hx hg.next

theorem ReadsAll.settled (hargs : ReadsAll h args argv) : ∀ a ∈ args, a.Settled := by
  induction hargs with
  | nil => exact fun _ ha => absurd ha List.not_mem_nil
  | cons hv _ ih => exact List.forall_mem_cons.mpr ⟨hv.settled, ih⟩

/-- The loop over the arguments. -/
theorem trampolineArgs_reads {depth : Nat} (hargs : ReadsAll h args argv)
    (hdepth : ∀ a ∈ args, a.depth < depth) : ∀ s : Rt, s.heap = h →
    wp (trampolineArgs depth argv) s (fun cppArgs t => cppArgs = args ∧ t.heap = h)
      (fun _ _ => False) := by
  induction hargs with
  | nil => exact fun s hs => ⟨rfl, hs⟩
  | @cons a v args argv hv _ ih =>
    intro s hs
    obtain ⟨ha, hrest⟩ := List.forall_mem_cons.mp hdepth
    simp only [trampolineArgs, wp_bind, wp_pure]
    refine wp_mono (wp_and (hv s (fun x _ => by rw [hs]) v.ref false depth ha)
      (fromJs_heap depth v false s)) ?_ (fun _ _ h => h.1)
    intro b t hb
    obtain ⟨rfl, ht⟩ := hb
    refine wp_mono (ih hrest t (ht.trans hs)) ?_ (fun _ _ h => h)
    intro cppArgs u hu
    exact ⟨by rw [hu.1], hu.2⟩

end

/-- What a script gets of an answer. -/
def reply (g : List JSArg → JSArg) (args : List JSArg) : JSArg := (g args).truncated.settle

/-- A depth that is enough for a call. -/
def callDepth (g : List JSArg → JSArg) (args : List JSArg) : Nat :=
  (g args).weight + JSArg.weightItems args

theorem weight_le_of_mem {a : JSArg} : ∀ {items : List JSArg}, a ∈ items →
    a.weight ≤ JSArg.weightItems items
  | [], ha => absurd ha List.not_mem_nil
  | b :: rest, ha => by
    rw [JSArg.weightItems]
    rcases List.mem_cons.mp ha with rfl | ha
    · exact Nat.le_add_right _ _
    · exact Nat.le_trans (weight_le_of_mem ha) (Nat.le_add_left _ _)

/-- From `s` to `t` objects and blocks have been made; those there were, what is
registered, and the table of values are the same. -/
structure Machine.Grows (s t : Machine CCallback) : Prop where
  objects : s.handle.rt.heap.Grows (fun _ => False) t.handle.rt.heap
  blocks : s.heap.Grows (fun _ => False) t.heap
  registry : t.handle.registry = s.handle.registry
  table : t.handle.jsvad = s.handle.jsvad

theorem Machine.Grows.trans {s t u : Machine CCallback} (h : s.Grows t) (h' : t.Grows u) :
    s.Grows u :=
  ⟨h.objects.trans h'.objects, h.blocks.trans h'.blocks, h'.registry.trans h.registry,
    h'.table.trans h.table⟩

/-- **A call of a C function that computes `g`** gives the script what is left of
the answer of `g`, with a reference of its own. -/
theorem invoke_computes {s : Machine CCallback} {f : FnObject} {cb : CCallback}
    {g : List JSArg → JSArg} (hcb : s.handle.registry.callbacks f.cbName = some cb)
    (hg : Computes cb g) (hp : Pristine s.handle.rt.heap) {args : List JSArg}
    {argv : List JSValue} (hargs : ReadsAll s.handle.rt.heap args argv)
    (hempty : ∀ a ∈ args, a.NoEmptyArray) (hfits : (g args).truncated.Fits) {depth : Nat}
    (hdepth : callDepth g args ≤ depth) :
    wp (invoke depth f argv) s
      (fun v t => s.Grows t ∧
        Reads t.handle.rt.heap (· < t.handle.rt.heap.next) (reply g args) v.val ∧
        (v.val.hasRefCount = true → v.ref < t.handle.rt.fresh))
      (fun _ _ => False) := by
  rw [wp_invoke hcb]
  refine wp_mono (trampolineArgs_reads hargs (fun a ha => ?_) s.handle.rt rfl) ?_ (fun _ _ h => h)
  · have := depth_lt_weight a
    have := weight_le_of_mem ha
    unfold callDepth at hdepth
    omega
  intro cppArgs rt hrt
  obtain ⟨rfl, hheap⟩ := hrt
  refine wp_mono (wrapper_computes hg hargs.settled hempty hdepth s.heap) ?_ (fun _ _ h => h)
  intro result heap hresult
  obtain ⟨rfl, hblocks⟩ := hresult
  have hname : (afterName f rt).heap = s.handle.rt.heap := by simp [afterName, hheap]
  have hsend : Sends s.handle.rt.heap.next (g cppArgs).truncated := sends hfits
  refine wp_mono (wp_and (hsend (afterName f rt) (Nat.le_of_eq (by rw [hname]))
    (by rw [hname]; exact hp)) (toJs_taken _ (afterName f rt))) ?_ (fun _ _ h => h.1)
  intro v rt' hrt'
  obtain ⟨⟨hread, hgrows⟩, htaken⟩ := hrt'
  rw [hname] at hread hgrows
  refine ⟨⟨hgrows, hblocks, rfl, rfl⟩, hread.frame (fun _ _ => rfl) fun x hx => ?_, htaken⟩
  exact hx.lt hgrows.next

/-! ## Values that a C program hands back -/

/-- `jsarg_from_jsvalue`, where the table has the `last` reference to the value, or
somebody else has one as well. -/
def fetchValue (depth : Nat) (last : Bool) (value : Int32) : ApiM CCallback JSArg := do
  let s ← get
  match last with
  | true => lastHeld (fun s => s.rt.trace) (s.jsvad.get value).ref (jsargFromJsvalue depth value)
  | false => jsargFromJsvalue depth value

theorem wp_fetchValue {s : Handle CCallback} {value : Int32} (hpos : 0 ≤ value) {depth : Nat}
    {last : Bool} (htaken : (s.jsvad.get value).val.hasRefCount = true →
      (s.jsvad.get value).ref < s.rt.fresh) {Q : JSArg → Handle CCallback → Prop}
    {X : Stop → Handle CCallback → Prop} :
    wp (fetchValue depth last value) s Q X ↔
      wp (fromJs depth (s.jsvad.get value) true) s.rt
        (fun a t => if last && a.hasBytes then X .freedRead { s with rt := t }
          else Q a { s with rt := t })
        (fun e t => X e { s with rt := t }) := by
  rw [fetchValue, wp_bind, wp_get]
  cases last with
  | false =>
    simp only [jsargFromJsvalue, if_neg (Int32.not_lt.mpr hpos), wp_bind, wp_get, wp_onRt,
      Bool.false_and, Bool.false_eq_true, if_false]
  | true =>
    have hlast : wp (lastHeld Rt.trace (s.jsvad.get value).ref
        (fromJs depth (s.jsvad.get value) true)) s.rt (fun a t => Q a { s with rt := t })
        (fun e t => X e { s with rt := t }) ↔ _ := wp_lastHeld_fromJs htaken
    rw [wp_lastHeld] at hlast
    simp only [wp_lastHeld, jsargFromJsvalue, if_neg (Int32.not_lt.mpr hpos), wp_bind, wp_get,
      wp_onRt]
    exact hlast

/-- `jsarg_from_jsvalue`, and what `ejr_eval_function` passes to the function when
it is given the result as an argument. -/
def handBack (depth : Nat) (last : Bool) (value : Int32) : MachineM CCallback JSValue := do
  let ejrArg ← onHandle (fetchValue depth last value)
  let arg ← onHeap (ejrToJsarg ejrArg)
  let a ← onHeap (derefArg arg)
  let again ← onHeap (jsargToEjr depth a)
  inEngine (toJs again)

/-- **A value that C gets and passes on is the same for C++**: the function is
given a value that is read as what the first one is read as. Or the conversion to C
throws, exactly when there is an empty array in it; or the bytes of a typed array,
which nobody but the table had, are freed before they are read. Only a value that is
not an exception is read as an argument on its own. -/
theorem handBack_spec {s : Machine CCallback} (hp : Pristine s.handle.rt.heap) {value : Int32}
    (hpos : 0 ≤ value) {a : JSArg} (ha : Reads s.handle.rt.heap (· < s.handle.rt.heap.next) a
      (s.handle.jsvad.get value).val) (hfits : a.Fits) {depth : Nat} (hdepth : a.depth < depth)
    (last : Bool) (htaken : (s.handle.jsvad.get value).val.hasRefCount = true →
      (s.handle.jsvad.get value).ref < s.handle.rt.fresh) :
    wp (handBack depth last value) s
      (fun v t => (a.NoEmptyArray ∧ (last && a.hasBytes) = false) ∧ s.Grows t ∧
        Reads t.handle.rt.heap (· < t.handle.rt.heap.next) a v.val)
      (fun e _ => (¬a.NoEmptyArray ∧ e = .memory .badArrayNewLength) ∨
        ((last && a.hasBytes) = true ∧ e = .engine .freedRead)) := by
  have hsettled := ha.settled
  rw [handBack, wp_bind, wp_onHandle, wp_fetchValue hpos htaken]
  refine wp_mono (wp_and (ha s.handle.rt (fun _ _ => rfl) _ true depth hdepth)
    (fromJs_heap depth _ true s.handle.rt)) ?_ (fun _ _ h => h.1.elim)
  intro b rt hb
  obtain ⟨rfl, hheap⟩ := hb
  split
  next hfreed => exact .inr ⟨hfreed, rfl⟩
  next hkept =>
  rw [wp_bind, wp_onHeap]
  refine wp_mono (builds b s.heap) ?_ (fun e heap he => .inl ⟨he.1, by rw [he.2]⟩)
  intro arg heap harg
  obtain ⟨hempty, hblocks, x, c, rfl, -, hcx, hrep⟩ := harg
  rw [wp_bind, wp_onHeap, wp_derefArg hcx, wp_bind, wp_onHeap]
  refine wp_mono (jsargToEjr_rep b c hrep depth) ?_ (fun _ _ h => absurd h (Nat.not_le.mpr hdepth))
  intro again heap' hagain
  obtain ⟨rfl, rfl⟩ := hagain
  -- nothing was lost on the way, and nothing is left to settle
  rw [truncated_of_settled hsettled, wp_inEngine]
  have hsend : Sends s.handle.rt.heap.next b := sends hfits
  refine wp_mono (hsend rt (Nat.le_of_eq (by rw [hheap])) (by rw [hheap]; exact hp)) ?_
    (fun _ _ h => h.elim)
  intro v rt' hrt'
  obtain ⟨hread, hgrows⟩ := hrt'
  rw [hheap] at hread hgrows
  rw [(settle_eq_iff b).mpr hsettled] at hread
  refine ⟨⟨hempty, Bool.eq_false_of_not_eq_true hkept⟩, ⟨hgrows, hblocks, rfl, rfl⟩,
    hread.frame (fun _ _ => rfl) fun x hx => ?_⟩
  exact hx.lt hgrows.next

/-! ## Scripts -/

/-- A step of a script: it calls a function of the bridge with values it has, by
their numbers, or it does something else, which leaves the objects there are
alone. -/
inductive ScriptStep where
  | call (fn : FnId) (argv : List Nat)
  | work (effect : Heap → Heap) (grows : ∀ h : Heap, h.Grows (fun _ => False) (effect h))

/-- A value of the script; a variable without one is `undefined`. -/
def scriptValue (vals : List JSValue) (i : Nat) : JSValue := vals.getD i (borrowed .undefined)

/-- The steps, one after the other; every call adds a value. The call of a
function that does not exist throws, and ends the script. -/
def runScript (depth : Nat) : List ScriptStep → List JSValue → MachineM CCallback (List JSValue)
  | [], vals => pure vals
  | .work effect _ :: steps, vals => do
    modify fun s => s.withRt { s.handle.rt with heap := effect s.handle.rt.heap }
    runScript depth steps vals
  | .call fn argv :: steps, vals => do
    let s ← get
    match s.handle.registry.functions[fn]? with
    | none => pure vals
    | some f => do
      let v ← invoke depth f (argv.map (scriptValue vals))
      runScript depth steps (vals ++ [v])

/-- The same value as an argument. -/
def scriptArg (env : List JSArg) (i : Nat) : JSArg := env.getD i (.string (ascii "undefined"))

/-- What the script computes: its `n` functions are the first ones of `g`, called
directly, and their answers are settled. -/
def denote (g : FnId → List JSArg → JSArg) (n : Nat) : List ScriptStep → List JSArg → List JSArg
  | [], env => env
  | .work _ _ :: steps, env => denote g n steps env
  | .call fn argv :: steps, env =>
    if fn < n then denote g n steps (env ++ [reply (g fn) (argv.map (scriptArg env))]) else env

/-- No call is given an empty array, and every answer is within the limits of
the engine. -/
def Feasible (g : FnId → List JSArg → JSArg) (n : Nat) : List ScriptStep → List JSArg → Prop
  | [], _ => True
  | .work _ _ :: steps, env => Feasible g n steps env
  | .call fn argv :: steps, env =>
    if fn < n then
      (∀ i ∈ argv, (scriptArg env i).NoEmptyArray) ∧
        (g fn (argv.map (scriptArg env))).truncated.Fits ∧
        Feasible g n steps (env ++ [reply (g fn) (argv.map (scriptArg env))])
    else True

/-- The depth that is enough for all calls. -/
def scriptDepth (g : FnId → List JSArg → JSArg) (n : Nat) : List ScriptStep → List JSArg → Nat
  | [], _ => 0
  | .work _ _ :: steps, env => scriptDepth g n steps env
  | .call fn argv :: steps, env =>
    if fn < n then max (callDepth (g fn) (argv.map (scriptArg env)))
      (scriptDepth g n steps (env ++ [reply (g fn) (argv.map (scriptArg env))]))
    else 0

/-- Every function there is has a callback that computes its function of `g`. -/
def Serves (s : Machine CCallback) (g : FnId → List JSArg → JSArg) : Prop :=
  ∀ fn f, s.handle.registry.functions[fn]? = some f →
    ∃ cb, s.handle.registry.callbacks f.cbName = some cb ∧ Computes cb (g fn)

theorem reads_undefined (h : Heap) (dom : Addr → Prop) :
    Reads h dom (.string (ascii "undefined")) .undefined :=
  reads_primitive (by simp) fun _ _ => rfl

theorem ReadsAll.value {h : Heap} {env : List JSArg} {vals : List JSValue}
    (hvals : ReadsAll h env vals) (i : Nat) :
    Reads h (· < h.next) (scriptArg env i) (scriptValue vals i).val := by
  induction hvals generalizing i with
  | nil => exact reads_undefined h _
  | cons hv _ ih =>
    cases i with
    | zero => exact hv
    | succ i => exact ih i

theorem ReadsAll.values {h : Heap} {env : List JSArg} {vals : List JSValue}
    (hvals : ReadsAll h env vals) : ∀ argv : List Nat,
    ReadsAll h (argv.map (scriptArg env)) (argv.map (scriptValue vals))
  | [] => .nil
  | i :: argv => .cons (hvals.value i) (hvals.values argv)

theorem ReadsAll.snoc {h : Heap} {env : List JSArg} {vals : List JSValue} {a : JSArg} {v : JSValue}
    (hvals : ReadsAll h env vals) (hv : Reads h (· < h.next) a v.val) :
    ReadsAll h (env ++ [a]) (vals ++ [v]) := by
  induction hvals with
  | nil => exact .cons hv .nil
  | cons hw _ ih => exact .cons hw ih

/-- **A script over C functions computes what the functions do**: its values are
those of the same calls made directly, each answer settled, and the blocks that
were on the C heap before are still there. -/
theorem script_computes (g : FnId → List JSArg → JSArg) : ∀ (steps : List ScriptStep)
    (s : Machine CCallback) (env : List JSArg) (vals : List JSValue) (depth : Nat),
    Serves s g → Pristine s.handle.rt.heap → ReadsAll s.handle.rt.heap env vals →
    Feasible g s.handle.registry.functions.length steps env →
    scriptDepth g s.handle.registry.functions.length steps env ≤ depth →
    wp (runScript depth steps vals) s (fun vals' t => s.Grows t ∧
      ReadsAll t.handle.rt.heap (denote g s.handle.registry.functions.length steps env) vals')
      (fun _ _ => False)
  | [], s, env, vals, depth, _, _, hvals, _, _ => by
    rw [runScript, wp_pure]
    exact ⟨⟨Heap.Grows.refl _ _, Store.Grows.refl _ _, rfl, rfl⟩, hvals⟩
  | .work effect grows :: steps, s, env, vals, depth, hserves, hp, hvals, hfeasible, hdepth => by
    have hgrows := grows s.handle.rt.heap
    rw [runScript, wp_bind, wp_modify]
    refine wp_mono (script_computes g steps (s.withRt
      { s.handle.rt with heap := effect s.handle.rt.heap }) env vals depth hserves (hp.grows hgrows)
      (hvals.grows hgrows) hfeasible hdepth) ?_ (fun _ _ h => h)
    intro vals' t ht
    obtain ⟨⟨hobjects, hblocks, hregistry, htable⟩, hvals'⟩ := ht
    exact ⟨⟨hgrows.trans hobjects, hblocks, hregistry, htable⟩, hvals'⟩
  | .call fn argv :: steps, s, env, vals, depth, hserves, hp, hvals, hfeasible, hdepth => by
    rw [runScript, wp_bind, wp_get]
    rw [Feasible] at hfeasible
    rw [scriptDepth] at hdepth
    rw [denote]
    cases hf : s.handle.registry.functions[fn]? with
    | none =>
      have hge : ¬fn < s.handle.registry.functions.length :=
        Nat.not_lt_of_le (List.getElem?_eq_none_iff.mp hf)
      rw [if_neg hge]
      exact ⟨⟨Heap.Grows.refl _ _, Store.Grows.refl _ _, rfl, rfl⟩, hvals⟩
    | some f =>
      obtain ⟨hlt, -⟩ := List.getElem?_eq_some_iff.mp hf
      rw [if_pos hlt] at hfeasible hdepth ⊢
      obtain ⟨hempty, hfits, hrest⟩ := hfeasible
      obtain ⟨cb, hcb, hcomputes⟩ := hserves fn f hf
      show wp (do let v ← invoke depth f _; runScript depth steps (vals ++ [v])) s _ _
      rw [wp_bind]
      refine wp_mono (invoke_computes hcb hcomputes hp (hvals.values argv)
        (List.forall_mem_map.mpr hempty) hfits (Nat.le_trans (Nat.le_max_left _ _) hdepth)) ?_
        (fun _ _ h => h)
      intro v t ht
      obtain ⟨hgrows, hv, -⟩ := ht
      -- the same functions, and one value more
      have hserves' : Serves t g := by
        unfold Serves
        rw [hgrows.registry]
        exact hserves
      rw [← hgrows.registry] at hrest hdepth ⊢
      refine wp_mono (script_computes g steps t _ (vals ++ [v]) depth hserves'
        (hp.grows hgrows.objects) ((hvals.grows hgrows.objects).snoc hv) hrest
        (Nat.le_trans (Nat.le_max_right _ _) hdepth)) ?_ (fun _ _ h => h)
      intro vals' u hu
      exact ⟨hgrows.trans hu.1, hu.2⟩

/-- A callback that answers 5 computes a constant. -/
theorem computes_answersFive : Computes answersFive fun _ => .int 5 := by
  intro args ps u dom _ _
  exact ⟨.plain u.next, u.alloc (.arg (.int 5)), .int 5, rfl, fresh_five u, u.alloc_cell_self _, rfl⟩

/-- A new handle with one function. -/
def serving (fnName : Bytes) (cb : CCallback) : Machine CCallback :=
  let new : Handle CCallback := .new 0 .initial 0
  ⟨{ new with registry := new.registry.registerCallback fnName cb }, .empty⟩

theorem serves_serving {fnName : Bytes} {cb : CCallback} {g : List JSArg → JSArg}
    (hname : Stable fnName) (hcb : Computes cb g) : Serves (serving fnName cb) fun _ => g := by
  intro fn f hf
  have hfunctions : (serving fnName cb).handle.registry.functions =
      [⟨newString fnName, .global fnName⟩] := rfl
  rw [hfunctions] at hf
  obtain rfl : f = ⟨newString fnName, .global fnName⟩ :=
    List.mem_singleton.mp (List.mem_of_getElem? hf)
  refine ⟨cb, ?_, hcb⟩
  have hkey : FnObject.cbName ⟨newString fnName, .global fnName⟩ = fnName := hname
  rw [hkey]
  exact Function.update_self ..

theorem pristine_serving (fnName : Bytes) (cb : CCallback) :
    Pristine (serving fnName cb).handle.rt.heap := pristine_initial

theorem serving_functions (fnName : Bytes) (cb : CCallback) :
    (serving fnName cb).handle.registry.functions.length = 1 := rfl

/-- `let x = f(); let y = f(x, z)`, where `f` answers 5. -/
theorem script_computes_five : ∃ s : Machine CCallback,
    wp (runScript 4 [.call 0 [], .call 0 [0, 7]] []) s
      (fun vals t => s.Grows t ∧ ReadsAll t.handle.rt.heap [.int 5, .int 5] vals)
      (fun _ _ => False) := by
  obtain ⟨s, hserves, hp, hlen⟩ : ∃ s : Machine CCallback, (Serves s fun _ _ => .int 5) ∧
      Pristine s.handle.rt.heap ∧ s.handle.registry.functions.length = 1 :=
    ⟨serving (ascii "f") answersFive,
      serves_serving (stable_of_ascii (by decide +kernel)) computes_answersFive,
      pristine_serving _ _, serving_functions _ _⟩
  refine ⟨s, ?_⟩
  have hempty : ∀ i ∈ [0, 7], (scriptArg [.int 5] i).NoEmptyArray := by
    simp [scriptArg, JSArg.NoEmptyArray, JSArg.All]
  have h := script_computes (fun _ _ => .int 5) [.call 0 [], .call 0 [0, 7]] s [] [] 4 hserves hp
    .nil (by rw [hlen]; exact ⟨by simp, trivial, hempty, trivial, trivial⟩)
    (by rw [hlen]; simp [scriptDepth, callDepth, scriptArg, JSArg.weight, JSArg.weightItems, reply,
      JSArg.truncated, JSArg.settle])
  rwa [hlen] at h

/-- There is a machine whose table has, under 0, a value that is read as `a`. -/
theorem exists_holding {a : JSArg} (ha : a.Fits) (hsettled : a.Settled) :
    ∃ s : Machine CCallback, Pristine s.handle.rt.heap ∧
      Reads s.handle.rt.heap (· < s.handle.rt.heap.next) a (s.handle.jsvad.get 0).val ∧
      ((s.handle.jsvad.get 0).val.hasRefCount = true →
        (s.handle.jsvad.get 0).ref < s.handle.rt.fresh) := by
  obtain ⟨v, t, -, ⟨hread, hgrows⟩, htaken⟩ := exists_ok_of_wp (wp_mono
    (wp_and (sends ha .initial (Nat.le_refl _) pristine_initial) (toJs_taken a .initial))
    (fun _ _ h => h) fun _ _ h => h.1)
  rw [(settle_eq_iff a).mpr hsettled] at hread
  let new : Handle CCallback := .new 0 .initial 0
  have hget : ((JSValueAD.new).addValue v).get 0 = v := rfl
  refine ⟨⟨{ new with rt := t, jsvad := JSValueAD.new.addValue v }, .empty⟩,
    pristine_initial.grows hgrows, ?_, ?_⟩
  · rw [hget]
    exact hread.frame (fun _ _ => rfl) fun x hx => hx.lt hgrows.next
  · rw [hget]
    exact htaken

/-- When the table has the last reference, a typed array is passed on inside an array and
not on its own. -/
theorem handBack_spec_typedArray :
    (∃ (s t : Machine CCallback) (v : JSValue), handBack 2 true 0 s = .ok v t ∧
      Reads t.handle.rt.heap (· < t.handle.rt.heap.next)
        (.array [.int 7, .typedArray ⟨.int8, [3]⟩]) v.val) ∧
    ∃ s t : Machine CCallback, handBack 1 true 0 s = .error (.engine .freedRead) t := by
  constructor
  · have hfits : (JSArg.array [.int 7, .typedArray ⟨.int8, [3]⟩]).Fits :=
      ⟨by decide, trivial, fits_byte, trivial⟩
    have hfull : (JSArg.array [.int 7, .typedArray ⟨.int8, [3]⟩]).NoEmptyArray :=
      ⟨by simp, trivial, trivial, trivial⟩
    obtain ⟨s, hp, hread, htaken⟩ := exists_holding hfits ⟨trivial, trivial, trivial, trivial⟩
    have h := handBack_spec hp (by decide) hread hfits (by decide : _ < 2) true htaken
    cases hrun : handBack 2 true 0 s with
    | ok v t => exact ⟨s, t, v, hrun, ((wp_iff_of_ok hrun).mp h).2.2⟩
    | error e t =>
      rcases (wp_iff_of_error hrun).mp h with ⟨hempty, -⟩ | ⟨hfreed, -⟩
      · exact absurd hfull hempty
      · exact Bool.noConfusion hfreed
  · have hfull : (JSArg.typedArray ⟨.int8, [3]⟩).NoEmptyArray := trivial
    obtain ⟨s, hp, hread, htaken⟩ := exists_holding fits_byte trivial
    have h := handBack_spec hp (by decide) hread fits_byte (by decide : _ < 1) true htaken
    cases hrun : handBack 1 true 0 s with
    | ok v t => exact Bool.noConfusion ((wp_iff_of_ok hrun).mp h).1.2
    | error e t =>
      rcases (wp_iff_of_error hrun).mp h with ⟨hempty, -⟩ | ⟨-, rfl⟩
      · exact absurd hfull hempty
      · exact ⟨s, t, hrun⟩

end Ejr
