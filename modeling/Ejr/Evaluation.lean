import Ejr.Lib.Wp
import Ejr.Registry

/-!
# Linking and evaluating modules

What `JS_EvalFunctionInternal` does with a module once all it imports has been
loaded: `js_link_module` and `js_evaluate_module`. Both go through the requests
depth first and keep the modules they have come to on a stack until the cycles
these are in are complete.

Mirroring notes:
- A request leads to a module, or nowhere (null, or memory that is gone).
- Whether the imports of a module can be bound, and what its code does, is up to
  everything that has been run before (`Realm`). Running code evaluates no
  modules: a dynamic import only enqueues a job; callbacks that evaluate a module
  in the middle of an evaluation are left out.
- Nothing in the repository executes pending jobs. So what has been started
  asynchronously is never continued, and `js_async_module_execution_fulfilled`
  and its like are not run.
- `stack_prev` makes a list of the stack.
- An exhausted stack throws, and an assertion that fails stops the process.
-/

namespace Ejr

open Lib

/-- `JSModuleStatus`. -/
inductive ModuleStatus where
  | unlinked
  | linking
  | linked
  | evaluating
  | evaluatingAsync
  | evaluated
  deriving DecidableEq

/-- What has become of the promise of an evaluation. -/
inductive Settlement (E : Type) where
  | pending
  | fulfilled
  | rejected (e : E)

/-- What linking and evaluation keep in a `JSModuleDef`; `evalException` when
`eval_has_exception`. -/
structure ModuleState (E : Type) where
  status : ModuleStatus
  dfsIndex : Nat
  dfsAncestorIndex : Nat
  pendingAsyncDependencies : Nat
  asyncEvaluation : Bool
  asyncEvaluationTimestamp : Nat
  asyncParentModules : List DefId
  cycleRoot : Option DefId
  evalException : Option E
  promise : Option (Settlement E)

/-- What running a module's code has come to. -/
inductive Ran (E : Type) where
  | completed
  | threw (e : E)
  | started

/-- The modules, the stack of the search, and what has been run. -/
structure Evaluation (E : Type) where
  mods : DefId → ModuleState E
  stackTop : List DefId
  nextTimestamp : Nat
  log : List (DefId × Ran E)

/-- What linking and evaluation find: where requests lead, which modules have a
top-level await, why imports of a module cannot be bound, what its code throws. -/
structure Realm (E : Type) where
  reqModules : DefId → List (Option DefId)
  hasTla : DefId → Bool
  instantiate : List (DefId × Ran E) → DefId → Option E
  execute : List (DefId × Ran E) → DefId → Option E
  stackOverflow : E

/-- How linking and evaluation can stop the process. -/
inductive EvalStop where
  | assertion
  | nullModule
  deriving DecidableEq

/-- A program that links and evaluates. -/
abbrev EvalM (E : Type) := EStateM EvalStop (Evaluation E)

variable {E : Type}

/-- `js_mallocz` of a module. -/
def ModuleState.new : ModuleState E := ⟨.unlinked, 0, 0, 0, false, 0, [], none, none, none⟩

namespace Evaluation

/-! ## The modules and the stack -/

/-- No module has been linked. -/
def new : Evaluation E := ⟨fun _ => .new, [], 0, []⟩

/-- `assert`. -/
def assert (p : Prop) [Decidable p] : EvalM E Unit := if p then pure () else throw .assertion

/-- What a pointer to a module leads to. -/
def follow : Option DefId → EvalM E DefId
  | some m => pure m
  | none => throw .nullModule

def getModule (m : DefId) : EvalM E (ModuleState E) := do
  let s ← get
  return s.mods m

def setModule (m : DefId) (f : ModuleState E → ModuleState E) : EvalM E Unit :=
  modify fun s => { s with mods := Function.update s.mods m (f (s.mods m)) }

/-- `m->stack_prev = *pstack_top; *pstack_top = m`. -/
def push (m : DefId) : EvalM E Unit := modify fun s => { s with stackTop := m :: s.stackTop }

/-- `m->dfs_ancestor_index = min_int(m->dfs_ancestor_index, m1->dfs_ancestor_index)`. -/
def lower (m m1 : DefId) : EvalM E Unit := do
  let d1 ← getModule m1
  setModule m fun d => { d with dfsAncestorIndex := min d.dfsAncestorIndex d1.dfsAncestorIndex }

/-- The loop that pops a cycle up to its root `m`. -/
def popCycle (f : ModuleState E → ModuleState E) (m : DefId) : List DefId → EvalM E Unit
  | [] => throw .nullModule
  | m1 :: stack => do
    modify fun s => { s with stackTop := stack }
    setModule m1 f
    if m1 = m then pure () else popCycle f m stack

/-- The end of a visit: a module that leads to nothing below itself is popped. -/
def leave (f : ModuleState E → ModuleState E) (m : DefId) : EvalM E Unit := do
  let d ← getModule m
  assert (d.dfsAncestorIndex ≤ d.dfsIndex)
  if d.dfsIndex = d.dfsAncestorIndex then do
    let s ← get
    popCycle f m s.stackTop

/-- The loop over the stack after a failure. -/
def unwind (status : ModuleStatus) (f : ModuleState E → ModuleState E) :
    List DefId → EvalM E Unit
  | [] => pure ()
  | m1 :: stack => do
    let d1 ← getModule m1
    assert (d1.status = status)
    setModule m1 f
    modify fun s => { s with stackTop := stack }
    unwind status f stack

/-! ## Linking -/

/-- The loop of `js_inner_module_linking` over the requests. -/
def linkRequests (visit : DefId → Nat → EvalM E (Except E Nat)) (m : DefId) :
    List (Option DefId) → Nat → EvalM E (Except E Nat)
  | [], index => pure (.ok index)
  | rme :: rest, index => do
    let m1 ← follow rme
    match ← visit m1 index with
    | .error e => pure (.error e)
    | .ok index => do
      let d1 ← getModule m1
      assert (d1.status = .linking ∨ d1.status = .linked ∨ d1.status = .evaluatingAsync ∨
        d1.status = .evaluated)
      if d1.status = .linking then lower m m1
      linkRequests visit m rest index

/-- `js_inner_module_linking`; the imports are bound where `instantiate` says they can be. -/
def innerModuleLinking (r : Realm E) : Nat → DefId → Nat → EvalM E (Except E Nat)
  | 0, _, _ => pure (.error r.stackOverflow)
  | n + 1, m, index => do
    let d ← getModule m
    if d.status = .linking ∨ d.status = .linked ∨ d.status = .evaluatingAsync ∨
        d.status = .evaluated then pure (.ok index)
    else do
      assert (d.status = .unlinked)
      setModule m fun d =>
        { d with status := .linking, dfsIndex := index, dfsAncestorIndex := index }
      push m
      match ← linkRequests (innerModuleLinking r n) m (r.reqModules m) (index + 1) with
      | .error e => pure (.error e)
      | .ok index => do
        let s ← get
        match r.instantiate s.log m with
        | some e => pure (.error e)
        | none => do
          leave (fun d => { d with status := .linked }) m
          pure (.ok index)

/-- `js_link_module`: the exception, if there is one. -/
def linkModule (r : Realm E) (n : Nat) (m : DefId) : EvalM E (Option E) := do
  let d ← getModule m
  assert (d.status = .unlinked ∨ d.status = .linked ∨ d.status = .evaluatingAsync ∨
    d.status = .evaluated)
  modify fun s => { s with stackTop := [] }
  match ← innerModuleLinking r n m 0 with
  | .error e => do
    let s ← get
    unwind .linking (fun d => { d with status := .unlinked }) s.stackTop
    pure (some e)
  | .ok _ => do
    let s ← get
    assert (s.stackTop = [])
    let d ← getModule m
    assert (d.status = .linked ∨ d.status = .evaluatingAsync ∨ d.status = .evaluated)
    pure none

/-! ## Evaluating -/

/-- `js_execute_sync_module`, and `js_execute_async_module`: the module's code is run. -/
def executeModule (m : DefId) (outcome : Ran E) : EvalM E Unit :=
  modify fun s => { s with log := s.log ++ [(m, outcome)] }

/-- A module begins to be evaluated asynchronously. -/
def beginAsync (m : DefId) : EvalM E Unit := do
  let d ← getModule m
  assert (d.asyncEvaluation = false)
  let s ← get
  setModule m fun d =>
    { d with asyncEvaluation := true, asyncEvaluationTimestamp := s.nextTimestamp }
  modify fun s => { s with nextTimestamp := s.nextTimestamp + 1 }

/-- A module waits for a request that is evaluated asynchronously. -/
def addDependency (m m1 : DefId) : EvalM E Unit := do
  let d1 ← getModule m1
  if d1.asyncEvaluation then do
    setModule m fun d => { d with pendingAsyncDependencies := d.pendingAsyncDependencies + 1 }
    setModule m1 fun d => { d with asyncParentModules := d.asyncParentModules ++ [m] }

/-- The loop of `js_inner_module_evaluation` over the requests. -/
def evaluateRequests (visit : DefId → Nat → EvalM E (Except E Nat)) (m : DefId) :
    List (Option DefId) → Nat → EvalM E (Except E Nat)
  | [], index => pure (.ok index)
  | rme :: rest, index => do
    let m1 ← follow rme
    match ← visit m1 index with
    | .error e => pure (.error e)
    | .ok index => do
      let d1 ← getModule m1
      assert (d1.status = .evaluating ∨ d1.status = .evaluatingAsync ∨ d1.status = .evaluated)
      if d1.status = .evaluating then do
        lower m m1
        addDependency m m1
        evaluateRequests visit m rest index
      else do
        let m1 ← follow d1.cycleRoot
        let d1 ← getModule m1
        assert (d1.status = .evaluatingAsync ∨ d1.status = .evaluated)
        match d1.evalException with
        | some e => pure (.error e)
        | none => do
          addDependency m m1
          evaluateRequests visit m rest index

/-- What is done with a module whose requests have been evaluated: its code is run, unless
it has to wait. -/
def runModule (r : Realm E) (m : DefId) : EvalM E (Option E) := do
  let d ← getModule m
  if 0 < d.pendingAsyncDependencies then do
    beginAsync m
    pure none
  else if r.hasTla m then do
    beginAsync m
    executeModule m .started
    pure none
  else do
    let s ← get
    match r.execute s.log m with
    | some e => do
      executeModule m (.threw e)
      pure (some e)
    | none => do
      executeModule m .completed
      pure none

/-- `js_inner_module_evaluation`. -/
def innerModuleEvaluation (r : Realm E) : Nat → DefId → Nat → EvalM E (Except E Nat)
  | 0, _, _ => pure (.error r.stackOverflow)
  | n + 1, m, index => do
    let d ← getModule m
    if d.status = .evaluatingAsync ∨ d.status = .evaluated then
      match d.evalException with
      | some e => pure (.error e)
      | none => pure (.ok index)
    else if d.status = .evaluating then pure (.ok index)
    else do
      assert (d.status = .linked)
      setModule m fun d =>
        { d with
          status := .evaluating
          dfsIndex := index
          dfsAncestorIndex := index
          pendingAsyncDependencies := 0 }
      push m
      match ← evaluateRequests (innerModuleEvaluation r n) m (r.reqModules m) (index + 1) with
      | .error e => pure (.error e)
      | .ok index => do
        match ← runModule r m with
        | some e => pure (.error e)
        | none => do
          leave (fun d =>
            { d with
              status := if d.asyncEvaluation then .evaluatingAsync else .evaluated
              cycleRoot := some m }) m
          pure (.ok index)

/-- The part of `js_evaluate_module` that is for a module without a promise. -/
def evaluateRoot (r : Realm E) (n : Nat) (m : DefId) : EvalM E Unit := do
  setModule m fun d => { d with promise := some .pending }
  modify fun s => { s with stackTop := [] }
  match ← innerModuleEvaluation r n m 0 with
  | .error e => do
    let s ← get
    unwind .evaluating (fun d =>
      { d with status := .evaluated, evalException := some e, cycleRoot := some m }) s.stackTop
    let d ← getModule m
    assert (d.status = .evaluated)
    match d.evalException with
    | none => throw .assertion
    | some e => setModule m fun d => { d with promise := some (.rejected e) }
  | .ok _ => do
    let d ← getModule m
    assert (d.status = .evaluatingAsync ∨ d.status = .evaluated)
    assert (d.evalException.isNone = true)
    if d.asyncEvaluation then pure ()
    else do
      assert (d.status = .evaluated)
      setModule m fun d => { d with promise := some .fulfilled }
    let s ← get
    assert (s.stackTop = [])

/-- `js_evaluate_module`: the module whose promise it returns. -/
def evaluateModule (r : Realm E) (n : Nat) (m : DefId) : EvalM E DefId := do
  let d ← getModule m
  assert (d.status = .linked ∨ d.status = .evaluatingAsync ∨ d.status = .evaluated)
  let m ← if d.status = .evaluatingAsync ∨ d.status = .evaluated then follow d.cycleRoot
    else pure m
  let d ← getModule m
  -- a promise may be created only on the root of a cycle
  if d.promise.isSome then pure m
  else do
    evaluateRoot r n m
    pure m

/-- `JS_EvalFunctionInternal` of a module: its promise, or the exception that linking
has thrown; `n` and `k` are how deep the two can go. -/
def evalFunction (r : Realm E) (n k : Nat) (m : DefId) : EvalM E (Except E DefId) := do
  match ← linkModule r n m with
  | some e => pure (.error e)
  | none => do
    let root ← evaluateModule r k m
    pure (.ok root)

/-! ## The single steps -/

section

variable {s : Evaluation E} {m : DefId} {X : EvalStop → Evaluation E → Prop}

theorem wp_assert {p : Prop} [Decidable p] {Q : Unit → Evaluation E → Prop} (h : p) :
    wp (assert p) s Q X ↔ Q () s := by
  rw [assert, if_pos h, wp_pure]

@[simp] theorem wp_follow {Q : DefId → Evaluation E → Prop} :
    wp (follow (some m)) s Q X ↔ Q m s := Iff.rfl

@[simp] theorem wp_getModule {Q : ModuleState E → Evaluation E → Prop} :
    wp (getModule m) s Q X ↔ Q (s.mods m) s := Iff.rfl

@[simp] theorem wp_setModule {f : ModuleState E → ModuleState E}
    {Q : Unit → Evaluation E → Prop} : wp (setModule m f) s Q X ↔
      Q () { s with mods := Function.update s.mods m (f (s.mods m)) } := Iff.rfl

@[simp] theorem wp_push {Q : Unit → Evaluation E → Prop} :
    wp (push m) s Q X ↔ Q () { s with stackTop := m :: s.stackTop } := Iff.rfl

@[simp] theorem wp_executeModule {outcome : Ran E} {Q : Unit → Evaluation E → Prop} :
    wp (executeModule m outcome) s Q X ↔ Q () { s with log := s.log ++ [(m, outcome)] } := Iff.rfl

end

end Evaluation

end Ejr
