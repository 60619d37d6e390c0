import Ejr.CApi.Free
import Ejr.CApi.Handle

/-!
# The arguments of a call

`ejr_eval_function` and `ejr_eval_class_function` (src/ejr_c_api.cpp) with the
arguments where a C program has them, on the heap: they are read, the function is
called with copies, and then they are freed, if the call gets that far.
`consumes_iff` says when it does.

Mirroring notes:
- `Machine` is a handle with the C heap beside it. What callbacks do with blocks
  of their own while the function runs is not part of it.
- `ejrEvalFunction` and `ejrEvalClassFunction` of `Ejr.CApi.Handle` are the same
  functions without the heap (`run_converted`).
- `handle` is not NULL here, and neither are the members it leads to.
-/

namespace Ejr

open Lib EasyJSR Layout

/-! ## A handle and the C heap -/

/-- What a C program works on. -/
structure Machine (Cb : Type) where
  handle : Handle Cb
  heap : CHeap

/-- Why a call does not return: what happens in the engine, or in C. -/
inductive MStop where
  | engine (e : Stop)
  | memory (e : CStop)

/-- A program on both. -/
abbrev MachineM (Cb : Type) := EStateM MStop (Machine Cb)

variable {Cb : Type} {α : Type}

/-- A program on the handle. -/
def onHandle (p : ApiM Cb α) : MachineM Cb α := fun s =>
  match p s.handle with
  | .ok a t => .ok a { s with handle := t }
  | .error e t => .error (.engine e) { s with handle := t }

/-- A program on the heap. -/
def onHeap (p : CM α) : MachineM Cb α := fun s =>
  match p s.heap with
  | .ok a t => .ok a { s with heap := t }
  | .error e t => .error (.memory e) { s with heap := t }

section

variable {s : Machine Cb} {Q : α → Machine Cb → Prop} {X : MStop → Machine Cb → Prop}

theorem wp_onHandle {p : ApiM Cb α} : wp (onHandle p) s Q X ↔
    wp p s.handle (fun a t => Q a { s with handle := t })
      (fun e t => X (.engine e) { s with handle := t }) := by
  unfold wp onHandle
  cases p s.handle <;> rfl

theorem wp_onHeap {p : CM α} : wp (onHeap p) s Q X ↔
    wp p s.heap (fun a t => Q a { s with heap := t })
      (fun e t => X (.memory e) { s with heap := t }) := by
  unfold wp onHeap
  cases p s.heap <;> rfl

end

/-! ## The functions -/

/-- The loop `ejr_jsargs.push_back(jsarg_to_ejr(*args[i]))`. -/
def argsToEjr (depth args argCount : Nat) : CM (List JSArg) :=
  jsargToEjrItems (jsargToEjr depth) args 0 argCount

/-- The common part of the two functions: `call` is given the converted
arguments, and `thrown` is kept as history. -/
def callWithArgs (depth args argCount : Nat) (call : List JSArg → ApiM Cb JSValue)
    (thrown : Option JSVal) : MachineM Cb Int32 := do
  let ejrJsargs ← onHeap (argsToEjr depth args argCount)
  let value ← onHandle (call ejrJsargs)
  onHeap (jsargFreeAll depth (some args) argCount)
  onHandle (addValue value thrown)

/-- The two functions of the C API that are given arguments. -/
inductive ArgCall where
  | evalFunction
  | evalClassFunction (valueId : Int32)

namespace ArgCall

/-- The call, with its arguments on the heap. -/
def run (depth : Nat) (args : Ptr) (argCount : Nat) (getFunction call : Completion Cb)
    (f : ArgCall) : MachineM Cb Int32 :=
  match args, f with
  | none, _ => pure (-1)
  | some args, .evalFunction =>
    callWithArgs depth args argCount (EasyJSR.evalFunction · getFunction call) call.result.thrown
  | some args, .evalClassFunction valueId => do
    let s ← get
    match (s.handle.jsvad.get valueId).val with
    | .undefined => pure (-1)
    | _ =>
      callWithArgs depth args argCount (EasyJSR.evalClassFunction · getFunction call)
        call.result.thrown

/-- The call, with converted arguments. -/
def converted (args : List JSArg) (getFunction call : Completion Cb) : ArgCall → ApiM Cb Int32
  | .evalFunction => ejrEvalFunction args getFunction call
  | .evalClassFunction valueId => ejrEvalClassFunction valueId args getFunction call

/-- The function is called: it is a function of the global object, or a method
of a live value that is not undefined. -/
def Calls (s : Handle Cb) : ArgCall → Prop
  | .evalFunction => True
  | .evalClassFunction valueId => (s.jsvad.get valueId).val ≠ .undefined

end ArgCall

/-! ## Arguments on the heap -/

/-- A list of arguments at `args`, with these layouts; no block belongs to two. -/
structure ListAt (h : CHeap) (args : Nat) (layouts : List Layout) : Prop where
  slots : h.cell args = some (.items (layouts.map (some ·.root)))
  on : ∀ L ∈ layouts, L.On h
  nodup : (args :: blocksItems layouts).Nodup

section

variable {h : CHeap} {args depth : Nat} {layouts : List Layout}

/-- They can be read. -/
theorem ListAt.read (hat : ListAt h args layouts) (hdepth : (blocksItems layouts).length ≤ depth) :
    wp (argsToEjr depth args layouts.length) h (fun _ t => t = h) (fun _ _ => False) := by
  refine wp_jsargToEjrItems hat.slots layouts 0 (fun L hL => ?_) ?_
  · obtain ⟨a, ha, hread⟩ := jsargToEjr_on L (hat.on L hL)
    have hle := (blocks_sublist_items hL).length_le
    exact ⟨a, ha, hread depth (by omega)⟩
  · rw [List.drop_zero, List.take_of_length_le (by simp)]

/-- `jsarg_free_all` gives back the list and what `jsarg_free` gives back of
each argument. -/
theorem ListAt.freeAll (hat : ListAt h args layouts)
    (hdepth : (blocksItems layouts).length ≤ depth) :
    wp (jsargFreeAll depth (some args) layouts.length) h
      (fun _ t => t = h.without (args :: freedItems layouts)) (fun _ _ => False) := by
  obtain ⟨hnot, hnodup⟩ := List.nodup_cons.mp hat.nodup
  have hfree : ∀ L ∈ layouts, Frees (freeUnlessNull depth) L := fun L hL => by
    have hle := (blocks_sublist_items hL).length_le
    exact frees_jsargFree L depth (by omega)
  have hslots : ((layouts.map (some ·.root)).drop 0).take layouts.length =
      layouts.map (some ·.root) := by
    rw [List.drop_zero, List.take_of_length_le (by simp)]
  rw [jsargFreeAll, wp_bind]
  refine wp_mono (wp_jsargFreeItems layouts 0 h hfree hat.slots hslots hat.on hnot hnodup) ?_
    (fun _ _ h => h)
  intro _ t ht
  subst ht
  have hsub := (freedItems_sublist fun L (_ : L ∈ layouts) => L.freed_sublist).subset
  have hargs : (h.without (freedItems layouts)).cell args =
      some (.items (layouts.map (some ·.root))) := by
    rw [h.without_cell_of_not_mem fun hmem => hnot (hsub hmem), hat.slots]
  rw [wp_delete (by rw [hargs]; rfl), Store.without_without]
  exact h.without_congr _ fun x => by simp [or_comm]

/-- All is given back exactly when no argument has an exception in it. -/
theorem ListAt.freed_all_iff (hat : ListAt h args layouts) :
    h.without (args :: freedItems layouts) = h.without (args :: blocksItems layouts) ↔
      ∀ L ∈ layouts, L.NoException := by
  obtain ⟨hnot, hnodup⟩ := List.nodup_cons.mp hat.nodup
  constructor
  · intro hwithout
    -- what is not given back still lives
    refine noException_of_freed hnodup fun x hx => ?_
    obtain ⟨L, hL, hxL⟩ := mem_blocksItems.mp hx
    have hlive := (hat.on L hL).live x hxL
    have hdead : (h.without (args :: freedItems layouts)).cell x = none := by
      rw [hwithout, h.without_cell_of_mem (List.mem_cons_of_mem _ hx)]
    by_cases hfreed : x ∈ args :: freedItems layouts
    · rcases List.mem_cons.mp hfreed with rfl | hfreed
      · exact absurd hx hnot
      · exact hfreed
    · rw [h.without_cell_of_not_mem hfreed] at hdead
      rw [hdead] at hlive
      exact absurd hlive (by simp)
  · intro hno
    rw [freedItems_of_noException hno]

end

/-! ## The same call without a heap -/

theorem onHandle_eq_ok {p : ApiM Cb α} {s t : Machine Cb} {a : α} (h : onHandle p s = .ok a t) :
    p s.handle = .ok a t.handle := by
  unfold onHandle at h
  cases hp : p s.handle with
  | ok b u =>
    rw [hp] at h
    cases h
    rfl
  | error e u =>
    rw [hp] at h
    exact nomatch h

theorem onHeap_eq_ok {p : CM α} {s t : Machine Cb} {a : α} (h : onHeap p s = .ok a t) :
    t.handle = s.handle := by
  unfold onHeap at h
  cases hp : p s.heap with
  | ok b u =>
    rw [hp] at h
    cases h
    rfl
  | error e u =>
    rw [hp] at h
    exact nomatch h

theorem callWithArgs_converted {s t : Machine Cb} {depth args argCount : Nat}
    {run : List JSArg → ApiM Cb JSValue} {thrown : Option JSVal} {id : Int32}
    (hrun : callWithArgs depth args argCount run thrown s = .ok id t) : ∃ ejrJsargs,
      (do let value ← run ejrJsargs; addValue value thrown : ApiM Cb Int32) s.handle =
        .ok id t.handle := by
  obtain ⟨ejrJsargs, s1, hread, hrun⟩ := bind_eq_ok hrun
  obtain ⟨value, s2, hcall, hrun⟩ := bind_eq_ok hrun
  obtain ⟨_, s3, hfree, hadd⟩ := bind_eq_ok hrun
  have hcall' := onHandle_eq_ok hcall
  rw [onHeap_eq_ok hread] at hcall'
  have hadd' := onHandle_eq_ok hadd
  rw [onHeap_eq_ok hfree] at hadd'
  exact ⟨ejrJsargs, by rw [bind_of_ok hcall', hadd']⟩

/-- A call that returns has returned -1 at once, or what it returns for the
arguments it has read, and has left the handle as that does. -/
theorem ArgCall.run_converted {f : ArgCall} {s t : Machine Cb} {args : Ptr} {depth argCount : Nat}
    {getFunction call : Completion Cb} {id : Int32}
    (hrun : f.run depth args argCount getFunction call s = .ok id t) :
    id = -1 ∧ t = s ∨ ∃ ejrJsargs,
      f.converted ejrJsargs getFunction call s.handle = .ok id t.handle := by
  cases args with
  | none =>
    cases hrun
    exact .inl ⟨rfl, rfl⟩
  | some args =>
    cases f with
    | evalFunction => exact .inr (callWithArgs_converted hrun)
    | evalClassFunction valueId =>
      have hends : wp (ArgCall.run depth (some args) argCount getFunction call
          (.evalClassFunction valueId)) s (fun id t => id = -1 ∧ t = s ∨ ∃ ejrJsargs,
            (converted ejrJsargs getFunction call (.evalClassFunction valueId)) s.handle =
              .ok id t.handle) (fun _ _ => True) := by
        rw [run, wp_bind, wp_get]
        split
        next => exact .inl ⟨rfl, rfl⟩
        next hne =>
          -- the same check is made again behind the conversion
          refine wp_mono (wp_self _ s) ?_ (fun _ _ _ => trivial)
          intro id t hid
          obtain ⟨ejrJsargs, hconverted⟩ := callWithArgs_converted hid
          refine .inr ⟨ejrJsargs, ok_of_wp ?_⟩
          rw [converted, ejrEvalClassFunction, wp_bind, wp_get]
          split
          next hundefined => exact absurd hundefined hne
          next => exact (wp_iff_of_ok hconverted).mpr ⟨rfl, rfl⟩
      have hend := wp_of_ok hends hrun
      exact hend

/-! ## Consumed on every return -/

/-- Whatever the engine does, when the call returns, the list and all blocks of
its arguments have been given back, each once, and no other block has; and it
does not fail to return because of the heap. -/
def ArgCall.Consumes (f : ArgCall) (s : Machine Cb) (args : Nat) (layouts : List Layout) : Prop :=
  ∀ depth, (blocksItems layouts).length ≤ depth → ∀ getFunction call : Completion Cb,
    wp (f.run depth (some args) layouts.length getFunction call) s
      (fun _ t => t.heap = s.heap.without (args :: blocksItems layouts))
      (fun e _ => ∃ e', e = .engine e')

section

variable {f : ArgCall} {s : Machine Cb} {args depth : Nat} {layouts : List Layout}
  {getFunction call : Completion Cb}

theorem callWithArgs_heap (hat : ListAt s.heap args layouts)
    (hdepth : (blocksItems layouts).length ≤ depth) (run : List JSArg → ApiM Cb JSValue)
    (thrown : Option JSVal) :
    wp (callWithArgs depth args layouts.length run thrown) s
      (fun _ t => t.heap = s.heap.without (args :: freedItems layouts))
      (fun e _ => ∃ e', e = .engine e') := by
  rw [callWithArgs, wp_bind, wp_onHeap]
  refine wp_mono (hat.read hdepth) ?_ (fun _ _ h => h.elim)
  intro ejrJsargs t ht
  subst ht
  rw [wp_bind, wp_onHandle]
  refine wp_mono wp_true ?_ (fun e _ _ => ⟨e, rfl⟩)
  intro value u _
  rw [wp_bind, wp_onHeap]
  refine wp_mono (hat.freeAll hdepth) ?_ (fun _ _ h => h.elim)
  intro _ t ht
  rw [wp_onHandle]
  exact ht

/-- What a call leaves on the heap. -/
theorem ArgCall.run_heap (hat : ListAt s.heap args layouts)
    (hdepth : (blocksItems layouts).length ≤ depth) :
    wp (f.run depth (some args) layouts.length getFunction call) s
      (fun _ t => f.Calls s.handle ∧ t.heap = s.heap.without (args :: freedItems layouts) ∨
        ¬f.Calls s.handle ∧ t.heap = s.heap) (fun e _ => ∃ e', e = .engine e') := by
  cases f with
  | evalFunction =>
    refine wp_mono (callWithArgs_heap hat hdepth _ _) ?_ (fun _ _ h => h)
    exact fun _ _ ht => .inl ⟨trivial, ht⟩
  | evalClassFunction valueId =>
    rw [run, wp_bind, wp_get]
    split
    next hundefined => exact .inr ⟨fun h => h hundefined, rfl⟩
    next hne =>
      refine wp_mono (callWithArgs_heap hat hdepth _ _) ?_ (fun _ _ h => h)
      exact fun _ _ ht => .inl ⟨hne, ht⟩

end

/-! ## A call that returns -/

/-- The engine has nothing to do, and answers. -/
def Completion.idle : Completion Cb := ⟨[], .value .undefined⟩

theorem finishes_onRt {p : EngineM α} (hp : Finishes p) : Finishes (onRt p : ApiM Cb α) := by
  intro s
  rw [wp_onRt]
  exact hp s.rt

theorem finishes_idle : Finishes (engine (.idle : Completion Cb)) := fun _ => trivial

theorem finishes_toJsArgs : ∀ args : List JSArg, Finishes (toJsArgs args)
  | [] => finishes_pure _
  | arg :: args => finishes_bind (finishes_toJs arg) fun _ =>
    finishes_bind (finishes_toJsArgs args) fun _ => finishes_pure _

theorem finishes_freeJsval (value : JSValue) : Finishes (freeJsval value) := by
  intro s
  rw [wp_freeJsval]
  trivial

theorem finishes_freeJsvals (values : List JSValue) : Finishes (freeJsvals values) := by
  intro s
  rw [wp_freeJsvals]
  trivial

theorem finishes_evalClassFunction (args : List JSArg) :
    Finishes (evalClassFunction args .idle .idle : ApiM Cb JSValue) := by
  refine finishes_bind finishes_idle fun function => ?_
  refine finishes_bind (finishes_onRt (finishes_toJsArgs args)) fun jsArgs => ?_
  refine finishes_bind finishes_idle fun result => ?_
  refine finishes_bind (finishes_onRt (finishes_freeJsval function)) fun _ => ?_
  exact finishes_bind (finishes_onRt (finishes_freeJsvals jsArgs)) fun _ => finishes_pure _

theorem finishes_evalFunction (args : List JSArg) :
    Finishes (evalFunction args .idle .idle : ApiM Cb JSValue) := by
  refine finishes_bind (fun _ => trivial) fun s => ?_
  refine finishes_bind (finishes_onRt fun _ => trivial) fun global => ?_
  refine finishes_bind (finishes_evalClassFunction args) fun result => ?_
  exact finishes_bind (finishes_onRt (finishes_freeJsval global)) fun _ => finishes_pure _

/-- With an idle engine the call returns, if its arguments can be read. -/
theorem ArgCall.run_idle {f : ArgCall} {s : Machine Cb} {args : Nat} {layouts : List Layout}
    (hat : ListAt s.heap args layouts) : ∃ id t,
      f.run (blocksItems layouts).length (some args) layouts.length .idle .idle s = .ok id t := by
  -- read, call, add, free
  have hcall : ∀ (run : List JSArg → ApiM Cb JSValue) (thrown : Option JSVal),
      (∀ ejrJsargs, Finishes (run ejrJsargs)) →
      wp (callWithArgs (blocksItems layouts).length args layouts.length run thrown) s
        (fun _ _ => True) (fun _ _ => False) := by
    intro run thrown hrun
    rw [callWithArgs, wp_bind, wp_onHeap]
    refine wp_mono (hat.read (Nat.le_refl _)) ?_ (fun _ _ h => h)
    intro ejrJsargs t ht
    subst ht
    rw [wp_bind, wp_onHandle]
    refine wp_mono (hrun ejrJsargs s.handle) ?_ (fun _ _ h => h)
    intro value u _
    rw [wp_bind, wp_onHeap]
    exact wp_mono (hat.freeAll (Nat.le_refl _)) (fun _ _ _ => trivial) (fun _ _ h => h)
  have hends : wp (f.run (blocksItems layouts).length (some args) layouts.length .idle .idle) s
      (fun _ _ => True) (fun _ _ => False) := by
    cases f with
    | evalFunction => exact hcall _ _ finishes_evalFunction
    | evalClassFunction valueId =>
      rw [run, wp_bind, wp_get]
      split
      next => trivial
      next => exact hcall _ _ finishes_evalClassFunction
  obtain ⟨id, t, hok, -⟩ := exists_ok_of_wp hends
  exact ⟨id, t, hok⟩

/-- **The arguments are consumed on every return** exactly when the function is
always called, and no argument has an exception in it. -/
theorem consumes_iff {f : ArgCall} {s : Machine Cb} {args : Nat} {layouts : List Layout}
    (hat : ListAt s.heap args layouts) :
    f.Consumes s args layouts ↔ f.Calls s.handle ∧ ∀ L ∈ layouts, L.NoException := by
  constructor
  · intro hall
    obtain ⟨id, t, hok⟩ := f.run_idle hat
    have ht := wp_of_ok (hall _ (Nat.le_refl _) .idle .idle) hok
    rcases wp_of_ok (f.run_heap hat (Nat.le_refl _)) hok with ⟨hcalls, hfreed⟩ | ⟨-, hsame⟩
    · exact ⟨hcalls, hat.freed_all_iff.mp (hfreed.symm.trans ht)⟩
    · -- the list itself is still there
      have hargs := hat.slots
      rw [← hsame, ht, s.heap.without_cell_of_mem (List.mem_cons_self ..)] at hargs
      exact absurd hargs (by simp)
  · intro h depth hdepth getFunction call
    refine wp_mono (f.run_heap hat hdepth) ?_ (fun _ _ h => h)
    intro _ t ht
    rcases ht with ⟨-, hfreed⟩ | ⟨hno, -⟩
    · rw [hfreed, hat.freed_all_iff.mpr h.2]
    · exact absurd h.1 hno

/-- A heap with a list of one integer. -/
def oneArgument : CHeap := (Store.empty.alloc (.arg (.int 5))).alloc (.items [some 0])

theorem listAt_oneArgument : ListAt oneArgument 1 [.plain 0] where
  slots := rfl
  on := List.forall_mem_singleton.mpr ⟨.int 5, rfl, trivial⟩
  nodup := by decide

/-- A function of the global object, called with one integer. -/
theorem consumes_iff_oneArgument : ArgCall.evalFunction.Consumes
    (⟨.new 0 .initial 0, oneArgument⟩ : Machine Unit) 1 [.plain 0] :=
  (consumes_iff listAt_oneArgument).mpr ⟨trivial, List.forall_mem_singleton.mpr trivial⟩

/-- A method of an id that was never issued, called with one integer: the call
returns -1, and the list is still there. -/
theorem consumes_fails : ¬∀ (f : ArgCall) (s : Machine Unit) (args : Nat) (layouts : List Layout),
    ListAt s.heap args layouts → f.Consumes s args layouts := by
  intro hall
  have hconsumes := hall (.evalClassFunction 7) ⟨.new 0 .initial 0, oneArgument⟩ 1 [.plain 0]
    listAt_oneArgument
  have hheap : oneArgument = oneArgument.without [1, 0] :=
    hconsumes 1 (Nat.le_refl 1) .idle .idle
  have hcell := congrFun (congrArg Store.cell hheap) 1
  exact absurd hcell (by decide)

end Ejr
