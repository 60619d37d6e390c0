import Ejr.CApi.Invoke

/-!
# C calls C, through JavaScript

A C program passes arguments to `ejr_eval_function`, the function it names is one
it has registered, and the program reads the result with `jsarg_from_jsvalue`.
Every argument and the answer cross both borders twice: from the blocks of the
program over C++ to JavaScript, back through the trampoline into the blocks of
the callback, and the same for the answer. `remoteCall_computes` says what is
left of all that: what the callback's function answers to the settled arguments,
settled, in new blocks, while those of the arguments are freed. An answer that is a
typed array does not arrive: `from_js` frees it, as the table has its last reference,
and then reads the bytes.

Mirroring notes:
- The function is found under its name: `JS_GetPropertyStr` answers the function
  object, whose trampoline `JS_Call` then runs (`invoke`).
- `thrown` of `add_value` is history; a trampoline that returns has thrown nothing.
-/

namespace Ejr

open Lib Layout EasyJSR

/-! ## The program -/

/-- `eval_function`, where `function` is the function object of `f`. -/
def evalRegistered (depth : Nat) (function : JSVal) (f : FnObject) (args : List JSArg) :
    MachineM CCallback JSValue := do
  let s ← get
  let global ← inEngine (own (.object s.handle.global))
  let function ← inEngine (own function)
  let jsArgs ← inEngine (toJsArgs args)
  let result ← invoke depth f jsArgs
  inEngine (freeJsval function)
  inEngine (freeJsvals jsArgs)
  inEngine (freeJsval global)
  pure result

/-- `ejr_eval_function`, and `jsarg_from_jsvalue` of its result, of which the table has the
only reference. -/
def remoteCall (depth args argCount : Nat) (function : JSVal) (f : FnObject) :
    MachineM CCallback Ptr := do
  let ejrJsargs ← onHeap (argsToEjr depth args argCount)
  let value ← evalRegistered depth function f ejrJsargs
  onHeap (jsargFreeAll depth (some args) argCount)
  let id ← onHandle (addValue value none)
  let ejrArg ← onHandle (fetchValue depth true id)
  onHeap (ejrToJsarg ejrArg)

/-! ## Its parts -/

/-- A list of arguments at `args`, which mean these. -/
structure Passes (h : CHeap) (args : Nat) (layouts : List Layout) (meant : List JSArg) : Prop where
  listAt : ListAt h args layouts
  reps : CRepItems h (fun _ => True) meant (layouts.map root)

/-- What a callback gets of them. -/
def received (meant : List JSArg) : List JSArg := meant.map fun a => a.truncated.settle

theorem truncatedItems_eq_map : ∀ items : List JSArg,
    JSArg.truncatedItems items = items.map JSArg.truncated
  | [] => rfl
  | a :: rest => by rw [JSArg.truncatedItems, truncatedItems_eq_map rest, List.map_cons]

theorem depth_truncated (a : JSArg) : a.truncated.depth = a.depth := by
  induction a using JSArg.induct with
  | leaf a ha =>
    cases a with
    | array items => exact absurd rfl (ha items)
    | _ => simp [JSArg.truncated, JSArg.depth]
  | array items ih =>
    rw [JSArg.truncated, truncatedItems_eq_map, JSArg.depth, JSArg.depth, depthItems_map items ih]

section

variable {h t : CHeap} {args depth : Nat} {layouts : List Layout} {meant : List JSArg}

theorem Passes.read (hargs : Passes h args layouts meant) (hdepth : ∀ a ∈ meant, a.depth < depth) :
    wp (argsToEjr depth args layouts.length) h
      (fun as t => as = meant.map JSArg.truncated ∧ t = h) (fun _ _ => False) := by
  have hlength : layouts.length = meant.length := by
    have := cRepItems_length hargs.reps
    rwa [List.length_map] at this
  have hslots := hargs.listAt.slots
  rw [map_some_root] at hslots
  rw [argsToEjr, hlength]
  refine wp_mono (jsargToEjrItems_rep hslots meant _ 0 List.drop_zero
    (fun a _ arg hrep => jsargToEjr_rep a arg hrep depth) hargs.reps) ?_ ?_
  · intro as t has
    rw [truncatedItems_eq_map] at has
    exact has
  · intro _ _ h
    obtain ⟨a, ha, h⟩ := h
    exact Nat.not_le.mpr (hdepth a ha) h

/-- What is made meanwhile does not touch the list. -/
theorem ListAt.grows (hat : ListAt h args layouts) (hgrows : h.Grows (fun _ => False) t) :
    ListAt t args layouts where
  slots := hgrows.cell_eq hat.slots fun h => h
  on L hL := by
    refine (hat.on L hL).congr fun x hx => ?_
    obtain ⟨b, hb⟩ := Option.isSome_iff_exists.mp ((hat.on L hL).live x hx)
    exact hgrows.cell x (Store.lt_next hb) fun h => h
  nodup := hat.nodup

end

/-- The loop over the converted arguments. -/
theorem toJsArgs_sends : ∀ (args : List JSArg) (s : Rt), (∀ a ∈ args, a.Fits) → Pristine s.heap →
    wp (toJsArgs args) s (fun vs t => ReadsAll t.heap (args.map JSArg.settle) vs ∧
      s.heap.Grows (fun _ => False) t.heap) (fun _ _ => False)
  | [], s, _, _ => ⟨.nil, Heap.Grows.refl _ _⟩
  | a :: args, s, hfits, hp => by
    obtain ⟨ha, hargs⟩ := List.forall_mem_cons.mp hfits
    simp only [toJsArgs, wp_bind, wp_pure]
    refine wp_mono (sends ha s (Nat.le_refl _) hp) ?_ (fun _ _ h => h)
    intro v t ht
    obtain ⟨hread, hgrows⟩ := ht
    refine wp_mono (toJsArgs_sends args t hargs (hp.grows hgrows)) ?_ (fun _ _ h => h)
    intro vs u hu
    obtain ⟨hreads, hgrows'⟩ := hu
    refine ⟨.cons (hread.frame (fun x hx => hgrows'.obj x ?_ fun h => h) fun x hx => ?_) hreads,
      hgrows.trans hgrows'⟩
    · exact hx.lt hgrows.next
    · exact Nat.lt_of_lt_of_le (hx.lt hgrows.next) hgrows'.next

/-- What `EasyJSR` calls in JavaScript answers what the callback computes. -/
theorem evalRegistered_computes {s : Machine CCallback} {f : FnObject} {cb : CCallback}
    {g : List JSArg → JSArg} (hcb : s.handle.registry.callbacks f.cbName = some cb)
    (hg : Computes cb g) (hp : Pristine s.handle.rt.heap) {args : List JSArg}
    (hargs : ∀ a ∈ args, a.Fits) (hempty : ∀ a ∈ args, a.settle.NoEmptyArray)
    (hfits : (g (args.map JSArg.settle)).truncated.Fits) {depth : Nat}
    (hdepth : callDepth g (args.map JSArg.settle) ≤ depth) (function : JSVal) :
    wp (evalRegistered depth function f args) s
      (fun v t => s.Grows t ∧
        Reads t.handle.rt.heap (· < t.handle.rt.heap.next) (reply g (args.map JSArg.settle)) v.val ∧
        (v.val.hasRefCount = true → v.ref < t.handle.rt.fresh))
      (fun _ _ => False) := by
  simp only [evalRegistered, wp_bind, wp_get, wp_inEngine, wp_own]
  refine wp_mono (toJsArgs_sends args _ hargs hp) ?_ (fun _ _ h => h)
  intro vs rt hrt
  obtain ⟨hreads, hgrows⟩ := hrt
  have hgrows : s.handle.rt.heap.Grows (fun _ => False) rt.heap := hgrows
  have hp' : Pristine rt.heap := hp.grows hgrows
  have hempty' : ∀ a ∈ args.map JSArg.settle, a.NoEmptyArray := List.forall_mem_map.mpr hempty
  refine wp_mono (invoke_computes (s := s.withRt rt) hcb hg hp' hreads hempty' hfits hdepth) ?_
    (fun _ _ h => h)
  intro v t ht
  obtain ⟨⟨hobjects, hblocks, hregistry, htable⟩, hread, htaken⟩ := ht
  simp only [wp_freeJsval, wp_freeJsvals, wp_pure]
  exact ⟨⟨hgrows.trans hobjects, hblocks, hregistry, htable⟩, hread, htaken⟩

theorem hasBytes_reply (g : List JSArg → JSArg) (args : List JSArg) :
    (reply g args).hasBytes = (g args).hasBytes := by
  rw [reply, hasBytes_settle]
  cases g args <;> rfl

/-- **The answer that C gets** is what the function computes of the settled
arguments, settled; the arguments have been freed, other blocks and objects are
as they were. A typed array with elements is freed before it is read, exactly then. -/
theorem remoteCall_computes {s : Machine CCallback} {f : FnObject} {cb : CCallback}
    {g : List JSArg → JSArg} (hcb : s.handle.registry.callbacks f.cbName = some cb)
    (hg : Computes cb g) (hp : Pristine s.handle.rt.heap) (hid : 0 ≤ s.handle.jsvad.nextId)
    {args : Nat} {layouts : List Layout} {meant : List JSArg}
    (hargs : Passes s.heap args layouts meant) (hfits : ∀ a ∈ meant, a.truncated.Fits)
    (hempty : ∀ a ∈ received meant, a.NoEmptyArray) (hanswer : (g (received meant)).truncated.Fits)
    (hfull : (reply g (received meant)).NoEmptyArray) {depth : Nat}
    (hdepth : JSArg.weightItems meant + callDepth g (received meant) ≤ depth) (function : JSVal) :
    wp (remoteCall depth args layouts.length function f) s
      (fun p t => (g (received meant)).hasBytes = false ∧
        s.handle.rt.heap.Grows (fun _ => False) t.handle.rt.heap ∧
        (∀ x < s.heap.next, t.heap.cell x =
          if x ∈ args :: freedItems layouts then none else s.heap.cell x) ∧
        ∃ x arg, p = some x ∧ t.heap.cell x = some (.arg arg) ∧
          CRep t.heap (s.heap.next ≤ ·) (reply g (received meant)) arg)
      (fun e _ => (g (received meant)).hasBytes = true ∧ e = .engine .freedRead) := by
  have hmap : (meant.map JSArg.truncated).map JSArg.settle = received meant := List.map_map
  have hcall : callDepth g (received meant) ≤ depth := by omega
  rw [remoteCall, wp_bind, wp_onHeap]
  refine wp_mono (hargs.read fun a ha => ?_) ?_ (fun _ _ h => h.elim)
  · have := depth_lt_weight a
    have := weight_le_of_mem ha
    omega
  intro ejrJsargs heap hread
  obtain ⟨rfl, rfl⟩ := hread
  rw [wp_bind]
  refine wp_mono (evalRegistered_computes (s := s) hcb hg hp
    (List.forall_mem_map.mpr hfits)
    (List.forall_mem_map.mpr fun a ha => hempty _ (List.mem_map_of_mem ha)) (by rwa [hmap])
    (by rwa [hmap]) function) ?_ (fun _ _ h => h.elim)
  intro value t ht
  rw [hmap] at ht
  obtain ⟨⟨hobjects, hblocks, -, htable⟩, hvalue, htaken⟩ := ht
  -- the arguments are freed
  rw [wp_bind, wp_onHeap]
  refine wp_mono ((hargs.listAt.grows hblocks).freeAll ?_) ?_ (fun _ _ h => h.elim)
  · rw [blocksItems_length meant layouts (fun a _ => blocks_length a) hargs.listAt.on hargs.reps]
    omega
  intro _ heap hheap
  subst hheap
  -- the result is read back from the table
  rw [wp_bind, wp_onHandle, addValue]
  simp only [wp_bind, wp_get, wp_set, wp_pure]
  have hid' : 0 ≤ t.handle.jsvad.nextId := by rwa [htable]
  have hget : (t.handle.jsvad.addValue value).get t.handle.jsvad.nextId = value := by
    rw [JSValueAD.get, JSValueAD.find?_addValue, if_pos rfl, Option.getD_some]
  rw [wp_onHandle, wp_fetchValue hid' (by rw [hget]; exact htaken)]
  simp only [hget]
  have hdeep : (reply g (received meant)).depth < depth := by
    rw [reply, depth_settle, depth_truncated]
    have := depth_lt_weight (g (received meant))
    unfold callDepth at hcall
    omega
  refine wp_mono (wp_and (hvalue t.handle.rt (fun _ _ => rfl) value.ref true depth hdeep)
    (fromJs_heap depth value true t.handle.rt)) ?_ (fun _ _ h => h.1.elim)
  intro a rt ha
  obtain ⟨rfl, hheap⟩ := ha
  rw [Bool.true_and, hasBytes_reply]
  split
  next hfreed => exact ⟨hfreed, trivial⟩
  next hkept =>
  rw [wp_onHeap]
  refine wp_mono (builds (reply g (received meant)) _) ?_ (fun _ _ h => absurd hfull h.1)
  intro p heap hp'
  obtain ⟨-, hgrows, x, arg, rfl, -, hcx, hrep⟩ := hp'
  have hobjects' : s.handle.rt.heap.Grows (fun _ => False) rt.heap := hheap ▸ hobjects
  refine ⟨Bool.eq_false_of_not_eq_true hkept, hobjects', fun y hy => ?_, x, arg, rfl, hcx, ?_⟩
  · have hy' : y < t.heap.next := Nat.lt_of_lt_of_le hy hblocks.next
    rw [hgrows.cell y hy' fun h => h]
    show (if y ∈ args :: freedItems layouts then none else t.heap.cell y) = _
    rw [hblocks.cell y hy fun h => h]
  · exact cRep_frame (fun y b hy hcy => ⟨Nat.le_trans hblocks.next hy, hcy⟩) _ _ hrep

/-- A machine with the argument 5 on its heap, whose function answers `a`. -/
theorem exists_answering {a : JSArg} (hfull : a.NoEmptyArray)
    (hback : a.All JSArg.GivenBack fun _ => True) :
    ∃ (s : Machine CCallback) (f : FnObject) (cb : CCallback),
      s.handle.registry.callbacks f.cbName = some cb ∧ (Computes cb fun _ => a) ∧
      Pristine s.handle.rt.heap ∧ 0 ≤ s.handle.jsvad.nextId ∧
      Passes s.heap 1 [.plain 0] [.int 5] := by
  have hserves : Serves (serving (ascii "f") fun _ => ejrToJsarg a) fun _ _ => a :=
    serves_serving (stable_of_ascii (by decide +kernel)) (computes_ejrToJsarg hfull hback)
  obtain ⟨cb, hcb, hcomputes⟩ := hserves 0 ⟨newString (ascii "f"), .global (ascii "f")⟩ rfl
  exact ⟨{ serving (ascii "f") fun _ => ejrToJsarg a with heap := oneArgument }, _, cb, hcb,
    hcomputes, pristine_serving _ _, Int32.le_refl _,
    ⟨listAt_oneArgument, 0, .int 5, [], rfl, trivial, rfl, rfl, rfl⟩⟩

/-- `f(5)`: an answer that is an array of 7 and a typed array arrives, the typed array on its
own does not. -/
theorem remoteCall_computes_typedArray :
    (∃ (s t : Machine CCallback) (f : FnObject) (x : Nat) (arg : CJSArg),
      remoteCall 7 1 1 .undefined f s = .ok (some x) t ∧ t.heap.cell x = some (.arg arg) ∧
        CRep t.heap (s.heap.next ≤ ·) (.array [.int 7, .typedArray ⟨.int8, [3]⟩]) arg) ∧
    ∃ (s t : Machine CCallback) (f : FnObject),
      remoteCall 4 1 1 .undefined f s = .error (.engine .freedRead) t := by
  have hfive : ∀ a ∈ [JSArg.int 5], a.truncated.Fits :=
    List.forall_mem_singleton.mpr trivial
  have hreceived : ∀ a ∈ received [JSArg.int 5], a.NoEmptyArray :=
    List.forall_mem_singleton.mpr trivial
  constructor
  · have hfull : (JSArg.array [.int 7, .typedArray ⟨.int8, [3]⟩]).NoEmptyArray :=
      ⟨by simp, trivial, trivial, trivial⟩
    obtain ⟨s, f, cb, hcb, hg, hp, hid, hargs⟩ := exists_answering hfull
      ⟨trivial, trivial, trivial, trivial⟩
    have h := remoteCall_computes hcb hg hp hid hargs hfive hreceived
      ⟨by decide, trivial, fits_byte, trivial⟩ hfull (Nat.le_refl 7) .undefined
    cases hrun : remoteCall 7 1 1 .undefined f s with
    | ok p t =>
      obtain ⟨-, -, -, x, arg, rfl, hcx, hrep⟩ := (wp_iff_of_ok hrun).mp h
      exact ⟨s, t, f, x, arg, hrun, hcx, hrep⟩
    | error e t => exact Bool.noConfusion ((wp_iff_of_error hrun).mp h).1
  · obtain ⟨s, f, cb, hcb, hg, hp, hid, hargs⟩ :=
      exists_answering (a := .typedArray ⟨.int8, [3]⟩) trivial trivial
    have h := remoteCall_computes hcb hg hp hid hargs hfive hreceived fits_byte trivial
      (Nat.le_refl 4) .undefined
    cases hrun : remoteCall 4 1 1 .undefined f s with
    | ok p t => exact Bool.noConfusion ((wp_iff_of_ok hrun).mp h).1
    | error e t =>
      obtain ⟨-, rfl⟩ := (wp_iff_of_error hrun).mp h
      exact ⟨s, t, f, hrun⟩

end Ejr
