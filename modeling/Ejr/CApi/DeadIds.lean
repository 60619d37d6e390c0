import Ejr.CApi.Effects

/-!
# Dead ids and NULL handles

The checks at the head of the functions that take a value id. `ValueOp` is one
such function with the rest of its arguments, `ValueOp.run` what it does with a
handle that may be NULL and any id. A call that should be turned away, because
the handle is NULL or the id is not live, is turned away exactly where
`ValueOp.Guarded` says (`rejects_iff`).

Mirroring notes:
- `valid_ptrs(std::vector<void *>{handle, handle->jsvad, handle->instance})`
  reads the members while the vector is made, before anything is compared with
  NULL. `ejr_await_promise` compares first.
- The members of a handle, and `args`, are not NULL.
- For an id that is not live `get` returns `undefined`, which `from_js` converts
  like any other value; one level of depth is enough for it.
-/

namespace Ejr

open Lib

variable {Cb : Type}

/-! ## Checks -/

/-- NULL has been dereferenced. -/
inductive NullDeref where
  | null
  deriving DecidableEq

/-- How a call ends that has not dereferenced NULL. -/
abbrev Ended (Cb : Type) := EStateM.Result Stop (Option (Handle Cb)) Answer

/-- `handle->…`. -/
def arrow : Option (Handle Cb) → Except NullDeref (Handle Cb)
  | none => .error .null
  | some s => .ok s

/-- `valid_ptrs(std::vector<void *>{handle, handle->jsvad, handle->instance})`. -/
def validPtrs (handle : Option (Handle Cb)) : Except NullDeref Bool := do
  let _jsvad ← arrow handle
  let _instance ← arrow handle
  pure handle.isSome

/-- `handle != nullptr`. -/
def notNull (handle : Option (Handle Cb)) : Except NullDeref Bool := pure handle.isSome

/-- A call, after the check of its handle. -/
def afterCheck (check : Option (Handle Cb) → Except NullDeref Bool) (failure : Answer)
    (call : Call Cb) (handle : Option (Handle Cb)) : Except NullDeref (Ended Cb) := do
  match ← check handle with
  | false => pure (.ok failure handle)
  | true => do
    let s ← arrow handle
    match call.run s with
    | .ok a t => pure (.ok a (some t))
    | .error e t => pure (.error e (some t))

/-! ## The functions that take an id -/

/-- A function that takes a value id, with its other arguments. -/
inductive ValueOp (Cb : Type) where
  | valToString
  | evalClassFunction (args : List JSArg) (getFunction call : Completion Cb)
  | getPropertyFrom (c : Completion Cb)
  | freeJsvalue
  | awaitPromise
  | jsargFromJsvalue (depth : Nat)

namespace ValueOp

/-- The call. -/
def call : ValueOp Cb → Int32 → Call Cb
  | valToString, id => .valToString id
  | evalClassFunction args getFunction c, id => .evalClassFunction id args getFunction c
  | getPropertyFrom c, id => .getPropertyFrom id c
  | freeJsvalue, id => .freeJsvalue id
  | awaitPromise, id => .awaitPromise id
  | jsargFromJsvalue depth, id => .jsargFromJsvalue (depth + 1) id

/-- The check at its head. -/
def check : ValueOp Cb → Option (Handle Cb) → Except NullDeref Bool
  | awaitPromise => notNull
  | _ => validPtrs

/-- What it returns when it fails. -/
def failure : ValueOp Cb → Answer
  | valToString => .text none
  | evalClassFunction .. => .id (-1)
  | getPropertyFrom _ => .id (-1)
  | freeJsvalue => .done
  | awaitPromise => .id (-1)
  | jsargFromJsvalue _ => .arg .null

/-- The function, as it is exported. -/
def run (op : ValueOp Cb) (id : Int32) : Option (Handle Cb) → Except NullDeref (Ended Cb) :=
  afterCheck op.check op.failure (op.call id)

/-- The call fails, and leaves the table as it is. -/
def Rejects (op : ValueOp Cb) (id : Int32) (handle : Option (Handle Cb)) : Prop :=
  ∃ handle', op.run id handle = .ok (.ok op.failure handle') ∧
    handle'.map Handle.jsvad = handle.map Handle.jsvad

/-- Where the checks are enough: with NULL, for the one function that compares
first; with a handle, for those that look at what `get` returns, and for a
negative id. -/
def Guarded (op : ValueOp Cb) (id : Int32) (handle : Option (Handle Cb)) : Prop :=
  match op, handle with
  | awaitPromise, none => True
  | _, none => False
  | awaitPromise, some _ => False
  | jsargFromJsvalue _, some _ => id < 0
  | _, some _ => True

end ValueOp

/-- The id is not live; with NULL there is nothing alive. -/
def Dead (id : Int32) : Option (Handle Cb) → Prop
  | none => True
  | some s => s.jsvad.find? id = none

section

variable {s : Handle Cb} {id : Int32}

theorem get_of_dead (h : s.jsvad.find? id = none) : s.jsvad.get id = JSValueAD.absent := by
  rw [JSValueAD.get, h]
  rfl

/-- Erasing what is not there. -/
theorem freeValue_of_dead (h : s.jsvad.find? id = none) :
    s.jsvad.freeValue id = (none, s.jsvad) := by
  have hnot : id ∉ s.jsvad.idToValue.keys := by
    intro hmem
    obtain ⟨v, hv⟩ := (JSValueAD.mem_keys_iff s.jsvad id).mp hmem
    rw [h] at hv
    exact nomatch hv
  have herase : s.jsvad.idToValue.erase id = s.jsvad.idToValue :=
    AList.ext (List.kerase_of_notMem_keys hnot)
  rw [JSValueAD.freeValue, h, herase]

/-- A handle passes both checks. -/
theorem afterCheck_some {check : Option (Handle Cb) → Except NullDeref Bool}
    (hcheck : check (some s) = .ok true) (failure : Answer) (call : Call Cb) :
    afterCheck check failure call (some s) =
      .ok (match call.run s with
        | .ok a t => .ok a (some t)
        | .error e t => .error e (some t)) := by
  unfold afterCheck
  rw [hcheck]
  show (match call.run s with
    | .ok a t => (pure (.ok a (some t)) : Except NullDeref (Ended Cb))
    | .error e t => pure (.error e (some t))) = _
  cases call.run s <;> rfl

theorem ValueOp.not_rejects_none {op : ValueOp Cb}
    (hcheck : op.check none = .error .null) (id : Int32) : ¬ op.Rejects id none := by
  intro ⟨handle', h, _⟩
  have hderef : op.run id none = .error .null := by
    unfold ValueOp.run afterCheck
    rw [hcheck]
    rfl
  rw [hderef] at h
  exact nomatch h

theorem ValueOp.check_some (op : ValueOp Cb) (s : Handle Cb) : op.check (some s) = .ok true := by
  cases op <;> rfl

/-- With a handle, rejection is about the program. -/
theorem ValueOp.rejects_some_iff (op : ValueOp Cb) (s : Handle Cb) (id : Int32) :
    op.Rejects id (some s) ↔ ∃ t, (op.call id).run s = .ok op.failure t ∧ t.jsvad = s.jsvad := by
  unfold ValueOp.Rejects ValueOp.run
  rw [afterCheck_some (op.check_some s)]
  cases hrun : (op.call id).run s with
  | error e t =>
    constructor
    · intro ⟨handle', h, _⟩
      exact nomatch h
    · intro ⟨t', h, _⟩
      exact nomatch h
  | ok a t =>
    constructor
    · intro ⟨handle', h, hjsvad⟩
      cases h
      exact ⟨t, rfl, Option.some.inj hjsvad⟩
    · intro ⟨t', h, hjsvad⟩
      cases h
      exact ⟨some t, rfl, congrArg some hjsvad⟩

/-! ## A handle and a dead id -/

variable (hdead : s.jsvad.find? id = none)

include hdead

theorem run_valToString_of_dead : (Call.valToString id).run s = .ok (.text none) s := by
  apply ok_of_wp
  rw [Call.run, wp_map, ejrValToString, wp_bind, wp_get]
  dsimp only
  rw [get_of_dead hdead]
  exact ⟨rfl, rfl⟩

theorem run_evalClassFunction_of_dead (args : List JSArg) (getFunction call : Completion Cb) :
    (Call.evalClassFunction id args getFunction call).run s = .ok (.id (-1)) s := by
  apply ok_of_wp
  rw [Call.run, wp_map, ejrEvalClassFunction, wp_bind, wp_get, get_of_dead hdead]
  exact ⟨rfl, rfl⟩

theorem run_getPropertyFrom_of_dead (c : Completion Cb) :
    (Call.getPropertyFrom id c).run s = .ok (.id (-1)) s := by
  apply ok_of_wp
  rw [Call.run, wp_map, ejrGetPropertyFrom, wp_bind, wp_get, get_of_dead hdead]
  exact ⟨rfl, rfl⟩

theorem run_freeJsvalue_of_dead : ∃ t, (Call.freeJsvalue id).run s = .ok .done t ∧
    t.jsvad = s.jsvad := by
  have hrun : wp (Call.freeJsvalue id).run s (fun a t => a = .done ∧ t.jsvad = s.jsvad)
      (fun _ _ => False) := by
    rw [Call.run, wp_map, ejrFreeJsvalue, wp_bind, wp_get, freeValue_of_dead hdead]
    dsimp only
    rw [wp_bind, wp_onRt, EasyJSR.wp_freeJsvals]
    exact ⟨rfl, rfl⟩
  obtain ⟨a, t, hok, rfl, hjsvad⟩ := exists_ok_of_wp hrun
  exact ⟨t, hok, hjsvad⟩

/-- `ejr_await_promise` asks the engine about `undefined`, and stores the
answer. -/
theorem run_awaitPromise_of_dead : ∃ t, (Call.awaitPromise id).run s = .ok (.id s.jsvad.nextId) t ∧
    t.jsvad = s.jsvad.addValue ⟨.undefined, s.rt.fresh⟩ := by
  have hrun : wp (Call.awaitPromise id).run s (fun a t => a = .id s.jsvad.nextId ∧
      t.jsvad = s.jsvad.addValue ⟨.undefined, s.rt.fresh⟩) (fun _ _ => False) := by
    rw [Call.run, wp_map, ejrAwaitPromise, wp_bind, wp_get, get_of_dead hdead, wp_bind,
      EasyJSR.awaitPromise, wp_bind, wp_get, wp_onRt, wp_own]
    exact ⟨rfl, rfl⟩
  obtain ⟨a, t, hok, rfl, hjsvad⟩ := exists_ok_of_wp hrun
  exact ⟨t, hok, hjsvad⟩

/-- `jsarg_from_jsvalue` turns a negative id away. For any other id that is not
live it converts `undefined`. -/
theorem run_jsargFromJsvalue_of_dead (depth : Nat) : ∃ t,
    (Call.jsargFromJsvalue (depth + 1) id).run s =
      .ok (.arg (if id < 0 then .null else .string (ascii "undefined"))) t ∧
    t.jsvad = s.jsvad := by
  have hrun : wp (Call.jsargFromJsvalue (depth + 1) id).run s
      (fun a t => a = .arg (if id < 0 then .null else .string (ascii "undefined")) ∧
        t.jsvad = s.jsvad) (fun _ _ => False) := by
    rw [Call.run, wp_map, Ejr.jsargFromJsvalue]
    split
    next => exact ⟨rfl, rfl⟩
    next =>
      have hnot : s.rt.heap.isArray JSValueAD.absent.val = .value false :=
        Heap.isArray_of_not_object _ fun a (h : JSVal.undefined = .object a) => nomatch h
      rw [wp_bind, wp_get, get_of_dead hdead, wp_onRt, wp_fromJs_isArray rfl, if_pos hnot]
      exact ⟨rfl, rfl⟩
  obtain ⟨a, t, hok, rfl, hjsvad⟩ := exists_ok_of_wp hrun
  exact ⟨t, hok, hjsvad⟩

end

/-- The counter has moved on. -/
theorem addValue_ne (ad : JSValueAD) (v : JSValue) : ad.addValue v ≠ ad := by
  intro h
  have hnext : ad.nextId + 1 = ad.nextId := congrArg JSValueAD.nextId h
  exact absurd (Int32.add_eq_left.mp hnext) (by decide)

/-- **Which calls on dead ids and NULL handles are turned away**: exactly the
guarded ones. -/
theorem rejects_iff (op : ValueOp Cb) (id : Int32) (handle : Option (Handle Cb))
    (hdead : Dead id handle) : op.Rejects id handle ↔ op.Guarded id handle := by
  cases handle with
  | none =>
    cases op with
    | awaitPromise => exact ⟨fun _ => trivial, fun _ => ⟨none, rfl, rfl⟩⟩
    | _ => exact ⟨fun h => (ValueOp.not_rejects_none rfl id h).elim, fun h => h.elim⟩
  | some s =>
    rw [ValueOp.rejects_some_iff]
    cases op with
    | valToString => exact ⟨fun _ => trivial, fun _ => ⟨s, run_valToString_of_dead hdead, rfl⟩⟩
    | evalClassFunction args getFunction call =>
      exact ⟨fun _ => trivial, fun _ => ⟨s, run_evalClassFunction_of_dead hdead _ _ _, rfl⟩⟩
    | getPropertyFrom c =>
      exact ⟨fun _ => trivial, fun _ => ⟨s, run_getPropertyFrom_of_dead hdead c, rfl⟩⟩
    | freeJsvalue => exact ⟨fun _ => trivial, fun _ => run_freeJsvalue_of_dead hdead⟩
    | awaitPromise =>
      -- what `undefined` settles to is stored, so the counter has moved
      refine ⟨fun h => ?_, fun h => h.elim⟩
      obtain ⟨t, hrun, hsame⟩ := h
      obtain ⟨t', hrun', hadded⟩ := run_awaitPromise_of_dead hdead
      injection hrun.symm.trans hrun' with _ ht
      rw [← ht, hsame] at hadded
      exact addValue_ne _ _ hadded.symm
    | jsargFromJsvalue depth =>
      -- only the sign of the id is checked
      obtain ⟨t', hrun', hjsvad⟩ := run_jsargFromJsvalue_of_dead hdead depth
      constructor
      · intro h
        obtain ⟨t, hrun, -⟩ := h
        show id < 0
        by_cases hneg : id < 0
        · exact hneg
        · rw [if_neg hneg] at hrun'
          cases hrun.symm.trans hrun'
      · intro hneg
        rw [if_pos (show id < 0 from hneg)] at hrun'
        exact ⟨t', hrun', hjsvad⟩

theorem dead_new (id : Int32) (self : UInt64) (heap : Heap) (global : Addr) :
    Dead id (some (.new self heap global : Handle Cb)) := rfl

/-- An id that was never issued, converted to a string on a new handle. -/
theorem rejects_iff_neverIssued :
    (ValueOp.valToString.Rejects 7 (some (.new 0 .initial 0 : Handle Unit))) ∧
      ¬ (ValueOp.jsargFromJsvalue 0).Rejects 7 (some (.new 0 .initial 0 : Handle Unit)) :=
  ⟨(rejects_iff .valToString 7 _ (dead_new ..)).mpr trivial,
    fun h => absurd ((rejects_iff (.jsargFromJsvalue 0) 7 _ (dead_new ..)).mp h)
      (show ¬ (7 : Int32) < 0 by decide)⟩

/-- On a new handle, awaiting an id that was never issued issues one; and a NULL
handle is dereferenced. -/
theorem rejects_fails :
    ¬ ValueOp.awaitPromise.Rejects 7 (some (.new 0 .initial 0 : Handle Unit)) ∧
      ¬ (ValueOp.valToString : ValueOp Unit).Rejects 7 none := by
  constructor
  · rw [ValueOp.rejects_some_iff]
    intro ⟨t, hrun, _⟩
    obtain ⟨t', hrun', -⟩ := run_awaitPromise_of_dead
      (show (Handle.new 0 .initial 0 : Handle Unit).jsvad.find? 7 = none from rfl)
    injection hrun.symm.trans hrun' with ha _
    injection ha with hid
    exact absurd hid (by decide)
  · exact ValueOp.not_rejects_none rfl 7

end Ejr
