import Ejr.Lib.Holders
import Ejr.Lib.Run
import Ejr.Engine.Call

/-!
# `EJRValue`

The wrapper that owns a JS value (include/ejr.hpp, src/ejr_cpp_api.cpp): its
constructor, move constructor, move assignment and destructor, on any set of
variables. Over the references they own, the variables are `Holders`: a move
construction is a move, a move assignment between two variables lets go first
(`holders_moveAssign`), so the discipline of `Ejr.Lib.Holders` is theirs.

Mirroring notes:
- A variable that has been constructed and not destroyed is in `var`; a moved-from
  one is, and holds undefined.
- `freed` has the calls `JS_FreeValue(ctx, val)`; those on values without a
  reference count have no effect (`EJRValue.reference`).
- A context is known by its address.
-/

namespace Ejr

open Lib

/-! ## The class -/

/-- `EJRValue`. -/
structure EJRValue where
  val : JSValue
  ctx : Addr
  deriving DecidableEq

/-- `js_undefined()`. -/
def jsUndefined : JSValue := ⟨.undefined, 0⟩

/-- The reference that is owned, and its context. -/
def EJRValue.reference (v : EJRValue) : Option (Addr × RefId) :=
  if v.val.val.hasRefCount then some (v.ctx, v.val.ref) else none

/-- Variables of type `EJRValue`, and the calls of `JS_FreeValue` so far. -/
structure EJRValues (ν : Type) where
  var : ν → Option EJRValue
  freed : List EJRValue

namespace EJRValues

variable {ν : Type}

/-- No variable constructed. -/
def empty : EJRValues ν := ⟨fun _ => none, []⟩

variable [DecidableEq ν]

/-- `EJRValue(ctx, val)`. -/
def construct (s : EJRValues ν) (x : ν) (ctx : Addr) (val : JSValue) : EJRValues ν :=
  { s with var := Function.update s.var x (some ⟨val, ctx⟩) }

/-- The members of `other`, in `y`, go to `x`, and `other.val = js_undefined()`. -/
def moved (var : ν → Option EJRValue) (x y : ν) (other : EJRValue) : ν → Option EJRValue :=
  Function.update (Function.update var x (some ⟨other.val, other.ctx⟩)) y
    (some { other with val := jsUndefined })

/-- `EJRValue(EJRValue &&other)`. -/
def moveConstruct (s : EJRValues ν) (x y : ν) : EJRValues ν :=
  match s.var y with
  | some other => { s with var := moved s.var x y other }
  | none => s

/-- `operator=(EJRValue &&other)`. -/
def moveAssign (s : EJRValues ν) (x y : ν) : EJRValues ν :=
  if x = y then s
  else
    match s.var x, s.var y with
    | some this, some other => { freed := s.freed ++ [this], var := moved s.var x y other }
    | _, _ => s

/-- `~EJRValue()`. -/
def destroy (s : EJRValues ν) (x : ν) : EJRValues ν :=
  match s.var x with
  | some this => { freed := s.freed ++ [this], var := Function.update s.var x none }
  | none => s

/-- What a program does with the variables. -/
inductive Op (ν : Type) where
  | construct (x : ν) (ctx : Addr) (val : JSValue)
  | moveConstruct (x y : ν)
  | moveAssign (x y : ν)
  | destroy (x : ν)

/-- A variable is constructed where there is none; the others are used while they
live. -/
inductive step : EJRValues ν → Op ν → EJRValues ν → Prop where
  | construct (s : EJRValues ν) {x : ν} (ctx : Addr) (val : JSValue) (hx : s.var x = none) :
      step s (.construct x ctx val) (s.construct x ctx val)
  | moveConstruct (s : EJRValues ν) {x y : ν} {other : EJRValue} (hx : s.var x = none)
      (hy : s.var y = some other) : step s (.moveConstruct x y) (s.moveConstruct x y)
  | moveAssign (s : EJRValues ν) {x y : ν} {this other : EJRValue} (hx : s.var x = some this)
      (hy : s.var y = some other) : step s (.moveAssign x y) (s.moveAssign x y)
  | destroy (s : EJRValues ν) {x : ν} {this : EJRValue} (hx : s.var x = some this) :
      step s (.destroy x) (s.destroy x)

/-- The reference an operation hands in. -/
def Op.given : Op ν → List (Addr × RefId)
  | .construct _ ctx val => (EJRValue.reference ⟨val, ctx⟩).toList
  | .moveConstruct _ _ | .moveAssign _ _ | .destroy _ => []

/-! ## As holders of references -/

/-- The references released so far, each with the context it was released with. -/
def releases (s : EJRValues ν) : List (Addr × RefId) := s.freed.filterMap EJRValue.reference

/-- Which reference each variable owns. -/
def holders (s : EJRValues ν) : Holders ν (Addr × RefId) :=
  ⟨fun x => (s.var x).bind EJRValue.reference, s.releases⟩

section

variable {s t : EJRValues ν} {x y : ν} {this other : EJRValue} {given : List (Addr × RefId)}

theorem holders_construct {ctx : Addr} {val : JSValue} :
    (s.construct x ctx val).holders = s.holders.give x (EJRValue.reference ⟨val, ctx⟩) := by
  refine Holders.ext (funext fun z => ?_) rfl
  rw [Holders.give_held]
  show (Function.update s.var x _ z).bind _ = _
  by_cases h : z = x
  · rw [if_pos h, h, Function.update_self, Option.bind_some]
  · rw [if_neg h, Function.update_of_ne h]
    rfl

/-- The variables after `other` has been moved to `x`. -/
theorem moved_reference {var : ν → Option EJRValue} {z : ν} :
    (moved var x y other z).bind EJRValue.reference =
      if z = y then none else if z = x then other.reference else (var z).bind EJRValue.reference := by
  unfold moved
  by_cases hy : z = y
  · rw [if_pos hy, hy, Function.update_self]
    rfl
  · rw [if_neg hy, Function.update_of_ne hy]
    by_cases hx : z = x
    · rw [if_pos hx, hx, Function.update_self]
      rfl
    · rw [if_neg hx, Function.update_of_ne hx]

/-- A move construction moves the reference. -/
theorem holders_moveConstruct (hy : s.var y = some other) :
    (s.moveConstruct x y).holders = s.holders.move x y := by
  have hmove : s.moveConstruct x y = { s with var := moved s.var x y other } := by
    simp only [moveConstruct, hy]
  rw [hmove]
  refine Holders.ext (funext fun z => ?_) rfl
  rw [Holders.move_held]
  show (moved s.var x y other z).bind _ = if z = y then none else
    if z = x then (s.var y).bind EJRValue.reference else (s.var z).bind EJRValue.reference
  rw [moved_reference, hy, Option.bind_some]

/-- A move assignment first lets go of what the target owns. -/
theorem holders_moveAssign (hne : x ≠ y) (hx : s.var x = some this) (hy : s.var y = some other) :
    (s.moveAssign x y).holders = (s.holders.drop x).move x y := by
  have hassign : s.moveAssign x y =
      { freed := s.freed ++ [this], var := moved s.var x y other } := by
    simp only [moveAssign, if_neg hne, hx, hy]
  rw [hassign]
  refine Holders.ext (funext fun z => ?_) ?_
  · rw [Holders.move_held]
    show (moved s.var x y other z).bind _ = _
    rw [moved_reference, Holders.drop_held, Holders.drop_held, if_neg (Ne.symm hne)]
    show _ = if z = y then none else if z = x then (s.var y).bind EJRValue.reference else
      if z = x then none else (s.var z).bind EJRValue.reference
    rw [hy, Option.bind_some]
    by_cases hzx : z = x
    · simp only [if_pos hzx]
    · simp only [if_neg hzx]
  · show (s.freed ++ [this]).filterMap EJRValue.reference =
      s.freed.filterMap EJRValue.reference ++ ((s.var x).bind EJRValue.reference).toList
    rw [List.filterMap_append, hx, Option.bind_some]
    cases h : this.reference <;> simp [h]

/-- The destructor lets go. -/
theorem holders_destroy (hx : s.var x = some this) :
    (s.destroy x).holders = s.holders.drop x := by
  have hdestroy : s.destroy x =
      { freed := s.freed ++ [this], var := Function.update s.var x none } := by
    simp only [destroy, hx]
  rw [hdestroy]
  refine Holders.ext (funext fun z => ?_) ?_
  · rw [Holders.drop_held]
    show (Function.update s.var x none z).bind _ = _
    by_cases h : z = x
    · rw [if_pos h, h, Function.update_self, Option.bind_none]
    · rw [if_neg h, Function.update_of_ne h]
      rfl
  · show (s.freed ++ [this]).filterMap EJRValue.reference =
      s.freed.filterMap EJRValue.reference ++ ((s.var x).bind EJRValue.reference).toList
    rw [List.filterMap_append, hx, Option.bind_some]
    cases h : this.reference <;> simp [h]

/-! ## Runs -/

/-- Each operation keeps the account. -/
theorem step_accounted {op : Op ν} (hstep : step s op t) (hs : s.holders.Accounted given)
    (hown : (given ++ op.given).Nodup) : t.holders.Accounted (given ++ op.given) := by
  cases hstep with
  | @construct x ctx val hx =>
    rw [holders_construct]
    refine hs.give ?_ hown
    show (s.var x).bind _ = none
    rw [hx, Option.bind_none]
  | @moveConstruct x y other hx hy =>
    have hne : x ≠ y := by
      rintro rfl
      rw [hx] at hy
      exact absurd hy (by simp)
    rw [holders_moveConstruct hy, Op.given, List.append_nil]
    refine hs.move ?_ hne
    show (s.var x).bind _ = none
    rw [hx, Option.bind_none]
  | @moveAssign x y this other hx hy =>
    rw [Op.given, List.append_nil]
    by_cases hxy : x = y
    · -- `this != &other`
      rw [moveAssign, if_pos hxy]
      exact hs
    · rw [holders_moveAssign hxy hx hy]
      refine hs.drop.move ?_ hxy
      rw [Holders.drop_held, if_pos rfl]
  | @destroy x this hx =>
    rw [holders_destroy hx, Op.given, List.append_nil]
    exact hs.drop

theorem run_accounted {ops : List (Op ν)} (hrun : Run step s ops t) : ∀ {given : List (Addr × RefId)},
    s.holders.Accounted given → (given ++ ops.flatMap Op.given).Nodup →
    t.holders.Accounted (given ++ ops.flatMap Op.given) := by
  induction hrun with
  | nil s =>
    intro given hs _
    rwa [List.flatMap_nil, List.append_nil]
  | cons hstep _ ih =>
    intro given hs hown
    rw [List.flatMap_cons, ← List.append_assoc] at hown ⊢
    exact ih (step_accounted hstep hs (List.nodup_append.mp hown).1) hown

/-- Of the references `given`, each is owned by one variable or has been
released once, with its own context; none that a variable owns has been released. -/
structure Linear (given : List (Addr × RefId)) (s : EJRValues ν) : Prop where
  kept : ∀ p ∈ given, p ∈ s.releases ∨ ∃ x v, s.var x = some v ∧ v.reference = some p
  held : ∀ x v p, s.var x = some v → v.reference = some p →
    p ∈ given ∧ p.2 ∉ s.releases.map Prod.snd
  one : ∀ x y v w p, s.var x = some v → s.var y = some w → v.reference = some p →
    w.reference = some p → x = y
  once : (s.releases.map Prod.snd).Nodup
  own : ∀ p ∈ s.releases, p ∈ given
  all : (∀ x, s.var x = none) → s.releases.Perm given

omit [DecidableEq ν] in
theorem linear_of_accounted (hs : s.holders.Accounted given) (hown : (given.map Prod.snd).Nodup) :
    Linear given s := by
  have hsub : ∀ p ∈ s.releases, p ∈ given := fun p hp => (hs.all p).mpr (.inl hp)
  have hheld : ∀ x v p, s.var x = some v → v.reference = some p → s.holders.held x = some p := by
    intro x v p hx hv
    show (s.var x).bind _ = some p
    rw [hx, Option.bind_some, hv]
  refine ⟨?_, ?_, ?_, ?_, hsub, ?_⟩
  · intro p hp
    rcases (hs.all p).mp hp with h | ⟨x, h⟩
    · exact .inl h
    · obtain ⟨v, hx, hv⟩ := Option.bind_eq_some_iff.mp h
      exact .inr ⟨x, v, hx, hv⟩
  · intro x v p hx hv
    have hp := hheld x v p hx hv
    have hmem : p ∈ given := (hs.all p).mpr (.inr ⟨x, hp⟩)
    refine ⟨hmem, fun hreleased => ?_⟩
    -- a reference has one context
    obtain ⟨q, hq, hqp⟩ := List.mem_map.mp hreleased
    obtain rfl := List.inj_on_of_nodup_map hown (hsub q hq) hmem hqp
    exact hs.disjoint x q hp hq
  · intro x y v w p hx hy hv hw
    exact hs.inj x y p (hheld x v p hx hv) (hheld y w p hy hw)
  · refine List.Nodup.map_on ?_ hs.once
    intro p hp q hq heq
    exact List.inj_on_of_nodup_map hown (hsub p hp) (hsub q hq) heq
  · intro hnone
    refine hs.perm fun x => ?_
    show (s.var x).bind _ = none
    rw [hnone x, Option.bind_none]

/-- `JS_FreeValue` releases the reference; without one it does nothing. -/
theorem jsFreeValue_reference (v : EJRValue) (rt : Rt) :
    jsFreeValue v.val rt = .ok () (rt.log (v.reference.toList.map fun p => .free p.2)) := by
  have hevents : v.val.events .free = v.reference.toList.map fun p => .free p.2 := by
    unfold JSValue.events EJRValue.reference
    by_cases h : v.val.val.hasRefCount = true
    · rw [if_pos h, if_pos h]
      rfl
    · rw [if_neg h, if_neg h]
      rfl
  rw [← hevents]
  rfl

/-- **`EJRValue` is linear**: along every run each reference handed in is with one
variable or has been released once with its own context, and all have been when
no variable is left. Releasing undefined does nothing. -/
theorem linear_of_run {ops : List (Op ν)} (hrun : Run step empty ops t)
    (hown : ((ops.flatMap Op.given).map Prod.snd).Nodup) :
    Linear (ops.flatMap Op.given) t ∧ ∀ rt, jsFreeValue jsUndefined rt = .ok () rt := by
  have hempty : (empty : EJRValues ν).holders.Accounted [] := Holders.accounted_empty
  have hacc := run_accounted hrun hempty (List.Nodup.of_map _ hown)
  refine ⟨linear_of_accounted hacc hown, fun rt => ?_⟩
  rw [jsFreeValue_reference ⟨jsUndefined, 0⟩ rt]
  show EStateM.Result.ok () (rt.log []) = _
  rw [Rt.log, List.append_nil]

end

/-- Two variables of different contexts, one assigned to the other: the reference
it had goes first, the other one when it is destroyed. -/
theorem linear_of_run_assigned :
    Linear ([.construct true 1 ⟨.string [], 7⟩, .construct false 2 ⟨.string [], 8⟩,
        .moveAssign true false, .destroy true, .destroy false].flatMap Op.given)
      (((((empty : EJRValues Bool).construct true 1 ⟨.string [], 7⟩).construct false 2
        ⟨.string [], 8⟩).moveAssign true false).destroy true |>.destroy false) ∧
      ∀ rt, jsFreeValue jsUndefined rt = .ok () rt :=
  linear_of_run
    (.cons (.construct _ _ _ rfl) (.cons (.construct _ _ _ rfl)
      (.cons (.moveAssign _ rfl rfl) (.cons (.destroy _ rfl) (.cons (.destroy _ rfl) (.nil _))))))
    (by decide)

example : ((((((empty : EJRValues Bool).construct true 1 ⟨.string [], 7⟩).construct false 2
    ⟨.string [], 8⟩).moveAssign true false).destroy true).destroy false).releases =
      [(1, 7), (2, 8)] := by
  decide

end EJRValues

end Ejr
