import Ejr.CApi.Ledger
import Ejr.Footprint

/-!
# Nothing is released twice

Every reference the table was given is released at most once, and what is under
a live id has not been released yet (`OwnsLive`), in every run in which
`jsarg_from_jsvalue` comes to values without a reference only
(`ownsLive_iff`): it releases the value, under a comment that says so, and
leaves it in the table.

The account is the loose one: callbacks and registrations may treat what they
take themselves as they like. What they release, they have taken since they
began; that is the footprint of `from_js` (`Ejr.Footprint`).
-/

namespace Ejr

open Lib EasyJSR

variable {Cb : Type}

/-- What was stored has been released at most once; what is under a live id not
at all, and it is under this id alone. -/
structure OwnsLive (s : Handle Cb) : Prop where
  once : ∀ v ∈ s.stored, v.val.hasRefCount = true → s.rt.trace.count (.free v.ref) ≤ 1
  live : ∀ id v, s.jsvad.find? id = some v → v.val.hasRefCount = true →
    s.rt.trace.count (.free v.ref) = 0
  own : ∀ id id' v v', s.jsvad.find? id = some v → s.jsvad.find? id' = some v' →
    v.val.hasRefCount = true → v'.val.hasRefCount = true → v.ref = v'.ref → id = id'

/-! ## Callbacks and registrations -/

/-- `from_js` of an argument of a callback releases nothing it has not taken. -/
theorem takes_fromJs_borrowed (depth : Nat) (v : JSValue) :
    Takes looseRefs AnyHeap [] (fun _ => []) (fromJs depth v false) := by
  intro s _ _
  let P : Nat → Event → Prop := fun hi e => ∀ n, e.frees = some n → s.fresh ≤ n.rank ∧ n.rank < hi
  have hadmits : Admits P s.fresh := by
    refine ⟨?_, ?_, ?_, ?_, ?_⟩
    · exact fun _ _ _ h => nomatch h
    · intro hi r hlo hr n hn
      rw [← Option.some.inj hn]
      exact ⟨hlo, hr⟩
    · exact fun _ _ _ h => nomatch h
    · exact fun _ _ _ h => nomatch h
    · exact fun _ _ _ h => nomatch h
  have hleaves := leaves_fromJs (P := P) (fun _ _ _ _ _ h => nomatch h) depth s.fresh v false
    hadmits (fun h => nomatch h) s (Nat.le_refl _)
  have hentry : ∀ t, Emits P s t → Entry looseRefs rtLog s [] t [] := by
    intro t ht
    obtain ⟨es, hes, hP⟩ := ht.trace
    refine ⟨es, hes, loose_of_new ht.fresh fun n hn => ?_⟩
    obtain ⟨e, he, hfrees⟩ := List.mem_filterMap.mp hn
    exact hP e he t.fresh (Nat.le_refl _) n hfrees
  refine wp_mono hleaves ?_ ?_
  · exact fun _ t ht => ⟨trivial, hentry t ht.1⟩
  · exact fun _ t ht => ⟨[], hentry t ht⟩

theorem takes_trampolineArgs (depth : Nat) : ∀ argv : List JSValue,
    Takes looseRefs AnyHeap [] (fun _ => []) (trampolineArgs depth argv)
  | [] => (account_loose _ _).owes_pure (.refl _)
  | v :: argv => by
    refine (account_loose _ _).owes_bind (takes_fromJs_borrowed depth v) fun a => ?_
    refine (account_loose _ _).owes_bind (takes_trampolineArgs depth argv) fun cppArgs => ?_
    exact (account_loose _ _).owes_pure (.refl _)

theorem takes_trampoline (depth : Nat) (callbacks : Bytes → Option DynCallback)
    (funcData1 : JSValue) (argv : List JSValue) :
    Takes looseRefs AnyHeap [] JSValue.owned (trampoline depth callbacks funcData1 argv) := by
  refine (account_loose _ _).owes_bind (takes_trampolineArgs depth argv) fun cppArgs => ?_
  refine (account_loose _ _).owes_bind (takes_jsToCString bookkeeping_loose _) fun cbnameCstr => ?_
  refine (account_loose _ _).owes_bind (takes_stdString bookkeeping_loose _) fun cbName => ?_
  refine (account_loose _ _).owes_bind (takes_jsFreeCString bookkeeping_loose _) fun _ => ?_
  split
  next => exact takes_own bookkeeping_loose _
  next => exact takes_toJs bookkeeping_loose handsOver_loose _

/-- No condition on the handle. -/
abbrev AnyHandle : Handle Cb → Prop := fun _ => True

theorem books_loose : Books looseRefs (@AnyHandle Cb) where
  toBookkeeping := bookkeeping_loose
  gives := handsOver_loose
  stable _ _ _ := trivial
  callback depth fn argv answers := by
    refine (account_loose _ _).owes_bind (account_loose _ _).owes_get fun s => ?_
    split
    next =>
      refine (account_loose _ _).owes_bind (charges_of_takes (fun _ _ h => h)
        (takes_trampoline _ _ _ _)) fun result => ?_
      exact charges_of_takes (fun _ _ h => h) (takes_give handsOver_loose result)
    next => exact (account_loose _ _).owes_pure (.refl _)
  moduleExport fn := by
    refine (account_loose _ _).owes_bind (account_loose _ _).owes_get fun s => ?_
    split
    next methodValue _ =>
      -- the reference handed over may be somebody else's, but nothing is released
      intro t _ ho
      obtain ⟨-, -, hfrees⟩ := filterMap_events_give methodValue
      exact ⟨trivial, _, rfl,
        loose_of_no_frees (Nat.le_refl _) hfrees ho.2 fun _ _ => Nat.le_add_right _ _⟩
    next => exact (account_loose _ _).owes_pure (.refl _)

theorem takes_newFunctionData : Takes looseRefs AnyHeap [] JSValue.owned newFunctionData :=
  fun s _ _ => ⟨trivial, _, rfl, bookkeeping_loose.own s.fresh (.object s.heap.next)⟩

/-- The function data are forgotten; the caller is left with the function. -/
theorem charges_createTrampoline (t : Target) (cb : Cb) :
    Charges looseRefs AnyHandle [] JSValue.owned (createTrampoline t cb) := by
  have hB : Books looseRefs (@AnyHandle Cb) := books_loose
  refine hB.owes_bind hB.owes_get fun s => ?_
  refine hB.owes_bind (charges_onRt hB (takes_own bookkeeping_loose _)) fun funcData0 => ?_
  refine hB.owes_new (charges_onRt hB (takes_own bookkeeping_loose _)) fun funcData1 => ?_
  refine hB.owes_new (charges_onRt hB takes_newFunctionData) fun fn => ?_
  refine hB.owes_bind (m := fun _ => fn.owned ++ (funcData1.owned ++ funcData0.owned)) ?_
    fun _ => ?_
  · exact fun s _ ho => ⟨trivial, hB.entry_refl s ho⟩
  · exact owes_forget (List.sublist_append_left _ _).subperm

theorem charges_registerCallback (fnName : Bytes) (cb : Cb) (setProperty : List (Work Cb)) :
    Charges looseRefs AnyHandle [] (fun _ => [])
      (EasyJSR.registerCallback fnName cb setProperty) := by
  have hB : Books looseRefs (@AnyHandle Cb) := books_loose
  refine hB.owes_bind hB.owes_get fun s => ?_
  refine hB.owes_bind (charges_onRt hB (takes_own bookkeeping_loose _)) fun global => ?_
  refine hB.owes_new (charges_createTrampoline _ cb) fun fn => ?_
  refine hB.owes_drop (charges_onRt hB (takes_give handsOver_loose fn)) (.refl _) fun _ => ?_
  refine hB.owes_new (charges_runWork hB setProperty) fun _ => ?_
  exact charges_onRt hB (takes_freeJsval bookkeeping_loose global)

/-- A name given twice is thrown, an error of the engine's own. -/
theorem takes_jsAddModuleExport (exports : List JSString) (exportName : Bytes) :
    Takes looseRefs AnyHeap [] (fun _ => []) (jsAddModuleExport exports exportName) := by
  unfold jsAddModuleExport
  split
  next =>
    exact (account_loose _ _).owes_bind (takes_jsThrow bookkeeping_loose _ []) fun _ =>
      (account_loose _ _).owes_pure (.refl _)
  next => exact (account_loose _ _).owes_pure (.refl _)

theorem charges_createMethods (moduleName : Bytes) : ∀ (exports : List JSString)
    (methods : List (Bytes × Cb)),
    Charges looseRefs AnyHandle [] (fun _ => []) (EasyJSR.createMethods moduleName exports methods)
  | _, [] => (account_loose _ _).owes_pure (.refl _)
  | _, (name, cb) :: methods => by
    have hB : Books looseRefs (@AnyHandle Cb) := books_loose
    refine hB.owes_bind hB.owes_get fun s => ?_
    refine hB.owes_bind (charges_onRt hB (takes_jsAddModuleExport _ name)) fun exports => ?_
    refine hB.owes_bind (charges_createTrampoline _ cb) fun fn => ?_
    refine hB.owes_new (charges_createMethods moduleName exports methods) fun _ => ?_
    exact owes_forget List.nil_subperm

theorem charges_registerModule (moduleName : Bytes) (methods : List (Bytes × Cb)) :
    Charges looseRefs AnyHandle [] (fun _ => []) (EasyJSR.registerModule moduleName methods) := by
  refine (account_loose _ _).owes_bind (charges_createMethods moduleName [] methods) fun _ => ?_
  exact charges_modify books_loose [] (fun _ => rfl) (fun _ => rfl) (fun _ => rfl) fun _ => rfl

/-! ## Careful calls -/

/-- `jsarg_from_jsvalue` is called for a value without a reference. -/
def Careful (s : Handle Cb) : Call Cb → Prop
  | .jsargFromJsvalue _ value => value < 0 ∨ (s.jsvad.get value).val.hasRefCount = false
  | _ => True

/-- What is pushed out of the table is forgotten. -/
theorem room_loose (ad : JSValueAD) : Room looseRefs ad := by
  intro v lo hi o es hA
  refine hA.forget ?_
  rw [JSValueAD.owned_addValue]
  refine (List.subperm_append_left _).mpr ?_
  exact (List.sublist_append_right _ _).subperm.trans (ad.owned_freeValue ad.nextId).symm.subperm

theorem Careful.sound {s : Handle Cb} {l : Call Cb} (h : Careful s l) :
    l.Sound looseRefs AnyHandle s.jsvad := by
  cases l with
  | evalClassFunction => exact fun _ => room_loose _
  | getPropertyFrom => exact fun _ => room_loose _
  | jsargFromJsvalue depth value => exact h
  | registerCallback fnName cb setProperty => exact charges_registerCallback _ _ _
  | registerModule moduleName methods => exact charges_registerModule _ _
  | valToString => trivial
  | freeJsvalue => trivial
  | free => trivial
  | _ => exact room_loose _

/-! ## Runs -/

/-- The releases of a name so far. -/
def Handle.frees (s : Handle Cb) (n : Name) : Nat := (s.rt.trace.filterMap Event.frees).count n

/-- The account of everything so far. What was stored has been released at most
once, and not at all while the table owns it. -/
structure Unharmed (s : Handle Cb) : Prop where
  account : looseRefs 0 s.rt.fresh [] s.jsvad.owned s.rt.trace
  stored : ∀ v ∈ s.stored, ∀ n ∈ v.owned,
    n.rank < s.rt.fresh ∧ s.frees n + s.jsvad.owned.count n ≤ 1

theorem unharmed_new (self : UInt64) (heap : Heap) (global : Addr) :
    Unharmed (.new self heap global : Handle Cb) where
  account := (account_loose _ _).nil (Held.nil _ _)
  stored _ hv := nomatch hv

/-- What the table owns has not been released. -/
theorem unreleased {s : Handle Cb} (h : looseRefs 0 s.rt.fresh [] s.jsvad.owned s.rt.trace)
    {n : Name} (hn : n ∈ s.jsvad.owned) :
    n.rank < s.rt.fresh ∧ s.frees n + s.jsvad.owned.count n ≤ 1 := by
  have hbound := h.bound n (.inr hn)
  rw [List.count_nil, Nat.zero_add, if_pos (Nat.zero_le _)] at hbound
  exact ⟨h.below n hn, Nat.add_comm _ _ ▸ hbound⟩

/-- What a call stores, the table owns afterwards. -/
theorem stored_or_owned {s t : Handle Cb} {l : Call Cb} (hstep : Handle.step s l t) :
    ∀ v ∈ t.stored, v ∈ s.stored ∨ ∀ n ∈ v.owned, n ∈ t.jsvad.owned := by
  obtain ⟨-, hrun⟩ := hstep
  have htouch := wp_of_ok (l.touches s) hrun
  intro v hv
  cases htouch with
  | apart hapart ha => exact .inl (hapart.stored ▸ hv)
  | read id ha hjsvad hclosed hstored hraised hread => exact .inl (hstored ▸ hv)
  | stored value thrown hjsvad hclosed hstored hraised hread =>
    rw [hstored] at hv
    rcases List.mem_append.mp hv with hv | hv
    · exact .inl hv
    · obtain rfl := List.mem_singleton.mp hv
      refine .inr fun n hn => ?_
      rw [hjsvad, JSValueAD.owned_addValue]
      exact List.mem_append_left _ hn
  | freed id hjsvad hclosed hstored hraised hread => exact .inl (hstored ▸ hv)
  | closed hjsvad hclosed hstored hraised hread => exact .inl (hstored ▸ hv)

/-- One call. -/
theorem Unharmed.step {s t : Handle Cb} {l : Call Cb} (h : Unharmed s) (hl : Careful s l)
    (hstep : Handle.step s l t) : Unharmed t := by
  have hheld := (account_loose _ _).held (Held.nil _ _) h.account
  obtain ⟨-, es, hes, hA⟩ := entry_of_step books_loose hstep hl.sound trivial hheld
  replace hes : t.rt.trace = s.rt.trace ++ es := hes
  replace hA : looseRefs s.rt.fresh t.rt.fresh s.jsvad.owned t.jsvad.owned es := hA
  have haccount : looseRefs 0 t.rt.fresh [] t.jsvad.owned t.rt.trace := by
    rw [hes]
    exact h.account.seq hA
  refine ⟨haccount, fun v hv n hn => ?_⟩
  by_cases hold : n ∈ t.jsvad.owned
  · exact unreleased haccount hold
  · -- it was stored before, and the call has released it at most where the table owned it
    have hbefore := (stored_or_owned hstep v hv).resolve_right fun h => hold (h n hn)
    obtain ⟨hrank, hcount⟩ := h.stored v hbefore n hn
    have hstepBound := hA.bound n (.inl hrank)
    rw [if_neg (Nat.not_le_of_lt hrank)] at hstepBound
    refine ⟨Nat.lt_of_lt_of_le hrank hA.le, ?_⟩
    unfold Handle.frees at hcount ⊢
    rw [hes, List.filterMap_append, List.count_append]
    omega

theorem count_frees (r : RefId) : ∀ es : List Event,
    (es.filterMap Event.frees).count (.ref r) = es.count (.free r)
  | [] => rfl
  | e :: es => by
    have ih := count_frees r es
    cases e <;> simp [List.filterMap_cons, Event.frees, List.count_cons, ih]

/-- No name is under two ids. -/
theorem id_unique {ad : JSValueAD} (h : ad.owned.Nodup) {id id' : Int32} {v v' : JSValue} {n : Name}
    (hv : ad.find? id = some v) (hv' : ad.find? id' = some v') (hn : n ∈ v.owned)
    (hn' : n ∈ v'.owned) : id = id' := by
  by_contra hne
  have hsymm : Std.Symm (Function.onFun List.Disjoint
      fun e : Sigma fun _ : Int32 => JSValue => e.2.owned) := ⟨fun _ _ h => List.Disjoint.symm h⟩
  have hdisjoint := (List.nodup_flatMap.mp h).2.forall (AList.mem_lookup_iff.mp hv)
    (AList.mem_lookup_iff.mp hv') fun he => hne (congrArg Sigma.fst he)
  exact hdisjoint hn hn'

theorem Unharmed.ownsLive {s : Handle Cb} (h : Unharmed s) : OwnsLive s := by
  have hheld := (account_loose _ _).held (Held.nil _ _) h.account
  constructor
  · intro v hv hcounted
    have hcount := (h.stored v hv _ (mem_owned_ref hcounted)).2
    rw [Handle.frees, count_frees] at hcount
    omega
  · intro id v hv hcounted
    have hmem := JSValueAD.mem_owned.mpr ⟨id, v, hv, mem_owned_ref hcounted⟩
    have hcount := (unreleased h.account hmem).2
    have hpos := List.count_pos_iff.mpr hmem
    rw [Handle.frees, count_frees] at hcount
    omega
  · intro id id' v v' hv hv' hcounted hcounted' href
    refine id_unique hheld.1 hv hv' (mem_owned_ref hcounted) ?_
    rw [href]
    exact mem_owned_ref hcounted'

/-! ## The condition is exact -/

/-- If it returns, the reference `r` has been released. -/
def FreesRef {α : Type} (r : RefId) (p : EngineM α) : Prop :=
  ∀ s, wp p s (fun _ t => Event.free r ∈ t.trace) fun _ _ => True

section

variable {α β : Type} {r : RefId}

theorem freesRef_later {p : EngineM α} {f : α → EngineM β} (hf : ∀ a, FreesRef r (f a)) :
    FreesRef r (p >>= f) := by
  intro s
  rw [wp_bind]
  exact wp_mono wp_true (fun a t _ => hf a t) fun _ _ h => h

/-- What follows only adds to the trace. -/
theorem freesRef_now {p : EngineM α} {f : α → EngineM β} (hp : FreesRef r p)
    (hf : ∀ a, Leaves (fun _ _ => True) 0 (fun _ => True) (f a)) : FreesRef r (p >>= f) := by
  intro s
  rw [wp_bind]
  refine wp_mono (hp s) ?_ fun _ _ h => h
  intro a t ht
  refine wp_mono (hf a t (Nat.zero_le _)) ?_ fun _ _ _ => trivial
  intro b u hu
  obtain ⟨es, hes⟩ := hu.1.grows
  rw [hes]
  exact List.mem_append_left _ ht

theorem grows_jsFreeValue (v : JSValue) :
    Leaves (fun _ _ => True) 0 (fun _ => True) (jsFreeValue v) :=
  keeps_modify fun _ _ => emits_log fun _ _ _ _ => trivial

variable {value : JSValue} (hvalue : value.val.hasRefCount = true)

include hvalue

theorem freesRef_freeIf : FreesRef value.ref (freeIf true value) := by
  intro s
  rw [wp_freeIf, if_pos rfl, JSValue.events, if_pos hvalue]
  exact List.mem_append_right _ (List.mem_singleton.mpr rfl)

theorem freesRef_done {a : α} : FreesRef value.ref (do freeIf true value; pure a : EngineM α) :=
  freesRef_now (freesRef_freeIf hvalue) fun _ => keeps_pure framing_emits trivial

theorem freesRef_fromJsError : FreesRef value.ref (fromJsError value true) := by
  have hall := admits_all 0
  refine freesRef_later fun message => freesRef_later fun name => ?_
  refine freesRef_later fun messageCstr => freesRef_later fun nameCstr => ?_
  refine freesRef_later fun messageStr => freesRef_later fun nameStr => ?_
  refine freesRef_later fun execName => freesRef_now (freesRef_freeIf hvalue) fun _ => ?_
  refine keeps_bind framing_emits (grows_jsFreeValue message) fun _ _ => ?_
  refine keeps_bind framing_emits (grows_jsFreeValue name) fun _ _ => ?_
  refine keeps_bind framing_emits (leaves_jsFreeCString hall messageCstr) fun _ _ => ?_
  refine keeps_bind framing_emits (leaves_jsFreeCString hall nameCstr) fun _ _ => ?_
  exact keeps_pure framing_emits trivial

theorem freesRef_fromJsView (buffer : JSValue) (view : View) :
    FreesRef value.ref (fromJsView value true buffer view) := by
  have hall := admits_all 0
  refine freesRef_now ?_ fun probed => ?_
  · refine freesRef_later fun constructor => freesRef_later fun name => ?_
    refine freesRef_later fun nameCstr => freesRef_later fun bufferData => ?_
    refine freesRef_later fun _ => freesRef_later fun _ => ?_
    exact freesRef_later fun _ => freesRef_later fun _ => freesRef_done hvalue
  · obtain ⟨nameCstr, bufferData⟩ := probed
    cases bufferData with
    | none => exact keeps_pure framing_emits trivial
    | some data =>
      refine keeps_bind framing_emits (leaves_stdString hall nameCstr) fun name _ => ?_
      cases elemOfName name with
      | none => exact leaves_fromJsText (fun _ _ _ _ _ => trivial) (Nat.le_refl 0) _
      | some t =>
        exact keeps_bind framing_emits (leaves_readElements (fun _ _ _ _ => trivial) _ _ _ _)
          fun _ _ => keeps_pure framing_emits trivial

theorem freesRef_fromJsRest : FreesRef value.ref (fromJsRest value true) := by
  refine freesRef_later fun s => ?_
  split
  next => exact freesRef_done hvalue
  next => exact freesRef_done hvalue
  next hval =>
    rw [hval] at hvalue
    exact nomatch hvalue
  next =>
    split
    next => exact freesRef_fromJsError hvalue
    next =>
      refine freesRef_later fun found => ?_
      split
      next => exact freesRef_fromJsView hvalue _ _
      next => exact freesRef_done hvalue

/-- **`from_js`** with `force_free` releases its argument whenever it returns. -/
theorem freesRef_fromJs : ∀ depth : Nat, FreesRef value.ref (fromJs depth value true)
  | 0 => fun _ => trivial
  | depth + 1 => by
    unfold fromJs
    split
    next =>
      refine freesRef_later fun val => freesRef_later fun valString => ?_
      exact freesRef_later fun _ => freesRef_done hvalue
    next hval =>
      rw [hval] at hvalue
      exact nomatch hvalue
    next hval =>
      rw [hval] at hvalue
      exact nomatch hvalue
    next hval =>
      rw [hval] at hvalue
      exact nomatch hvalue
    next =>
      refine freesRef_later fun b => ?_
      split
      next => exact freesRef_fromJsRest hvalue
      next =>
        refine freesRef_later fun lenVal => freesRef_later fun len => ?_
        exact freesRef_later fun _ => freesRef_later fun vec => freesRef_done hvalue

end

/-- A call that is not careful leaves a live id without its reference. -/
theorem careful_of_ownsLive {s t : Handle Cb} {l : Call Cb} (hstep : Handle.step s l t)
    (ht : OwnsLive t) : Careful s l := by
  cases l with
  | jsargFromJsvalue depth value =>
    by_contra hcareful
    obtain ⟨hpos, hcounted⟩ := not_or.mp hcareful
    rw [Bool.not_eq_false] at hcounted
    obtain ⟨-, hrun⟩ := hstep
    have hfrees : wp (Call.jsargFromJsvalue depth value : Call Cb).run s
        (fun _ t => t.jsvad = s.jsvad ∧ Event.free (s.jsvad.get value).ref ∈ t.rt.trace)
        (fun _ _ => True) := by
      show wp (Answer.arg <$> Ejr.jsargFromJsvalue depth value : ApiM Cb Answer) s _ _
      rw [wp_map, Ejr.jsargFromJsvalue, if_neg hpos, wp_bind, wp_get, wp_onRt]
      exact wp_mono (freesRef_fromJs hcounted depth s.rt) (fun _ _ h => ⟨rfl, h⟩) fun _ _ h => h
    obtain ⟨hjsvad, hmem⟩ := wp_of_ok (Q := fun _ t => t.jsvad = s.jsvad ∧
      Event.free (s.jsvad.get value).ref ∈ t.rt.trace) hfrees hrun
    -- a value with a reference is not what `get` makes up
    cases hfind : s.jsvad.find? value with
    | none =>
      rw [JSValueAD.get, hfind] at hcounted
      exact absurd hcounted Bool.false_ne_true
    | some v =>
      have hget : s.jsvad.get value = v := by rw [JSValueAD.get, hfind, Option.getD_some]
      rw [hget] at hmem hcounted
      have hzero := ht.live value v (hjsvad ▸ hfind) hcounted
      exact absurd hmem (List.count_eq_zero.mp hzero)
  | _ => trivial

/-- **No reference of the table is released twice**, and live ids own theirs, in
every state of a run, exactly when the calls of the run are careful. -/
theorem ownsLive_iff {self : UInt64} {heap : Heap} {global : Addr} {ls : List (Call Cb)}
    {t : Handle Cb} (h : Run Handle.step (.new self heap global) ls t) :
    Throughout Handle.step OwnsLive (.new self heap global) ls ↔
      Along Handle.step Careful (.new self heap global) ls t := by
  constructor
  · intro hall
    refine h.along fun pre l post u v heq hpre hstep => ?_
    refine careful_of_ownsLive hstep (hall (pre ++ [l]) post v ?_ (hpre.snoc hstep))
    rw [heq, List.append_assoc]
    rfl
  · intro hcareful pre post s heq hpre
    subst heq
    obtain ⟨m, hm, -⟩ := hcareful.split
    obtain rfl := hpre.unique step_unique hm.run
    exact (hm.invariant (unharmed_new self heap global) fun _ _ _ => Unharmed.step).ownsLive

/-- A string is stored, and left to `ejr_free`. -/
theorem ownsLive_iff_string : Throughout Handle.step OwnsLive (.new 0 .initial 0 : Handle Unit)
    [.getFromGlobal ⟨[], .value (.string [])⟩, .free] := by
  obtain ⟨s, hget, hopen, -⟩ := exists_string
  obtain ⟨t, hfree, -⟩ := exists_free hopen
  have halong : Along Handle.step Careful (.new 0 .initial 0)
      [.getFromGlobal ⟨[], .value (.string [])⟩, .free] t :=
    .cons trivial hget (.cons trivial hfree (.nil t))
  exact (ownsLive_iff halong.run).mpr halong

/-- A string is stored and converted: its id is live, and its reference is gone. -/
theorem ownsLive_fails : ¬∀ (ls : List (Call Unit)) (t : Handle Unit),
    Run Handle.step (.new 0 .initial 0) ls t → OwnsLive t := by
  intro hall
  obtain ⟨s, hget, hopen, hjsvad⟩ := exists_string
  have hconvert : wp (Call.jsargFromJsvalue 1 0 : Call Unit).run s (fun _ _ => True)
      (fun _ _ => False) := by
    have hvalue : s.jsvad.get 0 = ⟨.string [], 1⟩ := by
      rw [hjsvad]
      rfl
    show wp (Answer.arg <$> Ejr.jsargFromJsvalue 1 0 : ApiM Unit Answer) s _ _
    rw [wp_map, Ejr.jsargFromJsvalue, if_neg (by decide), wp_bind, wp_get, wp_onRt, hvalue,
      fromJs_string rfl]
    simp [fromJsString]
  obtain ⟨a, t, hrun, -⟩ := exists_ok_of_wp hconvert
  have hstep : Handle.step s (.jsargFromJsvalue 1 0) t := ⟨hopen, hrun⟩
  have hcareful := careful_of_ownsLive hstep (hall _ t (.cons hget (.cons hstep (.nil t))))
  rcases hcareful with hneg | hcounted
  · exact absurd hneg (by decide)
  · rw [hjsvad] at hcounted
    exact absurd hcounted.symm Bool.false_ne_true

end Ejr
