import Ejr.CApi.Books

/-!
# The ledger of a handle

Between two calls of the C API the table of values owns what there is to own
(`JSValueAD.owned`). A call settles when it leads from what the table owned to
what it owns afterwards, in an account that keeps its books (`Ejr.CApi.Books`).
`Call.settles` says so of every call that is `Call.Sound`: what is stored must
find room in the table, `jsarg_from_jsvalue` must come to a value without a
reference, and what a registration owes is up to the account.

`Ejr.CApi.Shutdown` reads it with the exact account, `Ejr.CApi.OverRelease` with
the loose one.
-/

namespace Ejr

open Lib EasyJSR

variable {Cb : Type}

/-! ## What the table owns -/

namespace JSValueAD

/-- The references of the values in the table. -/
def owned (ad : JSValueAD) : List Name := ad.idToValue.entries.flatMap fun e => e.2.owned

theorem owned_addValue (ad : JSValueAD) (v : JSValue) :
    (ad.addValue v).owned = v.owned ++ (ad.freeValue ad.nextId).2.owned := rfl

theorem owned_free (ad : JSValueAD) : ad.free.2.owned = [] := rfl

theorem flatMap_free (ad : JSValueAD) : ad.free.1.flatMap JSValue.owned = ad.owned :=
  List.flatMap_map ..

/-- An id that is erased takes its references along. -/
theorem owned_freeValue (ad : JSValueAD) (id : Int32) :
    ad.owned.Perm
      ((ad.freeValue id).1.toList.flatMap JSValue.owned ++ (ad.freeValue id).2.owned) := by
  by_cases hid : id ∈ ad.idToValue.keys
  · obtain ⟨v, before, after, hnot, hentries, hrest⟩ := List.exists_of_kerase hid
    have hfind : (ad.freeValue id).1 = some v := by
      refine AList.mem_lookup_iff.mpr ?_
      rw [hentries]
      exact List.mem_append_right _ (List.mem_cons_self ..)
    have herase : (ad.freeValue id).2.owned = (before ++ after).flatMap fun e => e.2.owned := by
      show (List.kerase id _).flatMap _ = _
      rw [hrest]
    rw [hfind, herase, owned, hentries]
    simp only [Option.toList_some, List.flatMap_cons, List.flatMap_nil, List.append_nil,
      List.flatMap_append]
    exact List.perm_append_comm_assoc ..
  · have hfind : (ad.freeValue id).1 = none := AList.lookup_eq_none.mpr hid
    have herase : (ad.freeValue id).2.owned = ad.owned := by
      show (List.kerase id _).flatMap _ = _
      rw [List.kerase_of_notMem_keys hid]
      rfl
    rw [hfind, herase]
    exact .refl _

theorem mem_owned {ad : JSValueAD} {n : Name} :
    n ∈ ad.owned ↔ ∃ id v, ad.find? id = some v ∧ n ∈ v.owned := by
  unfold owned
  rw [List.mem_flatMap]
  constructor
  · intro ⟨e, he, hn⟩
    exact ⟨e.1, e.2, AList.mem_lookup_iff.mpr he, hn⟩
  · intro ⟨id, v, hfind, hn⟩
    exact ⟨⟨id, v⟩, AList.mem_lookup_iff.mp hfind, hn⟩

end JSValueAD

/-! ## One call -/

/-- With the table as it is in `ad`, and owning `o` besides, the program ends
owning what the table owns then. -/
def Settles {α : Type} (A : Nat → Nat → List Name → List Name → List Event → Prop)
    (I : Handle Cb → Prop) (ad : JSValueAD) (o : List Name) (p : ApiM Cb α) : Prop :=
  ∀ s, s.jsvad = ad → I s → Held Name.rank s.rt.fresh (o ++ ad.owned) →
    wp p s (fun _ t => I t ∧ Entry A apiLog s (o ++ ad.owned) t t.jsvad.owned) fun _ _ => True

/-- A value that is stored next finds room: the account lets go of what the
table owned under `next_id`. -/
def Room (A : Nat → Nat → List Name → List Name → List Event → Prop) (ad : JSValueAD) : Prop :=
  ∀ (v : JSValue) (lo hi : Nat) (o : List Name) (es : List Event),
    A lo hi o (v.owned ++ ad.owned) es → A lo hi o (ad.addValue v).owned es

section

variable {A : Nat → Nat → List Name → List Name → List Event → Prop} {I : Handle Cb → Prop}
variable {ad : JSValueAD}
variable (hB : Books A I)

include hB

/-- What stays away from the table comes first. -/
theorem settles_bind {α β : Type} {o : List Name} {m : α → List Name} {p : ApiM Cb α}
    {f : α → ApiM Cb β} (hp : Charges A I o m p) (hapart : StaysApart p)
    (hf : ∀ a, Settles A I ad (m a) (f a)) : Settles A I ad o (p >>= f) := by
  intro s hs hI ho
  rw [wp_bind]
  refine wp_mono (wp_and (hB.owes_frame (x := ad.owned) hp s hI ho) (hapart s trivial)) ?_
    (fun _ _ _ => trivial)
  intro a t ha
  obtain ⟨⟨ht, hentry⟩, hkept, -⟩ := ha
  refine wp_mono (hf a t (hkept.jsvad.trans hs) ht (hB.entry_held ho hentry)) ?_
    (fun _ _ _ => trivial)
  exact fun b u hu => ⟨hu.1, hB.entry_trans ho hentry hu.2⟩

/-- The whole of it stays away from the table. -/
theorem settles_of_apart {α : Type} {p : ApiM Cb α} (hp : Charges A I [] (fun _ => []) p)
    (hapart : StaysApart p) : Settles A I ad [] p := by
  intro s hs hI ho
  refine wp_mono (wp_and (hB.owes_frame (x := ad.owned) hp s hI ho) (hapart s trivial)) ?_
    (fun _ _ _ => trivial)
  intro a t ha
  obtain ⟨⟨ht, hentry⟩, hkept, -⟩ := ha
  rw [hkept.jsvad, hs]
  exact ⟨ht, hentry⟩

theorem settles_addValue (hroom : Room A ad) (v : JSValue) (thrown : Option JSVal) :
    Settles A I ad v.owned (addValue v thrown : ApiM Cb Int32) := by
  intro s hs hI ho
  subst hs
  obtain ⟨es, hes, hA⟩ := hB.entry_refl (L := apiLog) s ho
  exact ⟨hB.stable hI rfl rfl, es, hes, hroom v _ _ _ _ hA⟩

omit hB in
theorem settles_get {α : Type} {o : List Name} {f : Handle Cb → ApiM Cb α}
    (hf : ∀ s, s.jsvad = ad → Settles A I ad o (f s)) : Settles A I ad o (get >>= f) :=
  fun s hs => hf s hs s hs

theorem settles_pure {α : Type} (a : α) : Settles A I ad [] (pure a : ApiM Cb α) :=
  settles_of_apart hB (hB.owes_pure (.refl _)) (apart_pure a)

omit hB in
theorem settles_map {α β : Type} {o : List Name} {p : ApiM Cb α} {g : α → β}
    (hp : Settles A I ad o p) : Settles A I ad o (g <$> p) := by
  intro s hs hI ho
  rw [wp_map]
  exact hp s hs hI ho

/-- Values leave the table and are released. -/
theorem settles_release {values : List JSValue} {ad' : JSValueAD} {f : Handle Cb → Handle Cb}
    (hvalues : ad.owned.Perm (values.flatMap JSValue.owned ++ ad'.owned))
    (hjsvad : ∀ s, (f s).jsvad = ad') (hrt : ∀ s, (f s).rt = s.rt)
    (hregistry : ∀ s, (f s).registry = s.registry)
    (hfunctions : ∀ s, (f s).functions = s.functions) :
    Settles A I ad [] (do onRt (freeJsvals values); modify f : ApiM Cb Unit) := by
  intro s hs hI ho
  rw [wp_bind]
  have hfree := hB.owes_release (charges_onRt hB (takes_freeJsvals hB.toBookkeeping values)) hvalues
  refine wp_mono (hfree s hI ho) ?_ (fun _ _ _ => trivial)
  intro _ t ht
  obtain ⟨hIt, es, hes, hA⟩ := ht
  rw [wp_modify]
  refine ⟨hB.stable hIt (congrArg _ (hregistry t)) (hfunctions t), es, ?_, ?_⟩
  · show (f t).rt.trace = _
    rw [hrt]
    exact hes
  · show A s.rt.fresh (f t).rt.fresh _ _ _
    rw [hrt, hjsvad]
    exact hA

theorem settles_ejrEvalModule (hroom : Room A ad) (c : Completion Cb) :
    Settles A I ad [] (ejrEvalModule c) := by
  refine settles_bind hB (charges_engine hB c) (apart_engine c) fun value => ?_
  split
  next => exact settles_addValue hB hroom _ _
  next =>
    -- the promise is released when its result is owned
    refine settles_bind hB (hB.owes_frame (x := value.owned) (charges_awaitPromise hB value))
      (apart_awaitPromise value) fun promiseResult => ?_
    have hfree := hB.owes_release (x := promiseResult.owned)
      (charges_onRt hB (takes_freeJsval hB.toBookkeeping value)) List.perm_append_comm
    refine settles_bind hB hfree (apart_onRt _) fun _ => ?_
    exact settles_addValue hB hroom _ _

theorem settles_ejrEvalClassFunction {valueId : Int32}
    (hroom : (ad.get valueId).val ≠ .undefined → Room A ad) (args : List JSArg)
    (getFunction call : Completion Cb) :
    Settles A I ad [] (ejrEvalClassFunction valueId args getFunction call) := by
  refine settles_get fun s hs => ?_
  split
  next => exact settles_pure hB _
  next hval =>
    rw [hs] at hval
    refine settles_bind hB (charges_evalClassFunction hB args getFunction call)
      (apart_evalClassFunction _ _ _) fun value => ?_
    exact settles_addValue hB (hroom hval) _ _

theorem settles_ejrGetPropertyFrom {valueId : Int32}
    (hroom : (ad.get valueId).val ≠ .undefined → Room A ad) (c : Completion Cb) :
    Settles A I ad [] (ejrGetPropertyFrom valueId c) := by
  refine settles_get fun s hs => ?_
  split
  next => exact settles_pure hB _
  next hval =>
    rw [hs] at hval
    refine settles_bind hB (charges_engine hB c) (apart_engine c) fun value => ?_
    exact settles_addValue hB (hroom hval) _ _

theorem settles_ejrAwaitPromise (hroom : Room A ad) (valueId : Int32) :
    Settles A I ad [] (ejrAwaitPromise valueId : ApiM Cb Int32) := by
  refine settles_get fun s _ => ?_
  refine settles_bind hB (charges_awaitPromise hB _) (apart_awaitPromise _) fun promiseResult => ?_
  exact settles_addValue hB hroom _ _

theorem settles_ejrValToString (valueId : Int32) :
    Settles A I ad [] (ejrValToString valueId : ApiM Cb (Option Bytes)) := by
  refine settles_get fun s _ => ?_
  dsimp only
  split
  next => exact settles_pure hB _
  next =>
    refine settles_bind hB (charges_onRt hB (takes_valToString hB.toBookkeeping _)) (apart_onRt _)
      fun str => ?_
    intro t ht hI ho
    subst ht
    exact ⟨hB.stable hI rfl rfl, hB.entry_refl (L := apiLog) t ho⟩

theorem settles_jsargFromJsvalue {depth : Nat} {value : Int32}
    (hvalue : value < 0 ∨ (ad.get value).val.hasRefCount = false) :
    Settles A I ad [] (Ejr.jsargFromJsvalue depth value : ApiM Cb JSArg) := by
  unfold Ejr.jsargFromJsvalue
  split
  next => exact settles_pure hB _
  next hpos =>
    refine settles_get fun s hs => ?_
    rw [hs]
    exact settles_of_apart hB (charges_fromJs hB depth (hvalue.resolve_left hpos)) (apart_onRt _)

theorem settles_ejrFreeJsvalue (valueId : Int32) :
    Settles A I ad [] (ejrFreeJsvalue valueId : ApiM Cb Unit) := by
  refine settles_get fun s hs => ?_
  rw [hs]
  exact settles_release hB (ad.owned_freeValue valueId) (fun _ => rfl) (fun _ => rfl)
    (fun _ => rfl) fun _ => rfl

theorem settles_ejrFree : Settles A I ad [] (ejrFree : ApiM Cb Unit) := by
  refine settles_get fun s hs => ?_
  rw [hs]
  have hvalues : ad.owned.Perm (ad.free.1.flatMap JSValue.owned ++ ad.free.2.owned) := by
    rw [ad.flatMap_free, ad.owned_free, List.append_nil]
  exact settles_release hB hvalues (fun _ => rfl) (fun _ => rfl) (fun _ => rfl) fun _ => rfl

/-- What a call needs so that it settles. -/
def Call.Sound (A : Nat → Nat → List Name → List Name → List Event → Prop)
    (I : Handle Cb → Prop) (ad : JSValueAD) : Call Cb → Prop
  | .evalScript _ | .evalModule _ | .evalFunction .. | .getFromGlobal _ | .awaitPromise _ =>
    Room A ad
  | .evalClassFunction valueId .. | .getPropertyFrom valueId _ =>
    (ad.get valueId).val ≠ .undefined → Room A ad
  | .jsargFromJsvalue _ value => value < 0 ∨ (ad.get value).val.hasRefCount = false
  | .registerCallback fnName cb setProperty =>
    Charges A I [] (fun _ => []) (EasyJSR.registerCallback fnName cb setProperty)
  | .registerModule moduleName methods =>
    Charges A I [] (fun _ => []) (EasyJSR.registerModule moduleName methods)
  | .valToString _ | .freeJsvalue _ | .free => True

/-- **Every call of the C API** that is sound leads from what the table owned to
what it owns. -/
theorem Call.settles {l : Call Cb} (hl : l.Sound A I ad) : Settles A I ad [] l.run := by
  cases l with
  | evalScript c =>
    exact settles_map (settles_bind hB (charges_engine hB c) (apart_engine c) fun _ =>
      settles_addValue hB hl _ _)
  | evalModule c => exact settles_map (settles_ejrEvalModule hB hl c)
  | evalFunction args getFunction call =>
    exact settles_map (settles_bind hB (charges_evalFunction hB args getFunction call)
      (apart_evalFunction _ _ _) fun _ => settles_addValue hB hl _ _)
  | evalClassFunction valueId args getFunction call =>
    exact settles_map (settles_ejrEvalClassFunction hB hl args getFunction call)
  | getPropertyFrom valueId c => exact settles_map (settles_ejrGetPropertyFrom hB hl c)
  | getFromGlobal c =>
    exact settles_map (settles_bind hB (charges_getFromGlobal hB c) (apart_getFromGlobal c)
      fun _ => settles_addValue hB hl _ _)
  | awaitPromise valueId => exact settles_map (settles_ejrAwaitPromise hB hl valueId)
  | valToString valueId => exact settles_map (settles_ejrValToString hB valueId)
  | jsargFromJsvalue depth value => exact settles_map (settles_jsargFromJsvalue hB hl)
  | freeJsvalue valueId => exact settles_map (settles_ejrFreeJsvalue hB valueId)
  | registerCallback fnName cb setProperty =>
    exact settles_map (settles_of_apart hB hl (apart_registerCallback _ _ _))
  | registerModule moduleName methods =>
    exact settles_map (settles_of_apart hB hl (apart_registerModule _ _))
  | free => exact settles_map (settles_ejrFree hB)

/-- One call on an open handle. -/
theorem entry_of_step {s t : Handle Cb} {l : Call Cb} (hstep : Handle.step s l t)
    (hl : l.Sound A I s.jsvad) (hI : I s) (ho : Held Name.rank s.rt.fresh s.jsvad.owned) :
    I t ∧ Entry A apiLog s s.jsvad.owned t t.jsvad.owned := by
  obtain ⟨-, hrun⟩ := hstep
  exact wp_of_ok (Q := fun _ t => I t ∧ Entry A apiLog s s.jsvad.owned t t.jsvad.owned)
    (Call.settles hB hl s rfl hI ho) hrun

end

/-! ## Short runs -/

/-- A call has one end. -/
theorem step_unique (s : Handle Cb) (l : Call Cb) (t t' : Handle Cb) (h : Handle.step s l t)
    (h' : Handle.step s l t') : t = t' := by
  obtain ⟨-, hrun⟩ := h
  obtain ⟨-, hrun'⟩ := h'
  cases hrun.symm.trans hrun'
  rfl

/-- `ejr_free` closes an open handle. -/
theorem exists_free {s : Handle Cb} (hopen : s.closed = false) :
    ∃ t, Handle.step s .free t ∧
      t.rt.trace = s.rt.trace ++ s.jsvad.free.1.flatMap (·.events .free) := by
  have hfree : wp (Call.free : Call Cb).run s
      (fun _ t => t.rt.trace = s.rt.trace ++ s.jsvad.free.1.flatMap (·.events .free))
      (fun _ _ => False) := by
    simp only [Call.run, ejrFree, wp_map, wp_bind, wp_get, wp_onRt, wp_freeJsvals, wp_modify]
    rfl
  obtain ⟨a, t, hrun, ht⟩ := exists_ok_of_wp hfree
  exact ⟨t, ⟨hopen, hrun⟩, ht⟩

/-- A string read from the global object is the first value of a new handle. -/
theorem exists_string : ∃ s : Handle Unit,
    Handle.step (.new 0 .initial 0) (.getFromGlobal ⟨[], .value (.string [])⟩) s ∧
      s.closed = false ∧ s.jsvad = JSValueAD.new.addValue ⟨.string [], 1⟩ := by
  have hget : wp (Call.getFromGlobal ⟨[], .value (.string [])⟩ : Call Unit).run
      (.new 0 .initial 0)
      (fun _ s => s.closed = false ∧ s.jsvad = JSValueAD.new.addValue ⟨.string [], 1⟩)
      (fun _ _ => False) := by
    simp [Call.run, ejrGetFromGlobal, EasyJSR.getFromGlobal, engine, runWork, answer, addValue,
      wp_onRt, EasyJSR.wp_freeJsval, Handle.new]
  obtain ⟨a, s, hrun, hopen, hjsvad⟩ := exists_ok_of_wp hget
  exact ⟨s, ⟨rfl, hrun⟩, hopen, hjsvad⟩

end Ejr
