import Ejr.CApi.OverRelease
import Ejr.Bytes

/-!
# Errors under ids

The table keeps `JS_EXCEPTION` for a call that failed; what was thrown is in the
one pending-exception slot of the runtime. `ejr_val_to_string` empties the slot
and prints what it finds there. It prints what was thrown by the call that
returned the id (`Renders`) in every run in which that slot is left alone while
an id waits to be read, and each id is read once (`renders_of_heedful`).

The invariant is `Awaiting`: as long as an exception has not been read, the slot
holds it. References number the stored values, so the new one is told from those
already waiting; that needs bounds, which the loose account gives (`ages_…`).
-/

namespace Ejr

open Lib EasyJSR

variable {Cb : Type}

/-! ## What a call leaves -/

/-- However it ends, no reference number is used again. -/
abbrev Ages {α : Type} (p : ApiM Cb α) : Prop :=
  Keeps (fun s t : Handle Cb => s.rt.fresh ≤ t.rt.fresh) (fun _ => True) (fun _ => True) p

theorem ages_of_charges {α : Type} {h : α → List Name} {p : ApiM Cb α}
    (hp : Charges looseRefs AnyHandle [] h p) : Ages p := by
  have hle : ∀ {s t : Handle Cb} {k : List Name}, Entry looseRefs apiLog s [] t k →
      s.rt.fresh ≤ t.rt.fresh := by
    intro s t k hentry
    obtain ⟨es, -, hA⟩ := hentry
    exact hA.le
  intro s _
  refine wp_mono (hp s trivial (Held.nil _ _)) ?_ ?_
  · exact fun _ t ht => ⟨hle ht.2, trivial⟩
  · intro _ t ht
    obtain ⟨k, hentry⟩ := ht
    exact hle hentry

/-- The value has been numbered since `s`, and what was thrown for it is in the
slot. -/
structure Raised (s : Handle Cb) (thrown : Option JSVal) (v : JSValue) (t : Handle Cb) : Prop where
  new : s.rt.fresh ≤ v.ref
  taken : v.ref < t.rt.fresh
  slot : ∀ e, thrown = some e → t.rt.pending = e

/-- The program returns such a value. -/
def Raises (thrown : Option JSVal) (p : ApiM Cb JSValue) : Prop :=
  ∀ s, wp p s (fun v t => Raised s thrown v t) fun _ _ => True

theorem raises_engine (c : Completion Cb) : Raises c.result.thrown (engine c) := by
  intro s
  unfold engine
  rw [wp_bind]
  refine wp_mono (ages_of_charges (charges_runWork books_loose c.work) s trivial) ?_
    fun _ _ _ => trivial
  intro _ m hm
  rw [wp_bind, wp_onRt]
  cases c.result with
  | value v => exact ⟨hm.1, Nat.lt_succ_self _, fun _ h => nomatch h⟩
  | throws e => exact ⟨hm.1, Nat.lt_succ_self _, fun _ h => Option.some.inj h⟩
  | exception => exact ⟨hm.1, Nat.lt_succ_self _, fun _ h => nomatch h⟩

/-- Something else comes first. -/
theorem raises_bind {α : Type} {thrown : Option JSVal} {p : ApiM Cb α} {f : α → ApiM Cb JSValue}
    (hp : Ages p) (hf : ∀ a, Raises thrown (f a)) : Raises thrown (p >>= f) := by
  intro s
  rw [wp_bind]
  refine wp_mono (hp s trivial) ?_ fun _ _ _ => trivial
  intro a m hm
  refine wp_mono (hf a m) ?_ fun _ _ _ => trivial
  exact fun v t ht => ⟨Nat.le_trans hm.1 ht.new, ht.taken, ht.slot⟩

theorem raises_evalClassFunction (args : List JSArg) (getFunction call : Completion Cb) :
    Raises call.result.thrown (evalClassFunction args getFunction call) := by
  refine raises_bind (ages_of_charges (charges_engine books_loose getFunction)) fun function => ?_
  have hargs := takes_toJsArgs bookkeeping_loose handsOver_loose args
  refine raises_bind (ages_of_charges (charges_onRt books_loose hargs)) fun jsArgs => ?_
  intro s
  rw [wp_bind]
  refine wp_mono (raises_engine call s) ?_ fun _ _ _ => trivial
  intro v m hm
  rw [wp_bind, wp_onRt, wp_freeJsval, wp_bind, wp_onRt, wp_freeJsvals]
  exact ⟨hm.new, hm.taken, hm.slot⟩

/-- A reference to the global object around it. -/
theorem raises_withGlobal {thrown : Option JSVal} {p : ApiM Cb JSValue} (hp : Raises thrown p) :
    Raises thrown (do
      let s ← get
      let global ← onRt (own (.object s.global))
      let result ← p
      onRt (freeJsval global)
      pure result : ApiM Cb JSValue) := by
  intro s
  rw [wp_bind, wp_get, wp_bind, wp_onRt, wp_own, wp_bind]
  refine wp_mono (hp _) ?_ fun _ _ _ => trivial
  intro v m hm
  rw [wp_bind, wp_onRt, wp_freeJsval]
  exact ⟨Nat.le_trans (Nat.le_succ s.rt.fresh) hm.new, hm.taken, hm.slot⟩

/-! ## What a call records -/

/-- From `s` to `t` no reference number is used again; a value that is stored has
a new one, and what was thrown for it is in the slot; what has been read was
under an id. -/
structure Recorded (s t : Handle Cb) : Prop where
  fresh : s.rt.fresh ≤ t.rt.fresh
  last : ∀ v, t.stored = s.stored ++ [v] → Raised s (t.raised v.ref) v t
  read : ∀ r ∈ t.read, r ∈ s.read ∨ ∃ id v, s.jsvad.find? id = some v ∧ v.ref = r

/-- If it returns, the program has recorded what it did. -/
def Records {α : Type} (p : ApiM Cb α) : Prop :=
  ∀ s, wp p s (fun _ t => Recorded s t) fun _ _ => True

theorem not_stored {s t : Handle Cb} {v : JSValue} (hstored : t.stored = s.stored) :
    t.stored ≠ s.stored ++ [v] := by
  rw [hstored]
  exact fun h => absurd (congrArg List.length h) (by simp)

/-- Nothing is stored or read. -/
theorem recorded_of_same {s t : Handle Cb} (hfresh : s.rt.fresh ≤ t.rt.fresh)
    (hstored : t.stored = s.stored) (hread : t.read = s.read) : Recorded s t where
  fresh := hfresh
  last _ hv := absurd hv (not_stored hstored)
  read _ hr := .inl (hread ▸ hr)

theorem records_of_apart {α : Type} {p : ApiM Cb α} (hages : Ages p) (hapart : StaysApart p) :
    Records p := by
  intro s
  refine wp_mono (wp_and (hages s trivial) (hapart s trivial)) ?_ fun _ _ _ => trivial
  exact fun a t ht => recorded_of_same ht.1.1 ht.2.1.stored ht.2.1.read

/-- A value is stored. -/
theorem recorded_addValue {s m : Handle Cb} {thrown : Option JSVal} {v : JSValue}
    (hapart : Apart s m) (hv : Raised s thrown v m) :
    wp (addValue v thrown) m (fun _ t => Recorded s t) fun _ _ => True := by
  refine ⟨Nat.le_of_lt (Nat.lt_of_le_of_lt hv.new hv.taken), ?_, ?_⟩
  · intro w hw
    rw [← hapart.stored] at hw
    obtain rfl : v = w := by simpa using List.append_cancel_left hw
    show Raised s (Function.update m.raised v.ref thrown v.ref) v _
    rw [Function.update_self]
    exact ⟨hv.new, hv.taken, hv.slot⟩
  · intro r hr
    rw [← hapart.read]
    exact .inl hr

theorem records_store {thrown : Option JSVal} {p : ApiM Cb JSValue} (hp : Raises thrown p)
    (hapart : StaysApart p) : Records (do addValue (← p) thrown) := by
  intro s
  rw [wp_bind]
  refine wp_mono (wp_and (hp s) (hapart s trivial)) ?_ fun _ _ _ => trivial
  exact fun v m hm => recorded_addValue hm.2.1 hm.1

theorem records_map {α β : Type} {p : ApiM Cb α} {g : α → β} (hp : Records p) :
    Records (g <$> p) := by
  intro s
  rw [wp_map]
  exact hp s

theorem records_get {α : Type} {f : Handle Cb → ApiM Cb α} (hf : ∀ s, Records (f s)) :
    Records (get >>= f) :=
  fun s => hf s s

theorem records_pure {α : Type} (a : α) : Records (pure a : ApiM Cb α) :=
  fun _ => recorded_of_same (Nat.le_refl _) rfl rfl

theorem raises_awaitPromise (v : JSValue) : Raises none (awaitPromise v : ApiM Cb JSValue) :=
  fun _ => ⟨Nat.le_refl _, Nat.lt_succ_self _, fun _ h => nomatch h⟩

theorem records_ejrEvalModule (c : Completion Cb) : Records (ejrEvalModule c) := by
  intro s
  unfold ejrEvalModule
  rw [wp_bind]
  refine wp_mono (wp_and (raises_engine c s) (apart_engine c s trivial)) ?_ fun _ _ _ => trivial
  intro value m hm
  obtain ⟨hraised, hapart, -⟩ := hm
  split
  next => exact recorded_addValue hapart hraised
  next =>
    -- the result of the promise is numbered last
    rw [wp_bind]
    refine wp_mono (wp_and (raises_awaitPromise value m) (apart_awaitPromise value m trivial)) ?_
      fun _ _ _ => trivial
    intro result n hn
    rw [wp_bind, wp_onRt, wp_freeJsval]
    refine recorded_addValue (hapart.then hn.2.1 |>.then ⟨rfl, rfl, rfl, rfl, rfl⟩) ?_
    have hm := Nat.le_of_lt (Nat.lt_of_le_of_lt hraised.new hraised.taken)
    exact ⟨Nat.le_trans hm hn.1.new, hn.1.taken, hn.1.slot⟩

theorem records_ejrValToString (valueId : Int32) :
    Records (ejrValToString valueId : ApiM Cb (Option Bytes)) := by
  intro s
  unfold ejrValToString
  rw [wp_bind, wp_get]
  dsimp only
  split
  next => exact recorded_of_same (Nat.le_refl _) rfl rfl
  next hval =>
    rw [wp_bind]
    have hages := ages_of_charges (charges_onRt (@books_loose Cb)
      (takes_valToString bookkeeping_loose (s.jsvad.get valueId)))
    refine wp_mono (wp_and (hages s trivial) (apart_onRt _ s trivial)) ?_ fun _ _ _ => trivial
    intro str m hm
    obtain ⟨⟨hfresh, -⟩, hapart, -⟩ := hm
    refine ⟨hfresh, ?_, ?_⟩
    · exact fun v hv => absurd hv (not_stored hapart.stored)
    · intro r hr
      rcases List.mem_append.mp hr with hr | hr
      · exact .inl (hapart.read ▸ hr)
      · obtain rfl := List.mem_singleton.mp hr
        cases hfind : s.jsvad.find? valueId with
        | none =>
          -- `get` makes `undefined` up, which the check has excluded
          rw [JSValueAD.get, hfind] at hval
          exact absurd rfl hval
        | some v =>
          refine .inr ⟨valueId, v, hfind, ?_⟩
          rw [JSValueAD.get, hfind, Option.getD_some]

theorem records_release {values : List JSValue} {f : Handle Cb → Handle Cb}
    (hrt : ∀ s, (f s).rt = s.rt) (hstored : ∀ s, (f s).stored = s.stored)
    (hread : ∀ s, (f s).read = s.read) :
    Records (do onRt (freeJsvals values); modify f : ApiM Cb Unit) := by
  intro s
  rw [wp_bind, wp_onRt, wp_freeJsvals, wp_modify]
  refine recorded_of_same ?_ (hstored _) (hread _)
  rw [hrt]
  exact Nat.le_refl _

theorem ages_fromJs (depth : Nat) (v : JSValue) (forceFree : Bool) :
    Ages (onRt (fromJs depth v forceFree) : ApiM Cb JSArg) := by
  intro s _
  rw [wp_onRt]
  refine wp_mono (fromJs_emits depth v forceFree s.rt) ?_ ?_
  · exact fun _ t ht => ⟨ht.fresh, trivial⟩
  · exact fun _ t ht => ht.fresh

/-- **Every call of the C API** records what it did. -/
theorem Call.records (l : Call Cb) : Records l.run := by
  cases l with
  | evalScript c => exact records_map (records_store (raises_engine c) (apart_engine c))
  | evalModule c => exact records_map (records_ejrEvalModule c)
  | evalFunction args getFunction call =>
    exact records_map (records_store (raises_withGlobal (raises_evalClassFunction _ _ _))
      (apart_evalFunction _ _ _))
  | evalClassFunction valueId args getFunction call =>
    refine records_map (records_get fun s => ?_)
    split
    next => exact records_pure _
    next => exact records_store (raises_evalClassFunction _ _ _) (apart_evalClassFunction _ _ _)
  | getPropertyFrom valueId c =>
    refine records_map (records_get fun s => ?_)
    split
    next => exact records_pure _
    next => exact records_store (raises_engine c) (apart_engine c)
  | getFromGlobal c =>
    exact records_map (records_store (raises_withGlobal (raises_engine c)) (apart_getFromGlobal c))
  | awaitPromise valueId =>
    refine records_map (records_get fun s => ?_)
    exact records_store (raises_awaitPromise _) (apart_awaitPromise _)
  | valToString valueId => exact records_map (records_ejrValToString valueId)
  | jsargFromJsvalue depth value =>
    show Records (Answer.arg <$> Ejr.jsargFromJsvalue depth value)
    refine records_map ?_
    unfold Ejr.jsargFromJsvalue
    split
    next => exact records_pure _
    next => exact records_get fun s => records_of_apart (ages_fromJs _ _ _) (apart_onRt _)
  | freeJsvalue valueId =>
    refine records_map (records_get fun s => ?_)
    exact records_release (fun _ => rfl) (fun _ => rfl) fun _ => rfl
  | registerCallback fnName cb setProperty =>
    exact records_map (records_of_apart (ages_of_charges (charges_registerCallback _ _ _))
      (apart_registerCallback _ _ _))
  | registerModule moduleName methods =>
    exact records_map (records_of_apart (ages_of_charges (charges_registerModule _ _))
      (apart_registerModule _ _))
  | free =>
    refine records_map (records_get fun s => ?_)
    exact records_release (fun _ => rfl) (fun _ => rfl) fun _ => rfl

/-! ## Waiting to be read -/

/-- The value of a failed call is under the id, and has not been read. -/
structure Waits (s : Handle Cb) (id : Int32) (v : JSValue) : Prop where
  live : s.jsvad.find? id = some v
  failed : v.val = .exception
  unread : v.ref ∉ s.read

/-- The call leaves the pending exception as it is. -/
def LeavesSlot (s : Handle Cb) (l : Call Cb) : Prop :=
  ∀ t, Handle.step s l t → t.rt.pending = s.rt.pending

/-- An exception is read once, something has been thrown for it, and it can be
converted; while one waits, other calls leave the slot alone. -/
structure Heedful (s : Handle Cb) (l : Call Cb) : Prop where
  reads : ∀ id v, l = .valToString id → s.jsvad.find? id = some v → v.val = .exception →
    v.ref ∉ s.read ∧ ∃ e u, s.raised v.ref = some e ∧ s.rt.heap.text e = .value u
  slot : ∀ id v e, Waits s id v → s.raised v.ref = some e → l = .valToString id ∨ LeavesSlot s l

/-- The slot holds what was thrown for an id that waits. -/
structure Awaiting (s : Handle Cb) : Prop where
  live : ∀ id v, s.jsvad.find? id = some v → v.ref < s.rt.fresh
  read : ∀ r ∈ s.read, r < s.rt.fresh
  slot : ∀ id v e, Waits s id v → s.raised v.ref = some e → s.rt.pending = e

theorem awaiting_new (self : UInt64) (heap : Heap) (global : Addr) :
    Awaiting (.new self heap global : Handle Cb) where
  live _ _ h := nomatch h
  read _ h := nomatch h
  slot _ _ _ h := nomatch h.live

section

variable {s t : Handle Cb} {l : Call Cb}

theorem recorded_of_step (hstep : Handle.step s l t) : Recorded s t := by
  obtain ⟨-, hrun⟩ := hstep
  exact wp_of_ok (Q := fun _ t => Recorded s t) (l.records s) hrun

/-- What is under an id was there before, or has just been stored. -/
theorem live_of_step (hstep : Handle.step s l t) {id : Int32} {v : JSValue}
    (h : t.jsvad.find? id = some v) :
    s.jsvad.find? id = some v ∨ t.stored = s.stored ++ [v] := by
  obtain ⟨-, hrun⟩ := hstep
  have htouch := wp_of_ok (l.touches s) hrun
  cases htouch with
  | apart hapart ha => exact .inl (hapart.jsvad ▸ h)
  | read id ha hjsvad hclosed hstored hraised hread => exact .inl (hjsvad ▸ h)
  | stored value thrown hjsvad hclosed hstored hraised hread =>
    rw [hjsvad, JSValueAD.find?_addValue] at h
    split at h
    next =>
      obtain rfl := Option.some.inj h
      exact .inr hstored
    next => exact .inl h
  | freed id hjsvad hclosed hstored hraised hread =>
    rw [hjsvad, JSValueAD.find?_freeValue] at h
    split at h
    next => exact nomatch h
    next => exact .inl h
  | closed hjsvad hclosed hstored hraised hread =>
    rw [hjsvad, JSValueAD.find?_free] at h
    exact nomatch h

/-- What has been read stays read. -/
theorem read_of_step (hstep : Handle.step s l t) {r : RefId} (h : r ∈ s.read) : r ∈ t.read := by
  obtain ⟨-, hrun⟩ := hstep
  have htouch := wp_of_ok (l.touches s) hrun
  cases htouch with
  | apart hapart ha => exact hapart.read ▸ h
  | read id ha hjsvad hclosed hstored hraised hread =>
    rw [hread]
    exact List.mem_append_left _ h
  | stored value thrown hjsvad hclosed hstored hraised hread => exact hread ▸ h
  | freed id hjsvad hclosed hstored hraised hread => exact hread ▸ h
  | closed hjsvad hclosed hstored hraised hread => exact hread ▸ h

/-- What was thrown for an older value is not forgotten. -/
theorem raised_of_step (hstep : Handle.step s l t) {r : RefId} (h : r < s.rt.fresh) :
    t.raised r = s.raised r := by
  obtain ⟨hopen, hrun⟩ := hstep
  have htouch := wp_of_ok (l.touches s) hrun
  have hrecord := recorded_of_step ⟨hopen, hrun⟩
  cases htouch with
  | apart hapart ha => rw [hapart.raised]
  | read id ha hjsvad hclosed hstored hraised hread => rw [hraised]
  | stored value thrown hjsvad hclosed hstored hraised hread =>
    have hnew := (hrecord.last value hstored).new
    rw [hraised, Function.update_of_ne (Nat.ne_of_lt (Nat.lt_of_lt_of_le h hnew))]
  | freed id hjsvad hclosed hstored hraised hread => rw [hraised]
  | closed hjsvad hclosed hstored hraised hread => rw [hraised]

/-- Reading the id of a failed call. -/
theorem read_of_valToString {id : Int32} {v : JSValue} (hstep : Handle.step s (.valToString id) t)
    (hlive : s.jsvad.find? id = some v) (hv : v.val = .exception) : v.ref ∈ t.read := by
  obtain ⟨-, hrun⟩ := hstep
  have hget : s.jsvad.get id = v := by rw [JSValueAD.get, hlive, Option.getD_some]
  have hread : wp (Call.valToString id : Call Cb).run s (fun _ t => v.ref ∈ t.read)
      (fun _ _ => True) := by
    show wp (Answer.text <$> ejrValToString id : ApiM Cb Answer) s _ _
    rw [wp_map, ejrValToString, wp_bind, wp_get]
    simp only [hget, hv]
    rw [wp_bind]
    refine wp_mono wp_true ?_ fun _ _ _ => trivial
    intro str m _
    exact List.mem_append_right _ (List.mem_singleton.mpr rfl)
  exact wp_of_ok (Q := fun _ t => v.ref ∈ t.read) hread hrun

/-- One call. -/
theorem Awaiting.step (h : Awaiting s) (hl : Heedful s l) (hstep : Handle.step s l t) :
    Awaiting t := by
  have hrecord := recorded_of_step hstep
  constructor
  · intro id v hv
    rcases live_of_step hstep hv with hold | hnew
    · exact Nat.lt_of_lt_of_le (h.live id v hold) hrecord.fresh
    · exact (hrecord.last v hnew).taken
  · intro r hr
    refine Nat.lt_of_lt_of_le ?_ hrecord.fresh
    rcases hrecord.read r hr with hold | ⟨id, v, hv, rfl⟩
    · exact h.read r hold
    · exact h.live id v hv
  · intro id v e hwaits he
    rcases live_of_step hstep hwaits.live with hold | hnew
    · have hbefore : Waits s id v :=
        ⟨hold, hwaits.failed, fun hr => hwaits.unread (read_of_step hstep hr)⟩
      rw [raised_of_step hstep (h.live id v hold)] at he
      rcases hl.slot id v e hbefore he with rfl | hleaves
      · exact absurd (read_of_valToString hstep hold hwaits.failed) hwaits.unread
      · rw [hleaves t hstep]
        exact h.slot id v e hbefore he
    · exact (hrecord.last v hnew).slot e he

end

/-! ## Rendering -/

/-- The text of a value, as a C string. -/
theorem wp_cStringOf {v : JSValue} {s : Rt} {u : JSString} (h : s.heap.text v.val = .value u) :
    wp (cStringOf v) s (fun c _ => ∃ r, c = some ⟨toCStringLen u, r⟩) (fun _ _ => False) := by
  unfold cStringOf
  split
  next =>
    rw [wp_jsToCString, h]
    exact ⟨_, rfl⟩
  next =>
    rw [wp_bind, wp_jsToString, h, wp_bind, wp_jsToCString, wp_bind, wp_freeJsval]
    exact ⟨_, rfl⟩

/-- The exception in the slot is printed. -/
theorem wp_valToString_exception {v : JSValue} {s : Rt} {u : JSString} (hv : v.val = .exception)
    (h : s.heap.text s.pending = .value u) :
    wp (valToString v false) s (fun str _ => str = cstr (toCStringLen u)) (fun _ _ => False) := by
  rw [valToString, wp_bind, cleanJsValue, hv]
  dsimp only
  rw [wp_bind, wp_jsGetException, wp_pure, wp_bind]
  refine wp_mono (wp_cStringOf h) ?_ fun _ _ h => h
  intro c t ht
  obtain ⟨r, rfl⟩ := ht
  rw [wp_bind, freeJsvalIf, wp_freeJsval, wp_bind, freeJsvalIf, wp_pure, wp_bind,
    wp_stdString_some, wp_bind, wp_jsFreeCString]
  rfl

/-- If the call reads the id of a failed call, it prints what that call has
thrown. -/
def Renders (s : Handle Cb) (l : Call Cb) : Prop :=
  ∀ id v, l = .valToString id → s.jsvad.find? id = some v → v.val = .exception →
    ∃ e u t, s.raised v.ref = some e ∧ s.rt.heap.text e = .value u ∧
      l.run s = .ok (.text (some (cstr (toCStringLen u)))) t

theorem run_valToString {s : Handle Cb} {id : Int32} {v : JSValue} {u : JSString}
    (hlive : s.jsvad.find? id = some v) (hv : v.val = .exception)
    (h : s.rt.heap.text s.rt.pending = .value u) :
    ∃ t, (Call.valToString id : Call Cb).run s = .ok (.text (some (cstr (toCStringLen u)))) t := by
  have hget : s.jsvad.get id = v := by rw [JSValueAD.get, hlive, Option.getD_some]
  have hend : wp (Call.valToString id : Call Cb).run s
      (fun a _ => a = .text (some (cstr (toCStringLen u)))) (fun _ _ => False) := by
    show wp (Answer.text <$> ejrValToString id : ApiM Cb Answer) s _ _
    rw [wp_map, ejrValToString, wp_bind, wp_get]
    simp only [hget, hv]
    rw [wp_bind, wp_onRt]
    refine wp_mono (wp_valToString_exception hv h) ?_ fun _ _ h => h
    intro str m hstr
    subst hstr
    show Answer.text (some (cstr (cstr (toCStringLen u)))) = _
    rw [cstr_of_nulFree (nulFree_cstr _)]
  obtain ⟨a, t, hrun, rfl⟩ := exists_ok_of_wp hend
  exact ⟨t, hrun⟩

/-- A heedful read, while the slot holds what waits. -/
theorem Awaiting.renders {s : Handle Cb} {l : Call Cb} (h : Awaiting s) (hl : Heedful s l) :
    Renders s l := by
  intro id v hcall hlive hv
  obtain ⟨hunread, e, u, he, hu⟩ := hl.reads id v hcall hlive hv
  have hslot := h.slot id v e ⟨hlive, hv, hunread⟩ he
  subst hcall
  obtain ⟨t, hrun⟩ := run_valToString hlive hv (hslot ▸ hu)
  exact ⟨e, u, t, he, hu, hrun⟩

/-- The slot holds the error of a name given twice. -/
def Duplicated (pending : JSVal) : Prop :=
  ∃ name, pending = .nativeError (.duplicateExportedName name)

/-- The names under which a definition exports these methods. -/
def exportNames (methods : List (Bytes × Cb)) : List JSString :=
  methods.map fun method => newString method.1

theorem slot_createTrampoline (target : Target) (cb : Cb) (s : Handle Cb) :
    wp (createTrampoline target cb) s (fun _ t => t.rt.pending = s.rt.pending)
      (fun _ _ => False) := by
  simp [createTrampoline, newFunctionData, wp_onRt]

/-- The loop of `register_module`: without a name that is there already the slot
stays as it is; with one, it ends up with such an error. -/
theorem slot_createMethods (moduleName : Bytes) : ∀ (exports : List JSString)
    (methods : List (Bytes × Cb)) (s : Handle Cb), exports.Nodup →
    wp (createMethods moduleName exports methods) s
      (fun _ t => ((exports ++ exportNames methods).Nodup → t.rt.pending = s.rt.pending) ∧
        (¬(exports ++ exportNames methods).Nodup ∨ Duplicated s.rt.pending →
          Duplicated t.rt.pending))
      (fun _ _ => False)
  | exports, [], s, hexports => by
    rw [createMethods, wp_pure]
    refine ⟨fun _ => rfl, fun h => h.resolve_left fun hdup => hdup ?_⟩
    rwa [exportNames, List.map_nil, List.append_nil]
  | exports, (name, cb) :: methods, s, hexports => by
    have hnames : exports ++ exportNames ((name, cb) :: methods) =
        (exports ++ [newString name]) ++ exportNames methods := by
      rw [List.append_assoc]
      rfl
    rw [createMethods, wp_bind, wp_get, wp_bind, wp_onRt, jsAddModuleExport]
    split
    next hmem =>
      -- the name is there already, and is thrown
      have hdup : ¬(exports ++ exportNames ((name, cb) :: methods)).Nodup := by
        rw [hnames, List.append_assoc]
        exact fun h => List.disjoint_of_nodup_append h hmem (List.mem_cons_self ..)
      rw [wp_bind, wp_jsThrow, wp_pure, wp_bind]
      refine wp_mono (slot_createTrampoline _ cb _) ?_ fun _ _ h => h
      intro _ t ht
      rw [wp_bind]
      refine wp_mono (slot_createMethods moduleName exports methods t hexports) ?_ fun _ _ h => h
      intro _ u hu
      exact ⟨fun h => absurd h hdup, fun _ => hu.2 (.inr ⟨newString name, ht⟩)⟩
    next hmem =>
      rw [wp_pure, wp_bind]
      refine wp_mono (slot_createTrampoline _ cb _) ?_ fun _ _ h => h
      intro _ t ht
      have hexports' : (exports ++ [newString name]).Nodup := by
        rw [← List.concat_eq_append]
        exact hexports.concat hmem
      rw [wp_bind]
      refine wp_mono (slot_createMethods moduleName _ methods t hexports') ?_ fun _ _ h => h
      intro _ u hu
      rw [hnames]
      rw [show t.rt.pending = s.rt.pending from ht] at hu
      exact hu

/-- **A registration** leaves the slot alone when no name is given twice; else it
leaves an error there that nobody has asked for. -/
theorem slot_registerModule (moduleName : Bytes) (methods : List (Bytes × Cb)) (s : Handle Cb) :
    wp (registerModule moduleName methods) s
      (fun _ t => ((exportNames methods).Nodup → t.rt.pending = s.rt.pending) ∧
        (¬(exportNames methods).Nodup → Duplicated t.rt.pending))
      (fun _ _ => False) := by
  rw [registerModule, wp_bind]
  refine wp_mono (slot_createMethods moduleName [] methods s List.nodup_nil) ?_ fun _ _ h => h
  intro _ t ht
  rw [wp_modify]
  exact ⟨ht.1, fun h => ht.2 (.inl h)⟩

theorem leavesSlot_registerModule (s : Handle Cb) (moduleName : Bytes)
    {methods : List (Bytes × Cb)} (h : (exportNames methods).Nodup) :
    LeavesSlot s (.registerModule moduleName methods) := by
  intro t hstep
  obtain ⟨-, hrun⟩ := hstep
  have hreg : wp (Call.registerModule moduleName methods).run s
      (fun _ t => t.rt.pending = s.rt.pending) (fun _ _ => True) := by
    show wp ((fun _ => Answer.done) <$> registerModule moduleName methods) s _ _
    rw [wp_map]
    refine wp_mono (slot_registerModule moduleName methods s) ?_ fun _ _ _ => trivial
    exact fun _ t ht => ht.1 h
  exact wp_of_ok (Q := fun _ t => t.rt.pending = s.rt.pending) hreg hrun

/-! ## Two failures -/

/-- A script that fails at once. -/
def failing (e : JSVal) : Call Unit := .evalScript ⟨[], .throws e⟩

theorem exists_failing {s : Handle Unit} (hopen : s.closed = false) (e : JSVal) :
    ∃ t, Handle.step s (failing e) t ∧ t.closed = false ∧
      t.jsvad = s.jsvad.addValue ⟨.exception, s.rt.fresh⟩ ∧
      t.raised = Function.update s.raised s.rt.fresh (some e) ∧ t.read = s.read ∧
      t.rt.pending = e ∧ t.rt.fresh = s.rt.fresh + 1 := by
  have hfail : wp (failing e).run s (fun _ t => t.closed = false ∧
      t.jsvad = s.jsvad.addValue ⟨.exception, s.rt.fresh⟩ ∧
      t.raised = Function.update s.raised s.rt.fresh (some e) ∧ t.read = s.read ∧
      t.rt.pending = e ∧ t.rt.fresh = s.rt.fresh + 1) (fun _ _ => False) := by
    simp [failing, Call.run, ejrEvalScript, EasyJSR.eval, engine, runWork, answer, addValue, wp_onRt,
      Outcome.thrown, hopen]
  obtain ⟨a, t, hrun, ht⟩ := exists_ok_of_wp hfail
  exact ⟨t, ⟨hopen, hrun⟩, ht⟩

/-- Freeing an id runs no script code. -/
theorem leavesSlot_freeJsvalue (s : Handle Cb) (id : Int32) : LeavesSlot s (.freeJsvalue id) := by
  intro t hstep
  obtain ⟨-, hrun⟩ := hstep
  have hfree : wp (Call.freeJsvalue id : Call Cb).run s (fun _ t => t.rt.pending = s.rt.pending)
      (fun _ _ => True) := by
    simp only [Call.run, ejrFreeJsvalue, wp_map, wp_bind, wp_get, wp_onRt, wp_freeJsvals, wp_modify,
      Rt.log_pending]
  exact wp_of_ok (Q := fun _ t => t.rt.pending = s.rt.pending) hfree hrun

theorem find?_failing (r : RefId) (id : Int32) :
    (JSValueAD.new.addValue ⟨.exception, r⟩).find? id =
      if id = 0 then some ⟨.exception, r⟩ else none :=
  JSValueAD.find?_addValue ..

/-- A module whose methods have different names is registered. -/
theorem exists_registered {s : Handle Cb} (hopen : s.closed = false) (moduleName : Bytes)
    {methods : List (Bytes × Cb)} (h : (exportNames methods).Nodup) :
    ∃ t, Handle.step s (.registerModule moduleName methods) t ∧ Apart s t ∧
      t.rt.pending = s.rt.pending := by
  have hreg : wp (Call.registerModule moduleName methods).run s
      (fun _ t => Apart s t ∧ t.rt.pending = s.rt.pending) (fun _ _ => False) := by
    show wp ((fun _ => Answer.done) <$> registerModule moduleName methods) s _ _
    rw [wp_map]
    refine wp_mono (wp_and (slot_registerModule moduleName methods s)
      (apart_registerModule moduleName methods s trivial)) ?_ fun _ _ h => h.1
    exact fun _ t ht => ⟨ht.2.1, ht.1.1 h⟩
  obtain ⟨a, t, hrun, ht⟩ := exists_ok_of_wp hreg
  exact ⟨t, ⟨hopen, hrun⟩, ht⟩

end Ejr
