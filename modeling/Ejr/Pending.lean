import Mathlib.Logic.Relation
import Ejr.Reached

/-!
# What `from_js` leaves in the pending-exception slot

`from_js` finds out what a value is by asking the engine. `JS_GetTypedArrayBuffer`
throws when it is asked about anything but a typed array; the branch releases the
`JS_EXCEPTION` it gets back and answers `"[unsupported]"`, and what was thrown
stays in the slot. `leavesPending_iff` says exactly for which values that
happens, among those whose reads and conversions do not throw themselves
(`Tame`): those with a `stray` value in them, at some depth.

`Tracks` carries one bit through the calls: whether something stray has been
come to. The slot is as it was before, or holds an error of the engine.
-/

namespace Ejr

open Lib

/-! ## Values without throwing reads -/

/-- `w` is an element of the array `v`. -/
def HasElement (h : Heap) (v w : JSVal) : Prop :=
  h.ArrayLike v ∧ ∃ i < h.arrayLength v, w = h.element v i

/-- `w` is `v`, or stands in it at some depth. -/
abbrev Contains (h : Heap) : JSVal → JSVal → Prop := Relation.ReflTransGen (HasElement h)

/-- No accessor, proxy or conversion of the value throws on `from_js`: the
properties it reads are there to be read, and what they hold has a text. -/
structure Tame (h : Heap) (v : JSVal) : Prop where
  notException : v ≠ .exception
  notProxy : ∀ a target, v = .object a → (h.obj a).cls ≠ .proxy target
  elements : h.ArrayLike v → ∀ i < h.arrayLength v, ∃ w, h.indexed v i = .value w
  error : h.isError v = true → ∀ prop ∈ [ascii "message", ascii "name"], ∃ w,
    h.named v (newString prop) = .value w ∧ (w = .undefined ∨ ∃ t, h.text w = .value t)
  constructor : ∀ view, h.view v = .value view → ∃ c,
    h.named v (newString (ascii "constructor")) = .value c ∧ (c = .undefined ∨ c = .null ∨
      ∃ w t, h.named c (newString (ascii "name")) = .value w ∧ h.text w = .value t)

/-- Where the data of a typed array are. -/
def Heap.typedData (h : Heap) (v : JSVal) : Outcome Addr :=
  (h.view v).bind fun view => h.arrayBuffer (.object view.buffer)

/-- The value gets as far as the test for typed arrays and fails it: a plain
object, a function, a symbol, a BigInt, or a typed array whose buffer has been
detached. -/
def Heap.stray (h : Heap) : JSVal → Bool
  | .string _ | .bool _ | .int _ | .float64 _ | .null | .undefined | .exception => false
  | v => decide (h.isArray v = .value false) && !h.isError v && (h.typedData v).get?.isNone

/-- Something stray stands in the value. -/
def HasStray (h : Heap) (v : JSVal) : Prop := ∃ w, Contains h v w ∧ h.stray w = true

theorem not_stray_of_arrayLike {h : Heap} {v : JSVal} (hv : h.ArrayLike v) :
    h.stray v = false := by
  cases v with
  | object a =>
    show (decide (h.isArray (.object a) = .value false) && _ && _) = false
    rw [decide_eq_false hv, Bool.false_and, Bool.false_and]
  | _ => exact absurd rfl hv

/-- Nothing stands in a value that is no array but itself. -/
theorem contains_leaf {h : Heap} {v w : JSVal} (hv : ¬h.ArrayLike v) (hw : Contains h v w) :
    w = v := by
  rcases Relation.ReflTransGen.cases_head hw with rfl | ⟨x, hx, -⟩
  · rfl
  · exact absurd hx.1 hv

theorem hasStray_leaf {h : Heap} {v : JSVal} (hv : ¬h.ArrayLike v) :
    HasStray h v ↔ h.stray v = true := by
  constructor
  · intro hs
    obtain ⟨w, hw, hstray⟩ := hs
    rwa [contains_leaf hv hw] at hstray
  · exact fun hstray => ⟨v, .refl, hstray⟩

/-- An array is not stray itself. -/
theorem hasStray_array {h : Heap} {v : JSVal} (hv : h.ArrayLike v) :
    HasStray h v ↔ ∃ i < h.arrayLength v, HasStray h (h.element v i) := by
  constructor
  · intro hs
    obtain ⟨w, hw, hstray⟩ := hs
    rcases Relation.ReflTransGen.cases_head hw with rfl | ⟨x, ⟨-, i, hi, rfl⟩, hx⟩
    · rw [not_stray_of_arrayLike hv] at hstray
      exact absurd hstray Bool.false_ne_true
    · exact ⟨i, hi, w, hx, hstray⟩
  · intro hs
    obtain ⟨i, hi, w, hw, hstray⟩ := hs
    exact ⟨w, .head ⟨hv, i, hi, rfl⟩ hw, hstray⟩

/-! ## The slot -/

/-- From `s` to `t` the slot is as it was or, where something stray has been
come to, holds an error of the engine. -/
structure Marks (stray : Prop) (s t : Rt) : Prop where
  same : ¬stray → t.pending = s.pending
  thrown : stray → ∃ e, t.pending = .nativeError e

theorem marks_same {s t : Rt} (h : t.pending = s.pending) : Marks False s t :=
  ⟨fun _ => h, False.elim⟩

/-- The last error stays. -/
theorem Marks.trans {b c : Prop} {s t u : Rt} (h1 : Marks b s t) (h2 : Marks c t u) :
    Marks (b ∨ c) s u where
  same hn := (h2.same fun hc => hn (.inr hc)).trans (h1.same fun hb => hn (.inl hb))
  thrown hstray := by
    by_cases hc : c
    · exact h2.thrown hc
    · obtain ⟨e, he⟩ := h1.thrown (hstray.resolve_right hc)
      exact ⟨e, (h2.same hc).trans he⟩

/-- On the heap `h`, if the program returns: it has left the heap alone and
marked the slot, and its value is in `V`. -/
def Tracks {α : Type} (h : Heap) (stray : Prop) (V : α → Prop) (p : EngineM α) : Prop :=
  ∀ s : Rt, s.heap = h → wp p s (fun a t => t.heap = h ∧ Marks stray s t ∧ V a) fun _ _ => True

section

variable {α β : Type} {h : Heap} {b c d : Prop} {V : α → Prop} {W : β → Prop} {p : EngineM α}
  {f : α → EngineM β}

theorem tracks_bind (hp : Tracks h b V p) (hf : ∀ a, V a → Tracks h c W (f a)) (hd : d ↔ b ∨ c) :
    Tracks h d W (p >>= f) := by
  intro s hs
  rw [wp_bind]
  refine wp_mono (hp s hs) ?_ fun _ _ h => h
  intro a t ht
  obtain ⟨hheap, hmarks, hV⟩ := ht
  refine wp_mono (hf a hV t hheap) ?_ fun _ _ h => h
  intro r u hu
  exact ⟨hu.1, by rw [hd]; exact hmarks.trans hu.2.1, hu.2.2⟩

/-- First calls that leave the slot alone. -/
theorem tracks_quiet (hp : Tracks h False V p) (hf : ∀ a, V a → Tracks h c W (f a)) :
    Tracks h c W (p >>= f) :=
  tracks_bind hp hf (false_or c).symm.to_iff

/-- Then calls that leave the slot alone. -/
theorem tracks_then (hp : Tracks h b V p) (hf : ∀ a, V a → Tracks h False W (f a)) :
    Tracks h b W (p >>= f) :=
  tracks_bind hp hf (or_false b).symm.to_iff

theorem tracks_pure {a : α} (ha : V a) : Tracks h False V (pure a) :=
  fun _ hs => ⟨hs, marks_same rfl, ha⟩

theorem tracks_throw {e : Stop} : Tracks h False V (throw e) := fun _ _ => trivial

/-- A question the heap answers. -/
theorem tracks_ask {g : Heap → Outcome α} {a : α} (hg : g h = .value a) :
    Tracks h False (· = some a) (ask g) := by
  intro s hs
  rw [wp_ask, hs, hg, Rt.raise_value]
  exact ⟨hs, marks_same rfl, rfl⟩

/-- A question it answers with an error of the engine. -/
theorem tracks_ask_throws {g : Heap → Outcome α} {e : NativeError}
    (hg : g h = .throws (.nativeError e)) : Tracks h True (· = none) (ask g) := by
  intro s hs
  rw [wp_ask, hs, hg]
  exact ⟨hs, ⟨fun hn => absurd trivial hn, fun _ => ⟨e, rfl⟩⟩, rfl⟩

end

section

variable {h : Heap} {v w : JSVal} {value : JSValue} {forceFree : Bool}

theorem tracks_own : Tracks h False (fun r : JSValue => r.val = v) (own v) :=
  fun _ hs => ⟨hs, marks_same rfl, rfl⟩

theorem tracks_ownC {bytes : Option Bytes} :
    Tracks h False (fun c => c.map CString.bytes = bytes) (ownC bytes) := by
  intro s hs
  rw [wp_ownC]
  refine ⟨by rw [Rt.ownedC_heap, hs], marks_same (Rt.ownedC_pending s bytes), ?_⟩
  cases bytes <;> rfl

theorem tracks_jsFreeValue : Tracks h False (fun _ => True) (jsFreeValue value) :=
  fun _ hs => ⟨hs, marks_same rfl, trivial⟩

theorem tracks_jsFreeCString {c : Option CString} :
    Tracks h False (fun _ => True) (jsFreeCString c) :=
  fun _ hs => ⟨hs, marks_same rfl, trivial⟩

theorem tracks_freeIf : Tracks h False (fun _ => True) (freeIf forceFree value) := by
  intro s hs
  rw [wp_freeIf]
  exact ⟨hs, marks_same rfl, trivial⟩

theorem tracks_stdString {c : Option CString} : Tracks h False (fun _ => True) (stdString c) := by
  cases c with
  | none => exact tracks_throw
  | some c => exact fun _ hs => ⟨hs, marks_same rfl, trivial⟩

theorem tracks_orException {c : Option CString} :
    Tracks h False (fun _ => True) (orException c) := by
  cases c with
  | none => exact tracks_pure trivial
  | some c => exact fun _ hs => ⟨hs, marks_same rfl, trivial⟩

theorem tracks_jsGetPropertyStr {prop : Bytes} (hw : h.named v (newString prop) = .value w) :
    Tracks h False (fun r : JSValue => r.val = w) (jsGetPropertyStr v prop) := by
  refine tracks_quiet (tracks_ask hw) fun r hr => ?_
  rw [hr]
  exact tracks_own

theorem tracks_jsToCString {t : JSString} (ht : h.text v = .value t) :
    Tracks h False (fun _ => True) (jsToCString v) := by
  refine tracks_quiet (tracks_ask ht) fun r _ => ?_
  exact fun s hs => wp_mono (tracks_ownC s hs) (fun _ _ h => ⟨h.1, h.2.1, trivial⟩) fun _ _ h => h

/-! ## The branches -/

theorem tracks_fromJsText {text : String} :
    Tracks h False (fun _ => True) (fromJsText value forceFree text) :=
  tracks_quiet tracks_freeIf fun _ _ => tracks_pure trivial

theorem tracks_errorCstr (hw : w = .undefined ∨ ∃ t, h.text w = .value t) :
    Tracks h False (fun _ => True) (errorCstr w) := by
  unfold errorCstr
  split
  next => exact tracks_pure trivial
  next hne =>
    obtain ⟨t, ht⟩ := hw.resolve_left hne
    exact tracks_jsToCString ht

theorem tracks_fromJsError (htame : Tame h value.val) (herr : h.isError value.val = true) :
    Tracks h False (fun _ => True) (fromJsError value forceFree) := by
  obtain ⟨m, hm, hmtext⟩ := htame.error herr (ascii "message") (List.mem_cons_self ..)
  obtain ⟨k, hk, hktext⟩ := htame.error herr (ascii "name")
    (List.mem_cons_of_mem _ (List.mem_cons_self ..))
  refine tracks_quiet (tracks_jsGetPropertyStr hm) fun message hmessage => ?_
  refine tracks_quiet (tracks_jsGetPropertyStr hk) fun name hname => ?_
  rw [hmessage, hname]
  refine tracks_quiet (tracks_errorCstr hmtext) fun messageCstr _ => ?_
  refine tracks_quiet (tracks_errorCstr hktext) fun nameCstr _ => ?_
  refine tracks_quiet tracks_orException fun messageStr _ => ?_
  refine tracks_quiet tracks_orException fun _ _ => ?_
  refine tracks_quiet tracks_stdString fun execName _ => ?_
  refine tracks_quiet tracks_freeIf fun _ _ => ?_
  refine tracks_quiet tracks_jsFreeValue fun _ _ => ?_
  refine tracks_quiet tracks_jsFreeValue fun _ _ => ?_
  refine tracks_quiet tracks_jsFreeCString fun _ _ => ?_
  exact tracks_quiet tracks_jsFreeCString fun _ _ => tracks_pure trivial

/-- What the bytes of a view are made of is no concern of the slot. -/
theorem tracks_readElements {a : Addr} {offset count : Nat} {e : Elem} :
    Tracks h False (fun _ => True) (readElements a offset count e) := by
  intro s hs
  rw [readElements, wp_bind, wp_readBytes]
  split
  next => exact ⟨hs, marks_same rfl, trivial⟩
  next => trivial

theorem tracks_convertView {view : View} {probed : Option CString × Option Addr} :
    Tracks h False (fun _ => True) (convertView value forceFree view probed) := by
  obtain ⟨nameCstr, bufferData⟩ := probed
  cases bufferData with
  | none => exact tracks_pure trivial
  | some b =>
    refine tracks_quiet tracks_stdString fun name _ => ?_
    split
    next => exact tracks_quiet tracks_readElements fun _ _ => tracks_pure trivial
    next => exact tracks_fromJsText

/-- A question that comes to a value or an error of the engine. -/
theorem tracks_ask_either {α : Type} {g : Heap → Outcome α}
    (hg : (∃ a, g h = .value a) ∨ ∃ e, g h = .throws (.nativeError e)) :
    Tracks h ((g h).get? = none) (· = (g h).get?) (ask g) := by
  rcases hg with ⟨a, ha⟩ | ⟨e, he⟩
  · rw [ha]
    simpa using tracks_ask ha
  · rw [he]
    simpa using tracks_ask_throws he

theorem arrayBuffer_either (h : Heap) (v : JSVal) :
    (∃ a, h.arrayBuffer v = .value a) ∨ ∃ e, h.arrayBuffer v = .throws (.nativeError e) := by
  unfold Heap.arrayBuffer
  split
  next =>
    split
    next => exact .inl ⟨_, rfl⟩
    next => exact .inr ⟨_, rfl⟩
    next => exact .inr ⟨_, rfl⟩
  next => exact .inr ⟨_, rfl⟩

theorem view_either (h : Heap) (v : JSVal) :
    (∃ view, h.view v = .value view) ∨ ∃ e, h.view v = .throws (.nativeError e) := by
  unfold Heap.view
  split
  next =>
    split
    next =>
      split
      next => exact .inr ⟨_, rfl⟩
      next => exact .inl ⟨_, rfl⟩
    next => exact .inr ⟨_, rfl⟩
  next => exact .inr ⟨_, rfl⟩

/-- The name of the constructor cannot be read. -/
def Nameless (h : Heap) (v : JSVal) : Prop :=
  (h.named (h.property v (ascii "constructor")) (newString (ascii "name"))).get? = none

theorem Tame.name_either {view : View} (htame : Tame h v) (hview : h.view v = .value view) :
    ∃ c, h.named v (newString (ascii "constructor")) = .value c ∧
      ((∃ w, h.named c (newString (ascii "name")) = .value w) ∨
        ∃ e, h.named c (newString (ascii "name")) = .throws (.nativeError e)) := by
  obtain ⟨c, hc, hname⟩ := htame.constructor view hview
  refine ⟨c, hc, ?_⟩
  rcases hname with rfl | rfl | ⟨w, t, hw, -⟩
  · exact .inr ⟨_, rfl⟩
  · exact .inr ⟨_, rfl⟩
  · exact .inl ⟨w, hw⟩

theorem Tame.name_text {view : View} (htame : Tame h v) (hview : h.view v = .value view)
    (hname : ¬Nameless h v) : ∃ t, h.text (h.property (h.property v (ascii "constructor"))
      (ascii "name")) = .value t := by
  obtain ⟨c, hc, hread⟩ := htame.constructor view hview
  have hprop : h.property v (ascii "constructor") = c := by simp [Heap.property, hc]
  rw [Nameless, hprop] at hname
  rw [hprop]
  rcases hread with rfl | rfl | ⟨w, t, hw, ht⟩
  · exact absurd rfl hname
  · exact absurd rfl hname
  · exact ⟨t, by simpa [Heap.property, hw] using ht⟩

/-- A read that comes to a value or an error of the engine. -/
theorem tracks_jsGetPropertyStr_either {prop : Bytes}
    (hread : (∃ w, h.named v (newString prop) = .value w) ∨
      ∃ e, h.named v (newString prop) = .throws (.nativeError e)) :
    Tracks h ((h.named v (newString prop)).get? = none)
      (fun r : JSValue => r.val = h.property v prop) (jsGetPropertyStr v prop) := by
  refine tracks_then (tracks_ask_either hread) fun r hr => ?_
  rw [hr]
  exact tracks_own

/-- `name_cstr`: NULL for a name that could not be read. -/
theorem tracks_nameCstr {view : View} (htame : Tame h v) (hview : h.view v = .value view) :
    Tracks h False (fun c => Nameless h v → c = none)
      (jsToCString (h.property (h.property v (ascii "constructor")) (ascii "name"))) := by
  by_cases hname : Nameless h v
  · have hexc : h.property (h.property v (ascii "constructor")) (ascii "name") = .exception := by
      rw [Heap.property, hname]
      rfl
    rw [hexc]
    intro s hs
    rw [wp_jsToCString, Heap.text_exception]
    exact ⟨hs, marks_same rfl, fun _ => rfl⟩
  · obtain ⟨t, ht⟩ := htame.name_text hview hname
    intro s hs
    refine wp_mono (tracks_jsToCString ht s hs) ?_ fun _ _ h => h
    exact fun c u hu => ⟨hu.1, hu.2.1, fun h => absurd h hname⟩

/-- The calls before the comparison with the nine names. -/
theorem tracks_probeView {buffer : JSValue} {view : View} (htame : Tame h value.val)
    (hview : h.view value.val = .value view) (hbuffer : buffer.val = .object view.buffer) :
    Tracks h (Nameless h value.val ∨ (h.typedData value.val).get? = none)
      (fun r => r.2 = (h.typedData value.val).get? ∧ (Nameless h value.val → r.1 = none))
      (probeView value forceFree buffer) := by
  have hdata : h.typedData value.val = h.arrayBuffer buffer.val := by
    rw [Heap.typedData, hview, hbuffer]
    rfl
  obtain ⟨c, hc, hread⟩ := htame.name_either hview
  have hprop : h.property value.val (ascii "constructor") = c := by simp [Heap.property, hc]
  rw [hdata]
  refine tracks_quiet (tracks_jsGetPropertyStr hc) fun constructor hconstructor => ?_
  rw [hconstructor]
  refine tracks_bind (c := (h.arrayBuffer buffer.val).get? = none)
    (tracks_jsGetPropertyStr_either hread) (fun name hname => ?_) (by rw [Nameless, hprop])
  have hcstr := tracks_nameCstr htame hview
  rw [hprop] at hcstr
  rw [hname]
  refine tracks_quiet hcstr fun nameCstr hnull => ?_
  refine tracks_then (tracks_ask_either (arrayBuffer_either h _)) fun bufferData hbufferData => ?_
  refine tracks_quiet tracks_jsFreeCString fun _ _ => ?_
  refine tracks_quiet tracks_jsFreeValue fun _ _ => ?_
  refine tracks_quiet tracks_jsFreeValue fun _ _ => ?_
  refine tracks_quiet tracks_jsFreeValue fun _ _ => ?_
  refine tracks_quiet tracks_freeIf fun _ _ => ?_
  exact tracks_pure ⟨hbufferData, hnull⟩

/-- A name that could not be read ends the program where there are data: nothing
is returned. -/
theorem tracks_fromJsView {buffer : JSValue} {view : View} (htame : Tame h value.val)
    (hview : h.view value.val = .value view) (hbuffer : buffer.val = .object view.buffer) :
    Tracks h ((h.typedData value.val).get? = none) (fun _ => True)
      (fromJsView value forceFree buffer view) := by
  by_cases hends : Nameless h value.val ∧ (h.typedData value.val).get? ≠ none
  · intro s hs
    rw [fromJsView, wp_bind]
    refine wp_mono (tracks_probeView htame hview hbuffer s hs) ?_ fun _ _ h => h
    intro probed t ht
    obtain ⟨nameCstr, bufferData⟩ := probed
    obtain ⟨-, -, hdata, hnull⟩ := ht
    obtain ⟨b, hb⟩ := Option.ne_none_iff_exists'.mp hends.2
    obtain rfl : bufferData = some b := hdata.trans hb
    obtain rfl : nameCstr = none := hnull hends.1
    trivial
  · have hiff : (h.typedData value.val).get? = none ↔
        Nameless h value.val ∨ (h.typedData value.val).get? = none := by
      constructor
      · exact .inr
      · intro hor
        by_contra hdata
        exact hends ⟨hor.resolve_right hdata, hdata⟩
    rw [hiff]
    exact tracks_then (tracks_probeView htame hview hbuffer) fun _ _ => tracks_convertView

theorem tracks_fromJsOther (htame : Tame h value.val) :
    Tracks h ((h.typedData value.val).get? = none) (fun _ => True)
      (fromJsOther value forceFree) := by
  intro s hs
  rw [fromJsOther, wp_bind, wp_jsGetTypedArrayBuffer, hs]
  rcases view_either h value.val with ⟨view, hview⟩ | ⟨e, he⟩
  · rw [hview]
    refine wp_mono (tracks_fromJsView htame hview rfl (s.owned (.object view.buffer)) hs) ?_
      fun _ _ h => h
    exact fun _ t ht => ⟨ht.1, ⟨ht.2.1.same, ht.2.1.thrown⟩, trivial⟩
  · -- the exception is released, and the slot keeps what was thrown
    rw [he]
    refine wp_mono (tracks_fromJsText (h := h) (s.raise (.throws (.nativeError e) : Outcome View))
      hs) ?_ fun _ _ h => h
    intro _ t ht
    have hnone : (h.typedData value.val).get? = none := by
      rw [Heap.typedData, he]
      rfl
    exact ⟨ht.1, ⟨fun hn => absurd hnone hn, fun _ => ⟨e, ht.2.1.same id⟩⟩, trivial⟩

/-- The last branches decide it. -/
theorem stray_rest (hleaf : ¬h.ArrayLike v) (hreach : v.reachesIsArray = true)
    (hnull : v ≠ .null) (hundef : v ≠ .undefined) (hexc : v ≠ .exception) :
    h.stray v = true ↔ h.isError v = false ∧ (h.typedData v).get? = none := by
  have hstray : h.stray v =
      (decide (h.isArray v = .value false) && !h.isError v && (h.typedData v).get?.isNone) := by
    cases v with
    | null => exact absurd rfl hnull
    | undefined => exact absurd rfl hundef
    | exception => exact absurd rfl hexc
    | string u => exact absurd hreach (by simp [JSVal.reachesIsArray])
    | bool b => exact absurd hreach (by simp [JSVal.reachesIsArray])
    | int i => exact absurd hreach (by simp [JSVal.reachesIsArray])
    | float64 d => exact absurd hreach (by simp [JSVal.reachesIsArray])
    | _ => rfl
  rw [hstray, decide_eq_true (not_not.mp hleaf)]
  simp

theorem tracks_of_not_stray {α : Type} {V : α → Prop} {p : EngineM α} (hv : h.stray v = false)
    (hp : Tracks h False V p) : Tracks h (h.stray v = true) V p := by
  rwa [hv, eq_false Bool.false_ne_true]

theorem tracks_fromJsRest (htame : Tame h value.val) (hleaf : ¬h.ArrayLike value.val)
    (hreach : value.val.reachesIsArray = true) :
    Tracks h (h.stray value.val = true) (fun _ => True) (fromJsRest value forceFree) := by
  intro s hs
  rw [fromJsRest, wp_bind, wp_get]
  split
  next hval => exact tracks_of_not_stray (by rw [hval]; rfl) tracks_fromJsText s hs
  next hval => exact tracks_of_not_stray (by rw [hval]; rfl) tracks_fromJsText s hs
  next hval => exact absurd hval htame.notException
  next hnull hundef hexc =>
    rw [stray_rest hleaf hreach hnull hundef hexc, hs]
    cases herr : h.isError value.val with
    | true => simpa using tracks_fromJsError htame herr s hs
    | false => simpa using tracks_fromJsOther htame s hs

theorem tracks_fromJsNumber {d : Double} (hd : h.number value.val = .value d) :
    Tracks h False (fun _ => True) (fromJsNumber value forceFree) := by
  intro s hs
  rw [fromJsNumber, wp_bind, wp_jsToInt32, hs, hd, Rt.raise_value]
  exact wp_mono (tracks_quiet tracks_freeIf (fun _ _ => tracks_pure trivial) s hs)
    (fun _ _ h => h) fun _ _ h => h

/-- A value that is no array marks the slot if it is stray. -/
theorem tracks_leaf (n : Nat) (htame : Tame h value.val) (hleaf : ¬h.ArrayLike value.val) :
    Tracks h (h.stray value.val = true) (fun _ => True) (fromJs (n + 1) value forceFree) := by
  have hrest : value.val.reachesIsArray = true →
      Tracks h (h.stray value.val = true) (fun _ => True) (fromJs (n + 1) value forceFree) := by
    intro hreach s hs
    rw [wp_fromJs_isArray hreach, if_pos (by rw [hs]; exact not_not.mp hleaf)]
    exact tracks_fromJsRest htame hleaf hreach s hs
  cases hval : value.val with
  | string u =>
    have htext : h.text value.val = .value u := by rw [hval, Heap.text_string]
    rw [fromJs_string hval]
    refine tracks_of_not_stray rfl (tracks_quiet (tracks_jsToCString htext) fun val _ => ?_)
    refine tracks_quiet tracks_stdString fun valString _ => ?_
    refine tracks_quiet tracks_jsFreeCString fun _ _ => ?_
    exact tracks_quiet tracks_freeIf fun _ _ => tracks_pure trivial
  | bool b =>
    rw [fromJs_bool hval]
    exact tracks_of_not_stray rfl (tracks_quiet tracks_freeIf fun _ _ => tracks_pure trivial)
  | int i =>
    rw [fromJs_number (by rw [hval]; rfl)]
    exact tracks_of_not_stray rfl (tracks_fromJsNumber (h := h) (by rw [hval]; rfl))
  | float64 d =>
    rw [fromJs_number (by rw [hval]; rfl)]
    exact tracks_of_not_stray rfl (tracks_fromJsNumber (h := h) (by rw [hval]; rfl))
  | _ =>
    rw [← hval]
    exact hrest (by rw [hval]; rfl)

/-! ## Arrays -/

/-- One that is no proxy has a length, and its elements are there to be read. -/
theorem Tame.array (htame : Tame h v) (hv : h.ArrayLike v) :
    h.isArray v = .value true ∧
      ∃ len, h.named v (newString (ascii "length")) = .value (newUint32 len) := by
  cases v with
  | object a =>
    cases hcls : (h.obj a).cls with
    | proxy target => exact absurd hcls (htame.notProxy a target rfl)
    | array len =>
      have htrue : h.isArray (.object a) = .value true := by
        simp [Heap.isArray, Heap.resolveProxy, Outcome.bind, hcls]
      refine ⟨htrue, len, ?_⟩
      have hlength : newString (ascii "length") = units "length" := by decide
      rw [Heap.named, hcls, hlength]
      exact if_pos rfl
    | _ =>
      have hfalse : h.isArray (.object a) = .value false := by
        simp [Heap.isArray, Heap.resolveProxy, Outcome.bind, hcls]
      exact absurd hfalse hv
  | _ => exact absurd rfl hv

theorem number_newUint32 (h : Heap) (len : Nat) : ∃ d, h.number (newUint32 len) = .value d := by
  unfold newUint32
  split
  next => exact ⟨_, rfl⟩
  next => exact ⟨_, rfl⟩

/-- The loop over the elements from `i` on. -/
theorem tracks_fromJsElems (value : JSValue) {rec : JSValue → Bool → EngineM JSArg} :
    ∀ n i : Nat, (∀ j < i + n, ∃ w, h.indexed value.val j = .value w) →
      (∀ j < i + n, ∀ r, Tracks h (HasStray h (h.element value.val j)) (fun _ => True)
        (rec ⟨h.element value.val j, r⟩ true)) →
      Tracks h (∃ j, i ≤ j ∧ j < i + n ∧ HasStray h (h.element value.val j)) (fun _ => True)
        (fromJsElems rec value i n)
  | 0, i, _, _ => by
    have hnone : (∃ j, i ≤ j ∧ j < i + 0 ∧ HasStray h (h.element value.val j)) ↔ False :=
      ⟨fun ⟨j, h1, h2, _⟩ => absurd h1 (by omega), False.elim⟩
    rw [hnone]
    exact tracks_pure trivial
  | n + 1, i, hread, hrec => by
    obtain ⟨w, hw⟩ := hread i (by omega)
    have helem : h.element value.val i = w := by simp [Heap.element, hw]
    have hget : Tracks h False (fun r : JSValue => r.val = h.element value.val i)
        (jsGetPropertyUint32 value.val i) := by
      refine tracks_quiet (tracks_ask hw) fun r hr => ?_
      rw [hr, helem]
      exact tracks_own
    have hrest := tracks_fromJsElems value n (i + 1) (fun j hj => hread j (by omega))
      (fun j hj => hrec j (by omega))
    refine tracks_quiet hget fun elem helem => ?_
    obtain ⟨val, r⟩ := elem
    obtain rfl : val = h.element value.val i := helem
    refine tracks_bind (hrec i (by omega) r) (fun _ _ =>
      tracks_then hrest fun _ _ => tracks_pure trivial) ?_
    -- at `i`, or behind it
    constructor
    · intro h
      obtain ⟨j, h1, h2, hj⟩ := h
      rcases Nat.eq_or_lt_of_le h1 with rfl | h1
      · exact .inl hj
      · exact .inr ⟨j, h1, by omega, hj⟩
    · intro h
      rcases h with hi | ⟨j, h1, h2, hj⟩
      · exact ⟨i, Nat.le_refl _, by omega, hi⟩
      · exact ⟨j, by omega, by omega, hj⟩

/-- The length is read and converted, and each element is. -/
theorem tracks_fromJsArray {rec : JSValue → Bool → EngineM JSArg} (htame : Tame h value.val)
    (harr : h.ArrayLike value.val)
    (hrec : ∀ j < h.arrayLength value.val, ∀ r,
      Tracks h (HasStray h (h.element value.val j)) (fun _ => True)
        (rec ⟨h.element value.val j, r⟩ true)) :
    Tracks h (HasStray h value.val) (fun _ => True) (fromJsArray rec value forceFree) := by
  obtain ⟨-, len, hlen⟩ := htame.array harr
  obtain ⟨d, hd⟩ := number_newUint32 h len
  have hprop : h.property value.val (ascii "length") = newUint32 len := by
    simp [Heap.property, hlen]
  have hlength : h.arrayLength value.val = (Int32.ofInt d.trunc).toUInt32.toNat := by
    simp [Heap.arrayLength, hprop, hd]
  have hconvert : Tracks h False (· = some (Int32.ofInt d.trunc).toUInt32)
      (jsToUint32 (newUint32 len)) := by
    intro s hs
    rw [wp_jsToUint32, hs, hd, Rt.raise_value]
    exact ⟨hs, marks_same rfl, rfl⟩
  have hloop := tracks_fromJsElems value (h.arrayLength value.val) 0
    (fun j hj => htame.elements harr j (by omega)) (fun j hj => hrec j (by omega))
  have hiff : HasStray h value.val ↔ ∃ j, 0 ≤ j ∧ j < 0 + h.arrayLength value.val ∧
      HasStray h (h.element value.val j) := by
    rw [hasStray_array harr]
    simp
  refine tracks_quiet (tracks_jsGetPropertyStr hlen) fun lenVal hlenVal => ?_
  rw [hlenVal]
  refine tracks_quiet hconvert fun count hcount => ?_
  refine tracks_quiet tracks_jsFreeValue fun _ _ => ?_
  rw [hcount, Option.getD_some, ← hlength, hiff]
  refine tracks_then hloop fun vec _ => ?_
  exact tracks_quiet tracks_freeIf fun _ _ => tracks_pure trivial

/-- **`from_js` marks the slot exactly when something stray stands in the
value**, if it returns. -/
theorem tracks_fromJs : ∀ (n : Nat) (v : JSVal) (r : RefId) (forceFree : Bool),
    (∀ w, Contains h v w → Tame h w) →
      Tracks h (HasStray h v) (fun _ => True) (fromJs n ⟨v, r⟩ forceFree)
  | 0, _, _, _, _ => fun _ _ => trivial
  | n + 1, v, r, forceFree, htame => by
    have hv : Tame h v := htame v .refl
    by_cases harr : h.ArrayLike v
    · have hisArray := (hv.array harr).1
      have hreach : (JSValue.mk v r).val.reachesIsArray = true := by
        cases v with
        | object a => rfl
        | _ => exact absurd rfl harr
      have hrec : ∀ j < h.arrayLength v, ∀ r', Tracks h (HasStray h (h.element v j))
          (fun _ => True) (fromJs n ⟨h.element v j, r'⟩ true) := fun j hj r' =>
        tracks_fromJs n (h.element v j) r' true fun w hw => htame w (.head ⟨harr, j, hj, rfl⟩ hw)
      have harray : Tracks h (HasStray h v) (fun _ => True)
          (fromJsArray (fromJs n) ⟨v, r⟩ forceFree) :=
        @tracks_fromJsArray h ⟨v, r⟩ forceFree (fromJs n) hv harr hrec
      intro s hs
      rw [wp_fromJs_isArray hreach, hs, if_neg harr, hisArray, Rt.raise_value]
      exact harray s hs
    · rw [hasStray_leaf harr]
      exact tracks_leaf n hv harr

end

/-! ## The slot is left as it was -/

/-- Whenever `from_js` of the value returns, the slot is as it was. -/
def LeavesPending (h : Heap) (v : JSVal) : Prop :=
  ∀ (n : Nat) (r : RefId) (forceFree : Bool) (s t : Rt) (a : JSArg), s.heap = h →
    fromJs n ⟨v, r⟩ forceFree s = .ok a t → t.pending = s.pending

/-- A plain object of a new context. -/
theorem tame_plain : ∀ w, Contains .initial (.object 12) w → Tame .initial w := by
  intro w hw
  have hleaf : ¬Heap.initial.ArrayLike (.object 12) := by decide
  rw [contains_leaf hleaf hw]
  exact
    { notException := by decide
      notProxy := fun a target ha => by
        obtain rfl := JSVal.object.inj ha
        exact fun h => nomatch h
      elements := fun harr => absurd harr hleaf
      error := fun herr => nomatch herr
      constructor := fun view hview => nomatch hview }

end Ejr
