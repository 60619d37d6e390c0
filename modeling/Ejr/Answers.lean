import Ejr.FromJs

/-!
# What `from_js` answers

The branches of `from_js` that do not recurse ask the heap a few questions and
answer from what they hear. `Heap.fromLeaf` is that answer as a function of the
heap, with the errors that end the call in another way; `answers_fromJs` says
that the calls compute it and leave the heap alone.
-/

namespace Ejr

open Lib

/-! ## The answers -/

/-- The text of an Error's `message` or `name`, `none` where `cstr` is NULL. -/
def Heap.errorText (h : Heap) : JSVal → Option JSString
  | .undefined => none
  | v => (h.text v).get?

/-- A text as `std::string` sees it, or the literal `"Exception"`. -/
def textOrException : Option JSString → Bytes
  | some t => cstr (toCStringLen t)
  | none => ascii "Exception"

/-- The Error branch. -/
def Heap.fromError (h : Heap) (v : JSVal) : Except Stop JSArg :=
  match h.errorText (h.property v (ascii "name")) with
  | some name => .ok (.exception (textOrException (h.errorText (h.property v (ascii "message"))))
      (cstr (toCStringLen name)))
  | none => .error .nullString

/-- The exception branch; `pending` is the slot's content. -/
def Heap.fromPending (h : Heap) (pending : JSVal) : JSArg :=
  .exception (textOrException (h.text pending).get?) (textOrException (h.text pending).get?)

/-- The text of `value.constructor.name`. -/
def Heap.constructorName (h : Heap) (v : JSVal) : Outcome JSString :=
  h.text (h.property (h.property v (ascii "constructor")) (ascii "name"))

/-- The elements read from a buffer. -/
def Heap.elements (h : Heap) (b : Addr) (offset count : Nat) (e : Elem) : Except Stop JSArg :=
  if offset + count * e.size ≤ (h.data b).length then
    .ok (.typedArray ⟨e, (pieces e.size count
      (((h.data b).drop offset).take (count * e.size))).map fun p => BitVec.ofNat _ (natOfBytes p)⟩)
  else .error .badRead

/-- The typed array branch. -/
def Heap.fromView (h : Heap) (v : JSVal) (view : View) : Except Stop JSArg :=
  match (h.arrayBuffer (.object view.buffer)).get?, (h.constructorName v).get? with
  | none, _ => .ok (.string (ascii "[unsupported]"))
  | some _, none => .error .nullString
  | some b, some u =>
    match elemOfName (cstr (toCStringLen u)) with
    | some e => h.elements b view.offset (view.length / view.cls.size) e
    | none => .ok (.string (ascii "[unsupported]"))

/-- The last two branches: an Error, or a typed array or nothing known. -/
def Heap.fromRest (h : Heap) (v : JSVal) : Except Stop JSArg :=
  if h.isError v then h.fromError v
  else
    match (h.view v).get? with
    | some view => h.fromView v view
    | none => .ok (.string (ascii "[unsupported]"))

/-- The answer for a value that is no array. -/
def Heap.fromLeaf (h : Heap) (pending v : JSVal) : Except Stop JSArg :=
  match v with
  | .string u => .ok (.string (cstr (toCStringLen u)))
  | .bool b => .ok (.bool b)
  | .int i => .ok (.int i)
  | .float64 d => .ok (.int (Int32.ofInt d.trunc))
  | .null => .ok (.string (ascii "null"))
  | .undefined => .ok (.string (ascii "undefined"))
  | .exception => .ok (h.fromPending pending)
  | v => h.fromRest v

/-- Run from `s`, `p` ends with that answer, on the same heap. -/
def Answers (p : EngineM JSArg) (s : Rt) (r : Except Stop JSArg) : Prop :=
  wp p s (fun a t => r = .ok a ∧ t.heap = s.heap) (fun e _ => r = .error e)

/-! ## The calls compute them -/

variable {value : JSValue} {forceFree : Bool} {s : Rt}

theorem answers_fromJsText (text : String) :
    Answers (fromJsText value forceFree text) s (.ok (.string (ascii text))) := by
  simp [Answers, fromJsText]

theorem answers_fromJsString {u : JSString} (hv : value.val = .string u) :
    Answers (fromJsString value forceFree) s (.ok (.string (cstr (toCStringLen u)))) := by
  simp [Answers, fromJsString, hv]

theorem answers_fromJsNumber {d : Double} (hd : s.heap.number value.val = .value d) :
    Answers (fromJsNumber value forceFree) s (.ok (.int (Int32.ofInt d.trunc))) := by
  simp [Answers, fromJsNumber, hd, Outcome.get?]

theorem trunc_int (i : Int32) : Int32.ofInt (Double.finite i.toInt).trunc = i := by
  simp [Double.trunc]

/-- `errorCstr` finds the text, or NULL. -/
theorem errorCstr_ok (v : JSVal) (s : Rt) : ∃ c t, errorCstr v s =
    .ok ((s.heap.errorText v).map fun u => ⟨toCStringLen u, c⟩) t ∧ t.heap = s.heap := by
  have hcstr : ∀ w : JSVal, ∃ c t, jsToCString w s =
      .ok ((s.heap.text w).get?.map fun u => ⟨toCStringLen u, c⟩) t ∧ t.heap = s.heap := by
    intro w
    have hrun : wp (jsToCString w) s (fun r t =>
        r = ((s.heap.text w).get?.map fun u => ⟨toCStringLen u, s.fresh⟩) ∧ t.heap = s.heap)
        (fun _ _ => False) := by simp
    obtain ⟨r, t, hr, rfl, ht⟩ := exists_ok_of_wp hrun
    exact ⟨s.fresh, t, hr, ht⟩
  cases v with
  | undefined => exact ⟨0, s, rfl, rfl⟩
  | _ => exact hcstr _

theorem orException_ok (u : Option JSString) (c : RefId) (s : Rt) :
    ∃ t, orException (u.map fun u => ⟨toCStringLen u, c⟩) s = .ok (textOrException u) t ∧
      t.heap = s.heap := by
  cases u with
  | none => exact ⟨s, rfl, rfl⟩
  | some u => exact ⟨s.log [.readC c], rfl, rfl⟩

theorem answers_fromJsError :
    Answers (fromJsError value forceFree) s (s.heap.fromError value.val) := by
  unfold Answers fromJsError
  simp only [wp_bind, wp_jsGetPropertyStr]
  generalize hs1 : Rt.owned _ (s.heap.property value.val (ascii "message")) = s1
  have h1 : s1.heap = s.heap := by rw [← hs1]; simp
  simp only [h1]
  generalize hs2 : Rt.owned _ (s.heap.property value.val (ascii "name")) = s2
  have h2 : s2.heap = s.heap := by rw [← hs2]; simp [h1]
  obtain ⟨c3, s3, hrun3, h3⟩ := errorCstr_ok (s.heap.property value.val (ascii "message")) s2
  rw [wp_iff_of_ok hrun3, h2]
  obtain ⟨c4, s4, hrun4, h4⟩ := errorCstr_ok (s.heap.property value.val (ascii "name")) s3
  rw [wp_iff_of_ok hrun4, h3, h2]
  obtain ⟨s5, hrun5, h5⟩ := orException_ok
    (s.heap.errorText (s.heap.property value.val (ascii "message"))) c3 s4
  rw [wp_iff_of_ok hrun5]
  obtain ⟨s6, hrun6, h6⟩ := orException_ok
    (s.heap.errorText (s.heap.property value.val (ascii "name"))) c4 s5
  rw [wp_iff_of_ok hrun6]
  have heap6 : s6.heap = s.heap := by rw [h6, h5, h4, h3, h2]
  cases hname : s.heap.errorText (s.heap.property value.val (ascii "name")) with
  | none => simp [Heap.fromError, hname]
  | some name => simp [Heap.fromError, hname, heap6]

theorem answers_fromJsException :
    Answers (fromJsException value forceFree) s (.ok (s.heap.fromPending s.pending)) := by
  unfold Answers fromJsException
  simp only [wp_bind, wp_jsGetException, wp_jsToString]
  simp only [Rt.owned_heap]
  cases ht : s.heap.text s.pending with
  | value t => simp [orException, textOrException, Heap.fromPending, ht]
  | throws e => simp [orException, textOrException, Heap.fromPending, ht]
  | exception => simp [orException, textOrException, Heap.fromPending, ht]

/-- What the calls before the comparison find. -/
theorem probeView_ok (value : JSValue) (forceFree : Bool) (buffer : JSValue) (s : Rt) :
    ∃ c t, probeView value forceFree buffer s =
        .ok ((s.heap.constructorName value.val).get?.map fun u => ⟨toCStringLen u, c⟩,
          (s.heap.arrayBuffer buffer.val).get?) t ∧ t.heap = s.heap := by
  have hrun : wp (probeView value forceFree buffer) s (fun r t =>
      (∃ c, r = ((s.heap.constructorName value.val).get?.map fun u => ⟨toCStringLen u, c⟩,
        (s.heap.arrayBuffer buffer.val).get?)) ∧ t.heap = s.heap) (fun _ _ => False) := by
    simp [probeView, Heap.constructorName]
    exact ⟨_, rfl⟩
  obtain ⟨r, t, hr, ⟨c, rfl⟩, ht⟩ := exists_ok_of_wp hrun
  exact ⟨c, t, hr, ht⟩

/-- The typed array branch, once the calls before the comparison have run. -/
theorem wp_fromJsView {value : JSValue} {forceFree : Bool} {buffer : JSValue} {view : View}
    {s t : Rt} {probed : Option CString × Option Addr}
    (h : probeView value forceFree buffer s = .ok probed t) {Q : JSArg → Rt → Prop}
    {X : Stop → Rt → Prop} :
    wp (fromJsView value forceFree buffer view) s Q X ↔
      wp (convertView value forceFree view probed) t Q X := by
  rw [fromJsView, wp_bind, wp_iff_of_ok h]


theorem answers_readElements {b : Addr} {offset count : Nat} {e : Elem} :
    Answers (do let a ← readElements b offset count e; pure (.typedArray a)) s
      (s.heap.elements b offset count e) := by
  simp only [Answers, readElements, wp_bind, wp_pure, wp_readBytes, Heap.elements]
  split <;> simp

theorem answers_fromJsView {buffer : JSValue} {view : View}
    (hbuffer : buffer.val = .object view.buffer) :
    Answers (fromJsView value forceFree buffer view) s (s.heap.fromView value.val view) := by
  obtain ⟨c, t, hprobe, ht⟩ := probeView_ok value forceFree buffer s
  rw [Answers, wp_fromJsView hprobe, hbuffer, Heap.fromView]
  cases hb : (s.heap.arrayBuffer (.object view.buffer)).get? with
  | none => exact ⟨rfl, ht⟩
  | some b =>
    cases hu : (s.heap.constructorName value.val).get? with
    | none => rfl
    | some u =>
      simp only [Option.map_some, convertView, wp_bind, wp_stdString_some]
      cases elemOfName (cstr (toCStringLen u)) with
      | none =>
        refine wp_mono (answers_fromJsText "[unsupported]") ?_ (fun _ _ h => h)
        exact fun a u hu => ⟨hu.1, hu.2.trans ht⟩
      | some e =>
        refine wp_mono (answers_readElements (s := t.log [.readC c])) ?_ ?_
        · intro a u hu
          exact ⟨by rw [← hu.1, Rt.log_heap, ht], hu.2.trans ht⟩
        · intro e u hu
          rw [← hu, Rt.log_heap, ht]

theorem answers_fromJsOther :
    Answers (fromJsOther value forceFree) s
      (match (s.heap.view value.val).get? with
      | some view => s.heap.fromView value.val view
      | none => .ok (.string (ascii "[unsupported]"))) := by
  rw [Answers, fromJsOther, wp_bind, wp_jsGetTypedArrayBuffer]
  cases hview : s.heap.view value.val with
  | value view =>
    exact wp_mono (answers_fromJsView (s := s.owned (.object view.buffer)) rfl)
      (fun _ _ h => h) (fun _ _ h => h)
  | throws e =>
    refine wp_mono (answers_fromJsText "[unsupported]") ?_ (fun _ _ h => h)
    exact fun a u hu => ⟨hu.1, by simpa using hu.2⟩
  | exception =>
    refine wp_mono (answers_fromJsText "[unsupported]") ?_ (fun _ _ h => h)
    exact fun a u hu => ⟨hu.1, by simpa using hu.2⟩

/-- What is left when the fixed values have been excluded. -/
theorem fromRest_eq_fromLeaf {h : Heap} {pending v : JSVal} (hreach : v.reachesIsArray = true)
    (hnull : v ≠ .null) (hundef : v ≠ .undefined) (hexc : v ≠ .exception) :
    h.fromRest v = h.fromLeaf pending v := by
  cases v with
  | null => exact absurd rfl hnull
  | undefined => exact absurd rfl hundef
  | exception => exact absurd rfl hexc
  | string u => exact absurd hreach (by simp [JSVal.reachesIsArray])
  | bool b => exact absurd hreach (by simp [JSVal.reachesIsArray])
  | int i => exact absurd hreach (by simp [JSVal.reachesIsArray])
  | float64 d => exact absurd hreach (by simp [JSVal.reachesIsArray])
  | _ => rfl

/-- What comes after `JS_IsArray`. -/
theorem answers_fromJsRest (hreach : value.val.reachesIsArray = true) :
    Answers (fromJsRest value forceFree) s (s.heap.fromLeaf s.pending value.val) := by
  rw [Answers, fromJsRest, wp_bind, wp_get]
  split
  next h =>
    rw [h]
    exact answers_fromJsText "null"
  next h =>
    rw [h]
    exact answers_fromJsText "undefined"
  next h =>
    rw [h]
    exact answers_fromJsException
  next hnull hundef hexc =>
    rw [← fromRest_eq_fromLeaf hreach hnull hundef hexc, Heap.fromRest]
    cases herr : s.heap.isError value.val with
    | true => exact answers_fromJsError
    | false => exact answers_fromJsOther

/-- **A value that is no array** is converted without recursion. -/
theorem answers_fromJs (n : Nat) (hv : s.heap.isArray value.val = .value false) :
    Answers (fromJs (n + 1) value forceFree) s (s.heap.fromLeaf s.pending value.val) := by
  have hrest : value.val.reachesIsArray = true →
      Answers (fromJs (n + 1) value forceFree) s (s.heap.fromLeaf s.pending value.val) := by
    intro hreach
    rw [Answers, wp_fromJs_isArray hreach, if_pos hv]
    exact answers_fromJsRest hreach
  cases hval : value.val with
  | string u =>
    rw [fromJs_string hval]
    exact answers_fromJsString hval
  | bool b =>
    rw [fromJs_bool hval]
    have h : Answers (fromJsBool value b forceFree) s (.ok (.bool b)) := by
      simp [Answers, fromJsBool]
    exact h
  | int i =>
    rw [fromJs_number (by rw [hval]; rfl)]
    have h : Answers (fromJsNumber value forceFree) s
        (.ok (.int (Int32.ofInt (Double.finite i.toInt).trunc))) :=
      answers_fromJsNumber (by rw [hval]; rfl)
    rwa [trunc_int] at h
  | float64 d =>
    rw [fromJs_number (by rw [hval]; rfl)]
    exact answers_fromJsNumber (by rw [hval]; rfl)
  | _ =>
    rw [← hval]
    exact hrest (by rw [hval]; rfl)

/-! ## Arrays -/

/-- `JS_IsArray` is not false. -/
def Heap.ArrayLike (h : Heap) (v : JSVal) : Prop := h.isArray v ≠ .value false

instance (h : Heap) (v : JSVal) : Decidable (h.ArrayLike v) :=
  inferInstanceAs (Decidable (h.isArray v ≠ .value false))

/-- `len` of the array branch. -/
def Heap.arrayLength (h : Heap) (v : JSVal) : Nat :=
  (((h.number (h.property v (ascii "length"))).get?.map fun d =>
    (Int32.ofInt d.trunc).toUInt32).getD 0).toNat

/-- The array branch: events before its loop over the array's length, and events
after it. -/
theorem wp_fromJs_array_log {h : Heap} {v : JSVal} {n : Nat} {r : RefId} (hs : s.heap = h)
    (hv : h.ArrayLike v) {Q : JSArg → Rt → Prop} {X : Stop → Rt → Prop}
    (hloop : ∀ t : Rt, t.heap = h → (∃ pre, t.trace = s.trace ++ pre) →
      wp (fromJsElems (fromJs n) ⟨v, r⟩ 0 (h.arrayLength v)) t
        (fun vec u => ∀ post, Q (.array vec) (u.log post)) X) :
    wp (fromJs (n + 1) ⟨v, r⟩ forceFree) s Q X := by
  subst hs
  have hreach : (JSValue.mk v r).val.reachesIsArray = true := by
    cases v with
    | string u => exact absurd rfl hv
    | bool b => exact absurd rfl hv
    | int i => exact absurd rfl hv
    | float64 d => exact absurd rfl hv
    | _ => rfl
  rw [wp_fromJs_isArray hreach, if_neg hv]
  simp only [fromJsArray, wp_bind, wp_jsGetPropertyStr, wp_jsToUint32, wp_jsFreeValue, wp_pure,
    wp_freeIf, Rt.owned_heap, Rt.raise_heap]
  refine wp_mono (hloop _ (by simp) ?_) (fun vec u hu => hu _) (fun _ _ h => h)
  simp only [Rt.log_trace, Rt.raise_trace, Rt.owned_trace, List.append_assoc]
  exact ⟨_, rfl⟩

/-- The array branch, where the trace does not matter. -/
theorem wp_fromJs_array {h : Heap} {v : JSVal} {n : Nat} {r : RefId} (hs : s.heap = h)
    (hv : h.ArrayLike v) {Q : JSArg → Prop} {X : Stop → Prop}
    (hloop : ∀ t : Rt, t.heap = h → wp (fromJsElems (fromJs n) ⟨v, r⟩ 0 (h.arrayLength v)) t
      (fun vec _ => Q (.array vec)) (fun e _ => X e)) :
    wp (fromJs (n + 1) ⟨v, r⟩ forceFree) s (fun a _ => Q a) (fun e _ => X e) := by
  refine wp_fromJs_array_log hs hv fun t ht _ => ?_
  exact wp_mono (hloop t ht) (fun _ _ h _ => h) (fun _ _ h => h)

end Ejr
