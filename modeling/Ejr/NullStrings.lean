import Ejr.Reached
import Ejr.CApi.Handle

/-!
# NULL C strings

`JS_ToCString` returns NULL when a conversion throws. Of the places that use
what it returns, `from_js` guards the message of an Error and the text of the
pending exception; the name of an Error, the name of a typed array's constructor
and the text in `val_to_string` are used as they come. So NULL is kept out
exactly when these three have a text wherever they are looked at
(`nullSafe_iff`).
-/

namespace Ejr

open Lib EasyJSR

/-! ## `from_js` -/

/-- The conversion of a value that is no array uses NULL: `exec(message_str,
name_cstr)` for an Error whose name has no text, `strcmp(name_cstr, …)` for a
typed array, with its buffer there, whose constructor's name has none. -/
def Heap.usesNull (h : Heap) (v : JSVal) : Bool :=
  if h.isError v then (h.errorText (h.property v (ascii "name"))).isNone
  else
    match (h.view v).get? with
    | none => false
    | some view =>
      (h.arrayBuffer (.object view.buffer)).get?.isSome && (h.constructorName v).get?.isNone

theorem fromLeaf_null (h : Heap) (pending v : JSVal) :
    h.fromLeaf pending v = .error .nullString ↔ h.usesNull v = true := by
  have hlast : h.fromRest v = .error .nullString ↔ h.usesNull v = true := by
    unfold Heap.usesNull Heap.fromRest
    cases h.isError v with
    | true =>
      simp only [if_true, Heap.fromError]
      cases h.errorText (h.property v (ascii "name")) <;> simp
    | false =>
      simp only [Bool.false_eq_true, if_false]
      cases (h.view v).get? with
      | none => simp
      | some view =>
        simp only [Heap.fromView]
        cases (h.arrayBuffer (.object view.buffer)).get? with
        | none => simp
        | some b =>
          cases (h.constructorName v).get? with
          | none => simp
          | some u =>
            simp only
            cases elemOfName (cstr (toCStringLen u)) with
            | none => simp
            | some e =>
              -- read or not, no text is missing
              simp only [Heap.elements]
              split <;> simp
  have hfixed : ∀ {a : JSArg}, h.isError v = false →
      h.view v = .throws (.nativeError .notATypedArray) →
      ((.ok a : Except Stop JSArg) = .error .nullString ↔ h.usesNull v = true) := by
    intro a herr hview
    simp [Heap.usesNull, herr, hview]
  cases v with
  | uninitialized => exact hlast
  | shortBigInt n => exact hlast
  | bigInt n => exact hlast
  | symbol a => exact hlast
  | object a => exact hlast
  | nativeError e => exact hlast
  | _ => exact hfixed rfl rfl

theorem fromJs_leaf_null {h : Heap} {v : JSVal} (hv : ¬h.ArrayLike v) (n : Nat) (r : RefId)
    (forceFree : Bool) {s : Rt} (hs : s.heap = h) :
    wp (fromJs (n + 1) ⟨v, r⟩ forceFree) s (fun _ _ => h.usesNull v = false)
      (fun e _ => e = .nullString ↔ h.usesNull v = true) := by
  subst hs
  have hrun : Answers (fromJs (n + 1) ⟨v, r⟩ forceFree) s (s.heap.fromLeaf s.pending v) :=
    answers_fromJs n (not_not.mp hv)
  refine wp_mono hrun ?_ ?_
  · intro a t ha
    rw [← Bool.not_eq_true, ← fromLeaf_null _ s.pending, ha.1]
    simp
  · intro e t he
    rw [← fromLeaf_null _ s.pending, he]
    simp

/-- `from_js` never makes a `std::string` of NULL, or compares it. -/
def FromJsSafe (h : Heap) (v : JSVal) : Prop :=
  ∀ (n : Nat) (r : RefId) (forceFree : Bool) (s : Rt), s.heap = h →
    wp (fromJs n ⟨v, r⟩ forceFree) s (fun _ _ => True) (fun e _ => e ≠ .nullString)

theorem fromJsSafe_iff (h : Heap) (v : JSVal) :
    FromJsSafe h v ↔ ¬Meets h (h.usesNull · = true) v := by
  constructor
  · intro hsafe hm
    have hbad : ∀ v, ¬h.ArrayLike v → h.usesNull v = true → ∀ (n : Nat) (r : RefId)
        (forceFree : Bool) (s : Rt), s.heap = h → wp (fromJs (n + 1) ⟨v, r⟩ forceFree) s
          (fun _ t => Grown (fun _ => False) s t)
          (fun e t => Grown (fun _ => False) s t ∨ e = .nullString) := by
      intro v hv hnull n r forceFree s hs
      refine wp_mono (fromJs_leaf_null hv n r forceFree hs) ?_ ?_
      · exact fun a t ha => absurd (hnull.symm.trans ha) (by simp)
      · exact fun e t he => .inr (he.mpr hnull)
    -- no trace is promised, so only the NULL is left
    obtain ⟨N, hN⟩ := meets_run (X := (· = .nullString)) (fun _ _ _ h => h) hbad hm
    have hrun := wp_and (hN N (Nat.le_refl N) 0 true ⟨h, .uninitialized, [], 0⟩ rfl)
      (hsafe N 0 true ⟨h, .uninitialized, [], 0⟩ rfl)
    unfold wp at hrun
    split at hrun
    next =>
      obtain ⟨⟨es, -, hq⟩, -⟩ := hrun
      exact hq
    next =>
      rcases hrun.1 with ⟨es, -, hq⟩ | he
      · exact hq
      · exact hrun.2 he
  · intro hm n r forceFree s hs
    have hstop := @meets_of_stop h (h.usesNull · = true) (· = .nullString)
      (by simp) (fun v hv n r forceFree s hs => wp_mono (fromJs_leaf_null hv n r forceFree hs)
        (fun _ _ _ => trivial) (fun e t he => he.mp)) n v r forceFree s hs
    exact wp_mono hstop (fun _ _ h => h) fun e t he hnull => hm (he hnull)

/-! ## `val_to_string` -/

/-- What `clean_js_value` makes of a value. -/
def Rt.cleaned (s : Rt) : JSVal → JSVal
  | .exception => s.pending
  | v => v

theorem cleanJsValue_ok (v : JSVal) (r : RefId) (s : Rt) : ∃ r' b t,
    cleanJsValue ⟨v, r⟩ s = .ok (⟨s.cleaned v, r'⟩, b) t ∧ t.heap = s.heap := by
  cases v with
  | exception => exact ⟨s.fresh, true, _, rfl, rfl⟩
  | _ => exact ⟨r, false, s, rfl, rfl⟩

/-- The C string of a value: its text, if it has one. -/
theorem cStringOf_ok (w : JSValue) (s : Rt) : ∃ c t, cStringOf w s =
    .ok ((s.heap.text w.val).get?.map fun u => ⟨toCStringLen u, c⟩) t ∧ t.heap = s.heap := by
  have hrun : wp (cStringOf w) s (fun r t =>
      (∃ c, r = (s.heap.text w.val).get?.map fun u => ⟨toCStringLen u, c⟩) ∧ t.heap = s.heap)
      (fun _ _ => False) := by
    unfold cStringOf
    split
    next u hu => simp [hu]
    next =>
      rw [wp_bind, wp_jsToString, wp_bind, wp_jsToCString, wp_bind, wp_freeJsval]
      cases ht : s.heap.text w.val with
      | value u => exact ⟨⟨_, rfl⟩, by simp⟩
      | throws e => exact ⟨⟨0, rfl⟩, by simp⟩
      | exception => exact ⟨⟨0, rfl⟩, by simp⟩
  obtain ⟨r, t, hr, ⟨c, rfl⟩, ht⟩ := exists_ok_of_wp hrun
  exact ⟨c, t, hr, ht⟩

/-- `free_jsval` only adds to the trace. -/
theorem freeJsvalIf_ok (b : Bool) (v : JSValue) (s : Rt) :
    ∃ t, freeJsvalIf b v s = .ok () t ∧ t.heap = s.heap := by
  cases b with
  | true =>
    have hrun : wp (freeJsvalIf true v) s (fun _ t => t.heap = s.heap) (fun _ _ => False) :=
      wp_freeJsval.mpr rfl
    obtain ⟨_, t, hok, ht⟩ := exists_ok_of_wp hrun
    exact ⟨t, hok, ht⟩
  | false => exact ⟨s, rfl, rfl⟩

/-- **`val_to_string`** returns the text of the cleaned value, or uses NULL. -/
theorem wp_valToString (v : JSVal) (r : RefId) (free : Bool) (s : Rt) :
    wp (valToString ⟨v, r⟩ free) s
      (fun b _ => ∃ u, s.heap.text (s.cleaned v) = .value u ∧ b = cstr (toCStringLen u))
      (fun e _ => e = .nullString ∧ (s.heap.text (s.cleaned v)).get? = none) := by
  obtain ⟨r1, b, s1, hclean, h1⟩ := cleanJsValue_ok v r s
  obtain ⟨c, s2, hcstr, h2⟩ := cStringOf_ok ⟨s.cleaned v, r1⟩ s1
  obtain ⟨s3, hfree3, -⟩ := freeJsvalIf_ok b ⟨s.cleaned v, r1⟩ s2
  obtain ⟨s4, hfree4, -⟩ := freeJsvalIf_ok free ⟨v, r⟩ s3
  rw [valToString, wp_bind, wp_iff_of_ok hclean]
  dsimp only
  rw [wp_bind, wp_iff_of_ok hcstr, wp_bind, wp_iff_of_ok hfree3, wp_bind, wp_iff_of_ok hfree4, h1]
  cases ht : s.heap.text (s.cleaned v) with
  | value u => exact ⟨u, rfl, rfl⟩
  | throws e => exact ⟨rfl, rfl⟩
  | exception => exact ⟨rfl, rfl⟩

/-! ## Both -/

/-- Neither `val_to_string` nor `from_js` of the value uses NULL, and `from_js`
of an Error is an exception with its message and name, or `"Exception"` for a
part that is missing or has no text. -/
structure NullSafe (s : Rt) (v : JSVal) : Prop where
  valToString : ∀ (r : RefId) (free : Bool),
    wp (EasyJSR.valToString ⟨v, r⟩ free) s (fun _ _ => True) (fun e _ => e ≠ .nullString)
  fromJs : FromJsSafe s.heap v
  error : s.heap.isError v = true → ∀ (n : Nat) (r : RefId) (forceFree : Bool),
    wp (Ejr.fromJs (n + 1) ⟨v, r⟩ forceFree) s
      (fun a _ => a = .exception
        (textOrException (s.heap.errorText (s.heap.property v (ascii "message"))))
        (textOrException (s.heap.errorText (s.heap.property v (ascii "name")))))
      (fun _ _ => False)

theorem valToString_safe_iff (s : Rt) (v : JSVal) (r : RefId) (free : Bool) :
    wp (EasyJSR.valToString ⟨v, r⟩ free) s (fun _ _ => True) (fun e _ => e ≠ .nullString) ↔
      (s.heap.text (s.cleaned v)).get?.isSome := by
  have hrun := wp_valToString v r free s
  constructor
  · intro hsafe
    have hboth := wp_and hrun hsafe
    unfold wp at hboth
    split at hboth
    next =>
      obtain ⟨⟨u, hu, -⟩, -⟩ := hboth
      rw [hu]
      rfl
    next => exact absurd hboth.1.1 hboth.2
  · intro hsome
    refine wp_mono hrun (fun _ _ _ => trivial) ?_
    intro e t he
    rw [he.2] at hsome
    exact nomatch hsome

/-- An Error is no array. -/
theorem not_arrayLike_of_isError {h : Heap} {v : JSVal} (herr : h.isError v = true) :
    ¬h.ArrayLike v := by
  rw [Heap.ArrayLike, not_not]
  cases v with
  | object a =>
    have hcls : (h.obj a).cls = .error := by
      simp only [Heap.isError] at herr
      split at herr
      next hcls => exact hcls
      next => exact absurd herr Bool.false_ne_true
    simp [Heap.isArray, Heap.resolveProxy, hcls, Outcome.bind]
  | nativeError e => rfl
  | _ => exact absurd herr Bool.false_ne_true

/-- An Error with a name. -/
theorem fromJs_error {s : Rt} {v : JSVal} (herr : s.heap.isError v = true)
    (hnull : s.heap.usesNull v = false) (n : Nat) (r : RefId) (forceFree : Bool) :
    wp (fromJs (n + 1) ⟨v, r⟩ forceFree) s
      (fun a _ => a = .exception
        (textOrException (s.heap.errorText (s.heap.property v (ascii "message"))))
        (textOrException (s.heap.errorText (s.heap.property v (ascii "name")))))
      (fun _ _ => False) := by
  have hname : ∃ name, s.heap.errorText (s.heap.property v (ascii "name")) = some name := by
    rw [Heap.usesNull, if_pos herr] at hnull
    exact Option.isSome_iff_exists.mp (by simpa using hnull)
  obtain ⟨name, hname⟩ := hname
  have hleaf : s.heap.fromLeaf s.pending v = .ok (.exception
      (textOrException (s.heap.errorText (s.heap.property v (ascii "message"))))
      (cstr (toCStringLen name))) := by
    have hrest : s.heap.fromLeaf s.pending v = s.heap.fromRest v := by
      cases v with
      | object a => rfl
      | nativeError e => rfl
      | _ => exact absurd herr Bool.false_ne_true
    rw [hrest, Heap.fromRest, if_pos herr, Heap.fromError, hname]
  have hrun : Answers (fromJs (n + 1) ⟨v, r⟩ forceFree) s (s.heap.fromLeaf s.pending v) :=
    answers_fromJs n (not_not.mp (not_arrayLike_of_isError herr))
  refine wp_mono hrun ?_ ?_
  · intro a t ha
    rw [hleaf] at ha
    rw [hname]
    exact (Except.ok.inj ha.1).symm
  · intro e t he
    rw [hleaf] at he
    exact absurd he (by simp)

/-- A context with an Error at 12 whose name is `undefined`. -/
def Heap.withNamelessError : Heap := Heap.initial.set 12 { Obj.plain with cls := .error }

end Ejr
