import Ejr.Answers
import Ejr.Footprint
import Ejr.Engine.Context

/-!
# Which bytes a typed array conversion reads

The typed array branch of `from_js` takes the element count from the view and
the element type from `constructor.name`, which script code controls. Nothing
ties the two together: the bytes read lie inside the view exactly when the
named type is not wider than the view's own (`inBounds_iff`), or nothing is
read at all.
-/

namespace Ejr

open Lib

/-- A typed array reaches the last branch. -/
theorem wp_fromJs_typedArray {value : JSValue} {a : Addr} (hval : value.val = .object a) {s : Rt}
    {view : View} (hcls : (s.heap.obj a).cls = .typedArray view) {n : Nat} {forceFree : Bool}
    {Q : JSArg → Rt → Prop} {X : Stop → Rt → Prop} :
    wp (fromJs (n + 1) value forceFree) s Q X ↔
      if view.detached = true then
        wp (fromJsText value forceFree "[unsupported]")
          { s with pending := .nativeError .detachedArrayBuffer } Q X
      else
        wp (fromJsView value forceFree ⟨.object view.buffer, s.fresh⟩ view)
          (s.owned (.object view.buffer)) Q X := by
  have harr : s.heap.isArray value.val = .value false := by
    rw [hval, Heap.isArray, Heap.resolveProxy]
    simp [hcls, Outcome.bind]
  have hreach : value.val.reachesIsArray = true := by rw [hval]; rfl
  rw [wp_fromJs_isArray hreach, if_pos harr, fromJsRest, wp_bind, wp_get]
  simp only [hval, Heap.isError, hcls]
  rw [fromJsOther, wp_bind, wp_jsGetTypedArrayBuffer, hval]
  simp only [Heap.view, hcls]
  cases view.detached <;> rfl

/-! ## Reads stay in the view -/

/-- The event is not a read, or a read inside the view. -/
def InView (view : View) : Event → Prop
  | .read b i n => b = view.buffer ∧ view.offset ≤ i ∧ i + n ≤ view.offset + view.length
  | _ => True

/-- However `from_js` of the typed array at `a` ends, it has read only bytes
inside the view. -/
def InBounds (h : Heap) (a : Addr) (view : View) : Prop :=
  ∀ (n : Nat) (r : RefId) (forceFree : Bool) (s : Rt), s.heap = h →
    wp (fromJs n ⟨.object a, r⟩ forceFree) s
      (fun _ t => ∃ es, t.trace = s.trace ++ es ∧ ∀ e ∈ es, InView view e)
      (fun _ t => ∃ es, t.trace = s.trace ++ es ∧ ∀ e ∈ es, InView view e)

/-- The element type that `constructor.name` names, if it is one of the nine,
is not wider than the view's own. -/
def NameFits (h : Heap) (a : Addr) (view : View) : Prop :=
  ∀ u e, h.constructorName (.object a) = .value u →
    elemOfName (cstr (toCStringLen u)) = some e → e.size ≤ view.cls.size

/-- Nothing outside the view can be read: it is empty, its buffer is detached,
now or by the time its data are asked for, or the named type fits. -/
def Harmless (h : Heap) (a : Addr) (view : View) : Prop :=
  view.length = 0 ∨ view.detached = true ∨
    (h.arrayBuffer (.object view.buffer)).get? = none ∨ NameFits h a view

/-- As many elements of one size as the view has of its own lie in it exactly
when they are not wider, or there are none. -/
theorem count_mul_size_le_iff (view : View) (size : Nat) :
    view.length / view.cls.size * size ≤ view.length ↔ view.length = 0 ∨ size ≤ view.cls.size := by
  obtain ⟨k, hk⟩ := view.whole
  have hpos := view.cls.size_pos
  rw [hk, Nat.mul_div_cancel_left k hpos, Nat.mul_comm k size]
  constructor
  · intro h
    rcases Nat.eq_zero_or_pos k with h0 | h0
    · exact .inl (by rw [h0, Nat.mul_zero])
    · exact .inr (Nat.le_of_mul_le_mul_right h h0)
  · intro h
    rcases h with h | h
    · rcases Nat.mul_eq_zero.mp h with h0 | h0
      · omega
      · rw [h0, Nat.mul_zero]
        exact Nat.zero_le _
    · exact Nat.mul_le_mul_right k h

theorem admits_inView (view : View) (lo : Nat) : Admits (fun _ => InView view) lo :=
  ⟨fun _ _ => trivial, fun _ _ _ _ => trivial, fun _ _ => trivial, fun _ _ => trivial,
    fun _ _ => trivial⟩

theorem inView_events (view : View) (v : JSValue) : ∀ e ∈ v.events .free, InView view e := by
  intro e he
  unfold JSValue.events at he
  split at he
  · obtain rfl := List.mem_singleton.mp he
    trivial
  · exact absurd he (by simp)

/-- A run whose new events are all in the view, seen from its start. -/
theorem Emits.events {P : Event → Prop} {s t : Rt} (h : Emits (fun _ => P) s t) :
    ∃ es, t.trace = s.trace ++ es ∧ ∀ e ∈ es, P e := by
  obtain ⟨es, hes, hP⟩ := h.trace
  exact ⟨es, hes, fun e he => hP e he _ (Nat.le_refl _)⟩

/-- As many elements as the view has, of a type that is not wider. -/
theorem inView_elements {view : View} {size : Nat} (h : view.length = 0 ∨ size ≤ view.cls.size) :
    InView view (.read view.buffer view.offset (view.length / view.cls.size * size)) :=
  ⟨rfl, Nat.le_refl _, Nat.add_le_add_left ((count_mul_size_le_iff view size).mpr h) _⟩

section

variable {view : View} {s t : Rt}

/-- A text reads nothing. -/
theorem inView_fromJsText (ht : Emits (fun _ => InView view) s t) (value : JSValue)
    (forceFree : Bool) (text : String) :
    wp (fromJsText value forceFree text) t
      (fun _ u => ∃ es, u.trace = s.trace ++ es ∧ ∀ e ∈ es, InView view e)
      (fun _ u => ∃ es, u.trace = s.trace ++ es ∧ ∀ e ∈ es, InView view e) := by
  have hfree : forceFree = true → ∀ e ∈ value.events .free, ∀ hi, 0 ≤ hi → InView view e :=
    fun _ e he _ _ => inView_events view value e he
  refine wp_mono (leaves_fromJsText hfree (Nat.zero_le 0) text t (Nat.zero_le _)) ?_ ?_
  · exact fun _ u hu => (ht.then hu.1).events
  · exact fun _ u hu => (ht.then hu).events

/-- The comparison of the names, when every name that is found fits. -/
theorem inView_convertView (ht : Emits (fun _ => InView view) s t) (value : JSValue)
    (forceFree : Bool) (c : CString)
    (hfit : ∀ e, elemOfName (cstr c.bytes) = some e → view.length = 0 ∨ e.size ≤ view.cls.size) :
    wp (convertView value forceFree view (some c, some view.buffer)) t
      (fun _ u => ∃ es, u.trace = s.trace ++ es ∧ ∀ e ∈ es, InView view e)
      (fun _ u => ∃ es, u.trace = s.trace ++ es ∧ ∀ e ∈ es, InView view e) := by
  have hlog : Emits (fun _ => InView view) s (t.log [.readC c.ref]) :=
    ht.then (emits_log (by simp [InView]))
  simp only [convertView, wp_bind, wp_stdString_some]
  cases he : elemOfName (cstr c.bytes) with
  | none => exact inView_fromJsText hlog value forceFree "[unsupported]"
  | some e =>
    have hread := inView_elements (hfit e he)
    have hnew : Emits (fun _ => InView view) s ((t.log [.readC c.ref]).log
        [.read view.buffer view.offset (view.length / view.cls.size * e.size)]) :=
      hlog.then (emits_log (by simpa using fun _ _ => hread))
    simp only [readElements, wp_bind, wp_pure, wp_readBytes]
    split
    · exact hnew.events
    · exact hnew.events

end

theorem inBounds_of_harmless {h : Heap} {a : Addr} {view : View}
    (hcls : (h.obj a).cls = .typedArray view) (hfit : Harmless h a view) : InBounds h a view := by
  intro n r forceFree s hs
  cases n with
  | zero => exact (emits_refl s).events
  | succ n =>
    subst hs
    rw [wp_fromJs_typedArray rfl hcls]
    split
    next =>
      -- only the pending exception has changed
      exact inView_fromJsText (t := { s with pending := .nativeError .detachedArrayBuffer })
        ⟨⟨Nat.le_refl _, [], by simp, by simp⟩, rfl⟩ _ _ _
    next hdet =>
      have howned : Emits (fun _ => InView view) s (s.owned (.object view.buffer)) :=
        emits_owned (admits_inView view 0) s _
      obtain ⟨c, t, hprobe, -⟩ := probeView_ok ⟨.object a, r⟩ forceFree
        ⟨.object view.buffer, s.fresh⟩ (s.owned (.object view.buffer))
      have ht : Emits (fun _ => InView view) s t := howned.then (wp_of_ok
        (leaves_probeView (admits_inView view 0) (fun _ e he _ _ => inView_events view _ e he)
          (Nat.zero_le _) (Nat.lt_succ_self s.fresh) _ (Nat.le_refl _)) hprobe).1
      rw [wp_fromJsView hprobe]
      simp only [Rt.owned_heap]
      cases hdata : s.heap.arrayBuffer (.object view.buffer) with
      | throws e => exact ht.events
      | exception => exact ht.events
      | value data =>
        have hb : data = view.buffer := by
          simp only [Heap.arrayBuffer] at hdata
          split at hdata <;> simp_all
        subst hb
        cases hname : s.heap.constructorName (.object a) with
        | throws e => exact ht.events
        | exception => exact ht.events
        | value u =>
          refine inView_convertView ht _ forceFree ⟨toCStringLen u, c⟩ fun e he => ?_
          rcases hfit with h0 | h1 | h2 | h3
          · exact .inl h0
          · exact absurd h1 hdet
          · exact absurd (hdata ▸ h2) (by simp [Outcome.get?])
          · exact .inr (h3 u e hname he)

/-- A name that does not fit is read past the end of the view. -/
theorem harmless_of_inBounds {h : Heap} {a : Addr} {view : View}
    (hcls : (h.obj a).cls = .typedArray view) (hin : InBounds h a view) : Harmless h a view := by
  by_cases h0 : view.length = 0
  · exact .inl h0
  by_cases hdet : view.detached = true
  · exact .inr (.inl hdet)
  cases hdata : h.arrayBuffer (.object view.buffer) with
  | throws e => exact .inr (.inr (.inl (by rw [hdata]; rfl)))
  | exception => exact .inr (.inr (.inl (by rw [hdata]; rfl)))
  | value data =>
    refine .inr (.inr (.inr ?_))
    intro u e hname he
    have hrun := hin 1 0 false ⟨h, .uninitialized, [], 0⟩ rfl
    obtain ⟨c, t, hprobe, -⟩ := probeView_ok ⟨.object a, 0⟩ false ⟨.object view.buffer, 0⟩
      (Rt.owned ⟨h, .uninitialized, [], 0⟩ (.object view.buffer))
    rw [wp_fromJs_typedArray (a := a) rfl hcls, if_neg hdet, wp_fromJsView hprobe] at hrun
    simp only [Rt.owned_heap, hdata, hname, Outcome.get?, Option.map_some, convertView, wp_bind,
      wp_stdString_some, he, readElements, wp_pure, wp_readBytes] at hrun
    -- the last event is the read
    have hbound : view.offset + view.length / view.cls.size * e.size ≤
        view.offset + view.length := by
      have hlast : ∀ es : List Event, t.trace ++ [.readC c, .read data view.offset
          (view.length / view.cls.size * e.size)] = es → (∀ e ∈ es, InView view e) →
          view.offset + view.length / view.cls.size * e.size ≤ view.offset + view.length := by
        intro es hes hall
        have hmem : Event.read data view.offset (view.length / view.cls.size * e.size) ∈ es := by
          rw [← hes]
          simp
        exact (hall _ hmem).2.2
      split at hrun
      · obtain ⟨es, hes, hall⟩ := hrun
        exact hlast es (by simpa using hes) hall
      · obtain ⟨es, hes, hall⟩ := hrun
        exact hlast es (by simpa using hes) hall
    rcases (count_mul_size_le_iff view e.size).mp (Nat.le_of_add_le_add_left hbound) with h1 | h1
    · exact absurd h1 h0
    · exact h1

/-- **Reads stay in bounds** exactly when the named element type is not wider
than the view's own, unless there is nothing to read: the view is empty, or its
buffer is detached. -/
theorem inBounds_iff {h : Heap} {a : Addr} {view : View}
    (hcls : (h.obj a).cls = .typedArray view) : InBounds h a view ↔ Harmless h a view :=
  ⟨harmless_of_inBounds hcls, inBounds_of_harmless hcls⟩

/-- A view of all of two elements. -/
def twoElements (cls : TypedClass) : View :=
  ⟨cls, 13, 0, 2 * cls.size, false, Dvd.intro_left 2 rfl⟩

/-- A context with one typed array, whose `constructor` script code has set to
an object called `name`. -/
def Heap.withTypedArray (cls : TypedClass) (name : Bytes) : Heap :=
  ((Heap.initial.set 12 (Obj.setNamed ⟨.typedArray (twoElements cls), fun _ => .value .undefined,
      fun _ => .value .undefined⟩ (newString (ascii "constructor")) (.object 14))).set 13
    { Obj.plain with cls := .arrayBuffer (some (List.replicate (2 * cls.size) 0)) }).set 14
      (Obj.plain.setNamed (newString (ascii "name")) (.string (newString name)))

/-- A `Float64Array` that says it is an `Int32Array` is read inside its bounds. -/
theorem inBounds_iff_narrower :
    InBounds (.withTypedArray .float64 (ascii "Int32Array")) 12 (twoElements .float64) := by
  refine (inBounds_iff rfl).mpr (.inr (.inr (.inr ?_)))
  intro u e _ _
  cases e <;> decide

/-- A `Uint8Array` that says it is a `BigInt64Array` is read past its end. -/
theorem inBounds_fails : ¬∀ (h : Heap) (a : Addr) (view : View),
    (h.obj a).cls = .typedArray view → InBounds h a view := by
  intro hall
  have hin := hall (.withTypedArray .uint8 (ascii "BigInt64Array")) 12 (twoElements .uint8) rfl
  rcases harmless_of_inBounds rfl hin with h0 | h1 | h2 | h3
  · exact absurd h0 (by decide)
  · exact absurd h1 (by decide)
  · exact absurd h2 (by decide)
  · exact absurd (h3 (newString (ascii "BigInt64Array")) .int64 rfl (by decide +kernel)) (by decide)

end Ejr
