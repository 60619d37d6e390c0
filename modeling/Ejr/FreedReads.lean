import Ejr.Custody
import Ejr.TypedReads

/-!
# Reads of freed memory

With `force_free`, `from_js` releases a typed array before it reads the bytes. If
the reference it was given is the last one, the bytes are gone by then.

`readsFreed r` looks for this in a trace: bytes are read after the reference `r`
has been released. `freedReads_fromJs` says when it is there: with `force_free`,
exactly when the answer is a typed array with elements; no other branch reads bytes
after the release. Whether other references are left is for the caller to say:
`lastHeld r` is a program whose caller holds the last one, and stops at such a read
(`wp_lastHeld_fromJs`).
-/

namespace Ejr

open Lib

/-! ## In a trace -/

/-- The event reads bytes of a buffer. -/
def Event.readsBytes : Event → Bool
  | .read _ _ len => 0 < len
  | _ => false

/-- Bytes are read after `r` has been released. -/
def readsFreed (r : RefId) : List Event → Bool
  | [] => false
  | e :: es => e == .free r && es.any Event.readsBytes || readsFreed r es

theorem readsFreed_append (r : RefId) (fs : List Event) : ∀ es : List Event,
    readsFreed r (es ++ fs) =
      (readsFreed r es || es.contains (.free r) && fs.any Event.readsBytes || readsFreed r fs)
  | [] => by simp [readsFreed]
  | e :: es => by
    rw [List.cons_append, readsFreed, readsFreed_append r fs es, readsFreed, List.any_append,
      List.contains_cons]
    rw [show (Event.free r == e) = (e == .free r) from BEq.comm]
    cases e == .free r <;> cases fs.any Event.readsBytes <;> simp [Bool.or_assoc]

theorem readsFreed_of_no_reads {r : RefId} : ∀ {es : List Event},
    (∀ e ∈ es, e.readsBytes = false) → readsFreed r es = false
  | [], _ => rfl
  | e :: es, h => by
    obtain ⟨-, hes⟩ := List.forall_mem_cons.mp h
    have hany : es.any Event.readsBytes = false :=
      List.any_eq_false.mpr fun e he => by simp [hes e he]
    rw [readsFreed, hany, Bool.and_false, Bool.false_or, readsFreed_of_no_reads hes]

theorem readsFreed_of_not_mem {r : RefId} : ∀ {es : List Event}, .free r ∉ es →
    readsFreed r es = false
  | [], _ => rfl
  | e :: es, h => by
    obtain ⟨he, hes⟩ := List.ne_and_not_mem_of_not_mem_cons h
    rw [readsFreed, beq_eq_false_iff_ne.mpr (Ne.symm he), Bool.false_and, Bool.false_or,
      readsFreed_of_not_mem hes]

/-! ## In `from_js` -/

/-- A typed array with elements. -/
def JSArg.hasBytes : JSArg → Bool
  | .typedArray a => !a.values.isEmpty
  | _ => false

/-- From `s` on bytes have been read after the release of `value` exactly when it was
to be released and the answer is a typed array with elements. -/
def FreedReads (value : JSValue) (forceFree : Bool) (s : Rt) (a : JSArg) (t : Rt) : Prop :=
  ∃ es, t.trace = s.trace ++ es ∧ readsFreed value.ref es = (forceFree && a.hasBytes)

/-- The event reads no bytes. -/
def Quiet (_ : Nat) (e : Event) : Prop := e.readsBytes = false

theorem admits_quiet (lo : Nat) : Admits Quiet lo :=
  ⟨fun _ _ => rfl, fun _ _ _ _ => rfl, fun _ _ => rfl, fun _ _ => rfl, fun _ _ => rfl⟩

theorem quiet_events (v : JSValue) : ∀ e ∈ v.events .free, e.readsBytes = false := by
  intro e he
  unfold JSValue.events at he
  split at he
  · obtain rfl := List.mem_singleton.mp he
    rfl
  · exact absurd he List.not_mem_nil

/-- The release of the value, if there is one. -/
theorem quiet_release (v : JSValue) (forceFree : Bool) :
    ∀ e ∈ (if forceFree then v.events .free else []), e.readsBytes = false := by
  intro e he
  split at he
  · exact quiet_events v e he
  · exact absurd he List.not_mem_nil

/-- The event does not release `r`. -/
def Spares (r : RefId) (_ : Nat) (e : Event) : Prop := e ≠ .free r

/-- What is released has been named later. -/
theorem admits_spares {r : RefId} {lo : Nat} (h : r < lo) : Admits (Spares r) lo where
  acquire _ _ := nofun
  free _ r' hlo _ := by
    rintro ⟨⟩
    exact Nat.lt_irrefl _ (Nat.lt_of_lt_of_le h hlo)
  acquireC _ _ := nofun
  freeC _ _ := nofun
  readC _ _ := nofun

section

variable {n : Nat} {value : JSValue} {forceFree : Bool} {s : Rt} {p : EngineM JSArg}

/-- A branch that reads no bytes, and answers with none. -/
theorem freedReads_answers {r : Except Stop JSArg} (hp : Leaves Quiet 0 (fun _ => True) p)
    (ha : Answers p s r) (hr : ∀ a, r = .ok a → a.hasBytes = false) :
    wp p s (FreedReads value forceFree s) fun _ _ => True := by
  refine wp_mono (wp_and (hp s (Nat.zero_le _)) ha) ?_ (fun _ _ _ => trivial)
  intro a t ht
  obtain ⟨⟨hemits, -⟩, hok, -⟩ := ht
  obtain ⟨es, hes, hquiet⟩ := hemits.trace
  refine ⟨es, hes, ?_⟩
  rw [hr a hok, Bool.and_false]
  exact readsFreed_of_no_reads fun e he => hquiet e he _ (Nat.le_refl _)

theorem quiet_free : forceFree = true → ∀ e ∈ value.events .free, ∀ hi, 0 ≤ hi → Quiet hi e :=
  fun _ e he _ _ => quiet_events value e he

/-- A text, after events that read no bytes. -/
theorem freedReads_textAfter (text : String) {pre : List Event} {u : Rt}
    (hu : u.trace = s.trace ++ pre) (hquiet : ∀ e ∈ pre, e.readsBytes = false) :
    wp (fromJsText value forceFree text) u (FreedReads value forceFree s) fun _ _ => True := by
  rw [fromJsText, wp_bind, wp_freeIf, wp_pure]
  refine ⟨pre ++ (if forceFree then value.events .free else []), ?_, ?_⟩
  · rw [Rt.log_trace, hu, List.append_assoc]
  · rw [readsFreed_of_no_reads]
    · cases forceFree <;> rfl
    · intro e he
      rcases List.mem_append.mp he with he | he
      · exact hquiet e he
      · exact quiet_release value forceFree e he

theorem freedReads_text (text : String) {u : Rt} (hu : u.trace = s.trace) :
    wp (fromJsText value forceFree text) u (FreedReads value forceFree s) fun _ _ => True :=
  freedReads_textAfter text (hu.trans (List.append_nil _).symm)
    fun _ h => absurd h List.not_mem_nil

/-! ### Typed arrays -/

/-- The value is released last of all. -/
theorem wp_probeView_release {buffer : JSValue} {Q : Option CString × Option Addr → Rt → Prop}
    {X : Stop → Rt → Prop} :
    wp (probeView value forceFree buffer) s Q X ↔
      wp (probeView value false buffer) s
        (fun probed t => Q probed (t.log (if forceFree then value.events .free else []))) X := by
  simp [probeView, Rt.log]

/-- Before the data are looked at the value has been released. -/
theorem probeView_releases {buffer : JSValue} (hcount : value.val.hasRefCount = true)
    (hvalue : value.ref < buffer.ref) (hbuffer : buffer.ref < s.fresh) :
    wp (probeView value forceFree buffer) s (fun _ t => ∃ es, t.trace = s.trace ++ es ∧
      (∀ e ∈ es, e.readsBytes = false) ∧ es.contains (.free value.ref) = forceFree)
      (fun _ _ => True) := by
  have hquiet : Leaves Quiet s.fresh (fun _ => True) (probeView value false buffer) :=
    leaves_probeView (admits_quiet 0) (fun h => absurd h (by simp)) (Nat.zero_le _) hbuffer
  have hspares : Leaves (Spares value.ref) s.fresh (fun _ => True) (probeView value false buffer) :=
    leaves_probeView (admits_spares hvalue) (fun h => absurd h (by simp)) (Nat.le_refl _) hbuffer
  rw [wp_probeView_release]
  refine wp_mono (wp_and (hquiet s (Nat.le_refl _)) (hspares s (Nat.le_refl _))) ?_
    (fun _ _ _ => trivial)
  intro probed t ht
  obtain ⟨es, hes, hquiet⟩ := ht.1.1.trace
  obtain ⟨fs, hfs, hspares⟩ := ht.2.1.trace
  obtain rfl : es = fs := List.append_cancel_left (hes.symm.trans hfs)
  refine ⟨es ++ (if forceFree then value.events .free else []), ?_, ?_, ?_⟩
  · rw [Rt.log_trace, hes, List.append_assoc]
  · intro e he
    rcases List.mem_append.mp he with he | he
    · exact hquiet e he _ (Nat.le_refl _)
    · exact quiet_release value forceFree e he
  · have hnot : .free value.ref ∉ es := fun hmem => hspares _ hmem _ (Nat.le_refl _) rfl
    rw [List.contains_eq_mem, JSValue.events, if_pos hcount]
    cases forceFree <;> simp [hnot]

/-- The bytes that are read are those of the elements. -/
theorem freedReads_elements {b : Addr} {offset count : Nat} {e : Elem} {pre : List Event} {u : Rt}
    (hu : u.trace = s.trace ++ pre) (hquiet : ∀ e ∈ pre, e.readsBytes = false)
    (hfree : pre.contains (.free value.ref) = forceFree) :
    wp (do let a ← readElements b offset count e; pure (.typedArray a)) u
      (FreedReads value forceFree s) fun _ _ => True := by
  simp only [readElements, wp_bind, wp_pure, wp_readBytes]
  split
  next =>
    refine ⟨pre ++ [.read b offset (count * e.size)], ?_, ?_⟩
    · rw [Rt.log_trace, hu, List.append_assoc]
    · have hsize : 0 < e.size := e.size_pos
      rw [readsFreed_append, readsFreed_of_no_reads hquiet, hfree]
      cases count with
      | zero => simp [readsFreed, Event.readsBytes, JSArg.hasBytes, pieces]
      | succ count => simp [readsFreed, Event.readsBytes, JSArg.hasBytes, pieces, hsize]
  next => trivial

theorem freedReads_view {view : View} (hcount : value.val.hasRefCount = true)
    (hvalue : value.ref < s.fresh) :
    wp (fromJsView value forceFree ⟨.object view.buffer, s.fresh⟩ view)
      (s.owned (.object view.buffer)) (FreedReads value forceFree s) fun _ _ => True := by
  rw [fromJsView, wp_bind]
  refine wp_mono (probeView_releases hcount hvalue (Nat.lt_succ_self _)) ?_ (fun _ _ h => h)
  intro probed t ht
  obtain ⟨es, hes, hquiet, hfree⟩ := ht
  replace hes : t.trace = s.trace ++ (.acquire s.fresh :: es) := by
    rw [hes]
    simp [JSValue.events, JSVal.hasRefCount]
  replace hquiet : ∀ e ∈ Event.acquire s.fresh :: es, e.readsBytes = false :=
    List.forall_mem_cons.mpr ⟨rfl, hquiet⟩
  replace hfree : (Event.acquire s.fresh :: es).contains (.free value.ref) = forceFree := by
    rw [List.contains_cons, hfree]
    rfl
  generalize Event.acquire s.fresh :: es = pre at hes hquiet hfree
  obtain ⟨nameCstr, bufferData⟩ := probed
  cases bufferData with
  | none =>
    refine ⟨pre, hes, ?_⟩
    rw [readsFreed_of_no_reads hquiet]
    cases forceFree <;> rfl
  | some b =>
    cases nameCstr with
    | none => exact trivial
    | some c =>
      simp only [convertView, wp_bind, wp_stdString_some]
      have hname : (t.log [.readC c.ref]).trace = s.trace ++ (pre ++ [.readC c.ref]) := by
        rw [Rt.log_trace, hes, List.append_assoc]
      have hquiet' : ∀ e ∈ pre ++ [.readC c.ref], e.readsBytes = false := by
        intro e he
        rcases List.mem_append.mp he with he | he
        · exact hquiet e he
        · obtain rfl := List.mem_singleton.mp he
          rfl
      cases elemOfName (cstr c.bytes) with
      | none => exact freedReads_textAfter "[unsupported]" hname hquiet'
      | some e =>
        refine freedReads_elements hname hquiet' ?_
        rw [← hfree]
        simp

/-! ### The other branches -/

theorem freedReads_other (hvalue : value.val.hasRefCount = true → value.ref < s.fresh) :
    wp (fromJsOther value forceFree) s (FreedReads value forceFree s) fun _ _ => True := by
  rw [fromJsOther, wp_bind, wp_jsGetTypedArrayBuffer]
  cases hview : s.heap.view value.val with
  | throws e => exact freedReads_text "[unsupported]" (by simp)
  | exception => exact freedReads_text "[unsupported]" (by simp)
  | value view =>
    -- only an object has a view
    have hcount : value.val.hasRefCount = true := by
      unfold Heap.view at hview
      split at hview
      next x hval => rw [hval]; rfl
      next => exact absurd hview (by simp)
    exact freedReads_view hcount (hvalue hcount)

theorem freedReads_rest (hvalue : value.val.hasRefCount = true → value.ref < s.fresh) :
    wp (fromJsRest value forceFree) s (FreedReads value forceFree s) fun _ _ => True := by
  have hquiet := admits_quiet 0
  rw [fromJsRest, wp_bind, wp_get]
  split
  next => exact freedReads_text "null" rfl
  next => exact freedReads_text "undefined" rfl
  next =>
    exact freedReads_answers (leaves_fromJsException hquiet quiet_free) answers_fromJsException
      fun a ha => by rw [← Except.ok.inj ha]; rfl
  next =>
    split
    next =>
      refine freedReads_answers (leaves_fromJsError hquiet quiet_free) answers_fromJsError
        fun a ha => ?_
      unfold Heap.fromError at ha
      split at ha
      next => rw [← Except.ok.inj ha]; rfl
      next => exact absurd ha (by simp)
    next => exact freedReads_other hvalue

/-- The array is released last of all. -/
theorem wp_fromJsArray_release {rec : JSValue → Bool → EngineM JSArg} {Q : JSArg → Rt → Prop}
    {X : Stop → Rt → Prop} :
    wp (fromJsArray rec value forceFree) s Q X ↔
      wp (fromJsArray rec value false) s
        (fun a t => Q a (t.log (if forceFree then value.events .free else []))) X := by
  simp [fromJsArray, Rt.log]

/-- An array has been read when it is released: its elements are references of their own. -/
theorem freedReads_array (hvalue : value.ref < s.fresh) :
    wp (fromJsArray (fromJs n) value forceFree) s (FreedReads value forceFree s)
      fun _ _ => True := by
  have hrec : ∀ elem : JSValue, s.fresh ≤ elem.ref →
      Leaves (Spares value.ref) (elem.ref + 1) (fun _ => True) (fromJs n elem true) := by
    intro elem helem
    have hlt : value.ref < elem.ref := Nat.lt_of_lt_of_le hvalue helem
    refine leaves_fromJs (fun _ _ _ _ => nofun) n _ elem true
      (admits_spares (Nat.lt_succ_of_lt hlt)) ?_
    intro _ e he _ _
    unfold JSValue.events at he
    split at he
    · obtain rfl := List.mem_singleton.mp he
      exact fun h => Nat.ne_of_gt hlt (Event.free.inj h)
    · exact absurd he List.not_mem_nil
  have hspares : Leaves (Spares value.ref) s.fresh (fun _ => True)
      (fromJsArray (fromJs n) value false) :=
    leaves_fromJsArray (admits_spares hvalue) (fun h => absurd h (by simp)) hrec
  have harray : wp (fromJsArray (fromJs n) value false) s (fun a _ => a.hasBytes = false)
      (fun _ _ => True) := by
    simp only [fromJsArray, wp_bind, wp_pure]
    refine wp_mono wp_true (fun _ _ _ => ?_) fun _ _ _ => trivial
    refine wp_mono wp_true (fun _ _ _ => ?_) fun _ _ _ => trivial
    refine wp_mono wp_true (fun _ _ _ => ?_) fun _ _ _ => trivial
    refine wp_mono wp_true (fun _ _ _ => ?_) fun _ _ _ => trivial
    exact wp_mono wp_true (fun _ _ _ => rfl) fun _ _ _ => trivial
  rw [wp_fromJsArray_release]
  refine wp_mono (wp_and (hspares s (Nat.le_refl _)) harray) ?_ (fun _ _ _ => trivial)
  intro a t ht
  obtain ⟨⟨hemits, -⟩, hbytes⟩ := ht
  obtain ⟨es, hes, hspares⟩ := hemits.trace
  refine ⟨es ++ (if forceFree then value.events .free else []), ?_, ?_⟩
  · rw [Rt.log_trace, hes, List.append_assoc]
  · have hnot : .free value.ref ∉ es := fun hmem => hspares _ hmem _ (Nat.le_refl _) rfl
    rw [readsFreed_append, readsFreed_of_not_mem hnot,
      readsFreed_of_no_reads (quiet_release value forceFree), hbytes, List.contains_eq_mem]
    simp [hnot]

/-- **What `from_js` reads after it has released its argument**: the bytes of a typed
array, when it is told to release it; otherwise nothing. -/
theorem freedReads_fromJs (n : Nat) (value : JSValue) (forceFree : Bool) (s : Rt)
    (hvalue : value.val.hasRefCount = true → value.ref < s.fresh) :
    wp (fromJs n value forceFree) s (FreedReads value forceFree s) fun _ _ => True := by
  have hquiet := admits_quiet 0
  cases n with
  | zero => exact trivial
  | succ n =>
    have hrest : value.val.reachesIsArray = true →
        wp (fromJs (n + 1) value forceFree) s (FreedReads value forceFree s) fun _ _ => True := by
      intro hreach
      rw [wp_fromJs_isArray hreach]
      split
      next => exact freedReads_rest hvalue
      next harr =>
        -- only an object may be an array
        have hcount : value.val.hasRefCount = true := by
          by_contra hcount
          refine harr (s.heap.isArray_of_not_object fun x hx => hcount ?_)
          rw [hx]
          rfl
        refine wp_mono (freedReads_array (by simpa using hvalue hcount)) ?_ (fun _ _ h => h)
        rintro a t ⟨es, hes, hfreed⟩
        exact ⟨es, by simpa using hes, hfreed⟩
    have hnumber : ∀ d, s.heap.number value.val = .value d →
        wp (fromJsNumber value forceFree) s (FreedReads value forceFree s) fun _ _ => True :=
      fun d hd => freedReads_answers (leaves_fromJsNumber quiet_free) (answers_fromJsNumber hd)
        fun a ha => by rw [← Except.ok.inj ha]; rfl
    cases hval : value.val with
    | string u =>
      rw [fromJs_string hval]
      exact freedReads_answers (leaves_fromJsString hquiet quiet_free) (answers_fromJsString hval)
        fun a ha => by rw [← Except.ok.inj ha]; rfl
    | bool b =>
      rw [fromJs_bool hval]
      have hbool : Answers (fromJsBool value b forceFree) s (.ok (.bool b)) := by
        simp [Answers, fromJsBool]
      exact freedReads_answers (leaves_fromJsBool quiet_free b) hbool
        fun a ha => by rw [← Except.ok.inj ha]; rfl
    | int i =>
      rw [fromJs_number (by rw [hval]; rfl)]
      exact hnumber _ (by rw [hval]; rfl)
    | float64 d =>
      rw [fromJs_number (by rw [hval]; rfl)]
      exact hnumber _ (by rw [hval]; rfl)
    | _ => exact hrest (by rw [hval]; rfl)

end

/-! ## The last reference -/

/-- The program `p`, whose caller holds the last reference to a value, `r`: to read the
value's bytes after `r` has been released is to read freed memory. -/
def lastHeld {σ α : Type} (trace : σ → List Event) (r : RefId) (p : EStateM Stop σ α) :
    EStateM Stop σ α := do
  let s ← get
  let a ← p
  let t ← get
  if readsFreed r ((trace t).drop (trace s).length) then throw .freedRead
  pure a

theorem wp_lastHeld {σ α : Type} {trace : σ → List Event} {r : RefId} {p : EStateM Stop σ α}
    {s : σ} {Q : α → σ → Prop} {X : Stop → σ → Prop} :
    wp (lastHeld trace r p) s Q X ↔
      wp p s (fun a t => if readsFreed r ((trace t).drop (trace s).length) then X .freedRead t
        else Q a t) X := by
  simp only [lastHeld, wp_bind, wp_get]
  refine ⟨fun h => wp_mono h ?_ fun _ _ h => h, fun h => wp_mono h ?_ fun _ _ h => h⟩
  · intro a t ht
    split at ht <;> simp_all
  · intro a t ht
    split at ht <;> simp_all

/-- **Given the last reference**, `from_js` reads freed memory exactly when it is told
to release a typed array with elements. -/
theorem wp_lastHeld_fromJs {n : Nat} {value : JSValue} {forceFree : Bool} {s : Rt}
    (hvalue : value.val.hasRefCount = true → value.ref < s.fresh) {Q : JSArg → Rt → Prop}
    {X : Stop → Rt → Prop} :
    wp (lastHeld Rt.trace value.ref (fromJs n value forceFree)) s Q X ↔
      wp (fromJs n value forceFree) s
        (fun a t => if forceFree && a.hasBytes then X .freedRead t else Q a t) X := by
  rw [wp_lastHeld]
  have hfreed := freedReads_fromJs n value forceFree s hvalue
  unfold wp at hfreed ⊢
  cases hrun : fromJs n value forceFree s with
  | error e t => rfl
  | ok a t =>
    rw [hrun] at hfreed
    obtain ⟨es, hes, hfreed⟩ := hfreed
    dsimp only
    rw [hes, List.drop_left, hfreed]

/-- What `to_js` returns has a reference of its own, with a new name. -/
theorem toJs_taken (a : JSArg) (s : Rt) :
    wp (toJs a) s (fun v t => v.val.hasRefCount = true → v.ref < t.fresh) (fun _ _ => True) := by
  refine wp_mono (takes_toJs bookkeeping_loose handsOver_loose a s trivial (Held.nil _ _)) ?_
    fun _ _ _ => trivial
  intro v t ht hcount
  obtain ⟨-, es, -, hA⟩ := ht
  exact hA.below _ (mem_owned_ref hcount)

end Ejr
