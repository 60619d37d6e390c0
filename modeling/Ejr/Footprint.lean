import Ejr.FromJs

/-!
# What `from_js` leaves behind

Whatever `from_js` does, and however it ends, the heap stays as it was and the
trace grows by events of known kinds (`Emits`): it takes and gives back
references and C strings of its own, reads buffers, and releases nothing but
references named since the call began and, if told to, its argument
(`leaves_fromJs`). `Admits` lists the kinds, so that one induction over the
calls serves every result about the trace.

That a released reference has been named already is carried by a bound: in
`Leaves P k V p` the names below `k` are known to be taken when `p` starts, and
an owned value `w` moves the bound to `w.ref + 1` (`leaves_bind_own`).
-/

namespace Ejr

open Lib

/-- From `s` to `t` new references have been named, and every new event is in
`P`, which may look at how far names have been given out. -/
structure Logs (P : Nat → Event → Prop) (s t : Rt) : Prop where
  fresh : s.fresh ≤ t.fresh
  trace : ∃ es, t.trace = s.trace ++ es ∧ ∀ e ∈ es, ∀ hi, t.fresh ≤ hi → P hi e

/-- And the heap has stayed. -/
structure Emits (P : Nat → Event → Prop) (s t : Rt) : Prop extends Logs P s t where
  heap : t.heap = s.heap

/-- The events of a conversion that has begun when `lo` was the next name:
what it releases has been named since. -/
structure Admits (P : Nat → Event → Prop) (lo : Nat) : Prop where
  acquire : ∀ hi r, P hi (.acquire r)
  free : ∀ hi r, lo ≤ r → r < hi → P hi (.free r)
  acquireC : ∀ hi r, P hi (.acquireC r)
  freeC : ∀ hi r, P hi (.freeC r)
  readC : ∀ hi r, P hi (.readC r)

section

variable {P : Nat → Event → Prop} {lo k : Nat}

theorem Admits.later (hP : Admits P lo) {lo' : Nat} (h : lo ≤ lo') : Admits P lo' :=
  ⟨hP.acquire, fun hi r hr => hP.free hi r (Nat.le_trans h hr), hP.acquireC, hP.freeC, hP.readC⟩

theorem logs_refl (s : Rt) : Logs P s s := ⟨Nat.le_refl _, [], by simp, by simp⟩

theorem Logs.then {s t u : Rt} (h : Logs P s t) (h' : Logs P t u) : Logs P s u := by
  obtain ⟨es, hes, hP⟩ := h.trace
  obtain ⟨fs, hfs, hP'⟩ := h'.trace
  refine ⟨Nat.le_trans h.fresh h'.fresh, es ++ fs, ?_, ?_⟩
  · rw [hfs, hes, List.append_assoc]
  · intro e he hi hhi
    rcases List.mem_append.mp he with he | he
    · exact hP e he hi (Nat.le_trans h'.fresh hhi)
    · exact hP' e he hi hhi

theorem emits_refl (s : Rt) : Emits P s s := ⟨logs_refl s, rfl⟩

theorem Emits.then {s t u : Rt} (h : Emits P s t) (h' : Emits P t u) : Emits P s u :=
  ⟨h.toLogs.then h'.toLogs, h'.heap.trans h.heap⟩

theorem emits_log {s : Rt} {es : List Event} (h : ∀ e ∈ es, ∀ hi, s.fresh ≤ hi → P hi e) :
    Emits P s (s.log es) :=
  ⟨⟨Nat.le_refl _, es, rfl, h⟩, rfl⟩

theorem framing_emits : Framing (Emits P) fun s => k ≤ s.fresh where
  refl := emits_refl
  trans _ _ _ := Emits.then
  stable _ _ hs h := Nat.le_trans hs h.fresh

/-- A conversion of the bridge, begun when the names below `k` were taken:
however it ends, only events in `P` are new. -/
abbrev Leaves {α : Type} (P : Nat → Event → Prop) (k : Nat) (V : α → Prop) (p : EngineM α) :
    Prop :=
  Keeps (Emits P) (fun s => k ≤ s.fresh) V p

/-- A call that returns an owned value: its reference is new. -/
def Owns (P : Nat → Event → Prop) (k : Nat) (p : EngineM JSValue) : Prop :=
  ∀ s, k ≤ s.fresh → wp p s (fun w t => Emits P s t ∧ k ≤ w.ref ∧ w.ref < t.fresh)
    fun _ t => Emits P s t

/-- After an owned value has been returned, its name is taken. -/
theorem leaves_bind_own {α : Type} {V : α → Prop} {p : EngineM JSValue} {f : JSValue → EngineM α}
    (hp : Owns P k p) (hf : ∀ w : JSValue, k ≤ w.ref → Leaves P (w.ref + 1) V (f w)) :
    Leaves P k V (p >>= f) := by
  intro s hs
  rw [wp_bind]
  refine wp_mono (hp s hs) ?_ (fun _ _ h => h)
  intro w t ht
  obtain ⟨hst, hk, hw⟩ := ht
  refine wp_mono (hf w hk t hw) ?_ ?_
  · exact fun _ u hu => ⟨hst.then hu.1, hu.2⟩
  · exact fun _ u hu => hst.then hu

/-! ## The engine calls -/

theorem emits_raise {α : Type} (s : Rt) (o : Outcome α) : Emits P s (s.raise o) :=
  ⟨⟨by simp, [], by simp, by simp⟩, by simp⟩

theorem leaves_ask {α : Type} (f : Heap → Outcome α) : Leaves P k (fun _ => True) (ask f) := by
  intro s _
  rw [wp_ask]
  exact ⟨emits_raise s _, trivial⟩

theorem leaves_jsToInt32 (v : JSVal) : Leaves P k (fun _ => True) (jsToInt32 v) :=
  keeps_bind framing_emits (leaves_ask _) fun _ _ => keeps_pure framing_emits trivial

theorem leaves_jsToUint32 (v : JSVal) : Leaves P k (fun _ => True) (jsToUint32 v) :=
  keeps_bind framing_emits (leaves_jsToInt32 v) fun _ _ => keeps_pure framing_emits trivial

theorem leaves_jsToInt64 (v : JSVal) : Leaves P k (fun _ => True) (jsToInt64 v) :=
  keeps_bind framing_emits (leaves_ask _) fun _ _ => keeps_pure framing_emits trivial

theorem leaves_jsIsArray (v : JSVal) : Leaves P k (fun _ => True) (jsIsArray v) :=
  keeps_bind framing_emits (leaves_ask _) fun _ _ => keeps_pure framing_emits trivial

variable (hP : Admits P lo)

include hP

theorem emits_owned (s : Rt) (v : JSVal) : Emits P s (s.owned v) := by
  refine ⟨⟨Nat.le_succ _, JSValue.events ⟨v, s.fresh⟩ .acquire, rfl, ?_⟩, rfl⟩
  intro e he hi _
  unfold JSValue.events at he
  split at he
  · obtain rfl := List.mem_singleton.mp he
    exact hP.acquire hi _
  · exact absurd he (by simp)

theorem emits_ownedC (s : Rt) (b : Option Bytes) : Emits P s (s.ownedC b) := by
  cases b with
  | none => exact emits_refl s
  | some b =>
    refine ⟨⟨Nat.le_succ _, [.acquireC s.fresh], rfl, ?_⟩, rfl⟩
    intro e he hi _
    obtain rfl := List.mem_singleton.mp he
    exact hP.acquireC hi _

/-- The heap is asked, and what it answers is owned. -/
theorem owns_ask {α : Type} (f : Heap → Outcome α) (g : Option α → JSVal) :
    Owns P k (do own (g (← ask f))) := by
  intro s hs
  rw [wp_bind, wp_ask, wp_own]
  have hfresh : (s.raise (f s.heap)).fresh = s.fresh := by simp
  refine ⟨(emits_raise s _).then (emits_owned hP _ _), ?_, Nat.lt_succ_self _⟩
  show k ≤ (s.raise (f s.heap)).fresh
  rw [hfresh]
  exact hs

theorem owns_jsGetPropertyStr (v : JSVal) (prop : Bytes) : Owns P k (jsGetPropertyStr v prop) :=
  owns_ask hP _ (·.getD .exception)

theorem owns_jsGetPropertyUint32 (v : JSVal) (i : Nat) : Owns P k (jsGetPropertyUint32 v i) :=
  owns_ask hP _ (·.getD .exception)

theorem owns_jsToString (v : JSVal) : Owns P k (jsToString v) := by
  unfold jsToString
  exact owns_ask hP (Heap.text · v) fun t => (t.map JSVal.string).getD .exception

theorem owns_jsGetException : Owns P k jsGetException := by
  intro s hs
  rw [wp_jsGetException]
  refine ⟨Emits.then ?_ (emits_owned hP _ _), hs, Nat.lt_succ_self _⟩
  exact ⟨⟨Nat.le_refl _, [], by simp, by simp⟩, rfl⟩

theorem leaves_ownC (b : Option Bytes) : Leaves P k (fun _ => True) (ownC b) :=
  fun s _ => ⟨emits_ownedC hP s b, trivial⟩

/-- Releasing a value whose name has been taken since `lo`. -/
theorem leaves_jsFreeValue {v : JSValue} (hlo : lo ≤ v.ref) (hk : v.ref < k) :
    Leaves P k (fun _ => True) (jsFreeValue v) := by
  refine keeps_modify fun s hs => emits_log fun e he hi hhi => ?_
  unfold JSValue.events at he
  split at he
  · obtain rfl := List.mem_singleton.mp he
    exact hP.free hi _ hlo (Nat.lt_of_lt_of_le hk (Nat.le_trans hs hhi))
  · exact absurd he (by simp)

theorem leaves_jsFreeCString (c : Option CString) :
    Leaves P k (fun _ => True) (jsFreeCString c) := by
  refine keeps_modify fun s _ => emits_log fun e he hi _ => ?_
  obtain ⟨c, -, rfl⟩ := List.mem_map.mp he
  exact hP.freeC hi _

theorem leaves_stdString (c : Option CString) : Leaves P k (fun _ => True) (stdString c) := by
  cases c with
  | none => exact keeps_throw framing_emits
  | some c =>
    refine keeps_bind framing_emits (keeps_modify fun s _ => emits_log fun e he hi _ => ?_)
      fun _ _ => keeps_pure framing_emits trivial
    obtain rfl := List.mem_singleton.mp he
    exact hP.readC hi _

theorem leaves_jsToCString (v : JSVal) : Leaves P k (fun _ => True) (jsToCString v) :=
  keeps_bind framing_emits (leaves_ask _) fun _ _ => leaves_ownC hP _

/-! ## The branches of `from_js` -/

variable {value : JSValue} {forceFree : Bool}

omit hP in
theorem leaves_freeIf (hk : lo ≤ k)
    (hfree : forceFree = true → ∀ e ∈ value.events .free, ∀ hi, lo ≤ hi → P hi e) :
    Leaves P k (fun _ => True) (freeIf forceFree value) := by
  cases forceFree with
  | true =>
    refine keeps_modify fun s hs => emits_log fun e he hi hhi => ?_
    exact hfree rfl e he hi (Nat.le_trans hk (Nat.le_trans hs hhi))
  | false => exact keeps_pure framing_emits trivial

variable (hfree : forceFree = true → ∀ e ∈ value.events .free, ∀ hi, lo ≤ hi → P hi e)

include hfree

omit hP in
theorem leaves_fromJsText (hk : lo ≤ k) (text : String) :
    Leaves P k (fun _ => True) (fromJsText value forceFree text) :=
  keeps_bind framing_emits (leaves_freeIf hk hfree) fun _ _ => keeps_pure framing_emits trivial

omit hP in
theorem leaves_fromJsBool (b : Bool) :
    Leaves P lo (fun _ => True) (fromJsBool value b forceFree) :=
  keeps_bind framing_emits (leaves_freeIf (Nat.le_refl _) hfree)
    fun _ _ => keeps_pure framing_emits trivial

theorem leaves_fromJsString : Leaves P lo (fun _ => True) (fromJsString value forceFree) := by
  refine keeps_bind framing_emits (leaves_jsToCString hP _) fun val _ => ?_
  refine keeps_bind framing_emits (leaves_stdString hP val) fun valString _ => ?_
  refine keeps_bind framing_emits (leaves_jsFreeCString hP val) fun _ _ => ?_
  refine keeps_bind framing_emits (leaves_freeIf (Nat.le_refl _) hfree) fun _ _ => ?_
  exact keeps_pure framing_emits trivial

omit hP in
theorem leaves_fromJsNumber : Leaves P lo (fun _ => True) (fromJsNumber value forceFree) := by
  have hend : ∀ a : JSArg, Leaves P lo (fun _ => True)
      (do freeIf forceFree value; pure a : EngineM JSArg) := fun a =>
    keeps_bind framing_emits (leaves_freeIf (Nat.le_refl _) hfree)
      fun _ _ => keeps_pure framing_emits trivial
  refine keeps_bind framing_emits (leaves_jsToInt32 _) fun i32 _ => ?_
  cases i32 with
  | some i32 => exact hend _
  | none =>
    refine keeps_bind framing_emits (leaves_jsToInt64 _) fun i64 _ => ?_
    cases i64 with
    | some i64 => exact hend _
    | none =>
      refine keeps_bind framing_emits (leaves_ask _) fun d _ => ?_
      cases d with
      | some d => exact hend _
      | none =>
        refine keeps_bind framing_emits (leaves_jsToUint32 _) fun u32 _ => ?_
        cases u32 with
        | some u32 => exact hend _
        | none => exact hend _

omit hfree in
theorem leaves_errorCstr (v : JSVal) : Leaves P k (fun _ => True) (errorCstr v) := by
  unfold errorCstr
  split
  next => exact keeps_pure framing_emits trivial
  next => exact leaves_jsToCString hP _

omit hfree in
theorem leaves_orException (c : Option CString) : Leaves P k (fun _ => True) (orException c) := by
  cases c with
  | none => exact keeps_pure framing_emits trivial
  | some c => exact leaves_stdString hP (some c)

theorem leaves_fromJsError : Leaves P lo (fun _ => True) (fromJsError value forceFree) := by
  refine leaves_bind_own (owns_jsGetPropertyStr hP _ _) fun message hmessage => ?_
  refine leaves_bind_own (owns_jsGetPropertyStr hP _ _) fun name hname => ?_
  refine keeps_bind framing_emits (leaves_errorCstr hP _) fun messageCstr _ => ?_
  refine keeps_bind framing_emits (leaves_errorCstr hP _) fun nameCstr _ => ?_
  refine keeps_bind framing_emits (leaves_orException hP _) fun messageStr _ => ?_
  refine keeps_bind framing_emits (leaves_orException hP _) fun nameStr _ => ?_
  refine keeps_bind framing_emits (leaves_stdString hP _) fun execName _ => ?_
  refine keeps_bind framing_emits (leaves_freeIf (by omega) hfree) fun _ _ => ?_
  refine keeps_bind framing_emits (leaves_jsFreeValue hP hmessage (by omega)) fun _ _ => ?_
  refine keeps_bind framing_emits (leaves_jsFreeValue hP (by omega) (by omega)) fun _ _ => ?_
  refine keeps_bind framing_emits (leaves_jsFreeCString hP _) fun _ _ => ?_
  refine keeps_bind framing_emits (leaves_jsFreeCString hP _) fun _ _ => ?_
  exact keeps_pure framing_emits trivial

theorem leaves_fromJsException :
    Leaves P lo (fun _ => True) (fromJsException value forceFree) := by
  refine leaves_bind_own (owns_jsGetException hP) fun exception hexception => ?_
  refine leaves_bind_own (owns_jsToString hP _) fun exceptionJsStr hstr => ?_
  refine keeps_bind framing_emits (leaves_jsToCString hP _) fun exceptionCstr _ => ?_
  refine keeps_bind framing_emits (leaves_orException hP _) fun exceptionStr _ => ?_
  refine keeps_bind framing_emits (leaves_jsFreeCString hP _) fun _ _ => ?_
  refine keeps_bind framing_emits (leaves_jsFreeValue hP hexception (by omega)) fun _ _ => ?_
  refine keeps_bind framing_emits (leaves_jsFreeValue hP (by omega) (by omega)) fun _ _ => ?_
  refine keeps_bind framing_emits (leaves_freeIf (by omega) hfree) fun _ _ => ?_
  exact keeps_pure framing_emits trivial

omit hP hfree in
theorem leaves_readElements (hread : ∀ hi b i n, P hi (.read b i n)) (b : Addr)
    (offset count : Nat) (t : Elem) :
    Leaves P k (fun _ => True) (readElements b offset count t) := by
  refine keeps_bind framing_emits (V := fun _ => True) ?_
    fun _ _ => keeps_pure framing_emits trivial
  intro s _
  have hlog : Emits P s (s.log [.read b offset (count * t.size)]) := by
    refine emits_log fun e he hi _ => ?_
    obtain rfl := List.mem_singleton.mp he
    exact hread hi _ _ _
  rw [wp_readBytes]
  split
  · exact ⟨hlog, trivial⟩
  · exact hlog

/-- Up to the comparison of the name nothing is read. -/
theorem leaves_probeView {buffer : JSValue} (hlo : lo ≤ buffer.ref) (hk : buffer.ref < k) :
    Leaves P k (fun _ => True) (probeView value forceFree buffer) := by
  refine leaves_bind_own (owns_jsGetPropertyStr hP _ _) fun constructor hcon => ?_
  refine leaves_bind_own (owns_jsGetPropertyStr hP _ _) fun name hname => ?_
  refine keeps_bind framing_emits (leaves_jsToCString hP _) fun nameCstr _ => ?_
  refine keeps_bind framing_emits (leaves_ask _) fun bufferData _ => ?_
  refine keeps_bind framing_emits (leaves_jsFreeCString hP _) fun _ _ => ?_
  refine keeps_bind framing_emits (leaves_jsFreeValue hP (by omega) (by omega)) fun _ _ => ?_
  refine keeps_bind framing_emits (leaves_jsFreeValue hP (by omega) (by omega)) fun _ _ => ?_
  refine keeps_bind framing_emits (leaves_jsFreeValue hP hlo (by omega)) fun _ _ => ?_
  refine keeps_bind framing_emits (leaves_freeIf (by omega) hfree) fun _ _ => ?_
  exact keeps_pure framing_emits trivial

variable (hread : ∀ hi b i n, P hi (.read b i n))

include hread

theorem leaves_fromJsView {buffer : JSValue} (hlo : lo ≤ buffer.ref) (hk : buffer.ref < k)
    (view : View) : Leaves P k (fun _ => True) (fromJsView value forceFree buffer view) := by
  refine keeps_bind framing_emits (leaves_probeView hP hfree hlo hk) fun probed _ => ?_
  obtain ⟨nameCstr, bufferData⟩ := probed
  cases bufferData with
  | none => exact keeps_pure framing_emits trivial
  | some data =>
    refine keeps_bind framing_emits (leaves_stdString hP _) fun name _ => ?_
    cases elemOfName name with
    | none => exact leaves_fromJsText hfree (by omega) _
    | some t =>
      exact keeps_bind framing_emits (leaves_readElements hread _ _ _ _)
        fun _ _ => keeps_pure framing_emits trivial

theorem leaves_fromJsOther : Leaves P lo (fun _ => True) (fromJsOther value forceFree) := by
  intro s hs
  rw [fromJsOther, wp_bind, wp_jsGetTypedArrayBuffer]
  have htext : ∀ t, Emits P s t → wp (fromJsText value forceFree "[unsupported]") t
      (fun _ u => Emits P s u ∧ True) (fun _ u => Emits P s u) := by
    intro t ht
    refine wp_mono (leaves_fromJsText hfree (Nat.le_refl _) _ t (Nat.le_trans hs ht.fresh)) ?_ ?_
    · exact fun _ u hu => ⟨ht.then hu.1, trivial⟩
    · exact fun _ u hu => ht.then hu
  cases s.heap.view value.val with
  | throws e => exact htext _ (emits_raise s _)
  | exception => exact htext _ (emits_raise s _)
  | value view =>
    refine wp_mono (leaves_fromJsView hP hfree hread hs (Nat.lt_succ_self _) view _
      (Nat.le_refl _)) ?_ ?_
    · exact fun _ u hu => ⟨(emits_owned hP s _).then hu.1, trivial⟩
    · exact fun _ u hu => (emits_owned hP s _).then hu

theorem leaves_fromJsRest : Leaves P lo (fun _ => True) (fromJsRest value forceFree) := by
  refine keeps_bind framing_emits (keeps_get framing_emits) fun s _ => ?_
  split
  next => exact leaves_fromJsText hfree (Nat.le_refl _) _
  next => exact leaves_fromJsText hfree (Nat.le_refl _) _
  next => exact leaves_fromJsException hP hfree
  next =>
    split
    next => exact leaves_fromJsError hP hfree
    next => exact leaves_fromJsOther hP hfree hread

omit hP hfree hread in
theorem leaves_fromJsElems {rec : JSValue → Bool → EngineM JSArg} (hP : Admits P lo)
    (hrec : ∀ elem : JSValue, lo ≤ elem.ref → Leaves P (elem.ref + 1) (fun _ => True) (rec elem true)) :
    ∀ i n k : Nat, lo ≤ k → Leaves P k (fun _ => True) (fromJsElems rec value i n)
  | _, 0, _, _ => keeps_pure framing_emits trivial
  | i, n + 1, k, hk => by
    refine leaves_bind_own (owns_jsGetPropertyUint32 hP _ _) fun elem helem => ?_
    have hlo : lo ≤ elem.ref := by omega
    refine keeps_bind framing_emits (hrec elem hlo) fun arg _ => ?_
    refine keeps_bind framing_emits (leaves_fromJsElems hP hrec (i + 1) n _ (by omega))
      fun vec _ => ?_
    exact keeps_pure framing_emits trivial

omit hread in
theorem leaves_fromJsArray {rec : JSValue → Bool → EngineM JSArg}
    (hrec : ∀ elem : JSValue, lo ≤ elem.ref → Leaves P (elem.ref + 1) (fun _ => True) (rec elem true)) :
    Leaves P lo (fun _ => True) (fromJsArray rec value forceFree) := by
  refine leaves_bind_own (owns_jsGetPropertyStr hP _ _) fun lenVal hlen => ?_
  refine keeps_bind framing_emits (leaves_jsToUint32 _) fun len _ => ?_
  refine keeps_bind framing_emits (leaves_jsFreeValue hP hlen (by omega)) fun _ _ => ?_
  refine keeps_bind framing_emits (leaves_fromJsElems hP hrec 0 _ _ (by omega)) fun vec _ => ?_
  refine keeps_bind framing_emits (leaves_freeIf (by omega) hfree) fun _ _ => ?_
  exact keeps_pure framing_emits trivial

end

/-- **The footprint of `from_js`**, by induction on its depth: the elements of
an array are new references, so releasing them is among the admitted events. -/
theorem leaves_fromJs {P : Nat → Event → Prop} (hread : ∀ hi b i n, P hi (.read b i n)) :
    ∀ (n lo : Nat) (value : JSValue) (forceFree : Bool), Admits P lo →
    (forceFree = true → ∀ e ∈ value.events .free, ∀ hi, lo ≤ hi → P hi e) →
      Leaves P lo (fun _ => True) (fromJs n value forceFree)
  | 0, _, _, _, _, _ => keeps_throw framing_emits
  | n + 1, lo, value, forceFree, hP, hfree => by
    -- an element is released by the call it is passed to
    have hrec : ∀ elem : JSValue, lo ≤ elem.ref →
        Leaves P (elem.ref + 1) (fun _ => True) (fromJs n elem true) := by
      intro elem helem
      refine leaves_fromJs hread n _ elem true (hP.later (by omega)) fun _ e he hi hhi => ?_
      unfold JSValue.events at he
      split at he
      · obtain rfl := List.mem_singleton.mp he
        exact hP.free hi _ helem hhi
      · exact absurd he (by simp)
    unfold fromJs
    split
    next => exact leaves_fromJsString hP hfree
    next => exact leaves_fromJsBool hfree _
    next => exact leaves_fromJsNumber hfree
    next => exact leaves_fromJsNumber hfree
    next =>
      refine keeps_bind framing_emits (leaves_jsIsArray _) fun b _ => ?_
      split
      next => exact leaves_fromJsRest hP hfree hread
      next => exact leaves_fromJsArray hP hfree hrec

end Ejr
