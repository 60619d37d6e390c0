import Ejr.Custody
import Ejr.Reached
import Ejr.TypedReads

/-!
# What `from_js` releases

The traces of `from_js`, as accounts of owned names (`Ejr.Custody`): it is handed
its argument when `force_free` is true, and nothing otherwise, and has to end
with nothing in its hands. It does, on every path that ends and up to every point
of those that do not, unless it comes to a value it mishandles (`releases_iff`):
a typed array whose buffer is there, whose constructor's name is compared after
its C string has been released, or an Error without a name, which leaves
`from_js` by a C++ exception with everything still to be released.
-/

namespace Ejr

open Lib

/-! ## What a trace may do -/

/-- What is released is the argument, if `from_js` may release it, or has been
taken before, and is released once; a C string is not read after its release,
nor a buffer after anything has been released. -/
structure Orderly (value : JSValue) (forceFree : Bool) (es : List Event) : Prop where
  once : (es.filterMap Event.puts).Nodup
  own : ∀ n ∈ es.filterMap Event.puts,
    n ∈ es.filterMap Event.takes ∨ forceFree = true ∧ n ∈ value.owned
  strings : es.Pairwise fun e e' => ∀ n, e.puts = some n → e'.uses ≠ some n
  buffers : es.Pairwise fun e e' => ∀ n, e.puts = some n → ∀ b i len, e' ≠ .read b i len

/-- And everything taken has been released, and the argument if and only if
`force_free` is true. -/
structure Clean (value : JSValue) (forceFree : Bool) (es : List Event) : Prop
    extends Orderly value forceFree es where
  all : ∀ n ∈ es.filterMap Event.takes, n ∈ es.filterMap Event.puts
  value : ∀ n ∈ value.owned, n ∈ es.filterMap Event.puts ↔ forceFree = true

/-- No buffer is read. -/
def Event.NoRead : Event → Prop
  | .read .. => False
  | _ => True

/-- The account of `from_js`, without reads of buffers. -/
abbrev cleanRefs := exactRefs Event.NoRead

theorem bookkeeping_clean : Bookkeeping cleanRefs :=
  bookkeeping_exact (fun _ => trivial) (fun _ => trivial) (fun _ => trivial) (fun _ => trivial)
    fun _ => trivial

/-- What `from_js` is handed. -/
def handed (value : JSValue) (forceFree : Bool) : List Name := if forceFree then value.owned else []

section

variable {value : JSValue} {forceFree : Bool} {lo hi : Nat} {h : List Name} {es : List Event}

theorem mem_handed {n : Name} : n ∈ handed value forceFree ↔ forceFree = true ∧ n ∈ value.owned := by
  cases forceFree <;> simp [handed]

theorem held_handed (hlo : value.ref < lo) : Held Name.rank lo (handed value forceFree) := by
  constructor
  · cases forceFree
    · exact List.nodup_nil
    · exact nodup_owned value
  · intro n hn
    rw [rank_owned (mem_handed.mp hn).2]
    exact hlo

/-- Up to any point, the account is orderly. -/
theorem orderly_of_exact (hlo : value.ref < lo)
    (hA : cleanRefs lo hi (handed value forceFree) h es) : Orderly value forceFree es := by
  have hcount : ∀ n, (es.filterMap Event.takes).count n + (handed value forceFree).count n ≤ 1 :=
    hA.count_le_one (held_handed hlo)
  have heven : ∀ n, (es.filterMap Event.puts).count n + h.count n =
      (es.filterMap Event.takes).count n + (handed value forceFree).count n := hA.even
  constructor
  · refine List.nodup_iff_count_le_one.mpr fun n => ?_
    have hn := heven n
    have hle := hcount n
    omega
  · intro n hput
    have hpos := List.count_pos_iff.mpr hput
    by_cases ht : n ∈ es.filterMap Event.takes
    · exact .inl ht
    · have hzero := List.count_eq_zero.mpr ht
      have hn := heven n
      exact .inr (mem_handed.mp (List.count_pos_iff.mp (by omega)))
  · exact hA.order
  · refine List.pairwise_of_forall_mem_list fun e _ e' he' n _ b i len heq => ?_
    have hallowed := hA.allowed e' he'
    rw [heq] at hallowed
    exact hallowed

/-- A whole account is clean. -/
theorem clean_of_exact (hlo : value.ref < lo)
    (hA : cleanRefs lo hi (handed value forceFree) [] es) : Clean value forceFree es := by
  have heven : ∀ n, (es.filterMap Event.puts).count n =
      (es.filterMap Event.takes).count n + (handed value forceFree).count n := hA.even
  refine ⟨orderly_of_exact hlo hA, ?_, ?_⟩
  · intro n hn
    have hpos := List.count_pos_iff.mpr hn
    have hn := heven n
    exact List.count_pos_iff.mp (by omega)
  · intro n hn
    constructor
    · intro hput
      have hpos := List.count_pos_iff.mpr hput
      have hnew : n ∉ es.filterMap Event.takes := fun ht => by
        have hge := (hA.range n ht).1
        rw [rank_owned hn] at hge
        omega
      rw [heven n, List.count_eq_zero.mpr hnew, Nat.zero_add] at hpos
      exact (mem_handed.mp (List.count_pos_iff.mp hpos)).1
    · intro hff
      have hmem : n ∈ handed value forceFree := mem_handed.mpr ⟨hff, hn⟩
      have hpos := List.count_pos_iff.mpr hmem
      have hn := heven n
      exact List.count_pos_iff.mp (by omega)

end

/-! ## The branches without typed arrays -/

section

variable {A : Nat → Nat → List Name → List Name → List Event → Prop} {J : Heap → Prop}
variable (hA : Bookkeeping A) {value : JSValue} {forceFree : Bool}

include hA

theorem takes_freeIf :
    Takes A J (handed value forceFree) (fun _ => []) (freeIf forceFree value) := by
  cases forceFree with
  | true => exact takes_jsFreeValue hA value
  | false => exact hA.owes_pure (.refl _)

/-- The end of a branch. -/
theorem takes_done (a : JSArg) : Takes A J (handed value forceFree) (fun _ => [])
    (do freeIf forceFree value; pure a : EngineM JSArg) :=
  hA.owes_bind (takes_freeIf hA) fun _ => hA.owes_pure (.refl _)

theorem takes_fromJsText (text : String) :
    Takes A J (handed value forceFree) (fun _ => []) (fromJsText value forceFree text) :=
  takes_done hA _

theorem takes_fromJsBool (b : Bool) :
    Takes A J (handed value forceFree) (fun _ => []) (fromJsBool value b forceFree) :=
  takes_done hA _

theorem takes_fromJsString :
    Takes A J (handed value forceFree) (fun _ => []) (fromJsString value forceFree) := by
  refine hA.owes_new (takes_jsToCString hA _) fun val => ?_
  refine hA.owes_seq (takes_stdString hA val) (.refl _) fun valString => ?_
  refine hA.owes_drop (takes_jsFreeCString hA val) (.refl _) fun _ => ?_
  exact takes_done hA _

/-- Conversions to numbers take nothing. -/
theorem takes_ask_map {α β : Type} (f : Heap → Outcome α) (g : Option α → β) (o : List Name) :
    Takes A J o (fun _ => o) (do let a ← ask f; pure (g a) : EngineM β) :=
  hA.owes_bind (takes_ask hA f o) fun _ => hA.owes_pure (.refl _)

theorem takes_jsToInt32 (v : JSVal) (o : List Name) : Takes A J o (fun _ => o) (jsToInt32 v) :=
  takes_ask_map hA _ (·.map fun d : Double => Int32.ofInt d.trunc) o

theorem takes_jsToUint32 (v : JSVal) (o : List Name) : Takes A J o (fun _ => o) (jsToUint32 v) :=
  hA.owes_bind (takes_jsToInt32 hA v o) fun _ => hA.owes_pure (.refl _)

theorem takes_jsToInt64 (v : JSVal) (o : List Name) : Takes A J o (fun _ => o) (jsToInt64 v) :=
  takes_ask_map hA _ (·.map fun d : Double => Int64.ofInt d.trunc) o

theorem takes_jsIsArray (v : JSVal) (o : List Name) : Takes A J o (fun _ => o) (jsIsArray v) :=
  hA.owes_bind (takes_ask hA _ o) fun _ => hA.owes_pure (.refl _)

/-- Whichever conversion succeeds, the argument is released after it. -/
theorem takes_fromJsNumber :
    Takes A J (handed value forceFree) (fun _ => []) (fromJsNumber value forceFree) := by
  refine hA.owes_bind (takes_jsToInt32 hA _ _) fun i32 => ?_
  cases i32 with
  | some i32 => exact takes_done hA _
  | none =>
    refine hA.owes_bind (takes_jsToInt64 hA _ _) fun i64 => ?_
    cases i64 with
    | some i64 => exact takes_done hA _
    | none =>
      refine hA.owes_bind (takes_ask hA _ _) fun d => ?_
      cases d with
      | some d => exact takes_done hA _
      | none =>
        refine hA.owes_bind (takes_jsToUint32 hA _ _) fun u32 => ?_
        cases u32 with
        | some u32 => exact takes_done hA _
        | none => exact takes_done hA _

theorem takes_errorCstr (v : JSVal) : Takes A J [] cstrOwned (errorCstr v) := by
  unfold errorCstr
  split
  next => exact hA.owes_pure (.refl _)
  next => exact takes_jsToCString hA _

theorem takes_orException (c : Option CString) :
    Takes A J (cstrOwned c) (fun _ => cstrOwned c) (orException c) := by
  cases c with
  | none => exact hA.owes_pure (.refl _)
  | some c => exact takes_stdString hA (some c)

/-- The Error branch, as far as it gets. -/
theorem takes_fromJsError :
    Takes A J (handed value forceFree) (fun _ => []) (fromJsError value forceFree) := by
  refine hA.owes_new (takes_jsGetPropertyStr hA _ _) fun message => ?_
  refine hA.owes_new (takes_jsGetPropertyStr hA _ _) fun name => ?_
  refine hA.owes_new (takes_errorCstr hA _) fun messageCstr => ?_
  refine hA.owes_new (takes_errorCstr hA _) fun nameCstr => ?_
  refine hA.owes_seq (takes_orException hA messageCstr) (List.perm_append_comm_assoc ..)
    fun messageStr => ?_
  refine hA.owes_seq (takes_orException hA nameCstr) (List.perm_append_comm_assoc ..)
    fun nameStr => ?_
  refine hA.owes_seq (takes_stdString hA nameCstr) (.refl _) fun execName => ?_
  -- five things to release, in an order of their own
  refine hA.owes_drop (takes_freeIf hA)
    (x := cstrOwned nameCstr ++ cstrOwned messageCstr ++ name.owned ++ message.owned) ?_ fun _ => ?_
  · have hlast := @List.perm_append_comm Name
      (cstrOwned nameCstr ++ cstrOwned messageCstr ++ name.owned ++ message.owned)
      (handed value forceFree)
    simpa only [List.append_assoc] using hlast
  refine hA.owes_drop (takes_jsFreeValue hA message) List.perm_append_comm fun _ => ?_
  refine hA.owes_drop (takes_jsFreeValue hA name) List.perm_append_comm fun _ => ?_
  refine hA.owes_drop (takes_jsFreeCString hA messageCstr) List.perm_append_comm fun _ => ?_
  exact hA.owes_bind (takes_jsFreeCString hA nameCstr) fun _ => hA.owes_pure (.refl _)

theorem takes_fromJsException :
    Takes A J (handed value forceFree) (fun _ => []) (fromJsException value forceFree) := by
  refine hA.owes_new (takes_jsGetException hA) fun exception => ?_
  refine hA.owes_new (takes_jsToString hA _) fun exceptionJsStr => ?_
  refine hA.owes_new (takes_jsToCString hA _) fun exceptionCstr => ?_
  refine hA.owes_seq (takes_orException hA exceptionCstr) (.refl _) fun exceptionStr => ?_
  refine hA.owes_drop (takes_jsFreeCString hA exceptionCstr) (.refl _) fun _ => ?_
  refine hA.owes_drop (takes_jsFreeValue hA exception) (List.perm_append_comm_assoc ..) fun _ => ?_
  refine hA.owes_drop (takes_jsFreeValue hA exceptionJsStr) (.refl _) fun _ => ?_
  exact takes_done hA _

/-! ## Typed arrays -/

/-- Before the name is compared everything is released, the argument too. -/
theorem takes_probeView (buffer : JSValue) :
    Takes A J (buffer.owned ++ handed value forceFree) (fun _ => [])
      (probeView value forceFree buffer) := by
  refine hA.owes_new (takes_jsGetPropertyStr hA _ _) fun constructor => ?_
  refine hA.owes_new (takes_jsGetPropertyStr hA _ _) fun name => ?_
  refine hA.owes_new (takes_jsToCString hA _) fun nameCstr => ?_
  refine hA.owes_bind (takes_ask hA _ _) fun bufferData => ?_
  refine hA.owes_drop (takes_jsFreeCString hA nameCstr) (.refl _) fun _ => ?_
  refine hA.owes_drop (takes_jsFreeValue hA name) (.refl _) fun _ => ?_
  refine hA.owes_drop (takes_jsFreeValue hA constructor) (.refl _) fun _ => ?_
  refine hA.owes_drop (takes_jsFreeValue hA buffer) (.refl _) fun _ => ?_
  exact hA.owes_bind (takes_freeIf hA) fun _ => hA.owes_pure (.refl _)

theorem takes_jsGetTypedArrayBuffer (v : JSVal) :
    Takes A J [] (fun r => r.elim [] fun found => found.1.owned) (jsGetTypedArrayBuffer v) := by
  refine hA.owes_bind (takes_ask hA _ []) fun view => ?_
  cases view with
  | none => exact hA.owes_pure (.refl _)
  | some view =>
    exact hA.owes_bind (takes_own hA _) fun buffer => hA.owes_pure (.refl _)

/-- The value is no array, and its conversion is not orderly: the name of a
typed array with its buffer is compared after its C string has been released,
and an Error without a name is left by a C++ exception before anything is. -/
def Heap.mishandles (h : Heap) (v : JSVal) : Bool :=
  if h.isError v then (h.errorText (h.property v (ascii "name"))).isNone
  else
    match (h.view v).get? with
    | some view => (h.arrayBuffer (.object view.buffer)).get?.isSome
    | none => false

/-! ## What is released on the way to a value that is not mishandled -/

/-- Reading a heap that stays as it is. -/
def OnHeap (h g : Heap) : Prop := g = h

variable {h : Heap}

/-- The typed array branch without the buffer's data. -/
theorem takes_fromJsView {buffer : JSValue} (hdetached : (h.arrayBuffer buffer.val).get? = none)
    (view : View) : Takes A (OnHeap h) (buffer.owned ++ handed value forceFree) (fun _ => [])
      (fromJsView value forceFree buffer view) := by
  refine hA.owes_bind_of (V := fun probed => probed.2 = none) (takes_probeView hA buffer) ?_ ?_
  · intro s (hs : s.heap = h)
    obtain ⟨c, t, hprobe, -⟩ := probeView_ok value forceFree buffer s
    rw [wp_iff_of_ok hprobe, hs]
    exact hdetached
  · intro probed hnone
    obtain ⟨nameCstr, bufferData⟩ := probed
    obtain rfl : bufferData = none := hnone
    exact hA.owes_pure (.refl _)

theorem takes_fromJsOther (hview : ∀ view, h.view value.val = .value view →
      (h.arrayBuffer (.object view.buffer)).get? = none) :
    Takes A (OnHeap h) (handed value forceFree) (fun _ => []) (fromJsOther value forceFree) := by
  refine hA.owes_seq_of (V := fun r => ∀ found, r = some found →
    (h.arrayBuffer found.1.val).get? = none) (takes_jsGetTypedArrayBuffer hA value.val) ?_
    (.refl _) fun r hr => ?_
  · intro s (hs : s.heap = h)
    rw [wp_jsGetTypedArrayBuffer, hs]
    cases hv : h.view value.val with
    | value view =>
      intro found hfound
      rw [← Option.some.inj hfound]
      exact hview view hv
    | throws e => exact fun found hfound => nomatch hfound
    | exception => exact fun found hfound => nomatch hfound
  · cases r with
    | none => exact takes_fromJsText hA _
    | some found => exact takes_fromJsView hA (hr found rfl) found.2

theorem takes_fromJsRest (hv : h.mishandles value.val = false) :
    Takes A (OnHeap h) (handed value forceFree) (fun _ => []) (fromJsRest value forceFree) := by
  refine hA.owes_bind_of (V := fun s : Rt => s.heap = h) hA.owes_get (fun s hs => hs) fun s hs => ?_
  split
  next => exact takes_fromJsText hA _
  next => exact takes_fromJsText hA _
  next => exact takes_fromJsException hA
  next =>
    rw [hs]
    cases herror : h.isError value.val with
    | true => exact takes_fromJsError hA
    | false =>
      refine takes_fromJsOther hA fun view hview => ?_
      simpa [Heap.mishandles, herror, hview, Outcome.get?] using hv

/-- The loop over the elements: as long as it goes on, the conversions before
have come back. -/
theorem takes_fromJsElems {n len : Nat} {bad : JSVal → Prop}
    (hrec : ∀ (v : JSVal) (r : RefId), ¬Meets h bad v →
      Takes A (OnHeap h) (handed ⟨v, r⟩ true) (fun _ => []) (fromJs n ⟨v, r⟩ true))
    (helem : ∀ i < len, (∀ j < i, ComesBack h (h.element value.val j)) →
      ¬Meets h bad (h.element value.val i)) :
    ∀ k i, i + k = len → (∀ j < i, ComesBack h (h.element value.val j)) →
      Takes A (OnHeap h) [] (fun _ => []) (fromJsElems (fromJs n) value i k)
  | 0, _, _, _ => hA.owes_pure (.refl _)
  | k + 1, i, hi, hbefore => by
    refine hA.owes_bind_of (V := fun elem => elem.val = h.element value.val i)
      (takes_jsGetPropertyUint32 hA _ _) ?_ fun elem hval => ?_
    · intro s (hs : s.heap = h)
      rw [wp_jsGetPropertyUint32, hs]
    obtain ⟨v, r⟩ := elem
    obtain rfl : v = h.element value.val i := hval
    refine hA.owes_bind_of (V := fun _ => ComesBack h (h.element value.val i))
      (hrec _ r (helem i (by omega) hbefore)) ?_ fun arg hback => ?_
    · intro s (hs : s.heap = h)
      exact wp_mono (fromJs_spec h n _ r true s hs) (fun _ _ h => h) (fun _ _ _ => trivial)
    refine hA.owes_bind (takes_fromJsElems hrec helem k (i + 1) (by omega) fun j hj => ?_)
      fun vec => hA.owes_pure (.refl _)
    rcases Nat.lt_succ_iff_lt_or_eq.mp hj with hj | rfl
    · exact hbefore j hj
    · exact hback

theorem takes_fromJsArray {n : Nat} {bad : JSVal → Prop}
    (hrec : ∀ (v : JSVal) (r : RefId), ¬Meets h bad v →
      Takes A (OnHeap h) (handed ⟨v, r⟩ true) (fun _ => []) (fromJs n ⟨v, r⟩ true))
    (harr : h.ArrayLike value.val) (hv : ¬Meets h bad value.val) :
    Takes A (OnHeap h) (handed value forceFree) (fun _ => [])
      (fromJsArray (fromJs n) value forceFree) := by
  refine hA.owes_seq_of (V := fun lenVal => lenVal.val = h.property value.val (ascii "length"))
    (takes_jsGetPropertyStr hA _ _) ?_ (.refl _) fun lenVal hlen => ?_
  · intro s (hs : s.heap = h)
    rw [wp_jsGetPropertyStr, hs]
  refine hA.owes_bind_of (V := fun len => (len.getD 0).toNat = h.arrayLength value.val)
    (takes_jsToUint32 hA _ _) ?_ fun len hlength => ?_
  · intro s (hs : s.heap = h)
    rw [wp_jsToUint32, hs, hlen]
    rfl
  refine hA.owes_drop (takes_jsFreeValue hA lenVal) (.refl _) fun _ => ?_
  refine hA.owes_new (takes_fromJsElems hA hrec (fun i hi hbefore hm => ?_) _ 0 (Nat.zero_add _)
    fun j hj => absurd hj (Nat.not_lt_zero j)) fun vec => takes_done hA _
  exact hv (.elem harr (by omega) hbefore hm)

/-- **`from_js`** takes its argument over if `force_free` is true, and nothing
is left in its hands, unless it comes to a value it mishandles. -/
theorem takes_fromJs : ∀ (n : Nat) (v : JSVal) (r : RefId) (forceFree : Bool),
    ¬Meets h (fun w => h.mishandles w = true) v →
      Takes A (OnHeap h) (handed ⟨v, r⟩ forceFree) (fun _ => []) (fromJs n ⟨v, r⟩ forceFree)
  | 0, _, _, _, _ => hA.owes_throw
  | n + 1, v, r, forceFree, hv => by
    have hlast : (JSValue.mk v r).val.reachesIsArray = true →
        Takes A (OnHeap h) (handed ⟨v, r⟩ forceFree) (fun _ => [])
          (fromJs (n + 1) ⟨v, r⟩ forceFree) := by
      intro hreach
      rw [fromJs_isArray hreach]
      -- what `JS_IsArray` answers decides which branch a mishandled value is met in
      refine hA.owes_bind_of (V := fun b => b = 0 ↔ ¬h.ArrayLike v) (takes_jsIsArray hA _ _) ?_ ?_
      · intro s (hs : s.heap = h)
        rw [wp_jsIsArray, hs]
        unfold Heap.ArrayLike
        cases h.isArray v with
        | value b => cases b <;> simp [Outcome.get?]
        | throws e => simp [Outcome.get?]
        | exception => simp [Outcome.get?]
      · intro b hb
        split
        next =>
          refine takes_fromJsRest hA (Bool.not_eq_true _ ▸ fun hmis => ?_)
          exact hv (.leaf (hb.mp rfl) hmis)
        next hne =>
          exact takes_fromJsArray hA (fun w r' => takes_fromJs n w r' true)
            (not_not.mp fun hno => hne (hb.mpr hno)) hv
    cases hval : v with
    | string u =>
      rw [fromJs_string rfl]
      exact takes_fromJsString hA
    | bool b =>
      rw [fromJs_bool rfl]
      exact takes_fromJsBool hA b
    | int i =>
      rw [fromJs_number rfl]
      exact takes_fromJsNumber hA
    | float64 d =>
      rw [fromJs_number rfl]
      exact takes_fromJsNumber hA
    | _ =>
      rw [hval] at hlast
      exact hlast rfl

end

/-! ## What a mishandled value leaves in the trace -/

/-- A C string is read after it has been released. -/
def Spoiled (es : List Event) : Prop := ∃ c, [Event.freeC c, Event.readC c].Sublist es

theorem persists_spoiled : Persists Spoiled := by
  intro before es after h
  obtain ⟨c, hc⟩ := h
  exact ⟨c, hc.trans (List.sublist_append_of_sublist_left (List.sublist_append_right before es))⟩

/-- Nothing orderly is spoiled. -/
theorem Orderly.not_spoiled {value : JSValue} {forceFree : Bool} {es : List Event}
    (h : Orderly value forceFree es) : ¬Spoiled es := by
  intro hs
  obtain ⟨c, hc⟩ := hs
  have hpair := h.strings.sublist hc
  exact List.rel_of_pairwise_cons hpair (List.mem_singleton.mpr rfl) (.cstr c) rfl rfl

theorem Rt.ownedC_grows (s : Rt) (b : Option Bytes) : ∃ es, (s.ownedC b).trace = s.trace ++ es := by
  cases b with
  | none => exact ⟨[], (List.append_nil _).symm⟩
  | some b => exact ⟨[.acquireC s.fresh], rfl⟩

/-- The C string of the name has been released before it is looked at. -/
theorem probeView_frees (value : JSValue) (forceFree : Bool) (buffer : JSValue) (s : Rt) :
    wp (probeView value forceFree buffer) s
      (fun r t => ∀ c, r.1 = some c → ∃ es, t.trace = s.trace ++ es ∧ Event.freeC c.ref ∈ es)
      (fun _ _ => False) := by
  simp only [probeView, wp_bind, wp_jsGetPropertyStr, wp_jsToCString, wp_jsGetArrayBuffer,
    wp_jsFreeCString, wp_jsFreeValue, wp_freeIf, wp_pure]
  intro c hc
  rw [hc]
  generalize ht : Rt.ownedC _ _ = t
  obtain ⟨es, hes⟩ : ∃ es, t.trace = s.trace ++ es := by
    rw [← ht]
    obtain ⟨es, hes⟩ := Rt.ownedC_grows _ _
    rw [hes]
    simp only [Rt.raise_trace, Rt.owned_trace, List.append_assoc]
    exact ⟨_, rfl⟩
  simp only [Rt.log_trace, Rt.raise_trace, hes, List.append_assoc]
  exact ⟨_, rfl, by simp⟩

variable {h : Heap}

theorem mishandles_of_aborts {v : JSVal} (ha : h.aborts v = true) : h.mishandles v = true := by
  unfold Heap.aborts at ha
  unfold Heap.mishandles
  split
  next herror => rwa [if_pos herror] at ha
  next herror =>
    rw [if_neg herror] at ha
    cases hview : (h.view v).get? with
    | none =>
      rw [hview] at ha
      exact absurd ha Bool.false_ne_true
    | some view =>
      rw [hview] at ha
      cases hbuffer : (h.arrayBuffer (.object view.buffer)).get? with
      | none =>
        simp only [hbuffer] at ha
        exact absurd ha Bool.false_ne_true
      | some b => simp [hbuffer]

/-- A typed array with its buffer: the name is read when it has been released. -/
theorem convertView_spoils {value : JSValue} {forceFree : Bool} {view : View}
    {nameCstr : Option CString} {data : Addr} {s t : Rt}
    (hfreed : ∀ c, nameCstr = some c → ∃ es, t.trace = s.trace ++ es ∧ Event.freeC c.ref ∈ es) :
    wp (convertView value forceFree view (nameCstr, some data)) t (fun _ u => Grown Spoiled s u)
      (fun e u => Grown Spoiled s u ∨ e ≠ .depth) := by
  cases nameCstr with
  | none => exact .inr (fun h => nomatch h)
  | some c =>
    obtain ⟨es, hes, hmem⟩ := hfreed c rfl
    have hread : Grown Spoiled s (t.log [.readC c.ref]) := by
      refine ⟨es ++ [.readC c.ref], by rw [Rt.log_trace, hes, List.append_assoc], c.ref, ?_⟩
      exact (List.singleton_sublist.mpr hmem).append (List.Sublist.refl [Event.readC c.ref])
    have hmore : ∀ more, Grown Spoiled s ((t.log [.readC c.ref]).log more) := fun more =>
      hread.after persists_spoiled ⟨more, rfl⟩
    simp only [convertView, wp_bind, wp_stdString_some]
    cases elemOfName (cstr c.bytes) with
    | none =>
      rw [fromJsText, wp_bind, wp_freeIf]
      exact hmore _
    | some e =>
      simp only [readElements, wp_bind, wp_pure, wp_readBytes]
      split
      · exact hmore _
      · exact .inl (hmore _)

/-- **A mishandled value** is read too late, or left with an exception. -/
theorem fromJs_mishandles {v : JSVal} (harr : ¬h.ArrayLike v) (hv : h.mishandles v = true)
    (n : Nat) (r : RefId) (forceFree : Bool) (s : Rt) (hs : s.heap = h) :
    wp (fromJs (n + 1) ⟨v, r⟩ forceFree) s (fun _ t => Grown Spoiled s t)
      (fun e t => Grown Spoiled s t ∨ e ≠ .depth) := by
  subst hs
  cases herror : s.heap.isError v with
  | true =>
    -- an Error is mishandled when its name is NULL
    have haborts : s.heap.aborts v = true := by
      simpa [Heap.aborts, Heap.mishandles, herror] using hv
    refine wp_mono (fromJs_leaf harr n r forceFree rfl) ?_ ?_
    · exact fun _ _ hno => absurd (Blocked.leaf harr haborts) hno
    · exact fun _ _ he => .inr he.1
  | false =>
    cases hview : s.heap.view v with
    | throws e => simp [Heap.mishandles, herror, hview, Outcome.get?] at hv
    | exception => simp [Heap.mishandles, herror, hview, Outcome.get?] at hv
    | value view =>
      obtain ⟨a, rfl, hcls, hdetached⟩ : ∃ a, v = .object a ∧
          (s.heap.obj a).cls = .typedArray view ∧ view.detached ≠ true := by
        cases v with
        | object a =>
          simp only [Heap.view] at hview
          split at hview
          next view' hcls =>
            split at hview
            next => exact absurd hview (by simp)
            next hdet =>
              obtain rfl : view' = view := by simpa using hview
              exact ⟨a, rfl, hcls, hdet⟩
          next => exact absurd hview (by simp)
        | _ => exact absurd hview (by simp [Heap.view])
      have hbuffer : (s.heap.arrayBuffer (.object view.buffer)).get?.isSome = true := by
        simpa [Heap.mishandles, herror, hview, Outcome.get?] using hv
      obtain ⟨data, hdata⟩ := Option.isSome_iff_exists.mp hbuffer
      obtain ⟨c, t, hprobe, -⟩ := probeView_ok ⟨.object a, r⟩ forceFree
        ⟨.object view.buffer, s.fresh⟩ (s.owned (.object view.buffer))
      have hfrees := wp_of_ok (probeView_frees ⟨.object a, r⟩ forceFree
        ⟨.object view.buffer, s.fresh⟩ (s.owned (.object view.buffer))) hprobe
      rw [wp_fromJs_typedArray rfl hcls, if_neg hdetached, wp_fromJsView hprobe]
      simp only [Rt.owned_heap, hdata]
      -- the name has been freed by the time it is compared
      refine convertView_spoils fun c' hc' => ?_
      obtain ⟨es, hes, hmem⟩ := hfrees c' hc'
      refine ⟨JSValue.events ⟨.object view.buffer, s.fresh⟩ .acquire ++ es, ?_,
        List.mem_append_right _ hmem⟩
      rw [hes, Rt.owned_trace, List.append_assoc]

/-! ## Exactly once -/

/-- However `from_js` of the value ends, its trace is clean, or, where only the
bound on its depth has stopped it, orderly so far. -/
def Releases (h : Heap) (v : JSVal) : Prop :=
  ∀ (n : Nat) (r : RefId) (forceFree : Bool) (s : Rt), s.heap = h → r < s.fresh →
    wp (fromJs n ⟨v, r⟩ forceFree) s
      (fun _ t => ∃ es, t.trace = s.trace ++ es ∧ Clean ⟨v, r⟩ forceFree es)
      (fun e t => e = .depth ∧ ∃ es, t.trace = s.trace ++ es ∧ Orderly ⟨v, r⟩ forceFree es)

/-- The value comes to nothing that is mishandled. -/
def HandlesAll (h : Heap) (v : JSVal) : Prop := ¬Meets h (fun w => h.mishandles w = true) v

theorem releases_of_handlesAll {v : JSVal} (hv : HandlesAll h v) : Releases h v := by
  intro n r forceFree s hs hr
  have htakes := takes_fromJs bookkeeping_clean n v r forceFree hv s hs (held_handed hr)
  have hleaf : ∀ w, ¬h.ArrayLike w → ∀ (n : Nat) (r : RefId) (forceFree : Bool) (s : Rt),
      s.heap = h → wp (fromJs (n + 1) ⟨w, r⟩ forceFree) s (fun _ _ => True)
        (fun e _ => e ≠ .depth → h.mishandles w = true) := by
    intro w hw n r forceFree s hs
    refine wp_mono (fromJs_leaf hw n r forceFree hs) (fun _ _ _ => trivial) ?_
    exact fun e _ he _ => mishandles_of_aborts ((blocked_leaf_iff hw).mp he.2)
  have hstop := meets_of_stop (P := (· ≠ .depth)) (not_not.mpr rfl) hleaf n v r forceFree s hs
  refine wp_mono (wp_and htakes hstop) ?_ ?_
  · intro _ t ht
    obtain ⟨-, es, hes, hA⟩ := ht.1
    exact ⟨es, hes, clean_of_exact hr hA⟩
  · intro e t ht
    obtain ⟨o, es, hes, hA⟩ := ht.1
    exact ⟨not_not.mp fun he => hv (ht.2 he), es, hes, orderly_of_exact hr hA⟩

/-- No run of it spoils a C string, or is left with an exception. -/
theorem Releases.not_spoiled {v : JSVal} (hv : Releases h v) {n : Nat}
    (hrun : ∀ s : Rt, s.heap = h → wp (fromJs n ⟨v, 0⟩ false) s (fun _ t => Grown Spoiled s t)
      (fun e t => Grown Spoiled s t ∨ e ≠ .depth)) : False := by
  let s : Rt := ⟨h, .uninitialized, [], 1⟩
  have hboth := wp_and (hrun s rfl) (hv n 0 false s rfl Nat.zero_lt_one)
  have hno : wp (fromJs n ⟨v, 0⟩ false) s (fun _ _ => False) (fun _ _ => False) := by
    refine wp_mono hboth ?_ ?_
    · intro _ t ht
      obtain ⟨⟨es, hes, hspoiled⟩, fs, hfs, hclean⟩ := ht
      obtain rfl : es = fs := List.append_cancel_left (hes.symm.trans hfs)
      exact hclean.toOrderly.not_spoiled hspoiled
    · intro e t ht
      obtain ⟨hbad, hdepth, fs, hfs, horderly⟩ := ht
      rcases hbad with ⟨es, hes, hspoiled⟩ | hne
      · obtain rfl : es = fs := List.append_cancel_left (hes.symm.trans hfs)
        exact horderly.not_spoiled hspoiled
      · exact hne hdepth
  obtain ⟨_, _, _, hfalse⟩ := exists_ok_of_wp hno
  exact hfalse

/-- **Everything is released exactly once, and nothing is read after its
release**, exactly when `from_js` comes to no typed array with its buffer and to
no Error without a name. -/
theorem releases_iff (h : Heap) (v : JSVal) : Releases h v ↔ HandlesAll h v := by
  constructor
  · intro hall hm
    obtain ⟨N, hN⟩ := meets_run persists_spoiled
      (fun w hw hbad n r forceFree s hs => fromJs_mishandles hw hbad n r forceFree s hs) hm
    exact hall.not_spoiled (hN N (Nat.le_refl N) 0 false)
  · exact releases_of_handlesAll

/-- A `Uint8Array` of two bytes. -/
theorem releases_fails : ¬∀ (h : Heap) (v : JSVal), Releases h v := by
  intro hall
  have hv := hall (.withTypedArray .uint8 (ascii "Uint8Array")) (.object 12)
  exact hv.not_spoiled (n := 1) fun s hs =>
    fromJs_mishandles (by decide) (by decide) 0 0 false s hs

end Ejr
