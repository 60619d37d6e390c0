import Ejr.Answers
import Ejr.Footprint
import Ejr.Engine.Context

/-!
# How deep `from_js` goes

`from_js` follows the elements of arrays with neither a depth counter nor a set
of the objects it has seen. How far it goes is a property of the heap: from an
array it visits one element after another (`Visits`), up to the first that
contains something it aborts on with a C++ exception (`Blocked`).

`fromJs_spec` is the one induction over the depth: however a call ends, unless
the bound of the model has stopped it, the visits from its argument are
well founded, and it has aborted exactly when something blocked it. With the
converse (`fromJs_reaches`) the depth is bounded exactly when the visits are
well founded (`terminates_iff`): an array that contains itself has no bound.
-/

namespace Ejr

open Lib

/-! ## The heap as `from_js` walks it -/

/-- The conversion of a value that is no array is aborted by a C++ exception,
or runs out of a buffer: an Error whose name is undefined or has no text, a
typed array whose constructor has no name or too wide a one. To run out of a
buffer is undefined behaviour: the read usually goes on with what lies behind it,
and nothing is said about what comes then; here it ends like an exception. -/
def Heap.aborts (h : Heap) (v : JSVal) : Bool :=
  if h.isError v then (h.errorText (h.property v (ascii "name"))).isNone
  else
    match (h.view v).get? with
    | none => false
    | some view =>
      match (h.arrayBuffer (.object view.buffer)).get?, (h.constructorName v).get? with
      | none, _ => false
      | some _, none => true
      | some b, some u =>
        match elemOfName (cstr (toCStringLen u)) with
        | some e =>
          !decide (view.offset + view.length / view.cls.size * e.size ≤ (h.data b).length)
        | none => false

/-- A part that aborts the conversion stands somewhere in the value. -/
inductive Blocked (h : Heap) : JSVal → Prop where
  | leaf {v : JSVal} : ¬h.ArrayLike v → h.aborts v = true → Blocked h v
  | elem {v : JSVal} {i : Nat} : h.ArrayLike v → i < h.arrayLength v →
      Blocked h (h.element v i) → Blocked h v

/-- `w` is an element of the array `v` with nothing blocked before it. -/
def Visits (h : Heap) (w v : JSVal) : Prop :=
  h.ArrayLike v ∧ ∃ i < h.arrayLength v, w = h.element v i ∧
    ∀ j < i, ¬Blocked h (h.element v j)

theorem blocked_leaf_iff {h : Heap} {v : JSVal} (hv : ¬h.ArrayLike v) :
    Blocked h v ↔ h.aborts v = true := by
  constructor
  · intro hb
    cases hb with
    | leaf _ ha => exact ha
    | elem harr _ _ => exact absurd harr hv
  · exact .leaf hv

theorem acc_leaf {h : Heap} {v : JSVal} (hv : ¬h.ArrayLike v) : Acc (Visits h) v :=
  ⟨v, fun _ hw => absurd hw.1 hv⟩

/-! ## Values that are no arrays -/

/-- An answer that is missing exactly when `aborts` says so. -/
def AbortsIf (aborts : Bool) : Except Stop JSArg → Prop
  | .ok _ => aborts = false
  | .error e => e ≠ .depth ∧ aborts = true

/-- The answer is missing exactly for the values that abort. -/
theorem fromLeaf_abortsIf (h : Heap) (pending v : JSVal) :
    AbortsIf (h.aborts v) (h.fromLeaf pending v) := by
  have hlast : AbortsIf (h.aborts v) (h.fromRest v) := by
    unfold Heap.aborts Heap.fromRest
    cases h.isError v with
    | true =>
      -- a `name` that is no text makes a `std::string` of NULL
      simp only [if_true, Heap.fromError]
      cases h.errorText (h.property v (ascii "name")) <;> simp [AbortsIf]
    | false =>
      simp only [Bool.false_eq_true, if_false]
      cases (h.view v).get? with
      | none => rfl
      | some view =>
        simp only [Heap.fromView]
        cases (h.arrayBuffer (.object view.buffer)).get? with
        | none => rfl
        | some b =>
          cases (h.constructorName v).get? with
          | none => simp [AbortsIf]
          | some u =>
            simp only
            cases elemOfName (cstr (toCStringLen u)) with
            | none => rfl
            | some e =>
              simp only [Heap.elements]
              split <;> simp_all [AbortsIf]
  cases v with
  | uninitialized => exact hlast
  | shortBigInt n => exact hlast
  | bigInt n => exact hlast
  | symbol a => exact hlast
  | object a => exact hlast
  | nativeError e => exact hlast
  | _ => rfl

theorem fromJs_leaf {h : Heap} {v : JSVal} (hv : ¬h.ArrayLike v) (n : Nat) (r : RefId)
    (forceFree : Bool) {s : Rt} (hs : s.heap = h) :
    wp (fromJs (n + 1) ⟨v, r⟩ forceFree) s (fun _ _ => ¬Blocked h v)
      (fun e _ => e ≠ .depth ∧ Blocked h v) := by
  subst hs
  have harr : s.heap.isArray v = .value false := not_not.mp hv
  have hspec := fromLeaf_abortsIf s.heap s.pending v
  rw [blocked_leaf_iff hv]
  have hrun : Answers (fromJs (n + 1) ⟨v, r⟩ forceFree) s (s.heap.fromLeaf s.pending v) :=
    answers_fromJs n harr
  refine wp_mono hrun ?_ ?_
  · intro a t ht
    obtain ⟨ha, -⟩ := ht
    rw [ha] at hspec
    simpa [AbortsIf] using hspec
  · intro e t he
    rw [he] at hspec
    exact hspec

/-! ## Arrays -/

theorem admits_all (lo : Nat) : Admits (fun _ _ => True) lo :=
  ⟨fun _ _ => trivial, fun _ _ _ _ => trivial, fun _ _ => trivial, fun _ _ => trivial,
    fun _ _ => trivial⟩

/-- Whatever is converted, the trace grows and the heap is left as it was. -/
theorem fromJs_emits (n : Nat) (value : JSValue) (forceFree : Bool) (s : Rt) :
    wp (fromJs n value forceFree) s (fun _ t => Emits (fun _ _ => True) s t)
      (fun _ t => Emits (fun _ _ => True) s t) := by
  refine wp_mono (leaves_fromJs (fun _ _ _ _ => trivial) n 0 value forceFree (admits_all 0)
    (fun _ _ _ _ _ => trivial) s (Nat.zero_le _)) ?_ ?_
  · exact fun _ t ht => ht.1
  · exact fun _ t ht => ht

theorem fromJs_heap (n : Nat) (value : JSValue) (forceFree : Bool) (s : Rt) :
    wp (fromJs n value forceFree) s (fun _ t => t.heap = s.heap) (fun _ t => t.heap = s.heap) :=
  wp_mono (fromJs_emits n value forceFree s) (fun _ _ h => h.heap) (fun _ _ h => h.heap)

/-- The loop over the elements, when each conversion that comes through gives
`A` of its index and each that is stopped gives `B`. -/
theorem fromJsElems_spec {h : Heap} {rec : JSValue → Bool → EngineM JSArg} (value : JSValue)
    {A : Nat → Prop} {B : Nat → Stop → Prop}
    (hrec : ∀ j r (s : Rt), s.heap = h → wp (rec ⟨h.element value.val j, r⟩ true) s
      (fun _ t => t.heap = h ∧ A j) (fun e _ => B j e)) :
    ∀ (n i : Nat) (s : Rt), s.heap = h → wp (fromJsElems rec value i n) s
      (fun _ _ => ∀ j, i ≤ j → j < i + n → A j)
      (fun e _ => ∃ k, i ≤ k ∧ k < i + n ∧ B k e ∧ ∀ j, i ≤ j → j < k → A j)
  | 0, i, s, _ => fun j h1 h2 => absurd h1 (by omega)
  | n + 1, i, s, hs => by
    simp only [fromJsElems, wp_bind, wp_jsGetPropertyUint32, wp_pure, hs]
    refine wp_mono (hrec i _ _ (by simpa using hs)) ?_ ?_
    · intro a t hat
      obtain ⟨ht, hA⟩ := hat
      refine wp_mono (fromJsElems_spec value hrec n (i + 1) t ht) ?_ ?_
      · intro vec u hall j h1 h2
        rcases Nat.eq_or_lt_of_le h1 with rfl | h1
        · exact hA
        · exact hall j h1 (by omega)
      · intro e u hu
        obtain ⟨k, h1, h2, hB, hall⟩ := hu
        refine ⟨k, by omega, by omega, hB, fun j h3 h4 => ?_⟩
        rcases Nat.eq_or_lt_of_le h3 with rfl | h3
        · exact hA
        · exact hall j h3 h4
    · intro e t hB
      exact ⟨i, Nat.le_refl _, by omega, hB, fun j h3 h4 => absurd h3 (by omega)⟩

/-- The loop is not stopped by the bound when no conversion it reaches is. -/
theorem fromJsElems_reaches {h : Heap} {rec : JSValue → Bool → EngineM JSArg} (value : JSValue)
    {A : Nat → Prop} {len : Nat}
    (hrec : ∀ j < len, (∀ k < j, A k) → ∀ r (s : Rt), s.heap = h →
      wp (rec ⟨h.element value.val j, r⟩ true) s (fun _ t => t.heap = h ∧ A j)
        (fun e _ => e ≠ .depth)) :
    ∀ (n i : Nat) (s : Rt), i + n = len → (∀ k < i, A k) → s.heap = h →
      wp (fromJsElems rec value i n) s (fun _ _ => True) (fun e _ => e ≠ .depth)
  | 0, i, s, _, _, _ => trivial
  | n + 1, i, s, hlen, hA, hs => by
    simp only [fromJsElems, wp_bind, wp_jsGetPropertyUint32, wp_pure, hs]
    refine wp_mono (hrec i (by omega) hA _ _ (by simpa using hs)) ?_ (fun _ _ he => he)
    intro a t hat
    obtain ⟨ht, hAi⟩ := hat
    refine fromJsElems_reaches value hrec n (i + 1) t (by omega) (fun k hk => ?_) ht
    rcases Nat.lt_succ_iff_lt_or_eq.mp hk with hk | rfl
    · exact hA k hk
    · exact hAi

/-! ## Bounded depth is well-foundedness -/

/-- **One induction over the depth**: unless its bound stops it, a call ends
over well-founded visits, and is aborted exactly when something blocks it. -/
theorem fromJs_spec (h : Heap) : ∀ (n : Nat) (v : JSVal) (r : RefId) (forceFree : Bool) (s : Rt),
    s.heap = h → wp (fromJs n ⟨v, r⟩ forceFree) s
      (fun _ _ => Acc (Visits h) v ∧ ¬Blocked h v)
      (fun e _ => e = .depth ∨ Acc (Visits h) v ∧ Blocked h v)
  | 0, v, r, forceFree, s, _ => .inl rfl
  | n + 1, v, r, forceFree, s, hs => by
    by_cases hv : h.ArrayLike v
    · refine wp_fromJs_array hs hv fun t ht => ?_
      have hrec : ∀ j r' (s : Rt), s.heap = h → wp (fromJs n ⟨h.element v j, r'⟩ true) s
          (fun _ t => t.heap = h ∧ Acc (Visits h) (h.element v j) ∧ ¬Blocked h (h.element v j))
          (fun e _ => e = .depth ∨ Acc (Visits h) (h.element v j) ∧ Blocked h (h.element v j)) := by
        intro j r' s hs
        refine wp_mono (wp_and (fromJs_heap n _ _ s) (fromJs_spec h n _ r' true s hs)) ?_ ?_
        · intro a t hat
          obtain ⟨ht, hend⟩ := hat
          exact ⟨ht.trans hs, hend⟩
        · intro e t ht
          obtain ⟨-, hend⟩ := ht
          exact hend
      refine wp_mono (fromJsElems_spec ⟨v, r⟩ hrec (h.arrayLength v) 0 t ht) ?_ ?_
      · intro vec u hall
        have hall' : ∀ j < h.arrayLength v, Acc (Visits h) (h.element v j) ∧
            ¬Blocked h (h.element v j) := fun j hj => hall j (Nat.zero_le _) (by omega)
        refine ⟨⟨v, ?_⟩, ?_⟩
        · intro w hw
          obtain ⟨-, i, hi, rfl, -⟩ := hw
          exact (hall' i hi).1
        · intro hb
          cases hb with
          | leaf hleaf _ => exact hleaf hv
          | elem _ hi hb => exact (hall' _ hi).2 hb
      · intro e u hu
        obtain ⟨k, -, hk, he | ⟨hacc, hb⟩, hall⟩ := hu
        · exact .inl he
        · -- blocked at element `k`: those behind it are never visited
          refine .inr ⟨⟨v, ?_⟩, .elem hv (by omega) hb⟩
          intro w hw
          obtain ⟨-, i, hi, rfl, hmin⟩ := hw
          rcases Nat.lt_trichotomy i k with hik | rfl | hik
          · exact (hall i (Nat.zero_le _) hik).1
          · exact hacc
          · exact absurd hb (hmin k hik)
    · refine wp_mono (fromJs_leaf hv n r forceFree hs) ?_ ?_
      · exact fun a t hb => ⟨acc_leaf hv, hb⟩
      · exact fun e t he => .inr ⟨acc_leaf hv, he.2⟩

/-- Finitely many bounds have a common one. -/
theorem exists_common_bound {P : Nat → Nat → Prop} : ∀ {len : Nat},
    (∀ i < len, ∃ n, ∀ m ≥ n, P i m) → ∃ n, ∀ i < len, ∀ m ≥ n, P i m
  | 0, _ => ⟨0, fun i hi => absurd hi (by omega)⟩
  | len + 1, h => by
    obtain ⟨n1, h1⟩ := exists_common_bound fun i (hi : i < len) => h i (by omega)
    obtain ⟨n2, h2⟩ := h len (by omega)
    refine ⟨max n1 n2, fun i hi m hm => ?_⟩
    rcases Nat.lt_succ_iff_lt_or_eq.mp hi with hi | rfl
    · exact h1 i hi m (by omega)
    · exact h2 m (by omega)

/-- Over well-founded visits some depth is enough. -/
theorem fromJs_reaches {h : Heap} {v : JSVal} (hacc : Acc (Visits h) v) :
    ∃ n, ∀ m ≥ n, ∀ (r : RefId) (forceFree : Bool) (s : Rt), s.heap = h →
      wp (fromJs m ⟨v, r⟩ forceFree) s (fun _ _ => True) (fun e _ => e ≠ .depth) := by
  induction hacc with
  | intro v _ ih =>
    by_cases hv : h.ArrayLike v
    · have hbound : ∃ n, ∀ i < h.arrayLength v, ∀ m ≥ n, (∀ j < i, ¬Blocked h (h.element v j)) →
          ∀ (r : RefId) (forceFree : Bool) (s : Rt), s.heap = h →
            wp (fromJs m ⟨h.element v i, r⟩ forceFree) s (fun _ _ => True)
              (fun e _ => e ≠ .depth) := by
        refine exists_common_bound fun i hi => ?_
        -- only the elements before the first blocked one are visited
        by_cases hmin : ∀ j < i, ¬Blocked h (h.element v j)
        · obtain ⟨n, hn⟩ := ih (h.element v i) ⟨hv, i, hi, rfl, hmin⟩
          exact ⟨n, fun m hm _ => hn m hm⟩
        · exact ⟨0, fun m _ hmin' => absurd hmin' hmin⟩
      obtain ⟨n, hn⟩ := hbound
      refine ⟨n + 1, fun m hm r forceFree s hs => ?_⟩
      obtain ⟨m, rfl⟩ : ∃ k, m = k + 1 := ⟨m - 1, by omega⟩
      refine wp_fromJs_array hs hv fun t ht => ?_
      refine fromJsElems_reaches ⟨v, r⟩ (A := fun j => ¬Blocked h (h.element v j)) ?_
        (h.arrayLength v) 0 t (Nat.zero_add _) (fun k hk => absurd hk (by omega)) ht
      intro j hj hmin r' s' hs'
      have hdepth := hn j hj m (by omega) hmin r' true s' hs'
      refine wp_mono (wp_and hdepth (wp_and (fromJs_heap m ⟨h.element v j, r'⟩ true s')
        (fromJs_spec h m (h.element v j) r' true s' hs'))) ?_ ?_
      · intro a t hat
        obtain ⟨-, ht, -, hb⟩ := hat
        exact ⟨ht.trans hs', hb⟩
      · intro e t ht
        obtain ⟨he, -⟩ := ht
        exact he
    · refine ⟨1, fun m hm r forceFree s hs => ?_⟩
      obtain ⟨m, rfl⟩ : ∃ k, m = k + 1 := ⟨m - 1, by omega⟩
      exact wp_mono (fromJs_leaf hv m r forceFree hs) (fun _ _ _ => trivial) (fun e _ he => he.1)

/-- There is a bound on the recursion depth of `from_js` of `v`. -/
def Terminates (h : Heap) (v : JSVal) : Prop :=
  ∃ n, ∀ (r : RefId) (forceFree : Bool) (s : Rt), s.heap = h →
    wp (fromJs n ⟨v, r⟩ forceFree) s (fun _ _ => True) (fun e _ => e ≠ .depth)

theorem acc_of_terminates {h : Heap} {v : JSVal} (hterm : Terminates h v) : Acc (Visits h) v := by
  obtain ⟨n, hn⟩ := hterm
  have hrun := wp_and (hn 0 true ⟨h, .uninitialized, [], 0⟩ rfl)
    (fromJs_spec h n v 0 true ⟨h, .uninitialized, [], 0⟩ rfl)
  unfold wp at hrun
  split at hrun
  next => exact hrun.2.1
  next => exact (hrun.2.resolve_left hrun.1).1

/-- **`from_js` ends** exactly when no endless chain of arrays, each an element
of the one before that nothing blocks, leads away from its argument. -/
theorem terminates_iff (h : Heap) (v : JSVal) : Terminates h v ↔ Acc (Visits h) v := by
  constructor
  · exact acc_of_terminates
  · intro hacc
    obtain ⟨n, hn⟩ := fromJs_reaches hacc
    exact ⟨n, hn n (Nat.le_refl _)⟩

/-- A context in which the array at 12 has itself as its only element. -/
def Heap.withSelfArray : Heap :=
  Heap.initial.set 12 (Obj.setIndex { Obj.plain with cls := .array 0 } 0 (.object 12))

/-- An array that contains itself is followed for ever. -/
theorem terminates_fails : ¬∀ (h : Heap) (v : JSVal), Terminates h v := by
  intro hall
  have hself : Visits .withSelfArray (.object 12) (.object 12) := by
    refine ⟨?_, 0, ?_, rfl, fun j hj => absurd hj (by omega)⟩
    · decide
    · decide
  have hacc := acc_of_terminates (hall .withSelfArray (.object 12))
  have hloop : ∀ v, Acc (Visits .withSelfArray) v → v ≠ .object 12 := by
    intro v hv
    induction hv with
    | intro v _ ih =>
      rintro rfl
      exact ih (.object 12) hself rfl
  exact hloop _ hacc rfl

end Ejr
