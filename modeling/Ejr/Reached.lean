import Ejr.Recursion

/-!
# What a conversion comes to

`from_js` goes through an array element by element and does not come to the ones
behind an element it does not come back from. `Meets h bad v` says that, starting
from `v`, it comes to a value that is no array and is `bad`.

Two lemmas make this exact. What the conversion of a bad value leaves in the
trace, or ends in, is there for the whole conversion (`meets_run`); and a whole
conversion ends badly only if it has come to a value that does
(`meets_of_stop`).
-/

namespace Ejr

open Lib

/-- `from_js` comes back from the value. -/
def ComesBack (h : Heap) (v : JSVal) : Prop := Acc (Visits h) v ∧ ¬Blocked h v

/-- `from_js` of the value comes to a bad one. -/
inductive Meets (h : Heap) (bad : JSVal → Prop) : JSVal → Prop where
  | leaf {v : JSVal} : ¬h.ArrayLike v → bad v → Meets h bad v
  | elem {v : JSVal} {i : Nat} : h.ArrayLike v → i < h.arrayLength v →
      (∀ j < i, ComesBack h (h.element v j)) → Meets h bad (h.element v i) → Meets h bad v

theorem meets_leaf_iff {h : Heap} {bad : JSVal → Prop} {v : JSVal} (hv : ¬h.ArrayLike v) :
    Meets h bad v ↔ bad v := by
  constructor
  · intro hm
    cases hm with
    | leaf _ hb => exact hb
    | elem harr _ _ _ => exact absurd harr hv
  · exact .leaf hv

/-! ## Traces -/

/-- From `s` to `t` the trace has grown by events in `Q`. -/
def Grown (Q : List Event → Prop) (s t : Rt) : Prop := ∃ es, t.trace = s.trace ++ es ∧ Q es

/-- More events before and after do not matter. -/
def Persists (Q : List Event → Prop) : Prop :=
  ∀ before es after, Q es → Q (before ++ es ++ after)

section

variable {Q : List Event → Prop} {s t u : Rt}

theorem Grown.before (hQ : Persists Q) (hst : ∃ es, t.trace = s.trace ++ es) (h : Grown Q t u) :
    Grown Q s u := by
  obtain ⟨before, hbefore⟩ := hst
  obtain ⟨es, hes, hq⟩ := h
  refine ⟨before ++ es, by rw [hes, hbefore, List.append_assoc], ?_⟩
  have h := hQ before es [] hq
  rwa [List.append_nil] at h

theorem Grown.after (hQ : Persists Q) (h : Grown Q s t) (htu : ∃ es, u.trace = t.trace ++ es) :
    Grown Q s u := by
  obtain ⟨es, hes, hq⟩ := h
  obtain ⟨after, hafter⟩ := htu
  exact ⟨es ++ after, by rw [hafter, hes, List.append_assoc], hQ [] es after hq⟩

end

theorem Emits.grows {P : Nat → Event → Prop} {s t : Rt} (h : Emits P s t) :
    ∃ es, t.trace = s.trace ++ es := by
  obtain ⟨es, hes, -⟩ := h.trace
  exact ⟨es, hes⟩

/-- Elements that are converted. -/
theorem fromJsElems_emits (n i len : Nat) (value : JSValue) (s : Rt) :
    wp (fromJsElems (fromJs n) value i len) s (fun _ t => Emits (fun _ _ => True) s t)
      (fun _ t => Emits (fun _ _ => True) s t) := by
  have hrec : ∀ elem : JSValue, 0 ≤ elem.ref →
      Leaves (fun _ _ => True) (elem.ref + 1) (fun _ => True) (fromJs n elem true) :=
    fun elem _ s _ => wp_mono (fromJs_emits n elem true s) (fun _ _ h => ⟨h, trivial⟩)
      (fun _ _ h => h)
  refine wp_mono (leaves_fromJsElems (admits_all 0) hrec i len 0 (Nat.le_refl 0) s
    (Nat.zero_le _)) ?_ (fun _ _ h => h)
  exact fun _ t ht => ht.1

/-- What is read from an array. -/
theorem wp_fromJsElems_succ {rec : JSValue → Bool → EngineM JSArg} {value : JSValue} {i n : Nat}
    {s : Rt} {Q : List JSArg → Rt → Prop} {X : Stop → Rt → Prop}
    (h : ∀ r t, t.heap = s.heap → (∃ es, t.trace = s.trace ++ es) →
      wp (rec ⟨s.heap.element value.val i, r⟩ true) t
        (fun arg u => wp (fromJsElems rec value (i + 1) n) u (fun vec w => Q (arg :: vec) w) X) X) :
    wp (fromJsElems rec value i (n + 1)) s Q X := by
  simp only [fromJsElems, wp_bind, wp_jsGetPropertyUint32, wp_pure]
  refine h _ _ (by simp) ?_
  rw [Rt.owned_trace, Rt.raise_trace]
  exact ⟨_, rfl⟩

/-! ## From a bad value on -/

variable {h : Heap} {bad : JSVal → Prop} {Q : List Event → Prop} {X : Stop → Prop}

/-- The loop over the elements, up to a bad one at `k` and beyond. -/
theorem fromJsElems_meets (hQ : Persists Q) {n k : Nat} {value : JSValue}
    (hbefore : ∀ j < k, ∀ r (s : Rt), s.heap = h → wp (fromJs n ⟨h.element value.val j, r⟩ true) s
      (fun _ _ => True) (fun _ _ => False))
    (hat : ∀ r (s : Rt), s.heap = h → wp (fromJs n ⟨h.element value.val k, r⟩ true) s
      (fun _ t => Grown Q s t) (fun e t => Grown Q s t ∨ X e)) :
    ∀ (len i : Nat) (s : Rt), i ≤ k → k < i + len → s.heap = h →
      wp (fromJsElems (fromJs n) value i len) s (fun _ t => Grown Q s t)
        (fun e t => Grown Q s t ∨ X e)
  | 0, _, _, h1, h2, _ => absurd h1 (by omega)
  | len + 1, i, s, h1, h2, hs => by
    apply wp_fromJsElems_succ
    intro r t ht hst
    rw [hs] at ht ⊢
    rcases Nat.eq_or_lt_of_le h1 with rfl | h1
    · -- the bad one: whatever follows only adds to the trace
      refine wp_mono (hat r t ht) ?_ ?_
      · intro arg u hu
        have hsu := hu.before hQ hst
        refine wp_mono (fromJsElems_emits n (i + 1) len value u) ?_ ?_
        · exact fun _ w hw => hsu.after hQ hw.grows
        · exact fun _ w hw => .inl (hsu.after hQ hw.grows)
      · intro e u hu
        exact hu.imp_left (Grown.before hQ hst)
    · -- an element before it comes back, and leaves the heap alone
      refine wp_mono (wp_and (hbefore i h1 r t ht) (fromJs_emits n _ true t)) ?_ ?_
      · intro arg u hu
        have htu := hu.2
        refine wp_mono (fromJsElems_meets hQ hbefore hat len (i + 1) u h1 (by omega)
          (htu.heap.trans ht)) ?_ ?_
        · exact fun _ w hw => (hw.before hQ htu.grows).before hQ hst
        · exact fun e w hw => hw.imp_left fun hw => (hw.before hQ htu.grows).before hQ hst
      · exact fun _ _ hu => hu.1.elim

/-- `from_js` comes back, from some depth on. -/
theorem ComesBack.run {v : JSVal} (hv : ComesBack h v) :
    ∃ N, ∀ n ≥ N, ∀ (r : RefId) (forceFree : Bool) (s : Rt), s.heap = h →
      wp (fromJs n ⟨v, r⟩ forceFree) s (fun _ _ => True) (fun _ _ => False) := by
  obtain ⟨N, hN⟩ := fromJs_reaches hv.1
  refine ⟨N, fun n hn r forceFree s hs => ?_⟩
  refine wp_mono (wp_and (hN n hn r forceFree s hs) (fromJs_spec h n v r forceFree s hs))
    (fun _ _ _ => trivial) ?_
  intro e t he
  rcases he.2 with hdepth | hblocked
  · exact he.1 hdepth
  · exact hv.2 hblocked.2

/-- **What a bad value does, the whole conversion does**, from some depth on:
leave events in `Q` in the trace, or stop with a reason in `X`. -/
theorem meets_run (hQ : Persists Q)
    (hbad : ∀ v, ¬h.ArrayLike v → bad v → ∀ (n : Nat) (r : RefId) (forceFree : Bool) (s : Rt),
      s.heap = h → wp (fromJs (n + 1) ⟨v, r⟩ forceFree) s (fun _ t => Grown Q s t)
        (fun e t => Grown Q s t ∨ X e)) {v : JSVal} (hm : Meets h bad v) :
    ∃ N, ∀ n ≥ N, ∀ (r : RefId) (forceFree : Bool) (s : Rt), s.heap = h →
      wp (fromJs n ⟨v, r⟩ forceFree) s (fun _ t => Grown Q s t)
        (fun e t => Grown Q s t ∨ X e) := by
  induction hm with
  | leaf hleaf hb =>
    refine ⟨1, fun n hn r forceFree s hs => ?_⟩
    obtain ⟨n, rfl⟩ : ∃ m, n = m + 1 := ⟨n - 1, by omega⟩
    exact hbad _ hleaf hb n r forceFree s hs
  | @elem v i harr hi hreturns _ ih =>
    obtain ⟨N, hN⟩ := ih
    obtain ⟨M, hM⟩ := exists_common_bound fun j (hj : j < i) => (hreturns j hj).run
    refine ⟨max N M + 1, fun n hn r forceFree s hs => ?_⟩
    obtain ⟨n, rfl⟩ : ∃ m, n = m + 1 := ⟨n - 1, by omega⟩
    refine wp_fromJs_array_log hs harr fun t ht hst => ?_
    have hloop : wp (fromJsElems (fromJs n) ⟨v, r⟩ 0 (h.arrayLength v)) t
        (fun _ u => Grown Q t u) (fun e u => Grown Q t u ∨ X e) :=
      fromJsElems_meets hQ (fun j hj r' s' hs' => hM j hj n (by omega) r' true s' hs')
        (fun r' s' hs' => hN n (by omega) r' true s' hs') _ 0 t (Nat.zero_le _) (by omega) ht
    refine wp_mono hloop ?_ ?_
    · exact fun _ u hu post => (hu.before hQ hst).after hQ ⟨post, rfl⟩
    · exact fun e u hu => hu.imp_left (Grown.before hQ hst)

/-- **A conversion is stopped, other than by the bound on its depth, only by a
value it has come to.** -/
theorem meets_of_stop {P : Stop → Prop} (hdepth : ¬P .depth)
    (hleaf : ∀ v, ¬h.ArrayLike v → ∀ (n : Nat) (r : RefId) (forceFree : Bool) (s : Rt),
      s.heap = h → wp (fromJs (n + 1) ⟨v, r⟩ forceFree) s (fun _ _ => True)
        (fun e _ => P e → bad v)) :
    ∀ (n : Nat) (v : JSVal) (r : RefId) (forceFree : Bool) (s : Rt), s.heap = h →
      wp (fromJs n ⟨v, r⟩ forceFree) s (fun _ _ => True) (fun e _ => P e → Meets h bad v)
  | 0, _, _, _, _, _ => fun hP => absurd hP hdepth
  | n + 1, v, r, forceFree, s, hs => by
    by_cases hv : h.ArrayLike v
    · refine wp_fromJs_array hs hv fun t ht => ?_
      have hrec : ∀ j r' (s : Rt), s.heap = h → wp (fromJs n ⟨h.element v j, r'⟩ true) s
          (fun _ t => t.heap = h ∧ ComesBack h (h.element v j))
          (fun e _ => P e → Meets h bad (h.element v j)) := by
        intro j r' s hs
        refine wp_mono (wp_and (wp_and (fromJs_heap n _ _ s) (fromJs_spec h n _ r' true s hs))
          (meets_of_stop hdepth hleaf n (h.element v j) r' true s hs)) ?_ ?_
        · exact fun a t hend => ⟨hend.1.1.trans hs, hend.1.2⟩
        · exact fun e t hend => hend.2
      refine wp_mono (fromJsElems_spec ⟨v, r⟩ hrec (h.arrayLength v) 0 t ht)
        (fun _ _ _ => trivial) ?_
      intro e u hend hP
      obtain ⟨k, -, hk, hmeets, hreturns⟩ := hend
      exact .elem hv (by omega) (fun j hj => hreturns j (Nat.zero_le _) hj) (hmeets hP)
    · refine wp_mono (hleaf v hv n r forceFree s hs) (fun _ _ h => h) ?_
      exact fun e t he hP => .leaf hv (he hP)

end Ejr
