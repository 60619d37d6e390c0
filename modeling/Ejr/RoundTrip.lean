import Ejr.Represents
import Ejr.Recursion

/-!
# `to_js`, then `from_js`

Two halves that meet at `Rep`. `to_js` makes a value that represents its
argument (`makes_of_portable`); `from_js` of a value that represents an
argument gives that argument back (`fromJs_rep`), because no earlier test of
its chain captures the value: a typed array is neither an array nor an Error,
and the name its constructor is found under is the one of its own element type
(`elemOfName_name`).
-/

namespace Ejr

open Lib

/-! ## Parts that are no arrays -/

/-- An object of another class than an array or a proxy is no array. -/
theorem isArray_of_cls {h : Heap} {x : Addr} (harr : ∀ n, (h.obj x).cls ≠ .array n)
    (hproxy : ∀ t, (h.obj x).cls ≠ .proxy t) : h.isArray (.object x) = .value false := by
  have hresolve : h.resolveProxy 1001 (.object x) = .value (.object x) := by
    cases hc : (h.obj x).cls with
    | proxy t => exact absurd hc (hproxy t)
    | _ => simp only [Heap.resolveProxy, hc]
  unfold Heap.isArray
  rw [hresolve]
  cases hc : (h.obj x).cls with
  | array n => exact absurd hc (harr n)
  | _ => simp only [Outcome.bind, hc]

/-- Except of arrays' `length`, named properties are the object's own. -/
theorem named_of_cls {h : Heap} {x : Addr} (harr : ∀ n, (h.obj x).cls ≠ .array n) (k : JSString) :
    h.named (.object x) k = (h.obj x).named k := by
  cases hc : (h.obj x).cls with
  | array n => exact absurd hc (harr n)
  | _ => simp only [Heap.named, hc]

theorem Utf8z.stable {s : Bytes} (hs : Utf8z s) : cstr (toCStringLen (newString s)) = s :=
  stable_of_validUtf8 hs.1 hs.2

/-- The constructor's name is the engine's name for the element type. -/
theorem elemOfName_name (t : Elem) :
    elemOfName (cstr (toCStringLen (newString t.cls.name))) = some t := by
  cases t <;> decide +kernel

/-- The elements, read back from their memory. -/
theorem pieces_bytes (a : JSArgTypedArray) :
    (pieces a.elem.size a.values.length a.bytes).map (fun p => BitVec.ofNat _ (natOfBytes p)) =
      a.values := by
  have hlen : ∀ x ∈ a.values.map fun v => bytesOfNat a.elem.size v.toNat,
      x.length = a.elem.size := by
    intro x hx
    obtain ⟨v, -, rfl⟩ := List.mem_map.mp hx
    exact length_bytesOfNat _ _
  have hpieces := pieces_flatten (a.values.map fun v => bytesOfNat a.elem.size v.toNat) [] hlen
  rw [List.append_nil, List.length_map] at hpieces
  rw [JSArgTypedArray.bytes, hpieces, List.map_map]
  refine (List.map_congr_left fun v _ => ?_).trans (List.map_id _)
  have hfits : v.toNat < 256 ^ a.elem.size := by
    calc v.toNat < 2 ^ (8 * a.elem.size) := v.isLt
      _ = 256 ^ a.elem.size := by rw [Nat.pow_mul]
  show BitVec.ofNat _ (natOfBytes (bytesOfNat a.elem.size v.toNat)) = v
  rw [natOfBytes_bytesOfNat hfits, BitVec.ofNat_toNat, BitVec.setWidth_eq]

theorem elements_bytes {h : Heap} {b : Addr} {a : JSArgTypedArray}
    (hdata : (h.obj b).cls = .arrayBuffer (some a.bytes)) :
    h.elements b 0 (a.bytes.length / a.elem.cls.size) a.elem = .ok (.typedArray a) := by
  have hlen := length_bytes a
  have hcount : a.bytes.length / a.elem.cls.size = a.values.length := by
    rw [hlen, Elem.size_cls, Nat.mul_div_cancel _ a.elem.size_pos]
  have hbytes : h.data b = a.bytes := by simp only [Heap.data, hdata]
  rw [Heap.elements, hbytes, hcount, if_pos (by omega), List.drop_zero,
    List.take_of_length_le (by omega), pieces_bytes]

/-- What a value that represents a part is answered with. -/
theorem fromLeaf_rep {h : Heap} {dom : Addr → Prop} {v pending : JSVal} {a : JSArg}
    (ha : a.PortableLeaf) (hv : RepLeaf h dom v a) :
    h.isArray v = .value false ∧ h.fromLeaf pending v = .ok a := by
  cases a with
  | int i => exact ⟨by rw [hv]; rfl, by rw [hv]; rfl⟩
  | bool b => exact ⟨by rw [hv]; rfl, by rw [hv]; rfl⟩
  | string s =>
    refine ⟨by rw [hv]; rfl, ?_⟩
    rw [hv]
    exact congrArg (fun u => Except.ok (JSArg.string u)) (Utf8z.stable ha)
  | exception msg name =>
    obtain ⟨x, -, rfl, hcls, hmsg, hname⟩ := hv
    have harr : ∀ n, (h.obj x).cls ≠ .array n := by simp [hcls]
    refine ⟨isArray_of_cls harr (by simp [hcls]), ?_⟩
    have hpmsg : h.property (.object x) (ascii "message") = .string (newString msg) := by
      rw [Heap.property, named_of_cls harr, hmsg]
      rfl
    have hpname : h.property (.object x) (ascii "name") = .string (newString name) := by
      rw [Heap.property, named_of_cls harr, hname]
      rfl
    have herr : h.isError (.object x) = true := by simp only [Heap.isError, hcls]
    show h.fromRest (.object x) = _
    rw [Heap.fromRest, if_pos herr, Heap.fromError, hpmsg, hpname]
    -- both texts go through the engine and come back
    show Except.ok (JSArg.exception (cstr (toCStringLen (newString msg)))
      (cstr (toCStringLen (newString name)))) = _
    rw [Utf8z.stable ha.1, Utf8z.stable ha.2]
  | typedArray a =>
    obtain ⟨x, view, c, -, rfl, hcls, hvcls, hoff, hvlen, hdet, -, hdata, -, hcon, hname⟩ := hv
    have harr : ∀ n, (h.obj x).cls ≠ .array n := by simp [hcls]
    refine ⟨isArray_of_cls harr (by simp [hcls]), ?_⟩
    have herr : h.isError (.object x) = false := by simp only [Heap.isError, hcls]
    have hview : h.view (.object x) = .value view := by simp [Heap.view, hcls, hdet]
    have hbuf : h.arrayBuffer (.object view.buffer) = .value view.buffer := by
      simp only [Heap.arrayBuffer, hdata]
    -- the constructor is found on the prototype, under its own name
    have hpcon : h.property (.object x) (ascii "constructor") = .object c := by
      rw [Heap.property, named_of_cls harr, hcon]
      rfl
    have hcname : h.constructorName (.object x) = .value (newString a.elem.cls.name) := by
      rw [Heap.constructorName, hpcon, Heap.property, hname]
      rfl
    show h.fromRest (.object x) = _
    rw [Heap.fromRest, if_neg (by simp [herr]), hview]
    show h.fromView (.object x) view = _
    rw [Heap.fromView, hbuf, hcname]
    simp only [Outcome.get?_value, elemOfName_name]
    rw [hoff, hvlen, hvcls]
    exact elements_bytes hdata
  | _ => exact ha.elim

/-! ## Arrays -/

/-- The length read from an array the engine has made. -/
theorem arrayLength_of_cls {h : Heap} {x : Addr} {n : Nat} (hcls : (h.obj x).cls = .array n)
    (hn : n < 2 ^ 32) : h.arrayLength (.object x) = n := by
  have hkey : newString (ascii "length") = units "length" := by decide +kernel
  have hprop : h.property (.object x) (ascii "length") = newUint32 n := by
    simp only [Heap.property, Heap.named, hcls, hkey, if_true, Outcome.get?_value,
      Option.getD_some]
  have htrunc : (h.number (newUint32 n)).get?.map Double.trunc = some (n : Int) := by
    unfold newUint32
    split
    next hlt =>
      simp [Heap.number, JSVal.isObject, Heap.primNumber, Double.trunc, Int32.toInt_ofNat_of_lt hlt]
    next hge => simp [Heap.number, JSVal.isObject, Heap.primNumber, Double.trunc]
  have hmap : (h.number (newUint32 n)).get?.map (fun d => (Int32.ofInt d.trunc).toUInt32) =
      ((h.number (newUint32 n)).get?.map Double.trunc).map fun i => (Int32.ofInt i).toUInt32 := by
    rw [Option.map_map]
    rfl
  rw [Heap.arrayLength, hprop, hmap, htrunc]
  show (BitVec.ofInt 32 (n : Int)).toNat = n
  rw [BitVec.ofInt_natCast, BitVec.toNat_ofNat, Nat.mod_eq_of_lt hn]

theorem isArray_of_array {h : Heap} {x : Addr} {n : Nat} (hcls : (h.obj x).cls = .array n) :
    h.isArray (.object x) = .value true := by
  simp [Heap.isArray, Heap.resolveProxy, hcls, Outcome.bind]

/-- The loop reads back what is represented from index `i` on. -/
theorem fromJsElems_rep {h : Heap} {dom : Addr → Prop} {rec : JSValue → Bool → EngineM JSArg}
    {x : Addr} {r : RefId} : ∀ (items : List JSArg) (i : Nat) (s : Rt), s.heap = h →
    (∀ a ∈ items, ∀ w r (s : Rt), Rep h dom a w → s.heap = h →
      wp (rec ⟨w, r⟩ true) s (fun b t => b = a ∧ t.heap = h) (fun _ _ => False)) →
    RepItems h dom (h.obj x).indexed i items →
    wp (fromJsElems rec ⟨.object x, r⟩ i items.length) s (fun vec _ => vec = items)
      (fun _ _ => False)
  | [], _, _, _, _, _ => rfl
  | a :: rest, i, s, hs, hrec, ⟨⟨w, hw, ha⟩, hrest⟩ => by
    have helem : h.element (.object x) i = w := by
      show ((h.obj x).indexed i).get?.getD .exception = w
      rw [hw]
      rfl
    simp only [List.length_cons, fromJsElems, wp_bind, wp_jsGetPropertyUint32, wp_pure, hs, helem]
    refine wp_mono (hrec a (List.mem_cons_self ..) w _ _ ha (by simpa using hs)) ?_
      (fun _ _ h => h)
    intro b t hb
    obtain ⟨rfl, ht⟩ := hb
    refine wp_mono (fromJsElems_rep rest (i + 1) t ht
      (fun a ha => hrec a (List.mem_cons_of_mem _ ha)) hrest) ?_ (fun _ _ h => h)
    intro vec _ hvec
    rw [hvec]

/-- **`from_js` of a value that represents an argument is that argument.** -/
theorem fromJs_rep {h : Heap} {dom : Addr → Prop} : ∀ (a : JSArg), a.Portable →
    ∀ (v : JSVal) (r : RefId) (forceFree : Bool) (n : Nat) (s : Rt), Rep h dom a v →
      a.depth < n → s.heap = h →
      wp (fromJs n ⟨v, r⟩ forceFree) s (fun b t => b = a ∧ t.heap = h) (fun _ _ => False) := by
  intro a
  induction a using JSArg.induct with
  | leaf a hleaf =>
    intro ha v r forceFree n s hv hn hs
    subst hs
    obtain ⟨n, rfl⟩ : ∃ m, n = m + 1 := ⟨n - 1, by omega⟩
    have hportable : a.PortableLeaf := by
      cases a with
      | array items => exact absurd rfl (hleaf items)
      | _ => exact ha
    obtain ⟨harr, hans⟩ : s.heap.isArray v = .value false ∧ s.heap.fromLeaf s.pending v = .ok a :=
      fromLeaf_rep hportable ((rep_of_leaf hleaf).mp hv)
    refine wp_mono (answers_fromJs n harr) ?_ ?_
    · intro b t hb
      rw [hans] at hb
      exact ⟨(Except.ok.inj hb.1).symm, hb.2⟩
    · intro e t he
      rw [hans] at he
      exact absurd he (by simp)
  | array items ih =>
    intro ha v r forceFree n s hv hn hs
    obtain ⟨n, rfl⟩ : ∃ m, n = m + 1 := ⟨n - 1, by omega⟩
    obtain ⟨x, -, rfl, hcls, hitems⟩ := hv
    obtain ⟨hlen, hall⟩ := ha
    rw [JSArg.allItems_iff] at hall
    have hdepth : JSArg.depthItems items + 1 < n + 1 := hn
    have harr : h.ArrayLike (.object x) := by
      rw [Heap.ArrayLike, isArray_of_array hcls]
      simp
    have hloop : wp (fromJs (n + 1) ⟨.object x, r⟩ forceFree) s (fun b _ => b = .array items)
        (fun _ _ => False) := by
      refine wp_fromJs_array hs harr fun t ht => ?_
      rw [arrayLength_of_cls hcls hlen]
      refine wp_mono (fromJsElems_rep items 0 t ht ?_ hitems) ?_ (fun _ _ h => h)
      · -- an element is one level less deep
        intro a ha w r s hw hs
        have := JSArg.depth_le_of_mem ha
        exact ih a ha (hall a ha) w r true n s hw (by omega) hs
      · intro vec _ hvec
        rw [hvec]
    refine wp_mono (wp_and hloop (fromJs_heap (n + 1) ⟨.object x, r⟩ forceFree s)) ?_
      (fun _ _ h => h.1)
    exact fun b t hb => ⟨hb.1, hb.2.trans hs⟩

/-! ## There and back -/

/-- **The round trip**: sent to JavaScript and back, with either value of
`force_free`, a portable argument is the same argument. -/
theorem round_trip (a : JSArg) (ha : a.Portable) (s : Rt) (hs : Pristine s.heap) (forceFree : Bool)
    (n : Nat) (hn : a.depth < n) :
    ∃ t, (do let v ← toJs a; fromJs n v forceFree : EngineM JSArg) s = .ok a t := by
  have hrun : wp (do let v ← toJs a; fromJs n v forceFree) s (fun b _ => b = a)
      (fun _ _ => False) := by
    rw [wp_bind]
    refine wp_mono (makes_of_portable ha s (Nat.le_refl _) hs) ?_ (fun _ _ h => h)
    intro v t ht
    refine wp_mono (fromJs_rep a ha v.val v.ref forceFree n t ht.1 hn rfl) ?_ (fun _ _ h => h)
    exact fun b _ hb => hb.1
  obtain ⟨b, t, hok, rfl⟩ := exists_ok_of_wp hrun
  exact ⟨t, hok⟩

/-- An array of a typed array and an array with an exception in it, in a new context. -/
theorem round_trip_nested : ∃ t,
    (do
      let v ← toJs (.array [.typedArray ⟨.int16, [-2, 0x1234]⟩,
        .array [.exception (ascii "m") (ascii "n"), .int 7]])
      fromJs 3 v true : EngineM JSArg) .initial =
      .ok (.array [.typedArray ⟨.int16, [-2, 0x1234]⟩,
        .array [.exception (ascii "m") (ascii "n"), .int 7]]) t := by
  have hm : Utf8z (ascii "m") := ⟨by decide +kernel, ['m'], by decide +kernel⟩
  have hn : Utf8z (ascii "n") := ⟨by decide +kernel, ['n'], by decide +kernel⟩
  have hbytes : (JSArg.typedArray ⟨.int16, [-2, 0x1234]⟩).PortableLeaf :=
    show 2 * 2 ≤ 2 ^ 31 - 1 by omega
  exact round_trip (.array [.typedArray ⟨.int16, [-2, 0x1234]⟩,
    .array [.exception (ascii "m") (ascii "n"), .int 7]])
    ⟨by simp, hbytes, ⟨by simp, ⟨hm, hn⟩, trivial, trivial⟩, trivial⟩ .initial pristine_initial
    true 3 (by decide)

end Ejr
