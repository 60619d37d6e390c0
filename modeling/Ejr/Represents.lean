import Ejr.ToJs
import Ejr.Engine.Context

/-!
# Arguments as JavaScript values

`Rep h dom a v`: in the heap `h`, the value `v` is what `to_js` makes of the
argument `a`, and every object that says so is in `dom`. Objects outside `dom`
may change (`rep_frame`); that is how the elements of an array stay what they
are while the array is still being filled. `makes_of_portable`: `to_js` of an
argument of the kinds below returns such a value and changes no older object.
-/

namespace Ejr

open Lib

/-! ## The arguments that come back -/

/-- Well-formed UTF-8 without NUL. -/
def Utf8z (s : Bytes) : Prop := NulFree s ∧ ValidUtf8 s

/-- An `int`, a `bool`, a string, a typed array of at most 2 GB or an exception,
with text that C strings and UTF-8 can carry. -/
def JSArg.PortableLeaf : JSArg → Prop
  | .int _ | .bool _ => True
  | .string s => Utf8z s
  | .typedArray a => a.values.length * a.elem.size ≤ 2 ^ 31 - 1
  | .exception msg name => Utf8z msg ∧ Utf8z name
  | _ => False

/-- Built from such parts and arrays of fewer than 2^32 elements, to any depth. -/
def JSArg.Portable (a : JSArg) : Prop :=
  a.All JSArg.PortableLeaf fun items => items.length < 2 ^ 32

/-! ## Representation -/

/-- `v` represents an argument that is no array. -/
def RepLeaf (h : Heap) (dom : Addr → Prop) (v : JSVal) : JSArg → Prop
  | .int i => v = .int i
  | .bool b => v = .bool b
  | .string s => v = .string (newString s)
  | .exception msg name => ∃ x, dom x ∧ v = .object x ∧ (h.obj x).cls = .error ∧
      (h.obj x).named (newString (ascii "message")) = .value (.string (newString msg)) ∧
      (h.obj x).named (newString (ascii "name")) = .value (.string (newString name))
  | .typedArray a => ∃ x view c, dom x ∧ v = .object x ∧ (h.obj x).cls = .typedArray view ∧
      view.cls = a.elem.cls ∧ view.offset = 0 ∧ view.length = a.bytes.length ∧
      view.detached = false ∧
      dom view.buffer ∧ (h.obj view.buffer).cls = .arrayBuffer (some a.bytes) ∧
      dom c ∧ (h.obj x).named (newString (ascii "constructor")) = .value (.object c) ∧
      h.named (.object c) (newString (ascii "name")) =
        .value (.string (newString a.elem.cls.name))
  | _ => False

mutual

/-- `v` represents the argument, by objects in `dom`. -/
def Rep (h : Heap) (dom : Addr → Prop) : JSArg → JSVal → Prop
  | .array items, v => ∃ x, dom x ∧ v = .object x ∧ (h.obj x).cls = .array items.length ∧
      RepItems h dom (h.obj x).indexed 0 items
  | a, v => RepLeaf h dom v a

/-- What is read from index `i` on represents the elements. -/
def RepItems (h : Heap) (dom : Addr → Prop) (read : Nat → Outcome JSVal) :
    Nat → List JSArg → Prop
  | _, [] => True
  | i, a :: rest => (∃ w, read i = .value w ∧ Rep h dom a w) ∧ RepItems h dom read (i + 1) rest

end

theorem rep_of_leaf {h : Heap} {dom : Addr → Prop} {a : JSArg} {v : JSVal}
    (ha : ∀ items, a ≠ .array items) : Rep h dom a v ↔ RepLeaf h dom v a := by
  cases a with
  | array items => exact absurd rfl (ha items)
  | _ => exact Iff.rfl

/-! ## Framing -/

theorem repItems_mono {h h' : Heap} {dom dom' : Addr → Prop} {read read' : Nat → Outcome JSVal} :
    ∀ {i : Nat} {items : List JSArg},
      (∀ a ∈ items, ∀ v, Rep h dom a v → Rep h' dom' a v) →
      (∀ j, i ≤ j → j < i + items.length → read' j = read j) →
      RepItems h dom read i items → RepItems h' dom' read' i items
  | _, [], _, _, _ => trivial
  | i, a :: rest, hrep, hread, ⟨⟨w, hw, ha⟩, hrest⟩ => by
    simp only [List.length_cons] at hread
    refine ⟨⟨w, (hread i (Nat.le_refl _) (by omega)).trans hw,
      hrep a (List.mem_cons_self ..) w ha⟩, ?_⟩
    refine repItems_mono (fun b hb => hrep b (List.mem_cons_of_mem _ hb)) ?_ hrest
    intro j h1 h2
    exact hread j (by omega) (by omega)

theorem named_congr {h h' : Heap} {c : Addr} (hc : h'.obj c = h.obj c) (k : JSString) :
    h'.named (.object c) k = h.named (.object c) k := by
  simp only [Heap.named, hc]

/-- Only the objects in `dom` matter. -/
theorem rep_frame {h h' : Heap} {dom dom' : Addr → Prop}
    (hobj : ∀ x, dom x → h'.obj x = h.obj x) (hdom : ∀ x, dom x → dom' x) :
    ∀ (a : JSArg) (v : JSVal), Rep h dom a v → Rep h' dom' a v := by
  intro a
  induction a using JSArg.induct with
  | leaf a ha =>
    intro v hv
    rw [rep_of_leaf ha] at hv ⊢
    cases a with
    | exception msg name =>
      obtain ⟨x, hx, hval, hcls, hmsg, hname⟩ := hv
      exact ⟨x, hdom x hx, hval, by rw [hobj x hx, hcls], by rw [hobj x hx, hmsg],
        by rw [hobj x hx, hname]⟩
    | typedArray a =>
      obtain ⟨x, view, c, hx, hval, hcls, h1, h2, h3, h4, hb, hdata, hc, hcon, hname⟩ := hv
      exact ⟨x, view, c, hdom x hx, hval, by rw [hobj x hx, hcls], h1, h2, h3, h4, hdom _ hb,
        by rw [hobj _ hb, hdata], hdom c hc, by rw [hobj x hx, hcon],
        by rw [named_congr (hobj c hc), hname]⟩
    | _ => exact hv
  | array items ih =>
    intro v hv
    obtain ⟨x, hx, hval, hcls, hitems⟩ := hv
    refine ⟨x, hdom x hx, hval, by rw [hobj x hx, hcls], ?_⟩
    rw [hobj x hx]
    exact repItems_mono ih (fun _ _ _ => rfl) hitems

/-! ## Growing heaps -/

/-- `h'` has more objects than `h`; the old ones, those in `but` aside, and the
prototypes are the same. -/
structure Heap.Grows (but : Addr → Prop) (h h' : Heap) : Prop where
  next : h.next ≤ h'.next
  obj : ∀ x : Nat, x < h.next → ¬but x → h'.obj x = h.obj x
  protoNamed : h'.protoNamed = h.protoNamed

theorem Heap.Grows.refl (but : Addr → Prop) (h : Heap) : h.Grows but h :=
  ⟨Nat.le_refl _, fun _ _ _ => rfl, rfl⟩

theorem Heap.Grows.trans {but : Addr → Prop} {h₁ h₂ h₃ : Heap} (h : h₁.Grows but h₂)
    (h' : h₂.Grows but h₃) : h₁.Grows but h₃ where
  next := Nat.le_trans h.next h'.next
  obj x hx hbut := by
    rw [h'.obj x (Nat.lt_of_lt_of_le hx h.next) hbut, h.obj x hx hbut]
  protoNamed := h'.protoNamed.trans h.protoNamed

/-- More objects may be left out of the account. -/
theorem Heap.Grows.mono {but but' : Addr → Prop} {h h' : Heap} (hg : h.Grows but h')
    (hle : ∀ x < h.next, but x → but' x) : h.Grows but' h' :=
  ⟨hg.next, fun x hx hbut => hg.obj x hx fun hb => hbut (hle x hx hb), hg.protoNamed⟩

theorem Heap.grows_alloc (but : Addr → Prop) (h : Heap) (p : Proto) (cls : JSClass) :
    h.Grows but (h.alloc p cls) where
  next := Nat.le_succ _
  obj _ hx _ := h.alloc_obj_of_ne p cls (Nat.ne_of_lt hx)
  protoNamed := rfl

theorem Heap.grows_update {but : Addr → Prop} (h : Heap) {a : Addr} (ha : but a) (f : Obj → Obj) :
    h.Grows but (h.update (.object a) f) where
  next := Nat.le_of_eq (h.update_next _ _).symm
  obj _ _ hbut := h.update_obj_of_ne f fun hxa => hbut (hxa ▸ ha)
  protoNamed := h.update_protoNamed _ _

/-- The typed array constructors lie below every new object. -/
theorem Constructors.grows {but : Addr → Prop} {h h' : Heap} {base : Nat}
    (hc : Constructors h base) (hg : h.Grows but h') (hbase : base ≤ h.next)
    (hbut : ∀ x < base, ¬but x) : Constructors h' base := by
  intro cls
  obtain ⟨c, hlt, hcon, hname⟩ := hc cls
  refine ⟨c, hlt, by rw [hg.protoNamed, hcon], ?_⟩
  rw [named_congr (hg.obj c (Nat.lt_of_lt_of_le hlt hbase) (hbut c hlt)), hname]

/-! ## What `to_js` makes -/

/-- Addresses below `base`, and from `lo` up to `hi`. -/
def Within (base lo hi x : Nat) : Prop := x < base ∨ lo ≤ x ∧ x < hi

theorem Within.lt {base lo hi x : Nat} (hx : Within base lo hi x) (hb : base ≤ hi) : x < hi := by
  rcases hx with h | h <;> omega

theorem Within.ne {base lo hi x p : Nat} (hx : Within base lo hi x) (hb : base ≤ p) (hp : p < lo) :
    x ≠ p := by
  rcases hx with h | h <;> omega

theorem Within.mono {base lo lo' hi hi' x : Nat} (hx : Within base lo hi x) (hlo : lo' ≤ lo)
    (hhi : hi ≤ hi') : Within base lo' hi' x := by
  rcases hx with h | h
  · exact Or.inl h
  · exact Or.inr (by omega)

/-- Run on the argument, `to_js` returns a value that represents it, by new
objects and those below `base`, and leaves the others alone. -/
def Makes (base : Nat) (a : JSArg) : Prop :=
  ∀ s : Rt, base ≤ s.heap.next → Constructors s.heap base →
    wp (toJs a) s (fun v t => Rep t.heap (Within base s.heap.next t.heap.next) a v.val ∧
      s.heap.Grows (fun _ => False) t.heap) (fun _ _ => False)

theorem makes_own {base : Nat} {a : JSArg} {v : JSVal} (ha : toJs a = own v)
    (hv : ∀ h dom, Rep h dom a v) : Makes base a := by
  intro s _ _
  rw [ha, wp_own]
  exact ⟨hv _ _, Heap.Grows.refl _ _⟩

theorem makes_exception {base : Nat} (msg name : Bytes) : Makes base (.exception msg name) := by
  intro s _ _
  have hkeys : newString (ascii "message") ≠ newString (ascii "name") := by decide +kernel
  simp only [toJs, wp_bind, wp_jsNewString, jsNewError, wp_alloc, wp_jsSetPropertyStr, wp_pure,
    Rt.owned_heap]
  refine ⟨⟨s.heap.next, Or.inr ⟨Nat.le_refl _, ?_⟩, rfl, ?_, ?_, ?_⟩, ?_⟩
  · simp
  · simp [Obj.setNamed]
  · simp [Obj.setNamed, hkeys]
  · simp [Obj.setNamed]
  · -- both assignments are to the new object
    refine ⟨by simp, ?_, by simp⟩
    intro x hx _
    have hne : x ≠ s.heap.next := Nat.ne_of_lt hx
    rw [Heap.update_obj_of_ne _ _ hne, Heap.update_obj_of_ne _ _ hne, Heap.alloc_obj_of_ne _ _ _ hne]

theorem length_bytes (a : JSArgTypedArray) : a.bytes.length = a.values.length * a.elem.size := by
  have hlen : ∀ x ∈ a.values.map fun v => bytesOfNat a.elem.size v.toNat,
      x.length = a.elem.size := by
    intro x hx
    obtain ⟨v, -, rfl⟩ := List.mem_map.mp hx
    exact length_bytesOfNat _ _
  rw [JSArgTypedArray.bytes, length_flatten_of_forall hlen, List.length_map]

theorem makes_typedArray {base : Nat} {a : JSArgTypedArray}
    (ha : a.values.length * a.elem.size ≤ 2 ^ 31 - 1) : Makes base (.typedArray a) := by
  intro s hbase hcon
  have hlen := length_bytes a
  have hwhole : a.elem.cls.size ∣ a.bytes.length := by
    rw [hlen, Elem.size_cls]
    exact Nat.dvd_mul_left _ _
  obtain ⟨c, hc, hproto, hname⟩ := hcon a.elem.cls
  have hbuffer : ((s.heap.alloc .arrayBuffer (.arrayBuffer (some a.bytes))).obj s.heap.next).cls =
      .arrayBuffer (some a.bytes) := by rw [Heap.alloc_obj_self]
  simp only [toJs, createJsArrayTyped, wp_bind]
  rw [wp_jsNewArrayBufferCopy (by omega), wp_alloc, wp_jsNewTypedArray hbuffer hwhole, wp_alloc]
  simp only [wp_jsFreeValue, wp_pure, Rt.owned_heap, Rt.log_heap, Heap.alloc_next]
  -- the buffer first, then the view on all of it
  generalize hh1 : s.heap.alloc .arrayBuffer (.arrayBuffer (some a.bytes)) = h1 at hbuffer ⊢
  have hnext1 : h1.next = s.heap.next + 1 := by rw [← hh1]; rfl
  have hgrows1 : s.heap.Grows (fun _ => False) h1 := hh1 ▸ s.heap.grows_alloc _ _ _
  have hgrows := hgrows1.trans (h1.grows_alloc (fun _ => False) (.typedArray a.elem.cls)
    (.typedArray ⟨a.elem.cls, s.heap.next, 0, a.bytes.length, false, hwhole⟩))
  refine ⟨⟨h1.next, _, c, Or.inr ⟨?_, ?_⟩, by rw [hnext1], by rw [Heap.alloc_obj_self], rfl, rfl,
    rfl, rfl, Or.inr ⟨?_, ?_⟩, ?_, Or.inl hc, ?_, ?_⟩, hgrows⟩
  · omega
  · omega
  · exact Nat.le_refl _
  · show s.heap.next < s.heap.next + 1 + 1
    omega
  · show ((h1.alloc _ _).obj s.heap.next).cls = _
    rw [Heap.alloc_obj_of_ne _ _ _ (by rw [hnext1]; exact Nat.ne_of_lt (Nat.lt_succ_self _)),
      hbuffer]
  · rw [Heap.alloc_obj_self]
    show h1.protoNamed _ _ = _
    rw [hgrows1.protoNamed, hproto]
  · rw [named_congr (hgrows.obj c (by omega) (fun h => h)), hname]

/-- The next element is stored in the array at `p`. -/
theorem Heap.update_setIndex {h h' : Heap} {p i : Nat} (hgrows : h.Grows (fun _ => False) h')
    (hp : p < h.next) (hcls : (h.obj p).cls = .array i) (hi : i + 1 < 2 ^ 32) (v : JSVal) :
    h.Grows (· = p) (h'.update (.object p) (·.setIndex i v)) ∧
      (h'.update (.object p) (·.setIndex i v)).obj p = (h.obj p).setIndex i v ∧
      ((h'.update (.object p) (·.setIndex i v)).obj p).cls = .array (i + 1) := by
  have hset : h'.Grows (· = p) (h'.update (.object p) (·.setIndex i v)) :=
    @Heap.grows_update (· = p) h' p rfl _
  have hobj : (h'.update (.object p) (·.setIndex i v)).obj p = (h.obj p).setIndex i v := by
    rw [Heap.update_obj_self, hgrows.obj p hp fun h => h]
  refine ⟨(hgrows.mono fun _ _ h => h.elim).trans hset, hobj, ?_⟩
  rw [hobj]
  simp only [Obj.setIndex, hcls]
  rw [if_pos hi, Nat.max_eq_right (Nat.le_succ i)]

/-- The loop: the array at `p` has its elements from index `i` on. -/
theorem makes_items {base p : Nat} {r : RefId} (hp : base ≤ p) : ∀ (items : List JSArg)
    (_ : ∀ a ∈ items, Makes base a) (i : Nat) (s : Rt), i + items.length < 2 ^ 32 →
    p < s.heap.next → Constructors s.heap base → (s.heap.obj p).cls = .array i →
    wp (toJsItems ⟨.object p, r⟩ i items) s (fun _ t => s.heap.Grows (· = p) t.heap ∧
      (t.heap.obj p).cls = .array (i + items.length) ∧
      (∀ j < i, (t.heap.obj p).indexed j = (s.heap.obj p).indexed j) ∧
      RepItems t.heap (Within base (p + 1) t.heap.next) (t.heap.obj p).indexed i items)
      (fun _ _ => False)
  | [], _, i, s, _, _, _, hcls => by
    rw [toJsItems, wp_pure]
    exact ⟨Heap.Grows.refl _ _, hcls, fun _ _ => rfl, trivial⟩
  | a :: rest, hitems, i, s, hlen, hps, hcon, hcls => by
    rw [List.length_cons] at hlen
    simp only [toJsItems, wp_bind, wp_jsSetPropertyUint32]
    refine wp_mono (hitems a (List.mem_cons_self ..) s (Nat.le_trans hp (Nat.le_of_lt hps)) hcon) ?_
      (fun _ _ h => h)
    intro v s1 hs1
    obtain ⟨hrep, hgrows1⟩ := hs1
    rw [Nat.mod_eq_of_lt (by omega)]
    obtain ⟨hgrows2, hobj2, hcls2⟩ := Heap.update_setIndex hgrows1 hps hcls (by omega) v.val
    generalize hh2 : s1.heap.update (.object p) (·.setIndex i v.val) = h2 at hgrows2 hobj2 hcls2 ⊢
    have hnext2 : h2.next = s1.heap.next := by rw [← hh2, Heap.update_next]
    have hcon2 : Constructors h2 base := by
      refine hcon.grows hgrows2 (by omega) fun x hx hxp => ?_
      exact Nat.lt_irrefl p (Nat.lt_of_lt_of_le (hxp ▸ hx) hp)
    refine wp_mono (makes_items hp rest (fun b hb => hitems b (List.mem_cons_of_mem _ hb)) (i + 1)
      { s1.log (v.events .give) with heap := h2 } (by omega)
      (Nat.lt_of_lt_of_le hps hgrows2.next) hcon2 hcls2) ?_ (fun _ _ h => h)
    intro _ t ht
    obtain ⟨hgrows3, hcls3, hold, hrest⟩ := ht
    have hnext3 : s1.heap.next ≤ t.heap.next := hnext2 ▸ hgrows3.next
    have hnext1 := hgrows1.next
    refine ⟨hgrows2.trans hgrows3, ?_, ?_, ⟨v.val, ?_, ?_⟩, hrest⟩
    · rw [hcls3, List.length_cons]
      congr 1
      omega
    · intro j hj
      rw [hold j (by omega)]
      show (h2.obj p).indexed j = _
      rw [hobj2]
      exact if_neg (by omega)
    · rw [hold i (by omega)]
      show (h2.obj p).indexed i = _
      rw [hobj2]
      exact if_pos rfl
    · -- the element's objects are neither the array nor new since
      refine rep_frame ?_ ?_ a v.val hrep
      · intro x hx
        have hxp : x ≠ p := hx.ne hp hps
        rw [hgrows3.obj x (hnext2.symm ▸ hx.lt (by omega)) hxp]
        show h2.obj x = _
        rw [← hh2, Heap.update_obj_of_ne _ _ hxp]
      · intro x hx
        exact hx.mono hps hnext3

theorem makes_array {base : Nat} {items : List JSArg} (hlen : items.length < 2 ^ 32)
    (hitems : ∀ a ∈ items, Makes base a) : Makes base (.array items) := by
  intro s hbase hcon
  simp only [toJs, wp_bind, jsNewArray, wp_alloc, wp_pure]
  have hgrows := s.heap.grows_alloc (fun _ => False) .array (.array 0)
  refine wp_mono (makes_items hbase items hitems 0 (Rt.owned { s with
    heap := s.heap.alloc .array (.array 0) } (.object s.heap.next)) (by omega) (by simp)
    (hcon.grows hgrows hbase fun _ _ h => h) (by simp)) ?_ (fun _ _ h => h)
  intro _ t ht
  obtain ⟨hgrows1, hcls, -, hrep⟩ := ht
  have hlt : s.heap.next < t.heap.next := hgrows1.next
  refine ⟨⟨s.heap.next, Or.inr ⟨Nat.le_refl _, hlt⟩, rfl, ?_, ?_⟩, ?_⟩
  · rw [hcls, Nat.zero_add]
  · refine repItems_mono (fun a _ => rep_frame (fun _ _ => rfl) ?_ a) (fun _ _ _ => rfl) hrep
    intro x hx
    exact hx.mono (Nat.le_succ _) (Nat.le_refl _)
  · refine ⟨Nat.le_of_lt hlt, ?_, hgrows1.protoNamed⟩
    intro x hx _
    rw [hgrows1.obj x (Nat.lt_succ_of_lt hx) (Nat.ne_of_lt hx)]
    exact Heap.alloc_obj_of_ne _ _ _ (Nat.ne_of_lt hx)

/-- **`to_js` makes a value that represents its argument.** -/
theorem makes_of_portable {base : Nat} {a : JSArg} : a.Portable → Makes base a := by
  induction a using JSArg.induct with
  | leaf a hleaf =>
    intro ha
    cases a with
    | array items => exact absurd rfl (hleaf items)
    | int i => exact makes_own (by simp [toJs]) fun _ _ => rfl
    | bool b => exact makes_own (by simp [toJs]) fun _ _ => rfl
    | string s => exact makes_own (by simp [toJs, jsNewString]) fun _ _ => rfl
    | exception msg name => exact makes_exception msg name
    | typedArray a => exact makes_typedArray ha
    | _ => exact ha.elim
  | array items ih =>
    intro ha
    obtain ⟨hlen, hitems⟩ := ha
    rw [JSArg.allItems_iff] at hitems
    exact makes_array hlen fun a ha => ih a ha (hitems a ha)

end Ejr
