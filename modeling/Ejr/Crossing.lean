import Ejr.RoundTrip
import Ejr.Settled
import Ejr.FreedReads

/-!
# What comes back of an argument

`to_js` and then `from_js`, for every argument. What comes back is `settle` of
it (`crossing`), so exactly the settled arguments come back as they were
(`crossing_iff`), and a second crossing changes nothing (`crossing_again`). The
value is nobody else's: a typed array with elements only comes back without
`force_free`, since with it the bytes are freed before they are read.

The two functions meet at `Reads h dom a v`: on every heap that has the objects
of `dom` as `h` has them, `from_js` of `v` is `a`. It is stated about the
function, so that framing is immediate (`Reads.frame`) and an array is read
when its elements are (`reads_array`).
-/

namespace Ejr

open Lib

/-! ## Values that are read as an argument -/

/-- On every heap that has the objects of `dom` as `h` has them, `from_js` of
`v` is `a`. -/
def Reads (h : Heap) (dom : Addr → Prop) (a : JSArg) (v : JSVal) : Prop :=
  ∀ s : Rt, (∀ x, dom x → s.heap.obj x = h.obj x) → ∀ (r : RefId) (forceFree : Bool) (n : Nat),
    a.depth < n → wp (fromJs n ⟨v, r⟩ forceFree) s (fun b _ => b = a) (fun _ _ => False)

section

variable {h h' : Heap} {dom dom' : Addr → Prop} {a : JSArg} {v : JSVal}

/-- Other objects may come and change. -/
theorem Reads.frame (hv : Reads h dom a v) (hobj : ∀ x, dom x → h'.obj x = h.obj x)
    (hdom : ∀ x, dom x → dom' x) : Reads h' dom' a v := by
  intro s hs
  exact hv s fun x hx => (hs x (hdom x hx)).trans (hobj x hx)

/-- A value that is no array is read by the answer it gets. -/
theorem reads_of_answers (hv : ∀ h' : Heap, (∀ x, dom x → h'.obj x = h.obj x) →
    h'.isArray v = .value false ∧ ∀ pending, h'.fromLeaf pending v = .ok a) : Reads h dom a v := by
  intro s hs r forceFree n hn
  obtain ⟨n, rfl⟩ : ∃ m, n = m + 1 := ⟨n - 1, by omega⟩
  obtain ⟨harr, hans⟩ := hv s.heap hs
  have hrun : Answers (fromJs (n + 1) ⟨v, r⟩ forceFree) s (s.heap.fromLeaf s.pending v) :=
    answers_fromJs n harr
  refine wp_mono hrun ?_ ?_
  · intro b t hb
    rw [hans] at hb
    exact (Except.ok.inj hb.1).symm
  · intro e t he
    rw [hans] at he
    exact absurd he (by simp)

/-- A value that is no object is read by its answer alone. -/
theorem reads_primitive (hv : ∀ x, v ≠ .object x)
    (hans : ∀ (h' : Heap) pending, h'.fromLeaf pending v = .ok a) : Reads h dom a v :=
  reads_of_answers fun h' _ => ⟨h'.isArray_of_not_object hv, hans h'⟩

/-- What represents a portable argument is read as it. -/
theorem Rep.reads (ha : a.Portable) (hv : Rep h dom a v) : Reads h dom a v := by
  intro s hs r forceFree n hn
  refine wp_mono (fromJs_rep a ha v r forceFree n s (rep_frame hs (fun _ h => h) a v hv) hn rfl) ?_
    (fun _ _ h => h)
  exact fun b _ hb => hb.1

/-- An Error with texts as message and name. -/
theorem reads_error {x : Addr} {msg name : JSString} (hx : dom x) (hcls : (h.obj x).cls = .error)
    (hmsg : (h.obj x).named (newString (ascii "message")) = .value (.string msg))
    (hname : (h.obj x).named (newString (ascii "name")) = .value (.string name)) :
    Reads h dom (.exception (cstr (toCStringLen msg)) (cstr (toCStringLen name))) (.object x) := by
  refine reads_of_answers fun h' hobj => ?_
  have hcls' : (h'.obj x).cls = .error := by rw [hobj x hx, hcls]
  have harr : ∀ n, (h'.obj x).cls ≠ .array n := by simp [hcls']
  refine ⟨isArray_of_cls harr (by simp [hcls']), fun pending => ?_⟩
  have hpmsg : h'.property (.object x) (ascii "message") = .string msg := by
    rw [Heap.property, named_of_cls harr, hobj x hx, hmsg]
    rfl
  have hpname : h'.property (.object x) (ascii "name") = .string name := by
    rw [Heap.property, named_of_cls harr, hobj x hx, hname]
    rfl
  have herr : h'.isError (.object x) = true := by simp only [Heap.isError, hcls']
  show h'.fromRest (.object x) = _
  rw [Heap.fromRest, if_pos herr, Heap.fromError, hpmsg, hpname]
  rfl

end

/-! ## Arrays -/

/-- What `read` gives from index `i` on is read as the elements. -/
def ReadsItems (h : Heap) (dom : Addr → Prop) (read : Nat → Outcome JSVal) :
    Nat → List JSArg → Prop
  | _, [] => True
  | i, a :: rest => (∃ w, read i = .value w ∧ Reads h dom a w) ∧ ReadsItems h dom read (i + 1) rest

section

variable {h h' : Heap} {dom dom' : Addr → Prop}

theorem ReadsItems.frame {read read' : Nat → Outcome JSVal}
    (hobj : ∀ x, dom x → h'.obj x = h.obj x) (hdom : ∀ x, dom x → dom' x) :
    ∀ {i : Nat} {items : List JSArg}, (∀ j, i ≤ j → read' j = read j) →
      ReadsItems h dom read i items → ReadsItems h' dom' read' i items
  | _, [], _, _ => trivial
  | i, a :: rest, hread, ⟨⟨w, hw, ha⟩, hrest⟩ =>
    ⟨⟨w, (hread i (Nat.le_refl _)).trans hw, ha.frame hobj hdom⟩,
      ReadsItems.frame hobj hdom (fun j hj => hread j (by omega)) hrest⟩

/-- The loop reads the elements from index `i` on. -/
theorem fromJsElems_reads {x : Addr} {r : RefId} {n : Nat} : ∀ (items : List JSArg) (i : Nat)
    (s : Rt), (∀ y, dom y → s.heap.obj y = h.obj y) → dom x → (∀ a ∈ items, a.depth < n) →
    ReadsItems h dom (h.obj x).indexed i items →
    wp (fromJsElems (fromJs n) ⟨.object x, r⟩ i items.length) s (fun vec _ => vec = items)
      (fun _ _ => False)
  | [], _, _, _, _, _, _ => rfl
  | a :: rest, i, s, hs, hx, hdepth, ⟨⟨w, hw, ha⟩, hrest⟩ => by
    have helem : s.heap.element (.object x) i = w := by
      show ((s.heap.obj x).indexed i).get?.getD .exception = w
      rw [hs x hx, hw]
      rfl
    obtain ⟨hda, hdrest⟩ := List.forall_mem_cons.mp hdepth
    simp only [List.length_cons, fromJsElems, wp_bind, wp_jsGetPropertyUint32, wp_pure, helem]
    generalize hs1 : Rt.owned _ w = s1
    have heap1 : s1.heap = s.heap := by rw [← hs1]; simp
    have hobj1 : ∀ y, dom y → s1.heap.obj y = h.obj y := fun y hy => by rw [heap1, hs y hy]
    refine wp_mono (wp_and (ha s1 hobj1 _ true n hda) (fromJs_heap n _ true s1)) ?_
      (fun _ _ h => h.1)
    intro b t hb
    obtain ⟨rfl, ht⟩ := hb
    refine wp_mono (fromJsElems_reads rest (i + 1) t (fun y hy => by rw [ht, hobj1 y hy]) hx hdrest
      hrest) ?_ (fun _ _ h => h)
    intro vec _ hvec
    rw [hvec]

/-- **An array is read when its elements are.** -/
theorem reads_array {x : Addr} {items : List JSArg} (hx : dom x)
    (hcls : (h.obj x).cls = .array items.length) (hlen : items.length < 2 ^ 32)
    (hitems : ReadsItems h dom (h.obj x).indexed 0 items) :
    Reads h dom (.array items) (.object x) := by
  intro s hs r forceFree n hn
  obtain ⟨n, rfl⟩ : ∃ m, n = m + 1 := ⟨n - 1, by omega⟩
  have hcls' : (s.heap.obj x).cls = .array items.length := by rw [hs x hx, hcls]
  have harr : s.heap.ArrayLike (.object x) := by
    rw [Heap.ArrayLike, isArray_of_array hcls']
    simp
  have hdepth : JSArg.depthItems items + 1 < n + 1 := hn
  refine wp_fromJs_array (Q := fun b => b = .array items) (X := fun _ => False) rfl harr ?_
  intro t ht
  rw [arrayLength_of_cls hcls' hlen]
  refine wp_mono (fromJsElems_reads items 0 t (fun y hy => by rw [ht, hs y hy]) hx (fun a ha => ?_)
    hitems) ?_ (fun _ _ h => h)
  · have := JSArg.depth_le_of_mem ha
    omega
  · intro vec _ hvec
    rw [hvec]

end

/-! ## What `to_js` makes -/

/-- Run on the argument, `to_js` returns a value that is read as what is left of
it, by new objects and those below `base`, and leaves the others alone. -/
def Sends (base : Nat) (a : JSArg) : Prop :=
  ∀ s : Rt, base ≤ s.heap.next → Constructors s.heap base →
    wp (toJs a) s (fun v t => Reads t.heap (Within base s.heap.next t.heap.next) a.settle v.val ∧
      s.heap.Grows (fun _ => False) t.heap) (fun _ _ => False)

theorem sends_own {base : Nat} {a : JSArg} {v : JSVal} (ha : toJs a = own v)
    (hv : ∀ x, v ≠ .object x) (hans : ∀ (h : Heap) pending, h.fromLeaf pending v = .ok a.settle) :
    Sends base a := by
  intro s _ _
  rw [ha, wp_own]
  exact ⟨reads_primitive hv hans, Heap.Grows.refl _ _⟩

/-- What is made of a portable argument is read as it. -/
theorem sends_of_portable {base : Nat} {a : JSArg} (ha : a.Portable) (hsettle : a.settle = a) :
    Sends base a := by
  intro s hbase hcon
  refine wp_mono (makes_of_portable ha s hbase hcon) ?_ (fun _ _ h => h)
  intro v t ht
  rw [hsettle]
  exact ⟨ht.1.reads ha, ht.2⟩

theorem sends_exception {base : Nat} (msg name : Bytes) : Sends base (.exception msg name) := by
  intro s hbase hcon
  refine wp_mono (makes_exception msg name s hbase hcon) ?_ (fun _ _ h => h)
  intro v t ht
  obtain ⟨⟨x, hx, hval, hcls, hmsg, hname⟩, hgrows⟩ := ht
  rw [hval]
  exact ⟨reads_error hx hcls hmsg hname, hgrows⟩

theorem trunc_natCast (n : Nat) : (Double.finite n).trunc = n := Int.tdiv_one n

/-- A number as the engine keeps it. -/
theorem fromLeaf_newUint32 (h : Heap) (pending : JSVal) (n : Nat) :
    h.fromLeaf pending (newUint32 n) = .ok (.int (Int32.ofInt n)) := by
  unfold newUint32
  split
  next hlt =>
    show Except.ok (JSArg.int (Int32.ofNat n)) = _
    rw [← Int32.ofInt_eq_ofNat]
  next =>
    show Except.ok (JSArg.int (Int32.ofInt (Double.finite n).trunc)) = _
    rw [trunc_natCast]

theorem trunc_intCast (n : Int) : (Double.finite n).trunc = n := Int.tdiv_one n

theorem fromLeaf_newInt64 (h : Heap) (pending : JSVal) (n : Int64) :
    h.fromLeaf pending (newInt64 n) = .ok (.int (Int32.ofInt (roundToDouble n.toInt))) := by
  unfold newInt64
  split
  next hsmall =>
    -- an `int32_t` is not rounded
    have hvalue : n.toInt = n.toInt32.toInt := (congrArg Int64.toInt hsmall).trans
      (Int32.toInt_toInt64 _)
    have hle := n.toInt32.toInt_lt
    have hge := n.toInt32.le_toInt
    rw [hvalue, roundToDouble_of_lt (by omega), Int32.ofInt_toInt]
    rfl
  next =>
    show Except.ok (JSArg.int (Int32.ofInt (Double.finite (roundToDouble n.toInt)).trunc)) = _
    rw [trunc_intCast]

/-- The loop: the array at `p` has its elements from index `i` on. -/
theorem sends_items {base p : Nat} {r : RefId} (hp : base ≤ p) : ∀ (items : List JSArg)
    (_ : ∀ a ∈ items, Sends base a) (i : Nat) (s : Rt), i + items.length < 2 ^ 32 →
    p < s.heap.next → Constructors s.heap base → (s.heap.obj p).cls = .array i →
    wp (toJsItems ⟨.object p, r⟩ i items) s (fun _ t => s.heap.Grows (· = p) t.heap ∧
      (t.heap.obj p).cls = .array (i + items.length) ∧
      (∀ j < i, (t.heap.obj p).indexed j = (s.heap.obj p).indexed j) ∧
      ReadsItems t.heap (Within base (p + 1) t.heap.next) (t.heap.obj p).indexed i
        (JSArg.settleItems items)) (fun _ _ => False)
  | [], _, i, s, _, _, _, hcls => by
    rw [toJsItems, wp_pure]
    exact ⟨Heap.Grows.refl _ _, hcls, fun _ _ => rfl, trivial⟩
  | a :: rest, hitems, i, s, hlen, hps, hcon, hcls => by
    rw [List.length_cons] at hlen
    simp only [toJsItems, wp_bind, wp_jsSetPropertyUint32]
    refine wp_mono (hitems a (List.mem_cons_self ..) s (Nat.le_trans hp (Nat.le_of_lt hps)) hcon) ?_
      (fun _ _ h => h)
    intro v s1 hs1
    obtain ⟨hread, hgrows1⟩ := hs1
    rw [Nat.mod_eq_of_lt (by omega)]
    obtain ⟨hgrows2, hobj2, hcls2⟩ := Heap.update_setIndex hgrows1 hps hcls (by omega) v.val
    generalize hh2 : s1.heap.update (.object p) (·.setIndex i v.val) = h2 at hgrows2 hobj2 hcls2 ⊢
    have hnext2 : h2.next = s1.heap.next := by rw [← hh2, Heap.update_next]
    have hcon2 : Constructors h2 base := by
      refine hcon.grows hgrows2 (by omega) fun x hx hxp => ?_
      exact Nat.lt_irrefl p (Nat.lt_of_lt_of_le (hxp ▸ hx) hp)
    refine wp_mono (sends_items hp rest (fun b hb => hitems b (List.mem_cons_of_mem _ hb)) (i + 1)
      { s1.log (v.events .give) with heap := h2 } (by omega)
      (Nat.lt_of_lt_of_le hps hgrows2.next) hcon2 hcls2) ?_ (fun _ _ h => h)
    intro _ t ht
    obtain ⟨hgrows3, hcls3, hold, hrest⟩ := ht
    have hnext3 : s1.heap.next ≤ t.heap.next := hnext2 ▸ hgrows3.next
    have hnext1 := hgrows1.next
    refine ⟨hgrows2.trans hgrows3, ?_, ?_, ⟨v.val, ?_, ?_⟩, hrest⟩
    · rw [hcls3, List.length_cons]
      congr 1
      omega
    · intro j hj
      rw [hold j (by omega)]
      show (h2.obj p).indexed j = _
      rw [hobj2]
      exact if_neg (by omega)
    · rw [hold i (by omega)]
      show (h2.obj p).indexed i = _
      rw [hobj2]
      exact if_pos rfl
    · -- the element's objects are neither the array nor new since
      refine hread.frame ?_ fun x hx => hx.mono hps hnext3
      intro x hx
      have hxp : x ≠ p := hx.ne hp hps
      rw [hgrows3.obj x (hnext2.symm ▸ hx.lt (by omega)) hxp]
      show h2.obj x = _
      rw [← hh2, Heap.update_obj_of_ne _ _ hxp]

theorem sends_array {base : Nat} {items : List JSArg} (hlen : items.length < 2 ^ 32)
    (hitems : ∀ a ∈ items, Sends base a) : Sends base (.array items) := by
  intro s hbase hcon
  simp only [toJs, wp_bind, jsNewArray, wp_alloc, wp_pure]
  have hgrows := s.heap.grows_alloc (fun _ => False) .array (.array 0)
  refine wp_mono (sends_items hbase items hitems 0 (Rt.owned { s with
    heap := s.heap.alloc .array (.array 0) } (.object s.heap.next)) (by omega) (by simp)
    (hcon.grows hgrows hbase fun _ _ h => h) (by simp)) ?_ (fun _ _ h => h)
  intro _ t ht
  obtain ⟨hgrows1, hcls, -, hread⟩ := ht
  have hlt : s.heap.next < t.heap.next := hgrows1.next
  have hlength : (JSArg.settleItems items).length = items.length := by
    rw [settleItems_eq_map, List.length_map]
  refine ⟨?_, Nat.le_of_lt hlt, ?_, hgrows1.protoNamed⟩
  · refine reads_array (Or.inr ⟨Nat.le_refl _, hlt⟩) ?_ (by rwa [hlength]) ?_
    · rw [hcls, Nat.zero_add, hlength]
    · refine hread.frame (fun _ _ => rfl) ?_ fun _ _ => rfl
      exact fun x hx => hx.mono (Nat.le_succ _) (Nat.le_refl _)
  · intro x hx _
    rw [hgrows1.obj x (Nat.lt_succ_of_lt hx) (Nat.ne_of_lt hx)]
    exact Heap.alloc_obj_of_ne _ _ _ (Nat.ne_of_lt hx)

/-- **`to_js` makes a value that is read as what is left of its argument.** -/
theorem sends {base : Nat} {a : JSArg} : a.Fits → Sends base a := by
  induction a using JSArg.induct with
  | leaf a hleaf =>
    intro ha
    cases a with
    | array items => exact absurd rfl (hleaf items)
    | int i => exact sends_of_portable trivial (by simp [JSArg.settle])
    | bool b => exact sends_of_portable trivial (by simp [JSArg.settle])
    | typedArray a => exact sends_of_portable ha (by simp [JSArg.settle])
    | exception msg name => exact sends_exception msg name
    | string s =>
      exact sends_own (v := .string (newString s)) (by simp [toJs, jsNewString]) (by simp)
        fun _ _ => by rw [JSArg.settle]; rfl
    | uint32 v =>
      refine sends_own (v := newUint32 v.toNat) (by simp [toJs]) ?_ fun h p => ?_
      · unfold newUint32
        split <;> simp
      · rw [fromLeaf_newUint32, JSArg.settle]
    | long v =>
      refine sends_own (v := newInt64 v) (by simp [toJs]) ?_ fun h p => ?_
      · unfold newInt64
        split <;> simp
      · rw [fromLeaf_newInt64, JSArg.settle]
    | double d =>
      exact sends_own (v := .float64 d) (by simp [toJs]) (by simp) fun _ _ => by
        rw [JSArg.settle]; rfl
    | float d =>
      exact sends_own (v := .float64 d) (by simp [toJs]) (by simp) fun _ _ => by
        rw [JSArg.settle]; rfl
    | int64 v =>
      exact sends_own (v := .shortBigInt v) (by simp [toJs]) (by simp) fun _ _ => by
        rw [JSArg.settle]; rfl
    | null =>
      exact sends_own (v := .null) (by simp [toJs]) (by simp) fun _ _ => by rw [JSArg.settle]; rfl
    | undefined =>
      exact sends_own (v := .undefined) (by simp [toJs]) (by simp) fun _ _ => by
        rw [JSArg.settle]; rfl
  | array items ih =>
    intro ha
    obtain ⟨hlen, hitems⟩ := ha
    rw [JSArg.allItems_iff] at hitems
    exact sends_array hlen fun a ha => ih a ha (hitems a ha)

/-! ## There and back -/

/-- `from_js(ctx, to_js(ctx, a), force_free)`; no one else has the value. -/
def cross (n : Nat) (forceFree : Bool) (a : JSArg) : EngineM JSArg := do
  let v ← toJs a
  lastHeld Rt.trace v.ref (fromJs n v forceFree)

theorem Constructors.mono {h : Heap} {base base' : Nat} (hc : Constructors h base)
    (hle : base ≤ base') : Constructors h base' := by
  intro cls
  obtain ⟨c, hlt, hcon, hname⟩ := hc cls
  exact ⟨c, Nat.lt_of_lt_of_le hlt hle, hcon, hname⟩

theorem Pristine.grows {h h' : Heap} (hp : Pristine h) (hg : h.Grows (fun _ => False) h') :
    Pristine h' := by
  have hc : Constructors h' h.next :=
    Constructors.grows hp hg (Nat.le_refl _) fun _ _ hbut => hbut
  exact hc.mono hg.next

theorem hasBytes_settle (a : JSArg) : a.settle.hasBytes = a.hasBytes := by
  cases a <;> rfl

/-- **One crossing**: any argument within the limits of the engine comes back as
`settle` says, and the engine is ready for the next; unless it is a typed array that
is freed before it is read. -/
theorem crossing {a : JSArg} (ha : a.Fits) {n : Nat} (hn : a.depth < n) (forceFree : Bool)
    {s : Rt} (hs : Pristine s.heap) :
    wp (cross n forceFree a) s
      (fun b t => b = a.settle ∧ (forceFree && a.hasBytes) = false ∧ Pristine t.heap)
      (fun e _ => e = .freedRead ∧ (forceFree && a.hasBytes) = true) := by
  rw [cross, wp_bind]
  refine wp_mono (wp_and (sends ha s (Nat.le_refl _) hs) (toJs_taken a s)) ?_
    (fun _ _ h => h.1.elim)
  intro v t ht
  obtain ⟨⟨hread, hgrows⟩, htaken⟩ := ht
  have hdepth : a.settle.depth < n := by rwa [depth_settle]
  rw [wp_lastHeld_fromJs htaken]
  refine wp_mono (wp_and (hread t (fun _ _ => rfl) v.ref forceFree n hdepth)
    (fromJs_heap n v forceFree t)) ?_ (fun _ _ h => h.1.elim)
  intro b u hb
  obtain ⟨rfl, hu⟩ := hb
  rw [hasBytes_settle]
  split
  next hfreed => exact ⟨rfl, hfreed⟩
  next hkept => exact ⟨rfl, Bool.eq_false_of_not_eq_true hkept, hu ▸ hs.grows hgrows⟩

/-- **An argument comes back as it was** exactly when it is settled, and is no typed
array with elements that is released first. -/
theorem crossing_iff (a : JSArg) (ha : a.Fits) (n : Nat) (hn : a.depth < n) (forceFree : Bool)
    (s : Rt) (hs : Pristine s.heap) :
    (∃ t, cross n forceFree a s = .ok a t) ↔
      a.Settled ∧ (forceFree = true → a.hasBytes = false) := by
  have hcross := crossing ha hn forceFree hs
  rw [← settle_eq_iff]
  constructor
  · intro h
    obtain ⟨t, hok⟩ := h
    obtain ⟨hsettle, hkept, -⟩ := (wp_iff_of_ok hok).mp hcross
    refine ⟨hsettle.symm, fun hfree => ?_⟩
    rwa [hfree, Bool.true_and] at hkept
  · intro h
    obtain ⟨hsettle, hkept⟩ := h
    have hno : (forceFree && a.hasBytes) = false := by
      cases forceFree with
      | true => rw [hkept rfl, Bool.and_false]
      | false => rfl
    rw [hno] at hcross
    obtain ⟨b, t, hok, hb, -⟩ := exists_ok_of_wp (wp_mono hcross (fun _ _ h => h)
      fun _ _ h => Bool.noConfusion h.2)
    rw [hb, hsettle] at hok
    exact ⟨t, hok⟩

theorem fits_byte : (JSArg.typedArray ⟨.int8, [3]⟩).Fits :=
  show 1 * 1 ≤ 2 ^ 31 - 1 by omega

/-- In a new context a typed array comes back beside an `int`, and not beside a `null`;
on its own it comes back when it is not released. -/
theorem crossing_iff_typedArray :
    ((∃ t, cross 2 true (.array [.int 7, .typedArray ⟨.int8, [3]⟩]) .initial =
        .ok (.array [.int 7, .typedArray ⟨.int8, [3]⟩]) t) ∧
      ¬∃ t, cross 2 true (.array [.null, .typedArray ⟨.int8, [3]⟩]) .initial =
        .ok (.array [.null, .typedArray ⟨.int8, [3]⟩]) t) ∧
    (∃ t, cross 1 false (.typedArray ⟨.int8, [3]⟩) .initial =
        .ok (.typedArray ⟨.int8, [3]⟩) t) ∧
      ¬∃ t, cross 1 true (.typedArray ⟨.int8, [3]⟩) .initial =
        .ok (.typedArray ⟨.int8, [3]⟩) t := by
  refine ⟨⟨?_, fun h => ?_⟩, ?_, fun h => ?_⟩
  · exact (crossing_iff (.array [.int 7, .typedArray ⟨.int8, [3]⟩])
      ⟨by decide, trivial, fits_byte, trivial⟩ 2 (by decide) true .initial pristine_initial).mpr
      ⟨⟨trivial, trivial, trivial, trivial⟩, fun _ => rfl⟩
  · have hsettled := (crossing_iff (.array [.null, .typedArray ⟨.int8, [3]⟩])
      ⟨by decide, trivial, fits_byte, trivial⟩ 2 (by decide) true .initial pristine_initial).mp h
    exact hsettled.1.2.1
  · exact (crossing_iff _ fits_byte 1 (by decide) false .initial pristine_initial).mpr
      ⟨trivial, nofun⟩
  · have hfreed := (crossing_iff _ fits_byte 1 (by decide) true .initial pristine_initial).mp h
    exact Bool.noConfusion (hfreed.2 rfl)

/-- One crossing after the other, each with its own `force_free`. -/
def crossAll (n : Nat) : List Bool → JSArg → EngineM JSArg
  | [], a => pure a
  | forceFree :: rest, a => do
    let b ← cross n forceFree a
    crossAll n rest b

/-- The first crossing, and what the others make of what is left. -/
theorem crossAll_then {a : JSArg} (ha : a.Fits) {n : Nat} (hn : a.depth < n) (forceFree : Bool)
    {forceFrees : List Bool} (hrest : ∀ t : Rt, Pristine t.heap →
      wp (crossAll n forceFrees a.settle) t
        (fun b _ => b = a.settle ∧ (true ∈ forceFrees → a.hasBytes = false))
        (fun e _ => e = .freedRead ∧ true ∈ forceFrees ∧ a.hasBytes = true))
    {s : Rt} (hs : Pristine s.heap) :
    wp (crossAll n (forceFree :: forceFrees) a) s
      (fun b _ => b = a.settle ∧ (true ∈ forceFree :: forceFrees → a.hasBytes = false))
      (fun e _ => e = .freedRead ∧ true ∈ forceFree :: forceFrees ∧ a.hasBytes = true) := by
  rw [crossAll, wp_bind]
  refine wp_mono (crossing ha hn forceFree hs) ?_ ?_
  · intro b t hb
    obtain ⟨rfl, hkept, ht⟩ := hb
    refine wp_mono (hrest t ht) ?_ ?_
    · intro c u hc
      refine ⟨hc.1, fun hmem => ?_⟩
      rcases List.mem_cons.mp hmem with hfirst | hmem
      · rwa [← hfirst, Bool.true_and] at hkept
      · exact hc.2 hmem
    · exact fun e u he => ⟨he.1, List.mem_cons_of_mem _ he.2.1, he.2.2⟩
  · intro e t he
    obtain ⟨rfl, hfreed⟩ := he
    obtain ⟨hfree, hbytes⟩ := Bool.and_eq_true_iff.mp hfreed
    exact ⟨rfl, hfree ▸ List.mem_cons_self .., hbytes⟩

/-- A settled argument crosses any number of times, a typed array until it is released. -/
theorem crossAll_settled {a : JSArg} (ha : a.Fits) (hsettled : a.settle = a) {n : Nat}
    (hn : a.depth < n) : ∀ (forceFrees : List Bool) (s : Rt), Pristine s.heap →
    wp (crossAll n forceFrees a) s
      (fun b _ => b = a ∧ (true ∈ forceFrees → a.hasBytes = false))
      (fun e _ => e = .freedRead ∧ true ∈ forceFrees ∧ a.hasBytes = true)
  | [], _, _ => ⟨rfl, fun h => absurd h List.not_mem_nil⟩
  | forceFree :: rest, s, hs => by
    have hrest := crossAll_settled ha hsettled hn rest
    have hfirst := crossAll_then ha hn forceFree (by rwa [hsettled]) hs
    rwa [hsettled] at hfirst

/-- One crossing or more. -/
theorem crossAll_cons {a : JSArg} (ha : a.Fits) {n : Nat} (hn : a.depth < n) (forceFree : Bool)
    (forceFrees : List Bool) {s : Rt} (hs : Pristine s.heap) :
    wp (crossAll n (forceFree :: forceFrees) a) s
      (fun b _ => b = a.settle ∧ (true ∈ forceFree :: forceFrees → a.hasBytes = false))
      (fun e _ => e = .freedRead ∧ true ∈ forceFree :: forceFrees ∧ a.hasBytes = true) := by
  have hrest := crossAll_settled (fits_settle ha) (settle_settle a)
    (show a.settle.depth < n by rwa [depth_settle]) forceFrees
  rw [hasBytes_settle] at hrest
  exact crossAll_then ha hn forceFree hrest hs

/-- **Only the first crossing changes anything**: after one or more the argument
is what it was after the first. A typed array with elements gets no further than to
the first crossing that releases it. -/
theorem crossing_again (a : JSArg) (ha : a.Fits) (n : Nat) (hn : a.depth < n) (forceFree : Bool)
    (forceFrees : List Bool) (s : Rt) (hs : Pristine s.heap) :
    ∃ t, crossAll n (forceFree :: forceFrees) a s =
      if true ∈ forceFree :: forceFrees ∧ a.hasBytes = true then .error .freedRead t
      else .ok a.settle t := by
  have hcross := crossAll_cons ha hn forceFree forceFrees hs
  cases hrun : crossAll n (forceFree :: forceFrees) a s with
  | ok b t =>
    obtain ⟨rfl, hkept⟩ := (wp_iff_of_ok hrun).mp hcross
    refine ⟨t, (if_neg ?_).symm⟩
    exact fun h => Bool.noConfusion ((hkept h.1).symm.trans h.2)
  | error e t =>
    obtain ⟨rfl, hfreed⟩ := (wp_iff_of_error hrun).mp hcross
    exact ⟨t, (if_pos hfreed).symm⟩

/-- A fraction, nothing and a typed array, three times. -/
theorem crossing_again_three : ∃ t,
    crossAll 2 [true, false, true]
        (.array [.double (.finite (-5 / 2)), .null, .typedArray ⟨.int8, [3]⟩]) .initial =
      .ok (JSArg.array [.double (.finite (-5 / 2)), .null, .typedArray ⟨.int8, [3]⟩]).settle t := by
  obtain ⟨t, ht⟩ := crossing_again
    (.array [.double (.finite (-5 / 2)), .null, .typedArray ⟨.int8, [3]⟩])
    ⟨by decide, trivial, trivial, fits_byte, trivial⟩ 2 (by decide) true [false, true] .initial
    pristine_initial
  exact ⟨t, ht⟩

example : (JSArg.array [.double (.finite (-5 / 2)), .null, .string [0xC3]]).settle =
    .array [.int (-2), .string (ascii "null"), .string [0xEF, 0xBF, 0xBD]] := by
  simp only [JSArg.settle, JSArg.settleItems]
  rw [show (Double.finite (-5 / 2)).trunc = -2 by decide +kernel,
    show throughEngine [0xC3] = [0xEF, 0xBF, 0xBD] by decide +kernel]
  rfl

end Ejr
