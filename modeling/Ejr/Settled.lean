import Ejr.Answers
import Ejr.Engine.Context

/-!
# Settled arguments

`settle` says what becomes of an argument that is sent to JavaScript and read
back: numbers are reduced to 32 bits (a `long` once it has been rounded), a BigInt,
`null` and `undefined` have become texts, texts have been through the engine, and
arrays are arrays of what has become of their elements. It changes nothing a second
time (`settle_settle`), and leaves alone exactly the arguments that have none of
these parts (`settle_eq_iff`).

`from_js` answers with no others, whatever the value and the heap
(`settled_fromJs`): the alternatives `double`, `float`, `long`, `int64_t`,
`uint32_t`, `null` and `undefined` of `JSArg` never come out of it, at any
depth, and its texts are among those the engine gives back.
-/

namespace Ejr

open Lib

/-! ## Settling -/

mutual

/-- What comes back of an argument that is sent to JavaScript. -/
def JSArg.settle : JSArg → JSArg
  | .int v => .int v
  | .double v => .int (Int32.ofInt v.trunc)
  | .float v => .int (Int32.ofInt v.trunc)
  | .long v => .int (Int32.ofInt (roundToDouble v.toInt))
  | .string s => .string (throughEngine s)
  | .bool b => .bool b
  | .int64 _ => .string (ascii "[unsupported]")
  | .uint32 v => .int (Int32.ofInt v.toNat)
  | .null => .string (ascii "null")
  | .undefined => .string (ascii "undefined")
  | .array items => .array (JSArg.settleItems items)
  | .typedArray a => .typedArray a
  | .exception msg name => .exception (throughEngine msg) (throughEngine name)

/-- All elements, settled. -/
def JSArg.settleItems : List JSArg → List JSArg
  | [] => []
  | a :: rest => a.settle :: JSArg.settleItems rest

end

theorem settleItems_eq_map : ∀ items : List JSArg, JSArg.settleItems items = items.map JSArg.settle
  | [] => rfl
  | a :: rest => by rw [JSArg.settleItems, settleItems_eq_map rest, List.map_cons]

/-- The parts that come back as they were. -/
def JSArg.SettledLeaf : JSArg → Prop
  | .int _ | .bool _ | .typedArray _ => True
  | .string s => Stable s
  | .exception msg name => Stable msg ∧ Stable name
  | _ => False

/-- Built from such parts. -/
def JSArg.Settled (a : JSArg) : Prop := a.All JSArg.SettledLeaf fun _ => True

/-- Exactly the settled arguments are left alone. -/
theorem settle_eq_iff (a : JSArg) : a.settle = a ↔ a.Settled := by
  induction a using JSArg.induct with
  | leaf a ha =>
    cases a with
    | array items => exact absurd rfl (ha items)
    | _ => simp [JSArg.settle, JSArg.Settled, JSArg.All, JSArg.SettledLeaf, Stable]
  | array items ih =>
    simp only [JSArg.settle, JSArg.array.injEq, settleItems_eq_map, JSArg.Settled, JSArg.All,
      JSArg.allItems_iff, true_and]
    constructor
    · intro h a ha
      refine (ih a ha).mp ?_
      have hid : items.map JSArg.settle = items.map id := by rw [h, List.map_id]
      exact List.map_inj_left.mp hid a ha
    · intro h
      calc items.map JSArg.settle = items.map id :=
          List.map_congr_left fun a ha => (ih a ha).mpr (h a ha)
        _ = items := List.map_id _

/-- **Whatever is settled stays so.** -/
theorem settled_settle (a : JSArg) : a.settle.Settled := by
  induction a using JSArg.induct with
  | leaf a ha =>
    cases a with
    | array items => exact absurd rfl (ha items)
    | string s => exact stable_throughEngine s
    | exception msg name => exact ⟨stable_throughEngine msg, stable_throughEngine name⟩
    | int64 v => exact stable_of_ascii (by decide +kernel)
    | null => exact stable_of_ascii (by decide +kernel)
    | undefined => exact stable_of_ascii (by decide +kernel)
    | _ => trivial
  | array items ih =>
    rw [JSArg.settle, settleItems_eq_map]
    refine ⟨trivial, (JSArg.allItems_iff _).mpr ?_⟩
    exact List.forall_mem_map.mpr ih

theorem settle_settle (a : JSArg) : a.settle.settle = a.settle :=
  (settle_eq_iff _).mpr (settled_settle a)

/-- Elements may be replaced by others of the same depth. -/
theorem depthItems_map {f : JSArg → JSArg} : ∀ items : List JSArg,
    (∀ a ∈ items, (f a).depth = a.depth) → JSArg.depthItems (items.map f) = JSArg.depthItems items
  | [], _ => rfl
  | a :: rest, h => by
    obtain ⟨ha, hrest⟩ := List.forall_mem_cons.mp h
    rw [List.map_cons, JSArg.depthItems, JSArg.depthItems, ha, depthItems_map rest hrest]

theorem depth_settle (a : JSArg) : a.settle.depth = a.depth := by
  induction a using JSArg.induct with
  | leaf a ha =>
    cases a with
    | array items => exact absurd rfl (ha items)
    | _ => rfl
  | array items ih =>
    rw [JSArg.settle, settleItems_eq_map, JSArg.depth, JSArg.depth, depthItems_map items ih]

/-! ## Sizes -/

/-- The limits of the engine: 2 GB for a buffer, -/
def JSArg.FitsLeaf : JSArg → Prop
  | .typedArray a => a.values.length * a.elem.size ≤ 2 ^ 31 - 1
  | _ => True

/-- and fewer than 2^32 elements for an array. -/
def JSArg.Fits (a : JSArg) : Prop := a.All JSArg.FitsLeaf fun items => items.length < 2 ^ 32

theorem fits_settle {a : JSArg} : a.Fits → a.settle.Fits := by
  induction a using JSArg.induct with
  | leaf a ha =>
    intro h
    cases a with
    | array items => exact absurd rfl (ha items)
    | typedArray a => exact h
    | _ => trivial
  | array items ih =>
    intro h
    obtain ⟨hlen, hitems⟩ := h
    rw [JSArg.allItems_iff] at hitems
    rw [JSArg.settle, settleItems_eq_map]
    refine ⟨?_, (JSArg.allItems_iff _).mpr ?_⟩
    · show (items.map JSArg.settle).length < 2 ^ 32
      rwa [List.length_map]
    · exact List.forall_mem_map.mpr fun a ha => ih a ha (hitems a ha)

/-! ## The answers of `from_js` -/

theorem settled_text (u : Option JSString) : Stable (textOrException u) := by
  cases u with
  | none => exact stable_of_ascii (by decide +kernel)
  | some t => exact stable_cstr_toCStringLen t

theorem settled_fromView {h : Heap} {v : JSVal} {view : View} {a : JSArg}
    (ha : h.fromView v view = .ok a) : a.SettledLeaf ∧ ∀ items, a ≠ .array items := by
  have hunsupported : (JSArg.string (ascii "[unsupported]")).SettledLeaf :=
    stable_of_ascii (by decide +kernel)
  unfold Heap.fromView at ha
  split at ha
  next =>
    obtain rfl : _ = a := Except.ok.inj ha
    exact ⟨hunsupported, by simp⟩
  next => exact absurd ha (by simp)
  next =>
    split at ha
    next =>
      unfold Heap.elements at ha
      split at ha
      next =>
        obtain rfl : _ = a := Except.ok.inj ha
        exact ⟨trivial, by simp⟩
      next => exact absurd ha (by simp)
    next =>
      obtain rfl : _ = a := Except.ok.inj ha
      exact ⟨hunsupported, by simp⟩

/-- The branches after `JS_IsArray`. -/
theorem settled_fromRest {h : Heap} {v : JSVal} {a : JSArg} (ha : h.fromRest v = .ok a) :
    a.SettledLeaf ∧ ∀ items, a ≠ .array items := by
  unfold Heap.fromRest at ha
  split at ha
  next =>
    unfold Heap.fromError at ha
    split at ha
    next name _ =>
      obtain rfl : _ = a := Except.ok.inj ha
      exact ⟨⟨settled_text _, stable_cstr_toCStringLen name⟩, by simp⟩
    next => exact absurd ha (by simp)
  next =>
    split at ha
    next => exact settled_fromView ha
    next =>
      obtain rfl : _ = a := Except.ok.inj ha
      exact ⟨stable_of_ascii (by decide +kernel), by simp⟩

/-- A value that is no array is answered with a settled part. -/
theorem settled_fromLeaf {h : Heap} {pending v : JSVal} {a : JSArg}
    (ha : h.fromLeaf pending v = .ok a) : a.SettledLeaf ∧ ∀ items, a ≠ .array items := by
  have hlast : h.fromRest v = .ok a → a.SettledLeaf ∧ ∀ items, a ≠ .array items :=
    settled_fromRest
  cases v with
  | string u =>
    obtain rfl : _ = a := Except.ok.inj ha
    exact ⟨stable_cstr_toCStringLen u, by simp⟩
  | bool b =>
    obtain rfl : _ = a := Except.ok.inj ha
    exact ⟨trivial, by simp⟩
  | int i =>
    obtain rfl : _ = a := Except.ok.inj ha
    exact ⟨trivial, by simp⟩
  | float64 d =>
    obtain rfl : _ = a := Except.ok.inj ha
    exact ⟨trivial, by simp⟩
  | null =>
    obtain rfl : _ = a := Except.ok.inj ha
    exact ⟨stable_of_ascii (by decide +kernel), by simp⟩
  | undefined =>
    obtain rfl : _ = a := Except.ok.inj ha
    exact ⟨stable_of_ascii (by decide +kernel), by simp⟩
  | exception =>
    obtain rfl : _ = a := Except.ok.inj ha
    exact ⟨⟨settled_text _, settled_text _⟩, by simp [Heap.fromPending]⟩
  | _ => exact hlast ha

theorem all_of_leaf {a : JSArg} {leaf : JSArg → Prop} {arr : List JSArg → Prop}
    (ha : leaf a ∧ ∀ items, a ≠ .array items) : a.All leaf arr := by
  cases a with
  | array items => exact absurd rfl (ha.2 items)
  | _ => exact ha.1

/-- What comes out of `from_js`: settled, with arrays as long as a `uint32_t` counts. -/
def Received (a : JSArg) : Prop := a.All JSArg.SettledLeaf fun items => items.length < 2 ^ 32

theorem Received.settled {a : JSArg} (ha : Received a) : a.Settled :=
  ha.mono (fun _ h => h) fun _ _ => trivial

/-- The loop over the elements. -/
theorem received_fromJsElems {rec : JSValue → Bool → EngineM JSArg} {value : JSValue}
    (hrec : ∀ v forceFree s, wp (rec v forceFree) s (fun a _ => Received a) (fun _ _ => True)) :
    ∀ (n i : Nat) (s : Rt), wp (fromJsElems rec value i n) s
      (fun vec _ => vec.length = n ∧ ∀ a ∈ vec, Received a) (fun _ _ => True)
  | 0, _, _ => ⟨rfl, fun _ ha => absurd ha List.not_mem_nil⟩
  | n + 1, i, s => by
    simp only [fromJsElems, wp_bind, wp_jsGetPropertyUint32, wp_pure]
    refine wp_mono (hrec _ true _) ?_ (fun _ _ h => h)
    intro a t ha
    refine wp_mono (received_fromJsElems hrec n (i + 1) t) ?_ (fun _ _ h => h)
    intro vec _ hvec
    exact ⟨by rw [List.length_cons, hvec.1], List.forall_mem_cons.mpr ⟨ha, hvec.2⟩⟩

theorem received_fromJs : ∀ (n : Nat) (value : JSValue) (forceFree : Bool) (s : Rt),
    wp (fromJs n value forceFree) s (fun a _ => Received a) (fun _ _ => True)
  | 0, _, _, _ => trivial
  | n + 1, value, forceFree, s => by
    by_cases harr : s.heap.isArray value.val = .value false
    · refine wp_mono (answers_fromJs n harr) ?_ (fun _ _ _ => trivial)
      exact fun a _ ha => all_of_leaf (settled_fromLeaf ha.1)
    · refine wp_fromJs_array (Q := Received) (X := fun _ => True) (v := value.val) (r := value.ref) rfl
        harr fun t _ => ?_
      refine wp_mono (received_fromJsElems (received_fromJs n) _ 0 t) ?_ (fun _ _ h => h)
      intro vec _ hvec
      refine ⟨?_, (JSArg.allItems_iff _).mpr hvec.2⟩
      -- the length was read as a `uint32_t`
      show vec.length < 2 ^ 32
      rw [hvec.1]
      exact UInt32.toNat_lt _

/-- **Whatever `from_js` answers, it is settled**, on every heap, for every value
and with either `force_free`; so `settle` leaves it alone. -/
theorem settled_fromJs {n : Nat} {value : JSValue} {forceFree : Bool} {s t : Rt} {a : JSArg}
    (h : fromJs n value forceFree s = .ok a t) :
    a.Settled ∧ a.settle = a ∧ a.All (fun _ => True) fun items => items.length < 2 ^ 32 := by
  have ha : Received a := by
    have hrun := received_fromJs n value forceFree s
    exact @wp_of_ok _ _ _ _ s t a (fun a _ => Received a) _ hrun h
  exact ⟨ha.settled, (settle_eq_iff a).mpr ha.settled, ha.mono (fun _ _ => trivial) fun _ h => h⟩

/-- A context with `[null, [undefined, 2]]` at 12. -/
def Heap.withNothing : Heap :=
  (Heap.initial.set 12 (.pair .null (.object 13))).set 13 (.pair .undefined (.int 2))

/-- `null` and `undefined` are read as texts, at any depth. -/
theorem settled_fromJs_nested :
    (JSArg.array [.string (ascii "null"),
        .array [.string (ascii "undefined"), .int 2]]).Settled ∧
      (JSArg.array [.string (ascii "null"),
        .array [.string (ascii "undefined"), .int 2]]).settle =
          .array [.string (ascii "null"), .array [.string (ascii "undefined"), .int 2]] ∧
      (JSArg.array [.string (ascii "null"), .array [.string (ascii "undefined"), .int 2]]).All
        (fun _ => True) fun items => items.length < 2 ^ 32 := by
  have hrun : ∃ t, fromJs 3 ⟨.object 12, 0⟩ false ⟨.withNothing, .uninitialized, [], 0⟩ =
      .ok (.array [.string (ascii "null"), .array [.string (ascii "undefined"), .int 2]]) t :=
    ⟨_, rfl⟩
  obtain ⟨t, hrun⟩ := hrun
  exact settled_fromJs hrun

end Ejr
