import Ejr.Lib.Nested
import Ejr.CApi.Render

/-!
# The texts of integers and their arrays

Two results about what `jsarg_to_string` writes for the trees a program has built.
The text of integers in nested C arrays is a text in `intFormat`, which can be read
back (`jsargToString_readable`). And the two loops, `bytes_to_string` over the
elements of a typed array and the recursive one over the slots of a C array, write
the same for the same numbers (`renderers_agree`).
-/

namespace Ejr

open Lib Layout

/-- `jsarg_to_string` of the tree comes back with this text, at every depth that is
enough. -/
def WritesText (h : CHeap) (L : Layout) (text : Bytes) : Prop :=
  ∀ n, L.blocks.length ≤ n → ∃ x m t,
    jsargToString n (some L.root) h = .ok (some x) t ∧ t.cell x = some (.chars m) ∧ cstr m = text

theorem writesText {h : CHeap} {L : Layout} (hL : L.On h) : WritesText h L (L.text h) := by
  intro n hn
  obtain ⟨r, t, hok, x, m, rfl, hx, hm, -⟩ := exists_ok_of_wp (shows_jsargToString L n hn h hL)
  exact ⟨x, m, t, hok, hx, hm⟩

/-- A call has one text. -/
theorem WritesText.eq_text {h : CHeap} {L : Layout} {text : Bytes} (hw : WritesText h L text)
    (hL : L.On h) : text = L.text h := by
  obtain ⟨x, m, t, hok, hx, hm⟩ := hw _ (Nat.le_refl _)
  obtain ⟨x', m', t', hok', hx', hm'⟩ := writesText hL _ (Nat.le_refl _)
  rw [hok] at hok'
  injection hok' with hxx htt
  obtain rfl := Option.some.inj hxx
  subst htt
  rw [hx] at hx'
  obtain rfl : m = m' := by simpa using hx'
  rw [← hm, hm']

/-! ## Integers in nested arrays -/

/-- How `jsarg_to_string` writes integers and arrays of them. -/
def intFormat : ListFormat UInt8 Int where
  write := intToString
  read := readInt
  opening := 91
  closing := 93
  separator := ascii ", "

/-- No bracket, comma or end of the text continues a number. -/
theorem noDigit_of_ends {rest : Bytes} (h : intFormat.Ends rest) : NoDigit rest := by
  intro b hb
  rcases h with rfl | ⟨r, rfl⟩ | ⟨r, rfl⟩
  · exact nomatch hb
  · obtain rfl : 93 = b := Option.some.inj hb
    decide
  · obtain rfl : 44 = b := Option.some.inj hb
    decide

theorem intFormat_lawful : intFormat.Lawful where
  read_write v rest hends := readInt_append (noDigit_of_ends hends)
  write_head v := by
    show ∃ a w, intToString v = a :: w ∧ a ≠ 91 ∧ a ≠ 93
    unfold intToString
    by_cases hv : v < 0
    · rw [if_pos hv]
      exact ⟨45, _, rfl, by decide, by decide⟩
    · rw [if_neg hv]
      obtain ⟨b, w, hw, hb⟩ := decimal_head v.natAbs
      refine ⟨b, w, hw, ?_, ?_⟩
      · rintro rfl
        exact absurd hb (by decide)
      · rintro rfl
        exact absurd hb (by decide)
  opening_ne := by decide
  separator_head := ⟨44, [32], rfl, by decide⟩

/-- The number in a block of `jsarg_int`, `jsarg_int64t` or `jsarg_uint32t`. -/
def intValue : Option CBlock → Option Int
  | some (.arg (.int v)) => some v.toInt
  | some (.arg (.int64 v)) => some v.toInt
  | some (.arg (.uint32 v)) => some v.toNat
  | _ => none

namespace Layout

mutual

/-- The shape of a tree of integers and C arrays, with the numbers at its leaves. -/
def intTree (h : CHeap) : Layout → Option (Nested Int)
  | .plain p => (intValue (h.cell p)).map .value
  | .array _ _ items => (intTreeItems h items).map .list
  | _ => none

/-- The shapes of the elements. -/
def intTreeItems (h : CHeap) : List Layout → Option (List (Nested Int))
  | [] => some []
  | L :: rest =>
    match L.intTree h, intTreeItems h rest with
    | some t, some ts => some (t :: ts)
    | _, _ => none

end

/-- The text of an integer. -/
theorem text_of_intValue {h : CHeap} {p : Nat} {v : Int} (hv : intValue (h.cell p) = some v) :
    (Layout.plain p).text h = intToString v := by
  unfold intValue at hv
  split at hv
  next i hp =>
    obtain rfl := Option.some.inj hv
    rw [text, hp]
    rfl
  next i hp =>
    obtain rfl := Option.some.inj hv
    rw [text, hp]
    rfl
  next i hp =>
    obtain rfl := Option.some.inj hv
    rw [text, hp]
    rfl
  next => exact absurd hv.symm (Option.some_ne_none v)

/-- The text of a tree of integers is its shape's in `intFormat`. -/
theorem text_of_intTree {h : CHeap} (L : Layout) :
    ∀ {t : Nested Int}, L.intTree h = some t → L.text h = intFormat.render t := by
  induction L using Layout.induct with
  | plain p =>
    intro t ht
    obtain ⟨v, hv, rfl⟩ := Option.map_eq_some_iff.mp ht
    exact text_of_intValue hv
  | data p q => exact fun ht => absurd ht.symm (Option.some_ne_none _)
  | exception p m n => exact fun ht => absurd ht.symm (Option.some_ne_none _)
  | array p q items ih =>
    intro t ht
    obtain ⟨ts, hts, rfl⟩ := Option.map_eq_some_iff.mp ht
    have hitems : ∀ {items : List Layout} {ts : List (Nested Int)},
        (∀ L ∈ items, ∀ {t : Nested Int}, L.intTree h = some t → L.text h = intFormat.render t) →
        intTreeItems h items = some ts → textItems h items = intFormat.renderItems ts := by
      intro items
      induction items with
      | nil =>
        intro ts _ hts
        obtain rfl := Option.some.inj hts
        rfl
      | cons L rest ih' =>
        intro ts hone hts
        rw [intTreeItems] at hts
        split at hts
        next u us hu hus =>
          obtain rfl := Option.some.inj hts
          rw [textItems, ListFormat.renderItems, hone L (List.mem_cons_self ..) hu,
            ih' (fun K hK => hone K (List.mem_cons_of_mem _ hK)) hus]
        next => exact absurd hts.symm (Option.some_ne_none ts)
    rw [text, hitems ih hts]
    rfl

end Layout

/-- **Integer trees can be read back from their text**: one decoder gives back the
shape and the numbers of every tree of integers and C arrays a program has built,
so trees with one text have one shape and the same numbers. -/
theorem jsargToString_readable :
    (∃ d : Bytes → Option (Nested Int), ∀ (h : CHeap) (calls : List Building.Call) (st : Building),
      Run Building.step ⟨h, []⟩ calls st → ∀ L ∈ st.trees, ∀ t, L.intTree st.heap = some t →
        ∃ text, WritesText st.heap L text ∧ d text = some t) ∧
    ∀ (h h' : CHeap) (calls calls' : List Building.Call) (st st' : Building),
      Run Building.step ⟨h, []⟩ calls st → Run Building.step ⟨h', []⟩ calls' st' →
      ∀ L ∈ st.trees, ∀ L' ∈ st'.trees, ∀ t t', L.intTree st.heap = some t →
        L'.intTree st'.heap = some t' →
        ∀ text, WritesText st.heap L text → WritesText st'.heap L' text → t = t' := by
  constructor
  · refine ⟨intFormat.decode, fun h calls st hrun L hL t ht => ?_⟩
    refine ⟨L.text st.heap, writesText ((Building.wellBuilt_of_run hrun).on L hL), ?_⟩
    rw [text_of_intTree L ht]
    exact intFormat_lawful.decode_render t
  · intro h h' calls calls' st st' hrun hrun' L hL L' hL' t t' ht ht' text hw hw'
    have htext := hw.eq_text ((Building.wellBuilt_of_run hrun).on L hL)
    have htext' := hw'.eq_text ((Building.wellBuilt_of_run hrun').on L' hL')
    rw [text_of_intTree L ht] at htext
    rw [text_of_intTree L' ht'] at htext'
    have hsome : some t = some t' := by
      rw [← intFormat_lawful.decode_render t, ← htext, htext', intFormat_lawful.decode_render t']
    exact Option.some.inj hsome

/-! ## Typed arrays and arrays of scalars -/

/-- The scalar of the same number: `jsarg_int` up to `int32_t`, `jsarg_uint32t`,
`jsarg_int64t`. -/
def Elem.scalar : (t : Elem) → Option (t.Bits → CJSArg)
  | .int8 | .int16 | .int32 => some fun b => .int (Int32.ofInt b.toInt)
  | .uint8 | .uint16 => some fun b => .int (Int32.ofInt b.toNat)
  | .uint32 => some fun b => .uint32 (UInt32.ofBitVec b)
  | .int64 => some fun b => .int64 (Int64.ofBitVec b)
  | .uint64 | .float => none

/-- The typed array with these elements. -/
def Layout.IsTyped (h : CHeap) (a : JSArgTypedArray) (L : Layout) : Prop :=
  ∃ p q, L = .data p q ∧ h.cell p = some (.arg (.typedArray a.elem (some q) a.values.length)) ∧
    h.cell q = some (.elems a)

/-- The C array of these arguments. -/
def Layout.IsArrayOf (h : CHeap) (args : List CJSArg) (L : Layout) : Prop :=
  ∃ p q items, L = .array p q items ∧
    items.map (fun K => h.cell K.root) = args.map fun a => some (.arg a)

/-- A scalar lies in one block. -/
theorem Elem.plain_scalar {t : Elem} {scalar : t.Bits → CJSArg} (h : t.scalar = some scalar)
    (b : t.Bits) : Plain (scalar b) := by
  cases t with
  | uint64 => exact nomatch h
  | float => exact nomatch h
  | _ =>
    obtain rfl := Option.some.inj h
    trivial

/-- A signed integer of 32 bits at most is an `int`. -/
theorem toInt_ofInt_toInt {w : Nat} (hw : 0 < w) (hw' : w ≤ 32) (b : BitVec w) :
    (Int32.ofInt b.toInt).toInt = b.toInt := by
  have hpow : (2 : Int) ^ (w - 1) ≤ 2 ^ 31 := by
    exact_mod_cast Nat.pow_le_pow_right (show 0 < 2 by decide) (show w - 1 ≤ 31 by omega)
  have hle := BitVec.le_toInt b
  have hlt := BitVec.toInt_lt (x := b)
  exact Int32.toInt_ofInt_of_le (by omega) (by omega)

/-- An unsigned integer of 16 bits at most is an `int`. -/
theorem toInt_ofInt_toNat {w : Nat} (hw : w ≤ 16) (b : BitVec w) :
    (Int32.ofInt b.toNat).toInt = b.toNat := by
  have hpow : 2 ^ w ≤ 2 ^ 16 := Nat.pow_le_pow_right (by decide) hw
  have hlt := b.isLt
  exact Int32.toInt_ofInt_of_le (by omega) (by omega)

/-- Both renderers write a number the same way. -/
theorem scalarText_scalar {t : Elem} {scalar : t.Bits → CJSArg} (h : t.scalar = some scalar)
    (b : t.Bits) : scalarText (scalar b) = elemToString t b := by
  cases t with
  | uint64 => exact nomatch h
  | float => exact nomatch h
  | int8 =>
    obtain rfl := Option.some.inj h
    exact congrArg intToString (toInt_ofInt_toInt (by decide) (by decide) b)
  | int16 =>
    obtain rfl := Option.some.inj h
    exact congrArg intToString (toInt_ofInt_toInt (by decide) (by decide) b)
  | int32 =>
    obtain rfl := Option.some.inj h
    exact congrArg intToString (toInt_ofInt_toInt (by decide) (by decide) b)
  | uint8 =>
    obtain rfl := Option.some.inj h
    exact congrArg intToString (toInt_ofInt_toNat (by decide) b)
  | uint16 =>
    obtain rfl := Option.some.inj h
    exact congrArg intToString (toInt_ofInt_toNat (by decide) b)
  | uint32 =>
    obtain rfl := Option.some.inj h
    rfl
  | int64 =>
    obtain rfl := Option.some.inj h
    rfl

namespace Layout

variable {h : CHeap} {L : Layout}

/-- What lies at the root of a tree and needs no other block is all there is. -/
theorem text_of_plain {a : CJSArg} (hL : L.On h) (hroot : h.cell L.root = some (.arg a))
    (ha : Plain a) : L.text h = scalarText a := by
  cases L with
  | plain p => simp only [text, show h.cell p = some (.arg a) from hroot]
  | data p q =>
    obtain ⟨a', hp, hdata⟩ := hL
    rw [show h.cell p = some (.arg a) from hroot] at hp
    obtain rfl : a = a' := by simpa using hp
    rcases hdata with ⟨rfl, -⟩ | ⟨elems, count, rfl, -⟩
    · exact ha.elim
    · exact ha.elim
  | exception p m n =>
    obtain ⟨hp, -⟩ := hL
    rw [show h.cell p = some (.arg a) from hroot] at hp
    obtain rfl : a = .exception (some m) (some n) := by simpa using hp
    exact ha.elim
  | array p q items =>
    obtain ⟨capacity, ps, hp, -⟩ := hL
    rw [show h.cell p = some (.arg a) from hroot] at hp
    obtain rfl : a = .cArray (some q) items.length capacity := by simpa using hp
    exact ha.elim

theorem IsTyped.text_eq {a : JSArgTypedArray} (hL : L.IsTyped h a) :
    L.text h = bracketed (a.values.map (elemToString a.elem)) := by
  obtain ⟨p, q, rfl, hp, hq⟩ := hL
  rw [text, hp, hq, dataText, List.take_length]

theorem IsArrayOf.text_eq {args : List CJSArg} (hL : L.IsArrayOf h args) (hon : L.On h)
    (hplain : ∀ a ∈ args, Plain a) : L.text h = bracketed (args.map scalarText) := by
  obtain ⟨p, q, items, rfl, hcells⟩ := hL
  obtain ⟨-, -, -, -, -, hitems⟩ := hon
  rw [onItems_iff] at hitems
  rw [text, textItems_eq_map]
  congr 1
  -- element by element
  clear p q
  induction items generalizing args with
  | nil =>
    obtain rfl : args = [] := by simpa using hcells.symm
    rfl
  | cons K rest ih =>
    cases args with
    | nil => exact absurd hcells (by simp)
    | cons a args =>
      rw [List.map_cons, List.map_cons] at hcells
      obtain ⟨hK, hrest⟩ := List.cons.inj hcells
      rw [List.map_cons, List.map_cons, text_of_plain (hitems K (List.mem_cons_self ..)) hK
        (hplain a (List.mem_cons_self ..)), ih (fun b hb => hplain b (List.mem_cons_of_mem _ hb))
        hrest fun M hM => hitems M (List.mem_cons_of_mem _ hM)]

end Layout

/-- **The two array renderers agree**: a typed array and the C array of the scalars
of the same numbers, in any program that has built both, have the same text. -/
theorem renderers_agree {h : CHeap} {calls : List Building.Call} {st : Building}
    (hrun : Run Building.step ⟨h, []⟩ calls st) {t : Elem} {scalar : t.Bits → CJSArg}
    (hscalar : t.scalar = some scalar) {xs : List t.Bits} {L L' : Layout} (hL : L ∈ st.trees)
    (hL' : L' ∈ st.trees) (htyped : L.IsTyped st.heap ⟨t, xs⟩)
    (harray : L'.IsArrayOf st.heap (xs.map scalar)) :
    ∃ text, WritesText st.heap L text ∧ WritesText st.heap L' text := by
  have hon := (Building.wellBuilt_of_run hrun).on
  have htext : L.text st.heap = L'.text st.heap := by
    rw [htyped.text_eq, harray.text_eq (hon L' hL') fun a ha => ?_, List.map_map]
    · congr 1
      exact List.map_congr_left fun b _ => (scalarText_scalar hscalar b).symm
    · obtain ⟨b, -, rfl⟩ := List.mem_map.mp ha
      exact t.plain_scalar hscalar b
  exact ⟨L.text st.heap, writesText (hon L hL), htext ▸ writesText (hon L' hL')⟩

/-- `jsarg_i8_array({-5}, 1)`, and `jsarg_carray(1)` with `jsarg_int(-5)` added. -/
theorem renderers_agree_minusFive : ∃ (st : Building) (L L' : Layout), L ∈ st.trees ∧
    L' ∈ st.trees ∧ L.IsTyped st.heap ⟨.int8, [251]⟩ ∧ L'.IsArrayOf st.heap [.int (-5)] ∧
    ∃ text, WritesText st.heap L text ∧ WritesText st.heap L' text := by
  have hbuilt : ∃ calls t, Run Building.step ⟨Store.empty, []⟩ calls
      ⟨t, [.array 2 3 [.plain 4], .data 0 1]⟩ ∧
      t.cell 0 = some (.arg (.typedArray .int8 (some 1) 1)) ∧
      t.cell 1 = some (.elems ⟨.int8, [251]⟩) ∧ t.cell 4 = some (.arg (.int (-5))) := by
    refine ⟨_, _, .cons (.make (c := .elems ⟨.int8, [251]⟩) rfl) (.cons (.make (c := .carray 1) rfl)
      (.cons (.make (c := .int (-5)) rfl) (.cons (@Building.step.add _ 2 _ (.array 2 3 [])
        (.plain 4) [.data 0 1] ?_ ?_ ⟨_, _, _, rfl, ?_⟩ rfl) (.nil _)))), rfl, rfl, rfl⟩
    · exact @List.perm_append_comm _ [Layout.data 0 1] _
    · exact List.mem_cons_self ..
    · exact Nat.zero_lt_one
  obtain ⟨calls, t, hrun, h0, h1, h4⟩ := hbuilt
  have htyped : (Layout.data 0 1).IsTyped t ⟨.int8, [251]⟩ := ⟨0, 1, rfl, h0, h1⟩
  have harray : (Layout.array 2 3 [.plain 4]).IsArrayOf t [.int (-5)] :=
    ⟨2, 3, [.plain 4], rfl, congrArg (fun b => [b]) h4⟩
  have hmem : Layout.data 0 1 ∈ [Layout.array 2 3 [.plain 4], .data 0 1] :=
    List.mem_cons_of_mem _ (List.mem_cons_self ..)
  exact ⟨_, _, _, hmem, List.mem_cons_self .., htyped, harray,
    @renderers_agree _ _ _ hrun .int8 (fun b => .int (Int32.ofInt b.toInt)) rfl [251] _ _ hmem
      (List.mem_cons_self ..) htyped harray⟩

end Ejr
