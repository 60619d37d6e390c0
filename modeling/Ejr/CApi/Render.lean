import Ejr.Decimal
import Ejr.CApi.Build

/-!
# `jsarg_to_string`

`jsarg_to_string` (src/ejr_c_api.cpp) with the two helpers it uses,
`create_raw_string` (src/utils.cpp) and `bytes_to_string` (src/utils.hpp). What it
writes for a tree that lies in the heap is `Layout.text` (`shows_jsargToString`);
the results about the texts are then about lists of bytes.

Mirroring notes:
- `jsarg_to_string` follows pointers; the model carries a bound on its depth, which
  the number of blocks is always enough for.
- The text of an element is a new block that is read once and never freed.
- `std::string(p)` and `str += p` of a NULL `p` end with `badAccess`.
-/

namespace Ejr

open Lib Layout

/-! ## The functions -/

/-- `create_raw_string`. -/
def createRawString (str : Bytes) : CM Ptr := copyChars str

/-- `items[i]` of a typed array. -/
def getElement (t : Elem) (items i : Nat) : CM t.Bits := do
  let values ← readBlock (some items) (CBlock.elems? t)
  match values[i]? with
  | some b => pure b
  | none => throw .badAccess

/-- The loop of `bytes_to_string`: `n` elements, from index `i` on. -/
def bytesToStringLoop (t : Elem) (items : Nat) : Nat → Nat → Bytes → CM Bytes
  | _, 0, res => pure res
  | i, n + 1, res => do
    let res := if i > 0 then res ++ ascii ", " else res
    let b ← getElement t items i
    bytesToStringLoop t items (i + 1) n (res ++ elemToString t b)

/-- `bytes_to_string`. -/
def bytesToString (t : Elem) (items : Ptr) (count : Nat) : CM Bytes :=
  match items with
  | none => pure (ascii "[]")
  | some items => do
    let res ← bytesToStringLoop t items 0 count (ascii "[")
    pure (res ++ ascii "]")

/-- The loop of `jsarg_to_string` over the elements: `n` of them, from index `i` on. -/
def jsargToStringItems (rec : Ptr → CM Ptr) (items : Nat) : Nat → Nat → Bytes → CM Bytes
  | _, 0, str => pure str
  | i, n + 1, str => do
    let str := if i > 0 then str ++ ascii ", " else str
    let item ← getItem items i
    let p ← rec item
    let m ← derefChars p
    jsargToStringItems rec items (i + 1) n (str ++ cstr m)

/-- The cases of the `switch` that read no other block. -/
def scalarText : CJSArg → Bytes
  | .int v => intToString v.toInt
  | .double v | .float v => doubleToString v
  | .bool b => intToString (if b then 1 else 0)
  | .int64 v => intToString v.toInt
  | .uint32 v => intToString v.toNat
  | .null => ascii "null"
  | .undefined => ascii "undefined"
  | _ => []

/-- The `switch` of `jsarg_to_string`. -/
def jsargText (rec : Ptr → CM Ptr) : CJSArg → CM Bytes
  | .string str => do
    let m ← derefChars str
    pure (cstr m)
  | .exception msg name => do
    let n ← derefChars name
    let m ← derefChars msg
    pure (cstr n ++ (ascii "," ++ cstr m))
  | .cArray none _ _ => pure []
  | .cArray (some items) count _ => do
    let str ← jsargToStringItems rec items 0 count (ascii "[")
    pure (str ++ ascii "]")
  | .typedArray _ none _ => pure []
  | .typedArray t (some items) count => bytesToString t (some items) count
  | a => pure (scalarText a)

/-- `jsarg_to_string`, at most as deep as the first argument says. -/
def jsargToString : Nat → Ptr → CM Ptr
  | 0, _ => throw .depth
  | _ + 1, none => pure none
  | n + 1, some arg => do
    let a ← derefArg (some arg)
    let str ← jsargText (jsargToString n) a
    createRawString str

/-! ## The text -/

/-- What both loops append for these texts, from index `i` on. -/
def separated : Nat → List Bytes → Bytes
  | _, [] => []
  | i, t :: ts => (if i > 0 then ascii ", " else []) ++ (t ++ separated (i + 1) ts)

/-- A list of texts in brackets. -/
def bracketed (ts : List Bytes) : Bytes :=
  ascii "[" ++ ((ascii ", ").intercalate ts ++ ascii "]")

theorem append_separated (i : Nat) : ∀ (t : Bytes) (ts : List Bytes),
    t ++ separated (i + 1) ts = (ascii ", ").intercalate (t :: ts)
  | t, [] => by rw [separated, List.append_nil, List.intercalate_singleton]
  | t, u :: us => by
    rw [separated, if_pos (Nat.succ_pos i), append_separated (i + 1) u us,
      List.intercalate_cons_cons, List.append_assoc]

theorem separated_zero : ∀ ts : List Bytes, separated 0 ts = (ascii ", ").intercalate ts
  | [] => rfl
  | t :: ts => by
    rw [← append_separated 0 t ts]
    rfl

/-- What the loops put between the brackets. -/
theorem bracketed_eq (ts : List Bytes) :
    (ascii "[" ++ separated 0 ts) ++ ascii "]" = bracketed ts := by
  rw [separated_zero, List.append_assoc]
  rfl

/-- The C string in a block. -/
def charsText : Option CBlock → Bytes
  | some (.chars m) => cstr m
  | _ => []

/-- The text of an argument and its block of text or elements. -/
def dataText : Option CBlock → Option CBlock → Bytes
  | some (.arg (.typedArray _ _ count)), some (.elems a) =>
    bracketed ((a.values.take count).map (elemToString a.elem))
  | _, b => charsText b

namespace Layout

mutual

/-- The text of a tree. -/
def text (h : CHeap) : Layout → Bytes
  | .plain p =>
    match h.cell p with
    | some (.arg a) => scalarText a
    | _ => []
  | .data p q => dataText (h.cell p) (h.cell q)
  | .exception _ m n => charsText (h.cell n) ++ (ascii "," ++ charsText (h.cell m))
  | .array _ _ items => bracketed (textItems h items)

/-- The texts of the elements. -/
def textItems (h : CHeap) : List Layout → List Bytes
  | [] => []
  | L :: rest => L.text h :: textItems h rest

end

section

variable {h t : CHeap}

theorem textItems_eq_map : ∀ items : List Layout, textItems h items = items.map (text h)
  | [] => rfl
  | L :: rest => by rw [textItems, textItems_eq_map rest, List.map_cons]

/-- Only the tree's own blocks matter. -/
theorem text_congr {L : Layout} (heq : ∀ x ∈ L.blocks, t.cell x = h.cell x) :
    L.text t = L.text h := by
  induction L using Layout.induct with
  | plain p => simp only [text, heq p (by simp [blocks])]
  | data p q => simp only [text, heq p (by simp [blocks]), heq q (by simp [blocks])]
  | exception p m n => simp only [text, heq m (by simp [blocks]), heq n (by simp [blocks])]
  | array p q items ih =>
    rw [text, text, textItems_eq_map, textItems_eq_map]
    congr 1
    refine List.map_congr_left fun L hL => ih L hL fun x hx => heq x ?_
    exact List.mem_cons_of_mem _ (List.mem_cons_of_mem _ ((blocks_sublist_items hL).subset hx))

end

end Layout

/-! ### No text has a NUL -/

theorem nulFree_bracketed {ts : List Bytes} (h : ∀ t ∈ ts, NulFree t) : NulFree (bracketed ts) := by
  have hjoined : NulFree ((ascii ", ").intercalate ts) := by
    induction ts with
    | nil => exact nulFree_nil
    | cons t rest ih =>
      have hrest := ih fun u hu => h u (List.mem_cons_of_mem _ hu)
      have ht := h t (List.mem_cons_self ..)
      cases rest with
      | nil =>
        rw [List.intercalate_singleton]
        exact ht
      | cons u us =>
        rw [List.intercalate_cons_cons]
        exact (ht.append (by decide)).append hrest
  have hopen : NulFree (ascii "[") := by decide
  exact hopen.append (hjoined.append (by decide))

theorem nulFree_scalarText (a : CJSArg) : NulFree (scalarText a) := by
  cases a with
  | int v => exact nulFree_intToString _
  | double v => exact nulFree_doubleToString _
  | float v => exact nulFree_doubleToString _
  | bool b => exact nulFree_intToString _
  | int64 v => exact nulFree_intToString _
  | uint32 v => exact nulFree_intToString _
  | null => decide
  | undefined => decide
  | _ => exact nulFree_nil

theorem nulFree_charsText (b : Option CBlock) : NulFree (charsText b) := by
  unfold charsText
  split
  next m => exact nulFree_cstr m
  next => decide

theorem nulFree_dataText (a b : Option CBlock) : NulFree (dataText a b) := by
  unfold dataText
  split
  next =>
    refine nulFree_bracketed fun u hu => ?_
    obtain ⟨c, -, rfl⟩ := List.mem_map.mp hu
    exact nulFree_elemToString _ c
  next => exact nulFree_charsText _

theorem nulFree_text (h : CHeap) (L : Layout) : NulFree (L.text h) := by
  induction L using Layout.induct with
  | plain p =>
    rw [text]
    split
    next a _ => exact nulFree_scalarText a
    next => decide
  | data p q => exact nulFree_dataText _ _
  | exception p m n =>
    have hcomma : NulFree (ascii ",") := by decide
    exact (nulFree_charsText _).append (hcomma.append (nulFree_charsText _))
  | array p q items ih =>
    rw [text, textItems_eq_map]
    refine nulFree_bracketed fun u hu => ?_
    obtain ⟨L, hL, rfl⟩ := List.mem_map.mp hu
    exact ih L hL

/-! ## What is written -/

/-- The loop of `bytes_to_string` over the block at `q`. -/
theorem wp_bytesToStringLoop {t : Elem} {q : Nat} {s : CHeap} {values : List t.Bits}
    (hq : s.cell q = some (.elems ⟨t, values⟩)) : ∀ (n i : Nat) (res : Bytes),
    i + n ≤ values.length → wp (bytesToStringLoop t q i n res) s
      (fun r u => r = res ++ separated i (((values.drop i).take n).map (elemToString t)) ∧ u = s)
      (fun _ _ => False)
  | 0, i, res, _ => by
    rw [List.take_zero, List.map_nil, separated, List.append_nil]
    exact ⟨rfl, rfl⟩
  | n + 1, i, res, hle => by
    have hi : i < values.length := by omega
    have helems : CBlock.elems? t (.elems ⟨t, values⟩) = some values := dif_pos rfl
    simp only [bytesToStringLoop, getElement, wp_bind]
    rw [wp_readBlock _ hq helems, List.getElem?_eq_getElem hi, wp_pure]
    refine wp_mono (wp_bytesToStringLoop hq n (i + 1) _ (by omega)) ?_ (fun _ _ h => h)
    intro r u hu
    obtain ⟨rfl, rfl⟩ := hu
    rw [List.drop_eq_getElem_cons hi, List.take_succ_cons, List.map_cons, separated]
    refine ⟨?_, rfl⟩
    split
    · simp only [List.append_assoc]
    · simp only [List.append_assoc, List.nil_append]

/-- Run at the root, the program comes to the tree's text, in a new block. -/
def Shows (rec : Ptr → CM Ptr) (L : Layout) : Prop :=
  ∀ s : CHeap, L.On s → wp (rec (some L.root)) s
    (fun r t => ∃ x m, r = some x ∧ t.cell x = some (.chars m) ∧ cstr m = L.text s ∧
      s.Grows (fun _ => False) t) (fun _ _ => False)

/-- Growing changes neither where a tree lies nor its text. -/
theorem Layout.On.grows {s t : CHeap} {L : Layout} (hL : L.On s)
    (hgrows : s.Grows (fun _ => False) t) : L.On t ∧ L.text t = L.text s := by
  have hsame : ∀ x ∈ L.blocks, t.cell x = s.cell x := by
    intro x hx
    obtain ⟨b, hb⟩ := Option.isSome_iff_exists.mp (hL.live x hx)
    exact hgrows.cell x (Store.lt_next hb) id
  exact ⟨hL.congr hsame, text_congr hsame⟩

/-- The loop over the slots at `q`. -/
theorem wp_jsargToStringItems {rec : Ptr → CM Ptr} {q : Nat} {slots : List Ptr} :
    ∀ (items : List Layout) (i : Nat) (s : CHeap) (str : Bytes), (∀ L ∈ items, Shows rec L) →
      s.cell q = some (.items slots) → (slots.drop i).take items.length = items.map (some ·.root) →
      (∀ L ∈ items, L.On s) →
      wp (jsargToStringItems rec q i items.length str) s
        (fun r t => r = str ++ separated i (textItems s items) ∧ s.Grows (fun _ => False) t)
        (fun _ _ => False)
  | [], i, s, str, _, _, _, _ => by
    rw [textItems, separated, List.append_nil]
    exact ⟨rfl, Store.Grows.refl _ s⟩
  | L :: rest, i, s, str, hshows, hq, hslots, hon => by
    obtain ⟨hslot, hrest⟩ := take_drop_cons hslots
    simp only [List.length_cons, jsargToStringItems, wp_bind, getItem]
    rw [wp_readBlock CBlock.items? hq rfl, hslot, wp_pure]
    refine wp_mono (hshows L (List.mem_cons_self ..) s (hon L (List.mem_cons_self ..))) ?_
      (fun _ _ h => h)
    intro r t ht
    obtain ⟨x, m, rfl, hx, hm, hgrows⟩ := ht
    rw [wp_derefChars hx]
    -- the other elements lie there still, with the same texts
    have hstay : ∀ K ∈ rest, K.On t ∧ K.text t = K.text s := fun K hK =>
      (hon K (List.mem_cons_of_mem _ hK)).grows hgrows
    have htexts : textItems t rest = textItems s rest := by
      rw [textItems_eq_map, textItems_eq_map]
      exact List.map_congr_left fun K hK => (hstay K hK).2
    refine wp_mono (wp_jsargToStringItems rest (i + 1) t _
      (fun K hK => hshows K (List.mem_cons_of_mem _ hK)) (hgrows.cell_eq hq id) hrest
      fun K hK => (hstay K hK).1) ?_ (fun _ _ h => h)
    intro r u hu
    obtain ⟨rfl, hgrows'⟩ := hu
    refine ⟨?_, hgrows.trans hgrows'⟩
    rw [htexts, hm, textItems, separated]
    split
    · simp only [List.append_assoc]
    · simp only [List.append_assoc, List.nil_append]

/-- The block that is returned. -/
theorem shows_of_text {s t : CHeap} {L : Layout} (hgrows : s.Grows (fun _ => False) t) :
    wp (createRawString (L.text s)) t (fun r u => ∃ x m, r = some x ∧ u.cell x = some (.chars m) ∧
      cstr m = L.text s ∧ s.Grows (fun _ => False) u) (fun _ _ => False) := by
  rw [createRawString, wp_copyChars]
  refine ⟨_, _, rfl, t.alloc_cell_self _, ?_, hgrows.alloc _⟩
  rw [cstr_copy, cstr_of_nulFree (nulFree_text s L)]

/-- The `switch`, for an array whose elements are written as they should be. -/
theorem wp_jsargText_array {rec : Ptr → CM Ptr} {p q capacity : Nat} {slots : List Ptr} {s : CHeap}
    {items : List Layout} (hshows : ∀ L ∈ items, Shows rec L) (hq : s.cell q = some (.items slots))
    (hslots : slots.take items.length = items.map (some ·.root)) (hon : ∀ L ∈ items, L.On s) :
    wp (jsargText rec (.cArray (some q) items.length capacity)) s
      (fun r t => r = (Layout.array p q items).text s ∧ s.Grows (fun _ => False) t)
      (fun _ _ => False) := by
  rw [jsargText, wp_bind]
  refine wp_mono (wp_jsargToStringItems items 0 s _ hshows hq hslots hon) ?_ (fun _ _ h => h)
  intro r t ht
  obtain ⟨rfl, hgrows⟩ := ht
  exact ⟨bracketed_eq _, hgrows⟩

/-- **`jsarg_to_string`** writes the text of the tree. -/
theorem shows_jsargToString (L : Layout) :
    ∀ n, L.blocks.length ≤ n → Shows (jsargToString n) L := by
  induction L using Layout.induct with
  | plain p =>
    intro n hn s hon
    obtain ⟨n, rfl⟩ := exists_fuel hn
    obtain ⟨a, hp, ha⟩ := hon
    have htext : jsargText (jsargToString n) a = pure ((Layout.plain p).text s) := by
      rw [text, hp]
      cases a <;> first | rfl | exact ha.elim
    rw [root, jsargToString, wp_bind, wp_derefArg hp, wp_bind, htext, wp_pure]
    exact shows_of_text (Store.Grows.refl _ s)
  | data p q =>
    intro n hn s hon
    obtain ⟨n, rfl⟩ := exists_fuel hn
    obtain ⟨a, hp, ha⟩ := hon
    have htext : wp (jsargText (jsargToString n) a) s
        (fun r t => r = (Layout.data p q).text s ∧ t = s) (fun _ _ => False) := by
      rcases ha with ⟨rfl, m, hq⟩ | ⟨elems, count, rfl, hq, hcount⟩
      · rw [jsargText, wp_bind, wp_derefChars hq, wp_pure, text, hp, hq]
        exact ⟨rfl, rfl⟩
      · rw [jsargText, bytesToString, wp_bind]
        refine wp_mono (wp_bytesToStringLoop hq count 0 _ (by omega)) ?_ (fun _ _ h => h)
        intro r t ht
        obtain ⟨rfl, rfl⟩ := ht
        rw [text, hp, hq]
        exact ⟨bracketed_eq _, rfl⟩
    rw [root, jsargToString, wp_bind, wp_derefArg hp, wp_bind]
    refine wp_mono htext ?_ (fun _ _ h => h)
    intro r t ht
    obtain ⟨rfl, rfl⟩ := ht
    exact shows_of_text (Store.Grows.refl _ t)
  | exception p m n =>
    intro k hk s hon
    obtain ⟨k, rfl⟩ := exists_fuel hk
    obtain ⟨hp, ⟨msg, hm⟩, name, hn⟩ := hon
    have htext : cstr name ++ (ascii "," ++ cstr msg) = (Layout.exception p m n).text s := by
      rw [text, hm, hn]
      rfl
    rw [root, jsargToString, wp_bind, wp_derefArg hp, wp_bind, jsargText, wp_bind,
      wp_derefChars hn, wp_bind, wp_derefChars hm, wp_pure, htext]
    exact shows_of_text (Store.Grows.refl _ s)
  | array p q items ih =>
    intro n hn s hon
    rw [blocks, List.length_cons, List.length_cons] at hn
    obtain ⟨n, rfl⟩ : ∃ m, n = m + 1 := ⟨n - 1, by omega⟩
    obtain ⟨capacity, slots, hp, hq, hslots, hitems⟩ := hon
    rw [onItems_iff] at hitems
    have hshows : ∀ L ∈ items, Shows (jsargToString n) L := by
      intro L hL
      have hle := (blocks_sublist_items hL).length_le
      exact ih L hL n (by omega)
    rw [root, jsargToString, wp_bind, wp_derefArg hp, wp_bind]
    refine wp_mono (wp_jsargText_array (p := p) hshows hq hslots hitems) ?_ (fun _ _ h => h)
    intro r t ht
    obtain ⟨rfl, hgrows⟩ := ht
    exact shows_of_text hgrows

end Ejr
