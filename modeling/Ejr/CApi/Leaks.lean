import Ejr.CApi.Fill
import Ejr.CApi.Render

/-!
# What is left of a text

`jsarg_to_string` asks itself for the text of every element of an array, and
does not free what it gets. So of a rendering of which the caller frees the
result as it should, with `ejr_free_string`, one block is left for every element
at every depth (`showAll_leaves`): nothing exactly when the tree is no array, or
an empty one.

The account goes along `Store.Leaves`. That the function returns, with the text,
is `shows_jsargToString`; `LeavesTexts` adds what it has allocated.
-/

namespace Ejr

open Lib Layout

/-! ## The functions -/

/-- `ejr_free_string`. -/
def ejrFreeString : Ptr → CM Unit
  | none => pure ()
  | some cString => release .badAccess cString

/-- The texts of these arguments, each freed after it has been used. -/
def showAll (depth : Nat) : List Ptr → CM Unit
  | [] => pure ()
  | arg :: args => do
    let str ← jsargToString depth arg
    ejrFreeString str
    showAll depth args

/-! ## Elements -/

namespace Layout

mutual

/-- The number of elements of the tree, at all depths. -/
def inner : Layout → Nat
  | .array _ _ items => innerItems items
  | _ => 0

/-- The elements, and theirs. -/
def innerItems : List Layout → Nat
  | [] => 0
  | L :: rest => (L.inner + 1) + innerItems rest

end

/-- Only an array with elements has any. -/
theorem inner_eq_zero_iff (L : Layout) : L.inner = 0 ↔ ∀ p q M Ms, L ≠ .array p q (M :: Ms) := by
  cases L with
  | array p q items =>
    cases items with
    | nil => simp [inner, innerItems]
    | cons M Ms => simp [inner, innerItems]
  | _ => simp [inner]

end Layout

/-! ## What is allocated -/

theorem readOnly_bytesToString (t : Elem) (items : Ptr) (count : Nat) :
    ReadOnly (bytesToString t items count) := by
  have hloop : ∀ (q n i : Nat) (res : Bytes), ReadOnly (bytesToStringLoop t q i n res) := by
    intro q n
    induction n with
    | zero => exact fun i res => readOnly_pure _
    | succ n ih =>
      intro i res
      refine readOnly_bind (readOnly_bind (readOnly_readBlock _ _) fun values => ?_) fun _ => ih _ _
      cases values[i]? with
      | none => exact readOnly_throw _
      | some b => exact readOnly_pure _
  cases items with
  | none => exact readOnly_pure _
  | some q => exact readOnly_bind (hloop q count 0 _) fun _ => readOnly_pure _

/-- Except for the elements of an array nothing is allocated before the text. -/
theorem readOnly_jsargText {rec : Ptr → CM Ptr} {a : CJSArg}
    (ha : ∀ q count capacity, a ≠ .cArray (some q) count capacity) : ReadOnly (jsargText rec a) := by
  cases a with
  | string str => exact readOnly_bind (readOnly_derefChars str) fun _ => readOnly_pure _
  | exception msg name =>
    exact readOnly_bind (readOnly_derefChars name) fun _ =>
      readOnly_bind (readOnly_derefChars msg) fun _ => readOnly_pure _
  | cArray items count capacity =>
    cases items with
    | none => exact readOnly_pure _
    | some q => exact absurd rfl (ha q count capacity)
  | typedArray t items count =>
    cases items with
    | none => exact readOnly_pure _
    | some q => exact readOnly_bytesToString t (some q) count
  | _ => exact readOnly_pure _

/-- Run at the root, the program returns its last new block, and leaves it and
one for every element. -/
def LeavesTexts (rec : Ptr → CM Ptr) (L : Layout) : Prop :=
  ∀ s : CHeap, L.On s → wp (rec (some L.root)) s
    (fun r t => s.Leaves (L.inner + 1) t ∧ ∃ x, r = some x ∧ s.next ≤ x ∧ (t.cell x).isSome = true)
    (fun _ _ => False)

/-- The loop over the slots at `q`. -/
theorem leaves_jsargToStringItems {rec : Ptr → CM Ptr} {q : Nat} {slots : List Ptr} :
    ∀ (items : List Layout) (i : Nat) (s : CHeap) (str : Bytes),
      (∀ L ∈ items, LeavesTexts rec L ∧ Shows rec L) → s.cell q = some (.items slots) →
      (slots.drop i).take items.length = items.map (some ·.root) → (∀ L ∈ items, L.On s) →
      wp (jsargToStringItems rec q i items.length str) s
        (fun _ t => s.Leaves (innerItems items) t) (fun _ _ => False)
  | [], _, s, _, _, _, _, _ => Store.Leaves.refl s
  | L :: rest, i, s, str, hrec, hq, hslots, hon => by
    obtain ⟨hslot, hrest⟩ := take_drop_cons hslots
    obtain ⟨hleft, hshows⟩ := hrec L (List.mem_cons_self ..)
    have hL := hon L (List.mem_cons_self ..)
    simp only [List.length_cons, jsargToStringItems, wp_bind, getItem]
    rw [wp_readBlock CBlock.items? hq rfl, hslot, wp_pure]
    refine wp_mono (wp_and (hleft s hL) (hshows s hL)) ?_ (fun _ _ h => h.1)
    intro r t ht
    obtain ⟨⟨hleaves, -⟩, x, m, rfl, hx, -, -⟩ := ht
    rw [wp_derefChars hx]
    refine wp_mono (leaves_jsargToStringItems rest (i + 1) t _
      (fun K hK => hrec K (List.mem_cons_of_mem _ hK)) (hleaves.grows.cell_eq hq id) hrest
      fun K hK => ((hon K (List.mem_cons_of_mem _ hK)).grows hleaves.grows).1) ?_ (fun _ _ h => h)
    intro _ u hu
    rw [innerItems]
    exact hleaves.trans hu

/-- The text itself is one more block. -/
theorem leaves_createRawString {s t : CHeap} {n : Nat} (h : s.Leaves n t) (str : Bytes) :
    wp (createRawString str) t (fun r u => s.Leaves (n + 1) u ∧
      ∃ x, r = some x ∧ s.next ≤ x ∧ (u.cell x).isSome = true) (fun _ _ => False) := by
  rw [createRawString, wp_copyChars]
  refine ⟨h.trans (t.leaves_alloc _), t.next, rfl, h.grows.next, ?_⟩
  rw [t.alloc_cell_self]
  rfl

/-- A tree that is no array. -/
theorem leavesTexts_leaf {L : Layout} (hL : ∀ p q items, L ≠ .array p q items) (n : Nat)
    (hshows : Shows (jsargToString (n + 1)) L) : LeavesTexts (jsargToString (n + 1)) L := by
  intro s hon
  obtain ⟨a, hroot, hleaf⟩ : ∃ a, s.cell L.root = some (.arg a) ∧
      ∀ q count capacity, a ≠ .cArray (some q) count capacity := by
    cases L with
    | plain p =>
      obtain ⟨a, hp, ha⟩ := hon
      refine ⟨a, hp, ?_⟩
      rintro q count capacity rfl
      exact ha
    | data p q =>
      obtain ⟨a, hp, ha⟩ := hon
      refine ⟨a, hp, ?_⟩
      rcases ha with ⟨rfl, -⟩ | ⟨elems, count, rfl, -⟩
      · simp
      · simp
    | exception p m n => exact ⟨_, hon.1, by simp⟩
    | array p q items => exact absurd rfl (hL p q items)
  have hinner : L.inner = 0 := L.inner_eq_zero_iff.mpr fun p q M Ms => hL p q (M :: Ms)
  have hrun : wp (jsargToString (n + 1) (some L.root)) s (fun r t => s.Leaves (L.inner + 1) t ∧
      ∃ x, r = some x ∧ s.next ≤ x ∧ (t.cell x).isSome = true) (fun _ _ => True) := by
    rw [jsargToString, wp_bind, wp_derefArg hroot, wp_bind, hinner]
    refine wp_mono (readOnly_jsargText hleaf s trivial) ?_ (fun _ _ _ => trivial)
    intro str t ht
    obtain ⟨rfl, -⟩ := ht
    exact wp_mono (leaves_createRawString (Store.Leaves.refl t) str) (fun _ _ h => h) (fun _ _ h => h.elim)
  exact wp_mono (wp_and hrun (hshows s hon)) (fun _ _ h => h.1) (fun _ _ h => h.2)

/-- **`jsarg_to_string`** leaves its text, and the text of every element. -/
theorem leavesTexts_jsargToString (L : Layout) :
    ∀ n, L.blocks.length ≤ n → LeavesTexts (jsargToString n) L := by
  induction L using Layout.induct with
  | array p q items ih =>
    intro n hn s hon
    rw [blocks, List.length_cons, List.length_cons] at hn
    obtain ⟨n, rfl⟩ : ∃ m, n = m + 1 := ⟨n - 1, by omega⟩
    obtain ⟨capacity, slots, hp, hq, hslots, hitems⟩ := hon
    rw [onItems_iff] at hitems
    have hrec : ∀ L ∈ items, LeavesTexts (jsargToString n) L ∧ Shows (jsargToString n) L := by
      intro L hL
      have hle := (blocks_sublist_items hL).length_le
      exact ⟨ih L hL n (by omega), shows_jsargToString L n (by omega)⟩
    rw [root, jsargToString, wp_bind, wp_derefArg hp, wp_bind, jsargText, wp_bind]
    refine wp_mono (leaves_jsargToStringItems items 0 s _ hrec hq hslots hitems) ?_ (fun _ _ h => h)
    intro str t ht
    exact leaves_createRawString ht _
  | _ =>
    intro n hn
    obtain ⟨n, rfl⟩ := exists_fuel hn
    exact leavesTexts_leaf (by simp) n (shows_jsargToString _ _ hn)

/-! ## Texts that are freed -/

/-- **Of every text that is made and freed the texts of its elements are left**:
over any number of arguments, as many blocks as they have elements at all
depths. -/
theorem showAll_leaves {depth : Nat} : ∀ (Ls : List Layout) (s : CHeap), (∀ L ∈ Ls, L.On s) →
    (∀ L ∈ Ls, L.blocks.length ≤ depth) →
    wp (showAll depth (Ls.map (some ·.root))) s
      (fun _ t => s.Leaves (Ls.map inner).sum t) (fun _ _ => False)
  | [], s, _, _ => Store.Leaves.refl s
  | L :: Ls, s, hon, hdepth => by
    obtain ⟨hL, hLs⟩ := List.forall_mem_cons.mp hon
    obtain ⟨hdL, hdLs⟩ := List.forall_mem_cons.mp hdepth
    rw [List.map_cons, showAll, wp_bind]
    refine wp_mono (leavesTexts_jsargToString L depth hdL s hL) ?_ (fun _ _ h => h)
    intro r t ht
    obtain ⟨hleaves, x, rfl, hx, hlive⟩ := ht
    have hleft := hleaves.without hx hlive
    obtain ⟨b, hb⟩ := Option.isSome_iff_exists.mp hlive
    rw [wp_bind, ejrFreeString, wp_release hb]
    refine wp_mono (showAll_leaves Ls _ (fun K hK => ((hLs K hK).grows hleft.grows).1) hdLs) ?_
      (fun _ _ h => h)
    intro _ u hu
    rw [List.map_cons, List.sum_cons]
    exact hleft.trans hu

/-- The array `[5]`. -/
def arrayOfFive : CHeap :=
  ((Store.empty.alloc (.arg (.int 5))).alloc (.items [some 0])).alloc (.arg (.cArray (some 1) 1 1))

/-- Its text, made and freed twice. -/
theorem showAll_leaves_twice :
    wp (showAll 3 ([Layout.array 2 1 [.plain 0], .array 2 1 [.plain 0]].map (some ·.root)))
      arrayOfFive (fun _ t => arrayOfFive.Leaves 2 t) (fun _ _ => False) := by
  have hon : (Layout.array 2 1 [.plain 0]).On arrayOfFive :=
    ⟨1, [some 0], rfl, rfl, rfl, ⟨.int 5, rfl, trivial⟩, trivial⟩
  have hall : ∀ L ∈ [Layout.array 2 1 [.plain 0], .array 2 1 [.plain 0]], L.On arrayOfFive ∧
      L.blocks.length ≤ 3 := by
    intro L hL
    obtain rfl : L = .array 2 1 [.plain 0] := by simpa using hL
    exact ⟨hon, Nat.le_refl 3⟩
  exact showAll_leaves _ _ (fun L hL => (hall L hL).1) fun L hL => (hall L hL).2

end Ejr
