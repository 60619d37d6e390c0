import Mathlib.Data.List.Perm.Subperm
import Ejr.CApi.Convert

/-!
# `jsarg_free`

`jsarg_free` and `jsarg_free_all` (src/ejr_c_api.cpp), and what they give back of
the blocks a C `JSArg` is spread over. A `Layout` says where these blocks are;
`wp_jsargFree` says that exactly `Layout.freed` are given back, which is all of
them unless there is an exception among them: `jsarg_free` has no case for
`JSARG_TYPE_EXCEPTION`, and its two texts stay.

Mirroring notes:
- To release a block that does not live ends the program with `badAccess`, so
  what a finished run has released it has released once.
- `jsarg_free` follows pointers; the model carries a bound on its depth, which
  the number of blocks is always enough for.
- The nine cases for typed arrays are one.
-/

namespace Ejr

open Lib

/-! ## The functions -/

/-- `delete` and `delete[]`; NULL is let through. -/
def delete : Ptr → CM Unit
  | none => pure ()
  | some a => release .badAccess a

/-- The loop of `jsarg_free` over the elements: `n` of them, from index `i` on. -/
def jsargFreeItems (rec : Ptr → CM Unit) (items : Nat) : Nat → Nat → CM Unit
  | _, 0 => pure ()
  | i, n + 1 => do
    let item ← getItem items i
    rec item
    jsargFreeItems rec items (i + 1) n

/-- The `switch` of `jsarg_free`. -/
def freeMembers (rec : Ptr → CM Unit) : CJSArg → CM Unit
  | .string str => delete str
  | .cArray (some items) count _ => do
    jsargFreeItems rec items 0 count
    delete (some items)
  | .typedArray _ items _ => delete items
  | _ => pure ()

/-- `jsarg_free`, at most as deep as the first argument says. -/
def jsargFree : Nat → Ptr → CM Unit
  | 0, _ => throw .depth
  | _ + 1, none => pure ()
  | n + 1, some arg => do
    let a ← derefArg (some arg)
    freeMembers (jsargFree n) a
    delete (some arg)

/-- `if (args[i] == nullptr) continue; jsarg_free(args[i])`. -/
def freeUnlessNull (depth : Nat) : Ptr → CM Unit
  | none => pure ()
  | some arg => jsargFree depth (some arg)

/-- `jsarg_free_all`. -/
def jsargFreeAll (depth : Nat) (args : Ptr) (argc : Nat) : CM Unit :=
  match args with
  | none => pure ()
  | some args => do
    jsargFreeItems (freeUnlessNull depth) args 0 argc
    delete (some args)

/-! ## Where the blocks of a `JSArg` are -/

/-- The blocks of a `JSArg`: it alone; with its text or its elements; with the
two texts of an exception; with the slots of an array and the elements' blocks. -/
inductive Layout where
  | plain (arg : Nat)
  | data (arg memory : Nat)
  | exception (arg msg name : Nat)
  | array (arg slots : Nat) (items : List Layout)

namespace Layout

/-- The `JSArg` itself. -/
def root : Layout → Nat
  | .plain arg | .data arg _ | .exception arg _ _ | .array arg _ _ => arg

mutual

/-- All of its blocks. -/
def blocks : Layout → List Nat
  | .plain arg => [arg]
  | .data arg memory => [arg, memory]
  | .exception arg msg name => [arg, msg, name]
  | .array arg slots items => arg :: slots :: blocksItems items

/-- All of the elements' blocks. -/
def blocksItems : List Layout → List Nat
  | [] => []
  | L :: rest => L.blocks ++ blocksItems rest

end

mutual

/-- The blocks `jsarg_free` gives back. -/
def freed : Layout → List Nat
  | .plain arg => [arg]
  | .data arg memory => [arg, memory]
  | .exception arg _ _ => [arg]
  | .array arg slots items => arg :: slots :: freedItems items

/-- The blocks it gives back of the elements. -/
def freedItems : List Layout → List Nat
  | [] => []
  | L :: rest => L.freed ++ freedItems rest

end

mutual

/-- There is no exception in it. -/
def NoException : Layout → Prop
  | .plain _ | .data _ _ => True
  | .exception _ _ _ => False
  | .array _ _ items => NoExceptionItems items

/-- There is no exception in any element. -/
def NoExceptionItems : List Layout → Prop
  | [] => True
  | L :: rest => L.NoException ∧ NoExceptionItems rest

end

/-- The members of a `JSArg` with a block of its own, which holds them. -/
def DataAt (h : CHeap) (memory : Nat) (a : CJSArg) : Prop :=
  (a = .string (some memory) ∧ ∃ text, h.cell memory = some (.chars text)) ∨
    ∃ elems count, a = .typedArray elems.elem (some memory) count ∧
      h.cell memory = some (.elems elems) ∧ count ≤ elems.values.length

/-- The members of a `JSArg` without pointers. -/
def Plain : CJSArg → Prop
  | .string _ | .cArray _ _ _ | .typedArray _ _ _ | .exception _ _ => False
  | _ => True

mutual

/-- The blocks lie there, as the constructors leave them. An array may have room
left. -/
def On (h : CHeap) : Layout → Prop
  | .plain arg => ∃ a, h.cell arg = some (.arg a) ∧ Plain a
  | .data arg memory => ∃ a, h.cell arg = some (.arg a) ∧ DataAt h memory a
  | .exception arg msg name => h.cell arg = some (.arg (.exception (some msg) (some name))) ∧
      (∃ text, h.cell msg = some (.chars text)) ∧ ∃ text, h.cell name = some (.chars text)
  | .array arg slots items => ∃ capacity ps,
      h.cell arg = some (.arg (.cArray (some slots) items.length capacity)) ∧
      h.cell slots = some (.items ps) ∧ ps.take items.length = items.map (some ·.root) ∧
      OnItems h items

/-- The blocks of the elements lie there. -/
def OnItems (h : CHeap) : List Layout → Prop
  | [] => True
  | L :: rest => L.On h ∧ OnItems h rest

end

/-- Induction over a layout: arrays from their elements. -/
theorem induct {P : Layout → Prop} (plain : ∀ p, P (.plain p)) (data : ∀ p q, P (.data p q))
    (exception : ∀ p m n, P (.exception p m n))
    (array : ∀ p q items, (∀ L ∈ items, P L) → P (.array p q items)) : ∀ L, P L
  | .plain p => plain p
  | .data p q => data p q
  | .exception p m n => exception p m n
  | .array p q items => array p q items fun L _ => induct plain data exception array L

section

variable {h t : CHeap} {items : List Layout}

theorem onItems_iff : ∀ {items : List Layout}, OnItems h items ↔ ∀ L ∈ items, L.On h
  | [] => by simp [OnItems]
  | L :: rest => by simp [OnItems, @onItems_iff rest]

theorem noExceptionItems_iff :
    ∀ {items : List Layout}, NoExceptionItems items ↔ ∀ L ∈ items, L.NoException
  | [] => by simp [NoExceptionItems]
  | L :: rest => by simp [NoExceptionItems, @noExceptionItems_iff rest]

theorem blocks_sublist_items {L : Layout} : ∀ {items : List Layout}, L ∈ items →
    L.blocks.Sublist (blocksItems items)
  | [], h => nomatch h
  | M :: _, h => by
    rw [blocksItems]
    rcases List.mem_cons.mp h with rfl | h
    · exact List.sublist_append_left _ _
    · exact (blocks_sublist_items h).trans (List.sublist_append_right _ _)

theorem mem_blocksItems {x : Nat} : ∀ {items : List Layout},
    x ∈ blocksItems items ↔ ∃ L ∈ items, x ∈ L.blocks
  | [] => by simp [blocksItems]
  | L :: rest => by simp [blocksItems, @mem_blocksItems x rest]

theorem blocksItems_append : ∀ Ls Ms : List Layout,
    blocksItems (Ls ++ Ms) = blocksItems Ls ++ blocksItems Ms
  | [], _ => rfl
  | L :: Ls, Ms => by
    rw [List.cons_append, blocksItems, blocksItems, blocksItems_append Ls Ms, List.append_assoc]

/-- Different elements share no block. -/
theorem blocks_disjoint {L M : Layout} {x : Nat} : ∀ {items : List Layout},
    (blocksItems items).Nodup → L ∈ items → M ∈ items → L ≠ M → x ∈ L.blocks → x ∉ M.blocks
  | [], _, hL, _, _, _ => nomatch hL
  | N :: rest, hnodup, hL, hM, hne, hx => by
    rw [blocksItems] at hnodup
    obtain ⟨-, hrest, hdisj⟩ := List.nodup_append.mp hnodup
    intro hx'
    rcases List.mem_cons.mp hL with hLN | hLr
    · rcases List.mem_cons.mp hM with hMN | hMr
      · exact hne (hLN.trans hMN.symm)
      · exact hdisj x (hLN ▸ hx) x ((blocks_sublist_items hMr).subset hx') rfl
    · rcases List.mem_cons.mp hM with hMN | hMr
      · exact hdisj x (hMN ▸ hx') x ((blocks_sublist_items hLr).subset hx) rfl
      · exact blocks_disjoint hrest hLr hMr hne hx hx'

theorem freedItems_sublist : ∀ {items : List Layout},
    (∀ L ∈ items, L.freed.Sublist L.blocks) → (freedItems items).Sublist (blocksItems items)
  | [], _ => .slnil
  | L :: _, h =>
    (h L (List.mem_cons_self ..)).append
      (freedItems_sublist fun M hM => h M (List.mem_cons_of_mem _ hM))

/-- Nothing else is given back. -/
theorem freed_sublist (L : Layout) : L.freed.Sublist L.blocks := by
  induction L using Layout.induct with
  | plain p => exact .refl _
  | data p q => exact .refl _
  | exception p m n => exact (List.nil_sublist _).cons_cons p
  | array p q items ih => exact ((freedItems_sublist ih).cons_cons q).cons_cons p

theorem freedItems_eq_iff : ∀ {items : List Layout},
    freedItems items = blocksItems items ↔ ∀ L ∈ items, L.freed = L.blocks
  | [] => by simp [freedItems, blocksItems]
  | L :: rest => by
    rw [freedItems, blocksItems, List.forall_mem_cons, ← @freedItems_eq_iff rest]
    constructor
    · intro heq
      have h1 := L.freed_sublist.length_le
      have h2 := (freedItems_sublist fun M (_ : M ∈ rest) => M.freed_sublist).length_le
      have hlen := congrArg List.length heq
      rw [List.length_append, List.length_append] at hlen
      exact List.append_inj heq (by omega)
    · intro heq
      rw [heq.1, heq.2]

/-- Everything is given back exactly when there is no exception. -/
theorem freed_eq_iff (L : Layout) : L.freed = L.blocks ↔ L.NoException := by
  induction L using Layout.induct with
  | plain p => simp [freed, blocks, NoException]
  | data p q => simp [freed, blocks, NoException]
  | exception p m n => simp [freed, blocks, NoException]
  | array p q items ih =>
    rw [freed, blocks, NoException, noExceptionItems_iff, List.cons.injEq, List.cons.injEq,
      freedItems_eq_iff]
    constructor
    · intro h L hL
      exact (ih L hL).mp (h.2.2 L hL)
    · intro h
      exact ⟨rfl, rfl, fun L hL => (ih L hL).mpr (h L hL)⟩

/-- Where every block is given back there is no exception. -/
theorem noException_of_freed {Ls : List Layout} (hnodup : (blocksItems Ls).Nodup)
    (h : ∀ x ∈ blocksItems Ls, x ∈ freedItems Ls) : ∀ L ∈ Ls, L.NoException := by
  have hsub := freedItems_sublist fun L (_ : L ∈ Ls) => L.freed_sublist
  have heq := hsub.eq_of_length_le (hnodup.subperm h).length_le
  exact fun L hL => L.freed_eq_iff.mp (freedItems_eq_iff.mp heq L hL)

theorem freedItems_of_noException {Ls : List Layout} (h : ∀ L ∈ Ls, L.NoException) :
    freedItems Ls = blocksItems Ls :=
  freedItems_eq_iff.mpr fun L hL => L.freed_eq_iff.mpr (h L hL)

theorem DataAt.congr {q : Nat} {a : CJSArg} (hq : t.cell q = h.cell q) (ha : DataAt h q a) :
    DataAt t q a := by
  unfold DataAt
  rw [hq]
  exact ha

/-- Only its own blocks matter. -/
theorem On.congr {L : Layout} (hL : L.On h) (heq : ∀ x ∈ L.blocks, t.cell x = h.cell x) :
    L.On t := by
  induction L using Layout.induct with
  | plain p =>
    obtain ⟨a, hp, ha⟩ := hL
    exact ⟨a, by rw [heq p (by simp [blocks]), hp], ha⟩
  | data p q =>
    obtain ⟨a, hp, ha⟩ := hL
    exact ⟨a, by rw [heq p (by simp [blocks]), hp], ha.congr (heq q (by simp [blocks]))⟩
  | exception p m n =>
    obtain ⟨hp, hm, hn⟩ := hL
    rw [On, heq p (by simp [blocks]), heq m (by simp [blocks]), heq n (by simp [blocks])]
    exact ⟨hp, hm, hn⟩
  | array p q items ih =>
    obtain ⟨capacity, ps, hp, hq, hroots, hitems⟩ := hL
    refine ⟨capacity, ps, ?_, ?_, hroots, ?_⟩
    · rw [heq p (by simp [blocks]), hp]
    · rw [heq q (by simp [blocks]), hq]
    · rw [onItems_iff] at hitems ⊢
      intro L hL
      refine ih L hL (hitems L hL) fun x hx => heq x ?_
      exact List.mem_cons_of_mem _ (List.mem_cons_of_mem _ ((blocks_sublist_items hL).subset hx))

/-- Its blocks live. -/
theorem On.live {L : Layout} (hL : L.On h) : ∀ x ∈ L.blocks, (h.cell x).isSome = true := by
  induction L using Layout.induct with
  | plain p =>
    obtain ⟨a, hp, -⟩ := hL
    simp [blocks, hp]
  | data p q =>
    obtain ⟨a, hp, ha⟩ := hL
    have hq : (h.cell q).isSome = true := by
      rcases ha with ⟨-, text, hq⟩ | ⟨elems, count, -, hq, -⟩
      · rw [hq]; rfl
      · rw [hq]; rfl
    simp [blocks, hp, hq]
  | exception p m n =>
    obtain ⟨hp, ⟨text, hm⟩, name, hn⟩ := hL
    simp [blocks, hp, hm, hn]
  | array p q items ih =>
    obtain ⟨capacity, ps, hp, hq, -, hitems⟩ := hL
    rw [onItems_iff] at hitems
    intro x hx
    rw [blocks] at hx
    rcases List.mem_cons.mp hx with rfl | hx
    · rw [hp]; rfl
    rcases List.mem_cons.mp hx with rfl | hx
    · rw [hq]; rfl
    · obtain ⟨L, hL, hx⟩ := mem_blocksItems.mp hx
      exact ih L hL (hitems L hL) x hx

end

end Layout

/-! ## What is given back -/

open Layout

/-- Run at the layout's root, the program gives back what `jsarg_free` should,
and nothing else changes. -/
def Frees (free : Ptr → CM Unit) (L : Layout) : Prop :=
  ∀ s : CHeap, L.On s → L.blocks.Nodup →
    wp (free (some L.root)) s (fun _ t => t = s.without L.freed) (fun _ _ => False)

theorem wp_delete {s : CHeap} {a : Nat} (h : (s.cell a).isSome = true) {Q : Unit → CHeap → Prop}
    {X : CStop → CHeap → Prop} : wp (delete (some a)) s Q X ↔ Q () (s.without [a]) := by
  obtain ⟨b, hb⟩ := Option.isSome_iff_exists.mp h
  exact wp_release hb

/-- A slot, and the slots behind it. -/
theorem take_drop_cons {slots xs : List Ptr} {i n : Nat} {x : Ptr}
    (h : (slots.drop i).take (n + 1) = x :: xs) :
    slots[i]? = some x ∧ (slots.drop (i + 1)).take n = xs := by
  rw [← List.head?_drop, ← List.tail_drop]
  cases hd : slots.drop i with
  | nil => rw [hd] at h; exact absurd h (by simp)
  | cons y ys =>
    rw [hd, List.take_succ_cons, List.cons.injEq] at h
    exact ⟨congrArg some h.1, h.2⟩

/-- When one of them has been freed, another still lies there. -/
theorem On.without {s : CHeap} {L M : Layout} (hM : M.On s)
    (hdisj : ∀ x ∈ L.blocks, x ∉ M.blocks) : M.On (s.without L.freed) := by
  refine hM.congr fun x hx => s.without_cell_of_not_mem fun hfreed => ?_
  exact hdisj x (L.freed_sublist.subset hfreed) hx

/-- The loop over the slots at `q`. -/
theorem wp_jsargFreeItems {free : Ptr → CM Unit} {q : Nat} {slots : List Ptr} :
    ∀ (items : List Layout) (i : Nat) (s : CHeap), (∀ L ∈ items, Frees free L) →
      s.cell q = some (.items slots) → (slots.drop i).take items.length = items.map (some ·.root) →
      (∀ L ∈ items, L.On s) → q ∉ blocksItems items → (blocksItems items).Nodup →
      wp (jsargFreeItems free q i items.length) s (fun _ t => t = s.without (freedItems items))
        (fun _ _ => False)
  | [], _, s, _, _, _, _, _, _ => by
    rw [freedItems, Store.without_nil]
    exact rfl
  | L :: rest, i, s, hfree, hq, hslots, hon, hnot, hnodup => by
    obtain ⟨hslot, hrest⟩ := take_drop_cons hslots
    rw [blocksItems] at hnot hnodup
    obtain ⟨hL, hR, hdisj⟩ := List.nodup_append.mp hnodup
    simp only [List.length_cons, jsargFreeItems, wp_bind, getItem]
    rw [wp_readBlock CBlock.items? hq rfl, hslot, wp_pure]
    refine wp_mono (hfree L (List.mem_cons_self ..) s (hon L (List.mem_cons_self ..)) hL) ?_
      (fun _ _ h => h)
    intro _ t ht
    subst ht
    have hq' : (s.without L.freed).cell q = some (.items slots) := by
      have hout : q ∉ L.freed := fun h =>
        hnot (List.mem_append_left _ (L.freed_sublist.subset h))
      rw [s.without_cell_of_not_mem hout, hq]
    refine wp_mono (wp_jsargFreeItems rest (i + 1) _
      (fun M hM => hfree M (List.mem_cons_of_mem _ hM)) hq' hrest (fun M hM => ?_)
      (fun h => hnot (List.mem_append_right _ h)) hR) ?_ (fun _ _ h => h)
    · -- the elements share no block
      refine On.without (hon M (List.mem_cons_of_mem _ hM)) fun x hx hx' => ?_
      exact hdisj x hx x ((blocks_sublist_items hM).subset hx') rfl
    · intro _ u hu
      rw [hu, Store.without_without, freedItems]

/-- Fuel for all blocks is fuel for the cell at the root. -/
theorem exists_fuel {L : Layout} {n : Nat} (hn : L.blocks.length ≤ n) : ∃ m, n = m + 1 := by
  have hpos : 0 < L.blocks.length := by
    cases L <;> exact Nat.succ_pos _
  exact ⟨n - 1, by omega⟩

/-- An array, when its elements are freed as they should be. -/
theorem frees_array {p q : Nat} {items : List Layout} {n : Nat}
    (hfree : ∀ L ∈ items, Frees (jsargFree n) L) :
    Frees (jsargFree (n + 1)) (.array p q items) := by
  intro s hon hnodup
  obtain ⟨capacity, slots, hp, hq, hslots, hitems⟩ := hon
  rw [onItems_iff] at hitems
  obtain ⟨hpnot, hqnodup⟩ := List.nodup_cons.mp hnodup
  obtain ⟨hqnot, hnodup⟩ := List.nodup_cons.mp hqnodup
  rw [root, jsargFree, wp_bind, wp_derefArg hp, wp_bind, freeMembers, wp_bind]
  -- first the elements, then the slots, then the array
  refine wp_mono (wp_jsargFreeItems items 0 s hfree hq hslots hitems hqnot hnodup) ?_
    (fun _ _ h => h)
  intro _ t ht
  subst ht
  -- the array and its slots are none of the elements' blocks
  have hsub := (freedItems_sublist fun L (_ : L ∈ items) => L.freed_sublist).subset
  have hq' : (s.without (freedItems items)).cell q = some (.items slots) := by
    rw [s.without_cell_of_not_mem fun h => hqnot (hsub h), hq]
  have hp' : ((s.without (freedItems items)).without [q]).cell p =
      some (.arg (.cArray (some q) items.length capacity)) := by
    rw [Store.without_cell_of_not_mem, s.without_cell_of_not_mem, hp]
    · exact fun h => hpnot (List.mem_cons_of_mem _ (hsub h))
    · intro h
      rw [List.mem_singleton.mp h] at hpnot
      exact hpnot (List.mem_cons_self ..)
  rw [wp_delete (by rw [hq']; rfl), wp_delete (by rw [hp']; rfl), Store.without_without,
    Store.without_without]
  refine s.without_congr _ fun x => ?_
  simp only [freed, List.mem_append, List.mem_cons, List.not_mem_nil, or_false]
  constructor
  · intro h
    rcases h with h | h | h
    · exact .inr (.inr h)
    · exact .inr (.inl h)
    · exact .inl h
  · intro h
    rcases h with h | h | h
    · exact .inr (.inr h)
    · exact .inr (.inl h)
    · exact .inl h

/-- **`jsarg_free`** gives back the blocks of `freed`, and no others. -/
theorem frees_jsargFree (L : Layout) : ∀ n, L.blocks.length ≤ n → Frees (jsargFree n) L := by
  induction L using Layout.induct with
  | plain p =>
    intro n hn s hon _
    obtain ⟨n, rfl⟩ := exists_fuel hn
    obtain ⟨a, hp, ha⟩ := hon
    rw [root, jsargFree, wp_bind, wp_derefArg hp, wp_bind]
    have hskip : freeMembers (jsargFree n) a = pure () := by
      cases a <;> first | rfl | exact ha.elim
    rw [hskip, wp_pure, wp_delete (by rw [hp]; rfl)]
    rfl
  | data p q =>
    intro n hn s hon hnodup
    obtain ⟨n, rfl⟩ := exists_fuel hn
    have hlive := hon.live
    obtain ⟨a, hp, ha⟩ := hon
    have hmembers : freeMembers (jsargFree n) a = delete (some q) := by
      rcases ha with ⟨rfl, -⟩ | ⟨elems, count, rfl, -⟩
      · rfl
      · rfl
    have hne : p ∉ [q] := (List.nodup_cons.mp hnodup).1
    rw [root, jsargFree, wp_bind, wp_derefArg hp, wp_bind, hmembers,
      wp_delete (hlive q (by simp [blocks])),
      wp_delete (by rw [s.without_cell_of_not_mem hne, hp]; rfl), Store.without_without]
    exact s.without_congr _ fun x => by simp [freed, or_comm]
  | exception p m n =>
    intro k hk s hon _
    obtain ⟨k, rfl⟩ := exists_fuel hk
    obtain ⟨hp, -, -⟩ := hon
    -- no case of the switch
    have hskip : freeMembers (jsargFree k) (.exception (some m) (some n)) = pure () := rfl
    rw [root, jsargFree, wp_bind, wp_derefArg hp, wp_bind, hskip, wp_pure,
      wp_delete (by rw [hp]; rfl)]
    rfl
  | array p q items ih =>
    intro n hn
    rw [blocks, List.length_cons, List.length_cons] at hn
    obtain ⟨n, rfl⟩ : ∃ m, n = m + 1 := ⟨n - 1, by omega⟩
    refine frees_array fun L hL => ?_
    have hle := (blocks_sublist_items hL).length_le
    exact ih L hL n (by omega)

/-! ## Reading does not stop there -/

/-- Reading the elements at `q`. -/
theorem wp_jsargToEjrItems {rec : CJSArg → CM JSArg} {q : Nat} {slots : List Ptr} {s : CHeap}
    (hq : s.cell q = some (.items slots)) :
    ∀ (items : List Layout) (i : Nat),
      (∀ L ∈ items, ∃ a, s.cell L.root = some (.arg a) ∧
        wp (rec a) s (fun _ t => t = s) (fun _ _ => False)) →
      (slots.drop i).take items.length = items.map (some ·.root) →
      wp (jsargToEjrItems rec q i items.length) s (fun _ t => t = s) (fun _ _ => False)
  | [], _, _, _ => rfl
  | L :: rest, i, hrec, hslots => by
    obtain ⟨hslot, hrest⟩ := take_drop_cons hslots
    obtain ⟨a, ha, hread⟩ := hrec L (List.mem_cons_self ..)
    simp only [List.length_cons, jsargToEjrItems, wp_bind, getItem, wp_pure]
    rw [wp_readBlock CBlock.items? hq rfl, hslot, wp_pure, wp_derefArg ha]
    refine wp_mono hread ?_ (fun _ _ h => h)
    intro _ t ht
    subst ht
    exact wp_jsargToEjrItems hq rest (i + 1) (fun M hM => hrec M (List.mem_cons_of_mem _ hM)) hrest

/-- **`jsarg_to_ejr`** of a layout that lies there comes back, and changes
nothing. -/
theorem jsargToEjr_on {s : CHeap} (L : Layout) : L.On s → ∃ a, s.cell L.root = some (.arg a) ∧
    ∀ n, L.blocks.length ≤ n → wp (jsargToEjr n a) s (fun _ t => t = s) (fun _ _ => False) := by
  induction L using Layout.induct with
  | plain p =>
    intro hon
    obtain ⟨a, hp, ha⟩ := hon
    refine ⟨a, hp, fun n hn => ?_⟩
    obtain ⟨n, rfl⟩ := exists_fuel hn
    cases a <;> first | exact rfl | exact ha.elim
  | data p q =>
    intro hon
    obtain ⟨a, hp, ha⟩ := hon
    refine ⟨a, hp, fun n hn => ?_⟩
    obtain ⟨n, rfl⟩ := exists_fuel hn
    rcases ha with ⟨rfl, text, hq⟩ | ⟨elems, count, rfl, hq, hcount⟩
    · rw [jsargToEjr, wp_bind, wp_derefChars hq, wp_pure]
    · have helems : CBlock.elems? elems.elem (.elems elems) = some elems.values := dif_pos rfl
      rw [jsargToEjr, wp_bind, wp_readBlock _ hq helems, if_pos hcount, wp_pure]
  | exception p m n =>
    intro hon
    obtain ⟨hp, ⟨text, hm⟩, name, hn⟩ := hon
    refine ⟨_, hp, fun k hk => ?_⟩
    obtain ⟨k, rfl⟩ := exists_fuel hk
    simp only [jsargToEjr, orLiteral, wp_bind]
    rw [wp_derefChars hn, wp_pure, wp_derefChars hm, wp_pure, wp_pure]
  | array p q items ih =>
    intro hon
    obtain ⟨capacity, slots, hp, hq, hslots, hitems⟩ := hon
    rw [onItems_iff] at hitems
    refine ⟨_, hp, fun n hn => ?_⟩
    rw [blocks, List.length_cons, List.length_cons] at hn
    obtain ⟨n, rfl⟩ : ∃ m, n = m + 1 := ⟨n - 1, by omega⟩
    simp only [jsargToEjr, wp_bind, wp_pure]
    refine wp_jsargToEjrItems hq items 0 (fun L hL => ?_) hslots
    obtain ⟨a, ha, hread⟩ := ih L hL (hitems L hL)
    have hle := (blocks_sublist_items hL).length_le
    exact ⟨a, ha, hread n (by omega)⟩

end Ejr
