import Ejr.CApi.Free
import Ejr.CApi.RoundTrip

/-!
# What a callback's wrapper leaves on the heap

`ejr_register_callback` and `ejr_register_module` put the same lambda around a
C callback (src/ejr_c_api.cpp): it makes C arguments of the C++ ones, calls the
callback, converts its result, and frees the result and the arguments.
`Balanced` says that the heap is then what it was. It is for some arguments and
answers only (`balanced_iff`): `ejr_to_jsarg` forgets the copy it makes of a
string, `jsarg_free` the texts of an exception, and a callback that returns one
of its arguments has it freed twice.

Mirroring notes:
- `Made s t Ls copies`: from `s` to `t` exactly the blocks of `Ls` and `copies`
  have been allocated; addresses are handed out in order, so they are a range.
- A callback answers with a pointer; what it may do to the heap is `Reply`.
-/

namespace Ejr

open Lib Layout

/-! ## The wrapper -/

/-- The loop `c_args.push_back(ejr_to_jsarg(a))`. -/
def toCArgs : List JSArg → CM (List Ptr)
  | [] => pure []
  | a :: args => do
    let arg ← ejrToJsarg a
    let cArgs ← toCArgs args
    pure (arg :: cArgs)

/-- The loop `jsarg_free(arg)` over `c_args`. -/
def freeCArgs (depth : Nat) : List Ptr → CM Unit
  | [] => pure ()
  | arg :: cArgs => do
    jsargFree depth arg
    freeCArgs depth cArgs

/-- `wrapper`. -/
def wrapper (depth : Nat) (cb : List Ptr → CM Ptr) (args : List JSArg) : CM JSArg := do
  let cArgs ← toCArgs args
  let result ← cb cArgs
  let arg ← derefArg result
  let res ← jsargToEjr depth arg
  jsargFree depth result
  freeCArgs depth cArgs
  pure res

/-! ## What has been allocated -/

/-- From `s` to `t` the blocks of these layouts have been allocated, which lie
there, and `copies` that belong to none. -/
structure Made (s t : CHeap) (Ls : List Layout) (copies : List Nat) : Prop where
  le : s.next ≤ t.next
  blocks : (blocksItems Ls ++ copies).Perm (List.range' s.next (t.next - s.next))
  on : ∀ L ∈ Ls, L.On t
  live : ∀ x ∈ copies, (t.cell x).isSome = true

section

variable {s t u : CHeap} {Ls Ms : List Layout} {copies copies' : List Nat}

theorem made_nil (h : t.next = s.next) : Made s t [] [] := by
  refine ⟨Nat.le_of_eq h.symm, ?_, (fun _ hL => nomatch hL), fun _ hx => nomatch hx⟩
  rw [h, Nat.sub_self]
  exact .refl _

/-- They are new, and different. -/
theorem Made.mem_iff (h : Made s t Ls copies) {x : Nat} :
    x ∈ blocksItems Ls ∨ x ∈ copies ↔ s.next ≤ x ∧ x < t.next := by
  have hle := h.le
  rw [← List.mem_append, h.blocks.mem_iff, List.mem_range'_1]
  constructor
  · intro hx
    omega
  · intro hx
    omega

theorem Made.nodup (h : Made s t Ls copies) : (blocksItems Ls ++ copies).Nodup :=
  h.blocks.nodup_iff.mpr List.nodup_range'

theorem Made.congr (h : Made s t Ls copies) (hgrows : t.Grows (· < s.next) u)
    (hnext : u.next = t.next) : Made s u Ls copies := by
  have hcell : ∀ x, x ∈ blocksItems Ls ∨ x ∈ copies → u.cell x = t.cell x := by
    intro x hx
    have hmem := h.mem_iff.mp hx
    exact hgrows.cell x hmem.2 (Nat.not_lt_of_le hmem.1)
  refine ⟨by rw [hnext]; exact h.le, by rw [hnext]; exact h.blocks, fun L hL => ?_, fun x hx => ?_⟩
  · refine (h.on L hL).congr fun x hx => hcell x (.inl ?_)
    exact (blocks_sublist_items hL).subset hx
  · rw [hcell x (.inr hx)]
    exact h.live x hx

/-- First one, then the other. -/
theorem Made.then (h : Made s t Ls copies) (hgrows : t.Grows (· < s.next) u)
    (h' : Made t u Ms copies') : Made s u (Ls ++ Ms) (copies ++ copies') := by
  have hcell : ∀ x, x ∈ blocksItems Ls ∨ x ∈ copies → u.cell x = t.cell x := by
    intro x hx
    have hmem := h.mem_iff.mp hx
    exact hgrows.cell x hmem.2 (Nat.not_lt_of_le hmem.1)
  refine ⟨Nat.le_trans h.le h'.le, ?_, ?_, ?_⟩
  · have h1 := h.le
    have h2 := h'.le
    have hmid : t.next = s.next + (t.next - s.next) := by omega
    have hrange := @List.range'_append_1 s.next (t.next - s.next) (u.next - t.next)
    rw [← hmid, show t.next - s.next + (u.next - t.next) = u.next - s.next by omega] at hrange
    rw [← hrange, blocksItems_append]
    have hperm := h.blocks.append h'.blocks
    refine List.Perm.trans ?_ hperm
    simp only [List.append_assoc]
    refine List.Perm.append_left _ ?_
    exact List.perm_append_comm_assoc ..
  · intro L hL
    rcases List.mem_append.mp hL with hL | hL
    · refine (h.on L hL).congr fun x hx => hcell x (.inl ?_)
      exact (blocks_sublist_items hL).subset hx
    · exact h'.on L hL
  · intro x hx
    rcases List.mem_append.mp hx with hx | hx
    · rw [hcell x (.inr hx)]
      exact h.live x hx
    · exact h'.live x hx

end

/-- All of it is given back when the layouts are freed. -/
def Tidy (Ls : List Layout) (copies : List Nat) : Prop := copies = [] ∧ ∀ L ∈ Ls, L.NoException

theorem tidy_append_iff {Ls Ms : List Layout} {copies copies' : List Nat} :
    Tidy (Ls ++ Ms) (copies ++ copies') ↔ Tidy Ls copies ∧ Tidy Ms copies' := by
  simp only [Tidy, List.append_eq_nil_iff, List.forall_mem_append]
  constructor
  · intro h
    exact ⟨⟨h.1.1, h.2.1⟩, h.1.2, h.2.2⟩
  · intro h
    exact ⟨⟨h.1.1, h.2.1⟩, h.1.2, h.2.2⟩

/-! ## `ejr_to_jsarg` -/

/-- Of this part `ejr_to_jsarg` makes what `jsarg_free` gives back. -/
def JSArg.GivenBack : JSArg → Prop
  | .string _ | .exception _ _ => False
  | _ => True

/-- Run on the argument, `ejr_to_jsarg` allocates a layout, and copies which
nothing leads to; they are tidy when every part of the argument is. -/
def Lays (a : JSArg) : Prop :=
  ∀ s : CHeap, wp (ejrToJsarg a) s
    (fun p t => ∃ L copies, p = some L.root ∧ s.Grows (fun _ => False) t ∧ Made s t [L] copies ∧
      (Tidy [L] copies ↔ a.All JSArg.GivenBack fun _ => True))
    (fun _ _ => True)

/-- An argument in one block. -/
theorem lays_newArg {a : JSArg} {arg : CJSArg} (hrun : ejrToJsarg a = newArg arg)
    (harg : Plain arg) (ha : a.All JSArg.GivenBack fun _ => True) : Lays a := by
  intro s
  rw [hrun, wp_newArg]
  refine ⟨.plain s.next, [], rfl, s.grows_alloc _ _, ⟨Nat.le_succ _, ?_, ?_, ?_⟩, ?_⟩
  · simp [blocksItems, blocks]
  · exact List.forall_mem_singleton.mpr ⟨arg, s.alloc_cell_self _, harg⟩
  · exact fun _ hx => absurd hx List.not_mem_nil
  · simp [Tidy, NoException, ha]

theorem lays_typedArray (a : JSArgTypedArray) : Lays (.typedArray a) := by
  intro s
  rw [ejrToJsarg_typedArray, wp_jsargElems]
  refine ⟨.data s.next (s.next + 1), [], rfl, Store.Grows.of_new ?_, ⟨?_, ?_, ?_, ?_⟩, ?_⟩
  · exact ((s.grows_alloc _ _).alloc _).update (Nat.le_refl _) _
  · simp [Nat.add_assoc]
  · simp [blocksItems, blocks, Nat.add_assoc, List.range']
  · refine List.forall_mem_singleton.mpr ⟨_, ?_, .inr ⟨a, _, rfl, ?_, Nat.le_refl _⟩⟩
    · simp [Store.alloc_cell]
    · simp [Store.alloc_cell, Store.update_cell]
  · exact fun _ hx => absurd hx List.not_mem_nil
  · simp [Tidy, NoException, JSArg.All, JSArg.GivenBack]

/-- The copy that is passed to `jsarg_str` is forgotten. -/
theorem lays_string (value : Bytes) : Lays (.string value) := by
  intro s
  simp only [ejrToJsarg, wp_bind, wp_allocate]
  rw [wp_derefChars (s.alloc_cell_self _), wp_jsargStr]
  refine ⟨.data (s.next + 1) (s.next + 2), [s.next], rfl, Store.Grows.of_new ?_,
    ⟨?_, ?_, ?_, ?_⟩, ?_⟩
  · exact (((s.grows_alloc _ _).alloc _).alloc _).update (Nat.le_succ _) _
  · simp [Nat.add_assoc]
  · have hrange : List.range' s.next (s.next + 3 - s.next) =
        s.next :: [s.next + 1, s.next + 2] := by
      rw [Nat.add_sub_cancel_left]
      rfl
    rw [show (Store.update _ _ _ : CHeap).next = s.next + 3 from rfl, hrange]
    exact List.perm_append_comm
  · refine List.forall_mem_singleton.mpr ⟨_, ?_, .inl ⟨rfl, cstr (value ++ [0]) ++ [0], ?_⟩⟩
    · simp [Store.alloc_cell]
    · simp [Store.alloc_cell, Store.update_cell]
  · intro x hx
    rw [List.mem_singleton.mp hx]
    simp only [Store.update_cell, Store.alloc_cell, Store.alloc_next]
    rw [if_neg (by omega), if_neg (by omega), if_neg (by omega)]
    rfl
  · simp [Tidy, JSArg.All, JSArg.GivenBack]

theorem lays_exception (msg name : Bytes) : Lays (.exception msg name) := by
  intro s
  simp only [ejrToJsarg]
  rw [wp_jsargException]
  refine ⟨.exception s.next (s.next + 1) (s.next + 2), [], rfl, Store.Grows.of_new ?_,
    ⟨?_, ?_, ?_, ?_⟩, ?_⟩
  · exact (((s.grows_alloc _ _).alloc _).alloc _).update (Nat.le_refl _) _
  · simp [Nat.add_assoc]
  · simp [blocksItems, blocks, Nat.add_assoc, List.range']
  · refine List.forall_mem_singleton.mpr ⟨?_,
      ⟨cstr (msg ++ [0]) ++ [0], ?_⟩, cstr (name ++ [0]) ++ [0], ?_⟩
    · simp [Store.alloc_cell, Nat.add_assoc]
    · simp [Store.alloc_cell, Store.update_cell]
    · simp [Store.alloc_cell, Store.update_cell]
  · exact fun _ hx => absurd hx List.not_mem_nil
  · simp [Tidy, NoException, JSArg.All, JSArg.GivenBack]

/-- The loop over the elements, which are stored behind those the array has. -/
theorem lays_items {p q : Nat} : ∀ (items : List JSArg) (_ : ∀ a ∈ items, Lays a)
    (ps : List Nat) (s : CHeap), Filling s p q ps items.length →
    wp (ejrToJsargItems (some p) items) s
      (fun _ t => ∃ Ls copies, s.Grows (fun x => x = p ∨ x = q) t ∧
        Filling t p q (ps ++ Ls.map root) 0 ∧ Ls.length = items.length ∧ Made s t Ls copies ∧
        (Tidy Ls copies ↔ ∀ a ∈ items, a.All JSArg.GivenBack fun _ => True))
      (fun _ _ => True)
  | [], _, ps, s, hfill => by
    rw [ejrToJsargItems, wp_pure]
    exact ⟨[], [], Store.Grows.refl _ _, by rwa [List.map_nil, List.append_nil], rfl, made_nil rfl,
      by simp [Tidy]⟩
  | a :: rest, hitems, ps, s, hfill => by
    rw [List.length_cons] at hfill
    have hold : ∀ x, x = p ∨ x = q → x < s.next := by
      intro x hx
      rcases hx with rfl | rfl
      · exact Store.lt_next hfill.arg
      · exact Store.lt_next hfill.slots
    simp only [ejrToJsargItems, wp_bind]
    refine wp_mono (hitems a (List.mem_cons_self ..) s) ?_ (fun _ _ _ => trivial)
    intro v s1 hs1
    obtain ⟨L, copies, rfl, hgrows1, hmade1, htidy1⟩ := hs1
    refine wp_mono (hfill.grows hgrows1 (fun h => h) fun h => h).add ?_ (fun _ _ h => h)
    intro _ s2 hs2
    obtain ⟨hfill2, hgrows2, hnext2⟩ := hs2
    -- the array itself is older than the element
    have hmade2 : Made s s2 [L] copies := hmade1.congr (hgrows2.mono fun x _ => hold x) hnext2
    refine wp_mono (lays_items rest (fun b hb => hitems b (List.mem_cons_of_mem _ hb))
      (ps ++ [L.root]) s2 hfill2) ?_ (fun _ _ _ => trivial)
    intro _ t ht
    obtain ⟨Ls, copies', hgrows3, hfill3, hlen, hmade3, htidy3⟩ := ht
    refine ⟨[L] ++ Ls, copies ++ copies', ?_, ?_, ?_, ?_, ?_⟩
    · exact ((hgrows1.mono fun _ _ h => h.elim).trans hgrows2).trans hgrows3
    · rwa [List.append_assoc] at hfill3
    · rw [List.length_append, List.length_singleton, hlen, List.length_cons, Nat.add_comm]
    · exact hmade2.then (hgrows3.mono fun x _ => hold x) hmade3
    · rw [tidy_append_iff, htidy1, htidy3, List.forall_mem_cons]

theorem lays_array {items : List JSArg} (hitems : ∀ a ∈ items, Lays a) : Lays (.array items) := by
  intro s
  simp only [ejrToJsarg, wp_bind, wp_pure]
  cases hlen : items.length with
  | zero =>
    rw [wp_jsargCarray_zero]
    trivial
  | succ n =>
    refine wp_mono filling_jsargCarray ?_ (fun _ _ h => h)
    intro r s1 hs1
    obtain ⟨rfl, hfill1, hgrows1, hnext1⟩ := hs1
    rw [← hlen] at hfill1
    refine wp_mono (lays_items items hitems [] s1 hfill1) ?_ (fun _ _ _ => trivial)
    intro _ t ht
    obtain ⟨Ls, copies, hgrows2, hfill2, hlength, hmade, htidy⟩ := ht
    rw [List.nil_append] at hfill2
    have hgrows : s.Grows (s.next ≤ ·) t := (hgrows1.mono fun _ _ h => h.elim).trans
      (hgrows2.mono fun x _ h => by rcases h with h | h <;> omega)
    refine ⟨.array s.next (s.next + 1) Ls, copies, rfl, hgrows.of_new,
      ⟨hgrows.next, ?_, ?_, ?_⟩, ?_⟩
    · -- the array, its slots, and then the elements' blocks
      have hle := hmade.le
      have hrange : List.range' s.next (t.next - s.next) =
          s.next :: (s.next + 1) :: List.range' s1.next (t.next - s1.next) := by
        rw [show t.next - s.next = t.next - s1.next + 1 + 1 by omega, List.range'_succ,
          List.range'_succ, hnext1]
      rw [hrange, blocksItems, blocksItems, blocks, List.append_nil]
      exact (hmade.blocks.cons _).cons _
    · refine List.forall_mem_singleton.mpr ⟨(Ls.map root).length + 0, _, ?_, hfill2.slots, ?_,
        onItems_iff.mpr hmade.on⟩
      · have harg := hfill2.arg
        rwa [List.length_map] at harg ⊢
      · rw [List.replicate_zero, List.append_nil, List.take_of_length_le (by simp), List.map_map]
        rfl
    · exact hmade.live
    · simp only [Tidy, List.forall_mem_singleton, NoException, noExceptionItems_iff, JSArg.All,
        JSArg.allItems_iff, true_and]
      exact htidy

/-- **`ejr_to_jsarg`** allocates what it leaves behind, and nothing else. -/
theorem lays (a : JSArg) : Lays a := by
  induction a using JSArg.induct with
  | leaf a ha =>
    cases a with
    | array items => exact absurd rfl (ha items)
    | string value => exact lays_string value
    | typedArray a => exact lays_typedArray a
    | exception msg name => exact lays_exception msg name
    | _ =>
      refine lays_newArg (by simp only [ejrToJsarg]; rfl) ?_ trivial
      trivial
  | array items ih => exact lays_array ih

/-- Both conditions on an argument. -/
theorem givenBack_iff (a : JSArg) : a.All JSArg.GivenBack (· ≠ []) ↔
    a.NoEmptyArray ∧ a.All JSArg.GivenBack fun _ => True := by
  induction a using JSArg.induct with
  | leaf a ha =>
    cases a with
    | array items => exact absurd rfl (ha items)
    | _ => simp [JSArg.NoEmptyArray, JSArg.All, JSArg.GivenBack]
  | array items ih =>
    simp only [JSArg.NoEmptyArray, JSArg.All, JSArg.allItems_iff, true_and]
    constructor
    · intro h
      have hparts := fun a ha => (ih a ha).mp (h.2 a ha)
      exact ⟨⟨h.1, fun a ha => (hparts a ha).1⟩, fun a ha => (hparts a ha).2⟩
    · intro h
      exact ⟨h.1.1, fun a ha => (ih a ha).mpr ⟨h.1.2 a ha, h.2 a ha⟩⟩

/-! ## The loops of the wrapper -/

theorem lays_toCArgs : ∀ (args : List JSArg) (s : CHeap), wp (toCArgs args) s
    (fun ps u => (∀ a ∈ args, a.NoEmptyArray) ∧ ∃ Ls copies, ps = Ls.map (some ·.root) ∧
      s.Grows (fun _ => False) u ∧ Made s u Ls copies ∧
      (Tidy Ls copies ↔ ∀ a ∈ args, a.All JSArg.GivenBack fun _ => True))
    (fun _ _ => ∃ a ∈ args, ¬a.NoEmptyArray)
  | [], s => ⟨by simp, [], [], rfl, Store.Grows.refl _ _, made_nil rfl, by simp [Tidy]⟩
  | a :: args, s => by
    simp only [toCArgs, wp_bind, wp_pure]
    refine wp_mono (wp_and (builds a s) (lays a s)) ?_ ?_
    · intro p t ht
      obtain ⟨⟨hempty, -⟩, L, copies, rfl, hgrows, hmade, htidy⟩ := ht
      refine wp_mono (lays_toCArgs args t) ?_ ?_
      · intro ps u hu
        obtain ⟨hrest, Ls, copies', rfl, hgrows', hmade', htidy'⟩ := hu
        refine ⟨List.forall_mem_cons.mpr ⟨hempty, hrest⟩, [L] ++ Ls, copies ++ copies', rfl,
          hgrows.trans hgrows', hmade.then (hgrows'.mono fun _ _ h => h.elim) hmade', ?_⟩
        rw [tidy_append_iff, htidy, htidy', List.forall_mem_cons]
      · intro _ _ hb
        obtain ⟨b, hb, hno⟩ := hb
        exact ⟨b, List.mem_cons_of_mem _ hb, hno⟩
    · exact fun _ _ he => ⟨a, List.mem_cons_self .., he.1.1⟩

theorem wp_freeCArgs {depth : Nat} : ∀ (Ls : List Layout) (s : CHeap),
    (blocksItems Ls).length ≤ depth → (∀ L ∈ Ls, L.On s) → (blocksItems Ls).Nodup →
    wp (freeCArgs depth (Ls.map (some ·.root))) s (fun _ t => t = s.without (freedItems Ls))
      (fun _ _ => False)
  | [], s, _, _, _ => by
    rw [freedItems, Store.without_nil]
    exact rfl
  | L :: Ls, s, hdepth, hon, hnodup => by
    rw [blocksItems] at hnodup hdepth
    rw [List.length_append] at hdepth
    obtain ⟨hL, hLs, hdisj⟩ := List.nodup_append.mp hnodup
    rw [List.map_cons, freeCArgs, wp_bind]
    refine wp_mono (frees_jsargFree L depth (by omega) s (hon L (List.mem_cons_self ..)) hL) ?_
      (fun _ _ h => h)
    intro _ t ht
    subst ht
    refine wp_mono (wp_freeCArgs Ls _ (by omega) (fun M hM => ?_) hLs) ?_ (fun _ _ h => h)
    · refine On.without (hon M (List.mem_cons_of_mem _ hM)) fun x hx hx' => ?_
      exact hdisj x hx x ((blocks_sublist_items hM).subset hx') rfl
    · intro _ u hu
      rw [hu, Store.without_without, freedItems]

/-- A `JSArg` that does not live cannot be freed. -/
theorem jsargFree_dead {s : CHeap} {x : Nat} (hx : s.cell x = none) : ∀ depth,
    wp (jsargFree depth (some x)) s (fun _ _ => False) (fun _ _ => True)
  | 0 => trivial
  | n + 1 => by
    rw [jsargFree, wp_bind, derefArg, readBlock, wp_bind, wp_load_none hx]
    trivial

/-- Nor can arguments one of which has been freed. -/
theorem freeCArgs_dead {depth : Nat} {M : Layout} : ∀ (Ls : List Layout) (s : CHeap),
    (blocksItems Ls).length ≤ depth → M ∈ Ls → s.cell M.root = none →
    (∀ L ∈ Ls, L ≠ M → L.On s) → (blocksItems Ls).Nodup →
    wp (freeCArgs depth (Ls.map (some ·.root))) s (fun _ _ => False) (fun _ _ => True)
  | [], _, _, hM, _, _, _ => nomatch hM
  | L :: Ls, s, hdepth, hM, hdead, hon, hnodup => by
    rw [List.map_cons, freeCArgs, wp_bind]
    by_cases heq : L = M
    · rw [heq]
      exact wp_mono (jsargFree_dead hdead depth) (fun _ _ h => h.elim) (fun _ _ h => h)
    · rw [blocksItems] at hnodup hdepth
      rw [List.length_append] at hdepth
      obtain ⟨hL, hLs, hdisj⟩ := List.nodup_append.mp hnodup
      have hMs : M ∈ Ls := (List.mem_cons.mp hM).resolve_left fun h => heq h.symm
      refine wp_mono (frees_jsargFree L depth (by omega) s (hon L (List.mem_cons_self ..) heq) hL) ?_
        (fun _ _ h => h.elim)
      intro _ t ht
      subst ht
      refine freeCArgs_dead Ls _ (by omega) hMs ?_ (fun N hN hne => ?_) hLs
      · rw [Store.without_cell, hdead, ite_self]
      · refine On.without (hon N (List.mem_cons_of_mem _ hN) hne) fun x hx hx' => ?_
        exact hdisj x hx x ((blocks_sublist_items hN).subset hx') rfl

/-! ## What a callback does -/

/-- From `u` to `v` a tree has been built, of new blocks; no other new block is
left. -/
structure Fresh (u v : CHeap) (L : Layout) : Prop where
  grows : u.Grows (fun _ => False) v
  on : L.On v
  nodup : L.blocks.Nodup
  new : ∀ x ∈ L.blocks, u.next ≤ x
  rest : ∀ x, u.next ≤ x → x ∉ L.blocks → v.cell x = none

/-- What a callback does that is called with `ps` on the heap `u`: it builds the
tree it returns, or returns one of its arguments. -/
inductive Reply (ps : List Ptr) (u : CHeap) : Nat → CHeap → Prop where
  | tree {L : Layout} {v : CHeap} (h : Fresh u v L) : Reply ps u L.root v
  | argument {p : Nat} (h : some p ∈ ps) : Reply ps u p u

/-- The callback always answers like that. -/
def Replies (cb : List Ptr → CM Ptr) : Prop :=
  ∀ ps u, ∃ p v, cb ps u = .ok (some p) v ∧ Reply ps u p v

/-- Called with what the wrapper makes of the arguments, the callback answers
with a tree of its own, without an exception in it. -/
def RepliesTidily (cb : List Ptr → CM Ptr) (args : List JSArg) (s : CHeap) : Prop :=
  ∀ ps u, toCArgs args s = .ok ps u →
    ∃ L v, cb ps u = .ok (some L.root) v ∧ Fresh u v L ∧ L.NoException

/-- With enough depth the wrapper comes back, and every block is what it was:
what has been allocated has been given back, each block once. -/
def Balanced (cb : List Ptr → CM Ptr) (args : List JSArg) (s : CHeap) : Prop :=
  ∃ N, ∀ depth ≥ N, wp (wrapper depth cb args) s (fun _ t => ∀ x, t.cell x = s.cell x)
    (fun _ _ => False)

section

variable {cb : List Ptr → CM Ptr} {args : List JSArg} {s u v : CHeap} {Ls : List Layout}
  {copies : List Nat} {L : Layout} {depth : Nat}

/-- Arguments are older than what the callback builds. -/
theorem Made.not_fresh (hmade : Made s u Ls copies) (hfresh : Fresh u v L) {x : Nat}
    (hx : x ∈ blocksItems Ls ∨ x ∈ copies) : x ∉ L.blocks := fun h => by
  have hnew := hfresh.new x h
  have hold := (hmade.mem_iff.mp hx).2
  omega

/-- The wrapper, when the callback builds a tree. -/
theorem wrapper_tree (hto : toCArgs args s = .ok (Ls.map (some ·.root)) u)
    (hmade : Made s u Ls copies) (hcb : cb (Ls.map (some ·.root)) u = .ok (some L.root) v)
    (hfresh : Fresh u v L) (hdepth : (blocksItems (L :: Ls)).length ≤ depth) :
    wp (wrapper depth cb args) s (fun _ t => t = v.without (L.freed ++ freedItems Ls))
      (fun _ _ => False) := by
  rw [blocksItems, List.length_append] at hdepth
  have honLs : ∀ M ∈ Ls, M.On v := fun M hM => (hmade.on M hM).congr fun x hx =>
    hfresh.grows.cell x (hmade.mem_iff.mp (.inl ((blocks_sublist_items hM).subset hx))).2 fun h => h
  have hnodup := (List.nodup_append.mp hmade.nodup).1
  rw [wrapper, wp_bind, wp_iff_of_ok hto, wp_bind, wp_iff_of_ok hcb]
  obtain ⟨a, ha, hread⟩ := jsargToEjr_on L hfresh.on
  rw [wp_bind, wp_derefArg ha, wp_bind]
  refine wp_mono (hread depth (by omega)) ?_ (fun _ _ h => h)
  intro res t ht
  subst ht
  rw [wp_bind]
  refine wp_mono (frees_jsargFree L depth (by omega) _ hfresh.on hfresh.nodup) ?_ (fun _ _ h => h)
  intro _ t ht
  subst ht
  rw [wp_bind]
  refine wp_mono (wp_freeCArgs Ls _ (by omega) (fun M hM => ?_) hnodup) ?_ (fun _ _ h => h)
  · refine On.without (honLs M hM) fun x hx hx' => ?_
    exact hmade.not_fresh hfresh (.inl ((blocks_sublist_items hM).subset hx')) hx
  · intro _ t ht
    rw [ht, Store.without_without]
    exact rfl

/-- The wrapper, when the callback returns an argument: it does not come back. -/
theorem wrapper_argument (hto : toCArgs args s = .ok (Ls.map (some ·.root)) u)
    (hmade : Made s u Ls copies) {M : Layout} (hM : M ∈ Ls)
    (hcb : cb (Ls.map (some ·.root)) u = .ok (some M.root) u)
    (hdepth : (blocksItems Ls).length ≤ depth) :
    wp (wrapper depth cb args) s (fun _ _ => False) (fun _ _ => True) := by
  have hnodup := (List.nodup_append.mp hmade.nodup).1
  have hsub := blocks_sublist_items hM
  have hle := hsub.length_le
  rw [wrapper, wp_bind, wp_iff_of_ok hto, wp_bind, wp_iff_of_ok hcb]
  obtain ⟨a, ha, hread⟩ := jsargToEjr_on M (hmade.on M hM)
  rw [wp_bind, wp_derefArg ha, wp_bind]
  refine wp_mono (hread depth (by omega)) ?_ (fun _ _ h => h.elim)
  intro res t ht
  subst ht
  rw [wp_bind]
  refine wp_mono (frees_jsargFree M depth (by omega) _ (hmade.on M hM) (hnodup.sublist hsub)) ?_
    (fun _ _ h => h.elim)
  intro _ t ht
  subst ht
  rw [wp_bind]
  have hroot : M.root ∈ M.freed := by cases M <;> simp [root, freed]
  refine wp_mono (freeCArgs_dead Ls _ hdepth hM (Store.without_cell_of_mem _ hroot) ?_ hnodup)
    (fun _ _ h => h.elim) (fun _ _ h => h)
  intro N hN hne
  exact On.without (hmade.on N hN) fun x hx => blocks_disjoint hnodup hM hN (Ne.symm hne) hx

/-- A new block that is still there would be a difference. -/
theorem mem_of_leftover {freed : List Nat} (hsame : ∀ x, (v.without freed).cell x = s.cell x)
    {x : Nat} (hx : s.next ≤ x) (hlive : (v.cell x).isSome = true) : x ∈ freed := by
  by_cases hmem : x ∈ freed
  · exact hmem
  · have hcell := hsame x
    rw [v.without_cell_of_not_mem hmem, s.fresh x hx] at hcell
    rw [hcell] at hlive
    exact absurd hlive (by simp)

/-- Where nothing is left of the arguments, all of their blocks are given back. -/
theorem tidy_of_freed (hmade : Made s u Ls copies)
    (hargs : ∀ x, x ∈ blocksItems Ls ∨ x ∈ copies → (u.cell x).isSome = true → x ∈ freedItems Ls) :
    Tidy Ls copies := by
  have hsub := (freedItems_sublist fun M (_ : M ∈ Ls) => M.freed_sublist).subset
  obtain ⟨hnodup, -, hdisj⟩ := List.nodup_append.mp hmade.nodup
  constructor
  · refine List.eq_nil_iff_forall_not_mem.mpr fun x hx => ?_
    have hx' := hargs x (.inr hx) (hmade.live x hx)
    exact hdisj x (hsub hx') x hx rfl
  · refine noException_of_freed hnodup fun x hx => hargs x (.inl hx) ?_
    obtain ⟨M, hM, hxM⟩ := mem_blocksItems.mp hx
    exact (hmade.on M hM).live x hxM

/-- Where the answer's blocks are given back, there is no exception in it. -/
theorem Fresh.noException (hfresh : Fresh u v L) (hL : ∀ x ∈ L.blocks, x ∈ L.freed) :
    L.NoException := by
  have hone : blocksItems [L] = L.blocks := List.append_nil _
  refine @noException_of_freed [L] (by rw [hone]; exact hfresh.nodup) (fun x hx => ?_) L
    (List.mem_singleton.mpr rfl)
  rw [hone] at hx
  exact List.mem_append.mpr (.inl (hL x hx))

/-- Of tidy arguments and such an answer nothing is left. -/
theorem leftover_of_tidy (hgrows : s.Grows (fun _ => False) u) (hmade : Made s u Ls copies)
    (hfresh : Fresh u v L) (htidy : Tidy Ls copies) (hL : L.NoException) (x : Nat) :
    (v.without (L.freed ++ freedItems Ls)).cell x = s.cell x := by
  have hle := hmade.le
  obtain ⟨hcopies, hLs⟩ := htidy
  rw [freedItems_of_noException hLs, L.freed_eq_iff.mpr hL, Store.without_cell]
  by_cases hold : x < s.next
  · rw [if_neg, hfresh.grows.cell x (by omega) fun h => h, hgrows.cell x hold fun h => h]
    intro hmem
    rcases List.mem_append.mp hmem with hmem | hmem
    · have := hfresh.new x hmem
      omega
    · have := (hmade.mem_iff.mp (.inl hmem)).1
      omega
  · rw [s.fresh x (by omega)]
    split
    next => rfl
    next hmem =>
      obtain ⟨hnotL, hnotLs⟩ := not_or.mp fun h => hmem (List.mem_append.mpr h)
      refine hfresh.rest x ?_ hnotL
      -- every block older than the callback's is one of the arguments'
      by_cases hu : x < u.next
      · rcases hmade.mem_iff.mpr ⟨by omega, hu⟩ with hmem | hmem
        · exact absurd hmem hnotLs
        · rw [hcopies] at hmem
          exact nomatch hmem
      · omega

/-- What is left in the end. -/
theorem leftover_iff (hgrows : s.Grows (fun _ => False) u) (hmade : Made s u Ls copies)
    (hfresh : Fresh u v L) :
    (∀ x, (v.without (L.freed ++ freedItems Ls)).cell x = s.cell x) ↔
      Tidy Ls copies ∧ L.NoException := by
  have hsub := (freedItems_sublist fun M (_ : M ∈ Ls) => M.freed_sublist).subset
  constructor
  · intro hsame
    constructor
    · refine tidy_of_freed hmade fun x hx hlive => ?_
      have hrange := hmade.mem_iff.mp hx
      rw [← hfresh.grows.cell x hrange.2 fun h => h] at hlive
      refine (List.mem_append.mp (mem_of_leftover hsame hrange.1 hlive)).resolve_left fun h => ?_
      exact hmade.not_fresh hfresh hx (L.freed_sublist.subset h)
    · refine hfresh.noException fun x hx => ?_
      have hx' := mem_of_leftover hsame (Nat.le_trans hmade.le (hfresh.new x hx))
        (hfresh.on.live x hx)
      refine (List.mem_append.mp hx').resolve_right fun h => ?_
      exact hmade.not_fresh hfresh (.inl (hsub h)) hx
  · exact fun h => leftover_of_tidy hgrows hmade hfresh h.1 h.2

/-- Where the wrapper is balanced, nothing is lost of the arguments nor of the
answer. -/
theorem Balanced.tidy (hcb : Replies cb) (h : Balanced cb args s) :
    (∀ a ∈ args, a.All JSArg.GivenBack (· ≠ [])) ∧ RepliesTidily cb args s := by
  obtain ⟨N, hN⟩ := h
  have hto := lays_toCArgs args s
  cases hrun : toCArgs args s with
  | error e t =>
    have hstop := hN N (Nat.le_refl N)
    rw [wrapper, wp_bind, wp_iff_of_error hrun] at hstop
    exact hstop.elim
  | ok ps u =>
    obtain ⟨hempty, Ls, copies, rfl, hgrows, hmade, htidy⟩ := wp_of_ok hto hrun
    obtain ⟨p, v, hreply, hcase⟩ := hcb (Ls.map (some ·.root)) u
    cases hcase with
    | @tree L _ hfresh =>
      -- a depth that is enough for both
      let depth := max N (blocksItems (L :: Ls)).length
      have hboth := wp_and (hN depth (Nat.le_max_left ..))
        (wrapper_tree hrun hmade hreply hfresh (Nat.le_max_right ..))
      obtain ⟨_, t, -, hsame, rfl⟩ := exists_ok_of_wp
        (wp_mono hboth (fun _ _ h => h) (fun _ _ h => h.1))
      obtain ⟨hall, hno⟩ := (leftover_iff hgrows hmade hfresh).mp hsame
      refine ⟨fun a ha => (givenBack_iff a).mpr ⟨hempty a ha, htidy.mp hall a ha⟩, ?_⟩
      intro ps' u' hrun'
      cases hrun.symm.trans hrun'
      exact ⟨L, v, hreply, hfresh, hno⟩
    | argument hp =>
      -- the answer is freed as the answer, and once more as the argument
      obtain ⟨M, hM, hroot⟩ := List.mem_map.mp hp
      obtain rfl : M.root = p := Option.some.inj hroot
      let depth := max N (blocksItems Ls).length
      have hboth := wp_and (hN depth (Nat.le_max_left ..))
        (wrapper_argument hrun hmade hM hreply (Nat.le_max_right ..))
      obtain ⟨_, _, _, hfalse⟩ := exists_ok_of_wp
        (wp_mono hboth (fun _ _ h => h.2) (fun _ _ h => h.1))
      exact hfalse.elim

/-- **The wrapper frees every block it has caused, each once**, exactly when there
is no string, no exception and no empty array in the arguments, and the callback
answers with a tree of its own without an exception in it. -/
theorem balanced_iff (hcb : Replies cb) : Balanced cb args s ↔
    (∀ a ∈ args, a.All JSArg.GivenBack (· ≠ [])) ∧ RepliesTidily cb args s := by
  constructor
  · exact Balanced.tidy hcb
  · intro h
    have hargs := fun a ha => (givenBack_iff a).mp (h.1 a ha)
    have hto := lays_toCArgs args s
    cases hrun : toCArgs args s with
    | error e t =>
      obtain ⟨a, ha, hempty⟩ := wp_of_error hto hrun
      exact absurd (hargs a ha).1 hempty
    | ok ps u =>
      obtain ⟨-, Ls, copies, rfl, hgrows, hmade, htidy⟩ := wp_of_ok hto hrun
      obtain ⟨L, v, hreply, hfresh, hno⟩ := h.2 _ _ hrun
      refine ⟨(blocksItems (L :: Ls)).length, fun depth hdepth => ?_⟩
      refine wp_mono (wrapper_tree hrun hmade hreply hfresh hdepth) ?_ (fun _ _ h => h)
      intro _ t ht
      rw [ht]
      exact (leftover_iff hgrows hmade hfresh).mpr ⟨htidy.mpr fun a ha => (hargs a ha).2, hno⟩

end

/-- A callback that answers 5. -/
def answersFive (_ : List Ptr) : CM Ptr := jsargInt 5

theorem fresh_five (u : CHeap) : Fresh u (u.alloc (.arg (.int 5))) (.plain u.next) where
  grows := u.grows_alloc _ _
  on := ⟨.int 5, u.alloc_cell_self _, trivial⟩
  nodup := by simp [blocks]
  new := by simp [blocks]
  rest := by
    intro x hx hne
    rw [u.alloc_cell_of_ne _ (by simpa [blocks] using hne), u.fresh x hx]

theorem replies_answersFive : Replies answersFive := fun _ u =>
  ⟨u.next, u.alloc (.arg (.int 5)), rfl, .tree (fresh_five u)⟩

/-- Called with an integer. -/
theorem balanced_iff_five : Balanced answersFive [.int 3] .empty :=
  (balanced_iff replies_answersFive).mpr ⟨List.forall_mem_singleton.mpr trivial,
    fun _ u _ => ⟨.plain u.next, u.alloc (.arg (.int 5)), rfl, fresh_five u, trivial⟩⟩

/-- Called with the empty string: the copy stays. -/
theorem balanced_fails : ¬∀ (cb : List Ptr → CM Ptr) (args : List JSArg) (s : CHeap),
    Replies cb → Balanced cb args s := by
  intro hall
  have htidy := (hall answersFive [.string []] .empty replies_answersFive).tidy replies_answersFive
  exact htidy.1 _ (List.mem_singleton.mpr rfl)

end Ejr
