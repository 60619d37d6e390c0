import Ejr.CApi.Convert

/-!
# Across the C boundary and back

`ejr_to_jsarg` and then `jsarg_to_ejr`. The two meet at `CRep`: the blocks a C
`JSArg` is spread over hold what is left of the C++ one when its strings have
been through `strlen` (`truncated`). `ejr_to_jsarg` builds such blocks, or
throws because an array in the argument is empty (`builds`); `jsarg_to_ejr`
reads them back (`jsargToEjr_rep`).
-/

namespace Ejr

open Lib

/-! ## What is left -/

mutual

/-- The argument with every text cut at its first NUL. -/
def JSArg.truncated : JSArg → JSArg
  | .string s => .string (cstr s)
  | .exception msg name => .exception (cstr msg) (cstr name)
  | .array items => .array (JSArg.truncatedItems items)
  | .long _ => .null
  | a => a

/-- All elements, truncated. -/
def JSArg.truncatedItems : List JSArg → List JSArg
  | [] => []
  | a :: rest => a.truncated :: JSArg.truncatedItems rest

end

/-- No array in the argument is empty. -/
def JSArg.NoEmptyArray (a : JSArg) : Prop := a.All (fun _ => True) (· ≠ [])

/-- Its texts contain no NUL, and it is not a `long`. -/
def JSArg.CLeaf : JSArg → Prop
  | .string s => NulFree s
  | .exception msg name => NulFree msg ∧ NulFree name
  | .long _ => False
  | _ => True

theorem truncatedItems_eq_iff : ∀ items : List JSArg,
    JSArg.truncatedItems items = items ↔ ∀ a ∈ items, a.truncated = a
  | [] => by simp [JSArg.truncatedItems]
  | a :: rest => by simp [JSArg.truncatedItems, truncatedItems_eq_iff rest]

/-- Nothing is lost of an argument exactly when its parts can cross. -/
theorem truncated_eq_iff (a : JSArg) :
    a.NoEmptyArray ∧ a.truncated = a ↔ a.All JSArg.CLeaf (· ≠ []) := by
  induction a using JSArg.induct with
  | leaf a ha =>
    cases a with
    | array items => exact absurd rfl (ha items)
    | string s => simp [JSArg.NoEmptyArray, JSArg.All, JSArg.truncated, JSArg.CLeaf, cstr_eq_self]
    | exception msg name =>
      simp [JSArg.NoEmptyArray, JSArg.All, JSArg.truncated, JSArg.CLeaf, cstr_eq_self]
    | _ => simp [JSArg.NoEmptyArray, JSArg.All, JSArg.truncated, JSArg.CLeaf]
  | array items ih =>
    simp only [JSArg.NoEmptyArray, JSArg.All, JSArg.allItems_iff, JSArg.truncated, JSArg.array.injEq,
      truncatedItems_eq_iff]
    constructor
    · intro h
      exact ⟨h.1.1, fun a ha => (ih a ha).mp ⟨h.1.2 a ha, h.2 a ha⟩⟩
    · intro h
      exact ⟨⟨h.1, fun a ha => ((ih a ha).mpr (h.2 a ha)).1⟩,
        fun a ha => ((ih a ha).mpr (h.2 a ha)).2⟩

/-! ## Representation -/

/-- `arg` represents an argument that is no array, by blocks in `dom`. -/
def CRepLeaf (h : CHeap) (dom : Nat → Prop) (arg : CJSArg) : JSArg → Prop
  | .int v => arg = .int v
  | .double v => arg = .double v
  | .float v => arg = .float v
  | .bool b => arg = .bool b
  | .int64 v => arg = .int64 v
  | .uint32 v => arg = .uint32 v
  | .null | .long _ => arg = .null
  | .undefined => arg = .undefined
  | .string s => ∃ q m, arg = .string (some q) ∧ dom q ∧ h.cell q = some (.chars m) ∧
      cstr m = cstr s
  | .typedArray a => ∃ q, arg = .typedArray a.elem (some q) a.values.length ∧ dom q ∧
      h.cell q = some (.elems a)
  | .exception msg name => ∃ q r m n, arg = .exception (some q) (some r) ∧ dom q ∧ dom r ∧
      h.cell q = some (.chars m) ∧ h.cell r = some (.chars n) ∧ cstr m = cstr msg ∧
      cstr n = cstr name
  | .array _ => False

mutual

/-- `arg` represents the argument, by blocks in `dom`. -/
def CRep (h : CHeap) (dom : Nat → Prop) : JSArg → CJSArg → Prop
  | .array items, arg => ∃ q ps, arg = .cArray (some q) items.length items.length ∧ dom q ∧
      h.cell q = some (.items (ps.map some)) ∧ CRepItems h dom items ps
  | a, arg => CRepLeaf h dom arg a

/-- The blocks at `ps` represent the elements. -/
def CRepItems (h : CHeap) (dom : Nat → Prop) : List JSArg → List Nat → Prop
  | [], ps => ps = []
  | a :: rest, ps => ∃ p arg ps', ps = p :: ps' ∧ dom p ∧ h.cell p = some (.arg arg) ∧
      CRep h dom a arg ∧ CRepItems h dom rest ps'

end

theorem cRep_of_leaf {h : CHeap} {dom : Nat → Prop} {a : JSArg} {arg : CJSArg}
    (ha : ∀ items, a ≠ .array items) : CRep h dom a arg ↔ CRepLeaf h dom arg a := by
  cases a with
  | array items => exact absurd rfl (ha items)
  | _ => exact Iff.rfl

theorem cRepItems_mono {h h' : CHeap} {dom dom' : Nat → Prop}
    (hcell : ∀ x b, dom x → h.cell x = some b → dom' x ∧ h'.cell x = some b) :
    ∀ {items : List JSArg} {ps : List Nat},
      (∀ a ∈ items, ∀ arg, CRep h dom a arg → CRep h' dom' a arg) →
      CRepItems h dom items ps → CRepItems h' dom' items ps
  | [], _, _, hps => hps
  | a :: rest, _, hrep, ⟨p, arg, ps', hps, hp, hcp, ha, hrest⟩ => by
    obtain ⟨hp', hcp'⟩ := hcell p _ hp hcp
    exact ⟨p, arg, ps', hps, hp', hcp', hrep a (List.mem_cons_self ..) arg ha,
      cRepItems_mono hcell (fun b hb => hrep b (List.mem_cons_of_mem _ hb)) hrest⟩

/-- Only the blocks in `dom` matter. -/
theorem cRep_frame {h h' : CHeap} {dom dom' : Nat → Prop}
    (hcell : ∀ x b, dom x → h.cell x = some b → dom' x ∧ h'.cell x = some b) :
    ∀ (a : JSArg) (arg : CJSArg), CRep h dom a arg → CRep h' dom' a arg := by
  intro a
  induction a using JSArg.induct with
  | leaf a ha =>
    intro arg hrep
    rw [cRep_of_leaf ha] at hrep ⊢
    cases a with
    | string s =>
      obtain ⟨q, m, harg, hq, hcq, hm⟩ := hrep
      obtain ⟨hq', hcq'⟩ := hcell q _ hq hcq
      exact ⟨q, m, harg, hq', hcq', hm⟩
    | typedArray a =>
      obtain ⟨q, harg, hq, hcq⟩ := hrep
      obtain ⟨hq', hcq'⟩ := hcell q _ hq hcq
      exact ⟨q, harg, hq', hcq'⟩
    | exception msg name =>
      obtain ⟨q, r, m, n, harg, hq, hr, hcq, hcr, hm, hn⟩ := hrep
      obtain ⟨hq', hcq'⟩ := hcell q _ hq hcq
      obtain ⟨hr', hcr'⟩ := hcell r _ hr hcr
      exact ⟨q, r, m, n, harg, hq', hr', hcq', hcr', hm, hn⟩
    | _ => exact hrep
  | array items ih =>
    intro arg hrep
    obtain ⟨q, ps, harg, hq, hcq, hitems⟩ := hrep
    obtain ⟨hq', hcq'⟩ := hcell q _ hq hcq
    exact ⟨q, ps, harg, hq', hcq', cRepItems_mono hcell ih hitems⟩

/-! ## `ejr_to_jsarg` builds it -/

/-- Run on the argument, `ejr_to_jsarg` returns new blocks that represent it,
or throws because an array in it is empty. -/
def Builds (a : JSArg) : Prop :=
  ∀ s : CHeap, wp (ejrToJsarg a) s
    (fun p t => a.NoEmptyArray ∧ s.Grows (fun _ => False) t ∧ ∃ x arg, p = some x ∧ s.next ≤ x ∧
      t.cell x = some (.arg arg) ∧ CRep t (s.next ≤ ·) a arg)
    (fun e _ => ¬a.NoEmptyArray ∧ e = .badArrayNewLength)

/-- An argument in one block. -/
theorem builds_newArg {a : JSArg} {arg : CJSArg} (hrun : ejrToJsarg a = newArg arg)
    (hempty : a.NoEmptyArray) (hrep : ∀ h dom, CRep h dom a arg) : Builds a := by
  intro s
  rw [hrun, wp_newArg]
  exact ⟨hempty, s.grows_alloc _ _, s.next, arg, rfl, Nat.le_refl _, s.alloc_cell_self _,
    hrep _ _⟩

theorem builds_string (value : Bytes) : Builds (.string value) := by
  intro s
  simp only [ejrToJsarg, wp_bind, wp_allocate]
  rw [wp_derefChars (s.alloc_cell_self _), wp_jsargStr]
  refine ⟨trivial, ?_, s.next + 1, _, rfl, Nat.le_succ _, ?_, s.next + 2,
    cstr (value ++ [0]) ++ [0], rfl, ?_, ?_, ?_⟩
  · -- the argument is completed after its text has been copied
    refine Store.Grows.of_new ?_
    exact (((s.grows_alloc _ _).alloc _).alloc _).update (Nat.le_succ _) _
  · simp [Store.alloc_cell]
  · exact Nat.le_add_right _ _
  · simp [Store.alloc_cell, Store.update_cell]
  · rw [cstr_copy, cstr_append_nul]

theorem builds_typedArray (a : JSArgTypedArray) : Builds (.typedArray a) := by
  intro s
  rw [ejrToJsarg_typedArray, wp_jsargElems]
  refine ⟨trivial, ?_, s.next, _, rfl, Nat.le_refl _, ?_, s.next + 1, rfl, Nat.le_succ _, ?_⟩
  · refine Store.Grows.of_new ?_
    exact ((s.grows_alloc _ _).alloc _).update (Nat.le_refl _) _
  · simp [Store.alloc_cell]
  · simp [Store.alloc_cell, Store.update_cell]

theorem builds_exception (msg name : Bytes) : Builds (.exception msg name) := by
  intro s
  simp only [ejrToJsarg]
  rw [wp_jsargException]
  refine ⟨trivial, ?_, s.next, _, rfl, Nat.le_refl _, ?_, s.next + 1, s.next + 2,
    cstr (msg ++ [0]) ++ [0], cstr (name ++ [0]) ++ [0], rfl, Nat.le_succ _, Nat.le_add_right _ _,
    ?_, ?_, ?_, ?_⟩
  · refine Store.Grows.of_new ?_
    exact (((s.grows_alloc _ _).alloc _).alloc _).update (Nat.le_refl _) _
  · simp [Store.alloc_cell, Nat.add_assoc]
  · simp [Store.alloc_cell, Store.update_cell]
  · simp [Store.alloc_cell, Store.update_cell]
  · rw [cstr_copy, cstr_append_nul]
  · rw [cstr_copy, cstr_append_nul]

/-- The loop: the array at `p`, with its slots at `q`, has the elements before;
what it is given is stored behind them. -/
theorem builds_items {p q : Nat} : ∀ (items : List JSArg) (_ : ∀ a ∈ items, Builds a)
    (ps : List Nat) (s : CHeap), Filling s p q ps items.length →
    wp (ejrToJsargItems (some p) items) s
      (fun _ t => (∀ a ∈ items, a.NoEmptyArray) ∧ s.Grows (fun x => x = p ∨ x = q) t ∧
        ∃ ps', Filling t p q (ps ++ ps') 0 ∧ CRepItems t (s.next ≤ ·) items ps')
      (fun e _ => (∃ a ∈ items, ¬a.NoEmptyArray) ∧ e = .badArrayNewLength)
  | [], _, ps, s, hfill => by
    rw [ejrToJsargItems, wp_pure]
    exact ⟨by simp, Store.Grows.refl _ _, [], by rwa [List.append_nil], rfl⟩
  | a :: rest, hitems, ps, s, hfill => by
    rw [List.length_cons] at hfill
    simp only [ejrToJsargItems, wp_bind]
    refine wp_mono (hitems a (List.mem_cons_self ..) s) ?_ ?_
    · intro v s1 hs1
      obtain ⟨hempty, hgrows1, x, arg, rfl, hx, hcx, hrep⟩ := hs1
      have hfill1 := hfill.grows hgrows1 (fun h => h) fun h => h
      refine wp_mono hfill1.add ?_ (fun _ _ h => h)
      intro _ s2 hs2
      obtain ⟨hfill2, hgrows2, -⟩ := hs2
      have hnext2 : s.next ≤ s2.next := Nat.le_trans hgrows1.next hgrows2.next
      refine wp_mono (builds_items rest (fun b hb => hitems b (List.mem_cons_of_mem _ hb))
        (ps ++ [x]) s2 hfill2) ?_ ?_
      · intro _ t ht
        obtain ⟨hrest, hgrows3, ps', hfill3, hreps⟩ := ht
        have hgrows : s1.Grows (fun x => x = p ∨ x = q) t := hgrows2.trans hgrows3
        -- what the element is made of lies behind the array and its slots
        have hnew : ∀ y, s.next ≤ y → ¬(y = p ∨ y = q) := by
          intro y hy hpq
          have := Store.lt_next hfill.arg
          have := Store.lt_next hfill.slots
          omega
        refine ⟨?_, (hgrows1.mono fun _ _ h => h.elim).trans hgrows, x :: ps', ?_, x, arg, ps',
          rfl, hx, hgrows.cell_eq hcx (hnew x hx), ?_, ?_⟩
        · intro b hb
          rcases List.mem_cons.mp hb with rfl | hb
          · exact hempty
          · exact hrest b hb
        · rwa [List.append_assoc] at hfill3
        · exact cRep_frame (fun y b hy hcy => ⟨hy, hgrows.cell_eq hcy (hnew y hy)⟩) a arg hrep
        · exact cRepItems_mono (fun y b hy hcy => ⟨Nat.le_trans hnext2 hy, hcy⟩)
            (fun b _ => cRep_frame (fun y c hy hcy => ⟨Nat.le_trans hnext2 hy, hcy⟩) b) hreps
      · intro e t he
        obtain ⟨⟨b, hb, hne⟩, he⟩ := he
        exact ⟨⟨b, List.mem_cons_of_mem _ hb, hne⟩, he⟩
    · intro e t he
      exact ⟨⟨a, List.mem_cons_self .., he.1⟩, he.2⟩

theorem cRepItems_length {h : CHeap} {dom : Nat → Prop} : ∀ {items : List JSArg} {ps : List Nat},
    CRepItems h dom items ps → ps.length = items.length
  | [], _, hps => by
    rw [show _ = [] from hps]
    rfl
  | _ :: rest, _, ⟨_, _, ps', hps, _, _, _, hrest⟩ => by
    rw [hps, List.length_cons, List.length_cons, cRepItems_length hrest]

theorem builds_array {items : List JSArg} (hitems : ∀ a ∈ items, Builds a) :
    Builds (.array items) := by
  intro s
  have hiff : (JSArg.array items).NoEmptyArray ↔ items ≠ [] ∧ ∀ a ∈ items, a.NoEmptyArray := by
    simp only [JSArg.NoEmptyArray, JSArg.All, JSArg.allItems_iff]
  rw [hiff]
  simp only [ejrToJsarg, wp_bind, wp_pure]
  cases hlen : items.length with
  | zero =>
    have hnil : items = [] := List.eq_nil_of_length_eq_zero hlen
    rw [wp_jsargCarray_zero]
    exact ⟨fun h => h.1 hnil, rfl⟩
  | succ n =>
    have hne : items ≠ [] := by
      intro h
      rw [h] at hlen
      exact absurd hlen (by simp)
    refine wp_mono filling_jsargCarray ?_ (fun _ _ h => h)
    intro r s1 hs1
    obtain ⟨rfl, hfill1, hgrows1, hnext1⟩ := hs1
    rw [← hlen] at hfill1
    refine wp_mono (builds_items items hitems [] s1 hfill1) ?_ ?_
    · intro _ t ht
      obtain ⟨hall, hgrows2, ps, hfill2, hreps⟩ := ht
      have hgrows : s.Grows (s.next ≤ ·) t := (hgrows1.mono fun _ _ h => h.elim).trans
        (hgrows2.mono fun x _ h => by rcases h with h | h <;> omega)
      rw [List.nil_append] at hfill2
      have harg := hfill2.arg
      have hslots := hfill2.slots
      rw [List.replicate_zero, List.append_nil] at hslots
      rw [Nat.add_zero, cRepItems_length hreps] at harg
      refine ⟨⟨hne, hall⟩, hgrows.of_new, s.next, _, rfl, Nat.le_refl _, harg, s.next + 1, ps,
        rfl, Nat.le_succ _, hslots, ?_⟩
      -- the elements' blocks are newer than the array's, so newer than all before
      exact cRepItems_mono (fun y b hy hcy => ⟨Nat.le_trans hgrows1.next hy, hcy⟩)
        (fun b _ => cRep_frame (fun y c hy hcy => ⟨Nat.le_trans hgrows1.next hy, hcy⟩) b) hreps
    · -- an empty array further down
      intro e t he
      obtain ⟨⟨b, hb, hne⟩, he⟩ := he
      exact ⟨fun h => hne (h.2 b hb), he⟩

/-- **`ejr_to_jsarg` of every argument**: blocks that represent it, unless an
array in it is empty. -/
theorem builds (a : JSArg) : Builds a := by
  induction a using JSArg.induct with
  | leaf a ha =>
    cases a with
    | array items => exact absurd rfl (ha items)
    | string value => exact builds_string value
    | typedArray a => exact builds_typedArray a
    | exception msg name => exact builds_exception msg name
    | _ => exact builds_newArg (by simp only [ejrToJsarg]; rfl) trivial fun _ _ => rfl
  | array items ih => exact builds_array ih

/-! ## `jsarg_to_ejr` reads it -/

/-- The loop reads the elements whose blocks are at `ps`; `E` is why one stops. -/
theorem jsargToEjrItems_rep {h : CHeap} {dom : Nat → Prop} {rec : CJSArg → CM JSArg} {q : Nat}
    {slots : List Nat} (hq : h.cell q = some (.items (slots.map some))) {E : JSArg → Prop} :
    ∀ (items : List JSArg) (ps : List Nat) (i : Nat), slots.drop i = ps →
    (∀ a ∈ items, ∀ arg, CRep h dom a arg →
      wp (rec arg) h (fun b t => b = a.truncated ∧ t = h) (fun _ _ => E a)) →
    CRepItems h dom items ps →
    wp (jsargToEjrItems rec q i items.length) h
      (fun args t => args = JSArg.truncatedItems items ∧ t = h) (fun _ _ => ∃ a ∈ items, E a)
  | [], _, _, _, _, _ => ⟨rfl, rfl⟩
  | a :: rest, ps, i, hdrop, hrec, ⟨p, arg, ps', hps, _, hcp, ha, hrest⟩ => by
    have hslot : slots[i]? = some p := by
      rw [← List.head?_drop, hdrop, hps]
      rfl
    have hdrop' : slots.drop (i + 1) = ps' := by
      rw [← List.tail_drop, hdrop, hps]
      rfl
    simp only [List.length_cons, jsargToEjrItems, wp_bind, getItem]
    rw [wp_readBlock CBlock.items? hq rfl]
    simp only [List.getElem?_map, hslot, Option.map_some, wp_pure]
    rw [wp_derefArg hcp]
    refine wp_mono (hrec a (List.mem_cons_self ..) arg ha) ?_
      (fun _ _ h => ⟨a, List.mem_cons_self .., h⟩)
    intro b t hb
    obtain ⟨rfl, rfl⟩ := hb
    refine wp_mono (jsargToEjrItems_rep hq rest ps' (i + 1) hdrop'
      (fun b hb => hrec b (List.mem_cons_of_mem _ hb)) hrest) ?_ ?_
    · intro args t hargs
      exact ⟨by rw [hargs.1, JSArg.truncatedItems], hargs.2⟩
    · intro _ _ h
      obtain ⟨b, hb, h⟩ := h
      exact ⟨b, List.mem_cons_of_mem _ hb, h⟩

/-- **`jsarg_to_ejr` of blocks that represent an argument** is what is left of
it, unless it is nested too deep for the recursion. -/
theorem jsargToEjr_rep {h : CHeap} {dom : Nat → Prop} : ∀ (a : JSArg) (arg : CJSArg),
    CRep h dom a arg → ∀ n,
    wp (jsargToEjr n arg) h (fun b t => b = a.truncated ∧ t = h) (fun _ _ => n ≤ a.depth) := by
  intro a
  induction a using JSArg.induct with
  | leaf a ha =>
    intro arg hrep n
    cases n with
    | zero => exact Nat.zero_le _
    | succ n =>
    rw [cRep_of_leaf ha] at hrep
    cases a with
    | array items => exact hrep.elim
    | string s =>
      obtain ⟨q, m, rfl, -, hcq, hm⟩ := hrep
      simp only [jsargToEjr, wp_bind]
      rw [wp_derefChars hcq, wp_pure, hm]
      exact ⟨rfl, rfl⟩
    | typedArray a =>
      obtain ⟨q, rfl, -, hcq⟩ := hrep
      -- the tag of the argument is the type of its elements
      have helems : CBlock.elems? a.elem (.elems a) = some a.values := dif_pos rfl
      simp only [jsargToEjr, wp_bind]
      rw [wp_readBlock _ hcq helems, if_pos (Nat.le_refl _), wp_pure, List.take_length]
      exact ⟨rfl, rfl⟩
    | exception msg name =>
      obtain ⟨q, r, m, n, rfl, -, -, hcq, hcr, hm, hn⟩ := hrep
      simp only [jsargToEjr, orLiteral, wp_bind]
      rw [wp_derefChars hcr, wp_pure, wp_derefChars hcq, wp_pure, wp_pure, hm, hn]
      exact ⟨rfl, rfl⟩
    | _ =>
      obtain rfl : arg = _ := hrep
      exact ⟨rfl, rfl⟩
  | array items ih =>
    intro arg hrep n
    cases n with
    | zero => exact Nat.zero_le _
    | succ n =>
    obtain ⟨q, ps, rfl, -, hcq, hitems⟩ := hrep
    simp only [jsargToEjr, wp_bind, wp_pure]
    refine wp_mono (jsargToEjrItems_rep hcq items ps 0 rfl (fun a ha arg harg => ih a ha arg harg n)
      hitems) ?_ ?_
    · intro args t hargs
      exact ⟨by rw [hargs.1, JSArg.truncated], hargs.2⟩
    · intro _ _ h
      obtain ⟨a, ha, h⟩ := h
      exact Nat.succ_le_succ (Nat.le_trans h (JSArg.depth_le_of_mem ha))

/-! ## There and back -/

/-- `jsarg_to_ejr(*ejr_to_jsarg(a))`. -/
def throughC (n : Nat) (a : JSArg) : CM JSArg := do
  let p ← ejrToJsarg a
  let arg ← derefArg p
  jsargToEjr n arg

/-- What comes back, and when nothing does. -/
theorem throughC_spec (a : JSArg) (n : Nat) (hn : a.depth < n) (s : CHeap) :
    wp (throughC n a) s (fun b _ => a.NoEmptyArray ∧ b = a.truncated)
      (fun e _ => ¬a.NoEmptyArray ∧ e = .badArrayNewLength) := by
  rw [throughC, wp_bind]
  refine wp_mono (builds a s) ?_ (fun _ _ h => h)
  intro p t hp
  obtain ⟨hempty, -, x, arg, rfl, -, hcx, hrep⟩ := hp
  rw [wp_bind, wp_derefArg hcx]
  refine wp_mono (jsargToEjr_rep a arg hrep n) ?_ (fun _ _ h => absurd h (Nat.not_le.mpr hn))
  exact fun b _ hb => ⟨hempty, hb.1⟩

/-- **An argument crosses the C boundary and comes back the same** exactly when
its texts contain no NUL, no array in it is empty, and it holds no `long`. -/
theorem throughC_iff (a : JSArg) (n : Nat) (hn : a.depth < n) (s : CHeap) :
    (∃ t, throughC n a s = .ok a t) ↔ a.All JSArg.CLeaf (· ≠ []) := by
  have hspec := throughC_spec a n hn s
  rw [← truncated_eq_iff]
  constructor
  · intro h
    obtain ⟨t, ht⟩ := h
    obtain ⟨hempty, htr⟩ := wp_of_ok hspec ht
    exact ⟨hempty, htr.symm⟩
  · intro h
    cases hrun : throughC n a s with
    | ok b t =>
      obtain ⟨-, hb⟩ := wp_of_ok hspec hrun
      rw [h.2] at hb
      exact ⟨t, by rw [hb]⟩
    | error e t => exact absurd h.1 (wp_of_error hspec hrun).1

/-- An array of a string and an empty typed array, on an empty heap. -/
theorem throughC_iff_nested : ∃ t,
    throughC 2 (.array [.string (ascii "a"), .typedArray ⟨.uint8, []⟩]) .empty =
      .ok (.array [.string (ascii "a"), .typedArray ⟨.uint8, []⟩]) t := by
  have hleaf : (JSArg.array [.string (ascii "a"), .typedArray ⟨.uint8, []⟩]).All JSArg.CLeaf
      (· ≠ []) := ⟨by simp, by show NulFree _; decide +kernel, trivial, trivial⟩
  exact (throughC_iff _ 2 (by decide) .empty).mpr hleaf

/-- Of an empty vector `ejr_to_jsarg` makes nothing: it throws. -/
theorem throughC_fails : ¬∀ a : JSArg, a.Constructible → ∀ n, a.depth < n → ∀ s,
    ∃ t, throughC n a s = .ok a t := by
  intro h
  obtain ⟨t, ht⟩ := h (.array []) ⟨trivial, trivial⟩ 2 (by decide) .empty
  have hempty := (wp_of_ok (throughC_spec (.array []) 2 (by decide) .empty) ht).1
  exact hempty.1 rfl

end Ejr
