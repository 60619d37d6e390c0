import Ejr.CApi.Wrapper
import Ejr.Settled

/-!
# The wrapper around a callback that computes

A C callback gets its arguments as blocks of the heap and answers with a block.
`Computes cb g` says that it is a function of what the blocks mean: called with
blocks that represent arguments, it builds a tree of its own that represents
`g` of them. Then the wrapper the bridge puts around it is `g` as well, cut at
the NULs of its texts (`wrapper_computes`), and what was on the heap before is
there afterwards.

How deep the two recursions over blocks go is bounded by the number of blocks;
`JSArg.weight` is that number, read off the argument (`blocks_length`).
-/

namespace Ejr

open Lib Layout

/-! ## How many blocks an argument takes -/

mutual

/-- The number of blocks of a C `JSArg` for the argument. -/
def JSArg.weight : JSArg → Nat
  | .string _ | .typedArray _ => 2
  | .exception _ _ => 3
  | .array items => JSArg.weightItems items + 2
  | _ => 1

/-- All of the elements' blocks. -/
def JSArg.weightItems : List JSArg → Nat
  | [] => 0
  | a :: rest => a.weight + JSArg.weightItems rest

end

theorem depthItems_le_weightItems : ∀ items : List JSArg, (∀ a ∈ items, a.depth < a.weight) →
    JSArg.depthItems items ≤ JSArg.weightItems items
  | [], _ => Nat.le_refl _
  | a :: rest, h => by
    obtain ⟨ha, hrest⟩ := List.forall_mem_cons.mp h
    have := depthItems_le_weightItems rest hrest
    rw [JSArg.depthItems, JSArg.weightItems]
    omega

theorem depth_lt_weight (a : JSArg) : a.depth < a.weight := by
  induction a using JSArg.induct with
  | leaf a ha =>
    cases a with
    | array items => exact absurd rfl (ha items)
    | _ => simp [JSArg.depth, JSArg.weight]
  | array items ih =>
    have := depthItems_le_weightItems items ih
    rw [JSArg.depth, JSArg.weight]
    omega

theorem map_some_root (Ls : List Layout) :
    Ls.map (fun L => some L.root) = (Ls.map root).map some :=
  List.map_map.symm

section

variable {h : CHeap} {dom : Nat → Prop}

/-- What lies at the root says which layout it is. -/
theorem Layout.On.shape {L : Layout} {arg : CJSArg} (hL : L.On h) (hroot : h.cell L.root = some (.arg arg)) :
    (Plain arg ∧ L.blocks.length = 1) ∨
    (((∃ q, arg = .string (some q)) ∨ ∃ t q count, arg = .typedArray t (some q) count) ∧
      L.blocks.length = 2) ∨
    ((∃ m n, arg = .exception (some m) (some n)) ∧ L.blocks.length = 3) ∨
    ∃ q capacity ps Ls, arg = .cArray (some q) Ls.length capacity ∧
      h.cell q = some (.items ps) ∧ ps.take Ls.length = Ls.map (some ·.root) ∧
      (∀ M ∈ Ls, M.On h) ∧ L.blocks.length = (blocksItems Ls).length + 2 := by
  cases L with
  | plain p =>
    obtain ⟨a, hp, ha⟩ := hL
    obtain rfl : a = arg := by simpa [root, hp] using hroot
    exact .inl ⟨ha, rfl⟩
  | data p q =>
    obtain ⟨a, hp, ha⟩ := hL
    obtain rfl : a = arg := by simpa [root, hp] using hroot
    refine .inr (.inl ⟨?_, rfl⟩)
    rcases ha with ⟨rfl, -⟩ | ⟨elems, count, rfl, -⟩
    · exact .inl ⟨q, rfl⟩
    · exact .inr ⟨_, _, _, rfl⟩
  | exception p m n =>
    obtain ⟨hp, -, -⟩ := hL
    obtain rfl : _ = arg := by simpa [root, hp] using hroot
    exact .inr (.inr (.inl ⟨⟨m, n, rfl⟩, rfl⟩))
  | array p q Ls =>
    obtain ⟨capacity, ps, hp, hq, hps, hitems⟩ := hL
    obtain rfl : _ = arg := by simpa [root, hp] using hroot
    exact .inr (.inr (.inr ⟨q, capacity, ps, Ls, rfl, hq, hps, onItems_iff.mp hitems, rfl⟩))

theorem blocksItems_length : ∀ (items : List JSArg) (Ls : List Layout),
    (∀ a ∈ items, ∀ (arg : CJSArg) (L : Layout), L.On h → h.cell L.root = some (.arg arg) → CRep h dom a arg →
      L.blocks.length = a.weight) →
    (∀ L ∈ Ls, L.On h) → CRepItems h dom items (Ls.map root) →
    (blocksItems Ls).length = JSArg.weightItems items
  | [], Ls, _, _, hrep => by
    have hnil : Ls = [] := List.map_eq_nil_iff.mp hrep
    rw [hnil]
    rfl
  | a :: rest, Ls, hlen, hon, ⟨p, arg, ps', hps, _, hcp, ha, hrest⟩ => by
    cases Ls with
    | nil => exact absurd hps (by simp)
    | cons L Ls =>
      obtain ⟨rfl, rfl⟩ : L.root = p ∧ Ls.map root = ps' := by simpa using hps
      obtain ⟨hL, hLs⟩ := List.forall_mem_cons.mp hon
      have hfirst := hlen a (List.mem_cons_self ..) arg L hL hcp ha
      have hothers := blocksItems_length rest Ls
        (fun b hb => hlen b (List.mem_cons_of_mem _ hb)) hLs hrest
      rw [blocksItems, List.length_append, JSArg.weightItems, hfirst, hothers]

/-- **A tree that represents an argument has as many blocks as the argument
says.** -/
theorem blocks_length (a : JSArg) : ∀ (arg : CJSArg) (L : Layout), L.On h →
    h.cell L.root = some (.arg arg) → CRep h dom a arg → L.blocks.length = a.weight := by
  induction a using JSArg.induct with
  | leaf a ha =>
    intro arg L hL hroot hrep
    rw [cRep_of_leaf ha] at hrep
    rcases hL.shape hroot with ⟨hplain, hlen⟩ | ⟨hdata, hlen⟩ | ⟨⟨m, n, rfl⟩, hlen⟩ |
      ⟨q, capacity, ps, Ls, rfl, -⟩
    · cases a with
      | array items => exact hrep.elim
      | string s =>
        obtain ⟨q, m, rfl, -⟩ := hrep
        exact hplain.elim
      | typedArray b =>
        obtain ⟨q, rfl, -⟩ := hrep
        exact hplain.elim
      | exception msg name =>
        obtain ⟨q, r, m, n, rfl, -⟩ := hrep
        exact hplain.elim
      | _ => exact hlen
    · rcases hdata with ⟨q, rfl⟩ | ⟨t, q, count, rfl⟩
      · cases a with
        | string s => exact hlen
        | _ => simp [CRepLeaf] at hrep
      · cases a with
        | typedArray b => exact hlen
        | _ => simp [CRepLeaf] at hrep
    · cases a with
      | exception msg name => exact hlen
      | _ => simp [CRepLeaf] at hrep
    · cases a with
      | array items => exact hrep.elim
      | _ => simp [CRepLeaf] at hrep
  | array items ih =>
    intro arg L hL hroot hrep
    obtain ⟨q, ps, rfl, -, hcq, hitems⟩ := hrep
    rcases hL.shape hroot with ⟨hplain, -⟩ | ⟨⟨r, hr⟩ | ⟨t, r, count, hr⟩, -⟩ | ⟨⟨m, n, hr⟩, -⟩ |
      ⟨r, capacity, slots, Ls, harg, hcr, hslots, hLs, hlen⟩
    · exact hplain.elim
    · exact absurd hr (by simp)
    · exact absurd hr (by simp)
    · exact absurd hr (by simp)
    · obtain ⟨hqr, hcount, -⟩ : q = r ∧ items.length = Ls.length ∧ items.length = capacity := by
        simpa using harg
      subst hqr
      obtain rfl : ps.map some = slots := by simpa [hcq] using hcr
      have hps : ps = Ls.map root := by
        have hlength := cRepItems_length hitems
        rw [List.take_of_length_le (by simp [hlength, hcount]), map_some_root] at hslots
        exact List.map_injective_iff.mpr (Option.some_injective _) hslots
      rw [hlen, JSArg.weight, blocksItems_length items Ls ih hLs (hps ▸ hitems)]

end

/-! ## The arguments of a callback -/

/-- Texts that come back from the engine have no NUL. -/
theorem Stable.nulFree {s : Bytes} (hs : Stable s) : NulFree s := by
  rw [← show throughEngine s = s from hs]
  exact nulFree_cstr _

/-- What comes out of `from_js` loses nothing on the way to C. -/
theorem truncated_of_settled {a : JSArg} : a.Settled → a.truncated = a := by
  induction a using JSArg.induct with
  | leaf a ha =>
    intro h
    cases a with
    | array items => exact absurd rfl (ha items)
    | string s => rw [JSArg.truncated, cstr_of_nulFree (Stable.nulFree h)]
    | exception msg name =>
      rw [JSArg.truncated, cstr_of_nulFree (Stable.nulFree h.1), cstr_of_nulFree (Stable.nulFree h.2)]
    | long v => exact h.elim
    | _ => rfl
  | array items ih =>
    intro h
    obtain ⟨-, hitems⟩ := h
    rw [JSArg.allItems_iff] at hitems
    rw [JSArg.truncated, (truncatedItems_eq_iff items).mpr fun a ha => ih a ha (hitems a ha)]

/-- The loop of the wrapper over the arguments: blocks that represent them, unless
there is an empty array among them. -/
theorem builds_toCArgs : ∀ (args : List JSArg) (s : CHeap),
    wp (toCArgs args) s (fun ps u => ∃ qs : List Nat, ps = qs.map some ∧
      s.Grows (fun _ => False) u ∧ CRepItems u (s.next ≤ ·) args qs)
      (fun _ _ => ∃ a ∈ args, ¬a.NoEmptyArray)
  | [], s => ⟨[], rfl, Store.Grows.refl _ _, rfl⟩
  | a :: args, s => by
    simp only [toCArgs, wp_bind, wp_pure]
    refine wp_mono (builds a s) ?_ (fun _ _ h => ⟨a, List.mem_cons_self .., h.1⟩)
    intro p t ht
    obtain ⟨-, hgrows, x, arg, rfl, hx, hcx, hrep⟩ := ht
    refine wp_mono (builds_toCArgs args t) ?_ ?_
    · intro ps u hu
      obtain ⟨qs, rfl, hgrows', hreps⟩ := hu
      have hcell : ∀ y b, s.next ≤ y → t.cell y = some b → s.next ≤ y ∧ u.cell y = some b :=
        fun y b hy hcy => ⟨hy, hgrows'.cell_eq hcy fun h => h⟩
      refine ⟨x :: qs, rfl, hgrows.trans hgrows', x, arg, qs, rfl, hx, (hcell x _ hx hcx).2,
        cRep_frame hcell a arg hrep, ?_⟩
      exact cRepItems_mono (fun y b hy hcy => ⟨Nat.le_trans hgrows.next hy, hcy⟩)
        (fun b _ => cRep_frame (fun y c hy hcy => ⟨Nat.le_trans hgrows.next hy, hcy⟩) b) hreps
    · intro _ _ h
      obtain ⟨b, hb, h⟩ := h
      exact ⟨b, List.mem_cons_of_mem _ hb, h⟩

/-! ## The wrapper -/

/-- Called with blocks that represent settled arguments, the callback builds a
tree of its own that represents `g` of them. -/
def Computes (cb : List Ptr → CM Ptr) (g : List JSArg → JSArg) : Prop :=
  ∀ (args : List JSArg) (ps : List Nat) (u : CHeap) (dom : Nat → Prop),
    (∀ a ∈ args, a.Settled) → CRepItems u dom args ps →
    ∃ L v arg, cb (ps.map some) u = .ok (some L.root) v ∧ Fresh u v L ∧
      v.cell L.root = some (.arg arg) ∧ CRep v (fun _ => True) (g args) arg

/-- Whenever the wrapper of a callback that computes `g` returns, it returns what is
left of `g`: that was read before anything was freed. -/
theorem wrapper_answers {cb : List Ptr → CM Ptr} {g : List JSArg → JSArg} (hcb : Computes cb g)
    {args : List JSArg} (hsettled : ∀ a ∈ args, a.Settled) (depth : Nat) (s : CHeap) :
    wp (wrapper depth cb args) s (fun b _ => b = (g args).truncated) (fun _ _ => True) := by
  rw [wrapper, wp_bind]
  refine wp_mono (builds_toCArgs args s) ?_ (fun _ _ _ => trivial)
  intro ps u hu
  obtain ⟨qs, rfl, -, hreps⟩ := hu
  obtain ⟨L, v, arg, hrun, -, hroot, hrep⟩ := hcb args qs u _ hsettled hreps
  rw [wp_bind, wp_iff_of_ok hrun, wp_bind, wp_derefArg hroot, wp_bind]
  refine wp_mono (jsargToEjr_rep (g args) arg hrep depth) ?_ (fun _ _ _ => trivial)
  intro b t hb
  rw [wp_bind]
  refine wp_mono wp_true (fun _ _ _ => ?_) (fun _ _ _ => trivial)
  rw [wp_bind]
  exact wp_mono wp_true (fun _ _ _ => hb.1) (fun _ _ _ => trivial)

/-- **The wrapper of a callback that computes `g`** computes `g`, and leaves on
the heap what was there. -/
theorem wrapper_computes {cb : List Ptr → CM Ptr} {g : List JSArg → JSArg} (hcb : Computes cb g)
    {args : List JSArg} (hsettled : ∀ a ∈ args, a.Settled) (hempty : ∀ a ∈ args, a.NoEmptyArray)
    {depth : Nat} (hdepth : (g args).weight + JSArg.weightItems args ≤ depth) (s : CHeap) :
    wp (wrapper depth cb args) s
      (fun b t => b = (g args).truncated ∧ s.Grows (fun _ => False) t) (fun _ _ => False) := by
  have hends : wp (toCArgs args) s (fun ps u => ∃ qs : List Nat, ps = qs.map some ∧
      s.Grows (fun _ => False) u ∧ CRepItems u (s.next ≤ ·) args qs) (fun _ _ => False) := by
    refine wp_mono (builds_toCArgs args s) (fun _ _ h => h) ?_
    intro _ _ h
    obtain ⟨a, ha, hno⟩ := h
    exact hno (hempty a ha)
  obtain ⟨ps, u, hto, hmade, hbuilt⟩ := exists_ok_of_wp
    (wp_mono (wp_and (lays_toCArgs args s) hends) (fun _ _ h => h) fun _ _ h => h.2)
  obtain ⟨-, Ls, copies, rfl, hgrows, hmade, -⟩ := hmade
  obtain ⟨qs, hqs, -, hreps⟩ := hbuilt
  rw [map_some_root] at hto hqs
  obtain rfl : Ls.map root = qs := List.map_injective_iff.mpr (Option.some_injective _) hqs
  obtain ⟨L, v, arg, hrun, hfresh, hroot, hrep⟩ := hcb args _ u _ hsettled hreps
  have hweight : (blocksItems (L :: Ls)).length ≤ depth := by
    rw [blocksItems, List.length_append, blocks_length (g args) arg L hfresh.on hroot hrep,
      blocksItems_length args Ls (fun a _ => blocks_length a) hmade.on hreps]
    exact hdepth
  rw [← map_some_root] at hto hrun
  refine wp_mono (wp_and (wrapper_answers hcb hsettled depth s)
    (wrapper_tree hto hmade hrun hfresh hweight)) ?_ (fun _ _ h => h.2)
  intro b t hb
  obtain ⟨rfl, rfl⟩ := hb
  have hsub := (freedItems_sublist fun M (_ : M ∈ Ls) => M.freed_sublist).subset
  refine ⟨rfl, Nat.le_trans hgrows.next hfresh.grows.next, fun x hx _ => ?_⟩
  -- everything that has been freed is newer
  have hnot : x ∉ L.freed ++ freedItems Ls := by
    intro hmem
    rcases List.mem_append.mp hmem with hmem | hmem
    · have := hfresh.new x (L.freed_sublist.subset hmem)
      have := hgrows.next
      omega
    · have := (hmade.mem_iff.mp (.inl (hsub hmem))).1
      omega
  rw [Store.without_cell_of_not_mem _ hnot,
    hfresh.grows.cell x (Nat.lt_of_lt_of_le hx hgrows.next) fun h => h,
    hgrows.cell x hx fun h => h]

/-- A callback that converts the same argument every time computes a constant, when the
conversion leaves no copies behind. -/
theorem computes_ejrToJsarg {a : JSArg} (hfull : a.NoEmptyArray)
    (hback : a.All JSArg.GivenBack fun _ => True) :
    Computes (fun _ => ejrToJsarg a) fun _ => a := by
  intro args ps u dom _ _
  obtain ⟨p, v, hrun, hlays, -, -, x, arg, rfl, -, hcx, hrep⟩ := exists_ok_of_wp
    (wp_mono (wp_and (lays a u) (builds a u)) (fun _ _ h => h) fun _ _ h => h.2.1 hfull)
  obtain ⟨L, copies, hroot, hgrows, hmade, htidy⟩ := hlays
  obtain rfl : x = L.root := Option.some.inj hroot
  obtain ⟨rfl, -⟩ := htidy.mpr hback
  have hblocks : blocksItems [L] = L.blocks := by rw [blocksItems, blocksItems, List.append_nil]
  have hmem : ∀ y, y ∈ L.blocks ↔ u.next ≤ y ∧ y < v.next := by
    intro y
    rw [← hmade.mem_iff, hblocks]
    exact ⟨.inl, fun h => h.resolve_right List.not_mem_nil⟩
  have hnodup := hmade.nodup
  rw [hblocks, List.append_nil] at hnodup
  refine ⟨L, v, arg, hrun, ⟨hgrows, hmade.on L (List.mem_singleton.mpr rfl), hnodup,
    fun y hy => ((hmem y).mp hy).1, fun y hy hno => ?_⟩, hcx,
    cRep_frame (fun _ _ _ hcy => ⟨trivial, hcy⟩) a arg hrep⟩
  -- beyond the new blocks there is nothing
  refine v.fresh y (Nat.not_lt.mp fun hlt => ?_)
  exact hno ((hmem y).mpr ⟨hy, hlt⟩)

end Ejr
