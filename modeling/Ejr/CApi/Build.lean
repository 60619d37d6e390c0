import Ejr.Lib.Run
import Ejr.CApi.Free

/-!
# Trees built by the constructors

Programs that make `JSArg`s with the public constructors and put some of them into
arrays with `jsarg_add_value_to_c_array` (src/ejr_c_api.cpp). The state has, next to
the C heap, the trees built so far: a constructor adds a tree of the blocks it
allocated (`Make.layout`), a call that adds a tree to an array of another one joins
the two (`Layout.attach`). `WellBuilt` is the invariant: the trees lie in the heap
and share no block. `frees_iff` is then what `jsarg_free` does to each of them.

Mirroring notes:
- A `JSArg` is added while it is the root of a tree of its own: so it is added to
  one array at most, and never below itself.
- A call that does not add, because there is no room or no value, changes nothing;
  it is one of the other things a program does between these calls (`other`).
-/

namespace Ejr

open Lib

namespace Layout

/-! ## Joining two trees -/

mutual

/-- The arrays in the tree. -/
def arrays : Layout → List Nat
  | .array arg _ items => arg :: arraysItems items
  | _ => []

/-- The arrays in the elements. -/
def arraysItems : List Layout → List Nat
  | [] => []
  | L :: rest => L.arrays ++ arraysItems rest

end

mutual

/-- `M` as the last element of the array at `p`. -/
def attach (p : Nat) (M : Layout) : Layout → Layout
  | .array arg slots items =>
    if arg = p then .array arg slots (items ++ [M]) else .array arg slots (attachItems p M items)
  | L => L

/-- `attach` in every element. -/
def attachItems (p : Nat) (M : Layout) : List Layout → List Layout
  | [] => []
  | L :: rest => attach p M L :: attachItems p M rest

end

section

variable {h t : CHeap} {p q : Nat} {L M : Layout} {items : List Layout}

theorem attachItems_eq_map : ∀ items : List Layout, attachItems p M items = items.map (attach p M)
  | [] => rfl
  | L :: rest => by rw [attachItems, attachItems_eq_map rest, List.map_cons]

theorem mem_arraysItems : ∀ {items : List Layout}, p ∈ arraysItems items ↔ ∃ L ∈ items, p ∈ L.arrays
  | [] => by simp [arraysItems]
  | L :: rest => by simp [arraysItems, @mem_arraysItems rest]

theorem blocksItems_eq_flatMap : ∀ items : List Layout, blocksItems items = items.flatMap blocks
  | [] => rfl
  | L :: rest => by rw [blocksItems, blocksItems_eq_flatMap rest, List.flatMap_cons]

theorem blocksItems_perm {items others : List Layout} (hperm : items.Perm others) :
    (blocksItems items).Perm (blocksItems others) := by
  rw [blocksItems_eq_flatMap, blocksItems_eq_flatMap]
  exact hperm.flatMap_right _

/-- An array is one of the blocks. -/
theorem arrays_subset (L : Layout) : ∀ p ∈ L.arrays, p ∈ L.blocks := by
  induction L using Layout.induct with
  | plain a => exact fun p hp => nomatch hp
  | data a b => exact fun p hp => nomatch hp
  | exception a b c => exact fun p hp => nomatch hp
  | array a b items ih =>
    intro p hp
    rw [arrays] at hp
    rw [blocks]
    rcases List.mem_cons.mp hp with rfl | hp
    · exact List.mem_cons_self ..
    · obtain ⟨L, hL, hp⟩ := mem_arraysItems.mp hp
      exact List.mem_cons_of_mem _ (List.mem_cons_of_mem _ (mem_blocksItems.mpr ⟨L, hL, ih L hL p hp⟩))

/-- The slots of an array are one of the blocks. -/
theorem slots_mem {L : Layout} (hL : L.On h) {count capacity : Nat}
    (hp : h.cell p = some (.arg (.cArray (some q) count capacity))) (hmem : p ∈ L.arrays) :
    q ∈ L.blocks := by
  induction L using Layout.induct with
  | plain a => exact nomatch hmem
  | data a b => exact nomatch hmem
  | exception a b c => exact nomatch hmem
  | array a b items ih =>
    obtain ⟨cap, ps, ha, hb, -, hitems⟩ := hL
    rw [onItems_iff] at hitems
    rw [blocks]
    rw [arrays] at hmem
    rcases List.mem_cons.mp hmem with rfl | hmem
    · rw [hp] at ha
      obtain ⟨rfl, -, -⟩ : q = b ∧ count = items.length ∧ capacity = cap := by simpa using ha
      exact List.mem_cons_of_mem _ (List.mem_cons_self ..)
    · obtain ⟨L, hLm, hmem⟩ := mem_arraysItems.mp hmem
      have hq := ih L hLm (hitems L hLm) hmem
      exact List.mem_cons_of_mem _ (List.mem_cons_of_mem _ (mem_blocksItems.mpr ⟨L, hLm, hq⟩))

/-- The root stays. -/
theorem root_attach : (attach p M L).root = L.root := by
  cases L with
  | array a b items =>
    rw [attach]
    split
    · rfl
    · rfl
  | _ => rfl

/-- A tree without the array stays as it is. -/
theorem attach_of_not_mem (hp : p ∉ L.arrays) : attach p M L = L := by
  induction L using Layout.induct with
  | plain a => rfl
  | data a b => rfl
  | exception a b c => rfl
  | array a b items ih =>
    rw [arrays, List.mem_cons, not_or] at hp
    have hitems : items.map (attach p M) = items := by
      refine (List.map_congr_left fun L hL => ?_).trans (List.map_id items)
      exact ih L hL fun h => hp.2 (mem_arraysItems.mpr ⟨L, hL, h⟩)
    rw [attach, if_neg (Ne.symm hp.1), attachItems_eq_map, hitems]

/-- The blocks of both, of a list of trees one of which has the array. -/
theorem blocksItems_attach : ∀ {items : List Layout}, (blocksItems items).Nodup →
    p ∈ arraysItems items →
    (∀ L ∈ items, p ∈ L.arrays → (attach p M L).blocks.Perm (L.blocks ++ M.blocks)) →
    (blocksItems (items.map (attach p M))).Perm (blocksItems items ++ M.blocks)
  | [], _, hp, _ => nomatch hp
  | L :: rest, hnodup, hp, hone => by
    rw [blocksItems] at hnodup
    obtain ⟨-, hrest, hdisj⟩ := List.nodup_append.mp hnodup
    rw [List.map_cons, blocksItems, blocksItems]
    by_cases hL : p ∈ L.arrays
    · -- no other tree has it
      have hsame : rest.map (attach p M) = rest := by
        refine (List.map_congr_left fun K hK => ?_).trans (List.map_id rest)
        refine attach_of_not_mem fun hKp => ?_
        exact hdisj p (L.arrays_subset p hL) p (mem_blocksItems.mpr ⟨K, hK, K.arrays_subset p hKp⟩) rfl
      rw [hsame]
      refine ((hone L (List.mem_cons_self ..) hL).append_right _).trans ?_
      rw [List.append_assoc, List.append_assoc]
      exact List.perm_append_comm.append_left _
    · have hp' : p ∈ arraysItems rest := by
        rw [arraysItems] at hp
        exact (List.mem_append.mp hp).resolve_left hL
      rw [attach_of_not_mem hL, List.append_assoc]
      refine (blocksItems_attach hrest hp' fun K hK => ?_).append_left _
      exact hone K (List.mem_cons_of_mem _ hK)

/-- The blocks of both. -/
theorem blocks_attach (hnodup : L.blocks.Nodup) (hp : p ∈ L.arrays) :
    (attach p M L).blocks.Perm (L.blocks ++ M.blocks) := by
  induction L using Layout.induct with
  | plain a => exact nomatch hp
  | data a b => exact nomatch hp
  | exception a b c => exact nomatch hp
  | array a b items ih =>
    rw [attach]
    split
    next =>
      rw [blocks, blocks, blocksItems_append, blocksItems, blocksItems, List.append_nil]
      exact .refl _
    next hne =>
      have hp' : p ∈ arraysItems items := by
        rw [arrays] at hp
        exact (List.mem_cons.mp hp).resolve_left fun h => hne h.symm
      have hitems : (blocksItems items).Nodup :=
        (List.nodup_cons.mp (List.nodup_cons.mp hnodup).2).2
      rw [blocks, blocks, attachItems_eq_map]
      refine ((blocksItems_attach hitems hp' fun L hL hLp => ?_).cons _).cons _
      exact ih L hL (hitems.sublist (blocks_sublist_items hL)) hLp

/-- What a call that adds `v` to the array at `p`, with its slots at `q`, has changed. -/
structure Added (h t : CHeap) (p q v count capacity : Nat) (ps : List Ptr) : Prop where
  arg : h.cell p = some (.arg (.cArray (some q) count capacity))
  slots : h.cell q = some (.items ps)
  lt : count < ps.length
  arg' : t.cell p = some (.arg (.cArray (some q) (count + 1) capacity))
  slots' : t.cell q = some (.items (ps.set count (some v)))
  rest : ∀ x, x ≠ p → x ≠ q → t.cell x = h.cell x

section

variable {count capacity : Nat} {ps : List Ptr} (hadd : Added h t p q M.root count capacity ps)

include hadd

/-- A tree that avoids both blocks lies there still. -/
theorem Added.stay {K : Layout} (hK : K.On h) (hp : p ∉ K.blocks) (hq : q ∉ K.blocks) :
    K.On t := by
  refine hK.congr fun x hx => hadd.rest x ?_ ?_
  · exact fun heq => hp (heq ▸ hx)
  · exact fun heq => hq (heq ▸ hx)

/-- The array itself has one element more. -/
theorem Added.on_array {b : Nat} {items : List Layout} (hL : (Layout.array p b items).On h)
    (hnodup : (Layout.array p b items).blocks.Nodup) (hM : M.On h)
    (hdisj : ∀ x ∈ M.blocks, x ∉ (Layout.array p b items).blocks) :
    (Layout.array p b (items ++ [M])).On t := by
  obtain ⟨cap, ps', ha, hb, hroots, hitems⟩ := hL
  rw [onItems_iff] at hitems
  obtain ⟨hanot, hbnodup⟩ := List.nodup_cons.mp hnodup
  obtain ⟨hbnot, -⟩ := List.nodup_cons.mp hbnodup
  rw [hadd.arg] at ha
  obtain ⟨rfl, rfl, rfl⟩ : q = b ∧ count = items.length ∧ capacity = cap := by simpa using ha
  rw [hadd.slots] at hb
  obtain rfl : ps = ps' := by simpa using hb
  refine ⟨capacity, _, by rw [List.length_append]; exact hadd.arg', hadd.slots', ?_, ?_⟩
  · rw [List.length_append, List.length_singleton, List.map_append, ← hroots,
      List.take_add_one, List.getElem?_set_self hadd.lt, List.take_set_of_le (Nat.le_refl _)]
    rfl
  · rw [onItems_iff]
    intro K hK
    rcases List.mem_append.mp hK with hK | hK
    · have hsub := (blocks_sublist_items hK).subset
      exact hadd.stay (hitems K hK) (fun h => hanot (List.mem_cons_of_mem _ (hsub h)))
        fun h => hbnot (hsub h)
    · obtain rfl := List.mem_singleton.mp hK
      exact hadd.stay hM (fun h => hdisj _ h (List.mem_cons_self ..))
        fun h => hdisj _ h (List.mem_cons_of_mem _ (List.mem_cons_self ..))

/-- Both lie there, joined, when the call has been made. -/
theorem Added.on_attach (hL : L.On h) (hnodup : L.blocks.Nodup) (hmem : p ∈ L.arrays)
    (hM : M.On h) (hdisj : ∀ x ∈ M.blocks, x ∉ L.blocks) : (attach p M L).On t := by
  induction L using Layout.induct with
  | plain a => exact nomatch hmem
  | data a b => exact nomatch hmem
  | exception a b c => exact nomatch hmem
  | array a b items ih =>
    rw [attach]
    split
    next hap =>
      subst hap
      exact hadd.on_array hL hnodup hM hdisj
    next hap =>
      obtain ⟨cap, ps', ha, hb, hroots, hitems⟩ := hL
      rw [onItems_iff] at hitems
      obtain ⟨hanot, hbnodup⟩ := List.nodup_cons.mp hnodup
      obtain ⟨hbnot, hinodup⟩ := List.nodup_cons.mp hbnodup
      -- the element that has the array has its slots, too
      obtain ⟨N, hN, hpN⟩ : ∃ N ∈ items, p ∈ N.arrays := by
        rw [arrays] at hmem
        exact mem_arraysItems.mp ((List.mem_cons.mp hmem).resolve_left fun h => hap h.symm)
      have hpN' := N.arrays_subset p hpN
      have hqN := slots_mem (hitems N hN) hadd.arg hpN
      have hsubN := (blocks_sublist_items hN).subset
      have haq : a ≠ q := fun h => hanot (h ▸ List.mem_cons_of_mem _ (hsubN hqN))
      have hbp : b ≠ p := fun h => hbnot (h ▸ hsubN hpN')
      have hbq : b ≠ q := fun h => hbnot (h ▸ hsubN hqN)
      rw [attachItems_eq_map]
      refine ⟨cap, ps', ?_, ?_, ?_, ?_⟩
      · rw [List.length_map, hadd.rest a hap haq, ha]
      · rw [hadd.rest b hbp hbq, hb]
      · rw [List.length_map, hroots, List.map_map]
        exact List.map_congr_left fun K _ => congrArg some root_attach.symm
      · rw [onItems_iff]
        intro K' hK'
        obtain ⟨K, hK, rfl⟩ := List.mem_map.mp hK'
        by_cases hpK : p ∈ K.arrays
        · refine ih K hK (hitems K hK) (hinodup.sublist (blocks_sublist_items hK)) hpK ?_
          intro x hx hxK
          exact hdisj x hx (List.mem_cons_of_mem _ (List.mem_cons_of_mem _
            ((blocks_sublist_items hK).subset hxK)))
        · -- the array is in another element
          have hne : N ≠ K := fun h => hpK (h ▸ hpN)
          rw [attach_of_not_mem hpK]
          exact hadd.stay (hitems K hK) (blocks_disjoint hinodup hN hK hne hpN')
            (blocks_disjoint hinodup hN hK hne hqN)

end

end

end Layout

open Layout

/-! ## Programs that build -/

/-- A call of a constructor; the nine for typed arrays are one. -/
inductive Make where
  | int (value : Int32)
  | str (value : Bytes)
  | double (value : Double)
  | float (value : Double)
  | int64t (value : Int64)
  | uint32t (value : UInt32)
  | bool (value : Bool)
  | carray (count : Nat)
  | null
  | undefined
  | elems (values : JSArgTypedArray)
  | exception (message name : Bytes)

/-- The call. -/
def Make.run : Make → CM Ptr
  | .int value => jsargInt value
  | .str value => jsargStr value
  | .double value => jsargDouble value
  | .float value => jsargFloat value
  | .int64t value => jsargInt64t value
  | .uint32t value => jsargUint32t value
  | .bool value => jsargBool value
  | .carray count => jsargCarray count
  | .null => jsargNull
  | .undefined => jsargUndefined
  | .elems values => jsargElems values
  | .exception message name => jsargException message name

/-- The blocks of what it makes at `p`. -/
def Make.layout (p : Nat) : Make → Layout
  | .str _ | .elems _ => .data p (p + 1)
  | .carray _ => .array p (p + 1) []
  | .exception _ _ => .exception p (p + 1) (p + 2)
  | _ => .plain p

/-- What a constructor has made: it lies there, and its blocks are the ones that
have been allocated. -/
def Allocates (p : CM Ptr) (layout : Nat → Layout) : Prop :=
  ∀ s : CHeap, wp p s (fun r t => r = some s.next ∧ (layout s.next).root = s.next ∧
    (layout s.next).On t ∧ (layout s.next).blocks = List.range' s.next (t.next - s.next) ∧
    s.Grows (fun _ => False) t) (fun _ _ => True)

theorem allocates_newArg {a : CJSArg} (ha : Plain a) : Allocates (newArg a) .plain := by
  intro s
  rw [wp_newArg]
  refine ⟨rfl, rfl, ⟨a, s.alloc_cell_self _, ha⟩, ?_, s.grows_alloc _ _⟩
  simp [blocks]

theorem allocates_jsargStr (value : Bytes) : Allocates (jsargStr value) fun p => .data p (p + 1) := by
  intro s
  rw [wp_jsargStr]
  refine ⟨rfl, rfl, ⟨_, ?_, .inl ⟨rfl, cstr value ++ [0], ?_⟩⟩, ?_, Store.Grows.of_new ?_⟩
  · simp [Store.alloc_cell]
  · simp [Store.alloc_cell, Store.update_cell]
  · simp [blocks, Nat.add_assoc, List.range']
  · exact ((s.grows_alloc _ _).alloc _).update (Nat.le_refl _) _

theorem allocates_jsargElems (values : JSArgTypedArray) :
    Allocates (jsargElems values) fun p => .data p (p + 1) := by
  intro s
  rw [wp_jsargElems]
  refine ⟨rfl, rfl, ⟨_, ?_, .inr ⟨values, _, rfl, ?_, Nat.le_refl _⟩⟩, ?_, Store.Grows.of_new ?_⟩
  · simp [Store.alloc_cell]
  · simp [Store.alloc_cell, Store.update_cell]
  · simp [blocks, Nat.add_assoc, List.range']
  · exact ((s.grows_alloc _ _).alloc _).update (Nat.le_refl _) _

theorem allocates_jsargException (message name : Bytes) :
    Allocates (jsargException message name) fun p => .exception p (p + 1) (p + 2) := by
  intro s
  rw [wp_jsargException]
  refine ⟨rfl, rfl, ⟨?_, ⟨cstr message ++ [0], ?_⟩, cstr name ++ [0], ?_⟩, ?_, Store.Grows.of_new ?_⟩
  · simp [Store.alloc_cell, Nat.add_assoc]
  · simp [Store.alloc_cell, Store.update_cell]
  · simp [Store.alloc_cell, Store.update_cell, Nat.add_assoc]
  · simp [blocks, Nat.add_assoc, List.range']
  · exact (((s.grows_alloc _ _).alloc _).alloc _).update (Nat.le_refl _) _

theorem allocates_jsargCarray (count : Nat) :
    Allocates (jsargCarray count) fun p => .array p (p + 1) [] := by
  intro s
  cases count with
  | zero => exact wp_jsargCarray_zero.mpr trivial
  | succ n =>
    refine wp_mono filling_jsargCarray ?_ (fun _ _ h => h)
    intro r t ht
    obtain ⟨rfl, hfill, hgrows, hnext⟩ := ht
    refine ⟨rfl, rfl, ⟨_, _, hfill.arg, hfill.slots, rfl, trivial⟩, ?_, hgrows⟩
    rw [hnext, Nat.add_sub_cancel_left]
    rfl

/-- Every constructor. -/
theorem Make.allocates (c : Make) : Allocates c.run fun p => c.layout p := by
  cases c with
  | str value => exact allocates_jsargStr value
  | elems values => exact allocates_jsargElems values
  | exception message name => exact allocates_jsargException message name
  | carray count => exact allocates_jsargCarray count
  | _ => exact allocates_newArg trivial

/-- The C heap, and the trees built so far. -/
structure Building where
  heap : CHeap
  trees : List Layout

namespace Building

/-- What the program does: a constructor call, with the addresses it allocated;
`jsarg_add_value_to_c_array(arg, value)`; something else. -/
inductive Call where
  | make (c : Make) (allocated : List Nat)
  | add (arg value : Nat)
  | other

/-- The addresses a call allocated for the trees. -/
def Call.allocated : Call → List Nat
  | .make _ allocated => allocated
  | .add _ _ | .other => []

/-- The array at `p` has room left. -/
def HasRoom (h : CHeap) (p : Nat) : Prop :=
  ∃ items count capacity, h.cell p = some (.arg (.cArray items count capacity)) ∧ count < capacity

/-- The steps. What else happens leaves the trees alone. -/
inductive step : Building → Call → Building → Prop where
  | make {s : Building} {c : Make} {p : Nat} {t : CHeap} (hok : c.run s.heap = .ok (some p) t) :
      step s (.make c (List.range' s.heap.next (t.next - s.heap.next)))
        ⟨t, s.trees ++ [c.layout p]⟩
  | add {s : Building} {arg : Nat} {t : CHeap} {L M : Layout} {rest : List Layout}
      (htrees : s.trees.Perm (L :: M :: rest)) (harg : arg ∈ L.arrays) (hroom : HasRoom s.heap arg)
      (hok : jsargAddValueToCArray (some arg) (some M.root) s.heap = .ok () t) :
      step s (.add arg M.root) ⟨t, attach arg M L :: rest⟩
  | other {s : Building} {t : CHeap} (hsame : ∀ x ∈ blocksItems s.trees, t.cell x = s.heap.cell x) :
      step s .other ⟨t, s.trees⟩

/-- The trees lie in the heap and share no block. -/
structure WellBuilt (s : Building) : Prop where
  on : ∀ L ∈ s.trees, L.On s.heap
  nodup : (blocksItems s.trees).Nodup

section

variable {s t : Building} {call : Call} {calls : List Call} {L : Layout}

theorem wellBuilt_nil (h : CHeap) : WellBuilt ⟨h, []⟩ where
  on _ hL := nomatch hL
  nodup := List.nodup_nil

/-- Blocks of trees have been allocated. -/
theorem WellBuilt.lt (hs : WellBuilt s) : ∀ x ∈ blocksItems s.trees, x < s.heap.next := by
  intro x hx
  obtain ⟨L, hL, hx⟩ := mem_blocksItems.mp hx
  obtain ⟨b, hb⟩ := Option.isSome_iff_exists.mp ((hs.on L hL).live x hx)
  exact Store.lt_next hb

/-- A call that adds: it changes the array and its slots. -/
theorem added_of_ok {h t : CHeap} {p v : Nat} (hroom : HasRoom h p)
    (hp : ∃ q count capacity ps, h.cell p = some (.arg (.cArray (some q) count capacity)) ∧
      h.cell q = some (.items ps))
    (hok : jsargAddValueToCArray (some p) (some v) h = .ok () t) :
    ∃ q count capacity ps, Added h t p q v count capacity ps := by
  obtain ⟨q, count, capacity, ps, hp, hq⟩ := hp
  have hcount : count < capacity := by
    obtain ⟨items, count', capacity', hp', hlt⟩ := hroom
    rw [hp] at hp'
    obtain ⟨-, rfl, rfl⟩ : some q = items ∧ count = count' ∧ capacity = capacity' := by
      simpa using hp'
    exact hlt
  have hpq : p ≠ q := by
    rintro rfl
    rw [hp] at hq
    exact absurd hq (by simp)
  by_cases hps : count < ps.length
  · have hrun : t = (h.update q fun _ => .items (ps.set count (some v))).update p fun _ =>
        .arg (.cArray (some q) (count + 1) capacity) := by
      refine wp_of_ok (Q := fun _ u => u = _) (X := fun _ _ => False) ?_ hok
      rw [wp_jsargAddValueToCArray hp hq hcount hps]
    subst hrun
    refine ⟨q, count, capacity, ps, hp, hq, hps, ?_, ?_, fun x hxp hxq => ?_⟩
    · rw [Store.update_cell_self, Store.update_cell_of_ne _ _ _ hpq, hp]
      rfl
    · rw [Store.update_cell_of_ne _ _ _ (Ne.symm hpq), Store.update_cell_self, hq]
      rfl
    · rw [Store.update_cell_of_ne _ _ _ hxp, Store.update_cell_of_ne _ _ _ hxq]
  · -- there are no such slots: the write does not come back
    have hstop : wp (jsargAddValueToCArray (some p) (some v)) h (fun _ _ => False)
        (fun _ _ => True) := by
      rw [jsargAddValueToCArray, wp_bind, wp_derefArg hp]
      simp only [if_neg (Nat.not_le_of_lt hcount), wp_bind, setItem]
      rw [wp_readBlock CBlock.items? hq rfl, if_neg hps]
      trivial
    exact (wp_of_ok hstop hok).elim

/-- An array of a tree has slots. -/
theorem exists_slots {h : CHeap} {p : Nat} (hL : L.On h) (hp : p ∈ L.arrays) :
    ∃ q count capacity ps, h.cell p = some (.arg (.cArray (some q) count capacity)) ∧
      h.cell q = some (.items ps) := by
  induction L using Layout.induct with
  | plain a => exact nomatch hp
  | data a b => exact nomatch hp
  | exception a b c => exact nomatch hp
  | array a b items ih =>
    obtain ⟨capacity, ps, ha, hb, -, hitems⟩ := hL
    rw [onItems_iff] at hitems
    rw [arrays] at hp
    rcases List.mem_cons.mp hp with rfl | hp
    · exact ⟨b, items.length, capacity, ps, ha, hb⟩
    · obtain ⟨K, hK, hp⟩ := mem_arraysItems.mp hp
      exact ih K hK (hitems K hK) hp

/-- A constructor: its tree lies in blocks that were not there before. -/
theorem WellBuilt.make (hs : WellBuilt s) {c : Make} {p : Nat} {u : CHeap}
    (hok : c.run s.heap = .ok (some p) u) :
    WellBuilt ⟨u, s.trees ++ [c.layout p]⟩ ∧ blocksItems (s.trees ++ [c.layout p]) =
      blocksItems s.trees ++ List.range' s.heap.next (u.next - s.heap.next) := by
  obtain ⟨hp, -, hon, hblocks, hgrows⟩ := wp_of_ok (c.allocates s.heap) hok
  obtain rfl := Option.some.inj hp
  have happend : blocksItems (s.trees ++ [c.layout s.heap.next]) = blocksItems s.trees ++
      List.range' s.heap.next (u.next - s.heap.next) := by
    rw [blocksItems_append, blocksItems, blocksItems, List.append_nil, hblocks]
  refine ⟨⟨?_, ?_⟩, happend⟩
  · intro L hL
    rcases List.mem_append.mp hL with hL | hL
    · refine (hs.on L hL).congr fun x hx => hgrows.cell x ?_ id
      exact hs.lt x (mem_blocksItems.mpr ⟨L, hL, hx⟩)
    · rw [List.mem_singleton.mp hL]
      exact hon
  · show (blocksItems (s.trees ++ [c.layout s.heap.next])).Nodup
    rw [happend, List.nodup_append]
    refine ⟨hs.nodup, List.nodup_range', ?_⟩
    rintro x hx y hy rfl
    have hlt := hs.lt x hx
    have hle := (List.mem_range'_1.mp hy).1
    omega

/-- A call that adds: the two trees are one, of the same blocks. -/
theorem WellBuilt.add (hs : WellBuilt s) {p : Nat} {u : CHeap} {L M : Layout}
    {rest : List Layout} (htrees : s.trees.Perm (L :: M :: rest)) (harg : p ∈ L.arrays)
    (hroom : HasRoom s.heap p)
    (hok : jsargAddValueToCArray (some p) (some M.root) s.heap = .ok () u) :
    WellBuilt ⟨u, attach p M L :: rest⟩ ∧
      (blocksItems (attach p M L :: rest)).Perm (blocksItems s.trees) := by
  have hperm := blocksItems_perm htrees
  rw [blocksItems, blocksItems, ← List.append_assoc] at hperm
  obtain ⟨hLM, hrest, hdisj⟩ := List.nodup_append.mp (hperm.nodup_iff.mp hs.nodup)
  obtain ⟨hLn, -, hLMd⟩ := List.nodup_append.mp hLM
  have hon : ∀ K ∈ L :: M :: rest, K.On s.heap := fun K hK => hs.on K (htrees.mem_iff.mpr hK)
  have hL := hon L (List.mem_cons_self ..)
  have hM := hon M (List.mem_cons_of_mem _ (List.mem_cons_self ..))
  obtain ⟨q, count, capacity, ps, hadd⟩ := added_of_ok hroom (exists_slots hL harg) hok
  have hpL := L.arrays_subset p harg
  have hqL := slots_mem hL hadd.arg harg
  have hjoined : (blocksItems (attach p M L :: rest)).Perm (blocksItems s.trees) := by
    rw [blocksItems]
    exact ((blocks_attach hLn harg).append_right _).trans hperm.symm
  refine ⟨⟨?_, hjoined.nodup_iff.mpr hs.nodup⟩, hjoined⟩
  intro K hK
  rcases List.mem_cons.mp hK with rfl | hK
  · exact hadd.on_attach hL hLn harg hM fun x hx hxL => hLMd x hxL x hx rfl
  · -- the other trees have neither block
    have hsub := (blocks_sublist_items hK).subset
    refine hadd.stay (hon K (List.mem_cons_of_mem _ (List.mem_cons_of_mem _ hK))) ?_ ?_
    · exact fun h => hdisj p (List.mem_append_left _ hpL) p (hsub h) rfl
    · exact fun h => hdisj q (List.mem_append_left _ hqL) q (hsub h) rfl

/-- One step keeps the trees apart, and adds what it allocates to their blocks. -/
theorem step_wellBuilt (hstep : step s call t) (hs : WellBuilt s) :
    WellBuilt t ∧ (blocksItems t.trees).Perm (blocksItems s.trees ++ call.allocated) := by
  cases hstep with
  | make hok =>
    obtain ⟨hbuilt, happend⟩ := hs.make hok
    exact ⟨hbuilt, .of_eq happend⟩
  | add htrees harg hroom hok =>
    rw [Call.allocated, List.append_nil]
    exact hs.add htrees harg hroom hok
  | @other u hsame =>
    rw [Call.allocated, List.append_nil]
    refine ⟨⟨fun L hL => ?_, hs.nodup⟩, .refl _⟩
    refine (hs.on L hL).congr fun x hx => hsame x ?_
    exact mem_blocksItems.mpr ⟨L, hL, hx⟩

theorem run_wellBuilt (hrun : Run step s calls t) (hs : WellBuilt s) :
    WellBuilt t ∧ (blocksItems t.trees).Perm (blocksItems s.trees ++ calls.flatMap Call.allocated) := by
  induction hrun with
  | nil s =>
    rw [List.flatMap_nil, List.append_nil]
    exact ⟨hs, .refl _⟩
  | cons hstep _ ih =>
    obtain ⟨hs', hperm⟩ := step_wellBuilt hstep hs
    obtain ⟨ht, hperm'⟩ := ih hs'
    refine ⟨ht, hperm'.trans ?_⟩
    rw [List.flatMap_cons, ← List.append_assoc]
    exact hperm.append_right _

/-- What a program has built that began without trees. -/
theorem wellBuilt_of_run {h : CHeap} (hrun : Run step ⟨h, []⟩ calls t) : WellBuilt t :=
  (run_wellBuilt hrun (wellBuilt_nil h)).1

end

end Building

/-! ## What is freed of a tree -/

/-- `jsarg_free` on the root gives back every block of the tree, and nothing else. -/
def FreesWhole (s : CHeap) (L : Layout) : Prop :=
  ∀ n, L.blocks.length ≤ n → jsargFree n (some L.root) s = .ok () (s.without L.blocks)

/-- It does exactly when there is no exception in it. -/
theorem freesWhole_iff {s : CHeap} {L : Layout} (hL : L.On s) (hnodup : L.blocks.Nodup) :
    FreesWhole s L ↔ L.NoException := by
  have hfrees : ∀ n, L.blocks.length ≤ n →
      jsargFree n (some L.root) s = .ok () (s.without L.freed) := by
    intro n hn
    refine ok_of_wp (wp_mono (frees_jsargFree L n hn s hL hnodup) ?_ (fun _ _ h => h))
    intro _ t ht
    exact ⟨rfl, ht⟩
  constructor
  · intro h
    have heq : s.without L.freed = s.without L.blocks := by
      have hn := hfrees _ (Nat.le_refl _)
      rw [h _ (Nat.le_refl _)] at hn
      injection hn with _ heq
      exact heq.symm
    refine noException_of_freed ?_ ?_ L (List.mem_singleton_self L)
    · rw [blocksItems, blocksItems, List.append_nil]
      exact hnodup
    · intro x hx
      rw [blocksItems, blocksItems, List.append_nil] at hx
      rw [freedItems, freedItems, List.append_nil]
      by_cases hfreed : x ∈ L.freed
      · exact hfreed
      · -- a block that stays has been given back by the other program
        have hcell := congrArg (fun u : CHeap => u.cell x) heq
        simp only [s.without_cell_of_not_mem hfreed, s.without_cell_of_mem hx] at hcell
        have hlive := hL.live x hx
        rw [hcell] at hlive
        exact absurd hlive (by simp)
  · intro h n hn
    rw [hfrees n hn, L.freed_eq_iff.mpr h]

/-- One of the trees built. -/
theorem Building.WellBuilt.freesWhole_iff {s : Building} {L : Layout} (hs : s.WellBuilt)
    (hL : L ∈ s.trees) : FreesWhole s.heap L ↔ L.NoException :=
  Ejr.freesWhole_iff (hs.on L hL) (hs.nodup.sublist (blocks_sublist_items hL))

/-- **`jsarg_free` of a built tree**: in every program that builds trees, their
blocks are what the constructors allocated for them, and exactly the trees without
an exception are freed whole. -/
theorem built_freesWhole_iff {h : CHeap} {calls : List Building.Call} {t : Building}
    (hrun : Run Building.step ⟨h, []⟩ calls t) :
    (blocksItems t.trees).Perm (calls.flatMap Building.Call.allocated) ∧
      ∀ L ∈ t.trees, FreesWhole t.heap L ↔ L.NoException := by
  obtain ⟨hbuilt, hperm⟩ := Building.run_wellBuilt hrun (Building.wellBuilt_nil h)
  exact ⟨hperm, fun L hL => hbuilt.freesWhole_iff hL⟩

/-- The program `jsarg_int(5)`. -/
theorem built_freesWhole_iff_five :
    (blocksItems [.plain 0]).Perm
        ([Building.Call.make (.int 5) [0]].flatMap Building.Call.allocated) ∧
      ∀ L ∈ [Layout.plain 0],
        FreesWhole ((Store.empty : CHeap).alloc (.arg (.int 5))) L ↔ L.NoException :=
  built_freesWhole_iff (h := Store.empty)
    (t := ⟨(Store.empty : CHeap).alloc (.arg (.int 5)), [.plain 0]⟩)
    (.cons (.make (s := ⟨Store.empty, []⟩) (c := .int 5) (p := 0) rfl) (.nil _))

/-- `jsarg_free(jsarg_exception("", ""))` leaves the two texts behind. -/
theorem built_freesWhole_fails : ¬∀ (h : CHeap) (calls : List Building.Call) (t : Building),
    Run Building.step ⟨h, []⟩ calls t → ∀ L ∈ t.trees, FreesWhole t.heap L := by
  intro hall
  obtain ⟨r, u, hok, hr, -⟩ := exists_ok_of_wp
    (p := (Make.exception [] []).run) (s := Store.empty)
    (Q := fun r _ => r = some 0 ∧ True) (wp_jsargException.mpr ⟨rfl, trivial⟩)
  subst hr
  have hrun : Run Building.step ⟨Store.empty, []⟩ _ ⟨u, [.exception 0 1 2]⟩ :=
    .cons (.make (s := ⟨Store.empty, []⟩) hok) (.nil _)
  have hmem : Layout.exception 0 1 2 ∈ [Layout.exception 0 1 2] := List.mem_singleton_self _
  exact ((Building.wellBuilt_of_run hrun).freesWhole_iff hmem).mp (hall _ _ _ hrun _ hmem)

end Ejr
