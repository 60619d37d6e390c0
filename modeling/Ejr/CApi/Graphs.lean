import Ejr.Lib.Releasing
import Ejr.CApi.Free

/-!
# Any graph of C `JSArg`s

`jsarg_add_value_to_c_array` lets a program put a `JSArg` into two arrays, or an
array into itself, and any pointer can be stored in one. `visit` is the list of
blocks that `jsarg_free` comes to on the heap as it is, by following pointers;
`jsargFree_iff` says that it ends, and frees nothing twice and nothing it has no
right to, exactly when there is such a list and no block is in it twice; so does
`jsargFreeAll_iff` of a list of arguments. Trees are such graphs; a value that is
in two arrays, or an array in itself, is not.

Mirroring notes:
- `visit` has the recursion bound of `jsargFree`; a list without repetitions is
  found with one more than the number of addresses given out (`visit_bound`).
-/

namespace Ejr

open Lib Store

/-! ## What is met -/

/-- A block that is given back as it is. -/
def visitBlock (h : CHeap) : Ptr → Option (List Nat)
  | none => some []
  | some a => h.live a

/-- The `n` elements from index `i` on, and then the block of the slots. -/
def visitItems (h : CHeap) (rec : Ptr → Option (List Nat)) (items : Nat) :
    Nat → Nat → Option (List Nat)
  | _, 0 => h.live items
  | i, n + 1 => (h.cell items).bind fun b => (CBlock.items? b).bind fun slots =>
    slots[i]?.bind fun p => andThen (rec p) (visitItems h rec items (i + 1) n)

/-- The members of a `JSArg`. -/
def visitMembers (h : CHeap) (rec : Ptr → Option (List Nat)) : CJSArg → Option (List Nat)
  | .string str => visitBlock h str
  | .cArray (some items) count _ => visitItems h rec items 0 count
  | .typedArray _ items _ => visitBlock h items
  | _ => some []

/-- The blocks that `jsarg_free` comes to. -/
def visit (h : CHeap) : Nat → Ptr → Option (List Nat)
  | 0, _ => none
  | _ + 1, none => some []
  | n + 1, some arg => (h.cell arg).bind fun b => (CBlock.arg? b).bind fun a =>
    andThen (visitMembers h (visit h n) a) (h.live arg)

/-! ## `jsarg_free` meets them -/

section

variable {h : CHeap}

theorem releases_delete (p : Ptr) : Releases h (visitBlock h p) (delete p) := by
  cases p with
  | none => exact releases_pure
  | some a => exact releases_release a

theorem mem_of_live {a : Nat} {xs : List Nat} (hxs : h.live a = some xs) : a ∈ xs := by
  unfold live at hxs
  split at hxs
  next => exact Option.some.inj hxs ▸ List.mem_singleton_self a
  next => exact absurd hxs (by simp)

theorem mem_of_andThen {spec spec' : Option (List Nat)} {a : Nat} {xs : List Nat}
    (hmem : ∀ ys, spec' = some ys → a ∈ ys) (hxs : andThen spec spec' = some xs) : a ∈ xs := by
  obtain ⟨ys, -, hys⟩ := Option.bind_eq_some_iff.mp hxs
  obtain ⟨zs, hzs, rfl⟩ := Option.map_eq_some_iff.mp hys
  exact List.mem_append_right _ (hmem zs hzs)

/-- A pointer that is followed to a block which is freed later. -/
theorem releases_readBlock {α : Type} {a : Nat} {f : CBlock → Option α}
    {spec : α → Option (List Nat)} {k : α → CM Unit}
    (hk : ∀ x, Releases h (spec x) (k x)) (hmem : ∀ x xs, spec x = some xs → a ∈ xs) :
    Releases h ((h.cell a).bind fun b => (f b).bind spec) (readBlock (some a) f >>= k) := by
  rw [readBlock, bind_assoc]
  refine releases_load (fun b _ => ?_) fun b xs _ hxs => ?_
  · cases f b with
    | none => exact releases_throw
    | some x => exact hk x
  · obtain ⟨x, -, hx⟩ := Option.bind_eq_some_iff.mp hxs
    exact hmem x xs hx

theorem mem_of_visitItems {rec : Ptr → Option (List Nat)} {items : Nat} : ∀ (n i : Nat) {xs : List Nat},
    visitItems h rec items i n = some xs → items ∈ xs
  | 0, _, _, hxs => mem_of_live hxs
  | n + 1, i, _, hxs => by
    obtain ⟨b, -, hxs⟩ := Option.bind_eq_some_iff.mp hxs
    obtain ⟨slots, -, hxs⟩ := Option.bind_eq_some_iff.mp hxs
    obtain ⟨p, -, hxs⟩ := Option.bind_eq_some_iff.mp hxs
    exact mem_of_andThen (fun _ => mem_of_visitItems n (i + 1)) hxs

/-- The loop over the elements, with the block of the slots. -/
theorem releases_items {rec : Ptr → CM Unit} {recVisit : Ptr → Option (List Nat)}
    (hrec : ∀ p, Releases h (recVisit p) (rec p)) (items : Nat) : ∀ n i : Nat,
    Releases h (visitItems h recVisit items i n)
      (jsargFreeItems rec items i n >>= fun _ => delete (some items))
  | 0, _ => releases_release items
  | n + 1, i => by
    rw [jsargFreeItems, getItem, bind_assoc, bind_assoc]
    refine releases_readBlock (fun slots => ?_) fun slots xs hxs => ?_
    · cases slots[i]? with
      | none => exact releases_throw
      | some p =>
        simp only [pure_bind, bind_assoc, Option.bind_some]
        exact (hrec p).andThen (releases_items hrec items n (i + 1))
    · obtain ⟨p, -, hxs⟩ := Option.bind_eq_some_iff.mp hxs
      exact mem_of_andThen (fun _ => mem_of_visitItems n (i + 1)) hxs

theorem releases_members {rec : Ptr → CM Unit} {recVisit : Ptr → Option (List Nat)}
    (hrec : ∀ p, Releases h (recVisit p) (rec p)) (a : CJSArg) :
    Releases h (visitMembers h recVisit a) (freeMembers rec a) := by
  cases a with
  | string str => exact releases_delete str
  | cArray items count capacity =>
    cases items with
    | none => exact releases_pure
    | some items => exact releases_items hrec items count 0
  | typedArray t items count => exact releases_delete items
  | _ => exact releases_pure

theorem releases_jsargFree : ∀ (n : Nat) (p : Ptr), Releases h (visit h n p) (jsargFree n p)
  | 0, _ => releases_throw
  | _ + 1, none => releases_pure
  | n + 1, some arg =>
    releases_readBlock
      (fun a => (releases_members (releases_jsargFree n) a).andThen (releases_release arg))
      fun _ _ hxs => mem_of_andThen (fun _ => mem_of_live) hxs

/-! ## How deep that is -/

/-- What is met lives. -/
def Lives (h : CHeap) (spec : Option (List Nat)) : Prop :=
  ∀ xs, spec = some xs → ∀ x ∈ xs, (h.cell x).isSome = true

theorem lives_live (a : Nat) : Lives h (h.live a) := by
  intro xs hxs x hx
  unfold live at hxs
  split at hxs
  next hlive =>
    obtain rfl := Option.some.inj hxs
    rwa [List.mem_singleton.mp hx]
  next => exact absurd hxs (by simp)

theorem lives_nil : Lives h (some []) := by
  intro xs hxs x hx
  obtain rfl := Option.some.inj hxs
  exact absurd hx List.not_mem_nil

theorem Lives.andThen {spec spec' : Option (List Nat)} (hs : Lives h spec) (hs' : Lives h spec') :
    Lives h (andThen spec spec') := by
  intro zs hzs x hx
  obtain ⟨xs, hxs, hzs⟩ := Option.bind_eq_some_iff.mp hzs
  obtain ⟨ys, hys, rfl⟩ := Option.map_eq_some_iff.mp hzs
  rcases List.mem_append.mp hx with hx | hx
  · exact hs xs hxs x hx
  · exact hs' ys hys x hx

theorem Lives.bind {α : Type} {o : Option α} {spec : α → Option (List Nat)}
    (hs : ∀ a, Lives h (spec a)) : Lives h (o.bind spec) := by
  intro xs hxs
  obtain ⟨a, -, hxs⟩ := Option.bind_eq_some_iff.mp hxs
  exact hs a xs hxs

theorem lives_block (p : Ptr) : Lives h (visitBlock h p) := by
  cases p with
  | none => exact lives_nil
  | some a => exact lives_live a

theorem lives_items {rec : Ptr → Option (List Nat)} (hrec : ∀ p, Lives h (rec p)) (items : Nat) :
    ∀ n i : Nat, Lives h (visitItems h rec items i n)
  | 0, _ => lives_live items
  | n + 1, i => .bind fun _ => .bind fun _ => .bind fun p =>
    (hrec p).andThen (lives_items hrec items n (i + 1))

theorem lives_visit : ∀ (n : Nat) (p : Ptr), Lives h (visit h n p)
  | 0, _ => fun _ hxs => absurd hxs (by simp [visit])
  | _ + 1, none => lives_nil
  | n + 1, some arg => .bind fun _ => .bind fun a => by
    refine Lives.andThen ?_ (lives_live arg)
    cases a with
    | string str => exact lives_block str
    | cArray items count capacity =>
      cases items with
      | none => exact lives_nil
      | some items => exact lives_items (lives_visit n) items count 0
    | typedArray t items count => exact lives_block items
    | _ => exact lives_nil

/-- A bound that is more than what is met is enough. -/
theorem visitItems_bound {rec rec' : Ptr → Option (List Nat)} {m : Nat}
    (hrec : ∀ p xs, rec p = some xs → xs.length < m → rec' p = some xs) (items : Nat) :
    ∀ (n i : Nat) (ys : List Nat), visitItems h rec items i n = some ys → ys.length < m →
      visitItems h rec' items i n = some ys
  | 0, _, _, hys, _ => hys
  | n + 1, i, ys, hys, hlt => by
    obtain ⟨b, hb, hys⟩ := Option.bind_eq_some_iff.mp hys
    obtain ⟨slots, hslots, hys⟩ := Option.bind_eq_some_iff.mp hys
    obtain ⟨p, hp, hys⟩ := Option.bind_eq_some_iff.mp hys
    obtain ⟨xs, hxs, hys⟩ := Option.bind_eq_some_iff.mp hys
    obtain ⟨zs, hzs, rfl⟩ := Option.map_eq_some_iff.mp hys
    rw [List.length_append] at hlt
    have hfirst := hrec p xs hxs (by omega)
    have hrest := visitItems_bound hrec items n (i + 1) zs hzs (by omega)
    rw [visitItems, hb, Option.bind_some, hslots, Option.bind_some, hp, Option.bind_some, hfirst,
      hrest]
    rfl

theorem visit_bound : ∀ (n : Nat) (p : Ptr) (xs : List Nat), visit h n p = some xs →
    ∀ m, xs.length < m → visit h m p = some xs
  | 0, _, _, hxs, _, _ => absurd hxs (by simp [visit])
  | n + 1, p, xs, hxs, m, hlt => by
    obtain ⟨m, rfl⟩ : ∃ k, m = k + 1 := ⟨m - 1, by omega⟩
    cases p with
    | none => exact hxs
    | some arg =>
      obtain ⟨b, hb, hxs⟩ := Option.bind_eq_some_iff.mp hxs
      obtain ⟨a, ha, hxs⟩ := Option.bind_eq_some_iff.mp hxs
      obtain ⟨ys, hys, hxs⟩ := Option.bind_eq_some_iff.mp hxs
      obtain ⟨zs, hzs, rfl⟩ := Option.map_eq_some_iff.mp hxs
      have hpos : 0 < zs.length := List.length_pos_of_mem (mem_of_live hzs)
      rw [List.length_append] at hlt
      have hmembers : visitMembers h (visit h m) a = some ys := by
        cases a with
        | cArray items count capacity =>
          cases items with
          | none => exact hys
          | some items =>
            exact visitItems_bound (fun p xs hp hlen => visit_bound n p xs hp m hlen) items count 0
              ys hys (by omega)
        | _ => exact hys
      rw [visit, hb, Option.bind_some, ha, Option.bind_some, hmembers, hzs]
      rfl

/-- Blocks that live and do not come twice are no more than have been given out. -/
theorem length_le_next {xs : List Nat} (hlive : ∀ x ∈ xs, (h.cell x).isSome = true)
    (hnodup : xs.Nodup) : xs.length ≤ h.next := by
  have hsub : xs ⊆ List.range h.next := by
    intro x hx
    obtain ⟨b, hb⟩ := Option.isSome_iff_exists.mp (hlive x hx)
    exact List.mem_range.mpr (lt_next hb)
  simpa using (hnodup.subperm hsub).length_le

end

/-- **`jsarg_free` ends well exactly when it comes to no block twice**, whatever
graph the pointer leads into, and then it has given back the blocks it came to. -/
theorem jsargFree_iff (h t : CHeap) (p : Ptr) : (∃ n, jsargFree n p h = .ok () t) ↔
    ∃ xs, visit h (h.next + 1) p = some xs ∧ xs.Nodup ∧ t = h.without xs := by
  constructor
  · intro hrun
    obtain ⟨n, hn⟩ := hrun
    obtain ⟨xs, hxs, hnodup, ht⟩ := ((releases_jsargFree n p).run_iff t).mp hn
    have hlen := length_le_next (lives_visit n p xs hxs) hnodup
    exact ⟨xs, visit_bound n p xs hxs _ (Nat.lt_succ_of_le hlen), hnodup, ht⟩
  · intro hxs
    exact ⟨h.next + 1, ((releases_jsargFree _ p).run_iff t).mpr hxs⟩

/-- The blocks of a value in a list; NULL is skipped. -/
def visitUnlessNull (h : CHeap) (n : Nat) : Ptr → Option (List Nat)
  | none => some []
  | some arg => visit h n (some arg)

/-- The blocks that `jsarg_free_all` comes to. -/
def visitAll (h : CHeap) (n : Nat) : Ptr → Nat → Option (List Nat)
  | none, _ => some []
  | some args, argc => visitItems h (visitUnlessNull h n) args 0 argc

section

variable {h : CHeap}

theorem releases_freeUnlessNull (n : Nat) :
    ∀ p, Releases h (visitUnlessNull h n p) (freeUnlessNull n p)
  | none => releases_pure
  | some arg => releases_jsargFree n (some arg)

theorem releases_jsargFreeAll (n : Nat) (args : Ptr) (argc : Nat) :
    Releases h (visitAll h n args argc) (jsargFreeAll n args argc) := by
  cases args with
  | none => exact releases_pure
  | some args => exact releases_items (releases_freeUnlessNull n) args argc 0

theorem visitAll_bound {n argc : Nat} {args : Ptr} {xs : List Nat}
    (hxs : visitAll h n args argc = some xs) {m : Nat} (hm : xs.length < m) :
    visitAll h m args argc = some xs := by
  cases args with
  | none => exact hxs
  | some args =>
    refine visitItems_bound (fun p ys hp hlen => ?_) args argc 0 xs hxs hm
    cases p with
    | none => exact hp
    | some arg => exact visit_bound n _ ys hp m hlen

theorem lives_visitAll (n : Nat) (args : Ptr) (argc : Nat) : Lives h (visitAll h n args argc) := by
  have hvalue : ∀ p, Lives h (visitUnlessNull h n p) := fun p => by
    cases p with
    | none => exact lives_nil
    | some arg => exact lives_visit n (some arg)
  cases args with
  | none => exact lives_nil
  | some args => exact lives_items hvalue args argc 0

end

/-- **The same for a list of arguments**: no value may be in it twice, or be
inside another. -/
theorem jsargFreeAll_iff (h t : CHeap) (args : Ptr) (argc : Nat) :
    (∃ n, jsargFreeAll n args argc h = .ok () t) ↔
      ∃ xs, visitAll h (h.next + 1) args argc = some xs ∧ xs.Nodup ∧ t = h.without xs := by
  constructor
  · intro hrun
    obtain ⟨n, hn⟩ := hrun
    obtain ⟨xs, hxs, hnodup, ht⟩ := ((releases_jsargFreeAll n args argc).run_iff t).mp hn
    have hlen := length_le_next (lives_visitAll n args argc xs hxs) hnodup
    exact ⟨xs, visitAll_bound hxs (Nat.lt_succ_of_le hlen), hnodup, ht⟩
  · intro hxs
    exact ⟨h.next + 1, ((releases_jsargFreeAll _ args argc).run_iff t).mpr hxs⟩

/-- The same value twice in one array, and an array in itself. -/
def sharedValue : CHeap :=
  ((Store.empty.alloc (.arg (.int 5))).alloc (.items [some 0, some 0])).alloc
    (.arg (.cArray (some 1) 2 2))

def selfArray : CHeap :=
  (Store.empty.alloc (.items [some 1])).alloc (.arg (.cArray (some 0) 1 1))

example : visit sharedValue 4 (some 2) = some [0, 0, 1, 2] := by decide

example : visit selfArray 3 (some 1) = none := by decide

end Ejr
