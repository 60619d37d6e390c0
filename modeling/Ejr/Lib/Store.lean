import Ejr.Lib.Wp

/-!
# A store of allocated cells

Memory as a map from addresses to cells, with the address of the next
allocation; that nothing lives from there on is part of the type (`fresh`), so
a new cell is never an old one. `Grows but s t`: `t` has more cells than `s`,
and the old ones, those in `but` aside, are the same; it is what every part of
a program that builds something new keeps (`Grows.trans`), and what is known
about old cells goes along it. `Leaves n s t` says besides how many of the new
cells are left (`Leaves.trans`, `Leaves.without`): the account of a leak.

The programs over a store (`allocate`, `load`, `mutate`, `release`) are
`EStateM` programs that end with an error of the caller's choice when they
meet an address where nothing lives: a program that ends well has released
nothing twice, and what it has left behind is still in the store.
-/

namespace Ejr.Lib

variable {β ε : Type}

/-- Cells by address, and the next address to be handed out. -/
@[ext]
structure Store (β : Type) where
  cell : Nat → Option β
  next : Nat
  fresh : ∀ a, next ≤ a → cell a = none

namespace Store

/-- Nothing allocated yet. -/
def empty : Store β := ⟨fun _ => none, 0, fun _ _ => rfl⟩

/-- A new cell, at `next`. -/
def alloc (s : Store β) (b : β) : Store β where
  cell a := if a = s.next then some b else s.cell a
  next := s.next + 1
  fresh a ha := by
    rw [if_neg (by omega)]
    exact s.fresh a (by omega)

/-- The cell at an address, if there is one, changed. -/
def update (s : Store β) (x : Nat) (f : β → β) : Store β where
  cell a := if a = x then (s.cell a).map f else s.cell a
  next := s.next
  fresh a ha := by
    rw [s.fresh a ha]
    split <;> rfl

section

variable (s : Store β) (b : β) (x : Nat) (f : β → β)

@[simp] theorem alloc_next : (s.alloc b).next = s.next + 1 := rfl
@[simp] theorem update_next : (s.update x f).next = s.next := rfl

theorem alloc_cell (a : Nat) :
    (s.alloc b).cell a = if a = s.next then some b else s.cell a := rfl

theorem update_cell (a : Nat) :
    (s.update x f).cell a = if a = x then (s.cell a).map f else s.cell a := rfl

@[simp] theorem alloc_cell_self : (s.alloc b).cell s.next = some b := if_pos rfl

theorem alloc_cell_of_ne {a : Nat} (h : a ≠ s.next) : (s.alloc b).cell a = s.cell a := if_neg h

@[simp] theorem update_cell_self : (s.update x f).cell x = (s.cell x).map f := if_pos rfl

theorem update_cell_of_ne {a : Nat} (h : a ≠ x) : (s.update x f).cell a = s.cell a := if_neg h

end

/-- A cell that lives was allocated. -/
theorem lt_next {s : Store β} {a : Nat} {b : β} (h : s.cell a = some b) : a < s.next := by
  by_cases hlt : a < s.next
  · exact hlt
  · rw [s.fresh a (Nat.le_of_not_lt hlt)] at h
    exact absurd h (by simp)

/-! ## Growing -/

/-- More cells; the old ones, those in `but` aside, are the same. -/
structure Grows (but : Nat → Prop) (s t : Store β) : Prop where
  next : s.next ≤ t.next
  cell : ∀ a < s.next, ¬but a → t.cell a = s.cell a

variable {but but' : Nat → Prop} {s t u : Store β}

theorem Grows.refl (but : Nat → Prop) (s : Store β) : s.Grows but s :=
  ⟨Nat.le_refl _, fun _ _ _ => rfl⟩

theorem Grows.trans (h : s.Grows but t) (h' : t.Grows but u) : s.Grows but u where
  next := Nat.le_trans h.next h'.next
  cell a ha hbut := by
    rw [h'.cell a (Nat.lt_of_lt_of_le ha h.next) hbut, h.cell a ha hbut]

/-- More cells may be left out of the account. -/
theorem Grows.mono (h : s.Grows but t) (hle : ∀ a < s.next, but a → but' a) : s.Grows but' t :=
  ⟨h.next, fun a ha hbut => h.cell a ha fun hb => hbut (hle a ha hb)⟩

theorem grows_alloc (but : Nat → Prop) (s : Store β) (b : β) : s.Grows but (s.alloc b) :=
  ⟨Nat.le_succ _, fun _ ha _ => s.alloc_cell_of_ne b (Nat.ne_of_lt ha)⟩

theorem grows_update {x : Nat} (hx : but x) (s : Store β) (f : β → β) : s.Grows but (s.update x f) :=
  ⟨Nat.le_refl _, fun _ _ hbut => s.update_cell_of_ne x f fun h => hbut (h ▸ hx)⟩

theorem Grows.alloc (h : s.Grows but t) (b : β) : s.Grows but (t.alloc b) :=
  h.trans (grows_alloc but t b)

theorem Grows.update (h : s.Grows but t) {x : Nat} (hx : but x) (f : β → β) :
    s.Grows but (t.update x f) :=
  h.trans (grows_update hx t f)

/-- Cells that are not old ones may change. -/
theorem Grows.of_new (h : s.Grows (s.next ≤ ·) t) : s.Grows but t :=
  h.mono fun _ ha hle => absurd hle (Nat.not_le_of_lt ha)

/-- A cell outside `but` that lived is still there. -/
theorem Grows.cell_eq (h : s.Grows but t) {a : Nat} {b : β} (ha : s.cell a = some b)
    (hbut : ¬but a) : t.cell a = some b := by
  rw [h.cell a (lt_next ha) hbut, ha]

/-! ## Removing -/

/-- Without the cells at these addresses. -/
def without (s : Store β) (xs : List Nat) : Store β where
  cell a := if a ∈ xs then none else s.cell a
  next := s.next
  fresh a ha := by
    rw [s.fresh a ha]
    split <;> rfl

section

variable (s : Store β) (xs ys : List Nat) {a : Nat}

@[simp] theorem without_next : (s.without xs).next = s.next := rfl

theorem without_cell (a : Nat) : (s.without xs).cell a = if a ∈ xs then none else s.cell a := rfl

variable {xs}

theorem without_cell_of_mem (h : a ∈ xs) : (s.without xs).cell a = none := if_pos h

theorem without_cell_of_not_mem (h : a ∉ xs) : (s.without xs).cell a = s.cell a := if_neg h

@[simp] theorem without_nil : s.without [] = s := by
  refine Store.ext (funext fun a => ?_) rfl
  exact s.without_cell_of_not_mem (by simp)

theorem without_without : (s.without xs).without ys = s.without (xs ++ ys) := by
  refine Store.ext (funext fun a => ?_) rfl
  simp only [without_cell, List.mem_append]
  by_cases hy : a ∈ ys
  · simp [hy]
  · simp [hy]

/-- Only which addresses they are matters. -/
theorem without_congr (h : ∀ a, a ∈ xs ↔ a ∈ ys) : s.without xs = s.without ys := by
  refine Store.ext (funext fun a => ?_) rfl
  simp only [without_cell, h a]

end

/-! ## What is left -/

/-- How many cells at these addresses live. -/
def liveAt (t : Store β) (xs : List Nat) : Nat := xs.countP fun x => (t.cell x).isSome

/-- From `s` to `t` cells have come, and `n` of them are left; the old ones are
the same. -/
structure Leaves (n : Nat) (s t : Store β) : Prop where
  grows : s.Grows (fun _ => False) t
  left : t.liveAt (List.range' s.next (t.next - s.next)) = n

theorem liveAt_congr {xs : List Nat} (h : ∀ x ∈ xs, t.cell x = s.cell x) :
    t.liveAt xs = s.liveAt xs :=
  List.countP_congr fun x hx => by rw [h x hx]

theorem Leaves.refl (s : Store β) : s.Leaves 0 s :=
  ⟨Grows.refl _ s, by rw [Nat.sub_self]; rfl⟩

theorem Leaves.trans {n m : Nat} (h : s.Leaves n t) (h' : t.Leaves m u) : s.Leaves (n + m) u where
  grows := h.grows.trans h'.grows
  left := by
    have h1 := h.grows.next
    have h2 := h'.grows.next
    have hsplit : List.range' s.next (u.next - s.next) =
        List.range' s.next (t.next - s.next) ++ List.range' t.next (u.next - t.next) := by
      have hrange := @List.range'_append_1 s.next (t.next - s.next) (u.next - t.next)
      rw [show s.next + (t.next - s.next) = t.next by omega,
        show t.next - s.next + (u.next - t.next) = u.next - s.next by omega] at hrange
      exact hrange.symm
    -- the cells of the first part have not changed since
    have hold : u.liveAt (List.range' s.next (t.next - s.next)) = n := by
      rw [← h.left]
      refine liveAt_congr fun x hx => h'.grows.cell x ?_ fun h => h
      have := List.mem_range'_1.mp hx
      omega
    rw [hsplit, ← hold, ← h'.left]
    exact List.countP_append

theorem leaves_alloc (s : Store β) (b : β) : s.Leaves 1 (s.alloc b) where
  grows := grows_alloc _ s b
  left := by
    rw [alloc_next, Nat.add_sub_cancel_left]
    simp [liveAt, List.range']

/-- Without one of the addresses one less lives, if it did. -/
theorem liveAt_without {x : Nat} (hx : (t.cell x).isSome = true) : ∀ {xs : List Nat}, xs.Nodup →
    x ∈ xs → (t.without [x]).liveAt xs + 1 = t.liveAt xs
  | [], _, h => absurd h List.not_mem_nil
  | y :: ys, hnodup, h => by
    obtain ⟨hnot, hys⟩ := List.nodup_cons.mp hnodup
    by_cases hxy : x = y
    · subst hxy
      have hrest : (t.without [x]).liveAt ys = t.liveAt ys := by
        refine liveAt_congr fun z hz => t.without_cell_of_not_mem fun hzx => ?_
        exact hnot (List.mem_singleton.mp hzx ▸ hz)
      have hgone : ((t.without [x]).cell x).isSome = false := by
        rw [t.without_cell_of_mem (List.mem_singleton.mpr rfl)]
        rfl
      simp only [liveAt, List.countP_cons, hgone, hx] at hrest ⊢
      simp [hrest]
    · have ih := liveAt_without hx hys ((List.mem_cons.mp h).resolve_left hxy)
      have hsame : (t.without [x]).cell y = t.cell y :=
        t.without_cell_of_not_mem fun hyx => hxy (List.mem_singleton.mp hyx).symm
      simp only [liveAt, List.countP_cons, hsame] at ih ⊢
      omega

/-- One of the new cells is given back. -/
theorem Leaves.without {n x : Nat} (h : s.Leaves (n + 1) t) (hx : s.next ≤ x)
    (hlive : (t.cell x).isSome = true) : s.Leaves n (t.without [x]) where
  grows := by
    refine ⟨h.grows.next, fun a ha _ => ?_⟩
    rw [t.without_cell_of_not_mem, h.grows.cell a ha fun h => h]
    intro hax
    have := List.mem_singleton.mp hax
    omega
  left := by
    obtain ⟨b, hb⟩ := Option.isSome_iff_exists.mp hlive
    have hlt := lt_next hb
    have hmem : x ∈ List.range' s.next (t.next - s.next) := List.mem_range'_1.mpr (by omega)
    have hcount := liveAt_without hlive List.nodup_range' hmem
    rw [h.left] at hcount
    exact Nat.succ.inj hcount

end Store

/-! ## Programs -/

/-- A new cell; its address. -/
def allocate (b : β) : EStateM ε (Store β) Nat := do
  let s ← get
  set (s.alloc b)
  pure s.next

/-- The cell at an address; `e` where nothing lives. -/
def load (e : ε) (a : Nat) : EStateM ε (Store β) β := do
  let s ← get
  match s.cell a with
  | some b => pure b
  | none => throw e

/-- A cell, changed; `e` where nothing lives. -/
def mutate (e : ε) (a : Nat) (f : β → β) : EStateM ε (Store β) Unit := do
  let _ ← load e a
  modify fun s => s.update a f

/-- A cell, given back; `e` where nothing lives. -/
def release (e : ε) (a : Nat) : EStateM ε (Store β) Unit := do
  let _ ← load e a
  modify fun s => s.without [a]

section

variable {s : Store β} {a : Nat} {b : β} {e : ε} {X : ε → Store β → Prop}

@[simp] theorem wp_allocate {Q : Nat → Store β → Prop} :
    wp (allocate b) s Q X ↔ Q s.next (s.alloc b) := Iff.rfl

theorem wp_load (h : s.cell a = some b) {Q : β → Store β → Prop} :
    wp (load e a) s Q X ↔ Q b s := by
  rw [load, wp_bind, wp_get, h]
  exact Iff.rfl

theorem wp_mutate (h : (s.cell a).isSome = true) {f : β → β} {Q : Unit → Store β → Prop} :
    wp (mutate e a f) s Q X ↔ Q () (s.update a f) := by
  obtain ⟨b, hb⟩ := Option.isSome_iff_exists.mp h
  rw [mutate, wp_bind, wp_load hb]
  exact Iff.rfl

theorem wp_load_none (h : s.cell a = none) {Q : β → Store β → Prop} :
    wp (load e a) s Q X ↔ X e s := by
  rw [load, wp_bind, wp_get, h]
  exact Iff.rfl

theorem wp_release (h : s.cell a = some b) {Q : Unit → Store β → Prop} :
    wp (release e a) s Q X ↔ Q () (s.without [a]) := by
  rw [release, wp_bind, wp_load h]
  exact Iff.rfl

end

end Ejr.Lib
