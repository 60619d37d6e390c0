import Mathlib.Logic.Function.Basic
import Mathlib.Data.List.Nodup

/-!
# Holders of resources

Each of some holders has one resource or none. It is given one (`give`), what it
has goes to another (`move`), or it lets go of it (`drop`), which `released`
records. `Accounted` is the linear discipline: what was given out is with one
holder or has been released once, never both; each operation keeps it.
-/

namespace Ejr.Lib

/-- What each holder has, and what has been released, in order. -/
@[ext]
structure Holders (ν ρ : Type) where
  held : ν → Option ρ
  released : List ρ

namespace Holders

variable {ν ρ : Type}

/-- Nothing given out. -/
def empty : Holders ν ρ := ⟨fun _ => none, []⟩

/-- What was given out is with one holder, or has been released once. -/
structure Accounted (given : List ρ) (s : Holders ν ρ) : Prop where
  distinct : given.Nodup
  inj : ∀ x y r, s.held x = some r → s.held y = some r → x = y
  once : s.released.Nodup
  disjoint : ∀ x r, s.held x = some r → r ∉ s.released
  all : ∀ r, r ∈ given ↔ r ∈ s.released ∨ ∃ x, s.held x = some r

theorem accounted_empty : Accounted ([] : List ρ) (empty : Holders ν ρ) where
  distinct := List.nodup_nil
  inj _ _ _ h := absurd h (by simp [empty])
  once := List.nodup_nil
  disjoint _ _ h := absurd h (by simp [empty])
  all r := by simp [empty]

/-- When nobody holds anything any more, all has been released once. -/
theorem Accounted.perm {given : List ρ} {s : Holders ν ρ} (hs : Accounted given s)
    (hnone : ∀ x, s.held x = none) : s.released.Perm given := by
  rw [List.perm_ext_iff_of_nodup hs.once hs.distinct]
  intro r
  rw [hs.all r]
  constructor
  · exact .inl
  · intro h
    rcases h with h | ⟨x, h⟩
    · exact h
    · rw [hnone x] at h
      exact absurd h (by simp)

variable [DecidableEq ν]

/-- A resource for `x`. -/
def give (s : Holders ν ρ) (x : ν) (r : Option ρ) : Holders ν ρ :=
  { s with held := Function.update s.held x r }

/-- What `y` has goes to `x`. -/
def move (s : Holders ν ρ) (x y : ν) : Holders ν ρ :=
  { s with held := Function.update (Function.update s.held x (s.held y)) y none }

/-- `x` lets go of what it has. -/
def drop (s : Holders ν ρ) (x : ν) : Holders ν ρ where
  held := Function.update s.held x none
  released := s.released ++ (s.held x).toList

section

variable {s : Holders ν ρ} {x y z : ν} {r : Option ρ} {given : List ρ}

theorem give_held : (s.give x r).held z = if z = x then r else s.held z := by
  show Function.update s.held x r z = _
  by_cases h : z = x
  · rw [if_pos h, h, Function.update_self]
  · rw [if_neg h, Function.update_of_ne h]

theorem move_held :
    (s.move x y).held z = if z = y then none else if z = x then s.held y else s.held z := by
  show Function.update (Function.update s.held x (s.held y)) y none z = _
  by_cases hy : z = y
  · rw [if_pos hy, hy, Function.update_self]
  · rw [if_neg hy, Function.update_of_ne hy]
    by_cases hx : z = x
    · rw [if_pos hx, hx, Function.update_self]
    · rw [if_neg hx, Function.update_of_ne hx]

theorem drop_held : (s.drop x).held z = if z = x then none else s.held z := by
  show Function.update s.held x none z = _
  by_cases h : z = x
  · rw [if_pos h, h, Function.update_self]
  · rw [if_neg h, Function.update_of_ne h]

/-- Who has what afterwards: `x` the new resource, the others what they had. -/
theorem held_give (hx : s.held x = none) {q : ρ} :
    (s.give x r).held z = some q ↔ (z = x ∧ r = some q) ∨ s.held z = some q := by
  rw [give_held]
  by_cases h : z = x
  · rw [if_pos h, h, hx]
    simp
  · rw [if_neg h]
    simp [h]

/-- A new resource, for someone with empty hands. -/
theorem Accounted.give (hs : Accounted given s) (hx : s.held x = none)
    (hr : (given ++ r.toList).Nodup) : Accounted (given ++ r.toList) (s.give x r) := by
  obtain ⟨-, -, hnew⟩ := List.nodup_append.mp hr
  have hfresh : ∀ q, r = some q → q ∉ given := by
    rintro q rfl hq
    exact hnew q hq q (by simp) rfl
  refine ⟨hr, ?_, hs.once, ?_, ?_⟩
  · intro z w q hz hw
    rcases (held_give hx).mp hz with ⟨hzx, h1⟩ | h1
    · rcases (held_give hx).mp hw with ⟨hwx, -⟩ | h2
      · rw [hzx, hwx]
      · exact absurd ((hs.all q).mpr (.inr ⟨w, h2⟩)) (hfresh q h1)
    · rcases (held_give hx).mp hw with ⟨-, h2⟩ | h2
      · exact absurd ((hs.all q).mpr (.inr ⟨z, h1⟩)) (hfresh q h2)
      · exact hs.inj z w q h1 h2
  · intro z q hz hq
    rcases (held_give hx).mp hz with ⟨-, h⟩ | h
    · exact hfresh q h ((hs.all q).mpr (.inl hq))
    · exact hs.disjoint z q h hq
  · intro q
    rw [List.mem_append, hs.all q, Option.mem_toList]
    constructor
    · intro h
      rcases h with (h | ⟨z, hz⟩) | h
      · exact .inl h
      · exact .inr ⟨z, (held_give hx).mpr (.inr hz)⟩
      · exact .inr ⟨x, (held_give hx).mpr (.inl ⟨rfl, h⟩)⟩
    · intro h
      rcases h with h | ⟨z, hz⟩
      · exact .inl (.inl h)
      · rcases (held_give hx).mp hz with ⟨-, h⟩ | h
        · exact .inr h
        · exact .inl (.inr ⟨z, h⟩)

/-- Who has what after a move: `x` what `y` had, the others what they had. -/
theorem held_move (hx : s.held x = none) {q : ρ} : (s.move x y).held z = some q ↔
    (z = x ∧ x ≠ y ∧ s.held y = some q) ∨ (z ≠ y ∧ s.held z = some q) := by
  rw [move_held]
  by_cases hzy : z = y
  · rw [if_pos hzy]
    constructor
    · intro h
      exact absurd h (by simp)
    · intro h
      rcases h with ⟨hzx, hne, -⟩ | ⟨hne, -⟩
      · exact absurd (hzx.symm.trans hzy) hne
      · exact absurd hzy hne
  · rw [if_neg hzy]
    by_cases hzx : z = x
    · rw [if_pos hzx]
      constructor
      · intro h
        exact .inl ⟨hzx, fun hxy => hzy (hzx.trans hxy), h⟩
      · intro h
        rcases h with ⟨-, -, h⟩ | ⟨-, h⟩
        · exact h
        · rw [hzx, hx] at h
          exact absurd h (by simp)
    · rw [if_neg hzx]
      constructor
      · intro h
        exact .inr ⟨hzy, h⟩
      · intro h
        rcases h with ⟨h, -⟩ | ⟨-, h⟩
        · exact absurd h hzx
        · exact h

/-- Nothing is lost, and nothing doubled, when it goes to someone with empty
hands. -/
theorem Accounted.move (hs : Accounted given s) (hx : s.held x = none) (hne : x ≠ y) :
    Accounted given (s.move x y) := by
  -- whoever has it now, someone had it before
  have hback : ∀ z q, (s.move x y).held z = some q → ∃ w, s.held w = some q := by
    intro z q hz
    rcases (held_move hx).mp hz with ⟨-, -, h⟩ | ⟨-, h⟩
    · exact ⟨y, h⟩
    · exact ⟨z, h⟩
  refine ⟨hs.distinct, ?_, hs.once, ?_, ?_⟩
  · intro z w q hz hw
    rcases (held_move hx).mp hz with ⟨hzx, -, h1⟩ | ⟨hzy, h1⟩
    · rcases (held_move hx).mp hw with ⟨hwx, -, -⟩ | ⟨hwy, h2⟩
      · rw [hzx, hwx]
      · exact absurd (hs.inj w y q h2 h1) hwy
    · rcases (held_move hx).mp hw with ⟨-, -, h2⟩ | ⟨-, h2⟩
      · exact absurd (hs.inj z y q h1 h2) hzy
      · exact hs.inj z w q h1 h2
  · intro z q hz
    obtain ⟨w, hw⟩ := hback z q hz
    exact hs.disjoint w q hw
  · intro q
    rw [hs.all q]
    constructor
    · intro h
      rcases h with h | ⟨z, hz⟩
      · exact .inl h
      · by_cases hzy : z = y
        · exact .inr ⟨x, (held_move hx).mpr (.inl ⟨rfl, hne, hzy ▸ hz⟩)⟩
        · exact .inr ⟨z, (held_move hx).mpr (.inr ⟨hzy, hz⟩)⟩
    · intro h
      rcases h with h | ⟨z, hz⟩
      · exact .inl h
      · exact .inr (hback z q hz)

/-- Who has what after `x` has let go. -/
theorem held_drop {q : ρ} : (s.drop x).held z = some q ↔ z ≠ x ∧ s.held z = some q := by
  rw [drop_held]
  by_cases h : z = x
  · simp [h]
  · simp [h]

/-- What is let go of has not been released before. -/
theorem Accounted.drop (hs : Accounted given s) : Accounted given (s.drop x) := by
  refine ⟨hs.distinct, ?_, ?_, ?_, ?_⟩
  · intro z w q hz hw
    exact hs.inj z w q (held_drop.mp hz).2 (held_drop.mp hw).2
  · show (s.released ++ (s.held x).toList).Nodup
    cases h : s.held x with
    | none =>
      rw [Option.toList_none, List.append_nil]
      exact hs.once
    | some q =>
      rw [Option.toList_some, List.nodup_append]
      refine ⟨hs.once, List.nodup_singleton q, ?_⟩
      rintro p hp p' hp' rfl
      rw [List.mem_singleton.mp hp'] at hp
      exact hs.disjoint x q h hp
  · intro z q hz hq
    obtain ⟨hzx, hz⟩ := held_drop.mp hz
    rcases List.mem_append.mp hq with hq | hq
    · exact hs.disjoint z q hz hq
    · exact hzx (hs.inj z x q hz (Option.mem_toList.mp hq))
  · intro q
    show _ ↔ q ∈ s.released ++ (s.held x).toList ∨ _
    rw [hs.all q, List.mem_append, Option.mem_toList]
    constructor
    · intro h
      rcases h with h | ⟨z, hz⟩
      · exact .inl (.inl h)
      · by_cases hzx : z = x
        · exact .inl (.inr (hzx ▸ hz))
        · exact .inr ⟨z, held_drop.mpr ⟨hzx, hz⟩⟩
    · intro h
      rcases h with (h | h) | ⟨z, hz⟩
      · exact .inl h
      · exact .inr ⟨x, h⟩
      · exact .inr ⟨z, (held_drop.mp hz).2⟩

end

end Holders

end Ejr.Lib
