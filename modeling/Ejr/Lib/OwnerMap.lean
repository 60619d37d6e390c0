import Mathlib.Logic.Function.Basic
import Mathlib.Data.List.Nodup
import Ejr.Lib.Run

/-!
# A map of owned values

What a table of owned values under keys is for, without saying how it is kept:
`add` binds a value to some valid key that is free, `get` reads, `remove`
releases the value of a key, `clear` releases all. Every added value is known
by the number of its `add`, so that equal values stay apart, and `released` is
the history of the numbers released.

`Accounted` is the invariant of the steps: a value that has been added is bound
to one key or has been released once, never both (`accounted_of_run`). What an
implementation answers is right when a run of this map gives the same answers.
-/

namespace Ejr.Lib

/-- The values added, the key each unreleased one is bound to, and the numbers
released. -/
structure Owners (κ ν : Type) where
  added : List ν
  bound : κ → Option Nat
  released : List Nat

namespace Owners

variable {κ ν : Type}

/-- Nothing added yet. -/
def empty : Owners κ ν := ⟨[], fun _ => none, []⟩

/-- The operations. -/
inductive Op (κ ν : Type) where
  | add (v : ν)
  | get (k : κ)
  | remove (k : κ)
  | clear

/-- What they answer: the key of an added value, the value read, the values
released. -/
inductive Answer (κ ν : Type) where
  | key (k : κ)
  | value (v : ν)
  | released (vs : List ν)

/-- The value bound to a key. -/
def value? (s : Owners κ ν) (k : κ) : Option ν := (s.bound k).bind (s.added[·]?)

variable [DecidableEq κ]

/-- A value bound to a key. -/
def add (s : Owners κ ν) (k : κ) (v : ν) : Owners κ ν :=
  { s with added := s.added ++ [v], bound := Function.update s.bound k (some s.added.length) }

/-- The value number `n`, bound to `k`, released. -/
def remove (s : Owners κ ν) (k : κ) (n : Nat) : Owners κ ν :=
  { s with bound := Function.update s.bound k none, released := s.released ++ [n] }

/-- All values that were bound, released in the order `ns`. -/
def clear (s : Owners κ ν) (ns : List Nat) : Owners κ ν :=
  { s with bound := fun _ => none, released := s.released ++ ns }

/-- One operation with its answer. Keys come from `valid`, and `absent` is read
where nothing is bound. -/
inductive step (valid : κ → Prop) (absent : ν) :
    Owners κ ν → Op κ ν × Answer κ ν → Owners κ ν → Prop where
  | add (s : Owners κ ν) (v : ν) {k : κ} (hk : valid k) (hfree : s.bound k = none) :
      step valid absent s (.add v, .key k) (s.add k v)
  | get (s : Owners κ ν) (k : κ) :
      step valid absent s (.get k, .value ((s.value? k).getD absent)) s
  | remove (s : Owners κ ν) {k : κ} {n : Nat} (hk : s.bound k = some n) :
      step valid absent s (.remove k, .released (s.value? k).toList) (s.remove k n)
  | removeFree (s : Owners κ ν) {k : κ} (hk : s.bound k = none) :
      step valid absent s (.remove k, .released []) s
  | clear (s : Owners κ ν) {ns : List Nat} (hns : ns.Nodup)
      (hall : ∀ n, n ∈ ns ↔ ∃ k, s.bound k = some n) :
      step valid absent s (.clear, .released (ns.filterMap (s.added[·]?))) (s.clear ns)

/-- Every added value is bound to one key, or has been released once. -/
structure Accounted (s : Owners κ ν) : Prop where
  inj : ∀ k k' n, s.bound k = some n → s.bound k' = some n → k = k'
  once : s.released.Nodup
  disjoint : ∀ k n, s.bound k = some n → n ∉ s.released
  all : ∀ n, n < s.added.length ↔ n ∈ s.released ∨ ∃ k, s.bound k = some n

omit [DecidableEq κ] in
theorem accounted_empty : (empty : Owners κ ν).Accounted where
  inj _ _ _ h := absurd h (by simp [empty])
  once := List.nodup_nil
  disjoint _ _ h := absurd h (by simp [empty])
  all n := by simp [empty]

section

variable {s : Owners κ ν} {k k' : κ} {n m : Nat} {v : ν}

theorem add_bound :
    (s.add k v).bound k' = if k' = k then some s.added.length else s.bound k' := by
  show Function.update s.bound k (some s.added.length) k' = _
  by_cases h : k' = k
  · rw [if_pos h, h, Function.update_self]
  · rw [if_neg h, Function.update_of_ne h]

theorem remove_bound : (s.remove k n).bound k' = if k' = k then none else s.bound k' := by
  show Function.update s.bound k none k' = _
  by_cases h : k' = k
  · rw [if_pos h, h, Function.update_self]
  · rw [if_neg h, Function.update_of_ne h]

theorem bound_add :
    (s.add k v).bound k' = some m ↔
      (k' = k ∧ m = s.added.length) ∨ (k' ≠ k ∧ s.bound k' = some m) := by
  rw [add_bound]
  by_cases h : k' = k
  · rw [if_pos h]
    simp [h, eq_comm]
  · rw [if_neg h]
    simp [h]

theorem bound_remove :
    (s.remove k n).bound k' = some m ↔ k' ≠ k ∧ s.bound k' = some m := by
  rw [remove_bound]
  by_cases h : k' = k
  · simp [h]
  · simp [h]

omit [DecidableEq κ] in
theorem Accounted.lt (hs : s.Accounted) (h : s.bound k = some n) : n < s.added.length :=
  (hs.all n).mpr (.inr ⟨k, h⟩)

/-- Reading after an addition. -/
theorem Accounted.value?_add (hs : s.Accounted) :
    (s.add k v).value? k' = if k' = k then some v else s.value? k' := by
  rw [value?, add_bound]
  by_cases h : k' = k
  · rw [if_pos h, if_pos h]
    exact List.getElem?_concat_length
  · rw [if_neg h, if_neg h, value?]
    cases hb : s.bound k' with
    | none => rfl
    | some m => exact List.getElem?_append_left (hs.lt hb)

/-- Reading after a release. -/
theorem value?_remove : (s.remove k n).value? k' = if k' = k then none else s.value? k' := by
  rw [value?, remove_bound]
  by_cases h : k' = k
  · rw [if_pos h, if_pos h]
    rfl
  · rw [if_neg h, if_neg h]
    rfl

/-- The new number is the next one. -/
theorem Accounted.add (hs : s.Accounted) (hfree : s.bound k = none) (v : ν) :
    (s.add k v).Accounted := by
  constructor
  · intro k1 k2 m h1 h2
    -- no key was bound to the new number before
    rcases bound_add.mp h1 with ⟨hk1, hm1⟩ | ⟨-, hold1⟩
    · rcases bound_add.mp h2 with ⟨hk2, -⟩ | ⟨-, hold2⟩
      · exact hk1.trans hk2.symm
      · exact absurd (hm1 ▸ hs.lt hold2) (Nat.lt_irrefl _)
    · rcases bound_add.mp h2 with ⟨-, hm2⟩ | ⟨-, hold2⟩
      · exact absurd (hm2 ▸ hs.lt hold1) (Nat.lt_irrefl _)
      · exact hs.inj k1 k2 m hold1 hold2
  · exact hs.once
  · intro k1 m h1 hm
    rcases bound_add.mp h1 with ⟨-, rfl⟩ | ⟨-, h1⟩
    · exact absurd ((hs.all _).mpr (.inl hm)) (Nat.lt_irrefl _)
    · exact hs.disjoint k1 m h1 hm
  · intro m
    have hlen : m < (s.add k v).added.length ↔ m < s.added.length ∨ m = s.added.length := by
      simp only [Owners.add, List.length_append, List.length_singleton]
      omega
    rw [hlen, hs.all m]
    constructor
    · intro h
      rcases h with (h | ⟨k1, h1⟩) | rfl
      · exact .inl h
      · -- the key was free, so `k1` is another
        refine .inr ⟨k1, bound_add.mpr (.inr ⟨?_, h1⟩)⟩
        rintro rfl
        rw [hfree] at h1
        exact absurd h1 (by simp)
      · exact .inr ⟨k, bound_add.mpr (.inl ⟨rfl, rfl⟩)⟩
    · intro h
      rcases h with h | ⟨k1, h1⟩
      · exact .inl (.inl h)
      · rcases bound_add.mp h1 with ⟨-, rfl⟩ | ⟨-, h1⟩
        · exact .inr rfl
        · exact .inl (.inr ⟨k1, h1⟩)

/-- The number moves from bound to released. -/
theorem Accounted.remove (hs : s.Accounted) (hk : s.bound k = some n) :
    (s.remove k n).Accounted := by
  have hnew : n ∉ s.released := hs.disjoint k n hk
  constructor
  · intro k1 k2 m h1 h2
    exact hs.inj k1 k2 m (bound_remove.mp h1).2 (bound_remove.mp h2).2
  · show (s.released ++ [n]).Nodup
    refine List.nodup_append.mpr ⟨hs.once, List.nodup_singleton n, ?_⟩
    intro a ha b hb hab
    rw [List.mem_singleton.mp hb] at hab
    exact hnew (hab ▸ ha)
  · intro k1 m h1 hm
    obtain ⟨hne, h1⟩ := bound_remove.mp h1
    rcases List.mem_append.mp hm with hm | hm
    · exact hs.disjoint k1 m h1 hm
    · -- two keys would be bound to the number that is released
      rw [List.mem_singleton.mp hm] at h1
      exact hne (hs.inj k1 k n h1 hk)
  · intro m
    have hmem : m ∈ (s.remove k n).released ↔ m ∈ s.released ∨ m = n := by simp [Owners.remove]
    rw [hmem]
    refine Iff.trans (hs.all m) ?_
    constructor
    · intro h
      rcases h with h | ⟨k1, h1⟩
      · exact .inl (.inl h)
      · by_cases hkk : k1 = k
        · rw [hkk, hk] at h1
          exact .inl (.inr (Option.some.inj h1).symm)
        · exact .inr ⟨k1, bound_remove.mpr ⟨hkk, h1⟩⟩
    · intro h
      rcases h with (h | rfl) | ⟨k1, h1⟩
      · exact .inl h
      · exact .inr ⟨k, hk⟩
      · exact .inr ⟨k1, (bound_remove.mp h1).2⟩

omit [DecidableEq κ] in
/-- Every number is released after `clear`. -/
theorem Accounted.clear (hs : s.Accounted) {ns : List Nat} (hns : ns.Nodup)
    (hall : ∀ n, n ∈ ns ↔ ∃ k, s.bound k = some n) : (s.clear ns).Accounted := by
  constructor
  · intro k1 k2 m h1
    exact absurd h1 (by simp [Owners.clear])
  · show (s.released ++ ns).Nodup
    refine List.nodup_append.mpr ⟨hs.once, hns, ?_⟩
    intro a ha b hb hab
    obtain ⟨k1, h1⟩ := (hall b).mp hb
    exact hs.disjoint k1 b h1 (hab ▸ ha)
  · intro k1 m h1
    exact absurd h1 (by simp [Owners.clear])
  · intro m
    simp only [Owners.clear, List.mem_append, hall m]
    simpa using hs.all m

end

variable {valid : κ → Prop} {absent : ν} {s t : Owners κ ν} {l : Op κ ν × Answer κ ν}
  {ls : List (Op κ ν × Answer κ ν)}

theorem Accounted.step (hs : s.Accounted) (h : Owners.step valid absent s l t) : t.Accounted := by
  cases h with
  | add v hk hfree => exact hs.add hfree v
  | get => exact hs
  | remove hk => exact hs.remove hk
  | removeFree => exact hs
  | clear hns hall => exact hs.clear hns hall

theorem Accounted.run (hs : s.Accounted) (h : Run (Owners.step valid absent) s ls t) :
    t.Accounted :=
  h.invariant hs fun _ _ _ hs hstep => hs.step hstep

/-- **At most once**: over any run no value is released twice. -/
theorem released_nodup (h : Run (Owners.step valid absent) empty ls s) : s.released.Nodup :=
  (accounted_empty.run h).once

/-- How many values the operations add. -/
def Op.adds {κ ν : Type} : List (Op κ ν) → Nat
  | [] => 0
  | .add _ :: ops => adds ops + 1
  | .get _ :: ops | .remove _ :: ops | .clear :: ops => adds ops

theorem length_added (h : Run (Owners.step valid absent) s ls t) :
    t.added.length = s.added.length + Op.adds (ls.map Prod.fst) := by
  induction h with
  | nil s => rfl
  | cons hstep _ ih =>
    rw [ih]
    cases hstep with
    | add v hk hfree =>
      simp only [Owners.add, List.length_append, List.length_singleton, List.map_cons, Op.adds]
      omega
    | _ => rfl

/-- What has been released stays released, and added values keep their numbers. -/
theorem step_mono (h : step valid absent s l t) :
    (∀ n ∈ s.released, n ∈ t.released) ∧ s.added <+: t.added := by
  cases h with
  | add v hk hfree => exact ⟨fun _ h => h, List.prefix_append ..⟩
  | get => exact ⟨fun _ h => h, List.prefix_refl _⟩
  | remove hk => exact ⟨fun _ h => List.mem_append_left _ h, List.prefix_refl _⟩
  | removeFree => exact ⟨fun _ h => h, List.prefix_refl _⟩
  | clear hns hall => exact ⟨fun _ h => List.mem_append_left _ h, List.prefix_refl _⟩

theorem run_mono (h : Run (step valid absent) s ls t) :
    (∀ n ∈ s.released, n ∈ t.released) ∧ s.added <+: t.added := by
  induction h with
  | nil s => exact ⟨fun _ h => h, List.prefix_refl _⟩
  | cons hs _ ih =>
    obtain ⟨h1, h2⟩ := step_mono hs
    exact ⟨fun n hn => ih.1 n (h1 n hn), h2.trans ih.2⟩

/-- **Exactly once**: what was added before a `clear` has been released once
in the end. -/
theorem count_released_of_clear {pre post : List (Op κ ν × Answer κ ν)} {vs : List ν}
    (h : Run (step valid absent) empty (pre ++ (.clear, .released vs) :: post) t) :
    ∃ s, Run (step valid absent) empty pre s ∧ s.added <+: t.added ∧
      ∀ n < s.added.length, t.released.count n = 1 := by
  obtain ⟨s, hpre, hrest⟩ := h.split
  refine ⟨s, hpre, (run_mono hrest).2, ?_⟩
  intro n hn
  refine List.count_eq_one_of_mem (released_nodup h) ?_
  cases hrest with
  | cons hclear hpost =>
    cases hclear with
    | clear hns hall =>
      refine (run_mono hpost).1 n (List.mem_append.mpr ?_)
      rcases ((accounted_empty.run hpre).all n).mp hn with hr | hb
      · exact .inl hr
      · exact .inr ((hall n).mpr hb)

end Owners

end Ejr.Lib
