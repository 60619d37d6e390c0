import Mathlib.Data.List.Infix

/-!
# Leftmost splitting

Occurrences of a delimiter in a list, and the list cut at them from the left.
`firstOcc` finds the leftmost occurrence; `firstOcc_eq_some_iff` says what
that means, `firstOcc_eq_none_iff` that none was missed. `splitFuel` cuts the
list there and goes on with what follows; one turn consumes the delimiter, so
for a non-empty one the length of the list is enough fuel (`splitFuel_total`).

`LeftmostSplit` says what a splitting should be without saying how it is found.
`splitFuel_eq_some_iff` is both halves at once: what `splitFuel` finds is one,
and there is no other.
-/

namespace Ejr.Lib

variable {α : Type}

section

variable [DecidableEq α]

/-- Where `d` first occurs. -/
def firstOcc (d : List α) : List α → Option Nat
  | [] => if d <+: [] then some 0 else none
  | a :: s => if d <+: a :: s then some 0 else (firstOcc d s).map (· + 1)

theorem firstOcc_eq_none_iff {d : List α} : ∀ {s : List α}, firstOcc d s = none ↔ ¬d <:+: s
  | [] => by simp [firstOcc]
  | a :: s => by
    rw [firstOcc, List.infix_cons_iff]
    split
    next h => simp [h]
    next h => simp [h, firstOcc_eq_none_iff]

/-- The position found is an occurrence, and there is none before it. -/
theorem firstOcc_eq_some_iff {d : List α} : ∀ {s : List α} {i : Nat},
    firstOcc d s = some i ↔ i ≤ s.length ∧ d <+: s.drop i ∧ ∀ j < i, ¬d <+: s.drop j
  | [], i => by
    rw [firstOcc]
    constructor
    · intro h
      split at h
      next hp =>
        obtain rfl : 0 = i := by simpa using h
        exact ⟨Nat.le_refl _, by simpa using hp, fun j hj => absurd hj (by omega)⟩
      next => exact absurd h (by simp)
    · intro h
      obtain ⟨hi, hp, -⟩ := h
      obtain rfl : i = 0 := by simpa using hi
      rw [if_pos (by simpa using hp)]
  | a :: s, i => by
    rw [firstOcc]
    cases i with
    | zero =>
      split
      next hp => simpa using hp
      next hp => simpa using hp
    | succ i =>
      split
      next hp =>
        constructor
        · intro h
          exact absurd h (by simp)
        · intro h
          obtain ⟨-, -, hmin⟩ := h
          exact absurd hp (hmin 0 (by omega))
      next hp =>
        -- none at the head: all positions move by one
        rw [Option.map_eq_some_iff]
        constructor
        · intro h
          obtain ⟨k, hk, hki⟩ := h
          obtain rfl : k = i := by omega
          obtain ⟨hle, hpre, hmin⟩ := firstOcc_eq_some_iff.mp hk
          refine ⟨by simpa using hle, by simpa using hpre, ?_⟩
          intro j hj
          cases j with
          | zero => exact hp
          | succ j => simpa using hmin j (by omega)
        · intro h
          obtain ⟨hle, hpre, hmin⟩ := h
          refine ⟨i, firstOcc_eq_some_iff.mpr ⟨by simpa using hle, by simpa using hpre, ?_⟩, rfl⟩
          intro j hj
          simpa using hmin (j + 1) (by omega)

/-- After a front in which no occurrence starts, the delimiter is found. -/
theorem firstOcc_append {d x t : List α} (h : ∀ j < x.length, ¬d <+: (x ++ (d ++ t)).drop j) :
    firstOcc d (x ++ (d ++ t)) = some x.length := by
  rw [firstOcc_eq_some_iff]
  refine ⟨by simp, ?_, h⟩
  rw [List.drop_left]
  exact List.prefix_append d t

/-- An occurrence leaves room for the delimiter. -/
theorem firstOcc_add_length_le {d s : List α} {i : Nat} (h : firstOcc d s = some i) :
    i + d.length ≤ s.length := by
  obtain ⟨hi, hp, -⟩ := firstOcc_eq_some_iff.mp h
  have hlen := hp.length_le
  rw [List.length_drop] at hlen
  omega

/-- What comes before the first occurrence, or everything. -/
def beforeFirst (d s : List α) : List α :=
  match firstOcc d s with
  | some i => s.take i
  | none => s

/-- Nothing is cut off exactly when the delimiter does not occur. -/
theorem beforeFirst_eq_self_iff {d s : List α} (hd : d ≠ []) :
    beforeFirst d s = s ↔ ¬d <:+: s := by
  have hpos := List.length_pos_iff.mpr hd
  rw [← firstOcc_eq_none_iff]
  unfold beforeFirst
  cases h : firstOcc d s with
  | none => simp
  | some i =>
    have hle := firstOcc_add_length_le h
    simp only [List.take_eq_self_iff, reduceCtorEq, iff_false]
    omega

/-- The list cut at the leftmost occurrences; the first argument bounds the
number of turns. -/
def splitFuel (d : List α) : Nat → List α → Option (List (List α))
  | 0, _ => none
  | n + 1, s =>
    match firstOcc d s with
    | some i => (splitFuel d n (s.drop (i + d.length))).map (s.take i :: ·)
    | none => some [s]

theorem splitFuel_append {d x t : List α} {n : Nat}
    (h : ∀ j < x.length, ¬d <+: (x ++ (d ++ t)).drop j) :
    splitFuel d (n + 1) (x ++ (d ++ t)) = (splitFuel d n t).map (x :: ·) := by
  have hdrop : (x ++ (d ++ t)).drop (x.length + d.length) = t := by
    rw [← List.append_assoc, ← List.length_append, List.drop_left]
  simp only [splitFuel, firstOcc_append h, hdrop, List.take_left]

/-- With a non-empty delimiter the splitting ends, and its first piece is what
comes before the first occurrence. -/
theorem splitFuel_total {d : List α} (hd : d ≠ []) : ∀ {n : Nat} {s : List α}, s.length < n →
    ∃ rest, splitFuel d n s = some (beforeFirst d s :: rest)
  | 0, s, h => absurd h (by omega)
  | n + 1, s, h => by
    have hpos := List.length_pos_iff.mpr hd
    cases hf : firstOcc d s with
    | none => exact ⟨[], by simp only [splitFuel, beforeFirst, hf]⟩
    | some i =>
      have hle := firstOcc_add_length_le hf
      have hlen : (s.drop (i + d.length)).length < n := by
        rw [List.length_drop]
        omega
      obtain ⟨rest, hrest⟩ := splitFuel_total hd hlen
      have hfirst : beforeFirst d s = s.take i := by simp only [beforeFirst, hf]
      refine ⟨beforeFirst d (s.drop (i + d.length)) :: rest, ?_⟩
      simp only [splitFuel, hf, hrest, Option.map_some, hfirst]

end

/-! ## What a splitting is -/

/-- `d` occurs at `i`, and nowhere before it. -/
def OccursFirst (d s : List α) (i : Nat) : Prop :=
  i ≤ s.length ∧ d <+: s.drop i ∧ ∀ j < i, ¬d <+: s.drop j

/-- The pieces make up the list, there is no delimiter in any of them, and behind
each but the last stands the first delimiter of what is left from that piece on. -/
structure LeftmostSplit (d s : List α) (tokens : List (List α)) : Prop where
  ne_nil : tokens ≠ []
  joined : d.intercalate tokens = s
  free : ∀ t ∈ tokens, ¬d <:+: t
  leftmost : ∀ pre t rest, tokens = pre ++ t :: rest → rest ≠ [] →
    OccursFirst d (t ++ (d ++ d.intercalate rest)) t.length

/-- The leftmost matches that do not overlap: each is the first one behind the
match before it. Positions are counted from `start`, where the list begins. -/
inductive Matches (d : List α) : List α → Nat → List Nat → Prop where
  | nil {s : List α} {start : Nat} : ¬d <:+: s → Matches d s start []
  | cons {s : List α} {start i : Nat} {ms : List Nat} : OccursFirst d s i →
      Matches d (s.drop (i + d.length)) (start + i + d.length) ms →
      Matches d s start ((start + i) :: ms)

section

variable {d s t : List α} {tokens : List (List α)}

/-- Nothing to split. -/
theorem leftmostSplit_singleton (h : ¬d <:+: s) : LeftmostSplit d s [s] where
  ne_nil := by simp
  joined := List.intercalate_singleton
  free := by simpa using h
  leftmost pre u rest heq hne := by
    have hlen := congrArg List.length heq
    have hpos := List.length_pos_iff.mpr hne
    simp only [List.length_append, List.length_cons, List.length_nil] at hlen
    omega

/-- Before its first occurrence there is no delimiter. -/
theorem not_infix_of_occursFirst (hd : d ≠ []) (h : OccursFirst d (t ++ (d ++ s)) t.length) :
    ¬d <:+: t := by
  intro h
  obtain ⟨pre, post, rfl⟩ := h
  have hpos := List.length_pos_iff.mpr hd
  refine h.2.2 pre.length (by simp only [List.length_append]; omega) ?_
  rw [List.append_assoc, List.append_assoc, List.drop_left]
  exact List.prefix_append d _

/-- One more piece in front. -/
theorem LeftmostSplit.cons (hd : d ≠ []) (h : LeftmostSplit d s tokens)
    (ht : OccursFirst d (t ++ (d ++ s)) t.length) :
    LeftmostSplit d (t ++ (d ++ s)) (t :: tokens) where
  ne_nil := by simp
  joined := by rw [List.intercalate_cons_of_ne_nil h.ne_nil, h.joined, List.append_assoc]
  free := by
    intro u hu
    rcases List.mem_cons.mp hu with rfl | hu
    · exact not_infix_of_occursFirst hd ht
    · exact h.free u hu
  leftmost pre u rest heq hne := by
    cases pre with
    | nil =>
      obtain ⟨rfl, rfl⟩ := List.cons.inj heq
      rw [h.joined]
      exact ht
    | cons v pre => exact h.leftmost pre u rest (List.cons.inj heq).2 hne

/-- Without its first piece. -/
theorem LeftmostSplit.tail (hne : tokens ≠ []) (h : LeftmostSplit d s (t :: tokens)) :
    OccursFirst d (t ++ (d ++ d.intercalate tokens)) t.length ∧
      LeftmostSplit d (d.intercalate tokens) tokens := by
  refine ⟨h.leftmost [] t tokens rfl hne, hne, rfl, ?_, ?_⟩
  · intro u hu
    exact h.free u (List.mem_cons_of_mem _ hu)
  · intro pre u rest heq
    exact h.leftmost (t :: pre) u rest (congrArg (t :: ·) heq)

/-- A non-empty delimiter takes room. -/
theorem LeftmostSplit.length_le (hd : d ≠ []) : ∀ {tokens : List (List α)} {s : List α},
    LeftmostSplit d s tokens → tokens.length ≤ s.length + 1
  | [], _, _ => Nat.zero_le _
  | [t], s, _ => by simp
  | t :: u :: rest, s, h => by
    have hpos := List.length_pos_iff.mpr hd
    have ih := (h.tail (by simp)).2.length_le hd
    have hlen := congrArg List.length h.joined
    simp only [List.intercalate_cons_cons, List.length_append] at hlen
    rw [List.length_cons]
    omega

/-- There is one match for each piece but the last. -/
theorem LeftmostSplit.exists_matches : ∀ {tokens : List (List α)} {s : List α} (start : Nat),
    LeftmostSplit d s tokens → ∃ ms, Matches d s start ms ∧ tokens.length = ms.length + 1
  | [], _, _, h => absurd rfl h.ne_nil
  | [t], s, _, h => by
    obtain rfl : t = s := by simpa using h.joined
    exact ⟨[], .nil (h.free t (List.mem_singleton_self t)), rfl⟩
  | t :: u :: rest, s, start, h => by
    obtain ⟨hfirst, htail⟩ := h.tail (by simp)
    have hs : s = t ++ (d ++ d.intercalate (u :: rest)) := by
      rw [← h.joined, List.intercalate_cons_cons, List.append_assoc]
    obtain ⟨ms, hms, hlen⟩ := htail.exists_matches (start + t.length + d.length)
    refine ⟨(start + t.length) :: ms, ?_, by rw [List.length_cons, hlen, List.length_cons]⟩
    rw [hs]
    refine .cons hfirst ?_
    rwa [← List.append_assoc, ← List.length_append, List.drop_left]

end

/-! ## The splitting that is found -/

section

variable [DecidableEq α] {d s : List α} {tokens : List (List α)}

/-- The matches are determined. -/
theorem Matches.unique {start : Nat} {ms ms' : List Nat} (h : Matches d s start ms)
    (h' : Matches d s start ms') : ms = ms' := by
  induction h generalizing ms' with
  | nil hnone =>
    cases h' with
    | nil => rfl
    | cons hfirst _ =>
      have hsome := firstOcc_eq_some_iff.mpr hfirst
      rw [firstOcc_eq_none_iff.mpr hnone] at hsome
      exact absurd hsome (by simp)
  | cons hfirst _ ih =>
    have hsome := firstOcc_eq_some_iff.mpr hfirst
    cases h' with
    | nil hnone =>
      rw [firstOcc_eq_none_iff.mpr hnone] at hsome
      exact absurd hsome (by simp)
    | cons hfirst' hms' =>
      rw [firstOcc_eq_some_iff.mpr hfirst'] at hsome
      obtain rfl := Option.some.inj hsome
      rw [ih hms']

/-- What the splitting finds is one. -/
theorem leftmostSplit_of_splitFuel (hd : d ≠ []) : ∀ {n : Nat} {s : List α} {tokens : List (List α)},
    splitFuel d n s = some tokens → LeftmostSplit d s tokens
  | 0, _, _, h => nomatch h
  | n + 1, s, tokens, h => by
    rw [splitFuel] at h
    cases hf : firstOcc d s with
    | none =>
      rw [hf] at h
      obtain rfl := Option.some.inj h
      exact leftmostSplit_singleton (firstOcc_eq_none_iff.mp hf)
    | some i =>
      rw [hf] at h
      obtain ⟨rest, hrest, rfl⟩ := Option.map_eq_some_iff.mp h
      have hfirst : OccursFirst d s i := firstOcc_eq_some_iff.mp hf
      -- the list is what comes before the delimiter, the delimiter and the rest
      obtain ⟨hi, hp, -⟩ := hfirst
      have hcut : s = s.take i ++ (d ++ s.drop (i + d.length)) := by
        obtain ⟨u, hu⟩ := hp
        have hdrop : s.drop (i + d.length) = u := by
          rw [← List.drop_drop, ← hu, List.drop_left]
        rw [hdrop, hu, List.take_append_drop]
      have hlen : (s.take i).length = i := List.length_take_of_le hi
      have ht : OccursFirst d (s.take i ++ (d ++ s.drop (i + d.length))) (s.take i).length := by
        rw [← hcut, hlen]
        exact firstOcc_eq_some_iff.mp hf
      have hsplit := (leftmostSplit_of_splitFuel hd hrest).cons hd ht
      rwa [← hcut] at hsplit

/-- And every one is what the splitting finds, given a turn for each piece. -/
theorem LeftmostSplit.splitFuel_eq : ∀ {tokens : List (List α)} {s : List α} {n : Nat},
    LeftmostSplit d s tokens → tokens.length ≤ n → splitFuel d n s = some tokens
  | [], _, _, h, _ => absurd rfl h.ne_nil
  | _ :: _, _, 0, _, hn => absurd hn (by simp)
  | [t], s, n + 1, h, _ => by
    obtain rfl : t = s := by simpa using h.joined
    have hnone := firstOcc_eq_none_iff.mpr (h.free t (List.mem_singleton_self t))
    rw [splitFuel, hnone]
  | t :: u :: rest, s, n + 1, h, hn => by
    obtain ⟨hfirst, htail⟩ := h.tail (by simp)
    have hs : s = t ++ (d ++ d.intercalate (u :: rest)) := by
      rw [← h.joined, List.intercalate_cons_cons, List.append_assoc]
    rw [hs, splitFuel_append hfirst.2.2, htail.splitFuel_eq (Nat.le_of_succ_le_succ hn)]
    rfl

/-- **What `splitFuel` finds is the leftmost splitting**, the only one. -/
theorem splitFuel_eq_some_iff (hd : d ≠ []) {n : Nat} (hn : s.length < n) :
    splitFuel d n s = some tokens ↔ LeftmostSplit d s tokens := by
  constructor
  · exact leftmostSplit_of_splitFuel hd
  · intro h
    have hle := h.length_le hd
    exact h.splitFuel_eq (by omega)

end

end Ejr.Lib
