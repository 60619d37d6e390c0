import Mathlib.Data.List.Infix

/-!
# Trimming

A list without its longest prefix and its longest suffix of elements in `p`.
`Trimmed` says so without saying how the two are found. It leaves one result
(`Trimmed.unique`), and what has been trimmed is its own result
(`Trimmed.self`), so a program that trims does nothing the second time.
-/

namespace Ejr.Lib

variable {α : Type}

/-- The longest prefix of `l` with only `p` in it. -/
structure LongestPrefix (p : α → Bool) (l pre : List α) : Prop where
  isPrefix : pre <+: l
  all : ∀ a ∈ pre, p a = true
  longest : ∀ q, q <+: l → (∀ a ∈ q, p a = true) → q <+: pre

/-- The longest suffix of `l` with only `p` in it. -/
structure LongestSuffix (p : α → Bool) (l post : List α) : Prop where
  isSuffix : post <:+ l
  all : ∀ a ∈ post, p a = true
  longest : ∀ q, q <:+ l → (∀ a ∈ q, p a = true) → q <:+ post

/-- `t` is what is left of `l`: what stands between the two, or nothing when all
of `l` is in `p`. -/
def Trimmed (p : α → Bool) (l t : List α) : Prop :=
  ∃ pre post, LongestPrefix p l pre ∧ LongestSuffix p l post ∧
    (l = pre ++ (t ++ post) ∨ pre = l ∧ t = [])

variable {p : α → Bool} {l t u pre post rest : List α} {a : α}

/-! ## Longest ends -/

/-- From the other end. -/
theorem longestSuffix_iff_reverse :
    LongestSuffix p l post ↔ LongestPrefix p l.reverse post.reverse := by
  constructor
  · intro h
    refine ⟨List.reverse_prefix.mpr h.isSuffix, ?_, fun q hq hall => ?_⟩
    · exact fun a ha => h.all a (List.mem_reverse.mp ha)
    · rw [← List.reverse_reverse q] at hq ⊢
      refine List.reverse_prefix.mpr (h.longest _ (List.reverse_prefix.mp hq) ?_)
      exact fun a ha => hall a (List.mem_reverse.mp ha)
  · intro h
    refine ⟨List.reverse_prefix.mp h.isPrefix, ?_, fun q hq hall => ?_⟩
    · exact fun a ha => h.all a (List.mem_reverse.mpr ha)
    · refine List.reverse_prefix.mp (h.longest _ (List.reverse_prefix.mpr hq) ?_)
      exact fun a ha => hall a (List.mem_reverse.mp ha)

theorem longestPrefix_self (h : ∀ a ∈ l, p a = true) : LongestPrefix p l l :=
  ⟨List.prefix_rfl, h, fun _ hq _ => hq⟩

/-- The first element that is not in `p` ends the prefix. -/
theorem longestPrefix_stop (hpre : ∀ a ∈ pre, p a = true) (ha : p a = false) :
    LongestPrefix p (pre ++ a :: rest) pre := by
  refine ⟨List.prefix_append pre _, hpre, fun q hq hall => ?_⟩
  rcases List.prefix_or_prefix_of_prefix hq (List.prefix_append pre (a :: rest)) with h | h
  · exact h
  · obtain ⟨v, rfl⟩ := h
    cases v with
    | nil => rw [List.append_nil]
    | cons b v =>
      obtain ⟨rfl, -⟩ := List.cons_prefix_cons.mp ((List.prefix_append_right_inj pre).mp hq)
      rw [hall b (by simp)] at ha
      exact absurd ha (by simp)

/-- The last one ends the suffix. -/
theorem longestSuffix_stop (hpost : ∀ a ∈ post, p a = true) (ha : p a = false) :
    LongestSuffix p (rest ++ a :: post) post := by
  rw [longestSuffix_iff_reverse]
  have hreverse : (rest ++ a :: post).reverse = post.reverse ++ a :: rest.reverse := by simp
  rw [hreverse]
  exact longestPrefix_stop (fun b hb => hpost b (List.mem_reverse.mp hb)) ha

theorem longestSuffix_self (h : ∀ a ∈ l, p a = true) : LongestSuffix p l l :=
  ⟨List.suffix_rfl, h, fun _ hq _ => hq⟩

theorem LongestPrefix.unique (h : LongestPrefix p l t) (h' : LongestPrefix p l u) : t = u :=
  (h'.longest t h.isPrefix h.all).eq_of_length_le (h.longest u h'.isPrefix h'.all).length_le

theorem LongestSuffix.unique (h : LongestSuffix p l t) (h' : LongestSuffix p l u) : t = u :=
  (h'.longest t h.isSuffix h.all).eq_of_length_le (h.longest u h'.isSuffix h'.all).length_le

/-- What stands behind it has none. -/
theorem LongestPrefix.behind (h : LongestPrefix p (pre ++ l) pre) (ht : t <+: l) :
    LongestPrefix p t [] := by
  refine ⟨List.nil_prefix, fun a ha => absurd ha List.not_mem_nil, fun q hq hall => ?_⟩
  have hlonger : pre ++ q <+: pre ++ l := (List.prefix_append_right_inj pre).mpr (hq.trans ht)
  have hle := (h.longest _ hlonger fun a ha =>
    (List.mem_append.mp ha).elim (h.all a) (hall a)).length_le
  rw [List.length_append] at hle
  rw [List.eq_nil_of_length_eq_zero (l := q) (by omega)]

theorem LongestSuffix.before (h : LongestSuffix p (l ++ post) post) (ht : t <:+ l) :
    LongestSuffix p t [] := by
  rw [longestSuffix_iff_reverse] at h ⊢
  rw [List.reverse_append] at h
  exact h.behind (List.reverse_prefix.mpr ht)

/-! ## What is left -/

/-- There is one result. -/
theorem Trimmed.unique (h : Trimmed p l t) (h' : Trimmed p l u) : t = u := by
  obtain ⟨pre, post, hpre, hpost, h⟩ := h
  obtain ⟨pre', post', hpre', hpost', h'⟩ := h'
  obtain rfl := hpre.unique hpre'
  obtain rfl := hpost.unique hpost'
  rcases h with h | ⟨rfl, rfl⟩
  · rcases h' with h' | ⟨rfl, rfl⟩
    · rw [h] at h'
      exact List.append_cancel_right (List.append_cancel_left h')
    · exact (List.append_eq_nil_iff.mp (List.self_eq_append_right.mp h)).1
  · rcases h' with h' | ⟨-, rfl⟩
    · exact (List.append_eq_nil_iff.mp (List.self_eq_append_right.mp h')).1.symm
    · rfl

/-- What has been trimmed has nothing to trim. -/
theorem Trimmed.self (h : Trimmed p l t) : Trimmed p t t := by
  obtain ⟨pre, post, hpre, hpost, h | ⟨-, rfl⟩⟩ := h
  · have hprefix : LongestPrefix p t [] := by
      rw [h] at hpre
      exact hpre.behind (List.prefix_append t post)
    have hsuffix : LongestSuffix p t [] := by
      rw [h, ← List.append_assoc] at hpost
      exact hpost.before (List.suffix_append pre t)
    exact ⟨[], [], hprefix, hsuffix, .inl (List.append_nil t).symm⟩
  · exact ⟨[], [], longestPrefix_self nofun, longestSuffix_self nofun, .inl rfl⟩

end Ejr.Lib
