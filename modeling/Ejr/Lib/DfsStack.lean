import Mathlib.Logic.Relation

/-!
# The stack of a depth-first search

A depth-first search for cycles keeps the nodes it has come to on a stack, the
latest first, until it has found that they lead to nothing below them. Each has
a number (`index`), in the order they were come to, and the lowest number on
the stack that it is known to lead to (`low`). `DfsStack` is what holds of the
two; it is kept when a node is put on the stack, when the `low` of a node is
lowered to that of one it has an edge to, and when a part of the stack is taken
off. A node whose `low` is not its own number leads to something below itself
(`DfsStack.below`).
-/

namespace Ejr.Lib

open Relation

variable {α : Type} {E : α → α → Prop} {index low index' low' : α → Nat}
  {stack new old : List α} {m m1 : α}

/-- The numbers go up with the stack, and `low` is one that is led to. -/
structure DfsStack (E : α → α → Prop) (index low : α → Nat) (stack : List α) : Prop where
  order : stack.Pairwise fun a b => index b < index a
  low_le : ∀ v ∈ stack, low v ≤ index v
  leads : ∀ v ∈ stack, ∃ w ∈ stack, index w = low v ∧ ReflTransGen E v w

namespace DfsStack

theorem nil : DfsStack E index low [] := ⟨.nil, by simp, by simp⟩

theorem nodup (h : DfsStack E index low stack) : stack.Nodup := by
  refine h.order.imp ?_
  rintro a b hlt rfl
  exact Nat.lt_irrefl _ hlt

/-- Only the numbers on the stack matter. -/
theorem congr (h : DfsStack E index low stack) (hindex : ∀ v ∈ stack, index' v = index v)
    (hlow : ∀ v ∈ stack, low' v = low v) : DfsStack E index' low' stack where
  order := h.order.imp_of_mem fun ha hb hlt => by rwa [hindex _ ha, hindex _ hb]
  low_le v hv := by rw [hindex v hv, hlow v hv]; exact h.low_le v hv
  leads v hv := by
    obtain ⟨w, hw, heq, hpath⟩ := h.leads v hv
    exact ⟨w, hw, by rw [hindex w hw, hlow v hv, heq], hpath⟩

theorem push (h : DfsStack E index low stack) (hlt : ∀ v ∈ stack, index v < index m)
    (hlow : low m = index m) : DfsStack E index low (m :: stack) where
  order := List.pairwise_cons.mpr ⟨hlt, h.order⟩
  low_le := List.forall_mem_cons.mpr ⟨Nat.le_of_eq hlow, h.low_le⟩
  leads := List.forall_mem_cons.mpr ⟨⟨m, List.mem_cons_self .., hlow.symm, .refl⟩, fun v hv => by
    obtain ⟨w, hw, hrest⟩ := h.leads v hv
    exact ⟨w, List.mem_cons_of_mem _ hw, hrest⟩⟩

theorem lower (h : DfsStack E index low stack) (hm : m ∈ stack) (hm1 : m1 ∈ stack) (hE : E m m1)
    (hlow : low' m = min (low m) (low m1)) (hother : ∀ v ∈ stack, v ≠ m → low' v = low v) :
    DfsStack E index low' stack := by
  refine ⟨h.order, fun v hv => ?_, fun v hv => ?_⟩
  · by_cases hvm : v = m
    · rw [hvm, hlow]
      exact Nat.le_trans (Nat.min_le_left ..) (h.low_le m hm)
    · rw [hother v hv hvm]
      exact h.low_le v hv
  · by_cases hvm : v = m
    · subst hvm
      rcases Nat.le_total (low v) (low m1) with hle | hle
      · obtain ⟨w, hw, heq, hpath⟩ := h.leads v hv
        exact ⟨w, hw, by rw [hlow, Nat.min_eq_left hle, heq], hpath⟩
      · obtain ⟨w, hw, heq, hpath⟩ := h.leads m1 hm1
        exact ⟨w, hw, by rw [hlow, Nat.min_eq_right hle, heq], .head hE hpath⟩
    · obtain ⟨w, hw, heq, hpath⟩ := h.leads v hv
      exact ⟨w, hw, by rw [hother v hv hvm, heq], hpath⟩

theorem lt_of_above (h : DfsStack E index low (new ++ old)) {v w : α} (hv : v ∈ new)
    (hw : w ∈ old) : index w < index v :=
  (List.pairwise_append.mp h.order).2.2 v hv w hw

/-- What is left leads nowhere that has been taken off. -/
theorem drop (h : DfsStack E index low (new ++ old)) : DfsStack E index low old where
  order := (List.pairwise_append.mp h.order).2.1
  low_le v hv := h.low_le v (List.mem_append_right _ hv)
  leads v hv := by
    obtain ⟨w, hw, heq, hpath⟩ := h.leads v (List.mem_append_right _ hv)
    rcases List.mem_append.mp hw with hnew | hold
    · have hlt := h.lt_of_above hnew hv
      have hle := h.low_le v (List.mem_append_right _ hv)
      exact absurd (Nat.lt_of_lt_of_le (heq ▸ hlt) hle) (Nat.lt_irrefl _)
    · exact ⟨w, hold, heq, hpath⟩

theorem below (h : DfsStack E index low (new ++ m :: old)) (hm : low m ≠ index m) :
    ∃ w ∈ old, ReflTransGen E m w := by
  obtain ⟨w, hw, heq, hpath⟩ := h.leads m (by simp)
  have hlt : low m < index m := Nat.lt_of_le_of_ne (h.low_le m (by simp)) hm
  rcases List.mem_append.mp hw with hnew | hw
  · have := h.lt_of_above hnew (List.mem_cons_self ..)
    omega
  · rcases List.mem_cons.mp hw with rfl | hold
    · omega
    · exact ⟨w, hold, hpath⟩

end DfsStack

end Ejr.Lib
