import Mathlib.Data.List.Nodup
import Ejr.Lib.Store

/-!
# Programs that give cells back

A program that follows pointers through a store and gives back what it meets
reads a store that it changes. `Releases h spec p` compares it with `spec`, the
cells it would meet on the store `h` as it was: run from `h` without some cells
already, `p` ends well exactly when `spec` names cells, none of them twice and
none that is gone, and then these are gone as well. It is stated for the programs
of `Ejr.Lib.Store`, which stop at an address where nothing lives; there is one
rule for each way to build such a program, and `Releases.run_iff` reads the result
off: following a graph, a program frees nothing twice exactly when it meets
nothing twice.
-/

namespace Ejr.Lib

variable {β ε : Type}

namespace Store

/-- No cell twice, and none of those that are gone. -/
def Once (gone xs : List Nat) : Prop := xs.Nodup ∧ ∀ x ∈ xs, x ∉ gone

theorem once_nil (gone : List Nat) : Once gone [] := ⟨.nil, fun _ hx => absurd hx List.not_mem_nil⟩

theorem once_append {gone xs ys : List Nat} :
    Once gone (xs ++ ys) ↔ Once gone xs ∧ Once (gone ++ xs) ys := by
  unfold Once
  rw [List.nodup_append]
  constructor
  · intro h
    obtain ⟨⟨hxs, hys, hdisj⟩, hgone⟩ := h
    refine ⟨⟨hxs, fun x hx => hgone x (List.mem_append_left _ hx)⟩, hys, fun y hy hmem => ?_⟩
    rcases List.mem_append.mp hmem with hmem | hmem
    · exact hgone y (List.mem_append_right _ hy) hmem
    · exact hdisj y hmem y hy rfl
  · intro h
    obtain ⟨⟨hxs, hgone⟩, hys, hgone'⟩ := h
    refine ⟨⟨hxs, hys, fun x hx y hy hxy => ?_⟩, fun x hx => ?_⟩
    · exact hgone' y hy (List.mem_append_right _ (hxy ▸ hx))
    rcases List.mem_append.mp hx with hx | hx
    · exact hgone x hx
    · exact fun hmem => hgone' x hx (List.mem_append_left _ hmem)

/-- From the store without some cells, the program gives back those of `spec`, or
stops because one of them is gone already or comes twice. -/
def Releases (h : Store β) (spec : Option (List Nat)) (p : EStateM ε (Store β) Unit) : Prop :=
  ∀ gone : List Nat, wp p (h.without gone)
    (fun _ t => ∃ xs, spec = some xs ∧ Once gone xs ∧ t = h.without (gone ++ xs))
    (fun _ _ => ∀ xs, spec = some xs → ¬Once gone xs)

/-- First the one, then the other. -/
def andThen (spec spec' : Option (List Nat)) : Option (List Nat) :=
  spec.bind fun xs => spec'.map (xs ++ ·)

/-- The cell, if it lives. -/
def live (h : Store β) (a : Nat) : Option (List Nat) := if (h.cell a).isSome then some [a] else none

section

variable {h : Store β}

theorem releases_pure : Releases h (some []) (pure () : EStateM ε (Store β) Unit) := by
  intro gone
  exact ⟨[], rfl, once_nil gone, by rw [List.append_nil]⟩

theorem releases_throw {e : ε} : Releases h none (throw e : EStateM ε (Store β) Unit) := by
  intro gone xs hxs
  exact absurd hxs (by simp)

/-- One cell. -/
theorem releases_release {e : ε} (a : Nat) : Releases h (h.live a) (release e a) := by
  intro gone
  by_cases hgone : a ∈ gone
  · rw [release, wp_bind]
    refine (wp_load_none (h.without_cell_of_mem hgone)).mpr fun xs hxs honce => ?_
    unfold live at hxs
    split at hxs
    next => exact honce.2 a (by rw [← Option.some.inj hxs]; simp) hgone
    next => exact absurd hxs (by simp)
  · have hcell : (h.without gone).cell a = h.cell a := h.without_cell_of_not_mem hgone
    cases hlive : h.cell a with
    | none =>
      rw [release, wp_bind]
      refine (wp_load_none (hcell.trans hlive)).mpr fun xs hxs => ?_
      simp [live, hlive] at hxs
    | some b =>
      refine (wp_release (hcell.trans hlive)).mpr ⟨[a], by simp [live, hlive], ?_, ?_⟩
      · exact ⟨List.nodup_singleton a, fun x hx => by rwa [List.mem_singleton.mp hx]⟩
      · exact h.without_without [a]

/-- Two programs. -/
theorem Releases.andThen {spec spec' : Option (List Nat)} {p p' : EStateM ε (Store β) Unit}
    (hp : Releases h spec p) (hp' : Releases h spec' p') :
    Releases h (andThen spec spec') (p >>= fun _ => p') := by
  intro gone
  rw [wp_bind]
  refine wp_mono (hp gone) ?_ ?_
  · intro _ t ht
    obtain ⟨xs, rfl, hxs, rfl⟩ := ht
    refine wp_mono (hp' (gone ++ xs)) ?_ ?_
    · intro _ u hu
      obtain ⟨ys, rfl, hys, rfl⟩ := hu
      exact ⟨xs ++ ys, rfl, once_append.mpr ⟨hxs, hys⟩, by rw [List.append_assoc]⟩
    · intro _ _ hstop zs hzs honce
      obtain ⟨ys, rfl, rfl⟩ := Option.map_eq_some_iff.mp hzs
      exact hstop ys rfl (once_append.mp honce).2
  · intro _ _ hstop zs hzs honce
    obtain ⟨xs, rfl, hrest⟩ := Option.bind_eq_some_iff.mp hzs
    obtain ⟨ys, -, rfl⟩ := Option.map_eq_some_iff.mp hrest
    exact hstop xs rfl (once_append.mp honce).1

/-- A cell is read before it is given back: if it is gone, that cannot go well. -/
theorem releases_load {e : ε} {a : Nat} {spec : β → Option (List Nat)}
    {k : β → EStateM ε (Store β) Unit} (hk : ∀ b, h.cell a = some b → Releases h (spec b) (k b))
    (hmem : ∀ b xs, h.cell a = some b → spec b = some xs → a ∈ xs) :
    Releases h ((h.cell a).bind spec) (load e a >>= k) := by
  intro gone
  rw [wp_bind]
  by_cases hgone : a ∈ gone
  · refine (wp_load_none (h.without_cell_of_mem hgone)).mpr fun xs hxs honce => ?_
    obtain ⟨b, hb, hxs⟩ := Option.bind_eq_some_iff.mp hxs
    exact honce.2 a (hmem b xs hb hxs) hgone
  · have hcell : (h.without gone).cell a = h.cell a := h.without_cell_of_not_mem hgone
    cases hb : h.cell a with
    | none =>
      refine (wp_load_none (hcell.trans hb)).mpr fun xs hxs => ?_
      exact absurd hxs (by simp)
    | some b => exact (wp_load (hcell.trans hb)).mpr (hk b hb gone)

/-- **Nothing is freed twice exactly when nothing is met twice.** -/
theorem Releases.run_iff {spec : Option (List Nat)} {p : EStateM ε (Store β) Unit}
    (hp : Releases h spec p) (t : Store β) :
    p h = .ok () t ↔ ∃ xs, spec = some xs ∧ xs.Nodup ∧ t = h.without xs := by
  have hrun := hp []
  rw [without_nil] at hrun
  constructor
  · intro hok
    obtain ⟨xs, hxs, honce, ht⟩ := @wp_of_ok _ _ _ _ _ _ _ (fun _ t => ∃ xs, spec = some xs ∧
      Once [] xs ∧ t = h.without ([] ++ xs)) _ hrun hok
    exact ⟨xs, hxs, honce.1, ht⟩
  · intro hxs
    obtain ⟨xs, hxs, hnodup, rfl⟩ := hxs
    have honce : Once [] xs := ⟨hnodup, fun _ _ => List.not_mem_nil⟩
    cases hok : p h with
    | error e u => exact absurd honce (wp_of_error hrun hok xs hxs)
    | ok _ u =>
      obtain ⟨ys, hys, -, rfl⟩ := @wp_of_ok _ _ _ _ _ _ _ (fun _ t => ∃ xs, spec = some xs ∧
        Once [] xs ∧ t = h.without ([] ++ xs)) _ hrun hok
      obtain rfl := Option.some.inj (hxs.symm.trans hys)
      rfl

end

end Store

end Ejr.Lib
