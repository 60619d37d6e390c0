import Ejr.Lib.Account

/-!
# Accounts with interludes

A program may hand over to somebody else on the way, whose events are not its
own. `Interleaved` tells the two apart: the log grows by pieces of the program's
own, with an interlude after each but the last.

`Spends` carries the exact account (`Ejr.Lib.Account`) of the own events through
a program. Of an interlude it asks only that it takes back no rank: names given
out afterwards are later ones still.
-/

namespace Ejr.Lib

variable {ε ν σ τ ω α β : Type} {L : Log σ ε} {run : ω → EStateM τ σ Unit} {s t u : σ}
  {ws vs : List ω} {es fs : List ε}

/-- From `s` to `t` the log has grown by the pieces of `own`, in order, and by
what the interludes `ws` log, one after each piece but the last. -/
inductive Interleaved (L : Log σ ε) (run : ω → EStateM τ σ Unit) :
    List ω → σ → List ε → σ → Prop
  | last {s t : σ} {es : List ε} (h : L.events t = L.events s ++ es) :
    Interleaved L run [] s es t
  | interlude {w : ω} {ws : List ω} {s u v t : σ} {es fs : List ε}
    (h : L.events u = L.events s ++ es) (hw : run w u = .ok () v)
    (hrest : Interleaved L run ws v fs t) : Interleaved L run (w :: ws) s (es ++ fs) t

/-- A piece more at the front. -/
theorem Interleaved.own (h : L.events u = L.events s ++ es) (hrest : Interleaved L run ws u fs t) :
    Interleaved L run ws s (es ++ fs) t := by
  cases hrest with
  | last hlast => exact .last (by rw [hlast, h, List.append_assoc])
  | interlude hpiece hw hrest =>
    rw [← List.append_assoc]
    exact .interlude (by rw [hpiece, h, List.append_assoc]) hw hrest

theorem Interleaved.trans (h1 : Interleaved L run ws s es u) (h2 : Interleaved L run vs u fs t) :
    Interleaved L run (ws ++ vs) s (es ++ fs) t := by
  induction h1 with
  | last h => exact h2.own h
  | interlude h hw _ ih =>
    rw [List.append_assoc]
    exact .interlude h hw (ih h2)

/-! ## The account of the own events -/

variable [DecidableEq ν] {K : Roles ε ν} {rank : ν → Nat} {o m h x held : List ν}

/-- Ranks may be left out. -/
theorem Exact.widen {lo hi hi' : Nat} (hA : Exact K rank lo hi o h es) (hle : hi ≤ hi') :
    Exact K rank lo hi' o h es :=
  { hA with
    le := Nat.le_trans hA.le hle
    range := fun n hn => ⟨(hA.range n hn).1, Nat.lt_of_lt_of_le (hA.range n hn).2 hle⟩ }

/-- Only what was held before is put away of what is older. -/
theorem Exact.elder {lo hi : Nat} (hA : Exact K rank lo hi o h es) {n : ν} (hn : rank n < lo)
    (hput : n ∈ es.filterMap K.puts) : n ∈ o := by
  have heven := hA.even n
  have hpos := List.count_pos_iff.mpr hput
  have hnot : n ∉ es.filterMap K.takes := fun ht => absurd (hA.range n ht).1 (Nat.not_le_of_lt hn)
  rw [List.count_eq_zero.mpr hnot] at heven
  exact List.count_pos_iff.mp (by omega)

/-- The program ends after the interludes `ws`; its own events lead from holding
`o` to holding what `h` says of the value it returns. Nothing but an interlude
stops it. -/
def Spends (K : Roles ε ν) (rank : ν → Nat) (L : Log σ ε) (run : ω → EStateM τ σ Unit)
    (ws : List ω) (o : List ν) (h : α → List ν) (p : EStateM τ σ α) : Prop :=
  ∀ s, Held rank (L.fresh s) o → wp p s
    (fun a t => ∃ own, Interleaved L run ws s own t ∧
      Exact K rank (L.fresh s) (L.fresh t) o (h a) own)
    (fun e t => ∃ w ∈ ws, ∃ u, run w u = .error e t)

section

variable {h : α → List ν} {p : EStateM τ σ α}

/-- A program without interludes. -/
theorem spends_of_owes (hp : Owes rank (Exact K rank) L (fun _ => True) o h p)
    (hends : Finishes p) : Spends K rank L run [] o h p := by
  intro s ho
  refine wp_mono (wp_and (hp s trivial ho) (hends s)) ?_ ?_
  · intro a t hat
    obtain ⟨⟨-, es, hes, hA⟩, -⟩ := hat
    exact ⟨es, .last hes, hA⟩
  · exact fun _ _ hstop => hstop.2.elim

theorem spends_pure {a : α} (ha : o.Perm (h a)) :
    Spends K rank L run [] o h (pure a : EStateM τ σ α) :=
  spends_of_owes ((account_exact K rank).owes_pure ha) (finishes_pure a)

/-- An interlude. -/
theorem spends_interlude {w : ω}
    (hw : ∀ s, wp (run w) s (fun _ t => L.fresh s ≤ L.fresh t) (fun _ _ => True)) :
    Spends K rank L run [w] o (fun _ => o) (run w) := by
  intro s ho
  refine wp_mono (wp_and (wp_self (run w) s) (hw s)) ?_ ?_
  · intro _ t ht
    obtain ⟨hrun, hle⟩ := ht
    refine ⟨[], .interlude (List.append_nil _).symm hrun (.last (List.append_nil _).symm), ?_⟩
    exact ((account_exact K rank).nil ho).widen hle
  · intro e t ht
    exact ⟨w, List.mem_singleton.mpr rfl, s, ht.1⟩

/-- One after the other. -/
theorem spends_bind {m : α → List ν} {h : β → List ν} {f : α → EStateM τ σ β}
    (hp : Spends K rank L run ws o m p) (hf : ∀ a, Spends K rank L run vs (m a) h (f a)) :
    Spends K rank L run (ws ++ vs) o h (p >>= f) := by
  intro s ho
  rw [wp_bind]
  refine wp_mono (hp s ho) ?_ ?_
  · intro a u hu
    obtain ⟨es, hown, hA⟩ := hu
    refine wp_mono (hf a u ((account_exact K rank).held ho hA)) ?_ ?_
    · intro b t ht
      obtain ⟨fs, hown', hA'⟩ := ht
      exact ⟨es ++ fs, hown.trans hown', hA.seq ho hA'⟩
    · intro e t ht
      obtain ⟨w, hw, herror⟩ := ht
      exact ⟨w, List.mem_append_right _ hw, herror⟩
  · intro e t ht
    obtain ⟨w, hw, herror⟩ := ht
    exact ⟨w, List.mem_append_left _ hw, herror⟩

/-- First a program without interludes. -/
theorem spends_bind_quiet {m : α → List ν} {h : β → List ν} {f : α → EStateM τ σ β}
    (hp : Spends K rank L run [] o m p) (hf : ∀ a, Spends K rank L run ws (m a) h (f a)) :
    Spends K rank L run ws o h (p >>= f) :=
  spends_bind hp hf

/-- Other names stay held. -/
theorem spends_frame (hp : Spends K rank L run ws o h p) :
    Spends K rank L run ws (o ++ x) (fun a => h a ++ x) p := by
  intro s ho
  refine wp_mono (hp s ho.left) ?_ (fun _ _ h => h)
  intro a t ht
  obtain ⟨own, hown, hA⟩ := ht
  exact ⟨own, hown, hA.frame⟩

/-- The order of names does not matter. -/
theorem spends_perm {o' : List ν} (hp : Spends K rank L run ws o h p) (ho : o'.Perm o) :
    Spends K rank L run ws o' h p := by
  intro s ho'
  refine wp_mono (hp s (ho'.perm ho)) ?_ (fun _ _ h => h)
  intro a t ht
  obtain ⟨own, hown, hA⟩ := ht
  exact ⟨own, hown, (account_exact K rank).perm ho.symm (.refl _) hA⟩

/-- First a program that needs nothing of what is held. -/
theorem spends_new {m : α → List ν} {h : β → List ν} {f : α → EStateM τ σ β}
    (hp : Spends K rank L run ws [] m p)
    (hf : ∀ a, Spends K rank L run vs (m a ++ held) h (f a)) :
    Spends K rank L run (ws ++ vs) held h (p >>= f) :=
  spends_bind (spends_frame hp) hf

/-- First a program without interludes that needs nothing of what is held. -/
theorem spends_new_quiet {m : α → List ν} {h : β → List ν} {f : α → EStateM τ σ β}
    (hp : Spends K rank L run [] [] m p)
    (hf : ∀ a, Spends K rank L run ws (m a ++ held) h (f a)) :
    Spends K rank L run ws held h (p >>= f) :=
  spends_new hp hf

/-- First a program without interludes that puts away what it needs. -/
theorem spends_drop {h : β → List ν} {f : α → EStateM τ σ β}
    (hp : Spends K rank L run [] o (fun _ => []) p) (hperm : held.Perm (o ++ x))
    (hf : ∀ a, Spends K rank L run ws x h (f a)) :
    Spends K rank L run ws held h (p >>= f) :=
  spends_bind_quiet (spends_perm (spends_frame hp) hperm) hf

end

end Ejr.Lib
