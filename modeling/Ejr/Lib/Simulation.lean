import Ejr.Lib.Wp

/-!
# Programs that follow other programs

A program `p` on a large state follows a program `q` on a part of it when `q`, run
on that part, ends as `p` does: with the same value and in the same part, or with the
same stop (`Follows`). What else stops `p` is nothing that `q` knows of, and is not
compared.

`Follows` composes along `bind`, with what the first part has come to in hand, so a
program follows another one when its parts do.
-/

namespace Ejr.Lib

variable {ε δ σ τ α β : Type} {view : σ → τ} {stop : δ → ε} {s t : σ}

/-- From `s` on, `p` ends as `q` does on what `view` shows of `s`. -/
def Follows (view : σ → τ) (stop : δ → ε) (p : EStateM ε σ α) (q : EStateM δ τ α) (s : σ) : Prop :=
  wp p s (fun a t => q (view s) = .ok a (view t))
    (fun e t => ∀ d, e = stop d → q (view s) = .error d (view t))

/-- A run of `p` that comes to an end is one of `q`. -/
theorem Follows.ok {p : EStateM ε σ α} {q : EStateM δ τ α} {a : α} (h : Follows view stop p q s)
    (hp : p s = .ok a t) : q (view s) = .ok a (view t) :=
  (wp_iff_of_ok hp).mp h

theorem follows_pure (a : α) : Follows view stop (pure a) (pure a) s := rfl

theorem follows_modify {f : σ → σ} {g : τ → τ} (h : view (f s) = g (view s)) :
    Follows view stop (modify f) (modify g) s := by
  show EStateM.Result.ok _ (g (view s)) = .ok _ (view (f s))
  rw [h]

theorem follows_get {f : σ → EStateM ε σ α} {g : τ → EStateM δ τ α}
    (h : Follows view stop (f s) (g (view s)) s) : Follows view stop (get >>= f) (get >>= g) s := h

theorem Follows.bind {p : EStateM ε σ α} {q : EStateM δ τ α} {f : α → EStateM ε σ β}
    {g : α → EStateM δ τ β} (hp : Follows view stop p q s)
    (hf : ∀ a t, p s = .ok a t → Follows view stop (f a) (g a) t) :
    Follows view stop (p >>= f) (q >>= g) s := by
  unfold Follows at hp ⊢
  rw [wp_bind]
  refine wp_mono (wp_and (wp_self p s) hp) ?_ ?_
  · intro a t h
    obtain ⟨hrun, hq⟩ := h
    rw [bind_of_ok hq]
    exact hf a t hrun
  · intro e t h d hd
    exact bind_of_error (h.2 d hd)

end Ejr.Lib
