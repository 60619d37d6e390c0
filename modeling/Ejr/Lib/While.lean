import Ejr.Lib.Wp

/-!
# While loops

`whileLoop` is `while (cond) body` over the variable the loop changes. It is
given a number of turns; one that needs more is stopped. `wp_whileLoop` is the
rule of total correctness: an invariant that each turn keeps, and a number that
goes down with each, so that there are turns enough.
-/

namespace Ejr.Lib

variable {ε σ α : Type}

/-- `while (cond(a)) a = body(a)`, stopped with `out` when it has used up its
turns. -/
def whileLoop (out : ε) (cond : α → EStateM ε σ Bool) (body : α → EStateM ε σ α) :
    Nat → α → EStateM ε σ α
  | 0, _ => throw out
  | n + 1, a => do
    if ← cond a then
      let b ← body a
      whileLoop out cond body n b
    else pure a

section

variable {out : ε} {cond : α → EStateM ε σ Bool} {body : α → EStateM ε σ α} {a : α} {s : σ}
  {Q : α → σ → Prop} {X : ε → σ → Prop}

/-- One turn, and the rest. -/
theorem wp_whileLoop_succ {n : Nat} : wp (whileLoop out cond body (n + 1) a) s Q X ↔
    wp (cond a) s (fun c t => if c = true then
      wp (body a) t (fun b u => wp (whileLoop out cond body n b) u Q X) X else Q a t) X := by
  simp only [whileLoop, wp_bind, wp_ite, wp_pure]

/-- **The rule**: `I` holds whenever the condition is tested, `V` goes down. -/
theorem wp_whileLoop {I : α → σ → Prop} {V : α → Nat}
    (hturn : ∀ a s, I a s → wp (cond a) s (fun c t => if c = true then
      wp (body a) t (fun b u => I b u ∧ V b < V a) X else Q a t) X) :
    ∀ {n : Nat} {a : α} {s : σ}, V a < n → I a s → wp (whileLoop out cond body n a) s Q X
  | 0, _, _, hV, _ => absurd hV (Nat.not_lt_zero _)
  | n + 1, a, s, hV, hI => by
    rw [wp_whileLoop_succ]
    refine wp_mono (hturn a s hI) (fun c t ht => ?_) fun _ _ h => h
    split
    next hc =>
      rw [if_pos hc] at ht
      refine wp_mono ht (fun b u hu => ?_) fun _ _ h => h
      exact wp_whileLoop hturn (Nat.lt_of_lt_of_le hu.2 (Nat.le_of_lt_succ hV)) hu.1
    next hc =>
      rw [if_neg hc] at ht
      exact ht

end

end Ejr.Lib
