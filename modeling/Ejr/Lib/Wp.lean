/-!
# Weakest preconditions of programs that may stop

The modelled functions are `EStateM` programs: they run on a state, and end
either with a value (`ok`) or stopped part of the way (`error`), where the
state they had reached is kept. `wp p s Q X` says what a run of `p` from `s`
ends with: `Q` of the value and the final state when it finishes, `X` of the
reason and the state reached when it stops.

One rule per program former (`wp_pure`, `wp_bind`, `wp_throw`, the state
operations) turns the claim about a program into a claim about its steps;
`wp_mono` weakens the two ends. A fact that has to hold however the run ends,
as a relation between the first state and the last, is `Keeps`; it composes
along `bind` without mention of a state (`keeps_bind`), which is how a frame
condition goes through a whole function.
-/

namespace Ejr.Lib

variable {ε σ α β : Type}

/-- Run from `s`, `p` ends with a value and a state in `Q`, or is stopped
with a reason and a state in `X`. -/
def wp (p : EStateM ε σ α) (s : σ) (Q : α → σ → Prop) (X : ε → σ → Prop) : Prop :=
  match p s with
  | .ok a s' => Q a s'
  | .error e s' => X e s'

/-! ## One rule per program former -/

@[simp] theorem wp_pure {a : α} {s : σ} {Q : α → σ → Prop} {X : ε → σ → Prop} :
    wp (pure a) s Q X ↔ Q a s := Iff.rfl

/-- Sequencing: what the rest needs is what the first part has to end with. -/
@[simp] theorem wp_bind {p : EStateM ε σ α} {f : α → EStateM ε σ β} {s : σ}
    {Q : β → σ → Prop} {X : ε → σ → Prop} :
    wp (p >>= f) s Q X ↔ wp p s (fun a s' => wp (f a) s' Q X) X := by
  show wp (EStateM.bind p f) s Q X ↔ _
  unfold wp EStateM.bind
  cases p s <;> rfl

@[simp] theorem wp_map {p : EStateM ε σ α} {f : α → β} {s : σ} {Q : β → σ → Prop}
    {X : ε → σ → Prop} : wp (f <$> p) s Q X ↔ wp p s (fun a s' => Q (f a) s') X := by
  show wp (EStateM.map f p) s Q X ↔ _
  unfold wp EStateM.map
  cases p s <;> rfl

theorem wp_ite {c : Prop} [Decidable c] {p q : EStateM ε σ α} {s : σ} {Q : α → σ → Prop}
    {X : ε → σ → Prop} :
    wp (if c then p else q) s Q X ↔ if c then wp p s Q X else wp q s Q X := by
  split <;> rfl

@[simp] theorem wp_throw {e : ε} {s : σ} {Q : α → σ → Prop} {X : ε → σ → Prop} :
    wp (throw e : EStateM ε σ α) s Q X ↔ X e s := Iff.rfl

@[simp] theorem wp_get {s : σ} {Q : σ → σ → Prop} {X : ε → σ → Prop} :
    wp (get : EStateM ε σ σ) s Q X ↔ Q s s := Iff.rfl

@[simp] theorem wp_set {s t : σ} {Q : PUnit → σ → Prop} {X : ε → σ → Prop} :
    wp (set t : EStateM ε σ PUnit) s Q X ↔ Q ⟨⟩ t := Iff.rfl

@[simp] theorem wp_modify {f : σ → σ} {s : σ} {Q : PUnit → σ → Prop} {X : ε → σ → Prop} :
    wp (modify f : EStateM ε σ PUnit) s Q X ↔ Q ⟨⟩ (f s) := Iff.rfl

/-- Weaker ends. -/
theorem wp_mono {p : EStateM ε σ α} {s : σ} {Q Q' : α → σ → Prop} {X X' : ε → σ → Prop}
    (h : wp p s Q X) (hQ : ∀ a s', Q a s' → Q' a s') (hX : ∀ e s', X e s' → X' e s') :
    wp p s Q' X' := by
  unfold wp at h ⊢
  cases hp : p s with
  | ok a s' => rw [hp] at h; exact hQ a s' h
  | error e s' => rw [hp] at h; exact hX e s' h

/-- Every run ends somewhere. -/
theorem wp_true {p : EStateM ε σ α} {s : σ} : wp p s (fun _ _ => True) (fun _ _ => True) := by
  unfold wp
  split <;> trivial

/-- Two facts about one run. -/
theorem wp_and {p : EStateM ε σ α} {s : σ} {Q Q' : α → σ → Prop} {X X' : ε → σ → Prop}
    (h : wp p s Q X) (h' : wp p s Q' X') :
    wp p s (fun a t => Q a t ∧ Q' a t) (fun e t => X e t ∧ X' e t) := by
  unfold wp at h h' ⊢
  cases hp : p s with
  | ok a s' => rw [hp] at h h'; exact ⟨h, h'⟩
  | error e s' => rw [hp] at h h'; exact ⟨h, h'⟩

/-- What a finished run ended with. -/
theorem wp_of_ok {p : EStateM ε σ α} {s s' : σ} {a : α} {Q : α → σ → Prop}
    {X : ε → σ → Prop} (h : wp p s Q X) (hp : p s = .ok a s') : Q a s' := by
  unfold wp at h
  rw [hp] at h
  exact h

/-- What a stopped run had reached. -/
theorem wp_of_error {p : EStateM ε σ α} {s s' : σ} {e : ε} {Q : α → σ → Prop}
    {X : ε → σ → Prop} (h : wp p s Q X) (hp : p s = .error e s') : X e s' := by
  unfold wp at h
  rw [hp] at h
  exact h

/-- How a run ends. -/
theorem wp_self (p : EStateM ε σ α) (s : σ) :
    wp p s (fun a t => p s = .ok a t) (fun e t => p s = .error e t) := by
  unfold wp
  cases p s <;> rfl

/-- A run that cannot stop finishes. -/
theorem exists_ok_of_wp {p : EStateM ε σ α} {s : σ} {Q : α → σ → Prop}
    (h : wp p s Q fun _ _ => False) : ∃ a s', p s = .ok a s' ∧ Q a s' := by
  unfold wp at h
  cases hp : p s with
  | ok a s' => rw [hp] at h; exact ⟨a, s', rfl, h⟩
  | error e s' => rw [hp] at h; exact h.elim

/-- A run, from the one end it can have. -/
theorem ok_of_wp {p : EStateM ε σ α} {s u : σ} {b : α}
    (h : wp p s (fun a t => a = b ∧ t = u) fun _ _ => False) : p s = .ok b u := by
  obtain ⟨a, t, hok, rfl, rfl⟩ := exists_ok_of_wp h
  exact hok

/-- A finished run, as a weakest precondition. -/
theorem wp_iff_of_ok {p : EStateM ε σ α} {s s' : σ} {a : α} {Q : α → σ → Prop}
    {X : ε → σ → Prop} (hp : p s = .ok a s') : wp p s Q X ↔ Q a s' := by
  unfold wp
  rw [hp]

/-- A stopped run, as a weakest precondition. -/
theorem wp_iff_of_error {p : EStateM ε σ α} {s s' : σ} {e : ε} {Q : α → σ → Prop}
    {X : ε → σ → Prop} (hp : p s = .error e s') : wp p s Q X ↔ X e s' := by
  unfold wp
  rw [hp]

/-- The second part of a finished sequence ran from where the first ended. -/
theorem bind_eq_ok {p : EStateM ε σ α} {f : α → EStateM ε σ β} {s s'' : σ} {b : β}
    (h : (p >>= f) s = .ok b s'') : ∃ a s', p s = .ok a s' ∧ f a s' = .ok b s'' := by
  have h' : EStateM.bind p f s = .ok b s'' := h
  unfold EStateM.bind at h'
  cases hp : p s with
  | ok a s' => rw [hp] at h'; exact ⟨a, s', rfl, h'⟩
  | error e s' => rw [hp] at h'; exact absurd h' (by simp)

/-- The second part runs from where the first has ended. -/
theorem bind_of_ok {p : EStateM ε σ α} {f : α → EStateM ε σ β} {s s' : σ} {a : α}
    (h : p s = .ok a s') : (p >>= f) s = f a s' := by
  show EStateM.bind p f s = f a s'
  unfold EStateM.bind
  rw [h]

/-- A sequence stops where its first part does. -/
theorem bind_of_error {p : EStateM ε σ α} {f : α → EStateM ε σ β} {s s' : σ} {e : ε}
    (h : p s = .error e s') : (p >>= f) s = .error e s' := by
  show EStateM.bind p f s = .error e s'
  unfold EStateM.bind
  rw [h]

/-- The state is read. -/
theorem get_bind_eq {f : σ → EStateM ε σ β} {s : σ} : ((get : EStateM ε σ σ) >>= f) s = f s s := rfl

/-- Runs that come to the same. -/
theorem wp_congr {p q : EStateM ε σ α} {s t : σ} {Q : α → σ → Prop} {X : ε → σ → Prop}
    (h : p s = q t) : wp p s Q X ↔ wp q t Q X := by
  unfold wp
  rw [h]

/-- A sequence depends on its first part by what that comes to. -/
theorem bind_congr_left {p q : EStateM ε σ α} {f : α → EStateM ε σ β} {s : σ} (h : p s = q s) :
    (p >>= f) s = (q >>= f) s := by
  show EStateM.bind p f s = EStateM.bind q f s
  unfold EStateM.bind
  rw [h]

/-! ## Facts that hold however the run ends -/

/-- However a run of `p` from a state in `G` ends, the state it has reached is
related to the first by `R`, and the value it has returned, if any, is in `V`. -/
def Keeps (R : σ → σ → Prop) (G : σ → Prop) (V : α → Prop) (p : EStateM ε σ α) : Prop :=
  ∀ s, G s → wp p s (fun a t => R s t ∧ V a) (fun _ t => R s t)

/-- What `Keeps` needs to go through whole programs. -/
structure Framing (R : σ → σ → Prop) (G : σ → Prop) : Prop where
  refl : ∀ s, R s s
  trans : ∀ s t u, R s t → R t u → R s u
  stable : ∀ s t, G s → R s t → G t

section

variable {R : σ → σ → Prop} {G : σ → Prop} {V : α → Prop} {W : β → Prop}

theorem keeps_pure (hR : Framing R G) {a : α} (hV : V a) :
    Keeps R G V (pure a : EStateM ε σ α) :=
  fun s _ => ⟨hR.refl s, hV⟩

theorem keeps_throw (hR : Framing R G) {e : ε} : Keeps R G V (throw e : EStateM ε σ α) :=
  fun s _ => hR.refl s

theorem keeps_get (hR : Framing R G) : Keeps R G (fun _ => True) (get : EStateM ε σ σ) :=
  fun s _ => ⟨hR.refl s, trivial⟩

/-- A program that changes the state along `R`. -/
theorem keeps_modify {f : σ → σ} (h : ∀ s, G s → R s (f s)) :
    Keeps R G (fun _ => True) (modify f : EStateM ε σ PUnit) :=
  fun s hs => ⟨h s hs, trivial⟩

/-- Sequences keep what their parts keep. -/
theorem keeps_bind (hR : Framing R G) {p : EStateM ε σ α} {f : α → EStateM ε σ β}
    (hp : Keeps R G V p) (hf : ∀ a, V a → Keeps R G W (f a)) : Keeps R G W (p >>= f) := by
  intro s hs
  rw [wp_bind]
  refine wp_mono (hp s hs) ?_ (fun _ _ h => h)
  intro a t ht
  obtain ⟨hst, ha⟩ := ht
  refine wp_mono (hf a ha t (hR.stable s t hs hst)) ?_ ?_
  · intro b u hu
    obtain ⟨htu, hb⟩ := hu
    exact ⟨hR.trans s t u hst htu, hb⟩
  · intro e u htu
    exact hR.trans s t u hst htu

end

/-! ## Programs that change nothing -/

/-- However it ends, the state is as it was. -/
def ReadOnly (p : EStateM ε σ α) : Prop :=
  Keeps (fun s t => t = s) (fun _ => True) (fun _ => True) p

theorem framing_eq : Framing (fun s t : σ => t = s) fun _ => True where
  refl _ := rfl
  trans _ _ _ h h' := h'.trans h
  stable _ _ _ _ := trivial

theorem readOnly_pure (a : α) : ReadOnly (pure a : EStateM ε σ α) := keeps_pure framing_eq trivial

theorem readOnly_throw (e : ε) : ReadOnly (throw e : EStateM ε σ α) := keeps_throw framing_eq

theorem readOnly_bind {p : EStateM ε σ α} {f : α → EStateM ε σ β} (hp : ReadOnly p)
    (hf : ∀ a, ReadOnly (f a)) : ReadOnly (p >>= f) :=
  keeps_bind framing_eq hp fun a _ => hf a

/-- The two ways it can end. -/
theorem ReadOnly.run {p : EStateM ε σ α} (hp : ReadOnly p) (s : σ) :
    (∃ a, p s = .ok a s) ∨ ∃ e, p s = .error e s := by
  have h := hp s trivial
  unfold wp at h
  cases hps : p s with
  | ok a t =>
    rw [hps] at h
    obtain ⟨rfl, -⟩ := h
    exact .inl ⟨a, rfl⟩
  | error e t =>
    rw [hps] at h
    obtain rfl := h
    exact .inr ⟨e, rfl⟩

/-! ## Programs that always finish -/

/-- From every state the program finishes. -/
def Finishes (p : EStateM ε σ α) : Prop := ∀ s, wp p s (fun _ _ => True) (fun _ _ => False)

theorem finishes_pure (a : α) : Finishes (pure a : EStateM ε σ α) := fun _ => trivial

theorem finishes_bind {p : EStateM ε σ α} {f : α → EStateM ε σ β} (hp : Finishes p)
    (hf : ∀ a, Finishes (f a)) : Finishes (p >>= f) := by
  intro s
  rw [wp_bind]
  exact wp_mono (hp s) (fun a t _ => hf a t) (fun _ _ h => h)

end Ejr.Lib
