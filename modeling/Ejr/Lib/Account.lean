import Mathlib.Data.List.Count
import Mathlib.Data.List.Nodup
import Ejr.Lib.Wp

/-!
# Accounts of owned names

Programs take names into ownership and put them away again, and leave a log of
it. An account `A lo hi o h es` says of a piece of the log that it leads from
holding the names `o` to holding the names `h`, while names are given out from
rank `lo` up to rank `hi`. `Account` is what such a predicate needs to be
composed: it goes along sequences, and names that are held besides stay held.

Two accounts are given. `Exact` balances: every name is put away once for each
time it was held or taken, and is used only while it is held. `Loose` only says
that nothing held is put away more often than it was held; what is taken on the
way may be treated badly, or forgotten.

`Owes` carries an account through a program: from holding `o`, it ends holding
what `h` says of the value it returns, and an account holds of every part of a
run that is stopped.
-/

namespace Ejr.Lib

variable {ε ν : Type}

/-- The names are different, and have been given out. -/
def Held (rank : ν → Nat) (n : Nat) (o : List ν) : Prop := o.Nodup ∧ ∀ x ∈ o, rank x < n

theorem Held.nil (rank : ν → Nat) (n : Nat) : Held rank n [] :=
  ⟨List.nodup_nil, fun _ hx => nomatch hx⟩

theorem Held.perm {rank : ν → Nat} {n : Nat} {o o' : List ν} (h : Held rank n o)
    (hp : o.Perm o') : Held rank n o' :=
  ⟨hp.nodup_iff.mp h.1, fun x hx => h.2 x (hp.mem_iff.mpr hx)⟩

theorem Held.left {rank : ν → Nat} {n : Nat} {o x : List ν} (h : Held rank n (o ++ x)) :
    Held rank n o :=
  ⟨(List.nodup_append.mp h.1).1, fun y hy => h.2 y (List.mem_append_left _ hy)⟩

/-- What composes. -/
structure Account (rank : ν → Nat) (A : Nat → Nat → List ν → List ν → List ε → Prop) : Prop where
  le : ∀ {lo hi o h es}, A lo hi o h es → lo ≤ hi
  held : ∀ {lo hi o h es}, Held rank lo o → A lo hi o h es → Held rank hi h
  nil : ∀ {n o}, Held rank n o → A n n o o []
  seq : ∀ {lo mid hi o m h es fs}, Held rank lo o → A lo mid o m es → A mid hi m h fs →
    A lo hi o h (es ++ fs)
  frame : ∀ {lo hi o h x es}, Held rank lo (o ++ x) → A lo hi o h es →
    A lo hi (o ++ x) (h ++ x) es
  perm : ∀ {lo hi o o' h h' es}, o.Perm o' → h.Perm h' → A lo hi o h es → A lo hi o' h' es

/-! ## The exact account -/

/-- The part an event plays: a name it takes, puts away, or uses; and whether it
may happen at all. -/
structure Roles (ε ν : Type) where
  takes : ε → Option ν
  puts : ε → Option ν
  uses : ε → Option ν
  allowed : ε → Prop

section

variable [DecidableEq ν] {K : Roles ε ν} {rank : ν → Nat} {lo mid hi : Nat} {o m h x : List ν}
  {es fs : List ε}

/-- Names are put away as often as they are held or taken, less those that are
held in the end; new names are different and new, and a name is used only while
it is held. -/
structure Exact (K : Roles ε ν) (rank : ν → Nat) (lo hi : Nat) (o h : List ν) (es : List ε) :
    Prop where
  le : lo ≤ hi
  even : ∀ n, (es.filterMap K.puts).count n + h.count n =
    (es.filterMap K.takes).count n + o.count n
  new : (es.filterMap K.takes).Nodup
  range : ∀ n ∈ es.filterMap K.takes, lo ≤ rank n ∧ rank n < hi
  order : es.Pairwise fun e e' => ∀ n, K.puts e = some n → K.uses e' ≠ some n
  known : ∀ e ∈ es, ∀ n, K.uses e = some n → n ∈ o ∨ n ∈ es.filterMap K.takes
  allowed : ∀ e ∈ es, K.allowed e

/-- No name counts twice in what is held and taken. -/
theorem Exact.count_le_one (ho : Held rank lo o) (hA : Exact K rank lo hi o h es) (n : ν) :
    (es.filterMap K.takes).count n + o.count n ≤ 1 := by
  have hnew := List.nodup_iff_count_le_one.mp hA.new n
  have hold := List.nodup_iff_count_le_one.mp ho.1 n
  by_cases hn : n ∈ es.filterMap K.takes
  · have hnot : n ∉ o := fun h => absurd (ho.2 n h) (Nat.not_lt_of_le (hA.range n hn).1)
    rw [List.count_eq_zero.mpr hnot]
    omega
  · rw [List.count_eq_zero.mpr hn]
    omega

/-- A name that counts was held or taken. -/
theorem Exact.rank_lt (ho : Held rank lo o) (hA : Exact K rank lo hi o h es) {n : ν}
    (hn : 0 < (es.filterMap K.takes).count n + o.count n) : rank n < hi := by
  by_cases ht : n ∈ es.filterMap K.takes
  · exact (hA.range n ht).2
  · have hpos : 0 < o.count n := by
      rw [List.count_eq_zero.mpr ht] at hn
      omega
    exact Nat.lt_of_lt_of_le (ho.2 n (List.count_pos_iff.mp hpos)) hA.le

theorem Exact.held (ho : Held rank lo o) (hA : Exact K rank lo hi o h es) : Held rank hi h := by
  constructor
  · refine List.nodup_iff_count_le_one.mpr fun n => ?_
    have heven := hA.even n
    have hle := hA.count_le_one ho n
    omega
  · intro n hn
    have hpos := List.count_pos_iff.mpr hn
    have heven := hA.even n
    exact hA.rank_lt ho (by omega)

theorem Exact.seq (ho : Held rank lo o) (h1 : Exact K rank lo mid o m es)
    (h2 : Exact K rank mid hi m h fs) : Exact K rank lo hi o h (es ++ fs) where
  le := Nat.le_trans h1.le h2.le
  even n := by
    have e1 := h1.even n
    have e2 := h2.even n
    simp only [List.filterMap_append, List.count_append]
    omega
  new := by
    rw [List.filterMap_append]
    refine List.nodup_append.mpr ⟨h1.new, h2.new, ?_⟩
    -- the second part gives out later names than the first
    intro a ha b hb hab
    have hlt := (h1.range a ha).2
    have hge := (h2.range b hb).1
    rw [hab] at hlt
    omega
  range n hn := by
    rw [List.filterMap_append] at hn
    have l1 := h1.le
    have l2 := h2.le
    rcases List.mem_append.mp hn with hn | hn
    · have := h1.range n hn
      omega
    · have := h2.range n hn
      omega
  order := by
    refine List.pairwise_append.mpr ⟨h1.order, h2.order, ?_⟩
    intro e he e' he' n hput huse
    have hputs : 0 < (es.filterMap K.puts).count n :=
      List.count_pos_iff.mpr (List.mem_filterMap.mpr ⟨e, he, hput⟩)
    have heven := h1.even n
    rcases h2.known e' he' n huse with hm | ht
    · -- what has been put away is no longer held
      have hle := h1.count_le_one ho n
      have hpos := List.count_pos_iff.mpr hm
      omega
    · -- nor is it given out again
      have hlt := h1.rank_lt ho (n := n) (by omega)
      have hge := (h2.range n ht).1
      omega
  known e he n huse := by
    rw [List.filterMap_append]
    rcases List.mem_append.mp he with he | he
    · rcases h1.known e he n huse with h | h
      · exact .inl h
      · exact .inr (List.mem_append_left _ h)
    · rcases h2.known e he n huse with hm | ht
      · -- held in between: from the start, or taken by the first part
        have heven := h1.even n
        have hpos := List.count_pos_iff.mpr hm
        by_cases hno : n ∈ o
        · exact .inl hno
        · rw [List.count_eq_zero.mpr hno] at heven
          exact .inr (List.mem_append_left _ (List.count_pos_iff.mp (by omega)))
      · exact .inr (List.mem_append_right _ ht)
  allowed e he := (List.mem_append.mp he).elim (h1.allowed e) (h2.allowed e)

theorem Exact.frame (hA : Exact K rank lo hi o h es) :
    Exact K rank lo hi (o ++ x) (h ++ x) es where
  le := hA.le
  even n := by
    have heven := hA.even n
    simp only [List.count_append]
    omega
  new := hA.new
  range := hA.range
  order := hA.order
  known e he n huse := (hA.known e he n huse).imp_left (List.mem_append_left _)
  allowed := hA.allowed

theorem account_exact (K : Roles ε ν) (rank : ν → Nat) : Account rank (Exact K rank) where
  le hA := hA.le
  held ho hA := hA.held ho
  nil _ := ⟨Nat.le_refl _, fun _ => rfl, List.nodup_nil, (fun _ hn => nomatch hn), .nil,
    (fun _ he => nomatch he), (fun _ he => nomatch he)⟩
  seq := Exact.seq
  frame _ hA := hA.frame
  perm hpo hph hA := ⟨hA.le, fun n => by rw [← hpo.count_eq, ← hph.count_eq]; exact hA.even n,
    hA.new, hA.range, hA.order,
    fun e he n huse => (hA.known e he n huse).imp_left hpo.mem_iff.mp, hA.allowed⟩

/-- A log that leads from nothing to nothing puts every name away that it takes,
once, and no other. -/
theorem Exact.once (hA : Exact K rank lo hi [] [] es) (n : ν) :
    (es.filterMap K.puts).count n = (es.filterMap K.takes).count n ∧
      (es.filterMap K.puts).count n ≤ 1 := by
  have heven := hA.even n
  have hle := List.nodup_iff_count_le_one.mp hA.new n
  simp only [List.count_nil, Nat.add_zero] at heven
  omega

/-! ## The loose account -/

/-- What was held before, or is held in the end, is not put away more often than
it was held; what is put away has been given out. -/
structure Loose (puts : ε → Option ν) (rank : ν → Nat) (lo hi : Nat) (o h : List ν)
    (es : List ε) : Prop where
  le : lo ≤ hi
  given : ∀ n ∈ es.filterMap puts, rank n < hi
  below : ∀ n ∈ h, rank n < hi
  bound : ∀ n, rank n < lo ∨ n ∈ h →
    h.count n + (es.filterMap puts).count n ≤ o.count n + if lo ≤ rank n then 1 else 0

variable {puts : ε → Option ν}

theorem Loose.held (ho : Held rank lo o) (hA : Loose puts rank lo hi o h es) :
    Held rank hi h := by
  refine ⟨List.nodup_iff_count_le_one.mpr fun n => ?_, hA.below⟩
  by_cases hn : n ∈ h
  · have hbound := hA.bound n (.inr hn)
    have hold := List.nodup_iff_count_le_one.mp ho.1 n
    split at hbound
    next hrank =>
      have hnot : n ∉ o := fun h => absurd (ho.2 n h) (Nat.not_lt_of_le hrank)
      rw [List.count_eq_zero.mpr hnot] at hbound
      omega
    next => omega
  · rw [List.count_eq_zero.mpr hn]
    omega

theorem Loose.seq (h1 : Loose puts rank lo mid o m es) (h2 : Loose puts rank mid hi m h fs) :
    Loose puts rank lo hi o h (es ++ fs) := by
  have l1 := h1.le
  have l2 := h2.le
  constructor
  · omega
  · intro n hn
    rw [List.filterMap_append] at hn
    rcases List.mem_append.mp hn with hn | hn
    · have := h1.given n hn
      omega
    · exact h2.given n hn
  · exact h2.below
  · intro n hn
    rw [List.filterMap_append, List.count_append]
    by_cases hlo : rank n < lo
    · -- older than both parts: both bounds count
      have b1 := h1.bound n (.inl hlo)
      have b2 := h2.bound n (.inl (by omega))
      rw [if_neg (by omega)] at b1 b2 ⊢
      omega
    · have hmem : n ∈ h := hn.resolve_left hlo
      have hpos := List.count_pos_iff.mpr hmem
      have b2 := h2.bound n (.inr hmem)
      rw [if_pos (by omega)]
      by_cases hmid : mid ≤ rank n
      · -- given out by the second part: the first knows nothing of it
        have hm : n ∉ m := fun hm => absurd (h1.below n hm) (by omega)
        have hp : n ∉ es.filterMap puts := fun hp => absurd (h1.given n hp) (by omega)
        rw [if_pos hmid, List.count_eq_zero.mpr hm] at b2
        rw [List.count_eq_zero.mpr hp]
        omega
      · rw [if_neg hmid] at b2
        have b1 := h1.bound n (.inr (List.count_pos_iff.mp (by omega)))
        rw [if_pos (by omega)] at b1
        omega

theorem Loose.frame (ho : Held rank lo (o ++ x)) (hA : Loose puts rank lo hi o h es) :
    Loose puts rank lo hi (o ++ x) (h ++ x) es := by
  have hx : ∀ n ∈ x, rank n < lo := fun n hn => ho.2 n (List.mem_append_right _ hn)
  constructor
  · exact hA.le
  · exact hA.given
  · intro n hn
    rcases List.mem_append.mp hn with hn | hn
    · exact hA.below n hn
    · exact Nat.lt_of_lt_of_le (hx n hn) hA.le
  · intro n hn
    simp only [List.count_append]
    have hcase : rank n < lo ∨ n ∈ h := by
      rcases hn with hn | hn
      · exact .inl hn
      · exact (List.mem_append.mp hn).elim .inr fun hn => .inl (hx n hn)
    have hbound := hA.bound n hcase
    omega

theorem account_loose (puts : ε → Option ν) (rank : ν → Nat) : Account rank (Loose puts rank) where
  le hA := hA.le
  held ho hA := hA.held ho
  nil ho := ⟨Nat.le_refl _, (fun _ hn => nomatch hn), ho.2, fun n _ => by simp⟩
  seq _ := Loose.seq
  frame ho hA := hA.frame ho
  perm hpo hph hA := ⟨hA.le, hA.given, fun n hn => hA.below n (hph.mem_iff.mpr hn), fun n hn => by
    rw [← hpo.count_eq, ← hph.count_eq]
    exact hA.bound n (hn.imp_right hph.mem_iff.mpr)⟩

/-- A loose account may forget. -/
theorem Loose.forget (hA : Loose puts rank lo hi o h es) {h' : List ν} (hsub : h'.Subperm h) :
    Loose puts rank lo hi o h' es :=
  ⟨hA.le, hA.given, fun n hn => hA.below n (hsub.subset hn), fun n hn => by
    have hle := hsub.count_le n
    have hbound := hA.bound n (hn.imp_right fun hn => hsub.subset hn)
    omega⟩

/-- A loose account may leave names out that it did not know. -/
theorem loose_of_new (hle : lo ≤ hi) (hes : ∀ n ∈ es.filterMap puts, lo ≤ rank n ∧ rank n < hi) :
    Loose puts rank lo hi [] [] es where
  le := hle
  given n hn := (hes n hn).2
  below _ hn := nomatch hn
  bound n hn := by
    have hlt : rank n < lo := hn.resolve_right fun h => nomatch h
    have hnot : n ∉ es.filterMap puts := fun h => absurd (hes n h).1 (Nat.not_le_of_lt hlt)
    rw [List.count_eq_zero.mpr hnot]
    exact Nat.zero_le _

end

/-! ## Programs -/

/-- Where a state keeps its log, and the rank of the next name. -/
structure Log (σ ε : Type) where
  events : σ → List ε
  fresh : σ → Nat

variable {σ τ θ α β : Type} {rank : ν → Nat} {A : Nat → Nat → List ν → List ν → List ε → Prop}
  {L : Log σ ε} {I : σ → Prop}

/-- From `s` to `t` the log has grown by events that lead from `o` to `h`. -/
def Entry (A : Nat → Nat → List ν → List ν → List ε → Prop) (L : Log σ ε) (s : σ) (o : List ν)
    (t : σ) (h : List ν) : Prop :=
  ∃ es, L.events t = L.events s ++ es ∧ A (L.fresh s) (L.fresh t) o h es

/-- From `s` to `t` the log has grown by events that lead from `o` to something. -/
def Partial (A : Nat → Nat → List ν → List ν → List ε → Prop) (L : Log σ ε) (s : σ) (o : List ν)
    (t : σ) : Prop :=
  ∃ h, Entry A L s o t h

/-- From a state in `I`, holding `o`, the program ends in such a state, holding
what `h` says of the value it returns; where it is stopped, the account holds up
to there. -/
def Owes (rank : ν → Nat) (A : Nat → Nat → List ν → List ν → List ε → Prop) (L : Log σ ε)
    (I : σ → Prop) (o : List ν) (h : α → List ν) (p : EStateM τ σ α) : Prop :=
  ∀ s, I s → Held rank (L.fresh s) o →
    wp p s (fun a t => I t ∧ Entry A L s o t (h a)) (fun _ t => Partial A L s o t)

section

variable (hA : Account rank A)

include hA

theorem Account.entry_refl (s : σ) {o : List ν} (ho : Held rank (L.fresh s) o) :
    Entry A L s o s o :=
  ⟨[], (List.append_nil _).symm, hA.nil ho⟩

theorem Account.entry_trans {s t u : σ} {o m h : List ν} (ho : Held rank (L.fresh s) o)
    (h1 : Entry A L s o t m) (h2 : Entry A L t m u h) : Entry A L s o u h := by
  obtain ⟨es, hes, h1⟩ := h1
  obtain ⟨fs, hfs, h2⟩ := h2
  exact ⟨es ++ fs, by rw [hfs, hes, List.append_assoc], hA.seq ho h1 h2⟩

theorem Account.entry_held {s t : σ} {o h : List ν} (ho : Held rank (L.fresh s) o)
    (h1 : Entry A L s o t h) : Held rank (L.fresh t) h := by
  obtain ⟨es, -, h1⟩ := h1
  exact hA.held ho h1

theorem Account.owes_pure {o : List ν} {h : α → List ν} {a : α} (ha : o.Perm (h a)) :
    Owes rank A L I o h (pure a : EStateM τ σ α) := by
  intro s hs ho
  obtain ⟨es, hes, hnil⟩ := hA.entry_refl (L := L) s ho
  exact ⟨hs, es, hes, hA.perm (.refl o) ha hnil⟩

theorem Account.owes_throw {o : List ν} {h : α → List ν} {e : τ} :
    Owes rank A L I o h (throw e : EStateM τ σ α) :=
  fun s _ ho => ⟨o, hA.entry_refl s ho⟩

theorem Account.owes_get {o : List ν} : Owes rank A L I o (fun _ => o) (get : EStateM τ σ σ) :=
  fun s hs ho => ⟨hs, hA.entry_refl s ho⟩

/-- One after the other; the second may count on what is known of the first's
values. -/
theorem Account.owes_bind_of {V : α → Prop} {o : List ν} {m : α → List ν} {h : β → List ν}
    {p : EStateM τ σ α} {f : α → EStateM τ σ β} (hp : Owes rank A L I o m p)
    (hV : ∀ s, I s → wp p s (fun a _ => V a) (fun _ _ => True))
    (hf : ∀ a, V a → Owes rank A L I (m a) h (f a)) : Owes rank A L I o h (p >>= f) := by
  intro s hs ho
  rw [wp_bind]
  refine wp_mono (wp_and (hp s hs ho) (hV s hs)) ?_ (fun _ _ h => h.1)
  intro a t ha
  obtain ⟨⟨ht, h1⟩, hVa⟩ := ha
  refine wp_mono (hf a hVa t ht (hA.entry_held ho h1)) ?_ ?_
  · intro b u hb
    exact ⟨hb.1, hA.entry_trans ho h1 hb.2⟩
  · intro _ u hu
    obtain ⟨k, h2⟩ := hu
    exact ⟨k, hA.entry_trans ho h1 h2⟩

/-- One after the other. -/
theorem Account.owes_bind {o : List ν} {m : α → List ν} {h : β → List ν} {p : EStateM τ σ α}
    {f : α → EStateM τ σ β} (hp : Owes rank A L I o m p)
    (hf : ∀ a, Owes rank A L I (m a) h (f a)) : Owes rank A L I o h (p >>= f) :=
  hA.owes_bind_of (V := fun _ => True) hp
    (fun _ _ => wp_mono wp_true (fun _ _ h => h) (fun _ _ h => h)) fun a _ => hf a

/-- Other names stay held. -/
theorem Account.owes_frame {o x : List ν} {h : α → List ν} {p : EStateM τ σ α}
    (hp : Owes rank A L I o h p) : Owes rank A L I (o ++ x) (fun a => h a ++ x) p := by
  intro s hs ho
  refine wp_mono (hp s hs ho.left) ?_ ?_
  · intro a t ha
    obtain ⟨ht, es, hes, h1⟩ := ha
    exact ⟨ht, es, hes, hA.frame ho h1⟩
  · intro _ t ht
    obtain ⟨k, es, hes, h1⟩ := ht
    exact ⟨k ++ x, es, hes, hA.frame ho h1⟩

/-- The order of names does not matter. -/
theorem Account.owes_perm {o o' : List ν} {h h' : α → List ν} {p : EStateM τ σ α}
    (hp : Owes rank A L I o h p) (ho : o.Perm o') (hh : ∀ a, (h a).Perm (h' a)) :
    Owes rank A L I o' h' p := by
  intro s hs ho'
  refine wp_mono (hp s hs (ho'.perm ho.symm)) ?_ ?_
  · intro a t ha
    obtain ⟨ht, es, hes, h1⟩ := ha
    exact ⟨ht, es, hes, hA.perm ho (hh a) h1⟩
  · intro _ t ht
    obtain ⟨k, es, hes, h1⟩ := ht
    exact ⟨k, es, hes, hA.perm ho (.refl k) h1⟩

/-- First a program that needs `o` of what is held; the rest `x` stays held. -/
theorem Account.owes_seq_of {V : α → Prop} {o x held : List ν} {m : α → List ν} {h : β → List ν}
    {p : EStateM τ σ α} {f : α → EStateM τ σ β} (hp : Owes rank A L I o m p)
    (hV : ∀ s, I s → wp p s (fun a _ => V a) (fun _ _ => True)) (hperm : held.Perm (o ++ x))
    (hf : ∀ a, V a → Owes rank A L I (m a ++ x) h (f a)) : Owes rank A L I held h (p >>= f) :=
  hA.owes_bind_of (hA.owes_perm (hA.owes_frame hp) hperm.symm fun _ => .refl _) hV hf

theorem Account.owes_seq {o x held : List ν} {m : α → List ν} {h : β → List ν}
    {p : EStateM τ σ α} {f : α → EStateM τ σ β} (hp : Owes rank A L I o m p)
    (hperm : held.Perm (o ++ x)) (hf : ∀ a, Owes rank A L I (m a ++ x) h (f a)) :
    Owes rank A L I held h (p >>= f) :=
  hA.owes_bind (hA.owes_perm (hA.owes_frame hp) hperm.symm fun _ => .refl _) hf

/-- A program that puts away what it needs, and the rest `x`. -/
theorem Account.owes_release {o x held : List ν} {p : EStateM τ σ α}
    (hp : Owes rank A L I o (fun _ => []) p) (hperm : held.Perm (o ++ x)) :
    Owes rank A L I held (fun _ => x) p :=
  hA.owes_perm (hA.owes_frame hp) hperm.symm fun _ => .refl x

/-- First a program that puts away what it needs. -/
theorem Account.owes_drop {o x held : List ν} {h : β → List ν}
    {p : EStateM τ σ α} {f : α → EStateM τ σ β} (hp : Owes rank A L I o (fun _ => []) p)
    (hperm : held.Perm (o ++ x)) (hf : ∀ a, Owes rank A L I x h (f a)) :
    Owes rank A L I held h (p >>= f) :=
  hA.owes_bind (hA.owes_release hp hperm) hf

/-- First a program that needs nothing of what is held. -/
theorem Account.owes_new {held : List ν} {m : α → List ν} {h : β → List ν}
    {p : EStateM τ σ α} {f : α → EStateM τ σ β} (hp : Owes rank A L I [] m p)
    (hf : ∀ a, Owes rank A L I (m a ++ held) h (f a)) : Owes rank A L I held h (p >>= f) :=
  hA.owes_seq hp (.refl held) hf

omit hA in
/-- With a loose account, less may be held in the end. -/
theorem owes_forget [DecidableEq ν] {puts : ε → Option ν} {o : List ν} {h : α → List ν} {a : α}
    (hsub : (h a).Subperm o) :
    Owes rank (Loose puts rank) L I o h (pure a : EStateM τ σ α) := by
  intro s hs ho
  obtain ⟨es, hes, hnil⟩ := (account_loose puts rank).entry_refl (L := L) s ho
  exact ⟨hs, es, hes, hnil.forget hsub⟩

end

end Ejr.Lib
