import Ejr.CApi.Effects

/-!
# Ids

`next_id` counts the values a handle has stored; it is a 32-bit `int`, and no id
is used again (`Counts`). So the ids are different and not negative exactly as
long as no more than 2^31 values are stored over the life of the handle,
freed or not (`ids_fresh_iff`): the next one is -2^31, and 2^32 values later
the ids of live values come up again.
-/

namespace Ejr

open Lib

variable {Cb : Type}

/-- On an open handle, `next_id` is the number of values stored, and every live
id has been `next_id` before. -/
structure Counts (s : Handle Cb) : Prop where
  next : s.closed = false → s.jsvad.nextId = Int32.ofNat s.stored.length
  live : ∀ id v, s.jsvad.find? id = some v → ∃ k < s.stored.length, id = Int32.ofNat k

theorem counts_new (self : UInt64) (heap : Heap) (global : Addr) :
    Counts (.new self heap global : Handle Cb) where
  next _ := rfl
  live _ _ h := nomatch h

/-- The table and the count are the same. -/
theorem Counts.congr {s t : Handle Cb} (h : Counts s) (hclosed : t.closed = s.closed)
    (hjsvad : t.jsvad = s.jsvad) (hstored : t.stored = s.stored) : Counts t := by
  constructor
  · rw [hclosed, hjsvad, hstored]
    exact h.next
  · rw [hjsvad, hstored]
    exact h.live

/-- One call. -/
theorem Counts.step {s t : Handle Cb} {l : Call Cb} (h : Counts s) (hstep : Handle.step s l t) :
    Counts t := by
  obtain ⟨hopen, hrun⟩ := hstep
  have htouch := wp_of_ok (l.touches s) hrun
  cases htouch with
  | apart hapart ha => exact h.congr hapart.closed hapart.jsvad hapart.stored
  | read id ha hjsvad hclosed hstored hraised hread => exact h.congr hclosed hjsvad hstored
  | stored value thrown hjsvad hclosed hstored hraised hread =>
    -- the new id is the number of values stored before
    have hnext := h.next hopen
    constructor
    · intro _
      rw [hjsvad, hstored, List.length_append, Int32.ofNat_add]
      show s.jsvad.nextId + 1 = _
      rw [hnext]
      rfl
    · intro id v hid
      rw [hstored, List.length_append]
      rw [hjsvad, JSValueAD.find?_addValue] at hid
      by_cases he : id = s.jsvad.nextId
      · exact ⟨s.stored.length, Nat.lt_succ_self _, he.trans hnext⟩
      · rw [if_neg he] at hid
        obtain ⟨k, hk, hid⟩ := h.live id v hid
        exact ⟨k, Nat.lt_succ_of_lt hk, hid⟩
  | freed id hjsvad hclosed hstored hraised hread =>
    constructor
    · rw [hclosed, hjsvad, hstored]
      exact h.next
    · intro id' v hid'
      rw [hstored]
      rw [hjsvad, JSValueAD.find?_freeValue] at hid'
      split at hid'
      next => exact nomatch hid'
      next => exact h.live id' v hid'
  | closed hjsvad hclosed hstored hraised hread =>
    -- the counter starts again, but the handle is gone
    constructor
    · intro hopen'
      rw [hclosed] at hopen'
      exact nomatch hopen'
    · intro id v hid
      rw [hjsvad, JSValueAD.find?_free] at hid
      exact nomatch hid

/-! ## Fresh ids -/

/-- If the call stores a value, the id it returns is not negative, and not
live. -/
def IdFresh (s : Handle Cb) (l : Call Cb) : Prop :=
  ∀ i t, l.run s = .ok (.id i) t → t.stored ≠ s.stored → 0 ≤ i ∧ s.jsvad.find? i = none

theorem toInt_ofNat_nonneg_iff {n : Nat} (h : n ≤ 2 ^ 31) : 0 ≤ Int32.ofNat n ↔ n < 2 ^ 31 := by
  constructor
  · intro hle
    refine Nat.lt_of_le_of_ne h fun he => ?_
    rw [he] at hle
    exact absurd hle (by decide)
  · intro hlt
    rw [Int32.le_iff_toInt_le, Int32.toInt_ofNat_of_lt hlt]
    exact Int.natCast_nonneg n

/-- The first 2^31 ids are different. -/
theorem ofNat_ne_ofNat {k n : Nat} (hkn : k < n) (hn : n < 2 ^ 31) :
    Int32.ofNat k ≠ Int32.ofNat n := by
  intro he
  have h := congrArg Int32.toInt he
  rw [Int32.toInt_ofNat_of_lt hn, Int32.toInt_ofNat_of_lt (Nat.lt_trans hkn hn)] at h
  omega

/-- A call stores one value, under `next_id`, or none. -/
theorem stored_of_step {s t : Handle Cb} {l : Call Cb} (hstep : Handle.step s l t) :
    t.stored = s.stored ∨
      t.stored.length = s.stored.length + 1 ∧ l.run s = .ok (.id s.jsvad.nextId) t := by
  obtain ⟨-, hrun⟩ := hstep
  have htouch := wp_of_ok (l.touches s) hrun
  cases htouch with
  | apart hapart ha => exact .inl hapart.stored
  | read id ha hjsvad hclosed hstored hraised hread => exact .inl hstored
  | stored value thrown hjsvad hclosed hstored hraised hread =>
    exact .inr ⟨by rw [hstored, List.length_append]; rfl, hrun⟩
  | freed id hjsvad hclosed hstored hraised hread => exact .inl hstored
  | closed hjsvad hclosed hstored hraised hread => exact .inl hstored

theorem length_stored_le {s t : Handle Cb} {ls : List (Call Cb)}
    (h : Run Handle.step s ls t) : s.stored.length ≤ t.stored.length := by
  induction h with
  | nil s => exact Nat.le_refl _
  | cons hstep _ ih =>
    rcases stored_of_step hstep with heq | ⟨hlen, -⟩
    · rw [← heq]
      exact ih
    · omega

/-- The next id, below the limit. -/
theorem Counts.nextId_fresh {s : Handle Cb} (h : Counts s) (hopen : s.closed = false)
    (hn : s.stored.length < 2 ^ 31) :
    0 ≤ s.jsvad.nextId ∧ s.jsvad.find? s.jsvad.nextId = none := by
  rw [h.next hopen]
  refine ⟨(toInt_ofNat_nonneg_iff (Nat.le_of_lt hn)).mpr hn, ?_⟩
  cases hf : s.jsvad.find? (Int32.ofNat s.stored.length) with
  | none => rfl
  | some v =>
    obtain ⟨k, hk, he⟩ := h.live _ v hf
    exact absurd he.symm (ofNat_ne_ofNat hk hn)

/-- Below the limit every id is fresh. -/
theorem along_idFresh {s t : Handle Cb} {ls : List (Call Cb)} (h : Run Handle.step s ls t)
    (hs : Counts s) (ht : t.stored.length ≤ 2 ^ 31) : Along Handle.step IdFresh s ls t := by
  induction h with
  | nil s => exact .nil s
  | @cons s m t l ls hstep hrest ih =>
    refine .cons ?_ hstep (ih (hs.step hstep) ht)
    intro i m' hrun hne
    obtain ⟨hopen, hrunm⟩ := hstep
    -- the call ends in the next state of the run
    cases hrun.symm.trans hrunm
    rcases stored_of_step ⟨hopen, hrun⟩ with heq | ⟨hlen, hrun'⟩
    · exact absurd heq hne
    · cases hrun.symm.trans hrun'
      have hle := length_stored_le hrest
      exact hs.nextId_fresh hopen (by omega)

/-- What has been stored under fresh ids stays within the limit. -/
theorem stored_le_of_along {s t : Handle Cb} {ls : List (Call Cb)}
    (h : Along Handle.step IdFresh s ls t) (hs : Counts s) (hn : s.stored.length ≤ 2 ^ 31) :
    t.stored.length ≤ 2 ^ 31 := by
  have hinv := h.invariant (I := fun s => Counts s ∧ s.stored.length ≤ 2 ^ 31) ⟨hs, hn⟩ ?_
  · exact hinv.2
  · intro s l s' hI hfresh hstep
    refine ⟨hI.1.step hstep, ?_⟩
    rcases stored_of_step hstep with heq | ⟨hlen, hrun⟩
    · rw [heq]
      exact hI.2
    · have hne : s'.stored ≠ s.stored := fun heq => by
        rw [heq] at hlen
        omega
      have hpos := (hfresh _ _ hrun hne).1
      obtain ⟨hopen, -⟩ := hstep
      rw [hI.1.next hopen] at hpos
      have hlt := (toInt_ofNat_nonneg_iff hI.2).mp hpos
      omega

/-- **Ids are fresh in every run exactly up to 2^31 stored values.** -/
theorem ids_fresh_iff (self : UInt64) (heap : Heap) (global : Addr) {ls : List (Call Cb)}
    {s : Handle Cb} (h : Run Handle.step (.new self heap global) ls s) :
    Along Handle.step IdFresh (.new self heap global) ls s ↔ s.stored.length ≤ 2 ^ 31 := by
  constructor
  · exact fun ha => stored_le_of_along ha (counts_new self heap global) (Nat.zero_le _)
  · exact along_idFresh h (counts_new self heap global)

/-! ## One value at a time -/

/-- `undefined` read from the global object and freed again, `n` times. -/
def rounds : Nat → List (Call Unit)
  | 0 => []
  | n + 1 => rounds n ++
    [.getFromGlobal ⟨[], .value .undefined⟩, .freeJsvalue (Int32.ofNat n)]

/-- One round. -/
theorem run_round (s : Handle Unit) (hopen : s.closed = false) (id : Int32) :
    ∃ t, Run Handle.step s [.getFromGlobal ⟨[], .value .undefined⟩, .freeJsvalue id] t ∧
      t.closed = false ∧ t.stored.length = s.stored.length + 1 := by
  have hget : wp (Call.getFromGlobal ⟨[], .value .undefined⟩ : Call Unit).run s
      (fun _ t => t.closed = false ∧ t.stored.length = s.stored.length + 1)
      (fun _ _ => False) := by
    simp [Call.run, ejrGetFromGlobal, EasyJSR.getFromGlobal, engine, runWork, answer, addValue,
      wp_onRt, EasyJSR.wp_freeJsval, hopen]
  obtain ⟨a, m, hm, hmopen, hmlen⟩ := exists_ok_of_wp hget
  have hfree : wp (Call.freeJsvalue id : Call Unit).run m
      (fun _ t => t.closed = false ∧ t.stored.length = s.stored.length + 1)
      (fun _ _ => False) := by
    simp [Call.run, ejrFreeJsvalue, JSValueAD.freeValue, wp_onRt, EasyJSR.wp_freeJsvals, hmopen,
      hmlen]
  obtain ⟨b, t, ht, htopen, htlen⟩ := exists_ok_of_wp hfree
  exact ⟨t, .cons ⟨hopen, hm⟩ (.cons ⟨hmopen, ht⟩ (.nil t)), htopen, htlen⟩

theorem run_rounds : ∀ n, ∃ s : Handle Unit, Run Handle.step (.new 0 .initial 0) (rounds n) s ∧
    s.closed = false ∧ s.stored.length = n
  | 0 => ⟨_, .nil _, rfl, rfl⟩
  | n + 1 => by
    obtain ⟨s, hrun, hopen, hlen⟩ := run_rounds n
    obtain ⟨t, hround, htopen, htlen⟩ := run_round s hopen (Int32.ofNat n)
    exact ⟨t, hrun.append hround, htopen, by rw [htlen, hlen]⟩

/-- Three rounds. -/
theorem ids_fresh_iff_rounds : ∃ s : Handle Unit,
    Run Handle.step (.new 0 .initial 0) (rounds 3) s ∧
      Along Handle.step IdFresh (.new 0 .initial 0) (rounds 3) s := by
  obtain ⟨s, hrun, -, hlen⟩ := run_rounds 3
  exact ⟨s, hrun, (ids_fresh_iff 0 .initial 0 hrun).mpr (by omega)⟩

/-- 2^31 + 1 rounds: never more than one value is live, and the last id is
negative. -/
theorem ids_fresh_fails : ∃ s : Handle Unit,
    Run Handle.step (.new 0 .initial 0) (rounds (2 ^ 31 + 1)) s ∧
      ¬ Along Handle.step IdFresh (.new 0 .initial 0) (rounds (2 ^ 31 + 1)) s := by
  obtain ⟨s, hrun, -, hlen⟩ := run_rounds (2 ^ 31 + 1)
  refine ⟨s, hrun, fun halong => ?_⟩
  have hle := stored_le_of_along halong (counts_new 0 .initial 0) (Nat.zero_le _)
  omega

end Ejr
