import Ejr.Lib.Run
import Ejr.CApi.Convert

/-!
# Filling an array

`jsarg_add_value_to_c_array` (src/ejr_c_api.cpp), called any number of times on an
array of `jsarg_carray`. `Filling` is the invariant: the values that were not NULL
come first, in the order of the calls, as far as there is room for them; the other
slots are NULL. One call keeps it (`fillStep_filling`), so a run does; and the
array it describes is converted element by element (`jsargToEjrItems_eq_mapM`).

Mirroring notes:
- Between the calls the program may do anything that leaves the two blocks of the
  array alone; the values are made there.
-/

namespace Ejr

open Lib

/-! ## Conversions change nothing -/

theorem readOnly_readBlock {α : Type} (p : Ptr) (f : CBlock → Option α) :
    ReadOnly (readBlock p f) := by
  cases p with
  | none => exact readOnly_throw _
  | some a =>
    refine readOnly_bind (fun s _ => ?_) fun b => ?_
    · cases h : s.cell a with
      | none => exact (wp_load_none h).mpr rfl
      | some b => exact (wp_load h).mpr ⟨rfl, trivial⟩
    · cases f b with
      | none => exact readOnly_throw _
      | some x => exact readOnly_pure _

theorem readOnly_derefArg (p : Ptr) : ReadOnly (derefArg p) := readOnly_readBlock p _

theorem readOnly_derefChars (p : Ptr) : ReadOnly (derefChars p) := readOnly_readBlock p _

theorem readOnly_getItem (items i : Nat) : ReadOnly (getItem items i) := by
  refine readOnly_bind (readOnly_readBlock _ _) fun slots => ?_
  cases slots[i]? with
  | none => exact readOnly_throw _
  | some p => exact readOnly_pure _

theorem readOnly_orLiteral (p : Ptr) : ReadOnly (orLiteral p) := by
  cases p with
  | none => exact readOnly_pure _
  | some a => exact readOnly_bind (readOnly_derefChars _) fun m => readOnly_pure _

theorem readOnly_jsargToEjrItems {rec : CJSArg → CM JSArg} (hrec : ∀ a, ReadOnly (rec a))
    (items : Nat) : ∀ n i, ReadOnly (jsargToEjrItems rec items i n)
  | 0, _ => readOnly_pure _
  | n + 1, i =>
    readOnly_bind (readOnly_getItem items i) fun p =>
      readOnly_bind (readOnly_derefArg p) fun a =>
        readOnly_bind (hrec a) fun _ =>
          readOnly_bind (readOnly_jsargToEjrItems hrec items n (i + 1)) fun _ => readOnly_pure _

/-- `jsarg_to_ejr` only reads. -/
theorem readOnly_jsargToEjr : ∀ (n : Nat) (a : CJSArg), ReadOnly (jsargToEjr n a)
  | 0, _ => readOnly_throw _
  | n + 1, a => by
    cases a with
    | string str => exact readOnly_bind (readOnly_derefChars str) fun m => readOnly_pure _
    | cArray items count capacity =>
      cases items with
      | none => exact readOnly_pure _
      | some q =>
        exact readOnly_bind (readOnly_jsargToEjrItems (readOnly_jsargToEjr n) q count 0)
          fun args => readOnly_pure _
    | typedArray t items count =>
      cases items with
      | none => exact readOnly_pure _
      | some q =>
        refine readOnly_bind (readOnly_readBlock _ _) fun values => ?_
        by_cases h : count ≤ values.length
        · rw [if_pos h]
          exact readOnly_pure _
        · rw [if_neg h]
          exact readOnly_throw _
    | exception msg name =>
      exact readOnly_bind (readOnly_orLiteral name) fun _ =>
        readOnly_bind (readOnly_orLiteral msg) fun _ => readOnly_pure _
    | _ => exact readOnly_pure _

/-- The loop converts what stands in the slots, one after another. -/
theorem jsargToEjrItems_eq_mapM {rec : CJSArg → CM JSArg} (hrec : ∀ a, ReadOnly (rec a)) {q : Nat}
    {slots : List Ptr} {s : CHeap} (hq : s.cell q = some (.items slots)) :
    ∀ n i, i + n ≤ slots.length → jsargToEjrItems rec q i n s =
      (((slots.drop i).take n).mapM fun p => derefArg p >>= rec) s
  | 0, i, _ => by
    rw [List.take_zero, List.mapM_nil]
    rfl
  | n + 1, i, hle => by
    have hi : i < slots.length := by omega
    have hget : getItem q i s = .ok slots[i] s := by
      refine ok_of_wp ?_
      rw [getItem, wp_bind, wp_readBlock CBlock.items? hq rfl, List.getElem?_eq_getElem hi]
      exact ⟨rfl, rfl⟩
    rw [jsargToEjrItems, bind_of_ok hget, List.drop_eq_getElem_cons hi, List.take_succ_cons,
      List.mapM_cons, ← bind_assoc]
    -- the element, then the rest from the same state
    rcases (readOnly_bind (readOnly_derefArg slots[i]) hrec).run s with ⟨a, ha⟩ | ⟨e, he⟩
    · rw [bind_of_ok ha, bind_of_ok ha]
      exact bind_congr_left (jsargToEjrItems_eq_mapM hrec hq n (i + 1) (by omega))
    · rw [bind_of_error he, bind_of_error he]

/-! ## The invariant -/

/-- A call on the array at `p`, whose slots are at `q`; or something else that
leaves these two blocks alone. -/
inductive FillStep (p q : Nat) : CHeap → Option Ptr → CHeap → Prop where
  | add {s t : CHeap} (value : Ptr) (h : jsargAddValueToCArray (some p) value s = .ok () t) :
      FillStep p q s (some value) t
  | other {s t : CHeap} (hp : t.cell p = s.cell p) (hq : t.cell q = s.cell q) :
      FillStep p q s none t

/-- The values of the calls that are not NULL. -/
def nonNull (calls : List (Option Ptr)) : List Nat := calls.filterMap fun c => c.bind id

section

variable {s t : CHeap} {p q n : Nat} {vs : List Nat} {X : CStop → CHeap → Prop}

/-- Without a value nothing happens. -/
theorem jsargAddValueToCArray_null (arg : Ptr) : jsargAddValueToCArray arg none s = .ok () s := by
  cases arg <;> rfl

/-- Without a target nothing happens. -/
theorem jsargAddValueToCArray_noTarget (value : Ptr) (s : CHeap) :
    jsargAddValueToCArray none value s = .ok () s := rfl

/-- A target that is no array stays what it is. -/
theorem jsargAddValueToCArray_noArray {a : CJSArg} (hp : s.cell p = some (.arg a))
    (ha : ∀ items count capacity, a ≠ .cArray items count capacity) (value : Ptr) :
    jsargAddValueToCArray (some p) value s = .ok () s := by
  cases value with
  | none => exact jsargAddValueToCArray_null _
  | some v =>
    refine ok_of_wp ?_
    rw [jsargAddValueToCArray, wp_bind, wp_derefArg hp]
    cases a with
    | cArray items count capacity => exact absurd rfl (ha items count capacity)
    | _ => exact ⟨rfl, rfl⟩

/-- A full array stays as it is. -/
theorem jsargAddValueToCArray_full (h : Filling s p q vs 0) (value : Ptr) :
    jsargAddValueToCArray (some p) value s = .ok () s := by
  cases value with
  | none => exact jsargAddValueToCArray_null _
  | some v =>
    refine ok_of_wp ?_
    rw [jsargAddValueToCArray, wp_bind, wp_derefArg h.arg]
    show wp (if vs.length + 0 ≤ vs.length then pure () else _) s _ _
    rw [if_pos (Nat.le_of_eq (Nat.add_zero _))]
    exact ⟨rfl, rfl⟩

/-- The array of capacity `n` when these values have been offered. -/
def Filled (s : CHeap) (p q n : Nat) (vs : List Nat) : Prop :=
  Filling s p q (vs.take n) (n - vs.length)

/-- A call comes back, with one value more offered, or none. -/
theorem Filled.add (h : Filled s p q n vs) (value : Ptr) :
    ∃ t, jsargAddValueToCArray (some p) value s = .ok () t ∧
      Filled t p q n (vs ++ value.toList) := by
  cases value with
  | none =>
    refine ⟨s, jsargAddValueToCArray_null _, ?_⟩
    rw [Option.toList_none, List.append_nil]
    exact h
  | some v =>
    rw [Option.toList_some]
    by_cases hroom : vs.length < n
    · -- there is room
      have hn : n - vs.length = (n - (vs ++ [v]).length) + 1 := by
        rw [List.length_append, List.length_singleton]
        omega
      have hfill : Filling s p q (vs.take n) ((n - (vs ++ [v]).length) + 1) := hn ▸ h
      obtain ⟨_, t, hok, hadd, -⟩ := exists_ok_of_wp (hfill.add)
      refine ⟨t, hok, ?_⟩
      have htake : (vs ++ [v]).take n = vs.take n ++ [v] := by
        rw [List.take_of_length_le (Nat.le_of_lt hroom), List.take_of_length_le]
        rw [List.length_append, List.length_singleton]
        omega
      unfold Filled
      rw [htake]
      exact hadd
    · -- there is none
      have hfull : n - vs.length = 0 := by omega
      have hfill : Filling s p q (vs.take n) 0 := hfull ▸ h
      refine ⟨s, jsargAddValueToCArray_full hfill _, ?_⟩
      have htake : (vs ++ [v]).take n = vs.take n := List.take_append_of_le_length (by omega)
      have hroom' : n - (vs ++ [v]).length = n - vs.length := by
        rw [List.length_append, List.length_singleton]
        omega
      unfold Filled
      rw [htake, hroom']
      exact h

/-- One step keeps the invariant. -/
theorem fillStep_filled {call : Option Ptr} (hstep : FillStep p q s call t)
    (h : Filled s p q n vs) : Filled t p q n (vs ++ nonNull [call]) := by
  cases hstep with
  | add value hok =>
    obtain ⟨u, hok', hu⟩ := h.add value
    rw [hok] at hok'
    injection hok' with _ htu
    subst htu
    cases value with
    | none => exact hu
    | some v => exact hu
  | other hp hq =>
    have hnone : nonNull [none] = [] := rfl
    rw [hnone, List.append_nil]
    exact ⟨by rw [hp]; exact h.arg, by rw [hq]; exact h.slots⟩

theorem run_filled {calls : List (Option Ptr)} (hrun : Run (FillStep p q) s calls t) :
    ∀ {vs : List Nat}, Filled s p q n vs → Filled t p q n (vs ++ nonNull calls) := by
  induction hrun with
  | nil s =>
    intro vs h
    show Filled s p q n (vs ++ [])
    rwa [List.append_nil]
  | @cons s s' t call calls hstep _ ih =>
    intro vs h
    have hcons : nonNull (call :: calls) = nonNull [call] ++ nonNull calls := by
      rw [nonNull, ← List.singleton_append, List.filterMap_append]
      rfl
    rw [hcons, ← List.append_assoc]
    exact ih (fillStep_filled hstep h)

/-- A filled array, converted. -/
theorem Filled.jsargToEjr_eq (h : Filled s p q n vs) (depth : Nat) :
    jsargToEjr (depth + 1) (.cArray (some q) (min n vs.length) n) s =
      (JSArg.array <$> (vs.take n).mapM fun v => derefArg (some v) >>= jsargToEjr depth) s := by
  have hmap : ((vs.take n).map some).mapM (fun p => derefArg p >>= jsargToEjr depth) =
      (vs.take n).mapM fun v => derefArg (some v) >>= jsargToEjr depth := by
    rw [List.mapM_map]
    rfl
  have hitems := jsargToEjrItems_eq_mapM (readOnly_jsargToEjr depth) h.slots (min n vs.length) 0
    (by simp)
  rw [List.drop_zero, List.take_left' (by simp), hmap] at hitems
  rw [jsargToEjr, map_eq_pure_bind]
  exact bind_congr_left hitems

/-- What a reader of the array finds when the values `vs` have been offered: the
first `n` of them, NULL behind them, and their conversions; and one more call
comes back. -/
structure FilledWith (s : CHeap) (p q n : Nat) (vs : List Nat) : Prop where
  arg : s.cell p = some (.arg (.cArray (some q) (min n vs.length) n))
  slots : s.cell q = some (.items ((vs.take n).map some ++ List.replicate (n - vs.length) none))
  converted : ∀ depth, jsargToEjr (depth + 1) (.cArray (some q) (min n vs.length) n) s =
    (JSArg.array <$> (vs.take n).mapM fun v => derefArg (some v) >>= jsargToEjr depth) s
  next : ∀ value, ∃ t, jsargAddValueToCArray (some p) value s = .ok () t

theorem Filled.filledWith (h : Filled s p q n vs) : FilledWith s p q n vs where
  arg := by
    have hlen : (vs.take n).length = min n vs.length := List.length_take
    have hroom : min n vs.length + (n - vs.length) = n := by omega
    have harg := h.arg
    rwa [hlen, hroom] at harg
  slots := h.slots
  converted := h.jsargToEjr_eq
  next value := by
    obtain ⟨t, ht, -⟩ := h.add value
    exact ⟨t, ht⟩

/-- **The fill invariant**: after any calls on a new array of capacity `n`, its
count is the number of values that were not NULL, `n` at most; they stand first,
in the order of the calls, and the other slots are NULL; it is converted to their
conversions. A call without an array changes nothing. -/
theorem jsargCarray_filled (hn : 0 < n) (s : CHeap) :
    ∃ p q s0, jsargCarray n s = .ok (some p) s0 ∧
      (∀ calls t, Run (FillStep p q) s0 calls t → FilledWith t p q n (nonNull calls)) ∧
      (∀ value t, jsargAddValueToCArray none value t = .ok () t) ∧
      ∀ value t x a, t.cell x = some (.arg a) →
        (∀ items count capacity, a ≠ .cArray items count capacity) →
        jsargAddValueToCArray (some x) value t = .ok () t := by
  obtain ⟨m, rfl⟩ : ∃ m, n = m + 1 := ⟨n - 1, by omega⟩
  obtain ⟨_, s0, hok, rfl, hnew, -⟩ := exists_ok_of_wp (filling_jsargCarray (s := s) (n := m))
  refine ⟨s.next, s.next + 1, s0, hok, ?_, jsargAddValueToCArray_noTarget, ?_⟩
  · intro calls t hrun
    have hstart : Filled s0 s.next (s.next + 1) (m + 1) [] := hnew
    exact (run_filled hrun hstart).filledWith
  · intro value t x a hx ha
    exact jsargAddValueToCArray_noArray hx ha value

/-- An array for two, on the empty heap. -/
theorem jsargCarray_filled_two :
    ∃ p q s0, jsargCarray 2 Store.empty = .ok (some p) s0 ∧
      (∀ calls t, Run (FillStep p q) s0 calls t → FilledWith t p q 2 (nonNull calls)) ∧
      (∀ value t, jsargAddValueToCArray none value t = .ok () t) ∧
      ∀ value t x a, t.cell x = some (.arg a) →
        (∀ items count capacity, a ≠ .cArray items count capacity) →
        jsargAddValueToCArray (some x) value t = .ok () t :=
  jsargCarray_filled (by decide) Store.empty

end

end Ejr
