import Mathlib.Data.List.AList
import Ejr.Lib.OwnerMap
import Ejr.Engine.Call

/-!
# The table of values

`struct JSValueAD` of src/ejr_c_api.cpp: the values a handle keeps for C, under
ids. The table does what a map of owned values does (`Ejr.Lib.OwnerMap`) as long
as fewer than 2^31 values are added between two calls of `free`
(`table_refines`): its ids are the numbers `next_id` has gone through, so a live
id is below it.

Mirroring notes:
- `next_id` is a 32-bit `int`; where it overflows it wraps.
- What `free_value` and `free` hand to `EasyJSR::free_jsval` is part of their
  result; they are called with an instance.
- `std::unordered_map` does not say in which order `free` finds the values; here
  it is the latest first.
-/

namespace Ejr

open Lib

/-- `JSValueAD`. -/
structure JSValueAD where
  idToValue : AList fun _ : Int32 => JSValue
  nextId : Int32

namespace JSValueAD

/-- `new JSValueAD()`. -/
def new : JSValueAD := ⟨∅, 0⟩

/-- `id_to_value.find(id)`. -/
def find? (ad : JSValueAD) (id : Int32) : Option JSValue := ad.idToValue.lookup id

/-- `js_undefined()`, which no reference belongs to. -/
def absent : JSValue := ⟨.undefined, 0⟩

/-- `add_value`; the id is `next_id`. -/
def addValue (ad : JSValueAD) (value : JSValue) : JSValueAD :=
  ⟨ad.idToValue.insert ad.nextId value, ad.nextId + 1⟩

/-- `free_value`: the value it releases, if any. -/
def freeValue (ad : JSValueAD) (id : Int32) : Option JSValue × JSValueAD :=
  (ad.find? id, ⟨ad.idToValue.erase id, ad.nextId⟩)

/-- `free`: the values it releases. -/
def free (ad : JSValueAD) : List JSValue × JSValueAD :=
  (ad.idToValue.entries.map fun e => e.2, ⟨∅, 0⟩)

/-- `get`. -/
def get (ad : JSValueAD) (id : Int32) : JSValue := (ad.find? id).getD absent

section

variable (ad : JSValueAD) (id : Int32) (v : JSValue)

theorem find?_addValue :
    (ad.addValue v).find? id = if id = ad.nextId then some v else ad.find? id := by
  by_cases h : id = ad.nextId
  · rw [if_pos h, h]
    exact AList.lookup_insert _
  · rw [if_neg h]
    exact AList.lookup_insert_ne h

theorem find?_freeValue {id' : Int32} :
    (ad.freeValue id).2.find? id' = if id' = id then none else ad.find? id' := by
  by_cases h : id' = id
  · rw [if_pos h, h]
    exact AList.lookup_erase _ _
  · rw [if_neg h]
    exact AList.lookup_erase_ne h

theorem find?_free : ad.free.2.find? id = none := AList.lookup_empty id

/-- What `free` releases is what was found under the ids. -/
theorem free_fst : ad.free.1 = ad.idToValue.keys.filterMap ad.find? := by
  have hentries : ∀ es : List (Sigma fun _ : Int32 => JSValue),
      (∀ e ∈ es, ad.find? e.1 = some e.2) →
        es.map (fun e => e.2) = (es.map Sigma.fst).filterMap ad.find? := by
    intro es
    induction es with
    | nil => exact fun _ => rfl
    | cons e es ih =>
      intro h
      rw [List.map_cons, List.map_cons, List.filterMap_cons, h e (List.mem_cons_self ..),
        ih fun e' he' => h e' (List.mem_cons_of_mem _ he')]
  exact hentries _ fun e he => AList.mem_lookup_iff.mpr he

theorem mem_keys_iff : id ∈ ad.idToValue.keys ↔ ∃ v, ad.find? id = some v := by
  rw [← AList.mem_keys, ← AList.lookup_isSome, Option.isSome_iff_exists]
  exact Iff.rfl

end

/-! ## Sequences of operations -/

/-- One operation, in the words of `Ejr.Lib.OwnerMap`, with what it answers. -/
def apply (ad : JSValueAD) : Owners.Op Int32 JSValue → Owners.Answer Int32 JSValue × JSValueAD
  | .add value => (.key ad.nextId, ad.addValue value)
  | .get id => (.value (ad.get id), ad)
  | .remove id => (.released (ad.freeValue id).1.toList, (ad.freeValue id).2)
  | .clear => (.released ad.free.1, ad.free.2)

/-- A sequence of operations, each with its answer, and the table in the end. -/
def applyAll : JSValueAD → List (Owners.Op Int32 JSValue) →
    List (Owners.Op Int32 JSValue × Owners.Answer Int32 JSValue) × JSValueAD
  | ad, [] => ([], ad)
  | ad, op :: ops =>
    let r := (ad.apply op).2.applyAll ops
    ((op, (ad.apply op).1) :: r.1, r.2)

/-- After `n` calls of `add_value` since the last `free`, there are fewer than
2^31 at every moment of the operations to come. -/
def Fits : Nat → List (Owners.Op Int32 JSValue) → Prop
  | _, [] => True
  | n, .add _ :: ops => n + 1 < 2 ^ 31 ∧ Fits (n + 1) ops
  | _, .clear :: ops => Fits 0 ops
  | n, .get _ :: ops => Fits n ops
  | n, .remove _ :: ops => Fits n ops

instance decidableFits : ∀ (n : Nat) (ops : List (Owners.Op Int32 JSValue)), Decidable (Fits n ops)
  | _, [] => isTrue trivial
  | n, .add _ :: ops => @instDecidableAnd _ _ _ (decidableFits (n + 1) ops)
  | _, .clear :: ops => decidableFits 0 ops
  | n, .get _ :: ops => decidableFits n ops
  | n, .remove _ :: ops => decidableFits n ops

/-- The table after `n` additions holds what the map holds, under ids that
`next_id` has passed. -/
structure Holds (ad : JSValueAD) (n : Nat) (o : Owners Int32 JSValue) : Prop where
  next : ad.nextId = Int32.ofNat n
  small : n < 2 ^ 31
  below : ∀ id k, o.bound id = some k → 0 ≤ id.toInt ∧ id.toInt < n
  find : ∀ id, ad.find? id = o.value? id
  bound : ∀ id, ad.find? id = none → o.bound id = none

theorem holds_new : new.Holds 0 Owners.empty where
  next := rfl
  small := by decide
  below _ _ h := absurd h (by simp [Owners.empty])
  find _ := rfl
  bound _ _ := rfl

section

variable {ad : JSValueAD} {n : Nat} {o : Owners Int32 JSValue}

theorem Holds.toInt_next (h : ad.Holds n o) : ad.nextId.toInt = n := by
  rw [h.next]
  exact Int32.toInt_ofNat_of_lt h.small

/-- The next id is not live. -/
theorem Holds.next_free (h : ad.Holds n o) : o.bound ad.nextId = none := by
  cases hb : o.bound ad.nextId with
  | none => rfl
  | some k =>
    have hlt := (h.below _ _ hb).2
    rw [h.toInt_next] at hlt
    exact absurd hlt (by omega)

theorem Holds.add (h : ad.Holds n o) (hn : n + 1 < 2 ^ 31) (ho : o.Accounted) (v : JSValue) :
    (ad.addValue v).Holds (n + 1) (o.add ad.nextId v) := by
  constructor
  · show ad.nextId + 1 = _
    rw [h.next, Int32.ofNat_add]
    rfl
  · exact hn
  · intro id k hid
    rcases Owners.bound_add.mp hid with ⟨rfl, -⟩ | ⟨-, hid⟩
    · rw [h.toInt_next]
      omega
    · have := h.below id k hid
      omega
  · intro id
    rw [find?_addValue, ho.value?_add, h.find]
  · intro id hid
    rw [find?_addValue] at hid
    rw [Owners.add_bound]
    by_cases he : id = ad.nextId
    · rw [if_pos he] at hid
      exact absurd hid (by simp)
    · rw [if_neg he] at hid ⊢
      exact h.bound id hid

theorem Holds.remove (h : ad.Holds n o) (id : Int32) (k : Nat) :
    (ad.freeValue id).2.Holds n (o.remove id k) := by
  constructor
  · exact h.next
  · exact h.small
  · intro id' k' hid'
    exact h.below id' k' (Owners.bound_remove.mp hid').2
  · intro id'
    rw [find?_freeValue, Owners.value?_remove, h.find]
  · intro id' hid'
    rw [find?_freeValue] at hid'
    rw [Owners.remove_bound]
    by_cases he : id' = id
    · rw [if_pos he]
    · rw [if_neg he] at hid' ⊢
      exact h.bound id' hid'

/-- Erasing an id that is not live. -/
theorem Holds.removeFree (h : ad.Holds n o) {id : Int32} (hid : o.bound id = none) :
    (ad.freeValue id).2.Holds n o := by
  have hfind : ∀ id', (ad.freeValue id).2.find? id' = ad.find? id' := by
    intro id'
    rw [find?_freeValue]
    by_cases he : id' = id
    · rw [if_pos he, he, h.find, Owners.value?, hid]
      rfl
    · rw [if_neg he]
  exact ⟨h.next, h.small, h.below, fun id' => (hfind id').trans (h.find id'),
    fun id' hid' => h.bound id' ((hfind id').symm.trans hid')⟩

theorem holds_free (ad : JSValueAD) (o : Owners Int32 JSValue) (ns : List Nat) :
    ad.free.2.Holds 0 (o.clear ns) where
  next := rfl
  small := by decide
  below _ _ h := absurd h (by simp [Owners.clear])
  find id := by
    rw [find?_free]
    rfl
  bound _ _ := rfl

/-- `freeValue` is the map's `remove`, of a bound id or of any other. -/
theorem Holds.stepRemove (h : ad.Holds n o) (id : Int32) :
    ∃ o', Owners.step (0 ≤ ·) absent o (.remove id, .released (ad.freeValue id).1.toList) o' ∧
      (ad.freeValue id).2.Holds n o' := by
  have hrel : (ad.freeValue id).1 = o.value? id := h.find id
  rw [hrel]
  cases hb : o.bound id with
  | none =>
    have hnone : o.value? id = none := by
      rw [Owners.value?, hb]
      rfl
    refine ⟨o, ?_, h.removeFree hb⟩
    rw [hnone]
    exact .removeFree o hb
  | some k => exact ⟨o.remove id k, .remove o hb, h.remove id k⟩

theorem Holds.mem_keys (h : ad.Holds n o) {id : Int32} {k : Nat} (hb : o.bound id = some k) :
    id ∈ ad.idToValue.keys := by
  refine (mem_keys_iff ad id).mpr ?_
  cases hf : ad.find? id with
  | none => exact absurd (h.bound id hf) (by rw [hb]; simp)
  | some v => exact ⟨v, rfl⟩

/-- `free` is the map's `clear`, in the order in which the table is gone through. -/
theorem Holds.stepClear (h : ad.Holds n o) (ho : o.Accounted) :
    ∃ o', Owners.step (0 ≤ ·) absent o (.clear, .released ad.free.1) o' ∧
      ad.free.2.Holds 0 o' := by
  let ns := ad.idToValue.keys.filterMap o.bound
  have hns : ns.Nodup := by
    refine List.Nodup.filterMap ?_ ad.idToValue.keys_nodup
    intro id id' k hk hk'
    exact ho.inj id id' k hk hk'
  have hall : ∀ k, k ∈ ns ↔ ∃ id, o.bound id = some k := by
    intro k
    rw [List.mem_filterMap]
    constructor
    · exact fun ⟨id, _, hb⟩ => ⟨id, hb⟩
    · exact fun ⟨id, hb⟩ => ⟨id, h.mem_keys hb, hb⟩
  have hvalues : ad.free.1 = ns.filterMap (o.added[·]?) := by
    rw [free_fst, List.filterMap_filterMap]
    refine List.filterMap_congr fun id _ => ?_
    rw [h.find, Owners.value?]
  refine ⟨o.clear ns, ?_, holds_free ad o ns⟩
  rw [hvalues]
  exact .clear o hns hall

/-- **One operation** of the table is one of the map, with the same answer. -/
theorem Holds.step (h : ad.Holds n o) (ho : o.Accounted) {op : Owners.Op Int32 JSValue}
    {ops : List (Owners.Op Int32 JSValue)} (hfit : Fits n (op :: ops)) :
    ∃ m o', Owners.step (0 ≤ ·) absent o (op, (ad.apply op).1) o' ∧
      (ad.apply op).2.Holds m o' ∧ Fits m ops := by
  cases op with
  | add v =>
    obtain ⟨hn, hfit⟩ := hfit
    have hkey : (0 : Int32) ≤ ad.nextId := by
      rw [Int32.le_iff_toInt_le, h.toInt_next]
      exact Int.natCast_nonneg n
    exact ⟨n + 1, _, .add o v hkey h.next_free, h.add hn ho v, hfit⟩
  | get id =>
    have hget : ad.get id = (o.value? id).getD absent := by
      rw [get, h.find]
    refine ⟨n, o, ?_, h, hfit⟩
    show Owners.step _ _ o (.get id, .value (ad.get id)) o
    rw [hget]
    exact .get o id
  | remove id =>
    obtain ⟨o', hstep, h'⟩ := h.stepRemove id
    exact ⟨n, o', hstep, h', hfit⟩
  | clear =>
    obtain ⟨o', hstep, h'⟩ := h.stepClear ho
    exact ⟨0, o', hstep, h', hfit⟩

/-- The whole sequence. -/
theorem Holds.run : ∀ {ops : List (Owners.Op Int32 JSValue)} {ad : JSValueAD} {n : Nat}
    {o : Owners Int32 JSValue}, ad.Holds n o → o.Accounted → Fits n ops →
      ∃ o', Run (Owners.step (0 ≤ ·) absent) o (ad.applyAll ops).1 o' ∧
        ∀ id, (ad.applyAll ops).2.find? id = o'.value? id
  | [], _, _, o, h, _, _ => ⟨o, .nil o, h.find⟩
  | _ :: _, _, _, _, h, ho, hfit => by
    obtain ⟨m, o1, hstep, h1, hfit1⟩ := h.step ho hfit
    obtain ⟨o2, hrun, hfind⟩ := Holds.run h1 (ho.step hstep) hfit1
    exact ⟨o2, .cons hstep hrun, hfind⟩

end

/-- The operations before a `free`, with their answers, come before its own. -/
theorem applyAll_append : ∀ (ad : JSValueAD) (pre post : List (Owners.Op Int32 JSValue)),
    (ad.applyAll (pre ++ post)).1 =
      (ad.applyAll pre).1 ++ ((ad.applyAll pre).2.applyAll post).1
  | _, [], _ => rfl
  | ad, op :: pre, post => by
    simp only [List.cons_append, applyAll, applyAll_append _ pre post]

theorem applyAll_ops : ∀ (ad : JSValueAD) (ops : List (Owners.Op Int32 JSValue)),
    (ad.applyAll ops).1.map Prod.fst = ops
  | _, [] => rfl
  | ad, op :: ops => by
    simp only [applyAll, List.map_cons, applyAll_ops _ ops]

/-- **The table is a map of owned values**: with fewer than 2^31 additions since
the last `free`, every sequence of operations gives the answers of a run of the
map, whose ids are not negative. Over the sequence no value is released twice,
and what was added before a `free` is released exactly once. -/
theorem table_refines (ops : List (Owners.Op Int32 JSValue)) (hfit : Fits 0 ops) :
    ∃ o, Run (Owners.step (0 ≤ ·) absent) Owners.empty (new.applyAll ops).1 o ∧
      (∀ id, (new.applyAll ops).2.find? id = o.value? id) ∧
      o.released.Nodup ∧
      ∀ pre post, ops = pre ++ .clear :: post →
        ∀ k < Owners.Op.adds pre, o.released.count k = 1 := by
  obtain ⟨o, hrun, hfind⟩ := holds_new.run Owners.accounted_empty hfit
  refine ⟨o, hrun, hfind, Owners.released_nodup hrun, ?_⟩
  rintro pre post rfl k hk
  rw [applyAll_append] at hrun
  obtain ⟨s, hpre, -, hcount⟩ := Owners.count_released_of_clear hrun
  refine hcount k ?_
  rw [Owners.length_added hpre, applyAll_ops]
  simpa [Owners.empty] using hk

/-- Two values added, one freed twice and read, all freed, one more added. -/
def staleIds : List (Owners.Op Int32 JSValue) :=
  [.add ⟨.int 1, 0⟩, .add ⟨.int 2, 1⟩, .remove 0, .remove 0, .get 0, .clear, .add ⟨.int 3, 2⟩]

theorem table_refines_staleIds :
    ∃ o, Run (Owners.step (0 ≤ ·) absent) Owners.empty (new.applyAll staleIds).1 o ∧
      (∀ id, (new.applyAll staleIds).2.find? id = o.value? id) ∧
      o.released.Nodup ∧
      ∀ pre post, staleIds = pre ++ .clear :: post →
        ∀ k < Owners.Op.adds pre, o.released.count k = 1 :=
  table_refines staleIds (by decide)

end JSValueAD

end Ejr
