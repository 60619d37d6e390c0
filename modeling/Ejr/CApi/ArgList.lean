import Ejr.CApi.Arguments
import Ejr.CApi.Fill

/-!
# Argument lists

`jsarg_make_list` and `jsarg_add_to_list` (src/ejr_c_api.cpp). The guard of
`jsarg_add_to_list` is the wrong way round: it returns when both pointers are
valid, and goes on when one is NULL. And only the first slot of a new list is set,
the others are NULL, which the second guard returns at. `storesAdded_iff` says for
which calls this makes no difference.

Mirroring notes:
- `new JSArg *[argc]{x}` makes the array, then the one initializer it has: the
  first slot is `x`, the others are NULL, and without a first slot it throws.
- `jsarg[i]` of a NULL `jsarg` ends with `badAccess`.
-/

namespace Ejr

open Lib

/-! ## The functions -/

/-- `jsarg_make_list`. -/
def jsargMakeList : Nat → CM Ptr
  | 0 => throw .badArrayNewLength
  | n + 1 => do
    let list ← allocate (.items (List.replicate (n + 1) none))
    let arg ← ejrToJsarg .undefined
    mutate .badAccess list fun _ => .items (arg :: List.replicate n none)
    pure (some list)

/-- `valid_ptrs`. -/
def validPtrsOf (ptrs : List Ptr) : Bool := ptrs.all Option.isSome

/-- `jsarg[i] = njsarg`. -/
def setSlot (jsarg i : Nat) (njsarg : Ptr) : CM Unit := do
  let slots ← readBlock (some jsarg) CBlock.items?
  if i < slots.length then mutate .badAccess jsarg fun _ => .items (slots.set i njsarg)
  else throw .badAccess

/-- `jsarg_add_to_list`. -/
def jsargAddToList (jsarg njsarg : Ptr) (i : Nat) : CM Unit :=
  if validPtrsOf [jsarg, njsarg] then pure ()
  else
    match jsarg with
    | none => throw .badAccess
    | some list => do
      match ← getItem list i with
      | none => pure ()
      | some _ => setSlot list i njsarg

/-! ## Calls on a list -/

/-- `jsarg_add_to_list(list, value, slot)`, or with NULL for the list. -/
structure AddCall where
  onList : Bool
  value : Ptr
  slot : Nat

namespace AddCall

/-- The list argument. -/
def target (list : Nat) (c : AddCall) : Ptr := if c.onList then some list else none

/-- Neither pointer is NULL. -/
def Valid (c : AddCall) : Prop := c.onList = true ∧ c.value.isSome = true

instance (c : AddCall) : Decidable c.Valid :=
  inferInstanceAs (Decidable (c.onList = true ∧ c.value.isSome = true))

/-- The call. -/
def run (list : Nat) (c : AddCall) : CM Unit := jsargAddToList (c.target list) c.value c.slot

/-- The calls, one after another. -/
def runAll (list : Nat) : List AddCall → CM Unit
  | [] => pure ()
  | c :: rest => do
    c.run list
    runAll list rest

/-- The slots when each call with a list and a value has stored its value. -/
def stored (slots : List Ptr) (calls : List AddCall) : List Ptr :=
  calls.foldl (fun slots c => if c.Valid then slots.set c.slot c.value else slots) slots

end AddCall

open AddCall

/-- What is expected of calls on the list made with these slots: one with a NULL
changes nothing and dereferences nothing, so it comes back on every heap; after
all of them each slot has the value of its last call, or what it had; and when
each slot has been written, these values are what is converted. -/
structure StoresAdded (list : Nat) (slots : List Ptr) (s : CHeap) (calls : List AddCall) : Prop where
  null : ∀ c ∈ calls, ¬c.Valid → ∀ h : CHeap, c.run list h = .ok () h
  stored : ∃ t, runAll list calls s = .ok () t ∧ t.cell list = some (.items (stored slots calls)) ∧
    ((∀ i < slots.length, ∃ c ∈ calls, c.Valid ∧ c.slot = i) → ∀ depth,
      argsToEjr depth list slots.length t =
        ((AddCall.stored slots calls).mapM fun p => derefArg p >>= jsargToEjr depth) t)

/-- No NULL, and no slot but the first, to which the last call gives back what is
there. -/
def LeavesFirst (placeholder : Nat) (calls : List AddCall) : Prop :=
  (∀ c ∈ calls, c.Valid ∧ c.slot = 0) ∧ ∀ c ∈ calls.getLast?, c.value = some placeholder

section

variable {s : CHeap} {list placeholder n : Nat} {calls : List AddCall} {slots : List Ptr}

/-- A new list: its first slot has an undefined argument, the others are NULL. -/
theorem jsargMakeList_ok (n : Nat) (s : CHeap) : ∃ t,
    jsargMakeList (n + 1) s = .ok (some s.next) t ∧
      t.cell s.next = some (.items (some (s.next + 1) :: List.replicate n none)) ∧
      t.cell (s.next + 1) = some (.arg .undefined) := by
  have hrun : wp (jsargMakeList (n + 1)) s (fun r t => r = some s.next ∧
      t.cell s.next = some (.items (some (s.next + 1) :: List.replicate n none)) ∧
      t.cell (s.next + 1) = some (.arg .undefined)) (fun _ _ => False) := by
    simp only [jsargMakeList, wp_bind, wp_allocate, ejrToJsarg, jsargUndefined, wp_newArg, wp_pure]
    rw [wp_mutate (by simp [Store.alloc_cell])]
    refine ⟨trivial, ?_, ?_⟩
    · simp [Store.alloc_cell]
    · simp [Store.alloc_cell, Store.update_cell]
  obtain ⟨r, t, hok, rfl, hslots, harg⟩ := exists_ok_of_wp hrun
  exact ⟨t, hok, hslots, harg⟩

/-- A call without a NULL does nothing. -/
theorem run_valid {c : AddCall} (hc : c.Valid) : c.run list s = .ok () s := by
  have hguard : validPtrsOf [c.target list, c.value] = true := by
    simp [validPtrsOf, target, hc.1, hc.2]
  show (if validPtrsOf [c.target list, c.value] then pure () else _ : CM Unit) s = _
  rw [if_pos hguard]
  rfl

theorem runAll_valid : ∀ {calls : List AddCall}, (∀ c ∈ calls, c.Valid) →
    runAll list calls s = .ok () s
  | [], _ => rfl
  | c :: rest, h => by
    rw [runAll, bind_of_ok (run_valid (h c (List.mem_cons_self ..)))]
    exact runAll_valid fun d hd => h d (List.mem_cons_of_mem _ hd)

/-- A call with a NULL dereferences the list. -/
theorem run_null {c : AddCall} (hc : ¬c.Valid) :
    c.run list Store.empty = .error .badAccess Store.empty := by
  have hguard : validPtrsOf [c.target list, c.value] = false := by
    by_cases hlist : c.onList = true
    · have hvalue : c.value.isSome = false := by
        by_cases h : c.value.isSome = true
        · exact absurd ⟨hlist, h⟩ hc
        · simpa using h
      simp [validPtrsOf, hvalue]
    · simp [validPtrsOf, target, hlist]
  unfold AddCall.run jsargAddToList
  rw [if_neg (by rw [hguard]; decide)]
  unfold target
  by_cases hlist : c.onList = true
  · rw [if_pos hlist]
    rfl
  · rw [if_neg hlist]
    rfl

/-- Storing keeps the number of slots. -/
theorem length_stored : ∀ (calls : List AddCall) (slots : List Ptr),
    (stored slots calls).length = slots.length
  | [], _ => rfl
  | c :: rest, slots => by
    have ih := length_stored rest
    unfold stored at ih ⊢
    rw [List.foldl_cons, ih]
    split
    · exact List.length_set
    · rfl

theorem stored_append (calls : List AddCall) (c : AddCall) (hc : c.Valid) :
    stored slots (calls ++ [c]) = (stored slots calls).set c.slot c.value := by
  rw [stored, List.foldl_append, List.foldl_cons, List.foldl_nil, if_pos hc]
  rfl

/-- A slot that is written does not end as NULL. -/
theorem stored_isSome {i : Nat} : ∀ {calls : List AddCall}, (∀ c ∈ calls, c.Valid) →
    (∃ c ∈ calls, c.slot = i) → i < slots.length →
    ∃ v : Nat, (stored slots calls)[i]? = some (some v) := by
  intro calls
  induction calls using List.reverseRecOn with
  | nil =>
    rintro - ⟨c, hc, -⟩ -
    exact nomatch hc
  | append_singleton calls c ih =>
    rintro hvalid ⟨d, hd, hdi⟩ hi
    have hc := hvalid c (by simp)
    obtain ⟨v, hv⟩ := Option.isSome_iff_exists.mp hc.2
    rw [stored_append calls c hc]
    by_cases hci : c.slot = i
    · refine ⟨v, ?_⟩
      rw [← hci, List.getElem?_set_self (by rw [length_stored, hci]; exact hi), hv]
    · rw [List.getElem?_set_ne hci]
      refine ih (fun e he => hvalid e (List.mem_append_left _ he)) ⟨d, ?_, hdi⟩ hi
      rcases List.mem_append.mp hd with hd | hd
      · exact hd
      · rw [List.mem_singleton.mp hd] at hdi
        exact absurd hdi hci

/-- Calls for the first slot leave the others alone. -/
theorem stored_first {first : Ptr} (h : ∀ c ∈ calls, c.Valid ∧ c.slot = 0) :
    ∃ v, stored (first :: slots) calls = v :: slots := by
  induction calls using List.reverseRecOn with
  | nil => exact ⟨first, rfl⟩
  | append_singleton init c ih =>
    obtain ⟨v, hv⟩ := ih fun d hd => h d (List.mem_append_left _ hd)
    obtain ⟨hc, hc0⟩ := h c (by simp)
    rw [stored_append init c hc, hv, hc0]
    exact ⟨c.value, rfl⟩

/-- The first slot, given back what it had, makes no difference; nothing else does. -/
theorem stored_eq_iff (hvalid : ∀ c ∈ calls, c.Valid) (hslot : ∀ c ∈ calls, c.slot < n + 1) :
    stored (some placeholder :: List.replicate n none) calls =
        some placeholder :: List.replicate n none ↔ LeavesFirst placeholder calls := by
  constructor
  · intro heq
    have hzero : ∀ c ∈ calls, c.slot = 0 := by
      intro c hc
      have hlt := hslot c hc
      obtain ⟨v, hv⟩ : ∃ v : Nat,
          (stored (some placeholder :: List.replicate n none) calls)[c.slot]? = some (some v) :=
        stored_isSome hvalid ⟨c, hc, rfl⟩ (by simpa using hlt)
      rw [heq] at hv
      cases hi : c.slot with
      | zero => rfl
      | succ i =>
        -- the other slots are NULL
        rw [hi] at hv hlt
        rw [List.getElem?_cons_succ, List.getElem?_replicate_of_lt (by omega)] at hv
        exact absurd hv (by simp)
    refine ⟨fun c hc => ⟨hvalid c hc, hzero c hc⟩, fun c hc => ?_⟩
    obtain ⟨init, rfl⟩ := List.getLast?_eq_some_iff.mp hc
    have hmem : c ∈ init ++ [c] := by simp
    rw [stored_append init c (hvalid c hmem), hzero c hmem] at heq
    have hfirst := congrArg (fun l : List Ptr => l[0]?) heq
    simp only [List.getElem?_cons_zero] at hfirst
    rw [List.getElem?_set_self (by rw [length_stored]; simp)] at hfirst
    exact Option.some.inj hfirst
  · intro h
    obtain ⟨hall, hlast⟩ := h
    induction calls using List.reverseRecOn with
    | nil => rfl
    | append_singleton init c _ =>
      have hc : c.value = some placeholder := hlast c (by simp)
      -- what the calls before have stored at the first slot is overwritten
      obtain ⟨v, hv⟩ := stored_first fun d hd => hall d (List.mem_append_left _ hd)
      obtain ⟨hcv, hc0⟩ := hall c (by simp)
      rw [stored_append init c hcv, hv, hc0, hc]
      rfl

/-- The slots of a list are converted in order. -/
theorem argsToEjr_slots {t : CHeap} (hslots : t.cell list = some (.items slots)) (depth : Nat) :
    argsToEjr depth list slots.length t =
      (slots.mapM fun p => derefArg p >>= jsargToEjr depth) t := by
  have hitems := jsargToEjrItems_eq_mapM (readOnly_jsargToEjr depth) hslots slots.length 0
    (by omega)
  rw [List.drop_zero, List.take_length] at hitems
  exact hitems

/-- **`jsarg_add_to_list`**: the calls on a list of `jsarg_make_list` do what is
expected exactly when they leave it as it was made. -/
theorem storesAdded_iff (hn : 0 < n) (s : CHeap) : ∃ list placeholder t,
    jsargMakeList n s = .ok (some list) t ∧
      t.cell list = some (.items (some placeholder :: List.replicate (n - 1) none)) ∧
      ∀ calls : List AddCall, (∀ c ∈ calls, c.slot < n) →
        (StoresAdded list (some placeholder :: List.replicate (n - 1) none) t calls ↔
          LeavesFirst placeholder calls) := by
  obtain ⟨n, rfl⟩ : ∃ m, n = m + 1 := ⟨n - 1, by omega⟩
  obtain ⟨t, hok, hslots, -⟩ := jsargMakeList_ok n s
  refine ⟨s.next, s.next + 1, t, hok, hslots, fun calls hslot => ?_⟩
  rw [Nat.add_sub_cancel]
  constructor
  · intro h
    obtain ⟨hnull, u, hrun, hu, -⟩ := h
    have hvalid : ∀ c ∈ calls, c.Valid := by
      intro c hc
      by_cases h : c.Valid
      · exact h
      · have hempty := hnull c hc h Store.empty
        rw [run_null h] at hempty
        exact nomatch hempty
    rw [runAll_valid hvalid] at hrun
    injection hrun with _ htu
    subst htu
    rw [hslots] at hu
    exact (stored_eq_iff hvalid hslot).mp (by simpa using hu.symm)
  · intro h
    have hvalid : ∀ c ∈ calls, c.Valid := fun c hc => (h.1 c hc).1
    have hstored := (stored_eq_iff hvalid hslot).mpr h
    refine ⟨fun c hc hnot => absurd (hvalid c hc) hnot, t, runAll_valid hvalid, ?_, ?_⟩
    · rw [hstored, hslots]
    · intro _ depth
      rw [hstored]
      exact argsToEjr_slots hslots depth

/-- A list for one argument, on the empty heap. -/
theorem storesAdded_iff_one : ∃ list placeholder t,
    jsargMakeList 1 Store.empty = .ok (some list) t ∧
      t.cell list = some (.items (some placeholder :: List.replicate (1 - 1) none)) ∧
      ∀ calls : List AddCall, (∀ c ∈ calls, c.slot < 1) →
        (StoresAdded list (some placeholder :: List.replicate (1 - 1) none) t calls ↔
          LeavesFirst placeholder calls) :=
  storesAdded_iff (by decide) Store.empty

/-- `jsarg_add_to_list(jsarg_make_list(1), jsarg_int(5), 0)` stores nothing. -/
theorem storesAdded_fails : ¬∀ (n : Nat) (s t : CHeap) (list : Nat) (slots : List Ptr), 0 < n →
    jsargMakeList n s = .ok (some list) t → t.cell list = some (.items slots) →
    ∀ calls : List AddCall, (∀ c ∈ calls, c.slot < n) → StoresAdded list slots t calls := by
  intro hall
  -- the integer is at 0, the list at 1, its first argument at 2
  obtain ⟨t, hok, hslots, -⟩ := jsargMakeList_ok 0 ((Store.empty : CHeap).alloc (.arg (.int 5)))
  have hadd := hall 1 _ t 1 _ (by decide) hok hslots [⟨true, some 0, 0⟩] (by simp)
  obtain ⟨u, hrun, hu, -⟩ := hadd.stored
  rw [runAll_valid (by simp [Valid])] at hrun
  injection hrun with _ htu
  subst htu
  rw [show t.cell 1 = _ from hslots] at hu
  exact absurd hu (by decide)

end

end Ejr
