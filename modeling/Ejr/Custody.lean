import Ejr.Lib.Account
import Ejr.ToJs
import Ejr.FromJs

/-!
# Who owns what

References and C strings are names in the sense of `Ejr.Lib.Account`: the trace
of the runtime is the log that takes them and puts them away. `Bookkeeping` is
an account of such a trace; for every one the rules below say what each call of
the engine takes, hands over and releases, and `owes_toJs`, what `to_js` does:
the value it returns is all that is left in the caller's hands.

`exactRefs` balances releases and hand-overs against acquisitions, and
`looseRefs` bounds the releases of the references somebody counts on.
-/

namespace Ejr

open Lib

/-! ## The trace as a log -/

/-- Something owned: a reference, or a C string. -/
inductive Name where
  | ref (r : Nat)
  | cstr (r : Nat)
  deriving DecidableEq

/-- Names are given out in order. -/
def Name.rank : Name → Nat
  | .ref r | .cstr r => r

/-- What an event takes into ownership. -/
def Event.takes : Event → Option Name
  | .acquire r => some (.ref r)
  | .acquireC r => some (.cstr r)
  | _ => none

/-- What an event releases or hands over. -/
def Event.puts : Event → Option Name
  | .free r | .give r => some (.ref r)
  | .freeC r => some (.cstr r)
  | _ => none

/-- What an event reads. -/
def Event.uses : Event → Option Name
  | .readC r => some (.cstr r)
  | _ => none

/-- The reference an event releases. -/
def Event.frees : Event → Option Name
  | .free r => some (.ref r)
  | _ => none

/-- The roles of the events, when those in `allowed` may happen. -/
def eventRoles (allowed : Event → Prop) : Roles Event Name :=
  ⟨Event.takes, Event.puts, Event.uses, allowed⟩

/-- The trace of the runtime. -/
def rtLog : Log Rt Event := ⟨Rt.trace, Rt.fresh⟩

/-- What the holder of a value owns. -/
def JSValue.owned (v : JSValue) : List Name :=
  if v.val.hasRefCount then [.ref v.ref] else []

/-- What the holder of a C string owns. -/
def cstrOwned (c : Option CString) : List Name := c.toList.map fun c => .cstr c.ref

/-- An account of such traces. -/
structure Bookkeeping (A : Nat → Nat → List Name → List Name → List Event → Prop) : Prop
    extends Account Name.rank A where
  own : ∀ (n : Nat) (v : JSVal),
    A n (n + 1) [] (JSValue.owned ⟨v, n⟩) (JSValue.events ⟨v, n⟩ .acquire)
  free : ∀ {n : Nat} {v : JSValue}, Held Name.rank n v.owned → A n n v.owned [] (v.events .free)
  ownC : ∀ n : Nat, A n (n + 1) [] [.cstr n] [.acquireC n]
  freeC : ∀ {n r : Nat}, Held Name.rank n [.cstr r] → A n n [.cstr r] [] [.freeC r]
  readC : ∀ {n r : Nat}, Held Name.rank n [.cstr r] → A n n [.cstr r] [.cstr r] [.readC r]

/-- The account lets references be handed over. -/
def HandsOver (A : Nat → Nat → List Name → List Name → List Event → Prop) : Prop :=
  ∀ {n : Nat} {v : JSValue}, Held Name.rank n v.owned → A n n v.owned [] (v.events .give)

/-- A call of the engine on heaps in `J`: from owning `o` to owning `h`. -/
abbrev Takes {α : Type} (A : Nat → Nat → List Name → List Name → List Event → Prop)
    (J : Heap → Prop) (o : List Name) (h : α → List Name) (p : EngineM α) : Prop :=
  Owes Name.rank A rtLog (fun s => J s.heap) o h p

/-! ## Two accounts -/

/-- Every reference and C string is released or handed over as often as it is
taken, and no C string is read after its release. -/
abbrev exactRefs (allowed : Event → Prop) :
    Nat → Nat → List Name → List Name → List Event → Prop :=
  Exact (eventRoles allowed) Name.rank

/-- No reference that is counted on is released more often than it is owned. -/
abbrev looseRefs : Nat → Nat → List Name → List Name → List Event → Prop :=
  Loose Event.frees Name.rank

theorem filterMap_events_takes (v : JSValue) :
    (v.events .acquire).filterMap Event.takes = v.owned ∧
      (v.events .acquire).filterMap Event.puts = [] ∧
      (v.events .acquire).filterMap Event.frees = [] := by
  unfold JSValue.events JSValue.owned
  cases v.val.hasRefCount <;> exact ⟨rfl, rfl, rfl⟩

theorem filterMap_events_free (v : JSValue) :
    (v.events .free).filterMap Event.takes = [] ∧
      (v.events .free).filterMap Event.puts = v.owned ∧
      (v.events .free).filterMap Event.frees = v.owned := by
  unfold JSValue.events JSValue.owned
  cases v.val.hasRefCount <;> exact ⟨rfl, rfl, rfl⟩

theorem filterMap_events_give (v : JSValue) :
    (v.events .give).filterMap Event.takes = [] ∧
      (v.events .give).filterMap Event.puts = v.owned ∧
      (v.events .give).filterMap Event.frees = [] := by
  unfold JSValue.events JSValue.owned
  cases v.val.hasRefCount <;> exact ⟨rfl, rfl, rfl⟩

/-- The names of one value are one name or none. -/
theorem nodup_owned (v : JSValue) : v.owned.Nodup := by
  unfold JSValue.owned
  split <;> simp

theorem rank_owned {v : JSValue} {n : Name} (h : n ∈ v.owned) : n.rank = v.ref := by
  unfold JSValue.owned at h
  split at h
  next => rw [List.mem_singleton.mp h, Name.rank]
  next => exact absurd h (by simp)

/-- Events that use nothing, from their roles. -/
theorem exact_of_roles {K : Roles Event Name} {lo hi : Nat} {o h : List Name} {es : List Event}
    (hle : lo ≤ hi) {takes puts : List Name} (htakes : es.filterMap K.takes = takes)
    (hputs : es.filterMap K.puts = puts)
    (heven : ∀ n, puts.count n + h.count n = takes.count n + o.count n) (hnew : takes.Nodup)
    (hrange : ∀ n ∈ takes, lo ≤ n.rank ∧ n.rank < hi) (huses : ∀ e ∈ es, K.uses e = none)
    (hallowed : ∀ e ∈ es, K.allowed e) : Exact K Name.rank lo hi o h es where
  le := hle
  even := by rw [htakes, hputs]; exact heven
  new := by rw [htakes]; exact hnew
  range := by rw [htakes]; exact hrange
  order := by
    refine List.pairwise_of_forall_mem_list fun e _ e' he' n _ => ?_
    rw [huses e' he']
    exact fun h => nomatch h
  known e he n h := by
    rw [huses e he] at h
    exact nomatch h
  allowed := hallowed

theorem mem_owned_ref {v : JSValue} (h : v.val.hasRefCount = true) : .ref v.ref ∈ v.owned := by
  rw [JSValue.owned, if_pos h]
  exact List.mem_singleton.mpr rfl

theorem forall_events {v : JSValue} {f : RefId → Event} {p : Event → Prop} (h : p (f v.ref)) :
    ∀ e ∈ v.events f, p e := by
  intro e he
  unfold JSValue.events at he
  split at he
  next => rwa [List.mem_singleton.mp he]
  next => exact absurd he (by simp)

theorem bookkeeping_exact {allowed : Event → Prop} (hacquire : ∀ r, allowed (.acquire r))
    (hfree : ∀ r, allowed (.free r)) (hacquireC : ∀ r, allowed (.acquireC r))
    (hfreeC : ∀ r, allowed (.freeC r)) (hreadC : ∀ r, allowed (.readC r)) :
    Bookkeeping (exactRefs allowed) where
  toAccount := account_exact _ _
  own n v := by
    obtain ⟨ht, hp, -⟩ := filterMap_events_takes ⟨v, n⟩
    refine exact_of_roles (Nat.le_succ n) ht hp (fun _ => by simp) (nodup_owned _) ?_
      (forall_events rfl) (forall_events (hacquire _))
    intro x hx
    rw [rank_owned hx]
    exact ⟨Nat.le_refl n, Nat.lt_succ_self n⟩
  free {n v} _ := by
    obtain ⟨ht, hp, -⟩ := filterMap_events_free v
    exact exact_of_roles (Nat.le_refl n) ht hp (fun _ => by simp) .nil (fun _ h => nomatch h)
      (forall_events rfl) (forall_events (hfree _))
  ownC n := by
    have ht : [Event.acquireC n].filterMap Event.takes = [.cstr n] := rfl
    have hp : [Event.acquireC n].filterMap Event.puts = [] := rfl
    refine exact_of_roles (Nat.le_succ n) ht hp (fun _ => by simp) (List.nodup_singleton _) ?_
      (List.forall_mem_singleton.mpr rfl) (List.forall_mem_singleton.mpr (hacquireC n))
    intro x hx
    rw [List.mem_singleton.mp hx]
    exact ⟨Nat.le_refl n, Nat.lt_succ_self n⟩
  freeC {n r} _ := by
    have ht : [Event.freeC r].filterMap Event.takes = [] := rfl
    have hp : [Event.freeC r].filterMap Event.puts = [.cstr r] := rfl
    exact exact_of_roles (Nat.le_refl n) ht hp (fun _ => by simp) .nil (fun _ h => nomatch h)
      (List.forall_mem_singleton.mpr rfl) (List.forall_mem_singleton.mpr (hfreeC r))
  readC {n r} _ :=
    { le := Nat.le_refl n
      even := fun _ => rfl
      new := .nil
      range := fun _ h => nomatch h
      order := List.pairwise_singleton _ _
      known := List.forall_mem_singleton.mpr fun x hx =>
        .inl (List.mem_singleton.mpr (Option.some.inj hx).symm)
      allowed := List.forall_mem_singleton.mpr (hreadC r) }

theorem handsOver_exact {allowed : Event → Prop} (hgive : ∀ r, allowed (.give r)) :
    HandsOver (exactRefs allowed) := by
  intro n v _
  obtain ⟨ht, hp, -⟩ := filterMap_events_give v
  exact exact_of_roles (Nat.le_refl n) ht hp (fun _ => by simp) .nil (fun _ h => nomatch h)
    (forall_events rfl) (forall_events (hgive _))

/-- Events that release nothing. -/
theorem loose_of_no_frees {lo hi : Nat} {o h : List Name} {es : List Event} (hle : lo ≤ hi)
    (hes : es.filterMap Event.frees = []) (hbelow : ∀ n ∈ h, n.rank < hi)
    (hbound : ∀ n, n.rank < lo ∨ n ∈ h → h.count n ≤ o.count n + if lo ≤ n.rank then 1 else 0) :
    looseRefs lo hi o h es where
  le := hle
  given n hn := by
    rw [hes] at hn
    exact nomatch hn
  below := hbelow
  bound n hn := by
    rw [hes]
    exact hbound n hn

theorem bookkeeping_loose : Bookkeeping looseRefs where
  toAccount := account_loose _ _
  own n v := by
    obtain ⟨-, -, hf⟩ := filterMap_events_takes ⟨v, n⟩
    refine loose_of_no_frees (Nat.le_succ n) hf ?_ ?_
    · intro x hx
      rw [rank_owned hx]
      exact Nat.lt_succ_self n
    · intro x hx
      by_cases hmem : x ∈ JSValue.owned ⟨v, n⟩
      · rw [rank_owned hmem, if_pos (Nat.le_refl n)]
        exact Nat.le_add_left_of_le (List.nodup_iff_count_le_one.mp (nodup_owned _) x)
      · rw [List.count_eq_zero.mpr hmem]
        exact Nat.zero_le _
  free {n v} hv := by
    obtain ⟨-, -, hf⟩ := filterMap_events_free v
    refine ⟨Nat.le_refl n, ?_, (fun _ h => nomatch h), ?_⟩
    · -- what is released was held, so it is older
      rw [hf]
      exact hv.2
    · intro x _
      rw [hf, List.count_nil]
      omega
  ownC n := by
    refine loose_of_no_frees (Nat.le_succ n) rfl ?_ ?_
    · intro x hx
      rw [List.mem_singleton.mp hx]
      exact Nat.lt_succ_self n
    · intro x hx
      by_cases hmem : x = .cstr n
      · rw [hmem, Name.rank, if_pos (Nat.le_refl n)]
        simp
      · rw [List.count_eq_zero.mpr (by simpa using hmem)]
        exact Nat.zero_le _
  freeC {n r} _ := loose_of_no_frees (Nat.le_refl n) rfl (fun _ h => nomatch h) (fun _ _ => by simp)
  readC {n r} hr := loose_of_no_frees (Nat.le_refl n) rfl hr.2 (fun _ _ => Nat.le_add_right _ _)

theorem handsOver_loose : HandsOver looseRefs := by
  intro n v hv
  obtain ⟨-, -, hf⟩ := filterMap_events_give v
  exact loose_of_no_frees (Nat.le_refl n) hf (fun _ h => nomatch h) (fun _ _ => by simp)

/-! ## The calls of the engine -/

section

variable {A : Nat → Nat → List Name → List Name → List Event → Prop} {J : Heap → Prop}
variable (hA : Bookkeeping A)

include hA

/-- Nothing is logged, nothing changes hands. -/
theorem entry_quiet {s t : Rt} {o : List Name} (ho : Held Name.rank s.fresh o)
    (htrace : t.trace = s.trace) (hfresh : t.fresh = s.fresh) : Entry A rtLog s o t o := by
  refine ⟨[], ?_, ?_⟩
  · show t.trace = s.trace ++ []
    rw [htrace, List.append_nil]
  · show A s.fresh t.fresh o o []
    rw [hfresh]
    exact hA.nil ho

theorem takes_ask {α : Type} (f : Heap → Outcome α) (o : List Name) :
    Takes A J o (fun _ => o) (ask f) := by
  intro s hs ho
  rw [wp_ask]
  exact ⟨by simpa using hs, entry_quiet hA ho (by simp) (by simp)⟩

theorem takes_jsThrow (e : JSVal) (o : List Name) : Takes A J o (fun _ => o) (jsThrow e) :=
  fun _ hs ho => ⟨hs, entry_quiet hA ho rfl rfl⟩

theorem takes_own (v : JSVal) : Takes A J [] JSValue.owned (own v) :=
  fun s hs _ => ⟨hs, _, rfl, hA.own s.fresh v⟩

theorem takes_ownC (b : Option Bytes) : Takes A J [] cstrOwned (ownC b) := by
  intro s hs ho
  cases b with
  | none => exact ⟨hs, entry_quiet hA ho rfl rfl⟩
  | some b => exact ⟨hs, _, rfl, hA.ownC s.fresh⟩

theorem takes_jsFreeValue (v : JSValue) : Takes A J v.owned (fun _ => []) (jsFreeValue v) :=
  fun _ hs ho => ⟨hs, _, rfl, hA.free ho⟩

theorem takes_jsFreeCString (c : Option CString) :
    Takes A J (cstrOwned c) (fun _ => []) (jsFreeCString c) := by
  intro s hs ho
  cases c with
  | none => exact ⟨hs, entry_quiet hA ho (List.append_nil _) rfl⟩
  | some c => exact ⟨hs, _, rfl, hA.freeC ho⟩

theorem takes_stdString (c : Option CString) :
    Takes A J (cstrOwned c) (fun _ => cstrOwned c) (stdString c) := by
  intro s hs ho
  cases c with
  | none => exact ⟨_, hA.entry_refl s ho⟩
  | some c => exact ⟨hs, _, rfl, hA.readC ho⟩

theorem takes_jsGetException : Takes A J [] JSValue.owned jsGetException :=
  fun s hs _ => ⟨hs, _, rfl, hA.own s.fresh s.pending⟩

/-- The heap is asked, and what it answers is owned. -/
theorem takes_ask_own {α : Type} (f : Heap → Outcome α) (g : Option α → JSVal) :
    Takes A J [] JSValue.owned (do own (g (← ask f))) :=
  hA.owes_bind (takes_ask hA f []) fun _ => takes_own hA _

theorem takes_jsGetPropertyStr (v : JSVal) (prop : Bytes) :
    Takes A J [] JSValue.owned (jsGetPropertyStr v prop) :=
  takes_ask_own hA _ (·.getD .exception)

theorem takes_jsGetPropertyUint32 (v : JSVal) (i : Nat) :
    Takes A J [] JSValue.owned (jsGetPropertyUint32 v i) :=
  takes_ask_own hA _ (·.getD .exception)

theorem takes_jsToString (v : JSVal) : Takes A J [] JSValue.owned (jsToString v) := by
  unfold jsToString
  exact takes_ask_own hA (Heap.text · v) fun t => (t.map JSVal.string).getD .exception

theorem takes_jsToCString (v : JSVal) : Takes A J [] cstrOwned (jsToCString v) :=
  hA.owes_bind (takes_ask hA _ []) fun _ => takes_ownC hA _

omit hA in
/-- A reference handed over to the engine. -/
theorem takes_give (hgive : HandsOver A) (v : JSValue) :
    Takes A J v.owned (fun _ => []) (give v) :=
  fun _ hs ho => ⟨hs, _, rfl, hgive ho⟩

/-! ## `to_js` -/

/-- The heap may change when nothing is asked of it. -/
abbrev AnyHeap : Heap → Prop := fun _ => True

theorem takes_alloc (p : Proto) (cls : JSClass) : Takes A AnyHeap [] JSValue.owned (alloc p cls) :=
  fun s _ _ => ⟨trivial, _, rfl, hA.own s.fresh (.object s.heap.next)⟩

theorem takes_jsNewArrayBufferCopy (data : Bytes) :
    Takes A AnyHeap [] JSValue.owned (jsNewArrayBufferCopy data) := by
  unfold jsNewArrayBufferCopy
  split
  next => exact takes_alloc hA _ _
  next => exact hA.owes_bind (takes_jsThrow hA _ []) fun _ => takes_own hA _

theorem takes_jsNewTypedArray (buffer : JSVal) (cls : TypedClass) :
    Takes A AnyHeap [] JSValue.owned (jsNewTypedArray buffer cls) := by
  refine hA.owes_bind hA.owes_get fun s => ?_
  have hthrow : ∀ e, Takes A AnyHeap [] JSValue.owned
      (do jsThrow e; own .exception : EngineM JSValue) := fun e =>
    hA.owes_bind (takes_jsThrow hA e []) fun _ => takes_own hA _
  split
  next =>
    split
    next =>
      split
      next => exact takes_alloc hA _ _
      next => exact hthrow _
    next => exact hthrow _
  next => exact takes_own hA _

theorem takes_createJsArrayTyped (a : JSArgTypedArray) :
    Takes A AnyHeap [] JSValue.owned (createJsArrayTyped a) := by
  refine hA.owes_bind (takes_jsNewArrayBufferCopy hA _) fun buffer => ?_
  refine hA.owes_new (takes_jsNewTypedArray hA _ _) fun array => ?_
  refine hA.owes_seq (takes_jsFreeValue hA buffer) List.perm_append_comm fun _ => ?_
  exact hA.owes_pure (.refl _)

variable (hgive : HandsOver A)

include hgive

theorem takes_jsSetPropertyUint32 (obj : JSVal) (i : Nat) (v : JSValue) :
    Takes A AnyHeap v.owned (fun _ => []) (jsSetPropertyUint32 obj i v) := by
  refine hA.owes_bind (takes_give hgive v) fun _ => ?_
  exact fun s _ ho => ⟨trivial, entry_quiet hA ho rfl rfl⟩

theorem takes_jsSetPropertyStr (obj : JSVal) (prop : Bytes) (v : JSValue) :
    Takes A AnyHeap v.owned (fun _ => []) (jsSetPropertyStr obj prop v) := by
  refine hA.owes_bind (takes_give hgive v) fun _ => ?_
  exact fun s _ ho => ⟨trivial, entry_quiet hA ho rfl rfl⟩

/-- The elements are handed over to the array one by one. -/
theorem takes_toJsItems (arr : JSValue) : ∀ (i : Nat) (items : List JSArg),
    (∀ a ∈ items, Takes A AnyHeap [] JSValue.owned (toJs a)) →
      Takes A AnyHeap arr.owned (fun _ => arr.owned) (toJsItems arr i items)
  | _, [], _ => by
    unfold toJsItems
    exact hA.owes_pure (.refl _)
  | i, a :: rest, ih => by
    unfold toJsItems
    have hrest := takes_toJsItems arr (i + 1) rest fun b hb => ih b (List.mem_cons_of_mem _ hb)
    refine hA.owes_new (ih a (List.mem_cons_self ..)) fun elem => ?_
    exact hA.owes_seq (takes_jsSetPropertyUint32 hA hgive _ _ elem) (.refl _) fun _ => hrest

/-- **`to_js`** leaves its caller with the value it returns and nothing else. -/
theorem takes_toJs (a : JSArg) : Takes A AnyHeap [] JSValue.owned (toJs a) := by
  induction a using JSArg.induct with
  | array items ih =>
    unfold toJs
    refine hA.owes_bind (takes_alloc hA _ _) fun arr => ?_
    exact hA.owes_bind (takes_toJsItems hA hgive arr 0 items ih) fun _ => hA.owes_pure (.refl _)
  | leaf a ha =>
    cases a with
    | array items => exact absurd rfl (ha items)
    | typedArray a =>
      unfold toJs
      exact takes_createJsArrayTyped hA a
    | exception msg name =>
      unfold toJs
      refine hA.owes_bind (takes_own hA _) fun errorMsg => ?_
      refine hA.owes_new (takes_own hA _) fun errorName => ?_
      refine hA.owes_new (takes_alloc hA _ _) fun error => ?_
      refine hA.owes_seq (takes_jsSetPropertyStr hA hgive _ _ errorMsg)
        (x := error.owned ++ errorName.owned) ?_ fun _ => ?_
      · rw [← List.append_assoc]
        exact List.perm_append_comm
      refine hA.owes_seq (takes_jsSetPropertyStr hA hgive _ _ errorName) (x := error.owned)
        ?_ fun _ => hA.owes_pure (.refl _)
      rw [List.nil_append]
      exact List.perm_append_comm
    | _ =>
      unfold toJs
      exact takes_own hA _

end

end Ejr
