import Ejr.Evaluated

/-!
# The search that evaluates

`js_inner_module_evaluation` keeps the books (`evalSpec`), and no assertion in
it fails. On the stack are modules that have been visited and modules whose
visit has not ended; of the first everything holds that will hold of them when
they are popped, but that some of what they import is still on the stack
(`Steady`). When it fails, each module on the stack leads to what has gone
wrong (`Broken`).
-/

namespace Ejr

open Lib

variable {E : Type}

/-- The module has not been linked. -/
def ModuleStatus.Fresh (st : ModuleStatus) : Prop := st = .unlinked ∨ st = .linking

theorem ModuleStatus.Settled.not_fresh {st : ModuleStatus} (h : st.Settled) : ¬st.Fresh := by
  rcases h with rfl | rfl <;> simp [Fresh]

namespace Evaluation

abbrev pending (s : Evaluation E) (v : DefId) : Nat := (s.mods v).pendingAsyncDependencies

/-- The module has been linked, at least. -/
def ModuleReady (r : Realm E) (s : Evaluation E) (v : DefId) : Prop :=
  ¬(s.status v).Fresh ∧ none ∉ r.reqModules v

/-! ## The invariant -/

/-- What a module imports is on the stack, or fine, and makes it wait if it has to. -/
def Reviewed (r : Realm E) (s : Evaluation E) (v : DefId) : Prop :=
  ∀ w, r.Imports v w →
    w ∈ s.stackTop ∨ ∃ c, Fine r s w c ∧ (s.async c = true → s.async v = true)

/-- The books, and the modules on the stack. -/
structure Steady (r : Realm E) (active : List DefId) (s : Evaluation E) : Prop
    extends Books r s where
  blank : ∀ a ∈ active, Blank s a
  visited : ∀ v ∈ s.stackTop, v ∉ active → Done r s v ∧ Reviewed r s v

/-- The search goes on: what is settled or on the stack is as before. -/
structure Continues (s t : Evaluation E) : Prop where
  log : ∃ rest, t.log = s.log ++ rest
  stack : ∀ v ∈ s.stackTop, v ∈ t.stackTop
  kept : ∀ v, (s.status v).Settled ∨ v ∈ s.stackTop →
    SameModule s t v ∧ t.pending v = s.pending v
  fresh : ∀ v, (s.status v).Fresh ∨ (t.status v).Fresh → t.status v = s.status v
  promise : ∀ v, t.promise v = s.promise v

/-- Evaluation has failed with `e`. -/
structure Broken (r : Realm E) (active : List DefId) (s : Evaluation E) (e : E) : Prop
    extends Books r s where
  nodup : s.stackTop.Nodup
  busy_iff : ∀ v, s.status v = .evaluating ↔ v ∈ s.stackTop
  blank : ∀ a ∈ active, Blank s a
  fault : ∀ v ∈ s.stackTop,
    Fault r s (fun w => (s.status w).Settled ∨ w ∈ s.stackTop) v e

/-- A visit that has come back with an index, or with an exception. -/
structure EvalVisited (r : Realm E) (active : List DefId) (m : DefId) (s t : Evaluation E)
    (res : Except E Nat) : Prop where
  continues : Continues s t
  ok : ∀ i, res = .ok i → Search r .evaluating ModuleStatus.Settled active t ∧
    Steady r active t ∧ (∀ v ∈ t.stackTop, t.index v < i) ∧ t.exception m = none ∧
    ∃ new, Visited r ModuleStatus.Settled m s t new ∧
      ∀ v ∈ new, t.async v = true → t.async m = true
  error : ∀ e, res = .error e → Broken r active t e

/-- What `js_inner_module_evaluation` comes to, from a search that leads to `m`. Unless it had
been settled, `m` stays on the stack or is the root of its cycle. -/
def EvalSpec (r : Realm E) (n : Nat) : Prop :=
  ∀ (active : List DefId) (m : DefId) (s : Evaluation E) (i : Nat),
    Search r .evaluating ModuleStatus.Settled active s → Steady r active s →
    (∀ v ∈ s.stackTop, s.index v < i) →
    (∀ v ∈ s.stackTop, Reach r v m ∧ ∃ a ∈ active, Reach r v a) →
    (∀ v, Reach r m v → ModuleReady r s v) →
    wp (innerModuleEvaluation r n m i) s
      (fun res t => EvalVisited r active m s t res ∧ (0 < n → s.exception m = none →
        m ∈ t.stackTop ∨ (∃ i, res = .ok i) ∧ ((s.status m).Settled ∨ t.root m = some m)))
      (fun _ _ => False)

/-- A visit of `m` under way. -/
structure EvalVisiting (r : Realm E) (active : List DefId) (m : DefId) (s t : Evaluation E)
    (new done : List DefId) : Prop where
  visiting : Visiting r .evaluating ModuleStatus.Settled active m s t new done
  steady : Steady r (m :: active) t
  continues : Continues s t
  above : ∀ v ∈ new, t.async v = true → 0 < t.pending m
  requests : ∀ w ∈ done,
    w ∈ t.stackTop ∨ ∃ c, Fine r t w c ∧ (t.async c = true → 0 < t.pending m)
  waits : 0 < t.pending m → ∃ w, Reach r m w ∧ (w, .started) ∈ t.log

section

variable {r : Realm E} {active new new1 done : List DefId} {m m1 v w c : DefId}
  {s t u : Evaluation E} {n : Nat} {e : E}

theorem Continues.refl (s : Evaluation E) : Continues s s :=
  ⟨⟨[], (List.append_nil _).symm⟩, fun _ h => h, fun _ _ => ⟨sameModule_of_eq rfl, rfl⟩,
    fun _ _ => rfl, fun _ => rfl⟩

theorem Continues.subset (h : Continues s t) : s.log ⊆ t.log := by
  obtain ⟨rest, hrest⟩ := h.log
  exact hrest ▸ List.subset_append_left ..

theorem Continues.settled (h : Continues s t) (hv : (s.status v).Settled) :
    (t.status v).Settled := by
  rw [(h.kept v (.inl hv)).1.status]
  exact hv

theorem Continues.ready (h : Continues s t) (hv : ModuleReady r s v) : ModuleReady r t v :=
  ⟨fun hf => hv.1 (h.fresh v (.inr hf) ▸ hf), hv.2⟩

theorem Continues.trans (h : Continues s t) (h' : Continues t u) : Continues s u where
  log := by
    obtain ⟨rest, hrest⟩ := h.log
    obtain ⟨rest', hrest'⟩ := h'.log
    exact ⟨rest ++ rest', by rw [hrest', hrest, List.append_assoc]⟩
  stack v hv := h'.stack v (h.stack v hv)
  kept v hv := by
    obtain ⟨hsame, hpending⟩ := h.kept v hv
    obtain ⟨hsame', hpending'⟩ := h'.kept v (hv.imp h.settled (h.stack v))
    exact ⟨hsame.trans hsame', hpending'.trans hpending⟩
  fresh v hv := by
    rcases hv with hv | hv
    · have heq := h.fresh v (.inl hv)
      exact (h'.fresh v (.inl (heq ▸ hv))).trans heq
    · have heq := h'.fresh v (.inr hv)
      exact heq.trans (h.fresh v (.inr (heq ▸ hv)))
  promise v := (h'.promise v).trans (h.promise v)

/-- A change to a module that was neither settled nor on the stack. -/
theorem Continues.quiet (h : Continues s t) (htu : Quiet t u)
    (hpending : ∀ v, (s.status v).Settled ∨ v ∈ s.stackTop → u.pending v = t.pending v) :
    Continues s u where
  log := htu.log ▸ h.log
  stack v hv := htu.stack ▸ h.stack v hv
  kept v hv := by
    obtain ⟨hsame, hp⟩ := h.kept v hv
    exact ⟨hsame.trans (htu.same v), (hpending v hv).trans hp⟩
  fresh v hv := by
    rw [(htu.same v).status] at hv ⊢
    exact h.fresh v hv
  promise v := (htu.promise v).trans (h.promise v)

theorem Continues.fine (h : Continues s t) (hf : Fine r s v c) : Fine r t v c :=
  hf.congr (h.kept v (.inl hf.settled)).1 (h.kept c (.inl hf.rootSettled)).1 h.subset

theorem Fine.quiet (hf : Fine r s v c) (h : Quiet s t) : Fine r t v c :=
  hf.congr (h.same v) (h.same c) (h.log ▸ List.Subset.refl _)

theorem Steady.congr (h : Steady r active s) (hst : Quiet s t) : Steady r active t where
  toBooks := h.toBooks.congr hst
  blank a ha := (h.blank a ha).congr (hst.same a) fun x hx => hst.log ▸ hx
  visited v hv hactive := by
    rw [hst.stack] at hv
    obtain ⟨hdone, hreviewed⟩ := h.visited v hv hactive
    refine ⟨hdone.congr (hst.same v) (hst.log ▸ List.Subset.refl _), fun w himp => ?_⟩
    rw [hst.stack, (hst.same v).async]
    refine (hreviewed w himp).imp_right fun ⟨c, hfine, ha⟩ => ⟨c, hfine.quiet hst, ?_⟩
    rwa [(hst.same c).async]

/-- What is on the stack is not settled. -/
theorem Visiting.not_settled
    (h : Visiting r .evaluating ModuleStatus.Settled active m s t new done)
    (hv : v ∈ t.stackTop) : ¬(t.status v).Settled := by
  rw [(h.search.busy_iff v).mpr hv]
  exact ModuleStatus.not_settled_evaluating

/-! ## A visit begins -/

/-- `m` is put on the stack, as number `i`. -/
def entered (i : Nat) (m : DefId) (s : Evaluation E) : Evaluation E :=
  { s with
    mods := Function.update s.mods m
      { s.mods m with
        status := .evaluating
        dfsIndex := i
        dfsAncestorIndex := i
        pendingAsyncDependencies := 0 }
    stackTop := m :: s.stackTop }

/-- A linked module is put on the stack. -/
theorem Steady.enter (h : Steady r active s)
    (hs : Search r .evaluating ModuleStatus.Settled active s) (hm : s.status m = .linked)
    (i : Nat) : Steady r (m :: active) (s.entered i m) ∧ Continues s (s.entered i m) := by
  let t := s.entered i m
  have hold : ∀ v, v ≠ m → t.mods v = s.mods v := fun v hv => Function.update_of_ne hv _ _
  have hself : t.mods m = { s.mods m with
      status := .evaluating
      dfsIndex := i
      dfsAncestorIndex := i
      pendingAsyncDependencies := 0 } := Function.update_self ..
  have hnot : ¬(s.status m).Settled := by
    rw [hm]
    simp [ModuleStatus.Settled]
  have hbusy : s.status m ≠ .evaluating := by
    rw [hm]
    decide
  have hne : ∀ v, (s.status v).Settled ∨ v ∈ s.stackTop → v ≠ m := by
    rintro v hv rfl
    exact hv.elim hnot fun hmem => hbusy ((hs.busy_iff v).mpr hmem)
  have hblank := (h.accounted m).blank hnot hbusy
  have hblank' : Blank t m := by
    refine ⟨?_, ?_, hblank.unrun⟩
    · rw [async, hself]
      exact hblank.async
    · rw [exception, hself]
      exact hblank.exception
  have hstatus : t.status m = .evaluating := by rw [status, hself]
  have hpromise : ∀ v, t.promise v = s.promise v := by
    intro v
    by_cases hv : v = m
    · rw [hv, promise, hself]
    · rw [promise, hold v hv]
  refine ⟨⟨h.toBooks.change (· = m) (by rintro v rfl; exact hnot)
    (fun v hv => sameModule_of_eq (hold v hv)) (fun c e hp => (hpromise c).trans hp) []
    (List.append_nil _).symm (by simp) h.once h.ordered ?_, ?_, ?_⟩, ?_⟩
  · rintro v rfl
    refine ⟨fun _ hb => absurd hstatus hb, fun hst => ?_, fun hst => ?_, fun e he => ?_⟩
    · rw [hstatus] at hst
      exact absurd hst (by decide)
    · rw [hstatus] at hst
      exact absurd hst ModuleStatus.not_settled_evaluating
    · rw [hblank'.exception] at he
      exact absurd he (by simp)
  · intro a ha
    by_cases ham : a = m
    · rw [ham]
      exact hblank'
    · exact (h.blank a ((List.mem_cons.mp ha).resolve_left ham)).congr
        (sameModule_of_eq (hold a ham)) fun x hx => hx
  · intro v hv hactive
    have hvm : v ≠ m := fun he => hactive (he ▸ List.mem_cons_self ..)
    have hv' : v ∈ s.stackTop := (List.mem_cons.mp hv).resolve_left hvm
    have hsame := sameModule_of_eq (hold v hvm)
    obtain ⟨hdone, hreviewed⟩ := h.visited v hv' fun ha => hactive (List.mem_cons_of_mem _ ha)
    refine ⟨hdone.congr hsame (List.Subset.refl _), fun w himp => ?_⟩
    rcases hreviewed w himp with hw | ⟨c, hfine, ha⟩
    · exact .inl (List.mem_cons_of_mem _ hw)
    · have hc := sameModule_of_eq (hold c (hne c (.inl hfine.rootSettled)))
      refine .inr ⟨c, hfine.congr (sameModule_of_eq (hold w (hne w (.inl hfine.settled)))) hc
        (List.Subset.refl _), ?_⟩
      rwa [hc.async, hsame.async]
  · refine ⟨⟨[], (List.append_nil _).symm⟩, fun v hv => List.mem_cons_of_mem _ hv, fun v hv => ?_,
      fun v hv => ?_, hpromise⟩
    · exact ⟨sameModule_of_eq (hold v (hne v hv)), by rw [pending, hold v (hne v hv)]⟩
    · by_cases hvm : v = m
      · subst hvm
        rw [hm, hstatus] at hv
        exact absurd hv (by simp [ModuleStatus.Fresh])
      · rw [status, hold v hvm]

theorem EvalVisiting.begin (hs : Search r .evaluating ModuleStatus.Settled active s)
    (hsteady : Steady r active s) (hm : s.status m = .linked) {i : Nat}
    (hlt : ∀ v ∈ s.stackTop, s.index v < i) (hreach : ∀ v ∈ s.stackTop, Reach r v m) :
    EvalVisiting r active m s (s.entered i m) [] [] ∧
      ∀ v ∈ (s.entered i m).stackTop, (s.entered i m).index v < i + 1 := by
  have hbusy : s.status m ≠ .evaluating := by
    rw [hm]
    decide
  have hsettled : ¬(s.status m).Settled := by
    rw [hm]
    simp [ModuleStatus.Settled]
  obtain ⟨hsteady', hcont⟩ := hsteady.enter hs hm i
  have hzero : (s.entered i m).pending m = 0 := by simp [entered, pending]
  refine ⟨⟨hs.begin hbusy hsettled hlt hreach rfl rfl rfl, hsteady', hcont, by simp, by simp,
    fun hp => absurd hp (hzero ▸ Nat.lt_irrefl 0)⟩, fun v hv => ?_⟩
  by_cases hvm : v = m
  · simp [entered, hvm, index]
  · have hold : v ∈ s.stackTop := (List.mem_cons.mp hv).resolve_left hvm
    have := hlt v hold
    simp [entered, hvm, index] at this ⊢
    omega

/-! ## After a request -/

theorem lowered_mods (s : Evaluation E) (m m1 v : DefId) :
    (s.lowered m m1).mods v = { s.mods v with dfsAncestorIndex := (s.lowered m m1).low v } := by
  by_cases hv : v = m
  · subst hv
    simp [lowered, low]
  · simp [lowered, low, hv]

theorem quiet_lowered (s : Evaluation E) (m m1 : DefId) : Quiet s (s.lowered m m1) where
  stack := rfl
  log := rfl
  same v := by
    have h := lowered_mods s m m1 v
    exact ⟨by rw [status, h], by rw [async, h], by rw [root, h], by rw [exception, h]⟩
  promise v := by rw [promise, lowered_mods s m m1 v]

/-- `m` waits for `x`, if that is asynchronous. -/
def depended (m x : DefId) (s : Evaluation E) : Evaluation E :=
  if s.async x = true then
    let mods := Function.update s.mods m
      { s.mods m with pendingAsyncDependencies := s.pending m + 1 }
    { s with
      mods := Function.update mods x
        { mods x with asyncParentModules := (mods x).asyncParentModules ++ [m] } }
  else s

theorem wp_addDependency {x : DefId} {Q : Unit → Evaluation E → Prop}
    {X : EvalStop → Evaluation E → Prop} :
    wp (addDependency m x) s Q X ↔ Q () (s.depended m x) := by
  rw [addDependency, wp_bind, wp_getModule, depended]
  split
  · rfl
  · rfl

theorem depended_mods (s : Evaluation E) (m x v : DefId) :
    (s.depended m x).mods v = { s.mods v with
      pendingAsyncDependencies := s.pending v + if v = m ∧ s.async x = true then 1 else 0
      asyncParentModules := ((s.depended m x).mods v).asyncParentModules } := by
  unfold depended
  by_cases ha : s.async x = true
  · rw [if_pos ha]
    by_cases hv : v = m
    · subst hv
      by_cases hx : v = x
      · subst hx
        simp [ha]
      · simp [ha, hx]
    · by_cases hx : v = x
      · subst hx
        simp [hv]
      · simp [hv, hx]
  · rw [if_neg ha]
    simp [ha]

theorem quiet_depended (s : Evaluation E) (m x : DefId) : Quiet s (s.depended m x) where
  stack := by unfold depended; split <;> rfl
  log := by unfold depended; split <;> rfl
  same v := by
    have h := depended_mods s m x v
    exact ⟨by rw [status, h], by rw [async, h], by rw [root, h], by rw [exception, h]⟩
  promise v := by rw [promise, depended_mods s m x v]

theorem sameSearch_depended (s : Evaluation E) (m x : DefId) : SameSearch s (s.depended m x) where
  stack := (quiet_depended s m x).stack
  status v := ((quiet_depended s m x).same v).status
  index v := by rw [index, depended_mods s m x v]
  low v := by rw [low, depended_mods s m x v]

theorem pending_depended (s : Evaluation E) (m x v : DefId) :
    (s.depended m x).pending v = s.pending v + if v = m ∧ s.async x = true then 1 else 0 := by
  rw [pending, depended_mods s m x v]

theorem EvalVisiting.not_old (h : EvalVisiting r active m s t new done) :
    ¬((s.status m).Settled ∨ m ∈ s.stackTop) := by
  have hmem : m ∈ t.stackTop := h.visiting.search.active_mem m (List.mem_cons_self ..)
  rintro (hm | hm)
  · exact h.visiting.not_settled hmem (h.continues.settled hm)
  · exact Nat.lt_irrefl _ (h.visiting.index_lt hm)

/-- A request of `m` has been visited, and `m` waits for `x` if it has to. -/
theorem EvalVisiting.next (h : EvalVisiting r active m s t new done) (hcont : Continues t u)
    (hsteady : Steady r (m :: active) u) {u' : Evaluation E} (hquiet : Quiet u u')
    (hvisiting : Visiting r .evaluating ModuleStatus.Settled active m s u' new1 (m1 :: done))
    {x : DefId}
    (hpending : ∀ v, u'.pending v = u.pending v + if v = m ∧ u.async x = true then 1 else 0)
    (hnew : ∀ v ∈ new1, u.async v = true → v ∈ new ∨ u.async x = true)
    (hm1 : m1 ∈ u.stackTop ∨ ∃ c, Fine r u m1 c ∧ (u.async c = true → u.async x = true))
    (hx : u.async x = true → ∃ w, Reach r m w ∧ (w, .started) ∈ u.log) :
    EvalVisiting r active m s u' new1 (m1 :: done) := by
  have hmem : m ∈ t.stackTop := h.visiting.search.active_mem m (List.mem_cons_self ..)
  have hpm : t.pending m ≤ u'.pending m := by
    rw [hpending m, (hcont.kept m (.inr hmem)).2]
    exact Nat.le_add_right ..
  have hwaits : u.async x = true → 0 < u'.pending m := by
    intro ha
    rw [hpending m, if_pos ⟨rfl, ha⟩]
    exact Nat.succ_pos _
  refine ⟨hvisiting, hsteady.congr hquiet, (h.continues.trans hcont).quiet hquiet fun v hv => ?_,
    fun v hv ha => ?_, List.forall_mem_cons.mpr ⟨?_, fun w hw => ?_⟩, fun hpos => ?_⟩
  · rw [hpending v, if_neg, Nat.add_zero]
    rintro ⟨rfl, -⟩
    exact h.not_old hv
  · rw [(hquiet.same v).async] at ha
    rcases hnew v hv ha with hv | hx
    · have hvt : v ∈ t.stackTop := by
        rw [h.visiting.stack]
        exact List.mem_append_left _ hv
      rw [(hcont.kept v (.inr hvt)).1.async] at ha
      exact Nat.lt_of_lt_of_le (h.above v hv ha) hpm
    · exact hwaits hx
  · rw [hquiet.stack]
    refine hm1.imp_right fun ⟨c, hfine, ha⟩ => ⟨c, hfine.quiet hquiet, fun hc => hwaits (ha ?_)⟩
    rwa [(hquiet.same c).async] at hc
  · rw [hquiet.stack]
    refine (h.requests w hw).imp (hcont.stack w) fun ⟨c, hfine, ha⟩ =>
      ⟨c, (hcont.fine hfine).quiet hquiet, fun hc => ?_⟩
    rw [(hquiet.same c).async, (hcont.kept c (.inl hfine.rootSettled)).1.async] at hc
    exact Nat.lt_of_lt_of_le (ha hc) hpm
  · rw [hquiet.log]
    by_cases ha : u.async x = true
    · exact hx ha
    · rw [hpending m, if_neg fun h => ha h.2, Nat.add_zero, (hcont.kept m (.inr hmem)).2] at hpos
      obtain ⟨w, hw, hstarted⟩ := h.waits hpos
      exact ⟨w, hw, hcont.subset hstarted⟩

/-- The request was on the stack already, or has stayed there. -/
theorem EvalVisiting.busy_request (h : EvalVisiting r active m s t new done)
    (hcont : Continues t u) (hsteady : Steady r (m :: active) u)
    (hsearch : Search r .evaluating ModuleStatus.Settled (m :: active) u)
    (h1 : Visited r ModuleStatus.Settled m1 t u new1)
    (hasync : ∀ v ∈ new1, u.async v = true → u.async m1 = true) (himp : r.Imports m m1)
    (hm1 : u.status m1 = .evaluating) :
    EvalVisiting r active m s ((u.lowered m m1).depended m m1) (new1 ++ new) (m1 :: done) := by
  have hsame := (quiet_lowered u m m1).same
  have hmem : m1 ∈ u.stackTop := (hsearch.busy_iff m1).mp hm1
  refine h.next (x := m1) hcont hsteady ((quiet_lowered u m m1).trans (quiet_depended ..))
    ((h.visiting.busy_request h1 hsearch himp hm1).congr (sameSearch_depended ..)) (fun v => ?_)
    (fun v hv ha => ?_) (.inl hmem) fun ha => ?_
  · rw [pending_depended, (hsame m1).async, pending, lowered_mods]
  · exact (List.mem_append.mp hv).symm.imp_right fun hv => hasync v hv ha
  · have hactive : m1 ∉ m :: active := by
      intro hmem
      rw [(hsteady.blank m1 hmem).async] at ha
      exact absurd ha (by simp)
    obtain ⟨w, hw, hstarted⟩ := (hsteady.visited m1 hmem hactive).1.waits ha
    exact ⟨w, .head himp hw, hstarted⟩

/-- The request has been settled; `c` is the root of its cycle. -/
theorem EvalVisiting.settled_request (h : EvalVisiting r active m s t new done)
    (hcont : Continues t u) (hsteady : Steady r (m :: active) u)
    (hsearch : Search r .evaluating ModuleStatus.Settled (m :: active) u)
    (h1 : Visited r ModuleStatus.Settled m1 t u new1) (himp : r.Imports m m1)
    (hm1 : u.status m1 ≠ .evaluating) (hfine : Fine r u m1 c) :
    EvalVisiting r active m s (u.depended m c) new (m1 :: done) :=
  h.next hcont hsteady (quiet_depended ..)
    ((h.visiting.settled_request h1 hsearch hm1).2.congr (sameSearch_depended ..))
    (pending_depended u m c) (fun _ hv _ => .inl hv) (.inr ⟨c, hfine, id⟩) fun ha => by
      obtain ⟨w, hw, hstarted⟩ := hfine.rootDone.waits ha
      exact ⟨w, .head himp (hfine.there.trans hw), hstarted⟩

/-- By induction on the requests that are left. -/
theorem wp_evaluateRequests (hvisit : EvalSpec r n)
    (hready : ∀ v, Reach r m v → ModuleReady r s v) : ∀ (rest : List (Option DefId))
    (new done : List DefId) (t : Evaluation E) (i : Nat),
    EvalVisiting r active m s t new done → (∀ v ∈ t.stackTop, t.index v < i) →
    (∀ x ∈ rest, x ∈ r.reqModules m) →
    wp (evaluateRequests (innerModuleEvaluation r n) m rest i) t
      (fun res u =>
        (∀ i', res = .ok i' → (∀ v ∈ u.stackTop, u.index v < i') ∧ ∃ new' done',
          EvalVisiting r active m s u new' done' ∧ ∀ w, w ∈ done ∨ some w ∈ rest → w ∈ done') ∧
        (∀ e, res = .error e →
          Continues s u ∧ m ∈ u.stackTop ∧ Broken r (m :: active) u e))
      (fun _ _ => False)
  | [], new, done, t, i, ht, hlt, _ => by
    refine ⟨fun i' h => ?_, fun e h => absurd h (by simp)⟩
    obtain rfl := Except.ok.inj h
    exact ⟨hlt, new, done, ht, fun w hw => hw.resolve_right (by simp)⟩
  | x :: rest, new, done, t, i, ht, hlt, hrest => by
    obtain ⟨hx, hrest'⟩ := List.forall_mem_cons.mp hrest
    obtain ⟨m1, rfl⟩ : ∃ m1, x = some m1 :=
      Option.ne_none_iff_exists'.mp fun h => (hready m .refl).2 (h ▸ hx)
    have himp : r.Imports m m1 := hx
    rw [evaluateRequests, wp_bind, wp_follow, wp_bind]
    refine wp_mono (hvisit (m :: active) m1 t i ht.visiting.search ht.steady hlt
      (fun v hv => ⟨(ht.visiting.reach v hv).tail himp, m, List.mem_cons_self ..,
        ht.visiting.reach v hv⟩)
      fun v hv => ht.continues.ready (hready v (.head himp hv))) ?_ fun _ _ h => h
    intro res u h
    obtain ⟨⟨hcont, hok, herror⟩, -⟩ := h
    cases res with
    | error e =>
      have hmem : m ∈ t.stackTop := ht.visiting.search.active_mem m (List.mem_cons_self ..)
      refine ⟨fun i' h => absurd h (by simp), fun e' h => ?_⟩
      obtain rfl := Except.error.inj h
      exact ⟨ht.continues.trans hcont, hcont.stack m hmem, herror e rfl⟩
    | ok i' =>
      obtain ⟨hsearch, hsteady, hlt', hex, new1, h1, hasync⟩ := hok i' rfl
      have hstatus : (u.mods m1).status = .evaluating ∨ (u.mods m1).status = .evaluatingAsync ∨
          (u.mods m1).status = .evaluated := h1.found.imp_left (hsearch.busy_iff m1).mpr
      dsimp only
      rw [wp_bind, wp_getModule, wp_bind, wp_assert hstatus]
      by_cases hbusy : u.status m1 = .evaluating
      · rw [if_pos hbusy, wp_bind]
        show wp (addDependency m m1 >>= _) (u.lowered m m1) _ _
        rw [wp_bind, wp_addDependency]
        have hnext := ht.busy_request hcont hsteady hsearch h1 hasync himp hbusy
        refine wp_mono (wp_evaluateRequests hvisit hready rest (new1 ++ new) (m1 :: done) _ i' hnext
          (fun v hv => ?_) hrest') ?_ fun _ _ h => h
        · have hsame := sameSearch_depended (u.lowered m m1) m m1
          rw [hsame.stack] at hv
          rw [hsame.index, lowered_index]
          exact hlt' v hv
        · intro res v h
          refine ⟨fun i'' hres => ?_, h.2⟩
          obtain ⟨hlt'', new', done', hv, hdone'⟩ := h.1 i'' hres
          exact ⟨hlt'', new', done', hv, fun w => done_cons hdone'⟩
      · rw [if_neg hbusy]
        have hsettled : (u.status m1).Settled := hstatus.resolve_left hbusy
        obtain ⟨c, hfine, -⟩ := (hsteady.accounted m1).fine hsettled hex
        have hroot : (u.mods m1).cycleRoot = some c := hfine.root
        have hcstatus : (u.mods c).status = .evaluatingAsync ∨ (u.mods c).status = .evaluated :=
          hfine.rootSettled
        have hcex : (u.mods c).evalException = none := hfine.rootDone.exception
        rw [hroot, wp_bind, wp_follow, wp_bind, wp_getModule, wp_bind, wp_assert hcstatus, hcex]
        dsimp only
        rw [wp_bind, wp_addDependency]
        have hnext := ht.settled_request hcont hsteady hsearch h1 himp hbusy hfine
        refine wp_mono (wp_evaluateRequests hvisit hready rest new (m1 :: done) _ i' hnext
          (fun v hv => ?_) hrest') ?_ fun _ _ h => h
        · have hsame := sameSearch_depended u m c
          rw [hsame.stack] at hv
          rw [hsame.index]
          exact hlt' v hv
        · intro res v h
          refine ⟨fun i'' hres => ?_, h.2⟩
          obtain ⟨hlt'', new', done', hv, hdone'⟩ := h.1 i'' hres
          exact ⟨hlt'', new', done', hv, fun w => done_cons hdone'⟩

end

end Evaluation

end Ejr
