import Ejr.Evaluating

/-!
# The end of a visit

When the requests of a module have been evaluated its code is run, unless it has
to wait for what is asynchronous (`wp_runModule`). Either way what holds of the
modules on the stack holds of it now (`EvalEnding`), and it stays there or is
popped with its cycle. With this the recursion of `js_inner_module_evaluation`
closes (`evalSpec`).
-/

namespace Ejr

open Lib

variable {E : Type}

namespace Evaluation

section

variable {r : Realm E} {active new done : List DefId} {m v w : DefId}
  {s t u : Evaluation E} {n : Nat} {e : E}

/-! ## The module itself -/

/-- The code of `m` has been run, or `m` has begun to wait. -/
structure Runs (m : DefId) (t u : Evaluation E) (rest : List (DefId × Ran E)) : Prop where
  stack : u.stackTop = t.stackTop
  log : u.log = t.log ++ rest
  other : ∀ v, v ≠ m → u.mods v = t.mods v
  self : u.mods m = { t.mods m with
    asyncEvaluation := u.async m
    asyncEvaluationTimestamp := (u.mods m).asyncEvaluationTimestamp }

section

variable {rest : List (DefId × Ran E)}

theorem Runs.sameSearch (h : Runs m t u rest) : SameSearch t u where
  stack := h.stack
  status v := by
    by_cases hv : v = m
    · rw [hv, status, h.self]
    · rw [status, h.other v hv]
  index v := by
    by_cases hv : v = m
    · rw [hv, index, h.self]
    · rw [index, h.other v hv]
  low v := by
    by_cases hv : v = m
    · rw [hv, low, h.self]
    · rw [low, h.other v hv]

theorem Runs.promise (h : Runs m t u rest) (v : DefId) : u.promise v = t.promise v := by
  by_cases hv : v = m
  · rw [hv, Evaluation.promise, h.self]
  · rw [Evaluation.promise, h.other v hv]

theorem Runs.exception (h : Runs m t u rest) (hm : t.exception m = none) :
    u.exception m = none := by
  rw [Evaluation.exception, h.self]
  exact hm

theorem Runs.subset (h : Runs m t u rest) : t.log ⊆ u.log :=
  h.log ▸ List.subset_append_left ..

/-- Either way the books are kept. -/
theorem EvalVisiting.runs (h : EvalVisiting r active m s t new done)
    (hdone : Visiting.Complete r m done) (hrun : Runs m t u rest)
    (hrest : rest = [] ∨ t.pending m = 0 ∧ ∃ x, rest = [(m, x)]) :
    Books r u ∧ Continues s u ∧ ∀ a ∈ active, Blank u a := by
  have hmem : m ∈ t.stackTop := h.visiting.search.active_mem m (List.mem_cons_self ..)
  have hblank : Blank t m := h.steady.blank m (List.mem_cons_self ..)
  have honly : ∀ v x, (v, x) ∈ rest → v = m := by
    intro v x hv
    rcases hrest with rfl | ⟨-, y, rfl⟩
    · exact absurd hv List.not_mem_nil
    · exact (Prod.mk.inj (List.mem_singleton.mp hv)).1
  have hstatus := hrun.sameSearch.status
  refine ⟨h.steady.toBooks.change (· = m) (by rintro v rfl; exact h.visiting.not_settled hmem)
    (fun v hv => sameModule_of_eq (hrun.other v hv)) (fun c e hp => (hrun.promise c).trans hp) rest
    hrun.log honly ?_ ?_ ?_, ⟨?_, fun v hv => hrun.stack ▸ h.continues.stack v hv, fun v hv => ?_,
    fun v hv => ?_, fun v => (hrun.promise v).trans (h.continues.promise v)⟩, fun a ha => ?_⟩
  · rcases hrest with rfl | ⟨-, x, rfl⟩
    · rw [hrun.log, List.append_nil]
      exact h.steady.once
    · rw [hrun.log, List.map_append]
      refine List.nodup_append.mpr ⟨h.steady.once, List.nodup_singleton _, fun a ha b hb => ?_⟩
      obtain rfl := List.mem_singleton.mp hb
      rintro rfl
      obtain ⟨⟨v, y⟩, hp, rfl⟩ := List.mem_map.mp ha
      exact hblank.unrun y hp
  · rcases hrest with rfl | ⟨hpending, x, rfl⟩
    · rw [hrun.log, List.append_nil]
      exact h.steady.ordered
    · rw [hrun.log]
      refine h.steady.ordered.snoc fun w himp => ?_
      rcases h.requests w (hdone w himp) with hw | ⟨c, hfine, ha⟩
      · exact .inr (h.visiting.reach w hw)
      · refine .inl (hfine.completed ?_)
        by_contra hc
        have := ha (by simpa using hc)
        omega
  · rintro v rfl
    have hbusy : u.status v = .evaluating :=
      (hstatus v).trans ((h.visiting.search.busy_iff v).mpr hmem)
    refine ⟨fun _ hb => absurd hbusy hb, fun hst => ?_, fun hst => ?_, fun e he => ?_⟩
    · rw [hbusy] at hst
      exact absurd hst (by decide)
    · rw [hbusy] at hst
      exact absurd hst ModuleStatus.not_settled_evaluating
    · rw [hrun.exception hblank.exception] at he
      exact absurd he (by simp)
  · obtain ⟨rest', hrest'⟩ := h.continues.log
    exact ⟨rest' ++ rest, by rw [hrun.log, hrest', List.append_assoc]⟩
  · have hvm : v ≠ m := by
      rintro rfl
      exact h.not_old hv
    obtain ⟨hsame, hpending⟩ := h.continues.kept v hv
    exact ⟨hsame.trans (sameModule_of_eq (hrun.other v hvm)),
      by rw [pending, hrun.other v hvm]; exact hpending⟩
  · rw [hstatus] at hv ⊢
    exact h.continues.fresh v hv
  · have ham : a ≠ m := by
      rintro rfl
      exact h.not_old (.inr (h.visiting.active_old a ha))
    refine (h.steady.blank a (List.mem_cons_of_mem _ ha)).congr
      (sameModule_of_eq (hrun.other a ham)) fun x hx => ?_
    rw [hrun.log] at hx
    exact (List.mem_append.mp hx).resolve_right fun hx => ham (honly a x hx)

/-- The visit of `m` is over, but for what is popped. -/
structure EvalEnding (r : Realm E) (active : List DefId) (m : DefId) (s t : Evaluation E)
    (new done : List DefId) : Prop where
  visiting : Visiting r .evaluating ModuleStatus.Settled active m s t new done
  steady : Steady r active t
  continues : Continues s t
  complete : Visiting.Complete r m done
  above : ∀ v ∈ new, t.async v = true → t.async m = true

theorem EvalVisiting.ending (h : EvalVisiting r active m s t new done)
    (hdone : Visiting.Complete r m done) (hrun : Runs m t u rest)
    (hrest : rest = [] ∨ t.pending m = 0 ∧ ∃ x, rest = [(m, x)]) (hself : Done r u m)
    (hasync : 0 < t.pending m → u.async m = true) : EvalEnding r active m s u new done := by
  obtain ⟨hbooks, hcont, hblank⟩ := h.runs hdone hrun hrest
  have hne : ∀ v, (t.status v).Settled → v ≠ m := by
    rintro v hv rfl
    exact h.visiting.not_settled (h.visiting.search.active_mem v (List.mem_cons_self ..)) hv
  have hfine : ∀ {w c}, Fine r t w c → Fine r u w c := fun hf =>
    hf.congr (sameModule_of_eq (hrun.other _ (hne _ hf.settled)))
      (sameModule_of_eq (hrun.other _ (hne _ hf.rootSettled))) hrun.subset
  refine ⟨h.visiting.congr hrun.sameSearch, ⟨hbooks, hblank, fun v hv hactive => ?_⟩, hcont, hdone,
    fun v hv ha => hasync (h.above v hv ?_)⟩
  · rw [hrun.stack] at hv
    by_cases hvm : v = m
    · subst hvm
      refine ⟨hself, fun w himp => ?_⟩
      rw [hrun.stack]
      refine (h.requests w (hdone w himp)).imp_right ?_
      rintro ⟨c, hf, ha⟩
      refine ⟨c, hfine hf, fun hc => ?_⟩
      rw [async, hrun.other c (hne c hf.rootSettled)] at hc
      exact hasync (ha hc)
    · have hactive' : v ∉ m :: active := fun hmem => (List.mem_cons.mp hmem).elim hvm hactive
      obtain ⟨hd, hreviewed⟩ := h.steady.visited v hv hactive'
      refine ⟨hd.congr (sameModule_of_eq (hrun.other v hvm)) hrun.subset, fun w himp => ?_⟩
      rw [hrun.stack]
      refine (hreviewed w himp).imp_right ?_
      rintro ⟨c, hf, ha⟩
      refine ⟨c, hfine hf, fun hc => ?_⟩
      rw [async, hrun.other c (hne c hf.rootSettled)] at hc
      rw [async, hrun.other v hvm]
      exact ha hc
  · have hvm : v ≠ m := by
      rintro rfl
      have hnodup := h.visiting.search.dfs.nodup
      rw [h.visiting.stack] at hnodup
      exact (List.nodup_append.mp hnodup).2.2 v hv v (List.mem_cons_self ..) rfl
    rwa [async, hrun.other v hvm] at ha

end

/-- `m` is asynchronous from now on. -/
def begun (m : DefId) (s : Evaluation E) : Evaluation E :=
  { s with
    mods := Function.update s.mods m
      { s.mods m with asyncEvaluation := true, asyncEvaluationTimestamp := s.nextTimestamp }
    nextTimestamp := s.nextTimestamp + 1 }

theorem begun_self (s : Evaluation E) (m : DefId) : (s.begun m).mods m =
    { s.mods m with asyncEvaluation := true, asyncEvaluationTimestamp := s.nextTimestamp } :=
  Function.update_self ..

theorem wp_beginAsync (ha : s.async m = false) {Q : Unit → Evaluation E → Prop}
    {X : EvalStop → Evaluation E → Prop} : wp (beginAsync m) s Q X ↔ Q () (s.begun m) := by
  rw [beginAsync, wp_bind, wp_getModule, wp_bind, wp_assert ha]
  rfl

/-- The log of `s.begun m` may have grown. -/
theorem runs_begun (s : Evaluation E) (m : DefId) (rest : List (DefId × Ran E)) :
    Runs m s { s.begun m with log := s.log ++ rest } rest := by
  refine ⟨rfl, rfl, fun v hv => Function.update_of_ne hv _ _, ?_⟩
  show (s.begun m).mods m = { s.mods m with
    asyncEvaluation := ((s.begun m).mods m).asyncEvaluation
    asyncEvaluationTimestamp := ((s.begun m).mods m).asyncEvaluationTimestamp }
  rw [begun_self]

theorem runs_log (s : Evaluation E) (m : DefId) (rest : List (DefId × Ran E)) :
    Runs m s { s with log := s.log ++ rest } rest := ⟨rfl, rfl, fun _ _ => rfl, rfl⟩

/-- A module that has to wait is not run; another one is, or it throws. -/
theorem wp_runModule (h : EvalVisiting r active m s t new done)
    (hdone : Visiting.Complete r m done) :
    wp (runModule r m) t
      (fun res u => SameSearch t u ∧ (res = none → EvalEnding r active m s u new done) ∧
        ∀ e, res = some e → Continues s u ∧ Broken r active u e ∧ m ∈ u.stackTop)
      (fun _ _ => False) := by
  have hmem : m ∈ t.stackTop := h.visiting.search.active_mem m (List.mem_cons_self ..)
  have hblank : Blank t m := h.steady.blank m (List.mem_cons_self ..)
  rw [runModule, wp_bind, wp_getModule]
  by_cases hpos : 0 < (t.mods m).pendingAsyncDependencies
  · rw [if_pos hpos, wp_bind, wp_beginAsync hblank.async, wp_pure]
    have hrun : Runs m t (t.begun m) [] := by
      have hlog := runs_begun t m []
      rwa [List.append_nil] at hlog
    have hasync : (t.begun m).async m = true := by rw [async, begun_self]
    refine ⟨hrun.sameSearch, fun _ => h.ending hdone hrun (.inl rfl)
      ⟨hrun.exception hblank.exception, fun ha => ?_, fun _ => h.waits hpos⟩ fun _ => hasync,
      fun e he => absurd he (by simp)⟩
    rw [hasync] at ha
    exact absurd ha (by simp)
  · have hzero : t.pending m = 0 := Nat.eq_zero_of_not_pos hpos
    rw [if_neg hpos]
    by_cases htla : r.hasTla m = true
    · rw [if_pos htla, wp_bind, wp_beginAsync hblank.async, wp_bind, wp_executeModule, wp_pure]
      have hrun := runs_begun t m [(m, .started)]
      have hasync : (t.begun m).async m = true := by rw [async, begun_self]
      refine ⟨hrun.sameSearch, fun _ => h.ending hdone hrun (.inr ⟨hzero, _, rfl⟩)
        ⟨hrun.exception hblank.exception, fun ha => ?_, fun _ => ⟨m, .refl, ?_⟩⟩ fun _ => hasync,
        fun e he => absurd he (by simp)⟩
      · rw [show (t.begun m).async m = false from ha] at hasync
        exact absurd hasync (by simp)
      · exact List.mem_append_right _ (List.mem_singleton_self _)
    · rw [if_neg htla, wp_bind, wp_get]
      cases hexecute : r.execute t.log m with
      | none =>
        dsimp only
        rw [wp_bind, wp_executeModule, wp_pure]
        have hrun := runs_log t m [(m, .completed)]
        refine ⟨hrun.sameSearch, fun _ => h.ending hdone hrun (.inr ⟨hzero, _, rfl⟩)
          ⟨hrun.exception hblank.exception, fun _ => ?_, fun ha => ?_⟩ fun hp => absurd hp hpos,
          fun e he => absurd he (by simp)⟩
        · exact List.mem_append_right _ (List.mem_singleton_self _)
        · exact absurd (hblank.async.symm.trans ha) (by simp)
      | some e =>
        dsimp only
        rw [wp_bind, wp_executeModule, wp_pure]
        have hrun := runs_log t m [(m, .threw e)]
        obtain ⟨hbooks, hcont, hblank'⟩ := h.runs hdone hrun (.inr ⟨hzero, _, rfl⟩)
        refine ⟨hrun.sameSearch, fun he => absurd he (by simp), fun e' he => ?_⟩
        obtain rfl := Option.some.inj he
        refine ⟨hcont, ⟨hbooks, h.visiting.search.dfs.nodup, h.visiting.search.busy_iff, hblank',
          fun v hv => ⟨m, h.visiting.reach v hv, .inl ?_⟩⟩, hmem⟩
        exact List.mem_append_right _ (List.mem_singleton_self _)

/-! ## The end of a visit -/

theorem EvalEnding.not_active (h : EvalEnding r active m s t new done) : m ∉ active :=
  fun ha => Nat.lt_irrefl _ (h.visiting.index_lt (h.visiting.active_old m ha))

/-- The module stays on the stack. -/
theorem EvalEnding.keep (h : EvalEnding r active m s t new done) (hlow : t.low m ≠ t.index m)
    {i : Nat} (hlt : ∀ v ∈ t.stackTop, t.index v < i) :
    EvalVisited r active m s t (.ok i) := by
  have hmem : m ∈ t.stackTop := h.visiting.search.active_mem m (List.mem_cons_self ..)
  obtain ⟨hsearch, hvisited⟩ := h.visiting.keep h.complete hlow
  refine ⟨h.continues, fun i' hi => ?_, fun e h => absurd h (by simp)⟩
  obtain rfl := Except.ok.inj hi
  refine ⟨hsearch, h.steady, hlt, (h.steady.visited m hmem h.not_active).1.exception, _, hvisited,
    fun v hv ha => ?_⟩
  rcases List.mem_append.mp hv with hv | hv
  · exact h.above v hv ha
  · rwa [List.mem_singleton.mp hv] at ha

/-- What becomes of a module that is popped with the root `m` of its cycle. -/
def settle (m : DefId) (d : ModuleState E) : ModuleState E :=
  { d with
    status := if d.asyncEvaluation then .evaluatingAsync else .evaluated
    cycleRoot := some m }

theorem settled_settle (m : DefId) (d : ModuleState E) : (settle m d).status.Settled := by
  unfold settle
  cases d.asyncEvaluation
  · exact .inr rfl
  · exact .inl rfl

theorem async_of_settle {d : ModuleState E} (h : (settle m d).status = .evaluatingAsync) :
    d.asyncEvaluation = true := by
  unfold settle at h
  cases hd : d.asyncEvaluation
  · rw [hd] at h
    exact absurd h (by simp)
  · rfl

/-- The cycle of `m` has been popped. -/
def cyclePopped (m : DefId) (new : List DefId) (s t : Evaluation E) : Evaluation E :=
  t.popped (settle m) (new ++ [m]) s.stackTop

theorem cyclePopped_mods (hv : v ∈ new ++ [m]) :
    (cyclePopped m new s t).mods v = settle m (t.mods v) := if_pos hv

theorem cyclePopped_other (hv : v ∉ new ++ [m]) :
    (cyclePopped m new s t).mods v = t.mods v := if_neg hv

theorem cyclePopped_promise (v : DefId) : (cyclePopped m new s t).promise v = t.promise v := by
  by_cases hv : v ∈ new ++ [m]
  · rw [promise, cyclePopped_mods hv]
    rfl
  · rw [promise, cyclePopped_other hv]

theorem EvalEnding.busy (h : EvalEnding r active m s t new done) (hv : v ∈ new ++ [m]) :
    t.status v = .evaluating :=
  (h.visiting.search.busy_iff v).mpr (h.visiting.stack_cycle ▸ List.mem_append_left _ hv)

theorem EvalEnding.reviewed (h : EvalEnding r active m s t new done) (hv : v ∈ new ++ [m]) :
    Done r t v ∧ Reviewed r t v :=
  h.steady.visited v (h.visiting.stack_cycle ▸ List.mem_append_left _ hv) fun ha =>
    h.visiting.not_cycle (h.visiting.active_old v ha) hv

/-- What had been settled is none of the cycle. -/
theorem EvalEnding.kept (h : EvalEnding r active m s t new done) (hv : (t.status v).Settled) :
    SameModule t (cyclePopped m new s t) v := by
  refine sameModule_of_eq (cyclePopped_other fun hmem => ?_)
  rw [h.busy hmem] at hv
  exact ModuleStatus.not_settled_evaluating hv

theorem EvalEnding.popped_done (h : EvalEnding r active m s t new done) (hv : v ∈ new ++ [m]) :
    Done r (cyclePopped m new s t) v := by
  obtain ⟨hd, -⟩ := h.reviewed hv
  refine ⟨?_, fun ha => hd.completed ?_, fun ha => hd.waits ?_⟩
  · rw [exception, cyclePopped_mods hv]
    exact hd.exception
  · rwa [async, cyclePopped_mods hv] at ha
  · rwa [async, cyclePopped_mods hv] at ha

/-- Every module of the cycle has `m` as its root. -/
theorem EvalEnding.popped_fine (h : EvalEnding r active m s t new done) (hv : v ∈ new ++ [m]) :
    Fine r (cyclePopped m new s t) v m := by
  have hmem : m ∈ new ++ [m] := List.mem_append_right _ (List.mem_singleton_self m)
  refine ⟨h.popped_done hv, ?_, ?_, h.popped_done hmem, ?_, ?_,
    h.visiting.reach v (h.visiting.stack_cycle ▸ List.mem_append_left _ hv),
    h.visiting.reached_cycle hv, fun ha => ?_⟩
  · rw [status, cyclePopped_mods hv]
    exact settled_settle m _
  · rw [root, cyclePopped_mods hv]
    rfl
  · rw [status, cyclePopped_mods hmem]
    exact settled_settle m _
  · rw [root, cyclePopped_mods hmem]
    rfl
  · rw [async, cyclePopped_mods hv] at ha
    rw [async, cyclePopped_mods hmem]
    rcases List.mem_append.mp hv with hv | hv
    · exact h.above v hv ha
    · rwa [List.mem_singleton.mp hv] at ha

/-- What is settled was not on the stack when it was reviewed. -/
theorem EvalEnding.passed (h : EvalEnding r active m s t new done) (hv : Reviewed r t v)
    (himp : r.Imports v w) (hw : (t.status w).Settled) :
    ∃ c, Fine r (cyclePopped m new s t) w c ∧
      ((cyclePopped m new s t).async c = true → t.async v = true) := by
  rcases hv w himp with hmem | ⟨c, hf, ha⟩
  · exact absurd hw (h.visiting.not_settled hmem)
  · refine ⟨c, hf.congr (h.kept hf.settled) (h.kept hf.rootSettled) (List.Subset.refl _),
      fun hc => ha ?_⟩
    rwa [(h.kept hf.rootSettled).async] at hc

theorem EvalEnding.popped_books (h : EvalEnding r active m s t new done)
    (hlow : t.low m = t.index m) : Books r (cyclePopped m new s t) := by
  refine h.steady.toBooks.change (· ∈ new ++ [m]) (fun v hv hst => ?_)
    (fun v hv => sameModule_of_eq (cyclePopped_other hv))
    (fun c e hp => (cyclePopped_promise c).trans hp) [] (List.append_nil _).symm (by simp)
    h.steady.once h.steady.ordered fun v hv => ?_
  · rw [h.busy hv] at hst
    exact ModuleStatus.not_settled_evaluating hst
  · have hfine := h.popped_fine hv
    refine ⟨fun hst => absurd hfine.settled hst, fun hst => ?_,
      fun _ _ => ⟨m, hfine, fun w himp => ?_⟩, fun e he => ?_⟩
    · rw [status, cyclePopped_mods hv] at hst
      rw [async, cyclePopped_mods hv]
      exact async_of_settle hst
    · rcases h.visiting.cycle_closed h.complete hlow hv himp with hw | hw
      · obtain ⟨c, hf, ha⟩ := h.passed (h.reviewed hv).2 himp hw
        refine ⟨c, hf, .inr fun hc => ?_⟩
        rw [async, cyclePopped_mods hv]
        exact ha hc
      · exact ⟨m, h.popped_fine hw, .inl rfl⟩
    · rw [hfine.done.exception] at he
      exact absurd he (by simp)

theorem EvalEnding.popped_steady (h : EvalEnding r active m s t new done)
    (hlow : t.low m = t.index m) : Steady r active (cyclePopped m new s t) := by
  refine ⟨h.popped_books hlow, fun a ha => ?_, fun v hv ha => ?_⟩
  · exact (h.steady.blank a ha).congr (sameModule_of_eq
      (cyclePopped_other (h.visiting.not_cycle (h.visiting.active_old a ha)))) fun x hx => hx
  · have hsame := sameModule_of_eq (cyclePopped_other (s := s) (t := t) (h.visiting.not_cycle hv))
    obtain ⟨hd, hreviewed⟩ :=
      h.steady.visited v (h.visiting.stack_cycle ▸ List.mem_append_right _ hv) ha
    refine ⟨hd.congr hsame (List.Subset.refl _), fun w himp => ?_⟩
    rcases h.visiting.stays hv ha himp with hw | hw
    · obtain ⟨c, hf, hasync⟩ := h.passed hreviewed himp hw
      exact .inr ⟨c, hf, fun hc => hsame.async.trans (hasync hc)⟩
    · exact .inl hw

theorem EvalEnding.popped_continues (h : EvalEnding r active m s t new done) :
    Continues s (cyclePopped m new s t) := by
  refine ⟨h.continues.log, fun v hv => hv, fun v hv => ?_, fun v hv => ?_,
    fun v => (cyclePopped_promise v).trans (h.continues.promise v)⟩
  · obtain ⟨hsame, hpending⟩ := h.continues.kept v hv
    have hv' : v ∉ new ++ [m] := by
      rcases hv with hst | hmem
      · intro hmem
        have hst' := h.continues.settled hst
        rw [h.busy hmem] at hst'
        exact ModuleStatus.not_settled_evaluating hst'
      · exact h.visiting.not_cycle hmem
    exact ⟨hsame.trans (sameModule_of_eq (cyclePopped_other hv')),
      by rw [pending, cyclePopped_other hv']; exact hpending⟩
  · by_cases hmem : v ∈ new ++ [m]
    · have hsv : ¬(s.status v).Fresh := by
        intro hf
        rw [← h.continues.fresh v (.inl hf), h.busy hmem] at hf
        exact absurd hf (by simp [ModuleStatus.Fresh])
      exact absurd hv (not_or.mpr ⟨hsv, (h.popped_fine hmem).settled.not_fresh⟩)
    · have heq : (cyclePopped m new s t).status v = t.status v := by
        rw [status, cyclePopped_other hmem]
      rw [heq] at hv ⊢
      exact h.continues.fresh v hv

/-- The module is the root of a cycle, which is popped. -/
theorem EvalEnding.pop (h : EvalEnding r active m s t new done) (hlow : t.low m = t.index m)
    {i : Nat} (hlt : ∀ v ∈ t.stackTop, t.index v < i) :
    EvalVisited r active m s (cyclePopped m new s t) (.ok i) ∧
      (cyclePopped m new s t).root m = some m := by
  have hfine := h.popped_fine (List.mem_append_right new (List.mem_singleton_self m))
  obtain ⟨hsearch, hvisited⟩ := h.visiting.pop (f := settle m)
    ModuleStatus.not_settled_evaluating (settled_settle m)
  refine ⟨⟨h.popped_continues, fun i' hi => ?_, fun e h => absurd h (by simp)⟩, hfine.root⟩
  obtain rfl := Except.ok.inj hi
  refine ⟨hsearch, h.popped_steady hlow, fun v hv => ?_, hfine.done.exception, [], hvisited,
    by simp⟩
  rw [index, cyclePopped_other (h.visiting.not_cycle hv)]
  exact hlt v (h.visiting.stack_cycle ▸ List.mem_append_right _ hv)

/-- By induction on the depth. -/
theorem evalSpec (r : Realm E) (n : Nat) : EvalSpec r n := by
  induction n with
  | zero =>
    intro active m s i hs hsteady _ hreach _
    refine ⟨⟨.refl s, fun i h => absurd h (by simp), fun e he => ?_⟩,
      fun h => absurd h (Nat.lt_irrefl 0)⟩
    obtain rfl := Except.error.inj he
    refine ⟨hsteady.toBooks, hs.dfs.nodup, hs.busy_iff, hsteady.blank, fun v hv => ?_⟩
    -- a module whose visit has not ended has not been run
    obtain ⟨-, a, ha, hva⟩ := hreach v hv
    exact ⟨a, hva, .inr ⟨rfl, .inr (hs.active_mem a ha), (hsteady.blank a ha).unrun⟩⟩
  | succ n ih =>
    intro active m s i hs hsteady hlt hreach hready
    rw [innerModuleEvaluation, wp_bind, wp_getModule]
    by_cases hsettled : (s.mods m).status = .evaluatingAsync ∨ (s.mods m).status = .evaluated
    · rw [if_pos hsettled]
      cases hex : (s.mods m).evalException with
      | some e =>
        refine ⟨⟨.refl s, fun i h => absurd h (by simp), fun e' he => ?_⟩,
          fun _ h => absurd (h.symm.trans hex) (by simp)⟩
        obtain rfl := Except.error.inj he
        have hfault := ((hsteady.accounted m).failed e hex).fault
        exact ⟨hsteady.toBooks, hs.dfs.nodup, hs.busy_iff, hsteady.blank, fun v hv =>
          (hfault.imp (List.Subset.refl _) fun w hw hrun => ⟨.inl hw, hrun⟩).lead (hreach v hv).1⟩
      | none =>
        refine ⟨⟨.refl s, fun i' h => ?_, fun e h => absurd h (by simp)⟩,
          fun _ _ => .inr ⟨⟨i, rfl⟩, .inl hsettled⟩⟩
        obtain rfl := Except.ok.inj h
        exact ⟨hs, hsteady, hlt, hex, [], ⟨rfl, by simp, by simp, by simp, .inr hsettled,
          fun _ _ => rfl, fun _ _ => rfl, fun _ h => h⟩, by simp⟩
    · rw [if_neg hsettled]
      by_cases hbusy : (s.mods m).status = .evaluating
      · have hmem : m ∈ s.stackTop := (hs.busy_iff m).mp hbusy
        have hex : s.exception m = none := by
          by_cases ha : m ∈ active
          · exact (hsteady.blank m ha).exception
          · exact (hsteady.visited m hmem ha).1.exception
        rw [if_pos hbusy]
        refine ⟨⟨.refl s, fun i' h => ?_, fun e h => absurd h (by simp)⟩,
          fun _ _ => .inl hmem⟩
        obtain rfl := Except.ok.inj h
        exact ⟨hs, hsteady, hlt, hex, [], ⟨rfl, by simp, by simp, by simp, .inl hmem,
          fun _ _ => rfl, fun _ _ => rfl, fun _ h => h⟩, by simp⟩
      · have hlinked : (s.mods m).status = .linked := by
          obtain ⟨hfresh, -⟩ := hready m .refl
          cases h : (s.mods m).status <;> simp_all [status, ModuleStatus.Fresh]
        rw [if_neg hbusy, wp_bind, wp_assert hlinked, wp_bind, wp_setModule, wp_bind, wp_push,
          wp_bind]
        obtain ⟨ht, hlt'⟩ := EvalVisiting.begin hs hsteady hlinked hlt fun v hv => (hreach v hv).1
        refine wp_mono (wp_evaluateRequests ih hready (r.reqModules m) [] [] (s.entered i m) (i + 1)
          ht hlt' fun _ h => h) ?_ fun _ _ h => h
        intro res u h
        obtain ⟨hok, herror⟩ := h
        cases res with
        | error e =>
          obtain ⟨hcontu, hmem, hbroken⟩ := herror e rfl
          refine ⟨⟨hcontu, fun i h => absurd h (by simp), fun e' he => ?_⟩,
            fun _ _ => .inl hmem⟩
          obtain rfl := Except.error.inj he
          exact ⟨hbroken.toBooks, hbroken.nodup, hbroken.busy_iff,
            fun a ha => hbroken.blank a (List.mem_cons_of_mem _ ha), hbroken.fault⟩
        | ok i' =>
          obtain ⟨hltu, new, done, hu, hdone⟩ := hok i' rfl
          have hcomplete : Visiting.Complete r m done := fun w himp => hdone w (.inr himp)
          dsimp only
          rw [wp_bind]
          refine wp_mono (wp_runModule hu hcomplete) ?_ fun _ _ h => h
          intro out v h
          obtain ⟨hsame, hnone, hsome⟩ := h
          cases out with
          | some e =>
            obtain ⟨hcontv, hbroken, hmem⟩ := hsome e rfl
            refine ⟨⟨hcontv, fun i h => absurd h (by simp), fun e' he => ?_⟩,
              fun _ _ => .inl hmem⟩
            obtain rfl := Except.error.inj he
            exact hbroken
          | none =>
            have hend := hnone rfl
            have hltv : ∀ w ∈ v.stackTop, v.index w < i' := by
              intro w hw
              rw [hsame.stack] at hw
              rw [hsame.index]
              exact hltu w hw
            dsimp only
            rw [wp_bind]
            refine wp_leave hend.visiting.search hend.visiting.stack (fun hlow => ?_)
              fun hlow => ?_
            · obtain ⟨hvisited, hroot⟩ := hend.pop hlow hltv
              exact ⟨hvisited, fun _ _ => .inr ⟨⟨_, rfl⟩, .inr hroot⟩⟩
            · exact ⟨hend.keep hlow hltv, fun _ _ => .inl
                (hend.visiting.search.active_mem m (List.mem_cons_self ..))⟩

end

end Evaluation

end Ejr
