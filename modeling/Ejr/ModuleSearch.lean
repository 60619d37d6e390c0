import Ejr.Evaluation
import Ejr.Lib.DfsStack

/-!
# The search through the requests

What linking and evaluation have in common: modules are `busy` while they are
on the stack, each visit begins with a module that is put on it and ends with
one that has been popped, with the cycle it is the root of, or stays for a
module further down. `Search` holds of the stack and of the modules on it that
have been visited; `active` are those whose visit has not ended. A module that
is popped leads only to modules that are settled or popped with it
(`Search.cycle_closed`).
-/

namespace Ejr

open Lib Relation

variable {E : Type}

/-- The module has been evaluated, perhaps asynchronously. -/
def ModuleStatus.Settled (st : ModuleStatus) : Prop := st = .evaluatingAsync ∨ st = .evaluated

/-- `m` requests `w`. -/
def Realm.Imports (r : Realm E) (m w : DefId) : Prop := some w ∈ r.reqModules m

namespace Evaluation

/-- The modules a module leads to, itself included. -/
abbrev Reach (r : Realm E) : DefId → DefId → Prop := ReflTransGen r.Imports

abbrev status (s : Evaluation E) (v : DefId) : ModuleStatus := (s.mods v).status

abbrev index (s : Evaluation E) (v : DefId) : Nat := (s.mods v).dfsIndex

abbrev low (s : Evaluation E) (v : DefId) : Nat := (s.mods v).dfsAncestorIndex

/-! ## The state of a search -/

/-- The modules on the stack, and where those that have been visited lead. -/
structure Search (r : Realm E) (busy : ModuleStatus) (Settled : ModuleStatus → Prop)
    (active : List DefId) (s : Evaluation E) : Prop where
  dfs : DfsStack r.Imports s.index s.low s.stackTop
  busy_iff : ∀ v, s.status v = busy ↔ v ∈ s.stackTop
  active_mem : ∀ a ∈ active, a ∈ s.stackTop
  seen : ∀ v ∈ s.stackTop, v ∉ active → ∀ w, r.Imports v w → Settled (s.status w) ∨
    w ∈ s.stackTop ∧ s.low v ≤ s.index w ∧
      ∀ a ∈ active, s.index v < s.index a → s.index w < s.index a

/-- A visit of `m` that has ended: what it has left on the stack, if anything, leads to what
was there, and `m` is the lowest of it. -/
structure Visited (r : Realm E) (Settled : ModuleStatus → Prop) (m : DefId) (s t : Evaluation E)
    (new : List DefId) : Prop where
  stack : t.stackTop = new ++ s.stackTop
  leads : ∀ v ∈ new, ∃ w ∈ s.stackTop, Reach r v w
  reached : ∀ v ∈ new, Reach r m v
  lowest : ∀ v ∈ new, m ∈ new ∧ t.low m ≤ t.low v
  found : m ∈ t.stackTop ∨ Settled (t.status m)
  index_eq : ∀ v ∈ s.stackTop, t.index v = s.index v
  low_eq : ∀ v ∈ s.stackTop, t.low v = s.low v
  settled : ∀ v, Settled (s.status v) → Settled (t.status v)

/-- A visit of `m` under way: `done` are the requests it has been through. -/
structure Visiting (r : Realm E) (busy : ModuleStatus) (Settled : ModuleStatus → Prop)
    (active : List DefId) (m : DefId) (s t : Evaluation E) (new done : List DefId) : Prop where
  search : Search r busy Settled (m :: active) t
  stack : t.stackTop = new ++ m :: s.stackTop
  active_old : ∀ a ∈ active, a ∈ s.stackTop
  reach : ∀ v ∈ t.stackTop, Reach r v m
  reached : ∀ v ∈ new, Reach r m v
  lowest : ∀ v ∈ new, t.low m ≤ t.low v
  done : ∀ w ∈ done, Settled (t.status w) ∨ w ∈ t.stackTop ∧ t.low m ≤ t.index w
  index_eq : ∀ v ∈ s.stackTop, t.index v = s.index v
  low_eq : ∀ v ∈ s.stackTop, t.low v = s.low v
  settled : ∀ v, Settled (s.status v) → Settled (t.status v)

/-- Another state of the same search. -/
structure SameSearch (s t : Evaluation E) : Prop where
  stack : t.stackTop = s.stackTop
  status : ∀ v, t.status v = s.status v
  index : ∀ v, t.index v = s.index v
  low : ∀ v, t.low v = s.low v

/-- The modules of a cycle, changed, and the stack without them. -/
def popped (f : ModuleState E → ModuleState E) (cycle stack : List DefId) (s : Evaluation E) :
    Evaluation E :=
  { s with
    mods := fun v => if v ∈ cycle then f (s.mods v) else s.mods v
    stackTop := stack }

section

variable {r : Realm E} {busy : ModuleStatus} {Settled : ModuleStatus → Prop}
  {active new new1 old done : List DefId} {s t u : Evaluation E} {m m1 : DefId}
  {f : ModuleState E → ModuleState E}

theorem Search.congr (h : Search r busy Settled active s) (hst : SameSearch s t) :
    Search r busy Settled active t where
  dfs := by
    rw [hst.stack]
    exact h.dfs.congr (fun v _ => hst.index v) fun v _ => hst.low v
  busy_iff v := by rw [hst.status, hst.stack]; exact h.busy_iff v
  active_mem a ha := hst.stack ▸ h.active_mem a ha
  seen v hv hactive w himp := by
    rw [hst.stack] at hv
    rcases h.seen v hv hactive w himp with hsettled | ⟨hw, hle, hlt⟩
    · exact .inl (by rwa [hst.status])
    · refine .inr ⟨by rwa [hst.stack], by rwa [hst.low, hst.index], fun a ha h => ?_⟩
      rw [hst.index, hst.index] at h ⊢
      exact hlt a ha h

theorem Visiting.congr (h : Visiting r busy Settled active m s t new done) (htu : SameSearch t u) :
    Visiting r busy Settled active m s u new done where
  search := h.search.congr htu
  stack := htu.stack.trans h.stack
  active_old := h.active_old
  reach v hv := h.reach v (htu.stack ▸ hv)
  reached := h.reached
  lowest v hv := by rw [htu.low, htu.low]; exact h.lowest v hv
  done w hw := by rw [htu.status, htu.stack, htu.low, htu.index]; exact h.done w hw
  index_eq v hv := (htu.index v).trans (h.index_eq v hv)
  low_eq v hv := (htu.low v).trans (h.low_eq v hv)
  settled v hv := by rw [htu.status]; exact h.settled v hv

/-! ## The beginning of a visit -/

/-- A module is put on the stack. -/
theorem Search.enter (h : Search r busy Settled active s) (hm : s.status m ≠ busy)
    (hmsettled : ¬Settled (s.status m)) {i : Nat} (hlt : ∀ v ∈ s.stackTop, s.index v < i)
    {d : ModuleState E} (hstatus : d.status = busy) (hindex : d.dfsIndex = i)
    (hlow : d.dfsAncestorIndex = i) :
    Search r busy Settled (m :: active)
      { s with mods := Function.update s.mods m d, stackTop := m :: s.stackTop } := by
  have hnew : m ∉ s.stackTop := fun hmem => hm ((h.busy_iff m).mpr hmem)
  have hne : ∀ v ∈ s.stackTop, v ≠ m := fun v hv he => hnew (he ▸ hv)
  have hold : ∀ v ∈ s.stackTop, Function.update s.mods m d v = s.mods v :=
    fun v hv => Function.update_of_ne (hne v hv) _ _
  refine ⟨DfsStack.push (h.dfs.congr (fun v hv => ?_) fun v hv => ?_) (fun v hv => ?_) ?_,
    fun v => ?_, fun a ha => ?_, fun v hv hactive w himp => ?_⟩
  · exact congrArg ModuleState.dfsIndex (hold v hv)
  · exact congrArg ModuleState.dfsAncestorIndex (hold v hv)
  · show (Function.update s.mods m d v).dfsIndex < (Function.update s.mods m d m).dfsIndex
    rw [hold v hv, Function.update_self, hindex]
    exact hlt v hv
  · show (Function.update s.mods m d m).dfsAncestorIndex = (Function.update s.mods m d m).dfsIndex
    rw [Function.update_self, hindex, hlow]
  · show (Function.update s.mods m d v).status = busy ↔ v ∈ m :: s.stackTop
    by_cases hv : v = m
    · subst hv
      simp [hstatus]
    · rw [Function.update_of_ne hv, List.mem_cons, or_iff_right hv]
      exact h.busy_iff v
  · rcases List.mem_cons.mp ha with rfl | ha
    · exact List.mem_cons_self ..
    · exact List.mem_cons_of_mem _ (h.active_mem a ha)
  · have hvm : v ≠ m := fun he => hactive (he ▸ List.mem_cons_self ..)
    have hv' : v ∈ s.stackTop := (List.mem_cons.mp hv).resolve_left hvm
    show Settled (Function.update s.mods m d w).status ∨ w ∈ m :: s.stackTop ∧
      (Function.update s.mods m d v).dfsAncestorIndex ≤ (Function.update s.mods m d w).dfsIndex ∧
      ∀ a ∈ m :: active, (Function.update s.mods m d v).dfsIndex <
        (Function.update s.mods m d a).dfsIndex →
        (Function.update s.mods m d w).dfsIndex < (Function.update s.mods m d a).dfsIndex
    rcases h.seen v hv' (fun ha => hactive (List.mem_cons_of_mem _ ha)) w himp with
      hw | ⟨hw, hle, hbelow⟩
    · have hwm : w ≠ m := fun he => hmsettled (he ▸ hw)
      exact .inl (by rwa [Function.update_of_ne hwm])
    · rw [hold v hv', hold w hw]
      refine .inr ⟨List.mem_cons_of_mem _ hw, hle, fun a ha hva => ?_⟩
      rcases List.mem_cons.mp ha with rfl | ha
      · rw [Function.update_self, hindex]
        exact hlt w hw
      · rw [hold a (h.active_mem a ha)] at hva ⊢
        exact hbelow a ha hva

/-- A visit begins. -/
theorem Search.begin (h : Search r busy Settled active s) (hm : s.status m ≠ busy)
    (hmsettled : ¬Settled (s.status m)) {i : Nat} (hlt : ∀ v ∈ s.stackTop, s.index v < i)
    (hreach : ∀ v ∈ s.stackTop, Reach r v m) {d : ModuleState E}
    (hstatus : d.status = busy) (hindex : d.dfsIndex = i) (hlow : d.dfsAncestorIndex = i) :
    Visiting r busy Settled active m s
      { s with mods := Function.update s.mods m d, stackTop := m :: s.stackTop } [] [] := by
  have hold : ∀ v ∈ s.stackTop, Function.update s.mods m d v = s.mods v := by
    intro v hv
    have hne : v ≠ m := by
      rintro rfl
      exact hm ((h.busy_iff v).mpr hv)
    exact Function.update_of_ne hne _ _
  refine ⟨h.enter hm hmsettled hlt hstatus hindex hlow, rfl, h.active_mem,
    List.forall_mem_cons.mpr ⟨.refl, hreach⟩, by simp, by simp, by simp,
    fun v hv => congrArg ModuleState.dfsIndex (hold v hv),
    fun v hv => congrArg ModuleState.dfsAncestorIndex (hold v hv), fun v hv => ?_⟩
  have hvm : v ≠ m := fun he => hmsettled (he ▸ hv)
  show Settled (Function.update s.mods m d v).status
  rwa [Function.update_of_ne hvm]

/-! ## After a request -/

/-- `m` leads as low as `m1`. -/
def lowered (m m1 : DefId) (s : Evaluation E) : Evaluation E :=
  { s with
    mods := Function.update s.mods m
      { s.mods m with
        dfsAncestorIndex := min (s.mods m).dfsAncestorIndex (s.mods m1).dfsAncestorIndex } }

theorem lowered_status (s : Evaluation E) (m m1 v : DefId) :
    (s.lowered m m1).status v = s.status v := by
  show (Function.update s.mods m _ v).status = (s.mods v).status
  by_cases hv : v = m
  · rw [hv, Function.update_self]
  · rw [Function.update_of_ne hv]

theorem lowered_index (s : Evaluation E) (m m1 v : DefId) :
    (s.lowered m m1).index v = s.index v := by
  show (Function.update s.mods m _ v).dfsIndex = (s.mods v).dfsIndex
  by_cases hv : v = m
  · rw [hv, Function.update_self]
  · rw [Function.update_of_ne hv]

theorem lowered_low_self (s : Evaluation E) (m m1 : DefId) :
    (s.lowered m m1).low m = min (s.low m) (s.low m1) := by
  show (Function.update s.mods m _ m).dfsAncestorIndex = _
  rw [Function.update_self]

theorem lowered_low (s : Evaluation E) {m m1 v : DefId} (hv : v ≠ m) :
    (s.lowered m m1).low v = s.low v := by
  show (Function.update s.mods m _ v).dfsAncestorIndex = _
  rw [Function.update_of_ne hv]

theorem Search.lowered (h : Search r busy Settled (m :: active) s) (hm1 : m1 ∈ s.stackTop)
    (himp : r.Imports m m1) : Search r busy Settled (m :: active) (s.lowered m m1) where
  dfs := (h.dfs.lower (h.active_mem m (List.mem_cons_self ..)) hm1 himp
    (lowered_low_self s m m1) fun v _ hv => lowered_low s hv).congr
      (fun v _ => lowered_index s m m1 v) fun _ _ => rfl
  busy_iff v := by rw [lowered_status]; exact h.busy_iff v
  active_mem := h.active_mem
  seen v hv hactive w himp := by
    have hvm : v ≠ m := fun he => hactive (he ▸ List.mem_cons_self ..)
    rw [lowered_status, lowered_low s hvm, lowered_index]
    rcases h.seen v hv hactive w himp with hw | ⟨hw, hle, hlt⟩
    · exact .inl hw
    · refine .inr ⟨hw, hle, fun a ha h => ?_⟩
      rw [lowered_index, lowered_index] at *
      exact hlt a ha h

/-- A request that is not on the stack. -/
theorem Visiting.settled_request (h : Visiting r busy Settled active m s t new done)
    (h1 : Visited r Settled m1 t u new1) (hsearch : Search r busy Settled (m :: active) u)
    (hm1 : u.status m1 ≠ busy) :
    new1 = [] ∧ Visiting r busy Settled active m s u new (m1 :: done) := by
  have hnew1 : new1 = [] := by
    refine List.eq_nil_iff_forall_not_mem.mpr fun v hv => ?_
    have hmem : m1 ∈ u.stackTop := h1.stack ▸ List.mem_append_left _ (h1.lowest v hv).1
    exact hm1 ((hsearch.busy_iff m1).mpr hmem)
  subst hnew1
  have hm1settled : Settled (u.status m1) :=
    h1.found.resolve_left fun hmem => hm1 ((hsearch.busy_iff m1).mpr hmem)
  have hsub : ∀ v ∈ s.stackTop, v ∈ t.stackTop := by
    intro v hv
    rw [h.stack]
    simp [hv]
  have hmt : m ∈ t.stackTop := h.search.active_mem m (List.mem_cons_self ..)
  have hstack : u.stackTop = t.stackTop := h1.stack
  refine ⟨rfl, hsearch, hstack.trans h.stack, h.active_old, fun v hv => h.reach v (hstack ▸ hv),
    h.reached, fun v hv => ?_, List.forall_mem_cons.mpr ⟨.inl hm1settled, fun w hw => ?_⟩,
    fun v hv => (h1.index_eq v (hsub v hv)).trans (h.index_eq v hv),
    fun v hv => (h1.low_eq v (hsub v hv)).trans (h.low_eq v hv),
    fun v hv => h1.settled v (h.settled v hv)⟩
  · rw [h1.low_eq m hmt, h1.low_eq v (by rw [h.stack]; simp [hv])]
    exact h.lowest v hv
  · rcases h.done w hw with hw | ⟨hw, hle⟩
    · exact .inl (h1.settled w hw)
    · exact .inr ⟨hstack ▸ hw, by rwa [h1.low_eq m hmt, h1.index_eq w hw]⟩

/-- A request that is. -/
theorem Visiting.busy_request (h : Visiting r busy Settled active m s t new done)
    (h1 : Visited r Settled m1 t u new1) (hsearch : Search r busy Settled (m :: active) u)
    (himp : r.Imports m m1) (hm1 : u.status m1 = busy) :
    Visiting r busy Settled active m s (u.lowered m m1) (new1 ++ new) (m1 :: done) := by
  have hm1mem : m1 ∈ u.stackTop := (hsearch.busy_iff m1).mp hm1
  have hsub : ∀ v ∈ s.stackTop, v ∈ t.stackTop := by
    intro v hv
    rw [h.stack]
    simp [hv]
  have hmt : m ∈ t.stackTop := h.search.active_mem m (List.mem_cons_self ..)
  have hlow : u.low m = t.low m := h1.low_eq m hmt
  have hnodup := h.search.dfs.nodup
  have hne : ∀ v ∈ s.stackTop, v ≠ m := by
    rintro v hv rfl
    rw [h.stack] at hnodup
    exact (List.nodup_cons.mp (List.nodup_append.mp hnodup).2.1).1 hv
  have hnodup' := hsearch.dfs.nodup
  have hne' : ∀ v ∈ new1 ++ new, v ≠ m := by
    rintro v hv rfl
    rw [h1.stack, h.stack, ← List.append_assoc] at hnodup'
    exact (List.nodup_append.mp hnodup').2.2 v hv v (List.mem_cons_self ..) rfl
  refine ⟨hsearch.lowered hm1mem himp, ?_, h.active_old, fun v hv => ?_, fun v hv => ?_,
    fun v hv => ?_, List.forall_mem_cons.mpr ⟨.inr ⟨hm1mem, ?_⟩, fun w hw => ?_⟩, fun v hv => ?_,
    fun v hv => ?_, fun v hv => ?_⟩
  · show u.stackTop = _
    rw [h1.stack, h.stack, List.append_assoc]
  · have hv' : v ∈ new1 ++ t.stackTop := h1.stack ▸ hv
    rcases List.mem_append.mp hv' with hv | hv
    · obtain ⟨w, hw, hpath⟩ := h1.leads v hv
      exact hpath.trans (h.reach w hw)
    · exact h.reach v hv
  · rcases List.mem_append.mp hv with hv | hv
    · exact .head himp (h1.reached v hv)
    · exact h.reached v hv
  · rw [lowered_low_self, lowered_low u (hne' v hv)]
    rcases List.mem_append.mp hv with hv | hv
    · exact Nat.le_trans (Nat.min_le_right ..) (h1.lowest v hv).2
    · rw [hlow, h1.low_eq v (by rw [h.stack]; simp [hv])]
      exact Nat.le_trans (Nat.min_le_left ..) (h.lowest v hv)
  · rw [lowered_low_self, lowered_index]
    exact Nat.le_trans (Nat.min_le_right ..) (hsearch.dfs.low_le m1 hm1mem)
  · rcases h.done w hw with hw | ⟨hw, hle⟩
    · exact .inl (by rw [lowered_status]; exact h1.settled w hw)
    · refine .inr ⟨?_, ?_⟩
      · show w ∈ u.stackTop
        rw [h1.stack]
        exact List.mem_append_right _ hw
      · rw [lowered_low_self, lowered_index, h1.index_eq w hw, hlow]
        exact Nat.le_trans (Nat.min_le_left ..) hle
  · rw [lowered_index, h1.index_eq v (hsub v hv)]
    exact h.index_eq v hv
  · rw [lowered_low u (hne v hv), h1.low_eq v (hsub v hv)]
    exact h.low_eq v hv
  · rw [lowered_status]
    exact h1.settled v (h.settled v hv)

/-- One request more is done, the rest is left. -/
theorem done_cons {rest : List (Option DefId)} {done' : List DefId}
    (h : ∀ w, w ∈ m1 :: done ∨ some w ∈ rest → w ∈ done') {w : DefId}
    (hw : w ∈ done ∨ some w ∈ some m1 :: rest) : w ∈ done' := by
  refine h w ?_
  rcases hw with hw | hw
  · exact .inl (List.mem_cons_of_mem _ hw)
  · rcases List.mem_cons.mp hw with he | hw
    · exact .inl (Option.some.inj he ▸ List.mem_cons_self ..)
    · exact .inr hw

/-! ## The end of a visit -/

/-- All requests of `m` have been visited. -/
def Visiting.Complete (r : Realm E) (m : DefId) (done : List DefId) : Prop :=
  ∀ w, r.Imports m w → w ∈ done

theorem Visiting.stack_cycle (h : Visiting r busy Settled active m s t new done) :
    t.stackTop = (new ++ [m]) ++ s.stackTop := by
  rw [h.stack, List.append_assoc]
  rfl

/-- What was on the stack is none of what has come on top. -/
theorem Visiting.not_cycle (h : Visiting r busy Settled active m s t new done) {v : DefId}
    (hv : v ∈ s.stackTop) : v ∉ new ++ [m] := by
  have hnodup := h.search.dfs.nodup
  rw [h.stack_cycle] at hnodup
  exact fun hmem => (List.nodup_append.mp hnodup).2.2 v hmem v hv rfl

theorem Visiting.index_lt (h : Visiting r busy Settled active m s t new done) {v : DefId}
    (hv : v ∈ s.stackTop) : t.index v < t.index m := by
  have hdfs := h.search.dfs
  rw [h.stack, List.append_cons] at hdfs
  exact hdfs.lt_of_above (List.mem_append_right _ (List.mem_singleton_self m)) hv

/-- What has come on top of `m`, and `m` itself. -/
theorem Visiting.reached_cycle (h : Visiting r busy Settled active m s t new done) {v : DefId}
    (hv : v ∈ new ++ [m]) : Reach r m v := by
  rcases List.mem_append.mp hv with hv | hv
  · exact h.reached v hv
  · rw [List.mem_singleton.mp hv]

/-- A module that stays on the stack leads to something below it. -/
theorem Visiting.keep (h : Visiting r busy Settled active m s t new done)
    (hdone : Visiting.Complete r m done) (hlow : t.low m ≠ t.index m) :
    Search r busy Settled active t ∧ Visited r Settled m s t (new ++ [m]) := by
  have hstack := h.stack_cycle
  have hm : m ∈ t.stackTop := h.search.active_mem m (List.mem_cons_self ..)
  have hdfs := h.search.dfs
  rw [h.stack] at hdfs
  obtain ⟨w, hw, hpath⟩ := hdfs.below hlow
  refine ⟨⟨h.search.dfs, h.search.busy_iff, fun a ha => h.search.active_mem a
    (List.mem_cons_of_mem _ ha), fun v hv hactive w himp => ?_⟩, hstack, fun v hv => ?_,
    fun v hv => h.reached_cycle hv, fun v hv => ⟨by simp, ?_⟩, .inl hm, h.index_eq, h.low_eq,
    h.settled⟩
  · by_cases hvm : v = m
    · subst hvm
      refine (h.done w (hdone w himp)).imp_right fun hw => ⟨hw.1, hw.2, fun a ha hlt => ?_⟩
      -- the other active modules are below
      exact absurd (Nat.lt_trans hlt (h.index_lt (h.active_old a ha))) (Nat.lt_irrefl _)
    · have hactive' : v ∉ m :: active := fun hmem => (List.mem_cons.mp hmem).elim hvm hactive
      exact (h.search.seen v hv hactive' w himp).imp_right fun hw =>
        ⟨hw.1, hw.2.1, fun a ha => hw.2.2 a (List.mem_cons_of_mem _ ha)⟩
  · exact ⟨w, hw, (h.reach v (hstack ▸ List.mem_append_left _ hv)).trans hpath⟩
  · rcases List.mem_append.mp hv with hv | hv
    · exact h.lowest v hv
    · rw [List.mem_singleton.mp hv]

/-- What is popped leads only to what is settled or popped with it. -/
theorem Visiting.cycle_closed (h : Visiting r busy Settled active m s t new done)
    (hdone : Visiting.Complete r m done) (hlow : t.low m = t.index m) {v w : DefId}
    (hv : v ∈ new ++ [m]) (himp : r.Imports v w) :
    Settled (t.status w) ∨ w ∈ new ++ [m] := by
  have hstack := h.stack_cycle
  have hnodup := h.search.dfs.nodup
  have hseen : Settled (t.status w) ∨ w ∈ t.stackTop ∧ t.index m ≤ t.index w := by
    rcases List.mem_append.mp hv with hv | hv
    · have hvt : v ∈ t.stackTop := h.stack ▸ List.mem_append_left _ hv
      have hactive : v ∉ m :: active := by
        rw [h.stack] at hnodup
        intro hmem
        refine (List.nodup_append.mp hnodup).2.2 v hv v ?_ rfl
        rcases List.mem_cons.mp hmem with rfl | hmem
        · exact List.mem_cons_self ..
        · exact List.mem_cons_of_mem _ (h.active_old v hmem)
      refine (h.search.seen v hvt hactive w himp).imp_right fun hw => ⟨hw.1, ?_⟩
      exact hlow ▸ Nat.le_trans (h.lowest v hv) hw.2.1
    · obtain rfl := List.mem_singleton.mp hv
      exact (h.done w (hdone w himp)).imp_right fun hw => ⟨hw.1, hlow ▸ hw.2⟩
  refine hseen.imp_right fun hw => ?_
  have hmem : w ∈ (new ++ [m]) ++ s.stackTop := hstack ▸ hw.1
  refine (List.mem_append.mp hmem).resolve_right fun hold => ?_
  exact absurd (Nat.lt_of_lt_of_le (h.index_lt hold) hw.2) (Nat.lt_irrefl _)

/-- What is left on the stack leads to nothing that is popped, or has not ended. -/
theorem Visiting.stays (h : Visiting r busy Settled active m s t new done) {v w : DefId}
    (hv : v ∈ s.stackTop) (hactive : v ∉ active) (himp : r.Imports v w) :
    Settled (t.status w) ∨ w ∈ s.stackTop := by
  have hvt : v ∈ t.stackTop := by
    rw [h.stack]
    simp [hv]
  have hlt := h.index_lt hv
  have hactive' : v ∉ m :: active := by
    intro hmem
    rcases List.mem_cons.mp hmem with rfl | hmem
    · exact Nat.lt_irrefl _ hlt
    · exact hactive hmem
  refine (h.search.seen v hvt hactive' w himp).imp_right fun hw => ?_
  have hltw := hw.2.2 m (List.mem_cons_self ..) hlt
  have hmem := hw.1
  rw [h.stack, List.append_cons] at hmem
  refine (List.mem_append.mp hmem).resolve_left fun hnew => ?_
  -- everything on top has come later than `m`
  have hdfs := h.search.dfs
  rw [h.stack] at hdfs
  rcases List.mem_append.mp hnew with hnew | hnew
  · exact Nat.lt_asymm hltw (hdfs.lt_of_above hnew (List.mem_cons_self ..))
  · rw [List.mem_singleton.mp hnew] at hltw
    exact Nat.lt_irrefl _ hltw

/-- The root of a cycle. -/
theorem Visiting.pop (h : Visiting r busy Settled active m s t new done)
    (hbusy : ¬Settled busy) (hf : ∀ d, Settled (f d).status) :
    Search r busy Settled active (t.popped f (new ++ [m]) s.stackTop) ∧
      Visited r Settled m s (t.popped f (new ++ [m]) s.stackTop) [] := by
  have hstack := h.stack_cycle
  have hdisjoint : ∀ v ∈ s.stackTop, v ∉ new ++ [m] := fun v hv => h.not_cycle hv
  have hold : ∀ v, v ∉ new ++ [m] →
      (t.popped f (new ++ [m]) s.stackTop).mods v = t.mods v := fun v hv => if_neg hv
  have hcycle : ∀ v ∈ new ++ [m],
      Settled ((t.popped f (new ++ [m]) s.stackTop).status v) := by
    intro v hv
    show Settled (if v ∈ new ++ [m] then f (t.mods v) else t.mods v).status
    rw [if_pos hv]
    exact hf _
  have hsettled : ∀ v, Settled (t.status v) →
      Settled ((t.popped f (new ++ [m]) s.stackTop).status v) := by
    intro v hv
    by_cases hmem : v ∈ new ++ [m]
    · exact hcycle v hmem
    · rwa [status, hold v hmem]
  have hdfs := h.search.dfs
  rw [hstack] at hdfs
  refine ⟨⟨hdfs.drop.congr (fun v hv => ?_) fun v hv => ?_, fun v => ?_, h.active_old,
    fun v hv hactive w himp => ?_⟩, rfl, by simp, by simp, by simp,
    .inr (hcycle m (by simp)), fun v hv => ?_, fun v hv => ?_,
    fun v hv => hsettled v (h.settled v hv)⟩
  · exact congrArg ModuleState.dfsIndex (hold v (hdisjoint v hv))
  · exact congrArg ModuleState.dfsAncestorIndex (hold v (hdisjoint v hv))
  · by_cases hmem : v ∈ new ++ [m]
    · exact iff_of_false (fun he => hbusy (he ▸ hcycle v hmem)) fun hv => hdisjoint v hv hmem
    · rw [status, hold v hmem]
      refine (h.search.busy_iff v).trans ?_
      rw [hstack, List.mem_append, or_iff_right hmem]
      rfl
  · rcases h.stays hv hactive himp with hw | hw
    · exact .inl (hsettled w hw)
    · have hv' : v ∈ t.stackTop := hstack ▸ List.mem_append_right _ hv
      have hvm : v ∉ m :: active := by
        intro hmem
        rcases List.mem_cons.mp hmem with rfl | hmem
        · exact hdisjoint v hv (by simp)
        · exact hactive hmem
      rcases h.search.seen v hv' hvm w himp with hw' | ⟨-, hle, hlt⟩
      · exact .inl (hsettled w hw')
      · refine .inr ⟨hw, ?_, fun a ha h' => ?_⟩
        · rwa [low, index, hold v (hdisjoint v hv), hold w (hdisjoint w hw)]
        · have ha' := hdisjoint a (h.active_old a ha)
          rw [index, index, hold v (hdisjoint v hv), hold a ha'] at h'
          rw [index, index, hold w (hdisjoint w hw), hold a ha']
          exact hlt a (List.mem_cons_of_mem _ ha) h'
  · rw [index, hold v (hdisjoint v hv)]
    exact h.index_eq v hv
  · rw [low, hold v (hdisjoint v hv)]
    exact h.low_eq v hv

/-- From an empty stack. -/
theorem Visited.empty (h : Visited r Settled m s t new) (hs : s.stackTop = []) :
    t.stackTop = [] := by
  rw [h.stack, hs, List.append_nil]
  refine List.eq_nil_iff_forall_not_mem.mpr fun v hv => ?_
  obtain ⟨w, hw, -⟩ := h.leads v hv
  rw [hs] at hw
  exact List.not_mem_nil hw

theorem popped_nil {mods : DefId → ModuleState E} {stack : List DefId} {ts : Nat}
    {log : List (DefId × Ran E)} :
    popped f [] stack ⟨mods, stack, ts, log⟩ = ⟨mods, stack, ts, log⟩ := by
  simp [popped]

/-- By induction on what is above the root. -/
theorem popCycle_eq (f : ModuleState E → ModuleState E) (m : DefId) (old : List DefId) :
    ∀ (new : List DefId) (s : Evaluation E), (new ++ [m]).Nodup →
    popCycle f m (new ++ m :: old) s = .ok () (s.popped f (new ++ [m]) old)
  | [], s, _ => by
    have hmods : Function.update s.mods m (f (s.mods m)) =
        fun v => if v ∈ [m] then f (s.mods v) else s.mods v := by
      funext v
      by_cases hv : v = m
      · simp [hv]
      · simp [hv]
    show (if m = m then (pure () : EvalM E Unit) else _)
      { s with stackTop := old, mods := Function.update s.mods m (f (s.mods m)) } = _
    rw [if_pos rfl, hmods]
    rfl
  | m1 :: new, s, hnodup => by
    obtain ⟨hm1, hnodup'⟩ := List.nodup_cons.mp hnodup
    have hne : m1 ≠ m := by
      rintro rfl
      exact hm1 (List.mem_append_right _ (List.mem_singleton_self m1))
    show (if m1 = m then (pure () : EvalM E Unit) else popCycle f m (new ++ m :: old))
      { s with stackTop := new ++ m :: old, mods := Function.update s.mods m1 (f (s.mods m1)) } = _
    rw [if_neg hne, popCycle_eq f m old new _ hnodup']
    have hmods : (fun v => if v ∈ new ++ [m] then f (Function.update s.mods m1 (f (s.mods m1)) v)
        else Function.update s.mods m1 (f (s.mods m1)) v) =
        fun v => if v ∈ m1 :: new ++ [m] then f (s.mods v) else s.mods v := by
      funext v
      by_cases hv : v = m1
      · subst hv
        have hnot : ¬v ∈ new ++ [m] := hm1
        rw [if_neg hnot, if_pos (by simp), Function.update_self]
      · simp [hv]
    show EStateM.Result.ok () (popped f (new ++ [m]) old
      { s with
        stackTop := new ++ m :: old
        mods := Function.update s.mods m1 (f (s.mods m1)) }) = _
    unfold popped
    rw [hmods]

/-- After a failure: everything is taken off the stack. -/
theorem wp_unwind (f : ModuleState E → ModuleState E) : ∀ (l : List DefId) (s : Evaluation E),
    l.Nodup → s.stackTop = l → (∀ v ∈ l, s.status v = busy) →
    wp (unwind busy f l) s (fun _ t => t = s.popped f l []) fun _ _ => False
  | [], ⟨mods, stack, ts, log⟩, _, hstack, _ => by
    obtain rfl : stack = [] := hstack
    rw [unwind, wp_pure, popped_nil]
  | m1 :: rest, s, hnodup, _, hstatus => by
    obtain ⟨hm1, hnodup'⟩ := List.nodup_cons.mp hnodup
    have hbusy : (s.mods m1).status = busy := hstatus m1 (List.mem_cons_self ..)
    rw [unwind, wp_bind, wp_getModule, wp_bind, wp_assert hbusy, wp_bind, wp_setModule, wp_bind,
      wp_modify]
    refine wp_mono (wp_unwind f rest _ hnodup' rfl fun v hv => ?_) ?_ fun _ _ h => h
    · have hne : v ≠ m1 := fun he => hm1 (he ▸ hv)
      show (Function.update s.mods m1 (f (s.mods m1)) v).status = busy
      rw [Function.update_of_ne hne]
      exact hstatus v (List.mem_cons_of_mem _ hv)
    · rintro _ t rfl
      have hmods : (fun v => if v ∈ rest then f (Function.update s.mods m1 (f (s.mods m1)) v)
          else Function.update s.mods m1 (f (s.mods m1)) v) =
          fun v => if v ∈ m1 :: rest then f (s.mods v) else s.mods v := by
        funext v
        by_cases hv : v = m1
        · subst hv
          rw [if_neg hm1, if_pos (List.mem_cons_self ..), Function.update_self]
        · simp [hv]
      unfold popped
      rw [hmods]

/-- The end of a visit. -/
theorem wp_leave (h : Search r busy Settled (m :: active) s)
    (hstack : s.stackTop = new ++ m :: old) {Q : Unit → Evaluation E → Prop}
    {X : EvalStop → Evaluation E → Prop}
    (hpop : s.low m = s.index m → Q () (s.popped f (new ++ [m]) old))
    (hkeep : s.low m ≠ s.index m → Q () s) : wp (leave f m) s Q X := by
  have hle : s.low m ≤ s.index m := h.dfs.low_le m (h.active_mem m (List.mem_cons_self ..))
  have hnodup : (new ++ [m]).Nodup := by
    have hall := h.dfs.nodup
    rw [hstack, List.append_cons] at hall
    exact (List.nodup_append.mp hall).1
  rw [leave, wp_bind, wp_getModule, wp_bind, wp_assert hle]
  by_cases heq : s.index m = s.low m
  · rw [if_pos heq, wp_bind, wp_get, hstack]
    unfold wp
    rw [popCycle_eq f m old new s hnodup]
    exact hpop heq.symm
  · rw [if_neg heq]
    exact hkeep fun h => heq h.symm

end

end Evaluation

end Ejr
