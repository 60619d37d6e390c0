import Ejr.ModuleSearch

/-!
# Linking

`js_link_module` fails or links everything a module leads to; either way no
assertion fails, nothing that was linked before is touched, and no module is
left in between (`wp_linkModule`).
-/

namespace Ejr

open Lib Relation

variable {E : Type}

/-- The module has been linked, and perhaps evaluated. -/
def ModuleStatus.Linked (st : ModuleStatus) : Prop :=
  st = .linked ∨ st = .evaluatingAsync ∨ st = .evaluated

namespace Evaluation

/-- No module is being evaluated, and linked modules request linked ones. -/
structure Linkable (r : Realm E) (s : Evaluation E) : Prop where
  idle : ∀ v, s.status v ≠ .evaluating
  closed : ∀ v, (s.status v).Linked → ∀ w, r.Imports v w → (s.status w).Linked

/-- Linking changes how far modules of `R` have been linked. -/
structure Links (R : DefId → Prop) (s t : Evaluation E) : Prop where
  log : t.log = s.log
  rest : ∀ v, t.mods v = { s.mods v with
    status := t.status v, dfsIndex := t.index v, dfsAncestorIndex := t.low v }
  linked : ∀ v, (s.status v).Linked → t.status v = s.status v
  unsettled : ∀ v, (t.status v).Settled → t.status v = s.status v
  outside : ∀ v, ¬R v → t.mods v = s.mods v

/-- A visit that has come back with an index, or with an exception. -/
structure LinkVisited (r : Realm E) (active : List DefId) (m : DefId) (s t : Evaluation E)
    (res : Except E Nat) : Prop where
  links : Links (Reach r m) s t
  linkable : Linkable r t
  ok : ∀ i, res = .ok i → (∀ v ∈ t.stackTop, t.index v < i) ∧
    Search r .linking ModuleStatus.Linked active t ∧
    ∃ new, Visited r ModuleStatus.Linked m s t new
  error : ∀ e, res = .error e → t.stackTop.Nodup ∧ ∀ v, t.status v = .linking ↔ v ∈ t.stackTop

/-- What `js_inner_module_linking` comes to, from a search that leads to `m`. -/
def LinkSpec (r : Realm E) (n : Nat) : Prop :=
  ∀ (active : List DefId) (m : DefId) (s : Evaluation E) (i : Nat),
    Search r .linking ModuleStatus.Linked active s → Linkable r s →
    (∀ v ∈ s.stackTop, s.index v < i) → (∀ v ∈ s.stackTop, Reach r v m) →
    (∀ v, Reach r m v → none ∉ r.reqModules v) →
    wp (innerModuleLinking r n m i) s
      (fun res t => LinkVisited r active m s t res ∧ (0 < n ∨ ∃ e, res = .error e))
      (fun _ _ => False)

section

variable {r : Realm E} {R R' : DefId → Prop} {active new done : List DefId} {m : DefId}
  {s t u : Evaluation E} {n : Nat}

theorem Links.refl (s : Evaluation E) : Links R s s :=
  ⟨rfl, fun _ => rfl, fun _ _ => rfl, fun _ _ => rfl, fun _ _ => rfl⟩

theorem Links.trans (h : Links R s t) (h' : Links R' t u) (hR : ∀ v, R' v → R v) :
    Links R s u where
  log := h'.log.trans h.log
  rest v := by rw [h'.rest v, h.rest v]
  linked v hv := by
    have heq := h.linked v hv
    rw [h'.linked v (by rwa [heq]), heq]
  unsettled v hv := by
    have heq := h'.unsettled v hv
    rw [heq] at hv ⊢
    exact h.unsettled v hv
  outside v hv := (h'.outside v fun h => hv (hR v h)).trans (h.outside v hv)

theorem Linkable.congr (h : Linkable r s) (hst : ∀ v, t.status v = s.status v) : Linkable r t where
  idle v := by rw [hst]; exact h.idle v
  closed v hv w himp := by
    rw [hst] at hv ⊢
    exact h.closed v hv w himp

theorem not_linked_linking : ¬ModuleStatus.Linked .linking := by simp [ModuleStatus.Linked]

theorem links_lowered (s : Evaluation E) {m1 : DefId} (hm : R m) : Links R s (s.lowered m m1) where
  log := rfl
  rest v := by
    by_cases hv : v = m
    · subst hv
      simp [lowered, status, index, low]
    · have heq : (s.lowered m m1).mods v = s.mods v := Function.update_of_ne hv _ _
      rw [status, index, low, heq]
  linked v _ := lowered_status s m m1 v
  unsettled v _ := lowered_status s m m1 v
  outside v hv := by
    have hne : v ≠ m := by
      rintro rfl
      exact hv hm
    exact Function.update_of_ne hne _ _

theorem links_enter (s : Evaluation E) (m : DefId) {d : ModuleState E}
    (hm : ¬(s.status m).Linked) (hdst : ¬d.status.Settled) (hd : d = { s.mods m with
      status := d.status, dfsIndex := d.dfsIndex, dfsAncestorIndex := d.dfsAncestorIndex }) :
    Links (Reach r m) s
      { s with mods := Function.update s.mods m d, stackTop := m :: s.stackTop } where
  log := rfl
  rest v := by
    by_cases hv : v = m
    · subst hv
      simpa [status, index, low] using hd
    · simp [status, index, low, hv]
  linked v hv := by
    have hne : v ≠ m := by
      rintro rfl
      exact hm hv
    simp [status, hne]
  unsettled v hv := by
    have hne : v ≠ m := by
      rintro rfl
      exact hdst (by simpa [status] using hv)
    simp [status, hne]
  outside v hv := by
    have hne : v ≠ m := by
      rintro rfl
      exact hv .refl
    exact Function.update_of_ne hne _ _

/-- By induction on the requests that are left. -/
theorem wp_linkRequests (hvisit : LinkSpec r n)
    (hbound : ∀ v, Reach r m v → none ∉ r.reqModules v) : ∀ (rest : List (Option DefId))
    (new done : List DefId) (t : Evaluation E) (i : Nat),
    Visiting r .linking ModuleStatus.Linked active m s t new done → Linkable r t →
    Links (Reach r m) s t → (∀ v ∈ t.stackTop, t.index v < i) → (∀ x ∈ rest, x ∈ r.reqModules m) →
    wp (linkRequests (innerModuleLinking r n) m rest i) t
      (fun res u => Links (Reach r m) s u ∧ Linkable r u ∧
        (∀ i', res = .ok i' → (∀ v ∈ u.stackTop, u.index v < i') ∧ ∃ new' done',
          Visiting r .linking ModuleStatus.Linked active m s u new' done' ∧
          ∀ w, w ∈ done ∨ some w ∈ rest → w ∈ done') ∧
        (∀ e, res = .error e → u.stackTop.Nodup ∧
          ∀ v, u.status v = .linking ↔ v ∈ u.stackTop))
      (fun _ _ => False)
  | [], new, done, t, i, ht, hlinkable, hlinks, hlt, _ => by
    refine ⟨hlinks, hlinkable, fun i' h => ?_, fun e h => absurd h (by simp)⟩
    obtain rfl := Except.ok.inj h
    exact ⟨hlt, new, done, ht, fun w hw => hw.resolve_right (by simp)⟩
  | x :: rest, new, done, t, i, ht, hlinkable, hlinks, hlt, hrest => by
    obtain ⟨hx, hrest'⟩ := List.forall_mem_cons.mp hrest
    obtain ⟨m1, rfl⟩ : ∃ m1, x = some m1 :=
      Option.ne_none_iff_exists'.mp fun h => hbound m .refl (h ▸ hx)
    have himp : r.Imports m m1 := hx
    have hm1 : ∀ v, Reach r m1 v → Reach r m v := fun v => .head himp
    rw [linkRequests, wp_bind, wp_follow, wp_bind]
    refine wp_mono (hvisit (m :: active) m1 t i ht.search hlinkable hlt
      (fun v hv => (ht.reach v hv).tail himp) fun v hv => hbound v (hm1 v hv)) ?_ fun _ _ h => h
    intro res u h
    obtain ⟨⟨hlinks', hlinkable', hok, herror⟩, -⟩ := h
    have hlinks'' := hlinks.trans hlinks' hm1
    cases res with
    | error e =>
      exact ⟨hlinks'', hlinkable', fun i' h => absurd h (by simp), fun _ _ => herror e rfl⟩
    | ok i' =>
      obtain ⟨hlt', hsearch, new1, hvisited⟩ := hok i' rfl
      have hstatus : (u.mods m1).status = .linking ∨ (u.mods m1).status = .linked ∨
          (u.mods m1).status = .evaluatingAsync ∨ (u.mods m1).status = .evaluated :=
        hvisited.found.imp_left (hsearch.busy_iff m1).mpr
      show wp (do
        let d1 ← getModule m1
        assert (d1.status = .linking ∨ d1.status = .linked ∨ d1.status = .evaluatingAsync ∨
          d1.status = .evaluated)
        if d1.status = .linking then lower m m1
        linkRequests (innerModuleLinking r n) m rest i') u _ _
      rw [wp_bind, wp_getModule, wp_bind, wp_assert hstatus]
      dsimp only
      by_cases hlinking : u.status m1 = .linking
      · rw [if_pos hlinking]
        show wp (linkRequests (innerModuleLinking r n) m rest i') (u.lowered m m1) _ _
        refine wp_mono (wp_linkRequests hvisit hbound rest (new1 ++ new) (m1 :: done)
          (u.lowered m m1) i' (ht.busy_request hvisited hsearch himp hlinking)
          (hlinkable'.congr (lowered_status u m m1))
          (hlinks''.trans (links_lowered u .refl) fun _ h => h)
          (fun v hv => by rw [lowered_index]; exact hlt' v hv) hrest') ?_ fun _ _ h => h
        intro res v h
        obtain ⟨h1, h2, h3, h4⟩ := h
        refine ⟨h1, h2, fun i'' hres => ?_, h4⟩
        obtain ⟨hlt'', new', done', hv, hdone'⟩ := h3 i'' hres
        exact ⟨hlt'', new', done', hv, fun w => done_cons hdone'⟩
      · rw [if_neg hlinking]
        obtain ⟨-, hnext⟩ := ht.settled_request hvisited hsearch hlinking
        refine wp_mono (wp_linkRequests hvisit hbound rest new (m1 :: done) u i' hnext hlinkable'
          hlinks'' hlt' hrest') ?_ fun _ _ h => h
        intro res v h
        obtain ⟨h1, h2, h3, h4⟩ := h
        refine ⟨h1, h2, fun i'' hres => ?_, h4⟩
        obtain ⟨hlt'', new', done', hv, hdone'⟩ := h3 i'' hres
        exact ⟨hlt'', new', done', hv, fun w => done_cons hdone'⟩

theorem popped_status (t : Evaluation E) (st : ModuleStatus) (cycle stack : List DefId)
    (v : DefId) : (t.popped (fun d => { d with status := st }) cycle stack).status v =
      if v ∈ cycle then st else t.status v := by
  show ModuleState.status (if v ∈ cycle then _ else _) = _
  split <;> rfl

/-- The status of modules that are being linked is changed. -/
theorem Links.popped {st : ModuleStatus} {cycle stack : List DefId} (h : Links R s t)
    (hst : ¬st.Settled) (hlinking : ∀ v ∈ cycle, t.status v = .linking)
    (hR : ∀ v ∈ cycle, R v) :
    Links R s (t.popped (fun d => { d with status := st }) cycle stack) where
  log := h.log
  rest v := by
    have heq := h.rest v
    rw [popped_status]
    unfold index low Evaluation.popped
    dsimp only
    by_cases hmem : v ∈ cycle
    · rw [if_pos hmem, if_pos hmem]
      exact congrArg (fun d : ModuleState E => { d with status := st }) heq
    · rw [if_neg hmem, if_neg hmem]
      exact heq
  linked v hv := by
    have heq := h.linked v hv
    rw [popped_status, if_neg, heq]
    intro hmem
    rw [← heq, hlinking v hmem] at hv
    exact not_linked_linking hv
  unsettled v hv := by
    rw [popped_status] at hv ⊢
    by_cases hmem : v ∈ cycle
    · rw [if_pos hmem] at hv
      exact absurd hv hst
    · rw [if_neg hmem] at hv ⊢
      exact h.unsettled v hv
  outside v hv := by
    have hmem : v ∉ cycle := fun h => hv (hR v h)
    show (if v ∈ cycle then _ else _) = _
    rw [if_neg hmem]
    exact h.outside v hv

/-- A module is linked at the end of its visit, with its cycle. -/
theorem LinkVisited.pop (ht : Visiting r .linking ModuleStatus.Linked active m s t new done)
    (hdone : Visiting.Complete r m done) (hlow : t.low m = t.index m) (hlinkable : Linkable r t)
    (hlinks : Links (Reach r m) s t) {i : Nat} (hlt : ∀ v ∈ t.stackTop, t.index v < i) :
    LinkVisited r active m s
      (t.popped (fun d => { d with status := .linked }) (new ++ [m]) s.stackTop) (.ok i) := by
  have hlinking : ∀ v ∈ new ++ [m], t.status v = .linking := by
    intro v hv
    refine (ht.search.busy_iff v).mpr ?_
    rw [ht.stack, List.append_cons]
    exact List.mem_append_left _ hv
  obtain ⟨hsearch, hvisited⟩ := ht.pop (f := fun d => { d with status := .linked })
    not_linked_linking fun d => .inl rfl
  refine ⟨hlinks.popped (by simp [ModuleStatus.Settled]) hlinking fun v hv => ht.reached_cycle hv,
    ⟨fun v => ?_, fun v hv w himp => ?_⟩, fun i' hi' => ⟨fun v hv => ?_, hsearch, [], hvisited⟩,
    fun e h => absurd h (by simp)⟩
  · rw [popped_status]
    split
    · decide
    · exact hlinkable.idle v
  · rw [popped_status] at hv ⊢
    have hw : (t.status w).Linked ∨ w ∈ new ++ [m] := by
      by_cases hmem : v ∈ new ++ [m]
      · exact ht.cycle_closed hdone hlow hmem himp
      · rw [if_neg hmem] at hv
        exact .inl (hlinkable.closed v hv w himp)
    split
    · exact .inl rfl
    · exact hw.resolve_right ‹_›
  · obtain rfl := Except.ok.inj hi'
    have hv' : v ∉ new ++ [m] := ht.not_cycle hv
    show ModuleState.dfsIndex (if v ∈ new ++ [m] then _ else _) < i
    rw [if_neg hv']
    refine hlt v ?_
    rw [ht.stack]
    exact List.mem_append_right _ (List.mem_cons_of_mem _ hv)

/-- By induction on the depth. -/
theorem linkSpec (r : Realm E) (n : Nat) : LinkSpec r n := by
  induction n with
  | zero =>
    intro active m s i hs hlinkable _ _ _
    refine ⟨⟨.refl s, hlinkable, fun i h => absurd h (by simp), fun _ _ =>
      ⟨hs.dfs.nodup, hs.busy_iff⟩⟩, .inr ⟨_, rfl⟩⟩
  | succ n ih =>
    intro active m s i hs hlinkable hlt hreach hbound
    rw [innerModuleLinking, wp_bind, wp_getModule]
    by_cases hstatus : (s.mods m).status = .linking ∨ (s.mods m).status = .linked ∨
        (s.mods m).status = .evaluatingAsync ∨ (s.mods m).status = .evaluated
    · rw [if_pos hstatus]
      refine ⟨⟨.refl s, hlinkable, fun i' h => ?_, fun e h => absurd h (by simp)⟩,
        .inl (Nat.succ_pos n)⟩
      obtain rfl := Except.ok.inj h
      refine ⟨hlt, hs, [], rfl, by simp, by simp, by simp, ?_, fun _ _ => rfl, fun _ _ => rfl,
        fun _ h => h⟩
      exact hstatus.imp_left (hs.busy_iff m).mp
    · have hunlinked : (s.mods m).status = .unlinked := by
        have hidle := hlinkable.idle m
        cases h : (s.mods m).status <;> simp_all [status]
      have hm : s.status m ≠ .linking := fun h => hstatus (.inl h)
      have hnot : ¬(s.status m).Linked := fun h => hstatus (.inr h)
      rw [if_neg hstatus, wp_bind, wp_assert hunlinked, wp_bind, wp_setModule, wp_bind, wp_push,
        wp_bind]
      let d : ModuleState E :=
        { s.mods m with status := .linking, dfsIndex := i, dfsAncestorIndex := i }
      let t : Evaluation E :=
        { s with mods := Function.update s.mods m d, stackTop := m :: s.stackTop }
      have ht : Visiting r .linking ModuleStatus.Linked active m s t [] [] :=
        hs.begin hm hnot hlt hreach rfl rfl rfl
      have hlinks : Links (Reach r m) s t :=
        links_enter s m hnot (by simp [d, ModuleStatus.Settled]) rfl
      have hlinkable' : Linkable r t := by
        refine ⟨fun v => ?_, fun v hv w himp => ?_⟩
        · by_cases hvm : v = m
          · simp [t, d, hvm, status]
          · simpa [t, hvm, status] using hlinkable.idle v
        · have hv' : (s.status v).Linked := by
            by_cases hvm : v = m
            · subst hvm
              simp [t, d, status, ModuleStatus.Linked] at hv
            · simpa [t, hvm, status] using hv
          have hw := hlinkable.closed v hv' w himp
          exact hlinks.linked w hw ▸ hw
      have hlt' : ∀ v ∈ t.stackTop, t.index v < i + 1 := by
        intro v hv
        by_cases hvm : v = m
        · simp [t, d, hvm, index]
        · have hold : v ∈ s.stackTop := (List.mem_cons.mp hv).resolve_left hvm
          have := hlt v hold
          simp [t, hvm, index] at this ⊢
          omega
      refine wp_mono (wp_linkRequests ih hbound (r.reqModules m) [] [] t (i + 1) ht hlinkable'
        hlinks hlt' fun _ h => h) ?_ fun _ _ h => h
      intro res u h
      obtain ⟨hlinksu, hlinkableu, hok, herror⟩ := h
      cases res with
      | error e =>
        exact ⟨⟨hlinksu, hlinkableu, fun i' h => absurd h (by simp), fun _ _ => herror e rfl⟩,
          .inl (Nat.succ_pos n)⟩
      | ok i' =>
        obtain ⟨hltu, new, done, hu, hdone⟩ := hok i' rfl
        have hcomplete : Visiting.Complete r m done := fun w himp => hdone w (.inr himp)
        dsimp only
        rw [wp_bind, wp_get]
        cases hinst : r.instantiate u.log m with
        | some e =>
          exact ⟨⟨hlinksu, hlinkableu, fun i' h => absurd h (by simp), fun _ _ =>
            ⟨hu.search.dfs.nodup, hu.search.busy_iff⟩⟩, .inl (Nat.succ_pos n)⟩
        | none =>
          dsimp only
          rw [wp_bind]
          refine wp_leave hu.search hu.stack (fun hlow => ?_) fun hlow => ?_
          · exact ⟨.pop hu hcomplete hlow hlinkableu hlinksu hltu, .inl (Nat.succ_pos n)⟩
          · obtain ⟨hsearch, hvisited⟩ := hu.keep hcomplete hlow
            refine ⟨⟨hlinksu, hlinkableu, fun i'' h => ?_, fun e h => absurd h (by simp)⟩,
              .inl (Nat.succ_pos n)⟩
            obtain rfl := Except.ok.inj h
            exact ⟨hltu, hsearch, _, hvisited⟩

/-! ## From no search -/

/-- No module is being linked. -/
theorem Search.start {busy : ModuleStatus} {Settled : ModuleStatus → Prop}
    (h : ∀ v, s.status v ≠ busy) : Search r busy Settled [] { s with stackTop := [] } :=
  ⟨.nil, fun v => iff_of_false (h v) List.not_mem_nil, by simp, by simp⟩

theorem Linkable.reached (h : Linkable r s) (hm : (s.status m).Linked) {v : DefId}
    (hv : Reach r m v) : (s.status v).Linked := by
  induction hv with
  | refl => exact hm
  | tail _ himp ih => exact h.closed _ ih _ himp

/-- Linking, from a state in which no module is being linked. -/
theorem wp_linkModule (hs : Linkable r s) (hidle : ∀ v, s.status v ≠ .linking)
    (hbound : ∀ v, Reach r m v → none ∉ r.reqModules v) :
    wp (linkModule r n m) s
      (fun res t => Links (Reach r m) s t ∧ Linkable r t ∧ (∀ v, t.status v ≠ .linking) ∧
        (res = none → (t.status m).Linked ∧ 0 < n))
      (fun _ _ => False) := by
  let s0 : Evaluation E := { s with stackTop := [] }
  have hs0 : Linkable r s0 := hs.congr fun _ => rfl
  have hlinks0 : Links (Reach r m) s s0 := ⟨rfl, fun _ => rfl, fun _ _ => rfl,
    fun _ _ => rfl, fun _ _ => rfl⟩
  have hstatus : (s.mods m).status = .unlinked ∨ (s.mods m).status = .linked ∨
      (s.mods m).status = .evaluatingAsync ∨ (s.mods m).status = .evaluated := by
    have h1 := hidle m
    have h2 := hs.idle m
    cases h : (s.mods m).status <;> simp_all [status]
  rw [linkModule, wp_bind, wp_getModule, wp_bind, wp_assert hstatus, wp_bind, wp_modify, wp_bind]
  refine wp_mono (linkSpec r n [] m s0 0 (.start hidle) hs0 (fun v hv => absurd hv List.not_mem_nil)
    (fun v hv => absurd hv List.not_mem_nil) hbound) ?_ fun _ _ h => h
  rintro res t ⟨ht, hn⟩
  have hlinks : Links (Reach r m) s t := hlinks0.trans ht.links fun _ h => h
  cases res with
  | error e =>
    obtain ⟨hnodup, hbusy⟩ := ht.error e rfl
    have hlinking : ∀ v ∈ t.stackTop, t.status v = .linking := fun v => (hbusy v).mpr
    have hR : ∀ v ∈ t.stackTop, Reach r m v := by
      intro v hv
      by_contra hnot
      have heq := congrArg ModuleState.status (hlinks.outside v hnot)
      exact hidle v (heq.symm.trans (hlinking v hv))
    dsimp only
    rw [wp_bind, wp_get, wp_bind]
    refine wp_mono (wp_unwind _ t.stackTop t hnodup rfl hlinking) ?_ fun _ _ h => h
    rintro _ u rfl
    refine ⟨hlinks.popped (by simp [ModuleStatus.Settled]) hlinking hR,
      ⟨fun v => ?_, fun v hv w himp => ?_⟩, fun v => ?_,
      fun h => absurd h (by simp)⟩
    · rw [popped_status]
      split
      · decide
      · exact ht.linkable.idle v
    · rw [popped_status] at hv ⊢
      by_cases hmem : v ∈ t.stackTop
      · rw [if_pos hmem] at hv
        exact absurd hv (by simp [ModuleStatus.Linked])
      · rw [if_neg hmem] at hv
        have hw := ht.linkable.closed v hv w himp
        rwa [if_neg fun hmem => not_linked_linking (hlinking w hmem ▸ hw)]
    · rw [popped_status]
      split
      · decide
      · exact fun h => absurd ((hbusy v).mp h) ‹_›
  | ok i =>
    obtain ⟨-, hsearch, new, hvisited⟩ := ht.ok i rfl
    have hstack : t.stackTop = [] := hvisited.empty rfl
    have hm : (t.mods m).status = .linked ∨ (t.mods m).status = .evaluatingAsync ∨
        (t.mods m).status = .evaluated := hvisited.found.resolve_left (by simp [hstack])
    have hn' : 0 < n := hn.resolve_right (by rintro ⟨e, h⟩; exact absurd h (by simp))
    dsimp only
    rw [wp_bind, wp_get, wp_bind, wp_assert hstack, wp_bind, wp_getModule, wp_bind, wp_assert hm]
    exact ⟨hlinks, ht.linkable, fun v h => by simpa [hstack] using (hsearch.busy_iff v).mp h,
      fun _ => ⟨hm, hn'⟩⟩

end

end Evaluation

end Ejr
