import Ejr.LoadRuns
import Ejr.Promises

/-!
# Runs that load and evaluate modules

What registrations, loads and evaluations come to together, in any order and
with any code: imports that cannot be bound, code that throws, code that
awaits. Loading leaves the modules it has loaded as they are and binds the
requests that evaluation follows, and so what holds between evaluations
(`Evaluation.Idle`) holds in every run (`Modules.Sound`): the code of a module
runs at most once and after that of its imports (`evaluated_in_order`), no
evaluation fails an assertion, and its promise tells what has been run
(`evalFunction_tells`).
-/

namespace Ejr

open Lib Relation

variable {Cb E : Type}

/-- A request of `v` has been bound to `w`. -/
def Loading.Requests (s : Loading Cb) (v w : DefId) : Prop :=
  some w ∈ (s.reqModuleEntries v).map ReqModuleEntry.moduleDef

/-- What evaluation finds once modules have been loaded. -/
def Realm.over (code : Realm E) (s : Loading Cb) : Realm E :=
  { code with reqModules := fun m => (s.reqModuleEntries m).map ReqModuleEntry.moduleDef }

/-- The modules, and what has become of them. -/
structure Modules (Cb E : Type) where
  loading : Loading Cb
  evaluation : Evaluation E

/-! ## Other requests -/

namespace Evaluation

section

variable {r r' : Realm E} {s : Evaluation E} {v w c : DefId} {e : E}

theorem Idle.reach (h : Idle r s)
    (hreq : ∀ v, (s.status v).Linked → r'.reqModules v = r.reqModules v)
    (hv : (s.status v).Linked) (hw : Reach r v w) : Reach r' v w := by
  induction hw with
  | refl => exact .refl
  | @tail u w hu himp ih =>
    refine ih.tail ?_
    show some w ∈ r'.reqModules u
    rw [hreq u (h.toLinkable.reached hv hu)]
    exact himp

/-- Only the requests of linked modules matter. -/
theorem Idle.realm (h : Idle r s)
    (hreq : ∀ v, (s.status v).Linked → r'.reqModules v = r.reqModules v)
    (hover : r'.stackOverflow = r.stackOverflow) : Idle r' s := by
  have himp : ∀ {v w}, (s.status v).Linked → r'.Imports v w → r.Imports v w := by
    intro v w hv hw
    show some w ∈ r.reqModules v
    rw [← hreq v hv]
    exact hw
  have hdone : ∀ {v}, (s.status v).Settled → Done r s v → Done r' s v := fun hv hd =>
    ⟨hd.exception, hd.completed, fun ha => by
      obtain ⟨w, hw, hstarted⟩ := hd.waits ha
      exact ⟨w, h.reach hreq (.inr hv) hw, hstarted⟩⟩
  have hfine : ∀ {v c}, Fine r s v c → Fine r' s v c := fun hf =>
    ⟨hdone hf.settled hf.done, hf.settled, hf.root, hdone hf.rootSettled hf.rootDone,
      hf.rootSettled, hf.rootRoot, h.reach hreq (.inr hf.settled) hf.there,
      h.reach hreq (.inr hf.rootSettled) hf.back, hf.async⟩
  refine ⟨⟨h.once, fun pre v x post heq w hw => ?_, fun v => ?_⟩,
    ⟨h.idle, fun v hv w hw => h.closed v hv w (himp hv hw)⟩, h.notLinking, h.promises⟩
  · have hv : (s.status v).Settled := by
      by_contra hv
      refine ((h.accounted v).blank hv (h.idle v)).unrun x ?_
      rw [heq]
      simp
    have hw' := himp (.inr hv) hw
    exact (h.ordered pre v x post heq w hw').imp_right
      (h.reach hreq (h.closed v (.inr hv) w hw'))
  · obtain ⟨hblank, hwaiting, hf, hfailed⟩ := h.accounted v
    refine ⟨hblank, hwaiting, fun hst hex => ?_, fun e he => ?_⟩
    · obtain ⟨c, hfv, hclosed⟩ := hf hst hex
      refine ⟨c, hfine hfv, fun w hw => ?_⟩
      obtain ⟨c', hfw, hor⟩ := hclosed w (himp (.inr hst) hw)
      exact ⟨c', hfine hfw, hor⟩
    · obtain ⟨hst, ⟨w, hw, hrest⟩, hroot⟩ := hfailed e he
      exact ⟨hst, ⟨w, h.reach hreq (.inr (.inr hst)) hw, by rwa [hover]⟩, hroot⟩

theorem idle_new (r : Realm E) : Idle r new := by
  refine ⟨⟨.nil, ordered_nil, fun v => ⟨fun _ _ => ⟨rfl, rfl, fun x hx => ?_⟩, fun h => ?_,
    fun h => ?_, fun e h => ?_⟩⟩, ⟨fun v h => ?_, fun v h => ?_⟩, fun v h => ?_, fun c p h => ?_⟩
  · exact absurd hx List.not_mem_nil
  · exact absurd h (by simp [status, new, ModuleState.new])
  · exact absurd h (by simp [status, new, ModuleState.new, ModuleStatus.Settled])
  · exact absurd h (by simp [exception, new, ModuleState.new])
  · exact absurd h (by simp [status, new, ModuleState.new])
  · exact absurd h (by simp [status, new, ModuleState.new, ModuleStatus.Linked])
  · exact absurd h (by simp [status, new, ModuleState.new])
  · exact absurd h (by simp [promise, new, ModuleState.new])

end

end Evaluation

/-! ## What has been loaded -/

namespace Loading

variable {s : Loading Cb} {v w : DefId}

theorem Tidy.request (h : Tidy [] s) (hv : s.Live v) {x : Option DefId}
    (hx : x ∈ (s.reqModuleEntries v).map ReqModuleEntry.moduleDef) :
    ∃ w, x = some w ∧ s.Live w := by
  obtain ⟨d, hd, hfreed⟩ := hv
  obtain ⟨rme, hrme, rfl⟩ := List.mem_map.mp hx
  obtain ⟨w, hw, hready, -⟩ := h.bound v d hd hfreed List.not_mem_nil rme hrme
  exact ⟨w, hw, hready.live⟩

theorem Tidy.reached (h : Tidy [] s) (hv : s.Live v) (hw : ReflTransGen s.Requests v w) :
    s.Live w := by
  induction hw with
  | refl => exact hv
  | tail _ hreq ih =>
    obtain ⟨w, hw, hlive⟩ := h.request ih hreq
    exact Option.some.inj hw ▸ hlive

end Loading

/-! ## Runs -/

namespace Modules

/-- Nothing loaded yet. -/
def new (self : UInt64) : Modules Cb E := ⟨.new self, .new⟩

/-- A registration, a load that fails, or a load that goes well and is followed by an
evaluation, with any code. -/
inductive step (host : Host) (overflow : E) :
    Modules Cb E → Loading.Act Cb → Modules Cb E → Prop where
  | other {s : Modules Cb E} {a : Loading.Act Cb} {t : Loading Cb}
      (h : Loading.step host s.loading a t) (ha : ∀ l, a ≠ .load l true) :
      step host overflow s a ⟨t, s.evaluation⟩
  | evaluate {s : Modules Cb E} {l : Loading.Load} {m : DefId} {t : Loading Cb} {d n k : Nat}
      (code : Realm E) {res : Except E DefId} {e : Evaluation E}
      (hl : l.run host d s.loading = .ok (some m) t) (hcode : code.stackOverflow = overflow)
      (he : Evaluation.evalFunction (code.over t) n (k + 1) m s.evaluation = .ok res e) :
      step host overflow s (.load l true) ⟨t, e⟩

/-- The invariant of runs. -/
structure Sound (overflow : E) (s : Modules Cb E) : Prop where
  tidy : Loading.Tidy [] s.loading
  idle : ∀ code : Realm E, code.stackOverflow = overflow →
    Evaluation.Idle (code.over s.loading) s.evaluation
  known : ∀ v, (s.evaluation.status v).Linked → v < s.loading.registry.defs.length

section

variable {host : Host} {overflow : E} {self : UInt64} {s t : Modules Cb E}
  {a : Loading.Act Cb} {l : Loading.Load} {u : Loading Cb} {m : DefId} {code : Realm E}

theorem Sound.extend (h : Sound overflow s) (htidy : Loading.Tidy [] u)
    (hext : s.loading.Extends u) : Sound overflow ⟨u, s.evaluation⟩ where
  tidy := htidy
  idle code hcode := by
    refine (h.idle code hcode).realm (fun v hv => ?_) rfl
    show (u.reqModuleEntries v).map _ = (s.loading.reqModuleEntries v).map _
    rw [hext.entries v (h.known v hv)]
  known v hv := Nat.lt_of_lt_of_le (h.known v hv) hext.length_le

/-- An evaluation after a load that has gone well. -/
theorem Sound.wp_evalFunction (h : Sound overflow s) {d : Nat}
    (hl : l.run host d s.loading = .ok (some m) u) (hcode : code.stackOverflow = overflow)
    (n k : Nat) :
    wp (Evaluation.evalFunction (code.over u) n (k + 1) m) s.evaluation
      (fun res e => Evaluation.Evaluated (code.over u) m s.evaluation e res ∧
        Sound overflow ⟨u, e⟩)
      (fun _ _ => False) := by
  obtain ⟨hext, hsome, -⟩ := wp_of_ok (Loading.wp_run_tidy host d l h.tidy) hl
  obtain ⟨hlive, hloaded⟩ := hsome m rfl
  have hu := h.extend hloaded.tidy hext
  have hreached : ∀ v, Evaluation.Reach (code.over u) m v → u.Live v := fun v hv =>
    hloaded.tidy.reached hlive hv
  refine wp_mono (Evaluation.wp_evalFunction (hu.idle code hcode) (fun v hv hnone => ?_) n k) ?_
    fun _ _ h => h
  · obtain ⟨w, hw, -⟩ := hloaded.tidy.request (hreached v hv) hnone
    exact absurd hw (by simp)
  · intro res e he
    refine ⟨he, hu.tidy, fun code' hcode' => ?_, fun v hv => ?_⟩
    · exact he.idle.realm (fun _ _ => rfl) (hcode'.trans hcode.symm)
    · exact (he.linked v hv).elim (hu.known v) fun hv => (hreached v hv).lt

theorem Sound.step (h : Sound overflow s) (ha : a.Safe host) (hstep : step host overflow s a t) :
    Sound overflow t := by
  cases hstep with
  | other hl _ => exact h.extend (h.tidy.step ha hl) (Loading.extends_step h.tidy hl)
  | evaluate code hl hcode he => exact (wp_of_ok (h.wp_evalFunction hl hcode _ _) he).2

theorem sound_new (overflow : E) (self : UInt64) :
    Sound overflow (new self : Modules Cb E) where
  tidy := Loading.tidy_new self
  idle code _ := Evaluation.idle_new _
  known v hv := absurd hv (by
    simp [new, Evaluation.new, ModuleState.new, Evaluation.status, ModuleStatus.Linked])

theorem sound_of_along {acts : List (Loading.Act Cb)}
    (hrun : Along (Modules.step host overflow) (fun _ a => a.Safe host) (new self) acts s) :
    Sound overflow s :=
  hrun.invariant (sound_new overflow self) fun _ _ _ hs ha hstep => hs.step ha hstep

/-- **In every run the code of a module is run at most once, and only after the code of each
module that it imports has been run to its end, but for those that import it in turn.** -/
theorem evaluated_in_order {acts : List (Loading.Act Cb)}
    (hrun : Along (Modules.step host overflow) (fun _ a => a.Safe host) (new self) acts s) :
    (s.evaluation.log.map Prod.fst).Nodup ∧
      ∀ pre v x post, s.evaluation.log = pre ++ (v, x) :: post →
        ∀ w, s.loading.Requests v w →
          (w, .completed) ∈ pre ∨ ReflTransGen s.loading.Requests w v := by
  have hidle := (sound_of_along hrun).idle
    ⟨fun _ => [], fun _ => false, fun _ _ => none, fun _ _ => none, overflow⟩ rfl
  exact ⟨hidle.once, hidle.ordered⟩

/-- Nothing awaits, and nothing goes wrong. -/
def calm : Realm Unit := ⟨fun _ => [], fun _ => false, fun _ _ => none, fun _ _ => none, ()⟩

theorem evaluated_in_order_two : ∃ s : Modules Unit Unit,
    s.evaluation.log = [(0, .completed), (2, .completed), (1, .completed)] ∧
    (s.evaluation.log.map Prod.fst).Nodup ∧
      ∀ pre v x post, s.evaluation.log = pre ++ (v, x) :: post →
        ∀ w, s.loading.Requests v w →
          (w, .completed) ∈ pre ∨ ReflTransGen s.loading.Requests w v := by
  refine ⟨_, ?_, evaluated_in_order (show Along (Modules.step Loading.twoFiles ())
    (fun _ a => a.Safe Loading.twoFiles) (new 0) [.registerModule [109] [],
      .load (.importModule [120] [46, 47, 97]) true,
      .load (.importModule [120] [46, 47, 98]) true] _ from
    .cons trivial (.other (.registerModule _ _ _) (by simp)) (.cons (.inl rfl)
      (.evaluate (d := 3) (m := 1) (n := 4) (k := 4) calm rfl rfl rfl) (.cons (.inl rfl)
      (.evaluate (d := 3) (m := 2) (n := 4) (k := 4) calm rfl rfl rfl) (.nil _))))⟩
  rfl

/-- **After every run, a module that has been loaded is linked and evaluated without a failed
assertion; promises that there were stay as they are, and the promise that comes back tells what
has become of the modules that the module leads to.** -/
theorem evalFunction_tells {acts : List (Loading.Act Cb)}
    (hrun : Along (Modules.step host overflow) (fun _ a => a.Safe host) (new self) acts s)
    {d : Nat} (hl : l.run host d s.loading = .ok (some m) u) (code : Realm E)
    (hcode : code.stackOverflow = overflow) (n k : Nat) :
    wp (Evaluation.evalFunction (code.over u) n (k + 1) m) s.evaluation
      (fun res e =>
        (∀ c p, s.evaluation.promise c = some p → e.promise c = some p) ∧
        (∀ x, res = .error x → e.log = s.evaluation.log) ∧
        ∀ c, res = .ok c → ∃ p, e.promise c = some p ∧
          (p = .fulfilled ↔ ∀ w, ReflTransGen u.Requests m w → (w, .completed) ∈ e.log) ∧
          (p = .pending → ∃ w, ReflTransGen u.Requests m w ∧ (w, .started) ∈ e.log) ∧
          ∀ x, p = .rejected x → ∃ w, ReflTransGen u.Requests m w ∧
            ((w, .threw x) ∈ e.log ∨ x = overflow ∧ ∀ y, (w, y) ∉ e.log))
      (fun _ _ => False) := by
  refine wp_mono ((sound_of_along hrun).wp_evalFunction hl hcode n k) ?_ fun _ _ h => h
  rintro res e ⟨he, -⟩
  refine ⟨he.kept, he.refused, fun c hc => ?_⟩
  obtain ⟨p, hp, htells⟩ := he.tells c hc
  refine ⟨p, hp, htells.fulfilled_iff he.idle.toBooks, ?_, ?_⟩
  · rintro rfl
    exact htells
  · rintro x rfl
    obtain ⟨w, hw, hthrew | ⟨hx, -, hrun⟩⟩ := htells
    · exact ⟨w, hw, .inl hthrew⟩
    · exact ⟨w, hw, .inr ⟨hx.trans hcode, hrun⟩⟩

/-- Two files that import each other; the second awaits. -/
def pair : Host := Loading.hostOf [([97], [[46, 47, 98]]), ([98], [[46, 47, 97]])]

theorem evalFunction_tells_pair : ∃ (u : Loading Unit) (res : Except Unit DefId)
    (e : Evaluation Unit),
    (Loading.Load.importModule [120] [46, 47, 97]).run pair 4 (.new 0) =
      .ok (some 0) u ∧
    e.log = [(1, .started)] ∧
    ∀ c, res = .ok c → ∃ p, e.promise c = some p ∧
      (p = .fulfilled ↔ ∀ w, ReflTransGen u.Requests 0 w → (w, .completed) ∈ e.log) ∧
      (p = .pending → ∃ w, ReflTransGen u.Requests 0 w ∧ (w, .started) ∈ e.log) := by
  have hl : ∃ u, (Loading.Load.importModule [120] [46, 47, 97]).run pair 4
      (.new 0 : Loading Unit) = .ok (some 0) u := ⟨_, rfl⟩
  obtain ⟨u, hl⟩ := hl
  obtain ⟨res, e, hok, -, -, htells⟩ := exists_ok_of_wp (evalFunction_tells
    (Along.nil (new 0 : Modules Unit Unit)) hl { calm with hasTla := fun m => m == 1 } rfl 4 4)
  refine ⟨u, res, e, hl, ?_, fun c hc => ?_⟩
  · obtain rfl := (EStateM.Result.ok.inj hl).2
    rw [← (EStateM.Result.ok.inj hok).2]
    rfl
  · obtain ⟨p, hp, hfulfilled, hpending, -⟩ := htells c hc
    exact ⟨p, hp, hfulfilled, hpending⟩

/-- The stack has to do for the first call: nothing is taken back otherwise, and the assertion
that the module has been evaluated fails. -/
example : ∃ s : Evaluation Unit,
    Evaluation.evalFunction calm 1 0 0 .new = .error .assertion s := ⟨_, rfl⟩

end

end Modules

end Ejr
