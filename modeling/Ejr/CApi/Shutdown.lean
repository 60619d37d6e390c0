import Ejr.CApi.Ledger

/-!
# Nothing is left at shutdown

The exact account of a handle's life: what the bridge got from the engine has
been released or handed over once when `ejr_free` gives up the runtime
(`settled_of_frugal`). The calls that break it are the ones `Frugal` leaves out.

`create_trampoline` never releases the name it made for the function data, which
`JS_NewCFunctionData` has duplicated, so every function registered leaves a
string behind; the functions of a module are handed over only when the module is
evaluated. `jsarg_from_jsvalue` releases a value that stays in the table. And a
value stored when `next_id` has come round to a live id pushes that one out.
-/

namespace Ejr

open Lib EasyJSR

variable {Cb : Type}

/-- Every reference obtained has been released or handed over exactly once, and
no other. -/
def AllSettled (es : List Event) : Prop :=
  ∀ r, es.count (.free r) + es.count (.give r) = es.count (.acquire r) ∧ es.count (.acquire r) ≤ 1

/-- No function has been registered. -/
def Unregistered (s : Handle Cb) : Prop := s.registry.functions = [] ∧ s.functions = []

/-- The exact account, of all events. -/
abbrev allRefs := exactRefs fun _ => True

/-! ## Handles without functions -/

theorem books_exact : Books allRefs (@Unregistered Cb) where
  toBookkeeping := bookkeeping_exact (fun _ => trivial) (fun _ => trivial) (fun _ => trivial)
    (fun _ => trivial) fun _ => trivial
  gives := handsOver_exact fun _ => trivial
  stable hs hregistry hfunctions := ⟨hregistry.trans hs.1, hfunctions.trans hs.2⟩
  callback depth fn argv answers := by
    intro s hs ho
    unfold callFunction
    rw [wp_bind, wp_get, hs.1]
    exact ⟨hs, (account_exact _ _).entry_refl s ho⟩
  moduleExport fn := by
    intro s hs ho
    unfold setModuleExport
    rw [wp_bind, wp_get, hs.2]
    exact ⟨hs, (account_exact _ _).entry_refl s ho⟩

/-! ## Frugal calls -/

/-- The call stores a value. -/
def Call.Stores (ad : JSValueAD) : Call Cb → Prop
  | .evalScript _ | .evalModule _ | .evalFunction .. | .getFromGlobal _ | .awaitPromise _ => True
  | .evalClassFunction valueId .. | .getPropertyFrom valueId _ => (ad.get valueId).val ≠ .undefined
  | _ => False

/-- Nothing is registered, `jsarg_from_jsvalue` is called for a value without a
reference, and a value is stored only where no reference is kept. -/
def Frugal (s : Handle Cb) : Call Cb → Prop
  | .registerCallback .. => False
  | .registerModule _ methods => methods = []
  | .jsargFromJsvalue _ value => value < 0 ∨ (s.jsvad.get value).val.hasRefCount = false
  | l => l.Stores s.jsvad → (s.jsvad.get s.jsvad.nextId).val.hasRefCount = false

/-- A value without a reference is pushed out of the table. -/
theorem room_exact {ad : JSValueAD} (h : (ad.get ad.nextId).val.hasRefCount = false) :
    Room allRefs ad := by
  have hnone : (ad.freeValue ad.nextId).1.toList.flatMap JSValue.owned = [] := by
    cases hfind : ad.find? ad.nextId with
    | none => simp [JSValueAD.freeValue, hfind]
    | some v =>
      rw [JSValueAD.get, hfind, Option.getD_some] at h
      simp [JSValueAD.freeValue, hfind, JSValue.owned, h]
  have hperm := ad.owned_freeValue ad.nextId
  rw [hnone, List.nil_append] at hperm
  intro v lo hi o es hA
  rw [JSValueAD.owned_addValue]
  exact (account_exact _ _).perm (.refl _) (hperm.append_left _) hA

theorem Frugal.sound {s : Handle Cb} {l : Call Cb} (h : Frugal s l) :
    l.Sound allRefs Unregistered s.jsvad := by
  cases l with
  | evalScript c => exact room_exact (h trivial)
  | evalModule c => exact room_exact (h trivial)
  | evalFunction args getFunction call => exact room_exact (h trivial)
  | evalClassFunction valueId args getFunction call => exact fun hval => room_exact (h hval)
  | getPropertyFrom valueId c => exact fun hval => room_exact (h hval)
  | getFromGlobal c => exact room_exact (h trivial)
  | awaitPromise valueId => exact room_exact (h trivial)
  | valToString valueId => trivial
  | jsargFromJsvalue depth value => exact h
  | freeJsvalue valueId => trivial
  | registerCallback fnName cb setProperty => exact h.elim
  | registerModule moduleName methods =>
    obtain rfl : methods = [] := h
    intro s hs ho
    exact ⟨hs, (account_exact _ _).entry_refl s ho⟩
  | free => trivial

/-! ## Runs -/

/-- The account of everything so far: what is owned is in the table. -/
structure Kept (s : Handle Cb) : Prop where
  unregistered : Unregistered s
  account : allRefs 0 s.rt.fresh [] s.jsvad.owned s.rt.trace

theorem kept_new (self : UInt64) (heap : Heap) (global : Addr) :
    Kept (.new self heap global : Handle Cb) where
  unregistered := ⟨rfl, rfl⟩
  account := (account_exact _ _).nil (Held.nil _ _)

/-- One call. -/
theorem Kept.step {s t : Handle Cb} {l : Call Cb} (h : Kept s) (hl : Frugal s l)
    (hstep : Handle.step s l t) : Kept t := by
  have hheld := (account_exact _ _).held (Held.nil _ _) h.account
  obtain ⟨ht, es, hes, hA⟩ := entry_of_step books_exact hstep hl.sound h.unregistered hheld
  refine ⟨ht, ?_⟩
  rw [show t.rt.trace = s.rt.trace ++ es from hes]
  exact (account_exact _ _).seq (Held.nil _ _) h.account hA

theorem count_puts (r : RefId) : ∀ es : List Event,
    (es.filterMap Event.puts).count (.ref r) = es.count (.free r) + es.count (.give r)
  | [] => rfl
  | e :: es => by
    have ih := count_puts r es
    cases e <;> simp [List.filterMap_cons, Event.puts, List.count_cons, ih] <;> omega

theorem count_takes (r : RefId) : ∀ es : List Event,
    (es.filterMap Event.takes).count (.ref r) = es.count (.acquire r)
  | [] => rfl
  | e :: es => by
    have ih := count_takes r es
    cases e <;> simp [List.filterMap_cons, Event.takes, List.count_cons, ih]

/-- `ejr_free` leaves nothing in the table. -/
theorem owned_of_free {s t : Handle Cb} (hstep : Handle.step s .free t) : t.jsvad.owned = [] := by
  obtain ⟨-, hrun⟩ := hstep
  have hfree : wp (Call.free : Call Cb).run s (fun _ t => t.jsvad.owned = []) fun _ _ => True := by
    simp only [Call.run, ejrFree, wp_map, wp_bind, wp_get, wp_onRt, wp_freeJsvals, wp_modify]
    exact s.jsvad.owned_free
  exact wp_of_ok (Q := fun _ t => t.jsvad.owned = []) hfree hrun

/-- **Nothing is left at shutdown** in every run of frugal calls that ends with
`ejr_free`. -/
theorem settled_of_frugal {self : UInt64} {heap : Heap} {global : Addr} {ls : List (Call Cb)}
    {t : Handle Cb} (h : Along Handle.step Frugal (.new self heap global) (ls ++ [.free]) t) :
    AllSettled t.rt.trace := by
  have hkept : Kept t := h.invariant (kept_new self heap global) fun _ _ _ => Kept.step
  obtain ⟨s, -, hlast⟩ := h.split
  cases hlast with
  | cons _ hstep hnil =>
    cases hnil
    intro r
    have haccount := hkept.account
    rw [owned_of_free hstep] at haccount
    have honce := haccount.once (.ref r)
    rw [show (eventRoles fun _ => True).puts = Event.puts from rfl,
      show (eventRoles fun _ => True).takes = Event.takes from rfl, count_puts, count_takes] at honce
    omega

/-- A string is stored, and left to `ejr_free`. -/
theorem settled_of_frugal_string : ∃ t : Handle Unit,
    Run Handle.step (.new 0 .initial 0) [.getFromGlobal ⟨[], .value (.string [])⟩, .free] t ∧
      AllSettled t.rt.trace := by
  obtain ⟨s, hget, hopen, -⟩ := exists_string
  obtain ⟨t, hfree, -⟩ := exists_free hopen
  have halong : Along Handle.step Frugal (.new 0 .initial 0)
      ([.getFromGlobal ⟨[], .value (.string [])⟩] ++ [.free]) t :=
    .cons (fun _ => rfl) hget (.cons (fun h => h.elim) hfree (.nil t))
  exact ⟨t, halong.run, settled_of_frugal halong⟩

/-- A module is registered and never imported: its function, and the name kept in
it, are still alive at shutdown. -/
theorem settled_of_frugal_fails : ¬∀ (ls : List (Call Unit)) (t : Handle Unit),
    Run Handle.step (.new 0 .initial 0) (ls ++ [.free]) t → AllSettled t.rt.trace := by
  intro hall
  have hreg : wp (Call.registerModule (ascii "m") [(ascii "f", ())] : Call Unit).run
      (.new 0 .initial 0)
      (fun _ t => t.closed = false ∧ t.jsvad = .new ∧ t.rt.trace = [.acquire 1, .acquire 2])
      (fun _ _ => False) := by
    simp [Call.run, EasyJSR.registerModule, EasyJSR.createMethods, EasyJSR.createTrampoline,
      EasyJSR.jsAddModuleExport, newFunctionData, wp_onRt, Handle.new, JSValue.events,
      JSVal.hasRefCount, Rt.owned, Rt.log]
  obtain ⟨a, s, hrun, hopen, hjsvad, htrace⟩ := exists_ok_of_wp hreg
  obtain ⟨t, hfree, hend⟩ := exists_free hopen
  have hsettled := hall [.registerModule (ascii "m") [(ascii "f", ())]] t
    (.cons ⟨rfl, hrun⟩ (.cons hfree (.nil t)))
  have hname := (hsettled 1).1
  rw [hend, htrace, hjsvad] at hname
  exact absurd hname (by decide)

end Ejr
