import Ejr.RoundTrip

/-!
# Which values `from_js` tells apart

Values built from `null`, `undefined`, booleans, 32-bit integers, strings and
arrays are trees; `Denotes h t v` says that the value `v` of a heap is the tree
`t`, and `Tree.arg` is what `from_js` makes of it (`fromJs_tree`). Text is told
apart, whatever code units it is made of (`newStringLen_toCStringLen`). But
`null` and `undefined` are spelled out, so two trees have one argument when they
differ only in that (`arg_eq_iff`).
-/

namespace Ejr

open Lib

/-! ## Trees -/

/-- The values to be told apart. -/
inductive Tree where
  | null
  | undefined
  | bool (b : Bool)
  | int (i : Int32)
  | string (u : JSString)
  | array (items : List Tree)

mutual

/-- Strings have no NUL, and arrays are no longer than arrays can be. -/
def Tree.Plain : Tree → Prop
  | .string u => ∀ c ∈ u, c ≠ 0
  | .array items => items.length < 2 ^ 32 ∧ Tree.PlainItems items
  | _ => True

def Tree.PlainItems : List Tree → Prop
  | [] => True
  | t :: rest => t.Plain ∧ Tree.PlainItems rest

end

mutual

/-- How deep arrays are nested. -/
def Tree.depth : Tree → Nat
  | .array items => Tree.depthItems items + 1
  | _ => 0

def Tree.depthItems : List Tree → Nat
  | [] => 0
  | t :: rest => max t.depth (Tree.depthItems rest)

end

mutual

/-- The value `v` is the tree. -/
def Denotes (h : Heap) : Tree → JSVal → Prop
  | .null, v => v = .null
  | .undefined, v => v = .undefined
  | .bool b, v => v = .bool b
  | .int i, v => v = .int i
  | .string u, v => v = .string u
  | .array items, v => ∃ x, v = .object x ∧ (h.obj x).cls = .array items.length ∧
      DenotesItems h (h.obj x).indexed 0 items

/-- What is read from index `i` on are the trees. -/
def DenotesItems (h : Heap) (read : Nat → Outcome JSVal) : Nat → List Tree → Prop
  | _, [] => True
  | i, t :: rest => (∃ w, read i = .value w ∧ Denotes h t w) ∧ DenotesItems h read (i + 1) rest

end

mutual

/-- What `from_js` makes of the tree. -/
def Tree.arg : Tree → JSArg
  | .null => .string (ascii "null")
  | .undefined => .string (ascii "undefined")
  | .bool b => .bool b
  | .int i => .int i
  | .string u => .string (cstr (toCStringLen u))
  | .array items => .array (Tree.args items)

def Tree.args : List Tree → List JSArg
  | [] => []
  | t :: rest => t.arg :: Tree.args rest

end

/-! ## What `from_js` makes of them -/

/-- A tree that is no array. -/
theorem fromLeaf_tree {h : Heap} {t : Tree} (ht : ∀ items, t ≠ .array items) {v : JSVal}
    (hv : Denotes h t v) (pending : JSVal) :
    h.isArray v = .value false ∧ h.fromLeaf pending v = .ok t.arg := by
  cases t with
  | array items => exact absurd rfl (ht items)
  | _ =>
    obtain rfl := hv
    exact ⟨rfl, rfl⟩

theorem answers_tree {h : Heap} {t : Tree} (ht : ∀ items, t ≠ .array items) {v : JSVal}
    (hv : Denotes h t v) (r : RefId) (forceFree : Bool) (n : Nat) {s : Rt} (hs : s.heap = h)
    {X : Stop → Prop} :
    wp (fromJs (n + 1) ⟨v, r⟩ forceFree) s (fun a u => a = t.arg ∧ u.heap = h)
      (fun e _ => X e) := by
  subst hs
  obtain ⟨harr, hleaf⟩ := fromLeaf_tree ht hv s.pending
  refine wp_mono (answers_fromJs n harr) ?_ ?_
  · intro a u ha
    rw [hleaf] at ha
    exact ⟨(Except.ok.inj ha.1).symm, ha.2⟩
  · intro e u he
    rw [hleaf] at he
    exact nomatch he

mutual

/-- **`from_js` of a tree**: only the depth can be too small. -/
theorem fromJs_tree {h : Heap} : ∀ (t : Tree), t.Plain → ∀ (v : JSVal) (r : RefId)
    (forceFree : Bool) (n : Nat) (s : Rt), Denotes h t v → s.heap = h →
    wp (fromJs n ⟨v, r⟩ forceFree) s (fun a u => a = t.arg ∧ u.heap = h) (fun _ _ => n ≤ t.depth)
  | _, _, _, _, _, 0, _, _, _ => Nat.zero_le _
  | .array items, hplain, v, r, forceFree, n + 1, s, hv, hs => by
    obtain ⟨x, rfl, hcls, hitems⟩ := hv
    obtain ⟨hlen, hplain⟩ := hplain
    have harr : h.ArrayLike (.object x) := by
      rw [Heap.ArrayLike, isArray_of_array hcls]
      simp
    have hloop : wp (fromJs (n + 1) ⟨.object x, r⟩ forceFree) s
        (fun a _ => a = (Tree.array items).arg) (fun _ _ => n + 1 ≤ (Tree.array items).depth) := by
      refine wp_fromJs_array hs harr fun u hu => ?_
      rw [arrayLength_of_cls hcls hlen]
      refine wp_mono (fromJsElems_tree items hplain x r n 0 u hitems hu) ?_ ?_
      · intro vec _ hvec
        rw [hvec, Tree.arg]
      · intro _ _ hn
        exact Nat.succ_le_succ hn
    -- the array branch forgets the heap, which no branch changes
    refine wp_mono (wp_and hloop (fromJs_heap (n + 1) ⟨.object x, r⟩ forceFree s)) ?_
      (fun _ _ h => h.1)
    exact fun a u ha => ⟨ha.1, ha.2.trans hs⟩
  | .null, _, _, r, forceFree, n + 1, _, hv, hs =>
    answers_tree (by simp) hv r forceFree n hs
  | .undefined, _, _, r, forceFree, n + 1, _, hv, hs =>
    answers_tree (by simp) hv r forceFree n hs
  | .bool _, _, _, r, forceFree, n + 1, _, hv, hs =>
    answers_tree (by simp) hv r forceFree n hs
  | .int _, _, _, r, forceFree, n + 1, _, hv, hs =>
    answers_tree (by simp) hv r forceFree n hs
  | .string _, _, _, r, forceFree, n + 1, _, hv, hs =>
    answers_tree (by simp) hv r forceFree n hs

/-- The loop over the elements. -/
theorem fromJsElems_tree {h : Heap} : ∀ (items : List Tree), Tree.PlainItems items →
    ∀ (x : Addr) (r : RefId) (n i : Nat) (s : Rt), DenotesItems h (h.obj x).indexed i items →
    s.heap = h →
    wp (fromJsElems (fromJs n) ⟨.object x, r⟩ i items.length) s (fun vec _ => vec = Tree.args items)
      (fun _ _ => n ≤ Tree.depthItems items)
  | [], _, _, _, _, _, _, _, _ => rfl
  | t :: rest, ⟨ht, hrest⟩, x, r, n, i, s, ⟨⟨w, hw, hd⟩, hds⟩, hs => by
    have helem : h.element (.object x) i = w := by
      show ((h.obj x).indexed i).get?.getD .exception = w
      rw [hw]
      rfl
    simp only [List.length_cons, fromJsElems, wp_bind, wp_jsGetPropertyUint32, wp_pure, hs, helem]
    refine wp_mono (fromJs_tree t ht w _ true n _ hd (by simpa using hs)) ?_ ?_
    · intro a u ha
      obtain ⟨rfl, hu⟩ := ha
      refine wp_mono (fromJsElems_tree rest hrest x r n (i + 1) u hds hu) ?_ ?_
      · intro vec _ hvec
        rw [hvec, Tree.args]
      · exact fun _ _ hn => Nat.le_trans hn (Nat.le_max_right _ _)
    · exact fun _ _ hn => Nat.le_trans hn (Nat.le_max_left _ _)

end

/-! ## Which arguments are the same -/

mutual

/-- The same tree, up to `null` in one where the other has the string `"null"`,
and `undefined` where it has `"undefined"`. -/
def Tree.Alike : Tree → Tree → Prop
  | .null, .null | .undefined, .undefined => True
  | .null, .string u | .string u, .null => u = units "null"
  | .undefined, .string u | .string u, .undefined => u = units "undefined"
  | .bool b, .bool c => b = c
  | .int i, .int j => i = j
  | .string u, .string w => u = w
  | .array items, .array others => Tree.AlikeItems items others
  | _, _ => False

def Tree.AlikeItems : List Tree → List Tree → Prop
  | [], [] => True
  | t :: rest, u :: others => t.Alike u ∧ Tree.AlikeItems rest others
  | _, _ => False

end

/-- Text without NUL is told apart. -/
theorem text_inj {u w : JSString} (hu : ∀ c ∈ u, c ≠ 0) (hw : ∀ c ∈ w, c ≠ 0) :
    cstr (toCStringLen u) = cstr (toCStringLen w) ↔ u = w := by
  rw [cstr_of_nulFree (nulFree_toCStringLen hu), cstr_of_nulFree (nulFree_toCStringLen hw)]
  constructor
  · intro h
    rw [← newStringLen_toCStringLen u, h, newStringLen_toCStringLen]
  · exact fun h => h ▸ rfl

theorem text_eq_null {u : JSString} (hu : ∀ c ∈ u, c ≠ 0) :
    cstr (toCStringLen u) = ascii "null" ↔ u = units "null" := by
  have h : ascii "null" = cstr (toCStringLen (units "null")) := by decide +kernel
  rw [h]
  exact text_inj hu (by simp [units])

theorem text_eq_undefined {u : JSString} (hu : ∀ c ∈ u, c ≠ 0) :
    cstr (toCStringLen u) = ascii "undefined" ↔ u = units "undefined" := by
  have h : ascii "undefined" = cstr (toCStringLen (units "undefined")) := by decide +kernel
  rw [h]
  exact text_inj hu (by simp [units])

theorem ascii_null_ne_undefined : ascii "null" ≠ ascii "undefined" := by decide

/-- A tree that is no array, and any other. -/
theorem leaf_arg_eq_iff {t u : Tree} (hleaf : ∀ items, t ≠ .array items) (ht : t.Plain)
    (hu : u.Plain) : t.arg = u.arg ↔ t.Alike u := by
  cases t with
  | array items => exact absurd rfl (hleaf items)
  | null =>
    cases u with
    | string w =>
      rw [Tree.arg, Tree.arg, JSArg.string.injEq, eq_comm]
      exact text_eq_null hu
    | undefined => simp [Tree.arg, Tree.Alike, ascii_null_ne_undefined]
    | _ => simp [Tree.arg, Tree.Alike]
  | undefined =>
    cases u with
    | string w =>
      rw [Tree.arg, Tree.arg, JSArg.string.injEq, eq_comm]
      exact text_eq_undefined hu
    | null => simp [Tree.arg, Tree.Alike, ascii_null_ne_undefined.symm]
    | _ => simp [Tree.arg, Tree.Alike]
  | string w =>
    cases u with
    | string w' =>
      rw [Tree.arg, Tree.arg, JSArg.string.injEq]
      exact text_inj ht hu
    | null =>
      rw [Tree.arg, Tree.arg, JSArg.string.injEq]
      exact text_eq_null ht
    | undefined =>
      rw [Tree.arg, Tree.arg, JSArg.string.injEq]
      exact text_eq_undefined ht
    | _ => simp [Tree.arg, Tree.Alike]
  | bool b => cases u <;> simp [Tree.arg, Tree.Alike]
  | int i => cases u <;> simp [Tree.arg, Tree.Alike]

mutual

/-- **Two trees have one argument exactly when they are alike.** -/
theorem arg_eq_iff : ∀ t u : Tree, t.Plain → u.Plain → (t.arg = u.arg ↔ t.Alike u)
  | .array items, .array others, ht, hu => by
    rw [Tree.arg, Tree.arg, JSArg.array.injEq, Tree.Alike]
    exact args_eq_iff items others ht.2 hu.2
  | .array _, .null, _, _ | .array _, .undefined, _, _ | .array _, .bool _, _, _
  | .array _, .int _, _, _ | .array _, .string _, _, _ => by simp [Tree.arg, Tree.Alike]
  | .null, _, ht, hu => leaf_arg_eq_iff (by simp) ht hu
  | .undefined, _, ht, hu => leaf_arg_eq_iff (by simp) ht hu
  | .bool _, _, ht, hu => leaf_arg_eq_iff (by simp) ht hu
  | .int _, _, ht, hu => leaf_arg_eq_iff (by simp) ht hu
  | .string _, _, ht, hu => leaf_arg_eq_iff (by simp) ht hu

theorem args_eq_iff : ∀ ts us : List Tree, Tree.PlainItems ts → Tree.PlainItems us →
    (Tree.args ts = Tree.args us ↔ Tree.AlikeItems ts us)
  | [], [], _, _ => by simp [Tree.args, Tree.AlikeItems]
  | [], _ :: _, _, _ => by simp [Tree.args, Tree.AlikeItems]
  | _ :: _, [], _, _ => by simp [Tree.args, Tree.AlikeItems]
  | t :: ts, u :: us, ⟨ht, hts⟩, ⟨hu, hus⟩ => by
    rw [Tree.args, Tree.args, List.cons.injEq, Tree.AlikeItems, arg_eq_iff t u ht hu,
      args_eq_iff ts us hts hus]

end

/-! ## Telling apart -/

/-- `from_js` of `v`, run on the heap, returns the argument. -/
def Maps (h : Heap) (v : JSVal) (a : JSArg) : Prop :=
  ∃ (n : Nat) (r : RefId) (forceFree : Bool) (s t : Rt),
    s.heap = h ∧ fromJs n ⟨v, r⟩ forceFree s = .ok a t

/-- `from_js` returns the tree's argument, and no other. -/
theorem maps_iff {h : Heap} {t : Tree} (ht : t.Plain) {v : JSVal} (hv : Denotes h t v)
    (a : JSArg) : Maps h v a ↔ a = t.arg := by
  constructor
  · intro ⟨n, r, forceFree, s, u, hs, hrun⟩
    exact (wp_of_ok (fromJs_tree t ht v r forceFree n s hv hs) hrun).1
  · intro ha
    have hrun := fromJs_tree t ht v 0 false (t.depth + 1) ⟨h, .uninitialized, [], 0⟩ hv rfl
    obtain ⟨b, u, hok, hb, -⟩ := exists_ok_of_wp
      (wp_mono hrun (fun _ _ h => h) fun _ _ hn => Nat.not_succ_le_self _ hn)
    exact ⟨_, 0, false, _, u, rfl, by rw [ha, ← hb]; exact hok⟩

/-- The kinds a callback can test for are those of the value. -/
def KindsOf (h : Heap) (v : JSVal) (t : Tree) : Prop :=
  ∀ a, Maps h v a → (a = .null ↔ t = .null) ∧ (a = .undefined ↔ t = .undefined)

/-- `from_js` tells the two apart, if they are different, and keeps `null` and
`undefined`. -/
def Tells (h h' : Heap) (v w : JSVal) (t u : Tree) : Prop :=
  (∀ a, Maps h v a → Maps h' w a → t = u) ∧ KindsOf h v t ∧ KindsOf h' w u

/-- Neither `null` nor `undefined`. -/
def Tree.Defined (t : Tree) : Prop := t ≠ .null ∧ t ≠ .undefined

theorem kindsOf_iff {h : Heap} {t : Tree} (ht : t.Plain) {v : JSVal} (hv : Denotes h t v) :
    KindsOf h v t ↔ t.Defined := by
  have hkinds : KindsOf h v t ↔
      (t.arg = .null ↔ t = .null) ∧ (t.arg = .undefined ↔ t = .undefined) := by
    constructor
    · exact fun hk => hk _ ((maps_iff ht hv _).mpr rfl)
    · intro hk a ha
      rw [(maps_iff ht hv a).mp ha]
      exact hk
  rw [hkinds]
  cases t <;> simp [Tree.arg, Tree.Defined]

/-- **What `from_js` tells apart**: for every two trees, in any two heaps. -/
theorem tells_iff {h h' : Heap} {v w : JSVal} {t u : Tree} (ht : t.Plain) (hu : u.Plain)
    (hv : Denotes h t v) (hw : Denotes h' u w) :
    Tells h h' v w t u ↔ t.Defined ∧ u.Defined ∧ (t.Alike u → t = u) := by
  have hsame : (∀ a, Maps h v a → Maps h' w a → t = u) ↔ (t.Alike u → t = u) := by
    rw [← arg_eq_iff t u ht hu]
    constructor
    · intro hinj harg
      exact hinj _ ((maps_iff ht hv _).mpr rfl) ((maps_iff hu hw _).mpr harg)
    · intro hinj a ha ha'
      rw [maps_iff ht hv] at ha
      rw [maps_iff hu hw] at ha'
      exact hinj (ha.symm.trans ha')
  rw [Tells, hsame, kindsOf_iff ht hv, kindsOf_iff hu hw]
  constructor
  · exact fun ⟨h1, h2, h3⟩ => ⟨h2, h3, h1⟩
  · exact fun ⟨h2, h3, h1⟩ => ⟨h1, h2, h3⟩

/-- A context with `[[1, true], null]` at 12 and `[["1", true], null]` at 14. -/
def Heap.withNested : Heap :=
  (((Heap.initial.set 12 (.pair (.object 13) .null)).set 13 (.pair (.int 1) (.bool true))).set 14
    (.pair (.object 15) .null)).set 15 (.pair (.string (units "1")) (.bool true))

/-- The number 1 and the string `"1"`, each in an array in an array beside a `null`. -/
theorem tells_iff_nested : Tells .withNested .withNested (.object 12) (.object 14)
    (.array [.array [.int 1, .bool true], .null])
    (.array [.array [.string (units "1"), .bool true], .null]) := by
  have hnumber : Denotes .withNested (.array [.array [.int 1, .bool true], .null]) (.object 12) :=
    ⟨12, rfl, rfl, ⟨.object 13, rfl, 13, rfl, rfl, ⟨_, rfl, rfl⟩, ⟨_, rfl, rfl⟩, trivial⟩,
      ⟨_, rfl, rfl⟩, trivial⟩
  have htext : Denotes .withNested (.array [.array [.string (units "1"), .bool true], .null])
      (.object 14) :=
    ⟨14, rfl, rfl, ⟨.object 15, rfl, 15, rfl, rfl, ⟨_, rfl, rfl⟩, ⟨_, rfl, rfl⟩, trivial⟩,
      ⟨_, rfl, rfl⟩, trivial⟩
  have hplain : (Tree.array [.array [.int 1, .bool true], .null]).Plain :=
    ⟨by decide, ⟨by decide, trivial, trivial, trivial⟩, trivial, trivial⟩
  have hplain' : (Tree.array [.array [.string (units "1"), .bool true], .null]).Plain :=
    ⟨by decide, ⟨by decide, show ∀ c ∈ units "1", c ≠ 0 by simp [units], trivial, trivial⟩, trivial,
      trivial⟩
  refine (tells_iff hplain hplain' hnumber htext).mpr ⟨?_, ?_, ?_⟩
  · simp [Tree.Defined]
  · simp [Tree.Defined]
  · exact fun h => h.1.1.elim

/-- `null` and the string `"null"`. -/
theorem tells_fails : ¬ Tells .initial .initial .null (.string (units "null")) .null
    (.string (units "null")) := by
  intro ⟨hinj, _, _⟩
  have hnul : ∀ c ∈ units "null", c ≠ 0 := by simp [units]
  have hnull : Maps .initial .null (.string (ascii "null")) :=
    (maps_iff (t := .null) trivial rfl _).mpr rfl
  have hstring : Maps .initial (.string (units "null")) (.string (ascii "null")) := by
    refine (maps_iff (t := .string (units "null")) hnul rfl _).mpr ?_
    rw [Tree.arg, (text_eq_null hnul).mpr rfl]
  exact nomatch hinj _ hnull hstring

end Ejr
