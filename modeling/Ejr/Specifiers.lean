import Ejr.Imports

/-!
# Relative specifiers

What `js_default_module_normalize_name` (lib/quickjs.c) makes of `./x`, `../x`
and the like. Read as a path, the name of the importing module is a file in a
directory; the specifier is some leading steps, `./` and `../`, and the rest. The
loop climbs the directories (`climb`), and what comes out is the path of the rest
in the directory it has come to (`normalizeName_path`). It gets no further than a
directory called `.` or `..`, and no further than the string it keeps has
directories: the root of an absolute path is the empty string, and lost.

`defaultNormalizeName` is the function as it fills its buffer; it has room for
everything that is put into it (`defaultNormalizeName_eq`).

Mirroring notes:
- Allocation does not fail, and lengths fit an `int`.
-/

namespace Ejr

open Lib

/-! ## The buffer -/

/-- `pstrcat`: what does not fit is cut off. -/
def pstrcat (buf : Bytes) (bufSize : Nat) (s : Bytes) : Bytes :=
  if buf.length < bufSize then buf ++ s.take (bufSize - buf.length - 1) else buf

/-- `js_default_module_normalize_name`, in its buffer of `cap` bytes. -/
def defaultNormalizeName (baseName name : Bytes) : Bytes :=
  if name.head? = some 46 then
    let dir := dirName baseName
    let cap := dir.length + name.length + 1 + 1
    let (filename, r) := normalizeLoop dir name
    let filename := if filename = [] then filename else pstrcat filename cap (ascii "/")
    pstrcat filename cap r
  else name

theorem pstrcat_eq {buf s : Bytes} {bufSize : Nat} (h : buf.length + s.length < bufSize) :
    pstrcat buf bufSize s = buf ++ s := by
  rw [pstrcat, if_pos (by omega), List.take_of_length_le (by omega)]

theorem length_dirName_le (filename : Bytes) : (dirName filename).length ≤ filename.length :=
  List.length_take_le' _ _

/-- The loop makes nothing longer. -/
theorem length_normalizeLoop_le : ∀ filename r : Bytes,
    (normalizeLoop filename r).1.length + (normalizeLoop filename r).2.length ≤
      filename.length + r.length := by
  intro filename r
  induction filename, r using normalizeLoop.induct with
  | case1 filename r ih =>
    rw [normalizeLoop]
    simp only [List.length_cons]
    omega
  | case2 filename r hstop =>
    rw [normalizeLoop, if_pos hstop]
  | case3 filename r hgo ih =>
    have := length_dirName_le filename
    rw [normalizeLoop, if_neg hgo]
    simp only [List.length_cons]
    omega
  | case4 filename r h1 h2 =>
    rw [normalizeLoop]
    · exact h1
    · exact h2

/-- What has been kept of the directory, a slash, and the rest. -/
theorem pstrcat_path {filename r : Bytes} {cap : Nat} (h : filename.length + r.length + 1 < cap) :
    pstrcat (if filename = [] then filename else pstrcat filename cap (ascii "/")) cap r =
      if filename = [] then r else filename ++ 47 :: r := by
  by_cases hnil : filename = []
  · subst hnil
    rw [if_pos rfl, if_pos rfl]
    exact pstrcat_eq (Nat.lt_of_succ_lt h)
  · have hslash : pstrcat filename cap (ascii "/") = filename ++ [47] :=
      pstrcat_eq (show filename.length + 1 < cap by omega)
    have hlen : (filename ++ [47]).length + r.length < cap := by
      rw [List.length_append, List.length_singleton]
      omega
    rw [if_neg hnil, if_neg hnil, hslash, pstrcat_eq hlen, List.append_assoc, List.singleton_append]

/-- **The buffer is large enough**: nothing is cut off. -/
theorem defaultNormalizeName_eq (baseName name : Bytes) :
    defaultNormalizeName baseName name = normalizeName baseName name := by
  have hle := length_normalizeLoop_le (dirName baseName) name
  unfold defaultNormalizeName normalizeName
  split
  next => exact pstrcat_path (by omega)
  next => rfl

/-! ## Paths -/

/-- A file or directory as its own name and those of the directories it is in,
the innermost first. -/
abbrev Path := List Bytes

namespace Path

/-- The path as a string. -/
def text : Path → Bytes
  | [] => []
  | [c] => c
  | c :: dir => text dir ++ 47 :: c

/-- No name has a slash in it. -/
def Plain (p : Path) : Prop := ∀ c ∈ p, (47 : UInt8) ∉ c

instance (p : Path) : Decidable p.Plain := List.decidableBAll (fun c => (47 : UInt8) ∉ c) p

theorem text_cons (c : Bytes) {dir : Path} (hdir : dir ≠ []) :
    text (c :: dir) = text dir ++ 47 :: c := by
  cases dir with
  | nil => exact absurd rfl hdir
  | cons d dir => rw [text]; exact hdir

end Path

theorem idxOf?_append_cons {b : UInt8} {ys : Bytes} : ∀ {xs : Bytes}, b ∉ xs →
    (xs ++ b :: ys).idxOf? b = some xs.length
  | [], _ => by rw [List.nil_append, List.idxOf?_cons, if_pos (beq_self_eq_true b)]; rfl
  | x :: xs, h => by
    obtain ⟨hx, hxs⟩ := not_or.mp (mt List.mem_cons.mpr h)
    rw [List.cons_append, List.idxOf?_cons, if_neg (by simpa using Ne.symm hx),
      idxOf?_append_cons hxs]
    rfl

/-- The last slash of a string. -/
theorem strrchr_append {p c : Bytes} (hc : (47 : UInt8) ∉ c) :
    strrchr (p ++ 47 :: c) 47 = some p.length := by
  have hrev : (p ++ 47 :: c).reverse = c.reverse ++ 47 :: p.reverse := by simp
  have hlen : (p ++ 47 :: c).length - 1 - c.reverse.length = p.length := by
    simp only [List.length_append, List.length_cons, List.length_reverse]
    omega
  rw [strrchr, hrev, idxOf?_append_cons (by simpa using hc), Option.map_some, hlen]

theorem strrchr_none {c : Bytes} (hc : (47 : UInt8) ∉ c) : strrchr c 47 = none := by
  rw [strrchr, List.idxOf?_eq_none_iff.mpr (by simpa using hc), Option.map_none]

/-- The directory of a path, -/
theorem dirName_text {c : Bytes} {dir : Path} (hc : (47 : UInt8) ∉ c) :
    dirName (Path.text (c :: dir)) = dir.text := by
  cases dir with
  | nil =>
    show dirName c = []
    rw [dirName, strrchr_none hc, Option.getD_none, List.take_zero]
  | cons d dir =>
    rw [Path.text_cons c (by simp), dirName, strrchr_append hc, Option.getD_some, List.take_left]

/-- and its last element. -/
theorem lastElement_text {c : Bytes} {dir : Path} (hc : (47 : UInt8) ∉ c) :
    lastElement (Path.text (c :: dir)) = c := by
  cases dir with
  | nil =>
    show lastElement c = c
    rw [lastElement, strrchr_none hc]
  | cons d dir =>
    rw [Path.text_cons c (by simp), lastElement, strrchr_append hc]
    show (Path.text (d :: dir) ++ 47 :: c).drop ((Path.text (d :: dir)).length + 1) = c
    rw [← List.drop_drop, List.drop_left, List.drop_one, List.tail_cons]

/-! ## Climbing -/

/-- A leading step of a specifier. -/
inductive Climb where
  | here
  | up
  deriving DecidableEq, Repr

namespace Climb

/-- `./` or `../`. -/
def text : Climb → Bytes
  | .here => [46, 47]
  | .up => [46, 46, 47]

/-- All of them. -/
def texts (steps : List Climb) : Bytes := steps.flatMap text

/-- How many of them go up. -/
def ups (steps : List Climb) : Nat := steps.count .up

end Climb

/-- There is no directory to leave, or it is called `.` or `..`. -/
def Path.stuck (dir : Path) : Bool :=
  dir.text = [] || dir.head? == some (ascii ".") || dir.head? == some (ascii "..")

/-- The directory that the steps lead to, and the steps that are left when there
is no way up. -/
def climb : Path → List Climb → Path × List Climb
  | dir, [] => (dir, [])
  | dir, .here :: steps => climb dir steps
  | dir, .up :: steps => if dir.stuck then (dir, .up :: steps) else climb dir.tail steps

/-- A specifier goes on with a step. -/
def Leads (r : Bytes) : Prop := [46, 47] <+: r ∨ [46, 46, 47] <+: r

instance (r : Bytes) : Decidable (Leads r) := instDecidableOr

theorem normalizeLoop_of_not_leads {filename r : Bytes} (hr : ¬Leads r) :
    normalizeLoop filename r = (filename, r) := by
  rw [normalizeLoop]
  · intro r' h
    exact hr (.inl ⟨r', h.symm⟩)
  · intro r' h
    exact hr (.inr ⟨r', h.symm⟩)

/-- The loop stops at a directory without a way up. -/
theorem stuck_iff {dir : Path} (hplain : Path.Plain dir) : dir.stuck = true ↔
    dir.text = [] ∨ lastElement dir.text = ascii "." ∨ lastElement dir.text = ascii ".." := by
  cases dir with
  | nil => decide
  | cons c dir =>
    rw [lastElement_text (hplain c (List.mem_cons_self ..))]
    simp [Path.stuck, or_assoc]

theorem dirName_of_not_stuck {dir : Path} (hplain : Path.Plain dir) (h : dir.stuck ≠ true) :
    dirName dir.text = Path.text dir.tail := by
  cases dir with
  | nil => exact absurd rfl h
  | cons c dir => exact dirName_text (hplain c (List.mem_cons_self ..))

/-- **The loop climbs.** -/
theorem normalizeLoop_texts {r : Bytes} (hr : ¬Leads r) : ∀ (steps : List Climb) (dir : Path),
    Path.Plain dir → normalizeLoop dir.text (Climb.texts steps ++ r) =
      ((climb dir steps).1.text, Climb.texts (climb dir steps).2 ++ r)
  | [], _, _ => normalizeLoop_of_not_leads hr
  | .here :: steps, dir, hplain => by
    show normalizeLoop dir.text (46 :: 47 :: (Climb.texts steps ++ r)) = _
    rw [normalizeLoop, climb, normalizeLoop_texts hr steps dir hplain]
  | .up :: steps, dir, hplain => by
    show normalizeLoop dir.text (46 :: 46 :: 47 :: (Climb.texts steps ++ r)) = _
    rw [normalizeLoop, climb]
    by_cases hstuck : dir.stuck = true
    · rw [if_pos ((stuck_iff hplain).mp hstuck), if_pos hstuck]
      rfl
    · have htail : Path.Plain dir.tail := fun c hc => hplain c (List.mem_of_mem_tail hc)
      rw [if_neg (mt (stuck_iff hplain).mpr hstuck), if_neg hstuck,
        dirName_of_not_stuck hplain hstuck, normalizeLoop_texts hr steps dir.tail htail]

/-- The directory as a string has lost the root. -/
def Path.kept (dir : Path) : Path := if dir.text = [] then [] else dir

/-- From the directory of the importing module the steps are climbed; the rest is
looked up there, behind the steps that were too many. -/
theorem normalizeName_texts {file : Bytes} {dir : Path} (hplain : Path.Plain (file :: dir))
    {steps : List Climb} {r : Bytes} (hr : ¬Leads r) (hdot : steps ≠ [] ∨ r.head? = some 46) :
    normalizeName (Path.text (file :: dir)) (Climb.texts steps ++ r) =
      Path.text ((Climb.texts (climb dir steps).2 ++ r) :: (climb dir steps).1.kept) := by
  have hhead : (Climb.texts steps ++ r).head? = some 46 := by
    cases steps with
    | nil => exact hdot.resolve_left fun h => h rfl
    | cons step steps => cases step <;> rfl
  have hdir : Path.Plain dir := fun c hc => hplain c (List.mem_cons_of_mem _ hc)
  rw [normalizeName, if_pos hhead, dirName_text (hplain file (List.mem_cons_self ..)),
    normalizeLoop_texts hr steps dir hdir]
  show (if (climb dir steps).1.text = [] then _ else _) = _
  by_cases hroot : (climb dir steps).1.text = []
  · rw [if_pos hroot, Path.kept, if_pos hroot]
    rfl
  · have hne : (climb dir steps).1 ≠ [] := fun h => hroot (by rw [h]; rfl)
    rw [if_neg hroot, Path.kept, if_neg hroot, Path.text_cons _ hne]

/-- Every string is a path, -/
theorem exists_path (s : Bytes) : ∃ file dir, Path.Plain (file :: dir) ∧
    Path.text (file :: dir) = s := by
  induction s using List.reverseRecOn with
  | nil => exact ⟨[], [], by decide, rfl⟩
  | append_singleton s b ih =>
    obtain ⟨file, dir, hplain, rfl⟩ := ih
    obtain ⟨hfile, hdir⟩ := List.forall_mem_cons.mp hplain
    by_cases hb : b = 47
    · subst hb
      exact ⟨[], file :: dir, List.forall_mem_cons.mpr ⟨List.not_mem_nil, hplain⟩, rfl⟩
    · have hfile' : (47 : UInt8) ∉ file ++ [b] := by
        simp [hfile, Ne.symm hb]
      refine ⟨file ++ [b], dir, List.forall_mem_cons.mpr ⟨hfile', hdir⟩, ?_⟩
      cases dir with
      | nil => rfl
      | cons d dir =>
        rw [Path.text_cons (file ++ [b]) (List.cons_ne_nil d dir),
          Path.text_cons file (List.cons_ne_nil d dir), List.append_assoc]
        rfl

/-- and every specifier has its leading steps. -/
theorem exists_texts : ∀ (n : Nat) (name : Bytes), name.length ≤ n →
    ∃ steps r, ¬Leads r ∧ Climb.texts steps ++ r = name := by
  intro n
  induction n with
  | zero =>
    intro name hlen
    obtain rfl := List.eq_nil_of_length_eq_zero (Nat.le_zero.mp hlen)
    exact ⟨[], [], by decide, rfl⟩
  | succ n ih =>
    intro name hlen
    by_cases hleads : Leads name
    · rcases hleads with ⟨r, rfl⟩ | ⟨r, rfl⟩
      · have hr : r.length + 2 ≤ n + 1 := hlen
        obtain ⟨steps, r', hr', rfl⟩ := ih r (by omega)
        exact ⟨.here :: steps, r', hr', rfl⟩
      · have hr : r.length + 3 ≤ n + 1 := hlen
        obtain ⟨steps, r', hr', rfl⟩ := ih r (by omega)
        exact ⟨.up :: steps, r', hr', rfl⟩
    · exact ⟨[], name, hleads, rfl⟩

/-- **A relative specifier is a path from the importing module**, for every name
of the module and every specifier; one without a dot in front stays as it is. -/
theorem normalizeName_path (baseName name : Bytes) : ∃ file dir steps r,
    Path.Plain (file :: dir) ∧ Path.text (file :: dir) = baseName ∧
    ¬Leads r ∧ Climb.texts steps ++ r = name ∧
    defaultNormalizeName baseName name =
      if steps = [] ∧ r.head? ≠ some 46 then name
      else Path.text ((Climb.texts (climb dir steps).2 ++ r) :: (climb dir steps).1.kept) := by
  obtain ⟨file, dir, hplain, rfl⟩ := exists_path baseName
  obtain ⟨steps, r, hr, rfl⟩ := exists_texts name.length name (Nat.le_refl _)
  refine ⟨file, dir, steps, r, hplain, rfl, hr, rfl, ?_⟩
  rw [defaultNormalizeName_eq]
  by_cases hdot : steps = [] ∧ r.head? ≠ some 46
  · obtain ⟨rfl, hhead⟩ := hdot
    rw [if_pos ⟨rfl, hhead⟩]
    exact if_neg hhead
  · rw [if_neg hdot]
    refine normalizeName_texts hplain hr ?_
    by_cases hsteps : steps = []
    · exact .inr (Classical.not_not.mp fun h => hdot ⟨hsteps, h⟩)
    · exact .inl hsteps

-- from the root of an absolute path
example : defaultNormalizeName (ascii "/main.js") (ascii "./a.js") = ascii "a.js" := by decide

/-! ## Directories with names of their own -/

/-- No directory is called `.` or `..`, or has no name. -/
def Path.Proper (dir : Path) : Prop := ∀ c ∈ dir, c ≠ [] ∧ c ≠ ascii "." ∧ c ≠ ascii ".."

instance (dir : Path) : Decidable dir.Proper :=
  List.decidableBAll (fun c => c ≠ [] ∧ c ≠ ascii "." ∧ c ≠ ascii "..") dir

theorem text_ne_nil {c : Bytes} (hc : c ≠ []) (dir : Path) : Path.text (c :: dir) ≠ [] := by
  cases dir with
  | nil => exact hc
  | cons d dir =>
    rw [Path.text_cons c (by simp)]
    simp

theorem not_stuck_of_proper {c : Bytes} {dir : Path} (h : Path.Proper (c :: dir)) :
    Path.stuck (c :: dir) ≠ true := by
  obtain ⟨hne, hdot, hdots⟩ := h c (List.mem_cons_self ..)
  simp [Path.stuck, text_ne_nil hne dir, hdot, hdots]

theorem Path.Proper.kept {dir : Path} (h : Path.Proper dir) : dir.kept = dir := by
  cases dir with
  | nil => rfl
  | cons c dir => exact if_neg (text_ne_nil (h c (List.mem_cons_self ..)).1 dir)

/-- As long as there are directories to leave, they are left. -/
theorem climb_of_proper : ∀ (steps : List Climb) (dir : Path), dir.Proper →
    Climb.ups steps ≤ dir.length → climb dir steps = (dir.drop (Climb.ups steps), [])
  | [], _, _, _ => rfl
  | .here :: steps, dir, h, hle => climb_of_proper steps dir h hle
  | .up :: steps, [], _, hle => absurd hle (by simp [Climb.ups])
  | .up :: steps, c :: dir, h, hle => by
    have hups : Climb.ups (.up :: steps) = Climb.ups steps + 1 := List.count_cons_self
    rw [hups, List.length_cons] at hle
    rw [climb, if_neg (not_stuck_of_proper h), hups, List.drop_succ_cons]
    exact climb_of_proper steps dir (fun d hd => h d (List.mem_cons_of_mem _ hd)) (by omega)

/-- A path in a directory is a path. -/
theorem text_nested {outer : Path} : ∀ (file : Bytes) (dir : Path),
    Path.text (Path.text (file :: dir) :: outer) = Path.text (file :: (dir ++ outer))
  | _, [] => rfl
  | file, d :: dir => by
    cases outer with
    | nil => rw [List.append_nil]; rfl
    | cons e outer =>
      have ih : Path.text (Path.text (d :: dir) :: e :: outer) =
          Path.text (d :: (dir ++ e :: outer)) := text_nested d dir
      rw [Path.text_cons _ (by simp)] at ih ⊢
      rw [Path.text_cons file (by simp), List.cons_append, Path.text_cons file (by simp), ← ih,
        List.append_assoc]
      rfl

/-! ## Chains of imports -/

/-- A relative specifier: steps, and a file in directories. -/
structure Specifier where
  steps : List Climb
  file : Bytes
  dir : Path

namespace Specifier

/-- As it is written. -/
def text (s : Specifier) : Bytes := Climb.texts s.steps ++ Path.text (s.file :: s.dir)

/-- The module it means in the module `p`. -/
def resolve (p : Path) (s : Specifier) : Path :=
  s.file :: (s.dir ++ p.tail.drop (Climb.ups s.steps))

/-- It begins with a step, the steps are all there are, and the directories have
names of their own. -/
structure WellFormed (s : Specifier) : Prop where
  steps : s.steps ≠ []
  rest : ¬Leads (Path.text (s.file :: s.dir))
  plain : Path.Plain (s.file :: s.dir)
  proper : s.dir.Proper

/-- No specifier climbs further than there are directories. -/
def Stays : Path → List Specifier → Prop
  | _, [] => True
  | p, s :: rest => Climb.ups s.steps ≤ p.tail.length ∧ Stays (resolve p s) rest

theorem plain_resolve {p : Path} {s : Specifier} (hp : p.Plain) (hs : s.WellFormed) :
    Path.Plain (resolve p s) := by
  intro c hc
  rcases List.mem_cons.mp hc with rfl | hc
  · exact hs.plain _ (List.mem_cons_self ..)
  · rcases List.mem_append.mp hc with hc | hc
    · exact hs.plain c (List.mem_cons_of_mem _ hc)
    · exact hp c (List.mem_of_mem_tail (List.mem_of_mem_drop hc))

theorem proper_resolve {p : Path} {s : Specifier} (hp : Path.Proper p.tail) (hs : s.WellFormed) :
    Path.Proper (resolve p s).tail := by
  intro c hc
  rcases List.mem_append.mp hc with hc | hc
  · exact hs.proper c hc
  · exact hp c (List.mem_of_mem_drop hc)

/-- One import. -/
theorem normalizeName_text {p : Path} {s : Specifier} (hne : p ≠ []) (hplain : p.Plain)
    (hproper : Path.Proper p.tail) (hs : s.WellFormed) (hle : Climb.ups s.steps ≤ p.tail.length) :
    defaultNormalizeName p.text s.text = (resolve p s).text := by
  obtain ⟨file, dir, rfl⟩ := List.exists_cons_of_ne_nil hne
  have hrest : Path.Proper (dir.drop (Climb.ups s.steps)) :=
    fun c hc => hproper c (List.mem_of_mem_drop hc)
  have hclimb : climb dir s.steps = (dir.drop (Climb.ups s.steps), []) :=
    climb_of_proper s.steps dir hproper hle
  rw [text, defaultNormalizeName_eq, normalizeName_texts hplain hs.rest (.inl hs.steps), hclimb,
    hrest.kept]
  exact text_nested s.file s.dir

/-- **Imports of imports are paths**: along any chain of relative imports the name
of the module is the path that the specifiers lead to. -/
theorem import_chain : ∀ (specifiers : List Specifier) (p : Path), p ≠ [] → p.Plain →
    Path.Proper p.tail → (∀ s ∈ specifiers, s.WellFormed) → Stays p specifiers →
    (specifiers.map text).foldl defaultNormalizeName p.text =
      Path.text (specifiers.foldl resolve p)
  | [], _, _, _, _, _, _ => rfl
  | s :: rest, p, hne, hplain, hproper, hs, hstays => by
    obtain ⟨hfirst, hrest⟩ := List.forall_mem_cons.mp hs
    rw [List.map_cons, List.foldl_cons, List.foldl_cons,
      normalizeName_text hne hplain hproper hfirst hstays.1]
    exact import_chain rest (resolve p s) (by simp [resolve]) (plain_resolve hplain hfirst)
      (proper_resolve hproper hfirst) hrest hstays.2

/-- `./lib/a.js`, and from there `../b.js`. -/
theorem import_chain_two :
    [ascii "./lib/a.js", ascii "../b.js"].foldl defaultNormalizeName (ascii "main.js") =
      ascii "b.js" :=
  import_chain [⟨[.here], ascii "a.js", [ascii "lib"]⟩, ⟨[.up], ascii "b.js", []⟩]
    [ascii "main.js"] (by simp) (by decide) (by decide)
    (List.forall_mem_cons.mpr ⟨⟨by decide, by decide, by decide, by decide⟩,
      List.forall_mem_cons.mpr ⟨⟨by decide, by decide, by decide, by decide⟩,
        fun _ h => absurd h List.not_mem_nil⟩⟩)
    ⟨by decide, by decide, trivial⟩

end Specifier

end Ejr
