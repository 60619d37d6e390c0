import Mathlib.Data.List.Chain
import Ejr.Text

/-!
# The texts that survive

Which byte strings come back from the engine as they went in (`stable_iff`):
the encodings of sequences of code points without NUL in which no two
neighbours are the halves of one character. Lone halves are allowed, so these
are more than the well-formed UTF-8 strings, and overlong or cut off sequences
are not among them.

Read from right to left the proof is a computation, code point by code point
(`toCStringLen_units`). From left to right a text that comes back is the
encoding of a string, and a string is the units of its own code points
(`codePoints`), which are never two halves in a row.
-/

namespace Ejr

/-! ## Code points -/

/-- Not the two halves of one character. -/
def NotHalves (c d : Nat) : Prop := ¬(0xD800 ≤ c ∧ c < 0xDC00 ∧ 0xDC00 ≤ d ∧ d < 0xE000)

/-- Code points, none of them NUL, that are not taken for others when they stand
next to each other. -/
def CodePoints (cs : List Nat) : Prop :=
  (∀ c ∈ cs, 0 < c ∧ c < 0x110000) ∧ cs.IsChain NotHalves

/-- The code points `JS_ToCString` encodes. -/
def codePoints : JSString → List Nat
  | [] => []
  | c :: rest =>
    if isHiSurrogate c then
      match rest with
      | [] => [c.toNat]
      | c1 :: rest' =>
        if isLoSurrogate c1 then fromSurrogate c c1 :: codePoints rest'
        else c.toNat :: codePoints (c1 :: rest')
    else c.toNat :: codePoints rest

theorem codePoints_cons {c : UInt16} {rest : JSString} (h : isHiSurrogate c = false) :
    codePoints (c :: rest) = c.toNat :: codePoints rest := by
  rw [codePoints.eq_def]
  simp [h]

/-! ## From a string -/

theorem toCStringLen_eq (w : JSString) :
    toCStringLen w = (codePoints w).flatMap unicodeToUtf8 := by
  induction w using codePoints.induct with
  | case1 => rfl
  | case2 c hhi => simp [toCStringLen, codePoints, hhi]
  | case3 c hhi c1 rest hlo ih => simp [toCStringLen, codePoints, hhi, hlo, ih]
  | case4 c hhi c1 rest hlo ih =>
    rw [toCStringLen.eq_def, codePoints.eq_def]
    simp [hhi, hlo, ih]
  | case5 c rest hhi ih =>
    have hhi' : isHiSurrogate c = false := by simpa using hhi
    rw [toCStringLen_cons hhi', codePoints_cons hhi', ih, List.flatMap_cons]

/-- The first code point is no second half, unless the first unit is. -/
theorem head?_codePoints {c1 : UInt16} {rest : JSString} (hlo : isLoSurrogate c1 = false) :
    ∀ d ∈ (codePoints (c1 :: rest)).head?, ¬(0xDC00 ≤ d ∧ d < 0xE000) := by
  have hunit : ¬(0xDC00 ≤ c1.toNat ∧ c1.toNat < 0xE000) := by
    rw [← isLoSurrogate_iff, hlo]
    exact Bool.false_ne_true
  intro d hd
  rw [codePoints.eq_def] at hd
  dsimp only at hd
  split at hd
  next hhi =>
    split at hd
    next =>
      obtain rfl : c1.toNat = d := by simpa using hd
      exact hunit
    next c2 rest' =>
      split at hd
      next =>
        -- a character above the halves
        obtain rfl : fromSurrogate c1 c2 = d := by simpa using hd
        unfold fromSurrogate
        omega
      next =>
        obtain rfl : c1.toNat = d := by simpa using hd
        exact hunit
  next =>
    obtain rfl : c1.toNat = d := by simpa using hd
    exact hunit

theorem codePoints_spec (w : JSString) (hw : ∀ c ∈ w, c ≠ 0) : CodePoints (codePoints w) := by
  have hpos : ∀ c : UInt16, c ≠ 0 → 0 < c.toNat ∧ c.toNat < 0x110000 := by
    intro c hc
    have hlt := c.toNat_lt
    have hne : c.toNat ≠ 0 := fun h => hc (UInt16.toNat_inj.mp h)
    omega
  induction w using codePoints.induct with
  | case1 => exact ⟨by simp [codePoints], by simp [codePoints]⟩
  | case2 c hhi => simpa [codePoints, hhi, CodePoints] using hpos c (hw c (by simp))
  | case3 c hhi c1 rest hlo ih =>
    obtain ⟨hlt, -⟩ := charUnits_pair hhi hlo
    obtain ⟨hcs, hchain⟩ := ih fun d hd => hw d (by simp [hd])
    have hbig : 0x10000 ≤ fromSurrogate c c1 := by
      unfold fromSurrogate
      omega
    have heq : codePoints (c :: c1 :: rest) = fromSurrogate c c1 :: codePoints rest := by
      simp [codePoints, hhi, hlo]
    rw [heq]
    refine ⟨List.forall_mem_cons.mpr ⟨⟨by omega, hlt⟩, hcs⟩, List.isChain_cons.mpr ⟨?_, hchain⟩⟩
    exact fun d _ hd => absurd hd.2.1 (by omega)
  | case4 c hhi c1 rest hlo ih =>
    obtain ⟨hcs, hchain⟩ := ih fun d hd => hw d (List.mem_cons_of_mem _ hd)
    have heq : codePoints (c :: c1 :: rest) = c.toNat :: codePoints (c1 :: rest) := by
      rw [codePoints.eq_def]
      simp [hhi, hlo]
    rw [heq]
    refine ⟨List.forall_mem_cons.mpr ⟨hpos c (hw c (by simp)), hcs⟩,
      List.isChain_cons.mpr ⟨?_, hchain⟩⟩
    exact fun d hd hap => head?_codePoints (by simpa using hlo) d hd hap.2.2
  | case5 c rest hhi ih =>
    obtain ⟨hcs, hchain⟩ := ih fun d hd => hw d (List.mem_cons_of_mem _ hd)
    rw [codePoints_cons (by simpa using hhi)]
    refine ⟨List.forall_mem_cons.mpr ⟨hpos c (hw c (by simp)), hcs⟩,
      List.isChain_cons.mpr ⟨?_, hchain⟩⟩
    -- `c` is no first half
    exact fun d _ hap => absurd (isHiSurrogate_iff.mpr ⟨hap.1, hap.2.1⟩) hhi

/-! ## From code points -/

theorem newStringLen_codePoints : ∀ {cs : List Nat}, (∀ c ∈ cs, c < 0x110000) →
    newStringLen (cs.flatMap unicodeToUtf8) = cs.flatMap charUnits
  | [], _ => rfl
  | c :: cs, h => by
    rw [List.flatMap_cons, newStringLen_toUtf8 (h c (List.mem_cons_self ..)), List.flatMap_cons,
      newStringLen_codePoints fun d hd => h d (List.mem_cons_of_mem _ hd)]

/-- The first unit of code points that do not start with a second half. -/
theorem head?_units {c d : Nat} {cs : List Nat} (hap : NotHalves c d) (hhi : 0xD800 ≤ c ∧ c < 0xDC00)
    (hd : d < 0x110000) : ∀ u ∈ ((d :: cs).flatMap charUnits).head?, isLoSurrogate u = false := by
  intro u hu
  rw [← Bool.not_eq_true, isLoSurrogate_iff]
  rw [List.flatMap_cons] at hu
  unfold charUnits at hu
  split at hu
  next hsmall =>
    obtain rfl : UInt16.ofNat d = u := by simpa using hu
    rw [toNat_unit hsmall]
    exact fun h => hap ⟨hhi.1, hhi.2, h.1, h.2⟩
  next hbig =>
    obtain rfl : hiSurrogate d = u := by simpa using hu
    have := toNat_hiSurrogate (by omega) hd
    omega

/-- The units of code points are read as those code points. -/
theorem toCStringLen_units : ∀ {cs : List Nat}, (∀ c ∈ cs, c < 0x110000) → cs.IsChain NotHalves →
    toCStringLen (cs.flatMap charUnits) = cs.flatMap unicodeToUtf8
  | [], _, _ => rfl
  | c :: cs, hcs, hchain => by
    obtain ⟨hc, hrest⟩ := List.forall_mem_cons.mp hcs
    obtain ⟨hnext, htail⟩ := List.isChain_cons.mp hchain
    have ih := toCStringLen_units hrest htail
    rw [List.flatMap_cons, List.flatMap_cons, ← ih]
    by_cases hsmall : c < 0x10000
    · have hn := toNat_unit hsmall
      rw [charUnits, if_pos hsmall, List.cons_append, List.nil_append]
      by_cases hhi : isHiSurrogate (UInt16.ofNat c) = true
      · -- a first half: nothing, or no second half, comes after it
        have hrange := isHiSurrogate_iff.mp hhi
        rw [hn] at hrange
        have hhead : ∀ u ∈ (cs.flatMap charUnits).head?, isLoSurrogate u = false := by
          cases cs with
          | nil => simp
          | cons d cs => exact head?_units (hnext d rfl) hrange (hrest d (List.mem_cons_self ..))
        rw [toCStringLen_apart hhi hhead, hn]
      · rw [toCStringLen_cons (by simpa using hhi), hn]
    · have h1 := toNat_hiSurrogate (show 0x10000 ≤ c by omega) hc
      have h2 := toNat_loSurrogate c
      have hhi : isHiSurrogate (hiSurrogate c) = true := isHiSurrogate_iff.mpr (by omega)
      have hlo : isLoSurrogate (loSurrogate c) = true := isLoSurrogate_iff.mpr (by omega)
      have hfrom : fromSurrogate (hiSurrogate c) (loSurrogate c) = c := by
        unfold fromSurrogate
        omega
      rw [charUnits, if_neg hsmall, List.cons_append, List.cons_append, List.nil_append,
        toCStringLen_pair hhi hlo, hfrom]

theorem ne_zero_of_mem_charUnits {c : Nat} (hc : 0 < c ∧ c < 0x110000) :
    ∀ u ∈ charUnits c, u ≠ 0 := by
  intro u hu hzero
  have hnat : u.toNat = 0 := by rw [hzero]; rfl
  unfold charUnits at hu
  split at hu
  next hsmall =>
    rw [List.mem_singleton.mp hu, toNat_unit hsmall] at hnat
    omega
  next hbig =>
    have h1 := toNat_hiSurrogate (show 0x10000 ≤ c by omega) hc.2
    have h2 := toNat_loSurrogate c
    rcases List.mem_cons.mp hu with h | h
    · rw [h] at hnat
      omega
    · rw [List.mem_singleton.mp h] at hnat
      omega

theorem Stable.codePoints {s : Bytes} (hs : Stable s) :
    ∃ cs, CodePoints cs ∧ s = cs.flatMap unicodeToUtf8 := by
  refine ⟨_, codePoints_spec (newString s) fun c hc => ne_zero_of_mem_newString hc, ?_⟩
  rw [← toCStringLen_eq, ← throughEngine_eq]
  exact hs.symm

theorem CodePoints.stable {cs : List Nat} (h : CodePoints cs) :
    Stable (cs.flatMap unicodeToUtf8) := by
  obtain ⟨hcs, hchain⟩ := h
  rw [← toCStringLen_units (fun c hc => (hcs c hc).2) hchain]
  refine stable_toCStringLen (nulFree_toCStringLen fun u hu => ?_)
  obtain ⟨c, hc, huc⟩ := List.mem_flatMap.mp hu
  exact ne_zero_of_mem_charUnits (hcs c hc) u huc

/-- **The byte strings that come back from the engine as they went in.** -/
theorem stable_iff (s : Bytes) :
    Stable s ↔ ∃ cs, CodePoints cs ∧ s = cs.flatMap unicodeToUtf8 := by
  constructor
  · exact Stable.codePoints
  · intro h
    obtain ⟨cs, hcs, rfl⟩ := h
    exact hcs.stable

/-- A lone first half comes back. -/
example : Stable [0xED, 0xA0, 0x80] := by decide +kernel

/-- The two halves of one character, encoded one by one, do not. -/
example : ¬Stable [0xED, 0xA0, 0x80, 0xED, 0xB0, 0x80] := by decide +kernel

/-! ## Cutting at a slash -/

/-- A slash in the bytes is a slash among the code points. -/
theorem split_at_slash : ∀ {cs : List Nat} {a b : Bytes}, (∀ c ∈ cs, c < 0x110000) →
    cs.flatMap unicodeToUtf8 = a ++ 47 :: b →
    ∃ cs₁ cs₂, cs = cs₁ ++ 47 :: cs₂ ∧ a = cs₁.flatMap unicodeToUtf8 ∧
      b = cs₂.flatMap unicodeToUtf8
  | [], a, b, _, h => by simp at h
  | c :: cs, a, b, hcs, h => by
    obtain ⟨hc, hrest⟩ := List.forall_mem_cons.mp hcs
    rw [List.flatMap_cons] at h
    have hcount : (unicodeToUtf8 c).count 47 = if c = 47 then 1 else 0 :=
      count_unicodeToUtf8 (b := 47) (by decide) (by omega)
    by_cases hslash : c = 47
    · -- the slash, or the first byte of `a`
      subst hslash
      cases a with
      | nil => exact ⟨[], cs, rfl, rfl, (List.cons.inj h).2.symm⟩
      | cons x a =>
        obtain ⟨rfl, htail⟩ := List.cons.inj h
        obtain ⟨cs₁, cs₂, rfl, rfl, rfl⟩ := split_at_slash hrest htail
        exact ⟨47 :: cs₁, cs₂, rfl, rfl, rfl⟩
    · -- no byte of `c` is a slash
      have hnot : (47 : UInt8) ∉ unicodeToUtf8 c := by
        rw [← List.count_eq_zero, hcount, if_neg hslash]
      rcases List.append_eq_append_iff.mp h with ⟨a', rfl, htail⟩ | ⟨x, hx, htail⟩
      · obtain ⟨cs₁, cs₂, rfl, rfl, rfl⟩ := split_at_slash hrest htail
        exact ⟨c :: cs₁, cs₂, rfl, by rw [List.flatMap_cons], rfl⟩
      · cases x with
        | nil =>
          obtain ⟨cs₁, cs₂, rfl, hnil, rfl⟩ := split_at_slash (a := []) hrest htail.symm
          refine ⟨c :: cs₁, cs₂, rfl, ?_, rfl⟩
          rw [List.flatMap_cons, ← hnil, List.append_nil, hx, List.append_nil]
        | cons y x =>
          obtain ⟨rfl, -⟩ := List.cons.inj htail
          exact absurd (hx ▸ List.mem_append_right _ (List.mem_cons_self ..)) hnot

theorem Stable.split {a b : Bytes} (h : Stable (a ++ 47 :: b)) : Stable a ∧ Stable b := by
  obtain ⟨cs, ⟨hcs, hchain⟩, hs⟩ := h.codePoints
  obtain ⟨cs₁, cs₂, rfl, rfl, rfl⟩ := split_at_slash (fun c hc => (hcs c hc).2) hs.symm
  obtain ⟨hcs₁, hcs₂⟩ := List.forall_mem_append.mp hcs
  obtain ⟨hchain₁, hchain₂, -⟩ := List.isChain_append.mp hchain
  exact ⟨CodePoints.stable ⟨hcs₁, hchain₁⟩,
    CodePoints.stable ⟨(List.forall_mem_cons.mp hcs₂).2, (List.isChain_cons.mp hchain₂).2⟩⟩

theorem Stable.join {a b : Bytes} (ha : Stable a) (hb : Stable b) : Stable (a ++ 47 :: b) := by
  obtain ⟨cs₁, ⟨hcs₁, hchain₁⟩, rfl⟩ := ha.codePoints
  obtain ⟨cs₂, ⟨hcs₂, hchain₂⟩, rfl⟩ := hb.codePoints
  have heq : cs₁.flatMap unicodeToUtf8 ++ 47 :: cs₂.flatMap unicodeToUtf8 =
      (cs₁ ++ 47 :: cs₂).flatMap unicodeToUtf8 := by
    rw [List.flatMap_append, List.flatMap_cons]
    rfl
  rw [heq]
  -- a slash is neither half of a character
  refine CodePoints.stable ⟨List.forall_mem_append.mpr
    ⟨hcs₁, List.forall_mem_cons.mpr ⟨by decide, hcs₂⟩⟩, List.isChain_append.mpr ⟨hchain₁,
      List.isChain_cons.mpr ⟨fun d _ h => absurd h.1 (by decide), hchain₂⟩, ?_⟩⟩
  intro c _ d hd h
  obtain rfl : 47 = d := by simpa using hd
  exact absurd h.2.2.1 (by decide)

end Ejr
