import Mathlib.Algebra.Group.Nat.Defs
import Ejr.Bytes

/-!
# JavaScript strings and their C strings

A JavaScript string is a list of UTF-16 code units. Text crosses the bridge
through two engine functions: `JS_NewStringLen` decodes UTF-8 into code units
(`newStringLen`), `JS_ToCStringLen2` encodes code units as UTF-8
(`toCStringLen`). Both are translated here, the malformed input included:
undecodable bytes become U+FFFD, unpaired surrogates are kept.

Mirroring notes:
- `unicode_from_utf8` works with shifts and masks; the fields it cuts out are
  disjoint, so `/`, `%` and `+` give the same numbers. Its check that enough
  bytes are left is the `[]` case of `utf8Tail` (both return -1).
- The ASCII and the 8-bit fast paths of both functions give what the general
  loop gives, and are not separate here.
- Every turn of the decoding loop consumes a byte, so the byte count is enough
  fuel (`decodeLoop_eq`).

`toCStringLen_newStringLen` is what callers rely on: well-formed UTF-8 comes
back unchanged. `Stable` names the strings that survive the whole passage
`std::string` → `c_str()` → engine → `std::string`.
-/

namespace Ejr

/-- A JavaScript string: UTF-16 code units. -/
abbrev JSString := List UInt16

/-! ## UTF-8 to code units -/

/-- `l` of `unicode_from_utf8`: how many bytes follow the first byte `c`. -/
def utf8TailLen (c : Nat) : Option Nat :=
  if 0xC0 ≤ c ∧ c ≤ 0xDF then some 1
  else if 0xE0 ≤ c ∧ c ≤ 0xEF then some 2
  else if 0xF0 ≤ c ∧ c ≤ 0xF7 then some 3
  else if 0xF8 ≤ c ∧ c ≤ 0xFB then some 4
  else if 0xFC ≤ c ∧ c ≤ 0xFD then some 5
  else none

/-- `utf8_min_code`: the least code a sequence of this length may hold. -/
def utf8MinCode : Nat → Nat
  | 1 => 0x80
  | 2 => 0x800
  | 3 => 0x10000
  | 4 => 0x00200000
  | _ => 0x04000000

/-- The loop of `unicode_from_utf8` over the `l` following bytes. -/
def utf8Tail : Nat → Nat → Bytes → Option (Nat × Bytes)
  | 0, c, p => some (c, p)
  | _ + 1, _, [] => none
  | l + 1, c, b :: p =>
    if b.toNat < 0x80 ∨ 0xC0 ≤ b.toNat then none
    else utf8Tail l (c * 64 + b.toNat % 64) p

/-- `unicode_from_utf8`: the code at the front and the bytes after it, or
`none` for -1. -/
def unicodeFromUtf8 : Bytes → Option (Nat × Bytes)
  | [] => none
  | b :: p =>
    if b.toNat < 0x80 then some (b.toNat, p)
    else
      match utf8TailLen b.toNat with
      | none => none
      | some l =>
        match utf8Tail l (b.toNat % 2 ^ (6 - l)) p with
        | none => none
        | some (c, q) => if c < utf8MinCode l then none else some (c, q)

/-- A continuation byte. -/
def isTailByte (b : UInt8) : Bool := 0x80 ≤ b.toNat && b.toNat < 0xC0

/-- Where `JS_NewStringLen` resumes after an undecodable sequence. -/
def skipInvalid (p : Bytes) : Bytes :=
  match p.dropWhile isTailByte with
  | [] => []
  | _ :: q => q.dropWhile isTailByte

/-- `get_hi_surrogate`. -/
def hiSurrogate (c : Nat) : UInt16 := UInt16.ofNat (c / 1024 - 64 + 0xD800)

/-- `get_lo_surrogate`. -/
def loSurrogate (c : Nat) : UInt16 := UInt16.ofNat (c % 1024 + 0xDC00)

/-- The loop of `JS_NewStringLen`; the first argument is fuel. -/
def decodeLoop : Nat → Bytes → JSString
  | 0, _ => []
  | _ + 1, [] => []
  | n + 1, b :: p =>
    match unicodeFromUtf8 (b :: p) with
    | some (c, q) =>
      if c < 0x10000 then UInt16.ofNat c :: decodeLoop n q
      else if c ≤ 0x10FFFF then hiSurrogate c :: loSurrogate c :: decodeLoop n q
      else 0xFFFD :: decodeLoop n (skipInvalid (b :: p))
    | none => 0xFFFD :: decodeLoop n (skipInvalid (b :: p))

/-- `JS_NewStringLen`. -/
def newStringLen (s : Bytes) : JSString := decodeLoop s.length s

/-- `JS_NewString`: the length is taken with `strlen`. -/
def newString (s : Bytes) : JSString := newStringLen (cstr s)

theorem utf8Tail_suffix : ∀ (l c : Nat) (p : Bytes) {c' : Nat} {q : Bytes},
    utf8Tail l c p = some (c', q) → q <:+ p
  | 0, c, p, c', q, h => by
    simp only [utf8Tail, Option.some.injEq, Prod.mk.injEq] at h
    exact h.2 ▸ List.suffix_refl p
  | l + 1, c, [], c', q, h => by simp [utf8Tail] at h
  | l + 1, c, b :: p, c', q, h => by
    unfold utf8Tail at h
    split at h
    next => exact absurd h (by simp)
    next => exact (utf8Tail_suffix l _ p h).trans (List.suffix_cons b p)

/-- What is left after a decoded code; a code below 0x80 is the byte itself. -/
theorem unicodeFromUtf8_spec {b : UInt8} {p q : Bytes} {c : Nat}
    (h : unicodeFromUtf8 (b :: p) = some (c, q)) : q <:+ p ∧ (c < 0x80 → c = b.toNat) := by
  simp only [unicodeFromUtf8] at h
  split at h
  next =>
    simp only [Option.some.injEq, Prod.mk.injEq] at h
    exact ⟨h.2 ▸ List.suffix_refl p, fun _ => h.1.symm⟩
  next =>
    split at h
    next => exact absurd h (by simp)
    next l _ =>
      split at h
      next => exact absurd h (by simp)
      next c' q' ht =>
        split at h
        next => exact absurd h (by simp)
        next hmin =>
          simp only [Option.some.injEq, Prod.mk.injEq] at h
          rw [← h.1, ← h.2]
          refine ⟨utf8Tail_suffix _ _ _ ht, fun hc => absurd hc ?_⟩
          have hcode : 0x80 ≤ utf8MinCode l := by
            unfold utf8MinCode
            split <;> decide
          omega

theorem unicodeFromUtf8_length {b : UInt8} {p q : Bytes} {c : Nat}
    (h : unicodeFromUtf8 (b :: p) = some (c, q)) : q.length ≤ p.length :=
  (unicodeFromUtf8_spec h).1.length_le

theorem skipInvalid_suffix {b : UInt8} {p : Bytes} : skipInvalid (b :: p) <:+ p := by
  have hdrop : ∀ q : Bytes, q.dropWhile isTailByte <:+ q := fun q => List.dropWhile_suffix _
  unfold skipInvalid
  cases hb : isTailByte b with
  | true =>
    rw [List.dropWhile_cons_of_pos hb]
    cases hd : p.dropWhile isTailByte with
    | nil => exact List.nil_suffix
    | cons a q =>
      have h1 : a :: q <:+ p := hd ▸ hdrop p
      exact ((hdrop q).trans (List.suffix_cons a q)).trans h1
  | false =>
    rw [List.dropWhile_cons_of_neg (by simp [hb])]
    exact hdrop p

theorem skipInvalid_length {b : UInt8} {p : Bytes} : (skipInvalid (b :: p)).length ≤ p.length :=
  skipInvalid_suffix.length_le

/-- Fuel beyond the number of bytes changes nothing. -/
theorem decodeLoop_eq : ∀ (n : Nat) (p : Bytes), p.length ≤ n → decodeLoop n p = newStringLen p := by
  have go : ∀ (n m : Nat) (p : Bytes), p.length ≤ n → p.length ≤ m →
      decodeLoop n p = decodeLoop m p := by
    intro n
    induction n with
    | zero =>
      intro m p hn _
      have hp : p = [] := List.length_eq_zero_iff.mp (by omega)
      subst hp
      cases m <;> rfl
    | succ n ih =>
      intro m p hn hm
      cases p with
      | nil => cases m <;> rfl
      | cons b p =>
        obtain ⟨m, rfl⟩ : ∃ k, m = k + 1 := ⟨m - 1, by simp only [List.length_cons] at hm; omega⟩
        simp only [List.length_cons] at hn hm
        have hskip := skipInvalid_length (b := b) (p := p)
        simp only [decodeLoop]
        cases hu : unicodeFromUtf8 (b :: p) with
        | none =>
          show _ :: _ = _ :: _
          rw [ih m _ (by omega) (by omega)]
        | some r =>
          -- a code takes at least one byte
          obtain ⟨c, q⟩ := r
          have hq := unicodeFromUtf8_length hu
          show (if _ then _ else _) = (if _ then _ else _)
          rw [ih m q (by omega) (by omega), ih m (skipInvalid (b :: p)) (by omega) (by omega)]
  intro n p h
  exact go n p.length p h (Nat.le_refl _)

/-- One turn of the decoding loop on a decodable front. -/
theorem newStringLen_of_decode {b : UInt8} {p q : Bytes} {c : Nat}
    (h : unicodeFromUtf8 (b :: p) = some (c, q)) (hc : c ≤ 0x10FFFF) :
    newStringLen (b :: p) =
      (if c < 0x10000 then [UInt16.ofNat c] else [hiSurrogate c, loSurrogate c]) ++ newStringLen q := by
  have hq := unicodeFromUtf8_length h
  show decodeLoop (p.length + 1) (b :: p) = _
  simp only [decodeLoop, h, if_pos hc]
  rw [decodeLoop_eq p.length q hq]
  split <;> rfl

/-! ## Code units to UTF-8 -/

/-- `is_hi_surrogate`. -/
def isHiSurrogate (c : UInt16) : Bool := c.toNat / 1024 == 0xD800 / 1024

/-- `is_lo_surrogate`. -/
def isLoSurrogate (c : UInt16) : Bool := c.toNat / 1024 == 0xDC00 / 1024

/-- `from_surrogate`. -/
def fromSurrogate (hi lo : UInt16) : Nat :=
  0x10000 + 0x400 * (hi.toNat - 0xD800) + (lo.toNat - 0xDC00)

theorem isHiSurrogate_iff {c : UInt16} :
    isHiSurrogate c = true ↔ 0xD800 ≤ c.toNat ∧ c.toNat < 0xDC00 := by
  rw [isHiSurrogate, beq_iff_eq]
  omega

theorem isLoSurrogate_iff {c : UInt16} :
    isLoSurrogate c = true ↔ 0xDC00 ≤ c.toNat ∧ c.toNat < 0xE000 := by
  rw [isLoSurrogate, beq_iff_eq]
  omega

/-- `unicode_to_utf8` on the codes a JavaScript string holds (below 0x200000). -/
def unicodeToUtf8 (c : Nat) : Bytes :=
  if c < 0x80 then [UInt8.ofNat c]
  else if c < 0x800 then [UInt8.ofNat (c / 64 + 0xC0), UInt8.ofNat (c % 64 + 0x80)]
  else if c < 0x10000 then
    [UInt8.ofNat (c / 4096 + 0xE0), UInt8.ofNat (c / 64 % 64 + 0x80), UInt8.ofNat (c % 64 + 0x80)]
  else
    [UInt8.ofNat (c / 262144 + 0xF0), UInt8.ofNat (c / 4096 % 64 + 0x80),
      UInt8.ofNat (c / 64 % 64 + 0x80), UInt8.ofNat (c % 64 + 0x80)]

/-- The bytes `JS_ToCStringLen2` writes, without the terminator. -/
def toCStringLen : JSString → Bytes
  | [] => []
  | c :: rest =>
    if isHiSurrogate c then
      match rest with
      | [] => unicodeToUtf8 c.toNat
      | c1 :: rest' =>
        if isLoSurrogate c1 then unicodeToUtf8 (fromSurrogate c c1) ++ toCStringLen rest'
        else unicodeToUtf8 c.toNat ++ toCStringLen (c1 :: rest')
    else unicodeToUtf8 c.toNat ++ toCStringLen rest

theorem toCStringLen_cons {c : UInt16} {rest : JSString} (h : isHiSurrogate c = false) :
    toCStringLen (c :: rest) = unicodeToUtf8 c.toNat ++ toCStringLen rest := by
  rw [toCStringLen.eq_def]
  simp [h]

theorem toCStringLen_pair {hi lo : UInt16} {rest : JSString} (h : isHiSurrogate hi = true)
    (h' : isLoSurrogate lo = true) :
    toCStringLen (hi :: lo :: rest) =
      unicodeToUtf8 (fromSurrogate hi lo) ++ toCStringLen rest := by
  rw [toCStringLen.eq_def]
  simp [h, h']

/-! ## Well-formed UTF-8 comes back -/

/-- Well-formed UTF-8: the encoding of some Unicode scalar values. -/
def ValidUtf8 (s : Bytes) : Prop := ∃ cs : List Char, s = cs.flatMap String.utf8EncodeChar

private theorem toNat_ofNat_lt {n : Nat} (h : n < 256) : (UInt8.ofNat n).toNat = n := by
  rw [UInt8.toNat_ofNat']
  exact Nat.mod_eq_of_lt h

theorem toNat_unit {n : Nat} (h : n < 0x10000) : (UInt16.ofNat n).toNat = n := by
  rw [UInt16.toNat_ofNat']
  exact Nat.mod_eq_of_lt h

theorem toNat_hiSurrogate {v : Nat} (h1 : 0x10000 ≤ v) (h2 : v < 0x110000) :
    (hiSurrogate v).toNat = v / 1024 - 64 + 0xD800 :=
  toNat_unit (by omega)

theorem toNat_loSurrogate (v : Nat) : (loSurrogate v).toNat = v % 1024 + 0xDC00 :=
  toNat_unit (by omega)

private theorem char_lt (c : Char) : c.val.toNat < 0x110000 := by
  rcases c.valid with h | ⟨_, h⟩
  · exact Nat.lt_trans h (by decide)
  · exact h

/-- The decoder reads back exactly one encoded code, surrogates included. -/
theorem unicodeFromUtf8_toUtf8 {v : Nat} (hv : v < 0x110000) (rest : Bytes) :
    unicodeFromUtf8 (unicodeToUtf8 v ++ rest) = some (v, rest) := by
  unfold unicodeToUtf8
  split
  next h1 =>
    -- one byte
    simp only [List.cons_append, List.nil_append, unicodeFromUtf8]
    rw [toNat_ofNat_lt (by omega), if_pos (by omega)]
  next h1 =>
    split
    next h2 =>
      -- two bytes: the first tells the length, the second has six bits
      simp only [List.cons_append, List.nil_append, unicodeFromUtf8]
      rw [toNat_ofNat_lt (by omega), if_neg (by omega)]
      rw [show utf8TailLen (v / 64 + 0xC0) = some 1 from by
        unfold utf8TailLen; rw [if_pos (by omega)]]
      simp only [utf8Tail]
      rw [toNat_ofNat_lt (by omega), if_neg (by omega)]
      simp only [utf8MinCode]
      rw [if_neg (by omega)]
      simp only [Option.some.injEq, Prod.mk.injEq, and_true]
      omega
    next h2 =>
      split
      next h3 =>
        -- three bytes, surrogates included
        simp only [List.cons_append, List.nil_append, unicodeFromUtf8]
        rw [toNat_ofNat_lt (by omega), if_neg (by omega)]
        rw [show utf8TailLen (v / 4096 + 0xE0) = some 2 from by
          unfold utf8TailLen; rw [if_neg (by omega), if_pos (by omega)]]
        simp only [utf8Tail]
        rw [toNat_ofNat_lt (by omega), toNat_ofNat_lt (by omega), if_neg (by omega),
          if_neg (by omega)]
        simp only [utf8MinCode]
        rw [if_neg (by omega)]
        simp only [Option.some.injEq, Prod.mk.injEq, and_true]
        omega
      next h3 =>
        -- four bytes
        simp only [List.cons_append, List.nil_append, unicodeFromUtf8]
        rw [toNat_ofNat_lt (by omega), if_neg (by omega)]
        rw [show utf8TailLen (v / 262144 + 0xF0) = some 3 from by
          unfold utf8TailLen; rw [if_neg (by omega), if_neg (by omega), if_pos (by omega)]]
        simp only [utf8Tail]
        rw [toNat_ofNat_lt (by omega), toNat_ofNat_lt (by omega), toNat_ofNat_lt (by omega),
          if_neg (by omega), if_neg (by omega), if_neg (by omega)]
        simp only [utf8MinCode]
        rw [if_neg (by omega)]
        simp only [Option.some.injEq, Prod.mk.injEq, and_true]
        omega

/-- On the codes of scalar values the engine's encoder is the standard one. -/
theorem unicodeToUtf8_char (c : Char) : unicodeToUtf8 c.val.toNat = String.utf8EncodeChar c := by
  have hc := char_lt c
  unfold unicodeToUtf8 String.utf8EncodeChar
  generalize c.val.toNat = v at hc ⊢
  dsimp only
  by_cases h1 : v < 0x80
  · rw [if_pos h1, if_pos (show v ≤ 0x7f by omega)]
  · rw [if_neg h1, if_neg (show ¬v ≤ 0x7f by omega)]
    by_cases h2 : v < 0x800
    · rw [if_pos h2, if_pos (show v ≤ 0x7ff by omega),
        Nat.mod_eq_of_lt (show v / 64 < 0x20 by omega)]
    · rw [if_neg h2, if_neg (show ¬v ≤ 0x7ff by omega)]
      by_cases h3 : v < 0x10000
      · rw [if_pos h3, if_pos (show v ≤ 0xffff by omega),
          Nat.mod_eq_of_lt (show v / 4096 < 0x10 by omega)]
      · rw [if_neg h3, if_neg (show ¬v ≤ 0xffff by omega),
          Nat.mod_eq_of_lt (show v / 262144 < 0x08 by omega)]

/-- The code units of one code. -/
def charUnits (v : Nat) : JSString :=
  if v < 0x10000 then [UInt16.ofNat v] else [hiSurrogate v, loSurrogate v]

theorem newStringLen_toUtf8 {v : Nat} (hv : v < 0x110000) (rest : Bytes) :
    newStringLen (unicodeToUtf8 v ++ rest) = charUnits v ++ newStringLen rest := by
  have hd := unicodeFromUtf8_toUtf8 hv rest
  cases he : unicodeToUtf8 v ++ rest with
  | nil => rw [he] at hd; exact absurd hd (by simp [unicodeFromUtf8])
  | cons b p =>
    rw [he] at hd
    exact newStringLen_of_decode hd (by omega)

theorem newStringLen_encode (c : Char) (rest : Bytes) :
    newStringLen (String.utf8EncodeChar c ++ rest) = charUnits c.val.toNat ++ newStringLen rest := by
  rw [← unicodeToUtf8_char]
  exact newStringLen_toUtf8 (char_lt c) rest

/-- Encoding the units of a scalar value gives its UTF-8, whatever follows: a
scalar value is not a surrogate, so its units are never paired with others. -/
theorem toCStringLen_charUnits (c : Char) (rest : JSString) :
    toCStringLen (charUnits c.val.toNat ++ rest) = String.utf8EncodeChar c ++ toCStringLen rest := by
  have hc := char_lt c
  rw [← unicodeToUtf8_char]
  have hvalid := c.valid
  unfold charUnits
  split
  next h =>
    have hn := toNat_unit h
    have hhi : isHiSurrogate (UInt16.ofNat c.val.toNat) = false := by
      rw [← Bool.not_eq_true, isHiSurrogate_iff, hn]
      -- a scalar value lies below or above the surrogates
      rcases hvalid with h' | ⟨h', _⟩
      · have : c.val.toNat < 0xD800 := h'
        omega
      · have : 0xDFFF < c.val.toNat := h'
        omega
    rw [List.cons_append, List.nil_append, toCStringLen_cons hhi, hn]
  next h =>
    have h1 := toNat_hiSurrogate (by omega) hc
    have h2 := toNat_loSurrogate c.val.toNat
    have hhi : isHiSurrogate (hiSurrogate c.val.toNat) = true :=
      isHiSurrogate_iff.mpr (by omega)
    have hlo : isLoSurrogate (loSurrogate c.val.toNat) = true :=
      isLoSurrogate_iff.mpr (by omega)
    have hfrom : fromSurrogate (hiSurrogate c.val.toNat) (loSurrogate c.val.toNat) = c.val.toNat := by
      unfold fromSurrogate
      rw [h1, h2]
      omega
    rw [List.cons_append, List.cons_append, List.nil_append, toCStringLen_pair hhi hlo, hfrom]

/-- **Text round trip**: `JS_ToCString` undoes `JS_NewStringLen` on well-formed
UTF-8. -/
theorem toCStringLen_newStringLen {s : Bytes} (h : ValidUtf8 s) :
    toCStringLen (newStringLen s) = s := by
  obtain ⟨cs, rfl⟩ := h
  induction cs with
  | nil => rfl
  | cons c cs ih =>
    rw [List.flatMap_cons, newStringLen_encode, toCStringLen_charUnits, ih]

theorem charUnits_unit (c : UInt16) : charUnits c.toNat = [c] := by
  rw [charUnits, if_pos c.toNat_lt, UInt16.ofNat_toNat]

theorem charUnits_pair {hi lo : UInt16} (hhi : isHiSurrogate hi = true)
    (hlo : isLoSurrogate lo = true) :
    fromSurrogate hi lo < 0x110000 ∧ charUnits (fromSurrogate hi lo) = [hi, lo] := by
  have h1 := isHiSurrogate_iff.mp hhi
  have h2 := isLoSurrogate_iff.mp hlo
  have hfrom : fromSurrogate hi lo =
      0x10000 + 0x400 * (hi.toNat - 0xD800) + (lo.toNat - 0xDC00) := rfl
  refine ⟨by omega, ?_⟩
  have hdiv : fromSurrogate hi lo / 1024 - 64 + 0xD800 = hi.toNat := by omega
  have hmod : fromSurrogate hi lo % 1024 + 0xDC00 = lo.toNat := by omega
  rw [charUnits, if_neg (by omega), hiSurrogate, loSurrogate, hdiv, hmod, UInt16.ofNat_toNat,
    UInt16.ofNat_toNat]

/-- **The other direction**: `JS_NewStringLen` undoes `JS_ToCString` on every
string, so no two strings have one text. -/
theorem newStringLen_toCStringLen (w : JSString) : newStringLen (toCStringLen w) = w := by
  have hunit : ∀ c : UInt16, c.toNat < 0x110000 := fun c => Nat.lt_trans c.toNat_lt (by decide)
  induction w using toCStringLen.induct with
  | case1 => rfl
  | case2 c hhi =>
    have h := newStringLen_toUtf8 (hunit c) []
    have hnil : newStringLen [] = [] := rfl
    rw [charUnits_unit, List.append_nil, hnil, List.append_nil] at h
    simpa [toCStringLen, hhi] using h
  | case3 c hhi c1 rest hlo ih =>
    obtain ⟨hlt, hpair⟩ := charUnits_pair hhi hlo
    rw [toCStringLen_pair hhi hlo, newStringLen_toUtf8 hlt, hpair, ih]
    rfl
  | case4 c hhi c1 rest hlo ih =>
    rw [toCStringLen.eq_def]
    simp only [hhi, if_true, hlo, Bool.false_eq_true, if_false]
    rw [newStringLen_toUtf8 (hunit c), charUnits_unit, ih]
    rfl
  | case5 c rest hhi ih =>
    rw [toCStringLen_cons (by simpa using hhi), newStringLen_toUtf8 (hunit c), charUnits_unit, ih]
    rfl

/-! ## Strings that survive the bridge -/

/-- What C++ reads back of `s` after `JS_NewString(s.c_str())`, `JS_ToCString`
and `std::string(const char *)`. -/
def throughEngine (s : Bytes) : Bytes := cstr (toCStringLen (newString s))

/-- `s` comes back from the engine as it was. -/
def Stable (s : Bytes) : Prop := throughEngine s = s

instance (s : Bytes) : Decidable (Stable s) := inferInstanceAs (Decidable (throughEngine s = s))

theorem stable_of_validUtf8 {s : Bytes} (hnul : NulFree s) (h : ValidUtf8 s) : Stable s := by
  unfold Stable throughEngine newString
  rw [cstr_of_nulFree hnul, toCStringLen_newStringLen h, cstr_of_nulFree hnul]

/-- An ASCII byte is decoded, and encoded again, independently of what follows. -/
theorem toCStringLen_newStringLen_ascii {b : UInt8} {p : Bytes} (hb : b.toNat < 0x80) :
    toCStringLen (newStringLen (b :: p)) = b :: toCStringLen (newStringLen p) := by
  have hd : unicodeFromUtf8 (b :: p) = some (b.toNat, p) := by
    simp only [unicodeFromUtf8, if_pos hb]
  rw [newStringLen_of_decode hd (by omega), if_pos (by omega)]
  have hn : (UInt16.ofNat b.toNat).toNat = b.toNat := by
    rw [UInt16.toNat_ofNat']
    exact Nat.mod_eq_of_lt (by omega)
  have hhi : isHiSurrogate (UInt16.ofNat b.toNat) = false := by
    unfold isHiSurrogate
    rw [hn, beq_eq_false_iff_ne]
    omega
  rw [List.cons_append, List.nil_append, toCStringLen_cons hhi, hn, unicodeToUtf8, if_pos hb]
  simp

/-- An ASCII, NUL-free front passes through unchanged and leaves the rest as it
would be alone. -/
theorem throughEngine_ascii_append {a s : Bytes} (ha : ∀ b ∈ a, b.toNat < 0x80 ∧ b ≠ 0) :
    throughEngine (a ++ s) = a ++ throughEngine s := by
  have hnul : NulFree a := fun b hb => (ha b hb).2
  have henc : ∀ t : Bytes, toCStringLen (newStringLen (a ++ t)) =
      a ++ toCStringLen (newStringLen t) := by
    clear hnul
    intro t
    induction a with
    | nil => rfl
    | cons b a ih =>
      rw [List.cons_append, toCStringLen_newStringLen_ascii (ha b (List.mem_cons_self ..)).1,
        ih (fun c hc => ha c (List.mem_cons_of_mem _ hc)), List.cons_append]
  unfold throughEngine newString
  rw [cstr_append_of_nulFree hnul, henc, cstr_append_of_nulFree hnul]

theorem stable_ascii_append {a s : Bytes} (ha : ∀ b ∈ a, b.toNat < 0x80 ∧ b ≠ 0) :
    Stable (a ++ s) ↔ Stable s := by
  unfold Stable
  rw [throughEngine_ascii_append ha]
  exact List.append_right_inj a

/-! ## ASCII bytes -/

section

variable {b : UInt8} (hb : b.toNat < 0x80)

include hb

/-- A code unit is an ASCII byte's when they are one number. -/
private theorem eq_unit_iff {u : UInt16} : u = UInt16.ofNat b.toNat ↔ u.toNat = b.toNat := by
  rw [← UInt16.toNat_inj, toNat_unit (by omega)]

/-- Other bytes than ASCII. -/
private theorem count_high {l : Bytes} (hl : ∀ x ∈ l, 0x80 ≤ x.toNat) : l.count b = 0 :=
  List.count_eq_zero.mpr fun hmem => absurd (hl b hmem) (Nat.not_le_of_lt hb)

theorem count_unicodeToUtf8 {c : Nat} (hc : c < 0x200000) :
    (unicodeToUtf8 c).count b = if c = b.toNat then 1 else 0 := by
  unfold unicodeToUtf8
  split
  next h =>
    rw [List.count_singleton]
    have hiff : UInt8.ofNat c = b ↔ c = b.toNat := by
      rw [← UInt8.toNat_inj, toNat_ofNat_lt (by omega)]
    simp only [beq_iff_eq, hiff]
  next h =>
    -- every byte of a longer sequence has its high bit set
    rw [if_neg (show c ≠ b.toNat by omega)]
    split
    next =>
      refine count_high hb ?_
      simp only [List.forall_mem_cons, List.not_mem_nil, false_implies, implies_true, and_true]
      rw [toNat_ofNat_lt (by omega), toNat_ofNat_lt (by omega)]
      omega
    next =>
      split
      next =>
        refine count_high hb ?_
        simp only [List.forall_mem_cons, List.not_mem_nil, false_implies, implies_true, and_true]
        rw [toNat_ofNat_lt (by omega), toNat_ofNat_lt (by omega), toNat_ofNat_lt (by omega)]
        omega
      next =>
        refine count_high hb ?_
        simp only [List.forall_mem_cons, List.not_mem_nil, false_implies, implies_true, and_true]
        rw [toNat_ofNat_lt (by omega), toNat_ofNat_lt (by omega), toNat_ofNat_lt (by omega),
          toNat_ofNat_lt (by omega)]
        omega

/-- A unit that is another number does not count. -/
private theorem count_cons_unit {u : UInt16} {w : JSString} (hu : u.toNat ≠ b.toNat) :
    (u :: w).count (UInt16.ofNat b.toNat) = w.count (UInt16.ofNat b.toNat) :=
  List.count_cons_of_ne fun h => hu ((eq_unit_iff hb).mp h)

private theorem count_newStringLen : ∀ (n : Nat) (p : Bytes),
    (decodeLoop n p).count (UInt16.ofNat b.toNat) ≤ p.count b
  | 0, p => by simp [decodeLoop]
  | n + 1, [] => by simp [decodeLoop]
  | n + 1, a :: p => by
    have hcons : p.count b ≤ (a :: p).count b := List.count_le_count_cons
    have hinvalid : (0xFFFD :: decodeLoop n (skipInvalid (a :: p))).count (UInt16.ofNat b.toNat) ≤
        (a :: p).count b := by
      have hle := count_newStringLen n (skipInvalid (a :: p))
      have hsub := (@skipInvalid_suffix a p).sublist.count_le b
      rw [count_cons_unit hb (show (0xFFFD : UInt16).toNat ≠ b.toNat by
        rw [show (0xFFFD : UInt16).toNat = 0xFFFD from rfl]
        omega)]
      omega
    simp only [decodeLoop]
    split
    next c q hd =>
      obtain ⟨hsuf, hcode⟩ := unicodeFromUtf8_spec hd
      have hrest := count_newStringLen n q
      have hsub := hsuf.sublist.count_le b
      split
      next hc =>
        by_cases hcb : c = b.toNat
        · -- the code is the byte it was read from
          have hab : a = b := by rw [← UInt8.toNat_inj, ← hcode (by omega), hcb]
          rw [hab, hcb, List.count_cons_self, List.count_cons_self]
          omega
        · rw [count_cons_unit hb (by rwa [toNat_unit hc])]
          omega
      next hc =>
        split
        next hc2 =>
          rw [count_cons_unit hb (by rw [toNat_hiSurrogate (by omega) (by omega)]; omega),
            count_cons_unit hb (by rw [toNat_loSurrogate]; omega)]
          omega
        next => exact hinvalid
    next => exact hinvalid

private theorem count_toCStringLen (w : JSString) :
    (toCStringLen w).count b = w.count (UInt16.ofNat b.toNat) := by
  have hunit : ∀ c : UInt16, (unicodeToUtf8 c.toNat).count b =
      if c == UInt16.ofNat b.toNat then 1 else 0 := by
    intro c
    have hc := c.toNat_lt
    rw [count_unicodeToUtf8 hb (by omega)]
    simp only [beq_iff_eq, eq_unit_iff hb]
  induction w using toCStringLen.induct with
  | case1 => rfl
  | case2 c hhi => simp [toCStringLen, hhi, hunit, List.count_cons]
  | case3 c hhi c1 rest hlo ih =>
    -- two surrogates, and a code far above ASCII
    have h1 := isHiSurrogate_iff.mp hhi
    have h2 := isLoSurrogate_iff.mp hlo
    have hfrom : fromSurrogate c c1 < 0x200000 ∧ 0x10000 ≤ fromSurrogate c c1 := by
      unfold fromSurrogate
      omega
    rw [toCStringLen_pair hhi hlo, List.count_append, count_unicodeToUtf8 hb hfrom.1,
      if_neg (by omega), ih, count_cons_unit hb (by omega), count_cons_unit hb (by omega),
      Nat.zero_add]
  | case4 c hhi c1 rest hlo ih =>
    rw [toCStringLen.eq_def]
    simp only [hhi, if_true, hlo, Bool.false_eq_true, if_false]
    rw [List.count_append, hunit, ih, @List.count_cons _ _ (UInt16.ofNat b.toNat) c]
    exact Nat.add_comm _ _
  | case5 c rest hhi ih =>
    rw [toCStringLen_cons (by simpa using hhi), List.count_append, hunit, ih, List.count_cons]
    exact Nat.add_comm _ _

end

/-- A string without NUL gives a C string without NUL. -/
theorem nulFree_toCStringLen {w : JSString} (h : ∀ c ∈ w, c ≠ 0) : NulFree (toCStringLen w) := by
  intro b hb hzero
  have hcount := @count_toCStringLen 0 (by decide) w
  rw [hzero] at hb
  have hpos := List.count_pos_iff.mpr hb
  rw [hcount] at hpos
  exact h 0 (List.count_pos_iff.mp hpos) rfl

/-- No NUL comes out of `JS_NewString`. -/
theorem ne_zero_of_mem_newString {s : Bytes} {c : UInt16} (hc : c ∈ newString s) : c ≠ 0 := by
  intro hzero
  rw [hzero] at hc
  have hle : (newString s).count 0 ≤ (cstr s).count 0 :=
    @count_newStringLen 0 (by decide) (cstr s).length (cstr s)
  have hnone : (cstr s).count 0 = 0 := List.count_eq_zero.mpr fun h => nulFree_cstr s 0 h rfl
  have hpos := List.count_pos_iff.mpr hc
  omega

/-- The text is the encoding of the string, all of it. -/
theorem throughEngine_eq (s : Bytes) : throughEngine s = toCStringLen (newString s) :=
  cstr_of_nulFree (nulFree_toCStringLen fun _ hc => ne_zero_of_mem_newString hc)

/-- A first half that is not followed by a second one stands for itself. -/
theorem toCStringLen_apart {c : UInt16} {rest : JSString} (hhi : isHiSurrogate c = true)
    (hrest : ∀ u ∈ rest.head?, isLoSurrogate u = false) :
    toCStringLen (c :: rest) = unicodeToUtf8 c.toNat ++ toCStringLen rest := by
  cases rest with
  | nil => simp [toCStringLen, hhi]
  | cons u us =>
    have hlo : isLoSurrogate u = false := hrest u rfl
    rw [toCStringLen.eq_def]
    simp [hhi, hlo]

/-- The bytes before the first NUL encode the units before the first NUL. -/
theorem cstr_toCStringLen (w : JSString) :
    cstr (toCStringLen w) = toCStringLen (w.takeWhile (· != 0)) := by
  have hfront : ∀ {c : Nat} {t : Bytes}, c ≠ 0 → c < 0x200000 →
      cstr (unicodeToUtf8 c ++ t) = unicodeToUtf8 c ++ cstr t := by
    intro c t hc hlt
    refine cstr_append_of_nulFree fun b hb hzero => ?_
    have hcount := @count_unicodeToUtf8 0 (by decide) c hlt
    rw [if_neg (show c ≠ (0 : UInt8).toNat from hc)] at hcount
    exact List.count_eq_zero.mp hcount (hzero ▸ hb)
  have hunit : ∀ {c : UInt16}, c ≠ 0 → c.toNat ≠ 0 ∧ c.toNat < 0x200000 := by
    intro c hc
    have hlt := c.toNat_lt
    exact ⟨fun h => hc (UInt16.toNat_inj.mp h), by omega⟩
  have hhigh : ∀ {c : UInt16}, isHiSurrogate c = true → c ≠ 0 := by
    intro c hc hzero
    rw [hzero] at hc
    exact absurd hc (by decide)
  induction w using toCStringLen.induct with
  | case1 => rfl
  | case2 c hhi =>
    have hc := hhigh hhi
    have h := @hfront c.toNat [] (hunit hc).1 (hunit hc).2
    rw [List.append_nil, show cstr [] = [] from rfl, List.append_nil] at h
    simpa [toCStringLen, hhi, hc] using h
  | case3 c hhi c1 rest hlo ih =>
    have hc := hhigh hhi
    have hc1 : c1 ≠ 0 := by
      intro hzero
      rw [hzero] at hlo
      exact absurd hlo (by decide)
    obtain ⟨hlt, -⟩ := charUnits_pair hhi hlo
    have hpos : fromSurrogate c c1 ≠ 0 := by
      unfold fromSurrogate
      omega
    rw [toCStringLen_pair hhi hlo, hfront hpos (by omega), ih]
    simp [hc, hc1, toCStringLen_pair hhi hlo]
  | case4 c hhi c1 rest hlo ih =>
    have hc := hhigh hhi
    have hlo' : isLoSurrogate c1 = false := by simpa using hlo
    -- what is left still does not start with a second half
    have hhead : ∀ u ∈ ((c1 :: rest).takeWhile (· != 0)).head?, isLoSurrogate u = false := by
      intro u hu
      rw [List.takeWhile_cons] at hu
      split at hu
      next =>
        obtain rfl : c1 = u := by simpa using hu
        exact hlo'
      next => exact absurd hu (by simp)
    have htake : (c :: c1 :: rest).takeWhile (· != 0) = c :: (c1 :: rest).takeWhile (· != 0) := by
      rw [List.takeWhile_cons, if_pos (by simpa using hc)]
    rw [toCStringLen_apart hhi (by simpa using hlo'), hfront (hunit hc).1 (hunit hc).2, ih, htake,
      toCStringLen_apart hhi hhead]
  | case5 c rest hhi ih =>
    have hhi' : isHiSurrogate c = false := by simpa using hhi
    rw [toCStringLen_cons hhi']
    by_cases hc : c = 0
    · subst hc
      simp [cstr, toCStringLen, unicodeToUtf8]
    · rw [hfront (hunit hc).1 (hunit hc).2, ih, List.takeWhile_cons, if_pos (by simpa using hc),
        toCStringLen_cons hhi']

/-- A text without NUL that some string is encoded by comes back. -/
theorem stable_toCStringLen {w : JSString} (hw : NulFree (toCStringLen w)) :
    Stable (toCStringLen w) := by
  unfold Stable
  rw [throughEngine_eq, newString, cstr_of_nulFree hw, newStringLen_toCStringLen]

/-- What C reads of any string comes back. -/
theorem stable_cstr_toCStringLen (w : JSString) : Stable (cstr (toCStringLen w)) := by
  have hnul := nulFree_cstr (toCStringLen w)
  rw [cstr_toCStringLen] at hnul ⊢
  exact stable_toCStringLen hnul

/-- **What has been through the engine once stays as it is.** -/
theorem stable_throughEngine (s : Bytes) : Stable (throughEngine s) :=
  stable_cstr_toCStringLen _

/-- The passage invents no ASCII byte. -/
theorem count_throughEngine_le {b : UInt8} (hb : b.toNat < 0x80) (s : Bytes) :
    (throughEngine s).count b ≤ s.count b := by
  have hcstr : ∀ t : Bytes, (cstr t).count b ≤ t.count b :=
    fun t => (List.takeWhile_sublist _).count_le b
  calc (throughEngine s).count b ≤ (toCStringLen (newString s)).count b := hcstr _
    _ = (newString s).count (UInt16.ofNat b.toNat) := count_toCStringLen hb _
    _ ≤ (cstr s).count b := count_newStringLen hb _ _
    _ ≤ s.count b := hcstr s

/-- Plain ASCII survives. -/
theorem stable_of_ascii {a : Bytes} (ha : ∀ b ∈ a, b.toNat < 0x80 ∧ b ≠ 0) : Stable a := by
  have h := (stable_ascii_append (s := []) ha).mpr rfl
  rwa [List.append_nil] at h

end Ejr
