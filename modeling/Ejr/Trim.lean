import Ejr.Bytes
import Ejr.Lib.Trim
import Ejr.Lib.While

/-!
# `str_trim`

`str_trim` (src/utils.cpp) with its `size_t` variables as machine words. `start`
goes up to the first byte that is no white space, `end` down to the last one,
both inclusive: for white space alone they cross, `end - start` is one less than
nothing, and adding 1 makes it the length 0 that `substr` is given.

One invariant links the loops (`Back`): either there is white space alone and
the two have crossed by one, or `start` stands on a byte that is none, at which
`end` stops before it comes to 0.

Mirroring notes:
- `isspace` depends on the locale; it is a parameter.
- Words wrap around as `size_t` does. The state is the list of what has been
  computed with them (`TrimEvent`), so that the result can say that none did.
- A byte is read where there is one; the model stops at `s[s.size()]`, too.
- The loops are given one turn more than there are bytes.
-/

namespace Ejr

open Lib

/-! ## The function -/

/-- A `std::string`: a `size_t` holds its length. -/
@[ext]
structure StdString where
  bytes : Bytes
  fits : bytes.length < UInt64.size

/-- `s.size()`. -/
def StdString.size (s : StdString) : UInt64 := UInt64.ofNat s.bytes.length

/-- What `str_trim` computes on its way: the index of a byte it reads, an index
plus 1, a word minus 1, and `end - start + 1`. -/
inductive TrimEvent where
  | read (i : UInt64)
  | incr (i : UInt64)
  | decr (i : UInt64)
  | length (start stop : UInt64)

/-- The index is inside the string; the number is the one computed without words. -/
def TrimEvent.Exact (s : StdString) : TrimEvent → Prop
  | .read i => i.toNat < s.bytes.length
  | .incr i => (i + 1).toNat = i.toNat + 1
  | .decr i => (i - 1).toNat + 1 = i.toNat
  | .length start stop => start.toNat + (stop - start + 1).toNat = stop.toNat + 1

/-- Why it may stop: out of turns, an index outside, `std::out_of_range`. -/
inductive TrimStop where
  | turns
  | badIndex
  | outOfRange

abbrev TrimM := EStateM TrimStop (List TrimEvent)

def emit (e : TrimEvent) : TrimM Unit := modify (· ++ [e])

/-- `i + 1`. -/
def increment (i : UInt64) : TrimM UInt64 := do
  emit (.incr i)
  pure (i + 1)

/-- `i - 1`. -/
def decrement (i : UInt64) : TrimM UInt64 := do
  emit (.decr i)
  pure (i - 1)

/-- `s[i]`. -/
def StdString.byteAt (s : StdString) (i : UInt64) : TrimM UInt8 := do
  emit (.read i)
  match s.bytes[i.toNat]? with
  | some b => pure b
  | none => throw .badIndex

/-- `s.substr(pos, len)`. -/
def StdString.substr (s : StdString) (pos len : UInt64) : TrimM StdString :=
  if pos ≤ s.size then
    pure ⟨(s.bytes.drop pos.toNat).take len.toNat, by
      refine Nat.lt_of_le_of_lt ?_ s.fits
      rw [List.length_take, List.length_drop]
      omega⟩
  else throw .outOfRange

/-- `inside && isspace(s[i])`. -/
def onSpace (isspace : UInt8 → Bool) (s : StdString) (inside : Bool) (i : UInt64) : TrimM Bool :=
  if inside then do
    let b ← s.byteAt i
    pure (isspace b)
  else pure false

/-- The first loop, from `start` on. -/
def skipFront (isspace : UInt8 → Bool) (s : StdString) (start stop : UInt64) : TrimM UInt64 :=
  whileLoop .turns (fun start => onSpace isspace s (start ≤ stop) start) increment
    (s.bytes.length + 1) start

/-- The second loop, from `stop` down. -/
def skipBack (isspace : UInt8 → Bool) (s : StdString) (start stop : UInt64) : TrimM UInt64 :=
  whileLoop .turns (fun stop => onSpace isspace s (stop ≥ start) stop) decrement
    (s.bytes.length + 1) stop

/-- `str_trim`. -/
def strTrim (isspace : UInt8 → Bool) (s : StdString) : TrimM StdString :=
  if s.bytes.isEmpty then pure s
  else do
    let stop ← decrement s.size
    let start ← skipFront isspace s 0 stop
    let stop ← skipBack isspace s start stop
    emit (.length start stop)
    s.substr start (stop - start + 1)

/-! ## Words -/

section

variable {i start stop : UInt64}

theorem toNat_succ (h : i.toNat + 1 < UInt64.size) : (i + 1).toNat = i.toNat + 1 := by
  rw [UInt64.toNat_add]
  exact Nat.mod_eq_of_lt h

theorem toNat_pred (h : 0 < i.toNat) : (i - 1).toNat + 1 = i.toNat := by
  have hle : (1 : UInt64) ≤ i := UInt64.le_iff_toNat_le.mpr h
  rw [UInt64.toNat_sub_of_le i 1 hle]
  exact Nat.sub_add_cancel h

/-- The length is right also where the bounds have crossed by one. -/
theorem toNat_length (h : start.toNat ≤ stop.toNat + 1) (hstop : stop.toNat + 1 < UInt64.size) :
    start.toNat + (stop - start + 1).toNat = stop.toNat + 1 := by
  have hone : (1 : UInt64).toNat = 1 := rfl
  rw [UInt64.size] at hstop
  rw [UInt64.toNat_add, UInt64.toNat_sub, hone]
  omega

theorem StdString.size_toNat (s : StdString) : s.size.toNat = s.bytes.length :=
  UInt64.toNat_ofNat_of_lt s.fits

end

/-! ## The loops -/

section

variable {isspace : UInt8 → Bool} {s : StdString} {start stop i : UInt64} {log : List TrimEvent}

/-- Everything so far is exact. -/
def AllExact (s : StdString) (log : List TrimEvent) : Prop := ∀ e ∈ log, e.Exact s

theorem allExact_nil (s : StdString) : AllExact s [] := fun _ he => nomatch he

theorem AllExact.snoc {e : TrimEvent} (hlog : AllExact s log) (he : e.Exact s) :
    AllExact s (log ++ [e]) := by
  intro f hf
  rcases List.mem_append.mp hf with hf | hf
  · exact hlog f hf
  · rwa [List.mem_singleton.mp hf]

/-- At `i` there is a byte, and `isspace` says `c` of it. -/
def SpaceAt (isspace : UInt8 → Bool) (s : StdString) (i : UInt64) (c : Bool) : Prop :=
  ∃ b, s.bytes[i.toNat]? = some b ∧ isspace b = c

/-- The condition of both loops. -/
theorem exact_onSpace {inside : Bool} (hi : inside = true → i.toNat < s.bytes.length)
    (hlog : AllExact s log) :
    wp (onSpace isspace s inside i) log (fun c t => AllExact s t ∧
      (inside = true → SpaceAt isspace s i c) ∧ (c = true → inside = true)) fun _ _ => False := by
  cases inside with
  | false => exact ⟨hlog, nofun, nofun⟩
  | true =>
    have hlt := hi rfl
    have hbyte := List.getElem?_eq_getElem hlt
    show wp (s.byteAt i >>= fun b => pure (isspace b)) log _ _
    rw [wp_bind, StdString.byteAt, hbyte]
    exact ⟨hlog.snoc hlt, fun _ => ⟨_, hbyte, rfl⟩, fun _ => rfl⟩

/-- The invariant of the first loop: white space so far. -/
structure Front (isspace : UInt8 → Bool) (s : StdString) (start : UInt64) : Prop where
  le : start.toNat ≤ s.bytes.length
  spaces : ∀ b ∈ s.bytes.take start.toNat, isspace b = true

/-- A turn of the first loop. -/
theorem Front.next (hfront : Front isspace s start) (hspace : SpaceAt isspace s start true) :
    (TrimEvent.incr start).Exact s ∧ Front isspace s (start + 1) := by
  obtain ⟨b, hb, hbspace⟩ := hspace
  obtain ⟨hlt, -⟩ := List.getElem?_eq_some_iff.mp hb
  have hsucc : (start + 1).toNat = start.toNat + 1 :=
    toNat_succ (Nat.lt_of_le_of_lt (Nat.succ_le_of_lt hlt) s.fits)
  refine ⟨hsucc, by rw [hsucc]; exact hlt, ?_⟩
  intro a ha
  rw [hsucc, List.take_add_one, hb] at ha
  rcases List.mem_append.mp ha with ha | ha
  · exact hfront.spaces a ha
  · obtain rfl : a = b := by simpa using ha
    exact hbspace

/-- The first loop ends at the end, or on a byte that is no white space. -/
theorem exact_skipFront (hstop : stop.toNat + 1 = s.bytes.length) (hlog : AllExact s log) :
    wp (skipFront isspace s 0 stop) log (fun start t => AllExact s t ∧ Front isspace s start ∧
      (start.toNat < s.bytes.length → SpaceAt isspace s start false)) fun _ _ => False := by
  refine wp_whileLoop (I := fun start t => AllExact s t ∧ Front isspace s start)
    (V := fun start => s.bytes.length - start.toNat) ?_ ?_ ⟨hlog, Nat.zero_le _, ?_⟩
  · intro start log hI
    obtain ⟨hlog, hfront⟩ := hI
    have hinside : decide (start ≤ stop) = true ↔ start.toNat < s.bytes.length := by
      rw [decide_eq_true_iff, UInt64.le_iff_toNat_le]
      omega
    refine wp_mono (exact_onSpace hinside.mp hlog) (fun c t ht => ?_) fun _ _ h => h
    obtain ⟨hlog', hspace, hc⟩ := ht
    cases c with
    | true =>
      obtain ⟨hexact, hnext⟩ := hfront.next (hspace (hc rfl))
      have hlt := hinside.mp (hc rfl)
      have hsucc : (start + 1).toNat = start.toNat + 1 := hexact
      exact ⟨⟨hlog'.snoc hexact, hnext⟩, by omega⟩
    | false => exact ⟨hlog', hfront, fun hlt => hspace (hinside.mpr hlt)⟩
  · exact Nat.lt_succ_of_le (Nat.sub_le ..)
  · intro b hb
    exact nomatch hb

/-- The invariant of the second loop: white space behind `stop`, and the loops
have met or crossed by one. -/
structure Back (isspace : UInt8 → Bool) (s : StdString) (start stop : UInt64) : Prop where
  lt : stop.toNat < s.bytes.length
  spaces : ∀ b ∈ s.bytes.drop (stop.toNat + 1), isspace b = true
  linked : start.toNat ≤ stop.toNat ∨
    start.toNat = s.bytes.length ∧ stop.toNat + 1 = s.bytes.length

/-- It holds when the first loop has ended. -/
theorem Front.back (hfront : Front isspace s start) (hstop : stop.toNat + 1 = s.bytes.length) :
    Back isspace s start stop := by
  have hle := hfront.le
  refine ⟨by omega, fun b hb => ?_, by omega⟩
  rw [hstop, List.drop_length] at hb
  exact absurd hb List.not_mem_nil

/-- They have crossed by one at most. -/
theorem Back.le_succ (hback : Back isspace s start stop) : start.toNat ≤ stop.toNat + 1 := by
  rcases hback.linked with hle | ⟨hstart, hstop⟩
  · exact Nat.le_succ_of_le hle
  · rw [hstart, hstop]

/-- A turn of the second loop: `start` is still before it. -/
theorem Back.next (hback : Back isspace s start stop)
    (hstart : start.toNat < s.bytes.length → SpaceAt isspace s start false)
    (hle : start.toNat ≤ stop.toNat) (hspace : SpaceAt isspace s stop true) :
    (TrimEvent.decr stop).Exact s ∧ Back isspace s start (stop - 1) := by
  obtain ⟨b, hb, hbspace⟩ := hspace
  have hne : start.toNat ≠ stop.toNat := by
    intro heq
    obtain ⟨a, ha, haspace⟩ := hstart (heq ▸ hback.lt)
    rw [heq, hb] at ha
    obtain rfl := Option.some.inj ha
    rw [hbspace] at haspace
    exact nomatch haspace
  have hpred : (stop - 1).toNat + 1 = stop.toNat := toNat_pred (by omega)
  have hlt := hback.lt
  refine ⟨hpred, by omega, ?_, .inl (by omega)⟩
  intro a ha
  rw [hpred, List.drop_eq_getElem_cons hlt] at ha
  rcases List.mem_cons.mp ha with rfl | ha
  · obtain ⟨_, hb⟩ := List.getElem?_eq_some_iff.mp hb
    rw [hb]
    exact hbspace
  · exact hback.spaces a ha

/-- The second loop ends where it has crossed the first, or on a byte that is no
white space. -/
theorem exact_skipBack (hback : Back isspace s start stop)
    (hstart : start.toNat < s.bytes.length → SpaceAt isspace s start false)
    (hlog : AllExact s log) :
    wp (skipBack isspace s start stop) log (fun stop t => AllExact s t ∧
      Back isspace s start stop ∧ (start.toNat ≤ stop.toNat → SpaceAt isspace s stop false))
      fun _ _ => False := by
  refine wp_whileLoop (I := fun stop t => AllExact s t ∧ Back isspace s start stop)
    (V := fun stop => stop.toNat) ?_ (Nat.lt_succ_of_lt hback.lt) ⟨hlog, hback⟩
  intro stop log hI
  obtain ⟨hlog, hback⟩ := hI
  have hinside : decide (stop ≥ start) = true ↔ start.toNat ≤ stop.toNat := by
    rw [decide_eq_true_iff]
    exact UInt64.le_iff_toNat_le
  refine wp_mono (exact_onSpace (fun _ => hback.lt) hlog) (fun c t ht => ?_) fun _ _ h => h
  obtain ⟨hlog', hspace, hc⟩ := ht
  cases c with
  | true =>
    obtain ⟨hexact, hnext⟩ := hback.next hstart (hinside.mp (hc rfl)) (hspace (hc rfl))
    have hpred : (stop - 1).toNat + 1 = stop.toNat := hexact
    exact ⟨⟨hlog'.snoc hexact, hnext⟩, by omega⟩
  | false => exact ⟨hlog', hback, fun hle => hspace (hinside.mpr hle)⟩

/-- What is between the loops is what is left. -/
theorem trimmed_between (hfront : Front isspace s start) (hback : Back isspace s start stop)
    (hstart : start.toNat < s.bytes.length → SpaceAt isspace s start false)
    (hstop : start.toNat ≤ stop.toNat → SpaceAt isspace s stop false) {n : Nat}
    (hn : start.toNat + n = stop.toNat + 1) :
    Trimmed isspace s.bytes ((s.bytes.drop start.toNat).take n) := by
  rcases hback.linked with hle | ⟨hend, -⟩
  · obtain ⟨a, ha, haspace⟩ := hstart (Nat.lt_of_le_of_lt hle hback.lt)
    obtain ⟨b, hb, hbspace⟩ := hstop hle
    obtain ⟨ha', rfl⟩ := List.getElem?_eq_some_iff.mp ha
    obtain ⟨hb', rfl⟩ := List.getElem?_eq_some_iff.mp hb
    refine ⟨s.bytes.take start.toNat, s.bytes.drop (stop.toNat + 1), ?_, ?_, .inl ?_⟩
    · have h : LongestPrefix isspace (s.bytes.take start.toNat ++
          s.bytes[start.toNat] :: s.bytes.drop (start.toNat + 1)) (s.bytes.take start.toNat) :=
        longestPrefix_stop hfront.spaces haspace
      rwa [← List.drop_eq_getElem_cons, List.take_append_drop] at h
    · have h : LongestSuffix isspace (s.bytes.take stop.toNat ++
          s.bytes[stop.toNat] :: s.bytes.drop (stop.toNat + 1)) (s.bytes.drop (stop.toNat + 1)) :=
        longestSuffix_stop hback.spaces hbspace
      rwa [← List.drop_eq_getElem_cons, List.take_append_drop] at h
    · rw [← hn, ← List.drop_drop, List.take_append_drop, List.take_append_drop]
  · -- white space alone
    have hall : ∀ b ∈ s.bytes, isspace b = true := by
      have h := hfront.spaces
      rwa [hend, List.take_length] at h
    refine ⟨s.bytes, s.bytes, longestPrefix_self hall, longestSuffix_self hall, .inr ⟨rfl, ?_⟩⟩
    rw [hend, List.drop_length, List.take_nil]

end

/-! ## The whole -/

/-- From front to back: both loops end, all they compute is exact, and what is
returned is what is left. -/
theorem trims_strTrim (isspace : UInt8 → Bool) (s : StdString) {log : List TrimEvent}
    (hlog : AllExact s log) : wp (strTrim isspace s) log
      (fun t log' => AllExact s log' ∧ Trimmed isspace s.bytes t.bytes) fun _ _ => False := by
  unfold strTrim
  by_cases hempty : s.bytes.isEmpty = true
  · rw [if_pos hempty]
    refine ⟨hlog, ?_⟩
    rw [List.isEmpty_iff.mp hempty]
    exact ⟨[], [], longestPrefix_self nofun, longestSuffix_self nofun, .inl rfl⟩
  · rw [if_neg hempty, wp_bind]
    have hpos : 0 < s.size.toNat := by
      rw [s.size_toNat]
      exact List.length_pos_iff.mpr fun h => hempty (List.isEmpty_iff.mpr h)
    have hdecr : (TrimEvent.decr s.size).Exact s := toNat_pred hpos
    have hlast : (s.size - 1).toNat + 1 = s.bytes.length := (toNat_pred hpos).trans s.size_toNat
    -- the first loop, with `end` on the last byte
    show wp (skipFront isspace s 0 (s.size - 1) >>= _) (log ++ [.decr s.size]) _ _
    rw [wp_bind]
    refine wp_mono (exact_skipFront hlast (hlog.snoc hdecr)) (fun start log ht => ?_) fun _ _ h => h
    obtain ⟨hlog, hfront, hstart⟩ := ht
    -- the second loop, down to where the first has ended
    rw [wp_bind]
    refine wp_mono (exact_skipBack (hfront.back hlast) hstart hlog) (fun stop log ht => ?_)
      fun _ _ h => h
    obtain ⟨hlog, hback, hstop⟩ := ht
    have hlength : (TrimEvent.length start stop).Exact s :=
      toNat_length hback.le_succ (Nat.lt_of_le_of_lt hback.lt s.fits)
    have hpos : start ≤ s.size := by
      rw [UInt64.le_iff_toNat_le, s.size_toNat]
      exact hfront.le
    show wp (s.substr start (stop - start + 1)) (log ++ [.length start stop]) _ _
    rw [StdString.substr, if_pos hpos]
    exact ⟨hlog.snoc hlength, trimmed_between hfront hback hstart hstop hlength⟩

/-- **`str_trim` is exact trimming**: it comes back for every string, with every
index it reads inside and none of its words wrapped around to another number;
the result is what is left without the white space at both ends, and trimmed
again it stays the same. -/
theorem strTrim_exact (isspace : UInt8 → Bool) (s : StdString) : ∃ t log,
    strTrim isspace s [] = .ok t log ∧ AllExact s log ∧ Trimmed isspace s.bytes t.bytes ∧
      ∃ log', strTrim isspace t [] = .ok t log' := by
  obtain ⟨t, log, hok, hlog, htrim⟩ := exists_ok_of_wp (trims_strTrim isspace s (allExact_nil s))
  obtain ⟨u, log', hok', -, htrim'⟩ := exists_ok_of_wp (trims_strTrim isspace t (allExact_nil t))
  obtain rfl : u = t := StdString.ext (htrim'.unique htrim.self)
  exact ⟨u, log, hok, hlog, htrim, log', hok'⟩

/-- White space alone: the bounds cross. -/
example : ((strTrim (· == 32) ⟨ascii "  ", by decide⟩).run' []).map StdString.bytes = some [] := by
  decide

end Ejr
