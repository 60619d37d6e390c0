/-!
# Byte strings

`std::string` is a list of bytes, any bytes. A `const char *` is modelled by
the bytes it points at: `cstr` is what `strlen`, `strcpy` and the `std::string`
constructor see of them, the bytes before the first NUL.
-/

namespace Ejr

/-- `std::string`, and the memory a `const char *` points at. -/
abbrev Bytes := List UInt8

/-- A string literal of the source (all of them are ASCII). -/
def ascii (s : String) : Bytes := s.toList.map fun c => c.toNat.toUInt8

/-- The C string that starts here: the bytes before the first NUL. -/
def cstr (s : Bytes) : Bytes := s.takeWhile (· != 0)

/-- No byte is NUL. -/
def NulFree (s : Bytes) : Prop := ∀ b ∈ s, b ≠ 0

instance (s : Bytes) : Decidable (NulFree s) := List.decidableBAll (· ≠ 0) s

theorem nulFree_nil : NulFree [] := fun _ hb => nomatch hb

theorem NulFree.append {s t : Bytes} (hs : NulFree s) (ht : NulFree t) : NulFree (s ++ t) := by
  intro b hb
  rcases List.mem_append.mp hb with h | h
  · exact hs b h
  · exact ht b h

theorem NulFree.cons {a : UInt8} {s : Bytes} (ha : a ≠ 0) (hs : NulFree s) : NulFree (a :: s) :=
  NulFree.append (s := [a]) (fun _ hb => List.mem_singleton.mp hb ▸ ha) hs

theorem cstr_append_of_nulFree {s t : Bytes} (h : NulFree s) : cstr (s ++ t) = s ++ cstr t := by
  unfold cstr
  rw [List.takeWhile_append_of_pos]
  intro b hb
  simpa using h b hb

/-- A NUL-free string is all of its C string. -/
theorem cstr_of_nulFree {s : Bytes} (h : NulFree s) : cstr s = s := by
  have := cstr_append_of_nulFree (t := []) h
  simpa [cstr] using this

theorem nulFree_cstr (s : Bytes) : NulFree (cstr s) := by
  intro b hb
  have hall : (s.takeWhile (· != 0)).all (· != 0) = true := List.all_takeWhile
  simpa using List.all_eq_true.mp hall b hb

/-- Only a NUL-free string survives a passage through `const char *`. -/
theorem cstr_eq_self {s : Bytes} : cstr s = s ↔ NulFree s :=
  ⟨fun h => h ▸ nulFree_cstr s, cstr_of_nulFree⟩

/-- The terminator `c_str()` appends ends the C string. -/
theorem cstr_append_nul : ∀ s : Bytes, cstr (s ++ [0]) = cstr s
  | [] => rfl
  | b :: s => by
    have ih := cstr_append_nul s
    simp only [cstr, List.cons_append, List.takeWhile_cons] at ih ⊢
    rw [ih]

/-- The C string of a C string's copy. -/
theorem cstr_copy (s : Bytes) : cstr (cstr s ++ [0]) = cstr s := by
  rw [cstr_append_nul, cstr_of_nulFree (nulFree_cstr s)]

end Ejr
