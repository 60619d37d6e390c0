import Ejr.Utils
import Ejr.Text

/-!
# Module names

`register_module` (src/ejr_cpp_api.cpp) names the module it creates after the
instance and the module's own name, `hex(this) + "::" + module_name`, and
`module_init` takes that name apart again to find both. In between the name
passes through the engine: `JS_NewCModule` reads it as a C string,
`JS_AtomToCString` gives its UTF-8 (`throughEngine`).

The pointer always comes back (`decodeName_mangledName`). The module name comes
back up to its first `::`, so exactly the names without one that survive the
engine are decoded (`decodeName_iff`).
-/

namespace Ejr

open Lib

/-- `"::"`. -/
abbrev colons : Bytes := ascii "::"

/-- `mangled_with_ptr_name` of `register_module`. -/
def mangledName (p : UInt64) (moduleName : Bytes) : Bytes :=
  printPointer p.toNat ++ (colons ++ moduleName)

/-- How `module_init` reads a module's name: the pointer and the real module
name, `none` when there is no second token or `stoull` throws. -/
def decodeName (mod : Bytes) : Option (UInt64 × Bytes) :=
  match strSplit mod colons with
  | some (ptr :: realModName :: _) => (stoull ptr).map fun pval => (UInt64.ofNat pval, realModName)
  | _ => none

/-- Nothing in a printed pointer, nor its end, starts the delimiter. -/
theorem not_colons_prefix_printPointer (p : Nat) (t : Bytes) : ∀ j < (printPointer p).length,
    ¬colons <+: (printPointer p ++ (colons ++ t)).drop j := by
  intro j hj hpre
  rw [List.drop_append_of_le_length (by omega), List.drop_eq_getElem_cons hj] at hpre
  obtain ⟨u, hu⟩ := hpre
  have hhead : (printPointer p)[j] = 58 := (List.cons.inj hu).1.symm
  have hne := (printPointer_bytes (List.getElem_mem hj)).2.2
  rw [hhead] at hne
  exact absurd rfl hne

theorem throughEngine_mangledName (p : UInt64) (s : Bytes) :
    throughEngine (mangledName p s) = printPointer p.toNat ++ (colons ++ throughEngine s) := by
  have hptr : ∀ b ∈ printPointer p.toNat, b.toNat < 0x80 ∧ b ≠ 0 := by
    intro b hb
    have hbytes := printPointer_bytes hb
    refine ⟨hbytes.2.1, fun h0 => ?_⟩
    rw [h0] at hbytes
    exact absurd hbytes.1 (by decide)
  rw [mangledName, throughEngine_ascii_append hptr, throughEngine_ascii_append (by simp [ascii])]

/-- What the decoding makes of a mangled name. -/
theorem decodeName_mangledName (p : UInt64) (s : Bytes) :
    decodeName (throughEngine (mangledName p s)) =
      some (p, beforeFirst colons (throughEngine s)) := by
  have hlen : (throughEngine s).length <
      (printPointer p.toNat ++ (colons ++ throughEngine s)).length := by
    simp [ascii]
    omega
  obtain ⟨rest, hrest⟩ := splitFuel_total (d := colons) (by decide) hlen
  rw [decodeName, throughEngine_mangledName, strSplit_eq,
    splitFuel_append (not_colons_prefix_printPointer _ _), hrest, Option.map_some]
  simp [stoull_printPointer p.toNat_lt]

/-- The decoding gives back the name exactly when nothing of it is lost. -/
theorem beforeFirst_throughEngine_iff {s : Bytes} :
    beforeFirst colons (throughEngine s) = s ↔ ¬colons <:+: s ∧ Stable s := by
  constructor
  · intro h
    cases hf : firstOcc colons (throughEngine s) with
    | none =>
      have hst : throughEngine s = s := by simpa only [beforeFirst, hf] using h
      exact ⟨hst ▸ firstOcc_eq_none_iff.mp hf, hst⟩
    | some i =>
      -- the name would have gained a delimiter on its way through the engine
      have htake : (throughEngine s).take i = s := by simpa only [beforeFirst, hf] using h
      obtain ⟨-, ⟨u, hu⟩, -⟩ := firstOcc_eq_some_iff.mp hf
      have hsplit : throughEngine s = s ++ (colons ++ u) := by
        calc throughEngine s = (throughEngine s).take i ++ (throughEngine s).drop i :=
              (List.take_append_drop i _).symm
          _ = s ++ (colons ++ u) := by rw [htake, hu]
      have hcount := count_throughEngine_le (b := 58) (by decide) s
      rw [hsplit, List.count_append, List.count_append] at hcount
      have hcolons : colons.count 58 = 2 := by decide
      omega
  · intro h
    obtain ⟨hno, hst⟩ := h
    rw [hst]
    exact (beforeFirst_eq_self_iff (by decide)).mpr hno

/-- **Decoding finds the instance and the name** exactly for the names that
contain no `::` and survive the engine. -/
theorem decodeName_iff (p : UInt64) (s : Bytes) :
    decodeName (throughEngine (mangledName p s)) = some (p, s) ↔ ¬colons <:+: s ∧ Stable s := by
  rw [decodeName_mangledName, ← beforeFirst_throughEngine_iff]
  simp

/-- The module `a::b` is looked up as `a`. -/
theorem decodeName_colons_fails : ¬∀ (p : UInt64) (s : Bytes),
    decodeName (throughEngine (mangledName p s)) = some (p, s) := by
  intro h
  have hdec := h 0x1000 (ascii "a::b")
  rw [decodeName_mangledName] at hdec
  exact absurd hdec (by decide +kernel)

end Ejr
