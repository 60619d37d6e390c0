import Mathlib.Tactic.Ring

/-!
# Little-endian numbers

A number as its bytes, the least significant first, and back. `natOfBytes`
undoes `bytesOfNat` on the numbers that fit, which is what a
`reinterpret_cast` between an integer type and bytes relies on; `pieces` cuts
a byte string into pieces of one size, as an array of such numbers lies in
memory.
-/

namespace Ejr.Lib

/-- The number whose bytes these are, the least significant first. -/
def natOfBytes : List UInt8 → Nat
  | [] => 0
  | b :: bs => b.toNat + 256 * natOfBytes bs

/-- The `n` low bytes of a number, the least significant first. -/
def bytesOfNat : Nat → Nat → List UInt8
  | 0, _ => []
  | n + 1, v => UInt8.ofNat v :: bytesOfNat n (v / 256)

@[simp] theorem length_bytesOfNat : ∀ n v : Nat, (bytesOfNat n v).length = n
  | 0, _ => rfl
  | n + 1, v => by simp [bytesOfNat, length_bytesOfNat n]

theorem natOfBytes_bytesOfNat : ∀ {n v : Nat}, v < 256 ^ n → natOfBytes (bytesOfNat n v) = v
  | 0, v, h => by
    have : v = 0 := by simpa using h
    rw [this]
    rfl
  | n + 1, v, h => by
    have hdiv : v / 256 < 256 ^ n := by
      rw [Nat.div_lt_iff_lt_mul (by decide)]
      calc v < 256 ^ (n + 1) := h
        _ = 256 ^ n * 256 := Nat.pow_succ ..
    simp only [bytesOfNat, natOfBytes, natOfBytes_bytesOfNat hdiv]
    rw [UInt8.toNat_ofNat']
    omega

/-- The first `count` pieces of `size` bytes. -/
def pieces (size : Nat) : Nat → List UInt8 → List (List UInt8)
  | 0, _ => []
  | count + 1, bs => bs.take size :: pieces size count (bs.drop size)

/-- Pieces of one size, laid out one after another, are found again. -/
theorem pieces_flatten {size : Nat} : ∀ (xs : List (List UInt8)) (rest : List UInt8),
    (∀ x ∈ xs, x.length = size) → pieces size xs.length (xs.flatten ++ rest) = xs
  | [], _, _ => rfl
  | x :: xs, rest, h => by
    have hx : x.length = size := h x (List.mem_cons_self ..)
    have hxs : ∀ y ∈ xs, y.length = size := fun y hy => h y (List.mem_cons_of_mem _ hy)
    simp only [List.length_cons, pieces, List.flatten_cons, List.append_assoc]
    rw [List.take_left' hx, List.drop_left' hx, pieces_flatten xs rest hxs]

theorem length_flatten_of_forall {size : Nat} : ∀ {xs : List (List UInt8)},
    (∀ x ∈ xs, x.length = size) → xs.flatten.length = xs.length * size
  | [], _ => by simp
  | x :: xs, h => by
    have hx : x.length = size := h x (List.mem_cons_self ..)
    have hxs : ∀ y ∈ xs, y.length = size := fun y hy => h y (List.mem_cons_of_mem _ hy)
    rw [List.flatten_cons, List.length_append, hx, length_flatten_of_forall hxs, List.length_cons]
    ring

end Ejr.Lib
