import Mathlib

/-!
# Wire — fixed-width integers as bytes

The big-endian and little-endian byte strings of a natural number, at a
width chosen by the caller, and the two readers that invert them. Nothing
here knows a message format: a codec picks the width and the order of each
of its integer fields and reads them back with `ofBE_beBytes_mod` and
`ofLE_leBytes`.

A number that does not fit is *truncated*, the way a narrowing cast
truncates: `ofBE (beBytes k n) = n % 256 ^ k` (`ofBE_beBytes_mod`).
-/

namespace Wire

/-- The `k` low bytes of `n`, least significant first. -/
def leBytes : (k n : Nat) → List UInt8
  | 0, _ => []
  | k + 1, n => UInt8.ofNat n :: leBytes k (n / 256)

/-- The number a little-endian byte string denotes. -/
def ofLE : List UInt8 → Nat
  | [] => 0
  | b :: bs => b.toNat + 256 * ofLE bs

/-- The `k` low bytes of `n`, most significant first. -/
def beBytes (k n : Nat) : List UInt8 := (leBytes k n).reverse

/-- The number a big-endian byte string denotes. -/
def ofBE (bs : List UInt8) : Nat := ofLE bs.reverse

@[simp] theorem length_leBytes (k n : Nat) : (leBytes k n).length = k := by
  induction k generalizing n with
  | zero => rfl
  | succ k ih => simp [leBytes, ih]

@[simp] theorem length_beBytes (k n : Nat) : (beBytes k n).length = k := by
  simp [beBytes]

/-- Reading back keeps exactly the bytes the width has room for. -/
theorem ofLE_leBytes_mod (k n : Nat) : ofLE (leBytes k n) = n % 256 ^ k := by
  induction k generalizing n with
  | zero => simp [leBytes, ofLE, Nat.mod_one]
  | succ k ih =>
    have hbyte : (UInt8.ofNat n).toNat = n % 256 := by simp
    rw [leBytes, ofLE, ih, hbyte, pow_succ', Nat.mod_mul]

theorem ofLE_leBytes {k n : Nat} (h : n < 256 ^ k) : ofLE (leBytes k n) = n := by
  rw [ofLE_leBytes_mod, Nat.mod_eq_of_lt h]

theorem ofBE_beBytes_mod (k n : Nat) : ofBE (beBytes k n) = n % 256 ^ k := by
  rw [ofBE, beBytes, List.reverse_reverse, ofLE_leBytes_mod]

theorem ofBE_singleton (b : UInt8) : ofBE [b] = b.toNat := by
  simp [ofBE, ofLE]

end Wire
