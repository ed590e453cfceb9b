import LdacsSdk.Library.BitMemory
import Mathlib.Data.Nat.Digits.Defs

/-!
# Byte strings as numbers

A string of bytes is a number, its lowest byte first; its bits are those of the bytes one after
the other, the least significant bit of each byte first. Bytes are loaded from a memory and stored
to it as strings.
-/
namespace LdacsSdk.Library

/-- The number that a string of bytes is, its lowest byte first. -/
def byteNumber (bytes : List UInt8) : ℕ := Nat.ofDigits 256 (bytes.map UInt8.toNat)

/-- The `n` bytes from an address on. -/
def loadBytes (mem : Mem) (a n : ℕ) : List UInt8 := (List.range n).map fun i => mem (a + i)

/-- The memory with a string of bytes put at an address. -/
def storeBytes (mem : Mem) (a : ℕ) (bytes : List UInt8) : Mem := fun x =>
  if a ≤ x ∧ x < a + bytes.length then bytes.getD (x - a) 0 else mem x

/-- Bit `i` of the bytes from an address on, the least significant bit of each byte first. -/
def bitFrom (mem : Mem) (a i : ℕ) : Bool := (mem (a + i / 8)).toNat.testBit (i % 8)

variable {mem : Mem} {bytes : List UInt8} {a n i x : ℕ}

@[simp] theorem length_loadBytes : (loadBytes mem a n).length = n := by simp [loadBytes]

theorem byteNumber_cons (b : UInt8) (bytes : List UInt8) :
    byteNumber (b :: bytes) = b.toNat + 256 * byteNumber bytes := rfl

theorem byteNumber_append_singleton (bytes : List UInt8) (b : UInt8) :
    byteNumber (bytes ++ [b]) = 256 ^ bytes.length * b.toNat + byteNumber bytes := by
  rw [byteNumber, List.map_append, Nat.ofDigits_append, List.length_map, List.map_singleton,
    Nat.ofDigits_singleton, Nat.add_comm, byteNumber]

theorem testBit_byteNumber (bytes : List UInt8) (i : ℕ) :
    (byteNumber bytes).testBit i = (bytes.getD (i / 8) 0).toNat.testBit (i % 8) := by
  induction bytes generalizing i with
  | nil => simp [byteNumber]
  | cons b bytes ih =>
    have hbyte : b.toNat < 2 ^ 8 := b.toNat_lt
    rw [byteNumber_cons, Nat.add_comm, Nat.testBit_two_pow_mul_add (i := 8) _ hbyte]
    split_ifs with hi
    · rw [Nat.div_eq_of_lt hi, Nat.mod_eq_of_lt hi, List.getD_cons_zero]
    · have hdiv : i / 8 = (i - 8) / 8 + 1 := by omega
      have hmod : (i - 8) % 8 = i % 8 := by omega
      rw [ih, hdiv, hmod, List.getD_cons_succ]

/-- The bits of the number that was loaded. -/
theorem testBit_loadBytes (mem : Mem) (a n i : ℕ) :
    (byteNumber (loadBytes mem a n)).testBit i = (decide (i < 8 * n) && bitFrom mem a i) := by
  rw [testBit_byteNumber]
  by_cases hi : i < 8 * n
  · have hin : i / 8 < n := by omega
    simp [loadBytes, bitFrom, hin, hi]
  · have hout : n ≤ i / 8 := by omega
    simp [loadBytes, hout, hi]

theorem storeBytes_of_outside (h : x < a ∨ a + bytes.length ≤ x) :
    storeBytes mem a bytes x = mem x := by
  have hout : ¬(a ≤ x ∧ x < a + bytes.length) := by omega
  rw [storeBytes, if_neg hout]

theorem loadBytes_storeBytes : loadBytes (storeBytes mem a bytes) a bytes.length = bytes := by
  apply List.ext_getElem
  · simp
  · intro i hi _
    have hlt : i < bytes.length := by simpa using hi
    simp [loadBytes, storeBytes, hlt]

end LdacsSdk.Library
