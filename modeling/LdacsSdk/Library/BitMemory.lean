import Mathlib.Data.Nat.Bitwise
import Mathlib.Tactic

/-!
# Memory bit by bit

A byte memory is read as a sequence of bits, the most significant bit of each byte first. A word
is the number spelled by a stretch of bits at any offset; two memories that agree on the stretch
hold the same word there.
-/
namespace LdacsSdk.Library

/-- A byte memory. -/
abbrev Mem := ℕ → UInt8

/-- The bit at position `p`, counted from the most significant bit of byte 0. -/
def bitAt (mem : Mem) (p : ℕ) : Bool := (mem (p / 8)).toNat.testBit (7 - p % 8)

/-- The number spelled by the `w` bits from position `p` on. -/
def wordAt (mem : Mem) (p : ℕ) : ℕ → ℕ
  | 0 => 0
  | w + 1 => Nat.bit (bitAt mem (p + w)) (wordAt mem p w)

/-- The bits of `v` added to byte `a`. -/
def orByte (mem : Mem) (a v : ℕ) : Mem := Function.update mem a (mem a ||| UInt8.ofNat v)

/-- The memory has no bit set from position `p` on. -/
def ZeroFrom (mem : Mem) (p : ℕ) : Prop := ∀ q, p ≤ q → bitAt mem q = false

variable {mem mem' : Mem} {p q w n : ℕ}

theorem testBit_wordAt (k : ℕ) :
    (wordAt mem p w).testBit k = (decide (k < w) && bitAt mem (p + w - 1 - k)) := by
  induction w generalizing k with
  | zero => simp [wordAt]
  | succ w ih =>
    cases k with
    | zero => simp [wordAt]
    | succ k =>
      have hpos : p + (w + 1) - 1 - (k + 1) = p + w - 1 - k := by omega
      rw [wordAt, Nat.testBit_bit_succ, ih, hpos]
      simp

theorem wordAt_lt : wordAt mem p w < 2 ^ w := by
  induction w with
  | zero => simp [wordAt]
  | succ w ih =>
    rw [wordAt, Nat.bit_val, pow_succ]
    have : (bitAt mem (p + w)).toNat ≤ 1 := Bool.toNat_le _
    omega

/-- The bits of a word at the places of the word. -/
theorem bitAt_eq_testBit_wordAt (hp : p ≤ q) (hq : q < p + w) :
    bitAt mem q = (wordAt mem p w).testBit (p + w - 1 - q) := by
  rw [testBit_wordAt, show p + w - 1 - (p + w - 1 - q) = q by omega]
  simp [show p + w - 1 - q < w by omega]

/-- A word is its first bits followed by the rest. -/
theorem wordAt_add (a b : ℕ) :
    wordAt mem p (a + b) = wordAt mem p a <<< b ||| wordAt mem (p + a) b := by
  refine Nat.eq_of_testBit_eq fun k => ?_
  rw [Nat.testBit_or, Nat.testBit_shiftLeft, testBit_wordAt, testBit_wordAt, testBit_wordAt]
  rcases Nat.lt_or_ge k b with hk | hk
  · simp [hk, Nat.not_le.mpr hk, show k < a + b by omega, Nat.add_assoc]
  · by_cases hka : k < a + b
    · simp [hk, Nat.not_lt.mpr hk, hka, show k - b < a by omega,
        show p + a - 1 - (k - b) = p + (a + b) - 1 - k by omega]
    · simp [hk, Nat.not_lt.mpr hk, hka, show ¬k - b < a by omega]

/-- Dropping the last bits of a word leaves its first bits. -/
theorem wordAt_shiftRight (a b : ℕ) : wordAt mem p (a + b) >>> b = wordAt mem p a := by
  refine Nat.eq_of_testBit_eq fun k => ?_
  rw [Nat.testBit_shiftRight, testBit_wordAt, testBit_wordAt]
  by_cases hk : k < a
  · simp [hk, Nat.add_comm b k, show p + (a + b) - 1 - (k + b) = p + a - 1 - k by omega]
  · simp [hk, show ¬b + k < a + b by omega]

/-- Agreeing bits spell the same word. -/
theorem wordAt_congr (h : ∀ q, p ≤ q → q < p + w → bitAt mem' q = bitAt mem q) :
    wordAt mem' p w = wordAt mem p w := by
  refine Nat.eq_of_testBit_eq fun k => ?_
  rw [testBit_wordAt, testBit_wordAt]
  by_cases hk : k < w
  · rw [h _ (by omega) (by omega)]
  · simp [hk]

/-- The same bytes at another address have the same bits. -/
theorem bitAt_moved {a b : ℕ} (h : mem' (b + q / 8) = mem (a + q / 8)) :
    bitAt mem' (8 * b + q) = bitAt mem (8 * a + q) := by
  rw [bitAt, bitAt, show (8 * b + q) / 8 = b + q / 8 by omega,
    show (8 * a + q) / 8 = a + q / 8 by omega, show (8 * b + q) % 8 = q % 8 by omega,
    show (8 * a + q) % 8 = q % 8 by omega, h]

/-- The same bytes at another address spell the same word. -/
theorem wordAt_moved {a b : ℕ}
    (h : ∀ q, p ≤ q → q < p + w → mem' (b + q / 8) = mem (a + q / 8)) :
    wordAt mem' (8 * b + p) w = wordAt mem (8 * a + p) w := by
  refine Nat.eq_of_testBit_eq fun k => ?_
  rw [testBit_wordAt, testBit_wordAt]
  by_cases hk : k < w
  · have hbit := h (p + w - 1 - k) (by omega) (by omega)
    rw [show 8 * b + p + w - 1 - k = 8 * b + (p + w - 1 - k) by omega,
      show 8 * a + p + w - 1 - k = 8 * a + (p + w - 1 - k) by omega, bitAt_moved hbit]
  · simp [hk]

/-- A word is known from its bits. -/
theorem wordAt_eq (hn : n < 2 ^ w)
    (h : ∀ q, p ≤ q → q < p + w → bitAt mem q = n.testBit (p + w - 1 - q)) :
    wordAt mem p w = n := by
  refine Nat.eq_of_testBit_eq fun k => ?_
  rw [testBit_wordAt]
  by_cases hk : k < w
  · simp [hk, h _ (show p ≤ p + w - 1 - k by omega) (by omega),
      show p + w - 1 - (p + w - 1 - k) = k by omega]
  · have hlt : n < 2 ^ k := hn.trans_le (Nat.pow_le_pow_right (by decide) (by omega))
    simp [hk, Nat.testBit_lt_two_pow hlt]

theorem bitAt_orByte (a v : ℕ) :
    bitAt (orByte mem a v) p = (bitAt mem p || (decide (p / 8 = a) && v.testBit (7 - p % 8))) := by
  unfold bitAt orByte
  by_cases ha : p / 8 = a
  · subst ha
    simp only [Function.update_self, UInt8.toNat_or, UInt8.toNat_ofNat', Nat.testBit_or,
      Nat.testBit_mod_two_pow, decide_true, Bool.true_and]
    simp [show 7 - p % 8 < 8 by omega]
  · simp [ha]

/-- Storing a byte changes no bit outside it. -/
theorem bitAt_update_of_ne {a : ℕ} (b : UInt8) (h : p / 8 ≠ a) :
    bitAt (Function.update mem a b) p = bitAt mem p := by
  simp [bitAt, h]

/-- The bits of a whole byte spell the byte. -/
theorem wordAt_byte (a : ℕ) : wordAt mem (8 * a) 8 = (mem a).toNat := by
  refine wordAt_eq (mem a).toNat_lt fun q hq hq' => ?_
  rw [bitAt, show q / 8 = a by omega, show 8 * a + 8 - 1 - q = 7 - q % 8 by omega]

/-- A word of whole bytes, one byte further. -/
theorem wordAt_bytes_succ (a k : ℕ) :
    wordAt mem (8 * a) (8 * (k + 1)) =
      wordAt mem (8 * a) (8 * k) * 2 ^ 8 + (mem (a + k)).toNat := by
  rw [Nat.mul_succ, wordAt_add, ← Nat.mul_add, wordAt_byte, Nat.shiftLeft_eq,
    Nat.mul_comm _ (2 ^ 8)]
  exact (Nat.two_pow_add_eq_or_of_lt (mem (a + k)).toNat_lt _).symm

/-- The bits of a byte from its bit `r` on. -/
theorem wordAt_byte_tail (a : ℕ) {r : ℕ} (hr : r ≤ 8) :
    wordAt mem (8 * a + r) (8 - r) = (mem a).toNat &&& (0xFF >>> r) := by
  refine Nat.eq_of_testBit_eq fun k => ?_
  rw [testBit_wordAt, Nat.testBit_and, Nat.testBit_shiftRight, show 0xFF = 2 ^ 8 - 1 by rfl,
    Nat.testBit_two_pow_sub_one]
  by_cases hk : k < 8 - r
  · have hdiv : (8 * a + r + (8 - r) - 1 - k) / 8 = a := by omega
    have hmod : 7 - (8 * a + r + (8 - r) - 1 - k) % 8 = k := by omega
    simp [bitAt, hk, hdiv, hmod, show r + k < 8 by omega]
  · simp [hk, show ¬r + k < 8 by omega]

theorem zeroFrom_zero : ZeroFrom (fun _ => 0) p := fun q _ => by simp [bitAt]

/-- Bytes agree where their bits do. -/
theorem byte_eq_of_bits {a : ℕ}
    (h : ∀ q, 8 * a ≤ q → q < 8 * a + 8 → bitAt mem' q = bitAt mem q) : mem' a = mem a := by
  have hword : wordAt mem' (8 * a) 8 = wordAt mem (8 * a) 8 := wordAt_congr h
  rw [wordAt_byte, wordAt_byte] at hword
  exact UInt8.toNat_inj.mp hword

end LdacsSdk.Library
