import Mathlib.Tactic

/-!
# Return codes, limits and fixed-width conversions

The error enumeration and the size limits every component shares, and the conversions C makes
between a mathematical integer and its storage: 8 and 64 bits unsigned, 32 and 64 bits signed.
-/
namespace LdacsSdk

/-- `l_err`, in the order of its declaration. -/
inductive LErr where
  | ldOk | ldErrWrongPara | ldErrInternal | ldErrWait | ldErrInvalid | ldErrInvalidMac
  | ldErrLock | ldErrNomem | ldErrThread | ldErrQueue | ldErrNull | ldErrKey
  | ldErrInvalStateReached | ldErrStateLoop | ldErrNoStateChange | ldFinalStateReachd
  | ldErrWrongState | ldErrWrongPath | ldErrWrongReq | ldErrWrongQuery | ldErrWrongData
  | ldErrWrongUri | ldNoReq | ldErrOpenSql | ldErrFailExecSql
  deriving DecidableEq, Repr

/-- `MAX_INPUT_BUFFER_SIZE`. -/
def maxInputBufferSize : ℕ := 8192

/-- `BITS_PER_BYTE`. -/
def bitsPerByte : ℕ := 8

/-- The characters of a string in the source. -/
def chars (s : String) : List UInt8 := s.toList.map fun c => UInt8.ofNat c.toNat

/-- Storage in a `uint8_t`. -/
def u8 (n : ℕ) : ℕ := n % 2 ^ 8

/-- Storage in a `size_t` or a `uint64_t`, from any integer. -/
def u64 (z : ℤ) : ℕ := (z % 2 ^ 64).toNat

/-- Storage in an `int`, from any integer. -/
def i32 (z : ℤ) : ℤ := Int.bmod z (2 ^ 32)

/-- Storage in an `int64_t`, from any integer. -/
def i64 (z : ℤ) : ℤ := Int.bmod z (2 ^ 64)

theorem u8_of_lt {n : ℕ} (h : n < 256) : u8 n = n := Nat.mod_eq_of_lt h

theorem u64_lt (z : ℤ) : u64 z < 2 ^ 64 := by
  unfold u64
  omega

theorem u64_of_nonneg {z : ℤ} (h0 : 0 ≤ z) (h : z < 2 ^ 64) : u64 z = z.toNat := by
  rw [u64, Int.emod_eq_of_lt h0 h]

theorem u64_natCast {n : ℕ} (h : n < 2 ^ 64) : u64 n = n := by
  rw [u64_of_nonneg (by omega) (by exact_mod_cast h), Int.toNat_natCast]

theorem i32_of_lt {k : ℤ} (h0 : 0 ≤ k) (h : k < 2 ^ 31) : i32 k = k := by
  unfold i32
  rw [Int.bmod_def]
  split_ifs <;> omega

theorem i64_of_mem {z : ℤ} (h : -2 ^ 63 ≤ z) (h' : z < 2 ^ 63) : i64 z = z :=
  Int.bmod_eq_of_le (by simpa using h) (by simpa using h')

theorem i64_mem (z : ℤ) : -2 ^ 63 ≤ i64 z ∧ i64 z < 2 ^ 63 := by
  have hlo := Int.le_bmod (x := z) (m := 2 ^ 64) (by decide)
  have hhi := Int.bmod_lt (x := z) (m := 2 ^ 64) (by decide)
  unfold i64
  constructor
  · simpa using hlo
  · simpa using hhi

end LdacsSdk
