import LdacsSdk.Core.Definitions
import LdacsSdk.Library.ByteNumber

/-!
# Shifting an array of bits

`bit_rightshift` reverses the bytes of an array, moves them all down by one bit as often as it is
told to, with the lowest bit of a byte carried into the next one, and reverses them again. The
array is a number with its lowest byte first, and each round halves it.
-/
namespace LdacsSdk

open Library

/-- `switch_endian`: the bytes it writes to `dst`, which does not overlap `src` where it is
called. -/
def switchEndian (src : List UInt8) : List UInt8 :=
  (List.range src.length).map fun i => src.getD (src.length - 1 - i) 0

/-- The inner loop of `bit_rightshift`, from one byte of `small_endian` on. -/
def shiftBytes (toAdd : UInt8) : List UInt8 → List UInt8
  | [] => []
  | b :: smallEndian =>
    let lastBit := (b <<< 7) &&& 0x80
    ((b >>> 1) + toAdd) :: shiftBytes lastBit smallEndian

/-- The arrays of `len` bytes at two addresses are one array or two. -/
def SameOrApart (a b len : ℕ) : Prop := a = b ∨ a + len ≤ b ∨ b + len ≤ a

instance (a b len : ℕ) : Decidable (SameOrApart a b len) := inferInstanceAs (Decidable (_ ∨ _))

/-- `memcpy`. Copied onto itself an array stays as it is; copied to where it overlaps partly it has
no result. -/
def memcpy (mem : Mem) (dst src len : ℕ) : Option Mem :=
  if SameOrApart dst src len then some (storeBytes mem dst (loadBytes mem src len)) else none

/-- `bit_rightshift`: the memory after it and its return code. Its counters are `int`s; counting
them past their range has no result. -/
def bitRightshift (mem : Mem) (src srcLen dst toShift : ℕ) : Option (Mem × LErr) :=
  if src = 0 ∨ dst = 0 ∨ srcLen = 0 then some (mem, .ldErrInternal)
  else if toShift = 0 then (memcpy mem dst src srcLen).map fun mem' => (mem', .ldOk)
  else if srcLen < 2 ^ 31 ∧ toShift < 2 ^ 31 then
    let smallEndian := switchEndian (loadBytes mem src srcLen)
    some (storeBytes mem dst (switchEndian ((shiftBytes 0)^[toShift] smallEndian)), .ldOk)
  else none

theorem switchEndian_eq (src : List UInt8) : switchEndian src = src.reverse := by
  apply List.ext_getElem
  · simp [switchEndian]
  · intro i hi _
    have hlt : i < src.length := by simpa [switchEndian] using hi
    have hback : src.length - 1 - i < src.length := by omega
    simp [switchEndian, hback]

@[simp] theorem length_shiftBytes (toAdd : UInt8) (bytes : List UInt8) :
    (shiftBytes toAdd bytes).length = bytes.length := by
  induction bytes generalizing toAdd with
  | nil => rfl
  | cons b bytes ih => simp [shiftBytes, ih]

/-- What is carried out of a byte is its lowest bit, in the place of the highest. -/
theorem toNat_lastBit (b : UInt8) : ((b <<< 7) &&& 0x80).toNat = 128 * (b.toNat % 2) := by
  have hmask : (2 : ℕ) ^ 7 = 128 := rfl
  simp only [UInt8.toNat_and, UInt8.toNat_shiftLeft, UInt8.reduceToNat]
  rw [← hmask, Nat.and_two_pow, Nat.testBit_mod_two_pow, Nat.testBit_shiftLeft]
  rcases Nat.mod_two_eq_zero_or_one b.toNat with heven | hodd
  · simp [heven]
  · simp [hodd]

theorem toNat_shifted {b toAdd : UInt8} (h : toAdd.toNat ≤ 128) :
    ((b >>> 1) + toAdd).toNat = b.toNat / 2 + toAdd.toNat := by
  have hb := b.toNat_lt
  have hhalf : (b >>> 1).toNat = b.toNat / 2 := by simp [Nat.shiftRight_eq_div_pow]
  rw [UInt8.toNat_add, hhalf, Nat.mod_eq_of_lt (by omega)]

/-- A round halves the number, with the bit carried into it above its highest one. -/
theorem byteNumber_shiftBytes {k : ℕ} {toAdd : UInt8} (bytes : List UInt8) (hk : k < 2)
    (h : toAdd.toNat = 128 * k) : byteNumber (shiftBytes toAdd bytes).reverse =
      (256 ^ bytes.length * k + byteNumber bytes.reverse) / 2 := by
  induction bytes generalizing k toAdd with
  | nil =>
    have hzero : k / 2 = 0 := Nat.div_eq_of_lt hk
    simpa [shiftBytes, byteNumber] using hzero.symm
  | cons b bytes ih =>
    have hcarry : b.toNat % 2 < 2 := Nat.mod_lt _ (by decide)
    have hsplit : 256 ^ (bytes.length + 1) * k +
        (256 ^ bytes.length * b.toNat + byteNumber bytes.reverse) =
        2 * (256 ^ bytes.length * (b.toNat / 2 + 128 * k)) +
          (256 ^ bytes.length * (b.toNat % 2) + byteNumber bytes.reverse) := by
      conv_lhs => rw [← Nat.div_add_mod b.toNat 2]
      ring
    rw [shiftBytes, List.reverse_cons, byteNumber_append_singleton, List.length_reverse,
      length_shiftBytes, ih hcarry (toNat_lastBit b), toNat_shifted (by omega), h,
      List.reverse_cons, byteNumber_append_singleton, List.length_reverse, List.length_cons,
      hsplit, Nat.mul_add_div (by decide)]

/-- The rounds together divide the number by a power of two. -/
theorem byteNumber_iterate (bytes : List UInt8) (toShift : ℕ) :
    byteNumber ((shiftBytes 0)^[toShift] bytes).reverse =
      byteNumber bytes.reverse / 2 ^ toShift := by
  induction toShift with
  | zero => simp
  | succ toShift ih =>
    rw [Function.iterate_succ_apply', byteNumber_shiftBytes (k := 0) _ (by decide) rfl, ih,
      Nat.mul_zero, Nat.zero_add, Nat.div_div_eq_div_mul, pow_succ]

theorem length_iterate (bytes : List UInt8) (toShift : ℕ) :
    ((shiftBytes 0)^[toShift] bytes).length = bytes.length := by
  induction toShift with
  | zero => rfl
  | succ toShift ih => rw [Function.iterate_succ_apply', length_shiftBytes, ih]

variable {src srcLen dst toShift : ℕ}

/-- What the function stores: a string of the length of the source, whose number is that of the
source divided by a power of two. -/
theorem bitRightshift_stores (mem : Mem) (hsrc : src ≠ 0) (hdst : dst ≠ 0) (hlen : 1 ≤ srcLen)
    (hlen' : srcLen < 2 ^ 31) (hshift : toShift < 2 ^ 31) (hplace : SameOrApart dst src srcLen) :
    ∃ bytes, bytes.length = srcLen ∧
      byteNumber bytes = byteNumber (loadBytes mem src srcLen) / 2 ^ toShift ∧
      bitRightshift mem src srcLen dst toShift = some (storeBytes mem dst bytes, .ldOk) := by
  have hargs : ¬(src = 0 ∨ dst = 0 ∨ srcLen = 0) := by omega
  unfold bitRightshift
  rw [if_neg hargs]
  split_ifs with hzero hcounted
  · refine ⟨loadBytes mem src srcLen, length_loadBytes, ?_, ?_⟩
    · rw [hzero, pow_zero, Nat.div_one]
    · rw [memcpy, if_pos hplace, Option.map_some]
  · refine ⟨_, ?_, ?_, rfl⟩
    · rw [switchEndian_eq, List.length_reverse, length_iterate, switchEndian_eq,
        List.length_reverse, length_loadBytes]
    · rw [switchEndian_eq, byteNumber_iterate, switchEndian_eq, List.reverse_reverse]
  · exact absurd ⟨hlen', hshift⟩ hcounted

/-- **`bit_rightshift` is the logical right shift** of the array, into another array or in place,
and changes nothing but the bytes it stores. -/
theorem rightshift_is_logical (mem : Mem) (src srcLen dst toShift : ℕ) (hsrc : src ≠ 0)
    (hdst : dst ≠ 0) (hlen : 1 ≤ srcLen) (hlen' : srcLen < 2 ^ 31) (hshift : toShift < 2 ^ 31)
    (hplace : SameOrApart dst src srcLen) :
    ∃ mem', bitRightshift mem src srcLen dst toShift = some (mem', .ldOk) ∧
      (∀ i < 8 * srcLen, bitFrom mem' dst i =
        if i + toShift < 8 * srcLen then bitFrom mem src (i + toShift) else false) ∧
      (dst ≠ src → loadBytes mem' src srcLen = loadBytes mem src srcLen) ∧
      ∀ x, x < dst ∨ dst + srcLen ≤ x → mem' x = mem x := by
  obtain ⟨bytes, hbytes, hnumber, hrun⟩ :=
    bitRightshift_stores mem hsrc hdst hlen hlen' hshift hplace
  have houtside (x : ℕ) (hx : x < dst ∨ dst + srcLen ≤ x) :
      storeBytes mem dst bytes x = mem x := by
    apply storeBytes_of_outside
    rwa [hbytes]
  refine ⟨_, hrun, fun i hi => ?_, fun hne => ?_, houtside⟩
  · have hstored := testBit_loadBytes (storeBytes mem dst bytes) dst srcLen i
    have hloaded := testBit_loadBytes mem src srcLen (i + toShift)
    rw [← Nat.testBit_div_two_pow, ← hnumber] at hloaded
    have hread : loadBytes (storeBytes mem dst bytes) dst srcLen = bytes := by
      rw [← hbytes]
      exact loadBytes_storeBytes
    rw [hread, hloaded, decide_eq_true hi, Bool.true_and] at hstored
    rw [← hstored]
    split_ifs with hin
    · rw [decide_eq_true hin, Bool.true_and]
    · rw [decide_eq_false hin, Bool.false_and]
  · apply List.map_congr_left
    intro i hi
    have hin := List.mem_range.mp hi
    have hapart := hplace.resolve_left hne
    exact houtside (src + i) (by omega)

/-- The array `02 04 4E 0F`, shifted in place by one bit. -/
theorem rightshift_in_place : ∃ mem mem' : Mem,
    bitRightshift mem 16 4 16 1 = some (mem', .ldOk) ∧
      loadBytes mem 16 4 = [0x02, 0x04, 0x4E, 0x0F] ∧ ∀ i < 8 * 4,
        bitFrom mem' 16 i = if i + 1 < 8 * 4 then bitFrom mem 16 (i + 1) else false := by
  have hload : loadBytes (storeBytes (fun _ => 0) 16 [0x02, 0x04, 0x4E, 0x0F]) 16 4 =
    [0x02, 0x04, 0x4E, 0x0F] := loadBytes_storeBytes
  obtain ⟨mem', hrun, hbits, -⟩ := rightshift_is_logical
    (storeBytes (fun _ => 0) 16 [0x02, 0x04, 0x4E, 0x0F]) 16 4 16 1 (by decide) (by decide)
    (by decide) (by decide) (by decide) (.inl rfl)
  exact ⟨_, mem', hrun, hload, hbits⟩

end LdacsSdk
