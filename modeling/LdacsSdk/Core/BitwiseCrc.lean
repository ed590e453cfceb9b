import LdacsSdk.Core.Checksum
import LdacsSdk.Library.BitwiseChecksum

/-!
# The checksum tables and the bitwise definitions

What the two checksums are in bits. The 8-bit one divides the message by `x ^ 8 + 0x97`, most
significant bit first; the 32-bit one is the reflected division with the constant `0xFA567D89`,
inverted at the end. An entry of a table is what eight shifts make of its index.
-/
namespace LdacsSdk

open Library

/-- The bits of a message, most significant bit of each byte first. -/
def msbBits (bytes : List UInt8) : List Bool := bytes.flatMap fun b => msbFirst 8 b.toBitVec

/-- The bits of a message, least significant bit of each byte first. -/
def lsbBits (bytes : List UInt8) : List Bool := bytes.flatMap fun b => lsbFirst 8 b.toBitVec

/-- The 8-bit checksum bit by bit. -/
def bitwiseCrc8 (bytes : List UInt8) : BitVec 8 :=
  (msbBits bytes).foldl (divideBit 0x97#8) 0#8

/-- The 32-bit checksum bit by bit. -/
def bitwiseCrc32 (bytes : List UInt8) : BitVec 32 :=
  ~~~(lsbBits bytes).foldl (reflectBit 0xFA567D89#32) 0#32

/-- One round of 1 bit in `Slow_CRC_Cal8Bits`. -/
def slowCrcRound (crc : UInt8) : UInt8 :=
  if crc &&& 0x80 ≠ 0 then crc <<< 1 ^^^ 0x97 else crc <<< 1

/-- `Slow_CRC_Cal8Bits`. -/
def slowCrcCal8Bits (crc : UInt8) (buffer : List UInt8) : UInt8 :=
  buffer.foldl (fun crc byte => slowCrcRound^[8] (crc ^^^ byte)) crc

/-- Eight shifts of the register by zeros. -/
def eightShifts {w : ℕ} (shift : BitVec w → Bool → BitVec w) (r : BitVec w) : BitVec w :=
  (List.replicate 8 false).foldl shift r

section Tables

theorem crc8Table_shifts : ∀ a < 256,
    (crc8Table.getD a 0).toBitVec = eightShifts (divideBit 0x97#8) (BitVec.ofNat 8 a) := by
  decide +kernel

theorem crc32Table_shifts : ∀ a < 256,
    (crc32Table.getD a 0).toBitVec =
      eightShifts (reflectBit 0xFA567D89#32) (BitVec.ofNat 32 a) := by
  decide +kernel

theorem slowCrcRound_shift : ∀ a < 256,
    (slowCrcRound (UInt8.ofNat a)).toBitVec = divideBit 0x97#8 (BitVec.ofNat 8 a) false := by
  decide +kernel

end Tables

section Bytes

variable (crc : UInt8) (crc32 : UInt32) (byte : UInt8)

/-- A byte of `cal_crc_8bits` shifts the bits of the byte through the register. -/
theorem crc8_byte_bits : (crc8Table.getD (crc ^^^ byte).toNat 0).toBitVec =
    (msbFirst 8 byte.toBitVec).foldl (divideBit 0x97#8) crc.toBitVec := by
  have htable := crc8Table_shifts (crc ^^^ byte).toNat (crc ^^^ byte).toNat_lt
  have hindex : BitVec.ofNat 8 (crc ^^^ byte).toNat = crc.toBitVec ^^^ byte.toBitVec := by
    rw [← UInt8.toBitVec_xor, ← UInt8.toNat_toBitVec, BitVec.ofNat_toNat, BitVec.setWidth_eq]
  have hout : byte.toBitVec <<< 8 = 0#8 := BitVec.shiftLeft_eq_zero le_rfl
  rw [htable, hindex, eightShifts, foldl_divideBit_add, hout, BitVec.xor_zero]

/-- A byte of `cal_crc_32bits` shifts the bits of the byte through the register. -/
theorem crc32_byte_bits :
    (crc32 >>> 8 ^^^ crc32Table.getD ((crc32 ^^^ byte.toUInt32) &&& 0xFF).toNat 0).toBitVec =
      (lsbFirst 8 byte.toBitVec).foldl (reflectBit 0xFA567D89#32) crc32.toBitVec := by
  let x : BitVec 32 := crc32.toBitVec ^^^ byte.toUInt32.toBitVec
  let low : BitVec 32 := x &&& 0xFF#32
  have hlow (i : ℕ) (hi : i < 8) : low.getLsbD i = x.getLsbD i := by
    have hmask : (0xFF#32).getLsbD i = true := by interval_cases i <;> rfl
    rw [BitVec.getLsbD_and, hmask, Bool.and_true]
  have hlowShift : low >>> 8 = 0#32 := by
    rw [BitVec.ushiftRight_and_distrib]
    exact BitVec.and_zero
  have hbyteShift : byte.toUInt32.toBitVec >>> 8 = 0#32 := by
    apply BitVec.eq_of_toNat_eq
    have hbyte := byte.toNat_lt
    rw [BitVec.toNat_ushiftRight, UInt8.toBitVec_toUInt32, BitVec.toNat_setWidth,
      Nat.shiftRight_eq_div_pow]
    simp only [UInt8.toNat_toBitVec, BitVec.toNat_ofNat]
    omega
  have hbyteBits : lsbFirst 8 byte.toUInt32.toBitVec = lsbFirst 8 byte.toBitVec := by
    apply lsbFirst_congr
    intro i hi
    rw [UInt8.toBitVec_toUInt32, BitVec.getLsbD_setWidth, decide_eq_true (by omega), Bool.true_and]
  have hindex : ((crc32 ^^^ byte.toUInt32) &&& 0xFF).toNat = low.toNat := rfl
  have hsmall : low.toNat < 256 := by
    have hle : low.toNat ≤ 0xFF := Nat.and_le_right
    omega
  have htable := crc32Table_shifts low.toNat hsmall
  rw [BitVec.ofNat_toNat, BitVec.setWidth_eq] at htable
  -- both sides are what eight shifts make of the register with the byte added
  calc (crc32 >>> 8 ^^^ crc32Table.getD ((crc32 ^^^ byte.toUInt32) &&& 0xFF).toNat 0).toBitVec
      = crc32.toBitVec >>> 8 ^^^ eightShifts (reflectBit 0xFA567D89#32) low := by
        rw [hindex, UInt32.toBitVec_xor, htable]
        rfl
    _ = x >>> 8 ^^^ (lsbFirst 8 x).foldl (reflectBit 0xFA567D89#32) 0#32 := by
        rw [eightShifts, foldl_reflectBit_zeros, hlowShift, BitVec.xor_zero, lsbFirst_congr hlow,
          BitVec.ushiftRight_xor_distrib, hbyteShift, BitVec.xor_zero]
    _ = (List.replicate 8 false).foldl (reflectBit 0xFA567D89#32) x := by
        rw [foldl_reflectBit_zeros, BitVec.xor_comm]
    _ = (lsbFirst 8 byte.toBitVec).foldl (reflectBit 0xFA567D89#32) crc32.toBitVec := by
        rw [foldl_reflectBit_add, hbyteShift, BitVec.xor_zero, hbyteBits]

/-- The eight rounds of `Slow_CRC_Cal8Bits` shift the bits of the byte through the register. -/
theorem slow_byte_bits : (slowCrcRound^[8] (crc ^^^ byte)).toBitVec =
    (msbFirst 8 byte.toBitVec).foldl (divideBit 0x97#8) crc.toBitVec := by
  have hround (a : UInt8) : (slowCrcRound a).toBitVec = divideBit 0x97#8 a.toBitVec false := by
    have h := slowCrcRound_shift a.toNat a.toNat_lt
    rwa [UInt8.ofNat_toNat, ← UInt8.toNat_toBitVec, BitVec.ofNat_toNat, BitVec.setWidth_eq] at h
  have hrounds (n : ℕ) (a : UInt8) : (slowCrcRound^[n] a).toBitVec =
      (List.replicate n false).foldl (divideBit 0x97#8) a.toBitVec := by
    induction n generalizing a with
    | zero => rfl
    | succ n ih =>
      rw [Function.iterate_succ_apply, ih, hround, List.replicate_succ, List.foldl_cons]
  have hout : byte.toBitVec <<< 8 = 0#8 := BitVec.shiftLeft_eq_zero le_rfl
  rw [hrounds, UInt8.toBitVec_xor, foldl_divideBit_add, hout, BitVec.xor_zero]

end Bytes

section Messages

theorem foldl_crc8_bits (bytes : List UInt8) (crc : UInt8) :
    (bytes.foldl (fun crc byte => crc8Table.getD (crc ^^^ byte).toNat 0) crc).toBitVec =
      (msbBits bytes).foldl (divideBit 0x97#8) crc.toBitVec := by
  induction bytes generalizing crc with
  | nil => rfl
  | cons byte bytes ih =>
    rw [List.foldl_cons, ih, crc8_byte_bits, msbBits, msbBits, List.flatMap_cons, List.foldl_append]

theorem foldl_crc32_bits (bytes : List UInt8) (crc : UInt32) :
    (bytes.foldl (fun (crc : UInt32) byte =>
      crc >>> 8 ^^^ crc32Table.getD ((crc ^^^ byte.toUInt32) &&& 0xFF).toNat 0) crc).toBitVec =
      (lsbBits bytes).foldl (reflectBit 0xFA567D89#32) crc.toBitVec := by
  induction bytes generalizing crc with
  | nil => rfl
  | cons byte bytes ih =>
    rw [List.foldl_cons, ih, crc32_byte_bits, lsbBits, lsbBits, List.flatMap_cons,
      List.foldl_append]

/-- The checksum of the test program is the bitwise one. -/
theorem slowCrcCal8Bits_bits (crc : UInt8) (buffer : List UInt8) :
    (slowCrcCal8Bits crc buffer).toBitVec =
      (msbBits buffer).foldl (divideBit 0x97#8) crc.toBitVec := by
  induction buffer generalizing crc with
  | nil => rfl
  | cons byte buffer ih =>
    have hstep : slowCrcCal8Bits crc (byte :: buffer) =
        slowCrcCal8Bits (slowCrcRound^[8] (crc ^^^ byte)) buffer := rfl
    rw [hstep, ih, slow_byte_bits, msbBits, msbBits, List.flatMap_cons, List.foldl_append]

/-- The table-driven checksums are the bitwise ones. -/
theorem table_crc_bitwise (bytes : List UInt8) :
    (calCrc8bits bytes).toBitVec = bitwiseCrc8 bytes ∧
      (calCrc32bits bytes).toBitVec = bitwiseCrc32 bytes := by
  constructor
  · exact foldl_crc8_bits bytes 0
  · rw [bitwiseCrc32, calCrc32bits, UInt32.toBitVec_xor, foldl_crc32_bits]
    exact BitVec.xor_allOnes

/-- The table-driven checksum is that of the test program. -/
theorem calCrc8bits_eq_slow (bytes : List UInt8) : calCrc8bits bytes = slowCrcCal8Bits 0 bytes := by
  apply UInt8.toBitVec_inj.mp
  rw [slowCrcCal8Bits_bits]
  exact foldl_crc8_bits bytes 0

/-- The 8-bit checksum is the remainder of the message by the divisor that the test program
names. -/
theorem calCrc8bits_remainder (bytes : List UInt8) :
    registerPoly (calCrc8bits bytes).toBitVec =
      (messagePoly (msbBits bytes) * Polynomial.X ^ 8) %ₘ
        (Polynomial.X ^ 8 + registerPoly 0x97#8) := by
  rw [← registerPoly_foldl (by decide)]
  exact congrArg registerPoly (foldl_crc8_bits bytes 0)

end Messages

end LdacsSdk
