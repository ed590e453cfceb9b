import LdacsSdk.Library.LinearChecksum
import LdacsSdk.Packet.Decoder

/-!
# Corrupted packets

Both checksums are linear in exclusive or, so what they make of a corrupted message depends on the
error pattern alone. A short burst of errors never comes out as zero: the first wrong byte takes
the state away from zero, the bytes next to it are too short to bring it back, and from there on
the state only turns over.
-/
namespace LdacsSdk

open Library

/-- One byte of `cal_crc_8bits`. -/
def crc8Step (crc byte : UInt8) : UInt8 := crc8Table.getD (crc ^^^ byte).toNat 0

/-- One byte of `cal_crc_32bits`. -/
def crc32Step (crc : UInt32) (byte : UInt8) : UInt32 :=
  crc >>> 8 ^^^ crc32Table.getD ((crc ^^^ byte.toUInt32) &&& 0xFF).toNat 0

theorem crc8Table_linear : TableLinear fun a => (crc8Table.getD a 0).toUInt32 := by
  decide +kernel

theorem crc32Table_linear : TableLinear fun a => crc32Table.getD a 0 := by
  decide +kernel

/-- The low bits of an entry show whether a burst of eight bits that ends with the first byte's
last `8 - p` bits can be taken back by the first `p` bits of the next byte. -/
theorem crc8Table_low_bits :
    ∀ p < 8, ∀ a < 2 ^ (8 - p), a ≠ 0 → (crc8Table.getD a 0).toNat % 2 ^ (8 - p) ≠ 0 := by
  decide +kernel

/-- Every entry but the first has its top byte set. -/
theorem crc32Table_top_byte : ∀ a < 256, a ≠ 0 → 2 ^ 24 ≤ (crc32Table.getD a 0).toNat := by
  decide +kernel

theorem crc8Step_linear : XorLinear crc8Step := by
  intro s s' b b'
  have hxor := crc8Table_linear.xor (s ^^^ b).toNat_lt (s' ^^^ b').toNat_lt
  have harg : (s ^^^ s' ^^^ (b ^^^ b')).toNat = (s ^^^ b).toNat ^^^ (s' ^^^ b').toNat := by
    rw [← UInt8.toNat_xor]
    congr 1
    ac_rfl
  simp only [← harg, ← UInt8.toUInt32_xor] at hxor
  exact UInt8.toUInt32_inj.mp hxor

/-- The table index of a 32-bit step. -/
def lowByte (x : UInt32) : ℕ := (x &&& 0xFF).toNat

theorem lowByte_eq (x : UInt32) : lowByte x = x.toNat % 256 := by
  rw [lowByte, UInt32.toNat_and]
  exact Nat.and_two_pow_sub_one_eq_mod _ 8

theorem lowByte_xor (x y : UInt32) : lowByte (x ^^^ y) = lowByte x ^^^ lowByte y := by
  simp only [lowByte, UInt32.toNat_and, UInt32.toNat_xor, Nat.and_xor_distrib_right]

theorem crc32Step_linear : XorLinear crc32Step := by
  intro s s' b b'
  have hlt (x : UInt32) : lowByte x < 256 := by
    rw [lowByte_eq]
    exact Nat.mod_lt _ (by decide)
  have harg : s ^^^ s' ^^^ (b ^^^ b').toUInt32 = s ^^^ b.toUInt32 ^^^ (s' ^^^ b'.toUInt32) := by
    rw [UInt8.toUInt32_xor]
    ac_rfl
  have hxor := crc32Table_linear.xor (hlt (s ^^^ b.toUInt32)) (hlt (s' ^^^ b'.toUInt32))
  rw [← lowByte_xor, ← harg] at hxor
  simp only [lowByte] at hxor
  simp only [crc32Step, hxor, UInt32.shiftRight_xor]
  ac_rfl

section Bursts32

variable {s : UInt32} {b : UInt8} {e : List UInt8}

theorem xor_ge {x y : ℕ} (hx : x < 2 ^ 24) (hy : 2 ^ 24 ≤ y) : 2 ^ 24 ≤ x ^^^ y := by
  by_contra hlt
  have hback : x ^^^ (x ^^^ y) < 2 ^ 24 := Nat.xor_lt_two_pow hx (Nat.lt_of_not_le hlt)
  rw [← Nat.xor_assoc, Nat.xor_self, Nat.zero_xor] at hback
  omega

theorem toNat_crc32Step (s : UInt32) (b : UInt8) : (crc32Step s b).toNat =
    s.toNat / 256 ^^^ (crc32Table.getD (s.toNat % 256 ^^^ b.toNat) 0).toNat := by
  have hlow : lowByte (s ^^^ b.toUInt32) = s.toNat % 256 ^^^ b.toNat := by
    rw [lowByte_xor, lowByte_eq, lowByte_eq, UInt8.toNat_toUInt32, Nat.mod_eq_of_lt b.toNat_lt]
  have hshift : (s >>> 8).toNat = s.toNat / 256 := by
    rw [UInt32.toNat_shiftRight, Nat.shiftRight_eq_div_pow]
    rfl
  rw [crc32Step, UInt32.toNat_xor, hshift, ← hlow]
  rfl

/-- A step sets the top byte, or it takes the byte off the state. -/
theorem crc32Step_cases (s : UInt32) (b : UInt8) : 2 ^ 24 ≤ (crc32Step s b).toNat ∨
    (crc32Step s b).toNat = s.toNat / 256 ∧ s.toNat % 256 = b.toNat := by
  have hindex : s.toNat % 256 ^^^ b.toNat < 256 :=
    Nat.xor_lt_two_pow (n := 8) (Nat.mod_lt _ (by decide)) b.toNat_lt
  rw [toNat_crc32Step]
  by_cases hzero : s.toNat % 256 ^^^ b.toNat = 0
  · right
    have hfirst : (crc32Table.getD 0 0).toNat = 0 := rfl
    rw [hzero, hfirst, Nat.xor_zero]
    exact ⟨rfl, Nat.xor_eq_zero_iff.mp hzero⟩
  · left
    have hs := s.toNat_lt
    exact xor_ge (by omega) (crc32Table_top_byte _ hindex hzero)

/-- Bytes that end a burst do not bring the state back to zero. -/
theorem foldl_crc32Step_ne {i : ℕ} (hi : i ≤ 3) (hs : 2 ^ (8 * i) ≤ s.toNat)
    (he : ∀ k, e.getD k 0 ≠ 0 → k < i) : e.foldl crc32Step s ≠ 0 := by
  induction e generalizing s i with
  | nil =>
    rintro rfl
    have hpos : 0 < 2 ^ (8 * i) := by positivity
    simp at hs
  | cons b e ih =>
    cases i with
    | zero =>
      have hb : b = 0 := by
        by_contra hne
        exact absurd (he 0 (by simpa using hne)) (by decide)
      refine ih (i := 0) (by decide) ?_ fun k hk => by
        have hlt := he (k + 1) (by simpa using hk)
        omega
      subst hb
      rcases crc32Step_cases s 0 with htop | ⟨hnext, hlow⟩
      · exact le_trans (by decide) htop
      · rw [hnext]
        simp only [UInt8.toNat_zero] at hlow
        omega
    | succ i =>
      refine ih (i := i) (by omega) ?_ fun k hk => ?_
      · have hpow : 2 ^ (8 * (i + 1)) = 2 ^ (8 * i) * 256 := by ring
        have hle : 2 ^ (8 * i) ≤ 2 ^ 24 := Nat.pow_le_pow_right (by decide) (by omega)
        rcases crc32Step_cases s b with htop | ⟨hnext, -⟩
        · exact hle.trans htop
        · rw [hnext, Nat.le_div_iff_mul_le (by decide)]
          omega
      · have hlt := he (k + 1) (by simpa using hk)
        omega

/-- A pattern of errors within four bytes is not taken for no error. -/
theorem crc32_burst_ne {j : ℕ} (hne : ∃ b ∈ e, b ≠ 0)
    (he : ∀ k, e.getD k 0 ≠ 0 → j ≤ k ∧ k < j + 4) : e.foldl crc32Step 0 ≠ 0 := by
  induction e generalizing j with
  | nil => simp at hne
  | cons b e ih =>
    by_cases hb : b = 0
    · subst hb
      have hrest : ∃ b ∈ e, b ≠ 0 := by simpa using hne
      have hskip : crc32Step 0 0 = 0 := by decide
      rw [List.foldl_cons, hskip]
      refine ih (j := j - 1) hrest fun k hk => ?_
      have hin := he (k + 1) (by simpa using hk)
      omega
    · -- the burst starts here
      have hstart := he 0 (by simpa using hb)
      have hpos : b.toNat ≠ 0 := fun h0 => hb (UInt8.toNat_inj.mp h0)
      have hfirst : 2 ^ 24 ≤ (crc32Step 0 b).toNat := by
        rcases crc32Step_cases 0 b with htop | ⟨-, hlow⟩
        · exact htop
        · exact absurd hlow.symm (by simpa using hpos)
      rw [List.foldl_cons]
      refine foldl_crc32Step_ne (i := 3) le_rfl hfirst fun k hk => ?_
      have hin := he (k + 1) (by simpa using hk)
      omega

end Bursts32

/-- The bit at position `q` of a string of bytes, counted from the most significant bit of the first
byte on. -/
def errorBit (e : List UInt8) (q : ℕ) : Bool := (e.getD (q / 8) 0).toNat.testBit (7 - q % 8)

section Bursts8

variable {a b : UInt8} {e : List UInt8} {p q : ℕ}

theorem errorBit_head (h : q < 8) : errorBit (b :: e) q = b.toNat.testBit (7 - q) := by
  rw [errorBit, Nat.div_eq_of_lt h, Nat.mod_eq_of_lt h]
  rfl

theorem errorBit_tail (b : UInt8) (e : List UInt8) (q : ℕ) :
    errorBit (b :: e) (q + 8) = errorBit e q := by
  rw [errorBit, Nat.add_mod_right, Nat.add_div_right q (by decide)]
  rfl

theorem testBit_of_eight_le {k : ℕ} (hk : 8 ≤ k) : b.toNat.testBit k = false :=
  Nat.testBit_lt_two_pow (b.toNat_lt.trans_le (Nat.pow_le_pow_right (by decide) hk))

/-- A byte with an error has one among its eight bits. -/
theorem exists_bit_of_ne (hb : b ≠ 0) : ∃ q < 8, b.toNat.testBit (7 - q) = true := by
  have hpos : b.toNat ≠ 0 := fun h0 => hb (UInt8.toNat_inj.mp h0)
  obtain ⟨k, hk⟩ := Nat.exists_testBit_of_ne_zero hpos
  have hlt : k < 8 := by
    by_contra hge
    rw [testBit_of_eight_le (by omega)] at hk
    simp at hk
  exact ⟨7 - k, by omega, by rwa [show 7 - (7 - k) = k by omega]⟩

theorem eq_zero_of_bits (h : ∀ q < 8, b.toNat.testBit (7 - q) = false) : b = 0 := by
  by_contra hb
  obtain ⟨q, hq, hbit⟩ := exists_bit_of_ne hb
  rw [h q hq] at hbit
  simp at hbit

/-- A byte whose errors start at bit `p` is short. -/
theorem lt_of_bits (hp : p < 8) (h : ∀ q < 8, b.toNat.testBit (7 - q) = true → p ≤ q) :
    b.toNat < 2 ^ (8 - p) := by
  refine Nat.lt_pow_two_of_testBit _ fun k hk => ?_
  rcases Nat.lt_or_ge k 8 with hlt | hge
  · by_contra hbit
    have hle := h (7 - k) (by omega) (by
      rw [show 7 - (7 - k) = k by omega]
      simpa using hbit)
    omega
  · exact testBit_of_eight_le hge

/-- A byte whose errors end before bit `p` has no low bits. -/
theorem mod_eq_zero_of_bits (h : ∀ q < 8, b.toNat.testBit (7 - q) = true → q < p) :
    b.toNat % 2 ^ (8 - p) = 0 := by
  refine Nat.eq_of_testBit_eq fun k => ?_
  rw [Nat.testBit_mod_two_pow, Nat.zero_testBit]
  by_cases hk : k < 8 - p
  · by_contra hbit
    have hlt := h (7 - k) (by omega) (by
      rw [show 7 - (7 - k) = k by omega]
      simpa [hk] using hbit)
    omega
  · simp [hk]

theorem crc8Step_ne_zero (h : a ≠ b) : crc8Step a b ≠ 0 := by
  intro hzero
  have hne : (a ^^^ b).toNat ≠ 0 := by
    rw [UInt8.toNat_xor]
    exact fun h0 => h (UInt8.toNat_inj.mp (Nat.xor_eq_zero_iff.mp h0))
  have hlow := crc8Table_low_bits 0 (by decide) _ (a ^^^ b).toNat_lt hne
  rw [crc8Step] at hzero
  rw [hzero] at hlow
  simp at hlow

/-- A pattern of errors within eight bits is not taken for no error. -/
theorem crc8_burst_ne (hne : ∃ q, errorBit e q = true)
    (he : ∀ q, errorBit e q = true → p ≤ q ∧ q < p + 8) : e.foldl crc8Step 0 ≠ 0 := by
  induction e generalizing p with
  | nil =>
    obtain ⟨q, hq⟩ := hne
    simp [errorBit] at hq
  | cons b e ih =>
    have hhead : ∀ q < 8, b.toNat.testBit (7 - q) = true → p ≤ q ∧ q < p + 8 := fun q hq hbit =>
      he q (by rwa [errorBit_head hq])
    have htail : ∀ q, errorBit e q = true → p ≤ q + 8 ∧ q < p := fun q hq => by
      have hin := he (q + 8) (by rwa [errorBit_tail])
      omega
    by_cases hb : b = 0
    · subst hb
      have hskip : crc8Step 0 0 = 0 := by decide
      rw [List.foldl_cons, hskip]
      obtain ⟨q, hq⟩ := hne
      have hrest : ∃ q, errorBit e q = true := by
        rcases Nat.lt_or_ge q 8 with hlt | hge
        · rw [errorBit_head hlt] at hq
          simp at hq
        · obtain ⟨r, rfl⟩ := Nat.exists_eq_add_of_le' hge
          exact ⟨r, by rwa [errorBit_tail] at hq⟩
      exact ih (p := p - 8) hrest fun q hq => by
        have hin := htail q hq
        omega
    · -- the burst starts in this byte and ends in the next one
      obtain ⟨q, hq, hbit⟩ := exists_bit_of_ne hb
      have hp : p < 8 := (hhead q hq hbit).1.trans_lt hq
      have hshort := lt_of_bits hp fun q hq hbit => (hhead q hq hbit).1
      have hpos : b.toNat ≠ 0 := fun h0 => hb (UInt8.toNat_inj.mp h0)
      have hlow := crc8Table_low_bits p hp b.toNat hshort hpos
      have hfirst : crc8Step 0 b = crc8Table.getD b.toNat 0 := by simp [crc8Step]
      rw [← hfirst] at hlow
      rw [List.foldl_cons]
      cases e with
      | nil =>
        intro hzero
        rw [List.foldl_nil] at hzero
        simp [hzero] at hlow
      | cons c e =>
        have hc : c.toNat % 2 ^ (8 - p) = 0 := mod_eq_zero_of_bits fun q hq hbit =>
          (htail q (by rwa [errorBit_head hq])).2
        have hdiff : crc8Step 0 b ≠ c := by
          intro heq
          rw [heq] at hlow
          exact hlow hc
        have hrest : ∀ d ∈ e, d = 0 := fun d hd => by
          obtain ⟨k, hk⟩ := List.mem_iff_getElem?.mp hd
          refine eq_zero_of_bits fun q hq => ?_
          by_contra hbit
          have hat : errorBit (c :: e) ((8 * k + q) + 8) = true := by
            rw [errorBit_tail, errorBit, Nat.mul_add_mod, Nat.mod_eq_of_lt hq,
              Nat.mul_add_div (by decide), Nat.div_eq_of_lt hq]
            simpa [hk] using hbit
          have hin := htail _ hat
          omega
        rw [List.foldl_cons]
        exact foldl_ne_of_zeros (fun s hs => by
          by_contra hs0
          exact crc8Step_ne_zero hs0 hs) (crc8Step_ne_zero hdiff) hrest

end Bursts8

section Detection

theorem bytesBetween_succ (mem : Mem) {start cur : ℕ} (h : start ≤ cur) :
    bytesBetween mem start (cur + 1) = bytesBetween mem start cur ++ [mem cur] := by
  have hlen : cur + 1 - start = cur - start + 1 := by omega
  rw [bytesBetween, bytesBetween, hlen, List.range'_1_concat, List.map_append,
    Nat.add_sub_cancel' h]
  rfl

theorem crc8Step_self (crc : UInt8) : crc8Step crc crc = 0 := by
  rw [crc8Step, UInt8.xor_self]
  rfl

theorem calCrc8bits_snoc (bytes : List UInt8) (b : UInt8) :
    (bytes ++ [b]).foldl crc8Step 0 = crc8Step (calCrc8bits bytes) b := by
  rw [List.foldl_append]
  rfl

/-- A message with its checksum behind it folds to zero, a corrupted one to what the errors make. -/
theorem foldl_crc8_corrupt {m e : List UInt8} (h : e.length = m.length + 1) :
    (corrupt (m ++ [calCrc8bits m]) e).foldl crc8Step 0 = e.foldl crc8Step 0 := by
  have hlen : (m ++ [calCrc8bits m]).length = e.length := by simp [h]
  have hsum := crc8Step_linear.foldl_corrupt hlen 0 0
  rw [calCrc8bits_snoc, crc8Step_self] at hsum
  simpa using hsum

theorem calCrc32bits_corrupt {m e : List UInt8} (h : e.length = m.length) :
    calCrc32bits (corrupt m e) = calCrc32bits m ^^^ e.foldl crc32Step 0 := by
  have hsum := crc32Step_linear.foldl_corrupt h.symm 0 0
  rw [UInt32.xor_zero] at hsum
  have hstep (bytes : List UInt8) :
      calCrc32bits bytes = bytes.foldl crc32Step 0 ^^^ 0xFFFFFFFF := rfl
  rw [hstep, hstep, hsum]
  ac_rfl

/-- The comparison of `in_struct` fails for a message and CRC-8 with errors in eight consecutive
bits, and errors in four consecutive bytes change the CRC-32 of a message. -/
theorem corruption_detected :
    (∀ (m e : List UInt8) (p : ℕ), e.length = m.length + 1 → (∃ q, errorBit e q = true) →
      (∀ q, errorBit e q = true → p ≤ q ∧ q < p + 8) →
      ∀ (mem : Mem) (start : ℕ) (f : FieldDesc) (s : InState), f.size = crc8Size →
        s.cur = start + m.length →
        bytesBetween mem start (s.cur + 1) = corrupt (m ++ [calCrc8bits m]) e →
        (inCrc mem start f s).2 = some (.wrongCrc f.name)) ∧
    (∀ (m e : List UInt8) (j : ℕ), e.length = m.length → (∃ b ∈ e, b ≠ 0) →
      (∀ k, e.getD k 0 ≠ 0 → j ≤ k ∧ k < j + 4) →
      calCrc32bits (corrupt m e) ≠ calCrc32bits m) := by
  constructor
  · intro m e p hlen hne he mem start f s hsize hcur hbytes
    have hburst := crc8_burst_ne hne he
    rw [← foldl_crc8_corrupt hlen, ← hbytes, bytesBetween_succ mem (by omega),
      calCrc8bits_snoc] at hburst
    have hdiff : calCrc8bits (bytesBetween mem start s.cur) ≠ mem s.cur := by
      intro heq
      rw [heq, crc8Step_self] at hburst
      exact hburst rfl
    simp only [inCrc, if_pos hsize, if_pos hdiff]
  · intro m e j hlen hne he heq
    rw [calCrc32bits_corrupt hlen] at heq
    have hzero : e.foldl crc32Step 0 = 0 := by
      calc e.foldl crc32Step 0
          = calCrc32bits m ^^^ (calCrc32bits m ^^^ e.foldl crc32Step 0) := by
            rw [← UInt32.xor_assoc, UInt32.xor_self, UInt32.zero_xor]
        _ = 0 := by rw [heq, UInt32.xor_self]
    exact crc32_burst_ne hne he hzero

theorem lt_length_of_errorBit {e : List UInt8} {q : ℕ} (h : errorBit e q = true) :
    q < 8 * e.length := by
  by_contra hge
  have hout : e.length ≤ q / 8 := by omega
  rw [errorBit, List.getD_eq_default _ _ hout] at h
  simp at h

/-- The last bit of the only byte and the first bit of its checksum are turned over, and the first
byte of two. -/
theorem corruption_detected_two :
    (inCrc (fun a => if a = 0 then 0x03 else 0x39) 0 ⟨.ftCrc, 8, "CRC"⟩
      ⟨1, 8, 0, 0, none, none, none, [], [], [], [], false⟩).2 = some (.wrongCrc "CRC") ∧
    calCrc32bits (corrupt [1, 2] [1, 0]) ≠ calCrc32bits [1, 2] := by
  have hpattern : ∀ q < 16, errorBit [1, 0x80] q = true → 7 ≤ q ∧ q < 7 + 8 := by decide
  exact ⟨corruption_detected.1 [2] [1, 0x80] 7 rfl ⟨7, by decide⟩
      (fun q hq => hpattern q (lt_length_of_errorBit hq) hq) _ 0 _ _ rfl rfl (by decide),
    corruption_detected.2 [1, 2] [1, 0] 0 rfl ⟨1, by decide⟩ fun k hk => by
      match k with
      | 0 | 1 => decide
      | k + 2 => simp at hk⟩

end Detection

end LdacsSdk
