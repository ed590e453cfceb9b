import LdacsSdk.Packet.Decoder

/-!
# The decoder at bit positions

Seen from outside, `in_struct` moves along bit positions: a bit field is the word at the position,
a string is bytes at the position, whatever the offset in the first octet. `Spot` is all that the
rest of the walk depends on, and each field moves it by a rule that does not mention octets.
-/
namespace LdacsSdk

open Library

/-- Where a walk over a descriptor stands: the bit position, the lengths received so far, where
the last padding ended and the buffers left for `ft_dl_str` members. -/
structure Spot where
  pos : ℕ
  sduLen : ℕ
  pduLen : ℕ
  payloadStart : Option ℕ
  presized : List (Option Buffer)
  deriving DecidableEq, Repr

/-- The spot of a decoder: the bits used in the octet under the cursor count. -/
def InState.spot (s : InState) : Spot :=
  ⟨8 * s.cur + s.bitSize % 8, s.sduLen, s.pduLen, s.payloadStart, s.presized⟩

/-- The next octet border. -/
def octetBorder (pos : ℕ) : ℕ := 8 * ((pos + 7) / 8)

/-- The value of a bit field. -/
def valueAt (mem : Mem) (pos size : ℕ) : ℕ := intToU64 (wordAt mem pos size)

/-- The bytes of a string. -/
def bytesAt (mem : Mem) (pos : ℕ) : ℕ → List UInt8
  | 0 => []
  | n + 1 => UInt8.ofNat (wordAt mem pos 8) :: bytesAt mem (pos + 8) n

/-- What is left of the received length for an `ft_p_raw` string at the spot. -/
def Spot.rawLeft (start behind : ℕ) (p : Spot) : ℤ :=
  p.pduLen - (p.pos / 8 - start : ℤ) - (behind / 8 : ℕ)

/-- The string a field takes at the spot: its length and the buffer its bytes are made into. -/
def Spot.string (start : ℕ) (f : FieldDesc) (p : Spot) : Option (ℕ × (List UInt8 → Buffer)) :=
  match f.fieldType, p.presized with
  | .ftFlStr len, _ => some (len, fun temp => (catToBuffer true (initBufferPtr len) temp).1)
  | .ftDlStr, some b :: _ => some (b.free, fun temp => (catToBuffer true b temp).1)
  | .ftPRaw behind, _ => some (u64 (p.rawLeft start behind), cloneToChunk)
  | _, _ => none

/-- The position behind the field. -/
def Spot.ending (start : ℕ) (f : FieldDesc) (p : Spot) : ℕ :=
  if f.fieldType.isBits then p.pos + f.size
  else match f.fieldType, p.string start f with
    | .ftPad, _ => octetBorder p.pos
    | .ftCrc, _ => if f.size = crc8Size ∨ f.size = crc32Size then p.pos + f.size else p.pos
    | _, some (len, _) => p.pos + 8 * len
    | _, none => p.pos

/-- The spot behind the field. -/
def Spot.next (mem : Mem) (start : ℕ) (f : FieldDesc) (p : Spot) : Spot where
  pos := p.ending start f
  sduLen := if f.fieldType = .ftSlen then valueAt mem p.pos f.size else p.sduLen
  pduLen := if f.fieldType = .ftPlen then valueAt mem p.pos f.size else p.pduLen
  payloadStart := if f.fieldType = .ftPad then some (octetBorder p.pos / 8) else p.payloadStart
  presized := if f.fieldType = .ftDlStr then p.presized.tail else p.presized

/-- The checksum of `size` bits that belongs at a position. -/
def checksum (mem : Mem) (start pos size : ℕ) : ℕ :=
  if size = crc8Size then (calCrc8bits (bytesBetween mem start (pos / 8))).toNat
  else (calCrc32bits (bytesBetween mem start (pos / 8))).toNat

/-- The field holds what the decoder insists on: a named value, the fixed value, the checksum. -/
def Spot.Accepts (mem : Mem) (start : ℕ) (f : FieldDesc) (p : Spot) : Prop :=
  match f.fieldType with
  | .ftEnum ed => enumName ed (valueAt mem p.pos f.size) ≠ none
  | .ftFix fixNum => valueAt mem p.pos f.size = fixNum
  | .ftCrc => f.size = crc8Size ∨ f.size = crc32Size →
      checksum mem start p.pos f.size = wordAt mem (8 * (p.pos / 8)) f.size
  | _ => True

/-- The members of the struct the field fills. -/
def Spot.filled (mem : Mem) (start : ℕ) (f : FieldDesc) (p : Spot) : List Member :=
  if f.fieldType.isBits then
    (storageBits f.size).toList.map fun bits => .num (valueAt mem p.pos f.size % 2 ^ bits)
  else match f.fieldType, p.string start f with
    | _, some (len, make) => [.str (some (make (bytesAt mem p.pos len)))]
    | .ftDlStr, none => [.str none]
    | _, none => []

/-- A string of `len` bytes at a position stays below the roof and in the scratch array. -/
def StringFits (roof pos len : ℕ) : Prop :=
  len ≤ maxInputBufferSize ∧ (len = 0 ∨ pos + 8 * len ≤ 8 * roof)

/-- The field stays below the roof and in the scratch array, and the length of an `ft_p_raw`
string is what the received length leaves for it. -/
def Spot.Fits (start roof : ℕ) (f : FieldDesc) (p : Spot) : Prop :=
  match f.fieldType, p.string start f with
  | .ftCrc, _ => f.size = crc8Size ∨ f.size = crc32Size → p.pos / 8 + f.size / 8 ≤ roof
  | .ftPRaw behind, _ =>
    0 ≤ p.rawLeft start behind ∧ StringFits roof p.pos (u64 (p.rawLeft start behind))
  | _, some (len, _) => StringFits roof p.pos len
  | t, none =>
    t.isBits → p.pos + f.size ≤ 8 * (p.pos / 8) ∨ p.pos + f.size ≤ 8 * roof

/-- Nothing outside was touched: reads below the roof, copies within the scratch array, no
subtraction below zero. -/
structure InState.Inside (roof : ℕ) (s : InState) : Prop where
  reads : ∀ a ∈ s.reads, a < roof
  copied : ∀ n ∈ s.copied, n ≤ maxInputBufferSize
  wrapped : s.wrapped = false

variable {mem : Mem} {s : InState} {roof : ℕ}

theorem InState.inside_iff : s.Inside roof ↔
    (∀ a ∈ s.reads, a < roof) ∧ (∀ n ∈ s.copied, n ≤ maxInputBufferSize) ∧ s.wrapped = false :=
  ⟨fun h => ⟨h.reads, h.copied, h.wrapped⟩, fun h => ⟨h.1, h.2.1, h.2.2⟩⟩

theorem bitPos_div (cur bitSize : ℕ) : (8 * cur + bitSize % 8) / 8 = cur := by omega

theorem forall_mem_range'_lt (a n roof : ℕ) :
    (∀ x ∈ List.range' a n, x < roof) ↔ n = 0 ∨ a + n ≤ roof := by
  simp only [List.mem_range'_1]
  constructor
  · intro h
    rcases Nat.eq_zero_or_pos n with hn | hn
    · exact .inl hn
    · have := h (a + n - 1) (by omega)
      exact .inr (by omega)
  · rintro (rfl | h) x hx <;> omega

/-- `detach_bits` as a bit field calls it, at any offset of the octet. -/
theorem detachField_spec (mem : Mem) (cur bitSize size : ℕ) (reads : List ℕ) :
    let d := detachBits mem ⟨cur, size + (bitSize % 8 : ℕ) - 8, 0, bitSize % 8, reads⟩
    d.cur = (8 * cur + bitSize % 8 + size) / 8 ∧
      d.n = valueAt mem (8 * cur + bitSize % 8) size ∧
      d.reads = reads ++ List.range' cur ((8 * cur + bitSize % 8 + size + 7) / 8 - cur) := by
  obtain ⟨hcur, hn, hreads⟩ := detachBits_spec mem (E := 8 * cur + bitSize % 8 + size)
    ⟨cur, size + (bitSize % 8 : ℕ) - 8, 0, bitSize % 8, reads⟩ (by push_cast; ring)
    (Nat.mod_lt _ (by decide)) (by simp)
  refine ⟨hcur, ?_, hreads⟩
  rw [hn, valueAt, Nat.zero_or, Nat.add_sub_cancel_left]

theorem detachStr_spec (mem : Mem) (roof size : ℕ) (s : DetachingStr) :
    (detachStr mem size s).cur = (8 * s.cur + s.bitSize % 8 + 8 * size) / 8 ∧
      (detachStr mem size s).bitSize = s.bitSize + 8 * size ∧
      (detachStr mem size s).dst = s.dst ++ bytesAt mem (8 * s.cur + s.bitSize % 8) size ∧
      ((∀ a ∈ (detachStr mem size s).reads, a < roof) ↔ (∀ a ∈ s.reads, a < roof) ∧
        (size = 0 ∨ 8 * s.cur + s.bitSize % 8 + 8 * size ≤ 8 * roof)) := by
  induction size generalizing s with
  | zero => simp [detachStr, bytesAt, bitPos_div]
  | succ size ih =>
    have hfield := detachField_spec mem s.cur s.bitSize 8 s.reads
    rw [show ((8 : ℕ) : ℤ) + (s.bitSize % 8 : ℕ) - 8 = (s.bitSize % 8 : ℕ) by push_cast; ring]
      at hfield
    obtain ⟨hcur, hn, hreads⟩ := hfield
    obtain ⟨ihcur, ihbit, ihdst, ihreads⟩ := ih
      ⟨(8 * s.cur + s.bitSize % 8 + 8) / 8, s.bitSize + 8,
        s.dst ++ [UInt8.ofNat (valueAt mem (8 * s.cur + s.bitSize % 8) 8)],
        s.reads ++ List.range' s.cur ((8 * s.cur + s.bitSize % 8 + 8 + 7) / 8 - s.cur)⟩
    have hpos : 8 * ((8 * s.cur + s.bitSize % 8 + 8) / 8) + (s.bitSize + 8) % 8 =
      8 * s.cur + s.bitSize % 8 + 8 := by omega
    simp only [hpos] at ihcur ihbit ihdst ihreads
    simp only [detachStr, hcur, hn, hreads]
    refine ⟨by rw [ihcur]; omega, by rw [ihbit]; ring, ?_, ?_⟩
    · rw [ihdst, List.append_assoc, List.singleton_append, bytesAt, valueAt,
        intToU64_of_lt (wordAt_lt.trans (by decide))]
    · rw [ihreads]
      simp only [List.forall_mem_append, forall_mem_range'_lt, and_assoc]
      refine and_congr_right fun _ => ?_
      omega

/-- The rest of a walk sees a bit field as the word at its position. -/
theorem spot_inBits (mem : Mem) (s : InState) (size : ℕ) :
    (inBits mem size s).1.spot = { s.spot with pos := s.spot.pos + size } := by
  obtain ⟨hcur, -, -⟩ := detachField_spec mem s.cur s.bitSize size s.reads
  simp only [inBits, InState.spot, hcur, Spot.mk.injEq, and_true]
  omega

theorem value_inBits (mem : Mem) (s : InState) (size : ℕ) :
    (inBits mem size s).2 = valueAt mem s.spot.pos size :=
  (detachField_spec mem s.cur s.bitSize size s.reads).2.1

theorem members_inBits (mem : Mem) (s : InState) (size : ℕ) :
    (inBits mem size s).1.members = s.members ++ (storageBits size).toList.map fun bits =>
      .num (valueAt mem s.spot.pos size % 2 ^ bits) := by
  obtain ⟨-, hn, -⟩ := detachField_spec mem s.cur s.bitSize size s.reads
  simp only [inBits, InState.spot, hn]

theorem inside_inBits (mem : Mem) (s : InState) (roof size : ℕ) :
    (inBits mem size s).1.Inside roof ↔ s.Inside roof ∧
      (s.spot.pos + size ≤ 8 * (s.spot.pos / 8) ∨ s.spot.pos + size ≤ 8 * roof) := by
  obtain ⟨-, -, hreads⟩ := detachField_spec mem s.cur s.bitSize size s.reads
  have hcut : (8 * s.cur + s.bitSize % 8 + size + 7) / 8 - s.cur = 0 ∨
      s.cur + ((8 * s.cur + s.bitSize % 8 + size + 7) / 8 - s.cur) ≤ roof ↔
      s.spot.pos + size ≤ 8 * (s.spot.pos / 8) ∨ s.spot.pos + size ≤ 8 * roof := by
    simp only [InState.spot]
    omega
  simp only [InState.inside_iff, inBits, hreads, List.forall_mem_append, forall_mem_range'_lt,
    hcut]
  tauto

variable {size : ℕ} {make : List UInt8 → Buffer}

/-- The rest of a walk sees a string as the bytes at its position. -/
theorem spot_inStr :
    (inStr mem size make s).spot = { s.spot with pos := s.spot.pos + 8 * size } := by
  obtain ⟨hcur, hbit, -, -⟩ := detachStr_spec mem 0 size ⟨s.cur, s.bitSize, [], s.reads⟩
  simp only [inStr, InState.spot, hcur, hbit, Spot.mk.injEq, and_true]
  omega

theorem members_inStr :
    (inStr mem size make s).members =
      s.members ++ [.str (some (make (bytesAt mem s.spot.pos size)))] := by
  obtain ⟨-, -, hdst, -⟩ := detachStr_spec mem 0 size ⟨s.cur, s.bitSize, [], s.reads⟩
  simp only [inStr, InState.spot, hdst, List.nil_append]

theorem inside_inStr :
    (inStr mem size make s).Inside roof ↔ s.Inside roof ∧ StringFits roof s.spot.pos size := by
  obtain ⟨-, -, -, hreads⟩ :=
    detachStr_spec mem roof size ⟨s.cur, s.bitSize, [], s.reads⟩
  simp only [InState.inside_iff, StringFits, inStr, hreads, List.forall_mem_append,
    List.forall_mem_singleton]
  simp only [InState.spot]
  tauto

/-- The received checksum is the word of its 32 bits. -/
theorem crc32In_eq (mem : Mem) (cur : ℕ) : crc32In mem cur = wordAt mem (8 * cur) 32 := by
  have hlt (k : ℕ) : (mem (cur + k)).toNat < 2 ^ 8 := (mem (cur + k)).toNat_lt
  have hsum : wordAt mem (8 * cur) (8 * 4) = (((mem (cur + 0)).toNat * 2 ^ 8 +
      (mem (cur + 1)).toNat) * 2 ^ 8 + (mem (cur + 2)).toNat) * 2 ^ 8 + (mem (cur + 3)).toNat := by
    iterate 4 rw [wordAt_bytes_succ]
    simp [wordAt]
  have hin : crc32In mem cur = ((((0 + (mem (cur + 0)).toNat <<< 24) % 2 ^ 32 +
      (mem (cur + 1)).toNat <<< 16) % 2 ^ 32 + (mem (cur + 2)).toNat <<< 8) % 2 ^ 32 +
      (mem (cur + 3)).toNat <<< 0) % 2 ^ 32 := rfl
  have h0 := hlt 0
  have h1 := hlt 1
  have h2 := hlt 2
  have h3 := hlt 3
  rw [show 32 = 8 * 4 by rfl, hsum, hin]
  omega

section Crc

variable {f : FieldDesc} {start : ℕ}

theorem spot_inCrc (hf : f.fieldType = .ftCrc) :
    (inCrc mem start f s).1.spot = s.spot.next mem start f := by
  have h8 : crc8Size = 8 := rfl
  have h32 : crc32Size = 32 := rfl
  unfold inCrc
  split_ifs with hc8 hc32
  · simp [InState.spot, Spot.next, Spot.ending, hf, hc8, h8, FieldType.isBits]
    omega
  · simp [InState.spot, Spot.next, Spot.ending, hf, hc32, h8, h32, FieldType.isBits]
    omega
  · simp [InState.spot, Spot.next, Spot.ending, hf, hc8, hc32, FieldType.isBits]

/-- The checksum is compared with the word at the octet of the cursor, even where the position is
inside that octet. -/
theorem accepts_inCrc (hf : f.fieldType = .ftCrc) :
    (inCrc mem start f s).2 = none ↔ s.spot.Accepts mem start f := by
  have hdiv : s.spot.pos / 8 = s.cur := bitPos_div _ _
  have h8 : crc8Size = 8 := rfl
  have h32 : crc32Size = 32 := rfl
  unfold inCrc
  split_ifs with hc8 hc32
  · have hword : wordAt mem (8 * s.cur) 8 = (mem s.cur).toNat := wordAt_byte s.cur
    simp [Spot.Accepts, hf, hc8, checksum, hdiv, h8, hword, UInt8.toNat_inj]
  · simp [Spot.Accepts, hf, hc32, checksum, hdiv, h8, h32, crc32In_eq]
  · simp [Spot.Accepts, hf, hc8, hc32]

theorem members_inCrc : (inCrc mem start f s).1.members = s.members := by
  unfold inCrc
  split_ifs <;> rfl

theorem inside_inCrc (hf : f.fieldType = .ftCrc) :
    (inCrc mem start f s).1.Inside roof ↔ s.Inside roof ∧ s.spot.Fits start roof f := by
  have hdiv : s.spot.pos / 8 = s.cur := bitPos_div _ _
  have h8 : crc8Size = 8 := rfl
  have h32 : crc32Size = 32 := rfl
  have hreads (k : ℕ) (hk : 0 < k) :
      (∀ a ∈ s.reads ++ List.range' start (s.cur - start) ++ List.range' s.cur k, a < roof) ↔
        (∀ a ∈ s.reads, a < roof) ∧ s.cur + k ≤ roof := by
    simp only [List.forall_mem_append, forall_mem_range'_lt, and_assoc]
    refine and_congr_right fun _ => ?_
    omega
  unfold inCrc
  split_ifs with hc8 hc32
  · have hone := hreads 1 (by decide)
    simp only [List.range'_one] at hone
    simp only [InState.inside_iff, hone, Spot.Fits, hf, hc8, hdiv, h8]
    tauto
  · have hfour := hreads 4 (by decide)
    simp only [InState.inside_iff, hfour, Spot.Fits, hf, hc32, hdiv, h8, h32]
    tauto
  · simp only [InState.inside_iff, Spot.Fits, hf]
    tauto

end Crc

section Field

variable {f : FieldDesc} {start : ℕ} {sd : String}

theorem inField_bits (h : f.fieldType.isBits) :
    inField mem sd start f s = inNumber mem sd f s := by
  unfold inField
  cases hf : f.fieldType <;> simp_all [FieldType.isBits]

theorem spot_inNumber (h : f.fieldType.isBits) :
    (inNumber mem sd f s).1.spot = s.spot.next mem start f := by
  have hspot := spot_inBits mem s f.size
  have hvalue := value_inBits mem s f.size
  simp only [InState.spot, Spot.mk.injEq] at hspot
  unfold inNumber
  cases hf : f.fieldType <;>
    simp_all [Spot.next, Spot.ending, InState.spot, FieldType.isBits]

theorem accepts_inNumber (h : f.fieldType.isBits) :
    (inNumber mem sd f s).2 = none ↔ s.spot.Accepts mem start f := by
  have hvalue := value_inBits mem s f.size
  unfold inNumber
  cases hf : f.fieldType <;> simp_all [Spot.Accepts, FieldType.isBits]

theorem members_inNumber (h : f.fieldType.isBits) :
    (inNumber mem sd f s).1.members = s.members ++ s.spot.filled mem start f := by
  have hmembers := members_inBits mem s f.size
  unfold inNumber
  cases hf : f.fieldType <;> simp_all [Spot.filled, FieldType.isBits]

theorem inside_inNumber (h : f.fieldType.isBits) :
    (inNumber mem sd f s).1.Inside roof ↔ s.Inside roof ∧ s.spot.Fits start roof f := by
  have hinside := inside_inBits mem s roof f.size
  simp only [InState.inside_iff] at hinside ⊢
  unfold inNumber
  cases hf : f.fieldType <;>
    simp_all [Spot.Fits, Spot.string, FieldType.isBits]

theorem spot_inDlStr (hf : f.fieldType = .ftDlStr) :
    (inDlStr mem s).spot = s.spot.next mem start f := by
  unfold inDlStr
  split <;> rename_i hp
  · rw [spot_inStr]
    simp [InState.spot, Spot.next, Spot.ending, Spot.string, hf, hp, FieldType.isBits]
  all_goals simp [InState.spot, Spot.next, Spot.ending, Spot.string, hf, hp, FieldType.isBits]

theorem members_inDlStr (hf : f.fieldType = .ftDlStr) :
    (inDlStr mem s).members = s.members ++ s.spot.filled mem start f := by
  unfold inDlStr
  split <;> rename_i hp
  · rw [members_inStr]
    simp [InState.spot, Spot.filled, Spot.string, hf, hp, FieldType.isBits]
  all_goals simp [InState.spot, Spot.filled, Spot.string, hf, hp, FieldType.isBits]

theorem inside_inDlStr (hf : f.fieldType = .ftDlStr) :
    (inDlStr mem s).Inside roof ↔ s.Inside roof ∧ s.spot.Fits start roof f := by
  unfold inDlStr
  split <;> rename_i hp
  · rw [inside_inStr]
    simp [InState.inside_iff, InState.spot, Spot.Fits, Spot.string, hf, hp]
  all_goals simp [InState.inside_iff, InState.spot, Spot.Fits, Spot.string, hf, hp,
    FieldType.isBits]

theorem rawLeft_spot (behind : ℕ) :
    s.spot.rawLeft start behind = s.pduLen - (s.cur - start) - (behind >>> 3 : ℕ) := by
  have hdiv : ((8 * s.cur + s.bitSize % 8 : ℕ) : ℤ) / 8 = s.cur := by omega
  simp only [Spot.rawLeft, InState.spot, hdiv, Nat.shiftRight_eq_div_pow,
    show 2 ^ 3 = 8 by rfl]

theorem spot_inPRaw {behind : ℕ} (hf : f.fieldType = .ftPRaw behind) :
    (inPRaw mem start behind s).spot = s.spot.next mem start f := by
  rw [inPRaw, spot_inStr, ← rawLeft_spot]
  simp [InState.spot, Spot.next, Spot.ending, Spot.string, hf, FieldType.isBits]

theorem members_inPRaw {behind : ℕ} (hf : f.fieldType = .ftPRaw behind) :
    (inPRaw mem start behind s).members = s.members ++ s.spot.filled mem start f := by
  rw [inPRaw, members_inStr, ← rawLeft_spot]
  simp [InState.spot, Spot.filled, Spot.string, hf, FieldType.isBits]

theorem inside_inPRaw {behind : ℕ} (hf : f.fieldType = .ftPRaw behind) :
    (inPRaw mem start behind s).Inside roof ↔ s.Inside roof ∧ s.spot.Fits start roof f := by
  rw [inPRaw, inside_inStr, ← rawLeft_spot]
  simp only [InState.inside_iff, Spot.Fits, hf, Bool.or_eq_false_iff, decide_eq_false_iff_not,
    not_lt]
  simp only [InState.spot]
  tauto

theorem spot_inPad (hf : f.fieldType = .ftPad) : (inPad s).spot = s.spot.next mem start f := by
  unfold inPad
  split_ifs with hb
  · simp [InState.spot, Spot.next, Spot.ending, Spot.string, octetBorder, hf, FieldType.isBits]
    omega
  · simp [InState.spot, Spot.next, Spot.ending, Spot.string, octetBorder, hf, FieldType.isBits]
    omega

/-- A field moves the spot of the decoder by the rule of positions. -/
theorem spot_inField : (inField mem sd start f s).1.spot = s.spot.next mem start f := by
  by_cases hbits : f.fieldType.isBits
  · rw [inField_bits hbits, spot_inNumber hbits]
  · unfold inField
    cases hf : f.fieldType with
    | ftPad => exact spot_inPad hf
    | ftCrc => exact spot_inCrc hf
    | ftDlStr => exact spot_inDlStr hf
    | ftPRaw behind => exact spot_inPRaw hf
    | ftFlStr len =>
      simp only [inFlStr, spot_inStr]
      simp [InState.spot, Spot.next, Spot.ending, Spot.string, hf, FieldType.isBits, initBufferPtr]
    | ftMac => simp [Spot.next, Spot.ending, Spot.string, hf, FieldType.isBits]
    | _ => simp [hf, FieldType.isBits] at hbits

/-- The decoder goes on exactly where the field holds what it insists on. -/
theorem accepts_inField : (inField mem sd start f s).2 = none ↔ s.spot.Accepts mem start f := by
  by_cases hbits : f.fieldType.isBits
  · rw [inField_bits hbits, accepts_inNumber hbits]
  · unfold inField
    cases hf : f.fieldType with
    | ftCrc => exact accepts_inCrc hf
    | ftPad | ftDlStr | ftPRaw _ | ftFlStr _ | ftMac => simp [Spot.Accepts, hf]
    | _ => simp [hf, FieldType.isBits] at hbits

/-- The decoder fills the members of the struct in order. -/
theorem members_inField :
    (inField mem sd start f s).1.members = s.members ++ s.spot.filled mem start f := by
  by_cases hbits : f.fieldType.isBits
  · rw [inField_bits hbits, members_inNumber hbits]
  · unfold inField
    cases hf : f.fieldType with
    | ftCrc => rw [members_inCrc]; simp [Spot.filled, Spot.string, hf, FieldType.isBits]
    | ftDlStr => exact members_inDlStr hf
    | ftPRaw behind => exact members_inPRaw hf
    | ftFlStr len =>
      simp only [inFlStr, members_inStr]
      simp [InState.spot, Spot.filled, Spot.string, hf, FieldType.isBits, initBufferPtr]
    | ftPad => simp [Spot.filled, Spot.string, hf, FieldType.isBits, inPad, apply_ite]
    | ftMac => simp [Spot.filled, Spot.string, hf, FieldType.isBits]
    | _ => simp [hf, FieldType.isBits] at hbits

/-- A field keeps the decoder inside exactly where it fits. -/
theorem inside_inField :
    (inField mem sd start f s).1.Inside roof ↔ s.Inside roof ∧ s.spot.Fits start roof f := by
  by_cases hbits : f.fieldType.isBits
  · rw [inField_bits hbits, inside_inNumber hbits]
  · unfold inField
    cases hf : f.fieldType with
    | ftCrc => exact inside_inCrc hf
    | ftDlStr => exact inside_inDlStr hf
    | ftPRaw behind => exact inside_inPRaw hf
    | ftFlStr len =>
      simp only [inFlStr, inside_inStr]
      simp [InState.spot, Spot.Fits, Spot.string, hf, initBufferPtr]
    | ftPad =>
      simp only [InState.inside_iff, inPad, apply_ite, Spot.Fits, Spot.string, hf, FieldType.isBits]
      simp
    | ftMac => simp [Spot.Fits, Spot.string, hf, FieldType.isBits]
    | _ => simp [hf, FieldType.isBits] at hbits

end Field

end LdacsSdk
