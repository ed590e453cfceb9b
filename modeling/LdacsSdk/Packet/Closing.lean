import LdacsSdk.Packet.Written

/-!
# Closing a packet

`close_output_pbs` fills in the lengths and the checksum. The place of a late number is known from
the layout, or it belongs to what was written earlier and lies in front of the packet.
-/
namespace LdacsSdk

open Library

variable {now start : ℕ} {ok : FieldDesc → ℕ → Prop} {late : FieldType → ℕ}
  {seen : List FieldType} {fs : List FieldDesc} {ms : List Member} {ps : List (Option Buffer)}
  {pos : ℕ} {l : Laid} {mem mem' : Mem} {sd : String}

/-- Memories that agree in front of the end of a packet spell the same. -/
theorem Spells.congr (h : Layout now ok late seen fs ms ps pos l) {vals : FieldType → ℕ}
    (hspells : Spells mem start vals l.slots)
    (hsame : ∀ q, 8 * start + pos ≤ q → q < 8 * start + l.stop → bitAt mem' q = bitAt mem q) :
    Spells mem' start vals l.slots := by
  intro k hk
  have hplace := h.inPlace.within k hk
  rw [← hspells k hk]
  apply wordAt_congr
  intro q hlo hhi
  apply hsame
  all_goals omega

/-- A length goes into the octets from its cursor to the end of its place. -/
theorem fillLength_frame (v cur : ℕ) (shift : ℤ) {q : ℕ}
    (hq : q < 8 * cur ∨ 8 * (cur + 1 : ℤ) + shift ≤ q) :
    bitAt (fillLength mem v cur shift).mem q = bitAt mem q := by
  by_cases hend : 0 ≤ 8 + shift
  · obtain ⟨E, hE⟩ := Int.eq_ofNat_of_zero_le (show 0 ≤ 8 * (cur + 1 : ℤ) + shift by omega)
    obtain ⟨-, hbits⟩ := appendBits_spec v (E := E) ⟨mem, cur, shift, []⟩ hE.symm (by
      simp only
      omega)
    have hout : ¬(8 * cur ≤ q ∧ q < E) := by omega
    rw [fillLength, hbits q]
    simp [hout]
  · have hnone : (shift + 8).toNat = 0 := by omega
    rw [fillLength, appendBits, hnone]
    rfl

/-- Merging a length into its cleared place makes the place spell it, and touches nothing else. -/
theorem fillLength_spec {p w v : ℕ} (hzero : wordAt mem p w = 0) (hfits : v < 2 ^ w) :
    let a := fillLength mem v (p / 8) (w - (8 - (p % 8 : ℕ)))
    wordAt a.mem p w = v ∧ ∀ q, q < p ∨ p + w ≤ q → bitAt a.mem q = bitAt mem q := by
  intro a
  obtain ⟨-, hdrawn, -⟩ := appendField_spec mem (p / 8) p w v []
  rw [Nat.div_add_mod] at hdrawn
  change Drawn mem a.mem [⟨p, w, v⟩] at hdrawn
  have hk : (⟨p, w, v⟩ : Stroke).Fits := hfits
  constructor
  · apply hdrawn.word_of_alone (k := ⟨p, w, v⟩) (List.mem_singleton_self _) hk
    · intro q hlo hhi
      rw [bitAt_eq_testBit_wordAt (w := w) hlo hhi, hzero, Nat.zero_testBit]
    · intro m hm hne
      exact absurd (List.mem_singleton.mp hm) hne
  · intro q hq
    apply hdrawn.unchanged
    intro m hm
    rw [List.mem_singleton.mp hm]
    rcases hq with hq | hq
    · exact hk.sets_before hq
    · exact Stroke.sets_behind hq

/-- A length filled in, if there is a place for it. -/
def fillAt (mem : Mem) (v : ℕ) (fld : Option ℕ) (shift : ℤ) : Mem :=
  match fld with
  | some cur => (fillLength mem v cur shift).mem
  | none => mem

/-- The place of a length is where the notes say, or else in front of the packet. -/
def LengthAt (start pos : ℕ) (fld : Option ℕ) (shift : ℤ) (note : Option (ℕ × ℕ)) : Prop :=
  match note with
  | some (p, w) => fld = some ((8 * start + p) / 8) ∧ shift = w - (8 - ((8 * start + p) % 8 : ℕ))
  | none => ∀ cur, fld = some cur → 8 * (cur + 1 : ℤ) + shift ≤ 8 * start + pos

theorem fillAt_frame (v : ℕ) {fld : Option ℕ} {shift : ℤ} {q : ℕ}
    (hq : ∀ cur, fld = some cur → q < 8 * cur ∨ 8 * (cur + 1 : ℤ) + shift ≤ q) :
    bitAt (fillAt mem v fld shift) q = bitAt mem q := by
  cases fld with
  | none => rfl
  | some cur => exact fillLength_frame v cur shift (hq cur rfl)

/-- Filling in a length. -/
theorem Spells.fillAt (h : Layout now ok late seen fs ms ps pos l) {vals : FieldType → ℕ}
    (hspells : Spells mem start vals l.slots) {t : FieldType} (hvals : vals t = 0) (v v' : ℕ)
    {fld : Option ℕ} {shift : ℤ} (hat : LengthAt start pos fld shift (l.notes.place t))
    (hv : ∀ p w, l.notes.place t = some (p, w) → v = v' ∧ v < 2 ^ w) :
    Spells (LdacsSdk.fillAt mem v fld shift) start (Function.update vals t v') l.slots := by
  cases hplace : l.notes.place t with
  | none =>
    rw [hplace] at hat
    apply Spells.unplaced h _ hplace
    apply hspells.congr h
    intro q hlo _
    apply fillAt_frame
    intro cur hcur
    have hfront := hat cur hcur
    omega
  | some place =>
    obtain ⟨p, w⟩ := place
    rw [hplace] at hat
    obtain ⟨rfl, rfl⟩ := hat
    obtain ⟨rfl, hfits⟩ := hv p w hplace
    have hzero : wordAt mem (8 * start + p) w = 0 := by
      have hword := hspells _ ((h.late_iff t p w).mpr hplace)
      simpa [Slot.value, hvals] using hword
    obtain ⟨hword, hout⟩ := fillLength_spec hzero hfits
    exact hspells.fill h hplace hout hword

/-- The rounds of the loop written out. -/
theorem putCrc32_eq (mem : Mem) (c : ℕ) (crc : UInt32) :
    putCrc32 mem c crc = Function.update (Function.update (Function.update
      (Function.update mem (c + 0) (UInt8.ofNat ((crc.toNat >>> 24) &&& 0xFF))) (c + 1)
      (UInt8.ofNat ((crc.toNat >>> 16) &&& 0xFF))) (c + 2)
      (UInt8.ofNat ((crc.toNat >>> 8) &&& 0xFF))) (c + 3)
      (UInt8.ofNat ((crc.toNat >>> 0) &&& 0xFF)) := rfl

theorem putCrc32_spec (mem : Mem) (c : ℕ) (crc : UInt32) :
    wordAt (putCrc32 mem c crc) (8 * c) 32 = crc.toNat ∧
      ∀ q, q < 8 * c ∨ 8 * c + 32 ≤ q → bitAt (putCrc32 mem c crc) q = bitAt mem q := by
  constructor
  · have hlt : crc.toNat < 2 ^ 32 := crc.toNat_lt
    have hbyte (n : ℕ) : (UInt8.ofNat (n &&& 0xFF)).toNat = n % 256 := by
      rw [show 0xFF = 2 ^ 8 - 1 by rfl, Nat.and_two_pow_sub_one_eq_mod, UInt8.toNat_ofNat']
      omega
    have hin (m : Mem) : crc32In m c = ((((0 + (m (c + 0)).toNat <<< 24) % 2 ^ 32 +
        (m (c + 1)).toNat <<< 16) % 2 ^ 32 + (m (c + 2)).toNat <<< 8) % 2 ^ 32 +
        (m (c + 3)).toNat <<< 0) % 2 ^ 32 := rfl
    have h0 : putCrc32 mem c crc (c + 0) = UInt8.ofNat ((crc.toNat >>> 24) &&& 0xFF) := by
      simp [putCrc32_eq]
    have h1 : putCrc32 mem c crc (c + 1) = UInt8.ofNat ((crc.toNat >>> 16) &&& 0xFF) := by
      simp [putCrc32_eq]
    have h2 : putCrc32 mem c crc (c + 2) = UInt8.ofNat ((crc.toNat >>> 8) &&& 0xFF) := by
      simp [putCrc32_eq]
    have h3 : putCrc32 mem c crc (c + 3) = UInt8.ofNat ((crc.toNat >>> 0) &&& 0xFF) := by
      simp [putCrc32_eq]
    rw [← crc32In_eq, hin, h0, h1, h2, h3, hbyte, hbyte, hbyte, hbyte]
    omega
  · intro q hq
    rw [putCrc32_eq]
    iterate 4 rw [bitAt_update_of_ne _ (by omega)]

theorem bytesBetween_congr {a b : ℕ}
    (h : ∀ q < 8 * b, bitAt mem' q = bitAt mem q) :
    bytesBetween mem' a b = bytesBetween mem a b := by
  apply List.map_congr_left
  intro x hx
  have hrange := List.mem_range'_1.mp hx
  have hbyte : x < b := by omega
  apply byte_eq_of_bits
  intro q _ hq
  apply h
  omega

theorem Layout.crc_place (h : Layout now ok late seen fs ms ps pos l) {p w : ℕ}
    (hplace : l.notes.place .ftCrc = some (p, w)) :
    p % 8 = 0 ∧ (w = crc8Size ∨ w = crc32Size) := by
  induction h with
  | done => cases hplace
  | number _ _ _ ih | flStr _ _ ih | dlStr _ _ _ _ _ ih | pRaw _ _ _ _ _ _ ih =>
    rw [place_behind, place_blank, Option.or_none] at hplace
    exact ih hplace
  | pad _ _ ih =>
    rw [place_behind, place_payload, Option.or_none] at hplace
    exact ih hplace
  | dlNull _ _ ih => exact ih hplace
  | @length seen f fs ms ps pos l htype _ _ _ _ _ ih =>
    have hne : FieldType.ftCrc ≠ f.fieldType := by
      rcases htype with ht | ht <;> rw [ht] <;> decide
    rw [place_behind, place_lengthNote htype, if_neg hne, Option.or_none] at hplace
    exact ih hplace
  | @crc seen f fs ms ps pos l _ hsize halign _ hrest ih =>
    rw [place_behind, (hrest.seen_absent List.mem_cons_self).1, place_crc, if_pos rfl,
      Option.none_or, Option.some.injEq, Prod.mk.injEq] at hplace
    obtain ⟨rfl, rfl⟩ := hplace
    exact ⟨halign, hsize⟩

/-- The place of the checksum is where the notes say, or else in front of the packet. -/
def CrcAt (start pos : ℕ) (pbs : PbStream) (note : Option (ℕ × ℕ)) : Prop :=
  match note with
  | some (p, w) => pbs.crcFld = some ((8 * start + p) / 8) ∧ pbs.crcSize = w
  | none => ∀ cur, pbs.crcFld = some cur → 8 * cur + pbs.crcSize ≤ 8 * start + pos

/-- A checksum goes into its octets. -/
theorem closeCrc_frame {pbs : PbStream} {q : ℕ}
    (hq : ∀ cur, pbs.crcFld = some cur → q < 8 * cur ∨ 8 * cur + pbs.crcSize ≤ q) :
    bitAt (closeCrc mem pbs).mem q = bitAt mem q := by
  unfold closeCrc
  split
  · rename_i cur hcur
    have hout := hq cur hcur
    split_ifs with h8 h32
    · simp only [h8, crc8Size] at hout
      apply bitAt_update_of_ne
      omega
    · simp only [h32, crc32Size] at hout
      exact (putCrc32_spec mem cur _).2 q hout
    · rfl
  · rfl

/-- The checksum is filled in over the bytes from the start of the stream. -/
theorem Spells.closeCrc (h : Layout now ok late seen fs ms ps pos l) {vals : FieldType → ℕ}
    (hspells : Spells mem start vals l.slots) {pbs : PbStream} (hstart : pbs.start = start)
    (hat : CrcAt start pos pbs l.notes.crc) :
    ∃ crc, Spells (LdacsSdk.closeCrc mem pbs).mem start (Function.update vals .ftCrc crc) l.slots ∧
      (∀ p w, l.notes.place .ftCrc = some (p, w) →
        crc = checksum (LdacsSdk.closeCrc mem pbs).mem start (8 * start + p) w) := by
  cases hplace : l.notes.place .ftCrc with
  | none =>
    have hnone : l.notes.crc = none := hplace
    rw [hnone] at hat
    refine ⟨0, ?_, by simp⟩
    apply Spells.unplaced h _ hplace
    apply hspells.congr h
    intro q hlo _
    apply closeCrc_frame
    intro cur hcur
    have hfront := hat cur hcur
    omega
  | some place =>
    obtain ⟨p, w⟩ := place
    obtain ⟨halign, hsize⟩ := h.crc_place hplace
    have hsome : l.notes.crc = some (p, w) := hplace
    rw [hsome] at hat
    obtain ⟨hfld, hw⟩ := hat
    obtain ⟨c, hc⟩ : ∃ c, 8 * start + p = 8 * c := ⟨(8 * start + p) / 8, by omega⟩
    have hdiv : (8 * start + p) / 8 = c := by omega
    rw [hdiv] at hfld
    refine ⟨_, hspells.fill h hplace ?_ rfl, ?_⟩
    · intro q hq
      rcases hsize with rfl | rfl
      · simp only [LdacsSdk.closeCrc, hfld, hw, if_true]
        apply bitAt_update_of_ne
        simp only [crc8Size] at hq
        omega
      · simp only [LdacsSdk.closeCrc, hfld, hw, crc32Size, crc8Size] at hq ⊢
        apply (putCrc32_spec mem c _).2
        omega
    · intro p' w' hpw
      obtain ⟨rfl, rfl⟩ := Prod.mk.inj (Option.some.inj hpw)
      rw [hc, checksum, Nat.mul_div_cancel_left c (by decide)]
      rcases hsize with rfl | rfl
      · simp only [LdacsSdk.closeCrc, hfld, hw, if_true]
        have hsame (b : UInt8) :
            bytesBetween (Function.update mem c b) start c = bytesBetween mem start c :=
          bytesBetween_congr fun q hq => bitAt_update_of_ne b (by omega)
        rw [crc8Size, wordAt_byte, Function.update_self, hstart, hsame]
      · have hne : crc32Size ≠ crc8Size := by decide
        simp only [LdacsSdk.closeCrc, hfld, hw, if_neg hne, if_true]
        obtain ⟨hword, hout⟩ := putCrc32_spec mem c
          (calCrc32bits (bytesBetween mem pbs.start c))
        rw [crc32Size, hword, hstart]
        congr 2
        exact (bytesBetween_congr fun q hq => hstart ▸ hout q (.inl hq)).symm

end LdacsSdk
