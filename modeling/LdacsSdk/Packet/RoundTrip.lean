import LdacsSdk.Packet.SubStream

/-!
# The round trip of a packet

`in_struct` on the bytes of `gen_pdu` gives the struct back.
-/
namespace LdacsSdk

open Library

variable {now total : ℕ} {late : FieldType → ℕ} {seen : List FieldType} {fs : List FieldDesc}
  {ms : List Member} {ps : List (Option Buffer)} {pos : ℕ} {l : Laid}
  {ok : FieldDesc → ℕ → Prop}

/-- The late numbers of a packet of `total` bytes, without an SDU length. -/
def lengths (total : ℕ) (t : FieldType) : ℕ := if t = .ftPlen then total else 0

/-- The member says what the packet says, in a width that keeps it clear of the sign of an `int`
where the decoder compares it. -/
def Plain (f : FieldDesc) (n : ℕ) : Prop :=
  match f.fieldType with
  | .ftEnum _ => f.size ≤ 31
  | .ftFix fixNum => f.size ≤ 31 ∧ n = fixNum
  | .ftTime => False
  | _ => True

theorem Plain.written {f : FieldDesc} {n : ℕ} (h : Plain f n) :
    writtenValue now f.fieldType n = n := by
  unfold Plain at h
  cases hf : f.fieldType <;> simp_all [writtenValue]

theorem Carries.getsThrough {f : FieldDesc} {n : ℕ} (hc : Carries now f n) (h : Plain f n) :
    GetsThrough f.fieldType (writtenValue now f.fieldType n) := by
  have hok := hc.ok
  have hint (h31 : f.size ≤ 31) : intToU64 (writtenValue now f.fieldType n) =
      writtenValue now f.fieldType n :=
    intToU64_of_lt (hc.fits.trans_le (Nat.pow_le_pow_right (by decide) h31))
  unfold Plain at h
  unfold GetsThrough
  cases hf : f.fieldType <;> simp_all [writtenValue]

/-- Plain values get through. -/
theorem Layout.getThrough (h : Layout now Plain late seen fs ms ps pos l) :
    GetThrough now fs ms := by
  induction h with
  | done => trivial
  | number hc hplain _ ih =>
    exact (getThrough_number hc.isBits _).mpr ⟨hc.getsThrough hplain, ih⟩
  | length htype _ _ _ _ _ ih =>
    rcases htype with ht | ht
    · exact (getThrough_number (by rw [ht]; rfl) _).mpr ⟨by simp [GetsThrough, ht], ih⟩
    · exact (getThrough_number (by rw [ht]; rfl) _).mpr ⟨by simp [GetsThrough, ht], ih⟩
  | pad hf _ ih => exact (getThrough_silent (.inl hf)).mpr ih
  | crc hf _ _ _ _ ih => exact (getThrough_silent (.inr hf)).mpr ih
  | flStr hf _ ih | dlStr hf _ _ _ _ ih | dlNull hf _ ih | pRaw hf _ _ _ _ _ ih =>
    exact (getThrough_string (by rw [hf]; rfl) (by simp [hf]) _).mpr ih

theorem Layout.slen_none (h : Layout now ok late seen fs ms ps pos l)
    (hslen : ∀ f ∈ fs, f.fieldType ≠ .ftSlen) : l.notes.slen = none := by
  induction h with
  | done => rfl
  | number _ _ _ ih | flStr _ _ ih | dlStr _ _ _ _ _ ih | dlNull _ _ ih | pRaw _ _ _ _ _ _ ih
  | pad _ _ ih | crc _ _ _ _ _ ih =>
    have hrest := ih fun f hf => hslen f (List.mem_cons_of_mem _ hf)
    simp [Laid.behind, Notes.after, hrest, Notes.blank]
  | length htype _ _ _ _ _ ih =>
    have hrest := ih fun f hf => hslen f (List.mem_cons_of_mem _ hf)
    have ht := htype.resolve_right (hslen _ List.mem_cons_self)
    simp [Laid.behind, Notes.after, hrest, ht, lengthNote, Notes.blank]

theorem openInFront_initPbs (base len : ℕ) : (initPbs base len).OpenInFront := by
  constructor <;> simp [initPbs]

/-- `gen_pdu` makes the bytes of a memory that holds the layout. -/
theorem Layout.genPdu {sd : StructDesc} (h : Layout now ok late [] sd.fields ms ps 0 l)
    (hslen : l.notes.slen = none) (hplen : late .ftPlen = total) (hstop : l.stop = 8 * total)
    (hmax : total ≤ 4096) (hsize : sizeofStruct sd.fields ≤ total) (base : ℕ) :
    ∃ mem vals, LdacsSdk.genPdu base now ms sd =
        some (cloneToChunk (bytesBetween mem base (base + total))) ∧
      Holds mem base late vals l := by
  have hroom : ¬(initPbs base 4096).NoRoom sd.fields := by
    have hroof : ((base + 4096 : ℕ) : ℤ) - base = (4096 : ℕ) := by
      push_cast
      ring
    simp only [PbStream.NoRoom, initPbs, hroof, u64_natCast (show 4096 < 2 ^ 64 by decide)]
    omega
  obtain ⟨r, obj, hout, ho⟩ := h.opens (fun _ => 0) (initPbs base 4096) rfl
    (openInFront_initPbs base 4096) hroom zeroFrom_zero (by omega)
  have hw := WrittenThrough.nothing r.mem ho.plenFld ho.crcFld
  have hcur : obj.cur = base + total := by
    have hobj := ho.cur
    simp only [initPbs] at hobj
    omega
  obtain ⟨vals, hholds⟩ := ho.sent h hw (by simp [hslen]) (by simp [hcur, hplen, initPbs])
  have hstart : (closeBoth r.mem r.outs obj).pbs.start = base := by
    simp only [closeBoth, pbs_closeOutputPbs, container_closeOutputPbs]
    exact ho.starts
  have hend : (closeBoth r.mem r.outs obj).pbs.cur = base + total := by
    simp only [closeBoth, pbs_closeOutputPbs, container_closeOutputPbs]
    exact hcur
  refine ⟨_, vals, ?_, hholds⟩
  simp only [LdacsSdk.genPdu, outStruct_closed hout ho.diag ho.made, Option.map_some]
  change some (cloneToChunk (bytesBetween _ (closeBoth r.mem r.outs obj).pbs.start
    (closeBoth r.mem r.outs obj).pbs.cur)) = _
  rw [hstart, hend]
  rfl

/-- **Round trip.** `in_struct` on the bytes that `gen_pdu` made of a struct returns TRUE with the
cursor at the end, and the struct is back, with the packet length in its `ft_plen` field. The sizes
in the descriptor, those of paddings and strings included, must not add up to more than the
packet. -/
theorem gen_pdu_in_struct {sd : StructDesc}
    (h : Layout now Plain (lengths total) [] sd.fields ms ps 0 l)
    (hslen : ∀ f ∈ sd.fields, f.fieldType ≠ .ftSlen) (hstop : l.stop = 8 * total)
    (hmax : total ≤ 4096) (hsize : sizeofStruct sd.fields ≤ total) (base addr junk : ℕ) :
    ∃ b, genPdu base now ms sd = some b ∧ b.content.length = total ∧
      ∀ mem, bytesBetween mem addr (addr + total) = b.content →
        let r := inStruct mem junk sd ps (initPbs addr total) false
        r.diag = none ∧ r.ins.cur = addr + total ∧
          Reproduces (lengths total) sd.fields ms r.state.members := by
  have hplen : lengths total .ftPlen = total := if_pos rfl
  obtain ⟨mem, vals, hgen, hholds⟩ :=
    h.genPdu (h.slen_none hslen) hplen hstop hmax hsize base
  refine ⟨_, hgen, by simp [bytesBetween], ?_⟩
  intro mem' hbytes r
  have hsame : ∀ i, 8 * i < l.stop → mem' (addr + i) = mem (base + i) := by
    intro i hi
    have hget := congrArg (·[i]?) hbytes
    simpa [bytesBetween, show i < total by omega] using hget
  have hback := h.readsBack (hholds.moved h hsame) (p := (initPbs addr total).spot ps)
    rfl ⟨[], by simp [PbStream.spot]⟩ (by simp)
  have haccepts := hback.accepts.mpr h.getThrough
  have hroom : ¬(initPbs addr total).NoRoom sd.fields := by
    have hroof : ((addr + total : ℕ) : ℤ) - addr = (total : ℕ) := by
      push_cast
      ring
    simp only [PbStream.NoRoom, initPbs, hroof, u64_natCast (show total < 2 ^ 64 by omega)]
    omega
  obtain ⟨hdiag, hcur, -, hmembers, -⟩ := inStruct_accepted mem' junk false hroom haccepts
  refine ⟨hdiag, ?_, ?_⟩
  · have hend := hback.pos
    simp only [r, hcur, Bool.false_eq_true, if_false]
    simp only [initPbs] at hend ⊢
    omega
  · rw [hmembers]
    exact hback.members fun f n hplain => hplain.written

/-- A packet with fields at odd offsets, a length, padding, a string and a checksum. -/
theorem gen_pdu_in_struct_raw :
    let sd : StructDesc := ⟨"HEAD", [⟨.ftSet, 5, "TYPE"⟩, ⟨.ftPlen, 10, "PLEN"⟩, ⟨.ftPad, 0, "PAD"⟩,
      ⟨.ftPRaw 8, 0, "SDU"⟩, ⟨.ftCrc, 8, "CRC"⟩]⟩
    let ms := [.num 21, .num 0, .str (some (cloneToChunk [0xe2, 0xd4]))]
    ∃ b, genPdu 0 0 ms sd = some b ∧ b.content.length = 5 ∧
      ∀ mem, bytesBetween mem 100 (100 + 5) = b.content →
        let r := inStruct mem 0 sd [] (initPbs 100 5) false
        r.diag = none ∧ r.ins.cur = 100 + 5 ∧
          Reproduces (lengths 5) sd.fields ms r.state.members := by
  intro sd ms
  have htype : Carries 0 ⟨.ftSet, 5, "TYPE"⟩ 21 := by
    constructor <;> decide
  have hlayout : Layout 0 Plain (lengths 5) [] sd.fields ms [] 0 _ := .number htype trivial
    (.length (f := ⟨.ftPlen, 10, "PLEN"⟩) (.inl rfl) (by decide) (by decide) (by decide)
      (by decide) (.pad (f := ⟨.ftPad, 0, "PAD"⟩) rfl
        (.pRaw (f := ⟨.ftPRaw 8, 0, "SDU"⟩) (b := cloneToChunk [0xe2, 0xd4]) rfl (by decide)
          (by decide) (by decide) (by decide)
          (.crc (f := ⟨.ftCrc, 8, "CRC"⟩) rfl (.inl rfl) (by decide) (by decide) .done))))
  exact gen_pdu_in_struct hlayout (by decide) (by decide) (by decide) (by decide) 0 100 0

/-- Padding with a size of its own: `gen_pdu` makes one byte, and `in_struct` has no room for it. -/
theorem in_struct_refuses_sized_pad :
    let sd : StructDesc := ⟨"S", [⟨.ftSet, 8, "TYPE"⟩, ⟨.ftPad, 8, "PAD"⟩]⟩
    (∃ l, Layout 0 Plain (lengths 1) [] sd.fields [.num 5] [] 0 l ∧ l.stop = 8 * 1) ∧
      (genPdu 0 0 [.num 5] sd).map Buffer.content = some [5] ∧
      (inStruct (fun _ => 5) 0 sd [] (initPbs 0 1) false).diag = some (.noRoomIn "S") := by
  intro sd
  have htype : Carries 0 ⟨.ftSet, 8, "TYPE"⟩ 5 := by
    constructor <;> decide
  have hlayout : Layout 0 Plain (lengths 1) [] sd.fields [.num 5] [] 0 _ :=
    .number htype trivial (.pad (f := ⟨.ftPad, 8, "PAD"⟩) rfl .done)
  exact ⟨⟨_, hlayout, by decide⟩, by decide, by decide⟩

end LdacsSdk
