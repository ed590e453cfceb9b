import LdacsSdk.Packet.SubStream

/-!
# Headers and payloads

The encoder counts the length of a payload from the last padding of its header on, the decoder
makes the sub-stream end there too, but moves on by that length from behind the header.
-/
namespace LdacsSdk

open Library

variable {now start : ℕ} {ok : FieldDesc → ℕ → Prop} {late : FieldType → ℕ}
  {seen : List FieldType} {fs : List FieldDesc} {ms : List Member} {ps : List (Option Buffer)}
  {pos : ℕ} {l : Laid} {mem mem' mem'' : Mem} {outs obj obj' ins : PbStream}

/-- `in_struct` succeeded, its sub-stream still holds the payload, and the stream goes on where
the sub-stream ends. -/
def YieldsPayload (mem : Mem) (payload : List UInt8) (r : InResult) : Prop :=
  r.diag = none ∧ ∃ sub, r.obj = some sub ∧ bytesBetween mem sub.cur sub.roof = payload ∧
    r.ins.cur = sub.roof

theorem Layout.payload_le (h : Layout now ok late seen fs ms ps pos l) {a : ℕ}
    (ha : l.notes.payload = some a) : 8 * a ≤ l.stop := by
  induction h with
  | done => cases ha
  | number _ _ _ ih | flStr _ _ ih | dlStr _ _ _ _ _ ih | pRaw _ _ _ _ _ _ ih | crc _ _ _ _ _ ih =>
    exact ih (by simpa [Laid.behind, Notes.after, Notes.blank] using ha)
  | dlNull _ _ ih => exact ih ha
  | length htype _ _ _ _ _ ih =>
    rcases htype with ht | ht <;>
      exact ih (by simpa [Laid.behind, Notes.after, ht, lengthNote, Notes.blank] using ha)
  | @pad seen f fs ms ps pos l _ hrest ih =>
    simp only [Laid.behind, Notes.after, Option.or_some, Option.some.injEq] at ha
    cases hp : l.notes.payload with
    | none =>
      rw [hp, Option.getD_none] at ha
      have hle := hrest.inPlace.le
      simp only [Laid.behind, octetBorder] at ha hle ⊢
      omega
    | some b =>
      rw [hp, Option.getD_some] at ha
      exact ih (by rw [hp, ha])

theorem length_bytesBetween (mem : Mem) (a b : ℕ) : (bytesBetween mem a b).length = b - a := by
  simp [bytesBetween]

/-- The place of a length ends in the packet. -/
theorem LengthAt.stop_le (h : Layout now ok late seen fs ms ps pos l) {t : FieldType}
    {fld : Option ℕ} {shift : ℤ} (hat : LengthAt start pos fld shift (l.notes.place t)) {cur : ℕ}
    (hcur : fld = some cur) : 8 * (cur + 1 : ℤ) + shift ≤ (8 * start + l.stop : ℕ) := by
  have hle := h.inPlace.le
  cases hplace : l.notes.place t with
  | none =>
    rw [hplace] at hat
    have hfront := hat cur hcur
    omega
  | some place =>
    obtain ⟨p, w⟩ := place
    rw [hplace] at hat
    have hwithin := (h.inPlace.within _ ((h.late_iff t p w).mpr hplace)).2
    simp only at hwithin
    obtain ⟨hfld, rfl⟩ := hat
    rw [hfld, Option.some.injEq] at hcur
    omega

theorem CrcAt.stop_le (h : Layout now ok late seen fs ms ps pos l) {pbs : PbStream}
    (hat : CrcAt start pos pbs l.notes.crc) {cur : ℕ} (hcur : pbs.crcFld = some cur) :
    8 * cur + pbs.crcSize ≤ 8 * start + l.stop := by
  have hle := h.inPlace.le
  cases hplace : l.notes.crc with
  | none =>
    rw [hplace] at hat
    have hfront := hat cur hcur
    omega
  | some place =>
    obtain ⟨p, w⟩ := place
    rw [hplace] at hat
    have hwithin := (h.inPlace.within _ ((h.late_iff .ftCrc p w).mpr hplace)).2
    simp only at hwithin
    obtain ⟨hfld, rfl⟩ := hat
    rw [hfld, Option.some.injEq] at hcur
    omega

/-- Closing the container leaves the payload alone. -/
theorem Opened.payload_kept {r : OutResult} (ho : Opened start pos l r obj)
    (h : Layout now ok late seen fs ms ps pos l) (mem' : Mem) (obj' : PbStream) {a : ℕ}
    (ha : obj.cur ≤ a) :
    (closeBoth mem' r.outs obj').mem a = (closeOutputPbs mem' (some r.outs) obj').mem a := by
  have hstop := ho.cur
  have hle := h.inPlace.le
  apply byte_eq_of_bits
  intro q hq _
  rw [closeBoth, mem_closeOutputPbs, container_closeOutputPbs, Option.map_some, Option.getD_some,
    closeCrc_frame, fillAt_frame, fillAt_frame]
  · intro cur hcur
    have houter := ho.outer cur hcur
    right
    dsimp only
    omega
  · intro cur hcur
    have hend := LengthAt.stop_le h (t := .ftPlen) ho.plen hcur
    right
    dsimp only
    omega
  · intro cur hcur
    have hend := CrcAt.stop_le h ho.crc hcur
    right
    dsimp only
    omega

/-- **Nesting.** After a header with an `ft_slen` field, `in_struct` yields the payload that was
written through the `obj_pbs` of `out_struct`, and leaves the stream where the payload ends,
exactly where its room test passes, the enumeration and fixed values get through, nothing follows
the last padding of the header, and the length stays clear of the sign bit. -/
theorem in_struct_yields_payload_iff {sd : StructDesc} {r : OutResult} {a : ℕ}
    (h : Layout now (fun _ _ => True) late [] sd.fields ms ps pos l) (hstop : l.stop % 8 = 0)
    (hslen : l.notes.slen ≠ none) (hpad : l.notes.payload = some a)
    (hpos : 8 * outs.cur + outs.bitsize % 8 = 8 * outs.start + pos) (hfront : outs.OpenInFront)
    (hroom : ¬outs.NoRoom sd.fields) (hzero : ZeroFrom mem (8 * outs.start + pos))
    (hout : outStruct mem now sd ms outs true = some r) (hobj : r.obj = some obj)
    (hw : WrittenThrough r.mem obj mem' obj') (hsdu : obj'.cur = obj.start + late .ftSlen)
    (hpdu : obj'.cur = outs.start + late .ftPlen)
    (hins : 8 * ins.cur + ins.bitsize % 8 = 8 * ins.start + pos)
    (hsent : ∀ i < obj'.cur - outs.start,
      mem'' (ins.start + i) = (closeBoth mem' r.outs obj').mem (outs.start + i)) (junk : ℕ) :
    YieldsPayload mem''
        (bytesBetween (closeOutputPbs mem' (some r.outs) obj').mem obj.cur obj'.cur)
        (inStruct mem'' junk sd ps ins true) ↔
      ¬ins.NoRoom sd.fields ∧ GetThrough now sd.fields ms ∧ 8 * a = l.stop ∧
        late .ftSlen < 2 ^ 31 := by
  obtain ⟨r', obj₁, hout', ho⟩ := h.opens mem outs hpos hfront hroom hzero hstop
  rw [hout, Option.some.injEq] at hout'
  subst hout'
  have hsame : obj₁ = obj := by
    rw [ho.made] at hobj
    exact Option.some.inj hobj
  subst hsame
  obtain ⟨vals, hholds⟩ := ho.sent h hw (fun _ => hsdu) (fun _ => hpdu)
  have hle := h.payload_le hpad
  have hobjStart : obj₁.start = outs.start + a := by
    rw [ho.payload, hpad]
    rfl
  have hobjCur := ho.cur
  have hforward := hw.forward
  have hlt32 : late .ftSlen < 2 ^ 32 := by
    obtain ⟨⟨p, w⟩, hplace⟩ := Option.ne_none_iff_exists'.mp hslen
    obtain ⟨hfits, hw32⟩ := h.late_fits (t := .ftSlen) (.inr rfl) hplace
    exact hfits.trans_le (Nat.pow_le_pow_right (by decide) hw32)
  have hback := h.readsBack (hholds.moved h fun i hi => hsent i (by omega))
    (p := ins.spot ps) hins ⟨[], by simp [PbStream.spot]⟩ (by simp)
  by_cases hnoroom : ins.NoRoom sd.fields
  · rw [inStruct_noRoom mem'' junk ps true hnoroom]
    simp [YieldsPayload, hnoroom]
  by_cases hthrough : GetThrough now sd.fields ms
  · obtain ⟨hdiag, hcur, -, -, hsub⟩ :=
      inStruct_accepted mem'' junk true hnoroom (hback.accepts.mpr hthrough)
    have hwalk := hback.pos
    have hpayload := hback.payload
    have hlen := hback.sdu
    rw [hpad, Option.map_some, Option.some_or] at hpayload
    rw [if_pos (Option.isSome_iff_ne_none.mpr hslen)] at hlen
    simp only [if_true, hpayload, hlen, Option.getD_some] at hcur hsub
    have hdiv : ((ins.spot ps).walk mem'' ins.start sd.fields).pos / 8 =
        ins.start + l.stop / 8 := by omega
    rw [hdiv] at hcur hsub
    simp only [YieldsPayload, hdiag, hsub, hcur, hnoroom, hthrough, initPbs, true_and,
      not_false_eq_true, Option.some.injEq, exists_eq_left']
    constructor
    · rintro ⟨hbytes, hend⟩
      have hlast : 8 * a = l.stop := by omega
      have hlength := congrArg List.length hbytes
      simp only [length_bytesBetween] at hlength
      have hself : intToU64 (late .ftSlen) = late .ftSlen := by omega
      exact ⟨hlast, (intToU64_eq_self hlt32).mp hself⟩
    · rintro ⟨hlast, hlt⟩
      rw [intToU64_of_lt hlt]
      refine ⟨?_, by omega⟩
      rw [show ins.start + a = ins.start + l.stop / 8 by omega,
        show obj'.cur = obj₁.cur + late .ftSlen by omega]
      apply bytesBetween_moved
      intro i hi
      rw [← ho.payload_kept h mem' obj' (Nat.le_add_right _ i),
        show obj₁.cur + i = outs.start + (l.stop / 8 + i) by omega, Nat.add_assoc]
      apply hsent
      omega
  · obtain ⟨-, -, hdiag⟩ := inStruct_refused mem'' junk true (mt hback.accepts.mp hthrough)
    simp [YieldsPayload, hdiag, hthrough]

/-- One byte behind a header that ends with its padding. -/
theorem in_struct_yields_byte :
    let sd : StructDesc := ⟨"HEAD", [⟨.ftSlen, 8, "LEN"⟩, ⟨.ftPad, 0, "PAD"⟩]⟩
    ∃ r obj, outStruct (fun _ => 0) 0 sd [.num 0] (initPbs 0 64) true = some r ∧
      r.obj = some obj ∧
      let c := closeBoth (Function.update r.mem 1 7) r.outs { obj with cur := 2 }
      YieldsPayload c.mem [7] (inStruct c.mem 0 sd [] (initPbs 0 64) true) := by
  intro sd
  let r := (outStruct (fun _ => 0) 0 sd [.num 0] (initPbs 0 64) true).get (by decide)
  let obj : PbStream := ⟨1, 1, 64, some 0, none, none, none, 0, 0, 0, 0⟩
  have hobj : r.obj = some obj := by decide
  have hout : outStruct (fun _ => 0) 0 sd [.num 0] (initPbs 0 64) true = some r :=
    (Option.some_get _).symm
  refine ⟨r, obj, hout, hobj, ?_⟩
  intro c
  have hlayout : Layout 0 (fun _ _ => True) (fun t => if t = .ftSlen then 1 else 2) [] sd.fields
      [.num 0] [] 0 _ :=
    .length (f := ⟨.ftSlen, 8, "LEN"⟩) (.inr rfl) (by decide) (by decide) (by decide) (by decide)
      (.pad (f := ⟨.ftPad, 0, "PAD"⟩) rfl .done)
  have hw : WrittenThrough r.mem obj (Function.update r.mem 1 7) { obj with cur := 2 } := by
    constructor
    · rfl
    · rfl
    · rfl
    · decide
    · intro q hq
      exact bitAt_update_of_ne 7 (by simp only [obj] at hq; omega)
    · simp [obj]
    · simp [obj]
  have hfront : (initPbs 0 64).OpenInFront := by
    constructor <;> simp [initPbs]
  have hyields : YieldsPayload c.mem
      (bytesBetween (closeOutputPbs (Function.update r.mem 1 7) (some r.outs)
        { obj with cur := 2 }).mem obj.cur 2)
      (inStruct c.mem 0 sd [] (initPbs 0 64) true) :=
    (in_struct_yields_payload_iff hlayout (by decide) (by decide) rfl rfl hfront
      (by unfold PbStream.NoRoom; decide) zeroFrom_zero hout hobj hw rfl rfl rfl (fun i _ => rfl)
      0).mpr ⟨by unfold PbStream.NoRoom; decide,
        by simp [GetThrough, GetsThrough, FieldType.isBits, sd], by decide, by decide⟩
  have hpaid : bytesBetween (closeOutputPbs (Function.update r.mem 1 7) (some r.outs)
      { obj with cur := 2 }).mem obj.cur 2 = [7] := by decide
  rwa [hpaid] at hyields

/-- A byte of header behind the padding: the stream goes on one byte too far. -/
theorem in_struct_skips_too_far :
    let sd : StructDesc :=
      ⟨"HEAD", [⟨.ftSlen, 8, "LEN"⟩, ⟨.ftPad, 0, "PAD"⟩, ⟨.ftSet, 8, "TYPE"⟩]⟩
    let obj : PbStream := ⟨1, 2, 64, some 0, none, none, none, 0, 0, 0, 0⟩
    ∃ r, outStruct (fun _ => 0) 0 sd [.num 0, .num 9] (initPbs 0 64) true = some r ∧
      r.obj = some obj ∧
      let c := closeBoth (Function.update r.mem 2 7) r.outs { obj with cur := 3 }
      let r' := inStruct c.mem 0 sd [] (initPbs 0 64) true
      bytesBetween c.mem 0 3 = [2, 9, 7] ∧ r'.diag = none ∧
        r'.obj.map (fun sub => bytesBetween c.mem sub.cur sub.roof) = some [7] ∧
        r'.obj.map PbStream.roof = some 3 ∧ r'.ins.cur = 4 := by
  intro sd obj
  exact ⟨(outStruct (fun _ => 0) 0 sd [.num 0, .num 9] (initPbs 0 64) true).get (by decide),
    (Option.some_get _).symm, by decide, by decide, by decide, by decide, by decide, by decide⟩

end LdacsSdk
