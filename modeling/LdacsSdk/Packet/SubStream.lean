import LdacsSdk.Packet.ReadBack

/-!
# Writing through a sub-stream

`out_struct` with an `obj_pbs` leaves the length open, the payload is written through `obj_pbs`,
and closing it and then its container fills in what was left open. Without an `obj_pbs` the
sub-stream is closed at once, with nothing written through it.
-/
namespace LdacsSdk

open Library

variable {now start : ℕ} {ok : FieldDesc → ℕ → Prop} {late : FieldType → ℕ}
  {seen : List FieldType} {fs : List FieldDesc} {ms : List Member} {ps : List (Option Buffer)}
  {pos : ℕ} {l : Laid} {mem mem' : Mem} {outs obj obj' : PbStream}

/-- The places that a stream keeps open lie in front of its cursor. -/
structure PbStream.OpenInFront (pbs : PbStream) : Prop where
  slen : ∀ a, pbs.slenFld = some a →
    8 * (a + 1 : ℤ) + pbs.slentoShift ≤ 8 * pbs.cur + (pbs.bitsize % 8 : ℕ)
  plen : ∀ a, pbs.plenFld = some a →
    8 * (a + 1 : ℤ) + pbs.plentoShift ≤ 8 * pbs.cur + (pbs.bitsize % 8 : ℕ)
  crc : ∀ a, pbs.crcFld = some a → 8 * a + pbs.crcSize ≤ 8 * pbs.cur + pbs.bitsize % 8

/-- Something was written through the sub-stream `obj`: nothing in front of its cursor changed, and
what it keeps open itself lies behind it. -/
structure WrittenThrough (mem : Mem) (obj : PbStream) (mem' : Mem) (obj' : PbStream) : Prop where
  start : obj'.start = obj.start
  slenFld : obj'.slenFld = obj.slenFld
  slentoShift : obj'.slentoShift = obj.slentoShift
  forward : obj.cur ≤ obj'.cur
  before : ∀ q < 8 * obj.cur, bitAt mem' q = bitAt mem q
  plenFld : ∀ a, obj'.plenFld = some a → obj.cur ≤ a
  crcFld : ∀ a, obj'.crcFld = some a → obj.cur ≤ a

theorem WrittenThrough.nothing (mem : Mem) (hplen : obj.plenFld = none)
    (hcrc : obj.crcFld = none) : WrittenThrough mem obj mem obj := by
  constructor <;> simp [hplen, hcrc]

/-- The value `close_output_pbs` fills in. -/
def PbStream.offset (pbs : PbStream) : ℕ := u64 (pbs.cur - pbs.start)

theorem mem_closeOutputPbs (mem : Mem) (container : Option PbStream) (pbs : PbStream) :
    (closeOutputPbs mem container pbs).mem =
      (closeCrc (fillAt (fillAt mem pbs.offset pbs.slenFld pbs.slentoShift) pbs.offset
        pbs.plenFld pbs.plentoShift) pbs).mem := by
  have hcrc (m : Mem) (a b : PbStream) (h : a.start = b.start ∧ a.crcFld = b.crcFld ∧
      a.crcSize = b.crcSize) : (closeCrc m a).mem = (closeCrc m b).mem := by
    unfold closeCrc
    rw [h.1, h.2.1, h.2.2]
    split
    · split_ifs <;> rfl
    · rfl
  cases hs : pbs.slenFld <;> cases hp : pbs.plenFld <;>
    simp only [closeOutputPbs, closeSlen, closePlen, hs, hp, fillAt, PbStream.offset] <;>
    exact hcrc _ _ _ ⟨rfl, rfl, rfl⟩

theorem container_closeOutputPbs (mem : Mem) (container : Option PbStream) (pbs : PbStream) :
    (closeOutputPbs mem container pbs).container =
      container.map fun c => { c with cur := pbs.cur } := by
  cases hs : pbs.slenFld <;> simp [closeOutputPbs, closeSlen, hs]

theorem pbs_closeCrc (mem : Mem) (pbs : PbStream) :
    (closeCrc mem pbs).pbs.start = pbs.start ∧ (closeCrc mem pbs).pbs.cur = pbs.cur := by
  unfold closeCrc
  split
  · split_ifs <;> exact ⟨rfl, rfl⟩
  · exact ⟨rfl, rfl⟩

theorem pbs_closeOutputPbs (mem : Mem) (container : Option PbStream) (pbs : PbStream) :
    (closeOutputPbs mem container pbs).pbs.start = pbs.start ∧
      (closeOutputPbs mem container pbs).pbs.cur = pbs.cur := by
  cases hs : pbs.slenFld <;> cases hp : pbs.plenFld <;>
    simp [closeOutputPbs, closeSlen, closePlen, hs, hp, pbs_closeCrc]

/-- The lengths fit their places. -/
theorem Layout.late_fits (h : Layout now ok late seen fs ms ps pos l) {t : FieldType}
    (ht : t = .ftPlen ∨ t = .ftSlen) {p w : ℕ} (hplace : l.notes.place t = some (p, w)) :
    late t < 2 ^ w ∧ w ≤ 32 := by
  induction h with
  | done => simp at hplace
  | number _ _ _ ih | flStr _ _ ih | dlStr _ _ _ _ _ ih | pRaw _ _ _ _ _ _ ih =>
    rw [place_behind, place_blank, Option.or_none] at hplace
    exact ih hplace
  | pad _ _ ih =>
    rw [place_behind, place_payload, Option.or_none] at hplace
    exact ih hplace
  | dlNull _ _ ih => exact ih hplace
  | @length seen f fs ms ps pos l htype _ _ h32 hfits hrest ih =>
    rw [place_behind, place_lengthNote htype] at hplace
    split_ifs at hplace with heq
    · subst heq
      rw [(hrest.seen_absent List.mem_cons_self).1, Option.none_or, Option.some.injEq,
        Prod.mk.injEq] at hplace
      exact hplace.2 ▸ ⟨hfits, h32⟩
    · rw [Option.or_none] at hplace
      exact ih hplace
  | @crc seen f fs ms ps pos l _ _ _ _ _ ih =>
    have hne : t ≠ .ftCrc := by
      rcases ht with rfl | rfl <;> decide
    rw [place_behind, place_crc, if_neg hne, Option.or_none] at hplace
    exact ih hplace

theorem Layout.u64_late (h : Layout now ok late seen fs ms ps pos l) {t : FieldType}
    (ht : t = .ftPlen ∨ t = .ftSlen) {place : ℕ × ℕ} (hplace : l.notes.place t = some place)
    {a : ℕ} : u64 ((a + late t : ℕ) - a) = late t := by
  obtain ⟨hfits, h32⟩ := h.late_fits ht hplace
  have hlt : late t < 2 ^ 64 := hfits.trans_le (Nat.pow_le_pow_right (by decide) (by omega))
  rw [Nat.cast_add, add_sub_cancel_left]
  exact u64_natCast hlt

/-- Closing the sub-stream fills in the length of what is behind the last padding. -/
theorem Layout.closesObj (h : Layout now ok late seen fs ms ps pos l)
    (hspells : Spells mem start (fun _ => 0) l.slots) (container : Option PbStream)
    (hslen : LengthAt start pos obj'.slenFld obj'.slentoShift l.notes.slen)
    (hplen : ∀ a, obj'.plenFld = some a → 8 * start + l.stop ≤ 8 * a)
    (hcrc : ∀ a, obj'.crcFld = some a → 8 * start + l.stop ≤ 8 * a)
    (hlate : l.notes.slen ≠ none → obj'.offset = late .ftSlen) :
    Spells (closeOutputPbs mem container obj').mem start
      (Function.update (fun _ => 0) .ftSlen (late .ftSlen)) l.slots := by
  have hfilled := hspells.fillAt h (t := .ftSlen) rfl obj'.offset (late .ftSlen) hslen (by
      intro p w hplace
      have hoffset := hlate (by
        intro hnone
        have hsome : l.notes.slen = some (p, w) := hplace
        rw [hnone] at hsome
        cases hsome)
      exact ⟨hoffset, hoffset ▸ (h.late_fits (.inr rfl) hplace).1⟩)
  rw [mem_closeOutputPbs]
  apply hfilled.congr h
  intro q _ hq
  rw [closeCrc_frame, fillAt_frame]
  · intro a ha
    have hbehind := hplen a ha
    exact .inl (by omega)
  · intro a ha
    have hbehind := hcrc a ha
    exact .inl (by omega)

/-- Closing the stream of the packet fills in its length and its checksum. -/
theorem Layout.closes (h : Layout now ok late seen fs ms ps pos l)
    (hspells : Spells mem start (Function.update (fun _ => 0) .ftSlen (late .ftSlen)) l.slots)
    (outs : PbStream) (hstart : outs.start = start) (container : Option PbStream)
    (hslen : LengthAt start pos outs.slenFld outs.slentoShift none)
    (hplen : LengthAt start pos outs.plenFld outs.plentoShift l.notes.plen)
    (hcrc : CrcAt start pos outs l.notes.crc)
    (hlate : l.notes.plen ≠ none → outs.offset = late .ftPlen) :
    ∃ vals, Holds (closeOutputPbs mem container outs).mem start late vals l := by
  have hkept : Spells (fillAt mem outs.offset outs.slenFld outs.slentoShift) start
      (Function.update (fun _ => 0) .ftSlen (late .ftSlen)) l.slots := by
    apply hspells.congr h
    intro q hlo _
    apply fillAt_frame
    intro cur hcur
    have hfront := hslen cur hcur
    omega
  have hfilled := hkept.fillAt h (t := .ftPlen) rfl outs.offset (late .ftPlen) hplen (by
      intro p w hplace
      have hoffset := hlate (by
        intro hnone
        have hsome : l.notes.plen = some (p, w) := hplace
        rw [hnone] at hsome
        cases hsome)
      exact ⟨hoffset, hoffset ▸ (h.late_fits (.inl rfl) hplace).1⟩)
  obtain ⟨crc, hclosed, hchecksum⟩ := hfilled.closeCrc h hstart hcrc
  rw [mem_closeOutputPbs]
  refine ⟨_, hclosed, by simp, by simp, ?_⟩
  intro q w hk
  rw [Function.update_self]
  exact hchecksum q w ((h.late_iff .ftCrc q w).mp hk)

theorem lengthAt_of_noted {fld fld' : Option ℕ} {shift shift' : ℤ} {note : Option (ℕ × ℕ)}
    (hfront : ∀ a, fld = some a → 8 * (a + 1 : ℤ) + shift ≤ 8 * start + pos)
    (h : Noted fld fld' shift shift' (note.map fun p => (8 * start + p.1, p.2))) :
    LengthAt start pos fld' shift' note := by
  cases note with
  | none =>
    obtain ⟨rfl, rfl⟩ := h
    exact hfront
  | some place => exact h

/-- What `out_struct` with an `obj_pbs` leaves of a struct that has a layout. -/
structure Opened (start pos : ℕ) (l : Laid) (r : OutResult) (obj : PbStream) : Prop where
  diag : r.diag = none
  made : r.obj = some obj
  starts : r.outs.start = start
  cur : 8 * obj.cur = 8 * start + l.stop
  payload : obj.start = (l.notes.payload.map fun a => start + a).getD 0
  slen : LengthAt start pos obj.slenFld obj.slentoShift l.notes.slen
  plenFld : obj.plenFld = none
  crcFld : obj.crcFld = none
  outer : LengthAt start pos r.outs.slenFld r.outs.slentoShift none
  plen : LengthAt start pos r.outs.plenFld r.outs.plentoShift l.notes.plen
  crc : CrcAt start pos r.outs l.notes.crc
  spells : Spells r.mem start (fun _ => 0) l.slots

theorem Layout.opens {sd : StructDesc} (h : Layout now ok late seen sd.fields ms ps pos l)
    (mem : Mem) (outs : PbStream)
    (hpos : 8 * outs.cur + outs.bitsize % 8 = 8 * outs.start + pos) (hfront : outs.OpenInFront)
    (hroom : ¬outs.NoRoom sd.fields) (hzero : ZeroFrom mem (8 * outs.start + pos))
    (hstop : l.stop % 8 = 0) :
    ∃ r obj, outStruct mem now sd ms outs true = some r ∧ Opened outs.start pos l r obj := by
  obtain ⟨s', hout, hend, htakes, hspells, -, -⟩ :=
    h.written sd.name (s := outStart mem ms outs) hpos rfl hzero
  unfold PbStream.NoRoom at hroom
  have hcast : (8 * outs.cur + (outs.bitsize % 8 : ℕ) : ℤ) = 8 * outs.start + pos := by
    exact_mod_cast hpos
  refine ⟨_, outObj outs.roof s', by rw [outStruct, if_neg hroom, hout]; rfl, ?_⟩
  constructor
  · rfl
  · rfl
  · rfl
  · simp only [outObj]
    unfold OutState.pos at hend
    omega
  · simp only [outObj, htakes.payload, Notes.shift, outStart, Option.or_none]
  · exact lengthAt_of_noted (by simp [outStart]) htakes.slen
  · rfl
  · rfl
  · intro a ha
    exact (hfront.slen a ha).trans_eq hcast
  · exact lengthAt_of_noted (fun a ha => (hfront.plen a ha).trans_eq hcast) htakes.plen
  · have hcrc := htakes.crc
    unfold CrcAt
    cases hnote : l.notes.crc with
    | none =>
      simp only [Notes.shift, hnote, Option.map_none] at hcrc
      intro a ha
      simp only [hcrc.1, hcrc.2] at ha ⊢
      exact (hfront.crc a ha).trans_eq hpos
    | some place =>
      simp only [Notes.shift, hnote, Option.map_some] at hcrc
      exact hcrc
  · exact hspells

/-- The streams closed one after the other, the sub-stream first. -/
def closeBoth (mem : Mem) (outs obj : PbStream) : CloseResult :=
  let c := closeOutputPbs mem (some outs) obj
  closeOutputPbs c.mem none (c.container.getD outs)

/-- The closed packet holds its layout. -/
theorem Opened.sent {r : OutResult} (ho : Opened start pos l r obj)
    (h : Layout now ok late seen fs ms ps pos l) (hw : WrittenThrough r.mem obj mem' obj')
    (hslen : l.notes.slen ≠ none → obj'.cur = obj.start + late .ftSlen)
    (hplen : l.notes.plen ≠ none → obj'.cur = start + late .ftPlen) :
    ∃ vals, Holds (closeBoth mem' r.outs obj').mem start late vals l := by
  have hspells : Spells mem' start (fun _ => 0) l.slots := by
    apply ho.spells.congr h
    intro q _ hq
    apply hw.before
    rw [ho.cur]
    exact hq
  have hobj := h.closesObj hspells (some r.outs) (by rw [hw.slenFld, hw.slentoShift]; exact ho.slen)
    (fun a ha => ho.cur ▸ Nat.mul_le_mul_left 8 (hw.plenFld a ha))
    (fun a ha => ho.cur ▸ Nat.mul_le_mul_left 8 (hw.crcFld a ha)) (by
      intro hnoted
      obtain ⟨place, hplace⟩ := Option.ne_none_iff_exists'.mp hnoted
      rw [PbStream.offset, hw.start, hslen hnoted]
      exact h.u64_late (.inr rfl) hplace)
  have hcontainer := container_closeOutputPbs mem' (some r.outs) obj'
  simp only [closeBoth, hcontainer, Option.map_some, Option.getD_some]
  apply h.closes hobj { r.outs with cur := obj'.cur } ho.starts none ho.outer ho.plen ho.crc
  intro hnoted
  obtain ⟨place, hplace⟩ := Option.ne_none_iff_exists'.mp hnoted
  rw [PbStream.offset, ho.starts, hplen hnoted]
  exact h.u64_late (.inl rfl) hplace

/-- `out_struct` without an `obj_pbs` closes the sub-stream itself. -/
theorem outStruct_closed {sd : StructDesc} {r : OutResult}
    (h : outStruct mem now sd ms outs true = some r) (hdiag : r.diag = none)
    (hobj : r.obj = some obj) :
    let c := closeOutputPbs r.mem (some r.outs) obj
    outStruct mem now sd ms outs false =
      some ⟨c.mem, c.container.getD r.outs, none, none, r.writes ++ c.writes⟩ := by
  by_cases hroom : u64 (outs.roof - outs.cur) < sizeofStruct sd.fields
  · rw [outStruct, if_pos hroom] at h
    obtain rfl := Option.some.inj h
    cases hdiag
  · rw [outStruct, if_neg hroom] at h ⊢
    obtain ⟨⟨s, ugh⟩, hloop, rfl⟩ := Option.map_eq_some_iff.mp h
    rw [hloop]
    cases ugh with
    | some ugh => cases hdiag
    | none =>
      obtain rfl := Option.some.inj hobj
      simp only [Option.map_some, container_closeOutputPbs]
      rfl

end LdacsSdk
