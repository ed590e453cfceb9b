import LdacsSdk.Packet.ReadSafety
import LdacsSdk.Packet.SubStream

/-!
# What the encoder writes

When `out_struct` and the closing of its streams stay inside the output. The room test only adds up
the sizes in the descriptor, so that strings, padding and the starting offset can still go past
the roof.
-/
namespace LdacsSdk

open Library

variable {mem : Mem} {now roof : ℕ} {sd : StructDesc} {fs : List FieldDesc} {ms : List Member}
  {outs : PbStream} {p : Placed}

/-- A length filled in at the place touches nothing at or past the roof. -/
def LengthBelow (roof : ℕ) (fld : Option ℕ) (shift : ℤ) : Prop :=
  ∀ a, fld = some a → 8 * (a + 1 : ℤ) + shift ≤ 8 * a ∨ 8 * (a + 1 : ℤ) + shift ≤ 8 * roof

/-- A checksum filled in at the place touches nothing at or past the roof. -/
def CrcBelow (roof : ℕ) (fld : Option ℕ) (size : ℕ) : Prop :=
  ∀ a, fld = some a → size = crc8Size ∨ size = crc32Size → 8 * a + size ≤ 8 * roof

/-- The places a stream keeps open lie below the roof. -/
structure PbStream.KeepsBelow (roof : ℕ) (pbs : PbStream) : Prop where
  slen : LengthBelow roof pbs.slenFld pbs.slentoShift
  plen : LengthBelow roof pbs.plenFld pbs.plentoShift
  crc : CrcBelow roof pbs.crcFld pbs.crcSize

/-- The bit position of a stream. -/
def PbStream.pos (pbs : PbStream) : ℕ := 8 * pbs.cur + pbs.bitsize % 8

/-- The stream with the places of the packet length and of the checksum noted in it. -/
def PbStream.noting (pbs : PbStream) (notes : Notes) : PbStream :=
  { pbs with
    plenFld := (notes.plen.map fun place => place.1 / 8).or pbs.plenFld
    plentoShift :=
      (notes.plen.map fun place => place.2 - (8 - (place.1 % 8 : ℕ) : ℤ)).getD pbs.plentoShift
    crcFld := (notes.crc.map fun place => place.1 / 8).or pbs.crcFld
    crcSize := (notes.crc.map fun place => place.2).getD pbs.crcSize }

/-- The addresses written when the streams are closed one after the other. -/
def OutResult.closing (r : OutResult) : List ℕ :=
  match r.obj with
  | some obj =>
    let c := closeOutputPbs r.mem (some r.outs) obj
    c.writes ++ (closeOutputPbs c.mem none (c.container.getD r.outs)).writes
  | none => (closeOutputPbs r.mem none r.outs).writes

/-- The bit position behind the struct. -/
def OutResult.pos (r : OutResult) : ℕ :=
  8 * (r.obj.getD r.outs).cur + r.outs.bitsize % 8

/-- No byte at or past the roof is written, and TRUE is only returned for what ends below it. -/
structure StaysBelow (roof : ℕ) (r : OutResult) : Prop where
  writes : ∀ a ∈ r.writes ++ r.closing, a < roof
  fits : r.diag = none → r.pos ≤ 8 * roof

theorem fillLength_writes (mem : Mem) (v cur : ℕ) (shift : ℤ) :
    (∀ a ∈ (fillLength mem v cur shift).writes, a < roof) ↔ LengthBelow roof (some cur) shift := by
  simp only [LengthBelow, Option.some.injEq, forall_eq']
  by_cases hend : 0 ≤ 8 + shift
  · obtain ⟨E, hE⟩ := Int.eq_ofNat_of_zero_le (show 0 ≤ 8 * (cur + 1 : ℤ) + shift by omega)
    have hwrites := appendBits_writes v (E := E) ⟨mem, cur, shift, []⟩ hE.symm (by
      simp only
      omega)
    rw [fillLength, hwrites, List.nil_append, forall_mem_range'_lt, hE]
    dsimp only
    omega
  · have hnone : (shift + 8).toNat = 0 := by omega
    simp only [fillLength, appendBits, hnone, appendLoop, List.not_mem_nil, false_imp_iff,
      implies_true, true_iff]
    omega

theorem closeSlen_writes (mem : Mem) (pbs : PbStream) :
    (∀ a ∈ (closeSlen mem pbs).writes, a < roof) ↔
      LengthBelow roof pbs.slenFld pbs.slentoShift := by
  unfold closeSlen
  split
  · rename_i cur hcur
    rw [hcur]
    exact fillLength_writes _ _ _ _
  · rename_i hcur
    simp [hcur, LengthBelow]

theorem closePlen_writes (mem : Mem) (pbs : PbStream) :
    (∀ a ∈ (closePlen mem pbs).writes, a < roof) ↔
      LengthBelow roof pbs.plenFld pbs.plentoShift := by
  unfold closePlen
  split
  · rename_i cur hcur
    rw [hcur]
    exact fillLength_writes _ _ _ _
  · rename_i hcur
    simp [hcur, LengthBelow]

theorem closeCrc_writes (mem : Mem) (pbs : PbStream) :
    (∀ a ∈ (closeCrc mem pbs).writes, a < roof) ↔ CrcBelow roof pbs.crcFld pbs.crcSize := by
  have h8 : crc8Size = 8 := rfl
  have h32 : crc32Size = 32 := rfl
  unfold closeCrc CrcBelow
  split
  · rename_i cur hcur
    simp only [hcur, Option.some.injEq, forall_eq']
    split_ifs with hc8 hc32
    · simp only [List.forall_mem_singleton, hc8, true_or, forall_const, h8]
      omega
    · simp only [forall_mem_range'_lt, hc32, or_true, forall_const, h32]
      omega
    · simp [hc8, hc32]
  · rename_i hcur
    simp [hcur]

/-- Closing a stream writes below the roof exactly where its open places lie there. -/
theorem closeOutputPbs_writes (mem : Mem) (container : Option PbStream) (pbs : PbStream) :
    (∀ a ∈ (closeOutputPbs mem container pbs).writes, a < roof) ↔ pbs.KeepsBelow roof := by
  have hslen : (closeSlen mem pbs).pbs.plenFld = pbs.plenFld ∧
      (closeSlen mem pbs).pbs.plentoShift = pbs.plentoShift ∧
      (closeSlen mem pbs).pbs.crcFld = pbs.crcFld ∧
      (closeSlen mem pbs).pbs.crcSize = pbs.crcSize := by
    unfold closeSlen
    split <;> simp
  have hplen (m : Mem) (pbs : PbStream) : (closePlen m pbs).pbs.crcFld = pbs.crcFld ∧
      (closePlen m pbs).pbs.crcSize = pbs.crcSize := by
    unfold closePlen
    split <;> simp
  simp only [closeOutputPbs, List.forall_mem_append, closeSlen_writes, closePlen_writes,
    closeCrc_writes, hslen, hplen]
  exact ⟨fun h => ⟨h.1.1, h.1.2, h.2⟩, fun h => ⟨⟨h.slen, h.plen⟩, h.crc⟩⟩

theorem placeStr_notes {pos : ℕ} (h : placeStr ms pos = some p) : p.notes = .blank := by
  unfold placeStr at h
  split at h
  · obtain rfl := Option.some.inj h
    rfl
  · obtain rfl := Option.some.inj h
    rfl
  · cases h

/-- A field notes a place for a length of its own kind only. -/
theorem placeField_length {f : FieldDesc} {pos : ℕ} {t : FieldType} (ht : t = .ftPlen ∨ t = .ftSlen)
    (h : placeField now f ms pos = some p) :
    p.notes.place t = if f.fieldType = t then some (pos, f.size) else none := by
  by_cases hbits : f.fieldType.isBits
  · rw [placeField, if_pos hbits] at h
    obtain ⟨r, -, rfl⟩ := Option.map_eq_some_iff.mp h
    rcases ht with rfl | rfl
    · cases hf : f.fieldType <;> simp [lengthNote, Notes.place, Notes.blank]
    · cases hf : f.fieldType <;> simp [lengthNote, Notes.place, Notes.blank]
  · rw [placeField, if_neg hbits] at h
    have hne : f.fieldType ≠ t := by
      rintro rfl
      rcases ht with ht | ht <;> simp [ht, FieldType.isBits] at hbits
    rw [if_neg hne]
    cases hf : f.fieldType with
    | ftPad =>
      simp only [hf, Option.some.injEq] at h
      subst h
      exact place_payload _ _
    | ftCrc =>
      simp only [hf, Option.some.injEq] at h
      subst h
      rw [place_crc, if_neg]
      rintro rfl
      exact hne hf
    | ftMac => simp [hf] at h
    | ftFlStr _ | ftDlStr | ftPRaw _ =>
      simp only [hf] at h
      rw [placeStr_notes h, place_blank]
    | _ => simp [hf, FieldType.isBits] at hbits

/-- The place of an SDU length is that of a bit field. -/
theorem placeAll_slen {pos q w : ℕ} (h : placeAll now fs ms pos = some p)
    (hslen : p.notes.slen = some (q, w)) :
    (∃ v, ⟨q, w, v⟩ ∈ p.strokes) ∧ ∃ f ∈ fs, f.fieldType = .ftSlen := by
  induction fs generalizing ms pos p with
  | nil =>
    obtain rfl := Option.some.inj h
    cases hslen
  | cons f fs ih =>
    rw [placeAll] at h
    obtain ⟨p₁, hp₁, h⟩ := Option.bind_eq_some_iff.mp h
    have hfirst (hslen : p₁.notes.slen = some (q, w)) :
        (∃ v, ⟨q, w, v⟩ ∈ p₁.strokes) ∧ f.fieldType = .ftSlen := by
      have hnote : p₁.notes.slen = _ := placeField_length (.inr rfl) hp₁
      rw [hnote] at hslen
      split_ifs at hslen with hf
      obtain ⟨rfl, rfl⟩ := Prod.mk.inj (Option.some.inj hslen)
      simp only [placeField, hf, FieldType.isBits, if_true] at hp₁
      obtain ⟨r, -, rfl⟩ := Option.map_eq_some_iff.mp hp₁
      exact ⟨⟨_, List.mem_singleton_self _⟩, hf⟩
    split_ifs at h with hnamed
    · obtain ⟨p₂, hp₂, rfl⟩ := Option.map_eq_some_iff.mp h
      simp only [Notes.after, Option.or_eq_some_iff] at hslen
      rcases hslen with hslen | ⟨-, hslen⟩
      · obtain ⟨⟨v, hv⟩, g, hg, htype⟩ := ih hp₂ hslen
        exact ⟨⟨v, List.mem_append_right _ hv⟩, g, List.mem_cons_of_mem _ hg, htype⟩
      · obtain ⟨⟨v, hv⟩, htype⟩ := hfirst hslen
        exact ⟨⟨v, List.mem_append_left _ hv⟩, f, List.mem_cons_self, htype⟩
    · obtain rfl := Option.some.inj h
      obtain ⟨hv, htype⟩ := hfirst hslen
      exact ⟨hv, f, List.mem_cons_self, htype⟩

theorem PbStream.keepsBelow_iff {pbs : PbStream} : pbs.KeepsBelow roof ↔
    LengthBelow roof pbs.slenFld pbs.slentoShift ∧ LengthBelow roof pbs.plenFld pbs.plentoShift ∧
      CrcBelow roof pbs.crcFld pbs.crcSize :=
  ⟨fun h => ⟨h.slen, h.plen, h.crc⟩, fun h => ⟨h.1, h.2.1, h.2.2⟩⟩

/-- What the closing of both streams writes. -/
theorem closing_iff (r : OutResult) : (∀ a ∈ r.closing, a < roof) ↔
    (∀ obj, r.obj = some obj → obj.KeepsBelow roof) ∧ r.outs.KeepsBelow roof := by
  unfold OutResult.closing
  split
  · rename_i obj hobj
    simp only [List.forall_mem_append, closeOutputPbs_writes, container_closeOutputPbs, hobj,
      Option.map_some, Option.getD_some, Option.some.injEq, forall_eq']
    simp only [PbStream.keepsBelow_iff]
  · rename_i hobj
    simp [closeOutputPbs_writes, hobj]

theorem staysBelow_iff (r : OutResult) : StaysBelow roof r ↔ (∀ a ∈ r.writes, a < roof) ∧
    (∀ obj, r.obj = some obj → obj.KeepsBelow roof) ∧ r.outs.KeepsBelow roof ∧
      (r.diag = none → r.pos ≤ 8 * roof) := by
  constructor
  · intro h
    obtain ⟨hwrites, hclosing⟩ := List.forall_mem_append.mp h.writes
    obtain ⟨hobj, houts⟩ := (closing_iff r).mp hclosing
    exact ⟨hwrites, hobj, houts, h.fits⟩
  · rintro ⟨hwrites, hobj, houts, hfits⟩
    exact ⟨List.forall_mem_append.mpr ⟨hwrites, (closing_iff r).mpr ⟨hobj, houts⟩⟩, hfits⟩

/-- The state took over the notes as a stream would. -/
theorem OutState.Takes.noting {s' : OutState} {notes : Notes}
    (h : (outStart mem ms outs).Takes s' notes) :
    s'.plenFld = (outs.noting notes).plenFld ∧ s'.plentoShift = (outs.noting notes).plentoShift ∧
      s'.crcFld = (outs.noting notes).crcFld ∧ s'.crcSize = (outs.noting notes).crcSize := by
  have hplen := h.plen
  have hcrc := h.crc
  simp only [outStart] at hplen hcrc
  cases hp : notes.plen <;> cases hc : notes.crc <;>
    simp_all [PbStream.noting, Noted]

/-- The stream with what the loop of `out_struct` noted. -/
def OutState.leaves (s : OutState) (outs : PbStream) : PbStream :=
  { outs with bitsize := s.bitSize, plenFld := s.plenFld, plentoShift := s.plentoShift,
              crcFld := s.crcFld, crcSize := s.crcSize }

@[simp] theorem OutState.bitsize_leaves (s : OutState) (outs : PbStream) :
    (s.leaves outs).bitsize = s.bitSize := rfl

/-- The end of an `out_struct` that returns TRUE. -/
def OutState.finish (s : OutState) (outs : PbStream) (obj : Bool) : OutResult :=
  if obj then
    ⟨s.mem, { s.leaves outs with cur := outs.roof }, some (outObj outs.roof s), none, s.writes⟩
  else
    let c := closeOutputPbs s.mem (some (s.leaves outs)) (outObj outs.roof s)
    ⟨c.mem, c.container.getD (s.leaves outs), none, none, s.writes ++ c.writes⟩

/-- All that a call of `out_struct` can do. -/
theorem outStruct_cases {obj : Bool} {r : OutResult}
    (hout : outStruct mem now sd ms outs obj = some r) :
    (outs.NoRoom sd.fields ∧ r = ⟨mem, outs, none, some (.noRoomOut sd.name), []⟩) ∨
      ∃ p s', ¬outs.NoRoom sd.fields ∧ placeAll now sd.fields ms outs.pos = some p ∧
        (outStart mem ms outs).Goes s' p ∧
        ((p.named = false ∧ ∃ ugh, r = ⟨s'.mem, s'.leaves outs, none, some ugh, s'.writes⟩) ∨
          (p.named = true ∧ r = s'.finish outs obj)) := by
  unfold outStruct at hout
  by_cases hroom : outs.NoRoom sd.fields
  · unfold PbStream.NoRoom at hroom
    rw [if_pos hroom] at hout
    exact .inl ⟨hroom, (Option.some.inj hout).symm⟩
  · rw [if_neg (by exact hroom)] at hout
    cases hp : placeAll now sd.fields ms outs.pos with
    | none =>
      rw [outFields_none (s := outStart mem ms outs) hp] at hout
      cases hout
    | some p =>
      obtain ⟨s', ugh, hloop, hgoes, hugh⟩ :=
        outFields_goes sd.name (s := outStart mem ms outs) hp
      rw [hloop, Option.map_some, Option.some.injEq] at hout
      apply Or.inr
      use p, s', hroom, rfl, hgoes
      cases ugh with
      | some ugh =>
        have hnamed : p.named = false := by
          rw [Bool.eq_false_iff]
          intro hn
          cases hugh.mpr hn
        exact .inl ⟨hnamed, ugh, hout.symm⟩
      | none => exact .inr ⟨hugh.mp rfl, hout.symm⟩

/-- What an `out_struct` that returns TRUE has done. -/
theorem outStruct_succeeds {obj : Bool} {r : OutResult}
    (hout : outStruct mem now sd ms outs obj = some r) (hdiag : r.diag = none) :
    ∃ p s', placeAll now sd.fields ms outs.pos = some p ∧ p.named = true ∧
      (outStart mem ms outs).Goes s' p ∧ r = s'.finish outs obj := by
  rcases outStruct_cases hout with ⟨-, rfl⟩ | ⟨p, s', -, hp, hgoes, ⟨-, ugh, rfl⟩ | ⟨hnamed, rfl⟩⟩
  · cases hdiag
  · cases hdiag
  · exact ⟨p, s', hp, hnamed, hgoes, rfl⟩

/-- The local `obj` keeps one place open, that of a bit field of the struct. -/
theorem keepsBelow_outObj (roof : ℕ) {s' : OutState} (h : placeAll now fs ms outs.pos = some p)
    (htakes : (outStart mem ms outs).Takes s' p.notes)
    (hbelow : ∀ k ∈ p.strokes, BelowRoof roof k) :
    (outObj outs.roof s').KeepsBelow roof := by
  constructor
  · have hslen := htakes.slen
    cases hnote : p.notes.slen with
    | none =>
      rw [hnote] at hslen
      simp [outObj, hslen.1, outStart, LengthBelow]
    | some place =>
      obtain ⟨q, w⟩ := place
      rw [hnote] at hslen
      obtain ⟨⟨v, hv⟩, -⟩ := placeAll_slen h hnote
      have hstroke := hbelow _ hv
      simp only [BelowRoof, Stroke.stop] at hstroke
      intro a ha
      simp only [outObj, hslen.1, hslen.2, Option.some.injEq] at ha ⊢
      omega
  · simp [outObj, LengthBelow]
  · simp [outObj, CrcBelow]

/-- The stream keeps open what the loop noted, wherever its cursor is. -/
theorem keepsBelow_leaves (roof : ℕ) {s' : OutState} {notes : Notes}
    (htakes : (outStart mem ms outs).Takes s' notes) (cur : ℕ) :
    PbStream.KeepsBelow roof { s'.leaves outs with cur := cur } ↔
      (outs.noting notes).KeepsBelow roof := by
  obtain ⟨hplenFld, hplenShift, hcrcFld, hcrcSize⟩ := htakes.noting
  simp only [PbStream.keepsBelow_iff, OutState.leaves, hplenFld, hplenShift, hcrcFld, hcrcSize]
  exact Iff.rfl

/-- **Stream encoding.** `out_struct` and the closing of its streams write no byte at or past the
roof, and TRUE is only returned for what ends below it, exactly where the room test refuses and
the stream keeps no place open past the roof, or where all that is placed up to the first value
without a name lies below the roof, and the whole struct ends there if every value has a name. -/
theorem out_struct_writes_below_iff {obj : Bool} {r : OutResult}
    (hout : outStruct mem now sd ms outs obj = some r) :
    StaysBelow outs.roof r ↔
      (outs.NoRoom sd.fields ∧ outs.KeepsBelow outs.roof) ∨
      (¬outs.NoRoom sd.fields ∧ ∃ p, placeAll now sd.fields ms outs.pos = some p ∧
        (∀ k ∈ p.strokes, BelowRoof outs.roof k) ∧ (outs.noting p.notes).KeepsBelow outs.roof ∧
        (p.named = true → p.pos ≤ 8 * outs.roof)) := by
  rcases outStruct_cases hout with ⟨hroom, rfl⟩ | ⟨p, s', hroom, hp, hgoes, hend⟩
  · rw [staysBelow_iff]
    simp [hroom]
  · have hwrites : (∀ a ∈ s'.writes, a < outs.roof) ↔ ∀ k ∈ p.strokes, BelowRoof outs.roof k := by
      rw [hgoes.writes outs.roof]
      simp [outStart]
    have hobj := keepsBelow_outObj outs.roof hp hgoes.takes
    have houts (cur : ℕ) := keepsBelow_leaves outs.roof hgoes.takes cur
    have hpos : 8 * (outObj outs.roof s').cur + s'.bitSize % 8 = p.pos := hgoes.pos
    simp only [hroom, false_and, not_false_eq_true, true_and, false_or, hp, Option.some.injEq,
      exists_eq_left']
    rw [staysBelow_iff]
    rcases hend with ⟨hnamed, ugh, rfl⟩ | ⟨hnamed, rfl⟩
    · have hleaves : (s'.leaves outs).KeepsBelow outs.roof ↔ _ := houts outs.cur
      simp [hwrites, hleaves, hnamed]
    · cases obj with
      | true =>
        simp only [OutState.finish, if_true, hwrites, houts, OutResult.pos, Option.some.injEq,
          forall_eq', Option.getD_some, hnamed, true_imp_iff]
        rw [OutState.bitsize_leaves, hpos]
        exact and_congr_right fun hbelow => and_iff_right (hobj hbelow)
      | false =>
        simp only [OutState.finish, Bool.false_eq_true, if_false, List.forall_mem_append, hwrites,
          closeOutputPbs_writes, container_closeOutputPbs, houts, OutResult.pos,
          Option.getD_some, Option.getD_none, Option.map_some, hnamed, true_imp_iff, reduceCtorEq,
          false_imp_iff, implies_true, true_and]
        rw [OutState.bitsize_leaves, hpos, and_assoc]
        exact and_congr_right fun hbelow => and_iff_right (hobj hbelow)

/-- One byte of string behind a bit field, in a stream of two bytes: it stays inside. -/
theorem out_struct_writes_below_two :
    let sd : StructDesc := ⟨"S", [⟨.ftSet, 8, "TYPE"⟩, ⟨.ftFlStr 1, 0, "STR"⟩]⟩
    let ms := [.num 5, .str (some (cloneToChunk [7]))]
    ∃ r, outStruct (fun _ => 0) 0 sd ms (initPbs 0 2) false = some r ∧ StaysBelow 2 r := by
  intro sd ms
  let r := (outStruct (fun _ => 0) 0 sd ms (initPbs 0 2) false).get (by decide)
  have hout : outStruct (fun _ => 0) 0 sd ms (initPbs 0 2) false = some r :=
    (Option.some_get _).symm
  refine ⟨r, hout, (out_struct_writes_below_iff hout).mpr (.inr ⟨?_, ?_⟩)⟩
  · unfold PbStream.NoRoom
    decide
  · refine ⟨⟨[⟨0, 8, 5⟩, ⟨8, 8, 7⟩], [], 16, .blank, true⟩, by decide, ?_, ?_, by decide⟩
    · unfold BelowRoof
      decide
    · constructor <;> simp [PbStream.noting, initPbs, Notes.blank, LengthBelow, CrcBelow]

/-- Two bytes of string in a stream of one byte: TRUE, and the byte at the roof is written. -/
theorem out_struct_writes_past_roof :
    let sd : StructDesc := ⟨"S", [⟨.ftFlStr 2, 0, "STR"⟩]⟩
    let ms := [.str (some (cloneToChunk [6, 7]))]
    ∃ r, outStruct (fun _ => 0) 0 sd ms (initPbs 0 1) false = some r ∧ r.diag = none ∧
      r.writes = [0, 1] ∧ ¬StaysBelow (initPbs 0 1).roof r := by
  intro sd ms
  let r := (outStruct (fun _ => 0) 0 sd ms (initPbs 0 1) false).get (by decide)
  have hwrites : r.writes = [0, 1] := by decide
  refine ⟨r, (Option.some_get _).symm, by decide, hwrites, ?_⟩
  intro h
  have hlt := h.writes 1 (List.mem_append_left _ (by rw [hwrites]; simp))
  exact absurd hlt (by decide)

end LdacsSdk
