import LdacsSdk.Library.Strokes
import LdacsSdk.Packet.Encoder
import LdacsSdk.Packet.Positions

/-!
# The encoder at bit positions

Seen from outside, `out_struct` merges strokes into memory, one for each bit field and one for
each byte of a string, and notes the places of the lengths, of the checksum and of the payload.
-/
namespace LdacsSdk

open Library

/-- The places kept for `close_output_pbs`, as bit position and width, and the payload start. -/
structure Notes where
  slen : Option (ℕ × ℕ)
  plen : Option (ℕ × ℕ)
  crc : Option (ℕ × ℕ)
  payload : Option ℕ
  deriving DecidableEq, Repr

/-- No place. -/
def Notes.blank : Notes := ⟨none, none, none, none⟩

/-- Of two notes of the same place the later one counts. -/
def Notes.after (later earlier : Notes) : Notes :=
  ⟨later.slen.or earlier.slen, later.plen.or earlier.plen, later.crc.or earlier.crc,
    later.payload.or earlier.payload⟩

/-- What a field, or a list of fields, comes to: the strokes, the members left, the position
behind, the notes, and whether every enumeration value has a name. -/
structure Placed where
  strokes : List Stroke
  members : List Member
  pos : ℕ
  notes : Notes
  named : Bool
  deriving DecidableEq, Repr

/-- The strokes of a string. -/
def byteStrokes (pos : ℕ) : List UInt8 → List Stroke
  | [] => []
  | b :: bytes => ⟨pos, 8, b.toNat⟩ :: byteStrokes (pos + 8) bytes

/-- The note a bit field leaves. -/
def lengthNote (t : FieldType) (pos size : ℕ) : Notes :=
  match t with
  | .ftSlen => { Notes.blank with slen := some (pos, size) }
  | .ftPlen => { Notes.blank with plen := some (pos, size) }
  | _ => Notes.blank

/-- The value is one that the field type has a name for, if it asks for one. -/
def FieldType.named (t : FieldType) (n : ℕ) : Bool :=
  match t with
  | .ftEnum ed => (enumName ed n).isSome
  | _ => true

/-- A string placed at a bit position; a NULL string takes no room. -/
def placeStr (ms : List Member) (pos : ℕ) : Option Placed :=
  match ms with
  | .str (some b) :: rest =>
    some ⟨byteStrokes pos b.content, rest, pos + 8 * b.content.length, .blank, true⟩
  | .str none :: rest => some ⟨[], rest, pos, .blank, true⟩
  | _ => none

/-- A field placed at a bit position. -/
def placeField (now : ℕ) (f : FieldDesc) (ms : List Member) (pos : ℕ) : Option Placed :=
  if f.fieldType.isBits then
    (readNumber f.size ms).map fun r =>
      ⟨[⟨pos, f.size, writtenValue now f.fieldType r.1⟩], r.2, pos + f.size,
        lengthNote f.fieldType pos f.size, f.fieldType.named r.1⟩
  else match f.fieldType with
    | .ftPad => some ⟨[], ms, octetBorder pos,
        { Notes.blank with payload := some (octetBorder pos / 8) }, true⟩
    | .ftCrc => some ⟨[], ms, pos + 8 * (f.size / 8),
        { Notes.blank with crc := some (pos, f.size) }, true⟩
    | .ftMac => none
    | _ => placeStr ms pos

/-- Fields placed one behind the other, up to the first value without a name. -/
def placeAll (now : ℕ) : List FieldDesc → List Member → ℕ → Option Placed
  | [], ms, pos => some ⟨[], ms, pos, .blank, true⟩
  | f :: fields, ms, pos => (placeField now f ms pos).bind fun p =>
      if p.named then
        (placeAll now fields p.members p.pos).map fun r =>
          { r with strokes := p.strokes ++ r.strokes, notes := r.notes.after p.notes }
      else some p

/-- The bit position of the encoder. -/
def OutState.pos (s : OutState) : ℕ := 8 * s.cur + s.bitSize % 8

/-- A place as `close_output_pbs` finds it: the octet and the shift. -/
def Noted (fld fld' : Option ℕ) (shift shift' : ℤ) (note : Option (ℕ × ℕ)) : Prop :=
  match note with
  | some (pos, width) => fld' = some (pos / 8) ∧ shift' = width - (8 - (pos % 8 : ℕ))
  | none => fld' = fld ∧ shift' = shift

/-- The state took over the notes. -/
structure OutState.Takes (s s' : OutState) (notes : Notes) : Prop where
  slen : Noted s.slenFld s'.slenFld s.slentoShift s'.slentoShift notes.slen
  plen : Noted s.plenFld s'.plenFld s.plentoShift s'.plentoShift notes.plen
  crc : match notes.crc with
    | some (pos, size) => s'.crcFld = some (pos / 8) ∧ s'.crcSize = size
    | none => s'.crcFld = s.crcFld ∧ s'.crcSize = s.crcSize
  payload : s'.payloadStart = notes.payload.or s.payloadStart

/-- The octets a stroke touches lie below the roof. -/
def BelowRoof (roof : ℕ) (k : Stroke) : Prop := k.stop ≤ 8 * (k.pos / 8) ∨ k.stop ≤ 8 * roof

/-- The state went through what was placed. -/
structure OutState.Goes (s s' : OutState) (p : Placed) : Prop where
  drawn : Drawn s.mem s'.mem p.strokes
  pos : s'.pos = p.pos
  members : s'.members = p.members
  takes : s.Takes s' p.notes
  writes (roof : ℕ) : (∀ a ∈ s'.writes, a < roof) ↔
    (∀ a ∈ s.writes, a < roof) ∧ ∀ k ∈ p.strokes, BelowRoof roof k

variable {s s' s'' : OutState} {now : ℕ} {sd : String} {f : FieldDesc}

theorem Noted.trans {a b c : Option ℕ} {x y z : ℤ} {m n : Option (ℕ × ℕ)} (h : Noted a b x y m)
    (h' : Noted b c y z n) : Noted a c x z (n.or m) := by
  cases n with
  | some place => exact h'
  | none =>
    obtain ⟨rfl, rfl⟩ := h'
    simpa [Noted] using h

theorem OutState.Takes.trans {m n : Notes} (h : s.Takes s' m) (h' : s'.Takes s'' n) :
    s.Takes s'' (n.after m) := by
  constructor
  · exact h.slen.trans h'.slen
  · exact h.plen.trans h'.plen
  · have hearlier := h.crc
    have hlater := h'.crc
    simp only [Notes.after]
    cases hn : n.crc with
    | some place => simpa [hn] using hlater
    | none =>
      simp only [hn] at hlater
      simpa [hlater.1, hlater.2] using hearlier
  · rw [h'.payload, h.payload, Notes.after, Option.or_assoc]

theorem OutState.Takes.refl : s.Takes s .blank := by
  constructor <;> simp [Notes.blank, Noted]

theorem outDiag_eq_none (n : ℕ) : outDiag sd f n = none ↔ f.fieldType.named n = true := by
  unfold outDiag FieldType.named
  cases f.fieldType with
  | ftEnum ed => cases hn : enumName ed n <;> simp [hn]
  | _ => simp

/-- `append_bits` as a bit field calls it, at any offset of the octet. -/
theorem appendField_spec (mem : Mem) (cur bitSize size v : ℕ) (writes : List ℕ) :
    let a := appendBits v ⟨mem, cur, size - (8 - (bitSize % 8 : ℕ)), writes⟩
    let k : Stroke := ⟨8 * cur + bitSize % 8, size, v⟩
    a.cur = k.stop / 8 ∧ Drawn mem a.mem [k] ∧
      ∀ roof, (∀ x ∈ a.writes, x < roof) ↔ (∀ x ∈ writes, x < roof) ∧ BelowRoof roof k := by
  intro a k
  have hend : ((8 * cur + bitSize % 8 + size : ℕ) : ℤ) =
      8 * (cur + 1) + (size - (8 - (bitSize % 8 : ℕ))) := by
    push_cast
    ring
  have hle : 8 * cur ≤ 8 * cur + bitSize % 8 + size := by omega
  obtain ⟨hcur, hbits⟩ := appendBits_spec v ⟨mem, cur, size - (8 - (bitSize % 8 : ℕ)), writes⟩
    hend hle
  have hwrites := appendBits_writes v ⟨mem, cur, size - (8 - (bitSize % 8 : ℕ)), writes⟩ hend hle
  refine ⟨hcur, ?_, ?_⟩
  · intro q
    have hdiv : (8 * cur + bitSize % 8) / 8 = cur := bitPos_div cur bitSize
    simp only [a, hbits q, List.any_cons, List.any_nil, Bool.or_false, Stroke.sets, Stroke.stop, k,
      hdiv]
  · intro roof
    have hdiv : (8 * cur + bitSize % 8) / 8 = cur := bitPos_div cur bitSize
    simp only [a, hwrites, List.forall_mem_append, forall_mem_range'_lt, BelowRoof, Stroke.stop, k,
      hdiv]
    refine and_congr_right fun _ => ?_
    omega

theorem noteLength_takes (size : ℕ) (t : FieldType) :
    s.Takes (noteLength t (size - (8 - (s.bitSize % 8 : ℕ))) s) (lengthNote t s.pos size) := by
  have hdiv : s.pos / 8 = s.cur := bitPos_div _ _
  have hmod : s.pos % 8 = s.bitSize % 8 := by
    unfold OutState.pos
    omega
  cases t with
  | ftSlen | ftPlen =>
    constructor <;> simp [noteLength, lengthNote, Notes.blank, Noted, hdiv, hmod]
  | _ => exact OutState.Takes.refl

theorem placeField_bits (now : ℕ) {ms rest : List Member} {n : ℕ} (pos : ℕ)
    (hbits : f.fieldType.isBits)
    (hr : readNumber f.size ms = some (n, rest)) :
    placeField now f ms pos = some ⟨[⟨pos, f.size, writtenValue now f.fieldType n⟩], rest,
      pos + f.size, lengthNote f.fieldType pos f.size, f.fieldType.named n⟩ := by
  unfold placeField
  rw [if_pos hbits, hr]
  rfl

/-- A bit field is one stroke at the position. -/
theorem outNumber_goes (now : ℕ) (sd : String) (f : FieldDesc) {n : ℕ} {rest : List Member}
    (hr : readNumber f.size s.members = some (n, rest)) :
    ∃ s', outNumber now sd f s = some (s', outDiag sd f n) ∧
      s.Goes s' ⟨[⟨s.pos, f.size, writtenValue now f.fieldType n⟩], rest,
        s.pos + f.size, lengthNote f.fieldType s.pos f.size, f.fieldType.named n⟩ := by
  obtain ⟨hcur, hdrawn, hwrites⟩ := appendField_spec s.mem s.cur s.bitSize f.size
    (writtenValue now f.fieldType n) s.writes
  have htakes := noteLength_takes (s := s) f.size f.fieldType
  refine ⟨_, by rw [outNumber, hr]; rfl, ?_⟩
  constructor
  · exact hdrawn
  · simp only [OutState.pos, hcur, Stroke.stop]
    omega
  · rfl
  · exact ⟨htakes.slen, htakes.plen, htakes.crc, htakes.payload⟩
  · intro roof
    rw [List.forall_mem_singleton]
    exact hwrites roof

/-- A string is one stroke for each byte. -/
theorem appendStr_spec (src : List UInt8) (a : AppendingStr) :
    8 * (appendStr src a).cur + (appendStr src a).bitSize % 8 =
        8 * a.cur + a.bitSize % 8 + 8 * src.length ∧
      Drawn a.mem (appendStr src a).mem (byteStrokes (8 * a.cur + a.bitSize % 8) src) ∧
      ∀ roof, (∀ x ∈ (appendStr src a).writes, x < roof) ↔ (∀ x ∈ a.writes, x < roof) ∧
        ∀ k ∈ byteStrokes (8 * a.cur + a.bitSize % 8) src, BelowRoof roof k := by
  induction src generalizing a with
  | nil => simp [appendStr, byteStrokes, Drawn.nil]
  | cons n src ih =>
    have hshift : ((a.bitSize % 8 : ℕ) : ℤ) = (8 : ℕ) - (8 - (a.bitSize % 8 : ℕ)) := by omega
    obtain ⟨hcur, hdrawn, hwrites⟩ := appendField_spec a.mem a.cur a.bitSize 8 n.toNat a.writes
    rw [← hshift] at hcur hdrawn hwrites
    rw [appendStr]
    generalize appendBits n.toNat ⟨a.mem, a.cur, (a.bitSize % 8 : ℕ), a.writes⟩ = d at *
    obtain ⟨hpos, hrest, hinside⟩ := ih ⟨d.mem, d.cur, a.bitSize + 8, d.writes⟩
    have hnext : 8 * d.cur + (a.bitSize + 8) % 8 = 8 * a.cur + a.bitSize % 8 + 8 := by
      simp only [hcur, Stroke.stop]
      omega
    simp only [hnext] at hpos hrest hinside
    refine ⟨?_, ?_, ?_⟩
    · rw [hpos, List.length_cons]
      omega
    · rw [byteStrokes]
      exact hdrawn.append hrest
    · intro roof
      rw [hinside roof, hwrites roof, byteStrokes, List.forall_mem_cons, and_assoc]

theorem outStr_goes {b : Buffer} {rest : List Member} (hm : s.members = .str (some b) :: rest) :
    ∃ s', outStr s = some s' ∧ s.Goes s' ⟨byteStrokes s.pos b.content, rest,
      s.pos + 8 * b.content.length, .blank, true⟩ := by
  obtain ⟨hpos, hdrawn, hwrites⟩ :=
    appendStr_spec b.content ⟨s.mem, s.cur, s.bitSize, s.writes⟩
  refine ⟨_, by rw [outStr, hm], ?_⟩
  constructor
  · exact hdrawn
  · exact hpos
  · rfl
  · constructor <;> simp [Notes.blank, Noted]
  · exact hwrites

theorem outPad_goes : s.Goes (outPad s) ⟨[], s.members, octetBorder s.pos,
    { Notes.blank with payload := some (octetBorder s.pos / 8) }, true⟩ := by
  have hcur : (outPad s).cur = octetBorder s.pos / 8 := by
    simp only [outPad, OutState.pos, octetBorder]
    split_ifs <;> omega
  constructor
  · exact Drawn.nil
  · rw [OutState.pos, hcur]
    simp only [outPad, octetBorder]
    omega
  · rfl
  · constructor <;> simp [Notes.blank, Noted, outPad]
    rw [← hcur]
    simp [outPad]
  · simp [outPad]

theorem outCrc_goes (size : ℕ) : s.Goes (outCrc size s) ⟨[], s.members, s.pos + 8 * (size / 8),
    { Notes.blank with crc := some (s.pos, size) }, true⟩ := by
  have hdiv : s.pos / 8 = s.cur := bitPos_div _ _
  constructor
  · exact Drawn.nil
  · simp only [OutState.pos, outCrc, Nat.shiftRight_eq_div_pow]
    omega
  · rfl
  · constructor <;> simp [Notes.blank, Noted, outCrc, hdiv]
  · simp [outCrc]

theorem outField_bits (hbits : f.fieldType.isBits) :
    outField now sd f s = outNumber now sd f s := by
  unfold outField
  cases hf : f.fieldType <;> simp_all [FieldType.isBits]

theorem outStr_none (h : placeStr s.members s.pos = none) : outStr s = none := by
  unfold placeStr at h
  unfold outStr
  split at h <;> simp_all

theorem outStr_goes_of_place {p : Placed} (h : placeStr s.members s.pos = some p) :
    ∃ s', outStr s = some s' ∧ s.Goes s' p ∧ p.named = true := by
  unfold placeStr at h
  split at h
  · rename_i b rest hm
    obtain ⟨s', hout, hgoes⟩ := outStr_goes hm
    obtain rfl := Option.some.inj h
    exact ⟨s', hout, hgoes, rfl⟩
  · rename_i rest hm
    obtain rfl := Option.some.inj h
    refine ⟨{ s with members := rest }, by rw [outStr, hm], ?_, rfl⟩
    constructor
    · exact Drawn.nil
    · rfl
    · rfl
    · constructor <;> simp [Notes.blank, Noted]
    · simp
  · cases h

theorem outField_none (h : placeField now f s.members s.pos = none) :
    outField now sd f s = none := by
  by_cases hbits : f.fieldType.isBits
  · rw [placeField, if_pos hbits] at h
    rw [outField_bits hbits, outNumber]
    simpa using h
  · rw [placeField, if_neg hbits] at h
    unfold outField
    cases hf : f.fieldType with
    | ftFlStr _ | ftDlStr | ftPRaw _ =>
      simp only [hf] at h
      simp only [outStr_none h, Option.map_none]
    | ftMac => rfl
    | _ => simp_all [FieldType.isBits]

/-- A field is what its placement says. -/
theorem outField_goes (sd : String) {p : Placed}
    (h : placeField now f s.members s.pos = some p) :
    ∃ s' ugh, outField now sd f s = some (s', ugh) ∧ s.Goes s' p ∧
      (ugh = none ↔ p.named = true) := by
  by_cases hbits : f.fieldType.isBits
  · cases hr : readNumber f.size s.members with
    | none => simp [placeField, hbits, hr] at h
    | some r =>
      rw [placeField_bits now s.pos hbits hr, Option.some.injEq] at h
      subst h
      obtain ⟨s', hout, hgoes⟩ := outNumber_goes now sd f hr
      exact ⟨s', _, by rw [outField_bits hbits, hout], hgoes, outDiag_eq_none r.1⟩
  · rw [placeField, if_neg hbits] at h
    unfold outField
    cases hf : f.fieldType with
    | ftFlStr _ | ftDlStr | ftPRaw _ =>
      simp only [hf] at h
      obtain ⟨s', hout, hgoes, hnamed⟩ := outStr_goes_of_place h
      exact ⟨s', none, by simp [hout], hgoes, by simp [hnamed]⟩
    | ftPad =>
      simp only [hf, Option.some.injEq] at h
      subst h
      exact ⟨outPad s, none, rfl, outPad_goes, by simp⟩
    | ftCrc =>
      simp only [hf, Option.some.injEq] at h
      subst h
      exact ⟨outCrc f.size s, none, rfl, outCrc_goes f.size, by simp⟩
    | ftMac => simp [hf] at h
    | _ => simp [hf, FieldType.isBits] at hbits

theorem OutState.Goes.trans {p r : Placed} (h : s.Goes s' p) (h' : s'.Goes s'' r) :
    s.Goes s'' { r with strokes := p.strokes ++ r.strokes, notes := r.notes.after p.notes } := by
  constructor
  · exact h.drawn.append h'.drawn
  · exact h'.pos
  · exact h'.members
  · exact h.takes.trans h'.takes
  · intro roof
    rw [h'.writes roof, h.writes roof, List.forall_mem_append, and_assoc]

theorem OutState.Goes.refl : s.Goes s ⟨[], s.members, s.pos, .blank, true⟩ := by
  constructor
  · exact Drawn.nil
  · rfl
  · rfl
  · exact OutState.Takes.refl
  · simp

theorem outFields_none {fields : List FieldDesc}
    (h : placeAll now fields s.members s.pos = none) : outFields now sd fields s = none := by
  induction fields generalizing s with
  | nil => simp [placeAll] at h
  | cons f fields ih =>
    rw [placeAll] at h
    rw [outFields]
    cases hp : placeField now f s.members s.pos with
    | none => rw [outField_none hp]
    | some p =>
      obtain ⟨s', ugh, hout, hgoes, hugh⟩ := outField_goes sd hp
      rw [hout]
      rw [hp, Option.bind_some] at h
      by_cases hnamed : p.named = true
      · obtain rfl := hugh.mpr hnamed
        rw [if_pos hnamed, Option.map_eq_none_iff, ← hgoes.pos, ← hgoes.members] at h
        exact ih h
      · rw [if_neg hnamed] at h
        cases h

/-- The loop of `out_struct` is what the placement of the fields says. -/
theorem outFields_goes (sd : String) {fields : List FieldDesc} {p : Placed}
    (h : placeAll now fields s.members s.pos = some p) :
    ∃ s' ugh, outFields now sd fields s = some (s', ugh) ∧ s.Goes s' p ∧
      (ugh = none ↔ p.named = true) := by
  induction fields generalizing s p with
  | nil =>
    obtain rfl := Option.some.inj h
    exact ⟨s, none, rfl, OutState.Goes.refl, by simp⟩
  | cons f fields ih =>
    rw [placeAll] at h
    obtain ⟨p₁, hp₁, h⟩ := Option.bind_eq_some_iff.mp h
    obtain ⟨s₁, ugh₁, hout, hgoes, hugh⟩ := outField_goes sd hp₁
    rw [outFields, hout]
    split_ifs at h with hnamed
    · obtain rfl := hugh.mpr hnamed
      obtain ⟨p₂, hp₂, rfl⟩ := Option.map_eq_some_iff.mp h
      rw [← hgoes.pos, ← hgoes.members] at hp₂
      obtain ⟨s₂, ugh₂, hout₂, hgoes₂, hugh₂⟩ := ih hp₂
      exact ⟨s₂, ugh₂, hout₂, hgoes.trans hgoes₂, hugh₂⟩
    · obtain rfl := Option.some.inj h
      cases ugh₁ with
      | none => exact absurd (hugh.mp rfl) hnamed
      | some ugh => exact ⟨s₁, some ugh, rfl, hgoes, hugh⟩

end LdacsSdk
