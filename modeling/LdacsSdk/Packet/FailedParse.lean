import LdacsSdk.Packet.Acceptance

/-!
# What a failed parse leaves behind

`in_struct` works on a copy of the cursor and puts it back only at the end of the descriptor, but
it counts bits in the stream itself. A parse that fails leaves the bits of the fields up to the
refused one in the counter, from the last padding on that started it again.
-/
namespace LdacsSdk

open Library

/-- The bits of a field that the bit counter takes. -/
def Spot.counted (start : ℕ) (f : FieldDesc) (p : Spot) : ℕ :=
  if f.fieldType = .ftPad ∨ f.fieldType = .ftCrc then 0 else p.ending start f - p.pos

/-- The bits that the bit counter takes of all fields. -/
def Spot.countedAll (mem : Mem) (start : ℕ) : List FieldDesc → Spot → ℕ
  | [], _ => 0
  | f :: fields, p => p.counted start f + (p.next mem start f).countedAll mem start fields

/-- The field is padding that fills up an octet, behind which the count starts again. -/
def Spot.FillsUp (f : FieldDesc) (p : Spot) : Prop := f.fieldType = .ftPad ∧ p.pos % 8 ≠ 0

instance (f : FieldDesc) (p : Spot) : Decidable (p.FillsUp f) :=
  inferInstanceAs (Decidable (f.fieldType = .ftPad ∧ p.pos % 8 ≠ 0))

/-- No field is padding that fills up an octet. -/
def Spot.NoneFillsUp (mem : Mem) (start : ℕ) : List FieldDesc → Spot → Prop
  | [], _ => True
  | f :: fields, p => ¬p.FillsUp f ∧ (p.next mem start f).NoneFillsUp mem start fields

/-- The fields take no bits, or from the last padding on that fills up an octet they take as many
as were counted before. -/
def Spot.KeepsCount (mem : Mem) (start bitsize : ℕ) (fields : List FieldDesc) (p : Spot) : Prop :=
  (p.NoneFillsUp mem start fields ∧ p.countedAll mem start fields = 0) ∨
  ∃ before pad behind, fields = before ++ pad :: behind ∧
    (p.walk mem start before).FillsUp pad ∧
    ((p.walk mem start before).next mem start pad).NoneFillsUp mem start behind ∧
    ((p.walk mem start before).next mem start pad).countedAll mem start behind = bitsize

/-- The first field that is refused stands behind the fields `before`. -/
def Spot.StopsAt (mem : Mem) (start : ℕ) (before : List FieldDesc) (f : FieldDesc) (p : Spot) :
    Prop :=
  p.AcceptsAll mem start before ∧ ¬(p.walk mem start before).Accepts mem start f

/-- Two parses came to the same: the return value with the reason for FALSE, the struct, the
sub-stream, the cursor and the bit counter. -/
structure InResult.SameAs (r r' : InResult) : Prop where
  diag : r.diag = r'.diag
  members : r.state.members = r'.state.members
  obj : r.obj = r'.obj
  cur : r.ins.cur = r'.ins.cur
  bitsize : r.ins.bitsize = r'.ins.bitsize

/-- The stream is as it was: cursor and bit counter, and whatever is parsed from it next. -/
structure PbStream.LeftAs (ins ins' : PbStream) : Prop where
  cur : ins'.cur = ins.cur
  bitsize : ins'.bitsize = ins.bitsize
  next : ∀ (mem : Mem) (junk : ℕ) (sd : StructDesc) (presized : List (Option Buffer)) (obj : Bool),
    (inStruct mem junk sd presized ins' obj).SameAs (inStruct mem junk sd presized ins obj)

variable {mem : Mem} {sd : String} {start bitsize : ℕ} {f : FieldDesc} {fields : List FieldDesc}
  {s : InState} {p : Spot}

section Counting

theorem bitSize_inStr (size : ℕ) (make : List UInt8 → Buffer) (s : InState) :
    (inStr mem size make s).bitSize = s.bitSize + 8 * size :=
  (detachStr_spec mem 0 size ⟨s.cur, s.bitSize, [], s.reads⟩).2.1

theorem bitSize_inNumber : (inNumber mem sd f s).1.bitSize = s.bitSize + f.size := by
  unfold inNumber
  cases f.fieldType <;> rfl

/-- The counter behind a field. -/
theorem bitSize_inField : (inField mem sd start f s).1.bitSize =
    if s.spot.FillsUp f then 0 else s.bitSize + s.spot.counted start f := by
  have hpos : s.spot.pos % 8 = s.bitSize % 8 := by
    simp only [InState.spot]
    omega
  by_cases hbits : f.fieldType.isBits
  · have hpad : ¬f.fieldType = .ftPad := fun hf => by simp [hf, FieldType.isBits] at hbits
    have hcrc : ¬f.fieldType = .ftCrc := fun hf => by simp [hf, FieldType.isBits] at hbits
    rw [inField_bits hbits, bitSize_inNumber, if_neg fun h => hpad h.1]
    simp [Spot.counted, Spot.ending, hpad, hcrc, hbits]
  · unfold inField
    cases hf : f.fieldType with
    | ftPad =>
      simp only [Spot.FillsUp, hf, hpos, true_and, Spot.counted, true_or, if_true]
      unfold inPad
      split_ifs <;> rfl
    | ftCrc =>
      simp only [Spot.FillsUp, hf, reduceCtorEq, false_and, if_false, Spot.counted, or_true,
        if_true]
      unfold inCrc
      split_ifs <;> rfl
    | ftDlStr =>
      simp only [Spot.FillsUp, hf, reduceCtorEq, false_and, if_false]
      unfold inDlStr
      split <;> rename_i hp
      · rw [bitSize_inStr]
        simp [Spot.counted, Spot.ending, Spot.string, InState.spot, hf, hp, FieldType.isBits]
      all_goals simp [Spot.counted, Spot.ending, Spot.string, InState.spot, hf, hp,
        FieldType.isBits]
    | ftPRaw behind =>
      simp only [Spot.FillsUp, hf, reduceCtorEq, false_and, if_false]
      rw [inPRaw, bitSize_inStr, ← rawLeft_spot]
      simp [Spot.counted, Spot.ending, Spot.string, hf, FieldType.isBits]
    | ftFlStr len =>
      simp only [Spot.FillsUp, hf, reduceCtorEq, false_and, if_false]
      rw [inFlStr, bitSize_inStr]
      simp [Spot.counted, Spot.ending, Spot.string, hf, FieldType.isBits, initBufferPtr]
    | ftMac => simp [Spot.FillsUp, Spot.counted, Spot.ending, Spot.string, hf, FieldType.isBits]
    | _ => simp [hf, FieldType.isBits] at hbits

/-- The state of the decoder behind all fields, whether it accepts them or not. -/
def InState.pass (mem : Mem) (sd : String) (start : ℕ) (fields : List FieldDesc) (s : InState) :
    InState :=
  fields.foldl (fun s f => (inField mem sd start f s).1) s

theorem spot_pass (sd : String) :
    (s.pass mem sd start fields).spot = s.spot.walk mem start fields := by
  induction fields generalizing s with
  | nil => rfl
  | cons f fields ih =>
    rw [InState.pass, List.foldl_cons, Spot.walk, List.foldl_cons, ← spot_inField]
    exact ih

theorem pass_cons : s.pass mem sd start (f :: fields) =
    ((inField mem sd start f s).1).pass mem sd start fields := rfl

theorem pass_append (before behind : List FieldDesc) : s.pass mem sd start (before ++ behind) =
    (s.pass mem sd start before).pass mem sd start behind :=
  List.foldl_append

/-- Without padding that fills up an octet the count goes on. -/
theorem bitSize_pass (h : s.spot.NoneFillsUp mem start fields) :
    (s.pass mem sd start fields).bitSize = s.bitSize + s.spot.countedAll mem start fields := by
  induction fields generalizing s with
  | nil => rfl
  | cons f fields ih =>
    have hspot : (inField mem sd start f s).1.spot = s.spot.next mem start f := spot_inField
    rw [pass_cons, ih (by rw [hspot]; exact h.2), bitSize_inField, if_neg h.1, hspot,
      Spot.countedAll, Nat.add_assoc]

/-- Else it is that of the fields behind the last such padding. -/
theorem bitSize_pass_behind {before behind : List FieldDesc} {pad : FieldDesc}
    (hpad : (s.spot.walk mem start before).FillsUp pad)
    (hbehind : ((s.spot.walk mem start before).next mem start pad).NoneFillsUp mem start behind) :
    (s.pass mem sd start (before ++ pad :: behind)).bitSize =
      ((s.spot.walk mem start before).next mem start pad).countedAll mem start behind := by
  rw [← spot_pass sd] at hpad hbehind ⊢
  have hspot : (inField mem sd start pad (s.pass mem sd start before)).1.spot =
      (s.pass mem sd start before).spot.next mem start pad := spot_inField
  rw [← hspot] at hbehind ⊢
  rw [pass_append, pass_cons, bitSize_pass hbehind, bitSize_inField, if_pos hpad, Nat.zero_add]

theorem exists_last_fillsUp (h : ¬p.NoneFillsUp mem start fields) :
    ∃ before pad behind, fields = before ++ pad :: behind ∧
      (p.walk mem start before).FillsUp pad ∧
      ((p.walk mem start before).next mem start pad).NoneFillsUp mem start behind := by
  induction fields generalizing p with
  | nil => exact absurd trivial h
  | cons f fields ih =>
    by_cases hrest : (p.next mem start f).NoneFillsUp mem start fields
    · have hf : p.FillsUp f := by
        by_contra hf
        exact h ⟨hf, hrest⟩
      exact ⟨[], f, fields, rfl, hf, hrest⟩
    · obtain ⟨before, pad, behind, hfields, hpad, hbehind⟩ := ih hrest
      use f :: before, pad, behind
      rw [hfields]
      exact ⟨rfl, hpad, hbehind⟩

/-- The counter is what it was exactly where the fields keep the count. -/
theorem bitSize_pass_iff (sd : String) : (s.pass mem sd start fields).bitSize = s.bitSize ↔
    s.spot.KeepsCount mem start s.bitSize fields := by
  by_cases hnone : s.spot.NoneFillsUp mem start fields
  · constructor
    · intro hsame
      rw [bitSize_pass hnone] at hsame
      exact .inl ⟨hnone, by omega⟩
    · intro hkeeps
      rcases hkeeps with ⟨-, hzero⟩ | ⟨before, pad, behind, rfl, hpad, hbehind, hsize⟩
      · rw [bitSize_pass hnone, hzero, Nat.add_zero]
      · rw [bitSize_pass_behind hpad hbehind, hsize]
  · constructor
    · intro hsame
      obtain ⟨before, pad, behind, rfl, hpad, hbehind⟩ := exists_last_fillsUp hnone
      rw [bitSize_pass_behind hpad hbehind] at hsame
      exact .inr ⟨before, pad, behind, rfl, hpad, hbehind, hsame⟩
    · intro hkeeps
      rcases hkeeps with ⟨hall, -⟩ | ⟨before, pad, behind, rfl, hpad, hbehind, hsize⟩
      · exact absurd hall hnone
      · rw [bitSize_pass_behind hpad hbehind, hsize]

end Counting

section Stopping

/-- The decoder gives up at a first refused field, having gone through it. -/
theorem inFields_stopsAt (sd : String) (s : InState) {before : List FieldDesc}
    (behind : List FieldDesc) (h : s.spot.StopsAt mem start before f) :
    (inFields mem sd start (before ++ f :: behind) s).1 = s.pass mem sd start (before ++ [f]) ∧
      (inFields mem sd start (before ++ f :: behind) s).2 ≠ none := by
  induction before generalizing s with
  | nil => exact inFields_of_refuses h.2
  | cons g before ih =>
    have hspot : (inField mem sd start g s).1.spot = s.spot.next mem start g := spot_inField
    rw [List.cons_append, inFields_of_accepts h.1.1, List.cons_append, pass_cons]
    apply ih
    rw [hspot]
    exact ⟨h.1.2, h.2⟩

theorem exists_stopsAt (h : ¬p.AcceptsAll mem start fields) :
    ∃ before f behind, fields = before ++ f :: behind ∧ p.StopsAt mem start before f := by
  induction fields generalizing p with
  | nil => exact absurd trivial h
  | cons g fields ih =>
    by_cases hg : p.Accepts mem start g
    · have hrest : ¬(p.next mem start g).AcceptsAll mem start fields := fun hall => h ⟨hg, hall⟩
      obtain ⟨before, f, behind, hfields, hstops⟩ := ih hrest
      use g :: before, f, behind
      rw [hfields]
      exact ⟨rfl, ⟨hg, hstops.1⟩, hstops.2⟩
    · exact ⟨[], g, fields, rfl, trivial, hg⟩

end Stopping

section Marks

/-- The state with other marks in it, which nothing reads. -/
def InState.mark (crcFld pldFld : Option ℕ) (s : InState) : InState :=
  { s with crcFld := crcFld, pldFld := pldFld }

theorem inField_mark (mem : Mem) (sd : String) (start : ℕ) (f : FieldDesc) (c d : Option ℕ)
    (s : InState) : ∃ c' d',
    inField mem sd start f (s.mark c d) =
      ((inField mem sd start f s).1.mark c' d', (inField mem sd start f s).2) := by
  by_cases hbits : f.fieldType.isBits
  · use c, d
    rw [inField_bits hbits, inField_bits hbits]
    unfold inNumber
    cases f.fieldType <;> rfl
  · unfold inField
    cases hf : f.fieldType with
    | ftPad =>
      use c, d
      by_cases hb : s.bitSize % 8 = 0 <;> simp [inPad, InState.mark, hb]
    | ftCrc =>
      use some s.cur, d
      by_cases h8 : f.size = crc8Size
      · simp only [inCrc, InState.mark, if_pos h8]
        rfl
      · by_cases h32 : f.size = crc32Size
        · simp only [inCrc, InState.mark, if_neg h8, if_pos h32]
          rfl
        · simp only [inCrc, InState.mark, if_neg h8, if_neg h32]
    | ftDlStr =>
      use c, d
      simp only [inDlStr]
      cases hp : s.presized with
      | nil => simp [InState.mark, hp]
      | cons b rest =>
        cases b <;> simp [InState.mark, hp, inStr]
    | ftPRaw behind =>
      use c, some s.cur
      rfl
    | ftFlStr len =>
      use c, d
      rfl
    | ftMac =>
      use c, d
    | _ => simp [hf, FieldType.isBits] at hbits

theorem inFields_mark (mem : Mem) (sd : String) (start : ℕ) (fields : List FieldDesc)
    (c d : Option ℕ) (s : InState) : ∃ c' d',
    inFields mem sd start fields (s.mark c d) =
      ((inFields mem sd start fields s).1.mark c' d', (inFields mem sd start fields s).2) := by
  induction fields generalizing s c d with
  | nil => exact ⟨c, d, rfl⟩
  | cons f fields ih =>
    obtain ⟨c₁, d₁, hfield⟩ := inField_mark mem sd start f c d s
    rw [inFields, inFields, hfield]
    cases hugh : (inField mem sd start f s).2 with
    | none =>
      have hs : inField mem sd start f s = ((inField mem sd start f s).1, none) := by rw [← hugh]
      rw [hs]
      exact ih c₁ d₁ _
    | some ugh =>
      have hs : inField mem sd start f s = ((inField mem sd start f s).1, some ugh) := by
        rw [← hugh]
      rw [hs]
      exact ⟨c₁, d₁, rfl⟩

/-- What a parse comes to depends on the stream's ends, its cursor and its bit counter. -/
theorem inStruct_sameAs {ins ins' : PbStream} (hstart : ins'.start = ins.start)
    (hroof : ins'.roof = ins.roof) (hcur : ins'.cur = ins.cur)
    (hbitsize : ins'.bitsize = ins.bitsize) (junk : ℕ) (sd : StructDesc)
    (presized : List (Option Buffer)) (obj : Bool) :
    (inStruct mem junk sd presized ins' obj).SameAs (inStruct mem junk sd presized ins obj) := by
  have hfrom : inStart ins' presized = (inStart ins presized).mark ins'.crcFld ins'.pldFld := by
    simp [inStart, InState.mark, hcur, hbitsize]
  unfold inStruct
  rw [hstart, hroof, hcur, hfrom]
  by_cases hroom : u64 (ins.roof - ins.cur) < sizeofStruct sd.fields
  · rw [if_pos hroom, if_pos hroom]
    constructor <;> simp [hcur, hbitsize, InState.mark]
  · rw [if_neg hroom, if_neg hroom]
    obtain ⟨c, d, hloop⟩ := inFields_mark mem sd.name ins.start sd.fields
      ins'.crcFld ins'.pldFld (inStart ins presized)
    rw [hloop]
    generalize inFields mem sd.name ins.start sd.fields (inStart ins presized) = loop
    obtain ⟨s', ugh⟩ := loop
    cases ugh with
    | some ugh => constructor <;> rfl
    | none => cases obj <;> constructor <;> rfl

end Marks

/-- **Failed parse.** Where `in_struct` returns FALSE, the stream is as it was exactly where the
room test refused, or the fields up to the first refused one keep the bit count. -/
theorem failed_parse_leaves_iff {junk : ℕ} {sd : StructDesc} {presized : List (Option Buffer)}
    {ins : PbStream} {obj : Bool} (hfail : (inStruct mem junk sd presized ins obj).diag ≠ none) :
    ins.LeftAs (inStruct mem junk sd presized ins obj).ins ↔
      ins.NoRoom sd.fields ∨ ∃ before f behind, sd.fields = before ++ f :: behind ∧
        (ins.spot presized).StopsAt mem ins.start before f ∧
        (ins.spot presized).KeepsCount mem ins.start ins.bitsize (before ++ [f]) := by
  obtain ⟨hstart, hroof⟩ := frame_inStruct mem junk sd presized ins obj
  by_cases hroom : ins.NoRoom sd.fields
  · apply iff_of_true
    · rw [inStruct_noRoom mem junk presized obj hroom]
      exact ⟨rfl, rfl, fun mem junk sd presized obj =>
        inStruct_sameAs rfl rfl rfl rfl junk sd presized obj⟩
    · exact .inl hroom
  · have hrefused : ¬(ins.spot presized).AcceptsAll mem ins.start sd.fields := fun hall =>
      hfail ((diag_inStruct mem junk presized obj hroom).mpr hall)
    have hcur := (inStruct_refused mem junk obj hrefused).1
    -- the counter is that of the decoder's state behind the refused field
    have hcount {before behind : List FieldDesc} {f : FieldDesc}
        (hfields : sd.fields = before ++ f :: behind)
        (hstops : (ins.spot presized).StopsAt mem ins.start before f) :
        (inStruct mem junk sd presized ins obj).ins.bitsize = ins.bitsize ↔
          (ins.spot presized).KeepsCount mem ins.start ins.bitsize (before ++ [f]) := by
      obtain ⟨hstate, hugh⟩ := inFields_stopsAt sd.name (inStart ins presized) behind
        hstops
      have hbitsize : (inStruct mem junk sd presized ins obj).ins.bitsize =
          (InState.pass mem sd.name ins.start (before ++ [f]) (inStart ins presized)).bitSize := by
        rw [← hstate]
        rw [← hfields] at hugh ⊢
        unfold PbStream.NoRoom at hroom
        rw [inStruct, if_neg hroom]
        simp only
        split
        · rfl
        · simp_all
      rw [hbitsize]
      exact bitSize_pass_iff sd.name
    rw [or_iff_right hroom]
    constructor
    · intro hleft
      obtain ⟨before, f, behind, hfields, hstops⟩ := exists_stopsAt hrefused
      exact ⟨before, f, behind, hfields, hstops, (hcount hfields hstops).mp hleft.bitsize⟩
    · intro hkeeps
      obtain ⟨before, f, behind, hfields, hstops, hkeeps⟩ := hkeeps
      have hbitsize := (hcount hfields hstops).mpr hkeeps
      constructor
      · exact hcur
      · exact hbitsize
      · intro mem' junk' sd' presized' obj'
        exact inStruct_sameAs hstart hroof hcur hbitsize junk' sd' presized' obj'

/-- A wrong checksum behind padding that started the count again: the stream is as it was. -/
theorem failed_parse_leaves_padded :
    let sd : StructDesc := ⟨"S", [⟨.ftSet, 4, "TYPE"⟩, ⟨.ftPad, 0, "PAD"⟩, ⟨.ftCrc, 8, "CRC"⟩]⟩
    let ins := initPbs 0 2
    ins.LeftAs (inStruct (fun _ => 0x10) 0 sd [] ins false).ins := by
  intro sd ins
  have hfail : (inStruct (fun _ => 0x10) 0 sd [] ins false).diag ≠ none := by decide
  apply (failed_parse_leaves_iff hfail).mpr
  right
  use [⟨.ftSet, 4, "TYPE"⟩, ⟨.ftPad, 0, "PAD"⟩], ⟨.ftCrc, 8, "CRC"⟩, [], rfl
  constructor
  · constructor
    · exact ⟨trivial, trivial, trivial⟩
    · intro haccepts
      exact absurd (haccepts (.inl rfl)) (by decide)
  · right
    use [⟨.ftSet, 4, "TYPE"⟩], ⟨.ftPad, 0, "PAD"⟩, [⟨.ftCrc, 8, "CRC"⟩], rfl
    exact ⟨by decide, ⟨by decide, trivial⟩, by decide⟩

/-- An enumeration of four bits with an unknown value: FALSE, with the four bits counted, so that
the next parse starts inside the octet. -/
theorem failed_parse_counts_bits :
    let sd : StructDesc := ⟨"S", [⟨.ftEnum [⟨0, 0, ["ZERO"]⟩], 4, "KIND"⟩]⟩
    let r := inStruct (fun _ => 0x10) 0 sd [] (initPbs 0 1) false
    r.diag ≠ none ∧ r.ins.bitsize = 4 ∧ ¬(initPbs 0 1).LeftAs r.ins := by
  intro sd r
  have hbitsize : r.ins.bitsize = 4 := by decide
  refine ⟨by decide, hbitsize, ?_⟩
  intro hleft
  have hzero := hleft.bitsize
  rw [hbitsize] at hzero
  exact absurd hzero (by decide)

end LdacsSdk
