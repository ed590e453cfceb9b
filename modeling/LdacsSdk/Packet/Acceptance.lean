import LdacsSdk.Packet.ReadSafety

/-!
# What the decoder accepts

The format asks something of the word at each field's position. The decoder asks for something
else in two ways: it does not look at an `ft_mbz` field, and it compares a field of 32 bits after
it went through an `int`, so that a word with its top bit set is compared as a value next to
`2 ^ 64`.
-/
namespace LdacsSdk

open Library

/-- The value lies in one of the ranges. -/
def Named (ed : EnumNames) (v : ℕ) : Prop := ∃ r ∈ ed, r.enFirst ≤ v ∧ v ≤ r.enLast

/-- Every value of every range has its name. -/
def NamesFill (ed : EnumNames) : Prop := ∀ r ∈ ed, r.enLast < r.enFirst + r.enNames.length

instance (ed : EnumNames) (v : ℕ) : Decidable (Named ed v) :=
  inferInstanceAs (Decidable (∃ r ∈ ed, r.enFirst ≤ v ∧ v ≤ r.enLast))

/-- A bit field of up to 32 bits, a pad or a checksum. -/
def FormatField (f : FieldDesc) : Prop :=
  match f.fieldType with
  | .ftPad => True
  | .ftCrc => f.size = crc8Size ∨ f.size = crc32Size
  | .ftEnum ed => (1 ≤ f.size ∧ f.size ≤ 32) ∧ NamesFill ed
  | .ftFix fixNum => (1 ≤ f.size ∧ f.size ≤ 32) ∧ fixNum < 2 ^ f.size
  | t => (1 ≤ f.size ∧ f.size ≤ 32) ∧ t.isBits

/-- The position behind a field of the format. -/
def fieldEnd (f : FieldDesc) (pos : ℕ) : ℕ :=
  if f.fieldType = .ftPad then octetBorder pos else pos + f.size

/-- The fields with the bit positions they stand at. -/
def placedFields : List FieldDesc → ℕ → List (FieldDesc × ℕ)
  | [], _ => []
  | f :: fields, pos => (f, pos) :: placedFields fields (fieldEnd f pos)

/-- The word at the position is what the format asks for. -/
def MeetsFormat (mem : Mem) (start : ℕ) (x : FieldDesc × ℕ) : Prop :=
  match x.1.fieldType with
  | .ftMbz => wordAt mem x.2 x.1.size = 0
  | .ftEnum ed => Named ed (wordAt mem x.2 x.1.size)
  | .ftFix fixNum => wordAt mem x.2 x.1.size = fixNum
  | .ftCrc => wordAt mem x.2 x.1.size = checksum mem start x.2 x.1.size
  | _ => True

/-- The word breaks the format, and the decoder sees it. -/
def Refusable (mem : Mem) (start : ℕ) (x : FieldDesc × ℕ) : Prop :=
  match x.1.fieldType with
  | .ftEnum ed => ¬Named ed (wordAt mem x.2 x.1.size) ∧
      ¬Named ed (intToU64 (wordAt mem x.2 x.1.size))
  | .ftFix fixNum => wordAt mem x.2 x.1.size ≠ fixNum
  | .ftCrc => wordAt mem x.2 x.1.size ≠ checksum mem start x.2 x.1.size
  | _ => False

/-- The word breaks the format: an `ft_mbz` field that is not zero, or a value without a name that
has one after it went through an `int`. -/
def Unchecked (mem : Mem) (x : FieldDesc × ℕ) : Prop :=
  match x.1.fieldType with
  | .ftMbz => wordAt mem x.2 x.1.size ≠ 0
  | .ftEnum ed => ¬Named ed (wordAt mem x.2 x.1.size) ∧
      Named ed (intToU64 (wordAt mem x.2 x.1.size))
  | _ => False

/-- The word is right, but the `int` it goes through is negative: a fixed value from `2 ^ 31` on, or
a name that is lost. -/
def Misread (mem : Mem) (x : FieldDesc × ℕ) : Prop :=
  match x.1.fieldType with
  | .ftEnum ed => Named ed (wordAt mem x.2 x.1.size) ∧
      ¬Named ed (intToU64 (wordAt mem x.2 x.1.size))
  | .ftFix fixNum => wordAt mem x.2 x.1.size = fixNum ∧ 2 ^ 31 ≤ fixNum
  | _ => False

variable {mem : Mem} {start pos : ℕ} {f : FieldDesc} {fields : List FieldDesc} {x : FieldDesc × ℕ}

theorem enumName_ne_none {ed : EnumNames} (h : NamesFill ed) (v : ℕ) :
    enumName ed v ≠ none ↔ Named ed v := by
  induction ed with
  | nil => simp [enumName, Named]
  | cons r ed ih =>
    have htail := ih fun r' hr' => h r' (by simp [hr'])
    have hhead := h r (by simp)
    rw [enumName]
    split_ifs with hin
    · have hname : v - r.enFirst < r.enNames.length := by omega
      refine iff_of_true ?_ ⟨r, by simp, hin⟩
      simp [List.getElem?_eq_getElem hname]
    · rw [htail, Named, Named, List.exists_mem_cons_iff, or_iff_right hin]

/-- The format asks that nothing is wrong with a field. -/
theorem meetsFormat_iff : MeetsFormat mem start x ↔ ¬Refusable mem start x ∧ ¬Unchecked mem x := by
  unfold MeetsFormat Refusable Unchecked
  cases x.1.fieldType <;> simp
  tauto

/-- The decoder asks for something else. -/
theorem accepts_iff {p : Spot} (hf : FormatField f) (hcrc : f.fieldType = .ftCrc → p.pos % 8 = 0) :
    p.Accepts mem start f ↔ ¬Refusable mem start (f, p.pos) ∧ ¬Misread mem (f, p.pos) := by
  unfold FormatField at hf
  unfold Spot.Accepts Refusable Misread valueAt
  cases ht : f.fieldType with
  | ftEnum ed =>
    simp only [ht] at hf ⊢
    rw [enumName_ne_none hf.2]
    tauto
  | ftFix fixNum =>
    simp only [ht] at hf ⊢
    have h32 : 2 ^ f.size ≤ 2 ^ 32 := Nat.pow_le_pow_right (by decide) hf.1.2
    rw [intToU64_eq_iff (wordAt_lt.trans_le h32) (hf.2.trans_le h32)]
    omega
  | ftCrc =>
    simp only [ht] at hf ⊢
    have haligned : 8 * (p.pos / 8) = p.pos := by
      have hmod := hcrc ht
      omega
    rw [haligned, imp_iff_right hf, eq_comm]
    simp
  | _ => simp

theorem pos_next {p : Spot} (hf : FormatField f) : (p.next mem start f).pos = fieldEnd f p.pos := by
  unfold FormatField at hf
  cases ht : f.fieldType <;>
    simp_all [Spot.next, Spot.ending, fieldEnd, FieldType.isBits]

/-- The walk asks for every field what it asks for at its position. -/
theorem acceptsAll_iff {p : Spot} (hf : ∀ f ∈ fields, FormatField f)
    (hcrc : ∀ x ∈ placedFields fields p.pos, x.1.fieldType = .ftCrc → x.2 % 8 = 0) :
    p.AcceptsAll mem start fields ↔
      ∀ x ∈ placedFields fields p.pos, ¬Refusable mem start x ∧ ¬Misread mem x := by
  induction fields generalizing p with
  | nil => simp [Spot.AcceptsAll, placedFields]
  | cons f fields ih =>
    have hnext : (p.next mem start f).pos = fieldEnd f p.pos := pos_next (hf f (by simp))
    rw [placedFields, List.forall_mem_cons] at hcrc
    rw [← hnext] at hcrc
    rw [Spot.AcceptsAll, placedFields, List.forall_mem_cons, accepts_iff (hf f (by simp)) hcrc.1,
      ih (fun g hg => hf g (by simp [hg])) hcrc.2, hnext]

theorem diag_inStruct (mem : Mem) (junk : ℕ) {sd : StructDesc} (presized : List (Option Buffer))
    {ins : PbStream} (obj : Bool) (hroom : ¬ins.NoRoom sd.fields) :
    (inStruct mem junk sd presized ins obj).diag = none ↔
      (ins.spot presized).AcceptsAll mem ins.start sd.fields := by
  constructor
  · intro hnone
    by_contra hrefused
    exact (inStruct_refused mem junk obj hrefused).2.2 hnone
  · intro hall
    exact (inStruct_accepted mem junk obj hroom hall).1

/-- **Acceptance.** `in_struct` returns TRUE exactly for what meets the format, if and only if some
word is wrong in a way that it sees, or it finds a wrong field where it does not see another. -/
theorem accepts_format_iff (mem : Mem) (junk : ℕ) (sd : StructDesc)
    (presized : List (Option Buffer)) (ins : PbStream) (obj : Bool)
    (hfields : ∀ f ∈ sd.fields, FormatField f)
    (haligned : ∀ x ∈ placedFields sd.fields (8 * ins.cur + ins.bitsize % 8),
      x.1.fieldType = .ftCrc → x.2 % 8 = 0)
    (hroom : ¬ins.NoRoom sd.fields) :
    let placed := placedFields sd.fields (8 * ins.cur + ins.bitsize % 8)
    ((inStruct mem junk sd presized ins obj).diag = none ↔
        ∀ x ∈ placed, MeetsFormat mem ins.start x) ↔
      (∃ x ∈ placed, Refusable mem ins.start x) ∨
        ((∃ x ∈ placed, Unchecked mem x) ↔ ∃ x ∈ placed, Misread mem x) := by
  intro placed
  have hcode : (inStruct mem junk sd presized ins obj).diag = none ↔
      (¬∃ x ∈ placed, Refusable mem ins.start x) ∧ ¬∃ x ∈ placed, Misread mem x := by
    rw [diag_inStruct mem junk presized obj hroom, acceptsAll_iff hfields haligned]
    simp only [forall_and, not_exists, not_and]
    rfl
  have hformat : (∀ x ∈ placed, MeetsFormat mem ins.start x) ↔
      (¬∃ x ∈ placed, Refusable mem ins.start x) ∧ ¬∃ x ∈ placed, Unchecked mem x := by
    simp only [meetsFormat_iff, forall_and, not_exists, not_and]
  rw [hcode, hformat]
  by_cases hrefusable : ∃ x ∈ placed, Refusable mem ins.start x
  · simp [hrefusable]
  · rw [or_iff_right hrefusable, and_iff_right hrefusable, and_iff_right hrefusable, not_iff_not]
    exact iff_comm

/-- Four bits, a pad and the checksum of the octet. -/
theorem accepts_format_iff_padded :
    let sd : StructDesc := ⟨"S", [⟨.ftMbz, 4, "MBZ"⟩, ⟨.ftPad, 0, "PAD"⟩, ⟨.ftCrc, 8, "CRC"⟩]⟩
    let mem : Mem := fun a => if a = 0 then 0x0F else crc8Table.getD 0x0F 0
    (inStruct mem 0 sd [] (initPbs 0 2) false).diag = none ↔
      ∀ x ∈ placedFields sd.fields 0, MeetsFormat mem 0 x := by
  intro sd mem
  have hfields : ∀ f ∈ sd.fields, FormatField f := by
    simp [sd, FormatField, FieldType.isBits, crc8Size]
  have haligned : ∀ x ∈ placedFields sd.fields 0, x.1.fieldType = .ftCrc → x.2 % 8 = 0 := by
    decide
  have hroom : ¬(initPbs 0 2).NoRoom sd.fields := by
    unfold PbStream.NoRoom
    decide
  have hnothing : (∃ x ∈ placedFields sd.fields 0, Unchecked mem x) ↔
      ∃ x ∈ placedFields sd.fields 0, Misread mem x := by
    have hzero : wordAt mem 0 4 = 0 := by decide
    simp [sd, placedFields, Unchecked, Misread, hzero]
  exact (accepts_format_iff mem 0 sd [] (initPbs 0 2) false hfields haligned hroom).mpr
    (.inr hnothing)

/-- A field that must be zero is not looked at, and a fixed value of 32 bits with the top bit set is
refused where it stands. -/
theorem misjudged :
    let set : Mem := fun _ => 0xFF
    let mbz : StructDesc := ⟨"M", [⟨.ftMbz, 8, "MBZ"⟩]⟩
    let fix : StructDesc := ⟨"F", [⟨.ftFix 0xFFFFFFFF, 32, "FIX"⟩]⟩
    ((inStruct set 0 mbz [] (initPbs 0 1) false).diag = none ∧
      ¬∀ x ∈ placedFields mbz.fields 0, MeetsFormat set 0 x) ∧
    (inStruct set 0 fix [] (initPbs 0 4) false).diag ≠ none ∧
      ∀ x ∈ placedFields fix.fields 0, MeetsFormat set 0 x := by
  intro set mbz fix
  have hones : wordAt set 0 8 = 0xFF := by decide
  have hfixed : wordAt set 0 32 = 0xFFFFFFFF := by decide
  refine ⟨⟨by decide, ?_⟩, by decide, ?_⟩
  · simp [mbz, placedFields, MeetsFormat, hones]
  · simp [fix, placedFields, MeetsFormat, hfixed]

end LdacsSdk
