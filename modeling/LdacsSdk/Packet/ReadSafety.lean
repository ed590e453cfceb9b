import LdacsSdk.Packet.Positions

/-!
# What the decoder reads

A walk over a whole descriptor at bit positions, what `in_struct` leaves behind in terms of it, and
when the walk stays inside its input.
-/
namespace LdacsSdk

open Library

/-- The spot behind all fields. -/
def Spot.walk (mem : Mem) (start : ℕ) (fields : List FieldDesc) (p : Spot) : Spot :=
  fields.foldl (fun p f => p.next mem start f) p

/-- Every field holds what the decoder insists on. -/
def Spot.AcceptsAll (mem : Mem) (start : ℕ) : List FieldDesc → Spot → Prop
  | [], _ => True
  | f :: fields, p => p.Accepts mem start f ∧ (p.next mem start f).AcceptsAll mem start fields

/-- Every field up to the first that is refused fits. -/
def Spot.FitsAll (mem : Mem) (start roof : ℕ) : List FieldDesc → Spot → Prop
  | [], _ => True
  | f :: fields, p => p.Fits start roof f ∧
      (p.Accepts mem start f → (p.next mem start f).FitsAll mem start roof fields)

/-- The members of the struct that the walk fills. -/
def Spot.filledAll (mem : Mem) (start : ℕ) : List FieldDesc → Spot → List Member
  | [], _ => []
  | f :: fields, p => p.filled mem start f ++ (p.next mem start f).filledAll mem start fields

variable {mem : Mem} {sd : String} {start roof : ℕ} {fields : List FieldDesc} {s : InState}

theorem inFields_of_accepts {f : FieldDesc} (h : s.spot.Accepts mem start f) :
    inFields mem sd start (f :: fields) s =
      inFields mem sd start fields (inField mem sd start f s).1 := by
  have hnone : (inField mem sd start f s).2 = none := accepts_inField.mpr h
  rw [inFields]
  split <;> simp_all

theorem inFields_of_refuses {f : FieldDesc} (h : ¬s.spot.Accepts mem start f) :
    (inFields mem sd start (f :: fields) s).1 = (inField mem sd start f s).1 ∧
      (inFields mem sd start (f :: fields) s).2 ≠ none := by
  have hsome : (inField mem sd start f s).2 ≠ none := fun hnone => h (accepts_inField.mp hnone)
  rw [inFields]
  split <;> simp_all

/-- `in_struct` gets to the end exactly where the walk accepts every field. -/
theorem accepts_inFields :
    (inFields mem sd start fields s).2 = none ↔ s.spot.AcceptsAll mem start fields := by
  induction fields generalizing s with
  | nil => simp [inFields, Spot.AcceptsAll]
  | cons f fields ih =>
    rw [Spot.AcceptsAll]
    by_cases h : s.spot.Accepts mem start f
    · rw [inFields_of_accepts h, ih, spot_inField]
      exact (and_iff_right h).symm
    · constructor
      · intro hnone
        exact absurd hnone (inFields_of_refuses h).2
      · intro hall
        exact absurd hall.1 h

/-- Where it gets to the end, it stands where the walk ends, with the members the walk fills. -/
theorem walk_inFields (sd : String) (s : InState) (h : s.spot.AcceptsAll mem start fields) :
    (inFields mem sd start fields s).1.spot = s.spot.walk mem start fields ∧
      (inFields mem sd start fields s).1.members =
        s.members ++ s.spot.filledAll mem start fields := by
  induction fields generalizing s with
  | nil => simp [inFields, Spot.walk, Spot.filledAll]
  | cons f fields ih =>
    have hspot : (inField mem sd start f s).1.spot = s.spot.next mem start f := spot_inField
    have hnext := ih (inField mem sd start f s).1 (by rw [hspot]; exact h.2)
    rw [inFields_of_accepts h.1, hnext.1, hnext.2, members_inField, hspot, Spot.filledAll,
      List.append_assoc]
    exact ⟨rfl, rfl⟩

/-- It stays inside exactly where every field up to the first refused one fits. -/
theorem inside_inFields :
    (inFields mem sd start fields s).1.Inside roof ↔
      s.Inside roof ∧ s.spot.FitsAll mem start roof fields := by
  induction fields generalizing s with
  | nil => simp [inFields, Spot.FitsAll]
  | cons f fields ih =>
    rw [Spot.FitsAll]
    by_cases h : s.spot.Accepts mem start f
    · rw [inFields_of_accepts h, ih, inside_inField, spot_inField, and_assoc]
      simp [h]
    · rw [(inFields_of_refuses h).1, inside_inField]
      simp [h]

theorem inside_inStart (ins : PbStream) (presized : List (Option Buffer)) :
    (inStart ins presized).Inside roof := by
  constructor <;> simp [inStart]

/-- The spot `in_struct` starts from. -/
def PbStream.spot (ins : PbStream) (presized : List (Option Buffer)) : Spot :=
  ⟨8 * ins.cur + ins.bitsize % 8, 0, 0, none, presized⟩

theorem spot_inStart (ins : PbStream) (presized : List (Option Buffer)) :
    (inStart ins presized).spot = ins.spot presized := rfl

/-- The room test of `in_struct` and `out_struct` refuses the stream. -/
def PbStream.NoRoom (pbs : PbStream) (fields : List FieldDesc) : Prop :=
  u64 (pbs.roof - pbs.cur) < sizeofStruct fields

theorem state_inStruct (mem : Mem) (junk : ℕ) (sd : StructDesc) (presized : List (Option Buffer))
    {ins : PbStream} (obj : Bool) (h : ¬ins.NoRoom sd.fields) :
    (inStruct mem junk sd presized ins obj).state =
      (inFields mem sd.name ins.start sd.fields (inStart ins presized)).1 := by
  unfold PbStream.NoRoom at h
  rw [inStruct, if_neg h]
  simp only
  split
  · rfl
  · split <;> rfl

theorem inStruct_noRoom (mem : Mem) (junk : ℕ) {sd : StructDesc}
    (presized : List (Option Buffer)) {ins : PbStream} (obj : Bool) (h : ins.NoRoom sd.fields) :
    inStruct mem junk sd presized ins obj =
      ⟨ins, none, some (.noRoomIn sd.name), inStart ins presized⟩ :=
  if_pos h

theorem frame_inStruct (mem : Mem) (junk : ℕ) (sd : StructDesc)
    (presized : List (Option Buffer)) (ins : PbStream) (obj : Bool) :
    (inStruct mem junk sd presized ins obj).ins.start = ins.start ∧
      (inStruct mem junk sd presized ins obj).ins.roof = ins.roof := by
  unfold inStruct
  split_ifs
  · exact ⟨rfl, rfl⟩
  all_goals
    simp only
    split <;> simp

/-- `in_struct` that refuses a field moves no cursor and makes no sub-stream. -/
theorem inStruct_refused (mem : Mem) (junk : ℕ) {sd : StructDesc}
    {presized : List (Option Buffer)} {ins : PbStream} (obj : Bool)
    (h : ¬(ins.spot presized).AcceptsAll mem ins.start sd.fields) :
    (inStruct mem junk sd presized ins obj).ins.cur = ins.cur ∧
      (inStruct mem junk sd presized ins obj).obj = none ∧
      (inStruct mem junk sd presized ins obj).diag ≠ none := by
  by_cases hroom : ins.NoRoom sd.fields
  · rw [inStruct_noRoom mem junk presized obj hroom]
    simp
  · have hugh : (inFields mem sd.name ins.start sd.fields (inStart ins presized)).2 ≠ none := by
      intro hnone
      exact h (accepts_inFields.mp hnone)
    unfold PbStream.NoRoom at hroom
    rw [inStruct, if_neg hroom]
    simp only
    split <;> simp_all

/-- `in_struct` that accepts every field puts the cursor where the walk ends, and beyond the
received length behind it where a sub-stream is made. -/
theorem inStruct_accepted (mem : Mem) (junk : ℕ) {sd : StructDesc}
    {presized : List (Option Buffer)} {ins : PbStream} (obj : Bool) (hroom : ¬ins.NoRoom sd.fields)
    (h : (ins.spot presized).AcceptsAll mem ins.start sd.fields) :
    let p := (ins.spot presized).walk mem ins.start sd.fields
    let r := inStruct mem junk sd presized ins obj
    r.diag = none ∧ r.ins.cur = p.pos / 8 + (if obj then p.sduLen else 0) ∧
      8 * r.state.cur + r.ins.bitsize % 8 = p.pos ∧
      r.state.members = (ins.spot presized).filledAll mem ins.start sd.fields ∧
      r.obj = if obj then
        some { initPbs (p.payloadStart.getD junk) p.sduLen with cur := p.pos / 8 } else none := by
  intro p r
  have hnone : (inFields mem sd.name ins.start sd.fields (inStart ins presized)).2 = none :=
    accepts_inFields.mpr h
  obtain ⟨hspot, hmembers⟩ := walk_inFields sd.name (inStart ins presized) h
  unfold PbStream.NoRoom at hroom
  simp only [r, inStruct, if_neg hroom]
  generalize inFields mem sd.name ins.start sd.fields (inStart ins presized) = loop at *
  have hp : p = loop.1.spot := hspot.symm
  have hcur : p.pos / 8 = loop.1.cur := by rw [hp]; exact bitPos_div _ _
  rw [hnone, hcur]
  cases obj with
  | false => exact ⟨rfl, rfl, by rw [hp]; rfl, hmembers, rfl⟩
  | true =>
    refine ⟨rfl, ?_, by rw [hp]; rfl, hmembers, ?_⟩
    · rw [hp]
      rfl
    · rw [hp]
      rfl

/-- **Stream decoding.** `in_struct` reads no byte at or past the roof, copies at most
`MAX_INPUT_BUFFER_SIZE` bytes into the scratch array and computes no length below zero exactly
where its room test refuses, or every field up to the first refused one fits the input. -/
theorem in_struct_reads_inside_iff (mem : Mem) (junk : ℕ) (sd : StructDesc)
    (presized : List (Option Buffer)) (ins : PbStream) (obj : Bool) :
    (inStruct mem junk sd presized ins obj).state.Inside ins.roof ↔ ins.NoRoom sd.fields ∨
      (ins.spot presized).FitsAll mem ins.start ins.roof sd.fields := by
  by_cases hroom : ins.NoRoom sd.fields
  · rw [inStruct_noRoom mem junk presized obj hroom]
    exact iff_of_true (inside_inStart ins presized) (.inl hroom)
  · rw [state_inStruct mem junk sd presized obj hroom, inside_inFields, spot_inStart,
      and_iff_right (inside_inStart ins presized), or_iff_right hroom]

/-- One byte of string, on a stream with no byte in it: TRUE, and the byte at the roof is read. -/
theorem in_struct_reads_past_empty :
    let r := inStruct (fun _ => 0) 0 ⟨"S", [⟨.ftFlStr 1, 0, "STR"⟩]⟩ [] (initPbs 0 0) false
    r.diag = none ∧ r.state.reads = [0] ∧ ¬r.state.Inside (initPbs 0 0).roof := by
  intro r
  have hreads : r.state.reads = [0] := by decide
  refine ⟨by decide, hreads, ?_⟩
  intro h
  exact absurd (h.reads 0 (by rw [hreads]; simp)) (by decide)

end LdacsSdk
