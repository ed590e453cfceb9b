import LdacsSdk.Sql.Splicing
import Mathlib.Data.List.TakeWhile

/-!
# Columns and values of an insertion

The columns of an INSERT statement are all fields that are not automatic, up to the end of the
descriptor. The values stop in front of the next automatic field, so that the two agree where the
automatic fields stand in front of all others.
-/
namespace LdacsSdk

open Library

/-- The fields with what stands at their own offsets, each behind all fields in front of it. -/
def ownCells (s : SqlStruct) (fields : List TableTmpl) : List (TableTmpl × SqlCell) :=
  fields.zipIdx.map fun f => (f.1, s ((fields.take f.2).map TableTmpl.size).sum)

/-- The field is filled in by the caller. -/
def TableTmpl.given (curField : TableTmpl) : Bool := !curField.autoIncrement

/-- The given fields with what stands at their offsets. -/
def givenCells (s : SqlStruct) (fields : List TableTmpl) : List (TableTmpl × SqlCell) :=
  (ownCells s fields).filter fun fc => fc.1.given

/-- The pieces with commas between them. -/
def separated (parts : List (List SqlPiece)) : List SqlPiece :=
  [.code (chars ", ")].intercalate parts

/-- A value of a struct, without the time in the place of one. -/
def structValue (curField : TableTmpl) (cell : SqlCell) : List SqlPiece :=
  if curField.sqlType = .sqlText then printText cell else printNumber curField cell

/-- The statement lists the given fields as columns, and as many values in the same order, each
rendered from what stands at the offset of its own field. -/
def InsertPairs (render : TableTmpl → SqlCell → List SqlPiece) (t : ClockTime)
    (tDesc : TableTmplDesc) (s : SqlStruct) : Prop :=
  (∀ fc ∈ givenCells s tDesc.fields, ∃ v, render fc.1 fc.2 = [v]) ∧
    insertValue t tDesc s = some
      ([.code (chars "INSERT INTO "), .name tDesc.tableName, .code (chars " (")] ++
        (separated ((tDesc.fields.filter TableTmpl.given).map fun f => [.name f.name]) ++
          [.code (chars ") VALUES (")]) ++
        (separated ((givenCells s tDesc.fields).map fun fc => render fc.1 fc.2) ++
          [.code (chars ");")]))

/-- The automatic fields stand in front of all others. -/
def AutoFirst (fields : List TableTmpl) : Prop :=
  ∃ auto given, fields = auto ++ given ∧ (∀ f ∈ auto, f.given = false) ∧ ∀ f ∈ given, f.given = true

/-- A value of the field can be printed. -/
def TableTmpl.Printable (curField : TableTmpl) : Prop :=
  curField.sqlType = .sqlText ∨ curField.sqlType = .sqlReal ∨
    curField.sqlType = .sqlInteger ∧ curField.size ∈ [1, 2, 4, 8]

variable {fields : List TableTmpl} {s : SqlStruct} {t : ClockTime} {tDesc : TableTmplDesc}
  {cells : List (TableTmpl × SqlCell)} {curField : TableTmpl} {cell : SqlCell}

theorem structFields_eq (s : SqlStruct) (ptr : ℕ) (fields : List TableTmpl) :
    structFields s ptr fields =
      fields.zipIdx.map fun f => (f.1, s (ptr + ((fields.take f.2).map TableTmpl.size).sum)) := by
  induction fields generalizing ptr with
  | nil => rfl
  | cons f fields ih =>
    rw [structFields, ih, List.zipIdx_cons, List.map_cons, List.zipIdx_succ, List.map_map]
    simp [Nat.add_assoc]

theorem structFields_zero (s : SqlStruct) (fields : List TableTmpl) :
    structFields s 0 fields = ownCells s fields := by
  simp [structFields_eq, ownCells]

theorem map_fst_ownCells (s : SqlStruct) (fields : List TableTmpl) :
    (ownCells s fields).map Prod.fst = fields := by
  simp [ownCells, Function.comp_def]

theorem map_fst_givenCells (s : SqlStruct) (fields : List TableTmpl) :
    (givenCells s fields).map Prod.fst = fields.filter TableTmpl.given := by
  conv_rhs => rw [← map_fst_ownCells s fields, List.filter_map]
  rfl

/-! ### Pieces with commas -/

theorem separated_cons {part : List SqlPiece} {parts : List (List SqlPiece)} (h : parts ≠ []) :
    separated (part :: parts) = part ++ .code (chars ", ") :: separated parts := by
  rw [separated, List.intercalate_cons_of_ne_nil h, List.append_assoc]
  rfl

theorem length_separated (parts : List (List SqlPiece)) :
    (separated parts).length = (parts.map List.length).sum + (parts.length - 1) := by
  unfold separated
  induction parts with
  | nil => rfl
  | cons part parts ih =>
    cases parts with
    | nil => simp
    | cons next parts =>
      rw [List.intercalate_cons_cons, List.length_append, List.length_append, ih]
      simp only [List.map_cons, List.sum_cons, List.length_cons, List.length_nil]
      omega

theorem length_separated_of_single {parts : List (List SqlPiece)}
    (h : ∀ part ∈ parts, ∃ v, part = [v]) : (separated parts).length = 2 * parts.length - 1 := by
  have hmap : parts.map List.length = List.replicate parts.length 1 := by
    rw [← List.map_const']
    apply List.map_congr_left
    intro part hpart
    obtain ⟨v, rfl⟩ := h part hpart
    rfl
  rw [length_separated, hmap, List.sum_replicate, smul_eq_mul]
  omega

/-! ### The two loops -/

/-- The last field is filled in by the caller. -/
def LastGiven (fields : List TableTmpl) : Prop := ∃ f ∈ fields.getLast?, f.given = true

theorem insertColumns_of_lastGiven (h : LastGiven fields) :
    insertColumns fields = some
      (separated ((fields.filter TableTmpl.given).map fun f => [.name f.name]) ++
        [.code (chars ") VALUES (")]) := by
  induction fields with
  | nil => simp [LastGiven] at h
  | cons f fields ih =>
    cases fields with
    | nil =>
      have hf : f.autoIncrement = false := by simpa [LastGiven, TableTmpl.given] using h
      simp [insertColumns, hf, TableTmpl.given, separated]
    | cons next fields =>
      have hrest : LastGiven (next :: fields) := by rwa [LastGiven, List.getLast?_cons_cons] at h
      cases hf : f.autoIncrement with
      | true =>
        have hfilter : (f :: next :: fields).filter TableTmpl.given =
            (next :: fields).filter TableTmpl.given :=
          List.filter_cons_of_neg (by simp [TableTmpl.given, hf])
        rw [insertColumns, if_pos hf, ih hrest, hfilter]
      | false =>
        have hfilter : (f :: next :: fields).filter TableTmpl.given =
            f :: (next :: fields).filter TableTmpl.given :=
          List.filter_cons_of_pos (by simp [TableTmpl.given, hf])
        have hne : (((next :: fields).filter TableTmpl.given).map
            fun f => [SqlPiece.name f.name]) ≠ [] := by
          obtain ⟨last, hlast, hgiven⟩ := hrest
          have hmem := List.mem_filter.mpr ⟨List.mem_of_mem_getLast? hlast, hgiven⟩
          rw [Ne, List.map_eq_nil_iff]
          exact List.ne_nil_of_mem hmem
        rw [insertColumns, ih hrest, if_neg (by simp [hf]), if_neg (List.cons_ne_nil _ _),
          hfilter, List.map_cons, separated_cons hne]
        rfl

theorem insertColumns_of_not_lastGiven (h : ¬ LastGiven fields) : insertColumns fields = none := by
  induction fields with
  | nil => rfl
  | cons f fields ih =>
    cases fields with
    | nil =>
      have hf : f.autoIncrement = true := by simpa [LastGiven, TableTmpl.given] using h
      simp [insertColumns, hf]
    | cons next fields =>
      have hrest : ¬ LastGiven (next :: fields) := by rwa [LastGiven, List.getLast?_cons_cons] at h
      rw [insertColumns, ih hrest]
      split_ifs <;> simp_all

/-- The first given fields that stand side by side. -/
def firstRun (cells : List (TableTmpl × SqlCell)) : List (TableTmpl × SqlCell) :=
  (cells.dropWhile fun fc => !fc.1.given).takeWhile fun fc => fc.1.given

theorem insertValues_eq (t : ClockTime) (h : firstRun cells ≠ []) :
    insertValues t cells = some
      (separated ((firstRun cells).map fun fc => insertField t fc.1 fc.2) ++
        [.code (chars ");")]) := by
  induction cells with
  | nil => exact absurd rfl h
  | cons fc cells ih =>
    obtain ⟨curField, cell⟩ := fc
    cases hf : curField.autoIncrement with
    | true =>
      have hrun : firstRun ((curField, cell) :: cells) = firstRun cells := by
        simp [firstRun, TableTmpl.given, hf]
      rw [hrun] at h ⊢
      simp only [insertValues, hf, if_true, ih h]
    | false =>
      cases cells with
      | nil => simp [insertValues, hf, firstRun, TableTmpl.given, separated]
      | cons next cells =>
        cases hn : next.1.autoIncrement with
        | true => simp [insertValues, hf, hn, firstRun, TableTmpl.given, separated]
        | false =>
          have hrun : firstRun ((curField, cell) :: next :: cells) =
              (curField, cell) :: firstRun (next :: cells) := by
            simp [firstRun, TableTmpl.given, hf, hn]
          have hne : firstRun (next :: cells) ≠ [] := by
            simp [firstRun, TableTmpl.given, hn]
          have hmap : (firstRun (next :: cells)).map (fun fc => insertField t fc.1 fc.2) ≠ [] := by
            simpa using hne
          have hcons : separated (((curField, cell) :: firstRun (next :: cells)).map
              fun fc => insertField t fc.1 fc.2) = _ := separated_cons hmap
          rw [insertValues, ih hne, hrun, hcons]
          simp [hf, hn]

/-! ### Where they agree -/

theorem given_of_mem_firstRun {fc : TableTmpl × SqlCell} (h : fc ∈ firstRun cells) :
    fc.1.given = true :=
  List.mem_takeWhile_imp (p := fun fc : TableTmpl × SqlCell => fc.1.given) h

theorem firstRun_sublist (cells : List (TableTmpl × SqlCell)) :
    (firstRun cells).Sublist (cells.filter fun fc => fc.1.given) := by
  have hall : (firstRun cells).filter (fun fc => fc.1.given) = firstRun cells :=
    List.filter_eq_self.mpr fun _ hfc => given_of_mem_firstRun hfc
  rw [← hall]
  exact ((List.takeWhile_sublist _).trans (List.dropWhile_sublist _)).filter _

theorem LastGiven.firstRun_ne_nil (h : LastGiven (cells.map Prod.fst)) : firstRun cells ≠ [] := by
  obtain ⟨last, hlast, hgiven⟩ := h
  obtain ⟨fc, hfc, rfl⟩ := List.mem_map.mp (List.mem_of_mem_getLast? hlast)
  have hrest : (cells.dropWhile fun fc => !fc.1.given) ≠ [] := by
    rw [Ne, List.dropWhile_eq_nil_iff]
    intro hall
    have hnot := hall fc hfc
    simp [hgiven] at hnot
  obtain ⟨first, rest, hfirst⟩ := List.exists_cons_of_ne_nil hrest
  have hhead : (!first.1.given) = false := by
    have hdrop := List.head?_dropWhile_not (fun fc : TableTmpl × SqlCell => !fc.1.given) cells
    rw [hfirst] at hdrop
    exact hdrop
  rw [firstRun, hfirst, List.takeWhile_cons_of_pos (by simpa using hhead)]
  exact List.cons_ne_nil _ _

/-- The values are those of all given fields only if the automatic ones stand in front. -/
theorem LastGiven.autoFirst (h : LastGiven (cells.map Prod.fst))
    (hall : firstRun cells = cells.filter fun fc => fc.1.given) :
    AutoFirst (cells.map Prod.fst) := by
  have hcells : cells = (cells.takeWhile fun fc => !fc.1.given) ++ (firstRun cells ++
      (cells.dropWhile fun fc => !fc.1.given).dropWhile fun fc => fc.1.given) := by
    rw [firstRun, List.takeWhile_append_dropWhile, List.takeWhile_append_dropWhile]
  obtain ⟨auto, hauto⟩ : ∃ auto, cells.takeWhile (fun fc => !fc.1.given) = auto := ⟨_, rfl⟩
  obtain ⟨rest, hrest⟩ : ∃ rest,
    ((cells.dropWhile fun fc => !fc.1.given).dropWhile fun fc => fc.1.given) = rest := ⟨_, rfl⟩
  have hautos : ∀ fc ∈ auto, fc.1.given = false := by
    intro fc hfc
    have hnot := List.mem_takeWhile_imp (hauto ▸ hfc)
    simpa using hnot
  have hrun : ∀ fc ∈ firstRun cells, fc.1.given = true := fun _ hfc => given_of_mem_firstRun hfc
  rw [hauto, hrest] at hcells
  have hnone : rest.filter (fun fc => fc.1.given) = [] := by
    have hfilter := hall
    rw [hcells, List.filter_append, List.filter_append, ← hcells,
      List.filter_eq_nil_iff.mpr (fun fc hfc => by simp [hautos fc hfc]), List.nil_append,
      List.filter_eq_self.mpr hrun] at hfilter
    exact List.self_eq_append_right.mp hfilter
  have hend : rest = [] := by
    by_contra hne
    obtain ⟨init, last, rfl⟩ := (List.eq_nil_or_concat' rest).resolve_left hne
    obtain ⟨f, hf, hgiven⟩ := h
    rw [hcells] at hf
    have hlast : last.1 = f := by simpa using hf
    have hnot := List.filter_eq_nil_iff.mp hnone last (by simp)
    rw [hlast] at hnot
    exact hnot hgiven
  refine ⟨auto.map Prod.fst, (firstRun cells).map Prod.fst, ?_, ?_, ?_⟩
  · conv_lhs => rw [hcells, hend, List.append_nil, List.map_append]
  · intro f hf
    obtain ⟨fc, hfc, rfl⟩ := List.mem_map.mp hf
    exact hautos fc hfc
  · intro f hf
    obtain ⟨fc, hfc, rfl⟩ := List.mem_map.mp hf
    exact hrun fc hfc

/-- Where the automatic fields stand in front the first given fields are all of them. -/
theorem AutoFirst.firstRun_eq (h : AutoFirst (cells.map Prod.fst)) :
    firstRun cells = cells.filter fun fc => fc.1.given := by
  obtain ⟨auto, given, hfields, hauto, hgiven⟩ := h
  obtain ⟨autos, givens, rfl, rfl, rfl⟩ := List.map_eq_append_iff.mp hfields
  have hautos : ∀ fc ∈ autos, (!fc.1.given) = true := by
    intro fc hfc
    rw [hauto fc.1 (List.mem_map_of_mem hfc)]
    rfl
  have hgivens : ∀ fc ∈ givens, fc.1.given = true :=
    fun fc hfc => hgiven fc.1 (List.mem_map_of_mem hfc)
  have hnone : autos.filter (fun fc => fc.1.given) = [] := by
    apply List.filter_eq_nil_iff.mpr
    intro fc hfc
    simpa using hautos fc hfc
  have hdrop : (givens.dropWhile fun fc => !fc.1.given) = givens := by
    cases givens with
    | nil => rfl
    | cons fc givens =>
      apply List.dropWhile_cons_of_neg
      simp [hgivens fc List.mem_cons_self]
  rw [firstRun, List.dropWhile_append_of_pos hautos, hdrop, List.filter_append, hnone,
    List.filter_eq_self.mpr hgivens, List.takeWhile_eq_self_iff.mpr hgivens, List.nil_append]

theorem AutoFirst.lastGiven (h : AutoFirst fields) (hne : ∃ f ∈ fields, f.given = true) :
    LastGiven fields := by
  obtain ⟨auto, given, rfl, hauto, hgiven⟩ := h
  obtain ⟨f, hf, hfgiven⟩ := hne
  have hmem : f ∈ given := by
    rcases List.mem_append.mp hf with hf | hf
    · exact absurd (hauto f hf) (by simp [hfgiven])
    · exact hf
  have hlast := List.getLast?_eq_some_getLast (List.ne_nil_of_mem hmem)
  refine ⟨given.getLast (List.ne_nil_of_mem hmem), ?_, hgiven _ (List.getLast_mem _)⟩
  rw [Option.mem_def, List.getLast?_append, hlast]
  rfl

theorem insertField_single_iff :
    (∃ v, insertField t curField cell = [v]) ↔ curField.Printable := by
  unfold insertField printNumber printInteger printText TableTmpl.Printable
  cases hty : curField.sqlType <;> simp
  · split_ifs with hsize <;> simp_all
  · split_ifs
    · exact ⟨_, rfl⟩
    · split <;> exact ⟨_, rfl⟩

/-- The statement where the last field is a given one. -/
theorem insertValue_of_lastGiven (t : ClockTime) (s : SqlStruct) (h : LastGiven tDesc.fields) :
    insertValue t tDesc s = some
      ([.code (chars "INSERT INTO "), .name tDesc.tableName, .code (chars " (")] ++
        (separated ((tDesc.fields.filter TableTmpl.given).map fun f => [.name f.name]) ++
          [.code (chars ") VALUES (")]) ++
        (separated ((firstRun (ownCells s tDesc.fields)).map fun fc => insertField t fc.1 fc.2) ++
          [.code (chars ");")])) := by
  have hrun : firstRun (ownCells s tDesc.fields) ≠ [] := by
    apply LastGiven.firstRun_ne_nil
    rwa [map_fst_ownCells]
  rw [insertValue, structFields_zero, insertColumns_of_lastGiven h, insertValues_eq t hrun]
  rfl

theorem mem_givenCells {fc : TableTmpl × SqlCell} (h : fc ∈ givenCells s fields) :
    fc.1 ∈ fields ∧ fc.1.given = true := by
  have hmem : fc.1 ∈ (givenCells s fields).map Prod.fst := List.mem_map_of_mem h
  rw [map_fst_givenCells] at hmem
  exact List.mem_filter.mp hmem

/-- Values of all given fields make the first run of given fields all of them. -/
theorem firstRun_eq_of_separated (hne : firstRun (ownCells s fields) ≠ [])
    (hvalues : ∀ fc ∈ givenCells s fields, ∃ v, insertField t fc.1 fc.2 = [v])
    (h : separated ((firstRun (ownCells s fields)).map fun fc => insertField t fc.1 fc.2) =
      separated ((givenCells s fields).map fun fc => insertField t fc.1 fc.2)) :
    firstRun (ownCells s fields) = givenCells s fields := by
  have hsub := firstRun_sublist (ownCells s fields)
  have hrunLength : (separated ((firstRun (ownCells s fields)).map
      fun fc => insertField t fc.1 fc.2)).length =
        2 * (firstRun (ownCells s fields)).length - 1 := by
    rw [length_separated_of_single, List.length_map]
    intro part hpart
    obtain ⟨fc, hfc, rfl⟩ := List.mem_map.mp hpart
    exact hvalues fc (hsub.subset hfc)
  have hgivenLength : (separated ((givenCells s fields).map
      fun fc => insertField t fc.1 fc.2)).length = 2 * (givenCells s fields).length - 1 := by
    rw [length_separated_of_single, List.length_map]
    intro part hpart
    obtain ⟨fc, hfc, rfl⟩ := List.mem_map.mp hpart
    exact hvalues fc hfc
  rw [h, hgivenLength] at hrunLength
  have hpos := List.length_pos_iff.mpr hne
  apply hsub.eq_of_length_le
  change (givenCells s fields).length ≤ _
  omega

/-- The statement of an insertion pairs columns with values if and only if all automatic fields
stand in front of the others and the values of the others can be printed. -/
theorem insertValue_pairs_iff (t : ClockTime) (tDesc : TableTmplDesc) (s : SqlStruct)
    (hgiven : ∃ f ∈ tDesc.fields, f.autoIncrement = false) :
    InsertPairs (insertField t) t tDesc s ↔
      AutoFirst tDesc.fields ∧ ∀ f ∈ tDesc.fields, f.autoIncrement = false → f.Printable := by
  constructor
  · rintro ⟨hvalues, hstatement⟩
    have hlast : LastGiven tDesc.fields := by
      by_contra hnot
      rw [insertValue, insertColumns_of_not_lastGiven hnot] at hstatement
      cases hstatement
    rw [insertValue_of_lastGiven t s hlast, Option.some_inj, List.append_cancel_left_eq,
      List.append_cancel_right_eq] at hstatement
    have hne : firstRun (ownCells s tDesc.fields) ≠ [] := by
      apply LastGiven.firstRun_ne_nil
      rwa [map_fst_ownCells]
    have hrun := firstRun_eq_of_separated hne hvalues hstatement
    constructor
    · rw [← map_fst_ownCells s tDesc.fields] at hlast ⊢
      exact hlast.autoFirst hrun
    · intro f hf hauto
      have hmem : f ∈ (givenCells s tDesc.fields).map Prod.fst := by
        rw [map_fst_givenCells]
        exact List.mem_filter.mpr ⟨hf, by simp [TableTmpl.given, hauto]⟩
      obtain ⟨fc, hfc, rfl⟩ := List.mem_map.mp hmem
      exact insertField_single_iff.mp (hvalues fc hfc)
  · rintro ⟨hfirst, hprintable⟩
    have hlast : LastGiven tDesc.fields := by
      obtain ⟨f, hf, hauto⟩ := hgiven
      exact hfirst.lastGiven ⟨f, hf, by simp [TableTmpl.given, hauto]⟩
    have hrun : firstRun (ownCells s tDesc.fields) = givenCells s tDesc.fields := by
      apply AutoFirst.firstRun_eq
      rwa [map_fst_ownCells]
    constructor
    · intro fc hfc
      obtain ⟨hmem, hfc⟩ := mem_givenCells hfc
      exact insertField_single_iff.mpr (hprintable fc.1 hmem (by simpa [TableTmpl.given] using hfc))
    · rw [insertValue_of_lastGiven t s hlast, hrun]

/-- The first fields of every model and a name. -/
theorem insertValue_pairs_name :
    (∃ f ∈ [(⟨.sqlInteger, 8, chars "ID", true⟩ : TableTmpl),
        ⟨.sqlText, 8, chars "CreatedAt", false⟩, ⟨.sqlText, 8, chars "NAME", false⟩],
      f.autoIncrement = false) ∧
    InsertPairs (insertField ⟨2024, 6, 21, 12, 0, 0, 0⟩) ⟨2024, 6, 21, 12, 0, 0, 0⟩
      ⟨chars "TEST", [⟨.sqlInteger, 8, chars "ID", true⟩,
        ⟨.sqlText, 8, chars "CreatedAt", false⟩, ⟨.sqlText, 8, chars "NAME", false⟩]⟩
      (fun _ => ⟨fun _ => 3, ⟨[], by decide⟩, some (chars "YiQin")⟩) := by
  have hgiven : ∃ f ∈ [(⟨.sqlInteger, 8, chars "ID", true⟩ : TableTmpl),
      ⟨.sqlText, 8, chars "CreatedAt", false⟩, ⟨.sqlText, 8, chars "NAME", false⟩],
      f.autoIncrement = false := ⟨_, List.mem_of_getLast? rfl, rfl⟩
  refine ⟨hgiven, (insertValue_pairs_iff _ _ _ hgiven).mpr ⟨⟨[_], [_, _], rfl, ?_, ?_⟩, ?_⟩⟩
  · simp [TableTmpl.given]
  · simp [TableTmpl.given]
  · intro f hf hauto
    simp only [List.mem_cons, List.not_mem_nil, or_false] at hf
    rcases hf with rfl | rfl | rfl
    · cases hauto
    · exact .inl rfl
    · exact .inl rfl

/-- `CreatedAt` is given the time and not the text of the struct. With an automatic field behind a
given one, the statement is `INSERT INTO TEST (NAME, AGE) VALUES ('YiQin');`. -/
theorem insertValue_not_pairs :
    ¬InsertPairs structValue ⟨2024, 6, 21, 12, 0, 0, 0⟩
      ⟨chars "TEST", [⟨.sqlText, 8, chars "CreatedAt", false⟩]⟩
      (fun _ => ⟨fun _ => 3, ⟨[], by decide⟩, some (chars "YiQin")⟩) ∧
    ¬InsertPairs structValue ⟨2024, 6, 21, 12, 0, 0, 0⟩
      ⟨chars "TEST", [⟨.sqlText, 8, chars "NAME", false⟩, ⟨.sqlInteger, 8, chars "ID", true⟩,
        ⟨.sqlInteger, 4, chars "AGE", false⟩]⟩
      (fun _ => ⟨fun _ => 3, ⟨[], by decide⟩, some (chars "YiQin")⟩) := by
  constructor
  · rintro ⟨-, hstatement⟩
    exact absurd hstatement (by decide)
  · rintro ⟨-, hstatement⟩
    exact absurd hstatement (by decide)

end LdacsSdk
