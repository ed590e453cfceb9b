import LdacsSdk.Sql.Statement

/-!
# Text values in a statement

A text value stands between characters of the program, none of them a quote, so whether it is one
string literal with this text depends on the quotes in it and on those that the names and text
values in front of it bring along.
-/
namespace LdacsSdk

open Library

namespace SqlPiece

/-- The piece consists of characters of the program. -/
def IsCode (p : SqlPiece) : Prop := ∃ s, p = code s ∧ s ≠ []

/-- The program's own characters and the time have no quotes. -/
def Clean : SqlPiece → Prop
  | code s | time s => quote ∉ s
  | name _ | text _ => True

/-- The quotes that a name or a text value brings along. -/
def foreignQuotes : SqlPiece → ℕ
  | code _ | time _ => 0
  | name s | text s => s.count quote

end SqlPiece

/-- The quotes in the names and text values among the pieces. -/
def foreignQuotes (pieces : List SqlPiece) : ℕ := (pieces.map SqlPiece.foreignQuotes).sum

/-- The program's own characters have no quotes and stand between any two other pieces. -/
structure Spliced (pieces : List SqlPiece) : Prop where
  clean : ∀ p ∈ pieces, p.Clean
  chain : pieces.IsChain fun p p' => p.IsCode ∨ p'.IsCode

section Spliced

variable {pieces pre post : List SqlPiece} {p : SqlPiece} {s : List UInt8}

theorem SqlPiece.even_count (h : p.Clean) : Even (p.chars.count quote) ↔ Even p.foreignQuotes := by
  have hzero {s : List UInt8} (hs : quote ∉ s) : s.count quote = 0 := List.count_eq_zero.mpr hs
  have hquoted (s : List UInt8) : (quoted quote s).count quote = s.count quote + 2 := by
    simp [quoted, Nat.add_assoc]
  cases p with
  | code s => simp [SqlPiece.chars, SqlPiece.foreignQuotes, hzero h]
  | name s => simp [SqlPiece.chars, SqlPiece.foreignQuotes]
  | time s => simp [SqlPiece.chars, SqlPiece.foreignQuotes, hquoted, hzero h]
  | text s => simp [SqlPiece.chars, SqlPiece.foreignQuotes, hquoted, Nat.even_add]

theorem even_printed (h : ∀ p ∈ pieces, p.Clean) :
    Even ((printed pieces).count quote) ↔ Even (foreignQuotes pieces) := by
  induction pieces with
  | nil => simp [printed, foreignQuotes]
  | cons p pieces ih =>
    have hp := SqlPiece.even_count (h p (by simp))
    have hrest := ih fun p hp => h p (by simp [hp])
    simp only [printed, foreignQuotes, List.flatMap_cons, List.count_append, List.map_cons,
      List.sum_cons, Nat.even_add] at hrest ⊢
    rw [hp, hrest]

/-- What stands in front of a text value ends with a character of the program. -/
theorem Spliced.printed_pre (h : Spliced (pre ++ .text s :: post)) (hne : pre ≠ []) :
    ∃ l c, printed pre = l ++ [c] ∧ c ≠ quote := by
  obtain ⟨init, p, rfl⟩ := (List.eq_nil_or_concat' pre).resolve_left hne
  have hnext := (List.isChain_append.mp h.chain).2.2 p (by simp) (.text s) (by simp)
  rcases hnext with ⟨s', rfl, hs'⟩ | ⟨s', he, -⟩
  · obtain ⟨l, c, rfl⟩ := (List.eq_nil_or_concat' s').resolve_left hs'
    refine ⟨printed init ++ l, c, by simp [printed, SqlPiece.chars], ?_⟩
    rintro rfl
    exact h.clean (.code (l ++ [quote])) (by simp) (by simp)
  · cases he

/-- What stands behind a text value begins with a character of the program. -/
theorem Spliced.printed_post (h : Spliced (pre ++ .text s :: post)) :
    ∀ c ∈ (printed post).head?, c ≠ quote := by
  intro c hc
  cases post with
  | nil => simp [printed] at hc
  | cons p post =>
    have hchain := (List.isChain_append.mp h.chain).2.1
    rcases (List.isChain_cons_cons.mp hchain).1 with ⟨s', he, -⟩ | ⟨s', rfl, hs'⟩
    · cases he
    · cases s' with
      | nil => exact absurd rfl hs'
      | cons c' l =>
        obtain rfl : c' = c := by simpa [printed, SqlPiece.chars] using hc
        rintro rfl
        exact h.clean (.code (quote :: l)) (by simp) (by simp)

theorem Spliced.oneLiteral_iff (h : Spliced (pre ++ .text s :: post)) (hne : pre ≠ []) :
    OneLiteral quote (printed pre) s (printed post) ↔
      quote ∉ s ∧ Even (foreignQuotes pre) := by
  rw [Library.oneLiteral_iff (h.printed_pre hne) h.printed_post]
  rw [even_printed fun p hp => h.clean p (by simp [hp])]

/-! ### Putting pieces together -/

theorem spliced_nil : Spliced [] := ⟨by simp, .nil⟩

/-- Characters of the program go in front of anything. -/
theorem Spliced.cons_code (h : Spliced pieces) (hs : quote ∉ s ∧ s ≠ []) :
    Spliced (.code s :: pieces) := by
  constructor
  · intro p hp
    rcases List.mem_cons.mp hp with rfl | hp
    · exact hs.1
    · exact h.clean p hp
  · cases pieces with
    | nil => exact .singleton _
    | cons p pieces => exact List.isChain_cons_cons.mpr ⟨.inl ⟨s, rfl, hs.2⟩, h.chain⟩

/-- Anything goes in front of characters of the program. -/
theorem Spliced.cons (h : Spliced (.code s :: pieces)) (hs : quote ∉ s ∧ s ≠ [])
    (hp : p.Clean) : Spliced (p :: .code s :: pieces) := by
  constructor
  · intro p' hp'
    rcases List.mem_cons.mp hp' with rfl | hp'
    · exact hp
    · exact h.clean p' hp'
  · exact List.isChain_cons_cons.mpr ⟨.inr ⟨s, rfl, hs.2⟩, h.chain⟩

/-- The value of a field: one piece or none. -/
def FieldPieces (ps : List SqlPiece) : Prop := ps = [] ∨ ∃ p, ps = [p] ∧ p.Clean

theorem FieldPieces.spliced {ps : List SqlPiece} (h : FieldPieces ps) : Spliced ps := by
  rcases h with rfl | ⟨p, rfl, hp⟩
  · exact spliced_nil
  · exact ⟨by simpa using hp, .singleton _⟩

theorem FieldPieces.append {ps : List SqlPiece} (h : FieldPieces ps)
    (hrest : Spliced (.code s :: pieces)) (hs : quote ∉ s ∧ s ≠ []) :
    Spliced (ps ++ .code s :: pieces) := by
  rcases h with rfl | ⟨p, rfl, hp⟩
  · exact hrest
  · exact hrest.cons hs hp

end Spliced

/-! ### The statements -/

section Statements

variable {curField : TableTmpl} {cell : SqlCell} {t : ClockTime} {pieces : List SqlPiece}

theorem quote_not_mem_decimal (n : ℕ) : quote ∉ decimal n := by
  intro h
  obtain ⟨c, hc, he⟩ := List.mem_map.mp h
  have hdigit := Nat.isDigit_of_mem_toDigits (by decide) le_rfl hc
  simp only [Char.isDigit, Bool.and_eq_true, decide_eq_true_eq] at hdigit
  have h48 : 48 ≤ c.toNat := hdigit.1
  have h57 : c.toNat ≤ 57 := hdigit.2
  have := congrArg UInt8.toNat he
  simp only [quote, UInt8.toNat_ofNat'] at this
  have h39 : UInt8.toNat 39 = 39 := rfl
  omega

theorem quote_not_mem_paddedDecimal (width n : ℕ) : quote ∉ paddedDecimal width n := by
  intro h
  rcases List.mem_append.mp h with h | h
  · exact absurd (List.eq_of_mem_replicate h) (by decide)
  · exact quote_not_mem_decimal n h

theorem quote_not_mem_getCurrentTime (t : ClockTime) : quote ∉ getCurrentTime t := by
  have hdash : quote ∉ chars "-" := by decide
  have hblank : quote ∉ chars " " := by decide
  have hcolon : quote ∉ chars ":" := by decide
  have hdot : quote ∉ chars "." := by decide
  simp [getCurrentTime, hdash, hblank, hcolon, hdot, quote_not_mem_decimal,
    quote_not_mem_paddedDecimal]

theorem printNumber_pieces (curField : TableTmpl) (cell : SqlCell) :
    FieldPieces (printNumber curField cell) := by
  unfold printNumber printInteger
  split
  · split_ifs
    · exact .inr ⟨_, rfl, quote_not_mem_decimal _⟩
    · exact .inl rfl
  · exact .inr ⟨_, rfl, cell.real.property⟩
  · exact .inl rfl

theorem printText_pieces (cell : SqlCell) : FieldPieces (printText cell) := by
  unfold printText
  split
  · exact .inr ⟨_, rfl, show quote ∉ chars "NULL" by decide⟩
  · exact .inr ⟨_, rfl, trivial⟩

theorem insertField_pieces (t : ClockTime) (curField : TableTmpl) (cell : SqlCell) :
    FieldPieces (insertField t curField cell) := by
  unfold insertField
  split_ifs
  · exact .inr ⟨_, rfl, quote_not_mem_getCurrentTime t⟩
  · exact printText_pieces cell
  · exact printNumber_pieces curField cell

theorem updateField_pieces (curField : TableTmpl) (cell : SqlCell) :
    FieldPieces (updateField curField cell) := by
  unfold updateField
  split_ifs
  · exact .inl rfl
  · exact printText_pieces cell
  · exact printNumber_pieces curField cell

theorem whereField_pieces (curField : TableTmpl) (cell : SqlCell) :
    FieldPieces (whereField curField cell) := by
  unfold whereField
  split_ifs
  · split
    · exact .inl rfl
    · exact .inr ⟨_, rfl, trivial⟩
  · exact printNumber_pieces curField cell

theorem insertColumns_spliced {fields : List TableTmpl} {columns : List SqlPiece}
    (h : insertColumns fields = some columns) (hrest : Spliced pieces) :
    Spliced (columns ++ pieces) := by
  induction fields generalizing columns with
  | nil => cases h
  | cons curField rest ih =>
    unfold insertColumns at h
    split_ifs at h
    · exact ih h
    · cases h
      exact (hrest.cons_code (by decide)).cons (by decide) trivial
    · obtain ⟨ps, hps, rfl⟩ := Option.map_eq_some_iff.mp h
      exact ((ih hps).cons_code (by decide)).cons (by decide) trivial

theorem insertValues_spliced {fields : List (TableTmpl × SqlCell)} {values : List SqlPiece}
    (h : insertValues t fields = some values) : Spliced values := by
  induction fields generalizing values with
  | nil => cases h
  | cons x rest ih =>
    obtain ⟨curField, cell⟩ := x
    unfold insertValues at h
    split_ifs at h
    · exact ih h
    · obtain ⟨ps, hps, rfl⟩ := Option.map_eq_some_iff.mp h
      exact (insertField_pieces t curField cell).append ((ih hps).cons_code (by decide)) (by decide)
    · cases h
      exact (insertField_pieces t curField cell).append (spliced_nil.cons_code (by decide))
        (by decide)

/-- The operators are characters of the program. -/
theorem whereComp_eq (comps : Option (ℕ → SqlComp)) (i : ℕ) :
    ∃ s, whereComp comps i = .code s ∧ quote ∉ s ∧ s ≠ [] := by
  cases comps with
  | none => exact ⟨_, rfl, by decide⟩
  | some comps =>
    refine ⟨_, rfl, ?_⟩
    cases comps i <;> decide

theorem whereLogic_eq (logics : Option (ℕ → SqlLogic)) (i : ℕ) :
    ∃ s, whereLogic logics i = .code s ∧ quote ∉ s ∧ s ≠ [] := by
  cases logics with
  | none => exact ⟨_, rfl, by decide⟩
  | some logics =>
    refine ⟨_, rfl, ?_⟩
    cases logics i <;> decide

theorem whereFields_spliced (comps : Option (ℕ → SqlComp)) (logics : Option (ℕ → SqlLogic))
    (i : ℕ) (fields : List (TableTmpl × SqlCell)) (wkeys : List (List UInt8)) :
    Spliced (whereFields comps logics i fields wkeys) := by
  induction fields generalizing i wkeys with
  | nil => exact spliced_nil
  | cons x rest ih =>
    obtain ⟨curField, cell⟩ := x
    cases wkeys with
    | nil => exact spliced_nil
    | cons wkey wkeys =>
      obtain ⟨comp, hcomp, hcompClean⟩ := whereComp_eq comps i
      obtain ⟨logic, hlogic, hlogicClean⟩ := whereLogic_eq logics i
      have hvalue := whereField_pieces curField cell
      rw [whereFields, hcomp, hlogic]
      split_ifs with hmatch hlast
      · have hend : whereFields comps logics (i + 1) rest wkeys = [] := by
          subst hlast
          cases rest <;> rfl
        rw [hend, List.append_nil, List.append_nil]
        exact ((hvalue.spliced.cons_code hcompClean).cons_code (by decide)).cons (by decide) trivial
      · have hnext := hvalue.append ((ih (i + 1) wkeys).cons_code hlogicClean) hlogicClean
        rw [List.append_assoc]
        exact ((hnext.cons_code hcompClean).cons_code (by decide)).cons (by decide) trivial
      · exact ih i (wkey :: wkeys)

theorem whereClause_spliced (tDesc : TableTmplDesc) (w : SqlWhere) :
    Spliced (whereClause tDesc w) := by
  unfold whereClause
  split
  · exact spliced_nil
  · exact (whereFields_spliced _ _ _ _ _).cons_code (by decide)

theorem updateFields_spliced (fields : List (TableTmpl × SqlCell)) (keys : List (List UInt8))
    (hrest : Spliced pieces) : Spliced (updateFields fields keys ++ pieces) := by
  induction fields generalizing keys with
  | nil => exact hrest
  | cons x rest ih =>
    obtain ⟨curField, cell⟩ := x
    cases keys with
    | nil => exact hrest
    | cons key keys =>
      rw [updateFields]
      split_ifs with hmatch
      · have hnext := (updateField_pieces curField cell).append
          ((ih keys).cons_code (s := chars ", ") (by decide)) (by decide)
        rw [List.cons_append, List.cons_append, List.append_assoc, List.cons_append]
        exact (hnext.cons_code (by decide)).cons (by decide) trivial
      · exact ih (key :: keys)

theorem selectFields_spliced (fields : List TableTmpl) (keys : List (List UInt8))
    (hrest : Spliced pieces) : Spliced (selectFields fields keys ++ pieces) := by
  induction fields generalizing keys with
  | nil => exact hrest
  | cons curField rest ih =>
    cases keys with
    | nil => exact hrest
    | cons key keys =>
      have hsep : quote ∉ (if keys = [] then chars " " else chars ", ") ∧
          (if keys = [] then chars " " else chars ", ") ≠ [] := by
        split_ifs <;> decide
      by_cases hmatch : curField.name = key
      · rw [selectFields, if_pos hmatch]
        exact ((ih keys).cons_code hsep).cons (p := .name key) hsep trivial
      · rw [selectFields, if_neg hmatch]
        exact ih (key :: keys)

theorem updateValue_spliced (t : ClockTime) (tDesc : TableTmplDesc) (key : List (List UInt8))
    (value : SqlStruct) (w : SqlWhere) : Spliced (updateValue t tDesc key value w) := by
  have htail := ((whereClause_spliced tDesc w).cons_code (s := chars " ") (by decide)).cons
    (p := .time (getCurrentTime t)) (by decide) (quote_not_mem_getCurrentTime t)
  have hset := updateFields_spliced (structFields value 0 tDesc.fields) key
    (htail.cons_code (s := chars "UpdatedAt = ") (by decide))
  have hstart := ((hset.cons_code (s := chars " SET ") (by decide)).cons
    (p := .name tDesc.tableName) (by decide) trivial).cons_code (s := chars "UPDATE ") (by decide)
  simpa [updateValue] using hstart

theorem selectValue_spliced (tDesc : TableTmplDesc) (key : Option (List (List UInt8)))
    (w : SqlWhere) : Spliced (selectValue tDesc key w) := by
  have hfrom := (((whereClause_spliced tDesc w).cons_code (s := chars " ") (by decide)).cons
    (p := .name tDesc.tableName) (by decide) trivial).cons_code (s := chars "FROM ") (by decide)
  cases key with
  | none =>
    have hall := (hfrom.cons_code (s := chars "* ") (by decide)).cons_code
      (s := chars "SELECT ") (by decide)
    simpa [selectValue] using hall
  | some keys =>
    have hkeys := (selectFields_spliced tDesc.fields keys hfrom).cons_code
      (s := chars "SELECT ") (by decide)
    simpa [selectValue] using hkeys

theorem insertValue_spliced {tDesc : TableTmplDesc} {structPtr : SqlStruct}
    (h : insertValue t tDesc structPtr = some pieces) : Spliced pieces := by
  obtain ⟨columns, hcolumns, h⟩ := Option.bind_eq_some_iff.mp h
  obtain ⟨values, hvalues, rfl⟩ := Option.map_eq_some_iff.mp h
  have hstart := (((insertColumns_spliced hcolumns (insertValues_spliced hvalues)).cons_code
    (s := chars " (") (by decide)).cons (p := .name tDesc.tableName) (by decide)
      trivial).cons_code (s := chars "INSERT INTO ") (by decide)
  simpa using hstart

/-- Every statement is put together so, and begins with characters of the program. -/
theorem SqlCall.statement_spliced {tDesc : TableTmplDesc} {call : SqlCall}
    (h : call.statement t tDesc = some pieces) :
    Spliced pieces ∧ ∃ s rest, pieces = .code s :: rest := by
  cases call with
  | insertValue structPtr =>
    refine ⟨insertValue_spliced h, ?_⟩
    obtain ⟨columns, -, h⟩ := Option.bind_eq_some_iff.mp h
    obtain ⟨values, -, rfl⟩ := Option.map_eq_some_iff.mp h
    exact ⟨_, _, rfl⟩
  | updateValue key value w =>
    obtain rfl := Option.some.inj h
    exact ⟨updateValue_spliced t tDesc key value w, _, _, rfl⟩
  | selectValue key w =>
    obtain rfl := Option.some.inj h
    exact ⟨selectValue_spliced tDesc key w, _, _, rfl⟩

end Statements

/-! ### Two structs that differ in a text value -/

/-- The fields of two structs, which differ in one text value, `u` in one and `u'` in the other. -/
def DifferInText (u u' : List UInt8) (fields fields' : List (TableTmpl × SqlCell)) : Prop :=
  ∃ pre curField cell post, cell.text = some u ∧ fields = pre ++ (curField, cell) :: post ∧
    fields' = pre ++ (curField, { cell with text := some u' }) :: post

/-- Two calls that differ in one text value. -/
inductive SqlCall.DifferInText (tDesc : TableTmplDesc) (u u' : List UInt8) :
    SqlCall → SqlCall → Prop
  | insertValue {s s' : SqlStruct} (h : LdacsSdk.DifferInText u u'
        (structFields s 0 tDesc.fields) (structFields s' 0 tDesc.fields)) :
      DifferInText tDesc u u' (.insertValue s) (.insertValue s')
  | updateValue {key : List (List UInt8)} {s s' : SqlStruct} {w : SqlWhere}
      (h : LdacsSdk.DifferInText u u'
        (structFields s 0 tDesc.fields) (structFields s' 0 tDesc.fields)) :
      DifferInText tDesc u u' (.updateValue key s w) (.updateValue key s' w)
  | updateWhere {key : List (List UInt8)} {value s' : SqlStruct} {w : SqlWhere}
      (h : LdacsSdk.DifferInText u u'
        (structFields w.wvalue 0 tDesc.fields) (structFields s' 0 tDesc.fields)) :
      DifferInText tDesc u u' (.updateValue key value w)
        (.updateValue key value { w with wvalue := s' })
  | selectWhere {key : Option (List (List UInt8))} {s' : SqlStruct} {w : SqlWhere}
      (h : LdacsSdk.DifferInText u u'
        (structFields w.wvalue 0 tDesc.fields) (structFields s' 0 tDesc.fields)) :
      DifferInText tDesc u u' (.selectValue key w) (.selectValue key { w with wvalue := s' })

/-- Pieces that are the same up to one text value at most. -/
def SameButText (u u' : List UInt8) (pieces pieces' : List SqlPiece) : Prop :=
  pieces' = pieces ∨
    ∃ pre post, pieces = pre ++ .text u :: post ∧ pieces' = pre ++ .text u' :: post

section Differences

variable {u u' : List UInt8} {pieces pieces' : List SqlPiece} {t : ClockTime}
  {fields fields' : List (TableTmpl × SqlCell)}

theorem SameButText.prepend (h : SameButText u u' pieces pieces') (front : List SqlPiece) :
    SameButText u u' (front ++ pieces) (front ++ pieces') := by
  rcases h with rfl | ⟨pre, post, rfl, rfl⟩
  · exact .inl rfl
  · exact .inr ⟨front ++ pre, post, by simp, by simp⟩

theorem SameButText.append (h : SameButText u u' pieces pieces') (back : List SqlPiece) :
    SameButText u u' (pieces ++ back) (pieces' ++ back) := by
  rcases h with rfl | ⟨pre, post, rfl, rfl⟩
  · exact .inl rfl
  · exact .inr ⟨pre, post ++ back, by simp, by simp⟩

section Fields

variable (curField : TableTmpl) {cell : SqlCell} (u')

theorem printText_sameBut (h : cell.text = some u) :
    SameButText u u' (printText cell) (printText { cell with text := some u' }) := by
  right
  exact ⟨[], [], by simp [printText, h], by simp [printText]⟩

theorem insertField_sameBut (t : ClockTime) (h : cell.text = some u) : SameButText u u'
    (insertField t curField cell) (insertField t curField { cell with text := some u' }) := by
  unfold insertField
  split_ifs
  · exact .inl rfl
  · exact printText_sameBut u' h
  · exact .inl rfl

theorem updateField_sameBut (h : cell.text = some u) : SameButText u u'
    (updateField curField cell) (updateField curField { cell with text := some u' }) := by
  unfold updateField
  split_ifs
  · exact .inl rfl
  · exact printText_sameBut u' h
  · exact .inl rfl

theorem whereField_sameBut (h : cell.text = some u) : SameButText u u'
    (whereField curField cell) (whereField curField { cell with text := some u' }) := by
  unfold whereField
  split_ifs
  · right
    exact ⟨[], [], by simp [h], by simp⟩
  · exact .inl rfl

end Fields

theorem insertValues_sameBut (h : DifferInText u u' fields fields')
    (hv : insertValues t fields = some pieces) :
    ∃ pieces', insertValues t fields' = some pieces' ∧ SameButText u u' pieces pieces' := by
  obtain ⟨pre, curField, cell, post, htext, rfl, rfl⟩ := h
  induction pre generalizing pieces with
  | nil =>
    have hfield := insertField_sameBut u' curField t htext
    rw [List.nil_append, insertValues] at hv ⊢
    split_ifs at hv ⊢
    · exact ⟨pieces, hv, .inl rfl⟩
    · obtain ⟨ps, hps, rfl⟩ := Option.map_eq_some_iff.mp hv
      exact ⟨_, congrArg (Option.map _) hps, hfield.append _⟩
    · cases hv
      exact ⟨_, rfl, hfield.append _⟩
  | cons x pre ih =>
    obtain ⟨field, other⟩ := x
    have hheads : ((pre ++ (curField, { cell with text := some u' }) :: post).map Prod.fst) =
        (pre ++ (curField, cell) :: post).map Prod.fst := by simp
    rw [List.cons_append, insertValues] at hv ⊢
    rw [hheads]
    split_ifs at hv ⊢
    · exact ih hv
    · obtain ⟨ps, hps, rfl⟩ := Option.map_eq_some_iff.mp hv
      obtain ⟨ps', hps', hsame⟩ := ih hps
      refine ⟨_, congrArg (Option.map _) hps', ?_⟩
      exact (hsame.prepend [SqlPiece.code (chars ", ")]).prepend (insertField t field other)
    · cases hv
      exact ⟨_, rfl, .inl rfl⟩

theorem updateFields_sameBut (h : DifferInText u u' fields fields') (keys : List (List UInt8)) :
    SameButText u u' (updateFields fields keys) (updateFields fields' keys) := by
  obtain ⟨pre, curField, cell, post, htext, rfl, rfl⟩ := h
  induction pre generalizing keys with
  | nil =>
    cases keys with
    | nil => exact .inl rfl
    | cons key keys =>
      have hfield := updateField_sameBut u' curField htext
      simp only [List.nil_append, updateFields]
      split_ifs
      · exact (hfield.append _).prepend [.name key, .code (chars " = ")]
      · exact .inl rfl
  | cons x pre ih =>
    obtain ⟨field, other⟩ := x
    cases keys with
    | nil => exact .inl rfl
    | cons key keys =>
      simp only [List.cons_append, updateFields]
      split_ifs
      · exact (((ih keys).prepend [.code (chars ", ")]).prepend _).prepend
          [.name key, .code (chars " = ")]
      · exact ih (key :: keys)

theorem whereFields_sameBut (h : DifferInText u u' fields fields')
    (comps : Option (ℕ → SqlComp)) (logics : Option (ℕ → SqlLogic)) (i : ℕ)
    (wkeys : List (List UInt8)) :
    SameButText u u' (whereFields comps logics i fields wkeys)
      (whereFields comps logics i fields' wkeys) := by
  obtain ⟨pre, curField, cell, post, htext, rfl, rfl⟩ := h
  induction pre generalizing i wkeys with
  | nil =>
    cases wkeys with
    | nil => exact .inl rfl
    | cons wkey wkeys =>
      have hfield := whereField_sameBut u' curField htext
      simp only [List.nil_append, whereFields, List.append_assoc]
      split_ifs
      · exact (hfield.append _).prepend [.name wkey, .code (chars " "), whereComp comps i]
      · exact (hfield.append _).prepend [.name wkey, .code (chars " "), whereComp comps i]
      · exact .inl rfl
  | cons x pre ih =>
    obtain ⟨field, other⟩ := x
    cases wkeys with
    | nil => exact .inl rfl
    | cons wkey wkeys =>
      simp only [List.cons_append, whereFields, List.append_assoc]
      by_cases hmatch : field.name = wkey
      · rw [if_pos hmatch, if_pos hmatch]
        exact (((ih (i + 1) wkeys).prepend _).prepend _).prepend
          [.name wkey, .code (chars " "), whereComp comps i]
      · rw [if_neg hmatch, if_neg hmatch]
        exact ih i (wkey :: wkeys)

theorem whereClause_sameBut {tDesc : TableTmplDesc} {w : SqlWhere} {s' : SqlStruct}
    (h : DifferInText u u' (structFields w.wvalue 0 tDesc.fields)
      (structFields s' 0 tDesc.fields)) :
    SameButText u u' (whereClause tDesc w) (whereClause tDesc { w with wvalue := s' }) := by
  unfold whereClause
  cases w.wkey with
  | none => exact .inl rfl
  | some wkeys => exact (whereFields_sameBut h _ _ 0 wkeys).prepend [.code (chars "WHERE ")]

/-- The statements of two such calls. -/
theorem SqlCall.statement_sameBut {tDesc : TableTmplDesc} {call call' : SqlCall}
    (h : call.DifferInText tDesc u u' call') (hs : call.statement t tDesc = some pieces) :
    ∃ pieces', call'.statement t tDesc = some pieces' ∧ SameButText u u' pieces pieces' := by
  cases h with
  | insertValue h =>
    obtain ⟨columns, hcolumns, hs⟩ := Option.bind_eq_some_iff.mp hs
    obtain ⟨values, hvalues, rfl⟩ := Option.map_eq_some_iff.mp hs
    obtain ⟨values', hvalues', hsame⟩ := insertValues_sameBut h hvalues
    refine ⟨_, ?_, hsame.prepend _⟩
    simp [SqlCall.statement, LdacsSdk.insertValue, hcolumns, hvalues']
  | updateValue h =>
    obtain rfl := Option.some.inj hs
    exact ⟨_, rfl, (((updateFields_sameBut h _).prepend _).append _).append _⟩
  | updateWhere h =>
    obtain rfl := Option.some.inj hs
    exact ⟨_, rfl, (whereClause_sameBut h).prepend _⟩
  | selectWhere h =>
    obtain rfl := Option.some.inj hs
    exact ⟨_, rfl, ((whereClause_sameBut h).prepend _).prepend [.code (chars "SELECT ")]⟩

end Differences

/-- **Text values.** What is printed for a text value is by itself one string literal with this
text exactly if there is no quote in the text; in the statement it is one exactly if besides evenly
many are in the names and text values in front of it. The statements of two calls that differ in
one text value differ only between its quotes. -/
theorem text_literal_iff (t : ClockTime) (tDesc : TableTmplDesc) (call : SqlCall)
    (pieces : List SqlPiece) (h : call.statement t tDesc = some pieces) :
    (∀ pre u post, pieces = pre ++ .text u :: post →
      (tokens quote .outside (SqlPiece.text u).chars = [.literal u] ↔ quote ∉ u) ∧
      (OneLiteral quote (printed pre) u (printed post) ↔
        quote ∉ u ∧ Even (foreignQuotes pre))) ∧
    ∀ u u' call', call.DifferInText tDesc u u' call' →
      ∃ pieces', call'.statement t tDesc = some pieces' ∧ SameButText u u' pieces pieces' := by
  obtain ⟨hspliced, s, rest, hstart⟩ := SqlCall.statement_spliced h
  constructor
  · intro pre u post hsplit
    subst hsplit
    refine ⟨tokens_quoted_iff, hspliced.oneLiteral_iff ?_⟩
    rintro rfl
    cases hstart
  · intro u u' call' hdiffer
    exact SqlCall.statement_sameBut hdiffer h

/-- A name without quotes in a table of one column. -/
theorem text_literal_name : ∃ pieces pre post,
    (SqlCall.insertValue fun _ => ⟨fun _ => 0, ⟨[], by decide⟩, some (chars "YiQin")⟩).statement
      ⟨2024, 6, 21, 12, 0, 0, 0⟩ ⟨chars "TEST", [⟨.sqlText, 8, chars "NAME", false⟩]⟩ =
        some pieces ∧
    printed pieces = chars "INSERT INTO TEST (NAME) VALUES ('YiQin');" ∧
    pieces = pre ++ .text (chars "YiQin") :: post ∧
    OneLiteral quote (printed pre) (chars "YiQin") (printed post) := by
  refine ⟨_, [.code (chars "INSERT INTO "), .name (chars "TEST"), .code (chars " ("),
    .name (chars "NAME"), .code (chars ") VALUES (")], [.code (chars ");")], rfl, by decide, rfl,
    ?_⟩
  exact ((text_literal_iff ⟨2024, 6, 21, 12, 0, 0, 0⟩
    ⟨chars "TEST", [⟨.sqlText, 8, chars "NAME", false⟩]⟩
    (.insertValue fun _ => ⟨fun _ => 0, ⟨[], by decide⟩, some (chars "YiQin")⟩) _ rfl).1
      _ _ _ rfl).2.mpr (by decide)

/-- The name `O'Brien` ends its literal behind the `O`. -/
theorem text_not_literal : ∃ pieces pre post,
    (SqlCall.insertValue fun _ => ⟨fun _ => 0, ⟨[], by decide⟩, some (chars "O'Brien")⟩).statement
      ⟨2024, 6, 21, 12, 0, 0, 0⟩ ⟨chars "TEST", [⟨.sqlText, 8, chars "NAME", false⟩]⟩ =
        some pieces ∧
    printed pieces = chars "INSERT INTO TEST (NAME) VALUES ('O'Brien');" ∧
    pieces = pre ++ .text (chars "O'Brien") :: post ∧
    ¬OneLiteral quote (printed pre) (chars "O'Brien") (printed post) := by
  refine ⟨_, [.code (chars "INSERT INTO "), .name (chars "TEST"), .code (chars " ("),
    .name (chars "NAME"), .code (chars ") VALUES (")], [.code (chars ");")], rfl, by decide, rfl,
    ?_⟩
  decide

end LdacsSdk
