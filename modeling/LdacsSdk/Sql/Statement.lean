import LdacsSdk.Core.Definitions
import LdacsSdk.Library.Literals

/-!
# SQL statements

`insert_value`, `update_value` and `select_value` print their statement into a stream. The stream
is the list of what was printed, each piece with where it comes from: the program, a name of the
descriptor or of the caller, the clock, or a text value of a struct. A struct is given by what
stands at each offset.
-/
namespace LdacsSdk

open Library

/-- The character `'`. -/
def quote : UInt8 := 39

/-- `sql_field_type`; the entry of type `sql_end` is the end of the list of fields. -/
inductive SqlFieldType where
  | sqlInteger | sqlReal | sqlText | sqlBlob | sqlNull
  deriving DecidableEq, Repr

/-- `sql_logic`. -/
inductive SqlLogic where
  | sqlAnd | sqlOr | sqlNot
  deriving DecidableEq, Repr

/-- `sql_logics_str`. -/
def sqlLogicsStr : SqlLogic → List UInt8
  | .sqlAnd => chars "AND"
  | .sqlOr => chars "OR"
  | .sqlNot => chars "NOT"

/-- `sql_comp`. -/
inductive SqlComp where
  | sqlEq | sqlNeq | sqlLt | sqlLe | sqlMt | sqlMe
  deriving DecidableEq, Repr

/-- `sql_comp_str`. -/
def sqlCompStr : SqlComp → List UInt8
  | .sqlEq => chars "="
  | .sqlNeq => chars "<>"
  | .sqlLt => chars "<"
  | .sqlLe => chars "<="
  | .sqlMt => chars ">"
  | .sqlMe => chars ">="

/-- `table_tmpl_t`. -/
structure TableTmpl where
  sqlType : SqlFieldType
  size : ℕ
  name : List UInt8
  autoIncrement : Bool := false

/-- `table_tmpl_desc_t`. -/
structure TableTmplDesc where
  tableName : List UInt8
  fields : List TableTmpl

/-- What stands at an offset of a struct: the unsigned integer there by its size, what `%f` prints
of the double there, and the string that the pointer there points to, if it is not NULL. -/
structure SqlCell where
  integer : ℕ → ℕ
  real : { s : List UInt8 // quote ∉ s }
  text : Option (List UInt8)

/-- A packed struct. -/
abbrev SqlStruct := ℕ → SqlCell

/-- The fields from `cur_field` on with what stands at them from `ptr` on. -/
def structFields (s : SqlStruct) : ℕ → List TableTmpl → List (TableTmpl × SqlCell)
  | _, [] => []
  | ptr, curField :: rest => (curField, s ptr) :: structFields s (ptr + curField.size) rest

/-- What is printed at once. -/
inductive SqlPiece where
  | code (s : List UInt8)
  | name (s : List UInt8)
  | time (s : List UInt8)
  | text (s : List UInt8)
  deriving DecidableEq, Repr

/-- The characters of a piece; the time and text values are printed with `'%s'`. -/
def SqlPiece.chars : SqlPiece → List UInt8
  | .code s | .name s => s
  | .time s | .text s => quoted quote s

/-- What the pieces make in the stream. -/
def printed (pieces : List SqlPiece) : List UInt8 := pieces.flatMap SqlPiece.chars

/-- A number in decimal. -/
def decimal (n : ℕ) : List UInt8 := (Nat.toDigits 10 n).map fun c => UInt8.ofNat c.toNat

/-- A number in decimal of at least some digits. -/
def paddedDecimal (width n : ℕ) : List UInt8 :=
  List.replicate (width - (decimal n).length) 48 ++ decimal n

/-- The local time. -/
structure ClockTime where
  year : ℕ
  month : ℕ
  day : ℕ
  hour : ℕ
  minute : ℕ
  second : ℕ
  usec : ℕ

/-- `get_current_time`. -/
def getCurrentTime (t : ClockTime) : List UInt8 :=
  decimal t.year ++ chars "-" ++ paddedDecimal 2 t.month ++ chars "-" ++ paddedDecimal 2 t.day ++
    chars " " ++ paddedDecimal 2 t.hour ++ chars ":" ++ paddedDecimal 2 t.minute ++ chars ":" ++
    paddedDecimal 2 t.second ++ chars "." ++ paddedDecimal 6 t.usec

/-- An integer of a field; nothing is printed for another size. -/
def printInteger (curField : TableTmpl) (cell : SqlCell) : List SqlPiece :=
  if curField.size ∈ [1, 2, 4, 8] then [.code (decimal (cell.integer curField.size))] else []

/-- A value of any type but text. -/
def printNumber (curField : TableTmpl) (cell : SqlCell) : List SqlPiece :=
  match curField.sqlType with
  | .sqlInteger => printInteger curField cell
  | .sqlReal => [.code cell.real]
  | _ => []

/-- A text value, or NULL. -/
def printText (cell : SqlCell) : List SqlPiece :=
  match cell.text with
  | none => [.code (chars "NULL")]
  | some s => [.text s]

/-! ### `insert_value` -/

/-- The columns. Where the last fields are automatic the list is read past its end. -/
def insertColumns : List TableTmpl → Option (List SqlPiece)
  | [] => none
  | curField :: rest =>
    if curField.autoIncrement then insertColumns rest
    else if rest = [] then some [.name curField.name, .code (chars ") VALUES (")]
    else (insertColumns rest).map fun ps => .name curField.name :: .code (chars ", ") :: ps

/-- The value of a field. -/
def insertField (t : ClockTime) (curField : TableTmpl) (cell : SqlCell) : List SqlPiece :=
  if curField.sqlType = .sqlText then
    if curField.name = chars "CreatedAt" ∨ curField.name = chars "UpdatedAt" then
      [.time (getCurrentTime t)]
    else printText cell
  else printNumber curField cell

/-- The values; those behind the first one that an automatic field follows are left out. -/
def insertValues (t : ClockTime) : List (TableTmpl × SqlCell) → Option (List SqlPiece)
  | [] => none
  | (curField, cell) :: rest =>
    if curField.autoIncrement then insertValues t rest
    else if ∃ next ∈ (rest.map Prod.fst).head?, next.autoIncrement = false then
      (insertValues t rest).map fun ps => insertField t curField cell ++ .code (chars ", ") :: ps
    else some (insertField t curField cell ++ [.code (chars ");")])

/-- `insert_value`. -/
def insertValue (t : ClockTime) (tDesc : TableTmplDesc) (structPtr : SqlStruct) :
    Option (List SqlPiece) :=
  (insertColumns tDesc.fields).bind fun columns =>
    (insertValues t (structFields structPtr 0 tDesc.fields)).map fun values =>
      [.code (chars "INSERT INTO "), .name tDesc.tableName, .code (chars " (")] ++ columns ++ values

/-! ### Conditions -/

/-- The value of a field in a condition; nothing is printed for NULL. -/
def whereField (curField : TableTmpl) (cell : SqlCell) : List SqlPiece :=
  if curField.sqlType = .sqlText then
    match cell.text with
    | none => []
    | some s => [.text s]
  else printNumber curField cell

/-- The comparison of condition `i`. -/
def whereComp (comps : Option (ℕ → SqlComp)) (i : ℕ) : SqlPiece :=
  match comps with
  | none => .code (chars "= ")
  | some comps => .code (sqlCompStr (comps i) ++ chars " ")

/-- What joins condition `i` to the next one. -/
def whereLogic (logics : Option (ℕ → SqlLogic)) (i : ℕ) : SqlPiece :=
  match logics with
  | none => .code (chars " AND ")
  | some logics => .code (chars " " ++ sqlLogicsStr (logics i) ++ chars " ")

/-- The conditions from number `i` on. -/
def whereFields (comps : Option (ℕ → SqlComp)) (logics : Option (ℕ → SqlLogic)) :
    ℕ → List (TableTmpl × SqlCell) → List (List UInt8) → List SqlPiece
  | _, [], _ => []
  | _, _ :: _, [] => []
  | i, (curField, cell) :: rest, wkey :: wkeys =>
    if curField.name = wkey then
      .name wkey :: .code (chars " ") :: whereComp comps i :: (whereField curField cell ++
        (if wkeys = [] then [] else [whereLogic logics i]) ++
        whereFields comps logics (i + 1) rest wkeys)
    else whereFields comps logics i rest (wkey :: wkeys)

/-- The conditions of a call: the keys, the struct and the arrays of operators. -/
structure SqlWhere where
  wkey : Option (List (List UInt8))
  wvalue : SqlStruct
  comps : Option (ℕ → SqlComp)
  logics : Option (ℕ → SqlLogic)

/-- The part of a statement behind `WHERE`; without keys there is none. -/
def whereClause (tDesc : TableTmplDesc) (w : SqlWhere) : List SqlPiece :=
  match w.wkey with
  | none => []
  | some wkeys => .code (chars "WHERE ") ::
      whereFields w.comps w.logics 0 (structFields w.wvalue 0 tDesc.fields) wkeys

/-! ### `update_value` -/

/-- The new value of a field; nothing is printed for `UpdatedAt`. -/
def updateField (curField : TableTmpl) (cell : SqlCell) : List SqlPiece :=
  if curField.sqlType = .sqlText then
    if curField.name = chars "UpdatedAt" then [] else printText cell
  else printNumber curField cell

def updateFields : List (TableTmpl × SqlCell) → List (List UInt8) → List SqlPiece
  | [], _ => []
  | _ :: _, [] => []
  | (curField, cell) :: rest, key :: keys =>
    if curField.name = key then
      .name key :: .code (chars " = ") ::
        (updateField curField cell ++ .code (chars ", ") :: updateFields rest keys)
    else updateFields rest (key :: keys)

/-- `update_value`. -/
def updateValue (t : ClockTime) (tDesc : TableTmplDesc) (key : List (List UInt8))
    (value : SqlStruct) (w : SqlWhere) : List SqlPiece :=
  [.code (chars "UPDATE "), .name tDesc.tableName, .code (chars " SET ")] ++
    updateFields (structFields value 0 tDesc.fields) key ++
    [.code (chars "UpdatedAt = "), .time (getCurrentTime t), .code (chars " ")] ++
    whereClause tDesc w

/-! ### `select_value` -/

def selectFields : List TableTmpl → List (List UInt8) → List SqlPiece
  | [], _ => []
  | _ :: _, [] => []
  | curField :: rest, key :: keys =>
    if curField.name = key then
      .name key :: .code (if keys = [] then chars " " else chars ", ") :: selectFields rest keys
    else selectFields rest (key :: keys)

/-- `select_value`. -/
def selectValue (tDesc : TableTmplDesc) (key : Option (List (List UInt8))) (w : SqlWhere) :
    List SqlPiece :=
  .code (chars "SELECT ") ::
    ((match key with
      | none => [.code (chars "* ")]
      | some keys => selectFields tDesc.fields keys) ++
    [.code (chars "FROM "), .name tDesc.tableName, .code (chars " ")] ++ whereClause tDesc w)

/-- The calls that make a statement with values. -/
inductive SqlCall where
  | insertValue (structPtr : SqlStruct)
  | updateValue (key : List (List UInt8)) (value : SqlStruct) (w : SqlWhere)
  | selectValue (key : Option (List (List UInt8))) (w : SqlWhere)

/-- The statement of a call, in pieces. -/
def SqlCall.statement (t : ClockTime) (tDesc : TableTmplDesc) : SqlCall → Option (List SqlPiece)
  | .insertValue structPtr => LdacsSdk.insertValue t tDesc structPtr
  | .updateValue key value w => some (LdacsSdk.updateValue t tDesc key value w)
  | .selectValue key w => some (LdacsSdk.selectValue tDesc key w)

end LdacsSdk
