import LdacsSdk.Library.Selection
import LdacsSdk.Sql.Insertion

/-!
# Assignments and conditions

The keys of a call stand in the order of the descriptor, so that one pass finds the field of each.
A condition on a text that is NULL gets no value, nor does a field of a type that is not printed;
a list of conditions or of columns that is there but empty leaves its keyword without anything.
-/
namespace LdacsSdk

open Library

/-- Condition `i`: its column, its comparison and its value. -/
def condition (render : TableTmpl → SqlCell → List SqlPiece) (comps : Option (ℕ → SqlComp))
    (i : ℕ) (fc : TableTmpl × SqlCell) : List SqlPiece :=
  .name fc.1.name :: .code (chars " ") :: whereComp comps i :: render fc.1 fc.2

variable {fields : List TableTmpl} {cells : List (TableTmpl × SqlCell)} {curField : TableTmpl}
  {cell : SqlCell} {keys : List (List UInt8)} {tDesc : TableTmplDesc} {w : SqlWhere} {s : SqlStruct}

/-! ### One pass over fields and keys -/

end LdacsSdk
