import LdacsSdk.Core.Buffer

/-!
# Packet descriptors and bit streams

A packet is described by a list of fields; `ft_end` is the end of the list. The struct that is
encoded or decoded is the list of its members in order: a number for each bit field that has
storage, a buffer pointer for each string, nothing for padding and checksums.
-/
namespace LdacsSdk

/-- `enum_names`, one range of named values. -/
structure EnumRange where
  enFirst : ℕ
  enLast : ℕ
  enNames : List String
  deriving DecidableEq, Repr

/-- `enum_names` with the ranges chained behind it. -/
abbrev EnumNames := List EnumRange

/-- `enum field_type`, with what the `desc` of such a field points to. -/
inductive FieldType where
  | ftMbz | ftSet
  | ftEnum (ed : EnumNames)
  | ftPlen
  | ftPRaw (behind : ℕ)
  | ftSlen
  | ftFix (fixNum : ℕ)
  | ftSqn | ftMac | ftTime | ftDlStr
  | ftFlStr (len : ℕ)
  | ftPad | ftCrc
  deriving DecidableEq, Repr

/-- `field_desc`. -/
structure FieldDesc where
  fieldType : FieldType
  size : ℕ
  name : String
  deriving DecidableEq, Repr

/-- `struct_desc_t`. -/
structure StructDesc where
  name : String
  fields : List FieldDesc
  deriving DecidableEq, Repr

/-- A member of the struct. -/
inductive Member where
  | num (n : ℕ)
  | str (b : Option Buffer)
  deriving DecidableEq, Repr

/-- `packet_bit_stream`, except the pointer to its container. Pointers are addresses. `init_pbs`
leaves `crc_size` as it was; it is read only where `crc_fld` is set. -/
structure PbStream where
  start : ℕ
  cur : ℕ
  roof : ℕ
  slenFld : Option ℕ
  plenFld : Option ℕ
  crcFld : Option ℕ
  pldFld : Option ℕ
  slentoShift : ℤ
  plentoShift : ℤ
  crcSize : ℕ
  bitsize : ℕ
  deriving DecidableEq, Repr

/-- `init_pbs`. -/
def initPbs (start len : ℕ) : PbStream :=
  ⟨start, start, start + len, none, none, none, none, 0, 0, 0, 0⟩

/-- Why `in_struct` or `out_struct` gives up. -/
inductive Diag where
  | noRoomIn (sd : String)
  | noRoomOut (sd : String)
  | unknownEnum (field sd : String) (n : ℕ)
  | wrongFix (field sd : String) (n fixNum : ℕ)
  | wrongCrc (field : String)
  deriving DecidableEq, Repr

/-- The text `builddiag` makes of it. -/
def Diag.text : Diag → String
  | noRoomIn sd => "not enough room left in input packet for " ++ sd
  | noRoomOut sd => "not enough room left in output packet to place " ++ sd
  | unknownEnum field sd n =>
    field ++ " of " ++ sd ++ " has an unknown out value: " ++ toString n
  | wrongFix field sd n fixNum =>
    field ++ " value of " ++ sd ++ " is " ++ toString n ++ ", but it is not equals to " ++
      toString fixNum
  | wrongCrc field => field ++ " Wrong CRC"

/-- `CRC_8_SIZE`. -/
def crc8Size : ℕ := 8

/-- `CRC_32_SIZE`. -/
def crc32Size : ℕ := 32

/-- `enum_name_default`, with no default. -/
def enumName (ed : EnumNames) (val : ℕ) : Option String :=
  match ed with
  | [] => none
  | p :: rest =>
    if p.enFirst ≤ val ∧ val ≤ p.enLast then p.enNames[val - p.enFirst]? else enumName rest val

/-- `bytes_len`: the number of bits of `n - 1` as a `size_t`. -/
def bytesLen (n : ℕ) : ℕ :=
  let m := u64 (n - 1)
  if m = 0 then 0 else m.log2 + 1

/-- The width of the struct member that a bit field of `size` bits is kept in. -/
def storageBits (size : ℕ) : Option ℕ :=
  match bytesLen size with
  | 0 | 1 | 2 | 3 => some 8
  | 4 => some 16
  | 5 => some 32
  | 6 => some 64
  | _ => none

/-- `sizeof_struct`. -/
def sizeofStruct (fields : List FieldDesc) : ℕ :=
  let ret := u64 (fields.map FieldDesc.size).sum
  if ret % 8 = 0 then ret / 8 else ret / 8 + 1

/-- The field types that the codec treats as plain numbers of `size` bits. -/
def FieldType.isBits : FieldType → Bool
  | ftMbz | ftSet | ftEnum _ | ftPlen | ftSlen | ftFix _ | ftSqn | ftTime => true
  | _ => false

/-- Every bit field of up to 64 bits has a member that is wide enough. -/
theorem storageBits_covers : ∀ size < 65, 1 ≤ size → (storageBits size).any (size ≤ ·) := by
  decide

theorem exists_storageBits {size : ℕ} (h1 : 1 ≤ size) (h64 : size ≤ 64) :
    ∃ bits, storageBits size = some bits ∧ size ≤ bits := by
  have hcovers := storageBits_covers size (by omega) h1
  cases hs : storageBits size with
  | none => simp [hs] at hcovers
  | some bits => exact ⟨bits, rfl, by simpa [hs] using hcovers⟩

end LdacsSdk
