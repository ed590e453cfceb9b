import LdacsSdk.Packet.Decoder

/-!
# Writing a packet

`out_struct` walks a descriptor over the members of a struct, `close_output_pbs` fills in the
lengths and the checksum that were left open. Beside what the code keeps, the state logs every
address that is written. There is no result where the members do not have the descriptor's shape,
so that the code would read a member of another type, and where `bad_case` aborts.
-/
namespace LdacsSdk

open Library

/-- Where `append_str` stands. -/
structure AppendingStr where
  mem : Mem
  cur : ℕ
  bitSize : ℕ
  writes : List ℕ

/-- `append_str`. -/
def appendStr : List UInt8 → AppendingStr → AppendingStr
  | [], s => s
  | n :: src, s =>
    let a := appendBits n.toNat ⟨s.mem, s.cur, (s.bitSize % 8 : ℕ), s.writes⟩
    appendStr src ⟨a.mem, a.cur, s.bitSize + 8, a.writes⟩

/-- Where the loop of `out_struct` stands; `slenFld` and its shift belong to the local `obj`,
`members` are still to be read. -/
structure OutState where
  mem : Mem
  cur : ℕ
  bitSize : ℕ
  payloadStart : Option ℕ
  slenFld : Option ℕ
  slentoShift : ℤ
  plenFld : Option ℕ
  plentoShift : ℤ
  crcFld : Option ℕ
  crcSize : ℕ
  members : List Member
  writes : List ℕ

/-- The number in the next member, where a bit field of `size` bits has one. -/
def readNumber (size : ℕ) (members : List Member) : Option (ℕ × List Member) :=
  match storageBits size, members with
  | some bits, .num n :: rest => some (n % 2 ^ bits, rest)
  | some _, _ => none
  | none, members => some (0, members)

/-- What is written of a bit field: the fixed value and the clock take the member's place. -/
def writtenValue (now : ℕ) (t : FieldType) (n : ℕ) : ℕ :=
  match t with
  | .ftFix fixNum => fixNum
  | .ftTime => now
  | _ => n

/-- `out_struct` gives up on a bit field behind it. -/
def outDiag (sd : String) (f : FieldDesc) (n : ℕ) : Option Diag :=
  match f.fieldType with
  | .ftEnum ed => if enumName ed n = none then some (.unknownEnum f.name sd n) else none
  | _ => none

/-- The place of a length field is kept for later. -/
def noteLength (t : FieldType) (toShift : ℤ) (s : OutState) : OutState :=
  match t with
  | .ftSlen => { s with slenFld := some s.cur, slentoShift := toShift }
  | .ftPlen => { s with plenFld := some s.cur, plentoShift := toShift }
  | _ => s

/-- The case of the bit fields. -/
def outNumber (now : ℕ) (sd : String) (f : FieldDesc) (s : OutState) :
    Option (OutState × Option Diag) :=
  (readNumber f.size s.members).map fun r =>
    let toShift : ℤ := f.size - (8 - (s.bitSize % 8 : ℕ))
    let noted := noteLength f.fieldType toShift s
    let a := appendBits (writtenValue now f.fieldType r.1) ⟨s.mem, s.cur, toShift, s.writes⟩
    ({ noted with mem := a.mem, cur := a.cur, bitSize := s.bitSize + f.size, members := r.2,
                  writes := a.writes }, outDiag sd f r.1)

/-- The case of `ft_pad`. -/
def outPad (s : OutState) : OutState :=
  let cur := if s.bitSize % 8 ≠ 0 then s.cur + 1 else s.cur
  { s with cur := cur, bitSize := 0, payloadStart := some cur }

/-- The case of `ft_crc`. -/
def outCrc (size : ℕ) (s : OutState) : OutState :=
  { s with crcFld := some s.cur, crcSize := size, cur := s.cur + (size >>> 3) }

/-- The case of the strings. -/
def outStr (s : OutState) : Option OutState :=
  match s.members with
  | .str (some b) :: rest =>
    let a := appendStr b.content ⟨s.mem, s.cur, s.bitSize, s.writes⟩
    some { s with mem := a.mem, cur := a.cur, bitSize := a.bitSize, members := rest,
                  writes := a.writes }
  | .str none :: rest => some { s with members := rest }
  | _ => none

/-- One turn of the loop of `out_struct`: the state after the field, and `ugh`. -/
def outField (now : ℕ) (sd : String) (f : FieldDesc) (s : OutState) :
    Option (OutState × Option Diag) :=
  match f.fieldType with
  | .ftTime | .ftMbz | .ftEnum _ | .ftSlen | .ftPlen | .ftFix _ | .ftSqn | .ftSet =>
    outNumber now sd f s
  | .ftPad => some (outPad s, none)
  | .ftCrc => some (outCrc f.size s, none)
  | .ftFlStr _ | .ftDlStr | .ftPRaw _ => (outStr s).map fun s' => (s', none)
  | .ftMac => none

/-- The loop of `out_struct`. -/
def outFields (now : ℕ) (sd : String) :
    List FieldDesc → OutState → Option (OutState × Option Diag)
  | [], s => some (s, none)
  | f :: fields, s =>
    match outField now sd f s with
    | some (s', none) => outFields now sd fields s'
    | r => r

/-- What a call of `close_output_pbs` leaves behind. -/
structure CloseResult where
  mem : Mem
  pbs : PbStream
  container : Option PbStream
  writes : List ℕ

/-- A length is filled in at the place and shift kept for it. -/
def fillLength (mem : Mem) (n cur : ℕ) (toShift : ℤ) : Appending :=
  appendBits n ⟨mem, cur, toShift, []⟩

/-- The four bytes of a checksum, most significant first. -/
def putCrc32 (mem : Mem) (crcFld : ℕ) (crc : UInt32) : Mem :=
  (List.range 4).foldl (fun mem p => Function.update mem (crcFld + p)
    (UInt8.ofNat ((crc.toNat >>> ((crc32Size / 8 - 1 - p) * 8)) &&& 0xFF))) mem

/-- The first part of `close_output_pbs`: the SDU length. -/
def closeSlen (mem : Mem) (pbs : PbStream) : CloseResult :=
  match pbs.slenFld with
  | some cur =>
    let a := fillLength mem (u64 (pbs.cur - pbs.start)) cur pbs.slentoShift
    ⟨a.mem, { pbs with slenFld := some a.cur, slentoShift := a.toShift }, none, a.writes⟩
  | none => ⟨mem, pbs, none, []⟩

/-- The third part: the PDU length. -/
def closePlen (mem : Mem) (pbs : PbStream) : CloseResult :=
  match pbs.plenFld with
  | some cur =>
    let a := fillLength mem (u64 (pbs.cur - pbs.start)) cur pbs.plentoShift
    ⟨a.mem, { pbs with plenFld := some a.cur, plentoShift := a.toShift }, none, a.writes⟩
  | none => ⟨mem, pbs, none, []⟩

/-- The last part: the checksum. -/
def closeCrc (mem : Mem) (pbs : PbStream) : CloseResult :=
  match pbs.crcFld with
  | some cur =>
    if pbs.crcSize = crc8Size then
      let crc := calCrc8bits (bytesBetween mem pbs.start cur)
      ⟨Function.update mem cur crc, { pbs with crcFld := some (cur + 1) }, none, [cur]⟩
    else if pbs.crcSize = crc32Size then
      let crc := calCrc32bits (bytesBetween mem pbs.start cur)
      ⟨putCrc32 mem cur crc, { pbs with crcFld := some (cur + 4) }, none, List.range' cur 4⟩
    else ⟨mem, pbs, none, []⟩
  | none => ⟨mem, pbs, none, []⟩

/-- `close_output_pbs`, with the stream that `container` points to. -/
def closeOutputPbs (mem : Mem) (container : Option PbStream) (pbs : PbStream) : CloseResult :=
  let s := closeSlen mem pbs
  let container := container.map fun c => { c with cur := s.pbs.cur }
  let p := closePlen s.mem s.pbs
  let c := closeCrc p.mem p.pbs
  ⟨c.mem, c.pbs, container, s.writes ++ p.writes ++ c.writes⟩

/-- What a call of `out_struct` leaves behind. It returned TRUE when there is no `diag`. -/
structure OutResult where
  mem : Mem
  outs : PbStream
  obj : Option PbStream
  diag : Option Diag
  writes : List ℕ

/-- The locals of `out_struct` before the first field. -/
def outStart (mem : Mem) (members : List Member) (outs : PbStream) : OutState :=
  ⟨mem, outs.cur, outs.bitsize, none, none, 0, outs.plenFld, outs.plentoShift, outs.crcFld,
    outs.crcSize, members, []⟩

/-- The local `obj` at `ft_end`. A payload start that is still NULL is address 0. -/
def outObj (roof : ℕ) (s : OutState) : PbStream :=
  { start := s.payloadStart.getD 0, cur := s.cur, roof := roof, slenFld := s.slenFld,
    plenFld := none, crcFld := none, pldFld := none, slentoShift := s.slentoShift,
    plentoShift := 0, crcSize := 0, bitsize := 0 }

/-- `out_struct`. `obj` says whether an `obj_pbs` is supplied, `now` is the clock. -/
def outStruct (mem : Mem) (now : ℕ) (sd : StructDesc) (members : List Member) (outs : PbStream)
    (obj : Bool) : Option OutResult :=
  if u64 (outs.roof - outs.cur) < sizeofStruct sd.fields then
    some ⟨mem, outs, none, some (.noRoomOut sd.name), []⟩
  else
    (outFields now sd.name sd.fields (outStart mem members outs)).map fun r =>
      let s := r.1
      let outs' := { outs with bitsize := s.bitSize, plenFld := s.plenFld,
                               plentoShift := s.plentoShift, crcFld := s.crcFld,
                               crcSize := s.crcSize }
      match r.2 with
      | some ugh => ⟨s.mem, outs', none, some ugh, s.writes⟩
      | none =>
        let objPbs := outObj outs.roof s
        if obj then ⟨s.mem, { outs' with cur := outs'.roof }, some objPbs, none, s.writes⟩
        else
          let c := closeOutputPbs s.mem (some outs') objPbs
          ⟨c.mem, c.container.getD outs', none, none, s.writes ++ c.writes⟩

/-- `gen_pdu`, with its array of 4096 zero bytes at address `base`. -/
def genPdu (base now : ℕ) (members : List Member) (sd : StructDesc) : Option Buffer :=
  let pbs := initPbs base 4096
  (outStruct (fun _ => 0) now sd members pbs false).map fun r =>
    let c := closeOutputPbs r.mem none r.outs
    cloneToChunk (bytesBetween c.mem c.pbs.start c.pbs.cur)

end LdacsSdk
