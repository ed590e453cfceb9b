import LdacsSdk.Core.Checksum
import LdacsSdk.Packet.Bits
import LdacsSdk.Packet.Descriptor

/-!
# Reading a packet

`in_struct` walks a descriptor over the bytes of a stream. Beside what the code keeps, the state
logs every address of the stream that is read, every length copied into the scratch array of
`MAX_INPUT_BUFFER_SIZE` bytes, and whether the length of an `ft_p_raw` string came from a
subtraction below zero.
-/
namespace LdacsSdk

open Library

/-- Where `detach_str` stands. -/
structure DetachingStr where
  cur : ℕ
  bitSize : ℕ
  dst : List UInt8
  reads : List ℕ
  deriving DecidableEq, Repr

/-- `detach_str`. -/
def detachStr (mem : Mem) : ℕ → DetachingStr → DetachingStr
  | 0, s => s
  | size + 1, s =>
    let d := detachBits mem ⟨s.cur, (s.bitSize % 8 : ℕ), 0, s.bitSize % 8, s.reads⟩
    detachStr mem size ⟨d.cur, s.bitSize + 8, s.dst ++ [UInt8.ofNat d.n], d.reads⟩

/-- Where the loop of `in_struct` stands. `payloadStart` is `none` while it is uninitialised;
`presized` are the buffers that stand in the `ft_dl_str` members of the struct, in order. -/
structure InState where
  cur : ℕ
  bitSize : ℕ
  sduLen : ℕ
  pduLen : ℕ
  payloadStart : Option ℕ
  crcFld : Option ℕ
  pldFld : Option ℕ
  presized : List (Option Buffer)
  members : List Member
  reads : List ℕ
  copied : List ℕ
  wrapped : Bool
  deriving DecidableEq, Repr

/-- The bytes from `start` up to `cur`. -/
def bytesBetween (mem : Mem) (start cur : ℕ) : List UInt8 :=
  (List.range' start (cur - start)).map mem

/-- A number of `size` bits is detached and stored in its member. -/
def inBits (mem : Mem) (size : ℕ) (s : InState) : InState × ℕ :=
  let pre := s.bitSize % 8
  let d := detachBits mem ⟨s.cur, size + pre - 8, 0, pre, s.reads⟩
  let stored := (storageBits size).toList.map fun bits => Member.num (d.n % 2 ^ bits)
  ({ s with cur := d.cur, bitSize := s.bitSize + size, members := s.members ++ stored,
            reads := d.reads }, d.n)

/-- The case of the bit fields. -/
def inNumber (mem : Mem) (sd : String) (f : FieldDesc) (s : InState) : InState × Option Diag :=
  let r := inBits mem f.size s
  match f.fieldType with
  | .ftEnum ed =>
    (r.1, if enumName ed r.2 = none then some (.unknownEnum f.name sd r.2) else none)
  | .ftSlen => ({ r.1 with sduLen := r.2 }, none)
  | .ftPlen => ({ r.1 with pduLen := r.2 }, none)
  | .ftFix fixNum => (r.1, if r.2 ≠ fixNum then some (.wrongFix f.name sd r.2 fixNum) else none)
  | _ => (r.1, none)

/-- The case of `ft_pad`. -/
def inPad (s : InState) : InState :=
  if s.bitSize % 8 ≠ 0 then
    { s with cur := s.cur + 1, bitSize := 0, payloadStart := some (s.cur + 1) }
  else { s with payloadStart := some s.cur }

/-- The four bytes of a received 32-bit checksum, most significant first. -/
def crc32In (mem : Mem) (cur : ℕ) : ℕ :=
  (List.range 4).foldl
    (fun acc p => (acc + (mem (cur + p)).toNat <<< ((crc32Size / 8 - p - 1) * 8)) % 2 ^ 32) 0

/-- The case of `ft_crc`. -/
def inCrc (mem : Mem) (start : ℕ) (f : FieldDesc) (s : InState) : InState × Option Diag :=
  if f.size = crc8Size then
    let crc := calCrc8bits (bytesBetween mem start s.cur)
    ({ s with crcFld := some s.cur, cur := s.cur + 1,
              reads := s.reads ++ List.range' start (s.cur - start) ++ [s.cur] },
      if crc ≠ mem s.cur then some (.wrongCrc f.name) else none)
  else if f.size = crc32Size then
    let crc := calCrc32bits (bytesBetween mem start s.cur)
    ({ s with crcFld := some s.cur, cur := s.cur + 4,
              reads := s.reads ++ List.range' start (s.cur - start) ++ List.range' s.cur 4 },
      if crc.toNat ≠ crc32In mem s.cur then some (.wrongCrc f.name) else none)
  else ({ s with crcFld := some s.cur }, none)

/-- `size` bytes are detached into the scratch array and from there made into a buffer. -/
def inStr (mem : Mem) (size : ℕ) (make : List UInt8 → Buffer) (s : InState) : InState :=
  let d := detachStr mem size ⟨s.cur, s.bitSize, [], s.reads⟩
  { s with cur := d.cur, bitSize := d.bitSize, members := s.members ++ [.str (some (make d.dst))],
           reads := d.reads, copied := s.copied ++ [size] }

/-- The case of `ft_fl_str`. -/
def inFlStr (mem : Mem) (len : ℕ) (s : InState) : InState :=
  let b := initBufferPtr len
  inStr mem b.free (fun temp => (catToBuffer true b temp).1) s

/-- The case of `ft_dl_str`. -/
def inDlStr (mem : Mem) (s : InState) : InState :=
  match s.presized with
  | some b :: rest =>
    inStr mem b.free (fun temp => (catToBuffer true b temp).1) { s with presized := rest }
  | none :: rest => { s with presized := rest, members := s.members ++ [.str none] }
  | [] => { s with members := s.members ++ [.str none] }

/-- The case of `ft_p_raw`. -/
def inPRaw (mem : Mem) (start behind : ℕ) (s : InState) : InState :=
  let left : ℤ := s.pduLen - (s.cur - start) - (behind >>> 3 : ℕ)
  inStr mem (u64 left) cloneToChunk
    { s with pldFld := some s.cur, wrapped := s.wrapped || decide (left < 0) }

/-- One turn of the loop of `in_struct`: the state after the field, and `ugh`. -/
def inField (mem : Mem) (sd : String) (start : ℕ) (f : FieldDesc) (s : InState) :
    InState × Option Diag :=
  match f.fieldType with
  | .ftMbz | .ftSet | .ftEnum _ | .ftPlen | .ftSlen | .ftFix _ | .ftSqn | .ftTime =>
    inNumber mem sd f s
  | .ftPad => (inPad s, none)
  | .ftCrc => inCrc mem start f s
  | .ftFlStr len => (inFlStr mem len s, none)
  | .ftDlStr => (inDlStr mem s, none)
  | .ftPRaw behind => (inPRaw mem start behind s, none)
  | .ftMac => (s, none)

/-- The loop of `in_struct`. -/
def inFields (mem : Mem) (sd : String) (start : ℕ) :
    List FieldDesc → InState → InState × Option Diag
  | [], s => (s, none)
  | f :: fields, s =>
    match inField mem sd start f s with
    | (s', none) => inFields mem sd start fields s'
    | (s', some ugh) => (s', some ugh)

/-- What a call of `in_struct` leaves behind. It returned TRUE when there is no `diag`. -/
structure InResult where
  ins : PbStream
  obj : Option PbStream
  diag : Option Diag
  state : InState
  deriving DecidableEq, Repr

/-- The locals of `in_struct` before the first field. -/
def inStart (ins : PbStream) (presized : List (Option Buffer)) : InState :=
  ⟨ins.cur, ins.bitsize, 0, 0, none, ins.crcFld, ins.pldFld, presized, [], [], [], false⟩

/-- `in_struct`. `obj` says whether an `obj_pbs` is supplied, `junk` is what the uninitialised
`payload_start` happens to hold. -/
def inStruct (mem : Mem) (junk : ℕ) (sd : StructDesc) (presized : List (Option Buffer))
    (ins : PbStream) (obj : Bool) : InResult :=
  if u64 (ins.roof - ins.cur) < sizeofStruct sd.fields then
    ⟨ins, none, some (.noRoomIn sd.name), inStart ins presized⟩
  else
    let r := inFields mem sd.name ins.start sd.fields (inStart ins presized)
    let ins' := { ins with bitsize := r.1.bitSize, crcFld := r.1.crcFld, pldFld := r.1.pldFld }
    match r.2 with
    | some ugh => ⟨ins', none, some ugh, r.1⟩
    | none =>
      if obj then
        let payloadLen := r.1.sduLen
        let objPbs := initPbs (r.1.payloadStart.getD junk) payloadLen
        ⟨{ ins' with cur := r.1.cur + payloadLen }, some { objPbs with cur := r.1.cur }, none, r.1⟩
      else ⟨{ ins' with cur := r.1.cur }, none, none, r.1⟩

/-- `pb_in_mac`. `verifyHmac` is the caller's `verify_hmac` with the key and the memory filled in:
it gets the address of the MAC, the start and length of the message and the MAC length. -/
def pbInMac (verifyHmac : ℕ → ℕ → ℕ → ℕ → Bool) (macLen : ℕ) (ins : PbStream) : PbStream × Bool :=
  let len := u64 (ins.cur - ins.start)
  if verifyHmac ins.cur ins.start len macLen then
    ({ ins with cur := ins.cur + macLen }, true)
  else (ins, false)

end LdacsSdk
