import LdacsSdk.Packet.WriteSafety

/-!
# A stream with an open sub-stream

While a sub-stream is open the cursor of its container stands on the roof, so that the room test of
`out_struct` refuses whatever has a size. The test only adds up the sizes in the descriptor; a
descriptor without any passes it, and its strings are written behind the roof.
-/
namespace LdacsSdk

open Library

/-- A call of `out_struct` on a stream, with the memory and the clock it finds. -/
structure OutCall where
  mem : Mem
  now : ℕ
  sd : StructDesc
  members : List Member
  obj : Bool

/-- The call on a stream. -/
def OutCall.run (outs : PbStream) (c : OutCall) : Option OutResult :=
  outStruct c.mem c.now c.sd c.members outs c.obj

variable {outs : PbStream} {c : OutCall} {mem : Mem} {now : ℕ} {sd : StructDesc}
  {ms : List Member} {r : OutResult}

end LdacsSdk
