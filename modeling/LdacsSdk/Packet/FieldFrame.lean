import LdacsSdk.Packet.SubStream
import LdacsSdk.Packet.WriteSafety

/-!
# Fields side by side

Bit fields are merged into the output by OR, and the mask of `append_bits` is that of a whole
octet. What an over-wide value does to the fields in front of it is read off the strokes.
-/
namespace LdacsSdk

open Library

variable {mem mem' : Mem} {now start pos : ℕ} {sd : StructDesc} {f : FieldDesc}
  {fs : List FieldDesc} {ms : List Member} {outs : PbStream} {pl : Placed} {p : Spot}

end LdacsSdk
