import LdacsSdk.Library.Runs
import LdacsSdk.Net.Receiving
import LdacsSdk.Net.Sending

/-!
# Framing end to end

Two connections share a wire. The packets that were queued and not handed up are exactly the
frames in what the receiver has seen and not handed up, what is on the wire, and what the sender
has still to write, in this order.
-/
namespace LdacsSdk

open Library

/-- What the receiver has of the frames that it has not handed up. -/
def Conn.seen (c : Conn) : List UInt8 :=
  (if c.readingHeader then [] else htonl c.expectedPktLen) ++ c.recvBuffer.elim [] Buffer.content

/-- The receiver is in step with the packets that were queued: those that it has not handed up
are the frames in what it has seen followed by `tail`. -/
structure InStep (queued : List (List UInt8)) (tail : List UInt8) (c : Conn)
    (handed : List (List UInt8)) : Prop where
  valid : ∀ buf, c.recvBuffer = some buf → buf.Valid
  expectedLt : c.readingHeader = false → c.expectedPktLen < 2 ^ 32
  rest : ∃ rest, queued = handed ++ rest ∧ c.seen ++ tail = frames htonl rest

/-- The lengths that the framing carries. -/
def PacketLength (packet : List UInt8) : Prop :=
  0 < packet.length ∧ packet.length ≤ maxInputBufferSize

instance : DecidablePred PacketLength := fun _ => inferInstanceAs (Decidable (_ ∧ _))

variable {queued handed : List (List UInt8)} {tail : List UInt8} {c : Conn}
  {recvHandler : List (List UInt8) → LErr} {s s' : Receiving} {buf : Buffer}

theorem PacketLength.lt {packet : List UInt8} (h : PacketLength packet) :
    packet.length < 2 ^ 32 := by
  have := h.2
  unfold maxInputBufferSize at this
  omega

theorem InStep.length_buffered (h : InStep queued tail c handed) :
    (c.recvBuffer.elim [] Buffer.content).length = c.recvBuffer.elim 0 Buffer.len := by
  cases hb : c.recvBuffer with
  | none => rfl
  | some buf => exact (h.valid buf hb).length_content

/-- A whole header in the buffer is that of the next packet. -/
theorem InStep.readHeader (h : InStep queued tail s.conn s.handed)
    (hlengths : ∀ p ∈ queued, PacketLength p) (hb : s.conn.recvBuffer = some buf)
    (hheader : s.conn.readingHeader = true) (hlen : 4 ≤ buf.len) :
    ∃ s', s.readHeader buf = .again s' ∧ s'.fatal = s.fatal ∧
      InStep queued tail s'.conn s'.handed := by
  obtain ⟨rest, hqueued, hseen⟩ := h.rest
  have hvalid := h.valid buf hb
  have hcontent : s.conn.seen = buf.content := by simp [Conn.seen, hheader, hb]
  rw [hcontent] at hseen
  obtain ⟨body, rest, rfl, htake, hdrop⟩ := frames_header length_htonl (by decide) hseen
    (by rw [hvalid.length_content]; exact hlen)
  have hbody : PacketLength body := hlengths body (by simp [hqueued])
  have hexpected : ntohl buf.content = body.length := by
    rw [← ntohl_take, htake, ntohl_htonl hbody.lt]
  unfold Receiving.readHeader
  dsimp only
  rw [hexpected, if_neg hbody.1.ne', if_neg (Nat.not_lt.mpr hbody.2)]
  refine ⟨_, rfl, rfl, ?_, fun _ => hbody.lt, body :: rest, hqueued, ?_⟩
  · rintro buf' ⟨rfl⟩
    exact valid_removeFromBufferFront hvalid 4
  · simp only [Conn.seen, Bool.false_eq_true, if_false, Option.elim_some,
      content_removeFromBufferFront hvalid, frames_cons, List.append_assoc, hdrop]

/-- A whole body in the buffer is the next packet. -/
theorem InStep.readBody (h : InStep queued tail s.conn s.handed)
    (hlengths : ∀ p ∈ queued, PacketLength p) (hhandler : ∀ ps, recvHandler ps ≠ .ldErrInternal)
    (hb : s.conn.recvBuffer = some buf) (hbody : s.conn.readingHeader = false)
    (hlen : s.conn.expectedPktLen ≤ buf.len) :
    ∃ s', s.readBody recvHandler buf = .again s' ∧ s'.fatal = s.fatal ∧
      InStep queued tail s'.conn s'.handed := by
  obtain ⟨rest, hqueued, hseen⟩ := h.rest
  have hvalid := h.valid buf hb
  have hcontent : s.conn.seen = htonl s.conn.expectedPktLen ++ buf.content := by
    simp [Conn.seen, hbody, hb]
  rw [hcontent] at hseen
  obtain ⟨body, rest, rfl, htake, hdrop⟩ := frames_header length_htonl (by decide) hseen (by simp)
  rw [List.take_left' (length_htonl _)] at htake
  rw [List.drop_left' (length_htonl _)] at hdrop
  have hpacket : PacketLength body := hlengths body (by simp [hqueued])
  have hexpected : s.conn.expectedPktLen = body.length := by
    rw [← ntohl_htonl (h.expectedLt hbody), htake, ntohl_htonl hpacket.lt]
  obtain ⟨hbodyEq, hrest⟩ := frames_body hdrop
    (by rw [hvalid.length_content, ← hexpected]; exact hlen)
  unfold Receiving.readBody
  dsimp only
  rw [if_neg (hhandler _), hexpected, content_cloneToChunk, hbodyEq]
  refine ⟨_, rfl, rfl, ?_, fun hheader => absurd hheader (by simp), rest, by simp [hqueued], ?_⟩
  · rintro buf' ⟨rfl⟩
    exact valid_removeFromBufferFront hvalid _
  · simp only [Conn.seen, if_true, List.nil_append, Option.elim_some,
      content_removeFromBufferFront hvalid, hrest]

/-- After a run of `process_complete_packets` the receiver is still in step, and the buffer holds
nothing complete. -/
theorem InStep.process (h : InStep queued tail s.conn s.handed) (hok : s.fatal = none)
    (hlengths : ∀ p ∈ queued, PacketLength p) (hhandler : ∀ ps, recvHandler ps ≠ .ldErrInternal)
    (hprocess : processCompletePackets recvHandler s = some s') :
    s'.fatal = none ∧ InStep queued tail s'.conn s'.handed ∧ s'.conn.Settled := by
  refine whileLoop_invariant
    (I := fun u => u.fatal = none ∧ InStep queued tail u.conn u.handed)
    (Q := fun u => u.fatal = none ∧ InStep queued tail u.conn u.handed ∧ u.conn.Settled)
    ?_ ?_ ⟨hok, h⟩ hprocess
  · rintro u u' ⟨hu, hstep⟩ hround
    rcases processRound_cases recvHandler u with
      ⟨-, hleave⟩ | ⟨buf, hb, ⟨hheader, hlen, hgo⟩ | ⟨hbody, hlen, hgo⟩⟩
    · rw [hleave] at hround
      cases hround
    · obtain ⟨w, hw, hfatal, hin⟩ := hstep.readHeader hlengths hb hheader hlen
      rw [hgo, hw] at hround
      cases hround
      exact ⟨hfatal.trans hu, hin⟩
    · obtain ⟨w, hw, hfatal, hin⟩ := hstep.readBody hlengths hhandler hb hbody hlen
      rw [hgo, hw] at hround
      cases hround
      exact ⟨hfatal.trans hu, hin⟩
  · rintro u u' ⟨hu, hstep⟩ hround
    rcases processRound_cases recvHandler u with
      ⟨hsettled, hleave⟩ | ⟨buf, hb, ⟨hheader, hlen, hgo⟩ | ⟨hbody, hlen, hgo⟩⟩
    · rw [hleave] at hround
      cases hround
      exact ⟨hu, hstep, hsettled⟩
    · obtain ⟨w, hw, -⟩ := hstep.readHeader hlengths hb hheader hlen
      rw [hgo, hw] at hround
      cases hround
    · obtain ⟨w, hw, -⟩ := hstep.readBody hlengths hhandler hb hbody hlen
      rw [hgo, hw] at hround
      cases hround

theorem InStep.append {bytes : List UInt8} (h : InStep queued (bytes ++ tail) c handed)
    (hbuf : c.recvBuffer.isSome) : InStep queued tail (c.append bytes) handed := by
  obtain ⟨buf, hb⟩ := Option.isSome_iff_exists.mp hbuf
  obtain ⟨rest, hqueued, hseen⟩ := h.rest
  obtain ⟨hvalid, -, hcontent⟩ := catToBuffer_spec (h.valid buf hb) bytes
  refine ⟨?_, h.expectedLt, rest, hqueued, ?_⟩
  · intro buf' hb'
    simp only [Conn.append, hb, Option.map_some, Option.some.injEq] at hb'
    exact hb' ▸ hvalid
  · rw [← hseen]
    simp [Conn.seen, Conn.append, hb, hcontent]

/-- A connection that is in step, holds nothing complete and has its receive buffer. -/
structure Receptive (queued : List (List UInt8)) (tail : List UInt8) (c : Conn)
    (handed : List (List UInt8)) : Prop where
  inStep : InStep queued tail c handed
  settled : c.Settled
  buffered : c.recvBuffer.isSome

theorem Receptive.withState (h : Receptive queued tail c handed) (state : ConnState) :
    Receptive queued tail { c with state := state } handed :=
  ⟨⟨h.inStep.valid, h.inStep.expectedLt, h.inStep.rest⟩, h.settled, h.buffered⟩

/-- A round of `process_complete_packets` keeps the buffer. -/
theorem processRound_buffered {u u' : Receiving} (hu : u.conn.recvBuffer.isSome)
    (hround : processRound recvHandler u = some (.again u') ∨
      processRound recvHandler u = some (.leave u')) : u'.conn.recvBuffer.isSome := by
  rcases processRound_cases recvHandler u with
    ⟨-, hleave⟩ | ⟨buf, hb, ⟨-, -, hgo⟩ | ⟨-, -, hgo⟩⟩
  · rw [hleave] at hround
    rcases hround with hround | hround
    · cases hround
    · cases hround
      exact hu
  · rw [hgo, Option.some.injEq, Option.some.injEq, Receiving.readHeader] at hround
    dsimp only at hround
    split_ifs at hround
    all_goals rcases hround with hround | hround <;> cases hround; simp [hb]
  · rw [hgo, Option.some.injEq, Option.some.injEq, Receiving.readBody] at hround
    dsimp only at hround
    split_ifs at hround
    all_goals rcases hround with hround | hround <;> cases hround; simp [hb]

/-- The buffer is there after a run of `process_complete_packets` if it was there before. -/
theorem processCompletePackets_buffered (hbuf : s.conn.recvBuffer.isSome)
    (h : processCompletePackets recvHandler s = some s') : s'.conn.recvBuffer.isSome := by
  apply whileLoop_invariant (I := fun u : Receiving => u.conn.recvBuffer.isSome)
    (Q := fun u => u.conn.recvBuffer.isSome) _ _ hbuf h
  · intro u u' hu hround
    exact processRound_buffered hu (.inl hround)
  · intro u u' hu hround
    exact processRound_buffered hu (.inr hround)

/-- A call of `read_packet` takes the bytes it reads off the stream. -/
theorem Receptive.readLoop {outcomes : List ReadOutcome} {hasReadAny : Bool} {r : Received}
    (hlengths : ∀ p ∈ queued, PacketLength p) (hhandler : ∀ ps, recvHandler ps ≠ .ldErrInternal)
    (hr : readLoop recvHandler outcomes hasReadAny c handed = some r)
    (h : Receptive queued (r.bytes ++ tail) c handed) :
    Receptive queued tail r.conn r.handed := by
  induction outcomes generalizing hasReadAny c handed r with
  | nil => cases hr; exact h
  | cons o outcomes ih =>
    cases o with
    | got bytes =>
      unfold LdacsSdk.readLoop at hr
      split_ifs at hr with hend
      · cases hr
        exact h.withState .closed
      · obtain ⟨t, ht⟩ := processCompletePackets_returns recvHandler ⟨c.append bytes, handed, none⟩
        have hbuf : (c.append bytes).recvBuffer.isSome := by simpa [Conn.append] using h.buffered
        rw [ht] at hr
        dsimp only at hr
        split_ifs at hr with hfatal
        · cases hr
          have := ((h.inStep.append h.buffered).process (s := ⟨c.append bytes, handed, none⟩) rfl
            hlengths hhandler ht).1
          simp [this] at hfatal
        · obtain ⟨r', hr', rfl⟩ := Option.map_eq_some_iff.mp hr
          have hin := h.inStep
          rw [List.append_assoc] at hin
          obtain ⟨-, hstep, hsettled⟩ := (hin.append h.buffered).process
            (s := ⟨c.append bytes, handed, none⟩) rfl hlengths hhandler ht
          exact ih (r := r') hr' ⟨hstep, hsettled, processCompletePackets_buffered hbuf ht⟩
    | again => cases hr; exact h
    | interrupted =>
      unfold LdacsSdk.readLoop at hr
      split_ifs at hr
      · cases hr
        exact h
      · exact ih hr h
    | reset => cases hr; exact h.withState .closed
    | failed => cases hr; exact h

/-- A sender and a receiver with the bytes between them and their history. -/
structure Link where
  sender : Conn := {}
  receiver : Conn := {}
  wire : List UInt8 := []
  queued : List (List UInt8) := []
  handed : List (List UInt8) := []

/-- What can happen on a link. -/
inductive LinkOp where
  | send (mid : Buffer) (inBuf : List UInt8)
  | write (outcomes : List WriteOutcome)
  | read (outcomes : List ReadOutcome)

/-- One call. The bytes that the reads of a call return are those at the front of the wire. -/
def linkStep (recvHandler : List (List UInt8) → LErr) (l : Link) : LinkOp → Option Link
  | .send mid inBuf =>
    some { l with
      sender := defalutSendPkt l.sender mid inBuf
      queued := l.queued ++ [(catToBuffer true mid inBuf).1.content] }
  | .write outcomes =>
    let r := writePacket outcomes l.sender
    some { l with sender := r.conn, wire := l.wire ++ r.bytes }
  | .read outcomes =>
    match readPacket recvHandler outcomes l.receiver l.handed with
    | none => none
    | some r =>
      if r.bytes.isPrefixOf l.wire then
        some { l with
          receiver := r.conn, handed := r.handed, wire := l.wire.drop r.bytes.length }
      else none

namespace Link

/-- A packet that is queued starts from a buffer in order and has a length that is carried. -/
def Carried (_ : Link) : LinkOp → Prop
  | .send mid inBuf => mid.Valid ∧ PacketLength (mid.content ++ inBuf)
  | .write _ => True
  | .read _ => True

instance (l : Link) : (op : LinkOp) → Decidable (l.Carried op)
  | .send _ _ => inferInstanceAs (Decidable (_ ∧ _))
  | .write _ => inferInstanceAs (Decidable True)
  | .read _ => inferInstanceAs (Decidable True)

/-- The link invariant. -/
structure Framed (l : Link) : Prop where
  lengths : ∀ p ∈ l.queued, PacketLength p
  sender : l.sender.SendSound
  inStep : InStep l.queued (l.wire ++ l.sender.pending) l.receiver l.handed
  settled : l.receiver.Settled
  fresh : l.receiver.recvBuffer = none → l.receiver.readingHeader = true

variable {l l' : Link}

theorem framed_start : Framed {} where
  lengths p hp := by simp at hp
  sender := ⟨fun b hb => by simp at hb, fun b hb => by simp at hb⟩
  inStep := ⟨fun b hb => by simp at hb, fun h => by simp at h, [], rfl, by
    simp [Conn.seen, Conn.pending, Conn.unsent, packets]⟩
  settled := .inl ⟨by decide, rfl⟩
  fresh _ := rfl

/-- A packet that is queued comes last of those to be written. -/
theorem Framed.send (h : l.Framed) {mid : Buffer} {inBuf : List UInt8} (hmid : mid.Valid)
    (hlen : PacketLength (mid.content ++ inBuf)) :
    linkStep recvHandler l (.send mid inBuf) = some l' → l'.Framed := by
  rintro ⟨rfl⟩
  obtain ⟨hvalid, -, hcontent⟩ := catToBuffer_spec hmid inBuf
  obtain ⟨rest, hqueued, hseen⟩ := h.inStep.rest
  refine ⟨fun p hp => ?_, ⟨h.sender.current, fun b hb => ?_⟩,
    ⟨h.inStep.valid, h.inStep.expectedLt,
      rest ++ [(catToBuffer true mid inBuf).1.content], by simp [hqueued], ?_⟩, h.settled, h.fresh⟩
  · rcases List.mem_append.mp hp with hp | hp
    · exact h.lengths p hp
    · rw [List.mem_singleton.mp hp, hcontent]
      exact hlen
  · rcases List.mem_append.mp hb with hb | hb
    · exact h.sender.queue b hb
    · rw [List.mem_singleton.mp hb]
      exact hvalid
  · have hpending : (defalutSendPkt l.sender mid inBuf).pending =
        l.sender.pending ++ frames htonl [(catToBuffer true mid inBuf).1.content] := by
      simp only [Conn.pending, Conn.unsent, defalutSendPkt, packets, List.map_append,
        List.map_cons, List.map_nil, frames_append, List.append_assoc]
    rw [hpending, frames_append, ← hseen]
    simp only [List.append_assoc]

theorem Framed.write (h : l.Framed) {outcomes : List WriteOutcome} :
    linkStep recvHandler l (.write outcomes) = some l' → l'.Framed := by
  rintro ⟨rfl⟩
  obtain ⟨hsound, hbytes⟩ := writePacket_spec h.sender outcomes
  obtain ⟨rest, hqueued, hseen⟩ := h.inStep.rest
  refine ⟨h.lengths, hsound, ⟨h.inStep.valid, h.inStep.expectedLt, rest, hqueued, ?_⟩, h.settled,
    h.fresh⟩
  rw [← hseen, ← hbytes]
  simp only [List.append_assoc]

theorem Framed.receptive (h : l.Framed) :
    Receptive l.queued (l.wire ++ l.sender.pending) l.receiver.initRecv l.handed := by
  unfold Conn.initRecv
  cases hb : l.receiver.recvBuffer with
  | some buf => exact ⟨h.inStep, h.settled, by simp [hb]⟩
  | none =>
    obtain ⟨rest, hqueued, hseen⟩ := h.inStep.rest
    refine ⟨⟨?_, fun hheader => absurd hheader (by simp), rest, hqueued, ?_⟩,
      .inl ⟨by simp [initBufferUnptr], rfl⟩, rfl⟩
    · rintro buf ⟨rfl⟩
      exact valid_initBufferUnptr
    · rw [← hseen]
      simp [Conn.seen, hb, h.fresh hb]

theorem Framed.read (h : l.Framed) (hhandler : ∀ ps, recvHandler ps ≠ .ldErrInternal)
    {outcomes : List ReadOutcome} (hs : linkStep recvHandler l (.read outcomes) = some l') :
    l'.Framed := by
  unfold linkStep at hs
  cases hr : readPacket recvHandler outcomes l.receiver l.handed with
  | none => simp [hr] at hs
  | some r =>
    simp only [hr] at hs
    split_ifs at hs with hwire
    obtain rfl := Option.some.inj hs
    obtain ⟨wire, hsplit⟩ := List.isPrefixOf_iff_prefix.mp hwire
    have hrecv := h.receptive
    rw [← hsplit, List.append_assoc] at hrecv
    have hnext := hrecv.readLoop h.lengths hhandler hr
    refine ⟨h.lengths, h.sender, ?_, hnext.settled, fun hnone => ?_⟩
    · simp only [← hsplit, List.drop_left]
      exact hnext.inStep
    · have := hnext.buffered
      simp [show r.conn.recvBuffer = none from hnone] at this

/-- The packets handed up are the first of those that were queued. -/
theorem Framed.handed_prefix (h : l.Framed) : l.handed <+: l.queued := by
  obtain ⟨rest, hqueued, -⟩ := h.inStep.rest
  exact ⟨rest, hqueued.symm⟩

/-- With nothing left to write and nothing on the wire every packet was handed up. -/
theorem Framed.handed_all (h : l.Framed) (hwire : l.wire = []) (hidle : l.sender.pending = []) :
    l.handed = l.queued := by
  obtain ⟨rest, hqueued, hseen⟩ := h.inStep.rest
  rw [hwire, hidle, List.append_nil, List.append_nil] at hseen
  cases rest with
  | nil => simp [hqueued]
  | cons body rest =>
    have hlength := h.inStep.length_buffered
    have hbody := h.lengths body (by simp [hqueued])
    exfalso
    rcases h.settled with ⟨hshort, hheader⟩ | ⟨hshort, hheader⟩
    · have hsize := congrArg List.length hseen
      simp only [Conn.seen, hheader, if_true, List.nil_append, frames_cons, List.length_append,
        length_htonl] at hsize
      omega
    · simp only [Conn.seen, hheader, Bool.false_eq_true, if_false, frames_cons,
        List.append_assoc] at hseen
      obtain ⟨hexpected, hcontent⟩ := List.append_inj hseen rfl
      have hsame : l.receiver.expectedPktLen = body.length := by
        rw [← ntohl_htonl (h.inStep.expectedLt hheader), hexpected, ntohl_htonl hbody.lt]
      have hsize := congrArg List.length hcontent
      have hpos := hbody.1
      simp only [List.length_append] at hsize
      omega

theorem framed_of_reaches (hhandler : ∀ ps, recvHandler ps ≠ .ldErrInternal)
    (h : Reaches (linkStep recvHandler) Carried {} l) : l.Framed := by
  refine h.invariant framed_start ?_
  intro l op l' hl hcarried hs
  cases op with
  | send mid inBuf => exact hl.send hcarried.1 hcarried.2 hs
  | write outcomes => exact hl.write hs
  | read outcomes => exact hl.read hhandler hs

/-- In every run of a link the packets handed to the receive handler are the first of those that
were queued, and all of them once everything is written and read. -/
theorem framing_end_to_end (recvHandler : List (List UInt8) → LErr)
    (hhandler : ∀ ps, recvHandler ps ≠ .ldErrInternal) (l : Link)
    (h : Reaches (linkStep recvHandler) Carried {} l) :
    l.handed <+: l.queued ∧ (l.sender.currentWriteBuffer = none → l.sender.writePkts = [] →
      l.wire = [] → l.handed = l.queued) := by
  have hframed := framed_of_reaches hhandler h
  refine ⟨hframed.handed_prefix, fun hcurrent hqueue hwire => hframed.handed_all hwire ?_⟩
  simp [Conn.pending, Conn.unsent, hcurrent, hqueue, packets]

/-- Two packets, cut by a partial write and by reads inside the header and the bodies. -/
theorem framing_two_packets : ∃ l, Reaches (linkStep fun _ => .ldOk) Carried {} l ∧
    l.queued = [[7, 8], [9]] ∧ l.handed = [[7, 8], [9]] ∧ l.handed <+: l.queued := by
  obtain ⟨l, hl, hqueued, hhanded⟩ : ∃ l, runOps (linkStep fun _ => .ldOk) Carried {}
      [.send initBufferUnptr [7, 8], .send initBufferUnptr [9], .write [.room 3],
        .write [.interrupted, .room 9, .room 9],
        .read [.got [0, 0], .got [0, 2, 7], .got [8, 0, 0, 0, 1], .got [9], .again]] = some l ∧
      l.queued = [[7, 8], [9]] ∧ l.handed = [[7, 8], [9]] := ⟨_, rfl, rfl, rfl⟩
  have hrun := reaches_of_runOps _ hl
  exact ⟨l, hrun, hqueued, hhanded, (framing_end_to_end _ (fun _ => by decide) l hrun).1⟩

end Link

end LdacsSdk
