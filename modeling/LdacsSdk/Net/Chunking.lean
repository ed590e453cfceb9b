import LdacsSdk.Library.Feeding
import LdacsSdk.Net.Receiving

/-!
# Parsing in chunks

What `process_complete_packets` does depends on the mode, the expected length and the bytes in the
receive buffer, not on how the buffer is allocated. Its rounds read from the front of those bytes
only, so on any stream, in order or not, it gets as far chunk by chunk as on all of it at once.
-/
namespace LdacsSdk

open Library

/-- What parsing a stream depends on, and what came of it. -/
structure Parse where
  readingHeader : Bool
  expectedPktLen : ℕ
  buffered : List UInt8
  handed : List (List UInt8)
  fatal : Option Fatal
  deriving DecidableEq, Repr

namespace Parse

/-- One step of parsing: nothing, when neither a whole header nor a whole body is there. -/
def round (p : Parse) : Option (Round Parse) :=
  if p.fatal.isSome ∨ p.buffered = [] then some (.leave p)
  else if p.readingHeader then
    if p.buffered.length < 4 then some (.leave p)
    else if ntohl p.buffered = 0 then
      some (.again { p with expectedPktLen := 0, buffered := p.buffered.drop 4 })
    else if ntohl p.buffered > maxInputBufferSize then
      some (.leave { p with expectedPktLen := ntohl p.buffered, fatal := some .framing })
    else
      some (.again { p with
        readingHeader := false
        expectedPktLen := ntohl p.buffered
        buffered := p.buffered.drop 4 })
  else if p.buffered.length < p.expectedPktLen then some (.leave p)
  else
    some (.again { p with
      readingHeader := true
      expectedPktLen := 0
      buffered := p.buffered.drop p.expectedPktLen
      handed := p.handed ++ [p.buffered.take p.expectedPktLen] })

/-- Further bytes arrive. -/
def push (p : Parse) (bytes : List UInt8) : Parse := { p with buffered := p.buffered ++ bytes }

/-- What has come to an end: the packets handed up and what was fatal. -/
def ended (p : Parse) : Option (List (List UInt8) × Fatal) := p.fatal.map fun f => (p.handed, f)

end Parse

/-- A receiving connection without the allocation of its buffer. -/
def Receiving.parse (s : Receiving) : Parse where
  readingHeader := s.conn.readingHeader
  expectedPktLen := s.conn.expectedPktLen
  buffered := s.conn.recvBuffer.elim [] Buffer.content
  handed := s.handed
  fatal := s.fatal

/-- Every chunk is appended to the receive buffer and `process_complete_packets` run after it; an
`ERROR` ends the reading. -/
def processChunks (recvHandler : List (List UInt8) → LErr) :
    List (List UInt8) → Receiving → Option Receiving
  | [], s => some s
  | chunk :: chunks, s =>
    match processCompletePackets recvHandler { s with conn := s.conn.append chunk } with
    | none => none
    | some t => if t.fatal.isSome then some t else processChunks recvHandler chunks t

/-- `read_packet` is this on the chunks that its reads return. -/
theorem readLoop_chunks (recvHandler : List (List UInt8) → LErr) {chunks : List (List UInt8)}
    (hchunks : ∀ chunk ∈ chunks, chunk ≠ []) (hasReadAny : Bool) (c : Conn)
    (handed : List (List UInt8)) {r : Received}
    (hr : readLoop recvHandler (chunks.map .got ++ [.again]) hasReadAny c handed = some r) :
    processChunks recvHandler chunks ⟨c, handed, none⟩ = some ⟨r.conn, r.handed, r.fatal⟩ := by
  induction chunks generalizing hasReadAny c handed r with
  | nil =>
    cases hr
    rfl
  | cons chunk chunks ih =>
    have hchunk : chunk ≠ [] := hchunks chunk (by simp)
    simp only [List.map_cons, List.cons_append, readLoop, if_neg hchunk] at hr
    cases ht : processCompletePackets recvHandler { conn := c.append chunk, handed } with
    | none =>
      rw [ht] at hr
      cases hr
    | some t =>
      simp only [ht] at hr
      simp only [processChunks, ht]
      split_ifs at hr ⊢ with hfatal
      · cases hr
        rfl
      · obtain ⟨r', hr', rfl⟩ := Option.map_eq_some_iff.mp hr
        have hnone : t.fatal = none := by simpa using hfatal
        have hrest := ih (fun c hc => hchunks c (by simp [hc])) true t.conn t.handed hr'
        rwa [← hnone] at hrest

theorem ntohl_append {bytes : List UInt8} (h : 4 ≤ bytes.length) (more : List UInt8) :
    ntohl (bytes ++ more) = ntohl bytes := by
  rw [← ntohl_take, List.take_append_of_le_length h, ntohl_take]

/-- Bytes behind the buffer do not stop a parse that is going. -/
theorem Parse.going_push {p : Parse} (ys : List UInt8)
    (h : ¬(p.fatal.isSome ∨ p.buffered = [])) :
    ¬((p.push ys).fatal.isSome ∨ (p.push ys).buffered = []) := fun hpush =>
  h (hpush.imp_right fun hnil => (List.append_eq_nil_iff.mp hnil).1)

/-- A round that goes on goes on in front of further bytes. -/
theorem Parse.round_push {p p' : Parse} (ys : List UInt8) (h : p.round = some (.again p')) :
    (p.push ys).round = some (.again (p'.push ys)) := by
  unfold Parse.round at h
  split_ifs at h with hstop hheader hshort hzero hlarge hbody
  all_goals cases h
  · have hlen : 4 ≤ p.buffered.length := Nat.not_lt.mp hshort
    rw [Parse.round, if_neg (Parse.going_push ys hstop)]
    simp [Parse.push, hheader, ntohl_append hlen, hzero, List.drop_append_of_le_length hlen]
    omega
  · have hlen : 4 ≤ p.buffered.length := Nat.not_lt.mp hshort
    rw [Parse.round, if_neg (Parse.going_push ys hstop)]
    simp [Parse.push, hheader, ntohl_append hlen, hzero, hlarge,
      List.drop_append_of_le_length hlen]
    omega
  · have hlen : p.expectedPktLen ≤ p.buffered.length := Nat.not_lt.mp hbody
    rw [Parse.round, if_neg (Parse.going_push ys hstop)]
    simp [Parse.push, hheader, List.drop_append_of_le_length hlen,
      List.take_append_of_le_length hlen]
    omega

/-- A round that leaves waits for more bytes, or something was fatal whatever follows. -/
theorem Parse.round_leave {p t : Parse} (h : p.round = some (.leave t)) :
    t = p ∧ t.ended = none ∨ ∃ r, t.ended = some r ∧
      ∀ ys, ∃ t', (p.push ys).round = some (.leave t') ∧ t'.ended = some r := by
  have hwaits (hstop : ¬(p.fatal.isSome ∨ p.buffered = [])) : p.ended = none := by
    have hnone : p.fatal = none := by simpa using (not_or.mp hstop).1
    simp [Parse.ended, hnone]
  unfold Parse.round at h
  split_ifs at h with hstop hheader hshort hzero hlarge hbody
  all_goals cases h
  · cases hfatal : p.fatal with
    | none => exact .inl ⟨rfl, by simp [Parse.ended, hfatal]⟩
    | some f =>
      refine .inr ⟨(p.handed, f), by simp [Parse.ended, hfatal], fun ys => ⟨p.push ys, ?_, ?_⟩⟩
      · simp [Parse.round, Parse.push, hfatal]
      · simp [Parse.ended, Parse.push, hfatal]
  · exact .inl ⟨rfl, hwaits hstop⟩
  · refine .inr ⟨(p.handed, .framing), rfl, fun ys => ?_⟩
    have hlen : 4 ≤ p.buffered.length := Nat.not_lt.mp hshort
    refine ⟨{ p.push ys with expectedPktLen := ntohl p.buffered, fatal := some .framing }, ?_, rfl⟩
    rw [Parse.round, if_neg (Parse.going_push ys hstop)]
    simp [Parse.push, hheader, ntohl_append hlen, hzero, hlarge]
    omega
  · exact .inl ⟨rfl, hwaits hstop⟩

/-- Parsing reads from the front. -/
theorem parse_feeds : Feeds Parse.round Parse.push Parse.ended where
  push_nil p := by simp [Parse.push]
  push_append p xs ys := by simp [Parse.push]
  again p p' ys h := Parse.round_push ys h
  leave p t h := Parse.round_leave h

/-! ### The code's loop -/

/-- The receive buffer is there and in order, and nothing was fatal. -/
def Receiving.Ready (s : Receiving) : Prop :=
  s.fatal = none ∧ ∃ buf, s.conn.recvBuffer = some buf ∧ buf.Valid

theorem Receiving.parse_of_buffer {s : Receiving} {buf : Buffer}
    (hb : s.conn.recvBuffer = some buf) : s.parse =
      ⟨s.conn.readingHeader, s.conn.expectedPktLen, buf.content, s.handed, s.fatal⟩ := by
  simp [Receiving.parse, hb]

theorem readHeader_parse {s : Receiving} {buf : Buffer} (hfatal : s.fatal = none)
    (hb : s.conn.recvBuffer = some buf) (hvalid : buf.Valid) (hheader : s.conn.readingHeader = true)
    (hlen : 4 ≤ buf.len) : s.parse.round = some ((s.readHeader buf).map Receiving.parse) := by
  have hlong : ¬buf.content.length < 4 := by
    rw [hvalid.length_content]
    omega
  have hne := hvalid.content_ne_nil (by omega)
  rw [Receiving.parse_of_buffer hb, Parse.round]
  unfold Receiving.readHeader
  simp only [hfatal, hheader, hne, hlong, Option.isSome_none, Bool.false_eq_true, or_self, if_true,
    if_false]
  split_ifs with hzero hlarge
  · simp [Round.map, Receiving.parse, hzero, content_removeFromBufferFront hvalid]
  · simp [Round.map, Receiving.parse, hb]
  · simp [Round.map, Receiving.parse, content_removeFromBufferFront hvalid]

theorem readBody_parse {s : Receiving} {buf : Buffer} (hfatal : s.fatal = none)
    (hb : s.conn.recvBuffer = some buf) (hvalid : buf.Valid)
    (hbody : s.conn.readingHeader = false) (hpos : 0 < buf.len)
    (hlen : s.conn.expectedPktLen ≤ buf.len) :
    s.parse.round = some ((s.readBody (fun _ => .ldOk) buf).map Receiving.parse) := by
  have hlong : ¬buf.content.length < s.conn.expectedPktLen := by
    rw [hvalid.length_content]
    omega
  have hne := hvalid.content_ne_nil (by omega)
  rw [Receiving.parse_of_buffer hb, Parse.round]
  unfold Receiving.readBody
  simp [hfatal, hbody, hne, hlong, Round.map, Receiving.parse,
    content_removeFromBufferFront hvalid]

/-- A round of the code is a round of the parse. -/
theorem processRound_parse {s : Receiving} {r : Round Receiving} (h : s.Ready)
    (hround : processRound (fun _ => .ldOk) s = some r) :
    s.parse.round = some (r.map Receiving.parse) := by
  obtain ⟨hfatal, buf, hb, hvalid⟩ := h
  have hlen := hvalid.length_content
  unfold processRound at hround
  rw [hb] at hround
  dsimp only at hround
  split_ifs at hround with hpos hheader hshort hshort
  all_goals cases hround
  · have hne := hvalid.content_ne_nil hpos
    simp [Receiving.parse_of_buffer hb, Parse.round, Round.map, hfatal, hheader, hlen, hshort, hne]
  · exact readHeader_parse hfatal hb hvalid hheader (Nat.not_lt.mp hshort)
  · have hne := hvalid.content_ne_nil hpos
    simp [Receiving.parse_of_buffer hb, Parse.round, Round.map, hfatal, hheader, hlen, hshort, hne]
  · exact readBody_parse hfatal hb hvalid (by simpa using hheader) hpos (Nat.not_lt.mp hshort)
  · have hnil : buf.content = [] := List.eq_nil_of_length_eq_zero (by omega)
    simp [Receiving.parse_of_buffer hb, Parse.round, Round.map, hnil]

theorem Receiving.Ready.again {s s' : Receiving} (h : s.Ready)
    (hround : processRound (fun _ => .ldOk) s = some (.again s')) : s'.Ready := by
  obtain ⟨hfatal, buf, hb, hvalid⟩ := h
  rcases processRound_cases (fun _ => .ldOk) s with
    ⟨-, hleave⟩ | ⟨buf', hb', ⟨-, -, hgo⟩ | ⟨-, -, hgo⟩⟩
  · rw [hleave] at hround
    cases hround
  · obtain rfl : buf = buf' := Option.some.inj (hb.symm.trans hb')
    rw [hgo, Option.some.injEq, Receiving.readHeader] at hround
    dsimp only at hround
    split_ifs at hround
    all_goals
      cases hround
      exact ⟨hfatal, _, rfl, valid_removeFromBufferFront hvalid 4⟩
  · obtain rfl : buf = buf' := Option.some.inj (hb.symm.trans hb')
    rw [hgo, Option.some.injEq, Receiving.readBody] at hround
    dsimp only at hround
    rw [if_neg (by decide)] at hround
    cases hround
    exact ⟨hfatal, _, rfl, valid_removeFromBufferFront hvalid _⟩

/-- Leaving the loop without anything fatal leaves the connection as it is. -/
theorem processRound_leave {s t : Receiving}
    (h : processRound (fun _ => .ldOk) s = some (.leave t)) (hfatal : t.fatal = none) : t = s := by
  rcases processRound_cases (fun _ => .ldOk) s with
    ⟨-, hleave⟩ | ⟨buf, -, ⟨-, -, hgo⟩ | ⟨-, -, hgo⟩⟩
  · rw [hleave] at h
    cases h
    rfl
  · rw [hgo, Option.some.injEq, Receiving.readHeader] at h
    dsimp only at h
    split_ifs at h
    cases h
    cases hfatal
  · rw [hgo, Option.some.injEq, Receiving.readBody] at h
    dsimp only at h
    rw [if_neg (by decide)] at h
    cases h

/-- A run of `process_complete_packets` is a run of the parse, and leaves a connection that is ready
for more unless something was fatal. -/
theorem Receiving.Ready.process {s : Receiving} (h : s.Ready) :
    ∃ t, processCompletePackets (fun _ => .ldOk) s = some t ∧
      LeavesWith Parse.round s.parse t.parse ∧ (t.fatal = none → t.Ready) := by
  obtain ⟨t, ht⟩ := processCompletePackets_returns (fun _ => .ldOk) s
  refine ⟨t, ht, whileLoop_view Receiving.parse (fun _ _ hu hround => processRound_parse hu hround)
    (fun _ _ hu hround => hu.again hround) h ht, ?_⟩
  apply whileLoop_invariant (I := Receiving.Ready) (Q := fun t => t.fatal = none → t.Ready)
    (fun _ _ hu hround => hu.again hround) _ h ht
  intro u u' hu hround hfatal
  rw [processRound_leave hround hfatal]
  exact hu

theorem Receiving.Ready.append {s : Receiving} (h : s.Ready) (chunk : List UInt8) :
    Receiving.Ready { s with conn := s.conn.append chunk } ∧
      Receiving.parse { s with conn := s.conn.append chunk } = s.parse.push chunk := by
  obtain ⟨hfatal, buf, hb, hvalid⟩ := h
  obtain ⟨hvalid', -, hcontent⟩ := catToBuffer_spec hvalid chunk
  constructor
  · exact ⟨hfatal, _, by rw [Conn.append, hb]; rfl, hvalid'⟩
  · simp [Receiving.parse, Parse.push, Conn.append, hb, hcontent]

/-- Reading in chunks feeds the parse piece by piece. -/
theorem Receiving.Ready.chunks {s : Receiving} (h : s.Ready) (chunks : List (List UInt8)) :
    ∃ t, processChunks (fun _ => .ldOk) chunks s = some t ∧
      FedPieces Parse.round Parse.push Parse.ended s.parse chunks t.parse := by
  induction chunks generalizing s with
  | nil => exact ⟨s, rfl, .done _⟩
  | cons chunk chunks ih =>
    obtain ⟨hready, hpush⟩ := h.append chunk
    obtain ⟨t, ht, hleaves, hnext⟩ := hready.process
    rw [hpush] at hleaves
    cases hfatal : t.fatal with
    | some f =>
      refine ⟨t, by simp [processChunks, ht, hfatal], .ended hleaves (r := (t.handed, f)) ?_⟩
      simp [Parse.ended, Receiving.parse, hfatal]
    | none =>
      obtain ⟨u, hu, hfed⟩ := ih (hnext hfatal)
      refine ⟨u, by simp [processChunks, ht, hfatal, hu], .next hleaves ?_ hfed⟩
      simp [Parse.ended, Receiving.parse, hfatal]

/-- A connection at its first `read_packet`. -/
def Conn.firstRead (c : Conn) : Receiving := ⟨{ c with recvBuffer := none }.initRecv, [], none⟩

theorem firstRead_ready (c : Conn) : c.firstRead.Ready :=
  ⟨rfl, initBufferUnptr, rfl, valid_initBufferUnptr⟩

/-- The same packets were handed up, the same was fatal, and, when nothing was, the parser is in
the same mode with the same bytes left. -/
structure SameOutcome (s t : Receiving) : Prop where
  handed : s.handed = t.handed
  fatal : s.fatal = t.fatal
  mode : s.fatal = none → s.conn.readingHeader = t.conn.readingHeader ∧
    s.conn.expectedPktLen = t.conn.expectedPktLen
  leftover : s.fatal = none →
    s.conn.recvBuffer.elim [] Buffer.content = t.conn.recvBuffer.elim [] Buffer.content

theorem sameOutcome_of_ended {s t : Receiving} (hended : t.parse.ended = s.parse.ended)
    (hsame : s.parse.ended = none → t.parse = s.parse) : SameOutcome s t := by
  cases hs : s.fatal with
  | none =>
    have hparse := hsame (by simp [Parse.ended, Receiving.parse, hs])
    exact ⟨(congrArg Parse.handed hparse).symm, (congrArg Parse.fatal hparse).symm,
      fun _ => ⟨(congrArg Parse.readingHeader hparse).symm,
        (congrArg Parse.expectedPktLen hparse).symm⟩,
      fun _ => (congrArg Parse.buffered hparse).symm⟩
  | some f =>
    have hend : t.parse.ended = some (s.handed, f) := by
      rw [hended]
      simp [Parse.ended, Receiving.parse, hs]
    obtain ⟨f', hf', heq⟩ := Option.map_eq_some_iff.mp hend
    obtain ⟨hhanded, rfl⟩ := Prod.mk.inj heq
    exact ⟨hhanded.symm, hs.trans hf'.symm, fun hnone => by simp [hs] at hnone,
      fun hnone => by simp [hs] at hnone⟩

/-- **Parsing in chunks is parsing at once.** However a stream of bytes, in order or not, is cut
into chunks, reading them one after another returns and has the outcome of reading them at once. -/
theorem parsing_in_chunks (c : Conn) (chunks : List (List UInt8)) :
    ∃ s t, processChunks (fun _ => .ldOk) chunks c.firstRead = some s ∧
      processCompletePackets (fun _ => .ldOk)
        { c.firstRead with conn := c.firstRead.conn.append chunks.flatten } = some t ∧
      SameOutcome s t := by
  obtain ⟨s, hs, hfed⟩ := (firstRead_ready c).chunks chunks
  obtain ⟨hready, hpush⟩ := (firstRead_ready c).append chunks.flatten
  obtain ⟨t, ht, hleaves, -⟩ := hready.process
  rw [hpush] at hleaves
  have hstart : c.firstRead.parse.round = some (.leave c.firstRead.parse) := rfl
  obtain ⟨hended, hsame⟩ := parse_feeds.pieces_eq_whole hstart hfed hleaves
  exact ⟨s, t, hs, ht, sameOutcome_of_ended hended hsame⟩

end LdacsSdk
