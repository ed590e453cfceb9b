import LdacsSdk.Library.Framing
import LdacsSdk.Library.Loops
import LdacsSdk.Net.Connection

/-!
# Receiving

`read_packet` appends what it reads to the receive buffer, and `process_complete_packets` takes
headers and bodies off its front as long as it holds a whole one. On a stream of frames that is
what is left of the stream at every point, however the stream was cut.
-/
namespace LdacsSdk

open Library

/-- A connection in the middle of `process_complete_packets`, with all the packets its handler
was given so far and what was fatal; the function returns `ERROR` where something was. -/
structure Receiving where
  conn : Conn
  handed : List (List UInt8)
  fatal : Option Fatal := none
  deriving DecidableEq, Repr

/-- The header of the packet at the front of the buffer has been read. -/
def Receiving.readHeader (s : Receiving) (buf : Buffer) : Round Receiving :=
  let expected := ntohl buf.content
  let conn := { s.conn with expectedPktLen := expected }
  if expected = 0 then
    .again { s with conn := { conn with recvBuffer := some (removeFromBufferFront buf 4) } }
  else if expected > maxInputBufferSize then .leave { s with conn := conn, fatal := some .framing }
  else
    .again { s with
      conn := { conn with
        recvBuffer := some (removeFromBufferFront buf 4), readingHeader := false } }

/-- The body of the packet at the front of the buffer is complete. The answer of `recv_handler`
may depend on everything that it has been given. -/
def Receiving.readBody (recvHandler : List (List UInt8) → LErr) (s : Receiving) (buf : Buffer) :
    Round Receiving :=
  let readPkt := cloneToChunk (buf.content.take s.conn.expectedPktLen)
  let handed := s.handed ++ [readPkt.content]
  if recvHandler handed = .ldErrInternal then
    .leave { conn := { s.conn with readPkt := none }, handed := handed, fatal := some .handler }
  else
    .again { s with
      conn := { s.conn with
        readPkt := none
        recvBuffer := some (removeFromBufferFront buf s.conn.expectedPktLen)
        readingHeader := true
        expectedPktLen := 0 }
      handed := handed }

/-- One round of the loop of `process_complete_packets`. -/
def processRound (recvHandler : List (List UInt8) → LErr) (s : Receiving) :
    Option (Round Receiving) :=
  match s.conn.recvBuffer with
  | none => some (.leave s)
  | some buf =>
    if buf.len > 0 then
      if s.conn.readingHeader then
        if buf.len < 4 then some (.leave s) else some (s.readHeader buf)
      else if buf.len < s.conn.expectedPktLen then some (.leave s)
      else some (s.readBody recvHandler buf)
    else some (.leave s)

/-- Every round takes bytes off the buffer or, for an empty body, returns to the header. -/
def Receiving.left (s : Receiving) : ℕ :=
  2 * s.conn.recvBuffer.elim 0 Buffer.len + if s.conn.readingHeader then 0 else 1

/-- `process_complete_packets`. -/
def processCompletePackets (recvHandler : List (List UInt8) → LErr) (s : Receiving) :
    Option Receiving :=
  whileLoop (processRound recvHandler) (s.left + 1) s

/-- What a `read_packet` leads to: the connection, all the packets handed up so far, the bytes
read, the status, or none where the call stands in front of its next `read`, and what was
fatal. -/
structure Received where
  conn : Conn
  handed : List (List UInt8)
  bytes : List UInt8
  status : Option NetStatus
  fatal : Option Fatal := none
  deriving DecidableEq, Repr

/-- Bytes just read are appended to the receive buffer. -/
def Conn.append (c : Conn) (bytes : List UInt8) : Conn :=
  { c with recvBuffer := c.recvBuffer.map fun buf => (catToBuffer true buf bytes).1 }

/-- The loop of `read_packet`. -/
def readLoop (recvHandler : List (List UInt8) → LErr) :
    List ReadOutcome → Bool → Conn → List (List UInt8) → Option Received
  | [], _, c, handed => some ⟨c, handed, [], none, none⟩
  | .got bytes :: outcomes, _, c, handed =>
    if bytes = [] then
      some ⟨{ c with state := .closed }, handed, [], some .error, some .endOfStream⟩
    else
      match processCompletePackets recvHandler ⟨c.append bytes, handed, none⟩ with
      | none => none
      | some s =>
        if s.fatal.isSome then some ⟨s.conn, s.handed, bytes, some .error, s.fatal⟩
        else
          (readLoop recvHandler outcomes true s.conn s.handed).map fun r =>
            { r with bytes := bytes ++ r.bytes }
  | .again :: _, _, c, handed => some ⟨c, handed, [], some .ok, none⟩
  | .interrupted :: outcomes, hasReadAny, c, handed =>
    if hasReadAny then some ⟨c, handed, [], some .ok, none⟩
    else readLoop recvHandler outcomes hasReadAny c handed
  | .reset :: _, _, c, handed =>
    some ⟨{ c with state := .closed }, handed, [], some .error, some .readError⟩
  | .failed :: _, _, c, handed => some ⟨c, handed, [], some .error, some .readError⟩

/-- The receive buffer is set up by the first call. -/
def Conn.initRecv (c : Conn) : Conn :=
  match c.recvBuffer with
  | some _ => c
  | none =>
    { c with recvBuffer := some initBufferUnptr, readingHeader := true, expectedPktLen := 0 }

/-- `read_packet`. -/
def readPacket (recvHandler : List (List UInt8) → LErr) (outcomes : List ReadOutcome) (c : Conn)
    (handed : List (List UInt8)) : Option Received :=
  readLoop recvHandler outcomes false c.initRecv handed

/-- The buffer holds neither a whole header nor, behind one, a whole body. -/
def Conn.Settled (c : Conn) : Prop :=
  c.recvBuffer.elim 0 Buffer.len < 4 ∧ c.readingHeader = true ∨
    c.recvBuffer.elim 0 Buffer.len < max 1 c.expectedPktLen ∧ c.readingHeader = false

/-- What a round can do: leave a settled buffer alone, read a header, or read a body. -/
theorem processRound_cases (recvHandler : List (List UInt8) → LErr) (s : Receiving) :
    (s.conn.Settled ∧ processRound recvHandler s = some (.leave s)) ∨
      ∃ buf, s.conn.recvBuffer = some buf ∧
        ((s.conn.readingHeader = true ∧ 4 ≤ buf.len ∧
            processRound recvHandler s = some (s.readHeader buf)) ∨
          (s.conn.readingHeader = false ∧ s.conn.expectedPktLen ≤ buf.len ∧
            processRound recvHandler s = some (s.readBody recvHandler buf))) := by
  unfold processRound Conn.Settled
  cases hb : s.conn.recvBuffer with
  | none => cases s.conn.readingHeader <;> simp
  | some buf =>
    simp only [Option.elim_some]
    split_ifs with hpos hheader hshort hshort
    · exact .inl ⟨.inl ⟨hshort, hheader⟩, rfl⟩
    · exact .inr ⟨buf, rfl, .inl ⟨hheader, by omega, rfl⟩⟩
    · exact .inl ⟨.inr ⟨by omega, by simpa using hheader⟩, rfl⟩
    · exact .inr ⟨buf, rfl, .inr ⟨by simpa using hheader, by omega, rfl⟩⟩
    · refine .inl ⟨?_, rfl⟩
      cases s.conn.readingHeader <;> simp <;> omega

theorem removeFromBufferFront_len (buf : Buffer) (count : ℕ) :
    (removeFromBufferFront buf count).len = buf.len - count := by
  unfold removeFromBufferFront
  split_ifs with hzero hall
  · omega
  · simp only
    omega
  · rfl

theorem Receiving.readHeader_left {s s' : Receiving} {buf : Buffer}
    (hb : s.conn.recvBuffer = some buf) (hlen : 4 ≤ buf.len)
    (h : s.readHeader buf = .again s') : s'.left < s.left := by
  have hlen' := removeFromBufferFront_len buf 4
  unfold Receiving.readHeader at h
  dsimp only at h
  split_ifs at h
  all_goals
    cases h
    simp only [Receiving.left, hb, Option.elim_some]
    split_ifs <;> omega

theorem Receiving.readBody_left {recvHandler : List (List UInt8) → LErr} {s s' : Receiving}
    {buf : Buffer} (hb : s.conn.recvBuffer = some buf) (hbody : s.conn.readingHeader = false)
    (h : s.readBody recvHandler buf = .again s') : s'.left < s.left := by
  have hlen := removeFromBufferFront_len buf s.conn.expectedPktLen
  unfold Receiving.readBody at h
  dsimp only at h
  split_ifs at h
  cases h
  simp only [Receiving.left, hb, hbody, Option.elim_some, Bool.false_eq_true, if_true, if_false]
  omega

theorem processRound_left {recvHandler : List (List UInt8) → LErr} {s s' : Receiving}
    (h : processRound recvHandler s = some (.again s')) : s'.left < s.left := by
  rcases processRound_cases recvHandler s with
    ⟨-, hleave⟩ | ⟨buf, hb, ⟨-, hlen, hround⟩ | ⟨hbody, -, hround⟩⟩
  · rw [hleave] at h
    cases h
  · rw [hround, Option.some.injEq] at h
    exact Receiving.readHeader_left hb hlen h
  · rw [hround, Option.some.injEq] at h
    exact Receiving.readBody_left hb hbody h

theorem processCompletePackets_returns (recvHandler : List (List UInt8) → LErr) (s : Receiving) :
    ∃ s', processCompletePackets recvHandler s = some s' := by
  refine whileLoop_isSome (I := fun _ => True) Receiving.left (fun u _ => ?_) trivial
    (Nat.lt_succ_self _)
  obtain ⟨out, hout⟩ : ∃ out, processRound recvHandler u = some out := by
    unfold processRound
    split
    · exact ⟨_, rfl⟩
    · split_ifs <;> exact ⟨_, rfl⟩
  exact ⟨out, hout, fun u' he => ⟨trivial, processRound_left (hout.trans (congrArg some he))⟩⟩

/-- `read_packet` comes to an end of its outcomes or returns before. -/
theorem readLoop_returns (recvHandler : List (List UInt8) → LErr) (outcomes : List ReadOutcome)
    (hasReadAny : Bool) (c : Conn) (handed : List (List UInt8)) :
    ∃ r, readLoop recvHandler outcomes hasReadAny c handed = some r := by
  induction outcomes generalizing hasReadAny c handed with
  | nil => exact ⟨_, rfl⟩
  | cons o outcomes ih =>
    cases o with
    | got bytes =>
      unfold readLoop
      split_ifs
      · exact ⟨_, rfl⟩
      · obtain ⟨s, hs⟩ := processCompletePackets_returns recvHandler ⟨c.append bytes, handed, none⟩
        rw [hs]
        dsimp only
        split_ifs
        · exact ⟨_, rfl⟩
        · obtain ⟨r, hr⟩ := ih true s.conn s.handed
          exact ⟨_, congrArg (Option.map _) hr⟩
    | again => exact ⟨_, rfl⟩
    | interrupted =>
      unfold readLoop
      split_ifs
      · exact ⟨_, rfl⟩
      · exact ih hasReadAny c handed
    | reset => exact ⟨_, rfl⟩
    | failed => exact ⟨_, rfl⟩

/-- The connection without its receiving side. -/
def Conn.sendSide (c : Conn) : Conn :=
  { c with recvBuffer := none, readingHeader := true, expectedPktLen := 0, readPkt := none }

theorem fields_of_sendSide {c c' : Conn} (h : c'.sendSide = c.sendSide) :
    c'.isOpen = c.isOpen ∧ c'.state = c.state ∧ c'.writePkts = c.writePkts ∧
      c'.currentWriteBuffer = c.currentWriteBuffer ∧
        c'.currentWriteOffset = c.currentWriteOffset ∧ c'.armedOut = c.armedOut := by
  simp only [Conn.sendSide, Conn.mk.injEq, true_and] at h
  tauto

theorem processRound_sendSide {recvHandler : List (List UInt8) → LErr} {s s' : Receiving}
    (h : processRound recvHandler s = some (.again s') ∨
      processRound recvHandler s = some (.leave s')) : s'.conn.sendSide = s.conn.sendSide := by
  rcases processRound_cases recvHandler s with
    ⟨-, hround⟩ | ⟨buf, hb, ⟨-, -, hround⟩ | ⟨-, -, hround⟩⟩ <;>
    simp only [hround, Option.some.injEq] at h
  · rcases h with h | h <;> cases h
    rfl
  · unfold Receiving.readHeader at h
    dsimp only at h
    split_ifs at h <;> rcases h with h | h <;> cases h <;> rfl
  · unfold Receiving.readBody at h
    dsimp only at h
    split_ifs at h <;> rcases h with h | h <;> cases h <;> rfl

theorem processCompletePackets_sendSide {recvHandler : List (List UInt8) → LErr}
    {s s' : Receiving} (h : processCompletePackets recvHandler s = some s') :
    s'.conn.sendSide = s.conn.sendSide :=
  whileLoop_invariant (I := fun u => u.conn.sendSide = s.conn.sendSide)
    (Q := fun u => u.conn.sendSide = s.conn.sendSide)
    (fun _ _ hu hround => (processRound_sendSide (.inl hround)).trans hu)
    (fun _ _ hu hround => (processRound_sendSide (.inr hround)).trans hu) rfl h

/-- How a call of `read_packet` ends: never with `AGAIN`, without `ERROR` the sending side is as
before, and with `ERROR` something was fatal. -/
structure Received.Ended (c : Conn) (r : Received) : Prop where
  answer : r.status ≠ some .again
  sendSide : r.status ≠ some .error → r.conn.sendSide = c.sendSide
  fatal : r.fatal.isSome ↔ r.status = some .error

theorem readLoop_ended {recvHandler : List (List UInt8) → LErr} {outcomes : List ReadOutcome}
    {hasReadAny : Bool} {c : Conn} {handed : List (List UInt8)} {r : Received}
    (h : readLoop recvHandler outcomes hasReadAny c handed = some r) : r.Ended c := by
  induction outcomes generalizing hasReadAny c handed r with
  | nil => cases h; exact ⟨by simp, fun _ => rfl, by simp⟩
  | cons o outcomes ih =>
    cases o with
    | got bytes =>
      unfold readLoop at h
      split_ifs at h
      · cases h
        exact ⟨by simp, fun hne => absurd rfl hne, by simp⟩
      · obtain ⟨t, ht⟩ := processCompletePackets_returns recvHandler ⟨c.append bytes, handed, none⟩
        rw [ht] at h
        dsimp only at h
        split_ifs at h with hfatal
        · cases h
          exact ⟨by simp, fun hne => absurd rfl hne, by simpa using hfatal⟩
        · obtain ⟨r', hr', rfl⟩ := Option.map_eq_some_iff.mp h
          have hrest := ih hr'
          exact ⟨hrest.answer,
            fun hne => (hrest.sendSide hne).trans (processCompletePackets_sendSide ht),
            hrest.fatal⟩
    | again => cases h; exact ⟨by simp, fun _ => rfl, by simp⟩
    | interrupted =>
      unfold readLoop at h
      split_ifs at h
      · cases h
        exact ⟨by simp, fun _ => rfl, by simp⟩
      · exact ih h
    | reset => cases h; exact ⟨by simp, fun hne => absurd rfl hne, by simp⟩
    | failed => cases h; exact ⟨by simp, fun hne => absurd rfl hne, by simp⟩

theorem sendSide_initRecv (c : Conn) : c.initRecv.sendSide = c.sendSide := by
  unfold Conn.initRecv
  split <;> rfl

end LdacsSdk
