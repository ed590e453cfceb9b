import LdacsSdk.Library.Framing
import LdacsSdk.Net.Connection

/-!
# Sending

`defalut_send_pkt` queues a packet, and `write_packet` puts the packets of the queue one by one
behind their length header and writes them out, as far as the socket takes them. Whatever the
outcomes of its writes are, the bytes written and the bytes still to be written are together
the bytes that were to be written before.
-/
namespace LdacsSdk

open Library

/-- `defalut_send_pkt`; `mid` is the fresh buffer as `mid_func` leaves it. -/
def defalutSendPkt (c : Conn) (mid : Buffer) (inBuf : List UInt8) : Conn :=
  { c with
    writePkts := c.writePkts ++ [(catToBuffer true mid inBuf).1]
    armedOut := c.armedOut || (c.isOpen && c.currentWriteBuffer.isNone) }

/-- The packet behind its length header. -/
def withHeader (b : Buffer) : Buffer :=
  (catToBuffer true (catToBuffer true initBufferUnptr (htonl b.len)).1 b.content).1

/-- What a call or a part of it leads to: the connection, the bytes written, the status it ends
with, or none where it goes on, and what was fatal, which the code does not keep. -/
structure Sent where
  conn : Conn
  bytes : List UInt8
  status : Option NetStatus
  fatal : Option Fatal := none
  deriving DecidableEq, Repr

namespace Conn

/-- How much of the current buffer is left. -/
def remaining (c : Conn) : ℕ := (c.currentWriteBuffer.elim 0 Buffer.len) - c.currentWriteOffset

/-- The bytes of the current buffer that are left. -/
def unsent (c : Conn) : List UInt8 :=
  (c.currentWriteBuffer.elim [] Buffer.content).drop c.currentWriteOffset

/-- The connection with something to write: the current buffer, or else the next packet. -/
def load (c : Conn) : Option Conn :=
  match c.currentWriteBuffer with
  | some _ => some c
  | none =>
    match c.writePkts with
    | [] => none
    | b :: rest =>
      some { c with
        writePkts := rest
        currentWriteBuffer := some (withHeader b)
        currentWriteOffset := 0 }

/-- One `write` of what is left of the current buffer, and what the loop makes of it. -/
def write (c : Conn) : WriteOutcome → Sent
  | .room n =>
    let n := min n c.remaining
    if n = 0 then ⟨c, [], some .error, some .writeError⟩
    else if n ≥ c.remaining then
      ⟨{ c with currentWriteBuffer := none, currentWriteOffset := 0 }, c.unsent.take n, none, none⟩
    else
      ⟨{ c with currentWriteOffset := c.currentWriteOffset + n }, c.unsent.take n, some .again,
        none⟩
  | .again => ⟨c, [], some .again, none⟩
  | .interrupted => ⟨c, [], none, none⟩
  | .failed => ⟨c, [], some .error, some .writeError⟩

end Conn

/-- `write_packet`. With the outcomes used up the call stands in front of its next `write` and
has no status. -/
def writePacket : List WriteOutcome → Conn → Sent
  | [], c =>
    match c.load with
    | none => ⟨c, [], some .ok, none⟩
    | some c => ⟨c, [], none, none⟩
  | o :: outcomes, c =>
    match c.load with
    | none => ⟨c, [], some .ok, none⟩
    | some c =>
      match c.write o with
      | ⟨c, bytes, some status, fatal⟩ => ⟨c, bytes, some status, fatal⟩
      | ⟨c, bytes, none, _⟩ =>
        let r := writePacket outcomes c
        { r with bytes := bytes ++ r.bytes }

/-- The packets of a queue. -/
def packets (queue : List Buffer) : List (List UInt8) := queue.map Buffer.content

namespace Conn

/-- The sending side of a connection: the current buffer has bytes left. -/
structure SendSound (c : Conn) : Prop where
  current : ∀ b, c.currentWriteBuffer = some b → b.Valid ∧ c.currentWriteOffset < b.len
  queue : ∀ b ∈ c.writePkts, b.Valid

/-- All bytes that are to be written. -/
def pending (c : Conn) : List UInt8 := c.unsent ++ frames htonl (packets c.writePkts)

variable {c : Conn}

theorem SendSound.length_unsent (h : c.SendSound) : c.unsent.length = c.remaining := by
  unfold unsent remaining
  cases hb : c.currentWriteBuffer with
  | none => simp
  | some b => simp [(h.current b hb).1.length_content]

end Conn

theorem withHeader_spec {b : Buffer} (h : b.Valid) :
    (withHeader b).Valid ∧ (withHeader b).content = frame htonl b.content := by
  obtain ⟨hvalid, -, hcontent⟩ := catToBuffer_spec valid_initBufferUnptr (htonl b.len)
  obtain ⟨hvalid', -, hcontent'⟩ := catToBuffer_spec hvalid b.content
  refine ⟨hvalid', ?_⟩
  rw [withHeader, hcontent', hcontent, content_initBufferUnptr, List.nil_append, frame,
    h.length_content]

theorem length_withHeader {b : Buffer} (h : b.Valid) : (withHeader b).len = 4 + b.len := by
  obtain ⟨hvalid, hcontent⟩ := withHeader_spec h
  rw [← hvalid.length_content, hcontent, frame, List.length_append, length_htonl,
    h.length_content]

namespace Conn

variable {c c' : Conn}

theorem load_none (h : c.load = none) : c.currentWriteBuffer = none ∧ c.writePkts = [] := by
  unfold load at h
  cases hb : c.currentWriteBuffer with
  | some b => simp [hb] at h
  | none =>
    cases hq : c.writePkts with
    | nil => exact ⟨rfl, rfl⟩
    | cons b rest => simp [hb, hq] at h

/-- Loading the next packet changes nothing about the bytes to be written. -/
theorem SendSound.load (h : c.SendSound) (hl : c.load = some c') :
    c'.SendSound ∧ c'.pending = c.pending ∧ 0 < c'.remaining := by
  unfold Conn.load at hl
  cases hb : c.currentWriteBuffer with
  | some b =>
    simp only [hb, Option.some.injEq] at hl
    subst hl
    refine ⟨h, rfl, ?_⟩
    have := (h.current b hb).2
    simp only [remaining, hb, Option.elim_some]
    omega
  | none =>
    cases hq : c.writePkts with
    | nil => simp [hb, hq] at hl
    | cons b rest =>
      simp only [hb, hq, Option.some.injEq] at hl
      have hb' := h.queue b (by simp [hq])
      obtain ⟨hvalid, hcontent⟩ := withHeader_spec hb'
      have hlen := length_withHeader hb'
      subst hl
      refine ⟨⟨fun b' hb' => ?_, fun b' hb' =>
        h.queue b' (by simp [hq, show b' ∈ rest from hb'])⟩, ?_, ?_⟩
      · obtain rfl := Option.some.inj hb'
        exact ⟨hvalid, by simp only; omega⟩
      · simp [pending, unsent, hb, hq, packets, hcontent, frame]
      · simp only [remaining, Option.elim_some]
        omega

/-- A write takes the bytes that it reports off the bytes to be written. -/
theorem SendSound.write (h : c.SendSound) (o : WriteOutcome) :
    (c.write o).conn.SendSound ∧ (c.write o).bytes ++ (c.write o).conn.pending = c.pending := by
  have hlen := h.length_unsent
  cases o with
  | room n =>
    simp only [Conn.write]
    split_ifs with hzero hall
    · exact ⟨h, rfl⟩
    · refine ⟨⟨fun b hb => absurd hb (by simp), h.queue⟩, ?_⟩
      have hwhole : c.unsent.take (min n c.remaining) = c.unsent :=
        List.take_of_length_le (by omega)
      rw [hwhole]
      rfl
    · refine ⟨⟨fun b hb => ⟨(h.current b hb).1, ?_⟩, h.queue⟩, ?_⟩
      · change c.currentWriteBuffer = some b at hb
        simp only [remaining, hb, Option.elim_some] at hall hzero ⊢
        omega
      · simp only [pending, unsent]
        rw [← List.append_assoc, ← List.drop_drop, List.take_append_drop]
  | again => exact ⟨h, rfl⟩
  | interrupted => exact ⟨h, rfl⟩
  | failed => exact ⟨h, rfl⟩

end Conn

/-- Whatever the outcomes of the writes, the bytes written and those still to be written are the
bytes that were to be written. -/
theorem writePacket_spec {c : Conn} (h : c.SendSound) (outcomes : List WriteOutcome) :
    (writePacket outcomes c).conn.SendSound ∧
      (writePacket outcomes c).bytes ++ (writePacket outcomes c).conn.pending = c.pending := by
  induction outcomes generalizing c with
  | nil =>
    unfold writePacket
    cases hl : c.load with
    | none => exact ⟨h, rfl⟩
    | some c' => exact ⟨(h.load hl).1, (h.load hl).2.1⟩
  | cons o outcomes ih =>
    unfold writePacket
    cases hl : c.load with
    | none => exact ⟨h, rfl⟩
    | some c' =>
      obtain ⟨hsound, hpending, -⟩ := h.load hl
      obtain ⟨hsound', hpending'⟩ := hsound.write o
      rw [← hpending, ← hpending']
      dsimp only
      cases hw : c'.write o with
      | mk c'' bytes status fatal =>
        rw [hw] at hsound'
        cases status with
        | some status => exact ⟨hsound', rfl⟩
        | none =>
          obtain ⟨hrest, hbytes⟩ := ih hsound'
          exact ⟨hrest, by simp only [List.append_assoc, hbytes]⟩

/-- How many bytes are left of each packet with its header. -/
def Conn.backlog (c : Conn) : List ℕ :=
  (c.currentWriteBuffer.elim [] fun _ => [c.remaining]) ++ c.writePkts.map fun b => 4 + b.len

/-- The socket takes all of the packets with so many bytes left each, unless a write fails or the
outcomes end before. -/
def drains : List ℕ → List WriteOutcome → Bool
  | [], _ => true
  | _ :: _, [] => true
  | size :: sizes, .room n :: outcomes =>
    if n = 0 then true else if n ≥ size then drains sizes outcomes else false
  | _ :: _, .again :: _ => false
  | size :: sizes, .interrupted :: outcomes => drains (size :: sizes) outcomes
  | _ :: _, .failed :: _ => true

theorem backlog_of_load_none {c : Conn} (h : c.load = none) : c.backlog = [] := by
  obtain ⟨hcurrent, hqueue⟩ := Conn.load_none h
  simp [Conn.backlog, hcurrent, hqueue]

/-- Loading the next packet leaves the backlog, whose first entry is then what is left of the
current buffer. -/
theorem backlog_of_load {c c' : Conn} (h : c.SendSound) (hl : c.load = some c') :
    c.backlog = c'.remaining :: (c'.writePkts.map fun b => 4 + b.len) ∧
      c'.backlog = c.backlog := by
  unfold Conn.load at hl
  cases hb : c.currentWriteBuffer with
  | some b =>
    simp only [hb, Option.some.injEq] at hl
    subst hl
    simp [Conn.backlog, hb]
  | none =>
    cases hq : c.writePkts with
    | nil => simp [hb, hq] at hl
    | cons b rest =>
      simp only [hb, hq, Option.some.injEq] at hl
      subst hl
      simp [Conn.backlog, hb, hq, Conn.remaining, length_withHeader (h.queue b (by simp [hq]))]

/-- `write_packet` stops with `AGAIN` exactly when the socket does not take everything. -/
theorem writePacket_again_iff {c : Conn} (h : c.SendSound) (outcomes : List WriteOutcome) :
    (writePacket outcomes c).status = some .again ↔ drains c.backlog outcomes = false := by
  induction outcomes generalizing c with
  | nil =>
    unfold writePacket
    cases hl : c.load with
    | none => simp [backlog_of_load_none hl, drains]
    | some c' => simp [(backlog_of_load h hl).1, drains]
  | cons o outcomes ih =>
    unfold writePacket
    cases hl : c.load with
    | none => simp [backlog_of_load_none hl, drains]
    | some c' =>
      obtain ⟨hbacklog, hsame⟩ := backlog_of_load h hl
      obtain ⟨hsound, -, hleft⟩ := h.load hl
      obtain ⟨hsound', -⟩ := hsound.write o
      rw [hbacklog]
      dsimp only
      cases o with
      | room n =>
        rcases Nat.eq_zero_or_pos n with rfl | hpos
        · simp [Conn.write, drains]
        · by_cases hall : c'.remaining ≤ n
          · have hwrite : c'.write (.room n) =
                ⟨{ c' with currentWriteBuffer := none, currentWriteOffset := 0 },
                  c'.unsent.take (min n c'.remaining), none, none⟩ := by
              simp [Conn.write, hall, hleft.ne']
            rw [hwrite] at hsound' ⊢
            have hnext := ih hsound'
            simp only [drains, if_neg hpos.ne', if_pos (show n ≥ c'.remaining from hall)]
            exact hnext
          · have hmin : min n c'.remaining = n := by omega
            simp [Conn.write, drains, hmin, hpos.ne', hall]
      | again => simp [Conn.write, drains]
      | interrupted =>
        have hnext := ih hsound
        rw [hsame, hbacklog] at hnext
        simp only [drains]
        exact hnext
      | failed => simp [Conn.write, drains]

/-- How a call ends: with `OK` nothing is left, and with `ERROR` something was fatal. -/
structure Sent.Ended (c : Conn) (r : Sent) : Prop where
  isOpen : r.conn.isOpen = c.isOpen
  state : r.conn.state = c.state
  drained : r.status = some .ok → r.conn.currentWriteBuffer = none ∧ r.conn.writePkts = []
  fatal : r.fatal.isSome ↔ r.status = some .error

theorem load_isOpen {c c' : Conn} (h : c.load = some c') :
    c'.isOpen = c.isOpen ∧ c'.state = c.state := by
  unfold Conn.load at h
  split at h
  · cases h
    exact ⟨rfl, rfl⟩
  · split at h
    · cases h
    · cases h
      exact ⟨rfl, rfl⟩

theorem write_ended (c : Conn) (o : WriteOutcome) : (c.write o).conn.isOpen = c.isOpen ∧
    (c.write o).conn.state = c.state ∧ (c.write o).status ≠ some .ok ∧
      ((c.write o).fatal.isSome ↔ (c.write o).status = some .error) := by
  cases o with
  | room n =>
    simp only [Conn.write]
    split_ifs <;> simp
  | again => simp [Conn.write]
  | interrupted => simp [Conn.write]
  | failed => simp [Conn.write]

theorem writePacket_ended (c : Conn) (outcomes : List WriteOutcome) :
    (writePacket outcomes c).Ended c := by
  induction outcomes generalizing c with
  | nil =>
    unfold writePacket
    cases hl : c.load with
    | none => exact ⟨rfl, rfl, fun _ => Conn.load_none hl, by simp⟩
    | some c' => exact ⟨(load_isOpen hl).1, (load_isOpen hl).2, by simp, by simp⟩
  | cons o outcomes ih =>
    unfold writePacket
    cases hl : c.load with
    | none => exact ⟨rfl, rfl, fun _ => Conn.load_none hl, by simp⟩
    | some c' =>
      obtain ⟨hopen, hstate⟩ := load_isOpen hl
      obtain ⟨hopen', hstate', hok, hfatal⟩ := write_ended c' o
      dsimp only
      cases hw : c'.write o with
      | mk c'' bytes status fatal =>
        rw [hw] at hopen' hstate' hok hfatal
        cases status with
        | some status =>
          exact ⟨hopen'.trans hopen, hstate'.trans hstate, fun he => absurd he hok, hfatal⟩
        | none =>
          have hrest := ih c''
          exact ⟨hrest.isOpen.trans (hopen'.trans hopen), hrest.state.trans (hstate'.trans hstate),
            hrest.drained, hrest.fatal⟩

end LdacsSdk
