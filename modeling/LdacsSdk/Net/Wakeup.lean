import LdacsSdk.Net.EventLoop

/-!
# Wake-ups of the sending loop

Any number of `defalut_send_pkt` calls and the `response_handle` of the event loop, interleaved
step by step on one connection whose socket takes every write in full. A send arms `EPOLLOUT` after
it queued its packet; the loop disarms it, in two places, after it found the queue empty. A packet
that was queued and armed for in between is stranded. It is the only way: in every run in which no
disarming finds such a packet, what is queued is armed for.
-/
namespace LdacsSdk

open Library

/-- Where a call of `defalut_send_pkt` stands. -/
inductive SendPc where
  | enqueue (buf : Buffer)
  | check
  | arm
  | done
  deriving DecidableEq, Repr

/-- The next step of a call of `defalut_send_pkt`. -/
def sendPktStep (c : Conn) : SendPc → Option (Conn × SendPc)
  | .enqueue buf => some ({ c with writePkts := c.writePkts ++ [buf] }, .check)
  | .check => some (c, if c.currentWriteBuffer.isNone then .arm else .done)
  | .arm => some (netEpollOut c, .done)
  | .done => none

/-- Where the event loop stands: outside of `response_handle`, in `write_packet`, in
`response_send_buffer` from its test on, or behind it. -/
inductive LoopPc where
  | wait
  | head
  | resume
  | size
  | deq
  | load (b : Buffer)
  | write
  | test
  | disarm
  | rearm
  | finish
  | disarmAgain
  deriving DecidableEq, Repr

/-- The next step of the event loop. It enters `response_handle` for an `EPOLLOUT` event; a write
takes all of the current buffer. -/
def eventLoopStep (c : Conn) : LoopPc → Option (Conn × LoopPc)
  | .wait => if c.armedOut then some (c, .head) else none
  | .head => some (c, if c.currentWriteBuffer.isSome then .resume else .size)
  | .resume => some ({ c with currentWriteBuffer := none, currentWriteOffset := 0 }, .head)
  | .size => some (c, if c.writePkts = [] then .test else .deq)
  | .deq =>
    match c.writePkts with
    | [] => some (c, .head)
    | b :: rest => some ({ c with writePkts := rest }, .load b)
  | .load b =>
    some ({ c with currentWriteBuffer := some (withHeader b), currentWriteOffset := 0 }, .write)
  | .write => some ({ c with currentWriteBuffer := none, currentWriteOffset := 0 }, .head)
  | .test =>
    if c.writePkts = [] ∧ c.currentWriteBuffer = none then
      some ({ c with transDone := true }, .disarm)
    else some ({ c with transDone := false }, .rearm)
  | .disarm => some (netEpollIn c, .finish)
  | .rearm => some (netEpollOut c, .finish)
  | .finish => some (c, if c.transDone then .disarmAgain else .wait)
  | .disarmAgain => some (netEpollIn c, .wait)

/-- A connection with the calls of `defalut_send_pkt` so far and the event loop. -/
structure Threads where
  conn : Conn := {}
  sends : List SendPc := []
  loop : LoopPc := .wait

/-- What can happen next: a call, a step of the `i`-th call, or a step of the event loop. -/
inductive ThreadOp where
  | call (buf : Buffer)
  | send (i : ℕ)
  | loop

/-- One step of one thread. -/
def threadStep (s : Threads) : ThreadOp → Option Threads
  | .call buf => some { s with sends := s.sends ++ [.enqueue buf] }
  | .send i =>
    (s.sends[i]?.bind (sendPktStep s.conn)).map fun r =>
      { s with conn := r.1, sends := s.sends.set i r.2 }
  | .loop => (eventLoopStep s.conn s.loop).map fun r => { s with conn := r.1, loop := r.2 }

namespace SendPc

/-- The packet was queued, and the call has still to look whether to arm. -/
def awake : SendPc → Bool
  | .check => true
  | .arm => true
  | _ => false

end SendPc

namespace LoopPc

/-- The loop has still to look at the queue, or is going to arm. -/
def notices : LoopPc → Bool
  | .wait => false
  | .disarm => false
  | .finish => false
  | .disarmAgain => false
  | _ => true

end LoopPc

namespace Threads

/-- No send and no handler is in progress. -/
def Quiet (s : Threads) : Prop := (∀ p ∈ s.sends, p = .done) ∧ s.loop = .wait

/-- Some call has still to look whether to arm. -/
def Awake (s : Threads) : Prop := ∃ p ∈ s.sends, p.awake

instance (s : Threads) : Decidable s.Quiet := inferInstanceAs (Decidable (_ ∧ _))

instance (s : Threads) : Decidable s.Awake := inferInstanceAs (Decidable (∃ p ∈ s.sends, p.awake))

/-- Where the loop disarms, nothing is queued or some call has still to look whether to arm. -/
def DisarmsSafely (s : Threads) : ThreadOp → Prop
  | .call _ => True
  | .send _ => True
  | .loop => s.loop = .disarm ∨ s.loop = .disarmAgain → s.conn.writePkts = [] ∨ s.Awake

instance (s : Threads) : (op : ThreadOp) → Decidable (s.DisarmsSafely op)
  | .call _ => inferInstanceAs (Decidable True)
  | .send _ => inferInstanceAs (Decidable True)
  | .loop => inferInstanceAs (Decidable (_ → _))

/-- The wake-up invariant: the current buffer is set only while it is written, and what is queued
is armed for, or some call or the loop is going to see to it. -/
structure Woken (s : Threads) : Prop where
  isOpen : s.conn.isOpen = true
  current : s.conn.currentWriteBuffer.isSome → s.loop = .write
  queued : s.conn.writePkts ≠ [] → s.conn.armedOut = true ∨ s.Awake ∨ s.loop.notices

variable {s t : Threads} {i : ℕ} {pc pc' : SendPc} {c : Conn}

theorem woken_start : Woken {} := ⟨rfl, by simp, by simp⟩

theorem Awake.call (h : s.Awake) (buf : Buffer) :
    Awake { s with sends := s.sends ++ [.enqueue buf] } := by
  obtain ⟨p, hp, hawake⟩ := h
  exact ⟨p, List.mem_append_left _ hp, hawake⟩

/-- A step of a call into a place where it has still to look whether to arm. -/
theorem awake_set (hi : s.sends[i]? = some pc) (hawake : pc'.awake) :
    ∃ p ∈ s.sends.set i pc', p.awake := by
  obtain ⟨hlt, -⟩ := List.getElem?_eq_some_iff.mp hi
  exact ⟨pc', List.mem_set hlt pc', hawake⟩

theorem Woken.send (h : s.Woken) (hi : s.sends[i]? = some pc)
    (hstep : sendPktStep s.conn pc = some (c, pc')) :
    Woken { s with conn := c, sends := s.sends.set i pc' } := by
  cases pc with
  | enqueue buf =>
    cases hstep
    exact ⟨h.isOpen, h.current, fun _ => .inr (.inl (awake_set hi rfl))⟩
  | check =>
    obtain ⟨rfl, rfl⟩ := Prod.mk.inj (Option.some.inj hstep)
    refine ⟨h.isOpen, h.current, fun _ => ?_⟩
    split_ifs with hnone
    · exact .inr (.inl (awake_set hi rfl))
    · -- the current buffer is set, so the loop is writing and comes back to the queue
      have hwrite := h.current (by rw [Option.isSome_iff_ne_none]; simpa using hnone)
      exact .inr (.inr (by simp [hwrite, LoopPc.notices]))
  | arm =>
    cases hstep
    exact ⟨h.isOpen, h.current, fun _ => .inl (by simp [netEpollOut, h.isOpen])⟩
  | done => cases hstep

/-- A step of the loop behind which it is going to see to the queue. -/
theorem Woken.loop_notices {loop : LoopPc} (hopen : c.isOpen = true)
    (hcurrent : c.currentWriteBuffer.isSome → loop = .write) (hnotices : loop.notices) :
    Woken { s with conn := c, loop := loop } :=
  ⟨hopen, hcurrent, fun _ => .inr (.inr hnotices)⟩

/-- A step of the loop, where disarming is safe. -/
theorem Woken.loop {loop : LoopPc} (h : s.Woken) (hsafe : s.DisarmsSafely .loop)
    (hstep : eventLoopStep s.conn s.loop = some (c, loop)) :
    Woken { s with conn := c, loop := loop } := by
  have hidle {pc : LoopPc} (hpc : s.loop = pc) (hne : pc ≠ .write) :
      s.conn.currentWriteBuffer = none := by
    by_contra hsome
    exact hne (hpc.symm.trans (h.current (Option.isSome_iff_ne_none.mpr hsome)))
  have hqueued {pc : LoopPc} (hpc : s.loop = pc) (hnotices : pc.notices = false)
      (hne : s.conn.writePkts ≠ []) : s.conn.armedOut = true ∨ s.Awake := by
    rcases h.queued hne with harmed | hawake | hloop
    · exact .inl harmed
    · exact .inr hawake
    · rw [hpc, hnotices] at hloop
      cases hloop
  have hdisarm (hpc : s.loop = .disarm ∨ s.loop = .disarmAgain) (hne : s.conn.writePkts ≠ []) :
      s.Awake := (hsafe hpc).resolve_left hne
  have hnone {pc : LoopPc} (hpc : s.loop = pc) (hne : pc ≠ .write) {p : Prop} :
      s.conn.currentWriteBuffer.isSome → p := by
    simp [hidle hpc hne]
  cases hpc : s.loop with
  | wait =>
    simp only [hpc, eventLoopStep] at hstep
    split_ifs at hstep
    cases hstep
    exact .loop_notices h.isOpen (hnone hpc (by decide)) rfl
  | head =>
    simp only [hpc, eventLoopStep, Option.some.injEq, Prod.mk.injEq] at hstep
    obtain ⟨rfl, rfl⟩ := hstep
    apply Woken.loop_notices h.isOpen (hnone hpc (by decide))
    split_ifs <;> rfl
  | resume =>
    simp only [hpc, eventLoopStep, Option.some.injEq, Prod.mk.injEq] at hstep
    obtain ⟨rfl, rfl⟩ := hstep
    exact .loop_notices h.isOpen (by simp) rfl
  | size =>
    simp only [hpc, eventLoopStep, Option.some.injEq, Prod.mk.injEq] at hstep
    obtain ⟨rfl, rfl⟩ := hstep
    apply Woken.loop_notices h.isOpen (hnone hpc (by decide))
    split_ifs <;> rfl
  | deq =>
    simp only [hpc, eventLoopStep] at hstep
    split at hstep <;> cases hstep
    · exact .loop_notices h.isOpen (hnone hpc (by decide)) rfl
    · exact .loop_notices h.isOpen (hnone hpc (by decide)) rfl
  | load b =>
    simp only [hpc, eventLoopStep, Option.some.injEq, Prod.mk.injEq] at hstep
    obtain ⟨rfl, rfl⟩ := hstep
    exact .loop_notices h.isOpen (fun _ => rfl) rfl
  | write =>
    simp only [hpc, eventLoopStep, Option.some.injEq, Prod.mk.injEq] at hstep
    obtain ⟨rfl, rfl⟩ := hstep
    exact .loop_notices h.isOpen (by simp) rfl
  | test =>
    simp only [hpc, eventLoopStep] at hstep
    split_ifs at hstep with hempty <;> cases hstep
    · exact ⟨h.isOpen, hnone hpc (by decide), fun hne => absurd hempty.1 hne⟩
    · exact .loop_notices h.isOpen (hnone hpc (by decide)) rfl
  | disarm =>
    simp only [hpc, eventLoopStep, Option.some.injEq, Prod.mk.injEq] at hstep
    obtain ⟨rfl, rfl⟩ := hstep
    exact ⟨h.isOpen, hnone hpc (by decide), fun hne => .inr (.inl (hdisarm (.inl hpc) hne))⟩
  | rearm =>
    simp only [hpc, eventLoopStep, Option.some.injEq, Prod.mk.injEq] at hstep
    obtain ⟨rfl, rfl⟩ := hstep
    exact ⟨h.isOpen, hnone hpc (by decide), fun _ => .inl (by simp [netEpollOut, h.isOpen])⟩
  | finish =>
    simp only [hpc, eventLoopStep, Option.some.injEq, Prod.mk.injEq] at hstep
    obtain ⟨rfl, rfl⟩ := hstep
    exact ⟨h.isOpen, hnone hpc (by decide),
      fun hne => (hqueued hpc rfl hne).imp_right fun hawake => .inl hawake⟩
  | disarmAgain =>
    simp only [hpc, eventLoopStep, Option.some.injEq, Prod.mk.injEq] at hstep
    obtain ⟨rfl, rfl⟩ := hstep
    exact ⟨h.isOpen, hnone hpc (by decide), fun hne => .inr (.inl (hdisarm (.inr hpc) hne))⟩

theorem Woken.step (h : s.Woken) {op : ThreadOp} (hsafe : s.DisarmsSafely op)
    (hstep : threadStep s op = some t) : t.Woken := by
  cases op with
  | call buf =>
    obtain rfl := Option.some.inj hstep
    refine ⟨h.isOpen, h.current, fun hne => ?_⟩
    exact (h.queued hne).imp_right fun hseen => hseen.imp_left fun hawake => hawake.call buf
  | send i =>
    obtain ⟨r, hr, rfl⟩ := Option.map_eq_some_iff.mp hstep
    obtain ⟨pc, hi, hsend⟩ := Option.bind_eq_some_iff.mp hr
    exact h.send hi hsend
  | loop =>
    obtain ⟨r, hr, rfl⟩ := Option.map_eq_some_iff.mp hstep
    exact h.loop hsafe hr

/-- **No wake-up is lost** in a run in which the loop disarms safely: where no send and no handler
is in progress, `EPOLLOUT` is armed for whatever is queued or half written. -/
theorem no_lost_wakeup (s : Threads)
    (h : Reaches threadStep Threads.DisarmsSafely {} s) (hquiet : s.Quiet)
    (hpending : s.conn.writePkts ≠ [] ∨ s.conn.currentWriteBuffer ≠ none) :
    s.conn.armedOut = true := by
  have hwoken : s.Woken :=
    h.invariant woken_start fun _ _ _ hu hsafe hstep => hu.step hsafe hstep
  have hnone : s.conn.currentWriteBuffer = none := by
    by_contra hsome
    have hwrite := hwoken.current (Option.isSome_iff_ne_none.mpr hsome)
    rw [hquiet.2] at hwrite
    cases hwrite
  have hne := hpending.resolve_right (fun hsome => hsome hnone)
  rcases hwoken.queued hne with harmed | ⟨p, hp, hawake⟩ | hnotices
  · exact harmed
  · rw [hquiet.1 p hp] at hawake
    cases hawake
  · rw [hquiet.2] at hnotices
    cases hnotices

/-- A packet queued before the loop disarms for the first time, whose call looks whether to arm
only after the second time. -/
theorem no_lost_wakeup_late_check : ∃ s, Reaches threadStep DisarmsSafely {} s ∧ s.Quiet ∧
    s.conn.writePkts = [cloneToChunk [9]] ∧ s.conn.armedOut = true := by
  obtain ⟨s, hs, hquiet, hqueue⟩ : ∃ s, runOps threadStep DisarmsSafely {}
      [.call (cloneToChunk [7]), .send 0, .send 0, .send 0, .loop, .loop, .loop, .loop, .loop,
        .loop, .loop, .loop, .loop, .call (cloneToChunk [9]), .send 1, .loop, .loop, .loop, .send 1,
        .send 1] = some s ∧ s.Quiet ∧ s.conn.writePkts = [cloneToChunk [9]] :=
    ⟨_, rfl, by decide, rfl⟩
  have hrun := reaches_of_runOps _ hs
  exact ⟨s, hrun, hquiet, hqueue, no_lost_wakeup s hrun hquiet (.inl (by simp [hqueue]))⟩

/-- The same packet, whose call is done before the loop disarms: it is stranded. -/
theorem packet_stranded : ∃ s, runOps threadStep anyOp {}
      [.call (cloneToChunk [7]), .send 0, .send 0, .send 0, .loop, .loop, .loop, .loop, .loop,
        .loop, .loop, .loop, .loop, .call (cloneToChunk [9]), .send 1, .send 1, .send 1, .loop,
        .loop, .loop] = some s ∧
      s.Quiet ∧ s.conn.writePkts = [cloneToChunk [9]] ∧ s.conn.armedOut = false :=
  ⟨_, rfl, by decide, rfl, rfl⟩

/-- Disarming with something queued and every call done strands it. -/
theorem disarm_strands (hsends : ∀ p ∈ s.sends, p = .done) (hloop : s.loop = .disarmAgain)
    (hopen : s.conn.isOpen = true) (hne : s.conn.writePkts ≠ []) :
    ∃ t, threadStep s .loop = some t ∧ t.Quiet ∧ t.conn.writePkts ≠ [] ∧
      t.conn.armedOut = false := by
  refine ⟨{ s with conn := netEpollIn s.conn, loop := .wait }, ?_, ⟨hsends, rfl⟩, hne, ?_⟩
  · simp [threadStep, hloop, eventLoopStep]
  · simp [netEpollIn, hopen]

end Threads

/-! ### Threads on their own -/

section Alone

/-- Steps of a call of `defalut_send_pkt` that nothing interrupts. -/
abbrev SendRuns : Conn × SendPc → Conn × SendPc → Prop :=
  Relation.ReflTransGen fun a b => sendPktStep a.1 a.2 = some b

/-- Steps of the event loop that nothing interrupts. -/
abbrev LoopRuns : Conn × LoopPc → Conn × LoopPc → Prop :=
  Relation.ReflTransGen fun a b => eventLoopStep a.1 a.2 = some b

variable {c : Conn}

/-- A call that is not interrupted does what `defalut_send_pkt` does. -/
theorem send_alone (c : Conn) (mid : Buffer) (inBuf : List UInt8) :
    SendRuns (c, .enqueue (catToBuffer true mid inBuf).1)
      (defalutSendPkt c mid inBuf, .done) := by
  obtain ⟨c', hc'⟩ : ∃ c', c' =
      { c with writePkts := c.writePkts ++ [(catToBuffer true mid inBuf).1] } := ⟨_, rfl⟩
  have henqueue : sendPktStep c (.enqueue (catToBuffer true mid inBuf).1) = some (c', .check) := by
    rw [hc']
    rfl
  cases hb : c.currentWriteBuffer with
  | none =>
    have hcheck : sendPktStep c' .check = some (c', .arm) := by simp [sendPktStep, hc', hb]
    have harm : sendPktStep c' .arm = some (defalutSendPkt c mid inBuf, .done) := by
      simp [sendPktStep, netEpollOut, defalutSendPkt, hc', hb]
    exact .head henqueue (.head hcheck (.single harm))
  | some b =>
    have hcheck : sendPktStep c' .check = some (defalutSendPkt c mid inBuf, .done) := by
      simp [sendPktStep, defalutSendPkt, hc', hb]
    exact .head henqueue (.single hcheck)

/-- A connection with nothing half written and a queue in order. -/
structure Conn.Resting (c : Conn) : Prop where
  current : c.currentWriteBuffer = none
  offset : c.currentWriteOffset = 0
  queue : ∀ b ∈ c.writePkts, b.Valid

/-- The loop on its own drains the queue. -/
theorem loop_drains (h : c.Resting) : LoopRuns (c, .head) ({ c with writePkts := [] }, .test) := by
  obtain ⟨queue, hqueue⟩ : ∃ queue, c.writePkts = queue := ⟨_, rfl⟩
  induction queue generalizing c with
  | nil =>
    have hsame : { c with writePkts := [] } = c := by rw [← hqueue]
    have hhead : eventLoopStep c .head = some (c, .size) := by simp [eventLoopStep, h.current]
    have hsize : eventLoopStep c .size = some (c, .test) := by simp [eventLoopStep, hqueue]
    rw [hsame]
    exact .head hhead (.single hsize)
  | cons b rest ih =>
    have hhead : eventLoopStep c .head = some (c, .size) := by simp [eventLoopStep, h.current]
    have hsize : eventLoopStep c .size = some (c, .deq) := by simp [eventLoopStep, hqueue]
    have hdeq : eventLoopStep c .deq = some ({ c with writePkts := rest }, .load b) := by
      simp [eventLoopStep, hqueue]
    have hwritten : eventLoopStep
        { c with
          writePkts := rest
          currentWriteBuffer := some (withHeader b)
          currentWriteOffset := 0 } .write = some ({ c with writePkts := rest }, .head) := by
      simp [eventLoopStep, h.current, h.offset]
    have hrest : Conn.Resting { c with writePkts := rest } :=
      ⟨h.current, h.offset, fun b' hb' => h.queue b' (by simp [hqueue, hb'])⟩
    exact .head hhead (.head hsize (.head hdeq (.head rfl (.head hwritten (ih hrest rfl)))))

/-- Writes that take all of every packet. -/
def fullWrites (c : Conn) : List WriteOutcome := c.writePkts.map fun b => .room (4 + b.len)

/-- `write_packet` drains the queue when every write is accepted in full. -/
theorem writePacket_full (h : c.Resting) : ∃ bytes,
    writePacket (fullWrites c) c = ⟨{ c with writePkts := [] }, bytes, some .ok, none⟩ := by
  obtain ⟨queue, hqueue⟩ : ∃ queue, c.writePkts = queue := ⟨_, rfl⟩
  induction queue generalizing c with
  | nil =>
    have hload : c.load = none := by simp [Conn.load, h.current, hqueue]
    refine ⟨[], ?_⟩
    simp only [fullWrites, hqueue, List.map_nil, writePacket, hload]
    rw [← hqueue]
  | cons b rest ih =>
    have hload : c.load = some
        { c with
          writePkts := rest
          currentWriteBuffer := some (withHeader b)
          currentWriteOffset := 0 } := by simp [Conn.load, h.current, hqueue]
    have hlen := length_withHeader (h.queue b (by simp [hqueue]))
    have hrest : Conn.Resting { c with writePkts := rest } :=
      ⟨h.current, h.offset, fun b' hb' => h.queue b' (by simp [hqueue, hb'])⟩
    obtain ⟨bytes, hbytes⟩ := ih hrest rfl
    have houtcomes :
        fullWrites c = .room (4 + b.len) :: fullWrites { c with writePkts := rest } := by
      simp [fullWrites, hqueue]
    obtain ⟨c', hc'⟩ : ∃ c', c' =
        { c with
          writePkts := rest
          currentWriteBuffer := some (withHeader b)
          currentWriteOffset := 0 } := ⟨_, rfl⟩
    have hremaining : c'.remaining = 4 + b.len := by simp [hc', Conn.remaining, hlen]
    have hwrite : c'.write (.room (4 + b.len)) =
        ⟨{ c with writePkts := rest }, c'.unsent.take (4 + b.len), none, none⟩ := by
      have hne : ¬4 + b.len = 0 := by omega
      have hcleared : { c' with currentWriteBuffer := none, currentWriteOffset := 0 } =
          { c with writePkts := rest } := by simp [hc', h.current, h.offset]
      simp only [Conn.write, hremaining, Nat.min_self, if_neg hne, ge_iff_le, le_refl, if_true,
        hcleared]
    rw [← hc'] at hload
    refine ⟨c'.unsent.take (4 + b.len) ++ bytes, ?_⟩
    rw [houtcomes]
    simp only [writePacket, hload, hwrite, hbytes]

/-- With every write accepted in full a `response_handle` that is not interrupted does what it does
in the sequential model. -/
theorem handle_alone (s : Session) (h : s.conn.Resting) :
    ∃ t, responseHandle (fullWrites s.conn) s = some (t, .ok) ∧
      LoopRuns (s.conn, .head) (t.conn, .wait) := by
  obtain ⟨bytes, hbytes⟩ := writePacket_full h
  obtain ⟨c, hc⟩ : ∃ c : Conn, c = { s.conn with writePkts := [], transDone := true } := ⟨_, rfl⟩
  have htest : eventLoopStep { s.conn with writePkts := [] } .test = some (c, .disarm) := by
    simp [eventLoopStep, h.current, hc]
  have hdisarm : eventLoopStep c .disarm = some (netEpollIn c, .finish) := rfl
  have hfinish : eventLoopStep (netEpollIn c) .finish = some (netEpollIn c, .disarmAgain) := by
    simp [eventLoopStep, netEpollIn, hc]
  have hagain :
      eventLoopStep (netEpollIn c) .disarmAgain = some (netEpollIn (netEpollIn c), .wait) := rfl
  refine ⟨{ s with conn := netEpollIn (netEpollIn c) }, ?_,
    (loop_drains h).trans (.head htest (.head hdisarm (.head hfinish (.single hagain))))⟩
  simp [responseHandle, responseSendBuffer, hbytes, afterWrite, h.current, netEpollIn, hc]

end Alone

end LdacsSdk
