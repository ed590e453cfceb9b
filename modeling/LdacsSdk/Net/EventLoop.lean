import LdacsSdk.Library.Runs
import LdacsSdk.Net.Receiving
import LdacsSdk.Net.Sending

/-!
# The event loop

`net_setup` as one connection goes through it: its events, the pruning of expired connections
after them, and the packets queued on it in between. The callbacks `reset_conn` and
`close_handler` are left out. A session keeps, beside the connection and its entry in the heap,
what was fatal and whether it timed out.
-/
namespace LdacsSdk

open Library

/-- What the event loop uses of `net_ctx_t`. -/
structure NetCtx where
  timeout : ℤ
  recvHandler : Option (List (List UInt8) → LErr)

/-- A connection, its heap entry, and its history. -/
structure Session where
  conn : Conn := {}
  registered : Bool := true
  factor : ℤ
  handed : List (List UInt8) := []
  fatal : Option Fatal := none
  timedOut : Bool := false

/-- `net_epoll_in`; on a closed socket the call fails. -/
def netEpollIn (c : Conn) : Conn := { c with armedOut := c.armedOut && !c.isOpen }

/-- `net_epoll_out`. -/
def netEpollOut (c : Conn) : Conn := { c with armedOut := c.armedOut || c.isOpen }

/-- `connection_close`. -/
def connectionClose (s : Session) : Session :=
  { s with
    conn := { isOpen := false, state := .closed, armedOut := s.conn.armedOut }
    registered := false }

/-- `connecion_is_expired`. -/
def connecionIsExpired (ctx : NetCtx) (s : Session) (now : ℤ) : Bool :=
  ctx.timeout != 0 && decide (now - s.factor > ctx.timeout)

/-- `connecion_set_reactivated`. -/
def connecionSetReactivated (s : Session) (now : ℤ) : Session :=
  if s.registered then { s with factor := now } else s

/-- `connecion_set_expired`. -/
def connecionSetExpired (s : Session) : Session :=
  if s.registered then connectionClose { s with factor := 0 } else s

/-- `request_handle`. -/
def requestHandle (ctx : NetCtx) (reads : List ReadOutcome) (s : Session) :
    Option (Session × NetStatus) :=
  if s.conn.state ≠ .connected then some (s, .error)
  else if !s.conn.isOpen then some (s, .error)
  else
    match ctx.recvHandler with
    | none => some (s, .ok)
    | some recvHandler =>
      match readPacket recvHandler reads s.conn s.handed with
      | none => none
      | some r =>
        r.status.map fun status =>
          ({ s with conn := r.conn, handed := r.handed, fatal := s.fatal.or r.fatal }, status)

/-- What `response_send_buffer` makes of the status of `write_packet`. -/
def afterWrite (s : Session) : NetStatus → Session
  | .ok =>
    if s.conn.writePkts = [] ∧ s.conn.currentWriteBuffer = none then
      { s with conn := netEpollIn { s.conn with transDone := true } }
    else { s with conn := netEpollOut { s.conn with transDone := false } }
  | .again => { s with conn := { s.conn with transDone := false } }
  | .error => connecionSetExpired { s with conn := { s.conn with transDone := true } }

/-- `response_send_buffer`. -/
def responseSendBuffer (writes : List WriteOutcome) (s : Session) :
    Option (Session × NetStatus) :=
  let r := writePacket writes s.conn
  r.status.map fun status =>
    (afterWrite { s with conn := r.conn, fatal := s.fatal.or r.fatal } status, status)

/-- `response_handle`. -/
def responseHandle (writes : List WriteOutcome) (s : Session) : Option (Session × NetStatus) :=
  (responseSendBuffer writes s).map fun r =>
    match r.2 with
    | .ok => if r.1.conn.transDone then ({ r.1 with conn := netEpollIn r.1.conn }, .ok) else r
    | .again => r
    | .error => (connecionSetExpired r.1, .error)

/-- One of the two handlers of an event, called when its flag is set; the second component says
whether it returned something other than `OK`. -/
def runHandler (flag : Bool) (handler : Session → Option (Session × NetStatus)) (s : Session) :
    Option (Session × Bool) :=
  if flag then (handler s).map fun r => (r.1, r.2 != .ok) else some (s, false)

/-- What `net_setup` does with an event of a connection. -/
def handleEvent (ctx : NetCtx) (now : ℤ) (epollin epollout : Bool) (reads : List ReadOutcome)
    (writes : List WriteOutcome) (s : Session) : Option Session :=
  if connecionIsExpired ctx s now then some s
  else
    match runHandler epollin (requestHandle ctx reads) s with
    | none => none
    | some (s, readError) =>
      match runHandler epollout (responseHandle writes) s with
      | none => none
      | some (s, writeError) =>
        let shouldReactivate := (epollin && !readError) || (epollout && !writeError)
        if readError || writeError then
          let s := connecionSetExpired s
          some { s with conn := netEpollIn s.conn }
        else if shouldReactivate then some (connecionSetReactivated s now)
        else some s

/-- `server_connection_prune`, where it looks at this connection. -/
def serverConnectionPrune (ctx : NetCtx) (now : ℤ) (s : Session) : Session :=
  if s.registered ∧ ctx.timeout ≠ 0 ∧ now - s.factor ≥ ctx.timeout then
    { connectionClose s with timedOut := true }
  else s

/-- What can happen to a connection. -/
inductive NetOp where
  | send (mid : Buffer) (inBuf : List UInt8)
  | event (now : ℤ) (epollin epollout : Bool) (reads : List ReadOutcome)
      (writes : List WriteOutcome)
  | prune (now : ℤ)

/-- One step. A closed connection has no events, and a call that does not return no successor. -/
def netStep (ctx : NetCtx) (s : Session) : NetOp → Option Session
  | .send mid inBuf =>
    if s.registered then some { s with conn := defalutSendPkt s.conn mid inBuf } else none
  | .event now epollin epollout reads writes =>
    if s.registered then handleEvent ctx now epollin epollout reads writes s else none
  | .prune now => some (serverConnectionPrune ctx now s)

namespace Session

def start (factor : ℤ) : Session := { factor := factor }

/-- The connection was closed only where something was fatal or it timed out. -/
def NotTorn (s : Session) : Prop :=
  s.registered = false → s.fatal.isSome ∨ s.timedOut = true

/-- A connection with something to write is armed for `EPOLLOUT`. -/
def Armed (s : Session) : Prop :=
  s.registered = true → (s.conn.currentWriteBuffer ≠ none ∨ s.conn.writePkts ≠ []) →
    s.conn.armedOut = true

/-- Packets start from a buffer in order, and at every event for `EPOLLOUT` of a connection that
has not expired the socket takes all that is to be written unless a write fails. -/
def Draining (ctx : NetCtx) (s : Session) : NetOp → Prop
  | .send mid _ => mid.Valid
  | .event now _ epollout _ writes =>
    epollout = true → connecionIsExpired ctx s now = false → drains s.conn.backlog writes = true
  | .prune _ => True

instance (ctx : NetCtx) (s : Session) : (op : NetOp) → Decidable (Draining ctx s op)
  | .send _ _ => inferInstanceAs (Decidable (Buffer.Valid _))
  | .event _ _ _ _ _ => inferInstanceAs (Decidable (_ → _ → _))
  | .prune _ => inferInstanceAs (Decidable True)

/-- What holds between the steps of a run: an open connection is connected, has no packet half
written and nothing fatal behind it, and is armed for what it has queued. -/
structure Steady (s : Session) : Prop where
  torn : s.registered = false → s.fatal.isSome ∨ s.timedOut = true
  clean : s.registered = true → s.fatal = none ∧ s.timedOut = false
  live : s.registered = true → s.conn.isOpen = true ∧ s.conn.state = .connected
  sound : s.registered = true → s.conn.SendSound
  whole : s.registered = true → s.conn.currentWriteBuffer = none
  armed : s.registered = true → s.conn.writePkts ≠ [] → s.conn.armedOut = true

variable {ctx : NetCtx} {s t : Session}

theorem steady_start (factor : ℤ) : (start factor).Steady where
  torn h := by simp [start] at h
  clean _ := ⟨rfl, rfl⟩
  live _ := ⟨rfl, rfl⟩
  sound _ := ⟨fun b hb => by simp [start] at hb, fun b hb => by simp [start] at hb⟩
  whole _ := rfl
  armed _ h := by simp [start] at h

/-- A closed session with something fatal behind it, or one that timed out. -/
theorem steady_closed (hclosed : s.registered = false) (hwhy : s.fatal.isSome ∨ s.timedOut = true) :
    s.Steady :=
  ⟨fun _ => hwhy, fun h => by simp [hclosed] at h, fun h => by simp [hclosed] at h,
    fun h => by simp [hclosed] at h, fun h => by simp [hclosed] at h,
    fun h => by simp [hclosed] at h⟩

theorem Steady.send (h : s.Steady) {mid : Buffer} {inBuf : List UInt8} (hmid : mid.Valid)
    (hs : netStep ctx s (.send mid inBuf) = some t) : t.Steady := by
  unfold netStep at hs
  split_ifs at hs with hreg
  obtain rfl := Option.some.inj hs
  have hsound := h.sound hreg
  refine ⟨h.torn, h.clean, h.live, fun _ => ⟨hsound.current, fun b hb => ?_⟩,
    h.whole, fun _ _ => ?_⟩
  · rcases List.mem_append.mp hb with hb | hb
    · exact hsound.queue b hb
    · rw [List.mem_singleton.mp hb]
      exact (catToBuffer_spec hmid inBuf).1
  · simp [defalutSendPkt, (h.live hreg).1, h.whole hreg]

theorem Steady.prune (h : s.Steady) (now : ℤ) : (serverConnectionPrune ctx now s).Steady := by
  unfold serverConnectionPrune
  split_ifs
  · exact steady_closed rfl (.inr rfl)
  · exact h

/-- The read of an event either leaves the sending side alone or meets something fatal. -/
theorem Steady.requestHandle {reads : List ReadOutcome} (h : s.Steady) (hreg : s.registered = true)
    {r : Session × NetStatus} (hr : requestHandle ctx reads s = some r) :
    r.1.registered = true ∧ r.1.timedOut = false ∧
      (r.2 = .ok ∧ r.1.fatal = none ∧ r.1.conn.sendSide = s.conn.sendSide ∨
        r.2 = .error ∧ r.1.fatal.isSome) := by
  obtain ⟨hclean, htimed⟩ := h.clean hreg
  obtain ⟨hopen, hstate⟩ := h.live hreg
  unfold LdacsSdk.requestHandle at hr
  rw [if_neg (by simp [hstate]), if_neg (by simp [hopen])] at hr
  cases hhandler : ctx.recvHandler with
  | none =>
    simp only [hhandler, Option.some.injEq] at hr
    subst hr
    exact ⟨hreg, htimed, .inl ⟨rfl, hclean, rfl⟩⟩
  | some recvHandler =>
    obtain ⟨r', hr'⟩ := readLoop_returns recvHandler reads false s.conn.initRecv s.handed
    have hended := readLoop_ended hr'
    simp only [hhandler, readPacket, hr'] at hr
    obtain ⟨status, hstatus, rfl⟩ := Option.map_eq_some_iff.mp hr
    refine ⟨hreg, htimed, ?_⟩
    have hfatal := hended.fatal
    rw [hstatus] at hfatal
    cases status with
    | ok =>
      have hnone : r'.fatal = none := by simpa using hfatal
      refine .inl ⟨rfl, by simp [hclean, hnone], ?_⟩
      exact (hended.sendSide (by simp [hstatus])).trans (sendSide_initRecv _)
    | again => exact absurd hstatus hended.answer
    | error => exact .inr ⟨rfl, by simpa [hclean] using hfatal⟩

/-- What a write of an event leads to. -/
structure Responded (s : Session) (writes : List WriteOutcome) (r : Session × NetStatus) :
    Prop where
  timedOut : r.1.timedOut = s.timedOut
  fatal : s.fatal.isSome → r.1.fatal.isSome
  ok : r.2 = .ok → r.1.registered = s.registered ∧ r.1.fatal = s.fatal ∧
    r.1.conn.isOpen = s.conn.isOpen ∧ r.1.conn.state = s.conn.state ∧
      r.1.conn.currentWriteBuffer = none ∧ r.1.conn.writePkts = []
  again : r.2 = .again → r.1.registered = s.registered ∧ r.1.fatal = s.fatal ∧
    (writePacket writes s.conn).status = some .again
  error : r.2 = .error → r.1.fatal.isSome

theorem connecionSetExpired_spec (s : Session) : (connecionSetExpired s).registered = false ∧
    (connecionSetExpired s).fatal = s.fatal ∧ (connecionSetExpired s).timedOut = s.timedOut := by
  unfold connecionSetExpired
  split_ifs with hreg
  · exact ⟨rfl, rfl, rfl⟩
  · exact ⟨by simpa using hreg, rfl, rfl⟩

theorem responded {writes : List WriteOutcome} {r : Session × NetStatus}
    (hr : responseHandle writes s = some r) : Responded s writes r := by
  have hended := writePacket_ended s.conn writes
  unfold responseHandle responseSendBuffer at hr
  dsimp only at hr
  rw [Option.map_map, Option.map_eq_some_iff] at hr
  obtain ⟨status, hstatus, rfl⟩ := hr
  have hfatal := hended.fatal
  rw [hstatus] at hfatal
  simp only [Function.comp_apply]
  cases status with
  | ok =>
    obtain ⟨hcurrent, hqueue⟩ := hended.drained hstatus
    have hnone : (writePacket writes s.conn).fatal = none := by simpa using hfatal
    simp only [afterWrite, hqueue, hcurrent, and_self, if_true, netEpollIn]
    exact ⟨rfl, fun hs => by simp [hnone, hs], fun _ => ⟨rfl, by simp [hnone], hended.isOpen,
      hended.state, rfl, rfl⟩, fun h => by simp at h, fun h => by simp at h⟩
  | again =>
    have hnone : (writePacket writes s.conn).fatal = none := by simpa using hfatal
    exact ⟨rfl, fun hs => by simp [afterWrite, hnone, hs], fun h => by simp at h,
      fun _ => ⟨rfl, by simp [afterWrite, hnone], hstatus⟩, fun h => by simp at h⟩
  | error =>
    have hsome : (writePacket writes s.conn).fatal.isSome := by simpa using hfatal
    simp only [afterWrite]
    obtain ⟨-, hfatal₁, htimed₁⟩ := connecionSetExpired_spec (connecionSetExpired { s with
      conn := { (writePacket writes s.conn).conn with transDone := true }
      fatal := s.fatal.or (writePacket writes s.conn).fatal })
    obtain ⟨-, hfatal₂, htimed₂⟩ := connecionSetExpired_spec { s with
      conn := { (writePacket writes s.conn).conn with transDone := true }
      fatal := s.fatal.or (writePacket writes s.conn).fatal }
    refine ⟨htimed₁.trans htimed₂, fun hs => ?_, fun h => by simp at h, fun h => by simp at h,
      fun _ => ?_⟩ <;>
    · simp only [hfatal₁, hfatal₂, Option.isSome_or, hsome, Bool.or_true]

/-- The end of an event in which a handler failed. -/
def torn (s : Session) : Session :=
  { connecionSetExpired s with conn := netEpollIn (connecionSetExpired s).conn }

theorem torn_spec (s : Session) :
    (torn s).registered = false ∧ (torn s).fatal = s.fatal ∧ (torn s).timedOut = s.timedOut :=
  connecionSetExpired_spec s

theorem Steady.reactivated (h : s.Steady) (now : ℤ) : (connecionSetReactivated s now).Steady := by
  unfold connecionSetReactivated
  split_ifs
  · exact ⟨h.torn, h.clean, h.live, h.sound, h.whole, h.armed⟩
  · exact h

/-- An event that is not skipped, handler by handler. -/
theorem handleEvent_cases {now : ℤ} {epollin epollout : Bool} {reads : List ReadOutcome}
    {writes : List WriteOutcome} (hnow : connecionIsExpired ctx s now = false)
    (ht : handleEvent ctx now epollin epollout reads writes s = some t) :
    ∃ s₁ s₂ readError writeError,
      runHandler epollin (LdacsSdk.requestHandle ctx reads) s = some (s₁, readError) ∧
      runHandler epollout (responseHandle writes) s₁ = some (s₂, writeError) ∧
      ((readError || writeError) = true ∧ t = torn s₂ ∨
        readError = false ∧ writeError = false ∧
          (t = connecionSetReactivated s₂ now ∨ t = s₂)) := by
  unfold handleEvent at ht
  rw [if_neg (by simp [hnow])] at ht
  cases hread : runHandler epollin (LdacsSdk.requestHandle ctx reads) s with
  | none => simp [hread] at ht
  | some r₁ =>
    obtain ⟨s₁, readError⟩ := r₁
    simp only [hread] at ht
    cases hwrite : runHandler epollout (responseHandle writes) s₁ with
    | none => simp [hwrite] at ht
    | some r₂ =>
      obtain ⟨s₂, writeError⟩ := r₂
      simp only [hwrite] at ht
      refine ⟨s₁, s₂, readError, writeError, rfl, hwrite, ?_⟩
      split_ifs at ht with herror hactive
      · exact .inl ⟨herror, (Option.some.inj ht).symm⟩
      · simp only [Bool.or_eq_true, not_or, Bool.not_eq_true] at herror
        exact .inr ⟨herror.1, herror.2, .inl (Option.some.inj ht).symm⟩
      · simp only [Bool.or_eq_true, not_or, Bool.not_eq_true] at herror
        exact .inr ⟨herror.1, herror.2, .inr (Option.some.inj ht).symm⟩

/-- A sound sending side is sound whatever the receiving side is. -/
theorem sendSound_of_sendSide {c c' : Conn} (h : c.SendSound) (hside : c'.sendSide = c.sendSide) :
    c'.SendSound := by
  obtain ⟨-, -, hqueue, hcurrent, hoffset, -⟩ := fields_of_sendSide hside
  exact ⟨by rw [hcurrent, hoffset]; exact h.current, by rw [hqueue]; exact h.queue⟩

theorem backlog_of_sendSide {c c' : Conn} (hside : c'.sendSide = c.sendSide) :
    c'.backlog = c.backlog := by
  obtain ⟨-, -, hqueue, hcurrent, hoffset, -⟩ := fields_of_sendSide hside
  simp only [Conn.backlog, Conn.remaining, hqueue, hcurrent, hoffset]

/-- A session in which only the receiving side has changed. -/
theorem Steady.of_sendSide (h : s.Steady) (hreg : s.registered = true) (ht : t.registered = true)
    (hfatal : t.fatal = none) (htimed : t.timedOut = false)
    (hside : t.conn.sendSide = s.conn.sendSide) : t.Steady := by
  obtain ⟨hopen, hstate, hqueue, hcurrent, -, harmed⟩ := fields_of_sendSide hside
  refine ⟨fun hclosed => by simp [ht] at hclosed, fun _ => ⟨hfatal, htimed⟩,
    fun _ => ⟨hopen.trans (h.live hreg).1, hstate.trans (h.live hreg).2⟩,
    fun _ => sendSound_of_sendSide (h.sound hreg) hside,
    fun _ => hcurrent.trans (h.whole hreg), fun _ hne => ?_⟩
  exact harmed.trans (h.armed hreg (hqueue ▸ hne))

/-- A read that returned `OK` keeps the session steady. -/
theorem Steady.read (h : s.Steady) (hreg : s.registered = true) {epollin readError : Bool}
    {reads : List ReadOutcome}
    (hr : runHandler epollin (LdacsSdk.requestHandle ctx reads) s = some (t, readError)) :
    t.registered = true ∧ t.timedOut = false ∧
      (readError = false ∧ t.Steady ∧ t.conn.backlog = s.conn.backlog ∨
        readError = true ∧ t.fatal.isSome) := by
  obtain ⟨hclean, htimed⟩ := h.clean hreg
  unfold runHandler at hr
  split_ifs at hr
  · obtain ⟨r, hr', he⟩ := Option.map_eq_some_iff.mp hr
    obtain ⟨rfl, rfl⟩ := Prod.mk.inj he
    obtain ⟨hreg', htimed', ⟨hok, hfatal, hside⟩ | ⟨herror, hfatal⟩⟩ := h.requestHandle hreg hr'
    · exact ⟨hreg', htimed', .inl ⟨by simp [hok], h.of_sendSide hreg hreg' hfatal htimed' hside,
        backlog_of_sendSide hside⟩⟩
    · exact ⟨hreg', htimed', .inr ⟨by simp [herror], hfatal⟩⟩
  · obtain ⟨rfl, rfl⟩ := Prod.mk.inj (Option.some.inj hr)
    exact ⟨hreg, htimed, .inl ⟨rfl, h, rfl⟩⟩

/-- A write whose data the socket takes ends with `OK` or with something fatal; otherwise it may
end with `AGAIN`, and then nothing was fatal. -/
theorem Steady.write (h : s.Steady) (hreg : s.registered = true) {epollout writeError : Bool}
    {writes : List WriteOutcome}
    (hr : runHandler epollout (responseHandle writes) s = some (t, writeError)) :
    t.timedOut = false ∧ (writeError = false ∧ t.Steady ∨ writeError = true ∧ t.fatal.isSome ∨
      writeError = true ∧ t.fatal = none ∧ epollout = true ∧
        drains s.conn.backlog writes = false) := by
  obtain ⟨hclean, htimed⟩ := h.clean hreg
  unfold runHandler at hr
  split_ifs at hr with hflag
  · obtain ⟨r, hr', he⟩ := Option.map_eq_some_iff.mp hr
    obtain ⟨rfl, rfl⟩ := Prod.mk.inj he
    have hresp := responded hr'
    refine ⟨hresp.timedOut.trans htimed, ?_⟩
    cases hstatus : r.2 with
    | ok =>
      obtain ⟨hreg', hfatal, hopen, hstate, hcurrent, hqueue⟩ := hresp.ok hstatus
      refine .inl ⟨rfl, fun hclosed => ?_, fun _ => ⟨hfatal.trans hclean,
        hresp.timedOut.trans htimed⟩, fun _ => ⟨hopen.trans (h.live hreg).1,
        hstate.trans (h.live hreg).2⟩, fun _ => ?_, fun _ => hcurrent,
        fun _ hne => absurd hqueue hne⟩
      · rw [hreg', hreg] at hclosed
        cases hclosed
      · exact ⟨fun b hb => by simp [hcurrent] at hb, fun b hb => by simp [hqueue] at hb⟩
    | again =>
      obtain ⟨-, hfatal, hagain⟩ := hresp.again hstatus
      exact .inr (.inr ⟨rfl, hfatal.trans hclean, hflag,
        (writePacket_again_iff (h.sound hreg) writes).mp hagain⟩)
    | error => exact .inr (.inl ⟨rfl, hresp.error hstatus⟩)
  · obtain ⟨rfl, rfl⟩ := Prod.mk.inj (Option.some.inj hr)
    exact ⟨htimed, .inl ⟨rfl, h⟩⟩

/-- An event keeps the session steady unless its write stops short with nothing fatal before it,
and then the connection is closed with nothing fatal behind it. -/
theorem Steady.handleEvent (h : s.Steady) (hreg : s.registered = true) {now : ℤ}
    {epollin epollout : Bool} {reads : List ReadOutcome} {writes : List WriteOutcome}
    (hs : handleEvent ctx now epollin epollout reads writes s = some t) :
    t.Steady ∨ connecionIsExpired ctx s now = false ∧ epollout = true ∧
      drains s.conn.backlog writes = false ∧ ¬ t.NotTorn := by
  cases hnow : connecionIsExpired ctx s now with
  | true =>
    unfold LdacsSdk.handleEvent at hs
    rw [if_pos hnow] at hs
    exact .inl (Option.some.inj hs ▸ h)
  | false =>
    obtain ⟨s₁, s₂, readError, writeError, hread, hwrite, hend⟩ := handleEvent_cases hnow hs
    obtain ⟨hreg₁, htimed₁, ⟨hok, hsteady₁, hbacklog⟩ | ⟨herror, hfatal₁⟩⟩ := h.read hreg hread
    · obtain ⟨htimed₂, ⟨hok', hsteady₂⟩ | ⟨herror', hfatal₂⟩ | ⟨herror', hclean, hflag, hshort⟩⟩ :=
        hsteady₁.write hreg₁ hwrite
      · rcases hend with ⟨hbad, -⟩ | ⟨-, -, rfl | rfl⟩
        · simp [hok, hok'] at hbad
        · exact .inl (hsteady₂.reactivated now)
        · exact .inl hsteady₂
      · rcases hend with ⟨-, rfl⟩ | ⟨-, hgood, -⟩
        · exact .inl (steady_closed (torn_spec s₂).1 (.inl ((torn_spec s₂).2.1 ▸ hfatal₂)))
        · simp [herror'] at hgood
      · rcases hend with ⟨-, rfl⟩ | ⟨-, hgood, -⟩
        · refine .inr ⟨rfl, hflag, hbacklog ▸ hshort, fun htorn => ?_⟩
          obtain ⟨hclosed, hfatal, htimed⟩ := torn_spec s₂
          have hwhy := htorn hclosed
          simp [hfatal, htimed, hclean, htimed₂] at hwhy
        · simp [herror'] at hgood
    · have hfatal₂ : s₂.fatal.isSome := by
        unfold runHandler at hwrite
        split_ifs at hwrite
        · obtain ⟨r, hr, he⟩ := Option.map_eq_some_iff.mp hwrite
          obtain ⟨rfl, -⟩ := Prod.mk.inj he
          exact (responded hr).fatal hfatal₁
        · obtain ⟨rfl, -⟩ := Prod.mk.inj (Option.some.inj hwrite)
          exact hfatal₁
      rcases hend with ⟨-, rfl⟩ | ⟨hgood, -⟩
      · exact .inl (steady_closed (torn_spec s₂).1 (.inl ((torn_spec s₂).2.1 ▸ hfatal₂)))
      · simp [herror] at hgood

/-- The step keeps the session steady when the socket takes what is to be written. -/
theorem Steady.step (h : s.Steady) {op : NetOp} (hdrain : Draining ctx s op)
    (hs : netStep ctx s op = some t) : t.Steady := by
  cases op with
  | send mid inBuf => exact h.send hdrain hs
  | event now epollin epollout reads writes =>
    unfold netStep at hs
    split_ifs at hs with hreg
    refine (h.handleEvent hreg hs).resolve_right ?_
    rintro ⟨hnow, hflag, hshort, -⟩
    rw [hdrain hflag hnow] at hshort
    cases hshort
  | prune now =>
    obtain rfl := Option.some.inj hs
    exact h.prune now

theorem steady_of_reaches {factor : ℤ}
    (h : Reaches (netStep ctx) (Draining ctx) (start factor) s) : s.Steady :=
  h.invariant (steady_start factor) fun _ _ _ hs hdrain hstep => hs.step hdrain hstep

/-- In every run whose events for `EPOLLOUT` find a socket that takes all there is to write, the
connection is closed only where something was fatal or it timed out, and while it is open it is
armed for what it has to write. -/
theorem back_pressure_keeps_connection (ctx : NetCtx) (factor : ℤ) (s : Session)
    (h : Reaches (netStep ctx) (Draining ctx) (start factor) s) : s.NotTorn ∧ s.Armed := by
  have hsteady := steady_of_reaches h
  refine ⟨hsteady.torn, fun hreg hwaiting => ?_⟩
  rcases hwaiting with hcurrent | hqueue
  · exact absurd (hsteady.whole hreg) hcurrent
  · exact hsteady.armed hreg hqueue

/-- A packet is queued, and at its event the socket takes all of it after an interruption. -/
theorem back_pressure_packet_sent : ∃ s,
    Reaches (netStep ⟨0, none⟩) (Draining ⟨0, none⟩) (start 0) s ∧
    s.registered = true ∧ s.conn.writePkts = [] ∧ s.NotTorn ∧ s.Armed := by
  obtain ⟨s, hs, hreg, hqueue⟩ : ∃ s, runOps (netStep ⟨0, none⟩) (Draining ⟨0, none⟩)
      (start 0) [.send initBufferUnptr [1, 2, 3],
        .event 0 false true [] [.interrupted, .room 9]] = some s ∧
      s.registered = true ∧ s.conn.writePkts = [] := ⟨_, rfl, rfl, rfl⟩
  have hrun := reaches_of_runOps _ hs
  exact ⟨s, hrun, hreg, hqueue, back_pressure_keeps_connection _ 0 s hrun⟩

/-- A socket that takes one byte of a packet closes the connection. -/
theorem partial_write_closes : ¬ ∀ (ctx : NetCtx) (factor : ℤ) (s : Session),
    Reaches (netStep ctx) anyOp (start factor) s → s.NotTorn := by
  intro hall
  obtain ⟨s, hs, hclosed, hfatal, htimed⟩ : ∃ s, runOps (netStep ⟨0, none⟩) anyOp (start 0)
      [.send initBufferUnptr [1, 2, 3], .event 0 false true [] [.room 1]] = some s ∧
      s.registered = false ∧ s.fatal = none ∧ s.timedOut = false := ⟨_, rfl, rfl, rfl, rfl⟩
  have hwhy := hall ⟨0, none⟩ 0 s (reaches_of_runOps _ hs) hclosed
  simp [hfatal, htimed] at hwhy

end Session

end LdacsSdk
