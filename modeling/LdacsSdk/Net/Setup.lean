import LdacsSdk.Net.Closing

/-!
# Setting up a connection

`init_basic_conn` registers a connection, makes its socket non-blocking, creates its queue, sets
its fields and has epoll watch it. Wherever one of these fails it closes the connection; only the
last of them fails where everything that the clean-up looks at is there.
-/
namespace LdacsSdk

open Library

namespace BasicConn

/-- The connection as `init_basic_conn` finds it: none of its pointers has been set. -/
def unassigned (c : BasicConn) : BasicConn := { c with assigned := [] }

/-- The connection after `lfqueue_init`. -/
def withQueue (c : BasicConn) (created : Bool) : BasicConn :=
  { c with
    writePkts := if created then some [] else none
    assigned := .writePkts :: c.assigned }

/-- The connection with its fields for receiving and sending set. -/
def initialised (c : BasicConn) : BasicConn :=
  { c with
    recvBuffer := none
    readPkt := none
    readingHeader := true
    expectedPktLen := 0
    currentWriteBuffer := none
    currentWriteOffset := 0
    transDone := false
    state := .connected
    assigned := .recvBuffer :: .readPkt :: .currentWriteBuffer :: c.assigned }

end BasicConn

/-- What comes of `set_fd_nonblocking`, `lfqueue_init` and `epoll_ctl`. -/
structure SetupOutcomes where
  nonblocking : Bool
  queue : Bool
  epollAdd : Bool

namespace NetState

/-- The state with something written into a connection. -/
def setConn (s : NetState) (bc : ℕ) (f : BasicConn → BasicConn) : NetState :=
  { s with conns := Function.update s.conns bc (f (s.conns bc)) }

/-- The end of `init_basic_conn` behind its `do { … } while (0)`. -/
def giveUp (s : NetState) (bc : ℕ) : Option (NetState × Bool) :=
  (s.connectionClose bc).map fun s' => (s', false)

/-- What `init_basic_conn` does once the connection is registered. -/
def setUp (o : SetupOutcomes) (s : NetState) (bc : ℕ) : Option (NetState × Bool) :=
  if !o.nonblocking then s.giveUp bc
  else
    let s := s.setConn bc (·.withQueue o.queue)
    if !o.queue then s.giveUp bc
    else
      let s := s.setConn bc BasicConn.initialised
      if !o.epollAdd then s.giveUp bc
      else some ({ s with watched := insert (s.conns bc).fd s.watched }, true)

/-- `init_basic_conn` at the time `now`: the state after it and its answer. It aborts when the epoll
descriptor is not legal. -/
def initBasicConn (epollFd : ℤ) (now : ℕ) (o : SetupOutcomes) (s : NetState) (bc : ℕ) :
    Option (NetState × Bool) :=
  if epollFd = 0 ∨ epollFd = -1 then none
  else
    let s := s.setConn bc BasicConn.unassigned
    match ConnTable.connectionRegister s.hdConns bc now with
    | none => none
    | some (hd, status) =>
      let s := { s with hdConns := hd }
      if status = .error then s.giveUp bc else s.setUp o bc

/-- One of the four steps that can fail does. -/
def SetupFails (s : NetState) (o : SetupOutcomes) : Prop :=
  s.hdConns.heapSize ≥ maxHeap ∨ o.nonblocking = false ∨ o.queue = false ∨ o.epollAdd = false

/-- The call answered `FALSE` and left the registered connections as they were, the socket closed
and every pointer that was not set alone. -/
def RolledBack (s : NetState) (bc : ℕ) (result : Option (NetState × Bool)) : Prop :=
  ∃ s', result = some (s', false) ∧
    (s'.hdConns.entries.map Prod.fst).Perm (s.hdConns.entries.map Prod.fst) ∧
    (0 ≤ (s.conns bc).fd → (s.conns bc).fd ∉ s'.openFds) ∧ s'.stray = s.stray

variable {s t : NetState} {bc now : ℕ} {o : SetupOutcomes} {epollFd : ℤ}

@[simp] theorem hdConns_setConn (f : BasicConn → BasicConn) :
    (s.setConn bc f).hdConns = s.hdConns := rfl

@[simp] theorem stray_setConn (f : BasicConn → BasicConn) :
    (s.setConn bc f).stray = s.stray := rfl

@[simp] theorem conns_setConn_self (f : BasicConn → BasicConn) :
    (s.setConn bc f).conns bc = f (s.conns bc) := Function.update_self ..

/-- The clean-up uses the pointers that are not set. -/
theorem not_rolledBack_of_unset (hstray : t.stray = s.stray)
    (hunset : (t.conns bc).unsetPointers ≠ []) : ¬s.RolledBack bc (t.giveUp bc) := by
  rintro ⟨s', hgiveUp, -, -, hs'⟩
  obtain ⟨t', hclose, he⟩ := Option.map_eq_some_iff.mp hgiveUp
  obtain ⟨hd, -, rfl⟩ := Option.map_eq_some_iff.mp hclose
  cases he
  apply hunset
  simpa [hstray] using hs'

/-- With all its pointers set, a registered connection is cleaned up. -/
theorem rolledBack_of_set {i : ℕ} (hwired : t.hdConns.Wired) (hi : t.hdConns.FirstAt bc i)
    (hentries : (t.hdConns.entries.map Prod.fst).Perm (bc :: s.hdConns.entries.map Prod.fst))
    (hfd : (t.conns bc).fd = (s.conns bc).fd) (hstray : t.stray = s.stray)
    (hset : (t.conns bc).unsetPointers = []) : s.RolledBack bc (t.giveUp bc) := by
  obtain ⟨hd, hclose, -, hperm, -⟩ := connectionClose_spec hwired hi
  have hgiveUp : t.giveUp bc = _ := congrArg (Option.map fun s' => (s', false)) hclose
  refine ⟨_, hgiveUp, ?_, fun hsocket hopen => ?_, ?_⟩
  · have hobjects := hperm.map Prod.fst
    rw [List.map_cons, HeapDesc.entry_fst, hi.objEq] at hobjects
    exact (hobjects.trans hentries).cons_inv
  · exact ((mem_openFds_cleanUp hsocket).mp hopen).2 hfd
  · simp [hset, hstray]

/-- A registered connection none of whose pointers is set, for a table that was `s`. -/
structure Registered (s t : NetState) (bc : ℕ) : Prop where
  wired : t.hdConns.Wired
  entries : (t.hdConns.entries.map Prod.fst).Perm (bc :: s.hdConns.entries.map Prod.fst)
  conn : t.conns bc = (s.conns bc).unassigned
  stray : t.stray = s.stray

theorem Registered.setUp_iff (h : s.Registered t bc)
    (hfails : o.nonblocking = false ∨ o.queue = false ∨ o.epollAdd = false) :
    s.RolledBack bc (t.setUp o bc) ↔ o.nonblocking = true ∧ o.queue = true := by
  obtain ⟨i, hi⟩ := HeapDesc.exists_firstAt (h.entries.mem_iff.mpr List.mem_cons_self)
  unfold setUp
  dsimp only
  cases hnonblocking : o.nonblocking with
  | false =>
    apply iff_of_false
    · apply not_rolledBack_of_unset h.stray
      simp [h.conn, BasicConn.unassigned, BasicConn.unsetPointers]
    · simp
  | true =>
    cases hqueue : o.queue with
    | false =>
      apply iff_of_false
      · apply not_rolledBack_of_unset (t := t.setConn bc (·.withQueue false)) h.stray
        simp [h.conn, BasicConn.unassigned, BasicConn.withQueue, BasicConn.unsetPointers]
      · simp
    | true =>
      have hadd : o.epollAdd = false := by simpa [hnonblocking, hqueue] using hfails
      apply iff_of_true
      · rw [hadd]
        apply rolledBack_of_set (i := i) (t := (t.setConn bc (·.withQueue true)).setConn bc
          BasicConn.initialised) h.wired hi h.entries
        · simp [h.conn, BasicConn.unassigned, BasicConn.withQueue, BasicConn.initialised]
        · exact h.stray
        · simp [BasicConn.withQueue, BasicConn.initialised, BasicConn.unsetPointers]
      · simp

/-- With a full table the clean-up runs at once. -/
theorem initBasicConn_full (hlegal : epollFd ≠ 0 ∧ epollFd ≠ -1)
    (hfull : s.hdConns.heapSize ≥ maxHeap) : initBasicConn epollFd now o s bc =
      (s.setConn bc BasicConn.unassigned).giveUp bc := by
  have hepoll : ¬(epollFd = 0 ∨ epollFd = -1) := not_or.mpr hlegal
  have hregister : ConnTable.connectionRegister (s.setConn bc BasicConn.unassigned).hdConns bc now =
    some (s.hdConns, .error) := if_pos hfull
  unfold initBasicConn
  rw [if_neg hepoll]
  dsimp only
  rw [hregister]
  rfl

/-- With room in the table the connection is registered and set up. -/
theorem initBasicConn_room (hwired : s.hdConns.Wired) (hlegal : epollFd ≠ 0 ∧ epollFd ≠ -1)
    (hroom : s.hdConns.heapSize < maxHeap) :
    ∃ t, initBasicConn epollFd now o s bc = t.setUp o bc ∧ s.Registered t bc := by
  have hepoll : ¬(epollFd = 0 ∨ epollFd = -1) := not_or.mpr hlegal
  obtain ⟨hd, hinsert, hwired', hperm, -⟩ := HeapDesc.heapInsert_spec hwired bc now
  have hregister : ConnTable.connectionRegister (s.setConn bc BasicConn.unassigned).hdConns bc now =
      some (hd, .ok) := by
    simp [ConnTable.connectionRegister, Nat.not_le_of_lt hroom, hinsert]
  refine ⟨{ s.setConn bc BasicConn.unassigned with hdConns := hd }, ?_, hwired',
    hperm.map Prod.fst, conns_setConn_self _, rfl⟩
  unfold initBasicConn
  rw [if_neg hepoll]
  dsimp only
  rw [hregister]
  rfl

/-- A failed set-up is rolled back if and only if it is epoll that fails. -/
theorem rolledBack_iff (hwired : s.hdConns.Wired) (hlegal : epollFd ≠ 0 ∧ epollFd ≠ -1)
    (hfails : s.SetupFails o) : s.RolledBack bc (initBasicConn epollFd now o s bc) ↔
      s.hdConns.heapSize < maxHeap ∧ o.nonblocking = true ∧ o.queue = true := by
  by_cases hfull : s.hdConns.heapSize ≥ maxHeap
  · rw [initBasicConn_full hlegal hfull]
    apply iff_of_false
    · apply not_rolledBack_of_unset (stray_setConn _)
      simp [BasicConn.unassigned, BasicConn.unsetPointers]
    · rintro ⟨hroom, -⟩
      omega
  · have hroom : s.hdConns.heapSize < maxHeap := Nat.lt_of_not_ge hfull
    obtain ⟨t, hinit, hregistered⟩ := initBasicConn_room hwired hlegal hroom
    rw [hinit, hregistered.setUp_iff (hfails.resolve_left hfull), and_iff_right hroom]

/-- With a full table the clean-up follows the null pointer that `get_heap` returns. -/
theorem initBasicConn_null (hlegal : epollFd ≠ 0 ∧ epollFd ≠ -1)
    (hfull : s.hdConns.heapSize ≥ maxHeap) (hnew : bc ∉ s.hdConns.entries.map Prod.fst) :
    initBasicConn epollFd now o s bc = none := by
  have hmissing : getHeap s.hdConns bc = none := HeapDesc.getHeap_eq_none_iff.mpr hnew
  rw [initBasicConn_full hlegal hfull]
  simp [giveUp, connectionClose, ConnTable.connectionUnregister, hmissing]

/-- **Failed connection set-up is rolled back** if and only if it fails at the registration with
epoll, for every table that a run of its operations leads to. -/
theorem failed_setup_rolled_back_iff (role : ℕ → SockRoles) (table : ConnTable)
    (h : Reaches (tableStep role) TableCall initConnTable table) (s : NetState)
    (htable : s.hdConns = table.hdConns) (epollFd : ℤ) (hlegal : epollFd ≠ 0 ∧ epollFd ≠ -1)
    (bc now : ℕ) (o : SetupOutcomes) (hfails : s.SetupFails o) :
    s.RolledBack bc (initBasicConn epollFd now o s bc) ↔
      s.hdConns.heapSize < maxHeap ∧ o.nonblocking = true ∧ o.queue = true := by
  have hwired : s.hdConns.Wired := htable ▸ (ConnTable.kept_of_reaches h).wired
  exact rolledBack_iff hwired hlegal hfails

/-- A state with an empty table and connections on socket 5. -/
def emptyNet : NetState where
  hdConns := initHeapDesc
  conns _ :=
    { fd := 5, state := .closed, recvBuffer := none, readPkt := none
      currentWriteBuffer := none, writePkts := none, readingHeader := false
      expectedPktLen := 0, currentWriteOffset := 0, transDone := false, assigned := [] }
  openFds := {5}
  watched := ∅

/-- With epoll failing on the first connection, the table is empty again. -/
theorem failed_setup_rolled_back_epoll :
    emptyNet.RolledBack 0 (initBasicConn 3 10 ⟨true, true, false⟩ emptyNet 0) :=
  (failed_setup_rolled_back_iff (fun _ => .tcpServer) initConnTable .refl emptyNet rfl 3
    (by decide) 0 10 ⟨true, true, false⟩ (.inr (.inr (.inr rfl)))).mpr ⟨by decide, rfl, rfl⟩

/-- With the socket not made non-blocking, the clean-up frees buffers that were never set. -/
theorem nonblocking_failure_uses_unset : ¬∀ (role : ℕ → SockRoles) (table : ConnTable),
    Reaches (tableStep role) TableCall initConnTable table → ∀ s : NetState,
      s.hdConns = table.hdConns → ∀ epollFd : ℤ, epollFd ≠ 0 ∧ epollFd ≠ -1 →
        ∀ (bc now : ℕ) (o : SetupOutcomes), s.SetupFails o →
          s.RolledBack bc (initBasicConn epollFd now o s bc) := by
  intro hall
  have hfails : emptyNet.SetupFails ⟨false, true, true⟩ := .inr (.inl rfl)
  have hrolled := hall (fun _ => .tcpServer) initConnTable .refl emptyNet rfl 3 (by decide) 0 10
    ⟨false, true, true⟩ hfails
  rw [rolledBack_iff HeapDesc.wired_init (by decide) hfails] at hrolled
  exact absurd hrolled.2.1 (by decide)

end NetState

end LdacsSdk
