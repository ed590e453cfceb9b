import LdacsSdk.Net.ConnTable

/-!
# Closing a connection

`connection_close` is one clean-up for every connection: it closes the socket, frees the buffers
and the queue, and takes the connection out of the table last. It looks at four pointers of the
connection, whether they have been set or not.
-/
namespace LdacsSdk

open Library

/-- `DEFAULT_FD`. -/
def defaultFd : ℤ := -1

/-- The pointers of a connection to what it owns. -/
inductive ConnField where
  | recvBuffer | readPkt | currentWriteBuffer | writePkts
  deriving DecidableEq, Repr

/-- `basic_conn_t`, with the pointers that `init_basic_conn` has set. -/
structure BasicConn where
  fd : ℤ
  state : ConnState
  recvBuffer : Option Buffer
  readPkt : Option Buffer
  currentWriteBuffer : Option Buffer
  writePkts : Option (List Buffer)
  readingHeader : Bool
  expectedPktLen : ℕ
  currentWriteOffset : ℕ
  transDone : Bool
  assigned : List ConnField

/-- The table of `net_ctx_t`, the connections, the open sockets and those that epoll watches. Beside
them stand the connections closed so far and the pointers that were used before they were set. -/
structure NetState where
  hdConns : HeapDesc
  conns : ℕ → BasicConn
  openFds : Finset ℤ
  watched : Finset ℤ
  closed : List ℕ := []
  stray : List (ℕ × ConnField) := []

namespace BasicConn

/-- `fd` is a socket; `ERROR` and `DEFAULT_FD` are the same number. -/
def IsSocket (c : BasicConn) : Prop := c.fd ≠ defaultFd ∧ c.fd ≥ 0

instance (c : BasicConn) : Decidable c.IsSocket := inferInstanceAs (Decidable (_ ∧ _))

/-- The connection when `connection_close` is through with it. -/
def cleanedUp (c : BasicConn) : BasicConn where
  fd := if c.IsSocket then defaultFd else c.fd
  state := .closed
  recvBuffer := none
  readPkt := none
  currentWriteBuffer := none
  writePkts := none
  readingHeader := true
  expectedPktLen := 0
  currentWriteOffset := 0
  transDone := false
  assigned := c.assigned

/-- The pointers that `connection_close` looks at and that have not been set. -/
def unsetPointers (c : BasicConn) : List ConnField :=
  [.recvBuffer, .readPkt, .currentWriteBuffer, .writePkts].filter (· ∉ c.assigned)

end BasicConn

namespace NetState

/-- What `connection_close` does before it takes the connection out of the table. -/
def cleanUp (s : NetState) (bc : ℕ) : NetState :=
  let c := s.conns bc
  { s with
    conns := Function.update s.conns bc c.cleanedUp
    openFds := if c.IsSocket then s.openFds.erase c.fd else s.openFds
    watched := if c.IsSocket then s.watched.erase c.fd else s.watched
    stray := s.stray ++ c.unsetPointers.map (bc, ·) }

/-- `connection_close` of a connection that is not a null pointer. `close_handler` is taken to
leave the table alone. -/
def connectionClose (s : NetState) (bc : ℕ) : Option NetState :=
  let s' := s.cleanUp bc
  (ConnTable.connectionUnregister s'.hdConns bc).map fun hd =>
    { s' with hdConns := hd, closed := s'.closed ++ [bc] }

variable {s : NetState} {bc i : ℕ} {fd : ℤ}

@[simp] theorem hdConns_cleanUp : (s.cleanUp bc).hdConns = s.hdConns := rfl

@[simp] theorem closed_cleanUp : (s.cleanUp bc).closed = s.closed := rfl

@[simp] theorem conns_cleanUp : (s.cleanUp bc).conns =
    Function.update s.conns bc (s.conns bc).cleanedUp := rfl

@[simp] theorem stray_cleanUp : (s.cleanUp bc).stray =
    s.stray ++ (s.conns bc).unsetPointers.map (bc, ·) := rfl

/-- The socket of the connection is closed and no other one. -/
theorem mem_openFds_cleanUp (hfd : 0 ≤ fd) :
    fd ∈ (s.cleanUp bc).openFds ↔ fd ∈ s.openFds ∧ (s.conns bc).fd ≠ fd := by
  simp only [cleanUp]
  split_ifs with hsocket
  · rw [Finset.mem_erase, and_comm, ne_comm]
  · have hne : (s.conns bc).fd ≠ fd := by
      rintro rfl
      apply hsocket
      constructor
      · unfold defaultFd
        omega
      · exact hfd
    exact (and_iff_left hne).symm

/-- Closing a registered connection takes its entry out of the table. -/
theorem connectionClose_spec (h : s.hdConns.Wired) (hi : s.hdConns.FirstAt bc i) :
    ∃ hd, s.connectionClose bc =
        some { s.cleanUp bc with hdConns := hd, closed := s.closed ++ [bc] } ∧
      hd.Wired ∧ (s.hdConns.entry i :: hd.entries).Perm s.hdConns.entries ∧
      (DownOrder (s.hdConns.heapSize - 1)
        (s.hdConns.factor ∘ Equiv.swap i (s.hdConns.heapSize - 1)) i → hd.Ordered) := by
  obtain ⟨hd, hunregister, hwired, hperm, hord⟩ := ConnTable.connectionUnregister_spec h hi
  refine ⟨hd, ?_, hwired, hperm, hord⟩
  simp [connectionClose, hunregister]

end NetState

end LdacsSdk
