import LdacsSdk.Core.Buffer

/-!
# Connections

The part of `basic_conn_t` that sending and receiving use, the outcomes of the system calls they
make and the byte order of the length header. Memory is taken to be available.
-/
namespace LdacsSdk

/-- The three results of the handlers: `OK`, `AGAIN` and `ERROR`. -/
inductive NetStatus where
  | ok | again | error
  deriving DecidableEq, Repr

/-- The states of a connection. -/
inductive ConnState where
  | connected | closing | closed
  deriving DecidableEq, Repr

/-- `basic_conn_t`. The queue `write_pkts` is the list of its buffers, `isOpen` says whether
`fd` is a socket, and `armedOut` whether epoll watches it for `EPOLLOUT` and not for `EPOLLIN`. -/
structure Conn where
  isOpen : Bool := true
  state : ConnState := .connected
  recvBuffer : Option Buffer := none
  readingHeader : Bool := true
  expectedPktLen : ℕ := 0
  readPkt : Option Buffer := none
  writePkts : List Buffer := []
  currentWriteBuffer : Option Buffer := none
  currentWriteOffset : ℕ := 0
  transDone : Bool := false
  armedOut : Bool := false
  deriving DecidableEq, Repr

/-- The outcome of a `write`: the socket has room for so many bytes, or an error. -/
inductive WriteOutcome where
  | room (n : ℕ)
  | again
  | interrupted
  | failed
  deriving DecidableEq, Repr

/-- The outcome of a `read`: the bytes it returns, of which there are none at the end of the
stream, or an error. -/
inductive ReadOutcome where
  | got (bytes : List UInt8)
  | again
  | interrupted
  | reset
  | failed
  deriving DecidableEq, Repr

/-- What is fatal for a connection: the end of the stream, an error of a read or a write, a length
that is no packet's, or a receive handler that fails. -/
inductive Fatal where
  | endOfStream | readError | writeError | framing | handler
  deriving DecidableEq, Repr

/-- The four bytes of `htonl(n)` in memory. -/
def htonl (n : ℕ) : List UInt8 :=
  [UInt8.ofNat (n / 2 ^ 24), UInt8.ofNat (n / 2 ^ 16), UInt8.ofNat (n / 2 ^ 8), UInt8.ofNat n]

/-- `ntohl` of the number in the first four bytes. -/
def ntohl (bytes : List UInt8) : ℕ :=
  (bytes.take 4).foldl (fun acc b => acc * 2 ^ 8 + b.toNat) 0

@[simp] theorem length_htonl (n : ℕ) : (htonl n).length = 4 := rfl

theorem ntohl_htonl {n : ℕ} (h : n < 2 ^ 32) : ntohl (htonl n) = n := by
  simp only [ntohl, htonl, List.take, List.foldl, UInt8.toNat_ofNat']
  omega

theorem ntohl_take (bytes : List UInt8) : ntohl (bytes.take 4) = ntohl bytes := by
  rw [ntohl, List.take_take, Nat.min_self, ntohl]

/-- `remove_from_buffer_front`. -/
def removeFromBufferFront (buf : Buffer) (count : ℕ) : Buffer :=
  if count = 0 then buf
  else if count ≥ buf.len then { buf with len := 0 }
  else
    { buf with
      ptr := buf.ptr.map fun block =>
        overwrite block 0 ((block.drop count).take (buf.len - count))
      len := buf.len - count }

theorem valid_removeFromBufferFront {buf : Buffer} (h : buf.Valid) (count : ℕ) :
    (removeFromBufferFront buf count).Valid := by
  unfold removeFromBufferFront
  unfold Buffer.Valid at h ⊢
  split_ifs with hzero hall
  · exact h
  · cases hp : buf.ptr with
    | none => simp_all
    | some block =>
      simp only [hp] at h ⊢
      omega
  · cases hp : buf.ptr with
    | none => simp_all
    | some block =>
      simp only [hp, Option.map_some] at h ⊢
      rw [length_overwrite (by simp)]
      omega

theorem content_removeFromBufferFront {buf : Buffer} (h : buf.Valid) (count : ℕ) :
    (removeFromBufferFront buf count).content = buf.content.drop count := by
  unfold removeFromBufferFront
  split_ifs with hzero hall
  · simp [hzero]
  · have hlen := h.length_content
    simp [Buffer.content, List.drop_of_length_le, hall]
  · unfold Buffer.Valid at h
    cases hp : buf.ptr with
    | none => simp_all
    | some block =>
      simp only [hp] at h
      simp only [Buffer.content, hp, Option.map_some, Option.getD_some]
      have hsize : ((block.drop count).take (buf.len - count)).length = buf.len - count := by
        simp only [List.length_take, List.length_drop]
        omega
      have htake : (overwrite block 0 ((block.drop count).take (buf.len - count))).take
          (0 + ((block.drop count).take (buf.len - count)).length) =
          block.take 0 ++ (block.drop count).take (buf.len - count) :=
        take_overwrite (Nat.zero_le _)
      rw [hsize, Nat.zero_add, List.take_zero, List.nil_append] at htake
      rw [htake, List.drop_take]

end LdacsSdk
