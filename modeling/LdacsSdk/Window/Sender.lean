import LdacsSdk.Window.State

/-!
# Operations of the sender window

An SDU is put into the slot at `availStart`, leaves whole or in fragments from the slot at
`toSendStart`, and stays in its slot until `window_slide` clears it after its acknowledgement.
A fragment is copied from the block at the slot's offset with no look at its length, so the copy
may run past the block; `past` stands for the memory found there.
-/
namespace LdacsSdk

open Library

/-- `memcpy` of `size` bytes from offset `pos` of a block; behind the block lies `past`. -/
def readBlock (past : ℕ → UInt8) (block : List UInt8) (pos size : ℕ) : List UInt8 :=
  (List.range size).map fun i => (block[pos + i]?).getD (past (pos + i))

@[simp] theorem length_readBlock (past : ℕ → UInt8) (block : List UInt8) (pos size : ℕ) :
    (readBlock past block pos size).length = size := by
  simp [readBlock]

/-- `window_put` with the bytes of `buf`: the window after it and the sequence number given
out. With no free slot the call waits. -/
def windowPut (w : Window) (cos : ℕ) (buf : List UInt8) : Option (Window × ℕ) :=
  if w.availSize = 0 then none
  else
    let item := w.items w.availStart
    some ({ w.setItem w.availStart
              { item with cos := cos, buf := some (cloneToChunk buf), isAck := false } with
            availStart := u8 ((w.availStart + 1) % w.seqSz)
            availSize := w.availSize - 1 }, w.availStart)

/-- `window_out_get`, for the slot's buffer `buf` that its caller has found not to be NULL. The
offset is an 8-bit field; the copy that is handed out holds the whole buffer. -/
def windowOutGet (w : Window) (buf : Buffer) : Option (WindowItem × Window) :=
  if w.availSize = w.seqSz then none
  else
    let i := w.toSendStart % w.seqSz
    let item := { w.items i with offset := u8 buf.len }
    some ({ item with buf := some (cloneToChunk buf.content) },
      { w.setItem i item with
        toSendStart := u8 ((w.toSendStart + 1) % w.seqSz)
        availSize := w.availSize + 1 })

/-- `window_out_get_frag`, for the slot's buffer `buf`. -/
def windowOutGetFrag (past : ℕ → UInt8) (w : Window) (buf : Buffer) (sz : ℕ) :
    Option (WindowItem × Window) :=
  if w.availSize = w.seqSz then none
  else
    let i := w.toSendStart % w.seqSz
    let item := w.items i
    let piece := readBlock past (buf.ptr.getD []) item.offset sz
    let item' := { item with offset := u8 (item.offset + sz) }
    some ({ cos := item.cos, buf := some (cloneToChunk piece), offset := item'.offset },
      w.setItem i item')

/-- `window_check_get`: the context handed out, the window and the budget after it. A budget
is compared and passed on as an unsigned 64-bit number. -/
def windowCheckGet (past : ℕ → UInt8) (w : Window) (availBufSz : ℤ) :
    Option WindowCtx × Window × ℤ :=
  let item := w.items (w.toSendStart % w.seqSz)
  match item.buf with
  | none => (none, w, availBufSz)
  | some buf =>
    let isRst := item.offset == 0
    if buf.len ≤ u64 availBufSz then
      match windowOutGet w buf with
      | none => (none, w, availBufSz)
      | some (wi, w') =>
        let out := wi.buf.getD initBufferUnptr
        (some ⟨cloneToChunk out.content, w.toSendStart, wi.cos, wi.offset, isRst, true⟩, w',
          i64 (availBufSz - i64 out.len))
    else
      match windowOutGetFrag past w buf (u64 availBufSz) with
      | none => (none, w, availBufSz)
      | some (wi, w') =>
        let out := wi.buf.getD initBufferUnptr
        (some ⟨cloneToChunk out.content, w.toSendStart, wi.cos, wi.offset, isRst, false⟩, w',
          availBufSz)

/-- The guard of the loop in `window_slide`. -/
def Window.Sliding (w : Window) : Prop :=
  w.toAckStart < w.toSendStart ∨
    (w.toSendStart < w.toAckStart ∧ w.toAckStart > w.toSendStart + w.winSize)

instance : DecidablePred Window.Sliding := fun w => by unfold Window.Sliding; infer_instance

/-- Clear the oldest slot and step past it. -/
def Window.slideOne (w : Window) : Window :=
  { w.setItem w.toAckStart {} with toAckStart := u8 ((w.toAckStart + 1) % w.seqSz) }

/-- The loop of `window_slide`, for at most `fuel` slots. -/
def windowSlideLoop : ℕ → Window → Window
  | 0, w => w
  | fuel + 1, w =>
    if w.Sliding ∧ (w.items w.toAckStart).isAck then windowSlideLoop fuel w.slideOne else w

/-- `window_slide`. Every slot it passes is cleared, so it passes none twice. -/
def windowSlide (w : Window) : Window := windowSlideLoop w.seqSz w

@[simp] theorem windowSlideLoop_seqSz (fuel : ℕ) (w : Window) :
    (windowSlideLoop fuel w).seqSz = w.seqSz := by
  induction fuel generalizing w with
  | zero => rfl
  | succ fuel ih =>
    unfold windowSlideLoop
    split_ifs
    · exact (ih w.slideOne).trans rfl
    · rfl

/-- `window_ack_item`. A PID outside the slot array is written through all the same, which
has no result here. -/
def windowAckItem (w : Window) (pid : ℕ) : Option (Window × LErr) :=
  if InRange w.toAckStart w.toSendStart pid then
    if pid < w.seqSz then
      some (windowSlide (w.setItem pid { w.items pid with isAck := true }), .ldOk)
    else none
  else some (w, .ldErrInvalid)

/-- The window after the SDU at `toSendStart` left whole. -/
def Window.sentWhole (w : Window) (buf : Buffer) : Window :=
  let i := w.toSendStart % w.seqSz
  { w.setItem i { w.items i with offset := u8 buf.len } with
    toSendStart := u8 ((w.toSendStart + 1) % w.seqSz)
    availSize := w.availSize + 1 }

/-- The window after `sz` bytes of the SDU at `toSendStart` left as a fragment. -/
def Window.sentPart (w : Window) (sz : ℕ) : Window :=
  let i := w.toSendStart % w.seqSz
  w.setItem i { w.items i with offset := u8 ((w.items i).offset + sz) }

/-- A call finds something to send at `toSendStart`. -/
def Window.Sending (w : Window) (buf : Buffer) : Prop :=
  (w.items (w.toSendStart % w.seqSz)).buf = some buf ∧ w.availSize ≠ w.seqSz

theorem windowCheckGet_whole {w : Window} {buf : Buffer} (h : w.Sending buf) {b : ℤ}
    (hb : buf.len ≤ u64 b) (past : ℕ → UInt8) :
    windowCheckGet past w b =
      (some ⟨cloneToChunk buf.content, w.toSendStart, (w.items (w.toSendStart % w.seqSz)).cos,
        u8 buf.len, (w.items (w.toSendStart % w.seqSz)).offset == 0, true⟩,
        w.sentWhole buf, i64 (b - i64 buf.content.length)) := by
  simp [windowCheckGet, windowOutGet, h.1, h.2, hb, Window.sentWhole]

theorem windowCheckGet_part {w : Window} {buf : Buffer} (h : w.Sending buf) {b : ℤ}
    (hb : ¬ buf.len ≤ u64 b) (past : ℕ → UInt8) :
    windowCheckGet past w b =
      (some ⟨cloneToChunk (readBlock past (buf.ptr.getD [])
          (w.items (w.toSendStart % w.seqSz)).offset (u64 b)), w.toSendStart,
        (w.items (w.toSendStart % w.seqSz)).cos,
        u8 ((w.items (w.toSendStart % w.seqSz)).offset + u64 b),
        (w.items (w.toSendStart % w.seqSz)).offset == 0, false⟩,
        w.sentPart (u64 b), b) := by
  simp [windowCheckGet, windowOutGetFrag, h.1, h.2, hb, Window.sentPart]

theorem windowCheckGet_idle {w : Window} (h : ∀ buf, ¬ w.Sending buf) (past : ℕ → UInt8) (b : ℤ) :
    windowCheckGet past w b = (none, w, b) := by
  unfold windowCheckGet
  dsimp only
  cases hb : (w.items (w.toSendStart % w.seqSz)).buf with
  | none => rfl
  | some buf =>
    have hfull : w.availSize = w.seqSz := by
      by_contra hne
      exact h buf ⟨hb, hne⟩
    simp [windowOutGet, windowOutGetFrag, hfull]

end LdacsSdk
