import LdacsSdk.Window.State

/-!
# Operations of the receiver window

`window_put_ctx` stores a fragment in the slot of its sequence number, and `window_in_get` hands
up the first complete SDU of the window that it has not handed up yet and slides past the slots
at the front that it is done with.
-/
namespace LdacsSdk

open Library

/-- The test of `window_put_ctx` whether a sequence number lies in the receive window. -/
def Window.Accepts (w : Window) (pid : ℕ) : Prop :=
  InRange w.toRecvStart (u8 ((w.toRecvStart + w.winSize) % w.seqSz)) pid

instance (w : Window) : DecidablePred w.Accepts := fun _ => by
  unfold Window.Accepts; infer_instance

/-- The last part of `window_put_ctx`, once the fragment's bytes are in `item`. -/
def Window.storeFragment (w : Window) (ctx : WindowCtx) (item : WindowItem) : Window :=
  { w.setItem ctx.pid { item with allRecv := ctx.isLfr, isProcessed := false } with
    availSize := u64 (w.availSize - 1) }

/-- `window_put_ctx`. `allocated` says whether `alloc_buffer` succeeds where it is called; a slot
outside the array is written all the same, which has no result here. -/
def windowPutCtx (allocated : Bool) (w : Window) (ctx : WindowCtx) : Option (Window × LErr) :=
  if ¬ w.Accepts ctx.pid then some (w, .ldErrInvalid)
  else if ¬ ctx.pid < w.seqSz then none
  else
    let item := { w.items ctx.pid with offset := u8 ctx.offset, cos := ctx.cos }
    if ctx.isRst then
      some (w.storeFragment ctx { item with buf := some (cloneToChunk ctx.buf.content) }, .ldOk)
    else
      match item.buf with
      | none => some (w.setItem ctx.pid item, .ldErrNull)
      | some buf =>
        let r := catToBuffer allocated buf ctx.buf.content
        let item' := { item with buf := some r.1 }
        if r.2 = .ldOk then some (w.storeFragment ctx item', .ldOk)
        else some (w.setItem ctx.pid item', .ldErrInternal)

/-- A complete SDU that has not been handed up. -/
def WindowItem.Ready (item : WindowItem) : Prop := item.allRecv = true ∧ item.isProcessed = false

instance : DecidablePred WindowItem.Ready := fun _ => inferInstanceAs (Decidable (_ ∧ _))

/-- The slot where the scan of `window_in_get` stops. -/
def Window.readySlot (w : Window) : Option ℕ :=
  ((List.range w.winSize).map fun i => (w.toRecvStart + i) % w.seqSz).find?
    fun p => decide (w.items p).Ready

/-- The window after the SDU of slot `p` was handed up. -/
def Window.handUp (w : Window) (p : ℕ) : Window :=
  { w.setItem p { w.items p with isProcessed := true } with availSize := u64 (w.availSize + 1) }

/-- Clear the slot at `toRecvStart` and step past it. -/
def Window.recvOne (w : Window) : Window :=
  { w.setItem w.toRecvStart {} with toRecvStart := u8 ((w.toRecvStart + 1) % w.seqSz) }

/-- The slide of `window_in_get`, for at most `fuel` slots, and the slots it passes. -/
def windowInSlide : ℕ → Window → Window × List ℕ
  | 0, w => (w, [])
  | fuel + 1, w =>
    if (w.items w.toRecvStart).isProcessed then
      let r := windowInSlide fuel w.recvOne
      (r.1, w.toRecvStart :: r.2)
    else (w, [])

/-- The buffer that `window_in_get` returns. -/
def windowInGetBuf (w : Window) : Option Buffer :=
  w.readySlot.map fun p => cloneToChunk (((w.items p).buf.getD initBufferUnptr).content)

/-- The window of `window_in_get` between its scan and its slide. -/
def Window.scanned (w : Window) : Window := w.readySlot.elim w w.handUp

/-- `window_in_get`: the buffer handed up and the window after it. A slot the slide passes is
clear, so it passes none twice. -/
def windowInGet (w : Window) : Option Buffer × Window :=
  (windowInGetBuf w, (windowInSlide w.seqSz w.scanned).1)

theorem Window.readySlot_ready {w : Window} {p : ℕ} (h : w.readySlot = some p) :
    (w.items p).Ready := by
  simpa using List.find?_some h

/-- The scan finds the only slot that is ready when that slot is in the window. -/
theorem Window.readySlot_eq {w : Window} {p i : ℕ} (hready : (w.items p).Ready)
    (honly : ∀ q, (w.items q).Ready → q = p) (hi : i < w.winSize)
    (hslot : (w.toRecvStart + i) % w.seqSz = p) : w.readySlot = some p := by
  cases h : w.readySlot with
  | none =>
    have hnone := List.find?_eq_none.mp h p
      (List.mem_map.mpr ⟨i, List.mem_range.mpr hi, hslot⟩)
    simp [hready] at hnone
  | some q => rw [honly q (readySlot_ready h)]

theorem Window.readySlot_none {w : Window} (h : ∀ q, ¬ (w.items q).Ready) :
    w.readySlot = none := by
  refine List.find?_eq_none.mpr fun q _ => ?_
  simpa using h q

theorem windowPutCtx_reject {w : Window} (ctx : WindowCtx) (h : ¬ w.Accepts ctx.pid)
    (allocated : Bool) : windowPutCtx allocated w ctx = some (w, .ldErrInvalid) := by
  simp [windowPutCtx, h]

theorem windowPutCtx_first {w : Window} (ctx : WindowCtx) (h : w.Accepts ctx.pid)
    (hpid : ctx.pid < w.seqSz) (hrst : ctx.isRst = true) (allocated : Bool) :
    windowPutCtx allocated w ctx = some (w.storeFragment ctx { w.items ctx.pid with
      offset := u8 ctx.offset, cos := ctx.cos, buf := some (cloneToChunk ctx.buf.content) },
      .ldOk) := by
  simp [windowPutCtx, h, hpid, hrst]

theorem Window.storeFragment_of_ne (w : Window) (ctx : WindowCtx) (item : WindowItem) {p : ℕ}
    (h : p ≠ ctx.pid) : (w.storeFragment ctx item).items p = w.items p := by
  simp [Window.storeFragment, h]

/-- The slot of a fragment that passed the window test and was not stored. -/
def Window.restamp (w : Window) (ctx : WindowCtx) : Window :=
  w.setItem ctx.pid { w.items ctx.pid with offset := u8 ctx.offset, cos := ctx.cos }

/-- The bytes of a fragment in the window can be stored: it starts an SDU, or its slot has a buffer
that takes them. -/
def Window.Stores (w : Window) (allocated : Bool) (ctx : WindowCtx) : Prop :=
  ctx.isRst = true ∨ ((w.items ctx.pid).buf.map fun buf =>
    (catToBuffer allocated buf ctx.buf.content).2) = some .ldOk

instance (w : Window) (allocated : Bool) (ctx : WindowCtx) : Decidable (w.Stores allocated ctx) :=
  inferInstanceAs (Decidable (_ ∨ _))

/-- What `window_put_ctx` can do: it refuses the fragment, or it stores it, or it stops after it has
stored the offset and the class. -/
theorem windowPutCtx_result {allocated : Bool} {w w' : Window} {ctx : WindowCtx} {e : LErr}
    (h : windowPutCtx allocated w ctx = some (w', e)) :
    (e = .ldErrInvalid ∧ ¬w.Accepts ctx.pid ∧ w' = w) ∨
      (e = .ldOk ∧ w.Accepts ctx.pid ∧ w.Stores allocated ctx ∧ ctx.pid < w.seqSz ∧
        ∃ item : WindowItem, item.buf.isSome = true ∧ w' = w.storeFragment ctx item) ∨
      ((e = .ldErrNull ∨ e = .ldErrInternal) ∧ w.Accepts ctx.pid ∧ ¬w.Stores allocated ctx ∧
        w' = w.restamp ctx) := by
  unfold windowPutCtx at h
  split_ifs at h with hin hpid hrst
  · -- the first fragment of an SDU
    obtain ⟨rfl, rfl⟩ := Prod.mk.inj (Option.some.inj h)
    exact .inr (.inl ⟨rfl, hin, .inl hrst, hpid, _, rfl, rfl⟩)
  · cases hb : (w.items ctx.pid).buf with
    | none =>
      simp only [hb, Option.some.injEq, Prod.mk.injEq] at h
      obtain ⟨rfl, rfl⟩ := h
      refine .inr (.inr ⟨.inl rfl, hin, ?_, ?_⟩)
      · simp [Window.Stores, hrst, hb]
      · simp [Window.restamp, hb]
    | some buf =>
      simp only [hb] at h
      split_ifs at h with hcat
      · obtain ⟨rfl, rfl⟩ := Prod.mk.inj (Option.some.inj h)
        exact .inr (.inl ⟨rfl, hin, .inr (by simp [hb, hcat]), hpid, _, rfl, rfl⟩)
      · obtain ⟨rfl, rfl⟩ := Prod.mk.inj (Option.some.inj h)
        refine .inr (.inr ⟨.inr rfl, hin, ?_, ?_⟩)
        · simp [Window.Stores, hrst, hb, hcat]
        · simp [Window.restamp, hb, catToBuffer_failed hcat]
  · -- outside the receive window
    obtain ⟨rfl, rfl⟩ := Prod.mk.inj (Option.some.inj h)
    exact .inl ⟨rfl, hin, rfl⟩

/-- A fragment touches the slot of its own sequence number only. -/
theorem windowPutCtx_of_ne {allocated : Bool} {w w' : Window} {ctx : WindowCtx} {e : LErr}
    (h : windowPutCtx allocated w ctx = some (w', e)) {p : ℕ} (hp : p ≠ ctx.pid) :
    w'.items p = w.items p := by
  rcases windowPutCtx_result h with
    ⟨-, -, rfl⟩ | ⟨-, -, -, -, item, -, rfl⟩ | ⟨-, -, -, rfl⟩
  · rfl
  · exact w.storeFragment_of_ne ctx item hp
  · simp [Window.restamp, hp]

/-- Only a number behind the slot array that passes the window test has no result. -/
theorem windowPutCtx_isSome {allocated : Bool} {w : Window} {ctx : WindowCtx}
    (h : w.Accepts ctx.pid → ctx.pid < w.seqSz) : (windowPutCtx allocated w ctx).isSome := by
  unfold windowPutCtx
  split_ifs with hin hpid hrst
  · rfl
  · cases hb : (w.items ctx.pid).buf with
    | none => simp [hb]
    | some buf =>
      simp only [hb]
      split_ifs <;> rfl
  · exact absurd (h hin) hpid
  · rfl

end LdacsSdk
