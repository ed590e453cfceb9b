import LdacsSdk.Window.Sender
import LdacsSdk.Library.Runs

/-!
# The sender window as a retransmission ring

SDUs are numbered in the order they are put. A run of the sender keeps three unbounded
counters: how many SDUs have slid out, how many have been sent in full, how many have been put.
The 8-bit indices are these counters modulo the number of slots, and the slots between the first
and the last counter hold the SDUs of those numbers, as long as every put finds its slot empty.
-/
namespace LdacsSdk

open Library

/-- The calls on a sender window. -/
inductive SendOp where
  | put (cos : ℕ) (buf : List UInt8)
  | checkGet (availBufSz : ℤ)
  | ack (pid : Fin 256)
  deriving DecidableEq, Repr

/-- A sender window with the history of its run. -/
structure SendState where
  win : Window
  /-- The SDUs put so far, in order. -/
  puts : List (List UInt8) := []
  /-- How many of them have been sent in full. -/
  sent : ℕ := 0
  /-- How many of them have slid out of the window. -/
  slid : ℕ := 0
  /-- Which of them have been acknowledged. -/
  acked : ℕ → Bool := fun _ => false

namespace SendState

def start (seqSize : ℕ) : SendState := { win := initWindow seqSize }

/-- The SDU of number `k`. -/
def sdu (s : SendState) (k : ℕ) : List UInt8 := s.puts.getD k []

/-- An accepted acknowledgement of `pid` acknowledges the SDUs sent under that number. -/
def ackedBy (s : SendState) (pid k : ℕ) : Bool :=
  s.acked k || decide (k < s.sent ∧ k % lap s.win.seqSz = pid)

end SendState

/-- One call. A put that has to wait and a write outside the slot array have no successor. -/
def sendStep (past : ℕ → UInt8) (s : SendState) : SendOp → Option SendState
  | .put cos buf =>
    (windowPut s.win cos buf).map fun r => { s with win := r.1, puts := s.puts ++ [buf] }
  | .checkGet b =>
    let r := windowCheckGet past s.win b
    let last := (r.1.map WindowCtx.isLfr).getD false
    some { s with win := r.2.1, sent := if last then s.sent + 1 else s.sent }
  | .ack pid =>
    (windowAckItem s.win pid).map fun r =>
      if r.2 = .ldOk then
        { s with
          win := r.1
          slid := s.slid + (r.1.toAckStart + lap s.win.seqSz - s.win.toAckStart) % lap s.win.seqSz
          acked := s.ackedBy pid }
      else { s with win := r.1 }

namespace SendState

/-- A put finds its slot empty, and an acknowledgement names a slot of the array wherever the
accept test would let a larger number through. -/
def SafeCall (s : SendState) : SendOp → Prop
  | .put _ _ => s.win.availSize ≠ 0 ∧ (s.win.items s.win.availStart).buf = none
  | .checkGet _ => True
  | .ack pid => s.win.toSendStart < s.win.toAckStart → pid < s.win.seqSz

instance (s : SendState) : (op : SendOp) → Decidable (s.SafeCall op)
  | .put _ _ => inferInstanceAs (Decidable (_ ∧ _))
  | .checkGet _ => inferInstanceAs (Decidable True)
  | .ack _ => inferInstanceAs (Decidable (_ → _))

/-- No SDU is lost: the slots from `toSendStart` up to `availStart` hold the SDUs put there, and
the slot of each SDU that was sent and not acknowledged still holds it. -/
structure Kept (s : SendState) : Prop where
  sendIndex : s.win.toSendStart = s.sent % lap s.win.seqSz
  availIndex : s.win.availStart = s.puts.length % lap s.win.seqSz
  waiting : ∀ k, s.sent ≤ k → k < s.puts.length →
    (s.win.items (k % lap s.win.seqSz)).buf = some (cloneToChunk (s.sdu k))
  unacked : ∀ k, k < s.sent → s.acked k = false →
    (s.win.items (k % lap s.win.seqSz)).buf = some (cloneToChunk (s.sdu k))

/-- The ring invariant of a sender whose puts all found an empty slot. -/
structure Ring (s : SendState) : Prop where
  seqPos : 0 < s.win.seqSz
  winEq : s.win.winSize = s.win.seqSz / 2
  slidLe : s.slid ≤ s.sent
  sentLe : s.sent ≤ s.puts.length
  putsLe : s.puts.length ≤ s.slid + lap s.win.seqSz
  ackIndex : s.win.toAckStart = s.slid % lap s.win.seqSz
  sendIndex : s.win.toSendStart = s.sent % lap s.win.seqSz
  availIndex : s.win.availStart = s.puts.length % lap s.win.seqSz
  availEq : s.win.availSize + s.puts.length = s.win.seqSz + s.sent
  held : ∀ k, s.slid ≤ k → k < s.puts.length →
    (s.win.items (k % lap s.win.seqSz)).buf = some (cloneToChunk (s.sdu k)) ∧
      (s.win.items (k % lap s.win.seqSz)).isAck = s.acked k
  clear : ∀ i, (∀ k, s.slid ≤ k → k < s.puts.length → k % lap s.win.seqSz ≠ i) →
    s.win.items i = {}
  ackedSent : ∀ k, s.acked k = true → k < s.sent
  slidAcked : ∀ k, k < s.slid → s.acked k = true

variable {s t : SendState} {past : ℕ → UInt8}

theorem Ring.lapPos (h : s.Ring) : 0 < lap s.win.seqSz := lap_pos h.seqPos

/-- The slot the code reads at `toSendStart` is that of the oldest SDU not sent in full. -/
theorem Ring.sendSlot (h : s.Ring) :
    s.win.toSendStart % s.win.seqSz = s.sent % lap s.win.seqSz := by
  rw [h.sendIndex]
  exact Nat.mod_eq_of_lt ((Nat.mod_lt _ h.lapPos).trans_le (lap_le _))

theorem Ring.kept (h : s.Ring) : s.Kept where
  sendIndex := h.sendIndex
  availIndex := h.availIndex
  waiting k hk hk' := (h.held k (h.slidLe.trans hk) hk').1
  unacked k hk hack := by
    have hslid : s.slid ≤ k := by
      by_contra hlt
      simp [h.slidAcked k (by omega)] at hack
    exact (h.held k hslid (hk.trans_le h.sentLe)).1

theorem ring_start {n : ℕ} (hn : 0 < n) : (start n).Ring := by
  constructor <;> simp [start, initWindow, emptyWindow, hn]

/-- Two SDUs in the ring share a slot only when they are the same. -/
theorem Ring.slot_inj (h : s.Ring) {j k : ℕ} (hj : s.slid ≤ j) (hj' : j < s.slid + lap s.win.seqSz)
    (hk : s.slid ≤ k) (hk' : k < s.puts.length)
    (he : j % lap s.win.seqSz = k % lap s.win.seqSz) : j = k :=
  mod_inj_of_lap ⟨hj, hj'⟩ ⟨hk, hk'.trans_le h.putsLe⟩ he

/-- The slot of the next put is empty exactly when the ring is not full. -/
theorem Ring.room (h : s.Ring) (hfree : (s.win.items s.win.availStart).buf = none) :
    s.puts.length < s.slid + lap s.win.seqSz := by
  by_contra hlt
  have hlen : s.puts.length = s.slid + lap s.win.seqSz := by have := h.putsLe; omega
  have hpos := h.lapPos
  have hheld := (h.held s.slid le_rfl (by omega)).1
  rw [h.availIndex, hlen, Nat.add_mod_right, hheld] at hfree
  exact absurd hfree (by simp)

theorem sdu_append_of_lt {buf : List UInt8} {k : ℕ} (hk : k < s.puts.length) :
    (s.puts ++ [buf]).getD k [] = s.sdu k := by
  simp [sdu, List.getElem?_append_left hk]

theorem Ring.put (h : s.Ring) {cos : ℕ} {buf : List UInt8} (hsafe : s.SafeCall (.put cos buf))
    (hs : sendStep past s (.put cos buf) = some t) : t.Ring := by
  have hroom := h.room hsafe.2
  have havail := h.availEq
  simp only [sendStep, windowPut, if_neg hsafe.1, Option.map_some, Option.some.injEq] at hs
  subst hs
  have hne : ∀ k, s.slid ≤ k → k < s.puts.length →
      k % lap s.win.seqSz ≠ s.puts.length % lap s.win.seqSz := fun k hk hk' he =>
    absurd (h.slot_inj (by omega) hroom hk hk' he.symm) (by omega)
  refine ⟨h.seqPos, h.winEq, h.slidLe, ?_, ?_, h.ackIndex, h.sendIndex, ?_, ?_, ?_, ?_,
    h.ackedSent, h.slidAcked⟩
  · simpa using h.sentLe.trans (Nat.le_succ _)
  · simpa using hroom
  · simp only [List.length_append, List.length_singleton, Window.setItem_seqSz]
    rw [h.availIndex]
    exact next_index h.seqPos _
  · have := hsafe.1
    simp only [List.length_append, List.length_singleton, Window.setItem_seqSz]
    omega
  · intro k hk hk'
    simp only [List.length_append, List.length_singleton] at hk'
    simp only [Window.setItem_items, Window.setItem_seqSz, sdu, h.availIndex]
    rcases Nat.lt_succ_iff_lt_or_eq.mp hk' with hlast | rfl
    · rw [Function.update_of_ne (hne k hk hlast), sdu_append_of_lt hlast]
      exact h.held k hk hlast
    · have hunacked : s.acked s.puts.length = false := by
        by_contra hack
        have := h.ackedSent _ (by simpa using hack)
        have := h.sentLe
        omega
      simp [hunacked]
  · intro i hi
    simp only [Window.setItem_items, Window.setItem_seqSz, List.length_append,
      List.length_singleton, h.availIndex] at hi ⊢
    have hslot := hi s.puts.length (h.slidLe.trans h.sentLe) (Nat.lt_succ_self _)
    rw [Function.update_of_ne (Ne.symm hslot)]
    exact h.clear i fun k hk hk' => hi k hk (by omega)

/-- An update of one slot that keeps its buffer and its acknowledgement keeps the ring. -/
theorem Ring.setOffset (h : s.Ring) {k : ℕ} (hk : s.slid ≤ k) (hk' : k < s.puts.length)
    (offset : ℕ) : Ring { s with
      win := s.win.setItem (k % lap s.win.seqSz)
        { s.win.items (k % lap s.win.seqSz) with offset := offset } } := by
  refine ⟨h.seqPos, h.winEq, h.slidLe, h.sentLe, h.putsLe, h.ackIndex, h.sendIndex,
    h.availIndex, h.availEq, ?_, ?_, h.ackedSent, h.slidAcked⟩
  · intro j hj hj'
    simp only [Window.setItem_items, Window.setItem_seqSz]
    by_cases he : j % lap s.win.seqSz = k % lap s.win.seqSz
    · rw [he, Function.update_self, ← he]
      exact h.held j hj hj'
    · rw [Function.update_of_ne he]
      exact h.held j hj hj'
  · intro i hi
    have hslot : i ≠ k % lap s.win.seqSz := (hi k hk hk').symm
    simp only [Window.setItem_items]
    rw [Function.update_of_ne hslot]
    exact h.clear i hi

/-- One more SDU has left in full. -/
theorem Ring.advanceSent (h : s.Ring) (hlt : s.sent < s.puts.length) : Ring { s with
    win := { s.win with
      toSendStart := u8 ((s.win.toSendStart + 1) % s.win.seqSz)
      availSize := s.win.availSize + 1 }
    sent := s.sent + 1 } := by
  have havail := h.availEq
  refine ⟨h.seqPos, h.winEq, h.slidLe.trans (Nat.le_succ _), hlt, h.putsLe, h.ackIndex,
    ?_, h.availIndex, ?_, h.held, h.clear, ?_, h.slidAcked⟩
  · simp only [h.sendIndex]
    exact next_index h.seqPos _
  · simp only
    omega
  · intro k hk
    exact (h.ackedSent k hk).trans (Nat.lt_succ_self _)

/-- What the ring sends next is the oldest SDU that has not been sent in full. -/
theorem Ring.sending (h : s.Ring) {buf : Buffer} (hs : s.win.Sending buf) :
    s.sent < s.puts.length ∧ buf = cloneToChunk (s.sdu s.sent) := by
  have havail := h.availEq
  have hle := h.sentLe
  have hlt : s.sent < s.puts.length := by
    have := hs.2
    omega
  refine ⟨hlt, ?_⟩
  have hheld := (h.held s.sent h.slidLe hlt).1
  have hbuf := hs.1
  rw [h.sendSlot, hheld] at hbuf
  exact (Option.some.inj hbuf).symm

theorem Ring.checkGet (h : s.Ring) {b : ℤ} (hs : sendStep past s (.checkGet b) = some t) :
    t.Ring := by
  simp only [sendStep, Option.some.injEq] at hs
  subst hs
  by_cases hsend : ∃ buf, s.win.Sending buf
  · obtain ⟨buf, hbuf⟩ := hsend
    obtain ⟨hlt, -⟩ := h.sending hbuf
    by_cases hb : buf.len ≤ u64 b
    · rw [windowCheckGet_whole hbuf hb]
      simp only [Option.map_some, Option.getD_some, if_true, Window.sentWhole, h.sendSlot]
      exact (h.setOffset h.slidLe hlt _).advanceSent hlt
    · rw [windowCheckGet_part hbuf hb]
      simp only [Option.map_some, Option.getD_some, Bool.false_eq_true, if_false,
        Window.sentPart, h.sendSlot]
      exact h.setOffset h.slidLe hlt _
  · rw [windowCheckGet_idle (not_exists.mp hsend)]
    simpa using h

/-- Marking the slot of a sent SDU as acknowledged. -/
theorem Ring.setAck (h : s.Ring) {k : ℕ} (hk : s.slid ≤ k) (hk' : k < s.sent) :
    Ring { s with
      win := s.win.setItem (k % lap s.win.seqSz)
        { s.win.items (k % lap s.win.seqSz) with isAck := true }
      acked := s.ackedBy (k % lap s.win.seqSz) } := by
  have hput : k < s.puts.length := hk'.trans_le h.sentLe
  refine ⟨h.seqPos, h.winEq, h.slidLe, h.sentLe, h.putsLe, h.ackIndex, h.sendIndex,
    h.availIndex, h.availEq, ?_, ?_, ?_, ?_⟩
  · intro j hj hj'
    simp only [Window.setItem_items, Window.setItem_seqSz]
    by_cases he : j % lap s.win.seqSz = k % lap s.win.seqSz
    · have hjk : j = k := h.slot_inj hj (hj'.trans_le h.putsLe) hk hput he
      subst hjk
      rw [Function.update_self]
      exact ⟨(h.held j hj hj').1, by simp [ackedBy, hk']⟩
    · rw [Function.update_of_ne he]
      exact ⟨(h.held j hj hj').1, by simpa [ackedBy, he] using (h.held j hj hj').2⟩
  · intro i hi
    have hslot : i ≠ k % lap s.win.seqSz := (hi k hk hput).symm
    simp only [Window.setItem_items]
    rw [Function.update_of_ne hslot]
    exact h.clear i hi
  · intro j hj
    simp only [ackedBy, Bool.or_eq_true, decide_eq_true_eq] at hj
    exact hj.elim (h.ackedSent j) And.left
  · intro j hj
    simp [ackedBy, h.slidAcked j hj]

/-- The slot at `toAckStart` is acknowledged only if an SDU that was sent stands there. -/
theorem Ring.acked_of_isAck (h : s.Ring) (hack : (s.win.items s.win.toAckStart).isAck = true) :
    s.slid < s.sent ∧ s.acked s.slid = true := by
  have hput : s.slid < s.puts.length := by
    by_contra hlt
    have hempty := h.clear (s.slid % lap s.win.seqSz) fun k hk hk' => absurd (hk.trans_lt hk') hlt
    rw [h.ackIndex, hempty] at hack
    exact absurd hack (by simp)
  have hacked : s.acked s.slid = true := by
    rw [← (h.held s.slid le_rfl hput).2, ← h.ackIndex]
    exact hack
  exact ⟨h.ackedSent _ hacked, hacked⟩

theorem Ring.slideOne (h : s.Ring) (hack : (s.win.items s.win.toAckStart).isAck = true) :
    Ring { s with win := s.win.slideOne, slid := s.slid + 1 } := by
  obtain ⟨hlt, hacked⟩ := h.acked_of_isAck hack
  have hputs := h.putsLe
  refine ⟨h.seqPos, h.winEq, hlt, h.sentLe, ?_, ?_, h.sendIndex, h.availIndex,
    h.availEq, ?_, ?_, h.ackedSent, ?_⟩
  · simp only [Window.slideOne, Window.setItem_seqSz]
    omega
  · simp only [Window.slideOne, h.ackIndex]
    exact next_index h.seqPos _
  · intro k hk hk'
    change s.slid + 1 ≤ k at hk
    change k < s.puts.length at hk'
    have hne : k % lap s.win.seqSz ≠ s.slid % lap s.win.seqSz := fun he =>
      absurd (h.slot_inj (by omega) (by omega) le_rfl (hlt.trans_le h.sentLe) he) (by omega)
    simp only [Window.slideOne, Window.setItem_items, Window.setItem_seqSz, h.ackIndex]
    rw [Function.update_of_ne hne]
    exact h.held k (by omega) hk'
  · intro i hi
    simp only [Window.slideOne, Window.setItem_items, Window.setItem_seqSz, h.ackIndex] at hi ⊢
    by_cases he : i = s.slid % lap s.win.seqSz
    · rw [he, Function.update_self]
    · rw [Function.update_of_ne he]
      refine h.clear i fun k hk hk' => ?_
      rcases Nat.lt_or_eq_of_le hk with hgt | rfl
      · exact hi k hgt hk'
      · exact Ne.symm he
  · intro k hk
    rcases Nat.lt_succ_iff_lt_or_eq.mp hk with hlt' | rfl
    · exact h.slidAcked k hlt'
    · exact hacked

/-- The slide loop moves on to some SDU not beyond those sent, and with enough fuel it stops
only where its guard or the acknowledgement fails. -/
theorem Ring.slideLoop (h : s.Ring) (fuel : ℕ) : ∃ a, s.slid ≤ a ∧ a ≤ s.sent ∧
    Ring { s with win := windowSlideLoop fuel s.win, slid := a } ∧
    (s.sent ≤ s.slid + fuel → a < s.sent → s.acked a = true →
      ¬ (windowSlideLoop fuel s.win).Sliding) := by
  induction fuel generalizing s with
  | zero =>
    refine ⟨s.slid, le_rfl, h.slidLe, h, fun hfuel hlt => ?_⟩
    omega
  | succ fuel ih =>
    unfold windowSlideLoop
    split_ifs with hgo
    · obtain ⟨a, ha, ha', hring, hstop⟩ := ih (h.slideOne hgo.2)
      exact ⟨a, by simp only at ha; omega, ha', hring, fun hfuel =>
        hstop (by simp only; omega)⟩
    · refine ⟨s.slid, le_rfl, h.slidLe, h, fun _ hlt hacked hslide => hgo ⟨hslide, ?_⟩⟩
      rw [h.ackIndex, (h.held s.slid le_rfl (hlt.trans_le h.sentLe)).2]
      exact hacked

/-- The accept test lets through exactly the PIDs of SDUs sent and not slid past, as long as
these are fewer than the slots. -/
theorem Ring.accepts_iff (h : s.Ring) (hfull : s.sent < s.slid + lap s.win.seqSz) {pid : ℕ}
    (hpid : pid < lap s.win.seqSz) : InRange s.win.toAckStart s.win.toSendStart pid ↔
      ∃ k, s.slid ≤ k ∧ k < s.sent ∧ k % lap s.win.seqSz = pid := by
  obtain ⟨d, hd⟩ := Nat.exists_eq_add_of_le h.slidLe
  rw [h.ackIndex, h.sendIndex, hd]
  exact inRange_iff (by omega) hpid

/-- With every slot sent and not slid past, the accept test rejects every PID. -/
theorem Ring.rejects_full (h : s.Ring) (hfull : s.sent = s.slid + lap s.win.seqSz) (pid : ℕ) :
    ¬ InRange s.win.toAckStart s.win.toSendStart pid := by
  rw [h.ackIndex, h.sendIndex, hfull, Nat.add_mod_right]
  unfold InRange
  omega

/-- The accept test lets no number outside the slot array through, except in a wrapped ring. -/
theorem Ring.inRange_lt (h : s.Ring) {pid : Fin 256}
    (hpid : s.win.toSendStart < s.win.toAckStart → pid < s.win.seqSz)
    (hin : InRange s.win.toAckStart s.win.toSendStart pid) : pid < lap s.win.seqSz := by
  have hsend : s.win.toSendStart < lap s.win.seqSz := by
    rw [h.sendIndex]
    exact Nat.mod_lt _ h.lapPos
  rcases hin with ⟨-, hlt⟩ | ⟨hwrap, -⟩
  · exact hlt.trans hsend
  · exact Nat.lt_min.mpr ⟨hpid hwrap, pid.isLt⟩

/-- An accepted PID names an SDU that was sent and has not slid out. -/
theorem Ring.accepted (h : s.Ring) {pid : ℕ} (hpid : pid < lap s.win.seqSz)
    (hin : InRange s.win.toAckStart s.win.toSendStart pid) :
    s.sent < s.slid + lap s.win.seqSz ∧
      ∃ k, s.slid ≤ k ∧ k < s.sent ∧ k % lap s.win.seqSz = pid := by
  have hle : s.sent ≤ s.slid + lap s.win.seqSz := h.sentLe.trans h.putsLe
  have hlt : s.sent < s.slid + lap s.win.seqSz := by
    refine lt_of_le_of_ne hle fun he => h.rejects_full he pid hin
  exact ⟨hlt, (h.accepts_iff hlt hpid).mp hin⟩

/-- What an accepted acknowledgement does to the ring. -/
theorem Ring.ackAccepted (h : s.Ring) {pid : ℕ} (hpid : pid < lap s.win.seqSz)
    (hin : InRange s.win.toAckStart s.win.toSendStart pid) : ∃ w a,
    windowAckItem s.win pid = some (w, .ldOk) ∧ w.seqSz = s.win.seqSz ∧ s.slid ≤ a ∧ a ≤ s.sent ∧
    s.slid + (w.toAckStart + lap s.win.seqSz - s.win.toAckStart) % lap s.win.seqSz = a ∧
    Ring { s with win := w, slid := a, acked := s.ackedBy pid } ∧
    (a < s.sent → s.ackedBy pid a = true → ¬ w.Sliding) := by
  obtain ⟨hlt, k, hk, hk', rfl⟩ := h.accepted hpid hin
  obtain ⟨a, ha, ha', hring, hstop⟩ := (h.setAck hk hk').slideLoop s.win.seqSz
  have hw : windowAckItem s.win (k % lap s.win.seqSz) =
      some (windowSlide (s.win.setItem (k % lap s.win.seqSz)
        { s.win.items (k % lap s.win.seqSz) with isAck := true }), .ldOk) := by
    simp only [windowAckItem, if_pos hin, if_pos (hpid.trans_le (lap_le _))]
  have hle := lap_le s.win.seqSz
  refine ⟨_, a, hw, windowSlideLoop_seqSz _ _, ha, ha', ?_, hring, hstop (by simp only; omega)⟩
  obtain ⟨d, rfl⟩ := Nat.exists_eq_add_of_le ha
  have hidx := hring.ackIndex
  simp only [windowSlideLoop_seqSz, Window.setItem_seqSz] at hidx
  simp only [windowSlide, Window.setItem_seqSz]
  rw [hidx, h.ackIndex, mod_distance (by simp only at ha'; omega)]

theorem Ring.ack (h : s.Ring) {pid : Fin 256} (hs : sendStep past s (.ack pid) = some t) :
    t.Ring := by
  simp only [sendStep, Option.map_eq_some_iff] at hs
  obtain ⟨⟨w, e⟩, hack, rfl⟩ := hs
  by_cases hin : InRange s.win.toAckStart s.win.toSendStart pid
  · have hpid : pid < s.win.seqSz := by
      by_contra hge
      simp [windowAckItem, hin, hge] at hack
    obtain ⟨w', a, hw, -, -, -, hslid, hring, -⟩ :=
      h.ackAccepted (Nat.lt_min.mpr ⟨hpid, pid.isLt⟩) hin
    rw [hw] at hack
    obtain ⟨rfl, rfl⟩ := Prod.mk.inj (Option.some.inj hack)
    simpa [hslid] using hring
  · simp only [windowAckItem, if_neg hin, Option.some.injEq, Prod.mk.injEq] at hack
    obtain ⟨rfl, rfl⟩ := hack
    simpa using h

/-- Every safe call keeps the ring. -/
theorem Ring.step (h : s.Ring) {op : SendOp} (hsafe : s.SafeCall op)
    (hs : sendStep past s op = some t) : t.Ring := by
  cases op with
  | put cos buf => exact h.put hsafe hs
  | checkGet b => exact h.checkGet hs
  | ack pid => exact h.ack hs

/-- A safe call is carried out: it does not wait and touches no slot outside the array. -/
theorem Ring.enabled (h : s.Ring) (past : ℕ → UInt8) {op : SendOp} (hsafe : s.SafeCall op) :
    ∃ t, sendStep past s op = some t := by
  cases op with
  | put cos buf => exact ⟨_, by simp only [sendStep, windowPut, if_neg hsafe.1]; rfl⟩
  | checkGet b => exact ⟨_, rfl⟩
  | ack pid =>
    by_cases hin : InRange s.win.toAckStart s.win.toSendStart pid
    · obtain ⟨w, a, hw, -⟩ := h.ackAccepted (h.inRange_lt hsafe hin) hin
      exact ⟨_, by simp only [sendStep, hw]; rfl⟩
    · exact ⟨_, by simp only [sendStep, windowAckItem, if_neg hin]; rfl⟩

theorem ring_of_reaches {n : ℕ} (hn : 0 < n)
    (h : Reaches (sendStep past) SafeCall (start n) s) : s.Ring :=
  h.invariant (ring_start hn) fun _ _ _ hring hsafe hs => hring.step hsafe hs

/-- In every run whose puts find their slot empty and whose acknowledgements stay inside the
slot array, the sender loses no SDU, and no such call fails to be carried out. -/
theorem sender_keeps_every_sdu (past : ℕ → UInt8) (n : ℕ) (hn : 0 < n) (s : SendState)
    (h : Reaches (sendStep past) SafeCall (start n) s) :
    s.Kept ∧ ∀ op, s.SafeCall op → ∃ t, sendStep past s op = some t ∧ t.Kept := by
  have hring := ring_of_reaches hn h
  refine ⟨hring.kept, fun op hsafe => ?_⟩
  obtain ⟨t, ht⟩ := hring.enabled past hsafe
  exact ⟨t, ht, (hring.step hsafe ht).kept⟩

/-- One SDU put, sent and followed by another put. -/
theorem sender_keeps_put_send_put : ∃ s,
    Reaches (sendStep fun _ => 0) SafeCall (start 2) s ∧ s.puts = [[7], [8]] ∧ s.sent = 1 ∧
      s.Kept := by
  obtain ⟨s, hs, hputs, hsent⟩ : ∃ s, runOps (sendStep fun _ => 0) SafeCall (start 2)
      [.put 0 [7], .checkGet 9, .put 0 [8]] = some s ∧ s.puts = [[7], [8]] ∧ s.sent = 1 :=
    ⟨_, rfl, rfl, rfl⟩
  have hrun := reaches_of_runOps _ hs
  exact ⟨s, hrun, hputs, hsent,
    (sender_keeps_every_sdu _ 2 (by decide) s hrun).1⟩

/-- With two slots, a third put after two SDUs were sent finds free room counted, though the
first of them is not acknowledged, and overwrites it. -/
theorem put_overwrites_unacknowledged :
    ¬ ∀ (past : ℕ → UInt8) (n : ℕ), 0 < n → n ≤ 256 → ∀ s,
      Reaches (sendStep past) anyOp (start n) s → s.Kept := by
  intro hall
  obtain ⟨s, hs, hsent, hacked, hslot⟩ : ∃ s,
      runOps (sendStep fun _ => 0) anyOp (start 2)
        [.put 0 [1], .checkGet 9, .put 0 [2], .checkGet 9, .put 0 [3]] = some s ∧
      0 < s.sent ∧ s.acked 0 = false ∧
      (s.win.items (0 % lap s.win.seqSz)).buf ≠ some (cloneToChunk (s.sdu 0)) :=
    ⟨_, rfl, by decide, by decide, by decide⟩
  have hkept := hall (fun _ => 0) 2 (by decide) (by decide) s (reaches_of_runOps _ hs)
  exact hslot (hkept.unacked 0 hsent hacked)

end SendState

end LdacsSdk
