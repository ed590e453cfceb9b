import LdacsSdk.Window.SendRing

/-!
# What an acknowledgement does

`window_ack_item` accepts by one circular comparison and `window_slide` moves on by another. The
two agree except in three places, which `AckSafe` names: a ring with every slot sent, a wrapped
ring asked about a number outside the slot array, and a wrapped ring whose oldest slot lies no
further than `winSize` ahead of `toSendStart`, where the slide does not start.
-/
namespace LdacsSdk

open Library

/-- Every slot holds an SDU that was sent and has not slid out. -/
def Window.Full (w : Window) : Prop :=
  w.toAckStart = w.toSendStart ∧ w.availSize = w.seqSz ∧ (w.items w.toAckStart).buf ≠ none

/-- The sent range wraps and the slide guard does not see it. -/
def Window.Stuck (w : Window) : Prop :=
  w.toSendStart < w.toAckStart ∧ w.toAckStart ≤ w.toSendStart + w.winSize

/-- The acknowledgement meets neither a full ring nor a stuck one whose oldest SDU is, with it,
acknowledged, and it names a slot of the array. -/
def Window.AckSafe (w : Window) (pid : ℕ) : Prop :=
  (pid < w.seqSz → ¬ w.Full) ∧ (w.toSendStart < w.toAckStart → pid < w.seqSz) ∧
    (InRange w.toAckStart w.toSendStart pid → w.Stuck →
      pid ≠ w.toAckStart ∧ (w.items w.toAckStart).isAck = false)

instance (w : Window) : Decidable w.Full := inferInstanceAs (Decidable (_ ∧ _ ∧ _ ≠ _))

instance (w : Window) : Decidable w.Stuck := inferInstanceAs (Decidable (_ ∧ _))

instance (w : Window) (pid : ℕ) : Decidable (w.AckSafe pid) :=
  inferInstanceAs (Decidable ((_ → _) ∧ (_ → _) ∧ (_ → _ → _ ∧ _)))

namespace SendState

/-- `a` counts the SDUs up to the oldest sent one that is not acknowledged, or all sent ones. -/
def OldestUnacked (s : SendState) (acked : ℕ → Bool) (a : ℕ) : Prop :=
  a ≤ s.sent ∧ (∀ k, k < a → acked k = true) ∧ (a < s.sent → acked a = false)

/-- The acknowledgement is handled exactly: it succeeds for the sequence numbers of the SDUs
sent in full and not slid past and leaves the window alone otherwise, and after a success
`toAckStart` stands at the oldest SDU that is sent and not acknowledged. -/
def AckExact (s : SendState) (pid : ℕ) : Prop :=
  ∃ w e, windowAckItem s.win pid = some (w, e) ∧
    (e = .ldOk ↔ ∃ k, s.slid ≤ k ∧ k < s.sent ∧ k % lap s.win.seqSz = pid) ∧
    (e ≠ .ldOk → e = .ldErrInvalid ∧ w = s.win) ∧
    (e = .ldOk → ∃ a, w.toAckStart = a % lap s.win.seqSz ∧ s.OldestUnacked (s.ackedBy pid) a)

variable {s : SendState} {past : ℕ → UInt8}

theorem Ring.sent_le_lap (h : s.Ring) : s.sent ≤ s.slid + lap s.win.seqSz :=
  h.sentLe.trans h.putsLe

theorem Ring.full_iff (h : s.Ring) : s.win.Full ↔ s.sent = s.slid + lap s.win.seqSz := by
  have hle := h.sent_le_lap
  have hputs := h.putsLe
  have hsent := h.sentLe
  have hpos := h.lapPos
  have havail := h.availEq
  constructor
  · rintro ⟨hidx, hsize, hbuf⟩
    rw [h.ackIndex, h.sendIndex] at hidx
    have hlen : s.puts.length = s.sent := by omega
    by_contra hne
    have heq : s.slid = s.sent := mod_inj_of_lap ⟨le_rfl, by omega⟩ ⟨h.slidLe, by omega⟩ hidx
    have hempty := h.clear (s.slid % lap s.win.seqSz) fun k hk hk' => by omega
    rw [h.ackIndex, hempty] at hbuf
    exact hbuf rfl
  · intro he
    refine ⟨by rw [h.ackIndex, h.sendIndex, he, Nat.add_mod_right], by omega, ?_⟩
    rw [h.ackIndex, (h.held s.slid le_rfl (by omega)).1]
    simp

/-- Where something is sent and not slid past, the slide starts unless the ring is stuck. -/
theorem Ring.sliding_or_stuck (h : s.Ring) (hlt : s.slid < s.sent)
    (hfull : s.sent < s.slid + lap s.win.seqSz) : s.win.Sliding ∨ s.win.Stuck := by
  have hne : s.win.toAckStart ≠ s.win.toSendStart := by
    rw [h.ackIndex, h.sendIndex]
    intro he
    have := mod_inj_of_lap ⟨le_rfl, by omega⟩ ⟨hlt.le, hfull⟩ he
    omega
  unfold Window.Sliding Window.Stuck
  omega

/-- A ring that is stuck after some slots slid out was stuck before. -/
theorem Ring.stuck_of_slid (h : s.Ring) (hfull : s.sent < s.slid + lap s.win.seqSz) {t : SendState}
    (ht : t.Ring) (hsz : t.win.seqSz = s.win.seqSz) (hsent : t.sent = s.sent)
    (hslid : s.slid ≤ t.slid) (hstuck : t.win.Stuck) : s.win.Stuck := by
  obtain ⟨d, hd⟩ := Nat.exists_eq_add_of_le h.slidLe
  obtain ⟨i, hi⟩ := Nat.exists_eq_add_of_le hslid
  have htle := ht.slidLe
  have hwin := h.winEq
  have hwin' := ht.winEq
  have hmod := Nat.mod_lt s.slid h.lapPos
  obtain ⟨hwrap, hnear⟩ := hstuck
  unfold Window.Stuck
  rw [ht.ackIndex, ht.sendIndex, hsz, hsent, hd, hi,
    add_mod_wrap h.lapPos (by omega), add_mod_wrap h.lapPos (by omega)] at hwrap hnear
  rw [h.ackIndex, h.sendIndex, hd, add_mod_wrap h.lapPos (by omega)]
  split_ifs at hwrap hnear ⊢ <;> omega

theorem oldestUnacked_unique {acked : ℕ → Bool} {a b : ℕ}
    (ha : s.OldestUnacked acked a) (hb : s.OldestUnacked acked b) : a = b := by
  by_contra hne
  rcases Nat.lt_or_gt_of_ne hne with hlt | hlt
  · have := ha.2.2 (hlt.trans_le hb.1)
    rw [hb.2.1 a hlt] at this
    exact absurd this (by simp)
  · have := hb.2.2 (hlt.trans_le ha.1)
    rw [ha.2.1 b hlt] at this
    exact absurd this (by simp)

/-- The slot at `toAckStart` shows the acknowledgement of the SDU that stands there. -/
theorem Ring.isAck_head (h : s.Ring) (hlt : s.slid < s.sent) :
    (s.win.items s.win.toAckStart).isAck = s.acked s.slid := by
  rw [h.ackIndex]
  exact (h.held s.slid le_rfl (hlt.trans_le h.sentLe)).2

theorem Ring.ackedBy_head (h : s.Ring) (hlt : s.slid < s.sent) (pid : ℕ) :
    s.ackedBy pid s.slid = false ↔
      pid ≠ s.win.toAckStart ∧ (s.win.items s.win.toAckStart).isAck = false := by
  rw [h.isAck_head hlt, h.ackIndex]
  simp only [ackedBy, Bool.or_eq_false_iff, decide_eq_false_iff_not, hlt, true_and]
  rw [eq_comm (b := pid), and_comm]

/-- A stuck window does not slide. -/
theorem windowSlide_stuck {w : Window} (h : w.Stuck) : windowSlide w = w := by
  have hguard : ¬ w.Sliding := by
    unfold Window.Stuck at h
    unfold Window.Sliding
    omega
  unfold windowSlide
  cases w.seqSz with
  | zero => rfl
  | succ fuel => simp [windowSlideLoop, hguard]

/-- An accepted and safe acknowledgement moves `toAckStart` to the oldest unacknowledged SDU. -/
theorem Ring.oldestUnacked_of_safe (h : s.Ring) {pid a : ℕ} {w : Window} (ha : s.slid ≤ a)
    (hroom : s.sent < s.slid + lap s.win.seqSz) (hw : w.seqSz = s.win.seqSz)
    (hring : Ring { s with win := w, slid := a, acked := s.ackedBy pid })
    (hstop : a < s.sent → s.ackedBy pid a = true → ¬ w.Sliding)
    (hstuck : s.win.Stuck → pid ≠ s.win.toAckStart ∧ (s.win.items s.win.toAckStart).isAck = false) :
    s.OldestUnacked (s.ackedBy pid) a := by
  refine ⟨hring.slidLe, hring.slidAcked, fun hlt => ?_⟩
  by_contra hacked
  have hacked' : s.ackedBy pid a = true := by simpa using hacked
  -- the loop stopped at an acknowledged SDU, so it stopped because the ring is stuck
  have hstuck' : w.Stuck := (hring.sliding_or_stuck hlt (by simp only [hw]; omega)).resolve_left
    (hstop hlt hacked')
  have hs := h.stuck_of_slid hroom hring hw rfl ha hstuck'
  have hhead := (h.ackedBy_head (ha.trans_lt hlt) pid).mpr (hstuck hs)
  rcases Nat.lt_or_eq_of_le ha with hmoved | rfl
  · exact absurd (hring.slidAcked s.slid hmoved) (by simp [hhead])
  · exact hacked hhead

theorem Ring.ackExact_of_safe (h : s.Ring) {pid : Fin 256} (hsafe : s.win.AckSafe pid) :
    s.AckExact pid := by
  obtain ⟨hfull, hpid, hstuck⟩ := hsafe
  by_cases hin : InRange s.win.toAckStart s.win.toSendStart pid
  · have hlt := h.inRange_lt hpid hin
    obtain ⟨w, a, hw, hsz, ha, -, -, hring, hstop⟩ := h.ackAccepted hlt hin
    obtain ⟨hroom, k, hk⟩ := h.accepted hlt hin
    refine ⟨w, .ldOk, hw, ⟨fun _ => ⟨k, hk⟩, fun _ => rfl⟩, fun hne => absurd rfl hne,
      fun _ => ⟨a, ?_, h.oldestUnacked_of_safe ha hroom hsz hring hstop (hstuck hin)⟩⟩
    rw [← hsz]
    exact hring.ackIndex
  · refine ⟨s.win, .ldErrInvalid, by simp [windowAckItem, hin],
      ⟨fun he => absurd he (by decide), ?_⟩, fun _ => ⟨rfl, rfl⟩, fun he => absurd he (by decide)⟩
    rintro ⟨k, hk, hk', hmod⟩
    have hlt : pid < lap s.win.seqSz := hmod ▸ Nat.mod_lt k h.lapPos
    have hle := h.sent_le_lap
    have hroom : s.sent ≠ s.slid + lap s.win.seqSz := fun he =>
      hfull (hlt.trans_le (lap_le _)) (h.full_iff.mpr he)
    exact absurd ((h.accepts_iff (by omega) hlt).mpr ⟨k, hk, hk', hmod⟩) hin

theorem Ring.not_full_of_exact (h : s.Ring) {pid : Fin 256} (hexact : s.AckExact pid)
    (hpid : pid < s.win.seqSz) : ¬ s.win.Full := by
  intro hfull
  have he := h.full_iff.mp hfull
  obtain ⟨w, e, hw, hok, -⟩ := hexact
  have hlap : pid < lap s.win.seqSz := Nat.lt_min.mpr ⟨hpid, pid.isLt⟩
  obtain ⟨k, hk, hk', hmod⟩ := exists_mod_eq_of_lap s.slid hlap
  simp only [windowAckItem, if_neg (h.rejects_full he pid), Option.some.injEq,
    Prod.mk.injEq] at hw
  have := hok.mpr ⟨k, hk, by omega, hmod⟩
  rw [← hw.2] at this
  exact absurd this (by decide)

theorem Ring.inside_of_exact (h : s.Ring) {pid : ℕ} (hexact : s.AckExact pid)
    (hwrap : s.win.toSendStart < s.win.toAckStart) : pid < s.win.seqSz := by
  by_contra hge
  have hack : s.win.toAckStart < lap s.win.seqSz := by
    rw [h.ackIndex]
    exact Nat.mod_lt _ h.lapPos
  have hle := lap_le s.win.seqSz
  have hin : InRange s.win.toAckStart s.win.toSendStart pid := .inr ⟨hwrap, .inl (by omega)⟩
  obtain ⟨w, e, hw, -⟩ := hexact
  simp [windowAckItem, hin, hge] at hw

theorem Ring.head_of_exact (h : s.Ring) {pid : Fin 256} (hexact : s.AckExact pid)
    (hin : InRange s.win.toAckStart s.win.toSendStart pid) (hstuck : s.win.Stuck) :
    pid ≠ s.win.toAckStart ∧ (s.win.items s.win.toAckStart).isAck = false := by
  have hpid := h.inRange_lt (h.inside_of_exact hexact) hin
  obtain ⟨hroom, k, hk, hk', -⟩ := h.accepted hpid hin
  rw [← h.ackedBy_head (by omega)]
  by_contra hacked
  obtain ⟨w, e, hw, hok, -, hold⟩ := hexact
  -- the ring is stuck, so `toAckStart` stays at an SDU that is now acknowledged
  simp only [windowAckItem, if_pos hin, if_pos (hpid.trans_le (lap_le _)), Option.some.injEq,
    Prod.mk.injEq] at hw
  obtain ⟨rfl, rfl⟩ := hw
  obtain ⟨a, hidx, hle, hbelow, hnext⟩ := hold rfl
  have hmoved : s.slid < a := by
    by_contra hge
    have hlt : a < s.sent := by omega
    rcases Nat.lt_or_eq_of_le (Nat.le_of_not_lt hge) with hlow | rfl
    · have := hnext hlt
      simp [ackedBy, h.slidAcked a hlow] at this
    · exact hacked (hnext hlt)
  rw [windowSlide_stuck (by exact hstuck), Window.setItem_toAckStart, h.ackIndex] at hidx
  have := mod_inj_of_lap ⟨le_rfl, by omega⟩ ⟨hmoved.le, by omega⟩ hidx
  omega

/-- In every run whose puts find their slot empty, an acknowledgement with any PID is handled
exactly as it should be if and only if it is safe. -/
theorem ack_exact_iff_safe (past : ℕ → UInt8) (n : ℕ) (hn : 0 < n) (s : SendState)
    (h : Reaches (sendStep past) SafeCall (start n) s) (pid : Fin 256) :
    s.AckExact pid ↔ s.win.AckSafe pid := by
  have hring := ring_of_reaches hn h
  exact ⟨fun hexact => ⟨hring.not_full_of_exact hexact, hring.inside_of_exact hexact,
    hring.head_of_exact hexact⟩, hring.ackExact_of_safe⟩

/-- Two SDUs sent, the second acknowledged before the first. -/
theorem ack_exact_out_of_order : ∃ s, Reaches (sendStep fun _ => 0) SafeCall (start 4) s ∧
    s.win.toAckStart = 0 ∧ s.win.toSendStart = 2 ∧ s.AckExact 1 := by
  obtain ⟨s, hs, hack, hsend, hsafe⟩ : ∃ s, runOps (sendStep fun _ => 0) SafeCall (start 4)
      [.put 0 [1], .put 0 [2], .checkGet 9, .checkGet 9] = some s ∧
      s.win.toAckStart = 0 ∧ s.win.toSendStart = 2 ∧ s.win.AckSafe 1 :=
    ⟨_, rfl, rfl, rfl, by decide⟩
  have hrun := reaches_of_runOps _ hs
  exact ⟨s, hrun, hack, hsend,
    (ack_exact_iff_safe _ 4 (by decide) s hrun 1).mpr hsafe⟩

/-- With both slots of a window sent, the acknowledgement of the first SDU is rejected. -/
theorem ack_rejected_when_full :
    ¬ ∀ (past : ℕ → UInt8) (n : ℕ), 0 < n → ∀ s,
      Reaches (sendStep past) anyOp (start n) s → ∀ pid : Fin 256, s.AckExact pid := by
  intro hall
  obtain ⟨s, hs, hsent, hack⟩ : ∃ s, runOps (sendStep fun _ => 0) anyOp (start 2)
      [.put 0 [1], .checkGet 9, .put 0 [2], .checkGet 9] = some s ∧
      (∃ k, s.slid ≤ k ∧ k < s.sent ∧ k % lap s.win.seqSz = 0) ∧
      (windowAckItem s.win (0 : Fin 256)).map Prod.snd = some .ldErrInvalid :=
    ⟨_, rfl, ⟨0, by decide⟩, rfl⟩
  obtain ⟨w, e, hw, hok, -⟩ := hall (fun _ => 0) 2 (by decide) s
    (reaches_of_runOps _ hs) 0
  rw [hw, hok.mpr hsent] at hack
  simp at hack

end SendState

end LdacsSdk
