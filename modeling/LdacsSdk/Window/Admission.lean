import LdacsSdk.Window.Delivery

/-!
# What the receiver window lets in

The window test of `window_put_ctx` compares 8-bit numbers. Where the window runs up to the end of
the slot array it is the test modulo the number of slots; where it wraps past the end its upper
part has no bound, so that every number behind the array is let in. A fragment that is let in and
cannot be stored leaves its offset and its class in the slot.
-/
namespace LdacsSdk

open Library

/-- The sequence number is one of the `win_size` next ones, counted round the slot array. -/
def Window.InWindow (w : Window) (pid : ℕ) : Prop :=
  pid < w.seqSz ∧ ((pid : ℤ) - w.toRecvStart) % w.seqSz < w.winSize

instance (w : Window) : DecidablePred w.InWindow := fun _ => inferInstanceAs (Decidable (_ ∧ _))

/-- A window of `n` slots that receives. -/
structure Window.Receiving (n : ℕ) (w : Window) : Prop where
  seqEq : w.seqSz = n
  winEq : w.winSize = n / 2
  startLt : w.toRecvStart < n

namespace Window

variable {n : ℕ} {w w' : Window}

theorem receiving_initWindow (hn : 0 < n) : (initWindow n).Receiving n := ⟨rfl, rfl, hn⟩

theorem Receiving.setItem (h : w.Receiving n) (i : ℕ) (item : WindowItem) :
    (w.setItem i item).Receiving n := ⟨h.seqEq, h.winEq, h.startLt⟩

theorem Receiving.recvOne (h : w.Receiving n) : w.recvOne.Receiving n := by
  refine ⟨h.seqEq, h.winEq, ?_⟩
  have hlt := Nat.mod_lt (w.toRecvStart + 1) (Nat.zero_lt_of_lt h.startLt)
  have hle : u8 ((w.toRecvStart + 1) % w.seqSz) ≤ (w.toRecvStart + 1) % w.seqSz := Nat.mod_le _ _
  rw [← h.seqEq] at hlt ⊢
  exact hle.trans_lt hlt

theorem Receiving.slide (h : w.Receiving n) (fuel : ℕ) :
    (windowInSlide fuel w).1.Receiving n := by
  induction fuel generalizing w with
  | zero => exact h
  | succ fuel ih =>
    unfold windowInSlide
    split_ifs
    · exact ih h.recvOne
    · exact h

theorem Receiving.scanned (h : w.Receiving n) : w.scanned.Receiving n := by
  unfold Window.scanned
  cases w.readySlot with
  | none => exact h
  | some p => exact ⟨h.seqEq, h.winEq, h.startLt⟩

/-- A fragment leaves the indices and sizes of the window as they are. -/
theorem Receiving.putCtx (h : w.Receiving n) {allocated : Bool} {ctx : WindowCtx} {e : LErr}
    (hput : windowPutCtx allocated w ctx = some (w', e)) : w'.Receiving n := by
  rcases windowPutCtx_result hput with
    ⟨-, -, rfl⟩ | ⟨-, -, -, -, item, -, rfl⟩ | ⟨-, -, -, rfl⟩
  · exact h
  · exact ⟨h.seqEq, h.winEq, h.startLt⟩
  · exact h.setItem _ _

/-- Inside the slot array the window test is exact. -/
theorem Receiving.accepts_iff (h : w.Receiving n) (h256 : n ≤ 256) {pid : ℕ} (hpid : pid < n) :
    w.Accepts pid ↔ w.InWindow pid := by
  have hend := Nat.mod_lt (w.toRecvStart + w.winSize) (Nat.zero_lt_of_lt h.startLt)
  unfold Accepts InWindow
  rw [h.seqEq, u8_of_lt (by omega),
    inRange_iff_emod h.startLt (by have := h.winEq; omega) hpid]
  exact (and_iff_right hpid).symm

/-- Behind the slot array the window test lets in every 8-bit number if the window wraps past the
end of the array, and none if it does not. -/
theorem Receiving.accepts_behind (h : w.Receiving n) (h256 : n ≤ 256) {pid : ℕ} (hpid : n ≤ pid) :
    w.Accepts pid ↔ n ≤ w.toRecvStart + w.winSize := by
  have hlt := h.startLt
  have hwin := h.winEq
  have hend := Nat.mod_lt (w.toRecvStart + w.winSize) (Nat.zero_lt_of_lt hlt)
  unfold Accepts InRange
  rw [h.seqEq, u8_of_lt (by omega), add_mod_wrap (by omega) (by omega), Nat.mod_eq_of_lt hlt]
  split_ifs <;> omega

/-- The window test lets in the numbers of the window and no other, so that a fragment that passes
it goes to a slot of the array, and one that does not is refused. -/
structure AdmitsExactly (w : Window) (pid : ℕ) : Prop where
  accepts_iff : w.Accepts pid ↔ w.InWindow pid
  stored : ∀ allocated ctx, ctx.pid = pid → (windowPutCtx allocated w ctx).isSome
  refused : ∀ allocated ctx, ctx.pid = pid → ¬w.InWindow pid →
    windowPutCtx allocated w ctx = some (w, .ldErrInvalid)

theorem admitsExactly_of_iff {pid : ℕ} (h : w.Accepts pid ↔ w.InWindow pid) :
    w.AdmitsExactly pid := by
  refine ⟨h, ?_, ?_⟩
  · rintro allocated ctx rfl
    exact windowPutCtx_isSome fun hin => (h.mp hin).1
  · rintro allocated ctx rfl hout
    exact windowPutCtx_reject ctx (mt h.mp hout) allocated

end Window

namespace RecvState

theorem receiving_of_reaches {n : ℕ} (hn : 0 < n) {s : RecvState}
    (h : Reaches recvStep anyOp (start n) s) : s.win.Receiving n := by
  apply h.invariant (P := fun s => s.win.Receiving n) (Window.receiving_initWindow hn)
  intro s op t hs _ hstep
  cases op with
  | putCtx allocated ctx =>
    obtain ⟨⟨w, e⟩, hput, rfl⟩ := Option.map_eq_some_iff.mp hstep
    exact hs.putCtx hput
  | inGet =>
    obtain rfl := Option.some.inj hstep
    exact hs.scanned.slide _

/-- **Admission to the receive window.** In every state of a receiver of up to 256 slots the window
test is exact for an 8-bit sequence number if and only if the number is one of a slot, or the
window does not reach the end of the slot array. -/
theorem admission_exact_iff (n : ℕ) (hn : 0 < n) (h256 : n ≤ 256) (s : RecvState)
    (h : Reaches recvStep anyOp (start n) s) (pid : UInt8) :
    s.win.AdmitsExactly pid.toNat ↔
      pid.toNat < s.win.seqSz ∨ s.win.toRecvStart + s.win.winSize < s.win.seqSz := by
  have hw := receiving_of_reaches hn h
  rw [hw.seqEq]
  constructor
  · intro hexact
    by_contra hboth
    obtain ⟨hbehind, hwraps⟩ := not_or.mp hboth
    have hin := (hw.accepts_behind h256 (not_lt.mp hbehind)).mpr (not_lt.mp hwraps)
    exact hbehind (hw.seqEq ▸ (hexact.accepts_iff.mp hin).1)
  · intro hcond
    apply Window.admitsExactly_of_iff
    rcases Nat.lt_or_ge pid.toNat n with hpid | hpid
    · exact hw.accepts_iff h256 hpid
    · rw [hw.accepts_behind h256 hpid]
      have hlt := hcond.resolve_left (not_lt.mpr hpid)
      refine iff_of_false (not_le.mpr hlt) fun hin => ?_
      have := hw.seqEq ▸ hin.1
      omega

/-- A window of four slots that stands at slot 3 and wraps to slot 0, and the number of slot 0. -/
theorem admission_exact_wrapped : ∃ s, Reaches recvStep anyOp (start 4) s ∧
    s.win.toRecvStart = 3 ∧ (s.win.AdmitsExactly 0 ↔ 0 < s.win.seqSz ∨
      s.win.toRecvStart + s.win.winSize < s.win.seqSz) := by
  obtain ⟨s, hs, hstart⟩ : ∃ s, runOps recvStep anyOp (start 4)
      [.putCtx true (wholeCtx 0 [7]), .inGet, .putCtx true (wholeCtx 1 [8]), .inGet,
        .putCtx true (wholeCtx 2 [9]), .inGet] = some s ∧ s.win.toRecvStart = 3 := ⟨_, rfl, rfl⟩
  have hrun := reaches_of_runOps _ hs
  exact ⟨s, hrun, hstart, admission_exact_iff 4 (by decide) (by decide) s hrun 0⟩

/-- A window of four slots that stands at slot 2: sequence number 9 passes the test and is written
behind the array. -/
theorem number_behind_array_accepted : ∃ s, runOps recvStep anyOp (start 4)
    [.putCtx true (wholeCtx 0 [7]), .inGet, .putCtx true (wholeCtx 1 [8]), .inGet] = some s ∧
    s.win.Accepts 9 ∧ ¬s.win.InWindow 9 ∧ windowPutCtx true s.win (wholeCtx 9 [1]) = none ∧
    ¬s.win.AdmitsExactly 9 := by
  refine ⟨_, rfl, by decide, by decide, rfl, ?_⟩
  intro hexact
  exact absurd (hexact.accepts_iff.mp (by decide)) (by decide)

end RecvState

/-! ### Fragments that are not stored -/

namespace Window

variable {w : Window} {ctx : WindowCtx}

/-- The slot of the fragment holds the fragment's offset and class already. -/
def Stamped (w : Window) (ctx : WindowCtx) : Prop :=
  (w.items ctx.pid).offset = u8 ctx.offset ∧ (w.items ctx.pid).cos = ctx.cos

instance (w : Window) (ctx : WindowCtx) : Decidable (w.Stamped ctx) :=
  inferInstanceAs (Decidable (_ ∧ _))

theorem restamp_eq_iff : w.restamp ctx = w ↔ w.Stamped ctx := by
  constructor
  · intro h
    have hslot : (w.restamp ctx).items ctx.pid = w.items ctx.pid := by rw [h]
    simp only [restamp, setItem_items, Function.update_self] at hslot
    exact ⟨(congrArg WindowItem.offset hslot).symm, (congrArg WindowItem.cos hslot).symm⟩
  · rintro ⟨hoffset, hcos⟩
    simp [restamp, setItem, ← hoffset, ← hcos]

end Window

/-- **Fragments that are not stored.** The window is as it was after an error if and only if the
fragment was refused by the window test or its slot held its offset and class already. -/
theorem rejected_unchanged_iff (allocated : Bool) (w w' : Window) (ctx : WindowCtx) (e : LErr)
    (h : windowPutCtx allocated w ctx = some (w', e)) (he : e ≠ .ldOk) :
    w' = w ↔ ¬w.Accepts ctx.pid ∨ w.Stamped ctx := by
  rcases windowPutCtx_result h with ⟨-, hout, rfl⟩ | ⟨hok, -⟩ | ⟨-, hin, -, rfl⟩
  · exact iff_of_true rfl (.inl hout)
  · exact absurd hok he
  · rw [Window.restamp_eq_iff]
    exact (or_iff_right (not_not.mpr hin)).symm

/-- The last fragment of an SDU that never began. -/
def strayCtx (pid cos : ℕ) : WindowCtx := ⟨cloneToChunk [5], pid, cos, 2, false, true⟩

/-- A fragment in front of the window, which stands at slot 1. -/
theorem rejected_unchanged_behind : ∃ s, Reaches recvStep anyOp (RecvState.start 4) s ∧
    windowPutCtx true s.win (strayCtx 0 3) = some (s.win, .ldErrInvalid) ∧
    (s.win = s.win ↔ ¬s.win.Accepts 0 ∨ s.win.Stamped (strayCtx 0 3)) := by
  obtain ⟨s, hs, hput⟩ : ∃ s, runOps recvStep anyOp (RecvState.start 4)
      [.putCtx true (RecvState.wholeCtx 0 [7]), .inGet] = some s ∧
      windowPutCtx true s.win (strayCtx 0 3) = some (s.win, .ldErrInvalid) := ⟨_, rfl, rfl⟩
  exact ⟨s, reaches_of_runOps _ hs, hput,
    rejected_unchanged_iff true s.win s.win (strayCtx 0 3) _ hput (by decide)⟩

/-- A fragment of an SDU that never began is refused, and slot 0 of the fresh window has its offset
and its class. -/
theorem stray_fragment_leaves_stamp : ∃ w,
    windowPutCtx true (initWindow 4) (strayCtx 0 3) = some (w, .ldErrNull) ∧
      (w.items 0).offset = 2 ∧ (w.items 0).cos = 3 ∧ w ≠ initWindow 4 := by
  refine ⟨_, rfl, rfl, rfl, ?_⟩
  intro h
  have hcos := congrArg (fun w => (w.items 0).cos) h
  exact absurd hcos (by decide)

end LdacsSdk
