import LdacsSdk.Core.Buffer
import LdacsSdk.Library.Circular

/-!
# The sliding window

`window_t` serves as a sender window and as a receiver window. Its slots are modelled as a
function of the slot index; only indices below `seqSz` lie inside the allocated array, and an
operation that would touch any other one has no result. The mutex and the condition variable
are left out: a put that would have to wait is an operation that is not enabled.
-/
namespace LdacsSdk

open Library

/-- `window_item_t`. -/
structure WindowItem where
  cos : ℕ := 0
  offset : ℕ := 0
  buf : Option Buffer := none
  isAck : Bool := false
  isProcessed : Bool := false
  allRecv : Bool := false
  deriving DecidableEq, Repr

/-- `window_ctx_t`. -/
structure WindowCtx where
  buf : Buffer
  pid : ℕ
  cos : ℕ
  offset : ℕ
  isRst : Bool
  isLfr : Bool
  deriving DecidableEq, Repr

/-- `window_t`. -/
structure Window where
  items : ℕ → WindowItem
  seqSz : ℕ
  availSize : ℕ
  winSize : ℕ
  toAckStart : ℕ
  toSendStart : ℕ
  toRecvStart : ℕ
  availStart : ℕ

/-- How many sequence numbers a window goes through: its indices are stored in 8 bits. -/
def lap (seqSz : ℕ) : ℕ := min seqSz 256

theorem lap_le (seqSz : ℕ) : lap seqSz ≤ seqSz := Nat.min_le_left _ _

theorem lap_pos {seqSz : ℕ} (h : 0 < seqSz) : 0 < lap seqSz := Nat.lt_min.mpr ⟨h, by decide⟩

/-- Stepping a stored index on steps its counter on. -/
theorem next_index {seqSz : ℕ} (h : 0 < seqSz) (k : ℕ) :
    u8 ((k % lap seqSz + 1) % seqSz) = (k + 1) % lap seqSz := by
  have hk := Nat.mod_lt k (lap_pos h)
  rw [add_mod_wrap (lap_pos h) (lap_pos h)]
  rcases Nat.le_total seqSz 256 with hle | hle
  · have he : lap seqSz = seqSz := Nat.min_eq_left hle
    rw [he] at hk ⊢
    split_ifs with hwrap
    · rw [Nat.mod_eq_of_lt hwrap, u8_of_lt (by omega)]
    · rw [show k % seqSz + 1 = seqSz by omega, Nat.mod_self]
      simp [u8]
  · have he : lap seqSz = 256 := Nat.min_eq_right hle
    rw [he] at hk ⊢
    split_ifs with hwrap
    · rw [Nat.mod_eq_of_lt (by omega), u8_of_lt hwrap]
    · rw [show k % 256 + 1 = 256 by omega]
      rcases Nat.lt_or_eq_of_le hle with hlt | rfl
      · rw [Nat.mod_eq_of_lt hlt]
        simp [u8]
      · simp [u8]

/-- `window_end`. -/
def windowEnd (w : Window) : ℕ := u8 ((w.toAckStart + w.winSize) % w.seqSz)

/-- A window with nothing in it whose indices all stand at `p`. -/
def emptyWindow (seqSize p : ℕ) : Window where
  items := fun _ => {}
  seqSz := seqSize
  availSize := seqSize
  winSize := seqSize / 2
  toAckStart := p
  toSendStart := p
  toRecvStart := p
  availStart := p

/-- `init_window`. -/
def initWindow (seqSize : ℕ) : Window := emptyWindow seqSize 0

/-- Store into one slot. -/
def Window.setItem (w : Window) (i : ℕ) (item : WindowItem) : Window :=
  { w with items := Function.update w.items i item }

@[simp] theorem Window.setItem_items (w : Window) (i : ℕ) (item : WindowItem) :
    (w.setItem i item).items = Function.update w.items i item := rfl

@[simp] theorem Window.setItem_seqSz (w : Window) (i : ℕ) (item : WindowItem) :
    (w.setItem i item).seqSz = w.seqSz := rfl

@[simp] theorem Window.setItem_availSize (w : Window) (i : ℕ) (item : WindowItem) :
    (w.setItem i item).availSize = w.availSize := rfl

@[simp] theorem Window.setItem_winSize (w : Window) (i : ℕ) (item : WindowItem) :
    (w.setItem i item).winSize = w.winSize := rfl

@[simp] theorem Window.setItem_toAckStart (w : Window) (i : ℕ) (item : WindowItem) :
    (w.setItem i item).toAckStart = w.toAckStart := rfl

@[simp] theorem Window.setItem_toSendStart (w : Window) (i : ℕ) (item : WindowItem) :
    (w.setItem i item).toSendStart = w.toSendStart := rfl

@[simp] theorem Window.setItem_toRecvStart (w : Window) (i : ℕ) (item : WindowItem) :
    (w.setItem i item).toRecvStart = w.toRecvStart := rfl

@[simp] theorem Window.setItem_availStart (w : Window) (i : ℕ) (item : WindowItem) :
    (w.setItem i item).availStart = w.availStart := rfl

end LdacsSdk
