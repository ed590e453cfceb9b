import LdacsSdk.Window.Sender
import LdacsSdk.Library.Runs

/-!
# The budget of the sender

`window_check_get` is called with a budget that successive calls share. An SDU that leaves whole is
charged to it. A fragment is as long as the budget, whatever is left of the SDU, and is not charged;
and a negative budget is compared as an unsigned number, which every SDU fits. So the budget is
respected where it covers the SDU, and where it is used up.
-/
namespace LdacsSdk

open Library

/-- `window_set_send_start`. -/
def windowSetSendStart (w : Window) (pos : ℕ) : Window :=
  { w with toSendStart := pos, availStart := pos, toAckStart := pos }

/-- The calls on a sender window whose `window_check_get` calls share a budget, and the start of
a new budget. -/
inductive BudgetOp where
  | put (cos : ℕ) (buf : List UInt8)
  | ack (pid : UInt8)
  | setSendStart (pos : UInt8)
  | newBudget (b : Int64)
  | checkGet

/-- A sender window with the budget that was granted last, what is left of it, and the bytes
emitted since. -/
structure BudgetState where
  win : Window
  granted : ℤ := 0
  left : ℤ := 0
  emitted : ℕ := 0

namespace BudgetState

def start (seqSize : ℕ) : BudgetState := { win := initWindow seqSize }

/-- One call. A put that has to wait and an index outside the slot array have no successor. -/
def step (past : ℕ → UInt8) (s : BudgetState) : BudgetOp → Option BudgetState
  | .put cos buf =>
    if s.win.availStart < s.win.seqSz then
      (windowPut s.win cos buf).map fun r => { s with win := r.1 }
    else none
  | .ack pid => (windowAckItem s.win pid.toNat).map fun r => { s with win := r.1 }
  | .setSendStart pos =>
    if pos.toNat < s.win.seqSz then some { s with win := windowSetSendStart s.win pos.toNat }
    else none
  | .newBudget b => some { win := s.win, granted := b.toInt, left := b.toInt, emitted := 0 }
  | .checkGet =>
    let r := windowCheckGet past s.win s.left
    some { s with
      win := r.2.1
      left := r.2.2
      emitted := s.emitted + (r.1.map fun ctx => ctx.buf.len).getD 0 }

end BudgetState

/-- A call respects its budget: the context holds at most as many bytes, all of them from the
queued SDU, and the budget goes down by their number; without a context nothing changes. -/
structure RespectsBudget (past : ℕ → UInt8) (w : Window) (b : ℤ) : Prop where
  within : ∀ ctx, (windowCheckGet past w b).1 = some ctx → (ctx.buf.len : ℤ) ≤ b
  inside : ∀ ctx, (windowCheckGet past w b).1 = some ctx →
    ∃ buf, (w.items (w.toSendStart % w.seqSz)).buf = some buf ∧
      ctx.buf.content <:+: buf.content ∧ ctx.buf.len = ctx.buf.content.length
  charged : ∀ ctx, (windowCheckGet past w b).1 = some ctx →
    (windowCheckGet past w b).2.2 = b - ctx.buf.len
  idle : (windowCheckGet past w b).1 = none → (windowCheckGet past w b).2 = (w, b)

/-- There is nothing to send, or the budget covers the SDU that is next, or it is used up. -/
def Window.Covered (w : Window) (b : ℤ) : Prop :=
  match (w.items (w.toSendStart % w.seqSz)).buf with
  | none => True
  | some buf => w.availSize = w.seqSz ∨ 0 ≤ b ∧ (buf.len ≤ b ∨ b = 0)

instance (w : Window) (b : ℤ) : Decidable (w.Covered b) := by
  unfold Window.Covered
  cases (w.items (w.toSendStart % w.seqSz)).buf <;> infer_instance

/-- Every buffer in the window is a copy of the bytes of an SDU. -/
def Window.Copies (w : Window) : Prop :=
  ∀ i buf, (w.items i).buf = some buf → ∃ sdu, buf = cloneToChunk sdu

namespace Window

variable {w w' : Window} {buf : Buffer} {b : ℤ} {past : ℕ → UInt8}

theorem covered_iff (h : w.Sending buf) : w.Covered b ↔ 0 ≤ b ∧ (buf.len ≤ b ∨ b = 0) := by
  unfold Covered
  rw [h.1]
  exact or_iff_right h.2

theorem covered_of_idle (h : ∀ buf, ¬w.Sending buf) : w.Covered b := by
  unfold Covered
  cases hbuf : (w.items (w.toSendStart % w.seqSz)).buf with
  | none => trivial
  | some buf => exact .inl (not_not.mp fun hne => h buf ⟨hbuf, hne⟩)

theorem respectsBudget_of_idle (h : ∀ buf, ¬w.Sending buf) : RespectsBudget past w b := by
  have hnone := windowCheckGet_idle h past b
  constructor <;> simp [hnone]

/-- A budget that covers the SDU. -/
theorem respectsBudget_whole {sdu : List UInt8} (h : w.Sending (cloneToChunk sdu))
    (hb : (sdu.length : ℤ) ≤ b) (hb' : b < 2 ^ 63) :
    RespectsBudget past w b ∧ windowCheckGet past w b =
      (some ⟨cloneToChunk sdu, w.toSendStart, (w.items (w.toSendStart % w.seqSz)).cos,
        u8 sdu.length, (w.items (w.toSendStart % w.seqSz)).offset == 0, true⟩,
        w.sentWhole (cloneToChunk sdu), b - sdu.length) := by
  have hfits : (cloneToChunk sdu).len ≤ u64 b := by
    rw [u64_of_nonneg (by omega) (by omega), len_cloneToChunk]
    omega
  have hleft : i64 (b - i64 sdu.length) = b - sdu.length := by
    rw [i64_of_mem (z := sdu.length) (by omega) (by omega), i64_of_mem (by omega) (by omega)]
  have hcall := windowCheckGet_whole h hfits past
  simp only [content_cloneToChunk, len_cloneToChunk, hleft] at hcall
  refine ⟨?_, hcall⟩
  constructor
  · rw [hcall]
    rintro ctx ⟨rfl⟩
    exact hb
  · rw [hcall]
    rintro ctx ⟨rfl⟩
    exact ⟨_, h.1, by simp, by simp⟩
  · rw [hcall]
    rintro ctx ⟨rfl⟩
    rfl
  · rw [hcall]
    rintro ⟨⟩

/-- A budget that is used up. -/
theorem respectsBudget_zero {sdu : List UInt8} (h : w.Sending (cloneToChunk sdu)) :
    RespectsBudget past w 0 := by
  rcases Nat.eq_zero_or_pos sdu.length with hnil | hpos
  · exact (respectsBudget_whole h (by omega) (by decide)).1
  · -- a fragment of no bytes
    have hpart : ¬(cloneToChunk sdu).len ≤ u64 0 := by
      rw [len_cloneToChunk, u64_of_nonneg le_rfl (by decide)]
      exact not_le.mpr hpos
    have hcall := windowCheckGet_part h hpart past
    have hnone : readBlock past ((cloneToChunk sdu).ptr.getD [])
        (w.items (w.toSendStart % w.seqSz)).offset (u64 0) = [] := rfl
    rw [hnone] at hcall
    constructor
    · rw [hcall]
      rintro ctx ⟨rfl⟩
      exact le_rfl
    · rw [hcall]
      rintro ctx ⟨rfl⟩
      exact ⟨_, h.1, by simp, by simp⟩
    · rw [hcall]
      rintro ctx ⟨rfl⟩
      rfl
    · rw [hcall]
      rintro ⟨⟩

/-- A call respects its budget only if it has nothing to send, covers the SDU, or is used up. -/
theorem respectsBudget_iff (hcopies : w.Copies) (hb : -2 ^ 63 ≤ b) (hb' : b < 2 ^ 63) :
    RespectsBudget past w b ↔ w.Covered b := by
  by_cases hsending : ∃ buf, w.Sending buf
  · obtain ⟨buf, hbuf⟩ := hsending
    obtain ⟨sdu, rfl⟩ := hcopies _ _ hbuf.1
    rw [covered_iff hbuf, len_cloneToChunk]
    constructor
    · intro hrespects
      by_cases hfits : (cloneToChunk sdu).len ≤ u64 b
      · have hcall := windowCheckGet_whole hbuf hfits past
        have hwithin := hrespects.within _ (by rw [hcall])
        simp only [content_cloneToChunk, len_cloneToChunk] at hwithin
        exact ⟨by omega, .inl hwithin⟩
      · -- a fragment as long as the budget, which is not charged
        have hcall := windowCheckGet_part hbuf hfits past
        have hwithin := hrespects.within _ (by rw [hcall])
        have hcharged := hrespects.charged _ (by rw [hcall])
        simp only [hcall, len_cloneToChunk, length_readBlock] at hwithin hcharged
        have hzero : u64 b = 0 := by omega
        exact ⟨by omega, .inr (by unfold u64 at hzero; omega)⟩
    · rintro ⟨hnonneg, hle | rfl⟩
      · exact (respectsBudget_whole hbuf hle hb').1
      · exact respectsBudget_zero hbuf
  · have hidle : ∀ buf, ¬w.Sending buf := fun buf h => hsending ⟨buf, h⟩
    exact iff_of_true (respectsBudget_of_idle hidle) (covered_of_idle hidle)

/-! ### The buffers of a run -/

theorem copies_initWindow (n : ℕ) : (initWindow n).Copies := by
  intro i buf h
  cases h

theorem Copies.setItem (h : w.Copies) {i : ℕ} {item : WindowItem}
    (hitem : ∀ buf, item.buf = some buf → ∃ sdu, buf = cloneToChunk sdu) :
    (w.setItem i item).Copies := by
  intro j buf hbuf
  by_cases hj : j = i
  · subst hj
    exact hitem buf (by simpa using hbuf)
  · exact h j buf (by simpa [hj] using hbuf)

theorem Copies.put (h : w.Copies) {cos seq : ℕ} {sdu : List UInt8}
    (hput : windowPut w cos sdu = some (w', seq)) : w'.Copies := by
  unfold windowPut at hput
  split_ifs at hput
  obtain ⟨rfl, -⟩ := Prod.mk.inj (Option.some.inj hput)
  exact h.setItem fun buf hbuf => ⟨sdu, (Option.some.inj hbuf).symm⟩

theorem Copies.slideLoop (h : w.Copies) (fuel : ℕ) : (windowSlideLoop fuel w).Copies := by
  induction fuel generalizing w with
  | zero => exact h
  | succ fuel ih =>
    unfold windowSlideLoop
    split_ifs
    · apply ih
      exact h.setItem fun buf hbuf => by cases hbuf
    · exact h

theorem Copies.ack (h : w.Copies) {pid : ℕ} {e : LErr}
    (hack : windowAckItem w pid = some (w', e)) : w'.Copies := by
  unfold windowAckItem at hack
  split_ifs at hack
  · obtain ⟨rfl, -⟩ := Prod.mk.inj (Option.some.inj hack)
    have hacked : (w.setItem pid { w.items pid with isAck := true }).Copies := h.setItem (h pid)
    exact hacked.slideLoop _
  · obtain ⟨rfl, -⟩ := Prod.mk.inj (Option.some.inj hack)
    exact h

theorem Copies.checkGet (h : w.Copies) (b : ℤ) : (windowCheckGet past w b).2.1.Copies := by
  by_cases hsending : ∃ buf, w.Sending buf
  · obtain ⟨buf, hbuf⟩ := hsending
    by_cases hfits : buf.len ≤ u64 b
    · rw [windowCheckGet_whole hbuf hfits]
      exact h.setItem (h _)
    · rw [windowCheckGet_part hbuf hfits]
      exact h.setItem (h _)
  · rw [windowCheckGet_idle fun buf hbuf => hsending ⟨buf, hbuf⟩]
    exact h

/-- A budget stays in its 64 bits. -/
theorem checkGet_budget (hb : -2 ^ 63 ≤ b ∧ b < 2 ^ 63) :
    -2 ^ 63 ≤ (windowCheckGet past w b).2.2 ∧ (windowCheckGet past w b).2.2 < 2 ^ 63 := by
  by_cases hsending : ∃ buf, w.Sending buf
  · obtain ⟨buf, hbuf⟩ := hsending
    by_cases hfits : buf.len ≤ u64 b
    · rw [windowCheckGet_whole hbuf hfits]
      exact i64_mem _
    · rw [windowCheckGet_part hbuf hfits]
      exact hb
  · rw [windowCheckGet_idle fun buf hbuf => hsending ⟨buf, hbuf⟩]
    exact hb

end Window

namespace BudgetState

variable {n : ℕ} {s t : BudgetState} {past : ℕ → UInt8}

/-- The buffers are copies of SDUs and the budget is a 64-bit number. -/
structure Sound (s : BudgetState) : Prop where
  copies : s.win.Copies
  mem : -2 ^ 63 ≤ s.left ∧ s.left < 2 ^ 63

theorem sound_start (n : ℕ) : (start n).Sound where
  copies := Window.copies_initWindow n
  mem := by simp [start]

theorem Sound.step (h : s.Sound) {op : BudgetOp} (hs : s.step past op = some t) : t.Sound := by
  cases op with
  | put cos buf =>
    simp only [BudgetState.step] at hs
    split_ifs at hs
    obtain ⟨⟨w, seq⟩, hput, rfl⟩ := Option.map_eq_some_iff.mp hs
    exact ⟨h.copies.put hput, h.mem⟩
  | ack pid =>
    obtain ⟨⟨w, e⟩, hack, rfl⟩ := Option.map_eq_some_iff.mp hs
    exact ⟨h.copies.ack hack, h.mem⟩
  | setSendStart pos =>
    simp only [BudgetState.step] at hs
    split_ifs at hs
    obtain rfl := Option.some.inj hs
    exact ⟨h.copies, h.mem⟩
  | newBudget b =>
    obtain rfl := Option.some.inj hs
    exact ⟨h.copies, b.le_toInt, b.toInt_lt⟩
  | checkGet =>
    obtain rfl := Option.some.inj hs
    exact ⟨h.copies.checkGet _, Window.checkGet_budget h.mem⟩

/-- A call finds its budget in order. -/
def CoveredCall (s : BudgetState) : BudgetOp → Prop
  | .checkGet => s.win.Covered s.left
  | _ => True

instance (s : BudgetState) : (op : BudgetOp) → Decidable (s.CoveredCall op)
  | .checkGet => inferInstanceAs (Decidable (s.win.Covered s.left))
  | .put _ _ | .ack _ | .setSendStart _ | .newBudget _ => inferInstanceAs (Decidable True)

/-- What was emitted and what is left of the budget make up what was granted, and the budget is
not overdrawn. -/
structure Balanced (s : BudgetState) : Prop where
  sum : (s.emitted : ℤ) + s.left = s.granted
  drawn : 0 ≤ s.left ∨ s.emitted = 0

theorem Balanced.step (h : s.Balanced) (hsound : s.Sound) {op : BudgetOp}
    (hcall : s.CoveredCall op) (hs : s.step past op = some t) : t.Balanced := by
  cases op with
  | put cos buf =>
    simp only [BudgetState.step] at hs
    split_ifs at hs
    obtain ⟨r, -, rfl⟩ := Option.map_eq_some_iff.mp hs
    exact ⟨h.sum, h.drawn⟩
  | ack pid =>
    obtain ⟨r, -, rfl⟩ := Option.map_eq_some_iff.mp hs
    exact ⟨h.sum, h.drawn⟩
  | setSendStart pos =>
    simp only [BudgetState.step] at hs
    split_ifs at hs
    obtain rfl := Option.some.inj hs
    exact ⟨h.sum, h.drawn⟩
  | newBudget b =>
    obtain rfl := Option.some.inj hs
    exact ⟨by simp, .inr rfl⟩
  | checkGet =>
    obtain rfl := Option.some.inj hs
    have hrespects : RespectsBudget past s.win s.left :=
      (Window.respectsBudget_iff hsound.copies hsound.mem.1 hsound.mem.2).mpr hcall
    have hsum := h.sum
    cases hctx : (windowCheckGet past s.win s.left).1 with
    | none =>
      have hidle := hrespects.idle hctx
      constructor
      · simpa [hctx, hidle] using h.sum
      · simpa [hctx, hidle] using h.drawn
    | some ctx =>
      have hwithin := hrespects.within ctx hctx
      have hcharged := hrespects.charged ctx hctx
      constructor
      · simp only [hcharged, Option.map_some, Option.getD_some]
        push_cast
        omega
      · left
        simp only [hcharged]
        omega

/-- **The budget of the sender.** In every state of every run a call respects its budget if and
only if it has nothing to send, the budget covers the SDU that is next or the budget is used up;
and where all calls do, the bytes emitted on a budget never exceed it. -/
theorem send_budget_iff (past : ℕ → UInt8) (n : ℕ) :
    (∀ s, Reaches (step past) anyOp (start n) s →
      (RespectsBudget past s.win s.left ↔ s.win.Covered s.left)) ∧
    ∀ s, Reaches (step past) CoveredCall (start n) s → (s.emitted : ℤ) ≤ max s.granted 0 := by
  constructor
  · intro s h
    have hsound : s.Sound := h.invariant (sound_start n) fun s op t hs _ hstep => hs.step hstep
    exact Window.respectsBudget_iff hsound.copies hsound.mem.1 hsound.mem.2
  · intro s h
    have hinv : s.Sound ∧ s.Balanced := by
      apply h.invariant (P := fun s => s.Sound ∧ s.Balanced)
      · exact ⟨sound_start n, rfl, .inr rfl⟩
      · rintro s op t ⟨hs, hb⟩ hcall hstep
        exact ⟨hs.step hstep, hb.step hs hcall hstep⟩
    obtain ⟨hsum, hdrawn⟩ := hinv.2
    omega

/-- An SDU of three bytes and a budget of 2: both fragments have two bytes, the second of them one
from behind the SDU, and 2 is still left. -/
theorem fragments_not_charged : ∃ s,
    runOps (step fun _ => 0xFF) anyOp (start 2)
      [.put 0 [1, 2, 3], .newBudget 2, .checkGet, .checkGet] = some s ∧
    s.emitted = 4 ∧ s.granted = 2 ∧ ¬(s.emitted : ℤ) ≤ s.granted ∧
      ¬RespectsBudget (fun _ => 0xFF) s.win s.left := by
  refine ⟨_, rfl, rfl, rfl, by decide, ?_⟩
  intro h
  have hcharged := h.charged _ rfl
  exact absurd hcharged (by decide)

end BudgetState

end LdacsSdk
