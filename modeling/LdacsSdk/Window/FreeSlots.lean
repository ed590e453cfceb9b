import LdacsSdk.Window.Delivery

/-!
# The free slots of a receiver window

`window_put_ctx` takes one off the count of free slots with every fragment, and `window_in_get`
adds one with every SDU. The count is right as long as every accepted fragment is the only one of
its SDU so far: the slot it goes to holds no fragment that waits to be handed up.
-/
namespace LdacsSdk

open Library

/-- A receiver window with the sequence numbers of which a fragment was accepted that is not
handed up yet. -/
structure SlotState where
  win : Window
  pending : Finset ℕ := ∅

namespace SlotState

def start (seqSize : ℕ) : SlotState := { win := initWindow seqSize }

/-- One call. A write outside the slot array has no successor. -/
def step (s : SlotState) : RecvOp → Option SlotState
  | .putCtx allocated ctx =>
    (windowPutCtx allocated s.win ctx).map fun r =>
      { win := r.1, pending := if r.2 = .ldOk then insert ctx.pid s.pending else s.pending }
  | .inGet =>
    some { win := (windowInGet s.win).2, pending := s.win.readySlot.elim s.pending s.pending.erase }

end SlotState

/-- The slot holds a fragment that is not handed up yet. -/
def WindowItem.Waiting (item : WindowItem) : Prop :=
  item.buf.isSome = true ∧ item.isProcessed = false

instance : DecidablePred WindowItem.Waiting := fun _ => inferInstanceAs (Decidable (_ ∧ _))

/-- `window_put_ctx` accepts the fragment and counts it, or it leaves the flags of all slots as
they are. -/
theorem windowPutCtx_cases {allocated : Bool} {w w' : Window} {ctx : WindowCtx} {e : LErr}
    (h : windowPutCtx allocated w ctx = some (w', e)) :
    (e = .ldOk ∧ (w.Accepts ctx.pid ∧ w.Stores allocated ctx) ∧ ctx.pid < w.seqSz ∧
      ∃ item : WindowItem, item.buf.isSome = true ∧ w' = w.storeFragment ctx item) ∨
    (e ≠ .ldOk ∧ ¬ (w.Accepts ctx.pid ∧ w.Stores allocated ctx) ∧
      ∃ item : WindowItem, item.buf.isSome = (w.items ctx.pid).buf.isSome ∧
        item.isProcessed = (w.items ctx.pid).isProcessed ∧
        item.allRecv = (w.items ctx.pid).allRecv ∧ w' = w.setItem ctx.pid item) := by
  rcases windowPutCtx_result h with
    ⟨rfl, hout, hsame⟩ | ⟨rfl, hin, hstores, hpid, item⟩ | ⟨he, -, hnot, rfl⟩
  · refine .inr ⟨by decide, fun hboth => hout hboth.1, w.items ctx.pid, rfl, rfl, rfl, ?_⟩
    simp [Window.setItem, hsame]
  · exact .inl ⟨rfl, ⟨hin, hstores⟩, hpid, item⟩
  · refine .inr ⟨?_, fun hboth => hnot hboth.2,
      { w.items ctx.pid with offset := u8 ctx.offset, cos := ctx.cos }, rfl, rfl, rfl, rfl⟩
    rcases he with rfl | rfl <;> decide

namespace SlotState

/-- No accepted fragment goes to a slot in which a fragment waits. -/
def FreeSlot (s : SlotState) : RecvOp → Prop
  | .putCtx allocated ctx =>
    s.win.Accepts ctx.pid ∧ s.win.Stores allocated ctx → ¬ (s.win.items ctx.pid).Waiting
  | .inGet => True

instance (s : SlotState) : (op : RecvOp) → Decidable (s.FreeSlot op)
  | .putCtx _ _ => inferInstanceAs (Decidable (_ → ¬ _))
  | .inGet => inferInstanceAs (Decidable True)

/-- The numbers that are not handed up yet are those of the slots where a fragment waits. -/
structure Flagged (s : SlotState) : Prop where
  pendingIff : ∀ p, p ∈ s.pending ↔ (s.win.items p).Waiting
  below : ∀ p, p ∈ s.pending → p < s.win.seqSz
  filled : ∀ p, (s.win.items p).allRecv = true → (s.win.items p).buf.isSome = true

/-- The count of free slots is right. -/
structure Accounted (s : SlotState) : Prop extends s.Flagged where
  availEq : s.win.availSize + s.pending.card = s.win.seqSz

variable {n : ℕ} {s t : SlotState}

/-- Another number than those that wait leaves room for itself. -/
theorem Flagged.card_lt (h : s.Flagged) {p : ℕ} (hp : p < s.win.seqSz) (hnot : p ∉ s.pending) :
    s.pending.card < s.win.seqSz := by
  have hsub : insert p s.pending ⊆ Finset.range s.win.seqSz := by
    intro q hq
    rcases Finset.mem_insert.mp hq with rfl | hq
    · exact Finset.mem_range.mpr hp
    · exact Finset.mem_range.mpr (h.below q hq)
  have hcard := Finset.card_le_card hsub
  rw [Finset.card_insert_of_notMem hnot, Finset.card_range] at hcard
  omega

theorem Flagged.storeFragment (h : s.Flagged) {ctx : WindowCtx} (hpid : ctx.pid < s.win.seqSz)
    {item : WindowItem} (hbuf : item.buf.isSome = true) :
    Flagged ⟨s.win.storeFragment ctx item, insert ctx.pid s.pending⟩ := by
  constructor
  · intro p
    by_cases hp : p = ctx.pid
    · simp [hp, Window.storeFragment, WindowItem.Waiting, hbuf]
    · simp [hp, s.win.storeFragment_of_ne ctx item hp, h.pendingIff]
  · intro p hp
    rcases Finset.mem_insert.mp hp with rfl | hp
    · exact hpid
    · exact h.below p hp
  · intro p hp
    by_cases hpid : p = ctx.pid
    · simp [hpid, Window.storeFragment, hbuf]
    · rw [s.win.storeFragment_of_ne ctx item hpid] at hp ⊢
      exact h.filled p hp

theorem Flagged.setItem (h : s.Flagged) {i : ℕ} {item : WindowItem}
    (hbuf : item.buf.isSome = (s.win.items i).buf.isSome)
    (hproc : item.isProcessed = (s.win.items i).isProcessed)
    (hall : item.allRecv = (s.win.items i).allRecv) :
    Flagged { s with win := s.win.setItem i item } := by
  constructor
  · intro p
    rw [h.pendingIff p]
    by_cases hp : p = i
    · subst hp
      simp [WindowItem.Waiting, hbuf, hproc]
    · simp [hp]
  · exact h.below
  · intro p hp
    by_cases hpi : p = i
    · subst hpi
      simp only [Window.setItem_items, Function.update_self, hall, hbuf] at hp ⊢
      exact h.filled p hp
    · simp only [Window.setItem_items, Function.update_of_ne hpi] at hp ⊢
      exact h.filled p hp

theorem Accounted.putCtx (h : s.Accounted) (h64 : s.win.seqSz < 2 ^ 64) {allocated : Bool}
    {ctx : WindowCtx} (hfree : s.FreeSlot (.putCtx allocated ctx))
    (hs : s.step (.putCtx allocated ctx) = some t) : t.Accounted := by
  obtain ⟨⟨w, e⟩, hput, rfl⟩ := Option.map_eq_some_iff.mp hs
  rcases windowPutCtx_cases hput with ⟨rfl, hacc, hpid, item, hbuf, rfl⟩ |
    ⟨he, -, item, hbuf, hproc, hall, rfl⟩
  · have hnot : ctx.pid ∉ s.pending := fun hp => hfree hacc ((h.pendingIff _).mp hp)
    have hroom := h.toFlagged.card_lt hpid hnot
    have havail := h.availEq
    simp only [if_true]
    refine ⟨h.toFlagged.storeFragment hpid hbuf, ?_⟩
    rw [Finset.card_insert_of_notMem hnot]
    simp only [Window.storeFragment, Window.setItem_seqSz]
    rw [u64_of_nonneg (by omega) (by omega)]
    omega
  · simp only [if_neg he]
    exact ⟨h.toFlagged.setItem hbuf hproc hall, h.availEq⟩

theorem Accounted.handUp (h : s.Accounted) (h64 : s.win.seqSz < 2 ^ 64) {p : ℕ}
    (hready : (s.win.items p).Ready) : Accounted ⟨s.win.handUp p, s.pending.erase p⟩ := by
  have hmem : p ∈ s.pending := (h.pendingIff p).mpr ⟨h.filled p hready.1, hready.2⟩
  have hcard := Finset.card_erase_add_one hmem
  have havail := h.availEq
  refine ⟨⟨fun q => ?_, fun q hq => h.below q (Finset.mem_of_mem_erase hq), fun q hq => ?_⟩, ?_⟩
  · by_cases hq : q = p
    · simp [hq, Window.handUp, WindowItem.Waiting]
    · simp [hq, Window.handUp, h.pendingIff]
  · by_cases hqp : q = p
    · subst hqp
      simpa [Window.handUp] using h.filled q hready.1
    · simp only [Window.handUp, Window.setItem_items, Function.update_of_ne hqp] at hq ⊢
      exact h.filled q hq
  · simp only [Window.handUp, Window.setItem_seqSz]
    rw [u64_of_nonneg (by omega) (by omega)]
    omega

/-- Sliding past a slot that was handed up. -/
theorem Accounted.recvOne (h : s.Accounted)
    (hproc : (s.win.items s.win.toRecvStart).isProcessed = true) :
    Accounted { s with win := s.win.recvOne } := by
  refine ⟨⟨fun q => ?_, h.below, fun q hq => ?_⟩, h.availEq⟩
  · rw [h.pendingIff q]
    by_cases hq : q = s.win.toRecvStart
    · simp [hq, Window.recvOne, WindowItem.Waiting, hproc]
    · simp [hq, Window.recvOne]
  · by_cases hqr : q = s.win.toRecvStart
    · simp [hqr, Window.recvOne] at hq
    · simp only [Window.recvOne, Window.setItem_items, Function.update_of_ne hqr] at hq ⊢
      exact h.filled q hq

theorem Accounted.slide (h : s.Accounted) (fuel : ℕ) :
    Accounted { s with win := (windowInSlide fuel s.win).1 } := by
  induction fuel generalizing s with
  | zero => exact h
  | succ fuel ih =>
    unfold windowInSlide
    split_ifs with hproc
    · exact ih (h.recvOne hproc)
    · exact h

theorem Accounted.inGet (h : s.Accounted) (h64 : s.win.seqSz < 2 ^ 64)
    (hs : s.step .inGet = some t) : t.Accounted := by
  obtain rfl := Option.some.inj hs
  have hscan : Accounted ⟨s.win.scanned, s.win.readySlot.elim s.pending s.pending.erase⟩ := by
    unfold Window.scanned
    cases hready : s.win.readySlot with
    | none => exact h
    | some p => exact h.handUp h64 (Window.readySlot_ready hready)
  exact hscan.slide s.win.seqSz

/-- An accepted fragment that goes to a slot where one waits makes the count of free slots wrong. -/
theorem Accounted.crowded (h : s.Accounted) {allocated : Bool} {ctx : WindowCtx}
    (hcrowded : ¬ s.FreeSlot (.putCtx allocated ctx))
    (hs : s.step (.putCtx allocated ctx) = some t) :
    t.win.availSize + t.pending.card ≠ t.win.seqSz := by
  obtain ⟨⟨w, e⟩, hput, rfl⟩ := Option.map_eq_some_iff.mp hs
  obtain ⟨hacc, hwaits⟩ : (s.win.Accepts ctx.pid ∧ s.win.Stores allocated ctx) ∧
      (s.win.items ctx.pid).Waiting := by simpa [FreeSlot, and_assoc] using hcrowded
  have havail := h.availEq
  rcases windowPutCtx_cases hput with ⟨rfl, -, -, item, -, rfl⟩ | ⟨-, hnot, -⟩
  · have hmem := (h.pendingIff _).mpr hwaits
    have hne : u64 (s.win.availSize - 1 : ℤ) ≠ s.win.availSize := by
      unfold u64
      omega
    simp only [if_true, Finset.insert_eq_of_mem hmem, Window.storeFragment, Window.setItem_seqSz]
    omega
  · exact absurd hacc hnot

end SlotState

end LdacsSdk
