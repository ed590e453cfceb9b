import LdacsSdk.Window.Receiver

/-!
# The receiver window as a ring

SDUs have unbounded numbers, and the window stands at the first one that it has not slid past. The
slots of a lap from there on belong to the next numbers; those of the window hold SDUs that are
complete, or were handed up out of turn, and the others are not in use.
-/
namespace LdacsSdk

open Library

variable {w : Window} {n next j k : ℕ} {handed : ℕ → Prop} {sdu : ℕ → List UInt8}

/-- A window of `n` slots that stands at SDU `next` and has handed up the SDUs of `handed`; what is
ready in it are SDUs of `sdu`. -/
structure Window.ReceiveRing (w : Window) (n next : ℕ) (handed : ℕ → Prop)
    (sdu : ℕ → List UInt8) : Prop where
  seqEq : w.seqSz = n
  winEq : w.winSize = n / 2
  recvIndex : w.toRecvStart = next % n
  processed : ∀ j, next ≤ j → j < next + n →
    ((w.items (j % n)).isProcessed = true ↔ handed j)
  ready : ∀ j, next ≤ j → j < next + n → (w.items (j % n)).Ready →
    (w.items (j % n)).buf = some (cloneToChunk (sdu j)) ∧ j < next + n / 2
  passed : ∀ j < next, handed j
  ahead : ∀ j, handed j → j < next + n / 2

namespace Window.ReceiveRing

theorem initWindow (n : ℕ) (hnone : ∀ j, ¬ handed j) :
    (initWindow n).ReceiveRing n 0 handed sdu where
  seqEq := rfl
  winEq := rfl
  recvIndex := (Nat.zero_mod n).symm
  processed := by simp [LdacsSdk.initWindow, emptyWindow, hnone]
  ready := by simp [LdacsSdk.initWindow, emptyWindow, WindowItem.Ready]
  passed := fun j hj => absurd hj (Nat.not_lt_zero j)
  ahead := fun j h => absurd h (hnone j)

/-- The accept test lets through the numbers of the window among those of a lap. -/
theorem accepts_iff (h : w.ReceiveRing n next handed sdu) (hn : 0 < n) (h256 : n ≤ 256)
    (hk : next ≤ k) (hk' : k < next + n) : w.Accepts (k % n) ↔ k < next + n / 2 := by
  have hlt := Nat.mod_lt (next + n / 2) hn
  have hhalf : n / 2 < n := Nat.div_lt_self hn (by decide)
  have hend : u8 ((w.toRecvStart + w.winSize) % w.seqSz) = (next + n / 2) % n := by
    rw [h.recvIndex, h.winEq, h.seqEq, Nat.mod_add_mod]
    exact u8_of_lt (by omega)
  unfold Accepts
  rw [hend, h.recvIndex, inRange_iff hhalf (Nat.mod_lt _ hn)]
  constructor
  · rintro ⟨i, hi, hi', heq⟩
    have := mod_inj_of_lap ⟨hi, by omega⟩ ⟨hk, hk'⟩ heq
    omega
  · exact fun hin => ⟨k, hk, hin, rfl⟩

/-- Two numbers of a lap have the same slot only if they are the same. -/
theorem slot_ne (hj : next ≤ j ∧ j < next + n) (hk : next ≤ k ∧ k < next + n) (hne : j ≠ k) :
    j % n ≠ k % n := fun heq => hne (mod_inj_of_lap hj hk heq)

/-- An SDU comes in as one fragment, for a number of the window that was not handed up. -/
theorem store (h : w.ReceiveRing n next handed sdu) (hk : next ≤ k) (hk' : k < next + n / 2)
    (hfresh : ¬ handed k) {ctx : WindowCtx} (hpid : ctx.pid = k % n) (item : WindowItem)
    (hbuf : item.buf = some (cloneToChunk (sdu k))) :
    (w.storeFragment ctx item).ReceiveRing n next handed sdu := by
  have hitem : (w.storeFragment ctx item).items (k % n) =
      { item with allRecv := ctx.isLfr, isProcessed := false } := by
    simp [storeFragment, hpid]
  have hother : ∀ j, next ≤ j → j < next + n → j ≠ k →
      (w.storeFragment ctx item).items (j % n) = w.items (j % n) := by
    intro j hj hj' hjk
    apply w.storeFragment_of_ne
    rw [hpid]
    exact slot_ne ⟨hj, hj'⟩ ⟨hk, by omega⟩ hjk
  refine ⟨h.seqEq, h.winEq, h.recvIndex, ?_, ?_, h.passed, h.ahead⟩
  · intro j hj hj'
    by_cases hjk : j = k
    · rw [hjk, hitem]
      simpa using hfresh
    · rw [hother j hj hj' hjk]
      exact h.processed j hj hj'
  · intro j hj hj' hready
    by_cases hjk : j = k
    · rw [hjk, hitem]
      exact ⟨hbuf, hk'⟩
    · rw [hother j hj hj' hjk] at hready ⊢
      exact h.ready j hj hj' hready

/-- What is stored is ready if it is whole. -/
theorem ready_store (w : Window) {ctx : WindowCtx} (hpid : ctx.pid = k % n)
    (hlast : ctx.isLfr = true) (item : WindowItem) :
    ((w.storeFragment ctx item).items (k % n)).Ready := by
  simp [storeFragment, hpid, WindowItem.Ready, hlast]

/-- A ready SDU is handed up. -/
theorem handUp (h : w.ReceiveRing n next handed sdu) (hk : next ≤ k) (hk' : k < next + n)
    (hready : (w.items (k % n)).Ready) :
    (w.handUp (k % n)).ReceiveRing n next (fun j => handed j ∨ j = k) sdu := by
  have hitem : (w.handUp (k % n)).items (k % n) =
      { w.items (k % n) with isProcessed := true } := by
    simp [Window.handUp]
  have hother : ∀ j, next ≤ j → j < next + n → j ≠ k →
      (w.handUp (k % n)).items (j % n) = w.items (j % n) := by
    intro j hj hj' hjk
    have hne := slot_ne ⟨hj, hj'⟩ ⟨hk, hk'⟩ hjk
    simp [Window.handUp, hne]
  refine ⟨h.seqEq, h.winEq, h.recvIndex, ?_, ?_, fun j hj => Or.inl (h.passed j hj), ?_⟩
  · intro j hj hj'
    by_cases hjk : j = k
    · rw [hjk, hitem]
      simp
    · rw [hother j hj hj' hjk, h.processed j hj hj']
      simp [hjk]
  · intro j hj hj' hready'
    by_cases hjk : j = k
    · rw [hjk, hitem] at hready'
      exact absurd hready'.2 (by simp)
    · rw [hother j hj hj' hjk] at hready' ⊢
      exact h.ready j hj hj' hready'
  · rintro j (hj | rfl)
    · exact h.ahead j hj
    · exact (h.ready j hk hk' hready).2

/-- The window slides past an SDU that was handed up. -/
theorem recvOne (h : w.ReceiveRing n next handed sdu) (hn : 0 < n) (h256 : n ≤ 256)
    (hnext : handed next) : w.recvOne.ReceiveRing n (next + 1) handed sdu := by
  have hlt := Nat.mod_lt (next + 1) hn
  have hhalf := h.ahead next hnext
  have hitem : w.recvOne.items (next % n) = {} := by
    simp [Window.recvOne, h.recvIndex]
  have hother : ∀ j, next + 1 ≤ j → j < next + n → w.recvOne.items (j % n) = w.items (j % n) := by
    intro j hj hj'
    have hne := slot_ne (n := n) (j := j) (k := next) ⟨by omega, hj'⟩ ⟨le_rfl, by omega⟩ (by omega)
    simp [Window.recvOne, h.recvIndex, hne]
  refine ⟨h.seqEq, h.winEq, ?_, ?_, ?_, ?_, ?_⟩
  · simp only [Window.recvOne, h.recvIndex, h.seqEq, succ_mod_index]
    exact u8_of_lt (by omega)
  · intro j hj hj'
    by_cases hlast : j = next + n
    · -- The slot that was slid past now belongs to the last number of the lap.
      rw [hlast, Nat.add_mod_right, hitem]
      simp only [Bool.false_eq_true, false_iff]
      intro hhanded
      have := h.ahead _ hhanded
      omega
    · rw [hother j hj (by omega)]
      exact h.processed j (by omega) (by omega)
  · intro j hj hj' hready
    by_cases hlast : j = next + n
    · rw [hlast, Nat.add_mod_right, hitem] at hready
      exact absurd hready.1 (by simp)
    · rw [hother j hj (by omega)] at hready ⊢
      obtain ⟨hbuf, hin⟩ := h.ready j (by omega) (by omega) hready
      exact ⟨hbuf, by omega⟩
  · intro j hj
    rcases Nat.lt_succ_iff_lt_or_eq.mp hj with hlt | rfl
    · exact h.passed j hlt
    · exact hnext
  · intro j hj
    have := h.ahead j hj
    omega

/-- The slide passes what was handed up in turn. -/
theorem slide (h : w.ReceiveRing n next handed sdu) (hn : 0 < n) (h256 : n ≤ 256) (fuel : ℕ) :
    (windowInSlide fuel w).1.ReceiveRing n (next + (windowInSlide fuel w).2.length) handed sdu ∧
      ((windowInSlide fuel w).2.length < fuel →
        ¬ handed (next + (windowInSlide fuel w).2.length)) := by
  induction fuel generalizing w next with
  | zero => exact ⟨h, fun hlt => absurd hlt (lt_irrefl _)⟩
  | succ fuel ih =>
    have hfront := h.processed next le_rfl (by omega)
    rw [← h.recvIndex] at hfront
    unfold windowInSlide
    split_ifs with hgo
    · obtain ⟨hring, hstop⟩ := ih (h.recvOne hn h256 (hfront.mp hgo))
      simp only [List.length_cons, Nat.add_lt_add_iff_right]
      rw [← Nat.add_assoc, Nat.add_right_comm]
      exact ⟨hring, hstop⟩
    · exact ⟨h, fun _ => mt hfront.mpr hgo⟩

/-- With as many rounds as there are slots the slide stops at an SDU not handed up. -/
theorem slide_all (h : w.ReceiveRing n next handed sdu) (hn : 0 < n) (h256 : n ≤ 256) :
    (windowInSlide n w).1.ReceiveRing n (next + (windowInSlide n w).2.length) handed sdu ∧
      ¬ handed (next + (windowInSlide n w).2.length) := by
  obtain ⟨hring, hstop⟩ := h.slide hn h256 n
  refine ⟨hring, fun hnext => ?_⟩
  rcases Nat.lt_or_ge (windowInSlide n w).2.length n with hlt | hge
  · exact hstop hlt hnext
  · -- It cannot pass more than the window.
    have hlast := hring.passed (next + (windowInSlide n w).2.length - 1) (by omega)
    have := h.ahead _ hlast
    omega

/-- The slot where the scan stops is that of the first ready SDU of the window. -/
theorem readySlot_eq_some (h : w.ReceiveRing n next handed sdu) {p : ℕ}
    (hp : w.readySlot = some p) : ∃ j, next ≤ j ∧ j < next + n / 2 ∧ j % n = p ∧
      (w.items (j % n)).Ready ∧ ∀ i, next ≤ i → i < j → ¬ (w.items (i % n)).Ready := by
  have hready := Window.readySlot_ready hp
  unfold Window.readySlot at hp
  rw [h.winEq, h.recvIndex, h.seqEq, List.find?_eq_some_iff_getElem] at hp
  obtain ⟨-, i, hi, hslot, hbefore⟩ := hp
  have hlen : i < n / 2 := by simpa using hi
  have hat : ∀ m, (next % n + m) % n = (next + m) % n := fun m => Nat.mod_add_mod _ _ _
  simp only [List.getElem_map, List.getElem_range, hat] at hslot hbefore
  refine ⟨next + i, by omega, by omega, hslot, hslot ▸ hready, ?_⟩
  intro m hm hmi hmready
  obtain ⟨d, rfl⟩ := Nat.exists_eq_add_of_le hm
  have := hbefore d (by omega)
  simp [hmready] at this

/-- The scan finds nothing only if no SDU of the window is ready. -/
theorem readySlot_eq_none (h : w.ReceiveRing n next handed sdu) (hp : w.readySlot = none) :
    ∀ j, next ≤ j → j < next + n → ¬ (w.items (j % n)).Ready := by
  intro j hj hj' hready
  obtain ⟨-, hin⟩ := h.ready j hj hj' hready
  unfold Window.readySlot at hp
  rw [h.winEq, h.recvIndex, h.seqEq, List.find?_eq_none] at hp
  obtain ⟨d, rfl⟩ := Nat.exists_eq_add_of_le hj
  have hmem : (next + d) % n ∈ (List.range (n / 2)).map fun i => (next % n + i) % n :=
    List.mem_map.mpr ⟨d, List.mem_range.mpr (by omega), Nat.mod_add_mod _ _ _⟩
  have := hp _ hmem
  simp [hready] at this

end Window.ReceiveRing

end LdacsSdk
