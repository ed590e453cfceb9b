import LdacsSdk.Window.SendRing

/-!
# The order of sequence numbers

Whatever is put, sent, cut into fragments and acknowledged, a sender window sends sequence numbers
in full in the order in which it gave them out. The slots play no part in it: two counters do, of
the numbers given out and of those sent in full, and the indices follow them.
-/
namespace LdacsSdk

open Library

/-- A sender window with the sequence numbers that `window_put` gave out so far and those that
`window_check_get` sent in full. -/
structure SeqState where
  win : Window
  given : List ℕ := []
  left : List ℕ := []

namespace SeqState

def start (seqSize : ℕ) : SeqState := { win := initWindow seqSize }

/-- One call. A put that has to wait and a write outside the slot array have no successor. -/
def step (past : ℕ → UInt8) (s : SeqState) : SendOp → Option SeqState
  | .put cos buf =>
    (windowPut s.win cos buf).map fun r => { s with win := r.1, given := s.given ++ [r.2] }
  | .checkGet b =>
    let r := windowCheckGet past s.win b
    some { s with
      win := r.2.1
      left := s.left ++ (r.1.toList.filter WindowCtx.isLfr).map WindowCtx.pid }
  | .ack pid => (windowAckItem s.win pid).map fun r => { s with win := r.1 }

/-- The first `k` sequence numbers of a window with `n` slots. -/
def numbers (n k : ℕ) : List ℕ := (List.range k).map (· % n)

theorem numbers_succ (n k : ℕ) : numbers n (k + 1) = numbers n k ++ [k % n] := by
  simp [numbers, List.range_succ]

/-- The indices follow the counters of what was given out and what was sent in full. -/
structure Counted (n : ℕ) (s : SeqState) : Prop where
  seqEq : s.win.seqSz = n
  given : s.given = numbers n s.given.length
  left : s.left = numbers n s.left.length
  leftLe : s.left.length ≤ s.given.length
  sendIndex : s.win.toSendStart = s.left.length % n
  availIndex : s.win.availStart = s.given.length % n
  availEq : s.win.availSize + s.given.length = n + s.left.length
  ackLt : s.win.toAckStart < n
  recvEq : s.win.toRecvStart = 0

variable {n : ℕ} {s t : SeqState} {past : ℕ → UInt8}

/-- An index steps on within a window whose indices all fit into 8 bits. -/
theorem index_succ (hn : 0 < n) (h256 : n ≤ 256) (k : ℕ) :
    u8 ((k % n + 1) % n) = (k + 1) % n := by
  have hlt := Nat.mod_lt (k + 1) hn
  rw [succ_mod_index, u8_of_lt (by omega)]

/-- What stands in the slots is of no account. -/
theorem Counted.setItem (h : s.Counted n) (i : ℕ) (item : WindowItem) :
    Counted n { s with win := s.win.setItem i item } :=
  ⟨h.seqEq, h.given, h.left, h.leftLe, h.sendIndex, h.availIndex, h.availEq, h.ackLt, h.recvEq⟩

theorem Counted.put (h : s.Counted n) (hn : 0 < n) (h256 : n ≤ 256) {cos : ℕ} {buf : List UInt8}
    (hs : s.step past (.put cos buf) = some t) : t.Counted n := by
  obtain ⟨⟨w, seq⟩, hput, rfl⟩ := Option.map_eq_some_iff.mp hs
  unfold windowPut at hput
  split_ifs at hput with hfull
  obtain ⟨rfl, rfl⟩ := Prod.mk.inj (Option.some.inj hput)
  have havail := h.availEq
  have hlen : (s.given ++ [s.win.availStart]).length = s.given.length + 1 := by simp
  constructor
  · exact h.seqEq
  · rw [hlen, numbers_succ, ← h.given, h.availIndex]
  · exact h.left
  · exact h.leftLe.trans (by simp)
  · exact h.sendIndex
  · rw [hlen]
    simp only [h.availIndex, h.seqEq]
    exact index_succ hn h256 _
  · simp only [hlen]
    omega
  · exact h.ackLt
  · exact h.recvEq

theorem Counted.checkGet (h : s.Counted n) (hn : 0 < n) (h256 : n ≤ 256) {b : ℤ}
    (hs : s.step past (.checkGet b) = some t) : t.Counted n := by
  obtain rfl := Option.some.inj hs
  by_cases hsending : ∃ buf, s.win.Sending buf
  · obtain ⟨buf, hbuf⟩ := hsending
    by_cases hb : buf.len ≤ u64 b
    · -- a whole SDU leaves: the next number is sent in full
      have havail := h.availEq
      have hne := hbuf.2
      have hle := h.leftLe
      have hseq := h.seqEq
      simp only [windowCheckGet_whole hbuf hb, Option.toList_some, List.filter_cons,
        List.filter_nil, if_true, List.map_cons, List.map_nil]
      constructor
      · exact h.seqEq
      · exact h.given
      · rw [List.length_append, List.length_singleton, numbers_succ, ← h.left, h.sendIndex]
      · rw [List.length_append, List.length_singleton]
        dsimp only
        omega
      · simp only [Window.sentWhole, List.length_append, List.length_singleton, h.sendIndex,
          h.seqEq]
        exact index_succ hn h256 _
      · exact h.availIndex
      · simp only [Window.sentWhole, List.length_append, List.length_singleton]
        omega
      · exact h.ackLt
      · exact h.recvEq
    · -- a fragment leaves the indices alone
      simp only [windowCheckGet_part hbuf hb]
      simpa [Window.sentPart] using h.setItem (s.win.toSendStart % s.win.seqSz) _
  · have hidle : ∀ buf, ¬s.win.Sending buf := fun buf hbuf => hsending ⟨buf, hbuf⟩
    simp only [windowCheckGet_idle hidle]
    simpa using h

theorem Counted.slide (h : s.Counted n) (hn : 0 < n) (fuel : ℕ) :
    Counted n { s with win := windowSlideLoop fuel s.win } := by
  induction fuel generalizing s with
  | zero => exact h
  | succ fuel ih =>
    unfold windowSlideLoop
    split_ifs with hslide
    · have hone : Counted n { s with win := s.win.slideOne } := by
        have hlt : (s.win.toAckStart + 1) % s.win.seqSz < n := h.seqEq ▸ Nat.mod_lt _ (h.seqEq ▸ hn)
        exact { h.setItem s.win.toAckStart {} with ackLt := (Nat.mod_le _ _).trans_lt hlt }
      exact ih hone
    · exact h

theorem Counted.ack (h : s.Counted n) (hn : 0 < n) {pid : Fin 256}
    (hs : s.step past (.ack pid) = some t) : t.Counted n := by
  obtain ⟨⟨w, e⟩, hack, rfl⟩ := Option.map_eq_some_iff.mp hs
  unfold windowAckItem at hack
  split_ifs at hack
  · obtain ⟨rfl, -⟩ := Prod.mk.inj (Option.some.inj hack)
    exact (h.setItem _ _).slide hn _
  · obtain ⟨rfl, -⟩ := Prod.mk.inj (Option.some.inj hack)
    exact h

end SeqState

end LdacsSdk
