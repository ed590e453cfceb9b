import LdacsSdk.Queue.Aqueue
import LdacsSdk.Library.Tickets

/-!
# Interleavings of the atomic ring queue

An object has its place in the order of the queue from the step that advances the head on, and is
either in its slot or with the call that will put it there. So no assertion fails in any
interleaving, and the consumer gets the objects in the order of the head, each once.
-/
namespace LdacsSdk

open Library

variable {α : Type} {s t : AqueueRun α} {q : Aqueue α} {c : EnqueueCall α} {i p : ℕ} {x : α}

/-! ### What calls and slots have -/

/-- The calls that have counted themselves and have no place in the order yet. -/
def EnqueueCall.counted : EnqueueCall α → ℕ
  | .backOff _ => 1
  | .claim _ => 1
  | _ => 0

/-- The calls about to advance the head. -/
def EnqueueCall.claiming : EnqueueCall α → ℕ
  | .claim _ => 1
  | _ => 0

/-- The object that a call is to put into slot `p` of a ring of `n` slots. -/
def EnqueueCall.pendingAt (n p : ℕ) : EnqueueCall α → Multiset α
  | .check obj head => if head % n = p then {obj} else 0
  | .fill obj head => if head % n = p then {obj} else 0
  | _ => 0

/-- The object of a call that has its place in the order. -/
def EnqueueCall.placed : EnqueueCall α → Multiset α
  | .check obj _ => {obj}
  | .fill obj _ => {obj}
  | .accepted obj => {obj}
  | _ => 0

/-- What a slot of the ring holds. -/
def Aqueue.slotItem (q : Aqueue α) (p : ℕ) : Multiset α :=
  match q.buffer[p]? with
  | some (some x) => {x}
  | _ => 0

/-- The pointer that the consumer has taken and not returned yet. -/
def DequeueCall.items : DequeueCall α → List α
  | .idle => []
  | .taken ret => [ret]
  | .moved ret => [ret]

/-- Whether the tail has been moved past the pointer taken. -/
def DequeueCall.passed : DequeueCall α → ℕ
  | .moved _ => 1
  | _ => 0

/-- How many objects have left the ring. -/
def AqueueRun.served (s : AqueueRun α) : ℕ := s.returned.length + s.consumer.items.length

/-- What slot `p` has: in the ring, or with the call that is to fill it. -/
def AqueueRun.at (s : AqueueRun α) (p : ℕ) : Multiset α :=
  s.q.slotItem p + tally (EnqueueCall.pendingAt s.q.max p) s.calls

/-- The invariant of every interleaving. -/
structure AqueueRun.Sound (s : AqueueRun α) : Prop where
  pos : 0 < s.q.max
  dvd : s.q.max ∣ 2 ^ 64
  length : s.q.buffer.length = s.q.max
  head : s.q.head = s.tickets.length % 2 ^ 64
  tail : s.q.tail = (s.returned.length + s.consumer.passed) % s.q.max
  order : s.returned ++ s.consumer.items = s.tickets.take s.served
  count : s.q.count + s.returned.length = tally EnqueueCall.counted s.calls + s.tickets.length
  room : tally EnqueueCall.claiming s.calls + s.tickets.length ≤ s.returned.length + s.q.max
  few : s.openCalls + s.q.max < 2 ^ 64
  ring : TicketRing s.q.max s.tickets s.served s.at
  placed : (s.tickets : Multiset α) = tally EnqueueCall.placed s.calls

theorem EnqueueCall.pendingAt_eq {n : ℕ} (h : x ∈ c.pendingAt n p) : c.pendingAt n p = {x} := by
  cases c with
  | check obj head =>
    simp only [EnqueueCall.pendingAt] at h ⊢
    split_ifs at h ⊢ with hp
    · rw [Multiset.mem_singleton.mp h]
    · simp at h
  | fill obj head =>
    simp only [EnqueueCall.pendingAt] at h ⊢
    split_ifs at h ⊢ with hp
    · rw [Multiset.mem_singleton.mp h]
    · simp at h
  | enter obj => simp [EnqueueCall.pendingAt] at h
  | backOff obj => simp [EnqueueCall.pendingAt] at h
  | claim obj => simp [EnqueueCall.pendingAt] at h
  | refused obj => simp [EnqueueCall.pendingAt] at h
  | accepted obj => simp [EnqueueCall.pendingAt] at h

theorem EnqueueCall.idle_of_weight (h : c.weight = 0) (n p : ℕ) :
    c.pendingAt n p = 0 ∧ c.counted = 0 := by
  cases c <;> simp [EnqueueCall.weight, EnqueueCall.inside, EnqueueCall.pendingAt,
    EnqueueCall.counted] at h ⊢

theorem slotItem_of_isNull (h : q.isNull p = true) : q.slotItem p = 0 := by
  unfold Aqueue.isNull at h
  unfold Aqueue.slotItem
  cases hslot : q.buffer[p]? with
  | none => rfl
  | some y =>
    cases y with
    | none => rfl
    | some z => simp [hslot] at h

theorem slotItem_set_self (hp : p < q.buffer.length) :
    ({ q with buffer := q.buffer.set p (some x) } : Aqueue α).slotItem p = {x} := by
  simp [Aqueue.slotItem, hp]

theorem slotItem_set_ne {j : ℕ} {y : Option α} (hp : p ≠ j) :
    ({ q with buffer := q.buffer.set j y } : Aqueue α).slotItem p = q.slotItem p := by
  simp [Aqueue.slotItem, List.getElem?_set_ne (Ne.symm hp)]

theorem EnqueueCall.counted_le (c : EnqueueCall α) : c.counted ≤ c.weight := by
  cases c <;> simp [EnqueueCall.counted, EnqueueCall.weight, EnqueueCall.inside]

theorem EnqueueCall.claiming_le (c : EnqueueCall α) : c.claiming ≤ c.counted := by
  cases c <;> simp [EnqueueCall.counted, EnqueueCall.claiming]

namespace AqueueRun.Sound

theorem served_le (h : s.Sound) : s.served ≤ s.tickets.length := by
  have hlen := congrArg List.length h.order
  rw [List.length_append, List.length_take] at hlen
  unfold served at hlen ⊢
  omega

theorem counted_le (_ : s.Sound) : tally EnqueueCall.counted s.calls ≤ s.openCalls :=
  tally_le EnqueueCall.counted_le s.calls

theorem claiming_le (_ : s.Sound) :
    tally EnqueueCall.claiming s.calls ≤ tally EnqueueCall.counted s.calls :=
  tally_le EnqueueCall.claiming_le s.calls

/-- The slot that the head stands for. -/
theorem head_mod (h : s.Sound) : s.q.head % s.q.max = s.tickets.length % s.q.max := by
  rw [h.head, Nat.mod_mod_of_dvd _ h.dvd]

/-- The slot of a call that is to fill it holds `NULL`. -/
theorem isNull_of_pending (h : s.Sound) (hi : s.calls[i]? = some c) (hp : p < s.q.max)
    (hc : c.pendingAt s.q.max p = {x}) : s.q.isNull p = true := by
  obtain ⟨r, hr⟩ := tally_eq_add (f := EnqueueCall.pendingAt s.q.max p) hi
  have hat : s.at p = s.q.slotItem p + ({x} + r) := by rw [AqueueRun.at, hr, hc]
  -- The slot has one object at most, and the call has it.
  have hcard : (s.at p).card ≤ 1 := by
    by_cases hlive : ∃ k, s.served ≤ k ∧ k < s.tickets.length ∧ k % s.q.max = p
    · obtain ⟨k, hlo, hk, rfl⟩ := hlive
      rw [h.ring.live k _ hlo (List.getElem?_eq_getElem hk), Multiset.card_singleton]
    · rw [h.ring.free p hp fun k hlo hk hmod => hlive ⟨k, hlo, hk, hmod⟩]
      simp
  have hzero : (s.q.slotItem p).card = 0 := by
    rw [hat, Multiset.card_add, Multiset.card_add, Multiset.card_singleton] at hcard
    omega
  have hlt : p < s.q.buffer.length := by
    rw [h.length]
    exact hp
  unfold Aqueue.isNull
  unfold Aqueue.slotItem at hzero
  rw [List.getElem?_eq_getElem hlt] at hzero ⊢
  cases hslot : s.q.buffer[p] with
  | none => rfl
  | some y => simp [hslot] at hzero

/-! ### The steps of a call -/

theorem count_lt (h : s.Sound) : s.q.count < 2 ^ 64 := by
  have hcount := h.count
  have hroom := h.room
  have hfew := h.few
  have hle := h.counted_le
  have hserved := h.served_le
  unfold served at hserved
  omega

/-- A step of a call that leaves the ring and the order alone. -/
theorem recount (h : s.Sound) {c' : EnqueueCall α} {count : ℕ} (hi : s.calls[i]? = some c)
    (hpending : ∀ n p, c'.pendingAt n p = c.pendingAt n p) (hplaced : c'.placed = c.placed)
    (hweight : c'.weight ≤ c.weight) (hcount : count + c.counted = s.q.count + c'.counted)
    (hroom : c'.claiming = 0 ∨ c'.claiming = 1 ∧ s.q.count < s.q.max) :
    ({ s with q := { s.q with count := count }, calls := s.calls.set i c' } :
      AqueueRun α).Sound := by
  have hcounted : tally EnqueueCall.counted (s.calls.set i c') + c.counted =
      tally EnqueueCall.counted s.calls + c'.counted := tally_set hi
  have hclaiming : tally EnqueueCall.claiming (s.calls.set i c') + c.claiming =
      tally EnqueueCall.claiming s.calls + c'.claiming := tally_set hi
  have hopen : tally EnqueueCall.weight (s.calls.set i c') + c.weight =
      tally EnqueueCall.weight s.calls + c'.weight := tally_set hi
  have hbefore := h.count
  have hspace := h.room
  have hless := h.claiming_le
  have hfew := h.few
  exact { h with
    count := by
      simp only
      omega
    room := by
      simp only
      rcases hroom with hnone | ⟨hone, hlt⟩ <;> omega
    few := by
      unfold openCalls at hfew ⊢
      simp only
      omega
    ring := by
      apply h.ring.congr
      intro p
      simp only [AqueueRun.at]
      congr 1
      exact tally_set_of_eq hi (hpending _ _)
    placed := by
      rw [h.placed]
      exact (tally_set_of_eq hi hplaced).symm }

/-- A call that has not counted itself leaves room in the count. -/
theorem count_succ_lt {obj : α} (h : s.Sound) (hi : s.calls[i]? = some (.enter obj)) :
    s.q.count + 1 < 2 ^ 64 := by
  have hcounted : tally EnqueueCall.counted (s.calls.set i (.claim obj)) + 0 =
      tally EnqueueCall.counted s.calls + 1 := tally_set hi
  have hopen : tally EnqueueCall.weight (s.calls.set i (.claim obj)) + 1 =
      tally EnqueueCall.weight s.calls + 1 := tally_set hi
  have hle := tally_le EnqueueCall.counted_le (s.calls.set i (.claim obj))
  have hcount := h.count
  have hroom := h.room
  have hfew := h.few
  unfold openCalls at hfew
  omega

/-- A call counts itself, and is refused where the count was at the capacity. -/
theorem enter {obj : α} (h : s.Sound) (hi : s.calls[i]? = some (.enter obj)) :
    ({ s with
      q := { s.q with count := u64 (s.q.count + 1) }
      calls := s.calls.set i (if s.q.max ≤ s.q.count then .backOff obj else .claim obj) } :
        AqueueRun α).Sound := by
  have hwrap : u64 (s.q.count + 1) = s.q.count + 1 := by
    exact_mod_cast u64_natCast (h.count_succ_lt hi)
  rw [hwrap]
  by_cases hfull : s.q.max ≤ s.q.count
  · rw [if_pos hfull]
    exact h.recount hi (fun _ _ => rfl) rfl le_rfl rfl (Or.inl rfl)
  · rw [if_neg hfull]
    exact h.recount hi (fun _ _ => rfl) rfl le_rfl rfl (Or.inr ⟨rfl, by omega⟩)

/-- A refused call takes its count back. -/
theorem backOff {obj : α} (h : s.Sound) (hi : s.calls[i]? = some (.backOff obj)) :
    ({ s with
      q := { s.q with count := u64 ((s.q.count : ℤ) - 1) }
      calls := s.calls.set i (.refused obj) } : AqueueRun α).Sound := by
  have hone : 1 ≤ tally EnqueueCall.counted s.calls := by
    obtain ⟨r, hr⟩ := tally_eq_add (f := EnqueueCall.counted) hi
    have : (EnqueueCall.backOff obj).counted = 1 := rfl
    omega
  have hserved := h.served_le
  have hcount := h.count
  have hlt := h.count_lt
  unfold served at hserved
  have hwrap : u64 ((s.q.count : ℤ) - 1) = s.q.count - 1 := by
    have hcast : ((s.q.count : ℤ) - 1) = ((s.q.count - 1 : ℕ) : ℤ) := by omega
    rw [hcast, u64_natCast (by omega)]
  have hback : s.q.count - 1 + (EnqueueCall.backOff obj).counted =
      s.q.count + (EnqueueCall.refused obj).counted := by
    simp only [EnqueueCall.counted]
    omega
  rw [hwrap]
  exact h.recount hi (fun _ _ => rfl) rfl (Nat.zero_le _) hback (Or.inl rfl)

/-- A call that checks its slot finds `NULL` there. -/
theorem check {obj : α} {head : ℕ} (h : s.Sound) (hi : s.calls[i]? = some (.check obj head)) :
    s.q.isNull (head % s.q.max) = true ∧
      ({ s with calls := s.calls.set i (.fill obj head) } : AqueueRun α).Sound := by
  constructor
  · apply h.isNull_of_pending (x := obj) hi (Nat.mod_lt _ h.pos)
    simp [EnqueueCall.pendingAt]
  · exact h.recount hi (fun _ _ => rfl) rfl le_rfl rfl (Or.inl rfl)

/-- A call that advances the head gets the next place in the order, whose slot nobody else has. -/
theorem claim {obj : α} (h : s.Sound) (hi : s.calls[i]? = some (.claim obj)) :
    ({ s with
      q := { s.q with head := u64 (s.q.head + 1) }
      calls := s.calls.set i (.check obj s.q.head)
      tickets := s.tickets ++ [obj] } : AqueueRun α).Sound := by
  have hcounted : tally EnqueueCall.counted (s.calls.set i (.check obj s.q.head)) + 1 =
      tally EnqueueCall.counted s.calls + 0 := tally_set hi
  have hclaiming : tally EnqueueCall.claiming (s.calls.set i (.check obj s.q.head)) + 1 =
      tally EnqueueCall.claiming s.calls + 0 := tally_set hi
  have hopen : tally EnqueueCall.weight (s.calls.set i (.check obj s.q.head)) =
      tally EnqueueCall.weight s.calls := tally_set_of_eq hi rfl
  have hserved := h.served_le
  have hcount := h.count
  have hroom := h.room
  have hfew := h.few
  exact { h with
    head := by
      have hcast : ((s.q.head + 1 : ℤ) % 2 ^ 64).toNat = (s.q.head + 1) % 2 ^ 64 := by omega
      simp only [u64, List.length_append, List.length_singleton]
      rw [hcast, h.head]
      omega
    order := by
      have hserved' : s.served ≤ s.tickets.length := hserved
      simp only [served] at hserved' ⊢
      rw [List.take_append_of_le_length hserved']
      exact h.order
    count := by
      simp only [List.length_append, List.length_singleton]
      omega
    room := by
      simp only [List.length_append, List.length_singleton]
      omega
    few := by
      unfold openCalls at hfew ⊢
      simpa only [hopen] using hfew
    ring := by
      apply h.ring.push ?_ h.pos hserved
      · intro p
        have hpending : tally (EnqueueCall.pendingAt s.q.max p)
            (s.calls.set i (.check obj s.q.head)) + 0 =
            tally (EnqueueCall.pendingAt s.q.max p) s.calls +
              EnqueueCall.pendingAt s.q.max p (.check obj s.q.head) := tally_set hi
        rw [add_zero] at hpending
        simp only [AqueueRun.at, Aqueue.slotItem]
        rw [hpending, add_assoc, EnqueueCall.pendingAt, h.head_mod]
        congr 2
        by_cases hp : p = s.tickets.length % s.q.max
        · simp [hp]
        · rw [if_neg hp, if_neg fun heq => hp heq.symm]
      · simp only [served]
        omega
    placed := by
      have hset : tally EnqueueCall.placed (s.calls.set i (.check obj s.q.head)) + 0 =
          tally EnqueueCall.placed s.calls + {obj} := tally_set hi
      rw [add_zero, ← h.placed] at hset
      simp only [hset]
      rfl }

/-- A call that fills its slot finds `NULL` there still. -/
theorem fill {obj : α} {head : ℕ} (h : s.Sound) (hi : s.calls[i]? = some (.fill obj head)) :
    s.q.isNull (head % s.q.max) = true ∧
      ({ s with
        q := { s.q with buffer := s.q.buffer.set (head % s.q.max) (some obj) }
        calls := s.calls.set i (.accepted obj) } : AqueueRun α).Sound := by
  have hlt := Nat.mod_lt head h.pos
  have hnull : s.q.isNull (head % s.q.max) = true := by
    apply h.isNull_of_pending (x := obj) hi hlt
    simp [EnqueueCall.pendingAt]
  refine ⟨hnull, ?_⟩
  have hbuffer : head % s.q.max < s.q.buffer.length := by
    rw [h.length]
    exact hlt
  have hcounted : tally EnqueueCall.counted (s.calls.set i (.accepted obj)) =
      tally EnqueueCall.counted s.calls := tally_set_of_eq hi rfl
  have hclaiming : tally EnqueueCall.claiming (s.calls.set i (.accepted obj)) =
      tally EnqueueCall.claiming s.calls := tally_set_of_eq hi rfl
  have hopen : tally EnqueueCall.weight (s.calls.set i (.accepted obj)) + 1 =
      tally EnqueueCall.weight s.calls + 0 := tally_set hi
  have hfew := h.few
  exact { h with
    length := by simpa using h.length
    count := by
      simp only [hcounted]
      exact h.count
    room := by
      simp only [hclaiming]
      exact h.room
    few := by
      unfold openCalls at hfew ⊢
      simp only
      omega
    ring := by
      apply h.ring.congr
      intro p
      have hpending : tally (EnqueueCall.pendingAt s.q.max p) (s.calls.set i (.accepted obj)) +
          EnqueueCall.pendingAt s.q.max p (.fill obj head) =
          tally (EnqueueCall.pendingAt s.q.max p) s.calls + 0 := tally_set hi
      rw [add_zero] at hpending
      simp only [AqueueRun.at]
      rw [← hpending]
      by_cases hp : p = head % s.q.max
      · subst hp
        rw [slotItem_set_self hbuffer, slotItem_of_isNull hnull, zero_add, add_comm]
        simp [EnqueueCall.pendingAt]
      · rw [slotItem_set_ne hp]
        simp [EnqueueCall.pendingAt, Ne.symm hp]
    placed := by
      have hplaced : tally EnqueueCall.placed (s.calls.set i (.accepted obj)) =
          tally EnqueueCall.placed s.calls := tally_set_of_eq hi rfl
      rw [h.placed, hplaced] }

/-- Every call that has not returned can take its next step. -/
theorem advance (h : s.Sound) (hi : s.calls[i]? = some c) (hc : c.inside = true) :
    ∃ t, aqueueStep s (.advance i) = some t ∧ t.Sound := by
  cases c with
  | enter obj => exact ⟨_, by simp [aqueueStep, hi, enqueueStep], h.enter hi⟩
  | backOff obj => exact ⟨_, by simp [aqueueStep, hi, enqueueStep], h.backOff hi⟩
  | claim obj => exact ⟨_, by simp [aqueueStep, hi, enqueueStep], h.claim hi⟩
  | check obj head =>
    obtain ⟨hnull, hsound⟩ := h.check hi
    exact ⟨_, by simp [aqueueStep, hi, enqueueStep, hnull], hsound⟩
  | fill obj head =>
    obtain ⟨hnull, hsound⟩ := h.fill hi
    exact ⟨_, by simp [aqueueStep, hi, enqueueStep, hnull], hsound⟩
  | refused obj => cases hc
  | accepted obj => cases hc

/-! ### The steps of the consumer -/

/-- The consumer finds `NULL` at the tail, or the object whose turn it is. -/
theorem take (h : s.Sound) (hidle : s.consumer = .idle) :
    (s.q.buffer[s.q.tail]? = some none) ∨
      ∃ x, s.q.buffer[s.q.tail]? = some (some x) ∧ s.tickets[s.returned.length]? = some x ∧
        ({ s with
          q := { s.q with buffer := s.q.buffer.set s.q.tail none }
          consumer := .taken x } : AqueueRun α).Sound := by
  have htail := h.tail
  have hserved : s.served = s.returned.length := by simp [served, hidle, DequeueCall.items]
  simp only [hidle, DequeueCall.passed, add_zero] at htail
  have hlt : s.q.tail < s.q.max := htail ▸ Nat.mod_lt _ h.pos
  have hbuffer : s.q.tail < s.q.buffer.length := by
    rw [h.length]
    exact hlt
  rw [List.getElem?_eq_getElem hbuffer]
  cases hslot : s.q.buffer[s.q.tail] with
  | none => exact Or.inl rfl
  | some x =>
    right
    have hitem : s.q.slotItem s.q.tail = {x} := by
      simp [Aqueue.slotItem, List.getElem?_eq_getElem hbuffer, hslot]
    -- The slot has something, so a ticket for it is outstanding, which is the oldest one.
    have hlive : s.returned.length < s.tickets.length := by
      by_contra hall
      have hempty := h.ring.empty (by omega) hlt
      rw [AqueueRun.at, hitem] at hempty
      simpa using congrArg Multiset.card hempty
    have hat := h.ring.live s.returned.length _ hserved.le (List.getElem?_eq_getElem hlive)
    rw [← htail, AqueueRun.at, hitem] at hat
    have hmem : x ∈ ({s.tickets[s.returned.length]} : Multiset α) := by
      rw [← hat]
      simp
    have hx : x = s.tickets[s.returned.length] := Multiset.mem_singleton.mp hmem
    have hpending : tally (EnqueueCall.pendingAt s.q.max s.q.tail) s.calls = 0 := by
      have hcard := congrArg Multiset.card hat
      rw [Multiset.card_add, Multiset.card_singleton, Multiset.card_singleton] at hcard
      exact Multiset.card_eq_zero.mp (by omega)
    refine ⟨x, rfl, by rw [List.getElem?_eq_getElem hlive, hx], ?_⟩
    have horder := h.order
    simp only [hserved, hidle, DequeueCall.items, List.append_nil] at horder
    exact { h with
      length := by simpa using h.length
      tail := htail
      order := by
        simp only [served, DequeueCall.items, List.length_singleton]
        rw [List.take_succ_eq_append_getElem hlive, ← horder, ← hx]
      ring := by
        have hring := h.ring
        rw [hserved] at hring
        apply hring.pop
        intro p
        simp only [AqueueRun.at]
        by_cases hp : p = s.q.tail
        · subst hp
          rw [hpending, ← htail]
          simp [Aqueue.slotItem, hbuffer]
        · rw [← htail, if_neg hp, slotItem_set_ne hp] }

/-- The tail is moved past the slot it has emptied. -/
theorem move {x : α} (h : s.Sound) (htaken : s.consumer = .taken x) :
    ({ s with
      q := { s.q with tail := if s.q.max ≤ s.q.tail + 1 then 0 else s.q.tail + 1 }
      consumer := .moved x } : AqueueRun α).Sound := by
  have htail := h.tail
  simp only [htaken, DequeueCall.passed, add_zero] at htail
  have hlt := Nat.mod_lt s.returned.length h.pos
  exact { h with
    tail := by
      have hwrap := add_mod_wrap (a := s.returned.length) (d := 1) h.pos h.pos
      simp only [DequeueCall.passed, hwrap, htail]
      split_ifs <;> omega
    order := by
      have horder := h.order
      simpa only [served, htaken, DequeueCall.items] using horder
    ring := by
      have hring := h.ring
      simp only [served, htaken, DequeueCall.items] at hring ⊢
      exact hring.congr fun _ => rfl }

/-- The count is above zero and lowered, and the pointer returned. -/
theorem release {x : α} (h : s.Sound) (hmoved : s.consumer = .moved x) :
    0 < s.q.count ∧
      ({ s with
        q := { s.q with count := u64 ((s.q.count : ℤ) - 1) }
        consumer := .idle
        returned := s.returned ++ [x] } : AqueueRun α).Sound := by
  have hserved := h.served_le
  simp only [served, hmoved, DequeueCall.items, List.length_singleton] at hserved
  have hcount := h.count
  have hlt := h.count_lt
  have hroom := h.room
  have hpos : 0 < s.q.count := by omega
  have hwrap : u64 ((s.q.count : ℤ) - 1) = s.q.count - 1 := by
    have hcast : ((s.q.count : ℤ) - 1) = ((s.q.count - 1 : ℕ) : ℤ) := by omega
    rw [hcast, u64_natCast (by omega)]
  refine ⟨hpos, ?_⟩
  rw [hwrap]
  exact { h with
    tail := by
      have htail := h.tail
      simpa [hmoved, DequeueCall.passed] using htail
    order := by
      have horder := h.order
      simpa [served, hmoved, DequeueCall.items] using horder
    count := by
      simp only [List.length_append, List.length_singleton]
      omega
    room := by
      simp only [List.length_append, List.length_singleton]
      omega
    ring := by
      have hring := h.ring
      simp only [served, hmoved, DequeueCall.items, List.length_append, List.length_singleton,
        List.length_nil, add_zero] at hring ⊢
      exact hring.congr fun _ => rfl }

/-- The consumer can always take its next step. -/
theorem dequeue (h : s.Sound) : ∃ t, aqueueStep s .dequeue = some t ∧ t.Sound := by
  cases hconsumer : s.consumer with
  | idle =>
    rcases h.take hconsumer with hnull | ⟨x, hslot, -, hsound⟩
    · refine ⟨s, ?_, h⟩
      simp [aqueueStep, hconsumer, dequeueStep, hnull]
      rw [← hconsumer]
    · refine ⟨_, ?_, hsound⟩
      simp [aqueueStep, hconsumer, dequeueStep, hslot]
  | taken x =>
    refine ⟨_, ?_, h.move hconsumer⟩
    simp [aqueueStep, hconsumer, dequeueStep]
  | moved x =>
    obtain ⟨hpos, hsound⟩ := h.release hconsumer
    refine ⟨_, ?_, hsound⟩
    simp [aqueueStep, hconsumer, dequeueStep, hpos]

/-- Every admitted step can be taken and keeps the invariant. -/
theorem step (h : s.Sound) (op : AqueueOp α) (hop : s.Admits op) :
    ∃ t, aqueueStep s op = some t ∧ t.Sound := by
  cases op with
  | enqueue obj =>
    refine ⟨_, rfl, ?_⟩
    have hadmits : s.openCalls + 1 + s.q.max < 2 ^ 64 := hop
    exact { h with
      count := by
        simp only [tally_append]
        exact h.count
      room := by
        simp only [tally_append]
        exact h.room
      few := by
        unfold openCalls at hadmits ⊢
        simp only [tally_append]
        exact hadmits
      ring := h.ring.congr fun p => by simp [AqueueRun.at, EnqueueCall.pendingAt]
      placed := by
        simp only [tally_append]
        rw [h.placed]
        simp [EnqueueCall.placed] }
  | advance i =>
    obtain ⟨c, hi, hc⟩ := hop
    exact h.advance hi hc
  | dequeue => exact h.dequeue

end AqueueRun.Sound

/-- A new queue with room for a power of two of pointers. -/
theorem aqueueStart_sound {k : ℕ} (hk : k < 64) : (aqueueStart (2 ^ k) : AqueueRun α).Sound where
  pos := Nat.pow_pos (by omega)
  dvd := Nat.pow_dvd_pow 2 hk.le
  length := by simp [aqueueStart, aqueueCreate]
  head := rfl
  tail := by simp [aqueueStart, aqueueCreate, DequeueCall.passed]
  order := rfl
  count := rfl
  room := Nat.zero_le _
  few := by
    have := Nat.pow_lt_pow_right (a := 2) (by omega) hk
    simpa [aqueueStart, aqueueCreate, AqueueRun.openCalls] using this
  ring := by
    apply TicketRing.start
    intro p hp
    have hp : p < 2 ^ k := hp
    simp [AqueueRun.at, aqueueStart, aqueueCreate, Aqueue.slotItem, hp]
  placed := rfl

/-! ### What producers and the consumer can rely on -/

theorem aqueue_sound {k : ℕ} (hk : k < 64)
    (h : Reaches aqueueStep AqueueRun.Admits (aqueueStart (2 ^ k)) s) : s.Sound :=
  h.invariant (aqueueStart_sound hk) fun s op t hs hop hstep => by
    obtain ⟨t', ht', hsound⟩ := hs.step op hop
    obtain rfl : t' = t := Option.some.inj (ht'.symm.trans hstep)
    exact hsound

/-- In any interleaving of any number of producers with the consumer no assertion fails, the objects
returned are the first ones in the order of the head, and that order has the object of every
call that got its place, once. -/
theorem aqueue_first_in_first_out {k : ℕ} (hk : k < 64)
    (h : Reaches aqueueStep AqueueRun.Admits (aqueueStart (2 ^ k)) s) :
    (∀ op, s.Admits op → ∃ t, aqueueStep s op = some t) ∧ s.returned <+: s.tickets ∧
      (s.tickets : Multiset α) = tally EnqueueCall.placed s.calls := by
  have hsound := aqueue_sound hk h
  refine ⟨?_, ?_, hsound.placed⟩
  · intro op hop
    obtain ⟨t, ht, -⟩ := hsound.step op hop
    exact ⟨t, ht⟩
  · have hfirst : s.returned <+: s.returned ++ s.consumer.items := List.prefix_append _ _
    rw [hsound.order] at hfirst
    exact hfirst.trans (List.take_prefix _ _)

/-- Two producers on a ring of two slots: the second one fills its slot first. -/
def twoProducers : List (AqueueOp ℕ) :=
  [.enqueue 5, .enqueue 6, .advance 0, .advance 0, .advance 1, .advance 1, .advance 1, .advance 1,
    .dequeue, .advance 0, .advance 0, .dequeue, .dequeue, .dequeue]

/-- Where these steps lead. -/
def twoProducersEnd : AqueueRun ℕ where
  q := ⟨1, 2, 1, 2, [none, some 6]⟩
  calls := [.accepted 5, .accepted 6]
  consumer := .idle
  tickets := [5, 6]
  returned := [5]

theorem twoProducers_run :
    runOps aqueueStep AqueueRun.Admits (aqueueStart (2 ^ 1)) twoProducers =
      some twoProducersEnd := by
  rfl

theorem aqueue_first_in_first_out_two :
    (∀ op, twoProducersEnd.Admits op → ∃ t, aqueueStep twoProducersEnd op = some t) ∧
      twoProducersEnd.returned <+: twoProducersEnd.tickets ∧
      (twoProducersEnd.tickets : Multiset ℕ) =
        tally EnqueueCall.placed twoProducersEnd.calls :=
  aqueue_first_in_first_out (k := 1) (by norm_num) (reaches_of_runOps _ twoProducers_run)

/-- `NULL` is returned only when every object that has its place was returned, or the call whose
object is next has not filled its slot; a call is refused only when the objects with a place and
the calls that have counted themselves reach the capacity. -/
theorem aqueue_failures {k : ℕ} (hk : k < 64)
    (h : Reaches aqueueStep AqueueRun.Admits (aqueueStart (2 ^ k)) s) :
    (s.consumer = .idle → s.q.buffer[s.q.tail]? = some none →
      s.returned = s.tickets ∨ ∃ c ∈ s.calls, ∃ x, s.tickets[s.returned.length]? = some x ∧
        c.pendingAt s.q.max (s.returned.length % s.q.max) = {x}) ∧
    (s.q.max ≤ s.q.count ↔ s.q.max + s.returned.length ≤
      s.tickets.length + tally EnqueueCall.counted s.calls) := by
  have hsound := aqueue_sound hk h
  constructor
  · intro hidle hnull
    have hserved : s.served = s.returned.length := by
      simp [AqueueRun.served, hidle, DequeueCall.items]
    have horder := hsound.order
    simp only [hserved, hidle, DequeueCall.items, List.append_nil] at horder
    rcases Nat.lt_or_ge s.returned.length s.tickets.length with hlive | hall
    · right
      have htail := hsound.tail
      simp only [hidle, DequeueCall.passed, add_zero] at htail
      have hat := hsound.ring.live s.returned.length _ hserved.le (List.getElem?_eq_getElem hlive)
      have hitem : s.q.slotItem (s.returned.length % s.q.max) = 0 := by
        rw [← htail]
        simp [Aqueue.slotItem, hnull]
      rw [AqueueRun.at, hitem, zero_add] at hat
      have hmem : s.tickets[s.returned.length] ∈
          tally (EnqueueCall.pendingAt s.q.max (s.returned.length % s.q.max)) s.calls := by
        rw [hat]
        simp
      obtain ⟨c, hc, hx⟩ := mem_tally.mp hmem
      exact ⟨c, hc, _, List.getElem?_eq_getElem hlive, EnqueueCall.pendingAt_eq hx⟩
    · left
      rw [List.take_of_length_le hall] at horder
      exact horder
  · have hcount := hsound.count
    omega

theorem aqueue_failures_two :
    (twoProducersEnd.consumer = .idle →
      twoProducersEnd.q.buffer[twoProducersEnd.q.tail]? = some none →
        twoProducersEnd.returned = twoProducersEnd.tickets ∨
          ∃ c ∈ twoProducersEnd.calls, ∃ x,
            twoProducersEnd.tickets[twoProducersEnd.returned.length]? = some x ∧
            c.pendingAt twoProducersEnd.q.max
              (twoProducersEnd.returned.length % twoProducersEnd.q.max) = {x}) ∧
      (twoProducersEnd.q.max ≤ twoProducersEnd.q.count ↔
        twoProducersEnd.q.max + twoProducersEnd.returned.length ≤
          twoProducersEnd.tickets.length + tally EnqueueCall.counted twoProducersEnd.calls) :=
  aqueue_failures (k := 1) (by norm_num) (reaches_of_runOps _ twoProducers_run)

theorem AqueueRun.weight_zero (hopen : s.openCalls = 0) {c : EnqueueCall α} (hc : c ∈ s.calls) :
    c.weight = 0 := by
  obtain ⟨i, hi⟩ := List.getElem?_of_mem hc
  obtain ⟨r, hr⟩ := tally_eq_add (f := EnqueueCall.weight) hi
  unfold AqueueRun.openCalls at hopen
  omega

/-- With no call in its course the next object is in the ring, and the consumer gets it. -/
theorem AqueueRun.Sound.serve (h : s.Sound) (hopen : s.openCalls = 0) (hidle : s.consumer = .idle)
    (hlive : s.returned.length < s.tickets.length) :
    ∃ t, [AqueueOp.dequeue, .dequeue, .dequeue].foldlM aqueueStep s = some t ∧ t.Sound ∧
      t.openCalls = 0 ∧ t.consumer = .idle ∧ t.tickets = s.tickets ∧
      t.returned.length = s.returned.length + 1 := by
  have hpending : ∀ n p, tally (EnqueueCall.pendingAt n p) s.calls = 0 := fun n p =>
    tally_zero fun c hc => (EnqueueCall.idle_of_weight (weight_zero hopen hc) n p).1
  rcases h.take hidle with hnull | ⟨x, hslot, -, htaken⟩
  · exfalso
    have hserved : s.served = s.returned.length := by simp [served, hidle, DequeueCall.items]
    have htail := h.tail
    simp only [hidle, DequeueCall.passed, add_zero] at htail
    have hat := h.ring.live s.returned.length _ hserved.le (List.getElem?_eq_getElem hlive)
    have hitem : s.q.slotItem (s.returned.length % s.q.max) = 0 := by
      rw [← htail]
      simp [Aqueue.slotItem, hnull]
    rw [AqueueRun.at, hitem, hpending] at hat
    simpa using congrArg Multiset.card hat
  · have hmoved := htaken.move rfl
    obtain ⟨hpos, hreturned⟩ := hmoved.release rfl
    have hpos : 0 < s.q.count := hpos
    refine ⟨_, ?_, hreturned, hopen, rfl, rfl, by simp⟩
    simp [aqueueStep, hidle, dequeueStep, hslot, hpos]

theorem AqueueRun.Sound.drain (h : s.Sound) (hopen : s.openCalls = 0) (hidle : s.consumer = .idle)
    {m : ℕ} (hm : s.tickets.length = s.returned.length + m) :
    ∃ t, (List.replicate (3 * m) AqueueOp.dequeue).foldlM aqueueStep s = some t ∧
      t.returned = s.tickets ∧ aqueueCount t.q = 0 := by
  induction m generalizing s with
  | zero =>
    refine ⟨s, rfl, ?_, ?_⟩
    · have horder := h.order
      simp only [served, hidle, DequeueCall.items, List.append_nil, List.length_nil] at horder
      rw [horder, List.take_of_length_le (by omega)]
    · have hcount := h.count
      have hnone : ∀ c ∈ s.calls, EnqueueCall.counted c = 0 := fun c hc =>
        (EnqueueCall.idle_of_weight (weight_zero hopen hc) 0 0).2
      rw [tally_zero hnone] at hcount
      unfold aqueueCount
      omega
  | succ m ih =>
    obtain ⟨t, hserve, hsound, hopen', hidle', htickets, hlength⟩ := h.serve hopen hidle (by omega)
    obtain ⟨u, hdrain, hreturned, hzero⟩ := ih hsound hopen' hidle' (by rw [htickets]; omega)
    refine ⟨u, ?_, hreturned.trans htickets, hzero⟩
    have hsplit : List.replicate (3 * (m + 1)) (AqueueOp.dequeue (α := α)) =
        [.dequeue, .dequeue, .dequeue] ++ List.replicate (3 * m) .dequeue := by
      rw [Nat.mul_add, Nat.mul_one, Nat.add_comm, List.replicate_add]
      rfl
    rw [hsplit, List.foldlM_append, hserve]
    exact hdrain

/-- Once all calls have returned, the consumer gets every object that is left, in order, in three
steps for each, and the count returns to zero. -/
theorem aqueue_drains {k : ℕ} (hk : k < 64)
    (h : Reaches aqueueStep AqueueRun.Admits (aqueueStart (2 ^ k)) s) (hopen : s.openCalls = 0)
    (hidle : s.consumer = .idle) :
    ∃ t, (List.replicate (3 * (s.tickets.length - s.returned.length)) AqueueOp.dequeue).foldlM
        aqueueStep s = some t ∧
      t.returned = s.tickets ∧ aqueueCount t.q = 0 := by
  have hsound := aqueue_sound hk h
  have hserved := hsound.served_le
  unfold AqueueRun.served at hserved
  exact hsound.drain hopen hidle (by omega)

theorem aqueue_drains_two :
    ∃ t, (List.replicate (3 * (twoProducersEnd.tickets.length - twoProducersEnd.returned.length))
        AqueueOp.dequeue).foldlM aqueueStep twoProducersEnd = some t ∧
      t.returned = twoProducersEnd.tickets ∧ aqueueCount t.q = 0 :=
  aqueue_drains (k := 1) (by norm_num) (reaches_of_runOps _ twoProducers_run) rfl rfl

end LdacsSdk
