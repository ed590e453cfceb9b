import LdacsSdk.Window.WindowPair

/-!
# Delivery in order between two windows

If fragments arrive in the order in which they were sent, none is lost, and they arrive only when
the receiver window lets them in, then every SDU is handed up, in the order in which it was put.
-/
namespace LdacsSdk

open Library

namespace WindowPair

variable {s t : WindowPair} {n arrived : ℕ} {past : ℕ → UInt8}

/-- Calls are orderly, and fragments arrive in turn, are not lost, and find the window open. -/
def InTurn (s : WindowPair) (op : PairOp) : Prop :=
  s.Orderly op ∧
    match op with
    | .arrive i _ => i = 0 ∧
        s.air.head?.all (fun fragment => decide (s.rx.Accepts fragment.2.pid)) = true
    | .lose _ => False
    | _ => True

instance (s : WindowPair) : (op : PairOp) → Decidable (s.InTurn op)
  | .arrive i allocated =>
    inferInstanceAs (Decidable (s.Orderly (.arrive i allocated) ∧ i = 0 ∧ _ = true))
  | .lose i => inferInstanceAs (Decidable (s.Orderly (.lose i) ∧ False))
  | .put cos buf => inferInstanceAs (Decidable (s.Orderly (.put cos buf) ∧ True))
  | .send b => inferInstanceAs (Decidable (s.Orderly (.send b) ∧ True))
  | .inGet => inferInstanceAs (Decidable (s.Orderly .inGet ∧ True))
  | .ack pid => inferInstanceAs (Decidable (s.Orderly (.ack pid) ∧ True))

/-- Fragments are in the air in turn, and the SDUs that have arrived and were not handed up are the
ready ones. -/
structure Ordered (n : ℕ) (s : WindowPair) (arrived : ℕ) : Prop where
  le : arrived ≤ s.tx.sent
  air : s.air.map Prod.fst = List.range' arrived (s.tx.sent - arrived)
  handed : s.handed.map Prod.fst = List.range s.handed.length
  handedLe : s.handed.length ≤ arrived
  ready : ∀ j, s.passed ≤ j → j < s.passed + n →
    ((s.rx.items (j % n)).Ready ↔ s.handed.length ≤ j ∧ j < arrived)

/-- The receiver window stands at the first SDU that was not handed up. -/
theorem Sound.passed_eq (h : s.Sound n)
    (hhanded : s.handed.map Prod.fst = List.range s.handed.length) :
    s.passed = s.handed.length := by
  have hmem : ∀ j, j ∈ s.handed.map Prod.fst ↔ j < s.handed.length := by
    intro j
    rw [hhanded, List.mem_range]
  apply Nat.le_antisymm
  · by_contra hlt
    have := (hmem _).mp (h.rx.passed _ (not_le.mp hlt))
    omega
  · by_contra hlt
    exact h.front ((hmem _).mpr (not_le.mp hlt))

theorem Ordered.bytes (ho : s.Ordered n arrived) (h : s.Sound n) :
    s.handed.map Prod.snd = s.tx.puts.take s.handed.length := by
  have hlen : s.handed.length ≤ s.tx.puts.length :=
    ho.handedLe.trans (ho.le.trans h.ring.sentLe)
  apply List.ext_getElem
  · simp [hlen]
  · intro i hi hi'
    have hi : i < s.handed.length := by simpa using hi
    have hput : i < s.tx.puts.length := by omega
    have hbytes := (h.handed _ (List.getElem_mem hi)).2
    have hmap : (s.handed.map Prod.fst)[i]? = some i := by
      rw [ho.handed]
      simp [hi]
    have hnumber : (s.handed[i]).1 = i := by simpa [hi] using hmap
    rw [hnumber] at hbytes
    simp [hbytes, SendState.sdu, hput]

theorem ordered_start : (start n).Ordered n 0 where
  le := Nat.zero_le _
  air := rfl
  handed := rfl
  handedLe := le_rfl
  ready := by simp [start, initWindow, emptyWindow, WindowItem.Ready]

/-- A sender that has sent nothing. -/
theorem Ordered.sender (ho : s.Ordered n arrived) {tx : SendState} (hsent : tx.sent = s.tx.sent) :
    ({ s with tx := tx } : WindowPair).Ordered n arrived where
  le := hsent ▸ ho.le
  air := hsent ▸ ho.air
  handed := ho.handed
  handedLe := ho.handedLe
  ready := ho.ready

theorem Ordered.send (ho : s.Ordered n arrived) (h : s.Sound n) (h256 : n ≤ 256) {b : ℤ}
    (horderly : s.Orderly (.send b)) (hs : pairStep past s (.send b) = some t) :
    t.Ordered n arrived := by
  have hle := ho.le
  rcases h.checkGet h256 past horderly with hidle | ⟨ctx, w, b', hget, -, -, -, hlfr, -⟩
  · simp only [pairStep, sendStep, hidle, Option.map_none, Option.getD_none, Bool.false_eq_true,
      if_false, Option.pure_def, Option.bind_eq_bind, Option.bind_some, Option.some.injEq] at hs
    subst hs
    simp only [Option.toList_none, List.map_nil, List.append_nil]
    exact ho.sender rfl
  · simp only [pairStep, sendStep, hget, Option.map_some, Option.getD_some, hlfr, if_true,
      Option.pure_def, Option.bind_eq_bind, Option.bind_some, Option.some.injEq] at hs
    subst hs
    refine ⟨hle.trans (Nat.le_succ _), ?_, ho.handed, ho.handedLe, ho.ready⟩
    have hmore : s.tx.sent + 1 - arrived = s.tx.sent - arrived + 1 := by omega
    have hend : arrived + 1 * (s.tx.sent - arrived) = s.tx.sent := by omega
    simp only [Option.toList_some, List.map_append, List.map_cons, List.map_nil]
    rw [ho.air, hmore, List.range'_concat, hend]

/-- The next fragment arrives, and the window lets it in. -/
theorem Ordered.arrive (ho : s.Ordered n arrived) (h : s.Sound n) (hn : 0 < n) (h256 : n ≤ 256)
    {allocated : Bool} (hop : s.InTurn (.arrive 0 allocated))
    (hs : pairStep past s (.arrive 0 allocated) = some t) : t.Ordered n (arrived + 1) := by
  obtain ⟨hlen, -, hopen⟩ := hop
  have hlen : 0 < s.air.length := hlen
  have hget := List.getElem?_eq_getElem hlen
  obtain ⟨rx, hstep, -, hother, hready, -⟩ := h.arrive hn h256 hget allocated
  obtain rfl := Option.some.inj (hstep.symm.trans hs)
  obtain ⟨f, rest, hair⟩ := List.exists_cons_of_length_pos hlen
  simp only [hair, List.getElem_cons_zero] at hother hready
  have hcount : s.tx.sent - arrived = rest.length + 1 := by
    have := congrArg List.length ho.air
    simpa [hair] using this.symm
  have htail := ho.air
  rw [hair, hcount, List.map_cons, List.range'_succ, List.cons.injEq] at htail
  obtain ⟨hnumber, hrest⟩ := htail
  have hin : f.1 < s.passed + n / 2 := by
    rw [hair] at hopen
    apply (h.accepts_iff hn h256 (hair ▸ List.mem_cons_self)).mp
    simpa using hopen
  have hlap := h.air_lap h256 (f := f) (hair ▸ List.mem_cons_self)
  have hle : arrived + 1 ≤ s.tx.sent := by omega
  refine ⟨hle, ?_, ho.handed, ho.handedLe.trans (Nat.le_succ _), ?_⟩
  · have hless : s.tx.sent - (arrived + 1) = rest.length := by omega
    simp only [hair, List.eraseIdx_zero, List.tail_cons, hless]
    exact hrest
  · intro j hj hj'
    have hhanded := ho.handedLe
    by_cases hjf : j = f.1
    · simp only [hjf, hready hin, true_iff]
      omega
    · simp only [hother _ (Window.ReceiveRing.slot_ne ⟨hj, hj'⟩ hlap hjf)]
      rw [ho.ready j hj hj']
      omega

/-- A call of `window_in_get` hands up the next SDU, if it has arrived. -/
theorem Ordered.inGet (ho : s.Ordered n arrived) (h : s.Sound n) (hn : 0 < n) (h256 : n ≤ 256)
    (past : ℕ → UInt8) : ∃ t, pairStep past s .inGet = some t ∧ t.Sound n ∧ t.Ordered n arrived ∧
      t.tx = s.tx ∧ t.air = s.air ∧
      (s.handed.length < arrived → t.handed.length = s.handed.length + 1) := by
  have hpassed := h.passed_eq ho.handed
  have hlap := h.puts_le h256
  have hsent := h.ring.sentLe
  have hle := ho.le
  have hhanded := ho.handedLe
  obtain ⟨t, hstep, hsound, htx, hair, hcase⟩ := h.inGet hn h256 past
  refine ⟨t, hstep, hsound, ?_⟩
  rcases hcase with ⟨hnone, hsame, hready⟩ | ⟨k, hk, hk', hready, hfirst, hup, hrest⟩
  · have hall : s.handed.length = arrived := by
      by_contra hne
      apply hnone s.passed le_rfl (by omega)
      rw [ho.ready _ le_rfl (by omega)]
      omega
    have hpassed' := hsound.passed_eq (by rw [hsame]; exact ho.handed)
    rw [hsame] at hpassed'
    refine ⟨⟨htx ▸ hle, ?_, hsame ▸ ho.handed, hsame ▸ hhanded, ?_⟩, htx, hair, by omega⟩
    · rw [hair, htx]
      exact ho.air
    · intro j hj hj'
      rw [hready, hsame]
      exact ho.ready j (by omega) (by omega)
  · have hnext : k = s.handed.length := by
      obtain ⟨hlo, hhi⟩ := (ho.ready k hk (by omega)).mp hready
      by_contra hne
      apply hfirst s.handed.length (by omega) (by omega)
      rw [ho.ready _ (by omega) (by omega)]
      omega
    have hnow := (ho.ready k hk (by omega)).mp hready
    have hlen : t.handed.length = s.handed.length + 1 := by simp [hup]
    have hnumbers : t.handed.map Prod.fst = List.range t.handed.length := by
      rw [hlen, hup, List.map_append, ho.handed, List.range_succ, hnext]
      rfl
    have hpassed' := hsound.passed_eq hnumbers
    refine ⟨⟨htx ▸ hle, ?_, hnumbers, by omega, ?_⟩, htx, hair, fun _ => hlen⟩
    · rw [hair, htx]
      exact ho.air
    · intro j hj hj'
      rw [hrest, hlen]
      by_cases hnew : j = s.passed + n
      · -- The slot that was slid past is the last one of the new lap.
        have hslot : j % n = k % n := by rw [hnew, Nat.add_mod_right, hpassed, hnext]
        simp only [hslot, ne_eq, not_true_eq_false, false_and, false_iff]
        omega
      · have hj : s.passed ≤ j ∧ j < s.passed + n := by omega
        have hlt : s.passed ≤ k ∧ k < s.passed + n := by omega
        have hne := Window.ReceiveRing.slot_ne hj hlt (by omega)
        rw [ho.ready j (by omega) (by omega)]
        simp only [ne_eq, hne, not_false_eq_true, true_and]
        omega

theorem Ordered.step (ho : s.Ordered n arrived) (h : s.Sound n) (hn : 0 < n) (h256 : n ≤ 256)
    {op : PairOp} (hop : s.InTurn op) (hs : pairStep past s op = some t) :
    ∃ arrived, t.Ordered n arrived := by
  cases op with
  | put cos buf =>
    obtain ⟨tx, htx, hs⟩ := Option.bind_eq_some_iff.mp (by exact hs)
    obtain rfl := Option.some.inj hs
    obtain ⟨r, -, rfl⟩ := Option.map_eq_some_iff.mp htx
    exact ⟨arrived, ho.sender rfl⟩
  | send b => exact ⟨arrived, ho.send h h256 hop.1 hs⟩
  | arrive i allocated =>
    obtain rfl := hop.2.1
    exact ⟨arrived + 1, ho.arrive h hn h256 hop hs⟩
  | lose i => exact absurd hop.2 id
  | inGet =>
    obtain ⟨u, hu, -, hou, -⟩ := ho.inGet h hn h256 past
    obtain rfl := Option.some.inj (hu.symm.trans hs)
    exact ⟨arrived, hou⟩
  | ack pid =>
    obtain ⟨tx, htx, hs⟩ := Option.bind_eq_some_iff.mp (by exact hs)
    obtain rfl := Option.some.inj hs
    obtain ⟨r, -, rfl⟩ := Option.map_eq_some_iff.mp htx
    refine ⟨arrived, ho.sender ?_⟩
    split_ifs <;> rfl

/-- Calling `window_in_get` for each SDU that has arrived and was not handed up. -/
theorem Ordered.drain (ho : s.Ordered n arrived) (h : s.Sound n) (hn : 0 < n) (h256 : n ≤ 256)
    (past : ℕ → UInt8) {m : ℕ} (hm : arrived = s.handed.length + m) :
    ∃ t, (List.replicate m PairOp.inGet).foldlM (pairStep past) s = some t ∧ t.Sound n ∧
      t.Ordered n arrived ∧ t.tx = s.tx ∧ t.handed.length = arrived := by
  induction m generalizing s with
  | zero => exact ⟨s, rfl, h, ho, rfl, hm.symm⟩
  | succ m ih =>
    obtain ⟨u, hstep, hsound, hordered, htx, -, hmore⟩ := ho.inGet h hn h256 past
    have hlen := hmore (by omega)
    obtain ⟨t, hrun, hsound', hordered', htx', hlen'⟩ := ih hordered hsound (by omega)
    refine ⟨t, ?_, hsound', hordered', htx'.trans htx, hlen'⟩
    rw [List.replicate_succ, List.foldlM_cons, hstep]
    exact hrun

/-- If fragments arrive in turn and only when the window lets them in, the SDUs handed up are the
first ones that were put, in that order; and once nothing is in the air, calling `window_in_get` for
each SDU sent and not handed up hands up all of them. -/
theorem window_pair_in_order (past : ℕ → UInt8) (n : ℕ) (hn : 0 < n) (h256 : n ≤ 256)
    (h : Reaches (pairStep past) InTurn (start n) s) :
    s.handed.map Prod.snd = s.tx.puts.take s.handed.length ∧
      (s.air = [] → ∃ t, (List.replicate (s.tx.sent - s.handed.length) PairOp.inGet).foldlM
          (pairStep past) s = some t ∧
        t.handed.map Prod.snd = s.tx.puts.take s.tx.sent) := by
  obtain ⟨hsound, arrived, ho⟩ : s.Sound n ∧ ∃ arrived, s.Ordered n arrived := by
    apply h.invariant (P := fun s => s.Sound n ∧ ∃ arrived, s.Ordered n arrived)
      ⟨sound_start hn, 0, ordered_start⟩
    rintro u op t ⟨hu, arrived, hou⟩ hop hstep
    obtain ⟨t', ht', hsound⟩ := hu.step hn h256 past op hop.1
    obtain rfl := Option.some.inj (ht'.symm.trans hstep)
    exact ⟨hsound, hou.step hu hn h256 hop hstep⟩
  refine ⟨ho.bytes hsound, fun hempty => ?_⟩
  have hall : arrived = s.tx.sent := by
    have hair := congrArg List.length ho.air
    have hle := ho.le
    simp only [hempty, List.map_nil, List.length_nil, List.length_range'] at hair
    omega
  have hhanded := ho.handedLe
  obtain ⟨t, hrun, hsound', hordered, htx, hlen⟩ :=
    ho.drain hsound hn h256 past (m := s.tx.sent - s.handed.length) (by omega)
  refine ⟨t, hrun, ?_⟩
  rw [hordered.bytes hsound', htx, hlen, hall]

/-- With four numbers, five SDUs go round. -/
theorem window_pair_in_order_five : ∃ s,
    Reaches (pairStep fun _ => 0) InTurn (start 4) s ∧ s.tx.sent = 5 ∧ s.handed.length = 3 ∧
      s.handed.map Prod.snd = s.tx.puts.take s.handed.length ∧
      (s.air = [] → ∃ t, (List.replicate (s.tx.sent - s.handed.length) PairOp.inGet).foldlM
          (pairStep fun _ => 0) s = some t ∧
        t.handed.map Prod.snd = s.tx.puts.take s.tx.sent) := by
  obtain ⟨s, hs, hsent, hlen⟩ : ∃ s, runOps (pairStep fun _ => 0) InTurn (start 4)
      [.put 0 [5], .put 0 [6], .put 0 [7], .send 9, .send 9, .send 9, .arrive 0 true,
        .arrive 0 true, .inGet, .ack 0, .inGet, .ack 1, .arrive 0 true, .inGet, .ack 2, .put 0 [8],
        .put 0 [9], .send 9, .send 9, .arrive 0 true, .arrive 0 true] = some s ∧
      s.tx.sent = 5 ∧ s.handed.length = 3 := ⟨_, rfl, rfl, rfl⟩
  have hrun := reaches_of_runOps _ hs
  exact ⟨s, hrun, hsent, hlen, window_pair_in_order _ 4 (by decide) (by decide) hrun⟩

end WindowPair

end LdacsSdk
