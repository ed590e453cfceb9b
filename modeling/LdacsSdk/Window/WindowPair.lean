import LdacsSdk.Window.SendRing
import LdacsSdk.Window.ReceiveRing

/-!
# A sender window and a receiver window

The fragments that a sender window gives out are in the air until they arrive at a receiver window,
in any order, or are lost; none is doubled. Whole SDUs are sent, an SDU is put when its slot is
empty, and only SDUs that were handed up are acknowledged. Then every SDU is handed up at most
once, with the bytes that were put.
-/
namespace LdacsSdk

open Library

/-- The two windows, the fragments in the air with the numbers of their SDUs, how many SDUs the
receiver window has slid past, and the SDUs handed up with their numbers. -/
structure WindowPair where
  tx : SendState
  rx : Window
  air : List (ℕ × WindowCtx) := []
  passed : ℕ := 0
  handed : List (ℕ × List UInt8) := []

/-- The calls on the two windows, and what happens in the air. -/
inductive PairOp where
  | put (cos : ℕ) (buf : List UInt8)
  | send (availBufSz : ℤ)
  | arrive (i : ℕ) (allocated : Bool)
  | lose (i : ℕ)
  | inGet
  | ack (pid : Fin 256)

namespace WindowPair

def start (seqSize : ℕ) : WindowPair where
  tx := SendState.start seqSize
  rx := initWindow seqSize

/-- What `window_in_get` hands up: the number that the slot stands for, and the bytes. -/
def handsUp (s : WindowPair) : List (ℕ × List UInt8) :=
  s.rx.readySlot.toList.map fun p =>
    (s.passed + (p + s.rx.seqSz - s.rx.toRecvStart) % s.rx.seqSz,
      ((windowInGet s.rx).1.getD initBufferUnptr).content)

end WindowPair

/-- One call, or an event in the air. -/
def pairStep (past : ℕ → UInt8) (s : WindowPair) : PairOp → Option WindowPair
  | .put cos buf => do
    let tx ← sendStep past s.tx (.put cos buf)
    return { s with tx := tx }
  | .send b => do
    let tx ← sendStep past s.tx (.checkGet b)
    let given := (windowCheckGet past s.tx.win b).1.toList
    return { s with tx := tx, air := s.air ++ given.map fun ctx => (s.tx.sent, ctx) }
  | .arrive i allocated => do
    let fragment ← s.air[i]?
    let (rx, _) ← windowPutCtx allocated s.rx fragment.2
    return { s with rx := rx, air := s.air.eraseIdx i }
  | .lose i => do
    let _ ← s.air[i]?
    return { s with air := s.air.eraseIdx i }
  | .inGet =>
    some { s with
      rx := (windowInGet s.rx).2
      passed := s.passed + (windowInSlide s.rx.seqSz s.rx.scanned).2.length
      handed := s.handed ++ s.handsUp }
  | .ack pid => do
    let tx ← sendStep past s.tx (.ack pid)
    return { s with tx := tx }

namespace WindowPair

/-- Calls are safe for the sender, a budget covers the next SDU, and an acknowledgement is only for
SDUs that were handed up. -/
def Orderly (s : WindowPair) : PairOp → Prop
  | .put cos buf => s.tx.SafeCall (.put cos buf)
  | .send b => (s.tx.win.items (s.tx.win.toSendStart % s.tx.win.seqSz)).buf.all
      (fun buf => decide (buf.len ≤ u64 b)) = true
  | .arrive i _ => i < s.air.length
  | .lose i => i < s.air.length
  | .inGet => True
  | .ack pid => s.tx.SafeCall (.ack pid) ∧ ∀ k ∈ List.range s.tx.sent, s.tx.slid ≤ k →
      k % lap s.tx.win.seqSz = pid → k ∈ s.handed.map Prod.fst

/-- The invariant of every orderly run with `n` slots. -/
structure Sound (n : ℕ) (s : WindowPair) : Prop where
  ring : s.tx.Ring
  seqEq : s.tx.win.seqSz = n
  fresh : ∀ k, s.tx.sent ≤ k → k < s.tx.puts.length → (s.tx.win.items (k % n)).offset = 0
  acked : ∀ k, s.tx.acked k = true → k ∈ s.handed.map Prod.fst
  rx : s.rx.ReceiveRing n s.passed (· ∈ s.handed.map Prod.fst) s.tx.sdu
  front : s.passed ∉ s.handed.map Prod.fst
  once : (s.handed.map Prod.fst).Nodup
  handed : ∀ e ∈ s.handed, e.1 < s.tx.sent ∧ e.2 = s.tx.sdu e.1
  ready : ∀ j, s.passed ≤ j → j < s.passed + n → (s.rx.items (j % n)).Ready →
    j < s.tx.sent ∧ j ∉ s.air.map Prod.fst
  air : ∀ f ∈ s.air, f.1 < s.tx.sent ∧ f.1 ∉ s.handed.map Prod.fst ∧ f.2.pid = f.1 % n ∧
    f.2.isRst = true ∧ f.2.isLfr = true ∧ f.2.buf.content = s.tx.sdu f.1
  airOnce : (s.air.map Prod.fst).Nodup

variable {s t : WindowPair} {n k : ℕ} {past : ℕ → UInt8}

theorem sound_start (hn : 0 < n) : (start n).Sound n where
  ring := SendState.ring_start hn
  seqEq := rfl
  fresh := by simp [start, SendState.start]
  acked := by simp [start, SendState.start]
  rx := Window.ReceiveRing.initWindow n (by simp [start])
  front := by simp [start]
  once := by simp [start]
  handed := by simp [start]
  ready := by simp [start, initWindow, emptyWindow, WindowItem.Ready]
  air := by simp [start]
  airOnce := by simp [start]

theorem lap_of_le (h256 : n ≤ 256) : lap n = n := Nat.min_eq_left h256

/-- What has been put and has not slid out of the sender window is within a lap of the receiver
window. -/
theorem Sound.puts_le (h : s.Sound n) (h256 : n ≤ 256) : s.tx.puts.length ≤ s.passed + n := by
  have hle := h.ring.putsLe
  rw [h.seqEq, lap_of_le h256] at hle
  have hslid : s.tx.slid ≤ s.passed := by
    by_contra hlt
    exact h.front (h.acked _ (h.ring.slidAcked _ (not_le.mp hlt)))
  omega

/-- The number of a fragment in the air is one of the lap that the receiver window stands at. -/
theorem Sound.air_lap (h : s.Sound n) (h256 : n ≤ 256) {f : ℕ × WindowCtx} (hf : f ∈ s.air) :
    s.passed ≤ f.1 ∧ f.1 < s.passed + n := by
  obtain ⟨hsent, hnot, -⟩ := h.air f hf
  have hputs := h.puts_le h256
  have hle := h.ring.sentLe
  refine ⟨?_, by omega⟩
  by_contra hlt
  exact hnot (h.rx.passed _ (not_le.mp hlt))

/-! ### The sender's calls -/

theorem sdu_of_put {cos : ℕ} {buf : List UInt8} {tx : SendState}
    (hs : sendStep past s.tx (.put cos buf) = some tx) (hk : k < s.tx.puts.length) :
    tx.sdu k = s.tx.sdu k := by
  obtain ⟨r, -, rfl⟩ := Option.map_eq_some_iff.mp hs
  exact SendState.sdu_append_of_lt hk

/-- A sender that has put more, or has slid on, and has sent nothing. -/
theorem Sound.sender (h : s.Sound n) {tx : SendState} (hring : tx.Ring) (hseq : tx.win.seqSz = n)
    (hsent : tx.sent = s.tx.sent) (hsdu : ∀ k < s.tx.sent, tx.sdu k = s.tx.sdu k)
    (hfresh : ∀ k, tx.sent ≤ k → k < tx.puts.length → (tx.win.items (k % n)).offset = 0)
    (hacked : ∀ k, tx.acked k = true → k ∈ s.handed.map Prod.fst) :
    ({ s with tx := tx } : WindowPair).Sound n where
  ring := hring
  seqEq := hseq
  fresh := hfresh
  acked := hacked
  rx := { h.rx with
    ready := by
      intro j hj hj' hready
      obtain ⟨hbuf, hin⟩ := h.rx.ready j hj hj' hready
      obtain ⟨hlt, -⟩ := h.ready j hj hj' hready
      rw [hsdu j hlt]
      exact ⟨hbuf, hin⟩ }
  front := h.front
  once := h.once
  handed := by
    intro e he
    obtain ⟨hlt, hbytes⟩ := h.handed e he
    rw [hsent, hsdu _ hlt]
    exact ⟨hlt, hbytes⟩
  ready := by
    intro j hj hj' hready
    rw [hsent]
    exact h.ready j hj hj' hready
  air := by
    intro f hf
    obtain ⟨hlt, hrest⟩ := h.air f hf
    rw [hsent, hsdu _ hlt]
    exact ⟨hlt, hrest⟩
  airOnce := h.airOnce

theorem Sound.put (h : s.Sound n) (h256 : n ≤ 256) {cos : ℕ} {buf : List UInt8} {tx : SendState}
    (hsafe : s.tx.SafeCall (.put cos buf)) (hs : sendStep past s.tx (.put cos buf) = some tx) :
    ({ s with tx := tx } : WindowPair).Sound n := by
  have hring := h.ring.step hsafe hs
  have hroom := h.ring.room hsafe.2
  have hlap : lap s.tx.win.seqSz = n := by rw [h.seqEq, lap_of_le h256]
  have hsdu : ∀ k < s.tx.sent, tx.sdu k = s.tx.sdu k := fun k hk =>
    sdu_of_put hs (hk.trans_le h.ring.sentLe)
  simp only [sendStep, windowPut, if_neg hsafe.1, Option.map_some, Option.some.injEq] at hs
  subst hs
  refine h.sender hring h.seqEq rfl hsdu ?_ h.acked
  intro k hk hk'
  have hk : s.tx.sent ≤ k := hk
  simp only [List.length_append, List.length_singleton] at hk'
  simp only [Window.setItem_items, h.ring.availIndex, hlap]
  have hslid := h.ring.slidLe
  by_cases hlast : k = s.tx.puts.length
  · -- The slot of the SDU was not in use.
    have hclear := h.ring.clear (s.tx.puts.length % n) (by
      intro j hj hj' heq
      rw [hlap] at heq hroom
      have := mod_inj_of_lap (a := s.tx.slid) ⟨hj, by omega⟩
        ⟨h.ring.slidLe.trans h.ring.sentLe, hroom⟩ heq
      omega)
    rw [hlast, Function.update_self, hclear]
  · have hne : k % n ≠ s.tx.puts.length % n := by
      intro heq
      rw [hlap] at hroom
      have := mod_inj_of_lap (a := s.tx.slid) ⟨by omega, by omega⟩
        ⟨h.ring.slidLe.trans h.ring.sentLe, hroom⟩ heq
      omega
    rw [Function.update_of_ne hne]
    exact h.fresh k hk (by omega)

/-- Acknowledging and sliding only clear offsets. -/
theorem offset_slideLoop {w : Window} {p : ℕ} (h : (w.items p).offset = 0) (fuel : ℕ) :
    ((windowSlideLoop fuel w).items p).offset = 0 := by
  induction fuel generalizing w with
  | zero => exact h
  | succ fuel ih =>
    unfold windowSlideLoop
    split_ifs
    · apply ih
      by_cases hp : p = w.toAckStart
      · simp [Window.slideOne, hp]
      · simp [Window.slideOne, hp, h]
    · exact h

theorem Sound.ack (h : s.Sound n) {pid : Fin 256} {tx : SendState}
    (horderly : s.Orderly (.ack pid)) (hs : sendStep past s.tx (.ack pid) = some tx) :
    ({ s with tx := tx } : WindowPair).Sound n := by
  obtain ⟨hsafe, htrue⟩ := horderly
  have hring := h.ring.step hsafe hs
  obtain ⟨⟨w, e⟩, hack, rfl⟩ := Option.map_eq_some_iff.mp hs
  have hwin : w.seqSz = s.tx.win.seqSz ∧
      ∀ p, (s.tx.win.items p).offset = 0 → (w.items p).offset = 0 := by
    unfold windowAckItem at hack
    split_ifs at hack
    · obtain ⟨rfl, -⟩ := Prod.mk.inj (Option.some.inj hack)
      refine ⟨windowSlideLoop_seqSz _ _, fun p hp => offset_slideLoop ?_ _⟩
      by_cases hpid : p = pid
      · rw [hpid] at hp
        simp [hpid, hp]
      · simp [hpid, hp]
    · obtain ⟨rfl, -⟩ := Prod.mk.inj (Option.some.inj hack)
      exact ⟨rfl, fun _ hp => hp⟩
  obtain ⟨hseq, hoffset⟩ := hwin
  have hfresh : ∀ k, s.tx.sent ≤ k → k < s.tx.puts.length → (w.items (k % n)).offset = 0 :=
    fun k hk hk' => hoffset _ (h.fresh k hk hk')
  split_ifs at hring ⊢ with hok
  · refine h.sender hring (hseq.trans h.seqEq) rfl (fun _ _ => rfl) hfresh ?_
    intro k hk
    simp only [SendState.ackedBy, Bool.or_eq_true, decide_eq_true_eq] at hk
    rcases hk with hk | ⟨hk, hpid⟩
    · exact h.acked k hk
    · by_cases hslid : s.tx.slid ≤ k
      · exact htrue k (List.mem_range.mpr hk) hslid hpid
      · exact h.acked k (h.ring.slidAcked k (not_le.mp hslid))
  · exact h.sender hring (hseq.trans h.seqEq) rfl (fun _ _ => rfl) hfresh h.acked

/-- With a budget that covers it the next SDU leaves whole, if there is one. -/
theorem Sound.checkGet (h : s.Sound n) (h256 : n ≤ 256) (past : ℕ → UInt8) {b : ℤ}
    (horderly : s.Orderly (.send b)) :
    windowCheckGet past s.tx.win b = (none, s.tx.win, b) ∨
      ∃ (ctx : WindowCtx) (w : Window) (b' : ℤ),
        windowCheckGet past s.tx.win b = (some ctx, w, b') ∧
        s.tx.sent < s.tx.puts.length ∧ ctx.pid = s.tx.sent % n ∧ ctx.isRst = true ∧
        ctx.isLfr = true ∧ ctx.buf.content = s.tx.sdu s.tx.sent ∧ w.seqSz = n ∧
        ∀ p, p ≠ s.tx.sent % n → w.items p = s.tx.win.items p := by
  by_cases hsend : ∃ buf, s.tx.win.Sending buf
  · right
    obtain ⟨buf, hbuf⟩ := hsend
    have hcover : buf.len ≤ u64 b := by
      have hall : (s.tx.win.items (s.tx.win.toSendStart % s.tx.win.seqSz)).buf.all
        (fun buf => decide (buf.len ≤ u64 b)) = true := horderly
      rw [hbuf.1] at hall
      simpa using hall
    obtain ⟨hlt, rfl⟩ := h.ring.sending hbuf
    have hslot := h.ring.sendSlot
    rw [h.seqEq, lap_of_le h256] at hslot
    have hindex := h.ring.sendIndex
    rw [h.seqEq, lap_of_le h256] at hindex
    have hzero := h.fresh s.tx.sent le_rfl hlt
    refine ⟨_, _, _, windowCheckGet_whole hbuf hcover past, hlt, hindex, ?_, rfl, ?_, ?_, ?_⟩
    · rw [h.seqEq, hslot, hzero]
      rfl
    · simp
    · exact h.seqEq
    · intro p hp
      simp [Window.sentWhole, h.seqEq, hslot, hp]
  · exact Or.inl (windowCheckGet_idle (not_exists.mp hsend) past b)

theorem Sound.send (h : s.Sound n) (h256 : n ≤ 256) {b : ℤ} (horderly : s.Orderly (.send b))
    (hs : pairStep past s (.send b) = some t) : t.Sound n := by
  have hlap : lap s.tx.win.seqSz = n := by rw [h.seqEq, lap_of_le h256]
  have hs : (sendStep past s.tx (.checkGet b)).bind (fun tx => some { s with
      tx := tx
      air := s.air ++ (windowCheckGet past s.tx.win b).1.toList.map fun ctx => (s.tx.sent, ctx) }) =
    some t := hs
  obtain ⟨tx, htx, hs⟩ := Option.bind_eq_some_iff.mp hs
  obtain rfl := Option.some.inj hs
  have hring := h.ring.checkGet htx
  simp only [sendStep, Option.some.injEq] at htx
  rcases h.checkGet h256 past horderly with hidle | ⟨ctx, w, b', hget, hlt, hpid, hrst,
    hlfr, hcontent, hseq, hother⟩
  · rw [hidle] at htx
    simp only [Option.map_none, Option.getD_none, Bool.false_eq_true, if_false] at htx
    subst htx
    simp only [hidle, Option.toList_none, List.map_nil, List.append_nil]
    exact h
  · rw [hget] at htx
    simp only [Option.map_some, Option.getD_some, hlfr, if_true] at htx
    subst htx
    simp only [hget, Option.toList_some, List.map_cons, List.map_nil]
    have hnot : s.tx.sent ∉ s.air.map Prod.fst := by
      intro hmem
      obtain ⟨f, hf, heq⟩ := List.mem_map.mp hmem
      have := (h.air f hf).1
      omega
    have hnotHanded : s.tx.sent ∉ s.handed.map Prod.fst := by
      intro hmem
      obtain ⟨e, he, heq⟩ := List.mem_map.mp hmem
      have := (h.handed e he).1
      omega
    exact {
      ring := hring
      seqEq := hseq
      fresh := by
        intro k hk hk'
        have hk : s.tx.sent + 1 ≤ k := hk
        have hk' : k < s.tx.puts.length := hk'
        have hne : k % n ≠ s.tx.sent % n := by
          intro heq
          have hputs := h.ring.putsLe
          rw [hlap] at hputs
          have hslid := h.ring.slidLe
          have := mod_inj_of_lap (a := s.tx.slid) ⟨by omega, by omega⟩ ⟨hslid, by omega⟩ heq
          omega
        simp only [hother _ hne]
        exact h.fresh k (by omega) hk'
      acked := h.acked
      rx := h.rx
      front := h.front
      once := h.once
      handed := by
        intro e he
        obtain ⟨hlt', hbytes⟩ := h.handed e he
        exact ⟨Nat.lt_succ_of_lt hlt', hbytes⟩
      ready := by
        intro j hj hj' hready
        obtain ⟨hlt', hair⟩ := h.ready j hj hj' hready
        refine ⟨Nat.lt_succ_of_lt hlt', ?_⟩
        simp only [List.map_append, List.map_cons, List.map_nil, List.mem_append,
          List.mem_singleton]
        rintro (hold | rfl)
        · exact hair hold
        · exact lt_irrefl _ hlt'
      air := by
        intro f hf
        rcases List.mem_append.mp hf with hold | hnew
        · obtain ⟨hlt', hrest⟩ := h.air f hold
          exact ⟨Nat.lt_succ_of_lt hlt', hrest⟩
        · rw [List.mem_singleton.mp hnew]
          exact ⟨Nat.lt_succ_self _, hnotHanded, hpid, hrst, hlfr, hcontent⟩
      airOnce := by
        simp only [List.map_append, List.map_cons, List.map_nil]
        exact List.nodup_append.mpr ⟨h.airOnce, List.nodup_singleton _, by
          intro a ha b hb heq
          rw [List.mem_singleton.mp hb] at heq
          exact hnot (heq ▸ ha)⟩ }

/-! ### The air -/

/-- A fragment is no longer in the air. -/
theorem Sound.erase (h : s.Sound n) (i : ℕ) : ({ s with air := s.air.eraseIdx i } :
    WindowPair).Sound n :=
  { h with
    ready := by
      intro j hj hj' hready
      obtain ⟨hlt, hair⟩ := h.ready j hj hj' hready
      exact ⟨hlt, fun hmem => hair (((List.eraseIdx_sublist s.air i).map Prod.fst).subset hmem)⟩
    air := fun f hf => h.air f (List.mem_of_mem_eraseIdx hf)
    airOnce := h.airOnce.sublist ((List.eraseIdx_sublist s.air i).map Prod.fst) }

/-- The number of a fragment that has left the air is not in the air any more. -/
theorem Sound.notMem_erase (h : s.Sound n) {i : ℕ} {f : ℕ × WindowCtx} (hi : s.air[i]? = some f) :
    f.1 ∉ (s.air.eraseIdx i).map Prod.fst := by
  obtain ⟨hlt, rfl⟩ := List.getElem?_eq_some_iff.mp hi
  have hperm := ((List.getElem_cons_eraseIdx_perm hlt).map Prod.fst).nodup_iff.mpr h.airOnce
  rw [List.map_cons, List.nodup_cons] at hperm
  exact hperm.1

/-- The window lets a fragment in if it is less than half a lap ahead. -/
theorem Sound.accepts_iff (h : s.Sound n) (hn : 0 < n) (h256 : n ≤ 256) {f : ℕ × WindowCtx}
    (hf : f ∈ s.air) : s.rx.Accepts f.2.pid ↔ f.1 < s.passed + n / 2 := by
  obtain ⟨hlo, hhi⟩ := h.air_lap h256 hf
  obtain ⟨-, -, hpid, -⟩ := h.air f hf
  rw [hpid]
  exact h.rx.accepts_iff hn h256 hlo hhi

/-- A fragment arrives: it is refused and the window is unchanged, or its SDU is ready. -/
theorem Sound.arrive (h : s.Sound n) (hn : 0 < n) (h256 : n ≤ 256) {i : ℕ} {f : ℕ × WindowCtx}
    (hi : s.air[i]? = some f) (allocated : Bool) :
    ∃ rx, pairStep past s (.arrive i allocated) =
        some { s with rx := rx, air := s.air.eraseIdx i } ∧
      ({ s with rx := rx, air := s.air.eraseIdx i } : WindowPair).Sound n ∧
      (∀ p, p ≠ f.1 % n → rx.items p = s.rx.items p) ∧
      (f.1 < s.passed + n / 2 → (rx.items (f.1 % n)).Ready) ∧
      (s.passed + n / 2 ≤ f.1 → rx = s.rx) := by
  have hf := List.mem_of_getElem? hi
  obtain ⟨hlo, hhi⟩ := h.air_lap h256 hf
  obtain ⟨hsent, hnot, hpid, hrst, hlfr, hcontent⟩ := h.air f hf
  have hslot : f.2.pid < s.rx.seqSz := by
    rw [hpid, h.rx.seqEq]
    exact Nat.mod_lt _ hn
  have haccepts := h.accepts_iff hn h256 hf
  by_cases hin : s.rx.Accepts f.2.pid
  · have hwindow := haccepts.mp hin
    obtain ⟨item, hbuf, hput⟩ : ∃ item : WindowItem,
        item.buf = some (cloneToChunk (s.tx.sdu f.1)) ∧
          windowPutCtx allocated s.rx f.2 = some (s.rx.storeFragment f.2 item, .ldOk) :=
      ⟨_, by rw [hcontent], windowPutCtx_first f.2 hin hslot hrst allocated⟩
    refine ⟨s.rx.storeFragment f.2 item, ?_, ?_, ?_,
      fun _ => Window.ReceiveRing.ready_store s.rx hpid hlfr item, ?_⟩
    · simp [pairStep, hi, hput]
    · have herased := h.erase i
      exact { herased with
        rx := h.rx.store hlo hwindow hnot hpid item hbuf
        ready := by
          intro j hj hj' hready
          by_cases hjf : j = f.1
          · rw [hjf]
            exact ⟨hsent, h.notMem_erase hi⟩
          · apply herased.ready j hj hj'
            have hne := Window.ReceiveRing.slot_ne ⟨hj, hj'⟩ ⟨hlo, hhi⟩ hjf
            rw [← hpid] at hne
            rw [← s.rx.storeFragment_of_ne f.2 item hne]
            exact hready }
    · intro p hp
      rw [← hpid] at hp
      exact s.rx.storeFragment_of_ne f.2 item hp
    · intro hge
      omega
  · refine ⟨s.rx, ?_, h.erase i, fun _ _ => rfl, fun hlt => absurd (haccepts.mpr hlt) hin,
      fun _ => rfl⟩
    simp [pairStep, hi, windowPutCtx_reject f.2 hin allocated]

/-! ### Handing up -/

/-- Sliding makes no slot ready and takes no ready one away. -/
theorem ready_slide (w : Window) (fuel : ℕ) (p : ℕ) :
    ((windowInSlide fuel w).1.items p).Ready ↔ (w.items p).Ready := by
  induction fuel generalizing w with
  | zero => rfl
  | succ fuel ih =>
    unfold windowInSlide
    split_ifs with hgo
    · rw [ih]
      by_cases hp : p = w.toRecvStart
      · simp [Window.recvOne, hp, WindowItem.Ready, hgo]
      · simp [Window.recvOne, hp]
    · rfl

/-- The scan finds an SDU, and hands it up. -/
theorem Sound.handsUp_eq (h : s.Sound n) {k : ℕ} (hk : s.passed ≤ k)
    (hk' : k < s.passed + n) (hready : (s.rx.items (k % n)).Ready)
    (hslot : s.rx.readySlot = some (k % n)) : s.handsUp = [(k, s.tx.sdu k)] := by
  obtain ⟨d, rfl⟩ := Nat.exists_eq_add_of_le hk
  obtain ⟨hbuf, -⟩ := h.rx.ready _ hk hk' hready
  have hdistance := mod_distance (n := n) (a := s.passed) (d := d) (by omega)
  simp only [handsUp, hslot, Option.toList_some, List.map_cons, List.map_nil, h.rx.seqEq,
    h.rx.recvIndex, hdistance]
  simp [windowInGet, windowInGetBuf, hslot, hbuf]

/-- After the slide the SDUs handed up are those before and the one found by the scan. -/
theorem Sound.slid (h : s.Sound n) (hn : 0 < n) (h256 : n ≤ 256) {w : Window}
    (up : List (ℕ × List UInt8))
    (hring : w.ReceiveRing n s.passed (· ∈ (s.handed ++ up).map Prod.fst) s.tx.sdu)
    (honce : ((s.handed ++ up).map Prod.fst).Nodup)
    (hup : ∀ e ∈ up, e.1 < s.tx.sent ∧ e.2 = s.tx.sdu e.1 ∧ e.1 ∉ s.air.map Prod.fst)
    (hready : ∀ p, (w.items p).Ready → (s.rx.items p).Ready) :
    ({ s with
      rx := (windowInSlide n w).1
      passed := s.passed + (windowInSlide n w).2.length
      handed := s.handed ++ up } : WindowPair).Sound n := by
  obtain ⟨hslid, hfront⟩ := hring.slide_all hn h256
  exact {
    ring := h.ring
    seqEq := h.seqEq
    fresh := h.fresh
    acked := by
      intro k hk
      rw [List.map_append]
      exact List.mem_append_left _ (h.acked k hk)
    rx := hslid
    front := hfront
    once := honce
    handed := by
      intro e he
      rcases List.mem_append.mp he with hold | hnew
      · exact h.handed e hold
      · exact ⟨(hup e hnew).1, (hup e hnew).2.1⟩
    ready := by
      intro j hj hj' hnow
      have hj : s.passed + (windowInSlide n w).2.length ≤ j := hj
      have hj' : j < s.passed + (windowInSlide n w).2.length + n := hj'
      have hin : j < s.passed + (windowInSlide n w).2.length + n / 2 :=
        (hslid.ready j hj hj' hnow).2
      have hthen := hready _ ((ready_slide w n _).mp hnow)
      by_cases hlap : j < s.passed + n
      · exact h.ready j (by omega) hlap hthen
      · -- The slot of a number of the new lap was slid past.
        exfalso
        have hback : (j - n) % n = j % n := by
          rw [← Nat.add_mod_right (j - n), Nat.sub_add_cancel (by omega)]
        have hdone := hslid.passed (j - n) (by omega)
        have hahead := hring.ahead (j - n) hdone
        have hprocessed := (hring.processed (j - n) (by omega) (by omega)).mpr hdone
        have hw := (ready_slide w n _).mp hnow
        rw [← hback] at hw
        simp [WindowItem.Ready, hprocessed] at hw
    air := by
      intro f hf
      obtain ⟨hsent, hnot, hrest⟩ := h.air f hf
      refine ⟨hsent, ?_, hrest⟩
      rw [List.map_append, List.mem_append]
      rintro (hold | hnew)
      · exact hnot hold
      · obtain ⟨e, he, heq⟩ := List.mem_map.mp hnew
        exact (hup e he).2.2 (heq ▸ List.mem_map_of_mem hf)
    airOnce := h.airOnce }

/-- What a call of `window_in_get` does: nothing is ready, or the first ready SDU of the window is
handed up. -/
theorem Sound.inGet (h : s.Sound n) (hn : 0 < n) (h256 : n ≤ 256) (past : ℕ → UInt8) :
    ∃ t, pairStep past s .inGet = some t ∧ t.Sound n ∧ t.tx = s.tx ∧ t.air = s.air ∧
      ((∀ j, s.passed ≤ j → j < s.passed + n → ¬ (s.rx.items (j % n)).Ready) ∧
          t.handed = s.handed ∧ (∀ p, (t.rx.items p).Ready ↔ (s.rx.items p).Ready) ∨
        ∃ k, s.passed ≤ k ∧ k < s.passed + n / 2 ∧ (s.rx.items (k % n)).Ready ∧
          (∀ i, s.passed ≤ i → i < k → ¬ (s.rx.items (i % n)).Ready) ∧
          t.handed = s.handed ++ [(k, s.tx.sdu k)] ∧
          ∀ p, (t.rx.items p).Ready ↔ p ≠ k % n ∧ (s.rx.items p).Ready) := by
  have hseq := h.rx.seqEq
  cases hslot : s.rx.readySlot with
  | none =>
    have hup : s.handsUp = [] := by simp [handsUp, hslot]
    have hscan : s.rx.scanned = s.rx := by simp [Window.scanned, hslot]
    have hslid := h.slid hn h256 [] (by simpa using h.rx) (by simpa using h.once)
      (by simp) fun _ hp => hp
    refine ⟨_, ?_, hslid, rfl, rfl, Or.inl ⟨h.rx.readySlot_eq_none hslot, ?_, ?_⟩⟩
    · simp only [pairStep, windowInGet, hup, hscan, hseq]
    · simp
    · exact fun p => ready_slide _ _ _
  | some p =>
    obtain ⟨k, hk, hk', rfl, hready, hfirst⟩ := h.rx.readySlot_eq_some hslot
    have hlap : k < s.passed + n := by omega
    have hup := h.handsUp_eq hk hlap hready hslot
    have hscan : s.rx.scanned = s.rx.handUp (k % n) := by simp [Window.scanned, hslot]
    obtain ⟨hsent, hair⟩ := h.ready k hk hlap hready
    have hnot : k ∉ s.handed.map Prod.fst := by
      intro hmem
      have := (h.rx.processed k hk hlap).mpr hmem
      rw [hready.2] at this
      cases this
    have hitems : ∀ p, ((s.rx.handUp (k % n)).items p).Ready ↔
        p ≠ k % n ∧ (s.rx.items p).Ready := by
      intro p
      by_cases hp : p = k % n
      · simp [Window.handUp, hp, WindowItem.Ready]
      · simp [Window.handUp, hp]
    have hslid := h.slid hn h256 (w := s.rx.handUp (k % n)) [(k, s.tx.sdu k)]
      (by simpa using h.rx.handUp hk hlap hready)
      (by
        rw [List.map_append, List.nodup_append]
        refine ⟨h.once, List.nodup_singleton _, fun a ha b hb heq => ?_⟩
        have hb : b = k := List.mem_singleton.mp hb
        exact hnot (hb ▸ heq ▸ ha))
      (by
        intro e he
        rw [List.mem_singleton.mp he]
        exact ⟨hsent, rfl, hair⟩) fun p hp => ((hitems p).mp hp).2
    refine ⟨_, ?_, hslid, rfl, rfl, Or.inr ⟨k, hk, hk', hready, hfirst, rfl, ?_⟩⟩
    · simp only [pairStep, windowInGet, hup, hscan, hseq]
    · intro p
      exact (ready_slide _ _ _).trans (hitems p)

/-- Every orderly call or event is carried out and keeps the invariant. -/
theorem Sound.step (h : s.Sound n) (hn : 0 < n) (h256 : n ≤ 256) (past : ℕ → UInt8) (op : PairOp)
    (hop : s.Orderly op) : ∃ t, pairStep past s op = some t ∧ t.Sound n := by
  cases op with
  | put cos buf =>
    obtain ⟨tx, htx⟩ := h.ring.enabled past (show s.tx.SafeCall (.put cos buf) from hop)
    refine ⟨{ s with tx := tx }, ?_, h.put h256 hop htx⟩
    simp [pairStep, htx]
  | send b =>
    obtain ⟨tx, htx⟩ := h.ring.enabled past (show s.tx.SafeCall (.checkGet b) from trivial)
    have hstep : ∃ t, pairStep past s (.send b) = some t := by simp [pairStep, htx]
    obtain ⟨t, ht⟩ := hstep
    exact ⟨t, ht, h.send h256 hop ht⟩
  | arrive i allocated =>
    obtain ⟨rx, hstep, hsound, -⟩ := h.arrive hn h256 (List.getElem?_eq_getElem hop) allocated
    exact ⟨_, hstep, hsound⟩
  | lose i =>
    refine ⟨_, ?_, h.erase i⟩
    have hi : i < s.air.length := hop
    simp [pairStep, hi]
  | inGet =>
    obtain ⟨t, hstep, hsound, -⟩ := h.inGet hn h256 past
    exact ⟨t, hstep, hsound⟩
  | ack pid =>
    obtain ⟨tx, htx⟩ := h.ring.enabled past hop.1
    refine ⟨{ s with tx := tx }, ?_, h.ack hop htx⟩
    simp [pairStep, htx]

theorem sound_of_reaches (hn : 0 < n) (h256 : n ≤ 256)
    (h : Reaches (pairStep past) Orderly (start n) s) :
    s.Sound n ∧ ∀ op, s.Orderly op → ∃ t, pairStep past s op = some t ∧ t.Sound n :=
  h.invariant_of_total (sound_start hn) fun _ op hs hop => hs.step hn h256 past op hop

instance (s : WindowPair) : (op : PairOp) → Decidable (s.Orderly op)
  | .put cos buf => inferInstanceAs (Decidable (s.tx.SafeCall (.put cos buf)))
  | .send _ => inferInstanceAs (Decidable (_ = true))
  | .arrive i _ => inferInstanceAs (Decidable (i < s.air.length))
  | .lose i => inferInstanceAs (Decidable (i < s.air.length))
  | .inGet => inferInstanceAs (Decidable True)
  | .ack pid => inferInstanceAs (Decidable (s.tx.SafeCall (.ack pid) ∧ _))

/-! ### What the two ends can rely on -/

/-- In every orderly run, with fragments that overtake each other and are lost, no call fails to be
carried out, every SDU is handed up at most once, with the bytes that were put; and a fragment that
arrives is refused, with the window unchanged, exactly if its SDU is half a lap or more ahead of the
first one not slid past, and else makes its SDU ready. -/
theorem window_pair_delivers_once (past : ℕ → UInt8) (n : ℕ) (hn : 0 < n) (h256 : n ≤ 256)
    (h : Reaches (pairStep past) Orderly (start n) s) :
    (∀ op, s.Orderly op → ∃ t, pairStep past s op = some t) ∧
      (s.handed.map Prod.fst).Nodup ∧
      (∀ e ∈ s.handed, e.1 < s.tx.sent ∧ e.2 = s.tx.sdu e.1) ∧
      ∀ i allocated f, s.air[i]? = some f → ∃ t, pairStep past s (.arrive i allocated) = some t ∧
        (f.1 < s.passed + n / 2 → (t.rx.items (f.1 % n)).Ready) ∧
        (s.passed + n / 2 ≤ f.1 → t.rx = s.rx) := by
  obtain ⟨hsound, hsteps⟩ := sound_of_reaches hn h256 h
  refine ⟨fun op hop => ?_, hsound.once, hsound.handed, fun i allocated f hi => ?_⟩
  · obtain ⟨t, ht, -⟩ := hsteps op hop
    exact ⟨t, ht⟩
  · obtain ⟨rx, hstep, -, -, hready, hsame⟩ := hsound.arrive hn h256 hi allocated
    exact ⟨_, hstep, hready, hsame⟩

/-- With four numbers, three SDUs are sent, the second one overtakes the first, and the third is
lost; a fourth is put when the first two are acknowledged. -/
theorem window_pair_delivers_once_three : ∃ s,
    Reaches (pairStep fun _ => 0) Orderly (start 4) s ∧ s.handed = [(1, [6]), (0, [5])] ∧
      s.tx.slid = 2 ∧ (s.handed.map Prod.fst).Nodup ∧
      ∀ e ∈ s.handed, e.1 < s.tx.sent ∧ e.2 = s.tx.sdu e.1 := by
  obtain ⟨s, hs, hhanded, hslid⟩ : ∃ s, runOps (pairStep fun _ => 0) Orderly (start 4)
      [.put 0 [5], .put 0 [6], .put 0 [7], .send 9, .send 9, .send 9, .arrive 1 true, .inGet,
        .arrive 0 true, .inGet, .lose 0, .ack 0, .ack 1, .put 0 [8]] = some s ∧
      s.handed = [(1, [6]), (0, [5])] ∧ s.tx.slid = 2 := ⟨_, rfl, rfl, rfl⟩
  have hrun := reaches_of_runOps _ hs
  obtain ⟨-, honce, hbytes, -⟩ := window_pair_delivers_once _ 4 (by decide) (by decide) hrun
  exact ⟨s, hrun, hhanded, hslid, honce, hbytes⟩

end WindowPair

end LdacsSdk
