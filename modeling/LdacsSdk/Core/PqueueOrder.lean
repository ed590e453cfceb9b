import LdacsSdk.Core.PqueuePositions
import LdacsSdk.Library.HeapOrder

/-!
# The order of the priority queue

The callbacks compare priorities by a rank; of two equal ones they may put either first. A call
leaves the ranks in heap order, so what is popped is best among the elements of the queue, and
popping all of them sorts them.
-/
namespace LdacsSdk

open Library

variable {σ κ : Type*} [LinearOrder κ] {cb : PqueueCallbacks σ} {rank : ℕ → κ} {q q' : Pqueue σ}
  {i p m : ℕ}

/-- The queue is to serve small ranks first, and priorities are kept apart from positions. -/
structure PqueueCallbacks.Ranked (cb : PqueueCallbacks σ) (rank : ℕ → κ) : Prop where
  le_of_cmppri : ∀ next curr, cb.cmppri next curr = true → rank curr ≤ rank next
  le_of_not_cmppri : ∀ next curr, cb.cmppri next curr = false → rank next ≤ rank curr
  getpri_setpos : ∀ elems a b pos, cb.getpri (cb.setpos elems a pos) b = cb.getpri elems b
  getpri_setpri : ∀ elems a b pri,
    cb.getpri (cb.setpri elems a pri) b = if b = a then pri else cb.getpri elems b

/-- The ranks of the slots, counted from zero. -/
def rankAt (cb : PqueueCallbacks σ) (rank : ℕ → κ) (elems : σ) (d : ℕ → ℕ) (j : ℕ) : κ :=
  rank (cb.getpri elems (d (j + 1)))

/-- The ranks of a queue are in heap order. -/
def Pqueue.Ordered (cb : PqueueCallbacks σ) (rank : ℕ → κ) (q : Pqueue σ) : Prop :=
  HeapOrder (q.size - 1) (rankAt cb rank q.elems q.d)

namespace Pqueue

omit [LinearOrder κ] in
theorem rankAt_pred (hi : 1 ≤ i) (elems : σ) (d : ℕ → ℕ) :
    rankAt cb rank elems d (i - 1) = rank (cb.getpri elems (d i)) := by
  rw [rankAt, Nat.sub_add_cancel hi]

theorem rankAt_setSlot (hcb : cb.Ranked rank) (q : Pqueue σ) (i e : ℕ) (d : ℕ → ℕ) :
    rankAt cb rank (q.setSlot cb i e).elems d = rankAt cb rank q.elems d := by
  funext j
  simp [rankAt, setSlot, hcb.getpri_setpos]

omit [LinearOrder κ] in
/-- An element that moves into the slot to fill exchanges its rank with the one that waits. -/
theorem rankAt_move (hi : 1 ≤ i) (hp : 1 ≤ p) (hne : p ≠ i) (elems : σ) (d : ℕ → ℕ) :
    rankAt cb rank elems (Function.update (Function.update d i (d p)) p m) =
      rankAt cb rank elems (Function.update d i m) ∘ Equiv.swap (i - 1) (p - 1) := by
  funext j
  simp only [rankAt, Function.comp_apply, Equiv.swap_apply_def, Function.update_apply]
  by_cases hji : j = i - 1
  · have hj1 : j + 1 = i := by omega
    have hp1 : p - 1 + 1 = p := by omega
    simp [hji, hp1, Nat.sub_add_cancel hi, hne, Ne.symm hne]
  · have hj1 : j + 1 ≠ i := by omega
    by_cases hjp : j = p - 1
    · have hp1 : p - 1 + 1 = p := by omega
      have hpi : p - 1 ≠ i - 1 := by omega
      simp [hjp, hp1, hpi, Nat.sub_add_cancel hi]
    · have hjp1 : j + 1 ≠ p := by omega
      simp [hji, hjp, hj1, hjp1]

theorem parent_pred (hi : 1 < i) : parent (i - 1) = i / 2 - 1 := by
  unfold parent
  omega

/-! ### The sifts -/

theorem ordered_bubbleUp (hcb : cb.Ranked rank) (hi : i ∈ q.slots)
    (h : UpOrder (q.size - 1) (rankAt cb rank q.elems q.d) (i - 1))
    (hup : pqBubbleUp cb q i = some q') : q'.Ordered cb rank := by
  obtain ⟨t, hloop, rfl⟩ := Option.map_eq_some_iff.mp hup
  apply whileLoop_invariant
    (I := fun s : Pqueue σ × ℕ => s.2 ∈ s.1.slots ∧ q.pri cb i = cb.getpri s.1.elems (q.d i) ∧
      UpOrder (s.1.size - 1) (rankAt cb rank s.1.elems (Function.update s.1.d s.2 (q.d i)))
        (s.2 - 1))
    (Q := fun t : Pqueue σ × ℕ => (t.1.setSlot cb t.2 (q.d i)).Ordered cb rank) _ _ _ hloop
  · rintro ⟨u, j⟩ s ⟨hj, hpri, horder⟩ hbody
    unfold pqBubbleUpRound at hbody
    dsimp only at hbody hpri horder hj
    split_ifs at hbody with hgo
    · cases hbody
      obtain ⟨hj1, hlt⟩ := hj
      have hhalf : 1 ≤ j / 2 ∧ j / 2 < u.size := by omega
      have hne : j / 2 ≠ j := by omega
      refine ⟨hhalf, ?_, ?_⟩
      · simp only [setSlot, hcb.getpri_setpos]
        exact hpri
      · have hle := hcb.le_of_cmppri _ _ hgo.2
        have hswap := horder.swap_of_le (by omega) (by omega) (by
          rw [parent_pred hgo.1, rankAt_pred hj1, rankAt_pred hhalf.1, Function.update_self,
            Function.update_of_ne hne, ← hpri]
          exact hle)
        rw [parent_pred hgo.1, ← rankAt_move hj1 hhalf.1 hne] at hswap
        rw [rankAt_setSlot hcb]
        exact hswap
    · simp at hbody
  · rintro ⟨u, j⟩ s ⟨hj, hpri, horder⟩ hbody
    unfold pqBubbleUpRound at hbody
    dsimp only at hbody hpri horder hj
    split_ifs at hbody with hgo
    · simp at hbody
    · cases hbody
      obtain ⟨hj1, hlt⟩ := hj
      unfold Ordered
      rw [rankAt_setSlot hcb]
      apply horder.heap
      intro hpos _
      have hj2 : 1 < j := by omega
      have hstop : cb.cmppri (u.pri cb (j / 2)) (q.pri cb i) = false := by
        rw [← Bool.not_eq_true]
        exact fun htrue => hgo ⟨hj2, htrue⟩
      have hle := hcb.le_of_not_cmppri _ _ hstop
      rw [parent_pred hj2, rankAt_pred hj1, rankAt_pred (by omega), Function.update_self,
        Function.update_of_ne (by omega), ← hpri]
      exact hle
  · refine ⟨hi, rfl, ?_⟩
    simp only [Function.update_eq_self]
    exact h

/-- The child that `maxchild` takes is best, if there is one. -/
theorem pqMaxchild_best (hcb : cb.Ranked rank) (q : Pqueue σ) (i : ℕ) :
    pqMaxchild cb q i = 0 ∧ q.size ≤ 2 * i ∨
      pqMaxchild cb q i / 2 = i ∧ pqMaxchild cb q i < q.size ∧
        ∀ k, k / 2 = i → k < q.size → rank (q.pri cb (pqMaxchild cb q i)) ≤ rank (q.pri cb k) := by
  unfold pqMaxchild
  split_ifs with hout hright
  · exact .inl ⟨rfl, hout⟩
  · refine .inr ⟨by omega, hright.1, fun k hk hlt => ?_⟩
    have hchild : k = 2 * i ∨ k = 2 * i + 1 := by omega
    rcases hchild with rfl | rfl
    · exact hcb.le_of_cmppri _ _ hright.2
    · exact le_rfl
  · refine .inr ⟨by omega, by omega, fun k hk hlt => ?_⟩
    have hchild : k = 2 * i ∨ k = 2 * i + 1 := by omega
    rcases hchild with rfl | rfl
    · exact le_rfl
    · apply hcb.le_of_not_cmppri
      rw [← Bool.not_eq_true]
      exact fun htrue => hright ⟨hlt, htrue⟩

theorem ordered_percolateDown (hcb : cb.Ranked rank) (hi : i ∈ q.slots)
    (h : DownOrder (q.size - 1) (rankAt cb rank q.elems q.d) (i - 1))
    (hdown : percolateDown cb q i = some q') : q'.Ordered cb rank := by
  obtain ⟨t, hloop, rfl⟩ := Option.map_eq_some_iff.mp hdown
  -- What stands in a slot other than the one to fill.
  have hother : ∀ (u : Pqueue σ) {j k : ℕ}, k + 1 ≠ j →
      rankAt cb rank u.elems (Function.update u.d j (q.d i)) k = rank (u.pri cb (k + 1)) := by
    intro u j k hne
    rw [rankAt, Function.update_of_ne hne]
    rfl
  have hbelow : ∀ {j k : ℕ}, 0 < k → parent k = j - 1 → 1 ≤ j →
      (k + 1) / 2 = j := by
    intro j k hk hp hj
    unfold parent at hp
    omega
  apply whileLoop_invariant
    (I := fun s : Pqueue σ × ℕ => s.2 ∈ s.1.slots ∧ q.pri cb i = cb.getpri s.1.elems (q.d i) ∧
      DownOrder (s.1.size - 1) (rankAt cb rank s.1.elems (Function.update s.1.d s.2 (q.d i)))
        (s.2 - 1))
    (Q := fun t : Pqueue σ × ℕ => (t.1.setSlot cb t.2 (q.d i)).Ordered cb rank) _ _ _ hloop
  · rintro ⟨u, j⟩ s ⟨hj, hpri, horder⟩ hbody
    unfold percolateDownRound at hbody
    dsimp only at hbody hpri horder hj
    split_ifs at hbody with hgo
    · cases hbody
      obtain ⟨hj1, hlt⟩ := hj
      rcases pqMaxchild_best hcb u j with ⟨hzero, -⟩ | ⟨hhalf, hclt, hbest⟩
      · exact absurd hzero hgo.1
      obtain ⟨c, hc⟩ : ∃ c, pqMaxchild cb u j = c := ⟨_, rfl⟩
      rw [hc] at hgo hhalf hclt hbest ⊢
      have hc1 : 1 < c := by omega
      have hne : c ≠ j := by omega
      refine ⟨⟨hc1.le, hclt⟩, ?_, ?_⟩
      · simp only [setSlot, hcb.getpri_setpos]
        exact hpri
      · have hswap := horder.swap_of_le (c := c - 1) (by omega) (by omega)
          (by rw [parent_pred hc1, hhalf]) (by
            intro k hk hkn hp
            have hhalf' := hbelow hk hp hj1
            rw [rankAt_pred hc1.le, Function.update_of_ne hne, hother u (by omega)]
            exact hbest (k + 1) hhalf' (by omega)) (by
            rw [rankAt_pred hc1.le, Function.update_of_ne hne, rankAt_pred hj1,
              Function.update_self, ← hpri]
            exact hcb.le_of_cmppri _ _ hgo.2)
        rw [← rankAt_move hj1 hc1.le hne] at hswap
        rw [rankAt_setSlot hcb]
        exact hswap
    · simp at hbody
  · rintro ⟨u, j⟩ s ⟨hj, hpri, horder⟩ hbody
    unfold percolateDownRound at hbody
    dsimp only at hbody hpri horder hj
    split_ifs at hbody with hgo
    · simp at hbody
    · cases hbody
      obtain ⟨hj1, hlt⟩ := hj
      unfold Ordered
      rw [rankAt_setSlot hcb]
      apply horder.heap
      intro k hk hkn hp
      have hkn' : k < u.size - 1 := hkn
      have hhalf' := hbelow hk hp hj1
      rw [hother u (k := k) (by omega), rankAt_pred hj1, Function.update_self, ← hpri]
      rcases pqMaxchild_best hcb u j with ⟨-, hsmall⟩ | ⟨hhalf, hclt, hbest⟩
      · omega
      · have hstop : cb.cmppri (q.pri cb i) (u.pri cb (pqMaxchild cb u j)) = false := by
          rw [← Bool.not_eq_true]
          exact fun htrue => hgo ⟨by omega, htrue⟩
        exact (hcb.le_of_not_cmppri _ _ hstop).trans
          (hbest (k + 1) hhalf' (by omega))
  · refine ⟨hi, rfl, ?_⟩
    simp only [Function.update_eq_self]
    exact h

theorem getpri_percolateDown (hcb : cb.Ranked rank) (hdown : percolateDown cb q i = some q')
    (b : ℕ) : cb.getpri q'.elems b = cb.getpri q.elems b := by
  obtain ⟨t, hloop, rfl⟩ := Option.map_eq_some_iff.mp hdown
  simp only [setSlot, hcb.getpri_setpos]
  apply whileLoop_invariant
    (I := fun s : Pqueue σ × ℕ => cb.getpri s.1.elems b = cb.getpri q.elems b)
    (Q := fun s : Pqueue σ × ℕ => cb.getpri s.1.elems b = cb.getpri q.elems b) _ _ rfl hloop
  · rintro ⟨u, j⟩ s hs hbody
    unfold percolateDownRound at hbody
    dsimp only at hbody
    split_ifs at hbody
    · cases hbody
      simp only [setSlot, hcb.getpri_setpos]
      exact hs
    · simp at hbody
  · rintro ⟨u, j⟩ s hs hbody
    unfold percolateDownRound at hbody
    dsimp only at hbody
    split_ifs at hbody
    · simp at hbody
    · cases hbody
      exact hs

/-- The sift that follows a change of one slot of a queue in order. -/
theorem ordered_sift (hcb : cb.Ranked rank) {up : Bool} (hi : i ∈ q.slots) {key : ℕ → κ}
    (h : HeapOrder (q.size - 1) key)
    (hsame : ∀ j, j < q.size - 1 → j ≠ i - 1 → rankAt cb rank q.elems q.d j = key j)
    (hup : up = true → rank (q.pri cb i) ≤ key (i - 1))
    (hdown : up = false → key (i - 1) ≤ rank (q.pri cb i))
    (hsift : (if up then pqBubbleUp cb q i else percolateDown cb q i) = some q') :
    q'.Ordered cb rank := by
  have hpred : rankAt cb rank q.elems q.d (i - 1) = rank (q.pri cb i) := rankAt_pred hi.1 _ _
  cases up with
  | true => exact ordered_bubbleUp hcb hi (h.lower hsame (hpred ▸ hup rfl)) hsift
  | false => exact ordered_percolateDown hcb hi (h.raise hsame (hpred ▸ hdown rfl)) hsift

/-! ### The calls -/

variable {C : Set ℕ} {ret : ℤ} {e : Option ℕ}

theorem Ordered.unlock (h : q.Ordered cb rank) : q.unlock.Ordered cb rank := h

theorem Ordered.small (h : q.size ≤ 2) : q.Ordered cb rank := by
  intro j hj hjn
  omega

theorem ordered_insert (hcb : cb.Ranked rank) (h : q.Ordered cb rank) (hpos : 1 ≤ q.size)
    (hsize : q.size + 1 < 2 ^ 64) {d : ℕ} {grown : Bool}
    (hcall : pqueueInsert cb grown q d = some (.returns ret e q')) : q'.Ordered cb rank := by
  have hbody := withLock_eq_some hcall
  dsimp only at hbody
  split_ifs at hbody with hfull hgrow
  · cases hbody
    exact h
  all_goals
    obtain ⟨-, -, u, hup, rfl⟩ := exists_of_sift hbody
    have hu64 : u64 ((q.size : ℤ) + 1) = q.size + 1 := by
      exact_mod_cast u64_natCast hsize
    rw [hu64] at hup
    refine Ordered.unlock (ordered_bubbleUp (i := q.size) hcb ⟨hpos, Nat.lt_succ_self _⟩ ?_ hup)
    have hsame : ∀ j, j < q.size - 1 →
        rankAt cb rank q.elems (Function.update q.d q.size d) j =
          rankAt cb rank q.elems q.d j := by
      intro j hj
      rw [rankAt, rankAt, Function.update_of_ne (by omega)]
    have hpush := HeapOrder.push h hsame
    rw [Nat.sub_add_cancel hpos] at hpush
    exact hpush

theorem ordered_changePriority (hcb : cb.Ranked rank) (hlawful : cb.Lawful) (h : q.Ordered cb rank)
    (hstored : q.Stored cb C) {newPri d : ℕ} (hd : d ∈ C)
    (hcall : pqueueChangePriority cb q newPri d = some (.returns ret e q')) :
    q'.Ordered cb rank := by
  unfold pqueueChangePriority at hcall
  obtain ⟨-, -, u, hsift, rfl⟩ := exists_of_sift (withLock_eq_some hcall)
  obtain ⟨i, hi, rfl⟩ := hstored.image.symm ▸ hd
  have hposn : cb.getpos (cb.setpri q.elems (q.d i) newPri) (q.d i) = i := by
    rw [hlawful.getpos_setpri]
    exact hstored.pos i hi
  simp only [hposn] at hsift
  have hnew : ({ q with locked := true, elems := cb.setpri q.elems (q.d i) newPri } :
      Pqueue σ).pri cb i = newPri := by
    simp [pri, hcb.getpri_setpri]
  have hold : rankAt cb rank q.elems q.d (i - 1) = rank (cb.getpri q.elems (q.d i)) :=
    rankAt_pred hi.1 _ _
  have hkeep : ∀ j, j < q.size - 1 → j ≠ i - 1 →
      rankAt cb rank (cb.setpri q.elems (q.d i) newPri) q.d j = rankAt cb rank q.elems q.d j := by
    intro j hj hji
    have hne : q.d (j + 1) ≠ q.d i := by
      intro heq
      have hj1 : j + 1 ∈ q.slots := ⟨by omega, by omega⟩
      have := hstored.inj hj1 hi heq
      omega
    rw [rankAt, rankAt, hcb.getpri_setpri, if_neg hne]
  refine Ordered.unlock (ordered_sift (q := { q with
    locked := true, elems := cb.setpri q.elems (q.d i) newPri }) hcb hi h hkeep ?_ ?_ hsift)
  · intro hup
    rw [hnew, hold]
    exact hcb.le_of_cmppri _ _ hup
  · intro hdown
    rw [hnew, hold]
    exact hcb.le_of_not_cmppri _ _ hdown

omit [LinearOrder κ] in
/-- Taking out an element leaves the ranks of the other slots. -/
theorem rankAt_takeOut (hi : i ∈ q.slots) (j : ℕ) (hji : j ≠ i - 1) :
    rankAt cb rank (q.takeOut i).elems (q.takeOut i).d j = rankAt cb rank q.elems q.d j := by
  have hi1 : 1 ≤ i := hi.1
  have hne : j + 1 ≠ i := by omega
  simp only [rankAt, takeOut, shrink, Function.update_of_ne hne]

theorem Ordered.takeOut (h : q.Ordered cb rank) (hi : i ∈ q.slots) (hsize : q.size < 2 ^ 64)
    (hin : i < (q.takeOut i).size) :
    HeapOrder ((q.takeOut i).size - 1) (rankAt cb rank q.elems q.d) := by
  have hn := size_takeOut hi hsize
  apply HeapOrder.init
  have hcount : (q.takeOut i).size - 1 + 1 = q.size - 1 := by omega
  rw [hcount]
  exact h

/-- The ranks are in order where nothing but a slot behind the queue is written. -/
theorem Ordered.takeOut_last (hcb : cb.Ranked rank) (h : q.Ordered cb rank) (hi : i ∈ q.slots)
    (hsize : q.size < 2 ^ 64) (hlast : i = (q.takeOut i).size) (m : ℕ) :
    ((q.takeOut i).setSlot cb i m).Ordered cb rank := by
  have hn := size_takeOut hi hsize
  intro j hj hjn
  have hjn' : j < (q.takeOut i).size - 1 := hjn
  have hpj := parent_lt hj
  have hsame : ∀ k ≤ j, rankAt cb rank ((q.takeOut i).setSlot cb i m).elems
      ((q.takeOut i).setSlot cb i m).d k = rankAt cb rank q.elems q.d k := by
    intro k hk
    rw [rankAt_setSlot hcb, ← rankAt_takeOut hi k (by omega)]
    have hne : k + 1 ≠ i := by omega
    simp only [rankAt, setSlot, Function.update_of_ne hne]
  rw [hsame j le_rfl, hsame _ hpj.le]
  exact h j hj (by omega)

/-- The last element is taken out, and nothing is sifted. -/
theorem removeSift_last (hlast : i = (q.takeOut i).size) (hcount : i + 1 = q.size)
    (hstays : ¬ q.Revives cb i) (hsift : q.removeSift cb i = some q') :
    q' = (q.takeOut i).setSlot cb i (q.d i) := by
  have hd := d_takeOut_last hlast
  rw [removeSift, pri_takeOut hd] at hsift
  rw [← hd]
  split_ifs at hsift with hup
  · rw [bubbleUp_stays] at hsift
    · exact (Option.some.inj hsift).symm
    · rintro ⟨h1, hparent⟩
      rw [pri_takeOut hd, pri_takeOut (Function.update_of_ne (by omega) ..)] at hparent
      exact hstays ⟨hcount, h1, hup, hparent⟩
  · rw [percolateDown_outside (by omega)] at hsift
    exact (Option.some.inj hsift).symm

theorem ordered_removeSift (hcb : cb.Ranked rank) (h : q.Ordered cb rank)
    (hsize : q.size < 2 ^ 64) (hi : i ∈ q.slots) (hstays : ¬ q.Revives cb i)
    (hsift : q.removeSift cb i = some q') : q'.Ordered cb rank := by
  have hn := size_takeOut hi hsize
  by_cases hin : i < (q.takeOut i).size
  · have hold : rankAt cb rank q.elems q.d (i - 1) = rank (q.pri cb i) := rankAt_pred hi.1 _ _
    refine ordered_sift hcb ⟨hi.1, hin⟩ (h.takeOut hi hsize hin)
      (fun j _ hji => rankAt_takeOut hi j hji) ?_ ?_ hsift
    · intro hup
      rw [hold]
      exact hcb.le_of_cmppri _ _ hup
    · intro hdown
      rw [hold]
      exact hcb.le_of_not_cmppri _ _ hdown
  · have hlt := hi.2
    have hlast : i = (q.takeOut i).size := by omega
    rw [removeSift_last hlast (by omega) hstays hsift]
    exact h.takeOut_last hcb hi hsize hlast _

/-- No element is better than the first one. -/
theorem Ordered.first_best (h : q.Ordered cb rank) (hstored : q.Stored cb C) {b : ℕ} (hb : b ∈ C) :
    rank (cb.getpri q.elems (q.d 1)) ≤ rank (cb.getpri q.elems b) := by
  obtain ⟨i, hi, rfl⟩ := hstored.image.symm ▸ hb
  have hi' : 1 ≤ i ∧ i < q.size := hi
  have hroot := HeapOrder.root_le (i := i - 1) h (by omega)
  rw [rankAt_pred hi'.1] at hroot
  exact hroot

/-- The last element is sifted down from the first slot. -/
theorem ordered_takeOut_first (hcb : cb.Ranked rank) (h : q.Ordered cb rank) (hi : 1 ∈ q.slots)
    (hsize : q.size < 2 ^ 64) (hdown : percolateDown cb (q.takeOut 1) 1 = some q') :
    q'.Ordered cb rank := by
  have hn := size_takeOut hi hsize
  by_cases hin : 1 < (q.takeOut 1).size
  · refine ordered_percolateDown hcb ⟨le_rfl, hin⟩
      ((h.takeOut hi hsize hin).raise (fun j _ hji => rankAt_takeOut hi j hji) ?_) hdown
    -- The last element, which stands first now, is no better than the one taken out.
    have hlast := HeapOrder.root_le (i := q.size - 1 - 1) h (by omega)
    have hfrom : (q.takeOut 1).size = q.size - 1 - 1 + 1 := by omega
    have hmoved : rankAt cb rank (q.takeOut 1).elems (q.takeOut 1).d (1 - 1) =
        rankAt cb rank q.elems q.d (q.size - 1 - 1) := by
      have hd : (q.takeOut 1).d 1 = q.d (q.takeOut 1).size := by
        simp [Pqueue.takeOut]
      rw [rankAt, rankAt, ← hfrom, ← hd]
      rfl
    rw [hmoved]
    exact hlast
  · obtain ⟨u, hu, hsifted⟩ := percolateDown_sifted cb (q.takeOut 1) 1
    obtain rfl : u = q' := Option.some.inj (hu.symm.trans hdown)
    apply Ordered.small
    rw [hsifted.sizeEq]
    omega

/-- A pop keeps the order, and leaves the priorities. -/
theorem ordered_pop (hcb : cb.Ranked rank) (h : q.Ordered cb rank) (hpos : 1 ≤ q.size)
    (hsize : q.size < 2 ^ 64) (hcall : pqueuePop cb q = some (.returns ret e q')) :
    q'.Ordered cb rank ∧ ∀ b, cb.getpri q'.elems b = cb.getpri q.elems b := by
  have hbody := withLock_eq_some hcall
  dsimp only at hbody
  split_ifs at hbody with hone
  · cases hbody
    exact ⟨h, fun _ => rfl⟩
  · obtain ⟨u, hdown, hout⟩ := Option.map_eq_some_iff.mp hbody
    cases hout
    have hmem : 1 ≤ 1 ∧ 1 < q.size := by omega
    constructor
    · exact (ordered_takeOut_first (q := { q with locked := true }) hcb h hmem hsize hdown).unlock
    · exact fun b => (getpri_percolateDown hcb hdown b)

end Pqueue

namespace PqHistory

variable {s t : PqHistory σ} {op : PqOp σ}

theorem Sound.ordered_step (hcb : cb.Ranked rank) (hlawful : cb.Lawful) (h : s.Sound cb)
    (hord : s.q.Ordered cb rank) (hop : s.Allowed op) (hharmless : s.q.Harmless cb op)
    (hstep : s.step cb op = some t) : t.q.Ordered cb rank := by
  obtain ⟨hstored, hpos, hlt⟩ := h
  obtain ⟨ret, e, hcall, -⟩ := exists_of_step hstep
  cases op with
  | insert grown a => exact Pqueue.ordered_insert hcb hord hpos hop.2 hcall
  | pop => exact (Pqueue.ordered_pop hcb hord hpos hlt hcall).1
  | changePriority newPri a =>
    exact Pqueue.ordered_changePriority hcb hlawful hord hstored hop hcall
  | remove a =>
    obtain ⟨i, hi, rfl⟩ := hstored.image.symm ▸ (show a ∈ (s.content : Set ℕ) from hop)
    obtain ⟨u, hsift, hu⟩ := Pqueue.exists_of_remove hstored hi hcall
    have hstays := (hstored.harmless_iff hi).mp hharmless
    rw [hu]
    exact (Pqueue.ordered_removeSift (q := { s.q with locked := true }) hcb hord hlt hi hstays
      hsift).unlock
  | print allocated =>
    obtain ⟨-, hsize, -⟩ := hstored.print hlawful hpos hlt hcall
    have hsmall : s.q.size ≤ 2 := hharmless
    exact Pqueue.Ordered.small (hsize.trans_le hsmall)
  | popWait => exact absurd hop id
  | wake => exact absurd hop id
  | peek => exact absurd hop id
  | flush freeFunc => exact absurd hop id
  | isValid => exact absurd hop id

theorem sound_ordered (hcb : cb.Ranked rank) (hlawful : cb.Lawful) {n : ℕ} {d : ℕ → ℕ} {elems : σ}
    (h : Reaches (PqHistory.step cb) (fun s op => s.Allowed op ∧ s.q.Harmless cb op)
      { q := pqueueInit n d elems, content := ∅ } s) : s.Sound cb ∧ s.q.Ordered cb rank := by
  apply h.invariant (P := fun s : PqHistory σ => s.Sound cb ∧ s.q.Ordered cb rank)
    ⟨sound_init cb n d elems, Pqueue.Ordered.small (by simp [pqueueInit])⟩
  rintro u op t ⟨hu, hord⟩ ⟨hallowed, hharmless⟩ hstep
  obtain ⟨⟨hpos, hlt⟩, hiff⟩ := hu.step hlawful hallowed hstep
  exact ⟨⟨hiff.mpr hharmless, hpos, hlt⟩, hu.ordered_step hcb hlawful hord hallowed hharmless hstep⟩

end PqHistory

/-- The elements that a number of pops in turn return. -/
def popMany (cb : PqueueCallbacks σ) : ℕ → Pqueue σ → Option (List ℕ)
  | 0, _ => some []
  | count + 1, q => (pqueuePop cb q).bind fun
    | .returns _ (some e) q => (popMany cb count q).map (e :: ·)
    | _ => none

theorem Pqueue.Stored.popMany (hcb : cb.Ranked rank) (hlawful : cb.Lawful) {C : Finset ℕ}
    (h : q.Stored cb C) (hord : q.Ordered cb rank) (hidle : q.Idle) {count : ℕ}
    (hsize : q.size = count + 1) :
    ∃ es : List ℕ, LdacsSdk.popMany cb count q = some es ∧ es.Nodup ∧ es.toFinset = C ∧
      es.Pairwise fun a b => rank (cb.getpri q.elems a) ≤ rank (cb.getpri q.elems b) := by
  induction count generalizing q C with
  | zero =>
    refine ⟨[], rfl, List.nodup_nil, ?_, List.Pairwise.nil⟩
    have himage := h.image
    have hnone : q.slots = ∅ := by simp [slots, hsize]
    rw [hnone, Set.image_empty] at himage
    exact (Finset.coe_eq_empty.mp himage.symm).symm
  | succ count ih =>
    obtain ⟨e, u, hpop, hu, -⟩ := pqueuePop_spec cb hidle.free (by omega)
    rcases h.pop hlawful (by omega) hidle.sizeLt hpop with ⟨hone, -⟩ |
      ⟨-, he, hmem, hstored, hn, -⟩
    · omega
    obtain rfl := Option.some.inj he
    obtain ⟨hord', hpri⟩ := ordered_pop hcb hord (by omega) hidle.sizeLt hpop
    have hstored' : u.Stored cb (C.erase (q.d 1) : Finset ℕ) := by
      rw [Finset.coe_erase]
      exact hstored
    obtain ⟨es, hes, hnodup, hset, hsorted⟩ := ih hstored' hord' hu (by omega)
    have hin : ∀ b, b ∈ es ↔ b ∈ C.erase (q.d 1) := fun b => by rw [← hset, List.mem_toFinset]
    refine ⟨q.d 1 :: es, ?_, ?_, ?_, ?_⟩
    · simp [LdacsSdk.popMany, hpop, hes]
    · rw [List.nodup_cons, hin]
      exact ⟨Finset.notMem_erase _ _, hnodup⟩
    · rw [List.toFinset_cons, hset]
      exact Finset.insert_erase hmem
    · rw [List.pairwise_cons]
      refine ⟨fun b hb => ?_, ?_⟩
      · exact hord.first_best h (Finset.mem_coe.mpr (Finset.mem_of_mem_erase ((hin b).mp hb)))
      · simpa only [hpri] using hsorted

/-- In every run of harmless calls a pop or a look at the first element returns an element of the
queue, and none that is in it should be served before; and popping all elements, if the last call
has released the mutex, returns each of them once in the order of their priorities. -/
theorem pqueue_serves_best (hcb : cb.Ranked rank) (hlawful : cb.Lawful) (n : ℕ) (d : ℕ → ℕ)
    (elems : σ) {s : PqHistory σ}
    (h : Reaches (PqHistory.step cb) (fun s op => s.Allowed op ∧ s.q.Harmless cb op)
      { q := pqueueInit n d elems, content := ∅ } s) :
    (∀ op ret e q', op = .pop ∨ op = .peek → s.q.call cb op = some (.returns ret (some e) q') →
      e ∈ s.content ∧ ∀ b ∈ s.content,
        rank (cb.getpri s.q.elems e) ≤ rank (cb.getpri s.q.elems b)) ∧
    (s.q.locked = false → ∃ es : List ℕ, popMany cb s.content.card s.q = some es ∧ es.Nodup ∧
      es.toFinset = s.content ∧
      es.Pairwise fun a b => rank (cb.getpri s.q.elems a) ≤ rank (cb.getpri s.q.elems b)) := by
  obtain ⟨hsound, hord⟩ := PqHistory.sound_ordered hcb hlawful h
  constructor
  · rintro op ret e q' hop hcall
    have hfirst : e = s.q.d 1 ∧ s.q.size ≠ 1 := by
      rcases hop with rfl | rfl
      · rcases hsound.stored.pop hlawful hsound.pos hsound.sizeLt hcall with
          ⟨-, hnone, -⟩ | ⟨hne, he, -⟩
        · cases hnone
        · exact ⟨Option.some.inj he, hne⟩
      · have hpeek : pqueuePeek s.q = some (.returns ret (some e) q') := hcall
        have hbody := Pqueue.withLock_eq_some hpeek
        dsimp only at hbody
        split_ifs at hbody with hone
        · cases hbody
        · cases hbody
          exact ⟨rfl, hone⟩
    obtain ⟨rfl, hne⟩ := hfirst
    have hpos := hsound.pos
    have hmem : s.q.d 1 ∈ (s.content : Set ℕ) := by
      rw [← hsound.stored.image]
      exact Set.mem_image_of_mem _ ⟨le_rfl, by omega⟩
    exact ⟨hmem, fun b hb => hord.first_best hsound.stored hb⟩
  · intro hfree
    have hpos := hsound.pos
    have hcard : s.q.size = s.content.card + 1 := by
      have himage := congrArg Set.ncard hsound.stored.image
      rw [hsound.stored.inj.ncard_image, Set.ncard_coe_finset] at himage
      simp only [Pqueue.slots, Set.ncard_eq_toFinset_card', Set.toFinset_Ico,
        Nat.card_Ico] at himage
      omega
    exact hsound.stored.popMany hcb hlawful hord ⟨hfree, hsound.sizeLt⟩ hcard

theorem pairCallbacks_ranked : pairCallbacks.Ranked id where
  le_of_cmppri := by
    intro next curr h
    simpa [pairCallbacks] using h
  le_of_not_cmppri := by
    intro next curr h
    simp only [pairCallbacks, ge_iff_le, decide_eq_false_iff_not, not_le] at h
    exact h.le
  getpri_setpos := by
    intro elems a b pos
    simp only [pairCallbacks, Function.update_apply]
    split_ifs with h
    · rw [h]
    · rfl
  getpri_setpri := by
    intro elems a b pri
    simp only [pairCallbacks, Function.update_apply]
    split_ifs <;> rfl

theorem pqueue_serves_best_four : ∃ s,
    Reaches (PqHistory.step pairCallbacks)
      (fun s op => s.Allowed op ∧ s.q.Harmless pairCallbacks op) PqHistory.emptyHistory s ∧
    s.content = {3, 1} ∧ s.q.locked = false ∧
    ∃ es : List ℕ, popMany pairCallbacks s.content.card s.q = some es ∧ es.Nodup ∧
      es.toFinset = s.content ∧
      es.Pairwise fun a b =>
        id (pairCallbacks.getpri s.q.elems a) ≤ id (pairCallbacks.getpri s.q.elems b) := by
  obtain ⟨s, hs, hcontent, hfree⟩ : ∃ s, runOps (PqHistory.step pairCallbacks)
      (fun s op => s.Allowed op ∧ s.q.Harmless pairCallbacks op) PqHistory.emptyHistory
      [.insert true 3, .insert true 2, .insert true 4, .insert true 1, .changePriority 45 1,
        .remove 4, .pop] = some s ∧ s.content = {3, 1} ∧ s.q.locked = false :=
    ⟨_, rfl, by decide, rfl⟩
  have hrun := reaches_of_runOps _ hs
  exact ⟨s, hrun, hcontent, hfree, (pqueue_serves_best pairCallbacks_ranked
    PqHistory.pairCallbacks_lawful 10 (fun _ => 0) (fun e => (10 * e, 0)) hrun).2 hfree⟩

end LdacsSdk
