import LdacsSdk.Core.Pqueue

/-!
# The lock of the priority queue

A call starts with the mutex free, and every return path has to give it back. Inserting without
memory, popping and peeking in an empty queue return with the mutex held, and checking a queue of
two or more elements returns with it held or asks for it a second time.
-/
namespace LdacsSdk

open Library

variable {σ : Type*} {cb : PqueueCallbacks σ} {q : Pqueue σ}

/-- The mutex is free after the call, and the call does not ask for a mutex that is held. A call
that uses a NULL queue does not return. -/
def PqOutcome.Released : PqOutcome σ → Prop
  | .returns _ _ q => q.locked = false
  | .waits q => q.locked = false
  | .blocks => False
  | .crashes => True

/-- What the lock is for: the call ends, and leaves the mutex free unless it crashes. -/
def Pqueue.ReleasesLock (cb : PqueueCallbacks σ) (q : Pqueue σ) (op : PqOp σ) : Prop :=
  ∃ out, q.call cb op = some out ∧ out.Released

/-- The call takes none of the paths that forget the mutex. -/
def Pqueue.Unaffected (q : Pqueue σ) : PqOp σ → Prop
  | .insert grown _ => q.size < q.avail ∨ grown = true
  | .pop | .peek => q.size ≠ 1
  | .isValid => q.size ≤ 2
  | _ => True

instance (q : Pqueue σ) : (op : PqOp σ) → Decidable (q.Unaffected op)
  | .insert _ _ => inferInstanceAs (Decidable (_ ∨ _))
  | .pop | .peek => inferInstanceAs (Decidable (_ ≠ _))
  | .isValid => inferInstanceAs (Decidable (_ ≤ _))
  | .popWait | .wake | .changePriority _ _ | .remove _ | .flush _ | .print _ =>
    inferInstanceAs (Decidable True)

/-! ### Sifting -/

/-- Sifting moves elements about and leaves the rest of the queue alone. -/
structure Pqueue.Sifted (q q' : Pqueue σ) : Prop where
  sizeEq : q'.size = q.size
  lockedEq : q'.locked = q.locked

theorem Pqueue.sifted_setSlot (q : Pqueue σ) (i e : ℕ) : q.Sifted (q.setSlot cb i e) := ⟨rfl, rfl⟩

theorem Pqueue.Sifted.trans {q' q'' : Pqueue σ} (h : q.Sifted q') (h' : q'.Sifted q'') :
    q.Sifted q'' := ⟨h'.sizeEq.trans h.sizeEq, h'.lockedEq.trans h.lockedEq⟩

/-- A sift whose rounds come nearer to an end. -/
theorem sift_loop {body : Pqueue σ × ℕ → Option (Round (Pqueue σ × ℕ))}
    (measure : Pqueue σ × ℕ → ℕ)
    (hround : ∀ s, body s = some (.leave s) ∨
      ∃ s', body s = some (.again s') ∧ s.1.Sifted s'.1 ∧ measure s' < measure s)
    {s : Pqueue σ × ℕ} {fuel : ℕ} (hfuel : measure s < fuel) :
    ∃ t, whileLoop body fuel s = some t ∧ s.1.Sifted t.1 := by
  apply whileLoop_spec measure (I := fun u => s.1.Sifted u.1) _ ⟨rfl, rfl⟩ hfuel
  intro u hu
  rcases hround u with hleave | ⟨u', hagain, hsift, hless⟩
  · exact .inl ⟨u, hleave, hu⟩
  · exact .inr ⟨u', hagain, hu.trans hsift, hless⟩

theorem pqBubbleUp_sifted (cb : PqueueCallbacks σ) (q : Pqueue σ) (i : ℕ) :
    ∃ q', pqBubbleUp cb q i = some q' ∧ q.Sifted q' := by
  obtain ⟨t, ht, hsift⟩ : ∃ t, whileLoop (pqBubbleUpRound cb (q.pri cb i)) (i + 1) (q, i) = some t ∧
      q.Sifted t.1 := by
    apply sift_loop Prod.snd _ (Nat.lt_succ_self i)
    rintro ⟨u, j⟩
    unfold pqBubbleUpRound
    dsimp only
    split_ifs with hup
    · right
      exact ⟨_, rfl, u.sifted_setSlot j _, by dsimp only; omega⟩
    · left
      rfl
  exact ⟨_, congrArg (Option.map _) ht, hsift.trans (t.1.sifted_setSlot _ _)⟩

/-- A child is in the queue and behind its parent. -/
theorem pqMaxchild_cases (cb : PqueueCallbacks σ) (q : Pqueue σ) (i : ℕ) :
    pqMaxchild cb q i = 0 ∨ i < pqMaxchild cb q i ∧ pqMaxchild cb q i < q.size := by
  unfold pqMaxchild
  split_ifs with hout hright
  · exact .inl rfl
  · exact .inr ⟨by omega, hright.1⟩
  · omega

theorem percolateDown_sifted (cb : PqueueCallbacks σ) (q : Pqueue σ) (i : ℕ) :
    ∃ q', percolateDown cb q i = some q' ∧ q.Sifted q' := by
  obtain ⟨t, ht, hsift⟩ : ∃ t,
      whileLoop (percolateDownRound cb (q.pri cb i)) (q.size + 1) (q, i) = some t ∧
        q.Sifted t.1 := by
    apply sift_loop (fun s => s.1.size - s.2) _ (Nat.lt_succ_of_le (Nat.sub_le _ _))
    rintro ⟨u, j⟩
    have hchild := pqMaxchild_cases cb u j
    unfold percolateDownRound
    dsimp only
    split_ifs with hdown
    · right
      obtain ⟨hgt, hlt⟩ := hchild.resolve_left hdown.1
      exact ⟨_, rfl, u.sifted_setSlot j _, by simp only [Pqueue.setSlot]; omega⟩
    · left
      rfl
  exact ⟨_, congrArg (Option.map _) ht, hsift.trans (t.1.sifted_setSlot _ _)⟩

/-- The sift of an element in either direction. -/
theorem sift_sifted (cb : PqueueCallbacks σ) (up : Bool) (q : Pqueue σ) (i : ℕ) :
    ∃ q', (if up then pqBubbleUp cb q i else percolateDown cb q i) = some q' ∧ q.Sifted q' := by
  cases up with
  | false => exact percolateDown_sifted cb q i
  | true => exact pqBubbleUp_sifted cb q i

/-! ### The calls -/

/-- The mutex is free, and the size is that of a `size_t`. -/
structure Pqueue.Idle (q : Pqueue σ) : Prop where
  free : q.locked = false
  sizeLt : q.size < 2 ^ 64

/-- The elements in the queue. -/
def Pqueue.count (q : Pqueue σ) : ℕ := u64 (q.size - 1)

theorem Pqueue.withLock_free (h : q.locked = false)
    (body : Pqueue σ → Option (PqOutcome σ)) :
    q.withLock body = body { q with locked := true } := by
  rw [Pqueue.withLock, h, if_neg Bool.false_ne_true]

theorem Pqueue.count_eq_zero (h : q.size < 2 ^ 64) : q.count = 0 ↔ q.size = 1 := by
  unfold Pqueue.count u64
  omega

theorem popTop_spec (cb : PqueueCallbacks σ) (q : Pqueue σ) :
    ∃ e q', popTop cb q = some (.returns 0 (some e) q') ∧ q'.Idle ∧ q'.size = q.count := by
  obtain ⟨q', hq', hsift⟩ := percolateDown_sifted cb
    { q.shrink with d := Function.update q.shrink.d 1 (q.shrink.d q.shrink.size) } 1
  have hsize : q'.size = q.count := hsift.sizeEq
  refine ⟨q.d 1, q'.unlock, congrArg (Option.map _) hq', ⟨rfl, ?_⟩, hsize⟩
  exact hsize.trans_lt (u64_lt _)

/-- Popping from a queue with elements. -/
theorem pqueuePop_spec (cb : PqueueCallbacks σ) (h : q.locked = false) (hsize : q.size ≠ 1) :
    ∃ e q', pqueuePop cb q = some (.returns 0 (some e) q') ∧ q'.Idle ∧ q'.size = q.count := by
  rw [pqueuePop, Pqueue.withLock_free h, if_neg hsize]
  exact popTop_spec cb _

/-- Popping from an empty queue. -/
theorem pqueuePop_empty (h : q.locked = false) (hsize : q.size = 1) :
    pqueuePop cb q = some (.returns (-1) none { q with locked := true }) := by
  rw [pqueuePop, Pqueue.withLock_free h, if_pos hsize]

theorem count_of_size_eq {q' : Pqueue σ} {n : ℕ} (hcount : q.count = n + 1)
    (hsize : q'.size = q.count) : q'.count = n := by
  have hlt : q.count < 2 ^ 64 := u64_lt _
  unfold Pqueue.count at hcount hsize hlt ⊢
  rw [hsize, hcount, u64]
  omega

/-- Popping from a queue of `n + 1` elements. -/
theorem pqueuePop_succ (cb : PqueueCallbacks σ) {n : ℕ} (h : q.Idle) (hcount : q.count = n + 1) :
    ∃ e q', pqueuePop cb q = some (.returns 0 (some e) q') ∧ q'.Idle ∧ q'.count = n := by
  have hne : q.size ≠ 1 := by
    intro hsize
    have hzero := (Pqueue.count_eq_zero h.sizeLt).mpr hsize
    omega
  obtain ⟨e, q', hpop, hidle, hsize⟩ := pqueuePop_spec cb h.free hne
  exact ⟨e, q', hpop, hidle, count_of_size_eq hcount hsize⟩

/-- A call that ends, with the mutex free for the next one unless it crashes. -/
def Pqueue.EndsIdle (out : Option (PqOutcome σ)) : Prop :=
  out = some .crashes ∨
    ∃ q', q'.Idle ∧ (out = some (.waits q') ∨ ∃ ret e, out = some (.returns ret e q'))

theorem Pqueue.endsIdle_returns {q' : Pqueue σ} {ret : ℤ} {e : Option ℕ} (h : q'.Idle) :
    Pqueue.EndsIdle (some (.returns ret e q')) := .inr ⟨q', h, .inr ⟨ret, e, rfl⟩⟩

theorem Pqueue.endsIdle_waits {q' : Pqueue σ} (h : q'.Idle) :
    Pqueue.EndsIdle (some (.waits q')) := .inr ⟨q', h, .inl rfl⟩

/-- A sift in front of the end of a call. -/
theorem Pqueue.endsIdle_sift {sift : Option (Pqueue σ)}
    (h : ∃ q', sift = some q' ∧ q.Sifted q') (hsize : q.size < 2 ^ 64) :
    Pqueue.EndsIdle (sift.map fun q => .returns 0 none q.unlock) := by
  obtain ⟨q', rfl, hsift⟩ := h
  exact Pqueue.endsIdle_returns ⟨rfl, hsift.sizeEq.trans_lt hsize⟩

theorem popOrWait_endsIdle (hsize : q.size < 2 ^ 64) : Pqueue.EndsIdle (popOrWait cb q) := by
  unfold popOrWait
  split_ifs
  · exact Pqueue.endsIdle_waits ⟨rfl, hsize⟩
  · obtain ⟨e, q', hpop, hidle, -⟩ := popTop_spec cb q
    rw [hpop]
    exact Pqueue.endsIdle_returns hidle

theorem flushLoop_endsIdle (freeFunc : Option (σ → Option ℕ → σ)) (n : ℕ) (h : q.Idle)
    (hcount : q.count = n) : Pqueue.EndsIdle (flushLoop cb freeFunc n q) := by
  induction n generalizing q with
  | zero => exact Pqueue.endsIdle_returns h
  | succ n ih =>
    obtain ⟨e, q', hpop, hidle, hcount'⟩ := pqueuePop_succ cb h hcount
    rw [flushLoop, hpop]
    cases freeFunc with
    | none => exact ih hidle hcount'
    | some freeFunc => exact ih ⟨hidle.free, hidle.sizeLt⟩ hcount'

/-- The duplicate is popped once more than it has elements, and its mutex stays held. -/
theorem printLoop_spec (cb : PqueueCallbacks σ) (n : ℕ) (dup : Pqueue σ) (h : dup.Idle)
    (hcount : dup.count = n) :
    ∃ dup', printLoop cb (n + 1) dup = some (.returns (-1) none dup') ∧ dup'.locked = true := by
  induction n generalizing dup with
  | zero =>
    have hsize := (Pqueue.count_eq_zero h.sizeLt).mp hcount
    refine ⟨{ dup with locked := true }, ?_, rfl⟩
    rw [printLoop, pqueuePop_empty h.free hsize]
    rfl
  | succ n ih =>
    obtain ⟨e, dup', hpop, hidle, hcount'⟩ := pqueuePop_succ cb h hcount
    obtain ⟨last, hlast, hheld⟩ := ih dup' hidle hcount'
    refine ⟨last, ?_, hheld⟩
    rw [printLoop, hpop]
    exact hlast

theorem pqueueIsValid_small (h : q.Idle) (hsize : q.size ≤ 2) :
    Pqueue.EndsIdle (pqueueIsValid cb q) := by
  rw [pqueueIsValid, subtreeIsValid, Pqueue.withLock_free h.free]
  have hleft : ¬2 * 1 < ({ q with locked := true } : Pqueue σ).size := Nat.not_lt.mpr hsize
  have hright : ¬2 * 1 + 1 < ({ q with locked := true } : Pqueue σ).size := by
    simp only
    omega
  rw [childIsValid, if_neg hleft]
  simp only [Option.bind_some, childIsValid, if_neg hright]
  exact Pqueue.endsIdle_returns ⟨rfl, h.sizeLt⟩

/-- **A call that forgets no return path.** -/
theorem Pqueue.Idle.endsIdle (h : q.Idle) (cb : PqueueCallbacks σ) {op : PqOp σ}
    (hop : q.Unaffected op) :
    Pqueue.EndsIdle (q.call cb op) := by
  cases op with
  | insert grown d =>
    simp only [Pqueue.call, pqueueInsert, Pqueue.withLock_free h.free]
    rw [if_neg (by rintro ⟨hfull, hgrown⟩; rcases hop with hroom | hroom <;> simp_all; omega)]
    apply Pqueue.endsIdle_sift (pqBubbleUp_sifted cb _ _)
    dsimp only
    exact u64_lt _
  | pop =>
    obtain ⟨e, q', hpop, hidle, -⟩ := pqueuePop_spec cb h.free hop
    simp only [Pqueue.call, hpop]
    exact Pqueue.endsIdle_returns hidle
  | popWait =>
    simp only [Pqueue.call, pqueuePopWait, Pqueue.withLock_free h.free]
    exact popOrWait_endsIdle h.sizeLt
  | wake =>
    simp only [Pqueue.call, pqueueWake]
    split_ifs
    · exact Pqueue.endsIdle_waits h
    · have hfree : { q with waiting := q.waiting - 1 }.locked = false := h.free
      rw [Pqueue.withLock_free hfree]
      exact popOrWait_endsIdle h.sizeLt
  | peek =>
    simp only [Pqueue.call, pqueuePeek, Pqueue.withLock_free h.free]
    rw [if_neg hop]
    exact Pqueue.endsIdle_returns ⟨rfl, h.sizeLt⟩
  | changePriority newPri d =>
    simp only [Pqueue.call, pqueueChangePriority, Pqueue.withLock_free h.free]
    exact Pqueue.endsIdle_sift (sift_sifted cb _ _ _) h.sizeLt
  | remove d =>
    simp only [Pqueue.call, pqueueRemove, Pqueue.withLock_free h.free]
    exact Pqueue.endsIdle_sift (sift_sifted cb _ _ _) (u64_lt _)
  | flush freeFunc => exact flushLoop_endsIdle freeFunc _ h rfl
  | print allocated =>
    simp only [Pqueue.call, pqueuePrint, Pqueue.withLock_free h.free]
    split_ifs
    · exact .inl rfl
    · obtain ⟨dup, hdup, -⟩ := printLoop_spec cb q.count
        { q with locked := false, waiting := 0 } ⟨rfl, h.sizeLt⟩ rfl
      have hloop : printLoop cb (u64 (q.size - 1) + 1)
          { q with locked := false, waiting := 0 } = some (.returns (-1) none dup) := hdup
      rw [hloop]
      exact Pqueue.endsIdle_returns ⟨rfl, h.sizeLt⟩
  | isValid => exact pqueueIsValid_small h hop

theorem Pqueue.EndsIdle.released {op : PqOp σ} (h : Pqueue.EndsIdle (q.call cb op)) :
    q.ReleasesLock cb op := by
  rcases h with hcrash | ⟨q', hidle, hwait | ⟨ret, e, hret⟩⟩
  · exact ⟨_, hcrash, trivial⟩
  · exact ⟨_, hwait, hidle.free⟩
  · exact ⟨_, hret, hidle.free⟩

theorem Pqueue.Idle.step (h : q.Idle) {op : PqOp σ} (hop : q.Unaffected op) {q' : Pqueue σ}
    (hstep : pqStep cb q op = some q') : q'.Idle := by
  unfold pqStep at hstep
  rcases h.endsIdle cb hop with hcrash | ⟨q'', hidle, hwait | ⟨ret, e, hret⟩⟩
  · rw [hcrash] at hstep
    cases hstep
  · rw [hwait] at hstep
    cases hstep
    exact hidle
  · rw [hret] at hstep
    cases hstep
    exact hidle

/-- The callbacks of elements that are pairs of a priority and a position. -/
def pairCallbacks : PqueueCallbacks (ℕ → ℕ × ℕ) where
  cmppri := fun next curr => next ≥ curr
  getpri := fun elems e => (elems e).1
  setpri := fun elems e pri => Function.update elems e (pri, (elems e).2)
  getpos := fun elems e => (elems e).2
  setpos := fun elems e pos => Function.update elems e ((elems e).1, pos)

end LdacsSdk
