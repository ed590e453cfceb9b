import LdacsSdk.Timer.Interleaving

/-!
# The list of the active timers

The list stays well formed in every run in which `mt_set_timer` finds the timer that it sets not
active under the lock too, whatever the cancels and the worker do. There, of two calls that set one
timer at the same time, one is refused.
-/
namespace LdacsSdk.TimerSystem

open Library

variable {n : ℕ} {C : Type*} {u : ListOps (Fin n)} {s t : TimerSystem n C} {op : TimerOp C}
  {pc : CallPc n C} {r : TimerSystem n C × CallPc n C} {timer : Fin n} {i j : ℕ}

theorem listed_deactivate (hu : u.InOrder) {mt mt' : MultiTimer n C} (h : ∃ l, mt.Lists l)
    (hmt : mt.deactivate u timer = some mt') : ∃ l, mt'.Lists l := by
  obtain ⟨l, hl⟩ := h
  cases hactive : (mt.allTimers timer).active with
  | false => exact ⟨l, hl.deactivate_idle hu hactive hmt⟩
  | true =>
    obtain ⟨mt'', l', hmt', hl'⟩ := hl.deactivate hu hactive
    obtain rfl : mt'' = mt' := Option.some.inj (hmt'.symm.trans hmt)
    exact ⟨l', hl'⟩

theorem listed_callStep (hu : u.InOrder) (h : ∃ l, s.mt.Lists l) (hin : s.SetInTime pc)
    (hstep : s.callStep u pc = some r) : ∃ l, r.1.mt.Lists l := by
  cases pc with
  | setTest id timeout callback =>
    simp only [callStep] at hstep
    split at hstep <;> cases hstep <;> exact h
  | setLock timer timeout callback =>
    simp only [callStep] at hstep
    split_ifs at hstep
    obtain ⟨mt, hmt, rfl⟩ := Option.map_eq_some_iff.mp hstep
    obtain ⟨l, hl⟩ := h
    obtain ⟨mt', l', hmt', hl'⟩ := hl.setLocked hu hin s.clock timeout callback
    obtain rfl : mt' = mt := Option.some.inj (hmt'.symm.trans hmt)
    exact ⟨l', hl'⟩
  | setSignal =>
    cases hstep
    exact h
  | cancelTest id =>
    simp only [callStep] at hstep
    split at hstep <;> cases hstep <;> exact h
  | cancelLock timer =>
    simp only [callStep] at hstep
    split_ifs at hstep
    obtain ⟨mt, hmt, rfl⟩ := Option.map_eq_some_iff.mp hstep
    exact listed_deactivate hu h hmt
  | done ret => cases hstep

theorem listed_workerStep (hu : u.InOrder) (h : ∃ l, s.mt.Lists l)
    (hstep : s.workerStep u = some t) : ∃ l, t.mt.Lists l := by
  unfold workerStep at hstep
  split at hstep
  · split at hstep <;> cases hstep <;> exact h
  · cases hstep
  · cases hstep
  · cases hstep
    exact h
  · obtain ⟨l, hl⟩ := h
    cases hstep
    exact ⟨l, hl.countTimeout⟩
  · obtain ⟨mt, hmt, rfl⟩ := Option.map_eq_some_iff.mp hstep
    exact listed_deactivate hu h hmt

theorem step_call (h : s.step u (.call i) = some t) :
    ∃ pc r, s.calls[i]? = some pc ∧ s.callStep u pc = some r ∧
      t = { r.1 with calls := s.calls.set i r.2 } := by
  obtain ⟨r, hr, rfl⟩ := Option.map_eq_some_iff.mp h
  obtain ⟨pc, hpc, hstep⟩ := Option.bind_eq_some_iff.mp hr
  exact ⟨pc, r, hpc, hstep, rfl⟩

/-- Only the calls and the worker change the timers. -/
theorem step_mt (h : s.step u op = some t) :
    (∃ i, op = .call i) ∨ op = .worker ∨ t.mt = s.mt := by
  cases op with
  | call i => exact .inl ⟨i, rfl⟩
  | worker => exact .inr (.inl rfl)
  | tick now =>
    simp only [step] at h
    split_ifs at h
    cases h
    exact .inr (.inr rfl)
  | set id timeout callback =>
    cases h
    exact .inr (.inr rfl)
  | cancel id =>
    cases h
    exact .inr (.inr rfl)
  | wake =>
    simp only [step] at h
    split_ifs at h
    cases h
    exact .inr (.inr rfl)
  | timeout =>
    simp only [step] at h
    split at h
    · split_ifs at h
      cases h
      exact .inr (.inr rfl)
    · cases h

theorem listed_step (hu : u.InOrder) (h : ∃ l, s.mt.Lists l) (hin : OnCalls SetInTime s op)
    (hstep : s.step u op = some t) : ∃ l, t.mt.Lists l := by
  rcases step_mt hstep with ⟨i, rfl⟩ | rfl | hmt
  · obtain ⟨pc, r, hpc, hcall, rfl⟩ := step_call hstep
    exact listed_callStep hu h (hin pc hpc) hcall
  · exact listed_workerStep hu h hstep
  · rwa [hmt]

theorem listed_of_reaches (hu : u.InOrder) (h : Reaches (step u) (OnCalls SetInTime) {} s) :
    ∃ l, s.mt.Lists l :=
  h.invariant (P := fun s : TimerSystem n C => ∃ l, s.mt.Lists l) ⟨[], MultiTimer.lists_start⟩
    fun _ _ _ hs hin hstep => listed_step hu hs hin hstep

/-! ### Two calls on one timer -/

/-- The call is going to set the timer, or to find out that it cannot. -/
def TriesFor (timer : Fin n) : CallPc n C → Prop
  | .setTest id _ _ => mtGetTimerById n id = .ok timer
  | .setLock timer' _ _ => timer' = timer
  | _ => False

/-- The call has set its timer. -/
def HasSet : CallPc n C → Prop
  | .setSignal => True
  | .done ret => ret = .ldOk
  | _ => False

/-- The call is going to change the timer under the lock. -/
def ActsOn (timer : Fin n) : CallPc n C → Prop
  | .setLock timer' _ _ => timer' = timer
  | .cancelLock timer' => timer' = timer
  | _ => False

/-- Nobody but the calls `i` and `j` sets the timer, and nobody deactivates it. -/
def LeftTo (timer : Fin n) (i j : ℕ) (s : TimerSystem n C) : TimerOp C → Prop
  | .call k => k = i ∨ k = j ∨ ∀ pc ∈ s.calls[k]?, ¬ActsOn timer pc
  | .worker => s.worker ≠ .removing timer
  | _ => True

instance (timer : Fin n) : (pc : CallPc n C) → Decidable (ActsOn timer pc)
  | .setTest _ _ _ => inferInstanceAs (Decidable False)
  | .setLock timer' _ _ => inferInstanceAs (Decidable (timer' = timer))
  | .setSignal => inferInstanceAs (Decidable False)
  | .cancelTest _ => inferInstanceAs (Decidable False)
  | .cancelLock timer' => inferInstanceAs (Decidable (timer' = timer))
  | .done _ => inferInstanceAs (Decidable False)

instance (timer : Fin n) (i j : ℕ) (s : TimerSystem n C) :
    (op : TimerOp C) → Decidable (LeftTo timer i j s op)
  | .tick _ => inferInstanceAs (Decidable True)
  | .set _ _ _ => inferInstanceAs (Decidable True)
  | .cancel _ => inferInstanceAs (Decidable True)
  | .call k => inferInstanceAs (Decidable (k = i ∨ k = j ∨ ∀ pc ∈ s.calls[k]?, ¬ActsOn timer pc))
  | .wake => inferInstanceAs (Decidable True)
  | .timeout => inferInstanceAs (Decidable True)
  | .worker => inferInstanceAs (Decidable (s.worker ≠ _))

/-- One call has set the timer, and the other one has not and is not refused twice. -/
structure Won (s : TimerSystem n C) (timer : Fin n) (i j : ℕ) : Prop where
  active : (s.mt.allTimers timer).active = true
  winner : ∃ pc ∈ s.calls[i]?, HasSet pc
  loser : ∃ pc ∈ s.calls[j]?, TriesFor timer pc ∨ pc = .done .ldErrInvalid

/-- Two calls race for one timer: nobody has set it so far, or one of them has. -/
inductive Race (s : TimerSystem n C) (timer : Fin n) (i j : ℕ) : Prop
  | undecided (idle : (s.mt.allTimers timer).active = false)
      (left : ∃ pc ∈ s.calls[i]?, TriesFor timer pc) (right : ∃ pc ∈ s.calls[j]?, TriesFor timer pc)
  | left (won : Won s timer i j)
  | right (won : Won s timer j i)

theorem Race.symm (h : Race s timer i j) : Race s timer j i := by
  cases h with
  | undecided idle left right => exact .undecided idle right left
  | left won => exact .right won
  | right won => exact .left won

/-- A step that leaves both calls and the flag alone. -/
theorem Race.congr (h : Race s timer i j)
    (hactive : (t.mt.allTimers timer).active = (s.mt.allTimers timer).active)
    (hi : ∀ pc, s.calls[i]? = some pc → t.calls[i]? = some pc)
    (hj : ∀ pc, s.calls[j]? = some pc → t.calls[j]? = some pc) : Race t timer i j := by
  cases h with
  | undecided idle left right =>
    obtain ⟨pc, hpc, htries⟩ := left
    obtain ⟨pc', hpc', htries'⟩ := right
    exact .undecided (hactive.trans idle) ⟨pc, hi pc hpc, htries⟩ ⟨pc', hj pc' hpc', htries'⟩
  | left won =>
    obtain ⟨active, ⟨pc, hpc, hset⟩, ⟨pc', hpc', hlost⟩⟩ := won
    exact .left ⟨hactive.trans active, ⟨pc, hi pc hpc, hset⟩, ⟨pc', hj pc' hpc', hlost⟩⟩
  | right won =>
    obtain ⟨active, ⟨pc, hpc, hset⟩, ⟨pc', hpc', hlost⟩⟩ := won
    exact .right ⟨hactive.trans active, ⟨pc, hj pc hpc, hset⟩, ⟨pc', hi pc' hpc', hlost⟩⟩

/-- A call that does not act on the timer leaves its flag. -/
theorem active_callStep (hstep : s.callStep u pc = some r) (hacts : ¬ActsOn timer pc) :
    (r.1.mt.allTimers timer).active = (s.mt.allTimers timer).active := by
  cases pc with
  | setTest id timeout callback =>
    simp only [callStep] at hstep
    split at hstep <;> cases hstep <;> rfl
  | setLock timer' timeout callback =>
    simp only [callStep] at hstep
    split_ifs at hstep
    obtain ⟨mt, hmt, rfl⟩ := Option.map_eq_some_iff.mp hstep
    exact (MultiTimer.setLocked_of_ne hmt fun h => hacts h.symm).1
  | setSignal =>
    cases hstep
    rfl
  | cancelTest id =>
    simp only [callStep] at hstep
    split at hstep <;> cases hstep <;> rfl
  | cancelLock timer' =>
    simp only [callStep] at hstep
    split_ifs at hstep
    obtain ⟨mt, hmt, rfl⟩ := Option.map_eq_some_iff.mp hstep
    exact MultiTimer.deactivate_of_ne hmt fun h => hacts h.symm
  | done ret => cases hstep

theorem active_workerStep (hstep : s.workerStep u = some t) (hleft : s.worker ≠ .removing timer) :
    (t.mt.allTimers timer).active = (s.mt.allTimers timer).active := by
  unfold workerStep at hstep
  split at hstep
  · split at hstep <;> cases hstep <;> rfl
  · cases hstep
  · cases hstep
  · cases hstep
    rfl
  · cases hstep
    exact (MultiTimer.countTimeout_data _ _ _).1
  · next first hworker =>
    obtain ⟨mt, hmt, rfl⟩ := Option.map_eq_some_iff.mp hstep
    exact MultiTimer.deactivate_of_ne hmt fun h => hleft (h ▸ hworker)

theorem calls_workerStep (hstep : s.workerStep u = some t) : t.calls = s.calls := by
  unfold workerStep at hstep
  split at hstep
  · split at hstep <;> cases hstep <;> rfl
  · cases hstep
  · cases hstep
  · cases hstep
    rfl
  · cases hstep
    rfl
  · obtain ⟨mt, -, rfl⟩ := Option.map_eq_some_iff.mp hstep
    rfl

/-- A call goes on by its own steps only. -/
theorem calls_step (hstep : s.step u op = some t) (hop : op ≠ .call i)
    (hpc : s.calls[i]? = some pc) : t.calls[i]? = some pc := by
  obtain ⟨hlt, -⟩ := List.getElem?_eq_some_iff.mp hpc
  cases op with
  | call k =>
    obtain ⟨pc', r, -, -, rfl⟩ := step_call hstep
    have hne : k ≠ i := fun hki => hop (hki ▸ rfl)
    simpa [hne] using hpc
  | worker => rwa [calls_workerStep hstep]
  | tick now =>
    simp only [step] at hstep
    split_ifs at hstep
    cases hstep
    exact hpc
  | set id timeout callback =>
    cases hstep
    simpa [List.getElem?_append_left hlt] using hpc
  | cancel id =>
    cases hstep
    simpa [List.getElem?_append_left hlt] using hpc
  | wake =>
    simp only [step] at hstep
    split_ifs at hstep
    cases hstep
    exact hpc
  | timeout =>
    simp only [step] at hstep
    split at hstep
    · split_ifs at hstep
      cases hstep
      exact hpc
    · cases hstep

/-- A step of one of the two calls. -/
theorem Race.call (h : Race s timer i j) (hij : i ≠ j) (hpc : s.calls[i]? = some pc)
    (hin : s.SetInTime pc) (hstep : s.callStep u pc = some r) :
    Race { r.1 with calls := s.calls.set i r.2 } timer i j := by
  obtain ⟨hlt, -⟩ := List.getElem?_eq_some_iff.mp hpc
  have hi : (s.calls.set i r.2)[i]? = some r.2 := by simp [hlt]
  have hj : (s.calls.set i r.2)[j]? = s.calls[j]? := by simp [hij]
  cases h with
  | undecided idle left right =>
    obtain ⟨pc', hpc', htries⟩ := left
    obtain rfl : pc = pc' := Option.some.inj (hpc.symm.trans hpc')
    cases pc with
    | setTest id timeout callback =>
      have hget : mtGetTimerById n id = .ok timer := htries
      simp only [callStep, MultiTimer.setTest, hget, idle, Bool.false_eq_true, if_false] at hstep
      obtain rfl := Option.some.inj hstep
      exact .undecided idle ⟨_, hi, rfl⟩ (by simpa [hj] using right)
    | setLock timer' timeout callback =>
      obtain rfl : timer' = timer := htries
      simp only [callStep] at hstep
      split_ifs at hstep
      obtain ⟨mt, hmt, rfl⟩ := Option.map_eq_some_iff.mp hstep
      obtain ⟨pc', hpc', htries'⟩ := right
      exact .left ⟨(MultiTimer.setLocked_self hmt).1, ⟨_, hi, trivial⟩,
        ⟨pc', hj.trans hpc', .inl htries'⟩⟩
    | setSignal => cases htries
    | cancelTest id => cases htries
    | cancelLock timer' => cases htries
    | done ret => cases htries
  | left won =>
    obtain ⟨active, ⟨pc', hpc', hset⟩, ⟨pc'', hpc'', hlost⟩⟩ := won
    obtain rfl : pc = pc' := Option.some.inj (hpc.symm.trans hpc')
    cases pc with
    | setSignal =>
      cases hstep
      exact .left ⟨active, ⟨_, hi, rfl⟩, ⟨pc'', hj.trans hpc'', hlost⟩⟩
    | done ret => cases hstep
    | setTest id timeout callback => cases hset
    | setLock timer' timeout callback => cases hset
    | cancelTest id => cases hset
    | cancelLock timer' => cases hset
  | right won =>
    obtain ⟨active, ⟨pc'', hpc'', hset⟩, ⟨pc', hpc', hlost⟩⟩ := won
    obtain rfl : pc = pc' := Option.some.inj (hpc.symm.trans hpc')
    rcases hlost with htries | rfl
    · cases pc with
      | setTest id timeout callback =>
        have hget : mtGetTimerById n id = .ok timer := htries
        simp only [callStep, MultiTimer.setTest, hget, active, if_true] at hstep
        obtain rfl := Option.some.inj hstep
        exact .right ⟨active, ⟨pc'', hj.trans hpc'', hset⟩, ⟨_, hi, .inr rfl⟩⟩
      | setLock timer' timeout callback =>
        obtain rfl : timer' = timer := htries
        exact absurd (hin.symm.trans active) (by simp)
      | setSignal => cases htries
      | cancelTest id => cases htries
      | cancelLock timer' => cases htries
      | done ret => cases htries
    · cases hstep

theorem Race.step (h : Race s timer i j) (hij : i ≠ j) (hin : OnCalls SetInTime s op)
    (hleft : LeftTo timer i j s op) (hstep : s.step u op = some t) : Race t timer i j := by
  by_cases hi : op = .call i
  · subst hi
    obtain ⟨pc, r, hpc, hcall, rfl⟩ := step_call hstep
    exact h.call hij hpc (hin pc hpc) hcall
  by_cases hj : op = .call j
  · subst hj
    obtain ⟨pc, r, hpc, hcall, rfl⟩ := step_call hstep
    exact (h.symm.call hij.symm hpc (hin pc hpc) hcall).symm
  apply h.congr _ (fun _ => calls_step hstep hi) fun _ => calls_step hstep hj
  rcases step_mt hstep with ⟨k, rfl⟩ | rfl | hmt
  · obtain ⟨pc, r, hpc, hcall, rfl⟩ := step_call hstep
    have hacts : ¬ActsOn timer pc := by
      rcases hleft with rfl | rfl | hothers
      · exact absurd rfl hi
      · exact absurd rfl hj
      · exact hothers pc hpc
    exact active_callStep hcall hacts
  · exact active_workerStep hstep hleft
  · rw [hmt]

/-- Where both calls have returned, one of them has set the timer. -/
theorem Race.returned (h : Race s timer i j) {ret ret' : LErr}
    (hi : s.calls[i]? = some (.done ret)) (hj : s.calls[j]? = some (.done ret')) :
    (ret = .ldOk ∧ ret' = .ldErrInvalid) ∨ (ret = .ldErrInvalid ∧ ret' = .ldOk) := by
  have hwon {i j : ℕ} {ret ret' : LErr} (hwon : Won s timer i j)
      (hi : s.calls[i]? = some (.done ret)) (hj : s.calls[j]? = some (.done ret')) :
      ret = .ldOk ∧ ret' = .ldErrInvalid := by
    obtain ⟨-, ⟨pc, hpc, hset⟩, ⟨pc', hpc', hlost⟩⟩ := hwon
    obtain rfl : .done ret = pc := Option.some.inj (hi.symm.trans hpc)
    obtain rfl : .done ret' = pc' := Option.some.inj (hj.symm.trans hpc')
    rcases hlost with htries | hinvalid
    · cases htries
    · exact ⟨hset, CallPc.done.inj hinvalid⟩
  cases h with
  | undecided idle left right =>
    obtain ⟨pc, hpc, htries⟩ := left
    obtain rfl : .done ret = pc := Option.some.inj (hi.symm.trans hpc)
    cases htries
  | left won => exact .inl (hwon won hi hj)
  | right won => exact .inr (hwon won hj hi).symm

/-- **The list of the active timers is well formed** in every run in which `mt_set_timer` finds the
timer not active under the lock too, and of two calls that set one timer while it is not active, and
that are left to it, one succeeds and the other one is refused. -/
theorem active_list_well_formed (u : ListOps (Fin n)) (hu : u.InOrder) (s : TimerSystem n C)
    (h : Reaches (step u) (OnCalls SetInTime) {} s) :
    s.mt.WellFormed ∧
      ∀ (timer : Fin n) (i j : ℕ) (pc pc' : CallPc n C), i ≠ j →
        s.calls[i]? = some pc → TriesFor timer pc → s.calls[j]? = some pc' → TriesFor timer pc' →
        (s.mt.allTimers timer).active = false → ∀ t,
        Reaches (step u) (fun s op => OnCalls SetInTime s op ∧ LeftTo timer i j s op) s t →
        ∀ ret ret', t.calls[i]? = some (.done ret) → t.calls[j]? = some (.done ret') →
          (ret = .ldOk ∧ ret' = .ldErrInvalid) ∨ (ret = .ldErrInvalid ∧ ret' = .ldOk) := by
  obtain ⟨l, hl⟩ := listed_of_reaches hu h
  refine ⟨hl.wellFormed, fun timer i j pc pc' hij hpc htries hpc' htries' hidle t hrun => ?_⟩
  have hrace : Race t timer i j :=
    hrun.invariant (P := fun s : TimerSystem n C => Race s timer i j)
      (.undecided hidle ⟨pc, hpc, htries⟩ ⟨pc', hpc', htries'⟩)
      fun _ _ _ hs hop hstep => hs.step hij hop.1 hop.2 hstep
  exact fun ret ret' => hrace.returned

/-- The second call tests after the first one has set the timer. -/
theorem active_list_well_formed_two : ∃ s t : TimerSystem 1 ℕ,
    s.calls = [.setTest 0 5 7, .setTest 0 5 8] ∧ s.mt.WellFormed ∧
    runOps (step (walking (Fin 1))) (fun s op => OnCalls SetInTime s op ∧ LeftTo 0 0 1 s op) s
      [.call 0, .call 0, .call 1, .call 0] = some t ∧
    ∃ ret ret', t.calls = [.done ret, .done ret'] ∧
      ((ret = .ldOk ∧ ret' = .ldErrInvalid) ∨ (ret = .ldErrInvalid ∧ ret' = .ldOk)) := by
  obtain ⟨s, t, hs, hcalls, hidle, ht, hreturned⟩ : ∃ s t : TimerSystem 1 ℕ,
      runOps (step (walking (Fin 1))) (OnCalls SetInTime) {} [.set 0 5 7, .set 0 5 8] = some s ∧
      s.calls = [.setTest 0 5 7, .setTest 0 5 8] ∧ (s.mt.allTimers 0).active = false ∧
      runOps (step (walking (Fin 1))) (fun s op => OnCalls SetInTime s op ∧ LeftTo 0 0 1 s op) s
        [.call 0, .call 0, .call 1, .call 0] = some t ∧
      t.calls = [.done .ldOk, .done .ldErrInvalid] := ⟨_, _, rfl, rfl, rfl, rfl, rfl⟩
  obtain ⟨hformed, hrace⟩ :=
    active_list_well_formed _ (walking_inOrder (Fin 1)) s (reaches_of_runOps _ hs)
  have hone := hrace 0 0 1 (.setTest 0 5 7) (.setTest 0 5 8) (by decide) (by rw [hcalls]; rfl) rfl
    (by rw [hcalls]; rfl) rfl hidle t (reaches_of_runOps _ ht) _ _ (by rw [hreturned]; rfl)
    (by rw [hreturned]; rfl)
  exact ⟨s, t, hcalls, hformed, ht, _, _, hreturned, hone⟩

/-- Both tests before either lock: the timer is set twice, and the list leads back into itself. -/
theorem both_calls_set : ∃ s : TimerSystem 1 ℕ, runOps (step (walking (Fin 1))) anyOp {}
      [.set 0 5 7, .set 0 5 8, .call 0, .call 1, .call 0, .call 1, .call 0, .call 1] = some s ∧
      s.worker = .top ∧ s.calls = [.done .ldOk, .done .ldOk] ∧ ¬s.mt.WellFormed := by
  obtain ⟨s, hs, hworker, hcalls, hhead, hnext⟩ : ∃ s : TimerSystem 1 ℕ,
      runOps (step (walking (Fin 1))) anyOp {}
        [.set 0 5 7, .set 0 5 8, .call 0, .call 1, .call 0, .call 1, .call 0, .call 1] = some s ∧
      s.worker = .top ∧ s.calls = [.done .ldOk, .done .ldOk] ∧
      s.mt.activeTimers = some 0 ∧ (s.mt.allTimers 0).next = some 0 := ⟨_, rfl, rfl, rfl, rfl, rfl⟩
  exact ⟨s, hs, hworker, hcalls, MultiTimer.not_wellFormed_of_loop hhead hnext⟩

end LdacsSdk.TimerSystem
