import LdacsSdk.Timer.ActiveTimers

/-!
# Cancelled timers

A timer that is cancelled after the worker's wait for it has timed out, and before the worker has
the lock back, fires all the same. It is the only way: in every run in which no cancel falls in
between, a cancelled setting never fires, no setting fires before its expiry, and the worker takes
an active timer off the list.
-/
namespace LdacsSdk

open Library

variable {n : ℕ} {C : Type*} {u : ListOps (Fin n)} {mt mt' : MultiTimer n C} {timer : Fin n}
  {e : TimerEvent n C} {log : List (TimerEvent n C)}

namespace TimerEvent

/-- The timer that an event is about. -/
def about : TimerEvent n C → Fin n
  | .set timer _ _ _ => timer
  | .cancelled timer _ => timer
  | .fired timer _ _ _ => timer

/-- The number of the setting. -/
def setting : TimerEvent n C → ℕ
  | .set _ setting _ _ => setting
  | .cancelled _ setting => setting
  | .fired _ setting _ _ => setting

/-- The setting that one event cancels is the one that the other one fires. -/
def Cancels : TimerEvent n C → TimerEvent n C → Prop
  | .cancelled timer setting, .fired timer' setting' _ _ => timer = timer' ∧ setting = setting'
  | _, _ => False

/-- A firing is that of a setting: its callback, at its expiry or later. -/
def FiresAs : TimerEvent n C → TimerEvent n C → Prop
  | .set timer setting callback expire, .fired timer' setting' callback' now =>
    timer = timer' → setting = setting' → callback' = some callback ∧ expire.nanos ≤ now.nanos
  | _, _ => True

end TimerEvent

/-- What the log says about the timers as they are. -/
structure Recorded (mt : MultiTimer n C) (settings : Fin n → ℕ) (log : List (TimerEvent n C)) :
    Prop where
  numbered : ∀ e ∈ log, e.setting ≤ settings e.about
  latest : ∀ timer callback expire, .set timer (settings timer) callback expire ∈ log →
    (mt.allTimers timer).callback = some callback ∧ (mt.allTimers timer).expireTime = expire
  live : ∀ timer, (mt.allTimers timer).active = true → .cancelled timer (settings timer) ∉ log
  kept : log.Pairwise fun a b => ¬a.Cancels b
  due : ∀ a ∈ log, ∀ b ∈ log, a.FiresAs b

namespace Recorded

variable {settings : Fin n → ℕ}

theorem start : Recorded ({} : MultiTimer n C) settings [] :=
  ⟨by simp, by simp, by simp, .nil, by simp⟩

/-- Timers that keep callback and expiry, of which none has become active. -/
theorem congr (h : Recorded mt settings log)
    (hactive : ∀ timer, (mt'.allTimers timer).active = true → (mt.allTimers timer).active = true)
    (hexpire : ∀ timer, (mt'.allTimers timer).expireTime = (mt.allTimers timer).expireTime)
    (hcallback : ∀ timer, (mt'.allTimers timer).callback = (mt.allTimers timer).callback) :
    Recorded mt' settings log where
  numbered := h.numbered
  latest timer callback expire hset := by
    rw [hexpire, hcallback]
    exact h.latest timer callback expire hset
  live timer hmt := h.live timer (hactive timer hmt)
  kept := h.kept
  due := h.due

theorem deactivate (h : Recorded mt settings log) (hmt : mt.deactivate u timer = some mt') :
    Recorded mt' settings log := by
  apply h.congr _ (fun other => (MultiTimer.deactivate_data hmt other).1) fun other =>
    (MultiTimer.deactivate_data hmt other).2
  intro other hactive
  rcases eq_or_ne other timer with rfl | hne
  · rw [MultiTimer.deactivate_self hmt] at hactive
    cases hactive
  · rwa [MultiTimer.deactivate_of_ne hmt hne] at hactive

/-- One more event, behind what has been recorded. -/
theorem pairwise_snoc (h : Recorded mt settings log) (hnew : ∀ a ∈ log, ¬a.Cancels e) :
    (log ++ [e]).Pairwise fun a b => ¬a.Cancels b :=
  List.pairwise_append.mpr ⟨h.kept, List.pairwise_singleton _ _, fun a ha b hb => by
    obtain rfl : b = e := List.mem_singleton.mp hb
    exact hnew a ha⟩

theorem due_snoc (h : Recorded mt settings log) (hself : e.FiresAs e)
    (hleft : ∀ b ∈ log, e.FiresAs b) (hright : ∀ a ∈ log, a.FiresAs e) :
    ∀ a ∈ log ++ [e], ∀ b ∈ log ++ [e], a.FiresAs b := by
  simp only [List.mem_append, List.mem_singleton]
  rintro a (ha | rfl) b (hb | rfl)
  · exact h.due a ha b hb
  · exact hright a ha
  · exact hleft b hb
  · exact hself

/-- A new setting of a timer. -/
theorem set (h : Recorded mt settings log) {now : Timespec} {timeout : UInt64} {callback : C}
    (hmt : mt.setLocked u now timer timeout callback = some mt') :
    Recorded mt' (Function.update settings timer (settings timer + 1))
      (log ++ [.set timer (settings timer + 1) callback (updateExpireTime now timeout)]) := by
  have hnew : ∀ e ∈ log, e.about = timer → e.setting ≠ settings timer + 1 := fun e he hte => by
    have hle := h.numbered e he
    rw [hte] at hle
    omega
  obtain ⟨-, hcallback, hexpire⟩ := MultiTimer.setLocked_self hmt
  refine ⟨fun e he => ?_, fun other callback' expire hset => ?_, fun other hactive hmem => ?_,
    ?_, ?_⟩
  · rcases List.mem_append.mp he with he | he
    · have hle := h.numbered e he
      rcases eq_or_ne e.about timer with hte | hte
      · rw [hte] at hle ⊢
        rw [Function.update_self]
        omega
      · rwa [Function.update_of_ne hte]
    · obtain rfl := List.mem_singleton.mp he
      exact (Function.update_self timer (settings timer + 1) settings).ge
  · rcases eq_or_ne other timer with rfl | hne
    · rw [Function.update_self] at hset
      rcases List.mem_append.mp hset with hset | hset
      · exact absurd rfl (hnew _ hset rfl)
      · obtain ⟨-, -, rfl, rfl⟩ := TimerEvent.set.inj (List.mem_singleton.mp hset)
        exact ⟨hcallback, hexpire⟩
    · obtain ⟨-, hexpire', hcallback'⟩ := MultiTimer.setLocked_of_ne hmt hne
      rw [Function.update_of_ne hne] at hset
      rw [hexpire', hcallback']
      rcases List.mem_append.mp hset with hset | hset
      · exact h.latest other callback' expire hset
      · exact absurd (TimerEvent.set.inj (List.mem_singleton.mp hset)).1 hne
  · rcases eq_or_ne other timer with rfl | hne
    · rw [Function.update_self] at hmem
      exact hnew _ (by simpa using hmem) rfl rfl
    · rw [Function.update_of_ne hne] at hmem
      rw [(MultiTimer.setLocked_of_ne hmt hne).1] at hactive
      exact h.live other hactive (by simpa using hmem)
  · exact h.pairwise_snoc fun a _ => by cases a <;> exact id
  · refine h.due_snoc trivial (fun b hb => ?_) fun a _ => by cases a <;> trivial
    cases b with
    | set timer' setting callback' expire => trivial
    | cancelled timer' setting => trivial
    | fired timer' setting callback' now' =>
      intro htimer hsetting
      exact absurd hsetting.symm (hnew _ hb htimer.symm)

/-- The current setting of a timer is cancelled. -/
theorem cancelled (h : Recorded mt settings log) (hmt : mt.deactivate u timer = some mt') :
    Recorded mt' settings (log ++ [.cancelled timer (settings timer)]) := by
  obtain ⟨hnumbered, hlatest, hlive, -, -⟩ := h.deactivate hmt
  refine ⟨fun e he => ?_, fun other callback expire hset => ?_, fun other hactive hmem => ?_,
    ?_, ?_⟩
  · rcases List.mem_append.mp he with he | he
    · exact hnumbered e he
    · obtain rfl := List.mem_singleton.mp he
      exact le_rfl
  · exact hlatest other callback expire (by simpa using hset)
  · rcases List.mem_append.mp hmem with hmem | hmem
    · exact hlive other hactive hmem
    · obtain ⟨rfl, -⟩ := TimerEvent.cancelled.inj (List.mem_singleton.mp hmem)
      rw [MultiTimer.deactivate_self hmt] at hactive
      cases hactive
  · exact h.pairwise_snoc fun a _ => by cases a <;> exact id
  · exact h.due_snoc trivial (fun b _ => trivial) fun a _ => by cases a <;> trivial

/-- An active timer fires, at its expiry or later. -/
theorem fired (h : Recorded mt settings log) {now : Timespec}
    (hactive : (mt.allTimers timer).active = true)
    (hdue : (mt.allTimers timer).expireTime.nanos ≤ now.nanos) :
    Recorded (mt.countTimeout timer) settings
      (log ++ [.fired timer (settings timer) (mt.allTimers timer).callback now]) := by
  have hdata := MultiTimer.countTimeout_data mt timer
  obtain ⟨hnumbered, hlatest, hlive, -, -⟩ : Recorded (mt.countTimeout timer) settings log :=
    h.congr (fun other hmt => (hdata other).1 ▸ hmt) (fun other => (hdata other).2.1)
      fun other => (hdata other).2.2
  refine ⟨fun e he => ?_, fun other callback expire hset => ?_, fun other hother hmem => ?_, ?_, ?_⟩
  · rcases List.mem_append.mp he with he | he
    · exact hnumbered e he
    · obtain rfl := List.mem_singleton.mp he
      exact le_rfl
  · exact hlatest other callback expire (by simpa using hset)
  · exact hlive other hother (by simpa using hmem)
  · refine h.pairwise_snoc fun a ha => ?_
    cases a with
    | set timer' setting callback expire => exact id
    | cancelled timer' setting =>
      rintro ⟨rfl, rfl⟩
      exact h.live timer' hactive ha
    | fired timer' setting callback now => exact id
  · refine h.due_snoc trivial (fun b _ => trivial) fun a ha => ?_
    cases a with
    | set timer' setting callback expire =>
      rintro rfl rfl
      obtain ⟨hcallback, rfl⟩ := h.latest timer' callback expire ha
      exact ⟨hcallback, hdue⟩
    | cancelled timer' setting => trivial
    | fired timer' setting callback now => trivial

end Recorded

namespace TimerSystem

variable {s t : TimerSystem n C} {op : TimerOp C} {pc : CallPc n C}
  {r : TimerSystem n C × CallPc n C} {clock now : Timespec} {w : WorkerPc n}

/-- The timer that the worker has taken is active, it has the expiry that the worker waits for, and
that has come when the wait timed out. -/
def Captured (mt : MultiTimer n C) (clock : Timespec) : WorkerPc n → Prop
  | .waiting first deadline =>
    (mt.allTimers first).active = true ∧ (mt.allTimers first).expireTime = deadline
  | .timedOut first => (mt.allTimers first).active = true ∧
    (mt.allTimers first).expireTime.nanos ≤ clock.nanos
  | .removing first => (mt.allTimers first).active = true
  | _ => True

theorem Captured.signal (h : Captured mt clock w) : Captured mt clock w.signal := by
  unfold WorkerPc.signal
  split_ifs
  · trivial
  · exact h

/-- Timers that stay as they are where they were active. -/
theorem Captured.congr (h : Captured mt clock w)
    (hmt : ∀ timer, (mt.allTimers timer).active = true →
      (mt'.allTimers timer).active = true ∧
        (mt'.allTimers timer).expireTime = (mt.allTimers timer).expireTime) :
    Captured mt' clock w := by
  cases w with
  | waiting first deadline =>
    obtain ⟨hactive, hexpire⟩ := hmt first h.1
    exact ⟨hactive, hexpire.trans h.2⟩
  | timedOut first =>
    obtain ⟨hactive, hexpire⟩ := hmt first h.1
    exact ⟨hactive, hexpire ▸ h.2⟩
  | removing first => exact (hmt first h).1
  | top => trivial
  | idle => trivial
  | woken => trivial

/-- A timer is deactivated, and the signal ends a wait. -/
theorem Captured.deactivate (h : Captured mt clock w) (hmt : mt.deactivate u timer = some mt')
    (hout : w ≠ .timedOut timer) (hlocks : ¬w.locks) : Captured mt' clock w.signal := by
  cases w with
  | timedOut first =>
    have hne : first ≠ timer := fun heq => hout (heq ▸ rfl)
    exact ⟨(MultiTimer.deactivate_of_ne hmt hne).trans h.1,
      (MultiTimer.deactivate_data hmt first).1 ▸ h.2⟩
  | removing first => exact absurd rfl hlocks
  | waiting first deadline => trivial
  | top => trivial
  | idle => trivial
  | woken => trivial

/-- The invariant of runs in which calls act in time. -/
structure Sound (s : TimerSystem n C) : Prop where
  listed : ∃ l, s.mt.Lists l
  captured : Captured s.mt s.clock s.worker
  recorded : Recorded s.mt s.settings s.log

theorem Sound.start : Sound ({} : TimerSystem n C) :=
  ⟨⟨[], MultiTimer.lists_start⟩, trivial, .start⟩

theorem Sound.callStep (hu : u.InOrder) (h : s.Sound) (hin : s.ActInTime pc)
    (hstep : s.callStep u pc = some r) : r.1.Sound := by
  have hlisted := listed_callStep hu h.listed hin.1 hstep
  cases pc with
  | setTest id timeout callback =>
    simp only [TimerSystem.callStep] at hstep
    split at hstep <;> cases hstep <;> exact h
  | setLock timer timeout callback =>
    simp only [TimerSystem.callStep] at hstep
    split_ifs at hstep
    obtain ⟨mt, hmt, rfl⟩ := Option.map_eq_some_iff.mp hstep
    have hidle : (s.mt.allTimers timer).active = false := hin.1
    refine ⟨hlisted, h.captured.congr fun other hactive => ?_, h.recorded.set hmt⟩
    -- what the worker has taken is active, so it is another timer
    have hne : other ≠ timer := fun heq => by simp [heq, hidle] at hactive
    obtain ⟨hactive', hexpire, -⟩ := MultiTimer.setLocked_of_ne hmt hne
    exact ⟨hactive'.trans hactive, hexpire⟩
  | setSignal =>
    cases hstep
    exact ⟨h.listed, h.captured.signal, h.recorded⟩
  | cancelTest id =>
    simp only [TimerSystem.callStep] at hstep
    split at hstep <;> cases hstep <;> exact h
  | cancelLock timer =>
    simp only [TimerSystem.callStep] at hstep
    split_ifs at hstep with hlocks
    obtain ⟨mt, hmt, rfl⟩ := Option.map_eq_some_iff.mp hstep
    exact ⟨hlisted, h.captured.deactivate hmt hin.2 hlocks, h.recorded.cancelled hmt⟩
  | done ret => cases hstep

theorem Sound.workerStep (hu : u.InOrder) (h : s.Sound) (hstep : s.workerStep u = some t) :
    t.Sound := by
  have hlisted := listed_workerStep hu h.listed hstep
  cases hworker : s.worker with
  | top =>
    simp only [TimerSystem.workerStep, hworker] at hstep
    cases hfirst : s.mt.activeTimers with
    | none =>
      simp only [hfirst] at hstep
      cases hstep
      exact ⟨h.listed, trivial, h.recorded⟩
    | some first =>
      simp only [hfirst] at hstep
      cases hstep
      obtain ⟨l, hl⟩ := h.listed
      exact ⟨⟨l, hl⟩, ⟨hl.first_active hfirst, rfl⟩, h.recorded⟩
  | idle => simp [TimerSystem.workerStep, hworker] at hstep
  | waiting first deadline => simp [TimerSystem.workerStep, hworker] at hstep
  | woken =>
    simp only [TimerSystem.workerStep, hworker] at hstep
    cases hstep
    exact ⟨h.listed, trivial, h.recorded⟩
  | timedOut first =>
    simp only [TimerSystem.workerStep, hworker] at hstep
    cases hstep
    obtain ⟨hactive, hdue⟩ : Captured s.mt s.clock (.timedOut first) := hworker ▸ h.captured
    exact ⟨hlisted, (MultiTimer.countTimeout_data _ _ _).1.trans hactive,
      h.recorded.fired hactive hdue⟩
  | removing first =>
    simp only [TimerSystem.workerStep, hworker] at hstep
    obtain ⟨mt, hmt, rfl⟩ := Option.map_eq_some_iff.mp hstep
    exact ⟨hlisted, trivial, h.recorded.deactivate hmt⟩

theorem Captured.later (h : Captured mt clock w) (hle : clock.nanos ≤ now.nanos) :
    Captured mt now w := by
  cases w with
  | timedOut first => exact ⟨h.1, h.2.trans hle⟩
  | waiting first deadline => exact h
  | removing first => exact h
  | top => trivial
  | idle => trivial
  | woken => trivial

theorem Sound.step (hu : u.InOrder) (h : s.Sound) (hin : OnCalls ActInTime s op)
    (hstep : s.step u op = some t) : t.Sound := by
  cases op with
  | call i =>
    obtain ⟨pc, r, hpc, hcall, rfl⟩ := step_call hstep
    obtain ⟨hlisted, hcaptured, hrecorded⟩ := h.callStep hu (hin pc hpc) hcall
    exact ⟨hlisted, hcaptured, hrecorded⟩
  | worker => exact h.workerStep hu hstep
  | tick now =>
    simp only [TimerSystem.step] at hstep
    split_ifs at hstep with hle
    cases hstep
    exact ⟨h.listed, h.captured.later hle, h.recorded⟩
  | set id timeout callback =>
    cases hstep
    exact ⟨h.listed, h.captured, h.recorded⟩
  | cancel id =>
    cases hstep
    exact ⟨h.listed, h.captured, h.recorded⟩
  | wake =>
    simp only [TimerSystem.step] at hstep
    split_ifs at hstep
    cases hstep
    exact ⟨h.listed, trivial, h.recorded⟩
  | timeout =>
    cases hworker : s.worker with
    | waiting first deadline =>
      simp only [TimerSystem.step, hworker] at hstep
      split_ifs at hstep with hdue
      cases hstep
      obtain ⟨hactive, rfl⟩ : Captured s.mt s.clock (.waiting first deadline) :=
        hworker ▸ h.captured
      exact ⟨h.listed, ⟨hactive, hdue⟩, h.recorded⟩
    | top => simp [TimerSystem.step, hworker] at hstep
    | idle => simp [TimerSystem.step, hworker] at hstep
    | woken => simp [TimerSystem.step, hworker] at hstep
    | timedOut first => simp [TimerSystem.step, hworker] at hstep
    | removing first => simp [TimerSystem.step, hworker] at hstep

/-- **A cancelled timer never fires** in a run in which calls act in time: no firing comes behind a
cancellation of its setting, every firing is that of a setting at its expiry or later, and the timer
that the worker takes off the list is on it. -/
theorem cancelled_timer_never_fires (u : ListOps (Fin n)) (hu : u.InOrder) (s : TimerSystem n C)
    (h : Reaches (step u) (OnCalls ActInTime) {} s) :
    s.log.Pairwise (fun a b => ¬a.Cancels b) ∧ (∀ a ∈ s.log, ∀ b ∈ s.log, a.FiresAs b) ∧
      ∀ first, s.worker = .removing first → ∃ l, s.mt.links.Holds l ∧ first ∈ l := by
  have hsound : s.Sound :=
    h.invariant Sound.start fun _ _ _ hs hin hstep => hs.step hu hin hstep
  refine ⟨hsound.recorded.kept, hsound.recorded.due, fun first hworker => ?_⟩
  obtain ⟨l, hl⟩ := hsound.listed
  have hactive : Captured s.mt s.clock (.removing first) := hworker ▸ hsound.captured
  exact ⟨l, hl.holds, (hl.active first).mpr hactive⟩

/-- The timer is cancelled while the worker waits, and set again. -/
theorem cancelled_timer_never_fires_again : ∃ s : TimerSystem 1 ℕ,
    s.log = [.set 0 1 7 (updateExpireTime .zero 5), .cancelled 0 1,
      .set 0 2 8 (updateExpireTime .zero 3), .fired 0 2 (some 8) (updateExpireTime .zero 4)] ∧
    s.log.Pairwise (fun a b => ¬a.Cancels b) ∧ (∀ a ∈ s.log, ∀ b ∈ s.log, a.FiresAs b) ∧
    ∃ l, s.mt.links.Holds l ∧ 0 ∈ l := by
  have hops : (runOps (step (walking (Fin 1))) (OnCalls ActInTime) ({} : TimerSystem 1 ℕ)
      [.set 0 5 7, .call 0, .call 0, .call 0, .worker, .cancel 0, .call 1, .call 1, .worker,
        .set 0 3 8, .call 2, .call 2, .call 2, .worker, .tick (updateExpireTime .zero 4), .timeout,
        .worker]).map (fun s => (s.log, s.worker)) =
      some ([.set 0 1 7 (updateExpireTime .zero 5), .cancelled 0 1,
        .set 0 2 8 (updateExpireTime .zero 3), .fired 0 2 (some 8) (updateExpireTime .zero 4)],
        .removing 0) := by decide +kernel
  obtain ⟨s, hs, hseen⟩ := Option.map_eq_some_iff.mp hops
  obtain ⟨hlog, hworker⟩ := Prod.mk.inj hseen
  obtain ⟨hkept, hdue, hlist⟩ :=
    cancelled_timer_never_fires _ (walking_inOrder (Fin 1)) s (reaches_of_runOps _ hs)
  exact ⟨s, hlog, hkept, hdue, hlist 0 hworker⟩

/-- The timer is cancelled when the worker's wait has timed out: it fires, and the worker takes it
off an empty list. Set again for later, it fires at once. -/
theorem timer_fires_cancelled : ∃ s t : TimerSystem 1 ℕ,
    runOps (step (walking (Fin 1))) anyOp {}
      [.set 0 0 7, .call 0, .call 0, .call 0, .worker, .cancel 0, .call 1, .timeout, .call 1,
        .worker] = some s ∧
    s.calls = [.done .ldOk, .done .ldOk] ∧ ¬s.log.Pairwise (fun a b => ¬a.Cancels b) ∧
    s.worker = .removing 0 ∧ s.mt.activeTimers = none ∧
    runOps (step (walking (Fin 1))) anyOp {}
      [.set 0 0 7, .call 0, .call 0, .call 0, .worker, .cancel 0, .call 1, .timeout, .call 1,
        .set 0 5 8, .call 2, .call 2, .call 2, .worker] = some t ∧
    ¬∀ a ∈ t.log, ∀ b ∈ t.log, a.FiresAs b := by
  have hops : (runOps (step (walking (Fin 1))) anyOp ({} : TimerSystem 1 ℕ)
      [.set 0 0 7, .call 0, .call 0, .call 0, .worker, .cancel 0, .call 1, .timeout, .call 1,
        .worker]).map (fun s => (s.calls, s.log, s.worker, s.mt.activeTimers)) =
      some ([.done .ldOk, .done .ldOk],
        [.set 0 1 7 .zero, .cancelled 0 1, .fired 0 1 (some 7) .zero], .removing 0, none) := by
    decide +kernel
  have hops' : (runOps (step (walking (Fin 1))) anyOp ({} : TimerSystem 1 ℕ)
      [.set 0 0 7, .call 0, .call 0, .call 0, .worker, .cancel 0, .call 1, .timeout, .call 1,
        .set 0 5 8, .call 2, .call 2, .call 2, .worker]).map (fun s => s.log) =
      some [.set 0 1 7 .zero, .cancelled 0 1, .set 0 2 8 (updateExpireTime .zero 5),
        .fired 0 2 (some 8) .zero] := by decide +kernel
  obtain ⟨s, hs, hseen⟩ := Option.map_eq_some_iff.mp hops
  obtain ⟨hcalls, hlog, hworker, hlist⟩ : s.calls = _ ∧ s.log = _ ∧ s.worker = _ ∧ _ = none := by
    simpa using hseen
  obtain ⟨t, ht, hlog'⟩ := Option.map_eq_some_iff.mp hops'
  refine ⟨s, t, hs, hcalls, ?_, hworker, hlist, ht, fun hdue => ?_⟩
  · rw [hlog]
    simp [TimerEvent.Cancels]
  · have hfires : (TimerEvent.set 0 2 8 (updateExpireTime .zero 5)).FiresAs
        (.fired (0 : Fin 1) 2 (some 8) .zero) := hdue _ (by simp [hlog']) _ (by simp [hlog'])
    exact absurd (hfires rfl rfl).2 (by decide)

/-- A cancel between the timeout and the lock always comes too late. -/
theorem late_cancel_fires {i : ℕ} (hworker : s.worker = .timedOut timer)
    (hpc : s.calls[i]? = some (.cancelLock timer)) (hstep : s.step u (.call i) = some t) :
    ∃ t', t.step u .worker = some t' ∧ ¬t'.log.Pairwise fun a b => ¬a.Cancels b := by
  obtain ⟨pc, r, hpc', hcall, rfl⟩ := step_call hstep
  obtain rfl : .cancelLock timer = pc := Option.some.inj (hpc.symm.trans hpc')
  simp only [TimerSystem.callStep, hworker] at hcall
  split_ifs at hcall
  obtain ⟨mt, -, rfl⟩ := Option.map_eq_some_iff.mp hcall
  refine ⟨_, rfl, fun hkept => ?_⟩
  have hlast := (List.pairwise_append.mp hkept).2.2 (.cancelled timer (s.settings timer))
    (by simp) _ (List.mem_singleton_self _)
  exact hlast ⟨rfl, rfl⟩

end TimerSystem

end LdacsSdk
