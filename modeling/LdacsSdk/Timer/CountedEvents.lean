import LdacsSdk.Core.Bitset

/-!
# Timer events with a count

An event registered with `to_times` above zero is meant to be called that often. Its thread counts
`handle_times` down to zero, and zero is `TIMER_INFINITE`: from there on the event is called with
every tick, and its thread does not come to unregister it. Where an event is stopped instead, the
index of its semaphore is computed from a pointer that was set to NULL.
-/
namespace LdacsSdk

open Library

/-- `TIMER_INFINITE`. -/
def timerInfinite : ℤ := 0

/-- `TIMER_NUM_MAX`. -/
def timerNumMax : ℕ := 128

/-- `sizeof(ld_sem_t)`. -/
def semSize : ℕ := 40

/-- `ld_cycle_define_t`, without its function and its argument; `lSem` is `none` for NULL. -/
structure CycleDefine where
  toTimes : ℤ
  isInstant : Bool
  stopFlag : Bool := false
  lSem : Option ℕ := none
  deriving DecidableEq, Repr

/-- Where a thread in `wait_sem_func` stands, with its `handle_times`. -/
inductive WaitPc where
  | test (handleTimes : ℤ)
  | wait (handleTimes : ℤ)
  | call (handleTimes : ℤ)
  | unregister
  | finished
  deriving DecidableEq, Repr

/-- The thread has not left its loop. -/
def WaitPc.InLoop : WaitPc → Prop
  | .test _ | .wait _ | .call _ => True
  | .unregister | .finished => False

/-- A registered event with the slot it was given, its thread, and how often it was called. -/
structure CountedEvent where
  cycle : CycleDefine
  slot : ℕ
  pc : WaitPc
  calls : ℕ := 0
  deriving DecidableEq, Repr

/-- A global timer: its semaphore slots, the values of the semaphores by their addresses, whether
its mutex is still held by a registration that returned, whether its event loop runs, and the
events. -/
structure GlobalTimer where
  semsSet : Bitset
  sems : ℕ → ℕ := fun _ => 0
  locked : Bool := false
  running : Bool := true
  events : List CountedEvent := []

/-- The part of `slot_activate` for one slot. -/
def activateSlot (set : Bitset) (base : ℕ) (sems : ℕ → ℕ) (i : ℕ) : ℕ → ℕ :=
  if bsJudgeResource set i = some true ∧ sems (set.resIndex base i) = 0 then
    Function.update sems (set.resIndex base i) (sems (set.resIndex base i) + 1)
  else sems

/-- `slot_activate`. -/
def slotActivate (set : Bitset) (base : ℕ) (sems : ℕ → ℕ) : ℕ → ℕ :=
  (List.range timerNumMax).foldl (activateSlot set base) sems

/-- What happens on a timer: a registration, a tick, a step of a thread, a stop flag set. -/
inductive CycleOp where
  | register (toTimes : ℤ) (isInstant : Bool)
  | tick
  | run (k : ℕ)
  | stop (k : ℕ)
  deriving DecidableEq, Repr

namespace GlobalTimer

def start (base : ℕ) : GlobalTimer := { semsSet := initBitset timerNumMax semSize (some base) }

/-- `register_timer_event`. It waits while the mutex is held; without a slot it returns and keeps
the mutex. -/
def registerTimerEvent (s : GlobalTimer) (toTimes : ℤ) (isInstant : Bool) : Option GlobalTimer :=
  if s.locked then none
  else (bsAllocResource s.semsSet).map fun r =>
    if r.2.1 = .ldErrInvalid then { s with locked := true }
    else
      { s with
        semsSet := r.1
        sems := r.2.2.elim s.sems fun a => Function.update s.sems a 0
        events := s.events ++ [{ cycle := ⟨toTimes, isInstant, false, r.2.2⟩
                                 slot := s.semsSet.freeIndex.getD 0
                                 pc := .test toTimes }] }

/-- The head of the loop in `wait_sem_func`, up to the wait or past it. -/
def loopHead (cycle : CycleDefine) (handleTimes : ℤ) : WaitPc :=
  if cycle.stopFlag then .unregister
  else
    let h := if handleTimes = timerInfinite then handleTimes else handleTimes - 1
    if h = timerInfinite ∨ cycle.isInstant = false ∨ h ≠ cycle.toTimes - 1 then .wait h
    else .call h

/-- Store event `k`. -/
def setEvent (s : GlobalTimer) (k : ℕ) (e : CountedEvent) : GlobalTimer :=
  { s with events := s.events.set k e }

/-- One step of the thread of event `k`, which is `e`. What C makes of the difference between NULL
and the array of semaphores is `nullIndex`. -/
def runEvent (nullIndex : ℕ) (s : GlobalTimer) (k : ℕ) (e : CountedEvent) : Option GlobalTimer :=
  match e.pc with
  | .test h => some (s.setEvent k { e with pc := loopHead e.cycle h })
  | .wait h =>
    match e.cycle.lSem with
    | none => some (s.setEvent k { e with pc := .call h })
    | some a =>
      if s.sems a = 0 then none
      else some { s.setEvent k { e with pc := .call h } with
        sems := Function.update s.sems a (s.sems a - 1) }
  | .call h => some (s.setEvent k { e with pc := .test h, calls := e.calls + 1 })
  | .unregister =>
    -- `unregister_timer_event`: the semaphore is cleared, its slot looked up, the timer stopped
    some { s.setEvent k { e with pc := .finished, cycle := { e.cycle with lSem := none } } with
      sems := e.cycle.lSem.elim s.sems fun a => Function.update s.sems a 0
      semsSet := bsFreeResource s.semsSet nullIndex
      running := false }
  | .finished => none

/-- One step of the timer, of a thread, or of the user. -/
def step (nullIndex : ℕ) (s : GlobalTimer) : CycleOp → Option GlobalTimer
  | .register toTimes isInstant => s.registerTimerEvent toTimes isInstant
  | .tick =>
    if s.locked ∨ ¬ s.running then none
    else some { s with sems := slotActivate s.semsSet (s.semsSet.resources.getD 0) s.sems }
  | .run k => s.events[k]?.bind (s.runEvent nullIndex k)
  | .stop k => s.events[k]?.map fun e =>
    s.setEvent k { e with cycle := { e.cycle with stopFlag := true } }

/-- A step that is not enabled is left out. -/
def stepOrStay (nullIndex : ℕ) (s : GlobalTimer) (op : CycleOp) : GlobalTimer :=
  (s.step nullIndex op).getD s

/-- A tick, and the thread of event `k` runs until it waits again. -/
def serve (nullIndex k : ℕ) (s : GlobalTimer) : GlobalTimer :=
  [.tick, .run k, .run k, .run k].foldl (stepOrStay nullIndex) s

/-- The event was registered with `n` and `inst` and is not stopped. -/
def CountsTo (e : CountedEvent) (n : ℤ) (inst : Bool) : Prop :=
  e.cycle.toTimes = n ∧ e.cycle.isInstant = inst ∧ e.cycle.stopFlag = false

/-- An event is called no more often than it was registered for. -/
def CalledAtMost (nullIndex base : ℕ) (n : ℤ) (inst : Bool) : Prop :=
  ∀ s, Reaches (step nullIndex) anyOp (start base) s →
    ∀ e ∈ s.events, CountsTo e n inst → (e.calls : ℤ) ≤ n

/-- With enough ticks an event is called as often as it was registered for, its thread unregisters
it and the bit of its slot is clear. -/
def FinishesExactly (nullIndex base : ℕ) (n : ℤ) (inst : Bool) : Prop :=
  ∀ s, Reaches (step nullIndex) anyOp (start base) s →
    ∀ k e, s.events[k]? = some e → CountsTo e n inst →
      ∃ ticks, ∀ m ≥ ticks, ∃ e', ((serve nullIndex k)^[m] s).events[k]? = some e' ∧
        e'.pc = .finished ∧ (e'.calls : ℤ) = n ∧
        hasBit ((serve nullIndex k)^[m] s).semsSet.bitset e'.slot = false

/-- When all events have finished, no slot is allocated. -/
def AllReleased (nullIndex base : ℕ) (n : ℤ) (inst : Bool) : Prop :=
  ∀ s, Reaches (step nullIndex) anyOp (start base) s →
    (∀ e ∈ s.events, e.cycle.toTimes = n ∧ e.cycle.isInstant = inst ∧ e.pc = .finished) →
      ∀ i < timerNumMax, hasBit s.semsSet.bitset i = false

/-- An event that is not stopped has not left its loop. -/
def Looping (s : GlobalTimer) : Prop :=
  ∀ e ∈ s.events, e.cycle.stopFlag = false → e.pc.InLoop

variable {nullIndex base k : ℕ} {n : ℤ} {inst : Bool} {s t : GlobalTimer} {e : CountedEvent}

/-- Without a stop the loop goes on, whatever the count. -/
theorem loopHead_goes_on {cycle : CycleDefine} (h : cycle.stopFlag = false) (handleTimes : ℤ) :
    ∃ h', loopHead cycle handleTimes = .wait h' ∨ loopHead cycle handleTimes = .call h' := by
  unfold loopHead
  rw [if_neg (by simp [h])]
  dsimp only
  split_ifs
  all_goals simp

/-- A step of a thread touches its own event only, and leads out of the loop only where the event
was stopped. -/
theorem runEvent_spec (hs : s.runEvent nullIndex k e = some t) :
    ∃ e', t.events = s.events.set k e' ∧ e'.cycle.stopFlag = e.cycle.stopFlag ∧
      (e.cycle.stopFlag = false → e.pc.InLoop → e'.pc.InLoop) := by
  unfold runEvent at hs
  cases hpc : e.pc with
  | test handle =>
    simp only [hpc, Option.some.injEq] at hs
    subst hs
    refine ⟨_, rfl, rfl, fun hstop _ => ?_⟩
    obtain ⟨h', hpc' | hpc'⟩ := loopHead_goes_on hstop handle
    · simp [hpc', WaitPc.InLoop]
    · simp [hpc', WaitPc.InLoop]
  | wait handle =>
    cases hsem : e.cycle.lSem with
    | none =>
      simp only [hpc, hsem, Option.some.injEq] at hs
      subst hs
      exact ⟨_, rfl, rfl, fun _ _ => trivial⟩
    | some a =>
      simp only [hpc, hsem] at hs
      split_ifs at hs
      obtain rfl := Option.some.inj hs
      exact ⟨_, rfl, rfl, fun _ _ => trivial⟩
  | call handle =>
    simp only [hpc, Option.some.injEq] at hs
    subst hs
    exact ⟨_, rfl, rfl, fun _ _ => trivial⟩
  | unregister =>
    simp only [hpc, Option.some.injEq] at hs
    subst hs
    exact ⟨_, rfl, rfl, fun _ hloop => hloop.elim⟩
  | finished => simp [hpc] at hs

theorem Looping.register (h : s.Looping) (hs : s.registerTimerEvent n inst = some t) :
    t.Looping := by
  unfold registerTimerEvent at hs
  split_ifs at hs
  obtain ⟨r, -, rfl⟩ := Option.map_eq_some_iff.mp hs
  split_ifs
  · exact h
  · intro e he hstop
    rcases List.mem_append.mp he with hold | hnew
    · exact h e hold hstop
    · rw [List.mem_singleton.mp hnew]
      trivial

theorem Looping.set (h : s.Looping) (he : e.cycle.stopFlag = false → e.pc.InLoop)
    (ht : t.events = s.events.set k e) : t.Looping := by
  intro e' hmem
  rw [ht] at hmem
  rcases List.mem_or_eq_of_mem_set hmem with hold | rfl
  · exact h e' hold
  · exact he

theorem Looping.step (h : s.Looping) {op : CycleOp} (hs : s.step nullIndex op = some t) :
    t.Looping := by
  cases op with
  | register n inst => exact h.register hs
  | tick =>
    simp only [GlobalTimer.step] at hs
    split_ifs at hs
    obtain rfl := Option.some.inj hs
    exact h
  | run k =>
    obtain ⟨e, hk, hrun⟩ := Option.bind_eq_some_iff.mp hs
    obtain ⟨e', ht, hflag, hloop⟩ := runEvent_spec hrun
    refine h.set (fun hstop => ?_) ht
    rw [hflag] at hstop
    exact hloop hstop (h e (List.mem_of_getElem? hk) hstop)
  | stop k =>
    obtain ⟨e, hk, rfl⟩ := Option.map_eq_some_iff.mp hs
    exact h.set (fun hstop => absurd hstop (by simp)) rfl

/-- Whatever happens, an event that is not stopped stays in its loop. -/
theorem looping_of_reaches (h : Reaches (step nullIndex) anyOp (start base) s) : s.Looping := by
  induction h with
  | refl => exact fun e he => absurd he (by simp [start])
  | tail _ hst ih =>
    obtain ⟨op, -, hs⟩ := hst
    exact ih.step hs

theorem activateSlot_pos {set : Bitset} {sems : ℕ → ℕ} {a : ℕ} (h : 0 < sems a) (i : ℕ) :
    0 < activateSlot set base sems i a := by
  unfold activateSlot
  split_ifs
  · by_cases ha : a = set.resIndex base i
    · simp [ha]
    · simpa [Function.update_of_ne ha] using h
  · exact h

/-- After a pass over the slots every semaphore of an allocated one has a value above zero. -/
theorem foldl_activateSlot_pos {set : Bitset} {i : ℕ} (hjudge : bsJudgeResource set i = some true)
    {slots : List ℕ} (hi : i ∈ slots ∨ 0 < s.sems (set.resIndex base i)) :
    0 < slots.foldl (activateSlot set base) s.sems (set.resIndex base i) := by
  induction slots generalizing s with
  | nil => simpa using hi
  | cons j slots ih =>
    refine ih (s := { s with sems := activateSlot set base s.sems j }) ?_
    rcases hi with hmem | hpos
    · rcases List.mem_cons.mp hmem with rfl | hmem
      · refine .inr ?_
        by_cases hzero : s.sems (set.resIndex base i) = 0
        · simp [activateSlot, hjudge, hzero]
        · exact activateSlot_pos (Nat.pos_of_ne_zero hzero) i
      · exact .inl hmem
    · exact .inr (activateSlot_pos hpos j)

/-- A running timer with one event, in slot 0. -/
def oneEvent (set : Bitset) (sems : ℕ → ℕ) (cycle : CycleDefine) (pc : WaitPc) (calls : ℕ) :
    GlobalTimer :=
  { semsSet := set, sems := sems, events := [⟨cycle, 0, pc, calls⟩] }

/-- One event was registered and never stopped; its thread is at the head of its loop. -/
def Going (s : GlobalTimer) (base : ℕ) (n : ℤ) (inst : Bool) (calls : ℕ) : Prop :=
  ∃ set sems handle, set.resources = some base ∧ bsJudgeResource set 0 = some true ∧
    s = oneEvent set sems ⟨n, inst, false, some (set.resIndex base 0)⟩ (.test handle) calls

/-- The slots in `A` are allocated, and the mutex is free. -/
def SlotsIn (s : GlobalTimer) (base : ℕ) (A : Finset ℕ) : Prop :=
  s.semsSet.resNum = timerNumMax ∧ s.semsSet.resources = some base ∧ s.locked = false ∧
    Represents s.semsSet.bitset timerNumMax A

theorem slotsIn_start (base : ℕ) : (start base).SlotsIn base ∅ :=
  ⟨rfl, rfl, rfl, (BitsetState.tracked_start timerNumMax semSize base).represents⟩

/-- A registration takes the lowest free slot. -/
theorem SlotsIn.register {A : Finset ℕ} (h : s.SlotsIn base A) {i : ℕ}
    (hfree : lowestFree timerNumMax A = some i) (nullIndex : ℕ) (n : ℤ) (inst : Bool) :
    ∃ t, s.step nullIndex (.register n inst) = some t ∧ t.SlotsIn base (insert i A) ∧
      t.running = s.running ∧ t.semsSet.resSz = s.semsSet.resSz ∧ t.events = s.events ++
        [⟨⟨n, inst, false, some (s.semsSet.resIndex base i)⟩, i, .test n, 0⟩] := by
  obtain ⟨hnum, hres, hlock, hbits⟩ := h
  have hi := (BitsetState.lowestFree_isLeast hfree).1.1
  have hint : i < 2 ^ 31 := hi.trans (by decide)
  have hindex : s.semsSet.freeIndex = some i :=
    (BitsetState.freeIndex_eq (hnum ▸ hbits)).trans (hnum ▸ hfree)
  have halloc : bsAllocResource s.semsSet =
      some ({ s.semsSet with bitset := setBit s.semsSet.bitset i }, .ldOk,
        some (s.semsSet.resIndex base i)) := by
    simp only [bsAllocResource, hres, hindex, if_pos hint]
  simp only [step, registerTimerEvent, hlock, halloc, hindex, Bool.false_eq_true, if_false,
    Option.map_some, reduceCtorEq, Option.some.injEq, exists_eq_left']
  exact ⟨⟨hnum, hres, rfl, hbits.insert (by decide) hi⟩, trivial, trivial, rfl⟩

theorem going_registered (nullIndex base : ℕ) (n : ℤ) (inst : Bool) :
    ∃ s, Reaches (step nullIndex) anyOp (start base) s ∧ s.Going base n inst 0 := by
  have hlow : lowestFree timerNumMax ∅ = some 0 := by decide
  obtain ⟨t, hs, ⟨-, hres, hlock, hbits⟩, hrunning, hsz, hevents⟩ :=
    (slotsIn_start base).register hlow nullIndex n inst
  refine ⟨t, Reaches.start.next trivial hs, t.semsSet, t.sems, n, hres, ?_, ?_⟩
  · have hjudge : bsJudgeResource t.semsSet 0 = some _ := if_pos (hbits.stored 0 (by decide))
    exact hjudge.trans (congrArg some (hbits.bits 0 (by decide)))
  · obtain ⟨set, sems, locked, running, events⟩ := t
    simp only at hlock hrunning hevents
    subst hlock hrunning hevents
    simp [oneEvent, start, Bitset.resIndex]

/-- With one more tick the function is called once more, however often it was called before. -/
theorem Going.again {calls : ℕ} (h : s.Going base n inst calls) (nullIndex : ℕ) :
    ∃ t, Reaches (step nullIndex) anyOp s t ∧ t.Going base n inst (calls + 1) := by
  obtain ⟨set, sems, handle, hres, hjudge, rfl⟩ := h
  let cycle : CycleDefine := ⟨n, inst, false, some (set.resIndex base 0)⟩
  let posted := slotActivate set base sems
  have hpos : 0 < posted (set.resIndex base 0) :=
    foldl_activateSlot_pos (s := { semsSet := set, sems := sems }) hjudge (.inl (by decide))
  have htick : step nullIndex (oneEvent set sems cycle (.test handle) calls) .tick =
      some (oneEvent set posted cycle (.test handle) calls) := by
    simp [step, oneEvent, hres, posted]
  have hhead : step nullIndex (oneEvent set posted cycle (.test handle) calls) (.run 0) =
      some (oneEvent set posted cycle (loopHead cycle handle) calls) := rfl
  have hcall : ∀ sems' h', step nullIndex (oneEvent set sems' cycle (.call h') calls) (.run 0) =
      some (oneEvent set sems' cycle (.test h') (calls + 1)) := fun _ _ => rfl
  have hrun : Reaches (step nullIndex) anyOp (oneEvent set sems cycle (.test handle) calls)
      (oneEvent set posted cycle (loopHead cycle handle) calls) :=
    (Reaches.start.next trivial htick).next trivial hhead
  have hcycle : cycle.stopFlag = false := rfl
  obtain ⟨h', hpc | hpc⟩ := loopHead_goes_on hcycle handle
  · have hwait : step nullIndex (oneEvent set posted cycle (.wait h') calls) (.run 0) =
        some (oneEvent set (Function.update posted (set.resIndex base 0)
          (posted (set.resIndex base 0) - 1)) cycle (.call h') calls) := by
      simp [step, runEvent, oneEvent, cycle, setEvent, hpos.ne']
    rw [hpc] at hrun
    exact ⟨_, (hrun.next trivial hwait).next trivial (hcall _ _), set, _, h', hres, hjudge, rfl⟩
  · rw [hpc] at hrun
    exact ⟨_, hrun.next trivial (hcall _ _), set, posted, h', hres, hjudge, rfl⟩

/-- The function is called any number of times. -/
theorem called_again_and_again (nullIndex base : ℕ) (n : ℤ) (inst : Bool) (calls : ℕ) :
    ∃ s, Reaches (step nullIndex) anyOp (start base) s ∧ s.Going base n inst calls := by
  induction calls with
  | zero => exact going_registered nullIndex base n inst
  | succ calls ih =>
    obtain ⟨s, hs, hgoing⟩ := ih
    obtain ⟨t, ht, hagain⟩ := hgoing.again nullIndex
    exact ⟨t, hs.trans ht, hagain⟩

theorem not_calledAtMost (nullIndex base : ℕ) (n : ℤ) (inst : Bool) :
    ¬ CalledAtMost nullIndex base n inst := by
  intro hall
  obtain ⟨_, hs, set, sems, handle, -, -, rfl⟩ :=
    called_again_and_again nullIndex base n inst (n.toNat + 1)
  have hcalls := hall _ hs _ List.mem_cons_self ⟨rfl, rfl, rfl⟩
  simp only at hcalls
  omega

/-- A tick or a step of a thread stops no event. -/
def Unstopped (s : GlobalTimer) : Prop := ∀ e ∈ s.events, e.cycle.stopFlag = false

theorem Unstopped.stepOrStay (h : s.Unstopped) (nullIndex k : ℕ) {op : CycleOp}
    (hop : op = .tick ∨ op = .run k) : (s.stepOrStay nullIndex op).Unstopped := by
  cases hs : s.step nullIndex op with
  | none => simpa [GlobalTimer.stepOrStay, hs] using h
  | some t =>
    simp only [GlobalTimer.stepOrStay, hs, Option.getD_some]
    rcases hop with rfl | rfl
    · simp only [step] at hs
      split_ifs at hs
      obtain rfl := Option.some.inj hs
      exact h
    · obtain ⟨e, hk, hrun⟩ := Option.bind_eq_some_iff.mp hs
      obtain ⟨e', ht, hflag, -⟩ := runEvent_spec hrun
      intro e'' hmem
      rw [ht] at hmem
      rcases List.mem_or_eq_of_mem_set hmem with hold | rfl
      · exact h e'' hold
      · rw [hflag]
        exact h e (List.mem_of_getElem? hk)

theorem reaches_stepOrStay {s₀ : GlobalTimer} (h : Reaches (step nullIndex) anyOp s₀ s)
    (op : CycleOp) : Reaches (step nullIndex) anyOp s₀ (s.stepOrStay nullIndex op) := by
  cases hs : s.step nullIndex op with
  | none => simpa [stepOrStay, hs] using h
  | some t => simpa [stepOrStay, hs] using h.next trivial hs

theorem Unstopped.serve {s₀ : GlobalTimer} (h : s.Unstopped)
    (hr : Reaches (step nullIndex) anyOp s₀ s) (m : ℕ) :
    ((GlobalTimer.serve nullIndex k)^[m] s).Unstopped ∧
      Reaches (step nullIndex) anyOp s₀ ((GlobalTimer.serve nullIndex k)^[m] s) := by
  induction m generalizing s with
  | zero => exact ⟨h, hr⟩
  | succ m ih =>
    rw [Function.iterate_succ_apply]
    have hticked := h.stepOrStay nullIndex k (.inl rfl)
    have honce := hticked.stepOrStay nullIndex k (.inr rfl)
    have htwice := honce.stepOrStay nullIndex k (.inr rfl)
    have hserved := htwice.stepOrStay nullIndex k (.inr rfl)
    exact ih hserved (reaches_stepOrStay (reaches_stepOrStay (reaches_stepOrStay
      (reaches_stepOrStay hr _) _) _) _)

theorem not_finishesExactly (nullIndex base : ℕ) (n : ℤ) (inst : Bool) :
    ¬ FinishesExactly nullIndex base n inst := by
  intro hall
  obtain ⟨_, hs, set, sems, handle, -, -, rfl⟩ := going_registered nullIndex base n inst
  obtain ⟨ticks, hticks⟩ := hall _ hs 0 _ rfl ⟨rfl, rfl, rfl⟩
  obtain ⟨e, he, hfinished, -⟩ := hticks ticks le_rfl
  have hstart : (oneEvent set sems ⟨n, inst, false, some (set.resIndex base 0)⟩ (.test handle)
      0).Unstopped := by
    intro e he
    rw [List.mem_singleton.mp he]
  obtain ⟨hflags, hreach⟩ := hstart.serve (k := 0) hs ticks
  have hmem := List.mem_of_getElem? he
  have hloop := looping_of_reaches hreach e hmem (hflags e hmem)
  rw [hfinished] at hloop
  exact hloop

/-- A stopped event at the head of its loop finishes and releases the slot `nullIndex`, whichever
slot it was given. -/
theorem stopped_finishes {handle : ℤ} (hk : s.events[k]? = some e) (hpc : e.pc = .test handle)
    (h : Reaches (step nullIndex) anyOp (start base) s) :
    ∃ t, Reaches (step nullIndex) anyOp (start base) t ∧
      t.semsSet = bsFreeResource s.semsSet nullIndex ∧
      t.events = s.events.set k
        { e with pc := .finished, cycle := { e.cycle with lSem := none, stopFlag := true } } := by
  have hlt := (List.getElem?_eq_some_iff.mp hk).1
  let stopped : CountedEvent := { e with cycle := { e.cycle with stopFlag := true } }
  have hstop : s.step nullIndex (.stop k) = some (s.setEvent k stopped) := by
    simp [step, hk, stopped]
  have htest : (s.setEvent k stopped).step nullIndex (.run k) =
      some (s.setEvent k { stopped with pc := .unregister }) := by
    simp [step, setEvent, hlt, runEvent, stopped, hpc, loopHead]
  have hunregister : ∃ t,
      (s.setEvent k { stopped with pc := .unregister }).step nullIndex (.run k) = some t ∧
        t.semsSet = bsFreeResource s.semsSet nullIndex ∧ t.events = s.events.set k
        { e with pc := .finished, cycle := { e.cycle with lSem := none, stopFlag := true } } := by
    simp [step, setEvent, hlt, runEvent, stopped]
  obtain ⟨t, ht, hset, hevents⟩ := hunregister
  exact ⟨t, ((h.next trivial hstop).next trivial htest).next trivial ht, hset, hevents⟩

/-- Two events are registered and stopped. Both release one slot, and the other one stays. -/
theorem not_allReleased (nullIndex base : ℕ) (n : ℤ) (inst : Bool) :
    ¬ AllReleased nullIndex base n inst := by
  intro hall
  obtain ⟨s, hs, hslots, -, -, hevents⟩ :=
    (slotsIn_start base).register (i := 0) (by decide) nullIndex n inst
  obtain ⟨s', hs', ⟨-, -, -, hbits⟩, -, -, hevents'⟩ :=
    hslots.register (i := 1) (by decide) nullIndex n inst
  simp only [start, hevents, List.nil_append, List.singleton_append] at hevents'
  have htwo : Reaches (step nullIndex) anyOp (start base) s' :=
    (Reaches.start.next trivial hs).next trivial hs'
  obtain ⟨t, ht, hset, htevents⟩ :=
    stopped_finishes (congrArg (fun events => events[0]?) hevents') rfl htwo
  rw [hevents'] at htevents
  obtain ⟨t', ht', hset', htevents'⟩ :=
    stopped_finishes (congrArg (fun events => events[1]?) htevents) rfl ht
  have hclear := hall t' ht' fun e he => by
    simp only [htevents', htevents, List.set_cons_zero, List.set_cons_succ] at he
    rcases List.mem_pair.mp he with rfl | rfl <;> exact ⟨rfl, rfl, rfl⟩
  rw [hset', hset] at hclear
  -- one of the two slots is not the one released
  obtain ⟨i, hi, hne, hmem⟩ : ∃ i < timerNumMax, i ≠ u8 nullIndex ∧ i ∈ ({1, 0} : Finset ℕ) := by
    by_cases hzero : u8 nullIndex = 0
    · exact ⟨1, by decide, by omega, by decide⟩
    · exact ⟨0, by decide, by omega, by decide⟩
  have hbit := hbits.bits i hi
  rw [← hasBit_bsFreeResource hne, ← hasBit_bsFreeResource hne, hclear i hi] at hbit
  simp at hmem
  simp [hmem] at hbit

/-- A counted event does not do what it should, whatever its count and its instant flag: it is
called more often, its thread does not finish while it is not stopped, and events that were
stopped leave slots allocated. -/
theorem counted_event_wrong (nullIndex base : ℕ) (n : ℤ) (inst : Bool) :
    ¬ CalledAtMost nullIndex base n inst ∧ ¬ FinishesExactly nullIndex base n inst ∧
      ¬ AllReleased nullIndex base n inst :=
  ⟨not_calledAtMost nullIndex base n inst, not_finishesExactly nullIndex base n inst,
    not_allReleased nullIndex base n inst⟩

/-- An event registered for one call is called with the first tick and with the second. -/
theorem called_twice_for_one : ¬ ∀ (nullIndex base : ℕ) (n : ℤ), 0 < n → ∀ inst,
    CalledAtMost nullIndex base n inst := by
  intro hall
  have hfinal : (runOps (step 0) anyOp (start 4096) [.register 1 false, .tick, .run 0, .run 0,
      .run 0, .tick, .run 0, .run 0, .run 0]).map (fun s => s.events) =
      some [⟨⟨1, false, false, some 4096⟩, 0, .test 0, 2⟩] := by decide +kernel
  obtain ⟨s, hs, hevents⟩ := Option.map_eq_some_iff.mp hfinal
  have hcalls := hall 0 4096 1 (by decide) false s (reaches_of_runOps _ hs) _
    (hevents ▸ List.mem_cons_self) ⟨rfl, rfl, rfl⟩
  simp at hcalls

end GlobalTimer

end LdacsSdk
