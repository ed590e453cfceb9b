import LdacsSdk.Library.Runs
import LdacsSdk.Timer.Multitimer

/-!
# Callers and the worker

Any number of calls of `mt_set_timer` and `mt_cancel_timer`, and the worker of the multitimer,
interleaved step by step. A call tests the active flag before it takes the lock. The worker takes
the first timer of the list, and its wait for the expiry gives the lock back; the wait may end by a
signal, by itself or by a timeout, and the worker takes the lock again only afterwards.
-/
namespace LdacsSdk

open Library

variable {n : ℕ} {C : Type*}

/-- Where a call stands: in front of its test, in front of its lock, in front of the signal that
`mt_set_timer` sends without the lock, or returned. -/
inductive CallPc (n : ℕ) (C : Type*) where
  | setTest (id : UInt16) (timeout : UInt64) (callback : C)
  | setLock (timer : Fin n) (timeout : UInt64) (callback : C)
  | setSignal
  | cancelTest (id : UInt16)
  | cancelLock (timer : Fin n)
  | done (ret : LErr)
  deriving DecidableEq

/-- Where the worker stands: in front of the lock, in `pthread_cond_wait`, in
`pthread_cond_timedwait` for the first timer, behind a wait without and with a timeout that has
still to get the lock back, or behind a callback with the lock in its hands. -/
inductive WorkerPc (n : ℕ) where
  | top
  | idle
  | waiting (first : Fin n) (deadline : Timespec)
  | woken
  | timedOut (first : Fin n)
  | removing (first : Fin n)
  deriving DecidableEq

namespace WorkerPc

/-- The worker holds the lock. -/
def locks : WorkerPc n → Bool
  | .removing _ => true
  | _ => false

/-- The worker is in one of its waits. -/
def waits : WorkerPc n → Bool
  | .idle => true
  | .waiting _ _ => true
  | _ => false

/-- `pthread_cond_signal`: a wait ends, and nothing else happens. -/
def signal (w : WorkerPc n) : WorkerPc n := if w.waits then .woken else w

end WorkerPc

/-- What a run leaves behind. The settings of a timer are numbered. -/
inductive TimerEvent (n : ℕ) (C : Type*) where
  | set (timer : Fin n) (setting : ℕ) (callback : C) (expire : Timespec)
  | cancelled (timer : Fin n) (setting : ℕ)
  | fired (timer : Fin n) (setting : ℕ) (callback : Option C) (now : Timespec)
  deriving DecidableEq

/-- A multitimer with its callers, its worker and the clock. How often each timer was set and what
happened so far are kept for the statements. -/
structure TimerSystem (n : ℕ) (C : Type*) where
  mt : MultiTimer n C := {}
  calls : List (CallPc n C) := []
  worker : WorkerPc n := .top
  clock : Timespec := .zero
  settings : Fin n → ℕ := fun _ => 0
  log : List (TimerEvent n C) := []

/-- What can happen next: the clock goes on, a call comes in, a call takes its next step, a wait of
the worker ends without or with a timeout, or the worker takes its next step. -/
inductive TimerOp (C : Type*) where
  | tick (now : Timespec)
  | set (id : UInt16) (timeout : UInt64) (callback : C)
  | cancel (id : UInt16)
  | call (i : ℕ)
  | wake
  | timeout
  | worker

namespace TimerSystem

/-- The next step of a call. -/
def callStep (u : ListOps (Fin n)) (s : TimerSystem n C) :
    CallPc n C → Option (TimerSystem n C × CallPc n C)
  | .setTest id timeout callback =>
    match s.mt.setTest id with
    | .error err => some (s, .done err)
    | .ok timer => some (s, .setLock timer timeout callback)
  | .setLock timer timeout callback =>
    if s.worker.locks then none
    else
      (s.mt.setLocked u s.clock timer timeout callback).map fun mt =>
        let setting := s.settings timer + 1
        ({ s with
            mt
            settings := Function.update s.settings timer setting
            log := s.log ++
              [.set timer setting callback (updateExpireTime s.clock timeout)] }, .setSignal)
  | .setSignal => some ({ s with worker := s.worker.signal }, .done .ldOk)
  | .cancelTest id =>
    match s.mt.cancelTest id with
    | .error err => some (s, .done err)
    | .ok timer => some (s, .cancelLock timer)
  | .cancelLock timer =>
    if s.worker.locks then none
    else
      (s.mt.deactivate u timer).map fun mt =>
        ({ s with
            mt
            worker := s.worker.signal
            log := s.log ++ [.cancelled timer (s.settings timer)] }, .done .ldOk)
  | .done _ => none

/-- The next step of `multiple_timer_machine` outside of its waits. -/
def workerStep (u : ListOps (Fin n)) (s : TimerSystem n C) : Option (TimerSystem n C) :=
  match s.worker with
  | .top =>
    match s.mt.activeTimers with
    | none => some { s with worker := .idle }
    | some first => some { s with worker := .waiting first (s.mt.allTimers first).expireTime }
  | .idle => none
  | .waiting _ _ => none
  | .woken => some { s with worker := .top }
  | .timedOut first =>
    some { s with
      mt := s.mt.countTimeout first
      worker := .removing first
      log := s.log ++
        [.fired first (s.settings first) (s.mt.allTimers first).callback s.clock] }
  | .removing first => (s.mt.deactivate u first).map fun mt => { s with mt, worker := .top }

/-- One step of the callers, the worker or the clock. -/
def step (u : ListOps (Fin n)) (s : TimerSystem n C) : TimerOp C → Option (TimerSystem n C)
  | .tick now => if s.clock.nanos ≤ now.nanos then some { s with clock := now } else none
  | .set id timeout callback =>
    some { s with calls := s.calls ++ [.setTest id timeout callback] }
  | .cancel id => some { s with calls := s.calls ++ [.cancelTest id] }
  | .call i =>
    (s.calls[i]?.bind (s.callStep u)).map fun r => { r.1 with calls := s.calls.set i r.2 }
  | .wake => if s.worker.waits then some { s with worker := .woken } else none
  | .timeout =>
    match s.worker with
    | .waiting first deadline =>
      if deadline.nanos ≤ s.clock.nanos then some { s with worker := .timedOut first } else none
    | _ => none
  | .worker => s.workerStep u

/-- Every step of a call meets a condition on where the call stands. -/
def OnCalls (p : TimerSystem n C → CallPc n C → Prop) (s : TimerSystem n C) : TimerOp C → Prop
  | .call i => ∀ pc ∈ s.calls[i]?, p s pc
  | _ => True

/-- Where `mt_set_timer` has the lock, its test still stands: the timer is not active. -/
def SetInTime (s : TimerSystem n C) : CallPc n C → Prop
  | .setLock timer _ _ => (s.mt.allTimers timer).active = false
  | _ => True

/-- Where `mt_cancel_timer` has the lock, the worker's wait for the timer has not timed out. -/
def CancelInTime (s : TimerSystem n C) : CallPc n C → Prop
  | .cancelLock timer => s.worker ≠ .timedOut timer
  | _ => True

/-- Both. -/
def ActInTime (s : TimerSystem n C) (pc : CallPc n C) : Prop := s.SetInTime pc ∧ s.CancelInTime pc

instance (s : TimerSystem n C) : (pc : CallPc n C) → Decidable (s.SetInTime pc)
  | .setTest _ _ _ => inferInstanceAs (Decidable True)
  | .setLock _ _ _ => inferInstanceAs (Decidable (_ = _))
  | .setSignal => inferInstanceAs (Decidable True)
  | .cancelTest _ => inferInstanceAs (Decidable True)
  | .cancelLock _ => inferInstanceAs (Decidable True)
  | .done _ => inferInstanceAs (Decidable True)

instance (s : TimerSystem n C) : (pc : CallPc n C) → Decidable (s.CancelInTime pc)
  | .setTest _ _ _ => inferInstanceAs (Decidable True)
  | .setLock _ _ _ => inferInstanceAs (Decidable True)
  | .setSignal => inferInstanceAs (Decidable True)
  | .cancelTest _ => inferInstanceAs (Decidable True)
  | .cancelLock _ => inferInstanceAs (Decidable (_ ≠ _))
  | .done _ => inferInstanceAs (Decidable True)

instance (s : TimerSystem n C) (pc : CallPc n C) : Decidable (s.ActInTime pc) :=
  inferInstanceAs (Decidable (_ ∧ _))

instance (p : TimerSystem n C → CallPc n C → Prop) [∀ s pc, Decidable (p s pc)]
    (s : TimerSystem n C) : (op : TimerOp C) → Decidable (OnCalls p s op)
  | .tick _ => inferInstanceAs (Decidable True)
  | .set _ _ _ => inferInstanceAs (Decidable True)
  | .cancel _ => inferInstanceAs (Decidable True)
  | .call i => inferInstanceAs (Decidable (∀ pc ∈ s.calls[i]?, p s pc))
  | .wake => inferInstanceAs (Decidable True)
  | .timeout => inferInstanceAs (Decidable True)
  | .worker => inferInstanceAs (Decidable True)

end TimerSystem

end LdacsSdk
