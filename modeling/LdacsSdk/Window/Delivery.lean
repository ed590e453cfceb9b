import LdacsSdk.Window.Receiver
import LdacsSdk.Library.Runs
import LdacsSdk.Library.Traces

/-!
# At-most-once delivery

A run of the receiver window leaves a trace: which slot was handed up and which slot the window
slid past, in order. A slot is handed up once between two slides past it, as long as no accepted
fragment addresses a slot that was handed up and not slid past.
-/
namespace LdacsSdk

open Library

/-- The calls on a receiver window. -/
inductive RecvOp where
  | putCtx (allocated : Bool) (ctx : WindowCtx)
  | inGet

/-- What happens to a slot: its SDU is handed up, and the window slides past it. -/
inductive SlotEvent where
  | handed (p : ℕ)
  | slid (p : ℕ)
  deriving DecidableEq, Repr

/-- A receiver window with the trace of its run. -/
structure RecvState where
  win : Window
  trace : List SlotEvent := []

/-- What one `window_in_get` adds to the trace. -/
def inGetEvents (w : Window) : List SlotEvent :=
  w.readySlot.toList.map .handed ++ (windowInSlide w.seqSz w.scanned).2.map .slid

/-- One call. A write outside the slot array has no successor. -/
def recvStep (s : RecvState) : RecvOp → Option RecvState
  | .putCtx allocated ctx => (windowPutCtx allocated s.win ctx).map fun r => { s with win := r.1 }
  | .inGet => some { win := (windowInGet s.win).2, trace := s.trace ++ inGetEvents s.win }

namespace RecvState

def start (seqSize : ℕ) : RecvState := { win := initWindow seqSize }

/-- No accepted fragment addresses a slot that was handed up and not slid past. -/
def FreshCall (s : RecvState) : RecvOp → Prop
  | .putCtx _ ctx => s.win.Accepts ctx.pid → (s.win.items ctx.pid).isProcessed = false
  | .inGet => True

instance (s : RecvState) : (op : RecvOp) → Decidable (s.FreshCall op)
  | .putCtx _ _ => inferInstanceAs (Decidable (_ → _))
  | .inGet => inferInstanceAs (Decidable True)

/-- Between two deliveries from one slot the window slid past it. -/
def AtMostOnce (s : RecvState) : Prop := ∀ p, Separated (.handed p) (.slid p) s.trace

end RecvState

/-- The trace so far keeps the deliveries apart, and a slot handed up and not slid past says so. -/
structure Delivered (w : Window) (trace : List SlotEvent) : Prop where
  once : ∀ p, Separated (.handed p) (.slid p) trace
  processed : ∀ p, OpenAfter (.handed p) (.slid p) trace → (w.items p).isProcessed = true

variable {w : Window} {trace : List SlotEvent}

theorem delivered_nil : Delivered w [] where
  once _ := separated_nil
  processed _ h := absurd h not_openAfter_nil

/-- Handing up a slot that was not handed up before. -/
theorem Delivered.handUp (h : Delivered w trace) {p : ℕ} (hp : (w.items p).isProcessed = false) :
    Delivered (w.handUp p) (trace ++ [.handed p]) := by
  refine ⟨fun q => (h.once q).snoc ?_, fun q hq => ?_⟩
  · rintro ⟨rfl⟩ hopen
    simp [h.processed p hopen] at hp
  · by_cases hpq : p = q
    · subst hpq
      simp [Window.handUp]
    · have hopen := (hq.of_snoc (by simpa using hpq)).1
      simpa [Window.handUp, Function.update_of_ne (Ne.symm hpq)] using h.processed q hopen

/-- Sliding past the slot at the front. -/
theorem Delivered.recvOne (h : Delivered w trace) :
    Delivered w.recvOne (trace ++ [.slid w.toRecvStart]) := by
  refine ⟨fun q => (h.once q).snoc (fun he => by cases he), fun q hq => ?_⟩
  obtain ⟨hopen, hne⟩ := hq.of_snoc (by simp)
  have hslot : q ≠ w.toRecvStart := fun he => hne (he ▸ rfl)
  simpa [Window.recvOne, Function.update_of_ne hslot] using h.processed q hopen

theorem Delivered.slide (h : Delivered w trace) (fuel : ℕ) :
    Delivered (windowInSlide fuel w).1 (trace ++ (windowInSlide fuel w).2.map .slid) := by
  induction fuel generalizing w trace with
  | zero => simpa [windowInSlide] using h
  | succ fuel ih =>
    unfold windowInSlide
    split_ifs
    · simpa using ih h.recvOne
    · simpa using h

theorem Delivered.inGet (h : Delivered w trace) :
    Delivered (windowInGet w).2 (trace ++ inGetEvents w) := by
  have hscan : Delivered w.scanned (trace ++ w.readySlot.toList.map .handed) := by
    unfold Window.scanned
    cases hready : w.readySlot with
    | none => simpa using h
    | some p => simpa using h.handUp (Window.readySlot_ready hready).2
  simpa [windowInGet, inGetEvents] using hscan.slide w.seqSz

/-- A fragment for a slot not handed up leaves every slot that was handed up as it is. -/
theorem Delivered.putCtx (h : Delivered w trace) {allocated : Bool} {ctx : WindowCtx} {w' : Window}
    {e : LErr} (hfresh : w.Accepts ctx.pid → (w.items ctx.pid).isProcessed = false)
    (hput : windowPutCtx allocated w ctx = some (w', e)) : Delivered w' trace := by
  by_cases hin : w.Accepts ctx.pid
  · refine ⟨h.once, fun p hp => ?_⟩
    have hproc := h.processed p hp
    have hne : p ≠ ctx.pid := by
      rintro rfl
      simp [hfresh hin] at hproc
    rwa [windowPutCtx_of_ne hput hne]
  · rw [windowPutCtx_reject ctx hin, Option.some.injEq, Prod.mk.injEq] at hput
    exact hput.1 ▸ h

namespace RecvState

theorem delivered_of_reaches {n : ℕ} {s : RecvState}
    (h : Reaches recvStep FreshCall (start n) s) : Delivered s.win s.trace := by
  refine h.invariant (P := fun s => Delivered s.win s.trace) delivered_nil ?_
  intro s op t hs hfresh hstep
  cases op with
  | putCtx allocated ctx =>
    obtain ⟨⟨w, e⟩, hput, rfl⟩ := Option.map_eq_some_iff.mp hstep
    exact hs.putCtx hfresh hput
  | inGet =>
    obtain rfl := Option.some.inj hstep
    exact hs.inGet

/-- In every run in which no accepted fragment addresses a slot handed up and not slid past,
each slot is handed up at most once between two slides past it. -/
theorem at_most_once_delivery (n : ℕ) (s : RecvState)
    (h : Reaches recvStep FreshCall (start n) s) : s.AtMostOnce :=
  (delivered_of_reaches h).once

/-- A whole SDU in one fragment. -/
def wholeCtx (pid : ℕ) (sdu : List UInt8) : WindowCtx :=
  ⟨cloneToChunk sdu, pid, 0, 0, true, true⟩

/-- SDU 1 arrives and is handed up before SDU 0. -/
theorem at_most_once_out_of_order : ∃ s, Reaches recvStep FreshCall (start 8) s ∧
    s.trace = [.handed 1, .handed 0, .slid 0, .slid 1] ∧ s.AtMostOnce := by
  obtain ⟨s, hs, htrace⟩ : ∃ s, runOps recvStep FreshCall (start 8)
      [.putCtx true (wholeCtx 1 [7]), .inGet, .putCtx true (wholeCtx 0 [6]), .inGet] = some s ∧
      s.trace = [.handed 1, .handed 0, .slid 0, .slid 1] := ⟨_, rfl, rfl⟩
  have hrun := reaches_of_runOps _ hs
  exact ⟨s, hrun, htrace, at_most_once_delivery 8 s hrun⟩

/-- SDU 1, handed up while SDU 0 is missing, is handed up again after a duplicate of it. -/
theorem duplicate_handed_up_again :
    ¬ ∀ n s, Reaches recvStep anyOp (start n) s → s.AtMostOnce := by
  intro hall
  obtain ⟨s, hs, htrace⟩ : ∃ s, runOps recvStep anyOp (start 8)
      [.putCtx true (wholeCtx 1 [7]), .inGet, .putCtx true (wholeCtx 1 [7]), .inGet] = some s ∧
      s.trace = [.handed 1, .handed 1] := ⟨_, rfl, rfl⟩
  have hclosed := hall 8 s (reaches_of_runOps _ hs) 1 [] [] [] htrace
  simp at hclosed

end RecvState

end LdacsSdk
