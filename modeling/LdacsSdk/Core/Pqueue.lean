import LdacsSdk.Core.Definitions
import LdacsSdk.Library.Loops
import LdacsSdk.Library.Runs

/-!
# The priority queue

A binary heap of elements behind a mutex. The elements are known by their addresses, and the
queue looks at them through callbacks over their memory `σ`. Slot 0 is not used. A call that
asks for a locked mutex never goes on. A thread in `pthread_cond_wait` has given the mutex back
and asks for it again when it is woken, by a signal or by itself.
-/
namespace LdacsSdk

open Library

/-- The callbacks of a queue. -/
structure PqueueCallbacks (σ : Type*) where
  cmppri : ℕ → ℕ → Bool
  getpri : σ → ℕ → ℕ
  setpri : σ → ℕ → ℕ → σ
  getpos : σ → ℕ → ℕ
  setpos : σ → ℕ → ℕ → σ

/-- `pqueue_t` with the memory of the elements and the threads that wait on `cond_pop`. What stands
in slots that were never written is arbitrary. -/
structure Pqueue (σ : Type*) where
  size : ℕ
  avail : ℕ
  step : ℕ
  d : ℕ → ℕ
  elems : σ
  locked : Bool := false
  waiting : ℕ := 0

/-- How a call ends: it returns with a code and the element it stored, it waits, it asks for a
locked mutex, or it uses a NULL queue. -/
inductive PqOutcome (σ : Type*) where
  | returns (ret : ℤ) (e : Option ℕ) (q : Pqueue σ)
  | waits (q : Pqueue σ)
  | blocks
  | crashes

variable {σ : Type*} (cb : PqueueCallbacks σ)

/-- `pqueue_init`. -/
def pqueueInit (n : ℕ) (d : ℕ → ℕ) (elems : σ) : Pqueue σ where
  size := 1
  avail := u64 (n + 1)
  step := u64 (n + 1)
  d := d
  elems := elems

namespace Pqueue

/-- `q->getpri(q->d[i])`. -/
def pri (q : Pqueue σ) (i : ℕ) : ℕ := cb.getpri q.elems (q.d i)

/-- `q->d[i] = e` and `q->setpos(q->d[i], i)`. -/
def setSlot (q : Pqueue σ) (i e : ℕ) : Pqueue σ :=
  { q with d := Function.update q.d i e, elems := cb.setpos q.elems e i }

/-- `pqueue_lock_internal` in front of the rest of a call. -/
def withLock (q : Pqueue σ) (body : Pqueue σ → Option (PqOutcome σ)) : Option (PqOutcome σ) :=
  if q.locked then some .blocks else body { q with locked := true }

/-- `pqueue_unlock_internal`. -/
def unlock (q : Pqueue σ) : Pqueue σ := { q with locked := false }

/-- `--q->size`. -/
def shrink (q : Pqueue σ) : Pqueue σ := { q with size := u64 (q.size - 1) }

end Pqueue

/-- One round of `bubble_up`. -/
def pqBubbleUpRound (movingPri : ℕ) (s : Pqueue σ × ℕ) : Option (Round (Pqueue σ × ℕ)) :=
  let (q, i) := s
  if i > 1 ∧ cb.cmppri (q.pri cb (i / 2)) movingPri then
    some (.again (q.setSlot cb i (q.d (i / 2)), i / 2))
  else some (.leave s)

/-- `bubble_up`. -/
def pqBubbleUp (q : Pqueue σ) (i : ℕ) : Option (Pqueue σ) :=
  (whileLoop (pqBubbleUpRound cb (q.pri cb i)) (i + 1) (q, i)).map fun s =>
    s.1.setSlot cb s.2 (q.d i)

/-- `maxchild`. -/
def pqMaxchild (q : Pqueue σ) (i : ℕ) : ℕ :=
  if 2 * i ≥ q.size then 0
  else if 2 * i + 1 < q.size ∧ cb.cmppri (q.pri cb (2 * i)) (q.pri cb (2 * i + 1)) then 2 * i + 1
  else 2 * i

/-- One round of `percolate_down`. -/
def percolateDownRound (movingPri : ℕ) (s : Pqueue σ × ℕ) : Option (Round (Pqueue σ × ℕ)) :=
  let (q, i) := s
  let childNode := pqMaxchild cb q i
  if childNode ≠ 0 ∧ cb.cmppri movingPri (q.pri cb childNode) then
    some (.again (q.setSlot cb i (q.d childNode), childNode))
  else some (.leave s)

/-- `percolate_down`. -/
def percolateDown (q : Pqueue σ) (i : ℕ) : Option (Pqueue σ) :=
  (whileLoop (percolateDownRound cb (q.pri cb i)) (q.size + 1) (q, i)).map fun s =>
    s.1.setSlot cb s.2 (q.d i)

/-- `pqueue_insert`; `grown` tells whether `realloc` has memory, if it is called. -/
def pqueueInsert (grown : Bool) (q : Pqueue σ) (d : ℕ) : Option (PqOutcome σ) :=
  q.withLock fun q =>
    if q.size ≥ q.avail ∧ grown = false then some (.returns 1 none q)
    else
      let q := if q.size ≥ q.avail then { q with avail := u64 (q.size + q.step) } else q
      let i := q.size
      (pqBubbleUp cb { q with size := u64 (i + 1), d := Function.update q.d i d } i).map fun q =>
        .returns 0 none q.unlock

/-- `pqueue_change_priority`. -/
def pqueueChangePriority (q : Pqueue σ) (newPri d : ℕ) : Option (PqOutcome σ) :=
  let oldPri := cb.getpri q.elems d
  q.withLock fun q =>
    let q := { q with elems := cb.setpri q.elems d newPri }
    let posn := cb.getpos q.elems d
    (if cb.cmppri oldPri newPri then pqBubbleUp cb q posn else percolateDown cb q posn).map fun q =>
      .returns 0 none q.unlock

/-- `pqueue_remove`. -/
def pqueueRemove (q : Pqueue σ) (d : ℕ) : Option (PqOutcome σ) :=
  q.withLock fun q =>
    let posn := cb.getpos q.elems d
    let q := q.shrink
    let q := { q with d := Function.update q.d posn (q.d q.size) }
    (if cb.cmppri (cb.getpri q.elems d) (q.pri cb posn) then pqBubbleUp cb q posn
      else percolateDown cb q posn).map fun q => .returns 0 none q.unlock

/-- The end of `pqueue_pop_internal`. -/
def popTop (q : Pqueue σ) : Option (PqOutcome σ) :=
  let e := q.d 1
  let q := q.shrink
  (percolateDown cb { q with d := Function.update q.d 1 (q.d q.size) } 1).map fun q =>
    .returns 0 (some e) q.unlock

/-- `pqueue_pop`. -/
def pqueuePop (q : Pqueue σ) : Option (PqOutcome σ) :=
  q.withLock fun q => if q.size = 1 then some (.returns (-1) none q) else popTop cb q

/-- The loop around `pthread_cond_wait`, with the mutex. -/
def popOrWait (q : Pqueue σ) : Option (PqOutcome σ) :=
  if q.size = 1 then some (.waits { q.unlock with waiting := q.waiting + 1 }) else popTop cb q

/-- `pqueue_pop_wait`. -/
def pqueuePopWait (q : Pqueue σ) : Option (PqOutcome σ) := q.withLock (popOrWait cb)

/-- A thread that waits is woken, if there is one. -/
def pqueueWake (q : Pqueue σ) : Option (PqOutcome σ) :=
  if q.waiting = 0 then some (.waits q)
  else { q with waiting := q.waiting - 1 }.withLock (popOrWait cb)

/-- `pqueue_peek`. -/
def pqueuePeek (q : Pqueue σ) : Option (PqOutcome σ) :=
  q.withLock fun q =>
    if q.size = 1 then some (.returns 0 none q) else some (.returns 0 (some (q.d 1)) q.unlock)

/-- The loop of `pqueue_flush` with some elements to go. -/
def flushLoop (freeFunc : Option (σ → Option ℕ → σ)) : ℕ → Pqueue σ → Option (PqOutcome σ)
  | 0, q => some (.returns 0 none q)
  | pqSz + 1, q => (pqueuePop cb q).bind fun
    | .returns _ v q =>
      flushLoop freeFunc pqSz
        (match freeFunc with
          | none => q
          | some freeFunc => { q with elems := freeFunc q.elems v })
    | out => some out

/-- `pqueue_flush`. -/
def pqueueFlush (freeFunc : Option (σ → Option ℕ → σ)) (pq : Pqueue σ) : Option (PqOutcome σ) :=
  flushLoop cb freeFunc (u64 (pq.size - 1)) pq

/-- The duplicate in `pqueue_print` is emptied until NULL comes. -/
def printLoop : ℕ → Pqueue σ → Option (PqOutcome σ)
  | 0, _ => none
  | rounds + 1, dup => (pqueuePop cb dup).bind fun
    | .returns _ (some _) dup => printLoop rounds dup
    | out => some out

/-- `pqueue_print`; `allocated` tells whether `pqueue_init` has memory for the duplicate. Its
elements are those of the queue. -/
def pqueuePrint (allocated : Bool) (q : Pqueue σ) : Option (PqOutcome σ) :=
  q.withLock fun q =>
    if allocated = false then some .crashes
    else
      (printLoop cb (u64 (q.size - 1) + 1) { q with locked := false, waiting := 0 }).map fun
        | .returns _ _ dup => .returns 0 none { q with elems := dup.elems }.unlock
        | out => out

/-- A child in `subtree_is_valid`: out of order, checked by itself, or not there. -/
def childIsValid (check : Pqueue σ → ℕ → Option (PqOutcome σ)) (q : Pqueue σ) (pos child : ℕ) :
    Option (PqOutcome σ) :=
  if child < q.size then
    if cb.cmppri (q.pri cb pos) (q.pri cb child) then some (.returns 0 none q) else check q child
  else some (.returns 1 none q)

/-- `subtree_is_valid`, with a bound on its depth. -/
def subtreeIsValid : ℕ → Pqueue σ → ℕ → Option (PqOutcome σ)
  | 0, _, _ => none
  | depth + 1, q, pos => q.withLock fun q =>
    (childIsValid cb (subtreeIsValid depth) q pos (2 * pos)).bind fun
      | .returns ret _ q =>
        if ret = 0 then some (.returns 0 none q)
        else (childIsValid cb (subtreeIsValid depth) q pos (2 * pos + 1)).bind fun
          | .returns ret _ q =>
            if ret = 0 then some (.returns 0 none q) else some (.returns 1 none q.unlock)
          | out => some out
      | out => some out

/-- `pqueue_is_valid`. -/
def pqueueIsValid (q : Pqueue σ) : Option (PqOutcome σ) := subtreeIsValid cb (q.size + 2) q 1

/-- The calls on a queue, and the waking of a thread that waits. -/
inductive PqOp (σ : Type*) where
  | insert (grown : Bool) (d : ℕ)
  | pop
  | popWait
  | wake
  | peek
  | changePriority (newPri d : ℕ)
  | remove (d : ℕ)
  | flush (freeFunc : Option (σ → Option ℕ → σ))
  | print (allocated : Bool)
  | isValid

/-- One call; it has no outcome if one of its loops is never left. -/
def Pqueue.call (q : Pqueue σ) : PqOp σ → Option (PqOutcome σ)
  | .insert grown d => pqueueInsert cb grown q d
  | .pop => pqueuePop cb q
  | .popWait => pqueuePopWait cb q
  | .wake => pqueueWake cb q
  | .peek => pqueuePeek q
  | .changePriority newPri d => pqueueChangePriority cb q newPri d
  | .remove d => pqueueRemove cb q d
  | .flush freeFunc => pqueueFlush cb freeFunc q
  | .print allocated => pqueuePrint cb allocated q
  | .isValid => pqueueIsValid cb q

/-- The queue after a call that returns or waits. -/
def pqStep (q : Pqueue σ) (op : PqOp σ) : Option (Pqueue σ) :=
  (q.call cb op).bind fun
    | .returns _ _ q => some q
    | .waits q => some q
    | _ => none

end LdacsSdk
