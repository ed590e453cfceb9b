import LdacsSdk.Core.Definitions
import LdacsSdk.Library.Runs
import LdacsSdk.Library.Tallies

/-!
# The atomic ring queue

A queue for any number of producers and one consumer over a ring of pointers. The steps of a
call are its atomic operations, taken one after another; the calls of all threads interleave in
any order. A slot holds a pointer or `NULL`; what is enqueued is never `NULL`.
-/
namespace LdacsSdk

open Library

/-- `ld_aqueue_t`. The buffer holds `max` slots. -/
structure Aqueue (α : Type) where
  count : ℕ
  head : ℕ
  tail : ℕ
  max : ℕ
  buffer : List (Option α)

variable {α : Type}

/-- `ld_aqueue_create`. -/
def aqueueCreate (capacity : ℕ) : Aqueue α where
  count := 0
  head := 0
  tail := 0
  max := capacity
  buffer := List.replicate capacity none

/-- Where a call of `ld_aqueue_enqueue` stands: before it counts itself, before it takes the count
back, before it advances the head, before it checks its slot, before it fills it, or returned. -/
inductive EnqueueCall (α : Type) where
  | enter (obj : α)
  | backOff (obj : α)
  | claim (obj : α)
  | check (obj : α) (head : ℕ)
  | fill (obj : α) (head : ℕ)
  | refused (obj : α)
  | accepted (obj : α)

/-- Where the consumer stands: outside `ld_aqueue_dequeue`, or in it with a pointer taken from the
ring, before it moves the tail or before it lowers the count. -/
inductive DequeueCall (α : Type) where
  | idle
  | taken (ret : α)
  | moved (ret : α)

/-- The slot is in the buffer and holds `NULL`. -/
def Aqueue.isNull (q : Aqueue α) (p : ℕ) : Bool :=
  match q.buffer[p]? with
  | some none => true
  | _ => false

/-- One atomic step of `ld_aqueue_enqueue`; the object is recorded where it gets its place in the
order of the head. A failed assertion has no value. -/
def enqueueStep (q : Aqueue α) : EnqueueCall α → Option (Aqueue α × EnqueueCall α × List α)
  | .enter obj =>
    some ({ q with count := u64 (q.count + 1) },
      if q.max ≤ q.count then .backOff obj else .claim obj, [])
  | .backOff obj => some ({ q with count := u64 ((q.count : ℤ) - 1) }, .refused obj, [])
  | .claim obj => some ({ q with head := u64 (q.head + 1) }, .check obj q.head, [obj])
  | .check obj head =>
    if q.isNull (head % q.max) then some (q, .fill obj head, []) else none
  | .fill obj head =>
    if q.isNull (head % q.max) then
      some ({ q with buffer := q.buffer.set (head % q.max) (some obj) }, .accepted obj, [])
    else none
  | .refused _ => none
  | .accepted _ => none

/-- One step of `ld_aqueue_dequeue`, and the pointer it returns with it. -/
def dequeueStep (q : Aqueue α) : DequeueCall α → Option (Aqueue α × DequeueCall α × List α)
  | .idle => do
    match ← q.buffer[q.tail]? with
    | none => return (q, .idle, [])
    | some ret => return ({ q with buffer := q.buffer.set q.tail none }, .taken ret, [])
  | .taken ret =>
    some ({ q with tail := if q.max ≤ q.tail + 1 then 0 else q.tail + 1 }, .moved ret, [])
  | .moved ret =>
    if 0 < q.count then some ({ q with count := u64 ((q.count : ℤ) - 1) }, .idle, [ret]) else none

/-- `ld_aqueue_count`. -/
def aqueueCount (q : Aqueue α) : ℕ := q.count

/-- `ld_aqueue_capacity`. -/
def aqueueCapacity (q : Aqueue α) : ℕ := q.max

/-! ### Interleavings -/

/-- A queue with the calls made on it. Observed are the objects in the order in which their calls
advanced the head, and the pointers that `ld_aqueue_dequeue` returned, in turn. -/
structure AqueueRun (α : Type) where
  q : Aqueue α
  calls : List (EnqueueCall α)
  consumer : DequeueCall α
  tickets : List α
  returned : List α

/-- What happens next: a new call, a step of a call, or a step of the consumer. -/
inductive AqueueOp (α : Type) where
  | enqueue (obj : α)
  | advance (i : ℕ)
  | dequeue

/-- Whether a call has not returned. -/
def EnqueueCall.inside : EnqueueCall α → Bool
  | .refused _ => false
  | .accepted _ => false
  | _ => true

/-- A call that has not returned counts one. -/
def EnqueueCall.weight (c : EnqueueCall α) : ℕ := if c.inside then 1 else 0

/-- One step of the interleaving. -/
def aqueueStep (s : AqueueRun α) : AqueueOp α → Option (AqueueRun α)
  | .enqueue obj => some { s with calls := s.calls ++ [.enter obj] }
  | .advance i => do
    let (q, call, ticket) ← enqueueStep s.q (← s.calls[i]?)
    return { s with q := q, calls := s.calls.set i call, tickets := s.tickets ++ ticket }
  | .dequeue => do
    let (q, consumer, ret) ← dequeueStep s.q s.consumer
    return { s with q := q, consumer := consumer, returned := s.returned ++ ret }

/-- The start of a run. -/
def aqueueStart (capacity : ℕ) : AqueueRun α := ⟨aqueueCreate capacity, [], .idle, [], []⟩

/-- How many calls have not returned. -/
def AqueueRun.openCalls (s : AqueueRun α) : ℕ := tally EnqueueCall.weight s.calls

/-- Calls are made by fewer threads than a `size_t` counts beyond the capacity, and only a call that
has not returned takes a step. -/
def AqueueRun.Admits (s : AqueueRun α) : AqueueOp α → Prop
  | .enqueue _ => s.openCalls + 1 + s.q.max < 2 ^ 64
  | .advance i => ∃ c, s.calls[i]? = some c ∧ c.inside = true
  | .dequeue => True

instance (s : AqueueRun α) : DecidablePred s.Admits
  | .enqueue _ => inferInstanceAs (Decidable (_ < _))
  | .advance i => decidable_of_iff ((s.calls[i]?.any EnqueueCall.inside) = true)
      (Option.any_eq_true _ _)
  | .dequeue => isTrue trivial

end LdacsSdk
