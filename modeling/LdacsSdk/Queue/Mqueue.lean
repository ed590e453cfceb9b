import LdacsSdk.Core.Definitions
import LdacsSdk.Library.Runs
import LdacsSdk.Library.Tallies

/-!
# The lock-free linked queue

A linked queue for any number of threads. The head points to a node whose item is gone, the items
are in the nodes behind it, and the tail points to the last node or to one before it. The steps
of a call are its reads and its compare-and-swaps; the calls of all threads interleave in any
order. A node is told apart by its number, and its memory is not used again while a call may still
read it: when nodes are freed is a matter of time and is left out. Items are never `NULL`.
-/
namespace LdacsSdk

open Library

/-- `lfqueue_cas_node_t`; the list of nodes to be freed is left out. -/
structure CasNode (α : Type) where
  value : Option α
  next : Option ℕ
  deriving DecidableEq, Repr

/-- `lfqueue_t` and the memory of its nodes. -/
structure Lfqueue (α : Type) where
  nodes : List (CasNode α)
  head : ℕ
  tail : ℕ
  size : ℕ
  deriving DecidableEq, Repr

variable {α : Type}

/-- Where a call of `lfqueue_put` or `lfqueue_deq` stands; named after what it does next. -/
inductive LfqueueCall (α : Type) where
  | malloc (v : α) (granted : Bool)
  | readTail (v : α) (node : ℕ)
  | linkNode (v : α) (node tail : ℕ)
  | moveTail (v : α) (node tail : ℕ)
  | addSize (v : α)
  | put (v : α) (ok : Bool)
  | readHead
  | readTailAfter (head : ℕ)
  | readNext (head tail : ℕ)
  | compare (head tail : ℕ) (next : Option ℕ) (empty : Bool)
  | helpTail (tail next : ℕ)
  | moveHead (head : ℕ) (next : Option ℕ)
  | readValue (next : ℕ)
  | subSize (v : α) (node : ℕ)
  | got (v : α) (node : ℕ)
  | gotNull (empty : Bool)
  deriving DecidableEq, Repr

/-- What an outside observer notes of a step: an item that became part of the queue, with its node,
or a node that the head moved to. -/
structure LfqueueEvent (α : Type) where
  linked : List (ℕ × α) := []
  served : List ℕ := []

/-- One step of `_enqueue` within `lfqueue_put`, or of `_dequeue` within `lfqueue_deq`. A pointer
that is not to a node has no value. The call that reads `next` notes whether the queue is empty
at that moment. -/
def lfqueueCallStep (q : Lfqueue α) :
    LfqueueCall α → Option (Lfqueue α × LfqueueCall α × LfqueueEvent α)
  | .malloc v granted =>
    if granted then
      some ({ q with nodes := q.nodes ++ [⟨some v, none⟩] }, .readTail v q.nodes.length, {})
    else some (q, .put v false, {})
  | .readTail v node => some (q, .linkNode v node q.tail, {})
  | .linkNode v node tail => do
    let last ← q.nodes[tail]?
    -- The compare-and-swap of `tail->next`; another call that linked first is waited for.
    match last.next with
    | some _ => return (q, .readTail v node, {})
    | none =>
      return ({ q with nodes := q.nodes.set tail { last with next := some node } },
        .moveTail v node tail, { linked := [(node, v)] })
  | .moveTail v node tail =>
    some ({ q with tail := if q.tail = tail then node else q.tail }, .addSize v, {})
  | .addSize v => some ({ q with size := u64 (q.size + 1) }, .put v true, {})
  | .put _ _ => none
  | .readHead => some (q, .readTailAfter q.head, {})
  | .readTailAfter head => some (q, .readNext head q.tail, {})
  | .readNext head tail => do
    let node ← q.nodes[head]?
    let first ← q.nodes[q.head]?
    return (q, .compare head tail node.next first.next.isNone, {})
  | .compare head tail next empty =>
    if head ≠ q.head then some (q, .readHead, {})
    else if head = tail then
      match next with
      | none => some (q, .gotNull empty, {})
      | some next => some (q, .helpTail tail next, {})
    else some (q, .moveHead head next, {})
  | .helpTail tail next =>
    some ({ q with tail := if q.tail = tail then next else q.tail }, .readHead, {})
  | .moveHead head next =>
    if q.head = head then
      match next with
      | none => none
      | some next => some ({ q with head := next }, .readValue next, { served := [next] })
    else some (q, .readHead, {})
  | .readValue next => do
    match (← q.nodes[next]?).value with
    | none => return (q, .gotNull false, {})
    | some v => return (q, .subSize v next, {})
  | .subSize v node => some ({ q with size := u64 ((q.size : ℤ) - 1) }, .got v node, {})
  | .got _ _ => none
  | .gotNull _ => none

/-- A queue with the calls made on it, and what was observed: the items in the order in which they
became part of the queue, with their nodes, and the nodes that the head moved to. -/
structure LfqueueRun (α : Type) where
  q : Lfqueue α
  calls : List (LfqueueCall α)
  linked : List (ℕ × α)
  served : List ℕ

/-- What happens next: a new call, or a step of a call. -/
inductive LfqueueOp (α : Type) where
  | put (v : α) (granted : Bool)
  | deq
  | advance (i : ℕ)

/-- Whether a call has not returned. -/
def LfqueueCall.inside : LfqueueCall α → Bool
  | .put _ _ => false
  | .got _ _ => false
  | .gotNull _ => false
  | _ => true

/-- One step of the interleaving. -/
def lfqueueStep (s : LfqueueRun α) : LfqueueOp α → Option (LfqueueRun α)
  | .put v granted => some { s with calls := s.calls ++ [.malloc v granted] }
  | .deq => some { s with calls := s.calls ++ [.readHead] }
  | .advance i => do
    let (q, call, event) ← lfqueueCallStep s.q (← s.calls[i]?)
    return {
      q := q
      calls := s.calls.set i call
      linked := s.linked ++ event.linked
      served := s.served ++ event.served }

/-- Only a call that has not returned takes a step. -/
def LfqueueRun.Admits (s : LfqueueRun α) : LfqueueOp α → Prop
  | .put _ _ => True
  | .deq => True
  | .advance i => ∃ c, s.calls[i]? = some c ∧ c.inside = true

instance (s : LfqueueRun α) : DecidablePred s.Admits
  | .put _ _ => isTrue trivial
  | .deq => isTrue trivial
  | .advance i => decidable_of_iff ((s.calls[i]?.any LfqueueCall.inside) = true)
      (Option.any_eq_true _ _)

end LdacsSdk
