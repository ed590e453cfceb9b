import LdacsSdk.Core.Definitions

/-!
# The bounded ring buffer

`ld_rbuffer` is a doubly linked ring with a capacity. It is modelled by the list of its data
pointers from the head on; a pointer is a value of `α`, such as the index of an array entry.
-/
namespace LdacsSdk

/-- `ld_rbuffer`, by the data of its nodes from the head on. -/
structure RBuffer (α : Type*) where
  nodes : List α
  size : ℕ
  deriving DecidableEq, Repr

variable {α : Type*}

/-- `ld_rbuffer_init`. -/
def rbufferInit (size : ℕ) : RBuffer α := ⟨[], size⟩

/-- `ld_rbuffer_push_front`. -/
def rbufferPushFront (rb : RBuffer α) (data : α) : RBuffer α × LErr :=
  if rb.nodes.length ≥ rb.size then (rb, .ldErrInternal)
  else ({ rb with nodes := data :: rb.nodes }, .ldOk)

/-- `ld_rbuffer_push_back`. -/
def rbufferPushBack (rb : RBuffer α) (data : α) : RBuffer α × LErr :=
  if rb.nodes.length ≥ rb.size then (rb, .ldErrInternal)
  else ({ rb with nodes := rb.nodes ++ [data] }, .ldOk)

/-- `ld_rbuffer_pop`: the buffer after it and the element taken, `none` for a NULL pointer. -/
def rbufferPop (rb : RBuffer α) : RBuffer α × Option α :=
  match rb.nodes with
  | [] => (rb, none)
  | data :: rest => ({ rb with nodes := rest }, some data)

/-- `ld_rbuffer_check_exist`. -/
def rbufferCheckExist (rb : RBuffer α) (ptr : α) (factor : α → α → Bool) : Bool :=
  rb.nodes.any fun data => factor data ptr

theorem rbufferPushBack_room {rb : RBuffer α} (h : rb.nodes.length < rb.size) (data : α) :
    (rbufferPushBack rb data).1 = { rb with nodes := rb.nodes ++ [data] } := by
  simp [rbufferPushBack, Nat.not_le.mpr h]

theorem rbufferPushFront_room {rb : RBuffer α} (h : rb.nodes.length < rb.size) (data : α) :
    (rbufferPushFront rb data).1 = { rb with nodes := data :: rb.nodes } := by
  simp [rbufferPushFront, Nat.not_le.mpr h]

end LdacsSdk
