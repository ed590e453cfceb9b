import LdacsSdk.Core.RingBuffer
import LdacsSdk.Library.CircularList

/-!
# The nodes of the ring buffer

`ld_rbuffer` keeps its nodes on the heap, linked in both directions into a ring. What each
operation does to the links it does to the list of the nodes.
-/
namespace LdacsSdk

open Library

/-- `rnode_t`; a pointer is an address of the heap, `none` for NULL. -/
structure RNode (α : Type*) where
  data : α
  prev : Option ℕ := none
  next : Option ℕ := none

/-- The nodes on the heap, by their addresses. -/
abbrev NodeHeap (α : Type*) := ℕ → Option (RNode α)

/-- `ld_rbuffer`, with the heap of its nodes. -/
structure LdRbuffer (α : Type*) where
  head : Option ℕ := none
  tail : Option ℕ := none
  count : ℤ := 0
  size : ℕ
  heap : NodeHeap α := fun _ => none

variable {α : Type*}

/-- The node at a pointer. There is none behind NULL. -/
def NodeHeap.deref (heap : NodeHeap α) (p : Option ℕ) : Option (RNode α) := p.bind heap

/-- A write into the node at a pointer. -/
def NodeHeap.modify (heap : NodeHeap α) (p : Option ℕ) (f : RNode α → RNode α) :
    Option (NodeHeap α) :=
  p.bind fun a => (heap a).map fun node => Function.update heap a (some (f node))

/-- `ld_rbuffer_init`. -/
def ldRbufferInit (size : ℕ) : LdRbuffer α := { size := size }

/-- The comparison of the `int` count with the `size_t` capacity. -/
def LdRbuffer.isFull (rb : LdRbuffer α) : Bool := u64 rb.count ≥ rb.size

/-- The new node at address `a` between the tail and the head, which both pushes link in. -/
def LdRbuffer.linkNode (rb : LdRbuffer α) (a : ℕ) (data : α) : Option (NodeHeap α) :=
  let fresh := Function.update rb.heap a (some { data := data, next := rb.head, prev := rb.tail })
  (NodeHeap.modify fresh rb.tail fun node => { node with next := some a }).bind fun heap =>
    NodeHeap.modify heap rb.head fun node => { node with prev := some a }

/-- The buffer with its first node, at address `a`. -/
def LdRbuffer.single (rb : LdRbuffer α) (a : ℕ) (data : α) : LdRbuffer α :=
  { rb with
    head := some a
    tail := some a
    count := i32 (rb.count + 1)
    heap := Function.update rb.heap a (some { data := data, next := some a, prev := some a }) }

/-- `ld_rbuffer_push_front`, where `malloc` returns the address `a`. -/
def ldRbufferPushFront (rb : LdRbuffer α) (a : ℕ) (data : α) : Option (LdRbuffer α × LErr) :=
  if rb.isFull then some (rb, .ldErrInternal)
  else if rb.count = 0 then some (rb.single a data, .ldOk)
  else (rb.linkNode a data).map fun heap =>
    ({ rb with heap := heap, head := some a, count := i32 (rb.count + 1) }, .ldOk)

/-- `ld_rbuffer_push_back`, where `malloc` returns the address `a`. -/
def ldRbufferPushBack (rb : LdRbuffer α) (a : ℕ) (data : α) : Option (LdRbuffer α × LErr) :=
  if rb.isFull then some (rb, .ldErrInternal)
  else if rb.count = 0 then some (rb.single a data, .ldOk)
  else (rb.linkNode a data).map fun heap =>
    ({ rb with heap := heap, tail := some a, count := i32 (rb.count + 1) }, .ldOk)

/-- `free` of the node at a pointer. -/
def NodeHeap.free (heap : NodeHeap α) (p : Option ℕ) : NodeHeap α :=
  p.elim heap fun a => Function.update heap a none

/-- The tail and the node at `second`, the new head, linked to each other. -/
def LdRbuffer.unlinkHead (rb : LdRbuffer α) (second : Option ℕ) : Option (NodeHeap α) :=
  (rb.heap.modify rb.tail fun node => { node with next := second }).bind fun heap =>
    NodeHeap.modify heap second fun node => { node with prev := rb.tail }

/-- `ld_rbuffer_pop`: the buffer after it, the data taken, `none` for NULL, and its return code. -/
def ldRbufferPop (rb : LdRbuffer α) : Option (LdRbuffer α × Option α × LErr) :=
  if rb.count = 0 then some (rb, none, .ldErrInternal)
  else
    match rb.heap.deref rb.head with
    | none => none
    | some popNode =>
      if rb.count = 1 then
        some ({ rb with
          head := none, tail := none, heap := rb.heap.free rb.head
          count := i32 (rb.count - 1) }, some popNode.data, .ldOk)
      else
        (rb.unlinkHead popNode.next).map fun heap =>
          ({ rb with
            head := popNode.next, heap := heap.free rb.head
            count := i32 (rb.count - 1) }, some popNode.data, .ldOk)

/-- `ld_rbuffer_get_front`: the data, `none` for NULL, and the return code. -/
def ldRbufferGetFront (rb : LdRbuffer α) : Option (Option α × LErr) :=
  if rb.count = 0 then some (none, .ldErrInternal)
  else (rb.heap.deref rb.head).map fun node => (some node.data, .ldOk)

/-- The loop of `ld_rbuffer_check_exist` over as many nodes as are left. -/
def checkNodes (heap : NodeHeap α) (ptr : α) (factor : α → α → Bool) :
    ℕ → Option ℕ → Option Bool
  | 0, _ => some false
  | left + 1, current =>
    match NodeHeap.deref heap current with
    | none => none
    | some node =>
      if factor node.data ptr then some true else checkNodes heap ptr factor left node.next

/-- `ld_rbuffer_check_exist`. -/
def ldRbufferCheckExist (rb : LdRbuffer α) (ptr : α) (factor : α → α → Bool) : Option Bool :=
  checkNodes rb.heap ptr factor rb.count.toNat rb.head

/-- `ld_rbuffer_get_front` on the list of the data. -/
def rbufferGetFront (rb : RBuffer α) : Option α := rb.nodes.head?

namespace NodeHeap

def nextOf (heap : NodeHeap α) (a : ℕ) : Option ℕ := (heap a).bind RNode.next

def prevOf (heap : NodeHeap α) (a : ℕ) : Option ℕ := (heap a).bind RNode.prev

def dataOf (heap : NodeHeap α) (a : ℕ) : Option α := (heap a).map RNode.data

variable {heap : NodeHeap α} {a b : ℕ} {node : RNode α}

theorem nextOf_update (heap : NodeHeap α) (a : ℕ) (node : RNode α) :
    nextOf (Function.update heap a (some node)) = Function.update heap.nextOf a node.next := by
  funext b
  by_cases hb : b = a
  · simp [nextOf, hb]
  · simp [nextOf, hb]

theorem prevOf_update (heap : NodeHeap α) (a : ℕ) (node : RNode α) :
    prevOf (Function.update heap a (some node)) = Function.update heap.prevOf a node.prev := by
  funext b
  by_cases hb : b = a
  · simp [prevOf, hb]
  · simp [prevOf, hb]

theorem dataOf_update (heap : NodeHeap α) (a : ℕ) (node : RNode α) :
    dataOf (Function.update heap a (some node)) =
      Function.update heap.dataOf a (some node.data) := by
  funext b
  by_cases hb : b = a
  · simp [dataOf, hb]
  · simp [dataOf, hb]

/-- What a write of one link into a node that is there changes. -/
theorem modify_next (heap : NodeHeap α) (h : (heap a).isSome = true) (p : Option ℕ) :
    ∃ heap', heap.modify (some a) (fun node => { node with next := p }) = some heap' ∧
      heap'.nextOf = Function.update heap.nextOf a p ∧ heap'.prevOf = heap.prevOf ∧
      heap'.dataOf = heap.dataOf ∧ ∀ b, (heap' b).isSome = (heap b).isSome := by
  obtain ⟨node, hnode⟩ := Option.isSome_iff_exists.mp h
  refine ⟨Function.update heap a (some { node with next := p }), by simp [modify, hnode],
    nextOf_update .., ?_, ?_, fun b => ?_⟩
  · rw [prevOf_update]
    exact Function.update_eq_self_iff.mpr (by simp [prevOf, hnode])
  · rw [dataOf_update]
    exact Function.update_eq_self_iff.mpr (by simp [dataOf, hnode])
  · by_cases hb : b = a
    · simp [hb, h]
    · simp [hb]

theorem modify_prev (heap : NodeHeap α) (h : (heap a).isSome = true) (p : Option ℕ) :
    ∃ heap', heap.modify (some a) (fun node => { node with prev := p }) = some heap' ∧
      heap'.prevOf = Function.update heap.prevOf a p ∧ heap'.nextOf = heap.nextOf ∧
      heap'.dataOf = heap.dataOf ∧ ∀ b, (heap' b).isSome = (heap b).isSome := by
  obtain ⟨node, hnode⟩ := Option.isSome_iff_exists.mp h
  refine ⟨Function.update heap a (some { node with prev := p }), by simp [modify, hnode],
    prevOf_update .., ?_, ?_, fun b => ?_⟩
  · rw [nextOf_update]
    exact Function.update_eq_self_iff.mpr (by simp [nextOf, hnode])
  · rw [dataOf_update]
    exact Function.update_eq_self_iff.mpr (by simp [dataOf, hnode])
  · by_cases hb : b = a
    · simp [hb, h]
    · simp [hb]

end NodeHeap

/-- The nodes at the addresses `l` and no others are on the heap, linked into a ring from the head
to the tail. -/
structure Rings (rb : LdRbuffer α) (l : List ℕ) : Prop where
  nodup : l.Nodup
  stored : ∀ a, (rb.heap a).isSome = true ↔ a ∈ l
  countEq : rb.count = l.length
  bounded : l.length ≤ rb.size
  head : rb.head = l.head?
  tail : rb.tail = l.getLast?
  circular : Circular rb.heap.nextOf rb.heap.prevOf l

/-- The data of the ring are those of a list. -/
def HoldsList (rb : LdRbuffer α) (list : RBuffer α) : Prop :=
  ∃ l, Rings rb l ∧ l.map rb.heap.dataOf = list.nodes.map some ∧ list.size = rb.size

variable {rb rb' : LdRbuffer α} {l m : List ℕ} {a z : ℕ} {data : α} {list : RBuffer α}

theorem rings_init (size : ℕ) : Rings (ldRbufferInit size : LdRbuffer α) [] := by
  constructor <;> simp [ldRbufferInit, Circular]

theorem Rings.isFull_iff (h : Rings rb l) (hcount : rb.count < 2 ^ 31) :
    rb.isFull = true ↔ rb.size ≤ l.length := by
  have hcast := h.countEq
  simp only [LdRbuffer.isFull, decide_eq_true_eq, hcast]
  rw [u64_of_nonneg (by omega) (by omega)]
  simp

theorem Rings.not_full (h : Rings rb l) (hroom : l.length < rb.size)
    (hcount : rb.count + 1 < 2 ^ 31) : ¬rb.isFull = true := by
  rw [h.isFull_iff (by omega)]
  omega

/-- Where there is a last node the count is not 0. -/
theorem Rings.count_ne_zero {m : List ℕ} {z : ℕ} (h : Rings rb (m ++ [z])) : rb.count ≠ 0 := by
  rw [h.countEq]
  simp
  omega

theorem Rings.single (h : Rings rb []) (hsize : 0 < rb.size) (a : ℕ) (data : α) :
    Rings (rb.single a data) [a] where
  nodup := List.nodup_singleton a
  stored b := by
    by_cases hb : b = a
    · simp [LdRbuffer.single, hb]
    · have hnone : ¬ (rb.heap b).isSome = true := fun hs => by simpa using (h.stored b).mp hs
      simpa [LdRbuffer.single, hb] using hnone
  countEq := by simp [LdRbuffer.single, h.countEq, i32]
  bounded := hsize
  head := rfl
  tail := rfl
  circular := circular_singleton (by simp [LdRbuffer.single, NodeHeap.nextOf])
    (by simp [LdRbuffer.single, NodeHeap.prevOf])

/-- The heap with a new node linked in between the tail `z` and the head `b`. -/
theorem Rings.linkNode (h : Rings rb (m ++ [z])) (ha : rb.heap a = none) (data : α) :
    ∃ heap, rb.linkNode a data = some heap ∧ Circular heap.nextOf heap.prevOf (m ++ [z] ++ [a]) ∧
      heap.dataOf = Function.update rb.heap.dataOf a (some data) ∧
      ∀ b, (heap b).isSome = true ↔ b ∈ m ++ [z] ++ [a] := by
  obtain ⟨b, hb⟩ : ∃ b, (m ++ [z]).head? = some b :=
    Option.isSome_iff_exists.mp (by simp)
  have hnot : a ∉ m ++ [z] := fun hmem => by simpa [ha] using (h.stored a).mpr hmem
  have hza : z ≠ a := fun he => hnot (by simp [he])
  have hba : b ≠ a := fun he => hnot (he ▸ List.mem_of_head? hb)
  let fresh : NodeHeap α :=
    Function.update rb.heap a (some { data := data, next := some b, prev := some z })
  have hstored : ∀ c, (fresh c).isSome = true ↔ c ∈ m ++ [z] ++ [a] := fun c => by
    by_cases hc : c = a
    · simp [fresh, hc]
    · have hold := h.stored c
      simp only [List.mem_append, List.mem_singleton] at hold ⊢
      simp [fresh, hc, hold]
  obtain ⟨heap₁, hheap₁, hnext₁, hprev₁, hdata₁, hsome₁⟩ :=
    NodeHeap.modify_next fresh ((hstored z).mpr (by simp)) (some a)
  obtain ⟨heap₂, hheap₂, hprev₂, hnext₂, hdata₂, hsome₂⟩ :=
    NodeHeap.modify_prev heap₁ (a := b) (by
      rw [hsome₁, hstored]
      exact List.mem_append_left _ (List.mem_of_head? hb)) (some a)
  refine ⟨heap₂, ?_, ?_, ?_, fun c => ?_⟩
  · have htail : rb.tail = some z := h.tail.trans (by simp)
    simp only [LdRbuffer.linkNode, h.head.trans hb, htail]
    exact (congrArg (Option.bind · _) hheap₁).trans hheap₂
  · rw [hnext₂, hprev₂, hnext₁, hprev₁, NodeHeap.nextOf_update, NodeHeap.prevOf_update]
    exact h.circular.insert h.nodup hnot hb
  · rw [hdata₂, hdata₁, NodeHeap.dataOf_update]
  · rw [hsome₂, hsome₁, hstored]

theorem Rings.not_mem (h : Rings rb l) (ha : rb.heap a = none) : a ∉ l := fun hmem => by
  simpa [ha] using (h.stored a).mpr hmem

/-- What a push leaves: the ring `l'` with the new node, and the data of the other nodes. -/
def Grown (rb : LdRbuffer α) (a : ℕ) (data : α) (l' : List ℕ) (rb' : LdRbuffer α) : Prop :=
  Rings rb' l' ∧ rb'.size = rb.size ∧ rb'.heap.dataOf = Function.update rb.heap.dataOf a (some data)

theorem Rings.grown_single (h : Rings rb []) (hroom : 0 < rb.size) (a : ℕ) (data : α) :
    Grown rb a data [a] (rb.single a data) :=
  ⟨h.single hroom a data, rfl, NodeHeap.dataOf_update ..⟩

/-- A push behind the tail. -/
theorem Rings.pushBack (h : Rings rb l) (ha : rb.heap a = none) (hroom : l.length < rb.size)
    (hcount : rb.count + 1 < 2 ^ 31) (data : α) :
    ∃ rb', ldRbufferPushBack rb a data = some (rb', .ldOk) ∧ Grown rb a data (l ++ [a]) rb' := by
  have hlen := h.countEq
  have hfull := h.not_full hroom hcount
  rcases List.eq_nil_or_concat' l with rfl | ⟨m, z, rfl⟩
  · have hzero : rb.count = 0 := by simpa using hlen
    exact ⟨_, by simp [ldRbufferPushBack, hfull, hzero], h.grown_single hroom a data⟩
  · obtain ⟨heap, hheap, hcirc, hdata, hstored⟩ := h.linkNode ha data
    have hpos := h.count_ne_zero
    have hnot := h.not_mem ha
    have hlong : (m ++ [z] ++ [a]).length = (m ++ [z]).length + 1 := by simp
    have hpush : ldRbufferPushBack rb a data =
        some ({ rb with heap := heap, tail := some a, count := i32 (rb.count + 1) }, .ldOk) := by
      simp [ldRbufferPushBack, hfull, hpos, hheap]
    refine ⟨_, hpush, ⟨?_, hstored, ?_, ?_, ?_, ?_, hcirc⟩, rfl, hdata⟩
    · exact List.nodup_append.mpr ⟨h.nodup, List.nodup_singleton a, fun b hb c hc he =>
        hnot (List.mem_singleton.mp hc ▸ he ▸ hb)⟩
    · rw [i32_of_lt (by omega) hcount, hlen, hlong]
      push_cast
      rfl
    · rw [hlong]
      exact hroom
    · rw [h.head]
      simp
    · simp

/-- A push in front of the head: the same links, and the ring starts at the new node. -/
theorem Rings.pushFront (h : Rings rb l) (ha : rb.heap a = none) (hroom : l.length < rb.size)
    (hcount : rb.count + 1 < 2 ^ 31) (data : α) :
    ∃ rb', ldRbufferPushFront rb a data = some (rb', .ldOk) ∧ Grown rb a data (a :: l) rb' := by
  have hlen := h.countEq
  have hfull := h.not_full hroom hcount
  rcases List.eq_nil_or_concat' l with rfl | ⟨m, z, rfl⟩
  · have hzero : rb.count = 0 := by simpa using hlen
    exact ⟨_, by simp [ldRbufferPushFront, hfull, hzero], h.grown_single hroom a data⟩
  · obtain ⟨heap, hheap, hcirc, hdata, hstored⟩ := h.linkNode ha data
    have hpos := h.count_ne_zero
    have hpush : ldRbufferPushFront rb a data =
        some ({ rb with heap := heap, head := some a, count := i32 (rb.count + 1) }, .ldOk) := by
      simp [ldRbufferPushFront, hfull, hpos, hheap]
    refine ⟨_, hpush, ⟨?_, fun b => ?_, ?_, ?_, rfl, ?_, hcirc.rotate_to⟩, rfl, hdata⟩
    · exact List.nodup_cons.mpr ⟨h.not_mem ha, h.nodup⟩
    · rw [hstored b]
      simp [or_comm, or_assoc]
    · rw [i32_of_lt (by omega) hcount, hlen]
      simp
    · exact hroom
    · rw [h.tail]
      simp [List.getLast?_cons]

theorem HoldsList.of_grown {l' : List ℕ} {nodes : List α} (hring : Grown rb a data l' rb')
    (hdata : l'.map rb'.heap.dataOf = nodes.map some) (hsize : list.size = rb.size) :
    HoldsList rb' { list with nodes := nodes } :=
  ⟨l', hring.1, hdata, hsize.trans hring.2.1.symm⟩

/-- The links that a pop sets, where nodes stay. -/
theorem Rings.unlinkHead {m : List ℕ} {z : ℕ} {node : RNode α} (h : Rings rb (a :: (m ++ [z])))
    (hnode : rb.heap a = some node) :
    node.next = (m ++ [z]).head? ∧ ∃ heap, rb.unlinkHead node.next = some heap ∧
      Circular heap.nextOf heap.prevOf (m ++ [z]) ∧ heap.dataOf = rb.heap.dataOf ∧
      ∀ c, (heap c).isSome = true ↔ c ∈ a :: (m ++ [z]) := by
  obtain ⟨b, hb⟩ : ∃ b, (m ++ [z]).head? = some b := Option.isSome_iff_exists.mp (by simp)
  have hnext : node.next = some b := by
    obtain ⟨t, ht⟩ := List.head?_eq_some_iff.mp hb
    have hcirc := h.circular
    rw [ht] at hcirc
    have hlinked : Linked _ _ a b := (List.isChain_cons_cons.mp hcirc).1
    simpa [NodeHeap.nextOf, hnode] using hlinked.1
  have htail : rb.tail = some z := by
    rw [h.tail, ← List.cons_append]
    exact List.getLast?_concat
  obtain ⟨heap₁, hheap₁, hnext₁, hprev₁, hdata₁, hsome₁⟩ :=
    NodeHeap.modify_next rb.heap ((h.stored z).mpr (by simp)) (some b)
  obtain ⟨heap₂, hheap₂, hprev₂, hnext₂, hdata₂, hsome₂⟩ :=
    NodeHeap.modify_prev heap₁ (a := b) (by
      rw [hsome₁, h.stored]
      exact List.mem_cons_of_mem _ (List.mem_of_head? hb)) (some z)
  refine ⟨hnext.trans hb.symm, heap₂, ?_, ?_, hdata₂.trans hdata₁, fun c => ?_⟩
  · simp only [LdRbuffer.unlinkHead, hnext, htail]
    exact (congrArg (Option.bind · _) hheap₁).trans hheap₂
  · rw [hnext₂, hprev₂, hnext₁, hprev₁]
    exact h.circular.unlinkHead (List.nodup_cons.mp h.nodup).2 hb
  · rw [hsome₂, hsome₁, h.stored]

/-- The other nodes stay where one is freed. -/
theorem NodeHeap.free_of_mem {heap : NodeHeap α} {b : ℕ} (ha : a ∉ l) (hb : b ∈ l) :
    heap.free (some a) b = heap b := by
  have hba : b ≠ a := fun he => ha (he ▸ hb)
  simp [NodeHeap.free, hba]

theorem NodeHeap.stored_free {heap : NodeHeap α} (ha : a ∉ l)
    (hheap : ∀ b, (heap b).isSome = true ↔ b ∈ a :: l) (b : ℕ) :
    (heap.free (some a) b).isSome = true ↔ b ∈ l := by
  by_cases hb : b = a
  · simp [NodeHeap.free, hb, ha]
  · simp [NodeHeap.free, hb, hheap]

/-- A pop takes the head. -/
theorem Rings.pop (h : Rings rb (a :: l)) (hcount : rb.count < 2 ^ 31) :
    ∃ rb', ldRbufferPop rb = some (rb', rb.heap.dataOf a, .ldOk) ∧ Rings rb' l ∧
      rb'.size = rb.size ∧ ∀ b ∈ l, rb'.heap.dataOf b = rb.heap.dataOf b := by
  have hlen := h.countEq
  have hpos : rb.count ≠ 0 := by
    rw [hlen]
    simp
    omega
  obtain ⟨node, hnode⟩ := Option.isSome_iff_exists.mp ((h.stored a).mpr (by simp))
  have hhead : rb.head = some a := h.head
  have hderef : rb.heap.deref (some a) = some node := by simp [NodeHeap.deref, hnode]
  have hbounded := h.bounded
  obtain ⟨hnotin, hnodup⟩ := List.nodup_cons.mp h.nodup
  rcases List.eq_nil_or_concat' l with rfl | ⟨m, z, rfl⟩
  · have hone : rb.count = 1 := by simpa using hlen
    have hpop : ldRbufferPop rb = some ({ rb with
        head := none, tail := none, heap := rb.heap.free (some a),
        count := i32 (rb.count - 1) }, rb.heap.dataOf a, .ldOk) := by
      simp [ldRbufferPop, hderef, hone, NodeHeap.dataOf, hnode, hhead]
    exact ⟨_, hpop, ⟨List.nodup_nil, NodeHeap.stored_free hnotin h.stored, by simp [hone, i32],
      by simp, rfl, rfl, trivial⟩, rfl, by simp⟩
  · obtain ⟨hnext, heap, hunlink, hcirc, hdata, hstored⟩ := h.unlinkHead hnode
    have hmany : rb.count ≠ 1 := by
      rw [hlen]
      simp
      omega
    have hpop : ldRbufferPop rb = some ({ rb with
        head := node.next, heap := heap.free (some a), count := i32 (rb.count - 1) },
        rb.heap.dataOf a, .ldOk) := by
      simp [ldRbufferPop, hpos, hderef, hmany, hunlink, NodeHeap.dataOf, hnode, hhead]
    refine ⟨_, hpop, ⟨hnodup, NodeHeap.stored_free hnotin hstored, ?_, ?_, hnext, ?_, ?_⟩, rfl, ?_⟩
    · rw [i32_of_lt (by omega) (by omega), hlen]
      simp
    · simpa using Nat.le_of_succ_le hbounded
    · rw [h.tail, ← List.cons_append, List.getLast?_concat, List.getLast?_concat]
    · exact hcirc.congr fun c hc => by
        simp only [NodeHeap.nextOf, NodeHeap.prevOf, NodeHeap.free_of_mem hnotin hc, and_self]
    · intro c hc
      simp only [NodeHeap.dataOf, NodeHeap.free_of_mem hnotin hc]
      exact congrFun hdata c

/-- The loop of `ld_rbuffer_check_exist` looks at the data of the nodes in order. -/
theorem checkNodes_eq {heap : NodeHeap α} {datas : List α}
    (hchain : List.IsChain (Linked heap.nextOf heap.prevOf) l)
    (hdata : l.map heap.dataOf = datas.map some) (ptr : α) (factor : α → α → Bool) :
    checkNodes heap ptr factor l.length l.head? = some (datas.any fun d => factor d ptr) := by
  induction l generalizing datas with
  | nil =>
    have hnil : datas = [] := by simpa using hdata.symm
    simp [checkNodes, hnil]
  | cons a l ih =>
    cases datas with
    | nil => simp at hdata
    | cons d datas =>
      simp only [List.map_cons, List.cons.injEq] at hdata
      obtain ⟨hd, hrest⟩ := hdata
      obtain ⟨node, hnode, rfl⟩ := Option.map_eq_some_iff.mp hd
      have htail := ih hchain.tail hrest
      have hnext : l ≠ [] → node.next = l.head? := fun hne => by
        obtain ⟨b, t, rfl⟩ := List.exists_cons_of_ne_nil hne
        have hlinked := (List.isChain_cons_cons.mp hchain).1.1
        simpa [NodeHeap.nextOf, hnode] using hlinked
      simp only [List.length_cons, List.head?_cons, checkNodes, NodeHeap.deref, Option.bind_some,
        hnode, List.any_cons]
      cases hf : factor node.data ptr with
      | true => simp
      | false =>
        by_cases hne : l = []
        · subst hne
          have hnil : datas = [] := by simpa using hrest.symm
          simp [checkNodes, hnil]
        · rw [hnext hne]
          simpa using htail

theorem HoldsList.count_eq (h : HoldsList rb list) : rb.count = list.nodes.length := by
  obtain ⟨l, hring, hdata, -⟩ := h
  have hlen := congrArg List.length hdata
  simp only [List.length_map] at hlen
  rw [hring.countEq, hlen]

theorem HoldsList.isFull_iff (h : HoldsList rb list) (hcount : rb.count < 2 ^ 31) :
    rb.isFull = true ↔ list.nodes.length ≥ list.size := by
  obtain ⟨l, hring, hdata, hsize⟩ := h
  have hlen := congrArg List.length hdata
  simp only [List.length_map] at hlen
  rw [hring.isFull_iff hcount, hsize, hlen]

/-- A push with room, at either end. -/
theorem HoldsList.push_room (h : HoldsList rb list) (ha : rb.heap a = none)
    (hroom : list.nodes.length < list.size) (hcount : rb.count + 1 < 2 ^ 31) (data : α) :
    (∃ rb', ldRbufferPushFront rb a data = some (rb', .ldOk) ∧
      HoldsList rb' { list with nodes := data :: list.nodes }) ∧
    ∃ rb', ldRbufferPushBack rb a data = some (rb', .ldOk) ∧
      HoldsList rb' { list with nodes := list.nodes ++ [data] } := by
  obtain ⟨l, hring, hdata, hsize⟩ := h
  have hlen := congrArg List.length hdata
  simp only [List.length_map] at hlen
  have hroom' : l.length < rb.size := by omega
  have hkept : l.map (Function.update rb.heap.dataOf a (some data)) = list.nodes.map some := by
    rw [← hdata]
    refine List.map_congr_left fun b hb => Function.update_of_ne ?_ _ _
    rintro rfl
    exact hring.not_mem ha hb
  constructor
  · obtain ⟨rb', hpush, hgrown⟩ := hring.pushFront ha hroom' hcount data
    exact ⟨rb', hpush, .of_grown hgrown (by simp [hgrown.2.2, hkept]) hsize⟩
  · obtain ⟨rb', hpush, hgrown⟩ := hring.pushBack ha hroom' hcount data
    exact ⟨rb', hpush, .of_grown hgrown (by simp [hgrown.2.2, hkept]) hsize⟩

/-- A push whose count overflows leaves no ring. -/
theorem HoldsList.push_overflow (h : HoldsList rb list) (hcount : rb.count < 2 ^ 31)
    (hover : ¬ (rb.count + 1 < 2 ^ 31 ∨ (rb.size : ℤ) ≤ rb.count)) {e : LErr}
    (hpush : ldRbufferPushFront rb a data = some (rb', e) ∨
      ldRbufferPushBack rb a data = some (rb', e)) (list' : RBuffer α) : ¬ HoldsList rb' list' := by
  have hlen := h.count_eq
  have hsize := h.choose_spec.2.2
  have hfull : ¬ rb.isFull = true := by
    rw [h.isFull_iff hcount]
    omega
  have hpos : rb.count ≠ 0 := by omega
  have hwrapped : rb'.count = i32 (rb.count + 1) := by
    rcases hpush with hpush | hpush
    · simp only [ldRbufferPushFront, hfull, hpos, if_false] at hpush
      obtain ⟨heap, -, heq⟩ := Option.map_eq_some_iff.mp hpush
      rw [← (Prod.mk.inj heq).1]
    · simp only [ldRbufferPushBack, hfull, hpos, if_false] at hpush
      obtain ⟨heap, -, heq⟩ := Option.map_eq_some_iff.mp hpush
      rw [← (Prod.mk.inj heq).1]
  intro hholds
  have hnegative : i32 (rb.count + 1) = -2 ^ 31 := by
    rw [show rb.count + 1 = 2 ^ 31 by omega]
    rfl
  have hcount' := hholds.count_eq
  omega

end LdacsSdk
