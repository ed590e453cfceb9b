import LdacsSdk.Library.HeapOrder
import LdacsSdk.Library.Loops

/-!
# The heap of pointers

`ld_heap` keeps pointers to separately allocated nodes, each of which knows the slot it stands
in. The nodes are held in a memory by their addresses, and a node's address is never used again.
The `assert`s of the code are kept: an operation that fails one has no value.
-/
namespace LdacsSdk

open Library

/-- `heap_t`; an object is known by its address, and the factors are times in most uses. -/
structure HeapNode (κ : Type := ℕ) where
  heapIdx : ℕ := 0
  factor : κ
  obj : ℕ := 0
  deriving DecidableEq, Repr

/-- `heap_desc_t` and the nodes allocated so far. -/
structure HeapDesc (κ : Type := ℕ) where
  hps : ℕ → ℕ
  heapSize : ℕ
  node : ℕ → HeapNode κ
  allocated : ℕ

variable {κ : Type}

/-- `init_heap_desc`. -/
def initHeapDesc [Zero κ] : HeapDesc κ where
  hps := fun _ => 0
  heapSize := 0
  node := fun _ => { factor := 0 }
  allocated := 0

namespace HeapDesc

/-- `hps[i]->factor`. -/
def factor (hd : HeapDesc κ) (i : ℕ) : κ := (hd.node (hd.hps i)).factor

/-- `hps[i]->obj`. -/
def obj (hd : HeapDesc κ) (i : ℕ) : ℕ := (hd.node (hd.hps i)).obj

/-- `hps[i]->heap_idx = i`. -/
def setIdx (hd : HeapDesc κ) (i : ℕ) : HeapDesc κ :=
  { hd with
    node := Function.update hd.node (hd.hps i) { hd.node (hd.hps i) with heapIdx := i } }

/-- `hps[i] = p`. -/
def setHps (hd : HeapDesc κ) (i p : ℕ) : HeapDesc κ := { hd with hps := Function.update hd.hps i p }

end HeapDesc

/-- `c_swap`. -/
def cSwap (hd : HeapDesc κ) (x y : ℕ) : Option (HeapDesc κ) :=
  if x < hd.heapSize ∧ y < hd.heapSize then
    some ((((hd.setHps x (hd.hps y)).setHps y (hd.hps x)).setIdx x).setIdx y)
  else none

/-- One round of `heap_bubble_up`; `PARENT(0)` is negative. -/
def bubbleUpRound [LinearOrder κ] (s : HeapDesc κ × ℕ) : Option (Round (HeapDesc κ × ℕ)) :=
  let (hd, idx) := s
  if 0 < idx then
    if hd.factor idx ≥ hd.factor (parent idx) then some (.leave s)
    else (cSwap hd idx (parent idx)).map fun hd' => .again (hd', parent idx)
  else some (.leave s)

/-- `heap_bubble_up`: the heap and the slot where it stops. -/
def heapBubbleUp [LinearOrder κ] (hd : HeapDesc κ) (idx : ℕ) : Option (HeapDesc κ × ℕ) :=
  whileLoop bubbleUpRound (idx + 1) (hd, idx)

/-- A new node of an object in the slot behind the last one. -/
def HeapDesc.push (hd : HeapDesc κ) (obj : ℕ) (factor : κ) : HeapDesc κ where
  hps := Function.update hd.hps hd.heapSize hd.allocated
  heapSize := hd.heapSize + 1
  node := Function.update hd.node hd.allocated { heapIdx := hd.heapSize, factor, obj }
  allocated := hd.allocated + 1

/-- `heap_insert`. -/
def heapInsert [LinearOrder κ] (hd : HeapDesc κ) (obj : ℕ) (factor : κ) : Option (HeapDesc κ) :=
  let hd' := hd.push obj factor
  (heapBubbleUp hd' (hd'.heapSize - 1)).map Prod.fst

/-- The child with which `heap_bubble_down` compares slot `idx`, if there is one. A child outside
of the heap is replaced by the number `heap_size + 1`. -/
def properChild [LinearOrder κ] (hd : HeapDesc κ) (idx : ℕ) : Option ℕ :=
  let lchild := if 2 * idx + 1 < hd.heapSize then 2 * idx + 1 else hd.heapSize + 1
  let rchild := if 2 * idx + 2 < hd.heapSize then 2 * idx + 2 else hd.heapSize + 1
  if lchild > hd.heapSize ∧ rchild > hd.heapSize then none
  else if lchild < hd.heapSize ∧ rchild < hd.heapSize then
    if hd.factor lchild < hd.factor rchild then some lchild else some rchild
  else if lchild > hd.heapSize then some rchild
  else some lchild

/-- One round of `heap_bubble_down`. -/
def bubbleDownRound [LinearOrder κ] (s : HeapDesc κ × ℕ) : Option (Round (HeapDesc κ × ℕ)) :=
  let (hd, idx) := s
  match properChild hd idx with
  | none => some (.leave s)
  | some child =>
    if hd.factor idx ≤ hd.factor child then some (.leave s)
    else (cSwap hd idx child).map fun hd' => .again (hd', child)

/-- `heap_bubble_down`: the heap and the slot where it stops. -/
def heapBubbleDown [LinearOrder κ] (hd : HeapDesc κ) (idx : ℕ) : Option (HeapDesc κ × ℕ) :=
  whileLoop bubbleDownRound (hd.heapSize + 1) (hd, idx)

/-- `get_heap`: the address of the first node of an object. -/
def getHeap (hd : HeapDesc κ) (objP : ℕ) : Option ℕ :=
  ((List.range hd.heapSize).map hd.hps).find? fun p => (hd.node p).obj == objP

/-- What a node holds: its object and its factor. -/
def HeapNode.content (n : HeapNode κ) : ℕ × κ := (n.obj, n.factor)

namespace HeapDesc

/-- The addresses of the nodes in the heap, slot by slot. -/
def nodes (hd : HeapDesc κ) : List ℕ := (List.range hd.heapSize).map hd.hps

/-- The object and the factor in slot `i`. -/
def entry (hd : HeapDesc κ) (i : ℕ) : ℕ × κ := (hd.obj i, hd.factor i)

/-- The objects in the heap with their factors, slot by slot. -/
def entries (hd : HeapDesc κ) : List (ℕ × κ) := (List.range hd.heapSize).map hd.entry

/-- The slots below `heap_size` hold different nodes, and each node knows its slot. -/
structure Wired (hd : HeapDesc κ) : Prop where
  idxEq : ∀ i < hd.heapSize, (hd.node (hd.hps i)).heapIdx = i
  allocLt : ∀ i < hd.heapSize, hd.hps i < hd.allocated

/-- No factor is smaller than the one above it. -/
def Ordered [LinearOrder κ] (hd : HeapDesc κ) : Prop := HeapOrder hd.heapSize hd.factor

variable {hd hd' : HeapDesc κ} {i j : ℕ}

theorem Wired.hps_inj (h : hd.Wired) (hi : i < hd.heapSize) (hj : j < hd.heapSize)
    (he : hd.hps i = hd.hps j) : i = j := by
  rw [← h.idxEq i hi, ← h.idxEq j hj, he]

theorem wired_init [Zero κ] : (initHeapDesc : HeapDesc κ).Wired := by
  constructor <;> simp [initHeapDesc]

@[simp] theorem entry_fst : (hd.entry i).1 = hd.obj i := rfl

@[simp] theorem entry_snd : (hd.entry i).2 = hd.factor i := rfl

theorem entry_content (hd : HeapDesc κ) (i : ℕ) : (hd.node (hd.hps i)).content = hd.entry i := rfl

theorem length_entries : hd.entries.length = hd.heapSize := by simp [entries]

theorem entries_eq (hd : HeapDesc κ) : hd.entries = hd.nodes.map fun p => (hd.node p).content := by
  rw [entries, nodes, List.map_map]
  rfl

/-- Writing a slot's number into its node changes no content. -/
@[simp] theorem content_setIdx (i p : ℕ) :
    ((hd.setIdx i).node p).content = (hd.node p).content := by
  simp only [setIdx, Function.update_apply]
  split_ifs with h
  · rw [h]
    rfl
  · rfl

@[simp] theorem entry_setIdx (i j : ℕ) : (hd.setIdx i).entry j = hd.entry j :=
  content_setIdx i (hd.hps j)

theorem heapIdx_setIdx (hd : HeapDesc κ) (i j : ℕ) :
    ((hd.setIdx i).node ((hd.setIdx i).hps j)).heapIdx =
      if hd.hps j = hd.hps i then i else (hd.node (hd.hps j)).heapIdx := by
  simp only [setIdx, Function.update_apply]
  split_ifs <;> rfl

end HeapDesc

end LdacsSdk
