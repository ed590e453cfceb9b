import LdacsSdk.Core.Sifting
import LdacsSdk.Library.Feeding

/-!
# Repairing the heap of pointers

The sifts again, with the indices as the `int`s they are in the code and every access checked: a
read of `hps` outside of the heap, a store behind the array or a failed `assert` has no value. From
a slot of the heap these are the sifts without the checks, so that they restore the order.
-/
namespace LdacsSdk

open Library

/-- `MAX_HEAP`. -/
def HeapDesc.maxHeap : ℕ := 8192

/-- `LCHILD`. -/
def lchildOf (x : ℤ) : ℤ := 2 * x + 1

/-- `RCHILD`. -/
def rchildOf (x : ℤ) : ℤ := lchildOf x + 1

/-- `PARENT`, an arithmetic shift. -/
def parentOf (x : ℤ) : ℤ := (x - 1) >>> (1 : ℕ)

/-- `INHEAP`. -/
def InHeap (n x : ℤ) : Prop := -1 < x ∧ x < n

instance (n x : ℤ) : Decidable (InHeap n x) := inferInstanceAs (Decidable (_ ∧ _))

variable {κ : Type}

/-- `hps[x]->factor`, for a slot of the heap. -/
def HeapDesc.factorAt (hd : HeapDesc κ) (x : ℤ) : Option κ :=
  if InHeap hd.heapSize x then some (hd.factor x.toNat) else none

/-- `c_swap`. -/
def cSwapChecked (hd : HeapDesc κ) (x y : ℤ) : Option (HeapDesc κ) :=
  if x ≥ 0 ∧ x < hd.heapSize ∧ y ≥ 0 ∧ y < hd.heapSize then cSwap hd x.toNat y.toNat else none

section Order

variable [LinearOrder κ]

/-- One round of `heap_bubble_up`. -/
def bubbleUpRoundChecked (s : HeapDesc κ × ℤ) : Option (Round (HeapDesc κ × ℤ)) := do
  let (hd, idx) := s
  if parentOf idx ≥ 0 then
    let fidx := parentOf idx
    let c ← hd.factorAt idx
    let fc ← hd.factorAt fidx
    if c ≥ fc then return .leave s
    return .again (← cSwapChecked hd idx fidx, fidx)
  else return .leave s

/-- `heap_bubble_up`. -/
def heapBubbleUpChecked (fuel : ℕ) (hd : HeapDesc κ) (idx : ℤ) : Option (HeapDesc κ) :=
  (whileLoop bubbleUpRoundChecked fuel (hd, idx)).map Prod.fst

/-- `heap_insert`. -/
def heapInsertChecked (fuel : ℕ) (hd : HeapDesc κ) (obj : ℕ) (factor : κ) :
    Option (HeapDesc κ) :=
  let hd' := hd.push obj factor
  if hd.heapSize < HeapDesc.maxHeap then
    heapBubbleUpChecked fuel hd' ((hd'.heapSize : ℤ) - 1)
  else none

/-- The child with which slot `idx` is compared, if there is one. -/
def properChildChecked (hd : HeapDesc κ) (idx : ℤ) : Option (Option ℤ) := do
  let n : ℤ := hd.heapSize
  let lchild := if InHeap n (lchildOf idx) then lchildOf idx else n + 1
  let rchild := if InHeap n (rchildOf idx) then rchildOf idx else n + 1
  if lchild > n ∧ rchild > n then return none
  else if InHeap n lchild ∧ InHeap n rchild then
    let l ← hd.factorAt lchild
    let r ← hd.factorAt rchild
    return some (if l < r then lchild else rchild)
  else if lchild > n then return some rchild
  else return some lchild

/-- One round of `heap_bubble_down`. -/
def bubbleDownRoundChecked (s : HeapDesc κ × ℤ) : Option (Round (HeapDesc κ × ℤ)) := do
  let (hd, idx) := s
  match ← properChildChecked hd idx with
  | none => return .leave s
  | some child =>
    let c ← hd.factorAt idx
    let cc ← hd.factorAt child
    if c ≤ cc then return .leave s
    if ¬ InHeap hd.heapSize child then none
    else return .again (← cSwapChecked hd idx child, child)

/-- `heap_bubble_down`. -/
def heapBubbleDownChecked (fuel : ℕ) (hd : HeapDesc κ) (idx : ℤ) : Option (HeapDesc κ) :=
  (whileLoop bubbleDownRoundChecked fuel (hd, idx)).map Prod.fst

end Order

namespace HeapDesc

variable {hd : HeapDesc κ} {i j : ℕ}

theorem parentOf_pos (hi : 0 < i) : parentOf i = parent i := by
  rw [parentOf, Int.shiftRight_eq_div_pow, parent]
  omega

theorem inHeap_natCast : InHeap hd.heapSize i ↔ i < hd.heapSize := by
  unfold InHeap
  omega

theorem factorAt_natCast (hi : i < hd.heapSize) : hd.factorAt i = some (hd.factor i) := by
  rw [factorAt, if_pos (inHeap_natCast.mpr hi), Int.toNat_natCast]

theorem cSwapChecked_natCast (hi : i < hd.heapSize) (hj : j < hd.heapSize) :
    cSwapChecked hd i j = cSwap hd i j := by
  rw [cSwapChecked, if_pos (by omega), Int.toNat_natCast, Int.toNat_natCast]

/-- A state of a sift with its index as an `int`. -/
def withInt (s : HeapDesc κ × ℕ) : HeapDesc κ × ℤ := (s.1, s.2)

theorem heapSize_of_cSwap {hd' : HeapDesc κ} (h : cSwap hd i j = some hd') :
    hd'.heapSize = hd.heapSize := by
  unfold cSwap at h
  split_ifs at h
  cases h
  rfl

theorem nodes_push (h : hd.Wired) (obj : ℕ) (factor : κ) :
    (hd.push obj factor).nodes = hd.nodes ++ [hd.allocated] := by
  have hsize : (hd.push obj factor).heapSize = hd.heapSize + 1 := rfl
  have hlast : (hd.push obj factor).hps hd.heapSize = hd.allocated := by simp [push]
  unfold nodes
  rw [hsize, List.range_succ, List.map_append, List.map_singleton, hlast]
  congr 1
  exact List.map_congr_left fun i hi => (node_push h obj factor (List.mem_range.mp hi)).1

variable [LinearOrder κ]

theorem bubbleUpRoundChecked_eq (hi : i < hd.heapSize) :
    bubbleUpRoundChecked (hd, (i : ℤ)) = (bubbleUpRound (hd, i)).map (Round.map withInt) := by
  rcases Nat.eq_zero_or_pos i with rfl | hpos
  · rfl
  · have hp : parent i < hd.heapSize := (parent_lt hpos).trans hi
    have hround : bubbleUpRoundChecked (hd, (i : ℤ)) =
        if hd.factor i ≥ hd.factor (parent i) then some (.leave (hd, (i : ℤ)))
        else (cSwap hd i (parent i)).map fun hd' => .again (hd', (parent i : ℤ)) := by
      simp only [bubbleUpRoundChecked, parentOf_pos hpos, ge_iff_le, Nat.cast_nonneg, if_true,
        factorAt_natCast hi, factorAt_natCast hp, cSwapChecked_natCast hi hp,
        Option.bind_eq_bind, Option.bind_some, Option.pure_def]
      split_ifs
      · rfl
      · rw [Option.map_eq_bind]
        rfl
    rw [hround]
    simp only [bubbleUpRound, if_pos hpos]
    split_ifs
    · rfl
    · rw [Option.map_map]
      rfl

theorem lt_of_bubbleUpRound {hd' : HeapDesc κ} (hi : i < hd.heapSize)
    (h : bubbleUpRound (hd, i) = some (.again (hd', j))) : j < hd'.heapSize := by
  unfold bubbleUpRound at h
  dsimp only at h
  split_ifs at h with hpos hle
  · simp at h
  · obtain ⟨hd₁, hswap, hagain⟩ := Option.map_eq_some_iff.mp h
    cases hagain
    rw [heapSize_of_cSwap hswap]
    exact (parent_lt hpos).trans hi
  · simp at h

/-- A sift up without the checks is one with them. -/
theorem heapBubbleUpChecked_of {fuel k : ℕ} {hd' : HeapDesc κ} (hi : i < hd.heapSize)
    (h : whileLoop bubbleUpRound fuel (hd, i) = some (hd', k)) :
    ∃ fuel', ∀ n, heapBubbleUpChecked (fuel' + n) hd i = some hd' := by
  have hleaves : LeavesWith bubbleUpRoundChecked (withInt (hd, i)) (withInt (hd', k)) := by
    apply whileLoop_view withInt (I := fun s : HeapDesc κ × ℕ => s.2 < s.1.heapSize) _ _ hi h
    · intro s r hs hbody
      rw [withInt, bubbleUpRoundChecked_eq hs, hbody]
      rfl
    · intro s s' hs hbody
      exact lt_of_bubbleUpRound hs hbody
  obtain ⟨fuel', hfuel'⟩ := hleaves
  exact ⟨fuel', fun n => congrArg (Option.map Prod.fst) (hfuel' n)⟩

theorem properChildChecked_eq (hd : HeapDesc κ) (i : ℕ) :
    properChildChecked hd i = some ((properChild hd i).map fun c => (c : ℤ)) := by
  have hl : lchildOf i = ((2 * i + 1 : ℕ) : ℤ) := by simp [lchildOf]
  have hr : rchildOf i = ((2 * i + 2 : ℕ) : ℤ) := by simp [rchildOf, lchildOf]; ring
  rw [properChild_eq]
  unfold properChildChecked
  simp only [hl, hr, inHeap_natCast]
  by_cases hln : 2 * i + 1 < hd.heapSize
  · by_cases hrn : 2 * i + 2 < hd.heapSize
    · rw [if_pos hln, if_pos hrn, if_neg (by omega),
        if_pos ⟨inHeap_natCast.mpr hln, inHeap_natCast.mpr hrn⟩, factorAt_natCast hln,
        factorAt_natCast hrn, if_pos hln]
      by_cases hlt : hd.factor (2 * i + 1) < hd.factor (2 * i + 2)
      · rw [if_neg fun hle => not_le.mpr hlt hle.2]
        simp [hlt]
      · rw [if_pos ⟨hrn, not_lt.mp hlt⟩]
        simp [hlt]
    · rw [if_pos hln, if_neg hrn, if_neg (by omega), if_neg fun h => by
        have := h.2.2
        omega, if_neg (by omega), if_pos hln, if_neg fun h => hrn h.1]
      rfl
  · have hrn : ¬ 2 * i + 2 < hd.heapSize := by omega
    rw [if_neg hln, if_neg hrn, if_pos (by omega), if_neg hln]
    rfl

theorem bubbleDownRoundChecked_eq (hd : HeapDesc κ) (i : ℕ) :
    bubbleDownRoundChecked (hd, (i : ℤ)) = (bubbleDownRound (hd, i)).map (Round.map withInt) := by
  cases hchild : properChild hd i with
  | none =>
    simp [bubbleDownRoundChecked, properChildChecked_eq, bubbleDownRound_none hchild, hchild,
      Round.map, withInt]
  | some c =>
    obtain ⟨hcn, hc, hci, -⟩ := properChild_spec hchild
    have hi : i < hd.heapSize := (hci ▸ parent_lt hc).trans hcn
    simp only [bubbleDownRoundChecked, properChildChecked_eq, bubbleDownRound_some hchild, hchild,
      Option.map_some,
      factorAt_natCast hi, factorAt_natCast hcn, cSwapChecked_natCast hi hcn,
      not_not.mpr (inHeap_natCast.mpr hcn), Option.bind_eq_bind, Option.bind_some,
      Option.pure_def, if_false]
    split_ifs
    · rfl
    · rw [Option.map_map, Option.map_eq_bind]
      rfl

/-- A sift down without the checks is one with them. -/
theorem heapBubbleDownChecked_of {fuel k : ℕ} {hd' : HeapDesc κ}
    (h : whileLoop bubbleDownRound fuel (hd, i) = some (hd', k)) :
    ∃ fuel', ∀ n, heapBubbleDownChecked (fuel' + n) hd i = some hd' := by
  have hleaves : LeavesWith bubbleDownRoundChecked (withInt (hd, i)) (withInt (hd', k)) := by
    apply whileLoop_view withInt (I := fun _ : HeapDesc κ × ℕ => True) _ _ trivial h
    · intro s r _ hbody
      rw [withInt, bubbleDownRoundChecked_eq, hbody]
      rfl
    · intro _ _ _ _
      trivial
  obtain ⟨fuel', hfuel'⟩ := hleaves
  exact ⟨fuel', fun n => congrArg (Option.map Prod.fst) (hfuel' n)⟩

/-- The order is there again, with the same nodes, each told of its slot. -/
structure Repaired (hd hd' : HeapDesc κ) : Prop extends Rearranged hd hd' where
  ordered : hd'.Ordered

/-- The new node has come in, and the heap is in order. -/
structure Grown (hd hd' : HeapDesc κ) (obj : ℕ) (factor : κ) : Prop where
  wired : hd'.Wired
  ordered : hd'.Ordered
  nodesPerm : hd'.nodes.Perm (hd.allocated :: hd.nodes)
  added : (hd'.node hd.allocated).content = (obj, factor)
  content : ∀ p ∈ hd.nodes, (hd'.node p).content = (hd.node p).content

theorem bubbleUp_repairs (h : hd.Wired) (hi : i < hd.heapSize)
    (hup : UpOrder hd.heapSize hd.factor i) :
    ∃ hd', (∃ fuel, ∀ n, heapBubbleUpChecked (fuel + n) hd i = some hd') ∧ Repaired hd hd' := by
  obtain ⟨hd', k, hloop, hre, hord, -⟩ := bubbleUp_spec h hi (Nat.lt_succ_self i)
  exact ⟨hd', heapBubbleUpChecked_of hi hloop, ⟨hre, hord hup⟩⟩

theorem bubbleDown_repairs (h : hd.Wired) (hdown : DownOrder hd.heapSize hd.factor i) :
    ∃ hd', (∃ fuel, ∀ n, heapBubbleDownChecked (fuel + n) hd i = some hd') ∧ Repaired hd hd' := by
  obtain ⟨hd', k, hloop, hre, hord⟩ := bubbleDown_spec h (Nat.lt_succ_of_le (Nat.sub_le _ i))
  exact ⟨hd', heapBubbleDownChecked_of hloop, ⟨hre, hord hdown⟩⟩

theorem insert_grows (h : hd.Wired) (hord : hd.Ordered) (hroom : hd.heapSize < maxHeap) (obj : ℕ)
    (factor : κ) :
    ∃ hd', (∃ fuel, ∀ n, heapInsertChecked (fuel + n) hd obj factor = some hd') ∧
      Grown hd hd' obj factor := by
  have hup : UpOrder (hd.push obj factor).heapSize (hd.push obj factor).factor hd.heapSize :=
    hord.push fun i hi => congrArg Prod.snd (entry_push h obj factor hi)
  obtain ⟨hd', ⟨fuel, hfuel⟩, hre⟩ :=
    bubbleUp_repairs (h.push obj factor) (Nat.lt_succ_self hd.heapSize) hup
  refine ⟨hd', ⟨fuel, fun n => ?_⟩, ?_⟩
  · have hidx : ((hd.push obj factor).heapSize : ℤ) - 1 = hd.heapSize := by simp [push]
    simp only [heapInsertChecked, if_pos hroom, hidx, hfuel]
  · refine ⟨hre.wired, hre.ordered, ?_, ?_, fun p hp => ?_⟩
    · have hperm := hre.nodesPerm
      rw [nodes_push h] at hperm
      exact hperm.trans (List.perm_append_singleton _ _)
    · rw [hre.content]
      simp [push, HeapNode.content]
    · obtain ⟨i, hi, rfl⟩ := List.mem_map.mp hp
      rw [hre.content, (node_push h obj factor (List.mem_range.mp hi)).2]

/-- A sift from the one slot that may be out of order repairs the heap, and an insertion keeps it
in order. -/
theorem sift_repairs (h : hd.Wired) (i obj : ℕ) (factor : κ) :
    (i < hd.heapSize → UpOrder hd.heapSize hd.factor i →
      ∃ hd', (∃ fuel, ∀ n, heapBubbleUpChecked (fuel + n) hd i = some hd') ∧ Repaired hd hd') ∧
    (DownOrder hd.heapSize hd.factor i →
      ∃ hd', (∃ fuel, ∀ n, heapBubbleDownChecked (fuel + n) hd i = some hd') ∧ Repaired hd hd') ∧
    (hd.Ordered → hd.heapSize < maxHeap →
      ∃ hd', (∃ fuel, ∀ n, heapInsertChecked (fuel + n) hd obj factor = some hd') ∧
        Grown hd hd' obj factor) :=
  ⟨bubbleUp_repairs h, bubbleDown_repairs h, fun hord hroom => insert_grows h hord hroom obj factor⟩

/-- Two nodes, the lower one with the smaller factor. -/
def twoNodes : HeapDesc ℤ where
  hps := id
  heapSize := 2
  node := fun p => { heapIdx := p, factor := if p = 0 then 5 else -3 }
  allocated := 2

theorem sift_repairs_two :
    (∃ hd', (∃ fuel, ∀ n, heapBubbleUpChecked (fuel + n) twoNodes 1 = some hd') ∧
      Repaired twoNodes hd') ∧
    (∃ hd', (∃ fuel, ∀ n, heapBubbleDownChecked (fuel + n) twoNodes 0 = some hd') ∧
      Repaired twoNodes hd') ∧
    ∃ hd', (∃ fuel, ∀ n, heapInsertChecked (fuel + n) initHeapDesc 7 (-1 : ℤ) = some hd') ∧
      Grown initHeapDesc hd' 7 (-1) := by
  have hwired : twoNodes.Wired := ⟨fun _ _ => rfl, fun _ hi => hi⟩
  refine ⟨(sift_repairs hwired 1 0 0).1 (by decide) ⟨?_, ?_⟩,
    (sift_repairs hwired 0 0 0).2.1 ⟨?_, ?_⟩,
    (sift_repairs wired_init 0 7 (-1)).2.2 (fun i _ hi => absurd hi (Nat.not_lt_zero i))
      (by decide)⟩
  · intro j hj hj2 hne
    exact absurd (show j < 2 from hj2) (by omega)
  · intro _ j hj hj2 hp
    have hp' := (parent_eq_iff hj).mp hp
    exact absurd (show j < 2 from hj2) (by omega)
  · intro j hj hj2 hp
    have hj1 : j = 1 := by
      have hlt : j < 2 := hj2
      omega
    subst hj1
    exact absurd rfl hp
  · intro h0
    exact absurd h0 (Nat.lt_irrefl 0)

end HeapDesc

end LdacsSdk
