import LdacsSdk.Core.Heap

/-!
# Sifting in the heap of pointers

The swaps of a sift move the entries of the heap about and keep every node told of its slot. A
sift from the one slot that may be out of order leaves a heap in order.
-/
namespace LdacsSdk

open Library

namespace HeapDesc

variable {κ : Type} {hd hd' : HeapDesc κ} {i j : ℕ}

/-- A node that stands in one slot only is told that slot. -/
theorem wired_setIdx (hd : HeapDesc κ) (i : ℕ)
    (honly : ∀ k < hd.heapSize, hd.hps k = hd.hps i → k = i)
    (hidx : ∀ k < hd.heapSize, k ≠ i → (hd.node (hd.hps k)).heapIdx = k)
    (halloc : ∀ k < hd.heapSize, hd.hps k < hd.allocated) : (hd.setIdx i).Wired := by
  refine ⟨fun k hk => ?_, halloc⟩
  rw [heapIdx_setIdx]
  split_ifs with he
  · exact (honly k hk he).symm
  · apply hidx k hk
    rintro rfl
    exact he rfl

theorem cSwap_spec (h : hd.Wired) (hi : i < hd.heapSize) (hj : j < hd.heapSize) :
    ∃ hd', cSwap hd i j = some hd' ∧ hd'.Wired ∧ hd'.heapSize = hd.heapSize ∧
      hd'.hps = hd.hps ∘ Equiv.swap i j ∧
      ∀ p, (hd'.node p).content = (hd.node p).content := by
  have hhps : (hd.setHps i (hd.hps j)).setHps j (hd.hps i) =
      { hd with hps := hd.hps ∘ Equiv.swap i j } := by
    have hswap := Equiv.comp_swap_eq_update j i hd.hps
    rw [Equiv.swap_comm] at hswap
    simp only [setHps, hswap]
  have hlt {k : ℕ} (hk : k < hd.heapSize) : Equiv.swap i j k < hd.heapSize := by
    rw [Equiv.swap_apply_def]
    split_ifs <;> assumption
  have hinj {k l : ℕ} (hk : k < hd.heapSize) (hl : l < hd.heapSize)
      (he : hd.hps (Equiv.swap i j k) = hd.hps (Equiv.swap i j l)) : k = l :=
    (Equiv.swap i j).injective (h.hps_inj (hlt hk) (hlt hl) he)
  refine ⟨_, if_pos ⟨hi, hj⟩, ?_, rfl, ?_, ?_⟩
  · rw [hhps]
    apply wired_setIdx
    · intro k hk he
      exact hinj hk hj he
    · intro k hk hkj
      rw [heapIdx_setIdx]
      split_ifs with he
      · exact (hinj hk hi he).symm
      · have hki : k ≠ i := by
          rintro rfl
          exact he rfl
        have hsame : Equiv.swap i j k = k := Equiv.swap_apply_of_ne_of_ne hki hkj
        simp only [Function.comp_apply, hsame]
        exact h.idxEq k hk
    · intro k hk
      exact h.allocLt _ (hlt hk)
  · rw [hhps]
    rfl
  · intro p
    rw [hhps, content_setIdx, content_setIdx]

/-- One heap holds the nodes of another, in an order of its own. -/
structure Rearranged (hd hd' : HeapDesc κ) : Prop where
  wired : hd'.Wired
  nodesPerm : hd'.nodes.Perm hd.nodes
  content : ∀ p, (hd'.node p).content = (hd.node p).content

theorem Rearranged.entriesPerm (h : Rearranged hd hd') : hd'.entries.Perm hd.entries := by
  rw [entries_eq, entries_eq, funext h.content]
  exact h.nodesPerm.map _

theorem Rearranged.heapSize_eq (h : Rearranged hd hd') : hd'.heapSize = hd.heapSize := by
  rw [← length_entries, ← length_entries, h.entriesPerm.length_eq]

theorem Rearranged.refl (h : hd.Wired) : Rearranged hd hd := ⟨h, .refl _, fun _ => rfl⟩

theorem Rearranged.trans {hd'' : HeapDesc κ} (h : Rearranged hd hd') (h' : Rearranged hd' hd'') :
    Rearranged hd hd'' :=
  ⟨h'.wired, h'.nodesPerm.trans h.nodesPerm, fun p => (h'.content p).trans (h.content p)⟩

theorem cSwap_rearranged (h : hd.Wired) (hi : i < hd.heapSize) (hj : j < hd.heapSize) :
    ∃ hd', cSwap hd i j = some hd' ∧ Rearranged hd hd' ∧
      hd'.entry = hd.entry ∘ Equiv.swap i j := by
  obtain ⟨hd', hswap, hwired, hsize, hhps, hcontent⟩ := cSwap_spec h hi hj
  refine ⟨hd', hswap, ⟨hwired, ?_, hcontent⟩, funext fun k => ?_⟩
  · rw [nodes, hsize, hhps]
    exact map_swap_perm hd.hps hi hj
  · have hnode := hcontent (hd'.hps k)
    rw [hhps] at hnode
    rw [Function.comp_apply, ← entry_content, ← entry_content, hhps, hnode, Function.comp_apply]

theorem factor_eq_comp (h : hd'.entry = hd.entry ∘ Equiv.swap i j) :
    hd'.factor = hd.factor ∘ Equiv.swap i j :=
  funext fun k => congrArg Prod.snd (congrFun h k)

section Order

variable [LinearOrder κ]

/-- Sifting up from the one slot that may be too small for its place. -/
theorem bubbleUp_spec {fuel : ℕ} (h : hd.Wired) (hi : i < hd.heapSize) (hfuel : i < fuel) :
    ∃ hd' k, whileLoop bubbleUpRound fuel (hd, i) = some (hd', k) ∧ Rearranged hd hd' ∧
      (UpOrder hd.heapSize hd.factor i → hd'.Ordered) ∧ k ≤ i ∧ hd'.entry k = hd.entry i ∧
      ∀ j < k, hd'.entry j = hd.entry j := by
  induction fuel generalizing hd i with
  | zero => omega
  | succ fuel ih =>
    by_cases hstop : 0 < i ∧ hd.factor i < hd.factor (parent i)
    · have hpi := parent_lt hstop.1
      obtain ⟨hd₁, hswap, hre, hentry⟩ := cSwap_rearranged h hi (hpi.trans hi)
      have hsize := hre.heapSize_eq
      have hup₁ (hup : UpOrder hd.heapSize hd.factor i) :
          UpOrder hd₁.heapSize hd₁.factor (parent i) := by
        rw [hsize, factor_eq_comp hentry]
        exact hup.swap hstop.1 hi hstop.2
      obtain ⟨hd', k, hloop, hre', hord, hk, hat, hfront⟩ :=
        ih hre.wired (i := parent i) (by omega) (by omega)
      refine ⟨hd', k, ?_, hre.trans hre', fun hup => hord (hup₁ hup), by omega, ?_,
        fun j hj => ?_⟩
      · simp only [whileLoop, bubbleUpRound, if_pos hstop.1, if_neg (not_le.mpr hstop.2),
          hswap, Option.map_some, hloop, ge_iff_le]
      · rw [hat, hentry]
        simp
      · rw [hfront j hj, hentry, Function.comp_apply,
          Equiv.swap_apply_of_ne_of_ne (by omega) (by omega)]
    · have hord (hup : UpOrder hd.heapSize hd.factor i) : hd.Ordered := by
        apply hup.heap
        intro hpos _
        by_contra hlt
        exact hstop ⟨hpos, lt_of_not_ge hlt⟩
      refine ⟨hd, i, ?_, .refl h, hord, le_rfl, rfl, fun _ _ => rfl⟩
      simp only [whileLoop, bubbleUpRound]
      split_ifs with hpos hle
      · rfl
      · exact absurd ⟨hpos, lt_of_not_ge hle⟩ hstop
      · rfl

theorem properChild_eq (hd : HeapDesc κ) (i : ℕ) : properChild hd i =
    if 2 * i + 1 < hd.heapSize then
      if 2 * i + 2 < hd.heapSize ∧ hd.factor (2 * i + 2) ≤ hd.factor (2 * i + 1) then
        some (2 * i + 2)
      else some (2 * i + 1)
    else none := by
  unfold properChild
  by_cases hl : 2 * i + 1 < hd.heapSize
  · by_cases hr : 2 * i + 2 < hd.heapSize
    · simp only [if_pos hl, if_pos hr]
      rw [if_neg (by omega), if_pos ⟨hl, hr⟩]
      by_cases hlt : hd.factor (2 * i + 1) < hd.factor (2 * i + 2)
      · rw [if_pos hlt, if_neg fun hle => not_le.mpr hlt hle.2]
      · rw [if_neg hlt, if_pos ⟨hr, not_lt.mp hlt⟩]
    · simp only [if_pos hl, if_neg hr]
      rw [if_neg (by omega), if_neg (by omega), if_neg (by omega), if_neg fun hle => hr hle.1]
  · have hr : ¬2 * i + 2 < hd.heapSize := by omega
    simp [hl, hr]

theorem properChild_none (h : properChild hd i = none) {j : ℕ} (hj : 0 < j)
    (hji : parent j = i) : hd.heapSize ≤ j := by
  have hcases := (parent_eq_iff hj).mp hji
  rw [properChild_eq] at h
  split_ifs at h
  omega

/-- The child looked at is in the heap and no greater than the other one. -/
theorem properChild_spec {c : ℕ} (h : properChild hd i = some c) :
    c < hd.heapSize ∧ 0 < c ∧ parent c = i ∧
      ∀ j, 0 < j → j < hd.heapSize → parent j = i → hd.factor c ≤ hd.factor j := by
  rw [properChild_eq] at h
  split_ifs at h with hl hr
  · obtain rfl := Option.some.inj h
    refine ⟨hr.1, by omega, (parent_eq_iff (by omega)).mpr (.inr rfl), fun j hj _ hji => ?_⟩
    rcases (parent_eq_iff hj).mp hji with rfl | rfl
    · exact hr.2
    · exact le_rfl
  · obtain rfl := Option.some.inj h
    refine ⟨hl, by omega, (parent_eq_iff (by omega)).mpr (.inl rfl), fun j hj hjn hji => ?_⟩
    rcases (parent_eq_iff hj).mp hji with rfl | rfl
    · exact le_rfl
    · by_contra hlt
      exact hr ⟨hjn, (lt_of_not_ge hlt).le⟩

theorem bubbleDownRound_none (h : properChild hd i = none) :
    bubbleDownRound (hd, i) = some (.leave (hd, i)) := by
  simp only [bubbleDownRound, h]

theorem bubbleDownRound_some {c : ℕ} (h : properChild hd i = some c) :
    bubbleDownRound (hd, i) =
      if hd.factor i ≤ hd.factor c then some (.leave (hd, i))
      else (cSwap hd i c).map fun hd' => .again (hd', c) := by
  simp only [bubbleDownRound, h]

/-- Sifting down from the one slot that may be too great for its place. -/
theorem bubbleDown_spec {fuel : ℕ} (h : hd.Wired) (hfuel : hd.heapSize - i < fuel) :
    ∃ hd' k, whileLoop bubbleDownRound fuel (hd, i) = some (hd', k) ∧ Rearranged hd hd' ∧
      (DownOrder hd.heapSize hd.factor i → hd'.Ordered) := by
  induction fuel generalizing hd i with
  | zero => omega
  | succ fuel ih =>
    cases hchild : properChild hd i with
    | none =>
      have hord (hdown : DownOrder hd.heapSize hd.factor i) : hd.Ordered :=
        hdown.heap fun j hj hjn hji =>
          absurd (properChild_none hchild hj hji) (Nat.not_le.mpr hjn)
      exact ⟨hd, i, by rw [whileLoop, bubbleDownRound_none hchild], .refl h, hord⟩
    | some c =>
      have hround := bubbleDownRound_some hchild
      obtain ⟨hcn, hc, hci, hmin⟩ := properChild_spec hchild
      have hic : i < c := hci ▸ parent_lt hc
      by_cases hle : hd.factor i ≤ hd.factor c
      · have hord (hdown : DownOrder hd.heapSize hd.factor i) : hd.Ordered :=
          hdown.heap fun j hj hjn hji => hle.trans (hmin j hj hjn hji)
        exact ⟨hd, i, by simp [whileLoop, hround, hle], .refl h, hord⟩
      · obtain ⟨hd₁, hswap, hre, hentry⟩ := cSwap_rearranged h (hic.trans hcn) hcn
        have hsize := hre.heapSize_eq
        have hdown₁ (hdown : DownOrder hd.heapSize hd.factor i) :
            DownOrder hd₁.heapSize hd₁.factor c := by
          rw [hsize, factor_eq_comp hentry]
          exact hdown.swap hc hcn hci hmin (lt_of_not_ge hle)
        obtain ⟨hd', k, hloop, hre', hord⟩ := ih hre.wired (i := c) (by omega)
        exact ⟨hd', k, by simp [whileLoop, hround, hle, hswap, hloop],
          hre.trans hre', fun hdown => hord (hdown₁ hdown)⟩

/-- A slot whose children are not smaller is not sifted down. -/
theorem bubbleDown_stop {fuel : ℕ}
    (hstop : ∀ j, 0 < j → j < hd.heapSize → parent j = i → hd.factor i ≤ hd.factor j) :
    whileLoop bubbleDownRound (fuel + 1) (hd, i) = some (hd, i) := by
  have hround : bubbleDownRound (hd, i) = some (.leave (hd, i)) := by
    cases hchild : properChild hd i with
    | none => exact bubbleDownRound_none hchild
    | some c =>
      obtain ⟨hcn, hc, hci, -⟩ := properChild_spec hchild
      rw [bubbleDownRound_some hchild, if_pos (hstop c hc hcn hci)]
  simp [whileLoop, hround]

end Order

/-! ### Inserting -/

theorem node_push (h : hd.Wired) (obj : ℕ) (factor : κ) (hi : i < hd.heapSize) :
    (hd.push obj factor).hps i = hd.hps i ∧
      (hd.push obj factor).node (hd.hps i) = hd.node (hd.hps i) := by
  have hne : hd.hps i ≠ hd.allocated := (h.allocLt i hi).ne
  simp [push, hi.ne, hne]

theorem Wired.push (h : hd.Wired) (obj : ℕ) (factor : κ) : (hd.push obj factor).Wired := by
  constructor
  · intro i hi
    rcases Nat.lt_succ_iff_lt_or_eq.mp hi with hlt | rfl
    · obtain ⟨hhps, hnode⟩ := node_push h obj factor hlt
      rw [hhps, hnode]
      exact h.idxEq i hlt
    · simp [HeapDesc.push]
  · intro i hi
    rcases Nat.lt_succ_iff_lt_or_eq.mp hi with hlt | rfl
    · rw [(node_push h obj factor hlt).1]
      exact (h.allocLt i hlt).trans (Nat.lt_succ_self _)
    · simp [HeapDesc.push]

theorem entry_push (h : hd.Wired) (obj : ℕ) (factor : κ) (hi : i < hd.heapSize) :
    (hd.push obj factor).entry i = hd.entry i := by
  obtain ⟨hhps, hnode⟩ := node_push h obj factor hi
  simp only [entry, HeapDesc.obj, HeapDesc.factor, hhps, hnode]

theorem entries_push (h : hd.Wired) (obj : ℕ) (factor : κ) :
    (hd.push obj factor).entries = hd.entries ++ [(obj, factor)] := by
  have hlast : (hd.push obj factor).entry hd.heapSize = (obj, factor) := by
    simp [entry, HeapDesc.obj, HeapDesc.factor, push]
  have hsize : (hd.push obj factor).heapSize = hd.heapSize + 1 := rfl
  unfold entries
  rw [hsize, List.range_succ, List.map_append, List.map_singleton, hlast]
  congr 1
  exact List.map_congr_left fun i hi => entry_push h obj factor (List.mem_range.mp hi)

/-- Inserting an object adds its entry. -/
theorem heapInsert_spec [LinearOrder κ] (h : hd.Wired) (obj : ℕ) (factor : κ) :
    ∃ hd', heapInsert hd obj factor = some hd' ∧ hd'.Wired ∧
      hd'.entries.Perm ((obj, factor) :: hd.entries) ∧ (hd.Ordered → hd'.Ordered) := by
  obtain ⟨hd', k, hloop, hre, hord, -⟩ := bubbleUp_spec (h.push obj factor)
    (Nat.lt_succ_self hd.heapSize) (Nat.lt_succ_self hd.heapSize)
  have hinsert : heapInsert hd obj factor = some hd' := by
    unfold heapInsert heapBubbleUp
    exact congrArg (Option.map Prod.fst) hloop
  refine ⟨hd', hinsert, hre.wired, ?_, fun hbefore => hord ?_⟩
  · have hperm := hre.entriesPerm
    rw [entries_push h] at hperm
    exact hperm.trans (List.perm_append_singleton _ _)
  · exact hbefore.push fun i hi => congrArg Prod.snd (entry_push h obj factor hi)

/-! ### Finding an object -/

/-- The first slot of an object. -/
structure FirstAt (hd : HeapDesc κ) (objP i : ℕ) : Prop where
  lt : i < hd.heapSize
  objEq : hd.obj i = objP
  first : ∀ j < i, hd.obj j ≠ objP

theorem getHeap_eq_some_iff {objP p : ℕ} :
    getHeap hd objP = some p ↔ ∃ i, hd.FirstAt objP i ∧ hd.hps i = p := by
  unfold getHeap
  rw [List.find?_map, Option.map_eq_some_iff]
  constructor
  · rintro ⟨i, hi, hp⟩
    obtain ⟨hobj, hmem, hbefore⟩ := List.find?_range_eq_some.mp hi
    refine ⟨i, ⟨List.mem_range.mp hmem, beq_iff_eq.mp hobj, fun j hj hsame => ?_⟩, hp⟩
    have hother : (hd.node (hd.hps j)).obj ≠ objP := by simpa using hbefore j hj
    exact hother hsame
  · rintro ⟨i, hi, hp⟩
    refine ⟨i, List.find?_range_eq_some.mpr ⟨beq_iff_eq.mpr hi.objEq, List.mem_range.mpr hi.lt,
      fun j hj => ?_⟩, hp⟩
    have hother : (hd.node (hd.hps j)).obj ≠ objP := hi.first j hj
    simpa using hother

theorem FirstAt.getHeap_eq {objP : ℕ} (h : hd.FirstAt objP i) :
    getHeap hd objP = some (hd.hps i) := getHeap_eq_some_iff.mpr ⟨i, h, rfl⟩

theorem exists_firstAt {objP : ℕ} (h : objP ∈ hd.entries.map Prod.fst) :
    ∃ i, hd.FirstAt objP i := by
  simp only [entries, List.map_map, List.mem_map, List.mem_range, Function.comp_apply] at h
  have hex : ∃ i, i < hd.heapSize ∧ hd.obj i = objP := h
  obtain ⟨hlt, hobj⟩ := Nat.find_spec hex
  refine ⟨Nat.find hex, hlt, hobj, fun j hj hsame => ?_⟩
  exact Nat.find_min hex hj ⟨hj.trans hlt, hsame⟩

theorem getHeap_eq_none_iff {objP : ℕ} :
    getHeap hd objP = none ↔ objP ∉ hd.entries.map Prod.fst := by
  constructor
  · intro h hmem
    obtain ⟨i, hi⟩ := exists_firstAt hmem
    rw [hi.getHeap_eq] at h
    cases h
  · intro hnot
    cases hfound : getHeap hd objP with
    | none => rfl
    | some p =>
      obtain ⟨i, hi, -⟩ := getHeap_eq_some_iff.mp hfound
      have hmem : (hd.entry i).1 ∈ hd.entries.map Prod.fst :=
        List.mem_map_of_mem (List.mem_map_of_mem (List.mem_range.mpr hi.lt))
      rw [entry_fst, hi.objEq] at hmem
      exact absurd hmem hnot

end HeapDesc

end LdacsSdk
