import LdacsSdk.Core.Bitset

/-!
# Questions about a bitset

Five scans over the indices answer how many of them are recorded, which is the least and which the
greatest of those, which is the least of the others, and whether there is none. The last one
compares a masked byte with 1, which it is for an index divisible by eight only.
-/
namespace LdacsSdk

open Library

/-- `bs_record_by_index`. A write outside the array has no result. -/
def bsRecordByIndex (set : Bitset) (i : ℕ) : Option (Bitset × LErr) :=
  if i / 8 < set.bitset.length then some ({ set with bitset := setBit set.bitset i }, .ldOk)
  else none

namespace Bitset

/-- `set->bitset[i / 8] & (1 << (i % 8))`. -/
def masked (set : Bitset) (i : ℕ) : BitVec 8 := wordOf set.bitset i &&& bitMask 8 i

/-- A loop over the indices that is left at the first one that passes a test. Its counter is an
`int`; counting it past its range has no result. -/
def firstIndex (set : Bitset) (test : ℕ → Bool) : Option (Option ℕ) :=
  match (List.range set.resNum).find? test with
  | some i => if i < 2 ^ 31 then some (some i) else none
  | none => if set.resNum < 2 ^ 31 then some none else none

/-- A loop over all the indices, with the same counter. -/
def foldIndices (set : Bitset) (body : ℤ → ℕ → ℤ) (start : ℤ) : Option ℤ :=
  if set.resNum < 2 ^ 31 then some ((List.range set.resNum).foldl body start) else none

/-- What a function returns that returns the index it finds, and -1 when it finds none. -/
def orMinusOne : Option ℕ → ℤ
  | some i => i
  | none => -1

end Bitset

/-- `bs_all_empty`. -/
def bsAllEmpty (set : Bitset) : Option Bool :=
  (set.firstIndex fun i => set.masked i == 1).map fun
    | some _ => false
    | none => true

/-- `bs_get_alloced`. -/
def bsGetAlloced (set : Bitset) : Option ℤ :=
  set.foldIndices (fun ret i => if set.masked i != 0 then ret + 1 else ret) 0

/-- `bs_get_highest`. -/
def bsGetHighest (set : Bitset) : Option ℤ :=
  set.foldIndices (fun highest i => if set.masked i != 0 then i else highest) 0

/-- `bs_get_lowest`. -/
def bsGetLowest (set : Bitset) : Option ℤ :=
  (set.firstIndex fun i => set.masked i != 0).map Bitset.orMinusOne

/-- `bs_get_lowest_unalloced`. -/
def bsGetLowestUnalloced (set : Bitset) : Option ℤ :=
  (set.firstIndex fun i => set.masked i == 0).map Bitset.orMinusOne

namespace Bitset

/-- The answer to the question for the least element of a set of indices. -/
def LeastAnswer (S : Set ℕ) (answer : Option ℤ) : Prop :=
  (∃ i, IsLeast S i ∧ answer = some (i : ℤ)) ∨ S = ∅ ∧ answer = some (-1)

/-- The answers are those about the set `A`. -/
structure Describes (set : Bitset) (A : Finset ℕ) : Prop where
  alloced : bsGetAlloced set = some (A.card : ℤ)
  lowest : LeastAnswer {i | i ∈ A} (bsGetLowest set)
  highest : A.Nonempty → ∃ i, IsGreatest {i | i ∈ A} i ∧ bsGetHighest set = some (i : ℤ)
  lowestUnalloced : LeastAnswer {i | i < set.resNum ∧ i ∉ A} (bsGetLowestUnalloced set)
  allEmpty : ∃ b, bsAllEmpty set = some b ∧ (b = true ↔ A = ∅)

variable {set : Bitset} {A : Finset ℕ} {i : ℕ}

/-- What is recorded is added to the set. -/
theorem represents_record (h : Represents set.bitset set.resNum A) (hi : i < set.resNum) :
    ∃ set', bsRecordByIndex set i = some (set', .ldOk) ∧ set'.resNum = set.resNum ∧
      Represents set'.bitset set'.resNum (insert i A) :=
  ⟨_, if_pos (h.stored i hi), rfl, h.insert (by decide) hi⟩

/-! ### Masked bytes -/

theorem masked_bne_zero (set : Bitset) (i : ℕ) : (set.masked i != 0) = hasBit set.bitset i := rfl

theorem masked_beq_zero (set : Bitset) (i : ℕ) :
    (set.masked i == 0) = !hasBit set.bitset i := by
  rw [← masked_bne_zero, bne, Bool.not_not]

theorem masked_eq (set : Bitset) (i : ℕ) :
    set.masked i = if hasBit set.bitset i then bitMask 8 i else 0 := by
  rw [hasBit_eq_getLsbD (by decide), masked, bitMask, ← BitVec.twoPow_eq, BitVec.and_twoPow]
  rfl

/-- A masked byte is 1 when the index is recorded and divisible by eight. -/
theorem masked_beq_one (set : Bitset) (i : ℕ) :
    (set.masked i == 1) = (hasBit set.bitset i && decide (i % 8 = 0)) := by
  have hmask : ∀ k < 8, (1#8 <<< k == 1) = decide (k = 0) := by decide
  rw [masked_eq]
  cases hasBit set.bitset i
  · rfl
  · exact hmask (i % 8) (Nat.mod_lt i (by decide))

/-! ### Scans -/

theorem firstIndex_eq (hn : set.resNum < 2 ^ 31) (test : ℕ → Bool) :
    set.firstIndex test = some ((List.range set.resNum).find? test) := by
  unfold firstIndex
  cases hfind : (List.range set.resNum).find? test with
  | some i => exact if_pos ((isLeast_of_find?_range hfind).1.1.trans hn)
  | none => exact if_pos hn

theorem leastAnswer_firstIndex (hn : set.resNum < 2 ^ 31) (test : ℕ → Bool) :
    LeastAnswer {i | i < set.resNum ∧ test i = true} ((set.firstIndex test).map orMinusOne) := by
  rw [firstIndex_eq hn]
  cases hfind : (List.range set.resNum).find? test with
  | some i => exact .inl ⟨i, isLeast_of_find?_range hfind, rfl⟩
  | none =>
    right
    constructor
    · apply Set.eq_empty_of_forall_notMem
      intro i hi
      have hfalse := eq_false_of_find?_range hfind hi.1
      rw [hi.2] at hfalse
      cases hfalse
    · rfl

/-- The recorded indices are those whose masked byte is not 0. -/
theorem mem_iff_masked (h : Represents set.bitset set.resNum A) :
    i ∈ A ↔ i < set.resNum ∧ (set.masked i != 0) = true := by
  rw [masked_bne_zero]
  constructor
  · intro hi
    have hlt := h.below i hi
    exact ⟨hlt, by simpa [h.bits i hlt] using hi⟩
  · rintro ⟨hlt, hbit⟩
    simpa [h.bits i hlt] using hbit

theorem getAlloced_eq (h : Represents set.bitset set.resNum A) (hn : set.resNum < 2 ^ 31) :
    bsGetAlloced set = some (A.card : ℤ) := by
  have hA : (Finset.range set.resNum).filter (fun i => (set.masked i != 0) = true) = A := by
    ext i
    rw [Finset.mem_filter, Finset.mem_range, mem_iff_masked h]
  rw [bsGetAlloced, foldIndices, if_pos hn, foldl_count_range, hA]

theorem getLowest_leastAnswer (h : Represents set.bitset set.resNum A)
    (hn : set.resNum < 2 ^ 31) : LeastAnswer {i | i ∈ A} (bsGetLowest set) := by
  have hA : {i | i ∈ A} = {i | i < set.resNum ∧ (set.masked i != 0) = true} :=
    Set.ext fun i => mem_iff_masked h
  rw [hA]
  exact leastAnswer_firstIndex hn _

theorem getHighest_greatest (h : Represents set.bitset set.resNum A) (hn : set.resNum < 2 ^ 31)
    (hA : A.Nonempty) : ∃ i, IsGreatest {i | i ∈ A} i ∧ bsGetHighest set = some (i : ℤ) := by
  have hset : {i | i ∈ A} = {i | i < set.resNum ∧ (set.masked i != 0) = true} :=
    Set.ext fun i => mem_iff_masked h
  rw [bsGetHighest, foldIndices, if_pos hn, hset]
  rcases foldl_last_range (fun i => set.masked i != 0) 0 set.resNum with
    ⟨hnone, -⟩ | ⟨i, hi, hlast⟩
  · obtain ⟨i, hi⟩ := hA
    obtain ⟨hlt, hbit⟩ := (mem_iff_masked h).mp hi
    rw [hnone i hlt] at hbit
    cases hbit
  · exact ⟨i, hi, congrArg some hlast⟩

theorem getLowestUnalloced_leastAnswer (h : Represents set.bitset set.resNum A)
    (hn : set.resNum < 2 ^ 31) :
    LeastAnswer {i | i < set.resNum ∧ i ∉ A} (bsGetLowestUnalloced set) := by
  have hset : {i | i < set.resNum ∧ i ∉ A} =
      {i | i < set.resNum ∧ (set.masked i == 0) = true} := by
    ext i
    apply and_congr_right
    intro hlt
    rw [masked_beq_zero, h.bits i hlt]
    simp
  rw [hset]
  exact leastAnswer_firstIndex hn _

/-- `bs_all_empty` looks at every eighth index only. -/
theorem allEmpty_eq (h : Represents set.bitset set.resNum A) (hn : set.resNum < 2 ^ 31) :
    bsAllEmpty set = some (decide (∀ i ∈ A, i % 8 ≠ 0)) := by
  rw [bsAllEmpty, firstIndex_eq hn]
  cases hfind : (List.range set.resNum).find? fun i => set.masked i == 1 with
  | some i =>
    have hi := (isLeast_of_find?_range hfind).1
    rw [Set.mem_ofPred_eq, masked_beq_one, h.bits i hi.1] at hi
    have hseen : i ∈ A ∧ i % 8 = 0 := by simpa using hi.2
    have hnot : ¬∀ i ∈ A, i % 8 ≠ 0 := fun hall => hall i hseen.1 hseen.2
    simp only [Option.map_some, decide_eq_false hnot]
  | none =>
    have hall : ∀ i ∈ A, i % 8 ≠ 0 := by
      intro i hi hdvd
      have hfalse := eq_false_of_find?_range hfind (h.below i hi)
      rw [masked_beq_one, h.bits i (h.below i hi)] at hfalse
      simp [hi, hdvd] at hfalse
    simp only [Option.map_some, decide_eq_true hall]

/-- The five answers are about the set that is recorded if and only if an `int` counts the indices
and one of those recorded, if there is any, is divisible by eight. -/
theorem describes_iff (set : Bitset) (A : Finset ℕ)
    (h : Represents set.bitset set.resNum A) :
    set.Describes A ↔ set.resNum < 2 ^ 31 ∧ (A = ∅ ∨ ∃ i ∈ A, i % 8 = 0) := by
  constructor
  · intro hdescribes
    have hn : set.resNum < 2 ^ 31 := by
      by_contra hlarge
      have halloced := hdescribes.alloced
      rw [bsGetAlloced, foldIndices, if_neg hlarge] at halloced
      cases halloced
    refine ⟨hn, ?_⟩
    obtain ⟨b, hb, hempty⟩ := hdescribes.allEmpty
    rw [allEmpty_eq h hn, Option.some.injEq] at hb
    by_contra hnot
    rw [not_or] at hnot
    apply hnot.1
    rw [← hempty, ← hb, decide_eq_true_iff]
    intro i hi hdvd
    exact hnot.2 ⟨i, hi, hdvd⟩
  · rintro ⟨hn, hseen⟩
    refine ⟨getAlloced_eq h hn, getLowest_leastAnswer h hn, getHighest_greatest h hn,
      getLowestUnalloced_leastAnswer h hn, _, allEmpty_eq h hn, ?_⟩
    rw [decide_eq_true_iff]
    constructor
    · intro hall
      rcases hseen with hempty | ⟨i, hi, hdvd⟩
      · exact hempty
      · exact absurd hdvd (hall i hi)
    · rintro rfl
      simp

/-- Of ten indices, the first and the last are recorded. -/
theorem describes_first_and_last : ∃ set : Bitset, Represents set.bitset set.resNum {9, 0} ∧
    set.resNum = 10 ∧ set.Describes {9, 0} := by
  have hinit : Represents (initBitset 10 8 none).bitset (initBitset 10 8 none).resNum ∅ :=
    represents_initBitset 10 8 none
  obtain ⟨set₁, -, hnum₁, h₁⟩ := represents_record hinit (i := 0) (by decide)
  obtain ⟨set₂, -, hnum₂, h₂⟩ := represents_record h₁ (i := 9) (by rw [hnum₁]; decide)
  have hten : set₂.resNum = 10 := hnum₂.trans hnum₁
  exact ⟨set₂, h₂, hten, (describes_iff set₂ {9, 0} h₂).mpr
    ⟨by rw [hten]; decide, .inr ⟨0, by decide, rfl⟩⟩⟩

/-- With index 1 recorded alone, the bitset is said to be empty. -/
theorem recorded_index_overlooked : ¬∀ (set : Bitset) (A : Finset ℕ),
    Represents set.bitset set.resNum A → set.Describes A := by
  intro hall
  have hinit : Represents (initBitset 10 8 none).bitset (initBitset 10 8 none).resNum ∅ :=
    represents_initBitset 10 8 none
  obtain ⟨set, -, hnum, h⟩ := represents_record hinit (i := 1) (by decide)
  obtain ⟨b, hb, hempty⟩ := (hall set _ h).allEmpty
  have hsmall : set.resNum < 2 ^ 31 := by
    rw [hnum]
    decide
  rw [allEmpty_eq h hsmall, Option.some.injEq] at hb
  have htrue : b = true := by
    rw [← hb]
    decide
  exact Finset.insert_ne_empty 1 ∅ (hempty.mp htrue)

end Bitset

end LdacsSdk
