import LdacsSdk.Core.Definitions
import LdacsSdk.Library.BitArray
import LdacsSdk.Library.IndexScans
import LdacsSdk.Library.Runs
import LdacsSdk.Library.Traces

/-!
# The resource bitset

A bitset hands out the resources of an array. Its bits are the finite set of the indices handed
out, as long as the indices of `bs_free_resource` and `bs_judge_resource` fit into the 8 bits they
are passed in, and `bs_alloc_resource` finds its index before its `int` counter overflows.
-/
namespace LdacsSdk

open Library

/-- `BITSET_SIZE`. -/
def bitsetSize (sz : ℕ) : ℕ := sz / 8 + if 0 < sz % 8 then 1 else 0

/-- `ld_bitset_t`; `resources` is `none` for a NULL pointer. -/
structure Bitset where
  resNum : ℕ
  resSz : ℕ
  bitset : List (BitVec 8)
  resources : Option ℕ
  deriving DecidableEq, Repr

/-- `init_bitset`, with the resources that `init_func` stores. -/
def initBitset (resNum resSz : ℕ) (resources : Option ℕ) : Bitset where
  resNum := resNum
  resSz := resSz
  bitset := List.replicate (bitsetSize resNum) 0
  resources := resources

namespace Bitset

/-- `RES_INDEX`, for resources at address `base`. -/
def resIndex (set : Bitset) (base i : ℕ) : ℕ := base + i * set.resSz

/-- The index at which the loop of `bs_alloc_resource` finds a bit that is not set. -/
def freeIndex (set : Bitset) : Option ℕ :=
  (List.range set.resNum).find? fun i => !hasBit set.bitset i

end Bitset

/-- `bs_alloc_resource`: the set after it, its return code and the address stored in `res`. Its
counter is an `int`; counting it past its range has no result. -/
def bsAllocResource (set : Bitset) : Option (Bitset × LErr × Option ℕ) :=
  match set.resources with
  | none => some (set, .ldErrNull, none)
  | some base =>
    match set.freeIndex with
    | some i =>
      if i < 2 ^ 31 then
        some ({ set with bitset := setBit set.bitset i }, .ldOk, some (set.resIndex base i))
      else none
    | none => if set.resNum < 2 ^ 31 then some (set, .ldErrInvalid, none) else none

/-- `bs_free_resource`, whose index is passed in 8 bits. -/
def bsFreeResource (set : Bitset) (index : ℕ) : Bitset :=
  if u8 index < set.resNum then { set with bitset := clearBit set.bitset (u8 index) } else set

/-- A fresh bitset is the empty set. -/
theorem represents_initBitset (resNum resSz : ℕ) (resources : Option ℕ) :
    Represents (initBitset resNum resSz resources).bitset resNum ∅ := by
  apply represents_zero
  · intro i hi
    simp only [initBitset, List.length_replicate, bitsetSize]
    split_ifs <;> omega
  · intro v hv
    exact List.eq_of_mem_replicate hv

theorem hasBit_bsFreeResource {set : Bitset} {index j : ℕ} (hne : j ≠ u8 index) :
    hasBit (bsFreeResource set index).bitset j = hasBit set.bitset j := by
  unfold bsFreeResource
  split_ifs
  · exact hasBit_clearBit_of_ne (by decide) hne
  · rfl

/-- `bs_judge_resource`, whose index is passed in 8 bits. A read outside the array has no result. -/
def bsJudgeResource (set : Bitset) (index : ℕ) : Option Bool :=
  if u8 index / 8 < set.bitset.length then some (hasBit set.bitset (u8 index)) else none

/-- The calls on a bitset. -/
inductive BitsetOp where
  | alloc
  | free (i : ℕ)
  | judge (i : ℕ)
  deriving DecidableEq, Repr

/-- What happens to the resource of an index. -/
inductive ResourceEvent where
  | handedOut (i : ℕ)
  | released (i : ℕ)
  deriving DecidableEq, Repr

/-- The least number below `n` outside a finite set. -/
def lowestFree (n : ℕ) (A : Finset ℕ) : Option ℕ := (List.range n).find? (· ∉ A)

/-- A bitset, the finite set it should be, and what happened to its resources so far. -/
structure BitsetState where
  set : Bitset
  allocated : Finset ℕ := ∅
  trace : List ResourceEvent := []

namespace BitsetState

def start (resNum resSz base : ℕ) : BitsetState := { set := initBitset resNum resSz (some base) }

/-- One call, and what it should do to the set. -/
def step (s : BitsetState) : BitsetOp → Option BitsetState
  | .alloc =>
    (bsAllocResource s.set).map fun r =>
      { set := r.1
        allocated := (lowestFree s.set.resNum s.allocated).elim s.allocated (insert · s.allocated)
        trace := s.trace ++ if r.2.1 = .ldOk then s.set.freeIndex.toList.map .handedOut else [] }
  | .free i =>
    some
      { set := bsFreeResource s.set i
        allocated := s.allocated.erase i
        trace := s.trace ++ [.released i] }
  | .judge i => (bsJudgeResource s.set i).map fun _ => s

/-- Releases and tests are for indices below `res_num`. -/
def InRange (s : BitsetState) : BitsetOp → Prop
  | .alloc => True
  | .free i => i < s.set.resNum
  | .judge i => i < s.set.resNum

/-- The index passed in 8 bits has the same bit, and the one released is not another one; an `int`
counts up to the free index, or to the end. -/
def Fits (s : BitsetState) : BitsetOp → Prop
  | .alloc => s.set.resNum < 2 ^ 31 ∨ ∃ i ∈ List.range s.set.resNum, i < 2 ^ 31 ∧
      hasBit s.set.bitset i = false
  | .free i => i < 256 ∨ hasBit s.set.bitset i = false ∧ hasBit s.set.bitset (u8 i) = false
  | .judge i => hasBit s.set.bitset (u8 i) = hasBit s.set.bitset i

/-- The calls in range that fit. -/
def Meets (s : BitsetState) (op : BitsetOp) : Prop := s.InRange op ∧ s.Fits op

instance (s : BitsetState) : (op : BitsetOp) → Decidable (s.InRange op)
  | .alloc => inferInstanceAs (Decidable True)
  | .free _ => inferInstanceAs (Decidable (_ < _))
  | .judge _ => inferInstanceAs (Decidable (_ < _))

instance (s : BitsetState) : (op : BitsetOp) → Decidable (s.Fits op)
  | .alloc => inferInstanceAs (Decidable (_ ∨ _))
  | .free _ => inferInstanceAs (Decidable (_ ∨ _))
  | .judge _ => inferInstanceAs (Decidable (_ = _))

instance (s : BitsetState) (op : BitsetOp) : Decidable (s.Meets op) :=
  inferInstanceAs (Decidable (_ ∧ _))

/-- The call does to the bits what it should do to the set `allocated`, and answers by it. -/
def Exact (s : BitsetState) : BitsetOp → Prop
  | .alloc => ∃ set code res, bsAllocResource s.set = some (set, code, res) ∧
      ((∃ i base, IsLeast {i | i < s.set.resNum ∧ i ∉ s.allocated} i ∧
          s.set.resources = some base ∧ code = .ldOk ∧ res = some (s.set.resIndex base i) ∧
          Represents set.bitset s.set.resNum (insert i s.allocated)) ∨
        ((∀ i < s.set.resNum, i ∈ s.allocated) ∧ code = .ldErrInvalid ∧ set = s.set))
  | .free i => Represents (bsFreeResource s.set i).bitset s.set.resNum (s.allocated.erase i)
  | .judge i => bsJudgeResource s.set i = some (decide (i ∈ s.allocated))

/-- The bits are the set of what is allocated, and what was handed out and not released is in it. -/
structure Tracked (s : BitsetState) : Prop where
  represents : Represents s.set.bitset s.set.resNum s.allocated
  resources : s.set.resources.isSome = true
  once : ∀ i, Separated (.handedOut i) (.released i) s.trace
  held : ∀ i, OpenAfter (.handedOut i) (.released i) s.trace → i ∈ s.allocated

variable {s t : BitsetState} {i resNum : ℕ}

theorem lowestFree_isLeast {n : ℕ} {A : Finset ℕ} (h : lowestFree n A = some i) :
    IsLeast {i | i < n ∧ i ∉ A} i := by
  have hleast := isLeast_of_find?_range h
  simpa only [decide_eq_true_iff] using hleast

theorem lowestFree_none {n : ℕ} {A : Finset ℕ} (h : lowestFree n A = none) : ∀ i < n, i ∈ A :=
  fun i hi => by simpa using eq_false_of_find?_range h hi

/-- The loop of `bs_alloc_resource` finds the least number outside the set of its bits. -/
theorem freeIndex_eq {set : Bitset} {A : Finset ℕ} (h : Represents set.bitset set.resNum A) :
    set.freeIndex = lowestFree set.resNum A := by
  unfold Bitset.freeIndex lowestFree
  refine List.find?_congr fun i hi => ?_
  rw [h.bits i (List.mem_range.mp hi)]
  simp

theorem tracked_start (resNum resSz base : ℕ) : (start resNum resSz base).Tracked where
  represents := represents_initBitset resNum resSz (some base)
  resources := rfl
  once _ := separated_nil
  held _ h := absurd h not_openAfter_nil

/-- The cut index stays in range. -/
theorem u8_le (i : ℕ) : u8 i ≤ i := Nat.mod_le _ _

theorem Tracked.alloc_found (h : s.Tracked) {base : ℕ} (hres : s.set.resources = some base)
    (hfree : lowestFree s.set.resNum s.allocated = some i) (hi : i < 2 ^ 31) :
    bsAllocResource s.set = some ({ s.set with bitset := setBit s.set.bitset i }, .ldOk,
      some (s.set.resIndex base i)) := by
  simpa [bsAllocResource, hres, freeIndex_eq h.represents, hfree] using hi

theorem Tracked.alloc_full (h : s.Tracked) (hfree : lowestFree s.set.resNum s.allocated = none)
    (hn : s.set.resNum < 2 ^ 31) : bsAllocResource s.set = some (s.set, .ldErrInvalid, none) := by
  obtain ⟨base, hres⟩ := Option.isSome_iff_exists.mp h.resources
  simpa [bsAllocResource, hres, freeIndex_eq h.represents, hfree] using hn

/-- Where the counter does not get past its range, the least free index is one of its values. -/
theorem Tracked.least_lt (h : s.Tracked) (hfits : s.Fits .alloc)
    (hfree : lowestFree s.set.resNum s.allocated = some i) : i < 2 ^ 31 := by
  have hleast := lowestFree_isLeast hfree
  rcases hfits with hn | ⟨j, hj, hj31, hbit⟩
  · exact hleast.1.1.trans hn
  · have hjn := List.mem_range.mp hj
    rw [h.represents.bits j hjn] at hbit
    exact (hleast.2 ⟨hjn, by simpa using hbit⟩).trans_lt hj31

theorem Tracked.full_lt (h : s.Tracked) (hfits : s.Fits .alloc)
    (hfree : lowestFree s.set.resNum s.allocated = none) : s.set.resNum < 2 ^ 31 := by
  rcases hfits with hn | ⟨j, hj, -, hbit⟩
  · exact hn
  · rw [h.represents.bits j (List.mem_range.mp hj)] at hbit
    exact absurd (lowestFree_none hfree j (List.mem_range.mp hj)) (by simpa using hbit)

theorem Tracked.alloc_exact (h : s.Tracked) : s.Exact .alloc ↔ s.Fits .alloc := by
  obtain ⟨base, hres⟩ := Option.isSome_iff_exists.mp h.resources
  cases hfree : lowestFree s.set.resNum s.allocated with
  | some i =>
    have hleast := lowestFree_isLeast hfree
    constructor
    · rintro ⟨set, code, res, halloc, -⟩
      have hi : i < 2 ^ 31 := by
        simp only [bsAllocResource, hres, freeIndex_eq h.represents, hfree] at halloc
        split_ifs at halloc with hi
        exact hi
      refine .inr ⟨i, List.mem_range.mpr hleast.1.1, hi, ?_⟩
      rw [h.represents.bits i hleast.1.1]
      simpa using hleast.1.2
    · intro hfits
      exact ⟨_, _, _, h.alloc_found hres hfree (h.least_lt hfits hfree), .inl ⟨i, base, hleast,
        hres, rfl, rfl, h.represents.insert (by decide) hleast.1.1⟩⟩
  | none =>
    constructor
    · rintro ⟨set, code, res, halloc, -⟩
      simp only [bsAllocResource, hres, freeIndex_eq h.represents, hfree] at halloc
      split_ifs at halloc with hn
      exact .inl hn
    · intro hfits
      exact ⟨_, _, _, h.alloc_full hfree (h.full_lt hfits hfree), .inr ⟨lowestFree_none hfree, rfl,
        rfl⟩⟩

/-- `bs_free_resource` removes the index as it arrives in 8 bits. -/
theorem Tracked.freed (h : s.Tracked) (hi : i < s.set.resNum) :
    Represents (bsFreeResource s.set i).bitset s.set.resNum (s.allocated.erase (u8 i)) := by
  have hlt := (u8_le i).trans_lt hi
  simp only [bsFreeResource, if_pos hlt]
  exact h.represents.erase (by decide) hlt

theorem Tracked.free_exact (h : s.Tracked) (hi : i < s.set.resNum) :
    s.Exact (.free i) ↔ s.Fits (.free i) := by
  have hlt := (u8_le i).trans_lt hi
  have hfreed := h.freed hi
  simp only [Fits, h.represents.bits i hi, h.represents.bits _ hlt, decide_eq_false_iff_not]
  constructor
  · intro hexact
    have heq := hexact.unique hfreed
    by_cases hsmall : i < 256
    · exact .inl hsmall
    · have hne : u8 i ≠ i := by
        unfold u8
        omega
      have hmem (j : ℕ) : j ∈ s.allocated.erase i ↔ j ∈ s.allocated.erase (u8 i) := by rw [heq]
      have hself := hmem i
      have hcut := hmem (u8 i)
      simp only [Finset.mem_erase, ne_eq, not_true_eq_false, false_and, false_iff, not_and,
        iff_false] at hself hcut
      exact .inr ⟨hself (Ne.symm hne), hcut hne⟩
  · rintro (hsmall | ⟨hself, hcut⟩)
    · rw [u8_of_lt hsmall] at hfreed
      exact hfreed
    · rw [Finset.erase_eq_of_notMem hcut, ← Finset.erase_eq_of_notMem hself] at hfreed
      exact hfreed

theorem Tracked.judge_exact (h : s.Tracked) (hi : i < s.set.resNum) :
    s.Exact (.judge i) ↔ s.Fits (.judge i) := by
  have hlt := (u8_le i).trans_lt hi
  have hjudge : bsJudgeResource s.set i = some (hasBit s.set.bitset (u8 i)) :=
    if_pos (h.represents.stored _ hlt)
  simp only [Exact, Fits, hjudge, Option.some.injEq, ← h.represents.bits i hi]

/-- A call in range is exact if and only if it fits. -/
theorem Tracked.exact_iff (h : s.Tracked) {op : BitsetOp} (hin : s.InRange op) :
    s.Exact op ↔ s.Fits op := by
  cases op with
  | alloc => exact h.alloc_exact
  | free i => exact h.free_exact hin
  | judge i => exact h.judge_exact hin

/-- Handing out an index that is not in the set. -/
theorem Tracked.handOut (h : s.Tracked) (hi : i < s.set.resNum) (hnot : i ∉ s.allocated) :
    Tracked ⟨{ s.set with bitset := setBit s.set.bitset i }, insert i s.allocated,
      s.trace ++ [.handedOut i]⟩ where
  represents := h.represents.insert (by decide) hi
  resources := h.resources
  once j := (h.once j).snoc fun he hopen => hnot (by
    cases he
    exact h.held i hopen)
  held j hopen := by
    by_cases hj : j = i
    · exact Finset.mem_insert.mpr (.inl hj)
    · have hopen' := (hopen.of_snoc (by simpa using Ne.symm hj)).1
      exact Finset.mem_insert_of_mem (h.held j hopen')

theorem Tracked.alloc (h : s.Tracked) (hfits : s.Fits .alloc) (hs : s.step .alloc = some t) :
    t.Tracked := by
  obtain ⟨base, hres⟩ := Option.isSome_iff_exists.mp h.resources
  have hindex := freeIndex_eq h.represents
  cases hfree : lowestFree s.set.resNum s.allocated with
  | some i =>
    have hleast := (lowestFree_isLeast hfree).1
    simp only [step, h.alloc_found hres hfree (h.least_lt hfits hfree), Option.map_some, hfree,
      hindex, Option.elim_some, if_true, Option.some.injEq] at hs
    subst hs
    exact h.handOut hleast.1 hleast.2
  | none =>
    simp only [step, h.alloc_full hfree (h.full_lt hfits hfree), Option.map_some, hfree,
      Option.elim_none, reduceCtorEq, if_false, List.append_nil, Option.some.injEq] at hs
    subst hs
    exact h

theorem Tracked.free (h : s.Tracked) (hin : i < s.set.resNum) (hfits : s.Fits (.free i)) :
    Tracked ⟨bsFreeResource s.set i, s.allocated.erase i, s.trace ++ [.released i]⟩ := by
  have hlt := (u8_le i).trans_lt hin
  have hset : bsFreeResource s.set i = { s.set with bitset := clearBit s.set.bitset (u8 i) } :=
    if_pos hlt
  refine ⟨?_, ?_, fun j => (h.once j).snoc (fun he => by cases he), fun j hopen => ?_⟩
  · have hexact := (h.free_exact hin).mpr hfits
    simpa [Exact, hset] using hexact
  · simpa [hset] using h.resources
  · obtain ⟨hopen', hne⟩ := hopen.of_snoc (by simp)
    have hji : j ≠ i := fun he => hne (he ▸ rfl)
    exact Finset.mem_erase.mpr ⟨hji, h.held j hopen'⟩

theorem tracked_of_reaches {resSz base : ℕ}
    (h : Reaches step Meets (start resNum resSz base) s) : s.Tracked := by
  induction h with
  | refl => exact tracked_start resNum resSz base
  | tail _ hst ih =>
    obtain ⟨op, ⟨hin, hfits⟩, hs⟩ := hst
    cases op with
    | alloc => exact ih.alloc hfits hs
    | free i =>
      obtain rfl := Option.some.inj hs
      exact ih.free hin hfits
    | judge i =>
      obtain ⟨_, -, rfl⟩ := Option.map_eq_some_iff.mp hs
      exact ih

/-- In every run whose calls fit, the bits are the set of what is allocated, the calls that do to
it what they should are those that fit, and no index is handed out twice without a release. -/
theorem bitset_is_finite_set (resNum resSz base : ℕ) (s : BitsetState)
    (h : Reaches step Meets (start resNum resSz base) s) :
    Represents s.set.bitset s.set.resNum s.allocated ∧
      (∀ op, s.InRange op → (s.Exact op ↔ s.Fits op)) ∧
      ∀ i, Separated (.handedOut i) (.released i) s.trace :=
  have htracked := tracked_of_reaches h
  ⟨htracked.represents, fun _ => htracked.exact_iff, htracked.once⟩

/-- Ten resources; the third is released and handed out again. -/
theorem bitset_is_finite_set_ten : ∃ s, Reaches step Meets (start 10 8 4096) s ∧
    s.allocated = {0, 1, 2} ∧ Represents s.set.bitset s.set.resNum s.allocated ∧
    s.Exact .alloc := by
  obtain ⟨s, hs, hset, hfits⟩ : ∃ s, runOps step Meets (start 10 8 4096)
      [.alloc, .alloc, .alloc, .free 2, .judge 1, .alloc] = some s ∧ s.allocated = {0, 1, 2} ∧
        s.Fits .alloc := ⟨_, rfl, by decide, by decide⟩
  have hrun := reaches_of_runOps _ hs
  have hall := bitset_is_finite_set 10 8 4096 s hrun
  exact ⟨s, hrun, hset, hall.1, (hall.2.1 .alloc trivial).mpr hfits⟩

/-- With 257 resources, the release of the last one makes the first one available again. -/
theorem resource_handed_out_twice : ¬ ∀ resNum resSz base s,
    Reaches step InRange (start resNum resSz base) s →
      ∀ i, Separated (.handedOut i) (.released i) s.trace := by
  intro hall
  have hfinal : (runOps step InRange (start 257 8 4096) [.alloc, .free 256, .alloc]).map
      (fun s => s.trace) = some [.handedOut 0, .released 256, .handedOut 0] := by decide +kernel
  obtain ⟨s, hs, htrace⟩ := Option.map_eq_some_iff.mp hfinal
  have htwice := hall 257 8 4096 s (reaches_of_runOps _ hs) 0 [] [.released 256] [] htrace
  simp at htwice

end BitsetState

end LdacsSdk
