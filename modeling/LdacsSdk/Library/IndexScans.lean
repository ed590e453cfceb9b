import Mathlib.Data.Finset.Card
import Mathlib.Data.Finset.Range
import Mathlib.Order.Bounds.Basic
import Mathlib.Tactic

/-!
# Scans over the numbers below a bound

Three loops that look at the numbers below `n` from 0 on: one stops at the first number that
passes a test, one counts those that do, and one keeps the last of them.
-/
namespace LdacsSdk.Library

variable {n i : ℕ} {p : ℕ → Bool}

theorem isLeast_of_find?_range (h : (List.range n).find? p = some i) :
    IsLeast {i | i < n ∧ p i = true} i := by
  obtain ⟨hp, hmem, hbefore⟩ := List.find?_range_eq_some.mp h
  constructor
  · exact ⟨List.mem_range.mp hmem, hp⟩
  · intro j hj
    by_contra hlt
    have hj' := hbefore j (Nat.lt_of_not_le hlt)
    simp [hj.2] at hj'

theorem eq_false_of_find?_range (h : (List.range n).find? p = none) (hi : i < n) :
    p i = false := by
  have hnot := List.find?_eq_none.mp h i (List.mem_range.mpr hi)
  simpa using hnot

/-- Counting the numbers that pass. -/
theorem foldl_count_range (p : ℕ → Bool) (n : ℕ) :
    (List.range n).foldl (fun (count : ℤ) i => if p i then count + 1 else count) 0 =
      ((Finset.range n).filter fun i => p i = true).card := by
  induction n with
  | zero => simp
  | succ n ih =>
    rw [List.range_succ, List.foldl_append, ih, Finset.range_add_one, Finset.filter_insert]
    cases hp : p n
    · simp [hp]
    · rw [if_pos rfl, Finset.card_insert_of_notMem (by simp)]
      simp [hp]

/-- Keeping the last number that passes. -/
theorem foldl_last_range (p : ℕ → Bool) (start : ℤ) (n : ℕ) :
    ((∀ i < n, p i = false) ∧
      (List.range n).foldl (fun last i => if p i then (i : ℤ) else last) start = start) ∨
    ∃ i, IsGreatest {i | i < n ∧ p i = true} i ∧
      (List.range n).foldl (fun last i => if p i then (i : ℤ) else last) start = i := by
  induction n with
  | zero => exact .inl ⟨fun i hi => absurd hi (Nat.not_lt_zero i), rfl⟩
  | succ n ih =>
    rw [List.range_succ, List.foldl_append]
    cases hp : p n with
    | true =>
      right
      refine ⟨n, ⟨⟨Nat.lt_succ_self n, hp⟩, fun i hi => Nat.le_of_lt_succ hi.1⟩, ?_⟩
      simp [hp]
    | false =>
      have hbelow {i : ℕ} (hi : i < n + 1) (hpi : p i = true) : i < n := by
        apply lt_of_le_of_ne (Nat.le_of_lt_succ hi)
        rintro rfl
        rw [hp] at hpi
        cases hpi
      simp only [List.foldl_cons, List.foldl_nil, hp, Bool.false_eq_true, if_false]
      apply ih.imp
      · rintro ⟨hnone, hlast⟩
        refine ⟨fun i hi => ?_, hlast⟩
        rcases Nat.lt_succ_iff_lt_or_eq.mp hi with hlt | rfl
        · exact hnone i hlt
        · exact hp
      · rintro ⟨i, hi, hlast⟩
        refine ⟨i, ⟨⟨hi.1.1.trans (Nat.lt_succ_self n), hi.1.2⟩, fun j hj => ?_⟩, hlast⟩
        exact hi.2 ⟨hbelow hj.1 hj.2, hj.2⟩

end LdacsSdk.Library
