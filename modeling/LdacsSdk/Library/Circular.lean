import Mathlib.Tactic

/-!
# Counters seen through a circular index

An unbounded counter `k` is stored as `k % n`. A stretch of fewer than `n` consecutive
counters is recovered from the indices of its two ends by a comparison with wrap-around.
-/
namespace LdacsSdk.Library

variable {n a d j k : ℕ}

/-- The index of a counter at most one lap ahead, by a comparison and a subtraction. -/
theorem add_mod_wrap (hn : 0 < n) (hd : d ≤ n) :
    (a + d) % n = if a % n + d < n then a % n + d else a % n + d - n := by
  have ha := Nat.mod_lt a hn
  rw [Nat.add_mod]
  rcases Nat.lt_or_eq_of_le hd with h | rfl
  · rw [Nat.mod_eq_of_lt h]
    split_ifs with hw
    · exact Nat.mod_eq_of_lt hw
    · rw [Nat.mod_eq_sub_mod (by omega), Nat.mod_eq_of_lt (by omega)]
  · rw [Nat.mod_self, if_neg (by omega)]
    simp

/-- Advancing a stored index agrees with advancing the counter. -/
theorem succ_mod_index : (k % n + 1) % n = (k + 1) % n := by
  rw [Nat.add_mod, Nat.mod_mod, ← Nat.add_mod]

/-- Distinct counters of one lap have distinct indices. -/
theorem mod_inj_of_lap (hj : a ≤ j ∧ j < a + n) (hk : a ≤ k ∧ k < a + n) (h : j % n = k % n) :
    j = k := by
  obtain ⟨i, rfl⟩ := Nat.exists_eq_add_of_le hj.1
  obtain ⟨l, rfl⟩ := Nat.exists_eq_add_of_le hk.1
  have hn : 0 < n := by omega
  have ha := Nat.mod_lt a hn
  rw [add_mod_wrap hn (by omega), add_mod_wrap hn (by omega)] at h
  split_ifs at h <;> omega

/-- Every index is the index of some counter of a given lap. -/
theorem exists_mod_eq_of_lap (a : ℕ) {p : ℕ} (hp : p < n) : ∃ k, a ≤ k ∧ k < a + n ∧ k % n = p := by
  have hn : 0 < n := by omega
  have ha := Nat.mod_lt a hn
  by_cases hlo : a % n ≤ p
  · refine ⟨a + (p - a % n), by omega, by omega, ?_⟩
    rw [add_mod_wrap hn (by omega), if_pos (by omega)]
    omega
  · refine ⟨a + (p + n - a % n), by omega, by omega, ?_⟩
    rw [add_mod_wrap hn (by omega), if_neg (by omega)]
    omega

/-- The circular interval from index `lo` up to index `hi`, empty when they are equal. -/
def InRange (lo hi p : ℕ) : Prop := (lo ≤ p ∧ p < hi) ∨ (hi < lo ∧ (lo ≤ p ∨ p < hi))

instance : DecidablePred (InRange lo hi) := fun p => by unfold InRange; infer_instance

/-- The comparison test finds exactly the indices of a stretch shorter than one lap. -/
theorem inRange_iff (hd : d < n) {p : ℕ} (hp : p < n) :
    InRange (a % n) ((a + d) % n) p ↔ ∃ k, a ≤ k ∧ k < a + d ∧ k % n = p := by
  have hn : 0 < n := by omega
  have ha := Nat.mod_lt a hn
  constructor
  · intro h
    unfold InRange at h
    rw [add_mod_wrap hn hd.le] at h
    by_cases hlo : a % n ≤ p
    · refine ⟨a + (p - a % n), by omega, ?_, ?_⟩
      · split_ifs at h <;> omega
      · rw [add_mod_wrap hn (by omega)]
        split_ifs <;> omega
    · refine ⟨a + (p + n - a % n), by omega, ?_, ?_⟩
      · split_ifs at h <;> omega
      · rw [add_mod_wrap hn (by omega)]
        split_ifs <;> omega
  · rintro ⟨k, hak, hkd, rfl⟩
    obtain ⟨i, rfl⟩ := Nat.exists_eq_add_of_le hak
    unfold InRange
    rw [add_mod_wrap hn hd.le, add_mod_wrap hn (by omega : i ≤ n)]
    split_ifs <;> omega

/-- The comparison test is a bound on the distance modulo the lap. -/
theorem inRange_iff_emod {p : ℕ} (ha : a < n) (hd : d < n) (hp : p < n) :
    InRange a ((a + d) % n) p ↔ ((p : ℤ) - a) % n < d := by
  have hmod := Nat.mod_eq_of_lt ha
  have hdist : ((p : ℤ) - a) % n = if a ≤ p then (p : ℤ) - a else p - a + n := by
    split_ifs with hle
    · exact Int.emod_eq_of_lt (by omega) (by omega)
    · rw [← Int.add_emod_right]
      exact Int.emod_eq_of_lt (by omega) (by omega)
  rw [hdist, add_mod_wrap (by omega) hd.le, hmod]
  unfold InRange
  split_ifs <;> omega

/-- The distance between two counters of one lap, read off their indices. -/
theorem mod_distance (hd : d < n) : ((a + d) % n + n - a % n) % n = d := by
  have hn : 0 < n := by omega
  have ha := Nat.mod_lt a hn
  rw [add_mod_wrap hn hd.le]
  split_ifs
  · rw [show a % n + d + n - a % n = d + n by omega, Nat.add_mod_right, Nat.mod_eq_of_lt hd]
  · rw [show a % n + d - n + n - a % n = d by omega, Nat.mod_eq_of_lt hd]

end LdacsSdk.Library
