import Mathlib.Tactic

/-!
# Sums over concurrent calls

The calls of an interleaving are a list: a new call is appended, a step of one call replaces its
entry. A tally sums a weight over them, in the numbers to count calls or in multisets to
collect what they hold, and changes with one call by the difference of its weights.
-/
namespace LdacsSdk.Library

variable {γ M : Type*} [AddCommMonoid M] {f : γ → M} {calls : List γ} {c c' : γ} {i : ℕ}

/-- The sum of a weight over calls. -/
def tally (f : γ → M) (calls : List γ) : M := (calls.map f).sum

@[simp]
theorem tally_nil : tally f ([] : List γ) = 0 := rfl

@[simp]
theorem tally_cons : tally f (c :: calls) = f c + tally f calls := by
  simp [tally]

/-- A new call adds its weight. -/
@[simp]
theorem tally_append : tally f (calls ++ [c]) = tally f calls + f c := by
  simp [tally]

/-- A step of one call exchanges its weight. -/
theorem tally_set (h : calls[i]? = some c) :
    tally f (calls.set i c') + f c = tally f calls + f c' := by
  induction calls generalizing i with
  | nil => simp at h
  | cons b calls ih =>
    cases i with
    | zero =>
      obtain rfl : b = c := by simpa using h
      simp only [List.set_cons_zero, tally_cons]
      abel
    | succ i =>
      have hrest : tally f (calls.set i c') + f c = tally f calls + f c' := ih (by simpa using h)
      simp only [List.set_cons_succ, tally_cons]
      rw [add_assoc, hrest, add_assoc]

/-- A step that keeps the weight of its call keeps the tally. -/
theorem tally_set_of_eq [IsCancelAdd M] (h : calls[i]? = some c) (hw : f c' = f c) :
    tally f (calls.set i c') = tally f calls := by
  have hset : tally f (calls.set i c') + f c = tally f calls + f c' := tally_set h
  rw [hw] at hset
  exact add_right_cancel hset

/-- The weight of one call apart from the others. -/
theorem tally_eq_add (h : calls[i]? = some c) : ∃ r, tally f calls = f c + r := by
  induction calls generalizing i with
  | nil => simp at h
  | cons b calls ih =>
    cases i with
    | zero =>
      obtain rfl : b = c := by simpa using h
      exact ⟨tally f calls, tally_cons⟩
    | succ i =>
      obtain ⟨r, hr⟩ := ih (i := i) (by simpa using h)
      refine ⟨f b + r, ?_⟩
      rw [tally_cons, hr]
      abel

theorem tally_zero (h : ∀ c ∈ calls, f c = 0) : tally f calls = 0 := by
  induction calls with
  | nil => rfl
  | cons b calls ih =>
    rw [tally_cons, h b (by simp), ih fun c hc => h c (by simp [hc]), add_zero]

/-- What a tally of multisets has comes from one of the calls. -/
theorem mem_tally {β : Type*} {f : γ → Multiset β} {x : β} :
    x ∈ tally f calls ↔ ∃ c ∈ calls, x ∈ f c := by
  induction calls with
  | nil => simp
  | cons b calls ih => simp [ih]

/-- A tally of smaller numbers is smaller. -/
theorem tally_le {g : γ → ℕ} {f : γ → ℕ} (h : ∀ c, f c ≤ g c) (calls : List γ) :
    tally f calls ≤ tally g calls := by
  induction calls with
  | nil => exact le_rfl
  | cons b calls ih =>
    rw [tally_cons, tally_cons]
    exact Nat.add_le_add (h b) ih

end LdacsSdk.Library
