import Mathlib.Tactic

/-!
# Opening and closing events in a trace

A trace is a list of events in the order they happened. `o` opens something and `c` closes it;
what one more event does to the open state and to the separation of the openings is said once.
-/
namespace LdacsSdk.Library

variable {ε : Type*} {o c e : ε} {t : List ε}

/-- The last opening has not been closed. -/
def OpenAfter (o c : ε) (t : List ε) : Prop := ∃ a b, t = a ++ o :: b ∧ c ∉ b

/-- Between any two openings there is a closing. -/
def Separated (o c : ε) (t : List ε) : Prop :=
  ∀ x y z, t = x ++ o :: (y ++ o :: z) → c ∈ y

theorem not_openAfter_nil : ¬ OpenAfter o c [] := fun ⟨a, b, h, _⟩ => by simp at h

theorem separated_nil : Separated o c [] := fun x y z h => by simp at h

theorem OpenAfter.of_snoc (h : OpenAfter o c (t ++ [e])) (he : e ≠ o) :
    OpenAfter o c t ∧ e ≠ c := by
  obtain ⟨a, b, hab, hc⟩ := h
  rcases List.eq_nil_or_concat' b with rfl | ⟨b', e', rfl⟩
  · have := (List.append_inj' hab rfl).2
    exact absurd (by simpa using this) he
  · rw [← List.cons_append, ← List.append_assoc] at hab
    obtain ⟨ht, he'⟩ := List.append_inj' hab rfl
    obtain rfl : e = e' := by simpa using he'
    simp only [List.mem_append, List.mem_singleton, not_or] at hc
    exact ⟨⟨a, b', ht, hc.1⟩, Ne.symm hc.2⟩

theorem Separated.snoc (h : Separated o c t) (he : e = o → ¬ OpenAfter o c t) :
    Separated o c (t ++ [e]) := by
  intro x y z hxyz
  rcases List.eq_nil_or_concat' z with rfl | ⟨z', e', rfl⟩
  · rw [← List.cons_append, ← List.append_assoc] at hxyz
    obtain ⟨ht, heo⟩ := List.append_inj' hxyz rfl
    by_contra hc
    exact he (by simpa using heo) ⟨x, y, ht, hc⟩
  · have hsplit : x ++ o :: (y ++ o :: (z' ++ [e'])) = (x ++ o :: (y ++ o :: z')) ++ [e'] := by
      simp
    rw [hsplit] at hxyz
    exact h x y z' (List.append_inj' hxyz rfl).1

end LdacsSdk.Library
