import Mathlib.Tactic

/-!
# Loops with a bounded number of rounds

A loop body takes a state and either leaves the loop with a state or goes round again; a body
that does not return has no value. `whileLoop` runs at most a given number of rounds. An
invariant gives what holds when the loop is left, a well-founded order that it is left.
-/
namespace LdacsSdk.Library

/-- How one round of a loop ends. -/
inductive Round (σ : Type*) where
  | leave (s : σ)
  | again (s : σ)
  deriving DecidableEq, Repr

/-- A loop of at most `fuel` rounds; with no round left it has no value. -/
def whileLoop {σ : Type*} (body : σ → Option (Round σ)) : ℕ → σ → Option σ
  | 0, _ => none
  | fuel + 1, s =>
    match body s with
    | none => none
    | some (.leave s') => some s'
    | some (.again s') => whileLoop body fuel s'

/-- The loop is left with `t`, however many rounds beyond the needed ones it may take. -/
def LeavesWith {σ : Type*} (body : σ → Option (Round σ)) (s t : σ) : Prop :=
  ∃ fuel, ∀ k, whileLoop body (fuel + k) s = some t

variable {σ : Type*} {body : σ → Option (Round σ)} {s t : σ}

theorem LeavesWith.leave (h : body s = some (.leave t)) : LeavesWith body s t :=
  ⟨1, fun k => by simp [Nat.add_comm 1 k, whileLoop, h]⟩

theorem LeavesWith.again {s' : σ} (h : body s = some (.again s')) (ht : LeavesWith body s' t) :
    LeavesWith body s t := by
  obtain ⟨fuel, hfuel⟩ := ht
  exact ⟨fuel + 1, fun k => by simp [Nat.add_right_comm fuel 1 k, whileLoop, h, hfuel]⟩

/-- What holds when the loop is left: the invariant holds on entry and is kept by every round
that goes on, and leaving from it gives `Q`. -/
theorem whileLoop_invariant {I Q : σ → Prop}
    (hagain : ∀ s s', I s → body s = some (.again s') → I s')
    (hleave : ∀ s s', I s → body s = some (.leave s') → Q s') {fuel : ℕ} (hs : I s)
    (h : whileLoop body fuel s = some t) : Q t := by
  induction fuel generalizing s with
  | zero => simp [whileLoop] at h
  | succ fuel ih =>
    unfold whileLoop at h
    split at h
    · cases h
    · next hbody => cases h; exact hleave _ _ hs hbody
    · next hbody => exact ih (hagain _ _ hs hbody) h

/-- A loop whose every round from the invariant returns, and goes on only to something smaller
that satisfies the invariant again, is left. -/
theorem whileLoop_terminates {α : Type*} {r : α → α → Prop} (wf : WellFounded r) (measure : σ → α)
    {I : σ → Prop}
    (hround : ∀ s, I s → ∃ out, body s = some out ∧
      ∀ s', out = .again s' → I s' ∧ r (measure s') (measure s)) (hs : I s) :
    ∃ t, LeavesWith body s t := by
  obtain ⟨m, hm⟩ : ∃ m, measure s = m := ⟨_, rfl⟩
  induction m using wf.induction generalizing s with
  | _ m ih =>
    obtain ⟨out, hout, hnext⟩ := hround s hs
    cases out with
    | leave t => exact ⟨t, .leave hout⟩
    | again s' =>
      obtain ⟨hs', hsmaller⟩ := hnext s' rfl
      obtain ⟨t, ht⟩ := ih _ (hm ▸ hsmaller) hs' rfl
      exact ⟨t, ht.again hout⟩

/-- A loop whose every round from the invariant returns, and goes on only with a smaller natural
number and the invariant, needs one round more than that number. -/
theorem whileLoop_isSome (measure : σ → ℕ) {I : σ → Prop}
    (hround : ∀ s, I s → ∃ out, body s = some out ∧
      ∀ s', out = .again s' → I s' ∧ measure s' < measure s) {fuel : ℕ} (hs : I s)
    (hfuel : measure s < fuel) : ∃ t, whileLoop body fuel s = some t := by
  induction fuel generalizing s with
  | zero => omega
  | succ fuel ih =>
    obtain ⟨out, hout, hnext⟩ := hround s hs
    cases out with
    | leave t => exact ⟨t, by simp [whileLoop, hout]⟩
    | again s' =>
      obtain ⟨hs', hsmaller⟩ := hnext s' rfl
      obtain ⟨t, ht⟩ := ih hs' (by omega)
      exact ⟨t, by simp [whileLoop, hout, ht]⟩

/-- A loop whose every round from the invariant leaves it with `Q`, or goes on with a smaller
natural number and the invariant. -/
theorem whileLoop_spec (measure : σ → ℕ) {I Q : σ → Prop}
    (hround : ∀ s, I s → (∃ t, body s = some (.leave t) ∧ Q t) ∨
      ∃ s', body s = some (.again s') ∧ I s' ∧ measure s' < measure s) {fuel : ℕ} (hs : I s)
    (hfuel : measure s < fuel) : ∃ t, whileLoop body fuel s = some t ∧ Q t := by
  induction fuel generalizing s with
  | zero => omega
  | succ fuel ih =>
    rcases hround s hs with ⟨t, hleave, ht⟩ | ⟨s', hagain, hs', hsmaller⟩
    · exact ⟨t, by simp [whileLoop, hleave], ht⟩
    · obtain ⟨t, hloop, ht⟩ := ih hs' (by omega)
      exact ⟨t, by simp [whileLoop, hagain, hloop], ht⟩

/-- A loop whose every round from the invariant does not return, or goes on with the invariant, is
never left. -/
theorem whileLoop_never {I : σ → Prop}
    (hround : ∀ s, I s → body s = none ∨ ∃ s', body s = some (.again s') ∧ I s') (hs : I s)
    (fuel : ℕ) : whileLoop body fuel s = none := by
  induction fuel generalizing s with
  | zero => rfl
  | succ fuel ih =>
    rcases hround s hs with hnone | ⟨s', hagain, hs'⟩
    · simp [whileLoop, hnone]
    · simpa [whileLoop, hagain] using ih hs'

/-- A loop whose first round leaves it. -/
theorem whileLoop_of_leave {s' : σ} {fuel : ℕ} (hbody : body s = some (.leave s'))
    (h : whileLoop body fuel s = some t) : t = s' := by
  cases fuel with
  | zero => simp [whileLoop] at h
  | succ fuel =>
    simp only [whileLoop, hbody, Option.some.injEq] at h
    exact h.symm

/-- A loop whose first round goes on. -/
theorem whileLoop_of_again {s' : σ} {fuel : ℕ} (hbody : body s = some (.again s'))
    (h : whileLoop body fuel s = some t) : ∃ fuel', whileLoop body fuel' s' = some t := by
  cases fuel with
  | zero => simp [whileLoop] at h
  | succ fuel =>
    simp only [whileLoop, hbody] at h
    exact ⟨fuel, h⟩

end LdacsSdk.Library
