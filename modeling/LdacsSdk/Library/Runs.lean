import Mathlib.Logic.Relation
import Mathlib.Tactic

/-!
# Runs of a partial step function

A machine is a partial function from a state and an operation to the next state. Runs are
reflexive-transitive closures of its steps, restricted to operations that a guard admits.
The induction over a run is done here once; a client supplies one preservation lemma per step.
-/
namespace LdacsSdk.Library

variable {σ α : Type*} {step : σ → α → Option σ} {meets meets' : σ → α → Prop} {s₀ s t : σ}

/-- One step whose operation is admitted by the guard. -/
def GuardedStep (step : σ → α → Option σ) (meets : σ → α → Prop) (s t : σ) : Prop :=
  ∃ a, meets s a ∧ step s a = some t

/-- The states reached from `s₀` by admitted steps. -/
abbrev Reaches (step : σ → α → Option σ) (meets : σ → α → Prop) (s₀ : σ) : σ → Prop :=
  Relation.ReflTransGen (GuardedStep step meets) s₀

/-- The guard that admits every operation. -/
def anyOp (_ : σ) (_ : α) : Prop := True

theorem Reaches.start : Reaches step meets s₀ s₀ := Relation.ReflTransGen.refl

theorem Reaches.next (h : Reaches step meets s₀ s) {a : α} (ha : meets s a)
    (hs : step s a = some t) : Reaches step meets s₀ t :=
  h.tail ⟨a, ha, hs⟩

/-- An initial fact kept by every admitted step holds in every state of every run. -/
theorem Reaches.invariant {P : σ → Prop} (hinit : P s₀)
    (hstep : ∀ s a t, P s → meets s a → step s a = some t → P t)
    (h : Reaches step meets s₀ s) : P s := by
  induction h with
  | refl => exact hinit
  | tail _ hst ih =>
    obtain ⟨a, ha, hs⟩ := hst
    exact hstep _ a _ ih ha hs

/-- A fact kept by every admitted step, which can always be taken, holds in every state of every
run, and no run gets stuck. -/
theorem Reaches.invariant_of_total {P : σ → Prop} (hinit : P s₀)
    (htotal : ∀ s a, P s → meets s a → ∃ t, step s a = some t ∧ P t)
    (h : Reaches step meets s₀ s) : P s ∧ ∀ a, meets s a → ∃ t, step s a = some t ∧ P t := by
  have hinv : P s := by
    apply h.invariant hinit
    intro u a t hu ha hstep
    obtain ⟨t', hstep', ht'⟩ := htotal u a hu ha
    obtain rfl : t' = t := Option.some.inj (hstep'.symm.trans hstep)
    exact ht'
  exact ⟨hinv, fun a ha => htotal s a hinv ha⟩

/-- A weaker guard reaches at least as much. -/
theorem Reaches.weaken (hw : ∀ s a, meets s a → meets' s a) (h : Reaches step meets s₀ s) :
    Reaches step meets' s₀ s :=
  Relation.ReflTransGen.mono (fun _ _ ⟨a, ha, hs⟩ => ⟨a, hw _ a ha, hs⟩) _ _ h

instance (s : σ) (a : α) : Decidable (anyOp s a) := inferInstanceAs (Decidable True)

/-- Feed a list of operations, stopping at one that the guard or the step refuses. -/
def runOps (step : σ → α → Option σ) (meets : σ → α → Prop) [∀ s a, Decidable (meets s a)]
    (s₀ : σ) : List α → Option σ
  | [] => some s₀
  | a :: as => if meets s₀ a then (step s₀ a).bind fun s => runOps step meets s as else none

/-- Feeding a list of operations is one particular run. -/
theorem reaches_of_runOps [∀ s a, Decidable (meets s a)] (as : List α)
    (h : runOps step meets s₀ as = some t) : Reaches step meets s₀ t := by
  induction as generalizing s₀ with
  | nil => cases h; exact Reaches.start
  | cons a as ih =>
    unfold runOps at h
    split_ifs at h with ha
    obtain ⟨s, hs, ht⟩ := Option.bind_eq_some_iff.mp h
    exact Relation.ReflTransGen.head ⟨a, ha, hs⟩ (ih ht)

end LdacsSdk.Library
