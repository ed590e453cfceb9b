import LdacsSdk.Library.Loops
import Mathlib.Logic.Relation

/-!
# Feeding a loop in pieces

A loop that consumes input from the front of what it holds is run to its end after each piece of
the input. If every round that goes on does the same in front of further input, and a round that
leaves either waits for more or has come to an end that further input does not change, the pieces
do not matter: the loop gets as far as on the whole input at once.
-/
namespace LdacsSdk.Library

variable {σ τ β ρ : Type*} {body : σ → Option (Round σ)} {s s' t t' u : σ}

/-- A round seen through a map of the states. -/
def Round.map (f : σ → τ) : Round σ → Round τ
  | .leave s => .leave (f s)
  | .again s => .again (f s)

/-- Any number of rounds that go on. -/
abbrev Rounds (body : σ → Option (Round σ)) : σ → σ → Prop :=
  Relation.ReflTransGen fun s s' => body s = some (.again s')

theorem LeavesWith.unique (h : LeavesWith body s t) (h' : LeavesWith body s t') : t = t' := by
  obtain ⟨fuel, hfuel⟩ := h
  obtain ⟨fuel', hfuel'⟩ := h'
  have heq := hfuel fuel'
  rw [Nat.add_comm, hfuel' fuel] at heq
  exact (Option.some.inj heq).symm

theorem Rounds.leavesWith (h : Rounds body s u) (ht : LeavesWith body u t) :
    LeavesWith body s t := by
  induction h using Relation.ReflTransGen.head_induction_on with
  | refl => exact ht
  | head hround _ ih => exact ih.again hround

theorem exists_rounds {fuel : ℕ} (h : whileLoop body fuel s = some t) :
    ∃ u, Rounds body s u ∧ body u = some (.leave t) := by
  induction fuel generalizing s with
  | zero => simp [whileLoop] at h
  | succ fuel ih =>
    unfold whileLoop at h
    split at h
    · cases h
    · next hbody =>
      cases h
      exact ⟨s, .refl, hbody⟩
    · next hbody =>
      obtain ⟨u, hu, hleave⟩ := ih h
      exact ⟨u, hu.head hbody, hleave⟩

theorem leavesWith_of_whileLoop {fuel : ℕ} (h : whileLoop body fuel s = some t) :
    LeavesWith body s t := by
  obtain ⟨u, hu, hleave⟩ := exists_rounds h
  exact hu.leavesWith (.leave hleave)

/-- Rounds that go on do not change where the loop is left. -/
theorem Rounds.leavesWith_rest (h : Rounds body s u) (ht : LeavesWith body s t) :
    LeavesWith body u t := by
  induction h with
  | refl => exact ht
  | tail _ hround ih =>
    obtain ⟨fuel, hfuel⟩ := ih
    obtain ⟨fuel', hrest⟩ := whileLoop_of_again hround (hfuel 0)
    exact leavesWith_of_whileLoop hrest

theorem LeavesWith.exists_rounds (h : LeavesWith body s t) :
    ∃ u, Rounds body s u ∧ body u = some (.leave t) := by
  obtain ⟨fuel, hfuel⟩ := h
  exact Library.exists_rounds (hfuel 0)

/-- A loop whose rounds are seen as the rounds of another, as long as an invariant holds. -/
theorem whileLoop_view {body' : τ → Option (Round τ)} (view : σ → τ) {I : σ → Prop}
    (hview : ∀ s r, I s → body s = some r → body' (view s) = some (r.map view))
    (hagain : ∀ s s', I s → body s = some (.again s') → I s') {fuel : ℕ} (hs : I s)
    (h : whileLoop body fuel s = some t) : LeavesWith body' (view s) (view t) := by
  induction fuel generalizing s with
  | zero => simp [whileLoop] at h
  | succ fuel ih =>
    unfold whileLoop at h
    split at h
    · cases h
    · next hbody =>
      cases h
      exact .leave (hview _ _ hs hbody)
    · next hbody => exact (ih (hagain _ _ hs hbody) h).again (hview _ _ hs hbody)

/-- Input is pushed behind what the loop holds. It changes neither a round that goes on nor an end
that was come to; a round that leaves without an end leaves the state alone. -/
structure Feeds (body : σ → Option (Round σ)) (push : σ → List β → σ) (ended : σ → Option ρ) :
    Prop where
  push_nil : ∀ s, push s [] = s
  push_append : ∀ s xs ys, push (push s xs) ys = push s (xs ++ ys)
  again : ∀ s s' ys, body s = some (.again s') → body (push s ys) = some (.again (push s' ys))
  leave : ∀ s t, body s = some (.leave t) → t = s ∧ ended t = none ∨
    ∃ r, ended t = some r ∧ ∀ ys, ∃ t', body (push s ys) = some (.leave t') ∧ ended t' = some r

/-- The loop is run after each piece, until it has come to an end. -/
inductive FedPieces (body : σ → Option (Round σ)) (push : σ → List β → σ) (ended : σ → Option ρ) :
    σ → List (List β) → σ → Prop
  | done (s : σ) : FedPieces body push ended s [] s
  | ended {s t : σ} {xs : List β} {pieces : List (List β)} {r : ρ} :
    LeavesWith body (push s xs) t → ended t = some r → FedPieces body push ended s (xs :: pieces) t
  | next {s t u : σ} {xs : List β} {pieces : List (List β)} :
    LeavesWith body (push s xs) t → ended t = none → FedPieces body push ended t pieces u →
      FedPieces body push ended s (xs :: pieces) u

variable {push : σ → List β → σ} {ended : σ → Option ρ}

theorem Feeds.rounds (h : Feeds body push ended) (ys : List β) (hs : Rounds body s u) :
    Rounds body (push s ys) (push u ys) := by
  induction hs with
  | refl => exact .refl
  | tail _ hround ih => exact ih.tail (h.again _ _ ys hround)

/-- Pieces of input take the loop as far as the whole input: to the same end, or to the same
state when there is none. -/
theorem Feeds.pieces_eq_whole (h : Feeds body push ended) {pieces : List (List β)}
    (hs : body s = some (.leave s)) (hpieces : FedPieces body push ended s pieces t)
    (hwhole : LeavesWith body (push s pieces.flatten) t') :
    ended t' = ended t ∧ (ended t = none → t' = t) := by
  induction hpieces with
  | done s =>
    rw [List.flatten_nil, h.push_nil] at hwhole
    obtain rfl := hwhole.unique (.leave hs)
    exact ⟨rfl, fun _ => rfl⟩
  | @ended s t xs pieces r hpiece hend =>
    obtain ⟨u, hu, hleave⟩ := hpiece.exists_rounds
    rcases h.leave u t hleave with ⟨-, hnone⟩ | ⟨r', hend', hlater⟩
    · rw [hnone] at hend
      cases hend
    · obtain ⟨t'', hleave'', hend''⟩ := hlater pieces.flatten
      have hrounds := h.rounds pieces.flatten hu
      rw [h.push_append, ← List.flatten_cons] at hrounds
      obtain rfl := hwhole.unique (hrounds.leavesWith (.leave hleave''))
      refine ⟨hend''.trans hend'.symm, fun hnone => ?_⟩
      rw [hnone] at hend
      cases hend
  | @next s t u xs pieces hpiece hnone _ ih =>
    obtain ⟨v, hv, hleave⟩ := hpiece.exists_rounds
    rcases h.leave v t hleave with ⟨rfl, -⟩ | ⟨r, hend, -⟩
    · have hrounds := h.rounds pieces.flatten hv
      rw [h.push_append, ← List.flatten_cons] at hrounds
      exact ih hleave (hrounds.leavesWith_rest hwhole)
    · rw [hnone] at hend
      cases hend

end LdacsSdk.Library
