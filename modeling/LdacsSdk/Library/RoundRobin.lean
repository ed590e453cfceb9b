import Mathlib.Tactic

/-!
# Queues served in turn

The member at the front of a queue has its turn and, unless that was its last one, goes to the
back with one turn less. The member that leaves last is the one that needs the most turns, and
the last of those; passing a turn on does not change which one that is.
-/
namespace LdacsSdk.Library

variable {α : Type*}

/-- `a` is the last to leave: nobody needs more turns, and nobody behind it as many. -/
def LastOut (turns : α → ℕ) (queue : List α) (a : α) : Prop :=
  ∃ ahead behind, queue = ahead ++ a :: behind ∧
    (∀ b ∈ ahead, turns b ≤ turns a) ∧ ∀ b ∈ behind, turns b < turns a

variable {turns turns' : α → ℕ} {queue rest : List α} {a x : α}

@[simp] theorem not_lastOut_nil : ¬LastOut turns [] a := by
  rintro ⟨ahead, behind, hqueue, -, -⟩
  simp at hqueue

/-- The front is the last to leave or comes before the last one of the others. -/
theorem lastOut_cons : LastOut turns (x :: rest) a ↔
    a = x ∧ (∀ b ∈ rest, turns b < turns a) ∨ turns x ≤ turns a ∧ LastOut turns rest a := by
  constructor
  · rintro ⟨ahead, behind, hqueue, hahead, hbehind⟩
    cases ahead with
    | nil =>
      obtain ⟨rfl, rfl⟩ := List.cons.inj hqueue
      exact .inl ⟨rfl, hbehind⟩
    | cons y ahead =>
      obtain ⟨rfl, hrest⟩ := List.cons.inj hqueue
      exact .inr ⟨hahead x (by simp), ahead, behind, hrest, fun b hb => hahead b (by simp [hb]),
        hbehind⟩
  · rintro (⟨rfl, hmost⟩ | ⟨hle, ahead, behind, rfl, hahead, hbehind⟩)
    · exact ⟨[], rest, rfl, by simp, hmost⟩
    · refine ⟨x :: ahead, behind, rfl, ?_, hbehind⟩
      intro b hb
      rcases List.mem_cons.mp hb with rfl | hb
      · exact hle
      · exact hahead b hb

instance decidableLastOut [DecidableEq α] (turns : α → ℕ) (a : α) :
    (queue : List α) → Decidable (LastOut turns queue a)
  | [] => isFalse not_lastOut_nil
  | _ :: rest =>
    have := decidableLastOut turns a rest
    decidable_of_iff _ lastOut_cons.symm

theorem LastOut.mem (h : LastOut turns queue a) : a ∈ queue := by
  obtain ⟨ahead, behind, rfl, -, -⟩ := h
  simp

/-- Nobody needs more turns. -/
theorem LastOut.le (h : LastOut turns queue a) {b : α} (hb : b ∈ queue) : turns b ≤ turns a := by
  obtain ⟨ahead, behind, rfl, hahead, hbehind⟩ := h
  rcases List.mem_append.mp hb with hb | hb
  · exact hahead b hb
  · rcases List.mem_cons.mp hb with rfl | hb
    · exact le_rfl
    · exact (hbehind b hb).le

theorem exists_lastOut (turns : α → ℕ) (h : queue ≠ []) : ∃ a, LastOut turns queue a := by
  induction queue with
  | nil => exact absurd rfl h
  | cons x rest ih =>
    by_cases hlast : ∀ b ∈ rest, turns b < turns x
    · exact ⟨x, [], rest, rfl, by simp, hlast⟩
    · push Not at hlast
      obtain ⟨b, hb, hle⟩ := hlast
      obtain ⟨a, ha⟩ := ih (List.ne_nil_of_mem hb)
      exact ⟨a, lastOut_cons.mpr (.inr ⟨hle.trans (ha.le hb), ha⟩)⟩

theorem LastOut.congr (h : LastOut turns queue a) (heq : ∀ b ∈ queue, turns' b = turns b) :
    LastOut turns' queue a := by
  obtain ⟨ahead, behind, rfl, hahead, hbehind⟩ := h
  refine ⟨ahead, behind, rfl, ?_, ?_⟩
  · intro b hb
    rw [heq b (by simp [hb]), heq a (by simp)]
    exact hahead b hb
  · intro b hb
    rw [heq b (by simp [hb]), heq a (by simp)]
    exact hbehind b hb

/-- At the front, the last to leave needs more turns than all the others. -/
theorem LastOut.head (h : LastOut turns (a :: rest) a) (hnodup : (a :: rest).Nodup) :
    ∀ b ∈ rest, turns b < turns a := by
  rcases lastOut_cons.mp h with ⟨-, hmost⟩ | ⟨-, hrest⟩
  · exact hmost
  · exact absurd hrest.mem (List.nodup_cons.mp hnodup).1

/-- Another member at the front leaves. -/
theorem LastOut.tail (h : LastOut turns (x :: rest) a) (hne : a ≠ x) : LastOut turns rest a :=
  ((lastOut_cons.mp h).resolve_left fun hx => hne hx.1).2

/-- The member at the front has its turn and goes to the back. -/
theorem LastOut.rotate (h : LastOut turns (x :: rest) a) (hnodup : (x :: rest).Nodup)
    (hless : turns x = turns' x + 1) (heq : ∀ b ∈ rest, turns' b = turns b) :
    LastOut turns' (rest ++ [x]) a := by
  by_cases hax : a = x
  · subst hax
    have hmost := h.head hnodup
    refine ⟨rest, [], rfl, ?_, by simp⟩
    intro b hb
    have := hmost b hb
    rw [heq b hb]
    omega
  · have hfront : turns x ≤ turns a := h.le List.mem_cons_self
    have hrest := h.tail hax
    have ha := heq a hrest.mem
    obtain ⟨ahead, behind, hqueue, hahead, hbehind⟩ := hrest.congr heq
    refine ⟨ahead, behind ++ [x], by simp [hqueue], hahead, ?_⟩
    intro b hb
    rcases List.mem_append.mp hb with hb | hb
    · exact hbehind b hb
    · rw [List.mem_singleton.mp hb]
      omega

end LdacsSdk.Library
