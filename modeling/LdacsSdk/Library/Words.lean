import Mathlib.Data.List.TakeWhile
import Mathlib.Tactic

/-!
# The words of a list

The words of a list are its maximal runs without a separator: what lies between the separators,
less the empty pieces. A reader that drops the separators in front and then takes what comes before
the next one finds the first of them.
-/
namespace LdacsSdk.Library

variable {α : Type*} {sep : α → Bool} {a : α} {l w : List α}

/-- The maximal runs without a separator, in order. -/
def words (sep : α → Bool) (l : List α) : List (List α) :=
  (l.splitOnP sep).filter fun w => !w.isEmpty

@[simp] theorem words_nil : words sep [] = [] := by
  simp [words]

theorem words_cons (h : sep a = true) : words sep (a :: l) = words sep l := by
  simp [words, List.splitOnP_cons_eq_if_modifyHead, h]

/-- A list without a separator is a word. -/
theorem words_eq_singleton (h : ∀ x ∈ w, sep x = false) (hne : w ≠ []) : words sep w = [w] := by
  simp [words, List.splitOnP_eq_singleton h, hne]

/-- The first word ends before the first separator. -/
theorem words_append_cons (h : ∀ x ∈ w, sep x = false) (hne : w ≠ []) (ha : sep a = true) :
    words sep (w ++ a :: l) = w :: words sep (a :: l) := by
  rw [words_cons ha]
  simp [words, List.splitOnP_append_cons_of_forall_mem h a ha, hne]

theorem words_dropWhile (l : List α) : words sep (l.dropWhile sep) = words sep l := by
  induction l with
  | nil => rfl
  | cons a l ih =>
    cases ha : sep a with
    | true => rw [List.dropWhile_cons_of_pos ha, ih, words_cons ha]
    | false => rw [List.dropWhile_cons_of_neg (by simp [ha])]

theorem head_dropWhile_eq_false {rest : List α} (h : l.dropWhile sep = a :: rest) :
    sep a = false := by
  have hhead := List.head?_dropWhile_not sep l
  rw [h] at hhead
  exact hhead

/-- A list that does not begin with a separator begins with its first word. -/
theorem words_eq_cons (ha : sep a = false) :
    words sep (a :: l) = (a :: l).takeWhile (fun x => !sep x) ::
      words sep ((a :: l).dropWhile fun x => !sep x) := by
  have hrun : ∀ x ∈ (a :: l).takeWhile (fun x => !sep x), sep x = false := by
    intro x hx
    simpa using List.mem_takeWhile_imp hx
  have hne : (a :: l).takeWhile (fun x => !sep x) ≠ [] := by simp [ha]
  conv_lhs => rw [← List.takeWhile_append_dropWhile (p := fun x => !sep x) (l := a :: l)]
  cases hrest : (a :: l).dropWhile (fun x => !sep x) with
  | nil => rw [List.append_nil, words_eq_singleton hrun hne, words_nil]
  | cons b rest =>
    exact words_append_cons hrun hne (by simpa using head_dropWhile_eq_false hrest)

end LdacsSdk.Library
