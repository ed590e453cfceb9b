import Mathlib.Tactic

/-!
# Lists without two neighbours of a kind

A list in which no two neighbours are both of a kind stays one where an entry of the kind becomes
one that is not, with at most one of the kind left behind it, and where an entry and all those of
the kind next to it become one. A list with entries of the kind only has at most one.
-/
namespace LdacsSdk.Library

variable {α : Type*} {p : α → Prop} {c d n q : α}
  {l front back pre post rest gone run r₁ r₂ : List α}

/-- No two neighbours are both of the kind. -/
def Sparse (p : α → Prop) (l : List α) : Prop := l.IsChain fun a b => ¬(p a ∧ p b)

theorem sparse_singleton (p : α → Prop) (c : α) : Sparse p [c] := List.IsChain.singleton c

theorem sparse_append : Sparse p (front ++ back) ↔ Sparse p front ∧ Sparse p back ∧
    ∀ a ∈ front.getLast?, ∀ b ∈ back.head?, ¬(p a ∧ p b) := List.isChain_append

theorem sparse_cons : Sparse p (c :: back) ↔ (∀ b ∈ back.head?, ¬(p c ∧ p b)) ∧ Sparse p back :=
  List.isChain_cons

/-- An entry of the kind is made one that is not, with at most one behind it. -/
theorem Sparse.carve (h : Sparse p (front ++ c :: back)) (hc : p c) (hd : ¬p d)
    (hrest : rest.length ≤ 1) : Sparse p (front ++ d :: (rest ++ back)) := by
  obtain ⟨hfront, hback, -⟩ := sparse_append.mp h
  obtain ⟨hnext, hback⟩ := sparse_cons.mp hback
  have hbehind : Sparse p (rest ++ back) := by
    cases rest with
    | nil => exact hback
    | cons f rest =>
      have hnil : rest = [] := List.eq_nil_of_length_eq_zero (by
        rw [List.length_cons] at hrest
        omega)
      subst hnil
      apply sparse_cons.mpr
      constructor
      · intro b hb hfb
        exact hnext b hb ⟨hc, hfb.2⟩
      · exact hback
  apply sparse_append.mpr
  refine ⟨hfront, sparse_cons.mpr ⟨?_, hbehind⟩, ?_⟩
  · intro b _ hdb
    exact hd hdb.1
  · intro a _ b hb hab
    cases hb
    exact hd hab.2

/-- An entry and those of the kind next to it are made one. -/
theorem Sparse.coalesce (h : Sparse p (pre ++ c :: post)) (hpre : pre = front ++ r₁)
    (hpost : post = r₂ ++ back) (hlast : ∀ a ∈ front.getLast?, ¬p a)
    (hnext : ∀ b ∈ back.head?, ¬p b) : Sparse p (front ++ q :: back) := by
  subst hpre hpost
  obtain ⟨hpre, hpost, -⟩ := sparse_append.mp h
  have hfront : Sparse p front := (sparse_append.mp hpre).1
  have hback : Sparse p back := (sparse_append.mp (sparse_cons.mp hpost).2).2.1
  apply sparse_append.mpr
  refine ⟨hfront, sparse_cons.mpr ⟨?_, hback⟩, ?_⟩
  · intro b hb hqb
    exact hnext b hb hqb.2
  · intro a ha b _ hab
    exact hlast a ha hab.1

/-- A walk over entries of the kind that ends at one that is not has passed all those in front. -/
theorem past_run (h : run ++ post = gone ++ back) (hrun : ∀ a ∈ run, p a)
    (hnext : ∀ b ∈ back.head?, ¬p b) : ∃ r, gone = run ++ r ∧ post = r ++ back := by
  rcases List.append_eq_append_iff.mp h with ⟨r, hgone, hpost⟩ | ⟨r, hsplit, hback⟩
  · exact ⟨r, hgone, hpost⟩
  · cases r with
    | nil => exact ⟨[], by simpa using hsplit.symm, by simpa using hback.symm⟩
    | cons b r =>
      have hb : p b := hrun b (by simp [hsplit])
      exact absurd hb (hnext b (by simp [hback]))

/-- An entry that is not of the kind is none of those that were made one. -/
theorem mem_coalesced (h : d ∈ front ++ n :: (gone ++ back)) (hall : ∀ a ∈ n :: gone, p a)
    (hd : ¬p d) : d ∈ front ++ q :: back := by
  rcases List.mem_append.mp h with hmem | hmem
  · exact List.mem_append_left _ hmem
  · rcases List.mem_append.mp (show d ∈ (n :: gone) ++ back from hmem) with hmem | hmem
    · exact absurd (hall d hmem) hd
    · exact List.mem_append_right front (List.mem_cons_of_mem q hmem)

theorem Sparse.length_le_one (h : Sparse p l) (hall : ∀ a ∈ l, p a) : l.length ≤ 1 := by
  cases l with
  | nil => exact Nat.zero_le 1
  | cons a l =>
    cases l with
    | nil => exact Nat.le_refl 1
    | cons b l =>
      have hnext := (sparse_cons.mp h).1 b rfl
      exact absurd ⟨hall a (by simp), hall b (by simp)⟩ hnext

end LdacsSdk.Library
