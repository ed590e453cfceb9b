import Mathlib.Data.List.Chain
import Mathlib.Tactic

/-!
# Circular doubly linked lists

Nodes with a link to the next node and one to the previous node form a ring when following the
list of the nodes leads back to its first. A new node is linked in between the last node and the
first by four links, and the first node is unlinked by two.
-/
namespace LdacsSdk.Library

variable {α : Type*}

/-- `b` comes behind `a`, by the links of both. -/
def Linked (next prev : α → Option α) (a b : α) : Prop := next a = some b ∧ prev b = some a

/-- The nodes of the list are linked one behind the other, and the last one with the first. -/
def Circular (next prev : α → Option α) : List α → Prop
  | [] => True
  | a :: l => List.IsChain (Linked next prev) (a :: l ++ [a])

variable {next prev next' prev' : α → Option α} {a b x z : α} {l : List α}

theorem circular_singleton (hnext : next a = some a) (hprev : prev a = some a) :
    Circular next prev [a] :=
  List.isChain_pair.mpr ⟨hnext, hprev⟩

/-- A ring may start at any of its nodes. -/
theorem Circular.rotate (h : Circular next prev (a :: l)) : Circular next prev (l ++ [a]) := by
  cases l with
  | nil => exact h
  | cons b l =>
    have hchain : List.IsChain (Linked next prev) (a :: b :: (l ++ [a])) := h
    obtain ⟨hab, hrest⟩ := List.isChain_cons_cons.mp hchain
    have hclosed : List.IsChain (Linked next prev) ((b :: l) ++ a :: [b]) :=
      List.isChain_append_cons_cons.mpr ⟨hrest, hab, List.IsChain.singleton b⟩
    simpa [Circular] using hclosed

theorem Circular.congr (h : Circular next prev l)
    (hsame : ∀ b ∈ l, next' b = next b ∧ prev' b = prev b) : Circular next' prev' l := by
  cases l with
  | nil => trivial
  | cons a l =>
    refine List.IsChain.imp_of_mem_imp (fun b c hb hc hlinked => ?_) h
    have hmem : ∀ d, d ∈ a :: l ++ [a] → d ∈ a :: l := fun d hd => by
      rcases List.mem_append.mp hd with hd | hd
      · exact hd
      · simp [List.mem_singleton.mp hd]
    exact ⟨(hsame b (hmem b hb)).1.trans hlinked.1, (hsame c (hmem c hc)).2.trans hlinked.2⟩

/-- The links inside a stretch stay where only the first node's link back and the last node's link
on change. -/
theorem isChain_linked_congr {m : List α} (h : List.IsChain (Linked next prev) (m ++ [z]))
    (hnext : ∀ b ∈ m, next' b = next b) (hprev : ∀ b ∈ (m ++ [z]).tail, prev' b = prev b) :
    List.IsChain (Linked next' prev') (m ++ [z]) := by
  induction m with
  | nil => exact List.IsChain.singleton z
  | cons a m ih =>
    have hrest := ih h.tail (fun b hb => hnext b (by simp [hb]))
      fun b hb => hprev b (List.mem_of_mem_tail hb)
    cases m with
    | nil =>
      have hlinked : Linked next prev a z := List.isChain_pair.mp h
      exact List.isChain_pair.mpr ⟨(hnext a (by simp)).trans hlinked.1,
        (hprev z (by simp)).trans hlinked.2⟩
    | cons c m =>
      have hlinked : Linked next prev a c := (List.isChain_cons_cons.mp h).1
      exact List.isChain_cons_cons.mpr ⟨⟨(hnext a (by simp)).trans hlinked.1,
        (hprev c (by simp)).trans hlinked.2⟩, hrest⟩

/-- The first node of a ring that is not empty comes behind its last. -/
theorem circular_iff {m : List α} (hhead : (m ++ [z]).head? = some a) :
    Circular next prev (m ++ [z]) ↔
      List.IsChain (Linked next prev) (m ++ [z]) ∧ Linked next prev z a := by
  have hclosed : Circular next prev (m ++ [z]) ↔
      List.IsChain (Linked next prev) (m ++ z :: [a]) := by
    cases m with
    | nil =>
      obtain rfl : z = a := by simpa using hhead
      exact Iff.rfl
    | cons b m =>
      obtain rfl : b = a := by simpa using hhead
      simp [Circular]
  rw [hclosed, List.isChain_append_cons_cons]
  simp

section Linking

variable [DecidableEq α] {m : List α}

/-- A new node between the last one, `z`, and the first one, `a`. -/
theorem Circular.insert (h : Circular next prev (m ++ [z])) (hnodup : (m ++ [z]).Nodup)
    (hx : x ∉ m ++ [z]) (hhead : (m ++ [z]).head? = some a) :
    Circular (Function.update (Function.update next x (some a)) z (some x))
      (Function.update (Function.update prev x (some z)) a (some x)) (m ++ [z] ++ [x]) := by
  obtain ⟨t, ht⟩ : ∃ t, m ++ [z] = a :: t := List.head?_eq_some_iff.mp hhead
  have hzx : z ≠ x := fun he => hx (by simp [he])
  have hax : a ≠ x := fun he => hx (by simp [ht, he])
  obtain ⟨next', hn⟩ : ∃ f, f = Function.update (Function.update next x (some a)) z (some x) :=
    ⟨_, rfl⟩
  obtain ⟨prev', hp⟩ : ∃ f, f = Function.update (Function.update prev x (some z)) a (some x) :=
    ⟨_, rfl⟩
  have hnext : ∀ b ∈ m, next' b = next b := fun b hb => by
    have hbz : b ≠ z := (List.nodup_append.mp hnodup).2.2 b hb z (by simp)
    have hbx : b ≠ x := fun he => hx (by simp [← he, hb])
    rw [hn, Function.update_of_ne hbz, Function.update_of_ne hbx]
  have hprev : ∀ b ∈ (m ++ [z]).tail, prev' b = prev b := fun b hb => by
    have hbx : b ≠ x := fun he => hx (he ▸ List.mem_of_mem_tail hb)
    have hba : b ≠ a := by
      rintro rfl
      rw [ht] at hb hnodup
      exact (List.nodup_cons.mp hnodup).1 hb
    rw [hp, Function.update_of_ne hba, Function.update_of_ne hbx]
  have hnew : (m ++ [z] ++ [x]).head? = some a := by simp [ht]
  rw [← hn, ← hp, circular_iff hnew]
  refine ⟨?_, ?_, ?_⟩
  · have hkept := isChain_linked_congr ((circular_iff hhead).mp h).1 hnext hprev
    have hbehind : Linked next' prev' z x :=
      ⟨by rw [hn, Function.update_self], by rw [hp, Function.update_of_ne hax.symm,
        Function.update_self]⟩
    rw [List.append_assoc, List.singleton_append]
    exact List.isChain_append_cons_cons.mpr ⟨hkept, hbehind, List.IsChain.singleton x⟩
  · rw [hn, Function.update_of_ne hzx.symm, Function.update_self]
  · rw [hp, Function.update_self]

/-- The ring without its first node, `a`: the last one, `z`, and the second one, `b`, are linked. -/
theorem Circular.unlinkHead (h : Circular next prev (a :: (m ++ [z])))
    (hnodup : (m ++ [z]).Nodup) (hhead : (m ++ [z]).head? = some b) :
    Circular (Function.update next z (some b)) (Function.update prev b (some z)) (m ++ [z]) := by
  obtain ⟨t, ht⟩ : ∃ t, m ++ [z] = b :: t := List.head?_eq_some_iff.mp hhead
  have hchain : List.IsChain (Linked next prev) (m ++ [z]) := by
    have hall : List.IsChain (Linked next prev) (a :: (m ++ [z]) ++ [a]) := h
    exact hall.left_of_append.tail
  rw [circular_iff hhead]
  refine ⟨isChain_linked_congr hchain (fun c hc => ?_) fun c hc => ?_, ?_, ?_⟩
  · exact Function.update_of_ne ((List.nodup_append.mp hnodup).2.2 c hc z (by simp)) _ _
  · refine Function.update_of_ne ?_ _ _
    rintro rfl
    rw [ht] at hc hnodup
    exact (List.nodup_cons.mp hnodup).1 hc
  · exact Function.update_self ..
  · exact Function.update_self ..

end Linking

/-- Following the links on from a node. -/
def follow (next : α → Option α) (n : ℕ) (p : Option α) : Option α := (· >>= next)^[n] p

theorem follow_of_chain (h : List.IsChain (Linked next prev) l) (n : ℕ) (hn : n < l.length) :
    follow next n l.head? = l[n]? := by
  induction n generalizing l with
  | zero => simp [follow, List.head?_eq_getElem?]
  | succ n ih =>
    cases l with
    | nil => simp at hn
    | cons a l =>
      cases l with
      | nil => simp at hn
      | cons b l =>
        obtain ⟨hab, hrest⟩ := List.isChain_cons_cons.mp h
        have hnext := ih hrest (by simpa using hn)
        simpa [follow, Function.iterate_succ_apply, hab.1] using hnext

/-- Following the links on from the head passes the nodes in order and leads back to the head. -/
theorem Circular.follow (h : Circular next prev l) :
    (∀ n < l.length, Library.follow next n l.head? = l[n]?) ∧
      Library.follow next l.length l.head? = l.head? := by
  cases l with
  | nil => exact ⟨fun n hn => absurd hn (by simp), rfl⟩
  | cons a l =>
    have hchain : List.IsChain (Linked next prev) (a :: l ++ [a]) := h
    constructor
    · exact follow_of_chain hchain.left_of_append
    · have hend := follow_of_chain hchain (a :: l).length (by simp)
      simpa using hend

theorem Circular.rotate_to {s : List α} (h : Circular next prev (s ++ l)) :
    Circular next prev (l ++ s) := by
  induction s generalizing l with
  | nil => simpa using h
  | cons b s ih =>
    have hrotated : Circular next prev (s ++ l ++ [b]) := Circular.rotate h
    rw [List.append_assoc] at hrotated
    simpa using ih hrotated

/-- The links back are the inverse of the links on. -/
theorem Circular.inverse (h : Circular next prev l) (ha : a ∈ l) :
    (∃ b ∈ l, next a = some b ∧ prev b = some a) ∧ ∃ b ∈ l, prev a = some b ∧ next b = some a := by
  obtain ⟨s, t, rfl⟩ := List.append_of_mem ha
  -- start the ring at `a`
  have hfirst : List.IsChain (Linked next prev) (a :: (t ++ s) ++ [a]) := h.rotate_to
  have hmem : ∀ b, b ∈ a :: (t ++ s) → b ∈ s ++ a :: t := fun b hb => by
    simp only [List.mem_cons, List.mem_append] at hb ⊢
    tauto
  constructor
  · obtain ⟨b, r, hr⟩ : ∃ b r, t ++ s ++ [a] = b :: r :=
      List.exists_cons_of_ne_nil (by simp)
    rw [List.cons_append, hr] at hfirst
    have hb : b ∈ t ++ s ++ [a] := hr ▸ List.mem_cons_self
    have hlinked := (List.isChain_cons_cons.mp hfirst).1
    exact ⟨b, hmem b (by simpa [or_comm, or_assoc, or_left_comm] using hb), hlinked.1, hlinked.2⟩
  · obtain ⟨m, z, hz⟩ : ∃ m z, a :: (t ++ s) = m ++ [z] := by
      rcases List.eq_nil_or_concat' (a :: (t ++ s)) with hnil | hlast
      · exact absurd hnil (by simp)
      · exact hlast
    rw [hz, List.append_assoc, List.singleton_append, List.isChain_append_cons_cons] at hfirst
    exact ⟨z, hmem z (hz ▸ by simp), hfirst.2.1.2, hfirst.2.1.1⟩

end LdacsSdk.Library
