import Mathlib.Data.List.Chain
import Mathlib.Tactic

/-!
# Doubly linked lists between two null pointers

The nodes of a list have a link to the next node and one to the previous one; both ends are null.
What the head of the list points to is the link on from null, so that the first node is no special
case: a node is unlinked, replaced or put in front by changing the links of its two neighbours.
-/
namespace LdacsSdk.Library

variable {α : Type*} [Zero α]

/-- `b` comes behind `a`; the null pointer has no link back. -/
def Joined (next prev : α → α) (a b : α) : Prop := next a = b ∧ (b ≠ 0 → prev b = a)

/-- The nodes of the list, from null to null. -/
structure Threaded (next prev : α → α) (l : List α) : Prop where
  nodup : (0 :: l).Nodup
  chain : List.IsChain (Joined next prev) (0 :: (l ++ [0]))

variable {next prev next' prev' : α → α} {a b x y : α} {l l₁ l₂ A B : List α}

omit [Zero α] in
theorem exists_cons_of_snoc (l : List α) (x : α) : ∃ b B, l ++ [x] = b :: B := by
  cases l with
  | nil => exact ⟨x, [], rfl⟩
  | cons b l => exact ⟨b, l ++ [x], rfl⟩

omit [Zero α] in
theorem exists_snoc_of_cons (x : α) (l : List α) : ∃ A a, x :: l = A ++ [a] := by
  rcases List.eq_nil_or_concat' l with rfl | ⟨A, a, rfl⟩
  · exact ⟨[], x, rfl⟩
  · exact ⟨x :: A, a, rfl⟩

/-- A stretch of a list depends on the links on of all nodes but the last and the links back of
all nodes but the first. -/
theorem isChain_joined_congr (h : List.IsChain (Joined next prev) l)
    (hnext : ∀ c ∈ l.dropLast, next' c = next c) (hprev : ∀ d ∈ l.tail, d ≠ 0 → prev' d = prev d) :
    List.IsChain (Joined next' prev') l := by
  induction l with
  | nil => exact List.isChain_nil
  | cons a l ih =>
    cases l with
    | nil => exact List.isChain_singleton a
    | cons b l =>
      obtain ⟨hab, hrest⟩ := List.isChain_cons_cons.mp h
      refine List.isChain_cons_cons.mpr ⟨⟨?_, fun hb => ?_⟩, ih hrest (fun c hc => hnext c ?_)
        fun d hd hd0 => hprev d ?_ hd0⟩
      · exact (hnext a (by simp)).trans hab.1
      · exact (hprev b (by simp) hb).trans (hab.2 hb)
      · simp only [List.dropLast_cons_cons]
        exact List.mem_cons_of_mem _ hc
      · exact List.mem_cons_of_mem _ hd

theorem Threaded.congr (h : Threaded next prev l) (hnext : ∀ c ∈ 0 :: l, next' c = next c)
    (hprev : ∀ d ∈ l, prev' d = prev d) : Threaded next' prev' l := by
  refine ⟨h.nodup, isChain_joined_congr h.chain (fun c hc => hnext c ?_) fun d hd hd0 => hprev d ?_⟩
  · rwa [← List.cons_append, List.dropLast_concat] at hc
  · rcases List.mem_append.mp hd with hd | hd
    · exact hd
    · exact absurd (List.mem_singleton.mp hd) hd0

theorem threaded_nil (h : next 0 = 0) : Threaded next prev [] :=
  ⟨by simp, List.isChain_pair.mpr ⟨h, fun h0 => absurd rfl h0⟩⟩

/-- The head is the first node or null. -/
theorem Threaded.head_mem (h : Threaded next prev l) : next 0 = 0 ∨ next 0 ∈ l := by
  obtain ⟨b, B, hB⟩ := exists_cons_of_snoc l (0 : α)
  have hchain := h.chain
  rw [hB] at hchain
  have hb : b ∈ l ++ [0] := by
    rw [hB]
    simp
  rw [(List.isChain_cons_cons.mp hchain).1.1]
  rcases List.mem_append.mp hb with hb | hb
  · exact .inr hb
  · exact .inl (List.mem_singleton.mp hb)

/-- The head of a list without a first node is null. -/
theorem Threaded.head (h : Threaded next prev l) : next 0 = l.headD 0 := by
  have hchain := h.chain
  cases l with
  | nil => exact (List.isChain_pair.mp hchain).1
  | cons b l => exact (List.isChain_cons_cons.mp hchain).1.1

/-- The link on from a node leads to the next node, or to null. -/
theorem Threaded.follow (h : Threaded next prev (l₁ ++ x :: l₂)) : next x = l₂.headD 0 := by
  have hchain := h.chain
  rw [List.append_assoc, List.cons_append, ← List.cons_append] at hchain
  have hrest := (List.isChain_split.mp hchain).2
  cases l₂ with
  | nil => exact (List.isChain_pair.mp hrest).1
  | cons b l => exact (List.isChain_cons_cons.mp hrest).1.1

/-- The two stretches of a list next to a node, with its neighbours in them. -/
structure Around (next prev : α → α) (l₁ : List α) (x : α) (l₂ A : List α) (a b : α)
    (B : List α) : Prop where
  left : 0 :: l₁ = A ++ [a]
  right : l₂ ++ [0] = b :: B
  back : prev x = a
  on : next x = b
  reached : next a = x
  returned : b ≠ 0 → prev b = x
  before : List.IsChain (Joined next prev) (A ++ [a])
  behind : List.IsChain (Joined next prev) (b :: B)

theorem Threaded.around (h : Threaded next prev (l₁ ++ x :: l₂)) :
    ∃ A a b B, Around next prev l₁ x l₂ A a b B := by
  obtain ⟨A, a, hA⟩ := exists_snoc_of_cons 0 l₁
  obtain ⟨b, B, hB⟩ := exists_cons_of_snoc l₂ (0 : α)
  have hx : x ≠ 0 := by
    rintro rfl
    exact (List.nodup_cons.mp h.nodup).1 (by simp)
  have hsplit : 0 :: (l₁ ++ x :: l₂ ++ [0]) = A ++ a :: x :: b :: B := by
    rw [List.append_assoc, List.cons_append, ← List.cons_append, hA, hB, List.append_assoc]
    rfl
  have hchain := h.chain
  rw [hsplit] at hchain
  obtain ⟨hbefore, hax, hrest⟩ := List.isChain_append_cons_cons.mp hchain
  obtain ⟨hxb, hbehind⟩ := List.isChain_cons_cons.mp hrest
  exact ⟨A, a, b, B, hA, hB, hax.2 hx, hxb.1, hax.1, hxb.2, hbefore, hbehind⟩

theorem Around.mem_left (h : Around next prev l₁ x l₂ A a b B) : a ∈ 0 :: (l₁ ++ l₂) := by
  rw [← List.cons_append, h.left]
  simp

theorem Around.mem_behind (h : Around next prev l₁ x l₂ A a b B) (hb : b ≠ 0) : b ∈ l₂ := by
  have hmem : b ∈ l₂ ++ [0] := by
    rw [h.right]
    simp
  simpa [hb] using hmem

theorem Around.mem_right (h : Around next prev l₁ x l₂ A a b B) (hb : b ≠ 0) : b ∈ l₁ ++ l₂ :=
  List.mem_append_right l₁ (h.mem_behind hb)

/-- The stretches are put together again at new neighbours. -/
theorem Around.close (h : Around next prev l₁ x l₂ A a b B) {m : List α}
    (hnodup : (0 :: (l₁ ++ l₂)).Nodup)
    (hnext : ∀ c ∈ 0 :: (l₁ ++ l₂), c ≠ a → next' c = next c)
    (hprev : ∀ d ∈ l₁ ++ l₂, d ≠ b → prev' d = prev d)
    (hm : List.IsChain (Joined next' prev') (a :: (m ++ [b]))) :
    List.IsChain (Joined next' prev') (0 :: (l₁ ++ m ++ l₂ ++ [0])) := by
  have hall : 0 :: (l₁ ++ l₂ ++ [0]) = A ++ [a] ++ b :: B := by
    rw [List.append_assoc, ← List.cons_append, h.left, h.right]
  have hnodupA : (A ++ [a]).Nodup := by
    rw [← h.left]
    exact hnodup.sublist (by simp)
  have haA : a ∉ A := fun ha => by
    have hdis := List.disjoint_of_nodup_append hnodupA
    exact hdis ha (by simp)
  have hbl₁ : b ≠ 0 → b ∉ l₁ := fun hb0 hb =>
    List.disjoint_of_nodup_append (List.nodup_cons.mp hnodup).2 hb (h.mem_behind hb0)
  have hal₂ : a ∉ l₂ := fun ha => by
    have hmem : a ∈ 0 :: l₁ := by
      rw [h.left]
      simp
    rw [← List.cons_append] at hnodup
    exact List.disjoint_of_nodup_append hnodup hmem ha
  have hbefore : List.IsChain (Joined next' prev') (A ++ [a]) := by
    refine isChain_joined_congr h.before (fun c hc => ?_) fun d hd hd0 => ?_
    · rw [List.dropLast_concat] at hc
      have hmem : c ∈ 0 :: l₁ := by
        rw [h.left]
        simp [hc]
      refine hnext c ?_ fun hca => haA (hca ▸ hc)
      rcases List.mem_cons.mp hmem with rfl | hc₁
      · simp
      · simp [hc₁]
    · rw [← h.left, List.tail_cons] at hd
      exact hprev d (by simp [hd]) fun hdb => hbl₁ (hdb ▸ hd0) (hdb ▸ hd)
  have hnodupB : (b :: B).Nodup := by
    rw [← h.right]
    refine List.nodup_append.mpr ⟨?_, List.nodup_singleton 0, ?_⟩
    · exact (List.nodup_append.mp (List.nodup_cons.mp hnodup).2).2.1
    · rintro c hc d hd rfl
      rw [List.mem_singleton.mp hd] at hc
      exact (List.nodup_cons.mp hnodup).1 (by simp [hc])
  have hbehind : List.IsChain (Joined next' prev') (b :: B) := by
    refine isChain_joined_congr h.behind (fun c hc => ?_) fun d hd hd0 => ?_
    · rw [← h.right, List.dropLast_concat] at hc
      exact hnext c (by simp [hc]) fun hca => hal₂ (hca ▸ hc)
    · have hmem : d ∈ l₂ ++ [0] := by
        rw [h.right]
        exact List.mem_cons_of_mem _ hd
      have hd₂ : d ∈ l₂ := by simpa [hd0] using hmem
      exact hprev d (by simp [hd₂]) fun hdb => (List.nodup_cons.mp hnodupB).1 (hdb ▸ hd)
  have hwhole : 0 :: (l₁ ++ m ++ l₂ ++ [0]) = A ++ a :: (m ++ b :: B) := by
    rw [List.append_assoc, h.right, List.append_assoc, ← List.cons_append, h.left,
      List.append_assoc]
    rfl
  rw [hwhole]
  refine List.isChain_split.mpr ⟨hbefore, ?_⟩
  rw [← List.cons_append]
  exact List.isChain_split.mpr ⟨hm, hbehind⟩

/-- Unlinking a node: its neighbours are joined. -/
theorem Threaded.delete [DecidableEq α] (h : Threaded next prev (l₁ ++ x :: l₂))
    (hnext : ∀ c ∈ 0 :: (l₁ ++ l₂), next' c = if c = prev x then next x else next c)
    (hprev : ∀ d ∈ l₁ ++ l₂, prev' d = if d = next x then prev x else prev d) :
    Threaded next' prev' (l₁ ++ l₂) := by
  obtain ⟨A, a, b, B, h'⟩ := h.around
  have hnodup : (0 :: (l₁ ++ l₂)).Nodup := h.nodup.sublist (by simp)
  rw [h'.back, h'.on] at hnext hprev
  have hjoin : Joined next' prev' a b :=
    ⟨(hnext a h'.mem_left).trans (if_pos rfl),
      fun hb0 => (hprev b (h'.mem_right hb0)).trans (if_pos rfl)⟩
  have hclose := h'.close (m := []) hnodup (fun c hc hca => (hnext c hc).trans (if_neg hca))
    (fun d hd hdb => (hprev d hd).trans (if_neg hdb)) (List.isChain_pair.mpr hjoin)
  exact ⟨hnodup, by simpa using hclose⟩

/-- Replacing a node: the new one gets its links, and its neighbours are linked to the new one. -/
theorem Threaded.replace [DecidableEq α] (h : Threaded next prev (l₁ ++ x :: l₂))
    (hy : y ∉ 0 :: (l₁ ++ l₂)) (hynext : next' y = next x) (hyprev : prev' y = prev x)
    (hnext : ∀ c ∈ 0 :: (l₁ ++ l₂), next' c = if c = prev x then y else next c)
    (hprev : ∀ d ∈ l₁ ++ l₂, prev' d = if d = next x then y else prev d) :
    Threaded next' prev' (l₁ ++ y :: l₂) := by
  obtain ⟨A, a, b, B, h'⟩ := h.around
  have hnodup : (0 :: (l₁ ++ l₂)).Nodup := h.nodup.sublist (by simp)
  rw [h'.back] at hnext hyprev
  rw [h'.on] at hprev hynext
  have hay : Joined next' prev' a y := ⟨(hnext a h'.mem_left).trans (if_pos rfl), fun _ => hyprev⟩
  have hyb : Joined next' prev' y b :=
    ⟨hynext, fun hb0 => (hprev b (h'.mem_right hb0)).trans (if_pos rfl)⟩
  have hclose := h'.close (m := [y]) hnodup (fun c hc hca => (hnext c hc).trans (if_neg hca))
    (fun d hd hdb => (hprev d hd).trans (if_neg hdb))
    (List.isChain_cons_cons.mpr ⟨hay, List.isChain_pair.mpr hyb⟩)
  refine ⟨?_, by simpa using hclose⟩
  rw [← List.cons_append]
  rw [← List.cons_append] at hnodup hy
  exact List.perm_middle.nodup_iff.mpr (List.nodup_cons.mpr ⟨hy, hnodup⟩)

/-- Putting a node in front. -/
theorem Threaded.insertFront [DecidableEq α] (h : Threaded next prev l) (hx : x ∉ 0 :: l)
    (hhead : next' 0 = x) (hxnext : next' x = next 0) (hxprev : prev' x = 0)
    (hnext : ∀ c ∈ l, next' c = next c)
    (hprev : ∀ d ∈ l, prev' d = if d = next 0 then x else prev d) :
    Threaded next' prev' (x :: l) := by
  have hnodup : (0 :: x :: l).Nodup :=
    (List.Perm.swap x 0 l).nodup_iff.mpr (List.nodup_cons.mpr ⟨hx, h.nodup⟩)
  refine ⟨hnodup, ?_⟩
  obtain ⟨b, B, hB⟩ := exists_cons_of_snoc l (0 : α)
  have hchain := h.chain
  rw [hB] at hchain
  obtain ⟨h0b, hbehind⟩ := List.isChain_cons_cons.mp hchain
  rw [h0b.1] at hxnext hprev
  rw [List.cons_append, hB]
  have hmem : ∀ d ∈ b :: B, d ≠ 0 → d ∈ l := fun d hd hd0 => by
    rw [← hB] at hd
    simpa [hd0] using hd
  have hnodupB : (b :: B).Nodup := by
    rw [← hB]
    exact (List.perm_append_singleton 0 l).nodup_iff.mpr h.nodup
  refine List.isChain_cons_cons.mpr ⟨⟨hhead, fun _ => hxprev⟩, List.isChain_cons_cons.mpr
    ⟨⟨hxnext, fun hb0 => (hprev b (hmem b (by simp) hb0)).trans (if_pos rfl)⟩, ?_⟩⟩
  refine isChain_joined_congr hbehind (fun c hc => ?_) fun d hd hd0 => ?_
  · rw [← hB, List.dropLast_concat] at hc
    exact hnext c hc
  · have hdl := hmem d (List.mem_cons_of_mem _ hd) hd0
    have hdb : d ≠ b := by
      rintro rfl
      exact (List.nodup_cons.mp hnodupB).1 hd
    exact (hprev d hdl).trans (if_neg hdb)

end LdacsSdk.Library
