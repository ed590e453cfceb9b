import Mathlib.Tactic

/-!
# Chains that grow at their end

The nodes of a chain in order, each of which links to the next one and the last one to none. A
position never changes its node; a node is added behind the last one.
-/
namespace LdacsSdk.Library

variable {α : Type*} {next next' : α → Option α} {order l : List α} {a b : α} {i j k : ℕ}

/-- The nodes of `order` are distinct and linked in turn. -/
structure GrowingChain (next : α → Option α) (order : List α) : Prop where
  nodup : order.Nodup
  link : ∀ k a, order[k]? = some a → next a = order[k + 1]?

/-- A node has one position. -/
theorem GrowingChain.position (h : GrowingChain next order) (hi : order[i]? = some a)
    (hj : order[j]? = some a) : i = j := by
  obtain ⟨hilt, hia⟩ := List.getElem?_eq_some_iff.mp hi
  obtain ⟨hjlt, hja⟩ := List.getElem?_eq_some_iff.mp hj
  exact (h.nodup.getElem_inj_iff).mp (hia.trans hja.symm)

/-- The last node is the one without a next one. -/
theorem GrowingChain.last (h : GrowingChain next order) (hk : order[k]? = some a) :
    next a = none ↔ order.length = k + 1 := by
  have hlt := (List.getElem?_eq_some_iff.mp hk).1
  rw [h.link k a hk, List.getElem?_eq_none_iff]
  omega

/-- A new node behind the last one. -/
theorem GrowingChain.grow (h : GrowingChain next order) (hk : order[k]? = some a)
    (hlast : next a = none) (hb : b ∉ order) (hlink : next' a = some b) (hend : next' b = none)
    (hother : ∀ c ∈ order, c ≠ a → next' c = next c) : GrowingChain next' (order ++ [b]) where
  nodup := by
    rw [List.nodup_append]
    refine ⟨h.nodup, List.nodup_singleton b, ?_⟩
    intro c hc d hd heq
    rw [List.mem_singleton.mp hd] at heq
    exact hb (heq ▸ hc)
  link := by
    have hlen := (h.last hk).mp hlast
    intro m c hm
    rcases Nat.lt_trichotomy m k with hlt | rfl | hgt
    · rw [List.getElem?_append_left (by omega)] at hm ⊢
      have hne : c ≠ a := by
        rintro rfl
        have := h.position hm hk
        omega
      rw [hother c (List.mem_of_getElem? hm) hne]
      exact h.link m c hm
    · rw [List.getElem?_append_left (by omega), hk] at hm
      obtain rfl := Option.some.inj hm
      rw [hlink, List.getElem?_append_right (by omega), hlen]
      simp
    · rw [List.getElem?_append_right (by omega)] at hm
      have hmk : m = k + 1 := by
        have := (List.getElem?_eq_some_iff.mp hm).1
        simp only [List.length_singleton] at this
        omega
      subst hmk
      rw [hlen, Nat.sub_self] at hm
      obtain rfl : b = c := by simpa using hm
      rw [hend, List.getElem?_eq_none (by simp; omega)]

/-- The same links of the nodes of the chain. -/
theorem GrowingChain.congr (h : GrowingChain next order)
    (hnext : ∀ c ∈ order, next' c = next c) : GrowingChain next' order where
  nodup := h.nodup
  link := by
    intro m c hm
    rw [hnext c (List.mem_of_getElem? hm)]
    exact h.link m c hm

/-- What is at a position stays there. -/
theorem getElem?_of_prefix (h : order <+: l) (hk : order[k]? = some a) : l[k]? = some a := by
  obtain ⟨r, rfl⟩ := h
  rw [List.getElem?_append_left (List.getElem?_eq_some_iff.mp hk).1, hk]

end LdacsSdk.Library
