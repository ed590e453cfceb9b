import Mathlib.Tactic

/-!
# Finite maps listed by a collection of loads

A partial function from keys to loads is listed by a multiset when no two loads of the multiset
have one key and the function gives every key the load that has it. The lemmas say how the
function changes when a load is added, replaced or taken away.
-/
namespace LdacsSdk.Library

variable {β κ : Type*} [DecidableEq κ] {key : β → κ} {c : Multiset β} {m : κ → Option β} {a b : β}

/-- `c` lists the partial function `m`: one load for each key that has one. -/
structure Lists (key : β → κ) (c : Multiset β) (m : κ → Option β) : Prop where
  distinct : (c.map key).Nodup
  lookup : ∀ k b, m k = some b ↔ b ∈ c ∧ key b = k

omit [DecidableEq κ] in
theorem Lists.empty (key : β → κ) : Lists key 0 fun _ => none where
  distinct := by simp
  lookup := by simp

omit [DecidableEq κ] in
theorem Lists.of_mem (h : Lists key c m) (hb : b ∈ c) : m (key b) = some b :=
  (h.lookup _ _).mpr ⟨hb, rfl⟩

omit [DecidableEq κ] in
theorem Lists.absent (h : Lists key c m) {k : κ} (hk : ∀ b ∈ c, key b ≠ k) : m k = none := by
  rcases hm : m k with - | b
  · rfl
  · obtain ⟨hb, hkey⟩ := (h.lookup _ _).mp hm
    exact absurd hkey (hk b hb)

omit [DecidableEq κ] in
theorem Lists.key_ne (h : Lists key c m) {k : κ} (hk : m k = none) (hb : b ∈ c) : key b ≠ k := by
  rintro rfl
  rw [h.of_mem hb] at hk
  exact absurd hk (Option.some_ne_none b)

/-- A load under a new key. -/
theorem Lists.insert (h : Lists key c m) (hnew : m (key b) = none) :
    Lists key (b ::ₘ c) (Function.update m (key b) (some b)) where
  distinct := by
    have hnot : key b ∉ c.map key := by
      intro hmem
      obtain ⟨a, ha, hkey⟩ := Multiset.mem_map.mp hmem
      exact h.key_ne hnew ha hkey
    simpa using ⟨by simpa using hnot, h.distinct⟩
  lookup := by
    intro k a
    by_cases hk : k = key b
    · subst hk
      have hnone : ∀ a ∈ c, key a ≠ key b := fun a ha => h.key_ne hnew ha
      simp only [Function.update_self, Option.some.injEq, Multiset.mem_cons]
      constructor
      · rintro rfl
        exact ⟨Or.inl rfl, rfl⟩
      · rintro ⟨rfl | ha, hkey⟩
        · rfl
        · exact absurd hkey (hnone a ha)
    · simp only [Function.update_of_ne hk, h.lookup, Multiset.mem_cons]
      constructor
      · rintro ⟨ha, hkey⟩
        exact ⟨Or.inr ha, hkey⟩
      · rintro ⟨rfl | ha, hkey⟩
        · exact absurd hkey.symm hk
        · exact ⟨ha, hkey⟩

/-- The load of a key taken away. -/
theorem Lists.remove (h : Lists key (a ::ₘ c) m) :
    Lists key c (Function.update m (key a) none) where
  distinct := by
    have hd := h.distinct
    simp only [Multiset.map_cons, Multiset.nodup_cons] at hd
    exact hd.2
  lookup := by
    have hd := h.distinct
    simp only [Multiset.map_cons, Multiset.nodup_cons] at hd
    intro k b
    by_cases hk : k = key a
    · subst hk
      simp only [Function.update_self, reduceCtorEq, false_iff, not_and]
      intro hb hkey
      exact hd.1 (Multiset.mem_map.mpr ⟨b, hb, hkey⟩)
    · simp only [Function.update_of_ne hk, h.lookup, Multiset.mem_cons]
      constructor
      · rintro ⟨rfl | hb, hkey⟩
        · exact absurd hkey.symm hk
        · exact ⟨hb, hkey⟩
      · rintro ⟨hb, hkey⟩
        exact ⟨Or.inr hb, hkey⟩

/-- A load replaced by another of the same key. -/
theorem Lists.replace (h : Lists key (a ::ₘ c) m) (hkey : key a = key b) :
    Lists key (b ::ₘ c) (Function.update m (key b) (some b)) := by
  have hrem := h.remove
  rw [hkey] at hrem
  simpa using hrem.insert (b := b) (Function.update_self _ _ _)

omit [DecidableEq κ] in
/-- The multiset has one load for each key that has one. -/
theorem Lists.card_eq (h : Lists key c m) : c.card = {k | (m k).isSome}.ncard := by
  classical
  have hset : {k | (m k).isSome} = ((c.map key).toFinset : Set κ) := by
    ext k
    simp only [Set.mem_ofPred_eq, Option.isSome_iff_exists, h.lookup, Finset.mem_coe,
      Multiset.mem_toFinset, Multiset.mem_map]
  rw [hset, Set.ncard_coe_finset, Multiset.toFinset_card_of_nodup h.distinct, Multiset.card_map]

end LdacsSdk.Library
