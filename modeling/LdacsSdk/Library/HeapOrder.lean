import Mathlib.Tactic

/-!
# Binary heaps by positions

The keys of a heap stand at the positions below `n` of a binary tree that is laid out level by
level. In the middle of a sift every edge is in order but those above, or those below, one
position, whose neighbours are in order among themselves. A swap along a broken edge moves that
position; where no edge is broken the keys are a heap again.
-/
namespace LdacsSdk.Library

/-- The position above `i`; the root's is the root. -/
def parent (i : ℕ) : ℕ := (i - 1) / 2

variable {κ : Type*} [LinearOrder κ] {n i j c : ℕ} {key key' : ℕ → κ}

theorem parent_lt (hi : 0 < i) : parent i < i := by
  unfold parent
  omega

theorem parent_eq_iff (hj : 0 < j) : parent j = i ↔ j = 2 * i + 1 ∨ j = 2 * i + 2 := by
  unfold parent
  omega

/-- No key is smaller than the one above it. -/
def HeapOrder (n : ℕ) (key : ℕ → κ) : Prop := ∀ i, 0 < i → i < n → key (parent i) ≤ key i

/-- In order but for the edge above position `i`. -/
structure UpOrder (n : ℕ) (key : ℕ → κ) (i : ℕ) : Prop where
  except : ∀ j, 0 < j → j < n → j ≠ i → key (parent j) ≤ key j
  across : 0 < i → ∀ j, 0 < j → j < n → parent j = i → key (parent i) ≤ key j

/-- In order but for the edges below position `i`. -/
structure DownOrder (n : ℕ) (key : ℕ → κ) (i : ℕ) : Prop where
  except : ∀ j, 0 < j → j < n → parent j ≠ i → key (parent j) ≤ key j
  across : 0 < i → ∀ j, 0 < j → j < n → parent j = i → key (parent i) ≤ key j

theorem HeapOrder.root_le (h : HeapOrder n key) (hi : i < n) : key 0 ≤ key i := by
  induction i using Nat.strongRecOn with
  | _ i ih =>
    rcases Nat.eq_zero_or_pos i with rfl | hpos
    · exact le_rfl
    · have hlt := parent_lt hpos
      exact (ih (parent i) hlt (hlt.trans hi)).trans (h i hpos hi)

/-! ### Up -/

theorem UpOrder.heap (h : UpOrder n key i) (hstop : 0 < i → i < n → key (parent i) ≤ key i) :
    HeapOrder n key := by
  intro j hj hjn
  by_cases hji : j = i
  · subst hji
    exact hstop hj hjn
  · exact h.except j hj hjn hji

theorem UpOrder.swap (h : UpOrder n key i) (hi : 0 < i) (hin : i < n)
    (hlt : key i < key (parent i)) :
    UpOrder n (key ∘ Equiv.swap i (parent i)) (parent i) := by
  have hpi := parent_lt hi
  constructor
  · intro j hj hjn hne
    have hpj := parent_lt hj
    by_cases hji : j = i
    · subst hji
      simpa using hlt.le
    · have hsame : Equiv.swap i (parent i) j = j := Equiv.swap_apply_of_ne_of_ne hji hne
      simp only [Function.comp_apply, hsame]
      by_cases hbelow : parent j = i
      · rw [hbelow, Equiv.swap_apply_left]
        exact h.across hi j hj hjn hbelow
      · by_cases hside : parent j = parent i
        · rw [hside, Equiv.swap_apply_right]
          exact hlt.le.trans (hside ▸ h.except j hj hjn hji)
        · rw [Equiv.swap_apply_of_ne_of_ne hbelow hside]
          exact h.except j hj hjn hji
  · intro hp j hj hjn hside
    have hpp := parent_lt hp
    have hpj := parent_lt hj
    have habove := h.except (parent i) hp (hpi.trans hin) (by omega)
    have hfixed : Equiv.swap i (parent i) (parent (parent i)) = parent (parent i) :=
      Equiv.swap_apply_of_ne_of_ne (by omega) (by omega)
    simp only [Function.comp_apply, hfixed]
    by_cases hji : j = i
    · rw [hji, Equiv.swap_apply_left]
      exact habove
    · rw [Equiv.swap_apply_of_ne_of_ne hji (by omega)]
      exact habove.trans (hside ▸ h.except j hj hjn hji)

/-! ### Down -/

theorem DownOrder.heap (h : DownOrder n key i)
    (hstop : ∀ j, 0 < j → j < n → parent j = i → key i ≤ key j) : HeapOrder n key := by
  intro j hj hjn
  by_cases hji : parent j = i
  · rw [hji]
    exact hstop j hj hjn hji
  · exact h.except j hj hjn hji

theorem DownOrder.swap (h : DownOrder n key i) (hc : 0 < c) (hcn : c < n) (hci : parent c = i)
    (hmin : ∀ j, 0 < j → j < n → parent j = i → key c ≤ key j) (hlt : key c < key i) :
    DownOrder n (key ∘ Equiv.swap i c) c := by
  have hic : i < c := hci ▸ parent_lt hc
  constructor
  · intro j hj hjn hne
    have hpj := parent_lt hj
    by_cases hjc : j = c
    · subst hjc
      simpa [hci] using hlt.le
    · by_cases hside : parent j = i
      · have hji : j ≠ i := by omega
        simp only [Function.comp_apply, hside, Equiv.swap_apply_left,
          Equiv.swap_apply_of_ne_of_ne hji hjc]
        exact hmin j hj hjn hside
      · simp only [Function.comp_apply, Equiv.swap_apply_of_ne_of_ne hside hne]
        by_cases hji : j = i
        · subst hji
          rw [Equiv.swap_apply_left]
          exact h.across hj c hc hcn hci
        · rw [Equiv.swap_apply_of_ne_of_ne hji hjc]
          exact h.except j hj hjn hside
  · intro _ j hj hjn hjc
    have hpj := parent_lt hj
    have hbelow := h.except j hj hjn (by omega)
    have hfixed : Equiv.swap i c j = j := Equiv.swap_apply_of_ne_of_ne (by omega) (by omega)
    simp only [Function.comp_apply, hci, Equiv.swap_apply_left, hfixed]
    rwa [hjc] at hbelow

/-! ### Changes of a heap -/

theorem DownOrder.congr (h : DownOrder n key i) (hsame : ∀ j, j < n → key' j = key j) :
    DownOrder n key' i := by
  constructor
  · intro j hj hjn hne
    have hpj := parent_lt hj
    rw [hsame j hjn, hsame _ (hpj.trans hjn)]
    exact h.except j hj hjn hne
  · intro hi j hj hjn hp
    have hpi := parent_lt hi
    have hpj := parent_lt hj
    rw [hsame j hjn, hsame _ (by omega)]
    exact h.across hi j hj hjn hp

/-- The keys above and below a slot are in order, whatever the slot's own key becomes. -/
theorem HeapOrder.across_slot (h : HeapOrder n key)
    (hsame : ∀ j, j < n → j ≠ i → key' j = key j) (hi : 0 < i) {j : ℕ} (hj : 0 < j) (hjn : j < n)
    (hp : parent j = i) : key' (parent i) ≤ key' j := by
  have hpi := parent_lt hi
  have hpj := parent_lt hj
  rw [hsame _ (by omega) (by omega), hsame j hjn (by omega)]
  exact (h i hi (by omega)).trans (hp ▸ h j hj hjn)

theorem HeapOrder.lower (h : HeapOrder n key) (hsame : ∀ j, j < n → j ≠ i → key' j = key j)
    (hle : key' i ≤ key i) : UpOrder n key' i := by
  constructor
  · intro j hj hjn hne
    have hpj := parent_lt hj
    rw [hsame j hjn hne]
    by_cases hp : parent j = i
    · rw [hp]
      exact hle.trans (hp ▸ h j hj hjn)
    · rw [hsame _ (hpj.trans hjn) hp]
      exact h j hj hjn
  · intro hi j hj hjn hp
    exact h.across_slot hsame hi hj hjn hp

theorem HeapOrder.raise (h : HeapOrder n key) (hsame : ∀ j, j < n → j ≠ i → key' j = key j)
    (hle : key i ≤ key' i) : DownOrder n key' i := by
  constructor
  · intro j hj hjn hne
    have hpj := parent_lt hj
    rw [hsame _ (hpj.trans hjn) hne]
    by_cases hji : j = i
    · rw [hji] at hj hjn ⊢
      exact (h i hj hjn).trans hle
    · rw [hsame j hjn hji]
      exact h j hj hjn
  · intro hi j hj hjn hp
    exact h.across_slot hsame hi hj hjn hp

/-- A key behind the last position of a heap. -/
theorem HeapOrder.push (h : HeapOrder n key) (hsame : ∀ j, j < n → key' j = key j) :
    UpOrder (n + 1) key' n := by
  constructor
  · intro j hj hjn hne
    have hpj := parent_lt hj
    rw [hsame j (by omega), hsame _ (by omega)]
    exact h j hj (by omega)
  · intro _ j hj hjn hp
    have hpj := parent_lt hj
    omega

/-- The last key of a heap in place of the one at `i`. -/
theorem HeapOrder.remove (h : HeapOrder (n + 1) key) (hi : i ≤ n)
    (hlast : 0 < i → i < n → key (parent i) ≤ key n) :
    DownOrder n (key ∘ Equiv.swap i n) i := by
  constructor
  · intro j hj hjn hne
    have hpj := parent_lt hj
    have hpn : parent j ≠ n := by omega
    simp only [Function.comp_apply, Equiv.swap_apply_of_ne_of_ne hne hpn]
    by_cases hji : j = i
    · rw [hji] at hj hjn ⊢
      rw [Equiv.swap_apply_left]
      exact hlast hj hjn
    · rw [Equiv.swap_apply_of_ne_of_ne hji (by omega)]
      exact h j hj (by omega)
  · intro hpos j hj hjn hp
    have hpi := parent_lt hpos
    have hpj := parent_lt hj
    have hfixedP : Equiv.swap i n (parent i) = parent i :=
      Equiv.swap_apply_of_ne_of_ne (by omega) (by omega)
    have hfixed : Equiv.swap i n j = j := Equiv.swap_apply_of_ne_of_ne (by omega) (by omega)
    simp only [Function.comp_apply, hfixedP, hfixed]
    exact (h i hpos (by omega)).trans (hp ▸ h j hj (by omega))

/-- A swap upwards, also of equal keys. -/
theorem UpOrder.swap_of_le (h : UpOrder n key i) (hi : 0 < i) (hin : i < n)
    (hle : key i ≤ key (parent i)) :
    UpOrder n (key ∘ Equiv.swap i (parent i)) (parent i) := by
  rcases hle.lt_or_eq with hlt | heq
  · exact h.swap hi hin hlt
  · have hsame : key ∘ Equiv.swap i (parent i) = key := by
      funext j
      simp only [Function.comp_apply, Equiv.swap_apply_def]
      split_ifs with hj hj <;> simp [hj, heq]
    rw [hsame]
    exact (h.heap fun _ _ => heq.ge).lower (fun _ _ _ => rfl) le_rfl

/-- A swap downwards, also of equal keys. -/
theorem DownOrder.swap_of_le (h : DownOrder n key i) (hc : 0 < c) (hcn : c < n)
    (hci : parent c = i) (hmin : ∀ j, 0 < j → j < n → parent j = i → key c ≤ key j)
    (hle : key c ≤ key i) : DownOrder n (key ∘ Equiv.swap i c) c := by
  rcases hle.lt_or_eq with hlt | heq
  · exact h.swap hc hcn hci hmin hlt
  · have hsame : key ∘ Equiv.swap i c = key := by
      funext j
      simp only [Function.comp_apply, Equiv.swap_apply_def]
      split_ifs with hj hj <;> simp [hj, heq]
    rw [hsame]
    refine (h.heap fun j hj hjn hp => ?_).raise (fun _ _ _ => rfl) le_rfl
    exact heq.ge.trans (hmin j hj hjn hp)

/-- The last key of a heap is taken away. -/
theorem HeapOrder.init (h : HeapOrder (n + 1) key) : HeapOrder n key :=
  fun j hj hjn => h j hj (by omega)

/-! ### Contents -/

variable {α : Type*} (f : ℕ → α)

theorem map_swap_perm (hi : i < n) (hj : j < n) :
    ((List.range n).map (f ∘ Equiv.swap i j)).Perm ((List.range n).map f) := by
  have hswap : ((List.range n).map (Equiv.swap i j)).Perm (List.range n) := by
    have hnodup := List.nodup_range (n := n).map (Equiv.swap i j).injective
    apply (List.perm_ext_iff_of_nodup hnodup List.nodup_range).mpr
    intro k
    simp only [List.mem_map, List.mem_range]
    constructor
    · rintro ⟨l, hl, rfl⟩
      rw [Equiv.swap_apply_def]
      split_ifs <;> omega
    · intro hk
      refine ⟨Equiv.swap i j k, ?_, Equiv.swap_apply_self i j k⟩
      rw [Equiv.swap_apply_def]
      split_ifs <;> omega
  rw [← List.map_map]
  exact hswap.map f

/-- Filling position `i` from the last one takes out what stood at `i`. -/
theorem map_swap_last_perm (hi : i ≤ n) :
    (f i :: (List.range n).map (f ∘ Equiv.swap i n)).Perm ((List.range (n + 1)).map f) := by
  have hperm := map_swap_perm f (Nat.lt_succ_of_le hi) (Nat.lt_succ_self n)
  rw [List.range_succ, List.map_append, List.map_singleton] at hperm
  simp only [Function.comp_apply, Equiv.swap_apply_right] at hperm
  exact (List.perm_append_singleton _ _).symm.trans (hperm.trans (by rw [List.range_succ]))

end LdacsSdk.Library
