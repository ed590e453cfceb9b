import Mathlib.Tactic

/-!
# Pieces that tile a stretch

Pieces with an address and a size that stand one behind the other, from the start of a stretch to
its end. A part of a tiling may be replaced by another tiling of the same part.
-/
namespace LdacsSdk.Library

variable {α β : Type*} {addr size : α → ℕ} {a e : ℕ} {c d : α} {l l' m m' : List α}

/-- The pieces cover the stretch from `a` to `e`. -/
def Tiling (addr size : α → ℕ) : ℕ → List α → ℕ → Prop
  | a, [], e => a = e
  | a, c :: l, e => addr c = a ∧ Tiling addr size (a + size c) l e

theorem tiling_append : Tiling addr size a (l ++ l') e ↔
    ∃ b, Tiling addr size a l b ∧ Tiling addr size b l' e := by
  induction l generalizing a with
  | nil => simp [Tiling]
  | cons c l ih => simp only [List.cons_append, Tiling, ih, and_assoc, exists_and_left]

theorem Tiling.le (h : Tiling addr size a l e) : a ≤ e := by
  induction l generalizing a with
  | nil => exact h.le
  | cons c l ih =>
    have htail := ih h.2
    omega

theorem Tiling.bounds (h : Tiling addr size a l e) (hc : c ∈ l) :
    a ≤ addr c ∧ addr c + size c ≤ e := by
  induction l generalizing a with
  | nil => simp at hc
  | cons d l ih =>
    have hle := h.2.le
    rcases List.mem_cons.mp hc with rfl | hc
    · have haddr := h.1
      omega
    · have htail := ih h.2 hc
      omega

/-- A piece ends before the pieces behind it. -/
theorem Tiling.ordered (h : Tiling addr size a l e) :
    l.Pairwise fun c d => addr c + size c ≤ addr d := by
  induction l generalizing a with
  | nil => exact List.Pairwise.nil
  | cons c l ih =>
    refine List.pairwise_cons.mpr ⟨fun d hd => ?_, ih h.2⟩
    have hbounds := h.2.bounds hd
    have haddr := h.1
    omega

theorem Tiling.apart (h : Tiling addr size a l e) (hc : c ∈ l) (hd : d ∈ l)
    (hne : addr c ≠ addr d) : addr c + size c ≤ addr d ∨ addr d + size d ≤ addr c := by
  induction l generalizing a with
  | nil => simp at hc
  | cons x l ih =>
    have hfirst := h.1
    rcases List.mem_cons.mp hc with hcx | hcl
    · rcases List.mem_cons.mp hd with hdx | hdl
      · exact absurd (by rw [hcx, hdx]) hne
      · have hbounds := h.2.bounds hdl
        rw [hcx]
        omega
    · rcases List.mem_cons.mp hd with hdx | hdl
      · have hbounds := h.2.bounds hcl
        rw [hdx]
        omega
      · exact ih h.2 hcl hdl

theorem Tiling.nodup (h : Tiling addr size a l e) (hpos : ∀ c ∈ l, 0 < size c) :
    (l.map addr).Nodup := by
  refine List.pairwise_map.mpr (h.ordered.imp_of_mem fun hc _ hle heq => ?_)
  have hsize := hpos _ hc
  omega

/-- There are at most as many pieces as units. -/
theorem Tiling.length_le (h : Tiling addr size a l e) (hpos : ∀ c ∈ l, 0 < size c) :
    a + l.length ≤ e := by
  induction l generalizing a with
  | nil => exact h.le
  | cons c l ih =>
    have hfirst := hpos c (by simp)
    have htail := ih h.2 fun d hd => hpos d (by simp [hd])
    rw [List.length_cons]
    omega

theorem Tiling.sum_size (h : Tiling addr size a l e) : a + (l.map size).sum = e := by
  induction l generalizing a with
  | nil => exact h
  | cons c l ih =>
    have htail := ih h.2
    rw [List.map_cons, List.sum_cons]
    omega

theorem Tiling.around (h : Tiling addr size a (l ++ c :: l') e) :
    Tiling addr size a l (addr c) ∧ Tiling addr size (addr c + size c) l' e := by
  obtain ⟨b, hl, hc, hl'⟩ := tiling_append.mp h
  rw [← hc] at hl hl'
  exact ⟨hl, hl'⟩

/-- Another tiling of the part that a piece covers. -/
theorem Tiling.replace (h : Tiling addr size a (l ++ c :: l') e)
    (hm : Tiling addr size (addr c) m (addr c + size c)) :
    Tiling addr size a (l ++ (m ++ l')) e := by
  obtain ⟨hl, hl'⟩ := h.around
  exact tiling_append.mpr ⟨addr c, hl, tiling_append.mpr ⟨_, hm, hl'⟩⟩

/-- The pieces may be renamed. -/
theorem Tiling.map {addr' size' : β → ℕ} {g : α → β} (h : Tiling addr size a l e)
    (haddr : ∀ c ∈ l, addr' (g c) = addr c) (hsize : ∀ c ∈ l, size' (g c) = size c) :
    Tiling addr' size' a (l.map g) e := by
  induction l generalizing a with
  | nil => exact h
  | cons c l ih =>
    rw [List.map_cons]
    refine ⟨(haddr c (by simp)).trans h.1, ?_⟩
    rw [hsize c (by simp)]
    exact ih h.2 (fun d hd => haddr d (by simp [hd])) fun d hd => hsize d (by simp [hd])

end LdacsSdk.Library
