import LdacsSdk.Library.BitMemory

/-!
# Memories written by merging words

A stroke merges a value into a memory so that it ends at a given bit, by OR, from the byte in which
it starts. A value that fits its width touches no bit in front of it. Strokes that follow one
another on cleared memory leave each word in its place.
-/
namespace LdacsSdk.Library

/-- A value merged into the `width` bits from `pos` on. -/
structure Stroke where
  pos : ℕ
  width : ℕ
  value : ℕ
  deriving DecidableEq, Repr

/-- The bit behind the stroke. -/
def Stroke.stop (k : Stroke) : ℕ := k.pos + k.width

/-- The stroke sets bit `q`. What sticks out of the width lands in front of it in the same byte. -/
def Stroke.sets (k : Stroke) (q : ℕ) : Bool :=
  decide (8 * (k.pos / 8) ≤ q ∧ q < k.stop) && k.value.testBit (k.stop - 1 - q)

/-- The value fits the width. -/
def Stroke.Fits (k : Stroke) : Prop := k.value < 2 ^ k.width

/-- `mem'` is `mem` with the strokes merged in. -/
def Drawn (mem mem' : Mem) (ks : List Stroke) : Prop :=
  ∀ q, bitAt mem' q = (bitAt mem q || ks.any fun k => k.sets q)

/-- Strokes one behind the other. -/
def InOrder (ks : List Stroke) : Prop := ks.Pairwise fun k l => k.stop ≤ l.pos

variable {mem mem' mem'' : Mem} {k : Stroke} {ks ls : List Stroke} {p q : ℕ}

theorem Drawn.nil : Drawn mem mem [] := by
  intro q
  simp

theorem Drawn.append (h : Drawn mem mem' ks) (h' : Drawn mem' mem'' ls) :
    Drawn mem mem'' (ks ++ ls) := by
  intro q
  rw [h' q, h q, List.any_append, Bool.or_assoc]

theorem Stroke.sets_of_inside (hlo : k.pos ≤ q) (hhi : q < k.stop) :
    k.sets q = k.value.testBit (k.stop - 1 - q) := by
  have hbyte : 8 * (k.pos / 8) ≤ q := (Nat.mul_div_le k.pos 8).trans hlo
  simp [Stroke.sets, hbyte, hhi]

theorem Stroke.sets_behind (h : k.stop ≤ q) : k.sets q = false := by
  simp [Stroke.sets, Nat.not_lt.mpr h]

/-- A value that fits reaches no bit in front of its place. -/
theorem Stroke.Fits.sets_before (hfits : k.Fits) (h : q < k.pos) : k.sets q = false := by
  have hlt : k.value < 2 ^ (k.stop - 1 - q) := by
    apply hfits.trans_le
    apply Nat.pow_le_pow_right (by decide)
    unfold Stroke.stop
    omega
  simp [Stroke.sets, Nat.testBit_lt_two_pow hlt]

/-- A stroke of zero sets nothing. -/
theorem Stroke.sets_zero (pos width : ℕ) : (Stroke.mk pos width 0).sets q = false := by
  simp [Stroke.sets]

/-- Bits that no stroke sets stay as they are. -/
theorem Drawn.unchanged (h : Drawn mem mem' ks) (hq : ∀ k ∈ ks, k.sets q = false) :
    bitAt mem' q = bitAt mem q := by
  rw [h q, List.any_eq_false.mpr (by simpa using hq), Bool.or_false]

/-- A word that is set by its own stroke alone holds the value of the stroke. -/
theorem Drawn.word_of_alone (h : Drawn mem mem' ks) (hk : k ∈ ks) (hfits : k.Fits)
    (hzero : ∀ q, k.pos ≤ q → q < k.stop → bitAt mem q = false)
    (halone : ∀ l ∈ ks, l ≠ k → ∀ q, k.pos ≤ q → q < k.stop → l.sets q = false) :
    wordAt mem' k.pos k.width = k.value := by
  apply wordAt_eq hfits
  intro q hlo hhi
  have hown : k.sets q = k.value.testBit (k.stop - 1 - q) := Stroke.sets_of_inside hlo hhi
  rw [h q, hzero q hlo hhi, Bool.false_or]
  change (ks.any fun k => k.sets q) = k.value.testBit (k.stop - 1 - q)
  rw [← hown, Bool.eq_iff_iff, List.any_eq_true]
  constructor
  · rintro ⟨l, hl, hset⟩
    by_cases hlk : l = k
    · exact hlk ▸ hset
    · rw [halone l hl hlk q hlo hhi] at hset
      cases hset
  · intro hset
    exact ⟨k, hk, hset⟩

/-- Of two different members of a list in order one is in front of the other. -/
theorem pairwise_apart {α : Type*} {R : α → α → Prop} {xs : List α} {x y : α} (h : xs.Pairwise R)
    (hx : x ∈ xs) (hy : y ∈ xs) (hne : x ≠ y) : R x y ∨ R y x := by
  have hsymm : Std.Symm fun x y => R x y ∨ R y x := ⟨fun _ _ => Or.symm⟩
  have hpair : xs.Pairwise fun x y => R x y ∨ R y x := h.imp Or.inl
  exact hpair.forall hx hy hne

/-- Strokes one behind the other on cleared memory leave each word in its place. -/
theorem Drawn.word (h : Drawn mem mem' ks) (horder : InOrder ks) (hfits : ∀ k ∈ ks, k.Fits)
    (hzero : ∀ k ∈ ks, ∀ q, k.pos ≤ q → q < k.stop → bitAt mem q = false) (hk : k ∈ ks) :
    wordAt mem' k.pos k.width = k.value := by
  apply h.word_of_alone hk (hfits k hk) (hzero k hk)
  intro l hl hne q hlo hhi
  have hapart : l.stop ≤ k.pos ∨ k.stop ≤ l.pos := pairwise_apart horder hl hk hne
  rcases hapart with hle | hle
  · exact Stroke.sets_behind (hle.trans hlo)
  · exact (hfits l hl).sets_before (hhi.trans_le hle)

end LdacsSdk.Library
