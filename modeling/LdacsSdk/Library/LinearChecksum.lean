import Mathlib.Tactic

/-!
# Checksums that are linear in exclusive or

A checksum folds a step over the bytes of a message. Where the step is linear in exclusive or, the
checksum of a corrupted message is that of the message and that of the error pattern. A table is
linear when each entry is the sum of the entries of its bits.
-/
namespace LdacsSdk.Library

section Folds

variable {σ β : Type*} [XorOp σ] [XorOp β]

/-- The message with the bits of the error pattern turned over. -/
def corrupt (m e : List β) : List β := List.zipWith (· ^^^ ·) m e

/-- The step is linear in the state and the byte together. -/
def XorLinear (step : σ → β → σ) : Prop :=
  ∀ s s' b b', step (s ^^^ s') (b ^^^ b') = step s b ^^^ step s' b'

variable {step : σ → β → σ}

theorem XorLinear.foldl_corrupt (hstep : XorLinear step) {m e : List β} (h : m.length = e.length)
    (s s' : σ) : (corrupt m e).foldl step (s ^^^ s') = m.foldl step s ^^^ e.foldl step s' := by
  induction m generalizing e s s' with
  | nil =>
    obtain rfl : e = [] := List.eq_nil_of_length_eq_zero h.symm
    rfl
  | cons b m ih =>
    cases e with
    | nil => simp at h
    | cons c e =>
      have htail := ih (e := e) (by simpa using h) (step s b) (step s' c)
      rw [← hstep] at htail
      exact htail

omit [XorOp σ] [XorOp β] in
/-- A state that is not zero does not become zero by bytes that are. -/
theorem foldl_ne_of_zeros [Zero σ] [Zero β] (hzero : ∀ s, step s 0 = 0 → s = 0) {e : List β} {s : σ}
    (hs : s ≠ 0) (he : ∀ b ∈ e, b = 0) : e.foldl step s ≠ 0 := by
  induction e generalizing s with
  | nil => exact hs
  | cons b e ih =>
    have hb : b = 0 := he b (by simp)
    refine ih (fun hstep => hs (hzero s ?_)) fun c hc => he c (by simp [hc])
    rw [← hb, hstep]

end Folds

section Tables

/-- The sum of `f k` over the bits of `a` below `n`. -/
def bitSum (f : ℕ → UInt32) (a : ℕ) : ℕ → UInt32
  | 0 => 0
  | n + 1 => bitSum f a n ^^^ if a.testBit n then f n else 0

theorem bitSum_xor (f : ℕ → UInt32) (a b n : ℕ) :
    bitSum f (a ^^^ b) n = bitSum f a n ^^^ bitSum f b n := by
  induction n with
  | zero => simp [bitSum]
  | succ n ih =>
    simp only [bitSum, ih, Nat.testBit_xor]
    cases a.testBit n <;> cases b.testBit n
    · simp
    · simp [UInt32.xor_assoc]
    · simp only [Bool.true_xor, Bool.not_false, if_true, Bool.false_eq_true, if_false,
        UInt32.xor_zero]
      ac_rfl
    · have hcancel : bitSum f a n ^^^ f n ^^^ (bitSum f b n ^^^ f n) =
          bitSum f a n ^^^ bitSum f b n ^^^ (f n ^^^ f n) := by ac_rfl
      simp [hcancel]

/-- A table whose entries are the sums of the entries of their bits. -/
def TableLinear (table : ℕ → UInt32) : Prop :=
  ∀ a < 256, table a = bitSum (fun k => table (2 ^ k)) a 8

instance (table : ℕ → UInt32) : Decidable (TableLinear table) := Nat.decidableBallLT 256 _

theorem TableLinear.xor {table : ℕ → UInt32} (h : TableLinear table) {a b : ℕ} (ha : a < 256)
    (hb : b < 256) : table (a ^^^ b) = table a ^^^ table b := by
  have hab : a ^^^ b < 256 := Nat.xor_lt_two_pow (n := 8) ha hb
  rw [h _ hab, h _ ha, h _ hb, bitSum_xor]

end Tables

end LdacsSdk.Library
