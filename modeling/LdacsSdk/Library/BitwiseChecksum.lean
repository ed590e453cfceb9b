import Mathlib.Tactic
import Mathlib.Algebra.Polynomial.Div
import Mathlib.Algebra.CharP.Two
import Mathlib.Data.ZMod.Defs

/-!
# Checksums bit by bit

A register of `w` bits divides a message bit by bit, most significant bit first or, reflected, least
significant bit first. Both are linear in exclusive or, so a word of the message may be added to the
register before its bits are shifted through, and what the shifts make of a word may be read from a
table.
-/
namespace LdacsSdk.Library

variable {w : ℕ}

/-- One bit of a division by `x ^ w + poly`, most significant bit first. -/
def divideBit (poly r : BitVec w) (bit : Bool) : BitVec w :=
  r <<< 1 ^^^ if r.msb ^^ bit then poly else 0

/-- One bit of the reflected division, least significant bit first. -/
def reflectBit (poly r : BitVec w) (bit : Bool) : BitVec w :=
  r >>> 1 ^^^ if r.getLsbD 0 ^^ bit then poly else 0

/-- The first `k` bits of a word, most significant bit first. -/
def msbFirst (k : ℕ) (v : BitVec w) : List Bool := (List.range k).map fun i => v.getMsbD i

/-- The first `k` bits of a word, least significant bit first. -/
def lsbFirst (k : ℕ) (v : BitVec w) : List Bool := (List.range k).map fun i => v.getLsbD i

/-- Only the low bits of a word are seen. -/
theorem lsbFirst_congr {w' k : ℕ} {v : BitVec w} {v' : BitVec w'}
    (h : ∀ i < k, v.getLsbD i = v'.getLsbD i) : lsbFirst k v = lsbFirst k v' := by
  apply List.map_congr_left
  intro i hi
  exact h i (List.mem_range.mp hi)

section Shifts

variable (poly r v : BitVec w)

theorem divideBit_add (bit : Bool) :
    divideBit poly (r ^^^ v) bit = divideBit poly r (v.msb ^^ bit) ^^^ v <<< 1 := by
  simp only [divideBit, BitVec.msb_xor, BitVec.shiftLeft_xor_distrib, Bool.xor_assoc]
  ac_rfl

theorem reflectBit_add (bit : Bool) :
    reflectBit poly (r ^^^ v) bit = reflectBit poly r (v.getLsbD 0 ^^ bit) ^^^ v >>> 1 := by
  simp only [reflectBit, BitVec.getLsbD_xor, BitVec.ushiftRight_xor_distrib, Bool.xor_assoc]
  ac_rfl

theorem msbFirst_succ (k : ℕ) : msbFirst (k + 1) v = v.msb :: msbFirst k (v <<< 1) := by
  simp only [msbFirst, List.range_succ_eq_map, List.map_cons, List.map_map]
  congr 1
  apply List.map_congr_left
  intro i _
  simp [BitVec.getMsbD_shiftLeft]

theorem lsbFirst_succ (k : ℕ) : lsbFirst (k + 1) v = v.getLsbD 0 :: lsbFirst k (v >>> 1) := by
  simp only [lsbFirst, List.range_succ_eq_map, List.map_cons, List.map_map]
  congr 1
  apply List.map_congr_left
  intro i _
  simp [Nat.add_comm]

/-- The bits of a word may be added to the register before they are shifted out. -/
theorem foldl_divideBit_add (k : ℕ) :
    (List.replicate k false).foldl (divideBit poly) (r ^^^ v) =
      (msbFirst k v).foldl (divideBit poly) r ^^^ v <<< k := by
  induction k generalizing r v with
  | zero => simp [msbFirst]
  | succ k ih =>
    rw [List.replicate_succ, msbFirst_succ, List.foldl_cons, List.foldl_cons, divideBit_add,
      Bool.xor_false, ih, ← BitVec.shiftLeft_add, Nat.add_comm 1 k]

theorem foldl_reflectBit_add (k : ℕ) :
    (List.replicate k false).foldl (reflectBit poly) (r ^^^ v) =
      (lsbFirst k v).foldl (reflectBit poly) r ^^^ v >>> k := by
  induction k generalizing r v with
  | zero => simp [lsbFirst]
  | succ k ih =>
    rw [List.replicate_succ, lsbFirst_succ, List.foldl_cons, List.foldl_cons, reflectBit_add,
      Bool.xor_false, ih, ← BitVec.shiftRight_add, Nat.add_comm 1 k]

theorem foldl_reflectBit_zeros (k : ℕ) :
    (List.replicate k false).foldl (reflectBit poly) r =
      (lsbFirst k r).foldl (reflectBit poly) 0#w ^^^ r >>> k := by
  have h := foldl_reflectBit_add poly 0#w r k
  rwa [BitVec.zero_xor] at h

end Shifts

section Division

open Polynomial

/-- A bit as a coefficient. -/
def coeffBit (bit : Bool) : ZMod 2 := if bit then 1 else 0

theorem coeffBit_xor (a b : Bool) : coeffBit (a ^^ b) = coeffBit a + coeffBit b := by
  cases a <;> cases b <;> decide

/-- The polynomial that the bits of a register are the coefficients of. -/
noncomputable def registerPoly (r : BitVec w) : (ZMod 2)[X] :=
  ∑ i : Fin w, C (coeffBit (r.getLsbD i)) * X ^ (i : ℕ)

/-- The polynomial of a message, whose first bit has the highest degree. -/
noncomputable def messagePoly (bits : List Bool) : (ZMod 2)[X] :=
  bits.foldl (fun p bit => p * X + C (coeffBit bit)) 0

theorem coeff_registerPoly (r : BitVec w) (n : ℕ) :
    (registerPoly r).coeff n = coeffBit (r.getLsbD n) := by
  simp only [registerPoly, finsetSum_coeff, coeff_C_mul, coeff_X_pow, mul_ite, mul_one, mul_zero]
  by_cases hn : n < w
  · rw [Finset.sum_eq_single (⟨n, hn⟩ : Fin w)]
    · simp
    · intro i _ hne
      rw [if_neg]
      intro hin
      exact hne (Fin.ext hin.symm)
    · simp
  · have hout : r.getLsbD n = false := BitVec.getLsbD_of_ge r n (by omega)
    rw [hout]
    apply Finset.sum_eq_zero
    intro i _
    rw [if_neg (by omega)]

theorem degree_registerPoly_lt (r : BitVec w) : (registerPoly r).degree < w :=
  degree_sum_fin_lt fun i : Fin w => coeffBit (r.getLsbD i)

theorem coeffBit_select (c : Bool) (v : BitVec w) (n : ℕ) :
    coeffBit ((if c then v else 0).getLsbD n) = coeffBit c * coeffBit (v.getLsbD n) := by
  cases c <;> simp [coeffBit]

/-- A bit of the division takes the divisor off once where a bit leaves the register. -/
theorem registerPoly_divideBit (hw : 0 < w) (poly r : BitVec w) (bit : Bool) :
    registerPoly (divideBit poly r bit) =
      registerPoly r * X + C (coeffBit bit) * X ^ w +
        C (coeffBit (r.msb ^^ bit)) * (X ^ w + registerPoly poly) := by
  ext n
  simp only [coeff_add, coeff_C_mul, coeff_X_pow, coeff_registerPoly, divideBit,
    BitVec.getLsbD_xor, coeffBit_xor, coeffBit_select]
  cases n with
  | zero => simp [hw.ne, coeffBit]
  | succ n =>
    rw [coeff_mul_X, coeff_registerPoly, BitVec.getLsbD_shiftLeft]
    rcases Nat.lt_trichotomy (n + 1) w with hin | hlast | hout
    · simp [hin, hin.ne]
    · -- the bit that leaves the register meets the leading term of the divisor
      have htop : r.getLsbD n = r.msb := by
        rw [BitVec.msb_eq_getLsbD_last, show w - 1 = n by omega]
      have hpoly : poly.getLsbD w = false := BitVec.getLsbD_of_ge poly w le_rfl
      simp only [hlast, htop, hpoly, lt_irrefl, decide_false, Bool.false_and, if_true, mul_one]
      cases r.msb <;> cases bit <;> decide
    · have hpoly : poly.getLsbD (n + 1) = false := BitVec.getLsbD_of_ge poly _ hout.le
      have hr : r.getLsbD n = false := BitVec.getLsbD_of_ge r n (by omega)
      simp [hpoly, hr, hout.ne', hout.not_gt, coeffBit]

/-- The register holds the remainder of the message, moved up by the register's length. -/
theorem registerPoly_foldl (hw : 0 < w) (poly : BitVec w) (bits : List Bool) :
    registerPoly (bits.foldl (divideBit poly) 0#w) =
      (messagePoly bits * X ^ w) %ₘ (X ^ w + registerPoly poly) := by
  have hmonic : (X ^ w + registerPoly poly).Monic := monic_X_pow_add (degree_registerPoly_lt poly)
  have hdegree : (X ^ w + registerPoly poly).degree = (w : WithBot ℕ) := by
    rw [degree_add_eq_left_of_degree_lt, degree_X_pow]
    rw [degree_X_pow]
    exact degree_registerPoly_lt poly
  have hdvd : X ^ w + registerPoly poly ∣
      messagePoly bits * X ^ w - registerPoly (bits.foldl (divideBit poly) 0#w) := by
    induction bits using List.reverseRecOn with
    | nil => simp [messagePoly, registerPoly, coeffBit]
    | append_singleton bits bit ih =>
      rw [List.foldl_append, List.foldl_cons, List.foldl_nil, registerPoly_divideBit hw]
      have hmessage : messagePoly (bits ++ [bit]) = messagePoly bits * X + C (coeffBit bit) := by
        rw [messagePoly, List.foldl_append]
        rfl
      have hsplit (p r b c g : (ZMod 2)[X]) : (p * X + b) * X ^ w - (r * X + b * X ^ w + c * g) =
          (p * X ^ w - r) * X - c * g := by ring
      rw [hmessage, hsplit]
      exact dvd_sub (ih.mul_right X) (dvd_mul_left _ _)
  rw [modByMonic_eq_of_dvd_sub hmonic hdvd, eq_comm, modByMonic_eq_self_iff hmonic, hdegree]
  exact degree_registerPoly_lt _

end Division

end LdacsSdk.Library
