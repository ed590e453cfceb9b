import Mathlib.Data.Finset.Basic
import Mathlib.Data.Finset.Range
import Mathlib.Tactic

/-!
# A finite set in an array of words

The numbers below a bound are the bits of an array of `w`-bit words, from the least significant
bit of the first word on. Setting and clearing a bit are insertion into the set the array stands
for and removal from it.
-/
namespace LdacsSdk.Library

variable {w : ℕ}

/-- The word with one bit, that of number `i`. -/
def bitMask (w i : ℕ) : BitVec w := 1#w <<< (i % w)

/-- The word that holds number `i`. -/
def wordOf (words : List (BitVec w)) (i : ℕ) : BitVec w := words.getD (i / w) 0

/-- Number `i` is in the array. -/
def hasBit (words : List (BitVec w)) (i : ℕ) : Bool := wordOf words i &&& bitMask w i != 0

def setBit (words : List (BitVec w)) (i : ℕ) : List (BitVec w) :=
  words.set (i / w) (wordOf words i ||| bitMask w i)

def clearBit (words : List (BitVec w)) (i : ℕ) : List (BitVec w) :=
  words.set (i / w) (wordOf words i &&& ~~~ bitMask w i)

@[simp] theorem length_setBit (words : List (BitVec w)) (i : ℕ) :
    (setBit words i).length = words.length := by
  simp [setBit]

@[simp] theorem length_clearBit (words : List (BitVec w)) (i : ℕ) :
    (clearBit words i).length = words.length := by
  simp [clearBit]

variable {words : List (BitVec w)} {i j n : ℕ}

theorem hasBit_eq_getLsbD (hw : 0 < w) : hasBit words i = (wordOf words i).getLsbD (i % w) := by
  unfold hasBit bitMask
  rw [← BitVec.twoPow_eq, BitVec.and_twoPow]
  cases h : (wordOf words i).getLsbD (i % w)
  · simp
  · have hne : BitVec.twoPow w (i % w) ≠ 0 := by
      intro he
      have hbit := congrArg (fun v => v.getLsbD (i % w)) he
      simp [Nat.mod_lt i hw] at hbit
    simpa using hne

/-- Two numbers of one word differ in their bits. -/
theorem mod_ne_of_div_eq (hdiv : i / w = j / w) (hne : j ≠ i) : i % w ≠ j % w := by
  intro hmod
  apply hne
  rw [← Nat.div_add_mod j w, ← Nat.div_add_mod i w, hdiv, hmod]

theorem hasBit_setBit (hw : 0 < w) (hi : i / w < words.length) :
    hasBit (setBit words i) j = (hasBit words j || decide (j = i)) := by
  rw [hasBit_eq_getLsbD hw, hasBit_eq_getLsbD hw]
  by_cases hdiv : i / w = j / w
  · have hword : wordOf (setBit words i) j = wordOf words j ||| bitMask w i := by
      simp [wordOf, setBit, ← hdiv, List.getElem?_set_self hi]
    rw [hword, BitVec.getLsbD_or, bitMask, ← BitVec.twoPow_eq, BitVec.getLsbD_twoPow]
    by_cases hij : j = i
    · simp [hij, Nat.mod_lt i hw]
    · simp [hij, mod_ne_of_div_eq hdiv hij]
  · have hne : j ≠ i := by
      rintro rfl
      exact hdiv rfl
    simp [wordOf, setBit, List.getElem?_set_ne hdiv, hne]

theorem hasBit_clearBit (hw : 0 < w) (hi : i / w < words.length) :
    hasBit (clearBit words i) j = (hasBit words j && decide (j ≠ i)) := by
  rw [hasBit_eq_getLsbD hw, hasBit_eq_getLsbD hw]
  by_cases hdiv : i / w = j / w
  · have hword : wordOf (clearBit words i) j = wordOf words j &&& ~~~ bitMask w i := by
      simp [wordOf, clearBit, ← hdiv, List.getElem?_set_self hi]
    rw [hword, BitVec.getLsbD_and, BitVec.getLsbD_not, bitMask, ← BitVec.twoPow_eq,
      BitVec.getLsbD_twoPow]
    by_cases hij : j = i
    · simp [hij, Nat.mod_lt i hw]
    · simp [hij, mod_ne_of_div_eq hdiv hij, Nat.mod_lt j hw]
  · have hne : j ≠ i := by
      rintro rfl
      exact hdiv rfl
    simp [wordOf, clearBit, List.getElem?_set_ne hdiv, hne]

/-- Clearing one bit leaves the others as they are. -/
theorem hasBit_clearBit_of_ne (hw : 0 < w) (hne : j ≠ i) :
    hasBit (clearBit words i) j = hasBit words j := by
  by_cases hi : i / w < words.length
  · simp [hasBit_clearBit hw hi, hne]
  · rw [clearBit, List.set_eq_of_length_le (Nat.le_of_not_lt hi)]

/-- The numbers below `n` in the array are those of `A`, and each of them has its word. -/
structure Represents (words : List (BitVec w)) (n : ℕ) (A : Finset ℕ) : Prop where
  stored : ∀ i < n, i / w < words.length
  below : ∀ i ∈ A, i < n
  bits : ∀ i < n, hasBit words i = decide (i ∈ A)

variable {A : Finset ℕ}

theorem Represents.insert (h : Represents words n A) (hw : 0 < w) (hi : i < n) :
    Represents (setBit words i) n (insert i A) where
  stored j hj := by simpa using h.stored j hj
  below j hj := by
    rcases Finset.mem_insert.mp hj with rfl | hj
    · exact hi
    · exact h.below j hj
  bits j hj := by
    rw [hasBit_setBit hw (h.stored i hi), h.bits j hj]
    by_cases hji : j = i <;> simp [hji]

theorem Represents.erase (h : Represents words n A) (hw : 0 < w) (hi : i < n) :
    Represents (clearBit words i) n (A.erase i) where
  stored j hj := by simpa using h.stored j hj
  below j hj := h.below j (Finset.mem_of_mem_erase hj)
  bits j hj := by
    rw [hasBit_clearBit hw (h.stored i hi), h.bits j hj]
    by_cases hji : j = i <;> simp [hji]

/-- An array stands for one set. -/
theorem Represents.unique (h : Represents words n A) {B : Finset ℕ} (hB : Represents words n B) :
    A = B := by
  ext i
  by_cases hi : i < n
  · have hbits := (h.bits i hi).symm.trans (hB.bits i hi)
    simpa using hbits
  · exact ⟨fun hA => absurd (h.below i hA) hi, fun hB' => absurd (hB.below i hB') hi⟩

theorem represents_zero (hn : ∀ i < n, i / w < words.length) (hzero : ∀ v ∈ words, v = 0) :
    Represents words n ∅ where
  stored := hn
  below i hi := by simp at hi
  bits i hi := by
    have hword : wordOf words i = 0 := by
      have hmem := hzero _ (List.getElem_mem (hn i hi))
      simp [wordOf, List.getElem?_eq_getElem (hn i hi), hmem]
    simp [hasBit, hword]

end LdacsSdk.Library
