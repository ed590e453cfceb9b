import LdacsSdk.Core.Definitions
import LdacsSdk.Library.BitMemory

/-!
# Moving single fields into and out of a byte stream

`append_bits` and `detach_bits` move one value octet by octet. Both count in `to_shift` how far
the value still sticks out to the right of the octet under the cursor. What they do is stated in
bit positions: a field that ends at bit `E` is read and written as the word that ends there.
-/
namespace LdacsSdk

open Library

/-- An `int` with the low 32 bits of `m`, converted to a `uint64_t`. -/
def intToU64 (m : ℕ) : ℕ := 2 ^ 32 * (if m.testBit 31 then 2 ^ 32 - 1 else 0) + m % 2 ^ 32

theorem testBit_intToU64 (m k : ℕ) :
    (intToU64 m).testBit k = if k < 32 then m.testBit k else decide (k < 64) && m.testBit 31 := by
  rw [intToU64, Nat.testBit_two_pow_mul_add _ (Nat.mod_lt m (by decide))]
  split_ifs with hk h31
  · rw [Nat.testBit_mod_two_pow, decide_eq_true hk, Bool.true_and]
  · rw [Nat.testBit_two_pow_sub_one]
    simp [h31, show k - 32 < 32 ↔ k < 64 by omega]
  · simp [h31]

theorem intToU64_or (a b : ℕ) : intToU64 (a ||| b) = intToU64 a ||| intToU64 b := by
  refine Nat.eq_of_testBit_eq fun k => ?_
  simp only [Nat.testBit_or, testBit_intToU64]
  split_ifs
  · rfl
  · cases decide (k < 64) <;> simp

theorem intToU64_of_lt {m : ℕ} (h : m < 2 ^ 31) : intToU64 m = m := by
  rw [intToU64, Nat.testBit_lt_two_pow h, Nat.mod_eq_of_lt (h.trans (by decide))]
  simp

/-- Of the 32-bit values those with a clear top bit survive. -/
theorem intToU64_eq_self {m : ℕ} (h : m < 2 ^ 32) : intToU64 m = m ↔ m < 2 ^ 31 := by
  constructor
  · intro hself
    by_contra hge
    have htop : m.testBit 31 = true := by
      rw [Nat.testBit_eq_decide_div_mod_eq, decide_eq_true_eq]
      omega
    rw [intToU64, if_pos htop] at hself
    omega
  · exact intToU64_of_lt

theorem intToU64_mod (m : ℕ) : intToU64 m % 2 ^ 32 = m % 2 ^ 32 := by
  rw [intToU64, Nat.mul_add_mod, Nat.mod_mod]

/-- A number of 32 bits with the top bit set never comes out of the `int`. -/
theorem intToU64_eq_iff {m n : ℕ} (hm : m < 2 ^ 32) (hn : n < 2 ^ 32) :
    intToU64 m = n ↔ m = n ∧ n < 2 ^ 31 := by
  constructor
  · intro heq
    have hmod := intToU64_mod m
    rw [heq, Nat.mod_eq_of_lt hn, Nat.mod_eq_of_lt hm] at hmod
    rw [← hmod] at heq
    exact ⟨hmod.symm, (intToU64_eq_self hn).mp heq⟩
  · rintro ⟨heq, hlt⟩
    rw [heq]
    exact intToU64_of_lt hlt

/-- Where `append_bits` stands: the memory, `*cur`, `*to_shift` and the bytes written so far. -/
structure Appending where
  mem : Mem
  cur : ℕ
  toShift : ℤ
  writes : List ℕ

/-- One round of `append_bits`. -/
def appendRound (n : ℕ) (s : Appending) : Appending :=
  if 0 ≤ s.toShift then
    { mem := orByte s.mem s.cur ((n >>> s.toShift.toNat) &&& 0xFF), cur := s.cur + 1,
      toShift := s.toShift - 8, writes := s.writes ++ [s.cur] }
  else
    { mem := orByte s.mem s.cur ((n <<< (-s.toShift).toNat) &&& 0xFF), cur := s.cur,
      toShift := s.toShift - 8, writes := s.writes ++ [s.cur] }

/-- The loop of `append_bits`, for at most a given number of rounds. -/
def appendLoop (n : ℕ) : ℕ → Appending → Appending
  | 0, s => s
  | fuel + 1, s => if s.toShift > -8 then appendLoop n fuel (appendRound n s) else s

/-- `append_bits`. Each round takes 8 off `to_shift`, so the rounds suffice. -/
def appendBits (n : ℕ) (s : Appending) : Appending := appendLoop n (s.toShift + 8).toNat s

/-- Where `detach_bits` stands: `*cur`, `*to_shift`, `*n`, the bits of the octet that earlier
fields used, and the bytes read so far. -/
structure Detaching where
  cur : ℕ
  toShift : ℤ
  n : ℕ
  preUnavil : ℕ
  reads : List ℕ
  deriving DecidableEq, Repr

/-- The octet under the cursor without the bits of earlier fields. -/
def Detaching.specific (mem : Mem) (s : Detaching) : ℕ :=
  if s.preUnavil ≠ 0 then (mem s.cur).toNat &&& (0xFF >>> s.preUnavil) else (mem s.cur).toNat

/-- One round of `detach_bits`. The left shift is one of an `int`. -/
def detachRound (mem : Mem) (s : Detaching) : Detaching :=
  if 0 ≤ s.toShift then
    { cur := s.cur + 1, toShift := s.toShift - 8,
      n := s.n ||| intToU64 (s.specific mem <<< s.toShift.toNat), preUnavil := 0,
      reads := s.reads ++ [s.cur] }
  else
    { cur := s.cur, toShift := s.toShift - 8,
      n := s.n ||| (s.specific mem >>> (-s.toShift).toNat), preUnavil := 0,
      reads := s.reads ++ [s.cur] }

/-- The loop of `detach_bits`, for at most a given number of rounds. -/
def detachLoop (mem : Mem) : ℕ → Detaching → Detaching
  | 0, s => s
  | fuel + 1, s => if s.toShift > -8 then detachLoop mem fuel (detachRound mem s) else s

/-- `detach_bits`. Each round takes 8 off `to_shift`, so the rounds suffice. -/
def detachBits (mem : Mem) (s : Detaching) : Detaching :=
  detachLoop mem (s.toShift + 8).toNat s

theorem appendLoop_done {n : ℕ} {s : Appending} (h : s.toShift ≤ -8) (fuel : ℕ) :
    appendLoop n fuel s = s := by
  cases fuel with
  | zero => rfl
  | succ fuel => rw [appendLoop, if_neg (by omega)]

theorem detachLoop_done {mem : Mem} {s : Detaching} (h : s.toShift ≤ -8) (fuel : ℕ) :
    detachLoop mem fuel s = s := by
  cases fuel with
  | zero => rfl
  | succ fuel => rw [detachLoop, if_neg (by omega)]

/-- The bits one round of `append_bits` adds are those of the value that fall into the octet. -/
theorem bitAt_appendRound (n : ℕ) (s : Appending) {E : ℕ}
    (hE : (E : ℤ) = 8 * (s.cur + 1) + s.toShift) (p : ℕ) :
    bitAt (appendRound n s).mem p =
      (bitAt s.mem p || (decide (p / 8 = s.cur ∧ p < E) && n.testBit (E - 1 - p))) := by
  have h255 : 0xFF = 2 ^ 8 - 1 := rfl
  unfold appendRound
  split_ifs with hs
  · simp only [bitAt_orByte, Nat.testBit_and, h255, Nat.testBit_two_pow_sub_one,
      Nat.testBit_shiftRight]
    by_cases hp : p / 8 = s.cur
    · have hbit : s.toShift.toNat + (7 - p % 8) = E - 1 - p := by omega
      simp [hp, hbit, show p < E by omega, show 7 - p % 8 < 8 by omega]
    · simp [hp]
  · simp only [bitAt_orByte, Nat.testBit_and, h255, Nat.testBit_two_pow_sub_one,
      Nat.testBit_shiftLeft]
    by_cases hp : p / 8 = s.cur
    · have hin : (-s.toShift).toNat ≤ 7 - p % 8 ↔ p < E := by omega
      have hbit : 7 - p % 8 - (-s.toShift).toNat = E - 1 - p := by omega
      simp [hp, hin, hbit, show 7 - p % 8 < 8 by omega]
    · simp [hp]

theorem appendLoop_spec (n : ℕ) {E fuel : ℕ} (s : Appending)
    (hE : (E : ℤ) = 8 * (s.cur + 1) + s.toShift) (h : 8 * s.cur ≤ E)
    (hfuel : E ≤ 8 * s.cur + fuel) :
    (appendLoop n fuel s).cur = E / 8 ∧ ∀ p, bitAt (appendLoop n fuel s).mem p =
      (bitAt s.mem p || (decide (8 * s.cur ≤ p ∧ p < E) && n.testBit (E - 1 - p))) := by
  induction fuel generalizing s with
  | zero =>
    refine ⟨show s.cur = E / 8 by omega, fun p => ?_⟩
    simp [appendLoop, show ¬(8 * s.cur ≤ p ∧ p < E) by omega]
  | succ fuel ih =>
    rw [appendLoop]
    split_ifs with hs
    · have hround := bitAt_appendRound n s hE
      rcases lt_or_ge s.toShift 0 with hneg | hnonneg
      · -- the last octet keeps room to the right of the field, so the cursor stays on it
        rw [appendLoop_done (by rw [appendRound, if_neg (by omega)]; simp only; omega)]
        refine ⟨by rw [appendRound, if_neg (by omega)]; simp only; omega, fun p => ?_⟩
        rw [hround]
        simp only [show p / 8 = s.cur ∧ p < E ↔ 8 * s.cur ≤ p ∧ p < E by omega]
      · have hcur : (appendRound n s).cur = s.cur + 1 := by rw [appendRound, if_pos hnonneg]
        have hshift : (appendRound n s).toShift = s.toShift - 8 := by
          rw [appendRound, if_pos hnonneg]
        obtain ⟨hcur', hbits⟩ := ih (appendRound n s) (by rw [hcur, hshift]; push_cast; omega)
          (by rw [hcur]; omega) (by rw [hcur]; omega)
        refine ⟨hcur', fun p => ?_⟩
        rw [hbits, hround, hcur, Bool.or_assoc, ← Bool.and_or_distrib_right, ← Bool.decide_or]
        simp only [show (p / 8 = s.cur ∧ p < E) ∨ (8 * (s.cur + 1) ≤ p ∧ p < E) ↔
          8 * s.cur ≤ p ∧ p < E by omega]
    · refine ⟨by omega, fun p => ?_⟩
      simp [show ¬(8 * s.cur ≤ p ∧ p < E) by omega]

/-- `append_bits` adds the bits of the value in front of bit `E`, from the octet of the cursor
on, and leaves the cursor on the octet of bit `E`. -/
theorem appendBits_spec (n : ℕ) {E : ℕ} (s : Appending)
    (hE : (E : ℤ) = 8 * (s.cur + 1) + s.toShift) (h : 8 * s.cur ≤ E) :
    (appendBits n s).cur = E / 8 ∧ ∀ p, bitAt (appendBits n s).mem p =
      (bitAt s.mem p || (decide (8 * s.cur ≤ p ∧ p < E) && n.testBit (E - 1 - p))) :=
  appendLoop_spec n s hE h (by omega)

theorem appendLoop_writes (n : ℕ) {E fuel : ℕ} (s : Appending)
    (hE : (E : ℤ) = 8 * (s.cur + 1) + s.toShift) (h : 8 * s.cur ≤ E)
    (hfuel : E ≤ 8 * s.cur + fuel) :
    (appendLoop n fuel s).writes = s.writes ++ List.range' s.cur ((E + 7) / 8 - s.cur) := by
  induction fuel generalizing s with
  | zero => simp [appendLoop, show (E + 7) / 8 - s.cur = 0 by omega]
  | succ fuel ih =>
    rw [appendLoop]
    split_ifs with hs
    · rcases lt_or_ge s.toShift 0 with hneg | hnonneg
      · rw [appendLoop_done (by rw [appendRound, if_neg (by omega)]; simp only; omega),
          appendRound, if_neg (by omega)]
        simp [show (E + 7) / 8 - s.cur = 1 by omega]
      · have hcur : (appendRound n s).cur = s.cur + 1 := by rw [appendRound, if_pos hnonneg]
        have hshift : (appendRound n s).toShift = s.toShift - 8 := by
          rw [appendRound, if_pos hnonneg]
        have hwrites : (appendRound n s).writes = s.writes ++ [s.cur] := by
          rw [appendRound, if_pos hnonneg]
        rw [ih (appendRound n s) (by rw [hcur, hshift]; push_cast; omega) (by rw [hcur]; omega)
          (by rw [hcur]; omega), hwrites, hcur,
          show (E + 7) / 8 - s.cur = (E + 7) / 8 - (s.cur + 1) + 1 by omega]
        simp [List.range'_succ]
    · simp [show (E + 7) / 8 - s.cur = 0 by omega]

/-- `append_bits` writes the octets from that of the cursor to that of the last bit. -/
theorem appendBits_writes (n : ℕ) {E : ℕ} (s : Appending)
    (hE : (E : ℤ) = 8 * (s.cur + 1) + s.toShift) (h : 8 * s.cur ≤ E) :
    (appendBits n s).writes = s.writes ++ List.range' s.cur ((E + 7) / 8 - s.cur) :=
  appendLoop_writes n s hE h (by omega)

theorem Detaching.specific_eq (mem : Mem) (s : Detaching) (h : s.preUnavil < 8) :
    s.specific mem = wordAt mem (8 * s.cur + s.preUnavil) (8 - s.preUnavil) := by
  rw [wordAt_byte_tail _ h.le, Detaching.specific]
  split_ifs with hpre
  · rfl
  · have hlt : (mem s.cur).toNat < 2 ^ 8 := (mem s.cur).toNat_lt
    rw [not_not.mp hpre, Nat.shiftRight_zero, show 0xFF = 2 ^ 8 - 1 by rfl,
      Nat.and_two_pow_sub_one_eq_mod, Nat.mod_eq_of_lt hlt]

theorem detachLoop_spec (mem : Mem) {E fuel : ℕ} (s : Detaching)
    (hE : (E : ℤ) = 8 * (s.cur + 1) + s.toShift) (hpre : s.preUnavil < 8)
    (h : 8 * s.cur + s.preUnavil ≤ E) (hfuel : E ≤ 8 * s.cur + fuel) :
    (detachLoop mem fuel s).cur = E / 8 ∧
      (detachLoop mem fuel s).n = s.n ||| intToU64
        (wordAt mem (8 * s.cur + s.preUnavil) (E - (8 * s.cur + s.preUnavil))) ∧
      (detachLoop mem fuel s).reads = s.reads ++ List.range' s.cur ((E + 7) / 8 - s.cur) := by
  induction fuel generalizing s with
  | zero =>
    have hEcur : E = 8 * s.cur := by omega
    subst hEcur
    refine ⟨show s.cur = 8 * s.cur / 8 by omega, ?_, ?_⟩
    · simp [detachLoop, wordAt, intToU64]
    · simp [detachLoop, show (8 * s.cur + 7) / 8 - s.cur = 0 by omega]
  | succ fuel ih =>
    rw [detachLoop]
    split_ifs with hs
    · have hspec := s.specific_eq mem hpre
      rcases lt_or_ge s.toShift 0 with hneg | hnonneg
      · rw [detachLoop_done (by rw [detachRound, if_neg (by omega)]; simp only; omega),
          detachRound, if_neg (by omega)]
        refine ⟨by simp only; omega, ?_, ?_⟩
        · -- the octet holds the rest of the field and more to the right of it
          have hsplit : 8 - s.preUnavil =
            E - (8 * s.cur + s.preUnavil) + (-s.toShift).toNat := by omega
          simp only
          rw [hspec, hsplit, wordAt_shiftRight, intToU64_of_lt]
          exact wordAt_lt.trans_le (Nat.pow_le_pow_right (by decide) (by omega))
        · simp [show (E + 7) / 8 - s.cur = 1 by omega]
      · have hround : detachRound mem s =
          ⟨s.cur + 1, s.toShift - 8, s.n ||| intToU64 (s.specific mem <<< s.toShift.toNat), 0,
            s.reads ++ [s.cur]⟩ := by rw [detachRound, if_pos hnonneg]
        obtain ⟨hcur, hn, hreads⟩ := ih (detachRound mem s)
          (by rw [hround]; push_cast; omega) (by rw [hround]; exact Nat.zero_lt_succ 7)
          (by rw [hround]; simp only; omega) (by rw [hround]; simp only; omega)
        refine ⟨hcur, ?_, ?_⟩
        · have hsplit : E - (8 * s.cur + s.preUnavil) =
            8 - s.preUnavil + (E - 8 * (s.cur + 1)) := by omega
          have hnext : 8 * s.cur + s.preUnavil + (8 - s.preUnavil) = 8 * (s.cur + 1) := by omega
          rw [hn, hround, hsplit, wordAt_add, hnext, intToU64_or, hspec, Nat.or_assoc,
            show s.toShift.toNat = E - 8 * (s.cur + 1) by omega]
          simp only [Nat.add_zero]
        · rw [hreads, hround, show (E + 7) / 8 - s.cur = (E + 7) / 8 - (s.cur + 1) + 1 by omega]
          simp [List.range'_succ]
    · have hEcur : E = 8 * s.cur := by omega
      have hpre0 : s.preUnavil = 0 := by omega
      subst hEcur
      refine ⟨by omega, ?_, ?_⟩
      · simp [hpre0, wordAt, intToU64]
      · simp [show (8 * s.cur + 7) / 8 - s.cur = 0 by omega]

/-- `detach_bits` reads the word from its first bit, behind the bits of earlier fields, up to
bit `E`, as an `int` of which only 32 bits count, and no octet beyond that of the last bit. -/
theorem detachBits_spec (mem : Mem) {E : ℕ} (s : Detaching)
    (hE : (E : ℤ) = 8 * (s.cur + 1) + s.toShift) (hpre : s.preUnavil < 8)
    (h : 8 * s.cur + s.preUnavil ≤ E) :
    (detachBits mem s).cur = E / 8 ∧
      (detachBits mem s).n = s.n ||| intToU64
        (wordAt mem (8 * s.cur + s.preUnavil) (E - (8 * s.cur + s.preUnavil))) ∧
      (detachBits mem s).reads = s.reads ++ List.range' s.cur ((E + 7) / 8 - s.cur) :=
  detachLoop_spec mem s hE hpre h (by omega)

end LdacsSdk
