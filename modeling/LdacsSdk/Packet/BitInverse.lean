import LdacsSdk.Packet.Bits

/-!
# Packing and unpacking

A field of up to 64 bits packed by `append_bits` and unpacked by `detach_bits`. Packing is right at
every width. Unpacking collects the octets in `int`s, so the value survives where an `int` holds it;
a value from `2 ^ 31` on comes back with its upper half wrong. Octets that stick out by 32 bits and
more are shifted further than the language defines, so what an `int` keeps of them is left open.
-/
namespace LdacsSdk

open Library

/-- What `specific << to_shift` leaves of an `int`. Counts up to 31 are defined; beyond that only
zero stays zero on every machine. -/
structure IntShift where
  shl : ℕ → ℕ → ℕ
  shl_of_lt : ∀ specific count, count < 32 → shl specific count = specific <<< count
  shl_zero : ∀ count, shl 0 count = 0

/-- The shift that drops what leaves the `int`. -/
def IntShift.dropping : IntShift where
  shl := fun specific count => specific <<< count
  shl_of_lt := fun _ _ _ => rfl
  shl_zero := Nat.zero_shiftLeft

/-- One round of `detach_bits` on a machine. -/
def detachRoundOn (σ : IntShift) (mem : Mem) (s : Detaching) : Detaching :=
  if 0 ≤ s.toShift then
    { detachRound mem s with n := s.n ||| intToU64 (σ.shl (s.specific mem) s.toShift.toNat) }
  else detachRound mem s

/-- The loop of `detach_bits` on a machine, for at most a given number of rounds. -/
def detachLoopOn (σ : IntShift) (mem : Mem) : ℕ → Detaching → Detaching
  | 0, s => s
  | fuel + 1, s => if s.toShift > -8 then detachLoopOn σ mem fuel (detachRoundOn σ mem s) else s

/-- `detach_bits` on a machine. -/
def detachBitsOn (σ : IntShift) (mem : Mem) (s : Detaching) : Detaching :=
  detachLoopOn σ mem (s.toShift + 8).toNat s

/-- Where `out_struct` starts `append_bits` for a field. -/
def packStart (mem : Mem) (cur offset width : ℕ) : Appending :=
  ⟨mem, cur, width - (8 - (offset : ℤ)), []⟩

/-- Where `in_struct` starts `detach_bits` for a field. -/
def unpackStart (cur offset width : ℕ) : Detaching := ⟨cur, width + (offset : ℤ) - 8, 0, offset, []⟩

/-- Packing keeps the bits in front of the field, unpacking returns the value whatever is written
behind it, on every machine, and both move the cursor to the octet behind the field's last bit. -/
structure BitsInverse (mem : Mem) (cur offset width v : ℕ) : Prop where
  keeps : ∀ p < 8 * cur + offset,
    bitAt (appendBits v (packStart mem cur offset width)).mem p = bitAt mem p
  advances : (appendBits v (packStart mem cur offset width)).cur = cur + (offset + width) / 8
  returns : ∀ (σ : IntShift) (mem' : Mem), (∀ p < 8 * cur + offset + width,
      bitAt mem' p = bitAt (appendBits v (packStart mem cur offset width)).mem p) →
    (detachBitsOn σ mem' (unpackStart cur offset width)).n = v
  follows : ∀ (σ : IntShift) (mem' : Mem),
    (detachBitsOn σ mem' (unpackStart cur offset width)).cur = cur + (offset + width) / 8

section Packing

variable {mem : Mem} {cur offset width v : ℕ}

theorem append_packStart_cur (mem : Mem) (cur offset width v : ℕ) :
    (appendBits v (packStart mem cur offset width)).cur = cur + (offset + width) / 8 := by
  have hspec := appendBits_spec v (E := 8 * cur + offset + width) (packStart mem cur offset width)
    (by rw [packStart]; push_cast; ring) (by rw [packStart]; simp only; omega)
  rw [hspec.1]
  omega

theorem bitAt_append_packStart (p : ℕ) :
    bitAt (appendBits v (packStart mem cur offset width)).mem p =
      (bitAt mem p || (decide (8 * cur ≤ p ∧ p < 8 * cur + offset + width) &&
        v.testBit (8 * cur + offset + width - 1 - p))) :=
  (appendBits_spec v (E := 8 * cur + offset + width) (packStart mem cur offset width)
    (by rw [packStart]; push_cast; ring) (by rw [packStart]; simp only; omega)).2 p

/-- The value has no bits that would fall in front of the field. -/
theorem append_packStart_keeps (hv : v < 2 ^ width) {p : ℕ} (hp : p < 8 * cur + offset) :
    bitAt (appendBits v (packStart mem cur offset width)).mem p = bitAt mem p := by
  have hhigh : v.testBit (8 * cur + offset + width - 1 - p) = false := by
    apply Nat.testBit_lt_two_pow
    exact hv.trans_le (Nat.pow_le_pow_right (by decide) (by omega))
  rw [bitAt_append_packStart, hhigh, Bool.and_false, Bool.or_false]

/-- A field packed into zeros spells the value. -/
theorem wordAt_append_packStart (hv : v < 2 ^ width)
    (hzero : ∀ p, 8 * cur + offset ≤ p → p < 8 * cur + offset + width → bitAt mem p = false) :
    wordAt (appendBits v (packStart mem cur offset width)).mem (8 * cur + offset) width = v := by
  apply wordAt_eq hv
  intro p hlo hhi
  have hin : 8 * cur ≤ p ∧ p < 8 * cur + offset + width := by omega
  rw [bitAt_append_packStart, hzero p hlo hhi, Bool.false_or, decide_eq_true hin, Bool.true_and]

end Packing

section Unpacking

variable {σ : IntShift} {mem : Mem} {s : Detaching}

theorem detachRoundOn_or (x : ℕ) (s : Detaching) :
    detachRoundOn σ mem { s with n := s.n ||| x } =
      { detachRoundOn σ mem s with n := (detachRoundOn σ mem s).n ||| x } := by
  have hspecific : Detaching.specific mem { s with n := s.n ||| x } = s.specific mem := rfl
  unfold detachRoundOn detachRound
  rw [hspecific]
  split_ifs
  all_goals simp only [Detaching.mk.injEq, true_and, and_true]
  all_goals ac_rfl

/-- Bits that are already in the number stay there. -/
theorem detachLoopOn_or (σ : IntShift) (mem : Mem) (fuel x : ℕ) (s : Detaching) :
    detachLoopOn σ mem fuel { s with n := s.n ||| x } =
      { detachLoopOn σ mem fuel s with n := (detachLoopOn σ mem fuel s).n ||| x } := by
  induction fuel generalizing s with
  | zero => rfl
  | succ fuel ih =>
    simp only [detachLoopOn]
    split_ifs
    · rw [detachRoundOn_or, ih]
    · rfl

theorem detachRoundOn_dropping (s : Detaching) :
    detachRoundOn .dropping mem s = detachRound mem s := by
  unfold detachRoundOn detachRound
  split_ifs
  · rfl
  · rfl

theorem detachLoopOn_dropping (fuel : ℕ) (s : Detaching) :
    detachLoopOn .dropping mem fuel s = detachLoop mem fuel s := by
  induction fuel generalizing s with
  | zero => rfl
  | succ fuel ih => rw [detachLoopOn, detachLoop, detachRoundOn_dropping, ih]

/-- A round on a machine differs from one that drops what leaves the `int` in an `int` only, and
not at all where the octet is empty or sticks out by less than 32 bits. -/
theorem detachRoundOn_int (σ : IntShift) (mem : Mem) (s : Detaching) : ∃ m,
    detachRoundOn σ mem s =
        { detachRound mem s with n := (detachRound mem s).n ||| intToU64 m } ∧
      (s.toShift < 32 ∨ s.specific mem = 0 → m = 0) := by
  rcases lt_or_ge s.toShift 32 with hnarrow | hwide
  · use 0
    constructor
    · unfold detachRoundOn detachRound
      split_ifs
      · rw [σ.shl_of_lt _ _ (by omega)]
        simp [intToU64]
      · simp [intToU64]
    · intro _
      rfl
  · use σ.shl (s.specific mem) s.toShift.toNat
    constructor
    · -- the shift by 32 bits and more leaves nothing in the low half
      have hnone : intToU64 (s.specific mem <<< s.toShift.toNat) = 0 := by
        apply Nat.eq_of_testBit_eq
        intro k
        rw [testBit_intToU64, Nat.zero_testBit]
        split_ifs
        · simp; omega
        · simp; omega
      unfold detachRoundOn detachRound
      rw [if_pos (by omega), if_pos (by omega), hnone, Nat.or_zero]
    · intro h
      rcases h with hnarrow | hempty
      · omega
      · rw [hempty, σ.shl_zero]

/-- On every machine the number holds the bits that the defined shifts bring, and what it holds
more of is an `int`. -/
theorem detachLoopOn_int (σ : IntShift) (mem : Mem) (fuel : ℕ) (s : Detaching) :
    ∃ m, detachLoopOn σ mem fuel s =
      { detachLoop mem fuel s with n := (detachLoop mem fuel s).n ||| intToU64 m } := by
  induction fuel generalizing s with
  | zero =>
    use 0
    simp [detachLoopOn, detachLoop, intToU64]
  | succ fuel ih =>
    rw [detachLoopOn, detachLoop]
    split_ifs
    · obtain ⟨m, hround, -⟩ := detachRoundOn_int σ mem s
      obtain ⟨m', hloop⟩ := ih (detachRound mem s)
      use m' ||| m
      rw [hround, detachLoopOn_or, hloop, intToU64_or, Nat.or_assoc]
    · use 0
      simp [intToU64]

theorem detachLoopOn_done (h : s.toShift ≤ -8) (fuel : ℕ) : detachLoopOn σ mem fuel s = s := by
  cases fuel with
  | zero => rfl
  | succ fuel => rw [detachLoopOn, if_neg (by omega)]

/-- A word of 32 bits is read alike on every machine. -/
theorem detachLoopOn_eq (σ : IntShift) (mem : Mem) {E : ℕ} (fuel : ℕ) (s : Detaching)
    (hE : (E : ℤ) = 8 * (s.cur + 1) + s.toShift) (hpre : s.preUnavil < 8)
    (h : 8 * s.cur + s.preUnavil ≤ E)
    (hsmall : wordAt mem (8 * s.cur + s.preUnavil) (E - (8 * s.cur + s.preUnavil)) < 2 ^ 32) :
    detachLoopOn σ mem fuel s = detachLoop mem fuel s := by
  induction fuel generalizing s with
  | zero => rfl
  | succ fuel ih =>
    rw [detachLoopOn, detachLoop]
    split_ifs with hs
    · have hsame : detachRoundOn σ mem s = detachRound mem s := by
        obtain ⟨m, hround, hm⟩ := detachRoundOn_int σ mem s
        have hzero : m = 0 := by
          apply hm
          by_cases hnarrow : s.toShift < 32
          · exact .inl hnarrow
          · right
            -- the octet is the part of the word that sticks out
            have hsplit : E - (8 * s.cur + s.preUnavil) = 8 - s.preUnavil + s.toShift.toNat := by
              omega
            rw [s.specific_eq mem hpre, ← wordAt_shiftRight _ s.toShift.toNat, ← hsplit]
            apply Nat.shiftRight_eq_zero
            exact hsmall.trans_le (Nat.pow_le_pow_right (by decide) (by omega))
        rw [hround, hzero]
        simp [intToU64]
      rw [hsame]
      rcases lt_or_ge s.toShift 0 with hneg | hnonneg
      · have hlast : (detachRound mem s).toShift ≤ -8 := by
          rw [detachRound, if_neg (by omega)]
          simp only
          omega
        rw [detachLoopOn_done hlast, detachLoop_done hlast]
      · have hcur : (detachRound mem s).cur = s.cur + 1 := by rw [detachRound, if_pos hnonneg]
        have hshift : (detachRound mem s).toShift = s.toShift - 8 := by
          rw [detachRound, if_pos hnonneg]
        have hnext : (detachRound mem s).preUnavil = 0 := by rw [detachRound, if_pos hnonneg]
        apply ih
        · rw [hcur, hshift]
          push_cast
          omega
        · rw [hnext]
          decide
        · rw [hcur, hnext]
          omega
        · have hsplit : E - (8 * s.cur + s.preUnavil) =
              8 - s.preUnavil + (E - 8 * (s.cur + 1)) := by omega
          have hbehind : 8 * s.cur + s.preUnavil + (8 - s.preUnavil) = 8 * (s.cur + 1) := by omega
          rw [hsplit, wordAt_add, hbehind] at hsmall
          rw [hcur, hnext, Nat.add_zero]
          exact Nat.right_le_or.trans_lt hsmall
    · rfl

end Unpacking

/-- The widest field that no `int` takes in full: its first bit is taken for a sign. -/
theorem bits_not_inverse : ¬BitsInverse (fun _ => 0) 0 0 32 (2 ^ 31) := by
  intro h
  have hback := h.returns .dropping _ fun _ _ => rfl
  revert hback
  decide

section Inverse

variable {mem : Mem} {cur offset width v : ℕ}

/-- An `int` as a `uint64_t` is small or close to `2 ^ 64`. -/
theorem intToU64_range (m : ℕ) : intToU64 m < 2 ^ 31 ∨ 2 ^ 64 - 2 ^ 31 ≤ intToU64 m := by
  rw [intToU64]
  by_cases htop : m.testBit 31
  · right
    rw [if_pos htop]
    rw [Nat.testBit_eq_decide_div_mod_eq, decide_eq_true_eq] at htop
    omega
  · left
    rw [if_neg htop]
    rw [Nat.testBit_eq_decide_div_mod_eq, decide_eq_true_eq] at htop
    omega

theorem intToU64_ones : intToU64 (2 ^ 64 - 1) = 2 ^ 64 - 1 := by decide

/-- All bits set stay so. -/
theorem or_intToU64_of_ones (m : ℕ) : (2 ^ 64 - 1) ||| intToU64 m = 2 ^ 64 - 1 := by
  apply Nat.eq_of_testBit_eq
  intro k
  rw [Nat.testBit_or, testBit_intToU64, Nat.testBit_two_pow_sub_one]
  by_cases hk : k < 64
  · simp [hk]
  · simp [hk, show ¬k < 32 by omega]

theorem unpackStart_end (cur offset width : ℕ) :
    ((8 * cur + offset + width : ℕ) : ℤ) =
      8 * ((unpackStart cur offset width).cur + 1) + (unpackStart cur offset width).toShift := by
  rw [unpackStart]
  push_cast
  ring

theorem detach_unpackStart_cur (σ : IntShift) (mem : Mem) (hoffset : offset < 8) :
    (detachBitsOn σ mem (unpackStart cur offset width)).cur = cur + (offset + width) / 8 := by
  obtain ⟨m, hloop⟩ := detachLoopOn_int σ mem
    ((unpackStart cur offset width).toShift + 8).toNat (unpackStart cur offset width)
  have hspec := detachBits_spec mem (unpackStart cur offset width)
    (unpackStart_end cur offset width) hoffset (Nat.le_add_right _ _)
  rw [detachBitsOn, hloop]
  calc (detachBits mem (unpackStart cur offset width)).cur
      = (8 * cur + offset + width) / 8 := hspec.1
    _ = cur + (offset + width) / 8 := by omega

/-- The value comes back as an `int`, with an `int` merged into it where it has more than 32
bits. -/
theorem detach_unpackStart_n (σ : IntShift) (hoffset : offset < 8)
    (hword : wordAt mem (8 * cur + offset) width = v) :
    ∃ m, (detachBitsOn σ mem (unpackStart cur offset width)).n = intToU64 v ||| intToU64 m ∧
      (v < 2 ^ 32 → m = 0) := by
  have hlength : 8 * cur + offset + width - (8 * cur + offset) = width := by omega
  have hspec : (detachBits mem (unpackStart cur offset width)).n = intToU64 v := by
    have h := (detachBits_spec mem (unpackStart cur offset width)
      (unpackStart_end cur offset width) hoffset (Nat.le_add_right _ _)).2.1
    rw [h]
    simp only [unpackStart]
    rw [hlength, hword, Nat.zero_or]
  by_cases hsmall : v < 2 ^ 32
  · use 0
    have hsame := detachLoopOn_eq σ mem
      ((unpackStart cur offset width).toShift + 8).toNat (unpackStart cur offset width)
      (unpackStart_end cur offset width) hoffset (Nat.le_add_right _ _) (by
        simp only [unpackStart]
        rwa [hlength, hword])
    rw [detachBitsOn, hsame]
    rw [detachBits] at hspec
    simp [hspec, intToU64]
  · obtain ⟨m, hloop⟩ := detachLoopOn_int σ mem
      ((unpackStart cur offset width).toShift + 8).toNat (unpackStart cur offset width)
    use m
    rw [detachBits] at hspec
    rw [detachBitsOn, hloop, hspec]
    exact ⟨rfl, fun h => absurd h hsmall⟩

/-- A machine that makes all bits of what it shifts too far. -/
def IntShift.filling : IntShift where
  shl := fun specific count =>
    if count < 32 then specific <<< count else if specific = 0 then 0 else 2 ^ 32 - 1
  shl_of_lt := fun _ _ h => if_pos h
  shl_zero := fun count => by
    rw [if_pos rfl, Nat.zero_shiftLeft, ite_self]

/-- Where the top octet of a field of 64 bits is not empty, the filling machine sets all bits. -/
theorem detach_filling_ge (hoffset : offset < 8) (hword : wordAt mem (8 * cur + offset) 64 = v)
    (hv : 2 ^ 63 ≤ v) :
    2 ^ 64 - 1 ≤ (detachBitsOn .filling mem (unpackStart cur offset 64)).n := by
  let s := unpackStart cur offset 64
  have hshift : s.toShift = 56 + (offset : ℤ) := by
    simp only [s, unpackStart]
    push_cast
    ring
  have htop : s.specific mem ≠ 0 := by
    have hsplit : 8 - offset + s.toShift.toNat = 64 := by omega
    have hspecific : s.specific mem = v >>> s.toShift.toNat := by
      rw [s.specific_eq mem hoffset, ← wordAt_shiftRight _ s.toShift.toNat]
      exact congrArg (· >>> s.toShift.toNat) ((congrArg (wordAt mem _) hsplit).trans hword)
    rw [hspecific, Nat.shiftRight_eq_div_pow]
    have hle : 2 ^ s.toShift.toNat ≤ 2 ^ 63 := Nat.pow_le_pow_right (by decide) (by omega)
    exact (Nat.div_pos (hle.trans hv) (by positivity)).ne'
  have hfill : IntShift.filling.shl (s.specific mem) s.toShift.toNat = 2 ^ 32 - 1 := by
    have hwide : ¬s.toShift.toNat < 32 := by omega
    simp only [IntShift.filling, if_neg hwide, if_neg htop]
  have hround : detachRoundOn .filling mem s =
      { detachRound mem s with n := 0 ||| (2 ^ 64 - 1) } := by
    rw [detachRoundOn, if_pos (by omega), hfill]
    rfl
  have hfuel : (s.toShift + 8).toNat = 63 + offset + 1 := by omega
  have hloop := detachLoopOn_or .filling mem (63 + offset) (2 ^ 64 - 1)
    { detachRound mem s with n := 0 }
  have hrun : detachBitsOn .filling mem s = detachLoopOn .filling mem (63 + offset)
      { detachRound mem s with n := 0 ||| (2 ^ 64 - 1) } := by
    rw [detachBitsOn, hfuel, detachLoopOn, if_pos (by omega), hround]
  rw [hrun, hloop]
  exact Nat.right_le_or

/-- Packing and unpacking are inverse, on every machine, for the values that an `int` holds and for
the one with all 64 bits set. -/
theorem bits_inverse_iff (hwidth : width ≤ 64) (hoffset : offset < 8) (hv : v < 2 ^ width)
    (hzero : ∀ p, 8 * cur + offset ≤ p → p < 8 * cur + offset + width → bitAt mem p = false) :
    BitsInverse mem cur offset width v ↔ v < 2 ^ 31 ∨ v = 2 ^ 64 - 1 := by
  have hword := wordAt_append_packStart hv hzero
  constructor
  · intro h
    have hv64 : v < 2 ^ 64 := hv.trans_le (Nat.pow_le_pow_right (by decide) hwidth)
    by_cases hsmall : v < 2 ^ 31
    · exact .inl hsmall
    · right
      have hback (σ : IntShift) := h.returns σ _ fun _ _ => rfl
      obtain ⟨m, hn, -⟩ := detach_unpackStart_n .filling hoffset hword
      rw [hback, ← intToU64_or] at hn
      have htop : 2 ^ 64 - 2 ^ 31 ≤ v := by
        have hrange := intToU64_range (v ||| m)
        omega
      have hwide : width = 64 := by
        by_contra hne
        have hle : 2 ^ width ≤ 2 ^ 63 := Nat.pow_le_pow_right (by decide) (by omega)
        omega
      subst hwide
      have hge := detach_filling_ge hoffset hword (by omega)
      rw [hback] at hge
      omega
  · intro h
    constructor
    · intro p hp
      exact append_packStart_keeps hv hp
    · exact append_packStart_cur mem cur offset width v
    · intro σ mem' hsame
      have hword' : wordAt mem' (8 * cur + offset) width = v := by
        rw [← hword]
        apply wordAt_congr
        intro q _ hq
        exact hsame q hq
      obtain ⟨m, hn, hm⟩ := detach_unpackStart_n σ hoffset hword'
      rw [hn]
      rcases h with hsmall | hones
      · rw [hm (by omega), intToU64_of_lt hsmall, intToU64_of_lt (by decide), Nat.or_zero]
      · rw [hones, intToU64_ones]
        exact or_intToU64_of_ones m
    · intro σ mem'
      exact detach_unpackStart_cur σ mem' hoffset

/-- A field of 13 bits behind five used ones. -/
theorem bits_inverse_thirteen :
    BitsInverse (fun a => if a = 0 then 0xF8 else 0) 0 5 13 0x1234 ↔
      0x1234 < 2 ^ 31 ∨ 0x1234 = 2 ^ 64 - 1 := by
  apply bits_inverse_iff (by decide) (by decide) (by decide)
  intro p hlo hhi
  interval_cases p <;> decide

end Inverse

end LdacsSdk
