import LdacsSdk.Library.BitMemory

/-!
# Numbers in a byte memory

Numbers of `k` bytes, the lowest byte first. A load sees the last store to its bytes.
-/
namespace LdacsSdk.Library

/-- The number of `k` bytes at an address. -/
def loadLe (mem : Mem) (a : ℕ) : ℕ → ℕ
  | 0 => 0
  | k + 1 => (mem a).toNat + 256 * loadLe mem (a + 1) k

/-- The memory with a number of `k` bytes put at an address. -/
def storeLe (mem : Mem) (a k v : ℕ) : Mem := fun x =>
  if a ≤ x ∧ x < a + k then UInt8.ofNat (v / 256 ^ (x - a)) else mem x

variable {mem mem' : Mem} {a k v x : ℕ}

theorem loadLe_lt (mem : Mem) (a k : ℕ) : loadLe mem a k < 256 ^ k := by
  induction k generalizing a with
  | zero => simp [loadLe]
  | succ k ih =>
    have hbyte : (mem a).toNat < 256 := (mem a).toNat_lt
    have htail := ih (a + 1)
    rw [loadLe, pow_succ']
    omega

theorem loadLe_congr (h : ∀ x, a ≤ x → x < a + k → mem' x = mem x) :
    loadLe mem' a k = loadLe mem a k := by
  induction k generalizing a with
  | zero => rfl
  | succ k ih =>
    rw [loadLe, loadLe, h a le_rfl (by omega), ih fun x hx hlt => h x (by omega) (by omega)]

theorem storeLe_of_outside (h : x < a ∨ a + k ≤ x) : storeLe mem a k v x = mem x := by
  have hout : ¬(a ≤ x ∧ x < a + k) := by omega
  rw [storeLe, if_neg hout]

theorem loadLe_of_bytes (h : ∀ i < k, mem (a + i) = UInt8.ofNat (v / 256 ^ i)) :
    loadLe mem a k = v % 256 ^ k := by
  induction k generalizing a v with
  | zero => simp [loadLe, Nat.mod_one]
  | succ k ih =>
    have htail : loadLe mem (a + 1) k = v / 256 % 256 ^ k := ih fun i hi => by
      rw [Nat.add_assoc, Nat.add_comm 1, h (i + 1) (by omega), pow_succ', Nat.div_div_eq_div_mul]
    have hhead : (mem a).toNat = v % 256 := by
      have h0 := h 0 (by omega)
      rw [Nat.add_zero, pow_zero, Nat.div_one] at h0
      rw [h0]
      simp
    rw [loadLe, htail, hhead, pow_succ', Nat.mod_mul]

theorem loadLe_storeLe (h : v < 256 ^ k) : loadLe (storeLe mem a k v) a k = v := by
  rw [loadLe_of_bytes fun i hi => ?_, Nat.mod_eq_of_lt h]
  rw [storeLe, if_pos (by omega), Nat.add_sub_cancel_left]

theorem loadLe_storeLe_of_disjoint {b j : ℕ} (h : b + j ≤ a ∨ a + k ≤ b) :
    loadLe (storeLe mem a k v) b j = loadLe mem b j :=
  loadLe_congr fun x _ _ => storeLe_of_outside (by omega)

end LdacsSdk.Library
