import LdacsSdk.Library.Circular

/-!
# Open addressing with displacement of the richer

A circular table of `n` slots. A slot is free, at distance 0, or holds a load whose probe began
at the home of the load and has reached the slot in as many steps as the distance says. The
distance grows by at most one from a slot to the next one. So between a load and its home
no slot is free, a probe that meets a slot nearer to its home than the probe is has passed the
place of its load, and no distance exceeds the number of loads.
-/
namespace LdacsSdk.Library


/-- A slot: how far its load is from home, counted from 1, and 0 in a free slot. -/
structure Slot (β : Type*) where
  dist : ℕ
  load : β

/-! ### What the slots hold -/

/-- The load of a slot that holds one. -/
def Slot.loads (s : Slot β) : Multiset β := if s.dist = 0 then 0 else {s.load}

/-- The loads of the slots at some positions. -/
def loadsAt (p : Finset ℕ) (t : ℕ → Slot β) : Multiset β :=
  (p.filter fun i => (t i).dist ≠ 0).val.map fun i => (t i).load

/-- The loads of a table of `n` slots. -/
def contents (n : ℕ) (t : ℕ → Slot β) : Multiset β := loadsAt (Finset.range n) t

/-- The loads of all slots but one. -/
def contentsBut (i n : ℕ) (t : ℕ → Slot β) : Multiset β := loadsAt ((Finset.range n).erase i) t

variable {β κ : Type*} {n i j d : ℕ} {p : Finset ℕ} {t : ℕ → Slot β} {e s : Slot β} {b : β}

theorem mem_loadsAt : b ∈ loadsAt p t ↔ ∃ i ∈ p, (t i).dist ≠ 0 ∧ (t i).load = b := by
  simp [loadsAt, and_assoc]

theorem mem_contents : b ∈ contents n t ↔ ∃ i < n, (t i).dist ≠ 0 ∧ (t i).load = b := by
  simp [contents, mem_loadsAt]

theorem loadsAt_congr {t' : ℕ → Slot β} (h : ∀ i ∈ p, t i = t' i) : loadsAt p t = loadsAt p t' := by
  have hfilter : (p.filter fun i => (t i).dist ≠ 0) = p.filter fun i => (t' i).dist ≠ 0 :=
    Finset.filter_congr fun i hi => by rw [h i hi]
  unfold loadsAt
  rw [hfilter]
  apply Multiset.map_congr rfl
  intro i hi
  rw [h i (Finset.mem_filter.mp hi).1]

theorem Slot.loads_of_held (h : s.dist ≠ 0) : s.loads = {s.load} := if_neg h

/-- One slot apart from the others. -/
theorem loadsAt_erase (hi : i ∈ p) : loadsAt p t = (t i).loads + loadsAt (p.erase i) t := by
  rw [← Finset.insert_erase hi]
  by_cases h : (t i).dist = 0
  · simp [loadsAt, Slot.loads, Finset.filter_insert, h]
  · have hnot : i ∉ (p.erase i).filter fun i => (t i).dist ≠ 0 := by simp
    simp [loadsAt, Slot.loads, Finset.filter_insert, h, Finset.insert_val_of_notMem hnot]

theorem contents_eq_add (hi : i < n) : contents n t = (t i).loads + contentsBut i n t :=
  loadsAt_erase (Finset.mem_range.mpr hi)

theorem contentsBut_update : contentsBut i n (Function.update t i s) = contentsBut i n t :=
  loadsAt_congr fun _ hj => Function.update_of_ne (Finset.ne_of_mem_erase hj) _ _

theorem contents_update (hi : i < n) :
    contents n (Function.update t i s) = s.loads + contentsBut i n t := by
  rw [contents_eq_add hi, Function.update_self, contentsBut_update]

theorem contents_of_free (hi : i < n) (h : (t i).dist = 0) :
    contents n t = contentsBut i n t := by
  simp [contents_eq_add hi, Slot.loads, h]

theorem contents_of_held (hi : i < n) (h : (t i).dist ≠ 0) :
    contents n t = (t i).load ::ₘ contentsBut i n t := by
  simp [contents_eq_add hi, Slot.loads, h, Multiset.singleton_add]

/-- A load that moves from one slot into another, left out before, leaves the first one out. -/
theorem contentsBut_move (hi : i < n) (hj : j < n) (hij : j ≠ i) (hload : s.load = (t j).load)
    (hs : s.dist ≠ 0) (ht : (t j).dist ≠ 0) :
    contentsBut j n (Function.update t i s) = contentsBut i n t := by
  have hmem : i ∈ (Finset.range n).erase j := by simp [hi, hij.symm]
  have hmem' : j ∈ (Finset.range n).erase i := by simp [hj, hij]
  unfold contentsBut
  rw [loadsAt_erase hmem, loadsAt_erase hmem', Function.update_self, Finset.erase_right_comm]
  congr 1
  · simp [Slot.loads, hs, ht, hload]
  · exact loadsAt_congr fun k hk => Function.update_of_ne (by
      rw [Finset.erase_right_comm] at hk
      exact Finset.ne_of_mem_erase hk) _ _

theorem contents_succ (n : ℕ) (t : ℕ → Slot β) :
    contents (n + 1) t = (t n).loads + contents n t := by
  rw [contents_eq_add (Nat.lt_succ_self n), contentsBut, contents, Finset.range_add_one,
    Finset.erase_insert (by simp)]

theorem contents_mono (h : i ≤ n) (t : ℕ → Slot β) : contents i t ≤ contents n t := by
  have hsub : Finset.range i ⊆ Finset.range n := by
    intro j hj
    simp only [Finset.mem_range] at hj ⊢
    omega
  exact Multiset.map_le_map (Finset.val_le_iff.mpr (Finset.filter_subset_filter _ hsub))

theorem contents_zero (h : ∀ i < n, (t i).dist = 0) : contents n t = 0 := by
  rw [Multiset.eq_zero_iff_forall_notMem]
  intro b hb
  obtain ⟨i, hi, hheld, -⟩ := mem_contents.mp hb
  exact hheld (h i hi)

theorem card_contents :
    (contents n t).card = ((Finset.range n).filter fun i => (t i).dist ≠ 0).card := by
  rw [contents, loadsAt, Multiset.card_map]
  rfl

/-- A table with fewer loads than slots has a free slot. -/
theorem exists_free (h : (contents n t).card < n) : ∃ z < n, (t z).dist = 0 := by
  by_contra hnot
  push Not at hnot
  have hall : ((Finset.range n).filter fun i => (t i).dist ≠ 0) = Finset.range n :=
    Finset.filter_true_of_mem fun i hi => hnot i (Finset.mem_range.mp hi)
  rw [card_contents, hall, Finset.card_range] at h
  exact absurd h (lt_irrefl n)

/-! ### The order of the distances -/

/-- Every load is as far from its home as its slot says, and the distance grows by at most one
from a slot to the next. -/
structure Balanced (home : β → ℕ) (n : ℕ) (t : ℕ → Slot β) : Prop where
  placed : ∀ i < n, (t i).dist ≠ 0 → (home (t i).load + (t i).dist - 1) % n = i
  level : ∀ i < n, (t ((i + 1) % n)).dist ≤ (t i).dist + 1

variable {home : β → ℕ}

theorem Balanced.of_free (hfree : ∀ i < n, (t i).dist = 0) : Balanced home n t where
  placed := fun i hi h => absurd (hfree i hi) h
  level := by
    intro i hi
    have hnext := hfree ((i + 1) % n) (Nat.mod_lt _ (by omega))
    omega

/-- From its home to its slot a load has only slots at least as far as its probe. -/
theorem Balanced.path (h : Balanced home n t) (hn : 0 < n) {a d : ℕ}
    (hd : d + 1 ≤ (t ((a + d) % n)).dist) {k : ℕ} (hk : k ≤ d) :
    k + 1 ≤ (t ((a + k) % n)).dist := by
  induction d with
  | zero =>
    obtain rfl : k = 0 := by omega
    exact hd
  | succ d ih =>
    have hlevel := h.level ((a + d) % n) (Nat.mod_lt _ hn)
    rw [succ_mod_index] at hlevel
    rcases Nat.lt_or_eq_of_le hk with hlt | rfl
    · apply ih
      · rw [Nat.add_assoc] at hlevel
        omega
      · omega
    · exact hd

/-- A probe from a home that meets a slot nearer than the probe is has passed every load of that
home which is not nearer to it than the probe. -/
theorem Balanced.passed (h : Balanced home n t) {a : ℕ} (hd : 0 < d)
    (hnear : (t ((a + d - 1) % n)).dist < d) (hi : i < n) (hhome : home (t i).load = a) :
    (t i).dist < d := by
  by_contra hfar
  have hplaced := h.placed i hi (by omega)
  have hpath := h.path (by omega) (a := a) (d := (t i).dist - 1) (by
    rw [← Nat.add_sub_assoc (by omega), ← hhome, hplaced]
    omega) (k := d - 1) (by omega)
  rw [← Nat.add_sub_assoc (by omega)] at hpath
  omega

/-- With a free slot, no distance exceeds the number of loads. -/
theorem Balanced.dist_le_card (h : Balanced home n t) (hcard : (contents n t).card < n)
    (hi : i < n) : (t i).dist ≤ (contents n t).card := by
  obtain ⟨z, hz, hfree⟩ := exists_free hcard
  have hn : 0 < n := by omega
  -- Slots are counted from the free one on; each step that raises the distance holds a load.
  have hwalk : ∀ k < n, (t ((z + k) % n)).dist ≤
      ((Finset.range (k + 1)).filter fun j => (t ((z + j) % n)).dist ≠ 0).card := by
    intro k hk
    induction k with
    | zero => simp [Nat.mod_eq_of_lt hz, hfree]
    | succ k ih =>
      by_cases hzero : (t ((z + (k + 1)) % n)).dist = 0
      · omega
      · have hlevel := h.level ((z + k) % n) (Nat.mod_lt _ hn)
        rw [succ_mod_index, Nat.add_assoc] at hlevel
        rw [Finset.range_add_one, Finset.filter_insert, if_pos hzero,
          Finset.card_insert_of_notMem (by simp)]
        have := ih (by omega)
        omega
  have hinj : ∀ k < n, ((Finset.range (k + 1)).filter fun j => (t ((z + j) % n)).dist ≠ 0).card ≤
      (contents n t).card := by
    intro k hk
    rw [card_contents]
    apply Finset.card_le_card_of_injOn fun j => (z + j) % n
    · intro j hj
      have hj := Finset.mem_filter.mp hj
      exact Finset.mem_filter.mpr ⟨Finset.mem_range.mpr (Nat.mod_lt _ hn), hj.2⟩
    · intro j hj l hl heq
      have hj := Finset.mem_range.mp (Finset.mem_filter.mp hj).1
      have hl := Finset.mem_range.mp (Finset.mem_filter.mp hl).1
      have := mod_inj_of_lap (a := z) (j := z + j) (k := z + l) ⟨by omega, by omega⟩
        ⟨by omega, by omega⟩ heq
      omega
  obtain ⟨k, hlo, hhi, hk⟩ := exists_mod_eq_of_lap z hi
  have hkn : k - z < n := by omega
  have hle := hwalk (k - z) hkn
  rw [Nat.add_sub_cancel' hlo, hk] at hle
  exact hle.trans (hinj _ hkn)

/-- Another load of the same home in a slot that holds one. -/
theorem Balanced.replace (h : Balanced home n t) (hi : (t i).dist ≠ 0)
    (hhome : home b = home (t i).load) :
    Balanced home n (Function.update t i ⟨(t i).dist, b⟩) where
  placed := by
    intro k hk hheld
    by_cases hki : k = i
    · subst hki
      simpa [hhome] using h.placed k hk hi
    · rw [Function.update_of_ne hki] at hheld ⊢
      exact h.placed k hk hheld
  level := by
    have hdist : ∀ k, (Function.update t i ⟨(t i).dist, b⟩ k).dist = (t k).dist := by
      intro k
      by_cases hki : k = i
      · simp [hki]
      · simp [hki]
    intro k hk
    rw [hdist, hdist]
    exact h.level k hk

/-! ### A probe with a load in hand -/

/-- A balanced table and a load in hand that the probe has carried to position `i`. -/
structure Carrying (home : β → ℕ) (n : ℕ) (t : ℕ → Slot β) (e : Slot β) (i : ℕ) : Prop where
  balanced : Balanced home n t
  lt : i < n
  pos : e.dist ≠ 0
  placed : (home e.load + e.dist - 1) % n = i
  level : ∀ k < n, (k + 1) % n = i → e.dist ≤ (t k).dist + 1

theorem Balanced.carry (h : Balanced home n t) (hn : 0 < n) (b : β) :
    Carrying home n t ⟨1, b⟩ (home b % n) where
  balanced := h
  lt := Nat.mod_lt _ hn
  pos := by simp
  placed := by simp
  level := by
    intro k _ _
    simp only
    omega

/-- The next position of a probe. -/
theorem next_placed {a : ℕ} (hd : d ≠ 0) (h : (a + d - 1) % n = i) :
    (a + (d + 1) - 1) % n = (i + 1) % n := by
  rw [← h, succ_mod_index]
  congr 1
  omega

theorem next_unique (hi : i < n) (hj : j < n) (h : (i + 1) % n = (j + 1) % n) : i = j := by
  have := mod_inj_of_lap (a := 1) (n := n) (j := i + 1) (k := j + 1) (by omega) (by omega) h
  omega

/-- The load in hand is put into a slot that is free or holds a load nearer to its home. -/
theorem Carrying.put (h : Carrying home n t e i) (hnear : (t i).dist < e.dist) :
    Balanced home n (Function.update t i e) where
  placed := by
    intro k hk hheld
    by_cases hki : k = i
    · subst hki
      simpa using h.placed
    · rw [Function.update_of_ne hki] at hheld ⊢
      exact h.balanced.placed k hk hheld
  level := by
    intro k hk
    have hlevel := h.balanced.level k hk
    by_cases hnext : (k + 1) % n = i
    · have hcarry := h.level k hk hnext
      rw [hnext, Function.update_self]
      by_cases hki : k = i
      · simp [hki]
      · rwa [Function.update_of_ne hki]
    · rw [Function.update_of_ne hnext]
      by_cases hki : k = i
      · subst hki
        rw [Function.update_self]
        omega
      · rwa [Function.update_of_ne hki]

/-- The probe goes past a slot at least as far from home. -/
theorem Carrying.pass (h : Carrying home n t e i) (hfar : e.dist ≤ (t i).dist) :
    Carrying home n t ⟨e.dist + 1, e.load⟩ ((i + 1) % n) where
  balanced := h.balanced
  lt := Nat.mod_lt _ (by have := h.lt; omega)
  pos := by simp
  placed := next_placed h.pos h.placed
  level := by
    intro k hk hnext
    obtain rfl := next_unique hk h.lt hnext
    simpa using hfar

/-- The load in hand takes the slot of a load nearer to its home, which the probe goes on
with. -/
theorem Carrying.swap (h : Carrying home n t e i) (hheld : (t i).dist ≠ 0)
    (hnear : (t i).dist < e.dist) :
    Carrying home n (Function.update t i e) ⟨(t i).dist + 1, (t i).load⟩ ((i + 1) % n) where
  balanced := h.put hnear
  lt := Nat.mod_lt _ (by have := h.lt; omega)
  pos := by simp
  placed := next_placed hheld (h.balanced.placed i h.lt hheld)
  level := by
    intro k hk hnext
    obtain rfl := next_unique hk h.lt hnext
    simpa using hnear.le

/-- While the load in hand passes or displaces loads, its distance stays within their number. -/
theorem Carrying.dist_le_card (h : Carrying home n t e i) (hcard : (contents n t).card < n) :
    e.dist ≤ (contents n t).card + 1 := by
  have hlt := h.lt
  obtain ⟨k, hk, hnext⟩ : ∃ k < n, (k + 1) % n = i := by
    rcases Nat.eq_zero_or_pos i with rfl | hpos
    · exact ⟨n - 1, by omega, by rw [Nat.sub_add_cancel (by omega), Nat.mod_self]⟩
    · exact ⟨i - 1, by omega, by rw [Nat.sub_add_cancel hpos, Nat.mod_eq_of_lt hlt]⟩
  have hlevel := h.level k hk hnext
  have hbound := h.balanced.dist_le_card hcard hk
  omega

/-! ### A probe for a key -/

/-- No slot nearer to its home than the probe holds the key. -/
def Unseen (key : β → κ) (n : ℕ) (t : ℕ → Slot β) (k : κ) (d : ℕ) : Prop :=
  ∀ j < n, (t j).dist ≠ 0 → key (t j).load = k → d ≤ (t j).dist

theorem Unseen.start {key : β → κ} (k : κ) : Unseen key n t k 1 :=
  fun _ _ hheld _ => Nat.one_le_iff_ne_zero.mpr hheld

/-- A probe that meets a slot nearer than itself will not find the key it has not seen. -/
theorem Unseen.absent {key : β → κ} {k : κ} {a : ℕ} (hu : Unseen key n t k d)
    (h : Balanced home n t) (hd : 0 < d) (hnear : (t ((a + d - 1) % n)).dist < d)
    (hhome : ∀ b, key b = k → home b = a) (hb : b ∈ contents n t) : key b ≠ k := by
  intro hkey
  obtain ⟨j, hj, hheld, rfl⟩ := mem_contents.mp hb
  have hlt := h.passed hd hnear hj (hhome _ hkey)
  have hle := hu j hj hheld hkey
  omega

/-- A probe that does not find the key in its slot goes on without having seen it. -/
theorem Unseen.next {key : β → κ} {k : κ} {a : ℕ} (hu : Unseen key n t k d)
    (h : Balanced home n t)
    (hother : (t ((a + d - 1) % n)).dist ≠ 0 → key (t ((a + d - 1) % n)).load ≠ k)
    (hhome : ∀ b, key b = k → home b = a) : Unseen key n t k (d + 1) := by
  intro j hj hheld hkey
  have hle := hu j hj hheld hkey
  by_contra hlt
  have hdist : (t j).dist = d := by omega
  have hplaced := h.placed j hj hheld
  rw [hhome _ hkey, hdist] at hplaced
  rw [hplaced] at hother
  exact hother hheld hkey

/-! ### Closing a gap -/

/-- A table whose slot `i` is to be filled from the slots after it, or freed. -/
structure Gap (home : β → ℕ) (n : ℕ) (t : ℕ → Slot β) (i : ℕ) : Prop where
  lt : i < n
  placed : ∀ k < n, k ≠ i → (t k).dist ≠ 0 → (home (t k).load + (t k).dist - 1) % n = k
  level : ∀ k < n, k ≠ i → (k + 1) % n ≠ i → (t ((k + 1) % n)).dist ≤ (t k).dist + 1
  across : ∀ k < n, (k + 1) % n = i → (t ((i + 1) % n)).dist ≤ (t k).dist + 2

/-- Any slot of a balanced table may be given up. -/
theorem Balanced.gap (h : Balanced home n t) (hi : i < n) (s : Slot β) :
    Gap home n (Function.update t i s) i where
  lt := hi
  placed := by
    intro k hk hki
    rw [Function.update_of_ne hki]
    exact h.placed k hk
  level := by
    intro k hk hki hnext
    rw [Function.update_of_ne hki, Function.update_of_ne hnext]
    exact h.level k hk
  across := by
    intro k hk hnext
    have hlevel := h.level k hk
    have hlevel' := h.level i hi
    rw [hnext] at hlevel
    by_cases hki : k = i
    · subst hki
      rw [hnext]
      omega
    · by_cases hself : (i + 1) % n = i
      · rw [← hnext] at hself
        exact absurd (next_unique hk hi (by rw [hnext, ← hnext, hself])) hki
      · rw [Function.update_of_ne hself, Function.update_of_ne hki]
        omega

/-- The load of the next slot, not at its home, moves one back and leaves its slot to be
filled. -/
theorem Gap.shift (h : Gap home n t i) (hn : 1 < n) (hfar : 1 < (t ((i + 1) % n)).dist) :
    Gap home n (Function.update t i ⟨(t ((i + 1) % n)).dist - 1, (t ((i + 1) % n)).load⟩)
        ((i + 1) % n) ∧
      contentsBut ((i + 1) % n) n
          (Function.update t i ⟨(t ((i + 1) % n)).dist - 1, (t ((i + 1) % n)).load⟩) =
        contentsBut i n t := by
  obtain ⟨j, hj⟩ : ∃ j, j = (i + 1) % n := ⟨_, rfl⟩
  have hi := h.lt
  have hjlt : j < n := hj ▸ Nat.mod_lt _ (by omega)
  have hji : j ≠ i := by
    rcases Nat.lt_or_eq_of_le (show i + 1 ≤ n from hi) with hlt | heq
    · rw [hj, Nat.mod_eq_of_lt hlt]
      omega
    · rw [hj, heq, Nat.mod_self]
      omega
  rw [← hj] at hfar ⊢
  refine ⟨⟨hjlt, ?_, ?_, ?_⟩, ?_⟩
  · intro k hk hkj hheld
    by_cases hki : k = i
    · subst hki
      simp only [Function.update_self] at hheld ⊢
      have hplaced := h.placed j hjlt hji (by omega)
      have hnext : (home (t j).load + ((t j).dist - 1) - 1 + 1) % n = (k + 1) % n :=
        calc
          _ = (home (t j).load + (t j).dist - 1) % n := by
            congr 1
            omega
          _ = j := hplaced
          _ = (k + 1) % n := hj
      have hmod := (Nat.ModEq.add_right_cancel' 1 hnext : _ ≡ k [MOD n])
      rw [Nat.ModEq, Nat.mod_eq_of_lt hk] at hmod
      exact hmod
    · rw [Function.update_of_ne hki] at hheld ⊢
      exact h.placed k hk hki hheld
  · intro k hk hkj hnext
    by_cases hki : k = i
    · subst hki
      exact absurd hj.symm hnext
    · rw [Function.update_of_ne hki]
      by_cases hnexti : (k + 1) % n = i
      · have hacross := h.across k hk hnexti
        rw [← hj] at hacross
        rw [hnexti, Function.update_self]
        simp only
        omega
      · rw [Function.update_of_ne hnexti]
        exact h.level k hk hki hnexti
  · intro k hk hnext
    obtain rfl : k = i := next_unique hk hi (hnext.trans hj)
    rw [Function.update_self]
    by_cases hback : (j + 1) % n = k
    · rw [hback, Function.update_self]
      simp only
      omega
    · have hlevel := h.level j hjlt hji hback
      rw [Function.update_of_ne hback]
      simp only
      omega
  · have hheld : (t j).dist ≠ 0 := by omega
    have hmoved : (⟨(t j).dist - 1, (t j).load⟩ : Slot β).dist ≠ 0 := by
      simp only
      omega
    exact contentsBut_move hi hjlt hji rfl hmoved hheld

/-- Where the next slot is free or its load at home, the slot is freed. -/
theorem Gap.close (h : Gap home n t i) (hnear : (t ((i + 1) % n)).dist ≤ 1) (b : β) :
    Balanced home n (Function.update t i ⟨0, b⟩) where
  placed := by
    intro k hk hheld
    by_cases hki : k = i
    · subst hki
      simp at hheld
    · rw [Function.update_of_ne hki] at hheld ⊢
      exact h.placed k hk hki hheld
  level := by
    intro k hk
    by_cases hnext : (k + 1) % n = i
    · simp [hnext]
    · rw [Function.update_of_ne hnext]
      by_cases hki : k = i
      · subst hki
        simpa using hnear
      · rw [Function.update_of_ne hki]
        exact h.level k hk hki hnext

/-! ### The length of a probe -/

/-- How many slots a probe at `i` still passes before it reaches slot `z`. -/
def ahead (n z i : ℕ) : ℕ := if i ≤ z then z - i else z + n - i

theorem ahead_next {z : ℕ} (hi : i < n) (hz : z < n) (hne : i ≠ z) :
    ahead n z ((i + 1) % n) < ahead n z i := by
  unfold ahead
  rcases Nat.lt_or_eq_of_le (show i + 1 ≤ n from hi) with hlt | heq
  · rw [Nat.mod_eq_of_lt hlt]
    split_ifs <;> omega
  · rw [heq, Nat.mod_self]
    split_ifs <;> omega

theorem ahead_lt {z : ℕ} (hi : i < n) (hz : z < n) : ahead n z i < n := by
  unfold ahead
  split_ifs <;> omega

end LdacsSdk.Library
