import LdacsSdk.Core.Hashmap
import LdacsSdk.Library.FiniteMaps
import LdacsSdk.Library.RobinHood

/-!
# The table of the hash map

Each loop of the hash map is one round of open addressing with displacement on the buckets seen
as slots. An entry put into the table adds its load or replaces the one of its key, a probe for
a key finds its bucket, the gap of a deletion is closed, and a resize keeps the loads. All
of them end within one round for each bucket, and read and write only allocated buckets.
-/
namespace LdacsSdk

open Library

variable {α κ : Type} [Inhabited α]

/-! ### Buckets as slots -/

/-- A bucket as a slot, whose load is the hash with the item. -/
def Bucket.slot (b : Bucket α) : Slot (ℕ × α) := ⟨b.dib, (b.hash, b.item)⟩

/-- The allocated memory as a table of slots. -/
def slots (bs : List (Bucket α)) (i : ℕ) : Slot (ℕ × α) := (bs.getD i zeroBucket).slot

/-- What tells two loads apart: the hash, and what the comparison looks at in the item. -/
def fullKey (key : α → κ) (b : ℕ × α) : ℕ × κ := (b.1, key b.2)

/-- `mask` keeps the position modulo `n`. -/
def Masks (mask n : ℕ) : Prop := ∀ i, i &&& mask = i % n

variable {bs : List (Bucket α)} {b : Bucket α} {i n mask len z : ℕ} {map : Hashmap α}
  {key : α → κ} {c total : Multiset (ℕ × α)} {s : Probe α}

theorem slots_eq (h : bs[i]? = some b) : slots bs i = b.slot := by
  simp [slots, List.getD, h]

theorem slots_set (hi : i < bs.length) :
    slots (bs.set i b) = Function.update (slots bs) i b.slot := by
  funext k
  by_cases hk : k = i
  · subst hk
    simp [slots, List.getD, hi]
  · rw [Function.update_of_ne hk]
    simp [slots, List.getD, List.getElem?_set_ne (Ne.symm hk)]

omit [Inhabited α] in
theorem hash_of_fullKey {l : ℕ × α} {k : ℕ × κ} (h : fullKey key l = k) : l.1 = k.1 :=
  congrArg Prod.fst h

omit [Inhabited α] in
theorem bucket_of_lt (hi : i < bs.length) : ∃ b, bs[i]? = some b :=
  ⟨bs[i], List.getElem?_eq_getElem hi⟩

theorem masks_two_pow (j : ℕ) : Masks (2 ^ j - 1) (2 ^ j) := fun i =>
  Nat.and_two_pow_sub_one_eq_mod i j

theorem dib16_of_lt (h : i < 2 ^ 16) : dib16 i = i := Nat.mod_eq_of_lt h

/-! ### Putting an entry into the table -/

/-- The loop with an entry that no bucket matches: the table and the entry hold the loads of
`total` together, and the bucket `z` stays free. -/
structure Placing (n len z : ℕ) (total : Multiset (ℕ × α)) (s : Probe α) : Prop where
  carrying : Carrying Prod.fst n (slots s.buckets) s.entry.slot s.i
  conserved : s.entry.slot.load ::ₘ contents n (slots s.buckets) = total
  length : s.buckets.length = len
  free : (slots s.buckets z).dist = 0
  added : s.replaced = none

/-- What the loop leaves behind when it has added an entry. -/
structure EntryPlaced (n len : ℕ) (total : Multiset (ℕ × α)) (s : Probe α) : Prop where
  balanced : Balanced Prod.fst n (slots s.buckets)
  contents : contents n (slots s.buckets) = total
  length : s.buckets.length = len
  added : s.replaced = none

theorem Placing.lt_length (h : Placing n len z total s) (hlen : n ≤ len) :
    s.i < s.buckets.length := by
  rw [h.length]
  exact h.carrying.lt.trans_le hlen

/-- The number of loads that are not in hand bounds the distances. -/
theorem Placing.card_lt (h : Placing n len z total s) :
    (contents n (slots s.buckets)).card + 1 = total.card := by
  rw [← h.conserved, Multiset.card_cons]

/-- The entry is put into the free bucket it has come to. -/
theorem Placing.settle (h : Placing n len z total s) (hlen : n ≤ len)
    (hfree : (slots s.buckets s.i).dist = 0) :
    EntryPlaced n len total { s with buckets := s.buckets.set s.i s.entry } where
  balanced := by
    have hpos := h.carrying.pos
    simpa [slots_set (h.lt_length hlen)] using h.carrying.put (by omega)
  contents := by
    have hconserved := h.conserved
    rw [contents_of_free h.carrying.lt hfree] at hconserved
    rw [slots_set (h.lt_length hlen), contents_update h.carrying.lt,
      Slot.loads_of_held h.carrying.pos, Multiset.singleton_add, hconserved]
  length := by simpa using h.length
  added := h.added

/-- The entry goes past a bucket at least as far from home. -/
theorem Placing.pass (h : Placing n len z total s) (hmask : Masks mask n) (hcard : total.card ≤ n)
    (h16 : total.card < 2 ^ 16) (hfar : s.entry.dib ≤ (slots s.buckets s.i).dist) :
    Placing n len z total { s with
      entry := { s.entry with dib := dib16 (s.entry.dib + 1) }
      i := (s.i + 1) &&& mask } where
  carrying := by
    have hcount := h.card_lt
    have hdist := h.carrying.balanced.dist_le_card (by omega) h.carrying.lt
    rw [hmask, dib16_of_lt (by omega)]
    exact h.carrying.pass hfar
  conserved := h.conserved
  length := h.length
  free := h.free
  added := h.added

/-- The entry takes a bucket nearer to its home, and the loop goes on with what was there. -/
theorem Placing.swap (h : Placing n len z total s) (hmask : Masks mask n) (hlen : n ≤ len)
    (hcard : total.card ≤ n) (h16 : total.card < 2 ^ 16) (hb : s.buckets[s.i]? = some b)
    (hheld : b.dib ≠ 0) (hnear : b.dib < s.entry.dib) :
    Placing n len z total { s with
      buckets := s.buckets.set s.i s.entry
      entry := { b with dib := dib16 (b.dib + 1) }
      i := (s.i + 1) &&& mask } where
  carrying := by
    have hcount := h.card_lt
    have hdist := h.carrying.balanced.dist_le_card (by omega) h.carrying.lt
    have hslot := slots_eq hb
    have hswap := h.carrying.swap (by rwa [hslot]) (by rwa [hslot])
    rw [hslot] at hdist hswap
    rw [hmask, dib16_of_lt (by simp only [Bucket.slot] at hdist; omega),
      slots_set (h.lt_length hlen)]
    exact hswap
  conserved := by
    have hslot := slots_eq hb
    have hconserved := h.conserved
    rw [contents_of_held h.carrying.lt (by rwa [hslot]), hslot, Multiset.cons_swap] at hconserved
    rw [slots_set (h.lt_length hlen), contents_update h.carrying.lt,
      Slot.loads_of_held h.carrying.pos, Multiset.singleton_add]
    exact hconserved
  length := by simpa using h.length
  free := by
    have hslot := slots_eq hb
    have hz : z ≠ s.i := by
      rintro rfl
      have := h.free
      rw [hslot] at this
      exact hheld this
    rw [slots_set (h.lt_length hlen), Function.update_of_ne hz]
    exact h.free
  added := h.added

/-- One round with an entry that no bucket matches. -/
theorem Placing.round (h : Placing n len z total s) {same : Bucket α → Bucket α → Bool}
    (hmask : Masks mask n) (hlen : n ≤ len) (hz : z < n) (hcard : total.card ≤ n)
    (h16 : total.card < 2 ^ 16) (hd : (total.map (fullKey key)).Nodup)
    (hsame : ∀ e b, same e b = true → fullKey key e.slot.load = fullKey key b.slot.load) :
    (∃ t, probeRound same mask s = some (.leave t) ∧ EntryPlaced n len total t) ∨
      ∃ t, probeRound same mask s = some (.again t) ∧ Placing n len z total t ∧
        ahead n z t.i < ahead n z s.i := by
  obtain ⟨b, hb⟩ := bucket_of_lt (h.lt_length hlen)
  have hslot := slots_eq hb
  by_cases hfree : b.dib = 0
  · left
    exact ⟨_, by simp [probeRound, hb, hfree], h.settle hlen (by rwa [hslot])⟩
  · right
    have hother : same s.entry b ≠ true := by
      intro hmatch
      rw [← h.conserved, contents_of_held h.carrying.lt (by rwa [hslot]), hslot] at hd
      simp [hsame _ _ hmatch] at hd
    have hne : s.i ≠ z := by
      rintro rfl
      have := h.free
      rw [hslot] at this
      exact hfree this
    have hahead : ahead n z ((s.i + 1) &&& mask) < ahead n z s.i := by
      rw [hmask]
      exact ahead_next h.carrying.lt hz hne
    by_cases hnear : b.dib < s.entry.dib
    · exact ⟨_, by simp [probeRound, hb, hfree, hother, hnear],
        h.swap hmask hlen hcard h16 hb hfree hnear, hahead⟩
    · exact ⟨_, by simp [probeRound, hb, hfree, hother, hnear],
        h.pass hmask hcard h16 (by rw [hslot]; exact Nat.le_of_not_lt hnear), hahead⟩

/-- An entry of one table put into another that has no load of its key. -/
theorem rehash_spec {map2 : Hashmap α} (hmask : Masks map2.mask map2.nbuckets)
    (hlen : map2.nbuckets ≤ bs.length) (hbal : Balanced Prod.fst map2.nbuckets (slots bs))
    (hheld : b.dib ≠ 0)
    (htotal : b.slot.load ::ₘ contents map2.nbuckets (slots bs) = total)
    (hcard : total.card ≤ map2.nbuckets) (h16 : total.card < 2 ^ 16)
    (hd : (total.map (fullKey key)).Nodup) :
    ∃ bs', rehash map2 bs b = some bs' ∧ Balanced Prod.fst map2.nbuckets (slots bs') ∧
      contents map2.nbuckets (slots bs') = total ∧ bs'.length = bs.length := by
  have hless : (contents map2.nbuckets (slots bs)).card < map2.nbuckets := by
    rw [← htotal, Multiset.card_cons] at hcard
    omega
  obtain ⟨z, hz, hfree⟩ := exists_free hless
  have hstart : Placing map2.nbuckets bs.length z total
      ⟨bs, { b with dib := 1 }, b.hash &&& map2.mask, none⟩ :=
    { carrying := by
        rw [hmask]
        exact hbal.carry (by omega) b.slot.load
      conserved := htotal
      length := rfl
      free := hfree
      added := rfl }
  obtain ⟨t, hloop, ht⟩ := whileLoop_spec (fun s => ahead map2.nbuckets z s.i)
    (fun s hs => hs.round hmask hlen hz hcard h16 hd fun _ _ h => absurd h Bool.false_ne_true)
    hstart (ahead_lt hstart.carrying.lt hz)
  exact ⟨t.buckets, by simp [rehash, hheld, hloop], ht.balanced, ht.contents, ht.length⟩

/-! ### Allocation and resizing -/

/-- The rounded capacity is the least power of two from 16 on that is enough. -/
theorem roundCap_spec {cap : ℕ} (hcap : cap ≤ 2 ^ 63) :
    ∃ j, 4 ≤ j ∧ j ≤ 63 ∧ roundCap cap = some (2 ^ j) ∧ cap ≤ 2 ^ j ∧
      (j = 4 ∨ 2 ^ (j - 1) < cap) := by
  unfold roundCap
  split_ifs with hsmall
  · exact ⟨4, by omega, by omega, rfl, by omega, Or.inl rfl⟩
  · let I := fun ncap : ℕ => ∃ j, 4 ≤ j ∧ j ≤ 63 ∧ ncap = 2 ^ j ∧ (j = 4 ∨ 2 ^ (j - 1) < cap)
    have hround : ∀ ncap, I ncap →
        (∃ t, some (if ncap < cap then Round.again (u64 (ncap * 2)) else .leave ncap) =
          some (.leave t) ∧ (I t ∧ cap ≤ t)) ∨
        ∃ ncap', some (if ncap < cap then Round.again (u64 (ncap * 2)) else .leave ncap) =
          some (.again ncap') ∧ I ncap' ∧ 63 - Nat.log 2 ncap' < 63 - Nat.log 2 ncap := by
      rintro ncap ⟨j, hlo, hhi, rfl, hleast⟩
      by_cases hlt : 2 ^ j < cap
      · right
        have hj : j < 63 := by
          by_contra hge
          have : 2 ^ 63 ≤ 2 ^ j := Nat.pow_le_pow_right (by omega) (by omega)
          omega
        have hdouble : u64 ((2 ^ j : ℕ) * 2 : ℤ) = 2 ^ (j + 1) := by
          have hlt64 : 2 ^ (j + 1) < 2 ^ 64 := Nat.pow_lt_pow_right (by omega) (by omega)
          have hcast : ((2 ^ j : ℕ) * 2 : ℤ) = ((2 ^ (j + 1) : ℕ) : ℤ) := by
            push_cast
            ring
          rw [hcast, u64_natCast hlt64]
        refine ⟨2 ^ (j + 1), by rw [if_pos hlt, hdouble], ?_, ?_⟩
        · exact ⟨j + 1, by omega, by omega, rfl, Or.inr (by simpa using hlt)⟩
        · rw [Nat.log_pow (by omega), Nat.log_pow (by omega)]
          omega
      · left
        exact ⟨2 ^ j, by rw [if_neg hlt], ⟨j, hlo, hhi, rfl, hleast⟩, by omega⟩
    have hstart : I 16 := ⟨4, by omega, by omega, rfl, Or.inl rfl⟩
    obtain ⟨t, hloop, ⟨j, hlo, hhi, rfl, hleast⟩, henough⟩ := whileLoop_spec
      (fun ncap => 63 - Nat.log 2 ncap) hround hstart (show 63 - Nat.log 2 16 < 64 by omega)
    exact ⟨j, hlo, hhi, hloop, henough, hleast⟩

/-- A power of two within the limits is its own capacity. -/
theorem roundCap_two_pow {j : ℕ} (hlo : 4 ≤ j) (hhi : j ≤ 63) :
    roundCap (2 ^ j) = some (2 ^ j) := by
  obtain ⟨k, hk, -, heq, hle, hleast⟩ := roundCap_spec (Nat.pow_le_pow_right (by omega) hhi)
  have hjk : j ≤ k := (Nat.pow_le_pow_iff_right (by omega)).mp hle
  have hkj : k ≤ j := by
    rcases hleast with rfl | hlt
    · exact hlo
    · have := (Nat.pow_lt_pow_iff_right (by omega)).mp hlt
      omega
  rw [heq, Nat.le_antisymm hkj hjk]

/-- A map whose table stores the loads of `m`, one for each key. The count leaves a bucket free.
The comparison looks at `key`, the hash function gives `hashOf`, and `frees` says whether elements
are freed. -/
structure Hashmap.Sound (key : α → κ) (hashOf : α → ℕ) (frees : Bool) (map : Hashmap α)
    (m : ℕ × κ → Option (ℕ × α)) : Prop where
  hashing : ∀ a, getHash map a = hashOf a
  freeing : map.elfree = frees
  comparing : ∀ a b, map.sameItem a b = true ↔ key a = key b
  width : ∃ j, 4 ≤ j ∧ j ≤ 63 ∧ map.nbuckets = 2 ^ j
  least : ∃ j, 4 ≤ j ∧ j ≤ 63 ∧ map.cap = 2 ^ j
  cap_le : map.cap ≤ map.nbuckets
  mask : map.mask = map.nbuckets - 1
  allocated : map.nbuckets ≤ map.buckets.length
  balanced : Balanced Prod.fst map.nbuckets (slots map.buckets)
  listed : Lists (fullKey key) (contents map.nbuckets (slots map.buckets)) m
  counted : (contents map.nbuckets (slots map.buckets)).card = map.count
  room : map.count ≤ map.growat
  growat : map.growat = map.nbuckets * 60 / 100 ∨ map.growat = map.nbuckets * 75 / 100
  shrinkat : map.shrinkat = map.nbuckets * 10 / 100
  growpower : 1 ≤ map.growpower ∧ map.growpower ≤ 16

variable {hashOf : α → ℕ} {frees : Bool} {m : ℕ × κ → Option (ℕ × α)}

theorem Hashmap.Sound.masks (h : map.Sound key hashOf frees m) : Masks map.mask map.nbuckets := by
  obtain ⟨j, -, -, hj⟩ := h.width
  rw [h.mask, hj]
  exact masks_two_pow j

theorem Hashmap.Sound.wide (h : map.Sound key hashOf frees m) : 16 ≤ map.nbuckets := by
  obtain ⟨j, hlo, -, hj⟩ := h.width
  rw [hj]
  exact Nat.pow_le_pow_right (n := 2) (by omega) hlo

theorem Hashmap.Sound.count_lt (h : map.Sound key hashOf frees m) : map.count < map.nbuckets := by
  have hwide := h.wide
  have hroom := h.room
  rcases h.growat with hg | hg <;> omega

/-- Some bucket in use by the table is empty. -/
theorem Hashmap.Sound.exists_empty (h : map.Sound key hashOf frees m) :
    ∃ z < map.nbuckets, (slots map.buckets z).dist = 0 :=
  exists_free (h.counted ▸ h.count_lt)

theorem Hashmap.Sound.set_oom (h : map.Sound key hashOf frees m) (oom : Bool) :
    ({ map with oom := oom } : Hashmap α).Sound key hashOf frees m :=
  { h with }

theorem slots_replicate (n i : ℕ) (bs : List (Bucket α)) (hi : i < n) :
    (slots (List.replicate n zeroBucket ++ bs) i).dist = 0 := by
  simp [slots, List.getD, List.getElem?_append_left, hi, Bucket.slot, zeroBucket]

omit [Inhabited α] in
theorem foldlM_range_succ {β : Type} {f : β → ℕ → Option β} {b b' : β} {i : ℕ}
    (h : (List.range i).foldlM f b = some b') : (List.range (i + 1)).foldlM f b = f b' i := by
  simp [List.range_succ, List.foldlM_append, h]

/-- The loop of `resize0` over the first buckets of the old table. -/
theorem rehash_all (h : map.Sound key hashOf frees m) {map2 : Hashmap α}
    (hmask : Masks map2.mask map2.nbuckets)
    (hlen : map2.buckets.length = map2.nbuckets)
    (hempty : ∀ i < map2.nbuckets, (slots map2.buckets i).dist = 0)
    (hcount : map.count < map2.nbuckets) (h16 : map.count < 2 ^ 16) {i : ℕ}
    (hi : i ≤ map.nbuckets) :
    ∃ bs, (List.range i).foldlM
        (fun bs i => do rehash map2 bs (← map.buckets[i]?)) map2.buckets = some bs ∧
      Balanced Prod.fst map2.nbuckets (slots bs) ∧
      contents map2.nbuckets (slots bs) = contents i (slots map.buckets) ∧
      bs.length = map2.nbuckets := by
  induction i with
  | zero =>
    refine ⟨map2.buckets, rfl, .of_free hempty, ?_, hlen⟩
    rw [contents_zero hempty]
    rfl
  | succ i ih =>
    obtain ⟨bs, hfold, hbal, hcontents, hbs⟩ := ih (by omega)
    have hlt : i < map.buckets.length := by
      have := h.allocated
      omega
    obtain ⟨b, hb⟩ := bucket_of_lt hlt
    have hslot := slots_eq hb
    rw [foldlM_range_succ hfold, hb, contents_succ, hslot]
    by_cases hzero : b.dib = 0
    · exact ⟨bs, by simp [rehash, hzero], hbal, by simpa [Slot.loads, Bucket.slot, hzero], hbs⟩
    · -- The loads met so far and this one are among those of the old table.
      have hle := contents_mono hi (slots map.buckets)
      have hcard := Multiset.card_le_card hle
      have hd := Multiset.nodup_of_le (Multiset.map_le_map hle) h.listed.distinct
      have htotal : b.slot.load ::ₘ contents map2.nbuckets (slots bs) =
          contents (i + 1) (slots map.buckets) := by
        rw [contents_succ, hslot, Slot.loads_of_held hzero, hcontents, Multiset.singleton_add]
      rw [h.counted] at hcard
      obtain ⟨bs', hrehash, hbal', hcontents', hbs'⟩ := rehash_spec hmask hbs.ge hbal hzero htotal
        (by omega) (by omega) hd
      refine ⟨bs', by simpa using hrehash, hbal', ?_, hbs'.trans hbs⟩
      rw [hcontents', contents_succ, hslot]

/-- A resize to a table that has room for the items keeps them. -/
theorem resize_spec (h : map.Sound key hashOf frees m) {j : ℕ} (hlo : 4 ≤ j) (hhi : j ≤ 63)
    (hcap : map.cap ≤ 2 ^ j) (hroom : map.count ≤ 2 ^ j * 60 / 100) (h16 : map.count < 2 ^ 16)
    (grants : Grants) :
    (resize map (2 ^ j) grants = some (false, map) ∧ (grants.map && grants.buckets) = false) ∨
      ∃ map', resize map (2 ^ j) grants = some (true, map') ∧ map'.Sound key hashOf frees m ∧
        map'.count = map.count ∧ map'.growat = 2 ^ j * 60 / 100 ∧ map'.oom = map.oom := by
  unfold resize hashmapNewWithAllocator
  simp only [roundCap_two_pow hlo hhi, Option.bind_eq_bind, Option.bind_some]
  by_cases hgrant : (grants.map && grants.buckets) = true
  · right
    obtain ⟨map2, hmap2⟩ : ∃ map2, map2 =
      emptyMap (2 ^ j) map.seed0 map.seed1 map.hash map.compare map.elfree := ⟨_, rfl⟩
    have hempty : ∀ i < map2.nbuckets, (slots map2.buckets i).dist = 0 := by
      subst hmap2
      intro i hi
      simpa [emptyMap] using slots_replicate (2 ^ j) i [] hi
    have hmask : Masks map2.mask map2.nbuckets := hmap2 ▸ masks_two_pow j
    have hlen : map2.buckets.length = map2.nbuckets := by simp [hmap2, emptyMap]
    have hpos : 0 < 2 ^ j := Nat.pow_pos (by omega)
    have hcount : map.count < map2.nbuckets := by
      simp only [hmap2, emptyMap]
      omega
    obtain ⟨bs, hfold, hbal, hcontents, hbs⟩ := rehash_all h hmask hlen hempty hcount h16 le_rfl
    simp only [Option.bind_eq_bind] at hfold
    simp only [hgrant, if_true, ← hmap2, Option.pure_def, Option.bind_some, hfold]
    subst hmap2
    refine ⟨_, rfl, ?_, rfl, rfl, rfl⟩
    exact { h with
      width := ⟨j, hlo, hhi, rfl⟩
      cap_le := hcap
      mask := rfl
      allocated := hbs.ge
      balanced := hbal
      listed := hcontents ▸ h.listed
      counted := by
        rw [← h.counted]
        exact congrArg Multiset.card hcontents
      room := hroom
      growat := Or.inl rfl
      shrinkat := rfl }
  · left
    simp [hgrant]

/-! ### Setting an item -/

/-- The loop of `hashmap_set_with_hash` before it has changed the table `bs`: the entry has the
load `b`, and no bucket that its probe has passed has its key. -/
structure Searching (key : α → κ) (n : ℕ) (bs : List (Bucket α)) (b : ℕ × α) (s : Probe α) :
    Prop where
  carrying : Carrying Prod.fst n (slots bs) s.entry.slot s.i
  buckets : s.buckets = bs
  load : s.entry.slot.load = b
  unseen : Unseen (fullKey key) n (slots bs) (fullKey key b) s.entry.dib
  added : s.replaced = none

/-- What the loop leaves behind when it has replaced the item of the key. -/
structure Replaced (key : α → κ) (n : ℕ) (bs : List (Bucket α)) (b : ℕ × α) (s : Probe α) :
    Prop where
  balanced : Balanced Prod.fst n (slots s.buckets)
  length : s.buckets.length = bs.length
  contents : ∃ old c, contents n (slots bs) = old ::ₘ c ∧ contents n (slots s.buckets) = b ::ₘ c ∧
    fullKey key old = fullKey key b ∧ s.replaced = some old.2

/-- No load of the table has the key of `l`. -/
def Fresh (key : α → κ) (n : ℕ) (bs : List (Bucket α)) (l : ℕ × α) : Prop :=
  ∀ a ∈ contents n (slots bs), fullKey key a ≠ fullKey key l

/-- The loop of `hashmap_set_with_hash`: it searches until it displaces an entry, and from then on
places entries of known keys. -/
def Probing (key : α → κ) (n z : ℕ) (bs : List (Bucket α)) (l : ℕ × α) (s : Probe α) : Prop :=
  Searching key n bs l s ∨
    Placing n bs.length z (l ::ₘ contents n (slots bs)) s ∧ Fresh key n bs l

/-- What the loop leaves behind: the load added under a new key, or the item of the key
replaced. -/
def Stored (key : α → κ) (n : ℕ) (bs : List (Bucket α)) (l : ℕ × α) (s : Probe α) : Prop :=
  EntryPlaced n bs.length (l ::ₘ contents n (slots bs)) s ∧ Fresh key n bs l ∨ Replaced key n bs l s

variable {l : ℕ × α}

/-- A searching probe that meets a bucket nearer to its home than itself, or an empty one, has a
new key, and has all it needs to place its entry. -/
theorem Searching.placing (h : Searching key n bs l s) (hfree : (slots bs z).dist = 0)
    (hnear : (slots bs s.i).dist < s.entry.dib) :
    Placing n bs.length z (l ::ₘ contents n (slots bs)) s ∧ Fresh key n bs l := by
  constructor
  · exact {
      carrying := h.buckets ▸ h.carrying
      conserved := by rw [h.load, h.buckets]
      length := by rw [h.buckets]
      free := h.buckets ▸ hfree
      added := h.added }
  · intro a ha
    have hplaced := h.carrying.placed
    rw [h.load] at hplaced
    have hhere : (slots bs ((l.1 + s.entry.dib - 1) % n)).dist < s.entry.dib := by
      simp only [Bucket.slot] at hplaced
      rwa [hplaced]
    exact h.unseen.absent h.carrying.balanced (Nat.pos_of_ne_zero h.carrying.pos) hhere
      (fun _ => hash_of_fullKey) ha

/-- A bucket of the key has its item replaced. -/
theorem Searching.replace (h : Searching key n bs l s) (hlen : n ≤ bs.length) {b : Bucket α}
    (hb : bs[s.i]? = some b) (hheld : b.dib ≠ 0)
    (hmatch : fullKey key s.entry.slot.load = fullKey key b.slot.load) :
    Replaced key n bs l { s with
      buckets := s.buckets.set s.i { b with item := s.entry.item }
      replaced := some b.item } := by
  have hslot := slots_eq hb
  have hlt : s.i < bs.length := h.carrying.lt.trans_le hlen
  have hload : (b.hash, s.entry.item) = l := by
    rw [← h.load]
    exact Prod.ext (congrArg Prod.fst hmatch).symm rfl
  have hset : slots (bs.set s.i { b with item := s.entry.item }) =
      Function.update (slots bs) s.i ⟨(slots bs s.i).dist, l⟩ := by
    rw [slots_set hlt, hslot, ← hload]
    rfl
  exact {
    balanced := by
      simp only [h.buckets, hset]
      apply h.carrying.balanced.replace
      · rwa [hslot]
      · rw [hslot, ← hload]
        rfl
    length := by simp [h.buckets]
    contents := by
      refine ⟨b.slot.load, contentsBut s.i n (slots bs), ?_, ?_, ?_, rfl⟩
      · rw [contents_of_held h.carrying.lt (by rwa [hslot]), hslot]
      · simp only [h.buckets, hset]
        rw [contents_update h.carrying.lt, Slot.loads_of_held (by rwa [hslot]),
          Multiset.singleton_add]
      · rw [← hmatch, h.load] }

/-- The probe goes past a bucket of another key. -/
theorem Searching.pass (h : Searching key n bs l s) (hmask : Masks mask n)
    (hcard : (contents n (slots bs)).card < n)
    (h16 : (contents n (slots bs)).card + 1 < 2 ^ 16) (hfar : s.entry.dib ≤ (slots bs s.i).dist)
    (hother : fullKey key (slots bs s.i).load ≠ fullKey key l) :
    Searching key n bs l { s with
      entry := { s.entry with dib := dib16 (s.entry.dib + 1) }
      i := (s.i + 1) &&& mask } := by
  have hdist := h.carrying.balanced.dist_le_card hcard h.carrying.lt
  have hdib : dib16 (s.entry.dib + 1) = s.entry.dib + 1 := dib16_of_lt (by omega)
  exact {
    carrying := by
      rw [hmask, hdib]
      exact h.carrying.pass hfar
    buckets := h.buckets
    load := h.load
    unseen := by
      have hplaced := h.carrying.placed
      rw [h.load] at hplaced
      rw [hdib]
      have hhere : fullKey key (slots bs ((l.1 + s.entry.dib - 1) % n)).load ≠ fullKey key l := by
        simp only [Bucket.slot] at hplaced
        rwa [hplaced]
      exact h.unseen.next h.carrying.balanced (fun _ => hhere) fun _ => hash_of_fullKey
    added := h.added }

omit [Inhabited α] in
theorem setMatches_iff (hcmp : ∀ a b, map.sameItem a b = true ↔ key a = key b) (e b : Bucket α) :
    setMatches map e b = true ↔ fullKey key e.slot.load = fullKey key b.slot.load := by
  simp [setMatches, fullKey, Bucket.slot, hcmp]

/-- One round of a searching probe. -/
theorem Searching.round (h : Searching key n bs l s) (hmask : Masks mask n) (hlen : n ≤ bs.length)
    (hz : z < n) (hfree : (slots bs z).dist = 0) (hcard : (contents n (slots bs)).card < n)
    (h16 : (contents n (slots bs)).card + 1 < 2 ^ 16)
    (hcmp : ∀ a b, map.sameItem a b = true ↔ key a = key b) :
    (∃ t, probeRound (setMatches map) mask s = some (.leave t) ∧ Stored key n bs l t) ∨
      ∃ t, probeRound (setMatches map) mask s = some (.again t) ∧ Probing key n z bs l t ∧
        ahead n z t.i < ahead n z s.i := by
  obtain ⟨b, hb⟩ := bucket_of_lt (h.carrying.lt.trans_le hlen)
  have hslot := slots_eq hb
  have hread : s.buckets[s.i]? = some b := by rw [h.buckets, hb]
  have hpos := Nat.pos_of_ne_zero h.carrying.pos
  by_cases hempty : b.dib = 0
  · obtain ⟨hplacing, hfresh⟩ := h.placing hfree (by
      rw [hslot, Bucket.slot, hempty]
      exact hpos)
    left
    exact ⟨_, by simp [probeRound, hread, hempty],
      Or.inl ⟨hplacing.settle hlen (by rwa [h.buckets, hslot]), hfresh⟩⟩
  have hne : s.i ≠ z := by
    rintro rfl
    rw [hslot] at hfree
    exact hempty hfree
  have hahead : ahead n z ((s.i + 1) &&& mask) < ahead n z s.i := by
    rw [hmask]
    exact ahead_next h.carrying.lt hz hne
  by_cases hmatch : setMatches map s.entry b = true
  · left
    exact ⟨_, by simp [probeRound, hread, hempty, hmatch],
      Or.inr (h.replace hlen hb hempty ((setMatches_iff hcmp _ _).mp hmatch))⟩
  right
  by_cases hnear : b.dib < s.entry.dib
  · obtain ⟨hplacing, hfresh⟩ := h.placing hfree (by rwa [hslot])
    have htotal : (l ::ₘ contents n (slots bs)).card = (contents n (slots bs)).card + 1 :=
      Multiset.card_cons _ _
    exact ⟨_, by simp [probeRound, hread, hempty, hmatch, hnear],
      Or.inr ⟨hplacing.swap hmask hlen (by omega) (by omega) hread hempty hnear, hfresh⟩, hahead⟩
  · have hother : fullKey key (slots bs s.i).load ≠ fullKey key l := by
      intro heq
      apply hmatch
      rw [setMatches_iff hcmp, h.load, ← heq, hslot]
    exact ⟨_, by simp [probeRound, hread, hempty, hmatch, hnear],
      Or.inl (h.pass hmask hcard h16 (by rw [hslot]; exact Nat.le_of_not_lt hnear) hother), hahead⟩

theorem Fresh.distinct (h : Fresh key n bs l)
    (hd : ((contents n (slots bs)).map (fullKey key)).Nodup) :
    ((l ::ₘ contents n (slots bs)).map (fullKey key)).Nodup := by
  rw [Multiset.map_cons, Multiset.nodup_cons]
  refine ⟨?_, hd⟩
  intro hmem
  obtain ⟨a, ha, hkey⟩ := Multiset.mem_map.mp hmem
  exact h a ha hkey

/-- The loop of `hashmap_set_with_hash` adds the load where its key is new, and else replaces the
item of the key. -/
theorem set_loop (h : map.Sound key hashOf frees m) (h16 : map.count + 1 < 2 ^ 16) (hash : ℕ)
    (item : α) :
    ∃ s, whileLoop (probeRound (setMatches map) map.mask) map.nbuckets
        ⟨map.buckets, ⟨hash, 1, item⟩, hash &&& map.mask, none⟩ = some s ∧
      Stored key map.nbuckets map.buckets (hash, item) s := by
  obtain ⟨z, hz, hfree⟩ := h.exists_empty
  have hless := h.count_lt
  have hcard := h.counted
  have hstart : Searching key map.nbuckets map.buckets (hash, item)
      ⟨map.buckets, ⟨hash, 1, item⟩, hash &&& map.mask, none⟩ :=
    { carrying := by
        rw [h.masks]
        exact h.balanced.carry (by omega) (hash, item)
      buckets := rfl
      load := rfl
      unseen := .start _
      added := rfl }
  have hround : ∀ s, Probing key map.nbuckets z map.buckets (hash, item) s →
      (∃ t, probeRound (setMatches map) map.mask s = some (.leave t) ∧
        Stored key map.nbuckets map.buckets (hash, item) t) ∨
      ∃ t, probeRound (setMatches map) map.mask s = some (.again t) ∧
        Probing key map.nbuckets z map.buckets (hash, item) t ∧
        ahead map.nbuckets z t.i < ahead map.nbuckets z s.i := by
    rintro s (hs | ⟨hs, hfresh⟩)
    · exact hs.round h.masks h.allocated hz hfree (by omega) (by omega) h.comparing
    · have htotal : ((hash, item) ::ₘ contents map.nbuckets (slots map.buckets)).card =
          map.count + 1 := by rw [Multiset.card_cons, hcard]
      rcases hs.round h.masks h.allocated hz (by omega) (by omega)
        (hfresh.distinct h.listed.distinct) fun e b => (setMatches_iff h.comparing e b).mp with
        ⟨t, ht, hplaced⟩ | ⟨t, ht, hagain, hahead⟩
      · exact Or.inl ⟨t, ht, Or.inl ⟨hplaced, hfresh⟩⟩
      · exact Or.inr ⟨t, ht, Or.inr ⟨hagain, hfresh⟩, hahead⟩
  exact whileLoop_spec (fun s => ahead map.nbuckets z s.i) hround (Or.inl hstart)
    (ahead_lt hstart.carrying.lt hz)

/-- A load added under a new key. -/
theorem Hashmap.Sound.add [DecidableEq κ] (h : map.Sound key hashOf frees m)
    (hroom : map.count < map.growat)
    (hs : EntryPlaced map.nbuckets map.buckets.length
      (l ::ₘ contents map.nbuckets (slots map.buckets)) s)
    (hfresh : Fresh key map.nbuckets map.buckets l) :
    ({ map with buckets := s.buckets, count := map.count + 1 } : Hashmap α).Sound key hashOf frees
        (Function.update m (fullKey key l) (some l)) ∧ m (fullKey key l) = none := by
  have hnone : m (fullKey key l) = none := h.listed.absent hfresh
  refine ⟨?_, hnone⟩
  exact { h with
    allocated := hs.length.symm ▸ h.allocated
    balanced := hs.balanced
    listed := by
      rw [hs.contents]
      exact h.listed.insert hnone
    counted := by rw [hs.contents, Multiset.card_cons, h.counted]
    room := hroom }

/-- The item of a key replaced. -/
theorem Hashmap.Sound.replace [DecidableEq κ] (h : map.Sound key hashOf frees m)
    (hs : Replaced key map.nbuckets map.buckets l s) :
    ({ map with buckets := s.buckets } : Hashmap α).Sound key hashOf frees
        (Function.update m (fullKey key l) (some l)) ∧
      ∃ old, s.replaced = some old.2 ∧ m (fullKey key l) = some old := by
  obtain ⟨old, c, hbefore, hafter, hkey, hreplaced⟩ := hs.contents
  have hlisted := h.listed
  have hcounted := h.counted
  rw [hbefore] at hlisted hcounted
  refine ⟨?_, old, hreplaced, ?_⟩
  · exact { h with
      allocated := hs.length.symm ▸ h.allocated
      balanced := hs.balanced
      listed := by
        rw [hafter]
        exact hlisted.replace hkey
      counted := by
        rw [hafter, ← hcounted, Multiset.card_cons, Multiset.card_cons] }
  · rw [← hkey]
    exact hlisted.of_mem (Multiset.mem_cons_self old c)

/-- A map about to take a new item has room after the resize it may need. -/
theorem Hashmap.Sound.grown_size (h : map.Sound key hashOf frees m) (h16 : map.count + 1 < 2 ^ 16)
    (hfull : map.count = map.growat) :
    ∃ j, 4 ≤ j ∧ j ≤ 63 ∧ u64 (map.nbuckets * 2 ^ map.growpower) = 2 ^ j ∧ map.cap ≤ 2 ^ j ∧
      map.count < 2 ^ j * 60 / 100 := by
  obtain ⟨j, hlo, -, hj⟩ := h.width
  have hcap := h.cap_le
  have hwide := h.wide
  have hsmall : map.nbuckets < 2 ^ 17 := by
    rcases h.growat with hg | hg <;> omega
  have hj17 : j < 17 := by
    rw [hj] at hsmall
    exact (Nat.pow_lt_pow_iff_right (by omega)).mp hsmall
  have hsize : map.nbuckets * 2 ^ map.growpower = 2 ^ (j + map.growpower) := by
    rw [hj, Nat.pow_add]
  have hpower := h.growpower
  have hdouble : 2 * map.nbuckets ≤ map.nbuckets * 2 ^ map.growpower := by
    have htwo : 2 ^ 1 ≤ 2 ^ map.growpower := Nat.pow_le_pow_right (by omega) hpower.1
    rw [Nat.mul_comm 2]
    exact Nat.mul_le_mul_left _ htwo
  refine ⟨j + map.growpower, by omega, by omega, ?_, by omega, ?_⟩
  · have hlt : 2 ^ (j + map.growpower) < 2 ^ 64 := Nat.pow_lt_pow_right (by omega) (by omega)
    have hcast : (map.nbuckets * 2 ^ map.growpower : ℤ) = ((2 ^ (j + map.growpower) : ℕ) : ℤ) := by
      rw [← hsize]
      push_cast
      ring
    rw [hcast, u64_natCast hlt]
  · rw [← hsize]
    rcases h.growat with hg | hg <;> omega

theorem putEntry_spec [DecidableEq κ] (h : map.Sound key hashOf frees m)
    (hroom : map.count < map.growat)
    (h16 : map.count + 1 < 2 ^ 16) (item : α) (hash : ℕ) :
    ∃ map', putEntry map item hash = some ((m (hash, key item)).map Prod.snd, map') ∧
      map'.oom = map.oom ∧ map'.count ≤ map.count + 1 ∧
      map'.Sound key hashOf frees (Function.update m (hash, key item) (some (hash, item))) := by
  obtain ⟨s, hloop, ⟨hplaced, hfresh⟩ | hreplaced⟩ := set_loop h h16 hash item
  · obtain ⟨hsound, hnone⟩ := h.add hroom hplaced hfresh
    have hnone : m (hash, key item) = none := hnone
    refine ⟨{ map with buckets := s.buckets, count := map.count + 1 }, ?_, rfl, le_rfl, hsound⟩
    simp [putEntry, hloop, hplaced.added, hnone]
  · obtain ⟨hsound, old, hold, hm⟩ := h.replace hreplaced
    have hm : m (hash, key item) = some old := hm
    refine ⟨{ map with buckets := s.buckets }, ?_, rfl, Nat.le_succ _, hsound⟩
    simp [putEntry, hloop, hold, hm]

/-- `hashmap_set_with_hash` stores the item under its key and returns the item that was there, or
leaves the map as it was when it needs memory that is not granted. -/
theorem hashmapSetWithHash_spec [DecidableEq κ] (h : map.Sound key hashOf frees m)
    (h16 : map.count + 1 < 2 ^ 16) (item : α) (hash : ℕ) (grants : Grants) :
    (∃ map', hashmapSetWithHash map item hash grants =
        some ((m (clipHash hash, key item)).map Prod.snd, map') ∧ map'.oom = false ∧
        map'.count ≤ map.count + 1 ∧
        map'.Sound key hashOf frees (Function.update m (clipHash hash, key item)
          (some (clipHash hash, item)))) ∨
      ∃ map', hashmapSetWithHash map item hash grants = some (none, map') ∧ map'.oom = true ∧
        (grants.map && grants.buckets) = false ∧ map'.count = map.count ∧
        map'.Sound key hashOf frees m := by
  have hclear := h.set_oom false
  by_cases hfull : map.count = map.growat
  · obtain ⟨j, hlo, hhi, hsize, hcap, hless⟩ := h.grown_size h16 hfull
    rcases resize_spec hclear hlo hhi hcap hless.le (by simp only; omega) grants with
      ⟨hresize, hgrants⟩ | ⟨map', hresize, hsound, hcount, hgrowat, hoom⟩
    · right
      refine ⟨{ map with oom := true }, ?_, rfl, hgrants, rfl, h.set_oom true⟩
      simp [hashmapSetWithHash, if_pos hfull, hsize, hresize]
    · left
      have hcount : map'.count = map.count := hcount
      obtain ⟨map'', hput, hoom', hcount', hsound'⟩ := putEntry_spec hsound (by omega) (by omega)
        item (clipHash hash)
      refine ⟨map'', ?_, hoom'.trans hoom, hcount ▸ hcount', hsound'⟩
      simp [hashmapSetWithHash, if_pos hfull, hsize, hresize, hput]
  · left
    have hroom := h.room
    obtain ⟨map', hput, hoom, hcount, hsound⟩ := putEntry_spec hclear (by simp only; omega) h16
      item (clipHash hash)
    exact ⟨map', by simp [hashmapSetWithHash, hfull, hput], hoom, hcount, hsound⟩

end LdacsSdk
