import LdacsSdk.Core.HashmapTable

/-!
# Finding, deleting and walking in the hash map

A probe for a key finds its item, a deletion takes it out and closes the gap, clearing empties the
table, and a walk over the buckets meets every item once.
-/
namespace LdacsSdk

open Library

variable {α κ : Type} [Inhabited α] {bs : List (Bucket α)} {b : Bucket α} {i n mask z : ℕ}
  {map : Hashmap α} {key : α → κ} {hashOf : α → ℕ} {frees : Bool}
  {m : ℕ × κ → Option (ℕ × α)}

/-! ### Finding and deleting an item -/

/-- One round of the probe for a key that has not found it yet. -/
theorem find_round (h : map.Sound key hashOf frees m) {x : α} {hash d : ℕ} (hz : z < map.nbuckets)
    (hfree : (slots map.buckets z).dist = 0) (hd : 0 < d)
    (hu : Unseen (fullKey key) map.nbuckets (slots map.buckets) (hash, key x) d)
    (hi : (hash + d - 1) % map.nbuckets = i) :
    (findRound map x hash (i, false) = some (.leave (i, false)) ∧ m (hash, key x) = none) ∨
      (∃ b, findRound map x hash (i, false) = some (.leave (i, true)) ∧ map.buckets[i]? = some b ∧
        b.dib ≠ 0 ∧ fullKey key b.slot.load = (hash, key x)) ∨
      ∃ i', findRound map x hash (i, false) = some (.again (i', false)) ∧
        (hash + (d + 1) - 1) % map.nbuckets = i' ∧
        Unseen (fullKey key) map.nbuckets (slots map.buckets) (hash, key x) (d + 1) ∧
        ahead map.nbuckets z i' < ahead map.nbuckets z i := by
  have hlt : i < map.nbuckets := hi ▸ Nat.mod_lt _ (by omega)
  obtain ⟨b, hb⟩ := bucket_of_lt (hlt.trans_le h.allocated)
  have hslot := slots_eq hb
  have hhome : ∀ l, fullKey key l = (hash, key x) → l.1 = hash := fun _ => hash_of_fullKey
  by_cases hempty : b.dib = 0
  · left
    refine ⟨by simp [findRound, hb, hempty], h.listed.absent ?_⟩
    have hnear : (slots map.buckets ((hash + d - 1) % map.nbuckets)).dist < d := by
      rw [hi, hslot, Bucket.slot, hempty]
      exact hd
    exact fun l hl => hu.absent h.balanced hd hnear hhome hl
  right
  by_cases hmatch : b.hash = hash ∧ map.sameItem x b.item = true
  · left
    refine ⟨b, by simp [findRound, hb, hempty, hmatch], hb, hempty, ?_⟩
    rw [fullKey, Bucket.slot, hmatch.1, (h.comparing _ _).mp hmatch.2]
  · right
    refine ⟨(i + 1) % map.nbuckets, ?_, next_placed (by omega) hi, ?_, ahead_next hlt hz ?_⟩
    · rw [← h.masks]
      simpa [findRound, hb, hempty] using hmatch
    · apply hu.next h.balanced ?_ hhome
      rw [hi, hslot]
      intro _ heq
      apply hmatch
      rw [h.comparing]
      exact ⟨congrArg Prod.fst heq, (congrArg Prod.snd heq).symm⟩
    · rintro rfl
      rw [hslot] at hfree
      exact hempty hfree

/-- The probe for a key ends at its bucket, or finds that it has none. -/
theorem findBucket_spec (h : map.Sound key hashOf frees m) (x : α) (hash : ℕ) :
    (∃ i b, findBucket map x hash = some (i, true) ∧ i < map.nbuckets ∧
        map.buckets[i]? = some b ∧ b.dib ≠ 0 ∧ fullKey key b.slot.load = (hash, key x)) ∨
      ∃ i, findBucket map x hash = some (i, false) ∧ m (hash, key x) = none := by
  obtain ⟨z, hz, hfree⟩ := h.exists_empty
  let seeking := fun s : ℕ × Bool => s.2 = false ∧ ∃ d, 0 < d ∧
    (hash + d - 1) % map.nbuckets = s.1 ∧
    Unseen (fullKey key) map.nbuckets (slots map.buckets) (hash, key x) d
  let found := fun s : ℕ × Bool => (s.2 = true ∧ s.1 < map.nbuckets ∧ ∃ b,
      map.buckets[s.1]? = some b ∧ b.dib ≠ 0 ∧ fullKey key b.slot.load = (hash, key x)) ∨
    (s.2 = false ∧ m (hash, key x) = none)
  have hround : ∀ s, seeking s →
      (∃ t, findRound map x hash s = some (.leave t) ∧ found t) ∨
      ∃ t, findRound map x hash s = some (.again t) ∧ seeking t ∧
        ahead map.nbuckets z t.1 < ahead map.nbuckets z s.1 := by
    rintro ⟨i, seen⟩ ⟨rfl, d, hd, hi, hu⟩
    rcases find_round h hz hfree hd hu hi with ⟨hleave, hnone⟩ | ⟨b, hleave, hb⟩ | hagain
    · exact Or.inl ⟨_, hleave, Or.inr ⟨rfl, hnone⟩⟩
    · have hi : (hash + d - 1) % map.nbuckets = i := hi
      exact Or.inl ⟨_, hleave, Or.inl ⟨rfl, hi ▸ Nat.mod_lt _ (by omega), b, hb⟩⟩
    · obtain ⟨i', hagain, hi', hu', hahead⟩ := hagain
      exact Or.inr ⟨_, hagain, ⟨rfl, d + 1, by omega, hi', hu'⟩, hahead⟩
  have hstart : seeking (hash &&& map.mask, false) :=
    ⟨rfl, 1, by omega, by simp [h.masks hash], .start _⟩
  have hlt : hash &&& map.mask < map.nbuckets := by
    rw [h.masks]
    exact Nat.mod_lt _ (by omega)
  obtain ⟨⟨i, seen⟩, hloop, ⟨rfl, hb⟩ | ⟨rfl, hnone⟩⟩ := whileLoop_spec
    (fun s : ℕ × Bool => ahead map.nbuckets z s.1) hround hstart (ahead_lt hlt hz)
  · obtain ⟨hi, b, hb⟩ := hb
    exact Or.inl ⟨i, b, hloop, hi, hb⟩
  · exact Or.inr ⟨i, hloop, hnone⟩

/-- `hashmap_get_with_hash` returns the item of the key. -/
theorem hashmapGetWithHash_spec (h : map.Sound key hashOf frees m) (x : α) (hash : ℕ) :
    hashmapGetWithHash map x hash = some ((m (clipHash hash, key x)).map Prod.snd) := by
  rcases findBucket_spec h x (clipHash hash) with
    ⟨i, b, hfind, hi, hb, hheld, hkey⟩ | ⟨i, hfind, hnone⟩
  · have hslot := slots_eq hb
    have hmem : b.slot.load ∈ contents map.nbuckets (slots map.buckets) :=
      mem_contents.mpr ⟨i, hi, by rwa [hslot], by rw [hslot]⟩
    have hm := h.listed.of_mem hmem
    rw [hkey] at hm
    simp [hashmapGetWithHash, hfind, hb, hm, Bucket.slot]
  · simp [hashmapGetWithHash, hfind, hnone]

/-- One round of the loop that closes the gap of a deletion. -/
theorem shift_round {c : Multiset (ℕ × α)} (hmask : Masks mask n) (hlen : n ≤ bs.length)
    (hn : 1 < n) (hz : z < n) (hfree : (slots bs z).dist = 0) (hne : z ≠ i)
    (hgap : Gap Prod.fst n (slots bs) i) (hc : contentsBut i n (slots bs) = c) :
    (∃ bs' j, shiftRound mask (bs, i) = some (.leave (bs', j)) ∧
        Balanced Prod.fst n (slots bs') ∧ contents n (slots bs') = c ∧
        bs'.length = bs.length) ∨
      ∃ bs' j, shiftRound mask (bs, i) = some (.again (bs', j)) ∧
        Gap Prod.fst n (slots bs') j ∧ contentsBut j n (slots bs') = c ∧
        bs'.length = bs.length ∧ (slots bs' z).dist = 0 ∧ z ≠ j ∧ ahead n z j < ahead n z i := by
  have hlt : i < bs.length := hgap.lt.trans_le hlen
  have hnext : (i + 1) % n < n := Nat.mod_lt _ (by omega)
  obtain ⟨prev, hprev⟩ := bucket_of_lt hlt
  obtain ⟨b, hb⟩ := bucket_of_lt (hnext.trans_le hlen)
  have hslot := slots_eq hb
  by_cases hnear : b.dib ≤ 1
  · left
    refine ⟨bs.set i { prev with dib := 0 }, (i + 1) % n, ?_, ?_, ?_, by simp⟩
    · simp [shiftRound, hmask (i + 1), hprev, hb, hnear]
    · rw [slots_set hlt]
      exact hgap.close (by rwa [hslot]) _
    · rw [slots_set hlt, contents_update hgap.lt]
      simp [Slot.loads, Bucket.slot, hc]
  · right
    have hfar : 1 < (slots bs ((i + 1) % n)).dist := by
      rw [hslot]
      exact Nat.lt_of_not_le hnear
    obtain ⟨hshift, hcontents⟩ := hgap.shift hn hfar
    have hzj : z ≠ (i + 1) % n := by
      rintro rfl
      omega
    have hset : slots (bs.set i { b with dib := b.dib - 1 }) =
        Function.update (slots bs) i
          ⟨(slots bs ((i + 1) % n)).dist - 1, (slots bs ((i + 1) % n)).load⟩ := by
      rw [slots_set hlt, hslot]
      rfl
    refine ⟨bs.set i { b with dib := b.dib - 1 }, (i + 1) % n, ?_, ?_, ?_, by simp, ?_, hzj, ?_⟩
    · simp [shiftRound, hmask (i + 1), hprev, hb, hnear]
    · rw [hset]
      exact hshift
    · rw [hset, hcontents, hc]
    · rw [hset, Function.update_of_ne hne]
      exact hfree
    · exact ahead_next hgap.lt hz hne.symm


theorem shift_loop {c : Multiset (ℕ × α)} (hmask : Masks mask n) (hlen : n ≤ bs.length)
    (hn : 1 < n) (hz : z < n) (hfree : (slots bs z).dist = 0) (hne : z ≠ i)
    (hgap : Gap Prod.fst n (slots bs) i) (hc : contentsBut i n (slots bs) = c) :
    ∃ bs' j, whileLoop (shiftRound mask) n (bs, i) = some (bs', j) ∧
      Balanced Prod.fst n (slots bs') ∧ contents n (slots bs') = c ∧ bs'.length = bs.length := by
  let open' := fun s : List (Bucket α) × ℕ => Gap Prod.fst n (slots s.1) s.2 ∧
    contentsBut s.2 n (slots s.1) = c ∧ s.1.length = bs.length ∧ (slots s.1 z).dist = 0 ∧ z ≠ s.2
  let closed := fun s : List (Bucket α) × ℕ => Balanced Prod.fst n (slots s.1) ∧
    contents n (slots s.1) = c ∧ s.1.length = bs.length
  have hround : ∀ s, open' s → (∃ t, shiftRound mask s = some (.leave t) ∧ closed t) ∨
      ∃ t, shiftRound mask s = some (.again t) ∧ open' t ∧ ahead n z t.2 < ahead n z s.2 := by
    rintro ⟨bs₁, i⟩ ⟨hgap, hc, hbs, hfree, hne⟩
    rcases shift_round hmask (hlen.trans hbs.ge) hn hz hfree hne hgap hc with
      ⟨bs', j, hleave, hbal, hc', hlen'⟩ | ⟨bs', j, hagain, hgap', hc', hlen', hfree', hne', hless⟩
    · exact Or.inl ⟨_, hleave, hbal, hc', hlen'.trans hbs⟩
    · exact Or.inr ⟨_, hagain, ⟨hgap', hc', hlen'.trans hbs, hfree', hne'⟩, hless⟩
  obtain ⟨⟨bs', j⟩, hloop, hbs'⟩ := whileLoop_spec (fun s : List (Bucket α) × ℕ => ahead n z s.2)
    hround (s := (bs, i)) ⟨hgap, hc, rfl, hfree, hne⟩ (ahead_lt hgap.lt hz)
  exact ⟨bs', j, hloop, hbs'⟩

/-- A smaller table that a deletion asks for has room for what is left. -/
theorem Hashmap.Sound.shrunk_size (h : map.Sound key hashOf frees m) (hcap : map.cap < map.nbuckets)
    (hcount : map.count ≤ map.shrinkat) :
    ∃ j, 4 ≤ j ∧ j ≤ 63 ∧ map.nbuckets / 2 = 2 ^ j ∧ map.cap ≤ 2 ^ j ∧
      map.count ≤ 2 ^ j * 60 / 100 := by
  obtain ⟨j, hlo, hhi, hj⟩ := h.width
  obtain ⟨i, hi, -, hcapi⟩ := h.least
  rw [hj, hcapi] at hcap
  have hij : i < j := (Nat.pow_lt_pow_iff_right (by omega)).mp hcap
  have hhalf : map.nbuckets / 2 = 2 ^ (j - 1) := by
    rw [hj]
    exact Nat.div_eq_of_eq_mul_left (by omega) (by rw [← Nat.pow_succ]; congr 1; omega)
  have hshrink := h.shrinkat
  refine ⟨j - 1, by omega, by omega, hhalf, ?_, ?_⟩
  · rw [hcapi]
    exact Nat.pow_le_pow_right (by omega) (by omega)
  · rw [← hhalf]
    omega

/-- The bucket of a key taken out of the table. -/
theorem Hashmap.Sound.remove [DecidableEq κ] (h : map.Sound key hashOf frees m) {k : ℕ × κ} {c : ℕ}
    (hi : i < map.nbuckets) (hb : map.buckets[i]? = some b) (hheld : b.dib ≠ 0)
    (hkey : fullKey key b.slot.load = k) (hbal : Balanced Prod.fst map.nbuckets (slots bs))
    (hcontents : contents map.nbuckets (slots bs) = contentsBut i map.nbuckets (slots map.buckets))
    (hlen : bs.length = map.buckets.length) (hc : c = map.count - 1) :
    ({ map with buckets := bs, count := c } : Hashmap α).Sound key hashOf frees
      (Function.update m k none) := by
  have hslot := slots_eq hb
  have hheld' : (slots map.buckets i).dist ≠ 0 := by rwa [hslot]
  have hlisted := h.listed
  have hcounted := h.counted
  rw [contents_of_held hi hheld', hslot] at hlisted hcounted
  rw [Multiset.card_cons] at hcounted
  have hroom := h.room
  exact { h with
    allocated := hlen.symm ▸ h.allocated
    balanced := hbal
    listed := by
      rw [hcontents, ← hkey]
      exact hlisted.remove
    counted := by
      rw [hcontents]
      simp only
      omega
    room := by
      simp only
      omega }

/-- The loop of `hashmap_delete_with_hash` from the bucket that it has emptied. -/
theorem close_gap (h : map.Sound key hashOf frees m) (hi : i < map.nbuckets)
    (hb : map.buckets[i]? = some b) (hheld : b.dib ≠ 0) :
    ∃ bs j, whileLoop (shiftRound map.mask) map.nbuckets
        (map.buckets.set i { b with dib := 0 }, i) = some (bs, j) ∧
      Balanced Prod.fst map.nbuckets (slots bs) ∧
      contents map.nbuckets (slots bs) = contentsBut i map.nbuckets (slots map.buckets) ∧
      bs.length = map.buckets.length := by
  obtain ⟨z, hz, hfree⟩ := h.exists_empty
  have hslot := slots_eq hb
  have hlen := h.allocated
  have hset := slots_set (b := { b with dib := 0 }) (hi.trans_le hlen)
  have hne : z ≠ i := by
    rintro rfl
    rw [hslot] at hfree
    exact hheld hfree
  have hwide := h.wide
  have hlen' : map.nbuckets ≤ (map.buckets.set i { b with dib := 0 }).length := by simpa using hlen
  have hgap : Gap Prod.fst map.nbuckets (slots (map.buckets.set i { b with dib := 0 })) i := by
    rw [hset]
    exact h.balanced.gap hi _
  have hc : contentsBut i map.nbuckets (slots (map.buckets.set i { b with dib := 0 })) =
      contentsBut i map.nbuckets (slots map.buckets) := by
    rw [hset, contentsBut_update]
  have hfree' : (slots (map.buckets.set i { b with dib := 0 }) z).dist = 0 := by
    rwa [hset, Function.update_of_ne hne]
  simpa using shift_loop h.masks hlen' (by omega) hz hfree' hne hgap hc

theorem takeOut_spec [DecidableEq κ] (h : map.Sound key hashOf frees m) (h16 : map.count < 2 ^ 16)
    (hi : i < map.nbuckets) (hb : map.buckets[i]? = some b) (hheld : b.dib ≠ 0) {k : ℕ × κ}
    (hkey : fullKey key b.slot.load = k) (grants : Grants) :
    ∃ map', takeOut map i grants = some (some b.item, map') ∧ map'.oom = map.oom ∧
      map'.count ≤ map.count ∧
      map'.Sound key hashOf frees (Function.update m k none) := by
  obtain ⟨bs, j, hloop, hbal, hcontents, hlen⟩ := close_gap h hi hb hheld
  have hsound := h.remove hi hb hheld hkey hbal hcontents hlen rfl
  by_cases hshrink : map.cap < map.nbuckets ∧ map.count - 1 ≤ map.shrinkat
  · obtain ⟨j, hlo, hhi, hsize, hcap, hroom⟩ := hsound.shrunk_size hshrink.1 hshrink.2
    have hsize : map.nbuckets / 2 = 2 ^ j := hsize
    rcases resize_spec hsound hlo hhi hcap hroom (by simp only; omega) grants with
      ⟨hresize, -⟩ | ⟨map', hresize, hsound', hcount, -, hoom⟩
    · refine ⟨{ map with buckets := bs, count := map.count - 1 }, ?_, rfl, Nat.sub_le _ _,
        hsound⟩
      simp only [takeOut, hb, hloop, Option.bind_eq_bind, Option.bind_some, if_pos hshrink, hsize,
        hresize, Option.pure_def]
    · refine ⟨map', ?_, hoom, hcount.trans_le (Nat.sub_le _ _), hsound'⟩
      simp only [takeOut, hb, hloop, Option.bind_eq_bind, Option.bind_some, if_pos hshrink, hsize,
        hresize, Option.pure_def]
  · refine ⟨{ map with buckets := bs, count := map.count - 1 }, ?_, rfl, Nat.sub_le _ _, hsound⟩
    simp only [takeOut, hb, hloop, Option.bind_eq_bind, Option.bind_some, if_neg hshrink,
      Option.pure_def]

/-- `hashmap_delete_with_hash` takes out the item of the key and returns it. A resize that gets no
memory changes nothing. -/
theorem hashmapDeleteWithHash_spec [DecidableEq κ] (h : map.Sound key hashOf frees m)
    (h16 : map.count < 2 ^ 16) (x : α) (hash : ℕ) (grants : Grants) :
    ∃ map', hashmapDeleteWithHash map x hash grants =
        some ((m (clipHash hash, key x)).map Prod.snd, map') ∧ map'.oom = false ∧
      map'.count ≤ map.count ∧
      map'.Sound key hashOf frees (Function.update m (clipHash hash, key x) none) := by
  have hclear := h.set_oom false
  rcases findBucket_spec hclear x (clipHash hash) with
    ⟨i, b, hfind, hi, hb, hheld, hkey⟩ | ⟨i, hfind, hnone⟩
  · have hslot := slots_eq hb
    have hm : m (clipHash hash, key x) = some b.slot.load := by
      rw [← hkey]
      exact hclear.listed.of_mem (mem_contents.mpr ⟨i, hi, by rwa [hslot], by rw [hslot]⟩)
    obtain ⟨map', htake, hoom, hcount, hsound⟩ :=
      takeOut_spec hclear h16 hi hb hheld hkey grants
    refine ⟨map', ?_, hoom, hcount, hsound⟩
    simp [hashmapDeleteWithHash, hfind, htake, hm, Bucket.slot]
  · refine ⟨{ map with oom := false }, ?_, rfl, le_rfl, ?_⟩
    · simp [hashmapDeleteWithHash, hfind, hnone]
    · rw [Function.update_eq_self_iff.mpr hnone.symm]
      exact hclear

/-! ### Walking over the buckets -/

/-- The loads of `left` buckets from `i` on, in turn. -/
def loadsFrom (bs : List (Bucket α)) (i left : ℕ) : List (ℕ × α) :=
  (List.range' i left).filterMap fun j =>
    if (slots bs j).dist = 0 then none else some (slots bs j).load

/-- The loads that a walk over the map meets. -/
def Hashmap.loads (map : Hashmap α) : List (ℕ × α) := loadsFrom map.buckets 0 map.nbuckets

theorem loadsFrom_succ_of_empty {left : ℕ} (h : (slots bs i).dist = 0) :
    loadsFrom bs i (left + 1) = loadsFrom bs (i + 1) left := by
  simp [loadsFrom, List.range'_succ, h]

theorem loadsFrom_succ_of_held {left : ℕ} (h : (slots bs i).dist ≠ 0) :
    loadsFrom bs i (left + 1) = (slots bs i).load :: loadsFrom bs (i + 1) left := by
  simp [loadsFrom, List.range'_succ, h]

/-- A walk meets what the table holds. -/
theorem coe_loadsFrom (bs : List (Bucket α)) (n : ℕ) :
    (loadsFrom bs 0 n : Multiset (ℕ × α)) = contents n (slots bs) := by
  induction n with
  | zero => rfl
  | succ n ih =>
    rw [contents_succ, ← ih, add_comm (slots bs n).loads]
    by_cases h : (slots bs n).dist = 0
    · simp [loadsFrom, List.range'_concat, h, Slot.loads]
    · simp only [loadsFrom, List.range'_concat, List.filterMap_append, Slot.loads_of_held h]
      simp [h, ← Multiset.coe_add]

/-- The list `xs` has, in some order, the items of a map, one for each key that has one. -/
def Enumerates {K : Type} (xs : List α) (v : K → Option α) : Prop :=
  ∃ ks : List K, ks.Nodup ∧ (∀ k, k ∈ ks ↔ (v k).isSome) ∧ xs.map some = ks.map v

/-- A walk meets the item of every key once. -/
theorem Hashmap.Sound.enumerates (h : map.Sound key hashOf frees m) :
    Enumerates (map.loads.map Prod.snd) fun k => (m k).map Prod.snd := by
  have hcoe : (map.loads : Multiset (ℕ × α)) = _ := coe_loadsFrom map.buckets map.nbuckets
  have hlisted := h.listed
  rw [← hcoe] at hlisted
  refine ⟨map.loads.map (fullKey key), by simpa using hlisted.distinct, ?_, ?_⟩
  · intro k
    simp only [List.mem_map, Option.isSome_map, Option.isSome_iff_exists, hlisted.lookup,
      Multiset.mem_coe]
  · rw [List.map_map, List.map_map]
    apply List.map_congr_left
    intro l hl
    have hm := hlisted.of_mem (Multiset.mem_coe.mpr hl)
    simp [hm]

/-- `hashmap_scan` calls the function with items in turn until it returns false. -/
def scanItems {σ : Type} (iter : α → σ → Bool × σ) : List α → σ → Bool × σ
  | [], udata => (true, udata)
  | x :: xs, udata =>
    if (iter x udata).1 then scanItems iter xs (iter x udata).2 else (false, (iter x udata).2)

theorem scanFrom_spec {σ : Type} (iter : α → σ → Bool × σ) {left : ℕ} (udata : σ)
    (hi : i + left ≤ map.buckets.length) :
    scanFrom map iter i left udata =
      some (scanItems iter ((loadsFrom map.buckets i left).map Prod.snd) udata) := by
  induction left generalizing i udata with
  | zero => rfl
  | succ left ih =>
    obtain ⟨b, hb⟩ := bucket_of_lt (show i < map.buckets.length by omega)
    have hslot := slots_eq hb
    have hrest := fun udata => ih udata (i := i + 1) (by omega)
    by_cases hempty : b.dib = 0
    · rw [loadsFrom_succ_of_empty (by rwa [hslot])]
      simp [scanFrom, hb, hempty, hrest]
    · rw [loadsFrom_succ_of_held (by rwa [hslot]), hslot]
      by_cases hgo : (iter b.item udata).1 = true
      · simp [scanFrom, hb, hempty, scanItems, Bucket.slot, hgo, hrest]
      · simp [scanFrom, hb, hempty, scanItems, Bucket.slot, hgo]

/-- `hashmap_scan` sees the items of the walk in turn. -/
theorem hashmapScan_spec (h : map.Sound key hashOf frees m) {σ : Type} (iter : α → σ → Bool × σ)
    (udata : σ) :
    hashmapScan map iter udata = some (scanItems iter (map.loads.map Prod.snd) udata) :=
  scanFrom_spec iter udata (by simpa using h.allocated)

theorem iter_loop (h : map.Sound key hashOf frees m) {fuel : ℕ} (hfuel : map.nbuckets - i < fuel) :
    (∃ j, whileLoop (iterRound map) fuel (none, i) = some (none, j) ∧
        loadsFrom map.buckets i (map.nbuckets - i) = []) ∨
      ∃ l j, whileLoop (iterRound map) fuel (none, i) = some (some l.2, j) ∧ i < j ∧
        loadsFrom map.buckets i (map.nbuckets - i) =
          l :: loadsFrom map.buckets j (map.nbuckets - j) := by
  induction fuel generalizing i with
  | zero => omega
  | succ fuel ih =>
    have hlen := h.allocated
    by_cases hend : map.nbuckets ≤ i
    · left
      refine ⟨i, by simp [whileLoop, iterRound, hend], ?_⟩
      rw [Nat.sub_eq_zero_of_le hend]
      rfl
    · obtain ⟨b, hb⟩ := bucket_of_lt (show i < map.buckets.length by omega)
      have hslot := slots_eq hb
      have hleft : map.nbuckets - i = map.nbuckets - (i + 1) + 1 := by omega
      by_cases hempty : b.dib = 0
      · have hstep : whileLoop (iterRound map) (fuel + 1) (none, i) =
            whileLoop (iterRound map) fuel (none, i + 1) := by
          simp [whileLoop, iterRound, hend, hb, hempty]
        rw [hstep, hleft, loadsFrom_succ_of_empty (by rwa [hslot])]
        rcases ih (i := i + 1) (by omega) with hdone | ⟨l, j, hnext, hj, hloads⟩
        · exact Or.inl hdone
        · exact Or.inr ⟨l, j, hnext, by omega, hloads⟩
      · right
        refine ⟨b.slot.load, i + 1, ?_, by omega, ?_⟩
        · simp [whileLoop, iterRound, hend, hb, hempty, Bucket.slot]
        · rw [hleft, loadsFrom_succ_of_held (by rwa [hslot]), hslot]

/-- A loop over `hashmap_iter` sees the items of the walk in turn and ends. -/
theorem iterItems_spec (h : map.Sound key hashOf frees m) {fuel : ℕ}
    (hfuel : (loadsFrom map.buckets i (map.nbuckets - i)).length < fuel) :
    iterItems map fuel i =
      some ((loadsFrom map.buckets i (map.nbuckets - i)).map Prod.snd) := by
  induction fuel generalizing i with
  | zero => omega
  | succ fuel ih =>
    rcases iter_loop h (show map.nbuckets - i < map.nbuckets + 1 by omega) with
      ⟨j, hloop, hnil⟩ | ⟨l, j, hloop, -, hcons⟩
    · simp [iterItems, hashmapIter, hloop, hnil]
    · rw [hcons, List.length_cons] at hfuel
      simp [iterItems, hashmapIter, hloop, hcons, ih (i := j) (by omega)]

/-- `free_elements` frees the items of the walk. -/
theorem freeElements_spec (h : map.Sound key hashOf frees m) :
    freeElements map = some (if frees then map.loads.map Prod.snd else []) := by
  have hlen := h.allocated
  unfold freeElements
  rw [h.freeing]
  cases frees
  · rfl
  · have hfold : ∀ i ≤ map.nbuckets, (List.range i).foldlM
        (fun freed i => do
          let bucket ← map.buckets[i]?
          return if bucket.dib = 0 then freed else freed ++ [bucket.item]) ([] : List α) =
        some ((loadsFrom map.buckets 0 i).map Prod.snd) := by
      intro i hi
      induction i with
      | zero => rfl
      | succ i ih =>
        obtain ⟨b, hb⟩ := bucket_of_lt (show i < map.buckets.length by omega)
        have hslot := slots_eq hb
        rw [foldlM_range_succ (ih (by omega)), hb]
        by_cases hempty : b.dib = 0
        · simp [hempty, loadsFrom, List.range'_concat, hslot, Bucket.slot]
        · simp [hempty, loadsFrom, List.range'_concat, hslot, Bucket.slot]
    simpa [Hashmap.loads] using hfold map.nbuckets le_rfl

/-! ### Creating and clearing a map -/

theorem emptyMap_sound {j cap seed0 seed1 : ℕ} {hash : α → ℕ → ℕ → ℕ}
    {compare : Option (α → α → ℤ)} (hcap : cap = 2 ^ j) (hlo : 4 ≤ j) (hhi : j ≤ 63)
    (hcmp : ∀ a b, (emptyMap cap seed0 seed1 hash compare frees).sameItem a b = true ↔
      key a = key b) (hhash : ∀ a, clipHash (hash a seed0 seed1) = hashOf a) :
    (emptyMap cap seed0 seed1 hash compare frees).Sound key hashOf frees fun _ => none := by
  have hfree : ∀ i < cap, (slots (List.replicate cap (zeroBucket (α := α))) i).dist = 0 :=
    fun i hi => by simpa using slots_replicate cap i ([] : List (Bucket α)) hi
  have hempty : contents cap (slots (List.replicate cap (zeroBucket (α := α)))) = 0 :=
    contents_zero hfree
  exact {
    hashing := hhash
    freeing := rfl
    comparing := hcmp
    width := ⟨j, hlo, hhi, hcap⟩
    least := ⟨j, hlo, hhi, hcap⟩
    cap_le := le_rfl
    mask := rfl
    allocated := by simp [emptyMap]
    balanced := .of_free hfree
    listed := by
      simp only [emptyMap, hempty]
      exact .empty _
    counted := by simp [emptyMap, hempty]
    room := Nat.zero_le _
    growat := Or.inl rfl
    shrinkat := rfl
    growpower := ⟨le_rfl, by simp [emptyMap]⟩ }

/-- What `hashmap_clear` makes of a map over a table of `n` buckets. -/
theorem Hashmap.Sound.wiped (h : map.Sound key hashOf frees m)
    (hn : ∃ j, 4 ≤ j ∧ j ≤ 63 ∧ n = 2 ^ j) {cap : ℕ} (hcap : ∃ j, 4 ≤ j ∧ j ≤ 63 ∧ cap = 2 ^ j)
    (hle : cap ≤ n) :
    ({ map with
      cap := cap, nbuckets := n, count := 0
      buckets := List.replicate n zeroBucket ++ bs.drop n
      mask := n - 1, growat := n * 75 / 100, shrinkat := n * 10 / 100 } :
        Hashmap α).Sound key hashOf frees fun _ => none := by
  have hfree : ∀ i < n, (slots (List.replicate n zeroBucket ++ bs.drop n) i).dist = 0 :=
    fun i hi => slots_replicate n i _ hi
  exact { h with
    width := hn
    least := hcap
    cap_le := hle
    mask := rfl
    allocated := by simp
    balanced := .of_free hfree
    listed := by
      simp only [contents_zero hfree]
      exact .empty _
    counted := by simp [contents_zero hfree]
    room := Nat.zero_le _
    growat := Or.inr rfl
    shrinkat := rfl }

/-- `hashmap_clear` frees the items where elements are freed, and leaves an empty map, also when it
gets no memory for a table of the first capacity. -/
theorem hashmapClear_spec (h : map.Sound key hashOf frees m) (updateCap granted : Bool) :
    ∃ map', hashmapClear map updateCap granted =
        some (if frees then map.loads.map Prod.snd else [], map') ∧ map'.oom = map.oom ∧
      map'.count = 0 ∧ map'.Sound key hashOf frees fun _ => none := by
  have hlen := h.allocated
  have hcap := h.cap_le
  unfold hashmapClear
  simp only [freeElements_spec h, Option.bind_eq_bind, Option.bind_some]
  cases updateCap with
  | true =>
    simp only [if_true, if_pos hlen]
    exact ⟨_, rfl, rfl, rfl, h.wiped h.width h.width le_rfl⟩
  | false =>
    by_cases hsame : map.nbuckets = map.cap
    · simp only [Bool.false_eq_true, if_false, hsame, ne_eq, not_true_eq_false]
      rw [if_pos (hcap.trans hlen)]
      exact ⟨_, rfl, rfl, rfl, h.wiped h.least h.least le_rfl⟩
    · simp only [Bool.false_eq_true, if_false, ne_eq, hsame, not_false_eq_true, if_true]
      cases granted with
      | true =>
        simp only [if_true, List.length_replicate, le_refl]
        exact ⟨_, rfl, rfl, rfl, h.wiped h.least h.least le_rfl⟩
      | false =>
        simp only [Bool.false_eq_true, if_false, if_pos (hcap.trans hlen)]
        exact ⟨_, rfl, rfl, rfl, h.wiped h.least h.least le_rfl⟩

end LdacsSdk
