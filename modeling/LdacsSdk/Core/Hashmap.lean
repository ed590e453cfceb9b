import LdacsSdk.Core.Definitions
import LdacsSdk.Library.Loops

/-!
# The hash map

An open-addressed table of buckets with robin-hood displacement: a bucket stores 48 bits of the
hash, in 16 bits how far its item is from the bucket its hash names (counted from 1, 0 in an
empty bucket), and the item. The table doubles when its count reaches `growat` and halves when
a deletion takes it to `shrinkat`. A bucket outside the allocated memory has no value, and a
probe that has not ended after one round for each bucket has none either.
-/
namespace LdacsSdk

open Library

/-- `struct bucket` and the item behind it. -/
structure Bucket (α : Type) where
  hash : ℕ
  dib : ℕ
  item : α
  deriving DecidableEq, Repr

/-- `struct hashmap`. An item has type `α`; `buckets` is the memory allocated for the table. -/
structure Hashmap (α : Type) where
  cap : ℕ
  seed0 : ℕ
  seed1 : ℕ
  hash : α → ℕ → ℕ → ℕ
  compare : Option (α → α → ℤ)
  elfree : Bool
  nbuckets : ℕ
  count : ℕ
  mask : ℕ
  growat : ℕ
  shrinkat : ℕ
  growpower : ℕ
  oom : Bool
  buckets : List (Bucket α)

/-- Whether the allocator grants a map and a table of buckets. -/
structure Grants where
  map : Bool
  buckets : Bool
  deriving DecidableEq, Repr

variable {α : Type}

/-- A bucket of zero bytes. -/
def zeroBucket [Inhabited α] : Bucket α := ⟨0, 0, default⟩

/-- Storage in the 16 bits of `dib`. -/
def dib16 (n : ℕ) : ℕ := n % 2 ^ 16

/-- `hashmap_set_grow_by_power`. -/
def hashmapSetGrowByPower (map : Hashmap α) (power : ℕ) : Hashmap α :=
  { map with growpower := if power < 1 then 1 else if 16 < power then 16 else power }

/-- `clip_hash`. -/
def clipHash (hash : ℕ) : ℕ := hash &&& 0xFFFFFFFFFFFF

/-- `get_hash`. -/
def getHash (map : Hashmap α) (key : α) : ℕ := clipHash (map.hash key map.seed0 map.seed1)

/-- The test of two items of one hash: everything is equal where no comparison was given. -/
def itemsEqual (compare : Option (α → α → ℤ)) (a b : α) : Bool :=
  match compare with
  | none => true
  | some compare => compare a b == 0

/-- The test with the comparison of a map. -/
def Hashmap.sameItem (map : Hashmap α) (a b : α) : Bool := itemsEqual map.compare a b

/-! ### Allocation -/

/-- The requested capacity rounded up: 16, doubled until it is enough. -/
def roundCap (cap : ℕ) : Option ℕ :=
  if cap < 16 then some 16
  else
    whileLoop (fun ncap => some (if ncap < cap then .again (u64 (ncap * 2)) else .leave ncap)) 64 16

/-- An empty map over a table of `cap` buckets. `GROW_AT` is 0.60 and `SHRINK_AT` 0.10. -/
def emptyMap [Inhabited α] (cap seed0 seed1 : ℕ) (hash : α → ℕ → ℕ → ℕ)
    (compare : Option (α → α → ℤ)) (elfree : Bool) : Hashmap α where
  cap := cap
  seed0 := seed0
  seed1 := seed1
  hash := hash
  compare := compare
  elfree := elfree
  nbuckets := cap
  count := 0
  mask := cap - 1
  growat := cap * 60 / 100
  shrinkat := cap * 10 / 100
  growpower := 1
  oom := false
  buckets := List.replicate cap zeroBucket

/-- `hashmap_new_with_allocator`; `none` inside where it returns `NULL`. -/
def hashmapNewWithAllocator [Inhabited α] (grants : Grants) (cap seed0 seed1 : ℕ)
    (hash : α → ℕ → ℕ → ℕ) (compare : Option (α → α → ℤ)) (elfree : Bool) :
    Option (Option (Hashmap α)) := do
  let cap ← roundCap cap
  if grants.map && grants.buckets then
    return some (emptyMap cap seed0 seed1 hash compare elfree)
  else return none

/-! ### Probing with an entry -/

/-- The state of the loop that finds a bucket for `entry`, and the item it has replaced. -/
structure Probe (α : Type) where
  buckets : List (Bucket α)
  entry : Bucket α
  i : ℕ
  replaced : Option α

/-- One round of the loop of `hashmap_set_with_hash`; `resize0` runs the same loop without the
comparison. -/
def probeRound (same : Bucket α → Bucket α → Bool) (mask : ℕ) (s : Probe α) :
    Option (Round (Probe α)) := do
  let bucket ← s.buckets[s.i]?
  if bucket.dib = 0 then
    return .leave { s with buckets := s.buckets.set s.i s.entry }
  else if same s.entry bucket then
    return .leave { s with
      buckets := s.buckets.set s.i { bucket with item := s.entry.item }
      replaced := some bucket.item }
  else if bucket.dib < s.entry.dib then
    return .again { s with
      buckets := s.buckets.set s.i s.entry
      entry := { bucket with dib := dib16 (bucket.dib + 1) }
      i := (s.i + 1) &&& mask }
  else
    return .again { s with
      entry := { s.entry with dib := dib16 (s.entry.dib + 1) }
      i := (s.i + 1) &&& mask }

/-- The body of the loop of `resize0`: an entry of the old table put into the new one. -/
def rehash (map2 : Hashmap α) (buckets : List (Bucket α)) (entry : Bucket α) :
    Option (List (Bucket α)) :=
  if entry.dib = 0 then some buckets
  else
    (whileLoop (probeRound (fun _ _ => false) map2.mask) map2.nbuckets
      ⟨buckets, { entry with dib := 1 }, entry.hash &&& map2.mask, none⟩).map Probe.buckets

/-- `resize0` and `resize`: false with the map as it was when no memory is granted. The old
table, whose entries the displacements overwrite, is freed. -/
def resize [Inhabited α] (map : Hashmap α) (newCap : ℕ) (grants : Grants) :
    Option (Bool × Hashmap α) := do
  match ← hashmapNewWithAllocator grants newCap map.seed0 map.seed1 map.hash map.compare
      map.elfree with
  | none => return (false, map)
  | some map2 =>
    let buckets ← (List.range map.nbuckets).foldlM
      (fun buckets i => do rehash map2 buckets (← map.buckets[i]?)) map2.buckets
    return (true, { map with
      buckets := buckets, nbuckets := map2.nbuckets, mask := map2.mask,
      growat := map2.growat, shrinkat := map2.shrinkat })

/-- The comparison that `hashmap_set_with_hash` makes in its loop. -/
def setMatches (map : Hashmap α) (entry bucket : Bucket α) : Bool :=
  entry.hash == bucket.hash && map.sameItem entry.item bucket.item

/-- `hashmap_set_with_hash` once there is room: the entry is put into the table. -/
def putEntry (map : Hashmap α) (item : α) (hash : ℕ) : Option (Option α × Hashmap α) := do
  let s ← whileLoop (probeRound (setMatches map) map.mask) map.nbuckets
    ⟨map.buckets, ⟨hash, 1, item⟩, hash &&& map.mask, none⟩
  if s.replaced.isSome then return (s.replaced, { map with buckets := s.buckets })
  else return (none, { map with buckets := s.buckets, count := map.count + 1 })

/-- `hashmap_set_with_hash`: the item replaced, or `none`. -/
def hashmapSetWithHash [Inhabited α] (map : Hashmap α) (item : α) (hash : ℕ) (grants : Grants) :
    Option (Option α × Hashmap α) := do
  let hash := clipHash hash
  let map := { map with oom := false }
  if map.count = map.growat then
    let (resized, map) ← resize map (u64 (map.nbuckets * 2 ^ map.growpower)) grants
    if resized then putEntry map item hash else return (none, { map with oom := true })
  else putEntry map item hash

/-- `hashmap_set`. -/
def hashmapSet [Inhabited α] (map : Hashmap α) (item : α) (grants : Grants) :
    Option (Option α × Hashmap α) :=
  hashmapSetWithHash map item (getHash map item) grants

/-! ### Probing for a key -/

/-- One round of the loop that `hashmap_get_with_hash` and `hashmap_delete_with_hash` share: the
position, and whether the bucket there is the one sought. -/
def findRound (map : Hashmap α) (key : α) (hash : ℕ) (s : ℕ × Bool) :
    Option (Round (ℕ × Bool)) := do
  let bucket ← map.buckets[s.1]?
  if bucket.dib = 0 then return .leave (s.1, false)
  else if bucket.hash == hash && map.sameItem key bucket.item then return .leave (s.1, true)
  else return .again ((s.1 + 1) &&& map.mask, false)

/-- The bucket of a key: its position and whether it is there. -/
def findBucket (map : Hashmap α) (key : α) (hash : ℕ) : Option (ℕ × Bool) :=
  whileLoop (findRound map key hash) map.nbuckets (hash &&& map.mask, false)

/-- `hashmap_get_with_hash`. -/
def hashmapGetWithHash (map : Hashmap α) (key : α) (hash : ℕ) : Option (Option α) := do
  let (i, found) ← findBucket map key (clipHash hash)
  if found then return some (← map.buckets[i]?).item else return none

/-- `hashmap_get`. -/
def hashmapGet (map : Hashmap α) (key : α) : Option (Option α) :=
  hashmapGetWithHash map key (getHash map key)

/-- `hashmap_probe`. -/
def hashmapProbe (map : Hashmap α) (position : ℕ) : Option (Option α) := do
  let bucket ← map.buckets[position &&& map.mask]?
  return if bucket.dib = 0 then none else some bucket.item

/-- One round of the loop that closes the gap at `i` by moving the next bucket back. -/
def shiftRound (mask : ℕ) (s : List (Bucket α) × ℕ) : Option (Round (List (Bucket α) × ℕ)) := do
  let prev ← s.1[s.2]?
  let i := (s.2 + 1) &&& mask
  let bucket ← s.1[i]?
  if bucket.dib ≤ 1 then return .leave (s.1.set s.2 { prev with dib := 0 }, i)
  else return .again (s.1.set s.2 { bucket with dib := bucket.dib - 1 }, i)

/-- `hashmap_delete_with_hash` once it has found its bucket at `i`: the item there, and the map
with the gap closed. -/
def takeOut [Inhabited α] (map : Hashmap α) (i : ℕ) (grants : Grants) :
    Option (Option α × Hashmap α) := do
  let bucket ← map.buckets[i]?
  let (buckets, _) ← whileLoop (shiftRound map.mask) map.nbuckets
    (map.buckets.set i { bucket with dib := 0 }, i)
  let map := { map with buckets := buckets, count := map.count - 1 }
  if map.cap < map.nbuckets ∧ map.count ≤ map.shrinkat then
    let (_, map) ← resize map (map.nbuckets / 2) grants
    return (some bucket.item, map)
  else return (some bucket.item, map)

/-- `hashmap_delete_with_hash`: the item taken out, or `none`. -/
def hashmapDeleteWithHash [Inhabited α] (map : Hashmap α) (key : α) (hash : ℕ) (grants : Grants) :
    Option (Option α × Hashmap α) := do
  let map := { map with oom := false }
  let (i, found) ← findBucket map key (clipHash hash)
  if found then takeOut map i grants else return (none, map)

/-- `hashmap_delete`. -/
def hashmapDelete [Inhabited α] (map : Hashmap α) (key : α) (grants : Grants) :
    Option (Option α × Hashmap α) :=
  hashmapDeleteWithHash map key (getHash map key) grants

/-- `hashmap_count`. -/
def hashmapCount (map : Hashmap α) : ℕ := map.count

/-- `hashmap_oom`. -/
def hashmapOom (map : Hashmap α) : Bool := map.oom

/-! ### Walking over the buckets -/

/-- `hashmap_scan` from bucket `i` on, with `left` buckets to go: `iter` is called with each item
and its own state, until it returns false. -/
def scanFrom {σ : Type} (map : Hashmap α) (iter : α → σ → Bool × σ) : ℕ → ℕ → σ → Option (Bool × σ)
  | _, 0, udata => some (true, udata)
  | i, left + 1, udata => do
    let bucket ← map.buckets[i]?
    if bucket.dib = 0 then scanFrom map iter (i + 1) left udata
    else
      let (go, udata) := iter bucket.item udata
      if go then scanFrom map iter (i + 1) left udata else return (false, udata)

/-- `hashmap_scan`. -/
def hashmapScan {σ : Type} (map : Hashmap α) (iter : α → σ → Bool × σ) (udata : σ) :
    Option (Bool × σ) :=
  scanFrom map iter 0 map.nbuckets udata

/-- One round of the loop of `hashmap_iter`: the item, once there is one, and the cursor. -/
def iterRound (map : Hashmap α) (s : Option α × ℕ) : Option (Round (Option α × ℕ)) :=
  if map.nbuckets ≤ s.2 then some (.leave (none, s.2))
  else do
    let bucket ← map.buckets[s.2]?
    if bucket.dib = 0 then return .again (none, s.2 + 1)
    else return .leave (some bucket.item, s.2 + 1)

/-- `hashmap_iter`: the next item and the cursor, or `none` at the end of the iteration. -/
def hashmapIter (map : Hashmap α) (i : ℕ) : Option (Option α × ℕ) :=
  whileLoop (iterRound map) (map.nbuckets + 1) (none, i)

/-- The items a loop over `hashmap_iter` sees from cursor `i` on, in at most `fuel` calls. -/
def iterItems (map : Hashmap α) : ℕ → ℕ → Option (List α)
  | 0, _ => none
  | fuel + 1, i => do
    match ← hashmapIter map i with
    | (none, _) => return []
    | (some item, i) => return item :: (← iterItems map fuel i)

/-- `free_elements`: the items given to `elfree`, in turn. -/
def freeElements (map : Hashmap α) : Option (List α) :=
  if map.elfree then
    (List.range map.nbuckets).foldlM
      (fun freed i => do
        let bucket ← map.buckets[i]?
        return if bucket.dib = 0 then freed else freed ++ [bucket.item]) []
  else some []

/-- `hashmap_clear`: the items freed and the map; `granted` says whether the allocator grants a
table of the first capacity. -/
def hashmapClear [Inhabited α] (map : Hashmap α) (updateCap granted : Bool) :
    Option (List α × Hashmap α) := do
  let freed ← freeElements map
  let map := { map with count := 0 }
  let map :=
    if updateCap then { map with cap := map.nbuckets }
    else if map.nbuckets ≠ map.cap then
      { map with
        buckets := if granted then List.replicate map.cap zeroBucket else map.buckets
        nbuckets := map.cap }
    else map
  if map.nbuckets ≤ map.buckets.length then
    return (freed, { map with
      buckets := List.replicate map.nbuckets zeroBucket ++ map.buckets.drop map.nbuckets
      mask := map.nbuckets - 1
      growat := map.nbuckets * 75 / 100
      shrinkat := map.nbuckets * 10 / 100 })
  else none

end LdacsSdk
