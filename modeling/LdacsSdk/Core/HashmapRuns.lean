import LdacsSdk.Core.HashmapLookup

/-!
# The hash map is a partial function

Every operation on a map whose table stores the entries of a partial function ends, and answers as
an update or a value of that function; so does any run of operations, whatever memory the allocator
grants.
-/
namespace LdacsSdk

open Library

variable {α κ : Type} [Inhabited α] {map : Hashmap α} {key : α → κ} {hashOf : α → ℕ} {frees : Bool}

/-- What a client does with a map, with what the allocator grants where it is asked. -/
inductive HashmapOp (α : Type) where
  | set (item : α) (grants : Grants)
  | setWithHash (item : α) (hash : ℕ) (grants : Grants)
  | get (key : α)
  | getWithHash (key : α) (hash : ℕ)
  | delete (key : α) (grants : Grants)
  | deleteWithHash (key : α) (hash : ℕ) (grants : Grants)
  | clear (updateCap granted : Bool)
  | setGrowByPower (power : ℕ)
  | count
  | oom
  | iterate

/-- What the client gets back. -/
inductive HashmapResult (α : Type) where
  | item (x : Option α)
  | items (xs : List α)
  | size (n : ℕ)
  | flag (b : Bool)
  | done

/-- One operation on a map. -/
def hashmapStep (map : Hashmap α) : HashmapOp α → Option (HashmapResult α × Hashmap α)
  | .set item grants => (hashmapSet map item grants).map fun r => (.item r.1, r.2)
  | .setWithHash item hash grants =>
    (hashmapSetWithHash map item hash grants).map fun r => (.item r.1, r.2)
  | .get key => (hashmapGet map key).map fun r => (.item r, map)
  | .getWithHash key hash => (hashmapGetWithHash map key hash).map fun r => (.item r, map)
  | .delete key grants => (hashmapDelete map key grants).map fun r => (.item r.1, r.2)
  | .deleteWithHash key hash grants =>
    (hashmapDeleteWithHash map key hash grants).map fun r => (.item r.1, r.2)
  | .clear updateCap granted =>
    (hashmapClear map updateCap granted).map fun r => (.items r.1, r.2)
  | .setGrowByPower power => some (.done, hashmapSetGrowByPower map power)
  | .count => some (.size (hashmapCount map), map)
  | .oom => some (.flag (hashmapOom map), map)
  | .iterate => (iterItems map (map.nbuckets + 1) 0).map fun xs => (.items xs, map)

/-- The results of a list of operations and the map after them. -/
def hashmapRun (map : Hashmap α) :
    List (HashmapOp α) → Option (List (HashmapResult α) × Hashmap α)
  | [] => some ([], map)
  | op :: ops => do
    let (r, map) ← hashmapStep map op
    let (rs, map) ← hashmapRun map ops
    return (r :: rs, map)

/-- The operations that may add an item. -/
def HashmapOp.adds : HashmapOp α → Bool
  | .set .. | .setWithHash .. => true
  | _ => false

/-- The map is never asked to add an item to 65535 of them, whose distances 16 bits might not
hold. -/
def StaysSmall : Hashmap α → List (HashmapOp α) → Prop
  | _, [] => True
  | map, op :: ops => (op.adds = true → map.count + 1 < 2 ^ 16) ∧
    ∀ r map', hashmapStep map op = some (r, map') → StaysSmall map' ops

/-! ### The map as a partial function -/

/-- The purpose of a hash map: an item for some of the keys, and whether the last operation that
needed memory went without. -/
structure Dict (K α : Type) where
  entries : K → Option α
  oom : Bool

/-- An item put under a key, unless memory is needed and not granted. -/
def Dict.Puts {K : Type} [DecidableEq K] (d : Dict K α) (k : K) (x : α) (grants : Grants)
    (r : HashmapResult α) (d' : Dict K α) : Prop :=
  (r = .item (d.entries k) ∧ d' = ⟨Function.update d.entries k (some x), false⟩) ∨
    (r = .item none ∧ (grants.map && grants.buckets) = false ∧ d' = ⟨d.entries, true⟩)

/-- The item of a key taken out. -/
def Dict.Takes {K : Type} [DecidableEq K] (d : Dict K α) (k : K) (r : HashmapResult α)
    (d' : Dict K α) : Prop :=
  r = .item (d.entries k) ∧ d' = ⟨Function.update d.entries k none, false⟩

/-- What each operation means: its result and the entries after it. -/
def Dict.Answers [DecidableEq κ] (key : α → κ) (hashOf : α → ℕ) (frees : Bool)
    (d : Dict (ℕ × κ) α) (r : HashmapResult α) (d' : Dict (ℕ × κ) α) : HashmapOp α → Prop
  | .set x grants => d.Puts (hashOf x, key x) x grants r d'
  | .setWithHash x hash grants => d.Puts (clipHash hash, key x) x grants r d'
  | .get x => r = .item (d.entries (hashOf x, key x)) ∧ d' = d
  | .getWithHash x hash => r = .item (d.entries (clipHash hash, key x)) ∧ d' = d
  | .delete x _ => d.Takes (hashOf x, key x) r d'
  | .deleteWithHash x hash _ => d.Takes (clipHash hash, key x) r d'
  | .clear _ _ => (∃ xs, r = .items xs ∧ if frees then Enumerates xs d.entries else xs = []) ∧
    d' = ⟨fun _ => none, d.oom⟩
  | .setGrowByPower _ => r = .done ∧ d' = d
  | .count => r = .size {k | (d.entries k).isSome}.ncard ∧ d' = d
  | .oom => r = .flag d.oom ∧ d' = d
  | .iterate => (∃ xs, r = .items xs ∧ Enumerates xs d.entries) ∧ d' = d

/-- The results of a list of operations on a partial function. -/
def Dict.AnswersAll [DecidableEq κ] (key : α → κ) (hashOf : α → ℕ) (frees : Bool) :
    Dict (ℕ × κ) α → List (HashmapOp α) → List (HashmapResult α) → Dict (ℕ × κ) α → Prop
  | d, [], [], d' => d' = d
  | d, op :: ops, r :: rs, d' =>
    ∃ d₁, d.Answers key hashOf frees r d₁ op ∧ Dict.AnswersAll key hashOf frees d₁ ops rs d'
  | _, _, _, _ => False

/-- A map whose table stores the entries of `d`. -/
def Hashmap.Represents (key : α → κ) (hashOf : α → ℕ) (frees : Bool) (map : Hashmap α)
    (d : Dict (ℕ × κ) α) : Prop :=
  ∃ m, map.Sound key hashOf frees m ∧ map.count < 2 ^ 16 ∧
    d = ⟨fun k => (m k).map Prod.snd, map.oom⟩

omit [Inhabited α] in
theorem clipHash_getHash (map : Hashmap α) (a : α) : clipHash (getHash map a) = getHash map a := by
  unfold getHash clipHash
  rw [Nat.and_assoc, Nat.and_self]

omit [Inhabited α] in
theorem map_update [DecidableEq κ] (m : ℕ × κ → Option (ℕ × α)) (k : ℕ × κ) (l : Option (ℕ × α)) :
    (fun j => (Function.update m k l j).map Prod.snd) =
      Function.update (fun j => (m j).map Prod.snd) k (l.map Prod.snd) := by
  funext j
  by_cases hj : j = k
  · subst hj
    simp
  · simp [hj]

variable {d : Dict (ℕ × κ) α}

theorem Hashmap.Represents.set [DecidableEq κ] (h : map.Represents key hashOf frees d)
    (hcount : map.count + 1 < 2 ^ 16) (x : α) (hash : ℕ) (grants : Grants) :
    ∃ old map' d', hashmapSetWithHash map x hash grants = some (old, map') ∧
      d.Puts (clipHash hash, key x) x grants (.item old) d' ∧
      map'.Represents key hashOf frees d' := by
  obtain ⟨m, hsound, -, rfl⟩ := h
  rcases hashmapSetWithHash_spec hsound hcount x hash grants with
    ⟨map', hset, hoom, hle, hsound'⟩ | ⟨map', hset, hoom, hgrants, hsame, hsound'⟩
  · refine ⟨_, map', _, hset, Or.inl ⟨rfl, rfl⟩, _, hsound', by omega, ?_⟩
    rw [hoom, map_update]
    rfl
  · refine ⟨_, map', _, hset, Or.inr ⟨rfl, hgrants, rfl⟩, _, hsound', by omega, ?_⟩
    rw [hoom]

theorem Hashmap.Represents.delete [DecidableEq κ] (h : map.Represents key hashOf frees d) (x : α)
    (hash : ℕ) (grants : Grants) :
    ∃ old map' d', hashmapDeleteWithHash map x hash grants = some (old, map') ∧
      d.Takes (clipHash hash, key x) (.item old) d' ∧ map'.Represents key hashOf frees d' := by
  obtain ⟨m, hsound, hcount, rfl⟩ := h
  obtain ⟨map', hdelete, hoom, hle, hsound'⟩ :=
    hashmapDeleteWithHash_spec hsound hcount x hash grants
  refine ⟨_, map', _, hdelete, ⟨rfl, rfl⟩, _, hsound', by omega, ?_⟩
  rw [hoom, map_update]
  rfl

theorem Hashmap.Represents.get [DecidableEq κ] (h : map.Represents key hashOf frees d) (x : α)
    (hash : ℕ) : hashmapGetWithHash map x hash = some (d.entries (clipHash hash, key x)) := by
  obtain ⟨m, hsound, -, rfl⟩ := h
  exact hashmapGetWithHash_spec hsound x hash

/-- The plain operations are those with the hash of the item. -/
theorem Hashmap.Represents.clip_hash (h : map.Represents key hashOf frees d) (x : α) :
    getHash map x = hashOf x ∧ clipHash (hashOf x) = hashOf x := by
  obtain ⟨m, hsound, -, -⟩ := h
  rw [← hsound.hashing]
  exact ⟨rfl, clipHash_getHash map x⟩

/-- A walk over a map that represents a partial function. -/
theorem Hashmap.Represents.walk (h : map.Represents key hashOf frees d) :
    iterItems map (map.nbuckets + 1) 0 = some (map.loads.map Prod.snd) ∧
      Enumerates (map.loads.map Prod.snd) d.entries := by
  obtain ⟨m, hsound, -, rfl⟩ := h
  refine ⟨?_, hsound.enumerates⟩
  have hlength : (loadsFrom map.buckets 0 map.nbuckets).length = map.count := by
    rw [← hsound.counted, ← coe_loadsFrom, Multiset.coe_card]
  have hless := hsound.count_lt
  exact iterItems_spec hsound (i := 0) (by rw [Nat.sub_zero]; omega)

/-- Every operation on a map that represents a partial function answers as that one does. -/
theorem Hashmap.Represents.step [DecidableEq κ] (h : map.Represents key hashOf frees d)
    (op : HashmapOp α) (hcount : op.adds = true → map.count + 1 < 2 ^ 16) :
    ∃ r map' d', hashmapStep map op = some (r, map') ∧ d.Answers key hashOf frees r d' op ∧
      map'.Represents key hashOf frees d' := by
  cases op with
  | set x grants =>
    obtain ⟨hget, hclip⟩ := h.clip_hash x
    obtain ⟨old, map', d', hset, hputs, hrep⟩ := h.set (hcount rfl) x (hashOf x) grants
    rw [hclip] at hputs
    exact ⟨_, map', d', by simp [hashmapStep, hashmapSet, hget, hset], hputs, hrep⟩
  | setWithHash x hash grants =>
    obtain ⟨old, map', d', hset, hputs, hrep⟩ := h.set (hcount rfl) x hash grants
    exact ⟨_, map', d', by simp [hashmapStep, hset], hputs, hrep⟩
  | get x =>
    obtain ⟨hget, hclip⟩ := h.clip_hash x
    have hfound := h.get x (hashOf x)
    rw [hclip] at hfound
    exact ⟨_, map, d, by simp [hashmapStep, hashmapGet, hget, hfound], ⟨rfl, rfl⟩, h⟩
  | getWithHash x hash =>
    exact ⟨_, map, d, by simp [hashmapStep, h.get x hash], ⟨rfl, rfl⟩, h⟩
  | delete x grants =>
    obtain ⟨hget, hclip⟩ := h.clip_hash x
    obtain ⟨old, map', d', hdelete, htakes, hrep⟩ := h.delete x (hashOf x) grants
    rw [hclip] at htakes
    exact ⟨_, map', d', by simp [hashmapStep, hashmapDelete, hget, hdelete], htakes, hrep⟩
  | deleteWithHash x hash grants =>
    obtain ⟨old, map', d', hdelete, htakes, hrep⟩ := h.delete x hash grants
    exact ⟨_, map', d', by simp [hashmapStep, hdelete], htakes, hrep⟩
  | clear updateCap granted =>
    have hwalk := h.walk.2
    obtain ⟨m, hsound, -, rfl⟩ := h
    obtain ⟨map', hclear, hoom, hzero, hsound'⟩ := hashmapClear_spec hsound updateCap granted
    refine ⟨_, map', ⟨fun _ => none, map.oom⟩, by simp only [hashmapStep, hclear]; rfl,
      ⟨⟨_, rfl, ?_⟩, rfl⟩, _, hsound', by omega, by rw [hoom]; rfl⟩
    cases frees with
    | true => exact hwalk
    | false => rfl
  | setGrowByPower power =>
    obtain ⟨m, hsound, hless, rfl⟩ := h
    refine ⟨.done, hashmapSetGrowByPower map power, _, rfl, ⟨rfl, rfl⟩, m, ?_, hless, rfl⟩
    exact { hsound with
      growpower := by
        simp only [hashmapSetGrowByPower]
        split_ifs <;> omega }
  | count =>
    refine ⟨_, map, d, rfl, ⟨?_, rfl⟩, h⟩
    obtain ⟨m, hsound, -, rfl⟩ := h
    rw [hashmapCount, ← hsound.counted, hsound.listed.card_eq]
    simp
  | oom =>
    refine ⟨_, map, d, rfl, ⟨?_, rfl⟩, h⟩
    obtain ⟨m, -, -, rfl⟩ := h
    rfl
  | iterate =>
    obtain ⟨hiter, henum⟩ := h.walk
    exact ⟨_, map, d, by simp [hashmapStep, hiter], ⟨⟨_, rfl, henum⟩, rfl⟩, h⟩

/-- A run from a map that represents a partial function answers as that one does. -/
theorem Hashmap.Represents.run [DecidableEq κ] (h : map.Represents key hashOf frees d)
    (ops : List (HashmapOp α)) (hsmall : StaysSmall map ops) :
    ∃ rs map' d', hashmapRun map ops = some (rs, map') ∧
      d.AnswersAll key hashOf frees ops rs d' ∧ map'.Represents key hashOf frees d' := by
  induction ops generalizing map d with
  | nil => exact ⟨[], map, d, rfl, rfl, h⟩
  | cons op ops ih =>
    obtain ⟨hcount, hrest⟩ := hsmall
    obtain ⟨r, map₁, d₁, hstep, hanswer, hrep⟩ := h.step op hcount
    obtain ⟨rs, map', d', hrun, hanswers, hrep'⟩ := ih hrep (hrest r map₁ hstep)
    exact ⟨r :: rs, map', d', by simp [hashmapRun, hstep, hrun], ⟨d₁, hanswer, hanswers⟩, hrep'⟩

/-- A new map, where memory is granted for it, represents the empty function. -/
theorem hashmapNew_represents (grants : Grants) {cap : ℕ} (seed0 seed1 : ℕ) (hash : α → ℕ → ℕ → ℕ)
    (compare : Option (α → α → ℤ)) (frees : Bool) (hcap : cap ≤ 2 ^ 63)
    (hcmp : ∀ a b, itemsEqual compare a b = true ↔ key a = key b) :
    ∃ new, hashmapNewWithAllocator grants cap seed0 seed1 hash compare frees = some new ∧
      ∀ map, new = some map → map.Represents key (fun x => clipHash (hash x seed0 seed1)) frees
        ⟨fun _ => none, false⟩ := by
  obtain ⟨j, hlo, hhi, hround, -, -⟩ := roundCap_spec hcap
  by_cases hgrant : (grants.map && grants.buckets) = true
  · refine ⟨some (emptyMap (2 ^ j) seed0 seed1 hash compare frees), ?_, ?_⟩
    · simp [hashmapNewWithAllocator, hround, hgrant]
    · rintro map ⟨rfl⟩
      exact ⟨_, emptyMap_sound rfl hlo hhi hcmp fun _ => rfl, by simp [emptyMap], rfl⟩
  · refine ⟨none, by simp [hashmapNewWithAllocator, hround, hgrant], ?_⟩
    rintro map ⟨⟩

section Runs

variable (key : α → κ) (grants : Grants) (cap seed0 seed1 : ℕ) (hash : α → ℕ → ℕ → ℕ)
  (compare : Option (α → α → ℤ)) (frees : Bool)

/-- In any run on a new map, with any memory granted, every operation ends and answers as a partial
function from hashes with keys to items would. -/
theorem hashmap_is_partial_function [DecidableEq κ] (hcap : cap ≤ 2 ^ 63)
    (hcmp : ∀ a b, itemsEqual compare a b = true ↔ key a = key b)
    (hnew : hashmapNewWithAllocator grants cap seed0 seed1 hash compare frees = some (some map))
    (ops : List (HashmapOp α)) (hsmall : StaysSmall map ops) :
    ∃ rs map' d, hashmapRun map ops = some (rs, map') ∧
      Dict.AnswersAll key (fun x => clipHash (hash x seed0 seed1)) frees ⟨fun _ => none, false⟩
        ops rs d := by
  obtain ⟨new, hcreate, hrep⟩ :=
    hashmapNew_represents grants seed0 seed1 hash compare frees hcap hcmp
  obtain rfl : new = some map := Option.some.inj (hcreate.symm.trans hnew)
  obtain ⟨rs, map', d, hrun, hanswers, -⟩ := (hrep map rfl).run ops hsmall
  exact ⟨rs, map', d, hrun, hanswers⟩

/-- A map of numbers told apart by their difference and hashed by their remainder. -/
theorem hashmap_is_partial_function_remainders :
    ∃ rs map' d, hashmapRun
        (emptyMap 16 0 0 (fun x _ _ => x % 3) (some fun a b => (a : ℤ) - b) false)
        [.set 7 ⟨true, true⟩, .get 7, .delete 7 ⟨true, true⟩, .count] = some (rs, map') ∧
      Dict.AnswersAll (fun x : ℕ => x) (fun x => clipHash (x % 3)) false ⟨fun _ => none, false⟩
        [.set 7 ⟨true, true⟩, .get 7, .delete 7 ⟨true, true⟩, .count] rs d :=
  hashmap_is_partial_function (fun x => x) ⟨true, true⟩ 0 0 0 (fun x _ _ => x % 3)
    (some fun a b => (a : ℤ) - b) false (by norm_num) (by simp [itemsEqual, sub_eq_zero]) rfl _
    (by simp [StaysSmall, HashmapOp.adds, emptyMap])

/-- After any run on a new map, a loop over `hashmap_iter`, `hashmap_scan` and the freeing of the
elements meet the same items in the same order: the item of every key, once. -/
theorem hashmap_walks_agree [DecidableEq κ] (hcap : cap ≤ 2 ^ 63)
    (hcmp : ∀ a b, itemsEqual compare a b = true ↔ key a = key b)
    (hnew : hashmapNewWithAllocator grants cap seed0 seed1 hash compare frees = some (some map))
    (ops : List (HashmapOp α)) (hsmall : StaysSmall map ops) :
    ∃ rs map' d xs, hashmapRun map ops = some (rs, map') ∧
      Dict.AnswersAll key (fun x => clipHash (hash x seed0 seed1)) frees ⟨fun _ => none, false⟩
        ops rs d ∧
      Enumerates xs d.entries ∧ iterItems map' (map'.nbuckets + 1) 0 = some xs ∧
      (∀ (σ : Type) (iter : α → σ → Bool × σ) (udata : σ),
        hashmapScan map' iter udata = some (scanItems iter xs udata)) ∧
      freeElements map' = some (if frees then xs else []) := by
  obtain ⟨new, hcreate, hrep⟩ :=
    hashmapNew_represents grants seed0 seed1 hash compare frees hcap hcmp
  obtain rfl : new = some map := Option.some.inj (hcreate.symm.trans hnew)
  obtain ⟨rs, map', d, hrun, hanswers, hrep'⟩ := (hrep map rfl).run ops hsmall
  obtain ⟨hiter, henum⟩ := hrep'.walk
  obtain ⟨m, hsound, -, -⟩ := hrep'
  exact ⟨rs, map', d, _, hrun, hanswers, henum, hiter, fun σ => hashmapScan_spec hsound,
    freeElements_spec hsound⟩

/-- A walk over a map of numbers hashed by their remainder. -/
theorem hashmap_walks_agree_remainders :
    ∃ rs map' d xs, hashmapRun
        (emptyMap 16 0 0 (fun x _ _ => x % 3) (some fun a b => (a : ℤ) - b) true)
        [.set 7 ⟨true, true⟩, .iterate] = some (rs, map') ∧
      Dict.AnswersAll (fun x : ℕ => x) (fun x => clipHash (x % 3)) true ⟨fun _ => none, false⟩
        [.set 7 ⟨true, true⟩, .iterate] rs d ∧
      Enumerates xs d.entries ∧ iterItems map' (map'.nbuckets + 1) 0 = some xs ∧
      (∀ (σ : Type) (iter : ℕ → σ → Bool × σ) (udata : σ),
        hashmapScan map' iter udata = some (scanItems iter xs udata)) ∧
      freeElements map' = some (if true then xs else []) :=
  hashmap_walks_agree (fun x => x) ⟨true, true⟩ 0 0 0 (fun x _ _ => x % 3)
    (some fun a b => (a : ℤ) - b) true (by norm_num) (by simp [itemsEqual, sub_eq_zero]) rfl _
    (by simp [StaysSmall, HashmapOp.adds, emptyMap])

end Runs

end LdacsSdk
