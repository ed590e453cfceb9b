import LdacsSdk.Pool.LiveAllocations

/-!
# The limit of a pool

A call adds at most one block, which has room for its request. The block is as large as the first
one, or what the first one leaves of the limit, whatever other blocks have taken of it.
-/
namespace LdacsSdk

open Library

/-- The numbers of a pool agree with the sizes of its blocks. -/
structure PoolCounted (mp : LdMempool) : Prop where
  total : mp.allocMempoolSize = (mp.mlist.map MpMemory.mempoolSize).sum
  first : mp.mempoolSize ≤ mp.allocMempoolSize
  limit : mp.mempoolSize ≤ mp.maxMempoolSize
  max_lt : mp.maxMempoolSize < 2 ^ 64

/-- The blocks are counted, and together not larger than the limit. -/
def WithinLimit (mp : LdMempool) : Prop :=
  mp.allocMempoolSize = (mp.mlist.map MpMemory.mempoolSize).sum ∧
    mp.allocMempoolSize ≤ mp.maxMempoolSize

/-- A request is refused at once, or its size and what the blocks have with it are computed without
overflow. -/
def NoOverflow (mp : LdMempool) (w : ℕ) : Prop :=
  mp.mempoolSize < LdMempool.totalNeeded w ∨
    w + 47 < 2 ^ 64 ∧ mp.allocMempoolSize + LdMempool.totalNeeded w < 2 ^ 64

instance (mp : LdMempool) (w : ℕ) : Decidable (NoOverflow mp w) :=
  inferInstanceAs (Decidable (_ ∨ _))

/-- The blocks have a free chunk for the request. -/
def HasRoom (mp : LdMempool) (total : ℕ) : Prop :=
  ∃ found, LdMempool.searchMemory mp.mempoolSize total mp.mem mp.mlist = some (some found)

/-- No block is added for the request. -/
def NoBlockAdded (mp : LdMempool) (w : ℕ) (mallocs : List ℕ) : Prop :=
  w = 0 ∨ mp.mempoolSize < LdMempool.totalNeeded w ∨ HasRoom mp (LdMempool.totalNeeded w) ∨
    mp.Exhausted (LdMempool.totalNeeded w) ∨ mallocs = []

/-- No block is added for the request, or the one that is added keeps the limit. -/
def BlockFits (mp : LdMempool) (w : ℕ) (mallocs : List ℕ) : Prop :=
  NoBlockAdded mp w mallocs ∨
    mp.allocMempoolSize + min mp.mempoolSize (mp.maxMempoolSize - mp.mempoolSize) ≤
      mp.maxMempoolSize

variable {chunks : ℕ → List MpPiece} {mp mp' : LdMempool} {live : List (ℕ × ℕ)}
  {mm : MpMemory} {mallocs : List ℕ} {total s w p : ℕ}

theorem PoolCounted.addMemSz_eq (h : PoolCounted mp) :
    mp.addMemSz = min mp.mempoolSize (mp.maxMempoolSize - mp.mempoolSize) := by
  have hlimit := h.limit
  have hmax := h.max_lt
  have hroom : u64 ((mp.maxMempoolSize : ℤ) - mp.mempoolSize) =
      mp.maxMempoolSize - mp.mempoolSize := by
    rw [u64_of_nonneg (by omega) (by omega)]
    omega
  simp only [LdMempool.addMemSz, hroom]
  split_ifs <;> omega

/-- Where a block is added it has room for the request. -/
theorem PoolCounted.le_addMemSz (h : PoolCounted mp) (hle : total ≤ mp.mempoolSize)
    (hno : mp.allocMempoolSize + total < 2 ^ 64) (hmore : ¬mp.Exhausted total) :
    total ≤ mp.addMemSz := by
  have hsum : u64 ((mp.allocMempoolSize : ℤ) + total) = mp.allocMempoolSize + total := by
    exact_mod_cast u64_natCast hno
  have hwithin : ¬mp.maxMempoolSize < mp.allocMempoolSize + total := by
    intro hlt
    apply hmore
    right
    rwa [hsum]
  have hfirst := h.first
  rw [h.addMemSz_eq]
  omega

theorem SameSizes.counted (h : SameSizes mp mp') (hmp : PoolCounted mp) : PoolCounted mp' where
  total := by rw [h.allocMempoolSize, h.blocks, hmp.total]
  first := by rw [h.mempoolSize, h.allocMempoolSize]; exact hmp.first
  limit := by rw [h.mempoolSize, h.maxMempoolSize]; exact hmp.limit
  max_lt := by rw [h.maxMempoolSize]; exact hmp.max_lt

theorem SameSizes.refl (mp : LdMempool) : SameSizes mp mp := ⟨rfl, rfl, rfl, rfl⟩

/-- Granting a chunk leaves the sizes. -/
theorem PoolHolds.search_sameSizes {a : ℕ} {mms : List MpMemory} {mem : Mem}
    (h : PoolHolds chunks mp live) (htotal : 41 ≤ total)
    (hsome : LdMempool.searchMemory mp.mempoolSize total mp.mem mp.mlist =
      some (some (a, mms, mem))) :
    SameSizes mp { mp with mlist := mms, mem := mem } := by
  obtain ⟨r, hr, hgranted⟩ := searchMemory_spec mp.mempoolSize htotal h.blocks
  rw [hsome] at hr
  cases hr
  obtain ⟨l₁, mm, l₂, mm', cs', hlist, rfl, hstep, -⟩ := hgranted a mms mem rfl
  exact ⟨rfl, rfl, rfl, by simp [hlist, hstep.size]⟩

/-- What a call leaves that added a block. -/
structure BlockAdded (mp mp' : LdMempool) : Prop where
  mempoolSize : mp'.mempoolSize = mp.mempoolSize
  maxMempoolSize : mp'.maxMempoolSize = mp.maxMempoolSize
  allocMempoolSize : mp'.allocMempoolSize = u64 (mp.allocMempoolSize + mp.addMemSz)
  blocks : mp'.mlist.map MpMemory.mempoolSize = mp.addMemSz :: mp.mlist.map MpMemory.mempoolSize

theorem BlockAdded.trans_same {mp'' : LdMempool} (h : BlockAdded mp mp') (h' : SameSizes mp' mp'') :
    BlockAdded mp mp'' where
  mempoolSize := h'.mempoolSize.trans h.mempoolSize
  maxMempoolSize := h'.maxMempoolSize.trans h.maxMempoolSize
  allocMempoolSize := h'.allocMempoolSize.trans h.allocMempoolSize
  blocks := h'.blocks.trans h.blocks

section Added

variable (h : BlockAdded mp mp') (hmp : PoolCounted mp)
include h hmp

theorem BlockAdded.sum_blocks :
    (mp'.mlist.map MpMemory.mempoolSize).sum = mp.allocMempoolSize + mp.addMemSz := by
  rw [h.blocks, List.sum_cons, ← hmp.total, Nat.add_comm]

omit hmp in
theorem BlockAdded.count (hlt : mp.allocMempoolSize + mp.addMemSz < 2 ^ 64) :
    mp'.allocMempoolSize = mp.allocMempoolSize + mp.addMemSz := by
  rw [h.allocMempoolSize]
  exact_mod_cast u64_natCast hlt

/-- With another block the limit is kept if and only if the block is not larger than what is left
of the limit. -/
theorem BlockAdded.withinLimit_iff :
    WithinLimit mp' ↔ mp.allocMempoolSize + mp.addMemSz ≤ mp.maxMempoolSize := by
  have hmax := hmp.max_lt
  constructor
  · rintro ⟨hcounted, hwithin⟩
    rw [hcounted, h.sum_blocks hmp, h.maxMempoolSize] at hwithin
    exact hwithin
  · intro hle
    rw [WithinLimit, h.count (by omega), h.sum_blocks hmp, h.maxMempoolSize]
    exact ⟨rfl, hle⟩

theorem BlockAdded.counted (hle : mp.allocMempoolSize + mp.addMemSz ≤ mp.maxMempoolSize) :
    PoolCounted mp' := by
  have hcount := h.count (hle.trans_lt hmp.max_lt)
  constructor
  · rw [hcount, h.sum_blocks hmp]
  · rw [h.mempoolSize, hcount]
    exact hmp.first.trans (Nat.le_add_right _ _)
  · rw [h.mempoolSize, h.maxMempoolSize]
    exact hmp.limit
  · rw [h.maxMempoolSize]
    exact hmp.max_lt

end Added

theorem not_hasRoom
    (hnone : LdMempool.searchMemory mp.mempoolSize total mp.mem mp.mlist = some none) :
    ¬HasRoom mp total := by
  rintro ⟨r, hsome⟩
  rw [hnone] at hsome
  cases hsome

/-- A block that was just added has a free chunk for the request. -/
theorem extend_hasRoom (hsize : mp.mempoolSize < 2 ^ 64) (htotal : 41 ≤ total)
    (hle : total ≤ mp.mempoolSize) (hadd : total ≤ mp.addMemSz)
    (hroom : s + sizeofMpMemory + mp.addMemSz ≤ 2 ^ 64) :
    ∃ mp', mp.extendMemoryList s = some mp' ∧ BlockAdded mp mp' ∧ HasRoom mp' total := by
  obtain ⟨mm, mem', hinit, hstart, hmsize, -, hb⟩ := initMemory_spec mp.mem
    (by simp [sizeofMpMemory] : 0 < s + sizeofMpMemory)
    (by simp only [mpChunkHeader]; omega : mpChunkHeader ≤ mp.addMemSz) hroom
  refine ⟨{ mp with
      mlist := mm :: mp.mlist, mem := mem'
      allocMempoolSize := u64 (mp.allocMempoolSize + mp.addMemSz) }, ?_, ⟨rfl, rfl, rfl, ?_⟩, ?_⟩
  · rw [LdMempool.extendMemoryList, hinit, Option.map_some]
  · rw [List.map_cons, hmsize]
  · have hnew : mm.allocMem = 0 ∧ mm.freeList = s + sizeofMpMemory := by
      obtain ⟨mem'', -, hpair⟩ := Option.map_eq_some_iff.mp hinit
      cases hpair
      exact ⟨rfl, rfl⟩
    have hfuel : [s + sizeofMpMemory].length < mm.mempoolSize + 1 := by
      rw [List.length_singleton]
      omega
    obtain ⟨r, hr, hfound, hsmall⟩ := findFree_spec total hb (List.nil_append _).symm hfuel
    have hbound : u64 ((mp.mempoolSize : ℤ) - mm.allocMem) = mp.mempoolSize := by
      rw [hnew.1, Nat.cast_zero, sub_zero]
      exact u64_natCast hsize
    have hhead : mm.freeList = [s + sizeofMpMemory].headD 0 := hnew.2
    rw [← hhead] at hr
    cases r with
    | none =>
      have hlt := hsmall rfl _ (List.mem_singleton_self _) (List.mem_singleton_self _)
      exact absurd hadd (Nat.not_le_of_lt hlt)
    | some a =>
      obtain ⟨c, hc, hfree, rfl, hcle⟩ := hfound a rfl
      obtain ⟨mm', mem'', cs', d, hgrant, -⟩ := grantChunk_spec hb hc hfree htotal hcle
      refine ⟨(c.addr, mm' :: mp.mlist, mem''), ?_⟩
      simp only [LdMempool.searchMemory, hbound, if_neg (Nat.not_lt_of_le hle), hr,
        Option.bind_some, hgrant, Option.map_some]

theorem FreshBlocks.head_room {n : ℕ} {mms : List MpMemory} (h : FreshBlocks n mms (s :: mallocs)) :
    FreshBlocks n mms [s] :=
  ⟨fun _ hx => h.room _ (List.mem_singleton.mp hx ▸ List.mem_cons_self),
    fun _ hx => h.unused _ (List.mem_singleton.mp hx ▸ List.mem_cons_self),
    List.pairwise_singleton _ _⟩

/-- A block is added and the request granted, without another look at `malloc`. -/
theorem PoolHolds.findFreeChunk_added (h : PoolHolds chunks mp live) (hmp : PoolCounted mp)
    (htotal : 41 ≤ total) (hle : total ≤ mp.mempoolSize)
    (hno : mp.allocMempoolSize + total < 2 ^ 64) (hroom : ¬HasRoom mp total)
    (hmore : ¬mp.Exhausted total) (hfresh : FreshBlocks mp.blockBytes mp.mlist [s]) :
    ∃ p mp', (∀ mallocs, LdMempool.findFreeChunk total (s :: mallocs) mp = some (p, mp')) ∧
      BlockAdded mp mp' := by
  have hadd := hmp.le_addMemSz hle hno hmore
  have haddLe := addMemSz_le mp
  have hsize := h.size_lt
  have hbytes : mp.blockBytes = sizeofMpMemory + mp.addMemSz := Nat.mod_eq_of_lt (by omega)
  have hstop := (hfresh.room s (List.mem_singleton_self s)).2
  have hauto : mp.autoExtend = true := by
    by_contra hfalse
    exact hmore (.inl (by simpa using hfalse))
  obtain ⟨mp₁, hextend, hadded, ⟨a, mms, mem⟩, hsome⟩ :=
    extend_hasRoom (s := s) (by omega) htotal hle hadd (by omega)
  obtain ⟨mp₂, chunks', hextend', h', -⟩ :=
    h.extend hauto (by simp only [mpChunkHeader]; omega) hfresh
  rw [hextend] at hextend'
  cases hextend'
  refine ⟨a + mpChunkHeader, { mp₁ with mlist := mms, mem := mem }, ?_,
    hadded.trans_same (h'.search_sameSizes htotal hsome)⟩
  intro mallocs
  have hnone : LdMempool.searchMemory mp.mempoolSize total mp.mem mp.mlist = some none := by
    rcases h.search htotal with hnone | ⟨a, mms, mem, -, hsome, -⟩
    · exact hnone
    · exact absurd ⟨_, hsome⟩ hroom
  rw [LdMempool.findFreeChunk, hnone, Option.bind_some]
  simp only [if_neg hmore, hextend, Option.bind_some]
  exact findFreeChunk_of_some mallocs hsome

/-- No block is added. -/
theorem PoolHolds.findFreeChunk_same (h : PoolHolds chunks mp live) (htotal : 41 ≤ total)
    (hsame : HasRoom mp total ∨ mp.Exhausted total ∨ mallocs = []) :
    ∃ p mp', LdMempool.findFreeChunk total mallocs mp = some (p, mp') ∧ SameSizes mp mp' := by
  rcases h.search htotal with hnone | ⟨a, mms, mem, -, hsome, -⟩
  · rcases hsame.resolve_left (not_hasRoom hnone) with hfull | rfl
    · exact ⟨0, mp, findFreeChunk_of_none mallocs hfull hnone, .refl mp⟩
    · refine ⟨0, mp, ?_, .refl mp⟩
      rw [LdMempool.findFreeChunk, hnone, Option.bind_some]
      exact ite_self _
  · exact ⟨_, _, findFreeChunk_of_some mallocs hsome, h.search_sameSizes htotal hsome⟩

/-- A call returns, and it adds a block or leaves the sizes. -/
theorem PoolHolds.alloc_sizes (h : PoolHolds chunks mp live) (hmp : PoolCounted mp)
    (hno : NoOverflow mp w) (hfresh : FreshBlocks mp.blockBytes mp.mlist mallocs) :
    ∃ p mp', mp.mempoolAlloc w mallocs = some (p, mp') ∧
      (NoBlockAdded mp w mallocs → SameSizes mp mp') ∧
      (¬NoBlockAdded mp w mallocs → BlockAdded mp mp') := by
  by_cases hzero : w = 0
  · exact ⟨0, mp, if_pos hzero, fun _ => .refl mp, fun hgrow => absurd (.inl hzero) hgrow⟩
  by_cases hlarge : mp.mempoolSize < LdMempool.totalNeeded w
  · refine ⟨0, mp, ?_, fun _ => .refl mp, fun hgrow => absurd (.inr (.inl hlarge)) hgrow⟩
    rw [LdMempool.mempoolAlloc, if_neg hzero, if_pos hlarge]
  obtain ⟨hw, hsum⟩ := hno.resolve_left hlarge
  have htotal := totalNeeded_of_lt hw
  rw [LdMempool.mempoolAlloc, if_neg hzero, if_neg hlarge]
  by_cases hsame : HasRoom mp (LdMempool.totalNeeded w) ∨
      mp.Exhausted (LdMempool.totalNeeded w) ∨ mallocs = []
  · obtain ⟨p, mp', hfind, hsizes⟩ := h.findFreeChunk_same (by omega) hsame
    exact ⟨p, mp', hfind, fun _ => hsizes, fun hgrow => absurd (.inr (.inr hsame)) hgrow⟩
  · simp only [not_or] at hsame
    obtain ⟨s, mallocs, rfl⟩ := List.exists_cons_of_ne_nil hsame.2.2
    obtain ⟨p, mp', hfind, hadded⟩ := h.findFreeChunk_added hmp (by omega) (by omega) hsum
      hsame.1 hsame.2.1 hfresh.head_room
    refine ⟨p, mp', hfind mallocs, ?_, fun _ => hadded⟩
    rintro (hw0 | hrefused | hroom | hfull | hnil)
    · exact absurd hw0 hzero
    · exact absurd hrefused hlarge
    · exact absurd hroom hsame.1
    · exact absurd hfull hsame.2.1
    · cases hnil

/-- Whatever `malloc` would give later, a call looks at most once. -/
theorem PoolHolds.alloc_once (h : PoolHolds chunks mp live) (hmp : PoolCounted mp)
    (hno : NoOverflow mp w) (hfresh : FreshBlocks mp.blockBytes mp.mlist [s])
    (mallocs mallocs' : List ℕ) :
    mp.mempoolAlloc w (s :: mallocs) = mp.mempoolAlloc w (s :: mallocs') := by
  unfold LdMempool.mempoolAlloc
  split_ifs with hzero hlarge
  · rfl
  · rfl
  · obtain ⟨hw, hsum⟩ := hno.resolve_left hlarge
    have htotal := totalNeeded_of_lt hw
    rcases h.search (by omega : 41 ≤ LdMempool.totalNeeded w) with
      hnone | ⟨a, mms, mem, -, hsome, -⟩
    · by_cases hfull : mp.Exhausted (LdMempool.totalNeeded w)
      · rw [findFreeChunk_of_none _ hfull hnone, findFreeChunk_of_none _ hfull hnone]
      · obtain ⟨p, mp', hfind, -⟩ := h.findFreeChunk_added hmp (by omega) (by omega) hsum
          (not_hasRoom hnone) hfull hfresh
        rw [hfind, hfind]
    · rw [findFreeChunk_of_some _ hsome, findFreeChunk_of_some _ hsome]

theorem PoolCounted.within_iff (hmp : PoolCounted mp)
    (hlimit : mp.allocMempoolSize ≤ mp.maxMempoolSize)
    (hsame : NoBlockAdded mp w mallocs → SameSizes mp mp')
    (hadded : ¬NoBlockAdded mp w mallocs → BlockAdded mp mp') :
    (WithinLimit mp' ↔ BlockFits mp w mallocs) ∧ (BlockFits mp w mallocs → PoolCounted mp') := by
  by_cases hno : NoBlockAdded mp w mallocs
  · have hsizes := hsame hno
    have hcounted := hsizes.counted hmp
    have hwithin : WithinLimit mp' := by
      refine ⟨hcounted.total, ?_⟩
      rwa [hsizes.allocMempoolSize, hsizes.maxMempoolSize]
    exact ⟨⟨fun _ => .inl hno, fun _ => hwithin⟩, fun _ => hcounted⟩
  · have hblock := hadded hno
    have hfits : BlockFits mp w mallocs ↔
        mp.allocMempoolSize + mp.addMemSz ≤ mp.maxMempoolSize := by
      rw [BlockFits, hmp.addMemSz_eq]
      exact or_iff_right hno
    rw [hfits]
    exact ⟨hblock.withinLimit_iff hmp, hblock.counted hmp⟩

/-! ### Runs -/

/-- The condition on a call: `malloc` gives memory of its own, sizes are computed without overflow
and a block that is added keeps the limit; a pointer that is freed is live and its block found. -/
def LimitMeets (s : PoolState) : PoolOp → Prop
  | .alloc wantsize mallocs => FreshBlocks s.pool.blockBytes s.pool.mlist mallocs ∧
      NoOverflow s.pool wantsize ∧ BlockFits s.pool wantsize mallocs
  | .free p => p ∈ s.live.map Prod.fst ∧ FreeFits s.pool s.live p
  | .write p bytes => PoolLegal s (.write p bytes)

/-- A pool within its limit. -/
def LimitHolds (s : PoolState) : Prop :=
  (∃ chunks, PoolHolds chunks s.pool s.live) ∧ PoolCounted s.pool ∧
    s.pool.allocMempoolSize ≤ s.pool.maxMempoolSize

variable {s₀ t : PoolState}

theorem NoOverflow.requestFits (h : NoOverflow mp w) (hmp : PoolCounted mp) : RequestFits mp w := by
  by_cases hlarge : mp.mempoolSize < LdMempool.totalNeeded w
  · exact .inl hlarge
  · obtain ⟨hw, hsum⟩ := h.resolve_left hlarge
    have htotal := totalNeeded_of_lt hw
    refine .inr ⟨hw, ?_⟩
    by_cases hfull : mp.Exhausted (LdMempool.totalNeeded w)
    · exact .inr hfull
    · have hadd := hmp.le_addMemSz (by omega) hsum hfull
      left
      rw [mpChunkHeader]
      omega

/-- A call returns; it keeps the limit if and only if the block that it may add does. -/
theorem LimitHolds.alloc (h : LimitHolds s₀)
    (hfresh : FreshBlocks s₀.pool.blockBytes s₀.pool.mlist mallocs) (hno : NoOverflow s₀.pool w) :
    ∃ t, poolStep s₀ (.alloc w mallocs) = some t ∧
      (WithinLimit t.pool ↔ BlockFits s₀.pool w mallocs) ∧
      (BlockFits s₀.pool w mallocs → LimitHolds t) := by
  obtain ⟨⟨chunks, hholds⟩, hcounted, hlimit⟩ := h
  obtain ⟨p, mp', halloc, hsame, hadded⟩ := hholds.alloc_sizes hcounted hno hfresh
  obtain ⟨hiff, hkeeps⟩ := hcounted.within_iff hlimit hsame hadded
  have hlive : ∃ chunks', PoolHolds chunks' mp' (if p = 0 then s₀.live else (p, w) :: s₀.live) := by
    by_cases hzero : w = 0
    · rw [LdMempool.mempoolAlloc, if_pos hzero] at halloc
      cases halloc
      exact ⟨chunks, hholds⟩
    · obtain ⟨p', mp'', chunks', halloc', h'⟩ :=
        hholds.alloc (Nat.pos_of_ne_zero hzero) (hno.requestFits hcounted) hfresh
      rw [halloc] at halloc'
      cases halloc'
      exact ⟨chunks', h'⟩
  refine ⟨⟨mp', if p = 0 then s₀.live else (p, w) :: s₀.live⟩, ?_, hiff, ?_⟩
  · rw [poolStep, halloc, Option.map_some]
  · intro hfits
    exact ⟨hlive, hkeeps hfits, (hiff.mpr hfits).2⟩

/-- Every call that meets the condition returns and keeps the limit. -/
theorem LimitHolds.step (h : LimitHolds s₀) {op : PoolOp} (hop : LimitMeets s₀ op) :
    ∃ t, poolStep s₀ op = some t ∧ LimitHolds t := by
  cases op with
  | alloc w mallocs =>
    obtain ⟨hfresh, hno, hfits⟩ := hop
    obtain ⟨t, hstep, -, hkeeps⟩ := h.alloc hfresh hno
    exact ⟨t, hstep, hkeeps hfits⟩
  | free p =>
    obtain ⟨⟨chunks, hholds⟩, hcounted, hlimit⟩ := h
    obtain ⟨hlive, hfits⟩ := hop
    obtain ⟨⟨p', w⟩, he, rfl⟩ := List.mem_map.mp hlive
    obtain ⟨mp', chunks', hfree, h', hsizes⟩ := hholds.free he hfits
    refine ⟨⟨mp', s₀.live.filter fun e => e.1 ≠ p'⟩, ?_, ⟨chunks', h'⟩, hsizes.counted hcounted, ?_⟩
    · rw [poolStep, hfree, Option.map_some]
    · rwa [hsizes.allocMempoolSize, hsizes.maxMempoolSize]
  | write p bytes =>
    obtain ⟨⟨chunks, hholds⟩, hcounted, hlimit⟩ := h
    have hlegal : PoolLegal s₀ (.write p bytes) := hop
    obtain ⟨t, chunks', hstep, h'⟩ := poolStep_holds hholds hlegal trivial
    cases hstep
    exact ⟨_, rfl, ⟨chunks', h'⟩, ⟨hcounted.total, hcounted.first, hcounted.limit, hcounted.max_lt⟩,
      hlimit⟩

/-- **The limit.** In every run whose calls meet the condition the blocks are counted and keep the
limit. There a request whose sizes do not overflow returns, having asked `malloc` for one block at
most, and keeps the limit if and only if the block that it may add does. -/
theorem memory_limit_kept (junk : Bool) {maxMempoolSize mempoolSize start : ℕ} (mem : Mem)
    (hmax : mempoolSize ≤ maxMempoolSize) (hmaxLt : maxMempoolSize < 2 ^ 64) (hpos : 0 < start)
    (hroom : start + (sizeofMpMemory + mempoolSize) % 2 ^ 64 ≤ 2 ^ 64)
    (hwide : mpChunkHeader ≤ mempoolSize) (hlt : sizeofMpMemory + mempoolSize < 2 ^ 64) :
    ∃ mp, LdMempool.mempoolInit junk maxMempoolSize mempoolSize start mem = some (some mp) ∧
      ∀ s, Reaches poolStep LimitMeets ⟨mp, []⟩ s → WithinLimit s.pool ∧
        ∀ w, NoOverflow s.pool w →
          (∀ mallocs, FreshBlocks s.pool.blockBytes s.pool.mlist mallocs →
            ∃ t, poolStep s (.alloc w mallocs) = some t ∧
              (WithinLimit t.pool ↔ BlockFits s.pool w mallocs)) ∧
          ∀ a, FreshBlocks s.pool.blockBytes s.pool.mlist [a] → ∀ mallocs mallocs',
            s.pool.mempoolAlloc w (a :: mallocs) = s.pool.mempoolAlloc w (a :: mallocs') := by
  obtain ⟨mp, chunks, hinit, hholds⟩ := mempoolInit_holds junk mem hmax hpos hroom hwide hlt
  refine ⟨mp, hinit, ?_⟩
  have hstart : LimitHolds ⟨mp, []⟩ := by
    rw [LdMempool.mempoolInit, if_neg (by omega)] at hinit
    obtain ⟨⟨mm, mem'⟩, hmemory, hmp⟩ := Option.map_eq_some_iff.mp hinit
    have hsize : mm.mempoolSize = mempoolSize := by
      obtain ⟨mem'', -, hpair⟩ := Option.map_eq_some_iff.mp hmemory
      cases hpair
      rfl
    cases hmp
    exact ⟨⟨chunks, hholds⟩, ⟨by simp [hsize], le_rfl, hmax, hmaxLt⟩, hmax⟩
  intro s hs
  have h : LimitHolds s :=
    (hs.invariant_of_total hstart fun _ _ hinv hop => hinv.step hop).1
  obtain ⟨⟨chunks', hholds'⟩, hcounted, hlimit⟩ := h
  refine ⟨⟨hcounted.total, hlimit⟩, ?_⟩
  intro w hno
  constructor
  · intro mallocs hfresh
    obtain ⟨t, hstep, hiff, -⟩ := LimitHolds.alloc ⟨⟨chunks', hholds'⟩, hcounted, hlimit⟩ hfresh hno
    exact ⟨t, hstep, hiff⟩
  · intro a hfresh mallocs mallocs'
    exact hholds'.alloc_once hcounted hno hfresh mallocs mallocs'

/-- The first request of a pool of 200 bytes with a limit of 500. -/
theorem memory_limit_kept_first : ∃ mp t,
    LdMempool.mempoolInit false 500 200 1000 (fun _ => 0) = some (some mp) ∧
      poolStep ⟨mp, []⟩ (.alloc 150 []) = some t ∧ WithinLimit t.pool := by
  obtain ⟨mp, hinit, hkept⟩ := memory_limit_kept false (fun _ => 0)
    (by decide : 200 ≤ 500) (by decide) (by decide : 0 < 1000) (by decide) (by decide) (by decide)
  have hsizes : (LdMempool.mempoolInit false 500 200 1000 fun _ => 0).map (Option.map fun mp =>
      decide (NoOverflow mp 150)) = some (some true) := by decide +kernel
  rw [hinit] at hsizes
  simp only [Option.map_some, Option.some.injEq, decide_eq_true_eq] at hsizes
  have hfresh : FreshBlocks mp.blockBytes mp.mlist [] := ⟨by simp, by simp, .nil⟩
  obtain ⟨t, hstep, hiff⟩ := ((hkept _ .start).2 150 hsizes).1 [] hfresh
  exact ⟨mp, t, hinit, hstep, hiff.mpr (.inl (.inr (.inr (.inr (.inr rfl)))))⟩

/-- Three requests of which the third one adds a third block: 600 bytes with a limit of 500. -/
theorem memory_limit_exceeded : ∃ mp s,
    LdMempool.mempoolInit false 500 200 1000 (fun _ => 0) = some (some mp) ∧
      Reaches poolStep PoolLegal ⟨mp, []⟩ s ∧ s.live.length = 3 ∧
      s.pool.allocMempoolSize = 600 ∧ ¬WithinLimit s.pool := by
  have hrun : (poolRun 500 200 [.alloc 150 [], .alloc 150 [2000], .alloc 50 [3000]]).map (fun s =>
      (s.live.length, s.pool.allocMempoolSize, s.pool.maxMempoolSize)) = some (3, 600, 500) := by
    decide +kernel
  obtain ⟨s, hs, hlast⟩ := Option.map_eq_some_iff.mp hrun
  obtain ⟨mp, hinit, hreach⟩ := reaches_of_poolRun hs
  simp only [Prod.mk.injEq] at hlast
  obtain ⟨hlive, halloc, hmax⟩ := hlast
  refine ⟨mp, s, hinit, hreach, hlive, halloc, ?_⟩
  rintro ⟨-, hle⟩
  omega

end LdacsSdk
