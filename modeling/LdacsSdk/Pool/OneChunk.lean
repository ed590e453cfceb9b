import LdacsSdk.Library.Coalescing
import LdacsSdk.Pool.LiveAllocations

/-!
# Freeing everything

A pool that is not extended has one block. Its allocated chunks are those of the live allocations,
its counters are their sums, and no two free chunks are neighbours, so that the block is one free
chunk again when nothing is live.
-/
namespace LdacsSdk

open Library

/-- The allocated chunks. -/
def allocated (cs : List MpPiece) : List MpPiece := cs.filter fun c => c.free == false

/-- The part of a chunk that is not for its header and the pointer at its end. -/
def MpPiece.progSize (c : MpPiece) : ℕ := c.size - mpChunkHeader - mpChunkEnd

/-- No two free chunks are neighbours, the allocated ones are those of the live allocations, and the
counters are their sums. -/
structure BlockExact (mm : MpMemory) (cs : List MpPiece) (live : List (ℕ × ℕ)) : Prop where
  sparse : Sparse (fun c => c.free = true) cs
  pointers : ((allocated cs).map fun c => c.addr + mpChunkHeader).Perm (live.map Prod.fst)
  owned : ∀ e ∈ live, Owned cs e
  allocMem : mm.allocMem = ((allocated cs).map MpPiece.size).sum
  allocProgMem : mm.allocProgMem = ((allocated cs).map MpPiece.progSize).sum

variable {mm mm' : MpMemory} {mem mem' : Mem} {cs cs' pre post : List MpPiece} {c d : MpPiece}
  {live : List (ℕ × ℕ)} {fl al mallocs : List ℕ} {p w total : ℕ} {mp : LdMempool}

theorem mem_allocated : c ∈ allocated cs ↔ c ∈ cs ∧ c.free = false := by
  simp [allocated]

theorem allocated_append (pre post : List MpPiece) :
    allocated (pre ++ post) = allocated pre ++ allocated post := List.filter_append ..

theorem allocated_cons_of_free (h : c.free = true) : allocated (c :: cs) = allocated cs := by
  simp [allocated, h]

theorem allocated_cons_of_not_free (h : c.free = false) :
    allocated (c :: cs) = c :: allocated cs := by
  simp [allocated, h]

theorem allocated_of_free (h : ∀ c ∈ cs, c.free = true) : allocated cs = [] := by
  apply List.filter_eq_nil_iff.mpr
  intro c hc
  simp [h c hc]

/-! ### The chunks of a step -/

theorem CarvedFrom.sparse (h : CarvedFrom cs cs' d) (hsparse : Sparse (fun c => c.free = true) cs) :
    Sparse (fun c => c.free = true) cs' := by
  obtain ⟨pre, c, rest, post, rfl, rfl, hfree, -, hrest⟩ := h.chunks
  apply hsparse.carve hfree
  · simp [h.free]
  · cases rest with
    | nil => exact Nat.zero_le 1
    | cons f rest =>
      rw [(hrest f rfl).1]
      exact Nat.le_refl 1

theorem CarvedFrom.allocated (h : CarvedFrom cs cs' d) :
    (allocated cs').Perm (d :: allocated cs) := by
  obtain ⟨pre, c, rest, post, rfl, rfl, hfree, -, hrest⟩ := h.chunks
  have hnone : LdacsSdk.allocated rest = [] := by
    apply allocated_of_free
    cases rest with
    | nil => simp
    | cons f rest =>
      obtain ⟨hone, hf⟩ := hrest f rfl
      rw [hone]
      simpa using hf
  rw [allocated_append, allocated_append, allocated_cons_of_not_free h.free,
    allocated_cons_of_free hfree, allocated_append, hnone, List.nil_append]
  exact List.perm_middle

theorem Coalesced.sparse (h : Coalesced pre post cs')
    (hsparse : Sparse (fun c => c.free = true) (pre ++ c :: post)) :
    Sparse (fun c => c.free = true) cs' := by
  obtain ⟨front, r₁, q, r₂, back, hpre, hpost, rfl, -, -, hlast, hnext⟩ := h
  apply hsparse.coalesce hpre hpost
  · intro a ha
    simp [hlast a ha]
  · intro b hb
    simp [hnext b hb]

theorem Coalesced.allocated (h : Coalesced pre post cs') (hc : c.free = false) :
    (allocated (pre ++ c :: post)).Perm (c :: allocated cs') := by
  obtain ⟨front, r₁, q, r₂, back, rfl, rfl, rfl, hq, hruns, -, -⟩ := h
  have h₁ : LdacsSdk.allocated r₁ = [] := allocated_of_free fun x hx => hruns x (by simp [hx])
  have h₂ : LdacsSdk.allocated r₂ = [] := allocated_of_free fun x hx => hruns x (by simp [hx])
  simp only [allocated_append, allocated_cons_of_not_free hc, allocated_cons_of_free hq, h₁, h₂,
    List.append_nil, List.nil_append]
  exact List.perm_middle

/-- The pointers of the allocated chunks that stay. -/
theorem Coalesced.pointers (h : Coalesced pre post cs') (hc : c.free = false)
    (hlay : ChunkLayout mm (pre ++ c :: post)) {ps : List ℕ}
    (hps : ((LdacsSdk.allocated (pre ++ c :: post)).map fun x => x.addr + mpChunkHeader).Perm ps) :
    ((LdacsSdk.allocated cs').map fun x => x.addr + mpChunkHeader).Perm
      (ps.filter fun a => a ≠ c.addr + mpChunkHeader) := by
  have hperm := h.allocated hc
  have hfresh : c.addr ∉ (LdacsSdk.allocated cs').map MpPiece.addr := by
    have hnodup : ((LdacsSdk.allocated (pre ++ c :: post)).map MpPiece.addr).Nodup :=
      hlay.nodup.sublist (List.filter_sublist.map _)
    rw [(hperm.map _).nodup_iff, List.map_cons, List.nodup_cons] at hnodup
    exact hnodup.1
  have hrest : ((LdacsSdk.allocated cs').map fun x => x.addr + mpChunkHeader).filter
      (fun a => a ≠ c.addr + mpChunkHeader) =
        (LdacsSdk.allocated cs').map fun x => x.addr + mpChunkHeader := by
    apply List.filter_eq_self.mpr
    intro a ha
    obtain ⟨x, hx, rfl⟩ := List.mem_map.mp ha
    have hne : x.addr ≠ c.addr := fun heq => hfresh (heq ▸ List.mem_map_of_mem hx)
    simpa using hne
  have hall := ((hperm.map fun x => x.addr + mpChunkHeader).symm.trans hps).filter
    fun a => a ≠ c.addr + mpChunkHeader
  rwa [List.map_cons, List.filter_cons_of_neg (by simp), hrest] at hall

/-- The allocated chunks are not larger than the block. -/
theorem ChunkLayout.sum_allocated_le (h : ChunkLayout mm cs) :
    ((allocated cs).map MpPiece.size).sum ≤ mm.mempoolSize := by
  have htotal := h.tiling.sum_size
  have hle : ((allocated cs).map MpPiece.size).sum ≤ (cs.map MpPiece.size).sum :=
    (List.filter_sublist.map _).sum_le_sum fun _ _ => Nat.zero_le _
  have hstop : mm.stop = mm.start + mm.mempoolSize := rfl
  omega

theorem sum_progSize_le (cs : List MpPiece) :
    (cs.map MpPiece.progSize).sum ≤ (cs.map MpPiece.size).sum := by
  apply List.sum_le_sum
  intro c _
  exact le_trans (Nat.sub_le _ _) (Nat.sub_le _ _)

theorem ChunkLayout.mempoolSize_lt (h : ChunkLayout mm cs) : mm.mempoolSize < 2 ^ 64 := by
  have hpos := h.start_pos
  have hle := h.stop_le
  have hstop : mm.stop = mm.start + mm.mempoolSize := rfl
  omega

/-! ### The operations -/

theorem MpPiece.cast_progSize (h : 40 ≤ c.size) :
    (c.progSize : ℤ) = c.size - mpChunkHeader - mpChunkEnd := by
  unfold MpPiece.progSize mpChunkHeader mpChunkEnd
  omega

section Operations

variable (h : BlockExact mm cs live)

include h

/-- A chunk is granted. -/
theorem BlockExact.grant (hlay : ChunkLayout mm' cs') (hcarved : CarvedFrom cs cs' d) (hw : 0 < w)
    (hsize : w + 40 ≤ d.size) (hmem : mm'.allocMem = u64 (mm.allocMem + d.size))
    (hprog : mm'.allocProgMem = u64 (mm.allocProgMem + (d.size - mpChunkHeader - mpChunkEnd))) :
    BlockExact mm' cs' ((d.addr + mpChunkHeader, w) :: live) := by
  have hperm := hcarved.allocated
  have hsum : ((allocated cs').map MpPiece.size).sum = mm.allocMem + d.size := by
    rw [(hperm.map _).sum_eq, List.map_cons, List.sum_cons, h.allocMem, Nat.add_comm]
  have hprogSum : ((allocated cs').map MpPiece.progSize).sum = mm.allocProgMem + d.progSize := by
    rw [(hperm.map _).sum_eq, List.map_cons, List.sum_cons, h.allocProgMem, Nat.add_comm]
  have hle := hlay.sum_allocated_le
  have hprogLe := sum_progSize_le (allocated cs')
  have hlt := hlay.mempoolSize_lt
  refine ⟨hcarved.sparse h.sparse, (hperm.map _).trans (h.pointers.cons _), ?_, ?_, ?_⟩
  · intro e he
    rcases List.mem_cons.mp he with rfl | he
    · have hd := mem_allocated.mp (hperm.mem_iff.mpr List.mem_cons_self)
      exact ⟨hw, d, hd.1, hd.2, rfl, hsize⟩
    · obtain ⟨hpos, c, hc, hfree, hrest⟩ := h.owned e he
      have hkept := mem_allocated.mp (hperm.mem_iff.mpr
        (List.mem_cons_of_mem d (mem_allocated.mpr ⟨hc, hfree⟩)))
      exact ⟨hpos, c, hkept.1, hfree, hrest⟩
  · rw [hmem, hsum]
    exact_mod_cast u64_natCast (by omega)
  · rw [hprog, hprogSum, ← MpPiece.cast_progSize (by omega)]
    exact_mod_cast u64_natCast (by omega)

/-- The chunk of a live allocation. -/
theorem BlockExact.exists_chunk (hp : p ∈ live.map Prod.fst) :
    ∃ c ∈ cs, c.free = false ∧ c.addr + mpChunkHeader = p ∧ 41 ≤ c.size := by
  obtain ⟨e, he, rfl⟩ := List.mem_map.mp hp
  obtain ⟨hpos, c, hc, hfree, haddr, hsize⟩ := h.owned e he
  exact ⟨c, hc, hfree, haddr, by omega⟩

/-- A chunk is freed. -/
theorem BlockExact.release (hlay : ChunkLayout mm (pre ++ c :: post))
    (hcs : cs = pre ++ c :: post) (hcoalesced : Coalesced pre post cs') (hfree : c.free = false)
    (hsize : 41 ≤ c.size) (hmem : mm'.allocMem = u64 (mm.allocMem - c.size))
    (hprog : mm'.allocProgMem = u64 (mm.allocProgMem - (c.size - mpChunkHeader - mpChunkEnd))) :
    BlockExact mm' cs' (live.filter fun e => e.1 ≠ c.addr + mpChunkHeader) := by
  subst hcs
  have hperm := hcoalesced.allocated hfree
  have hsum : mm.allocMem = c.size + ((allocated cs').map MpPiece.size).sum := by
    rw [h.allocMem, (hperm.map _).sum_eq, List.map_cons, List.sum_cons]
  have hprogSum : mm.allocProgMem = c.progSize + ((allocated cs').map MpPiece.progSize).sum := by
    rw [h.allocProgMem, (hperm.map _).sum_eq, List.map_cons, List.sum_cons]
  have hle := hlay.sum_allocated_le
  have hprogLe := sum_progSize_le (allocated (pre ++ c :: post))
  have hlt := hlay.mempoolSize_lt
  rw [← h.allocMem] at hle hprogLe
  rw [← h.allocProgMem] at hprogLe
  refine ⟨hcoalesced.sparse h.sparse, ?_, ?_, ?_, ?_⟩
  · have hpointers := hcoalesced.pointers hfree hlay h.pointers
    rw [List.filter_map] at hpointers
    exact hpointers
  · intro e he
    obtain ⟨hmem', hne⟩ := List.mem_filter.mp he
    obtain ⟨hpos, d, hd, hdfree, haddr, hrest⟩ := h.owned e hmem'
    have hd' := hperm.mem_iff.mp (mem_allocated.mpr ⟨hd, hdfree⟩)
    rcases List.mem_cons.mp hd' with rfl | hd'
    · simp only [ne_eq, decide_eq_true_eq] at hne
      exact absurd haddr.symm hne
    · exact ⟨hpos, d, (mem_allocated.mp hd').1, hdfree, haddr, hrest⟩
  · rw [hmem, hsum, u64_of_nonneg (by omega) (by omega)]
    omega
  · rw [hprog, ← MpPiece.cast_progSize (by omega), hprogSum, u64_of_nonneg (by omega) (by omega)]
    omega

end Operations

/-- Without live allocations there is one chunk, which is free. -/
theorem BlockExact.eq_singleton (h : BlockExact mm cs []) (hlay : ChunkLayout mm cs)
    (hpos : 0 < mm.mempoolSize) :
    (∃ c, cs = [c] ∧ c.free = true) ∧ mm.allocMem = 0 ∧ mm.allocProgMem = 0 := by
  have hnone : allocated cs = [] := List.map_eq_nil_iff.mp h.pointers.eq_nil
  have hall : ∀ c ∈ cs, c.free = true := by
    intro c hc
    by_contra hfree
    have hmem : c ∈ allocated cs := mem_allocated.mpr ⟨hc, by simpa using hfree⟩
    rw [hnone] at hmem
    cases hmem
  have hlength := h.sparse.length_le_one hall
  refine ⟨?_, ?_, ?_⟩
  · cases cs with
    | nil =>
      have hempty : mm.start = mm.stop := hlay.tiling
      have hstop : mm.stop = mm.start + mm.mempoolSize := rfl
      omega
    | cons c cs =>
      have hone : cs = [] := List.eq_nil_of_length_eq_zero (by
        rw [List.length_cons] at hlength
        omega)
      exact ⟨c, by rw [hone], hall c List.mem_cons_self⟩
  · rw [h.allocMem, hnone]
    rfl
  · rw [h.allocProgMem, hnone]
    rfl

/-- The lists and the header where the whole block is one free chunk. -/
theorem BlockHolds.of_single (hb : BlockHolds 0 [] mem mm [c] fl al) (hfree : c.free = true) :
    mm.freeList = mm.start ∧ mm.allocList = 0 ∧
      ∃ flag, flag ≠ 0 ∧ readChunk mem mm.start = ⟨mm.mempoolSize, 0, 0, flag⟩ := by
  have hstop : mm.stop = mm.start + mm.mempoolSize := rfl
  have haddr : c.addr = mm.start := hb.layout.tiling.1
  have hend : mm.start + c.size = mm.stop := hb.layout.tiling.2
  obtain ⟨hmem, hflag⟩ := hb.headers c List.mem_cons_self
  have hfrees : fl = [c.addr] := by
    have hperm := hb.frees
    rw [addrsOf, List.filter_cons_of_pos (by simp [hfree])] at hperm
    exact List.perm_singleton.mp hperm
  have hallocs : al = [] := by
    have hperm := hb.allocs
    rw [List.nil_append, addrsOf, List.filter_cons_of_neg (by simp [hfree])] at hperm
    exact hperm.eq_nil
  have hne : c.addr ≠ 0 := hb.layout.spaced.ne_zero _ (heads_of_mem List.mem_cons_self)
  have hallocList := hb.allocList
  rw [hallocs] at hallocList
  have hfreeList : Threaded (nextOf mm.freeList mem) (prevOf mem) ([] ++ c.addr :: []) :=
    hfrees ▸ hb.freeList
  have hnext : nextOf mm.freeList mem c.addr = 0 := hfreeList.follow
  have hprev : prevOf mem c.addr = 0 := (List.isChain_cons_cons.mp hfreeList.chain).1.2 hne
  rw [nextOf, if_neg hne] at hnext
  rw [prevOf] at hprev
  refine ⟨hfreeList.head.trans haddr, hallocList.head, (readChunk mem mm.start).isFree, ?_, ?_⟩
  · rw [← haddr]
    intro hzero
    rw [hflag.mp hzero] at hfree
    cases hfree
  · rw [← haddr]
    generalize readChunk mem c.addr = header at hmem hnext hprev ⊢
    obtain ⟨allocMem, prev, next, isFree⟩ := header
    simp only [MpChunk.mk.injEq] at hmem hnext hprev ⊢
    exact ⟨by omega, hprev, hnext, trivial⟩

/-! ### Runs -/

/-- The calls: requests of at most the size of the pool, and live pointers that are freed; the user
writes to live allocations and outside of the blocks. -/
def PoolCall (s : PoolState) : PoolOp → Prop
  | .alloc wantsize _ => wantsize ≤ s.pool.mempoolSize
  | .free p => p ∈ s.live.map Prod.fst
  | .write p bytes => PoolLegal s (.write p bytes)

instance : (s : PoolState) → (op : PoolOp) → Decidable (PoolCall s op)
  | s, .alloc wantsize _ => inferInstanceAs (Decidable (wantsize ≤ s.pool.mempoolSize))
  | s, .free p => inferInstanceAs (Decidable (p ∈ s.live.map Prod.fst))
  | s, .write p bytes => inferInstanceAs (Decidable (PoolLegal s (.write p bytes)))

/-- The pool has one block, which holds its live allocations exactly. -/
def PoolExact (size : ℕ) (s : PoolState) : Prop :=
  ∃ mm cs fl al, s.pool.mlist = [mm] ∧ mm.mempoolSize = size ∧
    BlockHolds 0 [] s.pool.mem mm cs fl al ∧ BlockExact mm cs s.live

/-- The only block is one free chunk of the full size. -/
def OneFreeChunk (size : ℕ) (s : PoolState) : Prop :=
  ∃ mm, s.pool.mlist = [mm] ∧ mm.mempoolSize = size ∧ mm.freeList = mm.start ∧ mm.allocList = 0 ∧
    (∃ flag, flag ≠ 0 ∧ readChunk s.pool.mem mm.start = ⟨size, 0, 0, flag⟩) ∧
    mm.allocMem = 0 ∧ mm.allocProgMem = 0

/-- The limit of the pool is its size, and it is one block. -/
structure PoolFixed (size : ℕ) (mp : LdMempool) : Prop where
  mempoolSize : mp.mempoolSize = size
  maxMempoolSize : mp.maxMempoolSize = size
  allocMempoolSize : mp.allocMempoolSize = size

variable {size start : ℕ} {s t : PoolState}

theorem PoolFixed.exhausted (h : PoolFixed size mp) (hmax : size < 2 ^ 63) (htotal : 0 < total)
    (hle : total ≤ size) : mp.Exhausted total := by
  right
  have hsum : u64 (mp.allocMempoolSize + total) = size + total := by
    rw [h.allocMempoolSize]
    exact_mod_cast u64_natCast (by omega)
  rw [h.maxMempoolSize, hsum]
  omega

theorem PoolExact.alloc (h : PoolExact size s) (hfixed : PoolFixed size s.pool)
    (hmax : size < 2 ^ 63) (hw : w ≤ size) (mallocs : List ℕ) :
    ∃ t, poolStep s (.alloc w mallocs) = some t ∧ PoolExact size t ∧ PoolFixed size t.pool := by
  have hrefused (hnull : s.pool.mempoolAlloc w mallocs = some (0, s.pool)) :
      ∃ t, poolStep s (.alloc w mallocs) = some t ∧ PoolExact size t ∧ PoolFixed size t.pool :=
    ⟨s, by rw [poolStep, hnull]; rfl, h, hfixed⟩
  by_cases hzero : w = 0
  · exact hrefused (if_pos hzero)
  have htotal := totalNeeded_of_lt (w := w) (by omega)
  by_cases hlarge : LdMempool.totalNeeded w > s.pool.mempoolSize
  · apply hrefused
    rw [LdMempool.mempoolAlloc, if_neg hzero, if_pos hlarge]
  have hfind : s.pool.mempoolAlloc w mallocs =
      LdMempool.findFreeChunk (LdMempool.totalNeeded w) mallocs s.pool := by
    rw [LdMempool.mempoolAlloc, if_neg hzero, if_neg hlarge]
  obtain ⟨mm, cs, fl, al, hlist, hsize, hb, hexact⟩ := h
  let chunks : ℕ → List MpPiece := fun _ => cs
  have hblocks : ∀ x ∈ s.pool.mlist, ∃ fl al,
      BlockHolds 0 [] s.pool.mem x (chunks x.start) fl al := by
    intro x hx
    rw [hlist, List.mem_singleton] at hx
    subst hx
    exact ⟨fl, al, hb⟩
  obtain ⟨r, hr, hgranted⟩ := searchMemory_spec s.pool.mempoolSize
    (by omega : 41 ≤ LdMempool.totalNeeded w) hblocks
  cases r with
  | none =>
    have hmempool := hfixed.mempoolSize
    apply hrefused
    rw [hfind]
    exact findFreeChunk_of_none mallocs (hfixed.exhausted hmax (by omega) (by omega)) hr
  | some r =>
    obtain ⟨a, mms, mem'⟩ := r
    obtain ⟨l₁, x, l₂, mm', cs', hmms, rfl, hstep, d, hcarved, rfl, hle, hmem, hprog⟩ :=
      hgranted a mms mem' rfl
    rw [hlist] at hmms
    rcases List.append_eq_singleton_iff.mp hmms.symm with ⟨rfl, hx⟩ | ⟨-, hx⟩
    · cases hx
      obtain ⟨fl', al', hb'⟩ := hstep.holds
      refine ⟨⟨{ s.pool with mlist := [mm'], mem := mem' }, (d.addr + mpChunkHeader, w) :: s.live⟩,
        ?_, ⟨mm', cs', fl', al', rfl, hstep.size.trans hsize, hb', ?_⟩, ?_⟩
      · have hne : d.addr + mpChunkHeader ≠ 0 := by simp [mpChunkHeader]
        rw [poolStep, hfind, findFreeChunk_of_some mallocs hr, Option.map_some]
        simp only [if_neg hne, List.nil_append]
      · exact hexact.grant hb'.layout hcarved (by omega) (by omega) hmem hprog
      · exact ⟨hfixed.mempoolSize, hfixed.maxMempoolSize, hfixed.allocMempoolSize⟩
    · cases hx

theorem PoolExact.free (h : PoolExact size s) (hfixed : PoolFixed size s.pool)
    (hp : p ∈ s.live.map Prod.fst) :
    ∃ t, poolStep s (.free p) = some t ∧ PoolExact size t ∧ PoolFixed size t.pool := by
  obtain ⟨mm, cs, fl, al, hlist, hsize, hb, hexact⟩ := h
  obtain ⟨c, hc, hfree, rfl, hcsize⟩ := hexact.exists_chunk hp
  obtain ⟨pre, post, hcs⟩ := List.append_of_mem hc
  have hnominal := hfixed.mempoolSize
  have hbounds := hb.layout.le_stop hc
  have hstop : mm.stop = mm.start + mm.mempoolSize := rfl
  rw [hcs] at hb
  obtain ⟨mm', mem', cs', hchunk, hstep, -, hcoalesced, hmem, hprog⟩ :=
    freeChunk_spec s.pool.mempoolSize hb hfree hcsize (.inl (by omega))
  have hindex : (if s.pool.autoExtend then s.pool.findMemoryList (c.addr + mpChunkHeader)
      else some 0) = some 0 := by
    split
    · have hfront : s.pool.mlist = [] ++ mm :: [] := hlist
      apply findMemoryList_eq hfront
      · simp
      · omega
      · rw [mpChunkHeader]
        omega
    · rfl
  obtain ⟨fl', al', hb'⟩ := hstep.holds
  refine ⟨⟨{ s.pool with mlist := [mm'], mem := mem' },
      s.live.filter fun e => e.1 ≠ c.addr + mpChunkHeader⟩, ?_,
    ⟨mm', cs', fl', al', rfl, hstep.size.trans hsize, hb', ?_⟩, ?_⟩
  · have hget : s.pool.mlist[0]? = some mm := by simp [hlist]
    rw [poolStep, LdMempool.mempoolFree, if_neg (by simp [mpChunkHeader]), hindex,
      Option.bind_some, hget, Option.bind_some, Nat.add_sub_cancel, hchunk, hlist]
    rfl
  · exact hexact.release hb.layout hcs (hcoalesced (by omega)) hfree hcsize hmem hprog
  · exact ⟨hfixed.mempoolSize, hfixed.maxMempoolSize, hfixed.allocMempoolSize⟩

theorem PoolExact.write (h : PoolExact size s) (hfixed : PoolFixed size s.pool)
    {bytes : List UInt8} (hlegal : PoolLegal s (.write p bytes)) :
    ∃ t, poolStep s (.write p bytes) = some t ∧ PoolExact size t ∧ PoolFixed size t.pool := by
  obtain ⟨mm, cs, fl, al, hlist, hsize, hb, hexact⟩ := h
  refine ⟨_, rfl, ⟨mm, cs, fl, al, hlist, hsize, ?_, hexact⟩,
    ⟨hfixed.mempoolSize, hfixed.maxMempoolSize, hfixed.allocMempoolSize⟩⟩
  apply hb.of_bytes
  intro c hc a ha hlt hend
  apply if_neg
  intro hin
  have hat := hlegal (a - p) (by omega)
  rw [Nat.add_sub_cancel' hin.1] at hat
  rcases hat with ⟨e, he, hle⟩ | hout
  · have hoff := hb.layout.owned_off (hexact.owned e he) hc ha hlt hend
    omega
  · have hbounds := hb.layout.le_stop hc
    have houtside := hout mm (by simp [hlist])
    omega

/-- Every call returns, and the pool is exact again. -/
theorem PoolExact.step (h : PoolExact size s) (hfixed : PoolFixed size s.pool)
    (hmax : size < 2 ^ 63) {op : PoolOp} (hop : PoolCall s op) :
    ∃ t, poolStep s op = some t ∧ PoolExact size t ∧ PoolFixed size t.pool := by
  cases op with
  | alloc w mallocs =>
    have hw : w ≤ size := hfixed.mempoolSize ▸ hop
    exact h.alloc hfixed hmax hw mallocs
  | free p => exact h.free hfixed hop
  | write p bytes => exact h.write hfixed hop

/-- Without live allocations all chunks are free, so there is only one. -/
theorem PoolExact.oneFreeChunk (h : PoolExact size s) (hpos : 0 < size) (hlive : s.live = []) :
    OneFreeChunk size s := by
  obtain ⟨mm, cs, fl, al, hlist, hsize, hb, hexact⟩ := h
  rw [hlive] at hexact
  obtain ⟨⟨c, rfl, hfree⟩, hmem, hprog⟩ := hexact.eq_singleton hb.layout (by omega)
  obtain ⟨hfreeList, hallocList, hheader⟩ := hb.of_single hfree
  rw [hsize] at hheader
  exact ⟨mm, hlist, hsize, hfreeList, hallocList, hheader, hmem, hprog⟩

/-- A pool right after `mempool_init` with its size as the limit. -/
theorem mempoolInit_exact (junk : Bool) (mem : Mem) (hmin : mpChunkHeader ≤ size) (hpos : 0 < start)
    (hroom : start + sizeofMpMemory + size ≤ 2 ^ 64) :
    ∃ mp, LdMempool.mempoolInit junk size size start mem = some (some mp) ∧
      PoolExact size ⟨mp, []⟩ ∧ PoolFixed size mp := by
  obtain ⟨mm, mem', hinit, hstart, hmsize, -, hb⟩ := initMemory_spec mem
    (by omega : 0 < start + sizeofMpMemory) hmin hroom
  refine ⟨⟨if size < size then true else junk, size, size, size, [mm], mem'⟩, ?_,
    ⟨mm, _, _, _, rfl, hmsize, hb, ?_⟩, ⟨rfl, rfl, rfl⟩⟩
  · rw [LdMempool.mempoolInit, if_neg (by omega), hinit, Option.map_some]
  · obtain ⟨mem'', -, hpair⟩ := Option.map_eq_some_iff.mp hinit
    cases hpair
    exact ⟨sparse_singleton _ _, .refl _, by simp, rfl, rfl⟩

/-- **Freeing everything.** In every run of a pool whose limit is its size, every call returns; no
two free chunks are neighbours, the free list has the free chunks and the other list those of the
live allocations; and when nothing is live the block is one free chunk and the counters are zero. -/
theorem freed_pool_one_chunk (junk : Bool) {size start : ℕ} (mem : Mem)
    (hmin : mpChunkHeader + mpChunkEnd ≤ size) (hmax : size < 2 ^ 63) (hpos : 0 < start)
    (hroom : start + sizeofMpMemory + size ≤ 2 ^ 64) :
    ∃ mp, LdMempool.mempoolInit junk size size start mem = some (some mp) ∧
      ∀ s, Reaches poolStep PoolCall ⟨mp, []⟩ s →
        PoolExact size s ∧ (s.live = [] → OneFreeChunk size s) ∧
          ∀ op, PoolCall s op → ∃ t, poolStep s op = some t := by
  obtain ⟨mp, hinit, hexact, hfixed⟩ :=
    mempoolInit_exact junk mem (le_trans (Nat.le_add_right _ _) hmin) hpos hroom
  refine ⟨mp, hinit, ?_⟩
  intro s hs
  obtain ⟨⟨hexact', -⟩, hnext⟩ := hs.invariant_of_total
    (P := fun s => PoolExact size s ∧ PoolFixed size s.pool) ⟨hexact, hfixed⟩
    fun _ _ hinv hop => hinv.1.step hinv.2 hmax hop
  have hsize : 0 < size := lt_of_lt_of_le (by decide) hmin
  refine ⟨hexact', hexact'.oneFreeChunk hsize, ?_⟩
  intro op hop
  obtain ⟨t, hstep, -⟩ := hnext op hop
  exact ⟨t, hstep⟩

/-- Two allocations, freed in the order they were made. -/
theorem freed_pool_one_chunk_two : ∃ mp s,
    LdMempool.mempoolInit false 512 512 1000 (fun _ => 0) = some (some mp) ∧
      Reaches poolStep PoolCall ⟨mp, []⟩ s ∧ s.live = [] ∧ OneFreeChunk 512 s := by
  obtain ⟨mp, hinit, hexact⟩ := freed_pool_one_chunk false (fun _ => 0)
    (by decide : 40 ≤ 512) (by decide) (by decide : 0 < 1000) (by decide)
  have hrun : (LdMempool.mempoolInit false 512 512 1000 fun _ => 0).map (Option.map fun mp =>
      (runOps poolStep PoolCall ⟨mp, []⟩
        [.alloc 10 [], .alloc 20 [], .free 1096, .free 1152]).map PoolState.live) =
      some (some (some [])) := by decide +kernel
  rw [hinit] at hrun
  simp only [Option.map_some, Option.some.injEq] at hrun
  obtain ⟨s, hs, hlive⟩ := Option.map_eq_some_iff.mp hrun
  have hreach := reaches_of_runOps _ hs
  exact ⟨mp, s, hinit, hreach, hlive, (hexact s hreach).2.1 hlive⟩

end LdacsSdk
