import LdacsSdk.Library.Runs
import LdacsSdk.Pool.PoolSteps

/-!
# Live allocations

Runs of allocations, frees of live pointers and writes of the user, in any order. What is live is
inside a block and overlaps nothing else, and no header outside of a block is read, as long as the
size of a request is computed without overflow, blocks have room for a header, and the size of the
first block does not mislead about a smaller block that was added.
-/
namespace LdacsSdk

open Library

/-- A pool with the pointers that were handed out and not freed, and the sizes asked for. -/
structure PoolState where
  pool : LdMempool
  live : List (ℕ × ℕ)

inductive PoolOp where
  | alloc (wantsize : ℕ) (mallocs : List ℕ)
  | free (p : ℕ)
  | write (p : ℕ) (bytes : List UInt8)

/-- The memory with bytes written from `p` on. -/
def putBytes (mem : Mem) (p : ℕ) (bytes : List UInt8) : Mem := fun a =>
  if p ≤ a ∧ a < p + bytes.length then bytes.getD (a - p) 0 else mem a

def poolStep (s : PoolState) : PoolOp → Option PoolState
  | .alloc wantsize mallocs => (s.pool.mempoolAlloc wantsize mallocs).map fun (p, pool) =>
      ⟨pool, if p = 0 then s.live else (p, wantsize) :: s.live⟩
  | .free p => (s.pool.mempoolFree p).map fun pool => ⟨pool, s.live.filter fun e => e.1 ≠ p⟩
  | .write p bytes => some { s with pool := { s.pool with mem := putBytes s.pool.mem p bytes } }

/-- A request is not zero and `malloc` gives memory of its own, live pointers are freed, and the
user writes to live allocations and outside of the blocks. -/
def PoolLegal (s : PoolState) : PoolOp → Prop
  | .alloc wantsize mallocs => 0 < wantsize ∧ wantsize < 2 ^ 64 ∧
      FreshBlocks s.pool.blockBytes s.pool.mlist mallocs
  | .free p => p ∈ s.live.map Prod.fst
  | .write p bytes => ∀ i < bytes.length, (∃ e ∈ s.live, e.1 ≤ p + i ∧ p + i < e.1 + e.2) ∨
      ∀ mm ∈ s.pool.mlist, p + i < mm.start ∨ mm.stop ≤ p + i

instance : (s : PoolState) → (op : PoolOp) → Decidable (PoolLegal s op)
  | s, .alloc wantsize mallocs => inferInstanceAs (Decidable (0 < wantsize ∧ wantsize < 2 ^ 64 ∧
      FreshBlocks s.pool.blockBytes s.pool.mlist mallocs))
  | s, .free p => inferInstanceAs (Decidable (p ∈ s.live.map Prod.fst))
  | s, .write p bytes => inferInstanceAs (Decidable (∀ i < bytes.length,
      (∃ e ∈ s.live, e.1 ≤ p + i ∧ p + i < e.1 + e.2) ∨
        ∀ mm ∈ s.pool.mlist, p + i < mm.start ∨ mm.stop ≤ p + i))

def PoolFits (s : PoolState) : PoolOp → Prop
  | .alloc wantsize _ => RequestFits s.pool wantsize
  | .free p => FreeFits s.pool s.live p
  | .write _ _ => True

/-- Live allocations are inside a block, apart from each other and from the headers and ends of
chunks; the chunks tile their block. -/
structure PoolSafe (s : PoolState) : Prop where
  inside : ∀ e ∈ s.live, ∃ mm ∈ s.pool.mlist, mm.start ≤ e.1 ∧ e.1 + e.2 ≤ mm.stop
  disjoint : s.live.Pairwise fun e e' => e.1 + e.2 ≤ e'.1 ∨ e'.1 + e'.2 ≤ e.1
  tiled : ∀ mm ∈ s.pool.mlist, ∃ l,
    Tiling id (fun c => (readChunk s.pool.mem c).allocMem) mm.start l mm.stop ∧
      ∀ c ∈ l, mm.Inside c mpChunkHeader ∧ ∀ e ∈ s.live, ∀ a, e.1 ≤ a → a < e.1 + e.2 →
        (a < c ∨ c + mpChunkHeader ≤ a) ∧
          (a < c + (readChunk s.pool.mem c).allocMem - mpChunkEnd ∨
            c + (readChunk s.pool.mem c).allocMem ≤ a)

variable {chunks : ℕ → List MpPiece} {mp : LdMempool} {live : List (ℕ × ℕ)} {s t : PoolState}

/-- What a live allocation has in common with a chunk is behind the header and in front of the
pointer at the end. -/
theorem PoolHolds.off_chunk {mm : MpMemory} {c : MpPiece} {e : ℕ × ℕ} {a : ℕ}
    (h : PoolHolds chunks mp live) (hmm : mm ∈ mp.mlist) (hc : c ∈ chunks mm.start) (he : e ∈ live)
    (ha : e.1 ≤ a) (hlt : a < e.1 + e.2) :
    (a < c.addr ∨ c.addr + 32 ≤ a) ∧ (a < c.addr + c.size - 8 ∨ c.addr + c.size ≤ a) := by
  obtain ⟨fl, al, hb⟩ := h.blocks mm hmm
  obtain ⟨x, hx, hown⟩ := h.owned e he
  have hbounds := hb.layout.le_stop hc
  have hwide := hb.layout.size_ge hc
  rcases h.same_or_apart hmm hx with rfl | hapart
  · have hoff := hb.layout.owned_off (a := a) hown hc
    omega
  · obtain ⟨fl', al', hb'⟩ := h.blocks x hx
    have hebounds := hb'.layout.owned_bounds hown
    unfold BlocksApart at hapart
    omega

theorem PoolHolds.safe (h : PoolHolds chunks s.pool s.live) : PoolSafe s where
  inside e he := by
    obtain ⟨mm, hmm, hown⟩ := h.owned e he
    obtain ⟨fl, al, hb⟩ := h.blocks mm hmm
    exact ⟨mm, hmm, hb.layout.owned_bounds hown⟩
  disjoint := by
    refine (List.pairwise_map.mp h.distinct).imp_of_mem fun {e e'} he he' hne => ?_
    obtain ⟨mm, hmm, hown⟩ := h.owned e he
    obtain ⟨x, hx, hown'⟩ := h.owned e' he'
    obtain ⟨fl, al, hb⟩ := h.blocks mm hmm
    rcases h.same_or_apart hmm hx with rfl | hapart
    · exact hb.layout.owned_apart hown hown' hne
    · obtain ⟨fl', al', hb'⟩ := h.blocks x hx
      have hbounds := hb.layout.owned_bounds hown
      have hbounds' := hb'.layout.owned_bounds hown'
      unfold BlocksApart at hapart
      omega
  tiled mm hmm := by
    obtain ⟨fl, al, hb⟩ := h.blocks mm hmm
    have hsize : ∀ c ∈ chunks mm.start, (readChunk s.pool.mem c.addr).allocMem = c.size :=
      fun c hc => (hb.headers c hc).1
    refine ⟨(chunks mm.start).map MpPiece.addr, hb.layout.tiling.map (fun _ _ => rfl) hsize,
      fun a ha => ?_⟩
    obtain ⟨c, hc, rfl⟩ := List.mem_map.mp ha
    refine ⟨hb.layout.spaced.inside _ (heads_of_mem hc), fun e he a hle hlt => ?_⟩
    rw [hsize c hc]
    exact h.off_chunk hmm hc he hle hlt

/-- Every legal operation that fits returns, and the pool holds again. -/
theorem poolStep_holds (h : PoolHolds chunks s.pool s.live) {op : PoolOp} (hlegal : PoolLegal s op)
    (hfits : PoolFits s op) :
    ∃ t chunks', poolStep s op = some t ∧ PoolHolds chunks' t.pool t.live := by
  cases op with
  | alloc wantsize mallocs =>
    obtain ⟨p, mp', chunks', halloc, h'⟩ := h.alloc hlegal.1 hfits hlegal.2.2
    exact ⟨_, chunks', by rw [poolStep, halloc, Option.map_some], h'⟩
  | free p =>
    obtain ⟨⟨p', w⟩, he, rfl⟩ := List.mem_map.mp hlegal
    obtain ⟨mp', chunks', hfree, h', -⟩ := h.free he hfits
    exact ⟨_, chunks', by rw [poolStep, hfree, Option.map_some], h'⟩
  | write p bytes =>
    refine ⟨_, chunks, rfl, h.write fun mm hmm a hle hlt hoff => if_neg fun ha => ?_⟩
    have hat := hlegal (a - p) (by omega)
    rw [Nat.add_sub_cancel' ha.1] at hat
    rcases hat with ⟨e, he, hin⟩ | hout
    · have hoff' := hoff e he
      omega
    · have hout' := hout mm hmm
      omega

/-- A pool right after `mempool_init`. -/
theorem mempoolInit_holds (junk : Bool) {maxMempoolSize mempoolSize start : ℕ} (mem : Mem)
    (hmax : mempoolSize ≤ maxMempoolSize) (hpos : 0 < start)
    (hroom : start + (sizeofMpMemory + mempoolSize) % 2 ^ 64 ≤ 2 ^ 64)
    (hwide : mpChunkHeader ≤ mempoolSize) (hlt : sizeofMpMemory + mempoolSize < 2 ^ 64) :
    ∃ mp chunks, LdMempool.mempoolInit junk maxMempoolSize mempoolSize start mem = some (some mp) ∧
      PoolHolds chunks mp [] := by
  rw [Nat.mod_eq_of_lt hlt] at hroom
  obtain ⟨mm, mem', hinit, hstart, hmsize, -, hb⟩ := initMemory_spec mem
    (by omega : 0 < start + sizeofMpMemory) hwide (by omega)
  refine ⟨⟨if mempoolSize < maxMempoolSize then true else junk, mempoolSize, maxMempoolSize,
    mempoolSize, [mm], mem'⟩, fun _ => [⟨start + sizeofMpMemory, mempoolSize, true⟩], ?_, ?_⟩
  · rw [LdMempool.mempoolInit, if_neg (by omega), hinit, Option.map_some]
  · refine ⟨fun x hx => ?_, List.pairwise_singleton _ _, fun x hx => ?_, fun x hx => ?_, hlt,
      fun _ => ⟨mm, rfl⟩, by simp, by simp⟩
    all_goals rw [List.mem_singleton.mp hx]
    · exact ⟨_, _, hb⟩
    · exact hwide.trans_eq hmsize.symm
    · exact hmsize.le

/-- A legal operation that meets its condition. -/
def PoolMeets (s : PoolState) (op : PoolOp) : Prop := PoolLegal s op ∧ PoolFits s op

/-- In every run whose operations meet the condition, from a pool whose first block has room for a
header and whose size does not overflow with the block's own header, live allocations are safe in
every state, and every operation that meets it returns without a header read outside of a block. -/
theorem live_allocations_safe (junk : Bool) {maxMempoolSize mempoolSize start : ℕ} (mem : Mem)
    (hmax : mempoolSize ≤ maxMempoolSize) (hpos : 0 < start)
    (hroom : start + (sizeofMpMemory + mempoolSize) % 2 ^ 64 ≤ 2 ^ 64)
    (hwide : mpChunkHeader ≤ mempoolSize) (hlt : sizeofMpMemory + mempoolSize < 2 ^ 64) :
    ∃ mp, LdMempool.mempoolInit junk maxMempoolSize mempoolSize start mem = some (some mp) ∧
      ∀ s, Reaches poolStep PoolMeets ⟨mp, []⟩ s →
        PoolSafe s ∧ ∀ op, PoolMeets s op → ∃ t, poolStep s op = some t := by
  obtain ⟨mp, chunks, hinit, h⟩ := mempoolInit_holds junk mem hmax hpos hroom hwide hlt
  refine ⟨mp, hinit, fun s hs => ?_⟩
  have htotal (s : PoolState) (op : PoolOp) (hs : ∃ chunks, PoolHolds chunks s.pool s.live)
      (hmeets : PoolMeets s op) :
      ∃ t, poolStep s op = some t ∧ ∃ chunks, PoolHolds chunks t.pool t.live := by
    obtain ⟨chunks, hold⟩ := hs
    obtain ⟨t, chunks', hstep, h'⟩ := poolStep_holds hold hmeets.1 hmeets.2
    exact ⟨t, hstep, chunks', h'⟩
  obtain ⟨⟨chunks', h'⟩, hnext⟩ := hs.invariant_of_total ⟨chunks, h⟩ htotal
  refine ⟨h'.safe, fun op hmeets => ?_⟩
  obtain ⟨t, hstep, -⟩ := hnext op hmeets
  exact ⟨t, hstep⟩

/-- A pool of 512 bytes that may grow, and ten bytes of it. -/
theorem live_allocations_safe_ten : ∃ mp s,
    LdMempool.mempoolInit false 1024 512 1000 (fun _ => 0) = some (some mp) ∧
      Reaches poolStep PoolMeets ⟨mp, []⟩ s ∧ s.live = [(1096, 10)] ∧ PoolSafe s := by
  obtain ⟨mp, hinit, hsafe⟩ := live_allocations_safe false (fun _ => 0)
    (by decide : 512 ≤ 1024) (by decide : 0 < 1000) (by decide) (by decide) (by decide)
  have hrun : (LdMempool.mempoolInit false 1024 512 1000 fun _ => 0).map (Option.map fun mp =>
      (decide (RequestFits mp 10 ∧ PoolLegal ⟨mp, []⟩ (.alloc 10 [])),
        (poolStep ⟨mp, []⟩ (.alloc 10 [])).map PoolState.live)) =
      some (some (true, some [(1096, 10)])) := by decide +kernel
  rw [hinit] at hrun
  simp only [Option.map_some, Option.some.injEq, Prod.mk.injEq, decide_eq_true_eq] at hrun
  obtain ⟨⟨hfits, hlegal⟩, hstep⟩ := hrun
  obtain ⟨s, hs, hlive⟩ := Option.map_eq_some_iff.mp hstep
  have hreach : Reaches poolStep PoolMeets ⟨mp, []⟩ s := Reaches.start.next ⟨hlegal, hfits⟩ hs
  exact ⟨mp, s, hinit, hreach, hlive, (hsafe s hreach).1⟩

/-- `mempool_init` over memory that is zero, and then legal operations. -/
def poolRun (maxMempoolSize mempoolSize : ℕ) (ops : List PoolOp) : Option PoolState :=
  (LdMempool.mempoolInit false maxMempoolSize mempoolSize 1000 fun _ => 0).bind fun mp =>
    mp.bind fun mp => runOps poolStep PoolLegal ⟨mp, []⟩ ops

theorem reaches_of_poolRun {maxMempoolSize mempoolSize : ℕ} {ops : List PoolOp}
    (h : poolRun maxMempoolSize mempoolSize ops = some s) :
    ∃ mp, LdMempool.mempoolInit false maxMempoolSize mempoolSize 1000 (fun _ => 0) =
      some (some mp) ∧ Reaches poolStep PoolLegal ⟨mp, []⟩ s := by
  obtain ⟨o, hinit, h⟩ := Option.bind_eq_some_iff.mp h
  obtain ⟨mp, rfl, h⟩ := Option.bind_eq_some_iff.mp h
  exact ⟨mp, hinit, reaches_of_runOps ops h⟩

/-- Two allocations of one byte, the second in a smaller block that was added, and its release; and
a request whose size overflows. -/
theorem live_allocation_unsafe :
    (∃ mp s, LdMempool.mempoolInit false 112 64 1000 (fun _ => 0) = some (some mp) ∧
      Reaches poolStep PoolLegal ⟨mp, []⟩ s ∧ PoolLegal s (.free 2096) ∧
      poolStep s (.free 2096) = none) ∧
    ∃ mp s, LdMempool.mempoolInit false 64 64 1000 (fun _ => 0) = some (some mp) ∧
      Reaches poolStep PoolLegal ⟨mp, []⟩ s ∧ ¬PoolSafe s := by
  constructor
  · have hrun : (poolRun 112 64 [.alloc 1 [], .alloc 1 [2000]]).map (fun s =>
        (decide (PoolLegal s (.free 2096)), (poolStep s (.free 2096)).isSome)) =
        some (true, false) := by decide +kernel
    obtain ⟨s, hs, hlast⟩ := Option.map_eq_some_iff.mp hrun
    obtain ⟨mp, hinit, hreach⟩ := reaches_of_poolRun hs
    simp only [Prod.mk.injEq, decide_eq_true_eq, Option.isSome_eq_false_iff,
      Option.isNone_iff_eq_none] at hlast
    exact ⟨mp, s, hinit, hreach, hlast⟩
  · have hrun : (poolRun 64 64 [.alloc (2 ^ 64 - 1) []]).map (fun s =>
        (s.live, s.pool.mlist.map fun mm => (mm.start, mm.stop))) =
        some ([(1096, 2 ^ 64 - 1)], [(1064, 1128)]) := by decide +kernel
    obtain ⟨s, hs, hlast⟩ := Option.map_eq_some_iff.mp hrun
    obtain ⟨mp, hinit, hreach⟩ := reaches_of_poolRun hs
    simp only [Prod.mk.injEq] at hlast
    refine ⟨mp, s, hinit, hreach, fun hsafe => ?_⟩
    obtain ⟨mm, hmm, -, hstop⟩ := hsafe.inside (1096, 2 ^ 64 - 1) (by simp [hlast.1])
    have hmem : (mm.start, mm.stop) ∈ s.pool.mlist.map fun mm => (mm.start, mm.stop) :=
      List.mem_map_of_mem hmm
    rw [hlast.2, List.mem_singleton, Prod.mk.injEq] at hmem
    omega

end LdacsSdk
