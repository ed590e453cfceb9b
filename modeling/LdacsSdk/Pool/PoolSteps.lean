import LdacsSdk.Pool.Granting
import LdacsSdk.Pool.Merging

/-!
# The operations on a pool

The blocks of a pool are apart, and each live allocation is in an allocated chunk of one of them,
behind the header and in front of the pointer at the end. An operation works on one block and leaves
the others.
-/
namespace LdacsSdk

open Library

/-- The bytes of an allocation, a pointer and the size asked for, are in an allocated chunk. -/
def Owned (cs : List MpPiece) (e : ℕ × ℕ) : Prop :=
  0 < e.2 ∧ ∃ c ∈ cs, c.free = false ∧ c.addr + 32 = e.1 ∧ e.2 + 40 ≤ c.size

def BlocksApart (mm mm' : MpMemory) : Prop := mm.stop ≤ mm'.start ∨ mm'.stop ≤ mm.start

/-- The pool with its live allocations, as the chunks of its blocks have it. -/
structure PoolHolds (chunks : ℕ → List MpPiece) (mp : LdMempool) (live : List (ℕ × ℕ)) : Prop where
  blocks : ∀ mm ∈ mp.mlist, ∃ fl al, BlockHolds 0 [] mp.mem mm (chunks mm.start) fl al
  apart : mp.mlist.Pairwise BlocksApart
  wide : ∀ mm ∈ mp.mlist, mpChunkHeader ≤ mm.mempoolSize
  nominal : ∀ mm ∈ mp.mlist, mm.mempoolSize ≤ mp.mempoolSize
  size_lt : sizeofMpMemory + mp.mempoolSize < 2 ^ 64
  single : mp.autoExtend = false → ∃ mm, mp.mlist = [mm]
  owned : ∀ e ∈ live, ∃ mm ∈ mp.mlist, Owned (chunks mm.start) e
  distinct : (live.map Prod.fst).Nodup

variable {chunks : ℕ → List MpPiece} {mp : LdMempool} {live live' : List (ℕ × ℕ)}
  {mm mm' mm₂ : MpMemory} {mem mem' : Mem} {cs cs' : List MpPiece} {mms l₁ l₂ : List MpMemory}
  {e e' : ℕ × ℕ} {fl al mallocs : List ℕ} {total size start s p : ℕ}

theorem ChunkLayout.owned_bounds (h : ChunkLayout mm cs) (he : Owned cs e) :
    mm.start ≤ e.1 ∧ e.1 + e.2 ≤ mm.stop := by
  obtain ⟨-, c, hc, -, hp, hsize⟩ := he
  have hbounds := h.le_stop hc
  omega

/-- An allocation has no byte of a header or of a pointer at an end. -/
theorem ChunkLayout.owned_off {c : MpPiece} {a : ℕ} (h : ChunkLayout mm cs) (he : Owned cs e)
    (hc : c ∈ cs) (ha : c.addr ≤ a) (hlt : a < c.addr + c.size)
    (hown : a < c.addr + 32 ∨ c.addr + c.size - 8 ≤ a) : a < e.1 ∨ e.1 + e.2 ≤ a := by
  obtain ⟨-, d, hd, -, hp, hsize⟩ := he
  by_cases heq : c.addr = d.addr
  · rw [h.eq_of_addr hc hd heq] at hown
    omega
  · have hapart := h.pieces_apart hc hd heq
    omega

theorem ChunkLayout.owned_apart (h : ChunkLayout mm cs) (he : Owned cs e) (he' : Owned cs e')
    (hne : e.1 ≠ e'.1) : e.1 + e.2 ≤ e'.1 ∨ e'.1 + e'.2 ≤ e.1 := by
  obtain ⟨-, c, hc, -, hp, hsize⟩ := he
  obtain ⟨-, d, hd, -, hp', hsize'⟩ := he'
  have hapart := h.pieces_apart hc hd (by omega)
  omega

/-- The first chunk of a new block. -/
theorem initMemory_spec (mem : Mem) (hpos : 0 < start) (hsize : mpChunkHeader ≤ size)
    (hstop : start + size ≤ 2 ^ 64) :
    ∃ mm mem', MpMemory.initMemory start size mem = some (mm, mem') ∧ mm.start = start ∧
      mm.mempoolSize = size ∧ KeepsOutside mm mem mem' ∧
      BlockHolds 0 [] mem' mm [⟨start, size, true⟩] [start] [] := by
  rw [mpChunkHeader] at hsize
  let mm : MpMemory := ⟨start, size, 0, 0, start, 0⟩
  have hlay : ChunkLayout mm [⟨start, size, true⟩] :=
    ⟨⟨rfl, rfl⟩, fun c hc => by
      rw [List.mem_singleton.mp hc]
      exact ⟨hsize, .inr rfl⟩, hpos, hstop⟩
  have hmem : (⟨start, size, true⟩ : MpPiece) ∈ [(⟨start, size, true⟩ : MpPiece)] :=
    List.mem_singleton_self _
  have hlt : size < 2 ^ 64 := by omega
  obtain ⟨mem', hmem', hw⟩ := update_spec hlay.spaced (heads_of_mem hmem) mem
    (fun _ => ⟨size, 0, 0, 1⟩)
    ⟨hlt, Nat.two_pow_pos 64, Nat.two_pow_pos 64, Nat.one_lt_two_pow (by decide)⟩
  have hchunk : readChunk mem' start = ⟨size, 0, 0, 1⟩ := hw.chunk
  refine ⟨mm, mem', ?_, rfl, rfl, fun a ha => hw.bytes_off hmem (hlay.outside_off ha), hlay,
    fun c hc => ?_, fun c hc _ hend => ?_, ⟨?_, ?_⟩, threaded_nil rfl, .refl _, .refl _⟩
  · rw [MpMemory.initMemory, hmem', Option.map_some]
  · rw [List.mem_singleton.mp hc, MpPiece.Heads, hchunk]
    simp
  · rw [List.mem_singleton.mp hc] at hend
    exact absurd rfl hend
  · simpa using hpos.ne
  · refine List.isChain_cons_cons.mpr ⟨⟨rfl, fun _ => ?_⟩, List.isChain_pair.mpr ⟨?_, by simp⟩⟩
    · rw [prevOf, hchunk]
    · rw [nextOf, if_neg hpos.ne', hchunk]

namespace PoolHolds

/-- Two blocks that start at one address are one block. -/
theorem start_ne (h : PoolHolds chunks mp live) (hlist : mp.mlist = l₁ ++ mm :: l₂)
    (hmm₂ : mm₂ ∈ l₁ ++ l₂) : BlocksApart mm mm₂ ∧ mm₂.start ≠ mm.start := by
  have hmem : mm ∈ mp.mlist := by simp [hlist]
  have hmem₂ : mm₂ ∈ mp.mlist := by
    rw [hlist]
    exact List.perm_middle.mem_iff.mpr (List.mem_cons_of_mem _ hmm₂)
  have hapart := h.apart
  rw [hlist, List.pairwise_append] at hapart
  have hblocks : BlocksApart mm mm₂ := by
    rcases List.mem_append.mp hmm₂ with hmm₂ | hmm₂
    · exact (hapart.2.2 mm₂ hmm₂ mm (by simp)).symm
    · exact (List.pairwise_cons.mp hapart.2.1).1 mm₂ hmm₂
  refine ⟨hblocks, fun heq => ?_⟩
  have hwide := h.wide mm hmem
  have hwide₂ := h.wide mm₂ hmem₂
  unfold BlocksApart MpMemory.stop at hblocks
  rw [mpChunkHeader] at hwide hwide₂
  omega

/-- Two blocks of the list are one block or lie apart. -/
theorem same_or_apart (h : PoolHolds chunks mp live) (hmm : mm ∈ mp.mlist) (hmm₂ : mm₂ ∈ mp.mlist) :
    mm₂ = mm ∨ BlocksApart mm mm₂ := by
  obtain ⟨l₁, l₂, hlist⟩ := List.append_of_mem hmm
  rw [hlist] at hmm₂
  apply (List.mem_cons.mp (List.perm_middle.mem_iff.mp hmm₂)).imp_right
  intro hother
  exact (h.start_ne hlist hother).1

/-- One block took a step, and the live allocations are owned by the new chunks. -/
theorem step (h : PoolHolds chunks mp live) (hlist : mp.mlist = l₁ ++ mm :: l₂)
    (hstep : BlockStep mm mm' mp.mem mem' cs')
    (howned : ∀ e ∈ live', Owned cs' e ∨ ∃ mm₂ ∈ l₁ ++ l₂, Owned (chunks mm₂.start) e)
    (hdistinct : (live'.map Prod.fst).Nodup) :
    PoolHolds (Function.update chunks mm.start cs')
      { mp with mlist := l₁ ++ mm' :: l₂, mem := mem' } live' := by
  have hstop : mm'.stop = mm.stop := by
    rw [MpMemory.stop, MpMemory.stop, hstep.start, hstep.size]
  have hnew : Function.update chunks mm.start cs' mm'.start = cs' := by
    rw [hstep.start, Function.update_self]
  have hold : ∀ mm₂ ∈ l₁ ++ l₂, Function.update chunks mm.start cs' mm₂.start = chunks mm₂.start :=
    fun mm₂ hmm₂ => Function.update_of_ne (h.start_ne hlist hmm₂).2 _ _
  have hmem : ∀ mm₂ ∈ l₁ ++ mm' :: l₂, mm₂ = mm' ∨ mm₂ ∈ l₁ ++ l₂ := fun mm₂ hmm₂ =>
    List.mem_cons.mp (List.perm_middle.mem_iff.mp hmm₂)
  have hback : ∀ mm₂ ∈ l₁ ++ l₂, mm₂ ∈ mp.mlist := fun mm₂ hmm₂ => by
    rw [hlist]
    exact List.perm_middle.mem_iff.mpr (List.mem_cons_of_mem _ hmm₂)
  have hmmem : mm ∈ mp.mlist := by simp [hlist]
  refine ⟨fun mm₂ hmm₂ => ?_, ?_, fun mm₂ hmm₂ => ?_, fun mm₂ hmm₂ => ?_, h.size_lt,
    fun hauto => ?_, fun e he => ?_, hdistinct⟩
  · rcases hmem mm₂ hmm₂ with rfl | hmm₂
    · rw [hnew]
      exact hstep.holds
    · rw [hold mm₂ hmm₂]
      obtain ⟨fl, al, hb⟩ := h.blocks mm₂ (hback mm₂ hmm₂)
      refine ⟨fl, al, hb.of_bytes fun c hc a ha hlt _ => hstep.outside a ?_⟩
      have hbounds := hb.layout.le_stop hc
      have hapart := (h.start_ne hlist hmm₂).1
      unfold BlocksApart at hapart
      omega
  · have hapart := h.apart
    rw [hlist] at hapart
    have hreplace : ∀ x, BlocksApart mm x → BlocksApart mm' x := fun x hx => by
      rwa [BlocksApart, hstep.start, hstop]
    obtain ⟨hfront, hrest, hcross⟩ := List.pairwise_append.mp hapart
    obtain ⟨hmm, hbehind⟩ := List.pairwise_cons.mp hrest
    refine List.pairwise_append.mpr ⟨hfront, List.pairwise_cons.mpr
      ⟨fun x hx => hreplace x (hmm x hx), hbehind⟩, fun x hx y hy => ?_⟩
    rcases List.mem_cons.mp hy with rfl | hy
    · exact (hreplace x (hcross x hx mm (by simp)).symm).symm
    · exact hcross x hx y (by simp [hy])
  · rcases hmem mm₂ hmm₂ with rfl | hmm₂
    · rw [hstep.size]
      exact h.wide mm hmmem
    · exact h.wide mm₂ (hback mm₂ hmm₂)
  · rcases hmem mm₂ hmm₂ with rfl | hmm₂
    · rw [hstep.size]
      exact h.nominal mm hmmem
    · exact h.nominal mm₂ (hback mm₂ hmm₂)
  · obtain ⟨x, hx⟩ := h.single hauto
    rw [hlist] at hx
    have hlength := congrArg List.length hx
    simp only [List.length_append, List.length_cons, List.length_nil] at hlength
    have h₁ : l₁ = [] := List.eq_nil_of_length_eq_zero (by omega)
    have h₂ : l₂ = [] := List.eq_nil_of_length_eq_zero (by omega)
    exact ⟨mm', by simp [h₁, h₂]⟩
  · rcases howned e he with hown | ⟨mm₂, hmm₂, hown⟩
    · refine ⟨mm', by simp, ?_⟩
      rwa [hnew]
    · refine ⟨mm₂, List.perm_middle.mem_iff.mpr (List.mem_cons_of_mem _ hmm₂), ?_⟩
      rwa [hold mm₂ hmm₂]

end PoolHolds

/-- The walk over the blocks grants a chunk of one of them or finds none. -/
theorem searchMemory_spec (nominal : ℕ) (htotal : 41 ≤ total)
    (hblocks : ∀ mm ∈ mms, ∃ fl al, BlockHolds 0 [] mem mm (chunks mm.start) fl al) :
    ∃ r, LdMempool.searchMemory nominal total mem mms = some r ∧
      ∀ a mms' mem', r = some (a, mms', mem') → ∃ l₁ mm l₂ mm' cs', mms = l₁ ++ mm :: l₂ ∧
        mms' = l₁ ++ mm' :: l₂ ∧ BlockStep mm mm' mem mem' cs' ∧
        ∃ d, CarvedFrom (chunks mm.start) cs' d ∧ d.addr = a ∧ total ≤ d.size ∧
          mm'.allocMem = u64 (mm.allocMem + d.size) ∧
          mm'.allocProgMem = u64 (mm.allocProgMem + (d.size - mpChunkHeader - mpChunkEnd)) := by
  induction mms with
  | nil => exact ⟨none, rfl, by simp⟩
  | cons mm mms ih =>
    obtain ⟨fl, al, hb⟩ := hblocks mm (by simp)
    obtain ⟨r, hr, hrest⟩ := ih fun x hx => hblocks x (by simp [hx])
    have hfind : ∃ found, (if u64 (nominal - mm.allocMem) < total then some none
        else mm.findFree mem total (mm.mempoolSize + 1) mm.freeList) = some found ∧
        ∀ a, found = some a →
          ∃ c ∈ chunks mm.start, c.free = true ∧ c.addr = a ∧ total ≤ c.size := by
      by_cases hskip : u64 (nominal - mm.allocMem) < total
      · exact ⟨none, if_pos hskip, by simp⟩
      · have hlength : fl.length < mm.mempoolSize + 1 := by
          have hle := hb.length_le
          have hfrees := hb.frees.length_eq
          have hfilter : (addrsOf true (chunks mm.start)).length ≤ (chunks mm.start).length := by
            rw [addrsOf, List.length_map]
            exact List.length_filter_le _ _
          omega
        have hhead : mm.freeList = fl.headD 0 := hb.freeList.head
        rw [if_neg hskip, hhead]
        obtain ⟨r, hr, hfound, -⟩ := findFree_spec total hb (List.nil_append fl).symm hlength
        exact ⟨r, hr, hfound⟩
    obtain ⟨found, hfound, hlarge⟩ := hfind
    rw [LdMempool.searchMemory, hfound, Option.bind_some]
    cases found with
    | none =>
      simp only [hr, Option.map_some]
      refine ⟨_, rfl, fun a mms' mem' heq => ?_⟩
      obtain ⟨⟨a', mms'', mem''⟩, rfl, heq⟩ := Option.map_eq_some_iff.mp heq
      cases heq
      obtain ⟨l₁, x, l₂, x', cs', rfl, rfl, hstep, hgranted⟩ := hrest a' mms'' mem'' rfl
      exact ⟨mm :: l₁, x, l₂, x', cs', rfl, rfl, hstep, hgranted⟩
    | some a =>
      obtain ⟨c, hc, hfree, rfl, hle⟩ := hlarge a rfl
      obtain ⟨mm', mem', cs', d, hgrant, hstep, hcarved⟩ := grantChunk_spec hb hc hfree htotal hle
      simp only [hgrant, Option.map_some]
      refine ⟨_, rfl, fun a mms' mem'' heq => ?_⟩
      cases heq
      exact ⟨[], mm, mms, mm', cs', rfl, rfl, hstep, d, hcarved⟩

/-- What `malloc` gives for requests of `n` bytes: memory that no block and no other one has. -/
structure FreshBlocks (n : ℕ) (mms : List MpMemory) (mallocs : List ℕ) : Prop where
  room : ∀ s ∈ mallocs, 0 < s ∧ s + n ≤ 2 ^ 64
  unused : ∀ s ∈ mallocs, ∀ mm ∈ mms, s + n ≤ mm.start - sizeofMpMemory ∨ mm.stop ≤ s
  apart : mallocs.Pairwise fun s s' => s + n ≤ s' ∨ s' + n ≤ s

instance (n : ℕ) (mms : List MpMemory) (mallocs : List ℕ) :
    Decidable (FreshBlocks n mms mallocs) :=
  decidable_of_iff ((∀ s ∈ mallocs, 0 < s ∧ s + n ≤ 2 ^ 64) ∧
      (∀ s ∈ mallocs, ∀ mm ∈ mms, s + n ≤ mm.start - sizeofMpMemory ∨ mm.stop ≤ s) ∧
      mallocs.Pairwise fun s s' => s + n ≤ s' ∨ s' + n ≤ s)
    ⟨fun ⟨hroom, hunused, hapart⟩ => ⟨hroom, hunused, hapart⟩,
      fun h => ⟨h.room, h.unused, h.apart⟩⟩

/-- What `extend_memory_list` asks `malloc` for. -/
def LdMempool.blockBytes (mp : LdMempool) : ℕ := (sizeofMpMemory + mp.addMemSz) % 2 ^ 64

theorem addMemSz_le (mp : LdMempool) : mp.addMemSz ≤ mp.mempoolSize := by
  simp only [LdMempool.addMemSz]
  split_ifs with h
  · exact le_rfl
  · omega

/-- Another block. -/
theorem PoolHolds.extend (h : PoolHolds chunks mp live) (hauto : mp.autoExtend = true)
    (hwide : mpChunkHeader ≤ mp.addMemSz)
    (hfresh : FreshBlocks mp.blockBytes mp.mlist (s :: mallocs)) :
    ∃ mp' chunks', mp.extendMemoryList s = some mp' ∧ PoolHolds chunks' mp' live ∧
      mp'.addMemSz = mp.addMemSz ∧ FreshBlocks mp'.blockBytes mp'.mlist mallocs := by
  have hle := addMemSz_le mp
  have hsize := h.size_lt
  have hbytes : mp.blockBytes = sizeofMpMemory + mp.addMemSz := Nat.mod_eq_of_lt (by omega)
  obtain ⟨hpos, hroom⟩ := hfresh.room s (by simp)
  have hunused := hfresh.unused s (by simp)
  have hapart := (List.pairwise_cons.mp hfresh.apart).1
  rw [hbytes] at hroom
  simp only [hbytes] at hunused hapart
  obtain ⟨mm, mem', hinit, hstart, hmsize, hout, hb⟩ := initMemory_spec mp.mem
    (by omega : 0 < s + sizeofMpMemory) hwide (by omega)
  have hstop : mm.stop = s + sizeofMpMemory + mp.addMemSz := by
    rw [MpMemory.stop, hstart, hmsize]
  have hnew : ∀ x ∈ mp.mlist, BlocksApart mm x ∧ x.start ≠ mm.start := fun x hx => by
    have hx' := hunused x hx
    have hxwide := h.wide x hx
    have hxstop : x.stop = x.start + x.mempoolSize := rfl
    rw [mpChunkHeader] at hxwide hwide
    unfold BlocksApart
    omega
  refine ⟨{ mp with
      mlist := mm :: mp.mlist, mem := mem'
      allocMempoolSize := u64 (mp.allocMempoolSize + mp.addMemSz) },
    Function.update chunks mm.start [⟨s + sizeofMpMemory, mp.addMemSz, true⟩], ?_, ?_, rfl, ?_⟩
  · rw [LdMempool.extendMemoryList, hinit, Option.map_some]
  · refine ⟨fun x hx => ?_, List.pairwise_cons.mpr ⟨fun x hx => (hnew x hx).1, h.apart⟩,
      fun x hx => ?_, fun x hx => ?_, hsize, fun hfalse => ?_, fun e he => ?_, h.distinct⟩
    · rcases List.mem_cons.mp hx with rfl | hx
      · rw [Function.update_self]
        exact ⟨_, _, hb⟩
      · rw [Function.update_of_ne (hnew x hx).2]
        obtain ⟨fl, al, hbx⟩ := h.blocks x hx
        refine ⟨fl, al, hbx.of_bytes fun c hc a ha hlt _ => hout a ?_⟩
        have hbounds := hbx.layout.le_stop hc
        have hblocks := (hnew x hx).1
        unfold BlocksApart at hblocks
        omega
    · rcases List.mem_cons.mp hx with rfl | hx
      · rwa [hmsize]
      · exact h.wide x hx
    · rcases List.mem_cons.mp hx with rfl | hx
      · rwa [hmsize]
      · exact h.nominal x hx
    · rw [hauto] at hfalse
      cases hfalse
    · obtain ⟨x, hx, hown⟩ := h.owned e he
      refine ⟨x, List.mem_cons_of_mem _ hx, ?_⟩
      rwa [Function.update_of_ne (hnew x hx).2]
  · refine ⟨fun s' hs' => hfresh.room s' (by simp [hs']), fun s' hs' x hx => ?_,
      (List.pairwise_cons.mp hfresh.apart).2⟩
    rcases List.mem_cons.mp hx with rfl | hx
    · have hs := hapart s' hs'
      have hsame : s' + mp.blockBytes ≤ x.start - sizeofMpMemory ∨ x.stop ≤ s' := by
        rw [hbytes]
        omega
      exact hsame
    · exact hfresh.unused s' (by simp [hs']) x hx

/-- A granted chunk becomes a live allocation. -/
theorem PoolHolds.grant {a w : ℕ} (h : PoolHolds chunks mp live)
    (hlist : mp.mlist = l₁ ++ mm :: l₂) (hstep : BlockStep mm mm' mp.mem mem' cs')
    (hgranted : ChunkGranted (chunks mm.start) cs' total a) (hpos : 0 < w) (hw : w + 40 ≤ total) :
    PoolHolds (Function.update chunks mm.start cs')
      { mp with mlist := l₁ ++ mm' :: l₂, mem := mem' } ((a + mpChunkHeader, w) :: live) := by
  have hmem : mm ∈ mp.mlist := by simp [hlist]
  have hsplit : ∀ x ∈ mp.mlist, x = mm ∨ x ∈ l₁ ++ l₂ := fun x hx => by
    rw [hlist] at hx
    exact List.mem_cons.mp (List.perm_middle.mem_iff.mp hx)
  refine h.step hlist hstep (fun e he => ?_) (List.nodup_cons.mpr ⟨fun hmem' => ?_, h.distinct⟩)
  · rcases List.mem_cons.mp he with rfl | he
    · obtain ⟨c, hc, hfree, rfl, hle⟩ := hgranted.granted
      exact .inl ⟨hpos, c, hc, hfree, rfl, by omega⟩
    · obtain ⟨x, hx, hown⟩ := h.owned e he
      rcases hsplit x hx with rfl | hx
      · obtain ⟨hpos', c, hc, hfree, hrest⟩ := hown
        exact .inl ⟨hpos', c, hgranted.kept c hc hfree, hfree, hrest⟩
      · exact .inr ⟨x, hx, hown⟩
  · -- the chunk was free, so no live allocation was in it
    obtain ⟨e, he, heq⟩ := List.mem_map.mp hmem'
    obtain ⟨c, hc, hfree, haddr⟩ := hgranted.fresh
    obtain ⟨fl, al, hb⟩ := h.blocks mm hmem
    obtain ⟨x, hx, -, d, hd, hdfree, hdaddr, hdsize⟩ := h.owned e he
    rw [mpChunkHeader] at heq
    have hcd : c.addr = d.addr := by omega
    rcases h.same_or_apart hmem hx with rfl | hapart
    · rw [hb.layout.eq_of_addr hc hd hcd, hdfree] at hfree
      cases hfree
    · obtain ⟨fl', al', hb'⟩ := h.blocks x hx
      have hbounds := hb.layout.le_stop hc
      have hwide := hb.layout.size_ge hc
      have hbounds' := hb'.layout.le_stop hd
      unfold BlocksApart at hapart
      omega

theorem PoolHolds.search (h : PoolHolds chunks mp live) (htotal : 41 ≤ total) :
    LdMempool.searchMemory mp.mempoolSize total mp.mem mp.mlist = some none ∨
      ∃ a mms' mem' chunks',
        LdMempool.searchMemory mp.mempoolSize total mp.mem mp.mlist = some (some (a, mms', mem')) ∧
        ∀ w, 0 < w → w + 40 ≤ total →
          PoolHolds chunks' { mp with mlist := mms', mem := mem' }
            ((a + mpChunkHeader, w) :: live) := by
  obtain ⟨r, hr, hgranted⟩ := searchMemory_spec mp.mempoolSize htotal h.blocks
  cases r with
  | none => exact .inl hr
  | some r =>
    obtain ⟨a, mms', mem'⟩ := r
    obtain ⟨l₁, mm, l₂, mm', cs', hlist, rfl, hstep, d, hcarved, rfl, hle, -⟩ :=
      hgranted a mms' mem' rfl
    exact .inr ⟨d.addr, _, mem', _, hr, fun w hpos hw =>
      h.grant hlist hstep (hcarved.granted hle) hpos hw⟩

/-- Without a free chunk and without another block the request is refused. -/
theorem findFreeChunk_of_none (mallocs : List ℕ) (hexhausted : mp.Exhausted total)
    (hnone : LdMempool.searchMemory mp.mempoolSize total mp.mem mp.mlist = some none) :
    LdMempool.findFreeChunk total mallocs mp = some (0, mp) := by
  cases mallocs <;>
    rw [LdMempool.findFreeChunk, hnone, Option.bind_some] <;> exact if_pos hexhausted

/-- A free chunk is granted whatever `malloc` would give. -/
theorem findFreeChunk_of_some {a : ℕ} {mms : List MpMemory} (mallocs : List ℕ)
    (hsome : LdMempool.searchMemory mp.mempoolSize total mp.mem mp.mlist =
      some (some (a, mms, mem))) :
    LdMempool.findFreeChunk total mallocs mp =
      some (a + mpChunkHeader, { mp with mlist := mms, mem := mem }) := by
  cases mallocs <;> rw [LdMempool.findFreeChunk, hsome, Option.bind_some]

/-- `mempool_alloc` from the search on returns, and what it grants is a new allocation. -/
theorem PoolHolds.findFreeChunk (h : PoolHolds chunks mp live) (htotal : 41 ≤ total)
    (hgrow : mpChunkHeader ≤ mp.addMemSz ∨ mp.Exhausted total)
    (hfresh : FreshBlocks mp.blockBytes mp.mlist mallocs) :
    ∃ p mp' chunks', LdMempool.findFreeChunk total mallocs mp = some (p, mp') ∧
      (p = 0 → PoolHolds chunks' mp' live) ∧
      (p ≠ 0 → ∀ w, 0 < w → w + 40 ≤ total → PoolHolds chunks' mp' ((p, w) :: live)) := by
  induction mallocs generalizing mp chunks with
  | nil =>
    rw [LdMempool.findFreeChunk]
    rcases h.search htotal with hnone | ⟨a, mms', mem', chunks', hsome, hgrant⟩
    · rw [hnone]
      by_cases hfull : mp.Exhausted total <;>
        exact ⟨0, mp, chunks, by simp [hfull], fun _ => h, fun h0 => absurd rfl h0⟩
    · rw [hsome]
      exact ⟨a + mpChunkHeader, _, chunks', rfl, fun h0 => by simp [mpChunkHeader] at h0,
        fun _ => hgrant⟩
  | cons s mallocs ih =>
    rw [LdMempool.findFreeChunk]
    rcases h.search htotal with hnone | ⟨a, mms', mem', chunks', hsome, hgrant⟩
    · rw [hnone]
      by_cases hfull : mp.Exhausted total
      · exact ⟨0, mp, chunks, by simp [hfull], fun _ => h, fun h0 => absurd rfl h0⟩
      · have hauto : mp.autoExtend = true := by
          by_contra hfalse
          exact hfull (.inl (by simpa using hfalse))
        have hwide := hgrow.resolve_right hfull
        obtain ⟨mp', chunks', hextend, h', hadd, hfresh'⟩ := h.extend hauto hwide hfresh
        rw [← hadd] at hwide
        obtain ⟨p, mp'', chunks'', hfind, hrest⟩ := ih h' (.inl hwide) hfresh'
        refine ⟨p, mp'', chunks'', ?_, hrest⟩
        simp only [Option.bind_some, if_neg hfull, hextend]
        exact hfind
    · rw [hsome]
      exact ⟨a + mpChunkHeader, _, chunks', rfl, fun h0 => by simp [mpChunkHeader] at h0,
        fun _ => hgrant⟩

theorem totalNeeded_of_lt {w : ℕ} (hw : w + 47 < 2 ^ 64) :
    LdMempool.totalNeeded w = (w + 47) / 8 * 8 := by
  rw [LdMempool.totalNeeded, mpAlignSize, mpChunkHeader, mpChunkEnd]
  rw [Nat.mod_eq_of_lt (by omega : w + 32 + 8 < 2 ^ 64), Nat.mod_eq_of_lt (by omega)]

/-- The condition on a request: it is refused as too large, or its size is computed without
overflow and a block that may have to be added has room for a header. -/
def RequestFits (mp : LdMempool) (w : ℕ) : Prop :=
  mp.mempoolSize < LdMempool.totalNeeded w ∨
    w + 47 < 2 ^ 64 ∧
      (mpChunkHeader ≤ mp.addMemSz ∨ mp.Exhausted (LdMempool.totalNeeded w))

instance (mp : LdMempool) (w : ℕ) : Decidable (RequestFits mp w) :=
  inferInstanceAs (Decidable (_ ∨ _))

/-- `mempool_alloc` returns, and what it grants is a new allocation. -/
theorem PoolHolds.alloc {w : ℕ} (h : PoolHolds chunks mp live) (hpos : 0 < w)
    (hfits : RequestFits mp w) (hfresh : FreshBlocks mp.blockBytes mp.mlist mallocs) :
    ∃ p mp' chunks', mp.mempoolAlloc w mallocs = some (p, mp') ∧
      PoolHolds chunks' mp' (if p = 0 then live else (p, w) :: live) := by
  rw [LdMempool.mempoolAlloc, if_neg hpos.ne']
  by_cases hlarge : LdMempool.totalNeeded w > mp.mempoolSize
  · exact ⟨0, mp, chunks, if_pos hlarge, h⟩
  · obtain ⟨hw, hgrow⟩ := hfits.resolve_left hlarge
    have htotal := totalNeeded_of_lt hw
    obtain ⟨p, mp', chunks', hfind, hnull, hgrant⟩ := h.findFreeChunk (by omega) hgrow hfresh
    refine ⟨p, mp', chunks', (if_neg hlarge).trans hfind, ?_⟩
    by_cases hp : p = 0
    · rw [if_pos hp]
      exact hnull hp
    · rw [if_neg hp]
      exact hgrant hp w hpos (by omega)

/-- The condition on a pointer that is freed: no newer block seems to hold it, as far as the size of
the first block goes, and if its own block is smaller, it has a live allocation behind it there. -/
def FreeFits (mp : LdMempool) (live : List (ℕ × ℕ)) (p : ℕ) : Prop :=
  ∀ l₁ mm l₂, mp.mlist = l₁ ++ mm :: l₂ → mm.start ≤ p → p < mm.stop →
    (∀ x ∈ l₁, p < x.start ∨ x.start + mp.mempoolSize ≤ p) ∧
      (mp.mempoolSize ≤ mm.mempoolSize ∨ ∃ e ∈ live, p < e.1 ∧ e.1 < mm.stop)

/-- `find_memory_list` finds the block that holds the pointer. -/
theorem findMemoryList_eq (hlist : mp.mlist = l₁ ++ mm :: l₂)
    (hfront : ∀ x ∈ l₁, p < x.start ∨ x.start + mp.mempoolSize ≤ p) (hle : mm.start ≤ p)
    (hlt : p < mm.start + mp.mempoolSize) : mp.findMemoryList p = some l₁.length := by
  have hnone : l₁.findIdx? (fun mm => mm.start ≤ p ∧ p < mm.start + mp.mempoolSize) = none := by
    rw [List.findIdx?_eq_none_iff]
    intro x hx
    have hx' := hfront x hx
    simp only [decide_eq_false_iff_not]
    omega
  rw [LdMempool.findMemoryList, hlist, List.findIdx?_append, hnone]
  simp [List.findIdx?_cons, hle, hlt]

/-- The numbers of the pool and the sizes of its blocks are the same. -/
structure SameSizes (mp mp' : LdMempool) : Prop where
  mempoolSize : mp'.mempoolSize = mp.mempoolSize
  maxMempoolSize : mp'.maxMempoolSize = mp.maxMempoolSize
  allocMempoolSize : mp'.allocMempoolSize = mp.allocMempoolSize
  blocks : mp'.mlist.map MpMemory.mempoolSize = mp.mlist.map MpMemory.mempoolSize

/-- `mempool_free` of a live pointer returns. -/
theorem PoolHolds.free {w : ℕ} (h : PoolHolds chunks mp live) (he : (p, w) ∈ live)
    (hfits : FreeFits mp live p) :
    ∃ mp' chunks', mp.mempoolFree p = some mp' ∧
      PoolHolds chunks' mp' (live.filter fun e => e.1 ≠ p) ∧ SameSizes mp mp' := by
  obtain ⟨mm, hmm, hown⟩ := h.owned _ he
  obtain ⟨fl, al, hb⟩ := h.blocks mm hmm
  have hbounds := hb.layout.owned_bounds hown
  obtain ⟨hpos, c, hc, hfree, hcaddr, hcsize⟩ := hown
  have hnominal := h.nominal mm hmm
  obtain ⟨l₁, l₂, hlist⟩ := List.append_of_mem hmm
  obtain ⟨hfront, hguard⟩ := hfits l₁ mm l₂ hlist hbounds.1 (by omega)
  have hsplit : ∀ x ∈ mp.mlist, x = mm ∨ x ∈ l₁ ++ l₂ := fun x hx => by
    rw [hlist] at hx
    exact List.mem_cons.mp (List.perm_middle.mem_iff.mp hx)
  have hguard' : mp.mempoolSize ≤ mm.mempoolSize ∨
      ∃ d ∈ chunks mm.start, d.free = false ∧ c.addr < d.addr := by
    refine hguard.imp_right fun ⟨e, he', hlt, hestop⟩ => ?_
    obtain ⟨x, hx, -, d, hd, hdfree, hdaddr, hdsize⟩ := h.owned e he'
    rcases h.same_or_apart hmm hx with rfl | hapart
    · exact ⟨d, hd, hdfree, by omega⟩
    · obtain ⟨fl', al', hb'⟩ := h.blocks x hx
      have hdbounds := hb'.layout.le_stop hd
      unfold BlocksApart at hapart
      omega
  obtain ⟨pre, post, hcs⟩ := List.append_of_mem hc
  rw [hcs] at hb hguard'
  obtain ⟨mm', mem', cs', hchunk, hstep, hkept, -⟩ :=
    freeChunk_spec mp.mempoolSize hb hfree (by omega) hguard'
  have hindex : (if mp.autoExtend then mp.findMemoryList p else some 0) = some l₁.length := by
    cases hauto : mp.autoExtend with
    | true =>
      rw [if_pos rfl]
      have hstop : mm.stop = mm.start + mm.mempoolSize := rfl
      exact findMemoryList_eq hlist hfront hbounds.1 (by omega)
    | false =>
      obtain ⟨x, hx⟩ := h.single hauto
      have hlength := congrArg List.length hx
      rw [hlist, List.length_append, List.length_cons, List.length_singleton] at hlength
      have hzero : l₁.length = 0 := by omega
      simp [hzero]
  have hp : p - mpChunkHeader = c.addr := by
    rw [mpChunkHeader]
    omega
  have hget : (l₁ ++ mm :: l₂)[l₁.length]? = some mm := by simp
  have hset : (l₁ ++ mm :: l₂).set l₁.length mm' = l₁ ++ mm' :: l₂ := by simp
  refine ⟨{ mp with mlist := l₁ ++ mm' :: l₂, mem := mem' }, Function.update chunks mm.start cs',
    ?_, h.step hlist hstep (fun e he' => ?_) ?_, ⟨rfl, rfl, rfl, ?_⟩⟩
  · rw [LdMempool.mempoolFree, if_neg (by omega), hindex, Option.bind_some, hlist, hget,
      Option.bind_some, hp, hchunk, Option.map_some]
    simp only [hset]
  · obtain ⟨hmem, hne⟩ := List.mem_filter.mp he'
    obtain ⟨x, hx, hown⟩ := h.owned e hmem
    rcases hsplit x hx with rfl | hx'
    · obtain ⟨hpos', d, hd, hdfree, hdaddr, hdsize⟩ := hown
      have hdne : d.addr ≠ c.addr := fun heq => by
        have hep : e.1 ≠ p := by simpa using hne
        omega
      rw [hcs] at hd
      have hdrest := mem_of_mem_reflag hd (fun heq => hdne (by rw [heq])) ⟨c.addr, c.size, true⟩
      exact .inl ⟨hpos', d, hkept d hdrest hdfree, hdfree, hdaddr, hdsize⟩
    · exact .inr ⟨x, hx', hown⟩
  · exact h.distinct.sublist (List.filter_sublist.map _)
  · simp [hlist, hstep.size]

/-- Writing to live allocations and outside of the blocks changes nothing for the pool. -/
theorem PoolHolds.write (h : PoolHolds chunks mp live)
    (hmem : ∀ mm ∈ mp.mlist, ∀ a, mm.start ≤ a → a < mm.stop →
      (∀ e ∈ live, a < e.1 ∨ e.1 + e.2 ≤ a) → mem a = mp.mem a) :
    PoolHolds chunks { mp with mem := mem } live where
  blocks mm hmm := by
    obtain ⟨fl, al, hb⟩ := h.blocks mm hmm
    refine ⟨fl, al, hb.of_bytes fun c hc a ha hlt hend => ?_⟩
    have hbounds := hb.layout.le_stop hc
    refine hmem mm hmm a (by omega) (by omega) fun e he => ?_
    obtain ⟨x, hx, hown⟩ := h.owned e he
    rcases h.same_or_apart hmm hx with rfl | hapart
    · exact hb.layout.owned_off hown hc ha hlt hend
    · obtain ⟨fl', al', hb'⟩ := h.blocks x hx
      have hebounds := hb'.layout.owned_bounds hown
      unfold BlocksApart at hapart
      omega
  apart := h.apart
  wide := h.wide
  nominal := h.nominal
  size_lt := h.size_lt
  single := h.single
  owned := h.owned
  distinct := h.distinct

end LdacsSdk
