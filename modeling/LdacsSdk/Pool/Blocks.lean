import LdacsSdk.Library.Tiling
import LdacsSdk.Pool.ChunkLists

/-!
# A block of the pool

The chunks of a block tile it, each with its size and its flag in its header, the free ones on the
free list and the others on the list of allocated ones, and every chunk but the last has a pointer
to itself at its end.
-/
namespace LdacsSdk

open Library

/-- A chunk. -/
structure MpPiece where
  addr : ℕ
  size : ℕ
  free : Bool
  deriving DecidableEq, Repr

def heads (cs : List MpPiece) : Set ℕ := {a | ∃ c ∈ cs, c.addr = a}

/-- The addresses of the chunks that are free, or of those that are not. -/
def addrsOf (free : Bool) (cs : List MpPiece) : List ℕ :=
  (cs.filter fun c => c.free == free).map MpPiece.addr

/-- The chunks tile the block, with room for their headers. Only a block that is one chunk may be
too small for a header and a pointer at the end. -/
structure ChunkLayout (mm : MpMemory) (cs : List MpPiece) : Prop where
  tiling : Tiling MpPiece.addr MpPiece.size mm.start cs mm.stop
  wide : ∀ c ∈ cs, 32 ≤ c.size ∧ (41 ≤ c.size ∨ c.size = mm.mempoolSize)
  start_pos : 0 < mm.start
  stop_le : mm.stop ≤ 2 ^ 64

/-- The header of the chunk has its size and its flag. -/
def MpPiece.Heads (c : MpPiece) (mem : Mem) : Prop :=
  (readChunk mem c.addr).allocMem = c.size ∧ ((readChunk mem c.addr).isFree = 0 ↔ c.free = false)

/-- The block as its chunks and lists have it. The chunk at `stale` may have an old pointer at its
end, and the allocated chunks in `loose` are not on their list. -/
structure BlockHolds (stale : ℕ) (loose : List ℕ) (mem : Mem) (mm : MpMemory) (cs : List MpPiece)
    (fl al : List ℕ) : Prop where
  layout : ChunkLayout mm cs
  headers : ∀ c ∈ cs, c.Heads mem
  ends : ∀ c ∈ cs, c.addr ≠ stale → c.addr + c.size ≠ mm.stop →
    loadLe mem (c.addr + c.size - 8) 8 = c.addr
  freeList : Threaded (nextOf mm.freeList mem) (prevOf mem) fl
  allocList : Threaded (nextOf mm.allocList mem) (prevOf mem) al
  frees : fl.Perm (addrsOf true cs)
  allocs : (loose ++ al).Perm (addrsOf false cs)

/-- Only bytes of the block were changed. -/
def KeepsOutside (mm : MpMemory) (mem mem' : Mem) : Prop :=
  ∀ a, a < mm.start ∨ mm.stop ≤ a → mem' a = mem a

/-- What a step on a block leaves: the same block with chunks and lists, and all other memory. -/
structure BlockStep (mm mm' : MpMemory) (mem mem' : Mem) (cs' : List MpPiece) : Prop where
  start : mm'.start = mm.start
  size : mm'.mempoolSize = mm.mempoolSize
  outside : KeepsOutside mm mem mem'
  holds : ∃ fl al, BlockHolds 0 [] mem' mm' cs' fl al

/-- No header has the byte. -/
def OffHeads (cs : List MpPiece) (a : ℕ) : Prop := ∀ c ∈ cs, a < c.addr ∨ c.addr + 32 ≤ a

variable {mm mm' : MpMemory} {mem mem' mem'' : Mem} {stale : ℕ} {free : Bool}
  {loose loose' fl al fl' al' l₁ l₂ : List ℕ} {cs cs' pre post : List MpPiece} {c d : MpPiece}
  {hdr : MpChunk} {a : ℕ}

theorem mem_addrsOf : a ∈ addrsOf free cs ↔ ∃ c ∈ cs, c.free = free ∧ c.addr = a := by
  simp [addrsOf, and_assoc]

theorem addrsOf_skip (h : c.free ≠ free) :
    addrsOf free (pre ++ c :: post) = addrsOf free (pre ++ post) := by
  simp [addrsOf, h]

theorem addrsOf_here (h : c.free = free) :
    (addrsOf free (pre ++ c :: post)).Perm (c.addr :: addrsOf free (pre ++ post)) := by
  simp [addrsOf, h]

/-- A chunk is taken off its list and gets the other flag. -/
theorem perm_addrsOf_erase (h : (l₁ ++ c.addr :: l₂).Perm (addrsOf free (pre ++ c :: post)))
    (hc : c.free = free) (hd : d.free ≠ free) :
    (l₁ ++ l₂).Perm (addrsOf free (pre ++ d :: post)) := by
  rw [addrsOf_skip hd]
  exact (List.perm_cons c.addr).mp (List.perm_middle.symm.trans (h.trans (addrsOf_here hc)))

theorem heads_of_mem (hc : c ∈ cs) : c.addr ∈ heads cs := ⟨c, hc, rfl⟩

theorem mem_of_mem_reflag {x : MpPiece} (hx : x ∈ pre ++ d :: post) (hne : x ≠ d) (c : MpPiece) :
    x ∈ pre ++ c :: post := by
  rcases List.mem_append.mp hx with hx | hx
  · simp [hx]
  · simp [(List.mem_cons.mp hx).resolve_left hne]

theorem KeepsOutside.trans (h : KeepsOutside mm mem mem') (h' : KeepsOutside mm mem' mem'') :
    KeepsOutside mm mem mem'' := fun a ha => (h' a ha).trans (h a ha)

namespace ChunkLayout

variable (h : ChunkLayout mm cs)

include h

theorem le_stop (hc : c ∈ cs) : mm.start ≤ c.addr ∧ c.addr + c.size ≤ mm.stop := h.tiling.bounds hc

theorem size_ge (hc : c ∈ cs) : 32 ≤ c.size := (h.wide c hc).1

theorem size_of_end (hc : c ∈ cs) (hend : c.addr + c.size ≠ mm.stop) : 41 ≤ c.size := by
  have hbounds := h.le_stop hc
  have hwide := (h.wide c hc).2
  have hstop : mm.stop = mm.start + mm.mempoolSize := rfl
  omega

theorem pieces_apart (hc : c ∈ cs) (hd : d ∈ cs) (hne : c.addr ≠ d.addr) :
    c.addr + c.size ≤ d.addr ∨ d.addr + d.size ≤ c.addr := h.tiling.apart hc hd hne

theorem spaced : Spaced mm (heads cs) where
  inside := by
    rintro a ⟨c, hc, rfl⟩
    have hbounds := h.le_stop hc
    have hwide := h.size_ge hc
    exact ⟨hbounds.1, le_trans (by simp only [mpChunkHeader]; omega) hbounds.2⟩
  ne_zero := by
    rintro a ⟨c, hc, rfl⟩
    have hbounds := h.le_stop hc
    have hpos := h.start_pos
    omega
  short := by
    rintro a ⟨c, hc, rfl⟩
    have hbounds := h.le_stop hc
    have hwide := h.size_ge hc
    have hstop := h.stop_le
    omega
  apart := by
    rintro a ⟨c, hc, rfl⟩ b ⟨d, hd, rfl⟩ hne
    have hapart := h.pieces_apart hc hd hne
    have hwidec := h.size_ge hc
    have hwided := h.size_ge hd
    omega

theorem nodup : (cs.map MpPiece.addr).Nodup :=
  h.tiling.nodup fun c hc => by
    have hwide := h.size_ge hc
    omega

theorem eq_of_addr (hc : c ∈ cs) (hd : d ∈ cs) (heq : c.addr = d.addr) : c = d :=
  List.inj_on_of_nodup_map h.nodup hc hd heq

/-- The pointer at the end of a chunk is in no header. -/
theorem end_off (hc : c ∈ cs) (hsize : 41 ≤ c.size) (ha : c.addr + c.size - 8 ≤ a)
    (hlt : a < c.addr + c.size) : OffHeads cs a := fun d hd => by
  by_cases heq : c.addr = d.addr
  · omega
  · have hapart := h.pieces_apart hc hd heq
    have hwided := h.size_ge hd
    omega

theorem load_end (hbytes : ∀ a, OffHeads cs a → mem' a = mem a) (hc : c ∈ cs)
    (hsize : 41 ≤ c.size) :
    loadLe mem' (c.addr + c.size - 8) 8 = loadLe mem (c.addr + c.size - 8) 8 :=
  loadLe_congr fun x hx hlt => hbytes x (h.end_off hc hsize hx (by omega))

/-- Headers and pointers at the ends are in the block. -/
theorem outside_off (ha : a < mm.start ∨ mm.stop ≤ a) : OffHeads cs a := fun c hc => by
  have hbounds := h.le_stop hc
  have hwide := h.size_ge hc
  omega

end ChunkLayout

/-- A chunk may get another flag. -/
theorem ChunkLayout.reflag (h : ChunkLayout mm (pre ++ c :: post)) (hd : d.addr = c.addr)
    (hsize : d.size = c.size) : ChunkLayout mm (pre ++ d :: post) where
  tiling := h.tiling.replace (m := [d]) ⟨hd, by rw [hsize]; rfl⟩
  wide x hx := by
    have hwide := h.wide c (by simp)
    rcases List.mem_append.mp hx with hx | hx
    · exact h.wide x (by simp [hx])
    · rcases List.mem_cons.mp hx with rfl | hx
      · rwa [hsize]
      · exact h.wide x (by simp [hx])
  start_pos := h.start_pos
  stop_le := h.stop_le

/-- A large chunk may be two. -/
theorem ChunkLayout.split {n f : MpPiece} (h : ChunkLayout mm (pre ++ c :: post))
    (hn : n.addr = c.addr) (hf : f.addr = c.addr + n.size) (hsize : n.size + f.size = c.size)
    (hnsize : 41 ≤ n.size) (hfsize : 41 ≤ f.size) : ChunkLayout mm (pre ++ n :: f :: post) where
  tiling := h.tiling.replace (m := [n, f]) ⟨hn, hf, by rw [← hsize, Nat.add_assoc]; rfl⟩
  wide x hx := by
    rcases List.mem_append.mp hx with hx | hx
    · exact h.wide x (by simp [hx])
    · rcases List.mem_cons.mp hx with rfl | hx
      · omega
      · rcases List.mem_cons.mp hx with rfl | hx
        · omega
        · exact h.wide x (by simp [hx])
  start_pos := h.start_pos
  stop_le := h.stop_le

/-- Two neighbours may be one chunk. -/
theorem ChunkLayout.join {n f : MpPiece} (h : ChunkLayout mm (pre ++ n :: f :: post))
    (hc : c.addr = n.addr) (hsize : c.size = n.size + f.size) :
    ChunkLayout mm (pre ++ c :: post) where
  tiling := by
    obtain ⟨hpre, hrest⟩ := h.tiling.around
    have hpost := hrest.2
    rw [Nat.add_assoc, ← hsize] at hpost
    exact tiling_append.mpr ⟨n.addr, hpre, hc, hpost⟩
  wide x hx := by
    have hwiden := (h.wide n (by simp)).1
    have hwidef := (h.wide f (by simp)).1
    rcases List.mem_append.mp hx with hx | hx
    · exact h.wide x (by simp [hx])
    · rcases List.mem_cons.mp hx with rfl | hx
      · omega
      · exact h.wide x (by simp [hx])
  start_pos := h.start_pos
  stop_le := h.stop_le

/-- The lists of the block do not matter to its chunks. -/
theorem ChunkLayout.relist (h : ChunkLayout mm cs) (hstart : mm'.start = mm.start)
    (hsize : mm'.mempoolSize = mm.mempoolSize) : ChunkLayout mm' cs := by
  have hstop : mm'.stop = mm.stop := by rw [MpMemory.stop, MpMemory.stop, hstart, hsize]
  exact ⟨by rw [hstart, hstop]; exact h.tiling, by rw [hsize]; exact h.wide,
    by rw [hstart]; exact h.start_pos, by rw [hstop]; exact h.stop_le⟩

/-- Only the pointer at the end of the chunk was set. -/
structure EndPut (cs : List MpPiece) (c : MpPiece) (mem mem' : Mem) : Prop where
  pointer : loadLe mem' (c.addr + c.size - 8) 8 = c.addr
  bytes : ∀ a, a < c.addr + c.size - 8 ∨ c.addr + c.size ≤ a → mem' a = mem a
  same : ∀ a ∈ heads cs, readChunk mem' a = readChunk mem a
  ends : ∀ d ∈ cs, d.addr ≠ c.addr →
    loadLe mem' (d.addr + d.size - 8) 8 = loadLe mem (d.addr + d.size - 8) 8

theorem putEnd_spec (h : ChunkLayout mm cs) (hc : c ∈ cs) (hsize : 41 ≤ c.size) (mem : Mem) :
    ∃ mem', mm.putEnd mem c.addr c.size = some mem' ∧ EndPut cs c mem mem' := by
  have hbounds := h.le_stop hc
  have hstop := h.stop_le
  have hinside : mm.Inside (c.addr + c.size - mpChunkEnd) mpChunkEnd := by
    unfold MpMemory.Inside mpChunkEnd
    omega
  have hbytes (a : ℕ) (ha : a < c.addr + c.size - 8 ∨ c.addr + c.size ≤ a) :
      storeLe mem (c.addr + c.size - 8) 8 c.addr a = mem a := storeLe_of_outside (by omega)
  refine ⟨_, if_pos hinside, loadLe_storeLe (by omega), hbytes, fun a ha => ?_, fun d hd hne => ?_⟩
  · obtain ⟨d, hd, rfl⟩ := ha
    refine readChunk_congr fun a ha hlt => hbytes a ?_
    by_contra hin
    have hoff := h.end_off (a := a) hc hsize (by omega) (by omega) d hd
    omega
  · have hapart := h.pieces_apart hd hc hne
    have hwide := h.size_ge hd
    exact loadLe_congr fun a ha hlt => hbytes a (by omega)

theorem EndPut.keeps_header (h : EndPut cs c mem mem') (hd : d ∈ cs) (hheads : d.Heads mem) :
    d.Heads mem' := by
  rw [MpPiece.Heads, h.same d.addr (heads_of_mem hd)]
  exact hheads

theorem Relinked.keeps_header (h : Relinked (heads cs) l₁ mem mem') (hc : c ∈ cs)
    (hheads : c.Heads mem) : c.Heads mem' := by
  obtain ⟨hsize, hfree⟩ := h.kept c.addr (heads_of_mem hc)
  rw [MpPiece.Heads, hsize, hfree]
  exact hheads

theorem Written.keeps_header (h : Written (heads cs) a hdr mem mem') (hc : c ∈ cs)
    (hne : c.addr ≠ a) (hheads : c.Heads mem) : c.Heads mem' := by
  rw [MpPiece.Heads, h.same c.addr (heads_of_mem hc) hne]
  exact hheads

/-- The headers after the flag of one chunk was written. -/
theorem Written.heads_reflag (h : Written (heads (pre ++ c :: post)) c.addr hdr mem mem')
    (hlayout : ChunkLayout mm (pre ++ c :: post)) (hd : d.addr = c.addr) (hsize : d.size = c.size)
    (hheads : ∀ x ∈ pre ++ c :: post, x.Heads mem)
    (hsame : hdr.allocMem = (readChunk mem c.addr).allocMem)
    (hflag : hdr.isFree = 0 ↔ d.free = false) : ∀ x ∈ pre ++ d :: post, x.Heads mem' := by
  intro x hx
  by_cases hxd : x = d
  · rw [hxd, MpPiece.Heads, hd, h.chunk, hsize]
    exact ⟨hsame.trans (hheads c (by simp)).1, hflag⟩
  · have hx' := mem_of_mem_reflag hx hxd c
    have hne : x.addr ≠ c.addr := fun heq =>
      hxd ((hlayout.reflag hd hsize).eq_of_addr hx (by simp) (heq.trans hd.symm))
    exact h.keeps_header hx' hne (hheads x hx')

theorem Relinked.bytes_off (h : Relinked (heads cs) l₁ mem mem') (ha : OffHeads cs a) :
    mem' a = mem a :=
  h.bytes a fun x hx => by
    obtain ⟨c, hc, rfl⟩ := hx
    exact ha c hc

theorem Written.bytes_off (h : Written (heads cs) c.addr hdr mem mem') (hc : c ∈ cs)
    (ha : OffHeads cs a) : mem' a = mem a := h.bytes a (ha c hc)

namespace BlockHolds

section

variable (hb : BlockHolds stale loose mem mm cs fl al)

include hb

theorem free_mem (ha : a ∈ fl) : ∃ c ∈ cs, c.free = true ∧ c.addr = a :=
  mem_addrsOf.mp (hb.frees.mem_iff.mp ha)

theorem alloc_mem (ha : a ∈ loose ++ al) : ∃ c ∈ cs, c.free = false ∧ c.addr = a :=
  mem_addrsOf.mp (hb.allocs.mem_iff.mp ha)

/-- No chunk is on both lists. -/
theorem not_mem_alloc (hc : c ∈ cs) (hfree : c.free = true) : c.addr ∉ loose ++ al := fun hmem => by
  obtain ⟨d, hd, hdfree, haddr⟩ := hb.alloc_mem hmem
  rw [hb.layout.eq_of_addr hd hc haddr, hfree] at hdfree
  cases hdfree

theorem not_mem_free (hc : c ∈ cs) (hfree : c.free = false) : c.addr ∉ fl := fun hmem => by
  obtain ⟨d, hd, hdfree, haddr⟩ := hb.free_mem hmem
  rw [hb.layout.eq_of_addr hd hc haddr, hfree] at hdfree
  cases hdfree

theorem disjoint (ha : a ∈ fl) : a ∉ loose ++ al := fun hal => by
  obtain ⟨c, hc, hfree, rfl⟩ := hb.free_mem ha
  exact hb.not_mem_alloc hc hfree hal

theorem fl_heads (ha : a ∈ fl) : a ∈ heads cs := by
  obtain ⟨c, hc, -, rfl⟩ := hb.free_mem ha
  exact heads_of_mem hc

theorem al_heads (ha : a ∈ al) : a ∈ heads cs := by
  obtain ⟨c, hc, -, rfl⟩ := hb.alloc_mem (List.mem_append_right loose ha)
  exact heads_of_mem hc

/-- A chunk that is free stands somewhere on the free list. -/
theorem exists_free_split (hc : c ∈ cs) (hfree : c.free = true) :
    ∃ l₁ l₂, fl = l₁ ++ c.addr :: l₂ :=
  List.append_of_mem (hb.frees.mem_iff.mpr (mem_addrsOf.mpr ⟨c, hc, hfree, rfl⟩))

theorem chunkAt (hc : c ∈ cs) : mm.chunkAt mem c.addr = some (readChunk mem c.addr) :=
  chunkAt_eq hb.layout.spaced (heads_of_mem hc) mem

theorem size_lt (hc : c ∈ cs) : c.size < 2 ^ 64 := by
  have hbounds := hb.layout.le_stop hc
  have hpos := hb.layout.start_pos
  have hstop := hb.layout.stop_le
  omega

theorem length_le : cs.length ≤ mm.mempoolSize := by
  have hlength := hb.layout.tiling.length_le fun c hc => by
    have hwide := hb.layout.size_ge hc
    omega
  have hstop : mm.stop = mm.start + mm.mempoolSize := rfl
  omega

/-- The pointers at the ends stay as long as only headers are written. -/
theorem ends_of_off (hbytes : ∀ a, OffHeads cs a → mem' a = mem a) (hc : c ∈ cs)
    (hstale : c.addr ≠ stale) (hend : c.addr + c.size ≠ mm.stop) :
    loadLe mem' (c.addr + c.size - 8) 8 = c.addr :=
  (hb.layout.load_end hbytes hc (hb.layout.size_of_end hc hend)).trans (hb.ends c hc hstale hend)

end

/-- Headers were written: a chunk may have got another flag, and the lists other chunks. -/
theorem rewrite (hb : BlockHolds stale loose mem mm (pre ++ c :: post) fl al)
    (hd : d.addr = c.addr) (hsize : d.size = c.size) (hstart : mm'.start = mm.start)
    (hblock : mm'.mempoolSize = mm.mempoolSize)
    (hheads : ∀ x ∈ pre ++ d :: post, x.Heads mem')
    (hbytes : ∀ a, OffHeads (pre ++ c :: post) a → mem' a = mem a)
    (hfree : Threaded (nextOf mm'.freeList mem') (prevOf mem') fl')
    (halloc : Threaded (nextOf mm'.allocList mem') (prevOf mem') al')
    (hfrees : fl'.Perm (addrsOf true (pre ++ d :: post)))
    (hallocs : (loose' ++ al').Perm (addrsOf false (pre ++ d :: post))) :
    BlockHolds stale loose' mem' mm' (pre ++ d :: post) fl' al' where
  layout := (hb.layout.reflag hd hsize).relist hstart hblock
  headers := hheads
  ends x hx hstale hend := by
    have hstop : mm'.stop = mm.stop := by rw [MpMemory.stop, MpMemory.stop, hstart, hblock]
    rw [hstop] at hend
    rcases List.mem_append.mp hx with hx | hx
    · exact hb.ends_of_off hbytes (by simp [hx]) hstale hend
    · rcases List.mem_cons.mp hx with rfl | hx
      · rw [hd, hsize]
        rw [hd] at hstale
        rw [hd, hsize] at hend
        exact hb.ends_of_off hbytes (by simp) hstale hend
      · exact hb.ends_of_off hbytes (by simp [hx]) hstale hend
  freeList := hfree
  allocList := halloc
  frees := hfrees
  allocs := hallocs

/-- Bytes that are in no header and in no pointer at an end do not matter. -/
theorem of_bytes (hb : BlockHolds stale loose mem mm cs fl al)
    (hbytes : ∀ c ∈ cs, ∀ a, c.addr ≤ a → a < c.addr + c.size →
      (a < c.addr + 32 ∨ c.addr + c.size - 8 ≤ a) → mem' a = mem a) :
    BlockHolds stale loose mem' mm cs fl al := by
  have hsame : ∀ c ∈ cs, readChunk mem' c.addr = readChunk mem c.addr := fun c hc =>
    readChunk_congr fun a ha hlt => by
      have hwide := hb.layout.size_ge hc
      exact hbytes c hc a ha (by omega) (.inl hlt)
  have hlist : ∀ a ∈ heads cs, readChunk mem' a = readChunk mem a := by
    rintro a ⟨c, hc, rfl⟩
    exact hsame c hc
  refine ⟨hb.layout, fun c hc => ?_, fun c hc hstale hend => ?_,
    threaded_of_same hb.freeList fun a ha => hlist a (hb.fl_heads ha),
    threaded_of_same hb.allocList fun a ha => hlist a (hb.al_heads ha), hb.frees, hb.allocs⟩
  · rw [MpPiece.Heads, hsame c hc]
    exact hb.headers c hc
  · have hwide := hb.layout.size_ge hc
    have hload : loadLe mem' (c.addr + c.size - 8) 8 = loadLe mem (c.addr + c.size - 8) 8 :=
      loadLe_congr fun a ha hlt => hbytes c hc a (by omega) (by omega) (.inr ha)
    exact hload.trans (hb.ends c hc hstale hend)

/-- The counters of the block do not matter. -/
theorem recount (hb : BlockHolds stale loose mem mm cs fl al) (hstart : mm'.start = mm.start)
    (hsize : mm'.mempoolSize = mm.mempoolSize) (hfree : mm'.freeList = mm.freeList)
    (halloc : mm'.allocList = mm.allocList) : BlockHolds stale loose mem mm' cs fl al where
  layout := hb.layout.relist hstart hsize
  headers := hb.headers
  ends c hc hstale hend := hb.ends c hc hstale (by
    rwa [MpMemory.stop, hstart, hsize] at hend)
  freeList := by
    rw [hfree]
    exact hb.freeList
  allocList := by
    rw [halloc]
    exact hb.allocList
  frees := hb.frees
  allocs := hb.allocs

end BlockHolds

end LdacsSdk
