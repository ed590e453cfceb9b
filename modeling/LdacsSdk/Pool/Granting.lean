import LdacsSdk.Pool.Blocks

/-!
# Granting a chunk

The walk along the free list finds a chunk that is large enough or ends. A chunk that is granted as
a whole goes to the other list; a large one is split, and what remains of it takes its place in the
free list.
-/
namespace LdacsSdk

open Library

variable {mm mm' : MpMemory} {mem mem' mem'' : Mem} {stale total fuel a : ℕ}
  {loose loose' fl al fl' al' l₁ l₂ : List ℕ} {cs cs' pre post : List MpPiece} {c d : MpPiece}

/-- A free chunk became an allocated one at the same address that is large enough. -/
structure ChunkGranted (cs cs' : List MpPiece) (total a : ℕ) : Prop where
  kept : ∀ x ∈ cs, x.free = false → x ∈ cs'
  fresh : ∃ x ∈ cs, x.free = true ∧ x.addr = a
  granted : ∃ x ∈ cs', x.free = false ∧ x.addr = a ∧ total ≤ x.size

/-- A free chunk became the allocated chunk `d`; what is left of it behind, if anything, is free. -/
structure CarvedFrom (cs cs' : List MpPiece) (d : MpPiece) : Prop where
  chunks : ∃ pre c rest post, cs = pre ++ c :: post ∧ cs' = pre ++ d :: (rest ++ post) ∧
    c.free = true ∧ c.addr = d.addr ∧ ∀ f ∈ rest.head?, rest = [f] ∧ f.free = true
  free : d.free = false

theorem CarvedFrom.granted (h : CarvedFrom cs cs' d) (hle : total ≤ d.size) :
    ChunkGranted cs cs' total d.addr := by
  obtain ⟨pre, c, rest, post, rfl, rfl, hfree, haddr, -⟩ := h.chunks
  refine ⟨?_, ⟨c, by simp, hfree, haddr⟩, ⟨d, by simp, h.free, rfl, hle⟩⟩
  intro x hx hxfree
  rcases List.mem_append.mp hx with hx | hx
  · simp [hx]
  · rcases List.mem_cons.mp hx with rfl | hx
    · rw [hfree] at hxfree
      cases hxfree
    · simp [hx]

/-- `MP_DLINKLIST_INS_FRT` on the list of allocated chunks. -/
theorem insert_alloc (hb : BlockHolds stale [c.addr] mem mm cs fl al) (hc : c ∈ cs) :
    ∃ mem', mm.dlinklistInsFrt mem mm.allocList c.addr = some (mem', c.addr) ∧
      (readChunk mem' c.addr).allocMem = (readChunk mem c.addr).allocMem ∧
      KeepsOutside mm mem mem' ∧
      BlockHolds stale [] mem' { mm with allocList := c.addr } cs fl (c.addr :: al) := by
  obtain ⟨pre, post, rfl⟩ := List.append_of_mem hc
  have hnodup : (c.addr :: al).Nodup :=
    hb.allocs.nodup_iff.mpr ((hb.layout.nodup.sublist (List.filter_sublist.map _)))
  obtain ⟨mem', hmem', hthread, hrel⟩ := dlinklistInsFrt_spec hb.layout.spaced (heads_of_mem hc)
    (fun a ha => hb.al_heads ha) (List.nodup_cons.mp hnodup).1 hb.allocList
  refine ⟨mem', hmem', (hrel.kept c.addr (heads_of_mem hc)).1,
    fun a ha => hrel.bytes_off (hb.layout.outside_off ha), ?_⟩
  refine hb.rewrite rfl rfl rfl rfl (fun x hx => hrel.keeps_header hx (hb.headers x hx))
    (fun a ha => hrel.bytes_off ha) ?_ hthread hb.frees hb.allocs
  refine threaded_of_same hb.freeList fun x hx => hrel.same x (hb.fl_heads hx) fun hmem => ?_
  exact (hb.disjoint hx) hmem

/-- A free chunk is granted as a whole. -/
theorem takeChunk_spec (hb : BlockHolds stale [] mem mm (pre ++ c :: post) fl al)
    (hfree : c.free = true) (hd : d.addr = c.addr) (hsize : d.size = c.size)
    (hdfree : d.free = false) :
    ∃ mem' head fl', mm.takeChunk mem c.addr = some ({ mm with freeList := head }, mem') ∧
      KeepsOutside mm mem mem' ∧
      BlockHolds stale [c.addr] mem' { mm with freeList := head }
        (pre ++ d :: post) fl' al := by
  have hc : c ∈ pre ++ c :: post := by simp
  have hcS := heads_of_mem hc
  obtain ⟨l₁, l₂, rfl⟩ := hb.exists_free_split hc hfree
  obtain ⟨mid, head, hmid, hthread, hrel⟩ :=
    dlinklistDel_spec hb.layout.spaced (fun a ha => hb.fl_heads ha) hb.freeList
  have hfits := fits_readChunk mid c.addr
  obtain ⟨mem', hmem', hw⟩ := update_spec hb.layout.spaced hcS mid
    (fun h => { h with isFree := 0 })
    ⟨hfits.allocMem, hfits.prev, hfits.next, Nat.two_pow_pos 32⟩
  have hnotin : c.addr ∉ l₁ ++ l₂ :=
    (List.nodup_cons.mp (List.perm_middle.nodup_iff.mp (List.nodup_cons.mp hb.freeList.nodup).2)).1
  have hbytes (a : ℕ) (ha : OffHeads (pre ++ c :: post) a) : mem' a = mem a :=
    (hw.bytes_off hc ha).trans (hrel.bytes_off ha)
  refine ⟨mem', head, l₁ ++ l₂, ?_, fun a ha => hbytes a (hb.layout.outside_off ha), ?_⟩
  · rw [MpMemory.takeChunk, hmid]
    simp only [Option.bind_some, hmem', Option.map_some]
  · have hheads := hw.heads_reflag hb.layout hd hsize
      (fun x hx => hrel.keeps_header hx (hb.headers x hx)) rfl (by simp [hdfree])
    refine hb.rewrite hd hsize rfl rfl hheads hbytes ?_ ?_ ?_ ?_
    · exact threaded_of_same hthread fun x hx =>
        hw.same x (hb.fl_heads (by
          rcases List.mem_append.mp hx with hx | hx <;> simp [hx])) fun heq => hnotin (heq ▸ hx)
    · refine threaded_of_same hb.allocList fun x hx => ?_
      have hxS := hb.al_heads hx
      have hxc : x ≠ c.addr := fun heq => hb.not_mem_alloc hc hfree (heq ▸ hx)
      have hxl : x ∉ l₁ ++ l₂ := fun hmem => hb.disjoint (by
        rcases List.mem_append.mp hmem with hmem | hmem <;> simp [hmem]) hx
      rw [hw.same x hxS hxc, hrel.same x hxS hxl]
    · exact perm_addrsOf_erase hb.frees hfree (by simp [hdfree])
    · rw [List.singleton_append]
      have halloc := hb.allocs
      rw [List.nil_append, addrsOf_skip (by simp [hfree])] at halloc
      have hhere := (addrsOf_here hdfree : (addrsOf false (pre ++ d :: post)).Perm _)
      rw [hd] at hhere
      exact (halloc.cons c.addr).trans hhere.symm

/-- The header of the rest of a chunk is the old one with the smaller size. -/
theorem carve_spec {n f : MpPiece} (h : ChunkLayout mm cs) (hf : f ∈ cs) (hfsize : 41 ≤ f.size)
    (old : MpChunk) (hfits : old.Fits) (hsize : u64 (old.allocMem - n.size) = f.size) (mem : Mem) :
    ∃ m₁ m₂ mem', mm.update mem f.addr (fun _ => old) = some m₁ ∧
      mm.update m₁ f.addr (fun c => { c with allocMem := u64 (c.allocMem - n.size) }) = some m₂ ∧
      mm.chunkAt m₂ f.addr = some ⟨f.size, old.prev, old.next, old.isFree⟩ ∧
      mm.putEnd m₂ f.addr f.size = some mem' ∧
      readChunk mem' f.addr = ⟨f.size, old.prev, old.next, old.isFree⟩ ∧
      loadLe mem' (f.addr + f.size - 8) 8 = f.addr ∧
      (∀ a ∈ heads cs, a ≠ f.addr → readChunk mem' a = readChunk mem a) ∧
      (∀ d ∈ cs, d ≠ f → 41 ≤ d.size →
        loadLe mem' (d.addr + d.size - 8) 8 = loadLe mem (d.addr + d.size - 8) 8) ∧
      KeepsOutside mm mem mem' := by
  have hS := h.spaced
  have hfS := heads_of_mem hf
  obtain ⟨m₁, hm₁, hw₁⟩ := update_spec hS hfS mem (fun _ => old) hfits
  have hold := hw₁.chunk
  obtain ⟨m₂, hm₂, hw₂⟩ := update_spec hS hfS m₁
    (fun c => { c with allocMem := u64 (c.allocMem - n.size) })
    (by
      rw [hold]
      exact ⟨u64_lt _, hfits.prev, hfits.next, hfits.isFree⟩)
  have hnew : readChunk m₂ f.addr = ⟨f.size, old.prev, old.next, old.isFree⟩ := by
    rw [hw₂.chunk, hold, hsize]
  obtain ⟨mem', hmem', he⟩ := putEnd_spec h hf hfsize m₂
  have hbytes (a : ℕ) (ha : OffHeads cs a) : m₂ a = mem a :=
    (hw₂.bytes_off hf ha).trans (hw₁.bytes_off hf ha)
  refine ⟨m₁, m₂, mem', hm₁, hm₂, by rw [chunkAt_eq hS hfS, hnew], hmem',
    (he.same f.addr hfS).trans hnew, he.pointer, fun a ha hne => ?_, fun d hd hne hdsize => ?_,
    fun a ha => ?_⟩
  · rw [he.same a ha, hw₂.same a ha hne, hw₁.same a ha hne]
  · have haddr : d.addr ≠ f.addr := fun heq => hne (h.eq_of_addr hd hf heq)
    rw [he.ends d hd haddr, h.load_end hbytes hd hdsize]
  · have hbounds := h.le_stop hf
    rw [he.bytes a (by omega), hbytes a (h.outside_off ha)]

/-- The front of a split chunk gets its size and its flag. -/
theorem front_spec {n : MpPiece} (h : ChunkLayout mm cs) (hn : n ∈ cs) (hnsize : 41 ≤ n.size)
    (hlt : n.size < 2 ^ 64) (mem : Mem) :
    ∃ mid mem', mm.update mem n.addr (fun c => { c with isFree := 0, allocMem := n.size }) =
        some mid ∧
      mm.putEnd mid n.addr n.size = some mem' ∧
      (readChunk mem' n.addr).allocMem = n.size ∧ (readChunk mem' n.addr).isFree = 0 ∧
      loadLe mem' (n.addr + n.size - 8) 8 = n.addr ∧
      (∀ a ∈ heads cs, a ≠ n.addr → readChunk mem' a = readChunk mem a) ∧
      (∀ d ∈ cs, d ≠ n → 41 ≤ d.size →
        loadLe mem' (d.addr + d.size - 8) 8 = loadLe mem (d.addr + d.size - 8) 8) ∧
      KeepsOutside mm mem mem' := by
  have hS := h.spaced
  have hnS := heads_of_mem hn
  have hfits := fits_readChunk mem n.addr
  obtain ⟨mid, hmid, hw⟩ := update_spec hS hnS mem
    (fun c => { c with isFree := 0, allocMem := n.size })
    ⟨hlt, hfits.prev, hfits.next, Nat.two_pow_pos 32⟩
  obtain ⟨mem', hmem', he⟩ := putEnd_spec h hn hnsize mid
  have hchunk := (he.same n.addr hnS).trans hw.chunk
  refine ⟨mid, mem', hmid, hmem', by rw [hchunk], by rw [hchunk], he.pointer,
    fun a ha hne => ?_, fun d hd hne hdsize => ?_, fun a ha => ?_⟩
  · rw [he.same a ha, hw.same a ha hne]
  · have haddr : d.addr ≠ n.addr := fun heq => hne (h.eq_of_addr hd hn heq)
    rw [he.ends d hd haddr, h.load_end (fun a ha => hw.bytes_off hn ha) hd hdsize]
  · have hbounds := h.le_stop hn
    rw [he.bytes a (by omega), hw.bytes_off hn (h.outside_off ha)]

theorem mem_of_mem_split {n f x : MpPiece} (hx : x ∈ pre ++ n :: f :: post) (hn : x ≠ n)
    (hf : x ≠ f) (c : MpPiece) : x ∈ pre ++ c :: post := by
  simp only [List.mem_append, List.mem_cons, hn, hf, false_or] at hx
  rcases hx with hx | hx <;> simp [hx]

/-- The headers and the ends of the chunks that a split left alone, and of the two it made. -/
structure SplitInto (cs : List MpPiece) (l : List ℕ) (n f : MpPiece) (mem mem' : Mem) : Prop where
  front : n.Heads mem'
  rest : f.Heads mem'
  kept : ∀ x ∈ cs, x ≠ n → x ≠ f → x.Heads mem → x.Heads mem'
  frontEnd : loadLe mem' (n.addr + n.size - 8) 8 = n.addr
  restEnd : loadLe mem' (f.addr + f.size - 8) 8 = f.addr
  ends : ∀ x ∈ cs, x ≠ n → x ≠ f → 41 ≤ x.size →
    loadLe mem' (x.addr + x.size - 8) 8 = loadLe mem (x.addr + x.size - 8) 8
  same : ∀ a ∈ heads cs, a ≠ n.addr → a ≠ f.addr → a ∉ l → readChunk mem' a = readChunk mem a

/-- The writes of a split. -/
theorem splitChunk_writes {n f : MpPiece} (h : ChunkLayout mm (pre ++ n :: f :: post))
    (hl : ∀ a ∈ l₁ ++ l₂, a ∈ heads (pre ++ n :: f :: post) ∧ a ≠ f.addr)
    (hthread : Threaded (nextOf mm.freeList mem) (prevOf mem) (l₁ ++ n.addr :: l₂))
    (hf : f.addr = n.addr + n.size) (hnsize : 41 ≤ n.size) (hfsize : 41 ≤ f.size)
    (hsize : u64 ((readChunk mem n.addr).allocMem - n.size) = f.size)
    (hflag : (readChunk mem n.addr).isFree ≠ 0) (hnfree : n.free = false) (hffree : f.free = true) :
    ∃ mem' head, mm.splitChunk mem n.addr n.size = some ({ mm with freeList := head }, mem') ∧
      Threaded (nextOf head mem') (prevOf mem') (l₁ ++ f.addr :: l₂) ∧
      SplitInto (pre ++ n :: f :: post) (l₁ ++ l₂) n f mem mem' ∧ KeepsOutside mm mem mem' := by
  have hS := h.spaced
  have hn : n ∈ pre ++ n :: f :: post := by simp
  have hfmem : f ∈ pre ++ n :: f :: post := by simp
  have hnS := heads_of_mem hn
  have hfS := heads_of_mem hfmem
  have hfn : f.addr ≠ n.addr := by omega
  have hne : ∀ x ∈ pre ++ n :: f :: post, x ≠ n → x.addr ≠ n.addr := fun x hx hxn heq =>
    hxn (h.eq_of_addr hx hn heq)
  have hne' : ∀ x ∈ pre ++ n :: f :: post, x ≠ f → x.addr ≠ f.addr := fun x hx hxf heq =>
    hxf (h.eq_of_addr hx hfmem heq)
  obtain ⟨m₁, m₂, m₃, hm₁, hm₂, hchunk, hm₃, hchunk₃, hend₃, hsame₃, hends₃, hout₃⟩ :=
    carve_spec h hfmem hfsize _ (fits_readChunk mem n.addr) hsize mem
  have hall : ∀ a ∈ l₁ ++ n.addr :: l₂, a ∈ heads (pre ++ n :: f :: post) := fun a ha => by
    rcases List.mem_cons.mp (List.perm_middle.mem_iff.mp ha) with rfl | ha
    · exact hnS
    · exact (hl a ha).1
  obtain ⟨m₄, m₅, head, hm₄, hm₅, hthread₅, hrel⟩ := relinkTo_spec hS hall hthread hfS
    (fun hmem => (hl _ hmem).2 rfl) (by rw [hchunk₃]) (by rw [hchunk₃])
    (fun a ha => hsame₃ a (hl a ha).1 (hl a ha).2)
  have hnlt : n.size < 2 ^ 64 := by
    have hbounds := h.le_stop hn
    have hpos := h.start_pos
    have hstop := h.stop_le
    omega
  obtain ⟨m₆, m₇, hm₆, hm₇, hsize₇, hfree₇, hend₇, hsame₇, hends₇, hout₇⟩ :=
    front_spec h hn hnsize hnlt m₅
  have hnotin := (List.nodup_cons.mp (List.perm_middle.nodup_iff.mp
    (List.nodup_cons.mp hthread.nodup).2)).1
  have hkept (x : MpPiece) (hx : x ∈ pre ++ n :: f :: post) (hxn : x ≠ n) (h₃ : x.Heads m₃) :
      x.Heads m₇ := by
    rw [MpPiece.Heads, hsame₇ x.addr (heads_of_mem hx) (hne x hx hxn)]
    exact hrel.keeps_header hx h₃
  have hload (x : MpPiece) (hx : x ∈ pre ++ n :: f :: post) (hxn : x ≠ n) (hxsize : 41 ≤ x.size) :
      loadLe m₇ (x.addr + x.size - 8) 8 = loadLe m₃ (x.addr + x.size - 8) 8 :=
    (hends₇ x hx hxn hxsize).trans (h.load_end (fun a ha => hrel.bytes_off ha) hx hxsize)
  have hfnen : f ≠ n := fun heq => hfn (by rw [heq])
  refine ⟨m₇, head, ?_, ?_, ⟨?_, ?_, ?_, ?_, ?_, ?_, ?_⟩, ?_⟩
  · unfold pointNext at hm₄
    unfold pointPrev at hm₅
    simp only [MpMemory.splitChunk, chunkAt_eq hS hnS, Option.bind_some, ← hf, hm₁, hm₂, hchunk,
      hm₃, hm₄, hm₅, hm₆, hm₇, Option.map_some]
  · refine threaded_of_same hthread₅ fun x hx => ?_
    rcases List.mem_cons.mp (List.perm_middle.mem_iff.mp hx) with rfl | hx
    · exact hsame₇ _ hfS hfn
    · exact hsame₇ x (hl x hx).1 fun heq => hnotin (heq ▸ hx)
  · exact ⟨hsize₇, by simp [hfree₇, hnfree]⟩
  · exact hkept f hfmem hfnen ⟨by rw [hchunk₃], by simp [hchunk₃, hflag, hffree]⟩
  · intro x hx hxn hxf hheads
    refine hkept x hx hxn ?_
    rw [MpPiece.Heads, hsame₃ x.addr (heads_of_mem hx) (hne' x hx hxf)]
    exact hheads
  · exact hend₇
  · exact (hload f hfmem hfnen hfsize).trans hend₃
  · intro x hx hxn hxf hxsize
    exact (hload x hx hxn hxsize).trans (hends₃ x hx hxf hxsize)
  · intro a ha han haf hal
    rw [hsame₇ a ha han, hrel.same a ha hal, hsame₃ a ha haf]
  · exact (hout₃.trans fun a ha => hrel.bytes_off (h.outside_off ha)).trans hout₇

/-- The other chunks are apart from the two that a split makes. -/
theorem ChunkLayout.split_heads {n f x : MpPiece} (h : ChunkLayout mm (pre ++ c :: post))
    (hf : f.addr = c.addr + n.size) (hpos : 0 < n.size) (hlt : n.size < c.size)
    (hx : x ∈ pre ++ c :: post) (hne : x.addr ≠ c.addr) :
    x.addr ∈ heads (pre ++ n :: f :: post) ∧ x.addr ≠ f.addr := by
  constructor
  · have hold : x ∈ pre ++ n :: post := mem_of_mem_reflag hx (fun heq => hne (by rw [heq])) n
    apply heads_of_mem
    simp only [List.mem_append, List.mem_cons] at hold ⊢
    tauto
  · have hapart := h.pieces_apart hx (by simp : c ∈ pre ++ c :: post) hne
    have hwide := h.size_ge hx
    omega

/-- In the free list the chunk behind takes the place of the one that is split. -/
theorem free_of_split {n f : MpPiece}
    (h : (l₁ ++ c.addr :: l₂).Perm (addrsOf true (pre ++ c :: post))) (hfree : c.free = true)
    (hnfree : n.free = false) (hffree : f.free = true) :
    (l₁ ++ f.addr :: l₂).Perm (addrsOf true (pre ++ n :: f :: post)) := by
  have hfrees := perm_addrsOf_erase (d := n) h hfree (by simp [hnfree])
  rw [addrsOf_skip (by simp [hnfree])] at hfrees ⊢
  exact List.perm_middle.trans ((hfrees.cons f.addr).trans (addrsOf_here hffree).symm)

/-- The chunk in front of a split is one more allocated chunk. -/
theorem alloc_of_split {n f : MpPiece} (h : al.Perm (addrsOf false (pre ++ c :: post)))
    (hfree : c.free = true) (hnfree : n.free = false) (hffree : f.free = true) :
    (n.addr :: al).Perm (addrsOf false (pre ++ n :: f :: post)) := by
  rw [addrsOf_skip (by simp [hfree])] at h
  have hskip : addrsOf false (pre ++ f :: post) = addrsOf false (pre ++ post) :=
    addrsOf_skip (by simp [hffree])
  have hhere := (addrsOf_here hnfree : (addrsOf false (pre ++ n :: f :: post)).Perm _)
  rw [hskip] at hhere
  exact (h.cons n.addr).trans hhere.symm

/-- A large free chunk is split. -/
theorem splitChunk_spec {n f : MpPiece} (hb : BlockHolds 0 [] mem mm (pre ++ c :: post) fl al)
    (hfree : c.free = true) (hn : n.addr = c.addr) (hf : f.addr = c.addr + n.size)
    (hsize : n.size + f.size = c.size) (hnsize : 41 ≤ n.size) (hfsize : 41 ≤ f.size)
    (hnfree : n.free = false) (hffree : f.free = true) :
    ∃ mem' head fl',
      mm.splitChunk mem c.addr n.size = some ({ mm with freeList := head }, mem') ∧
      KeepsOutside mm mem mem' ∧
      BlockHolds 0 [c.addr] mem' { mm with freeList := head } (pre ++ n :: f :: post) fl' al := by
  have hc : c ∈ pre ++ c :: post := by simp
  have hlay := hb.layout.split hn hf hsize hnsize hfsize
  have hheads (x : MpPiece) (hx : x ∈ pre ++ c :: post) (hne : x.addr ≠ c.addr) :
      x.addr ∈ heads (pre ++ n :: f :: post) ∧ x.addr ≠ f.addr :=
    hb.layout.split_heads hf (by omega) (by omega) hx hne
  obtain ⟨l₁, l₂, rfl⟩ := hb.exists_free_split hc hfree
  have hnodup := (List.nodup_cons.mp (List.perm_middle.nodup_iff.mp
    (List.nodup_cons.mp hb.freeList.nodup).2)).1
  have hl : ∀ a ∈ l₁ ++ l₂, a ∈ heads (pre ++ n :: f :: post) ∧ a ≠ f.addr := fun a ha => by
    obtain ⟨x, hx, -, rfl⟩ := hb.free_mem (a := a) (List.perm_middle.mem_iff.mpr (by simp [ha]))
    have hne : x.addr ≠ c.addr := fun heq => hnodup (heq ▸ ha)
    exact hheads x hx hne
  obtain ⟨hsizec, hflagc⟩ := hb.headers c hc
  have hltc := hb.size_lt hc
  have hrest : u64 ((readChunk mem n.addr).allocMem - n.size) = f.size := by
    rw [hn, hsizec, u64_of_nonneg (by omega) (by omega)]
    omega
  have hflag : (readChunk mem n.addr).isFree ≠ 0 := by
    rw [hn]
    exact fun h0 => by simp [hflagc.mp h0] at hfree
  have hthread := hb.freeList
  rw [← hn] at hthread hf
  obtain ⟨mem', head, hsplit, hthread', hinto, hout⟩ :=
    splitChunk_writes hlay hl hthread hf hnsize hfsize hrest hflag hnfree hffree
  rw [hn] at hsplit
  have hlayout : ChunkLayout { mm with freeList := head } (pre ++ n :: f :: post) :=
    hlay.relist rfl rfl
  refine ⟨mem', head, l₁ ++ f.addr :: l₂, hsplit, hout, hlayout, fun x hx => ?_,
    fun x hx _ hend => ?_, hthread', ?_, ?_, ?_⟩
  · by_cases hxn : x = n
    · exact hxn ▸ hinto.front
    · by_cases hxf : x = f
      · exact hxf ▸ hinto.rest
      · exact hinto.kept x hx hxn hxf (hb.headers x (mem_of_mem_split hx hxn hxf c))
  · by_cases hxn : x = n
    · exact hxn ▸ hinto.frontEnd
    · by_cases hxf : x = f
      · exact hxf ▸ hinto.restEnd
      · have hx' := mem_of_mem_split hx hxn hxf c
        exact (hinto.ends x hx hxn hxf (hlayout.size_of_end hx hend)).trans
          (hb.ends x hx' (hb.layout.spaced.ne_zero _ (heads_of_mem hx')) hend)
  · refine threaded_of_same hb.allocList fun a ha => ?_
    obtain ⟨x, hx, -, rfl⟩ := hb.alloc_mem (a := a) ha
    have hxfl : x.addr ∉ c.addr :: (l₁ ++ l₂) := fun hmem =>
      hb.disjoint (List.perm_middle.mem_iff.mpr hmem) ha
    rw [List.mem_cons, not_or] at hxfl
    obtain ⟨hhead, hnef⟩ := hheads x hx hxfl.1
    exact hinto.same x.addr hhead (hn ▸ hxfl.1) hnef hxfl.2
  · exact free_of_split hb.frees hfree hnfree hffree
  · exact hn ▸ alloc_of_split hb.allocs hfree hnfree hffree

/-- The free chunk is taken as a whole or split. -/
theorem splitOrTake_spec (hb : BlockHolds 0 [] mem mm cs fl al) (hc : c ∈ cs)
    (hfree : c.free = true) (htotal : 41 ≤ total) (hle : total ≤ c.size) :
    ∃ mem' head fl' cs' d,
      (if (readChunk mem c.addr).allocMem - total > mpChunkHeader + mpChunkEnd then
          mm.splitChunk mem c.addr total
        else mm.takeChunk mem c.addr) = some ({ mm with freeList := head }, mem') ∧
      KeepsOutside mm mem mem' ∧
      BlockHolds 0 [c.addr] mem' { mm with freeList := head } cs' fl' al ∧
      CarvedFrom cs cs' d ∧ d.addr = c.addr ∧ total ≤ d.size := by
  obtain ⟨pre, post, rfl⟩ := List.append_of_mem hc
  rw [(hb.headers c hc).1, mpChunkHeader, mpChunkEnd]
  by_cases hlarge : c.size - total > 32 + 8
  · obtain ⟨mem', head, fl', hsplit, hout, hb'⟩ := splitChunk_spec
      (n := ⟨c.addr, total, false⟩) (f := ⟨c.addr + total, c.size - total, true⟩) hb hfree rfl rfl
      (Nat.add_sub_cancel' hle) htotal (Nat.succ_le_of_lt hlarge) rfl rfl
    refine ⟨mem', head, fl', _, _, (if_pos hlarge).trans hsplit, hout, hb',
      ⟨⟨pre, c, [_], post, rfl, rfl, hfree, rfl, ?_⟩, rfl⟩, rfl, le_rfl⟩
    intro f hf
    cases hf
    exact ⟨rfl, rfl⟩
  · obtain ⟨mem', head, fl', htake, hout, hb'⟩ :=
      takeChunk_spec (d := ⟨c.addr, c.size, false⟩) hb hfree rfl rfl rfl
    refine ⟨mem', head, fl', _, _, (if_neg hlarge).trans htake, hout, hb',
      ⟨⟨pre, c, [], post, rfl, rfl, hfree, rfl, ?_⟩, rfl⟩, rfl, hle⟩
    intro f hf
    cases hf

/-- Granting a free chunk that is large enough. -/
theorem grantChunk_spec (hb : BlockHolds 0 [] mem mm cs fl al) (hc : c ∈ cs)
    (hfree : c.free = true) (htotal : 41 ≤ total) (hle : total ≤ c.size) :
    ∃ mm' mem' cs' d, mm.grantChunk mem c.addr total = some (mm', mem') ∧
      BlockStep mm mm' mem mem' cs' ∧ CarvedFrom cs cs' d ∧ d.addr = c.addr ∧ total ≤ d.size ∧
      mm'.allocMem = u64 (mm.allocMem + d.size) ∧
      mm'.allocProgMem = u64 (mm.allocProgMem + (d.size - mpChunkHeader - mpChunkEnd)) := by
  obtain ⟨mid, head, fl', cs', d, hmid, hout, hmidb, hcarved, haddr, hsize⟩ :=
    splitOrTake_spec hb hc hfree htotal hle
  have hd : d ∈ cs' := by
    obtain ⟨pre, c, rest, post, -, rfl, -⟩ := hcarved.chunks
    simp
  rw [← haddr] at hmidb
  obtain ⟨mem', hmem', -, hout', hb'⟩ := insert_alloc hmidb hd
  have hchunk := chunkAt_eq hmidb.layout.spaced (heads_of_mem hd) mem'
  have hgranted := (hb'.headers d hd).1
  rw [haddr] at hmem' hchunk hgranted
  refine ⟨{ mm with
      freeList := head, allocList := c.addr, allocMem := u64 (mm.allocMem + d.size)
      allocProgMem := u64 (mm.allocProgMem + (d.size - mpChunkHeader - mpChunkEnd)) }, mem', cs', d,
    ?_, ⟨rfl, rfl, hout.trans hout', _, _, hb'.recount rfl rfl rfl haddr.symm⟩, hcarved, haddr,
    hsize, rfl, rfl⟩
  rw [MpMemory.grantChunk, hb.chunkAt hc, Option.bind_some, hmid]
  simp only [Option.bind_some, hmem', hchunk, Option.map_some, hgranted]

/-- The walk along the free list ends, at a free chunk that is large enough or at none. -/
theorem findFree_spec (total : ℕ) (hb : BlockHolds 0 [] mem mm cs fl al) {done rest : List ℕ}
    (hfl : fl = done ++ rest) (hfuel : rest.length < fuel) :
    ∃ r, mm.findFree mem total fuel (rest.headD 0) = some r ∧
      (∀ a, r = some a → ∃ c ∈ cs, c.free = true ∧ c.addr = a ∧ total ≤ c.size) ∧
      (r = none → ∀ c ∈ cs, c.addr ∈ rest → c.size < total) := by
  induction fuel generalizing done rest with
  | zero => omega
  | succ fuel ih =>
    cases rest with
    | nil => exact ⟨none, by simp [MpMemory.findFree], by simp, by simp⟩
    | cons x rest =>
      obtain ⟨c, hc, hfree, rfl⟩ := hb.free_mem (a := x) (by simp [hfl])
      have hx0 := hb.layout.spaced.ne_zero _ (heads_of_mem hc)
      have hthread := hb.freeList
      rw [hfl] at hthread
      have hnext : (readChunk mem c.addr).next = rest.headD 0 := by
        have hon := hthread.follow
        rwa [nextOf, if_neg hx0] at hon
      rw [List.headD_cons, MpMemory.findFree, if_neg hx0, hb.chunkAt hc, Option.bind_some,
        (hb.headers c hc).1]
      by_cases hle : total ≤ c.size
      · rw [if_pos hle]
        exact ⟨_, rfl, fun a ha => ⟨c, hc, hfree, Option.some.inj ha, hle⟩, by simp⟩
      · rw [if_neg hle, hnext]
        have hsplit : fl = done ++ [c.addr] ++ rest := by simp [hfl]
        have hless : rest.length < fuel := by
          rw [List.length_cons] at hfuel
          omega
        obtain ⟨r, hr, hfound, hsmall⟩ := ih hsplit hless
        refine ⟨r, hr, hfound, ?_⟩
        intro hnone d hd hmem
        rcases List.mem_cons.mp hmem with heq | hmem
        · rw [hb.layout.eq_of_addr hd hc heq]
          exact Nat.lt_of_not_le hle
        · exact hsmall hnone d hd hmem

end LdacsSdk
