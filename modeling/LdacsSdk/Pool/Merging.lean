import LdacsSdk.Library.Coalescing
import LdacsSdk.Pool.Blocks

/-!
# Merging a chunk that is freed

A chunk that is freed changes its list. The walk back over the pointers at the ends comes to a free
chunk in front of it, the walk on adds the free chunks behind, and the pointer at the end of what
came of them is set at last.
-/
namespace LdacsSdk

open Library

variable {mm mm' : MpMemory} {mem mem' mem'' : Mem} {stale fr fuel a : ℕ}
  {loose loose' fl al fl' al' l₁ l₂ : List ℕ} {cs cs' pre post : List MpPiece}
  {c d n f q : MpPiece}

/-- The chunk between `pre` and `post` and all free chunks next to it became one free chunk. -/
def Coalesced (pre post cs' : List MpPiece) : Prop :=
  ∃ front r₁ q r₂ back, pre = front ++ r₁ ∧ post = r₂ ++ back ∧ cs' = front ++ q :: back ∧
    q.free = true ∧ (∀ x ∈ r₁ ++ r₂, x.free = true) ∧ (∀ x ∈ front.getLast?, x.free = false) ∧
    ∀ x ∈ back.head?, x.free = false

/-- A chunk goes from the list of allocated chunks to the free list. -/
theorem release_spec (hb : BlockHolds 0 [] mem mm (pre ++ c :: post) fl al) (hc : c.free = false)
    (hd : d.addr = c.addr) (hsize : d.size = c.size) (hfree : d.free = true) :
    ∃ m₁ m₂ mem' head al', mm.dlinklistDel mem mm.allocList c.addr = some (m₁, head) ∧
      mm.dlinklistInsFrt m₁ mm.freeList c.addr = some (m₂, c.addr) ∧
      mm.update m₂ c.addr (fun c => { c with isFree := 1 }) = some mem' ∧
      KeepsOutside mm mem mem' ∧
      BlockHolds 0 [] mem' { mm with freeList := c.addr, allocList := head } (pre ++ d :: post)
        (c.addr :: fl) al' := by
  have hmem : c ∈ pre ++ c :: post := by simp
  have hcS := heads_of_mem hmem
  have hS := hb.layout.spaced
  have hnotfree := hb.not_mem_free hmem hc
  obtain ⟨l₁, l₂, rfl⟩ := List.append_of_mem
    (hb.allocs.mem_iff.mpr (mem_addrsOf.mpr ⟨c, hmem, hc, rfl⟩) : c.addr ∈ al)
  have hnotin := (List.nodup_cons.mp (List.perm_middle.nodup_iff.mp
    (List.nodup_cons.mp hb.allocList.nodup).2)).1
  have hsub : ∀ a ∈ l₁ ++ l₂, a ∈ l₁ ++ c.addr :: l₂ := fun a ha =>
    List.perm_middle.mem_iff.mpr (List.mem_cons_of_mem _ ha)
  obtain ⟨m₁, head, hm₁, hthread₁, hrel₁⟩ :=
    dlinklistDel_spec hS (fun a ha => hb.al_heads ha) hb.allocList
  have hfree₁ : Threaded (nextOf mm.freeList m₁) (prevOf m₁) fl :=
    threaded_of_same hb.freeList fun a ha => hrel₁.same a (hb.fl_heads ha) fun hmem' =>
      hb.disjoint ha (hsub a hmem')
  obtain ⟨m₂, hm₂, hthread₂, hrel₂⟩ :=
    dlinklistInsFrt_spec hS hcS (fun a ha => hb.fl_heads ha) hnotfree hfree₁
  have hfits := fits_readChunk m₂ c.addr
  obtain ⟨mem', hmem', hw⟩ := update_spec hS hcS m₂ (fun c => { c with isFree := 1 })
    (⟨hfits.allocMem, hfits.prev, hfits.next, Nat.one_lt_two_pow (by decide)⟩ :
      ({ readChunk m₂ c.addr with isFree := 1 } : MpChunk).Fits)
  have hbytes (a : ℕ) (ha : OffHeads (pre ++ c :: post) a) : mem' a = mem a :=
    (hw.bytes_off hmem ha).trans ((hrel₂.bytes_off ha).trans (hrel₁.bytes_off ha))
  refine ⟨m₁, m₂, mem', head, l₁ ++ l₂, hm₁, hm₂, hmem', fun a ha =>
    hbytes a (hb.layout.outside_off ha), ?_⟩
  have hheads := hw.heads_reflag hb.layout hd hsize
    (fun x hx => hrel₂.keeps_header hx (hrel₁.keeps_header hx (hb.headers x hx))) rfl
    (by simp [hfree])
  refine hb.rewrite hd hsize rfl rfl hheads hbytes ?_ ?_ ?_ ?_
  · refine threaded_of_links hthread₂ (fun a ha => ?_) fun a ha => ?_
    all_goals
      by_cases hac : a = c.addr
      · rw [hac, hw.chunk]
      · rw [hw.same a (hb.fl_heads ((List.mem_cons.mp ha).resolve_left hac)) hac]
  · refine threaded_of_same hthread₁ fun a ha => ?_
    have haS := hb.al_heads (hsub a ha)
    have hac : a ≠ c.addr := fun heq => hnotin (heq ▸ ha)
    have hafl : a ∉ c.addr :: fl := by
      rw [List.mem_cons, not_or]
      exact ⟨hac, fun hmem' => hb.disjoint hmem' (hsub a ha)⟩
    rw [hw.same a haS hac, hrel₂.same a haS hafl]
  · have hfrees := hb.frees
    rw [addrsOf_skip (by simp [hc])] at hfrees
    have hhere := (addrsOf_here hfree : (addrsOf true (pre ++ d :: post)).Perm _)
    rw [hd] at hhere
    exact (hfrees.cons c.addr).trans hhere.symm
  · have hallocs : (l₁ ++ c.addr :: l₂).Perm _ := hb.allocs
    have hrest : (l₁ ++ l₂).Perm (addrsOf false (pre ++ d :: post)) :=
      perm_addrsOf_erase hallocs hc (by simp [hfree])
    exact hrest

/-- A free chunk is added to the free chunk in front of it. -/
theorem absorb_spec (hb : BlockHolds n.addr [] mem { mm with freeList := fr }
      (pre ++ n :: f :: post) fl al) (hn : n.free = true) (hf : f.free = true)
    (hq : q.addr = n.addr) (hsize : q.size = n.size + f.size) (hqfree : q.free = true) :
    ∃ m₁ head mem' fl', mm.dlinklistDel mem fr f.addr = some (m₁, head) ∧
      mm.chunkAt m₁ f.addr = some (readChunk m₁ f.addr) ∧
      (readChunk m₁ f.addr).allocMem = f.size ∧
      mm.update m₁ n.addr (fun h => { h with allocMem := u64 (h.allocMem + f.size) }) = some mem' ∧
      KeepsOutside mm mem mem' ∧
      BlockHolds n.addr [] mem' { mm with freeList := head } (pre ++ q :: post) fl' al := by
  have hlay : ChunkLayout mm (pre ++ n :: f :: post) := hb.layout.relist rfl rfl
  have hS := hlay.spaced
  have hnmem : n ∈ pre ++ n :: f :: post := by simp
  have hfmem : f ∈ pre ++ n :: f :: post := by simp
  have hnS := heads_of_mem hnmem
  have hjoin := hlay.join (c := q) hq hsize
  obtain ⟨l₁, l₂, rfl⟩ := hb.exists_free_split hfmem hf
  have hsub : ∀ a ∈ l₁ ++ l₂, a ∈ l₁ ++ f.addr :: l₂ := fun a ha =>
    List.perm_middle.mem_iff.mpr (List.mem_cons_of_mem _ ha)
  obtain ⟨m₁, head, hm₁, hthread, hrel⟩ :=
    dlinklistDel_spec hS (fun a ha => hb.fl_heads ha) hb.freeList
  have hfits := fits_readChunk m₁ n.addr
  have hfitsq (v : ℕ) (hv : v < 2 ^ 64) :
      ({ readChunk m₁ n.addr with allocMem := v } : MpChunk).Fits :=
    ⟨hv, hfits.prev, hfits.next, hfits.isFree⟩
  obtain ⟨mem', hmem', hw⟩ := update_spec hS hnS m₁
    (fun h => { h with allocMem := u64 (h.allocMem + f.size) }) (hfitsq _ (u64_lt _))
  have hbytes (a : ℕ) (ha : OffHeads (pre ++ n :: f :: post) a) : mem' a = mem a :=
    (hw.bytes_off hnmem ha).trans (hrel.bytes_off ha)
  have hsizen : u64 ((readChunk m₁ n.addr).allocMem + f.size) = q.size := by
    have hbounds := hjoin.le_stop (c := q) (by simp)
    have hpos := hjoin.start_pos
    have hstop := hjoin.stop_le
    rw [(hrel.kept n.addr hnS).1, (hb.headers n hnmem).1, hsize]
    exact_mod_cast u64_natCast (by omega)
  have hold : ∀ x ∈ pre ++ q :: post, x ≠ q → x ∈ pre ++ n :: f :: post ∧ x.addr ≠ n.addr :=
    fun x hx hxq => by
      refine ⟨?_, fun heq => hxq (hjoin.eq_of_addr hx (by simp) (heq.trans hq.symm))⟩
      rcases List.mem_append.mp hx with hx | hx
      · simp [hx]
      · simp [(List.mem_cons.mp hx).resolve_left hxq]
  refine ⟨m₁, head, mem', l₁ ++ l₂, hm₁, chunkAt_eq hS (heads_of_mem hfmem) m₁, ?_, hmem',
    fun a ha => hbytes a (hlay.outside_off ha), hjoin.relist rfl rfl, fun x hx => ?_,
    fun x hx hstale hend => ?_, ?_, ?_, ?_, ?_⟩
  · rw [(hrel.kept f.addr (heads_of_mem hfmem)).1, (hb.headers f hfmem).1]
  · by_cases hxq : x = q
    · rw [hxq, MpPiece.Heads, hq, hw.chunk, hsizen, hqfree, (hrel.kept n.addr hnS).2, ← hn]
      exact ⟨rfl, (hb.headers n hnmem).2⟩
    · obtain ⟨hx', hne⟩ := hold x hx hxq
      exact hw.keeps_header hx' hne (hrel.keeps_header hx' (hb.headers x hx'))
  · have hxq : x ≠ q := fun heq => hstale (by rw [heq, hq])
    exact hb.ends_of_off hbytes (hold x hx hxq).1 hstale hend
  · refine threaded_of_links hthread (fun a ha => ?_) fun a ha => ?_
    all_goals
      by_cases han : a = n.addr
      · rw [han, hw.chunk]
      · rw [hw.same a (hb.fl_heads (hsub a ha)) han]
  · refine threaded_of_same hb.allocList fun a ha => ?_
    have hafl : a ∉ l₁ ++ f.addr :: l₂ := fun hmem => hb.disjoint hmem ha
    have han : a ≠ n.addr := fun heq => hb.not_mem_alloc hnmem hn (heq ▸ ha)
    rw [hw.same a (hb.al_heads ha) han, hrel.same a (hb.al_heads ha) fun hmem => hafl (hsub a hmem)]
  · have hfrees := hb.frees
    rw [List.append_cons pre n (f :: post)] at hfrees
    have hrest := (List.perm_cons f.addr).mp
      (List.perm_middle.symm.trans (hfrees.trans (addrsOf_here hf)))
    rw [List.append_assoc, List.singleton_append] at hrest
    have hhere := (addrsOf_here hqfree : (addrsOf true (pre ++ q :: post)).Perm _)
    rw [hq] at hhere
    exact hrest.trans ((addrsOf_here hn).trans hhere.symm)
  · have hallocs := hb.allocs
    rw [addrsOf_skip (by simp [hn]), addrsOf_skip (by simp [hf])] at hallocs
    rwa [addrsOf_skip (by simp [hqfree])]

/-- The free chunks behind a free chunk are added to it. The walk stays in the block if the size it
goes by is not larger than the block, or if there is an allocated chunk in its way. -/
theorem mergeBehind_spec {nominal : ℕ} (hb : BlockHolds n.addr [] mem { mm with freeList := fr }
      (pre ++ n :: post) fl al) (hn : n.free = true) (hfuel : post.length < fuel)
    (hguard : nominal ≤ mm.mempoolSize ∨ ∃ d ∈ post, d.free = false) :
    ∃ mem' head q post' fl',
      mm.mergeBehind nominal n.addr fuel (n.addr + n.size) mem fr = some (mem', head) ∧
      q.addr = n.addr ∧ q.free = true ∧ n.size ≤ q.size ∧
      (∃ gone, post = gone ++ post' ∧ (∀ x ∈ gone, x.free = true) ∧
        (mm.mempoolSize ≤ nominal → ∀ x ∈ post'.head?, x.free = false)) ∧ KeepsOutside mm mem mem' ∧
      BlockHolds n.addr [] mem' { mm with freeList := head } (pre ++ q :: post') fl' al := by
  induction fuel generalizing n post mem fr fl with
  | zero => omega
  | succ fuel ih =>
    have hlay : ChunkLayout mm (pre ++ n :: post) := hb.layout.relist rfl rfl
    rw [MpMemory.mergeBehind]
    by_cases hend : n.addr + n.size < mm.start + nominal
    · rw [if_pos hend]
      cases post with
      | nil =>
        -- the chunk is the last one, and the walk would go on behind the block
        have hstop : n.addr + n.size = mm.stop := hlay.tiling.around.2
        have hsize : mm.stop = mm.start + mm.mempoolSize := rfl
        rcases hguard with hle | ⟨d, hd, -⟩
        · omega
        · simp at hd
      | cons f post =>
        have hnext : f.addr = n.addr + n.size := hlay.tiling.around.2.1
        have hfmem : f ∈ pre ++ n :: f :: post := by simp
        rw [← hnext, chunkAt_eq hlay.spaced (heads_of_mem hfmem), Option.bind_some]
        by_cases hf : f.free = true
        · have hflag : (readChunk mem f.addr).isFree ≠ 0 := fun h0 => by
            simp [(hb.headers f hfmem).2.mp h0] at hf
          obtain ⟨m₁, head₁, m₂, fl₁, hm₁, hchunk, hfsize, hm₂, hout₂, hb₂⟩ :=
            absorb_spec (q := ⟨n.addr, n.size + f.size, true⟩) hb hn hf rfl rfl rfl
          have hguard' : nominal ≤ mm.mempoolSize ∨ ∃ d ∈ post, d.free = false :=
            hguard.imp_right fun ⟨d, hd, hdfree⟩ => by
              rcases List.mem_cons.mp hd with rfl | hd
              · rw [hf] at hdfree
                cases hdfree
              · exact ⟨d, hd, hdfree⟩
          obtain ⟨mem', head, q, post', fl', hmerge, hq, hqfree, hle, ⟨gone, rfl, hgone, hnext'⟩,
              hout, hb'⟩ :=
            ih (n := ⟨n.addr, n.size + f.size, true⟩) hb₂ rfl (by
              rw [List.length_cons] at hfuel
              omega) hguard'
          refine ⟨mem', head, q, post', fl', ?_, hq, hqfree, le_trans (Nat.le_add_right _ _) hle,
            ⟨f :: gone, rfl, List.forall_mem_cons.mpr ⟨hf, hgone⟩, hnext'⟩, hout₂.trans hout, hb'⟩
          rw [if_neg hflag, hm₁]
          simp only [Option.bind_some, hchunk, hfsize, hm₂]
          rw [hnext, Nat.add_assoc]
          exact hmerge
        · have hflag : (readChunk mem f.addr).isFree = 0 :=
            (hb.headers f hfmem).2.mpr (by simpa using hf)
          rw [if_pos hflag]
          refine ⟨mem, fr, n, f :: post, fl, rfl, rfl, hn, le_rfl, ⟨[], rfl, by simp, ?_⟩,
            fun _ _ => rfl, hb⟩
          intro _ x hx
          cases hx
          simpa using hf
    · rw [if_neg hend]
      refine ⟨mem, fr, n, post, fl, rfl, rfl, hn, le_rfl, ⟨[], rfl, by simp, ?_⟩, fun _ _ => rfl,
        hb⟩
      intro hnominal x hx
      -- a chunk behind would end beyond the block
      cases post with
      | nil => cases hx
      | cons f post =>
        have hbounds := hlay.le_stop (c := f) (by simp)
        have hwide := hlay.size_ge (c := f) (by simp)
        have hnext : f.addr = n.addr + n.size := hlay.tiling.around.2.1
        have hstop : mm.stop = mm.start + mm.mempoolSize := rfl
        omega

/-- The walk back goes from chunk to chunk and ends at the first free one of a stretch of them. -/
theorem walkBack_spec (hb : BlockHolds 0 [] mem mm cs fl al) {p : ℕ} (hcs : cs = pre ++ c :: post)
    (hfuel : pre.length < fuel) :
    ∃ r, mm.walkBack mem fuel c.addr p = some r ∧
      (c.free = false ∧ r = p ∨ ∃ front d run, pre ++ [c] = front ++ d :: run ∧ d.addr = r ∧
        (∀ x ∈ d :: run, x.free = true) ∧ ∀ x ∈ front.getLast?, x.free = false) := by
  induction fuel generalizing c p pre post with
  | zero => omega
  | succ fuel ih =>
    have hc : c ∈ cs := by simp [hcs]
    have hheader := (hb.headers c hc).2
    rw [MpMemory.walkBack, hb.chunkAt hc, Option.bind_some]
    by_cases hfree : c.free = false
    · rw [if_pos (hheader.mpr hfree)]
      exact ⟨p, rfl, .inl ⟨hfree, rfl⟩⟩
    · rw [if_neg fun h0 => hfree (hheader.mp h0)]
      have hcfree : ∀ x ∈ [c], x.free = true := by simpa using hfree
      rcases List.eq_nil_or_concat' pre with rfl | ⟨pre, d, rfl⟩
      · -- the first chunk is at the start of the block
        have haddr := hb.layout.tiling
        rw [hcs] at haddr
        have hstart : c.addr = mm.start := haddr.1
        have hfirst : c.addr ≤ mm.start + mpChunkEnd + mpChunkHeader := by omega
        rw [if_pos hfirst]
        exact ⟨c.addr, rfl, .inr ⟨[], c, [], rfl, rfl, hcfree, by simp⟩⟩
      · -- there is a chunk in front, and the pointer at its end leads to it
        rw [List.append_assoc, List.singleton_append] at hcs
        have hd : d ∈ cs := by simp [hcs]
        have htiling := hb.layout.tiling
        rw [hcs] at htiling
        have hnext : c.addr = d.addr + d.size := htiling.around.2.1
        have hbounds := hb.layout.le_stop hc
        have hwide := hb.layout.size_ge hc
        have hdbounds := hb.layout.le_stop hd
        have hend : d.addr + d.size ≠ mm.stop := by omega
        have hdsize := hb.layout.size_of_end hd hend
        have hfirst : ¬c.addr ≤ mm.start + mpChunkEnd + mpChunkHeader := by
          rw [mpChunkEnd, mpChunkHeader]
          omega
        rw [if_neg hfirst]
        have hpointer := hb.ends d hd (hb.layout.spaced.ne_zero _ (heads_of_mem hd)) hend
        rw [← hnext] at hpointer
        have hinside : mm.Inside (c.addr - mpChunkEnd) mpChunkEnd := by
          unfold MpMemory.Inside mpChunkEnd
          omega
        rw [MpMemory.endBefore, if_pos hinside, mpChunkEnd, hpointer, Option.bind_some]
        obtain ⟨r, hr, hcase⟩ := ih (p := c.addr) hcs (by
          rw [List.length_append, List.length_singleton] at hfuel
          omega)
        refine ⟨r, hr, .inr ?_⟩
        rcases hcase with ⟨hdfree, rfl⟩ | ⟨front, x, run, hfront, haddr, hrun, hlast⟩
        · exact ⟨pre ++ [d], c, [], rfl, rfl, hcfree, by simpa using hdfree⟩
        · refine ⟨front, x, run ++ [c], by simp [hfront], haddr, ?_, hlast⟩
          intro y hy
          rcases List.mem_append.mp (show y ∈ (x :: run) ++ [c] from hy) with hy | hy
          · exact hrun y hy
          · exact hcfree y hy

/-- The free chunks from `n` to `c`, behind `front`, where no free chunk is the last one. -/
structure FreeStretch (pre front before run : List MpPiece) (n c : MpPiece) : Prop where
  chunks : n :: run = before ++ [c]
  pre_eq : pre = front ++ before
  free : ∀ x ∈ n :: run, x.free = true
  last : ∀ x ∈ front.getLast?, x.free = false

/-- From a free chunk the walk back goes to the first one of its stretch. -/
theorem walkBack_free (hb : BlockHolds 0 [] mem mm cs fl al) (hcs : cs = pre ++ c :: post)
    (hfree : c.free = true) (hfuel : pre.length < fuel) :
    ∃ front before run n, mm.walkBack mem fuel c.addr c.addr = some n.addr ∧
      FreeStretch pre front before run n c := by
  obtain ⟨r, hr, hcase⟩ := walkBack_spec (p := c.addr) hb hcs hfuel
  obtain ⟨front, n, run, hfront, rfl, hrun, hlast⟩ := hcase.resolve_left (by simp [hfree])
  obtain ⟨before, x, hx⟩ :=
    (List.eq_nil_or_concat' (n :: run)).resolve_left (List.cons_ne_nil _ _)
  rw [hx, ← List.append_assoc] at hfront
  obtain ⟨hpre, rfl⟩ := List.append_singleton_inj.mp hfront
  exact ⟨front, before, run, n, hr, hx, hpre, hrun, hlast⟩

section Stretch

variable {front before run : List MpPiece} (h : FreeStretch pre front before run n c)
include h

theorem FreeStretch.split (post : List MpPiece) :
    pre ++ c :: post = front ++ n :: (run ++ post) := by
  rw [h.pre_eq, List.append_assoc, ← List.cons_append, h.chunks, List.append_assoc,
    List.singleton_append]

/-- The chunks in front of the stretch end before it, and those in it behind its first one. -/
theorem FreeStretch.ordered (hlay : ChunkLayout mm (pre ++ c :: post)) :
    (∀ x ∈ front, x.addr + x.size ≤ n.addr) ∧ ∀ x ∈ run, n.addr + n.size ≤ x.addr := by
  have hordered := hlay.tiling.ordered
  rw [h.split] at hordered
  obtain ⟨-, hbehind, hfront⟩ := List.pairwise_append.mp hordered
  constructor
  · intro x hx
    exact hfront x hx n List.mem_cons_self
  · intro x hx
    exact (List.pairwise_cons.mp hbehind).1 x (List.mem_append_left post hx)

theorem FreeStretch.size_ge (hlay : ChunkLayout mm (pre ++ c :: post)) (hsize : 41 ≤ c.size) :
    41 ≤ n.size := by
  have hc : c ∈ n :: run := by simp [h.chunks]
  rcases List.mem_cons.mp hc with rfl | hrun
  · exact hsize
  · have hbehind := (h.ordered hlay).2 c hrun
    have hbounds := hlay.le_stop (c := c) (by simp)
    exact hlay.size_of_end (c := n) (by simp [h.split]) (by omega)

/-- An allocated chunk behind `c` is behind the stretch. -/
theorem FreeStretch.mem_behind (hlay : ChunkLayout mm (pre ++ c :: post))
    (hd : d ∈ pre ++ c :: post) (hdfree : d.free = false) (hlt : c.addr < d.addr) :
    d ∈ run ++ post := by
  have hle : n.addr ≤ c.addr := by
    have hc : c ∈ n :: run := by simp [h.chunks]
    rcases List.mem_cons.mp hc with rfl | hrun
    · exact le_rfl
    · have hbehind := (h.ordered hlay).2 c hrun
      omega
  rw [h.split] at hd
  rcases List.mem_append.mp hd with hfront | hbehind
  · have hbefore := (h.ordered hlay).1 d hfront
    omega
  · rcases List.mem_cons.mp hbehind with rfl | hmem
    · rw [h.free d List.mem_cons_self] at hdfree
      cases hdfree
    · exact hmem

end Stretch

/-- The pointer at the end of a chunk is set. -/
theorem seal_spec (hb : BlockHolds c.addr [] mem mm cs fl al) (hc : c ∈ cs) (hsize : 41 ≤ c.size) :
    ∃ mem', mm.putEnd mem c.addr c.size = some mem' ∧ KeepsOutside mm mem mem' ∧
      BlockHolds 0 [] mem' mm cs fl al := by
  obtain ⟨mem', hmem', he⟩ := putEnd_spec hb.layout hc hsize mem
  have hbounds := hb.layout.le_stop hc
  refine ⟨mem', hmem', fun a ha => he.bytes a (by omega), hb.layout,
    fun x hx => he.keeps_header hx (hb.headers x hx), fun x hx _ hend => ?_,
    threaded_of_same hb.freeList fun a ha => he.same a (hb.fl_heads ha),
    threaded_of_same hb.allocList fun a ha => he.same a (hb.al_heads ha), hb.frees, hb.allocs⟩
  by_cases hxc : x = c
  · rw [hxc]
    exact he.pointer
  · have hne : x.addr ≠ c.addr := fun heq => hxc (hb.layout.eq_of_addr hx hc heq)
    rw [he.ends x hx hne]
    exact hb.ends x hx hne hend

/-- `merge_free_chunk` for a chunk that was freed. -/
theorem mergeFreeChunk_spec (nominal : ℕ) (hb : BlockHolds 0 [] mem mm (pre ++ c :: post) fl al)
    (hfree : c.free = true) (hsize : 41 ≤ c.size)
    (hguard : nominal ≤ mm.mempoolSize ∨
      ∃ d ∈ pre ++ c :: post, d.free = false ∧ c.addr < d.addr) :
    ∃ mm' mem' cs', mm.mergeFreeChunk nominal mem c.addr = some (mm', mem') ∧
      BlockStep mm mm' mem mem' cs' ∧ (∀ d ∈ pre ++ c :: post, d.free = false → d ∈ cs') ∧
      (mm.mempoolSize ≤ nominal → Coalesced pre post cs') ∧
      mm'.allocMem = mm.allocMem ∧ mm'.allocProgMem = mm.allocProgMem := by
  have hlay := hb.layout
  have hlength := hb.length_le
  have hbefore : pre.length < mm.mempoolSize + 1 := by
    rw [List.length_append] at hlength
    omega
  obtain ⟨front, before, run, n, hback, hstretch⟩ := walkBack_free hb rfl hfree hbefore
  have hguard' : nominal ≤ mm.mempoolSize ∨ ∃ d ∈ run ++ post, d.free = false :=
    hguard.imp_right fun ⟨d, hd, hdfree, hlt⟩ => ⟨d, hstretch.mem_behind hlay hd hdfree hlt, hdfree⟩
  have hnsize := hstretch.size_ge hlay hsize
  rw [hstretch.split] at hb hlength ⊢
  have hn : n ∈ front ++ n :: (run ++ post) := by simp
  have hstale : BlockHolds n.addr [] mem { mm with freeList := mm.freeList }
      (front ++ n :: (run ++ post)) fl al :=
    { hb with ends := fun x hx _ => hb.ends x hx (hb.layout.spaced.ne_zero _ (heads_of_mem hx)) }
  have hbehind : (run ++ post).length < mm.mempoolSize + 1 := by
    rw [List.length_append, List.length_cons] at hlength
    omega
  obtain ⟨mid, head, q, back, fl', hmerge, hq, hqfree, hqsize, ⟨gone, hgone, hgonefree, hnext⟩,
      hout, hmid⟩ :=
    mergeBehind_spec hstale (hstretch.free n List.mem_cons_self) hbehind hguard'
  rw [← hq] at hmid
  have hqmem : q ∈ front ++ q :: back := by simp
  obtain ⟨mem', hmem', hout', hb'⟩ := seal_spec hmid hqmem (by omega)
  refine ⟨{ mm with freeList := head }, mem', front ++ q :: back, ?_,
    ⟨rfl, rfl, hout.trans hout', fl', al, hb'⟩, ?_, ?_, rfl, rfl⟩
  · have hqlay : ChunkLayout mm (front ++ q :: back) := hmid.layout.relist rfl rfl
    have hchunk := chunkAt_eq hqlay.spaced (heads_of_mem hqmem) mid
    rw [hq] at hchunk hmem'
    have hsizeq := (hmid.headers q hqmem).1
    rw [hq] at hsizeq
    rw [MpMemory.mergeFreeChunk, hback, Option.bind_some, hb.chunkAt hn, Option.bind_some,
      (hb.headers n hn).1, hmerge, Option.bind_some]
    have hput : mm.putEnd mid n.addr q.size = some mem' := hmem'
    simp only [hchunk, Option.bind_some, hsizeq, hput, Option.map_some]
  · intro d hd hdfree
    rw [hgone] at hd
    have hall : ∀ x ∈ n :: gone, x.free = true :=
      List.forall_mem_cons.mpr ⟨hstretch.free n List.mem_cons_self, hgonefree⟩
    exact mem_coalesced hd hall (by simp [hdfree])
  · intro hwhole
    have hrun : ∀ x ∈ run, x.free = true := (List.forall_mem_cons.mp hstretch.free).2
    obtain ⟨after, rfl, hpost⟩ := past_run hgone hrun fun x hx => by simp [hnext hwhole x hx]
    refine ⟨front, before, q, after, back, hstretch.pre_eq, hpost, rfl, hqfree, ?_,
      hstretch.last, hnext hwhole⟩
    intro x hx
    rcases List.mem_append.mp hx with hx | hx
    · exact hstretch.free x (by simp [hstretch.chunks, hx])
    · exact hgonefree x (by simp [hx])

/-- `mempool_free` on the chunk. -/
theorem freeChunk_spec (nominal : ℕ) (hb : BlockHolds 0 [] mem mm (pre ++ c :: post) fl al)
    (halloc : c.free = false) (hsize : 41 ≤ c.size)
    (hguard : nominal ≤ mm.mempoolSize ∨
      ∃ d ∈ pre ++ c :: post, d.free = false ∧ c.addr < d.addr) :
    ∃ mm' mem' cs', mm.freeChunk nominal mem c.addr = some (mm', mem') ∧
      BlockStep mm mm' mem mem' cs' ∧
      (∀ d ∈ pre ++ ⟨c.addr, c.size, true⟩ :: post, d.free = false → d ∈ cs') ∧
      (mm.mempoolSize ≤ nominal → Coalesced pre post cs') ∧
      mm'.allocMem = u64 (mm.allocMem - c.size) ∧
      mm'.allocProgMem = u64 (mm.allocProgMem - (c.size - mpChunkHeader - mpChunkEnd)) := by
  have hc : c ∈ pre ++ c :: post := by simp
  obtain ⟨m₁, m₂, m₃, head, al', hm₁, hm₂, hm₃, hout, hb'⟩ :=
    release_spec (d := ⟨c.addr, c.size, true⟩) hb halloc rfl rfl rfl
  have hrest : ∀ d ∈ pre ++ c :: post, d.addr ≠ c.addr →
      d ∈ pre ++ ⟨c.addr, c.size, true⟩ :: post := fun d hd hne =>
    mem_of_mem_reflag hd (fun heq => hne (by rw [heq])) _
  have hmem : (⟨c.addr, c.size, true⟩ : MpPiece) ∈ pre ++ ⟨c.addr, c.size, true⟩ :: post := by simp
  have hfreed : (readChunk m₃ c.addr).allocMem = c.size := (hb'.headers _ hmem).1
  let mm₁ : MpMemory := { mm with
    freeList := c.addr, allocList := head, allocMem := u64 (mm.allocMem - c.size)
    allocProgMem := u64 (mm.allocProgMem - (c.size - mpChunkHeader - mpChunkEnd)) }
  have hb₁ : BlockHolds 0 [] m₃ mm₁ _ _ _ := hb'.recount rfl rfl rfl rfl
  obtain ⟨mm', mem', cs', hmerge, hstep, hkept, hmerged, hcount, hprog⟩ :=
    mergeFreeChunk_spec nominal hb₁ rfl hsize
      (hguard.imp_right fun ⟨d, hd, hdfree, hlt⟩ => ⟨d, hrest d hd (by omega), hdfree, hlt⟩)
  have houtside : KeepsOutside mm m₃ mem' := by
    have hafter := hstep.outside
    unfold KeepsOutside MpMemory.stop at hafter ⊢
    exact hafter
  refine ⟨mm', mem', cs', ?_, ⟨hstep.start, hstep.size, hout.trans houtside, hstep.holds⟩,
    hkept, hmerged, hcount, hprog⟩
  have hchunk := chunkAt_eq hb.layout.spaced (heads_of_mem hc) m₃
  rw [MpMemory.freeChunk, hm₁]
  simp only [Option.bind_some, hm₂, hm₃, hchunk, hfreed]
  exact hmerge

end LdacsSdk
