import LdacsSdk.Library.NullLinks
import LdacsSdk.Pool.Mempool

/-!
# The lists of a block's chunks

Chunk headers that do not overlap are read back as they were written. The two list macros relink
the neighbours of a chunk and leave everything else in the headers, and all bytes between them.
-/
namespace LdacsSdk

open Library

/-- The values fit into the fields. -/
structure MpChunk.Fits (h : MpChunk) : Prop where
  allocMem : h.allocMem < 2 ^ 64
  prev : h.prev < 2 ^ 64
  next : h.next < 2 ^ 64
  isFree : h.isFree < 2 ^ 32

/-- Addresses of chunk headers in the block that do not overlap. -/
structure Spaced (mm : MpMemory) (S : Set ℕ) : Prop where
  inside : ∀ c ∈ S, mm.Inside c mpChunkHeader
  ne_zero : ∀ c ∈ S, c ≠ 0
  short : ∀ c ∈ S, c < 2 ^ 64
  apart : ∀ c ∈ S, ∀ c' ∈ S, c ≠ c' → c + 32 ≤ c' ∨ c' + 32 ≤ c

/-- Where the links on lead, from the head of a list too. -/
def nextOf (head : ℕ) (mem : Mem) (c : ℕ) : ℕ := if c = 0 then head else (readChunk mem c).next

def prevOf (mem : Mem) (c : ℕ) : ℕ := (readChunk mem c).prev

theorem nextOf_zero (head : ℕ) (mem : Mem) : nextOf head mem 0 = head := if_pos rfl

/-- Only the links of the chunks of the list were changed. -/
structure Relinked (S : Set ℕ) (l : List ℕ) (mem mem' : Mem) : Prop where
  kept : ∀ c ∈ S, (readChunk mem' c).allocMem = (readChunk mem c).allocMem ∧
    (readChunk mem' c).isFree = (readChunk mem c).isFree
  same : ∀ c ∈ S, c ∉ l → readChunk mem' c = readChunk mem c
  bytes : ∀ a, (∀ c ∈ S, a < c ∨ c + 32 ≤ a) → mem' a = mem a

/-- Only the chunk at `c` was written, and its header is `h` now. -/
structure Written (S : Set ℕ) (c : ℕ) (h : MpChunk) (mem mem' : Mem) : Prop where
  chunk : readChunk mem' c = h
  same : ∀ c' ∈ S, c' ≠ c → readChunk mem' c' = readChunk mem c'
  bytes : ∀ a, a < c ∨ c + 32 ≤ a → mem' a = mem a

variable {mm : MpMemory} {mem mem' mem'' : Mem} {S : Set ℕ} {a b c c' x head : ℕ} {h : MpChunk}
  {l l' l₁ l₂ : List ℕ}

theorem fits_readChunk (mem : Mem) (c : ℕ) : (readChunk mem c).Fits :=
  ⟨loadLe_lt mem c 8, loadLe_lt mem (c + 8) 8, loadLe_lt mem (c + 16) 8, loadLe_lt mem (c + 24) 4⟩

theorem readChunk_congr (h : ∀ a, c ≤ a → a < c + 32 → mem' a = mem a) :
    readChunk mem' c = readChunk mem c := by
  have hload (o k : ℕ) (hk : o + k ≤ 32) : loadLe mem' (c + o) k = loadLe mem (c + o) k :=
    loadLe_congr fun a ha hlt => h a (by omega) (by omega)
  have h0 := hload 0 8 (by omega)
  rw [Nat.add_zero] at h0
  rw [readChunk, readChunk, h0, hload 8 8 (by omega), hload 16 8 (by omega), hload 24 4 (by omega)]

theorem writeChunk_of_outside (h : MpChunk) (ha : a < c ∨ c + 32 ≤ a) :
    writeChunk mem c h a = mem a := by
  rw [writeChunk, storeLe_of_outside (by omega), storeLe_of_outside (by omega),
    storeLe_of_outside (by omega), storeLe_of_outside (by omega)]

theorem readChunk_writeChunk (hfits : h.Fits) : readChunk (writeChunk mem c h) c = h := by
  have hfree : loadLe (writeChunk mem c h) (c + 24) 4 = h.isFree := loadLe_storeLe hfits.isFree
  have hnext : loadLe (writeChunk mem c h) (c + 16) 8 = h.next := by
    rw [writeChunk, loadLe_storeLe_of_disjoint (by omega), loadLe_storeLe hfits.next]
  have hprev : loadLe (writeChunk mem c h) (c + 8) 8 = h.prev := by
    rw [writeChunk, loadLe_storeLe_of_disjoint (by omega), loadLe_storeLe_of_disjoint (by omega),
      loadLe_storeLe hfits.prev]
  have hsize : loadLe (writeChunk mem c h) c 8 = h.allocMem := by
    rw [writeChunk, loadLe_storeLe_of_disjoint (by omega), loadLe_storeLe_of_disjoint (by omega),
      loadLe_storeLe_of_disjoint (by omega), loadLe_storeLe hfits.allocMem]
  rw [readChunk, hfree, hnext, hprev, hsize]

theorem readChunk_writeChunk_of_apart (h : MpChunk) (hc : c + 32 ≤ c' ∨ c' + 32 ≤ c) :
    readChunk (writeChunk mem c h) c' = readChunk mem c' :=
  readChunk_congr fun _ _ _ => writeChunk_of_outside h (by omega)

theorem chunkAt_eq (hS : Spaced mm S) (hc : c ∈ S) (mem : Mem) :
    mm.chunkAt mem c = some (readChunk mem c) := if_pos (hS.inside c hc)

/-- An assignment to fields of a chunk. -/
theorem update_spec (hS : Spaced mm S) (hc : c ∈ S) (mem : Mem) (f : MpChunk → MpChunk)
    (hfits : (f (readChunk mem c)).Fits) :
    ∃ mem', mm.update mem c f = some mem' ∧ Written S c (f (readChunk mem c)) mem mem' :=
  ⟨_, if_pos (hS.inside c hc), readChunk_writeChunk hfits,
    fun c' hc' hne => readChunk_writeChunk_of_apart _ (hS.apart c hc c' hc' hne.symm),
    fun _ ha => writeChunk_of_outside _ ha⟩

namespace Relinked

theorem refl (S : Set ℕ) (l : List ℕ) (mem : Mem) : Relinked S l mem mem :=
  ⟨fun _ _ => ⟨rfl, rfl⟩, fun _ _ _ => rfl, fun _ _ => rfl⟩

theorem trans (h : Relinked S l mem mem') (h' : Relinked S l' mem' mem'') :
    Relinked S (l ++ l') mem mem'' where
  kept c hc := ⟨(h'.kept c hc).1.trans (h.kept c hc).1, (h'.kept c hc).2.trans (h.kept c hc).2⟩
  same c hc hcl := by
    rw [List.mem_append, not_or] at hcl
    rw [h'.same c hc hcl.2, h.same c hc hcl.1]
  bytes a ha := (h'.bytes a ha).trans (h.bytes a ha)

theorem mono (h : Relinked S l mem mem') (hl : ∀ c ∈ S, c ∈ l → c ∈ l') : Relinked S l' mem mem' :=
  ⟨h.kept, fun c hc hcl => h.same c hc fun hmem => hcl (hl c hc hmem), h.bytes⟩

/-- A chunk whose links alone were written. -/
theorem of_written (h : Written S c ⟨(readChunk mem c).allocMem, a, b, (readChunk mem c).isFree⟩
    mem mem') (hc : c ∈ S) : Relinked S [c] mem mem' where
  kept c' hc' := by
    by_cases heq : c' = c
    · rw [heq, h.chunk]
      exact ⟨rfl, rfl⟩
    · rw [h.same c' hc' heq]
      exact ⟨rfl, rfl⟩
  same c' hc' hne := h.same c' hc' fun heq => hne (by simp [heq])
  bytes a ha := h.bytes a (ha c hc)

end Relinked

theorem nextOf_congr (h : c = 0 ∨ readChunk mem' c = readChunk mem c) :
    nextOf head mem' c = nextOf head mem c := by
  rcases h with rfl | h
  · rw [nextOf_zero, nextOf_zero]
  · rw [nextOf, nextOf, h]

/-- A list whose links were not written. -/
theorem threaded_of_links (h : Threaded (nextOf head mem) (prevOf mem) l)
    (hnext : ∀ c ∈ l, (readChunk mem' c).next = (readChunk mem c).next)
    (hprev : ∀ c ∈ l, (readChunk mem' c).prev = (readChunk mem c).prev) :
    Threaded (nextOf head mem') (prevOf mem') l := by
  refine h.congr (fun c hc => ?_) hprev
  rcases List.mem_cons.mp hc with rfl | hc
  · rw [nextOf_zero, nextOf_zero]
  · rw [nextOf, nextOf, hnext c hc]

/-- A list whose chunks were not written. -/
theorem threaded_of_same (h : Threaded (nextOf head mem) (prevOf mem) l)
    (hsame : ∀ c ∈ l, readChunk mem' c = readChunk mem c) :
    Threaded (nextOf head mem') (prevOf mem') l :=
  threaded_of_links h (fun c hc => by rw [hsame c hc]) fun c hc => by rw [hsame c hc]

/-- The link on from `a`, or the head of the list, is set. -/
def pointNext (mm : MpMemory) (mem : Mem) (head a b : ℕ) : Option (Mem × ℕ) :=
  if a = 0 then some (mem, b) else (mm.update mem a fun p => { p with next := b }).map (·, head)

/-- The link back from `b` is set, where there is a chunk. -/
def pointPrev (mm : MpMemory) (mem : Mem) (b a : ℕ) : Option Mem :=
  if b = 0 then some mem else mm.update mem b fun n => { n with prev := a }

theorem pointNext_spec (hS : Spaced mm S) (ha : a = 0 ∨ a ∈ S) (hb : b < 2 ^ 64) (mem : Mem)
    (head : ℕ) :
    ∃ mem' head', pointNext mm mem head a b = some (mem', head') ∧
      (∀ c, c = 0 ∨ c ∈ S → nextOf head' mem' c = if c = a then b else nextOf head mem c) ∧
      (∀ c ∈ S, prevOf mem' c = prevOf mem c) ∧ Relinked S [a] mem mem' := by
  by_cases ha0 : a = 0
  · refine ⟨mem, b, if_pos ha0, fun c _ => ?_, fun _ _ => rfl, .refl S [a] mem⟩
    rw [ha0]
    by_cases hc0 : c = 0 <;> simp [nextOf, hc0]
  · have haS := ha.resolve_left ha0
    have hfits := fits_readChunk mem a
    obtain ⟨mem', hmem', hw⟩ := update_spec hS haS mem (fun p => { p with next := b })
      ⟨hfits.allocMem, hfits.prev, hb, hfits.isFree⟩
    refine ⟨mem', head, by rw [pointNext, if_neg ha0, hmem', Option.map_some], fun c hc => ?_,
      fun c hc => ?_, .of_written hw haS⟩
    · by_cases hca : c = a
      · rw [if_pos hca, nextOf, hca, if_neg ha0, hw.chunk]
      · rw [if_neg hca]
        exact nextOf_congr (hc.imp_right fun hc => hw.same c hc hca)
    · by_cases hca : c = a
      · rw [prevOf, prevOf, hca, hw.chunk]
      · rw [prevOf, prevOf, hw.same c hc hca]

theorem pointPrev_spec (hS : Spaced mm S) (hb : b = 0 ∨ b ∈ S) (ha : a < 2 ^ 64) (mem : Mem)
    (head : ℕ) :
    ∃ mem', pointPrev mm mem b a = some mem' ∧
      (∀ c, c = 0 ∨ c ∈ S → nextOf head mem' c = nextOf head mem c) ∧
      (∀ c ∈ S, prevOf mem' c = if c = b then a else prevOf mem c) ∧ Relinked S [b] mem mem' := by
  by_cases hb0 : b = 0
  · refine ⟨mem, if_pos hb0, fun _ _ => rfl, fun c hc => ?_, .refl S [b] mem⟩
    rw [hb0, if_neg (hS.ne_zero c hc)]
  · have hbS := hb.resolve_left hb0
    have hfits := fits_readChunk mem b
    obtain ⟨mem', hmem', hw⟩ := update_spec hS hbS mem (fun n => { n with prev := a })
      ⟨hfits.allocMem, ha, hfits.next, hfits.isFree⟩
    refine ⟨mem', by rw [pointPrev, if_neg hb0, hmem'], fun c hc => ?_, fun c hc => ?_,
      .of_written hw hbS⟩
    · rcases hc with rfl | hc
      · rw [nextOf_zero, nextOf_zero]
      · by_cases hcb : c = b
        · rw [nextOf, nextOf, hcb, hw.chunk]
        · rw [nextOf, nextOf, hw.same c hc hcb]
    · by_cases hcb : c = b
      · rw [if_pos hcb, prevOf, hcb, hw.chunk]
      · rw [if_neg hcb, prevOf, prevOf, hw.same c hc hcb]

/-- The neighbours `a` and `b` get new links towards each other. -/
theorem pointBoth_spec (hS : Spaced mm S) (ha : a = 0 ∨ a ∈ S) (hb : b = 0 ∨ b ∈ S)
    (hx : x < 2 ^ 64) {y : ℕ} (hy : y < 2 ^ 64) (mem : Mem) (head : ℕ) :
    ∃ mid mem' head', pointNext mm mem head a x = some (mid, head') ∧
      pointPrev mm mid b y = some mem' ∧
      (∀ c, c = 0 ∨ c ∈ S → nextOf head' mem' c = if c = a then x else nextOf head mem c) ∧
      (∀ c ∈ S, prevOf mem' c = if c = b then y else prevOf mem c) ∧
      Relinked S [a, b] mem mem' := by
  obtain ⟨mid, head', hmid, hnextmid, hprevmid, hrelmid⟩ := pointNext_spec hS ha hx mem head
  obtain ⟨mem', hmem', hnext', hprev', hrel'⟩ := pointPrev_spec hS hb hy mid head'
  refine ⟨mid, mem', head', hmid, hmem', fun c hc => ?_, fun c hc => ?_, hrelmid.trans hrel'⟩
  · rw [hnext' c hc, hnextmid c hc]
  · rw [hprev' c hc, hprevmid c hc]

/-- The neighbours of a chunk in a list are null or chunks of the list. -/
theorem neighbours (hS : Spaced mm S) (hl : ∀ c ∈ l₁ ++ x :: l₂, c ∈ S)
    (h : Threaded (nextOf head mem) (prevOf mem) (l₁ ++ x :: l₂)) :
    ((readChunk mem x).prev = 0 ∨ (readChunk mem x).prev ∈ l₁ ++ l₂) ∧
      ((readChunk mem x).next = 0 ∨ (readChunk mem x).next ∈ l₁ ++ l₂) := by
  have hx0 : x ≠ 0 := hS.ne_zero x (hl x (by simp))
  obtain ⟨A, a, b, B, haround⟩ := h.around
  have hback : (readChunk mem x).prev = a := haround.back
  have hon : (readChunk mem x).next = b := by
    have hnext := haround.on
    rwa [nextOf, if_neg hx0] at hnext
  rw [hback, hon]
  refine ⟨List.mem_cons.mp haround.mem_left, ?_⟩
  by_cases hb0 : b = 0
  · exact .inl hb0
  · exact .inr (haround.mem_right hb0)

theorem dlinklistDel_eq (mm : MpMemory) (mem : Mem) (head x : ℕ) :
    mm.dlinklistDel mem head x = (mm.chunkAt mem x).bind fun c =>
      (pointNext mm mem head c.prev c.next).bind fun (mem, head) =>
        (pointPrev mm mem c.next c.prev).map (·, head) := by
  unfold MpMemory.dlinklistDel pointNext pointPrev
  congr 1
  funext c
  by_cases hprev : c.prev = 0
  · by_cases hnext : c.next = 0 <;> simp [hprev, hnext]
  · rw [if_neg hprev, if_neg hprev, Option.bind_map]
    congr 1
    funext mem
    by_cases hnext : c.next = 0 <;> simp [hnext]

/-- `MP_DLINKLIST_DEL` takes the chunk off the list. -/
theorem dlinklistDel_spec (hS : Spaced mm S) (hl : ∀ c ∈ l₁ ++ x :: l₂, c ∈ S)
    (h : Threaded (nextOf head mem) (prevOf mem) (l₁ ++ x :: l₂)) :
    ∃ mem' head', mm.dlinklistDel mem head x = some (mem', head') ∧
      Threaded (nextOf head' mem') (prevOf mem') (l₁ ++ l₂) ∧
      Relinked S (l₁ ++ l₂) mem mem' := by
  have hxS : x ∈ S := hl x (by simp)
  have hrest : ∀ c ∈ l₁ ++ l₂, c ∈ S := fun c hc => hl c (by
    rcases List.mem_append.mp hc with hc | hc <;> simp [hc])
  have hfits := fits_readChunk mem x
  obtain ⟨ha, hb⟩ := neighbours hS hl h
  obtain ⟨mid, mem', head', hmid, hmem', hnext, hprev, hrel⟩ := pointBoth_spec hS
    (ha.imp_right (hrest _)) (hb.imp_right (hrest _)) hfits.next hfits.prev mem head
  have hon : nextOf head mem x = (readChunk mem x).next := if_neg (hS.ne_zero x hxS)
  have hback : prevOf mem x = (readChunk mem x).prev := rfl
  refine ⟨mem', head', ?_, ?_, ?_⟩
  · rw [dlinklistDel_eq, chunkAt_eq hS hxS, Option.bind_some, hmid]
    simp only [Option.bind_some, hmem', Option.map_some]
  · refine h.delete (fun c hc => ?_) fun d hd => ?_
    · rw [hnext c ((List.mem_cons.mp hc).imp_right (hrest c)), hon, hback]
    · rw [hprev d (hrest d hd), hon, hback]
  · refine hrel.mono fun c hc hcab => ?_
    have hc0 := hS.ne_zero c hc
    rcases List.mem_cons.mp hcab with hca | hcb
    · exact hca ▸ ha.resolve_left (hca ▸ hc0)
    · rw [List.mem_singleton] at hcb
      exact hcb ▸ hb.resolve_left (hcb ▸ hc0)

/-- The neighbours of a chunk are linked to another chunk, which has its links already. -/
theorem relinkTo_spec {mid : Mem} {y : ℕ} (hS : Spaced mm S) (hl : ∀ c ∈ l₁ ++ x :: l₂, c ∈ S)
    (h : Threaded (nextOf head mem) (prevOf mem) (l₁ ++ x :: l₂)) (hy : y ∈ S) (hyl : y ∉ l₁ ++ l₂)
    (hyprev : (readChunk mid y).prev = (readChunk mem x).prev)
    (hynext : (readChunk mid y).next = (readChunk mem x).next)
    (hsame : ∀ c ∈ l₁ ++ l₂, readChunk mid c = readChunk mem c) :
    ∃ mid' mem' head', pointNext mm mid head (readChunk mem x).prev y = some (mid', head') ∧
      pointPrev mm mid' (readChunk mem x).next y = some mem' ∧
      Threaded (nextOf head' mem') (prevOf mem') (l₁ ++ y :: l₂) ∧
      Relinked S (l₁ ++ l₂) mid mem' := by
  have hxS : x ∈ S := hl x (by simp)
  have hrest : ∀ c ∈ l₁ ++ l₂, c ∈ S := fun c hc => hl c (by
    rcases List.mem_append.mp hc with hc | hc <;> simp [hc])
  have hshort := hS.short y hy
  have hy0 := hS.ne_zero y hy
  obtain ⟨ha, hb⟩ := neighbours hS hl h
  obtain ⟨mid', mem', head', hmid', hmem', hnext, hprev, hrel⟩ := pointBoth_spec hS
    (ha.imp_right (hrest _)) (hb.imp_right (hrest _)) hshort hshort mid head
  have hon : nextOf head mem x = (readChunk mem x).next := if_neg (hS.ne_zero x hxS)
  have hback : prevOf mem x = (readChunk mem x).prev := rfl
  have houter : ∀ c, c ≠ 0 → c ∉ l₁ ++ l₂ →
      c ≠ (readChunk mem x).prev ∧ c ≠ (readChunk mem x).next := fun c hc0 hcl =>
    ⟨fun heq => hcl (heq ▸ ha.resolve_left (heq ▸ hc0)),
      fun heq => hcl (heq ▸ hb.resolve_left (heq ▸ hc0))⟩
  obtain ⟨hyne, hyne'⟩ := houter y hy0 hyl
  refine ⟨mid', mem', head', hmid', hmem', ?_, ?_⟩
  · refine h.replace ?_ ?_ ?_ (fun c hc => ?_) fun d hd => ?_
    · rw [List.mem_cons, not_or]
      exact ⟨hy0, hyl⟩
    · rw [hnext y (.inr hy), if_neg hyne, nextOf, if_neg hy0, hynext, hon]
    · rw [hprev y hy, if_neg hyne', prevOf, hyprev, hback]
    · have hc0 := List.mem_cons.mp hc
      rw [hnext c (hc0.imp_right (hrest c)), hback, nextOf_congr (hc0.imp_right (hsame c))]
    · rw [hprev d (hrest d hd), hon, prevOf, prevOf, hsame d hd]
  · refine hrel.mono fun c hc hcab => ?_
    by_contra hcl
    obtain ⟨hne, hne'⟩ := houter c (hS.ne_zero c hc) hcl
    simp [hne, hne'] at hcab

/-- `MP_DLINKLIST_INS_FRT` puts the chunk in front of the list. -/
theorem dlinklistInsFrt_spec (hS : Spaced mm S) (hxS : x ∈ S) (hl : ∀ c ∈ l, c ∈ S) (hxl : x ∉ l)
    (h : Threaded (nextOf head mem) (prevOf mem) l) :
    ∃ mem', mm.dlinklistInsFrt mem head x = some (mem', x) ∧
      Threaded (nextOf x mem') (prevOf mem') (x :: l) ∧ Relinked S (x :: l) mem mem' := by
  have hx0 : x ≠ 0 := hS.ne_zero x hxS
  have hhead : head = 0 ∨ head ∈ l := h.head_mem
  have hheadS : head = 0 ∨ head ∈ S := hhead.imp_right (hl head)
  have hshort : head < 2 ^ 64 := by
    rcases hheadS with rfl | hmem
    · decide
    · exact hS.short head hmem
  have hfits := fits_readChunk mem x
  obtain ⟨mid, hmid, hw⟩ := update_spec hS hxS mem (fun c => { c with prev := 0, next := head })
    ⟨hfits.allocMem, Nat.two_pow_pos 64, hshort, hfits.isFree⟩
  obtain ⟨mem', hmem', hnext', hprev', hrel'⟩ :=
    pointPrev_spec hS hheadS (hS.short x hxS) mid x
  have hxhead : x ≠ head := by
    rintro rfl
    exact hxl (hhead.resolve_left hx0)
  refine ⟨mem', ?_, ?_, ?_⟩
  · rw [MpMemory.dlinklistInsFrt, hmid, Option.bind_some]
    unfold pointPrev at hmem'
    by_cases hhead0 : head = 0
    · rw [if_pos hhead0] at hmem' ⊢
      cases hmem'
      rfl
    · rw [if_neg hhead0] at hmem' ⊢
      rw [hmem', Option.map_some]
  · have hnextx : nextOf x mem' x = head := by
      rw [hnext' x (.inr hxS), nextOf, if_neg hx0, hw.chunk]
    have hprevx : prevOf mem' x = 0 := by
      rw [hprev' x hxS, if_neg hxhead, prevOf, hw.chunk]
    have hmidl (c : ℕ) (hc : c ∈ l) : readChunk mid c = readChunk mem c :=
      hw.same c (hl c hc) fun heq => hxl (heq ▸ hc)
    refine h.insertFront ?_ rfl hnextx hprevx (fun c hc => ?_) fun d hd => ?_
    · rw [List.mem_cons, not_or]
      exact ⟨hx0, hxl⟩
    · have hc0 := hS.ne_zero c (hl c hc)
      rw [hnext' c (.inr (hl c hc)), nextOf, nextOf, if_neg hc0, if_neg hc0, hmidl c hc]
    · rw [hprev' d (hl d hd), nextOf_zero, prevOf, prevOf, hmidl d hd]
  · refine ((Relinked.of_written hw hxS).trans hrel').mono fun c hc hcx => ?_
    simp only [List.mem_append, List.mem_singleton] at hcx
    rcases hcx with rfl | rfl
    · simp
    · exact List.mem_cons_of_mem _ (hhead.resolve_left (hS.ne_zero c hc))

end LdacsSdk
