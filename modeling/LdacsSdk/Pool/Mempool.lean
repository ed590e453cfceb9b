import LdacsSdk.Core.Definitions
import LdacsSdk.Library.ByteMemory

/-!
# The memory pool

Chunk headers, the pointers at the ends of chunks and the bytes that are handed out are in one byte
memory; a null pointer is 0. A header or an end that is read or written outside of the block that
the code works on has no result. The successive results of `malloc` are given to the calls that may
extend the pool; where there are no more of them it fails.
-/
namespace LdacsSdk

open Library

/-- `_MP_Chunk`, the header of a chunk. -/
structure MpChunk where
  allocMem : ℕ
  prev : ℕ
  next : ℕ
  isFree : ℕ
  deriving DecidableEq, Repr

/-- `MP_CHUNKHEADER`. -/
def mpChunkHeader : ℕ := 32

/-- `MP_CHUNKEND`. -/
def mpChunkEnd : ℕ := 8

/-- `sizeof(_MP_Memory)`. -/
def sizeofMpMemory : ℕ := 64

/-- `MP_ALIGN_SIZE`. -/
def mpAlignSize (n : ℕ) : ℕ := (n + 7) % 2 ^ 64 / 8 * 8

def readChunk (mem : Mem) (c : ℕ) : MpChunk :=
  ⟨loadLe mem c 8, loadLe mem (c + 8) 8, loadLe mem (c + 16) 8, loadLe mem (c + 24) 4⟩

def writeChunk (mem : Mem) (c : ℕ) (h : MpChunk) : Mem :=
  storeLe (storeLe (storeLe (storeLe mem c 8 h.allocMem) (c + 8) 8 h.prev) (c + 16) 8 h.next)
    (c + 24) 4 h.isFree

/-- `_MP_Memory`, a block of the pool. The links between the blocks are the order of a list. -/
structure MpMemory where
  start : ℕ
  mempoolSize : ℕ
  allocMem : ℕ
  allocProgMem : ℕ
  freeList : ℕ
  allocList : ℕ
  deriving DecidableEq, Repr

namespace MpMemory

def stop (mm : MpMemory) : ℕ := mm.start + mm.mempoolSize

/-- The `len` bytes at `a` are in the block. -/
def Inside (mm : MpMemory) (a len : ℕ) : Prop := mm.start ≤ a ∧ a + len ≤ mm.stop

instance (mm : MpMemory) (a len : ℕ) : Decidable (mm.Inside a len) :=
  inferInstanceAs (Decidable (_ ∧ _))

/-- The header of the chunk at `c`. -/
def chunkAt (mm : MpMemory) (mem : Mem) (c : ℕ) : Option MpChunk :=
  if mm.Inside c mpChunkHeader then some (readChunk mem c) else none

/-- Assignments to fields of the chunk at `c`. -/
def update (mm : MpMemory) (mem : Mem) (c : ℕ) (f : MpChunk → MpChunk) : Option Mem :=
  if mm.Inside c mpChunkHeader then some (writeChunk mem c (f (readChunk mem c))) else none

/-- The pointer in front of the chunk at `c`, at the end of the chunk before. -/
def endBefore (mm : MpMemory) (mem : Mem) (c : ℕ) : Option ℕ :=
  if mm.Inside (c - mpChunkEnd) mpChunkEnd then some (loadLe mem (c - mpChunkEnd) 8) else none

/-- The pointer at the end of the chunk at `c` of the given size is set to the chunk. -/
def putEnd (mm : MpMemory) (mem : Mem) (c size : ℕ) : Option Mem :=
  if mm.Inside (c + size - mpChunkEnd) mpChunkEnd then
    some (storeLe mem (c + size - mpChunkEnd) 8 c)
  else none

/-- `MP_INIT_MEMORY_STRUCT`. -/
def initMemory (start mempoolSz : ℕ) (mem : Mem) : Option (MpMemory × Mem) :=
  let mm : MpMemory := ⟨start, mempoolSz, 0, 0, start, 0⟩
  (mm.update mem start fun _ => ⟨mempoolSz, 0, 0, 1⟩).map (mm, ·)

/-- `MP_DLINKLIST_INS_FRT`. -/
def dlinklistInsFrt (mm : MpMemory) (mem : Mem) (head x : ℕ) : Option (Mem × ℕ) :=
  (mm.update mem x fun c => { c with prev := 0, next := head }).bind fun mem =>
    if head = 0 then some (mem, x)
    else (mm.update mem head fun c => { c with prev := x }).map (·, x)

/-- `MP_DLINKLIST_DEL`. -/
def dlinklistDel (mm : MpMemory) (mem : Mem) (head x : ℕ) : Option (Mem × ℕ) :=
  (mm.chunkAt mem x).bind fun c =>
    if c.prev = 0 then
      if c.next = 0 then some (mem, c.next)
      else (mm.update mem c.next fun n => { n with prev := 0 }).map (·, c.next)
    else
      (mm.update mem c.prev fun p => { p with next := c.next }).bind fun mem =>
        if c.next = 0 then some (mem, head)
        else (mm.update mem c.next fun n => { n with prev := c.prev }).map (·, head)

/-- The walk of `mempool_alloc` along the free list: the first chunk that is large enough, for at
most a given number of chunks. -/
def findFree (mm : MpMemory) (mem : Mem) (totalNeededSize : ℕ) : ℕ → ℕ → Option (Option ℕ)
  | 0, _ => none
  | fuel + 1, free =>
    if free = 0 then some none
    else (mm.chunkAt mem free).bind fun c =>
      if totalNeededSize ≤ c.allocMem then some (some free)
      else findFree mm mem totalNeededSize fuel c.next

/-- A large free chunk is split: its front becomes the allocated chunk, the rest takes its place in
the free list. -/
def splitChunk (mm : MpMemory) (mem : Mem) (notFree totalNeededSize : ℕ) :
    Option (MpMemory × Mem) :=
  let free := notFree + totalNeededSize
  (mm.chunkAt mem notFree).bind fun old =>
  (mm.update mem free fun _ => old).bind fun mem =>
  (mm.update mem free fun c =>
    { c with allocMem := u64 (c.allocMem - totalNeededSize) }).bind fun mem =>
  (mm.chunkAt mem free).bind fun c =>
  (mm.putEnd mem free c.allocMem).bind fun mem =>
  (if c.prev = 0 then some (mem, free)
    else (mm.update mem c.prev fun p => { p with next := free }).map
      (·, mm.freeList)).bind fun (mem, head) =>
  (if c.next = 0 then some mem
    else mm.update mem c.next fun n => { n with prev := free }).bind fun mem =>
  (mm.update mem notFree fun c =>
    { c with isFree := 0, allocMem := totalNeededSize }).bind fun mem =>
  (mm.putEnd mem notFree totalNeededSize).map ({ mm with freeList := head }, ·)

/-- A free chunk is granted as a whole. -/
def takeChunk (mm : MpMemory) (mem : Mem) (notFree : ℕ) : Option (MpMemory × Mem) :=
  (mm.dlinklistDel mem mm.freeList notFree).bind fun (mem, head) =>
    (mm.update mem notFree fun c => { c with isFree := 0 }).map ({ mm with freeList := head }, ·)

/-- What `mempool_alloc` does with the free chunk it found. -/
def grantChunk (mm : MpMemory) (mem : Mem) (free totalNeededSize : ℕ) : Option (MpMemory × Mem) :=
  (mm.chunkAt mem free).bind fun c =>
  (if c.allocMem - totalNeededSize > mpChunkHeader + mpChunkEnd then
    mm.splitChunk mem free totalNeededSize
  else mm.takeChunk mem free).bind fun (mm, mem) =>
  (mm.dlinklistInsFrt mem mm.allocList free).bind fun (mem, head) =>
  (mm.chunkAt mem free).map fun c =>
    ({ mm with
        allocList := head, allocMem := u64 (mm.allocMem + c.allocMem)
        allocProgMem := u64 (mm.allocProgMem + (c.allocMem - mpChunkHeader - mpChunkEnd)) }, mem)

/-- The walk back of `merge_free_chunk` over free chunks; the result is `p1`. -/
def walkBack (mm : MpMemory) (mem : Mem) : ℕ → ℕ → ℕ → Option ℕ
  | 0, _, _ => none
  | fuel + 1, p0, p1 =>
    (mm.chunkAt mem p0).bind fun c =>
      if c.isFree = 0 then some p1
      else if p0 ≤ mm.start + mpChunkEnd + mpChunkHeader then some p0
      else (mm.endBefore mem p0).bind fun before => walkBack mm mem fuel before p0

/-- The walk of `merge_free_chunk` over the free chunks behind `p1`, which are added to it. The end
of the block is taken to be `mempoolSize` of the pool behind its start. -/
def mergeBehind (mm : MpMemory) (mempoolSize p1 : ℕ) : ℕ → ℕ → Mem → ℕ → Option (Mem × ℕ)
  | 0, _, _, _ => none
  | fuel + 1, p0, mem, freeList =>
    if p0 < mm.start + mempoolSize then
      (mm.chunkAt mem p0).bind fun c =>
        if c.isFree = 0 then some (mem, freeList)
        else
          (mm.dlinklistDel mem freeList p0).bind fun (mem, freeList) =>
          (mm.chunkAt mem p0).bind fun c =>
          (mm.update mem p1 fun h =>
            { h with allocMem := u64 (h.allocMem + c.allocMem) }).bind fun mem =>
          mergeBehind mm mempoolSize p1 fuel (p0 + c.allocMem) mem freeList
    else some (mem, freeList)

/-- `merge_free_chunk`. A chunk has at least one byte, so the rounds suffice. -/
def mergeFreeChunk (mm : MpMemory) (mempoolSize : ℕ) (mem : Mem) (c : ℕ) :
    Option (MpMemory × Mem) :=
  (mm.walkBack mem (mm.mempoolSize + 1) c c).bind fun p1 =>
  (mm.chunkAt mem p1).bind fun h =>
  (mm.mergeBehind mempoolSize p1 (mm.mempoolSize + 1) (p1 + h.allocMem) mem
    mm.freeList).bind fun (mem, freeList) =>
  (mm.chunkAt mem p1).bind fun h =>
  (mm.putEnd mem p1 h.allocMem).map ({ mm with freeList := freeList }, ·)

/-- What `mempool_free` does to the chunk in its block. -/
def freeChunk (mm : MpMemory) (mempoolSize : ℕ) (mem : Mem) (ck : ℕ) : Option (MpMemory × Mem) :=
  (mm.dlinklistDel mem mm.allocList ck).bind fun (mem, allocList) =>
  (mm.dlinklistInsFrt mem mm.freeList ck).bind fun (mem, freeList) =>
  (mm.update mem ck fun c => { c with isFree := 1 }).bind fun mem =>
  (mm.chunkAt mem ck).bind fun c =>
  mergeFreeChunk
    { mm with
      freeList := freeList, allocList := allocList, allocMem := u64 (mm.allocMem - c.allocMem)
      allocProgMem := u64 (mm.allocProgMem - (c.allocMem - mpChunkHeader - mpChunkEnd)) }
    mempoolSize mem ck

end MpMemory

/-- `ld_mempool`, with the memory its blocks are in. -/
structure LdMempool where
  autoExtend : Bool
  mempoolSize : ℕ
  maxMempoolSize : ℕ
  allocMempoolSize : ℕ
  mlist : List MpMemory
  mem : Mem

namespace LdMempool

/-- `mempool_init` with the block that `malloc` found for the first memory; `junk` is what stands in
`auto_extend` before. NULL is `some none`. -/
def mempoolInit (junk : Bool) (maxMempoolSize mempoolSize s : ℕ) (mem : Mem) :
    Option (Option LdMempool) :=
  if mempoolSize > maxMempoolSize then some none
  else (MpMemory.initMemory (s + sizeofMpMemory) mempoolSize mem).map fun (mm, mem) =>
    some ⟨if mempoolSize < maxMempoolSize then true else junk, mempoolSize, maxMempoolSize,
      mempoolSize, [mm], mem⟩

/-- The walk of `mempool_alloc` over the blocks: the granted chunk, the blocks and the memory. -/
def searchMemory (mempoolSize totalNeededSize : ℕ) (mem : Mem) :
    List MpMemory → Option (Option (ℕ × List MpMemory × Mem))
  | [] => some none
  | mm :: mms =>
    (if u64 (mempoolSize - mm.allocMem) < totalNeededSize then some none
      else mm.findFree mem totalNeededSize (mm.mempoolSize + 1) mm.freeList).bind fun found =>
    match found with
    | some free => (mm.grantChunk mem free totalNeededSize).map fun (mm, mem) =>
        some (free, mm :: mms, mem)
    | none => (searchMemory mempoolSize totalNeededSize mem mms).map fun r =>
        r.map fun (free, mms, mem) => (free, mm :: mms, mem)

/-- `add_mem_sz`. -/
def addMemSz (mp : LdMempool) : ℕ :=
  let addMemSz := u64 (mp.maxMempoolSize - mp.mempoolSize)
  if mp.mempoolSize ≤ addMemSz then mp.mempoolSize else addMemSz

/-- `extend_memory_list` with the block that `malloc` found. -/
def extendMemoryList (mp : LdMempool) (s : ℕ) : Option LdMempool :=
  (MpMemory.initMemory (s + sizeofMpMemory) mp.addMemSz mp.mem).map fun (mm, mem) =>
    { mp with
      mlist := mm :: mp.mlist, mem := mem
      allocMempoolSize := u64 (mp.allocMempoolSize + mp.addMemSz) }

/-- `mempool_alloc` does not extend the pool. -/
def Exhausted (mp : LdMempool) (totalNeededSize : ℕ) : Prop :=
  mp.autoExtend = false ∨ mp.maxMempoolSize < u64 (mp.allocMempoolSize + totalNeededSize)

instance (mp : LdMempool) (totalNeededSize : ℕ) : Decidable (mp.Exhausted totalNeededSize) :=
  inferInstanceAs (Decidable (_ ∨ _))

/-- `mempool_alloc` from `FIND_FREE_CHUNK` on. -/
def findFreeChunk (totalNeededSize : ℕ) (mallocs : List ℕ) (mp : LdMempool) :
    Option (ℕ × LdMempool) :=
  (searchMemory mp.mempoolSize totalNeededSize mp.mem mp.mlist).bind fun found =>
    match found with
    | some (free, mlist, mem) => some (free + mpChunkHeader, { mp with mlist := mlist, mem := mem })
    | none =>
      if mp.Exhausted totalNeededSize then some (0, mp)
      else match mallocs with
        | [] => some (0, mp)
        | s :: mallocs => (mp.extendMemoryList s).bind (findFreeChunk totalNeededSize mallocs)

/-- `total_needed_size`. -/
def totalNeeded (wantsize : ℕ) : ℕ :=
  mpAlignSize ((wantsize + mpChunkHeader + mpChunkEnd) % 2 ^ 64)

/-- `mempool_alloc`. -/
def mempoolAlloc (mp : LdMempool) (wantsize : ℕ) (mallocs : List ℕ) : Option (ℕ × LdMempool) :=
  if wantsize = 0 then some (0, mp)
  else if totalNeeded wantsize > mp.mempoolSize then some (0, mp)
  else findFreeChunk (totalNeeded wantsize) mallocs mp

/-- `find_memory_list`, as a position in the list. -/
def findMemoryList (mp : LdMempool) (p : ℕ) : Option ℕ :=
  mp.mlist.findIdx? fun mm => mm.start ≤ p ∧ p < mm.start + mp.mempoolSize

/-- `mempool_free`. -/
def mempoolFree (mp : LdMempool) (p : ℕ) : Option LdMempool :=
  if p = 0 then some mp
  else (if mp.autoExtend then mp.findMemoryList p else some 0).bind fun i =>
    mp.mlist[i]?.bind fun mm =>
      (mm.freeChunk mp.mempoolSize mp.mem (p - mpChunkHeader)).map fun (mm, mem) =>
        { mp with mlist := mp.mlist.set i mm, mem := mem }

end LdMempool

end LdacsSdk
