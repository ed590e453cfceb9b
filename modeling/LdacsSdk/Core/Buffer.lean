import LdacsSdk.Core.Definitions

/-!
# The growable byte buffer

`buffer_t` keeps a length, a total size, a count of free bytes and a heap block. The block is
modelled as the list of all its bytes, the NUL that `alloc_buffer` adds at the end included, so
its length is the size of the allocation.
-/
namespace LdacsSdk

/-- `buffer_t`; `ptr` is `none` for a NULL pointer and else the whole allocated block. -/
structure Buffer where
  len : ℕ
  total : ℕ
  free : ℕ
  ptr : Option (List UInt8)
  deriving DecidableEq, Repr

namespace Buffer

/-- The bytes in use. -/
def content (b : Buffer) : List UInt8 := (b.ptr.getD []).take b.len

/-- The used and the free bytes lie inside the block, in front of its NUL. -/
def Valid (b : Buffer) : Prop :=
  match b.ptr with
  | none => b.len = 0 ∧ b.free = 0
  | some block => b.len + b.free < block.length

instance : DecidablePred Valid
  | ⟨_, _, _, none⟩ => inferInstanceAs (Decidable (_ = 0 ∧ _ = 0))
  | ⟨_, _, _, some _⟩ => inferInstanceAs (Decidable (_ < _))

theorem Valid.length_content {b : Buffer} (h : b.Valid) : b.content.length = b.len := by
  unfold Valid at h
  unfold content
  cases hp : b.ptr with
  | none => simp only [hp] at h; simp [h.1]
  | some block =>
    simp only [hp] at h
    simp only [Option.getD_some, List.length_take]
    omega

theorem Valid.content_ne_nil {b : Buffer} (h : b.Valid) (hpos : 0 < b.len) : b.content ≠ [] := by
  apply List.ne_nil_of_length_pos
  rwa [h.length_content]

end Buffer

/-- `alloc_buffer`: `calloc(size + 1)`. -/
def allocBuffer (size : ℕ) : List UInt8 := List.replicate (size + 1) 0

/-- `init_buffer_unptr`. -/
def initBufferUnptr : Buffer := ⟨0, 0, 0, none⟩

/-- `init_buffer_ptr`. -/
def initBufferPtr (size : ℕ) : Buffer := ⟨0, size, size, some (allocBuffer size)⟩

/-- `clone_to_buffer`, of the bytes at the source pointer. -/
def cloneToBuffer (src : List UInt8) : List UInt8 := src ++ [0]

/-- `CLONE_TO_CHUNK`, which overwrites every field of the target. -/
def cloneToChunk (src : List UInt8) : Buffer :=
  ⟨src.length, src.length, 0, some (cloneToBuffer src)⟩

/-- `memcpy` of `src` to offset `pos` of a block. -/
def overwrite (block : List UInt8) (pos : ℕ) (src : List UInt8) : List UInt8 :=
  block.take pos ++ src ++ block.drop (pos + src.length)

/-- `cat_to_buffer`. `allocated` says whether `alloc_buffer` succeeds where it is called. -/
def catToBuffer (allocated : Bool) (buf : Buffer) (str : List UInt8) : Buffer × LErr :=
  let newSize := buf.len + str.length
  if str.length > buf.free then
    if allocated then
      ({ len := newSize, total := newSize, free := 0,
         ptr := some (buf.content ++ str ++ [0]) }, .ldOk)
    else (buf, .ldErrInternal)
  else
    ({ buf with
       len := newSize, free := buf.free - str.length,
       ptr := buf.ptr.map fun block => overwrite block buf.len str }, .ldOk)

@[simp] theorem content_initBufferUnptr : initBufferUnptr.content = [] := rfl

@[simp] theorem content_initBufferPtr (size : ℕ) : (initBufferPtr size).content = [] := by
  simp [initBufferPtr, Buffer.content]

@[simp] theorem content_cloneToChunk (src : List UInt8) : (cloneToChunk src).content = src := by
  simp [cloneToChunk, Buffer.content, cloneToBuffer]

@[simp] theorem len_cloneToChunk (src : List UInt8) : (cloneToChunk src).len = src.length := rfl

theorem valid_initBufferUnptr : initBufferUnptr.Valid := ⟨rfl, rfl⟩

theorem valid_initBufferPtr (size : ℕ) : (initBufferPtr size).Valid := by
  simp [initBufferPtr, Buffer.Valid, allocBuffer]

theorem valid_cloneToChunk (src : List UInt8) : (cloneToChunk src).Valid := by
  simp [cloneToChunk, Buffer.Valid, cloneToBuffer]

theorem take_overwrite {block src : List UInt8} {pos : ℕ} (h : pos ≤ block.length) :
    (overwrite block pos src).take (pos + src.length) = block.take pos ++ src := by
  rw [overwrite, List.take_left']
  simp [h]

theorem length_overwrite {block src : List UInt8} {pos : ℕ} (h : pos + src.length ≤ block.length) :
    (overwrite block pos src).length = block.length := by
  simp only [overwrite, List.length_append, List.length_take, List.length_drop]
  omega

/-- The buffer left by an append that replaces the block. -/
def Buffer.grown (buf : Buffer) (str : List UInt8) : Buffer :=
  ⟨buf.len + str.length, buf.len + str.length, 0, some (buf.content ++ str ++ [0])⟩

/-- The buffer left by an append that uses free space. -/
def Buffer.filled (buf : Buffer) (str : List UInt8) : Buffer :=
  { buf with
    len := buf.len + str.length, free := buf.free - str.length,
    ptr := buf.ptr.map fun block => overwrite block buf.len str }

theorem catToBuffer_grow {buf : Buffer} {str : List UInt8} (h : buf.free < str.length) :
    catToBuffer true buf str = (buf.grown str, .ldOk) := by
  simp [catToBuffer, h, Buffer.grown]

theorem catToBuffer_fill {buf : Buffer} {str : List UInt8} (h : str.length ≤ buf.free)
    (allocated : Bool) : catToBuffer allocated buf str = (buf.filled str, .ldOk) := by
  simp [catToBuffer, Nat.not_lt.mpr h, Buffer.filled]

/-- An append that fails leaves the buffer as it is. -/
theorem catToBuffer_failed {allocated : Bool} {buf : Buffer} {str : List UInt8}
    (h : (catToBuffer allocated buf str).2 ≠ .ldOk) : (catToBuffer allocated buf str).1 = buf := by
  unfold catToBuffer at h ⊢
  dsimp only at h ⊢
  split_ifs at h ⊢ <;> first | rfl | exact absurd rfl h

theorem Buffer.Valid.grown {buf : Buffer} (h : buf.Valid) (str : List UInt8) :
    (buf.grown str).Valid ∧ (buf.grown str).content = buf.content ++ str := by
  have hlen := h.length_content
  constructor
  · simp [Buffer.Valid, Buffer.grown, hlen]
  · simp only [Buffer.grown]
    rw [Buffer.content, Option.getD_some, ← hlen, List.take_left']
    simp

theorem Buffer.Valid.filled {buf : Buffer} (h : buf.Valid) {str : List UInt8}
    (hs : str.length ≤ buf.free) :
    (buf.filled str).Valid ∧ (buf.filled str).content = buf.content ++ str := by
  unfold Buffer.Valid at h
  cases hp : buf.ptr with
  | none =>
    simp only [hp] at h
    have hnil : str = [] := List.eq_nil_of_length_eq_zero (by omega)
    simp [Buffer.Valid, Buffer.filled, Buffer.content, hp, h, hnil]
  | some block =>
    simp only [hp] at h
    constructor
    · simp only [Buffer.Valid, Buffer.filled, hp, Option.map_some]
      rw [length_overwrite (by omega)]
      omega
    · simp only [Buffer.filled, Buffer.content, hp, Option.map_some, Option.getD_some]
      exact take_overwrite (by omega)

/-- Appending keeps the block large enough and adds exactly the given bytes, whether free
space is used or the block is replaced. -/
theorem catToBuffer_spec {buf : Buffer} (h : buf.Valid) (str : List UInt8) :
    (catToBuffer true buf str).1.Valid ∧ (catToBuffer true buf str).2 = .ldOk ∧
      (catToBuffer true buf str).1.content = buf.content ++ str := by
  rcases Nat.lt_or_ge buf.free str.length with hfree | hfree
  · rw [catToBuffer_grow hfree]
    exact ⟨(h.grown str).1, rfl, (h.grown str).2⟩
  · rw [catToBuffer_fill hfree]
    exact ⟨(h.filled hfree).1, rfl, (h.filled hfree).2⟩

end LdacsSdk
