import LdacsSdk.Core.Buffer
import LdacsSdk.Library.Runs

/-!
# Writes into the growable buffer

Every call on a buffer keeps the used and the free bytes inside the block, but for three: a clear
leaves the count of free bytes behind, a set with a start behind the free bytes wraps its room
test around, and an initialisation does not look whether it got its block. A call that writes
outside the block has no result here.
-/
namespace LdacsSdk

open Library

/-- The size of the allocation. -/
def Buffer.capacity (b : Buffer) : ℕ := (b.ptr.getD []).length

/-- The used and the free bytes are bytes of the allocation. -/
def Buffer.InBlock (b : Buffer) : Prop := b.len + b.free ≤ b.capacity

instance : DecidablePred Buffer.InBlock := fun _ => inferInstanceAs (Decidable (_ ≤ _))

/-- `init_buffer_ptr` where `alloc_buffer` may fail. Its NUL goes behind a block whose size
wrapped to zero. -/
def initBufferPtrOf (allocated : Bool) (size : ℕ) : Option Buffer :=
  if allocated then
    if size + 1 < 2 ^ 64 then some (initBufferPtr size) else none
  else some ⟨0, size, size, none⟩

/-- `buffer_clear`. -/
def bufferClear (b : Buffer) : Buffer := { b with len := 0, ptr := none }

/-- `CLONE_TO_CHUNK` into `b`, where `clone_to_buffer` may fail. -/
def cloneInto (allocated : Bool) (b : Buffer) (src : List UInt8) : Buffer :=
  { bufferClear b with
    ptr := if allocated then some (cloneToBuffer src) else none
    free := 0, len := src.length, total := src.length }

/-- `change_buffer_len`. -/
def changeBufferLen (b : Buffer) (validLen : ℕ) : Buffer :=
  { b with len := validLen, total := validLen }

/-- `set_to_buffer`, with its difference and its count of free bytes in 64 bits. -/
def setToBuffer (b : Buffer) (start : ℕ) (src : List UInt8) : Option (Buffer × LErr) :=
  if u64 (b.free - start) < src.length then some (b, .ldErrInvalid)
  else if src = [] ∨ start + src.length ≤ b.capacity then
    some ({ b with
      len := b.len + src.length, free := u64 (b.free - src.length),
      ptr := b.ptr.map fun block => overwrite block start src }, .ldOk)
  else none

/-- The calls on one buffer. -/
inductive BufferOp where
  | initUnptr
  | initPtr (allocated : Bool) (size : ℕ)
  | cat (allocated : Bool) (str : List UInt8)
  | set (start : ℕ) (src : List UInt8)
  | clear
  | changeLen (validLen : ℕ)
  | clone (allocated : Bool) (src : List UInt8)
  deriving DecidableEq, Repr

namespace Buffer

/-- One call: the buffer after it and its return code. -/
def call (b : Buffer) : BufferOp → Option (Buffer × LErr)
  | .initUnptr => some (initBufferUnptr, .ldOk)
  | .initPtr allocated size => (initBufferPtrOf allocated size).map (·, .ldOk)
  | .cat allocated str =>
    if b.free < str.length ∨ str = [] ∨ b.len + str.length ≤ b.capacity then
      some (catToBuffer allocated b str)
    else none
  | .set start src => setToBuffer b start src
  | .clear => some (bufferClear b, .ldOk)
  | .changeLen validLen => some (changeBufferLen b validLen, .ldOk)
  | .clone allocated src => some (cloneInto allocated b src, .ldOk)

def step (b : Buffer) (op : BufferOp) : Option Buffer := (b.call op).map Prod.fst

/-- An object has fewer than `2 ^ 63` bytes, a `size_t` has 64 bits and an `int` 32, and a length is
changed to at most the present one. -/
def InRange (b : Buffer) : BufferOp → Prop
  | .initUnptr => True
  | .initPtr allocated size => size < 2 ^ 64 ∧ (allocated = true → u64 (size + 1) < 2 ^ 63)
  | .cat allocated str =>
    str.length < 2 ^ 63 ∧ (allocated = true → b.len + str.length + 1 < 2 ^ 63)
  | .set start src => start < 2 ^ 31 ∧ src.length < 2 ^ 63
  | .clear => True
  | .changeLen validLen => validLen ≤ b.len
  | .clone _ src => src.length + 1 < 2 ^ 63

/-- An initialisation gets its block, a clear finds no free bytes, and a set starts inside the
free bytes, or is as short as they are and ends inside the block. -/
def Fits (b : Buffer) : BufferOp → Prop
  | .initPtr allocated size => if allocated then size + 1 < 2 ^ 64 else size = 0
  | .clone allocated src => allocated = true ∨ src = []
  | .set start src => start ≤ b.free ∨ src = [] ∨
      src.length ≤ b.free ∧ start + src.length ≤ b.capacity
  | .clear => b.free = 0
  | .initUnptr | .cat _ _ | .changeLen _ => True

/-- The calls in range that fit. -/
def Meets (b : Buffer) (op : BufferOp) : Prop := b.InRange op ∧ b.Fits op

instance (b : Buffer) : (op : BufferOp) → Decidable (b.InRange op)
  | .initUnptr | .clear => inferInstanceAs (Decidable True)
  | .initPtr _ _ | .cat _ _ | .set _ _ => inferInstanceAs (Decidable (_ ∧ _))
  | .changeLen _ => inferInstanceAs (Decidable (_ ≤ _))
  | .clone _ _ => inferInstanceAs (Decidable (_ < _))

instance (b : Buffer) : (op : BufferOp) → Decidable (b.Fits op)
  | .initPtr _ _ => inferInstanceAs (Decidable (ite _ _ _))
  | .clone _ _ => inferInstanceAs (Decidable (_ ∨ _))
  | .set _ _ => inferInstanceAs (Decidable (_ ∨ _ ∨ _))
  | .clear => inferInstanceAs (Decidable (_ = _))
  | .initUnptr | .cat _ _ | .changeLen _ => inferInstanceAs (Decidable True)

instance (b : Buffer) (op : BufferOp) : Decidable (b.Meets op) :=
  inferInstanceAs (Decidable (_ ∧ _))

/-- The call writes inside the block and leaves its counts there, and an append that succeeds adds
exactly the given bytes. -/
def Exact (b : Buffer) (op : BufferOp) : Prop :=
  ∃ b' e, b.call op = some (b', e) ∧ b'.InBlock ∧
    ∀ allocated str, op = .cat allocated str →
      e = .ldOk ∧ b'.content = b.content ++ str ∨ e = .ldErrInternal ∧ b' = b

variable {b b' : Buffer}

theorem Valid.inBlock (h : b.Valid) : b.InBlock := by
  unfold Valid at h
  unfold InBlock capacity
  cases hp : b.ptr with
  | none =>
    simp only [hp] at h
    omega
  | some block =>
    simp only [hp] at h
    simpa using h.le

/-- Counts that do not grow stay inside a block of the same size. -/
theorem Valid.of_le (h : b.Valid) (hsum : b'.len + b'.free ≤ b.len + b.free)
    (hptr : b'.ptr.map List.length = b.ptr.map List.length) : b'.Valid := by
  unfold Valid at h ⊢
  cases hp : b.ptr with
  | none =>
    have hp' : b'.ptr = none := by simpa [hp] using hptr
    simp only [hp, hp'] at h ⊢
    omega
  | some block =>
    obtain ⟨block', hp', hlen⟩ : ∃ block', b'.ptr = some block' ∧ block'.length = block.length := by
      simpa [hp] using hptr
    simp only [hp, hp'] at h ⊢
    omega

/-- A write inside the block, or of nothing, keeps its size. -/
theorem map_length_overwrite {start : ℕ} {src : List UInt8}
    (h : src = [] ∨ start + src.length ≤ b.capacity) :
    (b.ptr.map fun block => overwrite block start src).map List.length =
      b.ptr.map List.length := by
  cases hp : b.ptr with
  | none => rfl
  | some block =>
    rcases h with rfl | hle
    · simp [overwrite]
    · have hle' : start + src.length ≤ block.length := by simpa [capacity, hp] using hle
      simp [length_overwrite hle']

theorem length_block_eq {p q : Option (List UInt8)} (h : p.map List.length = q.map List.length) :
    (p.getD []).length = (q.getD []).length := by
  have hlen (r : Option (List UInt8)) : (r.getD []).length = (r.map List.length).getD 0 := by
    cases r <;> rfl
  rw [hlen, hlen, h]

/-- The counts are inside the block, in front of its NUL, and the block is an object. -/
structure Sound (b : Buffer) : Prop where
  valid : b.Valid
  small : b.capacity < 2 ^ 63

theorem sound_initBufferUnptr : initBufferUnptr.Sound :=
  ⟨valid_initBufferUnptr, by simp [capacity, initBufferUnptr]⟩

theorem Sound.of_le (h : b.Sound) (hsum : b'.len + b'.free ≤ b.len + b.free)
    (hptr : b'.ptr.map List.length = b.ptr.map List.length) : b'.Sound := by
  refine ⟨h.valid.of_le hsum hptr, ?_⟩
  rw [capacity, length_block_eq hptr]
  exact h.small

theorem Sound.initPtr {allocated : Bool} {size : ℕ} (hin : b.InRange (.initPtr allocated size))
    (hfits : b.Fits (.initPtr allocated size)) :
    ∃ b', initBufferPtrOf allocated size = some b' ∧ b'.Sound := by
  cases allocated with
  | false =>
    have hzero : size = 0 := hfits
    exact ⟨_, rfl, by simp [Valid, hzero], by simp [capacity]⟩
  | true =>
    have hsize : size + 1 < 2 ^ 64 := hfits
    have hobject : u64 (size + 1 : ℕ) < 2 ^ 63 := hin.2 rfl
    rw [u64_natCast hsize] at hobject
    exact ⟨_, if_pos hsize, valid_initBufferPtr size, by
      simpa [capacity, initBufferPtr, allocBuffer] using hobject⟩

theorem Sound.cat (h : b.Sound) {allocated : Bool} {str : List UInt8}
    (hin : b.InRange (.cat allocated str)) :
    ∃ b' e, b.call (.cat allocated str) = some (b', e) ∧ b'.Sound ∧
      (e = .ldOk ∧ b'.content = b.content ++ str ∨ e = .ldErrInternal ∧ b' = b) := by
  have hinside := h.valid.inBlock
  unfold InBlock at hinside
  rcases Nat.lt_or_ge b.free str.length with hgrow | hfill
  · cases allocated with
    | false => exact ⟨b, .ldErrInternal, by simp [call, hgrow, catToBuffer], h, .inr ⟨rfl, rfl⟩⟩
    | true =>
      obtain ⟨hvalid, hcontent⟩ := h.valid.grown str
      refine ⟨b.grown str, .ldOk, by simp [call, hgrow, catToBuffer_grow], ⟨hvalid, ?_⟩,
        .inl ⟨rfl, hcontent⟩⟩
      have hsmall := hin.2 rfl
      simpa [capacity, Buffer.grown, h.valid.length_content, Nat.add_assoc] using hsmall
  · obtain ⟨hvalid, hcontent⟩ := h.valid.filled hfill
    have hroom : b.len + str.length ≤ b.capacity := by omega
    have hsound : (b.filled str).Sound := by
      refine h.of_le ?_ (map_length_overwrite (.inr hroom))
      simp only [Buffer.filled]
      omega
    exact ⟨b.filled str, .ldOk, by simp [call, hroom, catToBuffer_fill hfill], hsound,
      .inl ⟨rfl, hcontent⟩⟩

/-- Where a set is let through: it starts inside the free bytes and ends there, or it starts behind
them. -/
theorem set_accepted {start n : ℕ} (hfree : b.free < 2 ^ 63) (hstart : start < 2 ^ 31)
    (hn : n < 2 ^ 63) :
    u64 (b.free - start) < n ↔ start ≤ b.free ∧ b.free < start + n := by
  unfold u64
  omega

theorem Sound.free_lt (h : b.Sound) : b.free < 2 ^ 63 := by
  have hinside := h.valid.inBlock
  have hsmall := h.small
  unfold InBlock at hinside
  omega

theorem Sound.set (h : b.Sound) {start : ℕ} {src : List UInt8} (hin : b.InRange (.set start src))
    (hfits : b.Fits (.set start src)) :
    ∃ b' e, setToBuffer b start src = some (b', e) ∧ b'.Sound := by
  have hinside := h.valid.inBlock
  have haccepted := set_accepted h.free_lt hin.1 hin.2
  unfold InBlock at hinside
  by_cases hreject : u64 (b.free - start) < src.length
  · exact ⟨b, .ldErrInvalid, if_pos hreject, h⟩
  · have hwrite : src = [] ∨ start + src.length ≤ b.capacity := by
      rcases hfits with hstart | hnil | ⟨-, hend⟩
      · exact .inr (by omega)
      · exact .inl hnil
      · exact .inr hend
    have hshort : src.length ≤ b.free := by
      rcases hfits with hstart | rfl | ⟨hshort, -⟩
      · omega
      · simp
      · exact hshort
    refine ⟨_, .ldOk, by rw [setToBuffer, if_neg hreject, if_pos hwrite], ?_⟩
    refine h.of_le ?_ (map_length_overwrite hwrite)
    have hfree := h.free_lt
    simp only [u64]
    omega

/-- A call that fits has a result, keeps the counts inside the block, and appends exactly. -/
theorem Sound.call (h : b.Sound) {op : BufferOp} (hin : b.InRange op) (hfits : b.Fits op) :
    ∃ b' e, b.call op = some (b', e) ∧ b'.Sound ∧ ∀ allocated str, op = .cat allocated str →
      e = .ldOk ∧ b'.content = b.content ++ str ∨ e = .ldErrInternal ∧ b' = b := by
  cases op with
  | initUnptr => exact ⟨_, _, rfl, sound_initBufferUnptr, by simp⟩
  | initPtr allocated size =>
    obtain ⟨b', hb', hsound⟩ := Sound.initPtr hin hfits
    exact ⟨b', .ldOk, by simp [Buffer.call, hb'], hsound, by simp⟩
  | cat allocated str =>
    obtain ⟨b', e, hcall, hsound, hcontent⟩ := h.cat hin
    exact ⟨b', e, hcall, hsound, fun _ _ he => by cases he; exact hcontent⟩
  | set start src =>
    obtain ⟨b', e, hcall, hsound⟩ := h.set hin hfits
    exact ⟨b', e, hcall, hsound, by simp⟩
  | clear =>
    have hfree : b.free = 0 := hfits
    exact ⟨_, _, rfl, ⟨by simp [bufferClear, Valid, hfree], by simp [bufferClear, capacity]⟩,
      by simp⟩
  | changeLen validLen =>
    have hle : validLen ≤ b.len := hin
    exact ⟨_, _, rfl, h.of_le (by simpa [changeBufferLen] using hle) rfl, by simp⟩
  | clone allocated src =>
    have hsmall : src.length + 1 < 2 ^ 63 := hin
    refine ⟨_, _, rfl, ?_, by simp⟩
    cases allocated with
    | true => exact ⟨by simp [cloneInto, Valid, cloneToBuffer], by simpa [cloneInto, capacity,
        cloneToBuffer] using hsmall⟩
    | false =>
      have hnil : src = [] := by simpa [Fits] using hfits
      exact ⟨by simp [cloneInto, Valid, hnil], by simp [cloneInto, capacity]⟩

/-- A call that does what it should fits. -/
theorem Sound.fits_of_exact (h : b.Sound) {op : BufferOp} (hin : b.InRange op)
    (hexact : b.Exact op) : b.Fits op := by
  obtain ⟨b', e, hcall, hinside, -⟩ := hexact
  unfold InBlock at hinside
  cases op with
  | initUnptr | cat allocated str | changeLen validLen => trivial
  | initPtr allocated size =>
    cases allocated with
    | true =>
      obtain ⟨_, hinit, -⟩ := Option.map_eq_some_iff.mp hcall
      unfold initBufferPtrOf at hinit
      split_ifs at hinit with _ hsize
      · exact hsize
      · contradiction
    | false =>
      simp only [Buffer.call, initBufferPtrOf, Bool.false_eq_true, if_false, Option.map_some,
        Option.some.injEq, Prod.mk.injEq] at hcall
      obtain ⟨rfl, -⟩ := hcall
      simpa [Fits, capacity] using hinside
  | set start src =>
    by_contra hfits
    simp only [Fits, not_or, not_and] at hfits
    obtain ⟨hstart, hnil, hlong⟩ := hfits
    have hfree := h.free_lt
    -- the wrapped room test lets the call through
    have hthrough : ¬ u64 (b.free - start) < src.length := by
      rw [set_accepted hfree hin.1 hin.2]
      omega
    simp only [Buffer.call, setToBuffer, if_neg hthrough] at hcall
    split_ifs at hcall with hwrite
    obtain ⟨rfl, -⟩ := Prod.mk.inj (Option.some.inj hcall)
    have hend := hwrite.resolve_left hnil
    have hmany : b.free < src.length := by
      by_contra hle
      exact hlong (by omega) hend
    have hcounts : b.len + src.length + u64 (b.free - src.length) ≤ b.capacity :=
      hinside.trans (length_block_eq (map_length_overwrite hwrite)).le
    have hsmall := h.small
    have hn := hin.2
    unfold u64 at hcounts
    omega
  | clear =>
    obtain ⟨rfl, -⟩ := Prod.mk.inj (Option.some.inj hcall)
    simpa [bufferClear, Fits, capacity] using hinside
  | clone allocated src =>
    obtain ⟨rfl, -⟩ := Prod.mk.inj (Option.some.inj hcall)
    cases allocated with
    | true => exact .inl rfl
    | false => exact .inr (by simpa [cloneInto, capacity] using hinside)

theorem sound_of_reaches (h : Reaches step Meets initBufferUnptr b) : b.Sound := by
  induction h with
  | refl => exact sound_initBufferUnptr
  | tail _ hst ih =>
    obtain ⟨op, ⟨hin, hfits⟩, hs⟩ := hst
    obtain ⟨b', e, hcall, hsound, -⟩ := ih.call hin hfits
    rw [step, hcall] at hs
    obtain rfl := Option.some.inj hs
    exact hsound

/-- In every run whose calls fit the counts are inside the block, and the calls that write inside
it, keep the counts there and append exactly are those that fit. -/
theorem buffer_writes_inside (b : Buffer) (h : Reaches step Meets initBufferUnptr b) :
    b.InBlock ∧ b.capacity < 2 ^ 63 ∧ ∀ op, b.InRange op → (b.Exact op ↔ b.Fits op) := by
  have hsound := sound_of_reaches h
  refine ⟨hsound.valid.inBlock, hsound.small, fun op hin =>
    ⟨hsound.fits_of_exact hin, fun hfits => ?_⟩⟩
  obtain ⟨b', e, hcall, hsound', hcontent⟩ := hsound.call hin hfits
  exact ⟨b', e, hcall, hsound'.valid.inBlock, hcontent⟩

/-- Two appends into free space, a third one that replaces the block. -/
theorem buffer_writes_inside_appends : ∃ b, Reaches step Meets initBufferUnptr b ∧
    b.content = [1, 3, 5, 7] ∧ b.InBlock ∧ b.Exact (.cat true [9]) := by
  obtain ⟨b, hb, hcontent, hin⟩ : ∃ b, runOps step Meets initBufferUnptr
      [.initPtr true 3, .cat true [1, 3], .cat true [5], .cat true [7]] = some b ∧
        b.content = [1, 3, 5, 7] ∧ b.InRange (.cat true [9]) :=
    ⟨_, rfl, rfl, by decide⟩
  have hrun := reaches_of_runOps _ hb
  have hall := buffer_writes_inside b hrun
  exact ⟨b, hrun, hcontent, hall.1, (hall.2.2 _ hin).mpr trivial⟩

/-- A clear leaves the free bytes of a block that is gone. -/
theorem cleared_buffer_has_free_bytes :
    ¬ ∀ b, Reaches step InRange initBufferUnptr b → b.InBlock := by
  intro hall
  obtain ⟨b, hb, houtside⟩ : ∃ b, runOps step InRange initBufferUnptr
      [.initPtr true 4, .clear] = some b ∧ ¬ b.InBlock := ⟨_, rfl, by decide⟩
  exact houtside (hall b (reaches_of_runOps _ hb))

end Buffer

end LdacsSdk
