import Mathlib.Tactic

/-!
# Memory as blocks of bytes

A memory is a set of numbered objects, and a pointer is the number of the object whose start it
points to; 0 is the null pointer. An object is a raw block of bytes or a value that is only looked
at as a whole. A byte of a raw block is a plain one, part of a pointer, or not written yet. Loads
and stores outside a block have no result.
-/
namespace LdacsSdk.Library

/-- A plain byte, or the `i`-th byte of a pointer. -/
inductive MemByte where
  | plain (b : UInt8)
  | part (p i : ℕ)
  deriving DecidableEq, Repr

/-- A block of bytes. -/
structure RawBlock where
  size : ℕ
  content : ℕ → Option MemByte

/-- The bytes of a number, the lowest first. -/
def leBytes : ℕ → ℕ → List MemByte
  | 0, _ => []
  | k + 1, n => .plain (UInt8.ofNat n) :: leBytes k (n / 256)

/-- The number that plain bytes make. -/
def leNat : List MemByte → Option ℕ
  | [] => some 0
  | .plain b :: bs => (leNat bs).map (b.toNat + 256 * ·)
  | .part _ _ :: _ => none

/-- The bytes of a pointer. -/
def ptrBytes (p : ℕ) : List MemByte :=
  if p = 0 then List.replicate 8 (.plain 0) else (List.range 8).map (.part p)

/-- The pointer that eight bytes make. -/
def ptrOf (bs : List MemByte) : Option ℕ :=
  match bs with
  | .part p _ :: _ => if bs = ptrBytes p then some p else none
  | _ => if bs = ptrBytes 0 then some 0 else none

theorem length_leBytes (k n : ℕ) : (leBytes k n).length = k := by
  induction k generalizing n with
  | zero => rfl
  | succ k ih => simp [leBytes, ih]

theorem leNat_leBytes (k n : ℕ) : leNat (leBytes k n) = some (n % 256 ^ k) := by
  induction k generalizing n with
  | zero => simp [leBytes, leNat, Nat.mod_one]
  | succ k ih =>
    have hbyte : (UInt8.ofNat n).toNat = n % 256 := by simp
    rw [leBytes, leNat, ih, Option.map_some, hbyte, pow_succ', Nat.mod_mul]

theorem leNat_lt {bs : List MemByte} {n : ℕ} (h : leNat bs = some n) : n < 256 ^ bs.length := by
  induction bs generalizing n with
  | nil =>
    cases h
    decide
  | cons b bs ih =>
    cases b with
    | plain b =>
      obtain ⟨n, hn, rfl⟩ := Option.map_eq_some_iff.mp h
      have hb : b.toNat < 256 := b.toNat_lt
      have htail := ih hn
      rw [List.length_cons, pow_succ']
      omega
    | part p i => simp [leNat] at h

theorem length_ptrBytes (p : ℕ) : (ptrBytes p).length = 8 := by
  unfold ptrBytes
  split_ifs <;> simp

theorem ptrOf_ptrBytes (p : ℕ) : ptrOf (ptrBytes p) = some p := by
  by_cases hp : p = 0
  · subst hp
    decide
  · have hbytes : ptrBytes p = .part p 0 :: (List.range' 1 7).map (.part p) := by
      rw [ptrBytes, if_neg hp]
      rfl
    rw [hbytes, ptrOf, ← hbytes, if_pos rfl]

namespace RawBlock

/-- A block as `malloc` hands it out. -/
def fresh (size : ℕ) : RawBlock := ⟨size, fun _ => none⟩

/-- A block that was filled with zeros. -/
def zeroed (size : ℕ) : RawBlock := ⟨size, fun _ => some (.plain 0)⟩

/-- The byte at an offset inside the block. -/
def get (r : RawBlock) (a : ℕ) : Option MemByte := if a < r.size then r.content a else none

/-- The bytes from offset `o` on. -/
def load (r : RawBlock) (o : ℕ) : ℕ → Option (List MemByte)
  | 0 => some []
  | k + 1 => (r.get o).bind fun b => (r.load (o + 1) k).map (b :: ·)

/-- The block with bytes put at offset `o`. -/
def store (r : RawBlock) (o : ℕ) (bs : List MemByte) : Option RawBlock :=
  if o + bs.length ≤ r.size then
    some { r with
      content := fun a => if o ≤ a ∧ a < o + bs.length then bs[a - o]? else r.content a }
  else none

variable {r r' : RawBlock} {o q k : ℕ} {bs : List MemByte}

theorem load_congr (h : ∀ a, o ≤ a → a < o + k → r'.get a = r.get a) :
    r'.load o k = r.load o k := by
  induction k generalizing o with
  | zero => rfl
  | succ k ih =>
    rw [load, load, h o le_rfl (by omega), ih fun a ha hlt => h a (by omega) (by omega)]

theorem length_of_load (h : r.load o k = some bs) : bs.length = k := by
  induction k generalizing o bs with
  | zero =>
    cases h
    rfl
  | succ k ih =>
    obtain ⟨b, -, htail⟩ := Option.bind_eq_some_iff.mp h
    obtain ⟨tail, hload, rfl⟩ := Option.map_eq_some_iff.mp htail
    rw [List.length_cons, ih hload]

theorem load_of_get (h : ∀ i < bs.length, r.get (o + i) = bs[i]?) :
    r.load o bs.length = some bs := by
  induction bs generalizing o with
  | nil => rfl
  | cons b bs ih =>
    have hhead := h 0 (by simp)
    have htail : r.load (o + 1) bs.length = some bs := ih fun i hi => by
      have hnext := h (i + 1) (by simpa using hi)
      rw [Nat.add_assoc, Nat.add_comm 1 i, hnext]
      rfl
    rw [Nat.add_zero] at hhead
    rw [List.length_cons, load, hhead, htail]
    rfl

theorem load_of_unwritten (hk : 0 < k) (h : r.get o = none) : r.load o k = none := by
  obtain ⟨k, rfl⟩ := Nat.exists_eq_add_of_le' hk
  rw [load, h]
  rfl

theorem load_of_outside (h : r.size < o + k) (hk : 0 < k) : r.load o k = none := by
  induction k generalizing o with
  | zero => omega
  | succ k ih =>
    rw [load]
    by_cases hin : o < r.size
    · rw [ih (by omega) (by omega)]
      cases r.get o <;> rfl
    · rw [get, if_neg hin]
      rfl

theorem store_eq_some (h : r.store o bs = some r') :
    o + bs.length ≤ r.size ∧ r'.size = r.size ∧
      ∀ a, r'.content a = if o ≤ a ∧ a < o + bs.length then bs[a - o]? else r.content a := by
  unfold store at h
  split_ifs at h with hin
  cases h
  exact ⟨hin, rfl, fun _ => rfl⟩

theorem exists_store (h : o + bs.length ≤ r.size) : ∃ r', r.store o bs = some r' := by
  rw [store, if_pos h]
  exact ⟨_, rfl⟩

theorem load_store_self (h : r.store o bs = some r') : r'.load o bs.length = some bs := by
  obtain ⟨hin, hsize, hcontent⟩ := store_eq_some h
  refine load_of_get fun i hi => ?_
  rw [get, hsize, if_pos (by omega), hcontent, if_pos (by omega), Nat.add_sub_cancel_left]

theorem get_fresh (size a : ℕ) : (fresh size).get a = none := by
  unfold get fresh
  split_ifs <;> rfl

end RawBlock

/-- An object in memory. -/
inductive MemObject (β : Type*) where
  | raw (r : RawBlock)
  | whole (x : β)

/-- The objects below `next` are in use, or were. -/
structure Memory (β : Type*) where
  next : ℕ
  obj : ℕ → Option (MemObject β)

namespace Memory

variable {β : Type*}

/-- The raw block a pointer points to. -/
def raw? (m : Memory β) (p : ℕ) : Option RawBlock :=
  if p = 0 then none else match m.obj p with
  | some (.raw r) => some r
  | _ => none

/-- The value a pointer points to. -/
def whole? (m : Memory β) (p : ℕ) : Option β :=
  if p = 0 then none else match m.obj p with
  | some (.whole x) => some x
  | _ => none

def set (m : Memory β) (p : ℕ) (x : MemObject β) : Memory β :=
  { m with obj := Function.update m.obj p (some x) }

/-- A new object; the pointer to it is `m.next`. -/
def alloc (m : Memory β) (x : MemObject β) : Memory β :=
  ⟨m.next + 1, Function.update m.obj m.next (some x)⟩

def load (m : Memory β) (p o k : ℕ) : Option (List MemByte) := (m.raw? p).bind fun r => r.load o k

def store (m : Memory β) (p o : ℕ) (bs : List MemByte) : Option (Memory β) :=
  (m.raw? p).bind fun r => (r.store o bs).map fun r' => m.set p (.raw r')

/-- The unsigned number of `k` bytes at an offset. -/
def loadNat (m : Memory β) (p o k : ℕ) : Option ℕ := (m.load p o k).bind leNat

/-- The pointer at an offset. -/
def loadPtr (m : Memory β) (p o : ℕ) : Option ℕ := (m.load p o 8).bind ptrOf

/-- The second memory is the first with more objects and with other bytes in the block of `p` from
offset `o` up to `e`. -/
structure Keeps (m m' : Memory β) (p o e : ℕ) : Prop where
  next_le : m.next ≤ m'.next
  obj : ∀ a < m.next, a ≠ p → m'.obj a = m.obj a
  block : ∀ r, m.raw? p = some r →
    ∃ r', m'.raw? p = some r' ∧ r'.size = r.size ∧ ∀ a, a < o ∨ e ≤ a → r'.content a = r.content a

/-- The block of `p` has `w` bytes from offset `o` on, and they are zero. -/
def Blank (m : Memory β) (p o w : ℕ) : Prop :=
  ∃ r, m.raw? p = some r ∧ o + w ≤ r.size ∧
    ∀ a, o ≤ a → a < o + w → r.content a = some (.plain 0)

variable {m m' m'' : Memory β} {p q o o' e e' k w : ℕ} {r : RawBlock} {bs : List MemByte}
  {x : MemObject β}

theorem raw?_congr (h : m'.obj p = m.obj p) : m'.raw? p = m.raw? p := by
  rw [raw?, raw?, h]

theorem whole?_congr (h : m'.obj p = m.obj p) : m'.whole? p = m.whole? p := by
  rw [whole?, whole?, h]

theorem loadPtr_congr (h : m'.obj p = m.obj p) (o : ℕ) : m'.loadPtr p o = m.loadPtr p o := by
  rw [loadPtr, loadPtr, load, load, raw?_congr h]

theorem ne_zero_of_raw? (h : m.raw? p = some r) : p ≠ 0 := by
  rintro rfl
  simp [raw?] at h

theorem whole?_of_raw? (h : m.raw? p = some r) : m.whole? p = none := by
  have hp := ne_zero_of_raw? h
  rw [raw?, if_neg hp] at h
  rw [whole?, if_neg hp]
  split at h <;> simp_all

theorem raw?_set (hp : p ≠ 0) : (m.set p (.raw r)).raw? p = some r := by
  simp [raw?, set, hp]

theorem whole?_set (hp : p ≠ 0) (x : β) : (m.set p (.whole x)).whole? p = some x := by
  simp [whole?, set, hp]

theorem obj_set_of_ne (h : q ≠ p) : (m.set p x).obj q = m.obj q := by
  simp [set, h]

theorem obj_alloc_of_lt (h : q < m.next) : (m.alloc x).obj q = m.obj q := by
  simp [alloc, h.ne]

theorem raw?_alloc (hn : 0 < m.next) : (m.alloc (.raw r)).raw? m.next = some r := by
  simp [raw?, alloc, hn.ne']

theorem whole?_alloc (hn : 0 < m.next) (x : β) : (m.alloc (.whole x)).whole? m.next = some x := by
  simp [whole?, alloc, hn.ne']

theorem exists_store (o : ℕ) (bs : List MemByte) (h : m.raw? p = some r)
    (hin : o + bs.length ≤ r.size) :
    ∃ m', m.store p o bs = some m' := by
  obtain ⟨r', hr'⟩ := RawBlock.exists_store hin
  exact ⟨_, by rw [store, h, Option.bind_some, hr', Option.map_some]⟩

theorem store_eq_some (h : m.store p o bs = some m') :
    ∃ r r', m.raw? p = some r ∧ r.store o bs = some r' ∧ m' = m.set p (.raw r') := by
  obtain ⟨r, hr, hstore⟩ := Option.bind_eq_some_iff.mp h
  obtain ⟨r', hr', heq⟩ := Option.map_eq_some_iff.mp hstore
  exact ⟨r, r', hr, hr', heq.symm⟩

theorem next_store (h : m.store p o bs = some m') : m'.next = m.next := by
  obtain ⟨r, r', -, -, rfl⟩ := store_eq_some h
  rfl

theorem obj_store_of_ne (h : m.store p o bs = some m') (hq : q ≠ p) : m'.obj q = m.obj q := by
  obtain ⟨r, r', -, -, rfl⟩ := store_eq_some h
  exact obj_set_of_ne hq

theorem load_store_self (h : m.store p o bs = some m') : m'.load p o bs.length = some bs := by
  obtain ⟨r, r', hr, hstore, rfl⟩ := store_eq_some h
  rw [load, raw?_set (ne_zero_of_raw? hr), Option.bind_some, RawBlock.load_store_self hstore]

theorem loadNat_store {n : ℕ} (h : m.store p o (leBytes k n) = some m') :
    m'.loadNat p o k = some (n % 256 ^ k) := by
  have hload := load_store_self h
  rw [length_leBytes] at hload
  rw [loadNat, hload, Option.bind_some, leNat_leBytes]

theorem loadNat_lt {n : ℕ} (h : m.loadNat p o k = some n) : n < 256 ^ k := by
  obtain ⟨bs, hload, hn⟩ := Option.bind_eq_some_iff.mp h
  obtain ⟨r, -, hbs⟩ := Option.bind_eq_some_iff.mp hload
  rw [← RawBlock.length_of_load hbs]
  exact leNat_lt hn

theorem loadPtr_store (h : m.store p o (ptrBytes q) = some m') : m'.loadPtr p o = some q := by
  have hload := load_store_self h
  rw [length_ptrBytes] at hload
  rw [loadPtr, hload, Option.bind_some, ptrOf_ptrBytes]

theorem loadPtr_of_outside (h : m.raw? p = some r) (hout : r.size < o + 8) :
    m.loadPtr p o = none := by
  rw [loadPtr, load, h, Option.bind_some, RawBlock.load_of_outside hout (by decide)]
  rfl

theorem loadPtr_of_unwritten (h : m.raw? p = some r) (hout : r.get o = none) :
    m.loadPtr p o = none := by
  rw [loadPtr, load, h, Option.bind_some, RawBlock.load_of_unwritten (by decide) hout]
  rfl

theorem loadNat_of_unwritten (h : m.raw? p = some r) (hout : r.get o = none) (hk : 0 < k) :
    m.loadNat p o k = none := by
  rw [loadNat, load, h, Option.bind_some, RawBlock.load_of_unwritten hk hout]
  rfl

namespace Keeps

theorem refl (m : Memory β) (p o e : ℕ) : Keeps m m p o e :=
  ⟨le_rfl, fun _ _ _ => rfl, fun r hr => ⟨r, hr, rfl, fun _ _ => rfl⟩⟩

theorem trans (h : Keeps m m' p o e) (h' : Keeps m' m'' p o' e') (ho : o ≤ o') (he : e ≤ e') :
    Keeps m m'' p o e' where
  next_le := h.next_le.trans h'.next_le
  obj a ha hne := (h'.obj a (ha.trans_le h.next_le) hne).trans (h.obj a ha hne)
  block r hr := by
    obtain ⟨r', hr', hsize', hcontent'⟩ := h.block r hr
    obtain ⟨r'', hr'', hsize'', hcontent''⟩ := h'.block r' hr'
    refine ⟨r'', hr'', hsize''.trans hsize', fun a ha => ?_⟩
    rw [hcontent'' a (by omega), hcontent' a (by omega)]

/-- Nothing below the border was touched when only an object behind it was. -/
theorem of_newer (hold : Keeps m m' p o e) (h : Keeps m' m'' q o' e') (hp : p < m.next)
    (hq : m.next ≤ q) : Keeps m m'' p o e where
  next_le := hold.next_le.trans h.next_le
  obj a ha hne := by
    have hnext := hold.next_le
    rw [h.obj a (by omega) (by omega), hold.obj a ha hne]
  block r hr := by
    have hnext := hold.next_le
    obtain ⟨r', hr', hrest⟩ := hold.block r hr
    exact ⟨r', by rw [raw?_congr (h.obj p (by omega) (by omega)), hr'], hrest⟩

theorem alloc (hp : p < m.next) (x : MemObject β) (o e : ℕ) : Keeps m (m.alloc x) p o e where
  next_le := Nat.le_succ _
  obj _ ha _ := obj_alloc_of_lt ha
  block r hr := ⟨r, by rw [raw?_congr (obj_alloc_of_lt hp), hr], rfl, fun _ _ => rfl⟩

theorem set (hp : p < q) (hq : m.next ≤ q) (h : Keeps m m' p o e) (x : MemObject β) :
    Keeps m (m'.set q x) p o e where
  next_le := h.next_le
  obj a ha hne := by rw [obj_set_of_ne (by omega), h.obj a ha hne]
  block r hr := by
    obtain ⟨r', hr', hrest⟩ := h.block r hr
    exact ⟨r', by rw [raw?_congr (obj_set_of_ne hp.ne), hr'], hrest⟩

theorem store (h : m.store p o bs = some m') (he : o + bs.length ≤ e) : Keeps m m' p o e := by
  obtain ⟨r, r', hr, hstore, rfl⟩ := store_eq_some h
  obtain ⟨-, hsize, hcontent⟩ := RawBlock.store_eq_some hstore
  refine ⟨le_rfl, fun a _ hne => obj_set_of_ne hne, fun s hs => ?_⟩
  obtain rfl : r = s := by rw [hr] at hs; exact Option.some.inj hs
  refine ⟨r', raw?_set (ne_zero_of_raw? hr), hsize, fun a ha => ?_⟩
  rw [hcontent, if_neg (by omega)]

theorem raw? (h : Keeps m m' p o e) {a : ℕ} (ha : a < m.next) (hne : a ≠ p) :
    m'.raw? a = m.raw? a := raw?_congr (h.obj a ha hne)

theorem whole? (h : Keeps m m' p o e) {a : ℕ} (ha : a < m.next) (hne : a ≠ p) :
    m'.whole? a = m.whole? a := whole?_congr (h.obj a ha hne)

/-- What stands outside of the changed bytes is read as before. -/
theorem load (h : Keeps m m' p o e) (hr : m.raw? p = some r) (hq : q + k ≤ o ∨ e ≤ q) :
    m'.load p q k = m.load p q k := by
  obtain ⟨r', hr', hsize, hcontent⟩ := h.block r hr
  rw [Memory.load, Memory.load, hr, hr', Option.bind_some, Option.bind_some]
  refine RawBlock.load_congr fun a _ ha => ?_
  rw [RawBlock.get, RawBlock.get, hsize, hcontent a (by omega)]

theorem loadNat (h : Keeps m m' p o e) (hr : m.raw? p = some r) (hq : q + k ≤ o ∨ e ≤ q) :
    m'.loadNat p q k = m.loadNat p q k := by
  rw [Memory.loadNat, Memory.loadNat, h.load hr hq]

theorem loadPtr (h : Keeps m m' p o e) (hr : m.raw? p = some r) (hq : q + 8 ≤ o ∨ e ≤ q) :
    m'.loadPtr p q = m.loadPtr p q := by
  rw [Memory.loadPtr, Memory.loadPtr, h.load hr hq]

end Keeps

namespace Blank

theorem of_keeps (h : m.Blank p o w) (hkeeps : Keeps m m' p o' e) (he : e ≤ o) :
    m'.Blank p o w := by
  obtain ⟨r, hr, hin, hzero⟩ := h
  obtain ⟨r', hr', hsize, hcontent⟩ := hkeeps.block r hr
  refine ⟨r', hr', by omega, fun a ha hlt => ?_⟩
  rw [hcontent a (by omega), hzero a ha hlt]

theorem skip (h : m.Blank p o (k + w)) : m.Blank p (o + k) w := by
  obtain ⟨r, hr, hin, hzero⟩ := h
  exact ⟨r, hr, by omega, fun a ha hlt => hzero a (by omega) (by omega)⟩

theorem exists_store (bs : List MemByte) (h : m.Blank p o (k + w)) (hbs : bs.length ≤ k) :
    ∃ m', m.store p o bs = some m' := by
  obtain ⟨r, hr, hin, -⟩ := h
  exact Memory.exists_store o bs hr (by omega)

theorem loadPtr (h : m.Blank p o w) (hq : o ≤ q) (hw : q + 8 ≤ o + w) :
    m.loadPtr p q = some 0 := by
  obtain ⟨r, hr, hin, hzero⟩ := h
  have hload : r.load q (ptrBytes 0).length = some (ptrBytes 0) := by
    refine RawBlock.load_of_get fun i hi => ?_
    rw [length_ptrBytes] at hi
    rw [RawBlock.get, if_pos (by omega), hzero _ (by omega) (by omega), ptrBytes, if_pos rfl,
      List.getElem?_replicate, if_pos hi]
  rw [length_ptrBytes] at hload
  rw [Memory.loadPtr, Memory.load, hr, Option.bind_some, hload, Option.bind_some, ptrOf_ptrBytes]

end Blank

end Memory

end LdacsSdk.Library
