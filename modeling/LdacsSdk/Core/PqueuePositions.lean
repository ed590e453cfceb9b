import LdacsSdk.Core.PqueueLock

/-!
# The positions in the priority queue

Every element keeps the slot it stands in, and the sifts write it anew for each element they move.
Printing empties a copy of the array through the same callbacks, and a removal sifts from the slot
that the removed element stood in, which is behind the queue if it was the last one.
-/
namespace LdacsSdk

open Library

variable {σ : Type*} {cb : PqueueCallbacks σ} {q q' : Pqueue σ} {C : Set ℕ} {i p m : ℕ}

/-- The callbacks keep a position for each element, apart from the priorities. -/
structure PqueueCallbacks.Lawful (cb : PqueueCallbacks σ) : Prop where
  getpos_setpos : ∀ elems a b pos,
    cb.getpos (cb.setpos elems a pos) b = if b = a then pos else cb.getpos elems b
  getpos_setpri : ∀ elems a b pri, cb.getpos (cb.setpri elems a pri) b = cb.getpos elems b

/-- The slots of the queue. -/
def Pqueue.slots (q : Pqueue σ) : Set ℕ := Set.Ico 1 q.size

/-- The queue holds the elements of `C`, and each knows its slot. -/
structure Pqueue.Stored (cb : PqueueCallbacks σ) (q : Pqueue σ) (C : Set ℕ) : Prop where
  pos : ∀ i ∈ q.slots, cb.getpos q.elems (q.d i) = i
  image : q.d '' q.slots = C

/-- With `m` in slot `i` the queue holds the elements of `C`, and each of the others knows its
slot. -/
structure Pqueue.HoleAt (cb : PqueueCallbacks σ) (q : Pqueue σ) (C : Set ℕ) (m i : ℕ) : Prop where
  mem : i ∈ q.slots
  inj : Set.InjOn (Function.update q.d i m) q.slots
  image : Function.update q.d i m '' q.slots = C
  pos : ∀ k ∈ q.slots, k ≠ i → cb.getpos q.elems (q.d k) = k

namespace Pqueue

theorem Stored.inj (h : q.Stored cb C) : Set.InjOn q.d q.slots := by
  intro j hj k hk he
  rw [← h.pos j hj, ← h.pos k hk, he]

/-- Any slot of a queue may be taken for the one to fill. -/
theorem Stored.holeAt (h : q.Stored cb C) (hi : i ∈ q.slots) : q.HoleAt cb C (q.d i) i where
  mem := hi
  inj := by
    rw [Function.update_eq_self]
    exact h.inj
  image := by
    rw [Function.update_eq_self]
    exact h.image
  pos := fun k hk _ => h.pos k hk

theorem image_comp_swap {f : ℕ → ℕ} {s : Set ℕ} (hi : i ∈ s) (hp : p ∈ s) :
    (f ∘ Equiv.swap i p) '' s = f '' s := by
  rw [Set.image_comp]
  congr 1
  ext k
  constructor
  · rintro ⟨l, hl, rfl⟩
    rw [Equiv.swap_apply_def]
    split_ifs <;> assumption
  · intro hk
    refine ⟨Equiv.swap i p k, ?_, Equiv.swap_apply_self i p k⟩
    rw [Equiv.swap_apply_def]
    split_ifs <;> assumption

theorem injOn_comp_swap {f : ℕ → ℕ} {s : Set ℕ} (h : Set.InjOn f s) (hi : i ∈ s) (hp : p ∈ s) :
    Set.InjOn (f ∘ Equiv.swap i p) s := by
  apply h.comp (Equiv.swap i p).injective.injOn
  intro k hk
  rw [Equiv.swap_apply_def]
  split_ifs <;> assumption

/-- What the elements say after a store. -/
theorem getpos_setSlot (hcb : cb.Lawful) (q : Pqueue σ) (i e k : ℕ) :
    cb.getpos (q.setSlot cb i e).elems ((q.setSlot cb i e).d k) =
      if k = i ∨ q.d k = e then i else cb.getpos q.elems (q.d k) := by
  simp only [setSlot, hcb.getpos_setpos, Function.update_apply]
  by_cases hki : k = i <;> simp [hki]

/-- The element of another slot moves into the one to fill, and leaves its own to fill. -/
theorem HoleAt.move (hcb : cb.Lawful) (h : q.HoleAt cb C m i) (hp : p ∈ q.slots) (hne : p ≠ i) :
    (q.setSlot cb i (q.d p)).HoleAt cb C m p := by
  have hcomp : Function.update (Function.update q.d i (q.d p)) p m =
      Function.update q.d i m ∘ Equiv.swap i p := by
    funext k
    simp only [Function.comp_apply, Equiv.swap_apply_def, Function.update_apply]
    split_ifs <;> simp_all
  constructor
  · exact hp
  · exact hcomp ▸ injOn_comp_swap h.inj h.mem hp
  · exact hcomp ▸ (image_comp_swap h.mem hp).trans h.image
  · intro k hk hkp
    rw [getpos_setSlot hcb]
    by_cases hki : k = i
    · rw [if_pos (.inl hki), hki]
    · have hother : q.d k ≠ q.d p := by
        intro he
        apply hkp
        apply h.inj hk hp
        rwa [Function.update_of_ne hki, Function.update_of_ne hne]
      rw [if_neg (not_or.mpr ⟨hki, hother⟩)]
      exact h.pos k hk hki

theorem HoleAt.fill (hcb : cb.Lawful) (h : q.HoleAt cb C m i) :
    (q.setSlot cb i m).Stored cb C := by
  constructor
  · intro k hk
    rw [getpos_setSlot hcb]
    by_cases hki : k = i
    · rw [if_pos (.inl hki), hki]
    · have hother : q.d k ≠ m := by
        intro he
        apply hki
        apply h.inj hk h.mem
        rwa [Function.update_of_ne hki, Function.update_self]
      rw [if_neg (not_or.mpr ⟨hki, hother⟩)]
      exact h.pos k hk hki
  · exact h.image

/-- A store behind the queue, for an element that is not in it. -/
theorem Stored.setSlot_outside (hcb : cb.Lawful) (h : q.Stored cb C) (hi : i ∉ q.slots)
    (hm : m ∉ C) : (q.setSlot cb i m).Stored cb C := by
  have hne : ∀ k ∈ q.slots, k ≠ i := by
    rintro k hk rfl
    exact hi hk
  constructor
  · intro k hk
    have hother : q.d k ≠ m := by
      rintro rfl
      exact hm (h.image ▸ Set.mem_image_of_mem q.d hk)
    rw [getpos_setSlot hcb, if_neg (not_or.mpr ⟨hne k hk, hother⟩)]
    exact h.pos k hk
  · have hsame : ∀ k ∈ q.slots, Function.update q.d i m k = q.d k :=
      fun k hk => Function.update_of_ne (hne k hk) _ _
    exact (Set.image_congr hsame).trans h.image

/-! ### The sifts -/

/-- A loop that moves elements into the slot to fill, from slots of the queue. -/
theorem HoleAt.loop (hcb : cb.Lawful) {body : Pqueue σ × ℕ → Option (Round (Pqueue σ × ℕ))}
    (hleave : ∀ s t, body s = some (.leave t) → t = s)
    (hagain : ∀ s t, s.2 ∈ s.1.slots → body s = some (.again t) →
      t.2 ∈ s.1.slots ∧ t.2 ≠ s.2 ∧ t.1 = s.1.setSlot cb s.2 (s.1.d t.2))
    {fuel : ℕ} {t : Pqueue σ × ℕ} (h : q.HoleAt cb C m i)
    (hloop : whileLoop body fuel (q, i) = some t) : (t.1.setSlot cb t.2 m).Stored cb C := by
  apply whileLoop_invariant (I := fun s => s.1.HoleAt cb C m s.2)
    (Q := fun t => (t.1.setSlot cb t.2 m).Stored cb C) _ _ h hloop
  · rintro s t hs hbody
    obtain ⟨hmem, hne, hset⟩ := hagain s t hs.mem hbody
    rw [hset]
    exact hs.move hcb hmem hne
  · rintro s t hs hbody
    rw [hleave s t hbody]
    exact hs.fill hcb

theorem HoleAt.bubbleUp (hcb : cb.Lawful) (h : q.HoleAt cb C (q.d i) i)
    (hup : pqBubbleUp cb q i = some q') : q'.Stored cb C := by
  obtain ⟨t, hloop, rfl⟩ := Option.map_eq_some_iff.mp hup
  apply h.loop hcb _ _ hloop
  · rintro ⟨u, j⟩ t ht
    unfold pqBubbleUpRound at ht
    dsimp only at ht
    split_ifs at ht
    · simp at ht
    · cases ht
      rfl
  · rintro ⟨u, j⟩ t hj ht
    unfold pqBubbleUpRound at ht
    dsimp only at ht
    split_ifs at ht with hgo
    · cases ht
      have hj1 : 1 ≤ j ∧ j < u.size := hj
      have hmem : 1 ≤ j / 2 ∧ j / 2 < u.size := by omega
      have hne : j / 2 ≠ j := by omega
      exact ⟨hmem, hne, rfl⟩
    · simp at ht

theorem HoleAt.percolateDown (hcb : cb.Lawful) (h : q.HoleAt cb C (q.d i) i)
    (hdown : LdacsSdk.percolateDown cb q i = some q') : q'.Stored cb C := by
  obtain ⟨t, hloop, rfl⟩ := Option.map_eq_some_iff.mp hdown
  apply h.loop hcb _ _ hloop
  · rintro ⟨u, j⟩ t ht
    unfold percolateDownRound at ht
    dsimp only at ht
    split_ifs at ht
    · simp at ht
    · cases ht
      rfl
  · rintro ⟨u, j⟩ t hj ht
    have hchild := pqMaxchild_cases cb u j
    unfold percolateDownRound at ht
    dsimp only at ht
    split_ifs at ht with hgo
    · cases ht
      obtain ⟨hgt, hlt⟩ := hchild.resolve_left hgo.1
      have hj1 : 1 ≤ j ∧ j < u.size := hj
      exact ⟨⟨hj1.1.trans hgt.le, hlt⟩, hgt.ne', rfl⟩
    · simp at ht

/-- A sift in either direction, from a slot of the queue. -/
theorem HoleAt.sift (hcb : cb.Lawful) {up : Bool} (h : q.HoleAt cb C (q.d i) i)
    (hsift : (if up then pqBubbleUp cb q i else LdacsSdk.percolateDown cb q i) = some q') :
    q'.Stored cb C := by
  cases up with
  | true => exact h.bubbleUp hcb hsift
  | false => exact h.percolateDown hcb hsift

/-! ### Elements that come and go -/

theorem Stored.congr {q₁ : Pqueue σ} (h : q.Stored cb C) (hsize : q₁.size = q.size)
    (hd : q₁.d = q.d) (hpos : ∀ a, cb.getpos q₁.elems a = cb.getpos q.elems a) :
    q₁.Stored cb C := by
  have hslots : q₁.slots = q.slots := by rw [slots, slots, hsize]
  constructor
  · intro i hi
    rw [hpos, hd]
    exact h.pos i (hslots ▸ hi)
  · rw [hslots, hd]
    exact h.image

/-- A new element in the slot behind the last one. -/
theorem Stored.push (h : q.Stored cb C) (hsize : 1 ≤ q.size) {a : ℕ} (ha : a ∉ C) :
    { q with size := q.size + 1, d := Function.update q.d q.size a }.HoleAt cb (insert a C) a
      q.size := by
  have hslots : Set.Ico 1 (q.size + 1) = insert q.size q.slots := by
    ext k
    simp only [slots, Set.mem_Ico, Set.mem_insert_iff]
    omega
  have hne : ∀ k ∈ q.slots, k ≠ q.size := fun k hk => (Set.mem_Ico.mp hk).2.ne
  have hsame : Set.EqOn (Function.update q.d q.size a) q.d q.slots :=
    fun k hk => Function.update_of_ne (hne k hk) _ _
  have himage : Function.update q.d q.size a '' q.slots = C :=
    (Set.image_congr hsame).trans h.image
  constructor
  · exact ⟨hsize, Nat.lt_succ_self _⟩
  · show Set.InjOn (Function.update (Function.update q.d q.size a) q.size a)
      (Set.Ico 1 (q.size + 1))
    rw [Function.update_idem, hslots, Set.injOn_insert fun hk => hne _ hk rfl, himage,
      Function.update_self]
    exact ⟨h.inj.congr hsame.symm, ha⟩
  · show Function.update (Function.update q.d q.size a) q.size a '' Set.Ico 1 (q.size + 1) = _
    rw [Function.update_idem, hslots, Set.image_insert_eq, himage, Function.update_self]
  · intro k hk hki
    have hk' : k ∈ q.slots := by
      have hk1 : 1 ≤ k ∧ k < q.size + 1 := hk
      exact ⟨hk1.1, by omega⟩
    simp only [Function.update_of_ne hki]
    exact h.pos k hk'

/-- The last value in place of the one at `i`. -/
theorem image_fill {f : ℕ → ℕ} {n : ℕ} (hinj : Set.InjOn f (Set.Ico 1 (n + 1)))
    (hi : i ∈ Set.Ico 1 (n + 1)) :
    Set.InjOn (Function.update f i (f n)) (Set.Ico 1 n) ∧
      Function.update f i (f n) '' Set.Ico 1 n = f '' Set.Ico 1 (n + 1) \ {f i} := by
  have hlast : n ∈ Set.Ico 1 (n + 1) := ⟨by have := Set.mem_Ico.mp hi; omega, Nat.lt_succ_self n⟩
  have hold {k : ℕ} (hk : k ∈ Set.Ico 1 n) : k ∈ Set.Ico 1 (n + 1) := ⟨hk.1, hk.2.trans hlast.2⟩
  constructor
  · intro k hk l hl he
    simp only [Function.update_apply] at he
    split_ifs at he with hki hli hli
    · rw [hki, hli]
    · exact absurd (hinj hlast (hold hl) he) hl.2.ne'
    · exact absurd (hinj (hold hk) hlast he) hk.2.ne
    · exact hinj (hold hk) (hold hl) he
  · ext a
    constructor
    · rintro ⟨k, hk, rfl⟩
      rw [Function.update_apply]
      split_ifs with hki
      · refine ⟨Set.mem_image_of_mem f hlast, fun he => ?_⟩
        have hni := hinj hlast hi he
        have hkn := hk.2
        omega
      · exact ⟨Set.mem_image_of_mem f (hold hk), fun he => hki (hinj (hold hk) hi he)⟩
    · rintro ⟨⟨k, hk, rfl⟩, hne⟩
      have hki : k ≠ i := by
        rintro rfl
        exact hne rfl
      by_cases hkn : k = n
      · subst hkn
        have hi' := Set.mem_Ico.mp hi
        exact ⟨i, ⟨hi'.1, by omega⟩, Function.update_self ..⟩
      · have hk' := Set.mem_Ico.mp hk
        exact ⟨k, ⟨hk'.1, by omega⟩, Function.update_of_ne hki ..⟩

/-- The last element in place of the one in slot `i`. -/
def takeOut (q : Pqueue σ) (i : ℕ) : Pqueue σ :=
  { q.shrink with d := Function.update q.d i (q.d q.shrink.size) }

theorem size_takeOut (hi : i ∈ q.slots) (hsize : q.size < 2 ^ 64) :
    (q.takeOut i).size + 1 = q.size := by
  have hi' := Set.mem_Ico.mp hi
  simp only [takeOut, shrink, u64]
  omega

theorem Stored.takeOut_image (h : q.Stored cb C) (hi : i ∈ q.slots) (hsize : q.size < 2 ^ 64) :
    Set.InjOn (q.takeOut i).d (q.takeOut i).slots ∧
      (q.takeOut i).d '' (q.takeOut i).slots = C \ {q.d i} := by
  have hn := size_takeOut hi hsize
  have hslots : q.slots = Set.Ico 1 ((q.takeOut i).size + 1) := by rw [hn, slots]
  rw [← h.image, hslots]
  exact image_fill (hslots ▸ h.inj) (hslots ▸ hi)

theorem Stored.takeOut_pos (h : q.Stored cb C) (hi : i ∈ q.slots) (hsize : q.size < 2 ^ 64)
    {k : ℕ} (hk : k ∈ (q.takeOut i).slots) (hki : k ≠ i) :
    cb.getpos (q.takeOut i).elems ((q.takeOut i).d k) = k := by
  have hn := size_takeOut hi hsize
  have hk' : 1 ≤ k ∧ k < (q.takeOut i).size := hk
  have hd : (q.takeOut i).d k = q.d k := Function.update_of_ne hki ..
  rw [hd]
  exact h.pos k ⟨hk'.1, by omega⟩

/-- An element that is not the last one is taken out. -/
theorem Stored.takeOut_inside (h : q.Stored cb C) (hi : i ∈ q.slots) (hsize : q.size < 2 ^ 64)
    (hin : i < (q.takeOut i).size) :
    (q.takeOut i).HoleAt cb (C \ {q.d i}) ((q.takeOut i).d i) i := by
  obtain ⟨hinj, himage⟩ := h.takeOut_image hi hsize
  refine ⟨⟨(Set.mem_Ico.mp hi).1, hin⟩, ?_, ?_, fun k hk hki => h.takeOut_pos hi hsize hk hki⟩
  · rwa [Function.update_eq_self]
  · rwa [Function.update_eq_self]

theorem d_takeOut_last (hlast : i = (q.takeOut i).size) : (q.takeOut i).d i = q.d i := by
  have hshrink : q.shrink.size = i := hlast.symm
  simp [takeOut, hshrink]

/-- The last element is taken out. -/
theorem Stored.takeOut_last (h : q.Stored cb C) (hi : i ∈ q.slots) (hsize : q.size < 2 ^ 64)
    (hlast : i = (q.takeOut i).size) :
    (q.takeOut i).Stored cb (C \ {q.d i}) := by
  refine ⟨?_, (h.takeOut_image hi hsize).2⟩
  intro k hk
  have hlt := (Set.mem_Ico.mp hk).2
  exact h.takeOut_pos hi hsize hk (by omega)

theorem percolateDown_outside (h : q.size ≤ 2 * i) :
    LdacsSdk.percolateDown cb q i = some (q.setSlot cb i (q.d i)) := by
  simp [LdacsSdk.percolateDown, whileLoop, percolateDownRound, pqMaxchild, h]

theorem bubbleUp_stays (h : ¬ (i > 1 ∧ cb.cmppri (q.pri cb (i / 2)) (q.pri cb i) = true)) :
    pqBubbleUp cb q i = some (q.setSlot cb i (q.d i)) := by
  simp [pqBubbleUp, whileLoop, pqBubbleUpRound, h]

end Pqueue

/-! ### The calls -/

/-- The queue with the elements that have come in and have not been taken out. -/
structure PqHistory (σ : Type*) where
  q : Pqueue σ
  content : Finset ℕ

/-- The elements after a call that has returned. -/
def contentAfter (content : Finset ℕ) (op : PqOp σ) (ret : ℤ) (e : Option ℕ) : Finset ℕ :=
  match op with
  | .insert _ d => if ret = 0 then insert d content else content
  | .pop => match e with
    | none => content
    | some e => content.erase e
  | .remove d => content.erase d
  | _ => content

/-- A call that returns. -/
def PqHistory.step (cb : PqueueCallbacks σ) (s : PqHistory σ) (op : PqOp σ) :
    Option (PqHistory σ) :=
  (s.q.call cb op).bind fun
    | .returns ret e q => some { q := q, content := contentAfter s.content op ret e }
    | _ => none

/-- Elements come in that are not in the queue, which has a slot for each of them, and those that
are in the queue are changed and removed. -/
def PqHistory.Allowed (s : PqHistory σ) : PqOp σ → Prop
  | .insert _ d => d ∉ s.content ∧ s.q.size + 1 < 2 ^ 64
  | .pop => True
  | .changePriority _ d => d ∈ s.content
  | .remove d => d ∈ s.content
  | .print _ => True
  | _ => False

/-- A removal does not sift the last element up from behind the queue, and no more than one element
is printed. -/
def Pqueue.Harmless (cb : PqueueCallbacks σ) (q : Pqueue σ) : PqOp σ → Prop
  | .remove d =>
    let posn := cb.getpos q.elems d
    ¬ (posn + 1 = q.size ∧ posn > 1 ∧
      cb.cmppri (cb.getpri q.elems d) (cb.getpri q.elems d) = true ∧
      cb.cmppri (q.pri cb (posn / 2)) (cb.getpri q.elems d) = true)
  | .print _ => q.size ≤ 2
  | _ => True

/-- The queue holds what has come in and not been taken out, each element in the slot it knows. -/
structure PqHistory.Sound (cb : PqueueCallbacks σ) (s : PqHistory σ) : Prop where
  stored : s.q.Stored cb s.content
  pos : 1 ≤ s.q.size
  sizeLt : s.q.size < 2 ^ 64

namespace PqHistory

variable {s t : PqHistory σ} {op : PqOp σ}

theorem exists_of_step (h : s.step cb op = some t) :
    ∃ ret e, s.q.call cb op = some (.returns ret e t.q) ∧
      t.content = contentAfter s.content op ret e := by
  unfold step at h
  obtain ⟨out, hout, hnext⟩ := Option.bind_eq_some_iff.mp h
  cases out with
  | returns ret e q =>
    cases hnext
    exact ⟨ret, e, hout, rfl⟩
  | waits q => cases hnext
  | blocks => cases hnext
  | crashes => cases hnext

end PqHistory

theorem Pqueue.withLock_eq_some {body : Pqueue σ → Option (PqOutcome σ)} {ret : ℤ} {e : Option ℕ}
    (h : q.withLock body = some (.returns ret e q')) :
    body { q with locked := true } = some (.returns ret e q') := by
  unfold Pqueue.withLock at h
  split_ifs at h
  · cases h
  · exact h

namespace Pqueue

variable {ret : ℤ} {e : Option ℕ} {a : ℕ}

theorem Stored.locked (h : q.Stored cb C) (b : Bool) : { q with locked := b }.Stored cb C :=
  h.congr rfl rfl fun _ => rfl

/-- A sift in front of the end of a call. -/
theorem exists_of_sift {sift : Option (Pqueue σ)}
    (h : (sift.map fun q => PqOutcome.returns 0 none q.unlock) = some (.returns ret e q')) :
    ret = 0 ∧ e = none ∧ ∃ u, sift = some u ∧ q' = u.unlock := by
  obtain ⟨u, hu, hout⟩ := Option.map_eq_some_iff.mp h
  cases hout
  exact ⟨rfl, rfl, u, hu, rfl⟩

theorem Stored.insert (hcb : cb.Lawful) (h : q.Stored cb C) (hpos : 1 ≤ q.size)
    (hsize : q.size + 1 < 2 ^ 64) (ha : a ∉ C) {grown : Bool}
    (hcall : pqueueInsert cb grown q a = some (.returns ret e q')) :
    ret = 0 ∧ q'.Stored cb (Insert.insert a C) ∧ q'.size = q.size + 1 ∨
      ret = 1 ∧ q'.Stored cb C ∧ q'.size = q.size := by
  have hbody := withLock_eq_some hcall
  dsimp only at hbody
  split_ifs at hbody with hfull hgrow
  · cases hbody
    exact .inr ⟨rfl, h.locked true, rfl⟩
  all_goals
    obtain ⟨hret, -, u, hup, rfl⟩ := exists_of_sift hbody
    have hu64 : u64 ((q.size : ℤ) + 1) = q.size + 1 := by
      exact_mod_cast u64_natCast hsize
    rw [hu64] at hup
    have hhole : ∀ avail, { q with
        avail := avail
        size := q.size + 1
        d := Function.update q.d q.size a
        locked := true }.HoleAt cb (Insert.insert a C)
          ((Function.update q.d q.size a) q.size) q.size := by
      intro avail
      rw [Function.update_self]
      obtain ⟨hmem, hinj, himage, hrest⟩ := h.push hpos ha
      exact ⟨hmem, hinj, himage, hrest⟩
    obtain ⟨u', hu', hsift⟩ := pqBubbleUp_sifted cb _ _
    rw [hup] at hu'
    cases hu'
    exact .inl ⟨hret, ((hhole _).bubbleUp hcb hup).locked false, hsift.sizeEq⟩

theorem Stored.changePriority (hcb : cb.Lawful) (h : q.Stored cb C) (ha : a ∈ C) {newPri : ℕ}
    (hcall : pqueueChangePriority cb q newPri a = some (.returns ret e q')) :
    q'.Stored cb C ∧ q'.size = q.size := by
  unfold pqueueChangePriority at hcall
  obtain ⟨-, -, u, hsift, rfl⟩ := exists_of_sift (withLock_eq_some hcall)
  have hset : { q with locked := true, elems := cb.setpri q.elems a newPri }.Stored cb C :=
    h.congr rfl rfl fun b => hcb.getpos_setpri q.elems a b newPri
  obtain ⟨i, hi, rfl⟩ := h.image.symm ▸ ha
  have hposn : cb.getpos (cb.setpri q.elems (q.d i) newPri) (q.d i) = i := by
    rw [hcb.getpos_setpri]
    exact h.pos i hi
  simp only [hposn] at hsift
  obtain ⟨u', hu', hsifted⟩ := sift_sifted cb _ _ _
  rw [hsift] at hu'
  cases hu'
  exact ⟨((hset.holeAt hi).sift hcb hsift).locked false, hsifted.sizeEq⟩

/-- The sift of `pqueue_remove`. -/
def removeSift (cb : PqueueCallbacks σ) (q : Pqueue σ) (i : ℕ) : Option (Pqueue σ) :=
  if cb.cmppri (q.pri cb i) ((q.takeOut i).pri cb i) then pqBubbleUp cb (q.takeOut i) i
  else LdacsSdk.percolateDown cb (q.takeOut i) i

theorem exists_of_remove (h : q.Stored cb C) (hi : i ∈ q.slots)
    (hcall : pqueueRemove cb q (q.d i) = some (.returns ret e q')) :
    ∃ u, removeSift cb { q with locked := true } i = some u ∧ q' = u.unlock := by
  unfold pqueueRemove at hcall
  obtain ⟨-, -, u, hsift, rfl⟩ := exists_of_sift (withLock_eq_some hcall)
  have hposn := h.pos i hi
  simp only [hposn] at hsift
  exact ⟨u, hsift, rfl⟩

/-- The last element is sifted up from behind the queue. -/
def Revives (cb : PqueueCallbacks σ) (q : Pqueue σ) (i : ℕ) : Prop :=
  i + 1 = q.size ∧ i > 1 ∧ cb.cmppri (q.pri cb i) (q.pri cb i) = true ∧
    cb.cmppri (q.pri cb (i / 2)) (q.pri cb i) = true

theorem Stored.harmless_iff (h : q.Stored cb C) (hi : i ∈ q.slots) :
    q.Harmless cb (.remove (q.d i)) ↔ ¬ q.Revives cb i := by
  simp only [Harmless, h.pos i hi]
  rfl

theorem pri_takeOut (h : (q.takeOut i).d p = q.d m) : (q.takeOut i).pri cb p = q.pri cb m :=
  congrArg (cb.getpri q.elems) h

theorem Stored.removeSift (hcb : cb.Lawful) (h : q.Stored cb C) (hsize : q.size < 2 ^ 64)
    (hi : i ∈ q.slots) (hstays : ¬ q.Revives cb i) (hsift : q.removeSift cb i = some q') :
    q'.Stored cb (C \ {q.d i}) := by
  have hn := size_takeOut hi hsize
  by_cases hin : i < (q.takeOut i).size
  · exact (h.takeOut_inside hi hsize hin).sift hcb hsift
  · have hlt : 1 ≤ i ∧ i < q.size := hi
    have hlast : i = (q.takeOut i).size := by omega
    have hd := d_takeOut_last hlast
    -- the sift stays in the slot behind the queue
    have hset : q' = (q.takeOut i).setSlot cb i (q.d i) := by
      rw [Pqueue.removeSift, pri_takeOut hd] at hsift
      rw [← hd]
      split_ifs at hsift with hup
      · have hstop : ¬ (i > 1 ∧
            cb.cmppri ((q.takeOut i).pri cb (i / 2)) ((q.takeOut i).pri cb i) = true) := by
          rintro ⟨h1, hparent⟩
          rw [pri_takeOut hd, pri_takeOut (Function.update_of_ne (by omega) ..)] at hparent
          exact hstays ⟨by omega, h1, hup, hparent⟩
        rw [bubbleUp_stays hstop] at hsift
        exact (Option.some.inj hsift).symm
      · rw [percolateDown_outside (by omega)] at hsift
        exact (Option.some.inj hsift).symm
    rw [hset]
    exact (h.takeOut_last hi hsize hlast).setSlot_outside hcb (fun hmem => hin hmem.2)
      fun hmem => hmem.2 rfl

theorem size_removeSift (hi : i ∈ q.slots) (hsize : q.size < 2 ^ 64)
    (hsift : q.removeSift cb i = some q') : q'.size + 1 = q.size := by
  obtain ⟨u, hu, hsifted⟩ :=
    sift_sifted cb (cb.cmppri (q.pri cb i) ((q.takeOut i).pri cb i)) (q.takeOut i) i
  obtain rfl : u = q' := Option.some.inj (hu.symm.trans hsift)
  rw [hsifted.sizeEq]
  exact size_takeOut hi hsize

/-- A sift up that begins in the queue ends in it. -/
theorem slot_of_bubbleUpLoop {movingPri fuel : ℕ} {s t : Pqueue σ × ℕ} (hs : s.2 ∈ s.1.slots)
    (hloop : whileLoop (pqBubbleUpRound cb movingPri) fuel s = some t) : t.2 ∈ t.1.slots := by
  apply whileLoop_invariant (I := fun s : Pqueue σ × ℕ => s.2 ∈ s.1.slots)
    (Q := fun t : Pqueue σ × ℕ => t.2 ∈ t.1.slots) _ _ hs hloop
  · rintro ⟨u, j⟩ s hj hbody
    unfold pqBubbleUpRound at hbody
    dsimp only at hbody
    split_ifs at hbody with hgo
    · cases hbody
      have hj1 : 1 ≤ j ∧ j < u.size := hj
      have hmem : 1 ≤ j / 2 ∧ j / 2 < u.size := by omega
      exact hmem
    · simp at hbody
  · rintro ⟨u, j⟩ s hj hbody
    unfold pqBubbleUpRound at hbody
    dsimp only at hbody
    split_ifs at hbody with hgo
    · simp at hbody
    · cases hbody
      exact hj

/-- An element that is sifted up from behind the queue is in it again. -/
theorem Revives.remains (h : q.Revives cb i) (hi : i ∈ q.slots) (hsize : q.size < 2 ^ 64)
    (hsift : q.removeSift cb i = some q') : q.d i ∈ q'.d '' q'.slots := by
  obtain ⟨hlast, h1, hup, hparent⟩ := h
  have hn := size_takeOut hi hsize
  have hd : (q.takeOut i).d i = q.d i := d_takeOut_last (by omega)
  have hd₂ : (q.takeOut i).pri cb (i / 2) = q.pri cb (i / 2) :=
    pri_takeOut (Function.update_of_ne (by omega) ..)
  rw [Pqueue.removeSift, pri_takeOut hd, if_pos hup] at hsift
  obtain ⟨t, hloop, rfl⟩ := Option.map_eq_some_iff.mp hsift
  have hfirst : pqBubbleUpRound cb ((q.takeOut i).pri cb i) (q.takeOut i, i) =
      some (.again ((q.takeOut i).setSlot cb i ((q.takeOut i).d (i / 2)), i / 2)) := by
    simp only [pqBubbleUpRound, hd₂, pri_takeOut hd]
    rw [if_pos ⟨h1, hparent⟩]
  obtain ⟨fuel, hrest⟩ := whileLoop_of_again hfirst hloop
  have hin : t.2 ∈ t.1.slots := by
    apply slot_of_bubbleUpLoop _ hrest
    have hmem : 1 ≤ i / 2 ∧ i / 2 < (q.takeOut i).size := by omega
    exact hmem
  exact ⟨t.2, hin, (Function.update_self ..).trans hd⟩

/-- A pop takes the first element out, if there is one. -/
theorem Stored.pop (hcb : cb.Lawful) (h : q.Stored cb C) (hpos : 1 ≤ q.size)
    (hsize : q.size < 2 ^ 64) (hcall : pqueuePop cb q = some (.returns ret e q')) :
    q.size = 1 ∧ e = none ∧ q'.Stored cb C ∧ q'.size = q.size ∧ q'.elems = q.elems ∨
      q.size ≠ 1 ∧ e = some (q.d 1) ∧ q.d 1 ∈ C ∧ q'.Stored cb (C \ {q.d 1}) ∧
        q'.size + 1 = q.size ∧ (q.size = 2 → q'.elems = cb.setpos q.elems (q.d 1) 1) := by
  have hbody := withLock_eq_some hcall
  have hl := h.locked true
  dsimp only at hbody
  split_ifs at hbody with hone
  · cases hbody
    exact .inl ⟨hone, rfl, hl, rfl, rfl⟩
  · obtain ⟨u, hdown, hout⟩ := Option.map_eq_some_iff.mp hbody
    cases hout
    have hi : 1 ∈ ({ q with locked := true } : Pqueue σ).slots := by
      have hmem : 1 ≤ 1 ∧ 1 < q.size := ⟨le_rfl, by omega⟩
      exact hmem
    have hn := size_takeOut hi hsize
    have hdown' : LdacsSdk.percolateDown cb ({ q with locked := true }.takeOut 1) 1 = some u :=
      hdown
    obtain ⟨u', hu', hsifted⟩ := percolateDown_sifted cb ({ q with locked := true }.takeOut 1) 1
    obtain rfl : u' = u := Option.some.inj (hu'.symm.trans hdown')
    have hn' : ({ q with locked := true }.takeOut 1).size + 1 = q.size := hn
    refine .inr ⟨hone, rfl, h.image ▸ Set.mem_image_of_mem q.d hi, ?_, ?_, fun htwo => ?_⟩
    · by_cases hin : 1 < ({ q with locked := true }.takeOut 1).size
      · exact ((hl.takeOut_inside hi hsize hin).percolateDown hcb hdown').locked false
      · have hlast : 1 = ({ q with locked := true }.takeOut 1).size := by omega
        rw [percolateDown_outside (by omega), d_takeOut_last hlast] at hdown'
        obtain rfl := Option.some.inj hdown'
        exact ((hl.takeOut_last hi hsize hlast).setSlot_outside hcb (fun hmem => hin hmem.2)
          fun hmem => hmem.2 rfl).locked false
    · rw [← hn]
      exact congrArg (· + 1) hsifted.sizeEq
    · have hlast : 1 = ({ q with locked := true }.takeOut 1).size := by omega
      rw [percolateDown_outside (by omega), d_takeOut_last hlast] at hdown'
      obtain rfl := Option.some.inj hdown'
      rfl

/-- Printing a queue without its mutex: the element popped last is told that it stands first. -/
theorem Stored.printLoop (hcb : cb.Lawful) (h : q.Stored cb C) (hfree : q.locked = false)
    (n : ℕ) (hsize : q.size = n + 1) (hlt : q.size < 2 ^ 64)
    (hloop : LdacsSdk.printLoop cb (n + 1) q = some (.returns ret e q')) :
    (n = 0 → q'.elems = q.elems) ∧
      (n = 1 → q'.elems = cb.setpos q.elems (q.d 1) 1) ∧
      (1 ≤ n → ∃ a ∈ C, cb.getpos q'.elems a = 1 ∧ (2 ≤ n → a ≠ q.d 1)) := by
  induction n generalizing q C with
  | zero =>
    rw [LdacsSdk.printLoop, pqueuePop_empty hfree hsize] at hloop
    cases hloop
    exact ⟨fun _ => rfl, by simp, by simp⟩
  | succ n ih =>
    obtain ⟨a, u, hpop, hidle, -⟩ := pqueuePop_spec cb hfree (by omega)
    rw [LdacsSdk.printLoop, hpop] at hloop
    rcases h.pop hcb (by omega) hlt hpop with ⟨hone, -⟩ | ⟨-, -, hmem, hstored, hn, htwo⟩
    · omega
    obtain ⟨hzero, -, hmany⟩ := ih hstored hidle.free (by omega) hidle.sizeLt hloop
    refine ⟨by simp, fun hn1 => ?_, fun _ => ?_⟩
    · rw [hzero (by omega), htwo (by omega)]
    · rcases Nat.eq_zero_or_pos n with rfl | hpos
      · refine ⟨q.d 1, hmem, ?_, by simp⟩
        rw [hzero rfl, htwo hsize, hcb.getpos_setpos, if_pos rfl]
      · obtain ⟨b, hb, hone, -⟩ := hmany hpos
        exact ⟨b, hb.1, hone, fun _ => hb.2⟩

/-- Printing keeps the positions if there is no more than one element, and only then. -/
theorem Stored.print (hcb : cb.Lawful) (h : q.Stored cb C) (hpos : 1 ≤ q.size)
    (hlt : q.size < 2 ^ 64) {allocated : Bool}
    (hcall : pqueuePrint cb allocated q = some (.returns ret e q')) :
    q'.d = q.d ∧ q'.size = q.size ∧ (q'.Stored cb C ↔ q.size ≤ 2) := by
  have hbody := withLock_eq_some hcall
  dsimp only at hbody
  split_ifs at hbody with hnone
  · cases hbody
  obtain ⟨n, hn⟩ : ∃ n, q.size = n + 1 := ⟨q.size - 1, by omega⟩
  have hrounds : u64 ((q.size : ℤ) - 1) = n := by
    rw [hn]
    unfold u64
    omega
  obtain ⟨out, hloop, hout⟩ := Option.map_eq_some_iff.mp hbody
  rw [hrounds] at hloop
  obtain ⟨last, hlast, -⟩ := printLoop_spec cb n { q with locked := false, waiting := 0 }
    ⟨rfl, hlt⟩ (by rw [count]; exact hrounds)
  rw [hlast] at hloop
  cases hloop
  cases hout
  have hdup : { q with locked := false, waiting := 0 }.Stored cb C := h.congr rfl rfl fun _ => rfl
  obtain ⟨hzero, hone, hmany⟩ := hdup.printLoop hcb rfl n hn hlt hlast
  refine ⟨rfl, rfl, fun hkept => ?_, fun hsmall => ?_⟩
  · by_contra hbig
    obtain ⟨a, ha, hat, hne⟩ := hmany (by omega)
    obtain ⟨i, hi, rfl⟩ := h.image.symm ▸ ha
    have hi1 : cb.getpos last.elems (q.d i) = i := hkept.pos i hi
    rw [hat] at hi1
    exact hne (by omega) (hi1 ▸ rfl)
  · refine h.congr rfl rfl fun a => ?_
    show cb.getpos last.elems a = cb.getpos q.elems a
    rcases Nat.eq_zero_or_pos n with rfl | hpos'
    · exact congrArg (cb.getpos · a) (hzero rfl)
    · rw [hone (by omega), hcb.getpos_setpos]
      split_ifs with ha
      · have hmem : 1 ≤ 1 ∧ 1 < q.size := ⟨le_rfl, by omega⟩
        rw [ha]
        exact (h.pos 1 hmem).symm
      · rfl

end Pqueue

namespace PqHistory

variable {s t : PqHistory σ} {op : PqOp σ}

/-- **One call.** It keeps the positions exactly if it is harmless. -/
theorem Sound.step (hcb : cb.Lawful) (h : s.Sound cb) (hop : s.Allowed op)
    (hstep : s.step cb op = some t) :
    (1 ≤ t.q.size ∧ t.q.size < 2 ^ 64) ∧ (t.q.Stored cb t.content ↔ s.q.Harmless cb op) := by
  obtain ⟨hstored, hpos, hlt⟩ := h
  obtain ⟨ret, e, hcall, hcontent⟩ := exists_of_step hstep
  rw [hcontent]
  cases op with
  | insert grown a =>
    simp only [Pqueue.Harmless, contentAfter, iff_true]
    rcases hstored.insert hcb hpos hop.2 (fun hmem => hop.1 hmem) hcall with
      ⟨rfl, hin, hsize⟩ | ⟨rfl, hin, hsize⟩
    · refine ⟨by have := hop.2; omega, ?_⟩
      rw [if_pos rfl, Finset.coe_insert]
      exact hin
    · refine ⟨by omega, ?_⟩
      rw [if_neg (by decide)]
      exact hin
  | pop =>
    simp only [Pqueue.Harmless, contentAfter, iff_true]
    rcases hstored.pop hcb hpos hlt hcall with
      ⟨-, rfl, hin, hsize, -⟩ | ⟨hne, rfl, -, hin, hsize, -⟩
    · exact ⟨by omega, hin⟩
    · refine ⟨by omega, ?_⟩
      rw [Finset.coe_erase]
      exact hin
  | changePriority newPri a =>
    simp only [Pqueue.Harmless, contentAfter, iff_true]
    obtain ⟨hin, hsize⟩ := hstored.changePriority hcb hop hcall
    exact ⟨by omega, hin⟩
  | remove a =>
    obtain ⟨i, hi, rfl⟩ := hstored.image.symm ▸ (show a ∈ (s.content : Set ℕ) from hop)
    obtain ⟨u, hsift, hu⟩ := Pqueue.exists_of_remove hstored hi hcall
    have hsize := Pqueue.size_removeSift (q := { s.q with locked := true }) hi hlt hsift
    have hsize' : t.q.size + 1 = s.q.size := by
      rw [hu]
      exact hsize
    have htwo : 1 ≤ i ∧ i < s.q.size := hi
    refine ⟨by omega, ?_⟩
    rw [hstored.harmless_iff hi, contentAfter, Finset.coe_erase, hu]
    constructor
    · intro hkept hrevives
      have hmem := Pqueue.Revives.remains (q := { s.q with locked := true }) hrevives hi hlt hsift
      have hmem' : s.q.d i ∈ u.unlock.d '' u.unlock.slots := hmem
      rw [hkept.image] at hmem'
      exact hmem'.2 rfl
    · intro hstays
      exact ((hstored.locked true).removeSift hcb hlt hi hstays hsift).locked false
  | print allocated =>
    obtain ⟨-, hsize, hiff⟩ := hstored.print hcb hpos hlt hcall
    exact ⟨by omega, hiff⟩
  | popWait => exact absurd hop id
  | wake => exact absurd hop id
  | peek => exact absurd hop id
  | flush freeFunc => exact absurd hop id
  | isValid => exact absurd hop id

theorem sound_init (cb : PqueueCallbacks σ) (n : ℕ) (d : ℕ → ℕ) (elems : σ) :
    Sound cb { q := pqueueInit n d elems, content := ∅ } where
  stored := by
    constructor
    · intro i hi
      have hi' : 1 ≤ i ∧ i < 1 := hi
      omega
    · simp [Pqueue.slots, pqueueInit]
  pos := le_rfl
  sizeLt := Nat.one_lt_two_pow (by decide)

/-- In every run of harmless calls the queue holds what has come in and not been taken out, each
element in the slot it knows; and a call from such a state keeps this exactly if it is harmless. -/
theorem positions_true (hcb : cb.Lawful) (n : ℕ) (d : ℕ → ℕ) (elems : σ)
    (h : Reaches (PqHistory.step cb) (fun s op => s.Allowed op ∧ s.q.Harmless cb op)
      { q := pqueueInit n d elems, content := ∅ } s) :
    s.q.Stored cb s.content ∧ ∀ op t, s.Allowed op → s.step cb op = some t →
      (t.q.Stored cb t.content ↔ s.q.Harmless cb op) := by
  have hsound : s.Sound cb := by
    apply h.invariant (sound_init cb n d elems)
    rintro u op t hu ⟨hallowed, hharmless⟩ hstep
    obtain ⟨⟨hpos, hlt⟩, hiff⟩ := hu.step hcb hallowed hstep
    exact ⟨hiff.mpr hharmless, hpos, hlt⟩
  exact ⟨hsound.stored, fun op t hop hstep => (hsound.step hcb hop hstep).2⟩

instance (s : PqHistory σ) : (op : PqOp σ) → Decidable (s.Allowed op)
  | .insert _ d => inferInstanceAs (Decidable (d ∉ s.content ∧ _))
  | .changePriority _ d => inferInstanceAs (Decidable (d ∈ s.content))
  | .remove d => inferInstanceAs (Decidable (d ∈ s.content))
  | .pop | .print _ => inferInstanceAs (Decidable True)
  | .popWait | .wake | .peek | .flush _ | .isValid => inferInstanceAs (Decidable False)

instance (cb : PqueueCallbacks σ) (q : Pqueue σ) : (op : PqOp σ) → Decidable (q.Harmless cb op)
  | .remove _ => inferInstanceAs (Decidable (¬ (_ ∧ _)))
  | .print _ => inferInstanceAs (Decidable (q.size ≤ 2))
  | .insert _ _ | .changePriority _ _ | .pop | .popWait | .wake | .peek | .flush _ | .isValid =>
    inferInstanceAs (Decidable True)

theorem pairCallbacks_lawful : pairCallbacks.Lawful := by
  constructor
  · intro elems a b pos
    simp only [pairCallbacks, Function.update_apply]
    split_ifs <;> rfl
  · intro elems a b pri
    simp only [pairCallbacks, Function.update_apply]
    split_ifs with h
    · rw [h]
    · rfl

/-- An empty queue, whose elements will have ten times their names as priorities. -/
def emptyHistory : PqHistory (ℕ → ℕ × ℕ) where
  q := pqueueInit 10 (fun _ => 0) fun e => (10 * e, 0)
  content := ∅

theorem positions_true_four : ∃ s,
    Reaches (PqHistory.step pairCallbacks)
      (fun s op => s.Allowed op ∧ s.q.Harmless pairCallbacks op) emptyHistory s ∧
    s.q.size = 3 ∧ s.q.Stored pairCallbacks s.content ∧
    ∀ op t, s.Allowed op → s.step pairCallbacks op = some t →
      (t.q.Stored pairCallbacks t.content ↔ s.q.Harmless pairCallbacks op) := by
  obtain ⟨s, hs, hsize⟩ : ∃ s, runOps (PqHistory.step pairCallbacks)
      (fun s op => s.Allowed op ∧ s.q.Harmless pairCallbacks op) emptyHistory
      [.insert true 3, .print true, .insert true 2, .insert true 4, .insert true 1,
        .changePriority 50 1, .remove 2, .pop] = some s ∧ s.q.size = 3 := ⟨_, rfl, rfl⟩
  have hrun := reaches_of_runOps _ hs
  exact ⟨s, hrun, hsize,
    positions_true pairCallbacks_lawful 10 (fun _ => 0) (fun e => (10 * e, 0)) hrun⟩

/-- Printing two elements tells the second one that it stands first. And when the last of two equal
elements is removed, it stays in the queue and the other one is gone. -/
theorem positions_false :
    (∃ s, Reaches (PqHistory.step pairCallbacks) PqHistory.Allowed emptyHistory s ∧
      s.q.size = 3 ∧ pairCallbacks.getpos s.q.elems (s.q.d 2) = 1) ∧
    ∃ s, Reaches (PqHistory.step pairCallbacks) PqHistory.Allowed emptyHistory s ∧
      s.q.size = 2 ∧ s.content = {2} ∧ s.q.d 1 = 1 := by
  constructor
  · obtain ⟨s, hs, hsize, hpos⟩ : ∃ s,
        runOps (PqHistory.step pairCallbacks) PqHistory.Allowed emptyHistory
          [.insert true 1, .insert true 2, .print true] = some s ∧ s.q.size = 3 ∧
        pairCallbacks.getpos s.q.elems (s.q.d 2) = 1 := ⟨_, rfl, rfl, rfl⟩
    exact ⟨s, reaches_of_runOps _ hs, hsize, hpos⟩
  · obtain ⟨s, hs, hrest⟩ : ∃ s,
        runOps (PqHistory.step pairCallbacks) PqHistory.Allowed emptyHistory
          [.insert true 1, .insert true 2, .changePriority 10 2, .remove 1] = some s ∧
        s.q.size = 2 ∧ s.content = {2} ∧ s.q.d 1 = 1 := ⟨_, rfl, rfl, by decide, rfl⟩
    exact ⟨s, reaches_of_runOps _ hs, hrest⟩

end PqHistory

end LdacsSdk
