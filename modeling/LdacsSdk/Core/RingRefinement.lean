import LdacsSdk.Core.RingNodes
import LdacsSdk.Library.Runs

/-!
# The ring buffer is a bounded list

The operations on the nodes do and return what those on the list of the data do and return, in any
order of calls, as long as the `int` count of nodes does not overflow.
-/
namespace LdacsSdk

open Library

variable {α : Type*}

/-- The calls on a ring buffer. A push names the address that `malloc` returns. -/
inductive RingOp (α : Type*) where
  | pushFront (a : ℕ) (data : α)
  | pushBack (a : ℕ) (data : α)
  | pop
  | getFront
  | checkExist (ptr : α) (factor : α → α → Bool)

/-- A ring buffer and the list it should be. -/
structure RingState (α : Type*) where
  rb : LdRbuffer α
  list : RBuffer α

namespace RingState

def start (size : ℕ) : RingState α := ⟨ldRbufferInit size, rbufferInit size⟩

/-- One call on both. An access outside the heap has no successor. -/
def step (s : RingState α) : RingOp α → Option (RingState α)
  | .pushFront a data =>
    (ldRbufferPushFront s.rb a data).map fun r => ⟨r.1, (rbufferPushFront s.list data).1⟩
  | .pushBack a data =>
    (ldRbufferPushBack s.rb a data).map fun r => ⟨r.1, (rbufferPushBack s.list data).1⟩
  | .pop => (ldRbufferPop s.rb).map fun r => ⟨r.1, (rbufferPop s.list).1⟩
  | .getFront => (ldRbufferGetFront s.rb).map fun _ => s
  | .checkExist ptr factor => (ldRbufferCheckExist s.rb ptr factor).map fun _ => s

/-- `malloc` returns memory that is not in use. -/
def InRange (s : RingState α) : RingOp α → Prop
  | .pushFront a _ | .pushBack a _ => s.rb.heap a = none
  | .pop | .getFront | .checkExist _ _ => True

/-- A push finds the ring full or leaves room for one more in the `int` count. -/
def Fits (s : RingState α) : RingOp α → Prop
  | .pushFront _ _ | .pushBack _ _ => s.rb.count + 1 < 2 ^ 31 ∨ (s.rb.size : ℤ) ≤ s.rb.count
  | .pop | .getFront | .checkExist _ _ => True

def Meets (s : RingState α) (op : RingOp α) : Prop := s.InRange op ∧ s.Fits op

instance (s : RingState α) : (op : RingOp α) → Decidable (s.InRange op)
  | .pushFront _ _ | .pushBack _ _ => inferInstanceAs (Decidable (_ = none))
  | .pop | .getFront | .checkExist _ _ => inferInstanceAs (Decidable True)

instance (s : RingState α) : (op : RingOp α) → Decidable (s.Fits op)
  | .pushFront _ _ | .pushBack _ _ => inferInstanceAs (Decidable (_ ∨ _))
  | .pop | .getFront | .checkExist _ _ => inferInstanceAs (Decidable True)

instance (s : RingState α) (op : RingOp α) : Decidable (s.Meets op) :=
  inferInstanceAs (Decidable (_ ∧ _))

/-- The call does to the ring what it should do to the list, returns the same, and leaves the ring
as it is where it fails. -/
def Exact (s : RingState α) : RingOp α → Prop
  | .pushFront a data => ∃ rb e, ldRbufferPushFront s.rb a data = some (rb, e) ∧
      e = (rbufferPushFront s.list data).2 ∧ HoldsList rb (rbufferPushFront s.list data).1 ∧
      (e ≠ .ldOk → rb = s.rb)
  | .pushBack a data => ∃ rb e, ldRbufferPushBack s.rb a data = some (rb, e) ∧
      e = (rbufferPushBack s.list data).2 ∧ HoldsList rb (rbufferPushBack s.list data).1 ∧
      (e ≠ .ldOk → rb = s.rb)
  | .pop => ∃ rb e, ldRbufferPop s.rb = some (rb, (rbufferPop s.list).2, e) ∧
      HoldsList rb (rbufferPop s.list).1 ∧ (e = .ldOk ↔ s.list.nodes ≠ []) ∧ (e ≠ .ldOk → rb = s.rb)
  | .getFront => ∃ e, ldRbufferGetFront s.rb = some (rbufferGetFront s.list, e) ∧
      (e = .ldOk ↔ s.list.nodes ≠ [])
  | .checkExist ptr factor =>
    ldRbufferCheckExist s.rb ptr factor = some (rbufferCheckExist s.list ptr factor)

variable {s t : RingState α} {op : RingOp α} {size a : ℕ} {data : α}

/-- Pushes that fit do to the ring what they do to the list. -/
theorem push_exact_of_fits (h : HoldsList s.rb s.list) (hcount : s.rb.count < 2 ^ 31)
    (ha : s.rb.heap a = none) (hfits : s.Fits (.pushBack a data)) :
    s.Exact (.pushFront a data) ∧ s.Exact (.pushBack a data) := by
  have hlen := h.count_eq
  have hsize := h.choose_spec.2.2
  rcases Nat.lt_or_ge s.list.nodes.length s.list.size with hroom | hroom
  · have hcount' : s.rb.count + 1 < 2 ^ 31 := hfits.resolve_right (by omega)
    obtain ⟨⟨rb, hfront, hholds⟩, rb', hback, hholds'⟩ := h.push_room ha hroom hcount' data
    have hlist : rbufferPushFront s.list data =
        ({ s.list with nodes := data :: s.list.nodes }, .ldOk) := if_neg (Nat.not_le.mpr hroom)
    have hlist' : rbufferPushBack s.list data =
        ({ s.list with nodes := s.list.nodes ++ [data] }, .ldOk) := if_neg (Nat.not_le.mpr hroom)
    exact ⟨⟨rb, .ldOk, hfront, by rw [hlist], by rw [hlist]; exact hholds, by simp⟩,
      ⟨rb', .ldOk, hback, by rw [hlist'], by rw [hlist']; exact hholds', by simp⟩⟩
  · have hfull := (h.isFull_iff hcount).mpr hroom
    have hlist : rbufferPushFront s.list data = (s.list, .ldErrInternal) := if_pos hroom
    have hlist' : rbufferPushBack s.list data = (s.list, .ldErrInternal) := if_pos hroom
    exact ⟨⟨s.rb, .ldErrInternal, if_pos hfull, by rw [hlist], by rw [hlist]; exact h,
        fun _ => rfl⟩,
      ⟨s.rb, .ldErrInternal, if_pos hfull, by rw [hlist'], by rw [hlist']; exact h, fun _ => rfl⟩⟩

theorem pop_exact (h : HoldsList s.rb s.list) (hcount : s.rb.count < 2 ^ 31) :
    s.Exact (.pop : RingOp α) := by
  have hlen := h.count_eq
  cases hnodes : s.list.nodes with
  | nil =>
    have hzero : s.rb.count = 0 := by simpa [hnodes] using hlen
    have hlist : rbufferPop s.list = (s.list, none) := by simp [rbufferPop, hnodes]
    exact ⟨s.rb, .ldErrInternal, by simp [ldRbufferPop, hzero, hlist], by rw [hlist]; exact h,
      by simp [hnodes], fun _ => rfl⟩
  | cons d rest =>
    have hlist : rbufferPop s.list = ({ s.list with nodes := rest }, some d) := by
      simp [rbufferPop, hnodes]
    obtain ⟨l, hring, hdata, hsize⟩ := h
    rw [hnodes] at hdata
    cases l with
    | nil => simp at hdata
    | cons a l =>
      simp only [List.map_cons, List.cons.injEq] at hdata
      obtain ⟨rb, hpop, hring', hsize', hkept⟩ := hring.pop hcount
      have hrest : l.map rb.heap.dataOf = rest.map some := by
        rw [← hdata.2]
        exact List.map_congr_left hkept
      rw [hdata.1] at hpop
      exact ⟨rb, .ldOk, by rw [hpop, hlist], by
        rw [hlist]
        exact ⟨l, hring', hrest, hsize.trans hsize'.symm⟩, by simp [hnodes], by simp⟩

theorem getFront_exact (h : HoldsList s.rb s.list) : s.Exact (.getFront : RingOp α) := by
  have hlen := h.count_eq
  cases hnodes : s.list.nodes with
  | nil =>
    have hzero : s.rb.count = 0 := by simpa [hnodes] using hlen
    exact ⟨.ldErrInternal, by simp [ldRbufferGetFront, hzero, rbufferGetFront, hnodes],
      by simp [hnodes]⟩
  | cons d rest =>
    have hpos : s.rb.count ≠ 0 := by
      rw [hlen, hnodes]
      simp
      omega
    obtain ⟨l, hring, hdata, -⟩ := h
    rw [hnodes] at hdata
    cases l with
    | nil => simp at hdata
    | cons a l =>
      simp only [List.map_cons, List.cons.injEq] at hdata
      obtain ⟨node, hnode, rfl⟩ := Option.map_eq_some_iff.mp hdata.1
      have hderef : s.rb.heap.deref s.rb.head = some node := by
        simp [NodeHeap.deref, hring.head, hnode]
      exact ⟨.ldOk, by simp [ldRbufferGetFront, hpos, hderef, rbufferGetFront, hnodes],
        by simp [hnodes]⟩

theorem checkExist_exact (h : HoldsList s.rb s.list) (ptr : α) (factor : α → α → Bool) :
    s.Exact (.checkExist ptr factor) := by
  obtain ⟨l, hring, hdata, -⟩ := h
  have hchain : List.IsChain (Linked s.rb.heap.nextOf s.rb.heap.prevOf) l := by
    have hcirc := hring.circular
    cases l with
    | nil => exact List.IsChain.nil
    | cons a l => exact List.IsChain.left_of_append hcirc
  have hcount : s.rb.count.toNat = l.length := by
    rw [hring.countEq]
    rfl
  simp only [Exact, ldRbufferCheckExist, hcount, hring.head]
  exact checkNodes_eq hchain hdata ptr factor

/-- A call in range is exact if and only if it fits. -/
theorem exact_iff (h : HoldsList s.rb s.list) (hcount : s.rb.count < 2 ^ 31) (hin : s.InRange op) :
    s.Exact op ↔ s.Fits op := by
  cases op with
  | pushFront a data =>
    refine ⟨?_, fun hfits => (push_exact_of_fits h hcount hin hfits).1⟩
    rintro ⟨rb, e, hpush, -, hholds, -⟩
    by_contra hover
    exact h.push_overflow hcount hover (.inl hpush) _ hholds
  | pushBack a data =>
    refine ⟨?_, fun hfits => (push_exact_of_fits h hcount hin hfits).2⟩
    rintro ⟨rb, e, hpush, -, hholds, -⟩
    by_contra hover
    exact h.push_overflow hcount hover (.inr hpush) _ hholds
  | pop => exact ⟨fun _ => trivial, fun _ => pop_exact h hcount⟩
  | getFront => exact ⟨fun _ => trivial, fun _ => getFront_exact h⟩
  | checkExist ptr factor => exact ⟨fun _ => trivial, fun _ => checkExist_exact h ptr factor⟩

/-- An exact call leaves a ring that holds the list. -/
theorem Exact.holds (hexact : s.Exact op) (h : HoldsList s.rb s.list) (hs : s.step op = some t) :
    HoldsList t.rb t.list := by
  cases op with
  | pushFront a data =>
    obtain ⟨rb, e, hpush, -, hholds, -⟩ := hexact
    simp only [step, hpush, Option.map_some, Option.some.injEq] at hs
    exact hs ▸ hholds
  | pushBack a data =>
    obtain ⟨rb, e, hpush, -, hholds, -⟩ := hexact
    simp only [step, hpush, Option.map_some, Option.some.injEq] at hs
    exact hs ▸ hholds
  | pop =>
    obtain ⟨rb, e, hpop, hholds, -⟩ := hexact
    simp only [step, hpop, Option.map_some, Option.some.injEq] at hs
    exact hs ▸ hholds
  | getFront | checkExist ptr factor =>
    obtain ⟨_, -, rfl⟩ := Option.map_eq_some_iff.mp hs
    exact h

/-- The list grows by at most one element, and by none where a push is refused. -/
theorem step_length (hs : s.step op = some t) (h : HoldsList s.rb s.list)
    (hcount : s.rb.count < 2 ^ 31) (hfits : s.Fits op) :
    t.list.size = s.list.size ∧ t.list.nodes.length < 2 ^ 31 := by
  have hlen := h.count_eq
  have hsize := h.choose_spec.2.2
  cases op with
  | pushFront a data =>
    obtain ⟨_, -, rfl⟩ := Option.map_eq_some_iff.mp hs
    unfold Fits at hfits
    simp only [rbufferPushFront]
    split_ifs
    · exact ⟨rfl, by dsimp only; omega⟩
    · exact ⟨rfl, by simp only [List.length_cons]; omega⟩
  | pushBack a data =>
    obtain ⟨_, -, rfl⟩ := Option.map_eq_some_iff.mp hs
    unfold Fits at hfits
    simp only [rbufferPushBack]
    split_ifs
    · exact ⟨rfl, by dsimp only; omega⟩
    · exact ⟨rfl, by simp only [List.length_append, List.length_singleton]; omega⟩
  | pop =>
    obtain ⟨_, -, rfl⟩ := Option.map_eq_some_iff.mp hs
    unfold rbufferPop
    split
    · exact ⟨rfl, by dsimp only; omega⟩
    · rename_i hnodes
      rw [hnodes] at hlen
      simp only [List.length_cons] at hlen
      exact ⟨rfl, by dsimp only; omega⟩
  | getFront | checkExist ptr factor =>
    obtain ⟨_, -, rfl⟩ := Option.map_eq_some_iff.mp hs
    exact ⟨rfl, by omega⟩

theorem holds_of_reaches (h : Reaches step Meets (start size) s) :
    HoldsList s.rb s.list ∧ s.list.size = size ∧ s.rb.count < 2 ^ 31 := by
  induction h with
  | refl => exact ⟨⟨[], rings_init size, rfl, rfl⟩, rfl, by simp [start, ldRbufferInit]⟩
  | tail _ hst ih =>
    obtain ⟨op, ⟨hin, hfits⟩, hs⟩ := hst
    obtain ⟨hholds, hsize, hcount⟩ := ih
    have hnext := ((exact_iff hholds hcount hin).mpr hfits).holds hholds hs
    obtain ⟨hsize', hshort⟩ := step_length hs hholds hcount hfits
    refine ⟨hnext, hsize'.trans hsize, ?_⟩
    rw [hnext.count_eq]
    exact_mod_cast hshort

/-- The nodes at the addresses `l` are distinct and hold the data of the list; following the links
on from the head passes them in order and leads back to the head, the links back are the inverse,
and the tail is the last. -/
structure RingOf (rb : LdRbuffer α) (list : RBuffer α) (l : List ℕ) : Prop where
  nodup : l.Nodup
  countEq : rb.count = l.length
  bounded : l.length ≤ rb.size
  datas : l.map rb.heap.dataOf = list.nodes.map some
  passes : ∀ n < l.length, follow rb.heap.nextOf n rb.head = l[n]?
  closes : follow rb.heap.nextOf l.length rb.head = rb.head
  inverse : ∀ a ∈ l, (∃ b ∈ l, rb.heap.nextOf a = some b ∧ rb.heap.prevOf b = some a) ∧
    ∃ b ∈ l, rb.heap.prevOf a = some b ∧ rb.heap.nextOf b = some a
  tail : rb.tail = l.getLast?

/-- In every run whose pushes fit the nodes are a ring of the list's data, and the calls that do to
it what they should do to the list are those that fit. -/
theorem ring_refines_list (size : ℕ) (s : RingState α) (h : Reaches step Meets (start size) s) :
    (∃ l, RingOf s.rb s.list l) ∧ s.list.size = size ∧ s.list.nodes.length ≤ size ∧
      ∀ op, s.InRange op → (s.Exact op ↔ s.Fits op) := by
  obtain ⟨hholds, hsize, hcount⟩ := holds_of_reaches h
  obtain ⟨l, hring, hdata, hsize'⟩ := hholds
  have hwalk := hring.circular.follow
  have hlen := congrArg List.length hdata
  have hbounded := hring.bounded
  simp only [List.length_map] at hlen
  rw [← hring.head] at hwalk
  refine ⟨⟨l, hring.nodup, hring.countEq, hring.bounded, hdata, hwalk.1, hwalk.2, fun a ha =>
    hring.circular.inverse ha, hring.tail⟩, hsize, by omega, fun op hin =>
    exact_iff ⟨l, hring, hdata, hsize'⟩ hcount hin⟩

/-- Three pushes at both ends and a pop. -/
theorem ring_refines_list_three : ∃ s : RingState ℕ, Reaches step Meets (start 3) s ∧
    s.list.nodes = [1, 3] ∧ (∃ l, RingOf s.rb s.list l) ∧ s.Exact .pop := by
  obtain ⟨s, hs, hnodes⟩ : ∃ s : RingState ℕ, runOps step Meets (start 3)
      [.pushBack 64 1, .pushFront 96 2, .pushBack 128 3, .getFront, .pop] = some s ∧
        s.list.nodes = [1, 3] := ⟨_, rfl, rfl⟩
  have hrun := reaches_of_runOps _ hs
  have hall := ring_refines_list 3 s hrun
  exact ⟨s, hrun, hnodes, hall.1, (hall.2.2.2 .pop trivial).mpr trivial⟩

/-- There is memory that is not in use. -/
theorem exists_fresh {rb : LdRbuffer α} {list : RBuffer α} (h : HoldsList rb list) :
    ∃ a, rb.heap a = none := by
  obtain ⟨l, hring, -⟩ := h
  obtain ⟨a, ha⟩ := Infinite.exists_notMem_finset l.toFinset
  have hnot : ¬ (rb.heap a).isSome = true := fun hs => ha (by simpa using (hring.stored a).mp hs)
  exact ⟨a, by simpa using hnot⟩

/-- A ring of any length that an `int` counts is reached. -/
theorem exists_ring_of_length (size k : ℕ) (hsize : k ≤ size) (hk : k < 2 ^ 31) :
    ∃ s : RingState Unit, Reaches step Meets (start size) s ∧ s.list.nodes.length = k := by
  induction k with
  | zero => exact ⟨start size, Reaches.start, rfl⟩
  | succ k ih =>
    obtain ⟨s, hs, hlen⟩ := ih (by omega) (by omega)
    obtain ⟨hholds, hcap, hcount⟩ := holds_of_reaches hs
    have hnodes := hholds.count_eq
    obtain ⟨a, ha⟩ := exists_fresh hholds
    have hfits : s.Fits (.pushBack a ()) := .inl (by omega)
    obtain ⟨rb, e, hpush, -⟩ := (push_exact_of_fits hholds hcount ha hfits).2
    have hstep : s.step (.pushBack a ()) = some ⟨rb, (rbufferPushBack s.list ()).1⟩ := by
      simp [step, hpush]
    have hin : s.InRange (.pushBack a ()) := ha
    refine ⟨_, hs.next ⟨hin, hfits⟩ hstep, ?_⟩
    rw [rbufferPushBack_room (by omega)]
    simp [hlen]

/-- The count of a ring of `2 ^ 31 - 1` nodes overflows with one more push. -/
theorem ring_count_overflows : ¬ ∀ (size : ℕ) (s : RingState Unit),
    Reaches step InRange (start size) s → ∀ op, s.InRange op → s.Exact op := by
  intro hall
  obtain ⟨s, hs, hlen⟩ := exists_ring_of_length (2 ^ 31) (2 ^ 31 - 1) (by decide) (by decide)
  obtain ⟨hholds, hcap, hcount⟩ := holds_of_reaches hs
  have hsize := hholds.choose_spec.2.2
  have hnodes := hholds.count_eq
  obtain ⟨a, ha⟩ := exists_fresh hholds
  have hin : s.InRange (.pushBack a ()) := ha
  have hexact := hall _ s (hs.weaken fun _ _ hmeets => hmeets.1) _ hin
  have hfits : s.rb.count + 1 < 2 ^ 31 ∨ (s.rb.size : ℤ) ≤ s.rb.count :=
    (exact_iff hholds hcount hin).mp hexact
  omega

end RingState

end LdacsSdk
