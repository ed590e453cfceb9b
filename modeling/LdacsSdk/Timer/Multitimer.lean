import LdacsSdk.Core.Definitions
import LdacsSdk.Library.LinkedList

/-!
# The multitimer

The timers of a multitimer, the list of the active ones in order of their expiry, and what
`mt_set_timer`, `mt_cancel_timer` and the worker do to both while they hold the lock. The macros
that insert into and delete from the list are a parameter. A pointer to a timer is its index, and a
callback with its arguments is one value.
-/
namespace LdacsSdk

open Library

/-- A `struct timespec` with its nanoseconds below a second. -/
structure Timespec where
  sec : ℕ
  nsec : ℕ
  nsec_lt : nsec < 1000000000
  deriving DecidableEq, Repr

namespace Timespec

/-- The beginning of the clock. -/
def zero : Timespec := ⟨0, 0, by norm_num⟩

/-- The time in nanoseconds. -/
def nanos (t : Timespec) : ℕ := t.sec * 1000000000 + t.nsec

end Timespec

/-- `update_expire_time`, when `clock_gettime` says `now`. -/
def updateExpireTime (now : Timespec) (timeout : UInt64) : Timespec :=
  let secs := timeout.toNat / 1000000000
  let nsec := timeout.toNat % 1000000000
  let temp := now.nsec + nsec
  ⟨now.sec + (secs + temp / 1000000000), temp % 1000000000, Nat.mod_lt _ (by norm_num)⟩

/-- The carry loses nothing: a timer expires its timeout from now. -/
theorem nanos_updateExpireTime (now : Timespec) (timeout : UInt64) :
    (updateExpireTime now timeout).nanos = now.nanos + timeout.toNat := by
  simp only [updateExpireTime, Timespec.nanos]
  omega

variable {n : ℕ} {C : Type*}

/-- `single_timer_t`. -/
structure SingleTimer (n : ℕ) (C : Type*) where
  active : Bool := false
  numTimeouts : UInt64 := 0
  expireTime : Timespec := .zero
  callback : Option C := none
  next : Option (Fin n) := none

/-- `timespec_cmp`. -/
def timespecCmp (x y : SingleTimer n C) : ℤ :=
  if x.expireTime.sec < y.expireTime.sec then -1
  else if x.expireTime.sec > y.expireTime.sec then 1
  else x.expireTime.nsec - y.expireTime.nsec

theorem timespecCmp_neg_iff (x y : SingleTimer n C) :
    timespecCmp x y < 0 ↔ x.expireTime.nanos < y.expireTime.nanos := by
  have hx := x.expireTime.nsec_lt
  have hy := y.expireTime.nsec_lt
  unfold timespecCmp Timespec.nanos
  split_ifs <;> omega

theorem timespecCmp_nonpos_iff (x y : SingleTimer n C) :
    timespecCmp x y ≤ 0 ↔ x.expireTime.nanos ≤ y.expireTime.nanos := by
  have hx := x.expireTime.nsec_lt
  have hy := y.expireTime.nsec_lt
  unfold timespecCmp Timespec.nanos
  split_ifs <;> omega

/-- `ld_multitimer_t` with `n` timers. -/
structure MultiTimer (n : ℕ) (C : Type*) where
  allTimers : Fin n → SingleTimer n C := fun _ => {}
  activeTimers : Option (Fin n) := none

/-- `mt_get_timer_by_id`. -/
def mtGetTimerById (n : ℕ) (id : UInt16) : Except LErr (Fin n) :=
  if h : id.toNat < n then .ok ⟨id.toNat, h⟩ else .error .ldErrInvalid

namespace MultiTimer

/-- The list of the active timers. -/
def links (mt : MultiTimer n C) : Links (Fin n) :=
  ⟨mt.activeTimers, fun timer => (mt.allTimers timer).next⟩

/-- The multitimer with another list. -/
def relink (mt : MultiTimer n C) (L : Links (Fin n)) : MultiTimer n C :=
  ⟨fun timer => { mt.allTimers timer with next := L.next timer }, L.head⟩

/-- The multitimer with one of its timers changed. -/
def update (mt : MultiTimer n C) (timer : Fin n) (f : SingleTimer n C → SingleTimer n C) :
    MultiTimer n C :=
  { mt with allTimers := Function.update mt.allTimers timer (f (mt.allTimers timer)) }

/-- The test of `mt_set_timer` before it takes the lock. -/
def setTest (mt : MultiTimer n C) (id : UInt16) : Except LErr (Fin n) :=
  match mtGetTimerById n id with
  | .error _ => .error .ldErrInvalid
  | .ok timer => if (mt.allTimers timer).active then .error .ldErrInvalid else .ok timer

/-- The test of `mt_cancel_timer` before it takes the lock. -/
def cancelTest (mt : MultiTimer n C) (id : UInt16) : Except LErr (Fin n) :=
  match mtGetTimerById n id with
  | .error _ => .error .ldErrInternal
  | .ok timer => if (mt.allTimers timer).active then .ok timer else .error .ldErrInternal

/-- What `mt_set_timer` does under the lock. -/
def setLocked (u : ListOps (Fin n)) (mt : MultiTimer n C) (now : Timespec) (timer : Fin n)
    (timeout : UInt64) (callback : C) : Option (MultiTimer n C) :=
  let mt := mt.update timer fun t =>
    { t with
      active := true
      callback := some callback
      expireTime := updateExpireTime now timeout }
  (u.insertInorder (fun a b => timespecCmp (mt.allTimers a) (mt.allTimers b)) mt.links timer).map
    mt.relink

/-- What `mt_cancel_timer` does under the lock, and the worker behind a callback. -/
def deactivate (u : ListOps (Fin n)) (mt : MultiTimer n C) (timer : Fin n) :
    Option (MultiTimer n C) :=
  let mt := mt.update timer fun t => { t with active := false }
  (u.delete mt.links timer).map fun L => (mt.relink L).update timer fun t => { t with next := none }

/-- What the worker does before it calls the callback. -/
def countTimeout (mt : MultiTimer n C) (timer : Fin n) : MultiTimer n C :=
  mt.update timer fun t => { t with numTimeouts := t.numTimeouts + 1 }

variable {mt mt' : MultiTimer n C} {timer other : Fin n} {f : SingleTimer n C → SingleTimer n C}
  {L : Links (Fin n)} {l : List (Fin n)} {u : ListOps (Fin n)}

@[simp] theorem allTimers_relink :
    (mt.relink L).allTimers timer = { mt.allTimers timer with next := L.next timer } := rfl

@[simp] theorem links_relink : (mt.relink L).links = L := rfl

@[simp] theorem allTimers_update_self :
    (mt.update timer f).allTimers timer = f (mt.allTimers timer) := Function.update_self ..

@[simp] theorem allTimers_update_of_ne (h : other ≠ timer) :
    (mt.update timer f).allTimers other = mt.allTimers other := Function.update_of_ne h ..

theorem links_update (hf : (f (mt.allTimers timer)).next = (mt.allTimers timer).next) :
    (mt.update timer f).links = mt.links := by
  have hnext (a : Fin n) : ((mt.update timer f).allTimers a).next = (mt.allTimers a).next := by
    rcases eq_or_ne a timer with rfl | ha
    · simpa using hf
    · simp [ha]
  simp only [links, hnext]
  rfl

theorem setLocked_self {now : Timespec} {timeout : UInt64} {callback : C}
    (h : mt.setLocked u now timer timeout callback = some mt') :
    (mt'.allTimers timer).active = true ∧ (mt'.allTimers timer).callback = some callback ∧
      (mt'.allTimers timer).expireTime = updateExpireTime now timeout := by
  obtain ⟨L, -, rfl⟩ := Option.map_eq_some_iff.mp h
  simp

theorem setLocked_of_ne {now : Timespec} {timeout : UInt64} {callback : C}
    (h : mt.setLocked u now timer timeout callback = some mt') (hne : other ≠ timer) :
    (mt'.allTimers other).active = (mt.allTimers other).active ∧
      (mt'.allTimers other).expireTime = (mt.allTimers other).expireTime ∧
      (mt'.allTimers other).callback = (mt.allTimers other).callback := by
  obtain ⟨L, -, rfl⟩ := Option.map_eq_some_iff.mp h
  simp [hne]

theorem deactivate_self (h : mt.deactivate u timer = some mt') :
    (mt'.allTimers timer).active = false := by
  obtain ⟨L, -, rfl⟩ := Option.map_eq_some_iff.mp h
  simp

theorem deactivate_of_ne (h : mt.deactivate u timer = some mt') (hne : other ≠ timer) :
    (mt'.allTimers other).active = (mt.allTimers other).active := by
  obtain ⟨L, -, rfl⟩ := Option.map_eq_some_iff.mp h
  simp [hne]

/-- Deactivating a timer forgets neither its expiry nor its callback. -/
theorem deactivate_data (h : mt.deactivate u timer = some mt') (other : Fin n) :
    (mt'.allTimers other).expireTime = (mt.allTimers other).expireTime ∧
      (mt'.allTimers other).callback = (mt.allTimers other).callback := by
  obtain ⟨L, -, rfl⟩ := Option.map_eq_some_iff.mp h
  rcases eq_or_ne other timer with rfl | hne
  · simp
  · simp [hne]

/-- A timeout is counted in the timer's own data. -/
theorem countTimeout_data (mt : MultiTimer n C) (timer other : Fin n) :
    ((mt.countTimeout timer).allTimers other).active = (mt.allTimers other).active ∧
      ((mt.countTimeout timer).allTimers other).expireTime = (mt.allTimers other).expireTime ∧
      ((mt.countTimeout timer).allTimers other).callback = (mt.allTimers other).callback := by
  rcases eq_or_ne other timer with rfl | hother
  · simp [countTimeout]
  · simp [countTimeout, hother]

/-- **The list of the active timers is well formed**: it is finite and acyclic, no timer is on it
twice, it is in order of the expiry, and on it are the timers whose flag is set. -/
def WellFormed (mt : MultiTimer n C) : Prop :=
  ∃ l, mt.links.Holds l ∧ l.Nodup ∧
    l.Pairwise (fun a b => timespecCmp (mt.allTimers a) (mt.allTimers b) ≤ 0) ∧
    ∀ timer, timer ∈ l ↔ (mt.allTimers timer).active = true

/-- The active timers, in order of their expiry, are those of `l`. -/
structure Lists (mt : MultiTimer n C) (l : List (Fin n)) : Prop where
  holds : mt.links.Holds l
  sorted : l.Pairwise fun a b =>
    (mt.allTimers a).expireTime.nanos ≤ (mt.allTimers b).expireTime.nanos
  active : ∀ timer, timer ∈ l ↔ (mt.allTimers timer).active = true

theorem Lists.wellFormed (h : mt.Lists l) : mt.WellFormed :=
  ⟨l, h.holds, h.holds.nodup, h.sorted.imp (timespecCmp_nonpos_iff _ _).mpr, h.active⟩

theorem Lists.first_active (h : mt.Lists l) (hfirst : mt.activeTimers = some timer) :
    (mt.allTimers timer).active = true := by
  apply (h.active timer).mp
  cases l with
  | nil => exact absurd (h.holds.symm.trans hfirst) (by simp)
  | cons a l =>
    obtain rfl : a = timer := Option.some.inj (h.holds.1.symm.trans hfirst)
    exact List.mem_cons_self

/-- A first timer that links back to itself. -/
theorem not_wellFormed_of_loop (hhead : mt.activeTimers = some timer)
    (hnext : (mt.allTimers timer).next = some timer) : ¬mt.WellFormed := by
  rintro ⟨l, hl, -⟩
  have hfollows : Follows mt.links.next l mt.activeTimers := hl
  rw [hhead] at hfollows
  exact not_follows_of_loop hnext hfollows

theorem lists_start : Lists ({} : MultiTimer n C) [] := ⟨rfl, .nil, by simp⟩

theorem Lists.countTimeout (h : mt.Lists l) : (mt.countTimeout timer).Lists l := by
  refine ⟨?_, ?_, fun a => ?_⟩
  · rw [MultiTimer.countTimeout, links_update rfl]
    exact h.holds
  · simpa only [countTimeout_data] using h.sorted
  · rw [(countTimeout_data mt timer a).1]
    exact h.active a

/-- Setting a timer that is not active puts it on the list. -/
theorem Lists.setLocked (hu : u.InOrder) (h : mt.Lists l)
    (hidle : (mt.allTimers timer).active = false) (now : Timespec) (timeout : UInt64)
    (callback : C) :
    ∃ mt' l', mt.setLocked u now timer timeout callback = some mt' ∧ mt'.Lists l' := by
  obtain ⟨f, hf⟩ : ∃ f : SingleTimer n C → SingleTimer n C, f = fun t =>
    { t with
      active := true
      callback := some callback
      expireTime := updateExpireTime now timeout } := ⟨_, rfl⟩
  have hlinks : (mt.update timer f).links = mt.links := links_update (by simp [hf])
  have hnot : timer ∉ l := fun hmem => by simp [(h.active timer).mp hmem] at hidle
  have hother {a : Fin n} (ha : a ∈ l) : (mt.update timer f).allTimers a = mt.allTimers a :=
    allTimers_update_of_ne (ne_of_mem_of_not_mem ha hnot)
  have hsorted : l.Pairwise fun a b => ((mt.update timer f).allTimers a).expireTime.nanos ≤
      ((mt.update timer f).allTimers b).expireTime.nanos :=
    h.sorted.imp_of_mem fun ha hb hab => by rwa [hother ha, hother hb]
  obtain ⟨L, l', hL, hholds, hperm, hsorted'⟩ := hu.insertInorder
    (fun a => ((mt.update timer f).allTimers a).expireTime.nanos)
    (fun a b => timespecCmp_neg_iff _ _) (hlinks ▸ h.holds) hsorted hnot
  refine ⟨(mt.update timer f).relink L, l', ?_, ⟨hholds, hsorted', fun a => ?_⟩⟩
  · rw [hf] at hL ⊢
    exact Option.map_eq_some_iff.mpr ⟨L, hL, rfl⟩
  · rw [hperm.mem_iff, List.mem_cons, h.active a]
    rcases eq_or_ne a timer with rfl | ha
    · simp [hf]
    · simp [ha]

/-- Deactivating an active timer takes it off the list. -/
theorem Lists.deactivate (hu : u.InOrder) (h : mt.Lists l)
    (hactive : (mt.allTimers timer).active = true) :
    ∃ mt' l', mt.deactivate u timer = some mt' ∧ mt'.Lists l' := by
  obtain ⟨x, y, rfl⟩ := List.append_of_mem ((h.active timer).mpr hactive)
  obtain ⟨mt₁, hmt₁⟩ : ∃ mt₁ : MultiTimer n C,
      mt₁ = mt.update timer fun t => { t with active := false } := ⟨_, rfl⟩
  have hlinks : mt₁.links = mt.links := by
    rw [hmt₁]
    exact links_update rfl
  have hholds₁ : mt₁.links.Holds (x ++ timer :: y) := hlinks ▸ h.holds
  obtain ⟨L, hL, hholds⟩ := hu.delete hholds₁
  have hnot : timer ∉ x ++ y := (List.nodup_middle.mp hholds₁.nodup).notMem
  have hother {a : Fin n} (ha : a ∈ x ++ y) : mt₁.allTimers a = mt.allTimers a := by
    rw [hmt₁]
    exact allTimers_update_of_ne (ne_of_mem_of_not_mem ha hnot)
  refine ⟨(mt₁.relink L).update timer fun t => { t with next := none }, x ++ y, ?_, ?_, ?_, ?_⟩
  · rw [hmt₁] at hL ⊢
    exact Option.map_eq_some_iff.mpr ⟨L, hL, rfl⟩
  · exact hholds.congr fun a ha => by simp [links, ne_of_mem_of_not_mem ha hnot]
  · have hsub := h.sorted.sublist ((List.Sublist.refl x).append (List.sublist_cons_self timer y))
    exact hsub.imp_of_mem fun ha hb hab => by
      simpa [hother ha, hother hb, ne_of_mem_of_not_mem ha hnot, ne_of_mem_of_not_mem hb hnot]
        using hab
  · intro a
    rcases eq_or_ne a timer with rfl | ha
    · simp only [hnot, hmt₁, allTimers_update_self, allTimers_relink, Bool.false_eq_true]
    · have hmem := h.active a
      simpa [hmt₁, ha] using hmem

/-- Deactivating a timer that is not active leaves the list as it is, if it returns. -/
theorem Lists.deactivate_idle (hu : u.InOrder) (h : mt.Lists l)
    (hidle : (mt.allTimers timer).active = false) (hmt : mt.deactivate u timer = some mt') :
    mt'.Lists l := by
  obtain ⟨L, hL, rfl⟩ := Option.map_eq_some_iff.mp hmt
  have hnot : timer ∉ l := fun hmem => by simp [(h.active timer).mp hmem] at hidle
  have hlinks : (mt.update timer fun t => { t with active := false }).links = mt.links :=
    links_update rfl
  have hholds : L.Holds l := hu.delete_absent h.holds hnot (hlinks ▸ hL)
  refine ⟨hholds.congr fun a ha => by simp [links, ne_of_mem_of_not_mem ha hnot], ?_, fun a => ?_⟩
  · exact h.sorted.imp_of_mem fun ha hb hab => by
      simpa [ne_of_mem_of_not_mem ha hnot, ne_of_mem_of_not_mem hb hnot] using hab
  · have hmem := h.active a
    rcases eq_or_ne a timer with rfl | ha
    · simp [hnot]
    · simpa [ha] using hmem

end MultiTimer

end LdacsSdk
