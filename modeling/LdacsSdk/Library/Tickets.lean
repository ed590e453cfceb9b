import LdacsSdk.Library.Circular

/-!
# Tickets to the slots of a ring

Tickets are numbered from 0 on, and ticket `k` is for slot `k % n` of a ring of `n` slots. The
tickets from `lo` on are outstanding, at most one for each slot. A slot with an outstanding
ticket has what the ticket is for, wherever it is kept, and no other slot has anything.
-/
namespace LdacsSdk.Library

variable {α : Type*} {n lo p : ℕ} {tickets : List α} {held held' : ℕ → Multiset α} {x : α}

/-- What the slots of the ring have is what the outstanding tickets are for. -/
structure TicketRing (n : ℕ) (tickets : List α) (lo : ℕ) (held : ℕ → Multiset α) : Prop where
  lap : tickets.length ≤ lo + n
  live : ∀ k x, lo ≤ k → tickets[k]? = some x → held (k % n) = {x}
  free : ∀ p < n, (∀ k, lo ≤ k → k < tickets.length → k % n ≠ p) → held p = 0

theorem TicketRing.start (hheld : ∀ p < n, held p = 0) :
    TicketRing n ([] : List α) 0 held where
  lap := by simp
  live := by simp
  free := fun p hp _ => hheld p hp

/-- The slot of the next ticket is free where it does not complete a lap. -/
theorem TicketRing.next_free (h : TicketRing n tickets lo held)
    (hroom : tickets.length < lo + n) (hn : 0 < n) :
    held (tickets.length % n) = 0 := by
  apply h.free _ (Nat.mod_lt _ hn)
  intro k hlo hk hmod
  have := mod_inj_of_lap (a := lo) (n := n) (j := k) (k := tickets.length) ⟨hlo, by omega⟩
    ⟨by omega, hroom⟩ hmod
  omega

/-- A new ticket, whose slot gets what it is for. -/
theorem TicketRing.push (h : TicketRing n tickets lo held) (hroom : tickets.length < lo + n)
    (hn : 0 < n) (hle : lo ≤ tickets.length)
    (hheld : ∀ p, held' p = held p + if p = tickets.length % n then {x} else 0) :
    TicketRing n (tickets ++ [x]) lo held' where
  lap := by
    rw [List.length_append, List.length_singleton]
    exact hroom
  live := by
    intro k y hlo hk
    rcases Nat.lt_trichotomy k tickets.length with hlt | rfl | hgt
    · rw [List.getElem?_append_left hlt] at hk
      have hne : k % n ≠ tickets.length % n := by
        intro hmod
        have := mod_inj_of_lap (a := lo) (n := n) (j := k) (k := tickets.length) ⟨hlo, by omega⟩
          ⟨by omega, hroom⟩ hmod
        omega
      rw [hheld, if_neg hne, h.live k y hlo hk, add_zero]
    · obtain rfl : x = y := by simpa using hk
      rw [hheld, if_pos rfl, h.next_free hroom hn, zero_add]
    · rw [List.getElem?_eq_none (by simpa using hgt)] at hk
      cases hk
  free := by
    intro p hp hno
    have hlast : p ≠ tickets.length % n := by
      intro heq
      exact hno tickets.length hle (by simp) heq.symm
    rw [hheld, if_neg hlast, add_zero]
    exact h.free p hp fun k hlo hk => hno k hlo (by rw [List.length_append]; omega)

/-- The oldest outstanding ticket is served, and its slot emptied. -/
theorem TicketRing.pop (h : TicketRing n tickets lo held)
    (hheld : ∀ p, held' p = if p = lo % n then 0 else held p) :
    TicketRing n tickets (lo + 1) held' where
  lap := by
    have := h.lap
    omega
  live := by
    intro k x hlo hk
    have hlt : k < tickets.length := (List.getElem?_eq_some_iff.mp hk).1
    have hne : k % n ≠ lo % n := by
      intro hmod
      have hlap := h.lap
      have := mod_inj_of_lap (a := lo) (n := n) (j := k) (k := lo) ⟨by omega, by omega⟩
        ⟨le_rfl, by omega⟩ hmod
      omega
    rw [hheld, if_neg hne]
    exact h.live k x (by omega) hk
  free := by
    intro p hp hno
    rw [hheld]
    split_ifs with heq
    · rfl
    · apply h.free p hp
      intro k hlo hk
      rcases Nat.eq_or_lt_of_le hlo with rfl | hlt
      · exact fun hmod => heq hmod.symm
      · exact hno k hlt hk

/-- Another way to keep the same things. -/
theorem TicketRing.congr (h : TicketRing n tickets lo held) (hheld : ∀ p, held' p = held p) :
    TicketRing n tickets lo held' := by
  obtain rfl : held' = held := funext hheld
  exact h

/-- With no ticket outstanding every slot is empty. -/
theorem TicketRing.empty (h : TicketRing n tickets lo held) (hall : tickets.length ≤ lo)
    (hp : p < n) :
    held p = 0 :=
  h.free p hp fun k hlo hk => by omega

end LdacsSdk.Library
