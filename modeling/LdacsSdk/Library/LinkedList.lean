import Mathlib.Tactic

/-!
# Linked lists of nodes

A list is a first node and a link from each node to the next one; the nodes carry their data
elsewhere. A list that following the links passes is finite and acyclic. The operations on such a
list are a parameter with a contract, so that a client relies on the contract alone; the usual
walks along the links meet it.
-/
namespace LdacsSdk.Library

variable {α : Type*}

/-- Following the links from `p` passes the nodes of a list and comes to an end. -/
def Follows (next : α → Option α) : List α → Option α → Prop
  | [], p => p = none
  | a :: l, p => p = some a ∧ Follows next l (next a)

variable {next next' : α → Option α} {p : Option α} {a e : α} {l l' r r' : List α}

theorem Follows.unique (h : Follows next l p) (h' : Follows next l' p) : l = l' := by
  induction l generalizing l' p with
  | nil =>
    cases l' with
    | nil => rfl
    | cons b l' => exact absurd (h.symm.trans h'.1) (by simp)
  | cons a l ih =>
    cases l' with
    | nil => exact absurd (h.1.symm.trans h') (by simp)
    | cons b l' =>
      obtain rfl : a = b := Option.some.inj (h.1.symm.trans h'.1)
      have htail := ih h.2 h'.2
      rw [htail]

theorem Follows.drop (h : Follows next (l ++ a :: r) p) : Follows next (a :: r) (some a) := by
  induction l generalizing p with
  | nil => exact ⟨rfl, h.2⟩
  | cons b l ih => exact ih h.2

/-- No node is passed twice. -/
theorem Follows.nodup (h : Follows next l p) : l.Nodup := by
  induction l generalizing p with
  | nil => exact List.nodup_nil
  | cons a l ih =>
    refine List.nodup_cons.mpr ⟨fun hmem => ?_, ih h.2⟩
    obtain ⟨x, y, rfl⟩ := List.append_of_mem hmem
    -- from the second `a` the links would pass the same nodes as from the first
    have hfirst : Follows next (a :: (x ++ a :: y)) (some a) := ⟨rfl, h.2⟩
    have hsame := hfirst.unique h.2.drop
    have hlen := congrArg List.length hsame
    simp only [List.length_cons, List.length_append] at hlen
    omega

/-- A node whose link leads back to it is on no list. -/
theorem not_follows_of_loop (h : next a = some a) : ¬Follows next l (some a) := by
  induction l with
  | nil => simp [Follows]
  | cons b l ih =>
    rintro ⟨hb, hl⟩
    cases hb
    exact ih (h ▸ hl)

theorem Follows.congr (h : Follows next l p) (hnext : ∀ b ∈ l, next' b = next b) :
    Follows next' l p := by
  induction l generalizing p with
  | nil => exact h
  | cons a l ih =>
    have htail := ih h.2 fun b hb => hnext b (List.mem_cons_of_mem _ hb)
    rw [← hnext a (by simp)] at htail
    exact ⟨h.1, htail⟩

/-- Another list behind `e`, when the links in front of it stay. -/
theorem Follows.splice (h : Follows next (l ++ e :: r) p) (hnext : ∀ b ∈ l, next' b = next b)
    (hr : Follows next' r' (next' e)) : Follows next' (l ++ e :: r') p := by
  induction l generalizing p with
  | nil => exact ⟨h.1, hr⟩
  | cons a l ih =>
    have htail := ih h.2 fun b hb => hnext b (List.mem_cons_of_mem _ hb)
    rw [← hnext a (by simp)] at htail
    exact ⟨h.1, htail⟩

section Linking

variable [DecidableEq α] {t : α}

theorem Follows.pushFront (h : Follows next l p) (ht : t ∉ l) :
    Follows (Function.update next t p) (t :: l) (some t) := by
  refine ⟨rfl, ?_⟩
  rw [Function.update_self]
  exact h.congr fun b hb => Function.update_of_ne (ne_of_mem_of_not_mem hb ht) _ _

theorem Follows.insertBehind (h : Follows next (l ++ e :: r) p) (ht : t ∉ l ++ e :: r) :
    Follows (Function.update (Function.update next t (next e)) e (some t)) (l ++ e :: t :: r)
      p := by
  obtain ⟨-, her, hle⟩ := List.nodup_append.mp h.nodup
  have hmem {b : α} (hb : b ∈ l ++ e :: r) : b ≠ t := ne_of_mem_of_not_mem hb ht
  obtain ⟨next', hnext'⟩ :
      ∃ f, f = Function.update (Function.update next t (next e)) e (some t) := ⟨_, rfl⟩
  have hother {b : α} (hb : b ≠ e) (hbt : b ≠ t) : next' b = next b := by
    rw [hnext', Function.update_of_ne hb, Function.update_of_ne hbt]
  have he : next' e = some t := by rw [hnext', Function.update_self]
  have hself : next' t = next e := by
    rw [hnext', Function.update_of_ne (hmem (by simp)).symm, Function.update_self]
  have hbehind : Follows next' r (next e) := h.drop.2.congr fun b hb =>
    hother (ne_of_mem_of_not_mem hb (List.nodup_cons.mp her).1) (hmem (by simp [hb]))
  have htail : Follows next' (t :: r) (next' e) := ⟨he, by rwa [hself]⟩
  rw [← hnext']
  exact h.splice (fun b hb => hother (hle b hb e (by simp)) (hmem (by simp [hb]))) htail

theorem Follows.unlinkBehind (h : Follows next (l ++ e :: t :: r) p) :
    Follows (Function.update next e (next t)) (l ++ e :: r) p := by
  obtain ⟨-, her, hle⟩ := List.nodup_append.mp h.nodup
  have hnot : e ∉ r := fun he => (List.nodup_cons.mp her).1 (by simp [he])
  apply h.splice fun b hb => Function.update_of_ne (hle b hb e (by simp)) _ _
  rw [Function.update_self]
  exact h.drop.2.2.congr fun b hb => Function.update_of_ne (ne_of_mem_of_not_mem hb hnot) _ _

end Linking

/-- A first node and the link of each node. -/
structure Links (α : Type*) where
  head : Option α
  next : α → Option α

/-- The list is finite and acyclic, and these are its nodes. -/
def Links.Holds (L : Links α) (l : List α) : Prop := Follows L.next l L.head

/-- Insertion by a comparison and deletion. `none` where they crash or do not return. -/
structure ListOps (α : Type*) where
  insertInorder : (α → α → ℤ) → Links α → α → Option (Links α)
  delete : Links α → α → Option (Links α)

/-- What the operations do to finite acyclic lists: a new node goes into a list in order of a key
that `cmp` compares, a node of a list is taken out, and a list without the node stays as it is if
the deletion returns. -/
structure ListOps.InOrder (u : ListOps α) : Prop where
  insertInorder : ∀ (key : α → ℕ) {cmp : α → α → ℤ} {L : Links α} {l : List α} {t : α},
    (∀ a b, cmp a b < 0 ↔ key a < key b) → L.Holds l →
    l.Pairwise (fun a b => key a ≤ key b) → t ∉ l →
    ∃ L' l', u.insertInorder cmp L t = some L' ∧ L'.Holds l' ∧ l'.Perm (t :: l) ∧
      l'.Pairwise fun a b => key a ≤ key b
  delete : ∀ {L : Links α} {l r : List α} {t : α}, L.Holds (l ++ t :: r) →
    ∃ L', u.delete L t = some L' ∧ L'.Holds (l ++ r)
  delete_absent : ∀ {L L' : Links α} {l : List α} {t : α}, L.Holds l → t ∉ l →
    u.delete L t = some L' → L'.Holds l

/-! ### Walking along the links -/

section Walking

variable [DecidableEq α] (below : α → Prop) [DecidablePred below]

/-- The last node of a run of nodes that are `below`, from a node that is taken to be. -/
def lastBelow (next : α → Option α) : ℕ → α → Option α
  | 0, _ => none
  | fuel + 1, e =>
    match next e with
    | none => some e
    | some e' => if below e' then lastBelow next fuel e' else some e

/-- Insertion in front of the first node that does not compare below. -/
def walkInsert (fuel : ℕ) (cmp : α → α → ℤ) (L : Links α) (t : α) : Option (Links α) :=
  match L.head with
  | none => some ⟨some t, Function.update L.next t none⟩
  | some h =>
    if 0 ≤ cmp h t then some ⟨some t, Function.update L.next t (some h)⟩
    else
      (lastBelow (fun e => cmp e t < 0) L.next fuel h).map fun e =>
        ⟨L.head, Function.update (Function.update L.next t (L.next e)) e (some t)⟩

/-- Deletion behind the last node in front of `t`. An empty list has no node to begin at. -/
def walkDelete (fuel : ℕ) (L : Links α) (t : α) : Option (Links α) :=
  match L.head with
  | none => none
  | some h =>
    if h = t then some ⟨L.next h, L.next⟩
    else
      (lastBelow (fun e => e ≠ t) L.next fuel h).map fun e =>
        if (L.next e).isSome then ⟨L.head, Function.update L.next e (L.next t)⟩ else L

/-- The operations that walk along the links, for finitely many nodes. -/
def walking (α : Type*) [DecidableEq α] [Fintype α] : ListOps α where
  insertInorder := walkInsert (Fintype.card α)
  delete := walkDelete (Fintype.card α)

omit [DecidableEq α] in
theorem lastBelow_spec {fuel : ℕ} (h : Follows next (e :: l) (some e)) (hfuel : l.length < fuel) :
    ∃ x b y, lastBelow below next fuel e = some b ∧ e :: l = x ++ b :: y ∧
      (∀ a ∈ x ++ [b], a = e ∨ below a) ∧ ∀ a ∈ y.head?, ¬below a := by
  induction l generalizing e fuel with
  | nil =>
    obtain ⟨fuel, rfl⟩ : ∃ k, fuel = k + 1 := Nat.exists_eq_succ_of_ne_zero (by omega)
    have hnext : next e = none := h.2
    exact ⟨[], e, [], by simp [lastBelow, hnext], rfl, by simp, by simp⟩
  | cons c l ih =>
    obtain ⟨fuel, rfl⟩ : ∃ k, fuel = k + 1 := Nat.exists_eq_succ_of_ne_zero (by omega)
    have hnext : next e = some c := h.2.1
    by_cases hc : below c
    · obtain ⟨x, b, y, hlast, hsplit, hx, hy⟩ := ih ⟨rfl, h.2.2⟩ (by simpa using hfuel)
      refine ⟨e :: x, b, y, by simp [lastBelow, hnext, hc, hlast], by simp [hsplit], ?_, hy⟩
      intro a ha
      rcases List.mem_cons.mp ha with rfl | ha
      · exact .inl rfl
      · exact .inr ((hx a ha).elim (fun hac => hac ▸ hc) id)
    · exact ⟨[], e, c :: l, by simp [lastBelow, hnext, hc], rfl, by simp, by simpa using hc⟩

variable {L : Links α} {t : α} {fuel : ℕ}

theorem walkInsert_spec {cmp : α → α → ℤ} {key : α → ℕ}
    (hcmp : ∀ a b, cmp a b < 0 ↔ key a < key b) (h : L.Holds l) (hfuel : l.length ≤ fuel)
    (hsorted : l.Pairwise fun a b => key a ≤ key b) (ht : t ∉ l) :
    ∃ L' l', walkInsert fuel cmp L t = some L' ∧ L'.Holds l' ∧ l'.Perm (t :: l) ∧
      l'.Pairwise fun a b => key a ≤ key b := by
  cases l with
  | nil =>
    have hhead : L.head = none := h
    refine ⟨⟨some t, Function.update L.next t none⟩, [t], ?_, ?_, .refl _, by simp⟩
    · simp [walkInsert, hhead]
    · exact Follows.pushFront (l := []) rfl ht
  | cons a l =>
    have hhead : L.head = some a := h.1
    have hfollows : Follows L.next (a :: l) (some a) := hhead ▸ h
    by_cases hge : 0 ≤ cmp a t
    · have hkey : key t ≤ key a := by
        have hnot := (hcmp a t).not.mp (by omega)
        omega
      refine ⟨⟨some t, Function.update L.next t (some a)⟩, t :: a :: l, ?_,
        hfollows.pushFront ht, .refl _, List.pairwise_cons.mpr ⟨fun b hb => ?_, hsorted⟩⟩
      · simp [walkInsert, hhead, hge]
      · rcases List.mem_cons.mp hb with rfl | hb
        · exact hkey
        · exact hkey.trans ((List.pairwise_cons.mp hsorted).1 b hb)
    · obtain ⟨x, b, y, hlast, hsplit, hx, hy⟩ :=
        lastBelow_spec (fun e => cmp e t < 0) hfollows hfuel
      rw [hsplit] at ht hsorted hfollows
      have hbefore : ∀ c ∈ x ++ [b], key c < key t := fun c hc => by
        rcases hx c hc with rfl | hlt
        · exact (hcmp c t).mp (by omega)
        · exact (hcmp c t).mp hlt
      refine ⟨⟨some a, Function.update (Function.update L.next t (L.next b)) b (some t)⟩,
        x ++ b :: t :: y, ?_, hfollows.insertBehind ht, ?_, ?_⟩
      · simp [walkInsert, hhead, hge, hlast]
      · have hperm : (x ++ [b] ++ t :: y).Perm (t :: (x ++ [b] ++ y)) := List.perm_middle
        rw [hsplit]
        simpa using hperm
      · -- everything in front of `t` is below it, and the first node behind it is not
        have hsorted' : (x ++ [b] ++ y).Pairwise fun a b => key a ≤ key b := by simpa using hsorted
        obtain ⟨hfront, hback, hacross⟩ := List.pairwise_append.mp hsorted'
        have hbehind : ∀ c ∈ y, key t ≤ key c := by
          cases y with
          | nil => simp
          | cons d y =>
            have hd : key t ≤ key d := Nat.not_lt.mp ((hcmp d t).not.mp (hy d rfl))
            intro c hc
            rcases List.mem_cons.mp hc with rfl | hc
            · exact hd
            · exact hd.trans ((List.pairwise_cons.mp hback).1 c hc)
        have hjoined : (x ++ [b] ++ t :: y).Pairwise fun a b => key a ≤ key b := by
          refine List.pairwise_append.mpr ⟨hfront, List.pairwise_cons.mpr ⟨hbehind, hback⟩, ?_⟩
          intro c hc d hd
          rcases List.mem_cons.mp hd with rfl | hd
          · exact (hbefore c hc).le
          · exact hacross c hc d hd
        simpa using hjoined

theorem walkDelete_spec (h : L.Holds (l ++ t :: r)) (hfuel : (l ++ t :: r).length ≤ fuel) :
    ∃ L', walkDelete fuel L t = some L' ∧ L'.Holds (l ++ r) := by
  have hnodup := h.nodup
  cases l with
  | nil =>
    have hhead : L.head = some t := h.1
    exact ⟨⟨L.next t, L.next⟩, by simp [walkDelete, hhead], h.2⟩
  | cons a l =>
    have hhead : L.head = some a := h.1
    have hne : a ≠ t := fun hat => by simp [hat] at hnodup
    have hfollows : Follows L.next (a :: (l ++ t :: r)) (some a) := hhead ▸ h
    obtain ⟨x, b, y, hlast, hsplit, hx, hy⟩ :=
      lastBelow_spec (fun e => e ≠ t) hfollows hfuel
    have hxt : t ∉ x ++ [b] := fun ht => by
      rcases hx t ht with hta | hself
      · exact hne hta.symm
      · exact hself rfl
    obtain ⟨hlt, htr⟩ : t ∉ a :: l ∧ t ∉ r := by
      obtain ⟨-, htr, hdisjoint⟩ := List.nodup_append.mp hnodup
      exact ⟨fun ht => hdisjoint t ht t (by simp) rfl, (List.nodup_cons.mp htr).1⟩
    have hty : t ∈ y := by
      have hmem : t ∈ x ++ [b] ++ y := by
        rw [List.append_assoc, List.singleton_append, ← hsplit]
        simp
      exact (List.mem_append.mp hmem).resolve_left hxt
    cases y with
    | nil => cases hty
    | cons c y =>
      obtain rfl : c = t := not_not.mp (hy c rfl)
      -- the links reach `c` once, so both sides of it are those that the walk found
      have hboth : a :: l ++ c :: r = x ++ [b] ++ c :: y := by simpa using hsplit
      obtain ⟨hfront, -, rfl⟩ := (List.append_cons_inj_of_notMem hlt htr).mp hboth
      rw [hsplit] at hfollows
      refine ⟨⟨some a, Function.update L.next b (L.next c)⟩, ?_, ?_⟩
      · have hb : L.next b = some c := hfollows.drop.2.1
        simp [walkDelete, hhead, hne, hlast, hb]
      · rw [hfront, List.append_assoc, List.singleton_append]
        exact hfollows.unlinkBehind

theorem walkDelete_absent {L' : Links α} (h : L.Holds l) (hfuel : l.length ≤ fuel) (ht : t ∉ l)
    (hL : walkDelete fuel L t = some L') : L'.Holds l := by
  cases l with
  | nil =>
    have hhead : L.head = none := h
    simp [walkDelete, hhead] at hL
  | cons a l =>
    have hhead : L.head = some a := h.1
    have hne : a ≠ t := fun hat => ht (by simp [hat])
    have hfollows : Follows L.next (a :: l) (some a) := hhead ▸ h
    obtain ⟨x, b, y, hlast, hsplit, -, hy⟩ :=
      lastBelow_spec (fun e => e ≠ t) hfollows hfuel
    -- the walk did not stop in front of `t`, so it came to the end
    have hend : y = [] := by
      cases y with
      | nil => rfl
      | cons c y =>
        obtain rfl : c = t := not_not.mp (hy c rfl)
        exact absurd (hsplit ▸ ht) (by simp)
    have hb : L.next b = none := by
      rw [hsplit, hend] at hfollows
      exact hfollows.drop.2
    obtain rfl : L = L' := by simpa [walkDelete, hhead, hne, hlast, hb] using hL
    exact h

theorem walking_inOrder (α : Type*) [DecidableEq α] [Fintype α] : (walking α).InOrder where
  insertInorder _ _ _ _ _ hcmp h hsorted ht :=
    walkInsert_spec hcmp h h.nodup.length_le_card hsorted ht
  delete h := walkDelete_spec h h.nodup.length_le_card
  delete_absent h := walkDelete_absent h h.nodup.length_le_card

end Walking

end LdacsSdk.Library
