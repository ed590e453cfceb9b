import LdacsSdk.Scheduler.Conservation

/-!
# Fairness over runs

Two users with unmet requests are served in turns of one packet each: the one that was served
goes behind the other. A packet that is cut short puts its user back to the front with what it
is still owed in its deficit counter, and the next call adds a whole packet to that, so from then
on the turns can be lost. As long as no call hands out resources while one of the two is listed
with a deficit, what they were granted stays within a packet of each other.
-/
namespace LdacsSdk

open Library

/-- The deficit counter of user `i`. -/
def Drr.deficit (drr : Drr) (i : ℕ) : ℕ := (drr.reqEntitys i).dc

@[simp] theorem deficit_ldReqUpdate (drr : Drr) (sac reqSz i : ℕ) :
    (ldReqUpdate drr sac reqSz).deficit i = drr.deficit i := by
  simp only [Drr.deficit, ldReqUpdate, Function.update_apply]
  split_ifs with hi
  · rw [hi]
  · rfl

/-- A scheduler with the bytes granted to every user over the run so far. -/
structure Tally where
  drr : Drr
  granted : ℕ → ℕ

/-- One call; an allocation adds its allocation map to what was granted. -/
def tallyStep (s : Tally) : DrrOp → Option Tally
  | .reqUpdate sac reqSz => some { s with drr := ldReqUpdate s.drr sac.toNat reqSz.toNat }
  | .resourceAlloc fuel pktSize w wMin =>
    (drrResourceAlloc fuel s.drr pktSize.toNat w.toNat wMin.toNat).map fun r =>
      { drr := r.drr, granted := fun i => s.granted i + r.allocMap i }

theorem drrStep_of_tallyStep {s t : Tally} {op : DrrOp} (h : tallyStep s op = some t) :
    drrStep s.drr op = some t.drr := by
  have hproj : drrStep s.drr op = (tallyStep s op).map Tally.drr := by
    cases op with
    | reqUpdate sac reqSz => rfl
    | resourceAlloc fuel pktSize w wMin => simp [tallyStep, drrStep, Function.comp_def]
  rw [hproj, h]
  rfl

/-- A call of the runs that fairness is about: requests name users, packets have the one size,
and the users `i` and `j` have unmet demand at the end of every allocation. -/
def FairCall (pktSize : UInt64) (i j : ℕ) (s : Tally) : DrrOp → Prop
  | .reqUpdate sac _ => sac.toNat < s.drr.maxSz
  | .resourceAlloc fuel p w wMin =>
    p = pktSize ∧ ∀ t ∈ tallyStep s (.resourceAlloc fuel p w wMin),
      0 < t.drr.req i ∧ 0 < t.drr.req j

instance (pktSize : UInt64) (i j : ℕ) (s : Tally) :
    (op : DrrOp) → Decidable (FairCall pktSize i j s op)
  | .reqUpdate _ _ => inferInstanceAs (Decidable (_ < _))
  | .resourceAlloc _ _ _ _ => inferInstanceAs (Decidable (_ ∧ _))

/-- An allocation that hands out resources finds neither user in the list with a deficit, so
neither was cut short before. -/
def NoLeftover (i j : ℕ) (s : Tally) : DrrOp → Prop
  | .reqUpdate _ _ => True
  | .resourceAlloc _ _ w wMin =>
    effectiveW s.drr w.toNat ≤ wMin.toNat ∨
      ∀ k ∈ s.drr.activeList.nodes, k = i ∨ k = j → s.drr.deficit k = 0

instance (i j : ℕ) (s : Tally) : (op : DrrOp) → Decidable (NoLeftover i j s op)
  | .reqUpdate _ _ => inferInstanceAs (Decidable True)
  | .resourceAlloc _ _ _ _ => inferInstanceAs (Decidable (_ ∨ _))

/-! ### Entering the list -/

/-- The active list after the first `n` users were looked at: those who entered stand behind the
others, in the order of their indices and with nothing owed. -/
structure Enrolled (drr : Drr) (n : ℕ) (fresh : List ℕ) (d : Drr) : Prop where
  nodesEq : d.activeList.nodes = drr.activeList.nodes ++ fresh
  ascending : fresh.Pairwise (· < ·)
  freshLt : ∀ i ∈ fresh, i < n
  deficitEq : ∀ i ∈ drr.activeList.nodes, d.deficit i = drr.deficit i
  freshDeficit : ∀ i ∈ fresh, d.deficit i = 0

theorem Enrolled.next {drr : Drr} {n : ℕ} {fresh : List ℕ} {s : Drr × ℕ} (hs : s.1.Sound)
    (h : Enrolled drr n fresh s.1) : ∃ fresh', Enrolled drr (n + 1) fresh' (drrRegister s n).1 := by
  have hlater (i : ℕ) (hi : i ∈ fresh) : i < n + 1 := (h.freshLt i hi).trans (Nat.lt_succ_self n)
  rw [drrRegister_eq]
  split_ifs with hzero
  · exact ⟨fresh, h.nodesEq, h.ascending, hlater, h.deficitEq, h.freshDeficit⟩
  · obtain ⟨hmax, hlt⟩ := hs.requesting n (Nat.pos_of_ne_zero hzero)
    have hfound := hs.checkExist_iff hlt
    unfold Drr.enter
    split_ifs with hin
    · exact ⟨fresh, h.nodesEq, h.ascending, hlater, h.deficitEq, h.freshDeficit⟩
    · have hout : n ∉ s.1.activeList.nodes := mt hfound.mpr hin
      rw [rbufferPushBack_room (hs.room hmax hout)]
      have hother {i : ℕ} (hi : i ∈ s.1.activeList.nodes) : i ≠ n := by
        rintro rfl
        exact hout hi
      rw [h.nodesEq] at hother
      refine ⟨fresh ++ [n], by simp [h.nodesEq], ?_, ?_, fun i hi => ?_, fun i hi => ?_⟩
      · exact List.pairwise_append.mpr ⟨h.ascending, List.pairwise_singleton _ _,
          fun i hi k hk => List.mem_singleton.mp hk ▸ h.freshLt i hi⟩
      · intro i hi
        rcases List.mem_append.mp hi with hi | hi
        · exact hlater i hi
        · rw [List.mem_singleton.mp hi]
          exact Nat.lt_succ_self n
      · have hne : i ≠ n := hother (List.mem_append_left _ hi)
        simpa [Drr.deficit, hne] using h.deficitEq i hi
      · rcases List.mem_append.mp hi with hi | hi
        · have hne : i ≠ n := hother (List.mem_append_right _ hi)
          simpa [Drr.deficit, hne] using h.freshDeficit i hi
        · simp [Drr.deficit, List.mem_singleton.mp hi]

theorem enrolled_upto {drr : Drr} (h : drr.Sound) (n : ℕ) :
    ∃ fresh, Enrolled drr n fresh ((List.range n).foldl drrRegister (drr, 0)).1 := by
  induction n with
  | zero => exact ⟨[], by simp, .nil, by simp, fun _ _ => rfl, by simp⟩
  | succ n ih =>
    obtain ⟨fresh, hfresh⟩ := ih
    rw [List.range_succ, List.foldl_append]
    exact hfresh.next (registered_upto h n).sound

theorem enrolled_enter {drr : Drr} (h : drr.Sound) (w : ℕ) :
    ∃ fresh, Enrolled drr drr.maxSz fresh (drrEnter drr w).drr := enrolled_upto h _

/-! ### Turns -/

/-- The users `a` and `b` have nothing owed and are served in turns: both were granted the same
and `a` stands before `b`, or `a` was granted one packet more and stands behind. -/
structure TakesTurns (pktSize a b : ℕ) (drr : Drr) (granted : ℕ → ℕ) : Prop where
  deficitA : drr.deficit a = 0
  deficitB : drr.deficit b = 0
  turn : [a, b].Sublist drr.activeList.nodes ∧ granted a = granted b ∨
    [b, a].Sublist drr.activeList.nodes ∧ granted a = granted b + pktSize

/-- One of the users `a` and `b`, both listed, was cut short. -/
structure CutShort (pktSize a b : ℕ) (drr : Drr) (granted : ℕ → ℕ) : Prop where
  memA : a ∈ drr.activeList.nodes
  memB : b ∈ drr.activeList.nodes
  owed : 0 < drr.deficit a ∨ 0 < drr.deficit b
  leA : granted a ≤ granted b + pktSize
  leB : granted b ≤ granted a + pktSize

/-- What the head of a list leaves of two users, one of them the head. -/
theorem mem_of_pair_sublist {x y : ℕ} {rest : List ℕ} (h : [x, y].Sublist (x :: rest)) :
    y ∈ rest := by
  rcases List.sublist_cons_iff.mp h with h | ⟨r, hr, h⟩
  · exact h.subset (by simp)
  · obtain rfl : [y] = r := by simpa using hr
    exact List.singleton_sublist.mp h

theorem not_pair_sublist {x y : ℕ} {rest : List ℕ} (hne : x ≠ y) (hnodup : (x :: rest).Nodup) :
    ¬[y, x].Sublist (x :: rest) := by
  intro h
  rcases List.sublist_cons_iff.mp h with h | ⟨r, hr, -⟩
  · exact (List.nodup_cons.mp hnodup).1 (h.subset (by simp))
  · exact hne (by simpa using (List.cons.inj hr).1.symm)

theorem pair_sublist_of_cons {x y i : ℕ} {rest : List ℕ} (hne : x ≠ i)
    (h : [x, y].Sublist (i :: rest)) : [x, y].Sublist rest := by
  rcases List.sublist_cons_iff.mp h with h | ⟨r, hr, -⟩
  · exact h
  · exact absurd (List.cons.inj hr).1 hne

theorem pair_sublist_concat {x y : ℕ} {rest : List ℕ} (h : y ∈ rest) :
    [y, x].Sublist (rest ++ [x]) :=
  (List.singleton_sublist.mpr h).append (List.Sublist.refl [x])

namespace Granting

variable {drr₀ : Drr} {supply : ℕ} {s s' : Allocation} {pktSize wMin fuel i a b : ℕ}
  {rest : List ℕ} {v : Serving} {g : ℕ → ℕ}

theorem served_allocMap (h : Granting drr₀ supply s) (hi : i ∈ s.drr.activeList.nodes)
    (rb : RBuffer ℕ) (v : Serving) :
    (s.served i rb v).allocMap = Function.update s.allocMap i v.alloc := by
  simp [Allocation.served, h.sound.sac_eq (h.sound.listed i hi).2]

/-- A user with nothing owed that is served and not done is given a packet and goes to the back,
or is given the rest of the resources and goes to the front. -/
theorem serve_head (h : Granting drr₀ supply s) (hnodes : s.drr.activeList.nodes = i :: rest)
    (hp : 0 < pktSize) (hpLt : pktSize < 2 ^ 64) (hquiet : s.drr.deficit i = 0) (hw : wMin < s.w)
    (hserve : whileLoop (serveRound pktSize wMin) fuel (s.serving pktSize i) = some v)
    (hreq : 0 < v.reqSz) (hs' : s' = s.served i { s.drr.activeList with nodes := rest } v) :
    s'.drr.activeList.nodes = rest ++ [i] ∧ s'.drr.deficit i = 0 ∧
        s'.allocMap i = s.allocMap i + pktSize ∨
      s'.drr.activeList.nodes = i :: rest ∧ 0 < s'.drr.deficit i ∧ s'.w = 0 ∧
        s.allocMap i ≤ s'.allocMap i ∧ s'.allocMap i ≤ s.allocMap i + pktSize := by
  have hi : i ∈ s.drr.activeList.nodes := by simp [hnodes]
  have hsac := h.sound.sac_eq (h.sound.listed i hi).2
  have hbal : (s.serving pktSize i).Balanced (drr₀.req i) (s.allocMap i + s.w) :=
    h.serving_balanced hi
  have hdc : (s.serving pktSize i).dc = pktSize := by
    have hzero : (s.drr.reqEntitys i).dc = 0 := hquiet
    simp [Allocation.serving, hzero, u64_natCast hpLt]
  have halloc : (s.serving pktSize i).alloc = s.allocMap i := by simp [Allocation.serving, hsac]
  -- the user is not done, so it stays in the list and keeps its deficit counter
  have hdone : v.alloc ≠ s.drr.reqSzs i := by
    have hdemand := (hbal.serve hserve).1.demandEq
    have hbefore := h.demandEq i
    rw [h.recorded i (by omega)]
    omega
  have hdeficit : s'.drr.deficit i = v.dc := by
    simp [hs', Drr.deficit, Allocation.served, hsac, hdone]
  have hmap : s'.allocMap i = v.alloc := by rw [hs', h.served_allocMap hi]; simp
  have hlist := h.served_activeList hnodes v
  rw [← hs', if_neg hdone] at hlist
  rw [hdeficit, hmap, hlist]
  rcases hbal.serve_packet hp hdc hw hserve hreq with ⟨-, rfl⟩ | ⟨hshort, rfl⟩
  · refine .inl ⟨rfl, ?_, ?_⟩ <;> simp [Serving.give, hdc, halloc]
  · have hwEq : (s.serving pktSize i).w = s.w := rfl
    refine .inr ⟨rfl, ?_, ?_, ?_, ?_⟩
    · simp only [Serving.give]
      omega
    · simp [hs', Allocation.served, Serving.give]
    · simp [Serving.give, halloc]
    · simp only [Serving.give, halloc]
      omega

/-- The other users' turns leave the order and the books of two users alone. -/
theorem serve_other (h : Granting drr₀ supply s) (hnodes : s.drr.activeList.nodes = i :: rest)
    (v : Serving) (ha : a ≠ i) (hb : b ≠ i)
    (ht : TakesTurns pktSize a b s.drr fun k => g k + s.allocMap k) :
    TakesTurns pktSize a b (s.served i { s.drr.activeList with nodes := rest } v).drr
      fun k => g k + (s.served i { s.drr.activeList with nodes := rest } v).allocMap k := by
  have hi : i ∈ s.drr.activeList.nodes := by simp [hnodes]
  have hdeficit {k : ℕ} (hk : k ≠ i) :
      (s.served i { s.drr.activeList with nodes := rest } v).drr.deficit k = s.drr.deficit k :=
    served_dc_of_ne hk _ v
  have hsub {x y : ℕ} (hx : x ≠ i) (hxy : [x, y].Sublist s.drr.activeList.nodes) :
      [x, y].Sublist
        (s.served i { s.drr.activeList with nodes := rest } v).drr.activeList.nodes := by
    rw [hnodes] at hxy
    have hrest := pair_sublist_of_cons hx hxy
    rw [h.served_activeList hnodes]
    dsimp only
    split_ifs
    · exact hrest
    · exact hrest.cons i
    · exact List.sublist_append_of_sublist_left hrest
  constructor
  · rw [hdeficit ha]
    exact ht.deficitA
  · rw [hdeficit hb]
    exact ht.deficitB
  · simp only [h.served_allocMap hi, Function.update_of_ne ha, Function.update_of_ne hb]
    exact ht.turn.imp (fun hab => ⟨hsub ha hab.1, hab.2⟩) (fun hba => ⟨hsub hb hba.1, hba.2⟩)

/-- A round that leaves both users with unmet requests passes the turn on, or cuts a packet short
and ends the call. -/
theorem turn (h : Granting drr₀ supply s) (hne : a ≠ b) (hp : 0 < pktSize)
    (hpLt : pktSize < 2 ^ 64) (hround : drrRound pktSize wMin s = some (.again s'))
    (hreqA : 0 < s'.drr.req a) (hreqB : 0 < s'.drr.req b)
    (ht : TakesTurns pktSize a b s.drr fun k => g k + s.allocMap k) :
    (TakesTurns pktSize a b s'.drr fun k => g k + s'.allocMap k) ∨
      s'.w = 0 ∧ CutShort pktSize a b s'.drr fun k => g k + s'.allocMap k := by
  obtain ⟨i, rest, v, hw, hnodes, hserve, hs'⟩ := drrRound_again hround
  have hi : i ∈ s.drr.activeList.nodes := by simp [hnodes]
  have hnodup := h.sound.nodup
  rw [hnodes] at hnodup
  have hothers {k : ℕ} (hk : k ≠ i) :
      s'.drr.deficit k = s.drr.deficit k ∧ s'.allocMap k = s.allocMap k := by
    rw [hs', h.served_allocMap hi, Function.update_of_ne hk]
    exact ⟨served_dc_of_ne hk _ v, rfl⟩
  have hvReq : s'.drr.req i = v.reqSz := by rw [hs', served_req, if_pos rfl]
  by_cases ha : a = i
  · -- `a` is at the head, so both were granted the same
    subst ha
    have hserved := h.serve_head hnodes hp hpLt ht.deficitA hw hserve (hvReq ▸ hreqA) hs'
    obtain ⟨hdeficit, hmap⟩ := hothers hne.symm
    have hturn := ht.turn
    rw [hnodes] at hturn
    obtain ⟨hab, hsame⟩ := hturn.resolve_right fun hba => not_pair_sublist hne hnodup hba.1
    have hmem := mem_of_pair_sublist hab
    rcases hserved with ⟨hlist, hquiet, hgot⟩ | ⟨hlist, howed, hw0, hge, hle⟩
    · refine .inl ⟨hquiet, hdeficit.trans ht.deficitB, .inr ⟨?_, ?_⟩⟩
      · rw [hlist]
        exact pair_sublist_concat hmem
      · omega
    · refine .inr ⟨hw0, by simp [hlist], by simp [hlist, hmem], .inl howed, ?_, ?_⟩
      · omega
      · omega
  · by_cases hb : b = i
    · -- `b` is at the head, so `a` was granted one packet more
      subst hb
      have hserved := h.serve_head hnodes hp hpLt ht.deficitB hw hserve (hvReq ▸ hreqB) hs'
      obtain ⟨hdeficit, hmap⟩ := hothers hne
      have hturn := ht.turn
      rw [hnodes] at hturn
      obtain ⟨hba, hmore⟩ := hturn.resolve_left fun hab => not_pair_sublist hne.symm hnodup hab.1
      have hmem := mem_of_pair_sublist hba
      rcases hserved with ⟨hlist, hquiet, hgot⟩ | ⟨hlist, howed, hw0, hge, hle⟩
      · refine .inl ⟨hdeficit.trans ht.deficitA, hquiet, .inl ⟨?_, ?_⟩⟩
        · rw [hlist]
          exact pair_sublist_concat hmem
        · omega
      · refine .inr ⟨hw0, by simp [hlist, hmem], by simp [hlist], .inr howed, ?_, ?_⟩
        · omega
        · omega
    · rw [hs']
      exact .inl (h.serve_other hnodes v ha hb ht)

theorem req_le (h : Granting drr₀ supply s) (k : ℕ) : s.drr.req k ≤ drr₀.req k := by
  have hdemand := h.demandEq k
  omega

theorem round_req_le (h : Granting drr₀ supply s)
    (hround : drrRound pktSize wMin s = some (.again s')) (k : ℕ) :
    s'.drr.req k ≤ s.drr.req k := by
  obtain ⟨i, rest, v, -, hnodes, hserve, rfl⟩ := drrRound_again hround
  have hi : i ∈ s.drr.activeList.nodes := by simp [hnodes]
  have hbal : (s.serving pktSize i).Balanced (drr₀.req i) (s.allocMap i + s.w) :=
    h.serving_balanced hi
  obtain ⟨hbal', hle⟩ := hbal.serve hserve
  rw [served_req]
  split_ifs with hk
  · have hdemand := h.demandEq i
    have hdemand' := hbal'.demandEq
    have hsupply' := hbal'.supplyEq
    have hwEq : (s.serving pktSize i).w = s.w := rfl
    rw [hk]
    omega
  · exact le_rfl

/-- The turns hold through a whole loop, up to a packet that is cut short at its end. -/
theorem turns (h : Granting drr₀ supply s) (hne : a ≠ b) (hp : 0 < pktSize)
    (hpLt : pktSize < 2 ^ 64) {r : Allocation}
    (hloop : whileLoop (drrRound pktSize wMin) fuel s = some r) (hreqA : 0 < r.drr.req a)
    (hreqB : 0 < r.drr.req b) (ht : TakesTurns pktSize a b s.drr fun k => g k + s.allocMap k) :
    (TakesTurns pktSize a b r.drr fun k => g k + r.allocMap k) ∨
      CutShort pktSize a b r.drr fun k => g k + r.allocMap k := by
  have hend := whileLoop_invariant (I := fun u => Granting drr₀ supply u ∧
      (0 < u.drr.req a → 0 < u.drr.req b →
        (TakesTurns pktSize a b u.drr fun k => g k + u.allocMap k) ∨
          u.w = 0 ∧ CutShort pktSize a b u.drr fun k => g k + u.allocMap k))
    (fun u u' ⟨hu, hturns⟩ hround => ⟨hu.round hround, fun ha hb => ?_⟩)
    (fun u u' hu hround => drrRound_leave hround ▸ hu) ⟨h, fun _ _ => .inl ht⟩ hloop
  · exact (hend.2 hreqA hreqB).imp_right And.right
  · have hw : wMin < u.w := by
      obtain ⟨_, _, _, hw, -⟩ := drrRound_again hround
      exact hw
    have hbefore := hturns (ha.trans_le (hu.round_req_le hround a))
      (hb.trans_le (hu.round_req_le hround b))
    exact hu.turn hne hp hpLt hround ha hb (hbefore.resolve_right (by omega))

end Granting

/-! ### Runs -/

/-- Between the calls: nothing was granted yet, or the two users take turns, or one of them was
cut short. -/
def Fair (pktSize a b : ℕ) (drr : Drr) (granted : ℕ → ℕ) : Prop :=
  drr.activeList.nodes = [] ∧ granted a = granted b ∨ TakesTurns pktSize a b drr granted ∨
    CutShort pktSize a b drr granted

section Calls

variable {drr : Drr} {g : ℕ → ℕ} {pktSize w wMin a b fuel : ℕ} {r : Allocation}

theorem Fair.le (h : Fair pktSize a b drr g) : g a ≤ g b + pktSize ∧ g b ≤ g a + pktSize := by
  rcases h with ⟨-, hsame⟩ | hturns | hcut
  · omega
  · have hturn := hturns.turn
    omega
  · exact ⟨hcut.leA, hcut.leB⟩

/-- Two numbers of an ascending list stand in it in their order. -/
theorem pair_sublist_of_lt {l : List ℕ} (hl : l.Pairwise (· < ·)) (ha : a ∈ l) (hb : b ∈ l)
    (hab : a < b) : [a, b].Sublist l := by
  have hnodup : [a, b].Nodup := by simp [hab.ne]
  have hsub : [a, b] ⊆ l := by simp [ha, hb]
  exact List.sublist_of_subperm_of_pairwise (List.subperm_of_subset hnodup hsub)
    (by simpa using hab) hl

/-- Users that enter together or stand in the list already take turns from then on. -/
theorem takesTurns_enter (h : drr.Sound) (hab : a < b) (hw : w < 2 ^ 64)
    (ha : 0 < drr.req a) (hb : 0 < drr.req b)
    (hbefore : drr.activeList.nodes = [] ∧ g a = g b ∨ TakesTurns pktSize a b drr g) :
    TakesTurns pktSize a b (drrEnter drr w).drr fun k => g k + (drrEnter drr w).allocMap k := by
  obtain ⟨fresh, hfresh⟩ := enrolled_enter h w
  have hnodes := hfresh.nodesEq
  rcases hbefore with ⟨hempty, hsame⟩ | hturns
  · have hgrant := granting_enter h hw
    rw [hempty, List.nil_append] at hnodes
    have hmem {k : ℕ} (hk : 0 < drr.req k) : k ∈ fresh := by
      rw [← hnodes]
      exact hgrant.waiting k (((registered_all h).reqEq k).symm ▸ hk)
    refine ⟨hfresh.freshDeficit a (hmem ha), hfresh.freshDeficit b (hmem hb), .inl ⟨?_, ?_⟩⟩
    · rw [hnodes]
      exact pair_sublist_of_lt hfresh.ascending (hmem ha) (hmem hb) hab
    · simpa [drrEnter] using hsame
  · have hboth : a ∈ drr.activeList.nodes ∧ b ∈ drr.activeList.nodes := by
      rcases hturns.turn with ⟨hsub, -⟩ | ⟨hsub, -⟩ <;>
        exact ⟨hsub.subset (by simp), hsub.subset (by simp)⟩
    refine ⟨(hfresh.deficitEq a hboth.1).trans hturns.deficitA,
      (hfresh.deficitEq b hboth.2).trans hturns.deficitB, ?_⟩
    rw [hnodes]
    exact hturns.turn.imp (fun hab => ⟨List.sublist_append_of_sublist_left hab.1, hab.2⟩)
      (fun hba => ⟨List.sublist_append_of_sublist_left hba.1, hba.2⟩)

/-- A call that hands out nothing only lets users enter. -/
theorem drrResourceAlloc_idle (hidle : effectiveW drr w ≤ wMin)
    (hr : drrResourceAlloc fuel drr pktSize w wMin = some r) : r = drrEnter drr w := by
  apply whileLoop_of_leave _ hr
  have hw : ¬(drrEnter drr w).w > wMin := Nat.not_lt.mpr hidle
  unfold drrRound
  rw [if_neg hw]

theorem CutShort.enter (h : drr.Sound) (hcut : CutShort pktSize a b drr g) :
    CutShort pktSize a b (drrEnter drr w).drr fun k => g k + (drrEnter drr w).allocMap k := by
  obtain ⟨fresh, hfresh⟩ := enrolled_enter h w
  refine ⟨?_, ?_, ?_, hcut.leA, hcut.leB⟩
  · rw [hfresh.nodesEq]
    exact List.mem_append_left _ hcut.memA
  · rw [hfresh.nodesEq]
    exact List.mem_append_left _ hcut.memB
  · rw [hfresh.deficitEq a hcut.memA, hfresh.deficitEq b hcut.memB]
    exact hcut.owed

/-- A call that does not serve a user with a leftover deficit is fair. -/
theorem Fair.call (h : Fair pktSize a b drr g) (hs : drr.Sound) (hab : a < b) (hp : 0 < pktSize)
    (hpLt : pktSize < 2 ^ 64) (hw : w < 2 ^ 64)
    (hr : drrResourceAlloc fuel drr pktSize w wMin = some r)
    (hreqA : 0 < r.drr.req a) (hreqB : 0 < r.drr.req b)
    (hleft : effectiveW drr w ≤ wMin ∨
      ∀ k ∈ drr.activeList.nodes, k = a ∨ k = b → drr.deficit k = 0) :
    Fair pktSize a b r.drr fun k => g k + r.allocMap k := by
  have hgrant := granting_enter hs hw
  have hend := hgrant.loop hr
  have hturnsCall (hbefore : drr.activeList.nodes = [] ∧ g a = g b ∨ TakesTurns pktSize a b drr g) :
      Fair pktSize a b r.drr fun k => g k + r.allocMap k :=
    .inr (hgrant.turns hab.ne hp hpLt hr hreqA hreqB
      (takesTurns_enter hs hab hw (hreqA.trans_le (hend.req_le a))
        (hreqB.trans_le (hend.req_le b)) hbefore))
  rcases h with hempty | hturns | hcut
  · exact hturnsCall (.inl hempty)
  · exact hturnsCall (.inr hturns)
  · rcases hleft with hidle | hquiet
    · rw [drrResourceAlloc_idle hidle hr]
      exact .inr (.inr (hcut.enter hs))
    · have hA := hquiet a hcut.memA (.inl rfl)
      have hB := hquiet b hcut.memB (.inr rfl)
      have howed := hcut.owed
      omega

end Calls

section Runs

variable {drr : Drr} {i j a b : ℕ} {pktSize : UInt64} {s t : Tally}

theorem fair_of_reaches (hs : drr.Sound) (hempty : drr.activeList.nodes = []) (hab : a < b)
    (hp : 0 < pktSize.toNat)
    (h : Reaches tallyStep (fun s op => FairCall pktSize a b s op ∧ NoLeftover a b s op)
      ⟨drr, fun _ => 0⟩ t) :
    t.drr.Sound ∧ Fair pktSize.toNat a b t.drr t.granted := by
  apply h.invariant (P := fun s => s.drr.Sound ∧ Fair pktSize.toNat a b s.drr s.granted)
    ⟨hs, .inl ⟨hempty, rfl⟩⟩
  rintro s op t ⟨hsound, hfair⟩ ⟨hcall, hleft⟩ hstep
  have hdrr := drrStep_of_tallyStep hstep
  cases op with
  | reqUpdate sac reqSz =>
    have huser : s.drr.UserCall (.reqUpdate sac reqSz) := hcall
    refine ⟨hsound.step huser hdrr, ?_⟩
    obtain rfl := Option.some.inj hstep
    have hdeficit := deficit_ldReqUpdate s.drr sac.toNat reqSz.toNat
    rcases hfair with hnone | hturns | hcut
    · exact .inl hnone
    · exact .inr (.inl ⟨(hdeficit a).trans hturns.deficitA, (hdeficit b).trans hturns.deficitB,
        hturns.turn⟩)
    · refine .inr (.inr ⟨hcut.memA, hcut.memB, ?_, hcut.leA, hcut.leB⟩)
      rw [hdeficit, hdeficit]
      exact hcut.owed
  | resourceAlloc fuel p w wMin =>
    obtain ⟨rfl, hunmet⟩ := hcall
    obtain ⟨hreqA, hreqB⟩ := hunmet t hstep
    have huser : s.drr.UserCall (.resourceAlloc fuel p w wMin) := trivial
    refine ⟨hsound.step huser hdrr, ?_⟩
    obtain ⟨r, hr, rfl⟩ := Option.map_eq_some_iff.mp hstep
    exact hfair.call hsound hab hp p.toNat_lt w.toNat_lt hr hreqA hreqB hleft

theorem FairCall.symm {op : DrrOp} (h : FairCall pktSize i j s op) :
    FairCall pktSize j i s op := by
  cases op with
  | reqUpdate sac reqSz => exact h
  | resourceAlloc fuel p w wMin => exact ⟨h.1, fun t ht => (h.2 t ht).symm⟩

theorem NoLeftover.symm {op : DrrOp} (h : NoLeftover i j s op) : NoLeftover j i s op := by
  cases op with
  | reqUpdate sac reqSz => trivial
  | resourceAlloc fuel p w wMin =>
    exact h.imp_right fun hquiet k hk hkji => hquiet k hk hkji.symm

/-- **Fairness over runs.** Of a run of allocations with one packet size that starts with an
empty active list and leaves two users with unmet demand at the end of every call, in which no
call hands out resources while one of the two is listed with a deficit: what the two were granted
differs by at most two packets. -/
theorem fair_without_leftover (sz : ℕ) (drr : Drr)
    (hdrr : Reaches drrStep Drr.UserCall (initLdDrr sz) drr) (hempty : drr.activeList.nodes = [])
    (pktSize : UInt64) (hp : 0 < pktSize.toNat) (i j : ℕ) (t : Tally)
    (h : Reaches tallyStep (fun s op => FairCall pktSize i j s op ∧ NoLeftover i j s op)
      ⟨drr, fun _ => 0⟩ t) :
    t.granted i ≤ t.granted j + 2 * pktSize.toNat ∧
      t.granted j ≤ t.granted i + 2 * pktSize.toNat := by
  have hs := Drr.sound_of_reaches hdrr
  rcases Nat.lt_trichotomy i j with hij | rfl | hji
  · have hfair := (fair_of_reaches hs hempty hij hp h).2.le
    omega
  · omega
  · have hsymm : Reaches tallyStep (fun s op => FairCall pktSize j i s op ∧ NoLeftover j i s op)
        ⟨drr, fun _ => 0⟩ t := h.weaken fun _ _ hcall => ⟨hcall.1.symm, hcall.2.symm⟩
    have hfair := (fair_of_reaches hs hempty hji hp hsymm).2.le
    omega

/-- Three calls: a turn each, a budget below a packet after them, and one that hands out
nothing. -/
theorem fair_without_leftover_two_users : ∃ t,
    Reaches tallyStep (fun s op => FairCall 4 0 1 s op ∧ NoLeftover 0 1 s op)
      ⟨initLdDrr 2, fun _ => 0⟩ t ∧ t.granted 0 = 7 ∧ t.granted 1 = 4 ∧
      (t.granted 0 ≤ t.granted 1 + 2 * 4 ∧ t.granted 1 ≤ t.granted 0 + 2 * 4) := by
  obtain ⟨t, ht, h0, h1⟩ : ∃ t,
      runOps tallyStep (fun s op => FairCall 4 0 1 s op ∧ NoLeftover 0 1 s op)
        ⟨initLdDrr 2, fun _ => 0⟩
        [.reqUpdate 0 50, .reqUpdate 1 50, .resourceAlloc 9 4 11 0, .resourceAlloc 9 4 5 6] =
          some t ∧ t.granted 0 = 7 ∧ t.granted 1 = 4 := ⟨_, rfl, rfl, rfl⟩
  have hrun := reaches_of_runOps _ ht
  exact ⟨t, hrun, h0, h1, fair_without_leftover 2 (initLdDrr 2) Reaches.start rfl 4 (by decide)
    0 1 t hrun⟩

/-- Two users, packets of 2 and a budget of 1: the packet of the first user is cut short in every
call, and after five calls it has been granted 5 and the second nothing. -/
theorem cut_short_keeps_the_turn : ∃ t,
    runOps tallyStep (FairCall 2 0 1) ⟨initLdDrr 2, fun _ => 0⟩
      [.reqUpdate 0 50, .reqUpdate 1 50, .resourceAlloc 9 2 1 0, .resourceAlloc 9 2 1 0,
        .resourceAlloc 9 2 1 0, .resourceAlloc 9 2 1 0, .resourceAlloc 9 2 1 0] = some t ∧
      t.granted 0 = 5 ∧ t.granted 1 = 0 ∧ ¬t.granted 0 ≤ t.granted 1 + 2 * 2 :=
  ⟨_, rfl, rfl, rfl, by decide⟩

end Runs

end LdacsSdk
