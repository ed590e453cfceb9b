import LdacsSdk.Scheduler.ActiveList
import LdacsSdk.Scheduler.Serving
import LdacsSdk.Library.Runs

/-!
# Conservation over a whole allocation

In a call what every user has been allocated makes up with its request what it asked for, and
the allocations make up with the resources left what the call set out with. A round of the outer
loop hands something out, or lowers a deficit counter that has wrapped, or steps past a user
without a request, so the call returns.
-/
namespace LdacsSdk

open Library Finset

/-- The calls on a scheduler. An allocation is given a number of rounds to return in. -/
inductive DrrOp where
  | reqUpdate (sac : UInt16) (reqSz : UInt64)
  | resourceAlloc (fuel : ℕ) (pktSize w wMin : UInt64)

/-- One call; an allocation that has not returned in its rounds has no successor. -/
def drrStep (drr : Drr) : DrrOp → Option Drr
  | .reqUpdate sac reqSz => some (ldReqUpdate drr sac.toNat reqSz.toNat)
  | .resourceAlloc fuel pktSize w wMin =>
    (drrResourceAlloc fuel drr pktSize.toNat w.toNat wMin.toNat).map Allocation.drr

namespace Drr

/-- A request names a user of the scheduler. -/
def UserCall (drr : Drr) : DrrOp → Prop
  | .reqUpdate sac _ => sac.toNat < drr.maxSz
  | .resourceAlloc _ _ _ _ => True

instance (drr : Drr) : (op : DrrOp) → Decidable (drr.UserCall op)
  | .reqUpdate _ _ => inferInstanceAs (Decidable (_ < _))
  | .resourceAlloc _ _ _ _ => inferInstanceAs (Decidable True)

end Drr

/-- In the middle of an allocation that set out with the requests of `drr₀` and `supply` bytes. -/
structure Granting (drr₀ : Drr) (supply : ℕ) (s : Allocation) : Prop where
  sound : s.drr.Sound
  maxSzEq : s.drr.maxSz = drr₀.maxSz
  demandLt : ∀ i, drr₀.req i < 2 ^ 64
  demandEq : ∀ i, s.allocMap i + s.drr.req i = drr₀.req i
  supplyEq : ∑ i ∈ range drr₀.maxSz, s.allocMap i + s.w = supply
  waiting : ∀ i, 0 < s.drr.req i → i ∈ s.drr.activeList.nodes
  recorded : ∀ i, 0 < drr₀.req i → s.drr.reqSzs i = drr₀.req i
  wLt : s.w < 2 ^ 64
  noBorrow : s.borrow = false

/-- The resources a call hands out: the total requested, when that is less than `w`. -/
def effectiveW (drr : Drr) (w : ℕ) : ℕ :=
  if (drrRegisterAll drr).2 < w then (drrRegisterAll drr).2 else w

/-- The total of all requests, in 64 bits. -/
def Drr.totalReq (drr : Drr) : ℕ := (∑ i ∈ range drr.maxSz, drr.req i) % 2 ^ 64

theorem effectiveW_eq {drr : Drr} (h : drr.Sound) (w : ℕ) :
    effectiveW drr w = min w drr.totalReq := by
  have htotal : (drrRegisterAll drr).2 = drr.totalReq := register_total h _
  unfold effectiveW
  rw [htotal]
  split_ifs <;> omega

theorem granting_enter {drr : Drr} (h : drr.Sound) {w : ℕ} (hw : w < 2 ^ 64) :
    Granting drr (effectiveW drr w) (drrEnter drr w) := by
  have hr := registered_all h
  refine ⟨hr.sound, hr.maxSzEq, h.reqLt, fun i => ?_, ?_, fun i hi => ?_, fun i hi => ?_, ?_, rfl⟩
  · simpa [drrEnter] using hr.reqEq i
  · simp [drrEnter, effectiveW]
  · have hreq := (hr.reqEq i).symm.trans_gt hi
    exact hr.entered i (h.requesting i hreq).1 hreq
  · exact hr.recorded i (h.requesting i hi).1 hi
  · simp only [drrEnter]
    split_ifs
    · exact hr.totalLt
    · exact hw

theorem effectiveW_le {drr : Drr} (h : drr.Sound) (w : ℕ) :
    effectiveW drr w ≤ min w (∑ i ∈ range drr.maxSz, drr.req i) := by
  have htotal := (registered_all h).totalLe
  unfold effectiveW
  split_ifs <;> omega

/-- Replacing one term of a sum. -/
theorem sum_update_add {n i : ℕ} (hi : i < n) (f : ℕ → ℕ) (a : ℕ) :
    ∑ j ∈ range n, Function.update f i a j + f i = ∑ j ∈ range n, f j + a := by
  have hmem : i ∈ range n := mem_range.mpr hi
  rw [sum_update_of_mem hmem, ← sum_sdiff (singleton_subset_iff.mpr hmem), sum_singleton]
  omega

namespace Granting

variable {drr₀ : Drr} {supply : ℕ} {s : Allocation} {pktSize wMin i : ℕ} {rest : List ℕ}
  {v : Serving}

/-- A listed user enters the inner loop in balance. -/
theorem serving_balanced (h : Granting drr₀ supply s) (hi : i ∈ s.drr.activeList.nodes) :
    (s.serving pktSize i).Balanced (drr₀.req i) (s.allocMap i + s.w) := by
  have hsac := h.sound.sac_eq (h.sound.listed i hi).2
  refine ⟨?_, h.wLt, h.demandLt i, ?_, ?_, h.noBorrow⟩
  · exact u64_lt ((s.drr.reqEntitys i).dc + pktSize)
  · simpa [Allocation.serving, hsac, Drr.req] using h.demandEq i
  · simp [Allocation.serving, hsac]

/-- Where the served user goes: out of the list, to its front or to its back. -/
theorem served_activeList (h : Granting drr₀ supply s)
    (hnodes : s.drr.activeList.nodes = i :: rest) (v : Serving) :
    (s.served i { s.drr.activeList with nodes := rest } v).drr.activeList =
      { s.drr.activeList with
        nodes := if v.alloc = s.drr.reqSzs i then rest
          else if v.fragData then i :: rest else rest ++ [i] } := by
  have hsac := h.sound.sac_eq (h.sound.listed i (by simp [hnodes])).2
  have hroom : rest.length < s.drr.activeList.size := by
    have hlen := h.sound.length_le
    rw [hnodes, List.length_cons] at hlen
    omega
  simp only [Allocation.served, hsac, Function.update_self]
  split_ifs
  · rfl
  · rw [rbufferPushFront_room hroom]
  · rw [rbufferPushBack_room hroom]

theorem served_req (j : ℕ) (rb : RBuffer ℕ) (v : Serving) :
    (s.served i rb v).drr.req j = if j = i then v.reqSz else s.drr.req j := by
  simp only [Allocation.served, Drr.req, Function.update_apply]
  split_ifs <;> rfl

theorem served_sac (j : ℕ) (rb : RBuffer ℕ) (v : Serving) :
    ((s.served i rb v).drr.reqEntitys j).sac = (s.drr.reqEntitys j).sac := by
  by_cases hj : j = i
  · rw [hj]
    simp [Allocation.served]
  · simp [Allocation.served, hj]

theorem served_dc_le (rb : RBuffer ℕ) (v : Serving) :
    ((s.served i rb v).drr.reqEntitys i).dc ≤ v.dc := by
  simp only [Allocation.served, Function.update_self]
  split_ifs
  · exact Nat.zero_le _
  · exact le_rfl

theorem served_dc_of_ne {j : ℕ} (hj : j ≠ i) (rb : RBuffer ℕ) (v : Serving) :
    ((s.served i rb v).drr.reqEntitys j).dc = (s.drr.reqEntitys j).dc := by
  simp [Allocation.served, hj]

/-- Serving the user at the head of the list keeps the books. -/
theorem served (h : Granting drr₀ supply s) (hnodes : s.drr.activeList.nodes = i :: rest)
    (hv : v.Balanced (drr₀.req i) (s.allocMap i + s.w)) :
    Granting drr₀ supply (s.served i { s.drr.activeList with nodes := rest } v) := by
  have hi : i ∈ s.drr.activeList.nodes := by simp [hnodes]
  obtain ⟨hmax, hlt⟩ := h.sound.listed i hi
  have hsac := h.sound.sac_eq hlt
  have hlist := h.served_activeList hnodes v
  have hnodup := h.sound.nodup
  rw [hnodes, List.nodup_cons] at hnodup
  have hvReq := hv.demandEq
  refine ⟨⟨fun j => ?_, fun j hj => ?_, fun j => ?_, fun j => ?_, ?_, ?_, fun j hj => ?_⟩,
    h.maxSzEq, h.demandLt, fun j => ?_, ?_, fun j hj => ?_, h.recorded, hv.wLt, hv.noBorrow⟩
  · rw [served_sac]
    exact h.sound.sacEq j
  · rw [served_req] at hj
    split_ifs at hj with he
    · rw [he]
      exact ⟨hmax, hlt⟩
    · exact h.sound.requesting j hj
  · rw [served_req]
    have := h.demandLt i
    split_ifs
    · omega
    · exact h.sound.reqLt j
  · by_cases hj : j = i
    · rw [hj]
      exact (served_dc_le _ v).trans_lt hv.dcLt
    · rw [served_dc_of_ne hj]
      exact h.sound.dcLt j
  · rw [hlist]
    exact h.sound.sizeEq
  · rw [hlist]
    simp only
    split_ifs
    · exact hnodup.2
    · exact List.nodup_cons.mpr hnodup
    · exact List.nodup_append'.mpr ⟨hnodup.2, List.nodup_singleton i, by simpa using hnodup.1⟩
  · rw [hlist] at hj
    refine h.sound.listed j ?_
    rw [hnodes]
    simp only at hj
    split_ifs at hj <;> simp at hj ⊢ <;> tauto
  · rw [served_req]
    simp only [Allocation.served, hsac, Function.update_apply]
    split_ifs with hj
    · rw [hj]
      exact hvReq
    · exact h.demandEq j
  · have hsum := sum_update_add (h.maxSzEq ▸ hmax) s.allocMap v.alloc
    have hsupply := h.supplyEq
    have hvSupply := hv.supplyEq
    simp only [Allocation.served, hsac]
    omega
  · rw [served_req] at hj
    rw [hlist]
    simp only
    split_ifs at hj with he
    · have hdone : v.alloc ≠ s.drr.reqSzs i := by
        rw [h.recorded i (by omega)]
        omega
      rw [if_neg hdone, he]
      split_ifs <;> simp
    · have hwait := h.waiting j hj
      rw [hnodes] at hwait
      have hrest : j ∈ rest := (List.mem_cons.mp hwait).resolve_left he
      split_ifs <;> simp [hrest]

end Granting

section Rounds

variable {drr₀ : Drr} {supply : ℕ} {s s' : Allocation} {pktSize wMin : ℕ}

theorem drrRound_leave (h : drrRound pktSize wMin s = some (.leave s')) : s' = s := by
  unfold drrRound at h
  split_ifs at h
  · split at h
    · cases h
      rfl
    · simp at h
  · cases h
    rfl

/-- A round with resources above the threshold visits the head of the list. -/
theorem drrRound_visit (pktSize : ℕ) {i : ℕ} {rest : List ℕ} (hw : wMin < s.w)
    (hnodes : s.drr.activeList.nodes = i :: rest) : drrRound pktSize wMin s =
      (whileLoop (serveRound pktSize wMin) (s.drr.req i + 1) (s.serving pktSize i)).map
        fun v => .again (s.served i { s.drr.activeList with nodes := rest } v) := by
  unfold drrRound rbufferPop
  rw [if_pos hw, hnodes]

/-- A round that goes on serves the user at the head of the list. -/
theorem drrRound_again (h : drrRound pktSize wMin s = some (.again s')) : ∃ i rest v,
    wMin < s.w ∧ s.drr.activeList.nodes = i :: rest ∧
      whileLoop (serveRound pktSize wMin) (s.drr.req i + 1) (s.serving pktSize i) = some v ∧
      s' = s.served i { s.drr.activeList with nodes := rest } v := by
  unfold drrRound rbufferPop at h
  split_ifs at h with hw
  · cases hnodes : s.drr.activeList.nodes with
    | nil => simp [hnodes] at h
    | cons i rest =>
      simp only [hnodes, Option.map_eq_some_iff, Round.again.injEq] at h
      obtain ⟨v, hv, rfl⟩ := h
      exact ⟨i, rest, v, hw, rfl, hv, rfl⟩
  · cases h

theorem Granting.round (h : Granting drr₀ supply s)
    (hround : drrRound pktSize wMin s = some (.again s')) : Granting drr₀ supply s' := by
  obtain ⟨i, rest, v, -, hnodes, hserve, rfl⟩ := drrRound_again hround
  exact h.served hnodes ((h.serving_balanced (by simp [hnodes])).serve hserve).1

/-- What is left when the loop ends is still in balance. -/
theorem Granting.loop (h : Granting drr₀ supply s) {fuel : ℕ} {t : Allocation}
    (hloop : whileLoop (drrRound pktSize wMin) fuel s = some t) : Granting drr₀ supply t :=
  whileLoop_invariant (I := Granting drr₀ supply) (fun _ _ hu hround => hu.round hround)
    (fun _ _ hu hround => drrRound_leave hround ▸ hu) h hloop

/-- As long as resources are left some user has an unmet request. -/
theorem Granting.exists_waiting (h : Granting drr₀ supply s)
    (hsupply : supply ≤ ∑ i ∈ range drr₀.maxSz, drr₀.req i) (hw : 0 < s.w) :
    ∃ i, 0 < s.drr.req i := by
  by_contra hnone
  simp only [not_exists, not_lt, Nat.le_zero] at hnone
  have hall : ∑ i ∈ range drr₀.maxSz, s.allocMap i = ∑ i ∈ range drr₀.maxSz, drr₀.req i :=
    sum_congr rfl fun i _ => by rw [← h.demandEq i, hnone i, Nat.add_zero]
  have := h.supplyEq
  omega

/-- The deficit counters of the users that wait, added up. -/
def Allocation.credit (s : Allocation) : ℕ :=
  ∑ i ∈ range s.drr.maxSz, if 0 < s.drr.req i then (s.drr.reqEntitys i).dc else 0

/-- How many users without a request stand in front of the first one with a request. -/
def Allocation.ahead (s : Allocation) : ℕ :=
  s.drr.activeList.nodes.findIdx fun i => decide (0 < s.drr.req i)

/-- What every round of the outer loop lowers. -/
def Allocation.rank (s : Allocation) : ℕ × ℕ × ℕ := (s.w, s.credit, s.ahead)

/-- Passing a user without a request brings the first one with a request to the front. -/
theorem ahead_lt {i : ℕ} {rest : List ℕ} {p : ℕ → Bool} (hi : p i = false)
    (hrest : ∃ j ∈ rest, p j = true) :
    (rest ++ [i]).findIdx p < (i :: rest).findIdx p ∧ rest.findIdx p < (i :: rest).findIdx p := by
  have hlt := List.findIdx_lt_length.mpr hrest
  rw [List.findIdx_append, if_pos hlt, List.findIdx_cons, hi]
  simp

variable {i : ℕ} {rest : List ℕ}

/-- A user without a request who is served gets nothing and makes way. -/
theorem Granting.rank_lt_idle (h : Granting drr₀ supply s)
    (hnodes : s.drr.activeList.nodes = i :: rest) (hreq : s.drr.req i = 0)
    (hwaiting : ∃ j, 0 < s.drr.req j) :
    Prod.Lex (· < ·) (Prod.Lex (· < ·) (· < ·))
      (s.served i { s.drr.activeList with nodes := rest } (s.serving pktSize i)).rank s.rank := by
  have hsame : ∀ j, (s.served i { s.drr.activeList with nodes := rest }
      (s.serving pktSize i)).drr.req j = s.drr.req j := by
    intro j
    rw [Granting.served_req]
    split_ifs with hj
    · rw [hj]
      rfl
    · rfl
  have hcredit : (s.served i { s.drr.activeList with nodes := rest }
      (s.serving pktSize i)).credit = s.credit := by
    refine sum_congr rfl fun j _ => ?_
    rw [hsame]
    by_cases hj : j = i
    · simp [hj, hreq]
    · rw [Granting.served_dc_of_ne hj]
  have hahead : (s.served i { s.drr.activeList with nodes := rest }
      (s.serving pktSize i)).ahead < s.ahead := by
    obtain ⟨j, hj⟩ := hwaiting
    have hmem := h.waiting j hj
    rw [hnodes] at hmem
    have hne : j ≠ i := by
      rintro rfl
      omega
    have hless := ahead_lt (i := i) (p := fun i => decide (0 < s.drr.req i)) (by simp [hreq])
      ⟨j, (List.mem_cons.mp hmem).resolve_left hne, by simpa using hj⟩
    simp only [Allocation.ahead, hsame, h.served_activeList hnodes, hnodes]
    split_ifs with hdone hfrag
    · exact hless.2
    · simp [Allocation.serving] at hfrag
    · exact hless.1
  unfold Allocation.rank
  rw [hcredit]
  exact .right _ (.right _ hahead)

/-- A waiting user whose deficit counter wrapped below a packet loses credit. -/
theorem Granting.rank_lt_wrapped (h : Granting drr₀ supply s)
    (hi : i ∈ s.drr.activeList.nodes) (rb : RBuffer ℕ) (hreq : 0 < s.drr.req i)
    (hp' : pktSize < 2 ^ 64) (hdc : (s.serving pktSize i).dc < pktSize) :
    Prod.Lex (· < ·) (Prod.Lex (· < ·) (· < ·))
      (s.served i rb (s.serving pktSize i)).rank s.rank := by
  have hlost : (s.serving pktSize i).dc < (s.drr.reqEntitys i).dc := by
    have hlt := h.sound.dcLt i
    simp only [Allocation.serving, u64] at hdc ⊢
    omega
  have hcredit : (s.served i rb (s.serving pktSize i)).credit < s.credit := by
    have hle := Granting.served_dc_le (s := s) (i := i) rb (s.serving pktSize i)
    refine sum_lt_sum (fun j _ => ?_) ⟨i, mem_range.mpr (h.sound.listed i hi).1, ?_⟩
    · rw [Granting.served_req]
      by_cases hj : j = i
      · subst hj
        rw [if_pos rfl, if_pos (by exact hreq), if_pos hreq]
        omega
      · simp only [if_neg hj, Granting.served_dc_of_ne hj, le_refl]
    · rw [Granting.served_req, if_pos rfl, if_pos hreq, if_pos (by exact hreq)]
      omega
  unfold Allocation.rank
  exact .right _ (.left _ _ hcredit)

theorem Granting.rank_lt (h : Granting drr₀ supply s) (hp : 0 < pktSize) (hp' : pktSize < 2 ^ 64)
    (hsupply : supply ≤ ∑ i ∈ range drr₀.maxSz, drr₀.req i)
    (hround : drrRound pktSize wMin s = some (.again s')) :
    Prod.Lex (· < ·) (Prod.Lex (· < ·) (· < ·)) s'.rank s.rank := by
  obtain ⟨i, rest, v, hw, hnodes, hserve, rfl⟩ := drrRound_again hround
  have hi : i ∈ s.drr.activeList.nodes := by simp [hnodes]
  rcases Nat.eq_zero_or_pos (s.drr.req i) with hreq | hreq
  · obtain rfl := Serving.serve_none (.inr hreq) hserve
    exact h.rank_lt_idle hnodes hreq (h.exists_waiting hsupply (by omega))
  · rcases Nat.lt_or_ge (s.serving pktSize i).dc pktSize with hdc | hdc
    · obtain rfl := Serving.serve_none (.inl hdc) hserve
      exact h.rank_lt_wrapped hi _ hreq hp' hdc
    · exact .left _ _ ((h.serving_balanced hi).serve_gives hp hdc hreq hw hserve)

/-- With packets of some size the outer loop is left. -/
theorem Granting.loop_returns (h : Granting drr₀ supply s) (hp : 0 < pktSize)
    (hp' : pktSize < 2 ^ 64) (hsupply : supply ≤ ∑ i ∈ range drr₀.maxSz, drr₀.req i) (wMin : ℕ) :
    ∃ t, LeavesWith (drrRound pktSize wMin) s t := by
  have wf : WellFounded (Prod.Lex (· < ·) (Prod.Lex (· < ·) (· < ·)) : ℕ × ℕ × ℕ → _ → Prop) :=
    WellFounded.prod_lex wellFounded_lt (WellFounded.prod_lex wellFounded_lt wellFounded_lt)
  refine whileLoop_terminates (I := Granting drr₀ supply) wf Allocation.rank (fun u hu => ?_) h
  obtain ⟨out, hout⟩ : ∃ out, drrRound pktSize wMin u = some out := by
    unfold drrRound rbufferPop
    split_ifs
    · cases hnodes : u.drr.activeList.nodes with
      | nil => exact ⟨_, rfl⟩
      | cons i rest =>
        obtain ⟨v, hv⟩ := (hu.serving_balanced (i := i) (by simp [hnodes])).serve_returns hp
        exact ⟨_, congrArg (Option.map _) hv⟩
    · exact ⟨_, rfl⟩
  refine ⟨out, hout, fun u' he => ?_⟩
  rw [he] at hout
  exact ⟨hu.round hout, hu.rank_lt hp hp' hsupply hout⟩

end Rounds

namespace Drr

variable {drr : Drr} {r : Allocation}

/-- No subtraction of the call underflowed, every allocation is part of its request, whose rest
is what remains of it, and the allocations stay within the resources and the total requested. -/
structure Conserved (drr : Drr) (w : ℕ) (r : Allocation) : Prop where
  noBorrow : r.borrow = false
  allocLe : ∀ i, r.allocMap i ≤ drr.req i
  remaining : ∀ i, r.drr.req i = drr.req i - r.allocMap i
  sumLe : ∑ i ∈ range drr.maxSz, r.allocMap i ≤ min w (∑ i ∈ range drr.maxSz, drr.req i)

theorem Sound.granting (h : drr.Sound) {fuel pktSize w wMin : ℕ} (hw : w < 2 ^ 64)
    (hr : drrResourceAlloc fuel drr pktSize w wMin = some r) :
    Granting drr (effectiveW drr w) r :=
  (granting_enter h hw).loop hr

theorem Sound.conserved (h : drr.Sound) {fuel pktSize w wMin : ℕ} (hw : w < 2 ^ 64)
    (hr : drrResourceAlloc fuel drr pktSize w wMin = some r) : drr.Conserved w r := by
  have hgrant := h.granting hw hr
  refine ⟨hgrant.noBorrow, fun i => ?_, fun i => ?_, ?_⟩
  · have := hgrant.demandEq i
    omega
  · have := hgrant.demandEq i
    omega
  · have hsupply := hgrant.supplyEq
    have hle := effectiveW_le h w
    omega

theorem Sound.step (h : drr.Sound) {op : DrrOp} {drr' : Drr} (hcall : drr.UserCall op)
    (hstep : drrStep drr op = some drr') : drr'.Sound := by
  cases op with
  | reqUpdate sac reqSz =>
    obtain rfl := Option.some.inj hstep
    exact h.reqUpdate hcall _
  | resourceAlloc fuel pktSize w wMin =>
    obtain ⟨r, hr, rfl⟩ := Option.map_eq_some_iff.mp hstep
    exact (h.granting w.toNat_lt hr).sound

theorem sound_of_reaches {sz : ℕ} (h : Reaches drrStep UserCall (initLdDrr sz) drr) :
    drr.Sound := by
  apply h.invariant (sound_initLdDrr sz)
  intro d op d' hd hcall hstep
  exact hd.step hcall hstep

/-- In every state of every run a call with packets of some size returns, and it conserves the
requests and the resources. -/
theorem drr_conserves (sz : ℕ) (drr : Drr) (h : Reaches drrStep UserCall (initLdDrr sz) drr)
    (pktSize w wMin : UInt64) (hp : 0 < pktSize.toNat) : ∃ fuel r,
      (∀ k, drrResourceAlloc (fuel + k) drr pktSize.toNat w.toNat wMin.toNat = some r) ∧
        drr.Conserved w.toNat r := by
  have hs := sound_of_reaches h
  obtain ⟨r, fuel, hr⟩ := (granting_enter hs w.toNat_lt).loop_returns hp pktSize.toNat_lt
    ((effectiveW_le hs w.toNat).trans (Nat.min_le_right _ _)) wMin.toNat
  exact ⟨fuel, r, hr, hs.conserved w.toNat_lt (hr 0)⟩

/-- Two users, one served before with a residual deficit, and fewer resources than requested. -/
theorem drr_conserves_two_users : ∃ drr, Reaches drrStep UserCall (initLdDrr 4) drr ∧
    drr.req 0 = 30 ∧ drr.req 1 = 40 ∧ ∃ fuel r,
      (∀ k, drrResourceAlloc (fuel + k) drr 20 50 0 = some r) ∧ drr.Conserved 50 r := by
  obtain ⟨drr, hdrr, h0, h1⟩ : ∃ drr, runOps drrStep UserCall (initLdDrr 4)
      [.reqUpdate 0 35, .resourceAlloc 9 20 5 0, .reqUpdate 1 40] = some drr ∧
      drr.req 0 = 30 ∧ drr.req 1 = 40 := ⟨_, rfl, rfl, rfl⟩
  have hrun := reaches_of_runOps _ hdrr
  exact ⟨drr, hrun, h0, h1, drr_conserves 4 drr hrun 20 50 0 (by decide)⟩

end Drr

end LdacsSdk
