import LdacsSdk.Scheduler.Exactness
import LdacsSdk.Scheduler.Fairness

/-!
# Deficit counters over runs

A visit adds one packet to the deficit counter of the user at the head of the list and takes off
what the user is given. Unless the resources run out at it the user keeps less than a packet, so
only a packet that is cut short leaves more. A user that still has a whole packet saved when the
next call visits it gets another one on top. As long as this finds more than the excess over a
packet to hand out, no counter reaches two packets.
-/
namespace LdacsSdk

open Library

namespace Drr

/-- The call names a user, and packets have the one size. -/
def OnePacketCall (pktSize : UInt64) (drr : Drr) (op : DrrOp) : Prop :=
  drr.UserCall op ∧
    match op with
    | .reqUpdate _ _ => True
    | .resourceAlloc _ p _ _ => p = pktSize

instance (pktSize : UInt64) (drr : Drr) : (op : DrrOp) → Decidable (OnePacketCall pktSize drr op)
  | .reqUpdate _ _ => inferInstanceAs (Decidable (_ ∧ True))
  | .resourceAlloc _ _ _ _ => inferInstanceAs (Decidable (_ ∧ _ = _))

/-- A whole packet that the user `i` has saved does no harm: the user is the next to be visited,
and it is given more than the saved excess or all that it wants. -/
def SpendsSaved (drr : Drr) (pktSize w i : ℕ) : Prop :=
  drr.activeList.nodes.head? = some i ∧
    (drr.deficit i < pktSize + w ∨ drr.req i ≤ w)

instance (drr : Drr) (pktSize w i : ℕ) : Decidable (drr.SpendsSaved pktSize w i) :=
  inferInstanceAs (Decidable (_ ∧ _))

/-- A call of the runs that the bound is about: no request that is still to be served wraps around
to zero, packets have the one size, and an allocation that hands out resources finds no listed
user with a whole packet saved that it does not spend. -/
def SpendingCall (pktSize : UInt64) (drr : Drr) (op : DrrOp) : Prop :=
  drr.KeepsDemand op ∧
    match op with
    | .reqUpdate _ _ => True
    | .resourceAlloc _ p w wMin =>
      p = pktSize ∧ (effectiveW drr w.toNat ≤ wMin.toNat ∨ ∀ i ∈ drr.activeList.nodes,
        drr.deficit i < pktSize.toNat ∨
          drr.SpendsSaved pktSize.toNat (effectiveW drr w.toNat) i)

instance (pktSize : UInt64) (drr : Drr) : (op : DrrOp) → Decidable (drr.SpendingCall pktSize op)
  | .reqUpdate _ _ => inferInstanceAs (Decidable (_ ∧ True))
  | .resourceAlloc _ _ _ _ => inferInstanceAs (Decidable (_ ∧ _ ∧ (_ ∨ _)))

end Drr

/-! ### One visit -/

/-- In the middle of a visit that set out with the counters `v` and a deficit of `d` before: a
packet was given, or all that was wanted, or all that was left. -/
inductive Serving.Spent (d pktSize : ℕ) (v u : Serving) : Prop where
  | nothing (h : u = v)
  | packet (h : u.dc ≤ d)
  | request (h : u.reqSz = 0)
  | rest (hdc : u.dc + v.w ≤ d + pktSize) (hw : u.w = 0) (hreq : u.reqSz + v.w = v.reqSz)

/-- What a visit leaves of a deficit counter `d`: the user is done, or cannot pay for another
packet, or the resources have come down to the threshold. -/
def Serving.Spends (d pktSize wMin : ℕ) (v v' : Serving) : Prop :=
  v'.reqSz = 0 ∨ v'.dc < pktSize ∨
    v'.w ≤ wMin ∧ (v'.dc ≤ d ∨ v'.dc + v.w ≤ d + pktSize ∧ v.w < v.reqSz)

namespace Serving

variable {v u u' v' : Serving} {demand supply pktSize wMin d : ℕ}

theorem Balanced.spent_again (h : u.Balanced demand supply) (hp : 0 < pktSize)
    (hdc : v.dc ≤ d + pktSize) (hu : Spent d pktSize v u)
    (hround : serveRound pktSize wMin u = some (.again u')) : Spent d pktSize v u' := by
  unfold serveRound at hround
  split_ifs at hround with hwant hfull hbig hrest hbig
  · obtain rfl := Round.again.inj (Option.some.inj hround)
    rw [h.givePacket_eq hfull.2 hfull.1 hbig]
    apply Spent.packet
    simp only [Serving.give]
    cases hu with
    | nothing hsame => subst hsame; omega
    | packet hle => omega
    | request hreq => omega
    | rest hle hw hreq => omega
  · obtain rfl := Round.again.inj (Option.some.inj hround)
    exact .request rfl
  · obtain rfl := Round.again.inj (Option.some.inj hround)
    rw [h.giveRemaining_eq (by omega) hbig]
    cases hu with
    | nothing hsame =>
      subst hsame
      apply Spent.rest <;> simp only [Serving.give] <;> omega
    | packet hle => exact .packet ((Nat.sub_le _ _).trans hle)
    | request hreq => omega
    | rest hle hw hreq => omega
  · obtain rfl := Round.again.inj (Option.some.inj hround)
    exact .request rfl
  · cases hround
  · cases hround

theorem leave_when (hp : 0 < pktSize) (hround : serveRound pktSize wMin u = some (.leave u')) :
    u.reqSz = 0 ∨ u.dc < pktSize ∨ u.w ≤ wMin := by
  unfold serveRound at hround
  split_ifs at hround <;> first | omega | cases hround

theorem Balanced.spent_leave (h : u.Balanced demand supply) (hp : 0 < pktSize) (hw : wMin < v.w)
    (hu : Spent d pktSize v u) (hround : serveRound pktSize wMin u = some (.leave u')) :
    Spends d pktSize wMin v u' := by
  have hwhen := leave_when hp hround
  obtain rfl := h.leave hround
  cases hu with
  | nothing hsame =>
    subst hsame
    exact hwhen.imp id fun h => .inl (h.resolve_right (by omega))
  | packet hle => exact hwhen.imp id fun h => h.imp id fun hleft => ⟨hleft, .inl hle⟩
  | request hreq => exact .inl hreq
  | rest hle hzero hreq =>
    rcases Nat.eq_zero_or_pos u'.reqSz with hdone | hmore
    · exact .inl hdone
    · exact .inr (.inr ⟨by omega, .inr ⟨hle, by omega⟩⟩)

/-- What a visit leaves of the deficit counter. -/
theorem Balanced.serve_spends (h : v.Balanced demand supply) (hp : 0 < pktSize)
    (hdc : v.dc ≤ d + pktSize) (hw : wMin < v.w) {fuel : ℕ}
    (hserve : whileLoop (serveRound pktSize wMin) fuel v = some v') :
    Spends d pktSize wMin v v' := by
  apply whileLoop_invariant (I := fun u => u.Balanced demand supply ∧ Spent d pktSize v u) _ _
    ⟨h, .nothing rfl⟩ hserve
  · rintro u u' ⟨hu, hspent⟩ hround
    exact ⟨(hu.again hround).1, hu.spent_again hp hdc hspent hround⟩
  · rintro u u' ⟨hu, hspent⟩ hround
    exact hu.spent_leave hp hw hspent hround

/-- Nothing is given when nothing is left. -/
theorem serveRound_dry (hp : 0 < pktSize) (hw : u.w = 0) :
    serveRound pktSize wMin u = some (.leave u) := by
  unfold serveRound
  split_ifs <;> first | omega | rfl

/-- A user with more than a packet saved and less than a packet left to give is given the rest and
keeps what is saved of its deficit counter. -/
theorem Balanced.serve_cut_short (h : v.Balanced demand supply) (hdc : pktSize + v.w ≤ v.dc)
    (hreq : v.w < v.reqSz) (hw : wMin < v.w) (hless : v.w < pktSize) {fuel : ℕ}
    (hserve : whileLoop (serveRound pktSize wMin) fuel v = some v') :
    v' = { v.give v.w with fragData := true } := by
  have hround : serveRound pktSize wMin v = some (.again { v.give v.w with fragData := true }) := by
    unfold serveRound
    rw [if_pos (by omega), if_neg (by omega), if_pos (by omega), if_pos (by omega),
      h.giveRemaining_eq (by omega) (by omega)]
  obtain ⟨fuel', hrest⟩ := whileLoop_of_again hround hserve
  exact whileLoop_of_leave (serveRound_dry (by omega) (Nat.sub_self v.w)) hrest

end Serving

/-! ### One call -/

/-- No user has saved two packets, and unless the resources have come down to the threshold only
the user that is visited next may have saved one, which it spends. -/
structure Allocation.Bounded (pktSize wMin : ℕ) (s : Allocation) : Prop where
  belowTwo : ∀ i, s.drr.deficit i < 2 * pktSize
  saving : s.w ≤ wMin ∨ ∀ i ∈ s.drr.activeList.nodes,
    s.drr.deficit i < pktSize ∨ s.drr.SpendsSaved pktSize s.w i

namespace Granting

variable {drr₀ : Drr} {supply : ℕ} {s s' : Allocation} {pktSize wMin i : ℕ} {rest : List ℕ}
  {v : Serving}

/-- The deficit counter of the user that was visited. -/
theorem deficit_served (h : Granting drr₀ supply s) (hi : i ∈ s.drr.activeList.nodes)
    (hreq : 0 < s.drr.req i) (hv : v.Balanced (drr₀.req i) (s.allocMap i + s.w)) (rb : RBuffer ℕ) :
    (s.served i rb v).drr.deficit i = if v.reqSz = 0 then 0 else v.dc := by
  have hsac := h.sound.sac_eq (h.sound.listed i hi).2
  have hbefore := h.demandEq i
  have hafter := hv.demandEq
  have hdone : v.alloc = s.drr.reqSzs i ↔ v.reqSz = 0 := by
    rw [h.recorded i (by omega)]
    omega
  simp [Drr.deficit, Allocation.served, hsac, hdone]

theorem deficit_served_of_ne {j : ℕ} (hj : j ≠ i) (rb : RBuffer ℕ) (v : Serving) :
    (s.served i rb v).drr.deficit j = s.drr.deficit j :=
  served_dc_of_ne hj rb v

/-- A round keeps every deficit counter below two packets. -/
theorem bounded_round (h : Granting drr₀ supply s) (hlist : s.drr.OnlyRequesting)
    (hp : 0 < pktSize) (hb : s.Bounded pktSize wMin)
    (hround : drrRound pktSize wMin s = some (.again s')) : s'.Bounded pktSize wMin := by
  obtain ⟨i, rest, v, hw, hnodes, hserve, rfl⟩ := drrRound_again hround
  have hi : i ∈ s.drr.activeList.nodes := by simp [hnodes]
  have hbal : (s.serving pktSize i).Balanced (drr₀.req i) (s.allocMap i + s.w) :=
    h.serving_balanced hi
  have hdc : (s.serving pktSize i).dc ≤ s.drr.deficit i + pktSize := by
    simp only [Allocation.serving, u64, Drr.deficit]
    omega
  have hspends := hbal.serve_spends hp hdc hw hserve
  have hdeficit := h.deficit_served hi (hlist i hi) (hbal.serve hserve).1
    { s.drr.activeList with nodes := rest }
  have hsaving := hb.saving.resolve_left (by omega)
  have hspent : s.drr.deficit i < pktSize + s.w ∨ s.drr.req i ≤ s.w :=
    (hsaving i hi).elim (fun hless => .inl (hless.trans_le (Nat.le_add_right _ _))) And.right
  have hbelow : v.reqSz ≠ 0 → v.dc < pktSize ∨ v.w ≤ wMin ∧ v.dc < 2 * pktSize := by
    intro hmore
    have hwEq : (s.serving pktSize i).w = s.w := rfl
    have hreqEq : (s.serving pktSize i).reqSz = s.drr.req i := rfl
    have htwo := hb.belowTwo i
    apply (hspends.resolve_left hmore).imp id
    rintro ⟨hthreshold, hle⟩
    exact ⟨hthreshold, by omega⟩
  constructor
  · intro j
    by_cases hj : j = i
    · rw [hj, hdeficit]
      split_ifs with hdone
      · omega
      · rcases hbelow hdone with hless | ⟨-, hless⟩ <;> omega
    · rw [deficit_served_of_ne hj]
      exact hb.belowTwo j
  · by_cases hthreshold : v.w ≤ wMin
    · exact .inl hthreshold
    · refine .inr fun j hj => .inl ?_
      by_cases hji : j = i
      · rw [hji, hdeficit]
        split_ifs with hdone
        · exact hp
        · exact (hbelow hdone).resolve_right fun h => hthreshold h.1
      · rw [deficit_served_of_ne hji]
        rw [h.served_activeList hnodes] at hj
        have hmem : j ∈ s.drr.activeList.nodes := by
          rw [hnodes]
          simp only at hj
          split_ifs at hj <;> simp at hj ⊢ <;> tauto
        -- only the head of the list may have saved a packet
        apply (hsaving j hmem).resolve_right
        rintro ⟨hhead, -⟩
        rw [hnodes] at hhead
        exact hji (Option.some.inj hhead).symm

theorem bounded_loop (h : Granting drr₀ supply s) (hlist : s.drr.OnlyRequesting)
    (hp : 0 < pktSize) (hb : s.Bounded pktSize wMin) {fuel : ℕ} {t : Allocation}
    (hloop : whileLoop (drrRound pktSize wMin) fuel s = some t) : t.Bounded pktSize wMin := by
  apply whileLoop_invariant
    (I := fun u => (Granting drr₀ supply u ∧ u.drr.OnlyRequesting) ∧ u.Bounded pktSize wMin) _ _
    ⟨⟨h, hlist⟩, hb⟩ hloop
  · rintro u u' ⟨⟨hu, honly⟩, hbound⟩ hround
    exact ⟨hu.onlyRequesting_round honly hround, hu.bounded_round honly hp hbound hround⟩
  · rintro u u' ⟨-, hbound⟩ hround
    rw [drrRound_leave hround]
    exact hbound

end Granting

/-- A call that hands out resources and has a user listed visits the head of the list. -/
theorem drrLoop_visits {s t : Allocation} {pktSize wMin i fuel : ℕ} {rest : List ℕ}
    (hw : wMin < s.w) (hnodes : s.drr.activeList.nodes = i :: rest)
    (h : whileLoop (drrRound pktSize wMin) fuel s = some t) :
    ∃ s' fuel', drrRound pktSize wMin s = some (.again s') ∧
      whileLoop (drrRound pktSize wMin) fuel' s' = some t := by
  cases fuel with
  | zero => cases h
  | succ fuel =>
    unfold whileLoop at h
    rw [drrRound_visit pktSize hw hnodes] at h ⊢
    cases hserve : whileLoop (serveRound pktSize wMin) (s.drr.req i + 1) (s.serving pktSize i) with
    | none => simp [hserve] at h
    | some v => exact ⟨_, fuel, rfl, by simpa [hserve] using h⟩

/-- The loop ends when the resources have come down to the threshold. -/
theorem drrLoop_dry {s t : Allocation} {pktSize wMin fuel : ℕ} (hw : s.w ≤ wMin)
    (h : whileLoop (drrRound pktSize wMin) fuel s = some t) : t = s := by
  apply whileLoop_of_leave _ h
  unfold drrRound
  rw [if_neg (by omega)]

namespace Drr

variable {drr : Drr} {pktSize wMin w : ℕ}

/-- Entering the list never adds to a deficit counter. -/
theorem deficit_register_le (s : Drr × ℕ) (n i : ℕ) :
    (drrRegister s n).1.deficit i ≤ s.1.deficit i := by
  rw [drrRegister_eq]
  unfold Drr.enter
  split_ifs
  · exact le_rfl
  · exact le_rfl
  · by_cases hi : i = n
    · simp [Drr.deficit, hi]
    · simp [Drr.deficit, hi]

theorem deficit_enter_le (drr : Drr) (w i : ℕ) :
    (drrEnter drr w).drr.deficit i ≤ drr.deficit i := by
  change ((List.range drr.maxSz).foldl drrRegister (drr, 0)).1.deficit i ≤ _
  induction drr.maxSz with
  | zero => exact le_rfl
  | succ n ih =>
    rw [List.range_succ, List.foldl_append]
    exact (deficit_register_le _ n i).trans ih

/-- A call that meets the condition keeps every deficit counter below two packets. -/
theorem Sound.deficit_call (h : drr.Sound) (hlist : drr.OnlyRequesting) (hp : 0 < pktSize)
    (hw : w < 2 ^ 64) (hb : ∀ i, drr.deficit i < 2 * pktSize)
    (hsaving : effectiveW drr w ≤ wMin ∨ ∀ i ∈ drr.activeList.nodes,
      drr.deficit i < pktSize ∨ drr.SpendsSaved pktSize (effectiveW drr w) i)
    {fuel : ℕ} {r : Allocation} (hr : drrResourceAlloc fuel drr pktSize w wMin = some r) (i : ℕ) :
    r.drr.deficit i < 2 * pktSize := by
  have henter : (drrEnter drr w).Bounded pktSize wMin := by
    obtain ⟨fresh, hfresh⟩ := enrolled_enter h w
    constructor
    · exact fun j => (deficit_enter_le drr w j).trans_lt (hb j)
    · apply hsaving.imp id
      intro hold j hj
      rw [hfresh.nodesEq] at hj
      rcases List.mem_append.mp hj with hj | hj
      · rw [hfresh.deficitEq j hj]
        apply (hold j hj).imp id
        rintro ⟨hhead, hspent⟩
        refine ⟨?_, ?_⟩
        · rw [hfresh.nodesEq, List.head?_append, hhead]
          rfl
        · rw [hfresh.deficitEq j hj]
          have hreq : (drrEnter drr w).drr.req j = drr.req j := (registered_all h).reqEq j
          rw [hreq]
          exact hspent
      · exact .inl (by rw [hfresh.freshDeficit j hj]; exact hp)
  exact ((granting_enter h hw).bounded_loop (onlyRequesting_enter h hlist) hp henter hr).belowTwo i

/-- The condition is exact for the user at the head of the list: given less than the saved excess
and less than it wants, it leaves the call with two packets saved. -/
theorem Sound.deficit_overruns (h : drr.Sound) (hw : w < 2 ^ 64) {i : ℕ}
    (hhead : drr.activeList.nodes.head? = some i) (hout : wMin < effectiveW drr w)
    (hexcess : pktSize + effectiveW drr w ≤ drr.deficit i) (hreq : effectiveW drr w < drr.req i)
    (hbelow : drr.deficit i < 2 * pktSize) (hfits : drr.deficit i + pktSize < 2 ^ 64)
    {fuel : ℕ} {r : Allocation} (hr : drrResourceAlloc fuel drr pktSize w wMin = some r) :
    2 * pktSize ≤ r.drr.deficit i := by
  have hgrant := granting_enter h hw
  obtain ⟨fresh, hfresh⟩ := enrolled_enter h w
  have hmem := List.mem_of_mem_head? hhead
  have hnodes : (drrEnter drr w).drr.activeList.nodes = i ::
      ((drrEnter drr w).drr.activeList.nodes.tail) := by
    rw [hfresh.nodesEq]
    obtain ⟨l, hl⟩ := List.head?_eq_some_iff.mp hhead
    simp [hl]
  have hi : i ∈ (drrEnter drr w).drr.activeList.nodes := by rw [hnodes]; simp
  have hdeficit := hfresh.deficitEq i hmem
  have hreqEq : (drrEnter drr w).drr.req i = drr.req i := (registered_all h).reqEq i
  obtain ⟨s', fuel', hround, hrest⟩ := drrLoop_visits hout hnodes hr
  obtain ⟨j, rest, v, -, hhead', hserve, rfl⟩ := drrRound_again hround
  rw [hnodes] at hhead'
  obtain ⟨rfl, -⟩ := List.cons.inj hhead'
  have hbal : ((drrEnter drr w).serving pktSize i).Balanced (drr.req i) _ :=
    hgrant.serving_balanced hi
  have hdc : ((drrEnter drr w).serving pktSize i).dc = drr.deficit i + pktSize := by
    rw [← hdeficit] at hfits ⊢
    exact u64_add hfits
  have hwEq : ((drrEnter drr w).serving pktSize i).w = effectiveW drr w := rfl
  have hleft : ((drrEnter drr w).serving pktSize i).reqSz = drr.req i := hreqEq
  have hv := hbal.serve_cut_short (by omega) (by omega) (by omega) (by omega) hserve
  have hspent : v.w = 0 ∧ v.reqSz = drr.req i - effectiveW drr w ∧
      v.dc = drr.deficit i + pktSize - effectiveW drr w := by
    simp only [hv, Serving.give]
    omega
  have hdry : v.w ≤ wMin := by omega
  rw [drrLoop_dry hdry hrest, hgrant.deficit_served hi (by omega) (hbal.serve hserve).1,
    if_neg (by omega)]
  omega

/-- **Deficit counters stay below two packets.** In every run with packets of one size in which no
request wraps around to zero and every call that hands out resources finds no user with a whole
packet saved that it does not spend. -/
theorem deficit_bounded (sz : ℕ) (pktSize : UInt64) (hp : 0 < pktSize.toNat) (drr : Drr)
    (h : Reaches drrStep (SpendingCall pktSize) (initLdDrr sz) drr) (i : ℕ) :
    drr.deficit i < 2 * pktSize.toNat := by
  have hinv : (drr.Sound ∧ drr.OnlyRequesting) ∧ ∀ i, drr.deficit i < 2 * pktSize.toNat := by
    apply h.invariant
      (P := fun d => (d.Sound ∧ d.OnlyRequesting) ∧ ∀ i, d.deficit i < 2 * pktSize.toNat)
    · exact ⟨⟨sound_initLdDrr sz, by simp [OnlyRequesting, initLdDrr, rbufferInit]⟩,
        fun i => by simp [initLdDrr, Drr.deficit, hp]⟩
    · rintro d op d' ⟨⟨hsound, hlist⟩, hb⟩ ⟨hkeeps, hcall⟩ hstep
      refine ⟨⟨hsound.step hkeeps.userCall hstep, hlist.step hsound hkeeps hstep⟩, ?_⟩
      cases op with
      | reqUpdate sac reqSz =>
        obtain rfl := Option.some.inj hstep
        intro i
        rw [deficit_ldReqUpdate]
        exact hb i
      | resourceAlloc fuel p w wMin =>
        obtain ⟨r, hr, rfl⟩ := Option.map_eq_some_iff.mp hstep
        obtain ⟨rfl, hsaving⟩ := hcall
        exact hsound.deficit_call hlist hp w.toNat_lt hb hsaving hr
  exact hinv.2 i

/-- A call with fewer resources than a packet, so that one user keeps the rest of its packet, and
one that serves it and a second user. -/
theorem deficit_bounded_cut_short : ∃ drr,
    Reaches drrStep (SpendingCall 10) (initLdDrr 2) drr ∧ drr.deficit 0 = 13 ∧
      ∀ i, drr.deficit i < 2 * 10 := by
  obtain ⟨drr, hdrr, h0⟩ : ∃ drr, runOps drrStep (SpendingCall 10) (initLdDrr 2)
      [.reqUpdate 0 50, .resourceAlloc 9 10 3 0, .reqUpdate 1 20, .resourceAlloc 9 10 4 0] =
        some drr ∧ drr.deficit 0 = 13 := ⟨_, rfl, rfl⟩
  have hrun := reaches_of_runOps _ hdrr
  exact ⟨drr, hrun, h0, deficit_bounded 2 10 (by decide) drr hrun⟩

/-- Packets of 10 and a budget of 1: every call adds a packet and takes off a byte. -/
theorem saved_packets_add_up : ∃ drr,
    runOps drrStep (OnePacketCall 10) (initLdDrr 1)
      [.reqUpdate 0 50, .resourceAlloc 9 10 1 0, .resourceAlloc 9 10 1 0,
        .resourceAlloc 9 10 1 0] = some drr ∧
      drr.deficit 0 = 27 ∧ ¬∀ i, drr.deficit i < 2 * 10 :=
  ⟨_, rfl, rfl, fun h => absurd (h 0) (by decide)⟩

end Drr

end LdacsSdk
