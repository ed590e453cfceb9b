import LdacsSdk.Scheduler.Drr

/-!
# Serving one user

Every branch of the inner loop gives some `x` bytes that its guards keep within the request, the
deficit counter and the resources left, so what is given moves from the request to the user's
allocation and off the resources, and no subtraction underflows.
-/
namespace LdacsSdk

open Library

/-- The subtractions of the inner loop stay within their counters. -/
theorem u64_sub {a b : ℕ} (hb : b ≤ a) (ha : a < 2 ^ 64) : u64 ((a : ℤ) - b) = a - b := by
  rw [← Int.ofNat_sub hb, u64_natCast (by omega)]

theorem u64_add {a b : ℕ} (h : a + b < 2 ^ 64) : u64 ((a : ℤ) + b) = a + b := by
  exact_mod_cast u64_natCast h

namespace Serving

/-- The counters after `x` bytes were given. -/
def give (v : Serving) (x : ℕ) : Serving :=
  { v with alloc := v.alloc + x, dc := v.dc - x, w := v.w - x, reqSz := v.reqSz - x }

/-- The counters fit 64 bits, nothing has underflowed, and the allocation makes up with the
request the `demand` and with the resources left the `supply`. -/
structure Balanced (demand supply : ℕ) (v : Serving) : Prop where
  dcLt : v.dc < 2 ^ 64
  wLt : v.w < 2 ^ 64
  demandLt : demand < 2 ^ 64
  demandEq : v.alloc + v.reqSz = demand
  supplyEq : v.alloc + v.w = supply
  noBorrow : v.borrow = false

variable {v : Serving} {demand supply pktSize wMin x : ℕ}

theorem Balanced.give (h : v.Balanced demand supply) (hw : x ≤ v.w) (hreq : x ≤ v.reqSz) :
    (v.give x).Balanced demand supply := by
  have hdemand := h.demandEq
  have hsupply := h.supplyEq
  refine ⟨?_, ?_, h.demandLt, ?_, ?_, h.noBorrow⟩ <;> simp only [Serving.give]
  · exact (Nat.sub_le _ _).trans_lt h.dcLt
  · exact (Nat.sub_le _ _).trans_lt h.wLt
  · omega
  · omega

/-- A step of the code that gives `x` bytes within all three counters. -/
theorem Balanced.givePacket_eq (h : v.Balanced demand supply) (hdc : x ≤ v.dc) (hw : x ≤ v.w)
    (hreq : x ≤ v.reqSz) : v.givePacket x = v.give x := by
  have hdemand := h.demandEq
  have hlt := h.demandLt
  simp [givePacket, Serving.give, u64_add (a := v.alloc) (b := x) (by omega),
    u64_sub hdc h.dcLt, u64_sub hw h.wLt, u64_sub hreq (by omega), hdc, hw, hreq]

theorem Balanced.giveRequested_eq (h : v.Balanced demand supply) (hdc : v.reqSz ≤ v.dc)
    (hw : v.reqSz ≤ v.w) : v.giveRequested = v.give v.reqSz := by
  have hdemand := h.demandEq
  have hlt := h.demandLt
  simp [giveRequested, Serving.give, u64_add (a := v.alloc) (b := v.reqSz) (by omega),
    u64_sub hdc h.dcLt, u64_sub hw h.wLt, hdc, hw]

theorem Balanced.giveRemaining_eq (h : v.Balanced demand supply) (hdc : v.w ≤ v.dc)
    (hreq : v.w ≤ v.reqSz) : v.giveRemaining = { v.give v.w with fragData := true } := by
  have hdemand := h.demandEq
  have hlt := h.demandLt
  simp [giveRemaining, Serving.give, u64_add (a := v.alloc) (b := v.w) (by omega),
    u64_sub hdc h.dcLt, u64_sub hreq (by omega), hdc, hreq]

/-- What one round of the inner loop can do: it leaves the counters as they are, or it goes on
after giving some bytes that all three counters cover. -/
theorem Balanced.serveRound_cases (h : v.Balanced demand supply) (pktSize wMin : ℕ) :
    serveRound pktSize wMin v = some (.leave v) ∨
      ∃ x frag, x ≤ v.w ∧ x ≤ v.reqSz ∧ (0 < pktSize → 0 < x) ∧
        serveRound pktSize wMin v = some (.again { v.give x with fragData := frag }) := by
  unfold serveRound
  split_ifs with hwant hfull hbig hrest hbig
  · refine .inr ⟨pktSize, v.fragData, hfull.1, hbig, id, ?_⟩
    rw [h.givePacket_eq hfull.2 hfull.1 hbig]
    rfl
  · refine .inr ⟨v.reqSz, v.fragData, by omega, le_rfl, fun _ => hwant.2, ?_⟩
    rw [h.giveRequested_eq (by omega) (by omega)]
    rfl
  · refine .inr ⟨v.w, true, le_rfl, hbig, fun _ => by omega, ?_⟩
    rw [h.giveRemaining_eq (by omega) hbig]
  · refine .inr ⟨v.reqSz, v.fragData, by omega, le_rfl, fun _ => hwant.2, ?_⟩
    rw [h.giveRequested_eq (by omega) (by omega)]
    rfl
  · exact .inl rfl
  · exact .inl rfl

theorem Balanced.withFrag (h : v.Balanced demand supply) (frag : Bool) :
    Balanced demand supply { v with fragData := frag } :=
  ⟨h.dcLt, h.wLt, h.demandLt, h.demandEq, h.supplyEq, h.noBorrow⟩

/-- A round that goes on keeps the balance and, if packets have a size, gives something. -/
theorem Balanced.again {v' : Serving} (h : v.Balanced demand supply)
    (hround : serveRound pktSize wMin v = some (.again v')) :
    v'.Balanced demand supply ∧ v'.w ≤ v.w ∧
      (0 < pktSize → v'.w < v.w ∧ v'.reqSz < v.reqSz) := by
  rcases h.serveRound_cases pktSize wMin with hleave | ⟨x, frag, hw, hreq, hx, hgo⟩
  · rw [hleave] at hround
    cases hround
  · rw [hgo] at hround
    cases hround
    refine ⟨(h.give hw hreq).withFrag frag, Nat.sub_le _ _, fun hp => ?_⟩
    have := hx hp
    simp only [Serving.give]
    omega

theorem Balanced.leave {v' : Serving} (h : v.Balanced demand supply)
    (hround : serveRound pktSize wMin v = some (.leave v')) : v' = v := by
  rcases h.serveRound_cases pktSize wMin with hleave | ⟨x, frag, -, -, -, hgo⟩
  · rw [hleave] at hround
    cases hround
    rfl
  · rw [hgo] at hround
    cases hround

/-- Serving a user keeps the balance. -/
theorem Balanced.serve {v' : Serving} (h : v.Balanced demand supply) {fuel : ℕ}
    (hserve : whileLoop (serveRound pktSize wMin) fuel v = some v') :
    v'.Balanced demand supply ∧ v'.w ≤ v.w := by
  refine whileLoop_invariant (Q := fun u => u.Balanced demand supply ∧ u.w ≤ v.w)
    (I := fun u => u.Balanced demand supply ∧ u.w ≤ v.w) ?_ ?_ ⟨h, le_rfl⟩ hserve
  · intro u u' hu hround
    obtain ⟨hbal, hle, -⟩ := hu.1.again hround
    exact ⟨hbal, hle.trans hu.2⟩
  · intro u u' hu hround
    obtain rfl := hu.1.leave hround
    exact hu

/-- With packets of some size, as many rounds as the request and one more are enough. -/
theorem Balanced.serve_returns (h : v.Balanced demand supply) (hp : 0 < pktSize) :
    ∃ v', whileLoop (serveRound pktSize wMin) (v.reqSz + 1) v = some v' := by
  refine whileLoop_isSome (I := Balanced demand supply) Serving.reqSz ?_ h (Nat.lt_succ_self _)
  intro u hu
  rcases hu.serveRound_cases pktSize wMin with hleave | ⟨x, frag, -, -, -, hgo⟩
  · exact ⟨_, hleave, fun u' he => by cases he⟩
  · refine ⟨_, hgo, fun u' he => ?_⟩
    obtain ⟨hbal, -, hless⟩ := hu.again (hgo.trans (congrArg some he))
    exact ⟨hbal, (hless hp).2⟩

/-- A user with a request and a deficit counter of a packet is given something. -/
theorem Balanced.serve_gives {v' : Serving} (h : v.Balanced demand supply) (hp : 0 < pktSize)
    (hdc : pktSize ≤ v.dc) (hreq : 0 < v.reqSz) (hw : wMin < v.w) {fuel : ℕ}
    (hserve : whileLoop (serveRound pktSize wMin) fuel v = some v') : v'.w < v.w := by
  refine whileLoop_invariant (Q := fun u : Serving => u.w < v.w)
    (I := fun u => u.Balanced demand supply ∧ (u = v ∨ u.w < v.w)) ?_ ?_ ⟨h, .inl rfl⟩ hserve
  · rintro u u' ⟨hu, hless⟩ hround
    obtain ⟨hbal, hle, hgive⟩ := hu.again hround
    refine ⟨hbal, .inr ?_⟩
    rcases hless with rfl | hless
    · exact (hgive hp).1
    · exact hle.trans_lt hless
  · rintro u u' ⟨hu, hless⟩ hround
    obtain rfl := hu.leave hround
    refine hless.resolve_left ?_
    rintro rfl
    -- the first round does not leave the loop
    unfold serveRound at hround
    split_ifs at hround <;> first | omega | cases hround

/-- A user whose deficit counter is below a packet, or who wants nothing, is given nothing. -/
theorem serve_none {v' : Serving} (hnone : v.dc < pktSize ∨ v.reqSz = 0) {fuel : ℕ}
    (hserve : whileLoop (serveRound pktSize wMin) fuel v = some v') : v' = v := by
  have hround : serveRound pktSize wMin v = some (.leave v) := by
    unfold serveRound
    split_ifs <;> first | rfl | omega
  exact whileLoop_of_leave hround hserve

/-- A user with a deficit counter of one packet whose request is not met is given a packet, or
what is left when that is less. -/
theorem Balanced.serve_packet {v' : Serving} (h : v.Balanced demand supply) (hp : 0 < pktSize)
    (hdc : v.dc = pktSize) (hw : wMin < v.w) {fuel : ℕ}
    (hserve : whileLoop (serveRound pktSize wMin) fuel v = some v') (hreq : 0 < v'.reqSz) :
    pktSize ≤ v.w ∧ v' = v.give pktSize ∨
      v.w < pktSize ∧ v' = { v.give v.w with fragData := true } := by
  obtain ⟨hbal, hle⟩ := h.serve hserve
  have hdemand := h.demandEq
  have hsupply := h.supplyEq
  have hdemand' := hbal.demandEq
  have hsupply' := hbal.supplyEq
  have hwant : v.dc > 0 ∧ v.reqSz > 0 := by omega
  have hmet (u : Serving) (hu : serveRound pktSize wMin v = some (.again u)) : 0 < u.reqSz := by
    obtain ⟨fuel', hrest⟩ := whileLoop_of_again hu hserve
    by_contra hzero
    rw [serve_none (.inr (by omega)) hrest] at hreq
    exact hzero hreq
  rcases Nat.lt_or_ge v.w pktSize with hshort | hfull
  · have hround : serveRound pktSize wMin v =
        if v.reqSz ≥ v.w then some (.again v.giveRemaining)
        else some (.again v.giveRequested) := by
      unfold serveRound
      rw [if_pos hwant, if_neg (by omega), if_pos (by omega)]
    split_ifs at hround with hbig
    · rw [h.giveRemaining_eq (by omega) hbig] at hround
      obtain ⟨fuel', hrest⟩ := whileLoop_of_again hround hserve
      exact .inr ⟨hshort, serve_none (.inl (by simp only [Serving.give]; omega)) hrest⟩
    · exact absurd (hmet _ hround) (by simp [giveRequested])
  · have hround : serveRound pktSize wMin v =
        if v.reqSz ≥ pktSize then some (.again (v.givePacket pktSize))
        else some (.again v.giveRequested) := by
      unfold serveRound
      rw [if_pos hwant, if_pos (by omega)]
    split_ifs at hround with hbig
    · rw [h.givePacket_eq hdc.ge hfull hbig] at hround
      obtain ⟨fuel', hrest⟩ := whileLoop_of_again hround hserve
      exact .inl ⟨hfull, serve_none (.inl (by simp only [Serving.give]; omega)) hrest⟩
    · exact absurd (hmet _ hround) (by simp [giveRequested])

end Serving

end LdacsSdk
