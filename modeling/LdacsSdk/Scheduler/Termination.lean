import LdacsSdk.Scheduler.Conservation

/-!
# Which calls return

With packets of some size every round of the outer loop gets nearer to its end. With packets of no
size a visit gives nothing: a user with a deficit is served for ever, one without goes back to the
list unchanged. So such a call returns only if it has nothing to hand out from the start.
-/
namespace LdacsSdk

open Library Finset

namespace Serving

variable {v : Serving} {demand supply wMin : ℕ}

/-- With packets of no size the counters of a user with a deficit and a request stay as they are,
round after round. -/
theorem Balanced.serve_forever (h : v.Balanced demand supply) (hdc : 0 < v.dc)
    (hreq : 0 < v.reqSz) (fuel : ℕ) : whileLoop (serveRound 0 wMin) fuel v = none := by
  apply whileLoop_never (I := fun u => u = v) _ rfl
  rintro u rfl
  refine .inr ⟨u, ?_, rfl⟩
  have hsame : u.givePacket 0 = u := h.givePacket_eq (Nat.zero_le _) (Nat.zero_le _) (Nat.zero_le _)
  unfold serveRound
  rw [if_pos ⟨hdc, hreq⟩, if_pos ⟨Nat.zero_le _, Nat.zero_le _⟩, if_pos (Nat.zero_le _), hsame]

/-- A user without a deficit or without a request is left at once. -/
theorem serve_idle {pktSize : ℕ} (hidle : v.dc = 0 ∨ v.reqSz = 0) (n : ℕ) :
    whileLoop (serveRound pktSize wMin) (n + 1) v = some v := by
  have hround : serveRound pktSize wMin v = some (.leave v) := by
    unfold serveRound
    rw [if_neg (by omega)]
  simp [whileLoop, hround]

end Serving

namespace Drr

/-- The call returns: from some number of rounds on its result does not depend on it. -/
def Returns (drr : Drr) (pktSize w wMin : ℕ) : Prop :=
  ∃ fuel r, ∀ k, drrResourceAlloc (fuel + k) drr pktSize w wMin = some r

end Drr

/-- With packets of no size the loop is never left as long as it has something to hand out. -/
theorem Granting.loop_forever {drr₀ : Drr} {supply wMin : ℕ} {s : Allocation}
    (h : Granting drr₀ supply s) (hsupply : supply ≤ ∑ i ∈ range drr₀.maxSz, drr₀.req i)
    (hw : wMin < s.w) (fuel : ℕ) : whileLoop (drrRound 0 wMin) fuel s = none := by
  apply whileLoop_never (I := fun u => Granting drr₀ supply u ∧ wMin < u.w) _ ⟨h, hw⟩
  rintro u ⟨hu, huw⟩
  obtain ⟨j, hj⟩ := hu.exists_waiting hsupply (by omega)
  cases hnodes : u.drr.activeList.nodes with
  | nil =>
    have hmem := hu.waiting j hj
    simp [hnodes] at hmem
  | cons i rest =>
    have hi : i ∈ u.drr.activeList.nodes := by simp [hnodes]
    have hround := drrRound_visit 0 huw hnodes
    by_cases hidle : (u.serving 0 i).dc = 0 ∨ (u.serving 0 i).reqSz = 0
    · rw [Serving.serve_idle hidle] at hround
      exact .inr ⟨_, hround, hu.round hround, huw⟩
    · rw [(hu.serving_balanced hi).serve_forever (by omega) (by omega)] at hround
      exact .inl hround

namespace Drr

variable {drr : Drr}

/-- **The calls that return.** In every state of every run a call returns if and only if its
packets have a size or it has nothing to hand out above the threshold. -/
theorem alloc_returns_iff (sz : ℕ) (drr : Drr) (h : Reaches drrStep UserCall (initLdDrr sz) drr)
    (pktSize w wMin : UInt64) : drr.Returns pktSize.toNat w.toNat wMin.toNat ↔
      0 < pktSize.toNat ∨ min w.toNat drr.totalReq ≤ wMin.toNat := by
  have hs := sound_of_reaches h
  have hgrant := granting_enter hs w.toNat_lt
  have hsupply := (effectiveW_le hs w.toNat).trans (Nat.min_le_right _ _)
  rw [← effectiveW_eq hs]
  constructor
  · rintro ⟨fuel, r, hr⟩
    by_contra hboth
    obtain ⟨hp, hout⟩ := not_or.mp hboth
    have hforever := hgrant.loop_forever hsupply (not_le.mp hout) (fuel + 0)
    have hreturned := hr 0
    unfold drrResourceAlloc at hreturned
    rw [Nat.eq_zero_of_not_pos hp, hforever] at hreturned
    cases hreturned
  · rintro (hp | hnothing)
    · obtain ⟨r, fuel, hr⟩ := hgrant.loop_returns hp pktSize.toNat_lt hsupply wMin.toNat
      exact ⟨fuel, r, hr⟩
    · refine ⟨1, drrEnter drr w.toNat, fun k => ?_⟩
      have hround : drrRound pktSize.toNat wMin.toNat (drrEnter drr w.toNat) =
          some (.leave (drrEnter drr w.toNat)) := by
        unfold drrRound
        exact if_neg (not_lt.mpr hnothing)
      simp [drrResourceAlloc, Nat.add_comm 1 k, whileLoop, hround]

/-- A run with a user that was cut short before: a call with a packet size returns. -/
theorem alloc_returns_cut_short : ∃ drr, Reaches drrStep UserCall (initLdDrr 4) drr ∧
    drr.totalReq = 30 ∧ (drr.Returns 20 50 0 ↔ 0 < 20 ∨ min 50 drr.totalReq ≤ 0) := by
  obtain ⟨drr, hdrr, htotal⟩ : ∃ drr, runOps drrStep UserCall (initLdDrr 4)
      [.reqUpdate 0 35, .resourceAlloc 9 20 5 0] = some drr ∧ drr.totalReq = 30 := ⟨_, rfl, rfl⟩
  have hrun := reaches_of_runOps _ hdrr
  exact ⟨drr, hrun, htotal, alloc_returns_iff 4 drr hrun 20 50 0⟩

/-- One user with a request of 5 and packets of no size: the call does not return. -/
theorem packets_of_no_size_never_return : ∃ drr,
    runOps drrStep UserCall (initLdDrr 1) [.reqUpdate 0 5] = some drr ∧ ¬drr.Returns 0 10 0 := by
  refine ⟨_, rfl, ?_⟩
  rintro ⟨fuel, r, hr⟩
  have huser : (0 : UInt16).toNat < (initLdDrr 1).maxSz := by decide
  have hs : (ldReqUpdate (initLdDrr 1) 0 5).Sound := (sound_initLdDrr 1).reqUpdate huser 5
  have hforever : drrResourceAlloc (fuel + 0) (ldReqUpdate (initLdDrr 1) 0 5) 0 10 0 = none :=
    (granting_enter hs (by decide)).loop_forever
      ((effectiveW_le hs 10).trans (Nat.min_le_right _ _)) (by decide) (fuel + 0)
  exact absurd (hforever.symm.trans (hr 0)) (by simp)

end Drr

end LdacsSdk
