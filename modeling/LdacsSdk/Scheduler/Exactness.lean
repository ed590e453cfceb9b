import LdacsSdk.Scheduler.Conservation

/-!
# The active list after a call

After every allocation the active list is exactly the users that still have a request, and no
push into it fails on the way.
-/
namespace LdacsSdk

open Library Finset

namespace Drr

/-- The active list holds the users with a request, no other and none twice. -/
structure ExactList (drr : Drr) : Prop where
  nodup : drr.activeList.nodes.Nodup
  mem_iff : ∀ i, i ∈ drr.activeList.nodes ↔ 0 < drr.req i

/-- Every user in the active list has a request. -/
def OnlyRequesting (drr : Drr) : Prop := ∀ i ∈ drr.activeList.nodes, 0 < drr.req i

/-- The call names a user, and no request that is still to be served wraps around to zero. -/
def KeepsDemand (drr : Drr) : DrrOp → Prop
  | .reqUpdate sac reqSz => sac.toNat < drr.maxSz ∧
      (0 < drr.req sac.toNat → 0 < u64 (drr.req sac.toNat + reqSz.toNat))
  | .resourceAlloc _ _ _ _ => True

instance (drr : Drr) : (op : DrrOp) → Decidable (drr.KeepsDemand op)
  | .reqUpdate _ _ => inferInstanceAs (Decidable (_ ∧ (_ → _)))
  | .resourceAlloc _ _ _ _ => inferInstanceAs (Decidable True)

end Drr

/-- The loop of a call has come to the state `s`. -/
def InLoop (drr : Drr) (pktSize w wMin : ℕ) : Allocation → Prop :=
  Relation.ReflTransGen (fun s s' => drrRound pktSize wMin s = some (.again s')) (drrEnter drr w)

/-- No push of a call fails: not when a user is entered, and not when one that was popped goes
back to either end. -/
structure PushesSucceed (drr : Drr) (pktSize w wMin : ℕ) : Prop where
  entering : ∀ n < drr.maxSz,
    let s := (List.range n).foldl drrRegister (drr, 0)
    0 < s.1.req n → rbufferCheckExist s.1.activeList n (drrFac s.1.reqEntitys) = false →
      (rbufferPushBack s.1.activeList n).2 = .ldOk
  serving : ∀ s, InLoop drr pktSize w wMin s → ∀ rest i,
    rbufferPop s.drr.activeList = (rest, some i) →
      (rbufferPushFront rest i).2 = .ldOk ∧ (rbufferPushBack rest i).2 = .ldOk

section Calls

variable {drr drr₀ : Drr} {supply pktSize w wMin i : ℕ} {s s' : Allocation} {rest : List ℕ}

/-- Entering the users adds only users with a request. -/
theorem mem_register {n : ℕ} (h : drr.Sound)
    (hi : i ∈ ((List.range n).foldl drrRegister (drr, 0)).1.activeList.nodes) :
    i ∈ drr.activeList.nodes ∨ 0 < drr.req i := by
  induction n with
  | zero => exact .inl hi
  | succ n ih =>
    have hreq := (registered_upto h n).reqEq
    rw [List.range_succ, List.foldl_append, List.foldl_cons, List.foldl_nil, drrRegister_eq] at hi
    generalize (List.range n).foldl drrRegister (drr, 0) = u at *
    split_ifs at hi with hzero
    · exact ih hi
    · unfold Drr.enter at hi
      split_ifs at hi with hin
      · exact ih hi
      · simp only [rbufferPushBack] at hi
        split_ifs at hi with hfull
        · exact ih hi
        · rcases List.mem_append.mp hi with hold | hnew
          · exact ih hold
          · rw [List.mem_singleton.mp hnew, ← hreq n]
            exact .inr (Nat.pos_of_ne_zero hzero)

theorem onlyRequesting_enter (h : drr.Sound) (hlist : drr.OnlyRequesting) :
    (drrEnter drr w).drr.OnlyRequesting := by
  intro i hi
  have hreq := (registered_all h).reqEq i
  change 0 < (drrRegisterAll drr).1.req i
  rw [hreq]
  exact (mem_register h hi).elim (hlist i) id

/-- A user that has been given all it asked for leaves the list, and no other does. -/
theorem Granting.onlyRequesting_served (h : Granting drr₀ supply s)
    (hnodes : s.drr.activeList.nodes = i :: rest) (hlist : s.drr.OnlyRequesting) {v : Serving}
    (hv : v.Balanced (drr₀.req i) (s.allocMap i + s.w)) :
    (s.served i { s.drr.activeList with nodes := rest } v).drr.OnlyRequesting := by
  have hi : i ∈ s.drr.activeList.nodes := by simp [hnodes]
  have hasked : 0 < drr₀.req i := by
    have hbefore := hlist i hi
    have hdemand := h.demandEq i
    omega
  have hvDemand := hv.demandEq
  have hnotMem : i ∉ rest := by
    have hnodup := h.sound.nodup
    rw [hnodes, List.nodup_cons] at hnodup
    exact hnodup.1
  intro j hj
  rw [h.served_activeList hnodes, h.recorded i hasked] at hj
  rw [Granting.served_req]
  have hrest (hmem : j ∈ rest) : 0 < s.drr.req j := hlist j (by simp [hnodes, hmem])
  split_ifs with hji
  · subst hji
    by_contra hzero
    have hall : v.alloc = drr₀.req j := by omega
    simp only [hall, if_true] at hj
    exact hnotMem hj
  · simp only at hj
    split_ifs at hj
    · exact hrest hj
    · exact hrest ((List.mem_cons.mp hj).resolve_left hji)
    · exact hrest ((List.mem_append.mp hj).resolve_right (by simpa using hji))

theorem Granting.onlyRequesting_round (h : Granting drr₀ supply s)
    (hlist : s.drr.OnlyRequesting) (hround : drrRound pktSize wMin s = some (.again s')) :
    Granting drr₀ supply s' ∧ s'.drr.OnlyRequesting := by
  refine ⟨h.round hround, ?_⟩
  obtain ⟨i, rest, v, -, hnodes, hserve, rfl⟩ := drrRound_again hround
  exact h.onlyRequesting_served hnodes hlist
    ((h.serving_balanced (by simp [hnodes])).serve hserve).1

theorem Granting.onlyRequesting_loop (h : Granting drr₀ supply s) (hlist : s.drr.OnlyRequesting)
    {fuel : ℕ} {t : Allocation} (hloop : whileLoop (drrRound pktSize wMin) fuel s = some t) :
    Granting drr₀ supply t ∧ t.drr.OnlyRequesting := by
  apply whileLoop_invariant (I := fun u => Granting drr₀ supply u ∧ u.drr.OnlyRequesting) _ _
    ⟨h, hlist⟩ hloop
  · rintro u u' ⟨hu, honly⟩ hround
    exact hu.onlyRequesting_round honly hround
  · rintro u u' hu hround
    rw [drrRound_leave hround]
    exact hu

/-- What a call leaves in the active list. -/
theorem exactList_of_call (h : drr.Sound) (hlist : drr.OnlyRequesting) {fuel : ℕ}
    (hw : w < 2 ^ 64) {r : Allocation}
    (hr : drrResourceAlloc fuel drr pktSize w wMin = some r) : r.drr.ExactList := by
  obtain ⟨hgrant, honly⟩ :=
    (granting_enter h hw).onlyRequesting_loop (onlyRequesting_enter h hlist) hr
  exact ⟨hgrant.sound.nodup, fun i => ⟨honly i, hgrant.waiting i⟩⟩

theorem granting_inLoop (h : drr.Sound) (hw : w < 2 ^ 64) (hs : InLoop drr pktSize w wMin s) :
    Granting drr (effectiveW drr w) s := by
  induction hs with
  | refl => exact granting_enter h hw
  | tail _ hround ih => exact ih.round hround

theorem pushesSucceed (h : drr.Sound) (hw : w < 2 ^ 64) : PushesSucceed drr pktSize w wMin := by
  constructor
  · intro n hn s hreq hnew
    have hr := registered_upto h n
    have hlt := (hr.sound.requesting n hreq).2
    have hout : n ∉ s.1.activeList.nodes := by
      intro hmem
      rw [(hr.sound.checkExist_iff hlt).mpr hmem] at hnew
      cases hnew
    have hroom : s.1.activeList.nodes.length < s.1.activeList.size :=
      hr.sound.room (hr.sound.requesting n hreq).1 hout
    simp [rbufferPushBack, Nat.not_le.mpr hroom]
  · intro s hs rest i hpop
    have hlen := (granting_inLoop h hw hs).sound.length_le
    unfold rbufferPop at hpop
    split at hpop
    · cases hpop
    · rename_i data nodes hnodes
      cases hpop
      rw [hnodes, List.length_cons] at hlen
      have hroom : ¬nodes.length ≥ s.drr.activeList.size := by omega
      simp [rbufferPushFront, rbufferPushBack, hroom]

end Calls

namespace Drr

variable {drr : Drr}

theorem KeepsDemand.userCall {op : DrrOp} (h : drr.KeepsDemand op) : drr.UserCall op := by
  cases op with
  | reqUpdate sac reqSz => exact h.1
  | resourceAlloc fuel pktSize w wMin => trivial

/-- No call lets a user without a request into the active list. -/
theorem OnlyRequesting.step (hlist : drr.OnlyRequesting) (h : drr.Sound) {op : DrrOp} {drr' : Drr}
    (hcall : drr.KeepsDemand op) (hstep : drrStep drr op = some drr') : drr'.OnlyRequesting := by
  intro i hi
  cases op with
  | reqUpdate sac reqSz =>
    obtain rfl := Option.some.inj hstep
    have hbefore := hlist i hi
    rw [req_ldReqUpdate]
    split_ifs with hsac
    · rw [hsac] at hbefore
      exact hcall.2 hbefore
    · exact hbefore
  | resourceAlloc fuel pktSize w wMin =>
    obtain ⟨r, hr, rfl⟩ := Option.map_eq_some_iff.mp hstep
    exact ((exactList_of_call h hlist w.toNat_lt hr).mem_iff i).mp hi

theorem onlyRequesting_of_reaches {sz : ℕ}
    (h : Reaches drrStep KeepsDemand (initLdDrr sz) drr) : drr.Sound ∧ drr.OnlyRequesting := by
  apply h.invariant (P := fun d => d.Sound ∧ d.OnlyRequesting)
  · exact ⟨sound_initLdDrr sz, by simp [OnlyRequesting, initLdDrr, rbufferInit]⟩
  · rintro d op d' ⟨hsound, hlist⟩ hcall hstep
    exact ⟨hsound.step hcall.userCall hstep, hlist.step hsound hcall hstep⟩

/-- **The active list is exact.** In every state of a run from `init_ld_drr` in which no request
wraps around to zero, a call with packets of some size returns, its active list is then exactly
the users whose request is not met, and none of its pushes fails. -/
theorem active_list_exact (sz : ℕ) (drr : Drr)
    (h : Reaches drrStep KeepsDemand (initLdDrr sz) drr) (pktSize w wMin : UInt64)
    (hp : 0 < pktSize.toNat) :
    (∃ fuel r, (∀ k, drrResourceAlloc (fuel + k) drr pktSize.toNat w.toNat wMin.toNat = some r) ∧
      r.drr.ExactList) ∧ PushesSucceed drr pktSize.toNat w.toNat wMin.toNat := by
  obtain ⟨hs, hlist⟩ := onlyRequesting_of_reaches h
  obtain ⟨r, fuel, hr⟩ := (granting_enter hs w.toNat_lt).loop_returns hp pktSize.toNat_lt
    ((effectiveW_le hs w.toNat).trans (Nat.min_le_right _ _)) wMin.toNat
  exact ⟨⟨fuel, r, hr, exactList_of_call hs hlist w.toNat_lt (hr 0)⟩,
    pushesSucceed hs w.toNat_lt⟩

/-- Two users, one of them cut short in an earlier call. -/
theorem active_list_exact_two_users : ∃ drr, Reaches drrStep KeepsDemand (initLdDrr 4) drr ∧
    drr.req 0 = 30 ∧ drr.req 1 = 40 ∧
      (∃ fuel r, (∀ k, drrResourceAlloc (fuel + k) drr 20 50 0 = some r) ∧ r.drr.ExactList) ∧
      PushesSucceed drr 20 50 0 := by
  obtain ⟨drr, hdrr, h0, h1⟩ : ∃ drr, runOps drrStep KeepsDemand (initLdDrr 4)
      [.reqUpdate 0 35, .resourceAlloc 9 20 5 0, .reqUpdate 1 40] = some drr ∧
      drr.req 0 = 30 ∧ drr.req 1 = 40 := ⟨_, rfl, rfl, rfl⟩
  have hrun := reaches_of_runOps _ hdrr
  exact ⟨drr, hrun, h0, h1, active_list_exact 4 drr hrun 20 50 0 (by decide)⟩

/-- A request of 5 is cut short at 2, and an update makes the remaining 3 wrap around to zero:
after the next call the user is still in the list. -/
theorem wrapped_request_stays_listed : ∃ drr r,
    runOps drrStep UserCall (initLdDrr 1)
      [.reqUpdate 0 5, .resourceAlloc 9 4 2 0, .reqUpdate 0 0xFFFFFFFFFFFFFFFD] = some drr ∧
    drrResourceAlloc 9 drr 4 2 0 = some r ∧ r.drr.req 0 = 0 ∧ r.drr.activeList.nodes = [0] :=
  ⟨_, _, rfl, rfl, rfl, rfl⟩

end Drr

end LdacsSdk
