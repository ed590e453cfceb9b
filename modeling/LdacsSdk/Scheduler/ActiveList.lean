import LdacsSdk.Scheduler.Drr

/-!
# The active list

In every state of a run the active list holds each user at most once and has room for all of
them. Entering the users with a request puts every one of them in it, records the requests and
adds them up.
-/
namespace LdacsSdk

open Library Finset

namespace Drr

/-- What holds of a scheduler in every state of a run: users with a request have a 16-bit index,
and the active list, which has room for all users, holds users and none twice. -/
structure Sound (drr : Drr) : Prop where
  sacEq : ∀ i, (drr.reqEntitys i).sac = i % 2 ^ 16
  requesting : ∀ i, 0 < drr.req i → i < drr.maxSz ∧ i < 2 ^ 16
  reqLt : ∀ i, drr.req i < 2 ^ 64
  dcLt : ∀ i, (drr.reqEntitys i).dc < 2 ^ 64
  sizeEq : drr.activeList.size = drr.maxSz
  nodup : drr.activeList.nodes.Nodup
  listed : ∀ i ∈ drr.activeList.nodes, i < drr.maxSz ∧ i < 2 ^ 16

variable {drr : Drr}

theorem Sound.sac_eq (h : drr.Sound) {i : ℕ} (hi : i < 2 ^ 16) : (drr.reqEntitys i).sac = i := by
  rw [h.sacEq, Nat.mod_eq_of_lt hi]

theorem sound_initLdDrr (sz : ℕ) : (initLdDrr sz).Sound := by
  constructor <;> simp [initLdDrr, Drr.req, rbufferInit]

@[simp] theorem req_ldReqUpdate (sac reqSz i : ℕ) : (ldReqUpdate drr sac reqSz).req i =
    if i = sac then u64 (drr.req sac + reqSz) else drr.req i := by
  simp only [ldReqUpdate, Drr.req, Function.update_apply]
  split_ifs <;> rfl

theorem Sound.reqUpdate (h : drr.Sound) {sac : UInt16} (hsac : sac.toNat < drr.maxSz)
    (reqSz : ℕ) : (ldReqUpdate drr sac.toNat reqSz).Sound := by
  refine ⟨fun i => ?_, fun i hi => ?_, fun i => ?_, fun i => ?_, h.sizeEq, h.nodup, h.listed⟩
  · simp only [ldReqUpdate, Function.update_apply]
    split_ifs with hi
    · rw [hi]
      exact h.sacEq _
    · exact h.sacEq i
  · rw [req_ldReqUpdate] at hi
    split_ifs at hi with he
    · subst he
      exact ⟨hsac, sac.toNat_lt⟩
    · exact h.requesting i hi
  · rw [req_ldReqUpdate]
    split_ifs
    · exact u64_lt _
    · exact h.reqLt i
  · simp only [ldReqUpdate, Function.update_apply]
    split_ifs
    · exact h.dcLt _
    · exact h.dcLt i

/-- The active list has room for every user that is not in it. -/
theorem Sound.room (h : drr.Sound) {i : ℕ} (hi : i < drr.maxSz)
    (hout : i ∉ drr.activeList.nodes) : drr.activeList.nodes.length < drr.activeList.size := by
  have hsub : i :: drr.activeList.nodes ⊆ List.range drr.maxSz := by
    intro j hj
    rcases List.mem_cons.mp hj with rfl | hj
    · exact List.mem_range.mpr hi
    · exact List.mem_range.mpr (h.listed j hj).1
  have hlen := (List.subperm_of_subset (List.nodup_cons.mpr ⟨hout, h.nodup⟩) hsub).length_le
  rw [List.length_range] at hlen
  rw [h.sizeEq]
  exact hlen

theorem Sound.length_le (h : drr.Sound) :
    drr.activeList.nodes.length ≤ drr.activeList.size := by
  have hsub : drr.activeList.nodes ⊆ List.range drr.maxSz := fun j hj =>
    List.mem_range.mpr (h.listed j hj).1
  have hlen := (List.subperm_of_subset h.nodup hsub).length_le
  rwa [List.length_range, ← h.sizeEq] at hlen

/-- The search of the active list by SAC finds exactly the users in it. -/
theorem Sound.checkExist_iff (h : drr.Sound) {i : ℕ} (hi : i < 2 ^ 16) :
    rbufferCheckExist drr.activeList i (drrFac drr.reqEntitys) = true ↔
      i ∈ drr.activeList.nodes := by
  simp only [rbufferCheckExist, List.any_eq_true, drrFac, beq_iff_eq, h.sac_eq hi]
  constructor
  · rintro ⟨j, hj, he⟩
    rw [h.sac_eq (h.listed j hj).2] at he
    exact he ▸ hj
  · exact fun hmem => ⟨i, hmem, h.sac_eq hi⟩

end Drr

/-- The first `n` users have been looked at for the active list. -/
structure Registered (drr : Drr) (n : ℕ) (s : Drr × ℕ) : Prop where
  sound : s.1.Sound
  maxSzEq : s.1.maxSz = drr.maxSz
  reqEq : ∀ i, s.1.req i = drr.req i
  entered : ∀ i < n, 0 < drr.req i → i ∈ s.1.activeList.nodes
  recorded : ∀ i < n, 0 < drr.req i → s.1.reqSzs i = drr.req i
  totalLe : s.2 ≤ ∑ i ∈ range n, drr.req i
  totalLt : s.2 < 2 ^ 64

/-- A user that is not in the active list is appended with an empty deficit counter. -/
def Drr.enter (drr : Drr) (i : ℕ) : Drr :=
  if rbufferCheckExist drr.activeList i (drrFac drr.reqEntitys) then drr
  else
    { drr with
      activeList := (rbufferPushBack drr.activeList i).1
      reqEntitys := Function.update drr.reqEntitys i { drr.reqEntitys i with dc := 0 } }

theorem drrRegister_eq (s : Drr × ℕ) (i : ℕ) : drrRegister s i =
    if s.1.req i = 0 then s
    else ({ s.1.enter i with
        reqSzs := Function.update s.1.reqSzs (s.1.reqEntitys i).sac (s.1.req i) },
      u64 (s.2 + s.1.req i)) := rfl

theorem Drr.Sound.enter {drr : Drr} (h : drr.Sound) {i : ℕ} (hi : 0 < drr.req i) :
    (drr.enter i).Sound ∧ (drr.enter i).maxSz = drr.maxSz ∧
      (∀ j, (drr.enter i).req j = drr.req j) ∧ i ∈ (drr.enter i).activeList.nodes ∧
      drr.activeList.nodes ⊆ (drr.enter i).activeList.nodes := by
  obtain ⟨hmax, hlt⟩ := h.requesting i hi
  have hfound := h.checkExist_iff hlt
  unfold Drr.enter
  split_ifs with hin
  · exact ⟨h, rfl, fun _ => rfl, hfound.mp hin, List.Subset.refl _⟩
  · have hout : i ∉ drr.activeList.nodes := mt hfound.mpr hin
    rw [rbufferPushBack_room (h.room hmax hout)]
    have hreq : ∀ j, (Function.update drr.reqEntitys i { drr.reqEntitys i with dc := 0 } j).reqSz =
        drr.req j := by
      intro j
      rw [Function.update_apply]
      split_ifs with hj
      · rw [hj]; rfl
      · rfl
    refine ⟨⟨fun j => ?_, fun j hj => ?_, fun j => ?_, fun j => ?_, h.sizeEq, ?_, fun j hj => ?_⟩,
      rfl, hreq, by simp, by simp⟩
    · simp only [Function.update_apply]
      split_ifs with hj
      · rw [hj]
        exact h.sacEq i
      · exact h.sacEq j
    · exact h.requesting j (by rw [← hreq j]; exact hj)
    · exact (hreq j).trans_lt (h.reqLt j)
    · simp only [Function.update_apply]
      split_ifs
      · exact Nat.two_pow_pos 64
      · exact h.dcLt j
    · exact List.nodup_append'.mpr ⟨h.nodup, List.nodup_singleton i, by simpa using hout⟩
    · rcases List.mem_append.mp hj with hj | hj
      · exact h.listed j hj
      · rw [List.mem_singleton.mp hj]
        exact ⟨hmax, hlt⟩

theorem registered_zero {drr : Drr} (h : drr.Sound) : Registered drr 0 (drr, 0) :=
  ⟨h, rfl, fun _ => rfl, fun _ hi => absurd hi (Nat.not_lt_zero _),
    fun _ hi => absurd hi (Nat.not_lt_zero _), le_rfl, Nat.two_pow_pos 64⟩

theorem Registered.next {drr : Drr} {n : ℕ} {s : Drr × ℕ} (h : Registered drr n s) :
    Registered drr (n + 1) (drrRegister s n) := by
  rw [drrRegister_eq]
  have hn := h.reqEq n
  split_ifs with hzero
  · have hskip : ∀ i < n + 1, 0 < drr.req i → i < n := by
      intro i hi hpos
      rcases Nat.lt_succ_iff_lt_or_eq.mp hi with hlt | rfl
      · exact hlt
      · omega
    refine ⟨h.sound, h.maxSzEq, h.reqEq, fun i hi hpos => h.entered i (hskip i hi hpos) hpos,
      fun i hi hpos => h.recorded i (hskip i hi hpos) hpos, ?_, h.totalLt⟩
    rw [sum_range_succ]
    exact h.totalLe.trans (Nat.le_add_right _ _)
  · have hpos : 0 < s.1.req n := Nat.pos_of_ne_zero hzero
    obtain ⟨hsound, hmax, hreq, hmem, hsub⟩ := h.sound.enter hpos
    have hsac := h.sound.sac_eq (h.sound.requesting n hpos).2
    refine ⟨⟨hsound.sacEq, hsound.requesting, hsound.reqLt, hsound.dcLt, hsound.sizeEq,
      hsound.nodup, hsound.listed⟩, hmax.trans h.maxSzEq, fun i => (hreq i).trans (h.reqEq i),
      fun i hi hi' => ?_, fun i hi hi' => ?_, ?_, ?_⟩
    · rcases Nat.lt_succ_iff_lt_or_eq.mp hi with hlt | rfl
      · exact hsub (h.entered i hlt hi')
      · exact hmem
    · simp only [hsac, Function.update_apply]
      split_ifs with he
      · rw [he, hn]
      · exact h.recorded i (by omega) hi'
    · rw [sum_range_succ, ← hn]
      have hle := h.totalLe
      have hu : u64 ((s.2 : ℤ) + s.1.req n) ≤ s.2 + s.1.req n := by
        unfold u64
        omega
      simp only
      omega
    · exact u64_lt ((s.2 : ℤ) + s.1.req n)

theorem registered_upto {drr : Drr} (h : drr.Sound) (n : ℕ) :
    Registered drr n ((List.range n).foldl drrRegister (drr, 0)) := by
  induction n with
  | zero => exact registered_zero h
  | succ n ih =>
    rw [List.range_succ, List.foldl_append]
    exact ih.next

/-- Entering the users adds up their requests in 64 bits. -/
theorem register_total {drr : Drr} (h : drr.Sound) (n : ℕ) :
    ((List.range n).foldl drrRegister (drr, 0)).2 = (∑ i ∈ range n, drr.req i) % 2 ^ 64 := by
  induction n with
  | zero => rfl
  | succ n ih =>
    have hreq := (registered_upto h n).reqEq n
    rw [List.range_succ, List.foldl_append, List.foldl_cons, List.foldl_nil, drrRegister_eq, hreq,
      sum_range_succ]
    split_ifs with hzero
    · rw [hzero, Nat.add_zero]
      exact ih
    · simp only [ih, u64]
      omega

theorem registered_all {drr : Drr} (h : drr.Sound) :
    Registered drr drr.maxSz (drrRegisterAll drr) := registered_upto h _

end LdacsSdk
