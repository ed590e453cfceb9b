import LdacsSdk.Scheduler.Exactness
import LdacsSdk.Scheduler.Fairness
import LdacsSdk.Library.RoundRobin

/-!
# The underloaded case

When the requests fit the resources the code sets `W` to their total, so that from then on it is
the total of what is still requested. The loop nevertheless stops at the threshold `W_min`, so
the last user to leave is served to the end only if its last part, which is all that is requested
by then, is above the threshold.
-/
namespace LdacsSdk

open Library Finset

/-- The turns of a user that enters the loop with the deficit counter `dc`. In the first ones the
counter wraps below a packet; the next hands out the packets that it has saved and one more, and
every later one a packet. -/
def turnsNeeded (pktSize dc reqSz : ℕ) : ℕ :=
  dc / (2 ^ 64 - pktSize) + ((reqSz - 1) / pktSize - dc % (2 ^ 64 - pktSize) / pktSize) + 1

/-- What a user is still to be given when the resources are compared with the threshold for the
last time before its request is met: the part of a packet at the end or, with whole packets only,
all of its last turn. -/
def lastPart (pktSize dc reqSz : ℕ) : ℕ :=
  if reqSz % pktSize ≠ 0 then reqSz % pktSize
  else if (reqSz - 1) / pktSize ≤ dc % (2 ^ 64 - pktSize) / pktSize then reqSz
  else pktSize

section Turns

variable {pktSize dc reqSz : ℕ}

theorem turnsNeeded_pos : 0 < turnsNeeded pktSize dc reqSz := Nat.succ_pos _

theorem lastPart_le (hreq : 0 < reqSz) : lastPart pktSize dc reqSz ≤ reqSz := by
  unfold lastPart
  split_ifs with hpart
  · exact Nat.mod_le _ _
  · exact le_rfl
  · exact Nat.le_of_dvd hreq (Nat.dvd_of_mod_eq_zero (not_not.mp hpart))

/-- The counter of a turn: a packet is added, or it wraps below a packet. -/
theorem u64_packet (hdc : dc < 2 ^ 64) (hp' : pktSize < 2 ^ 64) :
    dc < 2 ^ 64 - pktSize ∧ u64 (dc + pktSize) = dc + pktSize ∨
      2 ^ 64 - pktSize ≤ dc ∧ u64 (dc + pktSize) = dc - (2 ^ 64 - pktSize) := by
  unfold u64
  omega

/-- A turn with the packets that the counter covers, when they do not meet the request. -/
theorem turnsNeeded_packets (hp : 0 < pktSize) (hfit : dc < 2 ^ 64 - pktSize)
    (hmore : (dc / pktSize + 1) * pktSize < reqSz) :
    turnsNeeded pktSize dc reqSz =
        turnsNeeded pktSize (dc % pktSize) (reqSz - (dc / pktSize + 1) * pktSize) + 1 ∧
      lastPart pktSize (dc % pktSize) (reqSz - (dc / pktSize + 1) * pktSize) =
        lastPart pktSize dc reqSz := by
  have hlow : dc % pktSize < 2 ^ 64 - pktSize := (Nat.mod_le _ _).trans_lt hfit
  have hge : dc / pktSize + 1 ≤ (reqSz - 1) / pktSize :=
    (Nat.le_div_iff_mul_le hp).mpr (Nat.le_sub_one_of_lt hmore)
  have hmod : (reqSz - (dc / pktSize + 1) * pktSize) % pktSize = reqSz % pktSize := by
    rw [Nat.mul_comm]
    exact Nat.sub_mul_mod (by rw [Nat.mul_comm]; exact hmore.le)
  have hdiv : (reqSz - (dc / pktSize + 1) * pktSize - 1) / pktSize =
      (reqSz - 1) / pktSize - (dc / pktSize + 1) := by
    rw [Nat.sub_right_comm, Nat.mul_comm, Nat.sub_mul_div]
  simp only [turnsNeeded, lastPart, Nat.div_eq_of_lt hlow, Nat.mod_eq_of_lt hlow,
    Nat.div_eq_of_lt hfit, Nat.mod_eq_of_lt hfit, Nat.div_eq_of_lt (Nat.mod_lt dc hp), hmod]
  constructor
  · omega
  · rw [if_neg (show ¬(reqSz - 1) / pktSize ≤ dc / pktSize by omega)]
    split_ifs with hpart hone
    · rfl
    · -- a whole packet is left
      obtain ⟨n, hn⟩ := Nat.dvd_of_mod_eq_zero (hmod.trans (not_not.mp hpart))
      rw [hn] at hone ⊢
      have hpos : 0 < pktSize * n := by omega
      have hlt : pktSize * n - 1 < pktSize * 1 := by
        have := (Nat.div_lt_iff_lt_mul hp).mp (Nat.lt_succ_of_le hone)
        omega
      have hn1 : n ≤ 1 := by
        by_contra hbig
        have := Nat.mul_le_mul_left pktSize (show 2 ≤ n by omega)
        omega
      have hn0 : 0 < n := Nat.pos_of_mul_pos_left hpos
      rw [show n = 1 by omega, Nat.mul_one]
    · rfl

/-- A turn whose counter wraps below a packet. -/
theorem turnsNeeded_wrapped (hp' : pktSize < 2 ^ 64) (hwrap : 2 ^ 64 - pktSize ≤ dc) :
    turnsNeeded pktSize dc reqSz = turnsNeeded pktSize (dc - (2 ^ 64 - pktSize)) reqSz + 1 ∧
      lastPart pktSize (dc - (2 ^ 64 - pktSize)) reqSz = lastPart pktSize dc reqSz := by
  have hg : 0 < 2 ^ 64 - pktSize := by omega
  have hdiv := Nat.div_eq_sub_div hg hwrap
  have hmod := Nat.mod_eq_sub_mod hwrap
  constructor
  · simp only [turnsNeeded, hdiv, hmod]
    omega
  · simp only [lastPart, hmod]

/-- A turn that does not meet the request is one of those that are needed. -/
theorem turnsNeeded_turn (hp : 0 < pktSize) (hp' : pktSize < 2 ^ 64) (hdc : dc < 2 ^ 64)
    (hmore : u64 (dc + pktSize) / pktSize * pktSize < reqSz) :
    turnsNeeded pktSize dc reqSz =
        turnsNeeded pktSize (u64 (dc + pktSize) % pktSize)
          (reqSz - u64 (dc + pktSize) / pktSize * pktSize) + 1 ∧
      lastPart pktSize (u64 (dc + pktSize) % pktSize)
        (reqSz - u64 (dc + pktSize) / pktSize * pktSize) = lastPart pktSize dc reqSz := by
  rcases u64_packet hdc hp' with ⟨hfit, heq⟩ | ⟨hwrap, heq⟩
  · rw [heq, Nat.add_div_right dc hp] at hmore
    rw [heq, Nat.add_div_right dc hp, Nat.add_mod_right]
    exact turnsNeeded_packets hp hfit hmore
  · have hsmall : dc - (2 ^ 64 - pktSize) < pktSize := by omega
    rw [heq, Nat.div_eq_of_lt hsmall, Nat.mod_eq_of_lt hsmall, Nat.zero_mul, Nat.sub_zero]
    exact turnsNeeded_wrapped hp' hwrap

/-- A turn that meets the request is the only one that is needed. -/
theorem turnsNeeded_met (hp : 0 < pktSize) (hp' : pktSize < 2 ^ 64) (hdc : dc < 2 ^ 64)
    (hreq : 0 < reqSz) (hmet : reqSz ≤ u64 (dc + pktSize) / pktSize * pktSize) :
    turnsNeeded pktSize dc reqSz = 1 ∧
      lastPart pktSize dc reqSz = if reqSz % pktSize ≠ 0 then reqSz % pktSize else reqSz := by
  rcases u64_packet hdc hp' with ⟨hfit, heq⟩ | ⟨hwrap, heq⟩
  · rw [heq, Nat.add_div_right dc hp] at hmet
    have hle : (reqSz - 1) / pktSize ≤ dc / pktSize := by
      apply Nat.le_of_lt_succ
      exact (Nat.div_lt_iff_lt_mul hp).mpr (lt_of_lt_of_le (by omega) hmet)
    simp only [turnsNeeded, lastPart, Nat.div_eq_of_lt hfit, Nat.mod_eq_of_lt hfit, if_pos hle,
      and_true]
    omega
  · have hsmall : dc - (2 ^ 64 - pktSize) < pktSize := by omega
    rw [heq, Nat.div_eq_of_lt hsmall] at hmet
    omega

end Turns

/-! ### One turn -/

namespace Serving

/-- How a turn in the underloaded case ends. -/
inductive Turn (pktSize wMin : ℕ) (v v' : Serving) : Prop
  /-- The request is met, and what was left before its last part was above the threshold. -/
  | met (zero : v'.reqSz = 0) (saved : v.reqSz ≤ v.dc / pktSize * pktSize)
      (above : v.reqSz % pktSize ≠ 0 → pktSize ≤ v.w - v.reqSz + v.reqSz % pktSize ∨
        wMin < v.w - v.reqSz + v.reqSz % pktSize)
  /-- The counter is used up. -/
  | packets (more : v.dc / pktSize * pktSize < v.reqSz)
      (reqEq : v'.reqSz = v.reqSz - v.dc / pktSize * pktSize) (dcEq : v'.dc = v.dc % pktSize)
      (fragEq : v'.fragData = v.fragData)
  /-- What is left came down to the threshold. -/
  | stopped (pos : 0 < v'.reqSz) (le : v'.reqSz ≤ v'.w) (short : v'.w < pktSize)
      (below : v'.w ≤ wMin) (modEq : v.reqSz % pktSize = v'.reqSz % pktSize)

/-- In the middle of a turn: whole packets were given, or the request is met. -/
inductive MidTurn (pktSize wMin : ℕ) (v u : Serving) : Prop
  | met (zero : u.reqSz = 0) (turn : Turn pktSize wMin v u)
  | packets (given : ℕ) (dcEq : v.dc = u.dc + given * pktSize)
      (reqEq : v.reqSz = u.reqSz + given * pktSize) (fragEq : u.fragData = v.fragData)

variable {v u v' : Serving} {demand supply pktSize wMin : ℕ}

/-- A last part of less than a packet. -/
theorem Turn.of_part {given : ℕ} (hp : 0 < pktSize) (hbal : v.Balanced demand supply)
    (hu : u.Balanced demand supply) (hdcEq : v.dc = u.dc + given * pktSize)
    (hreqEq : v.reqSz = u.reqSz + given * pktSize) (hdc : pktSize ≤ u.dc)
    (hpart : u.reqSz < pktSize) (hle : u.reqSz ≤ u.w) (hleft : pktSize ≤ u.w ∨ wMin < u.w)
    (hzero : v'.reqSz = 0) : Turn pktSize wMin v v' := by
  have hw : v.w - v.reqSz + u.reqSz = u.w := by
    have h1 := hbal.demandEq
    have h2 := hbal.supplyEq
    have h3 := hu.demandEq
    have h4 := hu.supplyEq
    omega
  have hmod : v.reqSz % pktSize = u.reqSz := by
    rw [hreqEq, Nat.add_mul_mod_self_right, Nat.mod_eq_of_lt hpart]
  have hsaved : given + 1 ≤ v.dc / pktSize := by
    rw [hdcEq, Nat.add_mul_div_right _ _ hp]
    have := Nat.div_pos hdc hp
    omega
  apply Turn.met hzero
  · calc v.reqSz ≤ (given + 1) * pktSize := by rw [Nat.succ_mul]; omega
      _ ≤ v.dc / pktSize * pktSize := Nat.mul_le_mul_right _ hsaved
  · intro _
    rw [hmod, hw]
    exact hleft

/-- A whole packet. -/
theorem MidTurn.give_packet {given : ℕ}
    (hdcEq : v.dc = u.dc + given * pktSize) (hreqEq : v.reqSz = u.reqSz + given * pktSize)
    (hfrag : u.fragData = v.fragData) (hdc : pktSize ≤ u.dc) (hreq : pktSize ≤ u.reqSz) :
    MidTurn pktSize wMin v (u.give pktSize) := by
  have hnext : (given + 1) * pktSize = given * pktSize + pktSize := Nat.succ_mul _ _
  apply MidTurn.packets (given + 1)
  · simp only [Serving.give]
    omega
  · simp only [Serving.give]
    omega
  · exact hfrag

/-- One round of the inner loop in the underloaded case. -/
theorem MidTurn.again (hp : 0 < pktSize) (hbal : v.Balanced demand supply)
    (hu : u.Balanced demand supply) (hle : u.reqSz ≤ u.w) (hmid : MidTurn pktSize wMin v u)
    {u' : Serving} (hround : serveRound pktSize wMin u = some (.again u')) :
    MidTurn pktSize wMin v u' := by
  cases hmid with
  | met zero turn =>
    unfold serveRound at hround
    rw [if_neg (by omega)] at hround
    cases hround
  | packets given dcEq reqEq fragEq =>
    unfold serveRound at hround
    split_ifs at hround with hwant hfull hbig hrest hbig
    · cases hround
      rw [hu.givePacket_eq hfull.2 hfull.1 hbig]
      exact MidTurn.give_packet dcEq reqEq fragEq hfull.2 hbig
    · cases hround
      exact .met rfl (.of_part hp hbal hu dcEq reqEq hfull.2 (by omega) hle (.inl hfull.1) rfl)
    · cases hround
      have hzero : u.giveRemaining.reqSz = 0 := by
        rw [hu.giveRemaining_eq (by omega) hbig]
        simp only [Serving.give]
        omega
      exact .met hzero
        (.of_part hp hbal hu dcEq reqEq hrest.2.2 (by omega) hle (.inr hrest.2.1) hzero)
    · cases hround
      exact .met rfl (.of_part hp hbal hu dcEq reqEq hrest.2.2 (by omega) hle (.inr hrest.2.1) rfl)
    · cases hround
    · cases hround

theorem MidTurn.leave (hp : 0 < pktSize) (hle : u.reqSz ≤ u.w)
    (hmid : MidTurn pktSize wMin v u)
    (hround : serveRound pktSize wMin u = some (.leave v')) : Turn pktSize wMin v v' := by
  cases hmid with
  | met zero turn =>
    unfold serveRound at hround
    rw [if_neg (by omega)] at hround
    cases hround
    exact turn
  | packets given dcEq reqEq fragEq =>
    have hmod : v.reqSz % pktSize = u.reqSz % pktSize := by
      rw [reqEq, Nat.add_mul_mod_self_right]
    have hdiv : v.dc / pktSize = u.dc / pktSize + given := by
      rw [dcEq, Nat.add_mul_div_right _ _ hp]
    have hv : v' = u := by
      unfold serveRound at hround
      split_ifs at hround <;> cases hround <;> rfl
    subst hv
    by_cases hreq : v'.reqSz = 0
    · apply Turn.met hreq
      · rw [hdiv]
        have := Nat.mul_le_mul_right pktSize (Nat.le_add_left given (v'.dc / pktSize))
        omega
      · intro hpart
        rw [hmod, hreq, Nat.zero_mod] at hpart
        exact absurd rfl hpart
    · by_cases hdc : v'.dc < pktSize
      · have hused : v.dc / pktSize = given := by rw [hdiv, Nat.div_eq_of_lt hdc, Nat.zero_add]
        have hrest : v'.dc = v.dc % pktSize := by
          rw [dcEq, Nat.add_mul_mod_self_right, Nat.mod_eq_of_lt hdc]
        apply Turn.packets _ _ hrest fragEq
        · rw [hused]
          omega
        · rw [hused]
          omega
      · have hstop : v'.w < pktSize ∧ v'.w ≤ wMin := by
          unfold serveRound at hround
          split_ifs at hround <;> first | omega | cases hround
        exact .stopped (by omega) hle hstop.1 hstop.2 hmod

/-- **One turn.** -/
theorem Balanced.turn (h : v.Balanced demand supply) (hp : 0 < pktSize) (hle : v.reqSz ≤ v.w)
    {fuel : ℕ} (hserve : whileLoop (serveRound pktSize wMin) fuel v = some v') :
    Turn pktSize wMin v v' := by
  -- what is left exceeds the request by as much as in the beginning
  have hcovers (u : Serving) (hu : u.Balanced demand supply) : u.reqSz ≤ u.w := by
    have h1 := h.demandEq
    have h2 := h.supplyEq
    have h3 := hu.demandEq
    have h4 := hu.supplyEq
    omega
  apply whileLoop_invariant
    (I := fun u => u.Balanced demand supply ∧ MidTurn pktSize wMin v u) _ _ _ hserve
  · rintro u u' ⟨hu, hmid⟩ hround
    exact ⟨(hu.again hround).1, hmid.again hp h hu (hcovers u hu) hround⟩
  · rintro u u' ⟨hu, hmid⟩ hround
    exact hmid.leave hp (hcovers u hu) hround
  · exact ⟨h, .packets 0 (by simp) (by simp) rfl⟩

end Serving

/-! ### The loop -/

/-- The turns that user `i` needs. -/
def Drr.turns (pktSize : ℕ) (drr : Drr) (i : ℕ) : ℕ :=
  turnsNeeded pktSize (drr.deficit i) (drr.req i)

/-- The last part of user `i`. -/
def Drr.last (pktSize : ℕ) (drr : Drr) (i : ℕ) : ℕ :=
  lastPart pktSize (drr.deficit i) (drr.req i)

/-- How far the loop has come, where `part` is the last part of the user that leaves last. -/
inductive Progress (pktSize wMin part : ℕ) (s : Allocation) : Prop
  | turning (a : ℕ) (lastOut : LastOut (s.drr.turns pktSize) s.drr.activeList.nodes a)
      (partEq : s.drr.last pktSize a = part)
  | finished (empty : s.drr.activeList.nodes = []) (covered : wMin < part)
  | stopped (pos : 0 < s.w) (le : s.w ≤ wMin) (short : part ≤ wMin)

section Loop

variable {drr₀ : Drr} {s s' : Allocation} {pktSize wMin part i : ℕ} {rest : List ℕ} {v : Serving}

/-- In the underloaded case the resources are what is still requested. -/
theorem Granting.w_eq (h : Granting drr₀ (∑ i ∈ range drr₀.maxSz, drr₀.req i) s) :
    s.w = ∑ i ∈ range drr₀.maxSz, s.drr.req i := by
  have hsupply := h.supplyEq
  have hsum : ∑ i ∈ range drr₀.maxSz, drr₀.req i =
      ∑ i ∈ range drr₀.maxSz, s.allocMap i + ∑ i ∈ range drr₀.maxSz, s.drr.req i := by
    rw [← sum_add_distrib]
    exact sum_congr rfl fun i _ => (h.demandEq i).symm
  omega

theorem Granting.req_le_w (h : Granting drr₀ (∑ i ∈ range drr₀.maxSz, drr₀.req i) s)
    (hi : i ∈ s.drr.activeList.nodes) : s.drr.req i ≤ s.w := by
  rw [h.w_eq]
  apply single_le_sum (f := fun i => s.drr.req i) (fun _ _ => Nat.zero_le _)
  exact mem_range.mpr (h.maxSzEq ▸ (h.sound.listed i hi).1)

/-- The users that are not served keep their turns and their last part. -/
theorem served_turns_of_ne {j : ℕ} (hj : j ≠ i) (rb : RBuffer ℕ) (v : Serving) :
    (s.served i rb v).drr.turns pktSize j = s.drr.turns pktSize j ∧
      (s.served i rb v).drr.last pktSize j = s.drr.last pktSize j := by
  have hdc : (s.served i rb v).drr.deficit j = s.drr.deficit j := Granting.served_dc_of_ne hj rb v
  have hreq : (s.served i rb v).drr.req j = s.drr.req j := by
    rw [Granting.served_req, if_neg hj]
  simp only [Drr.turns, Drr.last, hdc, hreq]
  exact ⟨trivial, trivial⟩

theorem Granting.w_eq_single (h : Granting drr₀ (∑ i ∈ range drr₀.maxSz, drr₀.req i) s)
    (hnodes : s.drr.activeList.nodes = [i]) : s.w = s.drr.req i := by
  rw [h.w_eq]
  apply sum_eq_single_of_mem
  · exact mem_range.mpr (h.maxSzEq ▸ (h.sound.listed i (by simp [hnodes])).1)
  · intro j _ hj
    by_contra hreq
    have hmem := h.waiting j (Nat.pos_of_ne_zero hreq)
    rw [hnodes] at hmem
    exact hj (List.mem_singleton.mp hmem)

/-- A served user whose request is not met keeps its deficit counter. -/
theorem Granting.served_deficit (h : Granting drr₀ (∑ i ∈ range drr₀.maxSz, drr₀.req i) s)
    (hi : i ∈ s.drr.activeList.nodes) (hunmet : v.alloc ≠ s.drr.reqSzs i) (rb : RBuffer ℕ) :
    (s.served i rb v).drr.deficit i = v.dc := by
  have hsac := h.sound.sac_eq (h.sound.listed i hi).2
  simp [Drr.deficit, Allocation.served, hsac, hunmet]

/-- The last user is served to the end. -/
theorem Progress.of_met_last (h : Granting drr₀ (∑ i ∈ range drr₀.maxSz, drr₀.req i) s)
    (hp : 0 < pktSize) (hnodes : s.drr.activeList.nodes = [i]) (hw : wMin < s.w)
    (hpart : part =
      if s.drr.req i % pktSize ≠ 0 then s.drr.req i % pktSize else s.drr.req i)
    (above : s.drr.req i % pktSize ≠ 0 →
      pktSize ≤ s.w - s.drr.req i + s.drr.req i % pktSize ∨
        wMin < s.w - s.drr.req i + s.drr.req i % pktSize)
    (hempty : s'.drr.activeList.nodes = []) : Progress pktSize wMin part s' := by
  have hall := h.w_eq_single hnodes
  apply Progress.finished hempty
  rw [hpart]
  split_ifs with hrem
  · have hlt := Nat.mod_lt (s.drr.req i) hp
    have := above hrem
    omega
  · omega

section Turn

variable {a : ℕ} (h : Granting drr₀ (∑ i ∈ range drr₀.maxSz, drr₀.req i) s)
  (hlist : s.drr.OnlyRequesting) (hp : 0 < pktSize) (hp' : pktSize < 2 ^ 64)
  (hnodes : s.drr.activeList.nodes = i :: rest)
  (hbal : v.Balanced (drr₀.req i) (s.allocMap i + s.w))
  (lastOut : LastOut (s.drr.turns pktSize) (i :: rest) a)
  (partEq : s.drr.last pktSize a = part)

include h hnodes in
theorem Granting.front_nodup : (i :: rest).Nodup := hnodes ▸ h.sound.nodup

include h hnodes in
/-- A user behind the front keeps its turns. -/
theorem Granting.served_turns_rest (rb : RBuffer ℕ) (v : Serving) {j : ℕ} (hj : j ∈ rest) :
    (s.served i rb v).drr.turns pktSize j = s.drr.turns pktSize j := by
  apply (served_turns_of_ne _ rb v).1
  rintro rfl
  exact (List.nodup_cons.mp (h.front_nodup hnodes)).1 hj

include h hlist hp hp' hnodes hbal lastOut partEq in
/-- The request of the user at the front is met. -/
theorem Progress.turn_met (hw : wMin < s.w) (zero : v.reqSz = 0)
    (saved : s.drr.req i ≤ (s.serving pktSize i).dc / pktSize * pktSize)
    (above : s.drr.req i % pktSize ≠ 0 →
      pktSize ≤ s.w - s.drr.req i + s.drr.req i % pktSize ∨
        wMin < s.w - s.drr.req i + s.drr.req i % pktSize) :
    Progress pktSize wMin part (s.served i { s.drr.activeList with nodes := rest } v) := by
  have hi : i ∈ s.drr.activeList.nodes := by simp [hnodes]
  have hreq : 0 < s.drr.req i := hlist i hi
  have hrec := h.recorded i (hreq.trans_le (h.req_le i))
  have hdone : v.alloc = s.drr.reqSzs i := by
    have hdemand := hbal.demandEq
    omega
  have hout : (s.served i { s.drr.activeList with nodes := rest } v).drr.activeList.nodes =
      rest := by rw [h.served_activeList hnodes v, if_pos hdone]
  have hmet := turnsNeeded_met hp hp' (h.sound.dcLt i) hreq saved
  by_cases hai : a = i
  · subst hai
    have hrest : rest = [] := by
      apply List.eq_nil_iff_forall_not_mem.mpr
      intro j hj
      have hless : s.drr.turns pktSize j < 1 :=
        hmet.1 ▸ lastOut.head (h.front_nodup hnodes) j hj
      exact absurd hless (Nat.not_lt.mpr turnsNeeded_pos)
    subst hrest
    exact .of_met_last h hp hnodes hw (partEq.symm.trans hmet.2) above hout
  · apply Progress.turning a
    · rw [hout]
      exact (lastOut.tail hai).congr fun j hj => h.served_turns_rest hnodes _ v hj
    · rw [(served_turns_of_ne hai _ v).2]
      exact partEq

include h hlist hp hp' hnodes hbal lastOut partEq in
/-- The user at the front has used up its counter. -/
theorem Progress.turn_packets
    (more : (s.serving pktSize i).dc / pktSize * pktSize < s.drr.req i)
    (reqEq : v.reqSz = s.drr.req i - (s.serving pktSize i).dc / pktSize * pktSize)
    (dcEq : v.dc = (s.serving pktSize i).dc % pktSize)
    (fragEq : v.fragData = (s.serving pktSize i).fragData) :
    Progress pktSize wMin part (s.served i { s.drr.activeList with nodes := rest } v) := by
  have hi : i ∈ s.drr.activeList.nodes := by simp [hnodes]
  have hrec := h.recorded i ((hlist i hi).trans_le (h.req_le i))
  have hunmet : v.alloc ≠ s.drr.reqSzs i := by
    have hdemand := hbal.demandEq
    omega
  have hfrag : ¬v.fragData = true := by simp [fragEq, Allocation.serving]
  have hback := h.served_activeList hnodes v
  rw [if_neg hunmet, if_neg hfrag] at hback
  have hdeficit := h.served_deficit hi hunmet { s.drr.activeList with nodes := rest }
  have hrequest : (s.served i { s.drr.activeList with nodes := rest } v).drr.req i = v.reqSz := by
    rw [Granting.served_req, if_pos rfl]
  have hless := turnsNeeded_turn hp hp' (h.sound.dcLt i) more
  apply Progress.turning a
  · rw [hback]
    apply lastOut.rotate (h.front_nodup hnodes) _ fun j hj => h.served_turns_rest hnodes _ v hj
    rw [Drr.turns, Drr.turns, hdeficit, hrequest, dcEq, reqEq]
    exact hless.1
  · by_cases hai : a = i
    · subst hai
      rw [← partEq, Drr.last, Drr.last, hdeficit, hrequest, dcEq, reqEq]
      exact hless.2
    · rw [(served_turns_of_ne hai _ v).2]
      exact partEq

include h hlist hnodes hbal lastOut partEq in
/-- The resources have come down to the threshold in the turn of the user at the front. -/
theorem Progress.turn_stopped (pos : 0 < v.reqSz) (le : v.reqSz ≤ v.w) (short : v.w < pktSize)
    (below : v.w ≤ wMin) (modEq : s.drr.req i % pktSize = v.reqSz % pktSize) :
    Progress pktSize wMin part (s.served i { s.drr.activeList with nodes := rest } v) := by
  have hi : i ∈ s.drr.activeList.nodes := by simp [hnodes]
  have hrec := h.recorded i ((hlist i hi).trans_le (h.req_le i))
  apply Progress.stopped (pos.trans_le le) below
  by_cases hai : a = i
  · subst hai
    have hsmall : v.reqSz < pktSize := le.trans_lt short
    have hmod : s.drr.req a % pktSize = v.reqSz := modEq.trans (Nat.mod_eq_of_lt hsmall)
    rw [← partEq, Drr.last, lastPart, hmod, if_pos (by omega)]
    omega
  · -- what it still requests is part of what is left
    have hunmet : v.alloc ≠ s.drr.reqSzs i := by
      have hdemand := hbal.demandEq
      omega
    have hmem :
        a ∈ (s.served i { s.drr.activeList with nodes := rest } v).drr.activeList.nodes := by
      have hrest := (lastOut.tail hai).mem
      rw [h.served_activeList hnodes v, if_neg hunmet]
      split_ifs
      · exact List.mem_cons_of_mem i hrest
      · exact List.mem_append_left [i] hrest
    have hle := (h.served hnodes hbal).req_le_w hmem
    rw [Granting.served_req, if_neg hai] at hle
    have hpos : 0 < s.drr.req a := by
      apply hlist
      rw [hnodes]
      exact lastOut.mem
    calc part = s.drr.last pktSize a := partEq.symm
      _ ≤ s.drr.req a := lastPart_le hpos
      _ ≤ wMin := hle.trans below

include h hlist hp hp' hnodes hbal lastOut partEq in
/-- The user at the front has a turn. -/
theorem Progress.turn (hw : wMin < s.w)
    (hturn : Serving.Turn pktSize wMin (s.serving pktSize i) v) :
    Progress pktSize wMin part (s.served i { s.drr.activeList with nodes := rest } v) := by
  cases hturn with
  | met zero saved above =>
    exact .turn_met h hlist hp hp' hnodes hbal lastOut partEq hw zero saved above
  | packets more reqEq dcEq fragEq =>
    exact .turn_packets h hlist hp hp' hnodes hbal lastOut partEq more reqEq dcEq fragEq
  | stopped pos le short below modEq =>
    exact .turn_stopped h hlist hnodes hbal lastOut partEq pos le short below modEq

end Turn

theorem Progress.round (h : Granting drr₀ (∑ i ∈ range drr₀.maxSz, drr₀.req i) s)
    (hlist : s.drr.OnlyRequesting) (hp : 0 < pktSize) (hp' : pktSize < 2 ^ 64)
    (hprog : Progress pktSize wMin part s)
    (hround : drrRound pktSize wMin s = some (.again s')) : Progress pktSize wMin part s' := by
  obtain ⟨i, rest, v, hw, hnodes, hserve, rfl⟩ := drrRound_again hround
  have hi : i ∈ s.drr.activeList.nodes := by simp [hnodes]
  cases hprog with
  | turning a lastOut partEq =>
    have hbal : (s.serving pktSize i).Balanced (drr₀.req i) (s.allocMap i + s.w) :=
      h.serving_balanced hi
    rw [hnodes] at lastOut
    exact .turn h hlist hp hp' hnodes (hbal.serve hserve).1 lastOut partEq hw
      (hbal.turn hp (h.req_le_w hi) hserve)
  | finished empty covered => exact absurd empty (List.ne_nil_of_mem hi)
  | stopped pos le short => exact absurd le (Nat.not_le.mpr hw)

/-- The loop is left with nobody to serve or with the resources at the threshold. -/
theorem drrRound_leave_cases (h : drrRound pktSize wMin s = some (.leave s')) :
    s.w ≤ wMin ∨ s.drr.activeList.nodes = [] := by
  unfold drrRound rbufferPop at h
  split_ifs at h with hw
  · cases hnodes : s.drr.activeList.nodes with
    | nil => exact .inr rfl
    | cons i rest => simp [hnodes] at h
  · exact .inl (Nat.not_lt.mp hw)

/-- What the loop is left with. -/
theorem Progress.loop {fuel : ℕ} {t : Allocation}
    (h : Granting drr₀ (∑ i ∈ range drr₀.maxSz, drr₀.req i) s) (hlist : s.drr.OnlyRequesting)
    (hp : 0 < pktSize) (hp' : pktSize < 2 ^ 64) (hprog : Progress pktSize wMin part s)
    (hloop : whileLoop (drrRound pktSize wMin) fuel s = some t) :
    Progress pktSize wMin part t ∧ (t.w ≤ wMin ∨ t.drr.activeList.nodes = []) := by
  apply whileLoop_invariant
    (I := fun u => Granting drr₀ (∑ i ∈ range drr₀.maxSz, drr₀.req i) u ∧
      u.drr.OnlyRequesting ∧ Progress pktSize wMin part u) _ _ ⟨h, hlist, hprog⟩ hloop
  · rintro u u' ⟨hu, honly, hmid⟩ hround
    obtain ⟨hu', honly'⟩ := hu.onlyRequesting_round honly hround
    exact ⟨hu', honly', hmid.round hu honly hp hp' hround⟩
  · rintro u u' ⟨hu, honly, hmid⟩ hround
    obtain rfl := drrRound_leave hround
    exact ⟨hmid, drrRound_leave_cases hround⟩

end Loop

namespace Drr

/-- Every user is allocated what it requested, and the active list is empty. -/
structure EveryoneServed (drr : Drr) (r : Allocation) : Prop where
  allocEq : ∀ i, r.allocMap i = drr.req i
  listEmpty : r.drr.activeList.nodes = []

end Drr

section Calls

variable {drr : Drr} {r : Allocation} {pktSize wMin part : ℕ}

theorem Progress.served_iff (h : Granting drr (∑ i ∈ range drr.maxSz, drr.req i) r)
    (hlist : r.drr.OnlyRequesting) (hprog : Progress pktSize wMin part r)
    (hleave : r.w ≤ wMin ∨ r.drr.activeList.nodes = []) :
    drr.EveryoneServed r ↔ wMin < part := by
  cases hprog with
  | turning a lastOut partEq =>
    have hmem := lastOut.mem
    have hw := hleave.resolve_right (List.ne_nil_of_mem hmem)
    constructor
    · intro hserved
      exact absurd hserved.listEmpty (List.ne_nil_of_mem hmem)
    · intro habove
      have hle : part ≤ r.drr.req a := partEq ▸ lastPart_le (hlist a hmem)
      have := h.req_le_w hmem
      omega
  | finished empty covered =>
    constructor
    · intro _
      exact covered
    · intro _
      refine ⟨fun i => ?_, empty⟩
      have hdemand := h.demandEq i
      have hmet : r.drr.req i = 0 := by
        by_contra hreq
        have hmem := h.waiting i (Nat.pos_of_ne_zero hreq)
        rw [empty] at hmem
        cases hmem
      omega
  | stopped pos le short =>
    constructor
    · intro hserved
      obtain ⟨i, hi⟩ := h.exists_waiting le_rfl pos
      have hmem := h.waiting i hi
      rw [hserved.listEmpty] at hmem
      cases hmem
    · intro habove
      exact absurd habove (Nat.not_lt.mpr short)

/-! ### Entering -/

/-- The resources of a call that covers all requests. -/
theorem effectiveW_total (h : drr.Sound) {w : ℕ} (hw : w < 2 ^ 64)
    (htotal : ∑ i ∈ range drr.maxSz, drr.req i ≤ w) :
    effectiveW drr w = ∑ i ∈ range drr.maxSz, drr.req i := by
  rw [effectiveW_eq h, Drr.totalReq, Nat.mod_eq_of_lt (htotal.trans_lt hw)]
  exact min_eq_right htotal

namespace Drr

/-- The order in which users are first served: those in the active list, then the others that
have a request. -/
def queue (drr : Drr) : List ℕ :=
  drr.activeList.nodes ++
    (List.range drr.maxSz).filter fun i => 0 < drr.req i ∧ i ∉ drr.activeList.nodes

/-- The deficit counter with which user `i` enters the loop. -/
def carried (drr : Drr) (i : ℕ) : ℕ := if i ∈ drr.activeList.nodes then drr.deficit i else 0

/-- User `i` is the last one to leave the loop. -/
def LeavesLast (drr : Drr) (pktSize i : ℕ) : Prop :=
  LastOut (fun j => turnsNeeded pktSize (drr.carried j) (drr.req j)) drr.queue i

/-- Every user in the active list has a request, and the last part of the user that leaves last
is above the threshold. -/
def LastPartAbove (drr : Drr) (pktSize wMin : ℕ) : Prop :=
  drr.OnlyRequesting ∧
    ∀ i ∈ drr.queue, drr.LeavesLast pktSize i →
      wMin < lastPart pktSize (drr.carried i) (drr.req i)

instance (drr : Drr) (pktSize i : ℕ) : Decidable (drr.LeavesLast pktSize i) :=
  inferInstanceAs (Decidable (LastOut _ _ _))

instance (drr : Drr) : Decidable drr.OnlyRequesting := inferInstanceAs (Decidable (∀ _ ∈ _, _))

instance (drr : Drr) (pktSize wMin : ℕ) : Decidable (drr.LastPartAbove pktSize wMin) :=
  inferInstanceAs (Decidable (_ ∧ _))

end Drr

/-- The loop is entered with the queue and the counters carried over. -/
theorem drrEnter_queue (h : drr.Sound) (w : ℕ) :
    (drrEnter drr w).drr.activeList.nodes = drr.queue ∧
      ∀ i ∈ drr.queue, (drrEnter drr w).drr.deficit i = drr.carried i := by
  obtain ⟨fresh, hfresh⟩ := enrolled_enter h w
  have hr := registered_all h
  have hnodup : (drr.activeList.nodes ++ fresh).Nodup := hfresh.nodesEq ▸ hr.sound.nodup
  have hmem (i : ℕ) : i ∈ fresh ↔ i < drr.maxSz ∧ 0 < drr.req i ∧ i ∉ drr.activeList.nodes := by
    constructor
    · intro hi
      have hout : i ∉ drr.activeList.nodes := fun hin =>
        List.disjoint_of_nodup_append hnodup hin hi
      have hlisted : i ∈ (drrEnter drr w).drr.activeList.nodes := by
        rw [hfresh.nodesEq]
        exact List.mem_append_right _ hi
      exact ⟨hfresh.freshLt i hi, (mem_register h hlisted).resolve_left hout, hout⟩
    · rintro ⟨hlt, hreq, hout⟩
      have hlisted : i ∈ (drrEnter drr w).drr.activeList.nodes := hr.entered i hlt hreq
      rw [hfresh.nodesEq] at hlisted
      exact (List.mem_append.mp hlisted).resolve_left hout
  have heq : fresh = (List.range drr.maxSz).filter
      fun i => 0 < drr.req i ∧ i ∉ drr.activeList.nodes := by
    apply List.Perm.eq_of_pairwise' (r := (· < ·)) hfresh.ascending
      (List.pairwise_lt_range.filter _)
    apply (List.perm_ext_iff_of_nodup (List.Nodup.of_append_right hnodup)
      (List.nodup_range.filter _)).mpr
    intro i
    rw [hmem]
    simp
  constructor
  · rw [hfresh.nodesEq, heq, Drr.queue]
  · intro i hi
    unfold Drr.carried
    split_ifs with hin
    · exact hfresh.deficitEq i hin
    · apply hfresh.freshDeficit
      rw [heq]
      exact (List.mem_append.mp hi).resolve_left hin

theorem progress_enter (h : drr.Sound) (w : ℕ) {a : ℕ}
    (ha : drr.LeavesLast pktSize a) :
    Progress pktSize wMin (lastPart pktSize (drr.carried a) (drr.req a)) (drrEnter drr w) := by
  obtain ⟨hnodes, hdeficit⟩ := drrEnter_queue h w
  have hreq (i : ℕ) : (drrEnter drr w).drr.req i = drr.req i := (registered_all h).reqEq i
  apply Progress.turning a
  · rw [hnodes]
    apply ha.congr
    intro j hj
    rw [Drr.turns, hdeficit j hj, hreq]
  · rw [Drr.last, hdeficit a ha.mem, hreq]

/-- A call in which every listed user has a request. -/
theorem served_iff_part (h : drr.Sound) (hlist : drr.OnlyRequesting) (hp : 0 < pktSize)
    (hp' : pktSize < 2 ^ 64) {w fuel : ℕ} (hw : w < 2 ^ 64)
    (htotal : ∑ i ∈ range drr.maxSz, drr.req i ≤ w)
    (hr : drrResourceAlloc fuel drr pktSize w wMin = some r)
    (hprog : Progress pktSize wMin part (drrEnter drr w)) :
    drr.EveryoneServed r ↔ wMin < part := by
  have henter := granting_enter h hw
  rw [effectiveW_total h hw htotal] at henter
  have honly := onlyRequesting_enter (w := w) h hlist
  obtain ⟨hprog', hleave⟩ := hprog.loop henter honly hp hp' hr
  obtain ⟨hgrant, honly'⟩ := henter.onlyRequesting_loop honly hr
  exact hprog'.served_iff hgrant honly' hleave

theorem served_iff_onlyRequesting (h : drr.Sound) (hlist : drr.OnlyRequesting)
    (hp : 0 < pktSize) (hp' : pktSize < 2 ^ 64) {w fuel : ℕ} (hw : w < 2 ^ 64)
    (htotal : ∑ i ∈ range drr.maxSz, drr.req i ≤ w)
    (hr : drrResourceAlloc fuel drr pktSize w wMin = some r) :
    drr.EveryoneServed r ↔ drr.LastPartAbove pktSize wMin := by
  have hiff {part : ℕ} (hprog : Progress pktSize wMin part (drrEnter drr w)) :
      drr.EveryoneServed r ↔ wMin < part := served_iff_part h hlist hp hp' hw htotal hr hprog
  constructor
  · intro hserved
    refine ⟨hlist, ?_⟩
    intro i _ hi
    exact (hiff (progress_enter h w hi)).mp hserved
  · rintro ⟨-, habove⟩
    by_cases hempty : drr.queue = []
    · -- nobody has a request
      have hnodes := (drrEnter_queue h w).1.trans hempty
      exact (hiff (.finished hnodes (Nat.lt_succ_self wMin))).mpr (Nat.lt_succ_self wMin)
    · obtain ⟨a, ha⟩ : ∃ a, drr.LeavesLast pktSize a := exists_lastOut _ hempty
      exact (hiff (progress_enter h w ha)).mpr (habove a ha.mem ha)

/-! ### Listed without a request -/

/-- A request was recorded for every user in the active list. -/
def Drr.Recorded (drr : Drr) : Prop := ∀ i ∈ drr.activeList.nodes, 0 < drr.reqSzs i

theorem recorded_register (h : drr.Sound) (hrec : drr.Recorded) (n : ℕ) :
    ((List.range n).foldl drrRegister (drr, 0)).1.Recorded := by
  induction n with
  | zero => exact hrec
  | succ n ih =>
    have hs := (registered_upto h n).sound
    rw [List.range_succ, List.foldl_append, List.foldl_cons, List.foldl_nil, drrRegister_eq]
    generalize (List.range n).foldl drrRegister (drr, 0) = u at *
    split_ifs with hzero
    · exact ih
    · have hpos := Nat.pos_of_ne_zero hzero
      intro i hi
      simp only [hs.sac_eq (hs.requesting n hpos).2, Function.update_apply]
      split_ifs with hin
      · exact hpos
      · apply ih i
        simp only [Drr.enter] at hi
        split_ifs at hi
        · exact hi
        · simp only [rbufferPushBack] at hi
          split_ifs at hi
          · exact hi
          · exact (List.mem_append.mp hi).resolve_right (by simpa using hin)

section Round

variable {drr₀ : Drr} {supply : ℕ} {s s' : Allocation}

theorem Granting.recorded_round (h : Granting drr₀ supply s) (hrec : s.drr.Recorded)
    (hround : drrRound pktSize wMin s = some (.again s')) : s'.drr.Recorded := by
  obtain ⟨i, rest, v, -, hnodes, -, rfl⟩ := drrRound_again hround
  intro j hj
  rw [h.served_activeList hnodes] at hj
  apply hrec j
  rw [hnodes]
  simp only at hj
  split_ifs at hj
  · exact List.mem_cons_of_mem i hj
  · exact hj
  · rcases List.mem_append.mp hj with hj | hj
    · exact List.mem_cons_of_mem i hj
    · rw [List.mem_singleton.mp hj]
      exact List.mem_cons_self

/-- A user that is listed without a request stays listed. -/
theorem Granting.stale_round {k : ℕ} (h : Granting drr₀ supply s) (hrec : s.drr.Recorded)
    (hzero : drr₀.req k = 0) (hk : k ∈ s.drr.activeList.nodes)
    (hround : drrRound pktSize wMin s = some (.again s')) : k ∈ s'.drr.activeList.nodes := by
  have hdemand := h.demandEq k
  have hrecorded := hrec k hk
  obtain ⟨i, rest, v, -, hnodes, hserve, rfl⟩ := drrRound_again hround
  rw [h.served_activeList hnodes]
  rw [hnodes] at hk
  by_cases hki : k = i
  · subst hki
    obtain rfl := Serving.serve_none (.inr (show s.drr.req k = 0 by omega)) hserve
    have hsac := h.sound.sac_eq (h.sound.listed k (by simp [hnodes])).2
    have hunmet : (s.serving pktSize k).alloc ≠ s.drr.reqSzs k := by
      simp only [Allocation.serving, hsac]
      omega
    rw [if_neg hunmet]
    split_ifs <;> simp
  · have hrest := (List.mem_cons.mp hk).resolve_left hki
    simp only
    split_ifs <;> simp [hrest]

theorem Granting.recorded_loop (h : Granting drr₀ supply s) (hrec : s.drr.Recorded) {fuel : ℕ}
    {t : Allocation} (hloop : whileLoop (drrRound pktSize wMin) fuel s = some t) :
    t.drr.Recorded ∧ ∀ k ∈ s.drr.activeList.nodes, drr₀.req k = 0 →
      k ∈ t.drr.activeList.nodes := by
  apply whileLoop_invariant
    (I := fun u => Granting drr₀ supply u ∧ u.drr.Recorded ∧
      ∀ k ∈ s.drr.activeList.nodes, drr₀.req k = 0 → k ∈ u.drr.activeList.nodes) _ _ _ hloop
  · rintro u u' ⟨hu, hurec, hstale⟩ hround
    refine ⟨hu.round hround, hu.recorded_round hurec hround, ?_⟩
    intro k hk hzero
    exact hu.stale_round hurec hzero (hstale k hk hzero) hround
  · rintro u u' ⟨-, hurec, hstale⟩ hround
    obtain rfl := drrRound_leave hround
    exact ⟨hurec, hstale⟩
  · exact ⟨h, hrec, fun _ hk _ => hk⟩

end Round

end Calls

namespace Drr

variable {drr : Drr}

theorem recorded_of_reaches {sz : ℕ} (h : Reaches drrStep UserCall (initLdDrr sz) drr) :
    drr.Sound ∧ drr.Recorded := by
  apply h.invariant (P := fun d => d.Sound ∧ d.Recorded)
  · exact ⟨sound_initLdDrr sz, by simp [Recorded, initLdDrr, rbufferInit]⟩
  · rintro d op d' ⟨hsound, hrec⟩ hcall hstep
    refine ⟨hsound.step hcall hstep, ?_⟩
    cases op with
    | reqUpdate sac reqSz =>
      obtain rfl := Option.some.inj hstep
      exact hrec
    | resourceAlloc fuel pktSize w wMin =>
      obtain ⟨r, hr, rfl⟩ := Option.map_eq_some_iff.mp hstep
      exact ((granting_enter hsound w.toNat_lt).recorded_loop
        (recorded_register hsound hrec _) hr).1

/-- **The underloaded case.** In every state of every run a call with packets of some size whose
resources cover all requests returns, and it allocates every user its request and leaves the
active list empty exactly if every listed user has a request and the last part of the user that
leaves last is above the threshold. -/
theorem underloaded_served_iff (sz : ℕ) (drr : Drr)
    (h : Reaches drrStep UserCall (initLdDrr sz) drr) (pktSize w wMin : UInt64)
    (hp : 0 < pktSize.toNat) (htotal : ∑ i ∈ range drr.maxSz, drr.req i ≤ w.toNat) :
    ∃ fuel r,
      (∀ k, drrResourceAlloc (fuel + k) drr pktSize.toNat w.toNat wMin.toNat = some r) ∧
      (drr.EveryoneServed r ↔ drr.LastPartAbove pktSize.toNat wMin.toNat) := by
  obtain ⟨hs, hrec⟩ := recorded_of_reaches h
  obtain ⟨r, fuel, hr⟩ := (granting_enter hs w.toNat_lt).loop_returns hp pktSize.toNat_lt
    ((effectiveW_le hs w.toNat).trans (Nat.min_le_right _ _)) wMin.toNat
  refine ⟨fuel, r, hr, ?_⟩
  by_cases hlist : drr.OnlyRequesting
  · exact served_iff_onlyRequesting hs hlist hp pktSize.toNat_lt w.toNat_lt htotal (hr 0)
  · constructor
    · intro hserved
      exfalso
      apply hlist
      intro i hi
      by_contra hzero
      have hstays := ((granting_enter hs w.toNat_lt).recorded_loop
        (recorded_register hs hrec _) (hr 0)).2 i
      have hentered : i ∈ (drrEnter drr w.toNat).drr.activeList.nodes := by
        rw [(drrEnter_queue hs w.toNat).1]
        exact List.mem_append_left _ hi
      have hmem := hstays hentered (Nat.eq_zero_of_not_pos hzero)
      rw [hserved.listEmpty] at hmem
      cases hmem
    · intro habove
      exact absurd habove.1 hlist

/-- Two users, one cut short before. The second one leaves last, with a packet of 20. -/
theorem underloaded_served_two_users : ∃ drr, Reaches drrStep UserCall (initLdDrr 4) drr ∧
    drr.req 0 = 30 ∧ drr.req 1 = 40 ∧ ∃ fuel r,
      (∀ k, drrResourceAlloc (fuel + k) drr 20 100 19 = some r) ∧ drr.EveryoneServed r := by
  obtain ⟨drr, hdrr, h0, h1, htotal, habove⟩ : ∃ drr, runOps drrStep UserCall (initLdDrr 4)
      [.reqUpdate 0 35, .resourceAlloc 9 20 5 0, .reqUpdate 1 40] = some drr ∧
      drr.req 0 = 30 ∧ drr.req 1 = 40 ∧ ∑ i ∈ range drr.maxSz, drr.req i ≤ 100 ∧
      drr.LastPartAbove 20 19 := ⟨_, rfl, rfl, rfl, by decide, by decide⟩
  have hrun := reaches_of_runOps _ hdrr
  obtain ⟨fuel, r, hr, hserved⟩ :=
    underloaded_served_iff 4 drr hrun 20 100 19 (by decide) htotal
  exact ⟨drr, hrun, h0, h1, fuel, r, hr, hserved.mpr habove⟩

/-- A request of 50 with resources of 1000 and a threshold of 100 is given nothing. -/
theorem threshold_leaves_unserved : ∃ drr r,
    runOps drrStep UserCall (initLdDrr 1) [.reqUpdate 0 50] = some drr ∧
    ∑ i ∈ range drr.maxSz, drr.req i ≤ 1000 ∧ drrResourceAlloc 9 drr 10 1000 100 = some r ∧
    drr.req 0 = 50 ∧ r.allocMap 0 = 0 ∧ r.drr.activeList.nodes = [0] ∧
    ¬drr.EveryoneServed r := by
  refine ⟨_, _, rfl, by decide, rfl, rfl, rfl, rfl, ?_⟩
  intro hserved
  exact absurd hserved.listEmpty (by decide)

end Drr

end LdacsSdk
