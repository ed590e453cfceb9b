import LdacsSdk.Packet.Layout

/-!
# What the encoder leaves in memory

`out_struct` on cleared memory makes every slot of the layout spell its number, with zero for what
comes later. Late numbers can be filled in one after the other.
-/
namespace LdacsSdk

open Library

variable {now start : ℕ} {ok : FieldDesc → ℕ → Prop} {late : FieldType → ℕ}
  {seen : List FieldType} {fs : List FieldDesc} {ms : List Member} {ps : List (Option Buffer)}
  {pos : ℕ} {l : Laid} {mem mem' : Mem} {s : OutState} {sd : String}

theorem inOrder_slots (h : Layout now ok late seen fs ms ps pos l) (start : ℕ)
    (vals : FieldType → ℕ) : InOrder (l.slots.map fun k => k.stroke start vals) := by
  apply List.pairwise_map.mpr
  apply h.inPlace.order.imp
  intro k m hkm
  simp only [Slot.stroke, Stroke.stop]
  omega

/-- The loop of `out_struct` on cleared memory: the slots spell the numbers of the struct, the
places of the late numbers stay zero, and nothing in front of the packet changes. -/
theorem Layout.written (h : Layout now ok late seen fs ms ps pos l) (sd : String)
    (hpos : s.pos = 8 * start + pos) (hms : s.members = ms)
    (hzero : ZeroFrom s.mem (8 * start + pos)) :
    ∃ s', outFields now sd fs s = some (s', none) ∧ s'.pos = 8 * start + l.stop ∧
      s.Takes s' (l.notes.shift start) ∧ Spells s'.mem start (fun _ => 0) l.slots ∧
      (∀ q < 8 * start + pos, bitAt s'.mem q = bitAt s.mem q) ∧
      ZeroFrom s'.mem (8 * start + l.stop) := by
  obtain ⟨p, hp, his⟩ := h.placed start
  rw [← hpos, ← hms] at hp
  obtain ⟨s', ugh, hout, hgoes, hugh⟩ := outFields_goes sd hp
  obtain rfl := hugh.mpr his.begins.named
  have hdrawn : Drawn s.mem s'.mem (l.slots.map fun k => k.stroke start fun _ => 0) := by
    intro q
    rw [hgoes.drawn q, his.begins.strokes]
  have hfits : ∀ k ∈ l.slots.map (fun k => k.stroke start fun _ => 0), k.Fits := by
    intro k hk
    obtain ⟨m, hm, rfl⟩ := List.mem_map.mp hk
    simp only [Stroke.Fits, Slot.stroke, Slot.value]
    cases hc : m.content with
    | given v => exact h.given_fits hm hc
    | late t => exact Nat.two_pow_pos _
  have hplace := h.inPlace
  refine ⟨s', hout, hgoes.pos.trans his.pos, his.begins.notes ▸ hgoes.takes, ?_, ?_, ?_⟩
  · intro k hk
    have hword := hdrawn.word (inOrder_slots h start fun _ => 0) hfits
      (k := k.stroke start fun _ => 0) ?_ (List.mem_map_of_mem hk)
    · exact hword
    · intro m hm q hq _
      obtain ⟨k', hk', rfl⟩ := List.mem_map.mp hm
      have hlo := (hplace.within k' hk').1
      simp only [Slot.stroke] at hq
      exact hzero q (by omega)
  · intro q hq
    apply hdrawn.unchanged
    intro k hk
    apply (hfits k hk).sets_before
    obtain ⟨m, hm, rfl⟩ := List.mem_map.mp hk
    have hlo := (hplace.within m hm).1
    simp only [Slot.stroke]
    omega
  · intro q hq
    rw [hdrawn.unchanged]
    · have hle := hplace.le
      exact hzero q (by omega)
    · intro k hk
      apply Stroke.sets_behind
      obtain ⟨m, hm, rfl⟩ := List.mem_map.mp hk
      have hhi := (hplace.within m hm).2
      simp only [Slot.stroke, Stroke.stop]
      omega

/-- Filling in one late number leaves the other slots as they are. -/
theorem Spells.fill (h : Layout now ok late seen fs ms ps pos l) {vals : FieldType → ℕ}
    (hspells : Spells mem start vals l.slots) {t : FieldType} {p w v : ℕ}
    (hplace : l.notes.place t = some (p, w))
    (hout : ∀ q, q < 8 * start + p ∨ 8 * start + p + w ≤ q → bitAt mem' q = bitAt mem q)
    (hword : wordAt mem' (8 * start + p) w = v) :
    Spells mem' start (Function.update vals t v) l.slots := by
  have hmem : (⟨p, w, .late t⟩ : Slot) ∈ l.slots := (h.late_iff t p w).mpr hplace
  intro k hk
  by_cases hkt : k.content = .late t
  · obtain ⟨kp, kw, kc⟩ := k
    simp only at hkt
    subst hkt
    have hsame := (h.late_iff t kp kw).mp hk
    rw [hplace, Option.some.injEq, Prod.mk.injEq] at hsame
    obtain ⟨rfl, rfl⟩ := hsame
    simpa [Slot.value] using hword
  · have hvalue : k.value (Function.update vals t v) = k.value vals := by
      unfold Slot.value
      cases hc : k.content with
      | given n => rfl
      | late u =>
        have hut : u ≠ t := fun heq => hkt (by rw [hc, heq])
        simp [hut]
    have hne : k ≠ ⟨p, w, .late t⟩ := fun heq => hkt (by rw [heq])
    have hapart := pairwise_apart h.inPlace.order hk hmem hne
    simp only at hapart
    rw [hvalue, ← hspells k hk]
    apply wordAt_congr
    intro q hlo hhi
    apply hout
    omega

/-- A late number that has no place may be taken to be anything. -/
theorem Spells.unplaced (h : Layout now ok late seen fs ms ps pos l) {vals : FieldType → ℕ}
    (hspells : Spells mem start vals l.slots) {t : FieldType} (hplace : l.notes.place t = none)
    (v : ℕ) : Spells mem start (Function.update vals t v) l.slots := by
  intro k hk
  rw [hspells k hk]
  unfold Slot.value
  cases hc : k.content with
  | given n => rfl
  | late u =>
    have hut : u ≠ t := by
      rintro rfl
      have hsome := (h.late_iff u k.pos k.width).mp (by rw [← hc]; exact hk)
      rw [hplace] at hsome
      cases hsome
    simp [hut]

end LdacsSdk
