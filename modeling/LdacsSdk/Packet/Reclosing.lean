import LdacsSdk.Packet.WriteSafety

/-!
# Closing a stream again

`close_output_pbs` uses up the shifts of the lengths and moves the place of the checksum on. A
length is therefore filled in once and for all, and every further call puts another checksum behind
the last one.
-/
namespace LdacsSdk

open Library

/-- The bytes a checksum of `size` bits is written as. -/
def crcBytes (size : ℕ) (bytes : List UInt8) : List UInt8 :=
  if size = crc8Size then [calCrc8bits bytes]
  else if size = crc32Size then (List.range 4).map fun p =>
    UInt8.ofNat (((calCrc32bits bytes).toNat >>> ((crc32Size / 8 - 1 - p) * 8)) &&& 0xFF)
  else []

/-- The number of bytes of a checksum. -/
def crcLength (size : ℕ) : ℕ := if size = crc8Size then 1 else if size = crc32Size then 4 else 0

/-- `close_output_pbs` called a number of times with no output in between. -/
def closeTimes (mem : Mem) (container : Option PbStream) (pbs : PbStream) : ℕ → CloseResult
  | 0 => ⟨mem, pbs, container, []⟩
  | n + 1 =>
    let c := closeTimes mem container pbs n
    closeOutputPbs c.mem c.container c.pbs

/-- However often the stream is closed, the bytes in front of its cursor and the container are as
after the first time. -/
def ClosesAlike (mem : Mem) (container : Option PbStream) (pbs : PbStream) : Prop :=
  ∀ n, (∀ a < pbs.cur,
      (closeTimes mem container pbs (n + 1)).mem a = (closeOutputPbs mem container pbs).mem a) ∧
    (closeTimes mem container pbs (n + 1)).container = (closeOutputPbs mem container pbs).container

/-- Behind the place of the checksum the stream holds one checksum after the other, up to its
cursor. -/
def ChecksumsBehind (mem : Mem) (pbs : PbStream) : Prop :=
  let size := crcLength pbs.crcSize
  ∀ c, pbs.crcFld = some c → ∀ j a, c + j * size ≤ a → a < c + (j + 1) * size → a < pbs.cur →
    mem a = (crcBytes pbs.crcSize (bytesBetween mem pbs.start (c + j * size))).getD
      (a - (c + j * size)) 0

/-- A length field of `w` bits from `p` on that the stream keeps open. -/
def PbStream.LengthPlace (pbs : PbStream) (p w : ℕ) : Prop :=
  (pbs.slenFld = some (p / 8) ∧ pbs.slentoShift = w - (8 - (p % 8 : ℕ))) ∨
    (pbs.plenFld = some (p / 8) ∧ pbs.plentoShift = w - (8 - (p % 8 : ℕ)))

/-- More output on a stream: nothing in front of its cursor changed, and what it newly keeps open
lies behind it. -/
structure MoreOutput (mem : Mem) (pbs : PbStream) (mem' : Mem) (pbs' : PbStream) : Prop where
  start : pbs'.start = pbs.start
  forward : pbs.cur ≤ pbs'.cur
  before : ∀ q < 8 * pbs.cur, bitAt mem' q = bitAt mem q
  slen : pbs'.slenFld = pbs.slenFld ∧ pbs'.slentoShift = pbs.slentoShift
  plen : (pbs'.plenFld = pbs.plenFld ∧ pbs'.plentoShift = pbs.plentoShift) ∨
    ∀ a, pbs'.plenFld = some a → pbs.cur ≤ a
  crc : (pbs'.crcFld = pbs.crcFld ∧ pbs'.crcSize = pbs.crcSize) ∨
    ∀ a, pbs'.crcFld = some a → pbs.cur ≤ a

/-- Whatever is output after the stream was closed, closing it once more leaves every length field
equal to the final length. -/
def LastCloseWins (mem : Mem) (container : Option PbStream) (pbs : PbStream) : Prop :=
  ∀ mem' container' pbs', MoreOutput (closeOutputPbs mem container pbs).mem
      (closeOutputPbs mem container pbs).pbs mem' pbs' →
    ∀ p w, pbs.LengthPlace p w →
      wordAt (closeOutputPbs mem' container' pbs').mem p w = pbs'.offset

variable {mem mem' : Mem} {container container' : Option PbStream} {pbs pbs' : PbStream} {c : ℕ}

section Checksums

theorem putCrc32_apply (mem : Mem) (c : ℕ) (crc : UInt32) (a : ℕ) :
    putCrc32 mem c crc a = if c ≤ a ∧ a < c + 4 then
      ((List.range 4).map fun p =>
        UInt8.ofNat ((crc.toNat >>> ((crc32Size / 8 - 1 - p) * 8)) &&& 0xFF)).getD (a - c) 0
    else mem a := by
  rw [putCrc32_eq]
  by_cases hin : c ≤ a ∧ a < c + 4
  · obtain ⟨k, rfl⟩ := Nat.exists_eq_add_of_le hin.1
    have hk : k < 4 := by omega
    rw [if_pos hin, Nat.add_sub_cancel_left]
    interval_cases k <;> simp [List.range_succ, crc32Size]
  · rw [if_neg hin]
    iterate 4 rw [Function.update_of_ne (by omega)]

/-- Closing writes the checksum at its place and moves the place behind it. -/
theorem closeCrc_some (mem : Mem) (hcrc : pbs.crcFld = some c) :
    (closeCrc mem pbs).pbs = { pbs with crcFld := some (c + crcLength pbs.crcSize) } ∧
      ∀ a, (closeCrc mem pbs).mem a = if c ≤ a ∧ a < c + crcLength pbs.crcSize then
        (crcBytes pbs.crcSize (bytesBetween mem pbs.start c)).getD (a - c) 0 else mem a := by
  unfold closeCrc
  simp only [hcrc]
  by_cases h8 : pbs.crcSize = crc8Size
  · simp only [crcLength, crcBytes, if_pos h8, true_and]
    intro a
    by_cases ha : a = c
    · simp [ha]
    · rw [Function.update_of_ne ha, if_neg (by omega)]
  · by_cases h32 : pbs.crcSize = crc32Size
    · simp only [crcLength, crcBytes, if_neg h8, if_pos h32, true_and]
      intro a
      exact putCrc32_apply mem c _ a
    · simp only [crcLength, if_neg h8, if_neg h32, Nat.add_zero, ← hcrc, true_and]
      intro a
      rw [if_neg (by omega)]

theorem closeCrc_none (mem : Mem) (hcrc : pbs.crcFld = none) :
    closeCrc mem pbs = ⟨mem, pbs, none, []⟩ := by
  unfold closeCrc
  rw [hcrc]

end Checksums

section Lengths

/-- No length is left to fill in. -/
structure PbStream.Spent (pbs : PbStream) : Prop where
  slen : ∀ a, pbs.slenFld = some a → pbs.slentoShift ≤ -8
  plen : ∀ a, pbs.plenFld = some a → pbs.plentoShift ≤ -8

theorem appendLoop_toShift (n fuel : ℕ) (s : Appending) (h : (s.toShift + 8).toNat ≤ fuel) :
    (appendLoop n fuel s).toShift ≤ -8 := by
  induction fuel generalizing s with
  | zero =>
    rw [appendLoop]
    omega
  | succ fuel ih =>
    rw [appendLoop]
    split_ifs with hs
    · apply ih
      unfold appendRound
      split_ifs
      · simp only
        omega
      · simp only
        omega
    · omega

/-- A length is filled in once. -/
theorem fillLength_toShift (mem : Mem) (n cur : ℕ) (shift : ℤ) :
    (fillLength mem n cur shift).toShift ≤ -8 :=
  appendLoop_toShift n _ _ le_rfl

theorem fillLength_spent (mem : Mem) (n cur : ℕ) {shift : ℤ} (h : shift ≤ -8) :
    fillLength mem n cur shift = ⟨mem, cur, shift, []⟩ :=
  appendLoop_done h _

theorem spent_closeOutputPbs (mem : Mem) (container : Option PbStream) (pbs : PbStream) :
    (closeOutputPbs mem container pbs).pbs.Spent := by
  have hkeeps (m : Mem) (p : PbStream) : (closeCrc m p).pbs.slenFld = p.slenFld ∧
      (closeCrc m p).pbs.slentoShift = p.slentoShift ∧ (closeCrc m p).pbs.plenFld = p.plenFld ∧
      (closeCrc m p).pbs.plentoShift = p.plentoShift := by
    cases hcrc : p.crcFld with
    | none => simp [closeCrc_none m hcrc]
    | some c => simp [(closeCrc_some m hcrc).1]
  unfold closeOutputPbs
  cases hs : pbs.slenFld <;> cases hp : pbs.plenFld <;>
    constructor <;> simp [hkeeps, closeSlen, closePlen, hs, hp, fillLength_toShift]

/-- With no length to fill in, closing is the checksum and the container's cursor. -/
theorem PbStream.Spent.close (h : pbs.Spent) (mem : Mem) (container : Option PbStream) :
    (closeOutputPbs mem container pbs).mem = (closeCrc mem pbs).mem ∧
      (closeOutputPbs mem container pbs).pbs = (closeCrc mem pbs).pbs ∧
      (closeOutputPbs mem container pbs).container =
        container.map fun c => { c with cur := pbs.cur } := by
  have hslen : (closeSlen mem pbs).mem = mem ∧ (closeSlen mem pbs).pbs = pbs := by
    unfold closeSlen
    split
    · rename_i a ha
      rw [fillLength_spent mem _ a (h.slen a ha)]
      exact ⟨rfl, by simp only [← ha]⟩
    · exact ⟨rfl, rfl⟩
  have hplen : (closePlen mem pbs).mem = mem ∧ (closePlen mem pbs).pbs = pbs := by
    unfold closePlen
    split
    · rename_i a ha
      rw [fillLength_spent mem _ a (h.plen a ha)]
      exact ⟨rfl, by simp only [← ha]⟩
    · exact ⟨rfl, rfl⟩
  unfold closeOutputPbs
  simp only [hslen.1, hslen.2, hplen.1, hplen.2, and_self]

end Lengths

section Again

/-- The stream after it was closed `n + 1` times: only the place of the checksum has moved on. -/
theorem closeTimes_succ (mem : Mem) (container : Option PbStream) (pbs : PbStream) (n : ℕ) :
    let first := closeOutputPbs mem container pbs
    (closeTimes mem container pbs (n + 1)).container = first.container ∧
      (closeTimes mem container pbs (n + 1)).pbs = { first.pbs with
        crcFld := first.pbs.crcFld.map fun c => c + n * crcLength first.pbs.crcSize } := by
  intro first
  have hcur : first.pbs.cur = pbs.cur := (pbs_closeOutputPbs mem container pbs).2
  induction n with
  | zero => simp [closeTimes, first]
  | succ n ih =>
    obtain ⟨hcontainer, hpbs⟩ := ih
    have hspent : (closeTimes mem container pbs (n + 1)).pbs.Spent := spent_closeOutputPbs _ _ _
    obtain ⟨-, hclosed, hpassed⟩ := hspent.close (closeTimes mem container pbs (n + 1)).mem
      (closeTimes mem container pbs (n + 1)).container
    rw [closeTimes]
    constructor
    · rw [hpassed, hcontainer, hpbs]
      simp only [first, container_closeOutputPbs, Option.map_map, Function.comp_def, ← hcur]
    · rw [hclosed, hpbs]
      cases hcrc : first.pbs.crcFld with
      | none =>
        rw [closeCrc_none _ (by simp)]
        rfl
      | some c =>
        rw [(closeCrc_some _ (c := c + n * crcLength first.pbs.crcSize) (by simp)).1]
        simp only [Option.map_some, Nat.add_mul, Nat.one_mul, Nat.add_assoc]

/-- What one more call writes. -/
theorem closeTimes_mem (mem : Mem) (container : Option PbStream) (pbs : PbStream) (n a : ℕ)
    (hcrc : (closeOutputPbs mem container pbs).pbs.crcFld = some c) :
    let first := (closeOutputPbs mem container pbs).pbs
    let size := crcLength first.crcSize
    (closeTimes mem container pbs (n + 2)).mem a =
      if c + n * size ≤ a ∧ a < c + n * size + size then
        (crcBytes first.crcSize (bytesBetween (closeTimes mem container pbs (n + 1)).mem first.start
          (c + n * size))).getD (a - (c + n * size)) 0
      else (closeTimes mem container pbs (n + 1)).mem a := by
  intro first size
  obtain ⟨-, hpbs⟩ := closeTimes_succ mem container pbs n
  have hspent : (closeTimes mem container pbs (n + 1)).pbs.Spent := spent_closeOutputPbs _ _ _
  obtain ⟨hclosed, -, -⟩ := hspent.close (closeTimes mem container pbs (n + 1)).mem
    (closeTimes mem container pbs (n + 1)).container
  rw [closeTimes, hclosed, hpbs,
    (closeCrc_some _ (c := c + n * size) (by simp [hcrc, size, first])).2]

theorem closeTimes_mem_none (mem : Mem) (container : Option PbStream) (pbs : PbStream) (n : ℕ)
    (hcrc : (closeOutputPbs mem container pbs).pbs.crcFld = none) :
    (closeTimes mem container pbs (n + 1)).mem = (closeOutputPbs mem container pbs).mem := by
  induction n with
  | zero => rfl
  | succ n ih =>
    obtain ⟨-, hpbs⟩ := closeTimes_succ mem container pbs n
    have hspent : (closeTimes mem container pbs (n + 1)).pbs.Spent := spent_closeOutputPbs _ _ _
    obtain ⟨hclosed, -, -⟩ := hspent.close (closeTimes mem container pbs (n + 1)).mem
      (closeTimes mem container pbs (n + 1)).container
    rw [closeTimes, hclosed, closeCrc_none _ (by rw [hpbs]; simp [hcrc]), ih]

/-- Closing again changes nothing exactly where what lies behind the checksum, up to the cursor, is
one checksum after the other. -/
theorem closesAlike_iff (mem : Mem) (container : Option PbStream) (pbs : PbStream) :
    ClosesAlike mem container pbs ↔ ChecksumsBehind (closeOutputPbs mem container pbs).mem
      (closeOutputPbs mem container pbs).pbs := by
  have hcur : (closeOutputPbs mem container pbs).pbs.cur = pbs.cur :=
    (pbs_closeOutputPbs mem container pbs).2
  cases hcrc : (closeOutputPbs mem container pbs).pbs.crcFld with
  | none =>
    apply iff_of_true
    · intro n
      rw [closeTimes_mem_none mem container pbs n hcrc]
      exact ⟨fun _ _ => rfl, (closeTimes_succ mem container pbs n).1⟩
    · intro c hsome
      rw [hcrc] at hsome
      cases hsome
  | some c =>
    have hmem := fun n a => closeTimes_mem mem container pbs n a hcrc
    have hread {n x : ℕ} (hx : x ≤ pbs.cur) (hsame : ∀ a < pbs.cur,
        (closeTimes mem container pbs (n + 1)).mem a = (closeOutputPbs mem container pbs).mem a) :
        bytesBetween (closeTimes mem container pbs (n + 1)).mem
            (closeOutputPbs mem container pbs).pbs.start x =
          bytesBetween (closeOutputPbs mem container pbs).mem
            (closeOutputPbs mem container pbs).pbs.start x := by
      apply List.map_congr_left
      intro y hy
      apply hsame
      have hrange := List.mem_range'_1.mp hy
      omega
    simp only at hmem
    generalize (closeOutputPbs mem container pbs).pbs = first at *
    constructor
    · intro halike c' hc' j a hlo hhi hin
      obtain rfl : c = c' := Option.some.inj (hcrc.symm.trans hc')
      rw [Nat.add_mul, Nat.one_mul, ← Nat.add_assoc] at hhi
      rw [← (halike (j + 1)).1 a (by omega), hmem, if_pos ⟨hlo, hhi⟩, hread (by omega) (halike j).1]
    · intro hbehind n
      constructor
      · induction n with
        | zero => exact fun _ _ => rfl
        | succ n ih =>
          intro a ha
          rw [hmem]
          by_cases hin : c + n * crcLength first.crcSize ≤ a ∧
              a < c + n * crcLength first.crcSize + crcLength first.crcSize
          · rw [if_pos hin, hread (by omega) ih]
            apply (hbehind c hcrc n a hin.1 _ (by omega)).symm
            rw [Nat.add_mul, Nat.one_mul, ← Nat.add_assoc]
            exact hin.2
          · rw [if_neg hin]
            exact ih a ha
      · exact (closeTimes_succ mem container pbs n).1

end Again

section Lasts

theorem MoreOutput.further (mem : Mem) (pbs : PbStream) (k : ℕ) :
    MoreOutput mem pbs mem { pbs with cur := pbs.cur + k } := by
  constructor <;> simp

/-- A number of bytes and one more do not come to the same length. -/
theorem offset_succ_ne (pbs : PbStream) :
    PbStream.offset { pbs with cur := pbs.cur + 1 } ≠ pbs.offset := by
  simp only [PbStream.offset, u64]
  push_cast
  omega

/-- A length field keeps what it was given when the stream was closed first, so that no further
call leaves the final length in it whatever is output in between. -/
theorem lastCloseWins_iff (mem : Mem) (container : Option PbStream) (pbs : PbStream) :
    LastCloseWins mem container pbs ↔ ∀ p w, ¬pbs.LengthPlace p w := by
  constructor
  · intro hlast p w hplace
    have hspent := spent_closeOutputPbs mem container pbs
    -- nothing and one byte more leave the same word in the place
    have hnothing := hlast _ none _ (MoreOutput.further _ _ 0) p w hplace
    have hone := hlast _ none _ (MoreOutput.further _ _ 1) p w hplace
    generalize (closeOutputPbs mem container pbs).mem = mem₁ at *
    generalize (closeOutputPbs mem container pbs).pbs = pbs₁ at *
    have hmore : PbStream.Spent { pbs₁ with cur := pbs₁.cur + 1 } := ⟨hspent.slen, hspent.plen⟩
    have hsame : (closeCrc mem₁ { pbs₁ with cur := pbs₁.cur + 1 }).mem =
        (closeCrc mem₁ pbs₁).mem := by
      unfold closeCrc
      simp only
      split
      · split_ifs <;> rfl
      · rfl
    rw [Nat.add_zero, (hspent.close mem₁ none).1] at hnothing
    rw [(hmore.close mem₁ none).1, hsame, hnothing] at hone
    exact offset_succ_ne pbs₁ hone.symm
  · intro hnone mem' container' pbs' _ p w hplace
    exact absurd hplace (hnone p w)

end Lasts

/-- The lengths that `out_struct` notes are kept open at the places of their fields. -/
theorem lengthPlace_outStruct {now : ℕ} {sd : StructDesc} {ms : List Member} {outs : PbStream}
    {obj : Bool} {r : OutResult} {p : Placed} (hout : outStruct mem now sd ms outs obj = some r)
    (hdiag : r.diag = none) (hplaced : placeAll now sd.fields ms outs.pos = some p) :
    (∀ q w, p.notes.plen = some (q, w) → r.outs.LengthPlace q w) ∧
      ∀ stream, r.obj = some stream →
        ∀ q w, p.notes.slen = some (q, w) → stream.LengthPlace q w := by
  obtain ⟨p', s', hp, -, hgoes, rfl⟩ := outStruct_succeeds hout hdiag
  obtain rfl : p = p' := Option.some.inj (hplaced.symm.trans hp)
  have hplen := hgoes.takes.plen
  have hslen := hgoes.takes.slen
  cases obj with
  | true =>
    constructor
    · intro q w hnote
      rw [hnote] at hplen
      exact .inr hplen
    · intro stream hstream q w hnote
      rw [hnote] at hslen
      obtain rfl := Option.some.inj hstream
      exact .inl hslen
  | false =>
    constructor
    · intro q w hnote
      rw [hnote] at hplen
      simp only [OutState.finish, Bool.false_eq_true, if_false, container_closeOutputPbs,
        Option.map_some, Option.getD_some]
      exact .inr hplen
    · intro stream hstream
      cases hstream

/-- **Closing again.** Calling `close_output_pbs` any number of times leaves the bytes in front of
the cursor and the container as calling it once does, exactly where the bytes behind the checksum
are one checksum after the other. The last call leaves the final lengths, whatever is output before
it, exactly where no length field is open. -/
theorem closing_again_iff (mem : Mem) (container : Option PbStream) (pbs : PbStream) :
    (ClosesAlike mem container pbs ↔ ChecksumsBehind (closeOutputPbs mem container pbs).mem
      (closeOutputPbs mem container pbs).pbs) ∧
    (LastCloseWins mem container pbs ↔ ∀ p w, ¬pbs.LengthPlace p w) :=
  ⟨closesAlike_iff mem container pbs, lastCloseWins_iff mem container pbs⟩

/-- A packet length, a checksum and a byte of data behind it: the second call overwrites the data,
and the length stays what it was when another byte is output. -/
theorem second_close_changes :
    let sd : StructDesc := ⟨"S", [⟨.ftPlen, 8, "PLEN"⟩, ⟨.ftCrc, 8, "CRC"⟩, ⟨.ftSet, 8, "DATA"⟩]⟩
    ∃ r, outStruct (fun _ => 0) 0 sd [.num 0, .num 5] (initPbs 0 8) false = some r ∧
      r.diag = none ∧ ¬ClosesAlike r.mem none r.outs ∧ ¬LastCloseWins r.mem none r.outs := by
  intro sd
  let r := (outStruct (fun _ => 0) 0 sd [.num 0, .num 5] (initPbs 0 8) false).get (by decide)
  let first := closeOutputPbs r.mem none r.outs
  let more := (outStruct first.mem 0 ⟨"T", [⟨.ftSet, 8, "MORE"⟩]⟩ [.num 9] first.pbs false).get
    (by decide)
  use r, (Option.some_get _).symm, by decide
  constructor
  · intro halike
    have hdata := (halike 1).1 2 (by decide)
    revert hdata
    decide
  · intro hlast
    have hmore : MoreOutput first.mem first.pbs more.mem more.outs := by
      have hbits : ∀ q < 24, bitAt more.mem q = bitAt first.mem q := by decide
      have hcur : 8 * first.pbs.cur = 24 := by decide
      exact ⟨by decide, by decide, by rwa [hcur], by decide, .inl (by decide), .inl (by decide)⟩
    have hlength := hlast more.mem none more.outs hmore 0 8 (.inr (by decide))
    revert hlength
    decide

end LdacsSdk
