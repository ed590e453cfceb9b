import LdacsSdk.Packet.ReadSafety
import LdacsSdk.Packet.Closing

/-!
# Reading a layout back

A decoder on memory that spells a layout follows its positions, gets the members of the struct
back, and accepts every field but those whose value its `int` does not keep.
-/
namespace LdacsSdk

open Library

/-- The struct read back: numbers and the contents of strings as they were, lengths as computed. -/
inductive Reproduces (late : FieldType → ℕ) :
    List FieldDesc → List Member → List Member → Prop
  | done : Reproduces late [] [] []
  | number {f fs n ms rs} : f.fieldType.isBits = true → f.fieldType ≠ .ftPlen →
      f.fieldType ≠ .ftSlen → Reproduces late fs ms rs →
      Reproduces late (f :: fs) (.num n :: ms) (.num n :: rs)
  | length {f fs n ms rs} : f.fieldType = .ftPlen ∨ f.fieldType = .ftSlen →
      Reproduces late fs ms rs →
      Reproduces late (f :: fs) (.num n :: ms) (.num (late f.fieldType) :: rs)
  | string {f fs ms rs} {b b' : Buffer} : b'.Valid → b'.content = b.content →
      Reproduces late fs ms rs →
      Reproduces late (f :: fs) (.str (some b) :: ms) (.str (some b') :: rs)
  | null {f fs ms rs} : Reproduces late fs ms rs →
      Reproduces late (f :: fs) (.str none :: ms) (.str none :: rs)
  | silent {f fs ms rs} : f.fieldType = .ftPad ∨ f.fieldType = .ftCrc →
      Reproduces late fs ms rs → Reproduces late (f :: fs) ms rs

variable {now start : ℕ} {ok : FieldDesc → ℕ → Prop} {late : FieldType → ℕ}
  {seen : List FieldType} {fs : List FieldDesc} {ms : List Member} {ps : List (Option Buffer)}
  {pos : ℕ} {l : Laid} {mem mem' : Mem} {p : Spot}

/-- A member of the struct gets the value of its slot, whatever the sign extension did. -/
theorem valueAt_stored {size v bits : ℕ} (h1 : 1 ≤ size) (h32 : size ≤ 32) (hv : v < 2 ^ size)
    (hbits : storageBits size = some bits) (hword : wordAt mem pos size = v) :
    valueAt mem pos size % 2 ^ bits = v := by
  have hle : size ≤ bits := by
    obtain ⟨bits', hbits', hle⟩ := exists_storageBits h1 (by omega : size ≤ 64)
    rw [hbits, Option.some.injEq] at hbits'
    exact hbits' ▸ hle
  rw [valueAt, hword]
  rcases Nat.lt_or_ge size 32 with hlt | hge
  · have hv31 : v < 2 ^ 31 := hv.trans_le (Nat.pow_le_pow_right (by decide) (by omega))
    rw [intToU64_of_lt hv31]
    exact Nat.mod_eq_of_lt (hv.trans_le (Nat.pow_le_pow_right (by decide) hle))
  · obtain rfl : size = 32 := by omega
    obtain rfl : bits = 32 := by
      have h32bits : storageBits 32 = some 32 := by decide
      rw [h32bits, Option.some.injEq] at hbits
      exact hbits.symm
    rw [intToU64_mod]
    exact Nat.mod_eq_of_lt hv

/-- The bytes of a string come back from their slots. -/
theorem bytesAt_of_spells {vals : FieldType → ℕ} {bytes : List UInt8}
    (h : Spells mem start vals (byteSlots pos bytes)) :
    bytesAt mem (8 * start + pos) bytes.length = bytes := by
  induction bytes generalizing pos with
  | nil => rfl
  | cons b bytes ih =>
    have hhead : wordAt mem (8 * start + pos) 8 = b.toNat := h _ List.mem_cons_self
    have htail : Spells mem start vals (byteSlots (pos + 8) bytes) :=
      fun k hk => h k (List.mem_cons_of_mem _ hk)
    rw [List.length_cons, bytesAt, hhead, Nat.add_assoc, ih htail, UInt8.ofNat_toNat]

/-- What the decoder needs to find at the slots: their numbers, and for the checksum what it
computes itself. -/
structure Holds (mem : Mem) (start : ℕ) (late vals : FieldType → ℕ) (l : Laid) : Prop where
  spells : Spells mem start vals l.slots
  plen : vals .ftPlen = late .ftPlen
  slen : vals .ftSlen = late .ftSlen
  crc : ∀ q w, ⟨q, w, .late .ftCrc⟩ ∈ l.slots → vals .ftCrc = checksum mem start (8 * start + q) w

theorem Holds.behind {vals : FieldType → ℕ} {ks : List Slot} {notes : Notes}
    (h : Holds mem start late vals (l.behind ks notes)) :
    Spells mem start vals ks ∧ Holds mem start late vals l := by
  constructor
  · exact fun k hk => h.spells k (List.mem_append_left _ hk)
  · constructor
    · exact fun k hk => h.spells k (List.mem_append_right _ hk)
    · exact h.plen
    · exact h.slen
    · exact fun q w hk => h.crc q w (List.mem_append_right _ hk)

theorem bytesBetween_moved {a b n : ℕ} (h : ∀ i < n, mem' (b + i) = mem (a + i)) :
    bytesBetween mem' b (b + n) = bytesBetween mem a (a + n) := by
  unfold bytesBetween
  rw [Nat.add_sub_cancel_left, Nat.add_sub_cancel_left, List.range'_eq_map_range,
    List.range'_eq_map_range, List.map_map, List.map_map]
  apply List.map_congr_left
  intro i hi
  exact h i (List.mem_range.mp hi)

/-- The same bytes at another address hold the same layout. -/
theorem Holds.moved {vals : FieldType → ℕ} {addr : ℕ} (hholds : Holds mem start late vals l)
    (h : Layout now ok late seen fs ms ps pos l)
    (hsame : ∀ i, 8 * i < l.stop → mem' (addr + i) = mem (start + i)) :
    Holds mem' addr late vals l := by
  constructor
  · intro k hk
    have hplace := h.inPlace.within k hk
    rw [← hholds.spells k hk]
    apply wordAt_moved
    intro q _ hq
    apply hsame
    omega
  · exact hholds.plen
  · exact hholds.slen
  · intro q w hk
    have hplace := h.inPlace.within _ hk
    simp only at hplace
    have hbytes : bytesBetween mem' addr ((8 * addr + q) / 8) =
        bytesBetween mem start ((8 * start + q) / 8) := by
      rw [show (8 * addr + q) / 8 = addr + q / 8 by omega,
        show (8 * start + q) / 8 = start + q / 8 by omega]
      apply bytesBetween_moved
      intro i hi
      apply hsame
      omega
    rw [hholds.crc q w hk, checksum, checksum, hbytes]

/-- The decoder compares what it made of the bits as an `int`: the value of an `ft_enum` or `ft_fix`
field gets through. -/
def GetsThrough (t : FieldType) (v : ℕ) : Prop :=
  match t with
  | .ftEnum ed => enumName ed (intToU64 v) ≠ none
  | .ftFix fixNum => intToU64 v = fixNum
  | _ => True

/-- Every value of the struct gets through. -/
def GetThrough (now : ℕ) : List FieldDesc → List Member → Prop
  | [], _ => True
  | f :: fs, ms =>
    if f.fieldType.isBits then
      (∀ n, ms.head? = some (.num n) → GetsThrough f.fieldType (writtenValue now f.fieldType n)) ∧
        GetThrough now fs ms.tail
    else if f.fieldType = .ftPad ∨ f.fieldType = .ftCrc then GetThrough now fs ms
    else GetThrough now fs ms.tail

theorem getThrough_number {f : FieldDesc} (hbits : f.fieldType.isBits = true) (n : ℕ) :
    GetThrough now (f :: fs) (.num n :: ms) ↔
      GetsThrough f.fieldType (writtenValue now f.fieldType n) ∧ GetThrough now fs ms := by
  simp [GetThrough, hbits]

theorem getThrough_string {f : FieldDesc} (hbits : f.fieldType.isBits = false)
    (hf : f.fieldType ≠ .ftPad ∧ f.fieldType ≠ .ftCrc) (b : Option Buffer) :
    GetThrough now (f :: fs) (.str b :: ms) ↔ GetThrough now fs ms := by
  simp [GetThrough, hbits, hf]

theorem getThrough_silent {f : FieldDesc} (hf : f.fieldType = .ftPad ∨ f.fieldType = .ftCrc) :
    GetThrough now (f :: fs) ms ↔ GetThrough now fs ms := by
  have hbits : f.fieldType.isBits = false := by
    rcases hf with hf | hf <;> rw [hf] <;> rfl
  simp [GetThrough, hbits, hf]

/-- What a decoder makes of a layout. -/
structure ReadsBack (mem : Mem) (start now : ℕ) (ok : FieldDesc → ℕ → Prop)
    (late : FieldType → ℕ) (fs : List FieldDesc) (ms : List Member) (l : Laid) (p : Spot) :
    Prop where
  accepts : p.AcceptsAll mem start fs ↔ GetThrough now fs ms
  pos : (p.walk mem start fs).pos = 8 * start + l.stop
  payload : (p.walk mem start fs).payloadStart =
    (l.notes.payload.map fun a => start + a).or p.payloadStart
  sdu : (p.walk mem start fs).sduLen =
    if l.notes.slen.isSome then intToU64 (late .ftSlen) else p.sduLen
  members : (∀ f n, ok f n → writtenValue now f.fieldType n = n) →
    Reproduces late fs ms (p.filledAll mem start fs)

/-- A field in front of what reads back. -/
theorem ReadsBack.cons {f : FieldDesc} {ms' : List Member} {ks : List Slot} {notes : Notes}
    (hrest : ReadsBack mem start now ok late fs ms l (p.next mem start f))
    (haccepts : p.Accepts mem start f ∧ GetThrough now fs ms ↔ GetThrough now (f :: fs) ms')
    (hpayload : (p.next mem start f).payloadStart =
      (notes.payload.map fun a => start + a).or p.payloadStart)
    (hsdu : (p.next mem start f).sduLen =
      if notes.slen.isSome then intToU64 (late .ftSlen) else p.sduLen)
    (hmembers : (∀ f n, ok f n → writtenValue now f.fieldType n = n) → ∀ rs,
      Reproduces late fs ms rs → Reproduces late (f :: fs) ms' (p.filled mem start f ++ rs)) :
    ReadsBack mem start now ok late (f :: fs) ms' (l.behind ks notes) p := by
  constructor
  · rw [Spot.AcceptsAll, hrest.accepts, haccepts]
  · exact hrest.pos
  · rw [Spot.walk, List.foldl_cons]
    change ((p.next mem start f).walk mem start fs).payloadStart = _
    rw [hrest.payload, hpayload, ← Option.or_assoc, ← Option.map_or]
    rfl
  · rw [Spot.walk, List.foldl_cons]
    change ((p.next mem start f).walk mem start fs).sduLen = _
    rw [hrest.sdu, hsdu]
    simp only [Laid.behind, Notes.after, Option.isSome_or]
    cases l.notes.slen.isSome <;> cases notes.slen.isSome <;> rfl
  · intro hok
    exact hmembers hok _ (hrest.members hok)

theorem next_of_bits (p : Spot) (mem : Mem) (start : ℕ) {f : FieldDesc}
    (hbits : f.fieldType.isBits = true) :
    (p.next mem start f).pos = p.pos + f.size ∧ (p.next mem start f).presized = p.presized ∧
      (p.next mem start f).payloadStart = p.payloadStart := by
  simp only [Spot.next, Spot.ending, if_pos hbits]
  cases hf : f.fieldType <;> simp_all [FieldType.isBits]

/-- The buffer a string comes back in. -/
theorem string_back {b' : Buffer} (hvalid : b'.Valid) (hlen : b'.len = 0) (bytes : List UInt8) :
    (catToBuffer true b' bytes).1.Valid ∧ (catToBuffer true b' bytes).1.content = bytes := by
  obtain ⟨hv, -, hcontent⟩ := catToBuffer_spec hvalid bytes
  have hempty : b'.content = [] := by
    simp [Buffer.content, hlen]
  exact ⟨hv, by rw [hcontent, hempty, List.nil_append]⟩

/-- The member a bit field fills. -/
theorem filled_number {f : FieldDesc} {v : ℕ} (hbits : f.fieldType.isBits = true) (h1 : 1 ≤ f.size)
    (h32 : f.size ≤ 32) (hv : v < 2 ^ f.size) (hword : wordAt mem p.pos f.size = v) :
    p.filled mem start f = [.num v] := by
  obtain ⟨bits, hbits', -⟩ := exists_storageBits h1 (by omega : f.size ≤ 64)
  simp [Spot.filled, hbits, hbits', valueAt_stored h1 h32 hv hbits' hword]

/-- The decoder accepts a bit field exactly where its value gets through. -/
theorem accepts_number {f : FieldDesc} {v : ℕ} (hbits : f.fieldType.isBits = true)
    (hword : wordAt mem p.pos f.size = v) :
    p.Accepts mem start f ↔ GetsThrough f.fieldType v := by
  subst hword
  unfold Spot.Accepts GetsThrough
  cases hf : f.fieldType <;> simp_all [FieldType.isBits, valueAt]

/-- What a string field does where the slots of its bytes are spelled. -/
theorem next_of_string {f : FieldDesc} {len : ℕ} (make : List UInt8 → Buffer)
    (hstring : p.string start f = some (len, make)) (hbits : f.fieldType.isBits = false)
    {vals : FieldType → ℕ} {bytes : List UInt8} (hlen : len = bytes.length)
    (hpos : p.pos = 8 * start + pos) (hslots : Spells mem start vals (byteSlots pos bytes)) :
    (p.next mem start f).pos = 8 * start + (pos + 8 * bytes.length) ∧
      (p.next mem start f).pduLen = p.pduLen ∧ (p.next mem start f).sduLen = p.sduLen ∧
      (p.next mem start f).payloadStart = p.payloadStart ∧ p.Accepts mem start f ∧
      p.filled mem start f = [.str (some (make bytes))] := by
  subst hlen
  have hbytes : bytesAt mem p.pos bytes.length = bytes := by
    rw [hpos]
    exact bytesAt_of_spells hslots
  have hending : p.ending start f = 8 * start + (pos + 8 * bytes.length) := by
    rw [← Nat.add_assoc, ← hpos]
    unfold Spot.ending
    cases hf : f.fieldType <;> simp_all [FieldType.isBits, Spot.string]
  have hfilled : p.filled mem start f = [.str (some (make bytes))] := by
    rw [Spot.filled, hbits, hstring]
    simp [hbytes]
  refine ⟨hending, ?_, ?_, ?_, ?_, hfilled⟩
  all_goals
    simp only [Spot.next, Spot.Accepts]
    cases hf : f.fieldType <;> simp_all [FieldType.isBits, Spot.string]

section Fields

variable {f : FieldDesc} {n : ℕ}

/-- A number in front of what reads back. -/
theorem ReadsBack.number (hrest : ReadsBack mem start now ok late fs ms l (p.next mem start f))
    (hc : Carries now f n) (hokn : ok f n)
    (hword : wordAt mem p.pos f.size = writtenValue now f.fieldType n) (ks : List Slot) :
    ReadsBack mem start now ok late (f :: fs) (.num n :: ms) (l.behind ks .blank) p := by
  have hplain : f.fieldType ≠ .ftPlen ∧ f.fieldType ≠ .ftSlen := by
    have hok := hc.ok
    cases hf : f.fieldType <;> simp_all
  have hnsdu : (p.next mem start f).sduLen = p.sduLen := if_neg hplain.2
  apply hrest.cons
  · rw [accepts_number hc.isBits hword, getThrough_number hc.isBits]
  · simpa [Notes.blank] using (next_of_bits p mem start hc.isBits).2.2
  · simpa [Notes.blank] using hnsdu
  · intro hok rs hrs
    have hsame := hok f n hokn
    have hfits := hc.fits
    rw [hsame] at hword hfits
    rw [filled_number hc.isBits hc.pos hc.le hfits hword]
    exact .number hc.isBits hplain.1 hplain.2 hrs

/-- A length in front of what reads back. -/
theorem ReadsBack.length (hrest : ReadsBack mem start now ok late fs ms l (p.next mem start f))
    (htype : f.fieldType = .ftPlen ∨ f.fieldType = .ftSlen) (h1 : 1 ≤ f.size) (h32 : f.size ≤ 32)
    (hfits : late f.fieldType < 2 ^ f.size)
    (hword : wordAt mem p.pos f.size = late f.fieldType) (ks : List Slot) :
    ReadsBack mem start now ok late (f :: fs) (.num n :: ms)
      (l.behind ks (lengthNote f.fieldType pos f.size)) p := by
  have hbits : f.fieldType.isBits = true := by
    rcases htype with ht | ht <;> rw [ht] <;> rfl
  have hthrough (v : ℕ) : GetsThrough f.fieldType v := by
    rcases htype with ht | ht <;> simp [GetsThrough, ht]
  have hnotes : (lengthNote f.fieldType pos f.size).payload = none := by
    rcases htype with ht | ht <;> rw [ht] <;> rfl
  apply hrest.cons
  · rw [accepts_number hbits hword, getThrough_number hbits]
    simp [hthrough]
  · rw [hnotes, (next_of_bits p mem start hbits).2.2]
    rfl
  · rcases htype with ht | ht <;> simp [Spot.next, ht, lengthNote, Notes.blank]
    rw [← ht, valueAt, hword]
  · intro _ rs hrs
    rw [filled_number hbits h1 h32 hfits hword]
    exact .length htype hrs

/-- A string in front of what reads back. -/
theorem ReadsBack.string (hrest : ReadsBack mem start now ok late fs ms l (p.next mem start f))
    {b : Buffer} {len : ℕ} {make : List UInt8 → Buffer} {vals : FieldType → ℕ}
    (hstring : p.string start f = some (len, make)) (hbits : f.fieldType.isBits = false)
    (hloud : f.fieldType ≠ .ftPad ∧ f.fieldType ≠ .ftCrc) (hlen : len = b.content.length)
    (hpos : p.pos = 8 * start + pos) (hslots : Spells mem start vals (byteSlots pos b.content))
    (hmake : (make b.content).Valid ∧ (make b.content).content = b.content) :
    ReadsBack mem start now ok late (f :: fs) (.str (some b) :: ms)
      (l.behind (byteSlots pos b.content) .blank) p := by
  obtain ⟨-, -, hnsdu, hnpay, haccepts, hfilled⟩ :=
    next_of_string make hstring hbits hlen hpos hslots
  apply hrest.cons
  · rw [getThrough_string hbits hloud, and_iff_right haccepts]
  · simpa [Notes.blank] using hnpay
  · simpa [Notes.blank] using hnsdu
  · intro _ rs hrs
    rw [hfilled]
    exact .string hmake.1 hmake.2 hrs

/-- Padding in front of what reads back. -/
theorem ReadsBack.pad (hrest : ReadsBack mem start now ok late fs ms l (p.next mem start f))
    (hf : f.fieldType = .ftPad) (hpos : p.pos = 8 * start + pos) (ks : List Slot) :
    ReadsBack mem start now ok late (f :: fs) ms
      (l.behind ks { Notes.blank with payload := some (octetBorder pos / 8) }) p := by
  have hdiv : octetBorder p.pos / 8 = start + octetBorder pos / 8 := by
    rw [hpos, octetBorder_shift]
    omega
  apply hrest.cons
  · rw [getThrough_silent (.inl hf)]
    simp [Spot.Accepts, hf]
  · simp [Spot.next, hf, hdiv]
  · simp [Spot.next, hf, Notes.blank]
  · intro _ rs hrs
    simpa [Spot.filled, Spot.string, hf, FieldType.isBits] using .silent (.inl hf) hrs

/-- A string that is not there in front of what reads back. -/
theorem ReadsBack.null (hrest : ReadsBack mem start now ok late fs ms l (p.next mem start f))
    (hf : f.fieldType = .ftDlStr) (hps : ∃ extra, p.presized = none :: extra) :
    ReadsBack mem start now ok late (f :: fs) (.str none :: ms) l p := by
  obtain ⟨extra, hextra⟩ := hps
  have hlaid : l.behind [] .blank = l := by
    simp [Laid.behind, Notes.after, Notes.blank]
  rw [← hlaid]
  apply hrest.cons
  · rw [getThrough_string (by rw [hf]; rfl) (by simp [hf])]
    simp [Spot.Accepts, hf]
  · simp [Spot.next, hf, Notes.blank]
  · simp [Spot.next, hf, Notes.blank]
  · intro _ rs hrs
    simpa [Spot.filled, Spot.string, hf, hextra, FieldType.isBits] using .null hrs

/-- A checksum in front of what reads back. -/
theorem ReadsBack.crc (hrest : ReadsBack mem start now ok late fs ms l (p.next mem start f))
    (hf : f.fieldType = .ftCrc) (halign : pos % 8 = 0) (hpos : p.pos = 8 * start + pos)
    (hword : wordAt mem (8 * start + pos) f.size = checksum mem start (8 * start + pos) f.size)
    (ks : List Slot) :
    ReadsBack mem start now ok late (f :: fs) ms
      (l.behind ks { Notes.blank with crc := some (pos, f.size) }) p := by
  have hdiv : 8 * (p.pos / 8) = 8 * start + pos := by omega
  have haccepts : p.Accepts mem start f := by
    simp only [Spot.Accepts, hf]
    intro _
    rw [hdiv, hword, hpos]
  apply hrest.cons
  · rw [getThrough_silent (.inr hf), and_iff_right haccepts]
  · simp [Spot.next, hf, Notes.blank]
  · simp [Spot.next, hf, Notes.blank]
  · intro _ rs hrs
    simpa [Spot.filled, Spot.string, hf, FieldType.isBits] using .silent (.inr hf) hrs

/-- Behind a length field the decoder knows the length of the packet as far as it stood before. -/
theorem Spot.pduLen_next_length {seen : List FieldType}
    (htype : f.fieldType = .ftPlen ∨ f.fieldType = .ftSlen)
    (hword : wordAt mem p.pos f.size = late f.fieldType)
    (hplen : .ftPlen ∈ seen → p.pduLen = intToU64 (late .ftPlen))
    (hseen : .ftPlen ∈ f.fieldType :: seen) :
    (p.next mem start f).pduLen = intToU64 (late .ftPlen) := by
  rcases htype with ht | ht
  · simp [Spot.next, ht]
    rw [← ht, valueAt, hword]
  · have hne : f.fieldType ≠ .ftPlen := by simp [ht]
    have hold : .ftPlen ∈ seen := (List.mem_cons.mp hseen).resolve_left hne.symm
    rw [← hplen hold]
    exact if_neg hne

/-- What is left of the packet for an `ft_p_raw` string is the length of the string. -/
theorem Spot.rawLeft_eq {behind len plen : ℕ} (hpos : p.pos = 8 * start + pos)
    (hplen : p.pduLen = intToU64 plen) (halign : pos % 8 = 0) (hlt : plen < 2 ^ 31)
    (hexact : pos + 8 * len + behind = 8 * plen) : u64 (p.rawLeft start behind) = len := by
  rw [intToU64_of_lt hlt] at hplen
  have hleft : p.rawLeft start behind = len := by
    simp only [Spot.rawLeft, hplen, hpos]
    omega
  rw [hleft]
  apply u64_natCast
  omega

end Fields

/-- A decoder on memory that holds a layout accepts it as far as the values get through, ends
behind it, and gets the members of the struct back. -/
theorem Layout.readsBack (h : Layout now ok late seen fs ms ps pos l) {vals : FieldType → ℕ}
    (hholds : Holds mem start late vals l) (hpos : p.pos = 8 * start + pos)
    (hps : ∃ extra, p.presized = ps ++ extra)
    (hplen : .ftPlen ∈ seen → p.pduLen = intToU64 (late .ftPlen)) :
    ReadsBack mem start now ok late fs ms l p := by
  induction h generalizing p with
  | done =>
    constructor
    · trivial
    · exact hpos
    · simp [Spot.walk, Notes.blank]
    · simp [Spot.walk, Notes.blank]
    · exact fun _ => .done
  | @number seen f fs n ms ps pos l hc hokn _ ih =>
    obtain ⟨hslot, hrest⟩ := hholds.behind
    obtain ⟨hnpos, hnps, -⟩ := next_of_bits p mem start hc.isBits
    have hword : wordAt mem p.pos f.size = writtenValue now f.fieldType n := by
      rw [hpos]
      exact hslot _ List.mem_cons_self
    have hplain : f.fieldType ≠ .ftPlen := by
      have hok := hc.ok
      cases hf : f.fieldType <;> simp_all
    have hnpdu : (p.next mem start f).pduLen = p.pduLen := if_neg hplain
    apply (ih hrest (p := p.next mem start f) ?_ ?_ ?_).number hc hokn hword
    · rw [hnpos, hpos, Nat.add_assoc]
    · rw [hnps]
      exact hps
    · rw [hnpdu]
      exact hplen
  | @length seen f fs ms ps pos l htype hnew h1 h32 hfits _ ih =>
    obtain ⟨hslot, hrest⟩ := hholds.behind
    have hbits : f.fieldType.isBits = true := by
      rcases htype with ht | ht <;> rw [ht] <;> rfl
    obtain ⟨hnpos, hnps, -⟩ := next_of_bits p mem start hbits
    have hvals : vals f.fieldType = late f.fieldType := by
      rcases htype with ht | ht <;> rw [ht]
      · exact hholds.plen
      · exact hholds.slen
    have hword : wordAt mem p.pos f.size = late f.fieldType := by
      rw [hpos, ← hvals]
      exact hslot _ List.mem_cons_self
    apply (ih hrest (p := p.next mem start f) ?_ ?_ ?_).length htype h1 h32 hfits hword
    · rw [hnpos, hpos, Nat.add_assoc]
    · rw [hnps]
      exact hps
    · exact Spot.pduLen_next_length htype hword hplen
  | @pad seen f fs ms ps pos l hf _ ih =>
    obtain ⟨-, hrest⟩ := hholds.behind
    have hborder : octetBorder p.pos = 8 * start + octetBorder pos := by
      rw [hpos, octetBorder_shift]
    apply (ih hrest (p := p.next mem start f) ?_ ?_ ?_).pad hf hpos
    · simp [Spot.next, Spot.ending, hf, FieldType.isBits, hborder]
    · simpa [Spot.next, hf] using hps
    · simpa [Spot.next, hf] using hplen
  | @flStr seen f fs ms ps pos l b hf _ ih =>
    obtain ⟨hslots, hrest⟩ := hholds.behind
    have hbits : f.fieldType.isBits = false := by rw [hf]; rfl
    have hstring : p.string start f = some (b.content.length, fun temp =>
        (catToBuffer true (initBufferPtr b.content.length) temp).1) := by
      simp [Spot.string, hf]
    obtain ⟨hnpos, hnpdu, -⟩ := next_of_string _ hstring hbits rfl hpos hslots
    apply (ih hrest hnpos (p := p.next mem start f) ?_ ?_).string hstring hbits (by simp [hf]) rfl
      hpos hslots (string_back (valid_initBufferPtr b.content.length) rfl b.content)
    · simpa [Spot.next, hf] using hps
    · rw [hnpdu]
      exact hplen
  | @dlStr seen f fs ms ps pos l b b' hf hvalid hempty hfree _ ih =>
    obtain ⟨hslots, hrest⟩ := hholds.behind
    have hbits : f.fieldType.isBits = false := by rw [hf]; rfl
    obtain ⟨extra, hextra⟩ := hps
    have hstring : p.string start f = some (b'.free, fun temp => (catToBuffer true b' temp).1) := by
      simp [Spot.string, hf, hextra]
    obtain ⟨hnpos, hnpdu, -⟩ := next_of_string _ hstring hbits hfree hpos hslots
    apply (ih hrest hnpos (p := p.next mem start f) ?_ ?_).string hstring hbits (by simp [hf])
      hfree hpos hslots (string_back hvalid hempty b.content)
    · exact ⟨extra, by simp [Spot.next, hf, hextra]⟩
    · rw [hnpdu]
      exact hplen
  | @dlNull seen f fs ms ps pos l hf _ ih =>
    obtain ⟨extra, hextra⟩ := hps
    have hnpos : (p.next mem start f).pos = 8 * start + pos := by
      simp [Spot.next, Spot.ending, Spot.string, hf, hextra, FieldType.isBits, hpos]
    apply (ih hholds hnpos (p := p.next mem start f) ?_ ?_).null hf ⟨_, hextra⟩
    · exact ⟨extra, by simp [Spot.next, hf, hextra]⟩
    · simpa [Spot.next, hf] using hplen
  | @pRaw seen f fs ms ps pos behind l b hf halign hseen hlt hexact _ ih =>
    obtain ⟨hslots, hrest⟩ := hholds.behind
    have hbits : f.fieldType.isBits = false := by rw [hf]; rfl
    have hlen : u64 (p.rawLeft start behind) = b.content.length :=
      Spot.rawLeft_eq hpos (hplen hseen) halign hlt hexact
    have hstring : p.string start f = some (u64 (p.rawLeft start behind), cloneToChunk) := by
      simp [Spot.string, hf]
    obtain ⟨hnpos, hnpdu, -⟩ := next_of_string _ hstring hbits hlen hpos hslots
    apply (ih hrest hnpos (p := p.next mem start f) ?_ ?_).string hstring hbits (by simp [hf])
      hlen hpos hslots ⟨valid_cloneToChunk _, content_cloneToChunk _⟩
    · simpa [Spot.next, hf] using hps
    · rw [hnpdu]
      exact hplen
  | @crc seen f fs ms ps pos l hf hsize halign hnew _ ih =>
    obtain ⟨hslot, hrest⟩ := hholds.behind
    have hword : wordAt mem (8 * start + pos) f.size =
        checksum mem start (8 * start + pos) f.size :=
      (hslot _ List.mem_cons_self).trans (hholds.crc pos f.size List.mem_cons_self)
    apply (ih hrest (p := p.next mem start f) ?_ ?_ ?_).crc hf halign hpos hword
    · simp only [Spot.next, Spot.ending, hf, FieldType.isBits, if_pos hsize, hpos, Nat.add_assoc]
      rfl
    · simpa [Spot.next, hf] using hps
    · intro hseen
      have hold : .ftPlen ∈ seen := (List.mem_cons.mp hseen).resolve_left (by decide)
      simpa [Spot.next, hf] using hplen hold

end LdacsSdk
