import LdacsSdk.Packet.Placement

/-!
# Packet layouts

A layout says where the members of a struct stand in its packet: which bits spell which number,
and which are left open for a length or a checksum. It is what a descriptor means, without cursors;
positions count from the start of the packet. The encoder fills exactly these slots.
-/
namespace LdacsSdk

open Library

/-- What a slot spells: a number known from the struct, or one filled in when all is written. -/
inductive Content where
  | given (v : ℕ)
  | late (t : FieldType)
  deriving DecidableEq, Repr

/-- A stretch of bits with a meaning. -/
structure Slot where
  pos : ℕ
  width : ℕ
  content : Content
  deriving DecidableEq, Repr

/-- The number a slot spells, with the late numbers given. -/
def Slot.value (late : FieldType → ℕ) (k : Slot) : ℕ :=
  match k.content with
  | .given v => v
  | .late t => late t

/-- The slots of a packet, the places kept for later and the position behind. -/
structure Laid where
  slots : List Slot
  notes : Notes
  stop : ℕ
  deriving DecidableEq, Repr

/-- A field put in front of a layout. -/
def Laid.behind (l : Laid) (ks : List Slot) (notes : Notes) : Laid :=
  ⟨ks ++ l.slots, l.notes.after notes, l.stop⟩

/-- One slot for each byte of a string. -/
def byteSlots (pos : ℕ) : List UInt8 → List Slot
  | [] => []
  | b :: bytes => ⟨pos, 8, .given b.toNat⟩ :: byteSlots (pos + 8) bytes

/-- The bit field can carry the member: what is written of it fits the width, and the encoder has
nothing against it. -/
structure Carries (now : ℕ) (f : FieldDesc) (n : ℕ) : Prop where
  pos : 1 ≤ f.size
  le : f.size ≤ 32
  fits : writtenValue now f.fieldType n < 2 ^ f.size
  ok : match f.fieldType with
    | .ftSet | .ftSqn | .ftTime | .ftFix _ => True
    | .ftMbz => n = 0
    | .ftEnum ed => enumName ed n ≠ none
    | _ => False

/-- `Layout now ok late seen fields ms ps pos l`: from position `pos` on the members `ms` of the
fields lie as `l` says, where the late numbers are `late`, the types in `seen` were noted before
and `ps` are the buffers the decoder finds in its `ft_dl_str` members. `ok` is a further condition
on the numbers. The decoder takes a received length for an `int`, hence the bound in `pRaw`. -/
inductive Layout (now : ℕ) (ok : FieldDesc → ℕ → Prop) (late : FieldType → ℕ) :
    List FieldType → List FieldDesc → List Member → List (Option Buffer) → ℕ → Laid → Prop
  | done {seen pos} : Layout now ok late seen [] [] [] pos ⟨[], .blank, pos⟩
  | number {seen f fs n ms ps pos l} : Carries now f n → ok f n →
      Layout now ok late seen fs ms ps (pos + f.size) l →
      Layout now ok late seen (f :: fs) (.num n :: ms) ps pos
        (l.behind [⟨pos, f.size, .given (writtenValue now f.fieldType n)⟩] .blank)
  | length {seen f fs ms ps pos l} : f.fieldType = .ftPlen ∨ f.fieldType = .ftSlen →
      f.fieldType ∉ seen → 1 ≤ f.size → f.size ≤ 32 → late f.fieldType < 2 ^ f.size →
      Layout now ok late (f.fieldType :: seen) fs ms ps (pos + f.size) l →
      Layout now ok late seen (f :: fs) (.num 0 :: ms) ps pos
        (l.behind [⟨pos, f.size, .late f.fieldType⟩] (lengthNote f.fieldType pos f.size))
  | pad {seen f fs ms ps pos l} : f.fieldType = .ftPad →
      Layout now ok late seen fs ms ps (octetBorder pos) l →
      Layout now ok late seen (f :: fs) ms ps pos
        (l.behind [] { Notes.blank with payload := some (octetBorder pos / 8) })
  | flStr {seen f fs ms ps pos l} {b : Buffer} : f.fieldType = .ftFlStr b.content.length →
      Layout now ok late seen fs ms ps (pos + 8 * b.content.length) l →
      Layout now ok late seen (f :: fs) (.str (some b) :: ms) ps pos
        (l.behind (byteSlots pos b.content) .blank)
  | dlStr {seen f fs ms ps pos l} {b b' : Buffer} : f.fieldType = .ftDlStr → b'.Valid →
      b'.len = 0 → b'.free = b.content.length →
      Layout now ok late seen fs ms ps (pos + 8 * b.content.length) l →
      Layout now ok late seen (f :: fs) (.str (some b) :: ms) (some b' :: ps) pos
        (l.behind (byteSlots pos b.content) .blank)
  | dlNull {seen f fs ms ps pos l} : f.fieldType = .ftDlStr →
      Layout now ok late seen fs ms ps pos l →
      Layout now ok late seen (f :: fs) (.str none :: ms) (none :: ps) pos l
  | pRaw {seen f fs ms ps pos behind l} {b : Buffer} : f.fieldType = .ftPRaw behind →
      pos % 8 = 0 → .ftPlen ∈ seen →
      late .ftPlen < 2 ^ 31 → pos + 8 * b.content.length + behind = 8 * late .ftPlen →
      Layout now ok late seen fs ms ps (pos + 8 * b.content.length) l →
      Layout now ok late seen (f :: fs) (.str (some b) :: ms) ps pos
        (l.behind (byteSlots pos b.content) .blank)
  | crc {seen f fs ms ps pos l} : f.fieldType = .ftCrc →
      f.size = crc8Size ∨ f.size = crc32Size → pos % 8 = 0 → .ftCrc ∉ seen →
      Layout now ok late (.ftCrc :: seen) fs ms ps (pos + f.size) l →
      Layout now ok late seen (f :: fs) ms ps pos
        (l.behind [⟨pos, f.size, .late .ftCrc⟩] { Notes.blank with crc := some (pos, f.size) })

/-- The stroke that fills a slot of a packet at address `start`. -/
def Slot.stroke (start : ℕ) (late : FieldType → ℕ) (k : Slot) : Stroke :=
  ⟨8 * start + k.pos, k.width, k.value late⟩

/-- Every slot of the packet at address `start` spells its number. -/
def Spells (mem : Mem) (start : ℕ) (late : FieldType → ℕ) (ks : List Slot) : Prop :=
  ∀ k ∈ ks, wordAt mem (8 * start + k.pos) k.width = k.value late

/-- The place noted for a late number. -/
def Notes.place (notes : Notes) (t : FieldType) : Option (ℕ × ℕ) :=
  match t with
  | .ftSlen => notes.slen
  | .ftPlen => notes.plen
  | .ftCrc => notes.crc
  | _ => none

/-- Notes of positions in the packet, as notes of positions in memory. -/
def Notes.shift (start : ℕ) (notes : Notes) : Notes :=
  ⟨notes.slen.map fun p => (8 * start + p.1, p.2), notes.plen.map fun p => (8 * start + p.1, p.2),
    notes.crc.map fun p => (8 * start + p.1, p.2), notes.payload.map fun a => start + a⟩

section Slots

variable {now start : ℕ} {ok : FieldDesc → ℕ → Prop} {late : FieldType → ℕ}
  {seen : List FieldType} {fs : List FieldDesc} {ms : List Member} {ps : List (Option Buffer)}
  {pos : ℕ} {l : Laid}

theorem le_octetBorder (pos : ℕ) : pos ≤ octetBorder pos := by
  unfold octetBorder
  omega

theorem mem_byteSlots {bytes : List UInt8} {k : Slot} (hk : k ∈ byteSlots pos bytes) :
    pos ≤ k.pos ∧ k.pos + k.width ≤ pos + 8 * bytes.length ∧ k.width = 8 ∧
      ∃ b : UInt8, k.content = .given b.toNat := by
  induction bytes generalizing pos with
  | nil => cases hk
  | cons b bytes ih =>
    rcases List.mem_cons.mp hk with rfl | hk
    · refine ⟨le_rfl, ?_, rfl, b, rfl⟩
      simp only [List.length_cons]
      omega
    · obtain ⟨hlo, hhi, hwidth, hcontent⟩ := ih hk
      simp only [List.length_cons]
      exact ⟨by omega, by omega, hwidth, hcontent⟩

theorem pairwise_byteSlots (pos : ℕ) (bytes : List UInt8) :
    (byteSlots pos bytes).Pairwise fun k m => k.pos + k.width ≤ m.pos := by
  induction bytes generalizing pos with
  | nil => exact List.Pairwise.nil
  | cons b bytes ih =>
    apply List.Pairwise.cons _ (ih (pos + 8))
    intro m hm
    exact (mem_byteSlots hm).1

/-- Slots lie in the packet, one behind the other. -/
structure Laid.InPlace (l : Laid) (pos : ℕ) : Prop where
  le : pos ≤ l.stop
  within : ∀ k ∈ l.slots, pos ≤ k.pos ∧ k.pos + k.width ≤ l.stop
  order : l.slots.Pairwise fun k m => k.pos + k.width ≤ m.pos

theorem Laid.InPlace.behind {next : ℕ} {ks : List Slot} {notes : Notes} (h : l.InPlace next)
    (hle : pos ≤ next) (hks : ∀ k ∈ ks, pos ≤ k.pos ∧ k.pos + k.width ≤ next)
    (horder : ks.Pairwise fun k m => k.pos + k.width ≤ m.pos) :
    (l.behind ks notes).InPlace pos := by
  constructor
  · exact hle.trans h.le
  · intro k hk
    rcases List.mem_append.mp hk with hk | hk
    · exact ⟨(hks k hk).1, (hks k hk).2.trans h.le⟩
    · exact ⟨hle.trans (h.within k hk).1, (h.within k hk).2⟩
  · apply List.pairwise_append.mpr ⟨horder, h.order, ?_⟩
    intro k hk m hm
    exact (hks k hk).2.trans (h.within m hm).1

theorem Layout.inPlace (h : Layout now ok late seen fs ms ps pos l) : l.InPlace pos := by
  induction h with
  | done => exact ⟨le_rfl, by simp, List.Pairwise.nil⟩
  | number _ _ _ ih | length _ _ _ _ _ _ ih | crc _ _ _ _ _ ih =>
    apply ih.behind (Nat.le_add_right _ _)
    · simp
    · exact List.pairwise_singleton _ _
  | pad _ _ ih =>
    apply ih.behind (le_octetBorder _)
    · simp
    · exact List.Pairwise.nil
  | flStr _ _ ih | dlStr _ _ _ _ _ ih | pRaw _ _ _ _ _ _ ih =>
    apply ih.behind (Nat.le_add_right _ _)
    · intro k hk
      exact ⟨(mem_byteSlots hk).1, (mem_byteSlots hk).2.1⟩
    · exact pairwise_byteSlots _ _
  | dlNull _ _ ih => exact ih

/-- Numbers known from the struct fit their slots. -/
theorem Layout.given_fits (h : Layout now ok late seen fs ms ps pos l) {k : Slot} (hk : k ∈ l.slots)
    {v : ℕ} (hv : k.content = .given v) : v < 2 ^ k.width := by
  have hbyte {pos : ℕ} {bytes : List UInt8} {k : Slot} (hk : k ∈ byteSlots pos bytes) {v : ℕ}
      (hv : k.content = .given v) : v < 2 ^ k.width := by
    obtain ⟨-, -, hwidth, b, hb⟩ := mem_byteSlots hk
    rw [hv, Content.given.injEq] at hb
    rw [hwidth, hb]
    exact b.toNat_lt
  induction h with
  | done => cases hk
  | number hc _ _ ih =>
    rcases List.mem_cons.mp hk with rfl | hk
    · cases hv
      exact hc.fits
    · exact ih hk
  | length _ _ _ _ _ _ ih | crc _ _ _ _ _ ih =>
    rcases List.mem_cons.mp hk with rfl | hk
    · cases hv
    · exact ih hk
  | pad _ _ ih | dlNull _ _ ih => exact ih hk
  | flStr _ _ ih | dlStr _ _ _ _ _ ih | pRaw _ _ _ _ _ _ ih =>
    rcases List.mem_append.mp hk with hk | hk
    · exact hbyte hk hv
    · exact ih hk

@[simp] theorem place_behind (ks : List Slot) (notes : Notes) (t : FieldType) :
    (l.behind ks notes).notes.place t = (l.notes.place t).or (notes.place t) := by
  cases t <;> rfl

@[simp] theorem place_blank (t : FieldType) : Notes.blank.place t = none := by
  cases t <;> rfl

@[simp] theorem place_payload (a : Option ℕ) (t : FieldType) :
    Notes.place { Notes.blank with payload := a } t = none := by
  cases t <;> rfl

theorem place_crc (place : ℕ × ℕ) (t : FieldType) :
    Notes.place { Notes.blank with crc := some place } t =
      if t = .ftCrc then some place else none := by
  cases t <;> rfl

theorem place_lengthNote {u : FieldType} (hu : u = .ftPlen ∨ u = .ftSlen) (size : ℕ)
    (t : FieldType) :
    (lengthNote u pos size).place t = if t = u then some (pos, size) else none := by
  rcases hu with rfl | rfl <;> cases t <;> rfl

/-- What was noted before is not noted again. -/
theorem Layout.seen_absent (h : Layout now ok late seen fs ms ps pos l) {t : FieldType}
    (ht : t ∈ seen) : l.notes.place t = none ∧ ∀ k ∈ l.slots, k.content ≠ .late t := by
  have hbyte {pos : ℕ} {bytes : List UInt8} {k : Slot} (hk : k ∈ byteSlots pos bytes) :
      k.content ≠ .late t := by
    obtain ⟨-, -, -, b, hb⟩ := mem_byteSlots hk
    rw [hb]
    simp
  induction h with
  | done => simp
  | number _ _ _ ih =>
    obtain ⟨hplace, hslots⟩ := ih ht
    refine ⟨by simp [hplace], ?_⟩
    intro k hk
    rcases List.mem_cons.mp hk with rfl | hk
    · simp
    · exact hslots k hk
  | @length seen f fs ms ps pos l htype hnew _ _ _ _ ih =>
    have hne : t ≠ f.fieldType := fun heq => hnew (heq ▸ ht)
    obtain ⟨hplace, hslots⟩ := ih (List.mem_cons_of_mem _ ht)
    refine ⟨by simp [hplace, place_lengthNote htype, hne], ?_⟩
    intro k hk
    rcases List.mem_cons.mp hk with rfl | hk
    · simpa using hne.symm
    · exact hslots k hk
  | @crc seen f fs ms ps pos l _ _ _ hnew _ ih =>
    have hne : t ≠ .ftCrc := fun heq => hnew (heq ▸ ht)
    obtain ⟨hplace, hslots⟩ := ih (List.mem_cons_of_mem _ ht)
    refine ⟨by simp [hplace, place_crc, hne], ?_⟩
    intro k hk
    rcases List.mem_cons.mp hk with rfl | hk
    · simpa using hne.symm
    · exact hslots k hk
  | pad _ _ ih =>
    obtain ⟨hplace, hslots⟩ := ih ht
    exact ⟨by simp [hplace], hslots⟩
  | dlNull _ _ ih => exact ih ht
  | flStr _ _ ih | dlStr _ _ _ _ _ ih | pRaw _ _ _ _ _ _ ih =>
    obtain ⟨hplace, hslots⟩ := ih ht
    refine ⟨by simp [hplace], ?_⟩
    intro k hk
    rcases List.mem_append.mp hk with hk | hk
    · exact hbyte hk
    · exact hslots k hk

/-- A late number is left open at the place noted for it, and nowhere else. -/
theorem Layout.late_iff (h : Layout now ok late seen fs ms ps pos l) (t : FieldType) (p w : ℕ) :
    ⟨p, w, .late t⟩ ∈ l.slots ↔ l.notes.place t = some (p, w) := by
  have hbyte {pos : ℕ} {bytes : List UInt8} : (⟨p, w, .late t⟩ : Slot) ∉ byteSlots pos bytes := by
    intro hk
    obtain ⟨-, -, -, b, hb⟩ := mem_byteSlots hk
    cases hb
  induction h with
  | done => simp
  | number _ _ _ ih =>
    rw [place_behind, place_blank, Option.or_none]
    simpa [Laid.behind] using ih
  | @length seen f fs ms ps pos l htype hnew _ _ _ hrest ih =>
    rw [place_behind, place_lengthNote htype]
    by_cases heq : t = f.fieldType
    · subst heq
      obtain ⟨hplace, hslots⟩ := hrest.seen_absent (t := f.fieldType) List.mem_cons_self
      have htail : (⟨p, w, .late f.fieldType⟩ : Slot) ∉ l.slots := fun hk => hslots _ hk rfl
      simp [Laid.behind, hplace, htail, eq_comm]
    · simpa [Laid.behind, heq] using ih
  | @crc seen f fs ms ps pos l _ _ _ hnew hrest ih =>
    rw [place_behind, place_crc]
    by_cases heq : t = .ftCrc
    · subst heq
      obtain ⟨hplace, hslots⟩ := hrest.seen_absent (t := .ftCrc) List.mem_cons_self
      have htail : (⟨p, w, .late .ftCrc⟩ : Slot) ∉ l.slots := fun hk => hslots _ hk rfl
      simp [Laid.behind, hplace, htail, eq_comm]
    · simpa [Laid.behind, heq] using ih
  | pad _ _ ih =>
    rw [place_behind, place_payload, Option.or_none]
    simpa [Laid.behind] using ih
  | dlNull _ _ ih => exact ih
  | flStr _ _ ih | dlStr _ _ _ _ _ ih | pRaw _ _ _ _ _ _ ih =>
    rw [place_behind, place_blank, Option.or_none]
    simpa [Laid.behind, hbyte] using ih

theorem strokes_byteSlots (pos start : ℕ) (bytes : List UInt8) :
    (byteSlots pos bytes).map (fun k => k.stroke start late) =
      byteStrokes (8 * start + pos) bytes := by
  induction bytes generalizing pos with
  | nil => rfl
  | cons b bytes ih =>
    rw [byteSlots, List.map_cons, ih, byteStrokes, Nat.add_assoc]
    rfl

theorem octetBorder_shift (start pos : ℕ) :
    octetBorder (8 * start + pos) = 8 * start + octetBorder pos := by
  unfold octetBorder
  omega

theorem readNumber_num {size : ℕ} (n : ℕ) (ms : List Member) (h1 : 1 ≤ size) (h32 : size ≤ 32) :
    ∃ bits, storageBits size = some bits ∧ size ≤ bits ∧
      readNumber size (.num n :: ms) = some (n % 2 ^ bits, ms) := by
  obtain ⟨bits, hbits, hle⟩ := exists_storageBits h1 (by omega)
  exact ⟨bits, hbits, hle, by simp [readNumber, hbits]⟩

theorem Carries.isBits {f : FieldDesc} {n : ℕ} (h : Carries now f n) :
    f.fieldType.isBits = true := by
  have hok := h.ok
  unfold FieldType.isBits
  cases hf : f.fieldType <;> simp_all

/-- The member is wide enough for what counts of it. -/
theorem Carries.stored {f : FieldDesc} {n bits : ℕ} (h : Carries now f n) (pos : ℕ)
    (hbits : f.size ≤ bits) :
    writtenValue now f.fieldType (n % 2 ^ bits) = writtenValue now f.fieldType n ∧
      f.fieldType.named (n % 2 ^ bits) = true ∧
      lengthNote f.fieldType pos f.size = .blank := by
  have hlt := h.fits.trans_le (Nat.pow_le_pow_right (by decide) hbits)
  have hok := h.ok
  cases hf : f.fieldType <;> rw [hf] at hlt hok <;>
    simp_all [writtenValue, FieldType.named, lengthNote, Nat.mod_eq_of_lt,
      Option.isSome_iff_ne_none]

theorem placeAll_cons {f : FieldDesc} {p r : Placed} {at' : ℕ}
    (hp : placeField now f ms at' = some p) (hnamed : p.named = true)
    (hr : placeAll now fs p.members p.pos = some r) :
    placeAll now (f :: fs) ms at' =
      some { r with strokes := p.strokes ++ r.strokes, notes := r.notes.after p.notes } := by
  rw [placeAll, hp, Option.bind_some, if_pos hnamed, hr]
  rfl

/-- The field in front puts down its slots and notes. -/
structure Placed.Begins (p : Placed) (start : ℕ) (ks : List Slot) (notes : Notes) : Prop where
  named : p.named = true
  strokes : ∀ q, (p.strokes.any fun k => k.sets q) =
    (ks.map fun k => k.stroke start fun _ => 0).any fun k => k.sets q
  notes : p.notes = notes.shift start

/-- What was placed is what the layout says. -/
structure Placed.Is (p : Placed) (start : ℕ) (l : Laid) : Prop where
  begins : p.Begins start l.slots l.notes
  members : p.members = []
  pos : p.pos = 8 * start + l.stop

theorem shift_after (start : ℕ) (a b : Notes) :
    (a.after b).shift start = (a.shift start).after (b.shift start) := by
  simp [Notes.after, Notes.shift, Option.map_or]

theorem Placed.Begins.placeAll {f : FieldDesc} {p r : Placed} {at' : ℕ} {ks : List Slot}
    {notes : Notes} (h : p.Begins start ks notes) (hp : placeField now f ms at' = some p)
    (hr : placeAll now fs p.members p.pos = some r) (his : r.Is start l) :
    ∃ p', LdacsSdk.placeAll now (f :: fs) ms at' = some p' ∧ p'.Is start (l.behind ks notes) := by
  refine ⟨_, placeAll_cons hp h.named hr, ⟨?_, ?_, ?_⟩, his.members, his.pos⟩
  · exact his.begins.named
  · intro q
    rw [List.any_append, h.strokes, his.begins.strokes, ← List.any_append, ← List.map_append]
    rfl
  · rw [his.begins.notes, h.notes, ← shift_after]
    rfl

theorem shift_lengthNote (start size : ℕ) (t : FieldType) :
    (lengthNote t pos size).shift start = lengthNote t (8 * start + pos) size := by
  cases t <;> rfl

theorem placeStr_begins (start pos : ℕ) (b : Buffer) (rest : List Member) :
    ∃ p, placeStr (.str (some b) :: rest) (8 * start + pos) = some p ∧
      p.Begins start (byteSlots pos b.content) .blank ∧ p.members = rest ∧
      p.pos = 8 * start + (pos + 8 * b.content.length) := by
  refine ⟨_, rfl, ⟨rfl, ?_, rfl⟩, rfl, Nat.add_assoc _ _ _⟩
  intro q
  rw [strokes_byteSlots]

/-- The encoder places a struct as its layout says, at any address. -/
theorem Layout.placed (h : Layout now ok late seen fs ms ps pos l) (start : ℕ) :
    ∃ p, placeAll now fs ms (8 * start + pos) = some p ∧ p.Is start l := by
  induction h with
  | done => exact ⟨_, rfl, ⟨rfl, fun q => rfl, rfl⟩, rfl, rfl⟩
  | @number seen f fs n ms ps pos l hc _ _ ih =>
    obtain ⟨r, hr, his⟩ := ih
    obtain ⟨bits, -, hle, hread⟩ := readNumber_num n ms hc.pos hc.le
    obtain ⟨hwritten, hnamed, hnote⟩ := hc.stored (8 * start + pos) hle
    have hfield := placeField_bits now (8 * start + pos) hc.isBits hread
    rw [hwritten, hnamed, hnote] at hfield
    have hbegins : Placed.Begins ⟨[⟨8 * start + pos, f.size, writtenValue now f.fieldType n⟩], ms,
        8 * start + pos + f.size, .blank, true⟩ start
        [⟨pos, f.size, .given (writtenValue now f.fieldType n)⟩] .blank :=
      ⟨rfl, fun q => rfl, rfl⟩
    exact hbegins.placeAll hfield (by rw [Nat.add_assoc]; exact hr) his
  | @length seen f fs ms ps pos l htype _ h1 h32 _ _ ih =>
    obtain ⟨r, hr, his⟩ := ih
    obtain ⟨bits, -, hle, hread⟩ := readNumber_num 0 ms h1 h32
    rw [Nat.zero_mod] at hread
    have hbits : f.fieldType.isBits = true := by
      rcases htype with ht | ht <;> rw [ht] <;> rfl
    have hwritten : writtenValue now f.fieldType 0 = 0 := by
      rcases htype with ht | ht <;> rw [ht] <;> rfl
    have hnamed : f.fieldType.named 0 = true := by
      rcases htype with ht | ht <;> rw [ht] <;> rfl
    have hfield := placeField_bits now (8 * start + pos) hbits hread
    rw [hwritten, hnamed] at hfield
    have hbegins : Placed.Begins ⟨[⟨8 * start + pos, f.size, 0⟩], ms, 8 * start + pos + f.size,
        lengthNote f.fieldType (8 * start + pos) f.size, true⟩ start
        [⟨pos, f.size, .late f.fieldType⟩] (lengthNote f.fieldType pos f.size) :=
      ⟨rfl, fun q => rfl, (shift_lengthNote start f.size f.fieldType).symm⟩
    exact hbegins.placeAll hfield (by rw [Nat.add_assoc]; exact hr) his
  | @pad seen f fs ms ps pos l hf _ ih =>
    obtain ⟨r, hr, his⟩ := ih
    have hdiv : octetBorder (8 * start + pos) / 8 = start + octetBorder pos / 8 := by
      rw [octetBorder_shift]
      omega
    have hfield : placeField now f ms (8 * start + pos) =
        some ⟨[], ms, octetBorder (8 * start + pos),
          { Notes.blank with payload := some (start + octetBorder pos / 8) }, true⟩ := by
      simp [placeField, hf, FieldType.isBits, hdiv]
    have hbegins : Placed.Begins ⟨[], ms, octetBorder (8 * start + pos),
        { Notes.blank with payload := some (start + octetBorder pos / 8) }, true⟩ start []
        { Notes.blank with payload := some (octetBorder pos / 8) } :=
      ⟨rfl, fun q => rfl, rfl⟩
    exact hbegins.placeAll hfield (by rw [octetBorder_shift]; exact hr) his
  | @crc seen f fs ms ps pos l hf hsize _ _ _ ih =>
    obtain ⟨r, hr, his⟩ := ih
    have hwhole : 8 * (f.size / 8) = f.size := by
      rcases hsize with hs | hs <;> rw [hs] <;> rfl
    have hfield : placeField now f ms (8 * start + pos) =
        some ⟨[], ms, 8 * start + (pos + f.size),
          { Notes.blank with crc := some (8 * start + pos, f.size) }, true⟩ := by
      simp [placeField, hf, FieldType.isBits, hwhole, Nat.add_assoc]
    have hbegins : Placed.Begins ⟨[], ms, 8 * start + (pos + f.size),
        { Notes.blank with crc := some (8 * start + pos, f.size) }, true⟩ start
        [⟨pos, f.size, .late .ftCrc⟩] { Notes.blank with crc := some (pos, f.size) } := by
      refine ⟨rfl, ?_, rfl⟩
      intro q
      simp [Slot.stroke, Slot.value, Stroke.sets_zero]
    exact hbegins.placeAll hfield hr his
  | @flStr seen f fs ms ps pos l b hf _ ih | @dlStr seen f fs ms ps pos l b b' hf _ _ _ _ ih
  | @pRaw seen f fs ms ps pos behind l b hf _ _ _ _ _ ih =>
    obtain ⟨r, hr, his⟩ := ih
    obtain ⟨p, hp, hbegins, hmembers, hpos⟩ := placeStr_begins start pos b ms
    have hfield : placeField now f (.str (some b) :: ms) (8 * start + pos) = some p := by
      simpa [placeField, hf, FieldType.isBits] using hp
    exact hbegins.placeAll hfield (by rw [hmembers, hpos]; exact hr) his
  | @dlNull seen f fs ms ps pos l hf _ ih =>
    obtain ⟨r, hr, his⟩ := ih
    have hfield : placeField now f (.str none :: ms) (8 * start + pos) =
        some ⟨[], ms, 8 * start + pos, .blank, true⟩ := by
      simp [placeField, hf, FieldType.isBits, placeStr]
    have hbegins : Placed.Begins ⟨[], ms, 8 * start + pos, .blank, true⟩ start [] .blank :=
      ⟨rfl, fun q => rfl, rfl⟩
    have hlaid : l.behind [] .blank = l := by
      simp [Laid.behind, Notes.after, Notes.blank]
    have hplace := hbegins.placeAll hfield hr his
    rwa [hlaid] at hplace

end Slots

end LdacsSdk
