import LdacsSdk.Library.Runs
import LdacsSdk.Packet.ReadSafety

/-!
# Cursors over runs of the decoder

A decoder works with a stream over the whole input and the sub-streams that `in_struct` makes of
it. A run is any order of `in_struct` and `pb_in_mac` calls on any of them.
-/
namespace LdacsSdk

open Library

/-- A stream and, for a sub-stream, the index of its container. -/
structure StreamEntry where
  pbs : PbStream
  container : Option ℕ
  deriving DecidableEq, Repr

/-- The streams made so far. -/
abbrev Streams := List StreamEntry

/-- A call on the stream of index `k`. -/
inductive ParseCall where
  | inStruct (k junk : ℕ) (sd : StructDesc) (presized : List (Option Buffer)) (obj : Bool)
  | pbInMac (k macLen : ℕ) (verifyHmac : ℕ → ℕ → ℕ → ℕ → Bool)

/-- A call replaces its stream and adds the sub-stream it makes. -/
def parseStep (mem : Mem) (ss : Streams) : ParseCall → Option Streams
  | .inStruct k junk sd presized obj => ss[k]?.map fun ins =>
      let r := inStruct mem junk sd presized ins.pbs obj
      ss.set k { ins with pbs := r.ins } ++ r.obj.toList.map fun pbs => ⟨pbs, some k⟩
  | .pbInMac k macLen verifyHmac => ss[k]?.map fun ins =>
      ss.set k { ins with pbs := (pbInMac verifyHmac macLen ins.pbs).1 }

/-- One stream over `len` bytes. -/
def parseStart (base len : ℕ) : Streams := [⟨initPbs base len, none⟩]

/-- The cursor is inside the stream. -/
def PbStream.InBounds (pbs : PbStream) : Prop := pbs.start ≤ pbs.cur ∧ pbs.cur ≤ pbs.roof

/-- Every cursor is inside its stream, and every sub-stream inside its container. -/
structure Streams.Sound (ss : Streams) : Prop where
  bounds (k : ℕ) (e : StreamEntry) : ss[k]? = some e → e.pbs.InBounds
  nested (k c : ℕ) (e : StreamEntry) : ss[k]? = some e → e.container = some c →
    ∃ outer, ss[c]? = some outer ∧ outer.pbs.start ≤ e.pbs.start ∧ e.pbs.roof ≤ outer.pbs.roof

/-- No room test on these streams takes a negative difference. -/
def Streams.RoomExact (ss : Streams) : Prop :=
  ∀ (k : ℕ) (e : StreamEntry), ss[k]? = some e → (0 : ℤ) ≤ e.pbs.roof - e.pbs.cur

/-- Where an accepted packet ends, and with a sub-stream what the received length claims, is
below the roof. -/
def Spot.EndsInside (roof : ℕ) (obj : Bool) (p : Spot) : Prop :=
  p.pos / 8 + (if obj then p.sduLen else 0) ≤ roof ∧
    (obj → ∃ payload, p.payloadStart = some payload ∧ p.pos / 8 ≤ payload + p.sduLen ∧
      payload + p.sduLen ≤ roof)

/-- The call is refused, or keeps to the bytes of its stream: an accepted packet ends below the
roof together with the received payload, and a verified MAC leaves the cursor there. -/
def KeepsToInput (mem : Mem) (ss : Streams) : ParseCall → Prop
  | .inStruct k _ sd presized obj => ∀ ins : StreamEntry, ss[k]? = some ins →
      ins.pbs.NoRoom sd.fields ∨
      ¬(ins.pbs.spot presized).AcceptsAll mem ins.pbs.start sd.fields ∨
      ((ins.pbs.spot presized).walk mem ins.pbs.start sd.fields).EndsInside ins.pbs.roof obj
  | .pbInMac k macLen verifyHmac => ∀ ins : StreamEntry, ss[k]? = some ins →
      verifyHmac ins.pbs.cur ins.pbs.start (u64 (ins.pbs.cur - ins.pbs.start)) macLen = false ∨
      ins.pbs.cur + macLen ≤ ins.pbs.roof

variable {mem : Mem} {start : ℕ} {fields : List FieldDesc} {p : Spot} {ss ss' : Streams}

theorem pos_le_ending (f : FieldDesc) : p.pos ≤ p.ending start f := by
  unfold Spot.ending octetBorder
  split_ifs with hbits hcrc
  · exact Nat.le_add_right _ _
  · split <;> omega
  · split <;> omega

/-- A walk goes forward. -/
theorem pos_le_walk : p.pos ≤ (p.walk mem start fields).pos := by
  induction fields generalizing p with
  | nil => exact le_rfl
  | cons f fields ih => exact (pos_le_ending f).trans (ih (p := p.next mem start f))

/-- The payload starts between where the walk started and where it ends. -/
theorem payloadStart_walk {lo : ℕ} (hlo : lo ≤ p.pos / 8)
    (h : ∀ payload, p.payloadStart = some payload → lo ≤ payload ∧ payload ≤ p.pos / 8) :
    ∀ payload, (p.walk mem start fields).payloadStart = some payload →
      lo ≤ payload ∧ payload ≤ (p.walk mem start fields).pos / 8 := by
  induction fields generalizing p with
  | nil => exact h
  | cons f fields ih =>
    have hpos : p.pos ≤ p.ending start f := pos_le_ending f
    apply ih
    · exact hlo.trans (Nat.div_le_div_right hpos)
    · intro payload hpayload
      have hnext : (p.next mem start f).pos = p.ending start f := rfl
      rw [hnext]
      by_cases hpad : f.fieldType = .ftPad
      · have hborder : p.ending start f = octetBorder p.pos := by
          simp [Spot.ending, hpad, FieldType.isBits]
        simp only [Spot.next, hpad, if_true, Option.some.injEq] at hpayload
        rw [hborder]
        unfold octetBorder at *
        omega
      · simp only [Spot.next, if_neg hpad] at hpayload
        have hold := h payload hpayload
        exact ⟨hold.1, hold.2.trans (Nat.div_le_div_right hpos)⟩

theorem nested_set {k : ℕ} {e : StreamEntry} {pbs : PbStream} (h : ss.Sound) (hk : ss[k]? = some e)
    (hstart : pbs.start = e.pbs.start) (hroof : pbs.roof = e.pbs.roof) (hin : pbs.InBounds) :
    Streams.Sound (ss.set k { e with pbs := pbs }) := by
  have hlt : k < ss.length := (List.getElem?_eq_some_iff.mp hk).1
  constructor
  · intro i e' hi
    by_cases hik : k = i
    · subst hik
      rw [List.getElem?_set_self hlt] at hi
      cases hi
      exact hin
    · rw [List.getElem?_set_ne hik] at hi
      exact h.bounds i e' hi
  · intro i c e' hi hc
    obtain ⟨e₀, hi₀, hc₀, hs₀, hr₀⟩ : ∃ e₀, ss[i]? = some e₀ ∧ e₀.container = some c ∧
        e₀.pbs.start = e'.pbs.start ∧ e₀.pbs.roof = e'.pbs.roof := by
      by_cases hik : k = i
      · subst hik
        rw [List.getElem?_set_self hlt] at hi
        cases hi
        exact ⟨e, hk, hc, hstart.symm, hroof.symm⟩
      · rw [List.getElem?_set_ne hik] at hi
        exact ⟨e', hi, hc, rfl, rfl⟩
    obtain ⟨outer, hout, hlo, hhi⟩ := h.nested i c e₀ hi₀ hc₀
    rw [hs₀] at hlo
    rw [hr₀] at hhi
    by_cases hck : k = c
    · subst hck
      rw [hk, Option.some.injEq] at hout
      subst hout
      exact ⟨{ e with pbs := pbs }, List.getElem?_set_self hlt, hstart ▸ hlo, hroof ▸ hhi⟩
    · exact ⟨outer, by rw [List.getElem?_set_ne hck]; exact hout, hlo, hhi⟩

theorem sound_append {k : ℕ} {outer : StreamEntry} {pbs : PbStream} (h : ss.Sound)
    (hk : ss[k]? = some outer) (hlo : outer.pbs.start ≤ pbs.start)
    (hhi : pbs.roof ≤ outer.pbs.roof) (hin : pbs.InBounds) :
    Streams.Sound (ss ++ [⟨pbs, some k⟩]) := by
  have hkeep (i : ℕ) (e : StreamEntry) (hi : ss[i]? = some e) :
      (ss ++ [(⟨pbs, some k⟩ : StreamEntry)])[i]? = some e := by
    rw [List.getElem?_append_left (List.getElem?_eq_some_iff.mp hi).1]
    exact hi
  have hcases (i : ℕ) (e : StreamEntry)
      (hi : (ss ++ [(⟨pbs, some k⟩ : StreamEntry)])[i]? = some e) :
      ss[i]? = some e ∨ e = ⟨pbs, some k⟩ := by
    rcases Nat.lt_or_ge i ss.length with hlt | hge
    · rw [List.getElem?_append_left hlt] at hi
      exact .inl hi
    · rw [List.getElem?_append_right hge, List.getElem?_singleton] at hi
      split_ifs at hi
      exact .inr (Option.some.inj hi).symm
  constructor
  · intro i e hi
    rcases hcases i e hi with hold | rfl
    · exact h.bounds i e hold
    · exact hin
  · intro i c e hi hc
    rcases hcases i e hi with hold | rfl
    · obtain ⟨o, ho, hle⟩ := h.nested i c e hold hc
      exact ⟨o, hkeep c o ho, hle⟩
    · cases hc
      exact ⟨outer, hkeep k outer hk, hlo, hhi⟩

/-- A call of `in_struct` that keeps to its input keeps every cursor in place. -/
theorem Streams.Sound.inStruct {k junk : ℕ} {sd : StructDesc} {presized : List (Option Buffer)}
    {obj : Bool} (h : ss.Sound) (hkeeps : KeepsToInput mem ss (.inStruct k junk sd presized obj))
    (hstep : parseStep mem ss (.inStruct k junk sd presized obj) = some ss') : ss'.Sound := by
  obtain ⟨ins, hk, rfl⟩ := Option.map_eq_some_iff.mp hstep
  obtain ⟨hstart, hroof⟩ := frame_inStruct mem junk sd presized ins.pbs obj
  obtain ⟨hlo, hhi⟩ := h.bounds k ins hk
  by_cases haccepted : ¬ins.pbs.NoRoom sd.fields ∧
      (ins.pbs.spot presized).AcceptsAll mem ins.pbs.start sd.fields
  · obtain ⟨hroom, haccepts⟩ := haccepted
    have hends := ((hkeeps ins hk).resolve_left hroom).resolve_left (not_not.mpr haccepts)
    obtain ⟨-, hcur, -, -, hobj⟩ := inStruct_accepted mem junk obj hroom haccepts
    have hpos : ins.pbs.cur ≤ (ins.pbs.spot presized).pos / 8 := (bitPos_div _ _).ge
    have hwalk : ins.pbs.cur ≤
        ((ins.pbs.spot presized).walk mem ins.pbs.start sd.fields).pos / 8 :=
      hpos.trans (Nat.div_le_div_right pos_le_walk)
    have hset : Streams.Sound (ss.set k
        { ins with pbs := (LdacsSdk.inStruct mem junk sd presized ins.pbs obj).ins }) := by
      apply nested_set h hk hstart hroof
      constructor
      · rw [hstart, hcur]
        omega
      · rw [hroof, hcur]
        exact hends.1
    cases obj with
    | false => simpa [hobj] using hset
    | true =>
      obtain ⟨payload, hpayload, hend, hfits⟩ := hends.2 rfl
      have hbetween := payloadStart_walk hpos (by simp [PbStream.spot]) payload hpayload
      simp only [hobj, hpayload, if_true, Option.toList_some, List.map_singleton,
        Option.getD_some]
      apply sound_append hset
      · exact List.getElem?_set_self (List.getElem?_eq_some_iff.mp hk).1
      · rw [hstart]
        exact hlo.trans hbetween.1
      · rw [hroof]
        exact hfits
      · exact ⟨hbetween.2, hend⟩
  · have hrefused : (LdacsSdk.inStruct mem junk sd presized ins.pbs obj).ins.cur = ins.pbs.cur ∧
        (LdacsSdk.inStruct mem junk sd presized ins.pbs obj).obj = none := by
      by_cases hroom : ins.pbs.NoRoom sd.fields
      · rw [inStruct_noRoom mem junk presized obj hroom]
        exact ⟨rfl, rfl⟩
      · have hno := inStruct_refused mem junk obj (fun haccepts => haccepted ⟨hroom, haccepts⟩)
        exact ⟨hno.1, hno.2.1⟩
    simp only [hrefused.2, Option.toList_none, List.map_nil, List.append_nil]
    apply nested_set h hk hstart hroof
    constructor
    · rw [hstart, hrefused.1]
      exact hlo
    · rw [hroof, hrefused.1]
      exact hhi

/-- So does a MAC that lies below the roof or is refused. -/
theorem Streams.Sound.pbInMac {k macLen : ℕ} {verifyHmac : ℕ → ℕ → ℕ → ℕ → Bool} (h : ss.Sound)
    (hkeeps : KeepsToInput mem ss (.pbInMac k macLen verifyHmac))
    (hstep : parseStep mem ss (.pbInMac k macLen verifyHmac) = some ss') : ss'.Sound := by
  obtain ⟨ins, hk, rfl⟩ := Option.map_eq_some_iff.mp hstep
  obtain ⟨hlo, hhi⟩ := h.bounds k ins hk
  cases hverified : verifyHmac ins.pbs.cur ins.pbs.start (u64 (ins.pbs.cur - ins.pbs.start)) macLen
  · simp only [LdacsSdk.pbInMac, hverified]
    exact nested_set h hk rfl rfl ⟨hlo, hhi⟩
  · have hfits := (hkeeps ins hk).resolve_left (by simp [hverified])
    simp only [LdacsSdk.pbInMac, hverified, if_true]
    have hin : PbStream.InBounds { ins.pbs with cur := ins.pbs.cur + macLen } :=
      ⟨hlo.trans (Nat.le_add_right _ _), hfits⟩
    exact nested_set h hk rfl rfl hin

theorem sound_parseStart (base len : ℕ) : Streams.Sound (parseStart base len) := by
  constructor
  · intro k e hk
    obtain ⟨-, rfl⟩ : k = 0 ∧ e = ⟨initPbs base len, none⟩ := by
      cases k with
      | zero => simpa [parseStart, eq_comm] using hk
      | succ k => simp [parseStart] at hk
    exact ⟨le_rfl, Nat.le_add_right _ _⟩
  · intro k c e hk hc
    cases k with
    | zero =>
      simp only [parseStart, List.getElem?_cons_zero, Option.some.injEq] at hk
      subst hk
      cases hc
    | succ k => simp [parseStart] at hk

/-- In every run whose calls keep to their input, every cursor stays inside its stream, every
sub-stream inside its container, and every room test gets the true difference. -/
theorem cursors_stay_inside (mem : Mem) (base len : ℕ) (ss : Streams)
    (h : Reaches (parseStep mem) (KeepsToInput mem) (parseStart base len) ss) :
    ss.Sound ∧ ss.RoomExact := by
  have hsound : ss.Sound := by
    apply h.invariant (sound_parseStart base len)
    intro s a t hs hkeeps hstep
    cases a with
    | inStruct k junk sd presized obj => exact hs.inStruct hkeeps hstep
    | pbInMac k macLen verifyHmac => exact hs.pbInMac hkeeps hstep
  refine ⟨hsound, ?_⟩
  intro k e hk
  have hin := (hsound.bounds k e hk).2
  omega

/-- A header with a payload length and its padding. -/
def lengthHeader : StructDesc := ⟨"HEAD", [⟨.ftSlen, 8, "SLEN"⟩, ⟨.ftPad, 0, "PAD"⟩]⟩

/-- A one-byte payload is parsed as a sub-stream, and a MAC that does not verify is refused. -/
theorem cursors_stay_inside_nested :
    ∃ ss : Streams, Reaches (parseStep fun a => if a = 0 then 1 else 7)
      (KeepsToInput fun a => if a = 0 then 1 else 7) (parseStart 0 2) ss ∧
      ss.length = 2 ∧ ss.Sound ∧ ss.RoomExact := by
  obtain ⟨s₁, h₁⟩ : ∃ s, parseStep (fun a => if a = 0 then 1 else 7) (parseStart 0 2)
      (.inStruct 0 0 lengthHeader [] true) = some s := ⟨_, rfl⟩
  obtain ⟨s₂, h₂⟩ : ∃ s, parseStep (fun a => if a = 0 then 1 else 7) s₁
      (.inStruct 1 0 ⟨"BODY", [⟨.ftSet, 8, "DATA"⟩]⟩ [] false) = some s := by
    cases h₁
    exact ⟨_, rfl⟩
  obtain ⟨s₃, h₃⟩ : ∃ s, parseStep (fun a => if a = 0 then 1 else 7) s₂
      (.pbInMac 0 12 fun _ _ _ _ => false) = some s := by
    cases h₁
    cases h₂
    exact ⟨_, rfl⟩
  have hrun : Reaches (parseStep fun a => if a = 0 then 1 else 7)
      (KeepsToInput fun a => if a = 0 then 1 else 7) (parseStart 0 2) s₃ := by
    apply ((Reaches.start.next _ h₁).next _ h₂).next _ h₃
    · intro ins hins
      cases hins
      exact .inr (.inr ⟨by decide, fun _ => ⟨1, by decide, by decide, by decide⟩⟩)
    · intro ins hins
      cases h₁
      cases hins
      exact .inr (.inr ⟨by decide, fun hobj => absurd hobj (by decide)⟩)
    · intro ins hins
      exact .inl rfl
  have hlength : s₃.length = 2 := by
    cases h₁
    cases h₂
    cases h₃
    rfl
  exact ⟨s₃, hrun, hlength, cursors_stay_inside _ 0 2 s₃ hrun⟩

/-- A received length of five on a one-byte input moves the cursor five bytes past the roof. -/
theorem received_length_passes_roof :
    ¬ ∀ mem base len ss, Reaches (parseStep mem) anyOp (parseStart base len) ss →
      ss.Sound ∧ ss.RoomExact := by
  intro hall
  obtain ⟨s, hs, hcur⟩ : ∃ s, runOps (parseStep fun _ => 5) anyOp (parseStart 0 1)
      [.inStruct 0 0 lengthHeader [] true] = some s ∧
      s[0]?.map (fun e => (e.pbs.cur, e.pbs.roof)) = some (6, 1) := ⟨_, rfl, rfl⟩
  obtain ⟨e, he, heq⟩ := Option.map_eq_some_iff.mp hcur
  have hbounds := ((hall _ 0 1 s (reaches_of_runOps _ hs)).1.bounds 0 e he).2
  rw [Prod.mk.injEq] at heq
  omega

end LdacsSdk
