import LdacsSdk.Net.Chunking

/-!
# Edge-triggered reading

With edge-triggered epoll a socket must be read until `read` says that there is nothing left.
`read_packet` goes on reading after every chunk it has processed, and answers `OK` when there is
nothing left. It answers `OK` as well when a `read` is interrupted after it has read something.
-/
namespace LdacsSdk

open Library

/-- `read_packet` may read on after this outcome. -/
def ReadOutcome.Flowing : ReadOutcome → Prop
  | .got bytes => bytes ≠ []
  | .interrupted => True
  | _ => False

instance : DecidablePred ReadOutcome.Flowing
  | .got _ => inferInstanceAs (Decidable (_ ≠ _))
  | .interrupted => inferInstanceAs (Decidable True)
  | .again | .reset | .failed => inferInstanceAs (Decidable False)

/-- The bytes of the reads, read by read. -/
def readChunks (outcomes : List ReadOutcome) : List (List UInt8) :=
  outcomes.filterMap fun
    | .got bytes => some bytes
    | _ => none

@[simp] theorem readChunks_nil : readChunks [] = [] := rfl

@[simp] theorem readChunks_got (bytes : List UInt8) (outcomes : List ReadOutcome) :
    readChunks (.got bytes :: outcomes) = bytes :: readChunks outcomes := rfl

@[simp] theorem readChunks_interrupted (outcomes : List ReadOutcome) :
    readChunks (.interrupted :: outcomes) = readChunks outcomes := rfl

/-- The call read `pre`, processed all of it, and answered at the read after it. -/
structure StopsAfter (recvHandler : List (List UInt8) → LErr) (hasReadAny : Bool) (c : Conn)
    (handed : List (List UInt8)) (pre : List ReadOutcome) (r : Received) : Prop where
  flowing : ∀ o ∈ pre, o.Flowing
  reading : readLoop recvHandler pre hasReadAny c handed = some { r with status := none }
  processed : processChunks recvHandler (readChunks pre) ⟨c, handed, none⟩ =
    some ⟨r.conn, r.handed, none⟩
  read : r.bytes = (readChunks pre).flatten
  settled : readChunks pre ≠ [] → r.conn.Settled

/-- Where `process_complete_packets` comes to its end without an error there is no packet left. -/
theorem processCompletePackets_settled {recvHandler : List (List UInt8) → LErr} {s t : Receiving}
    (h : processCompletePackets recvHandler s = some t) (hfatal : t.fatal = none) :
    t.conn.Settled := by
  obtain ⟨u, -, hleave⟩ := exists_rounds h
  rcases processRound_cases recvHandler u with
    ⟨hsettled, hround⟩ | ⟨buf, -, ⟨-, -, hround⟩ | ⟨-, -, hround⟩⟩
  · rw [hround] at hleave
    cases hleave
    exact hsettled
  · rw [hround, Option.some.injEq, Receiving.readHeader] at hleave
    dsimp only at hleave
    split_ifs at hleave
    cases hleave
    cases hfatal
  · rw [hround, Option.some.injEq, Receiving.readBody] at hleave
    dsimp only at hleave
    split_ifs at hleave
    cases hleave
    cases hfatal

section Stops

variable {recvHandler : List (List UInt8) → LErr} {outcomes pre : List ReadOutcome}
  {hasReadAny : Bool} {c : Conn} {handed : List (List UInt8)} {r : Received}

theorem stopsAfter_nil (status : Option NetStatus) :
    StopsAfter recvHandler hasReadAny c handed [] ⟨c, handed, [], status, none⟩ where
  flowing := by simp
  reading := rfl
  processed := rfl
  read := rfl
  settled h := absurd rfl h

theorem StopsAfter.interrupted (h : StopsAfter recvHandler false c handed pre r) :
    StopsAfter recvHandler false c handed (.interrupted :: pre) r where
  flowing o ho := by
    rcases List.mem_cons.mp ho with rfl | ho
    · trivial
    · exact h.flowing o ho
  reading := by
    unfold readLoop
    rw [if_neg (by decide)]
    exact h.reading
  processed := h.processed
  read := h.read
  settled := h.settled

/-- A chunk that is processed without an error. -/
theorem StopsAfter.got {bytes : List UInt8} {c' : Conn} {handed' : List (List UInt8)}
    (hbytes : bytes ≠ [])
    (hs : processCompletePackets recvHandler ⟨c.append bytes, handed, none⟩ =
      some ⟨c', handed', none⟩) (h : StopsAfter recvHandler true c' handed' pre r) :
    StopsAfter recvHandler hasReadAny c handed (.got bytes :: pre)
      { r with bytes := bytes ++ r.bytes } where
  flowing o ho := by
    rcases List.mem_cons.mp ho with rfl | ho
    · exact hbytes
    · exact h.flowing o ho
  reading := by
    unfold readLoop
    rw [if_neg hbytes, hs]
    simp [h.reading]
  processed := by simp [processChunks, hs, h.processed]
  read := by simp [h.read]
  settled _ := by
    by_cases hmore : readChunks pre = []
    · have hprocessed := h.processed
      rw [hmore] at hprocessed
      have hconn : c' = r.conn := congrArg Receiving.conn (Option.some.inj hprocessed)
      rw [← hconn]
      exact processCompletePackets_settled hs rfl
    · exact h.settled hmore

/-- A call that answers `OK` stopped where nothing was left, or at an interrupted read after it had
read something. -/
theorem readLoop_stops (h : readLoop recvHandler outcomes hasReadAny c handed = some r)
    (hok : r.status = some .ok) :
    ∃ pre rest, StopsAfter recvHandler hasReadAny c handed pre r ∧
      (outcomes = pre ++ .again :: rest ∨ outcomes = pre ++ .interrupted :: rest ∧
        (hasReadAny = true ∨ readChunks pre ≠ [])) := by
  induction outcomes generalizing hasReadAny c handed r with
  | nil =>
    cases h
    cases hok
  | cons o outcomes ih =>
    cases o with
    | got bytes =>
      unfold readLoop at h
      split_ifs at h with hbytes
      · cases h
        cases hok
      · obtain ⟨s, hs⟩ := processCompletePackets_returns recvHandler ⟨c.append bytes, handed, none⟩
        rw [hs] at h
        dsimp only at h
        split_ifs at h with hfatal
        · cases h
          cases hok
        · obtain ⟨r', hr', rfl⟩ := Option.map_eq_some_iff.mp h
          obtain ⟨pre, rest, hpre, hwhere⟩ := ih hr' hok
          have hs' : s = ⟨s.conn, s.handed, none⟩ := by
            rw [← show s.fatal = none by simpa using hfatal]
          refine ⟨.got bytes :: pre, rest, hpre.got hbytes (hs.trans (congrArg some hs')), ?_⟩
          apply hwhere.imp
          · rintro rfl
            rfl
          · rintro ⟨rfl, -⟩
            exact ⟨rfl, .inr (by simp)⟩
    | again =>
      cases h
      exact ⟨[], outcomes, stopsAfter_nil _, .inl rfl⟩
    | interrupted =>
      unfold readLoop at h
      split_ifs at h with hread
      · cases h
        exact ⟨[], outcomes, stopsAfter_nil _, .inr ⟨rfl, .inl hread⟩⟩
      · obtain rfl : hasReadAny = false := by simpa using hread
        obtain ⟨pre, rest, hpre, hwhere⟩ := ih h hok
        refine ⟨.interrupted :: pre, rest, hpre.interrupted, ?_⟩
        apply hwhere.imp
        · rintro rfl
          rfl
        · rintro ⟨rfl, hread'⟩
          exact ⟨rfl, hread'⟩
    | reset =>
      cases h
      cases hok
    | failed =>
      cases h
      cases hok

/-- A read that is interrupted after something was read ends the call with `OK`. -/
theorem readLoop_interrupted (hflowing : ∀ o ∈ pre, o.Flowing)
    (hread : hasReadAny = true ∨ readChunks pre ≠ []) {t : Receiving}
    (ht : processChunks recvHandler (readChunks pre) ⟨c, handed, none⟩ = some t)
    (hfatal : t.fatal = none) (rest : List ReadOutcome) :
    ∃ r, readLoop recvHandler (pre ++ .interrupted :: rest) hasReadAny c handed = some r ∧
      r.status = some .ok := by
  induction pre generalizing hasReadAny c handed with
  | nil =>
    obtain rfl : hasReadAny = true := hread.resolve_right fun hne => hne rfl
    exact ⟨⟨c, handed, [], some .ok, none⟩, rfl, rfl⟩
  | cons o pre ih =>
    have hrest (o' : ReadOutcome) (ho' : o' ∈ pre) : o'.Flowing :=
      hflowing o' (List.mem_cons_of_mem _ ho')
    cases o with
    | got bytes =>
      have hbytes : bytes ≠ [] := hflowing (.got bytes) (by simp)
      obtain ⟨s, hs⟩ := processCompletePackets_returns recvHandler ⟨c.append bytes, handed, none⟩
      simp only [readChunks_got, processChunks, hs] at ht
      have hgoes : s.fatal = none := by
        by_contra hne
        rw [if_pos (by simpa [Option.isSome_iff_ne_none] using hne)] at ht
        exact hne (Option.some.inj ht ▸ hfatal)
      have hs' : s = ⟨s.conn, s.handed, none⟩ := by rw [← hgoes]
      rw [hgoes, if_neg (by simp), hs'] at ht
      obtain ⟨r, hr, hok⟩ := ih hrest (.inl rfl) ht
      refine ⟨{ r with bytes := bytes ++ r.bytes }, ?_, hok⟩
      simp [readLoop, hbytes, hs, hgoes, hr]
    | interrupted =>
      cases hasReadAny with
      | true => exact ⟨⟨c, handed, [], some .ok, none⟩, rfl, rfl⟩
      | false =>
        obtain ⟨r, hr, hok⟩ := ih hrest hread ht
        exact ⟨r, by simpa [readLoop] using hr, hok⟩
    | again => exact absurd (hflowing .again (by simp)) id
    | reset => exact absurd (hflowing .reset (by simp)) id
    | failed => exact absurd (hflowing .failed (by simp)) id

end Stops

/-- The call read until there was nothing left, and what it had read until then is appended and
processed. -/
def Drained (recvHandler : List (List UInt8) → LErr) (outcomes : List ReadOutcome) (c : Conn)
    (handed : List (List UInt8)) (r : Received) : Prop :=
  ∃ pre rest, outcomes = pre ++ .again :: rest ∧
    StopsAfter recvHandler false c.initRecv handed pre r

/-- A read is interrupted after one that returned bytes, and what was read until then is processed
without an error. -/
def InterruptedBurst (recvHandler : List (List UInt8) → LErr) (outcomes : List ReadOutcome)
    (c : Conn) (handed : List (List UInt8)) : Prop :=
  ∃ pre rest t, outcomes = pre ++ .interrupted :: rest ∧ (∀ o ∈ pre, o.Flowing) ∧
    readChunks pre ≠ [] ∧
    processChunks recvHandler (readChunks pre) ⟨c.initRecv, handed, none⟩ = some t ∧
    t.fatal = none

/-- A call that comes to an interrupted read after it has read something does not come to one after
which nothing is left. -/
theorem InterruptedBurst.not_drained {recvHandler : List (List UInt8) → LErr}
    {outcomes : List ReadOutcome} {c : Conn} {handed : List (List UInt8)} {r : Received}
    (h : InterruptedBurst recvHandler outcomes c handed) :
    ¬Drained recvHandler outcomes c handed r := by
  rintro ⟨pre', rest', heq, hstops⟩
  obtain ⟨pre, rest, t, rfl, hflowing, hread, ht, hfatal⟩ := h
  rcases List.append_eq_append_iff.mp heq with ⟨more, rfl, hmore⟩ | ⟨more, rfl, hmore⟩
  · -- the call would have read past the interruption
    cases more with
    | nil => cases hmore
    | cons o more =>
      obtain ⟨rfl, -⟩ := List.cons.inj hmore
      obtain ⟨r', hr', hok⟩ := readLoop_interrupted hflowing (.inr hread) ht hfatal more
      rw [hstops.reading] at hr'
      obtain rfl := Option.some.inj hr'
      cases hok
  · cases more with
    | nil => cases hmore
    | cons o more =>
      obtain ⟨rfl, -⟩ := List.cons.inj hmore
      exact hflowing .again (by simp)

/-- **Edge-triggered reads are drained.** Whatever the reads return and the handler answers, an `OK`
of `read_packet` means that nothing is left to read and everything read is processed, if and only
if no read is interrupted after one that returned bytes. -/
theorem read_drains_iff (recvHandler : List (List UInt8) → LErr) (outcomes : List ReadOutcome)
    (c : Conn) (handed : List (List UInt8)) :
    (∀ r, readPacket recvHandler outcomes c handed = some r → r.status = some .ok →
      Drained recvHandler outcomes c handed r) ↔
    ¬InterruptedBurst recvHandler outcomes c handed := by
  constructor
  · intro hdrains hburst
    obtain ⟨pre, rest, t, rfl, hflowing, hread, ht, hfatal⟩ := id hburst
    obtain ⟨r, hr, hok⟩ := readLoop_interrupted hflowing (.inr hread) ht hfatal rest
    exact hburst.not_drained (hdrains r hr hok)
  · intro hquiet r hr hok
    obtain ⟨pre, rest, hstops, hagain | ⟨hinterrupted, hread⟩⟩ := readLoop_stops hr hok
    · exact ⟨pre, rest, hagain, hstops⟩
    · exact absurd ⟨pre, rest, _, hinterrupted, hstops.flowing, hread.resolve_left (by decide),
        hstops.processed, rfl⟩ hquiet

/-- A byte arrives, the next read is interrupted, and the call answers `OK` with the byte after it
not read. -/
theorem interrupted_leaves_data :
    ∃ r, readPacket (fun _ => .ldOk) [.got [0], .interrupted, .got [0], .again] {} [] = some r ∧
      r.status = some .ok ∧ r.bytes = [0] ∧
      ¬Drained (fun _ => .ldOk) [.got [0], .interrupted, .got [0], .again] {} [] r := by
  refine ⟨_, rfl, rfl, rfl, ?_⟩
  apply InterruptedBurst.not_drained
  exact ⟨[.got [0]], [.got [0], .again], _, rfl, by decide, by decide, rfl, rfl⟩

end LdacsSdk
