import LdacsSdk.Library.Loops

/-!
# Sanitizing a message in place

A message is kept in a buffer up to its terminator. Line breaks become blanks, and every other
character that does not print, or is a backslash, becomes a backslash and three octal digits. The
buffer is both source and target: a first pass finds out how much of the message fits and how far it
grows, a second one goes backward and moves every character to its new place. A read or a store
outside the buffer has no value.
-/
namespace LdacsSdk

open Library

/-! ### The code -/

/-- `isprint`. -/
def isprint (c : UInt8) : Bool := 32 ≤ c && c ≤ 126

/-- `UGLY_WIDTH`: the width of a backslash and three octal digits. -/
def uglyWidth : ℕ := 4

/-- `c == '\\' || !isprint(c)`. -/
def isUgly (c : UInt8) : Bool := c == 92 || !isprint c

/-- What `snprintf` prints of a character for the format of a backslash and three octal digits. -/
def octalText (c : UInt8) : List UInt8 :=
  [92, UInt8.ofNat (48 + c.toNat / 64), UInt8.ofNat (48 + c.toNat / 8 % 8),
    UInt8.ofNat (48 + c.toNat % 8)]

/-- Store bytes from an offset of the buffer on. -/
def storeAt (buf : List UInt8) (a : ℕ) (bytes : List UInt8) : Option (List UInt8) :=
  if a + bytes.length ≤ buf.length then
    some (buf.take a ++ bytes ++ buf.drop (a + bytes.length))
  else none

/-- What both passes work on; `c` is the character that the second one has read last. -/
structure Sanitizing where
  buf : List UInt8
  p : ℕ := 0
  added : ℕ := 0
  c : UInt8 := 0
  deriving DecidableEq, Repr

/-- One round of the first pass. -/
def scanRound (size : ℕ) (s : Sanitizing) : Option (Round Sanitizing) := do
  let c ← s.buf[s.p]?
  if c = 0 ∨ size ≤ s.p + s.added + uglyWidth then return .leave s
  -- vertical space just becomes white space
  if c = 10 ∨ c = 13 then
    let buf ← storeAt s.buf s.p [32]
    return .again { s with buf := buf, p := s.p + 1 }
  if isUgly c then
    return .again { s with p := s.p + 1, added := s.added + (uglyWidth - 1) }
  else
    return .again { s with p := s.p + 1 }

/-- One round of `while ((c = *--p) != '\\' && isprint(c)) p[added] = c`. -/
def copyRound (s : Sanitizing) : Option (Round Sanitizing) := do
  if s.p = 0 then none
  else
    let c ← s.buf[s.p - 1]?
    if isUgly c then return .leave { s with p := s.p - 1, c := c }
    else
      let buf ← storeAt s.buf (s.p - 1 + s.added) [c]
      return .again { s with buf := buf, p := s.p - 1, c := c }

/-- One round of the second pass. -/
def moveRound (fuel : ℕ) (s : Sanitizing) : Option (Round Sanitizing) := do
  if s.added = 0 then return .leave s
  else
    let s ← whileLoop copyRound fuel s
    let added := s.added - (uglyWidth - 1)
    let buf ← storeAt s.buf (s.p + added) (octalText s.c)
    return .again { s with buf := buf, added := added }

/-- `sanitize_string`: the new length and the buffer. -/
def sanitizeString (fuel : ℕ) (buf : List UInt8) (size : ℕ) : Option (ℕ × List UInt8) := do
  let scanned ← whileLoop (scanRound size) fuel { buf := buf }
  let cut ← storeAt scanned.buf (scanned.p + scanned.added) [0]
  let shifted ← whileLoop (moveRound fuel) fuel { scanned with buf := cut }
  return (scanned.p + scanned.added, shifted.buf)

/-! ### What a message becomes -/

/-- A line break becomes a blank. -/
def levelled (c : UInt8) : UInt8 := if c = 10 ∨ c = 13 then 32 else c

/-- What stands for a character that is no line break. -/
def escaped (c : UInt8) : List UInt8 := if isUgly c then octalText c else [c]

/-- The message with its line breaks levelled and everything else escaped. -/
def sanitized (str : List UInt8) : List UInt8 := (str.map levelled).flatMap escaped

/-- The part of a message that is kept when so many characters are used up already: one character
more as long as four and the terminator still fit. -/
def fitting (size : ℕ) : ℕ → List UInt8 → List UInt8
  | _, [] => []
  | used, c :: cs =>
    if size ≤ used + uglyWidth then [] else c :: fitting size (used + (sanitized [c]).length) cs

/-- The number of characters that are escaped. -/
def uglyCount (str : List UInt8) : ℕ := str.countP isUgly

variable {buf str : List UInt8} {c : UInt8} {size : ℕ}

theorem octalText_length (c : UInt8) : (octalText c).length = uglyWidth := rfl

theorem sanitized_append (str str' : List UInt8) :
    sanitized (str ++ str') = sanitized str ++ sanitized str' := by
  simp [sanitized]

theorem flatMap_escaped_length (str : List UInt8) :
    (str.flatMap escaped).length = str.length + 3 * uglyCount str := by
  induction str with
  | nil => rfl
  | cons c cs ih =>
    rw [List.flatMap_cons, List.length_append, ih]
    cases hc : isUgly c <;>
      simp [escaped, hc, uglyCount, octalText_length, uglyWidth] <;> omega

theorem sanitized_length (str : List UInt8) :
    (sanitized str).length = str.length + 3 * uglyCount (str.map levelled) := by
  rw [sanitized, flatMap_escaped_length, List.length_map]

theorem fitting_prefix (size used : ℕ) (str : List UInt8) : fitting size used str <+: str := by
  induction str generalizing used with
  | nil => exact List.prefix_rfl
  | cons c cs ih =>
    unfold fitting
    split
    · exact List.nil_prefix
    · exact List.cons_prefix_cons.mpr ⟨rfl, ih _⟩

/-- What is kept is the whole message, or there was no room for one character more. -/
theorem fitting_full (size used : ℕ) (str : List UInt8) :
    fitting size used str = str ∨
      size ≤ used + (sanitized (fitting size used str)).length + uglyWidth := by
  induction str generalizing used with
  | nil => exact .inl rfl
  | cons c cs ih =>
    unfold fitting
    split
    · next h => exact .inr h
    · rcases ih (used + (sanitized [c]).length) with hall | hroom
      · exact .inl (by rw [hall])
      · right
        rw [← List.singleton_append, sanitized_append, List.length_append]
        omega

theorem isprint_of_not_isUgly (h : isUgly c = false) : isprint c = true := by
  simp only [isUgly, Bool.or_eq_false_iff, Bool.not_eq_false'] at h
  exact h.2

/-! ### Reading a sanitized message -/

/-- The character that three octal digits stand for. -/
def ofOctal (a b d : UInt8) : UInt8 :=
  UInt8.ofNat ((a.toNat - 48) * 64 + (b.toNat - 48) * 8 + (d.toNat - 48))

/-- What a reader makes of a sanitized message. -/
def unescape : List UInt8 → List UInt8
  | [] => []
  | c :: a :: b :: d :: rest =>
    if c = 92 then ofOctal a b d :: unescape rest else c :: unescape (a :: b :: d :: rest)
  | c :: rest => c :: unescape rest

theorem unescape_cons (h : c ≠ 92) (rest : List UInt8) :
    unescape (c :: rest) = c :: unescape rest := by
  rcases rest with _ | ⟨a, _ | ⟨b, _ | ⟨d, rest⟩⟩⟩
  · rfl
  · rfl
  · rfl
  · rw [unescape, if_neg h]

theorem ofOctal_octalText (c : UInt8) :
    ofOctal (UInt8.ofNat (48 + c.toNat / 64)) (UInt8.ofNat (48 + c.toNat / 8 % 8))
      (UInt8.ofNat (48 + c.toNat % 8)) = c := by
  have hc : c.toNat < 256 := c.toNat_lt
  apply UInt8.toNat_inj.mp
  simp only [ofOctal, UInt8.toNat_ofNat']
  omega

theorem unescape_octalText (c : UInt8) (rest : List UInt8) :
    unescape (octalText c ++ rest) = c :: unescape rest := by
  simp only [octalText, List.cons_append, List.nil_append, unescape, if_true, ofOctal_octalText]

theorem unescape_flatMap_escaped (str : List UInt8) : unescape (str.flatMap escaped) = str := by
  induction str with
  | nil => rfl
  | cons c cs ih =>
    rw [List.flatMap_cons]
    cases hc : isUgly c with
    | true => rw [escaped, if_pos hc, unescape_octalText, ih]
    | false =>
      have hne : c ≠ 92 := by
        rintro rfl
        exact absurd hc (by decide)
      rw [escaped, hc, if_neg Bool.false_ne_true, List.singleton_append, unescape_cons hne, ih]

theorem isprint_octal {n : ℕ} (h : n < 8) : isprint (UInt8.ofNat (48 + n)) = true := by
  interval_cases n <;> decide

theorem isprint_of_mem_escaped {d : UInt8} (h : d ∈ escaped c) : isprint d = true := by
  have hc : c.toNat < 256 := c.toNat_lt
  cases hugly : isUgly c with
  | false =>
    simp only [escaped, hugly, Bool.false_eq_true, if_false, List.mem_singleton] at h
    exact h ▸ isprint_of_not_isUgly hugly
  | true =>
    simp only [escaped, hugly, if_true, octalText, List.mem_cons, List.not_mem_nil, or_false] at h
    rcases h with rfl | rfl | rfl | rfl
    · decide
    · exact isprint_octal (by omega)
    · exact isprint_octal (by omega)
    · exact isprint_octal (by omega)

/-! ### The first pass -/

theorem storeAt_append {x y z bytes : List UInt8} (h : y.length = bytes.length) :
    storeAt (x ++ (y ++ z)) x.length bytes = some (x ++ (bytes ++ z)) := by
  have hdrop : (x ++ (y ++ z)).drop (x.length + bytes.length) = z := by
    rw [← h, ← List.append_assoc, ← List.length_append, List.drop_left]
  rw [storeAt, if_pos (by simp; omega), List.take_left, hdrop, List.append_assoc]

/-- The first pass has gone through `done`, and `rest` is ahead of it. -/
structure Scanning (size : ℕ) (str tail done rest : List UInt8) (s : Sanitizing) : Prop where
  split : str = done ++ rest
  place : s.p = done.length
  buffer : s.buf = done.map levelled ++ (rest ++ 0 :: tail)
  grown : s.added = 3 * uglyCount (done.map levelled)
  fits : fitting size 0 str = done ++ fitting size (sanitized done).length rest
  room : (sanitized done).length < size

variable {tail done rest : List UInt8} {s : Sanitizing} {fuel : ℕ}

theorem Scanning.used (h : Scanning size str tail done rest s) :
    s.p + s.added = (sanitized done).length := by
  rw [h.place, h.grown, sanitized_length]

theorem Scanning.read (h : Scanning size str tail done rest s) :
    s.buf[s.p]? = (rest ++ 0 :: tail)[0]? := by
  rw [h.buffer, h.place, List.getElem?_append_right (by simp)]
  simp

/-- Going on by one character, which still fits. -/
theorem Scanning.next {s' : Sanitizing} (h : Scanning size str tail done (c :: rest) s)
    (hroom : ¬ size ≤ (sanitized done).length + uglyWidth) (hp : s'.p = s.p + 1)
    (hbuf : s'.buf = done.map levelled ++ (levelled c :: (rest ++ 0 :: tail)))
    (hadded : s'.added = s.added + 3 * uglyCount [levelled c]) :
    Scanning size str tail (done ++ [c]) rest s' where
  split := by rw [h.split, List.append_assoc, List.singleton_append]
  place := by rw [hp, h.place, List.length_append, List.length_singleton]
  buffer := by rw [hbuf, List.map_append, List.append_assoc]; rfl
  grown := by
    rw [hadded, h.grown, List.map_append, uglyCount, uglyCount, uglyCount, List.countP_append]
    simp only [List.map_cons, List.map_nil]
    omega
  fits := by
    rw [h.fits, fitting, if_neg hroom, sanitized_append, List.length_append, List.append_assoc,
      List.singleton_append]
  room := by
    have hone : uglyCount [levelled c] ≤ 1 := List.countP_le_length
    have hlength := sanitized_length [c]
    simp only [List.map_cons, List.map_nil, List.length_singleton] at hlength
    rw [sanitized_append, List.length_append]
    simp only [uglyWidth] at hroom
    omega

/-- One round of the first pass ends it, or goes on by one character. -/
theorem Scanning.round (h0 : 0 ∉ str) (h : Scanning size str tail done rest s) :
    (scanRound size s = some (.leave s) ∧ fitting size 0 str = done) ∨
      ∃ c rest' s', rest = c :: rest' ∧ scanRound size s = some (.again s') ∧
        Scanning size str tail (done ++ [c]) rest' s' := by
  have hread := h.read
  have hused := h.used
  cases rest with
  | nil =>
    left
    refine ⟨?_, by rw [h.fits, fitting, List.append_nil]⟩
    have hzero : s.buf[s.p]? = some 0 := hread
    simp [scanRound, hzero]
  | cons c rest =>
    have hchar : s.buf[s.p]? = some c := hread
    have hne : c ≠ 0 := by
      rintro rfl
      exact h0 (h.split ▸ List.mem_append_right _ List.mem_cons_self)
    by_cases hroom : size ≤ (sanitized done).length + uglyWidth
    · left
      refine ⟨?_, by rw [h.fits, fitting, if_pos hroom, List.append_nil]⟩
      simp [scanRound, hchar, hused, hroom]
    · right
      by_cases hbreak : c = 10 ∨ c = 13
      · have hlevel : levelled c = 32 := if_pos hbreak
        have hstore : storeAt s.buf s.p [32] =
            some (done.map levelled ++ ([32] ++ (rest ++ 0 :: tail))) := by
          have hlength : done.length = (done.map levelled).length := (List.length_map _).symm
          have hone : [c].length = [(32 : UInt8)].length := rfl
          rw [h.buffer, h.place, hlength]
          exact storeAt_append hone
        refine ⟨c, rest, { s with
          buf := done.map levelled ++ ([32] ++ (rest ++ 0 :: tail)), p := s.p + 1 }, rfl, ?_,
          h.next hroom rfl ?_ ?_⟩
        · simp [scanRound, hchar, hused, hroom, hne, hbreak, hstore]
        · rw [hlevel]; rfl
        · rw [hlevel]; rfl
      · have hlevel : levelled c = c := if_neg hbreak
        cases hugly : isUgly c with
        | true =>
          refine ⟨c, rest, { s with p := s.p + 1, added := s.added + (uglyWidth - 1) }, rfl, ?_,
            h.next hroom rfl ?_ ?_⟩
          · simp [scanRound, hchar, hused, hroom, hne, hbreak, hugly]
          · rw [hlevel]; exact h.buffer
          · simp [hlevel, uglyCount, hugly, uglyWidth]
        | false =>
          refine ⟨c, rest, { s with p := s.p + 1 }, rfl, ?_, h.next hroom rfl ?_ ?_⟩
          · simp [scanRound, hchar, hused, hroom, hne, hbreak, hugly]
          · rw [hlevel]; exact h.buffer
          · simp [hlevel, uglyCount, hugly]

/-- The first pass ends behind the part of the message that is kept. -/
theorem scan_ends (h0 : 0 ∉ str) (hsize : 0 < size) (hfuel : str.length < fuel) :
    ∃ s, whileLoop (scanRound size) fuel { buf := str ++ 0 :: tail } = some s ∧
      ∃ rest, Scanning size str tail (fitting size 0 str) rest s := by
  refine whileLoop_spec (fun s => str.length - s.p)
    (I := fun s => ∃ done rest, Scanning size str tail done rest s) ?_
    ⟨[], str, ⟨rfl, rfl, rfl, rfl, rfl, hsize⟩⟩ (by simpa using hfuel)
  rintro s ⟨done, rest, h⟩
  rcases h.round h0 with ⟨hleave, hfits⟩ | ⟨c, rest', s', rfl, hagain, hnext⟩
  · exact .inl ⟨s, hleave, rest, hfits ▸ h⟩
  · right
    refine ⟨s', hagain, ⟨_, _, hnext⟩, ?_⟩
    have hlength := congrArg List.length h.split
    simp only [List.length_append, List.length_cons] at hlength
    rw [h.place, hnext.place, List.length_append, List.length_singleton]
    omega

/-! ### The second pass -/

/-- The second pass has `pre` still ahead of it, where the first one has left it, and `post` in its
new place, in front of what ends the buffer. -/
structure Moving (pre post ending : List UInt8) (s : Sanitizing) : Prop where
  place : s.p = pre.length
  grown : s.added = 3 * uglyCount pre
  buffer : ∃ mid, mid.length = s.added ∧ s.buf = pre ++ (mid ++ (post.flatMap escaped ++ ending))

variable {pre post ending t : List UInt8}

theorem uglyCount_concat (pre : List UInt8) (c : UInt8) :
    uglyCount (pre ++ [c]) = uglyCount pre + if isUgly c then 1 else 0 := by
  cases hc : isUgly c <;> simp [uglyCount, hc]

theorem flatMap_escaped_of_clean (h : uglyCount pre = 0) : pre.flatMap escaped = pre := by
  induction pre with
  | nil => rfl
  | cons c cs ih =>
    simp only [uglyCount, List.countP_cons, Nat.add_eq_zero_iff] at h
    cases hc : isUgly c with
    | true => simp [hc] at h
    | false =>
      rw [List.flatMap_cons, ih h.1, escaped, hc, if_neg Bool.false_ne_true,
        List.singleton_append]

/-- The character in front of the pass is the last one of what is ahead of it. -/
theorem Moving.read (h : Moving (pre ++ [c]) post ending s) :
    s.p = pre.length + 1 ∧ s.buf[pre.length]? = some c := by
  obtain ⟨mid, -, hbuf⟩ := h.buffer
  constructor
  · rw [h.place, List.length_append, List.length_singleton]
  · rw [hbuf, List.append_assoc, List.getElem?_append_right le_rfl]
    simp

theorem Moving.copy_clean (h : Moving (pre ++ [c]) post ending s) (hc : isUgly c = false) :
    ∃ s', copyRound s = some (.again s') ∧ Moving pre (c :: post) ending s' := by
  obtain ⟨mid, hmid, hbuf⟩ := h.buffer
  obtain ⟨hp, hread⟩ := h.read
  -- the gap moves down by one place
  have hsplit : [c] ++ mid = ([c] ++ mid).take s.added ++ ([c] ++ mid).drop s.added :=
    (List.take_append_drop _ _).symm
  have hstore : storeAt s.buf (pre.length + s.added) [c] =
      some (pre ++ (([c] ++ mid).take s.added ++ ([c] ++ (post.flatMap escaped ++ ending)))) := by
    have hwhere : pre.length + s.added = (pre ++ ([c] ++ mid).take s.added).length := by
      rw [List.length_append, List.length_take, List.length_append, hmid, List.length_singleton]
      omega
    have hbuf' : s.buf = (pre ++ ([c] ++ mid).take s.added) ++
        (([c] ++ mid).drop s.added ++ (post.flatMap escaped ++ ending)) := by
      rw [hbuf, List.append_assoc, List.append_assoc, ← List.append_assoc (List.take _ _), ← hsplit,
        List.append_assoc]
    rw [hwhere, hbuf', storeAt_append (by simp [hmid]), List.append_assoc]
  refine ⟨{ s with
    buf := pre ++ (([c] ++ mid).take s.added ++ ([c] ++ (post.flatMap escaped ++ ending)))
    p := pre.length, c := c }, ?_, rfl, ?_, ([c] ++ mid).take s.added, ?_, ?_⟩
  · have hround : copyRound s = (storeAt s.buf (pre.length + s.added) [c]).bind fun buf =>
        some (.again { s with buf := buf, p := pre.length, c := c }) := by
      simp [copyRound, hp, hread, hc]
    rw [hround, hstore]
    rfl
  · exact h.grown.trans (by rw [uglyCount_concat, hc]; rfl)
  · rw [List.length_take, List.length_append, List.length_singleton, hmid]
    exact Nat.min_eq_left (Nat.le_add_left _ _)
  · rw [List.flatMap_cons, escaped, hc, if_neg Bool.false_ne_true, List.append_assoc]

/-- `while ((c = *--p) != '\\' && isprint(c)) p[added] = c` stops at the last character that is to
be escaped; what follows it has been moved. -/
theorem Moving.copy (h : Moving pre post ending s) (hpos : 0 < s.added) (ht : t = pre ++ post)
    (hfuel : s.p < fuel) :
    ∃ s', whileLoop copyRound fuel s = some s' ∧ s'.added = s.added ∧
      ∃ pre' post', t = pre' ++ s'.c :: post' ∧ isUgly s'.c = true ∧ s'.p = pre'.length ∧
        Moving (pre' ++ [s'.c]) post' ending { s' with p := pre'.length + 1 } := by
  refine whileLoop_spec (fun s => s.p)
    (I := fun u => u.added = s.added ∧ ∃ pre post, t = pre ++ post ∧ Moving pre post ending u) ?_
    ⟨rfl, pre, post, ht, h⟩ hfuel
  clear h ht hfuel
  rintro u ⟨hadded, pre, post, ht, h⟩
  rcases List.eq_nil_or_concat' pre with rfl | ⟨pre, c, rfl⟩
  · have hzero : u.added = 0 := h.grown
    omega
  obtain ⟨hp, hread⟩ := h.read
  cases hc : isUgly c with
  | false =>
    right
    obtain ⟨s', hagain, hs'⟩ := h.copy_clean hc
    refine ⟨s', hagain, ⟨?_, pre, c :: post, by simp [ht], hs'⟩, ?_⟩
    · have hgrown := h.grown
      rw [uglyCount_concat, hc] at hgrown
      rw [hs'.grown, ← hadded, hgrown]
      rfl
    · rw [hs'.place, hp]
      exact Nat.lt_succ_self _
  | true =>
    left
    obtain ⟨mid, hmid, hbuf⟩ := h.buffer
    refine ⟨{ u with p := pre.length, c := c }, by simp [copyRound, hp, hread, hc], hadded, pre,
      post, by simp [ht], hc, rfl, ?_⟩
    exact ⟨by simp, h.grown, mid, hmid, hbuf⟩

/-- One round of the second pass, with something left to escape. -/
theorem Moving.round (h : Moving pre post ending s) (hpos : s.added ≠ 0) (ht : t = pre ++ post)
    (hfuel : s.p < fuel) :
    ∃ s' pre' post', moveRound fuel s = some (.again s') ∧ t = pre' ++ post' ∧
      Moving pre' post' ending s' ∧ s'.added < s.added := by
  obtain ⟨u, hloop, hadded, pre', post', ht', hc, hp, hu⟩ :=
    h.copy (Nat.pos_of_ne_zero hpos) ht hfuel
  obtain ⟨mid, hmid, hbuf⟩ := hu.buffer
  have hmid : mid.length = u.added := hmid
  have hgrown : u.added = 3 * uglyCount pre' + 3 := by
    have hsame : u.added = 3 * uglyCount (pre' ++ [u.c]) := hu.grown
    rw [hsame, uglyCount_concat, hc]
    simp only [if_true]
    omega
  -- the gap and the character itself take the four characters that stand for it
  have hlength : ([u.c] ++ mid).length = u.added - 3 + 4 := by
    rw [List.length_append, hmid, List.length_singleton]
    omega
  have hsplit := List.take_append_drop (u.added - 3) ([u.c] ++ mid)
  have hwhere : u.p + (u.added - 3) = (pre' ++ ([u.c] ++ mid).take (u.added - 3)).length := by
    rw [List.length_append, List.length_take, hlength, hp]
    omega
  have hbuf' : u.buf = (pre' ++ ([u.c] ++ mid).take (u.added - 3)) ++
      (([u.c] ++ mid).drop (u.added - 3) ++ (post'.flatMap escaped ++ ending)) := by
    rw [List.append_assoc, ← List.append_assoc (List.take _ _), hsplit]
    simpa using hbuf
  have hstore : storeAt u.buf (u.p + (u.added - 3)) (octalText u.c) =
      some (pre' ++ (([u.c] ++ mid).take (u.added - 3) ++
        (octalText u.c ++ (post'.flatMap escaped ++ ending)))) := by
    rw [hwhere, hbuf', storeAt_append, List.append_assoc]
    rw [List.length_drop, hlength, octalText_length, uglyWidth]
    omega
  refine ⟨{ u with
    buf := pre' ++ (([u.c] ++ mid).take (u.added - 3) ++
      (octalText u.c ++ (post'.flatMap escaped ++ ending)))
    added := u.added - 3 }, pre', u.c :: post', ?_, ht',
    ⟨hp, ?_, ([u.c] ++ mid).take (u.added - 3), ?_, ?_⟩, ?_⟩
  · simp only [moveRound, if_neg hpos, hloop, Option.bind_eq_bind, Option.bind_some, uglyWidth,
      Nat.reduceSub, hstore]
    rfl
  · change u.added - 3 = _
    omega
  · rw [List.length_take, hlength]
    exact Nat.min_eq_left (by omega)
  · rw [List.flatMap_cons, escaped, if_pos hc, List.append_assoc]
  · change u.added - 3 < _
    omega

/-- The second pass puts everything in its new place. -/
theorem move_ends (h : Moving t [] ending s) (hfuel : t.length < fuel) (hadded : s.added < fuel) :
    ∃ s', whileLoop (moveRound fuel) fuel s = some s' ∧ s'.buf = t.flatMap escaped ++ ending := by
  refine whileLoop_spec (fun s => s.added)
    (I := fun s => ∃ pre post, t = pre ++ post ∧ Moving pre post ending s) ?_
    ⟨t, [], (List.append_nil t).symm, h⟩ hadded
  rintro s ⟨pre, post, ht, h⟩
  by_cases hzero : s.added = 0
  · left
    have hclean : uglyCount pre = 0 := by
      have hgrown := h.grown
      omega
    obtain ⟨mid, hmid, hbuf⟩ := h.buffer
    obtain rfl : mid = [] := List.length_eq_zero_iff.mp (hmid.trans hzero)
    refine ⟨s, by simp [moveRound, hzero], ?_⟩
    rw [hbuf, ht, List.flatMap_append, flatMap_escaped_of_clean hclean, List.nil_append,
      List.append_assoc]
  · right
    have hplace : s.p < fuel := by
      have hlength := congrArg List.length ht
      rw [List.length_append] at hlength
      rw [h.place]
      omega
    obtain ⟨s', pre', post', hagain, ht', hnext, hless⟩ := h.round hzero ht hplace
    exact ⟨s', hagain, ⟨pre', post', ht', hnext⟩, hless⟩

/-! ### The call -/

/-- Between the passes the message is cut off where its last character will be. -/
theorem Scanning.cut (h : Scanning size str tail done rest s)
    (hroom : s.added < (rest ++ 0 :: tail).length) :
    ∃ cut, storeAt s.buf (s.p + s.added) [0] = some cut ∧
      Moving (done.map levelled) [] (0 :: (rest ++ 0 :: tail).drop (s.added + 1))
        { s with buf := cut } := by
  have hwhere : s.p + s.added =
      (done.map levelled ++ (rest ++ 0 :: tail).take s.added).length := by
    rw [List.length_append, List.length_map, List.length_take, h.place,
      Nat.min_eq_left hroom.le]
  have hbuf : s.buf = (done.map levelled ++ (rest ++ 0 :: tail).take s.added) ++
      ([(rest ++ 0 :: tail)[s.added]] ++ (rest ++ 0 :: tail).drop (s.added + 1)) := by
    rw [h.buffer, List.append_assoc, List.singleton_append, ← List.drop_eq_getElem_cons hroom,
      List.take_append_drop]
  have hcut : storeAt s.buf (s.p + s.added) [0] =
      some ((done.map levelled ++ (rest ++ 0 :: tail).take s.added) ++
        ([0] ++ (rest ++ 0 :: tail).drop (s.added + 1))) := by
    rw [hwhere, hbuf, storeAt_append]
    rfl
  refine ⟨_, hcut, ?_, h.grown, (rest ++ 0 :: tail).take s.added, ?_, ?_⟩
  · rw [List.length_map]
    exact h.place
  · rw [List.length_take]
    exact Nat.min_eq_left hroom.le
  · simp

/-- For every message that is terminated inside its buffer, the call stays inside the buffer and
leaves there the escaped form of the part of the message that fits, terminated, and returns its
length. Nothing behind the terminator is touched, only characters that print are left, and reading
the escapes gives back what was kept, with blanks for its line breaks. -/
theorem sanitizeString_spec {buf str tail : List UInt8} {size fuel : ℕ} (h0 : 0 ∉ str)
    (hbuf : buf = str ++ 0 :: tail) (hsize : size ≤ buf.length) (hroom : uglyWidth ≤ size)
    (hfuel : buf.length < fuel) :
    ∃ kept out, kept <+: str ∧ out = sanitized kept ∧
      sanitizeString fuel buf size =
        some (out.length, out ++ 0 :: buf.drop (out.length + 1)) ∧
      out.length < size ∧ (kept = str ∨ size ≤ out.length + uglyWidth) ∧
      (∀ c ∈ out, isprint c = true) ∧ unescape out = kept.map levelled := by
  have hpos : 0 < size := by
    simp only [uglyWidth] at hroom
    omega
  have hlen : str.length < fuel := by
    rw [hbuf, List.length_append] at hfuel
    omega
  obtain ⟨s, hscan, rest, hs⟩ :
      ∃ s, whileLoop (scanRound size) fuel { buf := str ++ 0 :: tail } = some s ∧
        ∃ rest, Scanning size str tail (fitting size 0 str) rest s := scan_ends h0 hpos hlen
  rw [← hbuf] at hscan
  have hused := hs.used
  have hin := hs.room
  have hall : buf = fitting size 0 str ++ (rest ++ 0 :: tail) := by
    rw [hbuf, ← List.append_assoc, ← hs.split]
  have hroom : s.added < (rest ++ 0 :: tail).length := by
    have hlength := congrArg List.length hall
    rw [List.length_append, ← hs.place] at hlength
    omega
  obtain ⟨cut, hcut, hmoving⟩ := hs.cut hroom
  have hkept : ((fitting size 0 str).map levelled).length < fuel := by
    rw [List.length_map, ← hs.place]
    omega
  have hadded : s.added < fuel := by omega
  obtain ⟨s', hmove, hdone⟩ := move_ends hmoving hkept hadded
  refine ⟨fitting size 0 str, _, fitting_prefix size 0 str, rfl, ?_, hin, ?_, ?_, ?_⟩
  · have hrest : (rest ++ 0 :: tail).drop (s.added + 1) =
        buf.drop ((sanitized (fitting size 0 str)).length + 1) := by
      rw [← hused, hs.place, Nat.add_assoc]
      conv_rhs => rw [hall, ← List.drop_drop, List.drop_left]
    simp only [sanitizeString, hscan, hcut, hmove, Option.bind_eq_bind, Option.bind_some, hdone]
    rw [hused, hrest]
    rfl
  · rcases fitting_full size 0 str with hkept | hfull
    · exact .inl hkept
    · exact .inr (by omega)
  · intro c hc
    obtain ⟨d, -, hd⟩ := List.mem_flatMap.mp hc
    exact isprint_of_mem_escaped hd
  · exact unescape_flatMap_escaped _

/-- A tabulator is escaped and a line break is levelled. -/
theorem sanitizeString_spec_tab :
    ∃ kept out, kept <+: [97, 9, 10] ∧ out = sanitized kept ∧
      sanitizeString 11 [97, 9, 10, 0, 1, 2, 3, 4, 5, 6] 10 =
        some (out.length, out ++ 0 :: [97, 9, 10, 0, 1, 2, 3, 4, 5, 6].drop (out.length + 1)) ∧
      out.length < 10 ∧ (kept = [97, 9, 10] ∨ 10 ≤ out.length + uglyWidth) ∧
      (∀ c ∈ out, isprint c = true) ∧ unescape out = kept.map levelled :=
  @sanitizeString_spec _ [97, 9, 10] [1, 2, 3, 4, 5, 6] _ _ (by decide) rfl (by decide) (by decide)
    (by decide)

end LdacsSdk
