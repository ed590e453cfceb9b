import LdacsSdk.Core.Definitions
import LdacsSdk.Library.Loops
import LdacsSdk.Library.Words

/-!
# Splitting a string at its spaces

A string is the list of its characters; its memory has the terminator behind them, and a read
behind the terminator has no value. `malloc` says of a number of bytes whether a request for as
many is served. The words are counted in one pass and stored in another, both with `int` counters.
-/
namespace LdacsSdk

open Library

/-- `*p`, at an offset into the string. -/
def charAt (str : List UInt8) (p : ℕ) : Option UInt8 := (str ++ [0])[p]?

def isSpace (c : UInt8) : Bool := c == 32

/-- One round of a loop that steps over characters up to one that ends it. -/
def skipRound (ends : UInt8 → Bool) (str : List UInt8) (p : ℕ) : Option (Round ℕ) :=
  (charAt str p).map fun c => if ends c then .leave p else .again (p + 1)

/-- `while (*p == ' ') p++`. -/
def skipSpaces (fuel : ℕ) (str : List UInt8) (p : ℕ) : Option ℕ :=
  whileLoop (skipRound (fun c => !isSpace c) str) fuel p

/-- `while (*p != ' ' && *p != '\0') p++`. -/
def skipWord (fuel : ℕ) (str : List UInt8) (p : ℕ) : Option ℕ :=
  whileLoop (skipRound (fun c => isSpace c || c == 0) str) fuel p

/-- The first pass: where it stands and the words so far. -/
structure Counting where
  p : ℕ := 0
  count : ℤ := 0
  deriving DecidableEq, Repr

/-- One round of the first pass. -/
def countRound (str : List UInt8) (fuel : ℕ) (s : Counting) : Option (Round Counting) := do
  if (← charAt str s.p) = 0 then return .leave s
  let p ← skipSpaces fuel str s.p
  if (← charAt str p) = 0 then return .leave { s with p := p }
  let wordEnd ← skipWord fuel str p
  return .again { p := wordEnd, count := i32 (s.count + 1) }

/-- A place of the array of pointers. -/
inductive ArgvSlot where
  | unset
  | null
  | token (t : List UInt8)
  deriving DecidableEq, Repr

/-- The second pass: where it stands, the next place to store to, the array, and whether the array
has been given back because a token could not be allocated. -/
structure Storing where
  start : ℕ := 0
  index : ℕ := 0
  argv : List ArgvSlot
  freed : Bool := false
  deriving DecidableEq, Repr

/-- One round of the second pass. A store outside of the array, or of a token whose length has
become negative, has no value. -/
def storeRound (malloc : ℕ → Bool) (str : List UInt8) (fuel : ℕ) (s : Storing) :
    Option (Round Storing) := do
  if (← charAt str s.start) = 0 then return .leave s
  let start ← skipSpaces fuel str s.start
  if (← charAt str start) = 0 then return .leave { s with start := start }
  let wordEnd ← skipWord fuel str start
  let len := i32 (wordEnd - start)
  if malloc (u64 (i32 (len + 1))) = false then
    return .leave { s with start := start, freed := true }
  if len < 0 ∨ s.argv.length ≤ s.index then none
  else
    let token := (str.drop start).take len.toNat
    return .again
      { s with
        start := wordEnd
        index := s.index + 1
        argv := s.argv.set s.index (.token token) }

/-- What `*argv` is after the call: NULL, an array that has been freed, or the array. -/
inductive Argv where
  | null
  | freed
  | vector (slots : List ArgvSlot)
  deriving DecidableEq, Repr

/-- `ld_split`. -/
def ldSplit (fuel : ℕ) (malloc : ℕ → Bool) (str : List UInt8) : Option (ℤ × Argv) := do
  let counted ← whileLoop (countRound str fuel) fuel {}
  -- a pointer has eight bytes
  let bytes := u64 (8 * u64 (i32 (counted.count + 1)))
  if malloc bytes = false then return (0, .null)
  let stored ← whileLoop (storeRound malloc str fuel) fuel
    { argv := List.replicate (bytes / 8) .unset }
  if stored.freed then return (0, .freed)
  if stored.argv.length ≤ stored.index then none
  else return (counted.count, .vector (stored.argv.set stored.index .null))

variable {str : List UInt8} {p fuel : ℕ} {w : List UInt8} {ws : List (List UInt8)}
  {malloc : ℕ → Bool}

theorem charAt_eq (hp : p ≤ str.length) : charAt str p = some ((str.drop p).headD 0) := by
  rcases hp.lt_or_eq with hlt | rfl
  · rw [charAt, List.getElem?_append_left hlt, List.getElem?_eq_getElem hlt,
      List.drop_eq_getElem_cons hlt, List.headD_cons]
  · simp [charAt]

theorem charAt_end (hp : p ≤ str.length) (hrest : str.drop p = []) : charAt str p = some 0 := by
  rw [charAt_eq hp, hrest, List.headD_nil]

theorem charAt_inside (h0 : 0 ∉ str) (hp : p ≤ str.length) (hrest : str.drop p ≠ []) :
    ∃ c, charAt str p = some c ∧ c ≠ 0 := by
  obtain ⟨c, rest, hcons⟩ := List.exists_cons_of_ne_nil hrest
  have hmem : c ∈ str := List.mem_of_mem_drop (hcons ▸ List.mem_cons_self)
  refine ⟨c, ?_, fun h => h0 (h ▸ hmem)⟩
  rw [charAt_eq hp, hcons, List.headD_cons]

/-- A loop that stops at the terminator steps over the characters that do not end it. -/
theorem whileLoop_skipRound (ends : UInt8 → Bool) (hends : ends 0 = true) (hp : p ≤ str.length)
    (hfuel : str.length - p < fuel) :
    whileLoop (skipRound ends str) fuel p =
      some (p + ((str.drop p).takeWhile fun c => !ends c).length) := by
  induction fuel generalizing p with
  | zero => omega
  | succ fuel ih =>
    cases hrest : str.drop p with
    | nil => simp [whileLoop, skipRound, charAt_eq hp, hrest, hends]
    | cons c rest =>
      have hlt : p < str.length := by
        by_contra hge
        simp [List.drop_eq_nil_of_le (Nat.le_of_not_lt hge)] at hrest
      have hnext : str.drop (p + 1) = rest := by
        rw [← List.drop_drop, hrest, List.drop_one, List.tail_cons]
      cases hc : ends c with
      | true => simp [whileLoop, skipRound, charAt_eq hp, hrest, hc]
      | false =>
        have hloop := ih (p := p + 1) (by omega) (by omega)
        rw [hnext] at hloop
        simp [whileLoop, skipRound, charAt_eq hp, hrest, hc, hloop]
        omega

theorem drop_add_takeWhile (f : UInt8 → Bool) (str : List UInt8) (p : ℕ) :
    str.drop (p + ((str.drop p).takeWhile f).length) = (str.drop p).dropWhile f := by
  have hdrop : ((str.drop p).takeWhile f ++ (str.drop p).dropWhile f).drop
      ((str.drop p).takeWhile f).length = (str.drop p).dropWhile f := List.drop_left
  rw [List.takeWhile_append_dropWhile, List.drop_drop] at hdrop
  exact hdrop

theorem skipSpaces_spec (hp : p ≤ str.length) (hfuel : str.length < fuel) :
    ∃ q, skipSpaces fuel str p = some q ∧ q ≤ str.length ∧
      str.drop q = (str.drop p).dropWhile isSpace := by
  have hloop := whileLoop_skipRound (fun c => !isSpace c) rfl hp
    (Nat.lt_of_le_of_lt (Nat.sub_le _ _) hfuel)
  rw [show (fun c => !!isSpace c) = isSpace from funext fun c => Bool.not_not _] at hloop
  have hlen := (List.takeWhile_prefix isSpace (l := str.drop p)).length_le
  rw [List.length_drop] at hlen
  exact ⟨_, hloop, by omega, drop_add_takeWhile _ _ _⟩

/-- Without a terminator inside, a word ends before a space or with the string. -/
theorem takeWhile_not_zero {l : List UInt8} (h0 : 0 ∉ l) :
    l.takeWhile (fun c => !(isSpace c || c == 0)) = l.takeWhile fun c => !isSpace c := by
  induction l with
  | nil => rfl
  | cons c l ih =>
    have hc : (c == 0) = false := beq_false_of_ne fun h => h0 (h ▸ List.mem_cons_self)
    simp only [List.takeWhile_cons, hc, Bool.or_false]
    rw [ih fun h => h0 (List.mem_cons_of_mem _ h)]

theorem skipWord_spec (h0 : 0 ∉ str) (hp : p ≤ str.length) (hfuel : str.length < fuel) :
    let w := (str.drop p).takeWhile fun c => !isSpace c
    skipWord fuel str p = some (p + w.length) ∧ p + w.length ≤ str.length ∧
      str.drop (p + w.length) = (str.drop p).dropWhile fun c => !isSpace c := by
  have hloop := whileLoop_skipRound (fun c => isSpace c || c == 0) rfl hp
    (Nat.lt_of_le_of_lt (Nat.sub_le _ _) hfuel)
  rw [takeWhile_not_zero fun h => h0 (List.mem_of_mem_drop h)] at hloop
  have hlen := (List.takeWhile_prefix (fun c => !isSpace c) (l := str.drop p)).length_le
  rw [List.length_drop] at hlen
  exact ⟨hloop, by omega, drop_add_takeWhile _ _ _⟩

/-- What both passes find at `p`: the word `w` from `start` to `wordEnd`. -/
structure NextWord (str : List UInt8) (fuel p : ℕ) (w : List UInt8) (start wordEnd : ℕ) : Prop where
  here : ∃ c, charAt str p = some c ∧ c ≠ 0
  spaces : skipSpaces fuel str p = some start
  there : ∃ c, charAt str start = some c ∧ c ≠ 0
  word : skipWord fuel str start = some wordEnd
  token : (str.drop start).take w.length = w
  length : wordEnd = start + w.length
  inside : wordEnd ≤ str.length

theorem noWord (hp : p ≤ str.length) (hfuel : str.length < fuel)
    (hwords : words isSpace (str.drop p) = []) :
    ∃ q, skipSpaces fuel str p = some q ∧ charAt str q = some 0 := by
  obtain ⟨q, hskip, hq, hdrop⟩ := skipSpaces_spec hp hfuel
  refine ⟨q, hskip, charAt_end hq ?_⟩
  rw [← words_dropWhile, ← hdrop] at hwords
  cases hrest : str.drop q with
  | nil => rfl
  | cons c rest =>
    have hc := head_dropWhile_eq_false (hdrop.symm.trans hrest)
    rw [hrest, words_eq_cons hc] at hwords
    cases hwords

theorem nextWord (h0 : 0 ∉ str) (hp : p ≤ str.length) (hfuel : str.length < fuel)
    (hwords : words isSpace (str.drop p) = w :: ws) :
    ∃ start wordEnd, NextWord str fuel p w start wordEnd ∧
      words isSpace (str.drop wordEnd) = ws := by
  obtain ⟨q, hskip, hq, hdrop⟩ := skipSpaces_spec hp hfuel
  obtain ⟨hword, hinside, hafter⟩ := skipWord_spec h0 hq hfuel
  have hhere : str.drop p ≠ [] := fun h => by simp [h] at hwords
  rw [← words_dropWhile, ← hdrop] at hwords
  cases hrest : str.drop q with
  | nil => simp [hrest] at hwords
  | cons c rest =>
    have hc := head_dropWhile_eq_false (hdrop.symm.trans hrest)
    rw [hrest, words_eq_cons hc, ← hrest, List.cons.injEq] at hwords
    obtain ⟨hw, hws⟩ := hwords
    rw [hw] at hword hinside hafter
    have hthere : str.drop q ≠ [] := hrest ▸ List.cons_ne_nil c rest
    have htoken : (str.drop q).take w.length = w := by
      conv_lhs => rw [← hw]
      exact (List.prefix_iff_eq_take.mp (List.takeWhile_prefix _)).symm.trans hw
    exact ⟨q, q + w.length,
      ⟨charAt_inside h0 hp hhere, hskip, charAt_inside h0 hq hthere, hword, htoken, rfl, hinside⟩,
      by rw [hafter, hws]⟩

theorem countRound_leave (hp : p ≤ str.length) (hfuel : str.length < fuel)
    (hwords : words isSpace (str.drop p) = []) (count : ℤ) :
    ∃ q, countRound str fuel ⟨p, count⟩ = some (.leave ⟨q, count⟩) := by
  obtain ⟨q, hskip, hq⟩ := noWord hp hfuel hwords
  have hread := charAt_eq hp
  by_cases hend : charAt str p = some 0
  · exact ⟨p, by simp [countRound, hend]⟩
  · rw [hread, Option.some.injEq] at hend
    exact ⟨q, by simp only [countRound, hread, hskip, hq, Option.bind_eq_bind, Option.bind_some,
      if_neg hend, if_true, Option.pure_def]⟩

theorem NextWord.countRound {start wordEnd : ℕ} (h : NextWord str fuel p w start wordEnd)
    (count : ℤ) :
    countRound str fuel ⟨p, count⟩ = some (.again ⟨wordEnd, i32 (count + 1)⟩) := by
  obtain ⟨c, hc, hc0⟩ := h.here
  obtain ⟨d, hd, hd0⟩ := h.there
  simp [LdacsSdk.countRound, hc, hc0, hd, hd0, h.spaces, h.word]

/-- The first pass counts the words. -/
theorem countPass (h0 : 0 ∉ str) (hfuel : str.length < fuel) {outer : ℕ} {count : ℤ}
    (hp : p ≤ str.length) (hwords : words isSpace (str.drop p) = ws) (houter : ws.length < outer)
    (hcount : 0 ≤ count) (hmax : count + ws.length < 2 ^ 31) :
    ∃ q, whileLoop (countRound str fuel) outer ⟨p, count⟩ = some ⟨q, count + ws.length⟩ := by
  induction ws generalizing p outer count with
  | nil =>
    obtain ⟨q, hq⟩ := countRound_leave hp hfuel hwords count
    obtain ⟨outer, rfl⟩ : ∃ n, outer = n + 1 := ⟨outer - 1, by omega⟩
    exact ⟨q, by simp [whileLoop, hq]⟩
  | cons w ws ih =>
    obtain ⟨start, wordEnd, hnext, hws⟩ := nextWord h0 hp hfuel hwords
    obtain ⟨outer, rfl⟩ : ∃ n, outer = n + 1 := ⟨outer - 1, by omega⟩
    rw [List.length_cons] at houter hmax
    push_cast at hmax
    obtain ⟨q, hq⟩ := ih hnext.inside hws (show ws.length < outer by omega)
      (show 0 ≤ count + 1 by omega) (by omega)
    have hadd : count + 1 + (ws.length : ℤ) = count + (w :: ws).length := by
      rw [List.length_cons]
      push_cast
      ring
    refine ⟨q, ?_⟩
    rw [whileLoop, hnext.countRound, i32_of_lt (by omega) (by omega), ← hadd]
    exact hq

variable (malloc) in
theorem storeRound_leave (hp : p ≤ str.length) (hfuel : str.length < fuel)
    (hwords : words isSpace (str.drop p) = []) (index : ℕ) (argv : List ArgvSlot) (freed : Bool) :
    ∃ q, storeRound malloc str fuel ⟨p, index, argv, freed⟩ =
      some (.leave ⟨q, index, argv, freed⟩) := by
  obtain ⟨q, hskip, hq⟩ := noWord hp hfuel hwords
  have hread := charAt_eq hp
  by_cases hend : charAt str p = some 0
  · exact ⟨p, by simp [storeRound, hend]⟩
  · rw [hread, Option.some.injEq] at hend
    exact ⟨q, by simp only [storeRound, hread, hskip, hq, Option.bind_eq_bind, Option.bind_some,
      if_neg hend, if_true, Option.pure_def]⟩

/-- What a round of the second pass does with the next word. -/
theorem NextWord.storeRound {start wordEnd : ℕ} (h : NextWord str fuel p w start wordEnd)
    (index : ℕ) (argv : List ArgvSlot) (freed : Bool) :
    storeRound malloc str fuel ⟨p, index, argv, freed⟩ =
      if malloc (u64 (i32 (i32 w.length + 1))) = false then
        some (.leave ⟨start, index, argv, true⟩)
      else if i32 w.length < 0 ∨ argv.length ≤ index then none
      else
        some (.again ⟨wordEnd, index + 1,
          argv.set index (.token ((str.drop start).take (i32 w.length).toNat)), freed⟩) := by
  obtain ⟨c, hc, hc0⟩ := h.here
  obtain ⟨d, hd, hd0⟩ := h.there
  have hlen : (wordEnd : ℤ) - start = w.length := by
    have hlength := h.length
    omega
  simp [LdacsSdk.storeRound, hc, hc0, hd, hd0, h.spaces, h.word, hlen]

/-- The number of bytes a token is allocated with. -/
theorem tokenBytes {n : ℕ} (h : n + 1 < 2 ^ 31) : u64 (i32 (i32 n + 1)) = n + 1 := by
  have hnat : i32 (n : ℤ) = n := i32_of_lt (by omega) (by omega)
  rw [hnat, i32_of_lt (by omega) (by omega)]
  exact_mod_cast u64_natCast (n := n + 1) (by omega)

theorem NextWord.refused {start wordEnd : ℕ} (h : NextWord str fuel p w start wordEnd)
    (hlen : w.length + 1 < 2 ^ 31) (hmem : malloc (w.length + 1) = false) (index : ℕ)
    (argv : List ArgvSlot) (freed : Bool) :
    LdacsSdk.storeRound malloc str fuel ⟨p, index, argv, freed⟩ =
      some (.leave ⟨start, index, argv, true⟩) := by
  rw [h.storeRound, tokenBytes hlen, if_pos hmem]

theorem NextWord.stored {start wordEnd : ℕ} (h : NextWord str fuel p w start wordEnd)
    (hlen : w.length + 1 < 2 ^ 31) (hmem : malloc (w.length + 1) = true) (done : List ArgvSlot)
    (room : ℕ) (freed : Bool) :
    LdacsSdk.storeRound malloc str fuel
        ⟨p, done.length, done ++ List.replicate (room + 1) ArgvSlot.unset, freed⟩ =
      some (.again ⟨wordEnd, (done ++ [ArgvSlot.token w]).length,
        done ++ [ArgvSlot.token w] ++ List.replicate room .unset, freed⟩) := by
  have hnat : i32 (w.length : ℤ) = w.length := i32_of_lt (by omega) (by omega)
  have hset : (done ++ List.replicate (room + 1) ArgvSlot.unset).set done.length (.token w) =
      done ++ [ArgvSlot.token w] ++ List.replicate room .unset := by
    simp [List.replicate_succ]
  have hroom : ¬ ((w.length : ℤ) < 0 ∨
      (done ++ List.replicate (room + 1) ArgvSlot.unset).length ≤ done.length) := by
    simp
  rw [h.storeRound, tokenBytes hlen, hmem, hnat, if_neg (by decide),
    if_neg hroom, Int.toNat_natCast, h.token, hset, List.length_append, List.length_singleton]

/-- The second pass stores the words behind what is already there. -/
theorem storePass (h0 : 0 ∉ str) (hfuel : str.length < fuel) {outer : ℕ} (done : List ArgvSlot)
    (room : ℕ) (hp : p ≤ str.length) (hwords : words isSpace (str.drop p) = ws)
    (houter : ws.length < outer)
    (hserved : ∀ w ∈ ws, w.length + 1 < 2 ^ 31 ∧ malloc (w.length + 1) = true) :
    ∃ q, whileLoop (storeRound malloc str fuel) outer
        ⟨p, done.length, done ++ List.replicate (ws.length + room) .unset, false⟩ =
      some ⟨q, (done ++ ws.map ArgvSlot.token).length,
        done ++ ws.map ArgvSlot.token ++ List.replicate room .unset, false⟩ := by
  induction ws generalizing p outer done with
  | nil =>
    obtain ⟨q, hq⟩ := storeRound_leave malloc hp hfuel hwords done.length
      (done ++ List.replicate room .unset) false
    obtain ⟨outer, rfl⟩ : ∃ n, outer = n + 1 := ⟨outer - 1, by omega⟩
    exact ⟨q, by simp [whileLoop, hq]⟩
  | cons w ws ih =>
    obtain ⟨start, wordEnd, hnext, hws⟩ := nextWord h0 hp hfuel hwords
    obtain ⟨outer, rfl⟩ : ∃ n, outer = n + 1 := ⟨outer - 1, by omega⟩
    obtain ⟨hlen, hmem⟩ := hserved w List.mem_cons_self
    obtain ⟨q, hq⟩ := ih (done ++ [ArgvSlot.token w]) hnext.inside hws
      (Nat.lt_of_succ_lt_succ houter) fun w' hw' => hserved w' (List.mem_cons_of_mem _ hw')
    refine ⟨q, ?_⟩
    rw [List.length_cons, Nat.add_right_comm, whileLoop, hnext.stored hlen hmem]
    simpa using hq

/-- A refused token ends the second pass, and the array is given back. -/
theorem storePass_refused (h0 : 0 ∉ str) (hfuel : str.length < fuel) {outer : ℕ}
    (done : List ArgvSlot) (room : ℕ) (hp : p ≤ str.length)
    (hwords : words isSpace (str.drop p) = ws) (houter : ws.length < outer)
    (hlen : ∀ w ∈ ws, w.length + 1 < 2 ^ 31)
    (hrefused : ∃ w ∈ ws, malloc (w.length + 1) = false) :
    ∃ s, whileLoop (storeRound malloc str fuel) outer
        ⟨p, done.length, done ++ List.replicate (ws.length + room) .unset, false⟩ = some s ∧
      s.freed = true := by
  induction ws generalizing p outer done with
  | nil => simp at hrefused
  | cons w ws ih =>
    obtain ⟨start, wordEnd, hnext, hws⟩ := nextWord h0 hp hfuel hwords
    obtain ⟨outer, rfl⟩ : ∃ n, outer = n + 1 := ⟨outer - 1, by omega⟩
    have hw := hlen w List.mem_cons_self
    cases hmem : malloc (w.length + 1) with
    | false => exact ⟨_, by rw [whileLoop, hnext.refused hw hmem], rfl⟩
    | true =>
      have hrest : ∃ w ∈ ws, malloc (w.length + 1) = false := by
        obtain ⟨w', hw', hmem'⟩ := hrefused
        rcases List.mem_cons.mp hw' with rfl | htail
        · rw [hmem] at hmem'
          cases hmem'
        · exact ⟨w', htail, hmem'⟩
      obtain ⟨s, hs, hfreed⟩ := ih (done ++ [ArgvSlot.token w]) hnext.inside hws
        (Nat.lt_of_succ_lt_succ houter) (fun w' hw' => hlen w' (List.mem_cons_of_mem _ hw')) hrest
      refine ⟨s, ?_, hfreed⟩
      rw [List.length_cons, Nat.add_right_comm, whileLoop, hnext.stored hw hmem]
      simpa using hs

theorem arrayBytes {n : ℕ} (h : n + 1 < 2 ^ 31) : u64 (8 * u64 (i32 (n + 1))) = 8 * (n + 1) := by
  have hcount : u64 (i32 ((n : ℤ) + 1)) = n + 1 := by
    rw [i32_of_lt (by omega) (by omega)]
    exact_mod_cast u64_natCast (n := n + 1) (by omega)
  rw [hcount]
  exact_mod_cast u64_natCast (n := 8 * (n + 1)) (by omega)

/-- What a call returns for the words of its string: all of them behind each other and NULL, or
nothing if one of the requests is refused. -/
def splitResult (malloc : ℕ → Bool) (ws : List (List UInt8)) : ℤ × Argv :=
  if malloc (8 * (ws.length + 1)) = false then (0, .null)
  else if ∃ w ∈ ws, malloc (w.length + 1) = false then (0, .freed)
  else (ws.length, .vector (ws.map .token ++ [.null]))

/-- A call returns the words of the string, as many as it has counted, without a read behind the
terminator or a store outside of the array. -/
theorem ldSplit_spec (malloc : ℕ → Bool) (h0 : 0 ∉ str)
    (hcount : (words isSpace str).length + 1 < 2 ^ 31)
    (hlen : ∀ w ∈ words isSpace str, w.length + 1 < 2 ^ 31) :
    ∃ fuel, ∀ k, ldSplit (fuel + k) malloc str = some (splitResult malloc (words isSpace str)) := by
  obtain ⟨ws, hws⟩ : ∃ ws, words isSpace str = ws := ⟨_, rfl⟩
  rw [hws] at hcount hlen ⊢
  refine ⟨str.length + ws.length + 1, fun k => ?_⟩
  have hfuel : str.length < str.length + ws.length + 1 + k := by omega
  have houter : ws.length < str.length + ws.length + 1 + k := by omega
  obtain ⟨q, hq⟩ := countPass h0 hfuel (Nat.zero_le _) hws houter le_rfl (by omega)
  rw [zero_add] at hq
  simp only [ldSplit, hq, Option.bind_eq_bind, Option.bind_some, arrayBytes hcount, splitResult]
  split_ifs with harray hrefused
  · rfl
  · obtain ⟨s, hs, hfreed⟩ := storePass_refused h0 hfuel [] 1 (Nat.zero_le _)
      hws houter hlen hrefused
    rw [List.nil_append, List.length_nil] at hs
    simp [hs, hfreed]
  · have hserved : ∀ w ∈ ws, w.length + 1 < 2 ^ 31 ∧ malloc (w.length + 1) = true := by
      intro w hw
      refine ⟨hlen w hw, ?_⟩
      by_contra hmem
      exact hrefused ⟨w, hw, by simpa using hmem⟩
    obtain ⟨r, hr⟩ := storePass h0 hfuel [] 1 (Nat.zero_le _) hws houter hserved
    rw [List.nil_append, List.length_nil] at hr
    simp [hr]

theorem ldSplit_spec_two :
    ∃ fuel, ∀ k, ldSplit (fuel + k) (fun _ => true) [32, 104, 105, 32, 32, 121, 32] =
      some (2, .vector [.token [104, 105], .token [121], .null]) := by
  have hresult : splitResult (fun _ => true) (words isSpace [32, 104, 105, 32, 32, 121, 32]) =
      (2, .vector [.token [104, 105], .token [121], .null]) := by decide
  rw [← hresult]
  exact ldSplit_spec (fun _ => true) (by decide) (by decide) (by decide)

/-- A word whose length is stored as a number of bytes that is refused. -/
theorem ldSplit_refused (h0 : 0 ∉ w) (hspace : ∀ c ∈ w, isSpace c = false) (hne : w ≠ [])
    (harray : malloc 16 = true) (hrefused : malloc (u64 (i32 (i32 w.length + 1))) = false) :
    ∃ fuel, ∀ k, ldSplit (fuel + k) malloc w = some (0, .freed) := by
  have hwords : words isSpace (w.drop 0) = [w] := words_eq_singleton hspace hne
  refine ⟨w.length + 2, fun k => ?_⟩
  have hfuel : w.length < w.length + 2 + k := by omega
  obtain ⟨q, hq⟩ := countPass h0 hfuel (Nat.zero_le _) hwords
    (show 1 < w.length + 2 + k by omega) le_rfl (by rw [List.length_singleton]; decide)
  obtain ⟨start, wordEnd, hnext, -⟩ := nextWord h0 (Nat.zero_le _) hfuel hwords
  have hbytes : u64 (8 * u64 (i32 (((0 : ℤ) + ([w] : List (List UInt8)).length) + 1))) = 16 := by
    rw [List.length_singleton]
    decide
  obtain ⟨fuel, hfuel'⟩ : ∃ n, w.length + 2 + k = n + 1 := ⟨w.length + 1 + k, by omega⟩
  simp only [ldSplit, hq, Option.bind_eq_bind, Option.bind_some, hbytes, harray]
  rw [hfuel'] at hnext ⊢
  simp [whileLoop, hnext.storeRound, hrefused]

/-- One word of 2 ^ 31 characters, with every request below 2 ^ 63 bytes served: its length is
stored as a negative number, and the call returns no word. -/
theorem ldSplit_long_word :
    words isSpace (List.replicate (2 ^ 31) 97) = [List.replicate (2 ^ 31) 97] ∧
      ∃ fuel, ∀ k, ldSplit (fuel + k) (fun bytes => decide (bytes < 2 ^ 63))
        (List.replicate (2 ^ 31) 97) = some (0, .freed) := by
  have hspace : ∀ c ∈ List.replicate (2 ^ 31) (97 : UInt8), isSpace c = false := by
    intro c hc
    rw [List.eq_of_mem_replicate hc]
    rfl
  have h0 : (0 : UInt8) ∉ List.replicate (2 ^ 31) 97 := by
    intro h
    exact absurd (List.eq_of_mem_replicate h) (by decide)
  have hne : List.replicate (2 ^ 31) (97 : UInt8) ≠ [] := by
    rw [Ne, List.replicate_eq_nil_iff]
    decide
  refine ⟨words_eq_singleton hspace hne, ldSplit_refused h0 hspace hne (by decide) ?_⟩
  rw [List.length_replicate]
  decide

end LdacsSdk
