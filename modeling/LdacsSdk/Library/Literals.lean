import Mathlib.Tactic

/-!
# Quoted literals

A text is read as single characters and literals between quotes. In a literal two quotes stand
for one, so a quote ends it only when no other follows. Whether a text written between quotes is
read back as one literal depends on the quotes in it and in front of it.
-/
namespace LdacsSdk.Library

/-- What a text consists of. -/
inductive Token (α : Type*) where
  | char (c : α)
  | literal (value : List α)
  | unterminated (value : List α)
  deriving DecidableEq, Repr

/-- Where the reader stands: outside of literals, in one, or behind a quote in one, which is its
end or the first of two. -/
inductive Reading (α : Type*) where
  | outside
  | inside (value : List α)
  | atQuote (value : List α)
  deriving DecidableEq, Repr

variable {α : Type*} [DecidableEq α] {q c : α} {st : Reading α} {s l pre post value : List α}

/-- The tokens of what is still to be read. -/
def tokens (q : α) : Reading α → List α → List (Token α)
  | .outside, [] => []
  | .inside value, [] => [.unterminated value]
  | .atQuote value, [] => [.literal value]
  | .outside, c :: l =>
    if c = q then tokens q (.inside []) l else .char c :: tokens q .outside l
  | .inside value, c :: l =>
    if c = q then tokens q (.atQuote value) l else tokens q (.inside (value ++ [c])) l
  | .atQuote value, c :: l =>
    if c = q then tokens q (.inside (value ++ [q])) l
    else .literal value :: .char c :: tokens q .outside l

/-- Where the reader stands after one character. -/
def Reading.next (q : α) (st : Reading α) (c : α) : Reading α :=
  match st with
  | .outside => if c = q then .inside [] else .outside
  | .inside value => if c = q then .atQuote value else .inside (value ++ [c])
  | .atQuote value => if c = q then .inside (value ++ [q]) else .outside

/-- Where the reader stands after a text. -/
def Reading.after (q : α) (st : Reading α) (l : List α) : Reading α := l.foldl (Reading.next q) st

/-- The reader is in a literal. -/
def Reading.IsInside : Reading α → Prop
  | .inside _ => True
  | _ => False

/-- A text between quotes. -/
def quoted (q : α) (s : List α) : List α := q :: s ++ [q]

/-- Between `pre` and `post` a text is read as one literal with this text as its value. -/
def OneLiteral (q : α) (pre s post : List α) : Prop :=
  tokens q .outside (pre ++ quoted q s ++ post) =
    tokens q .outside pre ++ .literal s :: tokens q .outside post

instance : Decidable (OneLiteral q pre s post) := inferInstanceAs (Decidable (_ = _))

/-! ### Where the reader stands -/

theorem Reading.after_append (st : Reading α) (pre post : List α) :
    st.after q (pre ++ post) = (st.after q pre).after q post := List.foldl_append

theorem Reading.isInside_next : (st.next q c).IsInside ↔ (c = q ↔ ¬st.IsInside) := by
  cases st <;> by_cases hc : c = q <;> simp [Reading.next, hc, Reading.IsInside]

/-- Every quote takes the reader into a literal or out of it. -/
theorem Reading.isInside_after (st : Reading α) (l : List α) :
    (st.after q l).IsInside ↔ (st.IsInside ↔ Even (l.count q)) := by
  induction l generalizing st with
  | nil => simp [Reading.after]
  | cons c l ih =>
    change ((st.next q c).after q l).IsInside ↔ _
    rw [ih, Reading.isInside_next]
    by_cases hc : c = q
    · subst hc
      rw [List.count_cons_self, Nat.even_add_one]
      tauto
    · rw [List.count_cons_of_ne hc]
      simp [hc]

/-- Behind a character that is no quote the reader is outside or in a literal. -/
theorem Reading.after_concat (hc : c ≠ q) :
    Reading.after q .outside (l ++ [c]) = .outside ∨
      ∃ value, Reading.after q .outside (l ++ [c]) = .inside value := by
  rw [Reading.after_append]
  change (Reading.after q .outside l).next q c = .outside ∨
    ∃ value, (Reading.after q .outside l).next q c = .inside value
  cases Reading.after q .outside l <;> simp [Reading.next, hc]

/-! ### The tokens of a text in two parts -/

theorem tokens_append (h : st.after q pre = .outside) :
    tokens q st (pre ++ post) = tokens q st pre ++ tokens q .outside post := by
  induction pre generalizing st with
  | nil =>
    obtain rfl : st = .outside := h
    rfl
  | cons c pre ih =>
    have hnext : (st.next q c).after q pre = .outside := h
    cases st <;> simp only [Reading.next, List.cons_append, tokens] at hnext ⊢ <;>
      split_ifs at hnext ⊢ <;> simp [ih hnext]

/-- In a literal the text ends with one that is unterminated. -/
theorem tokens_inside (h : st.after q l = .inside value) :
    ∃ ts, tokens q st l = ts ++ [.unterminated value] := by
  induction l generalizing st with
  | nil =>
    obtain rfl : st = .inside value := h
    exact ⟨[], rfl⟩
  | cons c l ih =>
    obtain ⟨ts, hts⟩ := ih (show (st.next q c).after q l = .inside value from h)
    cases st <;> simp only [Reading.next, tokens] at hts ⊢ <;> split_ifs at hts ⊢
    · exact ⟨ts, hts⟩
    · exact ⟨_ :: ts, by rw [hts]; rfl⟩
    · exact ⟨ts, hts⟩
    · exact ⟨ts, hts⟩
    · exact ⟨ts, hts⟩
    · exact ⟨_ :: _ :: ts, by rw [hts]; rfl⟩

/-- Nothing comes behind an unterminated literal. -/
theorem tokens_pairwise (st : Reading α) (l : List α) :
    (tokens q st l).Pairwise fun t _ => ∀ value, t ≠ .unterminated value := by
  induction l generalizing st with
  | nil => cases st <;> simp [tokens]
  | cons c l ih => cases st <;> simp only [tokens] <;> split_ifs <;> simp [ih]

/-! ### Lengths -/

/-- The characters that a token takes in the text. -/
def Token.width (q : α) : Token α → ℕ
  | .char _ => 1
  | .literal value => value.length + value.count q + 2
  | .unterminated value => value.length + value.count q + 1

/-- The characters of the current literal that were read. -/
def Reading.width (q : α) : Reading α → ℕ
  | .outside => 0
  | .inside value => value.length + value.count q + 1
  | .atQuote value => value.length + value.count q + 2

theorem tokens_width (st : Reading α) (l : List α) :
    ((tokens q st l).map (Token.width q)).sum = st.width q + l.length := by
  induction l generalizing st with
  | nil => cases st <;> simp [tokens, Token.width, Reading.width]
  | cons c l ih =>
    cases st <;> simp only [tokens] <;> split_ifs with hc <;>
      simp [ih, Token.width, Reading.width, hc, List.count_append] <;> omega

/-! ### One literal -/

theorem tokens_quoted_inside (hs : q ∉ s) (value : List α) :
    tokens q (.inside value) (s ++ q :: post) = tokens q (.atQuote (value ++ s)) post := by
  induction s generalizing value with
  | nil => simp [tokens]
  | cons c s ih =>
    obtain ⟨hc, hs⟩ := not_or.mp (List.mem_cons.not.mp hs)
    rw [List.cons_append, tokens, if_neg (Ne.symm hc), ih hs, List.append_assoc]
    rfl

/-- A text without quotes between two of them. -/
theorem tokens_quoted (hs : q ∉ s) (hpost : ∀ c ∈ post.head?, c ≠ q) :
    tokens q .outside (quoted q s ++ post) = .literal s :: tokens q .outside post := by
  have hopen : quoted q s ++ post = q :: (s ++ q :: post) := by simp [quoted]
  rw [hopen, tokens, if_pos rfl, tokens_quoted_inside hs]
  cases post with
  | nil => rfl
  | cons c post =>
    have hc := hpost c rfl
    simp [tokens, hc]

/-- A text between quotes that is read as one literal has no quote in it. -/
theorem not_mem_of_tokens_quoted
    (h : tokens q .outside (quoted q s ++ post) = .literal s :: tokens q .outside post) :
    q ∉ s := by
  have hwidth := congrArg (fun ts => (ts.map (Token.width q)).sum) h
  simp only [List.map_cons, List.sum_cons, tokens_width, Reading.width, Token.width, quoted,
    List.length_append, List.length_cons, List.length_nil] at hwidth
  exact List.count_eq_zero.mp (by omega)

/-- A text between quotes by itself. -/
theorem tokens_quoted_iff : tokens q .outside (quoted q s) = [.literal s] ↔ q ∉ s := by
  have hnil : quoted q s = quoted q s ++ [] := (List.append_nil _).symm
  rw [hnil]
  constructor
  · intro h
    exact not_mem_of_tokens_quoted h
  · intro hs
    exact tokens_quoted hs (by simp)

/-- **One literal.** Behind a character that is no quote and in front of another one, a text
between quotes is read as one literal exactly if there is no quote in it and evenly many are in
front of it. -/
theorem oneLiteral_iff (hpre : ∃ l c, pre = l ++ [c] ∧ c ≠ q) (hpost : ∀ c ∈ post.head?, c ≠ q) :
    OneLiteral q pre s post ↔ q ∉ s ∧ Even (pre.count q) := by
  have hinside := Reading.isInside_after (q := q) .outside pre
  obtain ⟨l, c, rfl, hc⟩ := hpre
  unfold OneLiteral
  rw [List.append_assoc]
  rcases Reading.after_concat (l := l) hc with hout | ⟨value, hin⟩
  · have heven : Even ((l ++ [c]).count q) := by
      rw [hout] at hinside
      simpa [Reading.IsInside] using hinside
    rw [tokens_append hout, List.append_cancel_left_eq]
    constructor
    · intro h
      exact ⟨not_mem_of_tokens_quoted h, heven⟩
    · rintro ⟨hs, -⟩
      exact tokens_quoted hs hpost
  · have hodd : ¬Even ((l ++ [c]).count q) := by
      rw [hin] at hinside
      simpa [Reading.IsInside] using hinside
    constructor
    · intro h
      -- the literal would stand behind an unterminated one
      obtain ⟨ts, hts⟩ := tokens_inside hin
      have hlast := tokens_pairwise (q := q) .outside (l ++ [c] ++ (quoted q s ++ post))
      rw [h, hts, List.append_assoc] at hlast
      have hbehind := (List.pairwise_append.mp hlast).2.1
      exact absurd rfl ((List.pairwise_cons.mp hbehind).1 (.literal s) (by simp) value)
    · rintro ⟨-, heven⟩
      exact absurd heven hodd

end LdacsSdk.Library
