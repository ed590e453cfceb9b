import LdacsSdk.Queue.MqueueSteps

/-!
# Interleavings of the lock-free linked queue

No call goes through a pointer that is not to a node. Items leave the queue in the order in which
they became part of it, each once, and `NULL` is returned only if the queue was empty at a moment
of the call.
-/
namespace LdacsSdk

open Library

variable {α : Type} {s t : LfqueueRun α} {q : Lfqueue α} {c c' : LfqueueCall α} {i : ℕ}

namespace LfqueueRun.Sound

/-! ### The steps of a call -/

/-- A call that reads what is behind the node it took for the head. -/
theorem readNext (h : s.Sound) {head tail : ℕ} (hc : s.Knows (.readNext head tail)) :
    ∃ node first, s.q.nodes[head]? = some node ∧ s.q.nodes[s.q.head]? = some first ∧
      s.Knows (.compare head tail node.next first.next.isNone) := by
  obtain ⟨i, hi, hhead, j, hj, hij, htail⟩ := hc
  obtain ⟨node, hnode⟩ := h.node (List.mem_of_getElem? hhead)
  obtain ⟨first, hfirst⟩ := h.node (List.mem_of_getElem? h.head)
  have hnext : node.next = s.order[i + 1]? := by
    rw [← h.chain.link i head hhead, Lfqueue.next, hnode]
    rfl
  refine ⟨node, first, hnode, hfirst, i, hi, hhead, ⟨j, hj, hij, htail⟩, ?_, ?_⟩
  · intro hnone
    -- Nothing is behind the node, so the head, which is not before it, is there too.
    rw [hnext, List.getElem?_eq_none_iff] at hnone
    have hserved := h.served_lt
    have hjlt := (List.getElem?_eq_some_iff.mp hj).1
    have hsame : i = s.served.length := by omega
    subst hsame
    have hij' : j = s.served.length := by omega
    subst hij'
    have hends : s.q.head = head := Option.some.inj (h.head.symm.trans hhead)
    rw [hends, hnode] at hfirst
    obtain rfl := Option.some.inj hfirst
    refine ⟨?_, Option.some.inj (hhead.symm.trans hj)⟩
    rw [hnext, List.getElem?_eq_none hnone]
    rfl
  · intro a ha
    rw [← hnext, ha]

/-- A call that has a node of the queue finds its item there. -/
theorem readValue (h : s.Sound) {a : ℕ} (ha : a ∈ s.linked.map Prod.fst) :
    ∃ node v, s.q.nodes[a]? = some node ∧ node.value = some v ∧ (a, v) ∈ s.linked := by
  obtain ⟨v, hv⟩ := h.mem_linked ha
  obtain ⟨node, hnode⟩ := h.node (List.mem_cons_of_mem 0 ha)
  refine ⟨node, v, hnode, ?_, hv⟩
  have hvalue := h.value a v hv
  rwa [Lfqueue.value, hnode] at hvalue

/-- A call that has compared what it read. -/
theorem compared {head tail : ℕ} {next : Option ℕ} {empty : Bool}
    (hc : s.Knows (.compare head tail next empty)) :
    (head = tail → next = none → s.Knows (.gotNull empty)) ∧
      (head = tail → ∀ a, next = some a → s.Knows (.helpTail tail a)) ∧
      (head ≠ tail → s.Knows (.moveHead head next)) := by
  obtain ⟨i, hi, hpos, ⟨j, hj, hij, htail⟩, hnone, hsome⟩ := hc
  refine ⟨fun _ hn => (hnone hn).1, ?_, ?_⟩
  · rintro rfl a ha
    exact ⟨i, hpos, hsome a ha⟩
  · intro hne
    cases hnext : next with
    | none => exact absurd (hnone hnext).2 hne
    | some a =>
      have hlt : i < j := by
        rcases Nat.lt_or_eq_of_le hij with hlt | rfl
        · exact hlt
        · exact absurd (Option.some.inj (hpos.symm.trans hj)) hne
      exact ⟨i, a, hpos, rfl, hsome a hnext, htail.mono hlt⟩

theorem u64_add_one (n : ℕ) : u64 ((n : ℤ) + 1) ≡ n + 1 [MOD 2 ^ 64] := by
  unfold u64 Nat.ModEq
  omega

theorem u64_sub_one (n : ℕ) : u64 ((n : ℤ) - 1) + 1 ≡ n [MOD 2 ^ 64] := by
  unfold u64 Nat.ModEq
  omega

/-- Every call that has not returned can take its next step. -/
theorem advance (h : s.Sound) (hi : s.calls[i]? = some c) (hc : c.inside = true) :
    ∃ t, lfqueueStep s (.advance i) = some t ∧ t.Sound := by
  have hknows := h.knows c (List.mem_of_getElem? hi)
  have hlook : ∀ c' : LfqueueCall α, lfqueueCallStep s.q c = some (s.q, c', {}) →
      c.moves = none → SameWeights c c' → s.Knows c' →
        ∃ t, lfqueueStep s (.advance i) = some t ∧ t.Sound := by
    intro c' hstep hmoves hw hc'
    refine ⟨_, ?_, h.look hi hmoves hw hc'⟩
    simp [lfqueueStep, hi, hstep]
  cases c with
  | malloc v granted =>
    cases granted with
    | true =>
      refine ⟨_, ?_, h.malloc hi⟩
      simp [lfqueueStep, hi, lfqueueCallStep]
    | false => exact hlook (.put v false) rfl rfl ⟨rfl, rfl, rfl, rfl, rfl⟩ trivial
  | readTail v node =>
    obtain ⟨k, hk, -⟩ := h.tail
    exact hlook _ rfl rfl ⟨rfl, rfl, rfl, rfl, rfl⟩ ⟨k, hk, k, hk, le_rfl⟩
  | linkNode v node tail =>
    obtain ⟨k, hk, htail⟩ := hknows
    obtain ⟨last, hlast⟩ := h.node (List.mem_of_getElem? hk)
    cases hnext : last.next with
    | none =>
      refine ⟨_, ?_, h.link hi hlast hnext⟩
      simp [lfqueueStep, hi, lfqueueCallStep, hlast, hnext]
    | some a =>
      apply hlook (.readTail v node) ?_ rfl ⟨rfl, rfl, rfl, rfl, rfl⟩ trivial
      simp [lfqueueCallStep, hlast, hnext]
  | moveTail v node tail =>
    obtain ⟨j, hj, hnext⟩ := hknows
    have hmoves : ∀ d, (LfqueueCall.moveTail v node tail).moves = some d → d = tail :=
      fun d hd => (Option.some.inj hd).symm
    refine ⟨_, ?_, h.moveTail (.addSize v) hi hmoves ⟨rfl, rfl, rfl, rfl, rfl⟩ hj hnext
      fun _ _ => trivial⟩
    simp [lfqueueStep, hi, lfqueueCallStep]
  | addSize v =>
    have hsize : u64 ((s.q.size : ℤ) + 1) + 0 + 0 ≡ s.q.size + 0 + 1 [MOD 2 ^ 64] :=
      u64_add_one _
    refine ⟨_, ?_, h.resize (.put v true) hi rfl rfl rfl rfl (u64_lt _) hsize fun _ _ => trivial⟩
    simp [lfqueueStep, hi, lfqueueCallStep]
  | put v ok => cases hc
  | readHead => exact hlook _ rfl rfl ⟨rfl, rfl, rfl, rfl, rfl⟩ ⟨_, le_rfl, h.head⟩
  | readTailAfter head =>
    obtain ⟨j, hj, hhead⟩ := hknows
    obtain ⟨k, hk, hle⟩ := h.tail
    exact hlook _ rfl rfl ⟨rfl, rfl, rfl, rfl, rfl⟩
      ⟨j, hj, hhead, k, hk, hj.trans hle, k, hk, le_rfl⟩
  | readNext head tail =>
    obtain ⟨node, first, hnode, hfirst, hknows'⟩ := h.readNext hknows
    apply hlook (.compare head tail node.next first.next.isNone) ?_ rfl ⟨rfl, rfl, rfl, rfl, rfl⟩
      hknows'
    simp [lfqueueCallStep, hnode, hfirst]
  | compare head tail next empty =>
    obtain ⟨hnull, hhelp, hmove⟩ := compared hknows
    by_cases hhead : head = s.q.head
    · by_cases htail : head = tail
      · cases next with
        | none =>
          apply hlook (.gotNull empty) ?_ rfl ⟨rfl, rfl, rfl, rfl, rfl⟩ (hnull htail rfl)
          simp [lfqueueCallStep, ← hhead, ← htail]
        | some a =>
          apply hlook (.helpTail tail a) ?_ rfl ⟨rfl, rfl, rfl, rfl, rfl⟩ (hhelp htail a rfl)
          simp [lfqueueCallStep, ← hhead, ← htail]
      · apply hlook (.moveHead head next) ?_ rfl ⟨rfl, rfl, rfl, rfl, rfl⟩ (hmove htail)
        simp [lfqueueCallStep, ← hhead, htail]
    · apply hlook .readHead ?_ rfl ⟨rfl, rfl, rfl, rfl, rfl⟩ trivial
      simp [lfqueueCallStep, hhead]
  | helpTail tail next =>
    obtain ⟨j, hj, hnext⟩ := hknows
    have hmoves : ∀ d, (LfqueueCall.helpTail (α := α) tail next).moves = some d → d = tail :=
      fun d hd => by cases hd
    refine ⟨_, ?_, h.moveTail .readHead hi hmoves ⟨rfl, rfl, rfl, rfl, rfl⟩ hj hnext
      fun _ _ => trivial⟩
    simp [lfqueueStep, hi, lfqueueCallStep]
  | moveHead head next =>
    by_cases hhead : s.q.head = head
    · subst hhead
      obtain ⟨k, a, -, rfl, -, -⟩ := hknows
      refine ⟨_, ?_, h.moveHead hi⟩
      simp [lfqueueStep, hi, lfqueueCallStep]
    · apply hlook .readHead ?_ rfl ⟨rfl, rfl, rfl, rfl, rfl⟩ trivial
      simp [lfqueueCallStep, hhead]
  | readValue next =>
    obtain ⟨node, v, hnode, hvalue, hv⟩ := h.readValue hknows
    apply hlook (.subSize v next) ?_ rfl ⟨rfl, rfl, rfl, rfl, rfl⟩ hv
    simp [lfqueueCallStep, hnode, hvalue]
  | subSize v node =>
    have hsize : u64 ((s.q.size : ℤ) - 1) + 1 + 0 ≡ s.q.size + 0 + 0 [MOD 2 ^ 64] :=
      u64_sub_one _
    refine ⟨_, ?_, h.resize (.got v node) hi rfl rfl rfl rfl (u64_lt _) hsize
      fun t ht => ht.linked.subset hknows⟩
    simp [lfqueueStep, hi, lfqueueCallStep]
  | got v node => cases hc
  | gotNull empty => cases hc

/-- A new call. -/
theorem call (h : s.Sound) (hfresh : c.fresh = 0) (htook : c.took = 0) (hgave : c.gave = 0)
    (huncounted : c.uncounted = 0) (hover : c.overcounted = 0)
    (hknows : s.Knows c) : ({ s with calls := s.calls ++ [c] } : LfqueueRun α).Sound :=
  { h with
    fresh := by
      simp only [tally_append, hfresh, add_zero]
      exact h.fresh
    distinct := by
      simp only [tally_append, hfresh, add_zero]
      exact h.distinct
    lag := by
      rcases h.lag with htail | ⟨d, hd, htail⟩
      · exact Or.inl htail
      · exact Or.inr ⟨d, List.mem_append_left _ hd, htail⟩
    knows := by
      intro d hd
      rcases List.mem_append.mp hd with hold | hnew
      · exact (later_calls s _).knows (h.knows d hold)
      · rw [List.mem_singleton.mp hnew]
        exact (later_calls s _).knows hknows
    took := by
      simp only [tally_append, htook, add_zero]
      exact h.took
    gave := by
      simp only [tally_append, hgave, add_zero]
      exact h.gave
    size := by
      simp only [tally_append, huncounted, hover, add_zero]
      exact h.size }

theorem step (h : s.Sound) (op : LfqueueOp α) (hop : s.Admits op) :
    ∃ t, lfqueueStep s op = some t ∧ t.Sound := by
  cases op with
  | put v granted => exact ⟨_, rfl, h.call rfl rfl rfl rfl rfl trivial⟩
  | deq => exact ⟨_, rfl, h.call rfl rfl rfl rfl rfl trivial⟩
  | advance i =>
    obtain ⟨c, hi, hc⟩ := hop
    exact h.advance hi hc

end LfqueueRun.Sound

/-- No call is in its course. -/
def LfqueueRun.Quiet (s : LfqueueRun α) : Prop := ∀ c ∈ s.calls, c.inside = false

end LdacsSdk
