import LdacsSdk.Queue.Mqueue
import LdacsSdk.Library.GrowingChain

/-!
# The invariant of the lock-free linked queue

The nodes of the queue are a chain that grows at its end, and head and tail are positions in it
that only move on, the head never past the tail. What a call has read keeps its place in the
chain, whatever the other calls do.
-/
namespace LdacsSdk

open Library

variable {α : Type} {s t : LfqueueRun α} {q : Lfqueue α} {c c' : LfqueueCall α} {i : ℕ}

/-! ### What the queue and its calls have -/

/-- The link of a node. -/
def Lfqueue.next (q : Lfqueue α) (a : ℕ) : Option ℕ := q.nodes[a]?.bind CasNode.next

/-- The item of a node. -/
def Lfqueue.value (q : Lfqueue α) (a : ℕ) : Option α := q.nodes[a]?.bind CasNode.value

/-- The nodes of the queue since its start, from the one without an item on. -/
def LfqueueRun.order (s : LfqueueRun α) : List ℕ := 0 :: s.linked.map Prod.fst

/-- The node that a call has allocated and not linked, with its item. -/
def LfqueueCall.fresh : LfqueueCall α → Multiset (ℕ × α)
  | .readTail v node => {(node, v)}
  | .linkNode v node _ => {(node, v)}
  | _ => 0

/-- The item that a call has put into the queue. -/
def LfqueueCall.gave : LfqueueCall α → Multiset α
  | .moveTail v _ _ => {v}
  | .addSize v => {v}
  | .put v true => {v}
  | _ => 0

/-- The node whose item a call has got. -/
def LfqueueCall.took : LfqueueCall α → Multiset ℕ
  | .readValue node => {node}
  | .subSize _ node => {node}
  | .got _ node => {node}
  | _ => 0

/-- The calls whose item is in the queue and not in its size. -/
def LfqueueCall.uncounted : LfqueueCall α → ℕ
  | .moveTail _ _ _ => 1
  | .addSize _ => 1
  | _ => 0

/-- The calls whose item has left the queue and is in its size. -/
def LfqueueCall.overcounted : LfqueueCall α → ℕ
  | .readValue _ => 1
  | .subSize _ _ => 1
  | _ => 0

/-- The node at which a call that has linked another behind it expects the tail. -/
def LfqueueCall.moves : LfqueueCall α → Option ℕ
  | .moveTail _ _ tail => some tail
  | _ => none

/-- The tail points to position `j` or behind it. -/
def LfqueueRun.TailFrom (s : LfqueueRun α) (j : ℕ) : Prop :=
  ∃ k, s.order[k]? = some s.q.tail ∧ j ≤ k

theorem LfqueueRun.TailFrom.mono {j k : ℕ} (h : s.TailFrom k) (hjk : j ≤ k) : s.TailFrom j := by
  obtain ⟨m, hm, hkm⟩ := h
  exact ⟨m, hm, hjk.trans hkm⟩

/-- What a call has read, in terms of positions. -/
def LfqueueRun.Knows (s : LfqueueRun α) : LfqueueCall α → Prop
  | .linkNode _ _ tail => ∃ j : ℕ, s.order[j]? = some tail ∧ s.TailFrom j
  | .moveTail _ node tail => ∃ j : ℕ, s.order[j]? = some tail ∧ s.order[j + 1]? = some node
  | .readTailAfter head => ∃ i ≤ s.served.length, s.order[i]? = some head
  | .readNext head tail => ∃ i ≤ s.served.length, s.order[i]? = some head ∧
      ∃ j, s.order[j]? = some tail ∧ i ≤ j ∧ s.TailFrom j
  | .compare head tail next empty => ∃ i ≤ s.served.length, s.order[i]? = some head ∧
      (∃ j, s.order[j]? = some tail ∧ i ≤ j ∧ s.TailFrom j) ∧
      (next = none → empty = true ∧ head = tail) ∧
      ∀ a, next = some a → s.order[i + 1]? = some a
  | .helpTail tail next => ∃ j : ℕ, s.order[j]? = some tail ∧ s.order[j + 1]? = some next
  | .moveHead head next => ∃ i a, s.order[i]? = some head ∧ next = some a ∧
      s.order[i + 1]? = some a ∧ s.TailFrom (i + 1)
  | .readValue next => next ∈ s.linked.map Prod.fst
  | .subSize v node => (node, v) ∈ s.linked
  | .got v node => (node, v) ∈ s.linked
  | .gotNull empty => empty = true
  | _ => True

/-- The invariant of every interleaving. -/
structure LfqueueRun.Sound (s : LfqueueRun α) : Prop where
  chain : GrowingChain s.q.next s.order
  allocated : ∀ a ∈ s.order, a < s.q.nodes.length
  value : ∀ a v, (a, v) ∈ s.linked → s.q.value a = some v
  fresh : ∀ a v, (a, v) ∈ tally LfqueueCall.fresh s.calls → s.q.nodes[a]? = some ⟨some v, none⟩
  distinct : ((s.order : Multiset ℕ) + (tally LfqueueCall.fresh s.calls).map Prod.fst).Nodup
  head : s.order[s.served.length]? = some s.q.head
  tail : s.TailFrom s.served.length
  behind : s.TailFrom (s.order.length - 2)
  lag : s.TailFrom (s.order.length - 1) ∨ ∃ c ∈ s.calls, c.moves = some s.q.tail
  served : s.served = (s.linked.map Prod.fst).take s.served.length
  knows : ∀ c ∈ s.calls, s.Knows c
  took : (s.served : Multiset ℕ) = tally LfqueueCall.took s.calls
  gave : (s.linked.map Prod.snd : Multiset α) = tally LfqueueCall.gave s.calls
  size_lt : s.q.size < 2 ^ 64
  size : s.q.size + s.served.length + tally LfqueueCall.uncounted s.calls ≡
    s.linked.length + tally LfqueueCall.overcounted s.calls [MOD 2 ^ 64]

/-- What only grows in a run. -/
structure LfqueueRun.Later (s t : LfqueueRun α) : Prop where
  linked : s.linked <+: t.linked
  served : s.served.length ≤ t.served.length
  tail : ∀ j, s.TailFrom j → t.TailFrom j

theorem LfqueueRun.Later.order (h : s.Later t) : s.order <+: t.order := by
  obtain ⟨r, hr⟩ := h.linked
  exact ⟨r.map Prod.fst, by simp [LfqueueRun.order, ← hr]⟩

/-- What a call knows stays true. -/
theorem LfqueueRun.Later.knows (h : s.Later t) (hc : s.Knows c) : t.Knows c := by
  have hpos : ∀ k a, s.order[k]? = some a → t.order[k]? = some a := fun k a =>
    getElem?_of_prefix h.order
  have hserved := h.served
  cases c with
  | linkNode v node tail =>
    obtain ⟨j, hj, htail⟩ := hc
    exact ⟨j, hpos _ _ hj, h.tail j htail⟩
  | moveTail v node tail =>
    obtain ⟨j, hj, hnext⟩ := hc
    exact ⟨j, hpos _ _ hj, hpos _ _ hnext⟩
  | readTailAfter head =>
    obtain ⟨i, hi, hhead⟩ := hc
    exact ⟨i, hi.trans hserved, hpos _ _ hhead⟩
  | readNext head tail =>
    obtain ⟨i, hi, hhead, j, hj, hij, htail⟩ := hc
    exact ⟨i, hi.trans hserved, hpos _ _ hhead, j, hpos _ _ hj, hij, h.tail j htail⟩
  | compare head tail next empty =>
    obtain ⟨i, hi, hhead, ⟨j, hj, hij, htail⟩, hnone, hsome⟩ := hc
    exact ⟨i, hi.trans hserved, hpos _ _ hhead, ⟨j, hpos _ _ hj, hij, h.tail j htail⟩, hnone,
      fun a ha => hpos _ _ (hsome a ha)⟩
  | helpTail tail next =>
    obtain ⟨j, hj, hnext⟩ := hc
    exact ⟨j, hpos _ _ hj, hpos _ _ hnext⟩
  | moveHead head next =>
    obtain ⟨i, a, hi, hnext, ha, htail⟩ := hc
    exact ⟨i, a, hpos _ _ hi, hnext, hpos _ _ ha, h.tail _ htail⟩
  | readValue next => exact (h.linked.map Prod.fst).subset hc
  | subSize v node => exact h.linked.subset hc
  | got v node => exact h.linked.subset hc
  | gotNull empty => exact hc
  | malloc v granted => trivial
  | readTail v node => trivial
  | addSize v => trivial
  | put v ok => trivial
  | readHead => trivial

/-! ### The kinds of steps -/

/-- What the weights of a call become is what its step does to the tallies. -/
structure SameWeights (c c' : LfqueueCall α) : Prop where
  fresh : c'.fresh = c.fresh
  took : c'.took = c.took
  gave : c'.gave = c.gave
  uncounted : c'.uncounted = c.uncounted
  overcounted : c'.overcounted = c.overcounted

namespace LfqueueRun.Sound

theorem served_lt (h : s.Sound) : s.served.length < s.order.length :=
  (List.getElem?_eq_some_iff.mp h.head).1

theorem order_length (s : LfqueueRun α) : s.order.length = s.linked.length + 1 := by
  simp [order]

/-- A node of the chain is allocated. -/
theorem node (h : s.Sound) {a : ℕ} (ha : a ∈ s.order) : ∃ n, s.q.nodes[a]? = some n :=
  ⟨_, List.getElem?_eq_getElem (h.allocated a ha)⟩

/-- The calls after a step of one of them. -/
theorem knows_set (h : s.Sound) (hlater : s.Later t) (hcalls : t.calls = s.calls.set i c')
    (hc' : t.Knows c') : ∀ c ∈ t.calls, t.Knows c := by
  intro c hc
  rw [hcalls] at hc
  rcases List.mem_or_eq_of_mem_set hc with hold | rfl
  · exact hlater.knows (h.knows c hold)
  · exact hc'

/-- A step of a call that does not expect the tail anywhere leaves those that do. -/
theorem lag_set (h : s.Sound) (hi : s.calls[i]? = some c) (hmoves : c.moves = none) :
    s.TailFrom (s.order.length - 1) ∨ ∃ d ∈ s.calls.set i c', d.moves = some s.q.tail := by
  rcases h.lag with htail | ⟨d, hd, htail⟩
  · exact Or.inl htail
  · right
    obtain ⟨k, hk⟩ := List.getElem?_of_mem hd
    have hne : i ≠ k := by
      rintro rfl
      obtain rfl := Option.some.inj (hi.symm.trans hk)
      rw [hmoves] at htail
      cases htail
    exact ⟨d, List.mem_of_getElem? ((List.getElem?_set_ne hne).trans hk), htail⟩

theorem later_calls (s : LfqueueRun α) (calls : List (LfqueueCall α)) :
    s.Later { s with calls := calls } where
  linked := List.prefix_rfl
  served := le_rfl
  tail := fun _ h => h

/-- A step of a call that leaves the queue alone. -/
theorem look (h : s.Sound) (hi : s.calls[i]? = some c) (hmoves : c.moves = none)
    (hw : SameWeights c c') (hc' : s.Knows c') :
    ({ s with calls := s.calls.set i c' } : LfqueueRun α).Sound :=
  { h with
    fresh := by
      simp only [tally_set_of_eq hi hw.fresh]
      exact h.fresh
    distinct := by
      simp only [tally_set_of_eq hi hw.fresh]
      exact h.distinct
    lag := h.lag_set hi hmoves
    knows := h.knows_set (later_calls s _) rfl hc'
    took := by
      simp only [tally_set_of_eq hi hw.took]
      exact h.took
    gave := by
      simp only [tally_set_of_eq hi hw.gave]
      exact h.gave
    size := by
      simp only [tally_set_of_eq hi hw.uncounted, tally_set_of_eq hi hw.overcounted]
      exact h.size }

/-- A step that moves the tail to the node behind it. -/
theorem moveTail (h : s.Sound) {a b j : ℕ} (c' : LfqueueCall α) (hi : s.calls[i]? = some c)
    (hmoves : ∀ d, c.moves = some d → d = a) (hw : SameWeights c c')
    (ha : s.order[j]? = some a) (hb : s.order[j + 1]? = some b)
    (hc' : ∀ t : LfqueueRun α, s.Later t → t.Knows c') :
    ({ s with
      q := { s.q with tail := if s.q.tail = a then b else s.q.tail }
      calls := s.calls.set i c' } : LfqueueRun α).Sound := by
  have hlater : s.Later { s with
      q := { s.q with tail := if s.q.tail = a then b else s.q.tail }
      calls := s.calls.set i c' } :=
    { linked := List.prefix_rfl
      served := le_rfl
      tail := by
        rintro k ⟨m, hm, hk⟩
        by_cases htail : s.q.tail = a
        · rw [htail] at hm
          obtain rfl := h.chain.position hm ha
          refine ⟨m + 1, ?_, by omega⟩
          simp only [if_pos htail]
          exact hb
        · refine ⟨m, ?_, hk⟩
          simp only [if_neg htail]
          exact hm }
  exact { h with
    fresh := by
      simp only [tally_set_of_eq hi hw.fresh]
      exact h.fresh
    distinct := by
      simp only [tally_set_of_eq hi hw.fresh]
      exact h.distinct
    tail := hlater.tail _ h.tail
    behind := hlater.tail _ h.behind
    lag := by
      by_cases htail : s.q.tail = a
      · -- The tail was one behind at most, and now is not.
        left
        obtain ⟨m, hm, hle⟩ := h.behind
        rw [htail] at hm
        obtain rfl := h.chain.position hm ha
        refine ⟨m + 1, ?_, ?_⟩
        · simp only [if_pos htail]
          exact hb
        · have hle' : s.order.length - 1 ≤ m + 1 := by omega
          exact hle'
      · rcases h.lag with hlast | ⟨d, hd, hmoves'⟩
        · exact Or.inl (hlater.tail _ hlast)
        · right
          obtain ⟨k, hk⟩ := List.getElem?_of_mem hd
          have hne : i ≠ k := by
            rintro rfl
            obtain rfl := Option.some.inj (hi.symm.trans hk)
            exact htail (hmoves _ hmoves')
          refine ⟨d, List.mem_of_getElem? ((List.getElem?_set_ne hne).trans hk), ?_⟩
          simp only [if_neg htail]
          exact hmoves'
    knows := h.knows_set hlater rfl (hc' _ hlater)
    took := by
      simp only [tally_set_of_eq hi hw.took]
      exact h.took
    gave := by
      simp only [tally_set_of_eq hi hw.gave]
      exact h.gave
    size := by
      simp only [tally_set_of_eq hi hw.uncounted, tally_set_of_eq hi hw.overcounted]
      exact h.size }

/-- A step that changes the size. -/
theorem resize (h : s.Sound) {size : ℕ} (c' : LfqueueCall α) (hi : s.calls[i]? = some c)
    (hmoves : c.moves = none) (hfresh : c'.fresh = c.fresh) (htook : c'.took = c.took)
    (hgave : c'.gave = c.gave) (hsize : size < 2 ^ 64)
    (hchange : size + c.overcounted + c'.uncounted ≡ s.q.size + c'.overcounted + c.uncounted
      [MOD 2 ^ 64]) (hc' : ∀ t : LfqueueRun α, s.Later t → t.Knows c') :
    ({ s with q := { s.q with size := size }, calls := s.calls.set i c' } :
      LfqueueRun α).Sound := by
  have hlater : s.Later { s with q := { s.q with size := size }, calls := s.calls.set i c' } :=
    { linked := List.prefix_rfl
      served := le_rfl
      tail := fun _ htail => htail }
  have huncounted : tally LfqueueCall.uncounted (s.calls.set i c') + c.uncounted =
      tally LfqueueCall.uncounted s.calls + c'.uncounted := tally_set hi
  have hovercounted : tally LfqueueCall.overcounted (s.calls.set i c') + c.overcounted =
      tally LfqueueCall.overcounted s.calls + c'.overcounted := tally_set hi
  have hbefore := h.size
  exact { h with
    fresh := by
      simp only [tally_set_of_eq hi hfresh]
      exact h.fresh
    distinct := by
      simp only [tally_set_of_eq hi hfresh]
      exact h.distinct
    lag := h.lag_set hi hmoves
    knows := h.knows_set hlater rfl (hc' _ hlater)
    took := by
      simp only [tally_set_of_eq hi htook]
      exact h.took
    gave := by
      simp only [tally_set_of_eq hi hgave]
      exact h.gave
    size_lt := hsize
    size := by
      have hsum := hbefore.add hchange
      apply Nat.ModEq.add_right_cancel' (s.q.size + c.uncounted + c.overcounted)
      simp only [Nat.ModEq] at hsum ⊢
      omega }

/-- The item of a node of the queue. -/
theorem mem_linked (_ : s.Sound) {a : ℕ} (ha : a ∈ s.linked.map Prod.fst) :
    ∃ v, (a, v) ∈ s.linked := by
  obtain ⟨⟨b, v⟩, hb, rfl⟩ := List.mem_map.mp ha
  exact ⟨v, hb⟩

/-- A step that moves the head to the node behind it. -/
theorem moveHead (h : s.Sound) {a : ℕ} (hi : s.calls[i]? = some (.moveHead s.q.head (some a))) :
    ({ s with
      q := { s.q with head := a }
      calls := s.calls.set i (.readValue a)
      served := s.served ++ [a] } : LfqueueRun α).Sound := by
  obtain ⟨k, b, hhead, hb, hnext, htail⟩ := h.knows _ (List.mem_of_getElem? hi)
  obtain rfl := Option.some.inj hb
  have hk : k = s.served.length := h.chain.position hhead h.head
  subst hk
  have hlinked : (s.linked.map Prod.fst)[s.served.length]? = some a := by
    simpa [order] using hnext
  have hlater : s.Later { s with
      q := { s.q with head := a }
      calls := s.calls.set i (.readValue a)
      served := s.served ++ [a] } :=
    { linked := List.prefix_rfl
      served := by simp
      tail := fun _ htail => htail }
  have htook : tally LfqueueCall.took (s.calls.set i (.readValue a)) + 0 =
      tally LfqueueCall.took s.calls + {a} := tally_set hi
  have hover : tally LfqueueCall.overcounted (s.calls.set i (.readValue a)) + 0 =
      tally LfqueueCall.overcounted s.calls + 1 := tally_set hi
  have huncounted : tally LfqueueCall.uncounted (s.calls.set i (.readValue a)) =
      tally LfqueueCall.uncounted s.calls := tally_set_of_eq hi rfl
  have hfresh : tally LfqueueCall.fresh (s.calls.set i (.readValue a)) =
      tally LfqueueCall.fresh s.calls := tally_set_of_eq hi rfl
  have hgave : tally LfqueueCall.gave (s.calls.set i (.readValue a)) =
      tally LfqueueCall.gave s.calls := tally_set_of_eq hi rfl
  exact { h with
    fresh := by
      simp only [hfresh]
      exact h.fresh
    distinct := by
      simp only [hfresh]
      exact h.distinct
    head := by
      simp only [List.length_append, List.length_singleton]
      exact hnext
    tail := by
      simp only [List.length_append, List.length_singleton]
      exact htail
    served := by
      simp only [List.length_append, List.length_singleton]
      rw [List.take_add_one, hlinked, ← h.served]
      rfl
    lag := h.lag_set hi rfl
    knows := h.knows_set hlater rfl (List.mem_of_getElem? hlinked)
    took := by
      rw [add_zero, ← h.took] at htook
      simp only [htook]
      rfl
    gave := by
      simp only [hgave]
      exact h.gave
    size := by
      have hsize := h.size
      simp only [List.length_append, List.length_singleton, huncounted]
      have hone := hsize.add_right 1
      simp only [Nat.ModEq] at hone ⊢
      omega }

/-- A call allocates its node. -/
theorem malloc (h : s.Sound) {v : α} (hi : s.calls[i]? = some (.malloc v true)) :
    ({ s with
      q := { s.q with nodes := s.q.nodes ++ [⟨some v, none⟩] }
      calls := s.calls.set i (.readTail v s.q.nodes.length) } : LfqueueRun α).Sound := by
  have hold : ∀ {a : ℕ}, a < s.q.nodes.length →
      (s.q.nodes ++ [⟨some v, none⟩])[a]? = s.q.nodes[a]? :=
    fun ha => List.getElem?_append_left ha
  have hfresh : tally LfqueueCall.fresh (s.calls.set i (.readTail v s.q.nodes.length)) + 0 =
      tally LfqueueCall.fresh s.calls + {(s.q.nodes.length, v)} := tally_set hi
  rw [add_zero] at hfresh
  have htook : tally LfqueueCall.took (s.calls.set i (.readTail v s.q.nodes.length)) =
      tally LfqueueCall.took s.calls := tally_set_of_eq hi rfl
  have hgave : tally LfqueueCall.gave (s.calls.set i (.readTail v s.q.nodes.length)) =
      tally LfqueueCall.gave s.calls := tally_set_of_eq hi rfl
  have huncounted : tally LfqueueCall.uncounted (s.calls.set i (.readTail v s.q.nodes.length)) =
      tally LfqueueCall.uncounted s.calls := tally_set_of_eq hi rfl
  have hover : tally LfqueueCall.overcounted (s.calls.set i (.readTail v s.q.nodes.length)) =
      tally LfqueueCall.overcounted s.calls := tally_set_of_eq hi rfl
  have hlinked : ∀ a v', (a, v') ∈ s.linked → a ∈ s.order := by
    intro a v' ha
    exact List.mem_cons_of_mem _ (List.mem_map_of_mem ha)
  have hlater : s.Later { s with
      q := { s.q with nodes := s.q.nodes ++ [⟨some v, none⟩] }
      calls := s.calls.set i (.readTail v s.q.nodes.length) } :=
    { linked := List.prefix_rfl
      served := le_rfl
      tail := fun _ htail => htail }
  have hfresh_lt : ∀ a v', (a, v') ∈ tally LfqueueCall.fresh s.calls → a < s.q.nodes.length := by
    intro a v' ha
    exact (List.getElem?_eq_some_iff.mp (h.fresh a v' ha)).1
  exact { h with
    chain := h.chain.congr fun a ha => by
      simp only [Lfqueue.next, hold (h.allocated a ha)]
    allocated := by
      intro a ha
      have := h.allocated a ha
      simp only [List.length_append]
      omega
    value := by
      intro a v' ha
      simp only [Lfqueue.value, hold (h.allocated a (hlinked a v' ha))]
      exact h.value a v' ha
    fresh := by
      intro a v' ha
      simp only [hfresh, Multiset.mem_add, Multiset.mem_singleton, Prod.mk.injEq] at ha
      rcases ha with ha | ⟨rfl, rfl⟩
      · simp only [hold (hfresh_lt a v' ha)]
        exact h.fresh a v' ha
      · simp
    distinct := by
      simp only [hfresh, Multiset.map_add, Multiset.map_singleton]
      rw [← add_assoc, add_comm, Multiset.singleton_add, Multiset.nodup_cons]
      refine ⟨?_, h.distinct⟩
      intro hmem
      rcases Multiset.mem_add.mp hmem with ha | ha
      · exact absurd (h.allocated _ (Multiset.mem_coe.mp ha)) (lt_irrefl _)
      · obtain ⟨⟨a, v'⟩, ha, hlen⟩ := Multiset.mem_map.mp ha
        have := hfresh_lt a v' ha
        simp only at hlen
        omega
    lag := h.lag_set hi rfl
    knows := h.knows_set hlater rfl trivial
    took := by
      simp only [htook]
      exact h.took
    gave := by
      simp only [hgave]
      exact h.gave
    size := by
      simp only [huncounted, hover]
      exact h.size }

/-- A call links its node behind the last one. -/
theorem link (h : s.Sound) {v : α} {node a : ℕ} {last : CasNode α}
    (hi : s.calls[i]? = some (.linkNode v node a)) (ha : s.q.nodes[a]? = some last)
    (hnone : last.next = none) :
    ({ s with
      q := { s.q with nodes := s.q.nodes.set a { last with next := some node } }
      calls := s.calls.set i (.moveTail v node a)
      linked := s.linked ++ [(node, v)] } : LfqueueRun α).Sound := by
  obtain ⟨k, hk, htail⟩ := h.knows _ (List.mem_of_getElem? hi)
  have halt := (List.getElem?_eq_some_iff.mp ha).1
  have hlast : s.q.next a = none := by simp [Lfqueue.next, ha, hnone]
  have hlength := (h.chain.last hk).mp hlast
  have hmem : (node, v) ∈ tally LfqueueCall.fresh s.calls :=
    mem_tally.mpr ⟨_, List.mem_of_getElem? hi, Multiset.mem_singleton_self _⟩
  have hnode := h.fresh node v hmem
  have hdisjoint : ∀ b ∈ s.order, ∀ v', (b, v') ∉ tally LfqueueCall.fresh s.calls := by
    intro b hb v' hv'
    exact Multiset.disjoint_left.mp (Multiset.nodup_add.mp h.distinct).2.2
      (Multiset.mem_coe.mpr hb) (Multiset.mem_map_of_mem Prod.fst hv')
  have hnot : node ∉ s.order := fun hin => hdisjoint node hin v hmem
  have hne : node ≠ a := fun heq => hnot (heq ▸ List.mem_of_getElem? hk)
  have hother : ∀ {b : ℕ}, b ≠ a → (s.q.nodes.set a { last with next := some node })[b]? =
      s.q.nodes[b]? := fun hb => List.getElem?_set_ne (Ne.symm hb)
  have horder : 0 :: (s.linked ++ [(node, v)]).map Prod.fst = s.order ++ [node] := by
    simp [order]
  have hfresh : tally LfqueueCall.fresh (s.calls.set i (.moveTail v node a)) + {(node, v)} =
      tally LfqueueCall.fresh s.calls + 0 := tally_set hi
  rw [add_zero] at hfresh
  have hgave : tally LfqueueCall.gave (s.calls.set i (.moveTail v node a)) + 0 =
      tally LfqueueCall.gave s.calls + {v} := tally_set hi
  have huncounted : tally LfqueueCall.uncounted (s.calls.set i (.moveTail v node a)) + 0 =
      tally LfqueueCall.uncounted s.calls + 1 := tally_set hi
  have htook : tally LfqueueCall.took (s.calls.set i (.moveTail v node a)) =
      tally LfqueueCall.took s.calls := tally_set_of_eq hi rfl
  have hover : tally LfqueueCall.overcounted (s.calls.set i (.moveTail v node a)) =
      tally LfqueueCall.overcounted s.calls := tally_set_of_eq hi rfl
  have hpos : ∀ {j b : ℕ}, s.order[j]? = some b → (s.order ++ [node])[j]? = some b :=
    fun hj => getElem?_of_prefix (List.prefix_append _ _) hj
  have hend : (s.order ++ [node])[k + 1]? = some node := by
    rw [← hlength]
    simp
  have hlater : s.Later { s with
      q := { s.q with nodes := s.q.nodes.set a { last with next := some node } }
      calls := s.calls.set i (.moveTail v node a)
      linked := s.linked ++ [(node, v)] } :=
    { linked := List.prefix_append _ _
      served := le_rfl
      tail := by
        rintro j ⟨m, hm, hj⟩
        refine ⟨m, ?_, hj⟩
        simp only [order, horder]
        exact hpos hm }
  exact {
    chain := by
      simp only [order, horder]
      apply h.chain.grow hk hlast hnot
      · simp [Lfqueue.next, halt]
      · simp [Lfqueue.next, hother hne, hnode]
      · intro b _ hb
        simp only [Lfqueue.next, hother hb]
    allocated := by
      intro b hb
      simp only [order, horder, List.mem_append, List.mem_singleton] at hb
      simp only [List.length_set]
      rcases hb with hb | rfl
      · exact h.allocated b hb
      · exact (List.getElem?_eq_some_iff.mp hnode).1
    value := by
      intro b w hb
      by_cases hba : b = a
      · subst hba
        rcases List.mem_append.mp hb with hold | hnew
        · have hvalue := h.value b w hold
          simp only [Lfqueue.value, ha, Option.bind_some] at hvalue
          simp [Lfqueue.value, halt, hvalue]
        · simp only [List.mem_singleton, Prod.mk.injEq] at hnew
          exact absurd hnew.1.symm hne
      · simp only [Lfqueue.value, hother hba]
        rcases List.mem_append.mp hb with hold | hnew
        · exact h.value b w hold
        · simp only [List.mem_singleton, Prod.mk.injEq] at hnew
          rw [hnew.1, hnew.2, hnode]
          rfl
    fresh := by
      intro b w hb
      have hold : (b, w) ∈ tally LfqueueCall.fresh s.calls := by
        rw [← hfresh]
        exact Multiset.mem_add.mpr (Or.inl hb)
      have hba : b ≠ a := by
        rintro rfl
        exact hdisjoint b (List.mem_of_getElem? hk) w hold
      simp only [hother hba]
      exact h.fresh b w hold
    distinct := by
      have hdistinct := h.distinct
      rw [← hfresh] at hdistinct
      simp only [order, horder, Multiset.map_add, Multiset.map_singleton] at hdistinct ⊢
      rw [← Multiset.coe_add, add_assoc, Multiset.coe_singleton,
        add_comm ({node} : Multiset ℕ)]
      exact hdistinct
    head := by
      simp only [order, horder]
      exact hpos h.head
    tail := hlater.tail _ h.tail
    behind := by
      apply TailFrom.mono (hlater.tail k htail)
      rw [order_length] at hlength
      simp only [order, List.length_cons, List.length_map, List.length_append, List.length_nil]
      omega
    lag := by
      right
      obtain ⟨m, hm, hkm⟩ := htail
      have hmlt := (List.getElem?_eq_some_iff.mp hm).1
      have hmk : m = k := by omega
      subst hmk
      refine ⟨_, List.mem_of_getElem? (List.getElem?_set_self ?_), ?_⟩
      · exact (List.getElem?_eq_some_iff.mp hi).1
      · exact hk.symm.trans hm
    served := by
      have hserved := h.served
      have hle := h.served_lt
      rw [order_length] at hle
      simp only [List.map_append]
      rw [List.take_append_of_le_length (by simpa using Nat.le_of_lt_succ hle)]
      exact hserved
    knows := by
      apply h.knows_set hlater rfl
      refine ⟨k, ?_, ?_⟩
      · simp only [order, horder]
        exact hpos hk
      · simp only [order, horder]
        exact hend
    took := by
      simp only [htook]
      exact h.took
    gave := by
      rw [add_zero, ← h.gave] at hgave
      simp only [hgave, List.map_append]
      rfl
    size_lt := h.size_lt
    size := by
      have hsize := h.size
      simp only [List.length_append, List.length_singleton, hover]
      have hone := hsize.add_right 1
      simp only [Nat.ModEq] at hone ⊢
      omega }

end LfqueueRun.Sound

end LdacsSdk
