import LdacsSdk.Library.Loops
import LdacsSdk.Net.Closing

/-!
# Pruning expired connections

`server_connection_prune` closes the connection at the root of the table as long as that one has
expired, a hundred at most in one call. In a heap by the time of the last activity the root is the
oldest, so the expired connections go in the order of their age and the loop stops at the first one
that has not expired. A context without a timeout has no expired connections.
-/
namespace LdacsSdk

open Library

/-- The loop of `server_connection_prune` between two rounds. -/
structure Pruning where
  net : NetState
  prunedCount : ℕ

/-- One round of `server_connection_prune`. -/
def pruneRound (timeout currentTime : ℤ) (p : Pruning) : Option (Round Pruning) :=
  if p.net.hdConns.heapSize > 0 ∧ timeout ≠ 0 ∧ p.prunedCount < 100 then
    let bc := p.net.hdConns.obj 0
    let activeTime : ℤ := p.net.hdConns.factor 0
    if currentTime - activeTime ≥ timeout then
      (p.net.connectionClose bc).map fun net => .again ⟨net, p.prunedCount + 1⟩
    else some (.leave p)
  else some (.leave p)

namespace NetState

/-- `server_connection_prune` at the time `currentTime`; the count allows for 101 rounds. -/
def serverConnectionPrune (timeout currentTime : ℤ) (s : NetState) : Option NetState :=
  (whileLoop (pruneRound timeout currentTime) 101 ⟨s, 0⟩).map Pruning.net

/-- An entry of the table has been inactive for the timeout; there is none without a timeout. -/
def Expired (timeout currentTime : ℤ) (e : ℕ × ℕ) : Prop :=
  timeout ≠ 0 ∧ currentTime - e.2 ≥ timeout

instance (timeout currentTime : ℤ) : DecidablePred (Expired timeout currentTime) :=
  fun _ => inferInstanceAs (Decidable (_ ∧ _))

/-- The entries of the connections that have expired. -/
def expiredEntries (timeout currentTime : ℤ) (s : NetState) : List (ℕ × ℕ) :=
  s.hdConns.entries.filter (Expired timeout currentTime ·)

/-- From `s₀` on, the connections of the entries `gone` have been closed one after the other. -/
structure ClosedInTurn (s₀ s : NetState) (gone : List (ℕ × ℕ)) : Prop where
  closed : s.closed = s₀.closed ++ gone.map Prod.fst
  contents : (gone ++ s.hdConns.entries).Perm s₀.hdConns.entries
  oldestFirst : gone.Pairwise fun e e' => e.2 ≤ e'.2
  noneOlder : ∀ e ∈ gone, ∀ e' ∈ s.hdConns.entries, e.2 ≤ e'.2
  wired : s.hdConns.Wired
  ordered : s.hdConns.Ordered
  through : ∀ e ∈ gone, s.conns e.1 = (s₀.conns e.1).cleanedUp
  others : ∀ bc, bc ∉ gone.map Prod.fst → s.conns bc = s₀.conns bc
  sockets : ∀ fd, 0 ≤ fd →
    (fd ∈ s.openFds ↔ fd ∈ s₀.openFds ∧ ∀ e ∈ gone, (s₀.conns e.1).fd ≠ fd)

/-- The closed connections are the expired ones, or a hundred of them. -/
structure PrunedExactly (timeout currentTime : ℤ) (s₀ s : NetState) (gone : List (ℕ × ℕ)) :
    Prop extends ClosedInTurn s₀ s gone where
  expired : ∀ e ∈ gone, Expired timeout currentTime e
  all : (expiredEntries timeout currentTime s₀).length < 100 →
    gone.Perm (expiredEntries timeout currentTime s₀)
  hundred : 100 ≤ (expiredEntries timeout currentTime s₀).length → gone.length = 100

variable {s₀ s : NetState} {gone : List (ℕ × ℕ)} {timeout currentTime : ℤ}

theorem closedInTurn_refl (hwired : s.hdConns.Wired) (hord : s.hdConns.Ordered) :
    ClosedInTurn s s [] where
  closed := by simp
  contents := .refl _
  oldestFirst := .nil
  noneOlder := by simp
  wired := hwired
  ordered := hord
  through := by simp
  others _ _ := rfl
  sockets := by simp

/-- The root stands in front of any other entry of its connection. -/
theorem firstAt_root {hd : HeapDesc} (h : 0 < hd.heapSize) : hd.FirstAt (hd.obj 0) 0 :=
  ⟨h, rfl, fun j hj => absurd hj (Nat.not_lt_zero j)⟩

theorem root_mem {hd : HeapDesc} (h : 0 < hd.heapSize) : hd.entry 0 ∈ hd.entries :=
  List.mem_map_of_mem (List.mem_range.mpr h)

/-- Nothing in a heap is older than its root. -/
theorem root_oldest {hd : HeapDesc} (hord : hd.Ordered) {e : ℕ × ℕ} (he : e ∈ hd.entries) :
    (hd.entry 0).2 ≤ e.2 := by
  obtain ⟨i, hi, rfl⟩ := List.mem_map.mp he
  exact hord.root_le (List.mem_range.mp hi)

/-- A connection that has been closed has no other entry in the table. -/
theorem ClosedInTurn.root_fresh (h : ClosedInTurn s₀ s gone)
    (hdistinct : (s₀.hdConns.entries.map Prod.fst).Nodup) (hpos : 0 < s.hdConns.heapSize) :
    s.hdConns.obj 0 ∉ gone.map Prod.fst := by
  have hnodup := (h.contents.map Prod.fst).nodup_iff.mpr hdistinct
  rw [List.map_append] at hnodup
  intro hmem
  exact List.disjoint_of_nodup_append hnodup hmem (List.mem_map_of_mem (root_mem hpos))

/-- Closing the root. -/
theorem ClosedInTurn.closeRoot (h : ClosedInTurn s₀ s gone)
    (hdistinct : (s₀.hdConns.entries.map Prod.fst).Nodup) (hpos : 0 < s.hdConns.heapSize) :
    ∃ s', s.connectionClose (s.hdConns.obj 0) = some s' ∧
      ClosedInTurn s₀ s' (gone ++ [s.hdConns.entry 0]) := by
  have hfresh := h.root_fresh hdistinct hpos
  have hconn : s.conns (s.hdConns.obj 0) = s₀.conns (s.hdConns.obj 0) := h.others _ hfresh
  obtain ⟨hd, hclose, hwired, hperm, hord⟩ := connectionClose_spec h.wired (firstAt_root hpos)
  have hleft {e : ℕ × ℕ} (he : e ∈ hd.entries) : e ∈ s.hdConns.entries :=
    hperm.subset (List.mem_cons_of_mem _ he)
  refine ⟨_, hclose, ?_⟩
  constructor
  case closed => simp [h.closed]
  case contents =>
    rw [List.append_assoc, List.singleton_append]
    exact (hperm.append_left gone).trans h.contents
  case oldestFirst =>
    rw [List.pairwise_append]
    refine ⟨h.oldestFirst, List.pairwise_singleton _ _, fun e he e' he' => ?_⟩
    rw [List.mem_singleton.mp he']
    exact h.noneOlder e he _ (root_mem hpos)
  case noneOlder =>
    intro e he e' he'
    rcases List.mem_append.mp he with he | he
    · exact h.noneOlder e he e' (hleft he')
    · rw [List.mem_singleton.mp he]
      exact root_oldest h.ordered (hleft he')
  case wired => exact hwired
  case ordered =>
    apply hord
    exact ConnTable.fill_downOrder h.ordered hpos fun hlt => absurd hlt (Nat.lt_irrefl 0)
  case through =>
    intro e he
    rcases List.mem_append.mp he with he | he
    · have hne : e.1 ≠ s.hdConns.obj 0 := by
        intro hsame
        exact hfresh (hsame ▸ List.mem_map_of_mem he)
      simp [hne, h.through e he]
    · rw [List.mem_singleton.mp he]
      simp [hconn]
  case others =>
    intro bc hbc
    rw [List.map_append, List.mem_append, not_or] at hbc
    have hne : bc ≠ s.hdConns.obj 0 := by simpa using hbc.2
    simp [hne, h.others bc hbc.1]
  case sockets =>
    intro fd hfd
    have hstep : fd ∈ (s.cleanUp (s.hdConns.obj 0)).openFds ↔ _ := mem_openFds_cleanUp hfd
    simp only [hstep, h.sockets fd hfd, hconn, List.mem_append, List.mem_singleton, or_imp,
      forall_and, forall_eq, HeapDesc.entry_fst, and_assoc]

/-- What holds between two rounds: so many connections as are counted have been closed, at most a
hundred, and all of them had expired. -/
structure PrunedSoFar (timeout currentTime : ℤ) (s₀ : NetState) (p : Pruning)
    (gone : List (ℕ × ℕ)) : Prop extends ClosedInTurn s₀ p.net gone where
  count : p.prunedCount = gone.length
  atMost : gone.length ≤ 100
  expired : ∀ e ∈ gone, Expired timeout currentTime e

variable {p : Pruning}

/-- Where the loop is left, a hundred connections have been closed or none is left that has
expired. -/
def Finished (timeout currentTime : ℤ) (p : Pruning) : Prop :=
  p.prunedCount = 100 ∨ ∀ e ∈ p.net.hdConns.entries, ¬Expired timeout currentTime e

theorem PrunedSoFar.round (h : PrunedSoFar timeout currentTime s₀ p gone)
    (hdistinct : (s₀.hdConns.entries.map Prod.fst).Nodup) :
    (pruneRound timeout currentTime p = some (.leave p) ∧ Finished timeout currentTime p) ∨
      p.prunedCount < 100 ∧ ∃ p' gone', pruneRound timeout currentTime p = some (.again p') ∧
        p'.prunedCount = p.prunedCount + 1 ∧ PrunedSoFar timeout currentTime s₀ p' gone' := by
  unfold pruneRound
  dsimp only
  split_ifs with hgo hroot
  · obtain ⟨hpos, htimeout, hcount⟩ := hgo
    obtain ⟨s', hclose, hclosed⟩ := h.closeRoot hdistinct hpos
    refine .inr ⟨hcount, ⟨s', p.prunedCount + 1⟩, gone ++ [p.net.hdConns.entry 0], ?_, rfl,
      hclosed, ?_, ?_, fun e he => ?_⟩
    · simp [hclose]
    · simp [h.count]
    · rw [List.length_append, ← h.count]
      exact hcount
    · rcases List.mem_append.mp he with he | he
      · exact h.expired e he
      · rw [List.mem_singleton.mp he]
        exact ⟨htimeout, hroot⟩
  · refine .inl ⟨rfl, .inr fun e he hexpired => hroot ?_⟩
    have hold := root_oldest h.ordered he
    have hsince := hexpired.2
    rw [HeapDesc.entry_snd] at hold
    omega
  · refine .inl ⟨rfl, ?_⟩
    by_cases hcount : p.prunedCount < 100
    · right
      intro e he hexpired
      obtain ⟨i, hi, -⟩ := List.mem_map.mp he
      exact hgo ⟨Nat.zero_lt_of_lt (List.mem_range.mp hi), hexpired.1, hcount⟩
    · left
      have hatMost := h.atMost
      rw [← h.count] at hatMost
      omega

/-- The expired entries are those that were closed and those left that have expired. -/
theorem PrunedSoFar.expiredEntries_perm (h : PrunedSoFar timeout currentTime s₀ p gone) :
    (gone ++ p.net.expiredEntries timeout currentTime).Perm
      (expiredEntries timeout currentTime s₀) := by
  have hfilter := h.contents.filter (Expired timeout currentTime ·)
  have hgone : gone.filter (Expired timeout currentTime ·) = gone := by
    rw [List.filter_eq_self]
    intro e he
    exact decide_eq_true (h.expired e he)
  rwa [List.filter_append, hgone] at hfilter

theorem PrunedSoFar.exact (h : PrunedSoFar timeout currentTime s₀ p gone)
    (hdone : Finished timeout currentTime p) :
    PrunedExactly timeout currentTime s₀ p.net gone := by
  have hperm := h.expiredEntries_perm
  have hlength := hperm.length_eq
  have hcount := h.count
  have hatMost := h.atMost
  rw [List.length_append] at hlength
  rcases hdone with hhundred | hnone
  · refine ⟨h.toClosedInTurn, h.expired, fun hfew => ?_, fun _ => ?_⟩
    · omega
    · omega
  · have hleft : p.net.expiredEntries timeout currentTime = [] := by
      rw [expiredEntries, List.filter_eq_nil_iff]
      intro e he
      simpa using hnone e he
    rw [hleft, List.append_nil] at hperm
    rw [hleft, List.length_nil] at hlength
    refine ⟨h.toClosedInTurn, h.expired, fun _ => hperm, fun hmany => ?_⟩
    omega

/-- **Pruning is exact** on a heap of distinct connections: the expired connections are closed, the
oldest first and at most a hundred of them, and the others stay as they are in a heap. -/
theorem pruning_exact (timeout currentTime : ℤ) (s : NetState) (hwired : s.hdConns.Wired)
    (hord : s.hdConns.Ordered) (hdistinct : (s.hdConns.entries.map Prod.fst).Nodup) :
    ∃ s' gone, serverConnectionPrune timeout currentTime s = some s' ∧
      PrunedExactly timeout currentTime s s' gone := by
  have hstart : PrunedSoFar timeout currentTime s ⟨s, 0⟩ [] :=
    ⟨closedInTurn_refl hwired hord, rfl, by simp, by simp⟩
  obtain ⟨p, hloop, gone, hgone⟩ : ∃ p,
      whileLoop (pruneRound timeout currentTime) 101 ⟨s, 0⟩ = some p ∧
        ∃ gone, PrunedExactly timeout currentTime s p.net gone := by
    apply whileLoop_spec (fun p => 100 - p.prunedCount)
      (I := fun p => ∃ gone, PrunedSoFar timeout currentTime s p gone) _ ⟨[], hstart⟩ (by simp)
    rintro p ⟨gone, h⟩
    rcases h.round hdistinct with ⟨hleave, hdone⟩ | ⟨hcount, p', gone', hagain, hcount', h'⟩
    · exact .inl ⟨p, hleave, gone, h.exact hdone⟩
    · exact .inr ⟨p', hagain, ⟨gone', h'⟩, by omega⟩
  exact ⟨p.net, gone, by simp [serverConnectionPrune, hloop], hgone⟩

/-- A table with idle connections, whose sockets have their numbers. -/
def idleNet (hdConns : HeapDesc) : NetState where
  hdConns := hdConns
  conns bc :=
    { fd := bc, state := .connected, recvBuffer := none, readPkt := none
      currentWriteBuffer := none, writePkts := some [], readingHeader := true
      expectedPktLen := 0, currentWriteOffset := 0, transDone := false, assigned := [] }
  openFds := {7, 8}
  watched := {7, 8}

/-- Of two connections, the one that has been inactive for 25 seconds is closed. -/
theorem pruning_older_of_two : ∃ s s' gone,
    s.hdConns.entries.Perm [(8, 20), (7, 5)] ∧ serverConnectionPrune 15 30 s = some s' ∧
      gone = [(7, 5)] ∧ PrunedExactly 15 30 s s' gone := by
  obtain ⟨hd₁, -, hwired₁, hperm₁, hord₁⟩ := HeapDesc.heapInsert_spec HeapDesc.wired_init 7 5
  obtain ⟨hd, -, hwired, hperm, hord⟩ := HeapDesc.heapInsert_spec hwired₁ 8 20
  have hentries : hd.entries.Perm [(8, 20), (7, 5)] := hperm.trans (hperm₁.cons _)
  have hempty : (initHeapDesc : HeapDesc).Ordered := fun i _ hi => absurd hi (Nat.not_lt_zero i)
  have hdistinct : (hd.entries.map Prod.fst).Nodup :=
    (hentries.map Prod.fst).nodup_iff.mpr (by decide)
  obtain ⟨s', gone, hrun, hpruned⟩ :=
    pruning_exact 15 30 (idleNet hd) hwired (hord (hord₁ hempty)) hdistinct
  have hexpired : (expiredEntries 15 30 (idleNet hd)).Perm [(7, 5)] :=
    hentries.filter (Expired 15 30 ·)
  have hfew : (expiredEntries 15 30 (idleNet hd)).length < 100 := by
    rw [hexpired.length_eq]
    decide
  have hgone : gone = [(7, 5)] := List.perm_singleton.mp ((hpruned.all hfew).trans hexpired)
  exact ⟨idleNet hd, s', gone, hentries, hrun, hgone, hpruned⟩

/-- With a timeout of 0 a connection is not closed whose inactivity is not less than that. -/
theorem no_timeout_closes_nothing : ¬∀ (timeout currentTime : ℤ) (s : NetState),
    s.hdConns.Wired → s.hdConns.Ordered → (s.hdConns.entries.map Prod.fst).Nodup →
      ∃ s' gone, serverConnectionPrune timeout currentTime s = some s' ∧
        ClosedInTurn s s' gone ∧
          ((s.hdConns.entries.filter (timeout ≤ currentTime - ·.2)).length < 100 →
            gone.Perm (s.hdConns.entries.filter (timeout ≤ currentTime - ·.2))) := by
  intro hall
  obtain ⟨hd, -, hwired, hperm, hord⟩ := HeapDesc.heapInsert_spec HeapDesc.wired_init 7 5
  have hempty : (initHeapDesc : HeapDesc).Ordered := fun i _ hi => absurd hi (Nat.not_lt_zero i)
  have hentries : hd.entries = [(7, 5)] := List.perm_singleton.mp hperm
  obtain ⟨s', gone, hrun, hclosed, hexact⟩ := hall 0 9 (idleNet hd) hwired (hord hempty) (by
    simp [idleNet, hentries])
  have hstays : serverConnectionPrune 0 9 (idleNet hd) = some (idleNet hd) := by
    simp [serverConnectionPrune, whileLoop, pruneRound]
  obtain rfl : idleNet hd = s' := Option.some.inj (hstays.symm.trans hrun)
  have hnone : gone.length = 0 := by
    simpa [List.length_append] using hclosed.contents.length_eq
  have hone : gone.length = 1 := by
    simpa [idleNet, hentries] using (hexact (by simp [idleNet, hentries])).length_eq
  omega

end NetState

end LdacsSdk
