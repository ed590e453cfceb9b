import LdacsSdk.Core.Definitions
import LdacsSdk.Library.Loops

/-!
# The hierarchical state machine

States are named by a type `S` and described by a table; a NULL pointer is `none`. The guards and
actions are the user's: they are arbitrary functions that read and change an environment `ε` (the
user's memory, not the machine), and the only thing the machine sees of them is a guard's answer
and an entry action's return code. A call keeps the list of the actions it has run.
-/
namespace LdacsSdk

open Library

variable {S V ε : Type*}

/-- `sm_event_t`; `V` holds what a `void *` points to. -/
structure SmEvent (V : Type*) where
  type : ℤ
  data : V

/-- `sm_transition_t`. -/
structure SmTransition (S V ε : Type*) where
  eventType : ℤ
  condition : V
  guard : Option (V → SmEvent V → ε → Bool × ε) := none
  action : Option (V → SmEvent V → V → ε → ε) := none
  nextState : Option S

/-- `sm_state_t`; `numTransitions` is the length of the list. -/
structure SmState (S V ε : Type*) where
  parentState : Option S := none
  entryState : Option S := none
  transitions : List (SmTransition S V ε)
  data : V
  entryAction : Option (V → SmEvent V → ε → LErr × ε) := none
  exitAction : Option (V → SmEvent V → ε → LErr × ε) := none

/-- `sm_statemachine_t`. -/
structure SmStatemachine (S : Type*) where
  currentState : Option S
  previousState : Option S
  errorState : Option S
  deriving DecidableEq, Repr

/-- `stateM_init`. -/
def stateMInit (initialState errorState : Option S) : SmStatemachine S where
  currentState := initialState
  previousState := none
  errorState := errorState

/-- An action that a call has run: of the state left, of the transition, of the state entered. -/
inductive SmAction (S : Type*) where
  | exit (s : S)
  | transition (source target : S)
  | entry (s : S)
  deriving DecidableEq, Repr

/-- A call in progress: the machine, the user's memory and the actions run so far. -/
structure SmRun (S ε : Type*) where
  fsm : SmStatemachine S
  env : ε
  ran : List (SmAction S) := []

/-- `getTransition`: the first transition for the event that no guard refuses, and what the guards
asked on the way did to the user's memory. -/
def getTransition (event : SmEvent V) :
    List (SmTransition S V ε) → ε → Option (SmTransition S V ε) × ε
  | [], env => (none, env)
  | t :: ts, env =>
    if t.eventType = event.type then
      match t.guard with
      | none => (some t, env)
      | some guard =>
        let (holds, env') := guard t.condition event env
        if holds then (some t, env') else getTransition event ts env'
    else getTransition event ts env

/-- The user's memory after the exit action of a state, if it has one; its code is not used. -/
def exitEnv (s : SmState S V ε) (event : SmEvent V) (env : ε) : ε :=
  match s.exitAction with
  | none => env
  | some exitAction => (exitAction s.data event env).2

/-- The user's memory after a transition's action, if it has one. -/
def actionEnv (t : SmTransition S V ε) (source target : SmState S V ε) (event : SmEvent V)
    (env : ε) : ε :=
  match t.action with
  | none => env
  | some action => action source.data event target.data env

/-- What the entry action of a state returns, and the user's memory after it; a state without one
is entered without an error. -/
def entryResult (s : SmState S V ε) (event : SmEvent V) (env : ε) : LErr × ε :=
  match s.entryAction with
  | none => (.ldOk, env)
  | some entryAction => entryAction s.data event env

variable (states : S → SmState S V ε) (event : SmEvent V)

/-- Run the exit action of `s`, if any. -/
def SmRun.runExit (r : SmRun S ε) (s : S) : SmRun S ε :=
  { r with
    env := exitEnv (states s) event r.env
    ran := r.ran ++ if (states s).exitAction.isSome then [.exit s] else [] }

/-- Run the action of a transition, if any. -/
def SmRun.runAction (r : SmRun S ε) (t : SmTransition S V ε) (source target : S) : SmRun S ε :=
  { r with
    env := actionEnv t (states source) (states target) event r.env
    ran := r.ran ++ if t.action.isSome then [.transition source target] else [] }

/-- Run the entry action of `s`, if any. -/
def SmRun.runEntry (r : SmRun S ε) (s : S) : SmRun S ε :=
  { r with
    env := (entryResult (states s) event r.env).2
    ran := r.ran ++ if (states s).entryAction.isSome then [.entry s] else [] }

/-- `goToErrorState`. -/
def goToErrorState (r : SmRun S ε) : SmRun S ε :=
  let moved : SmRun S ε :=
    { r with
      fsm := { r.fsm with
        previousState := r.fsm.currentState
        currentState := r.fsm.errorState } }
  match r.fsm.errorState with
  | none => moved
  | some errorState => moved.runEntry states event errorState

/-- One round of the descent to a state without an entry state. -/
def descendRound (s : S) : Option (Round S) :=
  match (states s).entryState with
  | none => some (.leave s)
  | some entryState => some (.again entryState)

/-- No chain of parents and no chain of entry states goes round. -/
structure Acyclic : Prop where
  parents : WellFounded fun p s => (states s).parentState = some p
  entries : WellFounded fun e s => (states s).entryState = some e

/-- The state at the end of the chain of entry states. -/
inductive Enters : S → S → Prop
  | leaf {s} (h : (states s).entryState = none) : Enters s s
  | down {s e target} (h : (states s).entryState = some e) (ht : Enters e target) : Enters s target

/-- What the event triggers when it is passed to a state and up the chain of its parents: the
first transition that is not refused, if any, and the user's memory after the guards. -/
inductive Triggers : S → ε → Option (SmTransition S V ε) → ε → Prop
  | found {s env t env'} (h : getTransition event (states s).transitions env = (some t, env')) :
      Triggers s env (some t) env'
  | top {s env env'} (h : getTransition event (states s).transitions env = (none, env'))
      (hp : (states s).parentState = none) : Triggers s env none env'
  | up {s env env' p t env''} (h : getTransition event (states s).transitions env = (none, env'))
      (hp : (states s).parentState = some p) (ht : Triggers p env' t env'') : Triggers s env t env''

theorem Acyclic.enters (hac : Acyclic states) (s : S) : ∃ target, Enters states s target := by
  induction s using hac.entries.induction with
  | _ s ih =>
    cases he : (states s).entryState with
    | none => exact ⟨s, .leaf he⟩
    | some e =>
      obtain ⟨target, ht⟩ := ih e he
      exact ⟨target, .down he ht⟩

theorem Acyclic.triggers (hac : Acyclic states) (s : S) (env : ε) :
    ∃ t env', Triggers states event s env t env' := by
  induction s using hac.parents.induction generalizing env with
  | _ s ih =>
    rcases hg : getTransition event (states s).transitions env with ⟨_ | t, env'⟩
    · cases hp : (states s).parentState with
      | none => exact ⟨none, env', .top hg hp⟩
      | some p =>
        obtain ⟨t, env'', ht⟩ := ih p hp env'
        exact ⟨t, env'', .up hg hp ht⟩
    · exact ⟨some t, env', .found hg⟩

theorem Enters.descends {states : S → SmState S V ε} {s target : S} (h : Enters states s target) :
    LeavesWith (descendRound states) s target := by
  induction h with
  | leaf h => exact .leave (by simp [descendRound, h])
  | down h _ ih => exact ih.again (by simp [descendRound, h])

variable [DecidableEq S]

/-- The part of a call that follows a transition from `current` to `target`: the actions, the
change of state and the code. -/
def enterState (current target : S) (t : SmTransition S V ε) (r : SmRun S ε) : LErr × SmRun S ε :=
  let left := if target ≠ current then r.runExit states event current else r
  let acted := left.runAction states event t current target
  let entered := if target ≠ current then acted.runEntry states event target else acted
  -- a failing entry action breaks out of the loop
  if target ≠ current ∧ (entryResult (states target) event acted.env).1 ≠ .ldOk then
    (.ldErrNoStateChange, entered)
  else
    let moved : SmRun S ε :=
      { entered with
        fsm := { entered.fsm with previousState := some current, currentState := some target } }
    if target = current then (.ldErrStateLoop, moved)
    else if some target = r.fsm.errorState then (.ldErrInvalStateReached, moved)
    else if (states target).transitions.length = 0 then (.ldFinalStateReachd, moved)
    else (.ldOk, moved)

/-- The loop of a call: the state whose transitions are looked at next, the code returned if the
loop is left now, and the call so far. -/
structure Handling (S ε : Type*) where
  nextState : S
  code : LErr
  run : SmRun S ε

/-- One round of the loop over the parent chain. -/
def handleRound (fuel : ℕ) (current : S) (h : Handling S ε) : Option (Round (Handling S ε)) :=
  let (transition, env) := getTransition event (states h.nextState).transitions h.run.env
  let asked : SmRun S ε := { h.run with env := env }
  match transition with
  | none =>
    match (states h.nextState).parentState with
    | none => some (.leave { h with code := .ldErrNoStateChange, run := asked })
    | some parentState => some (.again { h with nextState := parentState, run := asked })
  | some t =>
    match t.nextState with
    | none =>
      some (.leave { h with
        code := .ldErrInvalStateReached
        run := goToErrorState states event asked })
    | some next =>
      (whileLoop (descendRound states) fuel next).map fun target =>
        let (code, run) := enterState states event current target t asked
        .leave { nextState := target, code := code, run := run }

/-- `stateM_handleEvent`; neither argument is NULL. -/
def stateMHandleEvent (fuel : ℕ) (fsm : SmStatemachine S) (env : ε) :
    Option (LErr × SmRun S ε) :=
  match fsm.currentState with
  | none => some (.ldErrInvalStateReached, goToErrorState states event { fsm, env })
  | some current =>
    if (states current).transitions.length = 0 then some (.ldErrNoStateChange, { fsm, env })
    else
      (whileLoop (handleRound states event fuel current) fuel
        { nextState := current, code := .ldErrNoStateChange, run := { fsm, env } }).map
        fun h => (h.code, h.run)

/-- A call returns `out`, however many rounds beyond the needed ones its loops may take. -/
def Handles (fsm : SmStatemachine S) (env : ε) (out : LErr × SmRun S ε) : Prop :=
  ∃ fuel, ∀ k, stateMHandleEvent states event (fuel + k) fsm env = some out

/-- What a call returns once the guards have been asked. -/
inductive Concludes (current : S) (asked : SmRun S ε) :
    Option (SmTransition S V ε) → LErr × SmRun S ε → Prop
  | nothing : Concludes current asked none (.ldErrNoStateChange, asked)
  | noNext {t} (h : t.nextState = none) :
      Concludes current asked (some t)
        (.ldErrInvalStateReached, goToErrorState states event asked)
  | moves {t next target} (h : t.nextState = some next) (ht : Enters states next target) :
      Concludes current asked (some t) (enterState states event current target t asked)

variable {states event}

theorem Acyclic.concludes (hac : Acyclic states) (current : S) (asked : SmRun S ε)
    (t : Option (SmTransition S V ε)) : ∃ out, Concludes states event current asked t out := by
  cases t with
  | none => exact ⟨_, .nothing⟩
  | some t =>
    cases hn : t.nextState with
    | none => exact ⟨_, .noNext hn⟩
    | some next =>
      obtain ⟨target, ht⟩ := hac.enters states next
      exact ⟨_, .moves hn ht⟩

theorem Concludes.round {s current : S} {run : SmRun S ε} {env' : ε} {t : SmTransition S V ε}
    {out : LErr × SmRun S ε} (code : LErr)
    (h : getTransition event (states s).transitions run.env = (some t, env'))
    (hc : Concludes states event current { run with env := env' } (some t) out) :
    ∃ rounds, ∀ fuel, rounds ≤ fuel → ∃ s',
      handleRound states event fuel current ⟨s, code, run⟩ = some (.leave ⟨s', out.1, out.2⟩) := by
  cases hc with
  | noNext hn => exact ⟨0, fun fuel _ => ⟨s, by simp [handleRound, h, hn]⟩⟩
  | @moves _ next target hn ht =>
    obtain ⟨rounds, hrounds⟩ := ht.descends
    refine ⟨rounds, fun fuel hfuel => ⟨target, ?_⟩⟩
    have hdescend := hrounds (fuel - rounds)
    rw [Nat.add_sub_cancel' hfuel] at hdescend
    simp [handleRound, h, hn, hdescend]

/-- The loop over the parent chain ends with what the event triggers. -/
theorem Triggers.loop {s current : S} {run : SmRun S ε} {env' : ε}
    {t : Option (SmTransition S V ε)} {out : LErr × SmRun S ε}
    (h : Triggers states event s run.env t env')
    (hc : Concludes states event current { run with env := env' } t out) (code : LErr) :
    ∃ rounds, ∀ inner outer, rounds ≤ inner → rounds ≤ outer → ∃ s',
      whileLoop (handleRound states event inner current) outer ⟨s, code, run⟩ =
        some ⟨s', out.1, out.2⟩ := by
  obtain ⟨env, henv⟩ : ∃ env, run.env = env := ⟨_, rfl⟩
  rw [henv] at h
  induction h generalizing run with
  | @found s env t env' hg =>
    subst henv
    obtain ⟨rounds, hrounds⟩ := hc.round code hg
    refine ⟨rounds + 1, fun inner outer hin hout => ?_⟩
    obtain ⟨s', hs'⟩ := hrounds inner (by omega)
    obtain ⟨outer, rfl⟩ : ∃ n, outer = n + 1 := ⟨outer - 1, by omega⟩
    exact ⟨s', by simp [whileLoop, hs']⟩
  | @top s env env' hg hp =>
    subst henv
    cases hc
    refine ⟨1, fun inner outer _ hout => ⟨s, ?_⟩⟩
    obtain ⟨outer, rfl⟩ : ∃ n, outer = n + 1 := ⟨outer - 1, by omega⟩
    simp [whileLoop, handleRound, hg, hp]
  | @up s env env' p t env'' hg hp ht ih =>
    subst henv
    obtain ⟨rounds, hrounds⟩ := @ih { run with env := env' } hc rfl
    refine ⟨rounds + 1, fun inner outer hin hout => ?_⟩
    obtain ⟨outer, rfl⟩ : ∃ n, outer = n + 1 := ⟨outer - 1, by omega⟩
    obtain ⟨s', hs'⟩ := hrounds inner outer (by omega) (by omega)
    exact ⟨s', by simpa [whileLoop, handleRound, hg, hp] using hs'⟩

theorem Triggers.handles {fsm : SmStatemachine S} {env env' : ε} {current : S}
    {t : Option (SmTransition S V ε)} {out : LErr × SmRun S ε}
    (hcur : fsm.currentState = some current)
    (hnum : (states current).transitions.length ≠ 0) (h : Triggers states event current env t env')
    (hc : Concludes states event current { fsm := fsm, env := env' } t out) :
    Handles states event fsm env out := by
  have hrun : Triggers states event current (SmRun.env { fsm, env }) t env' := h
  obtain ⟨rounds, hrounds⟩ := hrun.loop hc .ldErrNoStateChange
  refine ⟨rounds, fun k => ?_⟩
  obtain ⟨s', hs'⟩ := hrounds (rounds + k) (rounds + k) (by omega) (by omega)
  simp only [stateMHandleEvent, hcur, if_neg hnum, hs', Option.map_some]

theorem Handles.unique {fsm : SmStatemachine S} {env : ε} {out out' : LErr × SmRun S ε}
    (h : Handles states event fsm env out) (h' : Handles states event fsm env out') :
    out = out' := by
  obtain ⟨fuel, hfuel⟩ := h
  obtain ⟨fuel', hfuel'⟩ := h'
  have hout := hfuel fuel'
  rw [Nat.add_comm, hfuel'] at hout
  exact (Option.some.inj hout).symm

variable (states event) in
/-- The event takes the machine to another state, and the entry action of that state fails. -/
def EntryFails (fsm : SmStatemachine S) (env : ε) : Prop :=
  ∃ current t env' next target, fsm.currentState = some current ∧
    (states current).transitions.length ≠ 0 ∧ Triggers states event current env (some t) env' ∧
    t.nextState = some next ∧ Enters states next target ∧ target ≠ current ∧
    (entryResult (states target) event (actionEnv t (states current) (states target) event
      (exitEnv (states current) event env'))).1 ≠ .ldOk

/-- The code for "no state change" says that nothing has happened. -/
def NoChangeIsSilent (fsm : SmStatemachine S) (out : LErr × SmRun S ε) : Prop :=
  out.1 = .ldErrNoStateChange →
    out.2.fsm.currentState = fsm.currentState ∧ out.2.fsm.previousState = fsm.previousState ∧
      out.2.ran = []

omit [DecidableEq S] in
theorem entryAction_isSome_of_fails {s : SmState S V ε} {env : ε}
    (h : (entryResult s event env).1 ≠ .ldOk) : s.entryAction.isSome := by
  cases ha : s.entryAction with
  | none => simp [entryResult, ha] at h
  | some _ => rfl

/-- A failing entry action is reported as "no state change" after it has been run. -/
theorem enterState_of_fails {current target : S} {t : SmTransition S V ε} {r : SmRun S ε}
    (hne : target ≠ current)
    (hfail : (entryResult (states target) event (actionEnv t (states current) (states target) event
      (exitEnv (states current) event r.env))).1 ≠ .ldOk) :
    (enterState states event current target t r).1 = .ldErrNoStateChange ∧
      .entry target ∈ (enterState states event current target t r).2.ran := by
  have hsome := entryAction_isSome_of_fails hfail
  simp [enterState, hne, SmRun.runExit, SmRun.runAction, SmRun.runEntry, hfail, hsome]

/-- An entry that does not fail, or is not made, is never reported as "no state change". -/
theorem enterState_of_succeeds {current target : S} {t : SmTransition S V ε} {r : SmRun S ε}
    (hok : ¬ (target ≠ current ∧
      (entryResult (states target) event (actionEnv t (states current) (states target) event
        (exitEnv (states current) event r.env))).1 ≠ .ldOk)) :
    (enterState states event current target t r).1 ≠ .ldErrNoStateChange := by
  by_cases heq : target = current
  · simp [enterState, heq]
  · have hres := not_not.mp fun h => hok ⟨heq, h⟩
    simp only [enterState, SmRun.runExit, SmRun.runAction, ne_eq, heq, not_false_eq_true, if_true,
      hres, not_true_eq_false, and_false, if_false]
    split_ifs <;> simp

/-- Every call returns, and its "no state change" means that nothing has happened unless an entry
action fails. -/
theorem noStateChange_silent_iff (hac : Acyclic states) (fsm : SmStatemachine S) (env : ε) :
    ∃ out, Handles states event fsm env out ∧
      (NoChangeIsSilent fsm out ↔ ¬ EntryFails states event fsm env) := by
  cases hcur : fsm.currentState with
  | none =>
    refine ⟨(.ldErrInvalStateReached, goToErrorState states event { fsm, env }),
      ⟨0, fun k => by simp only [stateMHandleEvent, hcur]⟩, ?_⟩
    simp [NoChangeIsSilent, EntryFails, hcur]
  | some current =>
    by_cases hnum : (states current).transitions.length = 0
    · refine ⟨(.ldErrNoStateChange, { fsm, env }),
        ⟨0, fun k => by simp only [stateMHandleEvent, hcur, if_pos hnum]⟩, ?_⟩
      constructor
      · rintro - ⟨current', _, _, _, _, hcur', hnum', _⟩
        obtain rfl : current = current' := by simpa [hcur] using hcur'
        exact hnum' hnum
      · intro _ _
        exact ⟨hcur.symm ▸ rfl, rfl, rfl⟩
    · obtain ⟨t, env', ht⟩ := hac.triggers states event current env
      obtain ⟨out, hout⟩ := hac.concludes current { fsm := fsm, env := env' } t
      refine ⟨out, ht.handles hcur hnum hout, ?_⟩
      constructor
      · -- the run that an entry failure makes is the run of this call
        rintro hsilent ⟨current', t', env'', next, target, hcur', _, ht', hn, hent, hne, hfail⟩
        obtain rfl : current = current' := by simpa [hcur] using hcur'
        have hmoves : Concludes states event current { fsm := fsm, env := env'' } (some t')
            (enterState states event current target t' { fsm := fsm, env := env'' }) :=
          .moves hn hent
        have hsame := (ht.handles hcur hnum hout).unique (ht'.handles hcur hnum hmoves)
        obtain ⟨hcode, hran⟩ :=
          enterState_of_fails (r := { fsm := fsm, env := env'' }) hne hfail
        rw [← hsame] at hcode hran
        rw [(hsilent hcode).2.2] at hran
        exact List.not_mem_nil hran
      · intro hok hcode
        cases hout with
        | nothing => exact ⟨rfl, rfl, rfl⟩
        | noNext _ => simp at hcode
        | @moves t next target hn hent =>
          refine absurd hcode (enterState_of_succeeds fun ⟨hne, hfail⟩ => hok ?_)
          exact ⟨current, t, env', next, target, hcur, hnum, ht, hn, hent, hne, hfail⟩

/-- Two states, the first with an exit action, the second with an entry action that fails. -/
def refusingStates : Bool → SmState Bool Unit Unit
  | false =>
    { transitions := [{ eventType := 0, condition := (), nextState := some true }]
      data := ()
      exitAction := some fun _ _ env => (.ldOk, env) }
  | true =>
    { transitions := [{ eventType := 1, condition := (), nextState := some false }]
      data := ()
      entryAction := some fun _ _ env => (.ldErrInternal, env) }

theorem refusingStates_acyclic : Acyclic refusingStates where
  parents := ⟨fun s => ⟨s, fun p h => by cases s <;> simp [refusingStates] at h⟩⟩
  entries := ⟨fun s => ⟨s, fun p h => by cases s <;> simp [refusingStates] at h⟩⟩

theorem noStateChange_silent_iff_refusing :
    ∃ out, Handles refusingStates ⟨1, ()⟩ (stateMInit (some true) none) () out ∧
      (NoChangeIsSilent (stateMInit (some true) none) out ↔
        ¬ EntryFails refusingStates ⟨1, ()⟩ (stateMInit (some true) none) ()) :=
  noStateChange_silent_iff refusingStates_acyclic _ _

/-- The exit action of the first state and the entry action of the second one are run, and the
call returns "no state change". -/
theorem noStateChange_after_actions :
    Acyclic refusingStates ∧ ∃ out,
      Handles refusingStates ⟨0, ()⟩ (stateMInit (some false) none) () out ∧
      out.1 = .ldErrNoStateChange ∧ out.2.ran = [.exit false, .entry true] ∧
      ¬ NoChangeIsSilent (stateMInit (some false) none) out := by
  have hmoves : Concludes refusingStates ⟨0, ()⟩ false
      { fsm := stateMInit (some false) none, env := () }
      (some { eventType := 0, condition := (), nextState := some true }) _ :=
    .moves rfl (.leaf rfl)
  exact ⟨refusingStates_acyclic, _, Triggers.handles rfl (by decide) (.found rfl) hmoves,
    by decide, by decide, by simp [NoChangeIsSilent]; decide⟩

end LdacsSdk
