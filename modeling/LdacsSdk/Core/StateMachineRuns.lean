import LdacsSdk.Core.StateMachineFlat

/-!
# Entering and leaving states over a whole run

The actions that a machine runs, call after call, follow its current state: a state is entered
only from outside and left only from inside, and the action of a transition runs after the one
state has been left and before the other is entered. Two calls are excepted, the ones that do not
follow a transition to its end: the entry action fails after the exit action has run, or the
transition has no next state and the machine drops to the error state without an exit action.
-/
namespace LdacsSdk

variable {S V ε : Type*} {states : S → SmState S V ε} {event : SmEvent V}

/-! ### What one call runs -/

variable (states event) in
/-- The event triggers a transition for which no next state is defined. -/
def LeadsNowhere (fsm : SmStatemachine S) (env : ε) : Prop :=
  ∃ current t env', fsm.currentState = some current ∧ (states current).transitions.length ≠ 0 ∧
    Triggers states event current env (some t) env' ∧ t.nextState = none

theorem mem_of_getTransition {ts : List (SmTransition S V ε)} {t : SmTransition S V ε}
    {env env' : ε} (h : getTransition event ts env = (some t, env')) : t ∈ ts := by
  induction ts generalizing env with
  | nil => simp [getTransition] at h
  | cons u us ih =>
    simp only [getTransition] at h
    split at h
    · split at h
      · cases h
        exact List.mem_cons_self
      · split at h
        · cases h
          exact List.mem_cons_self
        · exact List.mem_cons_of_mem _ (ih h)
    · exact List.mem_cons_of_mem _ (ih h)

theorem Triggers.mem {s : S} {t : SmTransition S V ε} {env env' : ε}
    (h : Triggers states event s env (some t) env') : ∃ s', t ∈ (states s').transitions := by
  generalize hfound : some t = found at h
  induction h with
  | @found s _ u _ hget =>
    cases hfound
    exact ⟨s, mem_of_getTransition hget⟩
  | top _ _ => cases hfound
  | up _ _ _ ih => exact ih hfound

variable [DecidableEq S]

variable (states event) in
/-- A call that follows to its end the transition that it triggers, if any. -/
structure Smooth (fsm : SmStatemachine S) (env : ε) : Prop where
  enters : ¬ EntryFails states event fsm env
  leads : ¬ LeadsNowhere states event fsm env

omit [DecidableEq S] in
/-- Where every transition has a next state and no entry action reports an error, every call is
smooth. -/
theorem smooth_of_table (hnext : ∀ s, ∀ t ∈ (states s).transitions, t.nextState ≠ none)
    (hentry : ∀ s env, (entryResult (states s) event env).1 = .ldOk) (fsm : SmStatemachine S)
    (env : ε) : Smooth states event fsm env where
  enters := fun ⟨_, _, _, _, target, _, _, _, _, _, _, hfail⟩ => hfail (hentry target _)
  leads := fun ⟨_, t, _, _, _, ht, hn⟩ =>
    have ⟨s, hmem⟩ := ht.mem
    hnext s t hmem hn

/-- The actions for following a transition from `current` to `target`. -/
def followed (states : S → SmState S V ε) (current target : S) (t : SmTransition S V ε) :
    List (SmAction S) :=
  let acted := if t.action.isSome then [.transition current target] else []
  if target = current then acted
  else
    (if (states current).exitAction.isSome then [.exit current] else []) ++ acted ++
      if (states target).entryAction.isSome then [.entry target] else []

theorem Concludes.movesTo {current next target : S} {asked : SmRun S ε} {t : SmTransition S V ε}
    {out : LErr × SmRun S ε} (h : t.nextState = some next) (ht : Enters states next target)
    (hout : enterState states event current target t asked = out) :
    Concludes states event current asked (some t) out :=
  hout ▸ .moves h ht

/-- The actions for dropping to the error state. -/
def dropped (states : S → SmState S V ε) : Option S → List (SmAction S)
  | none => []
  | some e => if (states e).entryAction.isSome then [.entry e] else []

theorem enterState_ran (current target : S) (t : SmTransition S V ε) (r : SmRun S ε) :
    (enterState states event current target t r).2.ran =
      r.ran ++ followed states current target t := by
  by_cases heq : target = current
  · simp [enterState, followed, heq, SmRun.runAction]
  · -- the code depends on the way out, the actions run do not
    simp only [enterState, followed, heq, ne_eq, not_false_eq_true, if_true, if_false,
      apply_ite Prod.snd, apply_ite SmRun.ran, ite_self]
    simp [SmRun.runExit, SmRun.runAction, SmRun.runEntry]

theorem enterState_fsm {current target : S} {t : SmTransition S V ε} {r : SmRun S ε}
    (hok : ¬ (target ≠ current ∧
      (entryResult (states target) event (actionEnv t (states current) (states target) event
        (exitEnv (states current) event r.env))).1 ≠ .ldOk)) :
    (enterState states event current target t r).2.fsm =
      { r.fsm with previousState := some current, currentState := some target } := by
  by_cases heq : target = current
  · simp [enterState, heq, SmRun.runAction]
  · have hres := not_not.mp fun h => hok ⟨heq, h⟩
    simp only [enterState, SmRun.runExit, SmRun.runAction, SmRun.runEntry, ne_eq, heq,
      not_false_eq_true, if_true, hres, not_true_eq_false, and_false, if_false]
    split_ifs <;> rfl

/-- What a smooth call does: nothing, or it drops to the error state from no state at all, or it
follows a transition to a state without an entry state. -/
theorem Smooth.cases (hac : Acyclic states) {fsm : SmStatemachine S} {env : ε}
    {out : LErr × SmRun S ε} (hs : Smooth states event fsm env)
    (h : Handles states event fsm env out) :
    (out.2.fsm = fsm ∧ out.2.ran = []) ∨
    (fsm.currentState = none ∧ out.2.fsm = { fsm with
        previousState := none, currentState := fsm.errorState } ∧
      out.2.ran = dropped states fsm.errorState) ∨
    ∃ current target t, fsm.currentState = some current ∧ (states target).entryState = none ∧
      out.2.fsm = { fsm with previousState := some current, currentState := some target } ∧
      out.2.ran = followed states current target t := by
  cases hcur : fsm.currentState with
  | none =>
    right; left
    have hdrop : Handles states event fsm env
        (.ldErrInvalStateReached, goToErrorState states event { fsm, env }) :=
      ⟨0, fun k => by simp only [stateMHandleEvent, hcur]⟩
    obtain rfl := h.unique hdrop
    cases he : fsm.errorState with
    | none => simp [goToErrorState, dropped, hcur, he]
    | some e => simp [goToErrorState, dropped, hcur, he, SmRun.runEntry]
  | some current =>
    by_cases hnum : (states current).transitions.length = 0
    · left
      have hnone : Handles states event fsm env (.ldErrNoStateChange, { fsm, env }) :=
        ⟨0, fun k => by simp only [stateMHandleEvent, hcur, if_pos hnum]⟩
      obtain rfl := h.unique hnone
      exact ⟨rfl, rfl⟩
    · obtain ⟨t, env', ht⟩ := hac.triggers states event current env
      obtain ⟨out', hout⟩ := hac.concludes current { fsm := fsm, env := env' } t
      obtain rfl := h.unique (ht.handles hcur hnum hout)
      cases hout with
      | nothing => exact .inl ⟨rfl, rfl⟩
      | @noNext t hn => exact absurd ⟨current, t, env', hcur, hnum, ht, hn⟩ hs.leads
      | @moves t next target hn hent =>
        right; right
        refine ⟨current, target, t, rfl, hent.leaf_of, ?_, ?_⟩
        · refine enterState_fsm fun hentry => hs.enters ?_
          obtain ⟨hne, hfail⟩ := hentry
          exact ⟨current, t, env', next, target, hcur, hnum, ht, hn, hent, hne, hfail⟩
        · simp [enterState_ran]

/-! ### The actions follow the current state -/

/-- Whether the machine is inside the state `x` after an action that it runs inside or outside of
it; an action of `x` that cannot be run there has no value. -/
def track (x : S) (inside : Bool) : SmAction S → Option Bool
  | .exit s => if s = x then if inside then some false else none else some inside
  | .transition source target =>
    if source = x ∨ target = x then
      if inside = decide (source = target) then some inside else none
    else some inside
  | .entry s => if s = x then if inside then none else some true else some inside

/-- The same for a list of actions. -/
def trackAll (x : S) (inside : Bool) (ran : List (SmAction S)) : Option Bool :=
  ran.foldlM (track x) inside

theorem trackAll_append (x : S) (inside : Bool) (ran ran' : List (SmAction S)) :
    trackAll x inside (ran ++ ran') =
      (trackAll x inside ran).bind fun inside' => trackAll x inside' ran' := by
  simp [trackAll, List.foldlM_append]

/-- Both actions of a state are defined. -/
def Watched (s : SmState S V ε) : Prop :=
  s.exitAction.isSome ∧ s.entryAction.isSome

theorem trackAll_dropped {x : S} (hx : Watched (states x)) (e : Option S) :
    trackAll x false (dropped states e) = some (decide (e = some x)) := by
  cases e with
  | none => rfl
  | some e =>
    by_cases heq : e = x
    · subst heq
      simp [dropped, hx.2, trackAll, track]
    · cases hen : (states e).entryAction <;> simp [dropped, hen, trackAll, track, heq]

theorem trackAll_followed {x : S} (hx : Watched (states x)) (current target : S)
    (t : SmTransition S V ε) :
    trackAll x (decide (current = x)) (followed states current target t) =
      some (decide (target = x)) := by
  by_cases hloop : target = current
  · subst hloop
    by_cases htarget : target = x
    · cases ha : t.action <;> simp [followed, ha, trackAll, track, htarget]
    · cases ha : t.action <;> simp [followed, ha, trackAll, track, htarget]
  · by_cases hcurrent : current = x
    · subst hcurrent
      have hback : ¬ current = target := fun h => hloop h.symm
      cases ha : t.action <;> cases hen : (states target).entryAction <;>
        simp [followed, ha, hen, hx.1, hloop, hback, trackAll, track]
    · by_cases htarget : target = x
      · subst htarget
        cases ha : t.action <;> cases hex : (states current).exitAction <;>
          simp [followed, ha, hex, hx.2, hloop, hcurrent, trackAll, track]
      · cases ha : t.action <;> cases hex : (states current).exitAction <;>
          cases hen : (states target).entryAction <;>
          simp [followed, ha, hex, hen, hloop, hcurrent, htarget, trackAll, track]

/-! ### Runs -/

/-- A run of calls that all follow their transitions to the end. -/
inductive HandlesSmoothly (states : S → SmState S V ε) :
    List (SmEvent V) → SmStatemachine S → ε → List (LErr × List (SmAction S)) →
      SmStatemachine S → ε → Prop
  | done {fsm env} : HandlesSmoothly states [] fsm env [] fsm env
  | call {event events fsm env code run log fsm' env'} (hs : Smooth states event fsm env)
      (h : Handles states event fsm env (code, run))
      (ht : HandlesSmoothly states events run.fsm run.env log fsm' env') :
      HandlesSmoothly states (event :: events) fsm env ((code, run.ran) :: log) fsm' env'

/-- A machine that has been started as `fsm`: it still has its error state, and it is in no state
of a group with an entry state unless it was put there from the start or as its error state. -/
structure StartedAs (states : S → SmState S V ε) (fsm fsm' : SmStatemachine S) : Prop where
  errorState : fsm'.errorState = fsm.errorState
  current : fsm'.currentState = fsm.currentState ∨ fsm'.currentState = fsm.errorState ∨
    ∃ s, fsm'.currentState = some s ∧ (states s).entryState = none

omit [DecidableEq S] in
theorem StartedAs.trans {fsm fsm' fsm'' : SmStatemachine S} (h : StartedAs states fsm fsm')
    (h' : StartedAs states fsm' fsm'') : StartedAs states fsm fsm'' where
  errorState := h'.errorState.trans h.errorState
  current := by
    rcases h'.current with hsame | herr | hleaf
    · rw [hsame]
      exact h.current
    · exact .inr (.inl (herr.trans h.errorState))
    · exact .inr (.inr hleaf)

theorem Smooth.call (hac : Acyclic states) {fsm : SmStatemachine S} {env : ε}
    {out : LErr × SmRun S ε} (hs : Smooth states event fsm env)
    (h : Handles states event fsm env out) :
    StartedAs states fsm out.2.fsm ∧
      ∀ x, Watched (states x) →
        trackAll x (decide (fsm.currentState = some x)) out.2.ran =
          some (decide (out.2.fsm.currentState = some x)) := by
  rcases hs.cases hac h with ⟨hfsm, hran⟩ | ⟨hcur, hfsm, hran⟩ |
    ⟨current, target, t, hcur, hleaf, hfsm, hran⟩
  · rw [hfsm, hran]
    exact ⟨⟨rfl, .inl rfl⟩, fun x _ => rfl⟩
  · rw [hfsm, hran, hcur]
    exact ⟨⟨rfl, .inr (.inl rfl)⟩, fun x hx => trackAll_dropped hx fsm.errorState⟩
  · rw [hfsm, hran, hcur]
    refine ⟨⟨rfl, .inr (.inr ⟨target, rfl, hleaf⟩)⟩, fun x hx => ?_⟩
    simpa using trackAll_followed hx current target t

/-- In every run whose calls all follow their transitions to the end, the machine is never left
inside a group that has an entry state, and the actions that have been run say of every state that
has both actions whether it is the current one: it has been entered and left in turn. -/
theorem actions_follow_states (hac : Acyclic states) {events : List (SmEvent V)}
    {fsm fsm' : SmStatemachine S} {env env' : ε} {log : List (LErr × List (SmAction S))}
    (h : HandlesSmoothly states events fsm env log fsm' env') :
    StartedAs states fsm fsm' ∧
      ∀ x, Watched (states x) →
        trackAll x (decide (fsm.currentState = some x)) (log.flatMap Prod.snd) =
          some (decide (fsm'.currentState = some x)) := by
  induction h with
  | done => exact ⟨⟨rfl, .inl rfl⟩, fun x _ => rfl⟩
  | call hs h _ ih =>
    obtain ⟨hstarted, htrack⟩ := hs.call hac h
    refine ⟨hstarted.trans ih.1, fun x hx => ?_⟩
    rw [List.flatMap_cons, trackAll_append, htrack x hx]
    exact ih.2 x hx

theorem roomStates_smooth (event : SmEvent Unit) (fsm : SmStatemachine Room) (env : ℕ) :
    Smooth roomStates event fsm env :=
  smooth_of_table (fun s t h => by cases s <;> simp_all [roomStates])
    (fun s env => by cases s <;> rfl) fsm env

/-- Out of the group, back into it and on to the other room. -/
theorem actions_follow_states_rooms :
    StartedAs roomStates (stateMInit (some .back) none) ⟨some .back, some .front, none⟩ ∧
      ∀ x, Watched (roomStates x) →
        trackAll x (decide (some Room.back = some x))
            [.exit .back, .entry .front, .exit .front, .entry .back] =
          some (decide (some Room.back = some x)) := by
  have hout : Handles roomStates ⟨1, ()⟩ (stateMInit (some .back) none) 0
      (.ldOk, ⟨⟨some .outside, some .back, none⟩, 1, [.exit .back]⟩) :=
    Triggers.handles rfl (by decide) (.up rfl rfl (.found rfl)) (.movesTo rfl (.leaf rfl) rfl)
  have hin : Handles roomStates ⟨1, ()⟩ ⟨some .outside, some .back, none⟩ 1
      (.ldOk, ⟨⟨some .front, some .outside, none⟩, 2, [.entry .front]⟩) :=
    Triggers.handles rfl (by decide) (.found rfl) (.movesTo rfl (.down rfl (.leaf rfl)) rfl)
  have hon : Handles roomStates ⟨0, ()⟩ ⟨some .front, some .outside, none⟩ 2
      (.ldOk, ⟨⟨some .back, some .front, none⟩, 4, [.exit .front, .entry .back]⟩) :=
    Triggers.handles rfl (by decide) (.found rfl) (.movesTo rfl (.leaf rfl) rfl)
  exact actions_follow_states roomStates_acyclic
    (.call (roomStates_smooth _ _ _) hout (.call (roomStates_smooth _ _ _) hin
      (.call (roomStates_smooth _ _ _) hon .done)))

end LdacsSdk
