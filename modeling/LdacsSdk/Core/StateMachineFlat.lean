import LdacsSdk.Core.StateMachine

/-!
# What the hierarchy of states means

A child state shares the transitions of its parents, and a transition to a group of states leads to
the state at the end of the group's chain of entry states. The flat table writes both out: every
state lists its own transitions and then those of its parents, each with the state it really leads
to, and there are no parents and no entry states left. On every sequence of events the machine does
the same with either table.
-/
namespace LdacsSdk

variable {S V ε : Type*} {states : S → SmState S V ε} {event : SmEvent V}

/-! ### The flat table -/

theorem Acyclic.of_rank (parentRank entryRank : S → ℕ)
    (hparents : ∀ s p, (states s).parentState = some p → parentRank p < parentRank s)
    (hentries : ∀ s e, (states s).entryState = some e → entryRank e < entryRank s) :
    Acyclic states where
  parents := (measure parentRank).wf.mono fun p s h => hparents s p h
  entries := (measure entryRank).wf.mono fun e s h => hentries s e h

/-- The state in which an entry into `s` ends. -/
noncomputable def leafOf (hac : Acyclic states) : S → S :=
  hac.entries.fix fun s entered =>
    match he : (states s).entryState with
    | none => s
    | some e => entered e he

theorem leafOf_enters (hac : Acyclic states) (s : S) : Enters states s (leafOf hac s) := by
  induction s using hac.entries.induction with
  | _ s ih =>
    unfold leafOf
    rw [hac.entries.fix_eq]
    split
    · next he => exact .leaf he
    · next e he => exact .down he (ih e he)

theorem Enters.leaf_of {s target : S} (h : Enters states s target) :
    (states target).entryState = none := by
  induction h with
  | leaf h => exact h
  | down _ _ ih => exact ih

theorem Enters.unique {s target target' : S} (h : Enters states s target)
    (h' : Enters states s target') : target = target' := by
  induction h with
  | leaf h =>
    cases h' with
    | leaf _ => rfl
    | down he _ => simp [h] at he
  | down h _ ih =>
    cases h' with
    | leaf he => simp [h] at he
    | down he ht =>
      obtain rfl := Option.some.inj (h.symm.trans he)
      exact ih ht

/-- The transitions of a state and, after them, those of its parents. -/
noncomputable def inherited (hac : Acyclic states) : S → List (SmTransition S V ε) :=
  hac.parents.fix fun s ofParent =>
    (states s).transitions ++
      match hp : (states s).parentState with
      | none => []
      | some p => ofParent p hp

theorem inherited_top (hac : Acyclic states) {s : S} (hp : (states s).parentState = none) :
    inherited hac s = (states s).transitions := by
  unfold inherited
  rw [hac.parents.fix_eq]
  split
  · exact List.append_nil _
  · next h => simp [hp] at h

theorem inherited_child (hac : Acyclic states) {s p : S} (hp : (states s).parentState = some p) :
    inherited hac s = (states s).transitions ++ inherited hac p := by
  conv_lhs => unfold inherited; rw [hac.parents.fix_eq]
  split
  · next h => simp [hp] at h
  · next q h =>
    obtain rfl := Option.some.inj (hp.symm.trans h)
    rfl

/-- The transition with the state it really leads to. -/
noncomputable def redirect (hac : Acyclic states) (t : SmTransition S V ε) : SmTransition S V ε :=
  { t with nextState := t.nextState.map (leafOf hac) }

/-- The table without parents and entry states. A state without transitions of its own is final,
and does not ask its parents. -/
noncomputable def flatten (hac : Acyclic states) (s : S) : SmState S V ε :=
  { states s with
    parentState := none
    entryState := none
    transitions :=
      if (states s).transitions.isEmpty then [] else (inherited hac s).map (redirect hac) }

theorem inherited_length_pos (hac : Acyclic states) {s : S}
    (h : (states s).transitions.length ≠ 0) : (inherited hac s).length ≠ 0 := by
  cases hp : (states s).parentState with
  | none => rwa [inherited_top hac hp]
  | some p =>
    rw [inherited_child hac hp, List.length_append]
    omega

theorem flatten_transitions (hac : Acyclic states) {s : S}
    (h : (states s).transitions.length ≠ 0) :
    (flatten hac s).transitions = (inherited hac s).map (redirect hac) := by
  have hne : (states s).transitions.isEmpty = false := by
    simpa [List.length_eq_zero_iff] using h
  simp [flatten, hne]

/-- The flat table has the same final states. -/
theorem flatten_final_iff (hac : Acyclic states) (s : S) :
    (flatten hac s).transitions.length = 0 ↔ (states s).transitions.length = 0 := by
  by_cases h : (states s).transitions.length = 0
  · have hnil := List.length_eq_zero_iff.mp h
    simp [flatten, hnil]
  · rw [flatten_transitions hac h, List.length_map]
    exact iff_of_false (inherited_length_pos hac h) h

/-! ### One call with either table -/

theorem getTransition_append (ts us : List (SmTransition S V ε)) (env : ε) :
    getTransition event (ts ++ us) env =
      match getTransition event ts env with
      | (some t, env') => (some t, env')
      | (none, env') => getTransition event us env' := by
  induction ts generalizing env with
  | nil => rfl
  | cons t ts ih =>
    simp only [List.cons_append, getTransition]
    split
    · cases t.guard with
      | none => rfl
      | some guard =>
        dsimp only
        split
        · rfl
        · exact ih _
    · exact ih env

theorem getTransition_redirect (hac : Acyclic states) (ts : List (SmTransition S V ε)) (env : ε) :
    getTransition event (ts.map (redirect hac)) env =
      ((getTransition event ts env).1.map (redirect hac), (getTransition event ts env).2) := by
  induction ts generalizing env with
  | nil => rfl
  | cons t ts ih =>
    simp only [List.map_cons, getTransition, redirect]
    split
    · cases hg : t.guard with
      | none => simp [redirect, hg]
      | some guard =>
        dsimp only
        split
        · simp [redirect, hg]
        · exact ih _
    · exact ih env

/-- Passing an event up the chain of parents is looking it up in the inherited transitions. -/
theorem triggers_inherited (hac : Acyclic states) (s : S) (env : ε) :
    Triggers states event s env (getTransition event (inherited hac s) env).1
      (getTransition event (inherited hac s) env).2 := by
  induction s using hac.parents.induction generalizing env with
  | _ s ih =>
    rcases hown : getTransition event (states s).transitions env with ⟨_ | t, env'⟩
    · cases hp : (states s).parentState with
      | none =>
        rw [inherited_top hac hp, hown]
        exact .top hown hp
      | some p =>
        rw [inherited_child hac hp, getTransition_append, hown]
        exact .up hown hp (ih p hp env')
    · have hfirst : getTransition event (inherited hac s) env = (some t, env') := by
        cases hp : (states s).parentState with
        | none => rw [inherited_top hac hp, hown]
        | some p => rw [inherited_child hac hp, getTransition_append, hown]
      rw [hfirst]
      exact .found hown

theorem flatten_triggers (hac : Acyclic states) {s : S} (env : ε)
    (h : (states s).transitions.length ≠ 0) :
    Triggers (flatten hac) event s env
      ((getTransition event (inherited hac s) env).1.map (redirect hac))
      (getTransition event (inherited hac s) env).2 := by
  have hflat : getTransition event (flatten hac s).transitions env =
      ((getTransition event (inherited hac s) env).1.map (redirect hac),
        (getTransition event (inherited hac s) env).2) := by
    rw [flatten_transitions hac h, getTransition_redirect]
  cases hfound : (getTransition event (inherited hac s) env).1 with
  | none =>
    rw [hfound] at hflat
    exact .top hflat rfl
  | some t =>
    rw [hfound] at hflat
    exact .found hflat

variable [DecidableEq S]

/-- Following a transition does the same with either table. -/
theorem enterState_flatten (hac : Acyclic states) (current target : S) (t : SmTransition S V ε)
    (r : SmRun S ε) :
    enterState (flatten hac) event current target (redirect hac t) r =
      enterState states event current target t r := by
  have hfinal := flatten_final_iff hac target
  simp only [enterState, hfinal]
  rfl

theorem Concludes.flatten (hac : Acyclic states) {current : S} {asked : SmRun S ε}
    {t : Option (SmTransition S V ε)} {out : LErr × SmRun S ε}
    (h : Concludes states event current asked t out) :
    Concludes (flatten hac) event current asked (t.map (redirect hac)) out := by
  cases h with
  | nothing => exact .nothing
  | noNext hn => exact .noNext (by simp [redirect, hn])
  | @moves t next target hn ht =>
    obtain rfl : leafOf hac next = target := (leafOf_enters hac next).unique ht
    rw [← enterState_flatten hac]
    exact .moves (by simp [redirect, hn]) (.leaf rfl)

variable (event) in
/-- A call returns the same with either table. -/
theorem handles_both (hac : Acyclic states) (fsm : SmStatemachine S) (env : ε) :
    ∃ out, Handles states event fsm env out ∧ Handles (flatten hac) event fsm env out := by
  cases hcur : fsm.currentState with
  | none =>
    refine ⟨(.ldErrInvalStateReached, goToErrorState states event { fsm, env }),
      ⟨0, fun k => ?_⟩, ⟨0, fun k => ?_⟩⟩
    · simp only [stateMHandleEvent, hcur]
    · simp only [stateMHandleEvent, hcur]
      rfl
  | some current =>
    by_cases hnum : (states current).transitions.length = 0
    · have hflat := (flatten_final_iff hac current).mpr hnum
      refine ⟨(.ldErrNoStateChange, { fsm, env }), ⟨0, fun k => ?_⟩, ⟨0, fun k => ?_⟩⟩
      · simp only [stateMHandleEvent, hcur, if_pos hnum]
      · simp only [stateMHandleEvent, hcur, if_pos hflat]
    · have hflat := mt (flatten_final_iff hac current).mp hnum
      obtain ⟨out, hout⟩ : ∃ out, Concludes states event current
          { fsm := fsm, env := (getTransition event (inherited hac current) env).2 }
          (getTransition event (inherited hac current) env).1 out := hac.concludes _ _ _
      exact ⟨out, (triggers_inherited hac current env).handles hcur hnum hout,
        (flatten_triggers hac env hnum).handles hcur hflat (hout.flatten hac)⟩

theorem handles_flatten_iff (hac : Acyclic states) (fsm : SmStatemachine S) (env : ε)
    (out : LErr × SmRun S ε) :
    Handles (flatten hac) event fsm env out ↔ Handles states event fsm env out := by
  obtain ⟨out', h, hflat⟩ := handles_both event hac fsm env
  constructor
  · intro hout
    exact hflat.unique hout ▸ h
  · intro hout
    exact h.unique hout ▸ hflat

/-! ### Sequences of events -/

/-- The events of a list are handled one after the other, by a machine and on a memory that end as
`fsm'` and `env'`; every call adds its code and the actions it runs to the log. -/
inductive HandlesAll (states : S → SmState S V ε) :
    List (SmEvent V) → SmStatemachine S → ε → List (LErr × List (SmAction S)) →
      SmStatemachine S → ε → Prop
  | done {fsm env} : HandlesAll states [] fsm env [] fsm env
  | call {event events fsm env code run log fsm' env'}
      (h : Handles states event fsm env (code, run))
      (ht : HandlesAll states events run.fsm run.env log fsm' env') :
      HandlesAll states (event :: events) fsm env ((code, run.ran) :: log) fsm' env'

theorem Acyclic.handlesAll (hac : Acyclic states) (events : List (SmEvent V))
    (fsm : SmStatemachine S) (env : ε) :
    ∃ log fsm' env', HandlesAll states events fsm env log fsm' env' := by
  induction events generalizing fsm env with
  | nil => exact ⟨[], fsm, env, .done⟩
  | cons event events ih =>
    obtain ⟨⟨code, run⟩, h, -⟩ := handles_both event hac fsm env
    obtain ⟨log, fsm', env', ht⟩ := ih run.fsm run.env
    exact ⟨_, fsm', env', .call h ht⟩

theorem HandlesAll.of_handles {states' : S → SmState S V ε} {events : List (SmEvent V)}
    {fsm fsm' : SmStatemachine S} {env env' : ε} {log : List (LErr × List (SmAction S))}
    (hsame : ∀ event fsm env out, Handles states event fsm env out →
      Handles states' event fsm env out)
    (h : HandlesAll states events fsm env log fsm' env') :
    HandlesAll states' events fsm env log fsm' env' := by
  induction h with
  | done => exact .done
  | call h _ ih => exact .call (hsame _ _ _ _ h) ih

/-- The machine handles every sequence of events, and with a flat table, in which the states list
the transitions of their parents as their own, it does the same. -/
theorem hierarchy_is_inheritance (hac : Acyclic states) (events : List (SmEvent V))
    (fsm : SmStatemachine S) (env : ε) :
    (∃ log fsm' env', HandlesAll states events fsm env log fsm' env') ∧
      ∀ log fsm' env', HandlesAll (flatten hac) events fsm env log fsm' env' ↔
        HandlesAll states events fsm env log fsm' env' :=
  ⟨hac.handlesAll events fsm env, fun _ _ _ =>
    ⟨fun h => h.of_handles fun _ fsm env out => (handles_flatten_iff hac fsm env out).mp,
      fun h => h.of_handles fun _ fsm env out => (handles_flatten_iff hac fsm env out).mpr⟩⟩

/-- A group of two states with an entry state, and a state outside it to which the group leads. -/
inductive Room
  | group | front | back | outside
  deriving DecidableEq, Repr

/-- The transitions of the rooms; leaving is the business of the group. -/
def roomStates : Room → SmState Room Unit ℕ
  | .group =>
    { entryState := some .front
      transitions := [{ eventType := 1, condition := (), nextState := some .outside }]
      data := () }
  | .front =>
    { parentState := some .group
      transitions := [{ eventType := 0, condition := (), nextState := some .back }]
      data := ()
      exitAction := some fun _ _ n => (.ldOk, n + 1)
      entryAction := some fun _ _ n => (.ldOk, n + 1) }
  | .back =>
    { parentState := some .group
      transitions := [{ eventType := 0, condition := (), nextState := some .front }]
      data := ()
      exitAction := some fun _ _ n => (.ldOk, n + 1)
      entryAction := some fun _ _ n => (.ldOk, n + 1) }
  | .outside =>
    { transitions := [{ eventType := 1, condition := (), nextState := some .group }]
      data := () }

theorem roomStates_acyclic : Acyclic roomStates :=
  .of_rank (fun s => if s = .group then 0 else 1) (fun s => if s = .group then 1 else 0)
    (fun s p h => by cases s <;> cases p <;> simp_all [roomStates])
    (fun s e h => by cases s <;> cases e <;> simp_all [roomStates])

theorem hierarchy_is_inheritance_rooms :
    (∃ log fsm' env', HandlesAll roomStates [⟨1, ()⟩, ⟨1, ()⟩, ⟨0, ()⟩]
      (stateMInit (some .back) none) 0 log fsm' env') ∧
    ∀ log fsm' env',
      HandlesAll (flatten roomStates_acyclic) [⟨1, ()⟩, ⟨1, ()⟩, ⟨0, ()⟩]
        (stateMInit (some .back) none) 0 log fsm' env' ↔
      HandlesAll roomStates [⟨1, ()⟩, ⟨1, ()⟩, ⟨0, ()⟩]
        (stateMInit (some .back) none) 0 log fsm' env' :=
  hierarchy_is_inheritance roomStates_acyclic _ _ _

end LdacsSdk
