import Mathlib.Init

/-! Runs of a machine that takes one event after another, and the rule for what holds in every
state such a run reaches: it holds at the start and each admissible step keeps it. -/

namespace LeafageEvm

variable {State Event : Type} {step : State → Event → State} {state : State} {events : List Event}
variable {admits : State → Event → Prop} {final : State} (inv : State → Prop)

def RunMeets (step : State → Event → State) (admits : State → Event → Prop) :
    State → List Event → Prop
  | _, [] => True
  | state, event :: events => admits state event ∧ RunMeets step admits (step state event) events

instance RunMeets.decidable (step : State → Event → State) (admits : State → Event → Prop)
    [∀ state event, Decidable (admits state event)] :
    ∀ state events, Decidable (RunMeets step admits state events)
  | _, [] => .isTrue trivial
  | state, event :: events =>
    have := RunMeets.decidable step admits (step state event) events
    inferInstanceAs (Decidable (_ ∧ _))

section
variable (hstep : ∀ state event, inv state → admits state event → inv (step state event))
include hstep
/-- **The invariant rule.** -/
theorem run_invariant
    (hinit : inv state) (hmeets : RunMeets step admits state events) : inv (events.foldl step state) := by
  induction events generalizing state with
  | nil => exact hinit
  | cons event _ ih => exact ih (hstep state event hinit hmeets.1) hmeets.2

theorem RunMeets.of_invariant {goal : State → Event → Prop}
    (hgoal : ∀ state event, inv state → admits state event → goal state event)
    (hinit : inv state) (hmeets : RunMeets step admits state events) : RunMeets step goal state events := by
  induction events generalizing state with
  | nil => trivial
  | cons event _ ih =>
    exact ⟨hgoal state event hinit hmeets.1, ih (hstep state event hinit hmeets.1) hmeets.2⟩
end

theorem RunMeets.and {admits' : State → Event → Prop} (h : RunMeets step admits state events)
    (h' : RunMeets step admits' state events) :
    RunMeets step (fun state event => admits state event ∧ admits' state event) state events := by
  induction events generalizing state with
  | nil => trivial
  | cons _ _ ih => exact ⟨⟨h.1, h'.1⟩, ih h.2 h'.2⟩

/-! ### Machines whose steps may be blocked -/

/-- The state after a run all of whose steps could be taken. -/
def runSome (step : State → Event → Option State) : State → List Event → Option State
  | state, [] => some state
  | state, event :: events => (step state event).bind fun next => runSome step next events

theorem runSome_append {step : State → Event → Option State} {events' : List Event} :
    runSome step state (events ++ events') = some final ↔
      ∃ middle, runSome step state events = some middle ∧ runSome step middle events' = some final := by
  induction events generalizing state with
  | nil => simp [runSome]
  | cons _ _ ih =>
    simp only [List.cons_append, runSome, Option.bind_eq_some_iff, ih]
    constructor
    · rintro ⟨next, hnext, middle, hmiddle, hfinal⟩
      exact ⟨middle, ⟨next, hnext, hmiddle⟩, hfinal⟩
    · rintro ⟨middle, ⟨next, hnext, hmiddle⟩, hfinal⟩
      exact ⟨next, hnext, middle, hmiddle, hfinal⟩

/-- **The invariant rule**, for such a run. -/
theorem runSome_invariant {step : State → Event → Option State} {admits : Event → Prop}
    (hstep : ∀ state event next, inv state → admits event → step state event = some next → inv next)
    (hinit : inv state) (hadmits : ∀ event ∈ events, admits event)
    (hrun : runSome step state events = some final) : inv final := by
  induction events generalizing state with
  | nil =>
    cases hrun
    exact hinit
  | cons event _ ih =>
    obtain ⟨next, hnext, hrest⟩ := Option.bind_eq_some_iff.mp hrun
    refine ih (hstep state event next hinit (hadmits _ (.head _)) hnext) ?_ hrest
    exact fun other hother => hadmits other (.tail _ hother)

end LeafageEvm
