/-
**Runs that leave a trace.**

A step takes a state and an action to a state and the events it causes; a run is a list of actions.
`trace_iff`: where a step from a good state causes only harmless events exactly under a condition, a
whole run does exactly if every step meets the condition (`Along`).
-/

import Mathlib.Data.List.Basic

namespace Voxia.Lib.Traces

variable {State Action Event : Type} (step : State → Action → State × List Event)

/-- The state after a list of actions, and all events on the way. -/
def run : State → List Action → State × List Event
  | s, [] => (s, [])
  | s, a :: rest => ((run (step s a).1 rest).1, (step s a).2 ++ (run (step s a).1 rest).2)

/-- Every action meets the condition in the state it is taken in. -/
def Along (meets : State → Action → Prop) : State → List Action → Prop
  | _, [] => True
  | s, a :: rest => meets s a ∧ Along meets (step s a).1 rest

variable {step} {inv : State → Prop}

variable {meets : State → Action → Prop}

/-- **The invariant rule under a condition** on every step. -/
theorem run_along (keeps : ∀ s a, inv s → meets s a → inv (step s a).1)
    (actions : List Action) : ∀ s, inv s → Along step meets s actions → inv (run step s actions).1 := by
  induction actions with
  | nil => exact fun s holds _ => holds
  | cons a rest ih => exact fun s holds along => ih _ (keeps s a holds along.1) along.2

theorem run_inv (keeps : ∀ s a, inv s → inv (step s a).1) (actions : List Action) :
    ∀ s, inv s → inv (run step s actions).1 := by
  induction actions with
  | nil => exact fun s holds => holds
  | cons a rest ih => exact fun s holds => ih _ (keeps s a holds)

/-- **The rule for conditions**: every step of a run has a property if and only if every step meets the condition
for it. -/
theorem along_iff {good : State → Action → Prop} (keeps : ∀ s a, inv s → meets s a → inv (step s a).1)
    (one : ∀ s a, inv s → (good s a ↔ meets s a)) (actions : List Action) :
    ∀ s, inv s → (Along step good s actions ↔ Along step meets s actions) := by
  induction actions with
  | nil => exact fun s _ => Iff.rfl
  | cons a rest ih =>
    intro s holds
    rw [Along, Along, one s a holds]
    exact and_congr_right fun met => ih _ (keeps s a holds met)

/-- **The trace rule**: harmless steps are those that meet the condition, and so are harmless runs. -/
theorem trace_iff {harmless : Event → Prop} (keeps : ∀ s a, inv s → inv (step s a).1)
    (one : ∀ s a, inv s → ((∀ e ∈ (step s a).2, harmless e) ↔ meets s a)) (actions : List Action) :
    ∀ s, inv s → ((∀ e ∈ (run step s actions).2, harmless e) ↔ Along step meets s actions) := by
  induction actions with
  | nil => exact fun s _ => ⟨fun _ => trivial, fun _ e inside => by cases inside⟩
  | cons a rest ih =>
    intro s holds
    rw [Along, ← one s a holds, ← ih _ (keeps s a holds), run]
    exact List.forall_mem_append

/-- **What the events tell of the final state**: a relation that holds when an event is caused, and that
later steps keep. -/
theorem run_events {tells : State → Event → Prop} (keeps : ∀ s a, inv s → inv (step s a).1)
    (caused : ∀ s a e, inv s → e ∈ (step s a).2 → tells (step s a).1 e)
    (stays : ∀ s a e, tells s e → tells (step s a).1 e) (actions : List Action) :
    ∀ s, inv s → ∀ e ∈ (run step s actions).2, tells (run step s actions).1 e := by
  have later : ∀ (actions : List Action) s e, tells s e → tells (run step s actions).1 e := by
    intro actions
    induction actions with
    | nil => exact fun s e told => told
    | cons a rest ih => exact fun s e told => ih _ e (stays s a e told)
  induction actions with
  | nil => exact fun s _ e inside => by cases inside
  | cons a rest ih =>
    intro s holds e inside
    rcases List.mem_append.mp inside with now | afterwards
    · exact later rest _ e (caused s a e holds now)
    · exact ih _ (keeps s a holds) e afterwards

end Voxia.Lib.Traces
