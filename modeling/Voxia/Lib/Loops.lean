/-
**Loops with a number of rounds.**

A loop goes from state to state until its body ends it with a result. `runLoop` gives it a number of rounds and is
`none` if they do not suffice. A loop that follows a table until it comes to an entry where it stops ends exactly if
an entry of that kind is on its way (`loopEnds_iff_iterate`).
-/

import Mathlib.Logic.Function.Iterate
import Mathlib.Order.Basic

namespace Voxia.Lib

variable {σ β : Type*} {body : σ → β ⊕ σ}

def runLoop (body : σ → β ⊕ σ) : Nat → σ → Option β
  | 0, _ => none
  | fuel + 1, state =>
    match body state with
    | .inl result => some result
    | .inr state => runLoop body fuel state

variable {state state' : σ} {result : β}

theorem runLoop_inl (ends : body state = .inl result) (fuel : Nat) : runLoop body (fuel + 1) state = some result := by
  rw [runLoop, ends]

theorem runLoop_inr (goes : body state = .inr state') (fuel : Nat) :
    runLoop body (fuel + 1) state = runLoop body fuel state' := by
  rw [runLoop, goes]

/-- More rounds change nothing. -/
theorem runLoop_mono {fuel fuel' : Nat} (less : fuel ≤ fuel')
    (run : runLoop body fuel state = some result) : runLoop body fuel' state = some result := by
  induction fuel generalizing fuel' state with
  | zero => cases run
  | succ fuel ih =>
    obtain ⟨more, rfl⟩ : ∃ more, fuel' = more + 1 := ⟨fuel' - 1, by omega⟩
    cases step : body state with
    | inl ended =>
      rw [runLoop_inl step] at run ⊢
      exact run
    | inr state' =>
      rw [runLoop_inr step] at run ⊢
      exact ih (Nat.le_of_succ_le_succ less) run

def LoopEnds (body : σ → β ⊕ σ) (state : σ) : Prop := ∃ fuel result, runLoop body fuel state = some result

theorem LoopEnds.of_inl (ends : body state = .inl result) : LoopEnds body state :=
  ⟨1, result, runLoop_inl ends 0⟩

theorem loopEnds_inr (goes : body state = .inr state') : LoopEnds body state ↔ LoopEnds body state' := by
  constructor
  · rintro ⟨fuel, result, run⟩
    cases fuel with
    | zero => cases run
    | succ fuel => exact ⟨fuel, result, (runLoop_inr goes fuel).symm.trans run⟩
  · rintro ⟨fuel, result, run⟩
    exact ⟨fuel + 1, result, (runLoop_inr goes fuel).trans run⟩

section Table

variable {α : Type*} (place : σ → α) (Stop : α → Prop) {next : α → α}

variable {state : σ}

theorem loopEnds_of_iterate (stops : ∀ state, Stop (place state) → ∃ result, body state = .inl result)
    (goes : ∀ state state', body state = .inr state' → place state' = next (place state)) {n : Nat}
    (stop : Stop (next^[n] (place state))) : LoopEnds body state := by
  induction n generalizing state with
  | zero =>
    obtain ⟨result, ends⟩ := stops state stop
    exact .of_inl ends
  | succ n ih =>
    cases step : body state with
    | inl result => exact .of_inl step
    | inr state' =>
      refine (loopEnds_inr step).mpr (ih ?_)
      rw [goes state state' step]
      exact stop

theorem iterate_of_loopEnds
    (goes : ∀ state, ¬ Stop (place state) → ∃ state', body state = .inr state' ∧ place state' = next (place state))
    (ends : LoopEnds body state) : ∃ n, Stop (next^[n] (place state)) := by
  obtain ⟨fuel, result, run⟩ := ends
  induction fuel generalizing state with
  | zero => cases run
  | succ fuel ih =>
    by_cases stop : Stop (place state)
    · exact ⟨0, stop⟩
    · obtain ⟨state', step, here⟩ := goes state stop
      obtain ⟨n, later⟩ := ih ((runLoop_inr step fuel).symm.trans run)
      rw [here] at later
      exact ⟨n + 1, later⟩

/-- **A loop along a table** ends exactly if an entry where it stops is on its way. -/
theorem loopEnds_iff_iterate (stops : ∀ state, Stop (place state) → ∃ result, body state = .inl result)
    (goes : ∀ state, ¬ Stop (place state) → ∃ state', body state = .inr state' ∧ place state' = next (place state))
    (state : σ) : LoopEnds body state ↔ ∃ n, Stop (next^[n] (place state)) := by
  refine ⟨iterate_of_loopEnds place Stop goes, fun ⟨n, stop⟩ => ?_⟩
  refine loopEnds_of_iterate place Stop stops (fun state state' step => ?_) stop
  by_cases now : Stop (place state)
  · obtain ⟨result, ends⟩ := stops state now
    rw [ends] at step
    cases step
  · obtain ⟨state'', step', here⟩ := goes state now
    obtain rfl := Sum.inr.inj (step'.symm.trans step)
    exact here

end Table

end Voxia.Lib
