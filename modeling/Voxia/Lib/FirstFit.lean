/-
**First-fit search for a run of clear bits.**

The allocators of the kernel look for `need` consecutive clear bits with one pass that keeps two numbers: how many
clear bits were seen in a row (`consecutive`), and where that row began (`start`). Full words are skipped without
looking at their bits. `Scan bits need i consecutive start` is what the pass knows when it has looked at the positions
`j < i`.
-/

import Voxia.Lib.Spans

namespace Voxia.Lib

/-- The positions from `first` on are the first `need` clear ones in a row below `total`. -/
structure FirstRun (bits : Nat → Bool) (need total first : Nat) : Prop where
  within : first + need ≤ total
  clear : ∀ j, first ≤ j → j < first + need → bits j = false
  least : ∀ other, other < first → ∃ j, other ≤ j ∧ j < other + need ∧ bits j

/-- Every window of `need` positions below `total` has a marked one. -/
def NoRun (bits : Nat → Bool) (need total : Nat) : Prop :=
  ∀ first, first + need ≤ total → ∃ j, first ≤ j ∧ j < first + need ∧ bits j

/-- What one pass over the positions `j < i` knows while no run of `need` was complete. -/
structure Scan (bits : Nat → Bool) (need i consecutive start : Nat) : Prop where
  short : consecutive < need
  le : consecutive ≤ i
  /-- While a row is open, it ends here. -/
  start_eq : 0 < consecutive → start + consecutive = i
  row : ∀ j, i ≤ j + consecutive → j < i → bits j = false
  /-- The row cannot be extended to the left. -/
  maximal : consecutive = i ∨ bits (i - consecutive - 1)
  none_before : NoRun bits need i

namespace Scan

variable {bits : Nat → Bool} {need i consecutive start : Nat}

theorem init (positive : 0 < need) (start : Nat) : Scan bits need 0 0 start where
  short := positive
  le := le_rfl
  start_eq := fun impossible => absurd impossible (by decide)
  row := by intro j above below; omega
  maximal := .inl rfl
  none_before := by intro first below; omega

section

variable (scan : Scan bits need i consecutive start)

include scan

theorem skip {stop : Nat} (further : i < stop) (full : ∀ j, i ≤ j → j < stop → bits j) (start' : Nat) :
    Scan bits need stop 0 start' where
  short := lt_of_le_of_lt (Nat.zero_le _) scan.short
  le := Nat.zero_le _
  start_eq := fun impossible => absurd impossible (by decide)
  row := by intro j above below; omega
  maximal := .inr (full _ (by omega) (by omega))
  none_before := by
    intro first below
    by_cases before : first + need ≤ i
    · exact scan.none_before first before
    · have positive := scan.short
      exact ⟨max i first, by omega, by omega, full _ (by omega) (by omega)⟩

theorem marked (used : bits i) : Scan bits need (i + 1) 0 start := by
  refine scan.skip (Nat.lt_succ_self i) (fun j above below => ?_) start
  rw [show j = i by omega]
  exact used

theorem start_succ : (if consecutive = 0 then i else start) + consecutive = i := by
  have eq := scan.start_eq
  split_ifs with empty <;> omega

/-- No run of `need` positions that ends after `i` starts left of the open row. -/
theorem blocked {first : Nat} (left : first + consecutive < i) (reaches : i ≤ first + need) :
    ∃ j, first ≤ j ∧ j < first + need ∧ bits j := by
  obtain whole | used := scan.maximal
  · omega
  · exact ⟨i - consecutive - 1, by omega, by omega, used⟩

theorem clear (unused : bits i = false) (short : consecutive + 1 ≠ need) :
    Scan bits need (i + 1) (consecutive + 1) (if consecutive = 0 then i else start) where
  short := by have := scan.short; omega
  le := by have := scan.le; omega
  start_eq := by intro _; have := scan.start_succ; omega
  row := by
    intro j above below
    by_cases here : j = i
    · rw [here]; exact unused
    · exact scan.row j (by omega) (by omega)
  maximal := by
    rw [show i + 1 - (consecutive + 1) - 1 = i - consecutive - 1 by omega]
    exact scan.maximal.imp (fun whole => by omega) id
  none_before := by
    intro first below
    by_cases before : first + need ≤ i
    · exact scan.none_before first before
    · have := scan.short
      exact scan.blocked (by omega) (by omega)

end

variable {total : Nat}

/-- **The row is long enough.** It is a run of clear positions inside the scanned part, and no run
starts before it. -/
theorem found (scan : Scan bits need i consecutive start) (unused : bits i = false) (long : consecutive + 1 = need)
    (inside : i < total) : FirstRun bits need total (if consecutive = 0 then i else start) := by
  have ends := scan.start_succ
  refine ⟨by omega, fun j above below => ?_, fun other before => ?_⟩
  · by_cases here : j = i
    · rw [here]; exact unused
    · exact scan.row j (by omega) (by omega)
  · by_cases whole : other + need ≤ i
    · exact scan.none_before other whole
    · exact scan.blocked (by omega) (by omega)

theorem noRun (scan : Scan bits need i consecutive start) (past : total ≤ i) : NoRun bits need total :=
  fun first below => scan.none_before first (below.trans past)

end Scan

variable {bits : Nat → Bool} {need total first : Nat}

section

variable (run : FirstRun bits need total first)

include run

theorem FirstRun.clear_of_covers {i : Nat} (inside : (⟨first, need⟩ : Span).Covers i) : bits i = false :=
  run.clear i inside.1 inside.2

theorem FirstRun.not_marked : ¬ ∃ j, first ≤ j ∧ j < first + need ∧ bits j := by
  rintro ⟨j, above, below, used⟩
  rw [run.clear j above below] at used
  exact absurd used (by decide)

theorem FirstRun.not_noRun : ¬ NoRun bits need total :=
  fun none => run.not_marked (none first run.within)

theorem FirstRun.unique {other : Nat} (run' : FirstRun bits need total other) : other = first := by
  rcases Nat.lt_trichotomy other first with before | same | after
  · exact absurd (run.least other before) run'.not_marked
  · exact same
  · exact absurd (run'.least first after) run.not_marked

end

end Voxia.Lib
