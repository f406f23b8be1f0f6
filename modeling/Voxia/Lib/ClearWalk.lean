/-
**A walk that clears what it reads.**

From a cell the walk goes to the one its entry names and sets the entry to a mark, `zero`, which ends walks. So it
ends on any table whose entries stay in a finite set: a circle is left where it was entered. A cell whose entry was
`zero`, at the start or because it was visited before, is visited last.
-/

import Voxia.Lib.Chains
import Mathlib.Data.Finset.Card
import Mathlib.Logic.Function.Basic

namespace Voxia.Lib

open Function List

variable {α : Type*} [DecidableEq α] {isEnd : α → Prop} {zero : α} {next : α → α}

/-- The cells that can be reached from a value. -/
inductive Reaches (next : α → α) (isEnd : α → Prop) : α → α → Prop
  | here {v : α} (cell : ¬ isEnd v) : Reaches next isEnd v v
  | there {v x : α} (cell : ¬ isEnd v) (rest : Reaches next isEnd (next v) x) : Reaches next isEnd v x

namespace Reaches

variable {v x a : α}

omit [DecidableEq α] in
theorem cell (path : Reaches next isEnd v x) : ¬ isEnd v := by
  cases path with
  | here cell => exact cell
  | there cell => exact cell

theorem of_update (zeroEnds : isEnd zero) (path : Reaches (update next v zero) isEnd a x) : Reaches next isEnd a x := by
  induction path with
  | here cell => exact .here cell
  | @there a x cell rest ih =>
    by_cases here : a = v
    · rw [here, update_self] at rest
      exact absurd zeroEnds rest.cell
    · rw [update_of_ne here] at ih
      exact .there cell ih

omit [DecidableEq α] in
theorem mem_of_closed {cells : List α} (closed : ∀ c ∈ cells, isEnd (next c) ∨ next c ∈ cells)
    (path : Reaches next isEnd a x) (member : a ∈ cells) : x ∈ cells := by
  induction path with
  | here => exact member
  | @there a x cell rest ih =>
    rcases closed a member with ends | later
    · exact absurd ends rest.cell
    · exact ih later

omit [DecidableEq α] in
theorem onward (path : Reaches next isEnd v x) (cell : ¬ isEnd (next x)) : Reaches next isEnd v (next x) := by
  induction path with
  | here start => exact .there start (.here cell)
  | there start _ ih => exact .there start (ih cell)

omit [DecidableEq α] in
theorem of_congr {next' : α → α} (same : ∀ c, Reaches next isEnd v c → next' c = next c)
    (path : Reaches next' isEnd v x) : Reaches next isEnd v x := by
  have general : ∀ {a b}, Reaches next' isEnd a b → Reaches next isEnd v a → Reaches next isEnd v b := by
    intro a b steps
    induction steps with
    | here => exact id
    | @there a b _ rest ih =>
      intro reached
      have entry := same a reached
      rw [entry] at ih
      exact ih (reached.onward (entry ▸ rest.cell))
  exact general path (.here path.cell)

end Reaches

/-- The cells visited by a walk that sets every entry it reads to `zero`. -/
inductive Visits (isEnd : α → Prop) (zero : α) : (α → α) → α → List α → Prop
  | stop {next : α → α} {v : α} (ends : isEnd v) : Visits isEnd zero next v []
  | step {next : α → α} {v : α} {rest : List α} (cell : ¬ isEnd v)
      (tail : Visits isEnd zero (update next v zero) (next v) rest) : Visits isEnd zero next v (v :: rest)

namespace Visits

variable {v : α} {cells : List α}

theorem unique {cells' : List α} (first : Visits isEnd zero next v cells)
    (second : Visits isEnd zero next v cells') : cells = cells' := by
  induction first generalizing cells' with
  | stop ends =>
    cases second with
    | stop => rfl
    | step cell => exact absurd ends cell
  | step cell _ ih =>
    cases second with
    | stop ends => exact absurd ends cell
    | step _ tail => rw [ih tail]

section

variable (visits : Visits isEnd zero next v cells)

include visits

theorem congr {next' : α → α} (same : ∀ c ∈ cells, next' c = next c) : Visits isEnd zero next' v cells := by
  induction visits generalizing next' with
  | stop ends => exact .stop ends
  | @step next v rest cell tail ih =>
    refine .step cell ?_
    rw [same v mem_cons_self]
    refine ih fun c member => ?_
    by_cases here : c = v
    · rw [here, update_self, update_self]
    · rw [update_of_ne here, update_of_ne here, same c (mem_cons_of_mem _ member)]

theorem closed : ∀ c ∈ cells, isEnd (next c) ∨ next c ∈ cells := by
  induction visits with
  | stop => exact fun c member => absurd member not_mem_nil
  | @step next v rest cell tail ih =>
    have head : isEnd (next v) ∨ next v ∈ v :: rest := by
      cases tail with
      | stop ends => exact .inl ends
      | step => exact .inr (mem_cons_of_mem _ mem_cons_self)
    intro c member
    by_cases here : c = v
    · rw [here]
      exact head
    · have later := ih c ((mem_cons.mp member).resolve_left here)
      rw [update_of_ne here] at later
      exact later.imp_right (mem_cons_of_mem _)

theorem head (cell : ¬ isEnd v) : v ∈ cells := by
  cases visits with
  | stop ends => exact absurd ends cell
  | step => exact mem_cons_self

end

theorem mem_iff (zeroEnds : isEnd zero) (visits : Visits isEnd zero next v cells) (x : α) :
    x ∈ cells ↔ Reaches next isEnd v x := by
  constructor
  · intro member
    induction visits with
    | stop => exact absurd member not_mem_nil
    | step cell _ ih =>
      rcases mem_cons.mp member with rfl | later
      · exact .here cell
      · exact .there cell (Reaches.of_update zeroEnds (ih later))
  · intro path
    exact path.mem_of_closed visits.closed (visits.head path.cell)

/-- A walk inside finitely many cells ends: it clears each link it passes. -/
theorem ends (zeroEnds : isEnd zero) (cells : Finset α) {next : α → α}
    (links : ∀ c ∈ cells, isEnd (next c) ∨ next c ∈ cells) (start : isEnd v ∨ v ∈ cells) :
    ∃ visited, Visits isEnd zero next v visited ∧ ∀ c ∈ visited, c ∈ cells := by
  -- every visit but the last clears an entry
  induction measure : (cells.filter fun c => next c ≠ zero).card using Nat.strong_induction_on generalizing next v with
  | _ n ih =>
    by_cases ends : isEnd v
    · exact ⟨[], .stop ends, fun c member => absurd member not_mem_nil⟩
    have member := start.resolve_left ends
    have tail : ∃ visited, Visits isEnd zero (update next v zero) (next v) visited ∧
        ∀ c ∈ visited, c ∈ cells := by
      by_cases cleared : next v = zero
      · rw [cleared]
        exact ⟨[], .stop zeroEnds, fun c member => absurd member not_mem_nil⟩
      have links' : ∀ c ∈ cells, isEnd (update next v zero c) ∨ update next v zero c ∈ cells := by
        intro c inside
        by_cases here : c = v
        · rw [here, update_self]
          exact .inl zeroEnds
        · rw [update_of_ne here]
          exact links c inside
      refine ih _ ?_ links' (links v member) rfl
      rw [← measure]
      refine Finset.card_lt_card (Finset.ssubset_iff_of_subset ?_ |>.mpr ⟨v, ?_, ?_⟩)
      · intro c inside
        rw [Finset.mem_filter] at inside ⊢
        by_cases here : c = v
        · rw [here, update_self] at inside
          exact absurd rfl inside.2
        · rw [update_of_ne here] at inside
          exact inside
      · exact Finset.mem_filter.mpr ⟨member, cleared⟩
      · rw [Finset.mem_filter, update_self]
        exact fun both => both.2 rfl
    obtain ⟨visited, walk, inside⟩ := tail
    refine ⟨v :: visited, .step ends walk, fun c here => ?_⟩
    rcases mem_cons.mp here with rfl | later
    · exact member
    · exact inside c later

theorem filter_cons_of_ne (rest : List α) (entry : next v ≠ zero) :
    ((v :: rest).toFinset.filter fun c => next c ≠ zero) =
      insert v (rest.toFinset.filter fun c => update next v zero c ≠ zero) := by
  ext c
  rw [Finset.mem_filter, Finset.mem_insert, Finset.mem_filter, mem_toFinset, mem_toFinset, mem_cons]
  by_cases here : c = v
  · rw [here]
    exact iff_of_true ⟨.inl rfl, entry⟩ (.inl rfl)
  · rw [update_of_ne here]
    simp only [here, false_or]

theorem notMem_filter_update (rest : List α) : v ∉ rest.toFinset.filter fun c => update next v zero c ≠ zero := by
  rw [Finset.mem_filter, update_self]
  exact fun both => both.2 rfl

theorem length_le (zeroEnds : isEnd zero) (visits : Visits isEnd zero next v cells) :
    cells.length ≤ (cells.toFinset.filter fun c => next c ≠ zero).card + 1 := by
  induction visits with
  | stop => exact Nat.zero_le _
  | @step next v rest cell tail ih =>
    by_cases cleared : next v = zero
    · rw [cleared] at tail
      rw [tail.unique (.stop zeroEnds)]
      exact Nat.le_add_left 1 _
    · rw [filter_cons_of_ne rest cleared, Finset.card_insert_of_notMem (notMem_filter_update rest), length_cons]
      omega

/-- **Every visit clears an entry exactly if the cells are a chain** without an entry that was cleared before. -/
theorem length_eq_iff (zeroEnds : isEnd zero) (visits : Visits isEnd zero next v cells) :
    cells.length = (cells.toFinset.filter fun c => next c ≠ zero).card ↔
      ∃ chain, Linked next isEnd v chain ∧ ∀ c ∈ chain, next c ≠ zero := by
  induction visits with
  | stop ends => exact iff_of_true rfl ⟨[], ends, fun c member => absurd member not_mem_nil⟩
  | @step next v rest cell tail ih =>
    by_cases cleared : next v = zero
    · have nothing : rest = [] := by
        rw [cleared] at tail
        exact tail.unique (.stop zeroEnds)
      refine iff_of_false ?_ ?_
      · rw [nothing, length_singleton, toFinset_cons, toFinset_nil, insert_empty_eq,
          Finset.filter_singleton, if_neg (not_not_intro cleared), Finset.card_empty]
        decide
      · rintro ⟨chain, linked, entries⟩
        cases chain with
        | nil => exact cell linked
        | cons c rest => exact entries c mem_cons_self (linked.1 ▸ cleared)
    · rw [filter_cons_of_ne rest cleared, Finset.card_insert_of_notMem (notMem_filter_update rest), length_cons,
        Nat.add_right_cancel_iff, ih]
      constructor
      · rintro ⟨chain, linked, entries⟩
        have apart : v ∉ chain := fun member => entries v member (update_self _ _ _)
        have same : ∀ c ∈ chain, next c = update next v zero c := fun c member =>
          (update_of_ne (ne_of_mem_of_not_mem member apart) _ _).symm
        refine ⟨v :: chain, ⟨rfl, cell, linked.congr same⟩, fun c member => ?_⟩
        rcases mem_cons.mp member with rfl | later
        · exact cleared
        · rw [same c later]
          exact entries c later
      · rintro ⟨chain, linked, entries⟩
        cases chain with
        | nil => exact absurd linked cell
        | cons c chain =>
          have distinct := (nodup_cons.mp linked.nodup).1
          obtain ⟨rfl, -, linked⟩ := linked
          have same : ∀ c ∈ chain, update next v zero c = next c := fun c member =>
            update_of_ne (ne_of_mem_of_not_mem member distinct) _ _
          refine ⟨chain, linked.congr same, fun c member => ?_⟩
          rw [same c member]
          exact entries c (mem_cons_of_mem _ member)

end Visits

end Voxia.Lib
