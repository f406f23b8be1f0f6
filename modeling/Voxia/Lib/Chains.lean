/-
**Chains of links that end in a mark.**

A table gives every cell a value: the next cell, or an end mark. `Linked next isEnd v cells` says that following the
table from the value `v` visits exactly `cells` and then meets an end mark. The list is determined by the start, so a
chain never meets a cell twice, and depends on the entries of its own cells only.
-/

import Mathlib.Data.List.Nodup

namespace Voxia.Lib

open List

variable {α : Type*} {next next' : α → α} {isEnd : α → Prop}

/-- The cells met from the value `v` on, up to an end mark. -/
def Linked (next : α → α) (isEnd : α → Prop) : α → List α → Prop
  | v, [] => isEnd v
  | v, c :: rest => v = c ∧ ¬ isEnd v ∧ Linked next isEnd (next c) rest

namespace Linked

variable {v c : α} {cells : List α}

theorem unique {cells' : List α} (first : Linked next isEnd v cells)
    (second : Linked next isEnd v cells') : cells = cells' := by
  induction cells generalizing v cells' with
  | nil =>
    cases cells' with
    | nil => rfl
    | cons c rest => exact absurd first second.2.1
  | cons c rest ih =>
    obtain ⟨rfl, notEnd, tail⟩ := first
    cases cells' with
    | nil => exact absurd second notEnd
    | cons c' rest' =>
      obtain ⟨rfl, -, tail'⟩ := second
      rw [ih tail tail']

theorem congr (linked : Linked next isEnd v cells)
    (same : ∀ c ∈ cells, next' c = next c) : Linked next' isEnd v cells := by
  induction cells generalizing v with
  | nil => exact linked
  | cons c rest ih =>
    obtain ⟨rfl, notEnd, tail⟩ := linked
    refine ⟨rfl, notEnd, ?_⟩
    rw [same v mem_cons_self]
    exact ih tail fun c' inside => same c' (mem_cons_of_mem _ inside)

theorem suffix {before after : List α} (linked : Linked next isEnd v (before ++ c :: after)) :
    Linked next isEnd c (c :: after) := by
  induction before generalizing v with
  | nil =>
    obtain ⟨rfl, notEnd, tail⟩ := linked
    exact ⟨rfl, notEnd, tail⟩
  | cons b before ih => exact ih linked.2.2

section

variable (linked : Linked next isEnd v cells)

include linked

theorem not_isEnd (inside : c ∈ cells) : ¬ isEnd c := by
  obtain ⟨before, after, rfl⟩ := append_of_mem inside
  exact linked.suffix.2.1

theorem nodup : cells.Nodup := by
  induction cells generalizing v with
  | nil => exact nodup_nil
  | cons c rest ih =>
    refine nodup_cons.mpr ⟨fun again => ?_, ih linked.2.2⟩
    -- a second visit would start the same chain again, but a shorter one
    obtain ⟨before, after, rfl⟩ := append_of_mem again
    have whole : Linked next isEnd c (c :: (before ++ c :: after)) :=
      ⟨rfl, linked.not_isEnd mem_cons_self, linked.2.2⟩
    have same := congrArg List.length (whole.unique (linked.2.2.suffix))
    simp only [length_cons, length_append] at same
    omega

theorem head_mem (some : cells ≠ []) : v ∈ cells := by
  cases cells with
  | nil => exact absurd rfl some
  | cons c rest =>
    rw [linked.1]
    exact mem_cons_self

end

end Linked

end Voxia.Lib
