/-
**Doubly linked lists that end in a null pointer.**

`DLinked next prev null back head cells` says that the list from `head` on visits exactly `cells`, that the `prev`
field of every cell names the cell before it, and that the first one has `back` there: `null` for a list that begins
at its head. The moves are stated over the fields before and after them, so that it does not matter how the fields are
stored. `Circular next prev head cells` is the other form: such lists begin and end at a head cell.
-/

import Voxia.Lib.Chains
import Voxia.Lib.Ring

namespace Voxia.Lib

open List

variable {α : Type*} {next prev next' prev' : α → α} {null : α}

/-- The cells from `head` on, where `back` is what the first of them has in its `prev` field. -/
def DLinked (next prev : α → α) (null : α) : α → α → List α → Prop
  | _, head, [] => head = null
  | back, head, c :: rest => head = c ∧ c ≠ null ∧ prev c = back ∧ DLinked next prev null c (next c) rest

namespace DLinked

variable {back head s : α} {cells before after : List α}

section

variable (list : DLinked next prev null back head cells)

include list

theorem linked : Linked next (· = null) head cells := by
  induction cells generalizing back head with
  | nil => exact list
  | cons c rest ih =>
    obtain ⟨rfl, notNull, -, tail⟩ := list
    exact ⟨rfl, notNull, ih tail⟩

theorem nodup : cells.Nodup :=
  list.linked.nodup

theorem ne_null {c : α} (member : c ∈ cells) : c ≠ null :=
  list.linked.not_isEnd member

theorem congr (sameNext : ∀ c ∈ cells, next' c = next c) (samePrev : ∀ c ∈ cells, prev' c = prev c) :
    DLinked next' prev' null back head cells := by
  induction cells generalizing back head with
  | nil => exact list
  | cons c rest ih =>
    obtain ⟨rfl, notNull, first, tail⟩ := list
    refine ⟨rfl, notNull, (samePrev head mem_cons_self).trans first, ?_⟩
    rw [sameNext head mem_cons_self]
    exact ih tail (fun c member => sameNext c (mem_cons_of_mem _ member))
      fun c member => samePrev c (mem_cons_of_mem _ member)

end

theorem neighbours (list : DLinked next prev null back head (before ++ s :: after)) :
    prev s = before.getLastD back ∧ next s = after.headD null := by
  induction before generalizing back head with
  | nil =>
    obtain ⟨rfl, -, first, tail⟩ := list
    refine ⟨first, ?_⟩
    cases after with
    | nil => exact tail
    | cons a rest => exact tail.1
  | cons b before ih =>
    obtain ⟨previous, following⟩ := ih list.2.2.2
    refine ⟨?_, following⟩
    rw [previous, getLastD_cons]

theorem getLastD_mem (some : cells ≠ []) (other : α) : cells.getLastD other ∈ cells := by
  rw [getLastD_eq_getLast?, List.getLast?_eq_some_getLast some, Option.getD_some]
  exact getLast_mem some

section

variable (list : DLinked next prev null back head (before ++ s :: after))

include list

theorem prev_cases : before = [] ∧ prev s = back ∨ before ≠ [] ∧ prev s ∈ before := by
  rw [list.neighbours.1]
  by_cases none : before = []
  · exact .inl ⟨none, by rw [none]; rfl⟩
  · exact .inr ⟨none, getLastD_mem none back⟩

theorem next_cases : next s = null ∨ next s ∈ after := by
  rw [list.neighbours.2]
  cases after with
  | nil => exact .inl rfl
  | cons a rest => exact .inr mem_cons_self

/-- **A cell is removed**: the cell before it is linked to the one behind it. -/
theorem remove [DecidableEq α] (outside : back ∉ before ++ s :: after)
    (nextField : ∀ c ∈ before ++ after, next' c = if c = prev s then next s else next c)
    (prevField : ∀ c ∈ before ++ after, prev' c = if c = next s then prev s else prev c) :
    DLinked next' prev' null back (if before = [] then next s else head) (before ++ after) := by
  obtain ⟨previous, following⟩ := list.neighbours
  have nodup := list.nodup
  induction before generalizing back head with
  | nil =>
    obtain ⟨rfl, notNull, first, tail⟩ := list
    -- no cell behind the removed one is linked to the cells before it
    have sameNext : ∀ c ∈ after, next' c = next c := by
      intro c member
      have different : c ≠ prev head := fun same => outside (by rw [← first, ← same]; exact mem_cons_of_mem _ member)
      rw [nextField c member, if_neg different]
    cases after with
    | nil => exact tail
    | cons a rest =>
      obtain ⟨front, present, -, tail⟩ := tail
      refine ⟨front, present, ?_, ?_⟩
      · rw [prevField a mem_cons_self, if_pos front.symm, first]
      · rw [sameNext a mem_cons_self]
        refine tail.congr (fun c member => sameNext c (mem_cons_of_mem _ member)) fun c member => ?_
        have different : c ≠ next head := by
          rw [front]
          rintro rfl
          exact (nodup_cons.mp (nodup_cons.mp nodup).2).1 member
        rw [prevField c (mem_cons_of_mem _ member), if_neg different]
  | cons b before ih =>
    obtain ⟨rfl, notNull, first, tail⟩ := list
    have fresh : head ∉ before ++ s :: after := (nodup_cons.mp nodup).1
    have previous' := tail.neighbours.1
    have inner := ih tail fresh (fun c member => nextField c (mem_cons_of_mem _ member))
      (fun c member => prevField c (mem_cons_of_mem _ member)) previous' (nodup_cons.mp nodup).2
    refine ⟨rfl, notNull, ?_, ?_⟩
    · have different : head ≠ next s := by
        rw [following]
        cases after with
        | nil => exact notNull
        | cons a rest => exact fun same => fresh (by rw [same]; simp)
      rw [prevField head mem_cons_self, if_neg different, first]
    · rw [nextField head mem_cons_self]
      by_cases only : before = []
      · subst only
        rwa [if_pos (show head = prev s from previous'.symm)]
      · have different : head ≠ prev s := by
          intro same
          rw [previous', getLastD_eq_getLast?, List.getLast?_eq_some_getLast only, Option.getD_some] at same
          exact fresh (mem_append_left _ (same ▸ getLast_mem only))
        rw [if_neg only] at inner
        rwa [if_neg different]

end

theorem push [DecidableEq α] (list : DLinked next prev null null head cells) (notNull : s ≠ null)
    (ownNext : next' s = head) (ownPrev : prev' s = null) (nextField : ∀ c ∈ cells, next' c = next c)
    (prevField : ∀ c ∈ cells, prev' c = if c = head then s else prev c) :
    DLinked next' prev' null null s (s :: cells) := by
  refine ⟨rfl, notNull, ownPrev, ?_⟩
  rw [ownNext]
  cases cells with
  | nil => exact list
  | cons c rest =>
    have nodup := list.nodup
    obtain ⟨rfl, present, -, tail⟩ := list
    refine ⟨rfl, present, (prevField head mem_cons_self).trans (if_pos rfl), ?_⟩
    rw [nextField head mem_cons_self]
    refine tail.congr (fun c member => nextField c (mem_cons_of_mem _ member)) fun c member => ?_
    have different : c ≠ head := fun same => (nodup_cons.mp nodup).1 (same ▸ member)
    rw [prevField c (mem_cons_of_mem _ member), if_neg different]

end DLinked

/-! ### Circles -/

structure Circular (next prev : α → α) (head : α) (cells : List α) : Prop where
  linked : DLinked next prev head head (next head) cells
  last : prev head = cells.getLastD head

namespace Circular

variable {head s : α} {cells before after : List α}

theorem segment_iff {back : α} : DLinked next prev head back (next back) cells ∧ prev head = cells.getLastD back ↔
    Segment next prev back cells head ∧ head ∉ cells := by
  induction cells generalizing back with
  | nil => simp [DLinked, Segment]
  | cons c rest ih =>
    rw [DLinked, Segment, mem_cons, not_or, getLastD_cons]
    constructor
    · rintro ⟨⟨forward, notHead, back, tail⟩, last⟩
      obtain ⟨segment, outside⟩ := ih.mp ⟨tail, last⟩
      exact ⟨⟨⟨forward, back⟩, segment⟩, notHead.symm, outside⟩
    · rintro ⟨⟨⟨forward, back⟩, segment⟩, notHead, outside⟩
      obtain ⟨tail, last⟩ := ih.mpr ⟨segment, outside⟩
      exact ⟨⟨forward, Ne.symm notHead, back, tail⟩, last⟩

theorem iff_ring : Circular next prev head cells ↔ Ring next prev (head :: cells) := by
  constructor
  · rintro ⟨linked, last⟩
    obtain ⟨segment, outside⟩ := segment_iff.mp ⟨linked, last⟩
    exact ⟨nodup_cons.mpr ⟨outside, linked.nodup⟩, segment⟩
  · rintro ⟨distinct, segment⟩
    obtain ⟨linked, last⟩ := segment_iff.mpr ⟨segment, (nodup_cons.mp distinct).1⟩
    exact ⟨linked, last⟩

theorem empty (ownNext : next head = head) (ownPrev : prev head = head) : Circular next prev head [] :=
  ⟨ownNext, ownPrev⟩

theorem congr (circle : Circular next prev head cells) (sameNext : ∀ c ∈ head :: cells, next' c = next c)
    (samePrev : ∀ c ∈ head :: cells, prev' c = prev c) : Circular next' prev' head cells :=
  iff_ring.mpr ((iff_ring.mp circle).congr sameNext samePrev)

/-- **A cell is put at the end**, before the head. -/
theorem addTail [DecidableEq α] (circle : Circular next prev head cells) (fresh : s ∉ cells) (notHead : s ≠ head)
    (nextField : ∀ c ∈ s :: head :: cells, next' c = if c = prev head then s else if c = s then head else next c)
    (prevField : ∀ c ∈ s :: head :: cells, prev' c = if c = head then s else if c = s then prev head else prev c) :
    Circular next' prev' head (cells ++ [s]) := by
  have ring := iff_ring.mp circle
  have new : s ∉ head :: cells := fun inside => (mem_cons.mp inside).elim notHead fresh
  have last : prev head ∈ head :: cells := ring.2.prev_mem
  have notLast : s ≠ prev head := fun same => new (same ▸ last)
  refine iff_ring.mpr (ring.insert new ?_ ?_ (fun c inside notLast => ?_) ?_ ?_ fun c inside => ?_)
  · rw [nextField s mem_cons_self, if_neg notLast, if_pos rfl]
  · rw [nextField _ (mem_cons_of_mem _ last), if_pos rfl]
  · have notNew : c ≠ s := fun same => new (same ▸ inside)
    rw [nextField c (mem_cons_of_mem _ inside), if_neg notLast, if_neg notNew]
  · rw [prevField s mem_cons_self, if_neg notHead, if_pos rfl]
  · rw [prevField head (mem_cons_of_mem _ mem_cons_self), if_pos rfl]
  · have notHead' : c ≠ head := fun same => (nodup_cons.mp ring.1).1 (same ▸ inside)
    have notNew : c ≠ s := fun same => fresh (same ▸ inside)
    rw [prevField c (mem_cons_of_mem _ (mem_cons_of_mem _ inside)), if_neg notHead', if_neg notNew]

/-- Joining the neighbours of a cell takes it out of the circle. -/
theorem remove [DecidableEq α] (circle : Circular next prev head (before ++ s :: after))
    (nextField : ∀ c ∈ head :: (before ++ after), next' c = if c = prev s then next s else next c)
    (prevField : ∀ c ∈ head :: (before ++ after), prev' c = if c = next s then prev s else prev c) :
    Circular next' prev' head (before ++ after) := by
  have ring := iff_ring.mp circle
  obtain ⟨first, second⟩ := Segment.append.mp ring.2
  have previous : prev s ∈ head :: (before ++ after) := mem_append_left after first.prev_mem
  have following : next s ∈ head :: (before ++ after) := by
    rcases second.next_mem with inside | isHead
    · exact mem_cons_of_mem _ (mem_append_right _ inside)
    · exact isHead ▸ mem_cons_self
  refine iff_ring.mpr (ring.remove (fun c inside other => ?_) ?_ (fun c inside other => ?_) ?_)
  · rw [nextField c inside, if_neg other]
  · rw [nextField _ previous, if_pos rfl]
  · rw [prevField c inside, if_neg other]
  · rw [prevField _ following, if_pos rfl]

end Circular

end Voxia.Lib
