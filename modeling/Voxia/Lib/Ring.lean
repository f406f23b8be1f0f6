/-
**Circular doubly linked lists.**

Two functions give every cell its successor and its predecessor. `Segment next prev a mid b` says that the links lead
from `a` through `mid` to `b` and back, and a ring is a segment from a cell to itself over distinct cells. A cell is
put in before the head by linking it between the last cell and the head, and taken out by linking its neighbours; any
cell of a ring can be its head.
-/

import Mathlib.Data.List.Nodup

namespace Voxia.Lib

open List

variable {α : Type*}

/-- The links lead from `a` through the list to `b`, and back. -/
def Segment (next prev : α → α) (a : α) : List α → α → Prop
  | [], b => next a = b ∧ prev b = a
  | c :: rest, b => (next a = c ∧ prev c = a) ∧ Segment next prev c rest b

/-- The cells of a circular list, from its head on. -/
def Ring (next prev : α → α) : List α → Prop
  | [] => True
  | a :: rest => (a :: rest).Nodup ∧ Segment next prev a rest a

namespace Segment

variable {next prev next' prev' : α → α} {a b c : α} {mid rest : List α}

theorem append : Segment next prev a (mid ++ c :: rest) b ↔ Segment next prev a mid c ∧ Segment next prev c rest b := by
  induction mid generalizing a with
  | nil => exact Iff.rfl
  | cons d mid ih => simp only [cons_append, Segment, ih, and_assoc]

section

variable (segment : Segment next prev a mid b)

include segment

theorem congr (sameNext : ∀ x ∈ a :: mid, next' x = next x)
    (samePrev : ∀ x, x ∈ mid ∨ x = b → prev' x = prev x) : Segment next' prev' a mid b := by
  induction mid generalizing a with
  | nil =>
    obtain ⟨forward, back⟩ := segment
    refine ⟨?_, ?_⟩
    · rw [sameNext a mem_cons_self, forward]
    · rw [samePrev b (.inr rfl), back]
  | cons d mid ih =>
    obtain ⟨⟨forward, back⟩, tail⟩ := segment
    refine ⟨⟨?_, ?_⟩, ih tail (fun x inside => sameNext x (mem_cons_of_mem _ inside)) fun x inside => ?_⟩
    · rw [sameNext a mem_cons_self, forward]
    · rw [samePrev d (.inl mem_cons_self), back]
    · exact samePrev x (inside.imp (mem_cons_of_mem _) id)

theorem prev_mem : prev b ∈ a :: mid := by
  induction mid generalizing a with
  | nil =>
    rw [segment.2]
    exact mem_cons_self
  | cons d mid ih => exact mem_cons_of_mem _ (ih segment.2)

theorem next_mem : next a ∈ mid ∨ next a = b := by
  cases mid with
  | nil => exact .inr segment.1
  | cons d mid =>
    rw [segment.1.1]
    exact .inl mem_cons_self

end

/-- Two segments that meet in `p` are one without it. -/
theorem join {p : α} (first : Segment next prev a mid p) (second : Segment next prev p rest b)
    (distinct : (a :: (mid ++ p :: rest)).Nodup) (outside : b ∉ mid ++ p :: rest)
    (nextEq : ∀ x ∈ a :: (mid ++ rest), x ≠ prev p → next' x = next x) (nextLast : next' (prev p) = next p)
    (prevEq : ∀ x, x ∈ mid ++ rest ∨ x = b → x ≠ next p → prev' x = prev x) (prevFirst : prev' (next p) = prev p) :
    Segment next' prev' a (mid ++ rest) b := by
  induction mid generalizing a with
  | nil =>
    obtain ⟨-, back⟩ := first
    rw [back] at nextLast nextEq prevFirst
    cases rest with
    | nil =>
      obtain ⟨forward, -⟩ := second
      rw [forward] at nextLast prevFirst
      exact ⟨nextLast, prevFirst⟩
    | cons d rest =>
      obtain ⟨⟨forward, -⟩, tail⟩ := second
      rw [forward] at nextLast prevFirst prevEq
      refine ⟨⟨nextLast, prevFirst⟩, tail.congr (fun x inside => nextEq x (mem_cons_of_mem _ inside) ?_)
        fun x inside => prevEq x (inside.imp (mem_cons_of_mem _) id) ?_⟩
      · rintro rfl
        exact (nodup_cons.mp distinct).1 (mem_cons_of_mem _ inside)
      · rintro rfl
        rcases inside with later | same
        · exact (nodup_cons.mp (nodup_cons.mp (nodup_cons.mp distinct).2).2).1 later
        · exact outside (by rw [← same]; simp)
  | cons d mid ih =>
    obtain ⟨⟨forward, back⟩, tail⟩ := first
    obtain ⟨notLater, distinct'⟩ := nodup_cons.mp distinct
    have inTail := tail.prev_mem
    refine ⟨⟨?_, ?_⟩, ih tail distinct' (fun inside => outside (mem_cons_of_mem _ inside))
      (fun x inside => nextEq x (mem_cons_of_mem _ inside)) fun x inside =>
        prevEq x (inside.imp (mem_cons_of_mem _) id)⟩
    · rw [nextEq a mem_cons_self, forward]
      rintro rfl
      exact notLater (by simpa using mem_append_left (p :: rest) inTail)
    · rw [prevEq d (.inl mem_cons_self), back]
      rintro rfl
      rcases second.next_mem with later | same
      · exact (nodup_cons.mp distinct').1 (by simp [later])
      · exact outside (by rw [← same]; simp)

end Segment

namespace Ring

variable {next prev next' prev' : α → α} {a p : α} {rest mid cells : List α}

theorem nodup (ring : Ring next prev cells) : cells.Nodup := by
  cases cells with
  | nil => exact nodup_nil
  | cons a rest => exact ring.1

theorem congr (ring : Ring next prev cells) (sameNext : ∀ x ∈ cells, next' x = next x)
    (samePrev : ∀ x ∈ cells, prev' x = prev x) : Ring next' prev' cells := by
  cases cells with
  | nil => trivial
  | cons a rest =>
    refine ⟨ring.1, ring.2.congr sameNext fun x inside => samePrev x ?_⟩
    exact inside.elim (mem_cons_of_mem _) fun same => same ▸ mem_cons_self

theorem singleton (forward : next a = a) (back : prev a = a) : Ring next prev [a] :=
  ⟨nodup_singleton a, forward, back⟩

theorem insert (ring : Ring next prev (a :: rest)) (new : p ∉ a :: rest) (nextNew : next' p = a)
    (nextLast : next' (prev a) = p) (nextEq : ∀ x ∈ a :: rest, x ≠ prev a → next' x = next x)
    (prevNew : prev' p = prev a) (prevHead : prev' a = p) (prevEq : ∀ x ∈ rest, prev' x = prev x) :
    Ring next' prev' (a :: (rest ++ [p])) := by
  obtain ⟨distinct, segment⟩ := ring
  refine ⟨?_, ?_⟩
  · exact distinct.append (nodup_singleton p) (by simpa using new)
  · refine Segment.append.mpr ⟨?_, nextNew, prevHead⟩
    -- the segment to the head goes to the new cell now
    obtain rfl | ⟨init, last, rfl⟩ := eq_nil_or_concat' rest
    · have back : prev a = a := segment.2
      rw [back] at nextLast prevNew
      exact ⟨nextLast, prevNew⟩
    · obtain ⟨toLast, -, back⟩ := Segment.append.mp segment
      rw [back] at nextLast nextEq prevNew
      refine Segment.append.mpr ⟨toLast.congr (fun x inside => ?_) fun x inside => ?_, nextLast, prevNew⟩
      · refine nextEq x (mem_append_left [last] inside) ?_
        rintro rfl
        rw [← cons_append, nodup_append] at distinct
        exact distinct.2.2 x inside x (mem_singleton_self x) rfl
      · exact prevEq x (mem_append.mpr (inside.imp id mem_singleton.mpr))

theorem rotate (ring : Ring next prev (cells ++ [p])) : Ring next prev (p :: cells) := by
  cases cells with
  | nil => exact ring
  | cons a rest =>
    obtain ⟨distinct, segment⟩ := ring
    obtain ⟨toLast, last⟩ := Segment.append.mp segment
    refine ⟨?_, last, toLast⟩
    have permuted : (a :: (rest ++ [p])).Perm (p :: a :: rest) := by
      exact perm_append_singleton p (a :: rest)
    exact permuted.nodup_iff.mp distinct

theorem remove (ring : Ring next prev (a :: (mid ++ p :: rest)))
    (nextEq : ∀ x ∈ a :: (mid ++ rest), x ≠ prev p → next' x = next x) (nextLast : next' (prev p) = next p)
    (prevEq : ∀ x ∈ a :: (mid ++ rest), x ≠ next p → prev' x = prev x) (prevFirst : prev' (next p) = prev p) :
    Ring next' prev' (a :: (mid ++ rest)) := by
  obtain ⟨distinct, segment⟩ := ring
  obtain ⟨first, second⟩ := Segment.append.mp segment
  refine ⟨?_, first.join second distinct (nodup_cons.mp distinct).1 nextEq nextLast
    (fun x inside => prevEq x (mem_cons.mpr inside.symm)) prevFirst⟩
  refine distinct.sublist (List.Sublist.cons_cons a ?_)
  exact List.Sublist.append (List.Sublist.refl mid) (sublist_cons_self p rest)

end Ring

/-- A walk along `next` from `curr` until it is back at `head`, as a `do ... while` loop: the first cell
that passes the test, `none` at the end, or no result if the rounds do not suffice. -/
def findAround (next : α → α) (test : α → Bool) [DecidableEq α] (head : α) : Nat → α → Option (Option α)
  | 0, _ => none
  | fuel + 1, curr =>
    if test curr then some (some curr)
    else if next curr = head then some none
    else findAround next test head fuel (next curr)

variable {next prev : α → α}

theorem findAround_segment [DecidableEq α] {test : α → Bool} {head : α} (mid : List α) :
    ∀ (curr : α) (fuel : Nat), Segment next prev curr mid head → head ∉ mid → mid.length < fuel →
      findAround next test head fuel curr = some ((curr :: mid).find? test) := by
  induction mid with
  | nil =>
    intro curr fuel segment _ enough
    obtain ⟨fuel, rfl⟩ := Nat.exists_eq_succ_of_ne_zero (Nat.ne_of_gt enough)
    rw [findAround, List.find?_cons]
    cases test curr with
    | true => rfl
    | false => rw [if_neg (by decide), if_pos segment.1]; rfl
  | cons d mid ih =>
    intro curr fuel segment outside enough
    obtain ⟨fuel, rfl⟩ := Nat.exists_eq_succ_of_ne_zero (Nat.ne_of_gt (Nat.zero_lt_of_lt enough))
    obtain ⟨⟨forward, -⟩, tail⟩ := segment
    have goesOn : next curr ≠ head := by
      rw [forward]
      rintro rfl
      exact outside mem_cons_self
    rw [findAround, List.find?_cons]
    cases test curr with
    | true => rfl
    | false =>
      rw [if_neg (by decide), if_neg goesOn, forward]
      exact ih d fuel tail (fun inside => outside (mem_cons_of_mem _ inside)) (Nat.lt_of_succ_lt_succ enough)

theorem Ring.walk [DecidableEq α] {a : α} {rest : List α} (ring : Ring next prev (a :: rest)) (test : α → Bool)
    {fuel : Nat} (enough : rest.length < fuel) : findAround next test a fuel a = some ((a :: rest).find? test) :=
  findAround_segment rest a fuel ring.2 (nodup_cons.mp ring.1).1 enough

end Voxia.Lib
