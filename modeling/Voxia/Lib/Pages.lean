/-
**A list read in pages.**

A page takes the elements that come next as long as their sizes fit into its room (`takeFit`). The pages of a list,
one after the other, are its elements in order, none twice and none left out.
-/

import Mathlib.Data.List.Infix
import Mathlib.Algebra.BigOperators.Group.List.Basic
import Mathlib.Algebra.Ring.Nat

namespace Voxia.Lib

open List

variable {α : Type*} (size : α → Nat)

/-- The elements from the start of a list that fit into a room together. -/
def takeFit : Nat → List α → List α
  | _, [] => []
  | room, a :: rest => if size a ≤ room then a :: takeFit (room - size a) rest else []

def dropFit (room : Nat) (list : List α) : List α := list.drop (takeFit size room list).length

def pages : List Nat → List α → List (List α)
  | [], _ => []
  | room :: rooms, list => takeFit size room list :: pages rooms (dropFit size room list)

theorem takeFit_isPrefix (room : Nat) (list : List α) : takeFit size room list <+: list := by
  induction list generalizing room with
  | nil => exact nil_prefix
  | cons a rest ih =>
    rw [takeFit]
    split_ifs
    · exact cons_prefix_cons.mpr ⟨rfl, ih _⟩
    · exact nil_prefix

theorem takeFit_append_dropFit (room : Nat) (list : List α) : takeFit size room list ++ dropFit size room list = list :=
  prefix_iff_eq_append.mp (takeFit_isPrefix size room list)

theorem sum_takeFit_le (room : Nat) (list : List α) : ((takeFit size room list).map size).sum ≤ room := by
  induction list generalizing room with
  | nil => exact Nat.zero_le _
  | cons a rest ih =>
    rw [takeFit]
    split_ifs with fits
    · rw [map_cons, sum_cons]
      have := ih (room - size a)
      omega
    · exact Nat.zero_le _

/-- The pages together are a prefix of the list. -/
theorem pages_flatten_isPrefix (rooms : List Nat) (list : List α) : (pages size rooms list).flatten <+: list := by
  induction rooms generalizing list with
  | nil => exact nil_prefix
  | cons room rooms ih =>
    conv_rhs => rw [← takeFit_append_dropFit size room list]
    exact (prefix_append_right_inj _).mpr (ih _)

theorem pages_length (rooms : List Nat) (list : List α) : (pages size rooms list).length = rooms.length := by
  induction rooms generalizing list with
  | nil => rfl
  | cons room rooms ih => rw [pages, length_cons, length_cons, ih]

variable {size}

variable {room : Nat} {list : List α} {rooms : List Nat}

/-- A page is empty only at the end of the list, if its room is large enough for the first element. -/
theorem takeFit_eq_nil_iff (fits : ∀ a ∈ list, size a ≤ room) : takeFit size room list = [] ↔ list = [] := by
  cases list with
  | nil => exact iff_of_true rfl rfl
  | cons a rest =>
    rw [takeFit, if_pos (fits a mem_cons_self)]
    exact iff_of_false (cons_ne_nil _ _) (cons_ne_nil _ _)

theorem mem_of_mem_dropFit {a : α} (member : a ∈ dropFit size room list) : a ∈ list :=
  mem_of_mem_drop member

/-- With room for every element, an empty page says that the list is at its end, and no other page does. -/
theorem pages_nil_iff (fits : ∀ room ∈ rooms, ∀ a ∈ list, size a ≤ room) {i : Nat} (inside : i < rooms.length) :
    (pages size rooms list)[i]? = some [] ↔ ((pages size rooms list).take i).flatten = list := by
  induction rooms generalizing list i with
  | nil => exact absurd inside (Nat.not_lt_zero _)
  | cons room rooms ih =>
    rw [pages]
    cases i with
    | zero =>
      rw [List.getElem?_cons_zero, Option.some.injEq, takeFit_eq_nil_iff (fits room mem_cons_self), take_zero,
        flatten_nil, eq_comm]
    | succ i =>
      have rest := @ih (dropFit size room list)
        (fun room' member a inside => fits room' (mem_cons_of_mem _ member) a (mem_of_mem_dropFit inside)) i
        (Nat.lt_of_succ_lt_succ inside)
      rw [List.getElem?_cons_succ, rest, take_succ_cons, flatten_cons]
      conv_rhs => rhs; rw [← takeFit_append_dropFit size room list]
      rw [append_cancel_left_eq]

/-- **So many pages are enough.** -/
theorem nil_mem_pages (fits : ∀ room ∈ rooms, ∀ a ∈ list, size a ≤ room)
    (many : list.length < rooms.length) : [] ∈ pages size rooms list := by
  induction rooms generalizing list with
  | nil => exact absurd many (Nat.not_lt_zero _)
  | cons room rooms ih =>
    cases list with
    | nil => exact mem_cons_self
    | cons a rest =>
      refine mem_cons_of_mem _ (ih (fun room' member b inside =>
        fits room' (mem_cons_of_mem _ member) b (mem_of_mem_dropFit inside)) ?_)
      have first : 0 < (takeFit size room (a :: rest)).length := by
        rw [takeFit, if_pos (fits room mem_cons_self a mem_cons_self)]
        exact Nat.succ_pos _
      rw [dropFit, length_drop]
      rw [length_cons] at many ⊢
      rw [length_cons] at many
      omega

end Voxia.Lib
