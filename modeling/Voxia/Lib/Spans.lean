/-
**Spans of a bitmap, and the ledger of the spans handed out.**

An allocator over a bitmap marks a span of clear bits and later clears exactly that span again. What its users rely on
does not depend on how it searches for the span: the spans in use are pairwise apart, cover only bits that were clear
in `origin`, and the marked bits are exactly those of `origin` and of these spans (`Ledger origin bits live`).
-/

import Mathlib.Data.List.Pairwise
import Mathlib.Data.Nat.Count
import Mathlib.Algebra.BigOperators.Group.List.Basic
import Mathlib.Algebra.Ring.Nat

namespace Voxia.Lib

open List

/-- `len` consecutive positions from `start` on. -/
structure Span where
  start : Nat
  len : Nat
  deriving DecidableEq, Repr

namespace Span

def Covers (span : Span) (i : Nat) : Prop := span.start ≤ i ∧ i < span.start + span.len

instance (span : Span) (i : Nat) : Decidable (span.Covers i) :=
  inferInstanceAs (Decidable (_ ∧ _))

def Apart (first second : Span) : Prop :=
  first.start + first.len ≤ second.start ∨ second.start + second.len ≤ first.start

instance (first second : Span) : Decidable (first.Apart second) :=
  inferInstanceAs (Decidable (_ ∨ _))

variable {first second : Span}

theorem Apart.symm (apart : first.Apart second) : second.Apart first :=
  Or.symm apart

theorem Apart.not_covers (apart : first.Apart second) {i : Nat} (inFirst : first.Covers i) : ¬ second.Covers i := by
  unfold Apart at apart
  unfold Covers at inFirst ⊢
  omega

theorem apart_of_not_covers (positive : 0 < first.len) (positive' : 0 < second.len)
    (none : ∀ i, first.Covers i → ¬ second.Covers i) : first.Apart second := by
  unfold Apart
  by_contra overlap
  refine none (max first.start second.start) ?_ ?_ <;> unfold Covers <;> omega

end Span

def fill (bits : Nat → Bool) (span : Span) (value : Bool) : Nat → Bool :=
  fun i => if span.start ≤ i ∧ i < span.start + span.len then value else bits i

variable {bits : Nat → Bool} {span : Span} {value : Bool} {i : Nat}

theorem fill_of_covers (inside : span.Covers i) : fill bits span value i = value := if_pos inside

theorem fill_of_not_covers (outside : ¬ span.Covers i) : fill bits span value i = bits i := if_neg outside

theorem fill_empty (bits : Nat → Bool) (start : Nat) (value : Bool) : fill bits ⟨start, 0⟩ value = bits :=
  funext fun _ => if_neg fun inside => Nat.not_lt.mpr inside.1 inside.2

theorem fill_cons (bits : Nat → Bool) (j count : Nat) (value : Bool) :
    fill (fun i => if i = j then value else bits i) ⟨j + 1, count⟩ value = fill bits ⟨j, count + 1⟩ value := by
  funext i
  simp only [fill]
  split_ifs <;> first | rfl | omega

def clearBelow (bits : Nat → Bool) (total : Nat) : Nat := Nat.count (fun i => bits i = false) total

theorem clearBelow_fill (clear : ∀ i, span.Covers i → bits i = false) (total : Nat)
    (within : span.start + span.len ≤ total) :
    clearBelow (fill bits span true) total + span.len = clearBelow bits total := by
  have general : ∀ bound, clearBelow (fill bits span true) bound
      + (min bound (span.start + span.len) - span.start) = clearBelow bits bound := by
    intro bound
    induction bound with
    | zero => simp [clearBelow]
    | succ bound ih =>
      unfold clearBelow at ih ⊢
      rw [Nat.count_succ, Nat.count_succ]
      by_cases inside : span.Covers bound
      · rw [fill_of_covers inside, clear bound inside]
        unfold Span.Covers at inside
        simp only [Bool.true_eq_false, if_false, if_true]
        omega
      · rw [fill_of_not_covers inside]
        unfold Span.Covers at inside
        omega
  have atTotal := general total
  omega

/-! ### The ledger -/

/-- The spans `live` are handed out of the clear part of `origin`, and `bits` records exactly that. -/
structure Ledger (origin bits : Nat → Bool) (live : List Span) : Prop where
  /-- Live spans do not overlap. -/
  apart : live.Pairwise Span.Apart
  /-- No live span is empty. -/
  positive : ∀ span ∈ live, 0 < span.len
  /-- Live spans were clear to begin with. -/
  fresh : ∀ span ∈ live, ∀ i, span.Covers i → origin i = false
  /-- A position is marked exactly when it was marked to begin with or is live. -/
  exact : ∀ i, bits i ↔ origin i ∨ ∃ span ∈ live, span.Covers i

namespace Ledger

variable {origin bits : Nat → Bool} {live : List Span}

theorem init (origin : Nat → Bool) : Ledger origin origin [] where
  apart := List.Pairwise.nil
  positive := by simp
  fresh := by simp
  exact := by simp

variable {span : Span}

section

variable (ledger : Ledger origin bits live)

include ledger

theorem marked (member : span ∈ live) {i : Nat} (inside : span.Covers i) : bits i :=
  (ledger.exact i).mpr (.inr ⟨span, member, inside⟩)

theorem perm {live' : List Span} (same : live.Perm live') : Ledger origin bits live' where
  apart := (same.pairwise_iff fun apart => apart.symm).mp ledger.apart
  positive span member := ledger.positive span (same.mem_iff.mpr member)
  fresh span member := ledger.fresh span (same.mem_iff.mpr member)
  exact i := by simp only [ledger.exact i, same.mem_iff]

theorem alloc (positive : 0 < span.len) (clear : ∀ i, span.Covers i → bits i = false) :
    Ledger origin (fill bits span true) (span :: live) where
  apart := by
    refine pairwise_cons.mpr ⟨fun other member => ?_, ledger.apart⟩
    refine Span.apart_of_not_covers positive (ledger.positive other member) fun i inside inOther => ?_
    have unmarked := clear i inside
    rw [ledger.marked member inOther] at unmarked
    exact absurd unmarked (by decide)
  positive := by
    intro other member
    obtain rfl | member := mem_cons.mp member
    · exact positive
    · exact ledger.positive other member
  fresh := by
    intro other member i inside
    obtain rfl | member := mem_cons.mp member
    · have unmarked := clear i inside
      by_contra marked
      have used := (ledger.exact i).mpr (.inl (by simpa using marked))
      rw [unmarked] at used
      exact absurd used (by decide)
    · exact ledger.fresh other member i inside
  exact := by
    intro i
    by_cases inside : span.Covers i
    · rw [fill_of_covers inside]
      exact ⟨fun _ => .inr ⟨span, mem_cons_self, inside⟩, fun _ => rfl⟩
    · rw [fill_of_not_covers inside, ledger.exact i]
      simp [inside]

theorem free (member : span ∈ live) : Ledger origin (fill bits span false) (live.erase span) where
  apart := ledger.apart.sublist erase_sublist
  positive := fun other inErase => ledger.positive other (mem_of_mem_erase inErase)
  fresh := fun other inErase => ledger.fresh other (mem_of_mem_erase inErase)
  exact := by
    intro i
    have perm : live.Perm (span :: live.erase span) := perm_cons_erase member
    have others : ∀ other ∈ live.erase span, span.Apart other :=
      (pairwise_cons.mp ((perm.pairwise_iff fun apart => apart.symm).mp ledger.apart)).1
    by_cases inside : span.Covers i
    · rw [fill_of_covers inside]
      refine ⟨fun impossible => absurd impossible (by decide), ?_⟩
      rintro (marked | ⟨other, inErase, inOther⟩)
      · rw [ledger.fresh span member i inside] at marked
        exact marked
      · exact absurd inOther ((others other inErase).not_covers inside)
    · rw [fill_of_not_covers inside, ledger.exact i]
      refine or_congr_right ⟨?_, ?_⟩
      · rintro ⟨other, inLive, inOther⟩
        obtain rfl | inErase := mem_cons.mp (perm.subset inLive)
        · exact absurd inOther inside
        · exact ⟨other, inErase, inOther⟩
      · rintro ⟨other, inErase, inOther⟩
        exact ⟨other, mem_of_mem_erase inErase, inOther⟩

theorem fill_fill (member : span ∈ live) : fill (fill bits span false) span true = bits := by
  funext i
  by_cases inside : span.Covers i
  · rw [fill_of_covers inside, ledger.marked member inside]
  · rw [fill_of_not_covers inside, fill_of_not_covers inside]

/-- **Conservation.** Clear positions and live lengths add up to the clear positions of the
origin, below any bound that all live spans respect. -/
theorem conserves (total : Nat) (within : ∀ span ∈ live, span.start + span.len ≤ total) :
    clearBelow bits total + (live.map Span.len).sum = clearBelow origin total := by
  -- Induction on the live spans: give back the first one and account for its length.
  induction live generalizing bits with
  | nil =>
    have same : bits = origin := by
      funext i
      have := ledger.exact i
      simp only [not_mem_nil, false_and, exists_false, or_false] at this
      exact Bool.eq_iff_iff.mpr this
    simp [same]
  | cons span rest ih =>
    have freed := ledger.free (mem_cons_self (a := span) (l := rest))
    rw [erase_cons_head] at freed
    have restored := ih freed fun other member => within other (mem_cons_of_mem _ member)
    have cleared : ∀ i, span.Covers i → fill bits span false i = false :=
      fun i inside => fill_of_covers inside
    have cost := clearBelow_fill cleared total (within span mem_cons_self)
    rw [ledger.fill_fill mem_cons_self] at cost
    rw [map_cons, sum_cons]
    omega

end

end Ledger

end Voxia.Lib
