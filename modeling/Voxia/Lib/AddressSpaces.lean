/-
**Address spaces over shared frames.**

Several spaces map pages to frames, each with or without the right to write. They are `Isolated` when no frame that
one of them may write is mapped by another, and no space maps a frame twice. The rules say which changes keep them so.
-/

import Mathlib.Logic.Function.Basic

namespace Voxia.Lib

open Function

structure Mapping (F : Type) where
  frame : F
  writable : Bool
  deriving DecidableEq

variable {I P F : Type} [DecidableEq I]

abbrev Space (P F : Type) := P → Option (Mapping F)

/-- No space maps a frame twice, and what one may write no other maps. -/
structure Isolated (spaces : I → Space P F) : Prop where
  once : ∀ {i u v m m'}, spaces i u = some m → spaces i v = some m' → m.frame = m'.frame → u = v
  apart : ∀ {i j u v m m'}, i ≠ j → spaces i u = some m → spaces j v = some m' →
    m.writable → m.frame ≠ m'.frame

variable {spaces : I → Space P F}

variable {space : Space P F}

theorem Isolated.narrow (isolated : Isolated spaces) (i : I) (less : ∀ u m, space u = some m →
      ∃ old, spaces i u = some old ∧ m.frame = old.frame ∧ (m.writable → old.writable)) :
    Isolated (update spaces i space) := by
  have lift : ∀ j u m, update spaces i space j u = some m →
      ∃ old, spaces j u = some old ∧ m.frame = old.frame ∧
        (m.writable → old.writable) := by
    intro j u m mapped
    by_cases here : j = i
    · subst here
      rw [update_self] at mapped
      exact less u m mapped
    · rw [update_of_ne here] at mapped
      exact ⟨m, mapped, rfl, id⟩
  constructor
  · intro j u v m m' first second same
    obtain ⟨old, wasFirst, frame, -⟩ := lift j u m first
    obtain ⟨old', wasSecond, frame', -⟩ := lift j v m' second
    exact isolated.once wasFirst wasSecond (by rw [← frame, ← frame', same])
  · intro j k u v m m' different first second mayWrite
    obtain ⟨old, wasFirst, frame, right⟩ := lift j u m first
    obtain ⟨old', wasSecond, frame', -⟩ := lift k v m' second
    rw [frame, frame']
    exact isolated.apart different wasFirst wasSecond (right mayWrite)

/-- One page of one space may be set to a frame that the space maps nowhere else, and that another
space maps only if neither of the two may write it. -/
theorem Isolated.remap [DecidableEq P] (isolated : Isolated spaces) (i : I) (page : P) (new : Mapping F)
    (own : ∀ v m, v ≠ page → spaces i v = some m → m.frame ≠ new.frame)
    (others : ∀ j v m, j ≠ i → spaces j v = some m → m.frame = new.frame →
      new.writable = false ∧ m.writable = false) : Isolated (update spaces i (update (spaces i) page (some new))) := by
  have look : ∀ {j u m}, update spaces i (update (spaces i) page (some new)) j u
      = some m → (j = i ∧ u = page ∧ m = new) ∨
        (spaces j u = some m ∧ (j = i → u ≠ page)) := by
    intro j u m mapped
    by_cases here : j = i
    · subst here
      rw [update_self] at mapped
      by_cases same : u = page
      · subst same
        rw [update_self, Option.some.injEq] at mapped
        exact .inl ⟨rfl, rfl, mapped.symm⟩
      · rw [update_of_ne same] at mapped
        exact .inr ⟨mapped, fun _ => same⟩
    · rw [update_of_ne here] at mapped
      exact .inr ⟨mapped, fun equal => absurd equal here⟩
  constructor
  · intro j u v m m' first second same
    obtain ⟨rfl, rfl, rfl⟩ | ⟨was, away⟩ := look first
    · obtain ⟨-, rfl, -⟩ | ⟨was', away'⟩ := look second
      · rfl
      · exact absurd same.symm (own v m' (away' rfl) was')
    · obtain ⟨rfl, rfl, rfl⟩ | ⟨was', -⟩ := look second
      · exact absurd same (own u m (away rfl) was)
      · exact isolated.once was was' same
  · intro j k u v m m' different first second mayWrite same
    obtain ⟨rfl, rfl, rfl⟩ | ⟨was, -⟩ := look first
    · obtain ⟨rfl, -, -⟩ | ⟨was', -⟩ := look second
      · exact different rfl
      · exact absurd mayWrite (by simp [(others k v m' different.symm was' same.symm).1])
    · obtain ⟨rfl, rfl, rfl⟩ | ⟨was', -⟩ := look second
      · exact absurd mayWrite (by simp [(others j u m different was same).2])
      · exact isolated.apart different was was' mayWrite same

/-- A new space may map, page by page and without the right to write, frames that another space maps
without that right. -/
theorem Isolated.share (isolated : Isolated spaces) {parent child : I} (different : child ≠ parent)
    (shared : ∀ u m, space u = some m → m.writable = false ∧
      ∃ old, spaces parent u = some old ∧ old.frame = m.frame ∧ old.writable = false) :
    Isolated (update spaces child space) := by
  have look : ∀ {j u m}, update spaces child space j u = some m →
      (j = child ∧ m.writable = false ∧ ∃ old, spaces parent u = some old ∧ old.frame = m.frame ∧
        old.writable = false) ∨ (j ≠ child ∧ spaces j u = some m) := by
    intro j u m mapped
    by_cases here : j = child
    · subst here
      rw [update_self] at mapped
      exact .inl ⟨rfl, shared u m mapped⟩
    · rw [update_of_ne here] at mapped
      exact .inr ⟨here, mapped⟩
  constructor
  · intro j u v m m' first second same
    obtain ⟨rfl, -, old, wasFirst, frame, -⟩ | ⟨away, first⟩ := look first
    · obtain ⟨-, -, old', wasSecond, frame', -⟩ | ⟨away, -⟩ := look second
      · exact isolated.once wasFirst wasSecond (by rw [frame, frame', same])
      · exact absurd rfl away
    · obtain ⟨rfl, -⟩ | ⟨-, second⟩ := look second
      · exact absurd rfl away
      · exact isolated.once first second same
  · intro j k u v m m' different' first second mayWrite same
    obtain ⟨-, notWritable, -⟩ | ⟨-, was⟩ := look first
    · exact absurd mayWrite (by simp [notWritable])
    · obtain ⟨rfl, -, old, was', frame, notWritable⟩ | ⟨-, was'⟩ := look second
      · by_cases isParent : j = parent
        · subst isParent
          have samePage := isolated.once was was' (by rw [frame, same])
          subst samePage
          rw [was, Option.some.injEq] at was'
          exact absurd mayWrite (by simp [was', notWritable])
        · exact isolated.apart isParent was was' mayWrite (by rw [frame, same])
      · exact isolated.apart different' was was' mayWrite same

end Voxia.Lib
