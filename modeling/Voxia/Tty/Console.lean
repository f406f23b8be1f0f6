/-
**The cursor of the kernel console.**

`put_char_raw` moves the cursor by one cell for a printed character and expands a tab by moving it until it comes to
the next multiple of eight. That column was computed from the one where the tab began, and the cursor goes back to
column zero at the right edge, so a tab whose column is not on the screen never ends (`prints_iff`).
-/

import Voxia.Lib.Loops

namespace Voxia.Console

open Lib

structure Pos where
  x : Nat
  y : Nat
  deriving DecidableEq

variable (cols rows : Nat)

def advanceCursor (p : Pos) : Pos :=
  let p := if cols ≤ p.x + 1 then ⟨0, p.y + 1⟩ else ⟨p.x + 1, p.y⟩
  -- `do_scroll` sets the cursor to the start of the last row
  if rows ≤ p.y then ⟨0, rows - 1⟩ else p

/-- `(pos_x + 8) & ~7` -/
def nextTab (p : Pos) : Nat := (p.x + 8) / 8 * 8

/-- `while (pos_x < next) advance_cursor();` -/
def tabBody (next : Nat) (p : Pos) : Pos ⊕ Pos :=
  if p.x < next then .inr (advanceCursor cols rows p) else .inl p

/-- The bytes other than a tab. -/
def putPlain (p : Pos) (c : UInt8) : Pos :=
  if c = 10 then if rows ≤ p.y + 1 then ⟨0, rows - 1⟩ else ⟨0, p.y + 1⟩
  else if c = 13 then ⟨0, p.y⟩
  else advanceCursor cols rows p

def putCharRaw (fuel : Nat) (p : Pos) (c : UInt8) : Option Pos :=
  if c = 9 then runLoop (tabBody cols rows (nextTab p)) fuel p else some (putPlain cols rows p c)

def OnScreen (p : Pos) : Prop := p.x < cols ∧ p.y < rows

/-- Every byte is dealt with, and leaves the cursor on the screen. -/
def Prints : Pos → List UInt8 → Prop
  | _, [] => True
  | p, c :: text => ∃ fuel p', putCharRaw cols rows fuel p c = some p' ∧ OnScreen cols rows p' ∧ Prints p' text

/-- Every tab leads to a column of the screen. -/
def Meets : Pos → List UInt8 → Prop
  | _, [] => True
  | p, c :: text =>
    if c = 9 then nextTab p < cols ∧ Meets ⟨nextTab p, p.y⟩ text
    else Meets (putPlain cols rows p c) text

variable {cols rows} {p p' : Pos} {c : UInt8} {next : Nat}

theorem onScreen_putPlain (inside : OnScreen cols rows p) (c : UInt8) : OnScreen cols rows (putPlain cols rows p c) := by
  unfold OnScreen putPlain advanceCursor at *
  grind

theorem onScreen_advanceCursor (inside : OnScreen cols rows p) : OnScreen cols rows (advanceCursor cols rows p) := by
  unfold OnScreen advanceCursor at *
  grind

theorem runLoop_tabBody_none (far : cols ≤ next) (fuel : Nat) :
    ∀ p, OnScreen cols rows p → runLoop (tabBody cols rows next) fuel p = none := by
  induction fuel with
  | zero => exact fun p _ => rfl
  | succ fuel ih =>
    intro p inside
    have goes : tabBody cols rows next p = .inr (advanceCursor cols rows p) :=
      if_pos (Nat.lt_of_lt_of_le inside.1 far)
    rw [runLoop_inr goes]
    exact ih _ (onScreen_advanceCursor inside)

theorem runLoop_tabBody_some (near : next < cols) (n : Nat) :
    ∀ p, OnScreen cols rows p → p.x + n = next → runLoop (tabBody cols rows next) (n + 1) p = some ⟨next, p.y⟩ := by
  induction n with
  | zero =>
    rintro p - rfl
    have ends : tabBody cols rows p.x p = .inl p := if_neg (Nat.lt_irrefl p.x)
    exact runLoop_inl ends 0
  | succ n ih =>
    rintro p inside rfl
    have moved : advanceCursor cols rows p = ⟨p.x + 1, p.y⟩ := by
      unfold advanceCursor
      rw [if_neg (c := cols ≤ p.x + 1) (by omega)]
      exact if_neg (Nat.not_le.mpr inside.2)
    have goes : tabBody cols rows (p.x + (n + 1)) p = .inr ⟨p.x + 1, p.y⟩ := by
      rw [← moved]
      exact if_pos (by omega)
    rw [runLoop_inr goes]
    have inside' : OnScreen cols rows ⟨p.x + 1, p.y⟩ := ⟨show p.x + 1 < cols by omega, inside.2⟩
    exact ih _ inside' (show p.x + 1 + n = p.x + (n + 1) by omega)

theorem putCharRaw_tab (inside : OnScreen cols rows p) (fuel : Nat) (ends : putCharRaw cols rows fuel p 9 = some p') :
    nextTab p < cols ∧ p' = ⟨nextTab p, p.y⟩ := by
  have run : runLoop (tabBody cols rows (nextTab p)) fuel p = some p' := ends
  rcases Nat.lt_or_ge (nextTab p) cols with near | far
  · have reached := runLoop_tabBody_some near (nextTab p - p.x) p inside (by unfold nextTab; omega)
    have longer := runLoop_mono (Nat.le_max_left fuel (nextTab p - p.x + 1)) run
    rw [runLoop_mono (Nat.le_max_right fuel _) reached] at longer
    exact ⟨near, (Option.some.inj longer).symm⟩
  · rw [runLoop_tabBody_none far fuel p inside] at run
    cases run

/-- **Printing ends**, from any cursor on the screen. -/
theorem prints_iff_from (text : List UInt8) :
    ∀ p, OnScreen cols rows p → (Prints cols rows p text ↔ Meets cols rows p text) := by
  induction text with
  | nil => exact fun p _ => Iff.rfl
  | cons c text ih =>
    intro p inside
    rw [Prints, Meets]
    split
    · next isTab =>
      subst isTab
      constructor
      · rintro ⟨fuel, p', ends, inside', prints⟩
        obtain ⟨near, rfl⟩ := putCharRaw_tab inside fuel ends
        exact ⟨near, (ih _ inside').mp prints⟩
      · rintro ⟨near, meets⟩
        have inside' : OnScreen cols rows ⟨nextTab p, p.y⟩ := ⟨near, inside.2⟩
        have run := runLoop_tabBody_some near (nextTab p - p.x) p inside (by unfold nextTab; omega)
        exact ⟨nextTab p - p.x + 1, _, run, inside', (ih _ inside').mpr meets⟩
    · next notTab =>
      have plain : ∀ fuel, putCharRaw cols rows fuel p c = some (putPlain cols rows p c) := fun _ => if_neg notTab
      have inside' := onScreen_putPlain inside c
      simp only [plain, Option.some.injEq, exists_eq_left', exists_const]
      rw [ih _ inside']
      exact and_iff_right inside'

/-- **Console printing** on a screen with at least one row and column. -/
theorem prints_iff (cols rows : Nat) (text : List UInt8) :
    Prints (cols + 1) (rows + 1) ⟨0, 0⟩ text ↔ Meets (cols + 1) (rows + 1) ⟨0, 0⟩ text :=
  prints_iff_from text ⟨0, 0⟩ ⟨Nat.succ_pos cols, Nat.succ_pos rows⟩

/-- A tab on a screen of eight columns. -/
theorem tab_in_last_stop : ¬ Prints 8 1 ⟨0, 0⟩ [9] := by
  rintro ⟨fuel, p', ends, -⟩
  have near := (putCharRaw_tab ⟨by decide, by decide⟩ fuel ends).1
  exact absurd near (by decide)

end Voxia.Console
