/-
**Keyboard reports and modifier keys.**

A report of the boot protocol becomes key events by comparison with the last one, and `input_report_key` folds the
events into two variables: the modifiers sent with key events, and the shift state that chooses characters.
-/

import Voxia.Lib.Traces
import Mathlib.Algebra.Ring.Nat

namespace Voxia.Input

open Function List
open Lib.Traces (Along along_iff)

/-- The flags of the modifier mask, in the order of the bits of a report. -/
inductive Modifier
  | lctrl | lshift | lalt | lgui | rctrl | rshift | ralt | rgui
  deriving DecidableEq

def modKeys : List Modifier := [.lctrl, .lshift, .lalt, .lgui, .rctrl, .rshift, .ralt, .rgui]

/-- `LEFT_CTRL` to `RIGHT_GUI`, and the other key codes. -/
inductive KeyCode
  | modifier (m : Modifier)
  | other (code : Nat)

/-- The static variables `shift` and `modifier`. -/
structure Keys where
  shift : Bool
  modifier : Modifier → Bool

def inputReportKey (s : Keys) (code : KeyCode) (value : Bool) : Keys :=
  match code with
  | .modifier .lshift => ⟨value, update s.modifier .lshift value⟩
  | .modifier .rshift => ⟨value, update s.modifier .rshift value⟩
  | .modifier .lctrl =>
    if value then { s with modifier := update (update s.modifier .lctrl true) .rctrl false }
    else { s with modifier := update s.modifier .lctrl false }
  | .modifier .rctrl =>
    if value then { s with modifier := update (update s.modifier .rctrl true) .lctrl false }
    else { s with modifier := update s.modifier .rctrl false }
  | .modifier m => { s with modifier := update s.modifier m value }
  | .other _ => s

/-- The table of the driver; `0` is `KEY_NONE`. No usage stands for a modifier. -/
def hidKeymap (usage : Nat) : Nat :=
  if 0x04 ≤ usage ∧ usage ≤ 0x38 then usage
  else if usage = 0x39 then 0xA2E
  else if 0x3A ≤ usage ∧ usage ≤ 0x45 then 0xF1 + (usage - 0x3A)
  else if 0x46 ≤ usage ∧ usage ≤ 0x63 then 0xA10 + (usage - 0x46)
  else if 0x7F ≤ usage ∧ usage ≤ 0x81 then 0xC9 + (usage - 0x7F)
  else if 0x87 ≤ usage ∧ usage ≤ 0x8C then 0xC0 + (usage - 0x87)
  else if usage = 0xFF then 0xA2F
  else 0

structure Report where
  modifier : Modifier → Bool
  keys : List Nat

structure Keyboard where
  lastModifier : Modifier → Bool
  prevKeys : List Nat
  heldCount : Nat
  vars : Keys

def init : Keyboard := ⟨fun _ => false, [0, 0, 0, 0, 0, 0], 0, ⟨false, fun _ => false⟩⟩

def modifierEvents (last current : Modifier → Bool) : List (KeyCode × Bool) :=
  (modKeys.filter fun m => current m != last m).map fun m => (.modifier m, current m)

/-- The events of the six keys: releases, presses and repetitions; and the count of reports a key is held. -/
def keyEvents (k : Keyboard) (keys : List Nat) : List (KeyCode × Bool) × Nat :=
  let event (value : Bool) (key : Nat) := (KeyCode.other (hidKeymap key), value)
  let released := k.prevKeys.filter fun key => key ≠ 0 ∧ key ∉ keys ∧ hidKeymap key ≠ 0
  let known := keys.filter fun key => key ≠ 0 ∧ hidKeymap key ≠ 0
  let new := known.filter (· ∉ k.prevKeys)
  let held := (k.heldCount + 1) % 2 ^ 32
  if new = [] ∧ known ≠ [] then
    let repeats := held = 5 ∨ 5 < held ∧ (held - 5) % 3 = 0
    (released.map (event false) ++ (if repeats then known.map (event true) else []), held)
  else (released.map (event false) ++ new.map (event true), 0)

def parseReport (k : Keyboard) (report : Report) : Keyboard × List (KeyCode × Bool) :=
  let (pressed, held) := keyEvents k report.keys
  let events := modifierEvents k.lastModifier report.modifier ++ pressed
  (⟨report.modifier, report.keys, held, events.foldl (fun s e => inputReportKey s e.1 e.2) k.vars⟩, events)

/-! ### What a report leaves -/

/-- The variables are what a report says. -/
def Held (s : Keys) (current : Modifier → Bool) : Prop :=
  (∀ m, s.modifier m = current m) ∧ s.shift = (current .lshift || current .rshift)

/-- Not both control keys, and no shift key released beside the other one. -/
def Meets (k : Keyboard) (report : Report) : Prop :=
  (report.modifier .lctrl && report.modifier .rctrl) = false ∧
    (k.lastModifier .rshift → report.modifier .lshift → report.modifier .rshift) ∧
    (k.lastModifier .lshift → k.lastModifier .rshift → report.modifier .rshift → report.modifier .lshift)

theorem foldl_keyEvents (k : Keyboard) (keys : List Nat) (s : Keys) :
    (keyEvents k keys).1.foldl (fun s e => inputReportKey s e.1 e.2) s = s := by
  have same : ∀ (value : Bool) (l : List Nat),
      (l.map fun key => (KeyCode.other (hidKeymap key), value)).foldl (fun s e => inputReportKey s e.1 e.2) s = s := by
    intro value l
    induction l with
    | nil => rfl
    | cons key rest ih => exact ih
  unfold keyEvents
  dsimp only
  split
  · rw [foldl_append, same]
    split
    · exact same true _
    · rfl
  · rw [foldl_append, same, same]

def compare (last current : Modifier → Bool) (s : Keys) (m : Modifier) : Keys :=
  if current m != last m then inputReportKey s (.modifier m) (current m) else s

theorem foldl_modifierEvents (last current : Modifier → Bool) (s : Keys) :
    (modifierEvents last current).foldl (fun s e => inputReportKey s e.1 e.2) s =
      modKeys.foldl (compare last current) s := by
  rw [modifierEvents, foldl_map, foldl_filter]
  rfl

theorem modifier_compare (last current : Modifier → Bool) (s : Keys) (m : Modifier) :
    (modKeys.foldl (compare last current) s).modifier m =
      if m = .lctrl ∧ current .rctrl ∧ !last .rctrl ∨
          m = .rctrl ∧ current .lctrl ∧ (!last .lctrl) ∧ current .rctrl = last .rctrl then false
      else if current m != last m then current m else s.modifier m := by
  cases m <;>
    simp only [modKeys, foldl_cons, foldl_nil, compare, inputReportKey, apply_ite Keys.modifier, ite_apply,
      update_apply, reduceCtorEq, ite_self, if_true, if_false] <;>
    grind

theorem shift_compare (last current : Modifier → Bool) (s : Keys) :
    (modKeys.foldl (compare last current) s).shift =
      if current .rshift != last .rshift then current .rshift
      else if current .lshift != last .lshift then current .lshift else s.shift := by
  simp only [modKeys, foldl_cons, foldl_nil, compare, inputReportKey, apply_ite Keys.shift, ite_self]

theorem parseReport_vars (k : Keyboard) (report : Report) :
    (parseReport k report).1.vars = modKeys.foldl (compare k.lastModifier report.modifier) k.vars := by
  unfold parseReport
  dsimp only
  rw [foldl_append, foldl_modifierEvents, foldl_keyEvents]

/-- The last report is held, and has one control key at most. -/
def Inv (k : Keyboard) : Prop :=
  Held k.vars k.lastModifier ∧ (k.lastModifier .lctrl && k.lastModifier .rctrl) = false

theorem parseReport_iff {k : Keyboard} (inv : Inv k) (report : Report) :
    Held (parseReport k report).1.vars report.modifier ↔ Meets k report := by
  obtain ⟨⟨flags, shift⟩, apart⟩ := inv
  have ctrl : (∀ m, (parseReport k report).1.vars.modifier m = report.modifier m) ↔
      (report.modifier .lctrl && report.modifier .rctrl) = false := by
    simp only [parseReport_vars, modifier_compare, flags]
    constructor
    · intro same
      grind
    · intro one m
      grind
  unfold Held Meets
  rw [ctrl, parseReport_vars, shift_compare, shift]
  grind

/-- **Modifier state**: over every sequence of reports. -/
theorem held_iff (reports : List Report) :
    Along parseReport (fun k report => Held (parseReport k report).1.vars report.modifier) init reports ↔
      Along parseReport Meets init reports :=
  along_iff (fun _ report inv met => ⟨(parseReport_iff inv report).mpr met, met.1⟩)
    (fun _ report inv => parseReport_iff inv report) reports init ⟨⟨fun _ => rfl, rfl⟩, rfl⟩

/-- Both shift keys go down, and the left one is released: the right one is held, and characters are small. -/
theorem shift_released : ¬ Along parseReport (fun k report => Held (parseReport k report).1.vars report.modifier) init
    [⟨fun m => m = .lshift ∨ m = .rshift, []⟩, ⟨fun m => m = .rshift, []⟩] := by
  intro along
  have shift := along.2.1.2
  exact absurd shift (by decide)

end Voxia.Input
