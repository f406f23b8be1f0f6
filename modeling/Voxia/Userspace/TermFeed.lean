/-
**The escape parser of the terminal emulator.**

`term_feed` is given the bytes of one read. Its parser is modelled with all its variables; what the bytes do to the
screen (the cells, the cursor, the attributes and the modes) is given by the operations of `Screen`, of which nothing
is assumed. In one place the parser looks at the next byte of the same read.
-/

import Mathlib.Logic.Function.Basic

namespace Voxia.Userspace

open List

inductive AnsiState
  | normal
  | esc
  | csi
  | osc
  | charset
  deriving DecidableEq

/-- What the parser calls, over any type of screens. -/
structure Screen (σ : Type*) where
  newline : σ → σ
  carriageReturn : σ → σ
  backspace : σ → σ
  tab : σ → σ
  putChar : UInt8 → σ → σ
  saveCursor : σ → σ
  restoreCursor : σ → σ
  reverseIndex : σ → σ
  index : σ → σ
  nextLine : σ → σ
  /-- `ansi_dispatch_csi`, with the parameters, their number, the intermediate byte and the private flag. -/
  dispatchCsi : UInt8 → (Nat → Nat) → Nat → UInt8 → Bool → σ → σ

variable {σ : Type*}

structure Term (σ : Type*) where
  ansiState : AnsiState
  csiParams : Nat → Nat
  csiNparam : Nat
  csiInter : UInt8
  csiPrivate : Bool
  screen : σ

variable (ops : Screen σ)

def feedNormal (t : Term σ) (ch : UInt8) : Term σ :=
  if ch = 0x1B then { t with ansiState := .esc }
  else if ch = 10 then { t with screen := ops.newline t.screen }
  else if ch = 13 then { t with screen := ops.carriageReturn t.screen }
  else if ch = 8 then { t with screen := ops.backspace t.screen }
  else if ch = 9 then { t with screen := ops.tab t.screen }
  else if 32 ≤ ch ∧ ch < 127 then { t with screen := ops.putChar ch t.screen }
  else t

def feedEsc (t : Term σ) (ch : UInt8) : Term σ :=
  -- '['
  if ch = 91 then { t with ansiState := .csi, csiNparam := 0, csiInter := 0, csiPrivate := false, csiParams := fun _ => 0 }
  -- ']'
  else if ch = 93 then { t with ansiState := .osc }
  -- '(', ')', '*', '+'
  else if ch = 40 ∨ ch = 41 ∨ ch = 42 ∨ ch = 43 then { t with ansiState := .charset }
  else
    -- '7', '8', 'M', 'D', 'E'
    let screen :=
      if ch = 55 then ops.saveCursor t.screen
      else if ch = 56 then ops.restoreCursor t.screen
      else if ch = 77 then ops.reverseIndex t.screen
      else if ch = 68 then ops.index t.screen
      else if ch = 69 then ops.nextLine t.screen
      else t.screen
    { t with ansiState := .normal, screen := screen }

def feedCsi (t : Term σ) (ch : UInt8) : Term σ :=
  let nparam := if t.csiNparam = 0 then 1 else t.csiNparam
  if 48 ≤ ch ∧ ch ≤ 57 then
    let value := t.csiParams (nparam - 1) * 10 + (ch.toNat - 48)
    { t with csiNparam := nparam, csiParams := Function.update t.csiParams (nparam - 1) value }
  else if ch = 59 then { t with csiNparam := if nparam < 16 then nparam + 1 else nparam }
  else if ch = 63 then { t with csiPrivate := true }
  else if 0x20 ≤ ch ∧ ch ≤ 0x2F then { t with csiInter := ch }
  else if 0x40 ≤ ch ∧ ch ≤ 0x7E then
    let screen := ops.dispatchCsi ch t.csiParams t.csiNparam t.csiInter t.csiPrivate t.screen
    let params := if t.csiNparam = 0 then Function.update t.csiParams 0 0 else t.csiParams
    { t with ansiState := .normal, csiPrivate := false, csiParams := params, screen := screen }
  else { t with ansiState := .normal, csiPrivate := false }

def feedByte (t : Term σ) (ch : UInt8) : Term σ :=
  match t.ansiState with
  | .normal => feedNormal ops t ch
  | .esc => feedEsc ops t ch
  | .csi => feedCsi ops t ch
  | .osc => if ch = 7 then { t with ansiState := .normal } else t
  | .charset => { t with ansiState := .normal }

def termFeed (t : Term σ) : List UInt8 → Term σ
  | [] => t
  | ch :: rest =>
    if t.ansiState = .osc ∧ ch = 0x1B then
      -- the terminator is the two bytes ESC and '\'
      match rest with
      | 92 :: rest => termFeed { t with ansiState := .normal } rest
      | rest => termFeed { t with ansiState := .esc } rest
    else termFeed (feedByte ops t ch) rest

/-- The parser without a look at the next byte. -/
def step (t : Term σ) (ch : UInt8) : Term σ :=
  if t.ansiState = .osc ∧ ch = 0x1B then { t with ansiState := .esc } else feedByte ops t ch

/-- The second byte of the terminator ends an escape sequence that has no meaning. -/
theorem step_backslash (t : Term σ) : step ops { t with ansiState := .esc } 92 = { t with ansiState := .normal } := rfl

theorem termFeed_eq_foldl (t : Term σ) (buf : List UInt8) : termFeed ops t buf = buf.foldl (step ops) t := by
  fun_induction termFeed ops t buf with
  | case1 t => rfl
  | case2 t ch ended rest ih =>
    rw [foldl_cons, step, if_pos ended, foldl_cons, step_backslash]
    exact ih
  | case3 t ch ended rest _ ih =>
    rw [foldl_cons, step, if_pos ended]
    exact ih
  | case4 t ch rest plain ih =>
    rw [foldl_cons, step, if_neg plain]
    exact ih

/-- **Read sizes do not matter**: feeding the reads one after the other is feeding their bytes in one call. -/
theorem termFeed_flatten (t : Term σ) (reads : List (List UInt8)) :
    reads.foldl (termFeed ops) t = termFeed ops t reads.flatten := by
  have same : termFeed ops = fun t buf => buf.foldl (step ops) t := by
    funext t buf
    exact termFeed_eq_foldl ops t buf
  rw [same]
  exact foldl_flatten.symm

end Voxia.Userspace
