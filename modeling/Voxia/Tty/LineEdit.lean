/-
**The line buffer of a terminal.**

`tty_input_handler` (`tty/tty.c`) edits a line in a ring of 1024 bytes: the bytes from `line_buff_head` to
`line_buff_tail` are those no `read` has taken, first the lines Enter has committed and then the line
being edited. The handler keeps no mark of where that line starts. What is drawn on the screen (the echo,
`cursorx`, `cursory`) is left out; the cursor here is the one in the ring, `line_buff_cursor`.

A loop of the handler moves a position once round the ring at most, so `lineBuffSize` turns are enough
for it.
-/

import Voxia.Lib.RingBytes
import Voxia.Lib.Traces

namespace Voxia.Tty

open Function Lib

/-- `LINE_BUFF_SIZE`; `& LINE_BUFF_MASK` is the remainder by it. -/
def lineBuffSize : Nat := 1024

/-- `(pos - 1) & LINE_BUFF_MASK`. -/
def prevPos (pos : Nat) : Nat := (pos + (lineBuffSize - 1)) % lineBuffSize

/-- The flags of `termios` that the handler reads. -/
structure Termios where
  igncr : Bool
  icrnl : Bool
  inlcr : Bool
  isig : Bool
  icanon : Bool

/-- A thread that waits for input; the process group of its process, if it has one. -/
structure Waiter where
  pgid : Option Nat

structure TtyInternal where
  lineBuff : Bytes
  lineBuffHead : Nat
  lineBuffTail : Nat
  lineBuffCursor : Nat
  linesAvailable : Nat
  waiter : Option Waiter
  forgroundTid : Int
  termios : Termios

/-- `struct input_event_data` of the two types the handler takes. -/
inductive InputEvent
  | text (codepoint : List UInt8)
  | key (keycode : Nat) (ctrl alt : Bool)

/-- What the handler does besides changing the terminal. -/
inductive Effect
  | signal (pgid : Int) (sig : Nat)
  | wake (thread : Waiter)

def keyDelete : Nat := 0xA16

def sigInt : Nat := 2
def sigQuit : Nat := 3
def sigTstp : Nat := 20

def cString (codepoint : List UInt8) : List UInt8 := codepoint.takeWhile (· ≠ 0)

/-! ### Characters in the ring -/

def utf8CharLen (c : UInt8) : Nat :=
  if c &&& 0x80 = 0 then 1
  else if c &&& 0xE0 = 0xC0 then 2
  else if c &&& 0xF0 = 0xE0 then 3
  else if c &&& 0xF8 = 0xF0 then 4
  else 1

/-- `(c & 0xC0) == 0x80`: not the first byte of a character. -/
def Continues (c : UInt8) : Prop := c &&& 0xC0 = 0x80

instance (c : UInt8) : Decidable (Continues c) := inferInstanceAs (Decidable (_ = _))

variable (tty : TtyInternal)

def utf8CodepointSizeAt (pos : Nat) : Nat := utf8CharLen (tty.lineBuff pos)

def prevLoop (buff : Bytes) (head : Nat) : Nat → Nat → Nat
  | 0, p => p
  | turns + 1, p =>
    if p = head then p
    else if Continues (buff p) then prevLoop buff head turns (prevPos p)
    else p

def utf8PrevCodepoint (pos : Nat) : Nat :=
  prevLoop tty.lineBuff tty.lineBuffHead lineBuffSize (prevPos pos)

def lineBuffUsed : Nat :=
  (tty.lineBuffTail + (lineBuffSize - tty.lineBuffHead)) % lineBuffSize

/-! ### Moving bytes -/

/-- The loop of Delete and Backspace: the bytes behind a character of `cpLen` bytes move over it. -/
def closeLoop (head tail cpLen : Nat) : Nat → Bytes → Nat → Bytes
  | 0, buff, _ => buff
  | turns + 1, buff, scan =>
    if scan = tail then buff
    else
      let next := (scan + cpLen) % lineBuffSize
      if next = head then buff
      else closeLoop head tail cpLen turns (update buff scan (buff next)) ((scan + 1) % lineBuffSize)

/-- The loop of an insertion: the bytes from the cursor on move by one place. -/
def openLoop (cursor : Nat) : Nat → Bytes → Nat → Bytes
  | 0, buff, _ => buff
  | turns + 1, buff, scan =>
    if scan = cursor then buff
    else openLoop cursor turns (update buff scan (buff (prevPos scan))) (prevPos scan)

/-- The bytes of a text, one after the other from a position on. -/
def storeText : Bytes → Nat → List UInt8 → Bytes
  | buff, _, [] => buff
  | buff, pos, c :: rest => storeText (update buff (pos % lineBuffSize) c) (pos + 1) rest

/-! ### The branches of the handler -/

variable (waiter : Waiter)

def signalKey (c : UInt8) : TtyInternal × List Effect :=
  let sig := if c = 3 then sigInt else if c = 26 then sigTstp else sigQuit
  let targetPgid : Int :=
    if tty.forgroundTid = -1 then
      match waiter.pgid with
      | some pgid => pgid
      | none => -1
    else tty.forgroundTid
  if targetPgid > -1 then
    match waiter.pgid with
    | some pgid =>
      if (pgid : Int) = targetPgid then
        ({ tty with waiter := none }, [.signal targetPgid sig, .wake waiter])
      else (tty, [.signal targetPgid sig])
    | none => (tty, [.signal targetPgid sig])
  else (tty, [])

def rawText : InputEvent → List UInt8
  | .text codepoint => cString codepoint
  | .key keycode ctrl alt =>
    if keycode = keyDelete then [0x1b, 0x5b, 0x33, 0x7e] else if ctrl && alt then [2] else []

variable (text : List UInt8)

def rawInput : TtyInternal × List Effect :=
  let tty :=
    if 0 < text.length ∧ text.length ≤ lineBuffSize - 1 - lineBuffUsed tty then
      { tty with
        lineBuff := storeText tty.lineBuff tty.lineBuffTail text
        lineBuffTail := (tty.lineBuffTail + text.length) % lineBuffSize
        lineBuffCursor := (tty.lineBuffTail + text.length) % lineBuffSize }
    else tty
  ({ tty with waiter := none }, [.wake waiter])

/-- The Delete key: the tail moves by one byte, whatever the length of the character. -/
def deleteKey : TtyInternal :=
  if tty.lineBuffCursor = tty.lineBuffTail then tty
  else
    let cpLen := utf8CodepointSizeAt tty tty.lineBuffCursor
    { tty with
      lineBuff :=
        closeLoop tty.lineBuffHead tty.lineBuffTail cpLen lineBuffSize tty.lineBuff tty.lineBuffCursor
      lineBuffTail := prevPos tty.lineBuffTail }

def backspaceKey : TtyInternal :=
  if tty.lineBuffCursor = tty.lineBuffHead then tty
  else
    let delPos := utf8PrevCodepoint tty tty.lineBuffCursor
    let cpLen := utf8CodepointSizeAt tty delPos
    { tty with
      lineBuff := closeLoop tty.lineBuffHead tty.lineBuffTail cpLen lineBuffSize tty.lineBuff delPos
      lineBuffTail := (tty.lineBuffTail + (lineBuffSize - cpLen)) % lineBuffSize
      lineBuffCursor := delPos }

/-- The Enter key; the waiter is woken in any case. -/
def enterKey : TtyInternal × List Effect :=
  let nextTail := (tty.lineBuffTail + 1) % lineBuffSize
  let tty :=
    if nextTail ≠ tty.lineBuffHead then
      { tty with
        lineBuff := update tty.lineBuff tty.lineBuffTail 0x0a
        lineBuffTail := nextTail
        lineBuffCursor := nextTail
        linesAvailable := tty.linesAvailable + 1 }
    else tty
  ({ tty with waiter := none }, [.wake waiter])

def leftKey : TtyInternal :=
  if tty.lineBuffCursor = tty.lineBuffHead then tty
  else { tty with lineBuffCursor := utf8PrevCodepoint tty tty.lineBuffCursor }

def rightKey : TtyInternal :=
  if tty.lineBuffCursor = tty.lineBuffTail then tty
  else
    { tty with
      lineBuffCursor :=
        (tty.lineBuffCursor + utf8CodepointSizeAt tty tty.lineBuffCursor) % lineBuffSize }

/-- The insertion of a text: the bytes behind the cursor move by one place, whatever its length. -/
def insertText : TtyInternal :=
  if text.length ≤ lineBuffSize - 1 - lineBuffUsed tty then
    { tty with
      lineBuff :=
        storeText (openLoop tty.lineBuffCursor lineBuffSize tty.lineBuff tty.lineBuffTail)
          tty.lineBuffCursor text
      lineBuffTail := (tty.lineBuffTail + text.length) % lineBuffSize
      lineBuffCursor := (tty.lineBuffCursor + text.length) % lineBuffSize }
  else tty

/-- A control character that canonical mode discards. -/
def Discarded (c : UInt8) : Prop := (c < 32 ∨ c = 127) ∧ c ≠ 10 ∧ c ≠ 13 ∧ c ≠ 8 ∧ c ≠ 9

instance (c : UInt8) : Decidable (Discarded c) := inferInstanceAs (Decidable (_ ∧ _))

/-- A text in canonical mode that is more than one byte long, or none: an arrow or an insertion. -/
def longText : TtyInternal :=
  match text with
  | 0x1b :: 0x5b :: c :: _ => if c = 0x44 then leftKey tty else if c = 0x43 then rightKey tty else tty
  | _ => insertText tty text

def oneByte (c : UInt8) : TtyInternal × List Effect :=
  if c = 8 ∨ c = 0x7f then (backspaceKey tty, [])
  else if c = 13 ∨ c = 10 then enterKey tty waiter
  else if Discarded c then (tty, [])
  else (insertText tty [c], [])

/-- The carriage return and the newline as `IGNCR`, `ICRNL` and `INLCR` want them; nothing if the input
is ignored. -/
def translate (termios : Termios) (text : List UInt8) : Option (List UInt8) :=
  if text = [13] then
    if termios.igncr then none else if termios.icrnl then some [10] else some text
  else if text = [10] then
    if termios.inlcr then some [13] else some text
  else some text

def canonicalText : TtyInternal × List Effect :=
  match text with
  | [c] => oneByte tty waiter c
  | _ => (longText tty text, [])

/-- A text that is not ignored: a signal key, or input in raw or in canonical mode. -/
def textInput : TtyInternal × List Effect :=
  if tty.termios.isig ∧ (text = [3] ∨ text = [26] ∨ text = [28]) then signalKey tty waiter (text.headD 0)
  else if tty.termios.icanon then canonicalText tty waiter text
  else rawInput tty waiter text

def ttyInputHandler (input : InputEvent) : TtyInternal × List Effect :=
  match tty.waiter with
  | none => (tty, [])
  | some waiter =>
    match input with
    | .text codepoint =>
      match translate tty.termios (cString codepoint) with
      | none => (tty, [])
      | some text => textInput tty waiter text
    | .key keycode ctrl alt =>
      if tty.termios.icanon then (if keycode = keyDelete then deleteKey tty else tty, [])
      else rawInput tty waiter (rawText (.key keycode ctrl alt))

end Voxia.Tty
