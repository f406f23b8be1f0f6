/-
**Line editing against an ideal editor.**

An ideal editor holds the characters before and behind the cursor, and a terminal in canonical mode shows an editor
(`Shows`). Three defects keep the keys from doing what the editor does: an insertion moves the bytes behind the cursor
by one place, and Delete takes one byte off the line, whatever the length of the character; Backspace and Left stop at
the head of the ring and not at the start of the line.
-/

import Mathlib.Data.List.TakeWhile
import Voxia.Tty.LineEdit

namespace Voxia.Tty

open Lib Function List Option Nat

/-! ### The ideal editor -/

/-- The encoding of a character: a first byte that tells the length, and bytes that continue it. -/
structure Character where
  first : UInt8
  rest : List UInt8
  length_eq : utf8CharLen first = rest.length + 1
  starts : ¬ Continues first
  continued : ∀ c ∈ rest, Continues c

def Character.bytes (character : Character) : List UInt8 := character.first :: character.rest

def encode (text : List Character) : List UInt8 := text.flatMap Character.bytes

/-- The characters before and behind the cursor. -/
structure Editor where
  before : List Character
  behind : List Character

/-- The keys of line editing; Backspace comes as 8 or as 127. -/
inductive Key
  | insert (character : Character)
  | backspace (asDel : Bool)
  | delete
  | left
  | right

def Editor.press (editor : Editor) : Key → Editor
  | .insert character => { editor with before := editor.before ++ [character] }
  | .backspace _ => { editor with before := editor.before.dropLast }
  | .delete => { editor with behind := editor.behind.tail }
  | .left =>
    match editor.before.getLast? with
    | none => editor
    | some character => ⟨editor.before.dropLast, character :: editor.behind⟩
  | .right =>
    match editor.behind with
    | [] => editor
    | character :: rest => ⟨editor.before ++ [character], rest⟩

def Key.input : Key → InputEvent
  | .insert character => .text character.bytes
  | .backspace asDel => .text [if asDel then 0x7f else 8]
  | .delete => .key keyDelete false false
  | .left => .text [0x1b, 0x5b, 0x44]
  | .right => .text [0x1b, 0x5b, 0x43]

def press (tty : TtyInternal) (key : Key) : TtyInternal × List Effect := ttyInputHandler tty key.input

/-! ### What the terminal shows -/

def ringBytes (buff : Bytes) (start stop : Nat) : List UInt8 :=
  (List.range ((stop + (lineBuffSize - start)) % lineBuffSize)).map fun i => buff ((start + i) % lineBuffSize)

/-- The line from `lineStart` on and the cursor in it are those of the editor. -/
def ShowsLine (tty : TtyInternal) (lineStart : Nat) (editor : Editor) : Prop :=
  ringBytes tty.lineBuff lineStart tty.lineBuffTail = encode (editor.before ++ editor.behind) ∧
    tty.lineBuffCursor = (lineStart + (encode editor.before).length) % lineBuffSize

def committedBytes (tty : TtyInternal) (lineStart : Nat) : List UInt8 :=
  ringBytes tty.lineBuff tty.lineBuffHead lineStart

/-- A terminal in canonical mode with a reader waiting, right after Enter. -/
structure AtLineStart (tty : TtyInternal) : Prop where
  canonical : tty.termios.icanon
  waiting : tty.waiter.isSome
  head_lt : tty.lineBuffHead < lineBuffSize
  tail_lt : tty.lineBuffTail < lineBuffSize
  cursor_eq : tty.lineBuffCursor = tty.lineBuffTail

/-- The character of an insertion fits in the ring. -/
def Fits (tty : TtyInternal) : Key → Prop
  | .insert character => character.bytes.length ≤ lineBuffSize - 1 - lineBuffUsed tty
  | _ => True

/-- A control character, which the handler takes as a key or discards. Tab is a character like others. -/
def IsControl (c : UInt8) : Prop := (c < 32 ∨ c = 127) ∧ c ≠ 9

instance (c : UInt8) : Decidable (IsControl c) := inferInstanceAs (Decidable (_ ∧ _))

/-- The key stays clear of the defects, in a line that starts at `lineStart`. -/
def Clear (lineStart : Nat) (tty : TtyInternal) : Key → Prop
  | .insert character =>
    if character.rest = [] then ¬ IsControl character.first else tty.lineBuffCursor = tty.lineBuffTail
  | .delete =>
    tty.lineBuffCursor = tty.lineBuffTail ∨ utf8CodepointSizeAt tty tty.lineBuffCursor = 1
  | .backspace _ | .left => tty.lineBuffCursor = lineStart → lineStart = tty.lineBuffHead
  | .right => True

/-- The key fits in the ring and stays clear of the defects. -/
def Meets (lineStart : Nat) (tty : TtyInternal) (key : Key) : Prop :=
  Fits tty key ∧ Clear lineStart tty key

/-! ### Slots of the ring -/

theorem size_pos : 0 < lineBuffSize := by decide

theorem slot_inj (head : Nat) {i j : Nat} (first : i < lineBuffSize) (second : j < lineBuffSize)
    (same : (head + i) % lineBuffSize = (head + j) % lineBuffSize) : i = j := by
  rcases lt_trichotomy i j with less | eq | more
  · exact absurd same (slot_ne size_pos (by omega) (by omega))
  · exact eq
  · exact absurd same.symm (slot_ne size_pos (by omega) (by omega))

theorem update_slot {head i j : Nat} {buff : Bytes} {c : UInt8} (first : i < lineBuffSize) (second : j < lineBuffSize)
    (apart : j ≠ i) : update buff ((head + i) % lineBuffSize) c ((head + j) % lineBuffSize) =
      buff ((head + j) % lineBuffSize) :=
  update_of_ne (fun same => apart (slot_inj head second first same)) _ _

theorem slot_next (head k : Nat) : ((head + k) % lineBuffSize + 1) % lineBuffSize = (head + (k + 1)) % lineBuffSize := by
  rw [mod_add_mod, add_assoc]

theorem prevPos_slot (head k : Nat) : prevPos ((head + (k + 1)) % lineBuffSize) = (head + k) % lineBuffSize := by
  rw [prevPos, mod_add_mod]
  rw [show head + (k + 1) + (lineBuffSize - 1) = head + k + lineBuffSize by simp only [lineBuffSize]; omega,
    add_mod_right]

/-! ### The loops -/

/-- **Closing a gap.** Of the `total` bytes from the head on, those from place `k` on are replaced by those
`n` places behind them. -/
theorem closeLoop_spec {head total n : Nat} (headLt : head < lineBuffSize) (room : total < lineBuffSize)
    (some : 0 < n) (turns : Nat) : ∀ {buff : Bytes} {k : Nat}, k ≤ total → total - k < turns →
      (∀ j < k, closeLoop head ((head + total) % lineBuffSize) n turns buff ((head + k) % lineBuffSize)
        ((head + j) % lineBuffSize) = buff ((head + j) % lineBuffSize)) ∧
      ∀ j, k ≤ j → j + n < total →
        closeLoop head ((head + total) % lineBuffSize) n turns buff ((head + k) % lineBuffSize)
          ((head + j) % lineBuffSize) = buff ((head + (j + n)) % lineBuffSize) := by
  -- by induction on the turns left; what lies before the place of the scan is final
  induction turns with
  | zero => exact fun _ less => by omega
  | succ turns ih =>
    intro buff k inside enough
    rw [closeLoop]
    by_cases done : k = total
    · rw [if_pos (by rw [done])]
      exact ⟨fun _ _ => rfl, fun j _ _ => by omega⟩
    rw [if_neg fun same => done (slot_inj head (by omega) room same)]
    have next : ((head + k) % lineBuffSize + n) % lineBuffSize = (head + (k + n)) % lineBuffSize := by
      rw [mod_add_mod, add_assoc]
    simp only [next, slot_next]
    by_cases last : (head + (k + n)) % lineBuffSize = head
    · rw [if_pos last]
      refine ⟨fun _ _ => rfl, fun j behind moved => ?_⟩
      -- the scan has come round to the head, so nothing is left to move
      have same : (head + (k + n)) % lineBuffSize = (head + 0) % lineBuffSize := by
        rw [last, add_zero, mod_eq_of_lt headLt]
      have := slot_inj head (by omega) size_pos same
      omega
    · rw [if_neg last]
      obtain ⟨before, moved⟩ := @ih (update buff ((head + k) % lineBuffSize)
        (buff ((head + (k + n)) % lineBuffSize))) (k + 1) (by omega) (by omega)
      refine ⟨fun j less => ?_, fun j behind short => ?_⟩
      · rw [before j (by omega), update_slot (by omega) (by omega) (by omega)]
      · by_cases here : j = k
        · rw [here, before k (by omega), update_self]
        · rw [moved j (by omega) short, update_slot (by omega) (by omega) (by omega)]

/-- **Opening a gap.** The bytes from place `c` to place `k` move by one place. -/
theorem openLoop_spec {head c : Nat} (turns : Nat) : ∀ {buff : Bytes} {k : Nat}, c ≤ k → k < lineBuffSize →
      k - c < turns →
      (∀ j < lineBuffSize, j ≤ c ∨ k < j →
        openLoop ((head + c) % lineBuffSize) turns buff ((head + k) % lineBuffSize)
          ((head + j) % lineBuffSize) = buff ((head + j) % lineBuffSize)) ∧
      ∀ j, c ≤ j → j < k →
        openLoop ((head + c) % lineBuffSize) turns buff ((head + k) % lineBuffSize)
          ((head + (j + 1)) % lineBuffSize) = buff ((head + j) % lineBuffSize) := by
  induction turns with
  | zero => exact fun _ _ less => by omega
  | succ turns ih =>
    intro buff k behind room enough
    rw [openLoop]
    by_cases done : k = c
    · rw [if_pos (by rw [done])]
      exact ⟨fun _ _ _ => rfl, fun j _ _ => by omega⟩
    rw [if_neg fun same => done (slot_inj head room (by omega) same)]
    obtain ⟨k, rfl⟩ : ∃ k', k = k' + 1 := ⟨k - 1, by omega⟩
    rw [prevPos_slot]
    obtain ⟨kept, moved⟩ := @ih (update buff ((head + (k + 1)) % lineBuffSize)
      (buff ((head + k) % lineBuffSize))) k (by omega) (by omega) (by omega)
    refine ⟨fun j less outside => ?_, fun j from' short => ?_⟩
    · rw [kept j less (by omega), update_slot (by omega) (by omega) (by omega)]
    · by_cases here : j = k
      · rw [here, kept (k + 1) room (by omega), update_self]
      · rw [moved j from' (by omega), update_slot (by omega) (by omega) (by omega)]

/-- **The start of a character.** From any byte of a character back to its first byte. -/
theorem prevLoop_spec {buff : Bytes} {head start : Nat} (headLt : head < lineBuffSize)
    (first : ¬ Continues (buff ((head + start) % lineBuffSize))) (turns : Nat) : ∀ {i : Nat},
      start + i < lineBuffSize → (∀ j, 0 < j → j ≤ i → Continues (buff ((head + (start + j)) % lineBuffSize))) →
      i < turns →
      prevLoop buff head turns ((head + (start + i)) % lineBuffSize) = (head + start) % lineBuffSize := by
  induction turns with
  | zero => exact fun _ _ less => by omega
  | succ turns ih =>
    intro i room rest enough
    rw [prevLoop]
    cases i with
    | zero =>
      rw [add_zero, if_neg first]
      exact ite_self _
    | succ i =>
      have apart : (head + (start + (i + 1))) % lineBuffSize ≠ head := fun same => by
        have := slot_inj head room size_pos (same.trans (by rw [add_zero, mod_eq_of_lt headLt]))
        omega
      rw [if_neg apart, if_pos (rest (i + 1) (by omega) le_rfl), ← add_assoc start, prevPos_slot]
      exact ih (by omega) (fun j positive less => rest j positive (by omega)) (by omega)

/-! ### Edits of a text in the ring -/

variable {buff : Bytes} {head : Nat}

variable {a b : List UInt8}

theorem inRing_close {d : List UInt8} (headLt : head < lineBuffSize) (some : 0 < d.length)
    (room : (a ++ d ++ b).length < lineBuffSize) (held : InRing lineBuffSize buff head (a ++ d ++ b) 0) :
    InRing lineBuffSize
      (closeLoop head ((head + (a ++ d ++ b).length) % lineBuffSize) d.length lineBuffSize buff
        ((head + a.length) % lineBuffSize)) head (a ++ b) 0 := by
  have lengths : (a ++ d ++ b).length = a.length + d.length + b.length := by
    simp only [length_append]
  obtain ⟨kept, moved⟩ := @closeLoop_spec head (a ++ d ++ b).length d.length headLt room some lineBuffSize buff
    a.length (by omega) (by omega)
  intro j inside _
  rw [length_append] at inside
  by_cases early : j < a.length
  · rw [kept j early, held j (by omega) (zero_le _)]
    simp only [getElem_append_left early, append_assoc]
  · rw [moved j (by omega) (by omega), held (j + d.length) (by omega) (zero_le _)]
    rw [getElem_append_right (by rw [length_append]; omega), getElem_append_right (by omega)]
    congr 1
    rw [length_append]
    omega

theorem inRing_push (c : UInt8) (room : a.length < lineBuffSize) (held : InRing lineBuffSize buff head a 0) :
    InRing lineBuffSize (update buff ((head + a.length) % lineBuffSize) c) head (a ++ [c]) 0 := by
  intro j inside _
  rw [length_append, length_singleton] at inside
  by_cases early : j < a.length
  · rw [update_slot room (by omega) (by omega), held j early (zero_le _), getElem_append_left early]
  · obtain rfl : j = a.length := by omega
    simp

theorem inRing_storeText (text : List UInt8) : ∀ {buff : Bytes} {a : List UInt8} {pos : Nat},
    pos % lineBuffSize = (head + a.length) % lineBuffSize → a.length + text.length ≤ lineBuffSize →
      InRing lineBuffSize buff head a 0 →
      InRing lineBuffSize (storeText buff pos text) head (a ++ text) 0 := by
  induction text with
  | nil => exact fun _ _ held => by rwa [append_nil]
  | cons c rest ih =>
    intro buff a pos here room held
    rw [length_cons] at room
    rw [storeText, here, ← singleton_append, ← append_assoc]
    refine ih ?_ ?_ (inRing_push c (by omega) held)
    · rw [length_append, length_singleton, add_mod, here, mod_add_mod, ← add_assoc,
        add_mod_mod]
    · rw [length_append, length_singleton]
      omega

theorem inRing_open (c : UInt8) (room : (a ++ b).length + 1 < lineBuffSize)
    (held : InRing lineBuffSize buff head (a ++ b) 0) :
    InRing lineBuffSize
      (update
        (openLoop ((head + a.length) % lineBuffSize) lineBuffSize buff
          ((head + (a ++ b).length) % lineBuffSize)) ((head + a.length) % lineBuffSize) c)
      head (a ++ c :: b) 0 := by
  have lengths : (a ++ b).length = a.length + b.length := length_append
  obtain ⟨kept, moved⟩ := @openLoop_spec head a.length lineBuffSize buff (a ++ b).length (by omega) (by omega)
    (by omega)
  intro j inside _
  rw [length_append, length_cons] at inside
  rcases lt_trichotomy j a.length with early | rfl | late
  · rw [update_slot (by omega) (by omega) (by omega), kept j (by omega) (.inl (by omega)),
      held j (by omega) (zero_le _), getElem_append_left early, getElem_append_left early]
  · simp
  · obtain ⟨j, rfl⟩ : ∃ i, j = i + 1 := ⟨j - 1, by omega⟩
    rw [update_slot (by omega) (by omega) (by omega), moved j (by omega) (by omega),
      held j (by omega) (zero_le _), getElem_append_right (by omega), getElem_append_right (by omega)]
    simp only [show j + 1 - a.length = j - a.length + 1 by omega, getElem_cons_succ]

/-! ### The terminal and the editor -/

theorem encode_append (a b : List Character) : encode (a ++ b) = encode a ++ encode b := flatMap_append

theorem encode_singleton (c : Character) : encode [c] = c.bytes := append_nil _

theorem encode_nil : encode [] = [] := rfl

theorem encode_cons (c : Character) (rest : List Character) : encode (c :: rest) = c.bytes ++ encode rest := rfl

theorem Character.bytes_length (c : Character) : c.bytes.length = utf8CharLen c.first := c.length_eq.symm

theorem Character.bytes_pos (c : Character) : 0 < c.bytes.length := length_pos_of_ne_nil (cons_ne_nil _ _)

def textOf (committed : List UInt8) (editor : Editor) : List UInt8 :=
  committed ++ encode editor.before ++ encode editor.behind

/-- The terminal with the head at `head` shows the editor behind the committed bytes. -/
structure Shows (head : Nat) (committed : List UInt8) (tty : TtyInternal) (editor : Editor) : Prop where
  canonical : tty.termios.icanon
  waiting : tty.waiter.isSome
  headLt : head < lineBuffSize
  head_eq : tty.lineBuffHead = head
  room : (textOf committed editor).length < lineBuffSize
  held : InRing lineBuffSize tty.lineBuff head (textOf committed editor) 0
  tail_eq : tty.lineBuffTail = (head + (textOf committed editor).length) % lineBuffSize
  cursor_eq : tty.lineBuffCursor = (head + (committed ++ encode editor.before).length) % lineBuffSize

section

variable {committed : List UInt8} {tty : TtyInternal} {editor : Editor}

theorem length_textOf (committed : List UInt8) (editor : Editor) : (textOf committed editor).length
    = (committed ++ encode editor.before).length + (encode editor.behind).length := length_append

theorem slot_sub {first count : Nat} (small : first < lineBuffSize) (room : count < lineBuffSize) :
    ((first + count) % lineBuffSize + (lineBuffSize - first)) % lineBuffSize = count := by
  rw [mod_add_mod, show first + count + (lineBuffSize - first) = count + lineBuffSize by omega,
    add_mod_right, mod_eq_of_lt room]

section

variable (shows' : Shows head committed tty editor)

include shows'

theorem Shows.used : lineBuffUsed tty = (textOf committed editor).length := by
  rw [lineBuffUsed, shows'.tail_eq, shows'.head_eq]
  exact slot_sub shows'.headLt shows'.room

theorem Shows.cursor_le :
    (committed ++ encode editor.before).length + (encode editor.behind).length < lineBuffSize :=
  length_textOf committed editor ▸ shows'.room

theorem Shows.atEnd_iff : tty.lineBuffCursor = tty.lineBuffTail ↔ encode editor.behind = [] := by
  have less := shows'.cursor_le
  rw [shows'.cursor_eq, shows'.tail_eq, length_textOf, ← length_eq_zero_iff]
  constructor
  · intro same
    have := slot_inj head (by omega) less same
    omega
  · intro none
    rw [none, add_zero]

theorem Shows.atHead_iff : tty.lineBuffCursor = tty.lineBuffHead ↔ committed ++ encode editor.before = [] := by
  have less := shows'.cursor_le
  rw [shows'.cursor_eq, shows'.head_eq, ← length_eq_zero_iff]
  constructor
  · intro same
    exact slot_inj head (by omega) size_pos (same.trans (by rw [add_zero, mod_eq_of_lt shows'.headLt]))
  · intro none
    rw [none, add_zero, mod_eq_of_lt shows'.headLt]

end

variable {c : Character}

theorem Shows.size_at_cursor {rest : List Character} (shows' : Shows head committed tty editor)
    (next : editor.behind = c :: rest) : utf8CodepointSizeAt tty tty.lineBuffCursor = c.bytes.length := by
  have text : textOf committed editor = committed ++ encode editor.before ++ (c.first :: (c.rest ++ encode rest)) := by
    rw [textOf, next]
    rfl
  rw [utf8CodepointSizeAt, shows'.cursor_eq, shows'.held _ (by rw [text]; simp) (zero_le _), c.bytes_length]
  simp only [text, getElem_append_right le_rfl, Nat.sub_self, getElem_cons_zero]

/-- The source finds the character before the cursor, and its size. -/
theorem Shows.prev_codepoint {init : List Character} (shows' : Shows head committed tty editor)
    (prev : editor.before = init ++ [c]) :
    utf8PrevCodepoint tty tty.lineBuffCursor = (head + (committed ++ encode init).length) % lineBuffSize ∧
      utf8CodepointSizeAt tty ((head + (committed ++ encode init).length) % lineBuffSize) = c.bytes.length := by
  have less := shows'.cursor_le
  have before : committed ++ encode editor.before = (committed ++ encode init) ++ c.bytes := by
    rw [prev, encode_append, encode_singleton, append_assoc]
  rw [before, length_append] at less
  have byte : ∀ i (inside : i < c.bytes.length),
      tty.lineBuff ((head + ((committed ++ encode init).length + i)) % lineBuffSize) = c.bytes.get ⟨i, inside⟩ := by
    intro i inside
    have text : textOf committed editor = committed ++ encode init ++ (c.bytes ++ encode editor.behind) := by
      rw [textOf, before, append_assoc]
    rw [shows'.held _ (by rw [text]; simp only [length_append] at less ⊢; omega) (zero_le _)]
    simp only [text]
    rw [getElem_append_right (by omega)]
    simp only [Nat.add_sub_cancel_left]
    rw [getElem_append_left inside]
    rfl
  have length : c.bytes.length = c.rest.length + 1 := length_cons
  constructor
  · have place : (committed ++ encode init ++ c.bytes).length
        = ((committed ++ encode init).length + c.rest.length) + 1 := by
      rw [length_append, length, add_assoc]
    rw [utf8PrevCodepoint, shows'.cursor_eq, shows'.head_eq, before, place, prevPos_slot]
    refine prevLoop_spec shows'.headLt ?_ lineBuffSize (by omega) (fun j positive inside => ?_) (by omega)
    · rw [← add_zero (committed ++ encode init).length, byte 0 (by omega)]
      exact c.starts
    · obtain ⟨j, rfl⟩ : ∃ i, j = i + 1 := ⟨j - 1, by omega⟩
      rw [byte (j + 1) (by omega)]
      exact c.continued _ (get_mem c.rest ⟨j, by omega⟩)
  · rw [utf8CodepointSizeAt, ← add_zero (committed ++ encode init).length, byte 0 (by omega)]
    exact c.bytes_length.symm

/-! ### One key -/

section

variable (shows' : Shows head committed tty editor)

include shows'

theorem Shows.away_head {init : List Character} (prev : editor.before = init ++ [c]) :
    tty.lineBuffCursor ≠ tty.lineBuffHead := by
  rw [ne_eq, shows'.atHead_iff, prev, encode_append, encode_singleton, Character.bytes]
  simp

theorem Shows.away_tail {rest : List Character} (next : editor.behind = c :: rest) :
    tty.lineBuffCursor ≠ tty.lineBuffTail := by
  rw [ne_eq, shows'.atEnd_iff, next, encode_cons, Character.bytes]
  exact cons_ne_nil _ _

theorem Shows.move {editor' : Editor} {pos : Nat} (text : textOf committed editor' = textOf committed editor)
    (cursor : pos = (head + (committed ++ encode editor'.before).length) % lineBuffSize) :
    Shows head committed { tty with lineBuffCursor := pos } editor' :=
  { shows' with
    room := text ▸ shows'.room
    held := text ▸ shows'.held
    tail_eq := text ▸ shows'.tail_eq
    cursor_eq := cursor }

theorem Shows.close (editor' : Editor) {d : List UInt8} (some : 0 < d.length)
    (text : textOf committed editor = committed ++ encode editor'.before ++ d ++ encode editor'.behind) :
    Shows head committed
      { tty with
        lineBuff := closeLoop tty.lineBuffHead tty.lineBuffTail d.length lineBuffSize tty.lineBuff
          ((head + (committed ++ encode editor'.before).length) % lineBuffSize)
        lineBuffTail := (tty.lineBuffTail + (lineBuffSize - d.length)) % lineBuffSize
        lineBuffCursor := (head + (committed ++ encode editor'.before).length) % lineBuffSize } editor' := by
  have lengths : (textOf committed editor).length = (textOf committed editor').length + d.length := by
    rw [text, textOf]
    simp only [length_append]
    omega
  have room := shows'.room
  exact
    { shows' with
      room := by omega
      held := by
        have held := shows'.held
        rw [shows'.head_eq, shows'.tail_eq]
        rw [text] at room held ⊢
        exact inRing_close shows'.headLt some room held
      tail_eq := by
        rw [shows'.tail_eq, lengths, mod_add_mod, show head + ((textOf committed editor').length + d.length) +
          (lineBuffSize - d.length) = head + (textOf committed editor').length + lineBuffSize by omega, add_mod_right]
      cursor_eq := rfl }

theorem Shows.left (inside : editor.before = [] → committed = []) :
    Shows head committed (leftKey tty) (editor.press .left) := by
  rw [leftKey]
  rcases eq_nil_or_concat editor.before with none | ⟨init, c, prev⟩
  · rw [if_pos (shows'.atHead_iff.mpr (by rw [inside none, none]; rfl)), Editor.press, none]
    exact shows'
  · rw [concat_eq_append] at prev
    have pressed : editor.press .left = ⟨init, c :: editor.behind⟩ := by
      simp only [Editor.press, prev, List.getLast?_append, List.getLast?_singleton, some_or,
        dropLast_concat]
    rw [if_neg (shows'.away_head prev), pressed]
    refine shows'.move ?_ (shows'.prev_codepoint prev).1
    simp only [textOf, prev, encode_append, encode_cons, encode_nil, append_nil, append_assoc]

theorem Shows.right : Shows head committed (rightKey tty) (editor.press .right) := by
  rw [rightKey, Editor.press]
  cases next : editor.behind with
  | nil =>
    rw [if_pos (shows'.atEnd_iff.mpr (by rw [next]; rfl))]
    exact shows'
  | cons c rest =>
    rw [if_neg (shows'.away_tail next)]
    refine shows'.move ?_ ?_
    · simp only [textOf, next, encode_append, encode_cons, encode_nil, append_nil, append_assoc]
    · rw [shows'.size_at_cursor next, shows'.cursor_eq, mod_add_mod, add_assoc, ← length_append,
        append_assoc, ← encode_singleton, ← encode_append]

theorem Shows.backspace (asDel : Bool) (inside : editor.before = [] → committed = []) :
    Shows head committed (backspaceKey tty) (editor.press (.backspace asDel)) := by
  rw [backspaceKey, Editor.press]
  rcases eq_nil_or_concat editor.before with none | ⟨init, c, prev⟩
  · rw [if_pos (shows'.atHead_iff.mpr (by rw [inside none, none]; rfl)), none, dropLast_nil, ← none]
    exact shows'
  · rw [concat_eq_append] at prev
    obtain ⟨place, size⟩ := shows'.prev_codepoint prev
    rw [if_neg (shows'.away_head prev), prev, dropLast_concat, place]
    dsimp only
    rw [size]
    refine shows'.close ⟨init, editor.behind⟩ c.bytes_pos ?_
    simp only [textOf, prev, encode_append, encode_singleton, append_assoc]

theorem Shows.delete (one : tty.lineBuffCursor = tty.lineBuffTail ∨ utf8CodepointSizeAt tty tty.lineBuffCursor = 1) :
    Shows head committed (deleteKey tty) (editor.press .delete) := by
  rw [deleteKey, Editor.press]
  cases next : editor.behind with
  | nil =>
    rw [if_pos (shows'.atEnd_iff.mpr (by rw [next]; rfl)), tail_nil, ← next]
    exact shows'
  | cons c rest =>
    have size := one.resolve_left (shows'.away_tail next)
    have closed := shows'.close ⟨editor.before, rest⟩ c.bytes_pos
      (by rw [textOf, next, encode_cons, ← append_assoc])
    rw [← shows'.cursor_eq, ← shows'.size_at_cursor next, size] at closed
    rw [if_neg (shows'.away_tail next), size]
    exact closed

/-- A character of one byte goes anywhere, a longer one behind the end of the line. -/
theorem Shows.insert (c : Character) (fits : c.bytes.length ≤ lineBuffSize - 1 - lineBuffUsed tty)
    (fine : c.rest = [] ∨ tty.lineBuffCursor = tty.lineBuffTail) :
    Shows head committed (insertText tty c.bytes) (editor.press (.insert c)) := by
  have before : committed ++ encode (editor.before ++ [c]) = committed ++ encode editor.before ++ c.bytes := by
    rw [encode_append, encode_singleton, append_assoc]
  have text : textOf committed (editor.press (.insert c))
      = committed ++ encode editor.before ++ (c.bytes ++ encode editor.behind) := by
    rw [Editor.press, textOf, before, append_assoc]
  have lengths : (textOf committed (editor.press (.insert c))).length
      = (textOf committed editor).length + c.bytes.length := by
    rw [text, textOf]
    simp only [length_append]
    omega
  have used := shows'.used
  have positive := c.bytes_pos
  rw [insertText, if_pos fits]
  exact
    { shows' with
      room := by omega
      held := by
        rcases fine with single | atEnd
        · have byte : c.bytes = [c.first] := by rw [Character.bytes, single]
          have opened := inRing_open c.first (show _ + 1 < lineBuffSize by
            rw [← textOf]; omega) shows'.held
          rw [text, byte, storeText, storeText, shows'.cursor_eq, shows'.tail_eq, mod_mod]
          exact opened
        · have none := shows'.atEnd_iff.mp atEnd
          have held := shows'.held
          rw [textOf, none, append_nil] at held
          have same : openLoop tty.lineBuffCursor lineBuffSize tty.lineBuff tty.lineBuffTail = tty.lineBuff := by
            rw [show lineBuffSize = 1023 + 1 from rfl, openLoop, if_pos atEnd.symm]
          rw [text, none, append_nil, same]
          refine inRing_storeText c.bytes ?_ ?_ held
          · rw [shows'.cursor_eq, mod_mod]
          · rw [length_textOf] at used
            omega
      tail_eq := by
        rw [shows'.tail_eq, mod_add_mod, lengths, add_assoc]
      cursor_eq := by
        rw [shows'.cursor_eq, mod_add_mod, add_assoc, ← length_append, ← before]
        rfl }

end

/-! ### Which branch of the handler a key takes -/

section

variable (canonical : tty.termios.icanon)

include canonical

theorem press_delete (waiting : tty.waiter.isSome) : press tty .delete = (deleteKey tty, []) := by
  obtain ⟨waiter, here⟩ := isSome_iff_exists.mp waiting
  simp [press, Key.input, ttyInputHandler, here, canonical]

theorem press_text {text : List UInt8} (waiting : tty.waiter.isSome)
    (nonzero : ∀ c ∈ text, c ≠ 0) (plain : text ≠ [13] ∧ text ≠ [10] ∧ text ≠ [3] ∧ text ≠ [26] ∧ text ≠ [28]) :
    ∃ waiter, ttyInputHandler tty (.text text) = canonicalText tty waiter text := by
  obtain ⟨waiter, here⟩ := isSome_iff_exists.mp waiting
  have whole : cString text = text := takeWhile_eq_self_iff.mpr fun c inside => by simpa using nonzero c inside
  have same : translate tty.termios text = some text := by
    rw [translate, if_neg plain.1, if_neg plain.2.1]
  refine ⟨waiter, ?_⟩
  rw [ttyInputHandler, here]
  dsimp only
  rw [whole, same]
  dsimp only
  rw [textInput, if_neg (by simp [plain.2.2]), if_pos canonical]

theorem press_backspace (waiting : tty.waiter.isSome) (asDel : Bool) :
    press tty (.backspace asDel) = (backspaceKey tty, []) := by
  obtain ⟨waiter, taken⟩ := @press_text tty canonical [if asDel then 0x7f else 8] waiting
    (by cases asDel <;> simp) (by cases asDel <;> decide)
  rw [press, Key.input, taken, canonicalText, oneByte, if_pos]
  cases asDel
  · exact .inl rfl
  · exact .inr rfl

theorem press_left (waiting : tty.waiter.isSome) : press tty .left = (leftKey tty, []) := by
  obtain ⟨waiter, taken⟩ := @press_text tty canonical [0x1b, 0x5b, 0x44] waiting (by simp) (by simp)
  rw [press, Key.input, taken]
  rfl

theorem press_right (waiting : tty.waiter.isSome) : press tty .right = (rightKey tty, []) := by
  obtain ⟨waiter, taken⟩ := @press_text tty canonical [0x1b, 0x5b, 0x43] waiting (by simp) (by simp)
  rw [press, Key.input, taken]
  rfl

/-- A character goes through the line discipline unchanged. -/
theorem press_insert (waiting : tty.waiter.isSome) (c : Character)
    (plain : c.rest = [] → ¬ IsControl c.first) : press tty (.insert c) = (insertText tty c.bytes, []) := by
  rw [press, Key.input]
  have tails : ∀ b ∈ c.rest, b ≠ 0 := fun b inside zero => absurd (c.continued b inside) (by rw [zero]; decide)
  cases bytes : c.rest with
  | nil =>
    have single : c.bytes = [c.first] := by rw [Character.bytes, bytes]
    have plain := plain bytes
    have other : ∀ b, IsControl b → c.first ≠ b := fun b control same => plain (same ▸ control)
    have ne : ∀ b, IsControl b → c.bytes ≠ [b] := fun b control same =>
      other b control (singleton_inj.mp (single.symm.trans same))
    obtain ⟨waiter, taken⟩ := @press_text tty canonical c.bytes waiting
      (by rw [single]; exact forall_mem_singleton.mpr (other 0 (by decide)))
      ⟨ne _ (by decide), ne _ (by decide), ne _ (by decide), ne _ (by decide), ne _ (by decide)⟩
    rw [taken, single, canonicalText, oneByte, if_neg, if_neg, if_neg]
    · exact fun discarded => plain ⟨discarded.1, discarded.2.2.2.2⟩
    · exact not_or.mpr ⟨other _ (by decide), other _ (by decide)⟩
    · exact not_or.mpr ⟨other _ (by decide), other _ (by decide)⟩
  | cons d rest =>
    -- a first byte of a longer character has its top bit set
    have high : ∀ b, utf8CharLen b = 1 → c.first ≠ b := fun b one same => by
      have length := c.length_eq
      rw [same, one, bytes, length_cons] at length
      omega
    have long : c.bytes = c.first :: d :: rest := by rw [Character.bytes, bytes]
    have ne : ∀ b, c.bytes ≠ [b] := fun b same => by
      rw [long] at same
      exact absurd (List.cons.inj same).2 (cons_ne_nil _ _)
    obtain ⟨waiter, taken⟩ := @press_text tty canonical c.bytes waiting
      (forall_mem_cons.mpr ⟨high 0 (by decide), tails⟩) ⟨ne _, ne _, ne _, ne _, ne _⟩
    have longer : canonicalText tty waiter c.bytes = (longText tty c.bytes, []) := by
      rw [long, canonicalText]
      simp
    rw [taken, longer, longText]
    exact fun _ _ escape => absurd (List.cons.inj escape).1 (high _ (by decide))

end

/-- **Step**: the buffer shows what the editor holds. -/
theorem shows_press {lineStart : Nat} (start : lineStart = (head + committed.length) % lineBuffSize) (key : Key)
    (shows' : Shows head committed tty editor) (meets : Meets lineStart tty key) :
    Shows head committed (press tty key).1 (editor.press key) := by
  obtain ⟨fits, clear⟩ := meets
  -- at the start of the line only an empty ring stops Backspace and Left
  have inside : (tty.lineBuffCursor = lineStart → lineStart = tty.lineBuffHead) → editor.before = [] → committed = [] := by
    intro stops none
    have here : tty.lineBuffCursor = lineStart := by
      rw [shows'.cursor_eq, none, start, encode_nil, append_nil]
    exact (append_eq_nil_iff.mp (shows'.atHead_iff.mp (here.trans (stops here)))).1
  cases key with
  | insert c =>
    have plain : c.rest = [] → ¬ IsControl c.first := fun single => by
      rwa [Clear, if_pos single] at clear
    rw [press_insert shows'.canonical shows'.waiting c plain]
    refine shows'.insert c fits ?_
    by_cases single : c.rest = []
    · exact .inl single
    · rw [Clear, if_neg single] at clear
      exact .inr clear
  | backspace asDel =>
    rw [press_backspace shows'.canonical shows'.waiting]
    exact shows'.backspace asDel (inside clear)
  | delete =>
    rw [press_delete shows'.canonical shows'.waiting]
    exact shows'.delete clear
  | left =>
    rw [press_left shows'.canonical shows'.waiting]
    exact shows'.left (inside clear)
  | right =>
    rw [press_right shows'.canonical shows'.waiting]
    exact shows'.right

/-! ### Every run of keys -/

theorem AtLineStart.tail_eq (start : AtLineStart tty) :
    tty.lineBuffTail = (tty.lineBuffHead + (committedBytes tty tty.lineBuffTail).length) % lineBuffSize := by
  have less := start.head_lt
  have round : ∀ tail, tty.lineBuffHead + (tail + (lineBuffSize - tty.lineBuffHead)) = tail + lineBuffSize := by
    intro tail
    omega
  rw [committedBytes, ringBytes, length_map, length_range, add_mod_mod, round, add_mod_right,
    mod_eq_of_lt start.tail_lt]

theorem AtLineStart.shows (start : AtLineStart tty) :
    Shows tty.lineBuffHead (committedBytes tty tty.lineBuffTail) tty ⟨[], []⟩ := by
  have text : textOf (committedBytes tty tty.lineBuffTail) ⟨[], []⟩ = committedBytes tty tty.lineBuffTail := by
    rw [textOf, encode_nil, append_nil, append_nil]
  exact
    { canonical := start.canonical, waiting := start.waiting, headLt := start.head_lt, head_eq := rfl
      room := by
        rw [text, committedBytes, ringBytes, length_map, length_range]
        exact mod_lt _ size_pos
      held := by
        rw [text]
        intro k inside _
        simp only [committedBytes, ringBytes, getElem_map, getElem_range]
      tail_eq := by rw [text]; exact start.tail_eq
      cursor_eq := by rw [encode_nil, append_nil, start.cursor_eq]; exact start.tail_eq }

theorem ringBytes_held {a b c : List UInt8} {start stop : Nat} (room : (a ++ b ++ c).length < lineBuffSize)
    (held : InRing lineBuffSize buff head (a ++ b ++ c) 0)
    (first : start = (head + a.length) % lineBuffSize) (last : stop = (head + (a ++ b).length) % lineBuffSize) :
    ringBytes buff start stop = b := by
  have lengths : (a ++ b ++ c).length = a.length + b.length + c.length := by simp only [length_append]
  have less : start < lineBuffSize := first ▸ mod_lt _ size_pos
  have count : (stop + (lineBuffSize - start)) % lineBuffSize = b.length := by
    have next : stop = (start + b.length) % lineBuffSize := by
      rw [first, last, mod_add_mod, length_append, add_assoc]
    rw [next]
    exact slot_sub less (by omega)
  refine ext_getElem (by rw [ringBytes, length_map, length_range, count]) fun i _ inside => ?_
  simp only [ringBytes, getElem_map, getElem_range]
  rw [first, mod_add_mod, add_assoc, held (a.length + i) (by omega) (zero_le _)]
  rw [getElem_append_left (by rw [length_append]; omega), getElem_append_right (by omega)]
  simp only [Nat.add_sub_cancel_left]

/-- **Line editing.** From the start of a line on, a run of keys that fits in the ring and stays clear of the
defects leaves the line and the cursor of the ideal editor, and the committed bytes as they were. -/
theorem lineEdit_refines (tty : TtyInternal) (start : AtLineStart tty) (keys : List Key)
    (clear : Traces.Along press (Meets tty.lineBuffTail) tty keys) : let final := (Traces.run press tty keys).1
    ShowsLine final tty.lineBuffTail (keys.foldl Editor.press ⟨[], []⟩) ∧
      final.lineBuffHead = tty.lineBuffHead ∧
      committedBytes final tty.lineBuffTail = committedBytes tty tty.lineBuffTail := by
  -- by induction on the keys, from any terminal that shows an editor
  have along : ∀ (keys : List Key) (now : TtyInternal) (editor : Editor),
      Shows tty.lineBuffHead (committedBytes tty tty.lineBuffTail) now editor →
      Traces.Along press (Meets tty.lineBuffTail) now keys →
      Shows tty.lineBuffHead (committedBytes tty tty.lineBuffTail) (Traces.run press now keys).1
        (keys.foldl Editor.press editor) := by
    intro keys
    induction keys with
    | nil => exact fun now editor shows' _ => shows'
    | cons key rest ih =>
      intro now editor shows' clear
      exact ih _ _ (shows_press start.tail_eq key shows' clear.1) clear.2
  have shown := along keys tty ⟨[], []⟩ start.shows clear
  intro final
  generalize keys.foldl Editor.press ⟨[], []⟩ = editor at shown
  have room := shown.room
  have held := shown.held
  refine ⟨⟨?_, ?_⟩, shown.head_eq, ?_⟩
  · rw [encode_append]
    refine @ringBytes_held _ tty.lineBuffHead (committedBytes tty tty.lineBuffTail)
      (encode editor.before ++ encode editor.behind) [] _ _ ?_ ?_ start.tail_eq ?_
    · rwa [append_nil, ← append_assoc]
    · rwa [append_nil, ← append_assoc]
    · rw [← append_assoc]
      exact shown.tail_eq
  · have cursor := shown.cursor_eq
    rwa [length_append, ← add_assoc, ← mod_add_mod, ← start.tail_eq] at cursor
  · rw [committedBytes, shown.head_eq]
    refine @ringBytes_held _ tty.lineBuffHead [] (committedBytes tty tty.lineBuffTail)
      (encode editor.before ++ encode editor.behind) _ _ ?_ ?_ ?_ ?_
    · rwa [nil_append, ← append_assoc]
    · rwa [nil_append, ← append_assoc]
    · exact (mod_eq_of_lt start.head_lt).symm
    · exact start.tail_eq

def emptyTty : TtyInternal :=
  { lineBuff := fun _ => 0, lineBuffHead := 0, lineBuffTail := 0, lineBuffCursor := 0, linesAvailable := 0
    waiter := some ⟨none⟩, forgroundTid := -1
    termios := { igncr := false, icrnl := true, inlcr := false, isig := true, icanon := true } }

theorem emptyTty_atLineStart : AtLineStart emptyTty := by
  constructor <;> decide

def letterA : Character := ⟨0x61, [], rfl, by decide, forall_mem_nil _⟩

def letterE : Character := ⟨0xc3, [0xa9], rfl, by decide, forall_mem_singleton.mpr (by decide)⟩

/-- `é`, Left, `a`: the line is `aé` with the cursor behind `a`. -/
theorem lineEdit_refines_twoLetters :
    ShowsLine (Traces.run press emptyTty [.insert letterE, .left, .insert letterA]).1 0 ⟨[letterA], [letterE]⟩ := by
  refine (lineEdit_refines emptyTty emptyTty_atLineStart [.insert letterE, .left, .insert letterA] ?_).1
  refine ⟨⟨?_, ?_⟩, ⟨trivial, ?_⟩, ⟨?_, ?_⟩, trivial⟩
  · show _ ≤ _
    decide
  · show _ = _
    decide
  · show _ → _
    decide
  · show _ ≤ _
    decide
  · show ¬ _
    decide

/-- **The suffix is overwritten.** `a`, Left, `é`: of the `a` behind the cursor nothing is left. -/
theorem lineEdit_suffix_lost :
    AtLineStart emptyTty ∧
      Traces.Along press Fits emptyTty [.insert letterA, .left, .insert letterE] ∧
      ¬ ShowsLine (Traces.run press emptyTty [.insert letterA, .left, .insert letterE]).1 emptyTty.lineBuffTail
        ([Key.insert letterA, .left, .insert letterE].foldl Editor.press ⟨[], []⟩) := by
  refine ⟨emptyTty_atLineStart, ⟨?_, trivial, ?_, trivial⟩, fun shown => absurd shown.1 ?_⟩
  · show _ ≤ _
    decide
  · show _ ≤ _
    decide
  · decide

end

end Voxia.Tty
