/-
**FAT32: long names (`fs/fat32.c`).**

A long name is UTF-8 in memory and UTF-16 on the disk, where 13 units stand in one entry of 32 bytes, the last ones
first. The transcriptions are loops over the bytes and the units, `fat32_create` writes the entries into its buffer of
a cluster, and `fat32_lookup` collects them in a buffer of 260 units. A name that is not too long survives this
(`longName_survives`).
-/

import Voxia.Lib.Bytes
import Voxia.Machine
import Mathlib.Data.List.Basic
import Mathlib.Tactic.IntervalCases

namespace Voxia.Fs

open Lib List Bytes

/-! ### UTF-16 to UTF-8 -/

def maxLongFilename : Nat := 260

def codePointBytes (cp : Nat) : List UInt8 :=
  if cp < 0x80 then [UInt8.ofNat cp]
  else if cp < 0x800 then [UInt8.ofNat (0xC0 ||| cp >>> 6), UInt8.ofNat (0x80 ||| (cp &&& 0x3F))]
  else if cp < 0x10000 then
    [UInt8.ofNat (0xE0 ||| cp >>> 12), UInt8.ofNat (0x80 ||| (cp >>> 6 &&& 0x3F)), UInt8.ofNat (0x80 ||| (cp &&& 0x3F))]
  else
    [UInt8.ofNat (0xF0 ||| cp >>> 18), UInt8.ofNat (0x80 ||| (cp >>> 12 &&& 0x3F)),
      UInt8.ofNat (0x80 ||| (cp >>> 6 &&& 0x3F)), UInt8.ofNat (0x80 ||| (cp &&& 0x3F))]

/-- The code point at a unit, and the number of units it takes. -/
def codePointAt (utf16 : Nat → Nat) (i : Nat) : Nat × Nat :=
  let cp := utf16 i
  if 0xD800 ≤ cp ∧ cp ≤ 0xDBFF then
    let low := utf16 (i + 1)
    if 0xDC00 ≤ low ∧ low ≤ 0xDFFF then (0x10000 + (cp - 0xD800) <<< 10 + (low - 0xDC00), 2) else (cp, 1)
  else (cp, 1)

def unitsRead (utf16 : Nat → Nat) (i : Nat) : List Nat :=
  if 0xD800 ≤ utf16 i ∧ utf16 i ≤ 0xDBFF then [i, i + 1] else [i]

/-- The loop of `fat32_utf16_to_utf8` from unit `i` on, with the bytes written so far: the bytes, and the indices of
the units read. -/
def utf16Loop (utf16 : Nat → Nat) (maxUtf8Len : Nat) : Nat → Nat → List UInt8 → List UInt8 × List Nat
  | 0, _, out => (out, [])
  | fuel + 1, i, out =>
    if i < maxLongFilename then
      if utf16 i ≠ 0 ∧ utf16 i ≠ 0xFFFF then
        let (cp, count) := codePointAt utf16 i
        let bytes := codePointBytes cp
        if maxUtf8Len ≤ out.length + bytes.length then (out, i :: unitsRead utf16 i)
        else
          let (result, reads) := utf16Loop utf16 maxUtf8Len fuel (i + count) (out ++ bytes)
          (result, i :: unitsRead utf16 i ++ reads)
      else (out, [i])
    else (out, [])

/-- `fat32_utf16_to_utf8`: the bytes before the terminating zero, which stand at the start of the output buffer, and
the indices of the units read. Every round takes a unit, so 261 rounds reach the end. -/
def fat32Utf16ToUtf8 (utf16 : Nat → Nat) (maxUtf8Len : Nat) : List UInt8 × List Nat :=
  utf16Loop utf16 maxUtf8Len (maxLongFilename + 1) 0 []

/-! ### UTF-8 to UTF-16 -/

/-- What the first byte of a sequence gives: its bits of the code point, and the number of bytes that follow. -/
def leadByte (c : Nat) : Nat × Nat :=
  if c < 0x80 then (c, 0)
  else if c &&& 0xE0 = 0xC0 then (c &&& 0x1F, 1)
  else if c &&& 0xF0 = 0xE0 then (c &&& 0x0F, 2)
  else if c &&& 0xF8 = 0xF0 then (c &&& 0x07, 3)
  else (c, 0)

/-- The loop over the bytes that follow: at most `extra` of them, as long as they are of the form `10xxxxxx`. -/
def extraBytes : Nat → Nat → List UInt8 → Nat × List UInt8
  | 0, cp, rest => (cp, rest)
  | _ + 1, cp, [] => (cp, [])
  | extra + 1, cp, b :: rest =>
    if b.toNat &&& 0xC0 = 0x80 then extraBytes extra (cp <<< 6 ||| (b.toNat &&& 0x3F)) rest else (cp, b :: rest)

def codePointUnits (cp : Nat) : List Nat :=
  if cp < 0x10000 then [cp] else [0xD800 + (cp - 0x10000) >>> 10, 0xDC00 + (cp - 0x10000 &&& 0x3FF)]

/-- The loop of `fat32_utf8_to_utf16`: the units written. -/
def utf8Loop (maxUtf16Len : Nat) : Nat → List UInt8 → List Nat → List Nat
  | 0, _, out => out
  | _ + 1, [], out => out
  | fuel + 1, c :: rest, out =>
    let (cp, extra) := leadByte c.toNat
    let (cp, rest) := extraBytes extra cp rest
    let units := codePointUnits cp
    if maxUtf16Len < out.length + units.length then out else utf8Loop maxUtf16Len fuel rest (out ++ units)

/-- `fat32_utf8_to_utf16`: the units, which stand at the start of the output buffer; every round takes a byte. -/
def fat32Utf8ToUtf16 (utf8 : List UInt8) (maxUtf16Len : Nat) : List Nat :=
  utf8Loop maxUtf16Len (utf8.length + 1) utf8 []

/-! ### The transcription stays inside its buffers -/

theorem codePointAt_count (utf16 : Nat → Nat) (i : Nat) :
    1 ≤ (codePointAt utf16 i).2 ∧ (codePointAt utf16 i).2 ≤ (codePointBytes (codePointAt utf16 i).1).length := by
  have one : ∀ cp, 1 ≤ (codePointBytes cp).length := by
    intro cp
    rw [codePointBytes]
    split_ifs <;> exact Nat.succ_pos _
  rw [codePointAt]
  by_cases high : 0xD800 ≤ utf16 i ∧ utf16 i ≤ 0xDBFF
  · by_cases low : 0xDC00 ≤ utf16 (i + 1) ∧ utf16 (i + 1) ≤ 0xDFFF
    · simp only [if_pos high, if_pos low]
      -- a pair gives a code point of four bytes
      rw [codePointBytes, if_neg (by omega), if_neg (by omega), if_neg (by omega)]
      exact ⟨Nat.le_succ 1, Nat.le_add_left 2 2⟩
    · simp only [if_pos high, if_neg low]
      exact ⟨le_refl _, one _⟩
  · simp only [if_neg high]
    exact ⟨le_refl _, one _⟩

theorem unitsRead_le (utf16 : Nat → Nat) (i : Nat) : ∀ r ∈ unitsRead utf16 i, r ≤ i + 1 := by
  intro r read
  rw [unitsRead] at read
  split_ifs at read
  · rcases mem_cons.mp read with rfl | read
    · omega
    · rw [mem_singleton.mp read]
  · rw [mem_singleton.mp read]
    omega

/-- The bytes written are at least the units taken, so the output buffer is full before the units end. -/
theorem utf16Loop_bounds (utf16 : Nat → Nat) (maxUtf8Len fuel i : Nat) (out : List UInt8)
    (behind : i ≤ out.length) (room : out.length < maxUtf8Len) :
    (∀ r ∈ (utf16Loop utf16 maxUtf8Len fuel i out).2, r ≤ maxUtf8Len) ∧
      (utf16Loop utf16 maxUtf8Len fuel i out).1.length < maxUtf8Len := by
  induction fuel generalizing i out with
  | zero => exact ⟨fun r read => absurd read not_mem_nil, room⟩
  | succ fuel ih =>
    have here : ∀ r ∈ i :: unitsRead utf16 i, r ≤ maxUtf8Len := by
      intro r read
      rcases mem_cons.mp read with rfl | read
      · omega
      · have := unitsRead_le utf16 i r read
        omega
    rw [utf16Loop]
    by_cases inside : i < maxLongFilename
    swap
    · rw [if_neg inside]
      exact ⟨fun r read => absurd read not_mem_nil, room⟩
    rw [if_pos inside]
    by_cases more : utf16 i ≠ 0 ∧ utf16 i ≠ 0xFFFF
    swap
    · rw [if_neg more]
      refine ⟨fun r read => ?_, room⟩
      rw [mem_singleton.mp read]
      omega
    rw [if_pos more]
    obtain ⟨-, count⟩ := codePointAt_count utf16 i
    simp only
    by_cases full : maxUtf8Len ≤ out.length + (codePointBytes (codePointAt utf16 i).1).length
    · rw [if_pos full]
      exact ⟨here, room⟩
    · rw [if_neg full]
      obtain ⟨reads, length⟩ := ih (i + (codePointAt utf16 i).2) (out ++ codePointBytes (codePointAt utf16 i).1)
        (by rw [length_append]; omega) (by rw [length_append]; omega)
      refine ⟨fun r read => ?_, length⟩
      rcases mem_append.mp read with first | later
      · exact here r first
      · exact reads r later

variable {maxUtf8Len v n fuel i k rounds : Nat} {buffer : Nat → Nat}

/-- The transcription reads inside the buffer of units. -/
theorem utf16ToUtf8_reads (utf16 : Nat → Nat) (some' : 0 < maxUtf8Len)
    (short : maxUtf8Len < maxLongFilename) : ∀ r ∈ (fat32Utf16ToUtf8 utf16 maxUtf8Len).2, r < maxLongFilename :=
  fun r read => lt_of_le_of_lt ((utf16Loop_bounds utf16 maxUtf8Len _ 0 [] (Nat.zero_le _) some').1 r read) short

/-- What the transcription writes fits in the output buffer. -/
theorem utf16ToUtf8_length (utf16 : Nat → Nat) (some' : 0 < maxUtf8Len) :
    (fat32Utf16ToUtf8 utf16 maxUtf8Len).1.length < maxUtf8Len :=
  (utf16Loop_bounds utf16 maxUtf8Len _ 0 [] (Nat.zero_le _) some').2

theorem utf8ToUtf16_length (utf8 : List UInt8) (maxUtf16Len : Nat) :
    (fat32Utf8ToUtf16 utf8 maxUtf16Len).length ≤ maxUtf16Len := by
  have general : ∀ (fuel : Nat) (utf8 : List UInt8) (out : List Nat), out.length ≤ maxUtf16Len →
      (utf8Loop maxUtf16Len fuel utf8 out).length ≤ maxUtf16Len := by
    intro fuel
    induction fuel with
    | zero => exact fun _ _ room => room
    | succ fuel ih =>
      intro utf8 out room
      cases utf8 with
      | nil => exact room
      | cons c rest =>
        rw [utf8Loop]
        dsimp only
        split_ifs with full
        · exact room
        · refine ih _ _ ?_
          rw [length_append]
          omega
  exact general _ _ _ (Nat.zero_le _)

/-! ### Characters -/

def codePoint (c : Char) : Nat := c.val.toNat

theorem codePoint_valid (c : Char) : codePoint c < 0xD800 ∨ 0xDFFF < codePoint c ∧ codePoint c < 0x110000 := c.valid

theorem tag_or (tag : Nat) {shift bits : Nat} (below : bits < 2 ^ shift) : tag <<< shift ||| bits = bits + tag * 2 ^ shift := by
  rw [← Nat.shiftLeft_add_eq_or_of_lt below, Nat.shiftLeft_eq, Nat.add_comm]

theorem low_bits (n : Nat) : n &&& 0x3F = n % 64 := Nat.and_two_pow_sub_one_eq_mod n 6

/-- UTF-8 in terms of the code point. -/
def utf8Bytes (v : Nat) : List UInt8 :=
  if v ≤ 0x7F then [UInt8.ofNat v]
  else if v ≤ 0x7FF then [UInt8.ofNat (v / 64 % 32 + 192), UInt8.ofNat (v % 64 + 128)]
  else if v ≤ 0xFFFF then
    [UInt8.ofNat (v / 4096 % 16 + 224), UInt8.ofNat (v / 64 % 64 + 128), UInt8.ofNat (v % 64 + 128)]
  else
    [UInt8.ofNat (v / 262144 % 8 + 240), UInt8.ofNat (v / 4096 % 64 + 128), UInt8.ofNat (v / 64 % 64 + 128),
      UInt8.ofNat (v % 64 + 128)]

theorem codePointBytes_eq (below : v < 0x110000) : codePointBytes v = utf8Bytes v := by
  rw [codePointBytes, utf8Bytes]
  have two : ∀ bits < 2 ^ 5, 0xC0 ||| bits = bits + 192 := fun bits below => tag_or 6 below
  have three : ∀ bits < 2 ^ 4, 0xE0 ||| bits = bits + 224 := fun bits below => tag_or 14 below
  have four : ∀ bits < 2 ^ 3, 0xF0 ||| bits = bits + 240 := fun bits below => tag_or 30 below
  have more : ∀ bits < 2 ^ 6, 0x80 ||| bits = bits + 128 := fun bits below => tag_or 2 below
  simp only [low_bits, Nat.shiftRight_eq_div_pow]
  by_cases ascii : v < 0x80
  · rw [if_pos ascii, if_pos (by omega)]
  by_cases short : v < 0x800
  · rw [if_neg ascii, if_pos short, if_neg (by omega), if_pos (by omega), two _ (by omega), more _ (by omega)]
    congr 3
    omega
  by_cases middle : v < 0x10000
  · rw [if_neg ascii, if_neg short, if_pos middle, if_neg (by omega), if_neg (by omega), if_pos (by omega),
      three _ (by omega), more _ (by omega), more _ (by omega)]
    congr 3
    omega
  · rw [if_neg ascii, if_neg short, if_neg middle, if_neg (by omega), if_neg (by omega), if_neg (by omega),
      four _ (by omega), more _ (by omega), more _ (by omega), more _ (by omega)]
    congr 3
    omega

/-! ### Decoding the bytes of a character -/

theorem leadByte_ascii (below : n < 128) : leadByte n = (n, 0) := if_pos below

theorem leadByte_two : ∀ n < 32, leadByte (n + 192) = (n, 1) := by decide

theorem leadByte_three : ∀ n < 16, leadByte (n + 224) = (n, 2) := by decide

theorem leadByte_four : ∀ n < 8, leadByte (n + 240) = (n, 3) := by decide

theorem extraByte_bits : ∀ n < 64, (n + 128) &&& 0xC0 = 0x80 ∧ (n + 128) &&& 0x3F = n := by decide

theorem extraBytes_succ (extra cp : Nat) (below : n < 64) (rest : List UInt8) :
    extraBytes (extra + 1) cp (UInt8.ofNat (n + 128) :: rest) = extraBytes extra (cp * 64 + n) rest := by
  obtain ⟨tag, bits⟩ := extraByte_bits n below
  have byte : (UInt8.ofNat (n + 128)).toNat = n + 128 := by
    rw [UInt8.toNat_ofNat']
    omega
  rw [extraBytes, byte, if_pos tag, bits, ← Nat.shiftLeft_add_eq_or_of_lt below, Nat.shiftLeft_eq]

theorem decode_utf8Bytes (valid : v < 0x110000) (rest : List UInt8) :
    ∃ b bytes, utf8Bytes v = b :: bytes ∧
      extraBytes (leadByte b.toNat).2 (leadByte b.toNat).1 (bytes ++ rest) = (v, rest) := by
  have byte : ∀ n, n < 256 → (UInt8.ofNat n).toNat = n := by
    intro n below
    rw [UInt8.toNat_ofNat']
    omega
  rw [utf8Bytes]
  by_cases ascii : v ≤ 0x7F
  · rw [if_pos ascii]
    refine ⟨_, [], rfl, ?_⟩
    rw [byte v (by omega), leadByte_ascii (by omega)]
    rfl
  by_cases short : v ≤ 0x7FF
  · rw [if_neg ascii, if_pos short]
    refine ⟨_, _, rfl, ?_⟩
    rw [byte _ (by omega), leadByte_two _ (by omega), singleton_append, extraBytes_succ _ _ (by omega), extraBytes]
    congr 1
    omega
  by_cases middle : v ≤ 0xFFFF
  · rw [if_neg ascii, if_neg short, if_pos middle]
    refine ⟨_, _, rfl, ?_⟩
    rw [byte _ (by omega), leadByte_three _ (by omega), cons_append, singleton_append,
      extraBytes_succ _ _ (by omega), extraBytes_succ _ _ (by omega), extraBytes]
    congr 1
    omega
  · rw [if_neg ascii, if_neg short, if_neg middle]
    refine ⟨_, _, rfl, ?_⟩
    rw [byte _ (by omega), leadByte_four _ (by omega), cons_append, cons_append, singleton_append,
      extraBytes_succ _ _ (by omega), extraBytes_succ _ _ (by omega), extraBytes_succ _ _ (by omega), extraBytes]
    congr 1
    omega

/-! ### A whole name -/

variable (units : List Nat) (checksum foundOffset : Nat) (chars : List Char)

def utf8 : List UInt8 := chars.flatMap String.utf8EncodeChar

def utf16 : List Nat := chars.flatMap fun c => codePointUnits (codePoint c)

theorem codePoint_lt (c : Char) : codePoint c < 0x110000 := by
  have := codePoint_valid c
  omega

theorem codePointUnits_length_le (v : Nat) : (codePointUnits v).length ≤ (utf8Bytes v).length := by
  rw [codePointUnits, utf8Bytes]
  by_cases single : v < 0x10000
  · split_ifs <;> exact Nat.succ_le_succ (Nat.zero_le _)
  · rw [if_neg single, if_neg (by omega), if_neg (by omega), if_neg (by omega)]
    exact Nat.le_add_left 2 2

theorem utf16_length_le : (utf16 chars).length ≤ (utf8 chars).length := by
  induction chars with
  | nil => exact le_refl _
  | cons c rest ih =>
    have first := codePointUnits_length_le (codePoint c)
    change (codePointUnits (codePoint c) ++ utf16 rest).length ≤ (utf8Bytes (codePoint c) ++ utf8 rest).length
    rw [length_append, length_append]
    omega

theorem chars_length_le : chars.length ≤ (utf16 chars).length := by
  induction chars with
  | nil => exact le_refl _
  | cons c rest ih =>
    have first : 1 ≤ (codePointUnits (codePoint c)).length := by
      rw [codePointUnits]
      split_ifs <;> exact Nat.succ_le_succ (Nat.zero_le _)
    change rest.length + 1 ≤ (codePointUnits (codePoint c) ++ utf16 rest).length
    rw [length_append]
    omega

theorem utf8Loop_eq (maxUtf16Len : Nat) (chars : List Char) (enough : chars.length < fuel) {out : List Nat}
    (room : out.length + (utf16 chars).length ≤ maxUtf16Len) :
    utf8Loop maxUtf16Len fuel (utf8 chars) out = out ++ utf16 chars := by
  induction chars generalizing fuel out with
  | nil =>
    obtain ⟨fuel, rfl⟩ : ∃ n, fuel = n + 1 := ⟨fuel - 1, by omega⟩
    rw [utf16, flatMap_nil, append_nil]
    rfl
  | cons c rest ih =>
    rw [length_cons] at enough
    obtain ⟨fuel, rfl⟩ : ∃ n, fuel = n + 1 := ⟨fuel - 1, by omega⟩
    have units : utf16 (c :: rest) = codePointUnits (codePoint c) ++ utf16 rest := rfl
    rw [units, length_append] at room
    obtain ⟨b, bytes, encoded, decoded⟩ := decode_utf8Bytes (codePoint_lt c) (utf8 rest)
    have text : utf8 (c :: rest) = b :: (bytes ++ utf8 rest) := by
      change utf8Bytes (codePoint c) ++ utf8 rest = _
      rw [encoded, cons_append]
    rw [text, utf8Loop]
    simp only [decoded]
    rw [if_neg (by omega), ih (by omega) (by rw [length_append]; omega), units, append_assoc]

theorem fat32Utf8ToUtf16_eq (short : (utf8 chars).length ≤ maxLongFilename) :
    fat32Utf8ToUtf16 (utf8 chars) maxLongFilename = utf16 chars := by
  have units := utf16_length_le chars
  have count := chars_length_le chars
  exact utf8Loop_eq maxLongFilename chars (by omega) (by rw [length_nil]; omega)

theorem codePointAt_eq (c : Char)
    (units : ∀ k < (codePointUnits (codePoint c)).length, buffer (i + k) = (codePointUnits (codePoint c)).getD k 0) :
    codePointAt buffer i = (codePoint c, (codePointUnits (codePoint c)).length) := by
  have valid := codePoint_valid c
  rw [codePointAt]
  generalize codePoint c = v at units valid
  by_cases single : v < 0x10000
  · simp only [codePointUnits, if_pos single] at units ⊢
    have first := units 0 (Nat.succ_pos _)
    rw [Nat.add_zero, getD_cons_zero] at first
    rw [first, if_neg (by omega), length_singleton]
  · simp only [codePointUnits, if_neg single] at units ⊢
    have first := units 0 (Nat.succ_pos _)
    have second := units 1 (Nat.lt_succ_self _)
    have low : v - 0x10000 &&& 0x3FF = (v - 0x10000) % 1024 := Nat.and_two_pow_sub_one_eq_mod _ 10
    rw [getD_cons_succ, getD_cons_zero, low] at second
    rw [Nat.add_zero, getD_cons_zero, Nat.shiftRight_eq_div_pow] at first
    have whole : 0x10000 + (0xD800 + (v - 0x10000) / 2 ^ 10 - 0xD800) * 2 ^ 10 +
        (0xDC00 + (v - 0x10000) % 1024 - 0xDC00) = v := by omega
    rw [first, second, if_pos (by omega), if_pos (by omega), Nat.shiftLeft_eq, whole, length_cons,
      length_singleton]

theorem codePointUnits_head {c : Char} (notNull : c ≠ Char.ofNat 0) (notMark : codePoint c ≠ 0xFFFF) :
    (codePointUnits (codePoint c)).getD 0 0 ≠ 0 ∧ (codePointUnits (codePoint c)).getD 0 0 ≠ 0xFFFF := by
  have valid := codePoint_valid c
  have positive : codePoint c ≠ 0 := fun zero => notNull (Char.ext (UInt32.toNat_inj.mp zero))
  rw [codePointUnits]
  by_cases single : codePoint c < 0x10000
  · rw [if_pos single]
    exact ⟨positive, notMark⟩
  · rw [if_neg single, getD_cons_zero, Nat.shiftRight_eq_div_pow]
    omega

/-- The UTF-16 of a name is written back as its UTF-8. -/
theorem utf16Loop_eq {out : List UInt8} (enough : chars.length < fuel)
    (plain : ∀ c ∈ chars, c ≠ Char.ofNat 0 ∧ codePoint c ≠ 0xFFFF)
    (units : ∀ k < (utf16 chars).length, buffer (i + k) = (utf16 chars).getD k 0)
    (ends : buffer (i + (utf16 chars).length) = 0) (inside : i + (utf16 chars).length ≤ maxLongFilename)
    (room : out.length + (utf8 chars).length < maxUtf8Len) :
    (utf16Loop buffer maxUtf8Len fuel i out).1 = out ++ utf8 chars := by
  induction chars generalizing fuel i out with
  | nil =>
    obtain ⟨fuel, rfl⟩ : ∃ n, fuel = n + 1 := ⟨fuel - 1, by omega⟩
    have stop : ¬ (buffer i ≠ 0 ∧ buffer i ≠ 0xFFFF) := fun both => both.1 ends
    rw [utf16Loop, if_neg stop, utf8, flatMap_nil, append_nil]
    split_ifs <;> rfl
  | cons c rest ih =>
    rw [length_cons] at enough
    obtain ⟨fuel, rfl⟩ : ∃ n, fuel = n + 1 := ⟨fuel - 1, by omega⟩
    have split : utf16 (c :: rest) = codePointUnits (codePoint c) ++ utf16 rest := rfl
    have text : utf8 (c :: rest) = utf8Bytes (codePoint c) ++ utf8 rest := rfl
    rw [split, length_append] at units ends inside
    rw [text, length_append] at room
    have first : ∀ k < (codePointUnits (codePoint c)).length,
        buffer (i + k) = (codePointUnits (codePoint c)).getD k 0 := fun k below => by
      rw [units k (by omega), getD_append _ _ _ _ below]
    have later : ∀ k < (utf16 rest).length,
        buffer (i + (codePointUnits (codePoint c)).length + k) = (utf16 rest).getD k 0 := fun k below => by
      rw [Nat.add_assoc, units _ (by omega), getD_append_right _ _ _ _ (by omega), Nat.add_sub_cancel_left]
    have some' : 0 < (codePointUnits (codePoint c)).length := by
      rw [codePointUnits]
      split_ifs <;> exact Nat.succ_pos _
    obtain ⟨notNull, notMark⟩ := plain c mem_cons_self
    have here := codePointUnits_head notNull notMark
    rw [← first 0 some', Nat.add_zero] at here
    rw [utf16Loop, if_pos (by omega), if_pos here, codePointAt_eq c first]
    simp only [codePointBytes_eq (codePoint_lt c)]
    rw [if_neg (by omega), ih (by omega) (fun d inRest => plain d (mem_cons_of_mem _ inRest)) later
      (by rw [Nat.add_assoc]; exact ends) (by omega) (by rw [length_append]; omega), text, append_assoc]

/-! ### The entries of a long name -/

/-- The unit `fat32_create` puts at an index of the name: a zero after the last one, and then `0xFFFF`. -/
def lfnChar (charIdx : Nat) : Nat :=
  if charIdx < units.length then units.getD charIdx 0 else if charIdx = units.length then 0 else 0xFFFF

def lfnCount : Nat := (units.length + 12) / 13

/-- `struct fat32_lfn_entry`: the place of each of the 13 units. -/
def unitOffset (k : Nat) : Nat := if k < 5 then 1 + 2 * k else if k < 11 then 14 + 2 * (k - 5) else 28 + 2 * (k - 11)

def lfnEntry (order checksum : Nat) (units : Nat → Nat) : Bytes := fun i =>
  if i = 0 then UInt8.ofNat order
  else if i < 11 then littleEndian (units ((i - 1) / 2)) ((i - 1) % 2)
  else if i = 11 then 0x0F
  else if i = 12 then 0
  else if i = 13 then UInt8.ofNat checksum
  else if i < 26 then littleEndian (units (5 + (i - 14) / 2)) (i % 2)
  else if i < 28 then 0
  else littleEndian (units (11 + (i - 28) / 2)) (i % 2)

/-- The loop of `fat32_create` that builds the entries in `dir_buf`, the last part of the name first: `rounds` of its
`lfn_count` rounds. -/
def buildLfn (units : List Nat) (checksum foundOffset : Nat) : Nat → Bytes → Bytes
  | 0, dirBuf => dirBuf
  | i + 1, dirBuf =>
    let lfnIdx := lfnCount units - 1 - i
    (buildLfn units checksum foundOffset i dirBuf).copy (foundOffset + i * 32)
      (lfnEntry ((lfnIdx + 1) ||| if i = 0 then 0x40 else 0) checksum fun k => lfnChar units (lfnIdx * 13 + k)) 32

/-- The buffer of units and whether it holds any: `lfn_utf16` and `lfn_active`. -/
structure Lfn where
  units : Nat → Nat
  active : Bool

def Lfn.empty : Lfn := ⟨fun _ => 0, false⟩

/-- What `fat32_lookup` does with an entry of a long name at `ptr`. -/
def Lfn.readEntry (lfn : Lfn) (dirBuf : Bytes) (ptr : Nat) : Lfn :=
  let order := (dirBuf ptr).toNat &&& 0x1F
  if 1 ≤ order ∧ order ≤ 20 then
    let index := order - 1
    { units := fun i =>
        if index * 13 ≤ i ∧ i < index * 13 + 13 then dirBuf.word16 (ptr + unitOffset (i - index * 13)) else lfn.units i
      active := true }
  else lfn

def readLfn (dirBuf : Bytes) (offset : Nat) : Nat → Lfn → Lfn
  | 0, lfn => lfn
  | i + 1, lfn => (readLfn dirBuf offset i lfn).readEntry dirBuf (offset + i * 32)

theorem lfnEntry_unit (order checksum : Nat) (units : Nat → Nat) (below : k < 13) :
    (lfnEntry order checksum units).word16 (unitOffset k) = units k % 65536 := by
  have pair : ∀ at' u, lfnEntry order checksum units at' = littleEndian u 0 →
      lfnEntry order checksum units (at' + 1) = littleEndian u 1 →
      (lfnEntry order checksum units).word16 at' = u % 65536 := by
    intro at' u low high
    rw [word16, low, high, littleEndian_toNat, littleEndian_toNat]
    omega
  refine pair _ _ ?_ ?_ <;> interval_cases k <;> rfl

theorem buildLfn_entry (dirBuf : Bytes) (built : i < rounds) (inside : k < 32) :
    buildLfn units checksum foundOffset rounds dirBuf (foundOffset + i * 32 + k) =
      lfnEntry ((lfnCount units - 1 - i + 1) ||| if i = 0 then 0x40 else 0) checksum
        (fun k => lfnChar units ((lfnCount units - 1 - i) * 13 + k)) k := by
  induction rounds with
  | zero => omega
  | succ rounds ih =>
    rw [buildLfn]
    by_cases last : i = rounds
    · rw [last, copy_inside _ _ inside]
    · rw [copy_outside _ _ (by omega), ih (by omega)]

theorem order_bits : ∀ n, 1 ≤ n → n ≤ 20 → (UInt8.ofNat (n ||| 0x40)).toNat &&& 0x1F = n ∧
    (UInt8.ofNat (n ||| 0)).toNat &&& 0x1F = n := by
  intro n low high
  interval_cases n <;> decide

/-- An entry read back gives the 13 units it was built from. -/
theorem readEntry_build (dirBuf : Bytes) (lfn : Lfn) (short : lfnCount units ≤ 20) (built : i < lfnCount units) :
    lfn.readEntry (buildLfn units checksum foundOffset (lfnCount units) dirBuf) (foundOffset + i * 32) =
      { units := fun j =>
          if (lfnCount units - 1 - i) * 13 ≤ j ∧ j < (lfnCount units - 1 - i) * 13 + 13 then lfnChar units j % 65536
          else lfn.units j
        active := true } := by
  have entry := fun {k : Nat} (inside : k < 32) =>
    buildLfn_entry units checksum foundOffset dirBuf built inside
  have order : (buildLfn units checksum foundOffset (lfnCount units) dirBuf (foundOffset + i * 32)).toNat &&& 0x1F =
      lfnCount units - 1 - i + 1 := by
    have first := entry (k := 0) (by decide)
    rw [Nat.add_zero] at first
    rw [first]
    have bits := order_bits (lfnCount units - 1 - i + 1) (by omega) (by omega)
    split_ifs
    · exact bits.1
    · exact bits.2
  rw [Lfn.readEntry]
  simp only [order, if_pos (show 1 ≤ lfnCount units - 1 - i + 1 ∧ lfnCount units - 1 - i + 1 ≤ 20 by omega),
    Nat.add_sub_cancel]
  congr 1
  funext j
  by_cases here : (lfnCount units - 1 - i) * 13 ≤ j ∧ j < (lfnCount units - 1 - i) * 13 + 13
  · have below : j - (lfnCount units - 1 - i) * 13 < 13 := by omega
    have place : unitOffset (j - (lfnCount units - 1 - i) * 13) + 1 < 32 := by
      rw [unitOffset]
      split_ifs <;> omega
    have word := lfnEntry_unit ((lfnCount units - 1 - i + 1) ||| if i = 0 then 0x40 else 0) checksum
      (fun k => lfnChar units ((lfnCount units - 1 - i) * 13 + k)) below
    rw [Nat.add_sub_cancel' here.1] at word
    rw [← word, word16, word16, entry (by omega), Nat.add_assoc, entry (by omega)]
  · rw [if_neg here, if_neg here]

theorem readLfn_build (dirBuf : Bytes) (short : lfnCount units ≤ 20) (read : rounds ≤ lfnCount units) :
    (readLfn (buildLfn units checksum foundOffset (lfnCount units) dirBuf) foundOffset rounds Lfn.empty).units =
      fun j => if (lfnCount units - rounds) * 13 ≤ j ∧ j < lfnCount units * 13 then lfnChar units j % 65536 else 0 := by
  induction rounds with
  | zero =>
    funext j
    rw [if_neg (by omega)]
    rfl
  | succ rounds ih =>
    rw [readLfn, readEntry_build units checksum foundOffset dirBuf _ short (by omega), ih (by omega)]
    funext j
    simp only
    by_cases here : (lfnCount units - 1 - rounds) * 13 ≤ j ∧ j < (lfnCount units - 1 - rounds) * 13 + 13
    · rw [if_pos here, if_pos (by omega)]
    · rw [if_neg here]
      by_cases before : (lfnCount units - rounds) * 13 ≤ j ∧ j < lfnCount units * 13
      · rw [if_pos before, if_pos (by omega)]
      · rw [if_neg before, if_neg (by omega)]

theorem utf16_lt : ∀ unit ∈ utf16 chars, unit < 65536 := by
  intro unit inside
  obtain ⟨c, -, here⟩ := mem_flatMap.mp inside
  have valid := codePoint_valid c
  rw [codePointUnits] at here
  have low : codePoint c - 0x10000 &&& 0x3FF = (codePoint c - 0x10000) % 1024 := Nat.and_two_pow_sub_one_eq_mod _ 10
  split_ifs at here
  · rw [mem_singleton.mp here]
    assumption
  · rw [low, Nat.shiftRight_eq_div_pow, mem_cons, mem_singleton] at here
    omega

/-- The name that `fat32_lookup` finds in the entries `fat32_create` wrote for a name. -/
def storedName (name : List UInt8) (checksum foundOffset : Nat) (dirBuf : Bytes) : List UInt8 :=
  let units := fat32Utf8ToUtf16 name maxLongFilename
  let dirBuf := buildLfn units checksum foundOffset (lfnCount units) dirBuf
  (fat32Utf16ToUtf8 (readLfn dirBuf foundOffset (lfnCount units) Lfn.empty).units 256).1

/-- **A long name survives the disk format**: a text without U+0000 and U+FFFF whose UTF-8 has at most 255 bytes comes
back byte for byte, wherever in the buffer its entries are built. -/
theorem longName_survives (chars : List Char) (notNull : Char.ofNat 0 ∉ chars) (notMark : Char.ofNat 0xFFFF ∉ chars)
    (short : (utf8 chars).length ≤ 255) (checksum foundOffset : Nat) (dirBuf : Bytes) :
    storedName (utf8 chars) checksum foundOffset dirBuf = utf8 chars := by
  have units := utf16_length_le chars
  have count := chars_length_le chars
  have few : lfnCount (utf16 chars) ≤ 20 := by
    rw [lfnCount]
    omega
  have whole : fat32Utf8ToUtf16 (utf8 chars) maxLongFilename = utf16 chars :=
    fat32Utf8ToUtf16_eq chars (by rw [maxLongFilename]; omega)
  have enough : (utf16 chars).length ≤ lfnCount (utf16 chars) * 13 := by
    rw [lfnCount]
    omega
  have plain : ∀ c ∈ chars, c ≠ Char.ofNat 0 ∧ codePoint c ≠ 0xFFFF := by
    intro c inside
    refine ⟨fun same => notNull (same ▸ inside), fun same => notMark ?_⟩
    have mark : c = Char.ofNat 0xFFFF := Char.ext (UInt32.toNat_inj.mp same)
    exact mark ▸ inside
  rw [storedName, whole, readLfn_build _ checksum foundOffset dirBuf few (le_refl _), Nat.sub_self, Nat.zero_mul,
    fat32Utf16ToUtf8]
  refine (utf16Loop_eq chars (by rw [maxLongFilename]; omega) plain ?_ ?_ (by rw [maxLongFilename]; omega)
    (by rw [length_nil]; omega)).trans (nil_append _)
  · intro k below
    have unit : (utf16 chars).getD k 0 < 65536 := by
      rw [getD_eq_getElem _ _ below]
      exact utf16_lt chars _ (getElem_mem below)
    rw [Nat.zero_add, if_pos ⟨Nat.zero_le _, by omega⟩, lfnChar, if_pos below, Nat.mod_eq_of_lt unit]
  · rw [Nat.zero_add]
    split_ifs
    · rw [lfnChar, if_neg (lt_irrefl _), if_pos rfl]
    · rfl

/-- Names whose units fill their entries, with a pair of surrogates across two of them. -/
theorem longName_survives_pair :
    storedName (utf8 (List.replicate 12 'a' ++ [Char.ofNat 0x1F600] ++ List.replicate 12 'b')) 0 0 (fun _ => 0) =
      utf8 (List.replicate 12 'a' ++ [Char.ofNat 0x1F600] ++ List.replicate 12 'b') :=
  longName_survives _ (by decide) (by decide) (by decide) 0 0 _

end Voxia.Fs
