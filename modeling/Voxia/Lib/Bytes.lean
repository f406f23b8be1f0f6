/-
**Byte images: blocks copied in, little-endian words read and stored.**

A buffer or a whole device is a function from offsets to bytes. `Bytes.copy` stores a block of bytes,
`Bytes.window` is the image seen from an offset on, and words of 16, 32 and 64 bits are little-endian. Every
lemma says either what a store leaves at its own offsets or that it leaves the rest alone.
-/

import Mathlib.Data.Nat.Bitwise
import Mathlib.Tactic.Ring

namespace Voxia.Lib

abbrev Bytes := Nat → UInt8

namespace Bytes

section

variable (image : Bytes) (start at' : Nat)

def window : Bytes := fun i => image (start + i)

/-- The first `count` bytes of `block` stored at `start`. -/
def copy (block : Bytes) (count : Nat) : Bytes :=
  fun a => if start ≤ a ∧ a < start + count then block (a - start) else image a

def littleEndian (value : Nat) : Bytes := fun i => UInt8.ofNat (value / 256 ^ i)

def word16 : Nat := (image at').toNat + 256 * (image (at' + 1)).toNat

def word32 : Nat := word16 image at' + 65536 * word16 image (at' + 2)

def word64 : Nat := word32 image at' + 2 ^ 32 * word32 image (at' + 4)

def putWord16 (value : Nat) : Bytes := image.copy at' (littleEndian value) 2

def putWord32 (value : Nat) : Bytes := image.copy at' (littleEndian value) 4

def putWord64 (value : Nat) : Bytes := image.copy at' (littleEndian value) 8

@[simp] theorem window_apply (i : Nat) : image.window start i = image (start + i) :=
  rfl

end

/-! ### What a copy changes -/

variable {image image' : Bytes} {start count a at' b value : Nat}

theorem copy_congr_at (block : Bytes) (same : image a = image' a) :
    image.copy start block count a = image'.copy start block count a := by
  unfold copy
  rw [same]

theorem copy_inside (image block : Bytes) {i : Nat} (inside : i < count) :
    image.copy start block count (start + i) = block i := by
  rw [copy, if_pos ⟨Nat.le_add_right _ _, by omega⟩, Nat.add_sub_cancel_left]

theorem copy_outside (image block : Bytes) (outside : a < start ∨ start + count ≤ a) :
    image.copy start block count a = image a :=
  if_neg (by omega)

/-! ### Words -/

theorem littleEndian_toNat (value i : Nat) : (littleEndian value i).toNat = value / 256 ^ i % 256 := by
  rw [littleEndian, UInt8.toNat_ofNat']

theorem word16_congr (same : ∀ i < 2, image' (at' + i) = image (at' + i)) : image'.word16 at' = image.word16 at' := by
  have first := same 0 (by decide)
  have second := same 1 (by decide)
  rw [Nat.add_zero] at first
  rw [word16, word16, first, second]

theorem word32_congr (same : ∀ i < 4, image' (at' + i) = image (at' + i)) : image'.word32 at' = image.word32 at' := by
  have low : image'.word16 at' = image.word16 at' := word16_congr fun i inside => same i (by omega)
  have high : image'.word16 (at' + 2) = image.word16 (at' + 2) := word16_congr fun i inside => by
    rw [Nat.add_assoc]
    exact same (2 + i) (by omega)
  rw [word32, word32, low, high]

theorem word64_congr (same : ∀ i < 8, image' (at' + i) = image (at' + i)) : image'.word64 at' = image.word64 at' := by
  have low : image'.word32 at' = image.word32 at' := word32_congr fun i inside => same i (by omega)
  have high : image'.word32 (at' + 4) = image.word32 (at' + 4) := word32_congr fun i inside => by
    rw [Nat.add_assoc]
    exact same (4 + i) (by omega)
  rw [word64, word64, low, high]

theorem word32_shift (same : ∀ i < 4, image' (a + i) = image (b + i)) : image'.word32 a = image.word32 b := by
  have first := same 0 (by decide)
  rw [Nat.add_zero, Nat.add_zero] at first
  rw [word32, word32, word16, word16, word16, word16, first, same 1 (by decide), same 2 (by decide), Nat.add_assoc a,
    Nat.add_assoc b, same 3 (by decide)]

section

variable (image : Bytes)

@[simp] theorem word16_window (start at' : Nat) : (image.window start).word16 at' = image.word16 (start + at') := by
  rw [word16, word16, window_apply, window_apply, Nat.add_assoc]

@[simp] theorem word32_window (start at' : Nat) : (image.window start).word32 at' = image.word32 (start + at') := by
  rw [word32, word32, word16_window, word16_window, Nat.add_assoc]

theorem word32_of_bytes {at' value : Nat} (byte : ∀ i < 4, image (at' + i) = littleEndian value i) :
    image.word32 at' = value % 2 ^ 32 := by
  have first := byte 0 (by decide)
  rw [Nat.add_zero] at first
  rw [word32, word16, word16, first, byte 1 (by decide), byte 2 (by decide), Nat.add_assoc,
    byte 3 (by decide), littleEndian_toNat, littleEndian_toNat, littleEndian_toNat, littleEndian_toNat]
  omega

theorem word32_putWord32 (at' value : Nat) : (image.putWord32 at' value).word32 at' = value % 2 ^ 32 :=
  word32_of_bytes _ fun _ inside => copy_inside image (littleEndian value) inside

theorem word64_putWord64 (at' value : Nat) : (image.putWord64 at' value).word64 at' = value % 2 ^ 64 := by
  have low : (image.putWord64 at' value).word32 at' = (image.putWord32 at' value).word32 at' :=
    word32_congr fun i inside => by
      rw [putWord64, putWord32, copy_inside _ _ (by omega), copy_inside _ _ inside]
  have high : (image.putWord64 at' value).word32 (at' + 4) =
      (image.putWord32 (at' + 4) (value / 2 ^ 32)).word32 (at' + 4) :=
    word32_congr fun i inside => by
      rw [putWord64, putWord32, Nat.add_assoc, copy_inside _ _ (by omega), ← Nat.add_assoc, copy_inside _ _ inside,
        littleEndian, littleEndian, Nat.div_div_eq_div_mul, Nat.pow_add, show (256 : Nat) ^ 4 = 2 ^ 32 by decide]
  rw [word64, low, high, word32_putWord32, word32_putWord32]
  omega

theorem putWord32_outside (outside : a < at' ∨ at' + 4 ≤ a) : image.putWord32 at' value a = image a :=
  copy_outside image _ outside

theorem putWord64_outside (outside : a < at' ∨ at' + 8 ≤ a) : image.putWord64 at' value a = image a :=
  copy_outside image _ outside

theorem word32_putWord32_apart (apart : b + 4 ≤ at' ∨ at' + 4 ≤ b) :
    (image.putWord32 at' value).word32 b = image.word32 b :=
  word32_congr fun _ inside => putWord32_outside image (by omega)

end

end Bytes

end Voxia.Lib
