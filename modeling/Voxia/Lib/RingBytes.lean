/-
**A ring of bytes with free-running counters.**

Positions in a stream are numbers that only grow; the byte at position `p` lies in slot `p % size`. A block that
passes the end of the ring is moved in two parts (`ringStore`, `ringLoad`).
-/

import Voxia.Lib.Bytes

namespace Voxia.Lib

open Nat Bytes

/-- The first `count` bytes of `block` stored from position `start` on: up to the end of the ring, and the
rest from its beginning. -/
def ringStore (size : Nat) (ring : Bytes) (start : Nat) (block : Bytes) (count : Nat) : Bytes :=
  let offset := start % size
  let firstPart := if size - offset > count then count else size - offset
  let ring := ring.copy offset block firstPart
  if count > firstPart then ring.copy 0 (block.window firstPart) (count - firstPart) else ring

/-- The `count` bytes from position `start` on, put together in a buffer. -/
def ringLoad (size : Nat) (ring : Bytes) (start count : Nat) : Bytes :=
  let offset := start % size
  let firstPart := if size - offset > count then count else size - offset
  let out := copy (fun _ => 0) 0 (ring.window offset) firstPart
  if count > firstPart then out.copy firstPart (ring.window 0) (count - firstPart) else out

variable {size : Nat} (positive : 0 < size)

include positive

variable {j count base done : Nat} {stream : List UInt8}

theorem slot_add (start : Nat) (near : j < size) :
    (start + j) % size = if start % size + j < size then start % size + j else start % size + j - size := by
  have less : start % size < size := mod_lt _ positive
  rw [add_mod, mod_eq_of_lt near]
  split
  · next inside => exact mod_eq_of_lt inside
  · next beyond => rw [mod_eq_sub_mod (by omega), mod_eq_of_lt (by omega)]

/-- Positions less than `size` apart have different slots. -/
theorem slot_ne {p q : Nat} (less : p < q) (near : q < p + size) : p % size ≠ q % size := by
  obtain ⟨j, rfl⟩ := Nat.exists_eq_add_of_le (Nat.le_of_lt less)
  rw [slot_add positive p (show j < size by omega)]
  split <;> omega

theorem ringStore_inside (ring block : Bytes) (start : Nat) (room : count ≤ size)
    (inside : j < count) : ringStore size ring start block count ((start + j) % size) = block j := by
  have less : start % size < size := mod_lt _ positive
  rw [slot_add positive start (show j < size by omega), ringStore]
  by_cases short : size - start % size > count
  · rw [if_pos short, if_neg (lt_irrefl _), if_pos (by omega)]
    exact copy_inside _ _ inside
  · rw [if_neg short]
    by_cases first : start % size + j < size
    · split
      · rw [copy_outside _ _ (by omega)]
        exact copy_inside _ _ (by omega)
      · exact copy_inside _ _ (by omega)
    · rw [if_neg first, if_pos (by omega)]
      rw [← zero_add (start % size + j - size), copy_inside _ _ (by omega), window_apply]
      congr 1
      omega

theorem ringStore_outside (ring block : Bytes) (start : Nat) {i : Nat} (room : count ≤ size) (slot : i < size)
    (outside : ∀ j < count, (start + j) % size ≠ i) : ringStore size ring start block count i = ring i := by
  have less : start % size < size := mod_lt _ positive
  have apart : ∀ j < count, (if start % size + j < size then start % size + j else start % size + j - size) ≠ i :=
    fun j inside => by
      rw [← slot_add positive start (show j < size by omega)]
      exact outside j inside
  -- a slot in one of the two parts is the slot of a position
  have first : i < start % size ∨ start % size + count ≤ i := by
    by_contra inside
    have here := apart (i - start % size) (by omega)
    rw [if_pos (by omega)] at here
    omega
  have second : start % size + count ≤ i + size := by
    by_contra inside
    have here := apart (i + size - start % size) (by omega)
    rw [if_neg (by omega)] at here
    omega
  rw [ringStore]
  split <;> split
  · omega
  · exact copy_outside _ _ (by omega)
  · rw [copy_outside _ _ (by omega), copy_outside _ _ (by omega)]
  · exact copy_outside _ _ (by omega)

theorem ringLoad_apply (ring : Bytes) (start : Nat) (room : count ≤ size) (inside : j < count) :
    ringLoad size ring start count j = ring ((start + j) % size) := by
  have less : start % size < size := mod_lt _ positive
  rw [slot_add positive start (show j < size by omega), ringLoad]
  have part : ∀ firstPart, j < firstPart →
      copy (fun _ => 0) 0 (ring.window (start % size)) firstPart j = ring (start % size + j) := by
    intro firstPart early
    rw [← zero_add j, copy_inside _ _ early, window_apply, zero_add]
  by_cases short : size - start % size > count
  · rw [if_pos short, if_neg (lt_irrefl _), if_pos (by omega)]
    exact part count inside
  · rw [if_neg short]
    by_cases first : start % size + j < size
    · split
      · rw [copy_outside _ _ (by omega)]
        exact part _ (by omega)
      · exact part _ (by omega)
    · obtain ⟨k, eq⟩ := Nat.exists_eq_add_of_le (show size - start % size ≤ j by omega)
      rw [if_neg first, if_pos (by omega), eq, copy_inside _ _ (by omega), window_apply]
      congr 1
      omega

omit positive

/-- The bytes of the stream from position `done` on lie in the ring; the stream starts at position
`base`. -/
def InRing (size : Nat) (ring : Bytes) (base : Nat) (stream : List UInt8) (done : Nat) : Prop :=
  ∀ k (inside : k < stream.length), done ≤ k → ring ((base + k) % size) = stream[k]

theorem InRing.later {ring : Bytes} {done' : Nat} (held : InRing size ring base stream done)
    (more : done ≤ done') : InRing size ring base stream done' :=
  fun k inside behind => held k inside (more.trans behind)

include positive

/-- Storing behind the end of the stream keeps what lies in the ring. -/
theorem InRing.store {ring block : Bytes} (held : InRing size ring base stream done)
    (room : stream.length + count ≤ done + size) (few : count ≤ size) :
    InRing size (ringStore size ring (base + stream.length) block count) base stream done := by
  intro k inside behind
  rw [ringStore_outside positive _ _ _ few (mod_lt _ positive) fun j less => ?_]
  · exact held k inside behind
  · rw [add_assoc]
    exact (slot_ne positive (show base + k < base + (stream.length + j) by omega) (by omega)).symm

end Voxia.Lib
