/-
**The machine's integers, as the kernel uses them.**

Addresses, sizes and sector numbers are natural numbers; `u64` and `u32` stand where the source's arithmetic can leave
its type. `ALIGN_UP` and `ALIGN_DOWN` (`memory_utils.h`) mask the low bits, which is rounding on a power of two.
-/

import Mathlib.Data.Nat.Bitwise
import Mathlib.Tactic.Ring

namespace Voxia

open Nat

/-- `uint64_t` arithmetic keeps the low 64 bits. -/
def u64 (n : Nat) : Nat := n % 2 ^ 64

/-- `uint32_t` arithmetic keeps the low 32 bits. -/
def u32 (n : Nat) : Nat := n % 2 ^ 32

theorem u64_lt (n : Nat) : u64 n < 2 ^ 64 := Nat.mod_lt _ (Nat.two_pow_pos 64)

variable {n x : Nat}

theorem u64_of_lt (small : n < 2 ^ 64) : u64 n = n := mod_eq_of_lt small

theorem u32_of_lt (small : n < 2 ^ 32) : u32 n = n := mod_eq_of_lt small

theorem bind_eq_some {α β : Type} {x : Option α} {f : α → Option β} {b : β} :
    (x >>= f) = some b ↔ ∃ a, x = some a ∧ f a = some b :=
  Option.bind_eq_some_iff

/-- `BLOCK_SIZE`, which is also `PAGE_SIZE_4KB`. -/
def blockSize : Nat := 0x1000

/-- The addresses the processor accepts: the bits above bit 47 repeat it. -/
def Canonical (v : Nat) : Prop := v < 2 ^ 47 ∨ 2 ^ 64 - 2 ^ 47 ≤ v ∧ v < 2 ^ 64

instance (v : Nat) : Decidable (Canonical v) := inferInstanceAs (Decidable (_ ∨ _))

theorem Canonical.lt {v : Nat} (canonical : Canonical v) : v < 2 ^ 64 := by
  unfold Canonical at canonical
  omega

/-- `ALIGN_DOWN(x, align)`: the low bits masked off. -/
def alignDown (x align : Nat) : Nat := x &&& (2 ^ 64 - align)

/-- `ALIGN_UP(x, align)`: the sum is a 64-bit one. -/
def alignUp (x align : Nat) : Nat := alignDown (u64 (x + (align - 1))) align

/-- The bits of the mask `~(2 ^ k - 1)` are the bits from `k` on. -/
private theorem testBit_mask (k i : Nat) (small : k ≤ 64) :
    (2 ^ 64 - 2 ^ k).testBit i = (decide (k ≤ i) && decide (i < 64)) := by
  have factor : 2 ^ 64 - 2 ^ k = 2 ^ k * (2 ^ (64 - k) - 1) := by
    rw [Nat.mul_sub, Nat.mul_one, ← Nat.pow_add, Nat.add_sub_cancel' small]
  rw [factor, Nat.testBit_two_pow_mul, Nat.testBit_two_pow_sub_one]
  by_cases above : k ≤ i
  · have same : (i - k < 64 - k) ↔ i < 64 := by omega
    simp [above, same]
  · simp [above]

theorem alignDown_eq (k : Nat) (word : x < 2 ^ 64) (small : k ≤ 64) : alignDown x (2 ^ k) = x / 2 ^ k * 2 ^ k := by
  apply eq_of_testBit_eq
  intro i
  rw [alignDown, testBit_and, testBit_mask k i small, mul_comm, Nat.testBit_two_pow_mul,
    testBit_div_two_pow]
  by_cases above : k ≤ i
  · rw [show i - k + k = i by omega]
    by_cases wide : i < 64
    · simp [above, wide]
    · have zero : x.testBit i = false :=
        Nat.testBit_lt_two_pow (lt_of_lt_of_le word (Nat.pow_le_pow_right (by decide) (by omega)))
      simp [zero]
  · simp [above]

theorem alignUp_eq (k : Nat) (word : x + (2 ^ k - 1) < 2 ^ 64) (small : k ≤ 64) :
    alignUp x (2 ^ k) = (x + (2 ^ k - 1)) / 2 ^ k * 2 ^ k := by
  rw [alignUp, u64_of_lt word, alignDown_eq k word small]

theorem alignUp_blockSize (word : x + 4095 < 2 ^ 64) : alignUp x blockSize = (x + 4095) / 4096 * 4096 :=
  alignUp_eq 12 word (by decide)

theorem alignDown_blockSize (word : x < 2 ^ 64) : alignDown x blockSize = x / 4096 * 4096 :=
  alignDown_eq 12 word (by decide)

end Voxia
