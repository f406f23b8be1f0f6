/-
**Memory with a scatter-gather list.**

Memory has 64-bit addresses, and an address past the end wraps to zero. `store` puts a block of bytes at an address. A
scatter-gather list is a list of spans; a device fills the spans in order (`scatter`) or reads them in order
(`gather`). If the spans lie one behind the other (`Contiguous`), both are what they are for a single span.
-/

import Voxia.Lib.Bytes

namespace Voxia.Lib

open Nat

abbrev Memory := BitVec 64 → UInt8

/-- The first `n` bytes of `data`, stored from `a` on. -/
def Memory.store (mem : Memory) (a : BitVec 64) (n : Nat) (data : Bytes) : Memory :=
  fun x => if (x - a).toNat < n then data (x - a).toNat else mem x

def Memory.load (mem : Memory) (a : BitVec 64) : Bytes := fun k => mem (a + BitVec.ofNat 64 k)

structure Sg where
  addr : BitVec 64
  bytes : Nat

def room : List Sg → Nat
  | [] => 0
  | e :: rest => e.bytes + room rest

/-- The first `n` bytes of `data` are put into the spans, as far as these go. -/
def scatter : List Sg → Nat → Bytes → Memory → Memory
  | [], _, _, mem => mem
  | e :: rest, n, data, mem =>
    scatter rest (n - min e.bytes n) (data.window (min e.bytes n)) (mem.store e.addr (min e.bytes n) data)

/-- Byte `k` of the spans, if they go that far. -/
def gather (mem : Memory) : List Sg → Nat → Option UInt8
  | [], _ => none
  | e :: rest, k => if k < e.bytes then some (mem.load e.addr k) else gather mem rest (k - e.bytes)

/-- The spans follow one another from `a` on. -/
def Contiguous : BitVec 64 → List Sg → Prop
  | _, [] => True
  | a, e :: rest => e.addr = a ∧ Contiguous (a + BitVec.ofNat 64 e.bytes) rest

namespace Memory

variable (mem : Memory) (a : BitVec 64) (data : Bytes)

variable {k n : Nat}

theorem toNat_add_sub (small : k < 2 ^ 64) : (a + BitVec.ofNat 64 k - a).toNat = k := by
  rw [BitVec.add_comm, BitVec.add_sub_cancel, BitVec.toNat_ofNat, mod_eq_of_lt small]

theorem load_store (small : k < 2 ^ 64) : (mem.store a n data).load a k = if k < n then data k else mem.load a k := by
  rw [load, store, toNat_add_sub a small]
  rfl

@[simp] theorem store_zero : mem.store a 0 data = mem := by
  funext x
  exact if_neg (not_lt_zero _)

theorem store_store {m : Nat} (fits : n + m ≤ 2 ^ 64) :
    (mem.store a n data).store (a + BitVec.ofNat 64 n) m (data.window n) = mem.store a (n + m) data := by
  funext x
  have distance : (x - (a + BitVec.ofNat 64 n)).toNat = ((x - a).toNat + (2 ^ 64 - n % 2 ^ 64)) % 2 ^ 64 := by
    rw [← BitVec.sub_sub, BitVec.toNat_sub, BitVec.toNat_ofNat, add_comm]
  by_cases full : n = 2 ^ 64
  · obtain rfl : m = 0 := by omega
    rw [store_zero, add_zero]
  unfold store
  by_cases first : (x - a).toNat < n
  · rw [if_neg (by rw [distance]; omega), if_pos first, if_pos (by omega)]
  · have behind : (x - (a + BitVec.ofNat 64 n)).toNat = (x - a).toNat - n := by omega
    rw [behind, if_neg first]
    by_cases second : (x - a).toNat < n + m
    · rw [if_pos (by omega), if_pos second, Bytes.window_apply, Nat.add_sub_cancel' (by omega)]
    · rw [if_neg (by omega), if_neg second]

end Memory

/-! ### Spans that follow one another -/

variable {spans : List Sg}

/-- Spans in one row are filled like a single one. -/
theorem scatter_contiguous :
    ∀ {a : BitVec 64} {n : Nat} {data : Bytes} {mem : Memory}, Contiguous a spans → room spans ≤ 2 ^ 64 →
      scatter spans n data mem = mem.store a (min n (room spans)) data := by
  induction spans with
  | nil =>
    intro a n data mem _ _
    rw [scatter, room, min_zero, Memory.store_zero]
  | cons e rest ih =>
    intro a n data mem row fits
    obtain ⟨rfl, row⟩ := row
    rw [room] at fits
    rw [scatter, room]
    by_cases all : n ≤ e.bytes
    · rw [Nat.min_eq_right all, Nat.sub_self, ih row (by omega), Nat.zero_min, Memory.store_zero,
        Nat.min_eq_left (by omega)]
    · rw [Nat.min_eq_left (by omega), ih row (by omega), Memory.store_store _ _ _ (by omega)]
      congr 1
      omega

/-- Spans in one row are read like a single one. -/
theorem gather_contiguous {mem : Memory} : ∀ {a : BitVec 64} {k : Nat}, Contiguous a spans →
    gather mem spans k = if k < room spans then some (mem.load a k) else none := by
  induction spans with
  | nil =>
    intro a k _
    rw [gather, room, if_neg (not_lt_zero k)]
  | cons e rest ih =>
    intro a k row
    obtain ⟨rfl, row⟩ := row
    rw [gather, room]
    by_cases here : k < e.bytes
    · rw [if_pos here, if_pos (by omega)]
    · have rebase : mem.load (e.addr + BitVec.ofNat 64 e.bytes) (k - e.bytes) = mem.load e.addr k := by
        unfold Memory.load
        rw [BitVec.add_assoc, ← BitVec.ofNat_add, Nat.add_sub_cancel' (by omega)]
      rw [if_neg here, ih row, rebase]
      by_cases later : k < e.bytes + room rest
      · rw [if_pos later, if_pos (by omega)]
      · rw [if_neg later, if_neg (by omega)]

end Voxia.Lib
