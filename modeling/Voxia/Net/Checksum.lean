/-
**Internet checksums.**

`checksum16_adc` adds 16-bit words into the low half of a 64-bit register and the carry of each addition into the
whole of it; `checksum16_raw` adds them in 32 bits, and its callers fold the sum. Both are sums modulo `65535`, where
a sum that is not zero is never written as zero (`ones`).
-/

import Mathlib.Tactic.NormNum
import Mathlib.Data.List.Basic

namespace Voxia.Net

open List Nat

def word (a b : UInt8) : Nat := a.toNat + 256 * b.toNat

/-- `addw` to the low half, then `adcq $0`. -/
def addCarry (sum w : Nat) : Nat :=
  let low := sum % 2 ^ 16 + w
  (sum / 2 ^ 16 * 2 ^ 16 + low % 2 ^ 16 + low / 2 ^ 16) % 2 ^ 64

def adcLoop (sum : Nat) : List UInt8 → Nat
  | a :: b :: rest => adcLoop (addCarry sum (word a b)) rest
  | [a] => (sum + a.toNat) % 2 ^ 64
  | [] => sum

def fold (sum : Nat) : Nat := sum % 2 ^ 16 + sum / 2 ^ 16

def checksum16Adc (data : List UInt8) : Nat :=
  (2 ^ 64 - 1 - fold (fold (adcLoop 0 data))) % 2 ^ 16

def rawLoop (sum : Nat) : List UInt8 → Nat
  | a :: b :: rest => rawLoop ((sum + word a b) % 2 ^ 32) rest
  | [a] => (sum + a.toNat) % 2 ^ 32
  | [] => sum

def checksum16Raw (data : List UInt8) : Nat := rawLoop 0 data

/-- `while (sum >> 16) sum = (sum & 0xFFFF) + (sum >> 16);` -/
def foldLoop (sum : Nat) : Nat :=
  if sum < 2 ^ 16 then sum else foldLoop (fold sum)
termination_by sum
decreasing_by unfold fold; omega

/-! ### Sums modulo `65535` -/

def ones (n : Nat) : Nat := if n = 0 then 0 else (n - 1) % 65535 + 1

theorem ones_le (n : Nat) : ones n ≤ 65535 := by
  unfold ones
  split <;> omega

theorem ones_add (m n : Nat) : ones (ones m + n) = ones (m + n) := by
  unfold ones
  grind

theorem ones_fold (n : Nat) : ones (fold n) = ones n := by
  unfold ones fold
  grind

theorem ones_of_lt {n : Nat} (small : n < 2 ^ 16) : ones n = n := by
  unfold ones
  split <;> omega

theorem foldLoop_eq (n : Nat) : foldLoop n = ones n := by
  fun_induction foldLoop n with
  | case1 n small => exact (ones_of_lt small).symm
  | case2 n _ ih => rw [ih, ones_fold]

theorem addCarry_eq {sum w : Nat} (inSum : sum < 2 ^ 16) (inWord : w < 2 ^ 16) : addCarry sum w = ones (sum + w) := by
  unfold addCarry ones
  dsimp only
  rcases lt_or_ge (sum + w) 65536 with plain | carries
  · split <;> omega
  · rw [if_neg (by omega)]
    omega

theorem word_lt (a b : UInt8) : word a b < 2 ^ 16 := by
  have low := a.toNat_lt
  have high := b.toNat_lt
  unfold word
  omega

def total : List UInt8 → Nat
  | a :: b :: rest => word a b + total rest
  | [a] => a.toNat
  | [] => 0

theorem adcLoop_spec (data : List UInt8) : ∀ sum < 2 ^ 16,
    adcLoop sum data < 2 ^ 16 + 255 ∧ ones (adcLoop sum data) = ones (sum + total data) := by
  fun_induction total data with
  | case1 a b rest ih =>
    intro sum small
    have step := addCarry_eq small (word_lt a b)
    obtain ⟨bound, same⟩ := ih (addCarry sum (word a b)) (by have := ones_le (sum + word a b); omega)
    refine ⟨bound, ?_⟩
    rw [adcLoop, same, step, ones_add, add_assoc]
  | case2 a =>
    intro sum small
    have byte := a.toNat_lt
    rw [adcLoop, mod_eq_of_lt (by omega)]
    exact ⟨by omega, rfl⟩
  | case3 =>
    intro sum small
    exact ⟨by rw [adcLoop]; omega, rfl⟩

theorem checksum16Adc_eq (data : List UInt8) : checksum16Adc data = 65535 - ones (total data) := by
  obtain ⟨bound, same⟩ := adcLoop_spec data 0 (by decide)
  rw [zero_add] at same
  have small : fold (fold (adcLoop 0 data)) < 2 ^ 16 := by
    unfold fold
    omega
  rw [checksum16Adc, ← same, ← ones_fold, ← ones_fold, ones_of_lt small]
  omega

theorem total_le (data : List UInt8) : total data ≤ 32768 * data.length + 255 := by
  fun_induction total data with
  | case1 a b rest ih =>
    have inWord := word_lt a b
    rw [length_cons, length_cons]
    omega
  | case2 a =>
    have byte := a.toNat_lt
    omega
  | case3 => exact zero_le _

theorem rawLoop_eq (data : List UInt8) : ∀ sum, sum + total data < 2 ^ 32 → rawLoop sum data = sum + total data := by
  fun_induction total data with
  | case1 a b rest ih =>
    intro sum fits
    rw [← add_assoc] at fits ⊢
    rw [rawLoop, mod_eq_of_lt (by omega), ih _ fits]
  | case2 a => exact fun sum fits => mod_eq_of_lt fits
  | case3 => exact fun sum _ => rfl

theorem total_field (a b : UInt8) (after : List UInt8) : ∀ before : List UInt8, before.length % 2 = 0 →
    total (before ++ a :: b :: after) = total before + word a b + total after
  | [], _ => by simp [total]
  | [_], odd => by simp at odd
  | x :: y :: rest, even => by
    rw [length_cons, length_cons] at even
    rw [cons_append, cons_append, total, total, total_field a b after rest (by omega)]
    omega

/-- **Checksums**: the fast one is the complement of the folded plain sum, and storing it in a field at an even
offset makes the whole sum up to zero. -/
theorem checksum_agree (data : List UInt8) (short : data.length ≤ 65535) :
    checksum16Adc data = 65535 - foldLoop (checksum16Raw data) ∧
      ∀ before a b after, data = before ++ a :: b :: after → before.length % 2 = 0 →
        let c := checksum16Adc (before ++ 0 :: 0 :: after)
        checksum16Adc (before ++ UInt8.ofNat (c % 256) :: UInt8.ofNat (c / 256) :: after) = 0 := by
  refine ⟨?_, fun before a b after _ even => ?_⟩
  · have bound := total_le data
    rw [checksum16Adc_eq, foldLoop_eq, checksum16Raw, rawLoop_eq data 0 (by omega), zero_add]
  · have zero : word 0 0 = 0 := rfl
    have stored : ∀ c < 65536, word (UInt8.ofNat (c % 256)) (UInt8.ofNat (c / 256)) = c := by
      intro c small
      rw [word, UInt8.toNat_ofNat', UInt8.toNat_ofNat']
      omega
    dsimp only
    rw [checksum16Adc_eq, checksum16Adc_eq, total_field _ _ _ _ even, total_field _ _ _ _ even, stored _ (by omega), zero]
    unfold ones
    grind

/-- The four bytes `45 00 00 1c`, and an odd one behind them. -/
theorem checksum_agree_five : checksum16Adc [0x45, 0x00, 0x00, 0x1c, 0x01] =
    65535 - foldLoop (checksum16Raw [0x45, 0x00, 0x00, 0x1c, 0x01]) :=
  (checksum_agree [0x45, 0x00, 0x00, 0x1c, 0x01] (by decide)).1

/-- **A damaged word is noticed**, but for a zero that becomes all ones, or the other way round, beside other bytes. -/
theorem checksum_detects (before after : List UInt8) (even : before.length % 2 = 0) (a b c d : UInt8) :
    checksum16Adc (before ++ a :: b :: after) = checksum16Adc (before ++ c :: d :: after) ↔
      word a b = word c d ∨ total before + total after ≠ 0 ∧ word a b + word c d = 65535 ∧ word a b * word c d = 0 := by
  have first := word_lt a b
  have second := word_lt c d
  rw [checksum16Adc_eq, checksum16Adc_eq, total_field _ _ _ _ even, total_field _ _ _ _ even, Nat.mul_eq_zero]
  unfold ones
  split_ifs <;> omega

/-- In a header that starts with `45 00`, a length of zero is taken for one of `ff ff`. -/
theorem checksum_detects_not : checksum16Adc [0x45, 0x00, 0x00, 0x00] = checksum16Adc [0x45, 0x00, 0xff, 0xff] :=
  (checksum_detects [0x45, 0x00] [] rfl 0 0 0xff 0xff).mpr (.inr (by decide))

end Voxia.Net
