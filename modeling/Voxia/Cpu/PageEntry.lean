/-
**Page-table entries.**

An entry is a 64-bit number; the flags are its bits, as `paging.h` numbers them, and the physical
address is what `PAGE_PHYS_MASK` leaves. The lemmas say which bits the masks of the source keep.
-/

import Mathlib.Data.Nat.Bitwise
import Mathlib.Tactic

namespace Voxia.Cpu

open Nat

/-! ### The constants of `paging.h` -/

def pageSize4KB : Nat := 0x1000

def pageSize2MB : Nat := 0x200000

def pageSize1GB : Nat := 0x40000000

def pagePresent : Nat := 2 ^ 0

def pageWritable : Nat := 2 ^ 1

def pageUser : Nat := 2 ^ 2

def pageHuge : Nat := 2 ^ 7

def pageCow : Nat := 2 ^ 9

def page2MB : Nat := 2 ^ 61

def page1GB : Nat := 2 ^ 62

def pageNoExecute : Nat := 2 ^ 63

def pagePhysMask : Nat := 0x000FFFFFFFFFF000

/-- `PAGE_HW_FLAG`: all flag bits of an entry but the huge one. -/
def pageHwFlag : Nat := 0xF7F ||| pageNoExecute

/-! ### Reading an entry -/

variable (entry : Nat)

def present : Bool := entry.testBit 0

def writable : Bool := entry.testBit 1

def user : Bool := entry.testBit 2

def huge : Bool := entry.testBit 7

def cow : Bool := entry.testBit 9

def noExecute : Bool := entry.testBit 63

/-- `entry & PAGE_PHYS_MASK`. -/
def physOf : Nat := entry &&& pagePhysMask

/-- `entry & ~mask`, in 64 bits. -/
def without (entry mask : Nat) : Nat := entry &&& ((2 ^ 64 - 1) ^^^ mask)

/-! The protection bits of the memory system calls (`syscall.h`). -/

def protRead : Nat := 1
def protWrite : Nat := 2
def protExec : Nat := 4

def hwFlags (flags : Nat) : Nat := flags &&& pageHwFlag

/-! ### Bits -/

theorem testBit_physMask (i : Nat) : pagePhysMask.testBit i = (decide (12 ≤ i) && decide (i < 52)) := by
  have factor : pagePhysMask = 2 ^ 12 * (2 ^ 40 - 1) := by decide
  rw [factor, testBit_two_pow_mul, testBit_two_pow_sub_one]
  by_cases low : 12 ≤ i
  · simp only [low, decide_true, Bool.true_and, decide_eq_decide]
    omega
  · simp [low]

theorem testBit_hwFlag (i : Nat) : pageHwFlag.testBit i = (decide (i < 12) && decide (i ≠ 7) || decide (i = 63)) := by
  by_cases small : i < 64
  · interval_cases i <;> decide
  · have zero : pageHwFlag.testBit i = false :=
      testBit_lt_two_pow (lt_of_lt_of_le (show pageHwFlag < 2 ^ 64 by decide)
        (Nat.pow_le_pow_right (by decide) (by omega)))
    rw [zero]
    simp only [Bool.false_eq, Bool.or_eq_false_iff, Bool.and_eq_false_iff, decide_eq_false_iff_not]
    omega

theorem testBit_physOf (entry i : Nat) :
    (physOf entry).testBit i = (entry.testBit i && (decide (12 ≤ i) && decide (i < 52))) := by
  rw [physOf, testBit_and, testBit_physMask]

theorem testBit_hwFlags (flags i : Nat) : (hwFlags flags).testBit i =
    (flags.testBit i && (decide (i < 12) && decide (i ≠ 7) || decide (i = 63))) := by
  rw [hwFlags, testBit_and, testBit_hwFlag]

theorem testBit_without (entry mask i : Nat) :
    (without entry mask).testBit i = (entry.testBit i && (decide (i < 64) ^^ mask.testBit i)) := by
  rw [without, testBit_and, testBit_xor, testBit_two_pow_sub_one]

theorem testBit_two_pow_eq (k i : Nat) : (2 ^ k).testBit i = decide (k = i) := by
  rw [testBit_two_pow]

theorem not_phys {i : Nat} (outside : ¬ (12 ≤ i ∧ i < 52)) : (decide (12 ≤ i) && decide (i < 52)) = false := by
  simpa using outside

theorem physOf_idem : physOf (physOf entry) = physOf entry := by
  apply eq_of_testBit_eq
  intro i
  simp only [testBit_physOf, Bool.and_assoc, Bool.and_self]

theorem physOf_lt : physOf entry < 2 ^ 52 := by
  refine lt_of_le_of_lt and_le_right ?_
  decide

theorem physOf_eq : physOf entry = entry / 2 ^ 12 % 2 ^ 40 * 2 ^ 12 := by
  apply eq_of_testBit_eq
  intro i
  rw [testBit_physOf, mul_comm, testBit_two_pow_mul, testBit_mod_two_pow,
    testBit_div_two_pow]
  by_cases low : 12 ≤ i
  · rw [show i - 12 + 12 = i by omega]
    simp only [low, decide_true, Bool.true_and]
    rw [Bool.and_comm]
    congr 1
    simp only [decide_eq_decide]
    omega
  · simp [low]

variable {phys k : Nat}

theorem physOf_of_aligned (small : phys < 2 ^ 52) (aligned : phys % 2 ^ 12 = 0) : physOf phys = phys := by
  rw [physOf_eq]
  omega

theorem physOf_aligned : physOf entry % 2 ^ 12 = 0 := by
  rw [physOf_eq, mul_mod_left]

section

variable (phys flags : Nat)

/-- The entry a 4 KB mapping writes. -/
def leafEntry : Nat := physOf phys ||| hwFlags flags

theorem testBit_leafEntry (i : Nat) : (leafEntry phys flags).testBit i =
    (phys.testBit i && (decide (12 ≤ i) && decide (i < 52)) ||
      flags.testBit i && (decide (i < 12) && decide (i ≠ 7) || decide (i = 63))) := by
  rw [leafEntry, testBit_or, testBit_physOf, testBit_hwFlags]

@[simp] theorem physOf_leafEntry : physOf (leafEntry phys flags) = physOf phys := by
  apply eq_of_testBit_eq
  intro i
  rw [testBit_physOf, testBit_leafEntry, testBit_physOf]
  by_cases inside : 12 ≤ i ∧ i < 52
  · have notFlag : ¬ (i < 12) ∧ i ≠ 63 := by omega
    simp [inside, notFlag]
  · simp [not_phys inside]

theorem flag_leafEntry (flag : k < 12 ∧ k ≠ 7 ∨ k = 63) : (leafEntry phys flags).testBit k = flags.testBit k := by
  rw [testBit_leafEntry]
  obtain ⟨low, notHuge⟩ | rfl := flag
  · have notPhys : ¬ (12 ≤ k) := by omega
    simp [notPhys, low, notHuge]
  · simp

@[simp] theorem present_leafEntry : present (leafEntry phys flags) = present flags :=
  flag_leafEntry phys flags (.inl ⟨by decide, by decide⟩)

@[simp] theorem writable_leafEntry : writable (leafEntry phys flags) = writable flags :=
  flag_leafEntry phys flags (.inl ⟨by decide, by decide⟩)

@[simp] theorem user_leafEntry : user (leafEntry phys flags) = user flags :=
  flag_leafEntry phys flags (.inl ⟨by decide, by decide⟩)

@[simp] theorem cow_leafEntry : cow (leafEntry phys flags) = cow flags :=
  flag_leafEntry phys flags (.inl ⟨by decide, by decide⟩)

@[simp] theorem huge_leafEntry : huge (leafEntry phys flags) = false := by
  rw [huge, testBit_leafEntry]
  simp

/-! ### Splitting a huge entry -/

/-- The flags of an entry, with the huge and the software bits: `entry & ~PAGE_PHYS_MASK`. -/
def flagsOf : Nat := without entry pagePhysMask

/-- A page address: what the mask keeps. -/
def PageAddress : Prop := phys % 2 ^ 12 = 0 ∧ phys < 2 ^ 52

end

theorem PageAddress.physOf_eq (page : PageAddress phys) : physOf phys = phys :=
  physOf_of_aligned page.2 page.1

theorem pageAddress_physOf : PageAddress (physOf entry) :=
  ⟨physOf_aligned entry, physOf_lt entry⟩

theorem PageAddress.testBit (page : PageAddress phys) (i : Nat) :
    phys.testBit i = (phys.testBit i && (decide (12 ≤ i) && decide (i < 52))) := by
  have same := testBit_physOf phys i
  rwa [page.physOf_eq] at same

theorem testBit_flagsOf (entry i : Nat) : (flagsOf entry).testBit i =
    (entry.testBit i && (decide (i < 64) ^^ (decide (12 ≤ i) && decide (i < 52)))) := by
  rw [flagsOf, testBit_without, testBit_physMask]

/-- The 4 KB entry for one page of a huge one. -/
def splitEntry (entry phys : Nat) : Nat := without (phys ||| flagsOf entry) pageHuge

section

variable (page : PageAddress phys)

include page

theorem testBit_splitEntry (entry i : Nat) : (splitEntry entry phys).testBit i =
      (phys.testBit i || entry.testBit i &&
        (decide (i < 64) && !(decide (12 ≤ i) && decide (i < 52)) && decide (i ≠ 7))) := by
  rw [splitEntry, testBit_without, testBit_or, testBit_flagsOf, page.testBit i, pageHuge,
    testBit_two_pow_eq]
  by_cases inPhys : 12 ≤ i ∧ i < 52
  · have wide : i < 64 := by omega
    have notHuge : (7 : Nat) ≠ i := by omega
    simp [inPhys, wide, notHuge]
  · have outside := not_phys inPhys
    by_cases wide : i < 64
    · by_cases isHuge : (7 : Nat) = i
      · simp [← isHuge]
      · simp [outside, wide, isHuge, Ne.symm isHuge]
    · have notHuge : (7 : Nat) ≠ i := by omega
      simp [outside, wide, notHuge]

theorem physOf_splitEntry (entry : Nat) : physOf (splitEntry entry phys) = phys := by
  apply eq_of_testBit_eq
  intro i
  rw [testBit_physOf, testBit_splitEntry page, page.testBit i]
  by_cases inPhys : 12 ≤ i ∧ i < 52
  · simp [inPhys]
  · simp [not_phys inPhys]

theorem flag_splitEntry (entry : Nat)
    (flag : k < 12 ∧ k ≠ 7 ∨ k = 63) : (splitEntry entry phys).testBit k = entry.testBit k := by
  rw [testBit_splitEntry page, page.testBit k]
  obtain ⟨low, notHuge⟩ | rfl := flag
  · have notPhys : ¬ (12 ≤ k) := by omega
    have wide : k < 64 := by omega
    simp [notPhys, notHuge, wide]
  · simp

theorem huge_splitEntry (entry : Nat) : huge (splitEntry entry phys) = false := by
  rw [huge, testBit_splitEntry page, page.testBit 7]
  simp

end

theorem splitEntry_huge {page : Nat} (isPage : PageAddress page) (phys flags : Nat) :
    splitEntry (leafEntry phys flags ||| pageHuge) page = leafEntry page flags := by
  apply eq_of_testBit_eq
  intro i
  rw [testBit_splitEntry isPage, testBit_leafEntry, testBit_or, testBit_leafEntry, pageHuge,
    testBit_two_pow_eq, isPage.testBit i]
  by_cases inPhys : 12 ≤ i ∧ i < 52
  · have notFlag : ¬ (i < 12) ∧ i ≠ 63 := by omega
    simp [inPhys, notFlag]
  · have outside := not_phys inPhys
    by_cases isHuge : (7 : Nat) = i
    · simp [← isHuge]
    · by_cases wide : i < 64
      · simp [outside, wide, isHuge, Ne.symm isHuge]
      · have notFlag : ¬ (i < 12) ∧ i ≠ 63 := by omega
        simp [outside, wide, notFlag]

theorem physOf_or_flagsOf (page : PageAddress phys) (entry : Nat) : physOf (phys ||| flagsOf entry) = phys := by
  apply eq_of_testBit_eq
  intro i
  rw [testBit_physOf, testBit_or, testBit_flagsOf, page.testBit i]
  by_cases inPhys : 12 ≤ i ∧ i < 52
  · have wide : i < 64 := by omega
    simp [inPhys, wide]
  · simp [not_phys inPhys]

theorem flagsOf_or_flagsOf (page : PageAddress phys) (entry : Nat) :
    flagsOf (phys ||| flagsOf entry) = flagsOf entry := by
  apply eq_of_testBit_eq
  intro i
  rw [testBit_flagsOf, testBit_or, testBit_flagsOf, page.testBit i]
  by_cases inPhys : 12 ≤ i ∧ i < 52
  · have wide : i < 64 := by omega
    simp [inPhys, wide]
  · simp [not_phys inPhys]

theorem flag_or_flagsOf (page : PageAddress phys) (entry : Nat)
    (flag : k < 12 ∨ k = 63) : (phys ||| flagsOf entry).testBit k = entry.testBit k := by
  rw [testBit_or, testBit_flagsOf, page.testBit k]
  obtain low | rfl := flag
  · have notPhys : ¬ (12 ≤ k) := by omega
    have wide : k < 64 := by omega
    simp [notPhys, wide]
  · simp

end Voxia.Cpu
