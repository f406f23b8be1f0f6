/-
**The physical page allocator (`kernel/memory/phys_base_allocator.c`).**

One bit per physical page, set while the page is not free. The bitmap is a byte array: the initialiser fills it byte
by byte, `phys_base_alloc` scans it by 64-bit words (a full word is skipped in one step) and then bit by bit, and
marking and freeing go bit by bit again. Every byte-level operation is described by what it does to `bitUsed`.
-/

import Voxia.Machine
import Voxia.Lib.BitWords
import Voxia.Lib.FirstFit
import Mathlib.Tactic.IntervalCases

namespace Voxia.Memory

open Lib

/-! ### The bitmap -/

/-- `bitmap_base_`: the bytes of the bitmap by index. -/
abbrev PhysBitmap := Nat → BitVec 8

/-- `(bitmap_base_[i / 8] >> (i % 8)) & 1`. -/
def bitUsed (bitmap : PhysBitmap) (i : Nat) : Bool :=
  (bitmap (i / 8) >>> (i % 8)) &&& 1#8 != 0#8

/-- The marking loop of `phys_base_alloc`: `bitmap_base_[j / 8] |= (1 << (j % 8))`. -/
def setBits (bitmap : PhysBitmap) (j count : Nat) : PhysBitmap := orRange bitmap j count

/-- The clearing loop of `vxPhysBaseFree` and of the initialiser:
`bitmap_base_[j / 8] &= ~(1 << (j % 8))`. -/
def clearBits (bitmap : PhysBitmap) (j count : Nat) : PhysBitmap := andNotRange bitmap j count

/-- `*(uint64_t*)&bitmap_base_[word * 8]`: eight bytes, the lowest first. -/
def word64 (bitmap : PhysBitmap) (word : Nat) : BitVec 64 :=
  bitmap (word * 8 + 7) ++ bitmap (word * 8 + 6) ++ bitmap (word * 8 + 5) ++ bitmap (word * 8 + 4)
    ++ bitmap (word * 8 + 3) ++ bitmap (word * 8 + 2) ++ bitmap (word * 8 + 1) ++ bitmap (word * 8)

section

variable (bitmap : PhysBitmap)

include bitmap

theorem bitUsed_eq_bitAt : bitUsed bitmap = bitAt bitmap := by
  have masked : ∀ byte : BitVec 8, (byte &&& 1#8 != 0#8) = byte.getLsbD 0 := by decide
  funext i
  rw [bitUsed, masked, BitVec.getLsbD_ushiftRight, Nat.add_zero]
  rfl

theorem bitUsed_eq (i : Nat) : bitUsed bitmap i = (bitmap (i / 8)).getLsbD (i % 8) :=
  congrFun (bitUsed_eq_bitAt bitmap) i

/-- Marking a span sets its bits. -/
theorem bitUsed_setBits (j count : Nat) : bitUsed (setBits bitmap j count) = fill (bitUsed bitmap) ⟨j, count⟩ true := by
  rw [bitUsed_eq_bitAt, bitUsed_eq_bitAt]
  exact bitAt_orRange (by decide) bitmap j count

/-- Freeing a span clears its bits. -/
theorem bitUsed_clearBits (j count : Nat) :
    bitUsed (clearBits bitmap j count) = fill (bitUsed bitmap) ⟨j, count⟩ false := by
  rw [bitUsed_eq_bitAt, bitUsed_eq_bitAt]
  exact bitAt_andNotRange (by decide) bitmap j count

/-- The bits of a word are those of its bytes. -/
theorem word64_getLsbD (word k : Nat) (inWord : k < 64) :
    (word64 bitmap word).getLsbD k = bitUsed bitmap (64 * word + k) := by
  have byte : (64 * word + k) / 8 = word * 8 + k / 8 := by omega
  have position : (64 * word + k) % 8 = k % 8 := by omega
  rw [bitUsed_eq, byte, position, word64]
  simp only [BitVec.getLsbD_append]
  have split : k = k / 8 * 8 + k % 8 := by omega
  have inByte : k % 8 < 8 := Nat.mod_lt _ (by decide)
  have small : k / 8 < 8 := by omega
  generalize k % 8 = offset at split inByte
  generalize k / 8 = index at split small
  subst split
  interval_cases index <;> simp +arith [inByte]

end

/-! ### Allocation and release -/

/-- The allocator's globals: `higher_base_length_` and the bitmap. -/
structure PhysBase where
  higherBaseLength : Nat
  bitmap : PhysBitmap

variable (phys : PhysBase)

def PhysBase.totalBlocks : Nat := phys.higherBaseLength / blockSize

/-- The local variables of the search in `phys_base_alloc`. -/
structure PhysScan where
  i : Nat
  consecutive : Nat
  start : Nat

/-- The inner loop of the search, over the `rest` bits left of one word. `.inr` is the start of a
run that is long enough. -/
def physScanBits (bitmap : PhysBitmap) (total block : Nat) : Nat → PhysScan → PhysScan ⊕ Nat
  | 0, scan => .inl scan
  | rest + 1, scan =>
    if scan.i < total then
      if bitUsed bitmap scan.i then
        physScanBits bitmap total block rest ⟨scan.i + 1, 0, scan.start⟩
      else
        let start := if scan.consecutive = 0 then scan.i else scan.start
        if scan.consecutive + 1 = block then .inr start
        else physScanBits bitmap total block rest ⟨scan.i + 1, scan.consecutive + 1, start⟩
    else .inl scan

/-- The outer loop of the search, one word at a time. -/
def physScan (bitmap : PhysBitmap) (total block : Nat) : Nat → PhysScan → Option Nat
  | 0, _ => none
  | fuel + 1, scan =>
    if scan.i < total then
      let bitIdx := scan.i % 64
      let word := word64 bitmap (scan.i / 64) >>> bitIdx
      if bitIdx = 0 ∧ word = BitVec.allOnes 64 then
        physScan bitmap total block fuel ⟨scan.i + 64, 0, scan.start⟩
      else if word = BitVec.allOnes 64 then
        physScan bitmap total block fuel ⟨scan.i + (64 - bitIdx), 0, scan.start⟩
      else
        match physScanBits bitmap total block (64 - bitIdx) scan with
        | .inr start => some start
        | .inl next => physScan bitmap total block fuel next
    else none

/-- `phys_base_alloc(block)`: the returned address, `0` for `NULL`, and the new state. Every pass of
the outer loop moves on, so `total + 1` passes are enough (`physScan_spec`). -/
def physBaseAlloc (block : Nat) : Nat × PhysBase :=
  match physScan phys.bitmap phys.totalBlocks block (phys.totalBlocks + 1) ⟨0, 0, 0⟩ with
  | some start =>
    (start * blockSize, { phys with bitmap := setBits phys.bitmap start block })
  | none => (0, phys)

def vxPhysBaseFree (ptr size : Nat) : PhysBase :=
  { phys with bitmap := clearBits phys.bitmap (ptr / blockSize) size }

def countFree (bitmap : PhysBitmap) : Nat → Nat
  | 0 => 0
  | i + 1 => countFree bitmap i + if bitmap (i / 8) &&& 1#8 <<< (i % 8) = 0#8 then 1 else 0

def pysBaseGetFreeBlockCount : Nat := countFree phys.bitmap phys.totalBlocks

theorem countFree_eq (bitmap : PhysBitmap) (total : Nat) :
    countFree bitmap total = clearBelow (bitUsed bitmap) total := by
  induction total with
  | zero => rfl
  | succ i ih =>
    rw [countFree, ih, clearBelow, clearBelow, Nat.count_succ, bitUsed_eq]
    simp only [and_mask_eq_zero (bitmap (i / 8)) (Nat.mod_lt i (by decide : 0 < 8))]

/-! ### The search is first fit -/

variable {bitmap : PhysBitmap} {block : Nat}

/-- A word of ones, shifted down: the bits from `i` to the end of its word are all set. -/
theorem full_of_word {i : Nat} (ones : word64 bitmap (i / 64) >>> (i % 64) = BitVec.allOnes 64) {j : Nat}
    (above : i ≤ j) (below : j < i + (64 - i % 64)) : bitUsed bitmap j := by
  have bit := congrArg (fun word => word.getLsbD (j - i)) ones
  simp only [BitVec.getLsbD_ushiftRight, BitVec.getLsbD_allOnes] at bit
  rw [word64_getLsbD _ _ _ (by omega), show 64 * (i / 64) + (i % 64 + (j - i)) = j by omega] at bit
  rw [bit]
  exact decide_eq_true (by omega)

/-- What a search may end with: the first run of `block` clear bits, or the knowledge that there is
none. -/
def SearchResult (bitmap : PhysBitmap) (total block : Nat) : Option Nat → Prop
  | some start => FirstRun (bitUsed bitmap) block total start
  | none => NoRun (bitUsed bitmap) block total

def WordResult (bitmap : PhysBitmap) (total block stop : Nat) : PhysScan ⊕ Nat → Prop
  | .inr start => FirstRun (bitUsed bitmap) block total start
  | .inl next => Scan (bitUsed bitmap) block next.i next.consecutive next.start ∧
      min stop total ≤ next.i

theorem physScanBits_spec (total : Nat) (rest : Nat) (scan : PhysScan)
    (known : Scan (bitUsed bitmap) block scan.i scan.consecutive scan.start) :
    WordResult bitmap total block (scan.i + rest)
      (physScanBits bitmap total block rest scan) := by
  induction rest generalizing scan with
  | zero => exact ⟨known, min_le_left _ _⟩
  | succ rest ih =>
    rw [physScanBits, show scan.i + (rest + 1) = scan.i + 1 + rest by omega]
    by_cases inside : scan.i < total
    · rw [if_pos inside]
      by_cases used : bitUsed bitmap scan.i
      · rw [if_pos used]
        exact ih ⟨scan.i + 1, 0, scan.start⟩ (known.marked used)
      · rw [if_neg used]
        have unused : bitUsed bitmap scan.i = false := by simpa using used
        by_cases long : scan.consecutive + 1 = block
        · simp only [if_pos long]
          exact known.found unused long inside
        · simp only [if_neg long]
          exact ih ⟨scan.i + 1, scan.consecutive + 1, _⟩ (known.clear unused long)
    · rw [if_neg inside]
      exact ⟨known, by omega⟩

/-- **The word-wise search is first fit.** Every pass moves to a later word or past the end, so the
fuel never decides the result. -/
theorem physScan_spec (total : Nat) (fuel : Nat) (scan : PhysScan)
    (known : Scan (bitUsed bitmap) block scan.i scan.consecutive scan.start) (enough : total < scan.i + fuel) :
    SearchResult bitmap total block (physScan bitmap total block fuel scan) := by
  induction fuel generalizing scan with
  | zero => exact known.noRun (by omega)
  | succ fuel ih =>
    rw [physScan]
    by_cases inside : scan.i < total
    · simp only [if_pos inside]
      split_ifs with fullFirst full
      · refine ih ⟨scan.i + 64, 0, scan.start⟩ (known.skip (by simp) ?_ _) (by simp; omega)
        intro j above below
        exact full_of_word fullFirst.2 above (by simp only at below; omega)
      · refine ih ⟨scan.i + (64 - scan.i % 64), 0, scan.start⟩ (known.skip ?_ ?_ _) ?_
        · simp only; omega
        · intro j above below
          exact full_of_word full above below
        · simp only; omega
      · have word := physScanBits_spec total (64 - scan.i % 64) scan known
        split
        · next start found =>
          rw [found] at word
          exact word
        · next next moved =>
          rw [moved] at word
          exact ih next word.1 (by have := word.2; omega)
    · rw [if_neg inside]
      exact known.noRun (by omega)

/-- **`phys_base_alloc` on a positive request**: nothing changes and the result is `NULL`, because no
run of clear bits is long enough; or the first such run is marked, and the result is its address. -/
theorem physBaseAlloc_spec (positive : 0 < block) :
    (physBaseAlloc phys block = (0, phys) ∧ NoRun (bitUsed phys.bitmap) block phys.totalBlocks) ∨
      ∃ start, FirstRun (bitUsed phys.bitmap) block phys.totalBlocks start ∧
        physBaseAlloc phys block =
          (start * blockSize, { phys with bitmap := setBits phys.bitmap start block }) := by
  have known : Scan (bitUsed phys.bitmap) block 0 0 0 := Scan.init positive 0
  have search := physScan_spec phys.totalBlocks (phys.totalBlocks + 1) ⟨0, 0, 0⟩ known (by simp)
  unfold physBaseAlloc
  split
  · next start found =>
    rw [found] at search
    exact .inr ⟨start, search, rfl⟩
  · next missing =>
    rw [missing] at search
    exact .inl ⟨rfl, search⟩

/-! ### Where the result is the first fit -/

/-- **Exact first fit**: `NULL` means that there is no run, and then nothing changes; if there is one, the
result is the address of the first run, and its bits are the ones that get set. -/
structure ExactFirstFit (phys : PhysBase) (block : Nat) : Prop where
  null_iff : (physBaseAlloc phys block).1 = 0 ↔ NoRun (bitUsed phys.bitmap) block phys.totalBlocks
  unchanged : NoRun (bitUsed phys.bitmap) block phys.totalBlocks → (physBaseAlloc phys block).2 = phys
  first : ∀ start, FirstRun (bitUsed phys.bitmap) block phys.totalBlocks start →
    (physBaseAlloc phys block).1 = start * blockSize ∧
    (physBaseAlloc phys block).2.higherBaseLength = phys.higherBaseLength ∧
    bitUsed (physBaseAlloc phys block).2.bitmap = fill (bitUsed phys.bitmap) ⟨start, block⟩ true

/-- A run at page 0: its address is `NULL`. -/
def RunAtZero (block : Nat) : Prop :=
  block ≤ phys.totalBlocks ∧ ∀ j < block, bitUsed phys.bitmap j = false

theorem firstRun_zero {phys : PhysBase} (run : RunAtZero phys block) :
    FirstRun (bitUsed phys.bitmap) block phys.totalBlocks 0 where
  within := by have := run.1; omega
  clear j _ below := run.2 j (by omega)
  least other before := absurd before (Nat.not_lt_zero other)

/-- **`phys_base_alloc` is exact first fit unless the first pages are free**: then it marks them, and what
it returns is `NULL`. -/
theorem physBaseAlloc_exact_iff (phys : PhysBase) {block : Nat} (positive : 0 < block) :
    ExactFirstFit phys block ↔ ¬ RunAtZero phys block := by
  constructor
  · intro exact run
    have null := (exact.first 0 (firstRun_zero run)).1
    exact (firstRun_zero run).not_noRun (exact.null_iff.mp null)
  · intro later
    rcases physBaseAlloc_spec phys positive with ⟨result, none⟩ | ⟨start, run, result⟩
    · exact ⟨by simp [result, none], fun _ => by rw [result], fun start run => absurd none run.not_noRun⟩
    · have behind : start ≠ 0 := by
        rintro rfl
        exact later ⟨by have := run.within; omega, fun j below => run.clear j (Nat.zero_le _) (by omega)⟩
      refine ⟨⟨fun null => ?_, fun none => absurd none run.not_noRun⟩, fun none => absurd none run.not_noRun,
        fun other run' => ?_⟩
      · rw [result, blockSize] at null
        exact absurd null (by simp [behind])
      · rw [run.unique run', result]
        exact ⟨rfl, rfl, bitUsed_setBits phys.bitmap start block⟩

/-- Page 0 in use, the rest free: the first fit is page 1. -/
theorem physBaseAlloc_exact_zeroUsed : ExactFirstFit ⟨0x4000, fun byte => if byte = 0 then 1#8 else 0#8⟩ 2 :=
  (physBaseAlloc_exact_iff _ (by decide)).mpr fun run => absurd (run.2 0 (by decide)) (by decide)

/-- Page 0 free: a page is taken and `NULL` is returned. -/
theorem physBaseAlloc_null_taken : ¬ ExactFirstFit ⟨0x4000, fun _ => 0#8⟩ 1 := by
  intro exact
  have null : (physBaseAlloc ⟨0x4000, fun _ => 0#8⟩ 1).1 = 0 := by decide
  obtain ⟨j, -, below, used⟩ := exact.null_iff.mp null 0 (by decide)
  obtain rfl : j = 0 := by omega
  exact absurd used (by decide)

end Voxia.Memory
