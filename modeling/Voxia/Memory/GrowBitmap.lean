/-
**The growing bitmap of virtual pages (`kernel/libk/grow_bitmap.h`).**

A window of virtual addresses is managed in blocks of `32768` pages. Each active block has one frame that holds its
bits as 512 words of 64 bits. `grow_bitmap_alloc_pages` searches the active blocks one after the other, each with its
own run counter; when no block has room it doubles the number of active blocks and takes the pages from the front of
the first new one. `frames i` is what the `i`-th `phys_base_alloc(1)` of one operation returns.
-/

import Voxia.Machine
import Voxia.Lib.BitWords
import Voxia.Lib.FirstFit

namespace Voxia.Memory

open Function Lib

def growBitmapBlockPages : Nat := 32768

def growBitmapWordsPerBlock : Nat := growBitmapBlockPages / 64

def growBitmapAbsoluteMaxBlocks : Nat := 256

abbrev FrameWords := Nat → BitVec 64

/-- `grow_bitmap_t`, together with the physical memory its frames live in, by frame address. -/
structure GrowBitmap where
  baseVaddr : Nat
  pageSize : Nat
  blocksPhys : Nat → Nat
  activeBlocks : Nat
  maxBlocks : Nat
  memory : Nat → FrameWords

variable (gb : GrowBitmap) (bitmap : FrameWords)

/-- `(bitmap[i / 64] & (1ULL << (i % 64))) != 0`. -/
def wordBit (i : Nat) : Bool :=
  bitmap (i / 64) &&& 1#64 <<< (i % 64) != 0#64

variable (j count : Nat)

/-- `bitmap[j / 64] |= (1ULL << (j % 64))`, for `count` bits from `j` on. -/
def markBits : FrameWords := orRange bitmap j count

/-- `bitmap[j / 64] &= ~(1ULL << (j % 64))`, for `count` bits from `j` on. -/
def unmarkBits : FrameWords := andNotRange bitmap j count

def zeroWords : FrameWords :=
  fun i => if i < growBitmapWordsPerBlock then 0 else bitmap i

/-- The limit on the blocks for a capacity in megabytes, as `grow_bitmap_init` computes it. -/
def maxBlocksFor (maxCapacityMb : Nat) : Nat :=
  let blocks := u64 (maxCapacityMb + 127) / 128
  let blocks := if blocks = 0 then 1 else blocks
  if growBitmapAbsoluteMaxBlocks < blocks then growBitmapAbsoluteMaxBlocks else blocks

/-- `grow_bitmap_init`, with `frame` the result of its `phys_base_alloc(1)`. -/
def growBitmapInit (memory : Nat → FrameWords) (baseVaddr pageSize maxCapacityMb frame : Nat) :
    GrowBitmap where
  baseVaddr := baseVaddr
  pageSize := pageSize
  blocksPhys := fun i => if i = 0 then frame else 0
  activeBlocks := 1
  maxBlocks := maxBlocksFor maxCapacityMb
  memory := update memory frame (zeroWords (memory frame))

/-! ### The search -/

/-- The innermost loop, over the bits `bit`, `bit + 1`, ... of word `i`, `rest` of them. `.inr` is
the first bit of a run that is long enough, `.inl` the run counter and its start. -/
def scanWordBits (word : BitVec 64) (i pageCount : Nat) : Nat → Nat → Nat × Nat → Nat × Nat ⊕ Nat
  | 0, _, run => .inl run
  | rest + 1, bit, (consecutive, startBit) =>
    if word &&& 1#64 <<< bit = 0#64 then
      let startBit := if consecutive = 0 then i * 64 + bit else startBit
      if consecutive + 1 = pageCount then .inr startBit
      else scanWordBits word i pageCount rest (bit + 1) (consecutive + 1, startBit)
    else scanWordBits word i pageCount rest (bit + 1) (0, startBit)

/-- The loop over the words `i`, `i + 1`, ... of one block, `rest` of them. -/
def scanWords (bitmap : FrameWords) (pageCount : Nat) : Nat → Nat → Nat × Nat → Option Nat
  | 0, _, _ => none
  | rest + 1, i, run =>
    if bitmap i = BitVec.allOnes 64 then scanWords bitmap pageCount rest (i + 1) (0, run.2)
    else
      match scanWordBits (bitmap i) i pageCount 64 0 run with
      | .inr startBit => some startBit
      | .inl run => scanWords bitmap pageCount rest (i + 1) run

/-- The loop over the active blocks `b`, `b + 1`, ..., `rest` of them. -/
def scanBlocks (gb : GrowBitmap) (pageCount : Nat) : Nat → Nat → Option (Nat × Nat)
  | 0, _ => none
  | rest + 1, b =>
    match scanWords (gb.memory (gb.blocksPhys b)) pageCount growBitmapWordsPerBlock 0 (0, 0) with
    | some startBit => some (b, startBit)
    | none => scanBlocks gb pageCount rest (b + 1)

/-- One more active block, whose frame `phys` holds `bitmap`. -/
def addBlock (phys : Nat) (bitmap : FrameWords) : GrowBitmap :=
  { gb with
    activeBlocks := gb.activeBlocks + 1
    blocksPhys := update gb.blocksPhys gb.activeBlocks phys
    memory := update gb.memory phys bitmap }

/-- The loop that adds blocks: `i` counts those added so far, and the first one receives the
allocation. -/
def growBlocks (pageCount : Nat) (frames : Nat → Nat) : Nat → Nat → GrowBitmap → GrowBitmap
  | 0, _, gb => gb
  | rest + 1, i, gb =>
    let bitmap := zeroWords (gb.memory (frames i))
    let bitmap := if i = 0 then markBits bitmap 0 pageCount else bitmap
    growBlocks pageCount frames rest (i + 1) (addBlock gb (frames i) bitmap)

/-- The number of blocks one growth adds: as many as there are, up to the limit. -/
def blocksToAdd : Nat :=
  if gb.maxBlocks < gb.activeBlocks + gb.activeBlocks then gb.maxBlocks - gb.activeBlocks
  else gb.activeBlocks

def GrowBitmap.address (index : Nat) : Nat :=
  u64 (gb.baseVaddr + index * gb.pageSize)

def growBitmapAllocPages (pageCount : Nat) (frames : Nat → Nat) : Nat × GrowBitmap :=
  if pageCount = 0 ∨ growBitmapBlockPages < pageCount then (0, gb)
  else
    match scanBlocks gb pageCount gb.activeBlocks 0 with
    | some (b, startBit) =>
      (gb.address (b * growBitmapBlockPages + startBit),
        { gb with
          memory := update gb.memory (gb.blocksPhys b)
            (markBits (gb.memory (gb.blocksPhys b)) startBit pageCount) })
    | none =>
      if gb.activeBlocks < gb.maxBlocks then
        (gb.address (gb.activeBlocks * growBitmapBlockPages),
          growBlocks pageCount frames (blocksToAdd gb) 0 gb)
      else (0, gb)

def growBitmapFreePages (vaddr pageCount : Nat) : GrowBitmap :=
  if vaddr < gb.baseVaddr then gb
  else
    let totalPageIdx := (vaddr - gb.baseVaddr) / gb.pageSize
    let blockIdx := totalPageIdx / growBitmapBlockPages
    let bitIdx := totalPageIdx % growBitmapBlockPages
    if gb.activeBlocks ≤ blockIdx ∨ gb.blocksPhys blockIdx = 0 then gb
    else
      let phys := gb.blocksPhys blockIdx
      { gb with
        memory := update gb.memory phys (unmarkBits (gb.memory phys) bitIdx pageCount) }

/-! ### What the bit loops do -/

theorem wordBit_eq_bitAt : wordBit bitmap = bitAt bitmap := by
  funext i
  have masked := and_mask_eq_zero (bitmap (i / 64)) (Nat.mod_lt i (by decide : 0 < 64))
  rw [wordBit, bitAt]
  by_cases set : (bitmap (i / 64)).getLsbD (i % 64) = false
  · rw [set, bne_eq_false_iff_eq]
    exact masked.mpr set
  · rw [Bool.eq_true_of_not_eq_false set, bne_iff_ne]
    exact fun zero => set (masked.mp zero)

theorem wordBit_eq (i : Nat) : wordBit bitmap i = (bitmap (i / 64)).getLsbD (i % 64) :=
  congrFun (wordBit_eq_bitAt bitmap) i

/-- What the loop that marks does to a bit. -/
theorem wordBit_markBits : wordBit (markBits bitmap j count) = fill (wordBit bitmap) ⟨j, count⟩ true := by
  rw [wordBit_eq_bitAt, wordBit_eq_bitAt]
  exact bitAt_orRange (by decide) bitmap j count

/-- What the loop that clears does to a bit. -/
theorem wordBit_unmarkBits : wordBit (unmarkBits bitmap j count) = fill (wordBit bitmap) ⟨j, count⟩ false := by
  rw [wordBit_eq_bitAt, wordBit_eq_bitAt]
  exact bitAt_andNotRange (by decide) bitmap j count

theorem wordBit_zeroWords {i : Nat} (inBlock : i < growBitmapBlockPages) : wordBit (zeroWords bitmap) i = false := by
  have word : i / 64 < growBitmapWordsPerBlock := by
    unfold growBitmapWordsPerBlock growBitmapBlockPages at *
    omega
  rw [wordBit_eq, zeroWords, if_pos word]
  exact BitVec.getLsbD_zero

/-! ### The search is first fit, block by block -/

/-- What the loop over one word leaves, in terms of the bits of the block. -/
def WordScan (pageCount next : Nat) : Nat × Nat ⊕ Nat → Prop
  | .inr startBit => FirstRun (wordBit bitmap) pageCount growBitmapBlockPages startBit
  | .inl run => Scan (wordBit bitmap) pageCount next run.1 run.2

variable {pageCount : Nat}

theorem scanWordBits_spec (i : Nat) (inBlock : i < growBitmapWordsPerBlock) (rest bit : Nat) (run : Nat × Nat)
    (inWord : bit + rest = 64) (known : Scan (wordBit bitmap) pageCount (i * 64 + bit) run.1 run.2) :
    WordScan bitmap pageCount ((i + 1) * 64)
      (scanWordBits (bitmap i) i pageCount rest bit run) := by
  induction rest generalizing bit run with
  | zero =>
    rw [show (i + 1) * 64 = i * 64 + bit by omega]
    exact known
  | succ rest ih =>
    obtain ⟨consecutive, startBit⟩ := run
    have inside : i * 64 + bit < growBitmapBlockPages := by
      unfold growBitmapWordsPerBlock growBitmapBlockPages at *
      omega
    have bitEq : wordBit bitmap (i * 64 + bit) = (bitmap i).getLsbD bit := by
      rw [wordBit_eq, show (i * 64 + bit) / 64 = i by omega, show (i * 64 + bit) % 64 = bit by omega]
    rw [scanWordBits]
    by_cases clear : bitmap i &&& 1#64 <<< bit = 0#64
    · have unused : wordBit bitmap (i * 64 + bit) = false := by
        rw [bitEq]
        exact (and_mask_eq_zero _ (by omega)).mp clear
      simp only [if_pos clear]
      by_cases long : consecutive + 1 = pageCount
      · rw [if_pos long]
        exact known.found unused long inside
      · rw [if_neg long]
        exact ih (bit + 1) _ (by omega) (known.clear unused long)
    · have used : wordBit bitmap (i * 64 + bit) := by
        rw [bitEq]
        by_contra unset
        exact clear ((and_mask_eq_zero _ (by omega)).mpr (by simpa using unset))
      simp only [if_neg clear]
      exact ih (bit + 1) (0, startBit) (by omega) (known.marked used)

def BlockScan (pageCount : Nat) : Option Nat → Prop
  | some startBit => FirstRun (wordBit bitmap) pageCount growBitmapBlockPages startBit
  | none => NoRun (wordBit bitmap) pageCount growBitmapBlockPages

theorem scanWords_spec (rest i : Nat) (run : Nat × Nat) (inBlock : i + rest = growBitmapWordsPerBlock)
    (known : Scan (wordBit bitmap) pageCount (i * 64) run.1 run.2) :
    BlockScan bitmap pageCount (scanWords bitmap pageCount rest i run) := by
  induction rest generalizing i run with
  | zero =>
    refine known.noRun ?_
    unfold growBitmapWordsPerBlock growBitmapBlockPages at *
    omega
  | succ rest ih =>
    rw [scanWords]
    by_cases full : bitmap i = BitVec.allOnes 64
    · rw [if_pos full]
      refine ih (i + 1) (0, run.2) (by omega) (known.skip (by omega) (fun j above below => ?_) _)
      rw [wordBit_eq, show j / 64 = i by omega, full, BitVec.getLsbD_allOnes]
      exact decide_eq_true (Nat.mod_lt _ (by decide))
    · rw [if_neg full]
      have here : i < growBitmapWordsPerBlock := by omega
      have word := scanWordBits_spec bitmap i here 64 0 run rfl known
      split
      · next startBit found =>
        rw [found] at word
        exact word
      · next run' moved =>
        rw [moved] at word
        exact ih (i + 1) run' (by omega) word

def GrowBitmap.blockBits (b : Nat) : Nat → Bool :=
  wordBit (gb.memory (gb.blocksPhys b))

def BlocksScan (pageCount b : Nat) : Option (Nat × Nat) → Prop
  | some (block, startBit) => b ≤ block ∧ block < gb.activeBlocks ∧
      FirstRun (gb.blockBits block) pageCount growBitmapBlockPages startBit
  | none => ∀ block, b ≤ block → block < gb.activeBlocks →
      NoRun (gb.blockBits block) pageCount growBitmapBlockPages

/-- The search finds the first run of the first block that has one, or no active block has one. -/
theorem scanBlocks_spec (positive : 0 < pageCount) (rest b : Nat) (active : b + rest = gb.activeBlocks) :
    BlocksScan gb pageCount b (scanBlocks gb pageCount rest b) := by
  induction rest generalizing b with
  | zero => intro block above below; omega
  | succ rest ih =>
    have block := scanWords_spec (gb.memory (gb.blocksPhys b)) growBitmapWordsPerBlock 0 (0, 0)
      (Nat.zero_add _) (Scan.init positive 0)
    rw [scanBlocks]
    split
    · next startBit found =>
      rw [found] at block
      exact ⟨le_rfl, by omega, block⟩
    · next missing =>
      rw [missing] at block
      have later := ih (b + 1) (by omega)
      revert later
      cases scanBlocks gb pageCount rest (b + 1) with
      | some result =>
        rintro ⟨above, below, run⟩
        exact ⟨by omega, below, run⟩
      | none =>
        intro later other above below
        by_cases here : other = b
        · rw [here]
          exact block
        · exact later other (by omega) below

end Voxia.Memory
