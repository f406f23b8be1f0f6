/-
**Runs of the growing bitmap.**

`GrowReach` is every state that allocations, exact frees and writes of the rest of the kernel to other memory can
reach, with the ranges that are then outstanding. Seen through `pageBits` (one bit for every page of the window, clear
where no block is active yet) the bitmap and these ranges form a `Lib.Ledger`. The address arithmetic is 64-bit, so
outside a window that exists in the address space ranges can coincide.
-/

import Voxia.Memory.GrowBitmap

namespace Voxia.Memory

open Lib Function List Nat GrowBitmap

/-- The bit of a page of the window; pages of blocks that are not active are clear. -/
def GrowBitmap.pageBits (gb : GrowBitmap) (i : Nat) : Bool :=
  decide (i / growBitmapBlockPages < gb.activeBlocks) &&
    gb.blockBits (i / growBitmapBlockPages) (i % growBitmapBlockPages)

structure FramesOwned (gb : GrowBitmap) : Prop where
  nonzero : ∀ b, b < gb.activeBlocks → gb.blocksPhys b ≠ 0
  injective : ∀ b c, b < gb.activeBlocks → c < gb.activeBlocks →
    gb.blocksPhys b = gb.blocksPhys c → b = c

/-- The frames one operation obtains succeed, differ, and are in use by no active block. -/
structure FreshFrames (gb : GrowBitmap) (frames : Nat → Nat) : Prop where
  nonzero : ∀ i, frames i ≠ 0
  injective : Function.Injective frames
  unused : ∀ b i, b < gb.activeBlocks → gb.blocksPhys b ≠ frames i

/-! ### The pages as one bitmap -/

variable {gb : GrowBitmap} {b phys pageCount : Nat} {span : Span} {frames : Nat → Nat} {pages live : List Span}
  {memory : Nat → FrameWords}

/-- A run that is found marks clear pages. -/
theorem pageBits_setBlock (owned : FramesOwned gb) (active : b < gb.activeBlocks) {words : FrameWords} {value : Bool}
    (inBlock : span.start + span.len ≤ growBitmapBlockPages)
    (filled : wordBit words = fill (gb.blockBits b) span value) :
    pageBits { gb with memory := update gb.memory (gb.blocksPhys b) words }
      = fill gb.pageBits ⟨b * growBitmapBlockPages + span.start, span.len⟩ value := by
  funext i
  unfold pageBits blockBits fill
  simp only
  by_cases here : i / growBitmapBlockPages = b
  · have inside : (b * growBitmapBlockPages + span.start ≤ i ∧
        i < b * growBitmapBlockPages + span.start + span.len) ↔
        (span.start ≤ i % growBitmapBlockPages ∧
          i % growBitmapBlockPages < span.start + span.len) := by
      unfold growBitmapBlockPages at *
      omega
    rw [here, update_self, filled, decide_eq_true active, Bool.true_and, Bool.true_and,
      fill, blockBits]
    simp only [inside]
  · have outside : ¬ (b * growBitmapBlockPages + span.start ≤ i ∧
        i < b * growBitmapBlockPages + span.start + span.len) := by
      unfold growBitmapBlockPages at *
      omega
    rw [if_neg outside]
    by_cases other : i / growBitmapBlockPages < gb.activeBlocks
    · have frame : gb.blocksPhys (i / growBitmapBlockPages) ≠ gb.blocksPhys b :=
        fun same => here (owned.injective _ _ other active same)
      rw [update_of_ne frame]
    · simp [other]

/-- A growth marks clear pages. -/
theorem pageBits_addBlock (unused : ∀ b, b < gb.activeBlocks → gb.blocksPhys b ≠ phys) (words : FrameWords) (i : Nat) :
    (addBlock gb phys words).pageBits i =
      if i / growBitmapBlockPages = gb.activeBlocks then wordBit words (i % growBitmapBlockPages)
      else gb.pageBits i := by
  unfold pageBits blockBits addBlock
  simp only
  by_cases here : i / growBitmapBlockPages = gb.activeBlocks
  · rw [if_pos here, here, update_self, update_self]
    simp
  · rw [if_neg here, update_of_ne here]
    by_cases active : i / growBitmapBlockPages < gb.activeBlocks
    · rw [update_of_ne (unused _ active)]
      simp [active, lt_succ_of_lt active]
    · have beyond : ¬ i / growBitmapBlockPages < gb.activeBlocks + 1 := by omega
      simp [active, beyond]

theorem addBlock_owned (owned : FramesOwned gb) (nonzero : phys ≠ 0)
    (unused : ∀ b, b < gb.activeBlocks → gb.blocksPhys b ≠ phys) (words : FrameWords) :
    FramesOwned (addBlock gb phys words) where
  nonzero := by
    intro b active
    unfold addBlock at active ⊢
    simp only at active ⊢
    by_cases here : b = gb.activeBlocks
    · rw [here, update_self]
      exact nonzero
    · rw [update_of_ne here]
      exact owned.nonzero b (by omega)
  injective := by
    intro b c activeB activeC same
    unfold addBlock at activeB activeC same
    simp only at activeB activeC same
    by_cases hereB : b = gb.activeBlocks
    · by_cases hereC : c = gb.activeBlocks
      · rw [hereB, hereC]
      · rw [hereB, update_self, update_of_ne hereC] at same
        exact absurd same.symm (unused c (by omega))
    · by_cases hereC : c = gb.activeBlocks
      · rw [hereC, update_self, update_of_ne hereB] at same
        exact absurd same (unused b (by omega))
      · rw [update_of_ne hereB, update_of_ne hereC] at same
        exact owned.injective b c (by omega) (by omega) same

theorem unused_addBlock {i : Nat} (injective : Function.Injective frames)
    (unused : ∀ b j, b < gb.activeBlocks → i ≤ j → gb.blocksPhys b ≠ frames j) (words : FrameWords) :
    ∀ b j, b < (addBlock gb (frames i) words).activeBlocks → i + 1 ≤ j →
      (addBlock gb (frames i) words).blocksPhys b ≠ frames j := by
  intro b j active later
  unfold addBlock at active ⊢
  simp only at active ⊢
  by_cases here : b = gb.activeBlocks
  · rw [here, update_self]
    intro same
    have := injective same
    omega
  · rw [update_of_ne here]
    exact unused b j (by omega) (by omega)

/-- What a growth by `added` blocks that marks `span` leaves. -/
structure Grown (gb gb' : GrowBitmap) (added : Nat) (span : Span) : Prop where
  bits : gb'.pageBits = fill gb.pageBits span true
  owned : FramesOwned gb'
  active : gb'.activeBlocks = gb.activeBlocks + added
  max : gb'.maxBlocks = gb.maxBlocks
  base : gb'.baseVaddr = gb.baseVaddr
  size : gb'.pageSize = gb.pageSize

/-- **A growth marks the first pages of the first new block, and no other page.** -/
theorem growBlocks_spec (nonzero : ∀ i, frames i ≠ 0) (injective : Function.Injective frames)
    (fits : pageCount ≤ growBitmapBlockPages) (rest i : Nat) (gb : GrowBitmap) (owned : FramesOwned gb)
    (unused : ∀ b j, b < gb.activeBlocks → i ≤ j → gb.blocksPhys b ≠ frames j) :
    Grown gb (growBlocks pageCount frames rest i gb) rest
      ⟨gb.activeBlocks * growBitmapBlockPages, if i = 0 ∧ 0 < rest then pageCount else 0⟩ := by
  induction rest generalizing i gb with
  | zero =>
    refine ⟨?_, owned, rfl, rfl, rfl, rfl⟩
    rw [if_neg (by simp), fill_empty, growBlocks]
  | succ rest ih =>
    have unusedHere : ∀ b, b < gb.activeBlocks → gb.blocksPhys b ≠ frames i :=
      fun b active => unused b i active le_rfl
    obtain ⟨bits, owned', active', max', base', size'⟩ := ih (i + 1) _
      (addBlock_owned owned (nonzero i) unusedHere _) (unused_addBlock injective unused _)
    refine ⟨?_, owned', ?_, max', base', size'⟩
    · rw [if_neg (show ¬ (i + 1 = 0 ∧ 0 < rest) by omega), fill_empty] at bits
      rw [growBlocks, bits]
      funext j
      have clear : j / growBitmapBlockPages = gb.activeBlocks → gb.pageBits j = false := by
        intro here
        simp [pageBits, here]
      have zero := wordBit_zeroWords (gb.memory (frames i)) (mod_lt j (by decide))
      rw [pageBits_addBlock unusedHere]
      by_cases first : i = 0
      · rw [if_pos first, if_pos (c := i = 0 ∧ 0 < rest + 1) ⟨first, succ_pos rest⟩, wordBit_markBits]
        simp only [fill, zero]
        by_cases here : j / growBitmapBlockPages = gb.activeBlocks
        · rw [if_pos here, clear here]
          unfold growBitmapBlockPages at *
          split_ifs <;> first | rfl | omega
        · unfold growBitmapBlockPages at *
          split_ifs <;> first | rfl | omega
      · rw [if_neg first, if_neg (c := i = 0 ∧ 0 < rest + 1) fun both => first both.1, fill_empty, zero]
        split_ifs with here
        · exact (clear here).symm
        · rfl
    · rw [growBlocks, active']
      simp only [addBlock]
      omega

/-! ### Runs -/

/-- The states the bitmap can reach from `start`, with the outstanding ranges: `start` is the returned
address and `len` the number of pages. -/
inductive GrowReach (start : GrowBitmap) : GrowBitmap → List Span → Prop
  | init : GrowReach start start []
  | alloc {gb : GrowBitmap} {live : List Span} (reach : GrowReach start gb live) (pageCount : Nat)
      (frames : Nat → Nat) (fresh : FreshFrames gb frames) :
      GrowReach start (growBitmapAllocPages gb pageCount frames).2
        (if (growBitmapAllocPages gb pageCount frames).1 = 0 then live
          else ⟨(growBitmapAllocPages gb pageCount frames).1, pageCount⟩ :: live)
  | free {gb : GrowBitmap} {live : List Span} (reach : GrowReach start gb live) (range : Span)
      (outstanding : range ∈ live) :
      GrowReach start (growBitmapFreePages gb range.start range.len) (live.erase range)
  | other {gb : GrowBitmap} {live : List Span} (reach : GrowReach start gb live)
      (memory : Nat → FrameWords)
      (same : ∀ b, b < gb.activeBlocks → memory (gb.blocksPhys b) = gb.memory (gb.blocksPhys b)) :
      GrowReach start { gb with memory := memory } live

structure WindowFits (gb : GrowBitmap) : Prop where
  base_pos : 0 < gb.baseVaddr
  size_pos : 0 < gb.pageSize
  bounded : gb.baseVaddr + gb.maxBlocks * growBitmapBlockPages * gb.pageSize ≤ 2 ^ 64

/-- The range of the window that a span of page indices names. -/
def GrowBitmap.range (gb : GrowBitmap) (pages : Span) : Span :=
  ⟨gb.baseVaddr + pages.start * gb.pageSize, pages.len⟩

/-- What every run keeps. `pages` are the outstanding ranges as page indices. -/
structure GrowInv (gb : GrowBitmap) (pages : List Span) : Prop where
  fits : WindowFits gb
  active_pos : 0 < gb.activeBlocks
  active_le : gb.activeBlocks ≤ gb.maxBlocks
  max_le : gb.maxBlocks ≤ growBitmapAbsoluteMaxBlocks
  owned : FramesOwned gb
  ledger : Ledger (fun _ => false) gb.pageBits pages
  in_block : ∀ span ∈ pages, span.start / growBitmapBlockPages < gb.activeBlocks ∧
    span.start % growBitmapBlockPages + span.len ≤ growBitmapBlockPages

theorem WindowFits.address_eq (fits : WindowFits gb) {index : Nat}
    (inside : index < gb.maxBlocks * growBitmapBlockPages) : gb.address index = gb.baseVaddr + index * gb.pageSize := by
  have room : (index + 1) * gb.pageSize ≤ gb.maxBlocks * growBitmapBlockPages * gb.pageSize :=
    mul_le_mul_right _ inside
  have bounded := fits.bounded
  have positive := fits.size_pos
  rw [succ_mul] at room
  exact u64_of_lt (by omega)

theorem WindowFits.range_injective (fits : WindowFits gb) : Function.Injective gb.range := by
  rintro ⟨start, len⟩ ⟨start', len'⟩ same
  have parts := Span.mk.inj same
  have starts : start = start' :=
    eq_of_mul_eq_mul_right fits.size_pos (add_left_cancel parts.1)
  rw [starts, show len = len' from parts.2]

theorem GrowInv.mark (inv : GrowInv gb pages) (active : b < gb.activeBlocks) {startBit : Nat} (positive : 0 < pageCount)
    (run : FirstRun (gb.blockBits b) pageCount growBitmapBlockPages startBit) :
    GrowInv { gb with
        memory := update gb.memory (gb.blocksPhys b)
          (markBits (gb.memory (gb.blocksPhys b)) startBit pageCount) }
      (⟨b * growBitmapBlockPages + startBit, pageCount⟩ :: pages) := by
  have within := run.within
  have filled : wordBit (markBits (gb.memory (gb.blocksPhys b)) startBit pageCount)
      = fill (gb.blockBits b) ⟨startBit, pageCount⟩ true := wordBit_markBits _ _ _
  refine ⟨⟨inv.fits.base_pos, inv.fits.size_pos, inv.fits.bounded⟩, inv.active_pos, inv.active_le,
    inv.max_le, ⟨inv.owned.nonzero, inv.owned.injective⟩, ?_, ?_⟩
  · rw [pageBits_setBlock inv.owned active within filled]
    refine inv.ledger.alloc positive fun i covers => ?_
    simp only [Span.Covers] at covers
    have block : i / growBitmapBlockPages = b := by
      unfold growBitmapBlockPages at *
      omega
    have clear := run.clear (i % growBitmapBlockPages)
      (by unfold growBitmapBlockPages at *; omega) (by unfold growBitmapBlockPages at *; omega)
    rw [pageBits, block, clear, Bool.and_false]
  · intro span member
    obtain rfl | member := mem_cons.mp member
    · unfold growBitmapBlockPages at *
      simp only
      omega
    · exact inv.in_block span member

/-- Growing hands out the first pages of the new block. -/
theorem GrowInv.grow (inv : GrowInv gb pages) (fresh : FreshFrames gb frames) (positive : 0 < pageCount)
    (small : pageCount ≤ growBitmapBlockPages) (room : gb.activeBlocks < gb.maxBlocks) :
    GrowInv (growBlocks pageCount frames (blocksToAdd gb) 0 gb)
        (⟨gb.activeBlocks * growBitmapBlockPages, pageCount⟩ :: pages) ∧
      (growBlocks pageCount frames (blocksToAdd gb) 0 gb).baseVaddr = gb.baseVaddr ∧
      (growBlocks pageCount frames (blocksToAdd gb) 0 gb).pageSize = gb.pageSize := by
  have some : 0 < blocksToAdd gb := by
    have := inv.active_pos
    unfold blocksToAdd
    split_ifs <;> omega
  have bounded : gb.activeBlocks + blocksToAdd gb ≤ gb.maxBlocks := by
    unfold blocksToAdd
    split_ifs <;> omega
  obtain ⟨bits, owned', active', max', base', size'⟩ := growBlocks_spec fresh.nonzero fresh.injective small
    (blocksToAdd gb) 0 gb inv.owned fun b j active _ => fresh.unused b j active
  rw [if_pos ⟨rfl, some⟩] at bits
  refine ⟨⟨⟨?_, ?_, ?_⟩, by omega, by omega, ?_, owned', ?_, ?_⟩, base', size'⟩
  · rw [base']; exact inv.fits.base_pos
  · rw [size']; exact inv.fits.size_pos
  · rw [base', size', max']; exact inv.fits.bounded
  · rw [max']; exact inv.max_le
  · rw [bits]
    refine inv.ledger.alloc positive fun i covers => ?_
    simp only [Span.Covers] at covers
    have beyond : ¬ i / growBitmapBlockPages < gb.activeBlocks := by
      unfold growBitmapBlockPages at *
      omega
    simp [pageBits, beyond]
  · intro span member
    obtain rfl | member := mem_cons.mp member
    · unfold growBitmapBlockPages at *
      simp only
      omega
    · have := inv.in_block span member
      exact ⟨by omega, this.2⟩

structure Allocated (gb : GrowBitmap) (pages : List Span) (pageCount index : Nat)
    (result : Nat × GrowBitmap) : Prop where
  address : result.1 = gb.baseVaddr + index * gb.pageSize
  inv : GrowInv result.2 (⟨index, pageCount⟩ :: pages)
  same_base : result.2.baseVaddr = gb.baseVaddr
  same_size : result.2.pageSize = gb.pageSize

/-- **The outcomes of an allocation.** Pages are handed out, from a run of an active block or from
the front of the first block of a growth; or the request is out of range; or there is no room. -/
theorem growBitmapAllocPages_cases (inv : GrowInv gb pages) (pageCount : Nat) (fresh : FreshFrames gb frames) :
    (∃ index, Allocated gb pages pageCount index (growBitmapAllocPages gb pageCount frames)) ∨
      growBitmapAllocPages gb pageCount frames = (0, gb) ∧
        (pageCount = 0 ∨ growBitmapBlockPages < pageCount ∨
          gb.activeBlocks = gb.maxBlocks ∧ ∀ b, b < gb.activeBlocks →
            NoRun (gb.blockBits b) pageCount growBitmapBlockPages) := by
  unfold growBitmapAllocPages
  by_cases refused : pageCount = 0 ∨ growBitmapBlockPages < pageCount
  · rw [if_pos refused]
    exact .inr ⟨rfl, by omega⟩
  rw [if_neg refused]
  have positive : 0 < pageCount := by omega
  have small : pageCount ≤ growBitmapBlockPages := by omega
  have search := scanBlocks_spec gb positive gb.activeBlocks 0 (zero_add _)
  have activeLe := inv.active_le
  split
  · next b startBit found =>
    rw [found] at search
    obtain ⟨_, active, run⟩ := search
    have within := run.within
    have inside : b * growBitmapBlockPages + startBit < gb.maxBlocks * growBitmapBlockPages := by
      unfold growBitmapBlockPages at *
      omega
    exact .inl ⟨_, inv.fits.address_eq inside, inv.mark active positive run, rfl, rfl⟩
  · next missing =>
    rw [missing] at search
    by_cases room : gb.activeBlocks < gb.maxBlocks
    · rw [if_pos room]
      have inside : gb.activeBlocks * growBitmapBlockPages < gb.maxBlocks * growBitmapBlockPages :=
        mul_lt_mul_of_pos_right room (by decide)
      obtain ⟨inv', base', size'⟩ := inv.grow fresh positive small room
      exact .inl ⟨_, inv.fits.address_eq inside, inv', base', size'⟩
    · rw [if_neg room]
      exact .inr ⟨rfl, .inr (.inr ⟨by omega, fun b active => search b (zero_le _) active⟩)⟩

/-- A free takes the pages back and nothing else. -/
theorem GrowInv.free (inv : GrowInv gb pages) (outstanding : span ∈ pages) :
    GrowInv (growBitmapFreePages gb (gb.range span).start (gb.range span).len) (pages.erase span) ∧
      (growBitmapFreePages gb (gb.range span).start (gb.range span).len).baseVaddr = gb.baseVaddr ∧
      (growBitmapFreePages gb (gb.range span).start (gb.range span).len).pageSize = gb.pageSize := by
  obtain ⟨active, within⟩ := inv.in_block span outstanding
  have index : (gb.baseVaddr + span.start * gb.pageSize - gb.baseVaddr) / gb.pageSize = span.start := by
    rw [Nat.add_sub_cancel_left, Nat.mul_div_cancel _ inv.fits.size_pos]
  have accepted : ¬ (gb.activeBlocks ≤ span.start / growBitmapBlockPages ∨
      gb.blocksPhys (span.start / growBitmapBlockPages) = 0) := by
    rintro (inactive | missing)
    · omega
    · exact inv.owned.nonzero _ active missing
  have filled : wordBit (unmarkBits (gb.memory (gb.blocksPhys (span.start / growBitmapBlockPages)))
      (span.start % growBitmapBlockPages) span.len)
        = fill (gb.blockBits (span.start / growBitmapBlockPages))
          ⟨span.start % growBitmapBlockPages, span.len⟩ false := wordBit_unmarkBits _ _ _
  unfold growBitmapFreePages GrowBitmap.range
  simp only [if_neg (not_lt.mpr (le_add_right gb.baseVaddr _)), index, if_neg accepted]
  refine ⟨⟨⟨inv.fits.base_pos, inv.fits.size_pos, inv.fits.bounded⟩, inv.active_pos, inv.active_le,
    inv.max_le, ⟨inv.owned.nonzero, inv.owned.injective⟩, ?_, ?_⟩, trivial, trivial⟩
  · rw [pageBits_setBlock inv.owned active within filled]
    simp only [div_add_mod']
    exact inv.ledger.free outstanding
  · exact fun other member => inv.in_block other (mem_of_mem_erase member)

theorem GrowInv.other (inv : GrowInv gb pages)
    (same : ∀ b, b < gb.activeBlocks → memory (gb.blocksPhys b) = gb.memory (gb.blocksPhys b)) :
    GrowInv { gb with memory := memory } pages := by
  refine ⟨⟨inv.fits.base_pos, inv.fits.size_pos, inv.fits.bounded⟩, inv.active_pos, inv.active_le,
    inv.max_le, ⟨inv.owned.nonzero, inv.owned.injective⟩, ?_, inv.in_block⟩
  have bits : pageBits { gb with memory := memory } = gb.pageBits := by
    funext i
    unfold pageBits blockBits
    by_cases active : i / growBitmapBlockPages < gb.activeBlocks
    · simp only [same _ active]
    · simp [active]
  rw [bits]
  exact inv.ledger

/-- What is known of a state a run from `start` reached: the invariant, for the pages that the
outstanding ranges name, in the window that `start` set up. -/
structure GrowState (start gb : GrowBitmap) (live pages : List Span) : Prop where
  inv : GrowInv gb pages
  live_eq : live = pages.map gb.range
  same_base : gb.baseVaddr = start.baseVaddr
  same_size : gb.pageSize = start.pageSize

/-- **Every run keeps the invariant.** -/
theorem GrowReach.state {start : GrowBitmap} (reach : GrowReach start gb live)
    (begin : GrowInv start []) : ∃ pages, GrowState start gb live pages := by
  induction reach with
  | init => exact ⟨[], begin, rfl, rfl, rfl⟩
  | alloc _ pageCount frames fresh ih =>
    obtain ⟨pages, inv, rfl, base, size⟩ := ih
    have basePos := inv.fits.base_pos
    obtain ⟨index, taken⟩ | ⟨failed, _⟩ := growBitmapAllocPages_cases inv pageCount fresh
    · refine ⟨⟨index, pageCount⟩ :: pages, taken.inv, ?_, taken.same_base.trans base,
        taken.same_size.trans size⟩
      rw [taken.address, if_neg (by omega), map_cons]
      unfold GrowBitmap.range
      rw [taken.same_base, taken.same_size]
    · rw [failed]
      exact ⟨pages, inv, rfl, base, size⟩
  | free _ range outstanding ih =>
    obtain ⟨pages, inv, rfl, base, size⟩ := ih
    obtain ⟨span, member, rfl⟩ := mem_map.mp outstanding
    obtain ⟨inv', base', size'⟩ := inv.free member
    refine ⟨pages.erase span, inv', ?_, base'.trans base, size'.trans size⟩
    rw [← map_erase inv.fits.range_injective]
    unfold GrowBitmap.range at base' size' ⊢
    rw [base', size']
  | other _ memory same ih =>
    obtain ⟨pages, inv, rfl, base, size⟩ := ih
    exact ⟨pages, inv.other same, rfl, base, size⟩

theorem growBitmapInit_inv {baseVaddr pageSize maxCapacityMb frame : Nat} (nonzero : frame ≠ 0)
    (fits : WindowFits (growBitmapInit memory baseVaddr pageSize maxCapacityMb frame)) :
    GrowInv (growBitmapInit memory baseVaddr pageSize maxCapacityMb frame) [] := by
  have clear : (growBitmapInit memory baseVaddr pageSize maxCapacityMb frame).pageBits
      = fun _ => false := by
    funext i
    unfold pageBits blockBits growBitmapInit
    by_cases first : i / growBitmapBlockPages = 0
    · simp only [first, if_true, update_self]
      rw [wordBit_zeroWords _ (mod_lt _ (by decide)), Bool.and_false]
    · simp [first]
  refine ⟨fits, one_pos, ?_, ?_, ⟨?_, ?_⟩, ?_, by simp⟩
  · simp only [growBitmapInit, maxBlocksFor, growBitmapAbsoluteMaxBlocks]
    split_ifs <;> omega
  · simp only [growBitmapInit, maxBlocksFor, growBitmapAbsoluteMaxBlocks]
    split_ifs <;> omega
  · intro b active
    have : b = 0 := by simpa [growBitmapInit] using active
    simpa [growBitmapInit, this] using nonzero
  · intro b c activeB activeC _
    have : b = 0 := by simpa [growBitmapInit] using activeB
    have : c = 0 := by simpa [growBitmapInit] using activeC
    omega
  · rw [clear]
    exact Ledger.init _

def rangeBytes (pageSize : Nat) (range : Span) : Span := ⟨range.start, range.len * pageSize⟩

/-- **The contract of the growing bitmap, over every run.** For every capacity, page size and base
whose window lies in the address space: outstanding ranges never overlap, lie in the active part of
the window, and do not cross a block; the number of blocks stays within its limits; and an allocation
of `1` to `32768` pages fails only when the bitmap cannot grow and no block has that many clear bits
in a row. -/
theorem growReach_ranges_owned {memory : Nat → FrameWords}
    {baseVaddr pageSize maxCapacityMb frame : Nat} (nonzero : frame ≠ 0)
    (fits : WindowFits (growBitmapInit memory baseVaddr pageSize maxCapacityMb frame))
    {gb : GrowBitmap} {live : List Span}
    (reach : GrowReach (growBitmapInit memory baseVaddr pageSize maxCapacityMb frame) gb live) :
    (live.map (rangeBytes pageSize)).Pairwise Span.Apart ∧
      (∀ range ∈ live, baseVaddr ≤ range.start ∧
        range.start + range.len * pageSize ≤
          baseVaddr + gb.activeBlocks * growBitmapBlockPages * pageSize ∧
        (range.start - baseVaddr) / pageSize / growBitmapBlockPages =
          ((range.start - baseVaddr) / pageSize + range.len - 1) / growBitmapBlockPages) ∧
      gb.activeBlocks ≤ gb.maxBlocks ∧ gb.maxBlocks ≤ 256 ∧
      ∀ pageCount frames, FreshFrames gb frames → 1 ≤ pageCount → pageCount ≤ 32768 →
        (growBitmapAllocPages gb pageCount frames).1 = 0 →
          gb.activeBlocks = gb.maxBlocks ∧
            ∀ b, b < gb.activeBlocks → NoRun (gb.blockBits b) pageCount growBitmapBlockPages := by
  obtain ⟨pages, inv, rfl, base, size⟩ := reach.state (growBitmapInit_inv nonzero fits)
  subst base size
  refine ⟨?_, ?_, inv.active_le, inv.max_le, ?_⟩
  · rw [map_map, pairwise_map]
    refine inv.ledger.apart.imp fun {first second} apart => ?_
    simp only [Function.comp_apply, rangeBytes, GrowBitmap.range, Span.Apart]
    obtain before | after := apart
    · have := mul_le_mul_right gb.pageSize before
      rw [add_mul] at this
      omega
    · have := mul_le_mul_right gb.pageSize after
      rw [add_mul] at this
      omega
  · intro range member
    obtain ⟨span, inPages, rfl⟩ := mem_map.mp member
    obtain ⟨active, within⟩ := inv.in_block span inPages
    have positive := inv.ledger.positive span inPages
    have last : span.start + span.len ≤ gb.activeBlocks * growBitmapBlockPages := by
      unfold growBitmapBlockPages at *
      omega
    have bytes := mul_le_mul_right gb.pageSize last
    rw [add_mul] at bytes
    simp only [GrowBitmap.range, Nat.add_sub_cancel_left,
      Nat.mul_div_cancel _ inv.fits.size_pos]
    refine ⟨by omega, by omega, ?_⟩
    unfold growBitmapBlockPages at *
    omega
  · intro pageCount frames fresh positive small failed
    obtain ⟨index, taken⟩ | ⟨_, reason⟩ := growBitmapAllocPages_cases inv pageCount fresh
    · have basePos := inv.fits.base_pos
      have address := taken.address
      omega
    · unfold growBitmapBlockPages at reason ⊢
      obtain none | large | full := reason
      · omega
      · omega
      · exact full

/-! ### Two windows -/

/-- The frames a growth obtains. -/
def spareFrames (i : Nat) : Nat := 0x3000 + i * 0x1000

theorem spareFrames_fresh (gb : GrowBitmap) (active : gb.activeBlocks = 1)
    (frame : gb.blocksPhys 0 = 0x2000) : FreshFrames gb spareFrames where
  nonzero := by intro i; unfold spareFrames; omega
  injective := by intro i j same; unfold spareFrames at same; omega
  unused := by
    intro b i inside
    rw [show b = 0 by omega, frame]
    unfold spareFrames
    omega

/-- The bitmap after allocations of the given numbers of pages, the last one first. -/
def allocatedFrom (gb : GrowBitmap) : List Nat → GrowBitmap
  | [] => gb
  | n :: before => (growBitmapAllocPages (allocatedFrom gb before) n spareFrames).2

theorem GrowReach.allocated {start : GrowBitmap} {n address : Nat} (reach : GrowReach start gb live)
    (active : gb.activeBlocks = 1) (frame : gb.blocksPhys 0 = 0x2000)
    (returned : (growBitmapAllocPages gb n spareFrames).1 = address) (nonzero : address ≠ 0) :
    GrowReach start (growBitmapAllocPages gb n spareFrames).2 (⟨address, n⟩ :: live) := by
  have next := reach.alloc n spareFrames (spareFrames_fresh _ active frame)
  rw [returned, if_neg nonzero] at next
  exact next

/-- A block with a page in use has no room for as many pages as it has, so the bitmap grows. -/
theorem growBitmapAllocPages_whole (active : gb.activeBlocks = 1) {i : Nat} (inside : i < growBitmapBlockPages)
    (used : gb.blockBits 0 i) (more : 1 < gb.maxBlocks) : growBitmapAllocPages gb growBitmapBlockPages frames =
      (gb.address (1 * growBitmapBlockPages), growBlocks growBitmapBlockPages frames (blocksToAdd gb) 0 gb) := by
  have positive : 0 < growBitmapBlockPages := by decide
  have full : scanBlocks gb growBitmapBlockPages 1 0 = none := by
    have scanned := scanBlocks_spec gb positive 1 0 (by rw [active])
    cases found : scanBlocks gb growBitmapBlockPages 1 0 with
    | none => rfl
    | some place =>
      rw [found] at scanned
      obtain ⟨-, below, run⟩ := scanned
      have first : place.1 = 0 := by omega
      have within := run.within
      have clear := run.clear i (by omega) (by omega)
      rw [first, used] at clear
      cases clear
  rw [growBitmapAllocPages, if_neg (by decide), active, full, if_pos more]

/-- The window of the kernel heap, `32` GB of pages above its base. -/
def heapWindow : GrowBitmap := growBitmapInit (fun _ _ => 0) 0xffffff9400001000 4096 32768 0x2000

/-- A page and two pages are taken, and the first page is given back. -/
def heapFreed : GrowBitmap := growBitmapFreePages (allocatedFrom heapWindow [2, 1]) 0xffffff9400001000 1

/-- A whole block is taken then, for which the bitmap grows. -/
theorem growReach_ranges_owned_heap :
    let gb := (growBitmapAllocPages heapFreed growBitmapBlockPages spareFrames).2
    let live : List Span := [⟨0xffffff9408001000, growBitmapBlockPages⟩, ⟨0xffffff9400002000, 2⟩]
    GrowReach heapWindow gb live ∧ gb.activeBlocks = 2 ∧ (live.map (rangeBytes 4096)).Pairwise Span.Apart ∧
      gb.activeBlocks ≤ gb.maxBlocks := by
  have empty : GrowReach heapWindow heapWindow [] := .init
  have one : GrowReach heapWindow (allocatedFrom heapWindow [1]) [⟨0xffffff9400001000, 1⟩] :=
    empty.allocated rfl rfl (by decide +kernel) (by decide)
  have two : GrowReach heapWindow (allocatedFrom heapWindow [2, 1])
      [⟨0xffffff9400002000, 2⟩, ⟨0xffffff9400001000, 1⟩] :=
    one.allocated (by decide +kernel) (by decide +kernel) (by decide +kernel) (by decide)
  have freed : GrowReach heapWindow heapFreed [⟨0xffffff9400002000, 2⟩] := two.free ⟨0xffffff9400001000, 1⟩ (by decide)
  have active : heapFreed.activeBlocks = 1 := by decide +kernel
  have grows : growBitmapAllocPages heapFreed growBitmapBlockPages spareFrames = _ :=
    growBitmapAllocPages_whole active (by decide : 1 < growBitmapBlockPages) (by decide +kernel) (by decide +kernel)
  have run := freed.allocated active (by decide +kernel) (congrArg Prod.fst grows) (by decide +kernel)
  have owned := growReach_ranges_owned (by decide) ⟨by decide, by decide, by decide⟩ run
  have two : (growBitmapAllocPages heapFreed growBitmapBlockPages spareFrames).2.activeBlocks = 2 := by
    rw [grows]
    decide +kernel
  exact ⟨run, two, owned.1, owned.2.2.1⟩

/-- A bitmap whose third page already wraps around to the base. -/
def wrappingBitmap : GrowBitmap := growBitmapInit (fun _ _ => 0) 0x1000 (2 ^ 63) 1 0x2000

/-- **Ranges of a window that wraps coincide**: with a page size of `2 ^ 63` the third page has the
address of the first. -/
theorem wrapped_ranges_coincide :
    GrowReach wrappingBitmap (allocatedFrom wrappingBitmap [1, 1, 1])
        [⟨0x1000, 1⟩, ⟨0x1000 + 2 ^ 63, 1⟩, ⟨0x1000, 1⟩] ∧
      ¬ ([⟨0x1000, 1⟩, ⟨0x1000 + 2 ^ 63, 1⟩, ⟨0x1000, 1⟩].map (rangeBytes (2 ^ 63))).Pairwise
        Span.Apart := by
  have empty : GrowReach wrappingBitmap (allocatedFrom wrappingBitmap []) [] := .init
  have first : GrowReach wrappingBitmap (allocatedFrom wrappingBitmap [1]) [⟨0x1000, 1⟩] :=
    empty.allocated (by decide) (by decide) (by decide) (by decide)
  have second : GrowReach wrappingBitmap (allocatedFrom wrappingBitmap [1, 1]) [⟨0x1000 + 2 ^ 63, 1⟩, ⟨0x1000, 1⟩] :=
    first.allocated (by decide) (by decide) (by decide) (by decide)
  refine ⟨second.allocated (by decide) (by decide) (by decide) (by decide), ?_⟩
  intro apart
  have same := (pairwise_cons.mp apart).1 ⟨0x1000, 2 ^ 63⟩ (by decide)
  exact absurd same (by decide)

end Voxia.Memory
