/-
**Runs of the physical page allocator.**

`INIT(phys_base_allocator)` sizes the bitmap from the highest end of the memory map, takes its pages from the front of
the first usable entry that is long enough, fills it with ones and clears the bits of every usable entry. From there
on the allocator runs (`PhysReach`). A block may cover two usable entries that touch: the bitmap has no entry
boundaries.
-/

import Voxia.Memory.PhysBase

namespace Voxia.Memory

open Lib List Option

/-! ### The initialiser -/

/-- The types of a memory map entry (`memory/entry.h`). -/
inductive EntryMmap
  | usable
  | reserved
  | acpiReclaimable
  | acpiNvs
  | badMemory
  | bootloaderReclaimable
  | kernelAndModules
  | framebuffer
  deriving DecidableEq, Repr

structure MemoryEntry where
  base : Nat
  length : Nat
  type : EntryMmap
  deriving DecidableEq, Repr

/-- `higher_base_length_` after the first loop: the highest end, as 64-bit sums. -/
def higherBaseLength (map : List MemoryEntry) : Nat :=
  map.foldl (fun high entry =>
    if high < u64 (entry.base + entry.length) then u64 (entry.base + entry.length) else high) 0

def metadataCount (high : Nat) : Nat := (high / blockSize + 7) / 8

def metadataSize (high : Nat) : Nat := alignUp (metadataCount high) blockSize

/-- The loop that finds a place for the bitmap: the base of the first usable entry that is long
enough, and the map with that entry shortened from the front. -/
def carve (size : Nat) : List MemoryEntry → Option (Nat × List MemoryEntry)
  | [] => none
  | entry :: rest =>
    if size ≤ entry.length ∧ entry.type = .usable then
      some (entry.base, { entry with base := entry.base + size, length := entry.length - size } :: rest)
    else (carve size rest).map fun found => (found.1, entry :: found.2)

def clearUsable (bitmap : PhysBitmap) : List MemoryEntry → PhysBitmap
  | [] => bitmap
  | entry :: rest =>
    if entry.type = .usable then
      clearUsable (clearBits bitmap (entry.base / 0x1000) (entry.length / 0x1000)) rest
    else clearUsable bitmap rest

/-- What the initialiser leaves: the allocator, and the pages it took for the bitmap. -/
structure PhysBoot where
  phys : PhysBase
  reserved : Span

/-- `INIT(phys_base_allocator)`. `memory` is what the bitmap's memory held before. Without a usable
entry that is long enough the source writes through a null `bitmap_base_`: no state. -/
def initPhysBase (map : List MemoryEntry) (memory : PhysBitmap) : Option PhysBoot :=
  let high := higherBaseLength map
  let size := metadataSize high
  (carve size map).map fun found =>
    let filled : PhysBitmap := fun i => if i < size then 0xFF#8 else memory i
    { phys := ⟨high, clearUsable filled found.2⟩
      reserved := ⟨found.1 / blockSize, size / blockSize⟩ }

def MemoryEntry.CoversPage (entry : MemoryEntry) (page : Nat) : Prop :=
  entry.base ≤ page * blockSize ∧ (page + 1) * blockSize ≤ entry.base + entry.length

/-- The usable entries are whole pages of the 64-bit address space and do not overlap. -/
structure MapWellFormed (map : List MemoryEntry) : Prop where
  aligned : ∀ entry ∈ map, entry.type = .usable → blockSize ∣ entry.base ∧ blockSize ∣ entry.length
  bounded : ∀ entry ∈ map, entry.type = .usable → entry.base + entry.length < 2 ^ 64
  disjoint : map.Pairwise fun first second => first.type = .usable → second.type = .usable →
    first.base + first.length ≤ second.base ∨ second.base + second.length ≤ first.base

/-- Which pages the usable entries of the map free. -/
theorem bitUsed_clearUsable (bitmap : PhysBitmap) (map : List MemoryEntry) (i : Nat) :
    bitUsed (clearUsable bitmap map) i = false ↔ bitUsed bitmap i = false ∨
      ∃ entry ∈ map, entry.type = .usable ∧
        (⟨entry.base / 0x1000, entry.length / 0x1000⟩ : Span).Covers i := by
  induction map generalizing bitmap with
  | nil => simp [clearUsable]
  | cons entry rest ih =>
    rw [clearUsable]
    by_cases usable : entry.type = .usable
    · rw [if_pos usable, ih, bitUsed_clearBits]
      by_cases inside : (⟨entry.base / 0x1000, entry.length / 0x1000⟩ : Span).Covers i
      · rw [fill_of_covers inside]
        simp [usable, inside]
      · rw [fill_of_not_covers inside]
        simp [inside]
    · rw [if_neg usable, ih]
      simp [usable]

/-- The carved map differs from the map in one usable entry, which lost its front. -/
theorem carve_eq_some {size base : Nat} {map carved : List MemoryEntry} (found : carve size map = some (base, carved)) :
    ∃ before entry after, map = before ++ entry :: after ∧ entry.type = .usable ∧
      size ≤ entry.length ∧ entry.base = base ∧
      carved = before ++
        { entry with base := entry.base + size, length := entry.length - size } :: after := by
  induction map generalizing carved with
  | nil => simp [carve] at found
  | cons entry rest ih =>
    rw [carve] at found
    split_ifs at found with fits
    · obtain ⟨rfl, rfl⟩ := Prod.mk.inj (some.inj found)
      exact ⟨[], entry, rest, rfl, fits.2, fits.1, rfl, rfl⟩
    · obtain ⟨⟨base', carved'⟩, inner, same⟩ := map_eq_some_iff.mp found
      obtain ⟨rfl, rfl⟩ := Prod.mk.inj same
      obtain ⟨before, other, after, rfl, usable, fits, eq, rfl⟩ := ih inner
      exact ⟨entry :: before, other, after, rfl, usable, fits, eq, rfl⟩

theorem higherBaseLength_lt (map : List MemoryEntry) : higherBaseLength map < 2 ^ 64 := by
  have general : ∀ (map : List MemoryEntry) (high : Nat), high < 2 ^ 64 →
      map.foldl (fun high entry => if high < u64 (entry.base + entry.length) then
        u64 (entry.base + entry.length) else high) high < 2 ^ 64 := by
    intro map
    induction map with
    | nil => exact fun high small => small
    | cons entry rest ih =>
      intro high small
      rw [foldl_cons]
      apply ih
      split_ifs
      · exact Nat.mod_lt _ (by decide)
      · exact small
  exact general map 0 (by decide)

variable {high : Nat} {start phys : PhysBase} {live : List Span}

theorem blocks_le_metadata (word : high < 2 ^ 64) : high / blockSize ≤ metadataSize high * 8 := by
  have count : metadataCount high + 4095 < 2 ^ 64 := by
    unfold metadataCount blockSize
    omega
  rw [metadataSize, alignUp_blockSize count]
  unfold metadataCount blockSize
  omega

/-- **A page is free after initialisation only inside a usable entry, outside the bitmap's own
pages.** -/
theorem usable_of_free {map : List MemoryEntry} {memory : PhysBitmap} {boot : PhysBoot}
    (wellFormed : MapWellFormed map) (booted : initPhysBase map memory = some boot) {page : Nat}
    (below : page < boot.phys.totalBlocks) (free : bitUsed boot.phys.bitmap page = false) :
    (∃ entry ∈ map, entry.type = .usable ∧ entry.CoversPage page) ∧ ¬ boot.reserved.Covers page := by
  obtain ⟨⟨base, carved⟩, found, rfl⟩ := map_eq_some_iff.mp booted
  have word := higherBaseLength_lt map
  have described := blocks_le_metadata word
  generalize metadataSize (higherBaseLength map) = size at *
  obtain ⟨before, entry, after, rfl, usable, fits, rfl, rfl⟩ := carve_eq_some found
  have member : entry ∈ before ++ entry :: after := by simp
  obtain ⟨baseAligned, lengthAligned⟩ := wellFormed.aligned entry member usable
  have filled : bitUsed (fun i => if i < size then 0xFF#8 else memory i) page := by
    have inBytes : page / 8 < size := by
      have : page < higherBaseLength (before ++ entry :: after) / blockSize := below
      omega
    have ones : ∀ k < 8, (0xFF#8).getLsbD k := by decide
    rw [bitUsed_eq]
    simp only [if_pos inBytes]
    exact ones _ (Nat.mod_lt _ (by decide))
  rw [bitUsed_clearUsable, filled] at free
  obtain impossible | ⟨owner, inCarved, ownerUsable, covers⟩ := free
  · exact absurd impossible (by decide)
  simp only [Span.Covers, MemoryEntry.CoversPage] at covers ⊢
  have separated := wellFormed.disjoint
  rw [pairwise_append, pairwise_cons] at separated
  obtain ⟨_, ⟨fromEntry, _⟩, toEntry⟩ := separated
  -- The owner is the carved entry itself, or an entry of the map that the carved one does not meet.
  have cases : owner = { entry with base := entry.base + size, length := entry.length - size } ∨
      (owner ∈ before ++ entry :: after ∧ (owner.base + owner.length ≤ entry.base ∨
        entry.base + entry.length ≤ owner.base)) := by
    rcases mem_append.mp inCarved with inBefore | inRest
    · exact .inr ⟨by simp [inBefore],
        toEntry owner inBefore entry (by simp) ownerUsable usable⟩
    · rcases mem_cons.mp inRest with rfl | inAfter
      · exact .inl rfl
      · exact .inr ⟨by simp [inAfter], (fromEntry owner inAfter usable ownerUsable).symm⟩
  obtain rfl | ⟨inMap, apart⟩ := cases
  · simp only at covers
    refine ⟨⟨entry, member, usable, ?_⟩, ?_⟩
    · unfold blockSize at *
      omega
    · unfold blockSize at *
      omega
  · obtain ⟨ownerBase, ownerLength⟩ := wellFormed.aligned owner inMap ownerUsable
    refine ⟨⟨owner, inMap, ownerUsable, ?_⟩, ?_⟩
    · unfold blockSize at *
      omega
    · unfold blockSize at *
      omega

/-! ### Runs -/

/-- The states the allocator can reach from `start`, with the outstanding blocks (in pages). An
allocation that returns `NULL` hands out nothing; a free returns a block as it was handed out. -/
inductive PhysReach (start : PhysBase) : PhysBase → List Span → Prop
  | init : PhysReach start start []
  | alloc {phys : PhysBase} {live : List Span} (reach : PhysReach start phys live) (block : Nat)
      (positive : 0 < block) : PhysReach start (physBaseAlloc phys block).2
        (if (physBaseAlloc phys block).1 = 0 then live
          else ⟨(physBaseAlloc phys block).1 / blockSize, block⟩ :: live)
  | free {phys : PhysBase} {live : List Span} (reach : PhysReach start phys live) (block : Span)
      (outstanding : block ∈ live) :
      PhysReach start (vxPhysBaseFree phys (block.start * blockSize) block.len) (live.erase block)

structure PhysInv (start phys : PhysBase) (live : List Span) : Prop where
  same_end : phys.higherBaseLength = start.higherBaseLength
  ledger : Ledger (bitUsed start.bitmap) (bitUsed phys.bitmap) live
  within : ∀ block ∈ live, block.start + block.len ≤ start.totalBlocks

/-- An allocation keeps the invariant, as long as page `0` is not free: `NULL` is then only ever
returned when nothing was marked. -/
theorem PhysInv.alloc (inv : PhysInv start phys live) (zeroUsed : bitUsed start.bitmap 0) {block : Nat}
    (positive : 0 < block) :
    PhysInv start (physBaseAlloc phys block).2
      (if (physBaseAlloc phys block).1 = 0 then live
        else ⟨(physBaseAlloc phys block).1 / blockSize, block⟩ :: live) := by
  have zero : bitUsed phys.bitmap 0 := (inv.ledger.exact 0).mpr (.inl zeroUsed)
  obtain ⟨failed, _⟩ | ⟨first, run, taken⟩ := physBaseAlloc_spec phys positive
  · rw [failed]
    exact inv
  · rw [taken]
    have nonzero : first ≠ 0 := by
      rintro rfl
      have clear := run.clear 0 (Nat.le_refl _) (by omega)
      rw [zero] at clear
      exact absurd clear (by decide)
    have address : first * blockSize ≠ 0 := Nat.mul_ne_zero nonzero (by decide)
    rw [if_neg address, Nat.mul_div_cancel _ (by decide)]
    refine ⟨inv.same_end, ?_, ?_⟩
    · simp only [bitUsed_setBits]
      exact inv.ledger.alloc positive fun i inside => run.clear_of_covers inside
    · intro other member
      obtain rfl | member := mem_cons.mp member
      · have bound := run.within
        rwa [PhysBase.totalBlocks, inv.same_end] at bound
      · exact inv.within other member

theorem PhysInv.free (inv : PhysInv start phys live) {block : Span} (outstanding : block ∈ live) :
    PhysInv start (vxPhysBaseFree phys (block.start * blockSize) block.len) (live.erase block) := by
  refine ⟨inv.same_end, ?_, fun other member => inv.within other (mem_of_mem_erase member)⟩
  simp only [vxPhysBaseFree, Nat.mul_div_cancel _ (show 0 < blockSize by decide), bitUsed_clearBits]
  exact inv.ledger.free outstanding

/-- **Every run keeps the invariant.** -/
theorem PhysReach.inv (reach : PhysReach start phys live)
    (zeroUsed : bitUsed start.bitmap 0) : PhysInv start phys live := by
  induction reach with
  | init => exact ⟨rfl, Ledger.init _, by simp⟩
  | alloc _ block positive ih => exact ih.alloc zeroUsed positive
  | free _ block outstanding ih => exact ih.free outstanding

/-- **The allocator's contract, over every run.** The outstanding blocks never overlap, each of
their pages lies in a usable entry and outside the bitmap's pages, and free pages and outstanding
pages add up to the free pages right after initialisation. Page `0` must not be free then: its address
is the failure value. -/
theorem physReach_blocks_owned {map : List MemoryEntry} {memory : PhysBitmap} {boot : PhysBoot}
    (wellFormed : MapWellFormed map) (booted : initPhysBase map memory = some boot)
    (zeroUsed : bitUsed boot.phys.bitmap 0) {phys : PhysBase} {live : List Span}
    (reach : PhysReach boot.phys phys live) :
    live.Pairwise Span.Apart ∧
      (∀ block ∈ live, ∀ page, block.Covers page →
        (∃ entry ∈ map, entry.type = .usable ∧ entry.CoversPage page) ∧
          ¬ boot.reserved.Covers page) ∧
      pysBaseGetFreeBlockCount phys + (live.map Span.len).sum =
        pysBaseGetFreeBlockCount boot.phys := by
  have inv := reach.inv zeroUsed
  refine ⟨inv.ledger.apart, fun block member page covers => ?_, ?_⟩
  · have bound := inv.within block member
    unfold Span.Covers at covers
    exact usable_of_free wellFormed booted (by omega) (inv.ledger.fresh block member page covers)
  · have total : phys.totalBlocks = boot.phys.totalBlocks := by
      rw [PhysBase.totalBlocks, PhysBase.totalBlocks, inv.same_end]
    rw [pysBaseGetFreeBlockCount, pysBaseGetFreeBlockCount, countFree_eq, countFree_eq, total]
    exact inv.ledger.conserves _ inv.within

/-- Two usable entries that touch at `0x3000`; the bitmap takes the first page of the first one. -/
def touchingMap : List MemoryEntry := [⟨0x1000, 0x2000, .usable⟩, ⟨0x3000, 0x1000, .usable⟩]

theorem touchingMap_wellFormed : MapWellFormed touchingMap where
  aligned := by decide
  bounded := by decide
  disjoint := by simp [touchingMap]

def touchingBoot : PhysBoot := (initPhysBase touchingMap fun _ => 0).get (by decide)

theorem touchingBoot_eq : initPhysBase touchingMap (fun _ => 0) = some touchingBoot :=
  (some_get _).symm

theorem touching_reach : PhysReach touchingBoot.phys (physBaseAlloc touchingBoot.phys 2).2 [⟨2, 2⟩] := by
  have booted : PhysReach touchingBoot.phys touchingBoot.phys [] := PhysReach.init
  have reach := booted.alloc 2 (by decide)
  exact reach

/-- **A block can straddle two usable entries**, so it need not lie inside one. -/
theorem straddling_block : MapWellFormed touchingMap ∧
    initPhysBase touchingMap (fun _ => 0) = some touchingBoot ∧
    PhysReach touchingBoot.phys (physBaseAlloc touchingBoot.phys 2).2 [⟨2, 2⟩] ∧
    ¬ ∀ block ∈ [(⟨2, 2⟩ : Span)], ∃ entry ∈ touchingMap, entry.type = .usable ∧
      ∀ page, block.Covers page → entry.CoversPage page := by
  refine ⟨touchingMap_wellFormed, touchingBoot_eq, touching_reach, fun inside => ?_⟩
  obtain ⟨entry, member, _, covers⟩ := inside ⟨2, 2⟩ (by simp)
  have low := covers 2 (by decide)
  have high := covers 3 (by decide)
  simp only [touchingMap, mem_cons, not_mem_nil, or_false] at member
  obtain rfl | rfl := member
  · exact absurd high (by unfold MemoryEntry.CoversPage; decide)
  · exact absurd low (by unfold MemoryEntry.CoversPage; decide)

theorem physReach_blocks_owned_touching :
    pysBaseGetFreeBlockCount (physBaseAlloc touchingBoot.phys 2).2 + 2 =
      pysBaseGetFreeBlockCount touchingBoot.phys :=
  (physReach_blocks_owned touchingMap_wellFormed touchingBoot_eq (by decide) touching_reach).2.2

end Voxia.Memory
