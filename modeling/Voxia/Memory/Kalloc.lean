/-
**The kernel heap (`kernel/memory/kalloc.c`).**

A small request is served from one of six size classes. Every core has a free list for each class; the links of a list
lie in the free slots themselves, in the word that holds the size while the slot is in use. An empty list is refilled
with one page, cut into slots. A larger request gets whole pages of its own. Every block is laid out as header, red
zone, data, red zone, and a free looks for the magic number of the header and for both red zones first.

Pages come from three places, none of which is asked whether it succeeded: a frame from `phys_base_alloc`, an address
from the growing bitmap, and an entry of the page table and of the tree of areas that join them. Memory is physical
here and is reached through the page table, so that two addresses which are given the same frame share their bytes; an
access to an address without a frame is a fault, and the call does not return (`none`).
-/

import Voxia.Lib.PagedMemory
import Voxia.Cpu.Paging
import Voxia.Memory.GrowBitmap
import Voxia.Memory.PhysBase
import Voxia.Memory.VmaPage

namespace Voxia.Memory

open Function Lib Option Bytes GrowBitmap
open Cpu (PageDir pagingMmap pagingMultipleMmap pagingMultipleUnmap pte present physOf pagePresent
  pageWritable pageUser pageNoExecute)

/-! ### Constants and size classes -/

def kallocRedzoneSize : Nat := 16

def kallocRedzoneMagic : Nat := 0xFDEAABEE

/-- `sizeof(kalloc_metadata_t)`: the size at offset 0, the magic number at 8, padding at 12. -/
def kallocMetadataSize : Nat := 16

def kallocBaseAddr : Nat := vmaRegionA + 5 * regionSize

def metadataOverhead : Nat := kallocMetadataSize + 2 * kallocRedzoneSize

inductive Bucket
  | b64
  | b128
  | b256
  | b512
  | b1024
  | b2048
  deriving DecidableEq, Repr

def Bucket.size : Bucket → Nat
  | b64 => 64
  | b128 => 128
  | b256 => 256
  | b512 => 512
  | b1024 => 1024
  | b2048 => 2048

/-- The comparisons that choose a class, on `size + metadata_overhead`; `none` is the large path. -/
def bucketOf (total : Nat) : Option Bucket :=
  if total ≤ 64 then some .b64
  else if total ≤ 128 then some .b128
  else if total ≤ 256 then some .b256
  else if total ≤ 512 then some .b512
  else if total ≤ 1024 then some .b1024
  else if total ≤ 2048 then some .b2048
  else none

/-! ### The heap and its memory -/

/-- `struct kalloc_cpu_cache`: the head and the number of slots of every list. -/
structure KallocCpuCache where
  head : Bucket → Nat
  count : Bucket → Nat

/-- The heap with all it is built on. `ram` holds the bytes by physical address; the addresses of the
heap belong to the part of the page table that all address spaces share. -/
structure KernelHeap where
  phys : PhysBase
  vaddrBitmap : GrowBitmap
  vmm : VmaTree
  pageDir : PageDir
  ram : Bytes
  cpuCaches : Nat → KallocCpuCache

def translate (dir : PageDir) (v : Nat) : Option Nat :=
  let entry := pte 3 dir (u64 v)
  if present entry then some (physOf entry + v % blockSize) else none

namespace KernelHeap

def store (heap : KernelHeap) (v : Nat) (block : Bytes) (count : Nat) : Option KernelHeap :=
  (Paged.store blockSize (translate heap.pageDir) heap.ram v block count).map fun ram => { heap with ram := ram }

def load (heap : KernelHeap) (n v : Nat) : Option Nat := Paged.loadWord (translate heap.pageDir) heap.ram n v

def setCache (heap : KernelHeap) (core : Nat) (bucket : Bucket) (head count : Nat) : KernelHeap :=
  { heap with
    cpuCaches := update heap.cpuCaches core
      ⟨update (heap.cpuCaches core).head bucket head,
        update (heap.cpuCaches core).count bucket count⟩ }

end KernelHeap

/-- `setup_redzone(ptr, KALLOC_REDZONE_SIZE)`: the magic number, word after word. -/
def setupRedzone (heap : KernelHeap) (ptr : Nat) : Option KernelHeap :=
  heap.store ptr (fun i => littleEndian kallocRedzoneMagic (i % 4)) kallocRedzoneSize

/-- The loop of `check_redzone` over the `n` words from `p` on. -/
def checkWords (heap : KernelHeap) : Nat → Nat → Option Bool
  | 0, _ => some true
  | n + 1, p => do
    let word ← heap.load 4 p
    if word ≠ kallocRedzoneMagic then some false else checkWords heap n (p + 4)

def checkRedzone (heap : KernelHeap) (ptr : Nat) : Option Bool := checkWords heap (kallocRedzoneSize / 4) ptr

/-- The layout of a block, `[metadata] [red_before] [data] [red_after]`, written from `slot` on. -/
def layOut (heap : KernelHeap) (slot size : Nat) : Option (Nat × KernelHeap) := do
  let heap ← heap.store slot (littleEndian size) 8
  let heap ← heap.store (slot + 8) (littleEndian kallocRedzoneMagic) 4
  let redBefore := u64 (slot + kallocMetadataSize)
  let heap ← setupRedzone heap redBefore
  let data := u64 (redBefore + kallocRedzoneSize)
  let redAfter := u64 (data + size)
  let heap ← setupRedzone heap redAfter
  some (data, heap)

/-! ### Pages -/

/-- The allocator after `n` calls of `phys_base_alloc(1)`. -/
def takeFrames : Nat → PhysBase → PhysBase
  | 0, phys => phys
  | n + 1, phys => takeFrames n (physBaseAlloc phys 1).2

/-- `vaddr_alloc_locked(page_count)`: a growth of the bitmap takes one frame for every new block. -/
def vaddrAllocLocked (heap : KernelHeap) (pageCount : Nat) : Nat × KernelHeap :=
  let result := growBitmapAllocPages heap.vaddrBitmap pageCount fun i => (physBaseAlloc (takeFrames i heap.phys) 1).1
  (result.1, { heap with
    vaddrBitmap := result.2
    phys := takeFrames (result.2.activeBlocks - heap.vaddrBitmap.activeBlocks) heap.phys })

section Calls

-- the sentinel of the tree of areas, a bound on the steps in it, and the node its slab cache returns for a
-- registration
variable (nil fuel node : Nat)

def vmaRegister (heap : KernelHeap) (phys virt size flags : Nat) : Option KernelHeap :=
  (vmaRegisterLocked nil fuel heap.vmm node phys virt size flags).map fun vmm => { heap with vmm := vmm }

def allocPageLocked (heap : KernelHeap) : Option (Nat × KernelHeap) := do
  let (phys, physBase) := physBaseAlloc heap.phys 1
  let (virt, heap) := vaddrAllocLocked { heap with phys := physBase } 1
  let heap := { heap with pageDir := pagingMmap heap.pageDir virt phys (pagePresent ||| pageWritable ||| pageUser) }
  let heap ← vmaRegister nil fuel node heap phys virt blockSize (pagePresent ||| pageWritable ||| pageNoExecute)
  some (virt, heap)

/-- The loop of `refill_N`: `rest` slots from slot `i` of the page on are pushed. -/
def pushSlots (core : Nat) (bucket : Bucket) (page : Nat) : Nat → Nat → KernelHeap → Option KernelHeap
  | 0, _, heap => some heap
  | rest + 1, i, heap => do
    let slot := u64 (page + i * bucket.size)
    let heap ← heap.store slot (littleEndian ((heap.cpuCaches core).head bucket)) 8
    pushSlots core bucket page rest (i + 1)
      (heap.setCache core bucket slot ((heap.cpuCaches core).count bucket + 1))

def refill (core : Nat) (bucket : Bucket) (heap : KernelHeap) : Option KernelHeap := do
  let (page, heap) ← allocPageLocked nil fuel node heap
  pushSlots core bucket page (blockSize / bucket.size) 0 heap

section

variable (core : Nat) (heap : KernelHeap)

def kallocSlabAlloc (bucket : Bucket) (heap : KernelHeap) (size : Nat) : Option (Nat × KernelHeap) := do
  let heap ← if (heap.cpuCaches core).count bucket = 0 then refill nil fuel node core bucket heap else some heap
  let slot := (heap.cpuCaches core).head bucket
  let next ← heap.load 8 slot
  layOut (heap.setCache core bucket next ((heap.cpuCaches core).count bucket - 1)) slot size

/-- `ALIGN_UP(total_size, BLOCK_SIZE) / BLOCK_SIZE`. -/
def pageCountOf (total : Nat) : Nat := alignUp total blockSize / blockSize

def kallocLarge (size : Nat) : Option (Nat × KernelHeap) := do
  let pageCount := pageCountOf (u64 (size + metadataOverhead))
  let (phys, physBase) := physBaseAlloc heap.phys pageCount
  let (virt, heap) := vaddrAllocLocked { heap with phys := physBase } pageCount
  let heap :=
    { heap with pageDir := pagingMultipleMmap heap.pageDir virt phys pageCount (pagePresent ||| pageWritable) }
  let heap ← vmaRegister nil fuel node heap phys virt (u64 (pageCount * blockSize))
    (pagePresent ||| pageWritable ||| pageNoExecute)
  layOut heap virt size

/-- `kalloc(size)` on a core: the pointer, `0` for `NULL`. -/
def kalloc (size : Nat) : Option (Nat × KernelHeap) :=
  if size = 0 then some (0, heap)
  else
    match bucketOf (u64 (size + metadataOverhead)) with
    | some bucket => kallocSlabAlloc nil fuel node core bucket heap size
    | none => kallocLarge nil fuel node heap size

def freeSlot (bucket : Bucket) (heap : KernelHeap) (slot : Nat) : Option KernelHeap := do
  let heap ← heap.store slot (fun _ => 0) bucket.size
  let heap ← heap.store slot (littleEndian ((heap.cpuCaches core).head bucket)) 8
  some (heap.setCache core bucket slot ((heap.cpuCaches core).count bucket + 1))

/-- Whole pages go back, to the frame the tree of areas has for them. -/
def freePages (slot total : Nat) : Option KernelHeap := do
  let heap ← heap.store slot (fun _ => 0) total
  let found ← vmaSearch nil fuel heap.vmm slot
  match if found = nil then none else (heap.vmm.heap found).data with
  | none => some heap
  | some area =>
    let pageCount := pageCountOf total
    let vmm ← vmaUnregister nil fuel heap.vmm slot
    some { heap with
      phys := vxPhysBaseFree heap.phys area.physAddress pageCount
      pageDir := pagingMultipleUnmap heap.pageDir slot pageCount
      vmm := vmm
      vaddrBitmap := growBitmapFreePages heap.vaddrBitmap slot pageCount }

/-- What `kfree` and `kfree2` share: `classSize` is the size that chooses the path, given the one in the
header. -/
def kfreeBy (classSize : Nat → Nat) (core : Nat) (heap : KernelHeap) (ptr : Nat) : Option KernelHeap := do
  let slot := u64 (ptr + (2 ^ 64 - (kallocMetadataSize + kallocRedzoneSize)))
  let magic ← heap.load 4 (slot + 8)
  if magic ≠ kallocRedzoneMagic then some heap
  else
    let size ← heap.load 8 slot
    let before ← checkRedzone heap (u64 (slot + kallocMetadataSize))
    if !before then some heap
    else
      let after ← checkRedzone heap (u64 (ptr + size))
      if !after then some heap
      else
        let total := u64 (classSize size + metadataOverhead)
        match bucketOf total with
        | some bucket => freeSlot core bucket heap slot
        | none => freePages nil fuel heap slot total

def kfree (ptr size : Nat) : Option KernelHeap :=
  if ptr = 0 ∨ size = 0 then some heap else kfreeBy nil fuel (fun _ => size) core heap ptr

def kfree2 (ptr : Nat) : Option KernelHeap :=
  if ptr = 0 then some heap else kfreeBy nil fuel id core heap ptr

end

end Calls

/-- `INIT(kalloc)`: the address bitmap is set up behind the bookkeeping of the physical allocator and takes its
first frame; the lists are empty. -/
def kallocInit (phys : PhysBase) (memory : Nat → FrameWords) (vmm : VmaTree) (dir : PageDir) (ram : Bytes)
    (metadataSize : Nat) : KernelHeap where
  phys := (physBaseAlloc phys 1).2
  vaddrBitmap := growBitmapInit memory (u64 (kallocBaseAddr + alignUp metadataSize blockSize)) blockSize 32768
    (physBaseAlloc phys 1).1
  vmm := vmm
  pageDir := dir
  ram := ram
  cpuCaches := fun _ => ⟨fun _ => 0, fun _ => 0⟩

/-! ### What the steps leave alone -/

section Frames

variable {heap heap' : KernelHeap}

theorem store_frame {v count : Nat} {block : Bytes} (stored : heap.store v block count = some heap') :
    ∃ ram, heap' = { heap with ram := ram } := by
  obtain ⟨ram, -, rfl⟩ := map_eq_some_iff.mp stored
  exact ⟨ram, rfl⟩

theorem layOut_frame {slot size data : Nat} (laid : layOut heap slot size = some (data, heap')) :
    data = u64 (u64 (slot + kallocMetadataSize) + kallocRedzoneSize) ∧ ∃ ram, heap' = { heap with ram := ram } := by
  simp only [layOut, setupRedzone, bind_eq_some, some.injEq,
    Prod.mk.injEq] at laid
  obtain ⟨first, sized, second, marked, third, before, last, after, rfl, rfl⟩ := laid
  obtain ⟨_, rfl⟩ := store_frame sized
  obtain ⟨_, rfl⟩ := store_frame marked
  obtain ⟨_, rfl⟩ := store_frame before
  obtain ⟨ram, rfl⟩ := store_frame after
  exact ⟨rfl, ram, rfl⟩

theorem pushSlots_frame {core : Nat} {bucket : Bucket} {page rest i : Nat}
    (pushed : pushSlots core bucket page rest i heap = some heap') :
    (∃ ram caches, heap' = { heap with ram := ram, cpuCaches := caches }) ∧
      (0 < rest → (heap'.cpuCaches core).head bucket = u64 (page + (i + rest - 1) * bucket.size)) := by
  induction rest generalizing i heap with
  | zero =>
    obtain rfl := some.inj pushed
    exact ⟨⟨_, _, rfl⟩, fun impossible => absurd impossible (Nat.lt_irrefl 0)⟩
  | succ rest ih =>
    simp only [pushSlots, bind_eq_some] at pushed
    obtain ⟨linked, stored, pushed⟩ := pushed
    obtain ⟨_, rfl⟩ := store_frame stored
    obtain ⟨⟨ram, caches, same⟩, head⟩ := ih pushed
    refine ⟨⟨ram, caches, same⟩, fun _ => ?_⟩
    rcases Nat.eq_zero_or_pos rest with rfl | more
    · obtain rfl := some.inj pushed
      simp [KernelHeap.setCache]
    · rw [head more, show i + 1 + rest - 1 = i + (rest + 1) - 1 by omega]

end Frames

/-! ### Failing without a trace -/

/-- The address bitmap can hand out `n` pages: a block has a run of them, or there can be more blocks. -/
def HasRoom (gb : GrowBitmap) (n : Nat) : Prop :=
  0 < n ∧ n ≤ growBitmapBlockPages ∧
    ((∃ b < gb.activeBlocks, ¬ NoRun (gb.blockBits b) n growBitmapBlockPages) ∨ gb.activeBlocks < gb.maxBlocks)

theorem activeBlocks_growBlocks (pageCount : Nat) (frames : Nat → Nat) (rest i : Nat) (gb : GrowBitmap) :
    (growBlocks pageCount frames rest i gb).activeBlocks = gb.activeBlocks + rest := by
  induction rest generalizing i gb with
  | zero => rfl
  | succ rest ih =>
    rw [growBlocks, ih]
    simp only [addBlock]
    omega

variable {gb : GrowBitmap} {n : Nat}

theorem growBitmapAllocPages_noRoom (frames : Nat → Nat) (full : ¬ HasRoom gb n) :
    growBitmapAllocPages gb n frames = (0, gb) := by
  unfold growBitmapAllocPages
  by_cases odd : n = 0 ∨ growBitmapBlockPages < n
  · rw [if_pos odd]
  · rw [if_neg odd]
    have positive : 0 < n := by omega
    have search := scanBlocks_spec gb positive gb.activeBlocks 0 (Nat.zero_add _)
    split
    · next b startBit found =>
      rw [found] at search
      exact absurd ⟨positive, by omega, .inl ⟨b, search.2.1, search.2.2.not_noRun⟩⟩ full
    · exact if_neg fun more => full ⟨positive, by omega, .inr more⟩

theorem growBitmapAllocPages_changes (frames : Nat → Nat) (active : 0 < gb.activeBlocks)
    (room : HasRoom gb n) : (growBitmapAllocPages gb n frames).2 ≠ gb := by
  obtain ⟨positive, small, somewhere⟩ := room
  have search := scanBlocks_spec gb positive gb.activeBlocks 0 (Nat.zero_add _)
  unfold growBitmapAllocPages
  rw [if_neg (by omega)]
  intro same
  split at same
  · next b startBit found =>
    rw [found] at search
    -- the first bit of the run was clear and is set
    have run := search.2.2
    have after := congrArg (fun gb => blockBits gb b startBit) same
    simp only [blockBits, update_self, wordBit_markBits] at after
    have inside : (⟨startBit, n⟩ : Span).Covers startBit := ⟨le_rfl, by simp only; omega⟩
    rw [fill_of_covers inside] at after
    have clear := run.clear startBit le_rfl (by omega)
    rw [blockBits] at clear
    rw [clear] at after
    exact absurd after (by decide)
  · next missing =>
    rw [missing] at search
    have more : gb.activeBlocks < gb.maxBlocks := by
      rcases somewhere with ⟨b, below, run⟩ | more
      · exact absurd (search b (Nat.zero_le b) below) run
      · exact more
    rw [if_pos more] at same
    have blocks := congrArg activeBlocks same
    rw [activeBlocks_growBlocks] at blocks
    have added : 0 < blocksToAdd gb := by
      unfold blocksToAdd
      split_ifs <;> omega
    omega

/-- The pages a call has to obtain: one for an empty list, all of them for a large block. -/
def pagesNeeded (core : Nat) (heap : KernelHeap) (size : Nat) : Option Nat :=
  if size = 0 then none
  else
    match bucketOf (u64 (size + metadataOverhead)) with
    | some bucket => if (heap.cpuCaches core).count bucket = 0 then some 1 else none
    | none => some (pageCountOf (u64 (size + metadataOverhead)))

/-- `phys_base_alloc` finds no run of the pages a call needs, or the address bitmap has no room for them. -/
def Starved (core : Nat) (heap : KernelHeap) (size : Nat) : Prop :=
  ∃ n, pagesNeeded core heap size = some n ∧
    (NoRun (bitUsed heap.phys.bitmap) n heap.phys.totalBlocks ∨ ¬ HasRoom heap.vaddrBitmap n)

/-- **A clean failure**: `NULL`, and all bookkeeping as before. -/
def CleanFailure (nil fuel node core : Nat) (heap : KernelHeap) (size : Nat) : Prop :=
  ∃ heap', kalloc nil fuel node core heap size = some (0, heap') ∧ heap'.phys = heap.phys ∧
    heap'.vaddrBitmap = heap.vaddrBitmap ∧ heap'.vmm = heap.vmm ∧ heap'.pageDir = heap.pageDir ∧
    heap'.cpuCaches = heap.cpuCaches

section Starved

variable {nil fuel node core : Nat} {heap heap' : KernelHeap}

theorem allocPageLocked_frame {virt : Nat} (taken : allocPageLocked nil fuel node heap = some (virt, heap')) :
    ∃ frames, growBitmapAllocPages heap.vaddrBitmap 1 frames = (virt, heap'.vaddrBitmap) := by
  simp only [allocPageLocked, vmaRegister, bind_eq_some, map_eq_some_iff,
    some.injEq, Prod.mk.injEq] at taken
  obtain ⟨_, ⟨vmm, -, rfl⟩, rfl, rfl⟩ := taken
  exact ⟨_, rfl⟩

/-- An allocation from an empty list: the last slot of a page at the address the bitmap returned. -/
theorem kallocSlabAlloc_empty {bucket : Bucket} {size p : Nat} (empty : (heap.cpuCaches core).count bucket = 0)
    (result : kallocSlabAlloc nil fuel node core bucket heap size = some (p, heap')) :
    ∃ frames page, growBitmapAllocPages heap.vaddrBitmap 1 frames = (page, heap'.vaddrBitmap) ∧
      p = u64 (u64 (u64 (page + (blockSize / bucket.size - 1) * bucket.size) + kallocMetadataSize) +
        kallocRedzoneSize) := by
  simp only [kallocSlabAlloc, if_pos empty, refill, bind_eq_some,
    Prod.exists] at result
  obtain ⟨filled, ⟨page, mapped, taken, pushed⟩, next, -, laid⟩ := result
  obtain ⟨frames, alloc⟩ := allocPageLocked_frame taken
  obtain ⟨⟨ram, caches, rfl⟩, head⟩ := pushSlots_frame pushed
  obtain ⟨rfl, ram', rfl⟩ := layOut_frame laid
  have some : 0 < blockSize / bucket.size := by cases bucket <;> decide
  have last := head some
  rw [Nat.zero_add] at last
  exact ⟨frames, page, alloc, by rw [last]⟩

theorem kallocLarge_frame {size p : Nat} (result : kallocLarge nil fuel node heap size = some (p, heap')) :
    ∃ frames virt, growBitmapAllocPages heap.vaddrBitmap (pageCountOf (u64 (size + metadataOverhead))) frames =
        (virt, heap'.vaddrBitmap) ∧
      p = u64 (u64 (virt + kallocMetadataSize) + kallocRedzoneSize) := by
  simp only [kallocLarge, vmaRegister, bind_eq_some, map_eq_some_iff] at result
  obtain ⟨_, ⟨vmm, -, rfl⟩, laid⟩ := result
  obtain ⟨rfl, ram, rfl⟩ := layOut_frame laid
  exact ⟨_, _, rfl, rfl⟩

/-- **Where a page or an address cannot be found, the failure is not clean**: without an address the block is
laid out at address 0 and its address is not `NULL`; without a frame the address stays taken. -/
theorem kalloc_starved_not_clean (nil fuel node core : Nat) (heap : KernelHeap) (size : Nat)
    (active : 0 < heap.vaddrBitmap.activeBlocks) (starved : Starved core heap size) :
    ¬ CleanFailure nil fuel node core heap size := by
  rintro ⟨heap', result, -, sameBitmap, -⟩
  obtain ⟨n, needed, -⟩ := starved
  have positive : size ≠ 0 := by
    rintro rfl
    exact absurd needed (by simp [pagesNeeded])
  rw [pagesNeeded, if_neg positive] at needed
  rw [kalloc, if_neg positive] at result
  -- in both paths the bitmap was asked, and the pointer is not `NULL` if it has returned 0
  have asked : ∃ frames virt, growBitmapAllocPages heap.vaddrBitmap n frames = (virt, heap'.vaddrBitmap) ∧ virt ≠ 0 := by
    split at result
    · next bucket class' =>
      rw [class'] at needed
      simp only at needed
      split_ifs at needed with empty
      obtain rfl := some.inj needed
      obtain ⟨frames, page, alloc, pointer⟩ := kallocSlabAlloc_empty empty result
      refine ⟨frames, page, alloc, ?_⟩
      rintro rfl
      revert pointer
      cases bucket <;> decide
    · next class' =>
      rw [class'] at needed
      obtain rfl := some.inj needed
      obtain ⟨frames, virt, alloc, pointer⟩ := kallocLarge_frame result
      refine ⟨frames, virt, alloc, ?_⟩
      rintro rfl
      exact absurd pointer (by decide)
  obtain ⟨frames, virt, alloc, found⟩ := asked
  by_cases room : HasRoom heap.vaddrBitmap n
  · have changed := growBitmapAllocPages_changes frames active room
    rw [alloc] at changed
    exact changed sameBitmap
  · rw [growBitmapAllocPages_noRoom frames room] at alloc
    exact found (Prod.mk.inj alloc).1.symm

/-- A heap right after `INIT(kalloc)`, which has taken the last free frame. -/
def exhaustedHeap : KernelHeap :=
  kallocInit ⟨2 * blockSize, fun _ => 1#8⟩ (fun _ _ => 0)
    (createVmmPage 1 (initSentinel 1 fun _ => ⟨none, 0, 0, 0, .red⟩)) (.empty 3) (fun _ => 0) 1

theorem exhaustedHeap_starved {size n : Nat} (needed : pagesNeeded 0 exhaustedHeap size = some n) (some' : 0 < n) :
    Starved 0 exhaustedHeap size := by
  refine ⟨n, needed, .inl fun first inside => ?_⟩
  have two : exhaustedHeap.phys.totalBlocks = 2 := by decide
  have used : ∀ i < 2, bitUsed exhaustedHeap.phys.bitmap i := by decide
  exact ⟨first, le_rfl, by omega, used first (by omega)⟩

/-- A refill without a frame. -/
theorem kalloc_starved_not_clean_refill : Starved 0 exhaustedHeap 16 ∧ ¬ CleanFailure 1 4 2 0 exhaustedHeap 16 :=
  have starved := exhaustedHeap_starved (show pagesNeeded 0 exhaustedHeap 16 = some 1 by decide) (by decide)
  ⟨starved, kalloc_starved_not_clean 1 4 2 0 exhaustedHeap 16 (by decide) starved⟩

/-- **A page without a frame**: the block is laid out in frame 0, and its address is returned. -/
theorem kalloc_exhausted_frameZero : Starved 0 exhaustedHeap 3000 ∧
    ¬ CleanFailure 1 4 2 0 exhaustedHeap 3000 ∧
    ((kalloc 1 4 2 0 exhaustedHeap 3000).map fun result => (result.1, translate result.2.pageDir result.1)) =
      some (kallocBaseAddr + blockSize + 32, some 32) := by
  have starved := exhaustedHeap_starved (show pagesNeeded 0 exhaustedHeap 3000 = some 1 by decide) (by decide)
  have returned : ((kalloc 1 4 2 0 exhaustedHeap 3000).map fun result =>
      (result.1, translate result.2.pageDir result.1)) = some (kallocBaseAddr + blockSize + 32, some 32) := by
    decide +kernel
  refine ⟨starved, ?_, returned⟩
  rintro ⟨heap', null, -⟩
  rw [null, map_some, some.injEq, Prod.mk.injEq] at returned
  exact absurd (show 0 = kallocBaseAddr + blockSize + 32 from returned.1) (by decide)

end Starved

end Voxia.Memory
