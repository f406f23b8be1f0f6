/-
**Runs of the kernel heap.**

A run is made of allocations and frees by any core, in any order, and of the writes of the owners to their blocks. Its
history says which blocks are in use (`live`), which small ones have been freed and not handed out again (`freed`),
and what their owners have stored (`stored`). The heap stays sound as long as no size wraps and both page allocators
have what they are asked for (`Served`).
-/

import Voxia.Memory.KallocCalls

namespace Voxia.Memory

open Lib List Nat HeapContents Bytes

/-! ### Histories -/

inductive HeapEvent
  | alloc (core size p : Nat)
  | free (core p : Nat)
  | write (a : Nat) (byte : UInt8)

/-- The blocks in use, with the sizes they were asked for; the newest event is in front. -/
def live : List HeapEvent → List (Nat × Nat)
  | [] => []
  | .alloc _ size p :: history => if p = 0 then live history else (p, size) :: live history
  | .free _ p :: history => (live history).filter fun block => block.1 ≠ p
  | .write _ _ :: history => live history

def Bucketed (size : Nat) : Bool := (bucketOf (u64 (size + metadataOverhead))).isSome

/-- The blocks of bucketed sizes that were freed and whose slot was not handed out again. -/
def freed : List HeapEvent → List Nat
  | [] => []
  | .alloc _ _ p :: history => (freed history).filter (· ≠ p)
  | .free _ p :: history =>
    if (live history).any fun block => block.1 = p ∧ Bucketed block.2 then p :: freed history else freed history
  | .write _ _ :: history => freed history

/-- What the owner of an address has stored there since its block was handed out. -/
def stored : List HeapEvent → Nat → Option UInt8
  | [], _ => none
  | .alloc _ size p :: history, a => if p ≤ a ∧ a < p + size then none else stored history a
  | .free _ _ :: history, a => stored history a
  | .write a' byte :: history, a => if a = a' then some byte else stored history a

/-! ### Runs -/

def heapBase (metadataSize : Nat) : Nat := u64 (kallocBaseAddr + alignUp metadataSize blockSize)

/-- What `INIT(kalloc)` finds: a frame for the address bitmap, physical memory within reach of the page table, the
bookkeeping of the physical allocator within its region, and no area of the kernel in the window of the heap. -/
structure Boot (nil : Nat) (phys : PhysBase) (vmm : VmaTree) (metadataSize : Nat) : Prop where
  frame : (physBaseAlloc phys 1).1 ≠ 0
  memory : phys.higherBaseLength ≤ 2 ^ 52
  metadata : metadataSize ≤ regionSize
  tree : ∃ t, VmaHolds nil vmm t ∧ ∀ area ∈ t.toList.map Tree.Cell.data,
    heapBase metadataSize ≤ area.startAddress → heapBase metadataSize + 2 ^ 35 ≤ area.startAddress

/-- **The runs of the heap** in which every allocation meets `served`. A free names a block in use; so does a write,
which stays inside of it. -/
inductive HeapRun (nil base : Nat) (served : Nat → KernelHeap → Nat → Prop) : KernelHeap → List HeapEvent → Prop
  | init {phys : PhysBase} {vmm : VmaTree} {metadataSize : Nat} (memory : Nat → FrameWords) (dir : Cpu.PageDir)
      (ram : Bytes) (boot : Boot nil phys vmm metadataSize) (begins : base = heapBase metadataSize) :
      HeapRun nil base served (kallocInit phys memory vmm dir ram metadataSize) []
  | alloc {heap heap' : KernelHeap} {history : List HeapEvent} {core size fuel node p : Nat}
      (run : HeapRun nil base served heap history) (word : size < 2 ^ 64) (granted : served core heap size)
      (ready : NodeReady nil fuel node heap) (result : kalloc nil fuel node core heap size = some (p, heap')) :
      HeapRun nil base served heap' (.alloc core size p :: history)
  | free {heap heap' : KernelHeap} {history : List HeapEvent} {core fuel p size : Nat}
      (run : HeapRun nil base served heap history) (owned : (p, size) ∈ live history)
      (bound : TreeBound nil fuel heap) (result : kfree2 nil fuel core heap p = some heap') :
      HeapRun nil base served heap' (.free core p :: history)
  | freeSized {heap heap' : KernelHeap} {history : List HeapEvent} {core fuel p size : Nat}
      (run : HeapRun nil base served heap history) (owned : (p, size) ∈ live history)
      (bound : TreeBound nil fuel heap) (result : kfree nil fuel core heap p size = some heap') :
      HeapRun nil base served heap' (.free core p :: history)
  | write {heap heap' : KernelHeap} {history : List HeapEvent} {p size i : Nat} {byte : UInt8}
      (run : HeapRun nil base served heap history) (owned : (p, size) ∈ live history) (inside : i < size)
      (result : heap.store (p + i) (fun _ => byte) 1 = some heap') :
      HeapRun nil base served heap' (.write (p + i) byte :: history)

/-- No wrap in `size + metadata_overhead`, and the frames and addresses the call needs are there. The frames of page
tables, which `paging_mmap` takes from the same allocator, are not counted. -/
def Served (core : Nat) (heap : KernelHeap) (size : Nat) : Prop :=
  size + metadataOverhead < 2 ^ 64 ∧ ∀ n, pagesNeeded core heap size = some n → Granted heap n

/-! ### The first state -/

variable {metadataSize nil : Nat} {phys : PhysBase} {vmm : VmaTree}

theorem heapBase_bounds (small : metadataSize ≤ regionSize) :
    heapBase metadataSize % 4096 = 0 ∧ 2 ^ 64 - 2 ^ 47 ≤ heapBase metadataSize ∧
      heapBase metadataSize + 2 ^ 35 ≤ 2 ^ 64 := by
  unfold regionSize at small
  have up : alignUp metadataSize blockSize = (metadataSize + 4095) / 4096 * 4096 := alignUp_blockSize (by omega)
  have base : kallocBaseAddr = 0xffffff9400000000 := by decide
  unfold heapBase u64
  omega

theorem Boot.frameZero (boot : Boot nil phys vmm metadataSize) : bitUsed phys.bitmap 0 := by
  by_contra free
  have found := boot.frame
  rcases physBaseAlloc_spec phys one_pos with ⟨null, -⟩ | ⟨start, run, taken⟩
  · rw [null] at found
    exact found rfl
  · rw [taken] at found
    have behind : 0 < start := pos_of_ne_zero fun zero => found (by rw [zero, zero_mul])
    obtain ⟨j, low, high, used⟩ := run.least 0 behind
    obtain rfl : j = 0 := by omega
    exact free used

/-- The heap starts with no page. -/
theorem Boot.pages (boot : Boot nil phys vmm metadataSize) (memory : Nat → FrameWords) (dir : Cpu.PageDir)
    (ram : Bytes) : PagesInv nil (heapBase metadataSize) (kallocInit phys memory vmm dir ram metadataSize) [] := by
  obtain ⟨aligned, low, high⟩ := heapBase_bounds boot.metadata
  obtain ⟨start, behind, within, clear, taken⟩ := physBaseAlloc_taken one_pos boot.frame
  obtain ⟨t, holds, elsewhere⟩ := boot.tree
  refine ⟨rfl, rfl, aligned, low, ?_, ?_, by simp, ?_, by simp, t, holds, by simp, fun area member above below => ?_⟩
  · change (physBaseAlloc phys 1).2.higherBaseLength ≤ 2 ^ 52
    rw [taken]
    exact boot.memory
  · refine growBitmapInit_inv boot.frame ⟨?_, show 0 < blockSize by decide, ?_⟩
    · change 0 < heapBase metadataSize
      omega
    · have blocks : maxBlocksFor 32768 * growBitmapBlockPages * blockSize = 2 ^ 35 := by decide
      change heapBase metadataSize + maxBlocksFor 32768 * growBitmapBlockPages * blockSize ≤ 2 ^ 64
      rw [blocks]
      exact high
  · refine ⟨bitUsed phys.bitmap, [⟨start, 1⟩], boot.frameZero, ?_, fun b active => ?_⟩
    · change Ledger _ (bitUsed (physBaseAlloc phys 1).2.bitmap) _
      rw [taken, bitUsed_setBits]
      exact (Ledger.init _).alloc one_pos clear
    · obtain rfl : b = 0 := lt_one_iff.mp active
      have frame : (kallocInit phys memory vmm dir ram metadataSize).vaddrBitmap.blocksPhys 0 = start * blockSize := by
        change (physBaseAlloc phys 1).1 = _
        rw [taken]
      rw [frame, show start * blockSize / 4096 = start from Nat.mul_div_cancel _ (by decide)]
      exact mem_singleton_self _
  · have := elsewhere area member above
    omega

/-! ### The places of the blocks -/

/-- A block of `size` bytes in the slot or the pages at `start`, `len` bytes of them. -/
inductive HeapContents.Placed (base : Nat) (contents : HeapContents) : Nat → Nat → Nat → Prop
  | small {block : SmallBlock} (member : block ∈ contents.small) :
      Placed base contents block.slot block.bucket.size block.size
  | large {block : LargeBlock} (member : block ∈ contents.large) :
      Placed base contents (block.run.virt base) (block.run.pages * 4096) block.size

theorem HeapContents.placed_iff {base : Nat} {contents : HeapContents} {s l z : Nat} :
    contents.Placed base s l z ↔
      (∃ block ∈ contents.small, s = block.slot ∧ l = block.bucket.size ∧ z = block.size) ∨
        ∃ block ∈ contents.large, s = block.run.virt base ∧ l = block.run.pages * 4096 ∧ z = block.size := by
  constructor
  · rintro (⟨member⟩ | ⟨member⟩)
    · exact .inl ⟨_, member, rfl, rfl, rfl⟩
    · exact .inr ⟨_, member, rfl, rfl, rfl⟩
  · rintro (⟨block, member, rfl, rfl, rfl⟩ | ⟨block, member, rfl, rfl, rfl⟩)
    · exact .small member
    · exact .large member

section Places

variable {nil base : Nat} {heap : KernelHeap} {contents : HeapContents} {start len size : Nat}

theorem HeapInv.placed_fits (inv : HeapInv nil base heap contents) (placed : contents.Placed base start len size) :
    size + 48 ≤ len ∧ start ≠ 0 ∧ start + len ≤ 2 ^ 64 := by
  cases placed with
  | small member =>
    have bounds := inv.slot_bounds (inv.smallSlots _ member)
    exact ⟨inv.small_fits member, bounds⟩
  | @large block member =>
    have bounds := inv.pages.bounds (large_mem member)
    have low := inv.pages.low
    have begins : base ≤ block.run.virt base := le_add_right _ _
    exact ⟨inv.large_fits member, by omega, bounds.2.2⟩

theorem HeapInv.placed_pos (inv : HeapInv nil base heap contents) (placed : contents.Placed base start len size) :
    0 < size := by
  cases placed with
  | small member => exact (inv.smallSize _ member).1
  | large member =>
    have large := bucketOf_none.mp (inv.largeSize _ member).1
    unfold metadataOverhead kallocMetadataSize kallocRedzoneSize at large
    omega

variable {i slot len' size' : Nat} {bucket : Bucket}

section

variable (inv : HeapInv nil base heap contents)

include inv

section

variable (placed : contents.Placed base start len size)

include placed

theorem HeapInv.placed_inside {a : Nat} (low : start ≤ a) (high : a < start + len) : HeapAddr base contents.runs a := by
  obtain ⟨i, rfl⟩ := Nat.exists_eq_add_of_le low
  cases placed with
  | small member => exact inv.slot_addr (inv.smallSlots _ member) (Nat.add_lt_add_iff_left.mp high)
  | large member => exact ⟨_, large_mem member, low, high⟩

theorem HeapInv.placed_slot_apart (isSlot : contents.IsSlot base slot bucket) (different : start ≠ slot) :
    RangesApart start len slot bucket.size := by
  cases placed with
  | small member => exact inv.slots_apart (inv.smallSlots _ member) isSlot different
  | large member => exact (inv.slot_large_apart isSlot member).symm

theorem HeapInv.placed_apart
    {start' : Nat} (placed' : contents.Placed base start' len' size') (different : start ≠ start') :
    RangesApart start len start' len' := by
  cases placed' with
  | small member => exact inv.placed_slot_apart placed (inv.smallSlots _ member) different
  | large member =>
    cases placed with
    | small member' =>
      exact (inv.placed_slot_apart (.large member) (inv.smallSlots _ member') (Ne.symm different)).symm
    | large member' =>
      exact inv.runs_apart (large_mem member') (large_mem member) fun same =>
        different (by rw [same])

theorem HeapInv.placed_free_apart {core : Nat} (member : slot ∈ contents.free core bucket) :
    RangesApart start len slot bucket.size := by
  have isSlot := inv.freeSlots core bucket slot member
  cases placed with
  | small member' =>
    exact inv.slots_apart (inv.smallSlots _ member') isSlot fun same => inv.smallNotFree _ member' core bucket (same ▸ member)
  | large member' => exact (inv.slot_large_apart isSlot member').symm

end

theorem HeapInv.slot_ne_large {block : SmallBlock} {other : LargeBlock}
    (member : block ∈ contents.small) (member' : other ∈ contents.large) : block.slot ≠ other.run.virt base := by
  intro same
  have apart := inv.slot_large_apart (inv.smallSlots block member) member'
  have positive := (inv.pages.bounds (large_mem member')).1
  have := block.bucket.size_pos
  unfold RangesApart at apart
  omega

theorem HeapInv.placed_unique (placed : contents.Placed base start len size)
    (placed' : contents.Placed base start len' size') : size' = size := by
  generalize equal : start = place at placed'
  cases placed with
  | small member =>
    cases placed' with
    | small member' => rw [inj_on_of_nodup_map inv.smallOnce member member' equal]
    | large member' => exact absurd equal (inv.slot_ne_large member member')
  | large member =>
    cases placed' with
    | small member' => exact absurd equal.symm (inv.slot_ne_large member' member)
    | large member' =>
      have sameRun := (inv.pages.distinct (large_mem member) (large_mem member')).2.2 equal.symm
      rw [inj_on_of_nodup_map inv.runs_nodup.2.2.2.1 member' member sameRun]

theorem HeapInv.vacant_data (placed : contents.Placed base start len size)
    (inside : i < size) : Vacant base contents (start + 32 + i) 1 := by
  have fits := inv.placed_fits placed
  have spares : ∀ start' len' size', contents.Placed base start' len' size' → Spares (start + 32 + i) 1 start' size' := by
    intro start' len' size' placed'
    have fits' := inv.placed_fits placed'
    by_cases same : start = start'
    · subst same
      have sizes := inv.placed_unique placed placed'
      unfold Spares RangesApart
      omega
    · exact ((inv.placed_apart placed placed' same).sub (by omega) (by omega)).spares fits'.1
  refine ⟨fun j less => ?_, fun core bucket slot member => ?_, fun block member => spares _ _ _ (.small member),
    fun block member => spares _ _ _ (.large member)⟩
  · exact inv.placed_inside placed (by omega) (by omega)
  · exact ((inv.placed_free_apart placed member).sub (by omega) (by omega)).link

end

end Places

/-! ### What a run knows of its heap -/

/-- **The heap of a run**: its blocks are those in use, the slots that were freed are on a list and without the magic
number, and the blocks hold what their owners have stored. -/
structure RunInv (nil base : Nat) (heap : KernelHeap) (history : List HeapEvent) (contents : HeapContents) : Prop where
  inOrder : HeapInv nil base heap contents
  settled : contents.loose = []
  blocks : ∀ p size, (p, size) ∈ live history ↔ ∃ start len, p = start + 32 ∧ contents.Placed base start len size
  once : (live history).Nodup
  unmarked : ∀ p ∈ freed history, ∃ slot core bucket, p = slot + 32 ∧ slot ∈ contents.free core bucket ∧
    heap.view.word32 (slot + 8) = 0
  kept : ∀ p size, (p, size) ∈ live history → ∀ a, p ≤ a → a < p + size → ∀ byte, stored history a = some byte →
    heap.view a = byte

section Steps

variable {nil base : Nat} {heap heap' : KernelHeap} {history : List HeapEvent} {contents contents' : HeapContents}

theorem word32_slot {slot : Nat} (bucket : Bucket)
    (same : ∀ i < bucket.size, heap'.view (slot + i) = heap.view (slot + i)) :
    heap'.view.word32 (slot + 8) = heap.view.word32 (slot + 8) := by
  have := bucket.size_pos
  refine word32_congr fun i less => ?_
  rw [add_assoc]
  exact same _ (by omega)

section Alloc

variable {start len size : Nat} (inv : RunInv nil base heap history contents) (inv' : HeapInv nil base heap' contents')
  (fresh : ∀ l z, ¬ contents.Placed base start l z)
  (places : ∀ s l z, contents'.Placed base s l z ↔ (s = start ∧ l = len ∧ z = size) ∨ contents.Placed base s l z)
  (lists : ∀ core bucket slot, slot ∈ contents.free core bucket → slot ≠ start → slot ∈ contents'.free core bucket)
  (same : ∀ a, HeapAddr base contents.runs a → a < start ∨ start + len ≤ a → heap'.view a = heap.view a)

include inv inv' fresh places lists same

/-- A block returned is recorded as live. -/
theorem RunInv.alloc (settled : contents'.loose = []) (core : Nat) :
    RunInv nil base heap' (.alloc core size (start + 32) :: history) contents' := by
  have new : contents'.Placed base start len size := (places start len size).mpr (.inl ⟨rfl, rfl, rfl⟩)
  have now : live (.alloc core size (start + 32) :: history) = (start + 32, size) :: live history := if_neg (by omega)
  refine ⟨inv', settled, fun p z => ?_, ?_, fun p member => ?_, fun p z member a low high byte known => ?_⟩
  · rw [now, mem_cons, inv.blocks p z, Prod.mk.injEq]
    constructor
    · rintro (⟨rfl, rfl⟩ | ⟨s, l, rfl, placed⟩)
      · exact ⟨start, len, rfl, new⟩
      · exact ⟨s, l, rfl, (places s l z).mpr (.inr placed)⟩
    · rintro ⟨s, l, rfl, placed⟩
      rcases (places s l z).mp placed with ⟨rfl, rfl, rfl⟩ | old
      · exact .inl ⟨rfl, rfl⟩
      · exact .inr ⟨s, l, rfl, old⟩
  · refine nodup_cons.mpr ⟨fun member => ?_, inv.once⟩
    obtain ⟨s, l, equal, placed⟩ := (inv.blocks _ _).mp member
    obtain rfl : start = s := by omega
    exact fresh l size placed
  · obtain ⟨member, other⟩ := mem_filter.mp member
    obtain ⟨slot, core', bucket, rfl, free, zero⟩ := inv.unmarked p member
    have different : slot ≠ start := by
      rintro rfl
      simp at other
    have free' := lists core' bucket slot free different
    refine ⟨slot, core', bucket, rfl, free', (word32_slot bucket fun i less => ?_).trans zero⟩
    have apart := inv'.placed_free_apart new free'
    unfold RangesApart at apart
    exact same _ (inv.inOrder.slot_addr (inv.inOrder.freeSlots core' bucket slot free) less) (by omega)
  · simp only [stored] at known
    split_ifs at known with inside
    rw [now, mem_cons, Prod.mk.injEq] at member
    rcases member with ⟨rfl, rfl⟩ | old
    · exact absurd ⟨low, high⟩ inside
    · rw [← inv.kept p z old a low high byte known]
      obtain ⟨s, l, rfl, placed⟩ := (inv.blocks p z).mp old
      have fits := inv.inOrder.placed_fits placed
      have there : HeapAddr base contents.runs a := inv.inOrder.placed_inside placed (by omega) (by omega)
      have different : s ≠ start := by
        rintro rfl
        exact fresh l z placed
      have apart := inv'.placed_apart ((places s l z).mpr (.inr placed)) new different
      unfold RangesApart at apart
      exact same a there (by omega)

end Alloc

section Free

variable {start len size : Nat} (inv : RunInv nil base heap history contents) (inv' : HeapInv nil base heap' contents')
  (placed : contents.Placed base start len size)
  (places : ∀ s l z, contents'.Placed base s l z ↔ contents.Placed base s l z ∧ s ≠ start)
  (lists : ∀ core bucket slot, slot ∈ contents.free core bucket → slot ∈ contents'.free core bucket)
  (marks : Bucketed size → ∃ core bucket, start ∈ contents'.free core bucket ∧ heap'.view.word32 (start + 8) = 0)
  (same : ∀ a, HeapAddr base contents'.runs a → a < start ∨ start + len ≤ a → heap'.view a = heap.view a)

include inv inv' placed places lists marks same

/-- A block freed is no longer recorded. -/
theorem RunInv.free (settled : contents'.loose = []) (core : Nat) :
    RunInv nil base heap' (.free core (start + 32) :: history) contents' := by
  have remaining : ∀ p z, (p, z) ∈ live (.free core (start + 32) :: history) ↔ (p, z) ∈ live history ∧ p ≠ start + 32 := by
    intro p z
    simp [live]
  refine ⟨inv', settled, fun p z => ?_, inv.once.filter _, fun p member => ?_, fun p z member a low high byte known => ?_⟩
  · rw [remaining, inv.blocks p z]
    constructor
    · rintro ⟨⟨s, l, rfl, old⟩, different⟩
      exact ⟨s, l, rfl, (places s l z).mpr ⟨old, fun equal => different (by rw [equal])⟩⟩
    · rintro ⟨s, l, rfl, now⟩
      obtain ⟨old, different⟩ := (places s l z).mp now
      exact ⟨⟨s, l, rfl, old⟩, by omega⟩
  · have old : ∀ q ∈ Memory.freed history, ∃ slot core bucket, q = slot + 32 ∧ slot ∈ contents'.free core bucket ∧
        heap'.view.word32 (slot + 8) = 0 := by
      intro q member
      obtain ⟨slot, core', bucket, rfl, free, zero⟩ := inv.unmarked q member
      have free' := lists core' bucket slot free
      refine ⟨slot, core', bucket, rfl, free', (word32_slot bucket fun i less => ?_).trans zero⟩
      have apart := inv.inOrder.placed_free_apart placed free
      unfold RangesApart at apart
      exact same _ (inv'.slot_addr (inv'.freeSlots core' bucket slot free') less) (by omega)
    rw [Memory.freed] at member
    split_ifs at member with bucketed
    · rcases mem_cons.mp member with rfl | member
      · obtain ⟨⟨q, z⟩, there, matches'⟩ := any_eq_true.mp bucketed
        obtain ⟨rfl, isSmall⟩ := of_decide_eq_true matches'
        obtain ⟨s, l, equal, placed'⟩ := (inv.blocks _ _).mp there
        obtain rfl : start = s := by omega
        rw [inv.inOrder.placed_unique placed placed'] at isSmall
        obtain ⟨core', bucket, free, zero⟩ := marks isSmall
        exact ⟨start, core', bucket, rfl, free, zero⟩
      · exact old p member
    · exact old p member
  · obtain ⟨member, different⟩ := (remaining p z).mp member
    rw [← inv.kept p z member a low high byte known]
    obtain ⟨s, l, rfl, old⟩ := (inv.blocks p z).mp member
    have different : s ≠ start := by omega
    have now := (places s l z).mpr ⟨old, different⟩
    have fits := inv'.placed_fits now
    have there : HeapAddr base contents'.runs a := inv'.placed_inside now (by omega) (by omega)
    have apart := inv.inOrder.placed_apart old placed different
    unfold RangesApart at apart
    exact same a there (by omega)

end Free

variable {p size core fuel : Nat}

section

variable (inv : RunInv nil base heap history contents)

include inv

theorem RunInv.write {i : Nat} {byte : UInt8}
    (owned : (p, size) ∈ live history) (inside : i < size) (result : heap.store (p + i) (fun _ => byte) 1 = some heap') :
    RunInv nil base heap' (.write (p + i) byte :: history) contents := by
  obtain ⟨start, len, rfl, placed⟩ := (inv.blocks p size).mp owned
  have fits := inv.inOrder.placed_fits placed
  obtain ⟨ram, returned, inv', view⟩ := inv.inOrder.write (fun _ => byte) (inv.inOrder.vacant_data placed inside)
  obtain rfl := Option.some.inj (returned.symm.trans result)
  refine ⟨inv', inv.settled, inv.blocks, inv.once, fun q member => ?_, fun q z member a low high value known => ?_⟩
  · obtain ⟨slot, core, bucket, rfl, free, zero⟩ := inv.unmarked q member
    refine ⟨slot, core, bucket, rfl, free, (word32_slot bucket fun j less => ?_).trans zero⟩
    have apart := inv.inOrder.placed_free_apart placed free
    unfold RangesApart at apart
    rw [view _ (inv.inOrder.slot_addr (inv.inOrder.freeSlots core bucket slot free) less),
      copy_outside _ _ (by omega)]
  · obtain ⟨s, l, rfl, placed'⟩ := (inv.blocks q z).mp member
    have fits' := inv.inOrder.placed_fits placed'
    rw [view a (inv.inOrder.placed_inside placed' (by omega) (by omega))]
    simp only [stored] at known
    split_ifs at known with here
    · rw [here, ← Option.some.inj known]
      exact copy_inside heap.view _ one_pos
    · rw [copy_outside _ _ (by omega)]
      exact inv.kept _ z member a low high value known

/-- kalloc keeps the invariant of a run. -/
theorem RunInv.kalloc {node : Nat} (served : Served core heap size) (ready : NodeReady nil fuel node heap) :
    ∃ p heap' contents', kalloc nil fuel node core heap size = some (p, heap') ∧
      RunInv nil base heap' (.alloc core size p :: history) contents' := by
  obtain ⟨word, granted⟩ := served
  have settled := inv.settled
  rw [Memory.kalloc]
  split_ifs with empty
  · refine ⟨0, heap, contents, rfl, inv.inOrder, settled, inv.blocks, inv.once, fun q member => ?_, ?_⟩
    · exact inv.unmarked q (mem_filter.mp member).1
    · intro q z member a low high byte known
      simp only [stored, empty] at known
      exact inv.kept q z member a low high byte known
  rw [pagesNeeded, if_neg empty, u64_of_lt word] at granted
  rw [u64_of_lt word]
  cases class' : bucketOf (size + metadataOverhead) with
  | some bucket =>
    rw [class'] at granted
    obtain ⟨slot, after, slabs, free, returned, inv', lists, same⟩ := kallocSlabAlloc_spec inv.inOrder (pos_of_ne_zero empty)
      class' (fun none => granted 1 (if_pos none)) ready
    refine ⟨_, after, _, returned, inv.alloc inv' ?_ (fun s l z => ?_) lists same settled core⟩
    · intro l z placed
      have once := nodup_cons.mp inv'.smallOnce
      rcases placed_iff.mp placed with ⟨block, member, equal, -⟩ | ⟨block, member, equal, -⟩
      · exact once.1 (mem_map.mpr ⟨block, member, equal.symm⟩)
      · exact inv'.slot_ne_large mem_cons_self member equal
    · simp only [placed_iff, exists_mem_cons_iff, or_assoc]
  | none =>
    rw [class'] at granted
    obtain ⟨run, after, returned, inv', same⟩ := kallocLarge_spec inv.inOrder word class' (granted _ rfl) ready
    have outside : ∀ a, HeapAddr base contents.runs a →
        a < run.virt base ∨ run.virt base + run.pages * 4096 ≤ a → after.view a = heap.view a :=
      fun a there _ => same a there
    refine ⟨_, after, _, returned, inv.alloc inv' ?_ (fun s l z => ?_) (fun _ _ _ member _ => member) outside settled core⟩
    · intro l z placed
      have once := nodup_cons.mp inv'.runs_nodup.2.2.2.1
      rcases placed_iff.mp placed with ⟨block, member, equal, -⟩ | ⟨block, member, equal, -⟩
      · exact inv'.slot_ne_large member mem_cons_self equal.symm
      · have sameRun := (inv'.pages.distinct (large_mem mem_cons_self)
          (large_mem (mem_cons_of_mem _ member))).2.2 equal.symm
        exact once.1 (mem_map.mpr ⟨block, member, sameRun⟩)
    · simp only [placed_iff, exists_mem_cons_iff]
      exact or_left_comm

/-- kfree of a live block keeps the invariant of a run. -/
theorem RunInv.kfreeBy {classSize : Nat → Nat}
    (owned : (p, size) ∈ live history) (sized : classSize size = size) (bound : TreeBound nil fuel heap) :
    ∃ heap' contents', kfreeBy nil fuel classSize core heap p = some heap' ∧
      RunInv nil base heap' (.free core p :: history) contents' := by
  obtain ⟨start, len, rfl, placed⟩ := (inv.blocks p size).mp owned
  have here := placed
  cases placed with
  | @small block member =>
    obtain ⟨after, returned, inv', zero, same⟩ := kfreeBy_small inv.inOrder member sized
    have frees := free_withFree { contents with small := contents.small.erase block } core
    refine ⟨after, _, returned, inv.free inv' here (fun s l z => ?_) (fun core' bucket slot free => ?_) (fun _ => ?_) same
      inv.settled core⟩
    · have nodup : contents.small.Nodup := List.Nodup.of_map _ inv.inOrder.smallOnce
      simp only [placed_iff, withFree, nodup.mem_erase_iff]
      constructor
      · rintro (⟨other, ⟨different, there⟩, rfl, rfl, rfl⟩ | ⟨other, there, rfl, rfl, rfl⟩)
        · exact ⟨.inl ⟨other, there, rfl, rfl, rfl⟩, fun equal => different
            (inj_on_of_nodup_map inv.inOrder.smallOnce there member equal)⟩
        · exact ⟨.inr ⟨other, there, rfl, rfl, rfl⟩, Ne.symm (inv.inOrder.slot_ne_large member there)⟩
      · rintro ⟨⟨other, there, rfl, rfl, rfl⟩ | ⟨other, there, rfl, rfl, rfl⟩, different⟩
        · exact .inl ⟨other, ⟨fun equal => different (by rw [equal]), there⟩, rfl, rfl, rfl⟩
        · exact .inr ⟨other, there, rfl, rfl, rfl⟩
    · rw [frees]
      split_ifs with equal
      · rw [equal.1, equal.2] at free
        exact mem_cons_of_mem _ free
      · exact free
    · refine ⟨core, block.bucket, ?_, zero⟩
      rw [frees, if_pos ⟨rfl, rfl⟩]
      exact mem_cons_self
  | @large block member =>
    obtain ⟨after, returned, inv', same⟩ := kfreeBy_large inv.inOrder member sized bound
    refine ⟨after, _, returned, inv.free inv' here (fun s l z => ?_) (fun _ _ _ free => free) (fun bucketed => ?_)
      (fun a there _ => same a there) inv.settled core⟩
    · have runs := inv.inOrder.runs_nodup.2.2.2.1
      have nodup : contents.large.Nodup := List.Nodup.of_map _ runs
      simp only [placed_iff, nodup.mem_erase_iff]
      constructor
      · rintro (⟨other, there, rfl, rfl, rfl⟩ | ⟨other, ⟨different, there⟩, rfl, rfl, rfl⟩)
        · exact ⟨.inl ⟨other, there, rfl, rfl, rfl⟩, inv.inOrder.slot_ne_large there member⟩
        · refine ⟨.inr ⟨other, there, rfl, rfl, rfl⟩, fun equal => different ?_⟩
          exact inj_on_of_nodup_map runs there member ((inv.inOrder.pages.distinct
            (large_mem member) (large_mem there)).2.2 equal)
      · rintro ⟨⟨other, there, rfl, rfl, rfl⟩ | ⟨other, there, rfl, rfl, rfl⟩, different⟩
        · exact .inl ⟨other, there, rfl, rfl, rfl⟩
        · exact .inr ⟨other, ⟨fun equal => different (by rw [equal]), there⟩, rfl, rfl, rfl⟩
    · obtain ⟨none, -, fits⟩ := inv.inOrder.largeSize block member
      have bounds := inv.inOrder.placed_fits here
      rw [Bucketed, u64_of_lt (by omega), none] at bucketed
      exact absurd bucketed (by decide)

end

end Steps

/-! ### All runs -/

section Runs

variable {nil base : Nat} {heap : KernelHeap} {history : List HeapEvent}

variable {phys : PhysBase} {contents : HeapContents} {size fuel p : Nat}

theorem Boot.heapInv {vmm : VmaTree} {metadataSize : Nat} (boot : Boot nil phys vmm metadataSize)
    (memory : Nat → FrameWords) (dir : Cpu.PageDir) (ram : Bytes) :
    HeapInv nil (heapBase metadataSize) (kallocInit phys memory vmm dir ram metadataSize) ⟨[], [], [], fun _ _ => [], []⟩ where
  pages := boot.pages memory dir ram
  onePage := by simp
  lists _ _ := rfl
  counts _ _ := rfl
  freeSlots := by simp
  freeOnce := by simp
  smallSlots := by simp
  smallOnce := by simp
  smallNotFree := by simp
  smallSize := by simp
  smallBlocks := by simp
  largeSize := by simp
  largeBlocks := by simp

theorem RunInv.kfree2 (inv : RunInv nil base heap history contents) (core : Nat) (owned : (p, size) ∈ live history)
    (bound : TreeBound nil fuel heap) :
    ∃ heap' contents', kfree2 nil fuel core heap p = some heap' ∧
      RunInv nil base heap' (.free core p :: history) contents' := by
  obtain ⟨start, len, rfl, -⟩ := (inv.blocks p size).mp owned
  exact inv.kfreeBy owned rfl bound

theorem RunInv.kfree (inv : RunInv nil base heap history contents) (core : Nat) (owned : (p, size) ∈ live history)
    (bound : TreeBound nil fuel heap) :
    ∃ heap' contents', kfree nil fuel core heap p size = some heap' ∧
      RunInv nil base heap' (.free core p :: history) contents' := by
  obtain ⟨start, len, rfl, placed⟩ := (inv.blocks p size).mp owned
  have positive := inv.inOrder.placed_pos placed
  rw [Memory.kfree, if_neg (by omega)]
  exact inv.kfreeBy owned rfl bound

/-- **In every run whose allocations are served the heap is in good order.** -/
theorem HeapRun.inv (run : HeapRun nil base Served heap history) : ∃ contents, RunInv nil base heap history contents := by
  induction run with
  | init memory dir ram boot begins =>
    subst begins
    refine ⟨_, boot.heapInv memory dir ram, rfl, fun p size => ?_, nodup_nil, by simp [freed], by simp [live]⟩
    simp [live, placed_iff]
  | alloc _ _ served ready result ih =>
    obtain ⟨contents, inv⟩ := ih
    obtain ⟨p, after, contents', returned, inv'⟩ := inv.kalloc served ready
    obtain ⟨rfl, rfl⟩ := Prod.mk.inj (Option.some.inj (returned.symm.trans result))
    exact ⟨contents', inv'⟩
  | free _ owned bound result ih =>
    obtain ⟨contents, inv⟩ := ih
    obtain ⟨after, contents', returned, inv'⟩ := inv.kfree2 _ owned bound
    obtain rfl := Option.some.inj (returned.symm.trans result)
    exact ⟨contents', inv'⟩
  | freeSized _ owned bound result ih =>
    obtain ⟨contents, inv⟩ := ih
    obtain ⟨after, contents', returned, inv'⟩ := inv.kfree _ owned bound
    obtain rfl := Option.some.inj (returned.symm.trans result)
    exact ⟨contents', inv'⟩
  | write _ owned inside result ih =>
    obtain ⟨contents, inv⟩ := ih
    exact ⟨contents, inv.write owned inside result⟩

/-- **A heap without a flaw**, as its history sees it. The calls return; every block lies with its header and its red zones
in a slot of its own or in pages of its own; every free list is a chain without a cycle, as long as its count; no slot is
on two lists, or free and in use; and the blocks hold what their owners have stored. -/
structure HeapSound (nil base : Nat) (heap : KernelHeap) (history : List HeapEvent) (contents : HeapContents) : Prop where
  inOrder : HeapInv nil base heap contents
  allocates : ∀ core size fuel node, Served core heap size → NodeReady nil fuel node heap →
    (kalloc nil fuel node core heap size).isSome
  frees : ∀ core p size fuel, (p, size) ∈ live history → TreeBound nil fuel heap →
    (Memory.kfree2 nil fuel core heap p).isSome ∧ (Memory.kfree nil fuel core heap p size).isSome
  within : ∀ p size, (p, size) ∈ live history → ∃ start len, p = start + 32 ∧ p + size + 16 ≤ start + len ∧
    ((∃ bucket, contents.IsSlot base start bucket ∧ len = bucket.size) ∨
      ∃ block ∈ contents.large, start = block.run.virt base ∧ len = block.run.pages * 4096)
  disjoint : (live history).Pairwise fun block other =>
    RangesApart (block.1 - 32) (block.2 + 48) (other.1 - 32) (other.2 + 48)
  lists : ∀ core bucket, Linked heap.view.word64 (· = 0) ((heap.cpuCaches core).head bucket) (contents.free core bucket) ∧
    (contents.free core bucket).Nodup ∧ (heap.cpuCaches core).count bucket = (contents.free core bucket).length
  oneList : ∀ core bucket core' bucket' slot, slot ∈ contents.free core bucket → slot ∈ contents.free core' bucket' →
    core = core' ∧ bucket = bucket'
  freeNotLive : ∀ core bucket slot, slot ∈ contents.free core bucket → ∀ p size, (p, size) ∈ live history →
    RangesApart (p - 32) (size + 48) slot bucket.size
  kept : ∀ p size, (p, size) ∈ live history → ∀ a, p ≤ a → a < p + size → ∀ byte, stored history a = some byte →
    heap.view a = byte

/-- **Every run whose allocations are served has a heap without a flaw.** -/
theorem heapRun_sound (nil base : Nat) (heap : KernelHeap) (history : List HeapEvent)
    (run : HeapRun nil base Served heap history) : ∃ contents, HeapSound nil base heap history contents := by
  obtain ⟨contents, inv⟩ := run.inv
  have order := inv.inOrder
  refine ⟨contents, order, ?_, ?_, fun p size member => ?_, ?_, ?_, order.freeOnce, ?_, inv.kept⟩
  · intro core size fuel node served ready
    obtain ⟨p, heap', contents', returned, -⟩ := inv.kalloc served ready
    rw [returned]
    rfl
  · intro core p size fuel member bound
    obtain ⟨heap', -, returned, -⟩ := inv.kfree2 core member bound
    obtain ⟨heap'', -, returned', -⟩ := inv.kfree core member bound
    rw [returned, returned']
    exact ⟨rfl, rfl⟩
  · obtain ⟨start, len, rfl, placed⟩ := (inv.blocks p size).mp member
    have fits := order.placed_fits placed
    refine ⟨start, len, rfl, by omega, ?_⟩
    cases placed with
    | small there => exact .inl ⟨_, order.smallSlots _ there, rfl⟩
    | large there => exact .inr ⟨_, there, rfl, rfl⟩
  · refine inv.once.pairwise_of_forall_ne fun block member other member' different => ?_
    obtain ⟨start, len, equal, placed⟩ := (inv.blocks block.1 block.2).mp member
    obtain ⟨start', len', equal', placed'⟩ := (inv.blocks other.1 other.2).mp member'
    have distinct : start ≠ start' := by
      rintro rfl
      exact different (Prod.ext (equal.trans equal'.symm) (order.placed_unique placed' placed))
    have apart := order.placed_apart placed placed' distinct
    have fits := order.placed_fits placed
    have fits' := order.placed_fits placed'
    unfold RangesApart at *
    omega
  · exact fun core bucket => ⟨order.lists core bucket, (order.lists core bucket).nodup, order.counts core bucket⟩
  · intro core bucket slot free p size member
    obtain ⟨start, len, rfl, placed⟩ := (inv.blocks p size).mp member
    have apart := order.placed_free_apart placed free
    have fits := order.placed_fits placed
    unfold RangesApart at *
    omega

/-- **A second free of a small block changes nothing**, on any core, in every run whose allocations are served. -/
theorem kfree2_again (nil fuel core base : Nat) (heap : KernelHeap) (history : List HeapEvent)
    (run : HeapRun nil base Served heap history) (p : Nat) (again : p ∈ freed history) :
    kfree2 nil fuel core heap p = some heap := by
  obtain ⟨contents, inv⟩ := run.inv
  obtain ⟨slot, core', bucket, rfl, free, zero⟩ := inv.unmarked p again
  have isSlot := inv.inOrder.freeSlots core' bucket slot free
  have bounds := inv.inOrder.slot_bounds isSlot
  have size := bucket.size_pos
  have magic : heap.load 4 (slot + 8) = some 0 := by
    rw [inv.inOrder.pages.load32 fun i less => ?_, zero]
    rw [add_assoc]
    exact inv.inOrder.slot_addr isSlot (by omega)
  exact kfreeBy_unmarked (by omega) magic (by decide)

/-! ### Two machines -/

/-- A tree of areas with the one node 2. -/
def OneArea (vmm : VmaTree) : Prop :=
  vmm.root = 2 ∧ (vmm.heap 2).data.isSome ∧ vmm.heap 2 = ⟨(vmm.heap 2).data, 1, 1, 1, .black⟩ ∧
    vmm.heap 1 = Tree.sentinel 1

instance (vmm : VmaTree) : Decidable (OneArea vmm) := inferInstanceAs (Decidable (_ ∧ _ ∧ _ ∧ _))

theorem OneArea.ready (one : OneArea heap.vmm) : TreeBound 1 4 heap ∧ NodeReady 1 4 3 heap := by
  obtain ⟨root, some', node, nilNode⟩ := one
  obtain ⟨area, data⟩ := Option.isSome_iff_exists.mp some'
  rw [data] at node
  have holds := VmaHolds.single root node nilNode (by decide)
  exact ⟨⟨_, holds, by simp [Tree.toList]⟩, by decide, _, holds, by simp [Tree.ptrs, Lib.Tree.toList],
    by simp [Tree.toList]⟩

theorem boot_emptyAreas (frame : (physBaseAlloc phys 1).1 ≠ 0) (memory : phys.higherBaseLength ≤ 2 ^ 52)
    (heap : Nat → Tree.RbtNode VirtualMemory) : Boot 1 phys (createVmmPage 1 (initSentinel 1 heap)) 1 :=
  ⟨frame, memory, by decide, .leaf, VmaHolds.empty 1 heap, by simp [Tree.toList]⟩

def freshHeap : KernelHeap :=
  kallocInit ⟨64 * blockSize, fun i => if i = 0 then 1#8 else 0#8⟩ (fun _ _ => 0)
    (createVmmPage 1 (initSentinel 1 fun _ => ⟨none, 0, 0, 0, .red⟩)) (.empty 3) (fun _ => 0) 1

theorem nodeReady_empty (phys : PhysBase) (memory : Nat → FrameWords) (heap : Nat → Tree.RbtNode VirtualMemory)
    (dir : Cpu.PageDir) (ram : Bytes) (metadataSize : Nat) :
    NodeReady 1 4 2 (kallocInit phys memory (createVmmPage 1 (initSentinel 1 heap)) dir ram metadataSize) :=
  ⟨by decide, .leaf, VmaHolds.empty 1 heap, by decide, by decide⟩

theorem exists_freshRun : ∃ heap history p, HeapRun 1 (heapBase 1) Served heap history ∧ p ∈ freed history := by
  have steps : (do
      let first ← kalloc 1 4 2 0 freshHeap 1500
      let freed ← kfree2 1 4 0 first.2 first.1
      some (first.1, decide (OneArea first.2.vmm), (freed.cpuCaches 0).count .b2048)) =
        some (0xFFFFFF9400001820, true, 2) := by
    decide +kernel
  simp only [bind_eq_some, Option.some.injEq, Prod.mk.injEq, Prod.exists] at steps
  obtain ⟨p, allocated, returned, heap, again, rfl, one, -⟩ := steps
  have init : HeapRun 1 (heapBase 1) Served freshHeap [] :=
    .init _ _ _ (boot_emptyAreas (by decide +kernel) (by decide) _) rfl
  have served : Served 0 freshHeap 1500 := by
    refine ⟨by decide, fun n needed => ?_⟩
    have one : pagesNeeded 0 freshHeap 1500 = some 1 := by decide
    obtain rfl := Option.some.inj (one.symm.trans needed)
    refine ⟨by decide +kernel, ⟨by decide, by decide, .inr (by decide)⟩, fun i less => ?_⟩
    -- the first block has room
    have none : (takePages freshHeap 1).2.vaddrBitmap.activeBlocks -
      freshHeap.vaddrBitmap.activeBlocks = 0 := by decide +kernel
    exact absurd (less.trans_eq none) (not_lt_zero i)
  have first : HeapRun 1 (heapBase 1) Served allocated [.alloc 0 1500 0xFFFFFF9400001820] :=
    .alloc init (by decide) served (nodeReady_empty _ _ _ _ _ _) returned
  have run := HeapRun.free first (mem_singleton_self (_, 1500)) (OneArea.ready (of_decide_eq_true one)).1 again
  exact ⟨heap, _, 0xFFFFFF9400001820, run, by decide⟩

theorem heapRun_sound_fresh : ∃ heap history contents, HeapRun 1 (heapBase 1) Served heap history ∧
    HeapSound 1 (heapBase 1) heap history contents := by
  obtain ⟨heap, history, p, run, -⟩ := exists_freshRun
  obtain ⟨contents, sound⟩ := heapRun_sound 1 (heapBase 1) heap history run
  exact ⟨heap, history, contents, run, sound⟩

theorem kfree2_again_fresh : ∃ heap history p, HeapRun 1 (heapBase 1) Served heap history ∧ p ∈ freed history ∧
    kfree2 1 4 1 heap p = some heap := by
  obtain ⟨heap, history, p, run, again⟩ := exists_freshRun
  exact ⟨heap, history, p, run, again, kfree2_again 1 4 1 (heapBase 1) heap history run p again⟩

/-- **Two pages in frame 0**: the slot of a freed block has the same bytes as a block of another page, so that its magic
number is there again and a second free pushes it twice. -/
theorem kfree2_again_shared : ∃ heap history p heap', HeapRun 1 (heapBase 1) (fun _ _ _ => True) heap history ∧
    p ∈ freed history ∧ kfree2 1 4 0 heap p = some heap' ∧ (heap.cpuCaches 0).count .b2048 = 2 ∧
    (heap'.cpuCaches 0).count .b2048 = 3 := by
  have steps : (do
      let first ← kalloc 1 4 2 0 exhaustedHeap 1500
      let second ← kfree2 1 4 0 first.2 first.1
      let third ← kalloc 1 4 3 1 second 1500
      let last ← kfree2 1 4 0 third.2 first.1
      some (first.1, third.1, decide (OneArea first.2.vmm), decide (OneArea second.vmm), (third.2.cpuCaches 0).count .b2048,
        (last.cpuCaches 0).count .b2048)) =
        some (0xFFFFFF9400001820, 0xFFFFFF9400002820, true, true, 2, 3) := by
    decide +kernel
  simp only [bind_eq_some, Option.some.injEq, Prod.mk.injEq, Prod.exists] at steps
  obtain ⟨p, first, returned, second, freed, q, third, returned', last, again, rfl, rfl, one, one', before, after⟩ := steps
  have init : HeapRun 1 (heapBase 1) (fun _ _ _ => True) exhaustedHeap [] :=
    .init _ _ _ (boot_emptyAreas (by decide +kernel) (by decide) _) rfl
  have run := HeapRun.alloc init (by decide) trivial (nodeReady_empty _ _ _ _ _ _) returned
  have run' := HeapRun.free run (mem_singleton_self (_, 1500)) (OneArea.ready (of_decide_eq_true one)).1 freed
  have run'' := HeapRun.alloc run' (by decide) trivial (OneArea.ready (of_decide_eq_true one')).2 returned'
  exact ⟨third, _, 0xFFFFFF9400001820, last, run'', by decide, again, before, after⟩

end Runs

end Voxia.Memory
