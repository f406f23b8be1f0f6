/-
**Sizes and the ranges that are obtained for them.**

`kalloc` adds 48 bytes to the size and rounds up to pages, both without a look at the carry, and does not ask whether
the allocators had pages. So it goes right for the calls whose size plus 48 is a `size_t` and that are not starved
(`kalloc_contained_iff`). The frames of a growing address bitmap are not among the conditions: without them the bitmap
is damaged, but this call has its range.
-/

import Voxia.Memory.KallocRun

namespace Voxia.Memory

open Lib Option Bytes
open Cpu (PageDir pagingMmap pagingMultipleMmap pagePresent pageWritable pageUser pageNoExecute)

/-! ### The range of a call -/

/-- The address of `n` new pages, `none` where one of the allocators has returned 0. -/
def newPages (heap : KernelHeap) (n : Nat) : Option Nat :=
  let virt := (takePages heap n).1
  if (physBaseAlloc heap.phys n).1 = 0 ∨ virt = 0 then none else some virt

/-- The slot or the pages a call obtains: the first slot of the list, the last one of a new page, or pages of its own. -/
def obtained (core : Nat) (heap : KernelHeap) (size : Nat) : Option Span :=
  match bucketOf (u64 (size + metadataOverhead)) with
  | some bucket =>
    if (heap.cpuCaches core).count bucket = 0 then
      (newPages heap 1).map fun page => ⟨page + (blockSize - bucket.size), bucket.size⟩
    else some ⟨(heap.cpuCaches core).head bucket, bucket.size⟩
  | none =>
    (newPages heap (pageCountOf (u64 (size + metadataOverhead)))).map fun virt =>
      ⟨virt, pageCountOf (u64 (size + metadataOverhead)) * blockSize⟩

/-- The call returns `NULL`, or a pointer with the header and a red zone before it and a red zone behind its `size` bytes,
all of them in the range of the call. -/
def Contained (nil fuel node core : Nat) (heap : KernelHeap) (size : Nat) : Prop :=
  ∃ p heap', kalloc nil fuel node core heap size = some (p, heap') ∧
    (p = 0 ∨ ∃ range, obtained core heap size = some range ∧
      range.start + (kallocMetadataSize + kallocRedzoneSize) ≤ p ∧
      p + size + kallocRedzoneSize ≤ range.start + range.len)

/-! ### Addresses -/

theorem growBitmapAllocPages_address {gb : GrowBitmap} {spans : List Span} (inv : GrowInv gb spans) {n : Nat}
    (frames : Nat → Nat) (room : HasRoom gb n) :
    ∃ index, (growBitmapAllocPages gb n frames).1 = gb.baseVaddr + index * gb.pageSize ∧
      index + n ≤ gb.maxBlocks * growBitmapBlockPages := by
  obtain ⟨positive, small, somewhere⟩ := room
  have search := scanBlocks_spec gb positive gb.activeBlocks 0 (Nat.zero_add _)
  have activeLe := inv.active_le
  unfold growBitmapAllocPages
  rw [if_neg (by omega)]
  split
  · next b startBit found =>
    rw [found] at search
    obtain ⟨-, active, run⟩ := search
    have within := run.within
    have inside : b * growBitmapBlockPages + startBit + n ≤ gb.maxBlocks * growBitmapBlockPages := by
      unfold growBitmapBlockPages at *
      omega
    exact ⟨_, inv.fits.address_eq (by omega), inside⟩
  · next missing =>
    rw [missing] at search
    have more : gb.activeBlocks < gb.maxBlocks := by
      rcases somewhere with ⟨b, below, run⟩ | more
      · exact absurd (search b (Nat.zero_le b) below) run
      · exact more
    rw [if_pos more]
    have inside : gb.activeBlocks * growBitmapBlockPages + n ≤ gb.maxBlocks * growBitmapBlockPages := by
      unfold growBitmapBlockPages at *
      omega
    exact ⟨_, inv.fits.address_eq (by omega), inside⟩

section Ranges

variable {nil base : Nat} {heap heap' : KernelHeap} {contents : HeapContents} {runs : List PageRun}

variable {n v size page fuel node core : Nat} {bucket : Bucket}

theorem PagesInv.newRange (inv : PagesInv nil base heap runs)
    (frames : ¬ NoRun (bitUsed heap.phys.bitmap) n heap.phys.totalBlocks) (room : HasRoom heap.vaddrBitmap n) :
    RangeFits (takePages heap n).1 (physBaseAlloc heap.phys n).1 n := by
  have found : (physBaseAlloc heap.phys n).1 ≠ 0 := fun null => frames ((inv.null_iff room.1).mp null)
  obtain ⟨start, behind, within, -, taken⟩ := physBaseAlloc_taken room.1 found
  obtain ⟨index, address, inside⟩ := growBitmapAllocPages_address inv.grow
    (frameAt (physBaseAlloc heap.phys n).2) room
  have virt : (takePages heap n).1 = base + index * 4096 := by
    rw [← inv.base_eq]
    refine address.trans ?_
    rw [inv.size_eq]
    rfl
  have bounded := inv.grow.fits.bounded
  have aligned := inv.aligned
  have low := inv.low
  have memory := inv.memory
  have blocks : heap.phys.totalBlocks = heap.phys.higherBaseLength / 4096 := rfl
  have phys : (physBaseAlloc heap.phys n).1 = start * 4096 := congrArg Prod.fst taken
  rw [inv.base_eq, inv.size_eq] at bounded
  unfold blockSize at bounded
  exact ⟨by omega, by omega, by omega, by omega, by omega, by omega⟩

theorem PagesInv.virt_aligned (inv : PagesInv nil base heap runs) (n : Nat) (frames : Nat → Nat) :
    (growBitmapAllocPages heap.vaddrBitmap n frames).1 % 4096 = 0 := by
  by_cases room : HasRoom heap.vaddrBitmap n
  · obtain ⟨index, address, -⟩ := growBitmapAllocPages_address inv.grow frames room
    have aligned := inv.aligned
    rw [address, inv.base_eq, inv.size_eq]
    unfold blockSize
    omega
  · rw [growBitmapAllocPages_noRoom frames room]
    rfl

/-! ### Calls on mapped pages return -/

def Mapped (dir : PageDir) (v n : Nat) : Prop := ∀ i < n, (translate dir (v + i)).isSome

theorem Mapped.sub {dir : PageDir} {v' n' : Nat} (mapped : Mapped dir v n) (low : v ≤ v') (high : v' + n' ≤ v + n) :
    Mapped dir v' n' := by
  intro i less
  have there := mapped (v' - v + i) (by omega)
  rwa [show v + (v' - v + i) = v' + i by omega] at there

theorem MapsRange.mapped {dir dir' : PageDir} {virt phys : Nat} (maps : MapsRange dir dir' virt phys n) :
    Mapped dir' virt (n * 4096) := by
  intro i less
  rw [maps.inside i less]
  rfl

theorem store_mapped (heap : KernelHeap) {count : Nat} (block : Bytes) (mapped : Mapped heap.pageDir v count) :
    ∃ ram, heap.store v block count = some { heap with ram := ram } := by
  have returns : (Paged.store blockSize (translate heap.pageDir) heap.ram v block count).isSome :=
    Paged.storeFrom_isSome block mapped
  obtain ⟨ram, stored⟩ := isSome_iff_exists.mp returns
  exact ⟨ram, congrArg (Option.map _) stored⟩

theorem layOut_mapped (heap : KernelHeap) {slot len : Nat} (mapped : Mapped heap.pageDir slot len)
    (fits : size + 48 ≤ len)
    (high : slot + len ≤ 2 ^ 64) : ∃ heap', layOut heap slot size = some (slot + 32, heap') := by
  obtain ⟨ram₁, sized⟩ := store_mapped heap (littleEndian size)
    (mapped.sub le_rfl (show slot + 8 ≤ slot + len by omega))
  obtain ⟨ram₂, marked⟩ := store_mapped { heap with ram := ram₁ } (littleEndian kallocRedzoneMagic)
    (mapped.sub (show slot ≤ slot + 8 by omega) (show slot + 8 + 4 ≤ slot + len by omega))
  obtain ⟨ram₃, before⟩ := store_mapped { heap with ram := ram₂ } zoneBytes
    (mapped.sub (show slot ≤ slot + 16 by omega) (show slot + 16 + 16 ≤ slot + len by omega))
  obtain ⟨ram₄, after⟩ := store_mapped { heap with ram := ram₃ } zoneBytes
    (mapped.sub (show slot ≤ slot + 32 + size by omega) (show slot + 32 + size + 16 ≤ slot + len by omega))
  exact ⟨_, layOut_of_stores (by omega) sized marked before after⟩

section

variable (heap : KernelHeap) (core rest i : Nat) (mapped : Mapped heap.pageDir page 4096) (high : page + 4096 ≤ 2 ^ 64)

include mapped high

theorem pushSlots_mapped (count : i + rest ≤ blockSize / bucket.size) :
    ∃ heap', pushSlots core bucket page rest i heap = some heap' := by
  induction rest generalizing i heap with
  | zero => exact ⟨heap, rfl⟩
  | succ rest ih =>
    have ends := Bucket.slot_end (show i < blockSize / bucket.size by omega)
    have size := bucket.size_pos
    have slot : u64 (page + i * bucket.size) = page + i * bucket.size := u64_of_lt (by omega)
    obtain ⟨ram, stored⟩ := store_mapped heap (littleEndian ((heap.cpuCaches core).head bucket))
      (mapped.sub (show page ≤ page + i * bucket.size by omega) (show page + i * bucket.size + 8 ≤ page + 4096 by omega))
    rw [pushSlots, slot]
    simp only [bind_eq_bind, stored, bind_some]
    exact ih _ (i + 1) mapped (by omega)

/-- A slot of a page with a frame: the page is cut up, the last slot is taken and the block is laid out. -/
theorem fillAndTake_mapped (fits : size + 48 ≤ bucket.size) :
    ∃ filled next heap', pushSlots core bucket page (blockSize / bucket.size) 0 heap = some filled ∧
      filled.load 8 ((filled.cpuCaches core).head bucket) = some next ∧
      layOut (filled.setCache core bucket next ((filled.cpuCaches core).count bucket - 1))
        ((filled.cpuCaches core).head bucket) size = some (page + (blockSize - bucket.size) + 32, heap') := by
  have slots : 0 < blockSize / bucket.size ∧ (0 + blockSize / bucket.size - 1) * bucket.size = 4096 - bucket.size := by
    cases bucket <;> decide
  have size' := bucket.size_pos
  obtain ⟨filled, pushed⟩ := pushSlots_mapped heap core (blockSize / bucket.size) 0 mapped high (Nat.zero_add _).le
  obtain ⟨⟨ram, caches, rfl⟩, head⟩ := pushSlots_frame pushed
  have last := head slots.1
  rw [slots.2, u64_of_lt (by omega)] at last
  have whole := mapped.sub (show page ≤ page + (4096 - bucket.size) by omega)
    (show page + (4096 - bucket.size) + bucket.size ≤ page + 4096 by omega)
  have loads : (KernelHeap.load { heap with ram := ram, cpuCaches := caches } 8 (page + (4096 - bucket.size))).isSome :=
    Paged.loadWord_isSome fun i less => whole i (by omega)
  obtain ⟨next, loaded⟩ := isSome_iff_exists.mp loads
  obtain ⟨heap', laid⟩ := layOut_mapped (KernelHeap.setCache { heap with ram := ram, cpuCaches := caches } core bucket next
    ((caches core).count bucket - 1)) whole fits (by omega)
  refine ⟨_, next, heap', pushed, ?_, ?_⟩
  · rw [last]
    exact loaded
  · rw [last]
    exact laid

end

theorem vmaRegister_returns (ready : NodeReady nil fuel node heap) (heap' : KernelHeap)
    (sameTree : heap'.vmm = heap.vmm) (phys virt size flags : Nat) :
    ∃ vmm, vmaRegister nil fuel node heap' phys virt size flags = some { heap' with vmm := vmm } := by
  obtain ⟨notNil, t, holds, unused, enough⟩ := ready
  obtain ⟨vmm, -, registered, -⟩ := holds.withArea phys virt size flags unused notNil enough
  rw [vmaRegister, sameTree, registered]
  exact ⟨vmm, rfl⟩

section NotStarved

variable {n fuel node : Nat} (inv : PagesInv nil base heap runs) (ready : NodeReady nil fuel node heap)
  (frames : ¬ NoRun (bitUsed heap.phys.bitmap) n heap.phys.totalBlocks) (room : HasRoom heap.vaddrBitmap n)

include inv ready frames room

theorem kallocLarge_returns {size : Nat} (pages : pageCountOf (u64 (size + metadataOverhead)) = n)
    (enough : size + 48 ≤ n * 4096) :
    ∃ heap', kallocLarge nil fuel node heap size =
      some ((takePages heap n).1 + 32, heap') := by
  have fits := inv.newRange frames room
  have maps := pagingMultipleMmap_mapsRange heap.pageDir
    (show Cpu.Clean (pagePresent ||| pageWritable) by constructor <;> rfl) (by decide) fits
  rw [kallocLarge_eq nil fuel node heap pages]
  obtain ⟨vmm, registered⟩ := vmaRegister_returns ready
    { (takePages heap n).2 with
      pageDir := pagingMultipleMmap heap.pageDir
        (takePages heap n).1
        (physBaseAlloc heap.phys n).1 n (pagePresent ||| pageWritable) } rfl
    (physBaseAlloc heap.phys n).1 (takePages heap n).1
    (u64 (n * blockSize)) (pagePresent ||| pageWritable ||| pageNoExecute)
  rw [registered]
  exact layOut_mapped _ maps.mapped enough fits.high

end NotStarved

section

variable (inv : PagesInv nil base heap runs)

include inv

/-- **A small call with an empty list that is not starved returns the last slot of its page.** -/
theorem kallocSlabAlloc_returns (ready : NodeReady nil fuel node heap)
    (frames : ¬ NoRun (bitUsed heap.phys.bitmap) 1 heap.phys.totalBlocks)
    (room : HasRoom heap.vaddrBitmap 1) (empty : (heap.cpuCaches core).count bucket = 0) (fits : size + 48 ≤ bucket.size) :
    ∃ heap', kallocSlabAlloc nil fuel node core bucket heap size =
      some ((takePages heap 1).1 + (blockSize - bucket.size) + 32,
        heap') := by
  have range := inv.newRange frames room
  have maps := pagingMmap_mapsRange heap.pageDir
    (show Cpu.Clean (pagePresent ||| pageWritable ||| pageUser) by constructor <;> rfl) (by decide) range
  obtain ⟨vmm, registered⟩ := vmaRegister_returns ready
    { (takePages heap 1).2 with
      pageDir := pagingMmap heap.pageDir
        (takePages heap 1).1
        (physBaseAlloc heap.phys 1).1 (pagePresent ||| pageWritable ||| pageUser) } rfl
    (physBaseAlloc heap.phys 1).1 (takePages heap 1).1
    blockSize (pagePresent ||| pageWritable ||| pageNoExecute)
  obtain ⟨filled, next, heap', pushed, loaded, laid⟩ := fillAndTake_mapped
    { (takePages heap 1).2 with
      pageDir := pagingMmap heap.pageDir
        (takePages heap 1).1
        (physBaseAlloc heap.phys 1).1 (pagePresent ||| pageWritable ||| pageUser)
      vmm := vmm } core maps.mapped range.high fits
  have whole : (if (heap.cpuCaches core).count bucket = 0 then refill nil fuel node core bucket heap else some heap) =
      some filled := by
    rw [if_pos empty, refill, allocPageLocked_eq, registered]
    exact pushed
  refine ⟨heap', ?_⟩
  rw [kallocSlabAlloc_filled whole, loaded]
  exact laid

/-! ### The result and its range -/

theorem PagesInv.newPages_some
    (frames : ¬ NoRun (bitUsed heap.phys.bitmap) n heap.phys.totalBlocks) (room : HasRoom heap.vaddrBitmap n) :
    newPages heap n = some (takePages heap n).1 := by
  have fits := inv.newRange frames room
  have low := fits.low
  have nonzero := fits.nonzero
  exact if_neg (by omega)

theorem PagesInv.newPages_none
    (missing : NoRun (bitUsed heap.phys.bitmap) n heap.phys.totalBlocks ∨ ¬ HasRoom heap.vaddrBitmap n) :
    newPages heap n = none := by
  by_cases room : HasRoom heap.vaddrBitmap n
  · have null := (inv.null_iff room.1).mpr (missing.resolve_right (not_not.mpr room))
    exact if_pos (.inl null)
  · have null : (takePages heap n).1 = 0 := congrArg Prod.fst (growBitmapAllocPages_noRoom _ room)
    exact if_pos (.inr null)

end

theorem HeapInv.exists_head (inv : HeapInv nil base heap contents) (some' : (heap.cpuCaches core).count bucket ≠ 0) :
    ∃ slot rest, contents.free core bucket = slot :: rest ∧ (heap.cpuCaches core).head bucket = slot := by
  rw [inv.counts] at some'
  obtain ⟨slot, rest, list⟩ := List.exists_cons_of_ne_nil (List.ne_nil_of_length_pos (Nat.pos_of_ne_zero some'))
  exact ⟨slot, rest, list, (inv.pop list).1⟩

theorem HeapInv.kalloc_ne_null (inv : HeapInv nil base heap contents) {p : Nat} (positive : size ≠ 0)
    (result : kalloc nil fuel node core heap size = some (p, heap')) : p ≠ 0 := by
  rw [kalloc, if_neg positive] at result
  split at result
  · next bucket class' =>
    have size' := bucket.size_pos
    by_cases empty : (heap.cpuCaches core).count bucket = 0
    · obtain ⟨frames, page, alloc, rfl⟩ := kallocSlabAlloc_empty empty result
      have aligned := inv.pages.virt_aligned 1 frames
      rw [alloc] at aligned
      have slots : (blockSize / bucket.size - 1) * bucket.size = 4096 - bucket.size := by
        cases bucket <;> decide
      unfold u64 kallocMetadataSize kallocRedzoneSize
      omega
    · obtain ⟨slot, rest, list, head⟩ := inv.exists_head empty
      have bounds := inv.slot_bounds (inv.pop list).2.2.1
      rw [kallocSlabAlloc_filled (if_neg empty), head] at result
      obtain ⟨next, -, laid⟩ := bind_eq_some_iff.mp result
      obtain ⟨rfl, -⟩ := layOut_frame laid
      unfold u64 kallocMetadataSize kallocRedzoneSize
      omega
  · obtain ⟨frames, virt, alloc, rfl⟩ := kallocLarge_frame result
    have aligned := inv.pages.virt_aligned (pageCountOf (u64 (size + metadataOverhead))) frames
    rw [alloc] at aligned
    unfold u64 kallocMetadataSize kallocRedzoneSize
    omega

section Contained

variable {fuel node core size : Nat} (inv : HeapInv nil base heap contents) (positive : 1 ≤ size) (word : size < 2 ^ 64)

include inv positive word

theorem HeapInv.served_of_contained (contained : Contained nil fuel node core heap size) :
    size + metadataOverhead < 2 ^ 64 ∧ ¬ Starved core heap size := by
  have some' : size ≠ 0 := by omega
  have overhead : metadataOverhead = 48 := rfl
  obtain ⟨p, heap', result, outcome⟩ := contained
  obtain ⟨range, got, low, high⟩ := outcome.resolve_left (inv.kalloc_ne_null some' result)
  constructor
  · by_contra wraps
    have class' : bucketOf (u64 (size + metadataOverhead)) = some .b64 := if_pos (by unfold u64; omega)
    have len : range.len = 64 := by
      simp only [obtained, class'] at got
      split_ifs at got
      · obtain ⟨page, -, rfl⟩ := map_eq_some_iff.mp got
        rfl
      · obtain rfl := some.inj got
        rfl
    omega
  · rintro ⟨n, needed, missing⟩
    have none := inv.pages.newPages_none missing
    rw [pagesNeeded, if_neg some'] at needed
    unfold obtained at got
    split at needed
    · next bucket class' =>
      split_ifs at needed with empty
      obtain rfl := some.inj needed
      simp only [class', if_pos empty, none, map_none, reduceCtorEq] at got
    · next class' =>
      obtain rfl := some.inj needed
      simp only [class', none, map_none, reduceCtorEq] at got

/-- A call that is served lies inside what it obtained. -/
theorem HeapInv.contained_of_served (ready : NodeReady nil fuel node heap) (small : size + metadataOverhead < 2 ^ 64)
    (served : ¬ Starved core heap size) : Contained nil fuel node core heap size := by
  have some' : size ≠ 0 := by omega
  have overhead : metadataOverhead = 48 := rfl
  have unwrapped : u64 (size + metadataOverhead) = size + metadataOverhead := u64_of_lt small
  have there : ∀ n, pagesNeeded core heap size = some n →
      ¬ NoRun (bitUsed heap.phys.bitmap) n heap.phys.totalBlocks ∧ HasRoom heap.vaddrBitmap n := by
    intro n needed
    refine ⟨fun missing => served ⟨n, needed, .inl missing⟩, ?_⟩
    by_contra full
    exact served ⟨n, needed, .inr full⟩
  unfold Contained
  rw [kalloc, if_neg some', unwrapped]
  rw [pagesNeeded, if_neg some', unwrapped] at there
  cases class' : bucketOf (size + metadataOverhead) with
  | some bucket =>
    have fits := bucketOf_fits class'
    by_cases empty : (heap.cpuCaches core).count bucket = 0
    · obtain ⟨frames, room⟩ := there 1 (by simp only [class', if_pos empty])
      obtain ⟨heap', returned⟩ := kallocSlabAlloc_returns inv.pages ready frames room empty fits
      refine ⟨_, heap', returned, .inr ⟨⟨(takePages heap 1).1 + (blockSize - bucket.size), bucket.size⟩, ?_, le_rfl, ?_⟩⟩
      · simp only [obtained, unwrapped, class', if_pos empty, inv.pages.newPages_some frames room, map_some]
      · simp only [kallocRedzoneSize]
        omega
    · obtain ⟨slot, rest, list, head⟩ := inv.exists_head empty
      obtain ⟨next, heap', loaded, laid, -⟩ := inv.popAndLayOut list positive class'
      have count := (inv.pop list).2.1
      refine ⟨slot + 32, heap', ?_, .inr ⟨⟨slot, bucket.size⟩, ?_, le_rfl, ?_⟩⟩
      · simp only
        rw [kallocSlabAlloc_filled (if_neg empty), head, loaded, count, Nat.add_sub_cancel]
        exact laid
      · simp only [obtained, unwrapped, class', if_neg empty, head]
      · simp only [kallocRedzoneSize]
        omega
  | none =>
    obtain ⟨frames, room⟩ := there (pageCountOf (size + metadataOverhead)) (by simp only [class'])
    have enough := pageCountOf_enough small room.1
    obtain ⟨heap', returned⟩ := kallocLarge_returns inv.pages ready frames room (congrArg pageCountOf unwrapped) enough
    refine ⟨_, heap', returned, .inr ⟨⟨(takePages heap (pageCountOf (size + metadataOverhead))).1,
      pageCountOf (size + metadataOverhead) * blockSize⟩, ?_, le_rfl, ?_⟩⟩
    · simp only [obtained, unwrapped, class', inv.pages.newPages_some frames room, map_some]
    · simp only [kallocRedzoneSize, blockSize]
      omega

end Contained

end Ranges

/-- **The calls whose block lies in the range they have obtained**: those whose size does not wrap and that are not
starved. -/
theorem kalloc_contained_iff (nil fuel node core base : Nat) (heap : KernelHeap) (contents : HeapContents)
    (inv : HeapInv nil base heap contents) (ready : NodeReady nil fuel node heap) (size : Nat) (positive : 1 ≤ size)
    (word : size < 2 ^ 64) :
    Contained nil fuel node core heap size ↔ size + metadataOverhead < 2 ^ 64 ∧ ¬ Starved core heap size :=
  ⟨inv.served_of_contained positive word, fun ⟨small, served⟩ => inv.contained_of_served positive word ready small served⟩

theorem heapInv_freshHeap : HeapInv 1 (heapBase 1) freshHeap ⟨[], [], [], fun _ _ => [], []⟩ :=
  (boot_emptyAreas (by decide +kernel) (by decide) _).heapInv _ _ _

/-- A call for 100 bytes. -/
theorem kalloc_contained_iff_fresh : Contained 1 4 2 0 freshHeap 100 := by
  refine (kalloc_contained_iff 1 4 2 0 (heapBase 1) freshHeap _ heapInv_freshHeap (nodeReady_empty _ _ _ _ _ _) 100
    (by decide) (by decide)).mpr ⟨by decide, ?_⟩
  rintro ⟨n, needed, missing⟩
  obtain rfl := some.inj ((show pagesNeeded 0 freshHeap 100 = some 1 by decide).symm.trans needed)
  rcases missing with missing | full
  · obtain ⟨j, low, high, used⟩ := missing 8 (by decide)
    obtain rfl : j = 8 := by omega
    exact absurd used (by decide +kernel)
  · exact full ⟨by decide, by decide, .inr (by decide)⟩

/-- **The largest size is served from a slot of 64 bytes.** -/
theorem kalloc_maxSize_not_contained :
    obtained 0 freshHeap (2 ^ 64 - 1) = some ⟨kallocBaseAddr + blockSize + 4032, 64⟩ ∧
    (kalloc 1 4 2 0 freshHeap (2 ^ 64 - 1)).map Prod.fst = some (kallocBaseAddr + blockSize + 4064) ∧
    ¬ Contained 1 4 2 0 freshHeap (2 ^ 64 - 1) := by
  have range : obtained 0 freshHeap (2 ^ 64 - 1) = some ⟨kallocBaseAddr + blockSize + 4032, 64⟩ := by decide +kernel
  have returned : (kalloc 1 4 2 0 freshHeap (2 ^ 64 - 1)).map Prod.fst = some (kallocBaseAddr + blockSize + 4064) := by
    decide +kernel
  refine ⟨range, returned, ?_⟩
  rintro ⟨p, heap', result, outcome⟩
  rw [result, map_some, some.injEq] at returned
  rcases outcome with null | ⟨got, same, low, high⟩
  · exact absurd (show 0 = kallocBaseAddr + blockSize + 4064 from null ▸ returned) (by decide)
  · obtain rfl := some.inj (range.symm.trans same)
    simp only [kallocRedzoneSize] at high
    omega

end Voxia.Memory
