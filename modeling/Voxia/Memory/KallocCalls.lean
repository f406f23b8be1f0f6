/-
**The calls of the kernel heap.**

What `kalloc` and the two frees do to a heap in good order (`HeapInv`), as long as both page allocators have what they
are asked for: the calls return, the heap stays in good order, and outside of the block that is handed out or given
back no byte changes.
-/

import Voxia.Memory.KallocSlots

namespace Voxia.Memory

open Lib List Option Nat HeapContents Bytes
open Cpu (PageDir pagingMmap pagingMultipleMmap pagePresent pageWritable pageUser pageNoExecute)

/-! ### Laying out and checking -/

abbrev zoneBytes : Bytes := fun i => littleEndian kallocRedzoneMagic (i % 4)

def layOutImage (image : Bytes) (slot size : Nat) : Bytes :=
  (((image.putWord64 slot size).putWord32 (slot + 8) kallocRedzoneMagic).copy (slot + 16) zoneBytes 16).copy
    (slot + 32 + size) zoneBytes 16

theorem laidOut_layOutImage (image : Bytes) {slot size : Nat} (word : size < 2 ^ 64) :
    LaidOut (layOutImage image slot size) slot size := by
  refine ⟨?_, ?_, fun i less => ?_, fun i less => ?_⟩
  · have same : (layOutImage image slot size).word64 slot = (image.putWord64 slot size).word64 slot := by
      refine word64_congr fun i less => ?_
      rw [layOutImage, copy_outside _ _ (by omega), copy_outside _ _ (by omega),
        putWord32_outside _ (by omega)]
    rw [same, word64_putWord64, mod_eq_of_lt word]
  · have same : (layOutImage image slot size).word32 (slot + 8) =
        ((image.putWord64 slot size).putWord32 (slot + 8) kallocRedzoneMagic).word32 (slot + 8) := by
      refine word32_congr fun i less => ?_
      rw [layOutImage, copy_outside _ _ (by omega), copy_outside _ _ (by omega)]
    rw [same, word32_putWord32]
    rfl
  · unfold kallocRedzoneSize at less
    rw [layOutImage, copy_outside _ _ (by omega), copy_inside _ _ less]
  · unfold kallocRedzoneSize at less
    rw [layOutImage, copy_inside _ _ less]

section Calls

variable {nil base : Nat} {heap : KernelHeap} {contents : HeapContents}

variable {slot size fuel node core total : Nat} {runs : List PageRun} {heap' : KernelHeap} {run : PageRun}
  {bucket : Bucket} {classSize : Nat → Nat}

theorem layOut_of_stores {heap₁ heap₂ heap₃ heap₄ : KernelHeap} (high : slot + size + 48 ≤ 2 ^ 64)
    (sized : heap.store slot (littleEndian size) 8 = some heap₁)
    (marked : heap₁.store (slot + 8) (littleEndian kallocRedzoneMagic) 4 = some heap₂)
    (before : heap₂.store (slot + 16) zoneBytes 16 = some heap₃)
    (after : heap₃.store (slot + 32 + size) zoneBytes 16 = some heap₄) :
    layOut heap slot size = some (slot + 32, heap₄) := by
  have low : u64 (slot + kallocMetadataSize) = slot + 16 := mod_eq_of_lt (by unfold kallocMetadataSize; omega)
  have data : u64 (slot + 16 + kallocRedzoneSize) = slot + 32 := mod_eq_of_lt (by unfold kallocRedzoneSize; omega)
  have behind : u64 (slot + 32 + size) = slot + 32 + size := mod_eq_of_lt (by omega)
  simp only [layOut, setupRedzone, low, data, behind, bind_eq_bind, sized, bind_some, marked]
  rw [show kallocRedzoneSize = 16 from rfl, before, bind_some, after]
  rfl

/-- **A block is laid out in vacant addresses**: the call returns, and the header and both red zones are there. -/
theorem HeapInv.layOut (inv : HeapInv nil base heap contents) {len : Nat} (vacant : Vacant base contents slot len)
    (fits : size + 48 ≤ len) (high : slot + len ≤ 2 ^ 64) :
    ∃ ram, layOut heap slot size = some (slot + 32, { heap with ram := ram }) ∧
      HeapInv nil base { heap with ram := ram } contents ∧
      LaidOut ({ heap with ram := ram } : KernelHeap).view slot size ∧
      ∀ a, HeapAddr base contents.runs a → a < slot ∨ slot + len ≤ a →
        ({ heap with ram := ram } : KernelHeap).view a = heap.view a := by
  obtain ⟨ram₁, sized, inv₁, view₁⟩ := inv.write (littleEndian size)
    (vacant.sub le_rfl (show slot + 8 ≤ slot + len by omega))
  obtain ⟨ram₂, marked, inv₂, view₂⟩ := inv₁.write (littleEndian kallocRedzoneMagic)
    (vacant.sub (show slot ≤ slot + 8 by omega) (show slot + 8 + 4 ≤ slot + len by omega))
  obtain ⟨ram₃, before, inv₃, view₃⟩ := inv₂.write zoneBytes
    (vacant.sub (show slot ≤ slot + 16 by omega) (show slot + 16 + 16 ≤ slot + len by omega))
  obtain ⟨ram₄, after, inv₄, view₄⟩ := inv₃.write zoneBytes
    (vacant.sub (show slot ≤ slot + 32 + size by omega) (show slot + 32 + size + 16 ≤ slot + len by omega))
  have image : ∀ a, HeapAddr base contents.runs a →
      ({ heap with ram := ram₄ } : KernelHeap).view a = layOutImage heap.view slot size a := by
    intro a member
    rw [view₄ a member]
    refine copy_congr_at zoneBytes ?_
    rw [view₃ a member]
    refine copy_congr_at zoneBytes ?_
    rw [view₂ a member]
    exact copy_congr_at _ (view₁ a member)
  refine ⟨ram₄, layOut_of_stores (by omega) sized marked before after, inv₄, ?_, fun a member outside => ?_⟩
  · refine (laidOut_layOutImage heap.view (by omega)).congr (fun i less => image _ ?_) fun i less => image _ ?_
    · exact vacant.inside i (by omega)
    · rw [add_assoc, add_assoc]
      exact vacant.inside _ (by omega)
  · rw [image a member, layOutImage, copy_outside _ _ (by omega), copy_outside _ _ (by omega),
      putWord32_outside _ (by omega), putWord64_outside _ (by omega)]

theorem PagesInv.checkRedzone (inv : PagesInv nil base heap runs) {p : Nat} (zone : Redzone heap.view p)
    (inside : ∀ i < 16, HeapAddr base runs (p + i)) : checkRedzone heap p = some true := by
  have word : ∀ k < 4, heap.load 4 (p + 4 * k) = some kallocRedzoneMagic := by
    intro k less
    rw [inv.load32 fun i small => ?_, zone.word32 less]
    rw [add_assoc]
    exact inside _ (by omega)
  -- one word after the other
  have words : ∀ n k, k + n ≤ 4 → checkWords heap n (p + 4 * k) = some true := by
    intro n
    induction n with
    | zero => exact fun k _ => rfl
    | succ n ih =>
      intro k small
      rw [checkWords, word k (by omega)]
      exact ih (k + 1) (by omega)
  exact words 4 0 (by omega)

/-! ### New pages -/

theorem PagesInv.view_eq {runs' : List PageRun} (inv : PagesInv nil base heap runs)
    (inv' : PagesInv nil base heap' runs') (sameRam : heap'.ram = heap.ram) (member : run ∈ runs)
    (member' : run ∈ runs') {v : Nat} (holds : run.Holds base v) : heap'.view v = heap.view v := by
  unfold KernelHeap.view Paged.loadByte
  rw [inv.place member holds, inv'.place member' holds, sameRam]

/-- Pages mapped or given back leave the lists as they are. -/
theorem HeapInv.rehouse (inv : HeapInv nil base heap contents) {loose : List PageRun}
    (pages : PagesInv nil base heap' (HeapContents.runs { contents with loose := loose }))
    (sameRam : heap'.ram = heap.ram) (sameCaches : heap'.cpuCaches = heap.cpuCaches) :
    HeapInv nil base heap' { contents with loose := loose } := by
  have slot : ∀ v bucket, contents.IsSlot base v bucket → ∀ i < bucket.size, heap'.view (v + i) = heap.view (v + i) := by
    intro v bucket isSlot i less
    obtain ⟨run, member, onePage, low, high⟩ := inv.slot_within isSlot
    refine inv.pages.view_eq pages sameRam (slab_mem member) (slab_mem member) ⟨by omega, ?_⟩
    omega
  refine { inv with
    pages := pages
    lists := fun core bucket => ?_
    counts := by rw [sameCaches]; exact inv.counts
    smallBlocks := fun block member => ?_
    largeBlocks := fun block member => ?_ }
  · rw [sameCaches]
    refine (inv.lists core bucket).congr fun v member => word64_congr fun i less => ?_
    have := bucket.size_pos
    exact slot v bucket (inv.freeSlots core bucket v member) i (by omega)
  · have isSlot := inv.smallSlots block member
    have fits := inv.small_fits member
    refine (inv.smallBlocks block member).congr (fun i less => slot _ _ isSlot i (by omega)) fun i less => ?_
    rw [add_assoc, add_assoc]
    exact slot _ _ isSlot _ (by omega)
  · have fits := inv.large_fits member
    have run : ∀ i < block.size + 48, heap'.view (block.run.virt base + i) = heap.view (block.run.virt base + i) :=
      fun i less => inv.pages.view_eq pages sameRam (HeapContents.large_mem member) (HeapContents.large_mem member)
        ⟨by omega, by omega⟩
    refine (inv.largeBlocks block member).congr (fun i less => run i (by omega)) fun i less => ?_
    rw [add_assoc, add_assoc]
    exact run _ (by omega)

section NewRun

variable {n fuel node : Nat} (inv : HeapInv nil base heap contents) (granted : Granted heap n)
  (ready : NodeReady nil fuel node heap)

include inv granted ready

/-- **A run is obtained and mapped**: it is loose, and no byte of the other runs has changed. -/
theorem HeapInv.newRun : ∃ run : PageRun, run.pages = n ∧ run.phys = (physBaseAlloc heap.phys n).1 ∧
    (takePages heap n).1 = run.virt base ∧
    RangeFits (run.virt base) run.phys n ∧
    ∀ dir size flags, MapsRange heap.pageDir dir (run.virt base) run.phys n →
      ∃ heap', vmaRegister nil fuel node
          { (takePages heap n).2 with pageDir := dir }
          run.phys (run.virt base) size flags = some heap' ∧
        HeapInv nil base heap' { contents with loose := run :: contents.loose } ∧
        heap'.cpuCaches = heap.cpuCaches ∧
        ∀ a, HeapAddr base contents.runs a → heap'.view a = heap.view a := by
  obtain ⟨run, pages, phys, address, fits, -, register⟩ := inv.pages.obtain granted ready
  refine ⟨run, pages, phys, address, fits, fun dir size flags maps => ?_⟩
  obtain ⟨vmm, registered, pagesInv⟩ := register dir size flags maps
  refine ⟨_, registered, inv.rehouse pagesInv rfl rfl, rfl, ?_⟩
  rintro a ⟨other, member, holds⟩
  exact inv.pages.view_eq pagesInv rfl member (mem_cons_of_mem _ member) holds

end NewRun

theorem allocPageLocked_eq (nil fuel node : Nat) (heap : KernelHeap) :
    allocPageLocked nil fuel node heap =
      (vmaRegister nil fuel node
        { (takePages heap 1).2 with
          pageDir := pagingMmap heap.pageDir
            (takePages heap 1).1
            (physBaseAlloc heap.phys 1).1 (pagePresent ||| pageWritable ||| pageUser) }
        (physBaseAlloc heap.phys 1).1 (takePages heap 1).1
        blockSize (pagePresent ||| pageWritable ||| pageNoExecute)).bind fun heap' =>
          some ((takePages heap 1).1, heap') := rfl

theorem HeapInv.allocPageLocked (inv : HeapInv nil base heap contents) (granted : Granted heap 1)
    (ready : NodeReady nil fuel node heap) :
    ∃ (run : PageRun) (heap' : KernelHeap), allocPageLocked nil fuel node heap = some (run.virt base, heap') ∧
      run.pages = 1 ∧ HeapInv nil base heap' { contents with loose := run :: contents.loose } ∧
      heap'.cpuCaches = heap.cpuCaches ∧ ∀ a, HeapAddr base contents.runs a → heap'.view a = heap.view a := by
  obtain ⟨run, pages, phys, address, fits, register⟩ := inv.newRun granted ready
  have maps : MapsRange heap.pageDir
      (pagingMmap heap.pageDir (run.virt base) run.phys (pagePresent ||| pageWritable ||| pageUser))
      (run.virt base) run.phys 1 :=
    pagingMmap_mapsRange heap.pageDir (by constructor <;> rfl) (by decide) fits
  obtain ⟨heap', registered, inv', caches, same⟩ := register _ blockSize
    (pagePresent ||| pageWritable ||| pageNoExecute) maps
  refine ⟨run, heap', ?_, pages, inv', caches, same⟩
  rw [allocPageLocked_eq, address, ← phys, registered]
  rfl

/-! ### Filling a list -/

theorem HeapContents.withFree_withFree (contents : HeapContents) (core : Nat) (bucket : Bucket) (slots slots' : List Nat) :
    (contents.withFree core bucket slots).withFree core bucket slots' = contents.withFree core bucket slots' := by
  simp [HeapContents.withFree]

theorem HeapContents.Unused.push {slot' : Nat} (unused : contents.Unused slot) (different : slot ≠ slot') (core : Nat)
    (bucket : Bucket) : (contents.withFree core bucket (slot' :: contents.free core bucket)).Unused slot := by
  refine ⟨fun core' bucket' => ?_, unused.2⟩
  rw [free_withFree]
  split_ifs with same
  · exact not_mem_cons_of_ne_of_not_mem different (unused.1 core bucket)
  · exact unused.1 core' bucket'

/-- **The loop that fills a list**: the slots of the page are pushed one after the other. -/
theorem pushSlots_spec (core : Nat) (rest i : Nat) (inv : HeapInv nil base heap contents)
    (member : (run, bucket) ∈ contents.slabs) (count : i + rest = blockSize / bucket.size)
    (unused : ∀ j, i ≤ j → j < blockSize / bucket.size → contents.Unused (run.virt base + j * bucket.size)) :
    ∃ heap' slots, pushSlots core bucket (run.virt base) rest i heap = some heap' ∧
      HeapInv nil base heap' (contents.withFree core bucket (slots ++ contents.free core bucket)) ∧
      slots.length = rest ∧
      ∀ a, HeapAddr base contents.runs a → ¬ run.Holds base a → heap'.view a = heap.view a := by
  induction rest generalizing i heap contents with
  | zero =>
    refine ⟨heap, [], rfl, ?_, rfl, fun _ _ _ => rfl⟩
    have same : contents.withFree core bucket ([] ++ contents.free core bucket) = contents := by
      simp [HeapContents.withFree]
    rw [same]
    exact inv
  | succ rest ih =>
    have here : i < blockSize / bucket.size := by omega
    have isSlot : contents.IsSlot base (run.virt base + i * bucket.size) bucket := ⟨run, member, i, here, rfl⟩
    obtain ⟨ram, stored, inv', same⟩ := inv.push core isSlot (unused i le_rfl here)
    obtain ⟨heap', slots, pushed, inv'', length, same'⟩ := ih (i + 1) inv' member (by omega) fun j later inside => by
      refine (unused j (by omega) inside).push (fun equal => ?_) core bucket
      have := bucket.size_pos
      have := eq_of_mul_eq_mul_right (by omega) (add_left_cancel equal)
      omega
    have bounds := (inv.slot_bounds isSlot).2
    have := bucket.size_pos
    refine ⟨heap', slots ++ [run.virt base + i * bucket.size], ?_, ?_, by simp [length], fun a there outside => ?_⟩
    · rw [pushSlots, u64_of_lt (by omega)]
      simp only [bind_eq_bind, stored, bind_some]
      exact pushed
    · rw [withFree_withFree, free_withFree, if_pos ⟨rfl, rfl⟩] at inv''
      rw [append_assoc]
      exact inv''
    · refine (same' a there outside).trans (same a there ?_)
      have ends := Bucket.slot_end here
      have onePage : run.pages = 1 := inv.onePage _ member
      unfold PageRun.Holds at outside
      omega

theorem HeapAddr.moreSlabs {a : Nat} (there : HeapAddr base contents.runs a) (slab : PageRun × Bucket) :
    HeapAddr base (HeapContents.runs { contents with slabs := slab :: contents.slabs }) a := by
  obtain ⟨run, member, holds⟩ := there
  refine ⟨run, ?_, holds⟩
  simp only [HeapContents.runs, map_cons, mem_append, mem_cons] at member ⊢
  tauto

/-- **A refill**: the list of the class has all slots of a new page in front. -/
theorem refill_spec (core : Nat) (bucket : Bucket) (inv : HeapInv nil base heap contents) (granted : Granted heap 1)
    (ready : NodeReady nil fuel node heap) :
    ∃ heap' run slots, refill nil fuel node core bucket heap = some heap' ∧
      HeapInv nil base heap' (HeapContents.withFree { contents with slabs := (run, bucket) :: contents.slabs }
        core bucket (slots ++ contents.free core bucket)) ∧
      slots ≠ [] ∧ ∀ a, HeapAddr base contents.runs a → heap'.view a = heap.view a := by
  obtain ⟨run, mapped, taken, onePage, inv', caches, same⟩ := inv.allocPageLocked granted ready
  have apart : ∀ v, HeapAddr base contents.runs v → ¬ run.Holds base v := fun v there holds => by
    have outside := inv'.loose_apart rfl there
    unfold PageRun.Holds at holds
    omega
  have inv'' := inv'.adoptSlab onePage bucket
  obtain ⟨heap', slots, pushed, filled, length, same'⟩ := pushSlots_spec core (blockSize / bucket.size) 0 inv''
    mem_cons_self (zero_add _) fun j _ inside => by
      -- the old slots are in other pages
      have old : ∀ slot bucket', contents.IsSlot base slot bucket' → slot ≠ run.virt base + j * bucket.size := by
        rintro slot bucket' isSlot rfl
        have ends := Bucket.slot_end inside
        have := bucket'.size_pos
        have := bucket.size_pos
        refine apart _ (inv.slot_addr isSlot (show 0 < bucket'.size by omega)) ⟨le_add_right _ _, ?_⟩
        omega
      exact ⟨fun core' bucket' member => old _ bucket' (inv.freeSlots core' bucket' _ member) rfl,
        fun block member same => old _ _ (inv.smallSlots block member) same⟩
  refine ⟨heap', run, slots, ?_, filled, ?_, fun a there => ?_⟩
  · rw [refill, taken]
    exact pushed
  · rintro rfl
    have positive : 0 < blockSize / bucket.size := by cases bucket <;> decide
    exact absurd length (by simp; omega)
  · exact (same' a (there.moreSlabs _) (apart a there)).trans (same a there)

/-! ### Allocating -/

/-- **An allocation from a list that is not empty**: the first slot is taken and the block is laid out in it. -/
theorem HeapInv.popAndLayOut (inv : HeapInv nil base heap contents) {rest : List Nat}
    (list : contents.free core bucket = slot :: rest) (positive : 0 < size)
    (class' : bucketOf (size + metadataOverhead) = some bucket) :
    ∃ next heap', heap.load 8 slot = some next ∧
      Memory.layOut (heap.setCache core bucket next rest.length) slot size = some (slot + 32, heap') ∧
      HeapInv nil base heap'
        { contents.withFree core bucket rest with small := ⟨slot, bucket, size⟩ :: contents.small } ∧
      ∀ a, HeapAddr base contents.runs a → a < slot ∨ slot + bucket.size ≤ a → heap'.view a = heap.view a := by
  obtain ⟨-, -, isSlot, next, loaded, popped, unused⟩ := inv.pop list
  obtain ⟨ram, laid, inv', block, same⟩ := popped.layOut (popped.vacant_slot isSlot unused) (bucketOf_fits class')
    (inv.slot_bounds isSlot).2
  refine ⟨next, _, loaded, laid, ?_, same⟩
  exact inv'.adoptSmall isSlot unused positive class' block

theorem kallocSlabAlloc_filled {filled : KernelHeap}
    (whole : (if (heap.cpuCaches core).count bucket = 0 then refill nil fuel node core bucket heap else some heap) =
      some filled) :
    kallocSlabAlloc nil fuel node core bucket heap size =
      (filled.load 8 ((filled.cpuCaches core).head bucket)).bind fun next =>
        layOut (filled.setCache core bucket next ((filled.cpuCaches core).count bucket - 1))
          ((filled.cpuCaches core).head bucket) size := by
  unfold kallocSlabAlloc
  split_ifs at whole ⊢ with empty
  · rw [whole]
    rfl
  · obtain rfl := some.inj whole
    rfl

/-- A small block comes off the list of its class, which may have to be filled first. -/
theorem kallocSlabAlloc_spec (inv : HeapInv nil base heap contents) (positive : 0 < size)
    (class' : bucketOf (size + metadataOverhead) = some bucket)
    (granted : (heap.cpuCaches core).count bucket = 0 → Granted heap 1) (ready : NodeReady nil fuel node heap) :
    ∃ slot heap' slabs free, kallocSlabAlloc nil fuel node core bucket heap size = some (slot + 32, heap') ∧
      HeapInv nil base heap'
        { contents with slabs := slabs, free := free, small := ⟨slot, bucket, size⟩ :: contents.small } ∧
      (∀ core' bucket' other, other ∈ contents.free core' bucket' → other ≠ slot → other ∈ free core' bucket') ∧
      ∀ a, HeapAddr base contents.runs a → a < slot ∨ slot + bucket.size ≤ a → heap'.view a = heap.view a := by
  -- the heap from which the slot is taken
  obtain ⟨filled, slabs, slots, whole, inv', notEmpty, kept, same⟩ : ∃ filled slabs slots,
      (if (heap.cpuCaches core).count bucket = 0 then refill nil fuel node core bucket heap else some heap) = some filled ∧
      HeapInv nil base filled (HeapContents.withFree { contents with slabs := slabs } core bucket slots) ∧
      slots ≠ [] ∧ (∀ other ∈ contents.free core bucket, other ∈ slots) ∧
      ∀ a, HeapAddr base contents.runs a →
        HeapAddr base (HeapContents.runs { contents with slabs := slabs }) a ∧ filled.view a = heap.view a := by
    split_ifs with empty
    · obtain ⟨filled, run, slots, refilled, inv', some', same⟩ := refill_spec core bucket inv (granted empty) ready
      exact ⟨filled, _, _, refilled, inv', by simp [some'], fun other member => mem_append_right _ member,
        fun a there => ⟨there.moreSlabs _, same a there⟩⟩
    · refine ⟨heap, contents.slabs, contents.free core bucket, rfl, ?_, fun none => empty ?_, fun _ member => member,
        fun _ there => ⟨there, rfl⟩⟩
      · have unchanged : contents.withFree core bucket (contents.free core bucket) = contents := by
          simp [HeapContents.withFree]
        rw [unchanged]
        exact inv
      · rw [inv.counts, none, length_nil]
  obtain ⟨slot, rest, rfl⟩ := exists_cons_of_ne_nil notEmpty
  have list := free_withFree { contents with slabs := slabs } core core bucket bucket (slot :: rest)
  rw [if_pos ⟨rfl, rfl⟩] at list
  obtain ⟨head, count, -⟩ := inv'.pop list
  obtain ⟨next, heap', loaded, laid, inv'', same'⟩ := inv'.popAndLayOut list positive class'
  rw [withFree_withFree] at inv''
  refine ⟨slot, heap', slabs, _, ?_, inv'', fun core' bucket' other member different => ?_, fun a there outside => ?_⟩
  · rw [kallocSlabAlloc_filled whole, head, loaded, count, Nat.add_sub_cancel]
    exact laid
  · have frees := free_withFree { contents with slabs := slabs } core core' bucket bucket' rest
    rw [frees]
    split_ifs with here
    · rw [here.1, here.2] at member
      exact (mem_cons.mp (kept other member)).resolve_left different
    · exact member
  · obtain ⟨there', view⟩ := same a there
    exact (same' a there' outside).trans view

theorem pageCountOf_eq (word : total + 4095 < 2 ^ 64) : pageCountOf total = (total + 4095) / 4096 := by
  rw [pageCountOf, alignUp_blockSize word]
  exact Nat.mul_div_cancel _ (by decide)

theorem pageCountOf_wraps (word : total < 2 ^ 64) (wraps : 2 ^ 64 ≤ total + 4095) : pageCountOf total = 0 := by
  have rest : u64 (total + 4095) = total + 4095 - 2 ^ 64 := by
    unfold u64
    omega
  have down := alignDown_blockSize (u64_lt (total + 4095))
  rw [pageCountOf, show alignUp total blockSize = alignDown (u64 (total + 4095)) blockSize from rfl, down, rest]
  unfold blockSize
  omega

theorem pageCountOf_enough (word : total < 2 ^ 64) (some' : 0 < pageCountOf total) :
    total ≤ pageCountOf total * 4096 := by
  by_cases wraps : 2 ^ 64 ≤ total + 4095
  · rw [pageCountOf_wraps word wraps] at some'
    exact absurd some' (lt_irrefl 0)
  · rw [pageCountOf_eq (by omega)]
    omega

theorem kallocLarge_eq (nil fuel node : Nat) (heap : KernelHeap) {n : Nat}
    (pages : pageCountOf (u64 (size + metadataOverhead)) = n) :
    kallocLarge nil fuel node heap size =
      (vmaRegister nil fuel node
        { (takePages heap n).2 with
          pageDir := pagingMultipleMmap heap.pageDir
            (takePages heap n).1
            (physBaseAlloc heap.phys n).1 n (pagePresent ||| pageWritable) }
        (physBaseAlloc heap.phys n).1 (takePages heap n).1
        (u64 (n * blockSize)) (pagePresent ||| pageWritable ||| pageNoExecute)).bind fun heap' =>
          layOut heap' (takePages heap n).1 size := by
  subst pages
  rfl

/-- A large block gets pages of its own. -/
theorem kallocLarge_spec (inv : HeapInv nil base heap contents) (word : size + metadataOverhead < 2 ^ 64)
    (class' : bucketOf (size + metadataOverhead) = none)
    (granted : Granted heap (pageCountOf (size + metadataOverhead))) (ready : NodeReady nil fuel node heap) :
    ∃ run heap', kallocLarge nil fuel node heap size = some (run.virt base + 32, heap') ∧
      HeapInv nil base heap' { contents with large := ⟨run, size⟩ :: contents.large } ∧
      ∀ a, HeapAddr base contents.runs a → heap'.view a = heap.view a := by
  obtain ⟨run, pages, phys, address, fits, register⟩ := inv.newRun granted ready
  have maps : MapsRange heap.pageDir
      (pagingMultipleMmap heap.pageDir (run.virt base) run.phys (pageCountOf (size + metadataOverhead))
        (pagePresent ||| pageWritable)) (run.virt base) run.phys (pageCountOf (size + metadataOverhead)) :=
    pagingMultipleMmap_mapsRange heap.pageDir (by constructor <;> rfl) (by decide) fits
  obtain ⟨mapped, registered, inv', caches, same⟩ := register _
    (u64 (pageCountOf (size + metadataOverhead) * blockSize)) (pagePresent ||| pageWritable ||| pageNoExecute) maps
  have enough : size + metadataOverhead ≤ run.pages * 4096 := by
    rw [pages]
    exact pageCountOf_enough word granted.2.1.1
  obtain ⟨ram, laid, inv'', block, same'⟩ := inv'.layOut (inv'.vacant_loose mem_cons_self) enough
    (inv'.pages.bounds mem_cons_self).2.2
  refine ⟨run, { mapped with ram := ram }, ?_, inv''.adoptLarge class' pages enough block, fun a there => ?_⟩
  · rw [kallocLarge_eq nil fuel node heap (congrArg pageCountOf (u64_of_lt word)), address, ← phys, registered]
    exact laid
  · have outside := inv'.loose_apart rfl there
    obtain ⟨other, member, holds⟩ := there
    exact (same' a ⟨other, mem_cons_of_mem _ member, holds⟩ outside).trans (same a ⟨other, member, holds⟩)

/-! ### Freeing -/

theorem kfree_header (low : slot + 32 ≤ 2 ^ 64) :
    u64 (slot + 32 + (2 ^ 64 - (kallocMetadataSize + kallocRedzoneSize))) = slot := by
  unfold u64 kallocMetadataSize kallocRedzoneSize
  omega

/-- A free of a slot without the magic number changes nothing. -/
theorem kfreeBy_unmarked (low : slot + 32 ≤ 2 ^ 64) {magic : Nat} (loaded : heap.load 4 (slot + 8) = some magic)
    (unmarked : magic ≠ kallocRedzoneMagic) : kfreeBy nil fuel classSize core heap (slot + 32) = some heap := by
  rw [kfreeBy, kfree_header low]
  simp only [bind_eq_bind, loaded, bind_some, if_pos unmarked]

/-- kfree of a block reads its size back and frees its slot or its pages. -/
theorem kfreeBy_laidOut (inv : PagesInv nil base heap runs) (laid : LaidOut heap.view slot size)
    (inside : ∀ i < size + 48, HeapAddr base runs (slot + i))
    (notNull : slot ≠ 0) (high : slot + (size + 48) ≤ 2 ^ 64) (sized : classSize size = size) :
    kfreeBy nil fuel classSize core heap (slot + 32) =
      match bucketOf (size + metadataOverhead) with
      | some bucket => freeSlot core bucket heap slot
      | none => freePages nil fuel heap slot (size + metadataOverhead) := by
  have magic : heap.load 4 (slot + 8) = some kallocRedzoneMagic := by
    rw [← laid.magic]
    refine inv.load32 fun i less => ?_
    rw [add_assoc]
    exact inside _ (by omega)
  have header : heap.load 8 slot = some size := by
    rw [inv.load64 fun i less => inside i (by omega), laid.sized]
  have before : checkRedzone heap (u64 (slot + kallocMetadataSize)) = some true := by
    have low : u64 (slot + kallocMetadataSize) = slot + 16 := mod_eq_of_lt (by unfold kallocMetadataSize; omega)
    rw [low]
    refine inv.checkRedzone laid.before fun i less => ?_
    rw [add_assoc]
    exact inside _ (by omega)
  have after : checkRedzone heap (u64 (slot + 32 + size)) = some true := by
    rw [u64_of_lt (by omega)]
    refine inv.checkRedzone laid.after fun i less => ?_
    rw [add_assoc, add_assoc]
    exact inside _ (by omega)
  have total : u64 (size + metadataOverhead) = size + metadataOverhead :=
    mod_eq_of_lt (by unfold metadataOverhead kallocMetadataSize kallocRedzoneSize; omega)
  rw [kfreeBy, kfree_header (by omega)]
  cases bucket : bucketOf (size + metadataOverhead) <;>
    simp only [bind_eq_bind, magic, bind_some, header, before, after, sized, total, ne_eq,
      not_true_eq_false, if_false, Bool.not_true, Bool.false_eq_true, bucket]

/-- **A small block is freed**: its slot is cleared and pushed. -/
theorem kfreeBy_small (inv : HeapInv nil base heap contents) {block : SmallBlock} (member : block ∈ contents.small)
    (sized : classSize block.size = block.size) :
    ∃ heap', kfreeBy nil fuel classSize core heap (block.slot + 32) = some heap' ∧
      HeapInv nil base heap' (HeapContents.withFree { contents with small := contents.small.erase block }
        core block.bucket (block.slot :: contents.free core block.bucket)) ∧
      heap'.view.word32 (block.slot + 8) = 0 ∧
      ∀ a, HeapAddr base contents.runs a → a < block.slot ∨ block.slot + block.bucket.size ≤ a →
        heap'.view a = heap.view a := by
  have isSlot := inv.smallSlots block member
  have fits := inv.small_fits member
  have bounds := inv.slot_bounds isSlot
  have class' := (inv.smallSize block member).2
  obtain ⟨dropped, unused⟩ := inv.dropSmall member
  obtain ⟨ram, cleared, inv', zeros⟩ := dropped.write (fun _ => 0) (dropped.vacant_slot isSlot unused)
  obtain ⟨ram', linked, inv'', same⟩ := inv'.push core isSlot unused
  refine ⟨_, ?_, inv'', ?_, fun a there outside => ?_⟩
  · rw [kfreeBy_laidOut inv.pages (inv.smallBlocks block member) (fun i less => inv.slot_addr isSlot (by omega))
      bounds.1 (by omega) sized, class']
    simp only [freeSlot, bind_eq_bind, cleared, bind_some]
    rw [linked]
    rfl
  · have same' : (KernelHeap.view { heap with ram := ram' }).word32 (block.slot + 8) =
        word32 (fun _ => 0) (block.slot + 8) := by
      refine word32_congr fun i less => ?_
      have there : HeapAddr base contents.runs (block.slot + 8 + i) := by
        rw [add_assoc]
        exact inv.slot_addr isSlot (by omega)
      rw [same _ there (by omega), zeros _ there, add_assoc, copy_inside _ _ (by omega)]
    exact same'
  · refine (same a there (by omega)).trans ?_
    rw [zeros a there, copy_outside _ _ outside]

/-- **A large block is freed**: its run is cleared and given back. -/
theorem kfreeBy_large (inv : HeapInv nil base heap contents) {block : LargeBlock} (member : block ∈ contents.large)
    (sized : classSize block.size = block.size) (bound : TreeBound nil fuel heap) :
    ∃ heap', kfreeBy nil fuel classSize core heap (block.run.virt base + 32) = some heap' ∧
      HeapInv nil base heap' { contents with large := contents.large.erase block } ∧
      ∀ a, HeapAddr base (HeapContents.runs { contents with large := contents.large.erase block }) a →
        heap'.view a = heap.view a := by
  obtain ⟨class', pages, fits⟩ := inv.largeSize block member
  have bounds := inv.pages.bounds (HeapContents.large_mem member)
  have floor := inv.pages.low
  have begins : base ≤ block.run.virt base := le_add_right _ _
  have total : block.size + metadataOverhead = block.size + 48 := rfl
  have dropped := inv.dropLarge member
  obtain ⟨ram, cleared, inv', zeros⟩ := dropped.write (fun _ => 0)
    ((dropped.vacant_loose mem_cons_self).sub le_rfl (Nat.add_le_add_left fits _))
  obtain ⟨found, area, vmm, search, notNil, data, frame, unregistered, released⟩ :=
    inv'.pages.release mem_cons_self bound
  rw [HeapContents.runs, cons_append, erase_cons_head] at released
  refine ⟨withoutRun { heap with ram := ram } vmm (block.run.virt base) block.run.phys block.run.pages, ?_,
    inv'.rehouse released rfl rfl, fun a there => ?_⟩
  · rw [kfreeBy_laidOut inv.pages (inv.largeBlocks block member)
      (fun i less => ⟨block.run, HeapContents.large_mem member, le_add_right _ _, by omega⟩) (by omega) (by omega)
      sized, class']
    have data' : (heap.vmm.heap found).data = some area := data
    simp only [freePages, bind_eq_bind, cleared, bind_some, search, if_neg notNil, data', unregistered,
      frame, ← pages]
    rfl
  · have outside := inv'.loose_apart rfl there
    obtain ⟨other, member', holds⟩ := there
    have there' : HeapAddr base (HeapContents.runs { contents with
        loose := block.run :: contents.loose, large := contents.large.erase block }) a :=
      ⟨other, mem_cons_of_mem _ member', holds⟩
    refine (inv'.pages.view_eq released rfl (mem_cons_of_mem _ member') member' holds).trans ?_
    exact (zeros a there').trans (copy_outside _ _ (by omega))

end Calls

end Voxia.Memory
