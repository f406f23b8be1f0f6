/-
**Slots, lists and blocks of the kernel heap.**

The page runs of a heap are slabs, cut into slots of one size class, and runs of their own for large blocks. `HeapInv`
says what lies in them. All steps of the source are made of a few moves, and each keeps it.
-/

import Voxia.Lib.Chains
import Voxia.Memory.KallocPages

namespace Voxia.Memory

open Function Lib List Nat Bytes

/-! ### Blocks in memory -/

def RangesApart (v count s n : Nat) : Prop := v + count ≤ s ∨ s + n ≤ v

def Redzone (image : Bytes) (p : Nat) : Prop :=
  ∀ i < kallocRedzoneSize, image (p + i) = littleEndian kallocRedzoneMagic (i % 4)

/-- A block in use: its header and both red zones. -/
structure LaidOut (image : Bytes) (slot size : Nat) : Prop where
  sized : image.word64 slot = size
  magic : image.word32 (slot + 8) = kallocRedzoneMagic
  before : Redzone image (slot + 16)
  after : Redzone image (slot + 32 + size)

/-- A write that spares the header and the red zones of a block. -/
def Spares (v count slot size : Nat) : Prop :=
  RangesApart v count slot 32 ∧ RangesApart v count (slot + 32 + size) 16

variable {image image' : Bytes} {p total : Nat} {bucket : Bucket}

theorem Redzone.congr (zone : Redzone image p)
    (same : ∀ i < 16, image' (p + i) = image (p + i)) : Redzone image' p := by
  intro i less
  rw [same i less]
  exact zone i less

theorem LaidOut.congr {slot size : Nat} (block : LaidOut image slot size)
    (header : ∀ i < 32, image' (slot + i) = image (slot + i))
    (zone : ∀ i < 16, image' (slot + 32 + size + i) = image (slot + 32 + size + i)) : LaidOut image' slot size where
  sized := (word64_congr fun i less => header i (by omega)).trans block.sized
  magic := (word32_congr fun i less => by
    rw [add_assoc]
    exact header (8 + i) (by omega)).trans block.magic
  before := block.before.congr fun i less => by
    rw [add_assoc]
    exact header (16 + i) (by omega)
  after := block.after.congr zone

theorem Redzone.word32 (zone : Redzone image p) {k : Nat} (inside : k < 4) :
    image.word32 (p + 4 * k) = kallocRedzoneMagic := by
  have byte : ∀ i < 4, image (p + 4 * k + i) = littleEndian kallocRedzoneMagic i := by
    intro i less
    rw [add_assoc, zone (4 * k + i) (by unfold kallocRedzoneSize; omega), show (4 * k + i) % 4 = i by omega]
  have same : image.word32 (p + 4 * k) = (image.putWord32 (p + 4 * k) kallocRedzoneMagic).word32 (p + 4 * k) :=
    word32_congr fun i less => by rw [byte i less, putWord32, copy_inside _ _ less]
  rw [same, word32_putWord32]
  rfl

/-! ### What a heap holds -/

structure SmallBlock where
  slot : Nat
  bucket : Bucket
  size : Nat
  deriving DecidableEq

structure LargeBlock where
  run : PageRun
  size : Nat
  deriving DecidableEq

/-- The contents of a heap: the slabs with their classes, the blocks in use, the free lists by core and class, and
the runs that are being set up or given back. -/
structure HeapContents where
  slabs : List (PageRun × Bucket)
  small : List SmallBlock
  large : List LargeBlock
  free : Nat → Bucket → List Nat
  loose : List PageRun

namespace HeapContents

def runs (contents : HeapContents) : List PageRun :=
  contents.loose ++ (contents.slabs.map Prod.fst ++ contents.large.map LargeBlock.run)

def IsSlot (base : Nat) (contents : HeapContents) (slot : Nat) (bucket : Bucket) : Prop :=
  ∃ run, (run, bucket) ∈ contents.slabs ∧ ∃ i < blockSize / bucket.size, slot = run.virt base + i * bucket.size

def Unused (contents : HeapContents) (slot : Nat) : Prop :=
  (∀ core bucket, slot ∉ contents.free core bucket) ∧ ∀ block ∈ contents.small, block.slot ≠ slot

end HeapContents

/-- **What the memory of a heap holds.** -/
structure HeapInv (nil base : Nat) (heap : KernelHeap) (contents : HeapContents) : Prop where
  pages : PagesInv nil base heap contents.runs
  onePage : ∀ slab ∈ contents.slabs, slab.1.pages = 1
  /-- Every list is a chain through the slots, as long as its count. -/
  lists : ∀ core bucket, Linked heap.view.word64 (· = 0) ((heap.cpuCaches core).head bucket)
    (contents.free core bucket)
  counts : ∀ core bucket, (heap.cpuCaches core).count bucket = (contents.free core bucket).length
  freeSlots : ∀ core bucket, ∀ slot ∈ contents.free core bucket, contents.IsSlot base slot bucket
  freeOnce : ∀ core bucket core' bucket' slot, slot ∈ contents.free core bucket →
    slot ∈ contents.free core' bucket' → core = core' ∧ bucket = bucket'
  smallSlots : ∀ block ∈ contents.small, contents.IsSlot base block.slot block.bucket
  smallOnce : (contents.small.map SmallBlock.slot).Nodup
  smallNotFree : ∀ block ∈ contents.small, ∀ core bucket, block.slot ∉ contents.free core bucket
  smallSize : ∀ block ∈ contents.small, 0 < block.size ∧ bucketOf (block.size + metadataOverhead) = some block.bucket
  smallBlocks : ∀ block ∈ contents.small, LaidOut heap.view block.slot block.size
  largeSize : ∀ block ∈ contents.large, bucketOf (block.size + metadataOverhead) = none ∧
    block.run.pages = pageCountOf (block.size + metadataOverhead) ∧ block.size + metadataOverhead ≤ block.run.pages * 4096
  largeBlocks : ∀ block ∈ contents.large, LaidOut heap.view (block.run.virt base) block.size

/-! ### Sizes -/

theorem Bucket.size_pos (bucket : Bucket) : 64 ≤ bucket.size ∧ bucket.size ≤ 2048 ∧ 4096 % bucket.size = 0 := by
  cases bucket <;> decide

theorem bucketOf_fits (class' : bucketOf total = some bucket) : total ≤ bucket.size := by
  unfold bucketOf at class'
  split_ifs at class' <;> (obtain rfl := Option.some.inj class'; simpa [Bucket.size])

theorem bucketOf_none : bucketOf total = none ↔ 2048 < total := by
  unfold bucketOf
  split_ifs <;> simp <;> omega

theorem Bucket.slot_end {i : Nat} (inside : i < blockSize / bucket.size) : i * bucket.size + bucket.size ≤ 4096 := by
  have whole : (i + 1) * bucket.size ≤ blockSize / bucket.size * bucket.size := mul_le_mul_right _ inside
  have below : blockSize / bucket.size * bucket.size ≤ 4096 := div_mul_le_self _ _
  rw [succ_mul] at whole
  omega

section Pieces

variable {nil base : Nat} {heap : KernelHeap} {contents : HeapContents}

variable {run : PageRun} {bucket : Bucket} {slot v count s n v' count' : Nat} {block : SmallBlock}
  {loose : List PageRun}

theorem HeapContents.slab_mem (member : (run, bucket) ∈ contents.slabs) : run ∈ contents.runs :=
  mem_append_right _ (mem_append_left _ (mem_map_of_mem member))

theorem HeapContents.large_mem {block : LargeBlock} (member : block ∈ contents.large) : block.run ∈ contents.runs :=
  mem_append_right _ (mem_append_right _ (mem_map_of_mem member))

theorem HeapContents.loose_mem (member : run ∈ contents.loose) : run ∈ contents.runs :=
  mem_append_left _ member

open HeapContents (slab_mem large_mem loose_mem)

section

variable (inv : HeapInv nil base heap contents)

include inv

section

variable (isSlot : contents.IsSlot base slot bucket)

include isSlot

theorem HeapInv.slot_within : ∃ run, (run, bucket) ∈ contents.slabs ∧ run.pages = 1 ∧ run.virt base ≤ slot ∧
      slot + bucket.size ≤ run.virt base + 4096 := by
  obtain ⟨run, member, i, inside, rfl⟩ := isSlot
  have ends := Bucket.slot_end inside
  exact ⟨run, member, inv.onePage _ member, le_add_right _ _, by omega⟩

theorem HeapInv.slot_addr {i : Nat} (inside : i < bucket.size) : HeapAddr base contents.runs (slot + i) := by
  obtain ⟨run, member, pages, low, high⟩ := inv.slot_within isSlot
  exact ⟨run, slab_mem member, by omega, by rw [pages]; omega⟩

theorem HeapInv.slot_bounds : slot ≠ 0 ∧ slot + bucket.size ≤ 2 ^ 64 := by
  obtain ⟨run, member, pages, low, high⟩ := inv.slot_within isSlot
  have bounds := inv.pages.bounds (slab_mem member)
  have floor := inv.pages.low
  have begins : base ≤ run.virt base := le_add_right _ _
  omega

end

theorem HeapInv.runs_apart {other : PageRun} (member : run ∈ contents.runs)
    (member' : other ∈ contents.runs) (different : run ≠ other) :
    RangesApart (run.virt base) (run.pages * 4096) (other.virt base) (other.pages * 4096) := by
  have apart := (inv.pages.apart member member' different).1
  unfold Span.Apart PageRun.span at apart
  unfold RangesApart PageRun.virt
  dsimp only at apart
  omega

theorem HeapInv.runs_nodup : (∀ run ∈ contents.loose, ∀ slab ∈ contents.slabs, run ≠ slab.1) ∧
    (∀ run ∈ contents.loose, ∀ block ∈ contents.large, run ≠ block.run) ∧
    (contents.slabs.map Prod.fst).Nodup ∧ (contents.large.map LargeBlock.run).Nodup ∧
    ∀ slab ∈ contents.slabs, ∀ block ∈ contents.large, slab.1 ≠ block.run := by
  have nodup := inv.pages.nodup
  rw [HeapContents.runs, nodup_append, nodup_append] at nodup
  obtain ⟨-, ⟨slabs, larges, apart⟩, loose⟩ := nodup
  exact ⟨fun run member slab member' => loose run member _ (mem_append_left _ (mem_map_of_mem member')),
    fun run member block member' => loose run member _ (mem_append_right _ (mem_map_of_mem member')),
    slabs, larges, fun slab member block member' => apart _ (mem_map_of_mem member) _ (mem_map_of_mem member')⟩

theorem HeapInv.loose_apart {others : List PageRun}
    (split : contents.runs = run :: others) (there : HeapAddr base others v) :
    v < run.virt base ∨ run.virt base + run.pages * 4096 ≤ v := by
  obtain ⟨other, member, holds⟩ := there
  have nodup := inv.pages.nodup
  rw [split] at nodup
  have different : run ≠ other := fun equal => (nodup_cons.mp nodup).1 (equal ▸ member)
  have apart := inv.runs_apart (split ▸ mem_cons_self) (split ▸ mem_cons_of_mem _ member) different
  unfold RangesApart at apart
  unfold PageRun.Holds at holds
  omega

/-- Two slots share no byte. -/
theorem HeapInv.slots_apart {slot' : Nat} {bucket' : Bucket}
    (isSlot : contents.IsSlot base slot bucket) (isSlot' : contents.IsSlot base slot' bucket') (different : slot ≠ slot') :
    RangesApart slot bucket.size slot' bucket'.size := by
  obtain ⟨run, member, i, inside, rfl⟩ := isSlot
  obtain ⟨run', member', j, inside', rfl⟩ := isSlot'
  have ends := Bucket.slot_end inside
  have ends' := Bucket.slot_end inside'
  unfold RangesApart
  by_cases same : run = run'
  · obtain ⟨-, -, slabs, -, -⟩ := inv.runs_nodup
    have equal : (run, bucket) = (run', bucket') := inj_on_of_nodup_map slabs member member' same
    obtain ⟨rfl, rfl⟩ := Prod.mk.inj equal
    have distinct : i ≠ j := fun equal => different (by rw [equal])
    rcases lt_or_gt_of_ne distinct with less | more
    · have step : (i + 1) * bucket.size ≤ j * bucket.size := mul_le_mul_right _ less
      rw [succ_mul] at step
      omega
    · have step : (j + 1) * bucket.size ≤ i * bucket.size := mul_le_mul_right _ more
      rw [succ_mul] at step
      omega
  · have apart := inv.runs_apart (slab_mem member) (slab_mem member') same
    have pages : run.pages = 1 := inv.onePage _ member
    have pages' : run'.pages = 1 := inv.onePage _ member'
    unfold RangesApart at apart
    omega

theorem HeapInv.slot_run_apart (isSlot : contents.IsSlot base slot bucket) (member : run ∈ contents.runs)
    (notSlab : ∀ slab ∈ contents.slabs, run ≠ slab.1) :
    RangesApart slot bucket.size (run.virt base) (run.pages * 4096) := by
  obtain ⟨slab, member', pages, low, high⟩ := inv.slot_within isSlot
  have apart := inv.runs_apart (slab_mem member') member (Ne.symm (notSlab _ member'))
  unfold RangesApart at *
  omega

theorem HeapInv.slot_large_apart {block : LargeBlock} (isSlot : contents.IsSlot base slot bucket)
    (member : block ∈ contents.large) : RangesApart slot bucket.size (block.run.virt base) (block.run.pages * 4096) :=
  inv.slot_run_apart isSlot (large_mem member) fun slab member' =>
    Ne.symm (inv.runs_nodup.2.2.2.2 slab member' block member)

end

/-! ### Writing -/

/-- Addresses of the heap with no link, header or red zone in them. -/
structure Vacant (base : Nat) (contents : HeapContents) (v count : Nat) : Prop where
  inside : ∀ i < count, HeapAddr base contents.runs (v + i)
  links : ∀ core bucket, ∀ slot ∈ contents.free core bucket, RangesApart v count slot 8
  smalls : ∀ block ∈ contents.small, Spares v count block.slot block.size
  larges : ∀ block ∈ contents.large, Spares v count (block.run.virt base) block.size

theorem RangesApart.sub (apart : RangesApart v count s n) (low : v ≤ v')
    (high : v' + count' ≤ v + count) : RangesApart v' count' s n := by
  unfold RangesApart at *
  omega

theorem RangesApart.symm (apart : RangesApart v count s n) : RangesApart s n v count := Or.symm apart

theorem RangesApart.spares {size : Nat} (apart : RangesApart v count s n) (fits : size + 48 ≤ n) :
    Spares v count s size := by
  unfold Spares RangesApart at *
  omega

theorem RangesApart.link (apart : RangesApart v count slot bucket.size) : RangesApart v count slot 8 := by
  have := bucket.size_pos
  unfold RangesApart at *
  omega

theorem Vacant.sub (vacant : Vacant base contents v count) (low : v ≤ v')
    (high : v' + count' ≤ v + count) : Vacant base contents v' count' where
  inside i less := by
    have there := vacant.inside (v' - v + i) (by omega)
    rwa [show v + (v' - v + i) = v' + i by omega] at there
  links core bucket slot member := (vacant.links core bucket slot member).sub low high
  smalls block member := (vacant.smalls block member).imp (fun apart => apart.sub low high) fun apart => apart.sub low high
  larges block member := (vacant.larges block member).imp (fun apart => apart.sub low high) fun apart => apart.sub low high

section

variable (inv : HeapInv nil base heap contents)

include inv

theorem HeapInv.small_fits (member : block ∈ contents.small) : block.size + 48 ≤ block.bucket.size :=
  bucketOf_fits (inv.smallSize block member).2

theorem HeapInv.large_fits {block : LargeBlock} (member : block ∈ contents.large) :
    block.size + 48 ≤ block.run.pages * 4096 :=
  (inv.largeSize block member).2.2

theorem HeapInv.vacant_slot (isSlot : contents.IsSlot base slot bucket) (unused : contents.Unused slot) :
    Vacant base contents slot bucket.size where
  inside i less := inv.slot_addr isSlot less
  links core bucket' slot' member := by
    have isSlot' := inv.freeSlots core bucket' slot' member
    exact (inv.slots_apart isSlot isSlot' fun same => unused.1 core bucket' (same ▸ member)).link
  smalls block member := by
    have apart := inv.slots_apart isSlot (inv.smallSlots block member) fun same => unused.2 block member same.symm
    exact apart.spares (inv.small_fits member)
  larges block member := (inv.slot_large_apart isSlot member).spares (inv.large_fits member)

theorem HeapInv.vacant_loose (member : run ∈ contents.loose) :
    Vacant base contents (run.virt base) (run.pages * 4096) where
  inside i less := ⟨run, loose_mem member, le_add_right _ _, by omega⟩
  links core bucket slot member' := by
    have apart := inv.slot_run_apart (inv.freeSlots core bucket slot member') (loose_mem member)
      (inv.runs_nodup.1 run member)
    exact apart.symm.link
  smalls block member' := by
    have apart := inv.slot_run_apart (inv.smallSlots block member') (loose_mem member)
      (inv.runs_nodup.1 run member)
    exact apart.symm.spares (inv.small_fits member')
  larges block member' := by
    have apart := inv.runs_apart (loose_mem member) (large_mem member')
      (inv.runs_nodup.2.1 run member block member')
    exact apart.spares (inv.large_fits member')

/-- Bytes of no list and no block may change. -/
theorem HeapInv.otherBytes {ram : Bytes} (vacant : Vacant base contents v count)
    (same : ∀ a, HeapAddr base contents.runs a → a < v ∨ v + count ≤ a →
      ({ heap with ram := ram } : KernelHeap).view a = heap.view a) :
    HeapInv nil base { heap with ram := ram } contents := by
  have header : ∀ slot size, Spares v count slot size →
      (∀ i < size + 48, HeapAddr base contents.runs (slot + i)) → LaidOut heap.view slot size →
      LaidOut ({ heap with ram := ram } : KernelHeap).view slot size := by
    intro slot size spares inside laid
    unfold Spares RangesApart at spares
    refine laid.congr (fun i less => same _ (inside i (by omega)) (by omega)) fun i less => same _ ?_ (by omega)
    rw [add_assoc, add_assoc]
    exact inside _ (by omega)
  refine { inv with pages := inv.pages.other ram heap.cpuCaches, lists := ?_, smallBlocks := ?_, largeBlocks := ?_ }
  · intro core bucket
    refine (inv.lists core bucket).congr fun slot member => word64_congr fun i less => ?_
    have apart := vacant.links core bucket slot member
    have isSlot := inv.freeSlots core bucket slot member
    have := bucket.size_pos
    unfold RangesApart at apart
    exact same _ (inv.slot_addr isSlot (by omega)) (by omega)
  · intro block member
    refine header _ _ (vacant.smalls block member) (fun i less => ?_) (inv.smallBlocks block member)
    have := inv.small_fits member
    exact inv.slot_addr (inv.smallSlots block member) (by omega)
  · intro block member
    refine header _ _ (vacant.larges block member) (fun i less => ?_) (inv.largeBlocks block member)
    have := inv.large_fits member
    exact ⟨block.run, large_mem member, le_add_right _ _, by omega⟩

/-- Bytes are written where no link and no header is. -/
theorem HeapInv.write (block : Bytes) (vacant : Vacant base contents v count) :
    ∃ ram, heap.store v block count = some { heap with ram := ram } ∧
      HeapInv nil base { heap with ram := ram } contents ∧
      ∀ a, HeapAddr base contents.runs a →
        ({ heap with ram := ram } : KernelHeap).view a = heap.view.copy v block count a := by
  obtain ⟨ram, stored, changed⟩ := inv.pages.store block vacant.inside
  refine ⟨ram, stored, inv.otherBytes vacant fun a member outside => ?_, changed⟩
  rw [changed a member, copy_outside _ _ outside]

end

/-! ### Lists -/

def HeapContents.withFree (contents : HeapContents) (core : Nat) (bucket : Bucket) (slots : List Nat) : HeapContents :=
  { contents with free := update contents.free core (update (contents.free core) bucket slots) }

theorem HeapContents.free_withFree (contents : HeapContents) (core core' : Nat) (bucket bucket' : Bucket)
    (slots : List Nat) : (contents.withFree core bucket slots).free core' bucket' =
      if core' = core ∧ bucket' = bucket then slots else contents.free core' bucket' := by
  simp only [HeapContents.withFree, update_apply]
  split_ifs <;> simp_all

theorem KernelHeap.head_setCache (heap : KernelHeap) (core core' : Nat) (bucket bucket' : Bucket) (head count : Nat) :
    (((heap.setCache core bucket head count).cpuCaches core').head bucket' =
      if core' = core ∧ bucket' = bucket then head else (heap.cpuCaches core').head bucket') ∧
    (((heap.setCache core bucket head count).cpuCaches core').count bucket' =
      if core' = core ∧ bucket' = bucket then count else (heap.cpuCaches core').count bucket') := by
  unfold KernelHeap.setCache
  by_cases same : core' = core
  · subst same
    by_cases equal : bucket' = bucket
    · subst equal
      simp
    · simp [equal]
  · simp [same]

section

variable (inv : HeapInv nil base heap contents)

include inv

theorem HeapInv.head_lt (core : Nat) (bucket : Bucket) : (heap.cpuCaches core).head bucket < 2 ^ 64 := by
  have list := inv.lists core bucket
  cases slots : contents.free core bucket with
  | nil =>
    rw [slots] at list
    have null : (heap.cpuCaches core).head bucket = 0 := list
    rw [null]
    decide
  | cons slot rest =>
    rw [slots] at list
    have member : slot ∈ contents.free core bucket := by simp [slots]
    have bounds := (inv.slot_bounds (inv.freeSlots core bucket slot member)).2
    have := bucket.size_pos
    rw [list.1]
    omega

/-- A cache may get any list of its own and unused slots. -/
theorem HeapInv.relist (core : Nat) {head : Nat} {slots : List Nat} (list : Linked heap.view.word64 (· = 0) head slots)
    (isSlot : ∀ slot ∈ slots, contents.IsSlot base slot bucket)
    (own : ∀ slot ∈ slots, slot ∈ contents.free core bucket ∨ contents.Unused slot) :
    HeapInv nil base (heap.setCache core bucket head slots.length) (contents.withFree core bucket slots) := by
  have frees := contents.free_withFree core
  have caches := fun core' bucket' => heap.head_setCache core core' bucket bucket' head slots.length
  refine { inv with
    pages := inv.pages.other heap.ram _
    lists := fun core' bucket' => ?_
    counts := fun core' bucket' => ?_
    freeSlots := fun core' bucket' slot member => ?_
    freeOnce := fun core' bucket' core'' bucket'' slot member member' => ?_
    smallNotFree := fun block member core' bucket' => ?_ }
  · rw [frees, (caches core' bucket').1]
    split_ifs with same
    · exact list
    · exact inv.lists core' bucket'
  · rw [frees, (caches core' bucket').2]
    split_ifs with same
    · rfl
    · exact inv.counts core' bucket'
  · rw [frees] at member
    split_ifs at member with same
    · rw [same.2]
      exact isSlot slot member
    · exact inv.freeSlots core' bucket' slot member
  · rw [frees] at member member'
    split_ifs at member member' with same same' same'
    · exact ⟨same.1.trans same'.1.symm, same.2.trans same'.2.symm⟩
    · rcases own slot member with here | unused
      · obtain ⟨rfl, rfl⟩ := inv.freeOnce _ _ _ _ slot here member'
        exact absurd ⟨rfl, rfl⟩ same'
      · exact absurd member' (unused.1 _ _)
    · rcases own slot member' with here | unused
      · obtain ⟨rfl, rfl⟩ := inv.freeOnce _ _ _ _ slot here member
        exact absurd ⟨rfl, rfl⟩ same
      · exact absurd member (unused.1 _ _)
    · exact inv.freeOnce _ _ _ _ slot member member'
  · rw [frees]
    split_ifs with same
    · intro there
      rcases own _ there with here | unused
      · exact inv.smallNotFree block member _ _ here
      · exact unused.2 block member rfl
    · exact inv.smallNotFree block member core' bucket'

/-- A slot is taken off its list. -/
theorem HeapInv.pop {core : Nat} {rest : List Nat} (list : contents.free core bucket = slot :: rest) :
    (heap.cpuCaches core).head bucket = slot ∧ (heap.cpuCaches core).count bucket = rest.length + 1 ∧
      contents.IsSlot base slot bucket ∧ ∃ next, heap.load 8 slot = some next ∧
      HeapInv nil base (heap.setCache core bucket next rest.length) (contents.withFree core bucket rest) ∧
      (contents.withFree core bucket rest).Unused slot := by
  have chain := inv.lists core bucket
  rw [list] at chain
  have member : ∀ other ∈ slot :: rest, other ∈ contents.free core bucket := by simp [list]
  have here := member slot mem_cons_self
  have isSlot := inv.freeSlots core bucket slot here
  have := bucket.size_pos
  refine ⟨chain.1, by rw [inv.counts, list, length_cons], isSlot, heap.view.word64 slot,
    inv.pages.load64 fun i less => inv.slot_addr isSlot (by omega), ?_, ?_, ?_⟩
  · exact inv.relist core chain.2.2 (fun other member' => inv.freeSlots core bucket other (member other (mem_cons_of_mem _ member')))
      fun other member' => .inl (member other (mem_cons_of_mem _ member'))
  · intro core' bucket'
    rw [HeapContents.free_withFree]
    split_ifs with same
    · exact (nodup_cons.mp chain.nodup).1
    · intro there
      obtain ⟨rfl, rfl⟩ := inv.freeOnce _ _ _ _ slot here there
      exact same ⟨rfl, rfl⟩
  · intro block member' same
    exact inv.smallNotFree block member' core bucket (same ▸ here)

/-- A slot is pushed. -/
theorem HeapInv.push (core : Nat) (isSlot : contents.IsSlot base slot bucket) (unused : contents.Unused slot) :
    ∃ ram, heap.store slot (littleEndian ((heap.cpuCaches core).head bucket)) 8 = some { heap with ram := ram } ∧
      HeapInv nil base (({ heap with ram := ram } : KernelHeap).setCache core bucket slot
        ((heap.cpuCaches core).count bucket + 1)) (contents.withFree core bucket (slot :: contents.free core bucket)) ∧
      ∀ a, HeapAddr base contents.runs a → a < slot ∨ slot + 8 ≤ a →
        ({ heap with ram := ram } : KernelHeap).view a = heap.view a := by
  have size := bucket.size_pos
  have vacant := (inv.vacant_slot isSlot unused).sub le_rfl (show slot + 8 ≤ slot + bucket.size by omega)
  obtain ⟨ram, stored, inv', changed⟩ := inv.write (littleEndian ((heap.cpuCaches core).head bucket)) vacant
  refine ⟨ram, stored, ?_, fun a member outside => by rw [changed a member, copy_outside _ _ outside]⟩
  have link : ({ heap with ram := ram } : KernelHeap).view.word64 slot = (heap.cpuCaches core).head bucket := by
    have word := word64_putWord64 heap.view slot ((heap.cpuCaches core).head bucket)
    rw [mod_eq_of_lt (inv.head_lt core bucket)] at word
    rw [← word]
    exact word64_congr fun i less => changed _ (inv.slot_addr isSlot (by omega))
  have chain : Linked ({ heap with ram := ram } : KernelHeap).view.word64 (· = 0) slot
      (slot :: contents.free core bucket) := by
    refine ⟨rfl, (inv.slot_bounds isSlot).1, ?_⟩
    rw [link]
    exact inv'.lists core bucket
  have listed := inv'.relist core chain (forall_mem_cons.mpr ⟨isSlot, inv.freeSlots core bucket⟩)
    (forall_mem_cons.mpr ⟨.inr unused, fun other member => .inl member⟩)
  rw [length_cons, ← inv.counts core bucket] at listed
  exact listed

/-! ### Blocks come and go -/

/-- A slot that is on no list becomes a block. -/
theorem HeapInv.adoptSmall
    (isSlot : contents.IsSlot base block.slot block.bucket) (unused : contents.Unused block.slot)
    (positive : 0 < block.size) (class' : bucketOf (block.size + metadataOverhead) = some block.bucket)
    (laid : LaidOut heap.view block.slot block.size) :
    HeapInv nil base heap { contents with small := block :: contents.small } := by
  refine { inv with smallSlots := ?_, smallOnce := ?_, smallNotFree := ?_, smallSize := ?_, smallBlocks := ?_ }
  · exact forall_mem_cons.mpr ⟨isSlot, inv.smallSlots⟩
  · refine nodup_cons.mpr ⟨fun taken => ?_, inv.smallOnce⟩
    obtain ⟨other, member, same⟩ := mem_map.mp taken
    exact unused.2 other member same
  · exact forall_mem_cons.mpr ⟨unused.1, inv.smallNotFree⟩
  · exact forall_mem_cons.mpr ⟨⟨positive, class'⟩, inv.smallSize⟩
  · exact forall_mem_cons.mpr ⟨laid, inv.smallBlocks⟩

/-- A small block is given up. -/
theorem HeapInv.dropSmall (member : block ∈ contents.small) :
    HeapInv nil base heap { contents with small := contents.small.erase block } ∧
      HeapContents.Unused { contents with small := contents.small.erase block } block.slot := by
  have sub : ∀ other ∈ contents.small.erase block, other ∈ contents.small := fun other => mem_of_mem_erase
  refine ⟨{ inv with
    smallSlots := fun other there => inv.smallSlots other (sub other there)
    smallOnce := inv.smallOnce.sublist (erase_sublist.map _)
    smallNotFree := fun other there => inv.smallNotFree other (sub other there)
    smallSize := fun other there => inv.smallSize other (sub other there)
    smallBlocks := fun other there => inv.smallBlocks other (sub other there) }, inv.smallNotFree block member, ?_⟩
  intro other there same
  have nodup : contents.small.Nodup := List.Nodup.of_map _ inv.smallOnce
  obtain ⟨different, there⟩ := nodup.mem_erase_iff.mp there
  exact different (inj_on_of_nodup_map inv.smallOnce there member same)

end

theorem HeapInv.adoptSlab (inv : HeapInv nil base heap { contents with loose := run :: loose })
    (onePage : run.pages = 1) (bucket : Bucket) :
    HeapInv nil base heap { contents with loose := loose, slabs := (run, bucket) :: contents.slabs } := by
  have more : ∀ slot bucket', contents.IsSlot base slot bucket' →
      HeapContents.IsSlot base { contents with loose := loose, slabs := (run, bucket) :: contents.slabs } slot bucket' := by
    rintro slot bucket' ⟨slab, member, rest⟩
    exact ⟨slab, mem_cons_of_mem _ member, rest⟩
  refine { inv with
    pages := inv.pages.perm perm_middle.symm
    onePage := forall_mem_cons.mpr ⟨onePage, inv.onePage⟩
    freeSlots := fun core bucket' slot member => more slot bucket' (inv.freeSlots core bucket' slot member)
    smallSlots := fun block member => more _ _ (inv.smallSlots block member) }

theorem HeapInv.adoptLarge {size : Nat} (inv : HeapInv nil base heap { contents with loose := run :: loose })
    (class' : bucketOf (size + metadataOverhead) = none) (pages : run.pages = pageCountOf (size + metadataOverhead))
    (fits : size + metadataOverhead ≤ run.pages * 4096) (laid : LaidOut heap.view (run.virt base) size) :
    HeapInv nil base heap { contents with loose := loose, large := ⟨run, size⟩ :: contents.large } := by
  refine { inv with
    pages := inv.pages.perm ?_
    largeSize := forall_mem_cons.mpr ⟨⟨class', pages, fits⟩, inv.largeSize⟩
    largeBlocks := forall_mem_cons.mpr ⟨laid, inv.largeBlocks⟩ }
  have moved : (run :: (contents.slabs.map Prod.fst ++ contents.large.map LargeBlock.run)).Perm
      (contents.slabs.map Prod.fst ++ run :: contents.large.map LargeBlock.run) := perm_middle.symm
  exact perm_middle.symm.trans (moved.append_left loose)

theorem HeapInv.dropLarge (inv : HeapInv nil base heap contents) {block : LargeBlock} (member : block ∈ contents.large) :
    HeapInv nil base heap { contents with
      loose := block.run :: contents.loose, large := contents.large.erase block } := by
  have sub : ∀ other ∈ contents.large.erase block, other ∈ contents.large := fun other => mem_of_mem_erase
  refine { inv with
    pages := inv.pages.perm ?_
    largeSize := fun other there => inv.largeSize other (sub other there)
    largeBlocks := fun other there => inv.largeBlocks other (sub other there) }
  have moved : (contents.large.map LargeBlock.run).Perm (block.run :: (contents.large.erase block).map LargeBlock.run) :=
    (perm_cons_erase member).map LargeBlock.run
  exact ((moved.append_left _).trans perm_middle).append_left contents.loose |>.trans perm_middle

end Pieces

end Voxia.Memory
