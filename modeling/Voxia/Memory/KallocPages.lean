/-
**The pages of the kernel heap.**

A page run is a range of addresses from the bitmap with frames from the physical allocator behind it. In a heap in
good order the runs have addresses and frames of their own (`PagesInv`), as long as the allocators succeed
(`Granted`).
-/

import Voxia.Cpu.PagingRange
import Voxia.Memory.GrowBitmapRun
import Voxia.Memory.Kalloc
import Voxia.Memory.VmaRun

namespace Voxia.Memory

open Lib List Option Nat
open Cpu (PageDir pagingMmap pagingMultipleMmap pagingMultipleUnmap pte present physOf pagePresent
  pageWritable pageUser pageNoExecute SameSlot Clean sameSlot_zero_iff leafEntry rangePage mapPages PageAddress
  pageSize4KB)

/-! ### Translation of kernel addresses -/

variable {v phys flags n i base : Nat} {origin : Nat → Bool} {gb : GrowBitmap}

theorem sameSlot_iff {u : Nat} (canonical : Canonical u) (canonical' : Canonical v) :
    SameSlot 0 3 u v ↔ u / 4096 = v / 4096 := by
  unfold Canonical at canonical canonical'
  rw [sameSlot_zero_iff]
  omega

variable (dir : PageDir)

theorem translate_eq (word : v < 2 ^ 64) :
    translate dir v = if present (pte 3 dir v) then some (physOf (pte 3 dir v) + v % 4096) else none := by
  rw [translate, u64_of_lt word]
  rfl

theorem translate_congr {dir dir' : PageDir} (same : pte 3 dir' (u64 v) = pte 3 dir (u64 v)) :
    translate dir' v = translate dir v := by
  rw [translate, translate, same]

theorem translate_inPage (a i : Nat) (inPage : a % blockSize + i < blockSize) :
    translate dir (a + i) = (translate dir a).map (· + i) := by
  unfold blockSize at inPage
  have same : pte 3 dir (u64 (a + i)) = pte 3 dir (u64 a) := by
    refine Cpu.pte_congr ((sameSlot_zero_iff _ _).mpr ?_)
    unfold u64
    omega
  have offset : (a + i) % blockSize = a % blockSize + i := by
    unfold blockSize
    omega
  rw [translate, translate, same, offset]
  split_ifs
  · rw [map_some, add_assoc]
  · rfl

theorem translate_leafEntry {dir : PageDir} (word : v < 2 ^ 64) (page : PageAddress phys)
    (isPresent : present flags) (entry : pte 3 dir v = leafEntry phys flags) :
    translate dir v = some (phys + v % 4096) := by
  rw [translate_eq dir word, entry, Cpu.present_leafEntry, Cpu.physOf_leafEntry, page.physOf_eq, if_pos isPresent]

structure MapsRange (dir dir' : PageDir) (virt phys n : Nat) : Prop where
  inside : ∀ i < n * 4096, translate dir' (virt + i) = some (phys + i)
  outside : ∀ v, Canonical v → v < virt ∨ virt + n * 4096 ≤ v → translate dir' v = translate dir v

/-- The addresses and frames of a mapping: whole pages of the kernel, and frames below the limit. -/
structure RangeFits (virt phys n : Nat) : Prop where
  virtAligned : virt % 4096 = 0
  low : 2 ^ 64 - 2 ^ 47 ≤ virt
  high : virt + n * 4096 ≤ 2 ^ 64
  physAligned : phys % 4096 = 0
  physLow : phys + n * 4096 ≤ 2 ^ 52
  nonzero : phys ≠ 0

theorem pagingMmap_mapsPage {virt : Nat} (clean : Clean flags) (isPresent : present flags)
    (virtAligned : virt % 4096 = 0) (canonical : Canonical virt)
    (physAligned : phys % 4096 = 0) (physLow : phys + 4096 ≤ 2 ^ 52) :
    MapsRange dir (pagingMmap dir virt phys flags) virt phys 1 := by
  have page : PageAddress phys := ⟨physAligned, by omega⟩
  have entry := fun v => Cpu.pte_single dir clean virt phys v
  constructor
  · intro i less
    have inside : Canonical (virt + i) := by
      unfold Canonical at *
      omega
    have here : SameSlot 0 3 virt (virt + i) := (sameSlot_iff canonical inside).mpr (by omega)
    have mapped := entry (virt + i)
    rw [if_pos here, if_pos isPresent] at mapped
    rw [pagingMmap, translate_leafEntry inside.lt page isPresent mapped]
    congr 1
    omega
  · intro v canonical' apart
    have other : ¬ SameSlot 0 3 virt v := fun same => by
      have := (sameSlot_iff canonical canonical').mp same
      omega
    refine translate_congr ?_
    rw [u64_of_lt canonical'.lt]
    exact (entry v).trans (if_neg other)

theorem canonical_of_upper {virt : Nat} (low : 2 ^ 64 - 2 ^ 47 ≤ virt) (high : virt + n * 4096 ≤ 2 ^ 64)
    (inside : i < n * 4096) : Canonical (virt + i) :=
  .inr ⟨by omega, by omega⟩

theorem pagingMmap_mapsRange {virt : Nat} (clean : Clean flags) (isPresent : present flags)
    (fits : RangeFits virt phys 1) : MapsRange dir (pagingMmap dir virt phys flags) virt phys 1 :=
  pagingMmap_mapsPage dir clean isPresent fits.virtAligned
    (canonical_of_upper (i := 0) fits.low fits.high (by decide)) fits.physAligned fits.physLow

theorem rangePage_of_fits {start : Nat} (high : start + n * 4096 ≤ 2 ^ 64) (less : i < n) :
    rangePage start i = start + i * 4096 := by
  rw [rangePage, pageSize4KB, u64_of_lt (by omega)]

theorem pagingMultipleMmap_outside {virt : Nat} (clean : Clean flags) (virtAligned : virt % 4096 = 0)
    (low : 2 ^ 64 - 2 ^ 47 ≤ virt) (high : virt + n * 4096 ≤ 2 ^ 64)
    (physAligned : phys % 4096 = 0) (physLow : phys < 2 ^ 64) (canonical : Canonical v)
    (apart : v < virt ∨ virt + n * 4096 ≤ v) :
    translate (pagingMultipleMmap dir virt phys n flags) v = translate dir v := by
  refine translate_congr ?_
  rw [u64_of_lt canonical.lt, pagingMultipleMmap, pageSize4KB, u64_of_lt (by omega)]
  rcases Nat.eq_zero_or_pos n with rfl | positive
  · rfl
  refine Cpu.pte_mmapRangeLoop_other clean ⟨by omega, virtAligned⟩ ⟨physLow, physAligned⟩ fun i less same => ?_
  rw [rangePage_of_fits high less] at same
  have := (sameSlot_iff (.inr ⟨by omega, by omega⟩) canonical).mp same
  omega

/-- `paging_multiple_mmap` maps its range and nothing else. -/
theorem pagingMultipleMmap_mapsRange {virt : Nat} (clean : Clean flags)
    (isPresent : present flags) (fits : RangeFits virt phys n) :
    MapsRange dir (pagingMultipleMmap dir virt phys n flags) virt phys n := by
  obtain ⟨virtAligned, low, high, physAligned, physLow, nonzero⟩ := fits
  refine ⟨fun i less => ?_, fun v canonical apart =>
    pagingMultipleMmap_outside dir clean virtAligned low high physAligned (by omega) canonical apart⟩
  have canonical : Canonical (virt + i) := canonical_of_upper low high less
  have inRange : i / 4096 < n := by omega
  have page : PageAddress (phys + i / 4096 * 4096) := ⟨by omega, by omega⟩
  -- frame 0 is not met, so that the loop maps page by page
  have advances : Cpu.Advances virt phys n flags := fun _ k inside zero => by
    rw [rangePage_of_fits (by omega) inside] at zero
    omega
  have entry := Cpu.pte_mmapRangeLoop dir clean ⟨by omega, virtAligned⟩ ⟨by omega, physAligned⟩ (le_refl n) advances
    (virt + i)
  have here : ∀ k < n, SameSlot 0 3 (rangePage virt k) (virt + i) ↔ k = i / 4096 := fun k inside => by
    rw [rangePage_of_fits high inside, sameSlot_iff (.inr ⟨by omega, by omega⟩) canonical]
    omega
  rw [Cpu.pte_mapPages_last dir clean virt phys inRange ((here _ inRange).mpr rfl)
    (fun k inside later same => by have := (here k inside).mp same; omega), if_pos isPresent,
    rangePage_of_fits (by omega) inRange] at entry
  have mapped : pte 3 (pagingMultipleMmap dir virt phys n flags) (virt + i) =
      leafEntry (phys + i / 4096 * 4096) flags := by
    rw [pagingMultipleMmap, pageSize4KB, u64_of_lt (by omega)]
    exact entry
  rw [translate_leafEntry canonical.lt page isPresent mapped]
  congr 1
  omega

/-! ### Frames -/

theorem physBaseAlloc_taken {phys : PhysBase} (positive : 0 < n) (found : (physBaseAlloc phys n).1 ≠ 0) :
    ∃ start, 0 < start ∧ start + n ≤ phys.totalBlocks ∧
      (∀ i, (⟨start, n⟩ : Span).Covers i → bitUsed phys.bitmap i = false) ∧
      physBaseAlloc phys n = (start * blockSize, { phys with bitmap := setBits phys.bitmap start n }) := by
  rcases physBaseAlloc_spec phys positive with ⟨null, -⟩ | ⟨start, run, taken⟩
  · rw [null] at found
    exact absurd rfl found
  · refine ⟨start, ?_, run.within, fun i inside => run.clear_of_covers inside, taken⟩
    rw [taken] at found
    exact pos_of_ne_zero fun zero => found (by rw [zero, zero_mul])

/-- The frame the `i`-th of several single allocations returns. -/
def frameAt (phys : PhysBase) (i : Nat) : Nat := (physBaseAlloc (takeFrames i phys) 1).1

/-- Single frames that are taken one after the other: each is whole, none is in use, no two are the same. -/
structure FramesTaken (phys : PhysBase) (live : List Span) (k : Nat) : Prop where
  whole : ∀ i < k, frameAt phys i % 4096 = 0
  unused : ∀ i < k, ∀ span ∈ live, ¬ span.Covers (frameAt phys i / 4096)
  different : ∀ i j, i < j → j < k → frameAt phys i ≠ frameAt phys j

/-- Frames taken one by one are live and different. -/
theorem takeFrames_ledger {phys : PhysBase} {live : List Span} (k : Nat)
    (ledger : Ledger origin (bitUsed phys.bitmap) live) (granted : ∀ i < k, frameAt phys i ≠ 0) :
    FramesTaken phys live k ∧ (takeFrames k phys).higherBaseLength = phys.higherBaseLength ∧
      ∃ spans, Ledger origin (bitUsed (takeFrames k phys).bitmap) (spans ++ live) ∧
        ∀ i < k, ⟨frameAt phys i / 4096, 1⟩ ∈ spans := by
  induction k generalizing phys live with
  | zero => exact ⟨⟨by simp, by simp, by simp⟩, rfl, [], ledger, by simp⟩
  | succ k ih =>
    have found : (physBaseAlloc phys 1).1 ≠ 0 := granted 0 (succ_pos k)
    obtain ⟨start, behind, within, clear, taken⟩ := physBaseAlloc_taken one_pos found
    have first : frameAt phys 0 = start * blockSize := congrArg Prod.fst taken
    have after : (physBaseAlloc phys 1).2 = { phys with bitmap := setBits phys.bitmap start 1 } :=
      congrArg Prod.snd taken
    have ledger' : Ledger origin (bitUsed (physBaseAlloc phys 1).2.bitmap) (⟨start, 1⟩ :: live) := by
      rw [after, bitUsed_setBits]
      exact ledger.alloc one_pos clear
    obtain ⟨⟨whole, unused, different⟩, same, spans, ledger'', members⟩ := ih ledger' fun i less =>
      granted (i + 1) (by omega)
    have later : ∀ i, frameAt phys (i + 1) = frameAt (physBaseAlloc phys 1).2 i := fun i => rfl
    have index : frameAt phys 0 / 4096 = start := by
      rw [first, blockSize]
      omega
    refine ⟨⟨?_, ?_, ?_⟩, same.trans (by rw [after]), spans ++ [⟨start, 1⟩], ?_, ?_⟩
    · rintro (_ | i) less
      · rw [first, blockSize]
        omega
      · exact whole i (by omega)
    · rintro (_ | i) less span member covers
      · rw [index] at covers
        have used := ledger.marked member covers
        rw [clear start ⟨le_rfl, by simp⟩] at used
        exact absurd used (by decide)
      · exact unused i (by omega) span (mem_cons_of_mem _ member) covers
    · rintro (_ | i) (_ | j) less bound
      · omega
      · intro same'
        refine unused j (by omega) ⟨start, 1⟩ mem_cons_self ?_
        rw [← later, ← same', index]
        exact ⟨le_rfl, by simp⟩
      · omega
      · exact different i j (by omega) (by omega)
    · rw [append_assoc]
      exact ledger''
    · rintro (_ | i) less
      · rw [index]
        exact mem_append_right _ mem_cons_self
      · exact mem_append_left _ (members i (by omega))

/-! ### Addresses -/

theorem blocksPhys_growBlocks (pageCount : Nat) (frames : Nat → Nat) (rest i : Nat) (gb : GrowBitmap) (b : Nat)
    (below : b < gb.activeBlocks + rest) :
    (growBlocks pageCount frames rest i gb).blocksPhys b =
      if b < gb.activeBlocks then gb.blocksPhys b else frames (i + (b - gb.activeBlocks)) := by
  induction rest generalizing i gb with
  | zero => rw [growBlocks, if_pos (by omega)]
  | succ rest ih =>
    have active : (addBlock gb (frames i) (if i = 0 then markBits (zeroWords (gb.memory (frames i))) 0 pageCount
        else zeroWords (gb.memory (frames i)))).activeBlocks = gb.activeBlocks + 1 := rfl
    rw [growBlocks, ih (i + 1) _ (by rw [active]; omega), active]
    simp only [addBlock, Function.update_apply]
    split_ifs <;> first | omega | rfl | skip
    · rw [show i + (b - gb.activeBlocks) = i by omega]
    · rw [show i + 1 + (b - (gb.activeBlocks + 1)) = i + (b - gb.activeBlocks) by omega]

theorem growBlocks_congr {frames frames' : Nat → Nat} (pageCount rest i : Nat) (gb : GrowBitmap)
    (same : ∀ j, i ≤ j → j < i + rest → frames' j = frames j) :
    growBlocks pageCount frames' rest i gb = growBlocks pageCount frames rest i gb := by
  induction rest generalizing i gb with
  | zero => rfl
  | succ rest ih =>
    rw [growBlocks, growBlocks, same i le_rfl (by omega)]
    exact ih (i + 1) _ fun j above less => same j (by omega) (by omega)

/-- An allocation of addresses asks for no frame, or it is a growth and asks for one for each new block. -/
theorem growBitmapAllocPages_frames (gb : GrowBitmap) (n : Nat) :
    (∃ result : Nat × GrowBitmap, result.2.activeBlocks = gb.activeBlocks ∧ result.2.blocksPhys = gb.blocksPhys ∧
      ∀ frames, growBitmapAllocPages gb n frames = result) ∨
    ∀ frames, growBitmapAllocPages gb n frames =
      (gb.address (gb.activeBlocks * growBitmapBlockPages), growBlocks n frames (blocksToAdd gb) 0 gb) := by
  unfold growBitmapAllocPages
  by_cases odd : n = 0 ∨ growBitmapBlockPages < n
  · exact .inl ⟨(0, gb), rfl, rfl, fun _ => if_pos odd⟩
  · simp only [if_neg odd]
    cases scanBlocks gb n gb.activeBlocks 0 with
    | some found => exact .inl ⟨_, rfl, rfl, fun _ => rfl⟩
    | none =>
      by_cases more : gb.activeBlocks < gb.maxBlocks
      · exact .inr fun _ => if_pos more
      · exact .inl ⟨(0, gb), rfl, rfl, fun _ => if_neg more⟩

theorem growBitmapAllocPages_congr {frames frames' : Nat → Nat}
    (same : ∀ i < (growBitmapAllocPages gb n frames).2.activeBlocks - gb.activeBlocks, frames' i = frames i) :
    growBitmapAllocPages gb n frames' = growBitmapAllocPages gb n frames := by
  rcases growBitmapAllocPages_frames gb n with ⟨result, -, -, always⟩ | growth
  · rw [always, always]
  · rw [growth frames, activeBlocks_growBlocks, Nat.add_sub_cancel_left] at same
    rw [growth, growth, growBlocks_congr n _ 0 gb fun j _ less => same j (by omega)]

theorem blocksPhys_alloc {frames : Nat → Nat} {b : Nat}
    (active : b < (growBitmapAllocPages gb n frames).2.activeBlocks) :
    (growBitmapAllocPages gb n frames).2.blocksPhys b =
      if b < gb.activeBlocks then gb.blocksPhys b else frames (b - gb.activeBlocks) := by
  rcases growBitmapAllocPages_frames gb n with ⟨result, sameActive, samePhys, always⟩ | growth
  · rw [always, sameActive] at active
    rw [always, samePhys, if_pos active]
  · rw [growth frames, activeBlocks_growBlocks] at active
    rw [growth frames, blocksPhys_growBlocks n frames _ 0 gb b active, zero_add]

theorem exists_freshFrames {frames : Nat → Nat} (k : Nat) (nonzero : ∀ i < k, frames i ≠ 0)
    (different : ∀ i j, i < j → j < k → frames i ≠ frames j)
    (unused : ∀ b < gb.activeBlocks, ∀ i < k, gb.blocksPhys b ≠ frames i) :
    ∃ frames', FreshFrames gb frames' ∧ ∀ i < k, frames' i = frames i := by
  -- behind the given frames: numbers above all that occur
  have bound : ∀ (f : Nat → Nat) (n : Nat), ∃ limit, ∀ i < n, f i < limit := fun f n =>
    ⟨(Finset.range n).sup f + 1, fun i less => lt_succ_of_le (Finset.le_sup (Finset.mem_range.mpr less))⟩
  obtain ⟨top, below⟩ := bound frames k
  obtain ⟨top', below'⟩ := bound gb.blocksPhys gb.activeBlocks
  refine ⟨fun i => if i < k then frames i else top + top' + 1 + i, ⟨fun i => ?_, fun i j same => ?_, fun b i active => ?_⟩,
    fun i less => if_pos less⟩
  · split_ifs with less
    · exact nonzero i less
    · omega
  · split_ifs at same with iLess jLess jLess
    · rcases lt_trichotomy i j with before | equal | behind
      · exact absurd same (different i j before jLess)
      · exact equal
      · exact absurd same.symm (different j i behind iLess)
    · have := below i iLess
      omega
    · have := below j jLess
      omega
    · omega
  · split_ifs with less
    · exact unused b active i less
    · have := below' b active
      omega

/-- **Addresses, when the frames of the new blocks are found**: pages that were free, and the frames of all blocks
stay in the ledger. -/
theorem growBitmapAllocPages_granted {spans live kept : List Span} {phys : PhysBase} (inv : GrowInv gb spans)
    (room : HasRoom gb n) (ledger : Ledger origin (bitUsed phys.bitmap) live) (subset : ∀ span ∈ kept, span ∈ live)
    (blocks : ∀ b < gb.activeBlocks, ⟨gb.blocksPhys b / 4096, 1⟩ ∈ kept) {drawn : Nat}
    (count : drawn = (growBitmapAllocPages gb n (frameAt phys)).2.activeBlocks - gb.activeBlocks)
    (frames : ∀ i < drawn, frameAt phys i ≠ 0) :
    (∃ first, Allocated gb spans n first (growBitmapAllocPages gb n (frameAt phys))) ∧
      (takeFrames drawn phys).higherBaseLength = phys.higherBaseLength ∧
      ∃ new, Ledger origin (bitUsed (takeFrames drawn phys).bitmap) (new ++ live) ∧
        ∀ b < (growBitmapAllocPages gb n (frameAt phys)).2.activeBlocks,
          ⟨(growBitmapAllocPages gb n (frameAt phys)).2.blocksPhys b / 4096, 1⟩ ∈ new ++ kept := by
  obtain ⟨⟨-, unused, different⟩, same, new, ledger', members⟩ := takeFrames_ledger drawn ledger frames
  refine ⟨?_, same, new, ledger', fun b active => ?_⟩
  · have apart : ∀ b < gb.activeBlocks, ∀ i < drawn, gb.blocksPhys b ≠ frameAt phys i := by
      intro b active i less equal
      refine unused i less _ (subset _ (blocks b active)) ?_
      rw [← equal]
      exact ⟨le_rfl, lt_succ_self _⟩
    obtain ⟨frames', fresh, agree⟩ := exists_freshFrames drawn frames different apart
    have result : growBitmapAllocPages gb n frames' = growBitmapAllocPages gb n (frameAt phys) :=
      growBitmapAllocPages_congr fun i less => agree i (by omega)
    rw [← result]
    rcases growBitmapAllocPages_cases inv n fresh with taken | ⟨-, odd⟩
    · exact taken
    · obtain ⟨positive, small, somewhere⟩ := room
      rcases odd with zero | large | ⟨full, noRun⟩
      · omega
      · omega
      · rcases somewhere with ⟨b, active, run⟩ | more
        · exact absurd (noRun b active) run
        · omega
  · rw [blocksPhys_alloc active]
    split_ifs with old
    · exact mem_append_right _ (blocks b old)
    · exact mem_append_left _ (members _ (by omega))

/-! ### Page runs -/

/-- A range of the heap's window with the frames behind it: the index of its first page in the window, the number
of pages, and the address of the first frame. -/
structure PageRun where
  first : Nat
  pages : Nat
  phys : Nat
  deriving DecidableEq

namespace PageRun

def span (run : PageRun) : Span := ⟨run.first, run.pages⟩

def frames (run : PageRun) : Span := ⟨run.phys / 4096, run.pages⟩

def virt (base : Nat) (run : PageRun) : Nat := base + run.first * 4096

def Holds (base : Nat) (run : PageRun) (v : Nat) : Prop :=
  run.virt base ≤ v ∧ v < run.virt base + run.pages * 4096

end PageRun

/-- The areas know the frames of the runs by their first addresses, and no other area begins in the window. -/
structure AreasKnown (base : Nat) (areas : List VirtualMemory) (runs : List PageRun) : Prop where
  known : ∀ run ∈ runs, ∃ area ∈ areas, area.startAddress = run.virt base ∧ area.physAddress = run.phys
  only : ∀ area ∈ areas, base ≤ area.startAddress → area.startAddress < base + 2 ^ 35 →
    ∃ run ∈ runs, area.startAddress = run.virt base

variable {runs : List PageRun}

theorem AreasKnown.perm {areas areas' : List VirtualMemory} (known : AreasKnown base areas runs)
    (same : areas.Perm areas') : AreasKnown base areas' runs where
  known run member := by
    obtain ⟨area, there, facts⟩ := known.known run member
    exact ⟨area, same.mem_iff.mp there, facts⟩
  only area member := known.only area (same.mem_iff.mpr member)

theorem AreasKnown.cons {areas : List VirtualMemory} (known : AreasKnown base areas runs) {area : VirtualMemory}
    {run : PageRun} (begins : area.startAddress = run.virt base) (frame : area.physAddress = run.phys) :
    AreasKnown base (area :: areas) (run :: runs) where
  known := by
    refine forall_mem_cons.mpr ⟨⟨area, mem_cons_self, begins, frame⟩, fun other member => ?_⟩
    obtain ⟨area', there, facts⟩ := known.known other member
    exact ⟨area', mem_cons_of_mem _ there, facts⟩
  only := by
    refine forall_mem_cons.mpr ⟨fun _ _ => ⟨run, mem_cons_self, begins⟩, fun other member above below => ?_⟩
    obtain ⟨run', member', here⟩ := known.only other member above below
    exact ⟨run', mem_cons_of_mem _ member', here⟩

/-- **The runs of a heap have addresses and frames of their own.** -/
structure PagesInv (nil base : Nat) (heap : KernelHeap) (runs : List PageRun) : Prop where
  base_eq : heap.vaddrBitmap.baseVaddr = base
  size_eq : heap.vaddrBitmap.pageSize = blockSize
  aligned : base % 4096 = 0
  low : 2 ^ 64 - 2 ^ 47 ≤ base
  memory : heap.phys.higherBaseLength ≤ 2 ^ 52
  /-- The address bitmap is a ledger of the runs. -/
  grow : GrowInv heap.vaddrBitmap (runs.map PageRun.span)
  whole : ∀ run ∈ runs, run.phys % 4096 = 0
  /-- The physical bitmap is a ledger of their frames and of the frames of the address bitmap; frame 0 was never free. -/
  ledger : ∃ origin extra, origin 0 ∧ Ledger origin (bitUsed heap.phys.bitmap) (runs.map PageRun.frames ++ extra) ∧
    ∀ b < heap.vaddrBitmap.activeBlocks, ⟨heap.vaddrBitmap.blocksPhys b / 4096, 1⟩ ∈ extra
  mapped : ∀ run ∈ runs, ∀ i < run.pages * 4096,
    translate heap.pageDir (run.virt base + i) = some (run.phys + i)
  areas : ∃ t, VmaHolds nil heap.vmm t ∧ AreasKnown base (t.toList.map Tree.Cell.data) runs

/-- `n` frames and then `n` addresses are taken: the first address, and the heap. -/
abbrev takePages (heap : KernelHeap) (n : Nat) : Nat × KernelHeap :=
  vaddrAllocLocked { heap with phys := (physBaseAlloc heap.phys n).2 } n

/-- Both allocators have what a call for `n` pages asks for: the frames, the addresses, and the frames of the new
blocks of the address bitmap. -/
def Granted (heap : KernelHeap) (n : Nat) : Prop :=
  (physBaseAlloc heap.phys n).1 ≠ 0 ∧ HasRoom heap.vaddrBitmap n ∧
    ∀ i < (takePages heap n).2.vaddrBitmap.activeBlocks -
      heap.vaddrBitmap.activeBlocks, frameAt (physBaseAlloc heap.phys n).2 i ≠ 0

section Runs

variable {nil base : Nat} {heap : KernelHeap} {runs : List PageRun}

theorem GrowInv.window {gb : GrowBitmap} {spans : List Span} (inv : GrowInv gb spans) (sizeEq : gb.pageSize = blockSize)
    {span : Span} (member : span ∈ spans) :
    0 < span.len ∧ span.start + span.len ≤ 2 ^ 23 ∧ gb.baseVaddr + span.start * 4096 + span.len * 4096 ≤ 2 ^ 64 := by
  obtain ⟨active, within⟩ := inv.in_block _ member
  have positive := inv.ledger.positive _ member
  have activeLe := inv.active_le
  have maxLe := inv.max_le
  have bounded := inv.fits.bounded
  rw [sizeEq] at bounded
  unfold growBitmapBlockPages growBitmapAbsoluteMaxBlocks blockSize at *
  omega

variable {run : PageRun} {v n fuel : Nat}

section

variable (inv : PagesInv nil base heap runs)

include inv

section

variable (member : run ∈ runs)

include member

theorem PagesInv.bounds : 0 < run.pages ∧ run.virt base + run.pages * 4096 ≤ base + 2 ^ 35 ∧
      run.virt base + run.pages * 4096 ≤ 2 ^ 64 := by
  obtain ⟨positive, within, high⟩ := inv.grow.window inv.size_eq (mem_map_of_mem (f := PageRun.span) member)
  rw [inv.base_eq] at high
  unfold PageRun.span at positive within high
  unfold PageRun.virt
  dsimp only at positive within high
  exact ⟨positive, by omega, high⟩

theorem PagesInv.canonical {i : Nat} (inside : i < run.pages * 4096) : Canonical (run.virt base + i) := by
  have low := inv.low
  exact canonical_of_upper (by unfold PageRun.virt; omega) (inv.bounds member).2.2 inside

theorem PagesInv.apart {other : PageRun} (member' : other ∈ runs) (different : run ≠ other) :
    run.span.Apart other.span ∧ run.frames.Apart other.frames := by
  obtain ⟨origin, extra, -, ledger, -⟩ := inv.ledger
  have spans := pairwise_map.mp inv.grow.ledger.apart
  have frames := pairwise_map.mp (pairwise_append.mp ledger.apart).1
  have symm : Std.Symm fun r s : PageRun => r.span.Apart s.span ∧ r.frames.Apart s.frames :=
    ⟨fun _ _ apart => ⟨apart.1.symm, apart.2.symm⟩⟩
  exact (spans.and frames).forall member member' different

theorem PagesInv.place
    (holds : run.Holds base v) : translate heap.pageDir v = some (run.phys + (v - run.virt base)) := by
  have there := inv.mapped run member (v - run.virt base) (by have := holds.1; have := holds.2; omega)
  rwa [Nat.add_sub_cancel' holds.1] at there

end

theorem PagesInv.perm {runs' : List PageRun} (same : runs.Perm runs') : PagesInv nil base heap runs' := by
  obtain ⟨origin, extra, zero, ledger, blocks⟩ := inv.ledger
  obtain ⟨t, holds, known⟩ := inv.areas
  have spans : (runs.map PageRun.span).Perm (runs'.map PageRun.span) := same.map _
  exact ⟨inv.base_eq, inv.size_eq, inv.aligned, inv.low, inv.memory,
    ⟨inv.grow.fits, inv.grow.active_pos, inv.grow.active_le, inv.grow.max_le, inv.grow.owned,
      inv.grow.ledger.perm spans, fun span member => inv.grow.in_block span (spans.mem_iff.mpr member)⟩,
    fun run member => inv.whole run (same.mem_iff.mpr member),
    ⟨origin, extra, zero, ledger.perm ((same.map _).append_right extra), blocks⟩,
    fun run member => inv.mapped run (same.mem_iff.mpr member), t, holds,
    fun run member => known.known run (same.mem_iff.mpr member), fun area member above below => by
      obtain ⟨run, member', here⟩ := known.only area member above below
      exact ⟨run, same.mem_iff.mp member', here⟩⟩

end

def HeapAddr (base : Nat) (runs : List PageRun) (v : Nat) : Prop := ∃ run ∈ runs, run.Holds base v

/-- The bytes of the runs are a flat memory of their own. -/
theorem PagesInv.owned (inv : PagesInv nil base heap runs) :
    Paged.Owned blockSize (translate heap.pageDir) (HeapAddr base runs) := by
  refine ⟨fun v ⟨run, member, holds⟩ => ⟨_, inv.place member holds⟩, translate_inPage heap.pageDir, ?_⟩
  rintro v w ⟨run, member, holds⟩ ⟨other, member', holds'⟩ same
  rw [inv.place member holds, inv.place member' holds', some.injEq] at same
  have whole := inv.whole run member
  have whole' := inv.whole other member'
  unfold PageRun.Holds at holds holds'
  by_cases equal : run = other
  · subst equal
    omega
  · have frames := (inv.apart member member' equal).2
    unfold PageRun.frames Span.Apart at frames
    dsimp only at frames
    omega

/-- Frames are found exactly where there is a run of them: it is never the one at frame 0, which is not free. -/
theorem PagesInv.null_iff (inv : PagesInv nil base heap runs) (positive : 0 < n) :
    (physBaseAlloc heap.phys n).1 = 0 ↔ NoRun (bitUsed heap.phys.bitmap) n heap.phys.totalBlocks := by
  obtain ⟨origin, extra, zero, ledger, -⟩ := inv.ledger
  have used : bitUsed heap.phys.bitmap 0 := (ledger.exact 0).mpr (.inl zero)
  refine ((physBaseAlloc_exact_iff heap.phys positive).mpr fun run => ?_).null_iff
  have clear := run.2 0 positive
  rw [used] at clear
  exact absurd clear (by decide)

/-! ### The bytes of the runs -/

/-- The byte an address shows; 0 where it has no frame. -/
def KernelHeap.view (heap : KernelHeap) : Bytes :=
  fun v => (Paged.loadByte (translate heap.pageDir) heap.ram v).getD 0

section

variable (inv : PagesInv nil base heap runs)

include inv

theorem PagesInv.shows : Paged.Shows (translate heap.pageDir) (HeapAddr base runs) heap.ram heap.view := by
  rintro v ⟨run, member, holds⟩
  simp only [KernelHeap.view, Paged.loadByte, inv.place member holds, map_some, getD_some]

theorem PagesInv.other (ram : Bytes) (caches : Nat → KallocCpuCache) :
    PagesInv nil base { heap with ram := ram, cpuCaches := caches } runs :=
  ⟨inv.base_eq, inv.size_eq, inv.aligned, inv.low, inv.memory, inv.grow, inv.whole, inv.ledger, inv.mapped,
    inv.areas⟩

theorem PagesInv.store {count : Nat} (block : Bytes) (inside : ∀ i < count, HeapAddr base runs (v + i)) :
    ∃ ram, heap.store v block count = some { heap with ram := ram } ∧
      ∀ a, HeapAddr base runs a → ({ heap with ram := ram } : KernelHeap).view a = heap.view.copy v block count a := by
  obtain ⟨ram, stored, shows'⟩ := Paged.store_shows block (by decide) inv.owned inv.shows inside
  refine ⟨ram, by rw [KernelHeap.store, stored]; rfl, fun a member => ?_⟩
  exact some.inj (((inv.other ram heap.cpuCaches).shows a member).symm.trans (shows' a member))

theorem PagesInv.load64 (inside : ∀ i < 8, HeapAddr base runs (v + i)) : heap.load 8 v = some (heap.view.word64 v) :=
  Paged.loadWord64_shows inv.shows inside

theorem PagesInv.load32 (inside : ∀ i < 4, HeapAddr base runs (v + i)) : heap.load 4 v = some (heap.view.word32 v) :=
  Paged.loadWord32_shows inv.shows inside

end

/-! ### Obtaining a run -/

def TreeBound (nil fuel : Nat) (heap : KernelHeap) : Prop :=
  ∃ t, VmaHolds nil heap.vmm t ∧ t.toList.length < fuel

/-- The bound is enough for the tree of areas, and the slab cache hands out a node that is not in it. -/
def NodeReady (nil fuel node : Nat) (heap : KernelHeap) : Prop :=
  node ≠ nil ∧ ∃ t, VmaHolds nil heap.vmm t ∧ node ∉ Tree.ptrs t ∧ t.toList.length < fuel

theorem virt_apart {first : Nat} {bits : Nat → Bool}
    (ledger : Ledger (fun _ => false) bits (⟨first, n⟩ :: runs.map PageRun.span)) (member : run ∈ runs) :
    run.virt base + run.pages * 4096 ≤ base + first * 4096 ∨ base + first * 4096 + n * 4096 ≤ run.virt base := by
  have apart := (pairwise_cons.mp ledger.apart).1 run.span (mem_map_of_mem member)
  unfold Span.Apart PageRun.span at apart
  unfold PageRun.virt
  dsimp only at apart
  omega

/-- **A run is obtained**: mapped and registered, it joins the runs of the heap. -/
theorem PagesInv.obtain (inv : PagesInv nil base heap runs) {node : Nat} (granted : Granted heap n)
    (ready : NodeReady nil fuel node heap) :
    ∃ run : PageRun, run.pages = n ∧ run.phys = (physBaseAlloc heap.phys n).1 ∧
      (takePages heap n).1 = run.virt base ∧
      RangeFits (run.virt base) run.phys n ∧ (∀ other ∈ runs, ∀ v, other.Holds base v → ¬ run.Holds base v) ∧
      ∀ dir size flags, MapsRange heap.pageDir dir (run.virt base) run.phys n →
        ∃ vmm, vmaRegister nil fuel node
            { (takePages heap n).2 with pageDir := dir }
            run.phys (run.virt base) size flags =
          some { (takePages heap n).2 with
            pageDir := dir, vmm := vmm } ∧
          PagesInv nil base { (takePages heap n).2 with
            pageDir := dir, vmm := vmm } (run :: runs) := by
  obtain ⟨found, room, frames⟩ := granted
  obtain ⟨start, behind, within, clear, taken⟩ := physBaseAlloc_taken room.1 found
  obtain ⟨origin, extra, zero, ledger, blocks⟩ := inv.ledger
  have after : (physBaseAlloc heap.phys n).2 = { heap.phys with bitmap := setBits heap.phys.bitmap start n } :=
    congrArg Prod.snd taken
  have address : (physBaseAlloc heap.phys n).1 = start * 4096 := congrArg Prod.fst taken
  -- the frames of the run, and then those of the new blocks
  have ledger' : Ledger origin (bitUsed (physBaseAlloc heap.phys n).2.bitmap)
      (⟨start, n⟩ :: (runs.map PageRun.frames ++ extra)) := by
    rw [after, bitUsed_setBits]
    exact ledger.alloc room.1 clear
  have sameLimit : (physBaseAlloc heap.phys n).2.higherBaseLength = heap.phys.higherBaseLength := by rw [after]
  unfold takePages at *
  generalize (physBaseAlloc heap.phys n).2 = phys at *
  have subset : ∀ span ∈ extra, span ∈ (⟨start, n⟩ : Span) :: (runs.map PageRun.frames ++ extra) :=
    fun span member => mem_cons_of_mem _ (mem_append_right _ member)
  obtain ⟨⟨first, alloc⟩, sameLimit', new, ledger'', blocks'⟩ :=
    growBitmapAllocPages_granted inv.grow room ledger' subset blocks rfl frames
  have virtEq : (growBitmapAllocPages heap.vaddrBitmap n (frameAt phys)).1 = base + first * 4096 := by
    rw [alloc.address, inv.base_eq, inv.size_eq]
    rfl
  have apart : ∀ other ∈ runs, other.virt base + other.pages * 4096 ≤ base + first * 4096 ∨
      base + first * 4096 + n * 4096 ≤ other.virt base := fun other member => virt_apart alloc.inv.ledger member
  obtain ⟨-, within', high⟩ := alloc.inv.window (alloc.same_size.trans inv.size_eq) mem_cons_self
  rw [alloc.same_base, inv.base_eq] at high
  dsimp only at within' high
  have memory := inv.memory
  have low := inv.low
  have aligned := inv.aligned
  refine ⟨⟨first, n, start * 4096⟩, rfl, address.symm, virtEq, ?_, ?_, ?_⟩
  · have limit : start * 4096 + n * 4096 ≤ 2 ^ 52 := by
      unfold PhysBase.totalBlocks blockSize at within
      omega
    exact ⟨show (base + first * 4096) % 4096 = 0 by omega, show _ ≤ base + first * 4096 by omega, high,
      mul_mod_left _ _, limit, show start * 4096 ≠ 0 by omega⟩
  · intro other member v holds holds'
    have := apart other member
    unfold PageRun.Holds at holds holds'
    unfold PageRun.virt at *
    dsimp only at holds'
    omega
  · intro dir size flags maps
    obtain ⟨notNil, t, holds, fresh, enough⟩ := ready
    obtain ⟨_, sameTree, known⟩ := inv.areas
    obtain rfl := holds.rep.unique sameTree.rep
    obtain ⟨vmm, t', registered, holds', areas, -⟩ :=
      holds.withArea (start * 4096) (base + first * 4096) size flags fresh notNil enough
    -- no area of the window begins at the new address
    have absent : (newArea (start * 4096) (base + first * 4096) size flags).startAddress ∉
        (t.toList.map Tree.Cell.data).map VirtualMemory.startAddress := by
      rintro taken
      obtain ⟨area, member, equal⟩ := mem_map.mp taken
      have equal' : area.startAddress = base + first * 4096 := equal
      have positive := room.1
      obtain ⟨other, member', here⟩ := known.only area member (by omega) (by omega)
      have := apart other member'
      have := (inv.bounds member').1
      omega
    rw [withArea, if_neg absent] at areas
    refine ⟨vmm, ?_, ?_⟩
    · exact congrArg (Option.map _) registered
    · refine ⟨alloc.same_base.trans inv.base_eq, alloc.same_size.trans inv.size_eq, aligned, low, ?_, alloc.inv, ?_,
        ⟨origin, new ++ extra, zero, ?_, blocks'⟩, ?_, t', holds', (known.cons rfl rfl).perm areas.symm⟩
      · exact (sameLimit'.trans sameLimit).trans_le memory
      · exact forall_mem_cons.mpr ⟨mul_mod_left _ _, inv.whole⟩
      · refine ledger''.perm ?_
        rw [map_cons, PageRun.frames, Nat.mul_div_cancel _ (by decide), cons_append]
        refine perm_middle.trans (List.Perm.cons _ ?_)
        rw [← append_assoc, ← append_assoc]
        exact perm_append_comm.append_right extra
      · refine forall_mem_cons.mpr ⟨maps.inside, fun run member i less => ?_⟩
        have := apart run member
        exact (maps.outside _ (inv.canonical member less) (by simp only [PageRun.virt] at *; omega)).trans
          (inv.mapped run member i less)

/-! ### Giving a run back -/

theorem map_erase_of_distinct {α β : Type} [DecidableEq α] [DecidableEq β] {f : α → β} {a : α} {l : List α}
    (distinct : ∀ x ∈ l, f x = f a → x = a) : (l.map f).erase (f a) = (l.erase a).map f := by
  induction l with
  | nil => rfl
  | cons x l ih =>
    rw [map_cons]
    by_cases here : x = a
    · subst here
      rw [erase_cons_head, erase_cons_head]
    · have other : f x ≠ f a := fun same => here (distinct x mem_cons_self same)
      rw [erase_cons_tail (by simpa using other), erase_cons_tail (by simpa using here), map_cons,
        ih fun y member => distinct y (mem_cons_of_mem _ member)]

theorem PagesInv.distinct (inv : PagesInv nil base heap runs) {other : PageRun} (member : run ∈ runs)
    (member' : other ∈ runs) : (other.span = run.span → other = run) ∧ (other.frames = run.frames → other = run) ∧
      (other.virt base = run.virt base → other = run) := by
  have positive := (inv.bounds member).1
  have positive' := (inv.bounds member').1
  by_cases same : other = run
  · exact ⟨fun _ => same, fun _ => same, fun _ => same⟩
  · obtain ⟨spans, frames⟩ := inv.apart member' member same
    unfold Span.Apart PageRun.span PageRun.frames at *
    unfold PageRun.virt
    simp only [Span.mk.injEq]
    dsimp only at spans frames
    refine ⟨fun equal => ?_, fun equal => ?_, fun equal => ?_⟩ <;> omega

theorem AreasKnown.erase {areas : List VirtualMemory} (known : AreasKnown base areas runs) (nodup : runs.Nodup)
    (distinct : ∀ other ∈ runs, other.virt base = run.virt base → other = run) :
    AreasKnown base (withoutArea areas (run.virt base)) (runs.erase run) := by
  constructor
  · intro other member
    obtain ⟨notRun, member⟩ := nodup.mem_erase_iff.mp member
    obtain ⟨area, there, begins, frame⟩ := known.known other member
    refine ⟨area, mem_filter.mpr ⟨there, decide_eq_true fun same => ?_⟩, begins, frame⟩
    exact notRun (distinct other member (begins.symm.trans same))
  · intro area member above below
    obtain ⟨there, away⟩ := mem_filter.mp member
    obtain ⟨other, member', here⟩ := known.only area there above below
    refine ⟨other, nodup.mem_erase_iff.mpr ⟨?_, member'⟩, here⟩
    rintro rfl
    exact of_decide_eq_true away here

theorem PagesInv.nodup (inv : PagesInv nil base heap runs) : runs.Nodup := by
  refine (pairwise_map.mp inv.grow.ledger.apart).imp_of_mem fun {run other} member _ apart => ?_
  rintro rfl
  have positive := (inv.bounds member).1
  unfold Span.Apart PageRun.span at apart
  dsimp only at apart
  omega

theorem growBitmapFreePages_blocks (gb : GrowBitmap) (vaddr n : Nat) :
    (growBitmapFreePages gb vaddr n).activeBlocks = gb.activeBlocks ∧
      (growBitmapFreePages gb vaddr n).blocksPhys = gb.blocksPhys := by
  unfold growBitmapFreePages
  dsimp only
  split_ifs <;> exact ⟨rfl, rfl⟩

/-- The heap after a run went back; `vmm` is the tree without its area. -/
def withoutRun (heap : KernelHeap) (vmm : VmaTree) (virt phys pages : Nat) : KernelHeap :=
  { heap with
    phys := vxPhysBaseFree heap.phys phys pages
    pageDir := pagingMultipleUnmap heap.pageDir virt pages
    vmm := vmm
    vaddrBitmap := growBitmapFreePages heap.vaddrBitmap virt pages }

/-- **A run is given back**: the tree of areas has its frames, and it leaves the runs of the heap. -/
theorem PagesInv.release (inv : PagesInv nil base heap runs) (member : run ∈ runs) (bound : TreeBound nil fuel heap) :
    ∃ found area vmm, vmaSearch nil fuel heap.vmm (run.virt base) = some found ∧ found ≠ nil ∧
      (heap.vmm.heap found).data = some area ∧ area.physAddress = run.phys ∧
      vmaUnregister nil fuel heap.vmm (run.virt base) = some vmm ∧
      PagesInv nil base (withoutRun heap vmm (run.virt base) run.phys run.pages) (runs.erase run) := by
  obtain ⟨t, holds, enough⟩ := bound
  obtain ⟨_, sameTree, known⟩ := inv.areas
  obtain rfl := holds.rep.unique sameTree.rep
  obtain ⟨area, there, begins, frame⟩ := known.known run member
  obtain ⟨cell, inTree, rfl⟩ := mem_map.mp there
  obtain ⟨found, notNil, data⟩ := holds.cell enough inTree
  rw [begins] at found
  obtain ⟨-, vmm, t', -, unregistered, holds', rest, -⟩ := holds.withoutArea (run.virt base) enough
  obtain ⟨inv', base', size'⟩ := inv.grow.free (mem_map_of_mem (f := PageRun.span) member)
  have range : (heap.vaddrBitmap.range run.span) = ⟨run.virt base, run.pages⟩ := by
    rw [GrowBitmap.range, inv.base_eq, inv.size_eq]
    rfl
  rw [range] at inv' base' size'
  rw [map_erase_of_distinct fun other member' => (inv.distinct member member').1] at inv'
  obtain ⟨active', blocks'⟩ := growBitmapFreePages_blocks heap.vaddrBitmap (run.virt base) run.pages
  have within : ∀ other ∈ runs.erase run, other ≠ run ∧ other ∈ runs := fun other member' =>
    inv.nodup.mem_erase_iff.mp member'
  refine ⟨cell.ptr, cell.data, vmm, found, notNil, data, frame, unregistered, base'.trans inv.base_eq,
    size'.trans inv.size_eq, inv.aligned, inv.low, inv.memory, inv', fun other member' => inv.whole other (within _ member').2,
    ?_, ?_, t', holds', ?_⟩
  · obtain ⟨origin, extra, zero, ledger, blocks⟩ := inv.ledger
    refine ⟨origin, extra, zero, ?_, ?_⟩
    · have freed := ledger.free (mem_append_left extra (mem_map_of_mem (f := PageRun.frames) member))
      rw [erase_append_left _ (mem_map_of_mem member),
        map_erase_of_distinct fun other member' => (inv.distinct member member').2.1, PageRun.frames] at freed
      rw [withoutRun, vxPhysBaseFree, bitUsed_clearBits]
      exact freed
    · intro b active
      rw [withoutRun, active'] at active
      rw [withoutRun, blocks']
      exact blocks b active
  · intro other member' i less
    obtain ⟨notRun, member'⟩ := within other member'
    have apart := (inv.apart member member' (Ne.symm notRun)).1
    have bounds := inv.bounds member
    have low := inv.low
    have aligned := inv.aligned
    unfold Span.Apart PageRun.span at apart
    dsimp only at apart
    refine Eq.trans ?_ (inv.mapped other member' i less)
    refine pagingMultipleMmap_outside heap.pageDir (by constructor <;> rfl) ?_ ?_ bounds.2.2 rfl (by decide)
      (inv.canonical member' less) ?_
    · unfold PageRun.virt
      omega
    · unfold PageRun.virt
      omega
    · unfold PageRun.virt
      omega
  · rw [rest]
    exact known.erase inv.nodup fun other member' => (inv.distinct member member').2.2

end Runs

end Voxia.Memory
