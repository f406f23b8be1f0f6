/-
**The area records agree with the page table.**

A run goes by anonymous `mmap`, `munmap` and `brk` calls; `live` are the addresses these calls have mapped and not
unmapped. The conditions of `Safe` are what the code does not check: a `MAP_FIXED` mapping must start at a page
boundary and, like the growth of the heap, meet no area; `munmap` must take areas as wholes, since it unregisters
those that start in its range and no others.
-/

import Voxia.Sys.MemoryCalls

namespace Voxia.Sys

open Cpu Memory Voxia.Tree List Option

def userLimit : Nat := 2 ^ 47

section Definitions

variable (nil : Nat)

def Registered (tree : VmaTree) (vma : VirtualMemory) : Prop :=
  ∃ t, RepTree nil tree t ∧ ∃ x ∈ t.toList, x.data = vma

/-- The record of an area gives the physical address of `v`, if the pages of the area are present. -/
def Backed (dir : PageDir) (vma : VirtualMemory) (v : Nat) : Prop :=
  present (pte 3 dir v) = present vma.flags ∧
    (present vma.flags →
      physOf (pte 3 dir v) + v % 4096 = vma.physAddress + (v - vma.startAddress))

/-- The areas of a space, held by the tree `t`, agree with its page table. -/
structure AgreesAt (s : UserSpace) (live : Nat → Prop) (t : CellTree VirtualMemory) : Prop where
  wf : Wf 3 s.page
  holds : VmaHolds nil s.vmPage.tree t
  apart : t.toList.Pairwise Apart
  aligned : ∀ x ∈ t.toList, x.data.startAddress % 4096 = 0 ∧ x.data.endAddress % 4096 = 0
  nonempty : ∀ x ∈ t.toList, x.data.startAddress < x.data.endAddress
  nonzero : 0 ∉ ptrs t
  zone : ∀ z ∈ s.vmPage.zone .userMmap, z.endAddress % 4096 = 0
  backed : ∀ x ∈ t.toList, ∀ v < userLimit, x.data.Contains v → Backed s.page x.data v
  live : ∀ v < userLimit, live v ↔ ∃ x ∈ t.toList, x.data.Contains v

def Agrees (s : UserSpace) (live : Nat → Prop) : Prop := ∃ t, AgreesAt nil s live t

/-- What `phys_base_alloc(pages)` may return. -/
def FrameBlock (phys pages : Nat) : Prop :=
  phys = 0 ∨ (0 < pages ∧ phys % 4096 = 0 ∧ phys + pages * 4096 ≤ 2 ^ 52)

/-- A node the slab cache may return, and fuel for a walk over the tree. -/
def SlabNode (tree : VmaTree) (node : Nat) : Prop :=
  node ≠ 0 ∧ node ≠ nil ∧ ∀ t, RepTree nil tree t → node ∉ ptrs t

def Enough (tree : VmaTree) (fuel : Nat) : Prop := ∀ t, RepTree nil tree t → t.toList.length < fuel

def Unused (tree : VmaTree) (start size : Nat) : Prop :=
  ∀ vma, Registered nil tree vma → vma.endAddress ≤ start ∨ start + size ≤ vma.startAddress

inductive Call
  | mmap (addr len prot flags phys node : Nat)
  | munmap (addr len : Nat)
  | brk (addr phys node : Nat)

def Safe (s : UserSpace) : Call → Prop
  | .mmap addr len _ flags _ _ =>
    if flags &&& mapFixed ≠ 0 then
      addr % 4096 = 0 ∧ addr + pagesOf len * 4096 ≤ userLimit ∧
        Unused nil s.vmPage.tree addr (pagesOf len * 4096)
    else ∃ first, s.vmPage.cursor .userMmap ≤ first ∧ first + pagesOf len * 4096 ≤ userLimit ∧
      Unused nil s.vmPage.tree first (pagesOf len * 4096)
  | .munmap addr len => addr % 4096 = 0 ∧ addr + pagesOf len * 4096 ≤ userLimit ∧
      ∀ vma, Registered nil s.vmPage.tree vma →
        (addr ≤ vma.startAddress ∧ vma.endAddress ≤ addr + pagesOf len * 4096) ∨
          vma.endAddress ≤ addr ∨ addr + pagesOf len * 4096 ≤ vma.startAddress
  | .brk addr _ _ =>
    s.heapEnd < addr → alignUp s.heapEnd pageSize4KB < alignUp addr pageSize4KB →
      alignUp addr pageSize4KB ≤ userLimit ∧ Unused nil s.vmPage.tree (alignUp s.heapEnd pageSize4KB)
        (alignUp addr pageSize4KB - alignUp s.heapEnd pageSize4KB)

/-- Runs whose calls all meet a condition, with the addresses they have mapped. -/
inductive MemoryRun (condition : UserSpace → Call → Prop) : UserSpace → (Nat → Prop) → Prop
  | start {s : UserSpace} {live : Nat → Prop} (agrees : Agrees nil s live) : MemoryRun condition s live
  | mmap {s s' : UserSpace} {live : Nat → Prop} {fuel addr len prot flags phys node : Nat} {result : Int}
      (before : MemoryRun condition s live)
      (safe : condition s (.mmap addr len prot flags phys node))
      (block : FrameBlock phys (pagesOf len)) (slab : SlabNode nil s.vmPage.tree node)
      (enough : Enough nil s.vmPage.tree fuel)
      (returned : syscallMmap nil fuel s addr len prot flags phys node = some (result, s')) :
      MemoryRun condition s' fun v =>
        live v ∨ (0 ≤ result ∧ result ≤ v ∧ v < result + pagesOf len * 4096)
  | munmap {s s' : UserSpace} {live : Nat → Prop} {fuel addr len : Nat}
      (before : MemoryRun condition s live) (safe : condition s (.munmap addr len))
      (enough : Enough nil s.vmPage.tree fuel)
      (returned : syscallMunmap nil fuel s addr len = some s') :
      MemoryRun condition s' fun v =>
        live v ∧ (addr = 0 ∨ ¬ (addr ≤ v ∧ v < addr + pagesOf len * 4096))
  | brk {s s' : UserSpace} {live : Nat → Prop} {fuel addr phys node result : Nat}
      (before : MemoryRun condition s live) (safe : condition s (.brk addr phys node))
      (block : FrameBlock phys
        ((alignUp addr pageSize4KB - alignUp s.heapEnd pageSize4KB) / pageSize4KB))
      (slab : SlabNode nil s.vmPage.tree node) (enough : Enough nil s.vmPage.tree fuel)
      (returned : syscallBrk nil fuel s addr phys node = some (result, s')) :
      MemoryRun condition s' fun v => live v ∨ (s.heapEnd < result ∧
        alignUp s.heapEnd pageSize4KB ≤ v ∧ v < alignUp result pageSize4KB)

end Definitions

variable {nil : Nat}

variable {t : CellTree VirtualMemory} {start size phys n flags fuel addr len prot node : Nat} {s s' : UserSpace}
  {live : Nat → Prop} {vmPage vmPage' : VirtualMemoryPage} {dir : PageDir}

theorem Registered.iff {tree : VmaTree} (rep : RepTree nil tree t)
    {vma : VirtualMemory} : Registered nil tree vma ↔ ∃ x ∈ t.toList, x.data = vma := by
  constructor
  · rintro ⟨t', rep', member⟩
    rwa [rep.unique rep']
  · intro member
    exact ⟨t, rep, member⟩

/-! ### A new area -/

/-- What a call maps: a range of the user half that no area meets, and frames for it. -/
structure NewRange (t : CellTree VirtualMemory) (start size phys : Nat) : Prop where
  startAligned : start % 4096 = 0
  sizeAligned : size % 4096 = 0
  positive : 0 < size
  low : start + size ≤ userLimit
  unused : ∀ x ∈ t.toList, x.data.endAddress ≤ start ∨ start + size ≤ x.data.startAddress
  physAligned : phys % 4096 = 0
  physLow : phys + size ≤ 2 ^ 52

theorem NewRange.apart {t' : CellTree VirtualMemory} (range : NewRange t start size phys)
    (apart : t.toList.Pairwise Apart) (nonempty : ∀ x ∈ t.toList, x.data.startAddress < x.data.endAddress)
    (sorted : (starts t').Pairwise (· < ·))
    (new : t'.toList.Perm (⟨n, newArea phys start size flags⟩ :: t.toList)) : t'.toList.Pairwise Apart := by
  have word : (newArea phys start size flags).endAddress = start + size := by
    have low := range.low
    unfold userLimit at low
    exact u64_of_lt (by omega)
  refine (pairwise_map.mp sorted).imp_of_mem fun {x y} inX inY less => ⟨less, ?_⟩
  obtain rfl | oldX := mem_cons.mp (new.mem_iff.mp inX)
  · obtain rfl | oldY := mem_cons.mp (new.mem_iff.mp inY)
    · exact absurd less (lt_irrefl _)
    · have full := nonempty y oldY
      have later : start < y.data.startAddress := less
      have away := range.unused y oldY
      rw [word]
      omega
  · obtain rfl | oldY := mem_cons.mp (new.mem_iff.mp inY)
    · have earlier : x.data.startAddress < start := less
      have away := range.unused x oldX
      show x.data.endAddress ≤ start
      omega
    · have ordered := List.Pairwise.forall_of_forall_of_flip
        (R := fun x y : Cell VirtualMemory => x.data.startAddress < y.data.startAddress →
          x.data.endAddress ≤ y.data.startAddress)
        (fun x _ less => absurd less (lt_irrefl _)) (apart.imp fun before _ => before.2)
        (apart.imp fun before less => absurd before.1 less.not_gt)
      exact ordered oldX oldY less

theorem backed_rangeEntry {pageFlags v : Nat} (range : NewRange t start size phys)
    (entry : pte 3 dir v = rangeEntry start phys pageFlags v) (same : present pageFlags = present flags)
    (first : start ≤ v) (last : v < start + size) : Backed dir (newArea phys start size flags) v := by
  unfold Backed
  rw [entry]
  show _ = present flags ∧ (present flags → _ = phys + (v - start))
  cases isPresent : present flags with
  | true =>
    have physLow := range.physLow
    obtain ⟨there, frame⟩ := rangeEntry_frame range.startAligned range.physAligned (same.trans isPresent) first
      (by omega)
    exact ⟨there, fun _ => frame⟩
  | false =>
    rw [rangeEntry, if_neg (by simp [same, isPresent])]
    exact ⟨rfl, fun absurdity => absurd absurdity (by simp)⟩

/-- **A new area over new pages.** The directory maps the range as the record says and leaves the other
user pages alone. -/
theorem AgreesAt.add {page : PageDir} {live' : Nat → Prop} (heapEnd : Nat) (agrees : AgreesAt nil s live t)
    (range : NewRange t start size phys) (slab : SlabNode nil s.vmPage.tree n) (enough : Enough nil s.vmPage.tree fuel)
    (sameTree : vmPage.tree = s.vmPage.tree) (zone : ∀ z ∈ vmPage.zone .userMmap, z.endAddress % 4096 = 0)
    (registered : registerArea nil fuel vmPage n phys start size flags = some vmPage') (wf : Wf 3 page)
    (mapped : ∃ pageFlags, present pageFlags = present flags ∧ ∀ v < userLimit, pte 3 page v =
      if start ≤ v ∧ v < start + size then rangeEntry start phys pageFlags v else pte 3 s.page v)
    (sameLive : ∀ v < userLimit, live' v ↔ live v ∨ (start ≤ v ∧ v < start + size)) :
    Agrees nil { s with page := page, vmPage := vmPage', heapEnd := heapEnd } live' := by
  have low := range.low
  have positive := range.positive
  have limit : userLimit = 2 ^ 47 := rfl
  have word : (newArea phys start size flags).endAddress = start + size := u64_of_lt (by omega)
  have contains : ∀ v, (newArea phys start size flags).Contains v ↔ start ≤ v ∧ v < start + size := fun v => by
    rw [VirtualMemory.Contains, word]
    rfl
  have rep := agrees.holds.rep
  obtain ⟨pageFlags, samePresent, entries⟩ := mapped
  simp only [registerArea, sameTree, bind_eq_some,
    some.injEq] at registered
  obtain ⟨tree, result, rfl⟩ := registered
  obtain ⟨st', t', returned, holds, new, -⟩ :=
    agrees.holds.register phys start size flags (slab.2.2 t rep) slab.2.1 (enough t rep)
  obtain rfl : tree = st' := by rwa [result, some.injEq] at returned
  -- an area with this start would meet the range
  rw [if_neg fun member => by
    obtain ⟨x, listed, same⟩ := mem_map.mp member
    have full := agrees.nonempty x listed
    have clash := range.unused x listed
    omega] at new
  have each : ∀ {P : Cell VirtualMemory → Prop}, P ⟨n, newArea phys start size flags⟩ → (∀ x ∈ t.toList, P x) →
      ∀ x ∈ t'.toList, P x := fun here before x listed =>
    forall_mem_cons.mpr ⟨here, before⟩ x (new.mem_iff.mp listed)
  refine ⟨t', wf, holds, range.apart agrees.apart agrees.nonempty holds.sorted new,
    each ⟨range.startAligned, ?_⟩ agrees.aligned, each ?_ agrees.nonempty, fun zero => ?_, zone, each ?_ ?_,
    fun v below => ?_⟩
  · have startAligned := range.startAligned
    have sizeAligned := range.sizeAligned
    rw [word]
    omega
  · show start < (newArea phys start size flags).endAddress
    omega
  · obtain isNode | before := mem_cons.mp ((new.map Cell.ptr).mem_iff.mp zero)
    · exact slab.1 isNode.symm
    · exact agrees.nonzero before
  · intro v below within
    rw [contains] at within
    exact backed_rangeEntry range ((entries v below).trans (if_pos within)) samePresent within.1 within.2
  · intro x before v below within
    have apart := range.unused x before
    have away : ¬ (start ≤ v ∧ v < start + size) := by
      obtain ⟨first, last⟩ := within
      omega
    have backed := agrees.backed x before v below within
    unfold Backed at backed ⊢
    rw [entries v below, if_neg away]
    exact backed
  · rw [sameLive v below, agrees.live v below, or_comm, ← contains]
    simp only [new.mem_iff, mem_cons, or_and_right, exists_or, exists_eq_left]

/-! ### mmap and brk -/

theorem clean_mmapProtToFlags (prot : Nat) : Clean (mmapProtToFlags prot) := by
  unfold mmapProtToFlags
  split_ifs <;> exact ⟨by decide, by decide⟩

theorem mmapPages_spec {pages : Nat} (range : NewRange t start (pages * 4096) phys) (wf : Wf 3 dir)
    (clean : Clean flags) (nonzero : phys ≠ 0) :
    Wf 3 (mmapPages dir start phys pages flags) ∧
      ∃ pageFlags, present pageFlags = present flags ∧ ∀ v < userLimit,
        pte 3 (mmapPages dir start phys pages flags) v =
          if start ≤ v ∧ v < start + pages * 4096 then rangeEntry start phys pageFlags v
          else pte 3 dir v := by
  have frames : ∀ someFlags, RangeFrames phys (pages * 4096) someFlags :=
    fun someFlags => .inr ⟨nonzero, range.physAligned, range.physLow⟩
  obtain ⟨wfTemp, temp⟩ := pagingMultipleMmap_spec wf (show Clean tempFlags from ⟨by decide, by decide⟩)
    range.startAligned range.low (frames tempFlags)
  unfold mmapPages
  simp only
  split_ifs with lacks
  · obtain ⟨wfFinal, final⟩ := pagingMultipleMmap_spec wfTemp clean range.startAligned range.low
      (frames flags)
    refine ⟨wfFinal, flags, rfl, fun v below => ?_⟩
    rw [final v below]
    by_cases within : start ≤ v ∧ v < start + pages * 4096
    · rw [if_pos within, if_pos within]
    · rw [if_neg within, if_neg within, temp v below, if_neg within]
  · refine ⟨wfTemp, tempFlags, ?_, temp⟩
    have both : flags &&& (pagePresent ||| pageWritable) = pagePresent ||| pageWritable := by
      simpa using lacks
    have bit := congrArg (fun word => word.testBit 0) both
    simp only [Nat.testBit_and] at bit
    rw [show (pagePresent ||| pageWritable).testBit 0 = true from by decide, Bool.and_true] at bit
    rw [show present flags = true from bit]
    decide

theorem AgreesAt.sameTree {live' : Nat → Prop} {heapEnd : Nat} (agrees : AgreesAt nil s live t)
    (same : vmPage.tree = s.vmPage.tree) (zone : ∀ z ∈ vmPage.zone .userMmap, z.endAddress % 4096 = 0)
    (sameLive : ∀ v < userLimit, live' v ↔ live v) :
    Agrees nil { s with vmPage := vmPage, heapEnd := heapEnd } live' := by
  refine ⟨t, agrees.wf, ?_, agrees.apart, agrees.aligned, agrees.nonempty, agrees.nonzero, zone,
    agrees.backed, fun v below => (sameLive v below).trans (agrees.live v below)⟩
  rw [same]
  exact agrees.holds

/-- The address mmap resolves is free, user and page-aligned. -/
theorem AgreesAt.resolve {virtAddr : Nat} (agrees : AgreesAt nil s live t)
    (safe : Safe nil s (.mmap addr len prot flags phys node))
    (resolved : mmapResolveVirtAddr nil fuel s addr flags (pagesOf len) = some (virtAddr, vmPage)) :
    vmPage.tree = s.vmPage.tree ∧ (∀ z ∈ vmPage.zone .userMmap, z.endAddress % 4096 = 0) ∧
      virtAddr % 4096 = 0 ∧ virtAddr + pagesOf len * 4096 ≤ userLimit ∧
      (0 < pagesOf len → ∀ x ∈ t.toList, x.data.endAddress ≤ virtAddr ∨
        virtAddr + pagesOf len * 4096 ≤ x.data.startAddress) := by
  have rep := agrees.holds.rep
  unfold mmapResolveVirtAddr at resolved
  simp only [Safe] at safe
  split_ifs at resolved safe with fixed
  · obtain ⟨rfl, rfl⟩ := resolved
    obtain ⟨aligned, low, unused⟩ := safe
    refine ⟨rfl, agrees.zone, aligned, low, fun _ x listed => ?_⟩
    exact unused x.data ((Registered.iff rep).mpr ⟨x, listed, rfl⟩)
  · obtain ⟨first, behind, low, unused⟩ := safe
    obtain ⟨found, rfl⟩ := vmaLookupFreeVaddr_found resolved
    have limit : userLimit = 2 ^ 47 := rfl
    have size : pagesOf len * blockSize = pagesOf len * 4096 := rfl
    have staggered := agrees.apart.imp Apart.staggered
    have cursor : s.vmPage.cursor .userMmap % blockSize = 0 := by
      unfold VirtualMemoryPage.cursor
      cases zone : s.vmPage.zone .userMmap with
      | nil => decide
      | cons z rest => exact agrees.zone z (zone ▸ mem_cons_self)
    have room : ∀ x ∈ t.toList, ∀ v, first ≤ v → v < first + pagesOf len * blockSize → ¬ x.data.Contains v := by
      rintro x listed v above below ⟨start, last⟩
      have := unused x.data ((Registered.iff rep).mpr ⟨x, listed, rfl⟩)
      omega
    obtain ⟨-, before, aligned⟩ := freeVaddrFrom_le rep agrees.nonzero staggered
      (fun x listed => (agrees.aligned x listed).2) cursor behind (by omega) room found
    have pages := (freeVaddrFrom_spec rep agrees.nonzero staggered found).1
    refine ⟨rfl, ?_, aligned, by omega, ?_⟩
    · intro z listed
      obtain rfl | old := mem_cons.mp listed
      · show u64 (virtAddr + 4096 * pagesOf len) % 4096 = 0
        rw [u64_of_lt (by omega)]
        exact (Nat.add_mul_mod_self_left ..).trans aligned
      · exact agrees.zone z old
    · intro positive x listed
      obtain ⟨startAligned, -⟩ := agrees.aligned x listed
      have full := agrees.nonempty x listed
      by_contra meets
      -- the first common address
      refine pages.all aligned (by omega) (le_max_right x.data.startAddress virtAddr) ?_ listed startAligned
        ⟨le_max_left _ _, ?_⟩ <;> rw [max_def] <;> split_ifs <;> omega

/-- mmap adds the range it returns. -/
theorem Agrees.mmap {result : Int} (agrees : Agrees nil s live)
    (safe : Safe nil s (.mmap addr len prot flags phys node))
    (block : FrameBlock phys (pagesOf len)) (slab : SlabNode nil s.vmPage.tree node)
    (enough : Enough nil s.vmPage.tree fuel)
    (returned : syscallMmap nil fuel s addr len prot flags phys node = some (result, s')) :
    Agrees nil s' fun v => live v ∨ (0 ≤ result ∧ result ≤ v ∧ v < result + pagesOf len * 4096) := by
  obtain ⟨t, agreesAt⟩ := agrees
  unfold syscallMmap at returned
  split_ifs at returned with empty
  · obtain ⟨rfl, rfl⟩ := returned
    exact agreesAt.sameTree rfl agreesAt.zone fun v _ => or_iff_left fun mapped => absurd mapped.1 (by decide)
  simp only [mmapHandleAnonymous, bind_eq_some] at returned
  obtain ⟨⟨virtAddr, vmPage⟩, resolved, returned⟩ := returned
  obtain ⟨sameTree, zone, aligned, low, unused⟩ := agreesAt.resolve safe resolved
  split_ifs at returned with noAddress fixed noFrames
  iterate 3
    · obtain ⟨rfl, rfl⟩ := returned
      exact agreesAt.sameTree sameTree zone fun v _ => or_iff_left fun mapped => absurd mapped.1 (by decide)
  · simp only [bind_eq_some, some.injEq, Prod.mk.injEq] at returned
    obtain ⟨vmPage', registered, rfl, rfl⟩ := returned
    obtain ⟨positive, physAligned, physLow⟩ := block.resolve_left noFrames
    have range : NewRange t virtAddr (pagesOf len * 4096) phys :=
      ⟨aligned, Nat.mul_mod_left _ _, by omega, low, unused positive, physAligned, physLow⟩
    obtain ⟨wf, mapped⟩ := mmapPages_spec range agreesAt.wf (clean_mmapProtToFlags prot) noFrames
    exact agreesAt.add s.heapEnd range slab enough sameTree zone registered wf mapped fun v _ =>
      or_congr_right (by omega)

theorem alignUp_page (x : Nat) : alignUp x pageSize4KB % 4096 = 0 := by
  have down := alignDown_blockSize (u64_lt (x + 4095))
  have same : alignUp x pageSize4KB = alignDown (u64 (x + 4095)) blockSize := rfl
  rw [same, down]
  exact Nat.mul_mod_left _ _

/-- brk adds the pages up to the new break. -/
theorem Agrees.brk {result : Nat} (agrees : Agrees nil s live) (safe : Safe nil s (.brk addr phys node))
    (block : FrameBlock phys
      ((alignUp addr pageSize4KB - alignUp s.heapEnd pageSize4KB) / pageSize4KB))
    (slab : SlabNode nil s.vmPage.tree node) (enough : Enough nil s.vmPage.tree fuel)
    (returned : syscallBrk nil fuel s addr phys node = some (result, s')) :
    Agrees nil s' fun v => live v ∨ (s.heapEnd < result ∧ alignUp s.heapEnd pageSize4KB ≤ v ∧
      v < alignUp result pageSize4KB) := by
  obtain ⟨t, agreesAt⟩ := agrees
  have oldAligned := alignUp_page s.heapEnd
  have newAligned := alignUp_page addr
  have pageSize : pageSize4KB = 4096 := rfl
  unfold syscallBrk at returned
  simp only at returned
  split_ifs at returned with noChange grows noFrames
  iterate 2
    · obtain ⟨rfl, rfl⟩ := returned
      exact agreesAt.sameTree rfl agreesAt.zone fun v _ => or_iff_left (by omega)
  · simp only [bind_eq_some, some.injEq, Prod.mk.injEq] at returned
    obtain ⟨vmPage', registered, rfl, rfl⟩ := returned
    obtain ⟨low, unused⟩ := safe grows.1 grows.2
    obtain ⟨-, physAligned, physLow⟩ := block.resolve_left noFrames
    generalize alignUp s.heapEnd pageSize4KB = oldPage at *
    generalize alignUp addr pageSize4KB = newPage at *
    have pages : (newPage - oldPage) / pageSize4KB * 4096 = newPage - oldPage := by
      rw [pageSize]
      omega
    rw [pages] at physLow
    have range : NewRange t oldPage (newPage - oldPage) phys := by
      refine ⟨oldAligned, by omega, by omega, by omega, fun x listed => ?_, physAligned, physLow⟩
      exact unused x.data ((Registered.iff agreesAt.holds.rep).mpr ⟨x, listed, rfl⟩)
    have clean : Clean heapFlags := ⟨by decide, by decide⟩
    obtain ⟨wf, entries⟩ := pagingMultipleMmap_spec agreesAt.wf clean oldAligned
      (by rw [pages]; exact range.low) (.inr ⟨noFrames, physAligned, by rw [pages]; exact physLow⟩)
    rw [pages] at entries
    exact agreesAt.add addr range slab enough rfl agreesAt.zone registered wf ⟨heapFlags, by decide, entries⟩
      fun v _ => or_congr_right (by omega)
  · obtain ⟨rfl, rfl⟩ := returned
    exact agreesAt.sameTree rfl agreesAt.zone fun v _ => or_iff_left (by omega)

/-! ### munmap -/

/-- The loop of `munmap` unregisters the areas that start in its range. -/
theorem unregisterPages_spec {count : Nat} (holds : VmaHolds nil vmPage.tree t) (enough : t.toList.length < fuel)
    (addrAligned : addr % 4096 = 0) (aligned : ∀ x ∈ t.toList, x.data.startAddress % 4096 = 0)
    (low : addr + count * 4096 ≤ 2 ^ 64) (returned : unregisterPages nil fuel vmPage addr count = some vmPage') :
    vmPage'.zone = vmPage.zone ∧ ∃ t', VmaHolds nil vmPage'.tree t' ∧ t'.toList.Sublist t.toList ∧
      ∀ x, x ∈ t'.toList ↔ x ∈ t.toList ∧
        ¬ (addr ≤ x.data.startAddress ∧ x.data.startAddress < addr + count * 4096) := by
  induction count generalizing vmPage' with
  | zero =>
    rw [unregisterPages, some.injEq] at returned
    subst returned
    exact ⟨rfl, t, holds, List.Sublist.refl _, fun x => (and_iff_left (by omega)).symm⟩
  | succ count ih =>
    have small : addr + count * 4096 < 2 ^ 64 := by omega
    simp only [unregisterPages, bind_eq_some, some.injEq] at returned
    obtain ⟨middle, first, tree, removed, rfl⟩ := returned
    obtain ⟨sameZone, t₁, holds₁, sublist, members⟩ := ih (Nat.le_of_lt small) first
    refine ⟨sameZone, ?_⟩
    have enough₁ : t₁.toList.length < fuel := lt_of_le_of_lt sublist.length_le enough
    have address : u64 (addr + count * 0x1000) = addr + count * 4096 := u64_of_lt small
    rw [address] at removed
    obtain ⟨-, st', t₂, -, result, holds₂, rest, -⟩ := holds₁.unregister (addr + count * 4096) enough₁
    obtain rfl : tree = st' := by rwa [result, some.injEq, eq_comm] at removed
    refine ⟨t₂, holds₂, ?_, fun y => ?_⟩
    · rw [rest]
      exact filter_sublist.trans sublist
    · rw [rest, mem_filter, members, decide_eq_true_eq, and_assoc]
      refine and_congr_right fun member => ?_
      have startAligned := aligned y member
      omega

/-- munmap takes its range away. -/
theorem Agrees.munmap (agrees : Agrees nil s live) (safe : Safe nil s (.munmap addr len))
    (enough : Enough nil s.vmPage.tree fuel) (returned : syscallMunmap nil fuel s addr len = some s') :
    Agrees nil s' fun v => live v ∧ (addr = 0 ∨ ¬ (addr ≤ v ∧ v < addr + pagesOf len * 4096)) := by
  obtain ⟨t, agreesAt⟩ := agrees
  obtain ⟨addrAligned, low, whole⟩ := safe
  have limit : userLimit = 2 ^ 47 := rfl
  have rep := agreesAt.holds.rep
  unfold syscallMunmap at returned
  split_ifs at returned with tolerated
  · rw [some.injEq] at returned
    subst returned
    refine agreesAt.sameTree rfl agreesAt.zone fun v _ => and_iff_left ?_
    obtain zero | rfl := tolerated
    · exact .inl zero
    · have none : pagesOf 0 = 0 := by decide
      exact .inr fun within => absurd within (by omega)
  · simp only [bind_eq_some, some.injEq] at returned
    obtain ⟨vmPage', loop, rfl⟩ := returned
    have addrNonzero : ¬ addr = 0 := fun zero => tolerated (.inl zero)
    obtain ⟨sameZone, t', holds', sublist, members⟩ := unregisterPages_spec agreesAt.holds (enough t rep)
      addrAligned (fun x listed => (agreesAt.aligned x listed).1) (by omega) loop
    obtain ⟨wf, entries⟩ := pagingMultipleMmap_spec agreesAt.wf (show Clean 0 from ⟨by decide, by decide⟩)
      addrAligned low (.inl ⟨rfl, rfl⟩)
    have whole' := fun x (before : x ∈ t.toList) => whole x.data ((Registered.iff rep).mpr ⟨x, before, rfl⟩)
    -- an area that is left lies outside the range, and one that goes inside it
    have kept : ∀ x, x ∈ t'.toList ↔ x ∈ t.toList ∧ (x.data.endAddress ≤ addr ∨
        addr + pagesOf len * 4096 ≤ x.data.startAddress) := by
      intro x
      rw [members]
      refine and_congr_right fun before => ?_
      have full := agreesAt.nonempty x before
      have inOrOut := whole' x before
      omega
    refine ⟨t', wf, holds', agreesAt.apart.sublist sublist,
      fun x listed => agreesAt.aligned x (sublist.subset listed),
      fun x listed => agreesAt.nonempty x (sublist.subset listed),
      fun zero => agreesAt.nonzero ((sublist.map Cell.ptr).subset zero), ?_, ?_, ?_⟩
    · rw [sameZone]
      exact agreesAt.zone
    · intro x listed v below contains
      obtain ⟨before, apart⟩ := (kept x).mp listed
      have away : ¬ (addr ≤ v ∧ v < addr + pagesOf len * 4096) := by
        obtain ⟨first, last⟩ := contains
        omega
      have backed := agreesAt.backed x before v below contains
      have same : pte 3 (pagingMultipleUnmap s.page addr (pagesOf len)) v = pte 3 s.page v := by
        rw [pagingMultipleUnmap, entries v below, if_neg away]
      unfold Backed at backed ⊢
      rw [same]
      exact backed
    · intro v below
      rw [agreesAt.live v below, or_iff_right addrNonzero]
      constructor
      · rintro ⟨⟨x, before, contains⟩, away⟩
        refine ⟨x, (kept x).mpr ⟨before, ?_⟩, contains⟩
        have inOrOut := whole' x before
        obtain ⟨first, last⟩ := contains
        omega
      · rintro ⟨x, listed, contains⟩
        obtain ⟨before, apart⟩ := (kept x).mp listed
        refine ⟨⟨x, before, contains⟩, fun within => ?_⟩
        obtain ⟨first, last⟩ := contains
        omega

/-! ### Runs -/

/-- **Every safe run keeps records and page table in agreement.** -/
theorem MemoryRun.agrees (run : MemoryRun nil (Safe nil) s live) : Agrees nil s live := by
  induction run with
  | start agrees => exact agrees
  | mmap _ safe block slab enough returned ih => exact ih.mmap safe block slab enough returned
  | munmap _ safe enough returned ih => exact ih.munmap safe enough returned
  | brk _ safe block slab enough returned ih => exact ih.brk safe block slab enough returned

/-- **The records at every point of a safe run.** -/
theorem memoryRun_agrees {s : UserSpace} {live : Nat → Prop} (run : MemoryRun nil (Safe nil) s live)
    (v : Nat) (isUser : v < userLimit) :
    (live v → ∃ vma, Registered nil s.vmPage.tree vma ∧ vma.Contains v ∧ Backed s.page vma v ∧
      ∀ other, Registered nil s.vmPage.tree other → other.Contains v → other = vma) ∧
    (¬ live v → ∀ vma, Registered nil s.vmPage.tree vma → ¬ vma.Contains v) := by
  obtain ⟨t, agrees⟩ := run.agrees
  have registered : ∀ vma, Registered nil s.vmPage.tree vma ↔ ∃ x ∈ t.toList, x.data = vma :=
    fun _ => Registered.iff agrees.holds.rep
  constructor
  · intro isLive
    obtain ⟨x, listed, contains⟩ := (agrees.live v isUser).mp isLive
    refine ⟨x.data, (registered _).mpr ⟨x, listed, rfl⟩, contains, agrees.backed x listed v isUser contains,
      ?_⟩
    intro other isRegistered contains'
    obtain ⟨y, listed', rfl⟩ := (registered _).mp isRegistered
    by_contra different
    have distinct : x ≠ y := fun same => different (same ▸ rfl)
    have disjoint : t.toList.Pairwise fun x y => ¬ (x.data.Contains v ∧ y.data.Contains v) := by
      refine agrees.apart.imp fun {x y} apart both => ?_
      have before := apart.2
      obtain ⟨⟨-, last⟩, first, -⟩ := both
      omega
    have symm : Std.Symm fun x y : Cell VirtualMemory => ¬ (x.data.Contains v ∧ y.data.Contains v) :=
      ⟨fun x y notBoth both => notBoth both.symm⟩
    exact disjoint.forall listed listed' distinct ⟨contains, contains'⟩
  · intro notLive vma isRegistered contains
    obtain ⟨x, listed, rfl⟩ := (registered vma).mp isRegistered
    exact notLive ((agrees.live v isUser).mpr ⟨x, listed, contains⟩)

/-! ### A mapping of two pages -/

def emptySpace : UserSpace where
  page := .empty 3
  vmPage := ⟨createVmmPage 1 (initSentinel 1 fun _ => ⟨none, 0, 0, 0, .red⟩), fun _ => []⟩
  heapStart := 0x600000
  heapEnd := 0x600000

theorem holds_emptySpace : VmaHolds 1 emptySpace.vmPage.tree .leaf := VmaHolds.empty 1 _

theorem agrees_emptySpace : Agrees 1 emptySpace fun _ => False := by
  refine ⟨.leaf, wf_empty 3, holds_emptySpace, List.Pairwise.nil, ?_, ?_, ?_, ?_, ?_, ?_⟩ <;>
    simp [Lib.Tree.toList, ptrs, emptySpace]

def twoPages : VirtualMemoryPage :=
  vmaTreeAddLocked emptySpace.vmPage .userMmap 0x100000000 0x100002000

theorem lookup_emptySpace : vmaLookupFreeVaddr 1 8 emptySpace.vmPage .userMmap 2 = some (0x100000000, twoPages) := rfl

theorem mmap_emptySpace : ∃ s t, syscallMmap 1 8 emptySpace 0 0x2000 3 0x20 0x10000 2 =
      some (0x100000000, s) ∧ VmaHolds 1 s.vmPage.tree t ∧
      t.toList = [⟨2, newArea 0x10000 0x100000000 0x2000 (mmapProtToFlags 3)⟩] ∧
      s.heapStart = 0x600000 ∧ s.heapEnd = 0x600000 := by
  have enough : (Lib.Tree.leaf : CellTree VirtualMemory).toList.length < 8 := by decide
  obtain ⟨tree, t, returned, holds, new, -⟩ :=
    holds_emptySpace.register (n := 2) 0x10000 0x100000000 0x2000 (mmapProtToFlags 3)
      (by simp [ptrs, Lib.Tree.toList]) (by decide) enough
  have pages : pagesOf 0x2000 = 2 := by decide
  have area : registerArea 1 8 twoPages 2 0x10000 0x100000000 (2 * blockSize) (mmapProtToFlags 3) =
      some { twoPages with tree := tree } := by
    have same : vmaRegisterLocked 1 8 twoPages.tree 2 0x10000 0x100000000 (2 * blockSize)
        (mmapProtToFlags 3) = some tree := returned
    rw [registerArea, same]
    rfl
  refine ⟨{ emptySpace with
    page := mmapPages emptySpace.page 0x100000000 0x10000 2 (mmapProtToFlags 3)
    vmPage := { twoPages with tree := tree } }, t, ?_, holds, perm_singleton.mp new, rfl, rfl⟩
  have notFixed : ¬ (0x20 &&& mapFixed ≠ 0) := by decide
  rw [syscallMmap, if_neg (by decide), pages, mmapHandleAnonymous, mmapResolveVirtAddr, if_neg notFixed,
    lookup_emptySpace]
  simp only [bind_eq_bind, bind_some, area]
  rfl

theorem slab_of_holds {tree : VmaTree} {node : Nat} (holds : VmaHolds 1 tree t) (valid : node ≠ 0 ∧ node ≠ 1)
    (unused : node ∉ ptrs t) (short : t.toList.length < 8) : SlabNode 1 tree node ∧ Enough 1 tree 8 :=
  ⟨⟨valid.1, valid.2, fun t' rep => by rwa [rep.unique holds.rep]⟩, fun t' rep => by rwa [rep.unique holds.rep]⟩

theorem not_registered_of_nil {tree : VmaTree} {vma : VirtualMemory} (holds : VmaHolds nil tree t)
    (none : t.toList = []) : ¬ Registered nil tree vma := by
  rw [Registered.iff holds.rep, none]
  rintro ⟨x, member, -⟩
  exact absurd member not_mem_nil

theorem slab_emptySpace : SlabNode 1 emptySpace.vmPage.tree 2 ∧ Enough 1 emptySpace.vmPage.tree 8 :=
  slab_of_holds holds_emptySpace (by decide) not_mem_nil (by decide)

theorem run_emptySpace (condition : UserSpace → Call → Prop)
    (safe : condition emptySpace (.mmap 0 0x2000 3 0x20 0x10000 2))
    (mapped : syscallMmap 1 8 emptySpace 0 0x2000 3 0x20 0x10000 2 = some (0x100000000, s)) :
    MemoryRun 1 condition s fun v => False ∨ ((0 : Int) ≤ 0x100000000 ∧ (0x100000000 : Int) ≤ v ∧
      (v : Int) < 0x100000000 + pagesOf 0x2000 * 4096) :=
  (MemoryRun.start agrees_emptySpace).mmap safe (.inr (by decide)) slab_emptySpace.1 slab_emptySpace.2 mapped

theorem safe_emptySpace : Safe 1 emptySpace (.mmap 0 0x2000 3 0x20 0x10000 2) := by
  have notFixed : ¬ (0x20 &&& mapFixed ≠ 0) := by decide
  rw [Safe, if_neg notFixed]
  exact ⟨0x100000000, le_rfl, by decide, fun vma listed => absurd listed (not_registered_of_nil holds_emptySpace rfl)⟩

/-- Two pages are mapped and unmapped again, and the heap gets its first page. -/
theorem memoryRun_agrees_three_calls : ∃ (s : UserSpace) (vma : VirtualMemory), Registered 1 s.vmPage.tree vma ∧
    vma.Contains 0x600800 ∧ Backed s.page vma 0x600800 ∧
    ∀ other, Registered 1 s.vmPage.tree other → ¬ other.Contains 0x100001000 := by
  obtain ⟨⟨dir, vmPage, _, _⟩, t, mapped, holds, list, rfl, rfl⟩ := mmap_emptySpace
  have enough : t.toList.length < 8 := by
    rw [list]
    decide
  obtain ⟨-, tree₁, t₁, -, first, holds₁, list₁, -⟩ := holds.unregister 0x100000000 enough
  obtain ⟨-, tree₂, t₂, -, second, holds₂, list₂, -⟩ := holds₁.unregister 0x100001000
    (lt_of_le_of_lt (list₁ ▸ length_filter_le _ _) enough)
  have none : t₂.toList = [] := by
    rw [list₂, list₁, list]
    decide
  have short : t₂.toList.length < 8 := by
    rw [none]
    decide
  obtain ⟨slab, enough₂⟩ := slab_of_holds holds₂ (show 3 ≠ 0 ∧ 3 ≠ 1 by decide) (by simp [ptrs, none]) short
  have unmapped : syscallMunmap 1 8 ⟨dir, vmPage, 0x600000, 0x600000⟩ 0x100000000 0x2000 =
      some ⟨pagingMultipleUnmap dir 0x100000000 2, { vmPage with tree := tree₂ }, 0x600000, 0x600000⟩ := by
    have pages : pagesOf 0x2000 = 2 := by decide
    have addresses : u64 (0x100000000 + 0 * 0x1000) = 0x100000000 ∧ u64 (0x100000000 + 1 * 0x1000) = 0x100001000 := by decide
    rw [syscallMunmap, if_neg (by decide), pages, unregisterPages, unregisterPages, unregisterPages]
    simp only [bind_eq_bind, bind_some, addresses, first, second]
  obtain ⟨tree₃, t₃, third, -⟩ := holds₂.register (n := 3) 0x20000 0x600000 0x1000 heapAreaFlags
    (slab.2.2 t₂ holds₂.rep) (by decide) short
  have grown : syscallBrk 1 8 ⟨pagingMultipleUnmap dir 0x100000000 2, { vmPage with tree := tree₂ }, 0x600000, 0x600000⟩
      0x601000 0x20000 3 = some (0x601000, ⟨pagingMultipleMmap (pagingMultipleUnmap dir 0x100000000 2) 0x600000 0x20000 1
        heapFlags, { vmPage with tree := tree₃ }, 0x600000, 0x601000⟩) := by
    have ends : alignUp 0x600000 pageSize4KB = 0x600000 ∧ alignUp 0x601000 pageSize4KB = 0x601000 := by decide
    rw [syscallBrk, if_neg (show ¬ (0x601000 = 0 ∨ 0x601000 < 0x600000) by decide)]
    simp only [ends, registerArea]
    rw [if_pos (by decide), if_neg (by decide), show 0x601000 - 0x600000 = 0x1000 by decide, third]
    rfl
  have run₁ := run_emptySpace (Safe 1) safe_emptySpace mapped
  have whole : Safe 1 ⟨dir, vmPage, 0x600000, 0x600000⟩ (.munmap 0x100000000 0x2000) := by
    refine ⟨by decide, by decide, fun vma registered => ?_⟩
    obtain ⟨x, member, rfl⟩ := (Registered.iff holds.rep).mp registered
    rw [list, mem_singleton] at member
    rw [member]
    exact .inl ⟨le_rfl, by decide⟩
  have run₂ := run₁.munmap whole (fun t' rep => by rw [rep.unique holds.rep]; exact enough) unmapped
  have block : FrameBlock 0x20000 ((alignUp 0x601000 pageSize4KB - alignUp 0x600000 pageSize4KB) / pageSize4KB) :=
    .inr (by decide)
  have run₃ := run₂.brk (fun _ _ => ⟨by decide, fun vma listed => absurd listed (not_registered_of_nil holds₂ none)⟩)
    block slab enough₂ grown
  obtain ⟨vma, registered, contains, backed, -⟩ := (memoryRun_agrees run₃ 0x600800 (by decide)).1
    (.inr (show 0x600000 < 0x601000 ∧ alignUp 0x600000 pageSize4KB ≤ 0x600800 ∧ 0x600800 < alignUp 0x601000 pageSize4KB by
      decide))
  refine ⟨_, vma, registered, contains, backed, (memoryRun_agrees run₃ 0x100001000 (by decide)).2 ?_⟩
  rintro (⟨-, zero | away⟩ | heap)
  · exact absurd zero (by decide)
  · exact away (by decide)
  · exact absurd heap.2.2 (by decide)

/-- **Without the condition the records go wrong**: after `munmap` of the second of two pages the area
still contains it. -/
theorem memoryRun_not_agrees : ∃ nil s live v vma, MemoryRun nil (fun _ _ => True) s live ∧
    v < userLimit ∧ ¬ live v ∧ Registered nil s.vmPage.tree vma ∧ vma.Contains v := by
  obtain ⟨s, t, mapped, holds, list, -⟩ := mmap_emptySpace
  have enough : t.toList.length < 8 := by
    rw [list]
    decide
  have pages : pagesOf 0x1000 = 1 := by decide
  have address : u64 (0x100001000 + 0 * 0x1000) = 0x100001000 := by decide
  obtain ⟨n, st', t', -, result, -, -, -, same⟩ := holds.unregister 0x100001000 enough
  obtain rfl := same (by rw [starts_eq, list]; decide)
  have unmapped : syscallMunmap 1 8 s 0x100001000 0x1000 =
      some { s with page := pagingMultipleUnmap s.page 0x100001000 1 } := by
    rw [syscallMunmap, if_neg (by decide), pages, unregisterPages, unregisterPages]
    simp only [bind_eq_bind, bind_some, address, result]
  have run := (run_emptySpace (fun _ _ => True) trivial mapped).munmap trivial
    (fun t' rep => by rw [rep.unique holds.rep]; exact enough) unmapped
  refine ⟨1, _, _, 0x100001000, newArea 0x10000 0x100000000 0x2000 (mmapProtToFlags 3), run, by decide,
    ?_, ⟨t, holds.rep, _, by rw [list]; exact mem_cons_self, rfl⟩, by decide, by decide⟩
  rintro ⟨-, zero | away⟩
  · exact absurd zero (by decide)
  · exact away (by decide)

end Voxia.Sys
