/-
**The heap of a process under `brk`.**

A run goes by `brk` calls with any arguments, from a process whose heap is empty. Shrinking the heap leaves its areas,
so a later growth may find its first page to be the start of one: the new frames are then mapped and the record of the
old ones stays. And in the last page of the address space `ALIGN_UP` wraps, so that the end of the heap is moved there
without a page being mapped; the next call shrinks the heap from there. `syscallBrk_covers` is about the runs without
these.
-/

import Voxia.Memory.VmaRun
import Voxia.Sys.MemoryCallsRun

namespace Voxia.Sys

open Cpu Memory Voxia.Tree List

variable {nil : Nat}

/-! ### Runs -/

/-- Every address of the pages of the heap is mapped, and an area records its frame. -/
def HeapCovered (nil : Nat) (s : UserSpace) : Prop :=
  ∀ v, s.heapStart ≤ v → v < alignUp s.heapEnd pageSize4KB →
    present (pte 3 s.page v) ∧ ∃ vma, Registered nil s.vmPage.tree vma ∧ vma.Contains v ∧
      physOf (pte 3 s.page v) + v % 4096 = vma.physAddress + (v - vma.startAddress)

def NeedsPages (s : UserSpace) (addr : Nat) : Prop :=
  s.heapEnd < addr ∧ alignUp s.heapEnd pageSize4KB < alignUp addr pageSize4KB

/-- What the code does not check: unless the call is for new pages and there are none, the new end is in the
user half, and no area starts with the new pages. -/
def GrowsFresh (nil : Nat) (s : UserSpace) (addr phys : Nat) : Prop :=
  addr ≠ 0 → s.heapStart ≤ addr → (NeedsPages s addr ∧ phys = 0) ∨ (addr ≤ userLimit ∧
    (NeedsPages s addr → ∀ vma, Registered nil s.vmPage.tree vma →
      vma.startAddress ≠ alignUp s.heapEnd pageSize4KB))

inductive BrkRun (nil : Nat) (condition : UserSpace → Nat → Nat → Prop) : UserSpace → Prop
  | start {s : UserSpace} {t : CellTree VirtualMemory} (wf : Wf 3 s.page) (holds : VmaHolds nil s.vmPage.tree t)
      (aligned : s.heapStart % 4096 = 0) (word : s.heapStart < 2 ^ 64) (empty : s.heapEnd = s.heapStart) :
      BrkRun nil condition s
  | call {s s' : UserSpace} {fuel addr phys node result : Nat} (before : BrkRun nil condition s)
      (holds : condition s addr phys)
      (block : FrameBlock phys ((alignUp addr pageSize4KB - alignUp s.heapEnd pageSize4KB) / pageSize4KB))
      (slab : SlabNode nil s.vmPage.tree node) (enough : Enough nil s.vmPage.tree fuel)
      (returned : syscallBrk nil fuel s addr phys node = some (result, s')) : BrkRun nil condition s'

/-! ### One call -/

structure HeapHolds (nil : Nat) (s : UserSpace) : Prop where
  wf : Wf 3 s.page
  tree : ∃ t, VmaHolds nil s.vmPage.tree t
  low : s.heapEnd ≤ userLimit ∨ s.heapEnd = s.heapStart
  covered : HeapCovered nil s

/-- A call does what it is asked for, or nothing. -/
def Answered (s : UserSpace) (addr result : Nat) (s' : UserSpace) : Prop :=
  (result = addr ∧ s'.heapEnd = addr) ∨ (result = s.heapEnd ∧ s' = s)

variable {x fuel addr phys node : Nat} {s : UserSpace}

theorem alignUp_of_aligned (aligned : x % 4096 = 0) (word : x < 2 ^ 64) : alignUp x pageSize4KB = x := by
  have up : alignUp x pageSize4KB = (x + 4095) / 4096 * 4096 := alignUp_blockSize (by omega)
  omega

theorem alignUp_le {y : Nat} (le : x ≤ y) (low : y ≤ userLimit) :
    alignUp x pageSize4KB ≤ alignUp y pageSize4KB ∧ alignUp y pageSize4KB ≤ userLimit := by
  have limit : userLimit = 2 ^ 47 := rfl
  have upX : alignUp x pageSize4KB = (x + 4095) / 4096 * 4096 := alignUp_blockSize (by omega)
  have upY : alignUp y pageSize4KB = (y + 4095) / 4096 * 4096 := alignUp_blockSize (by omega)
  omega

theorem syscallBrk_grows {vmPage : VirtualMemoryPage} (asked : ¬ (addr = 0 ∨ addr < s.heapStart))
    (grows : NeedsPages s addr) (nonzero : phys ≠ 0)
    (registered : registerArea nil fuel s.vmPage node phys (alignUp s.heapEnd pageSize4KB)
      (alignUp addr pageSize4KB - alignUp s.heapEnd pageSize4KB) heapAreaFlags = some vmPage) :
    syscallBrk nil fuel s addr phys node = some (addr, { s with
      page := pagingMultipleMmap s.page (alignUp s.heapEnd pageSize4KB) phys
        ((alignUp addr pageSize4KB - alignUp s.heapEnd pageSize4KB) / pageSize4KB) heapFlags
      vmPage := vmPage, heapEnd := addr }) := by
  unfold syscallBrk
  rw [if_neg asked]
  rw [if_pos (by exact grows), if_neg nonzero, registered]
  rfl

theorem syscallBrk_fails (asked : ¬ (addr = 0 ∨ addr < s.heapStart))
    (grows : NeedsPages s addr) : syscallBrk nil fuel s addr 0 node = some (s.heapEnd, s) := by
  unfold syscallBrk
  rw [if_neg asked]
  rw [if_pos (by exact grows), if_pos rfl]

theorem syscallBrk_moves (asked : ¬ (addr = 0 ∨ addr < s.heapStart)) (within : ¬ NeedsPages s addr) :
    syscallBrk nil fuel s addr phys node = some (addr, { s with heapEnd := addr }) := by
  unfold syscallBrk
  rw [if_neg asked]
  rw [if_neg (by exact within)]

/-- **New pages at the end of the heap**, where no area starts with them. -/
theorem HeapHolds.grow (heap : HeapHolds nil s) (low : addr ≤ userLimit)
    (larger : alignUp s.heapEnd pageSize4KB < alignUp addr pageSize4KB)
    (free : ∀ vma, Registered nil s.vmPage.tree vma → vma.startAddress ≠ alignUp s.heapEnd pageSize4KB)
    (nonzero : phys ≠ 0)
    (block : FrameBlock phys ((alignUp addr pageSize4KB - alignUp s.heapEnd pageSize4KB) / pageSize4KB))
    (slab : SlabNode nil s.vmPage.tree node) (enough : Enough nil s.vmPage.tree fuel) :
    ∃ vmPage, registerArea nil fuel s.vmPage node phys (alignUp s.heapEnd pageSize4KB)
        (alignUp addr pageSize4KB - alignUp s.heapEnd pageSize4KB) heapAreaFlags = some vmPage ∧
      HeapHolds nil { s with
        page := pagingMultipleMmap s.page (alignUp s.heapEnd pageSize4KB) phys
          ((alignUp addr pageSize4KB - alignUp s.heapEnd pageSize4KB) / pageSize4KB) heapFlags
        vmPage := vmPage, heapEnd := addr } := by
  have limit : userLimit = 2 ^ 47 := rfl
  have pageSize : pageSize4KB = 4096 := rfl
  have oldAligned := alignUp_page s.heapEnd
  have newAligned := alignUp_page addr
  have newLow := (alignUp_le (le_refl addr) low).2
  obtain ⟨t, holds⟩ := heap.tree
  have covered := heap.covered
  unfold HeapCovered at covered
  obtain ⟨-, physAligned, physLow⟩ := block.resolve_left nonzero
  obtain ⟨tree, t', registered, holds', areas, -⟩ := holds.withArea phys (alignUp s.heapEnd pageSize4KB)
    (alignUp addr pageSize4KB - alignUp s.heapEnd pageSize4KB) heapAreaFlags (slab.2.2 t holds.rep) slab.2.1
    (enough t holds.rep)
  have absent : alignUp s.heapEnd pageSize4KB ∉ (t.toList.map Cell.data).map VirtualMemory.startAddress := by
    intro taken
    obtain ⟨vma, inside, same⟩ := mem_map.mp taken
    obtain ⟨x, member, rfl⟩ := mem_map.mp inside
    exact free x.data ⟨t, holds.rep, x, member, rfl⟩ same
  rw [withArea, if_neg (by exact absent)] at areas
  have area : ∀ vma, Registered nil tree vma ↔ vma = newArea phys (alignUp s.heapEnd pageSize4KB)
      (alignUp addr pageSize4KB - alignUp s.heapEnd pageSize4KB) heapAreaFlags ∨
      Registered nil s.vmPage.tree vma := by
    intro vma
    rw [Registered.iff holds'.rep, Registered.iff holds.rep, ← mem_map, ← mem_map, areas.mem_iff,
      mem_cons]
  refine ⟨{ s.vmPage with tree := tree }, by rw [registerArea, registered]; rfl, ?_⟩
  generalize alignUp s.heapEnd pageSize4KB = oldPage at *
  generalize upEq : alignUp addr pageSize4KB = newPage at *
  have pages : (newPage - oldPage) / pageSize4KB * 4096 = newPage - oldPage := by
    rw [pageSize]
    omega
  obtain ⟨wf, entries⟩ := pagingMultipleMmap_spec heap.wf (show Clean heapFlags from ⟨by decide, by decide⟩)
    oldAligned (by rw [pages]; omega) (.inr ⟨nonzero, physAligned, physLow⟩)
  refine ⟨wf, ⟨t', holds'⟩, .inl low, fun v first last => ?_⟩
  rw [show alignUp addr pageSize4KB = newPage from upEq] at last
  by_cases new : oldPage ≤ v
  · rw [entries v (by omega), if_pos ⟨new, by omega⟩]
    obtain ⟨there, frame⟩ :=
      rangeEntry_frame oldAligned physAligned (show present heapFlags = true by decide) new (by omega)
    refine ⟨there, _, (area _).mpr (.inl rfl), ⟨new, ?_⟩, frame⟩
    show v < u64 (oldPage + (newPage - oldPage))
    rw [u64_of_lt (by omega)]
    omega
  · obtain ⟨there, vma, isRegistered, contains, frame⟩ := covered v first (by omega)
    rw [entries v (by omega), if_neg fun both => new both.1]
    exact ⟨there, vma, (area vma).mpr (.inr isRegistered), contains, frame⟩

/-- **One call.** It returns, keeps the heap covered, and does what it is asked for or nothing. -/
theorem HeapHolds.brk (heap : HeapHolds nil s) (fresh : GrowsFresh nil s addr phys)
    (block : FrameBlock phys ((alignUp addr pageSize4KB - alignUp s.heapEnd pageSize4KB) / pageSize4KB))
    (slab : SlabNode nil s.vmPage.tree node) (enough : Enough nil s.vmPage.tree fuel) :
    ∃ result s', syscallBrk nil fuel s addr phys node = some (result, s') ∧ HeapHolds nil s' ∧
      Answered s addr result s' := by
  by_cases refused : addr = 0 ∨ addr < s.heapStart
  · exact ⟨s.heapEnd, s, if_pos refused, heap, .inr ⟨rfl, rfl⟩⟩
  by_cases failed : NeedsPages s addr ∧ phys = 0
  · obtain ⟨grows, rfl⟩ := failed
    exact ⟨s.heapEnd, s, syscallBrk_fails refused grows, heap, .inr ⟨rfl, rfl⟩⟩
  obtain ⟨low, free⟩ := (fresh (by omega) (by omega)).resolve_left failed
  by_cases grows : NeedsPages s addr
  · have frames : phys ≠ 0 := fun none => failed ⟨grows, none⟩
    obtain ⟨vmPage, registered, after⟩ := heap.grow low grows.2 (free grows) frames block slab enough
    exact ⟨addr, _, syscallBrk_grows refused grows frames registered, after, .inl ⟨rfl, rfl⟩⟩
  · refine ⟨addr, _, syscallBrk_moves refused grows, ⟨heap.wf, heap.tree, .inl low, fun v first last => ?_⟩,
      .inl ⟨rfl, rfl⟩⟩
    -- the heap has no more pages than before
    have smaller : alignUp addr pageSize4KB ≤ alignUp s.heapEnd pageSize4KB := by
      by_cases above : s.heapEnd < addr
      · exact Nat.le_of_not_lt fun larger => grows ⟨above, larger⟩
      · obtain below | same := heap.low
        · exact (alignUp_le (Nat.le_of_not_lt above) below).1
        · rw [show addr = s.heapEnd by omega]
    exact heap.covered v first (lt_of_lt_of_le last smaller)

/-! ### Every run -/

theorem BrkRun.holds (run : BrkRun nil (GrowsFresh nil) s) : HeapHolds nil s := by
  induction run with
  | @start s t wf holds aligned word empty =>
    refine ⟨wf, ⟨t, holds⟩, .inr empty, fun v first last => ?_⟩
    rw [empty, alignUp_of_aligned aligned word] at last
    omega
  | call _ fresh block slab enough returned ih =>
    obtain ⟨result', after, returned', heap, -⟩ := ih.brk fresh block slab enough
    obtain ⟨-, rfl⟩ := Prod.mk.inj (Option.some.inj (returned.symm.trans returned'))
    exact heap

/-- **`brk` covers the heap.** In every run whose calls meet the condition, every further call that meets it
returns; after it the heap is covered, and it did what it was asked for, or nothing. -/
theorem syscallBrk_covers {s : UserSpace} {fuel addr phys node : Nat} (run : BrkRun nil (GrowsFresh nil) s)
    (fresh : GrowsFresh nil s addr phys)
    (block : FrameBlock phys ((alignUp addr pageSize4KB - alignUp s.heapEnd pageSize4KB) / pageSize4KB))
    (slab : SlabNode nil s.vmPage.tree node) (enough : Enough nil s.vmPage.tree fuel) :
    ∃ result s', syscallBrk nil fuel s addr phys node = some (result, s') ∧ HeapCovered nil s' ∧
      Answered s addr result s' := by
  obtain ⟨result, s', returned, heap, answered⟩ := run.holds.brk fresh block slab enough
  exact ⟨result, s', returned, heap.covered, answered⟩

theorem run_emptySpace_brk (condition : UserSpace → Nat → Nat → Prop) : BrkRun 1 condition emptySpace :=
  .start (wf_empty 3) holds_emptySpace (by decide) (by decide) rfl

/-- The area of the first growth. -/
theorem registerArea_first (size : Nat) : ∃ tree t,
    registerArea 1 8 emptySpace.vmPage 2 0x10000 0x600000 size heapAreaFlags =
      some { emptySpace.vmPage with tree := tree } ∧
    VmaHolds 1 tree t ∧ t.toList = [⟨2, newArea 0x10000 0x600000 size heapAreaFlags⟩] := by
  have enough : (Lib.Tree.leaf : CellTree VirtualMemory).toList.length < 8 := by decide
  obtain ⟨tree, t, returned, holds, new, -⟩ :=
    holds_emptySpace.register (n := 2) 0x10000 0x600000 size heapAreaFlags
      (by simp [ptrs, Lib.Tree.toList]) (by decide) enough
  exact ⟨tree, t, by rw [registerArea, returned]; rfl, holds, perm_singleton.mp new⟩

theorem slab_first {tree : VmaTree} {t : CellTree VirtualMemory} {vma : VirtualMemory} (holds : VmaHolds 1 tree t)
    (list : t.toList = [⟨2, vma⟩]) : SlabNode 1 tree 3 ∧ Enough 1 tree 8 :=
  slab_of_holds holds (by decide) (by simp [ptrs, list]) (by simp [list])

/-- The heap grows by two pages, shrinks by one and grows again behind the first. -/
theorem syscallBrk_covers_regrown : ∃ s, BrkRun 1 (GrowsFresh 1) s ∧ s.heapEnd = 0x601000 ∧
    ∃ result s', syscallBrk 1 8 s 0x603000 0x20000 3 = some (result, s') ∧ HeapCovered 1 s' ∧
      Answered s 0x603000 result s' := by
  obtain ⟨tree, t, registered, holds, list⟩ := registerArea_first 0x2000
  obtain ⟨slab, enough⟩ := slab_first holds list
  have grown := syscallBrk_grows (by decide) (show NeedsPages emptySpace 0x602000 from ⟨by decide, by decide⟩)
    (show 0x10000 ≠ 0 by decide) registered
  have run₁ := (run_emptySpace_brk (GrowsFresh 1)).call (fun _ _ => .inr ⟨by decide, fun _ vma listed =>
    absurd listed (not_registered_of_nil holds_emptySpace rfl)⟩) (.inr (by decide)) slab_emptySpace.1 slab_emptySpace.2 grown
  have smaller : ¬ 0x602000 < 0x601000 := by decide
  have shrunk := @syscallBrk_moves 1 8 0x601000 0 3 _ (show ¬ (0x601000 = 0 ∨ 0x601000 < 0x600000) by decide)
    fun grows : NeedsPages { emptySpace with
      page := pagingMultipleMmap emptySpace.page 0x600000 0x10000 2 heapFlags
      vmPage := { emptySpace.vmPage with tree := tree }, heapEnd := 0x602000 } 0x601000 => smaller grows.1
  have run₂ := run₁.call (fun _ _ => .inr ⟨by decide, fun grows => absurd grows.1 smaller⟩) (.inl rfl) slab enough shrunk
  have block : FrameBlock 0x20000 ((alignUp 0x603000 pageSize4KB - alignUp 0x601000 pageSize4KB) / pageSize4KB) :=
    .inr (by decide)
  refine ⟨_, run₂, rfl, syscallBrk_covers run₂ (fun _ _ => .inr ⟨by decide, fun _ vma isRegistered => ?_⟩) block slab enough⟩
  obtain ⟨x, member, rfl⟩ := (Registered.iff holds.rep).mp isRegistered
  rw [list, mem_singleton] at member
  rw [member]
  exact show 0x600000 ≠ alignUp 0x601000 pageSize4KB by decide

/-- **The record of a page stays behind**: the heap grows by a page, shrinks and grows by the page again. The
page gets a new frame, and the only area around it has the old one. -/
theorem syscallBrk_keeps_record : ∃ nil s, BrkRun nil (fun _ _ _ => True) s ∧ ¬ HeapCovered nil s := by
  obtain ⟨tree, t, registered, holds, list⟩ := registerArea_first 0x1000
  obtain ⟨slab, enough⟩ := slab_first holds list
  let first := pagingMultipleMmap (.empty 3) 0x600000 0x10000 1 heapFlags
  let second := pagingMultipleMmap first 0x600000 0x20000 1 heapFlags
  let vmPage : VirtualMemoryPage := { emptySpace.vmPage with tree := tree }
  have taken : registerArea 1 8 vmPage 3 0x20000 0x600000 0x1000 heapAreaFlags = some vmPage := by
    obtain ⟨tree', t', refused, -, -, same⟩ := holds.register (n := 3) 0x20000 0x600000 0x1000 heapAreaFlags
      (slab.2.2 t holds.rep) (by decide) (enough t holds.rep)
    rw [registerArea, show vmPage.tree = tree from rfl, refused, same (by rw [starts_eq, list]; decide)]
    rfl
  have grown : syscallBrk 1 8 emptySpace 0x601000 0x10000 2 =
      some (0x601000, ⟨first, vmPage, 0x600000, 0x601000⟩) :=
    syscallBrk_grows (by decide) (show NeedsPages emptySpace 0x601000 from ⟨by decide, by decide⟩) (by decide)
      registered
  have shrunk : syscallBrk 1 8 ⟨first, vmPage, 0x600000, 0x601000⟩ 0x600000 0 3 =
      some (0x600000, ⟨first, vmPage, 0x600000, 0x600000⟩) :=
    syscallBrk_moves (show ¬ (0x600000 = 0 ∨ 0x600000 < 0x600000) by decide)
      (show ¬ (0x601000 < 0x600000 ∧ _) by simp)
  have again : syscallBrk 1 8 ⟨first, vmPage, 0x600000, 0x600000⟩ 0x601000 0x20000 3 =
      some (0x601000, ⟨second, vmPage, 0x600000, 0x601000⟩) := by
    have ends : alignUp 0x600000 pageSize4KB = 0x600000 ∧ alignUp 0x601000 pageSize4KB = 0x601000 := by decide
    have regrown := @syscallBrk_grows 1 8 0x601000 0x20000 3 ⟨first, vmPage, 0x600000, 0x600000⟩ vmPage
    rw [NeedsPages, ends.1, ends.2] at regrown
    exact regrown (by simp) (by simp) (by decide) taken
  have run₁ := (run_emptySpace_brk fun _ _ _ => True).call trivial (.inr (by decide)) slab_emptySpace.1 slab_emptySpace.2 grown
  have run₂ := run₁.call trivial (.inl rfl) slab enough shrunk
  have block : FrameBlock 0x20000
      ((alignUp 0x601000 pageSize4KB - alignUp 0x600000 pageSize4KB) / pageSize4KB) := .inr (by decide)
  have run₃ := run₂.call trivial block slab enough again
  refine ⟨1, _, run₃, fun covered => ?_⟩
  obtain ⟨-, vma, isRegistered, -, frame⟩ := covered 0x600000 (show 0x600000 ≤ 0x600000 by decide)
    (show 0x600000 < alignUp 0x601000 pageSize4KB by decide)
  obtain ⟨x, member, rfl⟩ := (Registered.iff holds.rep).mp isRegistered
  rw [list, mem_singleton] at member
  rw [member] at frame
  have frame' : physOf (pte 3 second 0x600000) + 0x600000 % 4096 = 0x10000 + (0x600000 - 0x600000) := frame
  exact absurd frame' (by decide)

end Voxia.Sys
