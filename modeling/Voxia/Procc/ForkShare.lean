/-
**What a fork shares.**

`vma_clone_cow` takes the write permission from the pages it shares before it maps them in the child (`Shared`), page
by page, area by area, in whatever tree it walks. A fork without a `clear_child_tid` pointer maps nothing else that
both can reach.
-/

import Voxia.Procc.Isolation

namespace Voxia.Procc

open Function Lib Cpu Memory Voxia.Tree Option

/-- The directories while a parent, which began with `first`, is cloned: the parent has lost rights
only, and what the child maps both may not write. -/
structure Shared (first parent child : PageDir) : Prop where
  wfParent : Wf 3 parent
  wfChild : Wf 3 child
  narrowed : ∀ page m, view parent page = some m → ∃ old, view first page = some old ∧
    m.frame = old.frame ∧ (m.writable → old.writable)
  shared : ∀ page m, view child page = some m → m.writable = false ∧
    ∃ old, view parent page = some old ∧ old.frame = m.frame ∧ old.writable = false

variable {dir first parent child : PageDir} {v : Nat}

theorem shared_pagingSetup (kernel : PageDir) (wf : Wf 3 dir) : Shared dir dir (pagingSetup kernel) := by
  have entryZero : ∀ i < 256, (pagingSetup kernel).entry i = 0 := by
    intro i low
    exact if_neg (by omega)
  refine ⟨wf, ?_, fun page m mapped => ⟨m, mapped, rfl, id⟩, fun page m mapped => ?_⟩
  · intro i low isPresent
    rw [entryZero i low] at isPresent
    exact absurd isPresent (by decide)
  · obtain ⟨v, isUser, rfl⟩ := exists_of_view mapped
    have zero : pte 3 (pagingSetup kernel) v = 0 := by
      rw [pte, entryZero _ isUser]
      rfl
    rw [view_eq_some isUser, zero] at mapped
    exact absurd mapped.1 (by decide)

/-! ### One page -/

theorem view_makeCow (wf : Wf 3 dir) (isUser : UserAddr v) (page : Nat)
    (m : Mapping Nat) : (view (pagingMakeCow dir v) page = some m → ∃ old, view dir page = some old ∧
        m.frame = old.frame ∧ (m.writable → old.writable)) ∧
      (view dir page = some m → m.writable = false → view (pagingMakeCow dir v) page = some m) := by
  obtain ⟨-, each, -⟩ := pagingMakeCow_spec wf isUser
  constructor
  · intro mapped
    obtain ⟨w, isUserW, rfl⟩ := exists_of_view mapped
    obtain same | marked := each w
    · refine ⟨m, ?_, rfl, id⟩
      rw [view_pageOf isUserW] at mapped ⊢
      rw [← same]
      exact mapped
    · rw [view_eq_some isUserW] at mapped
      refine ⟨⟨physOf (pte 3 dir w), writable (pte 3 dir w)⟩, ?_, ?_, fun _ => marked.wasWritable⟩
      · rw [view_pageOf isUserW, if_pos marked.wasPresent]
      · rw [mapped.2.1, marked.samePhys]
  · intro mapped notWritable
    obtain ⟨w, isUserW, rfl⟩ := exists_of_view mapped
    obtain same | marked := each w
    · rw [view_pageOf isUserW] at mapped ⊢
      rw [same]
      exact mapped
    · rw [view_eq_some isUserW, marked.wasWritable] at mapped
      exact absurd (mapped.2.2.symm.trans notWritable) (by decide)

theorem makeCow_kernel (wf : Wf 3 dir) (kernel : ¬ UserAddr v) :
    Wf 3 (pagingMakeCow dir v) ∧ view (pagingMakeCow dir v) = view dir := by
  have index : 256 ≤ tableIndex 3 v := Nat.le_of_not_lt kernel
  unfold pagingMakeCow
  split
  rename_i entry level walk
  by_cases notWritable : (!writable entry)
  · rw [if_pos notWritable]
    exact ⟨wf, rfl⟩
  · rw [if_neg notWritable]
    exact ⟨wf_mmapInternal_kernel _ _ wf index, view_mmap_kernel dir _ _ kernel⟩

theorem writable_childFlags (entry : Nat) : writable (childFlags entry) = writable entry := by
  unfold childFlags
  cases isWritable : writable entry <;> cases cow entry <;> cases noExecute entry <;> decide

theorem clean_childFlags (entry : Nat) : Clean (childFlags entry) := by
  unfold childFlags
  cases writable entry <;> cases cow entry <;> cases noExecute entry <;> exact ⟨by decide, by decide⟩

theorem present_childFlags (entry : Nat) : present (childFlags entry) := by
  unfold childFlags
  cases writable entry <;> cases cow entry <;> cases noExecute entry <;> decide

theorem physOf_add_offset (entry v : Nat) : physOf (physOf entry + v % 4096) = physOf entry := by
  rw [physOf_eq, physOf_eq entry]
  omega

/-- A page cloned is shared, and neither may write it. -/
theorem Shared.cloneCowPage (shared : Shared first parent child)
    (virt : Nat) : Shared first (cloneCowPage parent child virt).1 (cloneCowPage parent child virt).2 := by
  unfold Procc.cloneCowPage
  split_ifs with isPresent
  · by_cases isUser : UserAddr virt
    · obtain ⟨wfMarked, each, notWritable⟩ := pagingMakeCow_spec shared.wfParent isUser
      have marking := view_makeCow shared.wfParent isUser
      have stays : present (pte 3 (pagingMakeCow parent virt) virt) := by
        have was : present (pte 3 parent virt) :=
          (flag_getEntry shared.wfParent isUser (.inl (by decide))).symm.trans isPresent
        obtain same | marked := each virt
        · rw [same, was]
        · exact marked.isPresent
      have level := mappedLevel_clean
        (clean_childFlags (pagingGetEntry (pagingMakeCow parent virt) virt))
      have flag : writable (pagingGetEntry (pagingMakeCow parent virt) virt) = false :=
        (flag_getEntry wfMarked isUser (.inl (by decide))).trans notWritable
      refine ⟨wfMarked, ?_, ?_, ?_⟩
      · exact wf_mmapInternal_clean virt _ (clean_childFlags _) shared.wfChild
      · intro page m mapped
        obtain ⟨middle, was, frame, right⟩ := (marking page m).1 mapped
        obtain ⟨old, wasFirst, frame', right'⟩ := shared.narrowed page middle was
        exact ⟨old, wasFirst, frame.trans frame', fun mayWrite => right' (right mayWrite)⟩
      · intro page m mapped
        rw [view_mmap _ _ _ isUser level, present_childFlags, if_pos rfl, writable_childFlags, flag,
          vaddrToPaddr_spec wfMarked isUser, if_pos stays, physOf_add_offset] at mapped
        by_cases here : page = pageOf virt
        · subst here
          rw [update_self, some.injEq] at mapped
          subst mapped
          refine ⟨rfl, ⟨_, writable (pte 3 (pagingMakeCow parent virt) virt)⟩, ?_, rfl, notWritable⟩
          rw [view_pageOf isUser, if_pos stays]
        · rw [update_of_ne here] at mapped
          obtain ⟨readOnly, old, was, frame, oldReadOnly⟩ := shared.shared page m mapped
          exact ⟨readOnly, old, (marking page old).2 was oldReadOnly, frame, oldReadOnly⟩
    · obtain ⟨wfMarked, sameView⟩ := makeCow_kernel shared.wfParent isUser
      refine ⟨wfMarked, wf_mmapInternal_kernel _ _ shared.wfChild (Nat.le_of_not_lt isUser), ?_, ?_⟩
      · rw [sameView]
        exact shared.narrowed
      · rw [sameView, view_mmap_kernel _ _ _ isUser]
        exact shared.shared
  · exact shared

/-! ### Areas and trees -/

theorem Shared.cloneCowPages (shared : Shared first parent child)
    (start count : Nat) : Shared first (cloneCowPages parent child start count).1
      (cloneCowPages parent child start count).2 := by
  induction count with
  | zero => exact shared
  | succ count ih => exact ih.cloneCowPage _

theorem areaPages_le (vma : VirtualMemory) (nonempty : vma.startAddress < vma.endAddress) :
    vma.startAddress + areaPages vma * 4096 ≤ 2 ^ 64 + 4095 := by
  have word := vma.endWord
  have rounded : u64 (vma.endAddress - vma.startAddress + 4095) ≤
      vma.endAddress - vma.startAddress + 4095 := Nat.mod_le _ _
  unfold areaPages blockSize
  simp only
  split_ifs <;> omega

theorem Shared.kernelArea (shared : Shared first parent child) {vma : VirtualMemory}
    (nonempty : vma.startAddress < vma.endAddress)
    (kernel : vmaRegionA ≤ vma.startAddress) (few : areaPages vma < 1000000) :
    Shared first parent
      (pagingMultipleMmap child vma.startAddress vma.physAddress (areaPages vma) vma.flags) := by
  have word := vma.endWord
  have fits := areaPages_le vma nonempty
  have bytes : u64 (areaPages vma * pageSize4KB) = areaPages vma * 4096 :=
    u64_of_lt (by unfold pageSize4KB; omega)
  have base : vmaRegionA = 2 ^ 64 - 2 ^ 39 := by decide
  rw [pagingMultipleMmap, bytes]
  obtain ⟨wf, same⟩ := mmapRangeLoop_kernel (areaPages vma) vma.physAddress vma.flags
    shared.wfChild (base ▸ kernel) (by omega) fits (Nat.mul_mod_left _ _)
  refine ⟨shared.wfParent, wf, shared.narrowed, fun page m mapped => ?_⟩
  obtain ⟨v, isUser, rfl⟩ := exists_of_view mapped
  rw [view_pageOf isUser, same v isUser, ← view_pageOf isUser] at mapped
  exact shared.shared _ m mapped

section Walk

variable {nil : Nat}

variable {first : PageDir} {fuel pid : Nat} {c c' : Clone} {s s' : System} {inputs : ForkInputs}

theorem Shared.cloneCowArea {vma : VirtualMemory} (shared : Shared first c.parent c.child)
    (result : cloneCowArea nil fuel c vma = some c') : Shared first c'.parent c'.child := by
  unfold Procc.cloneCowArea at result
  split_ifs at result with cloned low
  · cases slab : c.slab with
    | nil =>
      rw [slab] at result
      exact absurd result (by simp)
    | cons n rest =>
      simp only [slab, bind_eq_some, some.injEq] at result
      obtain ⟨tree, -, rfl⟩ := result
      exact shared.cloneCowPages _ _
  · cases slab : c.slab with
    | nil =>
      rw [slab] at result
      exact absurd result (by simp)
    | cons n rest =>
      simp only [slab, bind_eq_some, some.injEq] at result
      obtain ⟨tree, -, rfl⟩ := result
      exact shared.kernelArea cloned.1 (Nat.le_of_not_lt low) cloned.2
  · rw [some.injEq] at result
    exact result ▸ shared

/-- **The whole tree**, of whatever shape. -/
theorem Shared.vmaCloneCowRecursive {tree : VmaTree} {node : Nat} (shared : Shared first c.parent c.child)
    (result : vmaCloneCowRecursive nil tree fuel node c = some c') : Shared first c'.parent c'.child := by
  induction fuel generalizing node c c' with
  | zero => exact absurd result (by simp [Procc.vmaCloneCowRecursive])
  | succ fuel ih =>
    rw [Procc.vmaCloneCowRecursive] at result
    split_ifs at result with atEnd
    · rw [some.injEq] at result
      exact result ▸ shared
    · simp only [bind_eq_some] at result
      obtain ⟨left, leftResult, middle, middleResult, rightResult⟩ := result
      have afterLeft := ih shared leftResult
      refine ih ?_ rightResult
      cases data : (tree.heap node).data with
      | none =>
        rw [data, cloneCowNode, some.injEq] at middleResult
        exact middleResult ▸ afterLeft
      | some vma =>
        rw [data] at middleResult
        exact afterLeft.cloneCowArea middleResult

/-! ### The copy of the TLS block -/

section Keeps

variable {P : System → Prop} (store : ∀ {s s' v byte}, P s → storeByte false s pid v byte = some s' → P s')
  (fault : ∀ {s s' v newPhys}, P s → writeFault s pid v newPhys = some s' → P s') {dest count : Nat} {frames : Nat → Nat}

include store fault

theorem kernelStore_keeps {v newPhys : Nat} {byte : UInt8} (holds : P s)
    (result : kernelStore s pid v byte newPhys = some s') : P s' := by
  unfold kernelStore at result
  split at result
  · next after stored =>
    rw [some.injEq] at result
    exact result ▸ store holds stored
  · simp only [bind_eq_some] at result
    obtain ⟨after, resolved, stored⟩ := result
    exact store (fault holds resolved) stored

theorem memcopy_keeps {src : Nat} (holds : P s) (result : memcopy s pid dest src frames count = some s') : P s' := by
  induction count generalizing s' with
  | zero =>
    rw [memcopy, some.injEq] at result
    exact result ▸ holds
  | succ count ih =>
    simp only [memcopy, bind_eq_some] at result
    obtain ⟨before, copied, byte, -, stored⟩ := result
    exact kernelStore_keeps store fault (ih copied) stored

theorem storeWord_keeps {word : Nat} (holds : P s) (result : storeWord s pid dest word frames count = some s') :
    P s' := by
  induction count generalizing s' with
  | zero =>
    rw [storeWord, some.injEq] at result
    exact result ▸ holds
  | succ count ih =>
    simp only [storeWord, bind_eq_some] at result
    obtain ⟨before, written, stored⟩ := result
    exact kernelStore_keeps store fault (ih written) stored

end Keeps

theorem pagingMultipleMmap_one (dir : PageDir) (virt phys flags : Nat) :
    pagingMultipleMmap dir virt phys 1 flags = pagingMmap dir virt phys flags := by
  have bytes : u64 (1 * pageSize4KB) = 4096 := by decide
  have noGiga : ¬ (pageSize1GB ≤ 4096 ∧ virt % pageSize1GB = 0 ∧ (phys = 0 ∨ phys % pageSize1GB = 0)) :=
    fun all => absurd all.1 (by decide)
  have noMega : ¬ (pageSize2MB ≤ 4096 ∧ virt % pageSize2MB = 0 ∧ (phys = 0 ∨ phys % pageSize2MB = 0)) :=
    fun all => absurd all.1 (by decide)
  rw [pagingMultipleMmap, bytes, mmapRangeLoop, if_neg (by decide), if_neg noGiga, if_neg noMega,
    mmapRangeLoop, pagingMmap]

/-- Without a `clear_child_tid` pointer the new block is one page of the parent alone. -/
theorem Sound.forkTls {start size : Nat} {p : Process} (sound : Sound s) (running : s.procs pid = some p)
    (noTid : p.clearChildTid = 0) (result : forkTls nil fuel s pid inputs = some (s', start, size)) : Sound s' := by
  have block : tlsBlock nil fuel p = some (p.fsBase, 0, 1) := if_neg (by simp [noTid])
  simp only [Procc.forkTls, bind_eq_some] at result
  obtain ⟨p', running', ⟨_, _, _⟩, block', s₁, allocated, ⟨temporary, vmPage⟩, -, s₂, copied, s₃, tid,
    final⟩ := result
  obtain rfl : p = p' := some.inj (running.symm.trans running')
  rw [block, some.injEq] at block'
  obtain ⟨rfl, rfl, rfl⟩ := block'
  obtain ⟨rfl, aligned, low, unused⟩ := physBaseAlloc_one allocated
  rw [storeTid, if_neg (by simp [noTid]), some.injEq] at tid
  obtain rfl : s₃ = s' := by simpa using congrArg (fun r => r.map Prod.fst) final
  subst tid
  simp only [pagingMultipleMmap_one] at copied
  refine memcopy_keeps Sound.storeByte (fun sound resolved => (sound.writeFault resolved).sound) ?_ copied
  exact sound.fresh running aligned low unused (fun _ => by decide) rfl

/-- A fork without a `clear_child_tid` pointer keeps the processes isolated. -/
theorem Sound.forkProcess (sound : Sound s) (different : inputs.childPid ≠ pid)
    (noTid : ∀ p, s.procs pid = some p → p.clearChildTid = 0)
    (result : forkProcess nil fuel s pid inputs = some s') : Sound s' := by
  simp only [Procc.forkProcess, bind_eq_some] at result
  obtain ⟨before, running, ⟨s₁, start, size⟩, tls, parent, running₁, c, cloned, final⟩ := result
  have sameChild : forkChildTls before inputs c.child start size = c.child :=
    if_neg (by simp [noTid before running])
  rw [some.injEq, sameChild] at final
  subst final
  have sound₁ := sound.forkTls running (noTid before running) tls
  have space := spaces_of_procs running₁
  have shared : Shared parent.page c.parent c.child :=
    Shared.vmaCloneCowRecursive (shared_pagingSetup inputs.kernelDir (sound₁.wf running₁)) cloned
  have sound₂ : Sound (s₁.setProc pid { parent with page := c.parent }) := by
    refine sound₁.replace shared.wfParent ?_ ?_
    · refine sound₁.isolated.narrow pid fun page m mapped => ?_
      rw [space]
      exact shared.narrowed page m mapped
    · intro page m mapped
      obtain ⟨old, was, frame, -⟩ := shared.narrowed page m mapped
      rw [← space] at was
      exact frame ▸ sound₁.known was
  have space₂ : (s₁.setProc pid { parent with page := c.parent }).spaces pid = view c.parent := by
    rw [spaces_setProc, update_self]
  refine sound₂.replace shared.wfChild ?_ ?_
  · refine sound₂.isolated.share different fun page m mapped => ?_
    rw [space₂]
    exact shared.shared page m mapped
  · intro page m mapped
    obtain ⟨-, old, was, frame, -⟩ := shared.shared page m mapped
    rw [← space₂] at was
    exact frame ▸ sound₂.known was

end Walk

end Voxia.Procc
