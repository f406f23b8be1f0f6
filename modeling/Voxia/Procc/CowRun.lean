/-
**Runs of copy-on-write processes.**

A run starts with processes that map every frame at most once and goes on, in any interleaving, by user writes, the
page faults they take, `mprotect` calls and forks. The two conditions of `Safe` are what the code does not check.
`syscall_mprotect` looks for the copy-on-write mark only, but a fork shares read-only pages without one; and it gives
a page that is not present the frame of the area's record, which a fork may have shared, or a copy replaced.
`fork_process` leaves the block for a `clear_child_tid` pointer mapped in the parent.
-/

import Voxia.Procc.ForkShare

namespace Voxia.Procc

open Function Lib Cpu Memory Voxia.Tree Option

inductive Event
  | write (pid v : Nat) (byte : UInt8)
  | fault (pid v newPhys : Nat)
  | mprotect (pid addr len prot : Nat)
  | fork (pid : Nat) (inputs : ForkInputs)

section Runs

variable (nil : Nat)

def writeFaults (s : System) (pid v : Nat) : Bool :=
  match s.procs pid with
  | some p => present (pte 3 p.page v) && !mayWrite true p.page v
  | none => false

def step (fuel : Nat) (s : System) : Event → Option System
  | .write pid v byte => if v < userLimit then storeByte true s pid v byte else none
  | .fault pid v newPhys =>
    if v < userLimit ∧ writeFaults s pid v then writeFault s pid v newPhys else none
  | .mprotect pid addr len prot => syscallMprotect nil fuel s pid addr len prot
  | .fork pid inputs =>
    -- the child's pid is a new one
    if (s.procs inputs.childPid).isNone then forkProcess nil fuel s pid inputs else none

def Safe (fuel : Nat) (s : System) : Event → Prop
  | .write .. => True
  | .fault .. => True
  | .mprotect pid addr len prot => MprotectSafe nil fuel s pid addr len prot
  | .fork pid _ => ∀ p, s.procs pid = some p → p.clearChildTid = 0

/-- The processes before the first fork: their directories are as the paging code builds them, and a
frame is mapped at one page of one process at most. -/
structure Start (s : System) : Prop where
  wf : ∀ pid p, s.procs pid = some p → Wf 3 p.page
  once : ∀ i j p q u v, s.procs i = some p → s.procs j = some q → u < userLimit → v < userLimit →
    present (pte 3 p.page u) → present (pte 3 q.page v) →
    physOf (pte 3 p.page u) = physOf (pte 3 q.page v) → i = j ∧ u / 4096 = v / 4096
  known : ∀ pid p v, s.procs pid = some p → v < userLimit → present (pte 3 p.page v) →
    physOf (pte 3 p.page v) ∈ s.inUse

inductive CowRun (condition : Nat → System → Event → Prop) : System → Prop
  | start {s : System} (first : Start s) : CowRun condition s
  | next {s s' : System} (fuel : Nat) (e : Event) (before : CowRun condition s)
      (holds : condition fuel s e) (result : step nil fuel s e = some s') : CowRun condition s'

end Runs

variable {nil : Nat}

variable {s s' s₁ : System} {pid fuel v q w start size temporary flags : Nat} {p : Process}
  {vmPage : VirtualMemoryPage} {c : Clone}

theorem exists_of_spaces {page : Nat} {m : Mapping Nat}
    (mapped : s.spaces pid page = some m) : ∃ p, s.procs pid = some p ∧ page * 4096 < userLimit ∧
      present (pte 3 p.page (page * 4096)) ∧ m.frame = physOf (pte 3 p.page (page * 4096)) := by
  cases running : s.procs pid with
  | none =>
    rw [System.spaces, running] at mapped
    exact absurd mapped (by simp)
  | some p =>
    rw [spaces_of_procs running, view] at mapped
    split_ifs at mapped with both
    rw [some.injEq] at mapped
    refine ⟨p, rfl, ?_, both.2, by rw [← mapped]⟩
    unfold userLimit
    omega

theorem Start.sound (start : Start s) : Sound s := by
  refine ⟨fun {pid p} running => start.wf pid p running, ⟨?_, ?_⟩, ?_⟩
  · intro i u v m m' first second same
    obtain ⟨p, running, lowU, presentU, frameU⟩ := exists_of_spaces first
    obtain ⟨q, running', lowV, presentV, frameV⟩ := exists_of_spaces second
    have page := (start.once i i p q _ _ running running' lowU lowV presentU presentV
      (by rw [← frameU, ← frameV, same])).2
    omega
  · rintro i j u v m m' different first second - same
    obtain ⟨p, running, lowU, presentU, frameU⟩ := exists_of_spaces first
    obtain ⟨q, running', lowV, presentV, frameV⟩ := exists_of_spaces second
    exact different (start.once i j p q _ _ running running' lowU lowV presentU presentV
      (by rw [← frameU, ← frameV, same])).1
  · intro pid page m mapped
    obtain ⟨p, running, low, isPresent, frame⟩ := exists_of_spaces mapped
    rw [frame]
    exact start.known pid p _ running low isPresent

theorem Sound.step {e : Event} (sound : Sound s) (safe : Safe nil fuel s e)
    (result : step nil fuel s e = some s') : Sound s' := by
  cases e with
  | write pid v byte =>
    simp only [Procc.step, ite_none_right_eq_some] at result
    exact sound.storeByte result.2
  | fault pid v newPhys =>
    simp only [Procc.step, ite_none_right_eq_some] at result
    exact (sound.writeFault result.2).sound
  | mprotect pid addr len prot => exact sound.syscallMprotect safe result
  | fork pid inputs =>
    simp only [Procc.step, ite_none_right_eq_some] at result
    obtain ⟨new, forked⟩ := result
    refine sound.forkProcess ?_ safe forked
    rintro rfl
    simp only [Procc.forkProcess, isNone_iff_eq_none.mp new, bind_eq_bind,
      bind_none] at forked
    exact absurd forked (by simp)

/-- **Every safe run keeps the processes isolated.** -/
theorem CowRun.sound (run : CowRun nil (Safe nil) s) : Sound s := by
  induction run with
  | start first => exact first.sound
  | next fuel e _ safe result ih => exact ih.step safe result

/-! ### What isolation means for memory -/

theorem spaces_pageOf (running : s.procs pid = some p) (low : v < userLimit) (isPresent : present (pte 3 p.page v)) :
    s.spaces pid (pageOf v) = some ⟨physOf (pte 3 p.page v), writable (pte 3 p.page v)⟩ := by
  rw [spaces_of_procs running, view_pageOf (userAddr_of_lt low), if_pos isPresent]

theorem translate_eq_some {dir : PageDir} {paddr : Nat} (found : translate dir v = some paddr) :
    present (pte 3 dir v) ∧ paddr = physOf (pte 3 dir v) + v % 4096 := by
  simp only [translate, ite_none_right_eq_some, some.injEq] at found
  exact ⟨found.1, found.2.symm⟩

theorem loadByte_congr (same : s'.procs q = s.procs q) (byte : ∀ p, s.procs q = some p → present (pte 3 p.page w) →
      s'.memory (physOf (pte 3 p.page w) + w % 4096) = s.memory (physOf (pte 3 p.page w) + w % 4096)) :
    loadByte true s' q w = loadByte true s q w := by
  unfold loadByte
  rw [same]
  cases running : s.procs q with
  | none => rfl
  | some p =>
    cases found : translate p.page w with
    | none => simp [found]
    | some paddr =>
      obtain ⟨isPresent, rfl⟩ := translate_eq_some found
      simp only [bind_eq_bind, bind_some, found, byte p running isPresent]

theorem Sound.load_write {byte : UInt8} (sound : Sound s)
    (result : Procc.step nil fuel s (.write pid v byte) = some s') (other : q ≠ pid)
    (low : w < userLimit) : loadByte true s' q w = loadByte true s q w := by
  simp only [Procc.step, ite_none_right_eq_some, Procc.storeByte, bind_eq_some, some.injEq] at result
  obtain ⟨lowV, p, running, paddr, found, allowed, rfl⟩ := result
  obtain ⟨presentV, rfl⟩ := translate_eq_some found
  refine loadByte_congr rfl fun r running' presentW => update_of_ne ?_ ..
  intro same
  have mine := spaces_pageOf running lowV presentV
  have theirs := spaces_pageOf running' low presentW
  simp only [mayWrite, Bool.and_eq_true] at allowed
  have alignedV := physOf_aligned (pte 3 p.page v)
  have alignedW := physOf_aligned (pte 3 r.page w)
  exact sound.isolated.apart other.symm mine theirs allowed.1.2
    (show physOf (pte 3 p.page v) = physOf (pte 3 r.page w) by omega)

theorem Sound.load_fault {newPhys : Nat} (sound : Sound s)
    (result : Procc.step nil fuel s (.fault pid v newPhys) = some s') (other : q ≠ pid)
    (low : w < userLimit) : loadByte true s' q w = loadByte true s q w := by
  simp only [Procc.step, ite_none_right_eq_some] at result
  have fault := sound.writeFault result.2
  refine loadByte_congr (fault.others q other) fun p running isPresent => fault.memory _ ?_
  intro inside
  have theirs := spaces_pageOf running low isPresent
  have aligned := physOf_aligned (pte 3 p.page w)
  have alignedNew := fault.aligned
  obtain same : physOf (pte 3 p.page w) = newPhys := by omega
  exact fault.unused (same ▸ sound.known theirs)

/-- **Isolation at every point of a safe run.** -/
theorem cowRun_isolated {s : System} (run : CowRun nil (Safe nil) s) :
    (∀ i j p q u v, i ≠ j → s.procs i = some p → s.procs j = some q → u < userLimit → v < userLimit →
      mayWrite true p.page u → present (pte 3 q.page v) →
      physOf (pte 3 p.page u) ≠ physOf (pte 3 q.page v)) ∧
    (∀ fuel pid v byte s', step nil fuel s (.write pid v byte) = some s' →
      ∀ q, q ≠ pid → ∀ w < userLimit, loadByte true s' q w = loadByte true s q w) ∧
    (∀ fuel pid v newPhys s', step nil fuel s (.fault pid v newPhys) = some s' →
      ∀ q, q ≠ pid → ∀ w < userLimit, loadByte true s' q w = loadByte true s q w) := by
  have sound := run.sound
  refine ⟨?_, ?_, ?_⟩
  · intro i j p q u v different running running' lowU lowV allowed isPresent
    simp only [mayWrite, mayRead, Bool.and_eq_true] at allowed
    have mine := spaces_pageOf running lowU allowed.1.1.1
    have theirs := spaces_pageOf running' lowV isPresent
    exact sound.isolated.apart different mine theirs allowed.1.2
  · intro fuel pid v byte s' result q other w low
    exact sound.load_write result other low
  · intro fuel pid v newPhys s' result q other w low
    exact sound.load_fault result other low

/-! ### A fork of one page -/

theorem tableFlag_congr {bit k u : Nat} {t : Table k} (same : SameSlot 0 k u v) :
    tableFlag bit k t u = tableFlag bit k t v := by
  induction k with
  | zero => rfl
  | succ k ih =>
    have below : SameSlot 0 k u v := fun j low high => same j low (by omega)
    simp only [tableFlag, same (k + 1) (by omega) le_rfl, ih below]

/-- A copy between mapped pages faults nowhere. -/
theorem memcopy_mapped {dest src : Nat} (frames : Nat → Nat) (running : s.procs pid = some p)
    (srcPage : src % 4096 = 0) (destPage : dest % 4096 = 0)
    (srcLow : src < userLimit) (destLow : dest < userLimit) (read : mayRead false p.page src)
    (write : mayWrite false p.page dest) (count : Nat) (small : count ≤ 4096) :
    ∃ memory, memcopy s pid dest src frames count = some ⟨s.procs, memory, s.inUse⟩ := by
  have limit : userLimit = 2 ^ 47 := rfl
  induction count with
  | zero => exact ⟨s.memory, rfl⟩
  | succ count ih =>
    obtain ⟨memory, copied⟩ := ih (by omega)
    have srcSame : SameSlot 0 3 (u64 (src + count)) src := by
      rw [u64_of_lt (by omega), sameSlot_iff_pageOf]
      unfold pageOf
      omega
    have destSame : SameSlot 0 3 (u64 (dest + count)) dest := by
      rw [u64_of_lt (by omega), sameSlot_iff_pageOf]
      unfold pageOf
      omega
    have srcRead : mayRead false p.page (u64 (src + count)) := by
      rw [mayRead, pte_congr srcSame, tableFlag_congr srcSame]
      exact read
    have destWrite : mayWrite false p.page (u64 (dest + count)) := by
      rw [mayWrite, mayRead, pte_congr destSame, tableFlag_congr destSame, tableFlag_congr destSame]
      exact write
    have srcPresent : present (pte 3 p.page (u64 (src + count))) := by
      simp only [mayRead, Bool.and_eq_true] at srcRead
      exact srcRead.1
    have destPresent : present (pte 3 p.page (u64 (dest + count))) := by
      simp only [mayWrite, mayRead, Bool.and_eq_true] at destWrite
      exact destWrite.1.1.1
    have loads : ∀ m, ∃ byte, loadByte false ⟨s.procs, m, s.inUse⟩ pid (u64 (src + count)) = some byte :=
      fun m => ⟨m (physOf (pte 3 p.page (u64 (src + count))) + u64 (src + count) % 4096), by
        simp [loadByte, running, translate, srcPresent, srcRead]⟩
    obtain ⟨byte, loaded⟩ := loads memory
    refine ⟨update memory
      (physOf (pte 3 p.page (u64 (dest + count))) + u64 (dest + count) % 4096) byte, ?_⟩
    simp only [memcopy, copied, loaded, bind_eq_bind, bind_some, kernelStore, storeByte,
      running, translate, destPresent, if_true, destWrite, System.setByte]

theorem forkTls_of {s₂ s₃ : System} {offset : Nat} (inputs : ForkInputs) (running : s.procs pid = some p)
    (block : tlsBlock nil fuel p = some (start, offset, size))
    (allocated : physBaseAlloc s inputs.newFsBase size = some s₁)
    (address : vmaLookupFreeVaddr nil fuel p.vmPage .process size = some (temporary, vmPage))
    (copied : memcopy (s₁.setProc pid { p with
        page := pagingMultipleMmap p.page temporary inputs.newFsBase size tlsFlags, vmPage := vmPage })
      pid temporary start inputs.copyFrames (size * pageSize4KB) = some s₂)
    (stored : storeTid s₂ pid p (u64 (temporary + offset)) inputs.childId inputs.idFrames = some s₃) :
    forkTls nil fuel s pid inputs = some (s₃, start, size) := by
  simp only [forkTls, running, block, allocated, address, bind_eq_bind, bind_some, copied,
    stored]

theorem forkProcess_of {parent : Process} (inputs : ForkInputs) (running : s.procs pid = some p)
    (tls : forkTls nil fuel s pid inputs = some (s₁, start, size)) (running₁ : s₁.procs pid = some parent)
    (cloned : vmaCloneCow nil fuel parent.vmPage
      ⟨createVmmPage nil (initSentinel nil inputs.heap), fun _ => []⟩ (pagingSetup inputs.kernelDir)
      parent.page inputs.slab = some c) :
    forkProcess nil fuel s pid inputs = some ((s₁.setProc pid { parent with page := c.parent }).setProc
      inputs.childPid ⟨forkChildTls p inputs c.child start size, c.childVm, 0, p.fsBase⟩) := by
  simp only [forkProcess, running, tls, bind_eq_bind, bind_some, running₁, cloned]

theorem mprotectPage_of {vaddr mmapFlags phys : Nat} (running : s.procs pid = some p)
    (found : mprotectPhys nil fuel p vaddr = some phys) (mapped : phys ≠ 0 ∨ vaddr = 0)
    (flags : keepCow (pagingGetEntry p.page vaddr) mmapFlags = mmapFlags) :
    mprotectPage nil fuel s pid vaddr mmapFlags =
      some ({ s with inUse := physOf phys :: s.inUse }.setProc pid
        { p with page := pagingMmap p.page vaddr phys mmapFlags }) := by
  simp only [mprotectPage, running, found, bind_eq_bind, bind_some, if_pos mapped, flags]

theorem syscallMprotect_of {addr prot : Nat} {area : Option (Nat × VirtualMemory)} (aligned : addr % 4096 = 0)
    (word : addr < 2 ^ 64) (page : mprotectPage nil fuel s pid addr (mprotectFlags prot) = some s₁)
    (running : s₁.procs pid = some p) (found : vmaFindContains nil fuel p.vmPage addr = some area) :
    ∃ s' p', syscallMprotect nil fuel s pid addr 0x1000 prot = some s' ∧
      (∀ q, q ≠ pid → s'.procs q = s₁.procs q) ∧ s'.procs pid = some p' ∧ p'.page = p.page := by
  have first : u64 (alignDown addr 0x1000 + 0 * 0x1000) = addr := by
    have down := alignDown_blockSize word
    unfold blockSize at down
    rw [down, Nat.zero_mul, Nat.add_zero, u64_of_lt (by omega)]
    omega
  have pages : alignUp 0x1000 0x1000 / 0x1000 = 1 := by decide
  simp only [syscallMprotect, pages, mprotectPages, bind_eq_bind, bind_some, first, page,
    running, found]
  cases area with
  | none => exact ⟨s₁, p, rfl, fun _ _ => rfl, running, rfl⟩
  | some area => exact ⟨_, _, rfl, fun q other => procs_setProc_ne _ other, procs_setProc_self .., rfl⟩

/-- A fork without `clear_child_tid`, from mapped pages to a mapped page, up to the clone. -/
theorem forkTls_mapped (inputs : ForkInputs) (running : s.procs pid = some p) (noTid : p.clearChildTid = 0)
    (allocated : physBaseAlloc s inputs.newFsBase 1 = some s')
    (address : vmaLookupFreeVaddr nil fuel p.vmPage .process 1 = some (temporary, vmPage))
    (srcPage : p.fsBase % 4096 = 0) (destPage : temporary % 4096 = 0) (srcLow : p.fsBase < userLimit)
    (destLow : temporary < userLimit)
    (read : mayRead false (pagingMmap p.page temporary inputs.newFsBase tlsFlags) p.fsBase)
    (write : mayWrite false (pagingMmap p.page temporary inputs.newFsBase tlsFlags) temporary) :
    ∃ memory, forkTls nil fuel s pid inputs = some (System.setProc ⟨s'.procs, memory, s'.inUse⟩ pid
      { p with page := pagingMmap p.page temporary inputs.newFsBase tlsFlags, vmPage := vmPage },
      p.fsBase, 1) := by
  have block : tlsBlock nil fuel p = some (p.fsBase, 0, 1) := if_neg (by simp [noTid])
  have mapped : (s'.setProc pid { p with
      page := pagingMmap p.page temporary inputs.newFsBase tlsFlags, vmPage := vmPage }).procs pid =
      some { p with page := pagingMmap p.page temporary inputs.newFsBase tlsFlags, vmPage := vmPage } :=
    update_self ..
  obtain ⟨memory, copied⟩ :=
    memcopy_mapped inputs.copyFrames mapped srcPage destPage srcLow destLow read write
      (1 * pageSize4KB) (by decide)
  exact ⟨memory, forkTls_of inputs running block allocated address copied (if_neg (by simp [noTid]))⟩

def onePageProcess (flags : Nat) : Process where
  page := pagingMmap (.empty 3) 0x500000 0x10000 flags
  vmPage := ⟨⟨2, fun p => if p = 1 then ⟨none, 1, 1, 1, .black⟩
    else ⟨some ⟨0x500000, 0x501000, 0x10000, 0x1000, flags, 0, by decide⟩, 1, 1, 1, .black⟩⟩, fun _ => []⟩
  clearChildTid := 0
  fsBase := 0x500000

def onePageSystem (flags : Nat) : System where
  procs := fun pid => if pid = 0 then some (onePageProcess flags) else none
  memory := fun _ => 0
  inUse := [0x10000]

theorem start_onePageSystem (clean : Clean flags) : Start (onePageSystem flags) := by
  have only : ∀ pid p, (onePageSystem flags).procs pid = some p → pid = 0 ∧ p = onePageProcess flags := by
    intro pid p running
    simp only [onePageSystem, ite_none_right_eq_some, some.injEq] at running
    exact ⟨running.1, running.2.symm⟩
  have entry : ∀ v, pte 3 (onePageProcess flags).page v =
      if SameSlot 0 3 0x500000 v then if present flags then leafEntry 0x10000 flags else 0 else 0 := by
    intro v
    rw [onePageProcess, pagingMmap, pte_single _ clean, pte_empty]
  have page : ∀ v < userLimit, present (pte 3 (onePageProcess flags).page v) →
      v / 4096 = 0x500 ∧ physOf (pte 3 (onePageProcess flags).page v) = 0x10000 := by
    intro v low isPresent
    rw [entry] at isPresent ⊢
    by_cases same : SameSlot 0 3 0x500000 v
    · split_ifs at isPresent ⊢
      · rw [sameSlot_iff_pageOf, pageOf, pageOf] at same
        unfold userLimit at low
        refine ⟨by omega, ?_⟩
        rw [physOf_leafEntry]
        decide
      · exact absurd isPresent (by decide)
    · rw [if_neg same] at isPresent
      exact absurd isPresent (by decide)
  refine ⟨?_, ?_, ?_⟩
  · intro pid p running
    obtain ⟨-, rfl⟩ := only pid p running
    exact wf_mmapInternal_clean 0x500000 0x10000 clean (wf_empty 3)
  · intro i j p q u v running running' lowU lowV presentU presentV _
    obtain ⟨rfl, rfl⟩ := only i p running
    obtain ⟨rfl, rfl⟩ := only j q running'
    exact ⟨rfl, (page u lowU presentU).1.trans (page v lowV presentV).1.symm⟩
  · intro pid p v running low isPresent
    obtain ⟨rfl, rfl⟩ := only pid p running
    rw [(page v low isPresent).2]
    exact List.mem_cons_self

def onePageFork : ForkInputs where
  childPid := 1
  childId := 7
  kernelDir := .empty 3
  newFsBase := 0x20000
  copyFrames := fun _ => 0
  idFrames := fun _ => 0
  heap := fun _ => ⟨none, 0, 0, 0, .red⟩
  slab := [2]

def onePageParent (flags : Nat) : Process :=
  { onePageProcess flags with
    page := pagingMmap (onePageProcess flags).page 0x400000 0x20000 tlsFlags
    vmPage := vmaTreeAddLocked (onePageProcess flags).vmPage .process 0x400000 0x401000 }

def onePageClone (flags : Nat) : Option Clone :=
  vmaCloneCow 1 8 (onePageParent flags).vmPage
    ⟨createVmmPage 1 (initSentinel 1 onePageFork.heap), fun _ => []⟩ (pagingSetup onePageFork.kernelDir)
    (onePageParent flags).page onePageFork.slab

theorem forkTls_onePage (read : mayRead false (onePageParent flags).page 0x500000)
    (write : mayWrite false (onePageParent flags).page 0x400000) :
    ∃ memory, forkTls 1 8 (onePageSystem flags) 0 onePageFork =
      some (System.setProc ⟨(onePageSystem flags).procs, memory, [0x20000, 0x10000]⟩ 0 (onePageParent flags),
        0x500000, 1) := by
  have allocated : physBaseAlloc (onePageSystem flags) 0x20000 1 =
      some ⟨(onePageSystem flags).procs, (onePageSystem flags).memory, [0x20000, 0x10000]⟩ :=
    if_pos (by simp [onePageSystem])
  have address : vmaLookupFreeVaddr 1 8 (onePageProcess flags).vmPage .process 1 =
      some (0x400000, (onePageParent flags).vmPage) := by
    simp [vmaLookupFreeVaddr, freeVaddrFrom, firstCollision, vmaFindContains, findContainsFrom, onePageProcess,
      onePageParent, MemVmaRegion.base, u64, blockSize]
  have aligned : (onePageProcess flags).fsBase % 4096 = 0 := show 0x500000 % 4096 = 0 by decide
  have low : (onePageProcess flags).fsBase < userLimit := show 0x500000 < userLimit by decide
  exact forkTls_mapped onePageFork rfl rfl allocated address aligned (by decide) low (by decide) read write

def onePageForked (flags : Nat) (c : Clone) (memory : Nat → UInt8) : System :=
  ((System.setProc ⟨(onePageSystem flags).procs, memory, [0x20000, 0x10000]⟩ 0 (onePageParent flags)).setProc 0
    { onePageParent flags with page := c.parent }).setProc 1 ⟨c.child, c.childVm, 0, 0x500000⟩

theorem step_fork_onePage (clone : onePageClone flags = some c)
    (read : mayRead false (onePageParent flags).page 0x500000)
    (write : mayWrite false (onePageParent flags).page 0x400000) :
    ∃ memory, step 1 8 (onePageSystem flags) (.fork 0 onePageFork) = some (onePageForked flags c memory) := by
  obtain ⟨memory, tls⟩ := forkTls_onePage read write
  have forked := forkProcess_of (s := onePageSystem flags) onePageFork rfl tls (procs_setProc_self ..) clone
  have new : ((onePageSystem flags).procs onePageFork.childPid).isNone := rfl
  refine ⟨memory, ?_⟩
  rw [step, if_pos new, forked, onePageForked, forkChildTls, if_neg (by simp [onePageProcess])]
  rfl

/-- The page of a read-only segment. -/
def readOnly : Nat := pagePresent ||| pageUser

theorem start_readOnly : Start (onePageSystem readOnly) := start_onePageSystem ⟨by decide, by decide⟩

theorem onePageClone_readOnly : ∃ c, onePageClone readOnly = some c ∧
    (mayRead true c.parent 0x500000 ∧ translate c.parent 0x500000 = some 0x10000) ∧
    (vaddrToPaddr c.child 0x500000 = 0x10000 ∧ cow (pagingGetEntry c.child 0x500000) = false ∧
      translate c.child 0x500000 = some 0x10000) ∧
    (mayWrite true (pagingMmap c.child 0x500000 0x10000 (mprotectFlags 3)) 0x500000 ∧
      translate (pagingMmap c.child 0x500000 0x10000 (mprotectFlags 3)) 0x500000 = some 0x10000) ∧
    (vmaFindContains 1 8 c.childVm 0x500000).isSome := by
  have all : (onePageClone readOnly).map (fun c => decide (
      (mayRead true c.parent 0x500000 ∧ translate c.parent 0x500000 = some 0x10000) ∧
      (vaddrToPaddr c.child 0x500000 = 0x10000 ∧ cow (pagingGetEntry c.child 0x500000) = false ∧
        translate c.child 0x500000 = some 0x10000) ∧
      (mayWrite true (pagingMmap c.child 0x500000 0x10000 (mprotectFlags 3)) 0x500000 ∧
        translate (pagingMmap c.child 0x500000 0x10000 (mprotectFlags 3)) 0x500000 = some 0x10000) ∧
      (vmaFindContains 1 8 c.childVm 0x500000).isSome)) = some true := by
    decide +kernel
  obtain ⟨c, clone, holds⟩ := map_eq_some_iff.mp all
  exact ⟨c, clone, of_decide_eq_true holds⟩

theorem step_fork_readOnly (clone : onePageClone readOnly = some c) :
    ∃ memory, step 1 8 (onePageSystem readOnly) (.fork 0 onePageFork) = some (onePageForked readOnly c memory) :=
  step_fork_onePage clone (by decide +kernel) (by decide +kernel)

section Forked

variable (flags) (memory : Nat → UInt8)

theorem parent_onePageForked : (onePageForked flags c memory).procs 0 = some { onePageParent flags with page := c.parent } :=
  (procs_setProc_ne _ (by decide)).trans (procs_setProc_self ..)

theorem child_onePageForked : (onePageForked flags c memory).procs 1 = some ⟨c.child, c.childVm, 0, 0x500000⟩ :=
  procs_setProc_self ..

/-- The child changes the protection of the page it shares. -/
theorem step_mprotect_onePage (prot : Nat) (same : vaddrToPaddr c.child 0x500000 = 0x10000)
    (notCow : cow (pagingGetEntry c.child 0x500000) = false) (found : (vmaFindContains 1 8 c.childVm 0x500000).isSome) :
    ∃ s p, step 1 8 (onePageForked flags c memory) (.mprotect 1 0x500000 0x1000 prot) = some s ∧
      s.procs 0 = some { onePageParent flags with page := c.parent } ∧
      s.procs 1 = some p ∧ p.page = pagingMmap c.child 0x500000 0x10000 (mprotectFlags prot) := by
  obtain ⟨area, isArea⟩ := isSome_iff_exists.mp found
  have phys : mprotectPhys 1 8 ⟨c.child, c.childVm, 0, 0x500000⟩ 0x500000 = some 0x10000 := by
    simp [mprotectPhys, same]
  have kept : keepCow (pagingGetEntry c.child 0x500000) (mprotectFlags prot) = mprotectFlags prot :=
    if_neg (by simp [notCow])
  have page := mprotectPage_of (child_onePageForked flags memory) phys (.inl (by decide)) kept
  obtain ⟨s, p, result, others, running, pageEq⟩ :=
    syscallMprotect_of (by decide) (by decide) page (procs_setProc_self ..) isArea
  refine ⟨s, p, result, ?_, running, pageEq⟩
  rw [others 0 (by decide), procs_setProc_ne _ (by decide)]
  exact parent_onePageForked flags memory

end Forked

/-- A safe run: a process forks, and its child asks for `PROT_READ`. Nothing one of the two writes is read by the
other. -/
theorem cowRun_isolated_fork : ∃ s, (s.procs 0).isSome ∧ (s.procs 1).isSome ∧
    ∀ fuel pid v byte s', step 1 fuel s (.write pid v byte) = some s' →
      ∀ q, q ≠ pid → ∀ w < userLimit, loadByte true s' q w = loadByte true s q w := by
  obtain ⟨c, clone, -, ⟨childPhys, notCow, shared⟩, -, found⟩ := onePageClone_readOnly
  obtain ⟨memory, forked⟩ := step_fork_readOnly clone
  obtain ⟨s, p, granted, parent, child, -⟩ := step_mprotect_onePage readOnly memory 1 childPhys notCow found
  have forkSafe : Safe 1 8 (onePageSystem readOnly) (.fork 0 onePageFork) := by
    rintro p running
    obtain rfl : onePageProcess readOnly = p := some.inj running
    rfl
  have mprotectSafe : Safe 1 8 (onePageForked readOnly c memory) (.mprotect 1 0x500000 0x1000 1) := by
    intro i inside s' before q phys running isPhys _
    obtain rfl : i = 0 := Nat.lt_one_iff.mp inside
    obtain rfl := some.inj before
    obtain rfl := some.inj ((child_onePageForked readOnly memory).symm.trans running)
    have first : u64 (alignDown 0x500000 0x1000 + 0 * 0x1000) = 0x500000 := by decide
    rw [first] at isPhys ⊢
    obtain rfl : 0x10000 = phys := by simpa [mprotectPhys, childPhys] using isPhys
    obtain ⟨isPresent, frame⟩ := translate_eq_some shared
    rw [if_pos ⟨isPresent, frame⟩]
    exact fun _ _ asked => absurd asked (by decide)
  have run := ((CowRun.start start_readOnly).next 8 _ forkSafe forked).next 8 _ mprotectSafe granted
  exact ⟨s, by rw [parent]; rfl, by rw [child]; rfl, (cowRun_isolated run).2.1⟩

/-- **Without the condition a write reaches another process**: a page that is read-only when its
process forks is shared without a mark, and `mprotect` then makes it writable in the child. -/
theorem cowRun_not_isolated : ∃ nil s s' fuel pid q v w byte, CowRun nil (fun _ _ _ => True) s ∧
    step nil fuel s (.write pid v byte) = some s' ∧ q ≠ pid ∧ w < userLimit ∧
    loadByte true s' q w ≠ loadByte true s q w := by
  obtain ⟨c, clone, ⟨read, parentPhys⟩, ⟨childPhys, notCow, -⟩, ⟨write, writePhys⟩, found⟩ :=
    onePageClone_readOnly
  obtain ⟨memory, forked⟩ := step_fork_readOnly clone
  obtain ⟨s, p, granted, parent, child, page⟩ := step_mprotect_onePage readOnly memory 3 childPhys notCow found
  have run : CowRun 1 (fun _ _ _ => True) s :=
    ((CowRun.start start_readOnly).next 8 _ trivial forked).next 8 _ trivial granted
  rw [← page] at write writePhys
  have load : ∀ m, loadByte true ⟨s.procs, m, s.inUse⟩ 0 0x500000 = some (m 0x10000) := by
    intro m
    simp [loadByte, parent, parentPhys, read]
  refine ⟨1, s, s.setByte 0x10000 (s.memory 0x10000 + 1), 8, 1, 0, 0x500000, 0x500000,
    s.memory 0x10000 + 1, run, ?_, by decide, by decide, ?_⟩
  · simp [step, storeByte, child, writePhys, write, userLimit]
  · rw [System.setByte, load, show s = ⟨s.procs, s.memory, s.inUse⟩ from rfl, load, update_self]
    simp

end Voxia.Procc
