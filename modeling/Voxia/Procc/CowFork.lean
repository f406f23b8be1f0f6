/-
**Copy-on-write processes.**

The state is physical memory and, for each process, its page directory, its area record and the two thread fields
`fork_process` reads. A user access is what the hardware makes of the directory; a write to a present page that may
not be written goes to the page-fault handler, and is then tried again. The frame allocator is a parameter: it may
return any frame that is not in use, where `inUse` records the frames handed out or mapped so far. The slab cache is
one too: `slab` lists the nodes it returns.
-/

import Voxia.Cpu.PagingRange
import Voxia.Memory.VmaPage

namespace Voxia.Procc

open Cpu Memory Voxia.Tree

/-- What the modelled code reads of `process_t` and of its thread. -/
structure Process where
  page : PageDir
  vmPage : VirtualMemoryPage
  clearChildTid : Nat
  fsBase : Nat

structure System where
  procs : Nat → Option Process
  memory : Nat → UInt8
  inUse : List Nat

namespace System

def setProc (s : System) (pid : Nat) (p : Process) : System :=
  { s with procs := Function.update s.procs pid (some p) }

def setByte (s : System) (paddr : Nat) (byte : UInt8) : System :=
  { s with memory := Function.update s.memory paddr byte }

end System

def physBaseAlloc (s : System) (frame pages : Nat) : Option System :=
  if frame ≠ 0 ∧ 0 < pages ∧ frame % 4096 = 0 ∧ frame + pages * 4096 ≤ 2 ^ 52 ∧
      ∀ i < pages, frame + i * 4096 ∉ s.inUse then
    some { s with inUse := (List.range pages).map (fun i => frame + i * 4096) ++ s.inUse }
  else none

/-! ### The hardware -/

/-- A flag is set in every table entry on the way to the page of `v`. -/
def tableFlag (bit : Nat) : (k : Nat) → Table k → (v : Nat) → Bool
  | 0, _, _ => true
  | k + 1, t, v =>
    let entry := t.entry (tableIndex (k + 1) v)
    huge entry || (entry.testBit bit && tableFlag bit k (t.next (tableIndex (k + 1) v)) v)

def translate (dir : PageDir) (v : Nat) : Option Nat :=
  let entry := pte 3 dir v
  if present entry then some (physOf entry + v % 4096) else none

def mayRead (asUser : Bool) (dir : PageDir) (v : Nat) : Bool :=
  let entry := pte 3 dir v
  present entry && (!asUser || (user entry && tableFlag 2 3 dir v))

/-- May it write? Kernel writes are bound by the write flags too (`CR0.WP`). -/
def mayWrite (asUser : Bool) (dir : PageDir) (v : Nat) : Bool :=
  mayRead asUser dir v && writable (pte 3 dir v) && tableFlag 1 3 dir v

def loadByte (asUser : Bool) (s : System) (pid v : Nat) : Option UInt8 := do
  let p ← s.procs pid
  let paddr ← translate p.page v
  if mayRead asUser p.page v then some (s.memory paddr) else none

def storeByte (asUser : Bool) (s : System) (pid v : Nat) (byte : UInt8) : Option System := do
  let p ← s.procs pid
  let paddr ← translate p.page v
  if mayWrite asUser p.page v then some (s.setByte paddr byte) else none

def userLimit : Nat := 2 ^ 47

/-! ### The page-fault handler -/

def copyFlags (entry : Nat) : Nat := without (without entry pagePhysMask) pageCow ||| pageWritable

/-- The part of `vxInterruptHandler` for a write fault on a present page; `newPhys` is what
`phys_base_alloc(1)` returns. `none` is the way to the fatal report. -/
def writeFault (s : System) (pid cr2 newPhys : Nat) : Option System := do
  let p ← s.procs pid
  let entry := pagingGetEntry p.page cr2
  if present entry && cow entry then
    let s ← physBaseAlloc s newPhys 1
    let faultPage := without cr2 0xFFF
    let old ← translate p.page faultPage
    let memory := fun a => if newPhys ≤ a ∧ a < newPhys + blockSize then s.memory (old + (a - newPhys))
      else s.memory a
    let page := pagingMmap p.page faultPage newPhys (copyFlags entry)
    some ({ s with memory := memory }.setProc pid { p with page := page })
  else none

/-! ### mprotect -/

def mprotectFlags (prot : Nat) : Nat :=
  if prot = 0 then 0
  else
    let flags := pageUser
    let flags := if prot &&& protRead ≠ 0 then flags ||| pagePresent else flags
    let flags := if prot &&& protWrite ≠ 0 then flags ||| pageWritable else flags
    let flags := if prot &&& protExec = 0 then flags ||| pageNoExecute else flags
    if prot &&& (protRead ||| protWrite ||| protExec) ≠ 0 then flags ||| pagePresent else flags

section Syscalls

variable (nil : Nat)

/-- The frame a page gets: the one it has or, if it is not present, the one its area records. -/
def mprotectPhys (fuel : Nat) (p : Process) (vaddr : Nat) : Option Nat := do
  let phys := vaddrToPaddr p.page vaddr
  if phys = 0 ∧ vaddr ≠ 0 then
    match ← vmaFindContains nil fuel p.vmPage vaddr with
    | some (_, mm) => some (u64 (mm.physAddress + (vaddr - mm.startAddress)))
    | none => some phys
  else some phys

/-- The flags a page gets: a copy-on-write page stays one and is not made writable. -/
def keepCow (oldEntry mmapFlags : Nat) : Nat :=
  if cow oldEntry then without (mmapFlags ||| pageCow) pageWritable else mmapFlags

def mprotectPage (fuel : Nat) (s : System) (pid vaddr mmapFlags : Nat) : Option System := do
  let p ← s.procs pid
  let phys ← mprotectPhys nil fuel p vaddr
  if phys ≠ 0 ∨ vaddr = 0 then
    let newFlags := keepCow (pagingGetEntry p.page vaddr) mmapFlags
    let page := pagingMmap p.page vaddr phys newFlags
    some ({ s with inUse := physOf phys :: s.inUse }.setProc pid { p with page := page })
  else some s

def mprotectPages (fuel : Nat) (s : System) (pid addr mmapFlags : Nat) : (count : Nat) → Option System
  | 0 => some s
  | count + 1 => do
    let s ← mprotectPages fuel s pid addr mmapFlags count
    mprotectPage nil fuel s pid (u64 (addr + count * 0x1000)) mmapFlags

def syscallMprotect (fuel : Nat) (s : System) (pid addr len prot : Nat) : Option System := do
  let mmapFlags := mprotectFlags prot
  let s ← mprotectPages nil fuel s pid (alignDown addr 0x1000) mmapFlags (alignUp len 0x1000 / 0x1000)
  let p ← s.procs pid
  match ← vmaFindContains nil fuel p.vmPage addr with
  | some (node, mm) =>
    let tree := p.vmPage.tree.modify node fun n => { n with data := some { mm with flags := mmapFlags } }
    some (s.setProc pid { p with vmPage := { p.vmPage with tree := tree } })
  | none => some s

/-! ### fork -/

/-- What `vma_clone_cow_recursive` changes, and the nodes the slab cache has yet to return. -/
structure Clone where
  parent : PageDir
  child : PageDir
  childVm : VirtualMemoryPage
  slab : List Nat

def childFlags (entry : Nat) : Nat :=
  let flags := pagePresent ||| pageUser
  let flags := if cow entry then flags ||| pageCow else flags
  let flags := if noExecute entry then flags ||| pageNoExecute else flags
  if writable entry then flags ||| pageWritable else flags

def cloneCowPage (parent child : PageDir) (virt : Nat) : PageDir × PageDir :=
  if present (pagingGetEntry parent virt) then
    let parent := pagingMakeCow parent virt
    let phys := vaddrToPaddr parent virt
    (parent, pagingMmap child virt phys (childFlags (pagingGetEntry parent virt)))
  else (parent, child)

def cloneCowPages (parent child : PageDir) (start : Nat) : (count : Nat) → PageDir × PageDir
  | 0 => (parent, child)
  | count + 1 =>
    let (parent, child) := cloneCowPages parent child start count
    cloneCowPage parent child (u64 (start + count * blockSize))

def areaPages (vma : VirtualMemory) : Nat :=
  let pages := u64 (vma.endAddress - vma.startAddress + 4095) / blockSize
  if pages = 0 then 1 else pages

def cloneCowArea (fuel : Nat) (c : Clone) (vma : VirtualMemory) : Option Clone :=
  if vma.startAddress < vma.endAddress ∧ areaPages vma < 1000000 then
    let (parent, child) :=
      if vma.startAddress < vmaRegionA then
        cloneCowPages c.parent c.child vma.startAddress (areaPages vma)
      else (c.parent, pagingMultipleMmap c.child vma.startAddress vma.physAddress (areaPages vma) vma.flags)
    match c.slab with
    | [] => none
    | n :: slab => do
      let tree ← vmaRegisterLocked nil fuel c.childVm.tree n vma.physAddress vma.startAddress
        (vma.endAddress - vma.startAddress) vma.flags
      some ⟨parent, child, { c.childVm with tree := tree }, slab⟩
  else some c

/-- The area of a node, whose data pointer may be null. -/
def cloneCowNode (fuel : Nat) (c : Clone) : Option VirtualMemory → Option Clone
  | some vma => cloneCowArea nil fuel c vma
  | none => some c

/-- The areas below `node`, in order. -/
def vmaCloneCowRecursive (tree : VmaTree) : (fuel : Nat) → (node : Nat) → Clone → Option Clone
  | 0, _, _ => none
  | fuel + 1, node, c =>
    if node = nil ∨ node = 0 then some c
    else do
      let c ← vmaCloneCowRecursive tree fuel (tree.heap node).left c
      let c ← cloneCowNode nil fuel c (tree.heap node).data
      vmaCloneCowRecursive tree fuel (tree.heap node).right c

def vmaCloneCow (fuel : Nat) (parentVm childVm : VirtualMemoryPage) (child parent : PageDir)
    (slab : List Nat) : Option Clone :=
  vmaCloneCowRecursive nil parentVm.tree fuel parentVm.tree.root
    ⟨parent, child, vmaTreeClone parentVm childVm, slab⟩

/-- A kernel store by the running process, with the fault it may take. -/
def kernelStore (s : System) (pid v : Nat) (byte : UInt8) (newPhys : Nat) : Option System :=
  match storeByte false s pid v byte with
  | some s => some s
  | none => do
    let s ← writeFault s pid v newPhys
    storeByte false s pid v byte

/-- The first `count` rounds of `memcopy`; `frames i` is the frame for a fault on byte `i`. -/
def memcopy (s : System) (pid dest src : Nat) (frames : Nat → Nat) : (count : Nat) → Option System
  | 0 => some s
  | count + 1 => do
    let s ← memcopy s pid dest src frames count
    let byte ← loadByte false s pid (u64 (src + count))
    kernelStore s pid (u64 (dest + count)) byte (frames count)

/-- The first `count` bytes of the store of a `uint32_t`. -/
def storeWord (s : System) (pid dest word : Nat) (frames : Nat → Nat) : (count : Nat) → Option System
  | 0 => some s
  | count + 1 => do
    let s ← storeWord s pid dest word frames count
    kernelStore s pid (u64 (dest + count)) (UInt8.ofNat (word >>> (8 * count))) (frames count)

/-- The child's thread id, where the parent's `clear_child_tid` points to in the block. -/
def storeTid (s : System) (pid : Nat) (parent : Process) (dest childId : Nat) (frames : Nat → Nat) : Option System :=
  if parent.clearChildTid ≠ 0 then storeWord s pid dest childId frames 4 else some s

/-- The block `fork_process` copies: its start, the place of the thread id in it and its pages. -/
def tlsBlock (fuel : Nat) (parent : Process) : Option (Nat × Nat × Nat) :=
  if parent.clearChildTid ≠ 0 then do
    match ← vmaFindContains nil fuel parent.vmPage parent.clearChildTid with
    | some (_, vma) =>
      let size := vma.length / pageSize4KB
      some (vma.startAddress, parent.clearChildTid - vma.startAddress, if size = 0 then 1 else size)
    | none =>
      let start := alignDown parent.clearChildTid pageSize4KB
      some (start, parent.clearChildTid - start, 1)
  else some (parent.fsBase, 0, 1)

/-- What a fork is given from outside: the child's pid and thread id, the kernel's directory, the
block and the frames the allocator returns, the heap and the nodes of the slab caches. -/
structure ForkInputs where
  childPid : Nat
  childId : Nat
  kernelDir : PageDir
  newFsBase : Nat
  copyFrames : Nat → Nat
  idFrames : Nat → Nat
  heap : Nat → RbtNode VirtualMemory
  slab : List Nat

def tlsFlags : Nat := pagePresent ||| pageWritable ||| pageUser

/-- The new block in the parent: mapped at a free address, filled, and given the child's id. Returns
the start and the pages of the block it copies. -/
def forkTls (fuel : Nat) (s : System) (pid : Nat) (inputs : ForkInputs) : Option (System × Nat × Nat) := do
  let parent ← s.procs pid
  let (tlsVmaStart, tidOff, sizeIn4kb) ← tlsBlock nil fuel parent
  let s ← physBaseAlloc s inputs.newFsBase sizeIn4kb
  let (temporary, vmPage) ← vmaLookupFreeVaddr nil fuel parent.vmPage .process sizeIn4kb
  let page := pagingMultipleMmap parent.page temporary inputs.newFsBase sizeIn4kb tlsFlags
  let s := s.setProc pid { parent with page := page, vmPage := vmPage }
  let s ← memcopy s pid temporary tlsVmaStart inputs.copyFrames (sizeIn4kb * pageSize4KB)
  let s ← storeTid s pid parent (u64 (temporary + tidOff)) inputs.childId inputs.idFrames
  some (s, tlsVmaStart, sizeIn4kb)

/-- The new block in the child, in place of the one it copies. -/
def forkChildTls (parent : Process) (inputs : ForkInputs) (child : PageDir) (tlsVmaStart sizeIn4kb : Nat) : PageDir :=
  if parent.clearChildTid ≠ 0 then
    pagingMultipleMmap child tlsVmaStart inputs.newFsBase sizeIn4kb tlsFlags
  else child

/-- The memory side of `fork_process`. -/
def forkProcess (fuel : Nat) (s : System) (pid : Nat) (inputs : ForkInputs) : Option System := do
  let before ← s.procs pid
  let (s, tlsVmaStart, sizeIn4kb) ← forkTls nil fuel s pid inputs
  let parent ← s.procs pid
  let childVm : VirtualMemoryPage := ⟨createVmmPage nil (initSentinel nil inputs.heap), fun _ => []⟩
  let c ← vmaCloneCow nil fuel parent.vmPage childVm (pagingSetup inputs.kernelDir) parent.page
    inputs.slab
  let child := forkChildTls before inputs c.child tlsVmaStart sizeIn4kb
  some ((s.setProc pid { parent with page := c.parent }).setProc inputs.childPid
    ⟨child, c.childVm, 0, before.fsBase⟩)

end Syscalls

end Voxia.Procc
