/-
**The memory system calls: anonymous `mmap`, `munmap` and `brk`.**

Each call changes the page directory and the area record of a process on its own: `mmap` and `brk` map a
block of new frames and register an area for it, `munmap` clears the entries of a range and unregisters
the areas that start in it. What `phys_base_alloc` returns (`phys`, 0 if it fails) and the node
`vxSlabAlloc` returns for a new area (`node`) are arguments. The contents of the new pages are not part
of the state.
-/

import Voxia.Cpu.PagingRange
import Voxia.Memory.VmaPage

namespace Voxia.Sys

open Cpu Memory Voxia.Tree

structure UserSpace where
  page : PageDir
  vmPage : VirtualMemoryPage
  heapStart : Nat
  heapEnd : Nat

def eInval : Int := 22
def eNoMem : Int := 12

def mapFixed : Nat := 0x10

/-! ### mmap -/

def mmapProtToFlags (prot : Nat) : Nat :=
  if prot = 0 then 0
  else
    let flags := pageUser
    let flags := if prot &&& (protRead ||| protWrite ||| protExec) ≠ 0 then flags ||| pagePresent else flags
    let flags := if prot &&& protWrite ≠ 0 then flags ||| pageWritable else flags
    if prot &&& protExec = 0 then flags ||| pageNoExecute else flags

def tempFlags : Nat := pagePresent ||| pageWritable ||| pageUser ||| pageNoExecute

section Calls

variable (nil : Nat)

section

variable (fuel : Nat) (s : UserSpace) (addr len : Nat)

def mmapResolveVirtAddr (flags len4kb : Nat) : Option (Nat × VirtualMemoryPage) :=
  if flags &&& mapFixed ≠ 0 then some (addr, s.vmPage)
  else vmaLookupFreeVaddr nil fuel s.vmPage .userMmap len4kb

def mmapPages (dir : PageDir) (virtAddr phys len4kb mmapFlags : Nat) : PageDir :=
  let dir := pagingMultipleMmap dir virtAddr phys len4kb tempFlags
  let required := pagePresent ||| pageWritable
  if mmapFlags &&& required ≠ required then pagingMultipleMmap dir virtAddr phys len4kb mmapFlags
  else dir

def registerArea (vmPage : VirtualMemoryPage) (node phys virtAddr size flags : Nat) : Option VirtualMemoryPage := do
  let tree ← vmaRegisterLocked nil fuel vmPage.tree node phys virtAddr size flags
  some { vmPage with tree := tree }

/-- `mmap_handle_anonymous` with `keep_writable` false: what it returns, and the state. -/
def mmapHandleAnonymous (flags len4kb mmapFlags phys node : Nat) : Option (Int × UserSpace) := do
  let (virtAddr, vmPage) ← mmapResolveVirtAddr nil fuel s addr flags len4kb
  if virtAddr = 0 then
    some (if flags &&& mapFixed ≠ 0 then -eInval else -eNoMem, { s with vmPage := vmPage })
  else if phys = 0 then some (-eNoMem, { s with vmPage := vmPage })
  else
    let vmPage ← registerArea nil fuel vmPage node phys virtAddr (len4kb * blockSize) mmapFlags
    some (virtAddr, { s with page := mmapPages s.page virtAddr phys len4kb mmapFlags, vmPage := vmPage })

def pagesOf : Nat := alignUp len blockSize / blockSize

def syscallMmap (prot flags phys node : Nat) : Option (Int × UserSpace) :=
  if len = 0 then some (-eInval, s)
  else mmapHandleAnonymous nil fuel s addr flags (pagesOf len) (mmapProtToFlags prot) phys node

/-! ### munmap -/

/-- The loop of `munmap` over the first `count` pages. -/
def unregisterPages (fuel : Nat) (vmPage : VirtualMemoryPage) (addr : Nat) : (count : Nat) → Option VirtualMemoryPage
  | 0 => some vmPage
  | count + 1 => do
    let vmPage ← unregisterPages fuel vmPage addr count
    let tree ← vmaUnregister nil fuel vmPage.tree (u64 (addr + count * 0x1000))
    some { vmPage with tree := tree }

/-- System call 11. -/
def syscallMunmap : Option UserSpace :=
  if addr = 0 ∨ len = 0 then some s
  else do
    let vmPage ← unregisterPages nil fuel s.vmPage addr (pagesOf len)
    some { s with page := pagingMultipleUnmap s.page addr (pagesOf len), vmPage := vmPage }

/-! ### brk -/

def heapFlags : Nat := pagePresent ||| pageWritable ||| pageUser

def heapAreaFlags : Nat := heapFlags ||| pageNoExecute

/-- `syscall_brk`: what it returns, and the state. The kernel's own mapping that clears the pages is
left out. -/
def syscallBrk (phys node : Nat) : Option (Nat × UserSpace) :=
  if addr = 0 ∨ addr < s.heapStart then some (s.heapEnd, s)
  else
    let oldPage := alignUp s.heapEnd pageSize4KB
    let newPage := alignUp addr pageSize4KB
    if s.heapEnd < addr ∧ oldPage < newPage then
      if phys = 0 then some (s.heapEnd, s)
      else do
        let page := pagingMultipleMmap s.page oldPage phys ((newPage - oldPage) / pageSize4KB) heapFlags
        let vmPage ← registerArea nil fuel s.vmPage node phys oldPage (newPage - oldPage) heapAreaFlags
        some (addr, { s with page := page, vmPage := vmPage, heapEnd := addr })
    else some (addr, { s with heapEnd := addr })

end

end Calls

end Voxia.Sys
