/-
**Loading an ELF file.**

`elf_load` (`libk/executable/elf.c`) gives every `PT_LOAD` segment a run of frames of its own, fills it through a
temporary mapping and maps it at `base + p_vaddr`, rounded down to a page; `register_elf_vmas` (`procc/process.c`)
then registers an area for each. What `phys_base_alloc` returns for header `i` is `frames i`; a failed allocation,
which `elf_load` does not check, is not modelled. The temporary mapping is left out: a store through it is a store to
the frames.
-/

import Voxia.Lib.Bytes
import Voxia.Sys.MemoryCalls

namespace Voxia.Exec

open Lib Cpu Memory

/-! ### The headers -/

def word64 (image : Bytes) (at' : Nat) : Nat := image.word32 at' + 2 ^ 32 * image.word32 (at' + 4)

structure Ehdr where
  eIdent : List UInt8
  eType : Nat
  eEntry : Nat
  ePhoff : Nat
  ePhentsize : Nat
  ePhnum : Nat

structure Phdr where
  pType : Nat
  pFlags : Nat
  pOffset : Nat
  pVaddr : Nat
  pFilesz : Nat
  pMemsz : Nat
  deriving DecidableEq

variable (nil fuel : Nat) (data : Bytes)

def readEhdr : Ehdr where
  eIdent := [data 0, data 1, data 2, data 3]
  eType := data.word16 16
  eEntry := word64 data 24
  ePhoff := word64 data 32
  ePhentsize := data.word16 54
  ePhnum := data.word16 56

def readPhdr (off : Nat) : Phdr where
  pType := data.word32 off
  pFlags := data.word32 (off + 4)
  pOffset := word64 data (off + 8)
  pVaddr := word64 data (off + 16)
  pFilesz := word64 data (off + 32)
  pMemsz := word64 data (off + 40)

def phdrs : List Phdr :=
  (List.range (readEhdr data).ePhnum).map fun i =>
    readPhdr data (u64 ((readEhdr data).ePhoff + i * (readEhdr data).ePhentsize))

def ptLoad : Nat := 1
def ptInterp : Nat := 3

def pfX : Nat := 1
def pfW : Nat := 2
def pfR : Nat := 4

def elfPflagsToPageFlags (pFlags : Nat) : Nat :=
  let flags := pageUser
  let flags := if pFlags &&& pfR ≠ 0 then flags ||| pagePresent else flags
  let flags := if pFlags &&& pfW ≠ 0 then flags ||| (pageWritable ||| pagePresent) else flags
  if pFlags &&& pfX ≠ 0 then flags ||| pagePresent else flags ||| pageNoExecute

/-! ### Segments -/

def Phdr.alignedVaddr (p : Phdr) : Nat := alignDown p.pVaddr blockSize

def Phdr.vaddrOffset (p : Phdr) : Nat := p.pVaddr - p.alignedVaddr

/-- `sz`, in pages. -/
def Phdr.sz (p : Phdr) : Nat := u64 (p.vaddrOffset + p.pMemsz + blockSize - 1) / blockSize

structure MmapEntry where
  vaddr : Nat
  alligned : Nat
  paddr : Nat
  size : Nat
  flags : Nat
  mapped : Bool

def MmapEntry.zero : MmapEntry := ⟨0, 0, 0, 0, 0, false⟩

variable (base : Nat)

def mmapEntry (p : Phdr) (physAlloc : Nat) : MmapEntry where
  vaddr := u64 (base + p.alignedVaddr)
  alligned := p.alignedVaddr
  paddr := physAlloc
  size := p.sz
  flags := elfPflagsToPageFlags p.pFlags
  mapped := true

structure LoadState where
  phys : Bytes
  page : PageDir

/-- The part of the loop for a `PT_LOAD` header. -/
def loadSegment (p : Phdr) (physAlloc : Nat) (st : LoadState) : LoadState :=
  -- memset, then memcopy of what the file has
  let phys := st.phys.copy (physAlloc + p.vaddrOffset) (fun _ => 0) p.pMemsz
  let phys := if p.pFilesz > 0 then phys.copy (physAlloc + p.vaddrOffset) (data.window p.pOffset) p.pFilesz else phys
  { phys := phys
    page := pagingMultipleMmap st.page (u64 (base + p.alignedVaddr)) physAlloc p.sz (elfPflagsToPageFlags p.pFlags) }

/-- The loop of `elf_load` from header `i` on: the state, the table and `max_end`. -/
def elfLoadLoop (data : Bytes) (base : Nat) (frames : Nat → Nat) :
    Nat → List Phdr → LoadState → Nat → LoadState × List MmapEntry × Nat
  | _, [], st, maxEnd => (st, [], maxEnd)
  | i, p :: rest, st, maxEnd =>
    let maxEnd := max maxEnd (u64 (p.pVaddr + p.sz * blockSize))
    if p.pType ≠ ptLoad then
      match elfLoadLoop data base frames (i + 1) rest st maxEnd with
      | (st, table, maxEnd) => (st, .zero :: table, maxEnd)
    else
      match elfLoadLoop data base frames (i + 1) rest (loadSegment data base p (frames i) st) maxEnd with
      | (st, table, maxEnd) => (st, mmapEntry base p (frames i) :: table, maxEnd)

def elfLoad (frames : Nat → Nat) (st : LoadState) : LoadState × List MmapEntry × Nat :=
  elfLoadLoop data base frames 0 (phdrs data) st 0

/-- `register_elf_vmas` from entry `i` on; `nodes i` is the node the slab cache returns for it. -/
def registerElfVmas (nil fuel base : Nat) (nodes : Nat → Nat) :
    Nat → List MmapEntry → VirtualMemoryPage → Option VirtualMemoryPage
  | _, [], vmPage => some vmPage
  | i, mm :: rest, vmPage =>
    if mm.mapped then do
      let vmPage ← Sys.registerArea nil fuel vmPage (nodes i) mm.paddr (u64 (base + mm.alligned)) (u64 (mm.size * 4096))
        mm.flags
      registerElfVmas nil fuel base nodes (i + 1) rest vmPage
    else registerElfVmas nil fuel base nodes (i + 1) rest vmPage

/-! ### The segments of a file -/

/-- A `PT_LOAD` header with the frames and the node it gets. -/
structure Seg where
  phdr : Phdr
  frame : Nat
  node : Nat
  deriving DecidableEq

def segsFrom (frames nodes : Nat → Nat) : Nat → List Phdr → List Seg
  | _, [] => []
  | i, p :: rest =>
    if p.pType ≠ ptLoad then segsFrom frames nodes (i + 1) rest
    else ⟨p, frames i, nodes i⟩ :: segsFrom frames nodes (i + 1) rest

variable (frames nodes : Nat → Nat)

def segs : List Seg := segsFrom frames nodes 0 (phdrs data)

def loadAll (l : List Seg) (st : LoadState) : LoadState :=
  l.foldl (fun st s => loadSegment data base s.phdr s.frame st) st

theorem elfLoadLoop_state (headers : List Phdr) :
    ∀ (i : Nat) (st : LoadState) (maxEnd : Nat),
      (elfLoadLoop data base frames i headers st maxEnd).1 = loadAll data base (segsFrom frames nodes i headers) st := by
  induction headers with
  | nil => exact fun i st maxEnd => rfl
  | cons p rest ih =>
    intro i st maxEnd
    rw [elfLoadLoop, segsFrom]
    by_cases other : p.pType ≠ ptLoad
    · rw [if_pos other, if_pos other]
      exact ih (i + 1) st _
    · rw [if_neg other, if_neg other]
      exact ih (i + 1) _ _

theorem elfLoad_state (st : LoadState) :
    (elfLoad data base frames st).1 = loadAll data base (segs data frames nodes) st :=
  elfLoadLoop_state data base frames nodes (phdrs data) 0 st 0

/-- The areas of the segments are registered one after the other. -/
def registerAll (nil fuel base : Nat) : List Seg → VirtualMemoryPage → Option VirtualMemoryPage
  | [], vmPage => some vmPage
  | s :: rest, vmPage => do
    let vmPage ← Sys.registerArea nil fuel vmPage s.node s.frame (u64 (base + s.phdr.alignedVaddr))
      (u64 (s.phdr.sz * 4096)) (elfPflagsToPageFlags s.phdr.pFlags)
    registerAll nil fuel base rest vmPage

theorem registerElfVmas_loop
    (headers : List Phdr) : ∀ (i : Nat) (st : LoadState) (maxEnd : Nat) (vmPage : VirtualMemoryPage),
      registerElfVmas nil fuel base nodes i (elfLoadLoop data base frames i headers st maxEnd).2.1 vmPage =
        registerAll nil fuel base (segsFrom frames nodes i headers) vmPage := by
  induction headers with
  | nil => exact fun i st maxEnd vmPage => rfl
  | cons p rest ih =>
    intro i st maxEnd vmPage
    rw [elfLoadLoop, segsFrom]
    by_cases other : p.pType ≠ ptLoad
    · rw [if_pos other, if_pos other]
      exact ih (i + 1) st _ vmPage
    · rw [if_neg other, if_neg other]
      rw [registerElfVmas, if_pos (show (mmapEntry base p (frames i)).mapped = true from rfl), registerAll]
      congr 1
      funext vmPage'
      exact ih (i + 1) _ _ vmPage'

theorem registerElfVmas_elfLoad
    (st : LoadState) (vmPage : VirtualMemoryPage) :
    registerElfVmas nil fuel base nodes 0 (elfLoad data base frames st).2.1 vmPage =
      registerAll nil fuel base (segs data frames nodes) vmPage :=
  registerElfVmas_loop nil fuel data base frames nodes (phdrs data) 0 st 0 vmPage

end Voxia.Exec
