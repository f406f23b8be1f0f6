/-
**Replacing the program of a process.**

`run_process_at_proc` (`procc/process.c`) looks the file up, clears the address space of the caller (`vma_unmap_all`),
reads the file, places it and its interpreter, loads both, builds the stack, and at the end sets the registers, the
name and the heap and registers the areas. It returns an error at eight places, three of them before the address space
is cleared (`locate`). What it reads from outside the process is one record (`ExecEnv`). A null pointer that is
followed is the outcome `fault`.
-/

import Voxia.Exec.Stack

namespace Voxia.Exec

open Lib Cpu Memory
open Vfs (CStr)

def eNoEnt : Int := 2
def eNoExec : Int := 8
def eAcces : Int := 13

/-! ### Files -/

inductive VnodeType
  | file
  | lnk
  | other
  deriving DecidableEq

/-- What is read of a vnode: `link` is what `readlink` gives, `data` what `read` gives. -/
structure FileNode where
  type : VnodeType
  size : Nat
  link : CStr
  data : Bytes
  hasOps : Bool

structure FileDentry where
  name : CStr
  parent : Option Nat
  vnode : Option FileNode

/-- What the call finds outside the process. `frames i` and `nodes i` are what the allocators return for
program header `i`; `fileBuffer` and `interpBuffer` say whether `kalloc` succeeds. -/
structure ExecEnv where
  resolve : CStr → Option Nat → Option Nat
  dentry : Nat → FileDentry
  fileBuffer : Bool
  frames : Nat → Nat
  nodes : Nat → Nat
  interpBuffer : Bool
  interpFrames : Nat → Nat
  interpNodes : Nat → Nat
  stackPhys : Nat
  stackNode : Nat
  relocate : Bytes → LoadState → Bytes

/-- A step that can fail with a code, or follow a null pointer. -/
inductive Found (α : Type)
  | error (code : Int)
  | fault
  | found (a : α)

/-- The part of `run_process_at_proc` before the address space is cleared. -/
def locate (env : ExecEnv) (cwd : Option Nat) (path : CStr) : Found Nat :=
  let baseDir := if path.head? = some Vfs.slash then none else cwd
  match env.resolve path baseDir with
  | none => .error (-eNoEnt)
  | some d =>
    match (env.dentry d).vnode with
    | none => .error (-eAcces)
    | some vnode =>
      match vnode.type with
      | .other => .error (-eAcces)
      | .file => .found d
      | .lnk =>
        match env.resolve vnode.link (env.dentry d).parent with
        | none => .error (-eNoEnt)
        -- the size of the target is printed
        | some target => if (env.dentry target).vnode.isNone then .fault else .found target

/-- `load_executable_buffer`: the dentry the file was read from, and what was read. -/
def loadExecutableBuffer (env : ExecEnv) (d : Nat) : Found (Nat × FileNode) :=
  match (env.dentry d).vnode with
  | none => .fault
  | some vnode =>
    match vnode.type with
    | .file =>
      if ¬ env.fileBuffer then .error (-eNoExec)
      else if ¬ vnode.hasOps then .fault
      else .found (d, vnode)
    | .lnk =>
      match env.resolve vnode.link (env.dentry d).parent with
      | none => .error (-eNoExec)
      | some target =>
        match (env.dentry target).vnode with
        | none => .fault
        | some vnode =>
          if ¬ env.fileBuffer then .error (-eNoExec)
          else if ¬ vnode.hasOps then .fault
          else .found (target, vnode)
    | .other => .error (-eNoExec)

def etExec : Nat := 2
def etDyn : Nat := 3
def ptDynamic : Nat := 2

def validateElfHeader (ehdr : Ehdr) : Bool :=
  ehdr.eIdent == [0x7f, 0x45, 0x4c, 0x46] && (ehdr.eType == etDyn || ehdr.eType == etExec)

def elfCountLoadSize (data : Bytes) : Nat :=
  (phdrs data).foldl (fun maxEnd p =>
    if p.pType ≠ ptLoad then maxEnd else max maxEnd (alignUp (u64 (p.pVaddr + p.pMemsz)) blockSize)) 0

/-- `get_elf_memory_bounds`: `base_vaddr` and the start of the heap. -/
def getElfMemoryBounds (data : Bytes) (base : Nat) : Nat × Nat :=
  let baseVaddr := (phdrs data).foldl (fun b p =>
    if p.pVaddr > 0 then (if b = 0 then p.pVaddr else min b p.pVaddr) else b) 0
  let heapStart := (phdrs data).foldl (fun h p =>
    if p.pType = ptLoad then max h (u64 (base + p.pVaddr + p.pMemsz)) else h) 0
  (baseVaddr, alignUp heapStart 0x1000)

def stringAt (file : FileNode) (off : Nat) : CStr :=
  ((List.range (file.size - off)).map fun i => file.data (off + i)).takeWhile (· != 0)

/-- `find_elf_interpreter`: the dentry of the interpreter, if the file names one. -/
def findElfInterpreter (env : ExecEnv) (file : FileNode) : Found (Option Nat) :=
  match (phdrs file.data).find? fun p => p.pType == ptInterp with
  | none => .found none
  | some p =>
    match env.resolve (stringAt file p.pOffset) none with
    | none => .error (-1)
    | some d => .found (some d)

/-- The part of `setup_interp` that finds and reads the file. An interpreter that is no link leaves
`interp_link_dentry` null. -/
def interpFile (env : ExecEnv) (d : Nat) : Found FileNode :=
  match (env.dentry d).vnode with
  | none => .fault
  | some vnode =>
    if vnode.type ≠ .lnk then .fault
    else
      match env.resolve vnode.link none with
      | none => .error (-1)
      | some target =>
        match (env.dentry target).vnode with
        | none => .fault
        | some file => if ¬ env.interpBuffer ∨ ¬ file.hasOps then .error (-1) else .found file

/-! ### The process -/

structure UserRegs where
  rip : Nat
  rsp : Nat
  cs : Nat
  ss : Nat
  rflags : Nat
  rbp : Nat
  deriving DecidableEq

/-- What the call reads and writes of the process, and physical memory. `regs` is the frame of the system
call, if the caller gives one. -/
structure ExecProc where
  pid : Nat
  space : Sys.UserSpace
  phys : Bytes
  cwd : Option Nat
  name : CStr
  regs : Option UserRegs
  stackBase : Nat
  stackTop : Nat
  pidSmall : pid < 2 ^ 31

/-- What the call returns with the state it leaves, or that it follows a null pointer. -/
inductive Outcome
  | ret (value : Int) (p : ExecProc)
  | fault

def vmaUnmapAllRecursive (nil : Nat) : Nat → VmaTree → Nat → PageDir → Option PageDir
  | 0, _, _, _ => none
  | fuel + 1, tree, node, dir =>
    if node = nil ∨ node = 0 then some dir
    else do
      let dir ← vmaUnmapAllRecursive nil fuel tree (tree.heap node).left dir
      let dir ← vmaUnmapAllRecursive nil fuel tree (tree.heap node).right dir
      match (tree.heap node).data with
      | none => some dir
      | some vma =>
        let size := u64 (vma.endAddress + 2 ^ 64 - vma.startAddress)
        let pages := u64 (size + 4095) / blockSize
        some (pagingMultipleUnmap dir vma.startAddress (if pages = 0 then 1 else pages))

/-- `vma_unmap_all`: five of the six zones are freed. -/
def vmaUnmapAll (nil fuel : Nat) (s : Sys.UserSpace) : Option Sys.UserSpace := do
  let page ← vmaUnmapAllRecursive nil fuel s.vmPage.tree s.vmPage.tree.root s.page
  some { s with
    page := page
    vmPage :=
      { tree := { s.vmPage.tree with root := nil }
        zone := fun r => if r = .userMmap then s.vmPage.zone r else [] } }

def temporaryBase (table : List MmapEntry) : Nat :=
  match table.find? fun t => t.mapped with
  | none => 0
  | some t => t.vaddr

/-- The program a stack and areas are set up for: its header and dentry, where it was loaded, and the same
for its interpreter, with base 0 if there is none. -/
structure LoadedProgram where
  dentry : Nat
  ehdr : Ehdr
  base : Nat
  baseVaddr : Nat
  heapStart : Nat
  table : List MmapEntry
  interpEhdr : Ehdr
  interpBase : Nat
  interpTable : List MmapEntry

section Exec

variable (nil fuel : Nat) (env : ExecEnv)

/-- The areas of the program, of its interpreter and of the stack. -/
def registerProgram (l : LoadedProgram) (vmPage : VirtualMemoryPage) : Option VirtualMemoryPage :=
  (registerElfVmas nil fuel l.base env.nodes 0 l.table vmPage).bind fun vmPage =>
    (if l.interpBase ≠ 0 then registerElfVmas nil fuel l.interpBase env.interpNodes 0 l.interpTable vmPage
      else some vmPage).bind fun vmPage =>
      Sys.registerArea nil fuel vmPage env.stackNode env.stackPhys userStackBottom userStackSize 7

section

variable (path : CStr) (argv envp : List CStr) (l : LoadedProgram)

def programStack (st : LoadState) : Nat × LoadState :=
  let entryAddr := if l.ehdr.eType = etExec then l.ehdr.eEntry else u64 (l.ehdr.eEntry + l.base)
  let phdrVaddr := if l.ehdr.eType = etExec then u64 (l.baseVaddr + l.ehdr.ePhoff) else u64 (l.base + l.ehdr.ePhoff)
  setupProcessStack path argv envp l.ehdr entryAddr phdrVaddr l.interpBase env.stackPhys st

/-- Where the program starts: in its interpreter, if it has one. -/
def entr : Nat :=
  if l.interpBase ≠ 0 then u64 (l.interpBase + l.interpEhdr.eEntry)
  else if l.ehdr.eType = etExec then l.ehdr.eEntry
  else u64 (l.ehdr.eEntry + l.base)

/-- The end of `run_process_at_proc`, from the stack on. -/
def startProgram (p : ExecProc) : Option Outcome :=
  let stacked := programStack env path argv envp l ⟨p.phys, p.space.page⟩
  (registerProgram nil fuel env l p.space.vmPage).bind fun vmPage =>
    some (.ret p.pid
      { p with
        space := ⟨stacked.2.page, vmPage, l.heapStart, l.heapStart⟩
        phys := stacked.2.phys
        name := (env.dentry l.dentry).name
        regs := p.regs.map fun _ => ⟨entr l, stacked.1, 0x4b, 0x43, 0x202, 0⟩
        stackBase := userStackBottom
        stackTop := stacked.1 })

/-- `setup_interp` and what follows it; `l` has the program without its interpreter. -/
def startInterp (interp : Option Nat) (l : LoadedProgram) (p : ExecProc) : Option Outcome :=
  match interp with
  | none => startProgram nil fuel env path argv envp l p
  | some d =>
    match interpFile env d with
    | .error code => some (.ret code p)
    | .fault => some .fault
    | .found file => do
      let (interpBase, vmPage) ← vmaLookupFreeVaddr nil fuel p.space.vmPage .userMmap
        (Sys.pagesOf (u64 (1 + elfCountLoadSize file.data)))
      match elfLoad file.data interpBase env.interpFrames ⟨p.phys, p.space.page⟩ with
      | (st, table, _) =>
        startProgram nil fuel env path argv envp
          { l with interpEhdr := readEhdr file.data, interpBase := interpBase, interpTable := table }
          { p with phys := st.phys, space := { p.space with page := st.page, vmPage := vmPage } }

def relocateDynamicElf (data : Bytes) (interp : Option Nat) (st : LoadState) : Bytes :=
  if ((phdrs data).any fun p => p.pType == ptDynamic) ∧ interp = none then env.relocate data st else st.phys

/-- The base address of a program: the free address found, unless it is linked to fixed addresses. -/
def programBase (ehdr : Ehdr) (free : Nat) : Nat := if ehdr.eType = etExec then 0 else free

/-- The part of `run_process_at_proc` from the header of the file on. -/
def loadProgram (d : Nat) (file : FileNode) (p : ExecProc) : Option Outcome :=
  let data := file.data
  if ¬ validateElfHeader (readEhdr data) then some (.ret (-eNoExec) p)
  else do
    let (free, vmPage) ← vmaLookupFreeVaddr nil fuel p.space.vmPage .process
      (Sys.pagesOf (u64 (1 + elfCountLoadSize data)))
    let p := { p with space := { p.space with vmPage := vmPage } }
    let base := programBase (readEhdr data) free
    match findElfInterpreter env file with
    | .error _ => some (.ret (-eNoExec) p)
    | .fault => some .fault
    | .found interp =>
      match elfLoad data base env.frames ⟨p.phys, p.space.page⟩ with
      | (st, table, _) =>
        let p := { p with phys := st.phys, space := { p.space with page := st.page } }
        if temporaryBase table = 0 then some (.ret (-2) p)
        else
          let bounds := getElfMemoryBounds data base
          startInterp nil fuel env path argv envp interp
            { dentry := d, ehdr := readEhdr data, base := base, baseVaddr := bounds.1, heapStart := bounds.2
              table := table, interpEhdr := readEhdr data, interpBase := 0, interpTable := [] }
            { p with phys := relocateDynamicElf env data interp st }

def runProcessAtProc (p : ExecProc) : Option Outcome :=
  match locate env p.cwd path with
  | .error code => some (.ret code p)
  | .fault => some .fault
  | .found d => do
    let space ← vmaUnmapAll nil fuel p.space
    let p := { p with space := space }
    match loadExecutableBuffer env d with
    | .error code => some (.ret code p)
    | .fault => some .fault
    | .found (d, file) => loadProgram nil fuel env path argv envp d file p

end

end Exec

end Voxia.Exec
