/-
**Open files, the descriptor tables of the processes, and the system calls on them.**

An open file (`struct file_descriptor`) is shared by the slots of descriptor tables that point to it: by `dup`, `dup2`
and `fcntl` inside a process, by `fork` between processes. `close` and the reaping of a process (`free_fdtable`) drop
references; the last one releases the file: its buffer is flushed, a pipe's end is closed, and the reference on the
dentry is given back. The log `released` records every such release.

An open file is named by the number of its `alloc_fd`, which is never used again. What lies below the calls is a
parameter (`FileSystem`), as are the answers of the parts of the kernel that can make a call fail. Names under `/proc`
and `next_fd`, which only they use, are left out. Memory is always available.
-/

import Voxia.Machine
import Mathlib.Data.Fintype.Basic
import Mathlib.Data.List.FinRange
import Mathlib.Logic.Function.Basic

namespace Voxia.Fd

open Function

/-- `INITIAL_MAX_FDS`: no table ever has another size. -/
abbrev maxFds : Nat := 64

def eNoEnt : Int := 2
def eIo : Int := 5
def eBadf : Int := 9
def eNoMem : Int := 12
def eIsDir : Int := 21
def eInval : Int := 22
def eMFile : Int := 24
def eNoTty : Int := 25
def eNoSpc : Int := 28
def eSPipe : Int := 29

inductive VnodeType
  | file | dir | dev | chr | blk | fifo | sock | lnk
  deriving DecidableEq

/-- What the calls read of a vnode; `fsInstance` says whether it belongs to a mounted file system. -/
structure Vnode where
  id : Nat
  type : VnodeType
  fsInstance : Bool

/-- Which of the operations `read` and `write` a `vops_file_t` has. -/
structure VopsFile where
  read : Bool
  write : Bool

/-- An open file. The write buffer is null or holds its first `write_buffer_size` bytes. -/
structure FileDescriptor where
  count : Int
  vnode : Option Vnode
  dentry : Option Nat
  ops : Option VopsFile
  pos : Nat
  privateData : Bool
  writeBuffer : Option (List UInt8)

def FileDescriptor.pending (file : FileDescriptor) : List UInt8 := file.writeBuffer.getD []

/-- `curr_fd->pos - curr_fd->write_buffer_size`, a `size_t`. -/
def FileDescriptor.bufferOffset (file : FileDescriptor) : Nat :=
  u64 (file.pos + (2 ^ 64 - file.pending.length))

/-- The state below the calls: files by the number of their vnode, sockets by the number of the open file. -/
structure FileSystem (σ : Type) where
  read : σ → Nat → Nat → Nat → Except Int (List UInt8) × σ
  write : σ → Nat → List UInt8 → Nat → Int × σ
  truncate : σ → Nat → σ
  size : σ → Nat → Nat
  send : σ → Nat → List UInt8 → Int × σ
  receive : σ → Nat → Nat → Except Int (List UInt8) × σ

structure FdTable where
  fds : Fin maxFds → Option Nat
  fdFlags : Fin maxFds → Nat

/-- The final release of an open file: what was flushed and where, whether a pipe's end was closed, and
the dentry that lost a reference. -/
structure Release where
  file : Nat
  flushed : Option (List UInt8 × Nat)
  pipeEnd : Bool
  dentry : Option Nat

/-- All open files and all processes, by number. A process that does not exist has no table. -/
structure Files (σ : Type) where
  files : Nat → FileDescriptor
  next : Nat
  procs : Nat → Option FdTable
  exited : Nat → Bool
  nextProc : Nat
  released : List Release
  fs : σ

variable {σ : Type}

/-! ### Slots -/

variable (sys : FileSystem σ) (st : Files σ)

def held (slot : Nat × Fin maxFds) : Option Nat := (st.procs slot.1).bind fun table => table.fds slot.2

variable (f : Nat) (vnode : Vnode) (data : List UInt8) (p : Nat) (fd : Int)

def slotOf : Option (Fin maxFds) :=
  if inside : 0 ≤ fd ∧ fd < maxFds then some ⟨fd.toNat, by omega⟩ else none

def lookup : Option (Fin maxFds × Nat) := do
  let i ← slotOf fd
  let f ← held st (p, i)
  some (i, f)

variable (i : Fin maxFds)

def setSlot (file : Option Nat) : Files σ :=
  let table := (st.procs p).map fun table => { table with fds := update table.fds i file }
  { st with procs := update st.procs p table }

def setFdFlag (flag : Nat) : Files σ :=
  let table := (st.procs p).map fun table => { table with fdFlags := update table.fdFlags i flag }
  { st with procs := update st.procs p table }

def fdFlag : Nat := ((st.procs p).map fun table => table.fdFlags i).getD 0

def lowestFree (p start : Nat) : Option (Fin maxFds) :=
  (List.finRange maxFds).find? fun i => start ≤ i.val ∧ held st (p, i) = none

def setFile (file : FileDescriptor) : Files σ :=
  { st with files := update st.files f file }

/-- `alloc_fd`, with the fields the caller fills in. -/
def allocFd (vnode : Option Vnode) (dentry : Option Nat) (ops : Option VopsFile) (privateData : Bool) : Files σ :=
  { setFile st st.next ⟨1, vnode, dentry, ops, 0, privateData, none⟩ with next := st.next + 1 }

/-- `__atomic_add_fetch(&fd->count.counter, 1)`. -/
def addReference : Files σ :=
  setFile st f { st.files f with count := (st.files f).count + 1 }

/-! ### The release of a file -/

/-- What `close` and `free_fdtable` write back: a nonempty buffer of a regular file that can be written. -/
def flushOnRelease (file : FileDescriptor) : Option (Nat × List UInt8 × Nat) :=
  match file.vnode, file.ops with
  | some vnode, some ops =>
    if file.pending ≠ [] ∧ vnode.type = .file ∧ ops.write then
      some (vnode.id, file.pending, file.bufferOffset)
    else none
  | _, _ => none

/-- `pipe_close_fd` is called for a FIFO. -/
def isFifo (file : FileDescriptor) : Bool := file.vnode.any fun vnode => vnode.type = .fifo

def releaseRecord (file : FileDescriptor) : Release :=
  ⟨f, (flushOnRelease file).map (·.2), isFifo file, file.dentry⟩

def release : Files σ :=
  let file := st.files f
  let fs := match flushOnRelease file with
    | some (vnode, data, offset) => (sys.write st.fs vnode data offset).2
    | none => st.fs
  { setFile st f { file with writeBuffer := none } with
    fs := fs
    released := st.released ++ [releaseRecord f file] }

def dropReference : Files σ :=
  let st := setFile st f { st.files f with count := (st.files f).count - 1 }
  if (st.files f).count = 0 then release sys st f else st

/-! ### Calls that make open files -/

/-- What `open` found: the vnode, the dentry with the reference of `resolve_dentry`, and the operations
the file has in the end. -/
structure OpenTarget where
  vnode : Vnode
  dentry : Nat
  ops : Option VopsFile

/-- `syscall_open` after the path was looked up. The entry under `/proc` is made after the slot is
filled; if that fails the slot is emptied again and the file freed. -/
def syscallOpen (target : Option OpenTarget) (trunc cloexec procEntry : Bool) : Int × Files σ :=
  match target with
  | none => (-eNoEnt, st)
  | some target =>
    let st := if trunc ∧ target.vnode.type = .file then { st with fs := sys.truncate st.fs target.vnode.id } else st
    match lowestFree st p 0 with
    | none => (-eMFile, st)
    | some i =>
      let f := st.next
      let st := allocFd st (some target.vnode) (some target.dentry) target.ops false
      let st := setFdFlag st p i (if cloexec then 1 else 0)
      let st := setSlot st p i (some f)
      if procEntry then (i.val, st)
      else
        let st := setSlot st p i none
        (-1, { st with released := st.released ++ [⟨f, none, false, some target.dentry⟩] })

def pipeEnd (vnode : Nat) (ops : VopsFile) (cloexec : Bool) : Files σ :=
  let f := st.next
  let st := allocFd st (some ⟨vnode, .fifo, false⟩) none (some ops) true
  setFdFlag (setSlot st p i (some f)) p i (if cloexec then 1 else 0)

/-- `syscall_pipe2`: the two lowest empty slots. -/
def syscallPipe2 (cloexec : Bool) (rvnode wvnode : Nat) : Int × Files σ :=
  match lowestFree st p 0 with
  | none => (-eMFile, st)
  | some rfd =>
    match lowestFree st p (rfd.val + 1) with
    | none => (-eMFile, st)
    | some wfd =>
      let st := pipeEnd st p rfd rvnode ⟨true, false⟩ cloexec
      (0, pipeEnd st p wfd wvnode ⟨false, true⟩ cloexec)

/-- `syscall_socket`; `created` says whether `create_socket` made one. -/
def syscallSocket (created cloexec : Bool) : Int × Files σ :=
  if created then
    match lowestFree st p 0 with
    | none => (-eMFile, st)
    | some i =>
      let f := st.next
      let st := allocFd st none none none true
      (i.val, setSlot (setFdFlag st p i (if cloexec then 1 else 0)) p i (some f))
  else (-eNoEnt, st)

/-- `syscall_accept`; `refused` is the error of a socket that is no listening one or has no client. The
flag of the slot stays as it was. -/
def syscallAccept (refused : Option Int) : Int × Files σ :=
  match lookup st p fd with
  | none => (-eBadf, st)
  | some _ =>
    match refused with
    | some err => (err, st)
    | none =>
      match lowestFree st p 0 with
      | none => (-eMFile, st)
      | some i =>
        let f := st.next
        let st := allocFd st none none none true
        (i.val, setSlot st p i (some f))

/-! ### Calls that share and drop references -/

def share (f flag : Nat) : Files σ :=
  setSlot (setFdFlag (addReference st f) p i flag) p i (some f)

/-- `syscall_dup` and the two commands of `syscall_fcntl`: the lowest empty slot from `start` on. -/
def dupFrom (oldfd : Int) (start flag : Nat) : Int × Files σ :=
  match lookup st p oldfd with
  | none => (-eBadf, st)
  | some (_, f) =>
    match lowestFree st p start with
    | none => (-eMFile, st)
    | some newfd => (newfd.val, share st p newfd f flag)

def syscallDup (oldfd : Int) : Int × Files σ := dupFrom st p oldfd 0 0

/-- `F_DUPFD`: a negative start is 0. -/
def fcntlDupfd (fd arg : Int) : Int × Files σ := dupFrom st p fd arg.toNat 0

def fcntlDupfdCloexec (fd arg : Int) : Int × Files σ := dupFrom st p fd arg.toNat 1

def syscallClose : Int × Files σ :=
  match lookup st p fd with
  | none => (-eBadf, st)
  | some (i, f) => (0, dropReference sys (setSlot st p i none) f)

/-- `syscall_dup2`: the file of `oldfd` is read again after the target was closed. -/
def syscallDup2 (oldfd newfd : Int) : Int × Files σ :=
  match lookup st p oldfd, slotOf newfd with
  | some _, some i =>
    if oldfd = newfd then (newfd, st)
    else
      let st := if held st (p, i) ≠ none then (syscallClose sys st p newfd).2 else st
      match lookup st p oldfd with
      | some (_, f) => (newfd, share st p i f 0)
      | none => (-eBadf, st)
  | _, _ => (-eBadf, st)

/-! ### Processes -/

def emptyTable : FdTable := ⟨fun _ => none, fun _ => 0⟩

def createProcess : Files σ :=
  { st with
    procs := update st.procs st.nextProc (some emptyTable)
    exited := update st.exited st.nextProc false
    nextProc := st.nextProc + 1 }

def cloneSlot (parent child : Nat) (st : Files σ) (i : Fin maxFds) : Files σ :=
  match held st (parent, i) with
  | some f => share st child i f (fdFlag st parent i)
  | none => setSlot st child i none

/-- How far `fork_process` comes: no process is made, it fails before the table is copied, or after. -/
inductive ForkOutcome
  | noProcess | beforeFds | cloned

/-- `fork_process`. The process it has made stays even if it fails later. -/
def forkProcess (parent : Nat) (outcome : ForkOutcome) : Files σ :=
  match outcome with
  | .noProcess => st
  | .beforeFds => createProcess st
  | .cloned => (List.finRange maxFds).foldl (cloneSlot parent st.nextProc) (createProcess st)

def closeOnExec (st : Files σ) (i : Fin maxFds) : Files σ :=
  if held st (p, i) ≠ none ∧ fdFlag st p i &&& 1 ≠ 0 then (syscallClose sys st p i.val).2 else st

def execve (success : Bool) : Files σ :=
  if success then (List.finRange maxFds).foldl (closeOnExec sys p) st else st

def freeSlot (table : FdTable) (st : Files σ) (i : Fin maxFds) : Files σ :=
  match table.fds i with
  | some f => dropReference sys st f
  | none => st

def freeFdtable (table : FdTable) : Files σ :=
  let st := (List.finRange maxFds).foldl (freeSlot sys table) st
  { st with procs := update st.procs p none }

def reap (child : Nat) : Files σ :=
  match st.procs child with
  | some table => if st.exited child then freeFdtable sys st child table else st
  | none => st

/-! ### Writing -/

def ensureBuffer : Files σ :=
  setFile st f { st.files f with writeBuffer := some (st.files f).pending }

/-- The buffer handed to `ops->write`; it is not emptied. -/
def writeBack : Int × Files σ :=
  match sys.write st.fs vnode.id (st.files f).pending (st.files f).bufferOffset with
  | (s, fs) => (s, { st with fs := fs })

def clearBuffer : Files σ :=
  setFile st f { st.files f with writeBuffer := some [] }

def advance (f count : Nat) : Files σ :=
  setFile st f { st.files f with pos := u64 ((st.files f).pos + count) }

def appendBuffer : Files σ :=
  advance (setFile st f { st.files f with writeBuffer := some ((st.files f).pending ++ data) }) f data.length

def writeThrough : Int × Files σ :=
  match sys.write st.fs vnode.id data (st.files f).pos with
  | (s, fs) => (s, if 0 < s then advance { st with fs := fs } f s.toNat else { st with fs := fs })

/-- A buffer that is `full` is written back and emptied: the error that ends the call, and the state. -/
def makeRoom (full : Bool) : Option Int × Files σ :=
  if full then
    match writeBack sys st f vnode with
    | (s, st) => if s = 0 ∧ (st.files f).pending ≠ [] then (some (-eNoSpc), st) else (none, clearBuffer st f)
  else (none, st)

/-- The branch of `syscall_write` for a regular file of a mounted file system. -/
def bufferedWrite : Int × Files σ :=
  let st := ensureBuffer st f
  match makeRoom sys st f vnode (4096 < (st.files f).pending.length + data.length) with
  | (some err, st) => (err, st)
  | (none, st) =>
    if 4096 < data.length then
      match writeThrough sys st f vnode data with
      | (s, st) => (if s = 0 then -eNoSpc else s, st)
    else (data.length, appendBuffer st f data)

/-- `syscall_write`, by what it does with a regular file of a mounted file system. -/
def writeWith (fileWrite : FileSystem σ → Files σ → Nat → Vnode → List UInt8 → Int × Files σ)
    (sys : FileSystem σ) (st : Files σ) (p : Nat) (fd : Int) (data : List UInt8) : Int × Files σ :=
  match lookup st p fd with
  | none => (-eBadf, st)
  | some (_, f) =>
    match (st.files f).vnode, (st.files f).ops with
    | none, _ =>
      if (st.files f).privateData then
        match sys.send st.fs f data with
        | (s, fs) => (s, { st with fs := fs })
      else (-eBadf, st)
    | some _, none => (-eBadf, st)
    | some vnode, some ops =>
      if ops.write then
        if vnode.type = .file ∧ vnode.fsInstance then fileWrite sys st f vnode data
        else writeThrough sys st f vnode data
      else (-eNoTty, st)

def toInt (s : Int) : Int := (s + 2 ^ 31) % 2 ^ 32 - 2 ^ 31

def syscallWrite (data : List UInt8) : Int × Files σ :=
  let (s, st) := writeWith bufferedWrite sys st p fd data
  (toInt s, st)

/-! ### Writing several pieces -/

/-- What is done with a piece: the bytes taken, the error that ends the call, and the state. -/
abbrev Taken (σ : Type) := Nat × Option Int × Files σ

/-- The loop of `syscall_writev` over one piece, which goes through the buffer in steps. -/
def fillBuffer (sys : FileSystem σ) (f : Nat) (vnode : Vnode) : Nat → Files σ → List UInt8 → Nat → Taken σ
  | 0, st, _, taken => (taken, none, st)
  | fuel + 1, st, data, taken =>
    if data = [] then (taken, none, st)
    else
      match makeRoom sys st f vnode ((st.files f).pending.length = 4096) with
      | (some err, st) => (taken, some err, st)
      | (none, st) =>
        if (st.files f).pending = [] ∧ 4096 ≤ data.length then
          match writeThrough sys st f vnode data with
          | (s, st) =>
            if 0 < s then fillBuffer sys f vnode fuel st (data.drop s.toNat) (taken + s.toNat)
            else (taken, some (if s = 0 then -eNoSpc else s), st)
        else
          let toCopy := min (4096 - (st.files f).pending.length) data.length
          fillBuffer sys f vnode fuel (appendBuffer st f (data.take toCopy)) (data.drop toCopy) (taken + toCopy)

/-- A piece of a regular file of a mounted file system: every round takes a byte. -/
def bufferedPiece : Taken σ :=
  fillBuffer sys f vnode data.length (ensureBuffer st f) data 0

def plainPiece : Taken σ :=
  match writeThrough sys st f vnode data with
  | (s, st) => if 0 < s then (s.toNat, none, st) else (0, some (if s = 0 then -eNoSpc else s), st)

/-- The loop of `syscall_writev` over the pieces; empty ones are skipped. -/
def writePieces (piece : Files σ → List UInt8 → Taken σ) : Files σ → List (List UInt8) → Nat → Int × Files σ
  | st, [], total => (total, st)
  | st, data :: rest, total =>
    if data = [] then writePieces piece st rest total
    else
      match piece st data with
      | (taken, none, st) => writePieces piece st rest (total + taken)
      | (taken, some err, st) => (if 0 < total + taken then ((total + taken : Nat) : Int) else err, st)

/-- `syscall_writev`, by what it does with a regular file of a mounted file system. -/
def writevWith (filePiece : FileSystem σ → Files σ → Nat → Vnode → List UInt8 → Taken σ)
    (sys : FileSystem σ) (st : Files σ) (p : Nat) (fd : Int) (iov : List (List UInt8)) : Int × Files σ :=
  match lookup st p fd with
  | none => (-eBadf, st)
  | some (_, f) =>
    match (st.files f).vnode, (st.files f).ops with
    | none, _ => (-eBadf, st)
    | some _, none => (-eNoTty, st)
    | some vnode, some ops =>
      if ops.write then
        if iov = [] then (-eInval, st)
        else if vnode.type = .file ∧ vnode.fsInstance then
          writePieces (fun st data => filePiece sys st f vnode data) st iov 0
        else writePieces (fun st data => plainPiece sys st f vnode data) st iov 0
      else (-eNoTty, st)

def syscallWritev (iov : List (List UInt8)) : Int × Files σ :=
  writevWith bufferedPiece sys st p fd iov

/-! ### Reading and seeking -/

def syscallRead (count : Nat) : Except Int (List UInt8) × Files σ :=
  match lookup st p fd with
  | none => (.error (-eBadf), st)
  | some (_, f) =>
    match (st.files f).vnode, (st.files f).ops with
    | none, _ =>
      if (st.files f).privateData then
        match sys.receive st.fs f count with
        | (answer, fs) => (answer, { st with fs := fs })
      else (.error (-eBadf), st)
    | some _, none => (.error (-eBadf), st)
    | some vnode, some ops =>
      if vnode.type = .dir then (.error (-eIsDir), st)
      else if ops.read then
        -- `kalloc(0)` gives no buffer
        if count = 0 then (.error (-eNoMem), st)
        else
          match sys.read st.fs vnode.id count (st.files f).pos with
          | (.ok bytes, fs) => (.ok bytes, advance { st with fs := fs } f bytes.length)
          | (.error err, fs) => (.error err, { st with fs := fs })
      else (.error (-eInval), st)

def toLong (n : Nat) : Int := if n < 2 ^ 63 then n else (n : Int) - 2 ^ 64

def int64Max : Int := 2 ^ 63 - 1

/-- The new position of `syscall_lseek`: `SEEK_SET`, `SEEK_CUR` and `SEEK_END` are 0, 1 and 2. -/
def seekTarget (pos size : Nat) (offset : Int) (whence : Nat) : Option Int :=
  match whence with
  | 0 => if offset < 0 then none else some offset
  | 1 =>
    if 0 < offset then if int64Max - offset < pos then none else some (toLong pos + offset)
    else if offset < 0 then if (pos : Int) < -offset then none else some (toLong (pos - offset.natAbs))
    else some (toLong pos)
  | 2 =>
    if 0 < offset then if int64Max - offset < toLong size then none else some (toLong size + offset)
    else if offset < 0 then if toLong size < -offset then none else some (toLong size + offset)
    else some (toLong size)
  | _ => none

/-- The flush at the start of `syscall_lseek`: the error that ends the call, and the state. -/
def flushOnSeek : Option Int × Files σ :=
  if (st.files f).pending ≠ [] ∧ vnode.type = .file then
    if (st.files f).ops.any (·.write) then
      match writeBack sys st f vnode with
      | (s, st) => if s ≤ 0 then (some (if s < 0 then s else -eIo), st) else (none, clearBuffer st f)
    else (none, clearBuffer st f)
  else (none, st)

def syscallLseek (fd offset : Int) (whence : Nat) : Int × Files σ :=
  match lookup st p fd with
  | none => (-eBadf, st)
  | some (_, f) =>
    match (st.files f).vnode with
    | none => (-eBadf, st)
    | some vnode =>
      if vnode.type = .fifo ∨ vnode.type = .sock then (-eSPipe, st)
      else
        match flushOnSeek sys st f vnode with
        | (some err, st) => (err, st)
        | (none, st) =>
          match seekTarget (st.files f).pos (sys.size st.fs vnode.id) offset whence with
          | none => (-eInval, st)
          | some target => (target, setFile st f { st.files f with pos := (target % 2 ^ 64).toNat })

/-! ### Runs -/

/-- The calls, with what the rest of the kernel answers. `create` is a process started by the kernel. -/
inductive Call
  | create
  | openFile (target : Option OpenTarget) (trunc cloexec procEntry : Bool)
  | pipe2 (cloexec : Bool) (rvnode wvnode : Nat)
  | socket (created cloexec : Bool)
  | accept (fd : Int) (refused : Option Int)
  | dup (fd : Int)
  | dup2 (oldfd newfd : Int)
  | dupfd (fd arg : Int)
  | dupfdCloexec (fd arg : Int)
  | fork (outcome : ForkOutcome)
  | close (fd : Int)
  | execve (success : Bool)
  | exit
  | reap (child : Nat)
  | write (fd : Int) (data : List UInt8)
  | writev (fd : Int) (iov : List (List UInt8))
  | read (fd : Int) (count : Nat)
  | lseek (fd offset : Int) (whence : Nat)

inductive Answer
  | value (n : Int)
  | bytes (data : List UInt8)
  deriving DecidableEq

def answerRead (result : Except Int (List UInt8) × Files σ) : Answer × Files σ :=
  match result with
  | (.ok data, st) => (.bytes data, st)
  | (.error err, st) => (.value err, st)

def answerValue (result : Int × Files σ) : Answer × Files σ := (.value result.1, result.2)

/-- A call of process `p`, which exists and has not exited. -/
def perform : Call → Answer × Files σ
  | .create => (.value 0, createProcess st)
  | .openFile target trunc cloexec procEntry => answerValue (syscallOpen sys st p target trunc cloexec procEntry)
  | .pipe2 cloexec rvnode wvnode => answerValue (syscallPipe2 st p cloexec rvnode wvnode)
  | .socket created cloexec => answerValue (syscallSocket st p created cloexec)
  | .accept fd refused => answerValue (syscallAccept st p fd refused)
  | .dup fd => answerValue (syscallDup st p fd)
  | .dup2 oldfd newfd => answerValue (syscallDup2 sys st p oldfd newfd)
  | .dupfd fd arg => answerValue (fcntlDupfd st p fd arg)
  | .dupfdCloexec fd arg => answerValue (fcntlDupfdCloexec st p fd arg)
  | .fork outcome => (.value st.nextProc, forkProcess st p outcome)
  | .close fd => answerValue (syscallClose sys st p fd)
  | .execve success => (.value 0, execve sys st p success)
  | .exit => (.value 0, { st with exited := update st.exited p true })
  | .reap child => (.value child, reap sys st child)
  | .write fd data => answerValue (syscallWrite sys st p fd data)
  | .writev fd iov => answerValue (syscallWritev sys st p fd iov)
  | .read fd count => answerRead (syscallRead sys st p fd count)
  | .lseek fd offset whence => answerValue (syscallLseek sys st p fd offset whence)

/-- Only a process that exists and has not exited makes calls. -/
def step (perform : Files σ → Nat → Call → Answer × Files σ) (st : Files σ) (p : Nat) (call : Call) :
    Answer × Files σ :=
  if (st.procs p).isSome ∧ st.exited p = false then perform st p call else (.value 0, st)

def run (perform : Files σ → Nat → Call → Answer × Files σ) : Files σ → List (Nat × Call) → List Answer × Files σ
  | st, [] => ([], st)
  | st, (p, call) :: rest =>
    let (answer, st) := step perform st p call
    let (answers, st) := run perform st rest
    (answer :: answers, st)

def start (fs : σ) : Files σ where
  files := fun _ => ⟨0, none, none, none, 0, false, none⟩
  next := 0
  procs := fun p => if p = 0 then some emptyTable else none
  exited := fun _ => false
  nextProc := 1
  released := []
  fs := fs

end Voxia.Fd
