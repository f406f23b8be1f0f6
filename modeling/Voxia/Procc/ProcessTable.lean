/-
**The process table: pids, the hash buckets and the list of all processes.**

A process is linked into two circular lists (`procc/process.c`): the bucket of its pid, where a new process becomes
the first, and the list of all processes, where it becomes the last. `destroy_process` frees the pid and takes the
process out of the list of all processes; it does not take it out of its bucket, and it moves the head of the list
only if the process was the only one.

Records are named by their address in the slab cache. `slab_free` writes in front of the object only, so a freed
record keeps its fields until `vxSlabAlloc` gives its address out again. The rest of a process is left out.
-/

import Voxia.Lib.BitWords
import Voxia.Lib.Ring

namespace Voxia.Procc

open Function Lib

def pidBytes : Nat := 524288

def maxPid : Nat := 8 * pidBytes

def invalidPid : Nat := 2 ^ 32 - 1

/-- The two circular lists a process is in: its bucket, and the list of all processes. -/
inductive Links
  | cache | all
  deriving DecidableEq

structure ProcessNode where
  pid : Nat
  next : Links → Nat
  prev : Links → Nat

structure ProcessTable where
  mem : Nat → ProcessNode
  bucket : Nat → Option Nat
  processList : Option Nat
  pidBitmap : Nat → BitVec 8
  lastPidIndex : Nat

/-! ### Pids -/

/-- `__builtin_ctz(~byte & 0xFF)`. -/
def lowestZero (byte : BitVec 8) : Option Nat := (List.range 8).find? fun bit => !byte.getLsbD bit

/-- The loop of `alloc_pid` from round `i` on: the pid it finds. -/
def scanPids (t : ProcessTable) : Nat → Nat → Option Nat
  | 0, _ => none
  | rounds + 1, i =>
    let idx := (t.lastPidIndex + i) % pidBytes
    match lowestZero (t.pidBitmap idx) with
    | none => scanPids t rounds (i + 1)
    | some bit => some (8 * idx + bit)

variable (t : ProcessTable)

def allocPid : Nat × ProcessTable :=
  match scanPids t pidBytes 0 with
  | some pid => (pid, { t with pidBitmap := orBit t.pidBitmap pid, lastPidIndex := pid / 8 })
  | none => (invalidPid, t)

def freePid (pid : Nat) : ProcessTable := { t with pidBitmap := andNotBit t.pidBitmap pid }

/-! ### The two lists -/

variable (which : Links) (p : Nat)

def setNode (node : ProcessNode) : ProcessTable :=
  { t with mem := update t.mem p node }

def setNext (p next : Nat) : ProcessTable :=
  setNode t p { t.mem p with next := update (t.mem p).next which next }

def setPrev (p prev : Nat) : ProcessTable :=
  setNode t p { t.mem p with prev := update (t.mem p).prev which prev }

/-- `n->next = n->prev = n`. -/
def linkSelf : ProcessTable :=
  setNext (setPrev t which p p) which p p

/-- A process is linked before the head `h`, that is at the end of the list. -/
def linkBefore (h p : Nat) : ProcessTable :=
  let tail := (t.mem h).prev which
  let t := setNext t which tail p
  let t := setPrev t which p tail
  let t := setNext t which p h
  setPrev t which h p

def cacheInsert : ProcessTable :=
  let idx := (t.mem p).pid % 256
  let t := linkSelf t .cache p
  let t := match t.bucket idx with
    | some h => linkBefore t .cache h p
    | none => t
  { t with bucket := update t.bucket idx (some p) }

def listInsert : ProcessTable :=
  let t := linkSelf t .all p
  match t.processList with
  | none => { t with processList := some p }
  | some h => linkBefore t .all h p

def createProcess : ProcessTable :=
  let (pid, t) := allocPid t
  let t := setNode t p ⟨pid, fun _ => 0, fun _ => 0⟩
  listInsert (cacheInsert t p) p

def destroyProcess : ProcessTable :=
  let t := freePid t (t.mem p).pid
  let prev := (t.mem p).prev .all
  let next := (t.mem p).next .all
  if prev = p then
    if next = p then { t with processList := none } else { t with processList := some next }
  else setNext (setPrev t .all next prev) .all prev next

/-- What `find_process_by_pid` does: it returns a process or `NULL`, or it reads through the null
pointer of an empty bucket, or it goes on for longer than `fuel` rounds. -/
inductive Find
  | process (p : Nat)
  | null
  | fault
  | running
  deriving DecidableEq

def findProcessByPid (fuel : Nat) (t : ProcessTable) (pid : Nat) : Find :=
  match t.bucket (pid % 256) with
  | none => .fault
  | some h =>
    match findAround (fun p => (t.mem p).next .cache) (fun p => (t.mem p).pid == pid) h fuel h with
    | some (some p) => .process p
    | some none => .null
    | none => .running

def emptyProcessTable : ProcessTable where
  mem := fun _ => ⟨0, fun _ => 0, fun _ => 0⟩
  bucket := fun _ => none
  processList := none
  pidBitmap := fun _ => 0
  lastPidIndex := 0

end Voxia.Procc
