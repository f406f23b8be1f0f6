/-
**Pipes.**

A pipe (`sys/syscall/pipe.c`) is a ring of 4096 bytes with two counters, and one open file for each end.
`pipe_read` and `pipe_write` run side by side: each is cut here where it loads or stores a counter that
the other side uses, so any two such places can be interleaved. A thread that blocks may go on at any
time; whom a wake-up reaches is left out, as are the messages on the serial line.

The open file of an end has a count of descriptors (`dup`, `fork` and `close` change it), and the release
of the last one calls `pipe_close_fd`, which takes one off the count of the end (`pipe_dup_fd` has no
caller, so the counts of the ends are only taken down). One reader and one writer are active at a time.
-/

import Voxia.Lib.RingBytes
import Voxia.Lib.Traces
import Voxia.Machine

namespace Voxia.Sys.Pipe

open Lib

def ePipe : Int := 32
def eAgain : Int := 11

def pipeMaxRingBuffer : Nat := 4096

def sub64 (a b : Nat) : Nat := u64 (a + (2 ^ 64 - b))

structure PipeRing where
  buf : Bytes
  head : Nat
  tail : Nat

variable (ring : PipeRing)

/-- What `pipe_ring_write` takes of `len` bytes, by the counters as they are when it loads them. -/
def PipeRing.writeLen (len : Nat) : Nat :=
  let avail := sub64 pipeMaxRingBuffer (sub64 ring.head ring.tail)
  if len > avail then avail else len

/-- What `pipe_ring_read` takes, by the counters as they are when it loads them. -/
def PipeRing.readLen (len : Nat) : Nat :=
  let avail := sub64 ring.head ring.tail
  if len > avail then avail else len

/-- The copies of `pipe_ring_write`: `head & mask` is the slot of `head`. -/
def PipeRing.put (block : Bytes) (len : Nat) : PipeRing :=
  { ring with buf := ringStore pipeMaxRingBuffer ring.buf ring.head block len }

def PipeRing.get (len : Nat) : List UInt8 :=
  (List.range len).map (ringLoad pipeMaxRingBuffer ring.buf ring.tail len)

/-! ### Calls in progress -/

/-- A call of `pipe_read`; `nonblock` is `O_NONBLOCK` of the open file. -/
structure ReadCall where
  len : Nat
  nonblock : Bool

inductive ReadPc
  /-- before `pipe_ring_read` -/
  | start
  /-- the counters are loaded, `count` bytes are there to be taken -/
  | copying (count : Nat)
  /-- the bytes are copied, the tail is not yet stored -/
  | storing (out : List UInt8)
  /-- the ring was empty; before the load of `writer_count` -/
  | empty
  | blocked

/-- A call of `pipe_write` that has put the first `written` bytes of its buffer in the ring. -/
structure WriteCall where
  data : List UInt8
  nonblock : Bool
  written : Nat

inductive WritePc
  /-- before the first load of `reader_count` -/
  | entry
  /-- at the test of the loop -/
  | loop
  /-- the counters are loaded, there is room for `count` bytes -/
  | copying (count : Nat)
  /-- the bytes are copied, the head is not yet stored -/
  | storing (count : Nat)
  /-- the ring was full; before the load of `reader_count` -/
  | full
  | blocked

/-- A pipe: `struct internal_pipe`, the numbers of descriptors of its two open files, the calls in
progress, and what all calls so far have returned and reported. -/
structure State where
  ring : PipeRing
  readerCount : Int
  writerCount : Int
  readRefs : Nat
  writeRefs : Nat
  reader : Option (ReadCall × ReadPc)
  writer : Option (WriteCall × WritePc)
  returned : List UInt8
  reported : List UInt8

variable (s : State)

/-- The bytes of the write in progress that are already in the ring: the call will report them. -/
def State.pending : List UInt8 :=
  match s.writer with
  | some (call, _) => call.data.take call.written
  | none => []

def State.written : List UInt8 := s.reported ++ s.pending

inductive Event
  | read (len : Nat) (result : Int)
  | write (len : Nat) (result : Int)

/-! ### Steps -/

def finishRead (call : ReadCall) (out : List UInt8) (result : Int) : State × List Event :=
  ({ s with reader := none, returned := s.returned ++ out }, [.read call.len result])

def readStep (call : ReadCall) : ReadPc → State × List Event
  | .start =>
    let count := s.ring.readLen call.len
    if 0 < count then ({ s with reader := some (call, .copying count) }, [])
    else if call.len = 0 then finishRead s call [] 0
    else ({ s with reader := some (call, .empty) }, [])
  | .copying count => ({ s with reader := some (call, .storing (s.ring.get count)) }, [])
  | .storing out =>
    finishRead { s with ring := { s.ring with tail := u64 (s.ring.tail + out.length) } } call out out.length
  | .empty =>
    if s.writerCount = 0 then finishRead s call [] 0
    else if call.nonblock then finishRead s call [] (-eAgain)
    else ({ s with reader := some (call, .blocked) }, [])
  | .blocked => ({ s with reader := some (call, .start) }, [])

/-- `pipe_write` returns: with what was written if that is something, and else with an error. -/
def finishWrite (call : WriteCall) (error : Int) : State × List Event :=
  ({ s with writer := none, reported := s.reported ++ call.data.take call.written },
    [.write call.data.length (if 0 < call.written then (call.written : Int) else error)])

def writeStep (call : WriteCall) : WritePc → State × List Event
  | .entry =>
    if s.readerCount = 0 then finishWrite s call (-ePipe)
    else ({ s with writer := some (call, .loop) }, [])
  | .loop =>
    if call.written < call.data.length then
      let count := s.ring.writeLen (call.data.length - call.written)
      if 0 < count then ({ s with writer := some (call, .copying count) }, [])
      else ({ s with writer := some (call, .full) }, [])
    else finishWrite s call 0
  | .copying count =>
    let block : Bytes := fun i => call.data.getD (call.written + i) 0
    ({ s with ring := s.ring.put block count, writer := some (call, .storing count) }, [])
  | .storing count =>
    ({ s with
        ring := { s.ring with head := u64 (s.ring.head + count) }
        writer := some ({ call with written := call.written + count }, .loop) }, [])
  | .full =>
    if s.readerCount = 0 then finishWrite s call (-ePipe)
    else if call.nonblock then finishWrite s call (-eAgain)
    else ({ s with writer := some (call, .blocked) }, [])
  | .blocked => ({ s with writer := some (call, .loop) }, [])

inductive Action
  | startRead (len : Nat) (nonblock : Bool)
  | stepRead
  | startWrite (data : List UInt8) (nonblock : Bool)
  | stepWrite
  | dupRead
  | dupWrite
  | closeRead
  | closeWrite

/-- One action. A call starts if the end has a descriptor and no call of that end is in progress; the
last `close` of an end calls `pipe_close_fd`. -/
def step : Action → State × List Event
  | .startRead len nonblock =>
    if 0 < s.readRefs ∧ s.reader.isNone then ({ s with reader := some (⟨len, nonblock⟩, .start) }, []) else (s, [])
  | .stepRead =>
    match s.reader with
    | some (call, pc) => readStep s call pc
    | none => (s, [])
  | .startWrite data nonblock =>
    if 0 < s.writeRefs ∧ s.writer.isNone then ({ s with writer := some (⟨data, nonblock, 0⟩, .entry) }, [])
    else (s, [])
  | .stepWrite =>
    match s.writer with
    | some (call, pc) => writeStep s call pc
    | none => (s, [])
  | .dupRead => if 0 < s.readRefs then ({ s with readRefs := s.readRefs + 1 }, []) else (s, [])
  | .dupWrite => if 0 < s.writeRefs then ({ s with writeRefs := s.writeRefs + 1 }, []) else (s, [])
  | .closeRead =>
    if s.readRefs = 0 then (s, [])
    else
      let s := { s with readRefs := s.readRefs - 1 }
      if s.readRefs = 0 then ({ s with readerCount := s.readerCount - 1 }, []) else (s, [])
  | .closeWrite =>
    if s.writeRefs = 0 then (s, [])
    else
      let s := { s with writeRefs := s.writeRefs - 1 }
      if s.writeRefs = 0 then ({ s with writerCount := s.writerCount - 1 }, []) else (s, [])

end Voxia.Sys.Pipe
