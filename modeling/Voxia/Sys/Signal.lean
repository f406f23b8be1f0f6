/-
**Signals: handlers, masks, and where pending signals are consumed.**

A thread's `sig_han_t` holds the pending signals, the mask and a handler for each of the 64 signals, which
`sig_action` (`sys/sig.c`) takes from the user as it is. The places modelled here where signals are consumed
are `sig_send`, the start and the end of `syscall_dispatch`, `vxSchedulerTick` and the exception handler;
`char_read` of the terminal is not among them. Each is one action; the actions of different threads follow
each other in any order, so a system call that blocks between its start and its end is covered.

A step leaves the state and the entries it causes (`Entry`): code called in the kernel, or code a return to
user mode goes to. Which process a `kill` selects and which thread the scheduler picks are arguments of the
actions. `installed` records every handler `sig_action` has stored; it is not part of the kernel's state.
-/

import Voxia.Lib.Traces
import Mathlib.Logic.Function.Basic

namespace Voxia.Sys.Signal

open Function

/-- The word of a `sigset_t` that is used. -/
abbrev SigSet := BitVec 64

def sigBit (sig : Nat) : SigSet := 1#64 <<< (sig - 1)

def isIn (set : SigSet) (sig : Nat) : Bool := set &&& sigBit sig != 0

/-- `sig_han_t`: `handler[sig - 1]` is `handler sig`. -/
structure SigHan where
  pending : SigSet
  mask : SigSet
  handler : Nat → UInt64
  flags : Nat → UInt64
  restorer : Nat → UInt64
  signalMask : Nat → UInt64

def allocSigHandle : SigHan := ⟨0, 0, fun _ => 0, fun _ => 0, fun _ => 0, fun _ => 0⟩

def SigHan.clear (h : SigHan) (sig : Nat) : SigHan := { h with pending := h.pending &&& ~~~ sigBit sig }

structure KSigaction where
  handler : UInt64
  flags : UInt64
  restorer : UInt64
  mask : UInt64

inductive ThreadState
  | create
  | ready
  | running
  | blocked
  | terminated
  | hal
  deriving DecidableEq

/-- `cpu_register_t`: the registers `vxSaveRegister` copies. -/
structure Frame where
  (rip cs rflags rsp ss rax rbx rcx rdx rbp rsi rdi r8 r9 r10 r11 r12 r13 r14 r15 : UInt64)
  deriving Inhabited

/-- What is read of a thread; `parent` is the process of the parent, if there is one. -/
structure Thread where
  signal : Nat
  state : ThreadState
  inKernelSleep : Bool
  frame : Frame
  savedReg : Option Frame
  parent : Option Nat

/-- Where code is entered: `handler(sig)` is called in the kernel, or a return to user mode goes to `rip`
with the return address `restorer` on the stack. -/
inductive Entry
  | kernelCall (address : UInt64) (sig : Nat)
  | userReturn (rip : UInt64) (sig : Nat) (restorer : UInt64)
  deriving DecidableEq

/-- `sigs` belong to threads, `procSigs` are the `signal` fields of processes. -/
structure State where
  sigs : Nat → SigHan
  procSigs : Nat → SigHan
  threads : Nat → Thread
  installed : List UInt64

def signals : List Nat := List.range' 1 64

/-! ### The signal structure -/

def kernelBase : UInt64 := 0xFFFF800000000000

def sigSend (h : SigHan) (sig : Nat) : SigHan × List Entry :=
  if sig < 1 ∨ sig > 64 then (h, [])
  else if isIn h.mask sig then (h, [])
  else if h.handler sig ≠ 0 ∧ kernelBase ≤ h.handler sig then (h, [.kernelCall (h.handler sig) sig])
  else ({ h with pending := h.pending ||| sigBit sig }, [])

/-- `sig_action` with `act`: `none` if it returns `-EINVAL`. -/
def sigAction (h : SigHan) (sig : Nat) (act : KSigaction) : Option SigHan :=
  if sig < 1 ∨ sig > 64 then none
  else if sig = 9 ∨ sig = 19 then none
  else some { h with
    handler := update h.handler sig act.handler
    flags := update h.flags sig act.flags
    restorer := update h.restorer sig act.restorer
    signalMask := update h.signalMask sig act.mask }

/-- The `switch` of `syscall_rt_sigprocmask`; another `how` is `-EINVAL`. -/
def sigprocmask (h : SigHan) (how : Nat) (set : SigSet) : SigHan :=
  if how = 0 then { h with mask := h.mask ||| set }
  else if how = 1 then { h with mask := h.mask &&& ~~~ set }
  else if how = 2 then { h with mask := set }
  else h

def tickLoop (active : SigSet) : List Nat → SigHan → SigHan × List Entry
  | [], h => (h, [])
  | sig :: rest, h =>
    if isIn active sig then
      let h := h.clear sig
      match tickLoop active rest h with
      | (h', entries) => (h', if h.handler sig ≠ 0 then .kernelCall (h.handler sig) sig :: entries else entries)
    else tickLoop active rest h

/-- What the loops of `syscall_dispatch` end with. -/
inductive Delivery
  | none
  | exit (sig : Nat)
  | user (sig : Nat)
  deriving DecidableEq

/-- `SIGINT`, `SIGQUIT`, `SIGKILL` and `SIGTERM` end the process by default. -/
def fatal (sig : Nat) : Bool := sig == 2 || sig == 3 || sig == 9 || sig == 15

/-- The loop at the start and at the end of `syscall_dispatch`. -/
def dispatchLoop (active : SigSet) : List Nat → SigHan → SigHan × Delivery
  | [], h => (h, .none)
  | sig :: rest, h =>
    if isIn active sig then
      if h.handler sig = 0 then
        if fatal sig then (h.clear sig, .exit sig) else dispatchLoop active rest h
      else if h.handler sig = 1 then dispatchLoop active rest (h.clear sig)
      else (h.clear sig, .user sig)
    else dispatchLoop active rest h

/-- The handlers `execve` keeps: the default ones and the ignored signals. -/
def resetHandlers (h : SigHan) : SigHan :=
  { h with handler := fun sig => if h.handler sig ≠ 0 ∧ h.handler sig ≠ 1 then 0 else h.handler sig }

/-! ### Threads -/

variable (s : State)

def setSig (i : Nat) (h : SigHan) : State := { s with sigs := update s.sigs i h }

theorem sigs_setSig (i j : Nat) (h : SigHan) :
    (setSig s i h).sigs j = if j = i then h else s.sigs j := update_apply s.sigs i h j

def setThread (t : Nat) (thr : Thread) : State := { s with threads := update s.threads t thr }

def sigOf (t : Nat) : SigHan := s.sigs (s.threads t).signal

/-- `exit_group`: the process of the parent gets `SIGCHLD`. -/
def exitGroup (t : Nat) : State × List Entry :=
  let s := setThread s t { s.threads t with state := .terminated }
  match (s.threads t).parent with
  | none => (s, [])
  | some p =>
    match sigSend (s.procSigs p) 17 with
    | (h, entries) => ({ s with procSigs := update s.procSigs p h }, entries)

def saRestart : UInt64 := 0x10000000

def handlerFrame (frame : Frame) (h : SigHan) (sig : Nat) : Frame :=
  { frame with
    rip := h.handler sig
    rsp := (frame.rsp &&& ~~~ 15) - 8
    rdi := UInt64.ofNat sig
    rsi := 0
    rdx := 0 }

/-- A thread is sent to its handler with its registers saved; `rax` is what it finds there afterwards. -/
def enterHandler (t sig : Nat) (saved : Frame) : State × List Entry :=
  let thr := s.threads t
  let h := sigOf s t
  (setThread s t { thr with savedReg := some saved, frame := handlerFrame thr.frame h sig },
    [.userReturn (h.handler sig) sig (h.restorer sig)])

/-- What a system call's frame is saved as: `SA_RESTART` sets the call up again. -/
def savedFrame (frame : Frame) (h : SigHan) (sig : Nat) (nr rax : UInt64) : Frame :=
  if h.flags sig &&& saRestart ≠ 0 then { frame with rip := frame.rip - 2, rax := nr } else { frame with rax := rax }

/-- `exit`, `exit_group`, `rt_sigaction`, `rt_sigprocmask` and `rt_sigreturn` do not look for signals. -/
def looksForSignals (nr : Nat) : Bool := !(nr == 0x3C || nr == 0xE7 || nr == 0x0D || nr == 0x0E || nr == 15)

/-- The code at the start and at the end of `syscall_dispatch`: the signals that count, and the `rax` that
is saved. -/
def dispatchSignals (t nr : Nat) (active : SigSet) (rax : UInt64) : State × List Entry :=
  if looksForSignals nr then
    match dispatchLoop active signals (sigOf s t) with
    | (h, delivery) =>
      let s := setSig s (s.threads t).signal h
      match delivery with
      | .none => (s, [])
      | .exit _ => exitGroup s t
      | .user sig => enterHandler s t sig (savedFrame (s.threads t).frame h sig (UInt64.ofNat nr) rax)
  else (s, [])

def minusEIntr : UInt64 := 0xFFFFFFFFFFFFFFFC

/-- The start of `syscall_dispatch` looks at all pending signals. -/
def syscallEntry (t nr : Nat) : State × List Entry :=
  dispatchSignals s t nr (sigOf s t).pending minusEIntr

def syscallExit (t nr : Nat) : State × List Entry :=
  dispatchSignals s t nr ((sigOf s t).pending &&& ~~~ (sigOf s t).mask) (s.threads t).frame.rax

def tick (t : Nat) : State × List Entry :=
  let thr := s.threads t
  if thr.inKernelSleep then (s, [])
  else if thr.state = .ready then (setThread s t { thr with state := .running }, [])
  else
    let h := sigOf s t
    match tickLoop (h.pending &&& ~~~ h.mask) signals h with
    | (h, entries) => (setSig s thr.signal h, entries)

def exceptionSignal (vector : Nat) : Nat := if vector = 0 then 8 else if vector = 6 then 4 else 11

def exception (t vector : Nat) : State × List Entry :=
  let sig := exceptionSignal vector
  let h := sigOf s t
  if h.handler sig ≠ 0 ∧ h.handler sig ≠ 1 then enterHandler s t sig (s.threads t).frame
  else (setThread s t { s.threads t with state := .terminated }, [])

def sendAll (sig : Nat) : List Nat → State → State × List Entry
  | [], s => (s, [])
  | i :: rest, s =>
    match sigSend (s.sigs i) sig with
    | (h, entries) =>
      match sendAll sig rest (setSig s i h) with
      | (s, later) => (s, entries ++ later)

/-! ### Actions -/

inductive Action
  | rtSigaction (t sig : Nat) (act : KSigaction)
  | rtSigprocmask (t how : Nat) (set : SigSet)
  /-- `kill`, or the terminal: the signal goes to the structures of the selected processes. -/
  | kill (sig : Nat) (targets : List Nat)
  | syscallEntry (t nr : Nat)
  | syscallExit (t nr : Nat)
  | sigreturn (t : Nat)
  | tick (t : Nat)
  | exception (t vector : Nat)
  | exitGroup (t : Nat)
  /-- A successful `execve`. -/
  | execve (t : Nat)
  /-- A new thread, with an empty structure. -/
  | create (t : Nat) (thr : Thread)
  /-- `clone` with `CLONE_SIGHAND`. -/
  | cloneShared (t child : Nat)
  /-- `fork`, or `clone` without `CLONE_SIGHAND`: the child gets a copy at `i`. -/
  | cloneCopy (t child i : Nat)
  /-- Blocking, waking and preempting. -/
  | setState (t : Nat) (state : ThreadState) (inKernelSleep : Bool)

def step : Action → State × List Entry
  | .rtSigaction t sig act =>
    match sigAction (sigOf s t) sig act with
    | some h => ({ setSig s (s.threads t).signal h with installed := act.handler :: s.installed }, [])
    | none => (s, [])
  | .rtSigprocmask t how set => (setSig s (s.threads t).signal (sigprocmask (sigOf s t) how set), [])
  | .kill sig targets => sendAll sig targets s
  | .syscallEntry t nr => syscallEntry s t nr
  | .syscallExit t nr => syscallExit s t nr
  | .sigreturn t =>
    match (s.threads t).savedReg with
    | some frame => (setThread s t { s.threads t with frame := frame, savedReg := none }, [])
    | none => (s, [])
  | .tick t => tick s t
  | .exception t vector => exception s t vector
  | .exitGroup t => exitGroup s t
  | .execve t => (setSig s (s.threads t).signal (resetHandlers (sigOf s t)), [])
  | .create t thr => (setSig (setThread s t thr) thr.signal allocSigHandle, [])
  | .cloneShared t child => (setThread s child { s.threads t with inKernelSleep := false }, [])
  | .cloneCopy t child i =>
    (setSig (setThread s child { s.threads t with signal := i, inKernelSleep := false }) i
      { sigOf s t with pending := 0 }, [])
  | .setState t state inKernelSleep =>
    (setThread s t { s.threads t with state := state, inKernelSleep := inKernelSleep }, [])

/-- Before any thread: every structure is as `alloc_sig_handle` leaves it. -/
def init : State where
  sigs := fun _ => allocSigHandle
  procSigs := fun _ => allocSigHandle
  threads := fun _ => ⟨0, .create, false, default, none, none⟩
  installed := []

end Voxia.Sys.Signal
