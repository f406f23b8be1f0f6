/-
**Blocking on connected UNIX sockets.**

A call runs atomically up to its blocking point. `recvfrom` records the thread that waits for bytes, and `sendto`
wakes it; a thread that waits in `sendto` for room is recorded nowhere, and `recvfrom` wakes nobody. `run_wakes_iff`
has the schedules where this does no harm.
-/

import Voxia.Lib.Traces
import Mathlib.Algebra.Ring.Nat
import Mathlib.Order.Basic
import Mathlib.Tactic.SplitIfs

namespace Voxia.Net

open Function Option Lib.Traces

def unixBufSize : Nat := 4096

/-- The calls of the two ends, `true` and `false`. -/
inductive Call
  | sendto (us : Bool) (len : UInt32)
  | recvfrom (us : Bool) (len : UInt32)

def Call.len : Call → UInt32
  | .sendto _ len => len
  | .recvfrom _ len => len

/-- The two ends of a connection, with what the calls use of `struct unix_socket`, and the calls the threads have
blocked in: `true` once the thread was woken. -/
structure Connection where
  rcount : Bool → Nat
  blockedRecvThread : Bool → Option Nat
  calls : Nat → Option (Call × Bool)

/-- `(int)len`, the bound of the copying loops. -/
def intLen (len : UInt32) : Nat := if len.toNat < 2 ^ 31 then len.toNat else 0

variable (c : Connection) (t : Nat) (us : Bool) (len : UInt32)

/-- `vxThreadWake`; a thread that has not blocked goes on as before. -/
def vxThreadWake (thread : Option Nat) : Connection :=
  { c with calls := fun t => if thread = some t then (c.calls t).map fun call => (call.1, true) else c.calls t }

/-- `syscall_sendto` from its test of the buffer on. -/
def syscallSendto : Connection :=
  if unixBufSize ≤ c.rcount !us then { c with calls := update c.calls t (some (.sendto us len, false)) }
  else
    let rcount := c.rcount (!us) + min (intLen len) (unixBufSize - c.rcount !us)
    vxThreadWake { c with rcount := update c.rcount (!us) rcount, calls := update c.calls t none }
      (c.blockedRecvThread !us)

/-- `syscall_recvfrom` from its test of the buffer on. -/
def syscallRecvfrom : Connection :=
  if c.rcount us = 0 then
    { c with
      blockedRecvThread := update c.blockedRecvThread us (some t)
      calls := update c.calls t (some (.recvfrom us len, false)) }
  else
    { c with
      rcount := update c.rcount us (c.rcount us - min (intLen len) (c.rcount us))
      calls := update c.calls t none }

/-- A call, or what is left of it: behind `thread_block` a receiver takes its record away. -/
def perform : Call → Connection
  | .sendto us len => syscallSendto c t us len
  | .recvfrom us len =>
    let recorded := if c.calls t = none then c.blockedRecvThread else update c.blockedRecvThread us none
    syscallRecvfrom { c with blockedRecvThread := recorded } t us len

/-- A thread makes a call, or goes on in the call it was woken in. -/
inductive Action
  | call (t : Nat) (call : Call)
  | resume (t : Nat)

/-- The call of a step: none of a thread that is still blocked, and none of the length 0. -/
def performed : Action → Option (Nat × Call)
  | .call t call => if c.calls t = none ∧ call.len ≠ 0 then some (t, call) else none
  | .resume t =>
    match c.calls t with
    | some (call, true) => some (t, call)
    | _ => none

def step (a : Action) : Connection :=
  match performed c a with
  | some (t, call) => perform c t call
  | none => c

/-! ### Who is woken -/

def Sleeps (call : Call) : Prop := c.calls t = some (call, false)

/-- **A step wakes those who wait for it**: a sender at the full buffer it takes bytes from, and a receiver at the empty
buffer it stores bytes in. -/
structure Wakes (a : Action) : Prop where
  senders : ∀ t us len, Sleeps c t (.sendto us len) → unixBufSize ≤ c.rcount (!us) →
    (step c a).rcount (!us) < c.rcount (!us) → ¬ Sleeps (step c a) t (.sendto us len)
  receivers : ∀ t us len, Sleeps c t (.recvfrom us len) → c.rcount us = 0 → c.rcount us < (step c a).rcount us →
    ¬ Sleeps (step c a) t (.recvfrom us len)

def Receives (a : Action) : Prop :=
  0 < c.rcount us ∧ ∃ t len, 0 < intLen len ∧ performed c a = some (t, .recvfrom us len)

def Sends (a : Action) : Prop :=
  c.rcount us < unixBufSize ∧ ∃ t len, 0 < intLen len ∧ performed c a = some (t, .sendto (!us) len)

/-- No sender waits at a full buffer that the step takes bytes from, and every receiver that waits at an empty one it
stores bytes in is recorded. -/
structure Noticed (a : Action) : Prop where
  senders : ∀ t us len, Sleeps c t (.sendto us len) → unixBufSize ≤ c.rcount (!us) → ¬ Receives c (!us) a
  receivers : ∀ t us len, Sleeps c t (.recvfrom us len) → c.rcount us = 0 → Sends c us a →
    c.blockedRecvThread us = some t

variable {c t us len} {a : Action} {b : Bool} {call : Call}

theorem sendto_rcount (c : Connection) (t : Nat) (us b : Bool) (len : UInt32) :
    c.rcount b ≤ (syscallSendto c t us len).rcount b ∧
      (c.rcount b < (syscallSendto c t us len).rcount b ↔
        b = !us ∧ c.rcount b < unixBufSize ∧ 0 < intLen len) := by
  by_cases here : b = !us
  · subst here
    unfold syscallSendto vxThreadWake
    split_ifs <;> simp only [update_self, true_and] <;> omega
  · have same : (syscallSendto c t us len).rcount b = c.rcount b := by
      unfold syscallSendto vxThreadWake
      split_ifs
      · rfl
      · exact update_of_ne here _ _
    simp [same, here]

theorem recvfrom_rcount (c : Connection) (t : Nat) (us b : Bool) (len : UInt32) :
    (syscallRecvfrom c t us len).rcount b ≤ c.rcount b ∧
      ((syscallRecvfrom c t us len).rcount b < c.rcount b ↔ b = us ∧ 0 < c.rcount b ∧ 0 < intLen len) := by
  by_cases here : b = us
  · subst here
    unfold syscallRecvfrom
    split_ifs <;> simp only [update_self, true_and] <;> omega
  · have same : (syscallRecvfrom c t us len).rcount b = c.rcount b := by
      unfold syscallRecvfrom
      split_ifs
      · rfl
      · exact update_of_ne here _ _
    simp [same, here]

theorem rcount_lt_iff : (step c a).rcount b < c.rcount b ↔ Receives c b a := by
  unfold step Receives
  rcases performed c a with _ | ⟨t, ⟨us, len⟩ | ⟨us, len⟩⟩
  · simp
  · simpa [perform] using (sendto_rcount c t us b len).1
  · refine (recvfrom_rcount _ t us b len).2.trans ?_
    simp [eq_comm, and_comm, and_assoc]

theorem lt_rcount_iff : c.rcount b < (step c a).rcount b ↔ Sends c b a := by
  unfold step Sends
  rcases performed c a with _ | ⟨t, ⟨us, len⟩ | ⟨us, len⟩⟩
  · simp
  · refine (sendto_rcount c t us b len).2.trans ?_
    cases b <;> cases us <;> simp [and_comm, and_assoc]
  · simpa [perform] using (recvfrom_rcount _ t us b len).1

theorem Sleeps.ne {t' : Nat} {call' : Call} (sleeps : Sleeps c t call) (performs : performed c a = some (t', call')) :
    t ≠ t' := by
  rintro rfl
  cases a with
  | call t₀ call₀ =>
    simp only [performed, ite_none_right_eq_some, some.injEq, Prod.mk.injEq] at performs
    obtain ⟨⟨outside, -⟩, rfl, -⟩ := performs
    rw [sleeps] at outside
    cases outside
  | resume t₀ =>
    simp only [performed] at performs
    split at performs
    · next woken =>
      obtain ⟨rfl, -⟩ := Prod.mk.inj (some.inj performs)
      rw [sleeps] at woken
      cases woken
    · cases performs

theorem Sleeps.receives (sleeps : Sleeps c t call) (receives : Receives c b a) : Sleeps (step c a) t call := by
  obtain ⟨some', t', len, -, performs⟩ := receives
  have other := sleeps.ne performs
  simp only [Sleeps, step, performs, perform, syscallRecvfrom, if_neg (Nat.pos_iff_ne_zero.mp some'), update_of_ne other]
  exact sleeps

theorem Sleeps.sends_iff (sleeps : Sleeps c t call) (sends : Sends c b a) :
    Sleeps (step c a) t call ↔ c.blockedRecvThread b ≠ some t := by
  obtain ⟨room, t', len, -, performs⟩ := sends
  have other := sleeps.ne performs
  have before : c.calls t = some (call, false) := sleeps
  simp only [Sleeps, step, performs, perform, syscallSendto, Bool.not_not, if_neg (Nat.not_le.mpr room), vxThreadWake,
    update_of_ne other, before]
  by_cases recorded : c.blockedRecvThread b = some t <;> simp [recorded]

/-- **Who is woken** by one step, from any state. -/
theorem step_wakes_iff (c : Connection) (a : Action) : Wakes c a ↔ Noticed c a := by
  constructor
  · intro wakes
    refine ⟨fun t us len sleeps full receives => ?_, fun t us len sleeps empty sends => ?_⟩
    · exact wakes.senders t us len sleeps full (rcount_lt_iff.mpr receives) (sleeps.receives receives)
    · have woken := wakes.receivers t us len sleeps empty (lt_rcount_iff.mpr sends)
      rwa [sleeps.sends_iff sends, not_not] at woken
  · intro noticed
    refine ⟨fun t us len sleeps full less => ?_, fun t us len sleeps empty more => ?_⟩
    · exact absurd (rcount_lt_iff.mp less) (noticed.senders t us len sleeps full)
    · have sends := lt_rcount_iff.mp more
      rw [sleeps.sends_iff sends, not_not]
      exact noticed.receivers t us len sleeps empty sends

/-! ### Schedules -/

/-- Two sockets that were just connected. -/
def fresh : Connection := ⟨fun _ => 0, fun _ => none, fun _ => none⟩

/-- The steps of a schedule; nothing is observed but the states. -/
def schedule (c : Connection) (a : Action) : Connection × List Empty := (step c a, [])

/-- **The schedules in which everyone is woken.** -/
theorem run_wakes_iff (actions : List Action) :
    Along schedule Wakes fresh actions ↔ Along schedule Noticed fresh actions :=
  along_iff (fun _ _ (_ : True) _ => trivial) (fun c a _ => step_wakes_iff c a) actions fresh trivial

/-- **A sender is forgotten**: a buffer is filled, a second thread waits for room, and half of the bytes are received. -/
theorem recvfrom_wakes_nobody : ¬ Along schedule Wakes fresh
    [.call 0 (.sendto true 4096), .call 1 (.sendto true 1), .call 2 (.recvfrom false 2048)] := by
  rintro ⟨-, -, wakes, -⟩
  exact wakes.senders 1 true 1 rfl (by decide) (by decide) rfl

end Voxia.Net
