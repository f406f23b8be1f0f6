/-
**Blocking, sleeping and waking.**

One thread calls `thread_block` or `thread_sleep`, and other cores call `vxThreadWake` on it (`procc/scheduler.c`). A
step is one access to the fields of the thread, and the steps of all of them interleave in any order. `thread_block`
misses no wake; `thread_sleep` may, before it stores BLOCKED.
-/

import Voxia.Sys.Signal

namespace Voxia.Procc.ThreadWake

open Function
open Lib.Traces (Along along_iff run run_inv)
open Sys.Signal (ThreadState)

/-- The next access of the thread, or the place where it sleeps. -/
inductive Pc
  | out
  | mark
  | publish
  | test
  | cancelPending
  | cancelMark
  | cancelEnd
  | save
  | asleep
  | resumeMark
  | resumePending
  | resumeTime
  | resumeRun
  deriving DecidableEq

/-- The fields that both sides use, where the thread is, and how often it has returned. -/
structure Thread where
  state : ThreadState
  wakePending : Bool
  inKernelSleep : Bool
  wakeupTime : UInt64
  pc : Pc
  returns : Nat

/-- `thread_block`, one access at a time. A sleeping thread goes on when the scheduler resumes it. -/
def threadBlock (_ : UInt64) (t : Thread) : Thread :=
  match t.pc with
  | .out => { t with pc := .mark }
  | .mark => { t with inKernelSleep := true, pc := .publish }
  | .publish => { t with state := .blocked, pc := .test }
  | .test => { t with pc := if t.wakePending then .cancelPending else .save }
  | .cancelPending => { t with wakePending := false, pc := .cancelMark }
  | .cancelMark => { t with inKernelSleep := false, pc := .cancelEnd }
  | .cancelEnd => { t with state := .running, pc := .out, returns := t.returns + 1 }
  | .save => { t with inKernelSleep := true, pc := .asleep }
  | .asleep => { t with pc := .resumeMark }
  | .resumeMark => { t with inKernelSleep := false, pc := .resumePending }
  | .resumePending => { t with wakePending := false, pc := .resumeRun }
  | .resumeTime => t
  | .resumeRun => { t with state := .running, pc := .out, returns := t.returns + 1 }

/-- `thread_sleep`, which tests `wake_pending` before it stores the state; its other accesses are those of
`thread_block`. -/
def threadSleep (wakeupTime : UInt64) (t : Thread) : Thread :=
  match t.pc with
  | .out => { t with wakeupTime := wakeupTime, pc := .mark }
  | .mark => { t with inKernelSleep := true, pc := .test }
  | .test => { t with pc := if t.wakePending then .cancelPending else .publish }
  | .cancelEnd => { t with wakeupTime := 0, pc := .out, returns := t.returns + 1 }
  | .publish => { t with state := .blocked, pc := .asleep }
  | .save => t
  | .resumePending => { t with wakePending := false, pc := .resumeTime }
  | .resumeTime => { t with wakeupTime := 0, pc := .resumeRun }
  | _ => threadBlock wakeupTime t

/-- The next access of a call of `vxThreadWake`. -/
inductive WakePc
  | idle
  | store
  | test
  | run
  | done

/-- A call of `vxThreadWake`: how often the thread had returned when it started, and whether the thread was in a
call then. -/
structure Waker where
  pc : WakePc
  epoch : Nat
  inside : Bool

def vxThreadWake (t : Thread) (w : Waker) : Thread × Waker :=
  match w.pc with
  | .idle => (t, ⟨.store, t.returns, t.pc ≠ .out⟩)
  | .store => ({ t with wakePending := true }, { w with pc := .test })
  | .test => (t, { w with pc := if t.state = .blocked then .run else .done })
  | .run => ({ t with state := .running }, { w with pc := .done })
  | .done => (t, w)

/-- The part of `vxSchedulerTick` that looks for sleepers. The thread runs its calls with interrupts off, so its core
ticks only outside of them or while it sleeps. -/
def vxSchedulerTick (t : Thread) (counter : UInt64) : Thread :=
  if (t.pc = .out ∨ t.pc = .asleep) ∧ t.state = .blocked ∧ t.wakeupTime ≠ 0 ∧ t.wakeupTime ≤ counter then
    { t with state := .ready, wakeupTime := 0, wakePending := true }
  else t

structure System where
  thread : Thread
  wakers : Nat → Waker

inductive Action
  | thread (wakeupTime : UInt64)
  | wake (i : Nat)
  | tick (counter : UInt64)

def step (code : UInt64 → Thread → Thread) (s : System) : Action → System × List Empty
  | .thread wakeupTime => ({ s with thread := code wakeupTime s.thread }, [])
  | .wake i =>
    let (t, w) := vxThreadWake s.thread (s.wakers i)
    (⟨t, update s.wakers i w⟩, [])
  | .tick counter => ({ s with thread := vxSchedulerTick s.thread counter }, [])

def start (t : Thread) : System := ⟨{ t with pc := .out, returns := 0 }, fun _ => ⟨.idle, 0, false⟩⟩

/-- The thread sleeps in state BLOCKED although the wake, which started after its last return, is over. -/
def Missed (t : Thread) (w : Waker) : Prop :=
  t.pc = .asleep ∧ t.state = .blocked ∧ w.pc = .done ∧ w.epoch = t.returns

/-! ### thread_block -/

/-- The thread has not tested `wake_pending` yet. -/
def Pc.untested : Pc → Bool
  | .out | .mark | .publish | .test => true
  | _ => false

/-- The thread has found it unset, and sleeps or is about to. -/
def Pc.committed : Pc → Bool
  | .save | .asleep => true
  | _ => false

/-- A wake that has stored `wake_pending` is not lost: up to the test of the thread the flag is set, and behind it the
wake ends with a thread that is runnable. -/
structure Noticed (t : Thread) (w : Waker) : Prop where
  epoch : w.epoch ≤ t.returns
  pending : t.pc.untested → w.epoch = t.returns → w.pc ≠ .idle → w.pc ≠ .store → t.wakePending
  runnable : t.pc.committed → w.epoch = t.returns → w.pc = .done → t.state ≠ .blocked

variable {t : Thread} {w : Waker}

theorem Noticed.thread (noticed : Noticed t w) (time : UInt64) : Noticed (threadBlock time t) w := by
  obtain ⟨state, flag, mark, wakeupTime, pc, returns⟩ := t
  obtain ⟨epoch, pending, runnable⟩ := noticed
  have later : w.epoch < returns + 1 := Nat.lt_succ_of_le epoch
  have no {p : Prop} (impossible : false = true) : p := absurd impossible Bool.false_ne_true
  cases pc with
  | out | mark | publish => exact ⟨epoch, fun _ => pending rfl, no⟩
  | test =>
    cases flag with
    | true => exact ⟨epoch, no, no⟩
    | false =>
      -- the thread goes on to sleep only if no wake of this call has stored the flag
      refine ⟨epoch, no, fun _ now ended => ?_⟩
      rw [ended] at pending
      exact no (pending rfl now nofun nofun)
  | save => exact ⟨epoch, no, fun _ => runnable rfl⟩
  | cancelEnd | resumeRun => exact ⟨Nat.le_of_lt later, fun _ now => absurd now (Nat.ne_of_lt later), no⟩
  | cancelPending | cancelMark | asleep | resumeMark | resumePending | resumeTime => exact ⟨epoch, no, no⟩

theorem Noticed.wake (noticed : Noticed t w) : Noticed (vxThreadWake t w).1 (vxThreadWake t w).2 ∧
    ∀ {v}, Noticed t v → Noticed (vxThreadWake t w).1 v := by
  obtain ⟨epoch, pending, runnable⟩ := noticed
  unfold vxThreadWake
  cases here : w.pc with
  | idle => exact ⟨⟨Nat.le_refl _, fun _ _ _ stored => absurd rfl stored, fun _ _ => nofun⟩, id⟩
  | store => exact ⟨⟨epoch, fun _ _ _ _ => rfl, fun _ _ => nofun⟩, fun other =>
      { other with pending := fun _ _ _ _ => rfl }⟩
  | test =>
    rw [here] at pending
    refine ⟨⟨epoch, fun before now _ _ => pending before now nofun nofun, fun _ _ ended blocked => ?_⟩, id⟩
    rw [if_pos blocked] at ended
    cases ended
  | run =>
    rw [here] at pending
    exact ⟨⟨epoch, fun before now _ _ => pending before now nofun nofun, fun _ _ _ => nofun⟩, fun other =>
      { other with runnable := fun _ _ _ => nofun }⟩
  | done => exact ⟨⟨epoch, pending, runnable⟩, id⟩

theorem Noticed.tick (noticed : Noticed t w) (counter : UInt64) : Noticed (vxSchedulerTick t counter) w := by
  unfold vxSchedulerTick
  split
  · exact { noticed with pending := fun _ _ _ _ => rfl, runnable := fun _ _ _ => nofun }
  · exact noticed

/-- **`thread_block` misses no wake**, in any interleaving of any number of wakes. -/
theorem block_misses_no_wake (t : Thread) (actions : List Action) (i : Nat) :
    let s := (run (step threadBlock) (start t) actions).1
    ¬ Missed s.thread (s.wakers i) := by
  have keeps : ∀ s a, (∀ i, Noticed s.thread (s.wakers i)) →
      ∀ i, Noticed (step threadBlock s a).1.thread ((step threadBlock s a).1.wakers i) := by
    intro s a noticed
    cases a with
    | thread time => exact fun i => (noticed i).thread time
    | wake i =>
      obtain ⟨own, others⟩ := (noticed i).wake
      exact (forall_update_iff _ fun _ => Noticed _).mpr ⟨own, fun j _ => others (noticed j)⟩
    | tick counter => exact fun i => (noticed i).tick counter
  rintro s ⟨asleep, blocked, ended, now⟩
  have noticed := run_inv keeps actions (start t)
    (fun _ => ⟨Nat.le_refl _, fun _ _ idle => absurd rfl idle, fun _ _ => nofun⟩) i
  exact noticed.runnable (by rw [asleep]; rfl) now ended blocked

/-! ### thread_sleep -/

/-- A step leaves no sleeper behind: no wake that started inside the call is missed, and a tick at the deadline makes
the thread runnable. -/
def Prompt (s : System) (a : Action) : Prop :=
  let s' := (step threadSleep s a).1
  (∀ i, (s'.wakers i).inside → ¬ Missed s'.thread (s'.wakers i)) ∧
    ∀ counter, a = .tick counter → s.thread.pc = .asleep → s.thread.wakeupTime ≤ counter → s'.thread.state ≠ .blocked

/-- No wake that started inside the call is over when the thread stores BLOCKED, and the deadline it sleeps with is
not 0. -/
def Meets (s : System) : Action → Prop
  | .thread _ => s.thread.pc = .publish → ∀ i, (s.wakers i).inside → (s.wakers i).epoch = s.thread.returns →
      (s.wakers i).pc ≠ .done
  | .wake _ => True
  | .tick _ => s.thread.pc = .asleep → s.thread.state = .blocked → s.thread.wakeupTime ≠ 0

theorem quiet_wake (quiet : w.inside → ¬ Missed t w) :
    ((vxThreadWake t w).2.inside → ¬ Missed (vxThreadWake t w).1 (vxThreadWake t w).2) ∧
      ∀ {v}, ¬ Missed t v → ¬ Missed (vxThreadWake t w).1 v := by
  unfold vxThreadWake
  cases here : w.pc with
  | idle => exact ⟨fun _ missed => (nomatch missed.2.2.1), id⟩
  | store => exact ⟨fun _ missed => (nomatch missed.2.2.1), id⟩
  | test =>
    refine ⟨fun _ ⟨_, blocked, ended, _⟩ => ?_, id⟩
    rw [if_pos blocked] at ended
    cases ended
  | run => exact ⟨fun _ missed => (nomatch missed.2.1), fun _ missed => (nomatch missed.2.1)⟩
  | done => exact ⟨quiet, id⟩

/-- **Step**: a step is prompt exactly if it meets the condition. -/
theorem prompt_iff {s : System} (quiet : ∀ i, (s.wakers i).inside → ¬ Missed s.thread (s.wakers i)) (a : Action) :
    Prompt s a ↔ Meets s a := by
  cases a with
  | thread time =>
    obtain ⟨⟨state, flag, mark, wakeupTime, pc, returns⟩, wakers⟩ := s
    cases pc with
    | publish =>
      refine ⟨fun prompt _ i inside now ended => prompt.1 i inside ⟨rfl, rfl, ended, now⟩, fun meets => ⟨?_, nofun⟩⟩
      exact fun i inside missed => meets rfl i inside missed.2.2.2 missed.2.2.1
    | test => cases flag <;> exact iff_of_true ⟨fun _ _ missed => (nomatch missed.1), nofun⟩ nofun
    | _ => exact iff_of_true ⟨fun _ _ missed => (nomatch missed.1), nofun⟩ nofun
  | wake i =>
    obtain ⟨own, others⟩ := quiet_wake (quiet i)
    refine iff_of_true ⟨?_, nofun⟩ trivial
    exact (forall_update_iff _ fun _ v => v.inside → ¬ Missed _ v).mpr ⟨own, fun j _ inside => others (quiet j inside)⟩
  | tick c =>
    unfold Prompt step vxSchedulerTick
    dsimp only
    by_cases fires : (s.thread.pc = .out ∨ s.thread.pc = .asleep) ∧ s.thread.state = .blocked ∧
        s.thread.wakeupTime ≠ 0 ∧ s.thread.wakeupTime ≤ c
    · rw [if_pos fires]
      exact iff_of_true ⟨fun i _ missed => (nomatch missed.2.1), fun _ _ _ _ => nofun⟩ fun _ _ => fires.2.2.1
    · rw [if_neg fires]
      constructor
      · rintro ⟨-, late⟩ asleep blocked zero
        exact late c rfl asleep (by rw [zero]; exact UInt64.zero_le) blocked
      · intro meets
        refine ⟨quiet, ?_⟩
        rintro _ ⟨⟩ asleep past blocked
        exact fires ⟨.inr asleep, blocked, meets asleep blocked, past⟩

/-- **`thread_sleep`**: it leaves no sleeper behind, in any interleaving of any number of wakes and ticks, if and only
if every step meets the condition. -/
theorem sleep_prompt_iff (t : Thread) (actions : List Action) :
    Along (step threadSleep) Prompt (start t) actions ↔ Along (step threadSleep) Meets (start t) actions :=
  along_iff (fun _ a quiet met => ((prompt_iff quiet a).mpr met).1) (fun _ a quiet => prompt_iff quiet a) actions _
    fun _ => nofun

/-- A wake between the test and the store: the thread sleeps on to its deadline. -/
theorem sleep_misses_wake :
    let s := (run (step threadSleep) (start ⟨.running, false, false, 0, .out, 0⟩) [.thread 1000, .thread 0, .thread 0,
      .wake 0, .wake 0, .wake 0, .thread 0, .tick 999]).1
    (s.wakers 0).inside ∧ Missed s.thread (s.wakers 0) :=
  ⟨rfl, rfl, rfl, rfl, rfl⟩

end Voxia.Procc.ThreadWake
