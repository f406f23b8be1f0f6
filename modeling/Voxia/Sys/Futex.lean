/-
**Futex queues.**

All processes share one array of waiters, and a waiter is found by its virtual address alone (`sys/syscall/futex.c`).
A wake or a requeue takes the first waiters on its address in the order of the slots, which may be those of another
process. No waiter is lost: a thread that passed the value test and was neither woken nor requeued is queued on its
address. A timed wait takes an unset `wake_pending` for a timeout, but the primitives that sleep have cleared it, and
below a millisecond it sleeps without a deadline.
-/

import Mathlib.Data.List.Basic
import Mathlib.Logic.Function.Basic
import Mathlib.Tactic.SplitIfs

namespace Voxia.Sys.Futex

open Function List

def maxFutex : Nat := 1024

structure Thread where
  process : Nat
  id : Nat
  deriving DecidableEq

structure FutexWaiter where
  uaddr : Nat
  thread : Thread

/-- `futex_queue`; a slot without a thread is free. -/
abbrev Queue := List (Option FutexWaiter)

/-- The first free slot is taken; `none` is the full queue. -/
def enqueue (w : FutexWaiter) : Queue → Option Queue
  | [] => none
  | none :: rest => some (some w :: rest)
  | some v :: rest => (enqueue w rest).map (some v :: ·)

/-- `FUTEX_WAIT` from the value test on, up to its blocking point. A thread keeps the slot it has. -/
def futexWait (w : FutexWaiter) (queue : Queue) : Option Queue :=
  if queue.any fun slot => slot.any (·.thread = w.thread) then some queue else enqueue w queue

/-- The waiters a call wakes, those it moves to another address, and the queue it leaves. -/
structure Outcome where
  woken : List FutexWaiter
  requeued : List FutexWaiter
  queue : Queue

def onAddress (uaddr : Nat) (slot : Option FutexWaiter) : Option FutexWaiter := slot.filter (·.uaddr = uaddr)

def wakeLoop (uaddr : Nat) (val awoken : Int) : Queue → Outcome
  | [] => ⟨[], [], []⟩
  | slot :: rest =>
    match onAddress uaddr slot with
    | some w =>
      if val ≤ awoken + 1 then ⟨[w], [], none :: rest⟩
      else
        let out := wakeLoop uaddr val (awoken + 1) rest
        ⟨w :: out.woken, out.requeued, none :: out.queue⟩
    | none =>
      let out := wakeLoop uaddr val awoken rest
      { out with queue := slot :: out.queue }

def requeueLoop (uaddr uaddr2 : Nat) (val val2 awoken requeued : Int) : Queue → Outcome
  | [] => ⟨[], [], []⟩
  | slot :: rest =>
    match onAddress uaddr slot with
    | some w =>
      if awoken < val then
        let out := requeueLoop uaddr uaddr2 val val2 (awoken + 1) requeued rest
        ⟨w :: out.woken, out.requeued, none :: out.queue⟩
      else if requeued < val2 then
        let out := requeueLoop uaddr uaddr2 val val2 awoken (requeued + 1) rest
        ⟨out.woken, w :: out.requeued, some { w with uaddr := uaddr2 } :: out.queue⟩
      else
        let out := requeueLoop uaddr uaddr2 val val2 awoken requeued rest
        { out with queue := slot :: out.queue }
    | none =>
      let out := requeueLoop uaddr uaddr2 val val2 awoken requeued rest
      { out with queue := slot :: out.queue }

/-- The queue, and the address each thread waits on since it passed the value test. -/
structure State where
  queue : Queue
  waits : Thread → Option Nat

def State.after (s : State) (uaddr2 : Nat) (out : Outcome) : State where
  queue := out.queue
  waits t := if t ∈ out.woken.map (·.thread) then none
    else if t ∈ out.requeued.map (·.thread) then some uaddr2 else s.waits t

/-- Sequences of calls on a queue that is not full; a wait whose value test fails changes nothing. A thread is in one
slot at most, since it makes no call while it is queued; when its wait ends it clears the slot it is still in. -/
inductive FutexRun : State → Prop
  | start : FutexRun ⟨List.replicate maxFutex none, fun _ => none⟩
  | wait {s : State} {queue : Queue} (w : FutexWaiter) (before : FutexRun s)
      (running : ∀ v, some v ∈ s.queue → v.thread ≠ w.thread) (room : futexWait w s.queue = some queue) :
      FutexRun ⟨queue, update s.waits w.thread (some w.uaddr)⟩
  | leave {s : State} (t : Thread) (before : FutexRun s) :
      FutexRun ⟨s.queue.map (·.filter (·.thread ≠ t)), update s.waits t none⟩
  | wake {s : State} (uaddr : Nat) (val : Int) (before : FutexRun s) :
      FutexRun (s.after uaddr (wakeLoop uaddr val 0 s.queue))
  | requeue {s : State} (uaddr uaddr2 : Nat) (val val2 : Int) (before : FutexRun s) :
      FutexRun (s.after uaddr2 (requeueLoop uaddr uaddr2 val val2 0 0 s.queue))

/-! ### What the loops do -/

def waiters (uaddr : Nat) (queue : Queue) : List FutexWaiter := queue.filterMap (onAddress uaddr)

/-- A waiter is woken, moved or still queued. -/
def Kept (uaddr2 : Nat) (queue : Queue) (out : Outcome) : Prop :=
  (∀ w ∈ out.requeued, some { w with uaddr := uaddr2 } ∈ out.queue) ∧
    ∀ w, some w ∈ queue → w ∈ out.woken ∨ w ∈ out.requeued ∨ some w ∈ out.queue

variable {uaddr uaddr2 : Nat} {val val2 : Int} {s : State}

theorem eq_of_onAddress {slot : Option FutexWaiter} {w : FutexWaiter} (here : onAddress uaddr slot = some w) :
    slot = some w := (Option.filter_eq_some_iff.mp here).1

theorem waiters_cons (slot : Option FutexWaiter) (rest : Queue) : waiters uaddr (slot :: rest) =
    match onAddress uaddr slot with
    | some w => w :: waiters uaddr rest
    | none => waiters uaddr rest := by
  rw [waiters, filterMap_cons]
  cases onAddress uaddr slot <;> rfl

theorem wakeLoop_spec (queue : Queue) (awoken : Int) :
    (wakeLoop uaddr val awoken queue).woken = (waiters uaddr queue).take (max 1 (val - awoken).toNat) ∧
      (wakeLoop uaddr val awoken queue).requeued = [] ∧ Kept uaddr2 queue (wakeLoop uaddr val awoken queue) := by
  fun_induction wakeLoop uaddr val awoken queue with
  | case1 => simp [waiters, Kept]
  | case2 awoken slot rest w here last =>
    have one : max 1 (val - awoken).toNat = 1 := by omega
    have := eq_of_onAddress here
    simp only [waiters_cons, here, one, take_succ_cons, take_zero, Kept]
    grind
  | case3 awoken slot rest w here more out ih =>
    have next : max 1 (val - awoken).toNat = max 1 (val - (awoken + 1)).toNat + 1 := by omega
    have := eq_of_onAddress here
    simp only [waiters_cons, here, next, take_succ_cons, Kept] at ih ⊢
    grind
  | case4 awoken slot rest here out ih =>
    simp only [waiters_cons, here, Kept] at ih ⊢
    grind

theorem requeueLoop_spec (queue : Queue) (awoken requeued : Int) :
    let out := requeueLoop uaddr uaddr2 val val2 awoken requeued queue
    out.woken = (waiters uaddr queue).take (val - awoken).toNat ∧
      out.requeued = ((waiters uaddr queue).drop (val - awoken).toNat).take (val2 - requeued).toNat ∧
      Kept uaddr2 queue out := by
  fun_induction requeueLoop uaddr uaddr2 val val2 awoken requeued queue with
  | case1 => simp [waiters, Kept]
  | case2 awoken requeued slot rest w here less out ih =>
    have next : (val - awoken).toNat = (val - (awoken + 1)).toNat + 1 := by omega
    have := eq_of_onAddress here
    simp only [waiters_cons, here, next, take_succ_cons, drop_succ_cons, Kept] at ih ⊢
    grind
  | case3 awoken requeued slot rest w here done less out ih =>
    have next : (val2 - requeued).toNat = (val2 - (requeued + 1)).toNat + 1 := by omega
    have none' : (val - awoken).toNat = 0 := by omega
    have := eq_of_onAddress here
    simp only [waiters_cons, here, next, none', take_succ_cons, drop_zero, take_zero, Kept] at ih ⊢
    grind
  | case4 awoken requeued slot rest w here done done' out ih =>
    have none' : (val - awoken).toNat = 0 := by omega
    have none'' : (val2 - requeued).toNat = 0 := by omega
    simp only [waiters_cons, here, none', none'', take_zero, Kept] at ih ⊢
    grind
  | case5 awoken requeued slot rest here out ih =>
    simp only [waiters_cons, here, Kept] at ih ⊢
    grind

/-! ### Runs -/

theorem enqueue_kept {w : FutexWaiter} {queue queue' : Queue} (room : enqueue w queue = some queue') :
    some w ∈ queue' ∧ ∀ v, some v ∈ queue → some v ∈ queue' := by
  fun_induction enqueue w queue generalizing queue' with
  | case1 => cases room
  | case2 rest =>
    grind
  | case3 v rest ih =>
    obtain ⟨rest', found, rfl⟩ := Option.map_eq_some_iff.mp room
    grind

def Queued (s : State) : Prop := ∀ t uaddr, s.waits t = some uaddr → some ⟨uaddr, t⟩ ∈ s.queue

theorem Queued.after {out : Outcome} (queued : Queued s) (kept : Kept uaddr2 s.queue out) :
    Queued (s.after uaddr2 out) := by
  intro t uaddr waits
  simp only [State.after] at waits ⊢
  split_ifs at waits with woken moved
  · obtain rfl := Option.some.inj waits
    obtain ⟨w, inside, rfl⟩ := mem_map.mp moved
    exact kept.1 w inside
  · have := kept.2 _ (queued t uaddr waits)
    grind

/-- **No waiter is lost.** -/
theorem FutexRun.queued (run : FutexRun s) : Queued s := by
  induction run with
  | start => exact fun t uaddr waits => nomatch waits
  | @wait s queue w _ running room ih =>
    have other : ¬ s.queue.any (fun slot => slot.any (·.thread = w.thread)) := by
      rw [any_eq_true]
      rintro ⟨_ | v, inside, same⟩
      · cases same
      · exact running v inside (of_decide_eq_true same)
    rw [futexWait, if_neg other] at room
    obtain ⟨inside, kept⟩ := enqueue_kept room
    intro t uaddr waits
    by_cases same : t = w.thread
    · subst same
      obtain rfl := Option.some.inj ((update_self w.thread _ s.waits).symm.trans waits)
      exact inside
    · exact kept _ (ih t uaddr ((update_of_ne same _ s.waits).symm.trans waits))
  | @leave s t _ ih =>
    intro t' uaddr waits
    have apart : t' ≠ t := by
      rintro rfl
      cases (update_self t' none s.waits).symm.trans waits
    have inside := ih t' uaddr ((update_of_ne apart none s.waits).symm.trans waits)
    exact mem_map.mpr ⟨_, inside, by simp [Option.filter, apart]⟩
  | wake uaddr val _ ih => exact ih.after (wakeLoop_spec _ _).2.2
  | requeue uaddr uaddr2 val val2 _ ih => exact ih.after (requeueLoop_spec _ _ _).2.2

/-- What a call owes: it touches waiters on its address in the caller's process only, and wakes as many as it may. -/
structure Contained (queue : Queue) (process uaddr : Nat) (val : Int) (out : Outcome) : Prop where
  own : ∀ w ∈ out.woken ++ out.requeued, w ∈ waiters uaddr queue ∧ w.thread.process = process
  count : (out.woken.length : Int) = min val ((waiters uaddr queue).countP (·.thread.process = process))

theorem contained_iff {queue : Queue} {process : Nat} {out : Outcome} {more : Nat} (positive : 1 ≤ val)
    (woken : out.woken = (waiters uaddr queue).take val.toNat)
    (requeued : out.requeued = ((waiters uaddr queue).drop val.toNat).take more) :
    Contained queue process uaddr val out ↔
      ∀ w ∈ (waiters uaddr queue).take (val.toNat + more), w.thread.process = process := by
  have touched : out.woken ++ out.requeued = (waiters uaddr queue).take (val.toNat + more) := by
    rw [woken, requeued, take_add]
  constructor
  · exact fun contained w inside => (contained.own w (touched ▸ inside)).2
  · intro own
    rw [← touched] at own
    refine ⟨fun w inside => ⟨mem_of_mem_take (touched ▸ inside), own w inside⟩, ?_⟩
    -- the woken ones are all of the process, and where they are fewer than `val` no waiter is left
    have first : out.woken.countP (·.thread.process = process) = out.woken.length :=
      countP_eq_length.mpr fun w inside => decide_eq_true (own w (mem_append_left _ inside))
    have all := congrArg (List.countP (·.thread.process = process))
      (take_append_drop val.toNat (waiters uaddr queue))
    have rest := countP_le_length (p := (·.thread.process = process)) (l := (waiters uaddr queue).drop val.toNat)
    have length := congrArg List.length woken
    rw [countP_append, ← woken, first] at all
    rw [length_drop] at rest
    rw [length_take] at length
    omega

/-- **Wakes and requeues stay in the caller's process if and only if the waiters they come to are its own.** -/
theorem futex_contained_iff (run : FutexRun s) (process uaddr uaddr2 : Nat) (val2 : Int) (positive : 1 ≤ val) :
    (Contained s.queue process uaddr val (wakeLoop uaddr val 0 s.queue) ↔
      ∀ w ∈ (waiters uaddr s.queue).take val.toNat, w.thread.process = process) ∧
    (Contained s.queue process uaddr val (requeueLoop uaddr uaddr2 val val2 0 0 s.queue) ↔
      ∀ w ∈ (waiters uaddr s.queue).take (val.toNat + val2.toNat), w.thread.process = process) ∧ Queued s := by
  refine ⟨?_, ?_, run.queued⟩
  · obtain ⟨woken, requeued, -⟩ := @wakeLoop_spec uaddr uaddr2 val s.queue 0
    have count : max 1 (val - 0).toNat = val.toNat := by omega
    rw [count] at woken
    exact contained_iff positive woken (requeued.trans take_zero.symm)
  · obtain ⟨woken, requeued, -⟩ := @requeueLoop_spec uaddr uaddr2 val val2 s.queue 0 0
    rw [Int.sub_zero] at woken requeued
    rw [Int.sub_zero] at requeued
    exact contained_iff positive woken requeued

theorem enqueue_behind (w : FutexWaiter) (l : List FutexWaiter) (n : Nat) :
    enqueue w (l.map some ++ replicate (n + 1) none) = some ((l ++ [w]).map some ++ replicate n none) := by
  induction l with
  | nil => rfl
  | cons v rest ih => simp only [map_cons, cons_append, enqueue, ih, Option.map_some]

/-- A thread waits behind those that wait already. -/
theorem FutexRun.join {l : List FutexWaiter} {n : Nat} {waits : Thread → Option Nat}
    (before : FutexRun ⟨l.map some ++ replicate (n + 1) none, waits⟩) (w : FutexWaiter) (new : ∀ v ∈ l, v.thread ≠ w.thread) :
    FutexRun ⟨(l ++ [w]).map some ++ replicate n none, update waits w.thread (some w.uaddr)⟩ := by
  refine before.wait w (fun v inside => new v (by simpa using inside)) ?_
  rw [futexWait, if_neg (by simpa using new)]
  exact enqueue_behind w l n

def oneWaiter : State := ⟨[⟨0x1000, 1, 0⟩].map some ++ replicate 1023 none, update (fun _ => none) ⟨1, 0⟩ (some 0x1000)⟩

theorem oneWaiter_run : FutexRun oneWaiter := FutexRun.join (l := []) .start ⟨0x1000, 1, 0⟩ (forall_mem_nil _)

/-- Two waiters of process 1, and behind them one of process 2 on the same address. -/
def threeWaiters : State :=
  ⟨[⟨0x1000, 1, 0⟩, ⟨0x1000, 1, 1⟩, ⟨0x1000, 2, 0⟩].map some ++ replicate 1021 none,
    update (update oneWaiter.waits ⟨1, 1⟩ (some 0x1000)) ⟨2, 0⟩ (some 0x1000)⟩

theorem threeWaiters_run : FutexRun threeWaiters :=
  (oneWaiter_run.join ⟨0x1000, 1, 1⟩ (by decide)).join ⟨0x1000, 2, 0⟩ (by decide)

/-- Process 1 wakes both of its own, or wakes the first and moves the second. -/
theorem threeWaiters_contained :
    Contained threeWaiters.queue 1 0x1000 2 (wakeLoop 0x1000 2 0 threeWaiters.queue) ∧
      Contained threeWaiters.queue 1 0x1000 1 (requeueLoop 0x1000 0x2000 1 1 0 0 threeWaiters.queue) := by
  have own : ∀ w ∈ (waiters 0x1000 threeWaiters.queue).take 2, w.thread.process = 1 := by
    intro w inside
    obtain rfl | rfl : w = ⟨0x1000, 1, 0⟩ ∨ w = ⟨0x1000, 1, 1⟩ := by
      simpa using (show w ∈ [⟨0x1000, 1, 0⟩, ⟨0x1000, 1, 1⟩] from inside)
    all_goals rfl
  exact ⟨(futex_contained_iff threeWaiters_run 1 0x1000 0x2000 1 (by decide)).1.mpr own,
    (futex_contained_iff threeWaiters_run 1 0x1000 0x2000 1 (by decide)).2.1.mpr own⟩

/-- **A wake of process 2**, which has no waiter, wakes one of process 1. -/
theorem oneWaiter_stolen : FutexRun oneWaiter ∧
    ¬ Contained oneWaiter.queue 2 0x1000 1 (wakeLoop 0x1000 1 0 oneWaiter.queue) :=
  ⟨oneWaiter_run, fun contained => nomatch (contained.own ⟨0x1000, 1, 0⟩ (mem_singleton.mpr rfl)).2⟩

/-! ### Timeouts -/

/-- What a timed wait uses of its thread, and whether the thread is still in its slot. -/
structure Sleeper where
  blocked : Bool
  wakePending : Bool
  wakeupTime : UInt64
  queued : Bool

/-- A wake comes to the slot, or the scheduler reads the main counter. -/
inductive Event
  | wake
  | tick (counter : UInt64)
  deriving DecidableEq

def event (s : Sleeper) : Event → Sleeper
  | .wake => if s.queued then ⟨false, true, s.wakeupTime, false⟩ else s
  | .tick counter =>
    if s.blocked ∧ s.wakeupTime ≠ 0 ∧ s.wakeupTime ≤ counter then ⟨false, true, 0, s.queued⟩ else s

/-- `thread_block` up to its blocking point. -/
def threadBlock (s : Sleeper) : Sleeper :=
  if s.wakePending then { s with wakePending := false } else { s with blocked := true }

/-- `thread_sleep` up to its blocking point. -/
def threadSleep (s : Sleeper) (wakeupTime : UInt64) : Sleeper :=
  if s.wakePending then { s with wakePending := false, wakeupTime := 0 }
  else { s with blocked := true, wakeupTime := wakeupTime }

/-- A timeout, and the main counter with the length of its tick in nanoseconds. -/
structure Timeout where
  sec : UInt64
  nsec : UInt64
  now : UInt64
  minTick : UInt64

variable (t : Timeout) (early late final : List Event)

def Timeout.ms : UInt64 := (t.sec * 1000000000 + t.nsec) / 1000000

def Timeout.wakeupTime : UInt64 := t.now + t.ms * 1000000 / t.minTick

def Timeout.deadline : Nat := t.now.toNat + (t.sec.toNat * 1000000000 + t.nsec.toNat) / t.minTick.toNat

/-- `FUTEX_WAIT` with a timeout, with what happens before the thread sleeps, until it goes on, and before it looks at
`wake_pending`; `none` if it does not go on. -/
def timedWait : Option Int :=
  let s := early.foldl event ⟨false, false, 0, true⟩
  let s := late.foldl event (if 0 < t.ms then threadSleep s t.wakeupTime else threadBlock s)
  if s.blocked then none
  else some (if (final.foldl event ⟨false, false, 0, s.queued⟩).wakePending then 0 else -110)

def WakesInTime : Prop := ∃ a b, late = a ++ .wake :: b ∧ ∀ c, .tick c ∈ a → c.toNat < t.deadline

def Passes : Prop := ∃ c, .tick c ∈ late ∧ t.deadline ≤ c.toNat

structure Truthful : Prop where
  woken : .wake ∈ early ∨ WakesInTime t late ∨
    .wake ∈ final ∧ ¬ Passes t late ∧ timedWait t early late final ≠ none → timedWait t early late final = some 0
  timedOut : .wake ∉ early ++ late ++ final → Passes t late → timedWait t early late final = some (-110)
  ends : Passes t late → timedWait t early late final ≠ none

variable {t early late final} {s : Sleeper} {events : List Event}

theorem queued_foldl : (events.foldl event s).queued ↔ s.queued ∧ .wake ∉ events := by
  induction events generalizing s with
  | nil => simp
  | cons e rest ih =>
    rw [foldl_cons, ih]
    cases e <;> simp only [event] <;> split <;> simp_all

theorem blocked_foldl : (events.foldl event s).blocked ↔ s.blocked ∧ (s.queued → .wake ∉ events) ∧
    (s.wakeupTime ≠ 0 → ∀ c, .tick c ∈ events → c < s.wakeupTime) := by
  induction events generalizing s with
  | nil => simp
  | cons e rest ih =>
    rw [foldl_cons, ih]
    cases e with
    | wake => cases queued : s.queued <;> simp [event, queued]
    | tick counter =>
      by_cases fires : s.blocked ∧ s.wakeupTime ≠ 0 ∧ s.wakeupTime ≤ counter
      · simp only [event, if_pos fires, Bool.false_eq_true, false_and, false_iff]
        exact fun stays => absurd (stays.2.2 fires.2.1 counter mem_cons_self) (UInt64.not_lt.mpr fires.2.2)
      · rw [event, if_neg fires]
        grind

theorem awake_foldl {p q : Bool} : events.foldl event ⟨false, p, 0, q⟩ =
    ⟨false, p || q && decide (.wake ∈ events), 0, q && decide (.wake ∉ events)⟩ := by
  induction events generalizing p q with
  | nil => simp
  | cons e rest ih => cases e <;> cases q <;> simp [event, ih]

theorem sleeps : (if 0 < t.ms then threadSleep (early.foldl event ⟨false, false, 0, true⟩) t.wakeupTime
      else threadBlock (early.foldl event ⟨false, false, 0, true⟩)) =
    if .wake ∈ early then ⟨false, false, 0, false⟩
    else ⟨true, false, if 0 < t.ms then t.wakeupTime else 0, true⟩ := by
  rw [awake_foldl]
  by_cases woken : Event.wake ∈ early <;> simp [threadSleep, threadBlock, woken]
  split <;> rfl

theorem timedWait_eq_none : timedWait t early late final = none ↔ .wake ∉ early ∧ .wake ∉ late ∧
    (0 < t.ms → t.wakeupTime ≠ 0 → ∀ c, .tick c ∈ late → c < t.wakeupTime) := by
  rw [timedWait, sleeps]
  by_cases woken : Event.wake ∈ early <;> by_cases sleeps : 0 < t.ms <;>
    simp [woken, sleeps, blocked_foldl]

theorem timedWait_of_ne_none (goesOn : timedWait t early late final ≠ none) : timedWait t early late final =
    some (if .wake ∉ early ++ late ∧ .wake ∈ final then 0 else -110) := by
  rw [timedWait, sleeps] at goesOn ⊢
  by_cases woken : Event.wake ∈ early
  · simp [woken, awake_foldl]
  · simp_all [awake_foldl, queued_foldl]

/-- The thread's own deadline is never later than the one it was given. -/
theorem Passes.wakeupTime_le (passes : Passes t late) : ∃ c, .tick c ∈ late ∧ t.wakeupTime ≤ c := by
  obtain ⟨c, ticks, past⟩ := passes
  refine ⟨c, ticks, ?_⟩
  have inMs : t.ms.toNat = (t.sec.toNat * 1000000000 + t.nsec.toNat) % 2 ^ 64 / 1000000 := by
    simp [Timeout.ms, UInt64.toNat_div, UInt64.toNat_add, UInt64.toNat_mul]
  have sooner : t.ms.toNat * 1000000 % 2 ^ 64 ≤ t.sec.toNat * 1000000000 + t.nsec.toNat := by omega
  rw [UInt64.le_iff_toNat_le, Timeout.wakeupTime, UInt64.toNat_add, UInt64.toNat_div, UInt64.toNat_mul]
  exact Nat.le_trans (Nat.mod_le _ _) (Nat.le_trans (Nat.add_le_add_left (Nat.div_le_div_right sooner) _) past)

theorem WakesInTime.mem (wakes : WakesInTime t late) : .wake ∈ late := by
  obtain ⟨a, b, rfl, -⟩ := wakes
  simp

/-- A timed wait tells the truth exactly if it is not woken in time before it goes on, and sleeps with a deadline
if the deadline passes. -/
theorem timedWait_truthful_iff : Truthful t early late final ↔ .wake ∉ early ∧ ¬ WakesInTime t late ∧
    (.wake ∉ late → Passes t late → 0 < t.ms ∧ t.wakeupTime ≠ 0) := by
  constructor
  · rintro ⟨woken, -, ends⟩
    have lost (early_or_late : Event.wake ∈ early ++ late) : timedWait t early late final ≠ some 0 := by
      intro zero
      have := timedWait_of_ne_none (zero ▸ Option.some_ne_none 0)
      simp_all
    refine ⟨fun wakes => lost (by simp [wakes]) (woken (.inl wakes)),
      fun wakes => lost (by simp [wakes.mem]) (woken (.inr (.inl wakes))), fun unwoken passes => ?_⟩
    have goesOn := ends passes
    rw [ne_eq, timedWait_eq_none] at goesOn
    by_contra unset
    exact goesOn ⟨fun wakes => lost (by simp [wakes]) (woken (.inl wakes)), unwoken,
      fun positive set => absurd ⟨positive, set⟩ unset⟩
  · rintro ⟨notEarly, notInTime, sleeps⟩
    have ends (passes : Passes t late) : timedWait t early late final ≠ none := by
      rw [ne_eq, timedWait_eq_none]
      rintro ⟨-, unwoken, stays⟩
      obtain ⟨c, ticks, past⟩ := passes.wakeupTime_le
      obtain ⟨positive, set⟩ := sleeps unwoken passes
      exact absurd past (UInt64.not_le.mpr (stays positive set c ticks))
    refine ⟨?_, ?_, ends⟩
    · rintro (wakes | wakes | ⟨wakes, inTime, goesOn⟩)
      · exact absurd wakes notEarly
      · exact absurd wakes notInTime
      · have unwoken : Event.wake ∉ late := by
          intro mem
          obtain ⟨a, b, split⟩ := append_of_mem mem
          refine notInTime ⟨a, b, split, fun c ticks => Nat.lt_of_not_le fun past => inTime ⟨c, ?_, past⟩⟩
          simp [split, ticks]
        simp [timedWait_of_ne_none goesOn, notEarly, unwoken, wakes]
    · intro unwoken passes
      rw [timedWait_of_ne_none (ends passes)]
      simp_all

/-- A wake in time that is reported as a timeout. -/
theorem sleeper_woken_times_out : ¬ Truthful ⟨1, 0, 0, 1⟩ [] [.wake] [] := by
  intro ⟨woken, _, _⟩
  exact absurd (woken (.inr (.inl ⟨[], [], rfl, nofun⟩))) (by decide)

end Voxia.Sys.Futex
