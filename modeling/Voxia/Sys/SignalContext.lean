/-
**What `rt_sigreturn` restores.**

A delivery saves the registers in the one `saved_reg` of the thread. A `Script` is a properly nested sequence of
deliveries and returns, with user code between them; `step_deliver` and `step_sigreturn` say that its events are the
actions of the system. So a handler that ran inside another one, and a restart of a call that was not interrupted,
lead back to the wrong place.
-/

import Voxia.Sys.SignalRun

namespace Voxia.Sys.Signal

open Function

/-- Where a handler is delivered: at the start and the end of a system call, and by an exception. -/
inductive Site
  | entry (nr : Nat)
  | exit (nr : Nat)
  | exception (vector : Nat)

def Site.action (t : Nat) : Site → Action
  | .entry nr => .syscallEntry t nr
  | .exit nr => .syscallExit t nr
  | .exception vector => .exception t vector

def Site.saved (frame : Frame) (h : SigHan) (sig : Nat) : Site → Frame
  | .entry nr => savedFrame frame h sig (UInt64.ofNat nr) minusEIntr
  | .exit nr => savedFrame frame h sig (UInt64.ofNat nr) frame.rax
  | .exception _ => frame

def Delivers (s : State) (t sig : Nat) : Site → Prop
  | .entry nr => looksForSignals nr ∧ (dispatchLoop (sigOf s t).pending signals (sigOf s t)).2 = .user sig
  | .exit nr => looksForSignals nr ∧
      (dispatchLoop ((sigOf s t).pending &&& ~~~ (sigOf s t).mask) signals (sigOf s t)).2 = .user sig
  | .exception vector => exceptionSignal vector = sig ∧ (sigOf s t).handler sig ≠ 0 ∧ (sigOf s t).handler sig ≠ 1

/-! ### One thread -/

def Thread.deliver (thr : Thread) (h : SigHan) (sig : Nat) (saved : Frame) : Thread :=
  { thr with savedReg := some saved, frame := handlerFrame thr.frame h sig }

def Thread.sigreturn (thr : Thread) : Thread :=
  match thr.savedReg with
  | some frame => { thr with frame := frame, savedReg := none }
  | none => thr

variable {s : State} {t nr sig : Nat}

theorem threads_setThread (s : State) (t : Nat) (thr : Thread) : (setThread s t thr).threads t = thr :=
  update_self t _ s.threads

/-- A return of a script is the `rt_sigreturn` of the system. -/
theorem step_sigreturn (s : State) (t : Nat) : (step s (.sigreturn t)).1.threads t = (s.threads t).sigreturn := by
  unfold step Thread.sigreturn
  dsimp only
  cases (s.threads t).savedReg with
  | some frame => exact threads_setThread s t _
  | none => rfl

theorem dispatchSignals_deliver {active : SigSet} {rax : UInt64} (looks : looksForSignals nr)
    (loop : (dispatchLoop active signals (sigOf s t)).2 = .user sig) :
    (dispatchSignals s t nr active rax).1.threads t = (s.threads t).deliver (sigOf s t) sig
      (savedFrame (s.threads t).frame (sigOf s t) sig (UInt64.ofNat nr) rax) := by
  obtain ⟨p, rest⟩ := dispatchLoop_pending active signals (sigOf s t)
  unfold dispatchSignals
  rw [if_pos looks]
  revert loop rest
  rcases dispatchLoop active signals (sigOf s t) with ⟨h, delivery⟩
  rintro rfl rfl
  have here : sigOf (setSig s (s.threads t).signal { sigOf s t with pending := p }) t = { sigOf s t with pending := p } :=
    (sigs_setSig s _ _ _).trans (if_pos rfl)
  dsimp only [enterHandler]
  rw [threads_setThread, here]
  rfl

/-- **A delivery of the system** is the delivery of the thread. -/
theorem step_deliver (site : Site) (delivers : Delivers s t sig site) :
    (step s (site.action t)).1.threads t =
      (s.threads t).deliver (sigOf s t) sig (site.saved (s.threads t).frame (sigOf s t) sig) := by
  cases site with
  | entry nr => exact dispatchSignals_deliver delivers.1 delivers.2
  | exit nr => exact dispatchSignals_deliver delivers.1 delivers.2
  | exception vector =>
    obtain ⟨rfl, caught⟩ := delivers
    show (exception s t vector).1.threads t = _
    unfold exception
    rw [if_pos caught]
    exact threads_setThread s t _

/-! ### Nested handlers -/

/-- User code, and handlers that are delivered, run and return. -/
inductive Script
  | done
  | user (frame : Frame) (rest : Script)
  | handled (site : Site) (h : SigHan) (sig : Nat) (handler rest : Script)

namespace Script

def run : Script → Thread → Thread
  | .done, thr => thr
  | .user frame rest, thr => rest.run { thr with frame := frame }
  | .handled site h sig handler rest, thr =>
    rest.run (handler.run (thr.deliver h sig (site.saved thr.frame h sig))).sigreturn

def quiet : Script → Bool
  | .done => true
  | .user _ rest => rest.quiet
  | .handled .. => false

/-- Something holds of each handler: the registers saved for it, its script and the thread where it returns. -/
def Each (p : Frame → Script → Thread → Prop) : Script → Thread → Prop
  | .done, _ => True
  | .user frame rest, thr => rest.Each p { thr with frame := frame }
  | .handled site h sig handler rest, thr =>
    let saved := site.saved thr.frame h sig
    let inside := handler.run (thr.deliver h sig saved)
    handler.Each p (thr.deliver h sig saved) ∧ p saved handler inside ∧ rest.Each p inside.sigreturn

/-- Every return restores what its delivery saved. -/
def Restores : Script → Thread → Prop := Each fun saved _ thr => thr.sigreturn.frame = saved

/-- The one place for saved registers is still the delivery's own, or nothing has to be restored. -/
def Meets : Script → Thread → Prop := Each fun saved handler thr => handler.quiet ∨ thr.frame = saved

end Script

theorem savedReg_sigreturn (thr : Thread) : thr.sigreturn.savedReg = none := by
  unfold Thread.sigreturn
  split
  · rfl
  · assumption

theorem savedReg_run (script : Script) :
    ∀ thr, (script.run thr).savedReg = if script.quiet then thr.savedReg else none := by
  induction script with
  | done => exact fun thr => rfl
  | user frame rest ih => exact fun thr => ih { thr with frame := frame }
  | handled site h sig handler rest _ ih =>
    intro thr
    rw [Script.run, ih, savedReg_sigreturn]
    exact ite_self _

theorem frame_sigreturn {thr : Thread} {saved : Frame} {quiet : Bool}
    (kept : thr.savedReg = if quiet then some saved else none) :
    thr.sigreturn.frame = saved ↔ quiet ∨ thr.frame = saved := by
  unfold Thread.sigreturn
  rw [kept]
  cases quiet with
  | true => exact iff_of_true rfl (.inl rfl)
  | false => exact ⟨.inr, fun same => same.resolve_left (by decide)⟩

/-- **Signal contexts**: over any nested sequence of handlers, every return restores the registers its
delivery saved if and only if the sequence meets the condition. -/
theorem restores_iff (script : Script) : ∀ thr, script.Restores thr ↔ script.Meets thr := by
  induction script with
  | done => exact fun thr => Iff.rfl
  | user frame rest ih => exact fun thr => ih { thr with frame := frame }
  | handled site h sig handler rest ihHandler ihRest =>
    exact fun thr => and_congr (ihHandler _) (and_congr (frame_sigreturn (savedReg_run handler _)) (ihRest _))

def twoHandlers : SigHan :=
  { allocSigHandle with handler := fun sig => if sig = 10 then 0x401000 else if sig = 11 then 0x402000 else 0 }

/-- The handler of `SIGUSR1` is interrupted by a page fault with a handler of its own: the inner return
empties the place, and the program goes on with the registers of the outer handler. -/
theorem nested_lost :
    let inside : Frame := { (default : Frame) with rip := 0x401010, rsp := 0x6000, rbx := 3 }
    let script := Script.handled (.entry 0) twoHandlers 10
      (.user inside (.handled (.exception 14) twoHandlers 11 .done .done)) .done
    (script.run oneThread).frame = inside ∧ ¬ script.Restores oneThread := by
  refine ⟨rfl, fun ⟨_, restored, _⟩ => ?_⟩
  have rip := congrArg Frame.rip restored
  exact absurd rip (by decide)

/-! ### Restarted calls -/

/-- The registers the program goes on with when the handler delivered at the end of a call has left `frame`
and returned. -/
def resumed (s : State) (t nr : Nat) (frame : Frame) : Frame :=
  let s := (step s (.syscallExit t nr)).1
  let s := setThread s t { s.threads t with frame := frame }
  ((step s (.sigreturn t)).1.threads t).frame

theorem resumed_eq (delivers : Delivers s t sig (.exit nr)) (frame : Frame) :
    resumed s t nr frame = (Site.exit nr).saved (s.threads t).frame (sigOf s t) sig := by
  unfold resumed
  dsimp only
  rw [step_sigreturn, threads_setThread, show (step s (.syscallExit t nr)).1.threads t = _ from step_deliver _ delivers]
  rfl

/-- **Restarting**: a program whose call was not interrupted goes on behind it with the result if and only
if the handler has no `SA_RESTART`. -/
theorem resumed_iff (delivers : Delivers s t sig (.exit nr)) (frame : Frame) :
    ((s.threads t).frame.rax ≠ minusEIntr → resumed s t nr frame = (s.threads t).frame) ↔
      (s.threads t).frame.rax = minusEIntr ∨ (sigOf s t).flags sig &&& saRestart = 0 := by
  rw [← or_iff_not_imp_left, resumed_eq delivers frame]
  refine or_congr_right ?_
  unfold Site.saved savedFrame
  dsimp only
  split
  · rename_i restarts
    refine iff_of_false (fun same => ?_) restarts
    grind
  · rename_i plain
    exact iff_of_true rfl (not_not.mp plain)

def fiveRead (flags : UInt64) : State :=
  (Lib.Traces.run step init [.create 1 { oneThread with frame := { oneThread.frame with rip := 0x400002, rax := 5 } },
    .rtSigaction 1 10 ⟨0x401000, flags, 0, 0⟩, .kill 10 [0]]).1

theorem fiveRead_delivers : Delivers (fiveRead 0) 1 10 (.exit 0) := by
  unfold Delivers
  decide +kernel

theorem fiveRead_resumed : resumed (fiveRead 0) 1 0 default = ((fiveRead 0).threads 1).frame :=
  (resumed_iff fiveRead_delivers _).mpr (.inr (by decide)) (by decide)

/-- With `SA_RESTART` the `read` is executed a second time, and its five bytes are lost. -/
theorem fiveRead_again :
    let frame := resumed (fiveRead saRestart) 1 0 default
    frame.rip = 0x400000 ∧ frame.rax = 0 := by
  decide +kernel

end Voxia.Sys.Signal
