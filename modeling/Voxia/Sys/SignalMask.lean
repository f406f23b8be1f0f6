/-
**Masked signals.**

A masked signal should be kept, and acted on when it is no longer masked. `sig_send` discards it, `SIGKILL` too; the
start of a system call acts on masked signals; a tick takes a signal with the default action back and does nothing.
`deferred_iff` has the runs in which nothing is lost.
-/

import Voxia.Sys.SignalRun

namespace Voxia.Sys.Signal

open Lib.Traces List BitVec

/-- A handler is entered, or the process is ended. -/
def SigHan.acts (h : SigHan) (sig : Nat) : Bool := if h.handler sig = 0 then fatal sig else h.handler sig != 1

def Delivery.signal : Delivery → Option Nat
  | .none => .none
  | .exit sig => some sig
  | .user sig => some sig

def unmasked (s : State) (t : Nat) : SigSet := (sigOf s t).pending &&& ~~~ (sigOf s t).mask

def dispatched (s : State) (t nr : Nat) (active : SigSet) : Option Nat :=
  if looksForSignals nr then (dispatchLoop active signals (sigOf s t)).2.signal else none

/-- The action acts on `sig` for the structure `i`. -/
def Acts (s : State) (i sig : Nat) : Action → Prop
  | .kill sig' targets => sig' = sig ∧ i ∈ targets ∧ (sigSend (s.sigs i) sig).2 ≠ []
  | .syscallEntry t nr => (s.threads t).signal = i ∧ dispatched s t nr (sigOf s t).pending = some sig
  | .syscallExit t nr => (s.threads t).signal = i ∧ dispatched s t nr (unmasked s t) = some sig
  | .tick t => (s.threads t).signal = i ∧ ∃ address, .kernelCall address sig ∈ (tick s t).2
  | _ => False

def Allocates (i : Nat) : Action → Prop
  | .create _ thr => thr.signal = i
  | .cloneCopy _ _ j => j = i
  | _ => False

/-- **Signals are deferred**: no masked signal is acted on, a signal that is sent is pending or acted on, one that
is pending stays so until it is acted on, and a system call acts on a pending signal. -/
structure Deferred (s : State) (a : Action) : Prop where
  masked : ∀ i, ∀ sig ∈ signals, isIn (s.sigs i).mask sig → Acts s i sig a → sig = 9 ∨ sig = 19
  sent : match a with
    | .kill sig targets => sig ∈ signals → ∀ i ∈ targets, isIn ((step s a).1.sigs i).pending sig ∨ Acts s i sig a
    | _ => True
  kept : ∀ i, ¬ Allocates i a → ∀ sig ∈ signals, isIn (s.sigs i).pending sig → (s.sigs i).acts sig →
    isIn ((step s a).1.sigs i).pending sig ∨ Acts s i sig a
  taken : match a with
    | .syscallEntry t nr => looksForSignals nr → ∀ sig ∈ signals, isIn (sigOf s t).pending sig →
        (sigOf s t).acts sig → ∃ sig' ≤ sig, Acts s (s.threads t).signal sig' a
    | _ => True

/-- What each action has to meet for that. -/
def Defers (s : State) : Action → Prop
  | .kill sig targets => sig ∈ signals → ∀ i ∈ targets, isIn (s.sigs i).mask sig → isIn (s.sigs i).pending sig
  | .syscallEntry t nr => looksForSignals nr → ∀ sig,
      signals.find? (fun sig => isIn (sigOf s t).pending sig && (sigOf s t).acts sig) = some sig →
      isIn (sigOf s t).mask sig → sig = 9 ∨ sig = 19
  | .tick t => (s.threads t).inKernelSleep = false → (s.threads t).state ≠ .ready → ∀ sig ∈ signals,
      isIn (unmasked s t) sig → (sigOf s t).handler sig = 0 → fatal sig = false
  | _ => True

/-! ### The sets -/

variable {sig first i : Nat} {h : SigHan} {active : SigSet} {l : List Nat} {s : State}

theorem mem_signals : sig ∈ signals ↔ 1 ≤ sig ∧ sig ≤ 64 := by
  unfold signals
  rw [mem_range'_1]
  omega

theorem isIn_eq (set : SigSet) (valid : sig ∈ signals) : isIn set sig = set.getLsbD (sig - 1) := by
  have inside := mem_signals.mp valid
  have nonzero : twoPow 64 (sig - 1) ≠ 0#64 := by
    intro zero
    have bit := congrArg (fun set => set.getLsbD (sig - 1)) zero
    simp at bit
    omega
  unfold isIn sigBit
  rw [← twoPow_eq, and_twoPow]
  cases set.getLsbD (sig - 1) <;> simp [nonzero]

theorem isIn_sigBit (valid : sig ∈ signals) (valid' : first ∈ signals) : isIn (sigBit first) sig ↔ first = sig := by
  have inside := mem_signals.mp valid
  have inside' := mem_signals.mp valid'
  rw [isIn_eq _ valid, sigBit, ← twoPow_eq, getLsbD_twoPow]
  simp
  omega

theorem isIn_or (a b : SigSet) (valid : sig ∈ signals) : isIn (a ||| b) sig ↔ isIn a sig ∨ isIn b sig := by
  rw [isIn_eq _ valid, isIn_eq _ valid, isIn_eq _ valid, getLsbD_or, Bool.or_eq_true]

theorem isIn_diff (a b : SigSet) (valid : sig ∈ signals) : isIn (a &&& ~~~ b) sig ↔ isIn a sig ∧ ¬ isIn b sig := by
  have inside := mem_signals.mp valid
  rw [isIn_eq _ valid, isIn_eq _ valid, isIn_eq _ valid, getLsbD_and, getLsbD_not,
    decide_eq_true (by omega : sig - 1 < 64)]
  simp

theorem isIn_clear (valid : sig ∈ signals) (valid' : first ∈ signals) :
    isIn (h.clear first).pending sig ↔ isIn h.pending sig ∧ first ≠ sig := by
  rw [SigHan.clear, isIn_diff _ _ valid, isIn_sigBit valid valid']

/-! ### The loops -/

theorem dispatchLoop_signal (l : List Nat) :
    ∀ h, (dispatchLoop active l h).2.signal = l.find? fun sig => isIn active sig && h.acts sig := by
  induction l with
  | nil => exact fun h => rfl
  | cons first rest ih =>
    intro h
    have cleared : (dispatchLoop active rest (h.clear first)).2.signal = _ := ih (h.clear first)
    rw [show (h.clear first).acts = h.acts from rfl] at cleared
    unfold dispatchLoop
    grind [SigHan.acts, Delivery.signal]

theorem dispatchLoop_kept (active : SigSet) (valid : sig ∈ signals) (l : List Nat) :
    l ⊆ signals → ∀ h, isIn h.pending sig → h.acts sig →
      isIn (dispatchLoop active l h).1.pending sig ∨ (dispatchLoop active l h).2.signal = some sig := by
  induction l with
  | nil => exact fun _ h inside _ => .inl inside
  | cons first rest ih =>
    intro within h inside acts
    obtain ⟨valid', within⟩ := cons_subset.mp within
    have later := fun pending => ih within (h.clear first) pending acts
    unfold dispatchLoop
    grind [SigHan.acts, Delivery.signal, isIn_clear]

theorem tickLoop_isIn (valid : sig ∈ signals) (l : List Nat) : l ⊆ signals → ∀ h,
    (isIn (tickLoop active l h).1.pending sig ↔ isIn h.pending sig ∧ ¬ (isIn active sig ∧ sig ∈ l)) := by
  induction l with
  | nil => simp [tickLoop]
  | cons first rest ih =>
    intro within h
    obtain ⟨valid', within⟩ := cons_subset.mp within
    unfold tickLoop
    grind [isIn_clear]

/-! ### The actions -/

theorem sigSend_sent (valid : sig ∈ signals) : (isIn (sigSend h sig).1.pending sig ∨ (sigSend h sig).2 ≠ [] ↔
    (isIn h.mask sig → isIn h.pending sig)) ∧ ((sigSend h sig).2 ≠ [] → ¬ isIn h.mask sig) := by
  unfold sigSend
  grind [mem_signals, isIn_or, isIn_sigBit]

theorem sigSend_kept (valid : sig ∈ signals) (inside : isIn h.pending sig) : isIn (sigSend h first).1.pending sig := by
  unfold sigSend
  grind [isIn_or]

theorem sendAll_sigs (sig : Nat) (targets : List Nat) : ∀ s i, (sendAll sig targets s).1.sigs i =
    if i ∈ targets then (sigSend (s.sigs i) sig).1 else s.sigs i := by
  have again : ∀ h, (sigSend (sigSend h sig).1 sig).1 = (sigSend h sig).1 := by
    intro h
    unfold sigSend
    grind
  induction targets with
  | nil => exact fun s i => rfl
  | cons j rest ih =>
    intro s i
    unfold sendAll
    grind [sigs_setSig]

theorem kill_iff (sig : Nat) (targets : List Nat) : Deferred s (.kill sig targets) ↔ Defers s (.kill sig targets) := by
  have after : ∀ i, (step s (.kill sig targets)).1.sigs i = _ := sendAll_sigs sig targets s
  constructor
  · intro deferred valid i target
    have sent := deferred.sent valid i target
    rw [after, if_pos target] at sent
    exact (sigSend_sent valid).1.mp (sent.imp_right fun acts => acts.2.2)
  · intro defers
    refine ⟨fun i sig' valid masked acts => ?_, fun valid i target => ?_, fun i _ sig' valid inside _ => ?_, trivial⟩
    · obtain ⟨rfl, -, entered⟩ := acts
      exact absurd masked ((sigSend_sent valid).2 entered)
    · rw [after, if_pos target]
      exact ((sigSend_sent valid).1.mpr (defers valid i target)).imp_right (⟨rfl, target, ·⟩)
    · grind [sigSend_kept]

theorem dispatchSignals_kept (t nr : Nat) (active : SigSet) (rax : UInt64) (valid : sig ∈ signals)
    (inside : isIn (s.sigs i).pending sig) (acts : (s.sigs i).acts sig) :
    isIn ((dispatchSignals s t nr active rax).1.sigs i).pending sig ∨
      (s.threads t).signal = i ∧ dispatched s t nr active = some sig := by
  have kept := dispatchLoop_kept active valid signals (Subset.refl _) (sigOf s t)
  have after : looksForSignals nr → (dispatchSignals s t nr active rax).1.sigs =
      (setSig s (s.threads t).signal (dispatchLoop active signals (sigOf s t)).1).sigs := by
    intro looks
    unfold dispatchSignals exitGroup
    grind [enterHandler, setThread]
  unfold dispatched
  by_cases looks : looksForSignals nr
  · rw [after looks, sigs_setSig]
    grind [sigOf]
  · rw [dispatchSignals, if_neg looks]
    exact .inl inside

theorem syscallEntry_iff (t nr : Nat) : Deferred s (.syscallEntry t nr) ↔ Defers s (.syscallEntry t nr) := by
  have found : ∀ sig, dispatched s t nr (sigOf s t).pending = some sig ↔ looksForSignals nr ∧
      signals.find? (fun sig => isIn (sigOf s t).pending sig && (sigOf s t).acts sig) = some sig := by
    intro sig
    unfold dispatched
    rw [dispatchLoop_signal]
    cases looksForSignals nr <;> simp
  constructor
  · intro deferred looks sig first masked
    exact deferred.masked _ sig (mem_of_find?_eq_some first) masked ⟨rfl, (found sig).mpr ⟨looks, first⟩⟩
  · intro defers
    refine ⟨fun i sig _ masked acts => ?_, trivial, fun i _ sig valid => dispatchSignals_kept t nr _ _ valid,
      fun looks sig valid inside acts => ?_⟩
    · obtain ⟨rfl, first⟩ := acts
      obtain ⟨looks, first⟩ := (found sig).mp first
      exact defers looks sig first masked
    · -- the loop stops at the first such signal
      have some' : (signals.find? fun sig => isIn (sigOf s t).pending sig && (sigOf s t).acts sig).isSome :=
        find?_isSome.mpr ⟨sig, valid, by rw [inside, acts]; rfl⟩
      obtain ⟨sig', first⟩ := Option.isSome_iff_exists.mp some'
      refine ⟨sig', ?_, rfl, (found sig').mpr ⟨looks, first⟩⟩
      have earlier := (find?_range'_eq_some.mp first).2.2 sig (mem_signals.mp valid).1
      grind

/-- A tick defers exactly under its condition. -/
theorem tick_iff (t : Nat) : Deferred s (.tick t) ↔ Defers s (.tick t) := by
  by_cases idle : (s.threads t).inKernelSleep ∨ (s.threads t).state = .ready
  · have nothing : (tick s t).1.sigs = s.sigs ∧ (tick s t).2 = [] := by
      unfold tick
      grind [setThread]
    constructor
    · grind [Defers]
    · exact fun _ => ⟨by grind [Acts], trivial, by grind [step], trivial⟩
  · have loop : tick s t = (setSig s (s.threads t).signal
          (tickLoop (unmasked s t) signals (sigOf s t)).1,
        (tickLoop (unmasked s t) signals (sigOf s t)).2) := by
      unfold tick unmasked
      grind
    have acts : ∀ i sig, Acts s i sig (.tick t) ↔ (s.threads t).signal = i ∧ sig ∈ signals ∧
        isIn (unmasked s t) sig ∧ (sigOf s t).handler sig ≠ 0 := by
      intro i sig
      rw [Acts, loop]
      simp only [mem_tickLoop]
      constructor
      · rintro ⟨here, _, _, valid, active, handler, same⟩
        cases same
        exact ⟨here, valid, active, handler⟩
      · rintro ⟨here, valid, active, handler⟩
        exact ⟨here, _, sig, valid, active, handler, rfl⟩
    have after : ∀ i, ∀ sig ∈ signals, (isIn ((step s (.tick t)).1.sigs i).pending sig ↔ isIn (s.sigs i).pending sig ∧
        ¬ ((s.threads t).signal = i ∧ isIn (unmasked s t) sig)) := by
      intro i sig valid
      rw [step, loop, sigs_setSig]
      grind [tickLoop_isIn valid signals (Subset.refl _), sigOf]
    constructor
    · intro deferred _ _ sig valid active default'
      have kept := deferred.kept (s.threads t).signal id sig valid
      grind [unmasked, isIn_diff, SigHan.acts, sigOf]
    · intro defers
      refine ⟨fun i sig valid masked acted => ?_, trivial, fun i _ sig valid inside isActed => ?_, trivial⟩
      · grind [unmasked, isIn_diff, sigOf]
      · have harmless := defers (by grind) (by grind) sig valid
        grind [SigHan.acts, sigOf]

/-- **One action.** -/
theorem step_iff (s : State) (a : Action) : Deferred s a ↔ Defers s a := by
  cases a with
  | kill sig targets => exact kill_iff sig targets
  | syscallEntry t nr => exact syscallEntry_iff t nr
  | tick t => exact tick_iff t
  | syscallExit t nr =>
    refine iff_of_true ⟨fun i sig valid masked ⟨here, found⟩ => ?_, trivial,
      fun i _ sig valid => dispatchSignals_kept t nr _ _ valid, trivial⟩ trivial
    unfold dispatched at found
    rw [dispatchLoop_signal] at found
    grind [find?_eq_some_iff_append, unmasked, isIn_diff, sigOf]
  | rtSigaction t sig act =>
    refine iff_of_true ⟨fun _ _ _ _ acts => acts.elim, trivial, fun i _ sig' _ inside _ => .inl ?_, trivial⟩ trivial
    unfold step sigAction
    dsimp only
    split_ifs <;> grind [sigs_setSig, sigOf]
  | _ =>
    refine iff_of_true ⟨fun _ _ _ _ acts => acts.elim, trivial, fun i fresh sig _ inside _ => .inl ?_, trivial⟩ trivial
    -- the pending signals of every structure that is not new are the same
    simp only [Allocates] at fresh
    grind [step, sigs_setSig, sigprocmask, resetHandlers, exitGroup, exception, enterHandler, setThread, sigOf]

/-- **The runs in which signals are deferred.** -/
theorem deferred_iff (actions : List Action) : Along step Deferred init actions ↔ Along step Defers init actions :=
  along_iff (fun _ _ (_ : True) _ => trivial) (fun s a _ => step_iff s a) actions init trivial

/-- `SIGTERM` is masked, sent and no longer masked: it is lost. -/
theorem masked_discarded : ¬ Along step Deferred init
    [.rtSigprocmask 0 0 (sigBit 15), .kill 15 [0], .rtSigprocmask 0 1 (sigBit 15)] := by
  intro along
  rcases along.2.1.sent (by decide) 0 (by decide) with pending | acts
  · exact absurd pending (by decide)
  · exact acts.2.2 (by decide)

/-! ### `SIGKILL` and `SIGSTOP` -/

def Entry.signal : Entry → Nat
  | .kernelCall _ sig => sig
  | .userReturn _ sig _ => sig

def Uncaught (s : State) : Prop := ∀ i, (s.sigs i).handler 9 = 0 ∧ (s.sigs i).handler 19 = 0

/-- Neither of the two signals has a handler, and none was entered for it. -/
structure NeverCaught (r : State × List Entry) : Prop where
  uncaught : Uncaught r.1
  entries : ∀ e ∈ r.2, e.signal ≠ 9 ∧ e.signal ≠ 19

theorem Uncaught.ne (uncaught : Uncaught s) (caught : (s.sigs i).handler sig ≠ 0) : sig ≠ 9 ∧ sig ≠ 19 :=
  ⟨fun same => caught (same ▸ (uncaught i).1), fun same => caught (same ▸ (uncaught i).2)⟩

theorem Uncaught.setSig (uncaught : Uncaught s) (new : h.handler 9 = 0 ∧ h.handler 19 = 0) : Uncaught (setSig s i h) := by
  intro j
  rw [sigs_setSig]
  split
  · exact new
  · exact uncaught j

theorem Uncaught.exitGroup (uncaught : Uncaught s) (t : Nat) : NeverCaught (exitGroup s t) := by
  unfold Signal.exitGroup
  dsimp only
  split
  · exact ⟨uncaught, forall_mem_nil _⟩
  · refine ⟨uncaught, fun e inside => ?_⟩
    obtain ⟨rfl, -⟩ := mem_sigSend.mp inside
    simp [Entry.signal]

theorem Uncaught.enterHandler (uncaught : Uncaught s) (t : Nat) (caught : (sigOf s t).handler sig ≠ 0) (saved : Frame) :
    NeverCaught (enterHandler s t sig saved) :=
  ⟨uncaught, forall_mem_singleton.mpr (uncaught.ne caught)⟩

theorem Uncaught.dispatchSignals (uncaught : Uncaught s) (t nr : Nat) (active : SigSet) (rax : UInt64) :
    NeverCaught (dispatchSignals s t nr active rax) := by
  obtain ⟨p, loop⟩ := dispatchLoop_pending active signals (sigOf s t)
  have caught := dispatchLoop_user active signals (sigOf s t)
  have after : Uncaught (Signal.setSig s (s.threads t).signal { sigOf s t with pending := p }) :=
    uncaught.setSig (uncaught _)
  unfold Signal.dispatchSignals
  split
  · revert loop caught
    rcases dispatchLoop active signals (sigOf s t) with ⟨h, delivery⟩
    rintro rfl caught
    cases delivery with
    | none => exact ⟨after, forall_mem_nil _⟩
    | exit sig => exact after.exitGroup t
    | user sig => exact after.enterHandler t (by simpa [sigOf, Signal.setSig] using caught sig rfl) _
  · exact ⟨uncaught, forall_mem_nil _⟩

/-- **Step**: SIGKILL and SIGSTOP are never caught. -/
theorem step_neverCaught (s : State) (a : Action) (uncaught : Uncaught s) : NeverCaught (step s a) := by
  cases a with
  | kill sig targets =>
    refine ⟨fun i => ?_, fun e inside => ?_⟩
    · rw [step, sendAll_sigs]
      grind [sigSend_handler, Uncaught]
    · obtain ⟨i, -, sent⟩ := (mem_sendAll targets s).mp inside
      obtain ⟨rfl, -, -, -, caught, -⟩ := mem_sigSend.mp sent
      exact uncaught.ne caught
  | tick t =>
    obtain ⟨p, loop⟩ := tickLoop_pending ((sigOf s t).pending &&& ~~~ (sigOf s t).mask) signals (sigOf s t)
    unfold step tick
    dsimp only
    split_ifs
    · exact ⟨uncaught, forall_mem_nil _⟩
    · exact ⟨uncaught, forall_mem_nil _⟩
    · refine ⟨uncaught.setSig (loop ▸ uncaught _), fun e inside => ?_⟩
      obtain ⟨sig, -, -, caught, rfl⟩ := (mem_tickLoop signals (sigOf s t)).mp inside
      exact uncaught.ne caught
  | rtSigaction t sig act =>
    unfold step sigAction
    dsimp only
    split_ifs
    · exact ⟨uncaught, forall_mem_nil _⟩
    · exact ⟨uncaught, forall_mem_nil _⟩
    · exact ⟨uncaught.setSig (by grind [Uncaught, sigOf]), forall_mem_nil _⟩
  | rtSigprocmask t how set =>
    refine ⟨uncaught.setSig ?_, forall_mem_nil _⟩
    unfold sigprocmask
    split_ifs <;> exact uncaught _
  | syscallEntry t nr => exact uncaught.dispatchSignals t nr _ _
  | syscallExit t nr => exact uncaught.dispatchSignals t nr _ _
  | exitGroup t => exact uncaught.exitGroup t
  | exception t vector =>
    unfold step exception
    dsimp only
    split_ifs with caught
    · exact uncaught.enterHandler t caught.1 _
    · exact ⟨uncaught, forall_mem_nil _⟩
  | sigreturn t =>
    unfold step
    dsimp only
    split <;> exact ⟨uncaught, forall_mem_nil _⟩
  | execve t => exact ⟨uncaught.setSig (by grind [resetHandlers, Uncaught, sigOf]), forall_mem_nil _⟩
  | create t thr => exact ⟨Uncaught.setSig (s := setThread s t thr) uncaught ⟨rfl, rfl⟩, forall_mem_nil _⟩
  | cloneCopy t child i =>
    exact ⟨Uncaught.setSig (s := setThread s child _) uncaught (uncaught _), forall_mem_nil _⟩
  | _ => exact ⟨uncaught, forall_mem_nil _⟩

/-- **`SIGKILL` and `SIGSTOP` are never caught.** -/
theorem run_neverCaught (actions : List Action) : NeverCaught (run step init actions) := by
  have keeps := fun s a uncaught => (step_neverCaught s a uncaught).uncaught
  have start : Uncaught init := fun _ => ⟨rfl, rfl⟩
  exact ⟨run_inv keeps actions init start, @run_events _ _ _ step _ (fun _ e => e.signal ≠ 9 ∧ e.signal ≠ 19) keeps
    (fun s a e uncaught => (step_neverCaught s a uncaught).entries e) (fun _ _ _ told => told) actions init start⟩

end Voxia.Sys.Signal
