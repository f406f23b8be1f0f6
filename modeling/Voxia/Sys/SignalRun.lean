/-
**Where handlers run.**

Every handler that is not the default was stored by `sig_action` (`Inv`), so every handler the kernel calls is an
address of the user's choice. The kernel calls one in two places only: `sig_send`, if the address is in the kernel's
half, and the scheduler, for a pending signal of the thread it goes on with. The other places return to user mode.
-/

import Voxia.Sys.Signal

namespace Voxia.Sys.Signal

open Lib.Traces Function List

def Harmless : Entry → Prop
  | .kernelCall _ _ => False
  | .userReturn _ _ _ => True

def Called (s : State) : Entry → Prop
  | .kernelCall address _ => address ∈ s.installed
  | .userReturn rip _ _ => rip ∈ s.installed

/-- **The invariant**: every handler is the default or was installed; the structures of processes have
none. -/
structure Inv (s : State) : Prop where
  handlers : ∀ i sig, (s.sigs i).handler sig ≠ 0 → (s.sigs i).handler sig ∈ s.installed
  process : ∀ i sig, (s.procSigs i).handler sig = 0

def Meets (s : State) : Action → Prop
  | .kill sig targets => ∀ i ∈ targets, 1 ≤ sig → sig ≤ 64 → isIn (s.sigs i).mask sig = false →
      (s.sigs i).handler sig < kernelBase
  | .tick t => (s.threads t).inKernelSleep = false → (s.threads t).state ≠ .ready →
      ∀ sig ∈ signals, isIn ((sigOf s t).pending &&& ~~~ (sigOf s t).mask) sig → (sigOf s t).handler sig = 0
  | _ => True

/-! ### The structures -/

theorem sigSend_handler (h : SigHan) (sig : Nat) :
    (sigSend h sig).1.handler = h.handler ∧ (sigSend h sig).1.mask = h.mask := by
  unfold sigSend
  split
  · exact ⟨rfl, rfl⟩
  · split
    · exact ⟨rfl, rfl⟩
    · split <;> exact ⟨rfl, rfl⟩

variable {sig : Nat} {e : Entry} {s : State}

theorem mem_sigSend {h : SigHan} :
    e ∈ (sigSend h sig).2 ↔ e = .kernelCall (h.handler sig) sig ∧ 1 ≤ sig ∧ sig ≤ 64 ∧ isIn h.mask sig = false ∧
      h.handler sig ≠ 0 ∧ kernelBase ≤ h.handler sig := by
  unfold sigSend
  by_cases outside : sig < 1 ∨ sig > 64
  · rw [if_pos outside]
    exact ⟨fun inside => (not_mem_nil inside).elim, fun ⟨_, low, high, _⟩ => by omega⟩
  · rw [if_neg outside]
    by_cases masked : isIn h.mask sig
    · rw [if_pos masked]
      exact ⟨fun inside => (not_mem_nil inside).elim, fun ⟨_, _, _, free, _⟩ => by rw [masked] at free; cases free⟩
    · rw [if_neg masked]
      have free : isIn h.mask sig = false := Bool.eq_false_iff.mpr masked
      by_cases kernel : h.handler sig ≠ 0 ∧ kernelBase ≤ h.handler sig
      · rw [if_pos kernel]
        exact ⟨fun inside => ⟨mem_singleton.mp inside, by omega, by omega, free, kernel⟩,
          fun ⟨same, _⟩ => mem_singleton.mpr same⟩
      · rw [if_neg kernel]
        exact ⟨fun inside => (not_mem_nil inside).elim, fun ⟨_, _, _, _, kernel'⟩ => absurd kernel' kernel⟩

theorem tickLoop_pending (active : SigSet) (l : List Nat) :
    ∀ h, ∃ p, (tickLoop active l h).1 = { h with pending := p } := by
  induction l with
  | nil => exact fun h => ⟨h.pending, rfl⟩
  | cons sig rest ih =>
    intro h
    unfold tickLoop
    split
    · exact ih (h.clear sig)
    · exact ih h

theorem mem_tickLoop {active : SigSet} (l : List Nat) : ∀ h, e ∈ (tickLoop active l h).2 ↔
    ∃ sig ∈ l, isIn active sig ∧ h.handler sig ≠ 0 ∧ e = .kernelCall (h.handler sig) sig := by
  induction l with
  | nil => exact fun h => ⟨fun inside => (not_mem_nil inside).elim, fun ⟨_, inside, _⟩ => (not_mem_nil inside).elim⟩
  | cons sig rest ih =>
    intro h
    have handlers : (h.clear sig).handler = h.handler := rfl
    unfold tickLoop
    by_cases isActive : isIn active sig
    · rw [if_pos isActive]
      dsimp only
      rw [handlers]
      by_cases default' : h.handler sig = 0
      · rw [if_neg (by simpa using default'), ih (h.clear sig), handlers]
        simp [default']
      · rw [if_pos default', mem_cons, ih (h.clear sig), handlers]
        simp [default', isActive]
    · rw [if_neg isActive, ih h]
      simp [isActive]

theorem dispatchLoop_pending (active : SigSet) (l : List Nat) :
    ∀ h, ∃ p, (dispatchLoop active l h).1 = { h with pending := p } := by
  induction l with
  | nil => exact fun h => ⟨h.pending, rfl⟩
  | cons sig rest ih =>
    intro h
    unfold dispatchLoop
    split
    · split
      · split
        · exact ⟨_, rfl⟩
        · exact ih h
      · split
        · exact ih (h.clear sig)
        · exact ⟨_, rfl⟩
    · exact ih h

theorem dispatchLoop_user (active : SigSet) (l : List Nat) : ∀ h sig, (dispatchLoop active l h).2 = .user sig →
    h.handler sig ≠ 0 := by
  induction l with
  | nil => exact fun h sig found => by cases found
  | cons first rest ih =>
    intro h sig found
    unfold dispatchLoop at found
    split at found
    · split at found
      · split at found
        · cases found
        · exact ih h sig found
      · rename_i other
        split at found
        · exact ih (h.clear first) sig found
        · obtain rfl := Delivery.user.inj found
          exact other
    · exact ih h sig found

/-! ### The invariant -/

/-- A change that keeps the invariant and takes no installed address back. -/
structure Keeps (s s' : State) : Prop where
  inv : Inv s → Inv s'
  installed : s.installed ⊆ s'.installed

namespace Keeps

variable {s s' s'' : State} {i t : Nat} {h : SigHan}

theorem refl (s : State) : Keeps s s := ⟨id, List.Subset.refl _⟩

theorem trans (first : Keeps s s') (second : Keeps s' s'') : Keeps s s'' :=
  ⟨second.inv ∘ first.inv, List.Subset.trans first.installed second.installed⟩

theorem setSig (stored : Inv s → ∀ sig, h.handler sig ≠ 0 → h.handler sig ∈ s.installed) : Keeps s (setSig s i h) := by
  refine ⟨fun inv => ⟨fun j sig nonzero => ?_, inv.process⟩, List.Subset.refl _⟩
  rw [sigs_setSig] at nonzero ⊢
  split at nonzero
  · rename_i same
    rw [if_pos same]
    exact stored inv sig nonzero
  · rename_i other
    rw [if_neg other]
    exact inv.handlers j sig nonzero

theorem setThread (thr : Thread) : Keeps s (setThread s t thr) :=
  ⟨fun inv => ⟨inv.handlers, inv.process⟩, List.Subset.refl _⟩

theorem sameHandlers {j : Nat} (same : h.handler = (s.sigs j).handler) : Keeps s (Signal.setSig s i h) :=
  setSig fun inv sig nonzero => by
    rw [same] at nonzero ⊢
    exact inv.handlers j sig nonzero

theorem pending (s : State) (t : Nat) (p : SigSet) :
    Keeps s (Signal.setSig s (s.threads t).signal { sigOf s t with pending := p }) :=
  sameHandlers (j := (s.threads t).signal) rfl

theorem exitGroup (s : State) (t : Nat) : Keeps s (exitGroup s t).1 := by
  unfold Signal.exitGroup
  dsimp only
  split
  · exact setThread _
  · rename_i p _
    refine ⟨fun inv => ⟨inv.handlers, fun j sig => ?_⟩, List.Subset.refl _⟩
    show (update s.procSigs p _ j).handler sig = 0
    by_cases same : j = p
    · obtain rfl := same
      rw [update_self, (sigSend_handler _ _).1]
      exact inv.process j sig
    · rw [update_of_ne same]
      exact inv.process j sig

theorem dispatchSignals (s : State) (t nr : Nat) (active : SigSet) (rax : UInt64) :
    Keeps s (dispatchSignals s t nr active rax).1 := by
  obtain ⟨p, loop⟩ := dispatchLoop_pending active signals (sigOf s t)
  unfold Signal.dispatchSignals
  split
  · revert loop
    rcases dispatchLoop active signals (sigOf s t) with ⟨h, delivery⟩
    rintro rfl
    cases delivery with
    | none => exact pending s t p
    | exit sig => exact (pending s t p).trans (exitGroup _ t)
    | user sig => exact (pending s t p).trans (setThread _)
  · exact refl s

theorem sendAll (sig : Nat) (targets : List Nat) : ∀ s, Keeps s (sendAll sig targets s).1 := by
  induction targets with
  | nil => exact refl
  | cons i rest ih => exact fun s => (sameHandlers (sigSend_handler (s.sigs i) sig).1).trans (ih _)

end Keeps

/-- **Step**: every action keeps the invariant. -/
theorem step_keeps (s : State) (a : Action) : Keeps s (step s a).1 := by
  cases a with
  | rtSigaction t sig act =>
    unfold step
    dsimp only
    cases stored : sigAction (sigOf s t) sig act with
    | none => exact .refl s
    | some h =>
      have more : Keeps s { s with installed := act.handler :: s.installed } :=
        ⟨fun inv => ⟨fun i sig nonzero => mem_cons_of_mem _ (inv.handlers i sig nonzero), inv.process⟩,
          subset_cons_self _ _⟩
      refine more.trans (.setSig fun inv sig' nonzero => ?_)
      unfold sigAction at stored
      split at stored
      · cases stored
      · split at stored
        · cases stored
        · obtain rfl := Option.some.inj stored
          dsimp only at nonzero ⊢
          by_cases same : sig' = sig
          · obtain rfl := same
            rw [update_self]
            exact mem_cons_self
          · rw [update_of_ne same] at nonzero ⊢
            exact inv.handlers _ sig' nonzero
  | rtSigprocmask t how set =>
    refine .sameHandlers (j := (s.threads t).signal) ?_
    unfold sigprocmask
    split
    · rfl
    · split
      · rfl
      · split <;> rfl
  | kill sig targets => exact .sendAll sig targets s
  | syscallEntry t nr => exact .dispatchSignals s t nr _ _
  | syscallExit t nr => exact .dispatchSignals s t nr _ _
  | sigreturn t =>
    unfold step
    dsimp only
    split
    · exact .setThread _
    · exact .refl s
  | tick t =>
    obtain ⟨p, loop⟩ := tickLoop_pending ((sigOf s t).pending &&& ~~~ (sigOf s t).mask) signals (sigOf s t)
    unfold step tick
    dsimp only
    split
    · exact .refl s
    · split
      · exact .setThread _
      · rw [loop]
        exact .pending s t p
  | exception t vector =>
    unfold step exception
    dsimp only
    split
    · exact .setThread _
    · exact .setThread _
  | exitGroup t => exact .exitGroup s t
  | execve t =>
    refine .setSig fun inv sig nonzero => ?_
    have kept : (resetHandlers (sigOf s t)).handler sig = (sigOf s t).handler sig := by
      unfold resetHandlers at nonzero ⊢
      dsimp only at nonzero ⊢
      split at nonzero
      · exact absurd rfl nonzero
      · rename_i default'
        rw [if_neg default']
    rw [kept] at nonzero ⊢
    exact inv.handlers _ sig nonzero
  | create t thr => exact (Keeps.setThread thr).trans (.setSig fun _ sig nonzero => absurd rfl nonzero)
  | cloneShared t child => exact .setThread _
  | cloneCopy t child i => exact (Keeps.setThread _).trans (.sameHandlers (j := (s.threads t).signal) rfl)
  | setState t state sleep => exact .setThread _

/-! ### The entries -/

theorem exitGroup_entries (inv : Inv s) (t : Nat) : (exitGroup s t).2 = [] := by
  unfold exitGroup
  dsimp only
  split
  · rfl
  · rename_i p _
    refine eq_nil_iff_forall_not_mem.mpr fun e inside => ?_
    obtain ⟨-, -, -, -, nonzero, -⟩ := mem_sigSend.mp inside
    exact nonzero (inv.process p 17)

theorem dispatchSignals_entries (inv : Inv s) (t nr : Nat) (active : SigSet) (rax : UInt64) :
    ∀ e ∈ (dispatchSignals s t nr active rax).2, Harmless e ∧ Called s e := by
  obtain ⟨p, loop⟩ := dispatchLoop_pending active signals (sigOf s t)
  have isHandler := dispatchLoop_user active signals (sigOf s t)
  unfold dispatchSignals
  split
  · revert loop isHandler
    rcases dispatchLoop active signals (sigOf s t) with ⟨h, delivery⟩
    rintro rfl isHandler e inside
    cases delivery with
    | none => cases inside
    | exit sig =>
      have stored : Inv (setSig s (s.threads t).signal { sigOf s t with pending := p }) :=
        (Keeps.pending s t p).inv inv
      rw [exitGroup_entries stored t] at inside
      cases inside
    | user sig =>
      obtain rfl := mem_singleton.mp inside
      have here : sigOf (setSig s (s.threads t).signal { sigOf s t with pending := p }) t = { sigOf s t with pending := p } :=
        (sigs_setSig s _ _ _).trans (if_pos rfl)
      refine ⟨trivial, ?_⟩
      rw [here]
      exact inv.handlers _ sig (isHandler sig rfl)
  · exact fun e inside => by cases inside

theorem mem_sendAll (targets : List Nat) :
    ∀ s, e ∈ (sendAll sig targets s).2 ↔ ∃ i ∈ targets, e ∈ (sigSend (s.sigs i) sig).2 := by
  induction targets with
  | nil => exact fun s => ⟨fun inside => (not_mem_nil inside).elim, fun ⟨_, inside, _⟩ => (not_mem_nil inside).elim⟩
  | cons i rest ih =>
    intro s
    -- a target's structure changes in its pending signals only
    have same : ∀ j, e ∈ (sigSend ((setSig s i (sigSend (s.sigs i) sig).1).sigs j) sig).2 ↔
        e ∈ (sigSend (s.sigs j) sig).2 := by
      intro j
      rw [sigs_setSig]
      split
      · rename_i here
        obtain rfl := here
        rw [mem_sigSend, mem_sigSend, (sigSend_handler (s.sigs j) sig).1, (sigSend_handler (s.sigs j) sig).2]
      · rfl
    have unfolded : (sendAll sig (i :: rest) s).2 =
        (sigSend (s.sigs i) sig).2 ++ (sendAll sig rest (setSig s i (sigSend (s.sigs i) sig).1)).2 := by
      rw [sendAll]
    rw [unfolded, mem_append, exists_mem_cons_iff, ih]
    simp only [same]

/-- **What an action enters**: handlers of a `kill`, handlers of a tick, or an installed address in user mode. -/
theorem mem_step {a : Action} (inv : Inv s) (inside : e ∈ (step s a).2) :
    (∃ sig targets, a = .kill sig targets ∧ ∃ i ∈ targets, e ∈ (sigSend (s.sigs i) sig).2) ∨
      (∃ t, a = .tick t ∧ (s.threads t).inKernelSleep = false ∧ (s.threads t).state ≠ .ready ∧
        e ∈ (tickLoop ((sigOf s t).pending &&& ~~~ (sigOf s t).mask) signals (sigOf s t)).2) ∨
      Harmless e ∧ Called s e := by
  cases a with
  | kill sig targets => exact .inl ⟨sig, targets, rfl, (mem_sendAll targets s).mp inside⟩
  | tick t =>
    unfold step tick at inside
    dsimp only at inside
    split at inside
    · cases inside
    · rename_i awake
      split at inside
      · cases inside
      · rename_i notReady
        exact .inr (.inl ⟨t, rfl, Bool.eq_false_iff.mpr awake, notReady, inside⟩)
  | syscallEntry t nr => exact .inr (.inr (dispatchSignals_entries inv t nr _ _ e inside))
  | syscallExit t nr => exact .inr (.inr (dispatchSignals_entries inv t nr _ _ e inside))
  | exception t vector =>
    unfold step exception at inside
    dsimp only at inside
    split at inside
    · rename_i caught
      obtain rfl := mem_singleton.mp inside
      exact .inr (.inr ⟨trivial, inv.handlers _ _ caught.1⟩)
    · cases inside
  | exitGroup t =>
    have none' : (step s (.exitGroup t)).2 = [] := exitGroup_entries inv t
    rw [none'] at inside
    cases inside
  | rtSigaction t sig act =>
    unfold step at inside
    dsimp only at inside
    split at inside <;> cases inside
  | sigreturn t =>
    unfold step at inside
    dsimp only at inside
    split at inside <;> cases inside
  | _ => cases inside

theorem called_step (s : State) (a : Action) (e : Entry) (called : Called s e) : Called (step s a).1 e := by
  cases e with
  | kernelCall address sig => exact (step_keeps s a).installed called
  | userReturn rip sig restorer => exact (step_keeps s a).installed called

/-- What a step calls in the kernel is an installed handler. -/
theorem step_called (s : State) (a : Action) (e : Entry) (inv : Inv s) (inside : e ∈ (step s a).2) : Called (step s a).1 e := by
  refine called_step s a e ?_
  obtain ⟨sig, targets, rfl, i, -, sent⟩ | ⟨t, rfl, -, -, called⟩ | ⟨-, called⟩ := mem_step inv inside
  · obtain ⟨rfl, -, -, -, nonzero, -⟩ := mem_sigSend.mp sent
    exact inv.handlers i sig nonzero
  · obtain ⟨sig, -, -, nonzero, rfl⟩ := (mem_tickLoop signals (sigOf s t)).mp called
    exact inv.handlers _ sig nonzero
  · exact called

/-- A step calls none exactly if it meets the condition. -/
theorem step_harmless_iff (s : State) (a : Action) (inv : Inv s) : (∀ e ∈ (step s a).2, Harmless e) ↔ Meets s a := by
  constructor
  · intro harmless
    cases a with
    | kill sig targets =>
      intro i inside low high unmasked
      by_contra kernel
      have above : kernelBase ≤ (s.sigs i).handler sig := UInt64.not_lt.mp kernel
      have nonzero : (s.sigs i).handler sig ≠ 0 := by
        intro zero
        rw [zero] at above
        exact absurd above (by decide)
      exact harmless _ ((mem_sendAll targets s).mpr
        ⟨i, inside, mem_sigSend.mpr ⟨rfl, low, high, unmasked, nonzero, above⟩⟩)
    | tick t =>
      intro awake notReady sig isSignal active
      by_contra nonzero
      unfold step tick at harmless
      dsimp only at harmless
      rw [if_neg (Bool.eq_false_iff.mp awake), if_neg notReady] at harmless
      exact harmless _ ((mem_tickLoop signals (sigOf s t)).mpr ⟨sig, isSignal, active, nonzero, rfl⟩)
    | _ => trivial
  · intro meets e inside
    obtain ⟨sig, targets, rfl, i, isTarget, sent⟩ | ⟨t, rfl, awake, notReady, called⟩ | ⟨harmless, -⟩ := mem_step inv inside
    · obtain ⟨-, low, high, unmasked, -, above⟩ := mem_sigSend.mp sent
      exact absurd above (UInt64.not_le.mpr (meets i isTarget low high unmasked))
    · obtain ⟨sig, isSignal, active, nonzero, -⟩ := (mem_tickLoop signals (sigOf s t)).mp called
      exact absurd (meets awake notReady sig isSignal active) nonzero
    · exact harmless

/-! ### Runs -/

theorem inv_init : Inv init := ⟨fun _ _ nonzero => absurd rfl nonzero, fun _ _ => rfl⟩

/-- **Signal handlers.** Over any sequence of actions, no installed address is ever called in the kernel
if and only if every action meets the condition. -/
theorem handlers_user_iff (actions : List Action) :
    (∀ address sig, Entry.kernelCall address sig ∈ (run step init actions).2 →
        address ∉ (run step init actions).1.installed) ↔
      Along step Meets init actions := by
  have keeps : ∀ s a, Inv s → Inv (step s a).1 := fun s a => (step_keeps s a).inv
  rw [← trace_iff keeps step_harmless_iff actions init inv_init]
  constructor
  · intro never e inside
    cases e with
    | kernelCall address sig =>
      exact never address sig inside (run_events keeps step_called called_step actions init inv_init _ inside)
    | userReturn rip sig restorer => exact trivial
  · intro harmless address sig inside
    exact (harmless _ inside).elim

/-! ### Two runs -/

def oneThread : Thread := ⟨0, .running, false, { (default : Frame) with rip := 0x400000, rsp := 0x7000 }, none, none⟩

def caught (sig : Nat) (handler : UInt64) : List Action :=
  [.create 1 oneThread, .rtSigaction 1 sig ⟨handler, 0, 0, 0⟩, .kill sig [0]]

/-- A handler of the user's, a signal, and a tick: the kernel calls it. A handler in the kernel's half is
called by the `kill` already, and an ignored signal makes a tick call address 1. -/
theorem handlers_called :
    ((run step init (caught 10 0x401000 ++ [.tick 1])).2 = [.kernelCall 0x401000 10] ∧
      (run step init (caught 10 0x401000 ++ [.tick 1])).1.installed = [0x401000]) ∧
      (run step init (caught 10 0xFFFF800000001000)).2 = [.kernelCall 0xFFFF800000001000 10] ∧
      (run step init (caught 17 1 ++ [.tick 1])).2 = [.kernelCall 1 17] := by
  decide +kernel

end Voxia.Sys.Signal
