/-
**TCP options.**

`parse_tcp_options` walks over the bytes behind the fixed part of a TCP header, `size` of them by the data offset.
Each round reads some bytes from its position on (`reads`), may set fields, and goes on by a length the peer chose
(`advance`). So it depends on the options where the walk stays (`parses_iff`).
-/

import Voxia.Lib.Loops
import Mathlib.Tactic.Common

namespace Voxia.Net.Tcp

open Lib

structure TcpOptions where
  mss : Nat
  hasWscale : Nat
  wscale : UInt8
  sackPermitted : Nat
  hasTimestamp : Nat
  tsVal : Nat
  tsEcr : Nat

def defaults : TcpOptions := ⟨536, 0, 0, 0, 0, 0, 0⟩

variable (size : Nat) (mem : Nat → UInt8)

def word16 (i : Nat) : Nat := 256 * (mem i).toNat + (mem (i + 1)).toNat

def word32 (i : Nat) : Nat := 65536 * word16 mem i + word16 mem (i + 2)

def len (i : Nat) : Nat := (mem (i + 1)).toNat

/-- How far the round at a position goes on. -/
def advance (i : Nat) : Nat := if mem i = 1 then 1 else len mem i

/-- The loop ends here: behind the options, at their end mark, or at an unknown one of length zero. -/
def Stop (i : Nat) : Prop :=
  size ≤ i ∨ mem i = 0 ∨ mem i ∉ [1, 2, 3, 4, 8] ∧ len mem i = 0

instance : DecidablePred (Stop size mem) := fun _ => inferInstanceAs (Decidable (_ ∨ _))

def set (i : Nat) (out : TcpOptions) : TcpOptions :=
  if mem i = 2 then if len mem i = 4 then { out with mss := word16 mem (i + 2) } else out
  else if mem i = 3 then
    { out with hasWscale := if len mem i = 3 then 1 else out.hasWscale, wscale := mem (i + 2) }
  else if mem i = 4 then { out with sackPermitted := 1 }
  else if mem i = 8 ∧ len mem i = 10 then
    { out with hasTimestamp := 1, tsVal := word32 mem (i + 2), tsEcr := word32 mem (i + 6) }
  else out

/-- One round of `parse_tcp_options`. -/
def body (state : Nat × TcpOptions) : TcpOptions ⊕ (Nat × TcpOptions) :=
  if Stop size mem state.1 then .inl state.2
  else .inr (state.1 + advance mem state.1, set mem state.1 state.2)

def reads (i : Nat) : Nat :=
  if mem i = 0 ∨ mem i = 1 then 1
  else if mem i = 3 then 3
  else if mem i = 2 ∧ len mem i = 4 then 4
  else if mem i = 8 ∧ len mem i = 10 then 10
  else 2

def Sets (i : Nat) : Prop :=
  mem i = 2 ∧ len mem i = 4 ∨ mem i = 3 ∨ mem i = 4 ∨ mem i = 8 ∧ len mem i = 10

/-- An option of its kind, with all its bytes. -/
def Complete (i : Nat) : Prop :=
  i + len mem i ≤ size ∧
    (mem i = 2 ∧ len mem i = 4 ∨ mem i = 3 ∧ len mem i = 3 ∨ mem i = 4 ∧ len mem i = 2 ∨ mem i = 8 ∧ len mem i = 10)

inductive Visited : Nat → Prop
  | start : Visited 0
  | next {i : Nat} (visited : Visited i) (goes : ¬ Stop size mem i) : Visited (i + advance mem i)

/-- The loop ends; inside the options it reads only their bytes, and sets fields from complete ones. -/
def Parses : Prop :=
  LoopEnds (body size mem) (0, defaults) ∧
    ∀ i, Visited size mem i → i < size → i + reads mem i ≤ size ∧ (Sets mem i → Complete size mem i)

def Meets (i : Nat) : Prop :=
  mem i = 0 ∨ mem i = 1 ∨
    i + 2 ≤ size ∧ (mem i = 3 → len mem i = 3 ∧ i + 3 ≤ size) ∧ (mem i = 4 → len mem i = 2) ∧
      (mem i = 2 → len mem i ≠ 0 ∧ (len mem i = 4 → i + 4 ≤ size)) ∧
      (mem i = 8 → len mem i ≠ 0 ∧ (len mem i = 10 → i + 10 ≤ size))

variable {size mem} {i : Nat}

theorem loopEnds_iff (i : Nat) (out : TcpOptions) :
    LoopEnds (body size mem) (i, out) ↔ ∃ n, Stop size mem ((fun i => i + advance mem i)^[n] i) := by
  refine loopEnds_iff_iterate Prod.fst (Stop size mem) (fun state stop => ⟨state.2, if_pos stop⟩) ?_ (i, out)
  exact fun state goes => ⟨_, if_neg goes, rfl⟩

theorem Visited.advances (ends : LoopEnds (body size mem) (0, defaults)) (visited : Visited size mem i)
    (goes : ¬ Stop size mem i) : advance mem i ≠ 0 := by
  have ends' : ∃ out, LoopEnds (body size mem) (i, out) := by
    clear goes
    induction visited with
    | start => exact ⟨_, ends⟩
    | @next i _ goes ih =>
      obtain ⟨out, ends⟩ := ih
      have step : body size mem (i, out) = .inr (i + advance mem i, set mem i out) := if_neg goes
      exact ⟨_, (loopEnds_inr step).mp ends⟩
  obtain ⟨out, ends⟩ := ends'
  obtain ⟨n, stop⟩ := (loopEnds_iff i out).mp ends
  intro stuck
  have fixed : (fun i => i + advance mem i) i = i := by
    dsimp only
    rw [stuck, Nat.add_zero]
  rw [Function.iterate_fixed fixed n] at stop
  exact goes stop

theorem ends_of_advances (advances : ∀ i, Visited size mem i → ¬ Stop size mem i → advance mem i ≠ 0) :
    LoopEnds (body size mem) (0, defaults) := by
  rw [loopEnds_iff]
  by_contra never
  have all : ∀ n, Visited size mem ((fun i => i + advance mem i)^[n] 0) ∧ n ≤ (fun i => i + advance mem i)^[n] 0 := by
    intro n
    induction n with
    | zero => exact ⟨.start, Nat.le_refl 0⟩
    | succ n ih =>
      have goes : ¬ Stop size mem _ := fun stop => never ⟨n, stop⟩
      have moves := advances _ ih.1 goes
      rw [Function.iterate_succ_apply']
      exact ⟨ih.1.next goes, by omega⟩
  exact never ⟨size, .inl (all size).2⟩

theorem meets_iff (inside : i < size) : Meets size mem i ↔
    (¬ Stop size mem i → advance mem i ≠ 0) ∧ i + reads mem i ≤ size ∧ (Sets mem i → Complete size mem i) := by
  unfold Meets Stop advance reads Sets Complete
  grind

/-- **TCP options**: for any bytes, and any size of the header. -/
theorem parses_iff (size : Nat) (mem : Nat → UInt8) :
    Parses size mem ↔ ∀ i, Visited size mem i → i < size → Meets size mem i := by
  constructor
  · rintro ⟨ends, bounds⟩ i visited inside
    exact (meets_iff inside).mpr ⟨visited.advances ends, bounds i visited inside⟩
  · intro meets
    refine ⟨ends_of_advances fun i visited goes => ?_, fun i visited inside =>
      ((meets_iff inside).mp (meets i visited inside)).2⟩
    have inside : i < size := Nat.not_le.mp fun past => goes (.inl past)
    exact ((meets_iff inside).mp (meets i visited inside)).1 goes

/-- An option of the kind `MSS` with length zero. -/
theorem zero_length : ¬ Parses 4 fun i => if i = 0 then 2 else 0 := by
  rintro ⟨ends, -⟩
  exact Visited.advances ends .start (by decide) (by decide)

end Voxia.Net.Tcp
