/-
**The event ring of the mouse.**

`evdev_report_mouse` counts the events of a report, and pushes them into a ring of 512 entries if they fit;
`evdev_read` takes events from the other end. `contents` are the events in the ring, oldest first; a report is there
as a whole or not at all (`mouse_packets`).
-/

import Mathlib.Data.List.Basic
import Mathlib.Logic.Function.Basic

namespace Voxia.Input.Evdev

open Function List

/-- The events of the mouse, without their time. -/
inductive Event
  | rel (axis : Fin 3) (value : Int)
  | key (button : Fin 3) (value : Bool)
  | synReport

structure Device where
  events : Nat → Event
  head : Nat
  tail : Nat

/-- `evdev_push_event_nolock` -/
def push (d : Device) (e : Event) : Device :=
  let next := (d.head + 1) % 512
  -- a full ring drops its oldest event
  ⟨update d.events d.head e, next, if next = d.tail then (d.tail + 1) % 512 else d.tail⟩

def freeSlots (d : Device) : Nat :=
  if d.tail ≤ d.head then 512 - (d.head - d.tail) - 1 else d.tail - d.head - 1

structure Report where
  x : Int
  y : Int
  z : Int
  buttons : Fin 3 → Bool

def packet (prev : Fin 3 → Bool) (r : Report) : List Event :=
  (if r.x ≠ 0 then [.rel 0 r.x] else []) ++ (if r.y ≠ 0 then [.rel 1 r.y] else []) ++
    (if r.z ≠ 0 then [.rel 2 r.z] else []) ++
    (if r.buttons 0 ≠ prev 0 then [.key 0 (r.buttons 0)] else []) ++
    (if r.buttons 1 ≠ prev 1 then [.key 1 (r.buttons 1)] else []) ++
    (if r.buttons 2 ≠ prev 2 then [.key 2 (r.buttons 2)] else []) ++ [.synReport]

def neededSlots (prev : Fin 3 → Bool) (r : Report) : Nat :=
  1 + (if r.x ≠ 0 then 1 else 0) + (if r.y ≠ 0 then 1 else 0) + (if r.z ≠ 0 then 1 else 0) +
    (if r.buttons 0 ≠ prev 0 then 1 else 0) + (if r.buttons 1 ≠ prev 1 then 1 else 0) +
    (if r.buttons 2 ≠ prev 2 then 1 else 0)

structure State where
  dev : Device
  prevButtons : Fin 3 → Bool

def evdevReportMouse (s : State) (r : Report) : State × Bool :=
  if freeSlots s.dev < neededSlots s.prevButtons r then (s, false)
  else (⟨(packet s.prevButtons r).foldl push s.dev, r.buttons⟩, true)

def readLoop : Nat → Device → Device × List Event
  | 0, d => (d, [])
  | n + 1, d =>
    if d.head = d.tail then (d, [])
    else
      let later := readLoop n { d with tail := (d.tail + 1) % 512 }
      (later.1, d.events d.tail :: later.2)

/-- A buffer of `len` bytes; an event has 24. An error hands over nothing. -/
def evdevRead (d : Device) (len : Nat) : Device × List Event := readLoop (len / 24) d

inductive Action
  | report (r : Report)
  | read (len : Nat)

/-- The state after a list of calls, the reports accepted and the events read. -/
def run : State → List Action → State × List Report × List Event
  | s, [] => (s, [], [])
  | s, .report r :: rest =>
    let now := evdevReportMouse s r
    let later := run now.1 rest
    (later.1, if now.2 then r :: later.2.1 else later.2.1, later.2.2)
  | s, .read len :: rest =>
    let now := evdevRead s.dev len
    let later := run { s with dev := now.1 } rest
    (later.1, later.2.1, now.2 ++ later.2.2)

/-! ### The ring as a queue -/

def count (d : Device) : Nat := (d.head + 512 - d.tail) % 512

def contents (d : Device) : List Event := (List.range (count d)).map fun i => d.events ((d.tail + i) % 512)

def InRing (d : Device) : Prop := d.head < 512 ∧ d.tail < 512

variable {d : Device} {s : State}

theorem freeSlots_eq (ring : InRing d) : freeSlots d + count d = 511 := by
  obtain ⟨head, tail⟩ := ring
  unfold freeSlots count
  split <;> omega

theorem push_spec (ring : InRing d) (room : count d < 511) (e : Event) :
    InRing (push d e) ∧ count (push d e) = count d + 1 ∧ contents (push d e) = contents d ++ [e] := by
  obtain ⟨head, tail⟩ := ring
  unfold count at room
  have notFull : (d.head + 1) % 512 ≠ d.tail := by omega
  have pushed : push d e = ⟨update d.events d.head e, (d.head + 1) % 512, d.tail⟩ := by
    unfold push
    dsimp only
    rw [if_neg notFull]
  have more : count (push d e) = count d + 1 := by
    rw [pushed]
    unfold count
    dsimp only
    omega
  refine ⟨by rw [pushed]; exact ⟨Nat.mod_lt _ (by decide), tail⟩, more, ?_⟩
  rw [contents, more, range_succ, map_append, contents, pushed]
  congr 1
  · refine map_congr_left fun i inside => update_of_ne ?_ e d.events
    have below := mem_range.mp inside
    unfold count at below
    dsimp only
    omega
  · have last : (d.tail + count d) % 512 = d.head := by
      unfold count
      omega
    simp only [map_cons, map_nil, last, update_self]

theorem foldl_push (l : List Event) : ∀ d, InRing d → count d + l.length ≤ 511 →
    InRing (l.foldl push d) ∧ contents (l.foldl push d) = contents d ++ l := by
  induction l with
  | nil => exact fun d ring _ => ⟨ring, (append_nil _).symm⟩
  | cons e l ih =>
    intro d ring room
    rw [length_cons] at room
    obtain ⟨ring', more, pushed⟩ := push_spec ring (by omega) e
    obtain ⟨ring'', all⟩ := ih _ ring' (by omega)
    refine ⟨ring'', ?_⟩
    rw [foldl_cons, all, pushed, append_assoc]
    rfl

/-- **What a read takes**: the oldest events, as many as there is room for. -/
theorem readLoop_spec (n : Nat) : ∀ d, InRing d → InRing (readLoop n d).1 ∧
    (readLoop n d).2 = (contents d).take n ∧ contents (readLoop n d).1 = (contents d).drop n := by
  induction n with
  | zero => exact fun d ring => ⟨ring, rfl, rfl⟩
  | succ n ih =>
    intro d ring
    rw [readLoop]
    split
    · next none =>
      have empty : contents d = [] := by simp [contents, count, none]
      rw [empty]
      exact ⟨ring, rfl, rfl⟩
    · next some =>
      obtain ⟨ring', taken, left⟩ := ih { d with tail := (d.tail + 1) % 512 } ⟨ring.1, Nat.mod_lt _ (by decide)⟩
      obtain ⟨head, tail⟩ := ring
      have less : count d = count { d with tail := (d.tail + 1) % 512 } + 1 := by
        unfold count
        dsimp only
        omega
      have oldest : contents d = d.events d.tail :: contents { d with tail := (d.tail + 1) % 512 } := by
        rw [contents, less, range_succ_eq_map, map_cons, map_map]
        congr 1
        · rw [Nat.add_zero, Nat.mod_eq_of_lt tail]
        · refine map_congr_left fun i _ => congrArg d.events ?_
          dsimp only [comp_apply]
          omega
      rw [oldest]
      exact ⟨ring', congrArg _ taken, left⟩

theorem neededSlots_eq (prev : Fin 3 → Bool) (r : Report) : neededSlots prev r = (packet prev r).length := by
  unfold neededSlots packet
  simp only [length_append, apply_ite List.length, length_singleton, length_nil]
  omega

/-! ### The packets -/

def packets : (Fin 3 → Bool) → List Report → List Event
  | _, [] => []
  | prev, r :: rest => packet prev r ++ packets r.buttons rest

def replay : (Fin 3 → Bool) → List Event → Fin 3 → Bool
  | b, [] => b
  | b, .key i value :: rest => replay (update b i value) rest
  | b, _ :: rest => replay b rest

theorem replay_append (l : List Event) : ∀ b l', replay b (l ++ l') = replay (replay b l) l' := by
  induction l with
  | nil => exact fun b l' => rfl
  | cons e l ih =>
    intro b l'
    cases e <;> exact ih _ l'

theorem replay_key {b : Fin 3 → Bool} {p : Bool} (i : Fin 3) (same : b i = p) (value : Bool) :
    replay b (if value ≠ p then [.key i value] else []) = update b i value := by
  split
  · rfl
  · next equal => rw [not_not.mp equal, ← same, update_eq_self, replay]

theorem replay_packet (prev : Fin 3 → Bool) (r : Report) : replay prev (packet prev r) = r.buttons := by
  have moved : ∀ (axis : Fin 3) (value : Int), replay prev (if value ≠ 0 then [.rel axis value] else []) = prev := by
    intro axis value
    split <;> rfl
  unfold packet
  rw [replay_append, replay_append, replay_append, replay_append, replay_append, replay_append, moved, moved, moved,
    replay_key 0 (by rfl), replay_key 1 (by rfl), replay_key 2 (by rfl)]
  funext i
  match i with
  | 0 => rfl
  | 1 => rfl
  | 2 => rfl

theorem replay_packets (before : List Report) (r : Report) :
    ∀ prev, replay prev (packets prev (before ++ [r])) = r.buttons := by
  induction before with
  | nil =>
    intro prev
    rw [nil_append, packets, packets, append_nil, replay_packet]
  | cons first before ih =>
    intro prev
    rw [cons_append, packets, replay_append, replay_packet, ih]

/-- What a run reads and leaves in the ring is what was in it before, and the packets of the reports it accepts. -/
theorem run_spec (actions : List Action) : ∀ s, InRing s.dev → InRing (run s actions).1.dev ∧
    contents s.dev ++ packets s.prevButtons (run s actions).2.1 =
      (run s actions).2.2 ++ contents (run s actions).1.dev := by
  induction actions with
  | nil => exact fun s ring => ⟨ring, append_nil _⟩
  | cons a rest ih =>
    intro s ring
    cases a with
    | report r =>
      by_cases full : freeSlots s.dev < neededSlots s.prevButtons r
      · have dropped : evdevReportMouse s r = (s, false) := if_pos full
        rw [run, dropped]
        exact ih s ring
      · have taken : evdevReportMouse s r = (⟨(packet s.prevButtons r).foldl push s.dev, r.buttons⟩, true) := if_neg full
        have free := freeSlots_eq ring
        rw [neededSlots_eq] at full
        obtain ⟨ring', pushed⟩ := foldl_push (packet s.prevButtons r) s.dev ring (by omega)
        have later := ih ⟨_, r.buttons⟩ ring'
        rw [pushed, append_assoc] at later
        rw [run, taken]
        exact later
    | read len =>
      obtain ⟨ring', taken, left⟩ := readLoop_spec (len / 24) s.dev ring
      obtain ⟨last, later⟩ := ih { s with dev := (evdevRead s.dev len).1 } ring'
      refine ⟨last, ?_⟩
      rw [run, ← take_append_drop (len / 24) (contents s.dev), ← taken, ← left, append_assoc]
      exact (congrArg _ later).trans (append_assoc ..).symm

theorem run_append (actions later : List Action) : ∀ s, (run s (actions ++ later)).2.2 =
    (run s actions).2.2 ++ (run (run s actions).1 later).2.2 := by
  induction actions with
  | nil => exact fun s => rfl
  | cons a rest ih =>
    intro s
    cases a with
    | report r => exact ih _
    | read len =>
      rw [cons_append, run, run]
      rw [ih, append_assoc]

theorem length_contents (d : Device) : (contents d).length < 512 := by
  rw [contents, length_map, length_range]
  exact Nat.mod_lt _ (by decide)

def init : State := ⟨⟨fun _ => .synReport, 0, 0⟩, fun _ => false⟩

/-- **Mouse events are whole packets.** After every sequence of reports and reads, a read takes the oldest events of the
ring, as many as its buffer holds; what was read, followed by the ring, are the packets of the accepted reports, and one
more read with room for the ring makes what was read all of them. The button events up to a `SYN_REPORT` replay to the
buttons of its report. -/
theorem mouse_packets (actions : List Action) :
    (run init actions).2.2 ++ contents (run init actions).1.dev = packets (fun _ => false) (run init actions).2.1 ∧
      (∀ len, (evdevRead (run init actions).1.dev len).2 = (contents (run init actions).1.dev).take (len / 24) ∧
        contents (evdevRead (run init actions).1.dev len).1 = (contents (run init actions).1.dev).drop (len / 24)) ∧
      (run init (actions ++ [.read (24 * 511)])).2.2 = packets (fun _ => false) (run init actions).2.1 ∧
      ∀ before r, replay (fun _ => false) (packets (fun _ => false) (before ++ [r])) = r.buttons := by
  obtain ⟨ring, whole⟩ := run_spec actions init ⟨by decide, by decide⟩
  have reads := fun len => (readLoop_spec (len / 24) _ ring).2
  refine ⟨whole.symm, reads, ?_, fun before r => replay_packets before r _⟩
  have drained : (run (run init actions).1 [.read (24 * 511)]).2.2 = contents (run init actions).1.dev := by
    rw [run, run, append_nil]
    refine (reads (24 * 511)).1.trans (take_of_length_le ?_)
    exact Nat.le_of_lt_succ (length_contents _)
  rw [run_append, drained]
  exact whole.symm

end Voxia.Input.Evdev
