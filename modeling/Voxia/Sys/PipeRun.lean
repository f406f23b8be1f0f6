/-
**Pipes as loss-free streams.**

However the steps of one reader and one writer are interleaved, the ring between them is a window of the stream of
written bytes (`Inv`). A read that finds the ring empty, a write, a close, and then the read's look at the count of
writers is the one thing that goes wrong: the read returns 0, and a byte is left in the ring.
-/

import Voxia.Sys.Pipe

namespace Voxia.Sys.Pipe

open Lib Lib.Traces List Option

/-! ### What is to hold -/

/-- The bytes returned are a prefix of the bytes written, and the ring holds what is between. -/
structure Stream (s : State) : Prop where
  taken : s.returned <+: s.written
  between : s.written.length ≤ s.returned.length + 4096

/-- A read of some bytes returns 0 exactly at the end of the stream. -/
def Right (s : State) : Event → Prop
  | .read len result => 0 < len → (result = 0 ↔ s.returned = s.written ∧ s.writeRefs = 0)
  | .write _ _ => True

/-- The read in progress has found the ring empty and has not yet looked at the count of writers. -/
def BetweenLooks (s : State) : Prop := ∃ call, s.reader = some (call, .empty)

/-- The condition on an action: the last descriptor of an end is not closed under a call on that end, nor
that of the write end between the two looks of a read unless the ring is still empty. -/
def Meets (s : State) : Action → Prop
  | .closeRead => s.readRefs = 1 → s.reader = none
  | .closeWrite => s.writeRefs = 1 → s.writer = none ∧ (BetweenLooks s → s.returned = s.written)
  | _ => True

/-! ### The invariant -/

def WriterOk (base : Nat) (buf : Bytes) (written returned : List UInt8) (call : WriteCall) : WritePc → Prop
  | .copying count => 0 < count ∧ call.written + count ≤ call.data.length ∧
      written.length + count ≤ returned.length + 4096
  | .storing count => call.written + count ≤ call.data.length ∧
      written.length + count ≤ returned.length + 4096 ∧
      ∀ j < count, buf ((base + written.length + j) % 4096) = call.data.getD (call.written + j) 0
  | _ => True

def ReaderOk (written returned : List UInt8) (closed : Prop) (call : ReadCall) : ReadPc → Prop
  | .copying count => 0 < count ∧ returned.length + count ≤ written.length
  | .storing out => 0 < out.length ∧ returned ++ out <+: written
  | .empty => 0 < call.len ∧ (closed → returned = written)
  | _ => True

/-- **The invariant**: the counters are positions in the stream, and the ring holds the part of it that is
written and not yet returned. -/
structure Inv (base : Nat) (s : State) : Prop where
  head : s.ring.head = u64 (base + s.written.length)
  tail : s.ring.tail = u64 (base + s.returned.length)
  taken : s.returned <+: s.written
  few : s.written.length ≤ s.returned.length + 4096
  held : InRing 4096 s.ring.buf base s.written s.returned.length
  writer : ∀ call pc, s.writer = some (call, pc) → 0 < s.writeRefs ∧ call.written ≤ call.data.length ∧
    WriterOk base s.ring.buf s.written s.returned call pc
  reader : ∀ call pc, s.reader = some (call, pc) → ReaderOk s.written s.returned (s.writeRefs = 0) call pc
  ends : s.writerCount = if s.writeRefs = 0 then 0 else 1

/-- A pipe between calls, with any counters and up to 4096 bytes in the ring, which count as written. -/
structure Start (s : State) : Prop where
  idle : s.reader = none ∧ s.writer = none
  fresh : s.returned = []
  counters : s.ring.tail < 2 ^ 64 ∧ s.ring.head = u64 (s.ring.tail + s.reported.length)
  few : s.reported.length ≤ 4096
  held : InRing 4096 s.ring.buf s.ring.tail s.reported 0
  ends : s.writerCount = if s.writeRefs = 0 then 0 else 1

variable {s : State}

theorem Start.inv (start : Start s) : Inv s.ring.tail s := by
  have written : s.written = s.reported := by
    rw [State.written, State.pending, start.idle.2, append_nil]
  refine ⟨?_, ?_, ?_, ?_, ?_, ?_, ?_, start.ends⟩
  · rw [written, start.counters.2]
  · rw [start.fresh, length_nil, Nat.add_zero, u64_of_lt start.counters.1]
  · rw [start.fresh]
    exact nil_prefix
  · rw [written]
    exact start.few.trans (Nat.le_add_left _ _)
  · rw [written, start.fresh]
    exact start.held
  · intro call pc busy
    rw [start.idle.2] at busy
    exact absurd busy (by simp)
  · intro call pc busy
    rw [start.idle.1] at busy
    exact absurd busy (by simp)

/-! ### The counters -/

theorem sub64_of_le {base written returned : Nat} (le : returned ≤ written) (near : written ≤ returned + 4096) :
    sub64 (u64 (base + written)) (u64 (base + returned)) = written - returned := by
  unfold sub64 u64
  omega

theorem u64_slot (n j : Nat) : (u64 n + j) % 4096 = (n + j) % 4096 := by
  unfold u64
  omega

namespace Inv

variable {base : Nat} {s : State}

theorem le (inv : Inv base s) : s.returned.length ≤ s.written.length := inv.taken.length_le

theorem readLen_eq (inv : Inv base s) (len : Nat) :
    s.ring.readLen len = min len (s.written.length - s.returned.length) := by
  rw [PipeRing.readLen, inv.head, inv.tail, sub64_of_le inv.le inv.few]
  split <;> omega

theorem writeLen_eq (inv : Inv base s) (len : Nat) :
    s.ring.writeLen len = min len (4096 - (s.written.length - s.returned.length)) := by
  have le := inv.le
  have few := inv.few
  have avail : sub64 pipeMaxRingBuffer (s.written.length - s.returned.length) =
      4096 - (s.written.length - s.returned.length) := by
    unfold sub64 u64 pipeMaxRingBuffer
    omega
  rw [PipeRing.writeLen, inv.head, inv.tail, sub64_of_le le few, avail]
  split <;> omega

variable {s' : State} {count : Nat} {call : WriteCall} {pc : WritePc}

section

variable (inv : Inv base s)

include inv

theorem rebuild (head : s'.ring.head = s.ring.head) (tail : s'.ring.tail = s.ring.tail)
    (returned : s'.returned = s.returned) (written : s'.written = s.written)
    (refs : s'.writeRefs = s.writeRefs) (count : s'.writerCount = s.writerCount)
    (held : InRing 4096 s'.ring.buf base s.written s.returned.length)
    (writer : ∀ call pc, s'.writer = some (call, pc) → 0 < s.writeRefs ∧ call.written ≤ call.data.length ∧
      WriterOk base s'.ring.buf s.written s.returned call pc)
    (reader : ∀ call pc, s'.reader = some (call, pc) → ReaderOk s.written s.returned (s.writeRefs = 0) call pc) :
    Inv base s' := by
  refine ⟨?_, ?_, ?_, ?_, ?_, ?_, ?_, ?_⟩
  · rw [head, written, inv.head]
  · rw [tail, returned, inv.tail]
  · rw [returned, written]
    exact inv.taken
  · rw [returned, written]
    exact inv.few
  · rw [written, returned]
    exact held
  · rw [written, returned, refs]
    exact writer
  · rw [written, returned, refs]
    exact reader
  · rw [count, refs, inv.ends]

theorem phases (ring : s'.ring = s.ring) (returned : s'.returned = s.returned)
    (written : s'.written = s.written) (refs : s'.writeRefs = s.writeRefs) (count : s'.writerCount = s.writerCount)
    (writer : ∀ call pc, s'.writer = some (call, pc) → 0 < s.writeRefs ∧ call.written ≤ call.data.length ∧
      WriterOk base s.ring.buf s.written s.returned call pc)
    (reader : ∀ call pc, s'.reader = some (call, pc) → ReaderOk s.written s.returned (s.writeRefs = 0) call pc) :
    Inv base s' := by
  refine inv.rebuild (by rw [ring]) (by rw [ring]) returned written refs count ?_ ?_ reader
  · rw [ring]
    exact inv.held
  · rw [ring]
    exact writer

/-! ### Steps of the reader -/

theorem readerAt {call : ReadCall} {pc : ReadPc} (ok : ReaderOk s.written s.returned (s.writeRefs = 0) call pc) :
    Inv base { s with reader := some (call, pc) } := by
  refine inv.phases rfl rfl rfl rfl rfl inv.writer fun call' pc' eq => ?_
  obtain ⟨rfl, rfl⟩ := Prod.mk.inj (some.inj eq)
  exact ok

theorem finishRead_nil (call : ReadCall) (result : Int) : Inv base (finishRead s call [] result).1 :=
  inv.phases rfl (append_nil _) rfl rfl rfl inv.writer fun _ _ eq => absurd eq (by simp [finishRead])

theorem get_prefix (there : s.returned.length + count ≤ s.written.length) :
    s.returned ++ s.ring.get count <+: s.written := by
  have few := inv.few
  have next : s.ring.get count = (s.written.drop s.returned.length).take count := by
    refine ext_getElem (by simp [PipeRing.get]; omega) fun j inside inside' => ?_
    have less : j < count := by simpa [PipeRing.get] using inside
    rw [getElem_take, getElem_drop]
    simp only [PipeRing.get, getElem_map, getElem_range]
    rw [ringLoad_apply (by decide) _ _ (by unfold pipeMaxRingBuffer; omega) less, inv.tail, pipeMaxRingBuffer,
      u64_slot, Nat.add_assoc]
    exact inv.held (s.returned.length + j) (by omega) (by omega)
  have first : s.returned = s.written.take s.returned.length := prefix_iff_eq_take.mp inv.taken
  have both : s.returned ++ s.ring.get count = s.written.take (s.returned.length + count) := by
    rw [next, take_add]
    congr 1
  rw [both]
  exact take_prefix _ _

theorem storeTail (call : ReadCall) {out : List UInt8} (some : 0 < out.length)
    (next : s.returned ++ out <+: s.written) (result : Int) :
    Inv base (finishRead { s with ring := { s.ring with tail := u64 (s.ring.tail + out.length) } } call out result).1 := by
  refine ⟨inv.head, ?_, next, ?_, ?_, fun call' pc busy => ?_, fun _ _ eq => absurd eq (by simp [finishRead]), inv.ends⟩
  · change u64 (s.ring.tail + out.length) = u64 (base + (s.returned ++ out).length)
    rw [inv.tail, length_append]
    unfold u64
    omega
  · change s.written.length ≤ (s.returned ++ out).length + 4096
    have := inv.few
    rw [length_append]
    omega
  · refine inv.held.later ?_
    change s.returned.length ≤ (s.returned ++ out).length
    rw [length_append]
    omega
  · obtain ⟨refs, le, ok⟩ := inv.writer call' pc busy
    refine ⟨refs, le, ?_⟩
    -- room that was there is still there
    have more : s.returned.length ≤ (s.returned ++ out).length := by
      rw [length_append]
      omega
    cases pc with
    | copying count => exact ⟨ok.1, ok.2.1, ok.2.2.trans (Nat.add_le_add_right more _)⟩
    | storing count => exact ⟨ok.1, ok.2.1.trans (Nat.add_le_add_right more _), ok.2.2⟩
    | entry | loop | full | blocked => trivial

theorem readStep {call : ReadCall} {pc : ReadPc} (here : s.reader = some (call, pc)) :
    Inv base (Pipe.readStep s call pc).1 := by
  have ok := inv.reader call pc here
  have le := inv.le
  cases pc with
  | start =>
    rw [Pipe.readStep, inv.readLen_eq]
    split
    · exact inv.readerAt ⟨by omega, by omega⟩
    · split
      · exact inv.finishRead_nil call 0
      · refine inv.readerAt ⟨by omega, fun _ => ?_⟩
        exact inv.taken.eq_of_length (by omega)
  | copying count =>
    have next := inv.get_prefix ok.2
    exact inv.readerAt ⟨by simpa [PipeRing.get] using ok.1, next⟩
  | storing out => exact inv.storeTail call ok.1 ok.2 _
  | empty =>
    rw [Pipe.readStep]
    split
    · exact inv.finishRead_nil call 0
    · split
      · exact inv.finishRead_nil call _
      · exact inv.readerAt trivial
  | blocked => exact inv.readerAt trivial

end

/-! ### Steps of the writer -/

theorem written_of_writer (here : s.writer = some (call, pc)) :
    s.written = s.reported ++ call.data.take call.written := by
  rw [State.written, State.pending, here]

section

variable (inv : Inv base s)

include inv

theorem writerAt {pc' : WritePc} (here : s.writer = some (call, pc))
    (ok : WriterOk base s.ring.buf s.written s.returned call pc') : Inv base { s with writer := some (call, pc') } := by
  obtain ⟨refs, le, -⟩ := inv.writer call pc here
  refine inv.phases rfl rfl (written_of_writer here).symm rfl rfl (fun call' pc'' eq => ?_) inv.reader
  obtain ⟨rfl, rfl⟩ := Prod.mk.inj (some.inj eq)
  exact ⟨refs, le, ok⟩

theorem finishWrite (here : s.writer = some (call, pc)) (error : Int) : Inv base (Pipe.finishWrite s call error).1 := by
  refine inv.phases rfl rfl ?_ rfl rfl (fun _ _ eq => absurd eq (by simp [Pipe.finishWrite])) inv.reader
  rw [written_of_writer here]
  exact append_nil _

theorem put (here : s.writer = some (call, .copying count)) : Inv base { s with
      ring := s.ring.put (fun i => call.data.getD (call.written + i) 0) count
      writer := some (call, .storing count) } := by
  obtain ⟨refs, le, positive, fits, room⟩ := inv.writer call _ here
  have behind := inv.le
  have written := (written_of_writer here).symm
  have buf : (s.ring.put (fun i => call.data.getD (call.written + i) 0) count).buf =
      ringStore 4096 s.ring.buf (base + s.written.length) (fun i => call.data.getD (call.written + i) 0) count := by
    have slot := u64_slot (base + s.written.length) 0
    rw [Nat.add_zero, Nat.add_zero] at slot
    rw [PipeRing.put, inv.head, pipeMaxRingBuffer]
    unfold ringStore
    rw [slot]
  refine inv.rebuild rfl rfl rfl written rfl rfl ?_ (fun call' pc' eq => ?_) inv.reader
  · rw [buf]
    exact inv.held.store (by decide) room (by omega)
  · obtain ⟨rfl, rfl⟩ := Prod.mk.inj (some.inj eq)
    refine ⟨refs, le, fits, room, fun j less => ?_⟩
    rw [buf, ringStore_inside (by decide) _ _ _ (by omega) less]

/-- A writer publishes what it has stored. -/
theorem storeHead (here : s.writer = some (call, .storing count)) : Inv base { s with
      ring := { s.ring with head := u64 (s.ring.head + count) }
      writer := some ({ call with written := call.written + count }, .loop) } := by
  obtain ⟨refs, le, fits, room, stored⟩ := inv.writer call _ here
  generalize eq : ({ s with
      ring := { s.ring with head := u64 (s.ring.head + count) }
      writer := some ({ call with written := call.written + count }, .loop) } : State) = s'
  have written : s'.written = s.written ++ (call.data.drop call.written).take count := by
    rw [written_of_writer here, append_assoc, ← take_add, ← eq]
    rfl
  have length : s'.written.length = s.written.length + count := by
    rw [written, length_append, length_take, length_drop]
    omega
  have grows : s.written <+: s'.written := written ▸ prefix_append _ _
  subst eq
  refine ⟨?_, inv.tail, inv.taken.trans grows, ?_, ?_, fun call' pc' eq => ?_, fun call' pc' busy => ?_, inv.ends⟩
  · rw [length]
    change u64 (s.ring.head + count) = _
    rw [inv.head]
    unfold u64
    omega
  · rw [length]
    exact room
  · intro k inside behind'
    rw [getElem_of_eq written, getElem_append]
    split
    · next old => exact inv.held k old behind'
    · have at' := stored (k - s.written.length) (by omega)
      rw [show base + s.written.length + (k - s.written.length) = base + k by omega] at at'
      rw [getElem_take, getElem_drop]
      refine at'.trans ?_
      rw [getD_eq_getElem?_getD, List.getElem?_eq_getElem (by omega)]
      rfl
  · obtain ⟨rfl, rfl⟩ := Prod.mk.inj (some.inj eq)
    exact ⟨refs, fits, trivial⟩
  · have ok := inv.reader call' pc' busy
    cases pc' with
    | copying n => exact ⟨ok.1, by rw [length]; exact ok.2.trans (Nat.le_add_right _ _)⟩
    | storing out => exact ⟨ok.1, ok.2.trans grows⟩
    | empty => exact ⟨ok.1, fun closed => absurd closed (Nat.pos_iff_ne_zero.mp refs)⟩
    | start | blocked => trivial

theorem writeStep (here : s.writer = some (call, pc)) : Inv base (Pipe.writeStep s call pc).1 := by
  cases pc with
  | entry =>
    rw [Pipe.writeStep]
    split
    · exact inv.finishWrite here _
    · exact inv.writerAt here trivial
  | loop =>
    rw [Pipe.writeStep, inv.writeLen_eq]
    split
    · dsimp only
      split
      · exact inv.writerAt here ⟨by omega, by omega, by omega⟩
      · exact inv.writerAt here trivial
    · exact inv.finishWrite here _
  | copying count => exact inv.put here
  | storing count => exact inv.storeHead here
  | full =>
    rw [Pipe.writeStep]
    split
    · exact inv.finishWrite here _
    · split
      · exact inv.finishWrite here _
      · exact inv.writerAt here trivial
  | blocked => exact inv.writerAt here trivial

/-! ### Descriptors -/

theorem readEnd (readRefs : Nat) (readerCount : Int) :
    Inv base { s with readRefs := readRefs, readerCount := readerCount } :=
  inv.phases rfl rfl rfl rfl rfl inv.writer inv.reader

theorem writeEnd {writeRefs : Nat} {writerCount : Int} (count : writerCount = if writeRefs = 0 then 0 else 1)
    (last : writeRefs = 0 → s.writer = none ∧ (BetweenLooks s → s.returned = s.written)) :
    Inv base { s with writeRefs := writeRefs, writerCount := writerCount } := by
  refine ⟨inv.head, inv.tail, inv.taken, inv.few, inv.held, fun call pc busy => ?_, fun call pc busy => ?_, count⟩
  · obtain ⟨-, le, ok⟩ := inv.writer call pc busy
    refine ⟨Nat.pos_of_ne_zero fun zero => ?_, le, ok⟩
    have idle := (last zero).1
    rw [show s.writer = some (call, pc) from busy] at idle
    exact absurd idle (by simp)
  · have ok := inv.reader call pc busy
    cases pc with
    | empty => exact ⟨ok.1, fun closed => (last closed).2 ⟨call, busy⟩⟩
    | copying count => exact ok
    | storing out => exact ok
    | start | blocked => trivial

/-- **Step**: every action keeps the invariant. -/
theorem step {action : Action} (meets : Meets s action) : Inv base (Pipe.step s action).1 := by
  cases action with
  | startRead len nonblock =>
    rw [Pipe.step]
    split
    · exact inv.readerAt trivial
    · exact inv
  | stepRead =>
    rw [Pipe.step]
    split
    · next call pc here => exact inv.readStep here
    · exact inv
  | startWrite data nonblock =>
    rw [Pipe.step]
    split
    · next idle =>
      have none : s.writer = none := isNone_iff_eq_none.mp idle.2
      refine inv.phases rfl rfl ?_ rfl rfl (fun call' pc' eq => ?_) inv.reader
      · rw [State.written, State.written, State.pending, State.pending, none]
        rfl
      · obtain ⟨rfl, rfl⟩ := Prod.mk.inj (some.inj eq)
        exact ⟨idle.1, Nat.zero_le _, trivial⟩
    · exact inv
  | stepWrite =>
    rw [Pipe.step]
    split
    · next call pc here => exact inv.writeStep here
    · exact inv
  | dupRead =>
    rw [Pipe.step]
    split
    · exact inv.readEnd _ _
    · exact inv
  | dupWrite =>
    rw [Pipe.step]
    split
    · refine inv.writeEnd ?_ fun zero => absurd zero (by omega)
      rw [inv.ends, if_neg (by omega), if_neg (by omega)]
    · exact inv
  | closeRead =>
    rw [Pipe.step]
    split
    · exact inv
    · dsimp only
      split
      · exact inv.readEnd _ _
      · exact inv.readEnd _ _
  | closeWrite =>
    rw [Pipe.step]
    split
    · exact inv
    · next some =>
      dsimp only
      split
      · next zero =>
        refine inv.writeEnd ?_ fun _ => meets (by omega)
        rw [inv.ends, if_neg some, if_pos zero]
        rfl
      · next more =>
        refine inv.writeEnd ?_ fun zero => absurd zero more
        rw [inv.ends, if_neg some, if_neg more]

theorem readStep_right {call : ReadCall} {pc : ReadPc} (here : s.reader = some (call, pc)) :
    ∀ e ∈ (Pipe.readStep s call pc).2, Right s e := by
  intro e member
  have ok := inv.reader call pc here
  cases pc with
  | start =>
    rw [Pipe.readStep] at member
    split at member
    · exact absurd member not_mem_nil
    · split at member
      · next zero =>
        rw [mem_singleton.mp member]
        exact fun positive => absurd zero (Nat.pos_iff_ne_zero.mp positive)
      · exact absurd member not_mem_nil
  | copying count => exact absurd member not_mem_nil
  | storing out =>
    have some := ok.1
    rw [mem_singleton.mp member]
    refine fun _ => ⟨fun zero => by omega, fun ended => ?_⟩
    have length := ok.2.length_le
    rw [length_append, ended.1] at length
    omega
  | empty =>
    rw [Pipe.readStep] at member
    split at member
    · next zero =>
      rw [mem_singleton.mp member]
      refine fun _ => ⟨fun _ => ?_, fun _ => rfl⟩
      have closed : s.writeRefs = 0 := by
        by_contra some
        rw [inv.ends, if_neg some] at zero
        exact absurd zero (by decide)
      exact ⟨ok.2 closed, closed⟩
    · next some =>
      split at member
      · rw [mem_singleton.mp member]
        refine fun _ => ⟨fun zero => absurd zero (by decide), fun ended => ?_⟩
        rw [inv.ends, if_pos ended.2] at some
        exact absurd rfl some
      · exact absurd member not_mem_nil
  | blocked => exact absurd member not_mem_nil

end

end Inv

theorem read_event {action : Action} {len : Nat} {result : Int} (member : .read len result ∈ (step s action).2) :
    ∃ call pc, s.reader = some (call, pc) ∧ .read len result ∈ (readStep s call pc).2 := by
  cases action with
  | stepRead =>
    rw [step] at member
    split at member
    · next call pc here => exact ⟨call, pc, here, member⟩
    · exact absurd member not_mem_nil
  | stepWrite =>
    rw [step] at member
    split at member
    · next call pc here =>
      cases pc with
      | copying count | storing count | blocked => exact absurd member not_mem_nil
      | entry | loop | full =>
        simp only [writeStep, finishWrite] at member
        split_ifs at member <;> simp at member
    · exact absurd member not_mem_nil
  | startRead | startWrite | dupRead | dupWrite | closeRead | closeWrite =>
    simp only [step] at member
    split_ifs at member <;> exact absurd member not_mem_nil

/-! ### Runs -/

/-- **Pipes are loss-free streams.** In every run whose closes meet the condition, the reads have returned
a prefix of what was written, at most 4096 bytes are in between, and a read returns 0 exactly at the end
of the stream. -/
theorem pipe_stream (s : State) (start : Start s) (actions : List Action) (meets : Along step Meets s actions) :
    Stream (run step s actions).1 ∧
      ∀ action, ∀ e ∈ (step (run step s actions).1 action).2, Right (run step s actions).1 e := by
  have inv : Inv s.ring.tail (run step s actions).1 :=
    run_along (fun _ _ holds met => holds.step met) actions s start.inv meets
  refine ⟨⟨inv.taken, inv.few⟩, fun action e member => ?_⟩
  cases e with
  | read len result =>
    obtain ⟨call, pc, here, event⟩ := read_event member
    exact inv.readStep_right here _ event
  | write len result => trivial

def newPipe : State := ⟨⟨fun _ => 0, 0, 0⟩, 1, 1, 1, 1, none, none, [], []⟩

theorem start_newPipe : Start newPipe :=
  ⟨⟨rfl, rfl⟩, rfl, ⟨by decide, by decide⟩, by decide, fun k inside => absurd inside (Nat.not_lt_zero k), rfl⟩

/-- A byte is written and read; the write end is closed when the next read has found the ring empty. -/
def oneByte : List Action :=
  [.startWrite [7] false, .stepWrite, .stepWrite, .stepWrite, .stepWrite, .stepWrite, .startRead 1 false, .stepRead,
    .stepRead, .stepRead, .startRead 1 false, .stepRead, .closeWrite]

theorem pipe_stream_oneByte : (run step newPipe oneByte).1.returned = [7] ∧ Stream (run step newPipe oneByte).1 ∧
    .read 1 0 ∈ (step (run step newPipe oneByte).1 .stepRead).2 ∧ Right (run step newPipe oneByte).1 (.read 1 0) := by
  have meets : Along step Meets newPipe oneByte :=
    ⟨trivial, trivial, trivial, trivial, trivial, trivial, trivial, trivial, trivial, trivial, trivial, trivial,
      fun _ => ⟨rfl, fun _ => by decide⟩, trivial⟩
  obtain ⟨stream, right⟩ := pipe_stream newPipe start_newPipe oneByte meets
  exact ⟨by decide, stream, mem_singleton.mpr rfl, right .stepRead _ (mem_singleton.mpr rfl)⟩

/-- A read finds the ring empty; a byte is written and the write end closed. -/
def closeBetweenLooks : List Action :=
  [.startRead 1 false, .stepRead, .startWrite [7] false, .stepWrite, .stepWrite, .stepWrite, .stepWrite, .stepWrite,
    .closeWrite]

/-- The read returns 0, and the byte is still in the ring. -/
theorem pipe_early_end :
    .read 1 0 ∈ (step (run step newPipe closeBetweenLooks).1 .stepRead).2 ∧
      ¬ Right (run step newPipe closeBetweenLooks).1 (.read 1 0) := by
  refine ⟨mem_singleton.mpr rfl, fun right => ?_⟩
  have ended := ((right (by decide)).mp rfl).1
  exact absurd ended (by decide)

end Voxia.Sys.Pipe
