/-
**The bounds of the write buffer, for every count a caller can pass.**

`FileTable` has the calls on the bytes they are given. Here the same calls are followed by their counts alone: a count
is a 32-bit number that the dispatcher extends with its sign, it is a `long` in one comparison and a `size_t` in the
next, and it need not be the length of anything; a negative one is copied as a number near 2⁶⁴. Every `memcopy` into
the buffer is logged. What the calls return is left out.
-/

import Voxia.Fd.FileTable

namespace Voxia.Fd

open List

/-! ### The calls by their counts -/

/-- The buffer of an open regular file: whether it is there, how full it is and where the file stands; how often
`ops->write` was called, and from where on and how many bytes were copied into the buffer. -/
structure Fill where
  allocated : Bool
  size : Nat
  pos : Nat
  asked : Nat
  copies : List (Nat × Nat)

/-- `ops->write`: what its `n`th call answers for a number of bytes, which is never more than these. -/
structure Device where
  write : Nat → Nat → Int
  bounded : ∀ n count, write n count ≤ count

def sizeT (count : Int) : Nat := (count % 2 ^ 64).toNat

namespace Fill

/-- The buffer is allocated if there is none, which may fail. -/
def ensure (b : Fill) (kalloc : Bool) : Option Fill :=
  if b.allocated then some b else if kalloc then some { b with allocated := true, size := 0 } else none

/-- The buffer is written back if it is `full`; `false` if the call ends because nothing was taken. -/
def makeRoom (dev : Device) (b : Fill) (full : Bool) : Bool × Fill :=
  if full then
    if dev.write b.asked b.size = 0 ∧ 0 < b.size then (false, { b with asked := b.asked + 1 })
    else (true, { b with asked := b.asked + 1, size := 0 })
  else (true, b)

def through (dev : Device) (b : Fill) (count : Nat) : Int × Fill :=
  let s := dev.write b.asked count
  (s, { b with asked := b.asked + 1, pos := if 0 < s then u64 (b.pos + s.toNat) else b.pos })

def put (b : Fill) (count : Nat) : Fill :=
  { b with copies := b.copies ++ [(b.size, count)], size := u64 (b.size + count), pos := u64 (b.pos + count) }

def write (dev : Device) (kalloc : Bool) (b : Fill) (count : Int) : Fill :=
  match b.ensure kalloc with
  | none => b
  | some b =>
    match b.makeRoom dev (4096 < u64 (b.size + sizeT count)) with
    | (false, b) => b
    | (true, b) => if 4096 < count then (b.through dev (sizeT count)).2 else b.put (sizeT count)

/-- The loop of `syscall_writev` over one piece; every round takes a byte. `false` if it ends the call. -/
def fill (dev : Device) : Nat → Fill → Nat → Bool × Fill
  | 0, b, _ => (true, b)
  | fuel + 1, b, count =>
    if count = 0 then (true, b)
    else
      match b.makeRoom dev (b.size = 4096) with
      | (false, b) => (false, b)
      | (true, b) =>
        if b.size = 0 ∧ 4096 ≤ count then
          match b.through dev count with
          | (s, b) => if 0 < s then fill dev fuel b (count - s.toNat) else (false, b)
        else
          let toCopy := min (4096 - b.size) count
          fill dev fuel (b.put toCopy) (count - toCopy)

/-- `syscall_writev` on pieces, each with whether its base is set and its length. -/
def writev (dev : Device) (kalloc : Bool) : Fill → List (Bool × Int) → Fill
  | b, [] => b
  | b, (base, len) :: rest =>
    if len = 0 ∨ base = false then writev dev kalloc b rest
    else
      match b.ensure kalloc with
      | none => b
      | some b =>
        match b.fill dev (sizeT len) (sizeT len) with
        | (true, b) => writev dev kalloc b rest
        | (false, b) => b

/-- `syscall_lseek` on a file of `fileSize` bytes. -/
def lseek (dev : Device) (b : Fill) (fileSize : Nat) (offset : Int) (whence : Nat) : Fill :=
  let flush := b.allocated ∧ 0 < b.size
  if flush ∧ dev.write b.asked b.size ≤ 0 then { b with asked := b.asked + 1 }
  else
    let b := if flush then { b with asked := b.asked + 1, size := 0 } else b
    match seekTarget b.pos fileSize offset whence with
    | none => b
    | some target => { b with pos := sizeT target }

/-- The buffer is in its bounds, and so was every copy into it. -/
structure Ok (b : Fill) : Prop where
  fits : b.size ≤ 4096
  before : b.size ≤ b.pos
  word : b.pos < 2 ^ 64
  empty : b.allocated = false → b.size = 0
  inside : ∀ copied ∈ b.copies, copied.1 + copied.2 ≤ 4096

/-! ### What each step keeps -/

variable {dev : Device} {kalloc : Bool} {b b' : Fill} {count : Nat}

theorem sizeT_lt (count : Int) : sizeT count < 2 ^ 64 := by
  unfold sizeT
  omega

theorem sizeT_eq {count : Int} (low : -2 ^ 31 ≤ count) (high : count < 2 ^ 31) :
    (sizeT count : Int) = if 0 ≤ count then count else count + 2 ^ 64 := by
  unfold sizeT
  split <;> omega

theorem Ok.ensure (ok : b.Ok) (ensured : b.ensure kalloc = some b') :
    b'.Ok ∧ b'.allocated ∧ b'.size = b.size ∧ b'.pos = b.pos ∧ b'.asked = b.asked := by
  unfold Fill.ensure at ensured
  split_ifs at ensured with there
  · cases ensured
    exact ⟨ok, there, rfl, rfl, rfl⟩
  · cases ensured
    have none' := ok.empty (by simpa using there)
    exact ⟨⟨by simp, by simp, ok.word, fun _ => rfl, ok.inside⟩, rfl, none'.symm, rfl, rfl⟩

theorem Ok.emptied (ok : b.Ok) (asked : Nat) {pos : Nat} (word : pos < 2 ^ 64) :
    ({ b with size := 0, pos := pos, asked := asked } : Fill).Ok :=
  ⟨Nat.zero_le _, Nat.zero_le _, word, fun _ => rfl, ok.inside⟩

theorem makeRoom_eq_false_iff (full : Bool) :
    (b.makeRoom dev full).1 = false ↔ full ∧ dev.write b.asked b.size = 0 ∧ 0 < b.size := by
  unfold makeRoom
  split_ifs with isFull stuck
  · exact ⟨fun _ => ⟨isFull, stuck⟩, fun _ => rfl⟩
  · exact ⟨fun wrong => (nomatch wrong), fun both => absurd both.2 stuck⟩
  · exact ⟨fun wrong => (nomatch wrong), fun both => absurd both.1 isFull⟩

theorem Ok.makeRoom (ok : b.Ok) (full : Bool) :
    (b.makeRoom dev full).2.Ok ∧ (b.makeRoom dev full).2.pos = b.pos ∧
      (b.makeRoom dev full).2.allocated = b.allocated ∧
      ((b.makeRoom dev full).1 → (b.makeRoom dev full).2.size = if full then 0 else b.size) := by
  unfold Fill.makeRoom
  split_ifs with isFull
  · exact ⟨{ ok with }, rfl, rfl, fun wrong => nomatch wrong⟩
  · exact ⟨ok.emptied _ ok.word, rfl, rfl, fun _ => rfl⟩
  · exact ⟨ok, rfl, rfl, fun _ => rfl⟩

theorem Ok.through (ok : b.Ok) (empty : b.size = 0) : (b.through dev count).2.Ok := by
  unfold Fill.through
  have word := ok.word
  refine ⟨ok.fits, by rw [empty]; exact Nat.zero_le _, ?_, ok.empty, ok.inside⟩
  dsimp only
  split_ifs
  · exact u64_lt _
  · exact word

theorem through_pos (word : b.pos + count < 2 ^ 64) :
    (b.through dev count).2.pos = b.pos + (b.through dev count).1.toNat ∧ (b.through dev count).1.toNat ≤ count := by
  have bounded := dev.bounded b.asked count
  unfold through
  dsimp only
  split_ifs with taken
  · rw [u64_of_lt (by omega)]
    exact ⟨rfl, by omega⟩
  · exact ⟨by omega, by omega⟩

theorem Ok.put (ok : b.Ok) (there : b.allocated) (room : b.size + count ≤ 4096)
    (word : b.pos + count < 2 ^ 64) : (b.put count).Ok := by
  have before := ok.before
  refine ⟨?_, ?_, u64_lt _, fun missing => absurd (there.symm.trans missing) (by decide), fun copied member => ?_⟩
  · show u64 (b.size + count) ≤ 4096
    rwa [u64_of_lt (by omega)]
  · show u64 (b.size + count) ≤ u64 (b.pos + count)
    rw [u64_of_lt (by omega), u64_of_lt word]
    omega
  · rcases mem_append.mp member with old | new
    · exact ok.inside copied old
    · rw [mem_singleton.mp new]
      exact room

theorem put_ok (ok : (b.put count).Ok) (small : b.size ≤ 4096) (word : b.pos < 2 ^ 64) :
    b.size + count ≤ 4096 ∧ b.pos + count < 2 ^ 64 := by
  have room : b.size + count ≤ 4096 := ok.inside _ (mem_append_right _ mem_cons_self)
  have before : u64 (b.size + count) ≤ u64 (b.pos + count) := ok.before
  refine ⟨room, ?_⟩
  unfold u64 at before
  omega

/-! ### The calls -/

/-- `write` ends before it copies: no memory for the buffer, or a full buffer that is not taken. -/
def Stops (dev : Device) (kalloc : Bool) (b : Fill) (count : Int) : Prop :=
  b.allocated = false ∧ kalloc = false ∨
    4096 < u64 (b.size + sizeT count) ∧ dev.write b.asked b.size = 0 ∧ 0 < b.size

def Fits (dev : Device) (kalloc : Bool) (b : Fill) (count : Int) : Prop :=
  Stops dev kalloc b count ∨ 4096 < count ∨ 0 ≤ count ∧ b.pos + count < 2 ^ 64

/-- A `write` is in bounds exactly if it stops before the copy, goes past the buffer, or has a count that is not
negative and does not carry the position over 2⁶⁴. -/
theorem write_ok_iff (ok : b.Ok) (count : BitVec 32) :
    (b.write dev kalloc count.toInt).Ok ↔ Fits dev kalloc b count.toInt := by
  have low : -2 ^ 31 ≤ count.toInt := by simpa using count.le_toInt
  have high : count.toInt < 2 ^ 31 := by simpa using count.toInt_lt
  have size_t := sizeT_eq low high
  generalize count.toInt = count at low high size_t ⊢
  unfold write Fits Stops
  cases ensured : b.ensure kalloc with
  | none =>
    unfold Fill.ensure at ensured
    split_ifs at ensured with there given
    exact ⟨fun _ => .inl (.inl ⟨by simpa using there, by simpa using given⟩), fun _ => ok⟩
  | some b' =>
    obtain ⟨ok', there, size, pos, asked⟩ := ok.ensure ensured
    have missing : ¬ (b.allocated = false ∧ kalloc = false) := by
      rintro ⟨absent, refused⟩
      simp [Fill.ensure, absent, refused] at ensured
    rw [← size, ← pos, ← asked]
    dsimp only
    have stuck := @makeRoom_eq_false_iff dev b' (4096 < u64 (b'.size + sizeT count))
    have roomy := @Ok.makeRoom dev b' ok' (4096 < u64 (b'.size + sizeT count))
    generalize b'.makeRoom dev (4096 < u64 (b'.size + sizeT count)) = answer at stuck roomy ⊢
    obtain ⟨going, b''⟩ := answer
    obtain ⟨ok'', pos', there', left⟩ := roomy
    simp only [decide_eq_true_eq] at stuck left ok'' pos' there'
    have fits := ok'.fits
    have fits'' := ok''.fits
    have word := ok''.word
    cases going with
    | false =>
      exact ⟨fun _ => .inl (.inr (stuck.mp rfl)), fun _ => ok''⟩
    | true =>
      have size'' := left rfl
      dsimp only at size'' ⊢
      by_cases large : 4096 < count
      · have full : 4096 < u64 (b'.size + sizeT count) := by
          rw [u64_of_lt (by omega)]
          omega
        rw [if_pos large]
        rw [if_pos full] at size''
        exact ⟨fun _ => .inr (.inl large), fun _ => ok''.through size''⟩
      · rw [if_neg large]
        constructor
        · intro kept
          obtain ⟨room, low'⟩ := put_ok kept fits'' word
          split_ifs at size_t
          · exact .inr (.inr ⟨by omega, by omega⟩)
          · omega
        · rintro ((absent | stops) | isLarge | ⟨positive, below⟩)
          · exact absurd absent missing
          · exact absurd (stuck.mpr stops) (by decide)
          · exact absurd isLarge large
          · refine ok''.put (there'.trans there) ?_ (by omega)
            split_ifs at size'' with full
            · omega
            · rw [u64_of_lt (by omega)] at full
              omega

/-- A piece that stays below 2⁶⁴ is copied within the bounds, whatever is taken on the way. -/
theorem Ok.fill (fuel : Nat) : ∀ {b : Fill} {count : Nat}, b.Ok → b.allocated → b.pos + count < 2 ^ 64 →
    (b.fill dev fuel count).2.Ok ∧ (b.fill dev fuel count).2.pos ≤ b.pos + count := by
  induction fuel with
  | zero => exact fun ok _ _ => ⟨ok, Nat.le_add_right _ _⟩
  | succ fuel ih =>
    intro b count ok there word
    unfold Fill.fill
    split_ifs with done
    · exact ⟨ok, Nat.le_add_right _ _⟩
    have roomy := @Ok.makeRoom dev b ok (b.size = 4096)
    generalize b.makeRoom dev (b.size = 4096) = answer at roomy ⊢
    obtain ⟨going, b'⟩ := answer
    obtain ⟨ok', pos, there', left⟩ := roomy
    dsimp only at ok' pos there'
    have there'' := there'.trans there
    cases going with
    | false =>
      dsimp only
      exact ⟨ok', by omega⟩
    | true =>
      dsimp only
      split_ifs with direct taken
      · obtain ⟨moved, bounded⟩ := @through_pos dev b' count (by omega)
        obtain ⟨kept, reached⟩ := @ih (b'.through dev count).2 (count - (b'.through dev count).1.toNat)
          (ok'.through direct.1) there'' (by omega)
        exact ⟨kept, by omega⟩
      · obtain ⟨moved, bounded⟩ := @through_pos dev b' count (by omega)
        exact ⟨ok'.through direct.1, by dsimp only; omega⟩
      · have fits := ok'.fits
        have moved : (b'.put (min (4096 - b'.size) count)).pos = b'.pos + min (4096 - b'.size) count :=
          u64_of_lt (by omega)
        obtain ⟨kept, reached⟩ := ih (ok'.put there'' (by omega) (by omega)) there''
          (show (b'.put (min (4096 - b'.size) count)).pos + (count - min (4096 - b'.size) count) < 2 ^ 64 by omega)
        exact ⟨kept, by omega⟩

/-- The bytes of the pieces with a base; the others are skipped. -/
def total (iov : List (Bool × Int)) : Nat := (iov.map fun piece => if piece.1 then sizeT piece.2 else 0).sum

theorem Ok.writev (iov : List (Bool × Int)) : ∀ {b : Fill}, b.Ok → b.pos + total iov < 2 ^ 64 →
    (b.writev dev kalloc iov).Ok := by
  induction iov with
  | nil => exact fun ok _ => ok
  | cons piece rest ih =>
    obtain ⟨base, len⟩ := piece
    intro b ok word
    have sum : total ((base, len) :: rest) = (if base then sizeT len else 0) + total rest := sum_cons
    unfold Fill.writev
    split_ifs with skipped
    · exact ih ok (by omega)
    rw [if_pos (Bool.eq_true_of_not_eq_false fun missing => skipped (.inr missing))] at sum
    cases ensured : b.ensure kalloc with
    | none => exact ok
    | some b' =>
      obtain ⟨ok', there, -, pos, -⟩ := ok.ensure ensured
      obtain ⟨kept, reached⟩ := @Ok.fill dev (sizeT len) b' (sizeT len) ok' there (by omega)
      dsimp only
      generalize b'.fill dev (sizeT len) (sizeT len) = answer at kept reached ⊢
      obtain ⟨going, b''⟩ := answer
      cases going with
      | false => exact kept
      | true => exact ih kept (by dsimp only at reached; omega)

theorem Ok.lseek (ok : b.Ok) (fileSize : Nat) (offset : Int) (whence : Nat) :
    (b.lseek dev fileSize offset whence).Ok := by
  unfold Fill.lseek
  dsimp only
  by_cases flush : b.allocated ∧ 0 < b.size
  · by_cases refused : dev.write b.asked b.size ≤ 0
    · rw [if_pos ⟨flush, refused⟩]
      exact { ok with }
    · rw [if_neg (fun both => refused both.2), if_pos flush]
      split
      · exact ok.emptied _ ok.word
      · exact ok.emptied _ (sizeT_lt _)
  · have none' : b.size = 0 := by
      by_contra some'
      cases there : b.allocated with
      | false => exact some' (ok.empty there)
      | true => exact flush ⟨there, Nat.pos_of_ne_zero some'⟩
    rw [if_neg (fun both => flush both.1), if_neg flush]
    split
    · exact ok
    · exact ⟨ok.fits, by dsimp only; omega, sizeT_lt _, ok.empty, ok.inside⟩

/-! ### Runs -/

/-- A call, with whether there is memory for a buffer. A count is 32 bits wide. -/
inductive Call
  | write (kalloc : Bool) (count : BitVec 32)
  | writev (kalloc : Bool) (iov : List (Bool × BitVec 32))
  | lseek (fileSize : Nat) (offset : Int) (whence : Nat)

/-- The dispatcher extends the counts with their signs. -/
def perform (dev : Device) (b : Fill) : Call → Fill
  | .write kalloc count => b.write dev kalloc count.toInt
  | .writev kalloc iov => b.writev dev kalloc (iov.map fun piece => (piece.1, piece.2.toInt))
  | .lseek fileSize offset whence => b.lseek dev fileSize offset whence

/-- What keeps the bounds: a count of `write` fits, and the pieces of `writev` do not carry the position over
2⁶⁴. -/
def Allowed (dev : Device) (b : Fill) : Call → Prop
  | .write kalloc count => Fits dev kalloc b count.toInt
  | .writev _ iov => b.pos + total (iov.map fun piece => (piece.1, piece.2.toInt)) < 2 ^ 64
  | .lseek .. => True

def AllowedRun (dev : Device) : Fill → List Call → Prop
  | _, [] => True
  | b, call :: rest => Allowed dev b call ∧ AllowedRun dev (b.perform dev call) rest

theorem Ok.perform (ok : b.Ok) (call : Call) (allowed : Allowed dev b call) : (b.perform dev call).Ok := by
  cases call with
  | write kalloc count => exact (write_ok_iff ok count).mpr allowed
  | writev kalloc iov => exact ok.writev _ allowed
  | lseek fileSize offset whence => exact ok.lseek fileSize offset whence

end Fill

/-- **When the write buffer is in its bounds.** A `write` keeps it there if and only if its count fits, and a run
whose calls are allowed keeps it there throughout. -/
theorem write_buffer_bounded (dev : Device) :
    (∀ (b : Fill) kalloc count, b.Ok →
      ((b.perform dev (.write kalloc count)).Ok ↔ Fill.Fits dev kalloc b count.toInt)) ∧
    ∀ calls (b : Fill), b.Ok → Fill.AllowedRun dev b calls → (calls.foldl (Fill.perform dev) b).Ok := by
  refine ⟨fun b kalloc count ok => Fill.write_ok_iff ok count, fun calls => ?_⟩
  induction calls with
  | nil => exact fun b ok _ => ok
  | cons call rest ih => exact fun b ok allowed => ih _ (ok.perform call allowed.1) allowed.2

/-- A device that takes everything, and a file that was just opened. -/
def takesAll : Device := ⟨fun _ count => count, fun _ _ => le_rfl⟩

def opened : Fill := ⟨false, 0, 0, 0, []⟩

theorem opened_ok : opened.Ok := ⟨by decide, by decide, by decide, fun _ => rfl, by simp [opened]⟩

/-- Ten bytes, a seek and a full buffer. -/
theorem write_buffer_bounded_small :
    ([.write true 10, .lseek 100 5 0, .write true 4096].foldl (Fill.perform takesAll) opened).Ok :=
  (write_buffer_bounded takesAll).2 _ opened opened_ok
    ⟨.inr (.inr ⟨by decide, by decide⟩), trivial, .inr (.inr ⟨by decide, by decide⟩), trivial⟩

/-- `write` with the count -1: 2⁶⁴ - 1 bytes are copied into the buffer. -/
theorem write_buffer_overrun :
    opened.Ok ∧ (opened.perform takesAll (.write true (-1))).copies = [(0, 2 ^ 64 - 1)] ∧
      ¬ (opened.perform takesAll (.write true (-1))).Ok := by
  have copied : (opened.perform takesAll (.write true (-1))).copies = [(0, 2 ^ 64 - 1)] := by decide
  refine ⟨opened_ok, copied, fun ok => ?_⟩
  have inside := ok.inside (0, 2 ^ 64 - 1) (copied ▸ mem_cons_self)
  exact absurd inside (by decide)

end Voxia.Fd
