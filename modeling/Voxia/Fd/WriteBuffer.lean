/-
**Writing through the buffer, over a file that is an ideal byte array.**

`view st f` is what the file holds once the buffer of the open file `f` is written back. A write is right if it does
to the view what a write at the position does to the file (`Writes`). Each small step of `syscall_write` and
`syscall_writev` is a `Writes` for the bytes it takes, and these compose.
-/

import Voxia.Fd.Counts

namespace Voxia.Fd

open List Nat

/-! ### The ideal file -/

/-- A file: its bytes, 0 from its end on, and its size. -/
structure Contents where
  bytes : Nat → UInt8
  size : Nat

/-- Bytes stored at an offset; a gap before them is filled with zeros. -/
def Contents.write (file : Contents) (data : List UInt8) (offset : Nat) : Contents :=
  if data = [] then file
  else
    { bytes := fun a =>
        if offset ≤ a ∧ a < offset + data.length then data.getD (a - offset) 0
        else if a < file.size then file.bytes a else 0
      size := max file.size (offset + data.length) }

/-- The bytes from an offset on, as far as there are any. -/
def Contents.read (file : Contents) (count offset : Nat) : List UInt8 :=
  (List.range (min count (file.size - offset))).map fun i => file.bytes (offset + i)

def idealFile : FileSystem Contents where
  read := fun file _ count offset => (.ok (file.read count offset), file)
  write := fun file _ data offset => (data.length, file.write data offset)
  truncate := fun _ _ => ⟨fun _ => 0, 0⟩
  size := fun file _ => file.size
  send := fun file _ _ => (-1, file)
  receive := fun file _ _ => (.error (-1), file)

@[simp] theorem Contents.write_nil (file : Contents) (offset : Nat) : file.write [] offset = file := if_pos rfl

/-- Two writes one behind the other are one. -/
theorem Contents.write_write (file : Contents) (first second : List UInt8) (offset : Nat) :
    (file.write first offset).write second (offset + first.length) = file.write (first ++ second) offset := by
  by_cases none : first = []
  · rw [none]
    simp
  by_cases noMore : second = []
  · rw [noMore]
    simp
  have both : first ++ second ≠ [] := by simp [none]
  have length : (first ++ second).length = first.length + second.length := length_append
  rw [write, write, write, if_neg none, if_neg noMore, if_neg both]
  refine Contents.mk.injEq .. |>.mpr ⟨funext fun a => ?_, ?_⟩
  · dsimp only
    by_cases inSecond : offset + first.length ≤ a ∧ a < offset + first.length + second.length
    · have inBoth : offset ≤ a ∧ a < offset + (first ++ second).length := by omega
      have index : a - (offset + first.length) = a - offset - first.length := by omega
      rw [if_pos inSecond, if_pos inBoth, getD_append_right _ _ _ _ (by omega), index]
    · by_cases inFirst : offset ≤ a ∧ a < offset + first.length
      · have inBoth : offset ≤ a ∧ a < offset + (first ++ second).length := by omega
        have inFile : a < max file.size (offset + first.length) := by omega
        rw [if_neg inSecond, if_pos inFile, if_pos inFirst, if_pos inBoth, getD_append _ _ _ _ (by omega)]
      · have notInBoth : ¬ (offset ≤ a ∧ a < offset + (first ++ second).length) := by omega
        rw [if_neg inSecond, if_neg inFirst, if_neg notInBoth]
        by_cases old : a < file.size
        · have inFile : a < max file.size (offset + first.length) := by omega
          rw [if_pos inFile]
        · rw [if_neg old, ite_self]
  · dsimp only
    omega

/-! ### The view of an open file -/

/-- The file once the buffer of `f` is written back. -/
def view (st : Files Contents) (f : Nat) : Contents :=
  st.fs.write (st.files f).pending ((st.files f).pos - (st.files f).pending.length)

def FileDescriptor.erase (file : FileDescriptor) : FileDescriptor := { file with writeBuffer := none }

/-- The buffer fits, and its bytes lie before the position. -/
structure InBounds (file : FileDescriptor) : Prop where
  fits : file.pending.length ≤ 4096
  before : file.pending.length ≤ file.pos
  word : file.pos < 2 ^ 64

theorem bufferOffset_eq {file : FileDescriptor} (bounds : InBounds file) :
    file.bufferOffset = file.pos - file.pending.length := by
  obtain ⟨-, before, word⟩ := bounds
  have sum : file.pos + (2 ^ 64 - file.pending.length) = file.pos - file.pending.length + 2 ^ 64 := by omega
  rw [FileDescriptor.bufferOffset, u64, sum, add_mod_right, mod_eq_of_lt (by omega)]

/-- `st'` is `st` after `data` was written through the open file `f`. -/
structure Writes (f : Nat) (data : List UInt8) (st st' : Files Contents) : Prop where
  procs : st'.procs = st.procs
  nextProc : st'.nextProc = st.nextProc
  exited : st'.exited = st.exited
  next : st'.next = st.next
  released : st'.released = st.released
  others : ∀ g, g ≠ f → st'.files g = st.files g
  self : (st'.files f).erase = { (st.files f).erase with pos := (st.files f).pos + data.length }
  view : view st' f = (view st f).write data (st.files f).pos
  bounds : InBounds (st'.files f)

section Steps

variable {f : Nat} {st st' st'' : Files Contents} {data : List UInt8}

theorem Writes.pos (writes : Writes f data st st') : (st'.files f).pos = (st.files f).pos + data.length :=
  congrArg FileDescriptor.pos writes.self

theorem Writes.vnode (writes : Writes f data st st') : (st'.files f).vnode = (st.files f).vnode := by
  have same := congrArg FileDescriptor.vnode writes.self
  exact same

theorem Writes.ops (writes : Writes f data st st') : (st'.files f).ops = (st.files f).ops := by
  have same := congrArg FileDescriptor.ops writes.self
  exact same

theorem Writes.refl (bounds : InBounds (st.files f)) : Writes f [] st st :=
  ⟨rfl, rfl, rfl, rfl, rfl, fun _ _ => rfl, rfl, (Contents.write_nil _ _).symm, bounds⟩

/-- Two writes in a row are one write of their bytes. -/
theorem Writes.trans {more : List UInt8} (first : Writes f data st st') (second : Writes f more st' st'') :
    Writes f (data ++ more) st st'' := by
  refine ⟨second.procs.trans first.procs, second.nextProc.trans first.nextProc, second.exited.trans first.exited,
    second.next.trans first.next, second.released.trans first.released, fun g other => ?_, ?_, ?_, second.bounds⟩
  · rw [second.others g other, first.others g other]
  · rw [second.self, first.self, first.pos, length_append, add_assoc]
  · rw [second.view, first.view, first.pos, Contents.write_write]

theorem Writes.of_setFile {file : FileDescriptor} {fs : Contents}
    (same : file.erase = { (st.files f).erase with pos := (st.files f).pos + data.length })
    (viewed : fs.write file.pending (file.pos - file.pending.length) = (Fd.view st f).write data (st.files f).pos)
    (bounds : InBounds file) : Writes f data st { setFile st f file with fs := fs } := by
  have here : ({ setFile st f file with fs := fs } : Files Contents).files f = file := by
    rw [files_setFile, if_pos rfl]
  refine ⟨rfl, rfl, rfl, rfl, rfl, fun g other => ?_, ?_, ?_, ?_⟩
  · rw [files_setFile, if_neg other]
  · rw [here, same]
  · rw [Fd.view, here, viewed]
  · rw [here]
    exact bounds

theorem ensureBuffer_writes (bounds : InBounds (st.files f)) : Writes f [] st (ensureBuffer st f) :=
  Writes.of_setFile rfl (Contents.write_nil _ _).symm ⟨bounds.fits, bounds.before, bounds.word⟩

theorem appendBuffer_writes (bounds : InBounds (st.files f)) (fits : (st.files f).pending.length + data.length ≤ 4096)
    (word : (st.files f).pos + data.length < 2 ^ 64) : Writes f data st (appendBuffer st f data) := by
  have before := bounds.before
  have appended : appendBuffer st f data = { setFile st f { st.files f with
      pos := (st.files f).pos + data.length
      writeBuffer := some ((st.files f).pending ++ data) } with fs := st.fs } := by
    rw [appendBuffer, advance, files_setFile, if_pos rfl, setFile, setFile, setFile, u64_of_lt word]
    simp only [Function.update_idem]
  rw [appended]
  refine Writes.of_setFile rfl ?_ ⟨?_, ?_, word⟩
  · have offset : (st.files f).pos + data.length - ((st.files f).pending ++ data).length =
        (st.files f).pos - (st.files f).pending.length := by
      rw [length_append]
      omega
    have position : (st.files f).pos =
        (st.files f).pos - (st.files f).pending.length + (st.files f).pending.length := by omega
    show st.fs.write ((st.files f).pending ++ data)
      ((st.files f).pos + data.length - ((st.files f).pending ++ data).length) = _
    rw [offset, view, ← Contents.write_write, ← position]
  · show ((st.files f).pending ++ data).length ≤ 4096
    rw [length_append]
    exact fits
  · show ((st.files f).pending ++ data).length ≤ (st.files f).pos + data.length
    rw [length_append]
    omega

theorem makeRoom_writes (bounds : InBounds (st.files f)) (vnode : Vnode) (full : Bool) :
    ∃ st', makeRoom idealFile st f vnode full = (none, st') ∧ Writes f [] st st' ∧
      (full → (st'.files f).pending = []) ∧ (full = false → st' = st) := by
  cases full with
  | false => exact ⟨st, rfl, .refl bounds, fun full => (nomatch full), fun _ => rfl⟩
  | true =>
    have taken : ¬ (((st.files f).pending.length : Int) = 0 ∧ (st.files f).pending ≠ []) := by
      rintro ⟨zero, some⟩
      exact some (length_eq_zero_iff.mp (by omega))
    refine ⟨clearBuffer { st with fs := view st f } f, ?_, ?_, fun _ => ?_, fun full => (nomatch full)⟩
    · rw [makeRoom, if_pos rfl, writeBack, bufferOffset_eq bounds]
      exact if_neg taken
    · exact Writes.of_setFile rfl (by simp [FileDescriptor.pending]) ⟨zero_le _, zero_le _, bounds.word⟩
    · rw [clearBuffer, files_setFile, if_pos rfl]
      rfl

theorem writeThrough_eq (word : (st.files f).pos + data.length < 2 ^ 64) (vnode : Vnode) :
    writeThrough idealFile st f vnode data = ((data.length : Int),
      { setFile st f { st.files f with pos := (st.files f).pos + data.length } with
        fs := st.fs.write data (st.files f).pos }) := by
  show ((data.length : Int), if (0 : Int) < (data.length : Int) then
      advance { st with fs := st.fs.write data (st.files f).pos } f (data.length : Int).toNat
      else { st with fs := st.fs.write data (st.files f).pos }) = _
  by_cases nothing : data = []
  · subst nothing
    simp [setFile]
  · have positive : (0 : Int) < (data.length : Int) := by
      have := length_pos_iff.mpr nothing
      omega
    rw [if_pos positive, advance, Int.toNat_natCast, u64_of_lt word]
    rfl

/-- A write without a buffer takes all its bytes. -/
theorem writeThrough_writes (empty : (st.files f).pending = []) (word : (st.files f).pos + data.length < 2 ^ 64) :
    Writes f data st { setFile st f { st.files f with pos := (st.files f).pos + data.length } with
      fs := st.fs.write data (st.files f).pos } := by
  have stillEmpty : FileDescriptor.pending { st.files f with pos := (st.files f).pos + data.length } = [] := empty
  refine Writes.of_setFile rfl ?_ ⟨?_, ?_, word⟩
  · rw [stillEmpty, Contents.write_nil, view, empty, Contents.write_nil]
  · rw [stillEmpty]
    exact zero_le _
  · rw [stillEmpty]
    exact zero_le _

end Steps

/-! ### The calls -/

section Calls

variable {f : Nat} {st : Files Contents} {data : List UInt8}

/-- `syscall_write` on an open regular file takes all its bytes. -/
theorem bufferedWrite_writes (bounds : InBounds (st.files f)) (word : (st.files f).pos + data.length < 2 ^ 64)
    (vnode : Vnode) :
    ∃ st', bufferedWrite idealFile st f vnode data = ((data.length : Int), st') ∧ Writes f data st st' := by
  have ready := ensureBuffer_writes bounds
  obtain ⟨roomy, room, writes, emptied, same⟩ := makeRoom_writes ready.bounds vnode
    (4096 < ((ensureBuffer st f).files f).pending.length + data.length)
  have both : Writes f [] st roomy := ready.trans writes
  have position : (roomy.files f).pos = (st.files f).pos := both.pos
  rw [bufferedWrite]
  simp only [room]
  by_cases large : 4096 < data.length
  · have empty : (roomy.files f).pending = [] := emptied (by rw [decide_eq_true_eq]; omega)
    have some : ¬ ((data.length : Int) = 0) := by omega
    rw [if_pos large, writeThrough_eq (by omega)]
    refine ⟨_, ?_, both.trans (writeThrough_writes empty (by omega))⟩
    simp only [if_neg some]
  · rw [if_neg large]
    refine ⟨_, rfl, both.trans (appendBuffer_writes both.bounds ?_ (by omega))⟩
    by_cases full : 4096 < ((ensureBuffer st f).files f).pending.length + data.length
    · rw [emptied (by rw [decide_eq_true_eq]; exact full), length_nil]
      omega
    · rw [same (by rw [decide_eq_false_iff_not]; exact full)]
      omega

/-- The loop over a piece: every round takes a part of it, and the rest is left to the induction. -/
theorem fillBuffer_writes (vnode : Vnode) (fuel : Nat) : ∀ (st : Files Contents) (data : List UInt8) (taken : Nat),
    data.length ≤ fuel → InBounds (st.files f) → (st.files f).pos + data.length < 2 ^ 64 →
    ∃ st', fillBuffer idealFile f vnode fuel st data taken = (taken + data.length, none, st') ∧
      Writes f data st st' := by
  induction fuel with
  | zero =>
    intro st data taken short bounds _
    have nothing : data = [] := length_eq_zero_iff.mp (by omega)
    subst nothing
    exact ⟨st, rfl, .refl bounds⟩
  | succ fuel ih =>
    intro st data taken short bounds word
    by_cases nothing : data = []
    · subst nothing
      exact ⟨st, rfl, .refl bounds⟩
    obtain ⟨roomy, room, writes, emptied, same⟩ := makeRoom_writes bounds vnode ((st.files f).pending.length = 4096)
    have position : (roomy.files f).pos = (st.files f).pos := writes.pos
    have roomLeft : (roomy.files f).pending.length < 4096 := by
      have fits := bounds.fits
      by_cases full : (st.files f).pending.length = 4096
      · rw [emptied (by rw [decide_eq_true_eq]; exact full)]
        exact succ_pos _
      · rw [same (by rw [decide_eq_false_iff_not]; exact full)]
        omega
    rw [fillBuffer, if_neg nothing]
    simp only [room]
    by_cases direct : (roomy.files f).pending = [] ∧ 4096 ≤ data.length
    · have word' : (roomy.files f).pos + data.length < 2 ^ 64 := by omega
      have through := writes.trans (writeThrough_writes direct.1 word')
      have some : (0 : Int) < (data.length : Int) := by omega
      rw [if_pos direct, writeThrough_eq word']
      simp only [if_pos some, Int.toNat_natCast, drop_length]
      obtain ⟨st', rest, writes'⟩ := ih _ [] (taken + data.length) (zero_le _) through.bounds through.bounds.word
      refine ⟨st', rest, ?_⟩
      have whole := through.trans writes'
      rwa [append_nil, nil_append] at whole
    · rw [if_neg direct]
      generalize copied : min (4096 - (roomy.files f).pending.length) data.length = toCopy
      have taken' : (data.take toCopy).length = toCopy := by
        rw [length_take]
        omega
      have left : (data.drop toCopy).length = data.length - toCopy := length_drop
      have fits : (roomy.files f).pending.length + (data.take toCopy).length ≤ 4096 := by omega
      have word' : (roomy.files f).pos + (data.take toCopy).length < 2 ^ 64 := by omega
      have part := writes.trans (appendBuffer_writes writes.bounds fits word')
      have moved := part.pos
      rw [nil_append] at part moved
      obtain ⟨st', rest, writes'⟩ := ih _ (data.drop toCopy) (taken + toCopy) (by omega) part.bounds (by omega)
      refine ⟨st', ?_, ?_⟩
      · rw [rest, left, show taken + toCopy + (data.length - toCopy) = taken + data.length by omega]
      · have whole := part.trans writes'
        rwa [take_append_drop] at whole

/-- A piece of `syscall_writev` is taken whole. -/
theorem bufferedPiece_writes (bounds : InBounds (st.files f)) (word : (st.files f).pos + data.length < 2 ^ 64)
    (vnode : Vnode) :
    ∃ st', bufferedPiece idealFile st f vnode data = (data.length, none, st') ∧ Writes f data st st' := by
  have ready := ensureBuffer_writes bounds
  have position : ((ensureBuffer st f).files f).pos = (st.files f).pos := ready.pos
  obtain ⟨st', filled, writes⟩ := fillBuffer_writes vnode data.length (ensureBuffer st f) data 0 (le_refl _)
    ready.bounds (by omega)
  rw [zero_add] at filled
  exact ⟨st', filled, ready.trans writes⟩

theorem plainPiece_eq (some : data ≠ []) (word : (st.files f).pos + data.length < 2 ^ 64) (vnode : Vnode) :
    plainPiece idealFile st f vnode data = (data.length, none,
      { setFile st f { st.files f with pos := (st.files f).pos + data.length } with
        fs := st.fs.write data (st.files f).pos }) := by
  have positive : (0 : Int) < (data.length : Int) := by
    have := length_pos_iff.mpr some
    omega
  rw [plainPiece, writeThrough_eq word]
  simp only [if_pos positive, Int.toNat_natCast]

theorem writePieces_writes {Ready : Files Contents → Prop} {piece : Files Contents → List UInt8 → Taken Contents}
    (inBounds : ∀ st, Ready st → InBounds (st.files f)) (iov : List (List UInt8))
    (spec : ∀ data ∈ iov, ∀ st, Ready st → data ≠ [] → (st.files f).pos + data.length < 2 ^ 64 →
      ∃ st', piece st data = (data.length, none, st') ∧ Writes f data st st' ∧ Ready st') :
    ∀ (st : Files Contents) (total : Nat), Ready st → (st.files f).pos + iov.flatten.length < 2 ^ 64 →
      ∃ st', writePieces piece st iov total = (((total + iov.flatten.length : Nat) : Int), st') ∧
        Writes f iov.flatten st st' ∧ Ready st' := by
  induction iov with
  | nil =>
    intro st total ready _
    exact ⟨st, rfl, .refl (inBounds st ready), ready⟩
  | cons data rest ih =>
    intro st total ready word
    replace ih := ih fun data later => spec data (mem_cons_of_mem _ later)
    rw [flatten_cons, length_append] at word ⊢
    by_cases nothing : data = []
    · subst nothing
      rw [writePieces, if_pos rfl, length_nil, zero_add, nil_append]
      exact ih st total ready (by rw [length_nil] at word; omega)
    · obtain ⟨st', taken, first, ready'⟩ := spec data mem_cons_self st ready nothing (by omega)
      have position := first.pos
      obtain ⟨st'', others, second, ready''⟩ := ih st' (total + data.length) ready' (by omega)
      refine ⟨st'', ?_, first.trans second, ready''⟩
      rw [writePieces, if_neg nothing]
      simp only [taken, others, add_assoc]

end Calls

end Voxia.Fd
