/-
**The counts of the open files.**

The books are kept right if the count of every open file is the number of slots that point to it, and if it was
released once when there is none left and never before (`Sound`, by `Lib.Counted`). The writing calls do not touch the
books at all (`SameBooks`). Every other call is made of three moves: a new file in an empty slot, a slot that shares a
file, and a slot that is given up; the loops of `fork`, `execve` and `free_fdtable` repeat them.
-/

import Voxia.Fd.FileTable
import Voxia.Lib.RefCount
import Mathlib.Data.Finset.Prod
import Mathlib.Data.Fintype.Prod

namespace Voxia.Fd

open Lib Function List Option Nat

variable {σ : Type}

/-! ### The books -/

def places (st : Files σ) : Finset (Nat × Fin maxFds) := Finset.range st.nextProc ×ˢ Finset.univ

def releases (st : Files σ) (f : Nat) : Nat := st.released.countP fun r => r.file = f

/-- The books are right for the slots in `keys`. -/
structure SoundOn (keys : Finset (Nat × Fin maxFds)) (st : Files σ) : Prop where
  counted : Counted (held st) keys (fun f => (st.files f).count) (releases st) (· < st.next)
  processes : ∀ p, st.nextProc ≤ p → st.procs p = none
  logged : ∀ r ∈ st.released, r.file < st.next

def Sound (st : Files σ) : Prop := SoundOn (places st) st

variable {st st' : Files σ} {p f : Nat} {i : Fin maxFds} {keys : Finset (Nat × Fin maxFds)} {k : Nat × Fin maxFds}

theorem mem_places : (p, i) ∈ places st ↔ p < st.nextProc := by
  simp [places]

theorem SoundOn.mem_places (sound : SoundOn keys st) (process : st.procs p ≠ none)
    (i : Fin maxFds) : (p, i) ∈ places st := by
  refine Fd.mem_places.mpr (Nat.lt_of_not_le fun unborn => process (sound.processes p unborn))

theorem procs_of_held (points : held st (p, i) = some f) : st.procs p ≠ none := by
  intro nothing
  rw [held, nothing] at points
  cases points

theorem releases_next (sound : SoundOn keys st) : releases st st.next = 0 := by
  rw [releases, countP_eq_zero]
  intro r logged
  simpa using Nat.ne_of_lt (sound.logged r logged)

/-! ### Calls that leave the books alone -/

structure SameBooks (st st' : Files σ) : Prop where
  procs : st'.procs = st.procs
  nextProc : st'.nextProc = st.nextProc
  counts : ∀ f, (st'.files f).count = (st.files f).count
  next : st'.next = st.next
  released : st'.released = st.released

theorem SameBooks.refl (st : Files σ) : SameBooks st st := ⟨rfl, rfl, fun _ => rfl, rfl, rfl⟩

theorem SameBooks.trans {st'' : Files σ} (first : SameBooks st st') (second : SameBooks st' st'') : SameBooks st st'' :=
  ⟨second.procs.trans first.procs, second.nextProc.trans first.nextProc,
    fun f => (second.counts f).trans (first.counts f), second.next.trans first.next,
    second.released.trans first.released⟩

theorem SameBooks.sound (same : SameBooks st st') (sound : Sound st) : Sound st' := by
  have heldEq : held st' = held st := by
    funext k
    rw [held, same.procs, held]
  have placesEq : places st' = places st := by rw [places, same.nextProc, places]
  have countEq : (fun f => (st'.files f).count) = fun f => (st.files f).count := funext same.counts
  have releasesEq : releases st' = releases st := by
    funext f
    rw [releases, same.released, releases]
  refine ⟨?_, ?_, ?_⟩
  · rw [heldEq, placesEq, countEq, releasesEq, same.next]
    exact sound.counted
  · rw [same.nextProc, same.procs]
    exact sound.processes
  · rw [same.released, same.next]
    exact sound.logged

theorem SameBooks.setFs (st : Files σ) (fs : σ) : SameBooks st { st with fs := fs } :=
  ⟨rfl, rfl, fun _ => rfl, rfl, rfl⟩

theorem files_setFile (st : Files σ) (f : Nat) (file : FileDescriptor) (g : Nat) :
    (setFile st f file).files g = if g = f then file else st.files g := update_apply _ _ _ _

theorem SameBooks.setFile (st : Files σ) (f : Nat) (file : FileDescriptor)
    (count : file.count = (st.files f).count) : SameBooks st (setFile st f file) := by
  refine ⟨rfl, rfl, fun g => ?_, rfl, rfl⟩
  rw [files_setFile]
  by_cases same : g = f
  · rw [if_pos same, same, count]
  · rw [if_neg same]

section Writing

variable (sys : FileSystem σ) (st : Files σ) (f : Nat) (vnode : Vnode) (data : List UInt8)

theorem SameBooks.advance (count : Nat) : SameBooks st (advance st f count) := .setFile st f _ rfl

theorem SameBooks.clearBuffer : SameBooks st (clearBuffer st f) := .setFile st f _ rfl

theorem SameBooks.ensureBuffer : SameBooks st (ensureBuffer st f) := .setFile st f _ rfl

theorem SameBooks.appendBuffer : SameBooks st (appendBuffer st f data) :=
  (SameBooks.setFile st f { st.files f with writeBuffer := some ((st.files f).pending ++ data) } rfl).trans
    (.advance _ f _)

theorem SameBooks.writeBack : SameBooks st (writeBack sys st f vnode).2 := .setFs st _

theorem SameBooks.writeThrough : SameBooks st (writeThrough sys st f vnode data).2 := by
  rw [Fd.writeThrough]
  rcases sys.write st.fs vnode.id data (st.files f).pos with ⟨s, fs⟩
  dsimp only
  split
  · exact (SameBooks.setFs st fs).trans (.advance _ f _)
  · exact .setFs st fs

theorem SameBooks.makeRoom (full : Bool) : SameBooks st (makeRoom sys st f vnode full).2 := by
  have back := SameBooks.writeBack sys st f vnode
  rw [Fd.makeRoom]
  split
  · revert back
    rcases Fd.writeBack sys st f vnode with ⟨s, st'⟩
    intro back
    dsimp only
    split
    · exact back
    · exact back.trans (.clearBuffer st' f)
  · exact .refl st

theorem SameBooks.bufferedWrite : SameBooks st (bufferedWrite sys st f vnode data).2 := by
  have room := fun full => (SameBooks.ensureBuffer st f).trans (.makeRoom sys _ f vnode full)
  rw [Fd.bufferedWrite]
  specialize room (4096 < ((Fd.ensureBuffer st f).files f).pending.length + data.length)
  revert room
  rcases Fd.makeRoom sys (Fd.ensureBuffer st f) f vnode _ with ⟨_ | err, st'⟩
  · intro room
    dsimp only
    split
    · exact room.trans (.writeThrough sys st' f vnode data)
    · exact room.trans (.appendBuffer st' f data)
  · exact fun room => room

theorem SameBooks.syscallWrite (p : Nat) (fd : Int) : SameBooks st (syscallWrite sys st p fd data).2 := by
  show SameBooks st (writeWith Fd.bufferedWrite sys st p fd data).2
  rw [writeWith]
  split
  · exact .refl st
  · split
    · split
      · exact .setFs st _
      · exact .refl st
    · exact .refl st
    · split
      · split
        · exact .bufferedWrite sys st _ _ data
        · exact .writeThrough sys st _ _ data
      · exact .refl st

/-- Every round of the loop over a piece: by induction on its fuel. -/
theorem SameBooks.fillBuffer (fuel : Nat) : ∀ (st : Files σ) (data : List UInt8) (taken : Nat),
    SameBooks st (fillBuffer sys f vnode fuel st data taken).2.2 := by
  induction fuel with
  | zero => exact fun st _ _ => .refl st
  | succ fuel ih =>
    intro st data taken
    have room := SameBooks.makeRoom sys st f vnode ((st.files f).pending.length = 4096)
    rw [Fd.fillBuffer]
    split
    · exact .refl st
    · revert room
      rcases Fd.makeRoom sys st f vnode _ with ⟨_ | err, st'⟩
      · intro room
        have through := room.trans (.writeThrough sys st' f vnode data)
        dsimp only
        split
        · revert through
          rcases Fd.writeThrough sys st' f vnode data with ⟨s, st''⟩
          intro through
          split
          · exact through.trans (ih st'' _ _)
          · exact through
        · exact (room.trans (.appendBuffer st' f _)).trans (ih _ _ _)
      · exact fun room => room

theorem SameBooks.plainPiece : SameBooks st (plainPiece sys st f vnode data).2.2 := by
  have through := SameBooks.writeThrough sys st f vnode data
  rw [Fd.plainPiece]
  revert through
  intro through
  dsimp only
  split
  · exact through
  · exact through

theorem SameBooks.writePieces {piece : Files σ → List UInt8 → Taken σ}
    (keeps : ∀ st data, SameBooks st (piece st data).2.2) (iov : List (List UInt8)) :
    ∀ (st : Files σ) (total : Nat), SameBooks st (writePieces piece st iov total).2 := by
  induction iov with
  | nil => exact fun st _ => .refl st
  | cons data rest ih =>
    intro st total
    have first := keeps st data
    rw [Fd.writePieces]
    split
    · exact ih st total
    · revert first
      rcases piece st data with ⟨taken, _ | err, st'⟩
      · exact fun first => first.trans (ih st' _)
      · exact fun first => first

theorem SameBooks.syscallWritev (p : Nat) (fd : Int) (iov : List (List UInt8)) :
    SameBooks st (syscallWritev sys st p fd iov).2 := by
  rw [Fd.syscallWritev, writevWith]
  split
  · exact .refl st
  · split
    · exact .refl st
    · exact .refl st
    · split
      · split
        · exact .refl st
        · split
          · exact .writePieces (fun st data => (SameBooks.ensureBuffer st _).trans (.fillBuffer sys _ _ _ _ _ _)) iov st 0
          · exact .writePieces (fun st data => .plainPiece sys st _ _ data) iov st 0
      · exact .refl st

theorem SameBooks.syscallRead (p : Nat) (fd : Int) (count : Nat) : SameBooks st (syscallRead sys st p fd count).2 := by
  rw [Fd.syscallRead]
  split
  · exact .refl st
  · split
    · split
      · exact .setFs st _
      · exact .refl st
    · exact .refl st
    · split
      · exact .refl st
      · split
        · split
          · exact .refl st
          · split
            · exact (SameBooks.setFs st _).trans (.advance _ _ _)
            · exact .setFs st _
        · exact .refl st

theorem SameBooks.flushOnSeek : SameBooks st (flushOnSeek sys st f vnode).2 := by
  have back := SameBooks.writeBack sys st f vnode
  rw [Fd.flushOnSeek]
  split
  · split
    · revert back
      rcases Fd.writeBack sys st f vnode with ⟨s, st'⟩
      intro back
      dsimp only
      split
      · exact back
      · exact back.trans (.clearBuffer st' f)
    · exact .clearBuffer st f
  · exact .refl st

theorem SameBooks.syscallLseek (p : Nat) (fd offset : Int) (whence : Nat) :
    SameBooks st (syscallLseek sys st p fd offset whence).2 := by
  rw [Fd.syscallLseek]
  split
  · exact .refl st
  · split
    · exact .refl st
    · split
      · exact .refl st
      · rename_i f _ _ vnode _ _
        have flushed := SameBooks.flushOnSeek sys st f vnode
        revert flushed
        rcases Fd.flushOnSeek sys st f vnode with ⟨_ | err, st'⟩
        · intro flushed
          dsimp only
          split
          · exact flushed
          · exact flushed.trans (.setFile st' _ _ rfl)
        · exact fun flushed => flushed

end Writing

/-! ### Slots -/

theorem held_setSlot_self (process : st.procs p ≠ none) (i : Fin maxFds)
    (file : Option Nat) : held (setSlot st p i file) (p, i) = file := by
  obtain ⟨table, exists'⟩ := ne_none_iff_exists'.mp process
  simp [held, setSlot, exists']

theorem held_setSlot_of_ne (st : Files σ) (file : Option Nat)
    (other : k ≠ (p, i)) : held (setSlot st p i file) k = held st k := by
  simp only [held, setSlot, update_apply]
  by_cases sameProcess : k.1 = p
  · have otherSlot : k.2 ≠ i := fun same => other (Prod.ext sameProcess same)
    rw [if_pos sameProcess, sameProcess]
    cases st.procs p with
    | none => rfl
    | some table => exact update_of_ne otherSlot _ _
  · rw [if_neg sameProcess]

theorem held_setSlot_none (nothing : held st k = none) : held (setSlot st p i none) k = none := by
  by_cases same : k = (p, i)
  · subst same
    by_cases process : st.procs p = none
    · simp [held, setSlot, process]
    · exact held_setSlot_self process i none
  · rw [held_setSlot_of_ne st none same, nothing]

section

variable (st : Files σ) (p : Nat) (i : Fin maxFds)

@[simp] theorem held_setFdFlag (flag : Nat) : held (setFdFlag st p i flag) = held st := by
  funext k
  simp only [held, setFdFlag, update_apply]
  by_cases same : k.1 = p
  · rw [if_pos same, same]
    cases st.procs p with
    | none => rfl
    | some table => rfl
  · rw [if_neg same]

theorem procs_setSlot (file : Option Nat) (q : Nat) : (setSlot st p i file).procs q = none ↔ st.procs q = none := by
  simp only [setSlot, update_apply]
  by_cases same : q = p
  · rw [if_pos same, same, map_eq_none_iff]
  · rw [if_neg same]

theorem procs_setFdFlag (flag q : Nat) : (setFdFlag st p i flag).procs q = none ↔ st.procs q = none := by
  simp only [setFdFlag, update_apply]
  by_cases same : q = p
  · rw [if_pos same, same, map_eq_none_iff]
  · rw [if_neg same]

end

theorem lookup_eq_some {fd : Int}
    (found : lookup st p fd = some (i, f)) : slotOf fd = some i ∧ held st (p, i) = some f := by
  simp only [lookup, bind_eq_some, some.injEq, Prod.mk.injEq] at found
  obtain ⟨j, index, g, points, rfl, rfl⟩ := found
  exact ⟨index, points⟩

theorem held_lowestFree {start : Nat} (found : lowestFree st p start = some i) : held st (p, i) = none := by
  have free := List.find?_some found
  exact (decide_eq_true_eq.mp free).2

theorem start_le_lowestFree {start : Nat} (found : lowestFree st p start = some i) : start ≤ i.val := by
  have free := List.find?_some found
  exact (decide_eq_true_eq.mp free).1

/-! ### The three moves -/

section Moves

variable {keys : Finset (Nat × Fin maxFds)} {st : Files σ}

theorem releases_append (st : Files σ) (r : Release) (f : Nat) :
    releases { st with released := st.released ++ [r] } f = releases st f + if r.file = f then 1 else 0 := by
  rw [releases, countP_append, releases]
  by_cases same : r.file = f
  · simp [same]
  · simp [same]

theorem released_release (sys : FileSystem σ) (st : Files σ) (f : Nat) :
    ∃ r : Release, r.file = f ∧ (release sys st f).released = st.released ++ [r] := ⟨_, rfl, rfl⟩

theorem count_release (sys : FileSystem σ) (st : Files σ) (f u : Nat) :
    ((release sys st f).files u).count = (st.files u).count := by
  show ((setFile st f _).files u).count = _
  rw [files_setFile]
  by_cases same : u = f
  · rw [if_pos same, same]
  · rw [if_neg same]

variable {k : Nat × Fin maxFds} {f p : Nat} {st' : Files σ} {i : Fin maxFds}

/-- A slot is given up, and with the last one the file is released. -/
theorem SoundOn.dropReference (sound : SoundOn keys st) (sys : FileSystem σ) (inside : k ∈ keys)
    (points : held st k = some f) : SoundOn (keys.erase k) (dropReference sys st f) := by
  have exists' : f < st.next := sound.counted.known k inside f points
  let less := setFile st f { st.files f with count := (st.files f).count - 1 }
  have countEq : ∀ u, (less.files u).count = (st.files u).count - if u = f then 1 else 0 := by
    intro u
    rw [files_setFile]
    by_cases same : u = f
    · rw [if_pos same, if_pos same, same]
    · rw [if_neg same, if_neg same, Int.sub_zero]
  have self : (less.files f).count = (st.files f).count - 1 := by rw [countEq, if_pos rfl]
  show SoundOn _ (if (less.files f).count = 0 then release sys less f else less)
  rw [self]
  by_cases last : (st.files f).count - 1 = 0
  · rw [if_pos last]
    refine ⟨sound.counted.drop inside points (fun u => ?_) fun u => ?_, sound.processes, ?_⟩
    · rw [count_release, countEq]
    · obtain ⟨r, file, log⟩ := released_release sys less f
      have old : less.released = st.released := rfl
      rw [releases, log, countP_append, old, releases]
      by_cases same : u = f
      · simp [same, last, file]
      · simp [same, Ne.symm same, file]
    · intro r logged
      rcases mem_append.mp logged with old | new
      · exact sound.logged r old
      · rw [mem_singleton] at new
        rw [new]
        exact exists'
  · rw [if_neg last]
    refine ⟨sound.counted.drop inside points countEq fun u => ?_, sound.processes, sound.logged⟩
    rw [if_neg fun both => last both.2, add_zero]
    rfl

theorem SoundOn.fill (inside : k ∈ keys) (sound : SoundOn (insert k (keys.erase k)) st') : SoundOn keys st' := by
  rwa [Finset.insert_erase inside] at sound

/-- A new file is put in an empty slot. -/
theorem SoundOn.newFile (sound : SoundOn keys st) (inside : k ∈ keys) (free : held st k = none)
    (points : held st' k = some st.next) (same : ∀ j, j ≠ k → held st' j = held st j)
    (one : (st'.files st.next).count = 1) (countEq : ∀ u, u ≠ st.next → (st'.files u).count = (st.files u).count)
    (next : st'.next = st.next + 1) (log : st'.released = st.released)
    (processes : ∀ q, st.nextProc ≤ q → st'.procs q = none) (nextProc : st'.nextProc = st.nextProc) :
    SoundOn keys st' := by
  have released : releases st' = releases st := by
    funext f
    rw [releases, log, releases]
  refine SoundOn.fill inside ⟨?_, ?_, ?_⟩
  · rw [released, next]
    refine (sound.counted.omit_none free).fresh (Finset.notMem_erase k keys) points
      (fun j within => same j (Finset.ne_of_mem_erase within)) (lt_irrefl _) (fun u => ?_) countEq one
      (releases_next sound)
    exact Nat.lt_succ_iff_lt_or_eq
  · rw [nextProc]
    exact processes
  · intro r logged
    rw [log] at logged
    rw [next]
    exact lt_succ_of_lt (sound.logged r logged)

/-- **A slot shares a file** that another slot points to. -/
theorem SoundOn.share (sound : SoundOn keys st) (process : st.procs p ≠ none) (inside : (p, i) ∈ keys)
    (free : held st (p, i) = none) (other : k ∈ keys)
    (points : held st k = some f) (flag : Nat) : SoundOn keys (share st p i f flag) := by
  have there : (setFdFlag (addReference st f) p i flag).procs p ≠ none := fun nothing =>
    process ((procs_setFdFlag (addReference st f) p i flag p).mp nothing)
  have notFree : k ≠ (p, i) := by
    rintro rfl
    rw [points] at free
    cases free
  refine SoundOn.fill inside ⟨?_, ?_, sound.logged⟩
  · refine (sound.counted.omit_none free).acquire (Finset.notMem_erase _ keys) (held_setSlot_self there i (some f))
      (fun j within => ?_) (sound.counted.known k other f points)
      (refs_pos (Finset.mem_erase.mpr ⟨notFree, other⟩) points) (fun u => ?_)
    · rw [Fd.share, held_setSlot_of_ne _ _ (Finset.ne_of_mem_erase within), held_setFdFlag]
      rfl
    · show ((addReference st f).files u).count = _
      rw [addReference, files_setFile]
      by_cases same : u = f
      · rw [if_pos same, if_pos same, same]
      · rw [if_neg same, if_neg same, Int.add_zero]
  · intro q unborn
    rw [Fd.share, procs_setSlot, procs_setFdFlag]
    exact sound.processes q unborn

theorem SoundOn.clearFree (sound : SoundOn keys st)
    (free : ∀ k ∈ keys, k = (p, i) → held st k = none) : SoundOn keys (setSlot st p i none) := by
  refine ⟨sound.counted.congr fun k inside => ?_, fun q unborn => ?_, sound.logged⟩
  · by_cases same : k = (p, i)
    · rw [held_setSlot_none (free k inside same), free k inside same]
    · exact held_setSlot_of_ne st none same
  · rw [procs_setSlot]
    exact sound.processes q unborn

theorem SoundOn.clear (sound : SoundOn (keys.erase (p, i)) st)
    (process : st.procs p ≠ none) : SoundOn keys (setSlot st p i none) := by
  refine ⟨?_, fun q unborn => ?_, sound.logged⟩
  · have rest : Counted (held (setSlot st p i none)) (keys.erase (p, i)) (fun f => (st.files f).count) (releases st)
        (· < st.next) := sound.counted.congr fun k within => held_setSlot_of_ne st none (Finset.ne_of_mem_erase within)
    refine rest.extend (Finset.erase_subset _ keys) fun k inside outside => ?_
    have same : k = (p, i) := by
      by_contra other
      exact outside (Finset.mem_erase.mpr ⟨other, inside⟩)
    rw [same]
    exact held_setSlot_self process i none
  · rw [procs_setSlot]
    exact sound.processes q unborn

theorem SoundOn.setFdFlag (sound : SoundOn keys st) (p : Nat) (i : Fin maxFds) (flag : Nat) :
    SoundOn keys (setFdFlag st p i flag) := by
  refine ⟨?_, fun q unborn => ?_, sound.logged⟩
  · rw [held_setFdFlag]
    exact sound.counted
  · rw [procs_setFdFlag]
    exact sound.processes q unborn

theorem setSlot_setFdFlag (st : Files σ) (p : Nat) (i j : Fin maxFds) (flag : Nat) (file : Option Nat) :
    setSlot (setFdFlag st p i flag) p j file = setFdFlag (setSlot st p j file) p i flag := by
  rw [setSlot, setFdFlag, setFdFlag, setSlot]
  simp only [update_self, update_idem, Option.map_map]
  rfl

end Moves

/-! ### The calls -/

section Calls

variable {st : Files σ} {p : Nat} {i : Fin maxFds}

section

variable (sound : Sound st)

include sound

section

variable (process : st.procs p ≠ none)

include process

theorem Sound.allocFd (free : held st (p, i) = none)
    (vnode : Option Vnode) (dentry : Option Nat) (ops : Option VopsFile) (privateData : Bool) :
    Sound (setSlot (Fd.allocFd st vnode dentry ops privateData) p i (some st.next)) := by
  refine SoundOn.newFile sound (sound.mem_places process i) free
    (held_setSlot_self (show (Fd.allocFd st vnode dentry ops privateData).procs p ≠ none from process) i _)
    (fun j other => held_setSlot_of_ne _ _ other) ?_ (fun u old => ?_) rfl rfl (fun q unborn => ?_) rfl
  · show ((setFile st st.next _).files st.next).count = 1
    rw [files_setFile, if_pos rfl]
  · show ((setFile st st.next _).files u).count = _
    rw [files_setFile, if_neg old]
  · rw [procs_setSlot]
    exact sound.processes q unborn

theorem Sound.syscallSocket (created cloexec : Bool) : Sound (syscallSocket st p created cloexec).2 := by
  rw [Fd.syscallSocket]
  split
  · split
    · exact sound
    · rename_i i found
      dsimp only
      rw [setSlot_setFdFlag]
      exact (sound.allocFd process (held_lowestFree found) none none none true).setFdFlag p i _
  · exact sound

theorem Sound.syscallAccept (fd : Int) (refused : Option Int) : Sound (syscallAccept st p fd refused).2 := by
  unfold Fd.syscallAccept
  split
  · exact sound
  · split
    · exact sound
    · split
      · exact sound
      · rename_i i found
        exact sound.allocFd process (held_lowestFree found) none none none true

theorem Sound.pipeEnd (free : held st (p, i) = none)
    (vnode : Nat) (ops : VopsFile) (cloexec : Bool) : Sound (pipeEnd st p i vnode ops cloexec) :=
  (sound.allocFd process free _ _ _ _).setFdFlag p i _

theorem Sound.syscallPipe2 (cloexec : Bool) (rvnode wvnode : Nat) :
    Sound (syscallPipe2 st p cloexec rvnode wvnode).2 := by
  rw [Fd.syscallPipe2]
  split
  · exact sound
  · rename_i rfd first
    split
    · exact sound
    · rename_i wfd second
      have above := start_le_lowestFree second
      have apart : (p, wfd) ≠ (p, rfd) := fun same => by
        have := congrArg (fun slot => slot.2.val) same
        dsimp only at this
        omega
      have half := sound.pipeEnd process (held_lowestFree first) rvnode ⟨true, false⟩ cloexec
      refine half.pipeEnd ?_ ?_ wvnode ⟨false, true⟩ cloexec
      · intro nothing
        rw [Fd.pipeEnd, procs_setFdFlag, procs_setSlot] at nothing
        exact process nothing
      · rw [Fd.pipeEnd, held_setFdFlag, held_setSlot_of_ne _ _ apart]
        exact held_lowestFree second

theorem Sound.cancel {f : Nat} (points : held st (p, i) = some f)
    (one : (st.files f).count = 1) (r : Release) (file : r.file = f) :
    Sound { setSlot st p i none with released := st.released ++ [r] } := by
  have inside := sound.mem_places process i
  have exists' : f < st.next := sound.counted.known (p, i) inside f points
  have alive := sound.counted.released_eq_zero inside points
  have count := sound.counted.counts f exists' alive
  have cancelled : SoundOn ((places st).erase (p, i)) { st with released := st.released ++ [r] } := by
    refine ⟨sound.counted.cancel inside points ?_ fun u => ?_, sound.processes, fun r' logged => ?_⟩
    · omega
    · rw [releases_append, file]
      simp only [eq_comm]
    · rcases mem_append.mp logged with old | new
      · exact sound.logged r' old
      · rw [mem_singleton.mp new, file]
        exact exists'
  exact cancelled.clear process

/-- open keeps the counts sound. -/
theorem Sound.syscallOpen (sys : FileSystem σ) (target : Option OpenTarget) (trunc cloexec procEntry : Bool) :
    Sound (syscallOpen sys st p target trunc cloexec procEntry).2 := by
  cases target with
  | none => exact sound
  | some target =>
    rw [Fd.syscallOpen]
    dsimp only
    have same : SameBooks st (if trunc ∧ target.vnode.type = .file then
        { st with fs := sys.truncate st.fs target.vnode.id } else st) := by
      split
      · exact .setFs st _
      · exact .refl st
    revert same
    generalize (if trunc ∧ target.vnode.type = .file then
        { st with fs := sys.truncate st.fs target.vnode.id } else st) = st'
    intro same
    have sound' := same.sound sound
    have process' : st'.procs p ≠ none := same.procs ▸ process
    split
    · exact sound'
    · rename_i i found
      have opened := sound'.allocFd process' (held_lowestFree found) (some target.vnode) (some target.dentry)
        target.ops false
      rw [setSlot_setFdFlag]
      split
      · exact opened.setFdFlag p i _
      · have flagged : Sound (setFdFlag (setSlot (Fd.allocFd st' (some target.vnode) (some target.dentry)
            target.ops false) p i (some st'.next)) p i (if cloexec then 1 else 0)) := opened.setFdFlag p i _
        refine flagged.cancel ?_ ?_ ?_ _ rfl
        · rw [Ne, procs_setFdFlag, procs_setSlot]
          exact process'
        · rw [held_setFdFlag]
          exact held_setSlot_self
            (show (Fd.allocFd st' (some target.vnode) (some target.dentry) target.ops false).procs p ≠ none
              from process') i _
        · show ((setFile st' st'.next _).files st'.next).count = 1
          rw [files_setFile, if_pos rfl]

theorem Sound.dupFrom (oldfd : Int) (start flag : Nat) : Sound (dupFrom st p oldfd start flag).2 := by
  rw [Fd.dupFrom]
  split
  · exact sound
  · rename_i i f found
    split
    · exact sound
    · rename_i newfd free
      have points := (lookup_eq_some found).2
      exact SoundOn.share sound process (sound.mem_places process newfd) (held_lowestFree free)
        (sound.mem_places process i) points flag

end

end

/-! ### Closing -/

theorem procs_dropReference (sys : FileSystem σ) (st : Files σ) (f : Nat) :
    (dropReference sys st f).procs = st.procs := by
  rw [dropReference]
  split
  · rfl
  · rfl

theorem nextProc_dropReference (sys : FileSystem σ) (st : Files σ) (f : Nat) :
    (dropReference sys st f).nextProc = st.nextProc := by
  rw [dropReference]
  split
  · rfl
  · rfl

section

variable (sys : FileSystem σ)

theorem dropReference_setSlot (st : Files σ) (p : Nat) (i : Fin maxFds) (file : Option Nat)
    (f : Nat) : dropReference sys (setSlot st p i file) f = setSlot (dropReference sys st f) p i file := by
  let less := setFile st f { st.files f with count := (st.files f).count - 1 }
  show (if (less.files f).count = 0 then release sys (setSlot less p i file) f else setSlot less p i file) =
    setSlot (if (less.files f).count = 0 then release sys less f else less) p i file
  split
  · rfl
  · rfl

theorem Sound.syscallClose (sound : Sound st) (sys : FileSystem σ) (fd : Int) : Sound (syscallClose sys st p fd).2 := by
  rw [Fd.syscallClose]
  split
  · exact sound
  · rename_i i f found
    have points := (lookup_eq_some found).2
    have process := procs_of_held points
    have dropped := sound.dropReference sys (sound.mem_places process i) points
    rw [dropReference_setSlot]
    have cleared := dropped.clear (show (Fd.dropReference sys st f).procs p ≠ none by
      rw [procs_dropReference]
      exact process)
    show SoundOn (Finset.range (Fd.dropReference sys st f).nextProc ×ˢ Finset.univ) _
    rw [nextProc_dropReference]
    exact cleared

theorem procs_syscallClose (st : Files σ) (p : Nat) (fd : Int) (q : Nat) :
    (syscallClose sys st p fd).2.procs q = none ↔ st.procs q = none := by
  rw [syscallClose]
  split
  · exact Iff.rfl
  · rw [procs_dropReference, procs_setSlot]

theorem held_syscallClose (process : st.procs p ≠ none) {fd : Int} (index : slotOf fd = some i) :
    held (syscallClose sys st p fd).2 (p, i) = none := by
  rw [syscallClose]
  split
  · rename_i missing
    cases points : held st (p, i) with
    | none => rfl
    | some f => simp [lookup, index, points] at missing
  · rename_i j f found
    obtain ⟨same, -⟩ := lookup_eq_some found
    rw [index] at same
    cases same
    rw [held, procs_dropReference]
    exact held_setSlot_self process i none

theorem Sound.syscallDup2 (sound : Sound st) (process : st.procs p ≠ none) (sys : FileSystem σ) (oldfd newfd : Int) :
    Sound (syscallDup2 sys st p oldfd newfd).2 := by
  rw [Fd.syscallDup2]
  split
  · rename_i i _ index
    split
    · exact sound
    · dsimp only
      -- the target is empty now, whether it was closed or not
      have closed : ∃ st', (if held st (p, i) ≠ none then (Fd.syscallClose sys st p newfd).2 else st) = st' ∧
          Sound st' ∧ st'.procs p ≠ none ∧ held st' (p, i) = none := by
        split
        · refine ⟨_, rfl, sound.syscallClose sys newfd, ?_, held_syscallClose sys process index⟩
          rw [Ne, procs_syscallClose]
          exact process
        · rename_i empty
          exact ⟨st, rfl, sound, process, not_not.mp empty⟩
      obtain ⟨st', same, sound', process', free⟩ := closed
      rw [same]
      split
      · rename_i j f found
        exact SoundOn.share sound' process' (sound'.mem_places process' i) free (sound'.mem_places process' j)
          (lookup_eq_some found).2 0
      · exact sound'
  · exact sound

/-! ### Processes -/

theorem Sound.createProcess (sound : Sound st) : Sound (createProcess st) := by
  have new : ∀ i, held (Fd.createProcess st) (st.nextProc, i) = none := fun i => by
    simp [held, Fd.createProcess, emptyTable]
  refine ⟨?_, fun q unborn => ?_, sound.logged⟩
  · have old : Counted (held (Fd.createProcess st)) (places st) (fun f => (st.files f).count) (releases st)
        (· < st.next) := sound.counted.congr fun k inside => by
      have before : k.1 ≠ st.nextProc := Nat.ne_of_lt (Fd.mem_places.mp inside)
      simp only [held, Fd.createProcess, update_of_ne before]
    refine old.extend ?_ ?_
    · refine Finset.product_subset_product_left fun q below => ?_
      rw [Finset.mem_range] at below ⊢
      exact lt_succ_of_lt below
    · rintro ⟨q, i⟩ inside outside
      rw [Fd.mem_places] at inside outside
      have same : q = st.nextProc := by
        have below : q < st.nextProc + 1 := inside
        omega
      rw [same]
      exact new i
  · have above : st.nextProc + 1 ≤ q := unborn
    have old : q ≠ st.nextProc := by omega
    exact (update_of_ne old _ _).trans (sound.processes q (by omega))

/-- The loop of `fork_process`: the slots of the child that are still to come are empty. -/
theorem Sound.cloneSlots (parent child : Nat) (slots : List (Fin maxFds)) : ∀ st : Files σ, Sound st →
    st.procs child ≠ none → slots.Nodup → (∀ i ∈ slots, held st (child, i) = none) →
    Sound (slots.foldl (cloneSlot parent child) st) := by
  induction slots with
  | nil => exact fun st sound _ _ _ => sound
  | cons i rest ih =>
    intro st sound process distinct free
    obtain ⟨notLater, distinct'⟩ := nodup_cons.mp distinct
    have free' : ∀ st' : Files σ, (∀ k, k ≠ (child, i) → held st' k = held st k) → ∀ j ∈ rest, held st' (child, j) = none := by
      intro st' same j later
      rw [same (child, j) fun equal => notLater (by rw [← (Prod.mk.inj equal).2]; exact later)]
      exact free j (mem_cons_of_mem _ later)
    rw [foldl_cons]
    cases points : held st (parent, i) with
    | none =>
      have copied : cloneSlot parent child st i = setSlot st child i none := by rw [cloneSlot, points]
      rw [copied]
      refine ih _ ?_ ?_ distinct' (free' _ fun k other => held_setSlot_of_ne st none other)
      · exact SoundOn.clearFree sound fun k _ same => by rw [same, free i (mem_cons_self ..)]
      · rw [Ne, procs_setSlot]
        exact process
    | some f =>
      have copied : cloneSlot parent child st i = share st child i f (fdFlag st parent i) := by rw [cloneSlot, points]
      rw [copied]
      refine ih _ ?_ ?_ distinct' (free' _ fun k other => ?_)
      · exact SoundOn.share sound process (sound.mem_places process i) (free i (mem_cons_self ..))
          (sound.mem_places (procs_of_held points) i) points _
      · rw [Ne, share, procs_setSlot, procs_setFdFlag]
        exact process
      · rw [share, held_setSlot_of_ne _ _ other, held_setFdFlag]
        rfl

theorem Sound.forkProcess (sound : Sound st) (outcome : ForkOutcome) : Sound (forkProcess st p outcome) := by
  cases outcome with
  | noProcess => exact sound
  | beforeFds => exact sound.createProcess
  | cloned =>
    refine Sound.cloneSlots p st.nextProc _ _ sound.createProcess ?_ (nodup_finRange _) fun i _ => ?_
    · simp [Fd.createProcess]
    · simp [held, Fd.createProcess, emptyTable]

theorem Sound.execve (sound : Sound st) (sys : FileSystem σ) (success : Bool) : Sound (execve sys st p success) := by
  rw [Fd.execve]
  split
  · refine List.foldlRecOn _ _ sound fun st sound i _ => ?_
    rw [closeOnExec]
    split
    · exact sound.syscallClose sys _
    · exact sound
  · exact sound

/-- The loop of `free_fdtable`: the slots that were seen are out of the books. -/
theorem SoundOn.freeSlots (p : Nat) (table : FdTable) (slots : List (Fin maxFds)) :
    ∀ (keys : Finset (Nat × Fin maxFds)) (st : Files σ), SoundOn keys st → slots.Nodup →
      (∀ i ∈ slots, (p, i) ∈ keys) → st.procs p = some table →
      SoundOn (keys.filter fun k => ¬ (k.1 = p ∧ k.2 ∈ slots)) (slots.foldl (freeSlot sys table) st) ∧
        (slots.foldl (freeSlot sys table) st).procs = st.procs ∧
        (slots.foldl (freeSlot sys table) st).nextProc = st.nextProc := by
  induction slots with
  | nil =>
    intro keys st sound _ _ _
    refine ⟨?_, rfl, rfl⟩
    rw [Finset.filter_true_of_mem (by simp)]
    exact sound
  | cons i rest ih =>
    intro keys st sound distinct inside process
    obtain ⟨notLater, distinct'⟩ := nodup_cons.mp distinct
    have points : held st (p, i) = table.fds i := by rw [held, process]; rfl
    -- one slot
    have first : SoundOn (keys.erase (p, i)) (freeSlot sys table st i) ∧ (freeSlot sys table st i).procs = st.procs ∧
        (freeSlot sys table st i).nextProc = st.nextProc := by
      rw [freeSlot]
      cases file : table.fds i with
      | none =>
        refine ⟨⟨sound.counted.omit_none (points.trans file), sound.processes, sound.logged⟩, rfl, rfl⟩
      | some f =>
        exact ⟨sound.dropReference sys (inside i (mem_cons_self ..)) (points.trans file),
          procs_dropReference sys st f, nextProc_dropReference sys st f⟩
    obtain ⟨sound', procs, nextProc⟩ := first
    have inside' : ∀ j ∈ rest, (p, j) ∈ keys.erase (p, i) := fun j later =>
      Finset.mem_erase.mpr ⟨fun same => notLater (by rw [← (Prod.mk.inj same).2]; exact later),
        inside j (mem_cons_of_mem _ later)⟩
    obtain ⟨last, procs', nextProc'⟩ := ih _ _ sound' distinct' inside' (by rw [procs, process])
    refine ⟨?_, procs'.trans procs, nextProc'.trans nextProc⟩
    have same : (keys.erase (p, i)).filter (fun k => ¬ (k.1 = p ∧ k.2 ∈ rest)) =
        keys.filter fun k => ¬ (k.1 = p ∧ k.2 ∈ i :: rest) := by
      ext ⟨q, j⟩
      simp only [Finset.mem_filter, Finset.mem_erase, ne_eq, Prod.mk.injEq, mem_cons]
      tauto
    rwa [same] at last

theorem SoundOn.removeTable {st' : Files σ} (sound : SoundOn ((places st).filter fun k => k.1 ≠ p) st')
    (nextProc : st'.nextProc = st.nextProc) : Sound { st' with procs := update st'.procs p none } := by
  refine ⟨?_, fun q unborn => ?_, sound.logged⟩
  · have rest : Counted (held { st' with procs := update st'.procs p none })
        ((places st).filter fun k => k.1 ≠ p) (fun f => (st'.files f).count) (releases st') (· < st'.next) := by
      refine sound.counted.congr fun k inside => ?_
      simp only [held, update_of_ne (Finset.mem_filter.mp inside).2]
    have range : places { st' with procs := update st'.procs p none } = places st := by
      rw [places, places, nextProc]
    rw [range]
    refine rest.extend (Finset.filter_subset _ _) ?_
    rintro ⟨q, i⟩ inside outside
    have same : q = p := by
      by_contra other
      exact outside (Finset.mem_filter.mpr ⟨inside, other⟩)
    simp only [held, same, update_self, bind_none]
  · by_cases same : q = p
    · simp only [same, update_self]
    · simp only [update_of_ne same]
      exact sound.processes q unborn

theorem Sound.reap (sound : Sound st) (sys : FileSystem σ) (child : Nat) : Sound (reap sys st child) := by
  rw [Fd.reap]
  split
  · rename_i table process
    split
    · obtain ⟨freed, procs, nextProc⟩ := SoundOn.freeSlots sys child table (List.finRange maxFds) (places st) st sound
        (nodup_finRange _) (fun i _ => sound.mem_places (by rw [process]; exact some_ne_none _) i) process
      have all : ((places st).filter fun k => ¬ (k.1 = child ∧ k.2 ∈ List.finRange maxFds)) =
          (places st).filter fun k => k.1 ≠ child :=
        Finset.filter_congr fun k _ => by simp [mem_finRange]
      rw [all] at freed
      exact freed.removeTable nextProc
    · exact sound
  · exact sound

/-! ### What a release does -/

section Releases

variable {sys : FileSystem σ} {st st' : Files σ} {gone : List Nat}

/-- What lies below after the buffer of a file was flushed. -/
def flushed (sys : FileSystem σ) (file : FileDescriptor) (fs : σ) : σ :=
  match flushOnRelease file with
  | some (vnode, data, offset) => (sys.write fs vnode data offset).2
  | none => fs

/-- **The files are released one after the other**, as they were before the call: each is logged with its flush, its pipe
end and its dentry, and its buffer is written back. -/
structure Released (sys : FileSystem σ) (st st' : Files σ) (gone : List Nat) : Prop where
  log : st'.released = st.released ++ gone.map fun f =>
    ⟨f, (flushOnRelease (st.files f)).map (·.2), isFifo (st.files f), (st.files f).dentry⟩
  flush : st'.fs = gone.foldl (fun fs f => flushed sys (st.files f) fs) st.fs

/-- In the middle of a call that drops references. A file that was released is not released again, as its count is zero
or less, and of the others only the counts have changed. -/
structure Dropping (sys : FileSystem σ) (st st' : Files σ) (gone : List Nat) : Prop extends
    Released sys st st' gone where
  zero : ∀ g ∈ gone, (st'.files g).count ≤ 0
  kept : ∀ g, g ∉ gone → st'.files g = { st.files g with count := (st'.files g).count }

theorem Dropping.refl (sys : FileSystem σ) (st : Files σ) : Dropping sys st st [] :=
  ⟨⟨(append_nil _).symm, rfl⟩, nofun, fun _ _ => rfl⟩

theorem Dropping.setCount (dropping : Dropping sys st st' gone) (f : Nat) {n : Int} (less : n ≤ (st'.files f).count) :
    Dropping sys st (setFile st' f { st'.files f with count := n }) gone := by
  refine ⟨⟨dropping.log, dropping.flush⟩, fun g inside => ?_, fun g outside => ?_⟩
  · have zero := dropping.zero g inside
    rw [files_setFile]
    split
    · next same =>
      rw [same] at zero
      exact less.trans zero
    · exact zero
  · have kept := dropping.kept g outside
    rw [files_setFile]
    split
    · next same =>
      rw [← same, kept]
    · exact kept

theorem Dropping.release (dropping : Dropping sys st st' gone) {f : Nat} (new : f ∉ gone)
    (zero : (st'.files f).count = 0) : Dropping sys st (release sys st' f) (gone ++ [f]) := by
  have same := dropping.kept f new
  have flush : flushOnRelease (st'.files f) = flushOnRelease (st.files f) := by
    rw [same]
    rfl
  refine ⟨⟨?_, ?_⟩, fun g inside => ?_, fun g outside => ?_⟩
  · rw [map_append, ← append_assoc, ← dropping.log, Fd.release, releaseRecord, flush, same]
    rfl
  · rw [foldl_append, ← dropping.flush, foldl_cons, foldl_nil, flushed, ← flush]
    rfl
  · rw [count_release]
    rcases mem_append.mp inside with old | last
    · exact dropping.zero g old
    · rw [mem_singleton.mp last, zero]
  · rw [mem_append, mem_singleton, not_or] at outside
    show (setFile st' f _).files g = _
    rw [files_setFile, if_neg outside.2, count_release]
    exact dropping.kept g outside.1

theorem Dropping.dropReference (dropping : Dropping sys st st' gone) (f : Nat) :
    ∃ gone', Dropping sys st (dropReference sys st' f) gone' := by
  have lower := dropping.setCount f (n := (st'.files f).count - 1) (by omega)
  rw [Fd.dropReference]
  split
  · next zero =>
    refine ⟨_, lower.release (fun inside => ?_) zero⟩
    have below := dropping.zero f inside
    rw [files_setFile, if_pos rfl] at zero
    simp only at zero
    omega
  · exact ⟨gone, lower⟩

theorem Dropping.setSlot (dropping : Dropping sys st st' gone) (p : Nat) (i : Fin maxFds) (file : Option Nat) :
    Dropping sys st (setSlot st' p i file) gone :=
  ⟨⟨dropping.log, dropping.flush⟩, dropping.zero, dropping.kept⟩

theorem Dropping.syscallClose (dropping : Dropping sys st st' gone) (p : Nat) (fd : Int) :
    ∃ gone', Dropping sys st (syscallClose sys st' p fd).2 gone' := by
  rw [Fd.syscallClose]
  split
  · exact ⟨gone, dropping⟩
  · exact (dropping.setSlot p _ none).dropReference _

/-- A loop of which each round drops a reference or does nothing. -/
theorem Dropping.foldl (round : Files σ → Fin maxFds → Files σ)
    (one : ∀ st' gone i, Dropping sys st st' gone → ∃ gone', Dropping sys st (round st' i) gone')
    (slots : List (Fin maxFds)) : ∀ st' gone, Dropping sys st st' gone →
      ∃ gone', Dropping sys st (slots.foldl round st') gone' := by
  induction slots with
  | nil => exact fun st' gone dropping => ⟨gone, dropping⟩
  | cons i rest ih =>
    intro st' gone dropping
    obtain ⟨gone', next⟩ := one st' gone i dropping
    exact ih _ _ next

/-- The calls that drop references. -/
def Call.Drops : Call → Prop
  | .close _ | .dup2 _ _ | .execve _ | .reap _ => True
  | _ => False

/-- **What a call that drops references releases.** -/
theorem perform_released (sys : FileSystem σ) (st : Files σ) (p : Nat) {call : Call} (drops : call.Drops) :
    ∃ gone, Released sys st (perform sys st p call).2 gone := by
  have start := Dropping.refl sys st
  cases call with
  | close fd =>
    obtain ⟨gone, closed⟩ := start.syscallClose p fd
    exact ⟨gone, closed.toReleased⟩
  | dup2 oldfd newfd =>
    show ∃ gone, Released sys st (syscallDup2 sys st p oldfd newfd).2 gone
    rw [syscallDup2]
    split
    · split_ifs with same used
      · exact ⟨[], start.toReleased⟩
      · obtain ⟨gone, closed⟩ := start.syscallClose p newfd
        dsimp only
        split <;> exact ⟨gone, closed.log, closed.flush⟩
      · dsimp only
        split <;> exact ⟨[], start.log, start.flush⟩
    · exact ⟨[], start.toReleased⟩
  | execve success =>
    show ∃ gone, Released sys st (execve sys st p success) gone
    rw [execve]
    split_ifs
    · obtain ⟨gone, closed⟩ := Dropping.foldl (closeOnExec sys p) (fun st' gone i dropping => by
        rw [closeOnExec]
        split_ifs
        · exact dropping.syscallClose p i.val
        · exact ⟨gone, dropping⟩) (List.finRange maxFds) st [] start
      exact ⟨gone, closed.toReleased⟩
    · exact ⟨[], start.toReleased⟩
  | reap child =>
    show ∃ gone, Released sys st (reap sys st child) gone
    rw [reap]
    split
    · next table _ =>
      split_ifs
      · obtain ⟨gone, freed⟩ := Dropping.foldl (freeSlot sys table) (fun st' gone i dropping => by
          rw [freeSlot]
          split
          · exact dropping.dropReference _
          · exact ⟨gone, dropping⟩) (List.finRange maxFds) st [] start
        exact ⟨gone, freed.log, freed.flush⟩
      · exact ⟨[], start.toReleased⟩
    · exact ⟨[], start.toReleased⟩
  | _ => exact drops.elim

/-- **The other calls release nothing**, but for an `open` that fails at its end: it frees the file it has made and gives
back the reference on its dentry. -/
theorem perform_released_same (sys : FileSystem σ) (st : Files σ) (p : Nat) {call : Call} (keeps : ¬ call.Drops) :
    (perform sys st p call).2.released = st.released ∨ ∃ target trunc cloexec,
      call = .openFile (some target) trunc cloexec false ∧
        (perform sys st p call).2.released = st.released ++ [⟨st.next, none, false, some target.dentry⟩] := by
  have dup : ∀ oldfd start flag, (dupFrom st p oldfd start flag).2.released = st.released := by
    intro oldfd start flag
    unfold dupFrom
    repeat' split
    all_goals rfl
  cases call with
  | openFile target trunc cloexec procEntry =>
    simp only [perform, answerValue, syscallOpen]
    cases target with
    | none => exact .inl rfl
    | some target =>
      have cut : ∃ st₀ : Files σ, (if trunc ∧ target.vnode.type = .file then
          { st with fs := sys.truncate st.fs target.vnode.id } else st) = st₀ ∧ st₀.released = st.released ∧
          st₀.next = st.next := ⟨_, rfl, by split <;> rfl, by split <;> rfl⟩
      obtain ⟨st₀, cut, log, next⟩ := cut
      dsimp only
      rw [cut, ← log, ← next]
      split
      · exact .inl rfl
      · cases procEntry with
        | true => exact .inl rfl
        | false => exact .inr ⟨target, trunc, cloexec, rfl, rfl⟩
  | dup fd => exact .inl (dup fd 0 0)
  | dupfd fd arg => exact .inl (dup fd arg.toNat 0)
  | dupfdCloexec fd arg => exact .inl (dup fd arg.toNat 1)
  | write fd data => exact .inl (SameBooks.syscallWrite sys st data p fd).released
  | writev fd iov => exact .inl (SameBooks.syscallWritev sys st p fd iov).released
  | lseek fd offset whence => exact .inl (SameBooks.syscallLseek sys st p fd offset whence).released
  | read fd count =>
    have same := (SameBooks.syscallRead sys st p fd count).released
    simp only [perform, answerRead]
    split
    all_goals
      next result => rw [result] at same; exact .inl same
  | fork outcome =>
    have cloned : ∀ (slots : List (Fin maxFds)) (st' : Files σ),
        (slots.foldl (cloneSlot p st.nextProc) st').released = st'.released := by
      intro slots
      induction slots with
      | nil => exact fun st' => rfl
      | cons i rest ih =>
        intro st'
        rw [foldl_cons, ih, cloneSlot]
        split <;> rfl
    cases outcome with
    | cloned => exact .inl (cloned _ _)
    | _ => exact .inl rfl
  | create | exit => exact .inl rfl
  | close | dup2 | execve | reap => exact absurd trivial keeps
  | _ =>
    left
    simp only [perform, answerValue, syscallPipe2, syscallSocket, syscallAccept]
    repeat' split
    all_goals rfl

end Releases

/-! ### Runs -/

/-- **Step**: every call keeps the counts sound. -/
theorem Sound.perform (sound : Sound st) (process : st.procs p ≠ none) (sys : FileSystem σ) (call : Call) :
    Sound (perform sys st p call).2 := by
  cases call with
  | create => exact sound.createProcess
  | openFile target trunc cloexec procEntry => exact sound.syscallOpen process sys target trunc cloexec procEntry
  | pipe2 cloexec rvnode wvnode => exact sound.syscallPipe2 process cloexec rvnode wvnode
  | socket created cloexec => exact sound.syscallSocket process created cloexec
  | accept fd refused => exact sound.syscallAccept process fd refused
  | dup fd => exact sound.dupFrom process fd 0 0
  | dup2 oldfd newfd => exact sound.syscallDup2 process sys oldfd newfd
  | dupfd fd arg => exact sound.dupFrom process fd arg.toNat 0
  | dupfdCloexec fd arg => exact sound.dupFrom process fd arg.toNat 1
  | fork outcome => exact sound.forkProcess outcome
  | close fd => exact sound.syscallClose sys fd
  | execve success => exact sound.execve sys success
  | exit =>
    have same : SameBooks st { st with exited := update st.exited p true } :=
      ⟨rfl, rfl, fun _ => rfl, rfl, rfl⟩
    exact same.sound sound
  | reap child => exact sound.reap sys child
  | write fd data => exact (SameBooks.syscallWrite sys st data p fd).sound sound
  | writev fd iov => exact (SameBooks.syscallWritev sys st p fd iov).sound sound
  | read fd count =>
    have same := SameBooks.syscallRead sys st p fd count
    rw [Fd.perform]
    revert same
    rcases Fd.syscallRead sys st p fd count with ⟨_ | _, st'⟩
    · exact fun same => same.sound sound
    · exact fun same => same.sound sound
  | lseek fd offset whence => exact (SameBooks.syscallLseek sys st p fd offset whence).sound sound

theorem Sound.step (sound : Sound st) (sys : FileSystem σ) (call : Call) :
    Sound (step (Fd.perform sys) st p call).2 := by
  rw [Fd.step]
  split
  · rename_i active
    exact sound.perform (isSome_iff_ne_none.mp active.1) sys call
  · exact sound

theorem Sound.run (sys : FileSystem σ) (calls : List (Nat × Call)) : ∀ st : Files σ, Sound st →
    Sound (run (Fd.perform sys) st calls).2 := by
  induction calls with
  | nil => exact fun st sound => sound
  | cons call rest ih => exact fun st sound => ih _ (sound.step sys call.2)

theorem Sound.start (fs : σ) : Sound (start fs) := by
  have empty : ∀ k, held (Fd.start fs) k = none := fun k => by
    rw [held, Fd.start]
    by_cases first : k.1 = 0
    · simp [first, emptyTable]
    · simp [first]
  refine ⟨⟨fun f exists' => absurd exists' (not_lt_zero f), fun f exists' => absurd exists' (not_lt_zero f),
    fun k _ f points => ?_⟩, fun q unborn => ?_, fun r logged => ?_⟩
  · rw [empty k] at points
    cases points
  · have above : 1 ≤ q := unborn
    exact if_neg (by omega)
  · cases logged

def reached (fs : σ) (calls : List (Nat × Call)) : Files σ :=
  (Fd.run (Fd.perform sys) (Fd.start fs) calls).2

end

/-- **The counts of the open files.** After any sequence of calls by any processes, every slot points to
an open file that was not released; for every open file there are finitely many slots that point to it,
it was released once if there are none and never otherwise, and its count is their number until then. The
next call releases files by writing back their buffers, closing their pipe ends and dropping their dentries
(`Released`); only calls that drop references do, and an `open` that fails at its end. -/
theorem run_counts (sys : FileSystem σ) (fs : σ) (calls : List (Nat × Call)) :
    (∀ slot f, held (reached sys fs calls) slot = some f →
      f < (reached sys fs calls).next ∧ releases (reached sys fs calls) f = 0) ∧
    (∀ f < (reached sys fs calls).next, ∃ slots : Finset (Nat × Fin maxFds),
      (∀ slot, slot ∈ slots ↔ held (reached sys fs calls) slot = some f) ∧
      releases (reached sys fs calls) f = (if slots = ∅ then 1 else 0) ∧
      (slots ≠ ∅ → ((reached sys fs calls).files f).count = slots.card)) ∧
    ∀ p call, (call.Drops → ∃ gone, Released sys (reached sys fs calls)
        (step (Fd.perform sys) (reached sys fs calls) p call).2 gone) ∧
      (¬ call.Drops → (step (Fd.perform sys) (reached sys fs calls) p call).2.released = (reached sys fs calls).released ∨
        ∃ target trunc cloexec, call = .openFile (some target) trunc cloexec false ∧
          (step (Fd.perform sys) (reached sys fs calls) p call).2.released =
            (reached sys fs calls).released ++ [⟨(reached sys fs calls).next, none, false, some target.dentry⟩]) := by
  have sound : Sound (reached sys fs calls) := Sound.run sys calls _ (Sound.start fs)
  generalize reached sys fs calls = st at sound
  have inside : ∀ slot f, held st slot = some f → slot ∈ places st := fun slot f points =>
    sound.mem_places (procs_of_held points) slot.2
  refine ⟨fun slot f points => ?_, fun f exists' => ?_, fun p call => ?_⟩
  · exact ⟨sound.counted.known _ (inside _ f points) f points,
      sound.counted.released_eq_zero (inside _ f points) points⟩
  · have released := sound.counted.released f exists'
    refine ⟨(places st).filter fun slot => held st slot = some f, fun slot => ?_, ?_, fun used => ?_⟩
    · rw [Finset.mem_filter]
      exact ⟨And.right, fun points => ⟨inside slot f points, points⟩⟩
    · rw [released, refs]
      simp only [Finset.card_eq_zero]
    · have alive : releases st f = 0 := by
        rw [released, if_neg]
        exact fun none => used (Finset.card_eq_zero.mp none)
      exact sound.counted.counts f exists' alive
  · rw [Fd.step]
    split
    · exact ⟨perform_released sys st p, perform_released_same sys st p⟩
    · exact ⟨fun _ => ⟨[], (Dropping.refl sys st).toReleased⟩, fun _ => .inl rfl⟩

end Calls

end Voxia.Fd
