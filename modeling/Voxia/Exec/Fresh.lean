/-
**What new user memory shows of the old contents of its frames.**

`Independent run frames new` compares two runs that differ only in what some frames held before: every new address a
user program can read must hold the same byte after both. No exec has this property, as only the top of the 256 pages
of the stack is written.
-/

import Voxia.Exec.Failure
import Voxia.Sys.MemoryCallsRun

namespace Voxia.Exec

open Function Lib Cpu Memory List Option Nat
open Vfs (CStr)

def Readable (st : LoadState) (w : Nat) : Prop := present (pte 3 st.page w) ∧ user (pte 3 st.page w)

def readByte (st : LoadState) (w : Nat) : UInt8 := st.phys (physOf (pte 3 st.page w) + w % 4096)

/-- Two runs that differ in the old contents of the frames only leave the same readable memory. -/
def Independent (run : Bytes → Option LoadState) (frames new : Nat → Prop) : Prop :=
  ∀ phys phys' st, (∀ x, ¬ frames x → phys' x = phys x) → run phys = some st →
    ∃ st', run phys' = some st' ∧ ∀ w, new w → Readable st w → Readable st' w ∧ readByte st' w = readByte st w

def flip (phys : Bytes) (x : Nat) : Bytes := update phys x (phys x + 1)

theorem flip_ne (phys : Bytes) (x : Nat) : flip phys x x ≠ phys x := by
  rw [flip, update_self]
  exact byte_succ_ne _

variable {x d nil fuel addr flags len4kb mmapFlags frame node virt bytes : Nat} {run : Bytes → Option LoadState}
  {env : ExecEnv} {code : Int} {s s' : Sys.UserSpace} {page : PageDir}

theorem flip_other (phys : Bytes) {y : Nat} (other : y ≠ x) : flip phys x y = phys y := update_of_ne other _ _

/-- **How memory leaks**: an address that is readable after every run and holds what one of the frames
held before. -/
theorem not_independent {frames new : Nat → Prop} (phys : Bytes) {st : LoadState} {w : Nat}
    (built : run phys = some st) (isFrame : frames x) (isNew : new w)
    (shows : ∀ {phys st}, run phys = some st → Readable st w ∧ readByte st w = phys x) :
    ¬ Independent run frames new := by
  intro independent
  have only : ∀ y, ¬ frames y → flip phys x y = phys y := by
    intro y outside
    refine flip_other phys ?_
    rintro rfl
    exact outside isFrame
  obtain ⟨st', built', same⟩ := independent phys (flip phys x) st only built
  have bytes := (same w isNew (shows built).1).2
  rw [(shows built).2, (shows built').2] at bytes
  exact flip_ne phys x bytes

structure MappedRange (page : PageDir) (virt frame bytes flags : Nat) : Prop where
  entries : ∀ w, virt ≤ w → w < virt + bytes → pte 3 page w = rangeEntry virt frame flags w
  virtAligned : virt % 4096 = 0
  frameAligned : frame % 4096 = 0
  frameLow : frame + bytes ≤ 2 ^ 52

namespace MappedRange

variable {st : LoadState} {virt frame bytes flags w : Nat}

section

variable (mapped : MappedRange st.page virt frame bytes flags) (low : virt ≤ w) (high : w < virt + bytes)

include mapped low high

theorem readable_iff :
    Readable st w ↔ present flags ∧ user flags := by
  unfold Readable
  rw [mapped.entries w low high, rangeEntry]
  by_cases isPresent : present flags
  · rw [if_pos isPresent, present_leafEntry, user_leafEntry]
  · rw [if_neg isPresent]
    exact ⟨fun absent => absurd absent.1 (by decide), fun both => absurd both.1 isPresent⟩

theorem readByte_eq
    (isPresent : present flags) : readByte st w = st.phys (frame + (w - virt)) := by
  have virtAligned := mapped.virtAligned
  have frameAligned := mapped.frameAligned
  have frameLow := mapped.frameLow
  have page : PageAddress (frame + (w - virt) / 4096 * 4096) := ⟨by omega, by omega⟩
  rw [readByte, mapped.entries w low high, rangeEntry, if_pos isPresent, physOf_leafEntry, page.physOf_eq]
  congr 1
  omega

end

end MappedRange

section

variable (env : ExecEnv) (data : Bytes) (base : Nat)

theorem mappedRange (dir : PageDir) (virt frame pages flags : Nat) (clean : Clean flags) (virtAligned : virt % 4096 = 0)
    (virtLow : virt + pages * 4096 ≤ 2 ^ 47) (nonzero : frame ≠ 0) (frameAligned : frame % 4096 = 0)
    (frameLow : frame + pages * 4096 ≤ 2 ^ 52) :
    MappedRange (pagingMultipleMmap dir virt frame pages flags) virt frame (pages * 4096) flags := by
  obtain ⟨-, entries⟩ := pte_pagingMultipleMmap dir clean virtAligned virtLow (.inr ⟨nonzero, frameAligned, frameLow⟩)
  refine ⟨fun w low high => ?_, virtAligned, frameAligned, frameLow⟩
  rw [entries w (by omega), if_pos ⟨low, high⟩]

/-! ### The stack -/

def StackFrame (x : Nat) : Prop := env.stackPhys ≤ x ∧ x < env.stackPhys + userStackSize

theorem stackFrame_first : StackFrame env env.stackPhys :=
  ⟨Nat.le_refl _, Nat.lt_add_of_pos_right (by decide)⟩

end

/-- The frames of the stack are whole pages, and nothing else is written there. -/
structure StackApart (env : ExecEnv) (cwd : Option Nat) (path : CStr) : Prop where
  nonzero : env.stackPhys ≠ 0
  aligned : env.stackPhys % 4096 = 0
  low : env.stackPhys + userStackSize ≤ 2 ^ 52
  program : ∀ file, executable env cwd path = some file →
    ∀ s ∈ segs file.data env.frames env.nodes, ∀ x, StackFrame env x → ¬ s.Writes x
  interp : ∀ file interp, executable env cwd path = some file → interpreter env file = some interp →
    ∀ s ∈ segs interp.data env.interpFrames env.interpNodes, ∀ x, StackFrame env x → ¬ s.Writes x
  relocate : ∀ data st x, StackFrame env x → env.relocate data st x = st.phys x

section Stack

variable {nil fuel : Nat} {env : ExecEnv} {path : CStr} {argv envp : List CStr} {p : ExecProc}

def execMemory (nil fuel : Nat) (env : ExecEnv) (path : CStr) (argv envp : List CStr) (p : ExecProc) (phys : Bytes) :
    Option LoadState :=
  match runProcessAtProc nil fuel env path argv envp { p with phys := phys } with
  | some (.ret value p') => if 0 ≤ value then some ⟨p'.phys, p'.space.page⟩ else none
  | _ => none

variable {cwd : Option Nat} {l : LoadedProgram} {value : Int} {file : FileNode}

section

variable (apart : StackApart env cwd path)

include apart

theorem StackApart.unwritten : Unwritten env cwd path env.stackPhys :=
  ⟨fun file isFile s inside => apart.program file isFile s inside _ (stackFrame_first env),
    fun file interp isFile isInterp s inside => apart.interp file interp isFile isInterp s inside _ (stackFrame_first env),
    fun data st => apart.relocate data st _ (stackFrame_first env)⟩

section

variable (args : Copied argv) (environment : Copied envp) (short : path.length < 4096)

include args environment short

/-- **The lowest byte of the stack** is readable, and it is the byte its frame held before the stack was
set up. -/
theorem programStack_bottom (l : LoadedProgram) (st : LoadState) :
    Readable (programStack env path argv envp l st).2 userStackBottom ∧
      readByte (programStack env path argv envp l st).2 userStackBottom = st.phys env.stackPhys := by
  have bound : env.stackPhys + userStackPages * 4096 ≤ 2 ^ 52 := apart.low
  have mapped := mappedRange st.page userStackBottom env.stackPhys userStackPages 7 ⟨by decide, by decide⟩
    (by decide) (by decide) apart.nonzero apart.aligned bound
  have page : (programStack env path argv envp l st).2.page =
      pagingMultipleMmap st.page userStackBottom env.stackPhys userStackPages 7 := by
    unfold programStack setupProcessStack
    dsimp only
  have mapped' : MappedRange (programStack env path argv envp l st).2.page userStackBottom env.stackPhys
      (userStackPages * 4096) 7 := by
    rw [page]
    exact mapped
  refine ⟨(mapped'.readable_iff (Nat.le_refl _) (by decide)).mpr (by decide), ?_⟩
  rw [mapped'.readByte_eq (Nat.le_refl _) (by decide) (by decide), Nat.sub_self, Nat.add_zero]
  refine elfPrepareStack_spec _ _ _ _ _ _ _ _ _ ?_
  have fits : Copied (if argv = [] then [path] else argv) := by
    split
    · exact ⟨by simp, by simpa using short⟩
    · exact args
  have room := stackDepth_lt fits environment l.interpBase
  omega

theorem startProgram_bottom {p p' : ExecProc}
    (returned : startProgram nil fuel env path argv envp l p = some (.ret value p')) :
    Readable ⟨p'.phys, p'.space.page⟩ userStackBottom ∧
      readByte ⟨p'.phys, p'.space.page⟩ userStackBottom = p.phys env.stackPhys := by
  have bottom := programStack_bottom apart args environment short l ⟨p.phys, p.space.page⟩
  obtain ⟨vmPage, -, returned⟩ := bind_eq_some_iff.mp returned
  generalize programStack env path argv envp l ⟨p.phys, p.space.page⟩ = stacked at bottom returned
  obtain ⟨-, rfl⟩ := Outcome.ret.inj (some.inj returned)
  exact bottom

end

end

/-- **The stack of every exec shows what its lowest frame held before.** -/
theorem execMemory_bottom (apart : StackApart env p.cwd path) (args : Copied argv) (environment : Copied envp)
    (short : path.length < 4096) {phys : Bytes} {st : LoadState}
    (built : execMemory nil fuel env path argv envp p phys = some st) :
    Readable st userStackBottom ∧ readByte st userStackBottom = phys env.stackPhys := by
  unfold execMemory at built
  split at built
  · rename_i value p' returned
    split at built
    · obtain rfl := some.inj built
      obtain ⟨negative, -⟩ | ⟨l, q, started, same⟩ := runProcessAtProc_ret returned
      · omega
      · obtain ⟨readable, byte⟩ := startProgram_bottom apart args environment short started
        exact ⟨readable, byte.trans (same _ apart.unwritten)⟩
    · cases built
  · cases built

/-- **Exec leaks.** No exec that returns has an address space that is independent of what its frames held
before: two runs that differ in a frame of the stack only differ in a byte a user program can read. -/
theorem exec_leaks (apart : StackApart env p.cwd path) (args : Copied argv) (environment : Copied envp)
    (short : path.length < 4096) {phys : Bytes} {st : LoadState}
    (built : execMemory nil fuel env path argv envp p phys = some st) (frames : Nat → Prop)
    (stack : ∀ x, StackFrame env x → frames x) :
    ¬ Independent (execMemory nil fuel env path argv envp p) frames (· < 2 ^ 47) := by
  exact not_independent phys built (stack _ (stackFrame_first env)) (show userStackBottom < 2 ^ 47 by decide)
    fun built => execMemory_bottom apart args environment short built

end Stack

def oneSegment : Bytes := fun i =>
  if i = 0 then 0x7f else if i = 1 then 0x45 else if i = 2 then 0x4c else if i = 3 then 0x46 else if i = 16 then 2
  else if i = 32 then 64 else if i = 54 then 56 else if i = 56 then 1
  else if i = 64 then 1 else if i = 68 then 5 else if i = 81 then 0x10 else if i = 105 then 1 else 0

/-- A file system with that program, and frames for it and its stack. -/
def oneProgram : ExecEnv :=
  { zeroFile with
    dentry := fun _ => ⟨[97], none, some ⟨.file, 120, [], oneSegment, true⟩⟩
    frames := fun _ => 0x10000
    nodes := fun _ => 3
    stackPhys := 0x100000
    stackNode := 4 }

theorem stackApart_oneProgram : StackApart oneProgram none [97] := by
  have program : ∀ s ∈ segs oneSegment oneProgram.frames oneProgram.nodes, ∀ x, StackFrame oneProgram x → ¬ s.Writes x := by
    have one : segs oneSegment oneProgram.frames oneProgram.nodes = [⟨⟨1, 5, 0, 0x1000, 0, 0x100⟩, 0x10000, 3⟩] := by
      decide +kernel
    have offset : (⟨1, 5, 0, 0x1000, 0, 0x100⟩ : Phdr).vaddrOffset = 0 := by decide +kernel
    rw [one]
    intro s inside x isFrame writes
    obtain rfl := mem_singleton.mp inside
    have low : 0x100000 ≤ x := isFrame.1
    have high := writes.2
    dsimp only at high
    omega
  refine ⟨by decide, by decide, by decide, fun file found => ?_, fun file interp found named => ?_, fun data st x _ => rfl⟩
  · obtain rfl := some.inj found
    exact program
  · obtain rfl := some.inj found
    cases named

theorem execMemory_oneProgram : (execMemory 1 8 oneProgram [97] [] [] onePage fun _ => 0).isSome ∧
    (execMemory 1 8 oneProgram [97] [] [] onePage fun _ => 1).isSome := by decide +kernel

/-- Whatever memory holds, the exec of this program leaks. -/
theorem exec_leaks_oneProgram :
    ¬ Independent (execMemory 1 8 oneProgram [97] [] [] onePage) (StackFrame oneProgram) (· < 2 ^ 47) := by
  obtain ⟨st, built⟩ := isSome_iff_exists.mp execMemory_oneProgram.1
  exact exec_leaks stackApart_oneProgram ⟨by decide, by simp⟩ ⟨by decide, by simp⟩ (by decide) built _ fun _ isFrame => isFrame

/-- Two runs of it: in one the memory holds zeros, in the other ones, and a user program can tell. -/
theorem exec_twoRuns :
    ∃ st st', execMemory 1 8 oneProgram [97] [] [] onePage (fun _ => 0) = some st ∧
      execMemory 1 8 oneProgram [97] [] [] onePage (fun _ => 1) = some st' ∧
      Readable st userStackBottom ∧ Readable st' userStackBottom ∧
      readByte st userStackBottom = 0 ∧ readByte st' userStackBottom = 1 := by
  obtain ⟨st, built⟩ := isSome_iff_exists.mp execMemory_oneProgram.1
  obtain ⟨st', built'⟩ := isSome_iff_exists.mp execMemory_oneProgram.2
  obtain ⟨readable, byte⟩ := execMemory_bottom stackApart_oneProgram ⟨by decide, by simp⟩ ⟨by decide, by simp⟩ (by decide) built
  obtain ⟨readable', byte'⟩ := execMemory_bottom stackApart_oneProgram ⟨by decide, by simp⟩ ⟨by decide, by simp⟩ (by decide) built'
  exact ⟨st, st', built, built', readable, readable', byte, byte'⟩

/-! ### The pages of a file -/

/-- Every readable address of a page run belongs to the segment whose page it is. -/
def Filled (base : Nat) (l : List Seg) : Prop :=
  ∀ pre s post, l = pre ++ s :: post → present s.flags →
    ∀ w, s.Covers base w → (∀ t ∈ post, ¬ t.Covers base w) → s.Has (w - base)

section Elf

variable {base : Nat} {data : Bytes} {frames nodes : Nat → Nat} {dir : PageDir} {pre post : List Seg} {s : Seg} {w : Nat}

/-- An address of the last page run around it: readable as the segment says, and what it holds. -/
theorem elfLoad_read (valid : Placed base (segs data frames nodes)) (wf : Wf 3 dir)
    (split : segs data frames nodes = pre ++ s :: post) (covers : s.Covers base w)
    (last : ∀ t ∈ post, ¬ t.Covers base w) (phys : Bytes) :
    (Readable (elfLoad data base frames ⟨phys, dir⟩).1 w ↔ present s.flags) ∧
      (present s.flags → (s.Has (w - base) → readByte (elfLoad data base frames ⟨phys, dir⟩).1 w =
          s.content data (w - base - s.phdr.pVaddr)) ∧
        (¬ s.Has (w - base) → readByte (elfLoad data base frames ⟨phys, dir⟩).1 w =
          phys (s.frame + (w - s.start base)))) := by
  have inside : s ∈ segs data frames nodes := by rw [split]; exact mem_append_right pre mem_cons_self
  obtain ⟨rounded, offset, -, -, below⟩ := valid.geometry inside
  have entry : pte 3 (elfLoad data base frames ⟨phys, dir⟩).1.page w = rangeEntry (s.start base) s.frame s.flags w := by
    rw [elfLoad_state data base frames nodes, split]
    rw [split] at valid
    exact valid.pte_loadAll_last wf (lt_of_lt_of_le covers.2 below) covers last
  refine ⟨?_, fun isPresent => ?_⟩
  · unfold Readable
    rw [entry, rangeEntry]
    by_cases isPresent : present s.flags
    · rw [if_pos isPresent, present_leafEntry, user_leafEntry]
      exact and_iff_left (user_elfFlags _)
    · rw [if_neg isPresent]
      exact ⟨fun absent => absurd absent.1 (by decide), fun isPresent' => absurd isPresent' isPresent⟩
  · have owns : s.Owns (s.frame + (w - s.start base)) := by
      obtain ⟨low, high⟩ := covers
      exact ⟨le_add_right _ _, by omega⟩
    have byte : readByte (elfLoad data base frames ⟨phys, dir⟩).1 w =
        if s.frame + s.phdr.vaddrOffset ≤ s.frame + (w - s.start base) ∧
            s.frame + (w - s.start base) < s.frame + s.phdr.vaddrOffset + s.phdr.pMemsz then
          s.content data (s.frame + (w - s.start base) - (s.frame + s.phdr.vaddrOffset))
        else phys (s.frame + (w - s.start base)) := by
      rw [readByte, entry, valid.physOf_rangeEntry inside covers isPresent, elfLoad_state data base frames nodes, split]
      rw [split] at valid
      exact valid.phys_loadAll_own wf owns
    obtain ⟨low, -⟩ := covers
    unfold Seg.start at low
    rw [byte, Seg.start, rounded, offset, Seg.Has]
    refine ⟨fun has => ?_, fun outside => if_neg (by omega)⟩
    rw [if_pos (by omega)]
    congr 1
    omega

/-- **The pages of a file** are independent of what their frames held if and only if the segments fill
them. -/
theorem elfLoad_independent_iff (valid : Placed base (segs data frames nodes)) (wf : Wf 3 dir) :
    Independent (fun phys => some (elfLoad data base frames ⟨phys, dir⟩).1)
        (fun x => ∃ s ∈ segs data frames nodes, s.Owns x) (fun w => ∃ s ∈ segs data frames nodes, s.Covers base w) ↔
      Filled base (segs data frames nodes) := by
  constructor
  · intro independent pre s post split isPresent w covers last
    by_contra outside
    have inside : s ∈ segs data frames nodes := by rw [split]; exact mem_append_right pre mem_cons_self
    have owns : s.Owns (s.frame + (w - s.start base)) := by
      obtain ⟨low, high⟩ := covers
      exact ⟨le_add_right _ _, by omega⟩
    refine not_independent (fun _ => 0) rfl ⟨s, inside, owns⟩ ⟨s, inside, covers⟩ ?_ independent
    intro phys st built
    obtain rfl := some.inj built
    obtain ⟨readable, bytes⟩ := elfLoad_read valid wf split covers last phys
    exact ⟨readable.mpr isPresent, (bytes isPresent).2 outside⟩
  · intro filled phys phys' st only built
    obtain rfl := some.inj built
    refine ⟨_, rfl, fun w covered visible => ?_⟩
    obtain ⟨pre, s, post, split, covers, last⟩ := exists_last (p := fun s : Seg => s.Covers base w) _ covered
    obtain ⟨readable, bytes⟩ := elfLoad_read valid wf split covers last phys
    obtain ⟨readable', bytes'⟩ := elfLoad_read valid wf split covers last phys'
    have isPresent := readable.mp visible
    have has := filled pre s post split isPresent w covers last
    exact ⟨readable'.mpr isPresent, ((bytes' isPresent).1 has).trans ((bytes isPresent).1 has).symm⟩

/-- Two pages with a segment of 256 bytes each show what was behind it. -/
theorem elfLoad_twoPages_leak : ¬ Independent
    (fun phys => some (elfLoad (twoSegments 0x10) 0 sampleFrames ⟨phys, .empty 3⟩).1)
    (fun x => ∃ s ∈ segs (twoSegments 0x10) sampleFrames sampleNodes, s.Owns x)
    fun w => ∃ s ∈ segs (twoSegments 0x10) sampleFrames sampleNodes, s.Covers 0 w := by
  have valid : Placed 0 (sampleSegs 0x401000) := (loadable_sampleSegs (by decide) (by decide)).placed
  rw [← segs_twoPages] at valid
  rw [elfLoad_independent_iff valid (wf_empty 3), segs_twoPages]
  intro filled
  exact absurd (filled [_] _ [] rfl (by decide) 0x401FFF ⟨by decide +kernel, by decide +kernel⟩ (by simp)).2 (by decide)

end Elf

/-! ### Anonymous mappings -/

def memsetMapped (page : PageDir) (virt len : Nat) (phys : Bytes) : Bytes := fun x =>
  if ∃ i < len, physOf (pte 3 page (virt + i)) + (virt + i) % 4096 = x then 0 else phys x

/-- The memory `mmap_handle_anonymous` leaves: it clears the pages through their first mapping. -/
def mmapAnonymousMemory (nil fuel : Nat) (s : Sys.UserSpace) (addr flags len4kb mmapFlags frame node : Nat)
    (phys : Bytes) : Option LoadState :=
  match Sys.mmapHandleAnonymous nil fuel s addr flags len4kb mmapFlags frame node with
  | some (ret, s') =>
    if 0 < ret then
      some ⟨memsetMapped (pagingMultipleMmap s.page ret.toNat frame len4kb Sys.tempFlags) ret.toNat (len4kb * blockSize) phys,
        s'.page⟩
    else none
  | none => none

theorem mmapHandleAnonymous_page
    (returned : Sys.mmapHandleAnonymous nil fuel s addr flags len4kb mmapFlags frame node = some ((virt : Int), s')) :
    frame ≠ 0 ∧ s'.page = Sys.mmapPages s.page virt frame len4kb mmapFlags := by
  obtain ⟨⟨virtAddr, vmPage⟩, -, returned⟩ := bind_eq_some_iff.mp returned
  dsimp only at returned
  split at returned
  · obtain ⟨negative, -⟩ := Prod.mk.inj (some.inj returned)
    split at negative <;> simp [Sys.eInval, Sys.eNoMem] at negative
  · split at returned
    · obtain ⟨negative, -⟩ := Prod.mk.inj (some.inj returned)
      simp [Sys.eNoMem] at negative
    · rename_i nonzero
      obtain ⟨vmPage', -, returned⟩ := bind_eq_some_iff.mp returned
      obtain ⟨same, rfl⟩ := Prod.mk.inj (some.inj returned)
      obtain rfl : virtAddr = virt := by exact_mod_cast same
      exact ⟨nonzero, rfl⟩

theorem mappedRange_mmapPages (dir : PageDir) (virt frame pages mmapFlags : Nat) (clean : Clean mmapFlags)
    (virtAligned : virt % 4096 = 0) (virtLow : virt + pages * 4096 ≤ 2 ^ 47) (nonzero : frame ≠ 0)
    (frameAligned : frame % 4096 = 0) (frameLow : frame + pages * 4096 ≤ 2 ^ 52) :
    ∃ flags, MappedRange (Sys.mmapPages dir virt frame pages mmapFlags) virt frame (pages * 4096) flags := by
  unfold Sys.mmapPages
  dsimp only
  split
  · exact ⟨_, mappedRange _ virt frame pages mmapFlags clean virtAligned virtLow nonzero frameAligned frameLow⟩
  · exact ⟨_, mappedRange dir virt frame pages Sys.tempFlags ⟨by decide, by decide⟩ virtAligned virtLow nonzero
      frameAligned frameLow⟩

theorem MappedRange.memset_zero (mapped : MappedRange page virt frame bytes flags) (isPresent : present flags)
    (phys : Bytes) {i : Nat} (inside : i < bytes) : memsetMapped page virt bytes phys (frame + i) = 0 := by
  refine if_pos ⟨i, inside, ?_⟩
  have virtAligned := mapped.virtAligned
  have frameAligned := mapped.frameAligned
  have frameLow := mapped.frameLow
  have address : PageAddress (frame + i / 4096 * 4096) := ⟨by omega, by omega⟩
  rw [mapped.entries _ (le_add_right _ _) (by omega), rangeEntry, if_pos isPresent, physOf_leafEntry,
    Nat.add_sub_cancel_left, address.physOf_eq]
  omega

/-- Memory that has the same pages after every run, and whose frames have been cleared. -/
theorem independent_of_zero (frames : Nat → Prop) (mapped : MappedRange page virt frame bytes flags)
    (cleared : ∀ phys, ∃ phys', run phys = some ⟨phys', page⟩ ∧ ∀ i < bytes, phys' (frame + i) = 0) :
    Independent run frames fun w => virt ≤ w ∧ w < virt + bytes := by
  intro phys phys' st _ built
  obtain ⟨after, ran, zero⟩ := cleared phys
  obtain ⟨after', ran', zero'⟩ := cleared phys'
  obtain rfl := some.inj (built.symm.trans ran)
  have here : MappedRange (⟨after, page⟩ : LoadState).page virt frame bytes flags := mapped
  have here' : MappedRange (⟨after', page⟩ : LoadState).page virt frame bytes flags := mapped
  refine ⟨_, ran', fun w ⟨low, high⟩ visible => ?_⟩
  have isPresent := ((here.readable_iff low high).mp visible)
  refine ⟨(here'.readable_iff low high).mpr isPresent, ?_⟩
  rw [here'.readByte_eq low high isPresent.1, here.readByte_eq low high isPresent.1]
  exact (zero' _ (by omega)).trans (zero _ (by omega)).symm

/-- **An anonymous mapping at a page boundary** shows nothing of what its frames held. -/
theorem mmapAnonymous_independent (clean : Clean mmapFlags)
    (returned : Sys.mmapHandleAnonymous nil fuel s addr flags len4kb mmapFlags frame node = some ((virt : Int), s'))
    (positive : 0 < virt) (virtAligned : virt % 4096 = 0) (virtLow : virt + len4kb * 4096 ≤ 2 ^ 47)
    (frameAligned : frame % 4096 = 0) (frameLow : frame + len4kb * 4096 ≤ 2 ^ 52) :
    Independent (mmapAnonymousMemory nil fuel s addr flags len4kb mmapFlags frame node)
      (fun x => frame ≤ x ∧ x < frame + len4kb * 4096) (fun w => virt ≤ w ∧ w < virt + len4kb * 4096) := by
  obtain ⟨nonzero, page⟩ := mmapHandleAnonymous_page returned
  obtain ⟨flags', mapped⟩ := mappedRange_mmapPages s.page virt frame len4kb mmapFlags clean virtAligned virtLow nonzero
    frameAligned frameLow
  have temporary := mappedRange s.page virt frame len4kb Sys.tempFlags ⟨by decide, by decide⟩ virtAligned virtLow nonzero
    frameAligned frameLow
  refine independent_of_zero _ mapped fun phys => ?_
  refine ⟨memsetMapped (pagingMultipleMmap s.page virt frame len4kb Sys.tempFlags) virt (len4kb * 4096) phys, ?_,
    fun i inside => temporary.memset_zero (by decide) phys inside⟩
  unfold mmapAnonymousMemory
  rw [returned]
  dsimp only
  rw [if_pos (by exact_mod_cast positive), page]
  rfl

theorem mmapAnonymous_twoPages : Independent
    (mmapAnonymousMemory 1 8 Sys.emptySpace 0 0x20 2 (Sys.mmapProtToFlags 3) 0x10000 2)
    (fun x => 0x10000 ≤ x ∧ x < 0x12000) fun w => 0x100000000 ≤ w ∧ w < 0x100002000 := by
  obtain ⟨s, t, mapped, -⟩ := Sys.mmap_emptySpace
  exact mmapAnonymous_independent ⟨by decide, by decide⟩ mapped (by decide) (by decide) (by decide) (by decide) (by decide)

end Voxia.Exec
