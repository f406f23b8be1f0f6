/-
**What a failed exec leaves.**

The heap bounds, the name and the saved registers are set at the very end of `run_process_at_proc`, where no error is
returned any more. The page tables and the areas are another matter: they are cleared before the file is read, and
nothing brings them back (`Torn`). A file that is not an ELF file is the counterexample.
-/

import Voxia.Exec.RunProcess
import Voxia.Exec.ElfExact

namespace Voxia.Exec

open Lib Cpu Memory Option Bytes
open Vfs (CStr)

/-- What a caller needs to go on: its mappings, its areas, its heap, its name and its registers. -/
structure Unchanged (p p' : ExecProc) : Prop where
  page : p'.space.page = p.space.page
  areas : p'.space.vmPage = p.space.vmPage
  heap : p'.space.heapStart = p.space.heapStart ∧ p'.space.heapEnd = p.space.heapEnd
  name : p'.name = p.name
  regs : p'.regs = p.regs

/-- The areas are gone; heap, name and registers are as they were. -/
structure Torn (nil : Nat) (p p' : ExecProc) : Prop where
  root : p'.space.vmPage.tree.root = nil
  heap : p'.space.heapStart = p.space.heapStart ∧ p'.space.heapEnd = p.space.heapEnd
  name : p'.name = p.name
  regs : p'.regs = p.regs

section Files

variable (env : ExecEnv) (data : Bytes) (base : Nat) {x d : Nat} {code : Int}

def Seg.Writes (s : Seg) (x : Nat) : Prop :=
  s.frame + s.phdr.vaddrOffset ≤ x ∧ x < s.frame + s.phdr.vaddrOffset + max s.phdr.pMemsz s.phdr.pFilesz

theorem phys_loadSegment_unwritten {s : Seg} (st : LoadState)
    (unwritten : ¬ s.Writes x) : (loadSegment data base s.phdr s.frame st).phys x = st.phys x := by
  unfold Seg.Writes at unwritten
  unfold loadSegment
  dsimp only
  split
  · rw [copy_outside _ _ (by omega), copy_outside _ _ (by omega)]
  · rw [copy_outside _ _ (by omega)]

theorem phys_loadAll_unwritten (l : List Seg) (unwritten : ∀ s ∈ l, ¬ s.Writes x)
    (st : LoadState) : (loadAll data base l st).phys x = st.phys x := by
  induction l generalizing st with
  | nil => rfl
  | cons s l ih =>
    refine (ih (fun t inside => unwritten t (List.mem_cons_of_mem s inside)) _).trans ?_
    exact phys_loadSegment_unwritten data base st (unwritten s List.mem_cons_self)

theorem phys_elfLoad_unwritten (frames nodes : Nat → Nat) (st : LoadState)
    (unwritten : ∀ s ∈ segs data frames nodes, ¬ s.Writes x) : (elfLoad data base frames st).1.phys x = st.phys x := by
  rw [elfLoad_state data base frames nodes]
  exact phys_loadAll_unwritten data base (segs data frames nodes) unwritten st

def executable (cwd : Option Nat) (path : CStr) : Option FileNode :=
  match locate env cwd path with
  | .found d =>
    match loadExecutableBuffer env d with
    | .found (_, file) => some file
    | _ => none
  | _ => none

def interpreter (file : FileNode) : Option FileNode :=
  match findElfInterpreter env file with
  | .found (some d) =>
    match interpFile env d with
    | .found interp => some interp
    | _ => none
  | _ => none

/-- Neither the program nor its interpreter is written to the address, and the relocation leaves it alone. -/
structure Unwritten (env : ExecEnv) (cwd : Option Nat) (path : CStr) (x : Nat) : Prop where
  program : ∀ file, executable env cwd path = some file → ∀ s ∈ segs file.data env.frames env.nodes, ¬ s.Writes x
  interp : ∀ file interp, executable env cwd path = some file → interpreter env file = some interp →
    ∀ s ∈ segs interp.data env.interpFrames env.interpNodes, ¬ s.Writes x
  relocate : ∀ data st, env.relocate data st x = st.phys x

variable {env}

theorem locate_error {cwd : Option Nat} {path : CStr} (failed : locate env cwd path = .error code) : code < 0 := by
  unfold locate at failed
  dsimp only at failed
  split at failed
  · obtain rfl := Found.error.inj failed
    decide
  · split at failed
    · obtain rfl := Found.error.inj failed
      decide
    · split at failed
      · obtain rfl := Found.error.inj failed
        decide
      · cases failed
      · split at failed
        · obtain rfl := Found.error.inj failed
          decide
        · split at failed <;> cases failed

theorem loadExecutableBuffer_error (failed : loadExecutableBuffer env d = .error code) : code = -eNoExec := by
  unfold loadExecutableBuffer at failed
  repeat' split at failed
  all_goals first | exact (Found.error.inj failed).symm | cases failed

theorem interpFile_error (failed : interpFile env d = .error code) : code = -1 := by
  unfold interpFile at failed
  repeat' split at failed
  all_goals first | exact (Found.error.inj failed).symm | cases failed

end Files

section Stages

variable {nil fuel : Nat} {env : ExecEnv} {path : CStr} {argv envp : List CStr} {value : Int} {p p' : ExecProc}

theorem vmaLookupFreeVaddr_tree {vmPage vmPage' : VirtualMemoryPage} {region : MemVmaRegion} {size free : Nat}
    (returned : vmaLookupFreeVaddr nil fuel vmPage region size = some (free, vmPage')) : vmPage'.tree = vmPage.tree := by
  obtain ⟨result, -, same⟩ := bind_eq_some_iff.mp returned
  obtain ⟨-, rfl⟩ := Prod.mk.inj (some.inj same)
  rfl

theorem vmaUnmapAll_torn {space : Sys.UserSpace} (returned : vmaUnmapAll nil fuel p.space = some space) :
    Torn nil p { p with space := space } := by
  obtain ⟨page, -, same⟩ := bind_eq_some_iff.mp returned
  obtain rfl := some.inj same
  exact ⟨rfl, ⟨rfl, rfl⟩, rfl, rfl⟩

variable {l : LoadedProgram}

/-- The end of the call returns no error. -/
theorem startProgram_value
    (returned : startProgram nil fuel env path argv envp l p = some (.ret value p')) : 0 ≤ value := by
  obtain ⟨vmPage, -, returned⟩ := bind_eq_some_iff.mp returned
  obtain ⟨rfl, -⟩ := Outcome.ret.inj (some.inj returned)
  exact Int.natCast_nonneg _

/-- The program is started, and the bytes that were not written are as they were. -/
def Starts (nil fuel : Nat) (env : ExecEnv) (cwd : Option Nat) (path : CStr) (argv envp : List CStr) (value : Int)
    (p p' : ExecProc) : Prop :=
  ∃ l q, startProgram nil fuel env path argv envp l q = some (.ret value p') ∧
    ∀ x, Unwritten env cwd path x → q.phys x = p.phys x

variable {cwd : Option Nat} {file : FileNode}

/-- An interpreter that cannot be loaded leaves the state as it was before `setup_interp`. -/
theorem startInterp_ret {interp : Option Nat} (isFile : executable env cwd path = some file)
    (named : findElfInterpreter env file = .found interp)
    (returned : startInterp nil fuel env path argv envp interp l p = some (.ret value p')) :
    (value < 0 ∧ p' = p) ∨ Starts nil fuel env cwd path argv envp value p p' := by
  unfold startInterp at returned
  cases interp with
  | none => exact .inr ⟨l, p, returned, fun _ _ => rfl⟩
  | some d =>
    dsimp only at returned
    split at returned
    · next read =>
      obtain ⟨rfl, rfl⟩ := Outcome.ret.inj (some.inj returned)
      rw [interpFile_error read]
      exact .inl ⟨by decide, rfl⟩
    · cases some.inj returned
    · next interp read =>
      obtain ⟨⟨interpBase, vmPage⟩, -, returned⟩ := bind_eq_some_iff.mp returned
      refine .inr ⟨_, _, returned, fun x unwritten => ?_⟩
      have isInterp : interpreter env file = some interp := by
        simp only [interpreter, named, read]
      exact phys_elfLoad_unwritten interp.data interpBase env.interpFrames env.interpNodes ⟨p.phys, p.space.page⟩
        (unwritten.interp file interp isFile isInterp)

theorem loadProgram_ret {d : Nat} (isFile : executable env cwd path = some file)
    (returned : loadProgram nil fuel env path argv envp d file p = some (.ret value p')) :
    (value < 0 ∧ (p.space.vmPage.tree.root = nil → Torn nil p p')) ∨
      Starts nil fuel env cwd path argv envp value p p' := by
  unfold loadProgram at returned
  dsimp only at returned
  split at returned
  · obtain ⟨rfl, rfl⟩ := Outcome.ret.inj (some.inj returned)
    exact .inl ⟨by decide, fun empty => ⟨empty, ⟨rfl, rfl⟩, rfl, rfl⟩⟩
  · obtain ⟨⟨free, vmPage⟩, looked, returned⟩ := bind_eq_some_iff.mp returned
    rw [← vmaLookupFreeVaddr_tree looked]
    split at returned
    · obtain ⟨rfl, rfl⟩ := Outcome.ret.inj (some.inj returned)
      exact .inl ⟨by decide, fun empty => ⟨empty, ⟨rfl, rfl⟩, rfl, rfl⟩⟩
    · cases some.inj returned
    · next interp named =>
      split at returned
      · obtain ⟨rfl, rfl⟩ := Outcome.ret.inj (some.inj returned)
        exact .inl ⟨by decide, fun empty => ⟨empty, ⟨rfl, rfl⟩, rfl, rfl⟩⟩
      · obtain ⟨negative, rfl⟩ | ⟨l, q, started, same⟩ := startInterp_ret isFile named returned
        · exact .inl ⟨negative, fun empty => ⟨empty, ⟨rfl, rfl⟩, rfl, rfl⟩⟩
        · refine .inr ⟨l, q, started, fun x unwritten => (same x unwritten).trans ?_⟩
          have loaded := phys_elfLoad_unwritten file.data (programBase (readEhdr file.data) free) env.frames env.nodes
            ⟨p.phys, p.space.page⟩ (unwritten.program file isFile)
          refine Eq.trans ?_ loaded
          unfold relocateDynamicElf
          split
          · exact unwritten.relocate _ _
          · rfl

/-- **How a call ends**: the lookup fails and nothing has happened, the areas are gone, or the program is started. -/
theorem runProcessAtProc_ret (returned : runProcessAtProc nil fuel env path argv envp p = some (.ret value p')) :
    (value < 0 ∧ (locate env p.cwd path = .error value ∧ p' = p ∨
      (∀ code, locate env p.cwd path ≠ .error code) ∧ Torn nil p p')) ∨
      Starts nil fuel env p.cwd path argv envp value p p' := by
  unfold runProcessAtProc at returned
  split at returned
  · next looked =>
    obtain ⟨rfl, rfl⟩ := Outcome.ret.inj (some.inj returned)
    exact .inl ⟨locate_error looked, .inl ⟨looked, rfl⟩⟩
  · cases some.inj returned
  · next looked =>
    obtain ⟨space, cleared, returned⟩ := bind_eq_some_iff.mp returned
    have torn := vmaUnmapAll_torn cleared
    have found : ∀ code, locate env p.cwd path ≠ .error code := fun code => by simp [looked]
    split at returned
    · next read =>
      obtain ⟨rfl, rfl⟩ := Outcome.ret.inj (some.inj returned)
      rw [loadExecutableBuffer_error read]
      exact .inl ⟨by decide, .inr ⟨found, torn⟩⟩
    · cases some.inj returned
    · next d' file read =>
      have isFile : executable env p.cwd path = some file := by
        simp only [executable, looked, read]
      obtain ⟨negative, cleared⟩ | started := loadProgram_ret isFile returned
      · have later := cleared torn.root
        exact .inl ⟨negative, .inr ⟨found, later.root,
          ⟨later.heap.1.trans torn.heap.1, later.heap.2.trans torn.heap.2⟩, later.name, later.regs⟩⟩
      · exact .inr started

/-- **Failed exec.** An error always leaves the heap bounds, the name and the registers; a caller with
some area it leaves unchanged if and only if the file was not found or is neither a file nor a link. -/
theorem failedExec_unchanged_iff (returned : runProcessAtProc nil fuel env path argv envp p = some (.ret value p'))
    (negative : value < 0) (hasArea : p.space.vmPage.tree.root ≠ nil) :
    (p'.space.heapStart = p.space.heapStart ∧ p'.space.heapEnd = p.space.heapEnd ∧ p'.name = p.name ∧
        p'.regs = p.regs) ∧
      (Unchanged p p' ↔ ∃ code, locate env p.cwd path = .error code) := by
  obtain ⟨-, ⟨early, rfl⟩ | ⟨late, torn⟩⟩ | ⟨l, q, started, -⟩ := runProcessAtProc_ret returned
  · exact ⟨⟨rfl, rfl, rfl, rfl⟩, fun _ => ⟨value, early⟩, fun _ => ⟨rfl, rfl, ⟨rfl, rfl⟩, rfl, rfl⟩⟩
  · refine ⟨⟨torn.heap.1, torn.heap.2, torn.name, torn.regs⟩, fun same => ?_, fun ⟨code, early⟩ => absurd early (late code)⟩
    refine absurd ?_ hasArea
    rw [← same.areas]
    exact torn.root
  · exact absurd (startProgram_value started) (by omega)

end Stages

/-! ### A file that is no program -/

def zeroFile : ExecEnv where
  resolve := fun path _ => if path = [97] then some 1 else none
  dentry := fun _ => ⟨[97], none, some ⟨.file, 64, [], fun _ => 0, true⟩⟩
  fileBuffer := true
  frames := fun _ => 0
  nodes := fun _ => 0
  interpBuffer := true
  interpFrames := fun _ => 0
  interpNodes := fun _ => 0
  stackPhys := 0
  stackNode := 0
  relocate := fun _ st => st.phys

def onePage : ExecProc where
  pid := 5
  space :=
    { page := .empty 3
      vmPage :=
        { tree := ⟨2, initSentinel 1 fun _ => ⟨some (newArea 0x10000 0x400000 0x1000 7), 1, 1, 1, .black⟩⟩
          zone := fun _ => [] }
      heapStart := 0x500000
      heapEnd := 0x500000 }
  phys := fun _ => 0
  cwd := none
  name := [98]
  regs := none
  stackBase := 0
  stackTop := 0
  pidSmall := by decide

/-- A file that does not exist leaves it unchanged. -/
theorem failedExec_unchanged_missing :
    runProcessAtProc 1 8 zeroFile [99] [] [] onePage = some (.ret (-2) onePage) ∧ Unchanged onePage onePage := by
  have returned : runProcessAtProc 1 8 zeroFile [99] [] [] onePage = some (.ret (-2) onePage) := rfl
  exact ⟨returned, (failedExec_unchanged_iff returned (by decide) (by decide)).2.mpr ⟨-2, rfl⟩⟩

/-- A file that is no ELF file does not: the call returns `-ENOEXEC`, and the area is gone. -/
theorem failedExec_changed :
    ∃ p', runProcessAtProc 1 8 zeroFile [97] [] [] onePage = some (.ret (-8) p') ∧
      onePage.space.vmPage.tree.root = 2 ∧ p'.space.vmPage.tree.root = 1 ∧ ¬ Unchanged onePage p' := by
  refine ⟨_, rfl, rfl, rfl, fun same => ?_⟩
  have roots := congrArg (fun vmPage => vmPage.tree.root) same.areas
  exact absurd roots (by decide)

end Voxia.Exec
