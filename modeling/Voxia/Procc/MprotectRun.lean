/-
**Sequences of `mprotect` calls.**

`syscall_mprotect` changes the protection of pages and should leave their frames and their copy-on-write marks alone.
The tables of a process keep both while a page is present. A call with no access (`PROT_NONE`) leaves an entry that is
not present, and the next call no longer sees what it held: the frame then comes from the record of the area, which a
private copy does not update, and the mark is lost. So a call that takes all access away must find the page unmarked
and its frame on record (`Respects`).
-/

import Voxia.Procc.CowRun

namespace Voxia.Procc

open Lib Cpu Memory Voxia.Tree Nat

/-! ### Every run keeps the tables well-formed -/

def Tables (s : System) : Prop := ∀ pid p, s.procs pid = some p → Wf 3 p.page

section Steps

variable {nil : Nat} {s s' : System}

variable {pid v newPhys flags fuel mmapFlags addr count len prot dest : Nat} {p : Process} {byte : UInt8}
  {frames : Nat → Nat} {inputs : ForkInputs}

theorem Tables.setProc (tables : Tables s) (wf : Wf 3 p.page) : Tables (s.setProc pid p) := by
  intro q r running
  by_cases here : q = pid
  · subst here
    rw [procs_setProc_self, Option.some.injEq] at running
    exact running ▸ wf
  · rw [procs_setProc_ne p here] at running
    exact tables q r running

theorem physBaseAlloc_procs {frame pages : Nat} (allocated : physBaseAlloc s frame pages = some s') :
    s'.procs = s.procs := by
  simp only [physBaseAlloc, Option.ite_none_right_eq_some, Option.some.injEq] at allocated
  rw [← allocated.2]

theorem Tables.storeByte {asUser : Bool} (tables : Tables s)
    (stored : storeByte asUser s pid v byte = some s') : Tables s' := by
  simp only [Procc.storeByte, bind_eq_some, Option.ite_none_right_eq_some,
    Option.some.injEq] at stored
  obtain ⟨p, -, paddr, -, -, rfl⟩ := stored
  exact tables

theorem Tables.writeFault {cr2 : Nat} (tables : Tables s)
    (resolved : writeFault s pid cr2 newPhys = some s') : Tables s' := by
  simp only [Procc.writeFault, bind_eq_some,
    Option.ite_none_right_eq_some] at resolved
  obtain ⟨p, running, marked, s₁, allocated, old, -, result⟩ := resolved
  rw [Option.some.injEq] at result
  subst result
  refine @Tables.setProc ⟨s₁.procs, _, s₁.inUse⟩ pid _ ?_ ?_
  · intro q r running'
    rw [physBaseAlloc_procs allocated] at running'
    exact tables q r running'
  · have wf := tables pid p running
    by_cases isUser : UserAddr (without cr2 0xFFF)
    · refine wf_mmapInternal_any _ _ _ wf ?_
      rw [mappedLevel_fault wf marked isUser]
      exact physOf_aligned _
    · exact wf_mmapInternal_kernel _ _ wf (Nat.le_of_not_lt isUser)

theorem Tables.syscallMprotect (tables : Tables s)
    (result : syscallMprotect nil fuel s pid addr len prot = some s') : Tables s' := by
  obtain ⟨s₁, p, pages, running, last⟩ := syscallMprotect_cases result
  have after : Tables s₁ := by
    refine mprotectPages_keeps tables ?_ pages
    intro _ _ before _ _ tablesBefore round
    obtain ⟨q, runningQ, rfl | ⟨phys, -, -, rfl⟩⟩ := mprotectPage_cases round
    · exact tablesBefore
    · refine @Tables.setProc ⟨before.procs, _, _⟩ pid _ tablesBefore ?_
      exact wf_mmapInternal_clean _ _ (clean_keepCow (clean_mprotectFlags prot)) (tablesBefore pid q runningQ)
  obtain rfl | ⟨node, area, -, rfl⟩ := last
  · exact after
  · exact after.setProc (after pid p running)

theorem clean_tlsFlags : Clean tlsFlags := by
  constructor <;> decide

theorem Tables.forkTls {start size : Nat} (tables : Tables s)
    (result : forkTls nil fuel s pid inputs = some (s', start, size)) : Tables s' := by
  simp only [Procc.forkTls, bind_eq_some] at result
  obtain ⟨p, running, ⟨first, offset, pages⟩, -, s₁, allocated, ⟨temporary, vmPage⟩, -, s₂, copied, s₃, tid,
    final⟩ := result
  obtain rfl : s₃ = s' := by simpa using congrArg (fun r => r.map Prod.fst) final
  have mapped : Tables (s₁.setProc pid { p with
      page := pagingMultipleMmap p.page temporary inputs.newFsBase pages tlsFlags, vmPage := vmPage }) := by
    refine Tables.setProc ?_ (wf_pagingMultipleMmap _ _ _ clean_tlsFlags (tables pid p running))
    intro q r running'
    rw [physBaseAlloc_procs allocated] at running'
    exact tables q r running'
  have after := memcopy_keeps Tables.storeByte Tables.writeFault mapped copied
  unfold storeTid at tid
  split_ifs at tid
  · exact storeWord_keeps Tables.storeByte Tables.writeFault after tid
  · rw [Option.some.injEq] at tid
    exact tid ▸ after

theorem Tables.forkProcess (tables : Tables s) (result : forkProcess nil fuel s pid inputs = some s') : Tables s' := by
  simp only [Procc.forkProcess, bind_eq_some] at result
  obtain ⟨before, running, ⟨s₁, start, size⟩, tls, parent, running₁, c, cloned, final⟩ := result
  have tables₁ := tables.forkTls tls
  have shared : Shared parent.page c.parent c.child :=
    Shared.vmaCloneCowRecursive (shared_pagingSetup inputs.kernelDir (tables₁ pid parent running₁)) cloned
  rw [Option.some.injEq] at final
  subst final
  refine (tables₁.setProc shared.wfParent).setProc ?_
  unfold forkChildTls
  split_ifs
  · exact wf_pagingMultipleMmap _ _ _ clean_tlsFlags shared.wfChild
  · exact shared.wfChild

theorem CowRun.tables {condition : Nat → System → Event → Prop} (run : CowRun nil condition s) : Tables s := by
  induction run with
  | start first => exact first.wf
  | next fuel e _ _ result ih =>
    cases e with
    | write pid v byte =>
      simp only [Procc.step, Option.ite_none_right_eq_some] at result
      exact ih.storeByte result.2
    | fault pid v newPhys =>
      simp only [Procc.step, Option.ite_none_right_eq_some] at result
      exact ih.writeFault result.2
    | mprotect pid addr len prot => exact ih.syscallMprotect result
    | fork pid inputs =>
      simp only [Procc.step, Option.ite_none_right_eq_some] at result
      exact ih.forkProcess result.2

end Steps

/-! ### What a call keeps of a page -/

theorem alignDown_page (x : Nat) : alignDown x 0x1000 % 4096 = 0 := by
  rw [alignDown, show 4096 = 2 ^ 12 from rfl, and_mod_two_pow]
  exact and_zero _

def callPage (addr i : Nat) : Nat := u64 (alignDown addr 0x1000 + i * 0x1000)

theorem callPage_aligned (addr i : Nat) : callPage addr i % 4096 = 0 := by
  have down := alignDown_page addr
  rw [callPage, u64]
  omega

theorem present_mprotectFlags (prot : Nat) :
    present (mprotectFlags prot) = decide (prot &&& (protRead ||| protWrite ||| protExec) ≠ 0) := by
  by_cases none : prot = 0
  · subst none
    decide
  by_cases asked : prot &&& (protRead ||| protWrite ||| protExec) = 0
  · have noRead : prot &&& protRead = 0 := by
      have split : prot &&& protRead = prot &&& (protRead ||| protWrite ||| protExec) &&& protRead := by
        rw [Nat.and_assoc]
        rfl
      rw [split, asked, Nat.zero_and]
    simp only [mprotectFlags, none, asked, noRead, if_false, ne_eq, not_true_eq_false, decide_false]
    split_ifs <;> decide
  · simp only [mprotectFlags, none, asked, if_false, ne_eq, not_false_eq_true, if_true, decide_true]
    split_ifs <;> decide

theorem cow_mprotectFlags (prot : Nat) : cow (mprotectFlags prot) = false := by
  unfold mprotectFlags
  split_ifs <;> decide

theorem cow_keepCow {oldEntry flags : Nat} (unmarked : cow flags = false) :
    cow (keepCow oldEntry flags) = cow oldEntry := by
  unfold keepCow
  split_ifs with marked
  · rw [marked, cow, testBit_without, testBit_or]
    simp only [show pageCow.testBit 9 = true by decide, show pageWritable.testBit 9 = false by decide]
    simp
  · rw [unmarked]
    simpa using marked

/-- The areas around the page of `w` record `frame` for it. The page at address 0 has no record: a call
maps frame 0 there. -/
structure Records (nil : Nat) (vmPage : VirtualMemoryPage) (w frame : Nat) : Prop where
  zero : pageOf w = 0 → frame = 0
  areas : ∀ fuel v node area, v % 4096 = 0 → pageOf v = pageOf w →
    vmaFindContains nil fuel vmPage v = some (some (node, area)) →
      physOf (u64 (area.physAddress + (v - area.startAddress))) = frame

/-- What stays of the entry of a page that is present. -/
structure Kept (entry now : Nat) : Prop where
  frame : physOf now = physOf entry
  mark : cow now = cow entry
  closed : cow entry → writable now → writable entry

/-- The page of `w` while calls go over it, against the process `first` before them: it is as it was, or it
is not present and can come back as it was. -/
structure PageKept (nil : Nat) (first p : Process) (w : Nat) : Prop where
  wf : Wf 3 p.page
  entry : (present (pte 3 p.page w) ∧ Kept (pte 3 first.page w) (pte 3 p.page w)) ∨
    (present (pte 3 p.page w) = false ∧ Records nil p.vmPage w (physOf (pte 3 first.page w)) ∧
      cow (pte 3 first.page w) = false)

/-- What a call needs of the page of `w`, if it goes over it: where a page has frame 0 or loses all access,
the frame must be on record, and a page that loses all access must not be marked. -/
def Respects (nil w : Nat) (p : Process) (addr len prot : Nat) : Prop :=
  (∃ i < alignUp len 0x1000 / 0x1000, pageOf (callPage addr i) = pageOf w) →
    present (pte 3 p.page w) →
      (physOf (pte 3 p.page w) = 0 ∨ prot &&& (protRead ||| protWrite ||| protExec) = 0 →
        Records nil p.vmPage w (physOf (pte 3 p.page w))) ∧
      (prot &&& (protRead ||| protWrite ||| protExec) = 0 → cow (pte 3 p.page w) = false)

section Calls

variable {nil fuel pid w v mmapFlags : Nat} {s s' : System} {first p : Process}

/-- The same condition, in terms of the page before the calls. -/
structure Ready (nil : Nat) (first p : Process) (w mmapFlags : Nat) : Prop where
  record : physOf (pte 3 first.page w) = 0 ∨ present mmapFlags = false →
    Records nil p.vmPage w (physOf (pte 3 first.page w))
  mark : present mmapFlags = false → cow (pte 3 first.page w) = false

variable {addr phys : Nat}

section

variable (kept : PageKept nil first p w)

include kept

theorem PageKept.ready {len prot : Nat} (respects : Respects nil w p addr len prot)
    (touched : ∃ i < alignUp len 0x1000 / 0x1000, pageOf (callPage addr i) = pageOf w) :
    Ready nil first p w (mprotectFlags prot) := by
  have noAccess : present (mprotectFlags prot) = false ↔
      prot &&& (protRead ||| protWrite ||| protExec) = 0 := by
    rw [present_mprotectFlags]
    simp
  obtain ⟨isPresent, same⟩ | ⟨-, record, unmarked⟩ := kept.entry
  · obtain ⟨record, mark⟩ := respects touched isPresent
    rw [same.frame] at record
    rw [same.mark] at mark
    exact ⟨fun needed => record (needed.imp_right noAccess.mp), fun none => mark (noAccess.mp none)⟩
  · exact ⟨fun _ => record, fun _ => unmarked⟩

/-- The frame a page is mapped to again is its own. -/
theorem PageKept.frame (ready : Ready nil first p w mmapFlags) (isUser : UserAddr v)
    (here : pageOf v = pageOf w) (aligned : v % 4096 = 0)
    (found : mprotectPhys nil fuel p v = some phys) (mapped : phys ≠ 0 ∨ v = 0) :
    physOf phys = physOf (pte 3 first.page w) := by
  have same : pte 3 p.page v = pte 3 p.page w := pte_congr (sameSlot_iff_pageOf.mpr here)
  have walked := vaddrToPaddr_spec kept.wf isUser
  rw [same, aligned, add_zero] at walked
  -- a frame that comes from a record
  have recorded : vaddrToPaddr p.page v = 0 → Records nil p.vmPage w (physOf (pte 3 first.page w)) →
      physOf phys = physOf (pte 3 first.page w) := by
    intro none record
    simp only [mprotectPhys, none, true_and] at found
    split_ifs at found with notZero
    · simp only [bind_eq_some] at found
      obtain ⟨area, contains, found⟩ := found
      cases area with
      | none => exact absurd (Option.some.inj found).symm (by omega)
      | some area =>
        rw [← Option.some.inj found]
        exact record.areas fuel v area.1 area.2 aligned here contains
    · obtain rfl := Option.some.inj found
      have zeroPage : pageOf w = 0 := by
        rw [← here, not_not.mp notZero]
        rfl
      rw [record.zero zeroPage]
      rfl
  obtain ⟨isPresent, keeps⟩ | ⟨isAbsent, record, -⟩ := kept.entry
  · rw [if_pos isPresent, keeps.frame] at walked
    by_cases zero : physOf (pte 3 first.page w) = 0
    · exact recorded (walked.trans zero) (ready.record (.inl zero))
    · rw [mprotectPhys, walked, if_neg fun both => zero both.1, Option.some.injEq] at found
      rw [← found, physOf_idem]
  · exact recorded (by rw [walked, if_neg (by simp [isAbsent])]) record

theorem PageKept.mark (isUser : UserAddr v) (here : pageOf v = pageOf w) :
    cow (pagingGetEntry p.page v) = cow (pte 3 first.page w) := by
  have same : pte 3 p.page v = pte 3 p.page w := pte_congr (sameSlot_iff_pageOf.mpr here)
  obtain ⟨-, keeps⟩ | ⟨isAbsent, -, unmarked⟩ := kept.entry
  · rw [← keeps.mark, ← same]
    exact flag_getEntry kept.wf isUser (.inl (by decide))
  · obtain ⟨entry, -⟩ | found := getEntry_cases kept.wf isUser
    · rw [entry, unmarked]
      rfl
    · have isPresent := (found.flag (k := 0) (.inl (by decide))).trans found.isPresent
      rw [same] at isPresent
      exact absurd (isPresent.symm.trans isAbsent) (by decide)

/-- Mapping a page again keeps the page of `w`. -/
theorem PageKept.mapPage (clean : Clean mmapFlags) (unmarked : cow mmapFlags = false)
    (isUser : UserAddr w) (aligned : v % 4096 = 0) (ready : pageOf v = pageOf w → Ready nil first p w mmapFlags)
    (found : mprotectPhys nil fuel p v = some phys) (mapped : phys ≠ 0 ∨ v = 0) :
    PageKept nil first
      { p with page := pagingMmap p.page v phys (keepCow (pagingGetEntry p.page v) mmapFlags) } w := by
  have cleanKept : Clean (keepCow (pagingGetEntry p.page v) mmapFlags) := clean_keepCow clean
  have after := pte_single p.page cleanKept v phys w
  rw [← pagingMmap] at after
  refine ⟨wf_mmapInternal_clean _ _ cleanKept kept.wf, ?_⟩
  by_cases here : pageOf v = pageOf w
  · have isUser' : UserAddr v := by rwa [userAddr_iff, here, ← userAddr_iff]
    have samePresent : present (keepCow (pagingGetEntry p.page v) mmapFlags) = present mmapFlags :=
      testBit_keepCow (by decide) (by decide) (by decide)
    rw [if_pos (sameSlot_iff_pageOf.mpr here), samePresent] at after
    cases asked : present mmapFlags with
    | true =>
      rw [if_pos asked] at after
      refine .inl ⟨by rw [after, present_leafEntry, samePresent, asked], ?_, ?_, ?_⟩
      · rw [after, physOf_leafEntry]
        exact kept.frame (ready here) isUser' here aligned found mapped
      · rw [after, cow_leafEntry, cow_keepCow unmarked]
        exact kept.mark isUser' here
      · intro marked mayWrite
        rw [after, writable_leafEntry] at mayWrite
        have lost := (writable_keepCow mayWrite).1
        rw [kept.mark isUser' here, marked] at lost
        exact absurd lost (by decide)
    | false =>
      rw [if_neg (by simp [asked])] at after
      exact .inr ⟨by rw [after]; rfl, (ready here).record (.inr asked), (ready here).mark asked⟩
  · rw [if_neg (by rwa [sameSlot_iff_pageOf])] at after
    rw [after]
    exact kept.entry

end

theorem PageKept.mprotectPages {count : Nat} (running : s.procs pid = some p) (kept : PageKept nil first p w)
    (clean : Clean mmapFlags) (unmarked : cow mmapFlags = false) (isUser : UserAddr w)
    (ready : (∃ i < count, pageOf (callPage addr i) = pageOf w) → Ready nil first p w mmapFlags)
    (result : mprotectPages nil fuel s pid (alignDown addr 0x1000) mmapFlags count = some s') :
    ∃ q, s'.procs pid = some q ∧ q.vmPage = p.vmPage ∧ PageKept nil first q w := by
  refine mprotectPages_keeps
    (P := fun t => ∃ q, t.procs pid = some q ∧ q.vmPage = p.vmPage ∧ PageKept nil first q w)
    ⟨p, running, rfl, kept⟩ ?_ result
  rintro i below before _ - ⟨q, running', sameVm, keptBefore⟩ round
  obtain ⟨q', same, changes⟩ := mprotectPage_cases round
  obtain rfl := Option.some.inj (running'.symm.trans same)
  obtain rfl | ⟨phys, found, mapped, rfl⟩ := changes
  · exact ⟨q, running', sameVm, keptBefore⟩
  · refine ⟨_, procs_setProc_self .., sameVm, ?_⟩
    refine keptBefore.mapPage clean unmarked isUser (callPage_aligned addr i) ?_ found mapped
    intro here
    have atStart := ready ⟨i, below, here⟩
    exact ⟨fun needed => sameVm ▸ atStart.record needed, atStart.mark⟩

end Calls

/-! ### Setting the flags of an area -/

section Flags

variable {nil : Nat} {tree : VmaTree}

variable {fuel curr v node flags : Nat} {area : VirtualMemory}

theorem findContainsFrom_data (found : findContainsFrom nil fuel tree curr v = some (some (node, area))) :
    (tree.heap node).data = some area := by
  induction fuel generalizing curr with
  | zero => exact absurd found (by simp [findContainsFrom])
  | succ fuel ih =>
    rw [findContainsFrom] at found
    split_ifs at found
    · exact absurd found (by simp)
    · cases data : (tree.heap curr).data with
      | none =>
        rw [data] at found
        exact absurd found (by simp)
      | some vma =>
        simp only [data] at found
        split_ifs at found
        · obtain ⟨rfl, rfl⟩ := Prod.mk.inj (Option.some.inj (Option.some.inj found))
          exact data
        · exact ih found
        · exact ih found

theorem findContainsFrom_flags {found : Nat} {result : VirtualMemory} (data : (tree.heap node).data = some area)
    (walked : findContainsFrom nil fuel
      (tree.modify node fun n => { n with data := some { area with flags := flags } }) curr v =
        some (some (found, result))) :
    ∃ before, findContainsFrom nil fuel tree curr v = some (some (found, before)) ∧
      before.physAddress = result.physAddress ∧ before.startAddress = result.startAddress := by
  induction fuel generalizing curr with
  | zero => exact absurd walked (by simp [findContainsFrom])
  | succ fuel ih =>
    rw [findContainsFrom] at walked ⊢
    split_ifs at walked ⊢
    · exact absurd walked (by simp)
    · by_cases here : curr = node
      · subst here
        simp only [Rbt.modify, if_true, data] at walked ⊢
        split_ifs at walked ⊢
        · obtain ⟨rfl, rfl⟩ := Prod.mk.inj (Option.some.inj (Option.some.inj walked))
          exact ⟨area, rfl, rfl, rfl⟩
        · exact ih walked
        · exact ih walked
      · have same : (tree.modify node fun n => { n with data := some { area with flags := flags } }).heap curr =
            tree.heap curr := if_neg here
        rw [same] at walked
        cases own : (tree.heap curr).data with
        | none =>
          rw [own] at walked
          exact absurd walked (by simp)
        | some vma =>
          simp only [own] at walked ⊢
          split_ifs at walked ⊢
          · obtain ⟨rfl, rfl⟩ := Prod.mk.inj (Option.some.inj (Option.some.inj walked))
            exact ⟨vma, rfl, rfl, rfl⟩
          · exact ih walked
          · exact ih walked

theorem Records.setFlags {vmPage : VirtualMemoryPage} {w frame : Nat} (records : Records nil vmPage w frame)
    (found : vmaFindContains nil fuel vmPage v = some (some (node, area))) :
    Records nil (setFlags vmPage node area flags) w frame := by
  refine ⟨records.zero, fun fuel' v' node' result aligned here walked => ?_⟩
  obtain ⟨before, walkedBefore, samePhys, sameStart⟩ :=
    findContainsFrom_flags (findContainsFrom_data found) walked
  rw [← samePhys, ← sameStart]
  exact records.areas fuel' v' node' before aligned here walkedBefore

end Flags

/-! ### Sequences of calls -/

/-- The states a sequence of `mprotect` calls of one process goes through, where each call meets a
condition in the state before it. -/
inductive MprotectRun (nil pid : Nat) (condition : Process → Nat → Nat → Nat → Prop) (first : System) :
    System → Prop
  | start : MprotectRun nil pid condition first first
  | call {s s' : System} {p : Process} (fuel addr len prot : Nat)
      (before : MprotectRun nil pid condition first s) (running : s.procs pid = some p)
      (holds : condition p addr len prot) (result : syscallMprotect nil fuel s pid addr len prot = some s') :
      MprotectRun nil pid condition first s'

section Sequences

variable {nil pid w : Nat} {s s' : System} {first p : Process}

variable {fuel addr len prot : Nat} {t : System}

theorem PageKept.syscallMprotect (running : s.procs pid = some p) (kept : PageKept nil first p w)
    (isUser : UserAddr w) (respects : Respects nil w p addr len prot)
    (result : syscallMprotect nil fuel s pid addr len prot = some s') :
    ∃ q, s'.procs pid = some q ∧ PageKept nil first q w := by
  obtain ⟨s₁, p₁, pages, running₁, last⟩ := syscallMprotect_cases result
  obtain ⟨q, runningQ, -, keptQ⟩ := kept.mprotectPages running (clean_mprotectFlags prot)
    (cow_mprotectFlags prot) isUser (kept.ready respects) pages
  obtain rfl : q = p₁ := Option.some.inj (runningQ.symm.trans running₁)
  obtain rfl | ⟨node, area, contains, rfl⟩ := last
  · exact ⟨q, runningQ, keptQ⟩
  · refine ⟨_, procs_setProc_self .., keptQ.wf, keptQ.entry.imp_right ?_⟩
    rintro ⟨isAbsent, record, unmarked⟩
    exact ⟨isAbsent, record.setFlags contains, unmarked⟩

/-- **Every sequence of calls.** -/
theorem MprotectRun.pageKept {start : System} (run : MprotectRun nil pid (Respects nil w) start s)
    (running : start.procs pid = some first) (wf : Wf 3 first.page) (isUser : UserAddr w)
    (mapped : present (pte 3 first.page w)) : ∃ q, s.procs pid = some q ∧ PageKept nil first q w := by
  induction run with
  | start => exact ⟨first, running, wf, .inl ⟨mapped, rfl, rfl, fun _ mayWrite => mayWrite⟩⟩
  | @call s s' p fuel addr len prot _ running' respects result ih =>
    obtain ⟨q, runningQ, kept⟩ := ih
    obtain rfl : q = p := Option.some.inj (runningQ.symm.trans running')
    exact kept.syscallMprotect running' isUser respects result

theorem mprotectPages_local {mmapFlags count : Nat} (same : t.procs pid = s.procs pid)
    (result : mprotectPages nil fuel s pid addr mmapFlags count = some s') :
    ∃ t', mprotectPages nil fuel t pid addr mmapFlags count = some t' ∧ t'.procs pid = s'.procs pid := by
  induction count generalizing s' with
  | zero =>
    rw [mprotectPages, Option.some.injEq] at result
    exact ⟨t, rfl, result ▸ same⟩
  | succ count ih =>
    simp only [mprotectPages, bind_eq_some] at result
    obtain ⟨before, earlier, last⟩ := result
    obtain ⟨u, earlier', sameBefore⟩ := ih earlier
    simp only [mprotectPages, earlier', Option.bind_eq_bind, Option.bind_some]
    simp only [mprotectPage, bind_eq_some] at last ⊢
    obtain ⟨p, running, phys, found, last⟩ := last
    rw [running] at sameBefore
    split_ifs at last with mapped
    · obtain rfl := Option.some.inj last
      refine ⟨_, ⟨p, sameBefore, phys, found, if_pos mapped⟩, ?_⟩
      rw [procs_setProc_self, procs_setProc_self]
    · obtain rfl := Option.some.inj last
      exact ⟨u, ⟨p, sameBefore, phys, found, if_neg mapped⟩, sameBefore.trans running.symm⟩

theorem syscallMprotect_local (same : t.procs pid = s.procs pid)
    (result : syscallMprotect nil fuel s pid addr len prot = some s') :
    ∃ t', syscallMprotect nil fuel t pid addr len prot = some t' ∧ t'.procs pid = s'.procs pid := by
  simp only [syscallMprotect, bind_eq_some] at result ⊢
  obtain ⟨s₁, pages, p, running, found, contains, result⟩ := result
  obtain ⟨t₁, pages', same₁⟩ := mprotectPages_local same pages
  rw [running] at same₁
  cases found with
  | none =>
    obtain rfl := Option.some.inj result
    exact ⟨t₁, ⟨t₁, pages', p, same₁, none, contains, rfl⟩, same₁.trans running.symm⟩
  | some area =>
    obtain rfl := Option.some.inj result
    refine ⟨_, ⟨t₁, pages', p, same₁, some area, contains, rfl⟩, ?_⟩
    rw [procs_setProc_self, procs_setProc_self]

end Sequences

/-- What a sequence of calls should keep of the entry of a page: the frame, if the page is accessible, and no
right to write a marked page. -/
def FrameKept (entry now : Nat) : Prop :=
  present now → physOf now = physOf entry ∧
    (cow entry → writable now → writable entry)

/-- **Sequences of `mprotect` calls keep the frames.** The process is in a state that writes, faults,
`mprotect` calls and forks can reach, under no condition. -/
theorem mprotect_keeps_frames {nil pid v : Nat} {first s : System} {p q : Process}
    (reached : CowRun nil (fun _ _ _ => True) first) (running : first.procs pid = some p)
    (low : v < userLimit) (mapped : present (pte 3 p.page v))
    (run : MprotectRun nil pid (Respects nil v) first s) (after : s.procs pid = some q) :
    FrameKept (pte 3 p.page v) (pte 3 q.page v) := by
  obtain ⟨q', after', kept⟩ :=
    run.pageKept running (reached.tables pid p running) (userAddr_of_lt low) mapped
  obtain rfl : q' = q := Option.some.inj (after'.symm.trans after)
  intro isPresent
  obtain ⟨-, same⟩ | ⟨isAbsent, -⟩ := kept.entry
  · exact ⟨same.frame, same.closed⟩
  · exact absurd (isPresent.symm.trans isAbsent) (by decide)

theorem records_onePage (flags : Nat) : Records 1 (onePageProcess flags).vmPage 0x500000 0x10000 := by
  refine ⟨fun zero => absurd zero (by decide), fun fuel v node area aligned _ found => ?_⟩
  cases fuel with
  | zero => exact absurd found (by simp [vmaFindContains, findContainsFrom])
  | succ fuel =>
    simp only [vmaFindContains, findContainsFrom, onePageProcess, OfNat.ofNat_ne_zero, OfNat.ofNat_ne_one,
      or_self, if_false] at found
    split_ifs at found with inside
    · obtain ⟨-, rfl⟩ := Prod.mk.inj (Option.some.inj (Option.some.inj found))
      obtain rfl : v = 0x500000 := by omega
      show physOf (u64 (0x10000 + (0x500000 - 0x500000))) = 0x10000
      decide
    all_goals
      cases fuel with
      | zero => exact absurd found (by simp [findContainsFrom])
      | succ fuel => exact absurd found (by simp [findContainsFrom])

/-- All access taken away and given back: the page has its frame again. -/
theorem mprotect_keeps_frames_readOnly : ∃ s q,
    MprotectRun 1 0 (Respects 1 0x500000) (onePageSystem (pagePresent ||| pageUser)) s ∧
    s.procs 0 = some q ∧ present (pte 3 q.page 0x500000) ∧
    FrameKept (pte 3 (onePageProcess (pagePresent ||| pageUser)).page 0x500000) (pte 3 q.page 0x500000) := by
  have calls : (syscallMprotect 1 8 (onePageSystem (pagePresent ||| pageUser)) 0 0x500000 0x1000 0 >>= fun s =>
      s.procs 0 >>= fun p => syscallMprotect 1 8 s 0 0x500000 0x1000 protRead >>= fun s' =>
        (s'.procs 0).map fun q => decide (present (pte 3 p.page 0x500000) = false ∧
          present (pte 3 q.page 0x500000))) = some true := by
    decide +kernel
  simp only [bind_eq_some, Option.map_eq_some_iff, decide_eq_true_eq] at calls
  obtain ⟨s, taken, p, running, s', given, q, running', isAbsent, isPresent⟩ := calls
  have mapped : present (pte 3 (onePageProcess (pagePresent ||| pageUser)).page 0x500000) ∧
      physOf (pte 3 (onePageProcess (pagePresent ||| pageUser)).page 0x500000) = 0x10000 ∧
      cow (pte 3 (onePageProcess (pagePresent ||| pageUser)).page 0x500000) = false := by
    decide +kernel
  have first : Respects 1 0x500000 (onePageProcess (pagePresent ||| pageUser)) 0x500000 0x1000 0 := by
    rintro - -
    exact ⟨fun _ => records_onePage _, fun _ => mapped.2.2⟩
  have second : Respects 1 0x500000 p 0x500000 0x1000 protRead := by
    rintro - wasPresent
    exact absurd (wasPresent.symm.trans isAbsent) (by decide)
  have run : MprotectRun 1 0 (Respects 1 0x500000) (onePageSystem (pagePresent ||| pageUser)) s' :=
    (MprotectRun.start.call 8 0x500000 0x1000 0 rfl first taken).call 8 0x500000 0x1000 protRead running second
      given
  have reached : CowRun 1 (fun _ _ _ => True) (onePageSystem (pagePresent ||| pageUser)) :=
    .start (start_onePageSystem ⟨by decide, by decide⟩)
  exact ⟨s', q, run, running', isPresent,
    mprotect_keeps_frames reached rfl (by decide) mapped.1 run running'⟩

def alone (pid : Nat) (p : Process) : System where
  procs := fun q => if q = pid then some p else none
  memory := fun _ => 0
  inUse := []

/-- **A marked page becomes writable without a copy**: after a fork the child takes all access to a page away
and asks for it again. The entry is not present in between, so the mark is not seen. -/
theorem mprotect_loses_mark : ∃ nil pid v first s p q, CowRun nil (fun _ _ _ => True) first ∧
    first.procs pid = some p ∧ v < userLimit ∧ present (pte 3 p.page v) ∧
    MprotectRun nil pid (fun _ _ _ _ => True) first s ∧ s.procs pid = some q ∧
    ¬ FrameKept (pte 3 p.page v) (pte 3 q.page v) := by
  have calls : (onePageClone tlsFlags >>= fun c =>
      syscallMprotect 1 8 (alone 1 ⟨c.child, c.childVm, 0, 0x500000⟩) 1 0x500000 0x1000 0 >>= fun s =>
        s.procs 1 >>= fun p => syscallMprotect 1 8 s 1 0x500000 0x1000 (protRead ||| protWrite) >>= fun s' =>
          (s'.procs 1).map fun q => decide (
            (present (pte 3 c.child 0x500000) ∧ cow (pte 3 c.child 0x500000) ∧
              writable (pte 3 c.child 0x500000) = false) ∧
            present (pte 3 q.page 0x500000) ∧ writable (pte 3 q.page 0x500000))) = some true := by
    decide +kernel
  simp only [bind_eq_some, Option.map_eq_some_iff, decide_eq_true_eq] at calls
  obtain ⟨c, clone, s, taken, p, running, s', given, q, running', ⟨mapped, marked, closed⟩, isPresent, opened⟩ :=
    calls
  have read : mayRead false (onePageParent tlsFlags).page 0x500000 := by decide +kernel
  have write : mayWrite false (onePageParent tlsFlags).page 0x400000 := by decide +kernel
  obtain ⟨memory, forked⟩ := step_fork_onePage clone read write
  have child : (onePageForked tlsFlags c memory).procs 1 = some ⟨c.child, c.childVm, 0, 0x500000⟩ :=
    procs_setProc_self ..
  have reached : CowRun 1 (fun _ _ _ => True) (onePageForked tlsFlags c memory) :=
    (CowRun.start (start_onePageSystem clean_tlsFlags)).next 8 _ trivial forked
  obtain ⟨t, taken', same⟩ := syscallMprotect_local child taken
  obtain ⟨t', given', same'⟩ := syscallMprotect_local same given
  refine ⟨1, 1, 0x500000, _, t', _, q, reached, child, by decide, mapped,
    (MprotectRun.start.call 8 0x500000 0x1000 0 child trivial taken').call 8 0x500000 0x1000
      (protRead ||| protWrite) (same.trans running) trivial given', same'.trans running', fun kept => ?_⟩
  have wasOpen := (kept isPresent).2 marked opened
  exact absurd (wasOpen.symm.trans closed) (by decide)

end Voxia.Procc
