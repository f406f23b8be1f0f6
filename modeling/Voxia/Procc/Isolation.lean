/-
**Isolation of processes.**

The user half of a directory is an address space in the sense of the library: each page has a frame and may be
writable (`view`). Along a run of user writes, page faults, `mprotect` and forks the spaces stay isolated, provided
that each step meets its condition (`Safe`).
-/

import Voxia.Lib.AddressSpaces
import Voxia.Procc.CowFork

namespace Voxia.Procc

open Lib Cpu Memory Voxia.Tree Function Option Nat

/-! ### Directories as address spaces -/

/-- The page of an address, as the four levels of tables tell pages apart. -/
def pageOf (v : Nat) : Nat := v / 4096 % 2 ^ 36

variable {u v k pid frame flags oldEntry : Nat} {dir : PageDir} {m : Mapping Nat} {s s' : System} {p q : Process}
  {memory : Nat → UInt8}

theorem sameSlot_iff_pageOf : SameSlot 0 3 u v ↔ pageOf u = pageOf v := sameSlot_zero_iff u v

theorem userAddr_iff : UserAddr v ↔ pageOf v < 2 ^ 35 := by
  rw [UserAddr, tableIndex_eq, pageOf]
  omega

def view (dir : PageDir) : Space Nat Nat := fun page =>
  let entry := pte 3 dir (page * 4096)
  if page < 2 ^ 35 ∧ present entry then some ⟨physOf entry, writable entry⟩ else none

theorem view_pageOf (isUser : UserAddr v) : view dir (pageOf v) =
    if present (pte 3 dir v) then some ⟨physOf (pte 3 dir v), writable (pte 3 dir v)⟩ else none := by
  have below := userAddr_iff.mp isUser
  have same : SameSlot 0 3 (pageOf v * 4096) v := by
    rw [sameSlot_iff_pageOf]
    unfold pageOf
    omega
  simp only [view, pte_congr same, below, true_and]

theorem view_eq_some (isUser : UserAddr v) :
    view dir (pageOf v) = some m ↔ present (pte 3 dir v) ∧ m.frame = physOf (pte 3 dir v) ∧
      m.writable = writable (pte 3 dir v) := by
  rw [view_pageOf isUser]
  obtain ⟨frame, mayWrite⟩ := m
  split_ifs with isPresent
  · simp [isPresent, eq_comm]
  · simp [isPresent]

theorem exists_of_view {page : Nat} (mapped : view dir page = some m) : ∃ v, UserAddr v ∧ pageOf v = page := by
  have below : page < 2 ^ 35 := by
    by_contra above
    rw [view, if_neg fun both => above both.1] at mapped
    exact absurd mapped (by simp)
  refine ⟨page * 4096, ?_, ?_⟩
  · rw [userAddr_iff, pageOf]
    omega
  · unfold pageOf
    omega

theorem view_mmap (dir : PageDir) (phys flags : Nat) (isUser : UserAddr v)
    (small : mappedLevel flags = 0) : view (pagingMmap dir v phys flags) =
      update (view dir) (pageOf v)
        (if present flags then some ⟨physOf phys, writable flags⟩ else none) := by
  funext page
  have after := fun w => pte_mmapInternal 3 dir v phys flags w (by omega)
  by_cases here : page = pageOf v
  · subst here
    have self : SameSlot 0 3 v v := fun _ _ _ => rfl
    rw [update_self, view_pageOf isUser, pagingMmap, after, small, if_pos self, mappedEntry]
    by_cases isPresent : present flags
    · simp [isPresent, present_leafEntry, physOf_leafEntry, writable_leafEntry]
    · have zero : present 0 = false := rfl
      simp [isPresent, zero]
  · rw [update_of_ne here]
    by_cases below : page < 2 ^ 35
    · have other : ¬ SameSlot 0 3 v (page * 4096) := by
        rw [sameSlot_iff_pageOf]
        intro same
        apply here
        rw [same, pageOf]
        omega
      simp only [view, pagingMmap, after, small, if_neg other]
    · simp only [view, below, false_and, if_false]

theorem view_mmap_kernel (dir : PageDir) (phys flags : Nat) (kernel : ¬ UserAddr v) :
    view (pagingMmap dir v phys flags) = view dir := by
  have index : 256 ≤ tableIndex 3 v := Nat.le_of_not_lt kernel
  funext page
  by_cases below : page < 2 ^ 35
  · have isUser : UserAddr (page * 4096) := by
      rw [userAddr_iff, pageOf]
      omega
    rw [view, view, pagingMmap, pte_mmapInternal_kernel phys flags index isUser]
  · simp only [view, below, false_and, if_false]

/-! ### Systems -/

/-- The address spaces of the processes; a pid without process has an empty one. -/
def System.spaces (s : System) (pid : Nat) : Space Nat Nat :=
  match s.procs pid with
  | some p => view p.page
  | none => fun _ => none

theorem spaces_of_procs (running : s.procs pid = some p) : s.spaces pid = view p.page := by
  rw [System.spaces, running]

theorem spaces_setProc (s : System) (pid : Nat) (p : Process) :
    (s.setProc pid p).spaces = update s.spaces pid (view p.page) := by
  funext q
  by_cases here : q = pid
  · subst here
    rw [update_self]
    exact spaces_of_procs (update_self ..)
  · rw [update_of_ne here, System.spaces, System.spaces]
    simp only [System.setProc, update_of_ne here]

theorem procs_setProc_self (s : System) (pid : Nat) (p : Process) :
    (s.setProc pid p).procs pid = some p := update_self ..

theorem procs_setProc_ne {q : Nat} (p : Process) (other : q ≠ pid) :
    (s.setProc pid p).procs q = s.procs q := update_of_ne other ..

structure Sound (s : System) : Prop where
  wf : ∀ {pid p}, s.procs pid = some p → Wf 3 p.page
  isolated : Isolated s.spaces
  known : ∀ {pid page m}, s.spaces pid page = some m → m.frame ∈ s.inUse

theorem Sound.setProc {inUse : List Nat} (sound : Sound s) (wf : Wf 3 p.page)
    (isolated : Isolated (update s.spaces pid (view p.page)))
    (more : s.inUse ⊆ inUse) (known : ∀ page m, view p.page page = some m → m.frame ∈ inUse) :
    Sound (System.setProc ⟨s.procs, memory, inUse⟩ pid p) := by
  have same : System.spaces ⟨s.procs, memory, inUse⟩ = s.spaces := rfl
  constructor
  · intro q p' running
    by_cases here : q = pid
    · subst here
      obtain rfl : p = p' := by simpa [System.setProc] using running
      exact wf
    · have was : s.procs q = some p' := by
        simpa [System.setProc, update_of_ne here] using running
      exact sound.wf was
  · rw [spaces_setProc, same]
    exact isolated
  · intro q page m mapped
    rw [spaces_setProc, same] at mapped
    by_cases here : q = pid
    · subst here
      rw [update_self] at mapped
      exact known page m mapped
    · rw [update_of_ne here] at mapped
      exact more (sound.known mapped)

theorem Sound.replace (sound : Sound s) (wf : Wf 3 p.page) (isolated : Isolated (update s.spaces pid (view p.page)))
    (known : ∀ page m, view p.page page = some m → m.frame ∈ s.inUse) : Sound (s.setProc pid p) :=
  sound.setProc wf isolated (List.Subset.refl _) known

theorem Sound.setByte (sound : Sound s) (paddr : Nat) (byte : UInt8) : Sound (s.setByte paddr byte) :=
  ⟨sound.wf, sound.isolated, sound.known⟩

theorem Sound.storeByte {asUser : Bool} {byte : UInt8} (sound : Sound s)
    (stored : storeByte asUser s pid v byte = some s') : Sound s' := by
  simp only [Procc.storeByte, bind_eq_some, ite_none_right_eq_some,
    some.injEq] at stored
  obtain ⟨p, -, paddr, -, -, rfl⟩ := stored
  exact sound.setByte paddr byte

theorem physBaseAlloc_one (allocated : physBaseAlloc s frame 1 = some s') :
    s' = ⟨s.procs, s.memory, frame :: s.inUse⟩ ∧
      frame % 4096 = 0 ∧ frame + 4096 ≤ 2 ^ 52 ∧ frame ∉ s.inUse := by
  simp only [physBaseAlloc, ite_none_right_eq_some, some.injEq] at allocated
  obtain ⟨⟨-, -, aligned, low, unused⟩, rfl⟩ := allocated
  exact ⟨by simp, aligned, by omega, by simpa using unused 0 one_pos⟩

/-- **Mapping a page of a process.** Only a user page can matter to the others. -/
theorem Sound.mapPage {phys : Nat} (sound : Sound s) (running : s.procs pid = some p)
    (page : q.page = pagingMmap p.page v phys flags) (level : UserAddr v → mappedLevel flags = 0)
    (isolated : UserAddr v → Isolated (update s.spaces pid (update (s.spaces pid)
      (pageOf v) (if present flags then some ⟨physOf phys, writable flags⟩ else none)))) :
    Sound (System.setProc ⟨s.procs, memory, physOf phys :: s.inUse⟩ pid q) := by
  have space := spaces_of_procs running
  have more : s.inUse ⊆ physOf phys :: s.inUse := List.subset_cons_self _ _
  by_cases isUser : UserAddr v
  · have after := view_mmap p.page phys flags isUser (level isUser)
    rw [← page, ← space] at after
    refine sound.setProc ?_ ?_ more ?_
    · rw [page]
      refine wf_mmapInternal v phys flags (sound.wf running) isUser (by rw [level isUser]; omega) ?_
      rw [level isUser]
      exact physOf_aligned phys
    · rw [after]
      exact isolated isUser
    · intro w m mapped
      rw [after] at mapped
      by_cases here : w = pageOf v
      · subst here
        rw [update_self] at mapped
        split_ifs at mapped
        rw [some.injEq] at mapped
        rw [← mapped]
        exact List.mem_cons_self
      · rw [update_of_ne here] at mapped
        exact more (sound.known mapped)
  · have after := view_mmap_kernel p.page phys flags isUser
    rw [← page, ← space] at after
    refine sound.setProc ?_ ?_ more ?_
    · rw [page]
      exact wf_mmapInternal_kernel phys flags (sound.wf running) (Nat.le_of_not_lt isUser)
    · rw [after, update_eq_self]
      exact sound.isolated
    · intro w m mapped
      rw [after] at mapped
      exact more (sound.known mapped)

theorem Sound.unmapPage (sound : Sound s) (pid page : Nat) :
    Isolated (update s.spaces pid (update (s.spaces pid) page none)) := by
  refine sound.isolated.narrow pid fun w m mapped => ?_
  by_cases here : w = page
  · subst here
    exact absurd mapped (by simp)
  · rw [update_of_ne here] at mapped
    exact ⟨m, mapped, rfl, id⟩

theorem Sound.fresh (sound : Sound s) (running : s.procs pid = some p) (aligned : frame % 4096 = 0)
    (low : frame + 4096 ≤ 2 ^ 52) (unused : frame ∉ s.inUse)
    (level : UserAddr v → mappedLevel flags = 0) (page : q.page = pagingMmap p.page v frame flags) :
    Sound (System.setProc ⟨s.procs, memory, frame :: s.inUse⟩ pid q) := by
  have same : physOf frame = frame := PageAddress.physOf_eq ⟨aligned, by omega⟩
  rw [← same]
  refine sound.mapPage running page level fun _ => ?_
  rw [same]
  split_ifs
  · refine sound.isolated.remap pid (pageOf v) ⟨frame, writable flags⟩ ?_ ?_
    · rintro w m - own rfl
      exact unused (sound.known own)
    · rintro j w m - theirs rfl
      exact absurd (sound.known theirs) unused
  · exact sound.unmapPage pid (pageOf v)

/-! ### Page faults -/

theorem pageOf_without (v : Nat) : pageOf (without v 0xFFF) = pageOf v := by
  apply eq_of_testBit_eq
  intro i
  have mask : (0xFFF : Nat).testBit (i + 12) = false :=
    testBit_lt_two_pow (lt_of_lt_of_le (by decide : (0xFFF : Nat) < 2 ^ 12)
      (Nat.pow_le_pow_right (by decide) (Nat.le_add_left 12 i)))
  rw [pageOf, pageOf, show 4096 = 2 ^ 12 from rfl, Nat.testBit_mod_two_pow, Nat.testBit_mod_two_pow,
    Nat.testBit_div_two_pow, Nat.testBit_div_two_pow, testBit_without, mask]
  by_cases small : i < 36
  · have wide : i + 12 < 64 := by omega
    simp [wide]
  · simp [small]

theorem mappedLevel_copyFlags {entry : Nat} (clean : Clean entry) : mappedLevel (copyFlags entry) = 0 := by
  have constants : pageWritable.testBit 61 = false ∧ pageWritable.testBit 62 = false := by decide
  have bits : (copyFlags entry).testBit 61 = false ∧ (copyFlags entry).testBit 62 = false := by
    simp only [copyFlags, testBit_or, testBit_without, clean.1, clean.2, constants.1, constants.2,
      Bool.false_and, Bool.or_false, and_self]
  simp [mappedLevel, bits.1, bits.2]

structure FaultStep (s s' : System) (pid cr2 newPhys : Nat) : Prop where
  sound : Sound s'
  others : ∀ q, q ≠ pid → s'.procs q = s.procs q
  memory : ∀ a, ¬ (newPhys ≤ a ∧ a < newPhys + 4096) → s'.memory a = s.memory a
  unused : newPhys ∉ s.inUse
  aligned : newPhys % 4096 = 0

theorem mappedLevel_fault {dir : PageDir} {cr2 : Nat} (wf : Wf 3 dir)
    (marked : present (pagingGetEntry dir cr2) && cow (pagingGetEntry dir cr2))
    (isUser : UserAddr (without cr2 0xFFF)) : mappedLevel (copyFlags (pagingGetEntry dir cr2)) = 0 := by
  rw [userAddr_iff, pageOf_without, ← userAddr_iff] at isUser
  obtain ⟨zero, -⟩ | found := getEntry_cases wf isUser
  · rw [zero] at marked
    exact absurd marked (by decide)
  · exact mappedLevel_copyFlags found.clean

theorem Sound.writeFault {cr2 newPhys : Nat} (sound : Sound s)
    (resolved : writeFault s pid cr2 newPhys = some s') : FaultStep s s' pid cr2 newPhys := by
  simp only [Procc.writeFault, bind_eq_some,
    ite_none_right_eq_some] at resolved
  obtain ⟨p, running, marked, s₁, allocated, old, -, result⟩ := resolved
  obtain ⟨rfl, aligned, low, unused⟩ := physBaseAlloc_one allocated
  rw [some.injEq] at result
  subst result
  refine ⟨?_, ?_, ?_, unused, aligned⟩
  · exact sound.fresh running aligned low unused (mappedLevel_fault (sound.wf running) marked) rfl
  · intro q other
    exact update_of_ne other ..
  · intro a outside
    exact if_neg outside

/-! ### mprotect -/

def Maps (s : System) (pid frame : Nat) : Prop := ∃ page m, s.spaces pid page = some m ∧ m.frame = frame

theorem clean_mprotectFlags (prot : Nat) : Clean (mprotectFlags prot) := by
  unfold mprotectFlags
  split_ifs <;> exact ⟨by decide, by decide⟩

theorem testBit_keepCow (notCow : k ≠ 9) (notWrite : k ≠ 1) (small : k < 64) :
    (keepCow oldEntry flags).testBit k = flags.testBit k := by
  have cowBit : pageCow.testBit k = false := by
    rw [pageCow, testBit_two_pow_eq]
    simpa using notCow.symm
  have writeBit : pageWritable.testBit k = false := by
    rw [pageWritable, testBit_two_pow_eq]
    simpa using notWrite.symm
  unfold keepCow
  split_ifs
  · rw [testBit_without, testBit_or, cowBit, writeBit]
    simp [small]
  · rfl

theorem clean_keepCow (clean : Clean flags) : Clean (keepCow oldEntry flags) :=
  ⟨(testBit_keepCow (by decide) (by decide) (by decide)).trans clean.1,
    (testBit_keepCow (by decide) (by decide) (by decide)).trans clean.2⟩

theorem writable_keepCow (mayWrite : writable (keepCow oldEntry flags)) : cow oldEntry = false ∧ writable flags := by
  have writeBit : pageWritable.testBit 1 := by decide
  unfold keepCow at mayWrite
  split_ifs at mayWrite with isCow
  · rw [writable, testBit_without, writeBit] at mayWrite
    simp at mayWrite
  · exact ⟨by simpa using isCow, mayWrite⟩

section Mprotect

variable {nil : Nat}

/-- The condition on one page of an `mprotect` call. A page that keeps its frame and becomes writable,
without a copy-on-write mark, shares the frame with no other process; a page that gets a frame from its
area's record gets one that nobody maps. -/
def PageSafe (nil fuel : Nat) (s : System) (pid vaddr mmapFlags : Nat) : Prop :=
  ∀ p phys, s.procs pid = some p → mprotectPhys nil fuel p vaddr = some phys → UserAddr vaddr →
    if present (pte 3 p.page vaddr) ∧ physOf phys = physOf (pte 3 p.page vaddr) then
      cow (pte 3 p.page vaddr) = false → writable (pte 3 p.page vaddr) = false →
        writable mmapFlags → ∀ q, q ≠ pid → ¬ Maps s q (physOf phys)
    else phys ≠ 0 ∨ vaddr = 0 → present mmapFlags → ∀ q, ¬ Maps s q (physOf phys)

variable {s s' : System} {pid vaddr fuel mmapFlags addr : Nat}

/-- A page mapped again keeps the processes apart. -/
theorem Isolated.mprotectPage {phys : Nat} {p : Process} (sound : Sound s)
    (safe : PageSafe nil fuel s pid vaddr mmapFlags) (running : s.procs pid = some p)
    (found : mprotectPhys nil fuel p vaddr = some phys) (mapped : phys ≠ 0 ∨ vaddr = 0)
    (isUser : UserAddr vaddr) {newFlags : Nat}
    (newFlagsEq : newFlags = keepCow (pagingGetEntry p.page vaddr) mmapFlags) :
    Isolated (update s.spaces pid (update (s.spaces pid) (pageOf vaddr)
      (if present newFlags then some ⟨physOf phys, writable newFlags⟩ else none))) := by
  have space := spaces_of_procs running
  have condition := safe p phys running found isUser
  have here : present (pte 3 p.page vaddr) → s.spaces pid (pageOf vaddr) =
      some ⟨physOf (pte 3 p.page vaddr), writable (pte 3 p.page vaddr)⟩ := fun mapped => by
    rw [space, view_pageOf isUser, if_pos mapped]
  have samePresent : present newFlags = present mmapFlags := by
    rw [newFlagsEq]
    exact testBit_keepCow (by decide) (by decide) (by decide)
  split_ifs with isPresent
  · refine sound.isolated.remap pid (pageOf vaddr) ⟨physOf phys, writable newFlags⟩ ?_ ?_
    · intro w m away own same
      split_ifs at condition with keeps
      · exact away (sound.isolated.once own (here keeps.1) (same.trans keeps.2))
      · exact condition mapped (samePresent.symm.trans isPresent) pid ⟨w, m, own, same⟩
    · intro j w m other theirs same
      split_ifs at condition with keeps
      · have mine : writable (pte 3 p.page vaddr) = false := by
          by_contra mayWrite
          exact sound.isolated.apart other.symm (here keeps.1) theirs (by simpa using mayWrite)
            (same.trans keeps.2).symm
        have yours : m.writable = false := by
          by_contra mayWrite
          exact sound.isolated.apart other theirs (here keeps.1) (by simpa using mayWrite) (same.trans keeps.2)
        refine ⟨?_, yours⟩
        by_contra mayWrite
        obtain ⟨notCow, asked⟩ := writable_keepCow (by rw [← newFlagsEq]; simpa using mayWrite)
        rw [cow, flag_getEntry (sound.wf running) isUser (.inl (by decide))] at notCow
        exact condition notCow mine asked j other ⟨w, m, theirs, same⟩
      · exact absurd ⟨w, m, theirs, same⟩
          (condition mapped (samePresent.symm.trans isPresent) j)
  · exact sound.unmapPage pid (pageOf vaddr)

/-- What one round of the loop of `mprotect` does: it maps the page, unless no frame is found. -/
theorem mprotectPage_cases (result : mprotectPage nil fuel s pid vaddr mmapFlags = some s') :
    ∃ p, s.procs pid = some p ∧ (s' = s ∨ ∃ phys, mprotectPhys nil fuel p vaddr = some phys ∧ (phys ≠ 0 ∨ vaddr = 0) ∧
      s' = { s with inUse := physOf phys :: s.inUse }.setProc pid
        { p with page := pagingMmap p.page vaddr phys (keepCow (pagingGetEntry p.page vaddr) mmapFlags) }) := by
  simp only [mprotectPage, bind_eq_some] at result
  obtain ⟨p, running, phys, found, result⟩ := result
  refine ⟨p, running, ?_⟩
  split_ifs at result with mapped
  · exact .inr ⟨phys, found, mapped, (some.inj result).symm⟩
  · exact .inl (some.inj result).symm

theorem Sound.mprotectPage (sound : Sound s) (clean : Clean mmapFlags) (safe : PageSafe nil fuel s pid vaddr mmapFlags)
    (result : mprotectPage nil fuel s pid vaddr mmapFlags = some s') : Sound s' := by
  obtain ⟨p, running, rfl | ⟨phys, found, mapped, rfl⟩⟩ := mprotectPage_cases result
  · exact sound
  · exact sound.mapPage running rfl (fun _ => mappedLevel_clean (clean_keepCow clean))
      fun isUser => Isolated.mprotectPage sound safe running found mapped isUser rfl

/-- The condition on a whole call: each page is safe when the loop comes to it. Addresses `2 ^ 48` apart are one page,
so a round may find a page that an earlier one has mapped. -/
def MprotectSafe (nil fuel : Nat) (s : System) (pid addr len prot : Nat) : Prop :=
  ∀ i < alignUp len 0x1000 / 0x1000, ∀ s',
    mprotectPages nil fuel s pid (alignDown addr 0x1000) (mprotectFlags prot) i = some s' →
      PageSafe nil fuel s' pid (u64 (alignDown addr 0x1000 + i * 0x1000)) (mprotectFlags prot)

theorem mprotectPages_keeps {P : System → Prop} {count : Nat} (holds : P s)
    (round : ∀ i < count, ∀ before after, mprotectPages nil fuel s pid addr mmapFlags i = some before → P before →
      mprotectPage nil fuel before pid (u64 (addr + i * 0x1000)) mmapFlags = some after → P after)
    (result : mprotectPages nil fuel s pid addr mmapFlags count = some s') : P s' := by
  induction count generalizing s' with
  | zero =>
    rw [mprotectPages, some.injEq] at result
    exact result ▸ holds
  | succ count ih =>
    simp only [mprotectPages, bind_eq_some] at result
    obtain ⟨before, first, last⟩ := result
    have holdsBefore := ih (fun i below => round i (by omega)) first
    exact round count (by omega) before s' first holdsBefore last

theorem Sound.samePage {p q : Process} (sound : Sound s) (running : s.procs pid = some p)
    (page : q.page = p.page) : Sound (s.setProc pid q) := by
  have space := spaces_of_procs running
  refine sound.replace ?_ ?_ ?_
  · rw [page]
    exact sound.wf running
  · rw [page, ← space, update_eq_self]
    exact sound.isolated
  · intro w m mapped
    rw [page, ← space] at mapped
    exact sound.known mapped

def setFlags (vmPage : VirtualMemoryPage) (node : Nat) (area : VirtualMemory) (flags : Nat) : VirtualMemoryPage :=
  { vmPage with tree := vmPage.tree.modify node fun n => { n with data := some { area with flags := flags } } }

/-- What follows the loop of `mprotect`: the directories stay as they are. -/
theorem syscallMprotect_cases {len prot : Nat} (result : syscallMprotect nil fuel s pid addr len prot = some s') :
    ∃ s₁ p, mprotectPages nil fuel s pid (alignDown addr 0x1000) (mprotectFlags prot)
        (alignUp len 0x1000 / 0x1000) = some s₁ ∧ s₁.procs pid = some p ∧
      (s' = s₁ ∨ ∃ node area, vmaFindContains nil fuel p.vmPage addr = some (some (node, area)) ∧
        s' = s₁.setProc pid { p with vmPage := setFlags p.vmPage node area (mprotectFlags prot) }) := by
  simp only [syscallMprotect, bind_eq_some] at result
  obtain ⟨s₁, pages, p, running, found, contains, result⟩ := result
  refine ⟨s₁, p, pages, running, ?_⟩
  cases found with
  | none => exact .inl (some.inj result).symm
  | some area => exact .inr ⟨area.1, area.2, contains, (some.inj result).symm⟩

theorem Sound.syscallMprotect {len prot : Nat} (sound : Sound s) (safe : MprotectSafe nil fuel s pid addr len prot)
    (result : syscallMprotect nil fuel s pid addr len prot = some s') : Sound s' := by
  obtain ⟨s₁, p, pages, running, last⟩ := syscallMprotect_cases result
  have after : Sound s₁ := by
    refine mprotectPages_keeps sound ?_ pages
    intro i below before _ first soundBefore round
    exact soundBefore.mprotectPage (clean_mprotectFlags prot) (safe i below before first) round
  obtain rfl | ⟨node, area, -, rfl⟩ := last
  · exact after
  · exact after.samePage running rfl

end Mprotect

end Voxia.Procc
