/-
**Reading the page tables.**

`Wf` is what the kernel's own mappings keep: no huge bit at the last level, and every huge page at an address aligned
to its size. On such tables the walks of `paging.c` read off `pte`.
-/

import Voxia.Cpu.Paging

namespace Voxia.Cpu

open Nat

theorem tableIndex_eq (level v : Nat) : tableIndex level v = v / 2 ^ (12 + 9 * level) % 512 := by
  rw [tableIndex, shiftRight_eq_div_pow, show (0x1FF : Nat) = 2 ^ 9 - 1 from rfl,
    Nat.and_two_pow_sub_one_eq_mod]

theorem tableIndex_lt (level v : Nat) : tableIndex level v < 512 := by
  rw [tableIndex_eq]
  exact Nat.mod_lt _ (by decide)

def levelSize (level : Nat) : Nat := 2 ^ (12 + 9 * level)

/-- The offset of an address inside its page of a level, rounded to 4 KB. -/
def pageOffset (level v : Nat) : Nat := v % levelSize level / 4096 * 4096

/-! ### Huge pages -/

variable {phys level v entry flags k virt w s extra bytes sizeInPages : Nat} {dir : PageDir} {t : Table k}

theorem pageAddress_add (page : PageAddress phys) (small : level ≤ 2)
    (aligned : phys % levelSize level = 0) : PageAddress (phys + pageOffset level v) := by
  obtain ⟨low, high⟩ := page
  have below : pageOffset level v < levelSize level := by
    have positive : 0 < levelSize level := by
      unfold levelSize
      positivity
    have bound := Nat.mod_lt v positive
    unfold pageOffset
    omega
  refine ⟨by unfold pageOffset; omega, ?_⟩
  unfold levelSize at *
  interval_cases level <;> omega

/-- A large page split into a table maps every address as before. -/
theorem pte_splitHuge (v : Nat) (size : level = 1 ∨ level = 2) (isPresent : present entry)
    (isHuge : huge entry) (aligned : physOf entry % levelSize level = 0) :
    pte (level - 1) (splitHuge (level - 1) entry) v =
      splitEntry entry (physOf entry + pageOffset level v) := by
  have page := pageAddress_physOf entry
  obtain rfl | rfl := size
  · have offset : tableIndex 0 v * pageSize4KB = pageOffset 1 v := by
      rw [tableIndex_eq, pageSize4KB]
      unfold pageOffset levelSize
      omega
    have split : (splitHuge 0 entry).entry (tableIndex 0 v) =
        splitEntry entry (physOf entry + pageOffset 1 v) := by
      rw [entry_splitHuge_zero, splitStep_one, offset]
    have stays : present (splitEntry entry (physOf entry + pageOffset 1 v)) := by
      rw [present, flag_splitEntry (pageAddress_add page (by decide) aligned) entry (.inl (by decide))]
      exact isPresent
    show pte 0 (splitHuge 0 entry) v = _
    simp only [pte, split, stays, if_true]
  · have inner : PageAddress (physOf entry + tableIndex 1 v * pageSize2MB) := by
      have bound := tableIndex_lt 1 v
      obtain ⟨low, high⟩ := page
      unfold levelSize at aligned
      unfold PageAddress pageSize2MB
      omega
    have step : (splitHuge 1 entry).entry (tableIndex 1 v) =
        (physOf entry + tableIndex 1 v * pageSize2MB) ||| flagsOf entry := by
      rw [entry_splitHuge_one, splitStep_two]
    have stillPresent : present ((splitHuge 1 entry).entry (tableIndex 1 v)) := by
      rw [step, present, flag_or_flagsOf inner entry (.inl (by decide))]
      exact isPresent
    have stillHuge : huge ((splitHuge 1 entry).entry (tableIndex 1 v)) := by
      rw [step, huge, flag_or_flagsOf inner entry (.inl (by decide))]
      exact isHuge
    have offset : physOf entry + tableIndex 1 v * pageSize2MB + tableIndex 0 v * pageSize4KB =
        physOf entry + pageOffset 2 v := by
      rw [tableIndex_eq, tableIndex_eq, pageSize4KB, pageSize2MB]
      unfold pageOffset levelSize
      omega
    have last : (splitHuge 0 ((splitHuge 1 entry).entry (tableIndex 1 v))).entry (tableIndex 0 v) =
        splitEntry entry (physOf entry + pageOffset 2 v) := by
      rw [step, entry_splitHuge_zero, physOf_or_flagsOf inner, splitStep_one, offset, splitEntry,
        flagsOf_or_flagsOf inner, ← splitEntry]
    have stays : present (splitEntry entry (physOf entry + pageOffset 2 v)) := by
      rw [present, flag_splitEntry (pageAddress_add page (by decide) aligned) entry (.inl (by decide))]
      exact isPresent
    simp only [pte, stillPresent, stillHuge, last, stays, Bool.not_true, Bool.false_eq_true, if_false,
      if_true]

theorem mappedEntry_eq (v : Nat) (small : level ≤ 2) (aligned : physOf phys % levelSize level = 0) :
    mappedEntry level phys flags v =
      if present flags then leafEntry (physOf phys + pageOffset level v) flags else 0 := by
  unfold mappedEntry
  by_cases isPresent : present flags
  swap
  · rw [if_neg isPresent, if_neg isPresent]
  rw [if_pos isPresent, if_pos isPresent]
  have page : PageAddress (physOf phys + pageOffset level v) :=
    pageAddress_add (pageAddress_physOf phys) small aligned
  cases level with
  | zero =>
    have zero : pageOffset 0 v = 0 := by
      unfold pageOffset levelSize
      omega
    rw [zero, add_zero, leafEntry, leafEntry, physOf_idem]
  | succ level =>
    have samePhys : physOf (leafEntry phys flags ||| pageHuge) = physOf phys := by
      apply eq_of_testBit_eq
      intro i
      rw [testBit_physOf, testBit_or, pageHuge, testBit_two_pow_eq, ← physOf_leafEntry phys flags,
        testBit_physOf]
      by_cases isHuge : (7 : Nat) = i
      · simp [← isHuge]
      · simp [isHuge]
    have split := pte_splitHuge v (show level + 1 = 1 ∨ level + 1 = 2 by omega)
      ((present_huge _).trans ((present_leafEntry phys flags).trans isPresent)) (huge_huge _)
      (by rw [samePhys]; exact aligned)
    rw [samePhys, splitEntry_huge page] at split
    exact split

/-! ### Well-formed tables -/

/-- The page size bits of `mmap` flags never reach an entry. -/
def Clean (entry : Nat) : Prop := entry.testBit 61 = false ∧ entry.testBit 62 = false

/-- The entries of a table that belong to user addresses: the lower half of the directory. -/
def userSlots (level : Nat) : Nat := if level = 3 then 256 else 512

def UserAddr (v : Nat) : Prop := tableIndex 3 v < 256

instance (v : Nat) : Decidable (UserAddr v) := inferInstanceAs (Decidable (_ < _))

theorem UserAddr.index_lt (isUser : UserAddr v) : tableIndex level v < userSlots level := by
  unfold userSlots
  split_ifs with top
  · rw [top]
    exact isUser
  · exact tableIndex_lt level v

theorem userAddr_of_lt (low : v < 2 ^ 47) : UserAddr v := by
  rw [UserAddr, tableIndex_eq]
  omega

/-- For user addresses: no huge bit at the last level; huge pages only at levels 1 and 2, and
aligned. -/
def Wf : (k : Nat) → Table k → Prop
  | 0, t => ∀ i < 512, huge (t.entry i) = false ∧ Clean (t.entry i)
  | k + 1, t => ∀ i < userSlots (k + 1), present (t.entry i) →
      if huge (t.entry i) then
        k + 1 ≤ 2 ∧ physOf (t.entry i) % levelSize (k + 1) = 0 ∧ Clean (t.entry i)
      else Wf k (t.next i)

theorem clean_leafEntry (phys flags : Nat) : Clean (leafEntry phys flags) := by
  constructor <;> rw [testBit_leafEntry] <;> simp

theorem clean_huge (clean : Clean entry) : Clean (entry ||| pageHuge) := by
  obtain ⟨mega, giga⟩ := clean
  constructor <;> rw [testBit_or, pageHuge, testBit_two_pow_eq] <;> simp [mega, giga]

theorem wf_empty (k : Nat) : Wf k (.empty k) := by
  cases k with
  | zero => intro i _; simp [Table.empty, Table.entry, huge, Clean]
  | succ k =>
    intro i _ isPresent
    simp [Table.empty, Table.entry, present] at isPresent

theorem physOf_huge (entry : Nat) : physOf (entry ||| pageHuge) = physOf entry := by
  apply eq_of_testBit_eq
  intro i
  rw [testBit_physOf, testBit_or, pageHuge, testBit_two_pow_eq, testBit_physOf]
  by_cases isHuge : (7 : Nat) = i
  · simp [← isHuge]
  · simp [isHuge]

theorem pageAddress_split {i : Nat} (small : k + 1 ≤ 2) (aligned : physOf entry % levelSize (k + 1) = 0)
    (below : i < 512) : PageAddress (physOf entry + i * splitStep (k + 1)) := by
  obtain ⟨low, high⟩ := pageAddress_physOf entry
  have sizes : levelSize (0 + 1) = 2 ^ 21 ∧ levelSize (1 + 1) = 2 ^ 30 := ⟨rfl, rfl⟩
  obtain rfl | rfl : k = 0 ∨ k = 1 := by omega
  · rw [sizes.1] at aligned
    rw [splitStep_one]
    unfold PageAddress pageSize4KB
    omega
  · rw [sizes.2] at aligned
    rw [splitStep_two]
    unfold PageAddress pageSize2MB
    omega

theorem wf_splitHuge (small : k + 1 ≤ 2) (aligned : physOf entry % levelSize (k + 1) = 0)
    (clean : Clean entry) : Wf k (splitHuge k entry) := by
  obtain rfl | rfl : k = 0 ∨ k = 1 := by omega
  · intro i below
    have inner := pageAddress_split small aligned below
    rw [entry_splitHuge_zero]
    refine ⟨huge_splitEntry inner entry, ?_⟩
    constructor <;> rw [testBit_splitEntry inner, inner.testBit] <;> simp [clean.1, clean.2]
  · intro i below isPresent
    have inner := pageAddress_split small aligned below
    rw [entry_splitHuge_one, physOf_or_flagsOf inner]
    split_ifs with isHuge
    · have sizes : levelSize (1 + 1) = 2 ^ 30 ∧ levelSize (0 + 1) = 2 ^ 21 := ⟨rfl, rfl⟩
      rw [sizes.1] at aligned
      refine ⟨by decide, by rw [splitStep_two, sizes.2, pageSize2MB]; omega, ?_⟩
      constructor <;> rw [testBit_or, testBit_flagsOf, inner.testBit] <;> simp [clean.1, clean.2]
    · exact wf_empty 0

theorem slot_mmapInternal {i : Nat} (t : Table (k + 1)) (virt phys flags : Nat) (other : i ≠ tableIndex (k + 1) virt) :
    (mmapInternal (k + 1) t virt phys flags).entry i = t.entry i ∧
      (mmapInternal (k + 1) t virt phys flags).next i = t.next i := by
  simp only [mmapInternal]
  split_ifs <;> exact ⟨if_neg other, if_neg other⟩

theorem wf_mmapInternal_kernel (phys flags : Nat) (wf : Wf 3 dir)
    (kernel : 256 ≤ tableIndex 3 virt) : Wf 3 (mmapInternal 3 dir virt phys flags) := by
  intro i below
  have different : i ≠ tableIndex 3 virt := by
    have low : i < 256 := below
    omega
  obtain ⟨sameEntry, sameNext⟩ := slot_mmapInternal dir virt phys flags different
  rw [sameEntry, sameNext]
  exact wf i below

/-- `mmap_internal` keeps the tables well formed. -/
theorem wf_mmapInternal_slots (virt phys flags : Nat) (wf : Wf k t)
    (slots : ∀ level ≤ k, tableIndex level virt < userSlots level) (reach : mappedLevel flags ≤ k)
    (aligned : present flags → physOf phys % levelSize (mappedLevel flags) = 0) :
    Wf k (mmapInternal k t virt phys flags) := by
  induction k with
  | zero =>
    intro i below
    simp only [mmapInternal, Table.entry_setLeaf]
    split_ifs
    · exact ⟨huge_leafEntry phys flags, clean_leafEntry phys flags⟩
    · exact wf i below
  | succ k ih =>
    have nodeWf : ∀ entry (next : Table k), (present entry →
        if huge entry then k + 1 ≤ 2 ∧ physOf entry % levelSize (k + 1) = 0 ∧ Clean entry
        else Wf k next) →
        Wf (k + 1) (t.setNode (tableIndex (k + 1) virt) entry next) := by
      intro entry next slot i below
      rw [Table.entry_setNode, Table.next_setNode]
      by_cases here : i = tableIndex (k + 1) virt
      · simpa only [if_pos here] using slot
      · simpa only [if_neg here] using wf i below
    have test := mappedLevel_test reach
    have below : ¬ ((k + 1 = 2 ∧ flags.testBit 62) ∨ (k + 1 = 1 ∧ flags.testBit 61)) →
        mappedLevel flags ≤ k := by
      intro notHere
      rw [test] at notHere
      omega
    have old := wf (tableIndex (k + 1) virt) (slots (k + 1) le_rfl)
    replace ih := fun (next : Table k) wf below => @ih next wf (fun level small => slots level (by omega)) below
    simp only [mmapInternal]
    split_ifs with top notPresent isHuge
    · refine nodeWf _ _ fun isPresent => ?_
      have level := test.mp top
      rw [present_huge, show physOf phys ||| hwFlags flags = leafEntry phys flags from rfl, present_leafEntry]
        at isPresent
      rw [if_pos (huge_huge _), physOf_huge, show physOf phys ||| hwFlags flags = leafEntry phys flags
        from rfl, physOf_leafEntry, ← level]
      exact ⟨by omega, aligned isPresent, clean_huge (clean_leafEntry phys flags)⟩
    · refine nodeWf _ _ fun _ => ?_
      rw [huge_swTableFlags]
      exact ih _ (wf_empty k) (below top)
    · refine nodeWf _ _ fun _ => ?_
      rw [huge_swTableFlags]
      have slot := old (by simpa using notPresent)
      rw [if_pos isHuge] at slot
      exact ih _ (wf_splitHuge slot.1 slot.2.1 slot.2.2) (below top)
    · refine nodeWf _ _ fun _ => ?_
      have slot := old (by simpa using notPresent)
      rw [if_neg isHuge] at slot
      rw [huge_or_swTableFlags, if_neg isHuge]
      exact ih _ slot (below top)

theorem wf_mmapInternal (virt phys flags : Nat) (wf : Wf k t) (isUser : UserAddr virt) (reach : mappedLevel flags ≤ k)
    (aligned : physOf phys % levelSize (mappedLevel flags) = 0) : Wf k (mmapInternal k t virt phys flags) :=
  wf_mmapInternal_slots virt phys flags wf (fun _ _ => isUser.index_lt) reach fun _ => aligned

/-! ### Reading -/

/-- What a walk finds at an address: the entry of a 4 KB page, or of a huge page around it. -/
structure LeafAt (v entry level page : Nat) : Prop where
  isPresent : present entry
  clean : Clean entry
  cases : (level = 0 ∧ huge entry = false ∧ page = entry) ∨
    ((level = 1 ∨ level = 2) ∧ huge entry ∧ physOf entry % levelSize level = 0 ∧
      page = splitEntry entry (physOf entry + pageOffset level v))

theorem getEntryFrom_cases (wf : Wf k t) (slots : ∀ level ≤ k, tableIndex level v < userSlots level) (levelOut : Nat) :
    ((getEntryFrom k t v levelOut).1 = 0 ∧ pte k t v = 0) ∨
      LeafAt v (getEntryFrom k t v levelOut).1 (getEntryFrom k t v levelOut).2 (pte k t v) := by
  induction k generalizing levelOut with
  | zero =>
    simp only [getEntryFrom, pte]
    cases isPresent : present (t.entry (tableIndex 0 v)) with
    | false => exact .inl (by simp)
    | true =>
      obtain ⟨notHuge, clean⟩ := wf _ (tableIndex_lt 0 v)
      exact .inr ⟨by simp [isPresent], by simpa using clean, .inl ⟨by simp, by simpa using notHuge,
        by simp⟩⟩
  | succ k ih =>
    have slot := wf _ (slots (k + 1) le_rfl)
    simp only [getEntryFrom, pte]
    cases isPresent : present (t.entry (tableIndex (k + 1) v)) with
    | false => exact .inl (by simp)
    | true =>
      replace slot := slot isPresent
      cases isHuge : huge (t.entry (tableIndex (k + 1) v)) with
      | true =>
        rw [if_pos isHuge] at slot
        have level : k + 1 = 2 ∨ k + 1 = 1 := by omega
        have split := pte_splitHuge v level.symm isPresent isHuge slot.2.1
        simp only [Bool.not_true, Bool.false_eq_true, if_false, level, and_self, if_true]
        exact .inr ⟨isPresent, slot.2.2, .inr ⟨level.symm, isHuge, slot.2.1, split⟩⟩
      | false =>
        rw [isHuge, if_neg (by decide)] at slot
        simp only [Bool.not_true, Bool.false_eq_true, if_false, and_false]
        exact ih slot (fun level small => slots level (by omega)) (k + 1)

/-- What `paging_get_entry_ext` reads, in terms of `pte`. -/
theorem getEntry_cases (wf : Wf 3 dir) (isUser : UserAddr v) :
    (pagingGetEntry dir v = 0 ∧ pte 3 dir v = 0) ∨
      LeafAt v (pagingGetEntry dir v) (pagingGetEntryExt dir v).2 (pte 3 dir v) :=
  getEntryFrom_cases wf (fun _ _ => isUser.index_lt) 0

theorem LeafAt.page {page : Nat} (found : LeafAt v entry level page) :
    physOf page = physOf entry + pageOffset level v := by
  obtain ⟨rfl, -, rfl⟩ | ⟨size, -, aligned, rfl⟩ := found.cases
  · have zero : pageOffset 0 v = 0 := by
      unfold pageOffset levelSize
      omega
    rw [zero, add_zero]
  · exact physOf_splitEntry (pageAddress_add (pageAddress_physOf entry) (by omega) aligned) entry

theorem LeafAt.flag {page : Nat} (found : LeafAt v entry level page)
    (flag : k < 12 ∧ k ≠ 7 ∨ k = 63) : page.testBit k = entry.testBit k := by
  obtain ⟨rfl, -, rfl⟩ | ⟨size, -, aligned, rfl⟩ := found.cases
  · rfl
  · exact flag_splitEntry (pageAddress_add (pageAddress_physOf entry) (by omega) aligned) entry flag

theorem flag_getEntry (wf : Wf 3 dir) (isUser : UserAddr v) (flag : k < 12 ∧ k ≠ 7 ∨ k = 63) :
    (pagingGetEntry dir v).testBit k = (pte 3 dir v).testBit k := by
  obtain ⟨entry, page⟩ | found := getEntry_cases wf isUser
  · rw [entry, page]
  · exact (found.flag flag).symm

theorem or_offset (bits v : Nat) (aligned : phys % 2 ^ bits = 0) :
    phys ||| (v &&& (2 ^ bits - 1)) = phys + v % 2 ^ bits := by
  rw [Nat.and_two_pow_sub_one_eq_mod]
  obtain ⟨q, rfl⟩ := Nat.dvd_of_mod_eq_zero aligned
  rw [Nat.two_pow_add_eq_or_of_lt (Nat.mod_lt v (Nat.two_pow_pos bits))]

theorem without_offset (bits : Nat) (small : phys < 2 ^ 52)
    (aligned : phys % 2 ^ bits = 0) : without phys (2 ^ bits - 1) = phys := by
  obtain ⟨q, rfl⟩ := Nat.dvd_of_mod_eq_zero aligned
  apply eq_of_testBit_eq
  intro i
  rw [testBit_without, testBit_two_pow_sub_one, Nat.testBit_two_pow_mul]
  by_cases wide : i < 64
  · by_cases low : bits ≤ i
    · have notMask : ¬ i < bits := by omega
      simp [wide, low, notMask]
    · simp [low]
  · have zero : (2 ^ bits * q).testBit i = false :=
      Nat.testBit_lt_two_pow (lt_of_lt_of_le small (Nat.pow_le_pow_right (by decide) (by omega)))
    rw [Nat.testBit_two_pow_mul] at zero
    rw [zero, Bool.false_and]

/-- `vaddr_to_paddr` translates as the entry of the page says. -/
theorem vaddrToPaddr_of_cases (cases : (pagingGetEntry dir v = 0 ∧ pte 3 dir v = 0) ∨
      LeafAt v (pagingGetEntry dir v) (pagingGetEntryExt dir v).2 (pte 3 dir v)) :
    vaddrToPaddr dir v = if present (pte 3 dir v) then physOf (pte 3 dir v) + v % 4096 else 0 := by
  obtain ⟨entry, page⟩ | found := cases
  · have zero : (pagingGetEntryExt dir v).1 = 0 := entry
    rw [vaddrToPaddr, page]
    simp [zero, present]
  · have isPresent : present (pte 3 dir v) :=
      (found.flag (.inl (by decide))).trans found.isPresent
    have nonzero : ¬ (pagingGetEntryExt dir v).1 = 0 := by
      intro zero
      have absurdity := found.isPresent
      rw [show pagingGetEntry dir v = 0 from zero] at absurdity
      simp [present] at absurdity
    have samePage := found.page
    rw [if_pos isPresent, samePage]
    simp only [vaddrToPaddr, if_neg nonzero]
    have page := pageAddress_physOf (pagingGetEntry dir v)
    obtain ⟨level, notHuge, -⟩ | ⟨level, isHuge, aligned, -⟩ := found.cases
    · have notHuge' : huge (pagingGetEntryExt dir v).1 = false := notHuge
      have offset : pageOffset 0 v = 0 := by
        unfold pageOffset levelSize
        omega
      rw [notHuge', if_neg (by decide), level, offset, add_zero]
      exact or_offset 12 v page.1
    · have isHuge' : huge (pagingGetEntryExt dir v).1 := isHuge
      have inside : ∀ bits, 12 ≤ bits → levelSize (pagingGetEntryExt dir v).2 = 2 ^ bits →
          without (physOf (pagingGetEntry dir v)) (2 ^ bits - 1) ||| (v &&& (2 ^ bits - 1)) =
            physOf (pagingGetEntry dir v) + pageOffset (pagingGetEntryExt dir v).2 v + v % 4096 := by
        intro bits wide size
        rw [size] at aligned
        rw [without_offset bits page.2 aligned, or_offset bits v aligned, pageOffset, size]
        have split : v % 4096 = v % 2 ^ bits % 4096 :=
          (mod_mod_of_dvd v (pow_dvd_pow 2 wide)).symm
        omega
      rw [if_pos isHuge']
      obtain level | level := level
      · rw [level, if_neg (by decide), ← level]
        exact inside 21 (by decide) (by rw [level]; rfl)
      · rw [level, if_pos rfl, ← level]
        exact inside 30 (by decide) (by rw [level]; rfl)

/-- `vaddr_to_paddr` gives the frame of the entry and the offset in the page. -/
theorem vaddrToPaddr_spec (wf : Wf 3 dir) (isUser : UserAddr v) :
    vaddrToPaddr dir v = if present (pte 3 dir v) then physOf (pte 3 dir v) + v % 4096 else 0 :=
  vaddrToPaddr_of_cases (getEntry_cases wf isUser)

/-! ### The whole address space -/

/-- Well-formed tables in both halves of the directory. -/
def WfAll (dir : PageDir) : Prop :=
  ∀ i < 512, present (dir.entry i) → huge (dir.entry i) = false ∧ Wf 2 (dir.next i)

theorem wfAll_empty : WfAll (.empty 3) := fun i _ isPresent => by
  simp [Table.empty, Table.entry, present] at isPresent

theorem tableIndex_lt_userSlots (small : level ≤ 2) : tableIndex level v < userSlots level := by
  rw [userSlots, if_neg (by omega)]
  exact tableIndex_lt level v

theorem wfAll_mmapInternal (virt phys flags : Nat) (wf : WfAll dir)
    (aligned : present flags → physOf phys % levelSize (mappedLevel flags) = 0) :
    WfAll (mmapInternal 3 dir virt phys flags) := by
  have reach := mappedLevel_le flags
  have below : ∀ {t : Table 2}, Wf 2 t → Wf 2 (mmapInternal 2 t virt phys flags) := fun wfNext =>
    wf_mmapInternal_slots virt phys flags wfNext (fun _ small => tableIndex_lt_userSlots small) reach aligned
  intro i inside
  by_cases here : i = tableIndex 3 virt
  swap
  · obtain ⟨sameEntry, sameNext⟩ := slot_mmapInternal dir virt phys flags here
    rw [sameEntry, sameNext]
    exact wf i inside
  rw [mmapInternal, if_neg (by omega)]
  cases isPresent : present (dir.entry (tableIndex 3 virt)) with
  | false =>
    simp only [Bool.not_false, if_true, Table.entry_setNode, Table.next_setNode, here, huge_swTableFlags, true_and]
    exact fun _ => below (wf_empty 2)
  | true =>
    obtain ⟨notHuge, wfNext⟩ := wf i inside (here ▸ isPresent)
    rw [here] at notHuge wfNext
    simp only [Bool.not_true, Bool.false_eq_true, if_false, notHuge, Table.entry_setNode, Table.next_setNode, here,
      if_true, huge_or_swTableFlags, true_and]
    exact fun _ => below wfNext

theorem getEntry_cases_all (wf : WfAll dir) (v : Nat) :
    (pagingGetEntry dir v = 0 ∧ pte 3 dir v = 0) ∨
      LeafAt v (pagingGetEntry dir v) (pagingGetEntryExt dir v).2 (pte 3 dir v) := by
  rw [pagingGetEntry, pagingGetEntryExt, getEntryFrom, pte]
  cases isPresent : present (dir.entry (tableIndex 3 v)) with
  | false => exact .inl (by simp)
  | true =>
    obtain ⟨notHuge, wfNext⟩ := wf _ (tableIndex_lt 3 v) isPresent
    simp only [Bool.not_true, Bool.false_eq_true, if_false, notHuge, and_false]
    exact getEntryFrom_cases wfNext (fun _ small => tableIndex_lt_userSlots small) 3

theorem vaddrToPaddr_all (wf : WfAll dir) (v : Nat) :
    vaddrToPaddr dir v = if present (pte 3 dir v) then physOf (pte 3 dir v) + v % 4096 else 0 :=
  vaddrToPaddr_of_cases (getEntry_cases_all wf v)

/-! ### Copy-on-write marks -/

theorem getEntryFrom_level_le (t : Table k) (v levelOut : Nat)
    (found : (getEntryFrom k t v levelOut).1 ≠ 0) : (getEntryFrom k t v levelOut).2 ≤ k := by
  induction k generalizing levelOut with
  | zero =>
    simp only [getEntryFrom] at found ⊢
    split_ifs at found ⊢ with first
    · exact absurd rfl found
    · exact le_rfl
  | succ k ih =>
    simp only [getEntryFrom] at found ⊢
    split_ifs at found ⊢ with first second
    · exact absurd rfl found
    · exact le_rfl
    · exact (ih _ _ found).trans (le_succ k)

theorem getEntryFrom_congr {levelOut : Nat} (found : (getEntryFrom k t v levelOut).1 ≠ 0)
    (same : SameSlot (getEntryFrom k t v levelOut).2 k v w) :
    getEntryFrom k t w levelOut = getEntryFrom k t v levelOut := by
  induction k generalizing levelOut with
  | zero =>
    have index : tableIndex 0 v = tableIndex 0 w := by
      refine same 0 ?_ le_rfl
      simp only [getEntryFrom] at found ⊢
      split_ifs at found ⊢ with isPresent
      · exact absurd rfl found
      · exact le_rfl
    simp only [getEntryFrom, index]
  | succ k ih =>
    have index : tableIndex (k + 1) v = tableIndex (k + 1) w :=
      same (k + 1) (getEntryFrom_level_le t v levelOut found) le_rfl
    simp only [getEntryFrom, ← index] at found same ⊢
    split_ifs at found same ⊢ with first second
    · rfl
    · rfl
    · exact ih found fun j low high => same j low (by omega)

/-- An entry marked copy-on-write, and what it was before. -/
structure Cowed (old new : Nat) : Prop where
  wasPresent : present old
  wasWritable : writable old
  isPresent : present new
  notWritable : writable new = false
  isCow : cow new
  samePhys : physOf new = physOf old
  sameUser : user new = user old
  sameNoExecute : noExecute new = noExecute old

theorem testBit_cowFlags (entry extra k : Nat) (small : k < 61 ∨ k = 63)
    (highOnly : extra = 0 ∨ extra = page1GB ∨ extra = page2MB) :
    (without entry pageWritable ||| pageCow ||| extra).testBit k =
      (entry.testBit k && decide (k ≠ 1) || decide (k = 9)) := by
  have wide : k < 64 := by omega
  have noExtra : extra.testBit k = false := by
    obtain rfl | rfl | rfl := highOnly
    · simp
    · rw [page1GB, testBit_two_pow_eq]; simp; omega
    · rw [page2MB, testBit_two_pow_eq]; simp; omega
  rw [testBit_or, testBit_or, testBit_without, pageWritable, pageCow, testBit_two_pow_eq,
    testBit_two_pow_eq, noExtra]
  by_cases isOne : k = 1
  · simp [isOne]
  · by_cases isNine : k = 9
    · simp [isNine]
    · simp [wide, isOne, isNine, Ne.symm isOne, Ne.symm isNine]

theorem mappedLevel_cowFlags (clean : Clean entry) :
    mappedLevel (without entry pageWritable ||| pageCow ||| 0) = 0 ∧
      mappedLevel (without entry pageWritable ||| pageCow ||| page2MB) = 1 ∧
      mappedLevel (without entry pageWritable ||| pageCow ||| page1GB) = 2 := by
  obtain ⟨mega, giga⟩ := clean
  have base : (without entry pageWritable ||| pageCow).testBit 61 = false ∧
      (without entry pageWritable ||| pageCow).testBit 62 = false := by
    constructor <;> rw [testBit_or, testBit_without, pageCow, testBit_two_pow_eq] <;>
      simp [mega, giga]
  have sizes : page2MB.testBit 61 ∧ page2MB.testBit 62 = false ∧ page1GB.testBit 62 := by
    decide
  refine ⟨?_, ?_, ?_⟩ <;> simp [mappedLevel, testBit_or, base, sizes]

theorem pagingMakeCow_eq {page : Nat} (walk : pagingGetEntryExt dir v = (entry, level))
    (found : LeafAt v entry level page) (isWritable : writable entry) :
    ∃ extra, (extra = 0 ∨ extra = page1GB ∨ extra = page2MB) ∧
      pagingMakeCow dir v = pagingMmap dir v (physOf entry)
        (without entry pageWritable ||| pageCow ||| extra) ∧
      mappedLevel (without entry pageWritable ||| pageCow ||| extra) = level ∧ level ≤ 2 ∧
      physOf entry % levelSize level = 0 := by
  obtain ⟨small, mega, giga⟩ := mappedLevel_cowFlags found.clean
  obtain ⟨rfl, notHuge, -⟩ | ⟨rfl | rfl, isHuge, aligned, -⟩ := found.cases
  · refine ⟨0, .inl rfl, ?_, small, by decide, (pageAddress_physOf entry).1⟩
    simp only [pagingMakeCow, walk, isWritable, notHuge, or_zero]
    rfl
  · refine ⟨page2MB, .inr (.inr rfl), ?_, mega, by decide, aligned⟩
    simp only [pagingMakeCow, walk, isWritable, isHuge]
    rfl
  · refine ⟨page1GB, .inr (.inl rfl), ?_, giga, by decide, aligned⟩
    simp only [pagingMakeCow, walk, isWritable, isHuge]
    rfl

/-- **Marking a page.** Whatever its size, every page is left alone or loses its write permission to
the mark, and the page asked for is not writable afterwards. -/
theorem pagingMakeCow_spec (wf : Wf 3 dir) (isUser : UserAddr v) :
    Wf 3 (pagingMakeCow dir v) ∧
      (∀ w, pte 3 (pagingMakeCow dir v) w = pte 3 dir w ∨
        Cowed (pte 3 dir w) (pte 3 (pagingMakeCow dir v) w)) ∧
      writable (pte 3 (pagingMakeCow dir v) v) = false := by
  have writableSame : writable (pagingGetEntry dir v) = writable (pte 3 dir v) :=
    flag_getEntry wf isUser (.inl (by decide))
  cases isWritable : writable (pagingGetEntry dir v) with
  | false =>
    have unchanged : pagingMakeCow dir v = dir := by
      simp only [pagingMakeCow]
      rw [show writable (pagingGetEntryExt dir v).1 = false from isWritable]
      rfl
    rw [unchanged]
    exact ⟨wf, fun w => .inl rfl, writableSame.symm.trans isWritable⟩
  | true =>
    obtain ⟨zero, -⟩ | found := getEntry_cases wf isUser
    · rw [zero] at isWritable
      simp [writable] at isWritable
    obtain ⟨entry, level, walk⟩ : ∃ entry level, pagingGetEntryExt dir v = (entry, level) := ⟨_, _, rfl⟩
    have entryEq : pagingGetEntry dir v = entry := by rw [pagingGetEntry, walk]
    rw [entryEq, walk] at found
    rw [entryEq] at isWritable
    obtain ⟨extra, highOnly, mapped, levelEq, small, aligned⟩ := pagingMakeCow_eq walk found isWritable
    have bit := fun k small => testBit_cowFlags entry extra k small highOnly
    generalize without entry pageWritable ||| pageCow ||| extra = flags at *
    have isPresent : present flags := by
      rw [present, bit 0 (by decide), show entry.testBit 0 = true from found.isPresent]
      rfl
    have reach : mappedLevel flags ≤ 3 := by omega
    have aligned' : physOf (physOf entry) % levelSize (mappedLevel flags) = 0 := by
      rw [physOf_idem, levelEq, aligned]
    have after : ∀ w, pte 3 (pagingMakeCow dir v) w =
        if SameSlot level 3 v w then leafEntry (physOf entry + pageOffset level w) flags
        else pte 3 dir w := by
      intro w
      rw [mapped, pagingMmap, pte_mmapInternal 3 dir v _ flags w reach, levelEq,
        mappedEntry_eq w small (by rw [physOf_idem, aligned]), if_pos isPresent, physOf_idem]
    have marked : ∀ w, SameSlot level 3 v w → Cowed (pte 3 dir w) (pte 3 (pagingMakeCow dir v) w) := by
      intro w same
      have walkW : pagingGetEntryExt dir w = (entry, level) := by
        rw [← walk]
        refine getEntryFrom_congr ?_ (show SameSlot (pagingGetEntryExt dir v).2 3 v w by rw [walk]; exact same)
        show (pagingGetEntryExt dir v).1 ≠ 0
        rw [walk]
        rintro rfl
        exact absurd found.isPresent (by simp [present])
      have foundW : LeafAt w entry level (pte 3 dir w) := by
        have entryW : pagingGetEntry dir w = entry := by rw [pagingGetEntry, walkW]
        have userW : UserAddr w := by
          rw [UserAddr, ← same 3 (by omega) le_rfl]
          exact isUser
        have cases := getEntry_cases wf userW
        rw [entryW, walkW] at cases
        refine cases.resolve_left ?_
        rintro ⟨rfl, -⟩
        exact absurd found.isPresent (by simp [present])
      have page : PageAddress (physOf entry + pageOffset level w) :=
        pageAddress_add (pageAddress_physOf entry) small aligned
      rw [after, if_pos same]
      exact {
        wasPresent := (foundW.flag (.inl (by decide))).trans found.isPresent
        wasWritable := (foundW.flag (.inl (by decide))).trans isWritable
        isPresent := (present_leafEntry _ _).trans isPresent
        notWritable := by rw [writable_leafEntry, writable, bit 1 (by decide)]; simp
        isCow := by rw [cow_leafEntry, cow, bit 9 (by decide)]; simp
        samePhys := by rw [physOf_leafEntry, page.physOf_eq, foundW.page]
        sameUser := by
          rw [user_leafEntry, user, bit 2 (by decide), user, foundW.flag (.inl (by decide))]
          simp
        sameNoExecute := by
          rw [noExecute, flag_leafEntry _ _ (.inr rfl), bit 63 (by decide), noExecute,
            foundW.flag (.inr rfl)]
          simp }
    refine ⟨?_, fun w => ?_, ?_⟩
    · rw [mapped]
      exact wf_mmapInternal v _ flags wf isUser reach aligned'
    · by_cases same : SameSlot level 3 v w
      · exact .inr (marked w same)
      · rw [after, if_neg same]
        exact .inl rfl
    · exact (marked v fun _ _ _ => rfl).notWritable

/-! ### Mappings of any page -/

theorem rangeFlags (clean : Clean flags)
    (size : s = 0 ∧ extra = 0 ∨ s = 1 ∧ extra = page2MB ∨ s = 2 ∧ extra = page1GB) :
    mappedLevel (flags ||| extra) = s ∧ hwFlags (flags ||| extra) = hwFlags flags ∧
      present (flags ||| extra) = present flags := by
  have sizes : page2MB.testBit 61 ∧ page2MB.testBit 62 = false ∧ page1GB.testBit 62 := by
    decide
  have masked : page2MB &&& pageHwFlag = 0 ∧ page1GB &&& pageHwFlag = 0 := by decide
  have low : page2MB % 2 = 0 ∧ page1GB % 2 = 0 := by decide
  obtain ⟨mega, giga⟩ := clean
  obtain ⟨rfl, rfl⟩ | ⟨rfl, rfl⟩ | ⟨rfl, rfl⟩ := size <;>
    refine ⟨?_, ?_, ?_⟩ <;>
    simp [mappedLevel, hwFlags, present, testBit_or, and_or_distrib_right, mega, giga, sizes,
      masked, low]

theorem physOf_levelSize (small : s ≤ 2) (aligned : phys % levelSize s = 0) : physOf phys % levelSize s = 0 := by
  rw [physOf_eq]
  unfold levelSize at *
  interval_cases s <;> omega

theorem le_tableIndex_kernel (low : 2 ^ 64 - 2 ^ 39 ≤ virt) (high : virt < 2 ^ 64) : 256 ≤ tableIndex 3 virt := by
  rw [tableIndex_eq]
  omega

theorem pte_mmapInternal_kernel (phys flags : Nat) (kernel : 256 ≤ tableIndex 3 virt) (isUser : UserAddr w) :
    pte 3 (mmapInternal 3 dir virt phys flags) w = pte 3 dir w := by
  have reach : mappedLevel flags ≤ 3 := (mappedLevel_le flags).trans (by decide)
  rw [pte_mmapInternal 3 dir virt phys flags w reach, if_neg]
  intro same
  have top := same 3 reach le_rfl
  have below : tableIndex 3 w < 256 := isUser
  omega

theorem wf_mmapInternal_any (virt phys flags : Nat) (wf : Wf 3 dir)
    (aligned : physOf phys % levelSize (mappedLevel flags) = 0) : Wf 3 (mmapInternal 3 dir virt phys flags) := by
  by_cases isUser : UserAddr virt
  · exact wf_mmapInternal virt phys flags wf isUser ((mappedLevel_le flags).trans (by decide)) aligned
  · exact wf_mmapInternal_kernel phys flags wf (Nat.le_of_not_lt isUser)

end Voxia.Cpu
