/-
**The page tables.**

The four levels are nested tables: a `Table k` is the table of level `k`, whose entries lead to tables of level `k -
1`. The frame a table lives in is its own (the frame allocator returns unused frames), so an entry that leads to a
table carries its flags here and the table itself instead of its address. `mmapInternal`, `pagingGetEntryExt`,
`vaddrToPaddr` and `pagingMakeCow` follow `paging.c`; what the tables mean is `pte`.
-/

import Voxia.Machine
import Voxia.Cpu.PageEntry

namespace Voxia.Cpu

/-- A table of level `k`: an entry for every index and, above level 0, the table it leads to. -/
inductive Table : Nat → Type
  | leaf (entry : Nat → Nat) : Table 0
  | node {k : Nat} (entry : Nat → Nat) (next : Nat → Table k) : Table (k + 1)

namespace Table

def entry : {k : Nat} → Table k → Nat → Nat
  | 0, leaf entry => entry
  | _ + 1, node entry _ => entry

def next {k : Nat} : Table (k + 1) → Nat → Table k
  | node _ next => next

def setLeaf (t : Table 0) (i newEntry : Nat) : Table 0 :=
  leaf fun j => if j = i then newEntry else t.entry j

/-- Writing an entry of a higher level, with the table it leads to. -/
def setNode {k : Nat} (t : Table (k + 1)) (i newEntry : Nat) (newNext : Table k) : Table (k + 1) :=
  node (fun j => if j = i then newEntry else t.entry j) fun j => if j = i then newNext else t.next j

def empty : (k : Nat) → Table k
  | 0 => leaf fun _ => 0
  | k + 1 => node (fun _ => 0) fun _ => empty k

theorem entry_setLeaf (t : Table 0) (i j newEntry : Nat) :
    (t.setLeaf i newEntry).entry j = if j = i then newEntry else t.entry j := rfl

theorem entry_setNode {k : Nat} (t : Table (k + 1)) (i j newEntry : Nat) (newNext : Table k) :
    (t.setNode i newEntry newNext).entry j = if j = i then newEntry else t.entry j := rfl

theorem next_setNode {k : Nat} (t : Table (k + 1)) (i j newEntry : Nat) (newNext : Table k) :
    (t.setNode i newEntry newNext).next j = if j = i then newNext else t.next j := rfl

end Table

def tableIndex (level virt : Nat) : Nat := (virt >>> (12 + 9 * level)) &&& 0x1FF

def swTableFlags (flags : Nat) : Nat := pagePresent ||| pageWritable ||| (flags &&& pageUser)

/-- The distance of the pages a huge page of this level is split into. -/
def splitStep (level : Nat) : Nat := if level = 2 then pageSize2MB else pageSize4KB

/-- The table of level `k` that replaces a huge entry of level `k + 1`. -/
def splitHuge : (k : Nat) → (entry : Nat) → Table k
  | 0, entry => .leaf fun i => without ((physOf entry + i * splitStep 1) ||| flagsOf entry) pageHuge
  | k + 1, entry => .node (fun i => (physOf entry + i * splitStep (k + 2)) ||| flagsOf entry)
      fun _ => .empty k

theorem splitStep_one : splitStep 1 = pageSize4KB := if_neg (by decide)

theorem splitStep_two : splitStep 2 = pageSize2MB := if_pos rfl

theorem entry_splitHuge_zero (entry i : Nat) : (splitHuge 0 entry).entry i =
    splitEntry entry (physOf entry + i * splitStep 1) := by
  rw [splitHuge, Table.entry, splitEntry]

theorem entry_splitHuge_one (entry i : Nat) : (splitHuge 1 entry).entry i =
    (physOf entry + i * splitStep 2) ||| flagsOf entry := by
  rw [splitHuge, Table.entry]

/-- `_mmap_internal` from level `k` down. -/
def mmapInternal : (k : Nat) → Table k → (virt phys flags : Nat) → Table k
  | 0, t, virt, phys, flags => t.setLeaf (tableIndex 0 virt) (physOf phys ||| hwFlags flags)
  | k + 1, t, virt, phys, flags =>
    let i := tableIndex (k + 1) virt
    if (k + 1 = 2 ∧ flags.testBit 62) ∨ (k + 1 = 1 ∧ flags.testBit 61) then
      -- a table that was here is no longer referred to
      t.setNode i (physOf phys ||| hwFlags flags ||| pageHuge) (.empty k)
    else if !present (t.entry i) then
      t.setNode i (swTableFlags flags) (mmapInternal k (.empty k) virt phys flags)
    else if huge (t.entry i) then
      t.setNode i (swTableFlags flags) (mmapInternal k (splitHuge k (t.entry i)) virt phys flags)
    else
      t.setNode i (t.entry i ||| swTableFlags flags) (mmapInternal k (t.next i) virt phys flags)

/-- `paging_get_entry_ext` from level `k` down: the entry (0 if there is none) and the level. -/
def getEntryFrom : (k : Nat) → Table k → (vaddr levelOut : Nat) → Nat × Nat
  | 0, t, vaddr, levelOut =>
    let entry := t.entry (tableIndex 0 vaddr)
    if !present entry then (0, levelOut) else (entry, 0)
  | k + 1, t, vaddr, levelOut =>
    let entry := t.entry (tableIndex (k + 1) vaddr)
    if !present entry then (0, levelOut)
    else if (k + 1 = 2 ∨ k + 1 = 1) ∧ huge entry then (entry, k + 1)
    else getEntryFrom k (t.next (tableIndex (k + 1) vaddr)) vaddr (k + 1)

abbrev PageDir := Table 3

variable (dir : PageDir)

def pagingMmap (virt phys flags : Nat) : PageDir := mmapInternal 3 dir virt phys flags

def pagingGetEntryExt (vaddr : Nat) : Nat × Nat := getEntryFrom 3 dir vaddr 0

def pagingGetEntry (vaddr : Nat) : Nat := (pagingGetEntryExt dir vaddr).1

def vaddrToPaddr (vaddr : Nat) : Nat :=
  let (entry, level) := pagingGetEntryExt dir vaddr
  if entry = 0 then 0
  else if huge entry then
    let mask := if level = 2 then 0x3FFFFFFF else 0x1FFFFF
    without (physOf entry) mask ||| (vaddr &&& mask)
  else physOf entry ||| (vaddr &&& 0xFFF)

def pagingMakeCow (virt : Nat) : PageDir :=
  let (entry, level) := pagingGetEntryExt dir virt
  if !writable entry then dir
  else
    let newFlags := without entry pageWritable ||| pageCow
    let newFlags :=
      if huge entry then newFlags ||| (if level = 2 then page1GB else page2MB) else newFlags
    pagingMmap dir virt (physOf entry) newFlags

/-- The loop of `_mmap_range_internal`; `fuel` is the number of 4 KB pages left. -/
def mmapRangeLoop (fuel : Nat) (dir : PageDir) (currVirt currPhys bytesLeft flags : Nat) : PageDir :=
  match fuel with
  | 0 => dir
  | fuel + 1 =>
    if bytesLeft = 0 then dir
    else if pageSize1GB ≤ bytesLeft ∧ currVirt % pageSize1GB = 0 ∧
        (currPhys = 0 ∨ currPhys % pageSize1GB = 0) then
      mmapRangeLoop fuel (mmapInternal 3 dir currVirt currPhys (flags ||| page1GB))
        (u64 (currVirt + pageSize1GB)) (if currPhys ≠ 0 then u64 (currPhys + pageSize1GB) else 0)
        (bytesLeft - pageSize1GB) flags
    else if pageSize2MB ≤ bytesLeft ∧ currVirt % pageSize2MB = 0 ∧
        (currPhys = 0 ∨ currPhys % pageSize2MB = 0) then
      mmapRangeLoop fuel (mmapInternal 3 dir currVirt currPhys (flags ||| page2MB))
        (u64 (currVirt + pageSize2MB)) (if currPhys ≠ 0 then u64 (currPhys + pageSize2MB) else 0)
        (bytesLeft - pageSize2MB) flags
    else
      mmapRangeLoop fuel (mmapInternal 3 dir currVirt currPhys flags)
        (u64 (currVirt + pageSize4KB)) (if currPhys ≠ 0 then u64 (currPhys + pageSize4KB) else 0)
        (bytesLeft - pageSize4KB) flags

def pagingMultipleMmap (virt phys sizeInPages flags : Nat) : PageDir :=
  mmapRangeLoop sizeInPages dir virt phys (u64 (sizeInPages * pageSize4KB)) flags

def pagingMultipleUnmap (virt sizeInPages : Nat) : PageDir :=
  pagingMultipleMmap dir virt 0 sizeInPages 0

/-- `paging_create_page_directory` and `paging_setup`: the upper half is the kernel's. -/
def pagingSetup (kernel : PageDir) : PageDir :=
  .node (fun i => if 256 ≤ i ∧ i < 512 then kernel.entry i else 0)
    fun i => if 256 ≤ i ∧ i < 512 then kernel.next i else .empty 2

/-! ### What the tables mean -/

/-- The 4 KB entry of an address, with the huge pages on its way split; 0 if it is not present. -/
def pte : (k : Nat) → Table k → Nat → Nat
  | 0, t, v =>
    let entry := t.entry (tableIndex 0 v)
    if present entry then entry else 0
  | k + 1, t, v =>
    let entry := t.entry (tableIndex (k + 1) v)
    if !present entry then 0
    else if huge entry then pte k (splitHuge k entry) v
    else pte k (t.next (tableIndex (k + 1) v)) v

/-- Two addresses take the same way through the levels from `s` to `k`. -/
def SameSlot (s k u v : Nat) : Prop := ∀ j, s ≤ j → j ≤ k → tableIndex j u = tableIndex j v

instance (s k u v : Nat) : Decidable (SameSlot s k u v) :=
  decidable_of_iff (∀ j < k + 1, s ≤ j → tableIndex j u = tableIndex j v)
    ⟨fun all j low high => all j (by omega) low, fun same j high low => same j low (by omega)⟩

theorem SameSlot.succ {s k u v : Nat} (low : s ≤ k + 1) :
    SameSlot s (k + 1) u v ↔ tableIndex (k + 1) u = tableIndex (k + 1) v ∧ SameSlot s k u v := by
  constructor
  · intro same
    exact ⟨same (k + 1) low le_rfl, fun j sj jk => same j sj (by omega)⟩
  · rintro ⟨top, same⟩ j sj jk
    obtain rfl | below : j = k + 1 ∨ j ≤ k := by omega
    · exact top
    · exact same j sj below

theorem pte_congr {k u v : Nat} {t : Table k} (same : SameSlot 0 k u v) : pte k t u = pte k t v := by
  induction k with
  | zero => simp only [pte, same 0 le_rfl le_rfl]
  | succ k ih =>
    have below : SameSlot 0 k u v := fun j low high => same j low (by omega)
    simp only [pte, same (k + 1) (by omega) le_rfl, ih below]

theorem pte_empty (k v : Nat) : pte k (.empty k) v = 0 := by
  cases k <;> simp [pte, Table.empty, Table.entry, present]

theorem present_swTableFlags (flags : Nat) : present (swTableFlags flags) := by
  simp [present, swTableFlags, pagePresent, pageWritable, pageUser]

theorem huge_swTableFlags (flags : Nat) : huge (swTableFlags flags) = false := by
  have constant : (pagePresent ||| pageWritable).testBit 7 = false ∧ pageUser.testBit 7 = false := by
    decide
  rw [huge, swTableFlags, Nat.testBit_or, Nat.testBit_and, constant.1, constant.2]
  simp

theorem present_or_swTableFlags (entry flags : Nat) : present (entry ||| swTableFlags flags) := by
  have isPresent : (swTableFlags flags).testBit 0 := present_swTableFlags flags
  rw [present, Nat.testBit_or, isPresent, Bool.or_true]

theorem huge_or_swTableFlags (entry flags : Nat) : huge (entry ||| swTableFlags flags) = huge entry := by
  have notHuge : (swTableFlags flags).testBit 7 = false := huge_swTableFlags flags
  rw [huge, huge, Nat.testBit_or, notHuge, Bool.or_false]

/-! ### Mapping -/

def mappedLevel (flags : Nat) : Nat :=
  if flags.testBit 62 then 2 else if flags.testBit 61 then 1 else 0

theorem mappedLevel_le (flags : Nat) : mappedLevel flags ≤ 2 := by
  unfold mappedLevel
  split_ifs <;> omega

def mappedEntry (level phys flags v : Nat) : Nat :=
  if present flags then
    match level with
    | 0 => leafEntry phys flags
    | k + 1 => pte k (splitHuge k (leafEntry phys flags ||| pageHuge)) v
  else 0

/-- The test of the source at level `k + 1` asks whether the mapping is written there. -/
theorem mappedLevel_test {k flags : Nat} (reach : mappedLevel flags ≤ k + 1) :
    ((k + 1 = 2 ∧ flags.testBit 62) ∨ (k + 1 = 1 ∧ flags.testBit 61)) ↔ mappedLevel flags = k + 1 := by
  unfold mappedLevel at *
  by_cases giga : flags.testBit 62
  · simp_all
    omega
  · by_cases mega : flags.testBit 61 <;> simp_all

theorem present_huge (entry : Nat) : present (entry ||| pageHuge) = present entry := by
  have constant : pageHuge.testBit 0 = false := by decide
  rw [present, present, Nat.testBit_or, constant, Bool.or_false]

theorem huge_huge (entry : Nat) : huge (entry ||| pageHuge) := by
  have constant : pageHuge.testBit 7 := by decide
  rw [huge, Nat.testBit_or, constant, Bool.or_true]

/-- **A mapping changes the addresses of its page and no other.** -/
theorem pte_mmapInternal (k : Nat) (t : Table k) (virt phys flags v : Nat) (reach : mappedLevel flags ≤ k) :
    pte k (mmapInternal k t virt phys flags) v =
      if SameSlot (mappedLevel flags) k virt v then mappedEntry (mappedLevel flags) phys flags v
      else pte k t v := by
  induction k with
  | zero =>
    have level : mappedLevel flags = 0 := by omega
    have same : SameSlot 0 0 virt v ↔ tableIndex 0 v = tableIndex 0 virt := by
      constructor
      · exact fun all => (all 0 le_rfl le_rfl).symm
      · intro equal j _ high
        obtain rfl : j = 0 := by omega
        exact equal.symm
    rw [level]
    by_cases here : tableIndex 0 v = tableIndex 0 virt
    · rw [if_pos (same.mpr here)]
      simp only [pte, mmapInternal, Table.entry_setLeaf, here, if_true, mappedEntry]
      rw [show physOf phys ||| hwFlags flags = leafEntry phys flags from rfl, present_leafEntry]
    · rw [if_neg fun all => here (same.mp all)]
      simp only [pte, mmapInternal, Table.entry_setLeaf, if_neg here]
  | succ k ih =>
    have test := mappedLevel_test reach
    by_cases here : tableIndex (k + 1) v = tableIndex (k + 1) virt
    · by_cases top : mappedLevel flags = k + 1
      · have same : SameSlot (mappedLevel flags) (k + 1) virt v := by
          intro j low high
          obtain rfl : j = k + 1 := by omega
          exact here.symm
        rw [if_pos same, top]
        simp only [pte, mmapInternal, if_pos (test.mpr top), here, Table.entry_setNode, if_true,
          mappedEntry]
        rw [show physOf phys ||| hwFlags flags = leafEntry phys flags from rfl, present_huge,
          huge_huge, present_leafEntry]
        cases present flags <;> simp
      · have below : mappedLevel flags ≤ k := by omega
        have same : SameSlot (mappedLevel flags) (k + 1) virt v ↔ SameSlot (mappedLevel flags) k virt v := by
          rw [SameSlot.succ reach, and_iff_right here.symm]
        simp only [pte, mmapInternal, if_neg fun holds => top (test.mp holds), here, same]
        -- the three ways on: a new table, a split page, the table that is there
        cases isPresent : present (t.entry (tableIndex (k + 1) virt)) with
        | false =>
          simp [Table.entry_setNode, Table.next_setNode, present_swTableFlags, huge_swTableFlags,
            ih _ below, pte_empty]
        | true =>
          cases isHuge : huge (t.entry (tableIndex (k + 1) virt)) with
          | true =>
            simp [Table.entry_setNode, Table.next_setNode, present_swTableFlags, huge_swTableFlags,
              ih _ below]
          | false =>
            simp [Table.entry_setNode, Table.next_setNode, present_or_swTableFlags,
              huge_or_swTableFlags, isHuge, ih _ below]
    · have same : ¬ SameSlot (mappedLevel flags) (k + 1) virt v := fun all =>
        here ((SameSlot.succ reach).mp all).1.symm
      have otherEntry : (mmapInternal (k + 1) t virt phys flags).entry (tableIndex (k + 1) v) =
          t.entry (tableIndex (k + 1) v) := by
        simp only [mmapInternal]
        split_ifs <;> exact if_neg here
      have otherNext : (mmapInternal (k + 1) t virt phys flags).next (tableIndex (k + 1) v) =
          t.next (tableIndex (k + 1) v) := by
        simp only [mmapInternal]
        split_ifs <;> exact if_neg here
      rw [if_neg same]
      simp only [pte, otherEntry, otherNext]

end Voxia.Cpu
