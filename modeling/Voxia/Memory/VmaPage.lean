/-
**The address-space record: areas and zones.**

`struct virtual_memory_page` holds the tree of areas and one list of handed-out ranges (a zone) for
each region. `vma_find_contains` walks the tree to the area around an address;
`vma_lookup_free_vaddr` starts at the end of the last range handed out in a region and moves past
every area it meets. The walks go through pointers, so they carry fuel: `none` is a walk that has not
finished.
-/

import Voxia.Memory.VmaTree

namespace Voxia.Memory

open List

open Lib.Tree (plug toList)
open Voxia.Tree

/-- The regions `vma_lookup_free_vaddr` hands out addresses in. -/
inductive MemVmaRegion
  | a
  | b
  | c
  | kmodule
  | process
  | userMmap
  deriving DecidableEq, Repr

def vmaRegionA : Nat := 0xffffff8000000000

def regionSize : Nat := 0x0000000400000000

def MemVmaRegion.base : MemVmaRegion → Nat
  | a => vmaRegionA
  | b => vmaRegionA + regionSize
  | c => vmaRegionA + 2 * regionSize
  | kmodule => vmaRegionA + 3 * regionSize
  | process => 0x400000
  | userMmap => 0x100000000

/-- `struct virtual_memory_tree_node`: a range that was handed out. -/
structure ZoneRange where
  startAddress : Nat
  endAddress : Nat
  deriving DecidableEq, Repr

structure VirtualMemoryPage where
  tree : VmaTree
  zone : MemVmaRegion → List ZoneRange

def vmaTreeAddLocked (page : VirtualMemoryPage) (region : MemVmaRegion)
    (startAddress endAddress : Nat) : VirtualMemoryPage :=
  { page with zone := fun r =>
      if r = region then ⟨startAddress, endAddress⟩ :: page.zone r else page.zone r }

/-- The zones of a child: `vma_clone_cow` calls `vma_tree_clone` on five of the six. -/
def vmaTreeClone (parent child : VirtualMemoryPage) : VirtualMemoryPage :=
  { child with zone := fun r => if r = .userMmap then child.zone r else parent.zone r }

section Walks

variable (nil : Nat)

/-- The loop of `vma_find_contains` from the node `curr`: the node and the area around `virtAddr`. -/
def findContainsFrom (fuel : Nat) (tree : VmaTree) (curr virtAddr : Nat) : Option (Option (Nat × VirtualMemory)) :=
  match fuel with
  | 0 => none
  | fuel + 1 =>
    if curr = 0 ∨ curr = nil then some none
    else match (tree.heap curr).data with
      | none => some none
      | some vma =>
        if vma.startAddress ≤ virtAddr ∧ virtAddr < vma.endAddress then some (some (curr, vma))
        else if virtAddr < vma.startAddress then
          findContainsFrom fuel tree (tree.heap curr).left virtAddr
        else findContainsFrom fuel tree (tree.heap curr).right virtAddr

def vmaFindContains (fuel : Nat) (page : VirtualMemoryPage) (virtAddr : Nat) : Option (Option (Nat × VirtualMemory)) :=
  findContainsFrom nil fuel page.tree page.tree.root virtAddr

/-- The `for` loop of `vma_lookup_free_vaddr` over the last `count` of `size` pages from `result`: the
end of the first area that contains one of them. -/
def firstCollision (fuel : Nat) (page : VirtualMemoryPage) (result size : Nat) : (count : Nat) → Option (Option Nat)
  | 0 => some none
  | count + 1 => do
    match ← vmaFindContains nil fuel page (u64 (result + (size - (count + 1)) * blockSize)) with
    | some (_, vma) => some (some vma.endAddress)
    | none => firstCollision fuel page result size count

/-- The `while (1)` loop of `vma_lookup_free_vaddr`. -/
def freeVaddrFrom (walkFuel : Nat) (fuel : Nat) (page : VirtualMemoryPage) (result size : Nat) : Option Nat :=
  match fuel with
  | 0 => none
  | fuel + 1 => do
    match ← firstCollision nil walkFuel page result size size with
    | some endAddress => freeVaddrFrom walkFuel fuel page endAddress size
    | none => some result

def vmaLookupFreeVaddr (fuel : Nat) (page : VirtualMemoryPage) (region : MemVmaRegion) (size : Nat) :
    Option (Nat × VirtualMemoryPage) := do
  let first := match page.zone region with
    | [] => region.base
    | curr :: _ => curr.endAddress
  let result ← freeVaddrFrom nil fuel fuel page first size
  some (result, vmaTreeAddLocked page region result (u64 (result + blockSize * size)))

def VirtualMemoryPage.cursor (page : VirtualMemoryPage) (region : MemVmaRegion) : Nat :=
  match page.zone region with
  | [] => region.base
  | curr :: _ => curr.endAddress

end Walks

/-! ### What the walks find -/

def VirtualMemory.Contains (vma : VirtualMemory) (v : Nat) : Prop :=
  vma.startAddress ≤ v ∧ v < vma.endAddress

/-- Areas one after the other: in order of their starts, and each ends before the next begins. -/
def Apart (x y : Cell VirtualMemory) : Prop :=
  x.data.startAddress < y.data.startAddress ∧ x.data.endAddress ≤ y.data.startAddress

/-- Areas in order of their starts, where the earlier one does not go on behind the later one. This is all
the walk needs: past the start of the later area, the earlier one holds no address of its own. -/
def Staggered (x y : Cell VirtualMemory) : Prop :=
  x.data.startAddress < y.data.startAddress ∧
    x.data.endAddress ≤ max y.data.startAddress y.data.endAddress

theorem Apart.staggered {x y : Cell VirtualMemory} (apart : Apart x y) : Staggered x y :=
  ⟨apart.1, le_max_of_le_left apart.2⟩

variable {nil : Nat} {tree : VmaTree}

variable {fuel virtAddr : Nat} {ctx : Path VirtualMemory} {t : CellTree VirtualMemory}

/-- The search finds the area of an address, or there is none. -/
theorem findContainsFrom_spec {result : Option (Nat × VirtualMemory)} (rep : RepTree nil tree (plug ctx t))
    (nonzero : 0 ∉ ptrs t) (apart : t.toList.Pairwise Staggered)
    (returned : findContainsFrom nil fuel tree (addr nil t) virtAddr = some result) :
    (result = none ∧ ∀ x ∈ t.toList, ¬ x.data.Contains virtAddr) ∨
      ∃ x ∈ t.toList, result = some (x.ptr, x.data) ∧ x.data.Contains virtAddr := by
  induction t generalizing ctx fuel with
  | leaf =>
    cases fuel with
    | zero => exact absurd returned (by simp [findContainsFrom])
    | succ fuel =>
      rw [addr, findContainsFrom, if_pos (.inr rfl), Option.some.injEq] at returned
      exact .inl ⟨returned.symm, by simp [toList]⟩
  | node c l x r ihl ihr =>
    cases fuel with
    | zero => exact absurd returned (by simp [findContainsFrom])
    | succ fuel =>
      obtain ⟨notNil, data, near, far, atLeft, atRight⟩ := rep.parts
      obtain ⟨notZero, zeroL, zeroR⟩ := not_mem_ptrs_node.mp nonzero
      have inside : x ∈ (Lib.Tree.node c l x r).toList := by simp [toList]
      rw [toList, pairwise_append, pairwise_cons] at apart
      obtain ⟨apartL, ⟨afterX, apartR⟩, beforeX⟩ := apart
      rw [addr, findContainsFrom, if_neg (by simp [notZero.symm, notNil]), data] at returned
      simp only at returned
      by_cases here : x.data.startAddress ≤ virtAddr ∧ virtAddr < x.data.endAddress
      · rw [if_pos here, Option.some.injEq] at returned
        exact .inr ⟨x, inside, returned.symm, here⟩
      rw [if_neg here] at returned
      by_cases goLeft : virtAddr < x.data.startAddress
      · rw [if_pos goLeft, near] at returned
        obtain ⟨isNone, absent⟩ | ⟨y, member, found⟩ := ihl atLeft zeroL apartL returned
        · refine .inl ⟨isNone, fun y member contains => ?_⟩
          rw [toList, mem_append, mem_cons] at member
          obtain left | rfl | right := member
          · exact absent y left contains
          · exact here contains
          · have later := (afterX y right).1
            have low := contains.1
            omega
        · exact .inr ⟨y, by simp [toList, member], found⟩
      · rw [if_neg goLeft, far] at returned
        obtain ⟨isNone, absent⟩ | ⟨y, member, found⟩ := ihr atRight zeroR apartR returned
        · refine .inl ⟨isNone, fun y member contains => ?_⟩
          rw [toList, mem_append, mem_cons] at member
          obtain left | rfl | right := member
          · have earlier := (beforeX y left x mem_cons_self).2
            have high := contains.2
            rcases le_max_iff.mp earlier with below | below <;> omega
          · exact here contains
          · exact absent y right contains
        · exact .inr ⟨y, by simp [toList, member], found⟩

theorem findContainsFrom_total (rep : RepTree nil tree (plug ctx t)) (enough : t.toList.length < fuel) :
    ∃ result, findContainsFrom nil fuel tree (addr nil t) virtAddr = some result := by
  induction t generalizing ctx fuel with
  | leaf =>
    obtain ⟨fuel, rfl⟩ := Nat.exists_eq_succ_of_ne_zero (Nat.ne_zero_of_lt enough)
    exact ⟨none, by rw [addr, findContainsFrom, if_pos (.inr rfl)]⟩
  | node c l x r ihl ihr =>
    obtain ⟨fuel, rfl⟩ := Nat.exists_eq_succ_of_ne_zero (Nat.ne_zero_of_lt enough)
    obtain ⟨notNil, data, near, far, atLeft, atRight⟩ := rep.parts
    rw [toList, length_append, length_cons] at enough
    by_cases null : x.ptr = 0
    · exact ⟨none, by rw [addr, findContainsFrom, if_pos (.inl null)]⟩
    rw [addr, findContainsFrom, if_neg (by simp [null, notNil]), data]
    simp only
    split_ifs
    · exact ⟨_, rfl⟩
    · rw [near]
      exact ihl atLeft (by omega)
    · rw [far]
      exact ihr atRight (by omega)

section Search

variable {page : VirtualMemoryPage} {t : CellTree VirtualMemory}

def PagesFree (t : CellTree VirtualMemory) (result size : Nat) : Prop :=
  ∀ i < size, ∀ x ∈ t.toList, ¬ x.data.Contains (u64 (result + i * blockSize))

variable {fuel result size walkFuel free : Nat}

/-- A round of the search ends with a free range or at the end of an area around one of the pages. -/
theorem firstCollision_spec {count : Nat} {found : Option Nat} (rep : RepTree nil page.tree t) (nonzero : 0 ∉ ptrs t)
    (apart : t.toList.Pairwise Staggered)
    (small : count ≤ size) (returned : firstCollision nil fuel page result size count = some found) :
    (found = none ∧ ∀ i, size - count ≤ i → i < size → ∀ x ∈ t.toList,
        ¬ x.data.Contains (u64 (result + i * blockSize))) ∨
      ∃ x ∈ t.toList, found = some x.data.endAddress ∧
        ∃ i < size, x.data.Contains (u64 (result + i * blockSize)) := by
  induction count with
  | zero =>
    rw [firstCollision, Option.some.injEq] at returned
    exact .inl ⟨returned.symm, fun i low high => absurd high (by omega)⟩
  | succ count ih =>
    simp only [firstCollision, bind_eq_some] at returned
    obtain ⟨area, walked, returned⟩ := returned
    have whole : RepTree nil page.tree (plug [] t) := rep
    rw [vmaFindContains, rep.root] at walked
    obtain ⟨rfl, absent⟩ | ⟨x, member, rfl, contains⟩ := findContainsFrom_spec whole nonzero apart walked
    · obtain ⟨isNone, free⟩ | collision := ih (by omega) returned
      · refine .inl ⟨isNone, fun i low high => ?_⟩
        obtain rfl | later : i = size - (count + 1) ∨ size - count ≤ i := by omega
        · exact absent
        · exact free i later high
      · exact .inr collision
    · exact .inr ⟨x, member, (Option.some.inj returned).symm, size - (count + 1), by omega, contains⟩

theorem freeVaddrFrom_spec (rep : RepTree nil page.tree t) (nonzero : 0 ∉ ptrs t) (apart : t.toList.Pairwise Staggered)
    (returned : freeVaddrFrom nil walkFuel fuel page result size = some free) :
    PagesFree t free size ∧ (free = result ∨ ∃ x ∈ t.toList, free = x.data.endAddress) := by
  induction fuel generalizing result with
  | zero => exact absurd returned (by simp [freeVaddrFrom])
  | succ fuel ih =>
    simp only [freeVaddrFrom, bind_eq_some] at returned
    obtain ⟨found, round, returned⟩ := returned
    obtain ⟨rfl, noCollision⟩ | ⟨x, member, rfl, -⟩ :=
      firstCollision_spec rep nonzero apart le_rfl round
    · obtain rfl := Option.some.inj returned
      exact ⟨fun i below => noCollision i (by omega) below, .inl rfl⟩
    · obtain ⟨noCollision, rfl | later⟩ := ih returned
      · exact ⟨noCollision, .inr ⟨x, member, rfl⟩⟩
      · exact ⟨noCollision, .inr later⟩

/-- The search does not go past a free range: areas that meet the pages in front of it end before it. -/
theorem freeVaddrFrom_le {start : Nat} (rep : RepTree nil page.tree t) (nonzero : 0 ∉ ptrs t)
    (apart : t.toList.Pairwise Staggered)
    (whole : ∀ x ∈ t.toList, x.data.endAddress % blockSize = 0) (aligned : result % blockSize = 0)
    (before : result ≤ free) (word : free + size * blockSize ≤ 2 ^ 64)
    (room : ∀ x ∈ t.toList, ∀ v, free ≤ v → v < free + size * blockSize → ¬ x.data.Contains v)
    (returned : freeVaddrFrom nil walkFuel fuel page result size = some start) :
    result ≤ start ∧ start ≤ free ∧ start % blockSize = 0 := by
  induction fuel generalizing result with
  | zero => exact absurd returned (by simp [freeVaddrFrom])
  | succ fuel ih =>
    simp only [freeVaddrFrom, bind_eq_some] at returned
    obtain ⟨found, round, returned⟩ := returned
    obtain ⟨rfl, -⟩ | ⟨x, member, rfl, i, small, contains⟩ :=
      firstCollision_spec rep nonzero apart le_rfl round
    · obtain rfl := Option.some.inj returned
      exact ⟨le_rfl, before, aligned⟩
    · have inside : i * blockSize < size * blockSize := Nat.mul_lt_mul_of_pos_right small (by decide)
      rw [u64_of_lt (by omega)] at contains
      obtain ⟨low, high⟩ := contains
      -- otherwise the area holds the first address of the free range, or its own first address is in it
      have ends : x.data.endAddress ≤ free := by
        by_contra beyond
        refine room x member (max x.data.startAddress free) (le_max_right _ _) ?_ ⟨le_max_left _ _, ?_⟩ <;>
          rw [max_def] <;> split_ifs <;> omega
      obtain ⟨first, last, page⟩ := ih (whole x member) ends returned
      exact ⟨by omega, last, page⟩

theorem PagesFree.all {v : Nat} (free : PagesFree t result size) (aligned : result % blockSize = 0)
    (word : result + size * blockSize ≤ 2 ^ 64) (low : result ≤ v) (high : v < result + size * blockSize)
    {x : Cell VirtualMemory} (member : x ∈ t.toList) (start : x.data.startAddress % blockSize = 0) :
    ¬ x.data.Contains v := by
  rintro ⟨first, last⟩
  unfold blockSize at *
  refine free ((v - result) / 4096) (by omega) x member ?_
  have address : result + (v - result) / 4096 * blockSize = v / 4096 * 4096 := by
    unfold blockSize
    omega
  rw [address, u64_of_lt (by omega)]
  exact ⟨by omega, by omega⟩

/-- The lookup searches from the cursor of the region on. -/
theorem vmaLookupFreeVaddr_found {region : MemVmaRegion} {page' : VirtualMemoryPage}
    (returned : vmaLookupFreeVaddr nil fuel page region size = some (result, page')) :
    freeVaddrFrom nil fuel fuel page (page.cursor region) size = some result ∧
      page' = vmaTreeAddLocked page region result (u64 (result + blockSize * size)) := by
  simp only [vmaLookupFreeVaddr, bind_eq_some, Option.some.injEq, Prod.mk.injEq] at returned
  obtain ⟨free, found, rfl, rfl⟩ := returned
  exact ⟨found, rfl⟩

end Search

end Voxia.Memory
