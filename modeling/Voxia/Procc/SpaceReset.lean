/-
**Emptying and copying an address space.**

`vma_unmap_all` gives back every area and the reserved ranges, and `vma_clone_cow` copies both to a child. Each lists
the zones by hand and leaves the one for user mappings out; the copy also leaves out areas that are empty or have a
million pages or more. Both return from every address space.
-/

import Voxia.Exec.RunProcess
import Voxia.Memory.VmaRun
import Voxia.Procc.CowFork
import Voxia.Sys.MemoryCallsRun

namespace Voxia.Procc

open List

open Lib.Tree (plug)
open Cpu Memory Voxia.Tree

variable {nil : Nat}

/-! ### Emptying -/

/-- What `vma_unmap_all` leaves: no area and no range in the zones it frees, so that a lookup there answers as
it does in a space that `create_vmm_page` returns. -/
structure Emptied (nil : Nat) (page : VirtualMemoryPage) : Prop where
  areas : ∀ vma, ¬ Sys.Registered nil page.tree vma
  zones : ∀ region, region ≠ .userMmap → page.zone region = []
  lookups : ∀ region, region ≠ .userMmap → ∀ fuel size,
    (vmaLookupFreeVaddr nil fuel page region size).map Prod.fst =
      (vmaLookupFreeVaddr nil fuel ⟨createVmmPage nil page.tree.heap, fun _ => []⟩ region size).map Prod.fst

variable {fuel : Nat} {ctx : Path VirtualMemory} {t u : CellTree VirtualMemory} {vma : VirtualMemory}
  {areas areas' l : List VirtualMemory} {c : Clone} {slab : List Nat}

theorem vmaUnmapAllRecursive_total {tree : VmaTree} (rep : RepTree nil tree (plug ctx t))
    (enough : t.toList.length < fuel)
    (dir : PageDir) : ∃ dir', Exec.vmaUnmapAllRecursive nil fuel tree (addr nil t) dir = some dir' := by
  induction t generalizing ctx fuel dir with
  | leaf =>
    obtain ⟨fuel, rfl⟩ := Nat.exists_eq_succ_of_ne_zero (Nat.ne_zero_of_lt enough)
    exact ⟨dir, by rw [addr, Exec.vmaUnmapAllRecursive, if_pos (.inl rfl)]⟩
  | node color l x r ihl ihr =>
    obtain ⟨fuel, rfl⟩ := Nat.exists_eq_succ_of_ne_zero (Nat.ne_zero_of_lt enough)
    obtain ⟨notNil, data, near, far, left, right⟩ := rep.parts
    rw [Lib.Tree.toList, length_append, length_cons] at enough
    by_cases null : x.ptr = 0
    · exact ⟨dir, by rw [addr, Exec.vmaUnmapAllRecursive, if_pos (.inr null)]⟩
    have leftEnough : l.toList.length < fuel := by omega
    have rightEnough : r.toList.length < fuel := by omega
    obtain ⟨afterLeft, leftResult⟩ := ihl left leftEnough dir
    obtain ⟨afterRight, rightResult⟩ := ihr right rightEnough afterLeft
    rw [addr, Exec.vmaUnmapAllRecursive, if_neg (by simp [null, notNil]), near, far, data]
    simp only [leftResult, rightResult, Option.bind_eq_bind, Option.bind_some]
    exact ⟨_, rfl⟩

theorem freeVaddrFrom_congr {page page' : VirtualMemoryPage} (same : page.tree = page'.tree)
    (walkFuel fuel result size : Nat) :
    freeVaddrFrom nil walkFuel fuel page result size = freeVaddrFrom nil walkFuel fuel page' result size := by
  have rounds : ∀ result count, firstCollision nil walkFuel page result size count =
      firstCollision nil walkFuel page' result size count := by
    intro result count
    induction count with
    | zero => rfl
    | succ count ih => simp only [firstCollision, vmaFindContains, same, ih]
  induction fuel generalizing result with
  | zero => rfl
  | succ fuel ih => simp only [freeVaddrFrom, rounds, ih]

theorem not_registered_of_root {tree : VmaTree} (root : tree.root = nil) (vma : VirtualMemory) :
    ¬ Sys.Registered nil tree vma := by
  rintro ⟨t, rep, x, member, -⟩
  have here := root.symm.trans rep.root
  cases t with
  | leaf => exact absurd member not_mem_nil
  | node color l y r => exact rep.fresh (here ▸ mem_map_of_mem (by simp [Lib.Tree.toList]))

theorem vmaUnmapAll_emptied {s : Sys.UserSpace} (rep : RepTree nil s.vmPage.tree t) (enough : t.toList.length < fuel) :
    ∃ s', Exec.vmaUnmapAll nil fuel s = some s' ∧ Emptied nil s'.vmPage := by
  have whole : RepTree nil s.vmPage.tree (plug [] t) := rep
  obtain ⟨dir, walked⟩ := vmaUnmapAllRecursive_total whole enough s.page
  rw [← rep.root] at walked
  refine ⟨_, by rw [Exec.vmaUnmapAll, walked]; rfl, not_registered_of_root rfl,
    fun region other => if_neg other, ?_⟩
  · intro region other fuel' size
    have zone : (fun r => if r = MemVmaRegion.userMmap then s.vmPage.zone r else []) region = [] := if_neg other
    have search : ∀ result, freeVaddrFrom nil fuel' fuel'
        ⟨{ s.vmPage.tree with root := nil }, fun r => if r = .userMmap then s.vmPage.zone r else []⟩ result size =
        freeVaddrFrom nil fuel' fuel' ⟨createVmmPage nil s.vmPage.tree.heap, fun _ => []⟩ result size := by
      intro result
      apply freeVaddrFrom_congr
      rfl
    simp only [vmaLookupFreeVaddr, zone, search]
    cases freeVaddrFrom nil fuel' fuel' ⟨createVmmPage nil s.vmPage.tree.heap, fun _ => []⟩ region.base size <;> rfl

/-! ### Copying -/

/-- The test of `vma_clone_cow_recursive`. -/
def Copyable (vma : VirtualMemory) : Prop := vma.startAddress < vma.endAddress ∧ areaPages vma < 1000000

instance (vma : VirtualMemory) : Decidable (Copyable vma) := inferInstanceAs (Decidable (_ ∧ _))

structure SameArea (vma copy : VirtualMemory) : Prop where
  startAddress : copy.startAddress = vma.startAddress
  endAddress : copy.endAddress = vma.endAddress
  physAddress : copy.physAddress = vma.physAddress
  flags : copy.flags = vma.flags

def copyOf (vma : VirtualMemory) : VirtualMemory :=
  newArea vma.physAddress vma.startAddress (vma.endAddress - vma.startAddress) vma.flags

theorem sameArea_copyOf (copyable : Copyable vma) : SameArea vma (copyOf vma) := by
  refine ⟨rfl, ?_, rfl, rfl⟩
  have word := vma.endWord
  have inOrder := copyable.1
  show u64 (vma.startAddress + (vma.endAddress - vma.startAddress)) = vma.endAddress
  rw [u64_of_lt (by omega)]
  omega

def copyInto (areas : List VirtualMemory) (vma : VirtualMemory) : List VirtualMemory :=
  if Copyable vma then withArea areas (copyOf vma) else areas

theorem copyInto_perm (perm : areas.Perm areas') (vma : VirtualMemory) :
    (copyInto areas vma).Perm (copyInto areas' vma) := by
  unfold copyInto
  split_ifs
  · exact withArea_perm perm _
  · exact perm

theorem foldl_copyInto_perm (l : List VirtualMemory)
    (perm : areas.Perm areas') : (l.foldl copyInto areas).Perm (l.foldl copyInto areas') := by
  induction l generalizing areas areas' with
  | nil => exact perm
  | cons vma l ih => exact ih (copyInto_perm perm vma)

theorem subset_foldl_copyInto (l areas : List VirtualMemory) : areas ⊆ l.foldl copyInto areas := by
  induction l generalizing areas with
  | nil => exact List.Subset.refl _
  | cons vma l ih =>
    refine List.Subset.trans ?_ (ih (copyInto areas vma))
    unfold copyInto withArea
    split_ifs
    · exact List.Subset.refl _
    · exact subset_cons_self _ _
    · exact List.Subset.refl _

theorem mem_foldl_copyInto (sorted : (l.map VirtualMemory.startAddress).Pairwise (· < ·)) (member : vma ∈ l)
    (copyable : Copyable vma)
    (free : vma.startAddress ∉ areas.map VirtualMemory.startAddress) : copyOf vma ∈ l.foldl copyInto areas := by
  induction l generalizing areas with
  | nil => exact absurd member not_mem_nil
  | cons first l ih =>
    rw [map_cons, pairwise_cons] at sorted
    obtain rfl | later := mem_cons.mp member
    · refine subset_foldl_copyInto l (copyInto areas vma) ?_
      rw [copyInto, if_pos copyable, withArea, if_neg (by exact free)]
      exact mem_cons_self
    · refine ih sorted.2 later ?_
      have different : vma.startAddress ≠ first.startAddress := by
        have before := sorted.1 _ (mem_map_of_mem later)
        omega
      unfold copyInto withArea
      split_ifs
      · exact free
      · exact not_mem_cons_of_ne_of_not_mem different free
      · exact free

/-- The child's tree holds `u`, and the slab cache has yet to return nodes that are not in it. -/
structure CopyState (nil : Nat) (c : Clone) (u : CellTree VirtualMemory) : Prop where
  holds : VmaHolds nil c.childVm.tree u
  nodup : c.slab.Nodup
  unused : ∀ n ∈ c.slab, n ≠ nil ∧ n ∉ ptrs u

structure Copied (nil : Nat) (c : Clone) (u : CellTree VirtualMemory) (l : List VirtualMemory) (c' : Clone)
    (u' : CellTree VirtualMemory) : Prop where
  state : CopyState nil c' u'
  areas : (u'.toList.map Cell.data).Perm (l.foldl copyInto (u.toList.map Cell.data))
  zone : c'.childVm.zone = c.childVm.zone
  slab : c.slab.length ≤ c'.slab.length + l.length
  size : u'.toList.length ≤ u.toList.length + l.length

theorem Copied.refl (state : CopyState nil c u) : Copied nil c u [] c u :=
  ⟨state, List.Perm.refl _, rfl, Nat.le_refl _, Nat.le_refl _⟩

theorem Copied.trans {c' c'' : Clone} {u' u'' : CellTree VirtualMemory} {l' : List VirtualMemory}
    (first : Copied nil c u l c' u') (second : Copied nil c' u' l' c'' u'') : Copied nil c u (l ++ l') c'' u'' := by
  refine ⟨second.state, ?_, second.zone.trans first.zone, ?_, ?_⟩
  · rw [foldl_append]
    exact second.areas.trans (foldl_copyInto_perm l' first.areas)
  · have one := first.slab
    have two := second.slab
    rw [length_append]
    omega
  · have one := first.size
    have two := second.size
    rw [length_append]
    omega

theorem cloneCowArea_of {parent child : PageDir} {childVm : VirtualMemoryPage} {node : Nat} {tree : VmaTree}
    (copyable : Copyable vma)
    (registered : vmaRegisterLocked nil fuel childVm.tree node vma.physAddress vma.startAddress
      (vma.endAddress - vma.startAddress) vma.flags = some tree) :
    ∃ parent' child', cloneCowArea nil fuel ⟨parent, child, childVm, node :: slab⟩ vma =
      some ⟨parent', child', { childVm with tree := tree }, slab⟩ := by
  rw [cloneCowArea, if_pos (show vma.startAddress < vma.endAddress ∧ areaPages vma < 1000000 from copyable)]
  simp only [registered, Option.bind_eq_bind, Option.bind_some]
  exact ⟨_, _, rfl⟩

/-- One area is copied into the child. -/
theorem CopyState.area (state : CopyState nil c u) (vma : VirtualMemory) (enough : u.toList.length < fuel)
    (nodes : 0 < c.slab.length) : ∃ c' u', cloneCowArea nil fuel c vma = some c' ∧ Copied nil c u [vma] c' u' := by
  by_cases copyable : Copyable vma
  · obtain ⟨parent, child, childVm, slab⟩ := c
    cases slab with
    | nil => exact absurd nodes (by simp)
    | cons node slab =>
      obtain ⟨notNil, unused⟩ := state.unused node mem_cons_self
      obtain ⟨fresh, nodup⟩ := nodup_cons.mp state.nodup
      obtain ⟨tree, u', registered, holds, areas, ptrsPerm⟩ := state.holds.withArea vma.physAddress
        vma.startAddress (vma.endAddress - vma.startAddress) vma.flags unused notNil enough
      have inside : ∀ n, n ∈ ptrs u' → n = node ∨ n ∈ ptrs u := by
        intro n member
        rw [ptrsPerm.mem_iff] at member
        split_ifs at member
        · exact .inr member
        · exact mem_cons.mp member
      have copied : (u'.toList.map Cell.data).Perm (copyInto (u.toList.map Cell.data) vma) := by
        rw [copyInto, if_pos copyable]
        exact areas
      obtain ⟨parent', child', returned⟩ := cloneCowArea_of copyable registered
      refine ⟨_, u', returned, ⟨holds, nodup, fun n member => ?_⟩, copied, rfl, by simp, ?_⟩
      · obtain ⟨otherNil, other⟩ := state.unused n (mem_cons_of_mem _ member)
        refine ⟨otherNil, fun wrong => ?_⟩
        obtain rfl | old := inside n wrong
        · exact fresh member
        · exact other old
      · rw [← length_map Cell.data, copied.length_eq, copyInto, if_pos copyable, withArea]
        split_ifs <;> simp
  · refine ⟨c, u, if_neg copyable, state, ?_, rfl, by simp, by simp⟩
    show (u.toList.map Cell.data).Perm (copyInto (u.toList.map Cell.data) vma)
    rw [copyInto, if_neg copyable]

/-- **The areas of a subtree**, in order. -/
theorem CopyState.tree {tree : VmaTree} (rep : RepTree nil tree (plug ctx t)) (notNull : 0 ∉ ptrs t)
    (state : CopyState nil c u) (nodes : t.toList.length ≤ c.slab.length)
    (enough : 2 * t.toList.length + u.toList.length < fuel) :
    ∃ c' u', vmaCloneCowRecursive nil tree fuel (addr nil t) c = some c' ∧
      Copied nil c u (t.toList.map Cell.data) c' u' := by
  induction t generalizing ctx c u fuel with
  | leaf =>
    obtain ⟨fuel, rfl⟩ := Nat.exists_eq_succ_of_ne_zero (Nat.ne_zero_of_lt enough)
    exact ⟨c, u, by rw [addr, vmaCloneCowRecursive, if_pos (.inl rfl)], .refl state⟩
  | node color l x r ihl ihr =>
    obtain ⟨fuel, rfl⟩ := Nat.exists_eq_succ_of_ne_zero (Nat.ne_zero_of_lt enough)
    obtain ⟨notNil, data, near, far, left, right⟩ := rep.parts
    obtain ⟨notZero, zeroL, zeroR⟩ := not_mem_ptrs_node.mp notNull
    rw [Lib.Tree.toList, length_append, length_cons] at enough nodes
    have fuelL : 2 * l.toList.length + u.toList.length < fuel := by omega
    obtain ⟨c₁, u₁, leftResult, first⟩ := ihl left zeroL state (by omega) fuelL
    have slab₁ := first.slab
    have size₁ := first.size
    rw [length_map] at slab₁ size₁
    have fuelX : u₁.toList.length < fuel := by omega
    obtain ⟨c₂, u₂, areaResult, second⟩ := first.state.area x.data fuelX (by omega)
    have slab₂ := second.slab
    have size₂ := second.size
    rw [length_singleton] at slab₂ size₂
    have fuelR : 2 * r.toList.length + u₂.toList.length < fuel := by omega
    obtain ⟨c₃, u₃, rightResult, third⟩ := ihr right zeroR second.state (by omega) fuelR
    refine ⟨c₃, u₃, ?_, ?_⟩
    · rw [addr, vmaCloneCowRecursive, if_neg (by simp [notZero.symm, notNil]), near, far, data]
      simp only [leftResult, cloneCowNode, areaResult, rightResult, Option.bind_eq_bind, Option.bind_some]
    · have all := (first.trans second).trans third
      rw [append_assoc] at all
      rw [Lib.Tree.toList, map_append, map_cons]
      exact all

/-- What a child has after the copy: the ranges of the zones that are copied, and the areas that are let
through, if their starts were free in it. -/
structure CopiedSpace (nil : Nat) (parent before child : VirtualMemoryPage) : Prop where
  zones : ∀ region, region ≠ .userMmap → child.zone region = parent.zone region
  areas : ∀ vma, Sys.Registered nil parent.tree vma → vma.startAddress < vma.endAddress →
    areaPages vma < 1000000 →
    (∀ old, Sys.Registered nil before.tree old → old.startAddress ≠ vma.startAddress) →
      ∃ copy, Sys.Registered nil child.tree copy ∧ SameArea vma copy

/-- The child gets every area of the parent. -/
theorem vmaCloneCow_copied {parent child : VirtualMemoryPage} (childDir parentDir : PageDir)
    (holds : VmaHolds nil parent.tree t) (notNull : 0 ∉ ptrs t)
    (childHolds : VmaHolds nil child.tree u) (nodup : slab.Nodup)
    (unused : ∀ n ∈ slab, n ≠ nil ∧ n ∉ ptrs u) (nodes : t.toList.length ≤ slab.length)
    (enough : 2 * t.toList.length + u.toList.length < fuel) :
    ∃ c, vmaCloneCow nil fuel parent child childDir parentDir slab = some c ∧
      CopiedSpace nil parent child c.childVm := by
  have whole : RepTree nil parent.tree (plug [] t) := holds.rep
  have state : CopyState nil ⟨parentDir, childDir, vmaTreeClone parent child, slab⟩ u :=
    ⟨childHolds, nodup, unused⟩
  obtain ⟨c, u', returned, copied⟩ := state.tree whole notNull nodes enough
  rw [← holds.rep.root] at returned
  refine ⟨c, returned, fun region other => ?_, ?_⟩
  · rw [copied.zone]
    exact if_neg other
  · rintro vma ⟨t', rep', x, member, rfl⟩ inOrder small free
    obtain rfl := rep'.unique holds.rep
    have sorted : ((t'.toList.map Cell.data).map VirtualMemory.startAddress).Pairwise (· < ·) := by
      rw [map_map]
      exact holds.sorted
    have notTaken : x.data.startAddress ∉ (u.toList.map Cell.data).map VirtualMemory.startAddress := by
      intro taken
      obtain ⟨old, inside, same⟩ := mem_map.mp taken
      obtain ⟨y, member', rfl⟩ := mem_map.mp inside
      exact free y.data ⟨u, childHolds.rep, y, member', rfl⟩ same
    have new := mem_foldl_copyInto sorted (mem_map_of_mem member) ⟨inOrder, small⟩ notTaken
    rw [← copied.areas.mem_iff, mem_map] at new
    obtain ⟨y, inside, same⟩ := new
    exact ⟨_, ⟨u', copied.state.holds.rep, y, inside, same⟩, sameArea_copyOf ⟨inOrder, small⟩⟩

/-- **Emptying and copying an address space.** -/
theorem vmaReset_and_copy {fuel : Nat} {s : Sys.UserSpace} {child : VirtualMemoryPage}
    {t u : CellTree VirtualMemory} {slab : List Nat} (childDir : PageDir)
    (holds : VmaHolds nil s.vmPage.tree t) (notNull : 0 ∉ ptrs t) (childHolds : VmaHolds nil child.tree u)
    (nodup : slab.Nodup) (unused : ∀ n ∈ slab, n ≠ nil ∧ n ∉ ptrs u) (nodes : t.toList.length ≤ slab.length)
    (enough : 2 * t.toList.length + u.toList.length < fuel) :
    (∃ s', Exec.vmaUnmapAll nil fuel s = some s' ∧ Emptied nil s'.vmPage) ∧
      ∃ c, vmaCloneCow nil fuel s.vmPage child childDir s.page slab = some c ∧
        CopiedSpace nil s.vmPage child c.childVm :=
  ⟨vmaUnmapAll_emptied holds.rep (by omega),
    vmaCloneCow_copied childDir s.page holds notNull childHolds nodup unused nodes enough⟩

/-- A space with two areas and a range handed out between them is emptied and copied. -/
theorem vmaReset_and_copy_two : ∃ s child,
    (∀ vma ∈ [newArea 0x20000 0x600000 0x2000 5, newArea 0x10000 0x500000 0x1000 7], Sys.Registered 1 s.vmPage.tree vma) ∧
    s.vmPage.zone .process = [⟨0x400000, 0x401000⟩] ∧
    (∃ s', Exec.vmaUnmapAll 1 8 s = some s' ∧ Emptied 1 s'.vmPage) ∧
    ∃ c, vmaCloneCow 1 8 s.vmPage child (.empty 3) s.page [4, 5] = some c ∧
      CopiedSpace 1 s.vmPage child c.childVm := by
  have calls : (vmaRegisterLocked 1 8 emptySpace.page.tree 2 0x10000 0x500000 0x1000 7 >>= fun one =>
      vmaRegisterLocked 1 8 one 3 0x20000 0x600000 0x2000 5 >>= fun two =>
        (vmaLookupFreeVaddr 1 8 ⟨two, emptySpace.page.zone⟩ .process 1).map fun found =>
          found.2.zone .process) = some [⟨0x400000, 0x401000⟩] := by
    decide +kernel
  simp only [bind_eq_some, Option.map_eq_some_iff] at calls
  obtain ⟨one, first, two, second, ⟨address, page⟩, returned, zone⟩ := calls
  have start : VmaRun 1 (fun _ _ => True) emptySpace := .create _
  have run := ((start.register 2 0x10000 0x500000 0x1000 7 trivial not_mem_nil (by decide) (by decide)
    (show 0 < 8 by decide) first).register 3 0x20000 0x600000 0x2000 5 trivial (show 3 ∉ [2] by decide) (by decide)
    (by decide) (show 1 < 8 by decide) second).lookup .process 1 trivial returned
  obtain ⟨t, rep⟩ := run.represents
  obtain ⟨u, childRep⟩ := start.represents
  have areas : t.toList.length = 2 := rep.length
  have none : u.toList.length = 0 := childRep.length
  have unused : ∀ n ∈ [4, 5], n ≠ 1 ∧ n ∉ ptrs u := by
    intro n inside
    rw [childRep.nodes.mem_iff]
    refine ⟨?_, not_mem_nil⟩
    rintro rfl
    exact absurd inside (by decide)
  refine ⟨⟨.empty 3, page, 0, 0⟩, emptySpace.page, fun vma inside => ?_, zone, ?_⟩
  · obtain ⟨x, member, same⟩ := rep.mem.mpr inside
    exact ⟨t, rep.holds.rep, x, member, same⟩
  · exact vmaReset_and_copy (.empty 3) rep.holds rep.nonzero childRep.holds (by decide) unused (le_of_eq areas) (by omega)

/-- **A zone stays and a large area is lost**: a range reserved for a user mapping is still there after
`vma_unmap_all` and is not copied, and neither is an area of a million pages. -/
theorem vmaReset_and_copy_leaves : ∃ s child state, VmaRun 1 (fun _ _ => True) state ∧ s.vmPage = state.page ∧
    (∃ s', Exec.vmaUnmapAll 1 8 s = some s' ∧ s'.vmPage.zone .userMmap ≠ []) ∧
    ∃ c, vmaCloneCow 1 8 s.vmPage child (.empty 3) s.page [3] = some c ∧
      c.childVm.zone .userMmap ≠ s.vmPage.zone .userMmap ∧
      ∃ vma, Sys.Registered 1 s.vmPage.tree vma ∧
        ¬ ∃ copy, Sys.Registered 1 c.childVm.tree copy ∧ SameArea vma copy := by
  have calls : (vmaRegisterLocked 1 8 emptySpace.page.tree 2 0x10000 0x200000000 (1000000 * 4096) 7 >>= fun tree =>
      vmaLookupFreeVaddr 1 8 ⟨tree, emptySpace.page.zone⟩ .userMmap 1 >>= fun found =>
        (vmaCloneCow 1 8 found.2 emptySpace.page (.empty 3) (.empty 3) [3]).map fun c =>
          decide (found.2.zone .userMmap = [⟨0x100000000, 0x100001000⟩] ∧ c.childVm.zone .userMmap = [] ∧
            c.childVm.tree.root = 1)) = some true := by
    decide +kernel
  simp only [bind_eq_some, Option.map_eq_some_iff, decide_eq_true_eq] at calls
  obtain ⟨tree, registered, ⟨address, page⟩, returned, c, cloned, reserved, forgotten, lost⟩ := calls
  have start : VmaRun 1 (fun _ _ => True) emptySpace := .create _
  have run := (start.register 2 0x10000 0x200000000 (1000000 * 4096) 7 trivial not_mem_nil (by decide)
    (by decide) (show 0 < 8 by decide) registered).lookup .userMmap 1 trivial returned
  obtain ⟨t, rep⟩ := run.represents
  have one : t.toList.length = 1 := rep.length
  obtain ⟨x, member, same⟩ :
      ∃ x ∈ t.toList, x.data = newArea 0x10000 0x200000000 (1000000 * 4096) 7 := rep.mem.mpr (.head _)
  have whole : RepTree 1 page.tree (plug [] t) := rep.holds.rep
  have fuel : t.toList.length < 8 := by omega
  obtain ⟨dir, walked⟩ := vmaUnmapAllRecursive_total whole fuel (.empty 3)
  have root : page.tree.root = addr 1 t := rep.holds.rep.root
  refine ⟨⟨.empty 3, page, 0, 0⟩, emptySpace.page, _, run, rfl, ?_, c, cloned, ?_, ?_⟩
  · refine ⟨_, by rw [Exec.vmaUnmapAll, root, walked]; rfl, ?_⟩
    show page.zone .userMmap ≠ []
    rw [reserved]
    exact cons_ne_nil _ _
  · rw [forgotten, reserved]
    exact (cons_ne_nil _ _).symm
  · refine ⟨_, ⟨t, rep.holds.rep, x, member, same⟩, ?_⟩
    rintro ⟨copy, there, -⟩
    exact not_registered_of_root lost copy there

end Voxia.Procc
