/-
**Runs of the area manager.**

A run registers and unregisters areas of an address space and asks for free ranges, in any order. Beside the record it
carries what the calls are about: the areas registered at the moment, and every range a lookup has returned.

The tree is ordered by start addresses only, so where an area is laid inside another one and ends before it, it
depends on the shape of the tree what a walk finds. The search for a free range probes the first address of each page,
and nothing keeps it below the next region.
-/

import Voxia.Memory.VmaPage

namespace Voxia.Memory

open List

open Lib.Tree (Balanced plug)
open Voxia.Tree

/-! ### Runs -/

/-- The calls on an address space; `node` is what the slab cache returns for a registration. -/
inductive VmaCall
  | register (node physAddress virtAddr size flags : Nat)
  | unregister (virtAddr : Nat)
  | lookup (region : MemVmaRegion) (size : Nat)

/-- The registered areas with one more, which is refused if its start is taken. -/
def withArea (areas : List VirtualMemory) (area : VirtualMemory) : List VirtualMemory :=
  if area.startAddress ∈ areas.map VirtualMemory.startAddress then areas else area :: areas

def withoutArea (areas : List VirtualMemory) (virtAddr : Nat) : List VirtualMemory :=
  areas.filter fun area => area.startAddress ≠ virtAddr

/-- An address space in a run: the record, the areas registered at the moment, the nodes in use, and the
start and the number of pages of every range a lookup returned. -/
structure VmaState where
  page : VirtualMemoryPage
  areas : List VirtualMemory
  nodes : List Nat
  handed : List (Nat × Nat)

def VmaState.create (nil : Nat) (heap : Nat → RbtNode VirtualMemory) : VmaState :=
  ⟨⟨createVmmPage nil (initSentinel nil heap), fun _ => []⟩, [], [], []⟩

/-- Runs whose calls all meet a condition. Memory outside the nodes in use may change between the calls. -/
inductive VmaRun (nil : Nat) (condition : VmaState → VmaCall → Prop) : VmaState → Prop
  | create (heap : Nat → RbtNode VirtualMemory) : VmaRun nil condition (.create nil heap)
  | register {s : VmaState} {tree : VmaTree} {fuel : Nat} (node physAddress virtAddr size flags : Nat)
      (before : VmaRun nil condition s)
      (holds : condition s (.register node physAddress virtAddr size flags))
      (unused : node ∉ s.nodes) (notNil : node ≠ nil) (notNull : node ≠ 0)
      (enough : s.areas.length < fuel)
      (result : vmaRegisterLocked nil fuel s.page.tree node physAddress virtAddr size flags = some tree) :
      VmaRun nil condition { s with
        page := { s.page with tree := tree }
        areas := withArea s.areas (newArea physAddress virtAddr size flags)
        nodes := if virtAddr ∈ s.areas.map VirtualMemory.startAddress then s.nodes else node :: s.nodes }
  | unregister {s : VmaState} {tree : VmaTree} {fuel node : Nat} (virtAddr : Nat)
      (before : VmaRun nil condition s) (holds : condition s (.unregister virtAddr))
      (enough : s.areas.length < fuel) (found : vmaSearch nil fuel s.page.tree virtAddr = some node)
      (result : vmaUnregister nil fuel s.page.tree virtAddr = some tree) :
      VmaRun nil condition { s with
        page := { s.page with tree := tree }
        areas := withoutArea s.areas virtAddr
        nodes := s.nodes.erase node }
  | lookup {s : VmaState} {page : VirtualMemoryPage} {fuel start : Nat} (region : MemVmaRegion) (size : Nat)
      (before : VmaRun nil condition s) (holds : condition s (.lookup region size))
      (result : vmaLookupFreeVaddr nil fuel s.page region size = some (start, page)) :
      VmaRun nil condition { s with page := page, handed := (start, size) :: s.handed }
  | other {s : VmaState} (heap : Nat → RbtNode VirtualMemory) (before : VmaRun nil condition s)
      (same : ∀ p, p ∈ s.nodes ∨ p = nil → heap p = s.page.tree.heap p) :
      VmaRun nil condition { s with page := { s.page with tree := { s.page.tree with heap := heap } } }

section Tree

variable {nil : Nat} {s : VmaState} {t : CellTree VirtualMemory}

structure Represents (nil : Nat) (s : VmaState) (t : CellTree VirtualMemory) : Prop where
  holds : VmaHolds nil s.page.tree t
  areas : (t.toList.map Cell.data).Perm s.areas
  nodes : (ptrs t).Perm s.nodes
  notNull : 0 ∉ s.nodes

theorem Represents.starts (rep : Represents nil s t) : (starts t).Perm (s.areas.map VirtualMemory.startAddress) := by
  have mapped := rep.areas.map VirtualMemory.startAddress
  rwa [map_map] at mapped

theorem Represents.length (rep : Represents nil s t) : t.toList.length = s.areas.length := by
  rw [← rep.areas.length_eq, length_map]

variable {area : VirtualMemory} {virtAddr : Nat}

theorem Represents.mem (rep : Represents nil s t) : (∃ x ∈ t.toList, x.data = area) ↔ area ∈ s.areas := by
  rw [← rep.areas.mem_iff, mem_map]

theorem Represents.nonzero (rep : Represents nil s t) : 0 ∉ ptrs t := by
  rw [rep.nodes.mem_iff]
  exact rep.notNull

theorem withArea_perm {areas areas' : List VirtualMemory} (perm : areas.Perm areas') (area : VirtualMemory) :
    (withArea areas area).Perm (withArea areas' area) := by
  have taken : area.startAddress ∈ areas.map VirtualMemory.startAddress ↔
      area.startAddress ∈ areas'.map VirtualMemory.startAddress := (perm.map _).mem_iff
  simp only [withArea, taken]
  split_ifs
  · exact perm
  · exact perm.cons area

theorem VmaHolds.withArea {st : VmaTree} {fuel node : Nat} (holds : VmaHolds nil st t)
    (physAddress virtAddr size flags : Nat) (unused : node ∉ ptrs t) (notNil : node ≠ nil)
    (enough : t.toList.length < fuel) :
    ∃ st' t', vmaRegisterLocked nil fuel st node physAddress virtAddr size flags = some st' ∧
      VmaHolds nil st' t' ∧
      (t'.toList.map Cell.data).Perm
        (withArea (t.toList.map Cell.data) (newArea physAddress virtAddr size flags)) ∧
      (ptrs t').Perm (if virtAddr ∈ starts t then ptrs t else node :: ptrs t) := by
  have sameStarts : (t.toList.map Cell.data).map VirtualMemory.startAddress = Memory.starts t := map_map ..
  obtain ⟨after, t', returned, holds', new, -⟩ :=
    holds.register physAddress virtAddr size flags unused notNil enough
  refine ⟨after, t', returned, holds', ?_, ?_⟩
  · have areas := new.map Cell.data
    rw [apply_ite (List.map Cell.data)] at areas
    rw [Memory.withArea, sameStarts]
    exact areas
  · have nodes := new.map Cell.ptr
    rw [apply_ite (List.map Cell.ptr)] at nodes
    exact nodes

theorem VmaHolds.withoutArea {st : VmaTree} {fuel : Nat} (holds : VmaHolds nil st t) (virtAddr : Nat)
    (enough : t.toList.length < fuel) :
    ∃ n st' t', vmaSearch nil fuel st virtAddr = some n ∧ vmaUnregister nil fuel st virtAddr = some st' ∧
      VmaHolds nil st' t' ∧ t'.toList.map Cell.data = withoutArea (t.toList.map Cell.data) virtAddr ∧
      (ptrs t').Perm ((ptrs t).erase n) := by
  obtain ⟨n, st', t', searched, returned, holds', rest, nodes, -⟩ := holds.unregister virtAddr enough
  refine ⟨n, st', t', searched, returned, holds', ?_, nodes⟩
  rw [rest, Memory.withoutArea, filter_map]
  rfl

/-- **Every run keeps the tree** of the registered areas. -/
theorem VmaRun.represents {condition : VmaState → VmaCall → Prop} (run : VmaRun nil condition s) :
    ∃ t, Represents nil s t := by
  induction run with
  | create heap =>
    exact ⟨.leaf, .empty nil heap, List.Perm.refl _, List.Perm.refl _, by simp [VmaState.create]⟩
  | @register s tree fuel node physAddress virtAddr size flags _ _ unused notNil notNull enough result ih =>
    obtain ⟨t, rep⟩ := ih
    rw [← rep.nodes.mem_iff] at unused
    rw [← rep.length] at enough
    obtain ⟨after, t', returned, holds, areas, nodes⟩ :=
      rep.holds.withArea physAddress virtAddr size flags unused notNil enough
    obtain rfl : tree = after := by rwa [result, Option.some.injEq] at returned
    have taken : virtAddr ∈ Memory.starts t ↔ virtAddr ∈ s.areas.map VirtualMemory.startAddress :=
      rep.starts.mem_iff
    refine ⟨t', holds, areas.trans (withArea_perm rep.areas _), ?_, ?_⟩
    · refine nodes.trans ?_
      simp only [taken]
      split_ifs
      · exact rep.nodes
      · exact rep.nodes.cons node
    · split_ifs
      · exact rep.notNull
      · exact not_mem_cons_of_ne_of_not_mem notNull.symm rep.notNull
  | @unregister s tree fuel node virtAddr _ _ enough found result ih =>
    obtain ⟨t, rep⟩ := ih
    rw [← rep.length] at enough
    have keeps : 0 ∉ s.nodes.erase node := fun member => rep.notNull (mem_of_mem_erase member)
    obtain ⟨m, after, t', searched, returned, holds, rest, nodes⟩ := rep.holds.withoutArea virtAddr enough
    obtain rfl : node = m := by rwa [found, Option.some.injEq] at searched
    obtain rfl : tree = after := by rwa [result, Option.some.injEq] at returned
    refine ⟨t', holds, ?_, nodes.trans (rep.nodes.erase node), keeps⟩
    rw [rest]
    exact rep.areas.filter _
  | @lookup s page fuel start region size _ _ result ih =>
    obtain ⟨t, rep⟩ := ih
    obtain ⟨-, rfl⟩ := vmaLookupFreeVaddr_found result
    exact ⟨t, rep.holds, rep.areas, rep.nodes, rep.notNull⟩
  | other heap _ same ih =>
    obtain ⟨t, rep⟩ := ih
    refine ⟨t, ⟨rep.holds.rep.congr rfl fun p inside => same p ?_, rep.holds.balanced, rep.holds.sorted⟩,
      rep.areas, rep.nodes, rep.notNull⟩
    exact inside.imp_left rep.nodes.mem_iff.mp

end Tree

/-! ### The walk to the area around an address -/

/-- Of two areas, the one that starts first does not go on behind the other one. -/
def Walkable (x y : VirtualMemory) : Prop :=
  (x.startAddress < y.startAddress → x.endAddress ≤ max y.startAddress y.endAddress) ∧
    (y.startAddress < x.startAddress → y.endAddress ≤ max x.startAddress x.endAddress)

theorem Walkable.symm {x y : VirtualMemory} (walkable : Walkable x y) : Walkable y x :=
  ⟨walkable.2, walkable.1⟩

def LaysNoneInside (s : VmaState) : VmaCall → Prop
  | .register _ physAddress virtAddr size flags => virtAddr ∉ s.areas.map VirtualMemory.startAddress →
      ∀ x ∈ s.areas, Walkable x (newArea physAddress virtAddr size flags)
  | .unregister _ => True
  | .lookup .. => True

section Walk

variable {nil : Nat} {s : VmaState} {t : CellTree VirtualMemory}

theorem Represents.staggered (rep : Represents nil s t) (walkable : s.areas.Pairwise Walkable) :
    t.toList.Pairwise Staggered := by
  have pairs := (rep.areas.pairwise_iff Walkable.symm).mpr walkable
  have sorted := rep.holds.sorted
  rw [pairwise_map] at pairs
  rw [starts_eq, pairwise_map] at sorted
  exact sorted.imp₂ (fun _ _ inOrder walk => ⟨inOrder, walk.1 inOrder⟩) pairs

theorem VmaRun.walkable {condition : VmaState → VmaCall → Prop} (run : VmaRun nil condition s)
    (laysNone : ∀ {s call}, condition s call → LaysNoneInside s call) : s.areas.Pairwise Walkable := by
  induction run with
  | create heap => exact List.Pairwise.nil
  | @register s tree fuel node physAddress virtAddr size flags _ holds _ _ _ _ _ ih =>
    show (withArea s.areas (newArea physAddress virtAddr size flags)).Pairwise Walkable
    rw [withArea]
    split_ifs with member
    · exact ih
    · exact pairwise_cons.mpr ⟨fun x inside => (laysNone holds member x inside).symm, ih⟩
  | unregister virtAddr _ _ _ _ _ ih => exact ih.filter _
  | lookup region size _ _ _ ih => exact ih
  | other heap _ _ ih => exact ih

/-- `vma_find_contains` returns a registered area around the address if there is one, and null if not. -/
def Locates (nil fuel : Nat) (s : VmaState) (virtAddr : Nat) : Prop :=
  match vmaFindContains nil fuel s.page virtAddr with
  | some (some (_, vma)) => vma ∈ s.areas ∧ vma.Contains virtAddr
  | some none => ∀ vma ∈ s.areas, ¬ vma.Contains virtAddr
  | none => False

/-- **The walk is complete** in every run that lays no area inside another one that goes on behind it. -/
theorem vmaFindContains_complete (run : VmaRun nil LaysNoneInside s) {fuel : Nat}
    (enough : s.areas.length < fuel) (virtAddr : Nat) : Locates nil fuel s virtAddr := by
  obtain ⟨t, rep⟩ := run.represents
  have whole : RepTree nil s.page.tree (plug [] t) := rep.holds.rep
  rw [← rep.length] at enough
  obtain ⟨result, returned⟩ :
      ∃ result, findContainsFrom nil fuel s.page.tree (addr nil t) virtAddr = some result :=
    findContainsFrom_total whole enough
  have walked : vmaFindContains nil fuel s.page virtAddr = some result := by
    rw [vmaFindContains, rep.holds.rep.root]
    exact returned
  rw [Locates, walked]
  obtain ⟨rfl, absent⟩ | ⟨x, member, rfl, contains⟩ :=
    findContainsFrom_spec whole rep.nonzero (rep.staggered (run.walkable id)) returned
  · intro vma registered
    obtain ⟨x, inside, rfl⟩ := rep.mem.mpr registered
    exact absent x inside
  · exact ⟨rep.mem.mp ⟨x, member, rfl⟩, contains⟩

end Walk

def emptySpace : VmaState := .create 1 fun _ => ⟨none, 0, 0, 0, .red⟩

/-- Two areas that overlap, neither inside the other: an address in both is found. -/
theorem vmaFindContains_complete_overlap : ∃ s, VmaRun 1 LaysNoneInside s ∧
    s.areas = [newArea 0x20000 0x100001000 0x2000 7, newArea 0x10000 0x100000000 0x2000 7] ∧
    Locates 1 8 s 0x100001800 := by
  have calls : (vmaRegisterLocked 1 8 emptySpace.page.tree 2 0x10000 0x100000000 0x2000 7 >>= fun first =>
      vmaRegisterLocked 1 8 first 3 0x20000 0x100001000 0x2000 7).isSome := by
    decide +kernel
  obtain ⟨second, returned⟩ := Option.isSome_iff_exists.mp calls
  obtain ⟨first, one, two⟩ := Option.bind_eq_some_iff.mp returned
  have start : VmaRun 1 LaysNoneInside emptySpace := .create _
  have run₁ : VmaRun 1 LaysNoneInside ⟨⟨first, emptySpace.page.zone⟩, [newArea 0x10000 0x100000000 0x2000 7],
      [2], []⟩ :=
    start.register 2 0x10000 0x100000000 0x2000 7 (fun _ _ inside => absurd inside not_mem_nil)
      not_mem_nil (by decide) (by decide) (show 0 < 8 by decide) one
  have inside : ∀ x ∈ [newArea 0x10000 0x100000000 0x2000 7],
      Walkable x (newArea 0x20000 0x100001000 0x2000 7) := by
    intro x member
    rw [mem_singleton.mp member]
    exact ⟨fun _ => by decide, fun wrong => absurd wrong (by decide)⟩
  have run₂ := run₁.register 3 0x20000 0x100001000 0x2000 7 (fun _ => inside)
    (show 3 ∉ [2] by decide) (by decide) (by decide) (show 1 < 8 by decide) two
  exact ⟨_, run₂, rfl, vmaFindContains_complete run₂ (show 2 < 8 by decide) 0x100001800⟩

/-- **An area is missed**: two areas are laid inside a reservation, the tree turns, and the walk goes past the
reservation. -/
theorem vmaFindContains_misses : ∃ nil s fuel virtAddr, VmaRun nil (fun _ _ => True) s ∧
    s.areas.length < fuel ∧ ¬ Locates nil fuel s virtAddr := by
  have calls : (vmaRegisterLocked 1 8 emptySpace.page.tree 2 0x10000 0x100000000 0x10000 7 >>= fun first =>
      vmaRegisterLocked 1 8 first 3 0x20000 0x100001000 0x1000 7 >>= fun second =>
        vmaRegisterLocked 1 8 second 4 0x30000 0x100003000 0x1000 7 >>= fun third =>
          vmaFindContains 1 8 ⟨third, fun _ => []⟩ 0x100005000) = some none := by
    decide +kernel
  simp only [bind_eq_some] at calls
  obtain ⟨first, one, second, two, third, three, missed⟩ := calls
  have start : VmaRun 1 (fun _ _ => True) emptySpace := .create _
  have run₁ := start.register 2 0x10000 0x100000000 0x10000 7 trivial not_mem_nil (by decide) (by decide)
    (show 0 < 8 by decide) one
  have run₂ := run₁.register 3 0x20000 0x100001000 0x1000 7 trivial (show 3 ∉ [2] by decide) (by decide)
    (by decide) (show 1 < 8 by decide) two
  have run₃ := run₂.register 4 0x30000 0x100003000 0x1000 7 trivial (show 4 ∉ [3, 2] by decide) (by decide)
    (by decide) (show 2 < 8 by decide) three
  refine ⟨1, _, 8, 0x100005000, run₃, show 3 < 8 by decide, fun locates => ?_⟩
  have found : vmaFindContains 1 8 ⟨third, emptySpace.page.zone⟩ 0x100005000 = some none := missed
  rw [Locates, found] at locates
  refine locates (newArea 0x10000 0x100000000 0x10000 7) ?_ ⟨by decide, by decide⟩
  exact .tail _ (.tail _ (.head _))

/-! ### Free ranges -/

/-- Where the region ends: at the start of the next one. -/
def MemVmaRegion.limit : MemVmaRegion → Nat
  | a => MemVmaRegion.base b
  | b => MemVmaRegion.base c
  | c => MemVmaRegion.base kmodule
  | kmodule => vmaRegionA + 4 * regionSize
  | process => MemVmaRegion.base userMmap
  | userMmap => MemVmaRegion.base a

def InRange (start size v : Nat) : Prop := start ≤ v ∧ v < start + size * blockSize

/-- Registered areas are whole pages, none is laid inside another that goes on behind it, and for a lookup the
region has room: somewhere from its cursor to the next region there are `size` pages that no area meets. -/
def KeepsFresh (s : VmaState) : VmaCall → Prop
  | .register _ physAddress virtAddr size flags => virtAddr ∉ s.areas.map VirtualMemory.startAddress →
      virtAddr % blockSize = 0 ∧ size % blockSize = 0 ∧
        ∀ x ∈ s.areas, Walkable x (newArea physAddress virtAddr size flags)
  | .unregister _ => True
  | .lookup region size => ∃ start, s.page.cursor region ≤ start ∧ start + size * blockSize ≤ region.limit ∧
      ∀ x ∈ s.areas, ∀ v, InRange start size v → ¬ x.Contains v

theorem KeepsFresh.laysNoneInside {s : VmaState} {call : VmaCall} (keeps : KeepsFresh s call) :
    LaysNoneInside s call := by
  cases call with
  | register node physAddress virtAddr size flags => exact fun absent => (keeps absent).2.2
  | unregister virtAddr => trivial
  | lookup region size => trivial

def Fresh (s : VmaState) (start size : Nat) : Prop :=
  (∀ x ∈ s.areas, ∀ v, InRange start size v → ¬ x.Contains v) ∧
    ∀ r ∈ s.handed, ∀ v, InRange start size v → ¬ InRange r.1 r.2 v

theorem MemVmaRegion.apart {r q : MemVmaRegion} (different : r ≠ q) : r.limit ≤ q.base ∨ q.limit ≤ r.base := by
  cases r <;> cases q <;> first | exact absurd rfl different | decide

theorem MemVmaRegion.limit_le (region : MemVmaRegion) : region.limit ≤ 2 ^ 64 - 1 := by
  cases region <;> decide

/-- What a run with room keeps: areas are whole pages, cursors stand at page starts within their regions, and
the ranges returned so far lie below them. -/
structure InOrder (s : VmaState) : Prop where
  areas : ∀ x ∈ s.areas, x.startAddress % blockSize = 0 ∧ x.endAddress % blockSize = 0
  cursors : ∀ region, s.page.cursor region % blockSize = 0 ∧ region.base ≤ s.page.cursor region ∧
    s.page.cursor region ≤ region.limit
  handed : ∀ r ∈ s.handed, ∃ region, MemVmaRegion.base region ≤ r.1 ∧
    r.1 + r.2 * blockSize ≤ s.page.cursor region

section Lookups

variable {nil : Nat} {s : VmaState}

theorem endAddress_newArea {virtAddr size : Nat} (physAddress flags : Nat) (start : virtAddr % blockSize = 0)
    (whole : size % blockSize = 0) : (newArea physAddress virtAddr size flags).endAddress % blockSize = 0 := by
  show u64 (virtAddr + size) % blockSize = 0
  unfold blockSize at *
  unfold u64
  omega

/-- **A lookup with room.** The range is within the region, from the cursor on, and meets no area. -/
theorem InOrder.lookup {t : CellTree VirtualMemory} {region : MemVmaRegion} {size fuel start : Nat}
    {page : VirtualMemoryPage} (inOrder : InOrder s) (rep : Represents nil s t)
    (walkable : s.areas.Pairwise Walkable) (room : KeepsFresh s (.lookup region size))
    (returned : vmaLookupFreeVaddr nil fuel s.page region size = some (start, page)) :
    page = vmaTreeAddLocked s.page region start (start + size * blockSize) ∧
      s.page.cursor region ≤ start ∧ start % blockSize = 0 ∧ start + size * blockSize ≤ region.limit ∧
      ∀ x ∈ s.areas, ∀ v, InRange start size v → ¬ x.Contains v := by
  obtain ⟨free, behind, below, unmet⟩ := room
  have word := region.limit_le
  have staggered := rep.staggered walkable
  obtain ⟨found, rfl⟩ := vmaLookupFreeVaddr_found returned
  have whole : ∀ x ∈ t.toList, x.data.endAddress % blockSize = 0 :=
    fun x member => (inOrder.areas _ (rep.mem.mp ⟨x, member, rfl⟩)).2
  obtain ⟨first, last, aligned⟩ := freeVaddrFrom_le rep.holds.rep rep.nonzero staggered whole
    (inOrder.cursors region).1 behind (by omega)
    (fun x member v low high => unmet _ (rep.mem.mp ⟨x, member, rfl⟩) v ⟨low, high⟩) found
  have pages := (freeVaddrFrom_spec rep.holds.rep rep.nonzero staggered found).1
  refine ⟨?_, first, aligned, by omega, ?_⟩
  · rw [Nat.mul_comm blockSize, u64_of_lt (by omega)]
  · intro vma registered v inside
    obtain ⟨x, member, rfl⟩ := rep.mem.mpr registered
    exact pages.all aligned (by omega) inside.1 inside.2 member (inOrder.areas _ registered).1

theorem cursor_vmaTreeAddLocked (page : VirtualMemoryPage) (region r : MemVmaRegion) (start last : Nat) :
    (vmaTreeAddLocked page region start last).cursor r = if r = region then last else page.cursor r := by
  unfold VirtualMemoryPage.cursor vmaTreeAddLocked
  split_ifs with here
  · simp [here]
  · simp [here]

/-- **Every run with room.** -/
theorem VmaRun.inOrder (run : VmaRun nil KeepsFresh s) : InOrder s := by
  induction run with
  | create heap =>
    refine ⟨fun x member => absurd member not_mem_nil, fun region => ?_,
      fun r member => absurd member not_mem_nil⟩
    show region.base % blockSize = 0 ∧ region.base ≤ region.base ∧ region.base ≤ region.limit
    cases region <;> decide
  | @register s tree fuel node physAddress virtAddr size flags _ holds _ _ _ _ _ ih =>
    refine ⟨fun x member => ?_, ih.cursors, ih.handed⟩
    have member' : x ∈ withArea s.areas (newArea physAddress virtAddr size flags) := member
    rw [withArea] at member'
    split_ifs at member' with taken
    · exact ih.areas x member'
    · obtain ⟨start, whole, -⟩ := holds taken
      obtain rfl | old := mem_cons.mp member'
      · exact ⟨start, endAddress_newArea physAddress flags start whole⟩
      · exact ih.areas x old
  | unregister virtAddr _ _ _ _ _ ih =>
    exact ⟨fun x member => ih.areas x (mem_of_mem_filter member), ih.cursors, ih.handed⟩
  | @lookup s page fuel start region size before room result ih =>
    obtain ⟨t, rep⟩ := before.represents
    obtain ⟨rfl, behind, aligned, below, -⟩ :=
      ih.lookup rep (before.walkable KeepsFresh.laysNoneInside) room result
    refine ⟨ih.areas, fun r => ?_, fun r member => ?_⟩
    · rw [cursor_vmaTreeAddLocked]
      split_ifs with here
      · subst here
        have low := (ih.cursors r).2.1
        refine ⟨?_, by omega, below⟩
        unfold blockSize at *
        omega
      · exact ih.cursors r
    · obtain rfl | old := mem_cons.mp member
      · refine ⟨region, le_trans (ih.cursors region).2.1 behind, ?_⟩
        rw [cursor_vmaTreeAddLocked, if_pos rfl]
      · obtain ⟨q, low, high⟩ := ih.handed r old
        refine ⟨q, low, ?_⟩
        rw [cursor_vmaTreeAddLocked]
        split_ifs with here
        · subst here
          omega
        · exact high
  | other heap _ _ ih => exact ⟨ih.areas, ih.cursors, ih.handed⟩

/-- **Lookups return fresh ranges** in every run with room. -/
theorem vmaLookupFreeVaddr_fresh (run : VmaRun nil KeepsFresh s) {region : MemVmaRegion} {size fuel start : Nat}
    {page : VirtualMemoryPage} (room : KeepsFresh s (.lookup region size))
    (returned : vmaLookupFreeVaddr nil fuel s.page region size = some (start, page)) : Fresh s start size := by
  obtain ⟨t, rep⟩ := run.represents
  have inOrder := run.inOrder
  obtain ⟨-, behind, -, below, unmet⟩ :=
    inOrder.lookup rep (run.walkable KeepsFresh.laysNoneInside) room returned
  refine ⟨unmet, fun r member v inside inside' => ?_⟩
  obtain ⟨q, low, high⟩ := inOrder.handed r member
  obtain ⟨first, last⟩ := inside
  obtain ⟨first', last'⟩ := inside'
  by_cases same : q = region
  · subst same
    omega
  · have bounds := inOrder.cursors q
    have mine := (inOrder.cursors region).2.1
    rcases MemVmaRegion.apart same with apart | apart <;> omega

end Lookups

/-- Two lookups in a region that has an area in it. -/
theorem vmaLookupFreeVaddr_fresh_twice : ∃ s page, VmaRun 1 KeepsFresh s ∧
    s.areas = [newArea 0x10000 0x100000000 0x1000 7] ∧ s.handed = [(0x100001000, 1)] ∧
    vmaLookupFreeVaddr 1 8 s.page .userMmap 2 = some (0x100002000, page) ∧ Fresh s 0x100002000 2 := by
  have calls : (vmaRegisterLocked 1 8 emptySpace.page.tree 2 0x10000 0x100000000 0x1000 7 >>= fun tree =>
      vmaLookupFreeVaddr 1 8 ⟨tree, emptySpace.page.zone⟩ .userMmap 1 >>= fun first =>
        (vmaLookupFreeVaddr 1 8 first.2 .userMmap 2).map fun second =>
          (first.1, first.2.cursor .userMmap, second.1)) =
      some (0x100001000, 0x100002000, 0x100002000) := by
    decide +kernel
  simp only [bind_eq_some, Option.map_eq_some_iff, Prod.mk.injEq] at calls
  obtain ⟨tree, registered, ⟨start, page⟩, one, ⟨start', page'⟩, two, rfl, cursor, rfl⟩ := calls
  have only : ∀ first ≥ 0x100001000, ∀ size, ∀ x ∈ [newArea 0x10000 0x100000000 0x1000 7],
      ∀ v, InRange first size v → ¬ x.Contains v := by
    rintro first behind size x member v ⟨low, -⟩ ⟨-, high⟩
    rw [mem_singleton.mp member] at high
    have last : (newArea 0x10000 0x100000000 0x1000 7).endAddress = 0x100001000 := by decide
    omega
  have begin : VmaRun 1 KeepsFresh emptySpace := .create _
  have run₁ := begin.register 2 0x10000 0x100000000 0x1000 7
    (fun _ => ⟨by decide, by decide, fun _ inside => absurd inside not_mem_nil⟩) not_mem_nil
    (by decide) (by decide) (show 0 < 8 by decide) registered
  have run₂ := run₁.lookup .userMmap 1
    ⟨0x100001000, show 0x100000000 ≤ 0x100001000 by decide, by decide, only _ le_rfl 1⟩ one
  have room : ∃ first, page.cursor .userMmap ≤ first ∧ first + 2 * blockSize ≤ MemVmaRegion.limit .userMmap ∧
      ∀ x ∈ [newArea 0x10000 0x100000000 0x1000 7], ∀ v, InRange first 2 v → ¬ x.Contains v :=
    ⟨0x100002000, le_of_eq cursor, by decide, only _ (by decide) 2⟩
  exact ⟨_, page', run₂, rfl, rfl, two, vmaLookupFreeVaddr_fresh run₂ room two⟩

/-- **A lookup returns a range in use**: an area that begins in the middle of a page does not hold the first
address of the page. -/
theorem vmaLookupFreeVaddr_meets : ∃ nil s fuel region size start page, VmaRun nil (fun _ _ => True) s ∧
    vmaLookupFreeVaddr nil fuel s.page region size = some (start, page) ∧ ¬ Fresh s start size := by
  have calls : (vmaRegisterLocked 1 8 emptySpace.page.tree 2 0x10000 0x100000800 0x1000 7 >>= fun tree =>
      (vmaLookupFreeVaddr 1 8 ⟨tree, emptySpace.page.zone⟩ .userMmap 1).map Prod.fst) = some 0x100000000 := by
    decide +kernel
  simp only [bind_eq_some, Option.map_eq_some_iff] at calls
  obtain ⟨tree, registered, ⟨start, page⟩, returned, rfl⟩ := calls
  have begin : VmaRun 1 (fun _ _ => True) emptySpace := .create _
  have run := begin.register 2 0x10000 0x100000800 0x1000 7 trivial not_mem_nil (by decide) (by decide)
    (show 0 < 8 by decide) registered
  refine ⟨1, _, 8, .userMmap, 1, _, page, run, returned, fun fresh => ?_⟩
  exact fresh.1 (newArea 0x10000 0x100000800 0x1000 7) (.head _) 0x100000800 ⟨by decide, by decide⟩
    ⟨by decide, by decide⟩

end Voxia.Memory
