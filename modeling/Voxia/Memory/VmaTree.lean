/-
**The tree of virtual memory areas.**

Every address space keeps its areas in a red-black tree ordered by start address. `VmaReach` is a run of
`vma_register` and `vma_unregister` from the empty tree, with the keys registered so far and the nodes the slab cache
has handed out; memory outside those nodes and the sentinel may change between the calls.
-/

import Voxia.Machine
import Voxia.Tree.RbtRemove

namespace Voxia.Memory

open Option

open Lib (Color Side)
open Lib.Tree (Balanced plug)
open Voxia.Tree

structure VirtualMemory where
  startAddress : Nat
  endAddress : Nat
  physAddress : Nat
  length : Nat
  flags : Nat
  core : Nat
  endWord : endAddress < 2 ^ 64
  deriving DecidableEq, Repr

/-- The tree of areas with the memory it lives in: `page->tree` and the nodes. -/
abbrev VmaTree := Rbt VirtualMemory

def initSentinel (nil : Nat) (heap : Nat → RbtNode VirtualMemory) : Nat → RbtNode VirtualMemory :=
  fun p => if p = nil then ⟨none, nil, nil, nil, .black⟩ else heap p

def createVmmPage (nil : Nat) (heap : Nat → RbtNode VirtualMemory) : VmaTree := ⟨nil, heap⟩

section Operations

variable (nil : Nat)

def vmaSearch (fuel : Nat) (st : VmaTree) (virtAddr : Nat) : Option Nat :=
  rbtSearchNode VirtualMemory.startAddress nil fuel st st.root virtAddr

/-- `vma_register_locked`; `n` is the node the slab cache returns. -/
def vmaRegisterLocked (fuel : Nat) (st : VmaTree) (n physAddress virtAddr size flags : Nat) : Option VmaTree := do
  let existing ← vmaSearch nil fuel st virtAddr
  if existing ≠ nil then some st
  else
    let node : VirtualMemory := ⟨virtAddr, u64 (virtAddr + size), physAddress, size, flags, 0, u64_lt _⟩
    rbtInsertNode VirtualMemory.startAddress nil fuel st n node

def vmaUnregister (fuel : Nat) (st : VmaTree) (virtAddr : Nat) : Option VmaTree := do
  let n ← vmaSearch nil fuel st virtAddr
  if n = nil then some st else rbtRemoveNode nil fuel st n

/-- Runs from the empty tree: the state, the registered start addresses and the nodes in use. A slab
cache never hands out a node in use; a freed node is any memory again. -/
inductive VmaReach : VmaTree → List Nat → List Nat → Prop
  | empty (heap : Nat → RbtNode VirtualMemory) :
      VmaReach (createVmmPage nil (initSentinel nil heap)) [] []
  | register {st st' : VmaTree} {keys nodes : List Nat} {fuel : Nat}
      (n physAddress virtAddr size flags : Nat) (before : VmaReach st keys nodes)
      (unused : n ∉ nodes) (notNil : n ≠ nil) (enough : keys.length < fuel)
      (result : vmaRegisterLocked nil fuel st n physAddress virtAddr size flags = some st') :
      VmaReach st' (if virtAddr ∈ keys then keys else virtAddr :: keys)
        (if virtAddr ∈ keys then nodes else n :: nodes)
  | unregister {st st' : VmaTree} {keys nodes : List Nat} {fuel n : Nat} (virtAddr : Nat)
      (before : VmaReach st keys nodes) (enough : keys.length < fuel)
      (found : vmaSearch nil fuel st virtAddr = some n)
      (result : vmaUnregister nil fuel st virtAddr = some st') :
      VmaReach st' (keys.erase virtAddr) (nodes.erase n)
  | other {st : VmaTree} {keys nodes : List Nat} (heap : Nat → RbtNode VirtualMemory)
      (before : VmaReach st keys nodes) (same : ∀ p, p ∈ nodes ∨ p = nil → heap p = st.heap p) :
      VmaReach { st with heap := heap } keys nodes

end Operations

variable {nil : Nat} {st : VmaTree} {registered nodes : List Nat}

abbrev starts (t : CellTree VirtualMemory) : List Nat := keys VirtualMemory.startAddress t

theorem starts_eq (t : CellTree VirtualMemory) : starts t = t.toList.map fun x => x.data.startAddress := rfl

/-- Memory holds a red-black search tree of areas. -/
structure VmaHolds (nil : Nat) (st : VmaTree) (t : CellTree VirtualMemory) : Prop where
  rep : RepTree nil st t
  balanced : Balanced t
  sorted : (starts t).Pairwise (· < ·)

theorem length_starts (t : CellTree VirtualMemory) : (starts t).length = t.toList.length :=
  List.length_map _

theorem VmaHolds.empty (nil : Nat) (heap : Nat → RbtNode VirtualMemory) :
    VmaHolds nil (createVmmPage nil (initSentinel nil heap)) .leaf :=
  ⟨⟨rfl, trivial, List.nodup_nil, by simp [ptrs, Lib.Tree.toList], if_pos rfl⟩, ⟨rfl, 0, rfl⟩, List.Pairwise.nil⟩

theorem VmaHolds.single {ptr : Nat} {area : VirtualMemory} (root : st.root = ptr)
    (node : st.heap ptr = ⟨some area, nil, nil, nil, .black⟩) (sentinel' : st.heap nil = sentinel nil)
    (notNil : ptr ≠ nil) : VmaHolds nil st (.node .black .leaf ⟨ptr, area⟩ .leaf) := by
  refine ⟨⟨root, ⟨?_, trivial, trivial⟩, List.nodup_singleton _, ?_, sentinel'⟩, ⟨rfl, 1, 0, rfl, rfl, rfl⟩,
    List.pairwise_singleton _ _⟩
  · exact ⟨by rw [node], by rw [node]; rfl, by rw [node]; rfl, by rw [node], by rw [node]⟩
  · exact fun same => notNil (List.mem_singleton.mp same).symm

variable {t : CellTree VirtualMemory} {fuel : Nat}

theorem VmaHolds.search (holds : VmaHolds nil st t) (enough : t.toList.length < fuel) (virtAddr : Nat) :
    (∃ ctx c l x r, plug ctx (.node c l x r) = t ∧ x.data.startAddress = virtAddr ∧
        virtAddr ∈ starts t ∧ vmaSearch nil fuel st virtAddr = some x.ptr) ∨
      (virtAddr ∉ starts t ∧ vmaSearch nil fuel st virtAddr = some nil) := by
  exact rbtSearchNode_spec virtAddr holds.rep holds.sorted enough

theorem VmaHolds.cell (holds : VmaHolds nil st t) (enough : t.toList.length < fuel) {x : Cell VirtualMemory}
    (member : x ∈ t.toList) :
    vmaSearch nil fuel st x.data.startAddress = some x.ptr ∧ x.ptr ≠ nil ∧ (st.heap x.ptr).data = some x.data := by
  have registered : x.data.startAddress ∈ starts t := List.mem_map_of_mem member
  obtain ⟨ctx, c, l, y, r, rfl, equal, -, found⟩ | ⟨absent, -⟩ := holds.search enough x.data.startAddress
  · obtain ⟨notNil, data, -⟩ := holds.rep.parts
    have inTree : y ∈ (plug ctx (.node c l y r)).toList := by simp [Lib.Tree.toList_plug, Lib.Tree.toList]
    have nodup : (starts (plug ctx (.node c l y r))).Nodup := holds.sorted.imp fun less => Nat.ne_of_lt less
    obtain rfl : y = x := List.inj_on_of_nodup_map nodup inTree member equal
    exact ⟨found, notNil, data⟩
  · exact absurd registered absent

/-! ### Steps -/

def newArea (physAddress virtAddr size flags : Nat) : VirtualMemory :=
  ⟨virtAddr, u64 (virtAddr + size), physAddress, size, flags, 0, u64_lt _⟩

/-- Registering returns, and adds the area unless its start is there. -/
theorem VmaHolds.register (holds : VmaHolds nil st t) {n : Nat} (physAddress virtAddr size flags : Nat)
    (unused : n ∉ ptrs t) (notNil : n ≠ nil) (enough : t.toList.length < fuel) :
    ∃ st' t', vmaRegisterLocked nil fuel st n physAddress virtAddr size flags = some st' ∧ VmaHolds nil st' t' ∧
      t'.toList.Perm
        (if virtAddr ∈ starts t then t.toList else ⟨n, newArea physAddress virtAddr size flags⟩ :: t.toList) ∧
      (virtAddr ∈ starts t → st' = st) := by
  obtain ⟨ctx, c, l, x, r, rfl, -, member, found⟩ | ⟨absent, found⟩ := holds.search enough virtAddr
  · refine ⟨st, _, ?_, holds, by rw [if_pos member], fun _ => rfl⟩
    rw [vmaRegisterLocked, found]
    exact if_pos holds.rep.parts.1
  · obtain ⟨st', t', smaller, larger, result, rep, balanced, oldList, newList, below, above⟩ :=
      rbtInsertNode_spec n (newArea physAddress virtAddr size flags) holds.rep holds.balanced
        holds.sorted absent notNil unused enough
    refine ⟨st', t', ?_, ⟨rep, balanced, ?_⟩, ?_, fun member => absurd member absent⟩
    · rw [vmaRegisterLocked, found]
      exact (if_neg (by simp)).trans result
    · have sorted := holds.sorted
      rw [starts_eq, oldList, List.map_append, List.pairwise_append] at sorted
      obtain ⟨sortedS, sortedL, across⟩ := sorted
      rw [starts_eq, newList, List.map_append, List.map_cons, List.pairwise_append, List.pairwise_cons]
      refine ⟨sortedS, ⟨?_, sortedL⟩, ?_⟩
      · rintro k member
        obtain ⟨x, inside, rfl⟩ := List.mem_map.mp member
        exact above x inside
      · intro k member k' member'
        obtain ⟨x, inside, rfl⟩ := List.mem_map.mp member
        obtain rfl | later := List.mem_cons.mp member'
        · exact below x inside
        · exact across _ member _ later
    · rw [if_neg absent, newList, oldList]
      exact List.perm_middle

/-- Unregistering returns, and takes the area with the start out, with the node the search finds. -/
theorem VmaHolds.unregister (holds : VmaHolds nil st t) (virtAddr : Nat) (enough : t.toList.length < fuel) :
    ∃ n st' t', vmaSearch nil fuel st virtAddr = some n ∧ vmaUnregister nil fuel st virtAddr = some st' ∧
      VmaHolds nil st' t' ∧ t'.toList = t.toList.filter (fun x => x.data.startAddress ≠ virtAddr) ∧
      (ptrs t').Perm ((ptrs t).erase n) ∧ (virtAddr ∉ starts t → st' = st) := by
  obtain ⟨ctx, c, l, x, r, rfl, equal, member, found⟩ | ⟨absent, found⟩ := holds.search enough virtAddr
  · obtain ⟨st', t', smaller, larger, result, rep, balanced, old, new⟩ :=
      rbtRemoveNode_spec holds.rep holds.balanced enough
    have sorted := holds.sorted
    rw [starts_eq, old, List.map_append, List.map_cons, List.pairwise_append, List.pairwise_cons, equal] at sorted
    obtain ⟨-, ⟨above, -⟩, across⟩ := sorted
    -- starts are distinct, so only the node found goes
    have others : ∀ y ∈ smaller ++ larger, y.data.startAddress ≠ virtAddr := by
      intro y inside
      rcases List.mem_append.mp inside with inside | inside
      · exact Nat.ne_of_lt (across _ (List.mem_map_of_mem inside) _ List.mem_cons_self)
      · exact Nat.ne_of_gt (above _ (List.mem_map_of_mem inside))
    have rest : t'.toList = (plug ctx (.node c l x r)).toList.filter fun x => x.data.startAddress ≠ virtAddr := by
      rw [new, old, List.filter_append, List.filter_cons_of_neg (by simpa using equal), ← List.filter_append,
        List.filter_eq_self.mpr fun y inside => decide_eq_true (others y inside)]
    refine ⟨x.ptr, st', t', found, ?_, ⟨rep, balanced, ?_⟩, rest, ?_, fun absent => absurd member absent⟩
    · rw [vmaUnregister, found]
      exact (if_neg holds.rep.parts.1).trans result
    · rw [starts_eq, rest]
      exact holds.sorted.sublist (List.filter_sublist.map _)
    · have erased := (@List.perm_middle _ x smaller larger).map Cell.ptr |>.erase x.ptr
      rw [List.map_cons, List.erase_cons_head] at erased
      rw [ptrs, ptrs, new, old]
      exact erased.symm
  · refine ⟨nil, st, t, found, ?_, holds, (List.filter_eq_self.mpr fun y inside => decide_eq_true ?_).symm,
      by rw [List.erase_of_not_mem holds.rep.fresh], fun _ => rfl⟩
    · rw [vmaUnregister, found]
      exact if_pos rfl
    · rintro rfl
      exact absent (List.mem_map_of_mem inside)

/-- **Every run keeps the tree**, with the registered keys and the nodes in use. -/
theorem VmaReach.holds (reach : VmaReach nil st registered nodes) :
    ∃ t, VmaHolds nil st t ∧ (starts t).Perm registered ∧ (ptrs t).Perm nodes := by
  induction reach with
  | empty heap =>
    exact ⟨.leaf, .empty nil heap, List.Perm.refl _, List.Perm.refl _⟩
  | @register st st' keys nodes fuel n physAddress virtAddr size flags _ unused notNil enough result ih =>
    obtain ⟨t, holds, perm, permNodes⟩ := ih
    rw [← permNodes.mem_iff] at unused
    rw [← perm.length_eq, length_starts] at enough
    obtain ⟨after, t', returned, holds', new, -⟩ :=
      holds.register physAddress virtAddr size flags unused notNil enough
    obtain rfl : st' = after := by rwa [result, some.injEq] at returned
    simp only [perm.mem_iff] at new
    split_ifs at new ⊢
    · exact ⟨t', holds', (new.map _).trans perm, (new.map _).trans permNodes⟩
    · exact ⟨t', holds', (new.map _).trans (perm.cons _), (new.map _).trans (permNodes.cons _)⟩
  | @unregister st st' keys nodes fuel n virtAddr _ enough found result ih =>
    obtain ⟨t, holds, perm, permNodes⟩ := ih
    rw [← perm.length_eq, length_starts] at enough
    obtain ⟨m, after, t', searched, returned, holds', rest, nodes', -⟩ := holds.unregister virtAddr enough
    obtain rfl : n = m := by rwa [found, some.injEq] at searched
    obtain rfl : st' = after := by rwa [result, some.injEq] at returned
    refine ⟨t', holds', ?_, nodes'.trans (permNodes.erase n)⟩
    have nodup : (starts t).Nodup := holds.sorted.imp Nat.ne_of_lt
    have keys := perm.erase virtAddr
    rw [nodup.erase_eq_filter, starts_eq, List.filter_map] at keys
    rw [starts_eq, rest]
    simpa [Function.comp_def, bne, beq_eq_decide] using keys
  | other heap _ same ih =>
    obtain ⟨t, holds, perm, permNodes⟩ := ih
    refine ⟨t, ⟨holds.rep.congr rfl fun p inside => same p ?_, holds.balanced, holds.sorted⟩, perm,
      permNodes⟩
    exact inside.imp_left permNodes.mem_iff.mp

/-- **The tree of areas at every point of a run.** -/
theorem vmaReach_tree (reach : VmaReach nil st registered nodes) :
    (∃ t, RepTree nil st t ∧ Balanced t ∧ (starts t).Pairwise (· < ·) ∧
      (starts t).Perm registered) ∧
    st.color nil = .black ∧
    (∀ fuel > registered.length, ∀ virtAddr, ∃ n, vmaSearch nil fuel st virtAddr = some n ∧
      (n ≠ nil ↔ virtAddr ∈ registered) ∧
      (n ≠ nil → ∃ vma, (st.heap n).data = some vma ∧ vma.startAddress = virtAddr)) ∧
    (∀ fuel > registered.length, ∀ n, n ∉ nodes → n ≠ nil → ∀ physAddress virtAddr size flags,
      (vmaRegisterLocked nil fuel st n physAddress virtAddr size flags).isSome) ∧
    (∀ fuel > registered.length, ∀ virtAddr, (vmaUnregister nil fuel st virtAddr).isSome) := by
  obtain ⟨t, holds, perm, permNodes⟩ := reach.holds
  have size : t.toList.length = registered.length := by rw [← length_starts, perm.length_eq]
  refine ⟨⟨t, holds.rep, holds.balanced, holds.sorted, perm⟩,
    congrArg RbtNode.color holds.rep.nilNode, ?_, ?_, ?_⟩
  · intro fuel enough virtAddr
    obtain ⟨ctx, c, l, x, r, rfl, equal, member, found⟩ | ⟨absent, found⟩ :=
      holds.search (size ▸ enough) virtAddr
    · obtain ⟨notNil, data, -⟩ := holds.rep.parts
      rw [perm.mem_iff] at member
      exact ⟨x.ptr, found, by simp [notNil, member], fun _ => ⟨x.data, data, equal⟩⟩
    · rw [perm.mem_iff] at absent
      exact ⟨nil, found, by simp [absent], fun notNil => absurd rfl notNil⟩
  · intro fuel enough n unused notNil physAddress virtAddr size' flags
    rw [← permNodes.mem_iff] at unused
    obtain ⟨st', t', returned, -⟩ := holds.register physAddress virtAddr size' flags unused notNil (size ▸ enough)
    rw [returned]
    rfl
  · intro fuel enough virtAddr
    obtain ⟨n, st', t', -, returned, -⟩ := holds.unregister virtAddr (size ▸ enough)
    rw [returned]
    rfl

/-- Two areas registered one after the other: the search finds both and nothing else. -/
theorem vmaReach_tree_two_areas : ∃ st, VmaReach 1 st [0x600000, 0x400000] [3, 2] ∧
    (∀ virtAddr, ∃ n, vmaSearch 1 3 st virtAddr = some n ∧
      (n ≠ 1 ↔ virtAddr = 0x600000 ∨ virtAddr = 0x400000)) := by
  have start : VmaReach 1 _ [] [] := VmaReach.empty fun _ => ⟨none, 0, 0, 0, .red⟩
  have enough : (0 : Nat) < 2 ∧ 1 < 2 := by decide
  obtain ⟨first, firstResult⟩ := isSome_iff_exists.mp
    ((vmaReach_tree start).2.2.2.1 2 enough.1 2 (by simp) (by decide) 0x10000 0x400000 0x1000 7)
  have afterFirst := start.register 2 0x10000 0x400000 0x1000 7 (by simp) (by decide) enough.1 firstResult
  obtain ⟨second, secondResult⟩ := isSome_iff_exists.mp
    ((vmaReach_tree afterFirst).2.2.2.1 2 enough.2 3 (by decide) (by decide) 0x20000 0x600000 0x2000 7)
  have afterSecond := afterFirst.register 3 0x20000 0x600000 0x2000 7 (by decide) (by decide) enough.2
    secondResult
  refine ⟨second, afterSecond, fun virtAddr => ?_⟩
  obtain ⟨n, found, iff, -⟩ := (vmaReach_tree afterSecond).2.2.1 3 (by decide) virtAddr
  exact ⟨n, found, iff.trans (by simp)⟩

/-- **The rounds of a search**: at every point of a run its loop ends within twice the logarithm of the number of
areas, and one round. -/
theorem vmaReach_rounds (reach : VmaReach nil st registered nodes) (virtAddr : Nat) :
    ∃ n, vmaSearch nil (2 * (registered.length + 1).log2 + 1) st virtAddr = some n ∧
      (n ≠ nil ↔ virtAddr ∈ registered) := by
  obtain ⟨t, holds, perm, -⟩ := reach.holds
  have deep := holds.balanced.height_le
  rw [← length_starts, perm.length_eq] at deep
  have root := holds.rep.root
  rw [vmaSearch, root, rbtSearchNode_rounds (show RepTree nil st (plug [] t) from holds.rep) deep
    (Nat.le_add_right t.height t.toList.length), ← root]
  obtain ⟨ctx, c, l, x, r, rfl, -, member, found⟩ | ⟨absent, found⟩ :=
    holds.search (Nat.lt_succ_of_le (Nat.le_add_left _ t.height)) virtAddr
  · exact ⟨x.ptr, found, by simp [holds.rep.parts.1, perm.mem_iff.mp member]⟩
  · exact ⟨nil, found, by simp [perm.mem_iff.not.mp absent]⟩

/-- Page after page is registered. -/
theorem exists_vmaReach (k : Nat) : ∃ st, VmaReach 1 st ((List.range k).reverse.map fun i => 0x400000 + i * 0x1000)
    ((List.range k).reverse.map (· + 2)) := by
  induction k with
  | zero => exact ⟨_, .empty fun _ => ⟨none, 0, 0, 0, .red⟩⟩
  | succ k ih =>
    obtain ⟨st, reach⟩ := ih
    obtain ⟨t, holds, perm, permNodes⟩ := reach.holds
    have unused : k + 2 ∉ (List.range k).reverse.map (· + 2) := by simp
    obtain ⟨st', t', result, -⟩ := holds.register (n := k + 2) (0x100000 + k * 0x1000) (0x400000 + k * 0x1000) 0x1000 7
      (fun inside => unused (permNodes.mem_iff.mp inside)) (by omega) (Nat.lt_succ_self _)
    have enough := perm.length_eq.symm.trans (length_starts t)
    have next := reach.register (k + 2) _ _ 0x1000 7 unused (by omega) (enough ▸ Nat.lt_succ_self _) result
    have new : 0x400000 + k * 0x1000 ∉ (List.range k).reverse.map fun i => 0x400000 + i * 0x1000 := by simp
    rw [if_neg new, if_neg new] at next
    rw [List.range_succ, List.reverse_append]
    exact ⟨st', next⟩

/-- Among a hundred areas each search ends within 13 rounds. -/
theorem vmaReach_rounds_hundred : ∃ st, VmaReach 1 st ((List.range 100).reverse.map fun i => 0x400000 + i * 0x1000)
      ((List.range 100).reverse.map (· + 2)) ∧
    (∃ n, vmaSearch 1 13 st 0x463000 = some n ∧ n ≠ 1) ∧ vmaSearch 1 13 st 0x464000 = some 1 := by
  obtain ⟨st, reach⟩ := exists_vmaReach 100
  obtain ⟨n, found, iff⟩ := vmaReach_rounds reach 0x463000
  obtain ⟨m, missed, iff'⟩ := vmaReach_rounds reach 0x464000
  obtain rfl : m = 1 := not_not.mp (iff'.not.mpr (by decide))
  exact ⟨st, reach, ⟨n, found, iff.mpr (by decide)⟩, missed⟩

end Voxia.Memory
