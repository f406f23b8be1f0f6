/-
**Trees in memory.**

`RepTree nil st t` says that the memory holds the tree `t`: the root pointer, both child pointers, the parent pointer,
the colour and the data of every node, no node twice, and the sentinel untouched. The label of a node is its address
with its data. The fix-up loops make two kinds of writes: a colour and a rotation.
-/

import Voxia.Tree.Rbt
import Mathlib.Tactic

namespace Voxia.Tree

open Lib (Color Side)
open Lib.Tree (branch plug Frame before after)

variable {δ : Type}

structure Cell (δ : Type) where
  ptr : Nat
  data : δ

abbrev CellTree (δ : Type) := Voxia.Lib.Tree (Cell δ)

abbrev Path (δ : Type) := List (Frame (Cell δ))

def sentinel (nil : Nat) : RbtNode δ := ⟨none, nil, nil, nil, .black⟩

/-- The address of a subtree: that of its root, or the sentinel's. -/
def addr (nil : Nat) : CellTree δ → Nat
  | .leaf => nil
  | .node _ _ x _ => x.ptr

def ptrs (t : CellTree δ) : List Nat := t.toList.map Cell.ptr

def pathPtrs (ctx : Path δ) : List Nat := (before ctx ++ after ctx).map Cell.ptr

def above (nil : Nat) : Path δ → Nat
  | [] => nil
  | frame :: _ => frame.label.ptr

/-- What memory holds for one node, seen from a side. -/
structure Holds (node : RbtNode δ) (side : Side) (c : Color) (near : Nat) (data : δ) (far : Nat)
    (parent : Nat) : Prop where
  data : node.data = some data
  near : node.child side = near
  far : node.child side.opp = far
  parent : node.parent = parent
  color : node.color = c

/-- Memory holds a subtree below the given parent. -/
def Rep (nil : Nat) (heap : Nat → RbtNode δ) : Nat → CellTree δ → Prop
  | _, .leaf => True
  | parent, .node c l x r =>
      Holds (heap x.ptr) .left c (addr nil l) x.data (addr nil r) parent ∧
        Rep nil heap x.ptr l ∧ Rep nil heap x.ptr r

/-- Memory holds the tree, with the sentinel as it was initialised. -/
structure RepTree (nil : Nat) (st : Rbt δ) (t : CellTree δ) : Prop where
  root : st.root = addr nil t
  rep : Rep nil st.heap nil t
  nodup : (ptrs t).Nodup
  fresh : nil ∉ ptrs t
  nilNode : st.heap nil = sentinel nil

variable {nil : Nat} {st st' : Rbt δ} {heap heap' : Nat → RbtNode δ}

/-! ### Reading and writing nodes -/

theorem Rbt.modify_heap (st : Rbt δ) (p q : Nat) (f : RbtNode δ → RbtNode δ) :
    (st.modify p f).heap q = if q = p then f (st.heap p) else st.heap q := rfl

/-- What a node holds after a child pointer was written. -/
@[simp] theorem RbtNode.setChild_fields (node : RbtNode δ) (side : Side) (p : Nat) :
    (node.setChild side p).child side = p ∧ (node.setChild side p).child side.opp = node.child side.opp ∧
      (node.setChild side p).data = node.data ∧ (node.setChild side p).parent = node.parent ∧
      (node.setChild side p).color = node.color := by
  cases side <;> exact ⟨rfl, rfl, rfl, rfl, rfl⟩

variable {side : Side} {c : Color} {near far t t' : CellTree δ} {x : Cell δ} {p y par : Nat} {ctx : Path δ}
  {frame : Frame (Cell δ)}

theorem Holds.flip {node : RbtNode δ} {near far parent : Nat} {data : δ}
    (holds : Holds node side c near data far parent) : Holds node side.opp c far data near parent :=
  ⟨holds.data, holds.far, by rw [Side.opp_opp]; exact holds.near, holds.parent, holds.color⟩

/-! ### Addresses -/

@[simp] theorem addr_branch (side : Side) (c : Color) (near far : CellTree δ) (x : Cell δ) :
    addr nil (branch side c near x far) = x.ptr := by
  cases side <;> rfl

theorem mem_ptrs_branch : p ∈ ptrs (branch side c near x far) ↔ p = x.ptr ∨ p ∈ ptrs near ∨ p ∈ ptrs far := by
  rw [ptrs, ((Lib.Tree.toList_branch_perm side c near far x).map Cell.ptr).mem_iff]
  simp [ptrs]

theorem not_mem_ptrs_node : p ∉ ptrs (.node c near x far) ↔ p ≠ x.ptr ∧ p ∉ ptrs near ∧ p ∉ ptrs far := by
  rw [show Lib.Tree.node c near x far = branch .left c near x far from rfl, mem_ptrs_branch, not_or, not_or]

theorem nodup_branch :
    (ptrs (branch side c near x far)).Nodup ↔
      x.ptr ∉ ptrs near ∧ x.ptr ∉ ptrs far ∧ (ptrs near).Nodup ∧ (ptrs far).Nodup ∧
        (ptrs near).Disjoint (ptrs far) := by
  rw [ptrs, ((Lib.Tree.toList_branch_perm side c near far x).map Cell.ptr).nodup_iff]
  rw [List.map_cons, List.map_append, List.nodup_cons, List.nodup_append', List.mem_append, not_or,
    and_assoc]
  rfl

theorem ptrs_plug_perm (ctx : Path δ) (t : CellTree δ) : (ptrs (plug ctx t)).Perm (ptrs t ++ pathPtrs ctx) := by
  rw [ptrs, ptrs, pathPtrs, Lib.Tree.toList_plug, ← List.map_append]
  refine List.Perm.map _ ?_
  rw [← List.append_assoc]
  exact List.Perm.append_right _ List.perm_append_comm

theorem mem_ptrs_plug : p ∈ ptrs (plug ctx t) ↔ p ∈ ptrs t ∨ p ∈ pathPtrs ctx := by
  rw [(ptrs_plug_perm ctx t).mem_iff, List.mem_append]

theorem nodup_plug :
    (ptrs (plug ctx t)).Nodup ↔
      (ptrs t).Nodup ∧ (pathPtrs ctx).Nodup ∧ (ptrs t).Disjoint (pathPtrs ctx) := by
  rw [(ptrs_plug_perm ctx t).nodup_iff, List.nodup_append']

theorem mem_pathPtrs_cons :
    p ∈ pathPtrs (frame :: ctx) ↔
      p = frame.label.ptr ∨ p ∈ ptrs frame.sibling ∨ p ∈ pathPtrs ctx := by
  obtain ⟨side, c, x, sibling⟩ := frame
  cases side <;> simp [pathPtrs, before, after, ptrs, or_assoc, or_left_comm, or_comm]

theorem addr_mem (nil : Nat) (t : CellTree δ) : addr nil t = nil ∧ t = .leaf ∨ addr nil t ∈ ptrs t := by
  cases t with
  | leaf => exact .inl ⟨rfl, rfl⟩
  | node c l x r => exact .inr (by simp [addr, ptrs, Lib.Tree.toList])

theorem addr_mem_of_node (nil : Nat) (nonempty : t ≠ .leaf) : addr nil t ∈ ptrs t :=
  (addr_mem nil t).resolve_left fun both => nonempty both.2

theorem addr_mem_of_ne_nil (notNil : addr nil t ≠ nil) : addr nil t ∈ ptrs t :=
  (addr_mem nil t).resolve_left fun both => notNil both.1

theorem ne_addr_or_nil (nil : Nat) (outside : p ∉ ptrs t) : p ≠ addr nil t ∨ addr nil t = nil := by
  by_cases isNil : addr nil t = nil
  · exact .inr isNil
  · exact .inl fun equal => outside (equal ▸ addr_mem_of_ne_nil isNil)

/-! ### Parts of a tree -/

theorem rep_branch {parent : Nat} :
    Rep nil heap parent (branch side c near x far) ↔
      Holds (heap x.ptr) side c (addr nil near) x.data (addr nil far) parent ∧
        Rep nil heap x.ptr near ∧ Rep nil heap x.ptr far := by
  cases side with
  | left => exact Iff.rfl
  | right =>
    constructor
    · rintro ⟨holds, first, second⟩
      exact ⟨holds.flip, second, first⟩
    · rintro ⟨holds, first, second⟩
      exact ⟨holds.flip, second, first⟩

theorem Rep.congr {parent : Nat} (rep : Rep nil heap parent t)
    (same : ∀ p ∈ ptrs t, heap' p = heap p) : Rep nil heap' parent t := by
  induction t generalizing parent with
  | leaf => trivial
  | node c l x r ihl ihr =>
    obtain ⟨holds, left, right⟩ := rep
    have member : ∀ p, p = x.ptr ∨ p ∈ ptrs l ∨ p ∈ ptrs r → heap' p = heap p := by
      intro p inside
      have listed : p ∈ ptrs (branch .left c l x r) := mem_ptrs_branch.mpr inside
      exact same p listed
    refine ⟨?_, ihl left fun p inside => member p (.inr (.inl inside)),
      ihr right fun p inside => member p (.inr (.inr inside))⟩
    rw [member _ (.inl rfl)]
    exact holds

theorem Rep.unique {parent parent' : Nat} (rep : Rep nil heap parent t) (rep' : Rep nil heap parent' t')
    (fresh : nil ∉ ptrs t) (fresh' : nil ∉ ptrs t') (same : addr nil t = addr nil t') : t = t' := by
  induction t generalizing parent parent' t' with
  | leaf =>
    obtain ⟨-, isLeaf⟩ | inside := addr_mem nil t'
    · exact isLeaf.symm
    · rw [← same] at inside
      exact absurd inside fresh'
  | node c l x r ihl ihr =>
    cases t' with
    | leaf => exact absurd (show nil = x.ptr from Eq.symm same) (not_mem_ptrs_node.mp fresh).1
    | node c' l' x' r' =>
      obtain ⟨holds, left, right⟩ := rep
      obtain ⟨holds', left', right'⟩ := rep'
      have ptr : x.ptr = x'.ptr := same
      rw [← ptr] at holds'
      have data : x = x' := by
        have equal := Option.some.inj (holds.data.symm.trans holds'.data)
        cases x
        simp_all
      obtain ⟨-, freshL, freshR⟩ := not_mem_ptrs_node.mp fresh
      obtain ⟨-, freshL', freshR'⟩ := not_mem_ptrs_node.mp fresh'
      rw [holds.color.symm.trans holds'.color, data, ihl left left' freshL freshL' (holds.near.symm.trans holds'.near),
        ihr right right' freshR freshR' (holds.far.symm.trans holds'.far)]

theorem RepTree.unique (tree : RepTree nil st t) (tree' : RepTree nil st t') : t = t' :=
  tree.rep.unique tree'.rep tree.fresh tree'.fresh (tree.root.symm.trans tree'.root)

theorem Rep.reparent {parent q : Nat} (rep : Rep nil heap parent t) (nodup : (ptrs t).Nodup)
    (root : t ≠ .leaf → heap' (addr nil t) = { heap (addr nil t) with parent := q })
    (same : ∀ p ∈ ptrs t, p ≠ addr nil t → heap' p = heap p) : Rep nil heap' q t := by
  cases t with
  | leaf => trivial
  | node c l x r =>
    obtain ⟨holds, left, right⟩ := rep
    have apart : (ptrs (branch .left c l x r)).Nodup := nodup
    obtain ⟨notLeft, notRight, -⟩ := nodup_branch.mp apart
    have member : ∀ p, p ∈ ptrs l ∨ p ∈ ptrs r → heap' p = heap p := by
      intro p inside
      have listed : p ∈ ptrs (branch .left c l x r) := mem_ptrs_branch.mpr (.inr inside)
      refine same p listed ?_
      rintro rfl
      exact inside.elim notLeft notRight
    refine ⟨?_, left.congr fun p inside => member p (.inl inside),
      right.congr fun p inside => member p (.inr inside)⟩
    have written : heap' x.ptr = { heap x.ptr with parent := q } := root (by simp)
    rw [written]
    exact ⟨holds.data, holds.near, holds.far, rfl, holds.color⟩

/-- Memory holds the nodes around a position with the given address in it. -/
def RepPath (nil : Nat) (heap : Nat → RbtNode δ) : Path δ → Nat → Prop
  | [], _ => True
  | frame :: ctx, child =>
      Holds (heap frame.label.ptr) frame.side frame.color child frame.label.data
          (addr nil frame.sibling) (above nil ctx) ∧
        Rep nil heap frame.label.ptr frame.sibling ∧ RepPath nil heap ctx frame.label.ptr

theorem rep_plug :
    Rep nil heap nil (plug ctx t) ↔
      Rep nil heap (above nil ctx) t ∧ RepPath nil heap ctx (addr nil t) := by
  induction ctx generalizing t with
  | nil => exact (and_iff_left trivial).symm
  | cons frame ctx ih =>
    rw [plug, ih, Frame.fill, rep_branch, addr_branch]
    simp only [RepPath, above]
    tauto

theorem RepPath.congr {child : Nat} (rep : RepPath nil heap ctx child)
    (same : ∀ p ∈ pathPtrs ctx, heap' p = heap p) : RepPath nil heap' ctx child := by
  induction ctx generalizing child with
  | nil => trivial
  | cons frame ctx ih =>
    obtain ⟨holds, sibling, outer⟩ := rep
    refine ⟨?_, sibling.congr fun p inside => same p (mem_pathPtrs_cons.mpr (.inr (.inl inside))),
      ih outer fun p inside => same p (mem_pathPtrs_cons.mpr (.inr (.inr inside)))⟩
    rw [same _ (mem_pathPtrs_cons.mpr (.inl rfl))]
    exact holds

/-- The pointer down to a position (the root pointer, or a child pointer of the node above) now
leads to the given address. -/
def Linked (st st' : Rbt δ) (ctx : Path δ) (child : Nat) : Prop :=
  match ctx with
  | [] => st'.root = child
  | frame :: _ => st'.root = st.root ∧
      st'.heap frame.label.ptr = (st.heap frame.label.ptr).setChild frame.side child

theorem addr_plug_cons (frame : Frame (Cell δ)) (ctx : Path δ) (t t' : CellTree δ) :
    addr nil (plug (frame :: ctx) t) = addr nil (plug (frame :: ctx) t') := by
  induction ctx generalizing frame t t' with
  | nil => rw [plug, plug, plug, plug, Frame.fill, Frame.fill, addr_branch, addr_branch]
  | cons outer ctx ih => exact ih outer (frame.fill t) (frame.fill t')

/-- **The general step**: a subtree is exchanged for another one. -/
theorem RepTree.exchange (tree : RepTree nil st (plug ctx t)) (rep : Rep nil st'.heap (above nil ctx) t')
    (linked : Linked st st' ctx (addr nil t')) (same : ∀ p ∈ pathPtrs ctx, p ≠ above nil ctx → st'.heap p = st.heap p)
    (nodup : (ptrs (plug ctx t')).Nodup) (fresh : nil ∉ ptrs t')
    (nilNode : st'.heap nil = st.heap nil) : RepTree nil st' (plug ctx t') := by
  have nilFree : nil ∉ pathPtrs ctx := fun inside => tree.fresh (mem_ptrs_plug.mpr (.inr inside))
  refine ⟨?_, rep_plug.mpr ⟨rep, ?_⟩, nodup, ?_, nilNode.trans tree.nilNode⟩
  · cases ctx with
    | nil => exact linked
    | cons frame ctx => rw [linked.1, tree.root]; exact addr_plug_cons frame ctx t t'
  · have old := (rep_plug.mp tree.rep).2
    cases ctx with
    | nil => trivial
    | cons frame ctx =>
      have whole : (ptrs (plug ctx (frame.fill t))).Nodup := tree.nodup
      have apart := nodup_plug.mp whole
      obtain ⟨-, notSibling, -⟩ := nodup_branch.mp apart.1
      have labelOut : frame.label.ptr ∉ pathPtrs ctx := fun inside =>
        apart.2.2 (mem_ptrs_branch.mpr (.inl rfl)) inside
      obtain ⟨holds, sibling, outer⟩ := old
      refine ⟨?_, sibling.congr fun p inside => ?_, outer.congr fun p inside => ?_⟩
      · rw [linked.2]
        exact ⟨by simpa using holds.data, by simp, by simpa using holds.far,
          by simpa using holds.parent, by simpa using holds.color⟩
      · refine same p (mem_pathPtrs_cons.mpr (.inr (.inl inside))) ?_
        rintro rfl
        exact notSibling inside
      · refine same p (mem_pathPtrs_cons.mpr (.inr (.inr inside))) ?_
        rintro rfl
        exact labelOut inside
  · rw [mem_ptrs_plug, not_or]
    exact ⟨fresh, nilFree⟩

/-! ### Reading -/

/-- What reading a node gives, at any position. -/
theorem RepTree.node (tree : RepTree nil st (plug ctx (branch side c near x far))) :
    Holds (st.heap x.ptr) side c (addr nil near) x.data (addr nil far) (above nil ctx) :=
  (rep_branch.mp (rep_plug.mp tree.rep).1).1

theorem RepTree.ptr_ne_nil (tree : RepTree nil st (plug ctx (branch side c near x far))) : x.ptr ≠ nil := by
  rintro rfl
  exact tree.fresh (mem_ptrs_plug.mpr (.inl (mem_ptrs_branch.mpr (.inl rfl))))

theorem RepTree.parts (tree : RepTree nil st (plug ctx (.node c near x far))) :
    x.ptr ≠ nil ∧ (st.heap x.ptr).data = some x.data ∧ (st.heap x.ptr).left = addr nil near ∧
      (st.heap x.ptr).right = addr nil far ∧ RepTree nil st (plug (⟨.left, c, x, far⟩ :: ctx) near) ∧
      RepTree nil st (plug (⟨.right, c, x, near⟩ :: ctx) far) := by
  have whole : RepTree nil st (plug ctx (branch .left c near x far)) := tree
  exact ⟨whole.ptr_ne_nil, whole.node.data, whole.node.near, whole.node.far, tree, tree⟩

section

variable (tree : RepTree nil st (plug ctx t))

include tree

theorem RepTree.color : st.color (addr nil t) = t.color := by
  cases t with
  | leaf => exact congrArg RbtNode.color tree.nilNode
  | node c l x r =>
    have whole : RepTree nil st (plug ctx (branch .left c l x r)) := tree
    exact whole.node.color

theorem RepTree.parent (nonempty : t ≠ .leaf) : st.parent (addr nil t) = above nil ctx := by
  obtain ⟨c, near, x, far, rfl⟩ := Lib.Tree.exists_branch .left nonempty
  exact tree.node.parent

theorem RepTree.addr_ne (inside : p ∈ pathPtrs ctx) : addr nil t ≠ p := by
  rintro rfl
  obtain ⟨isNil, -⟩ | member := addr_mem nil t
  · rw [isNil] at inside
    exact tree.fresh (mem_ptrs_plug.mpr (.inr inside))
  · exact (nodup_plug.mp tree.nodup).2.2 member inside

/-! ### Writing -/

theorem RepTree.nodup_perm (perm : (ptrs t').Perm (ptrs t)) : (ptrs (plug ctx t')).Nodup := by
  have old := (ptrs_plug_perm ctx t).nodup_iff.mp tree.nodup
  refine (ptrs_plug_perm ctx t').nodup_iff.mpr ?_
  exact (perm.append_right _).nodup_iff.mpr old

theorem RepTree.update (rep : Rep nil st'.heap (above nil ctx) t') (address : addr nil t' = addr nil t)
    (root : st'.root = st.root) (same : ∀ p, p ∉ ptrs t → st'.heap p = st.heap p)
    (perm : (ptrs t').Perm (ptrs t)) : RepTree nil st' (plug ctx t') := by
  have outside : ∀ p ∈ pathPtrs ctx, st'.heap p = st.heap p := fun p inside =>
    same p fun member => (nodup_plug.mp tree.nodup).2.2 member inside
  have nilOut : nil ∉ ptrs t := fun inside => tree.fresh (mem_ptrs_plug.mpr (.inl inside))
  refine tree.exchange rep ?_ (fun p inside _ => outside p inside) (tree.nodup_perm perm)
    (fun inside => nilOut (perm.mem_iff.mp inside)) (same nil nilOut)
  cases ctx with
  | nil => rw [Linked, root, tree.root, address]; rfl
  | cons frame ctx =>
    have holds := (rep_plug.mp tree.rep).2.1
    refine ⟨root, ?_⟩
    rw [outside _ (mem_pathPtrs_cons.mpr (.inl rfl)), address, ← holds.near]
    cases frame.side <;> rfl

end

/-- A node gets another colour. -/
theorem RepTree.setColor (tree : RepTree nil st (plug ctx (branch side c near x far))) (c' : Color) :
    RepTree nil (st.setColor x.ptr c') (plug ctx (branch side c' near x far)) := by
  obtain ⟨holds, nearRep, farRep⟩ := rep_branch.mp (rep_plug.mp tree.rep).1
  obtain ⟨notNear, notFar, -⟩ := nodup_branch.mp (nodup_plug.mp tree.nodup).1
  have other : ∀ p, p ≠ x.ptr → (st.setColor x.ptr c').heap p = st.heap p := fun p different =>
    if_neg different
  refine tree.update (rep_branch.mpr ⟨?_, ?_, ?_⟩) (by simp) rfl ?_ ?_
  · have written : (st.setColor x.ptr c').heap x.ptr = { st.heap x.ptr with color := c' } := if_pos rfl
    rw [written]
    exact ⟨holds.data, holds.near, holds.far, holds.parent, rfl⟩
  · exact nearRep.congr fun p inside => other p fun equal => notNear (equal ▸ inside)
  · exact farRep.congr fun p inside => other p fun equal => notFar (equal ▸ inside)
  · intro p outside
    exact other p fun equal => outside (mem_ptrs_branch.mpr (.inl equal))
  · rw [ptrs, ptrs, Lib.Tree.toList_branch_color side c' c]

@[simp] theorem Rbt.setColor_root (st : Rbt δ) (p : Nat) (c : Color) : (st.setColor p c).root = st.root := rfl

@[simp] theorem Rbt.setColor_child (st : Rbt δ) (p q : Nat) (c : Color) (side : Side) :
    (st.setColor p c).child side q = st.child side q := by
  unfold Rbt.child Rbt.setColor
  rw [Rbt.modify_heap]
  split_ifs with equal
  · rw [equal]
    cases side <;> rfl
  · rfl

@[simp] theorem Rbt.setColor_parent (st : Rbt δ) (p q : Nat) (c : Color) :
    (st.setColor p c).parent q = st.parent q := by
  unfold Rbt.parent Rbt.setColor
  rw [Rbt.modify_heap]
  split_ifs with equal
  · rw [equal]
  · rfl

theorem RepTree.blacken (tree : RepTree nil st (plug ctx t)) :
    RepTree nil (st.setColor (addr nil t) .black) (plug ctx t.blacken) := by
  cases t with
  | leaf =>
    have same : (st.setColor nil .black) = st := by
      obtain ⟨root, heap⟩ := st
      have black : (heap nil).color = .black := congrArg RbtNode.color tree.nilNode
      simp only [Rbt.setColor, Rbt.modify, Rbt.mk.injEq, true_and]
      funext q
      split_ifs with equal
      · rw [equal, ← black]
      · rfl
    exact same.symm ▸ tree
  | node c l x r =>
    have whole : RepTree nil st (plug ctx (branch .left c l x r)) := tree
    exact whole.setColor .black

theorem Rbt.setChild_heap (st : Rbt δ) (side : Side) (p q r : Nat) :
    (st.setChild side p q).heap r = if r = p then (st.heap p).setChild side q else st.heap r := rfl

theorem Rbt.setParent_heap (st : Rbt δ) (p q r : Nat) :
    (st.setParent p q).heap r = if r = p then { st.heap p with parent := q } else st.heap r := rfl

theorem Rbt.setColor_heap (st : Rbt δ) (p r : Nat) (c : Color) :
    (st.setColor p c).heap r = if r = p then { st.heap p with color := c } else st.heap r := rfl

theorem reparent_heap (nil : Nat) (st : Rbt δ) (p q r : Nat) :
    (reparent nil st p q).heap r =
      if r = p ∧ p ≠ nil then { st.heap p with parent := q } else st.heap r := by
  unfold reparent
  split_ifs <;> simp_all [Rbt.setParent_heap]

@[simp] theorem reparent_root (nil : Nat) (st : Rbt δ) (p q : Nat) : (reparent nil st p q).root = st.root := by
  unfold reparent
  split_ifs <;> rfl

theorem replaceChild_heap (nil : Nat) (side : Side) (st : Rbt δ) (z x r : Nat) :
    (replaceChild nil side st z x).heap r =
      if r = st.parent z ∧ st.parent z ≠ nil then
        (st.heap r).setChild (if z = st.child side (st.parent z) then side else side.opp) x
      else st.heap r := by
  unfold replaceChild
  by_cases noParent : st.parent z = nil
  · simp [noParent]
  by_cases atParent : r = st.parent z
  · subst atParent
    simp only [ne_eq, noParent, not_false_eq_true, and_self, if_true]
    by_cases first : z = st.child side (st.parent z)
    · simp only [if_pos first]
      exact if_pos rfl
    · simp only [if_neg first]
      exact if_pos rfl
  · simp only [if_neg noParent, atParent, false_and, if_false]
    split_ifs <;> exact if_neg atParent

theorem replaceChild_root (nil : Nat) (side : Side) (st : Rbt δ) (z x : Nat) :
    (replaceChild nil side st z x).root = if st.parent z = nil then x else st.root := by
  unfold replaceChild
  split_ifs <;> rfl

theorem RepTree.addr_ne_sibling (tree : RepTree nil st (plug (frame :: ctx) t)) (nonempty : t ≠ .leaf) :
    addr nil t ≠ addr nil frame.sibling := by
  have inner : (ptrs (plug ctx (frame.fill t))).Nodup := tree.nodup
  have apart := (nodup_branch.mp (nodup_plug.mp inner).1).2.2.2.2
  intro equal
  obtain ⟨-, isLeaf⟩ | member := addr_mem nil t
  · exact nonempty isLeaf
  · obtain ⟨isNil, -⟩ | other := addr_mem nil frame.sibling
    · rw [equal, isNil] at member
      exact tree.fresh (mem_ptrs_plug.mpr (.inl member))
    · rw [equal] at member
      exact apart member other

/-- **Which child a node is.** The source asks for one side only. -/
theorem RepTree.side_test (tree : RepTree nil st (plug (frame :: ctx) t))
    (apart : addr nil t ≠ addr nil frame.sibling) (side : Side) :
    addr nil t = st.child side frame.label.ptr ↔ frame.side = side := by
  have inner : RepTree nil st (plug ctx (branch frame.side frame.color t frame.label frame.sibling)) :=
    tree
  have holds := inner.node
  constructor
  · intro equal
    by_contra different
    have other : side = frame.side.opp := Side.eq_opp_of_ne (Ne.symm different)
    rw [Rbt.child, other, holds.far] at equal
    exact apart equal
  · rintro rfl
    exact holds.near.symm

theorem RepTree.linked (tree : RepTree nil st (plug ctx t)) (nonempty : t ≠ .leaf) (side : Side) (q : Nat)
    (root : st'.root = if above nil ctx = nil then q else st.root)
    (written : above nil ctx ≠ nil → st'.heap (above nil ctx) =
      (st.heap (above nil ctx)).setChild
        (if addr nil t = st.child side (above nil ctx) then side else side.opp) q) : Linked st st' ctx q := by
  cases ctx with
  | nil => rw [Linked, root, if_pos]; rfl
  | cons frame ctx =>
    have inner : RepTree nil st (plug ctx (branch frame.side frame.color t frame.label frame.sibling)) :=
      tree
    have notNil : above nil (frame :: ctx) ≠ nil := inner.ptr_ne_nil
    refine ⟨root.trans (if_neg notNil), (written notNil).trans ?_⟩
    have decide : addr nil t = st.child side (above nil (frame :: ctx)) ↔ frame.side = side :=
      tree.side_test (tree.addr_ne_sibling nonempty) side
    by_cases sameSide : frame.side = side
    · rw [if_pos (decide.mpr sameSide), sameSide]
      rfl
    · rw [if_neg (fun equal => sameSide (decide.mp equal)), ← Side.eq_opp_of_ne sameSide]
      rfl

/-- What memory holds after a rotation at `x`: `y` is the child that comes up, `b` the subtree that
changes sides. -/
theorem rbtRotate_heap (nil : Nat) (st : Rbt δ) (side : Side) {x b : Nat} (childY : (st.heap x).child side.opp = y)
    (childB : (st.heap y).child side = b) (parentX : (st.heap x).parent = par) (xy : x ≠ y)
    (bx : b ≠ x) (byy : b ≠ y) (px : par ≠ x) (py : par ≠ y) (pb : par = b → b = nil) (p : Nat) :
    (rbtRotate nil side st x).heap p =
      if p = x then { (st.heap x).setChild side.opp b with parent := y }
      else if p = y then { (st.heap y).setChild side x with parent := par }
      else if p = b ∧ b ≠ nil then { st.heap b with parent := x }
      else if p = par ∧ par ≠ nil then
        (st.heap p).setChild (if x = (st.heap par).child side then side else side.opp) y
      else st.heap p := by
  have parB : ¬ (par = b ∧ ¬ b = nil) := fun both => both.2 (pb both.1)
  simp only [rbtRotate, Rbt.child, Rbt.parent, Rbt.setChild_heap, Rbt.setParent_heap, reparent_heap,
    replaceChild_heap, childY, childB, parentX, xy, xy.symm, bx, bx.symm, byy.symm, px, py, px.symm,
    parB, ne_eq, if_false, if_true, false_and, RbtNode.setChild_fields]
  by_cases atX : p = x
  · simp only [atX, if_true]
  by_cases atY : p = y
  · simp only [atY, py.symm, xy.symm, if_true, if_false, false_and]
    cases side <;> rfl
  by_cases atB : p = b ∧ ¬ b = nil
  · have notPar : ¬ (p = par ∧ ¬ par = nil) := by
      rintro ⟨rfl, notNil⟩
      exact notNil (atB.1.trans (pb atB.1))
    simp only [if_neg atX, if_neg atY, if_neg notPar, if_pos atB]
  · simp only [if_neg atX, if_neg atY, if_neg atB]

theorem rbtRotate_root (side : Side) {x : Nat} (childY : (st.heap x).child side.opp = y)
    (parentX : (st.heap x).parent = par) (xy : x ≠ y) (bx : (st.heap y).child side ≠ x) :
    (rbtRotate nil side st x).root = if par = nil then y else st.root := by
  simp only [rbtRotate, Rbt.setParent, Rbt.setChild, Rbt.modify, replaceChild_root, reparent_root]
  simp [Rbt.child, Rbt.parent, reparent_heap, childY, parentX, xy, xy.symm, bx.symm]

theorem RepTree.above_ne (tree : RepTree nil st (plug ctx t)) (inside : p ∈ ptrs t) : above nil ctx ≠ p := by
  rintro rfl
  cases ctx with
  | nil => exact tree.fresh (mem_ptrs_plug.mpr (.inl inside))
  | cons frame ctx =>
    exact (nodup_plug.mp tree.nodup).2.2 inside (mem_pathPtrs_cons.mpr (.inl rfl))

theorem addr_ne_of_not_mem (notNil : p ≠ nil) (outside : p ∉ ptrs t) : addr nil t ≠ p := by
  rintro rfl
  obtain ⟨isNil, -⟩ | member := addr_mem nil t
  · exact notNil isNil
  · exact outside member

/-- A rotation in memory is one of the tree. -/
theorem RepTree.rotate {d : Color} {a b e : CellTree δ} {y : Cell δ}
    (tree : RepTree nil st (plug ctx (branch side c a x (branch side d b y e)))) :
    RepTree nil (rbtRotate nil side st x.ptr) (plug ctx (branch side d (branch side c a x b) y e)) := by
  obtain ⟨holdsX, repA, repYE⟩ := rep_branch.mp (rep_plug.mp tree.rep).1
  obtain ⟨holdsY, repB, repE⟩ := rep_branch.mp repYE
  obtain ⟨xa, xye, -, nodupYE, disjoint⟩ := nodup_branch.mp (nodup_plug.mp tree.nodup).1
  obtain ⟨yb, ye, nodupB, -, bDisjointE⟩ := nodup_branch.mp nodupYE
  simp only [mem_ptrs_branch, not_or] at xye
  have ya : y.ptr ∉ ptrs a := fun inside => disjoint inside (mem_ptrs_branch.mpr (.inl rfl))
  have ab : ∀ p ∈ ptrs a, p ∉ ptrs b := fun p inA inB =>
    disjoint inA (mem_ptrs_branch.mpr (.inr (.inl inB)))
  have listed : ∀ p, p = x.ptr ∨ p ∈ ptrs a ∨ p = y.ptr ∨ p ∈ ptrs b ∨ p ∈ ptrs e →
      p ∈ ptrs (branch side c a x (branch side d b y e)) := by
    intro p inside
    simpa only [mem_ptrs_branch] using inside
  have xNil := tree.ptr_ne_nil
  have yNil : y.ptr ≠ nil := by
    rintro rfl
    exact tree.fresh (mem_ptrs_plug.mpr (.inl (listed _ (by simp))))
  have parOut : ∀ p, p = x.ptr ∨ p ∈ ptrs a ∨ p = y.ptr ∨ p ∈ ptrs b ∨ p ∈ ptrs e →
      p ≠ above nil ctx := fun p inside => (tree.above_ne (listed p inside)).symm
  have heap := rbtRotate_heap nil st side (by simpa using holdsX.far) holdsY.near
    holdsX.parent xye.1 (addr_ne_of_not_mem xNil xye.2.1) (addr_ne_of_not_mem yNil yb)
    (parOut _ (by simp)).symm (parOut _ (by simp)).symm (by
      intro equal
      obtain ⟨isNil, -⟩ | member := addr_mem nil b
      · exact isNil
      · exact absurd equal.symm (parOut _ (by simp [member])))
  have heapX : (rbtRotate nil side st x.ptr).heap x.ptr =
      { (st.heap x.ptr).setChild side.opp (addr nil b) with parent := y.ptr } := by
    rw [heap, if_pos rfl]
  have heapY : (rbtRotate nil side st x.ptr).heap y.ptr =
      { (st.heap y.ptr).setChild side x.ptr with parent := above nil ctx } := by
    rw [heap, if_neg (Ne.symm xye.1), if_pos rfl]
  have other : ∀ p, p ≠ x.ptr → p ≠ y.ptr → p ≠ addr nil b ∨ addr nil b = nil →
      p ≠ above nil ctx → (rbtRotate nil side st x.ptr).heap p = st.heap p := by
    intro p px py pb pPar
    rw [heap, if_neg px, if_neg py, if_neg, if_neg fun both => pPar both.1]
    rintro ⟨equal, notNil⟩
    exact pb.elim (· equal) notNil
  refine tree.exchange (rep_branch.mpr ⟨?_, rep_branch.mpr ⟨?_, ?_, ?_⟩, ?_⟩) ?_ ?_
    (tree.nodup_perm ?_) ?_ ?_
  · rw [heapY]
    exact ⟨by simpa using holdsY.data, by cases side <;> simp [RbtNode.child, RbtNode.setChild],
      by cases side <;> exact holdsY.far, rfl, by simpa using holdsY.color⟩
  · rw [heapX]
    exact ⟨by simpa using holdsX.data, by cases side <;> exact holdsX.near,
      by cases side <;> rfl, rfl, by simpa using holdsX.color⟩
  · refine repA.congr fun p inside => other p ?_ ?_ (ne_addr_or_nil nil (ab p inside)) (parOut p (by simp [inside]))
    · exact fun equal => xa (equal ▸ inside)
    · exact fun equal => ya (equal ▸ inside)
  · refine repB.reparent nodupB (fun nonempty => ?_) fun p inside different => ?_
    · have member := addr_mem_of_node nil nonempty
      have notNil : addr nil b ≠ nil := fun isNil =>
        tree.fresh (mem_ptrs_plug.mpr (.inl (listed _ (isNil ▸ .inr (.inr (.inr (.inl member)))))))
      rw [heap, if_neg (addr_ne_of_not_mem xNil xye.2.1), if_neg (addr_ne_of_not_mem yNil yb),
        if_pos ⟨rfl, notNil⟩]
    · refine other p ?_ ?_ (.inl different) (parOut p (by simp [inside]))
      · exact fun equal => xye.2.1 (equal ▸ inside)
      · exact fun equal => yb (equal ▸ inside)
  · refine repE.congr fun p inside => other p ?_ ?_ (ne_addr_or_nil nil fun inB => bDisjointE inB inside)
      (parOut p (by simp [inside]))
    · exact fun equal => xye.2.2 (equal ▸ inside)
    · exact fun equal => ye (equal ▸ inside)
  · rw [addr_branch]
    refine tree.linked (Lib.Tree.branch_ne_leaf _ _ _ _ _) side _ ?_ fun notNil => ?_
    · exact rbtRotate_root side (by simpa using holdsX.far) holdsX.parent xye.1
        (by rw [holdsY.near]; exact addr_ne_of_not_mem xNil xye.2.1)
    · have aboveB : ¬ (above nil ctx = addr nil b ∧ addr nil b ≠ nil) := fun both =>
        parOut _ (.inr (.inr (.inr (.inl (addr_mem_of_ne_nil both.2))))) both.1.symm
      rw [heap, if_neg (parOut _ (by simp)).symm, if_neg (parOut _ (by simp)).symm, if_neg aboveB,
        if_pos ⟨rfl, notNil⟩, addr_branch]
      rfl
  · intro p inside different
    have outside : ∀ q ∈ ptrs (branch side c a x (branch side d b y e)), p ≠ q := fun q member equal =>
      (nodup_plug.mp tree.nodup).2.2 member (equal ▸ inside)
    refine other p (outside _ (listed _ (by simp))) (outside _ (listed _ (by simp))) (ne_addr_or_nil nil ?_) different
    exact fun inB => outside p (listed p (by simp [inB])) rfl
  · rw [ptrs, ptrs, Lib.Tree.toList_rotate side c d d c]
  · intro inside
    refine tree.fresh (mem_ptrs_plug.mpr (.inl (listed _ ?_)))
    simp only [mem_ptrs_branch] at inside
    tauto
  · have outside : ∀ q ∈ ptrs (branch side c a x (branch side d b y e)), nil ≠ q := fun q member equal =>
      tree.fresh (mem_ptrs_plug.mpr (.inl (equal ▸ member)))
    rw [heap, if_neg (outside _ (listed _ (by simp))), if_neg (outside _ (listed _ (by simp))),
      if_neg fun both => both.2 both.1.symm, if_neg fun both => both.2 both.1.symm]

end Voxia.Tree
