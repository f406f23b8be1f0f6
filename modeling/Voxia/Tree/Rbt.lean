/-
**The intrusive red-black tree of the kernel.**

Nodes live in memory, a map from addresses to `RbtNode`; all trees share one sentinel node, whose
address `nil` stands for "no child" and "no parent". The header writes every rotation and every
fix-up case twice, once for each side; here one definition takes the side as a parameter, and the
two named ones of the source are its instances. Loops carry fuel: `none` is a loop that has not
finished, or a read through the null data pointer.
-/

import Voxia.Lib.RedBlack

namespace Voxia.Tree

open Lib (Color Side)

variable {δ : Type}

/-- `struct rbt_node`; the data pointer may be null. -/
structure RbtNode (δ : Type) where
  data : Option δ
  left : Nat
  right : Nat
  parent : Nat
  color : Color
  deriving DecidableEq

namespace RbtNode

def child (node : RbtNode δ) : Side → Nat
  | .left => node.left
  | .right => node.right

def setChild (side : Side) (p : Nat) (node : RbtNode δ) : RbtNode δ :=
  match side with
  | .left => { node with left := p }
  | .right => { node with right := p }

end RbtNode

/-- The memory and the root pointer of one tree. -/
structure Rbt (δ : Type) where
  root : Nat
  heap : Nat → RbtNode δ

variable (st : Rbt δ)

namespace Rbt

def modify (p : Nat) (f : RbtNode δ → RbtNode δ) : Rbt δ :=
  { st with heap := fun q => if q = p then f (st.heap p) else st.heap q }

def child (side : Side) (p : Nat) : Nat := (st.heap p).child side

def parent (p : Nat) : Nat := (st.heap p).parent

def color (p : Nat) : Color := (st.heap p).color

def setChild (side : Side) (p q : Nat) : Rbt δ := st.modify p (RbtNode.setChild side q)

def setParent (p q : Nat) : Rbt δ := st.modify p fun node => { node with parent := q }

def setColor (p : Nat) (c : Color) : Rbt δ :=
  st.modify p fun node => { node with color := c }

end Rbt

section Operations

variable (key : δ → Nat) (nil : Nat)

/-- `if (p != NIL) p->parent = q`. -/
def reparent (st : Rbt δ) (p q : Nat) : Rbt δ := if p ≠ nil then st.setParent p q else st

section

variable (side : Side) (st : Rbt δ)

/-- The parent of `z` (or the root pointer) gets `x` in its place. The source asks first whether `z`
is the child on the given side. -/
def replaceChild (z x : Nat) : Rbt δ :=
  if st.parent z = nil then { st with root := x }
  else if z = st.child side (st.parent z) then st.setChild side (st.parent z) x
  else st.setChild side.opp (st.parent z) x

/-! ### Rotations -/

/-- A rotation at `x` towards the given side; the child on the other side comes up. -/
def rbtRotate (x : Nat) : Rbt δ :=
  let y := st.child side.opp x
  let st := st.setChild side.opp x (st.child side y)
  let st := reparent nil st (st.child side y) x
  let st := st.setParent y (st.parent x)
  let st := replaceChild nil side st x y
  let st := st.setChild side y x
  st.setParent x y

def rbtRotateLeft (x : Nat) : Rbt δ := rbtRotate nil .left st x

def rbtRotateRight (y : Nat) : Rbt δ := rbtRotate nil .right st y

/-! ### Insertion -/

/-- One round of the insertion fix-up, for a parent on the given side of the grandparent. -/
def fixInsertAt (y : Nat) : Rbt δ × Nat :=
  let x := st.child side.opp (st.parent (st.parent y))
  if x ≠ nil ∧ st.color x = .red then
    let st := st.setColor (st.parent y) .black
    let st := st.setColor x .black
    let st := st.setColor (st.parent (st.parent y)) .red
    (st, st.parent (st.parent y))
  else
    let (st, y) :=
      if y = st.child side.opp (st.parent y) then
        (rbtRotate nil side st (st.parent y), st.parent y)
      else (st, y)
    let st := st.setColor (st.parent y) .black
    let st := st.setColor (st.parent (st.parent y)) .red
    (rbtRotate nil side.opp st (st.parent (st.parent y)), y)

end

def rbtFixInsert (fuel : Nat) (st : Rbt δ) (y : Nat) : Option (Rbt δ) :=
  match fuel with
  | 0 => none
  | fuel + 1 =>
    if st.color (st.parent y) = .red then
      let side := if st.parent y = st.child .left (st.parent (st.parent y)) then .left else .right
      let (st, y) := fixInsertAt nil side st y
      rbtFixInsert fuel st y
    else some (st.setColor st.root .black)

/-- The search for the place of a new key: the last node passed. -/
def insertParent (fuel : Nat) (st : Rbt δ) (id parent curent : Nat) : Option Nat :=
  match fuel with
  | 0 => none
  | fuel + 1 =>
    if curent = nil then some parent
    else do
      let data ← (st.heap curent).data
      insertParent fuel st id curent (st.child (if id < key data then .left else .right) curent)

/-- `rbt_insert_node` (its result is always 1). -/
def rbtInsertNode (fuel : Nat) (st : Rbt δ) (z : Nat) (data : δ) : Option (Rbt δ) := do
  let st := st.modify z fun _ => ⟨some data, nil, nil, 0, .red⟩
  let parent ← insertParent key nil fuel st (key data) nil st.root
  let st := st.setParent z parent
  let st ←
    if parent = nil then some { st with root := z }
    else do
      let above ← (st.heap parent).data
      some (st.setChild (if key data < key above then .left else .right) parent z)
  if st.parent z = nil then some (st.setColor z .black)
  else if st.parent (st.parent z) = nil then some st
  else rbtFixInsert nil fuel st z

def rbtSearchNode (fuel : Nat) (st : Rbt δ) (curr id : Nat) : Option Nat :=
  match fuel with
  | 0 => none
  | fuel + 1 =>
    if curr = nil then some curr
    else
      match (st.heap curr).data with
      | none => some curr
      | some data =>
        if key data = id then some curr
        else rbtSearchNode fuel st (st.child (if id < key data then .left else .right) curr) id

/-! ### Removal -/

/-- The end of the removal fix-up: the sibling `w` has a red child on the far side. -/
def fixDeleteFar (side : Side) (st : Rbt δ) (xParent w : Nat) : Rbt δ × Nat × Nat :=
  let st := st.setColor w (st.color xParent)
  let st := st.setColor xParent .black
  let st := st.setColor (st.child side.opp w) .black
  let st := rbtRotate nil side st xParent
  (st, st.root, xParent)

/-- A round with a black sibling `w`. -/
def fixDeleteBlack (side : Side) (st : Rbt δ) (xParent w : Nat) : Rbt δ × Nat × Nat :=
  if st.color (st.child side w) = .black ∧ st.color (st.child side.opp w) = .black then
    let st := st.setColor w .red
    (st, xParent, st.parent xParent)
  else if st.color (st.child side.opp w) = .black then
    let st := st.setColor (st.child side w) .black
    let st := st.setColor w .red
    let st := rbtRotate nil side.opp st w
    fixDeleteFar nil side st xParent (st.child side.opp xParent)
  else fixDeleteFar nil side st xParent w

/-- One round of the removal fix-up, for `x` on the given side of `xParent`; the new memory, `x` and
`xParent`. -/
def fixDeleteAt (side : Side) (st : Rbt δ) (xParent : Nat) : Rbt δ × Nat × Nat :=
  let w := st.child side.opp xParent
  if st.color w = .red then
    let st := st.setColor w .black
    let st := st.setColor xParent .red
    let st := rbtRotate nil side st xParent
    fixDeleteBlack nil side st xParent (st.child side.opp xParent)
  else fixDeleteBlack nil side st xParent w

def rbtFixDelete (fuel : Nat) (st : Rbt δ) (x xParent : Nat) : Option (Rbt δ) :=
  match fuel with
  | 0 => none
  | fuel + 1 =>
    if x ≠ st.root ∧ st.color x = .black then
      let side := if x = st.child .left xParent then .left else .right
      let (st, x, xParent) := fixDeleteAt nil side st xParent
      rbtFixDelete fuel st x xParent
    else some (st.setColor x .black)

/-- `while (y->left != NIL) y = y->left`. -/
def leftmost (fuel : Nat) (st : Rbt δ) (y : Nat) : Option Nat :=
  match fuel with
  | 0 => none
  | fuel + 1 => if st.child .left y ≠ nil then leftmost fuel st (st.child .left y) else some y

/-- The successor `y` leaves its place below the right child of `z`; nothing to do when it is that
child. The second value is the parent of the place it left. -/
def detachSuccessor (st : Rbt δ) (z y : Nat) : Rbt δ × Nat :=
  if st.parent y = z then (st, y)
  else
    let xParent := st.parent y
    let st := st.setChild .left xParent (st.child .right y)
    let st := reparent nil st (st.child .right y) xParent
    let st := st.setChild .right y (st.child .right z)
    let st := reparent nil st (st.child .right y) y
    (st, xParent)

/-- `y` takes the place, the left child and the colour of `z`. -/
def installSuccessor (st : Rbt δ) (z y : Nat) : Rbt δ :=
  let st := replaceChild nil .left st z y
  let st := st.setParent y (st.parent z)
  let st := st.setChild .left y (st.child .left z)
  let st := reparent nil st (st.child .left y) y
  st.setColor y (st.color z)

def rbtRemoveNode (fuel : Nat) (st : Rbt δ) (z : Nat) : Option (Rbt δ) := do
  let (st, x, xParent, yColor) ←
    if st.child .left z = nil ∨ st.child .right z = nil then
      -- the two one-child branches differ only in the child that stays
      let x := if st.child .left z = nil then st.child .right z else st.child .left z
      let spliced := replaceChild nil .left st z x
      some (reparent nil spliced x (spliced.parent z), x, st.parent z, st.color z)
    else do
      let y ← leftmost nil fuel st (st.child .right z)
      let (detached, xParent) := detachSuccessor nil st z y
      some (installSuccessor nil detached z y, st.child .right y, xParent, st.color y)
  if yColor = .black then rbtFixDelete nil fuel st x xParent else some st

end Operations

end Voxia.Tree
