/-
**Red-black trees, at a position inside the tree.**

The classical fix-up loops work at one node of a tree and look at its parent, grandparent and sibling. Here a tree
with such a position is a subtree and its context, a list of frames from the inside out (`plug`); `branch` writes a
node from the side the position is on, so that the mirrored halves of an algorithm are one statement. The order of the
labels is read off `toList`, which no rotation and no colour changes.
-/

import Mathlib.Data.List.Basic
import Mathlib.Algebra.Ring.Nat

namespace Voxia.Lib

inductive Color
  | red
  | black
  deriving DecidableEq, Repr

inductive Side
  | left
  | right
  deriving DecidableEq, Repr

def Side.opp : Side → Side
  | .left => .right
  | .right => .left

@[simp] theorem Side.opp_opp (side : Side) : side.opp.opp = side := by cases side <;> rfl

theorem Side.eq_opp_of_ne {first second : Side} (different : first ≠ second) : first = second.opp := by
  cases first <;> cases second <;> first | rfl | exact absurd rfl different

/-- Binary trees with a colour and a label at every node. -/
inductive Tree (α : Type)
  | leaf
  | node (color : Color) (left : Tree α) (label : α) (right : Tree α)

variable {α : Type}

namespace Tree

/-- The colour of the root; leaves are black. -/
def color : Tree α → Color
  | leaf => .black
  | node c _ _ _ => c

def toList : Tree α → List α
  | leaf => []
  | node _ l x r => l.toList ++ x :: r.toList

/-- The node with child `near` on the given side and `far` on the other one. -/
def branch (side : Side) (c : Color) (near : Tree α) (x : α) (far : Tree α) : Tree α :=
  match side with
  | .left => node c near x far
  | .right => node c far x near

theorem branch_opp (side : Side) (c : Color) (near far : Tree α) (x : α) :
    branch side.opp c near x far = branch side c far x near := by
  cases side <;> rfl

variable {t near far sibling uncle : Tree α} {x p g w : α} {n : Nat} {c : Color} {side : Side}

theorem exists_branch (side : Side) (nonempty : t ≠ leaf) : ∃ c near x far, t = branch side c near x far := by
  cases t with
  | leaf => exact absurd rfl nonempty
  | node c l x r =>
    cases side with
    | left => exact ⟨c, l, x, r, rfl⟩
    | right => exact ⟨c, r, x, l, rfl⟩

section

variable (side : Side) (c : Color) (near far : Tree α) (x : α)

@[simp] theorem color_branch : (branch side c near x far).color = c := by
  cases side <;> rfl

theorem branch_ne_leaf : branch side c near x far ≠ leaf := by
  cases side <;> simp [branch]

theorem toList_rotate (d c' d' : Color) (a b e : Tree α) (x y : α) :
    (branch side c' (branch side d' a x b) y e).toList =
      (branch side c a x (branch side d b y e)).toList := by
  cases side <;> simp [branch, toList]

theorem toList_branch_color (d : Color) (near far : Tree α) (x : α) :
    (branch side c near x far).toList = (branch side d near x far).toList := by
  cases side <;> rfl

theorem toList_branch_perm : (branch side c near x far).toList.Perm (x :: (near.toList ++ far.toList)) := by
  cases side with
  | left => exact List.perm_middle
  | right => exact List.perm_middle.trans (List.Perm.cons x List.perm_append_comm)

end

/-! ### Contexts -/

/-- One step of a context: the node above the position, and its other subtree. -/
structure Frame (α : Type) where
  side : Side
  color : Color
  label : α
  sibling : Tree α

def Frame.fill (frame : Frame α) (t : Tree α) : Tree α :=
  branch frame.side frame.color t frame.label frame.sibling

/-- The whole tree around a subtree; the innermost frame comes first. -/
def plug : List (Frame α) → Tree α → Tree α
  | [], t => t
  | frame :: ctx, t => plug ctx (frame.fill t)

def before : List (Frame α) → List α
  | [] => []
  | frame :: ctx => before ctx ++
      (match frame.side with
        | .left => []
        | .right => frame.sibling.toList ++ [frame.label])

def after : List (Frame α) → List α
  | [] => []
  | frame :: ctx =>
      (match frame.side with
        | .left => frame.label :: frame.sibling.toList
        | .right => []) ++ after ctx

variable {ctx : List (Frame α)} {frame : Frame α}

theorem toList_plug (ctx : List (Frame α)) (t : Tree α) :
    (plug ctx t).toList = before ctx ++ t.toList ++ after ctx := by
  induction ctx generalizing t with
  | nil => simp [plug, before, after]
  | cons frame ctx ih =>
    obtain ⟨side, c, x, sibling⟩ := frame
    rw [plug, ih]
    cases side <;> simp [Frame.fill, branch, toList, before, after]

theorem plug_append (inner outer : List (Frame α)) (t : Tree α) :
    plug (inner ++ outer) t = plug outer (plug inner t) := by
  induction inner generalizing t with
  | nil => rfl
  | cons frame inner ih => exact ih (frame.fill t)

theorem toList_plug_congr (ctx : List (Frame α)) {t' : Tree α} (same : t'.toList = t.toList) :
    (plug ctx t').toList = (plug ctx t).toList := by
  rw [toList_plug, toList_plug, same]

/-! ### The colour conditions -/

/-- No red node has a red child, and every path to a leaf passes `n` black nodes. -/
def RB : Tree α → Nat → Prop
  | leaf, n => n = 0
  | node .red l _ r, n => l.color = .black ∧ r.color = .black ∧ RB l n ∧ RB r n
  | node .black l _ r, n => ∃ m, n = m + 1 ∧ RB l m ∧ RB r m

theorem RB_red (side : Side) :
    RB (branch side .red near x far) n ↔
      near.color = .black ∧ far.color = .black ∧ RB near n ∧ RB far n := by
  cases side with
  | left => exact Iff.rfl
  | right =>
    simp only [branch, RB]
    tauto

theorem RB_black (side : Side) : RB (branch side .black near x far) (n + 1) ↔ RB near n ∧ RB far n := by
  cases side <;> simp only [branch, RB, Nat.add_right_cancel_iff, exists_eq_left', and_comm]

theorem RB.ne_leaf (rb : RB t (n + 1)) : t ≠ leaf := by
  rintro rfl
  exact absurd rb (by simp [RB])

theorem RB.exists_black (side : Side) (rb : RB t (n + 1)) (black : t.color = .black) :
    ∃ near x far, t = branch side .black near x far ∧ RB near n ∧ RB far n := by
  obtain ⟨c, near, x, far, rfl⟩ := exists_branch side rb.ne_leaf
  rw [color_branch] at black
  subst black
  exact ⟨near, x, far, rfl, (RB_black side).mp rb⟩

theorem RB.exists_red (side : Side) (rb : RB t n) (red : t.color = .red) :
    ∃ near x far, t = branch side .red near x far ∧ near.color = .black ∧ far.color = .black ∧
      RB near n ∧ RB far n := by
  have nonempty : t ≠ leaf := by
    rintro rfl
    exact absurd red (by simp [color])
  obtain ⟨c, near, x, far, rfl⟩ := exists_branch side nonempty
  rw [color_branch] at red
  subst red
  exact ⟨near, x, far, rfl, (RB_red side).mp rb⟩

theorem Color.eq_black (notRed : c ≠ .red) : c = .black := by
  cases c <;> first | rfl | exact absurd rfl notRed

/-- The innermost frame is black (so there is one). -/
def HeadBlack : List (Frame α) → Prop
  | [] => False
  | frame :: _ => frame.color = .black

/-- The context completes a subtree of black height `n` to a red-black tree with a black root. -/
def Hole : List (Frame α) → Nat → Prop
  | [], _ => True
  | frame :: ctx, n => RB frame.sibling n ∧
      ((frame.color = .black ∧ Hole ctx (n + 1)) ∨
        (frame.color = .red ∧ frame.sibling.color = .black ∧ HeadBlack ctx ∧ Hole ctx n))

theorem Hole.relabel {inner : List (Frame α)} {y : α} (hole : Hole (inner ++ ⟨side, c, x, sibling⟩ :: ctx) n) :
    Hole (inner ++ ⟨side, c, y, sibling⟩ :: ctx) n := by
  induction inner generalizing n with
  | nil => exact hole
  | cons frame inner ih =>
    obtain ⟨sibRB, ⟨black, outer⟩ | ⟨red, sibBlack, head, outer⟩⟩ := hole
    · exact ⟨sibRB, .inl ⟨black, ih outer⟩⟩
    · refine ⟨sibRB, .inr ⟨red, sibBlack, ?_, ih outer⟩⟩
      cases inner <;> exact head

/-- The whole tree is red-black, with a black root. -/
def Balanced (t : Tree α) : Prop := t.color = .black ∧ ∃ n, RB t n

/-- A subtree that fits is put into its context. -/
theorem RB.plug (rb : RB t n) (hole : Hole ctx n)
    (fits : t.color = .black ∨ HeadBlack ctx) : Balanced (plug ctx t) := by
  induction ctx generalizing t n with
  | nil =>
    obtain black | impossible := fits
    · exact ⟨black, n, rb⟩
    · exact impossible.elim
  | cons frame ctx ih =>
    obtain ⟨side, c, x, sibling⟩ := frame
    obtain ⟨sibRB, ⟨isBlack, outer⟩ | ⟨isRed, sibBlack, head, outer⟩⟩ := hole
    · subst isBlack
      exact ih ((RB_black side).mpr ⟨rb, sibRB⟩) outer (.inl (color_branch _ _ _ _ _))
    · subst isRed
      obtain black | impossible := fits
      · exact ih ((RB_red side).mpr ⟨black, sibBlack, rb, sibRB⟩) outer (.inr head)
      · exact absurd impossible (by simp [HeadBlack])

theorem Balanced.unplug (balanced : Balanced (plug ctx t)) :
    ∃ n, RB t n ∧ Hole ctx n ∧ (t.color = .black ∨ HeadBlack ctx) := by
  induction ctx generalizing t with
  | nil =>
    obtain ⟨black, n, rb⟩ := balanced
    exact ⟨n, rb, trivial, .inl black⟩
  | cons frame ctx ih =>
    obtain ⟨side, c, x, sibling⟩ := frame
    obtain ⟨n, rb, hole, fits⟩ := ih balanced
    cases c with
    | red =>
      obtain ⟨tBlack, sibBlack, tRB, sibRB⟩ := (RB_red side).mp rb
      have head : HeadBlack ctx := by
        refine fits.resolve_left fun black => ?_
        rw [Frame.fill, color_branch] at black
        exact absurd black (by simp)
      exact ⟨n, tRB, ⟨sibRB, .inr ⟨rfl, sibBlack, head, hole⟩⟩, .inl tBlack⟩
    | black =>
      obtain ⟨m, rfl⟩ : ∃ m, n = m + 1 := by
        cases side <;> exact ⟨_, rb.choose_spec.1⟩
      obtain ⟨tRB, sibRB⟩ := (RB_black side).mp rb
      exact ⟨m, tRB, ⟨sibRB, .inl ⟨rfl, hole⟩⟩, .inr rfl⟩

/-! ### Insertion -/

/-- The two frames above a red node with a red parent: a red one, and above it a black one. -/
theorem Hole.red_parent (hole : Hole (frame :: ctx) n) (red : frame.color = .red) :
    ∃ outer rest, ctx = outer :: rest ∧ outer.color = .black ∧ RB frame.sibling n ∧
      frame.sibling.color = .black ∧ RB outer.sibling n ∧ Hole rest (n + 1) := by
  obtain ⟨sibRB, ⟨black, _⟩ | ⟨_, sibBlack, head, hole⟩⟩ := hole
  · rw [red] at black
    exact absurd black (by decide)
  · cases ctx with
    | nil => exact head.elim
    | cons outer rest =>
      obtain ⟨uncleRB, ⟨_, above⟩ | ⟨isRed, _⟩⟩ := hole
      · exact ⟨outer, rest, rfl, head, sibRB, sibBlack, uncleRB, above⟩
      · rw [show outer.color = .black from head] at isRed
        exact absurd isRed (by decide)

def blacken : Tree α → Tree α
  | leaf => leaf
  | node _ l x r => node .black l x r

@[simp] theorem blacken_branch (side : Side) (c : Color) (near far : Tree α) (x : α) :
    blacken (branch side c near x far) = branch side .black near x far := by
  cases side <;> rfl

theorem toList_blacken (t : Tree α) : (blacken t).toList = t.toList := by cases t <;> rfl

theorem color_blacken (t : Tree α) : (blacken t).color = .black := by cases t <;> rfl

theorem RB.blacken (rb : RB t n) : ∃ m, RB (blacken t) m := by
  cases t with
  | leaf => exact ⟨n, rb⟩
  | node c l x r =>
    cases c with
    | red => exact ⟨n + 1, n, rfl, rb.2.2.1, rb.2.2.2⟩
    | black => exact ⟨n, rb⟩

theorem RB.blacken_red (rb : RB t n) (red : t.color = .red) : RB (Tree.blacken t) (n + 1) := by
  obtain ⟨near, x, far, rfl, _, _, nearRB, farRB⟩ := rb.exists_red .left red
  exact (RB_black .left).mpr ⟨nearRB, farRB⟩

/-- Parent and uncle red: both turn black and the grandparent red, which moves the trouble up. -/
theorem RB.recolor (rb : RB t n) (sibRB : RB sibling n) (uncleRB : RB uncle n) (uncleRed : uncle.color = .red)
    (gside : Side) : RB (branch gside .red (branch side .black t p sibling) g (Tree.blacken uncle)) (n + 1) := by
  refine (RB_red gside).mpr ⟨color_branch _ _ _ _ _, color_blacken _, ?_, uncleRB.blacken_red uncleRed⟩
  exact (RB_black side).mpr ⟨rb, sibRB⟩

/-- Parent red, uncle black, and the red node on the outer side: one rotation at the grandparent. -/
theorem RB.rotate_outer (side : Side) (rb : RB t n) (sibRB : RB sibling n) (sibBlack : sibling.color = .black)
    (uncleRB : RB uncle n) (uncleBlack : uncle.color = .black) :
    RB (branch side .black t p (branch side .red sibling g uncle)) (n + 1) :=
  (RB_black side).mpr ⟨rb, (RB_red side).mpr ⟨sibBlack, uncleBlack, sibRB, uncleRB⟩⟩

/-! ### Deletion -/

/-- **Red sibling.** After the rotation the short subtree has a black sibling, the near child of the
old one. -/
theorem Hole.red_sibling (hole : Hole (⟨side, c, p, branch side .red near w far⟩ :: ctx) (n + 1)) :
    near.color = .black ∧ RB near (n + 1) ∧
      Hole (⟨side, .red, p, near⟩ :: ⟨side, .black, w, far⟩ :: ctx) (n + 1) := by
  obtain ⟨sibRB, ⟨_, outer⟩ | ⟨_, sibBlack, _⟩⟩ := hole
  · obtain ⟨nearBlack, _, nearRB, farRB⟩ := (RB_red side).mp sibRB
    exact ⟨nearBlack, nearRB, nearRB, .inr ⟨rfl, nearBlack, rfl, farRB, .inl ⟨rfl, outer⟩⟩⟩
  · rw [color_branch] at sibBlack
    exact absurd sibBlack (by decide)

theorem Hole.above (hole : Hole (frame :: ctx) n) :
    RB frame.sibling n ∧ ((frame.color = .black ∧ Hole ctx (n + 1)) ∨
      (frame.color = .red ∧ HeadBlack ctx ∧ Hole ctx n)) := by
  obtain ⟨sibRB, ⟨black, outer⟩ | ⟨red, _, head, outer⟩⟩ := hole
  · exact ⟨sibRB, .inl ⟨black, outer⟩⟩
  · exact ⟨sibRB, .inr ⟨red, head, outer⟩⟩

/-- **Black sibling with black children.** It turns red, and its parent's subtree is what is short
now, or is blackened. -/
theorem RB.black_nephews (side : Side) (rb : RB t n) (nearRB : RB near n) (nearBlack : near.color = .black)
    (farRB : RB far n) (farBlack : far.color = .black) :
    RB (branch side .black t p (branch side .red near w far)) (n + 1) :=
  rb.rotate_outer side nearRB nearBlack farRB farBlack

/-- **Black sibling with a red far child.** One rotation at the parent restores the black height,
under the colour the parent had. -/
theorem RB.far_nephew (side : Side) (rb : RB t n) (nearRB : RB near n) (farRB : RB far n) (farRed : far.color = .red) :
    RB (branch side c (branch side .black t p near) w (Tree.blacken far))
      (match c with | .red => n + 1 | .black => n + 2) := by
  have nearSide : RB (branch side .black t p near) (n + 1) := (RB_black side).mpr ⟨rb, nearRB⟩
  have farSide := farRB.blacken_red farRed
  cases c with
  | red => exact (RB_red side).mpr ⟨color_branch _ _ _ _ _, color_blacken _, nearSide, farSide⟩
  | black => exact (RB_black side).mpr ⟨nearSide, farSide⟩

/-! ### The height -/

/-- The nodes on the longest way down. -/
def height : Tree α → Nat
  | leaf => 0
  | node _ l _ r => max l.height r.height + 1

theorem RB.height_le (rb : RB t n) : t.height ≤ 2 * n + if t.color = .red then 1 else 0 := by
  induction t generalizing n with
  | leaf => exact Nat.zero_le _
  | node c l x r ihl ihr =>
    cases c with
    | red =>
      obtain ⟨leftBlack, rightBlack, left, right⟩ := rb
      grind [height, color]
    | black =>
      obtain ⟨m, rfl, left, right⟩ := rb
      grind [height, color]

theorem RB.two_pow_le (rb : RB t n) : 2 ^ n ≤ t.toList.length + 1 := by
  induction t generalizing n with
  | leaf => simp [show n = 0 from rb]
  | node c l x r ihl ihr =>
    rw [toList, List.length_append, List.length_cons]
    cases c with
    | red => exact Nat.le_trans (ihl rb.2.2.1) (by omega)
    | black =>
      obtain ⟨m, rfl, left, right⟩ := rb
      have inLeft := ihl left
      have inRight := ihr right
      omega

/-- The height is at most twice the logarithm of the number of nodes. -/
theorem Balanced.height_le (balanced : Balanced t) : t.height ≤ 2 * (t.toList.length + 1).log2 := by
  obtain ⟨black, n, rb⟩ := balanced
  have deep := rb.height_le
  have low := (Nat.le_log2 (Nat.succ_ne_zero _)).mpr rb.two_pow_le
  rw [black] at deep
  exact Nat.le_trans deep (Nat.mul_le_mul_left 2 low)

end Tree

end Voxia.Lib
