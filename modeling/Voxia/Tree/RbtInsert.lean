/-
**Insertion and search.**

Started at a red node whose only fault may be a red parent, the fix-up loop ends with a red-black tree. Every round
moves the position two nodes up or is the last one, so the length of the path bounds the rounds.
-/

import Voxia.Tree.RbtShape

namespace Voxia.Tree

open Lib (Color Side)
open Lib.Tree (branch plug Frame before after RB Hole Balanced HeadBlack branch_opp branch_ne_leaf color_branch
  plug_append toList toList_plug toList_plug_congr)

variable {δ : Type} {nil : Nat} {st : Rbt δ}

theorem plug_sibling (frame : Frame (Cell δ)) (ctx : Path δ) (t : CellTree δ) :
    plug (⟨frame.side.opp, frame.color, frame.label, t⟩ :: ctx) frame.sibling =
      plug (frame :: ctx) t := by
  rw [plug, plug, Frame.fill, Frame.fill, branch_opp]

variable {ctx rest : Path δ} {t : CellTree δ} {frame outer : Frame (Cell δ)} {n fuel z : Nat} {data : δ}

theorem RepTree.color_above (tree : RepTree nil st (plug ctx t)) :
    st.color (above nil ctx) = .red ↔ ∃ frame rest, ctx = frame :: rest ∧ frame.color = .red := by
  cases ctx with
  | nil =>
    have black : st.color nil = .black := congrArg RbtNode.color tree.nilNode
    simp [above, black]
  | cons frame rest =>
    have inner : RepTree nil st (plug rest (branch frame.side frame.color t frame.label frame.sibling)) :=
      tree
    simp only [above, Rbt.color, inner.node.color, List.cons.injEq]
    exact ⟨fun red => ⟨frame, rest, ⟨rfl, rfl⟩, red⟩, by rintro ⟨_, _, ⟨rfl, rfl⟩, red⟩; exact red⟩

theorem RepTree.side_found (tree : RepTree nil st (plug (frame :: ctx) t))
    (apart : addr nil t ≠ addr nil frame.sibling) :
    (if addr nil t = st.child .left frame.label.ptr then Side.left else Side.right) = frame.side := by
  have test := tree.side_test apart .left
  by_cases isLeft : frame.side = .left
  · rw [if_pos (test.mpr isLeft), isLeft]
  · rw [if_neg fun equal => isLeft (test.mp equal), Side.eq_opp_of_ne isLeft]
    rfl

theorem RepTree.grandparent (tree : RepTree nil st (plug (frame :: outer :: rest) t)) (nonempty : t ≠ .leaf) :
    st.parent (addr nil t) = frame.label.ptr ∧ st.parent frame.label.ptr = outer.label.ptr ∧
      st.child outer.side.opp outer.label.ptr = addr nil outer.sibling := by
  have middle : RepTree nil st (plug (outer :: rest)
      (branch frame.side frame.color t frame.label frame.sibling)) := tree
  have top : RepTree nil st (plug rest (branch outer.side outer.color
      (branch frame.side frame.color t frame.label frame.sibling) outer.label outer.sibling)) := tree
  exact ⟨tree.parent nonempty, middle.node.parent, top.node.far⟩

/-- **Red uncle.** Three colours change and the loop goes on at the grandparent. -/
theorem fixInsertAt_red (tree : RepTree nil st (plug (frame :: outer :: rest) t)) (nonempty : t ≠ .leaf)
    (uncleRed : outer.sibling.color = .red) :
    ∃ st', fixInsertAt nil outer.side st (addr nil t) = (st', outer.label.ptr) ∧
      RepTree nil st' (plug rest (branch outer.side .red
        (branch frame.side .black t frame.label frame.sibling) outer.label outer.sibling.blacken)) := by
  obtain ⟨parent, grandparent, uncle⟩ := tree.grandparent nonempty
  have fromUncle := tree
  rw [plug, ← plug_sibling] at fromUncle
  have test : addr nil outer.sibling ≠ nil ∧ st.color (addr nil outer.sibling) = .red := by
    refine ⟨fun isNil => ?_, fromUncle.color.trans uncleRed⟩
    have black : st.color nil = .black := congrArg RbtNode.color tree.nilNode
    rw [← isNil, fromUncle.color, uncleRed] at black
    exact absurd black (by decide)
  refine ⟨((st.setColor frame.label.ptr .black).setColor (addr nil outer.sibling) .black).setColor
    outer.label.ptr .red, ?_, ?_⟩
  · rw [fixInsertAt, parent, grandparent, uncle, if_pos test]
    simp only [Rbt.setColor_parent, parent, grandparent]
  · have parentBlack : RepTree nil (st.setColor frame.label.ptr .black) (plug (outer :: rest)
        (branch frame.side .black t frame.label frame.sibling)) := by
      have middle : RepTree nil st (plug (outer :: rest)
        (branch frame.side frame.color t frame.label frame.sibling)) := tree
      exact middle.setColor .black
    rw [← plug_sibling] at parentBlack
    have uncleBlack := parentBlack.blacken
    have whole : RepTree nil ((st.setColor frame.label.ptr .black).setColor (addr nil outer.sibling) .black)
        (plug rest (branch outer.side outer.color
          (branch frame.side .black t frame.label frame.sibling) outer.label outer.sibling.blacken)) := by
      rw [plug, Frame.fill, branch_opp] at uncleBlack
      exact uncleBlack
    exact whole.setColor .red

/-- The last rotation of an insertion: the parent comes up in black, the grandparent goes down in
red. -/
theorem RepTree.raise {side : Side} {c d : Color} {sibling uncle : CellTree δ} {p g : Cell δ}
    (tree : RepTree nil st (plug rest (branch side c (branch side d t p sibling) g uncle))) :
    RepTree nil (rbtRotate nil side.opp ((st.setColor p.ptr .black).setColor g.ptr .red) g.ptr)
      (plug rest (branch side .black t p (branch side .red sibling g uncle))) := by
  have inner : RepTree nil st (plug (⟨side, c, g, uncle⟩ :: rest) (branch side d t p sibling)) := tree
  have parentBlack : RepTree nil (st.setColor p.ptr .black)
      (plug rest (branch side c (branch side .black t p sibling) g uncle)) := inner.setColor .black
  have ready := parentBlack.setColor .red
  rw [← branch_opp side .black, ← branch_opp side .red] at ready
  have rotated := ready.rotate
  rwa [branch_opp, branch_opp] at rotated

/-- **Black uncle.** The loop ends: `T` is the red node below the new top `p`, with the sibling `s`. -/
theorem fixInsertAt_black (tree : RepTree nil st (plug (frame :: outer :: rest) t)) (red : t.color = .red) (rb : RB t n)
    (parentRed : frame.color = .red) (sibRB : RB frame.sibling n)
    (sibBlack : frame.sibling.color = .black) (uncleBlack : outer.sibling.color = .black) :
    ∃ st' T p s, fixInsertAt nil outer.side st (addr nil t) = (st', addr nil T) ∧
      RepTree nil st' (plug rest
        (branch outer.side .black T p (branch outer.side .red s outer.label outer.sibling))) ∧
      (plug rest (branch outer.side .black T p (branch outer.side .red s outer.label outer.sibling))).toList
        = (plug (frame :: outer :: rest) t).toList ∧
      T.color = .red ∧ RB T n ∧ RB s n ∧ s.color = .black := by
  obtain ⟨a, y, b, rfl, aBlack, bBlack, aRB, bRB⟩ := rb.exists_red outer.side red
  have nonempty := branch_ne_leaf outer.side .red a b y
  obtain ⟨parent, grandparent, uncle⟩ := tree.grandparent nonempty
  have fromUncle := tree
  rw [plug, ← plug_sibling] at fromUncle
  have test : ¬ (addr nil outer.sibling ≠ nil ∧ st.color (addr nil outer.sibling) = .red) := by
    rintro ⟨-, isRed⟩
    rw [fromUncle.color, uncleBlack] at isRed
    exact absurd isRed (by decide)
  have innerTest := tree.side_test (tree.addr_ne_sibling nonempty) outer.side.opp
  by_cases inner : frame.side = outer.side.opp
  · have bent : RepTree nil st (plug (outer :: rest) (branch outer.side .red frame.sibling frame.label
        (branch outer.side .red a y b))) := by
      rw [plug, Frame.fill, inner, parentRed, branch_opp] at tree
      exact tree
    have straight := bent.rotate
    have below : RepTree nil (rbtRotate nil outer.side st frame.label.ptr)
        (plug (⟨outer.side, .red, y, b⟩ :: outer :: rest)
          (branch outer.side .red frame.sibling frame.label a)) := straight
    have top : RepTree nil (rbtRotate nil outer.side st frame.label.ptr) (plug rest
        (branch outer.side outer.color (branch outer.side .red
          (branch outer.side .red frame.sibling frame.label a) y b) outer.label outer.sibling)) := straight
    obtain ⟨parent', grandparent', -⟩ := below.grandparent (branch_ne_leaf _ _ _ _ _)
    refine ⟨_, branch outer.side .red frame.sibling frame.label a, y, b, ?_, top.raise, ?_,
      color_branch _ _ _ _ _, (Lib.Tree.RB_red outer.side).mpr ⟨sibBlack, aBlack, sibRB, aRB⟩,
      bRB, bBlack⟩
    · simp only [addr_branch] at parent parent' innerTest ⊢
      simp only [fixInsertAt, parent, grandparent, uncle, if_neg test, if_pos (innerTest.mpr inner),
        parent', grandparent', Rbt.setColor_parent]
    · rw [plug, plug, Frame.fill, Frame.fill, inner, parentRed, branch_opp]
      refine toList_plug_congr rest ?_
      cases outer.side <;> simp [branch, toList]
  · have sides : frame.side = outer.side := by
      rw [Side.eq_opp_of_ne inner, Side.opp_opp]
    have below : RepTree nil st (plug rest (branch outer.side outer.color
        (branch outer.side frame.color (branch outer.side .red a y b) frame.label frame.sibling)
          outer.label outer.sibling)) := by
      rw [plug, Frame.fill, sides] at tree
      exact tree
    refine ⟨_, branch outer.side .red a y b, frame.label, frame.sibling, ?_, below.raise, ?_, red, rb,
      sibRB, sibBlack⟩
    · simp only [fixInsertAt, parent, grandparent, uncle, if_neg test,
        if_neg fun equal => inner (innerTest.mp equal), Rbt.setColor_parent]
    · rw [plug, plug, Frame.fill, Frame.fill, sides]
      refine toList_plug_congr rest ?_
      cases outer.side <;> simp [branch, toList]

theorem rbtFixInsert_exit (tree : RepTree nil st (plug ctx t)) (nonempty : t ≠ .leaf) (rb : RB t n) (hole : Hole ctx n)
    (notRed : st.color (above nil ctx) ≠ .red) :
    ∃ st' t', rbtFixInsert nil (fuel + 1) st (addr nil t) = some st' ∧ RepTree nil st' t' ∧
      Balanced t' ∧ t'.toList = (plug ctx t).toList := by
  obtain ⟨m, whole⟩ : ∃ m, RB (plug ctx t) m := by
    cases ctx with
    | nil => exact ⟨n, rb⟩
    | cons frame rest =>
      have black : frame.color = .black := Lib.Tree.Color.eq_black fun isRed =>
        notRed (tree.color_above.mpr ⟨frame, rest, rfl, isRed⟩)
      exact (rb.plug hole (.inr black)).2
  have blackened : RepTree nil (st.setColor (addr nil (plug ctx t)) .black) (plug ctx t).blacken :=
    (show RepTree nil st (plug [] (plug ctx t)) from tree).blacken
  refine ⟨_, _, ?_, blackened, ⟨Lib.Tree.color_blacken _, whole.blacken⟩, Lib.Tree.toList_blacken _⟩
  rw [rbtFixInsert, tree.parent nonempty, if_neg notRed, tree.root]

/-- **The fix-up of an insertion** ends with a black root and the same nodes in the same order. -/
theorem rbtFixInsert_spec (tree : RepTree nil st (plug ctx t)) (red : t.color = .red) (rb : RB t n) (hole : Hole ctx n)
    (enough : ctx.length < fuel) :
    ∃ st' t', rbtFixInsert nil fuel st (addr nil t) = some st' ∧ RepTree nil st' t' ∧ Balanced t' ∧
      t'.toList = (plug ctx t).toList := by
  -- by induction on the fuel: a round either ends the loop or takes two frames off the path
  induction fuel generalizing st ctx t n with
  | zero => omega
  | succ fuel ih =>
    have nonempty : t ≠ .leaf := by
      rintro rfl
      exact absurd red (by simp [Lib.Tree.color])
    by_cases parentRed : st.color (above nil ctx) = .red
    swap
    · exact rbtFixInsert_exit tree nonempty rb hole parentRed
    obtain ⟨frame, above', rfl, isRed⟩ := tree.color_above.mp parentRed
    obtain ⟨outer, rest, rfl, -, sibRB, sibBlack, uncleRB, outside⟩ := hole.red_parent isRed
    have middle : RepTree nil st (plug (outer :: rest) (frame.fill t)) := tree
    have side := middle.side_found (middle.addr_ne_sibling (branch_ne_leaf _ _ _ _ _))
    obtain ⟨parent, grandparent, -⟩ := tree.grandparent nonempty
    have round : rbtFixInsert nil (fuel + 1) st (addr nil t) =
        rbtFixInsert nil fuel (fixInsertAt nil outer.side st (addr nil t)).1
          (fixInsertAt nil outer.side st (addr nil t)).2 := by
      rw [Frame.fill, addr_branch] at side
      rw [above] at parentRed
      rw [rbtFixInsert, parent, if_pos parentRed, grandparent, side]
    simp only [List.length_cons] at enough
    by_cases uncleRed : outer.sibling.color = .red
    · obtain ⟨st', step, tree'⟩ := fixInsertAt_red tree nonempty uncleRed
      obtain ⟨final, t', result, rep, balanced, same⟩ := ih tree' (color_branch _ _ _ _ _)
        (rb.recolor sibRB uncleRB uncleRed outer.side) outside (by omega)
      refine ⟨final, t', ?_, rep, balanced, same.trans ?_⟩
      · rw [round, step]
        rw [addr_branch] at result
        exact result
      · refine toList_plug_congr rest ?_
        simp only [Frame.fill]
        cases outer.side <;> cases frame.side <;>
          simp [branch, toList, Lib.Tree.toList_blacken]
    · have uncleBlack := Lib.Tree.Color.eq_black uncleRed
      obtain ⟨st', T, p, s, step, tree', same, TRed, TRB, sRB, sBlack⟩ :=
        fixInsertAt_black tree red rb isRed sibRB sibBlack uncleBlack
      have TNonempty : T ≠ .leaf := by
        rintro rfl
        exact absurd TRed (by simp [Lib.Tree.color])
      have below : RepTree nil st' (plug (⟨outer.side, .black, p,
          branch outer.side .red s outer.label outer.sibling⟩ :: rest) T) := tree'
      have hole' : Hole (⟨outer.side, .black, p,
          branch outer.side .red s outer.label outer.sibling⟩ :: rest) n :=
        ⟨(Lib.Tree.RB_red outer.side).mpr ⟨sBlack, uncleBlack, sRB, uncleRB⟩, .inl ⟨rfl, outside⟩⟩
      have stop : st'.color (above nil (⟨outer.side, .black, p,
          branch outer.side .red s outer.label outer.sibling⟩ :: rest)) ≠ .red := by
        rw [Ne, below.color_above]
        rintro ⟨_, _, equal, isRed⟩
        cases equal
        exact absurd isRed (by simp)
      obtain ⟨k, rfl⟩ : ∃ k, fuel = k + 1 := ⟨fuel - 1, by omega⟩
      obtain ⟨final, t', result, rep, balanced, same'⟩ :=
        rbtFixInsert_exit below TNonempty TRB hole' stop
      refine ⟨final, t', ?_, rep, balanced, same'.trans same⟩
      rw [round, step]
      exact result

/-! ### Walking down -/

variable {key : δ → Nat}

def keys (key : δ → Nat) (t : CellTree δ) : List Nat := t.toList.map fun x => key x.data

theorem keys_node (c : Color) (l r : CellTree δ) (x : Cell δ) :
    keys key (.node c l x r) = keys key l ++ key x.data :: keys key r := by
  simp [keys, toList]

theorem pairwise_node {c : Color} {l r : CellTree δ} {x : Cell δ}
    (sorted : (keys key (.node c l x r)).Pairwise (· < ·)) :
    (keys key l).Pairwise (· < ·) ∧ (keys key r).Pairwise (· < ·) ∧
      (∀ k ∈ keys key l, k < key x.data) ∧ (∀ k ∈ keys key r, key x.data < k) := by
  rw [keys_node, List.pairwise_append, List.pairwise_cons] at sorted
  obtain ⟨left, ⟨above, right⟩, across⟩ := sorted
  exact ⟨left, right, fun k member => across k member _ List.mem_cons_self, above⟩

theorem length_plug (ctx : Path δ) (t : CellTree δ) : ctx.length + t.toList.length ≤ (plug ctx t).toList.length := by
  induction ctx generalizing t with
  | nil => simp [plug]
  | cons frame ctx ih =>
    have step := ih (frame.fill t)
    have grown : t.toList.length + 1 ≤ (frame.fill t).toList.length := by
      rw [Frame.fill, (Lib.Tree.toList_branch_perm _ _ _ _ _).length_eq]
      simp only [List.length_cons, List.length_append]
      omega
    rw [plug, List.length_cons]
    omega

/-- A position for a new key: everything before it is smaller, everything after it larger, and the
last turn was taken by the comparison with the node above. -/
structure Place (key : δ → Nat) (id : Nat) (ctx : Path δ) : Prop where
  smaller : ∀ x ∈ before ctx, key x.data < id
  larger : ∀ x ∈ after ctx, id < key x.data
  turn : ∀ frame rest, ctx = frame :: rest →
    frame.side = if id < key frame.label.data then .left else .right

section

variable {id : Nat} {c : Color} {l r : CellTree δ} {x : Cell δ} (place : Place key id ctx)

include place

theorem Place.left (goLeft : id < key x.data) (larger : ∀ k ∈ keys key r, key x.data < k) :
    Place key id (⟨.left, c, x, r⟩ :: ctx) := by
  refine ⟨by simpa [before] using place.smaller, fun y member => ?_, ?_⟩
  · simp only [after, List.mem_append, List.mem_cons] at member
    obtain (rfl | inR) | outer := member
    · exact goLeft
    · exact goLeft.trans (larger _ (List.mem_map.mpr ⟨y, inR, rfl⟩))
    · exact place.larger y outer
  · rintro _ _ ⟨rfl, rfl⟩
    exact (if_pos goLeft).symm

theorem Place.right (goRight : key x.data < id) (smaller : ∀ k ∈ keys key l, k < key x.data) :
    Place key id (⟨.right, c, x, l⟩ :: ctx) := by
  refine ⟨fun y member => ?_, by simpa [after] using place.larger, ?_⟩
  · simp only [before, List.mem_append, List.mem_singleton] at member
    obtain outer | inL | rfl := member
    · exact place.smaller y outer
    · exact (smaller _ (List.mem_map.mpr ⟨y, inL, rfl⟩)).trans goRight
    · exact goRight
  · rintro _ _ ⟨rfl, rfl⟩
    exact (if_neg goRight.not_gt).symm

theorem Place.absent : id ∉ keys key (plug ctx .leaf) := by
  intro member
  obtain ⟨x, inside, rfl⟩ := List.mem_map.mp member
  simp only [toList_plug, toList, List.append_nil, List.mem_append] at inside
  obtain low | high := inside
  · exact absurd (place.smaller x low) (lt_irrefl _)
  · exact absurd (place.larger x high) (lt_irrefl _)

/-- **The way down.** It ends at the node with the key, or at the place of a new one. -/
theorem descend_spec (tree : RepTree nil st (plug ctx t)) (sorted : (keys key t).Pairwise (· < ·))
    (enough : t.toList.length < fuel) :
    (∃ ctx' c l x r, plug ctx' (.node c l x r) = plug ctx t ∧ key x.data = id ∧
        rbtSearchNode key nil fuel st (addr nil t) id = some x.ptr) ∨
      ∃ ctx', plug ctx' .leaf = plug ctx t ∧ Place key id ctx' ∧
        rbtSearchNode key nil fuel st (addr nil t) id = some nil ∧
        insertParent key nil fuel st id (above nil ctx) (addr nil t) = some (above nil ctx') := by
  induction t generalizing ctx fuel with
  | leaf =>
    obtain ⟨fuel, rfl⟩ : ∃ k, fuel = k + 1 := ⟨fuel - 1, by omega⟩
    exact .inr ⟨ctx, rfl, place, by simp [rbtSearchNode, addr], by simp [insertParent, addr]⟩
  | node c l x r ihl ihr =>
    obtain ⟨fuel, rfl⟩ : ∃ k, fuel = k + 1 := ⟨fuel - 1, by omega⟩
    obtain ⟨notNil, data, near, far, atLeft, atRight⟩ := tree.parts
    obtain ⟨sortedL, sortedR, smaller, larger⟩ := pairwise_node sorted
    simp only [toList, List.length_append, List.length_cons] at enough
    rw [addr, rbtSearchNode, insertParent, if_neg notNil, if_neg notNil, data]
    by_cases found : key x.data = id
    · exact .inl ⟨ctx, c, l, x, r, rfl, found, if_pos found⟩
    simp only [if_neg found, Option.bind_eq_bind, Option.bind_some]
    by_cases goLeft : id < key x.data
    · rw [if_pos goLeft, show st.child .left x.ptr = addr nil l from near]
      exact ihl (place.left goLeft larger) atLeft sortedL (by omega)
    · rw [if_neg goLeft, show st.child .right x.ptr = addr nil r from far]
      exact ihr (place.right (by omega) smaller) atRight sortedR (by omega)

end

theorem Place.start (key : δ → Nat) (id : Nat) : Place key id ([] : Path δ) :=
  ⟨by simp [before], by simp [after], by simp⟩

/-- **Search.** It returns the node with the key, or the sentinel when there is none. -/
theorem rbtSearchNode_spec (id : Nat) (tree : RepTree nil st t) (sorted : (keys key t).Pairwise (· < ·))
    (enough : t.toList.length < fuel) :
    (∃ ctx c l x r, plug ctx (.node c l x r) = t ∧ key x.data = id ∧ id ∈ keys key t ∧
        rbtSearchNode key nil fuel st st.root id = some x.ptr) ∨
      (id ∉ keys key t ∧ rbtSearchNode key nil fuel st st.root id = some nil) := by
  rw [tree.root]
  obtain ⟨ctx, c, l, x, r, rfl, rfl, found⟩ | ⟨ctx, rfl, place, found, -⟩ :=
    descend_spec (.start key id) (show RepTree nil st (plug [] t) from tree) sorted enough
  · refine .inl ⟨ctx, c, l, x, r, rfl, rfl, ?_, found⟩
    exact List.mem_map.mpr ⟨x, by simp [toList_plug, toList], rfl⟩
  · exact .inr ⟨place.absent, found⟩

/-- A search goes down one way of the tree. -/
theorem rbtSearchNode_rounds {id rounds : Nat} (tree : RepTree nil st (plug ctx t)) (enough : t.height ≤ rounds)
    (more : t.height ≤ fuel) :
    rbtSearchNode key nil (rounds + 1) st (addr nil t) id = rbtSearchNode key nil (fuel + 1) st (addr nil t) id := by
  induction t generalizing ctx fuel rounds with
  | leaf => simp [rbtSearchNode, addr]
  | node c l x r ihl ihr =>
    rw [Lib.Tree.height] at enough more
    obtain ⟨rounds, rfl⟩ : ∃ k, rounds = k + 1 := ⟨rounds - 1, by omega⟩
    obtain ⟨fuel, rfl⟩ : ∃ k, fuel = k + 1 := ⟨fuel - 1, by omega⟩
    obtain ⟨notNil, data, near, far, atLeft, atRight⟩ := tree.parts
    rw [addr, rbtSearchNode, rbtSearchNode, if_neg notNil, if_neg notNil, data]
    dsimp only
    split_ifs with found goLeft
    · rfl
    · rw [show st.child .left x.ptr = addr nil l from near]
      exact ihl atLeft (by omega) (by omega)
    · rw [show st.child .right x.ptr = addr nil r from far]
      exact ihr atRight (by omega) (by omega)

/-! ### Inserting a node -/

theorem RepTree.congr {st' : Rbt δ} (tree : RepTree nil st t) (root : st'.root = st.root)
    (same : ∀ p, p ∈ ptrs t ∨ p = nil → st'.heap p = st.heap p) : RepTree nil st' t :=
  ⟨root.trans tree.root, tree.rep.congr fun p inside => same p (.inl inside), tree.nodup, tree.fresh,
    (same nil (.inr rfl)).trans tree.nilNode⟩

theorem RepTree.attach {st₁ : Rbt δ} (tree : RepTree nil st (plug ctx .leaf)) (zNil : z ≠ nil)
    (zFresh : z ∉ pathPtrs ctx) (node : st₁.heap z = ⟨some data, nil, nil, above nil ctx, .red⟩)
    (linked : Linked st st₁ ctx z) (same : ∀ p, p ≠ z → p ≠ above nil ctx ∨ p = nil → st₁.heap p = st.heap p) :
    RepTree nil st₁ (plug ctx (branch .left .red .leaf ⟨z, data⟩ .leaf)) := by
  have only : ptrs (branch .left .red .leaf ⟨z, data⟩ .leaf : CellTree δ) = [z] := rfl
  refine tree.exchange (rep_branch.mpr ⟨?_, trivial, trivial⟩) (by simpa using linked) ?_ ?_ ?_ ?_
  · rw [node]
    exact ⟨rfl, rfl, rfl, rfl, rfl⟩
  · intro p inside different
    exact same p (fun equal => zFresh (equal ▸ inside)) (.inl different)
  · rw [nodup_plug, only]
    refine ⟨List.nodup_singleton z, (nodup_plug.mp tree.nodup).2.1, ?_⟩
    intro p isZ inside
    rw [List.mem_singleton] at isZ
    exact zFresh (isZ ▸ inside)
  · rw [only, List.mem_singleton]
    exact zNil.symm
  · exact same nil zNil.symm (.inr rfl)

/-- The descent attaches the node at the place of its key. -/
theorem rbtInsertNode_attach (tree : RepTree nil st t) (sorted : (keys key t).Pairwise (· < ·))
    (absent : key data ∉ keys key t) (zNil : z ≠ nil) (zFresh : z ∉ ptrs t) (enough : t.toList.length < fuel) :
    ∃ ctx st₁, plug ctx .leaf = t ∧ Place key (key data) ctx ∧
      RepTree nil st₁ (plug ctx (branch .left .red .leaf ⟨z, data⟩ .leaf)) ∧
      rbtInsertNode key nil fuel st z data =
        (if st₁.parent z = nil then some (st₁.setColor z .black)
          else if st₁.parent (st₁.parent z) = nil then some st₁
          else rbtFixInsert nil fuel st₁ z) := by
  obtain ⟨st₀, isSt₀⟩ : ∃ st₀, st₀ = st.modify z fun _ => ⟨some data, nil, nil, 0, .red⟩ := ⟨_, rfl⟩
  have tree₀ : RepTree nil st₀ t := by
    subst isSt₀
    refine tree.congr rfl fun p inside => if_neg ?_
    rintro rfl
    exact inside.elim zFresh zNil
  have zNode : st₀.heap z = ⟨some data, nil, nil, 0, .red⟩ := by
    subst isSt₀
    exact if_pos rfl
  obtain ⟨ctx, c, l, x, r, rfl, equal, -⟩ | ⟨ctx, rfl, place, -, found⟩ :=
    descend_spec (.start key (key data)) (show RepTree nil st₀ (plug [] t) from tree₀) sorted enough
  · exact absurd (List.mem_map.mpr ⟨x, by simp [toList_plug, toList], equal⟩) absent
  have zOut : z ∉ pathPtrs ctx := fun inside => zFresh (mem_ptrs_plug.mpr (.inr inside))
  have found' : insertParent key nil fuel st₀ (key data) nil st₀.root = some (above nil ctx) := by
    rw [tree₀.root]
    exact found
  simp only [rbtInsertNode, ← isSt₀, Option.bind_eq_bind, found', Option.bind_some]
  have zAbove : ∀ st₁ : Rbt δ, st₁.heap z = (st₀.setParent z (above nil ctx)).heap z →
      st₁.heap z = ⟨some data, nil, nil, above nil ctx, .red⟩ := by
    intro st₁ written
    rw [written, Rbt.setParent_heap, if_pos rfl, zNode]
  cases ctx with
  | nil =>
    refine ⟨[], { st₀.setParent z nil with root := z }, rfl, place, tree₀.attach zNil zOut (zAbove _ rfl)
      rfl fun p different _ => if_neg different, ?_⟩
    rw [above, if_pos rfl]
  | cons frame rest =>
    have inner : RepTree nil st₀ (plug rest (branch frame.side frame.color .leaf frame.label
      frame.sibling)) := tree₀
    have labelZ : frame.label.ptr ≠ z := fun equal => zOut (equal ▸ mem_pathPtrs_cons.mpr (.inl rfl))
    have readData : ((st₀.setParent z frame.label.ptr).heap frame.label.ptr).data =
        some frame.label.data := by
      rw [Rbt.setParent_heap, if_neg labelZ]
      exact inner.node.data
    refine ⟨frame :: rest, (st₀.setParent z frame.label.ptr).setChild frame.side frame.label.ptr z, rfl,
      place, tree₀.attach zNil zOut (zAbove _ ?_) ⟨rfl, ?_⟩ fun p notZ other => ?_, ?_⟩
    · exact if_neg labelZ.symm
    · rw [Rbt.setChild_heap, if_pos rfl, Rbt.setParent_heap, if_neg labelZ]
    · have notLabel : p ≠ frame.label.ptr := by
        rintro rfl
        exact other.elim (fun ne => ne rfl) inner.ptr_ne_nil
      rw [Rbt.setChild_heap, if_neg notLabel, Rbt.setParent_heap, if_neg notZ]
    · rw [above, if_neg inner.ptr_ne_nil, readData, Option.bind_some, ← place.turn frame rest rfl]

/-- **Insertion.** The new node stands between the smaller and the larger keys of a red-black tree. -/
theorem rbtInsertNode_spec (z : Nat) (data : δ) (tree : RepTree nil st t) (balanced : Balanced t)
    (sorted : (keys key t).Pairwise (· < ·)) (absent : key data ∉ keys key t) (zNil : z ≠ nil) (zFresh : z ∉ ptrs t)
    (enough : t.toList.length < fuel) :
    ∃ st' t' smaller larger, rbtInsertNode key nil fuel st z data = some st' ∧ RepTree nil st' t' ∧
      Balanced t' ∧ t.toList = smaller ++ larger ∧ t'.toList = smaller ++ ⟨z, data⟩ :: larger ∧
      (∀ x ∈ smaller, key x.data < key data) ∧ ∀ x ∈ larger, key data < key x.data := by
  obtain ⟨ctx, st₁, rfl, place, tree₁, result⟩ :=
    rbtInsertNode_attach tree sorted absent zNil zFresh enough
  obtain ⟨n, leafRB, hole, -⟩ := balanced.unplug
  have isZero : n = 0 := leafRB
  subst isZero
  have oldList : (plug ctx .leaf).toList = before ctx ++ after ctx := by
    simp [toList_plug, toList]
  have newList : (plug ctx (branch .left .red .leaf ⟨z, data⟩ .leaf)).toList =
      before ctx ++ ⟨z, data⟩ :: after ctx := by
    simp [toList_plug, toList, branch]
  have nodeRB : RB (branch .left .red .leaf (⟨z, data⟩ : Cell δ) .leaf) 0 := ⟨rfl, rfl, rfl, rfl⟩
  have parent : st₁.parent z = above nil ctx := tree₁.parent (by simp [branch])
  suffices fixed : ∃ st' t', rbtInsertNode key nil fuel st z data = some st' ∧ RepTree nil st' t' ∧
      Balanced t' ∧ t'.toList = (plug ctx (branch .left .red .leaf ⟨z, data⟩ .leaf)).toList by
    obtain ⟨st', t', returned, rep, isBalanced, same⟩ := fixed
    exact ⟨st', t', before ctx, after ctx, returned, rep, isBalanced, oldList, same.trans newList,
      place.smaller, place.larger⟩
  have bound := length_plug ctx (.leaf : CellTree δ)
  rw [result, parent]
  cases ctx with
  | nil =>
    rw [above, if_pos rfl]
    exact ⟨_, _, rfl, tree₁.setColor .black, ⟨rfl, 1, 0, rfl, rfl, rfl⟩, rfl⟩
  | cons frame rest =>
    have inner : RepTree nil st₁ (plug rest (branch frame.side frame.color
      (branch .left .red .leaf ⟨z, data⟩ .leaf) frame.label frame.sibling)) := tree₁
    rw [above, if_neg inner.ptr_ne_nil, show st₁.parent frame.label.ptr = above nil rest from
      inner.node.parent]
    cases rest with
    | nil =>
      -- directly below the root, which is black
      have rootBlack : frame.color = .black := by
        have black := balanced.1
        rwa [plug, plug, Frame.fill, color_branch] at black
      rw [above, if_pos rfl]
      exact ⟨_, _, rfl, tree₁, nodeRB.plug hole (.inr rootBlack), rfl⟩
    | cons outer rest =>
      have top : RepTree nil st₁ (plug rest (branch outer.side outer.color (frame.fill
        (branch .left .red .leaf ⟨z, data⟩ .leaf)) outer.label outer.sibling)) := tree₁
      rw [above, if_neg top.ptr_ne_nil]
      exact rbtFixInsert_spec tree₁ rfl nodeRB hole (by omega)

end Voxia.Tree
