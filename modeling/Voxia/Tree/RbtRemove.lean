/-
**Removal.**

The fix-up loop starts at a subtree that is one black node short (`Short`), which may be the sentinel; its parent is
passed along, as the sentinel does not know it. A round with black nephews moves the position up, every other one is
the last or leaves a red node that stops the loop.
-/

import Voxia.Tree.RbtInsert

namespace Voxia.Tree

open Lib (Color Side)
open Lib.Tree (branch plug Frame before after RB Hole Balanced HeadBlack branch_opp branch_ne_leaf color_branch
  plug_append toList toList_plug toList_plug_congr)

variable {δ : Type} {nil : Nat} {st : Rbt δ}

/-- The subtree stands where black height `n + 1` is asked for: it is black with black height `n`, or
red and right once it is black. -/
def Short (t : CellTree δ) (n : Nat) : Prop :=
  (t.color = .black ∧ RB t n) ∨ (t.color = .red ∧ RB t.blacken (n + 1))

variable {t near far l r x : CellTree δ} {n fuel : Nat} {side : Side} {c : Color} {rest ctx path : Path δ}
  {p w z y : Cell δ} {frame : Frame (Cell δ)}

theorem Short.of_rb (rb : RB t n) : Short t n := by
  by_cases red : t.color = .red
  · exact .inr ⟨red, rb.blacken_red red⟩
  · exact .inl ⟨Lib.Tree.Color.eq_black red, rb⟩

/-- What a round leaves: the loop goes on with the short subtree `t` in the context `ctx`, or `x` is
the root of a finished tree. -/
def RoundDone (nil : Nat) (next : Rbt δ × Nat × Nat) (nodes : List (Cell δ)) (length : Nat) : Prop :=
  (∃ ctx t n, RepTree nil next.1 (plug ctx t) ∧ Short t n ∧ Hole ctx (n + 1) ∧
      next.2 = (addr nil t, above nil ctx) ∧ (plug ctx t).toList = nodes ∧
      (t.color = .red ∨ ctx.length < length)) ∨
    (∃ t, RepTree nil next.1 t ∧ Balanced t ∧ next.2.1 = addr nil t ∧ t.toList = nodes)

theorem plug_far (side : Side) (c : Color) (p : Cell δ) (t u : CellTree δ) (rest : Path δ) :
    plug (⟨side.opp, c, p, t⟩ :: rest) u = plug rest (branch side c t p u) := by
  rw [plug, Frame.fill, branch_opp]

section

variable (length : Nat) (tree : RepTree nil st (plug rest (branch side c t p (branch side .black near w far))))

include tree

theorem fixDeleteFar_spec
    (rb : RB t n) (nearRB : RB near n) (farRB : RB far n) (farRed : far.color = .red)
    (outside : (c = .black ∧ Hole rest (n + 2)) ∨ (c = .red ∧ HeadBlack rest ∧ Hole rest (n + 1))) :
    RoundDone nil (fixDeleteFar nil side st p.ptr w.ptr)
      (plug rest (branch side c t p (branch side .black near w far))).toList length := by
  have color : st.color p.ptr = c := tree.node.color
  have atSibling := tree
  rw [← plug_far] at atSibling
  have childFar : st.child side.opp w.ptr = addr nil far := atSibling.node.far
  have painted := atSibling.setColor c
  rw [plug_far] at painted
  have parentBlack := painted.setColor .black
  rw [← plug_far, ← plug_far] at parentBlack
  have farBlack := parentBlack.blacken
  rw [plug_far, plug_far] at farBlack
  have final := farBlack.rotate
  refine .inr ⟨plug rest (branch side c (branch side .black t p near) w far.blacken), ?_, ?_, ?_, ?_⟩
  · simpa only [fixDeleteFar, color, Rbt.setColor_child, childFar] using final
  · obtain ⟨rfl, above⟩ | ⟨rfl, head, above⟩ := outside
    · exact (RB.far_nephew side rb nearRB farRB farRed).plug above (.inl (color_branch _ _ _ _ _))
    · exact (RB.far_nephew side rb nearRB farRB farRed).plug above (.inr head)
  · simpa only [fixDeleteFar, color, Rbt.setColor_child, childFar] using final.root
  · refine toList_plug_congr rest ?_
    cases side <;> simp [branch, toList, Lib.Tree.toList_blacken]

/-- **Red nephew on the near side only.** A rotation at the sibling turns it into a far one. -/
theorem fixDeleteNear_spec
    (nearRB : RB near n) (farRB : RB far n) (nearRed : near.color = .red) (farBlack : far.color = .black) :
    ∃ near' w' far', RepTree nil
        (rbtRotate nil side.opp ((st.setColor (addr nil near) .black).setColor w.ptr .red) w.ptr)
        (plug rest (branch side c t p (branch side .black near' w' far'))) ∧
      RB near' n ∧ RB far' n ∧ far'.color = .red ∧
      (branch side .black near' w' far').toList = (branch side .black near w far).toList := by
  obtain ⟨e, y, b, rfl, eBlack, bBlack, eRB, bRB⟩ := nearRB.exists_red side nearRed
  have atNear : RepTree nil st (plug (⟨side, .black, w, far⟩ :: ⟨side.opp, c, p, t⟩ :: rest)
      (branch side .red e y b)) := by
    rw [← plug_far] at tree
    exact tree
  have nearBlack := atNear.setColor .black
  have atSibling : RepTree nil (st.setColor y.ptr .black) (plug (⟨side.opp, c, p, t⟩ :: rest)
    (branch side .black (branch side .black e y b) w far)) := nearBlack
  have siblingRed := atSibling.setColor .red
  rw [← branch_opp side .black, ← branch_opp side .red] at siblingRed
  have rotated := siblingRed.rotate
  rw [branch_opp, branch_opp, plug_far] at rotated
  refine ⟨e, y, branch side .red b w far, ?_, eRB,
    (Lib.Tree.RB_red side).mpr ⟨bBlack, farBlack, bRB, farRB⟩, color_branch _ _ _ _ _, ?_⟩
  · rw [addr_branch]
    exact rotated
  · cases side <;> simp [branch, toList]

/-- The round under a black brother. -/
theorem fixDeleteBlack_spec
    (rb : RB t n) (nearRB : RB near n) (farRB : RB far n)
    (outside : (c = .black ∧ Hole rest (n + 2)) ∨ (c = .red ∧ HeadBlack rest ∧ Hole rest (n + 1)))
    (bound : c = .red ∨ rest.length < length) :
    RoundDone nil (fixDeleteBlack nil side st p.ptr w.ptr)
      (plug rest (branch side c t p (branch side .black near w far))).toList length := by
  have atSibling := tree
  rw [← plug_far] at atSibling
  have atNear : RepTree nil st (plug (⟨side, .black, w, far⟩ :: ⟨side.opp, c, p, t⟩ :: rest) near) :=
    atSibling
  have atFar := atSibling
  rw [← plug_far] at atFar
  have childNear : st.child side w.ptr = addr nil near := atSibling.node.near
  have childFar : st.child side.opp w.ptr = addr nil far := atSibling.node.far
  simp only [fixDeleteBlack, childNear, childFar, atNear.color, atFar.color]
  by_cases farRed : far.color = .red
  · rw [if_neg (by simp [farRed]), if_neg (by simp [farRed])]
    exact fixDeleteFar_spec length tree rb nearRB farRB farRed outside
  have farBlack := Lib.Tree.Color.eq_black farRed
  by_cases nearRed : near.color = .red
  · rw [if_neg (by simp [nearRed]), if_pos farBlack]
    obtain ⟨near', w', far', turned, nearRB', farRB', farRed', same⟩ :=
      fixDeleteNear_spec tree nearRB farRB nearRed farBlack
    have sibling := turned.node.far
    rw [addr_branch] at sibling
    rw [Rbt.child, sibling]
    have done := fixDeleteFar_spec length turned rb nearRB' farRB' farRed' outside
    have nodes : (plug rest (branch side c t p (branch side .black near' w' far'))).toList =
        (plug rest (branch side c t p (branch side .black near w far))).toList := by
      have inner := toList_plug_congr (⟨side.opp, c, p, t⟩ :: rest) same
      rwa [plug_far, plug_far] at inner
    rwa [nodes] at done
  · have nearBlack := Lib.Tree.Color.eq_black nearRed
    rw [if_pos ⟨nearBlack, farBlack⟩]
    have painted := atSibling.setColor .red
    rw [plug_far] at painted
    have whole : RB (branch side .black t p (branch side .red near w far)) (n + 1) :=
      rb.black_nephews side nearRB nearBlack farRB farBlack
    have nodes : (plug rest (branch side c t p (branch side .red near w far))).toList =
        (plug rest (branch side c t p (branch side .black near w far))).toList := by
      have inner := toList_plug_congr (⟨side.opp, c, p, t⟩ :: rest)
        (Lib.Tree.toList_branch_color side .red .black near far w)
      rwa [plug_far, plug_far] at inner
    have next : ((p.ptr, (st.setColor w.ptr .red).parent p.ptr) : Nat × Nat) =
        (addr nil (branch side c t p (branch side .red near w far)), above nil rest) := by
      rw [addr_branch, Rbt.parent, painted.node.parent]
    refine .inl ⟨rest, branch side c t p (branch side .red near w far), ?_⟩
    obtain ⟨rfl, above⟩ | ⟨rfl, head, above⟩ := outside
    · exact ⟨n + 1, painted, .inl ⟨color_branch _ _ _ _ _, whole⟩, above, next, nodes,
        .inr (bound.resolve_left (by decide))⟩
    · refine ⟨n, painted, .inr ⟨color_branch _ _ _ _ _, ?_⟩, above, next, nodes,
        .inl (color_branch _ _ _ _ _)⟩
      rw [Lib.Tree.blacken_branch]
      exact whole

end

/-- The round, whatever the brother's colour. -/
theorem fixDeleteAt_spec (tree : RepTree nil st (plug (frame :: rest) t)) (rb : RB t n)
    (hole : Hole (frame :: rest) (n + 1)) :
    RoundDone nil (fixDeleteAt nil frame.side st frame.label.ptr) (plug (frame :: rest) t).toList
      (rest.length + 1) := by
  obtain ⟨side, c, p, sibling⟩ := frame
  have top : RepTree nil st (plug rest (branch side c t p sibling)) := tree
  have atSibling := top
  rw [← plug_far] at atSibling
  have child : st.child side.opp p.ptr = addr nil sibling := top.node.far
  obtain ⟨sibRB, outside⟩ := hole.above
  simp only [fixDeleteAt, child, atSibling.color]
  by_cases red : sibling.color = .red
  · obtain ⟨near, w, far, rfl, -⟩ := sibRB.exists_red side red
    obtain ⟨nearBlack, nearRB, hole'⟩ := hole.red_sibling
    have painted := atSibling.setColor .black
    rw [plug_far] at painted
    have rotated := (painted.setColor .red).rotate
    obtain ⟨near₂, w₂, far₂, rfl, near₂RB, far₂RB⟩ := nearRB.exists_black side nearBlack
    have below : RepTree nil (rbtRotate nil side ((st.setColor w.ptr .black).setColor p.ptr .red) p.ptr)
        (plug (⟨side, .black, w, far⟩ :: rest)
          (branch side .red t p (branch side .black near₂ w₂ far₂))) := rotated
    have child' := below.node.far
    rw [addr_branch] at child'
    rw [if_pos red, addr_branch, Rbt.child, child']
    have done := fixDeleteBlack_spec (rest.length + 1) below rb near₂RB far₂RB hole'.above.2
      (.inl rfl)
    have nodes : (plug (⟨side, .black, w, far⟩ :: rest)
        (branch side .red t p (branch side .black near₂ w₂ far₂))).toList =
        (plug (⟨side, c, p, branch side .red (branch side .black near₂ w₂ far₂) w far⟩ :: rest) t).toList :=
      toList_plug_congr rest (Lib.Tree.toList_rotate side c .red .black .red _ _ _ _ _)
    rwa [nodes] at done
  · have black := Lib.Tree.Color.eq_black red
    obtain ⟨near, w, far, rfl, nearRB, farRB⟩ := sibRB.exists_black side black
    rw [if_neg red, addr_branch]
    exact fixDeleteBlack_spec (rest.length + 1) top rb nearRB farRB outside (.inr (Nat.lt_succ_self _))

theorem rbtFixDelete_exit (xParent : Nat) (tree : RepTree nil st (plug ctx t)) (short : Short t n)
    (hole : Hole ctx (n + 1)) (stop : ctx = [] ∨ t.color = .red) :
    ∃ st' t', rbtFixDelete nil (fuel + 1) st (addr nil t) xParent = some st' ∧ RepTree nil st' t' ∧
      Balanced t' ∧ t'.toList = (plug ctx t).toList := by
  have test : ¬ (addr nil t ≠ st.root ∧ st.color (addr nil t) = .black) := by
    rintro ⟨notRoot, isBlack⟩
    obtain rfl | red := stop
    · exact notRoot tree.root.symm
    · rw [tree.color, red] at isBlack
      exact absurd isBlack (by decide)
  refine ⟨_, plug ctx t.blacken, if_neg test, tree.blacken, ?_,
    toList_plug_congr ctx (Lib.Tree.toList_blacken t)⟩
  obtain ⟨black, rb⟩ | ⟨-, rb⟩ := short
  · obtain rfl | red := stop
    · exact ⟨Lib.Tree.color_blacken t, rb.blacken⟩
    · rw [red] at black
      exact absurd black (by decide)
  · exact rb.plug hole (.inl (Lib.Tree.color_blacken t))

theorem addr_plug_mem (frame : Frame (Cell δ)) (ctx : Path δ) (t : CellTree δ) :
    addr nil (plug (frame :: ctx) t) ∈ pathPtrs (frame :: ctx) := by
  induction ctx generalizing frame t with
  | nil =>
    rw [plug, plug, Frame.fill, addr_branch]
    exact mem_pathPtrs_cons.mpr (.inl rfl)
  | cons outer ctx ih => exact mem_pathPtrs_cons.mpr (.inr (.inr (ih outer (frame.fill t))))

/-- **The fix-up of a removal** ends with a red-black tree with a black root and the same nodes in the same order. -/
theorem rbtFixDelete_spec (tree : RepTree nil st (plug ctx t)) (short : Short t n) (hole : Hole ctx (n + 1))
    (enough : ctx.length < fuel) :
    ∃ st' t', rbtFixDelete nil fuel st (addr nil t) (above nil ctx) = some st' ∧ RepTree nil st' t' ∧
      Balanced t' ∧ t'.toList = (plug ctx t).toList := by
  -- by induction on the fuel: a round that goes on at a black node has a shorter path
  induction fuel generalizing st ctx t n with
  | zero => omega
  | succ fuel ih =>
    by_cases red : t.color = .red
    · exact rbtFixDelete_exit _ tree short hole (.inr red)
    cases ctx with
    | nil => exact rbtFixDelete_exit _ tree short hole (.inl rfl)
    | cons frame rest =>
      have black := Lib.Tree.Color.eq_black red
      have rb : RB t n := by
        obtain ⟨-, rb⟩ | ⟨isRed, -⟩ := short
        · exact rb
        · exact absurd isRed red
      have notRoot : addr nil t ≠ st.root := by
        rw [tree.root]
        exact tree.addr_ne (addr_plug_mem frame rest t)
      have fromSibling := tree
      rw [← plug_sibling] at fromSibling
      have side := tree.side_found (fromSibling.addr_ne_sibling hole.1.ne_leaf).symm
      have round : rbtFixDelete nil (fuel + 1) st (addr nil t) frame.label.ptr =
          rbtFixDelete nil fuel (fixDeleteAt nil frame.side st frame.label.ptr).1
            (fixDeleteAt nil frame.side st frame.label.ptr).2.1
            (fixDeleteAt nil frame.side st frame.label.ptr).2.2 := by
        rw [rbtFixDelete, if_pos ⟨notRoot, tree.color.trans black⟩, side]
      rw [above, round]
      rw [List.length_cons] at enough
      obtain ⟨ctx', t', m, rep, short', hole', next, nodes, progress⟩ | ⟨t', rep, balanced, next, nodes⟩ :=
        fixDeleteAt_spec tree rb hole
      · rw [next, ← nodes]
        obtain isRed | shorter := progress
        · obtain ⟨k, rfl⟩ : ∃ k, fuel = k + 1 := ⟨fuel - 1, by omega⟩
          exact rbtFixDelete_exit _ rep short' hole' (.inr isRed)
        · exact ih rep short' hole' (by omega)
      · obtain ⟨k, rfl⟩ : ∃ k, fuel = k + 1 := ⟨fuel - 1, by omega⟩
        rw [next, ← nodes]
        obtain ⟨isBlack, m, isRB⟩ := balanced
        have whole : RepTree nil (fixDeleteAt nil frame.side st frame.label.ptr).1 (plug [] t') := rep
        exact rbtFixDelete_exit _ whole (Short.of_rb isRB) trivial (.inl rfl)

/-! ### Taking a node out -/

theorem RepTree.splice {st' : Rbt δ} (tree : RepTree nil st (plug ctx (branch side c .leaf z t)))
    (linked : Linked st st' ctx (addr nil t))
    (root : t ≠ .leaf → st'.heap (addr nil t) = { st.heap (addr nil t) with parent := above nil ctx })
    (same : ∀ p, p ≠ above nil ctx ∨ p = nil → p ≠ addr nil t ∨ p = nil → st'.heap p = st.heap p) :
    RepTree nil st' (plug ctx t) := by
  obtain ⟨-, -, rep⟩ := rep_branch.mp (rep_plug.mp tree.rep).1
  obtain ⟨nodupNode, nodupPath, disjoint⟩ := nodup_plug.mp tree.nodup
  have nodupT := (nodup_branch.mp nodupNode).2.2.2.1
  have inNode : ∀ p ∈ ptrs t, p ∈ ptrs (branch side c .leaf z t) := fun p inside =>
    mem_ptrs_branch.mpr (.inr (.inr inside))
  refine tree.exchange (rep.reparent nodupT root ?_) linked ?_ ?_ ?_ ?_
  · intro p inside different
    exact same p (.inl (tree.above_ne (inNode p inside)).symm) (.inl different)
  · intro p inside different
    refine same p (.inl different) ?_
    by_cases isNil : p = nil
    · exact .inr isNil
    · refine .inl (Ne.symm (addr_ne_of_not_mem isNil fun member => ?_))
      exact disjoint (inNode p member) inside
  · exact nodup_plug.mpr ⟨nodupT, nodupPath, fun p inside outside => disjoint (inNode p inside) outside⟩
  · exact fun inside => tree.fresh (mem_ptrs_plug.mpr (.inl (inNode nil inside)))
  · exact same nil (.inr rfl) (.inr rfl)

/-- The stores of the source replace a node by its one child. -/
theorem RepTree.splice_node (tree : RepTree nil st (plug ctx (branch side c .leaf z t))) :
    RepTree nil (reparent nil (replaceChild nil .left st z.ptr (addr nil t)) (addr nil t)
      ((replaceChild nil .left st z.ptr (addr nil t)).parent z.ptr)) (plug ctx t) := by
  have parent : st.parent z.ptr = above nil ctx := tree.node.parent
  have inNode : z.ptr ∈ ptrs (branch side c .leaf z t) := mem_ptrs_branch.mpr (.inl rfl)
  have zAbove : z.ptr ≠ above nil ctx := (tree.above_ne inNode).symm
  have parent' : (replaceChild nil .left st z.ptr (addr nil t)).parent z.ptr = above nil ctx := by
    rw [Rbt.parent, replaceChild_heap, if_neg]
    · exact parent
    · exact fun both => zAbove (both.1.trans parent)
  have childAbove : addr nil t ∈ ptrs t → addr nil t ≠ above nil ctx := fun inside =>
    (tree.above_ne (mem_ptrs_branch.mpr (.inr (.inr inside)))).symm
  have nilOut : nil ∉ ptrs t := fun inside =>
    tree.fresh (mem_ptrs_plug.mpr (.inl (mem_ptrs_branch.mpr (.inr (.inr inside)))))
  rw [parent']
  refine tree.splice (tree.linked (branch_ne_leaf _ _ _ _ _) .left _ ?_ fun notNil => ?_)
    (fun nonempty => ?_) fun p notAbove notChild => ?_
  · rw [reparent_root, replaceChild_root, parent]
  · have notChild : ¬ (above nil ctx = addr nil t ∧ addr nil t ≠ nil) := by
      rintro ⟨equal, childNotNil⟩
      exact childAbove (addr_mem_of_ne_nil childNotNil) equal.symm
    rw [reparent_heap, if_neg notChild, replaceChild_heap, parent, if_pos ⟨rfl, notNil⟩, addr_branch]
  · have inside := addr_mem_of_node nil nonempty
    have notNil : addr nil t ≠ nil := fun isNil => nilOut (isNil ▸ inside)
    rw [reparent_heap, if_pos ⟨rfl, notNil⟩, replaceChild_heap, parent,
      if_neg fun both => childAbove inside both.1]
  · rw [reparent_heap, if_neg, replaceChild_heap, parent, if_neg]
    · rintro ⟨rfl, notNil⟩
      exact notAbove.elim (fun ne => ne rfl) notNil
    · rintro ⟨rfl, notNil⟩
      exact notChild.elim (fun ne => ne rfl) notNil

theorem RepTree.addr_eq_nil (tree : RepTree nil st (plug ctx t)) : addr nil t = nil ↔ t = .leaf := by
  constructor
  · intro isNil
    refine ((addr_mem nil t).resolve_right fun inside => ?_).2
    exact tree.fresh (mem_ptrs_plug.mpr (.inl (isNil ▸ inside)))
  · rintro rfl
    rfl

/-- The leftmost node of a subtree: its path goes left only and it has no left child. -/
theorem leftmost_spec (tree : RepTree nil st (plug ctx t)) (nonempty : t ≠ .leaf) (enough : t.toList.length < fuel) :
    ∃ path c y r, t = plug path (branch .left c .leaf y r) ∧ (∀ frame ∈ path, frame.side = .left) ∧
      leftmost nil fuel st (addr nil t) = some y.ptr := by
  induction t generalizing ctx fuel with
  | leaf => exact absurd rfl nonempty
  | node c l x r ihl =>
    obtain ⟨fuel, rfl⟩ : ∃ k, fuel = k + 1 := ⟨fuel - 1, by omega⟩
    obtain ⟨-, -, child, -, below, -⟩ := tree.parts
    rw [addr, leftmost, show st.child .left x.ptr = addr nil l from child]
    by_cases isLeaf : l = .leaf
    · subst isLeaf
      exact ⟨[], c, x, r, rfl, by simp, if_neg (by simp [addr])⟩
    · have notNil : addr nil l ≠ nil := fun isNil => isLeaf (below.addr_eq_nil.mp isNil)
      simp only [toList, List.length_append, List.length_cons] at enough
      obtain ⟨path, c', y, r', rfl, left, found⟩ := ihl below isLeaf (show _ < fuel by omega)
      refine ⟨path ++ [⟨.left, c, x, r⟩], c', y, r', ?_, ?_, ?_⟩
      · rw [plug_append]
        rfl
      · intro frame member
        simp only [List.mem_append, List.mem_singleton] at member
        obtain inPath | rfl := member
        · exact left frame inPath
        · rfl
      · rw [if_pos notNil]
        exact found

/-- What memory holds after `y` took the place of `z`; `l` is the left child of `z`. -/
theorem installSuccessor_heap (nil : Nat) (st : Rbt δ) {z y l par : Nat} (left : (st.heap z).left = l)
    (parent : (st.heap z).parent = par) (zy : z ≠ y) (lz : l ≠ z) (ly : l ≠ y) (pz : par ≠ z)
    (py : par ≠ y) (pl : par = l → l = nil) (p : Nat) :
    (installSuccessor nil st z y).heap p =
      if p = y then ⟨(st.heap y).data, l, (st.heap y).right, par, (st.heap z).color⟩
      else if p = l ∧ l ≠ nil then { st.heap l with parent := y }
      else if p = par ∧ par ≠ nil then
        (st.heap p).setChild (if z = (st.heap par).child .left then .left else .right) y
      else st.heap p := by
  have readLeft : (st.heap z).child .left = l := left
  have lPar : ¬ (l = par ∧ ¬ par = nil) := fun both => both.2 (both.1 ▸ pl both.1.symm)
  simp only [installSuccessor, Rbt.child, Rbt.parent, Rbt.color, Rbt.setChild_heap, Rbt.setParent_heap,
    Rbt.setColor_heap, reparent_heap, replaceChild_heap, readLeft, parent, zy, lz.symm, ly, ly.symm,
    pz.symm, py.symm, lPar, ne_eq, if_false, if_true, false_and, RbtNode.setChild_fields, Side.opp]
  by_cases atY : p = y
  · simp only [atY, if_true]
    rfl
  by_cases atL : p = l ∧ ¬ l = nil
  · simp only [if_neg atY, if_pos atL]
  · simp only [if_neg atY, if_neg atL]

theorem installSuccessor_root (nil : Nat) (st : Rbt δ) (z y : Nat) :
    (installSuccessor nil st z y).root = if st.parent z = nil then y else st.root := by
  simp only [installSuccessor, Rbt.setColor_root, reparent_root]
  exact replaceChild_root nil .left st z y

/-- **The successor takes the place of a node.** Before it, memory holds the tree with `z` in place
and, apart from it, `y` with the new right subtree. -/
theorem RepTree.install {st₁ : Rbt δ} {r' : CellTree δ} (tree : RepTree nil st (plug ctx (branch .left c l z r)))
    (root : st₁.root = st.root)
    (same : ∀ p, p = z.ptr ∨ p ∈ ptrs l ∨ p ∈ pathPtrs ctx ∨ p = nil → st₁.heap p = st.heap p)
    (data : (st₁.heap y.ptr).data = some y.data) (right : (st₁.heap y.ptr).right = addr nil r')
    (rep : Rep nil st₁.heap y.ptr r') (nodup : (ptrs (plug ctx (branch .left c l y r'))).Nodup)
    (fresh : nil ∉ ptrs (branch .left c l y r')) (zOut : z.ptr ∉ ptrs (branch .left c l y r')) :
    RepTree nil (installSuccessor nil st₁ z.ptr y.ptr) (plug ctx (branch .left c l y r')) := by
  obtain ⟨holds, repL, -⟩ := rep_branch.mp (rep_plug.mp tree.rep).1
  obtain ⟨nodupNew, -, disjoint⟩ := nodup_plug.mp nodup
  obtain ⟨yl, yr, nodupL, -, lr⟩ := nodup_branch.mp nodupNew
  have inNew : ∀ p, p = y.ptr ∨ p ∈ ptrs l ∨ p ∈ ptrs r' → p ∈ ptrs (branch .left c l y r') :=
    fun p inside => mem_ptrs_branch.mpr inside
  have yNil : y.ptr ≠ nil := fun equal => fresh (equal ▸ inNew _ (.inl rfl))
  have zNil := tree.ptr_ne_nil
  have zl : z.ptr ∉ ptrs l := fun inside => zOut (inNew _ (.inr (.inl inside)))
  have aboveCases : above nil ctx = nil ∨ above nil ctx ∈ pathPtrs ctx := by
    cases ctx with
    | nil => exact .inl rfl
    | cons frame ctx => exact .inr (mem_pathPtrs_cons.mpr (.inl rfl))
  have parNew : ∀ p ∈ ptrs (branch .left c l y r'), above nil ctx ≠ p := by
    rintro p inside rfl
    exact aboveCases.elim (fun isNil => fresh (isNil ▸ inside)) (disjoint inside)
  have parZ : above nil ctx ≠ z.ptr := tree.above_ne (mem_ptrs_branch.mpr (.inl rfl))
  have zSame : st₁.heap z.ptr = st.heap z.ptr := same _ (.inl rfl)
  have heap := installSuccessor_heap nil st₁ (by rw [zSame]; exact holds.near)
    (by rw [zSame]; exact holds.parent) (fun equal => zOut (inNew _ (.inl equal)))
    (addr_ne_of_not_mem zNil zl) (addr_ne_of_not_mem yNil yl) parZ (parNew _ (inNew _ (.inl rfl))) (by
      intro equal
      by_contra notNil
      exact parNew _ (inNew _ (.inr (.inl (addr_mem_of_ne_nil notNil)))) equal)
  have other : ∀ p, p ≠ y.ptr → p ≠ addr nil l ∨ addr nil l = nil → p ≠ above nil ctx ∨ p = nil →
      (installSuccessor nil st₁ z.ptr y.ptr).heap p = st₁.heap p := by
    intro p notY notL notPar
    rw [heap, if_neg notY, if_neg, if_neg]
    · rintro ⟨rfl, notNil⟩
      exact notPar.elim (fun ne => ne rfl) notNil
    · rintro ⟨rfl, notNil⟩
      exact notL.elim (fun ne => ne rfl) notNil
  refine tree.exchange (rep_branch.mpr ⟨?_, ?_, ?_⟩) ?_ ?_ nodup fresh ?_
  · rw [heap, if_pos rfl, zSame, ← right]
    exact ⟨data, rfl, rfl, rfl, holds.color⟩
  · have repL₁ : Rep nil st₁.heap z.ptr l := repL.congr fun p inside => same p (.inr (.inl inside))
    refine repL₁.reparent nodupL (fun nonempty => ?_) fun p inside different => ?_
    · have inside := addr_mem_of_node nil nonempty
      have notNil : addr nil l ≠ nil := fun isNil => fresh (inNew _ (.inr (.inl (isNil ▸ inside))))
      rw [heap, if_neg (addr_ne_of_not_mem yNil yl), if_pos ⟨rfl, notNil⟩]
    · exact other p (fun equal => yl (equal ▸ inside)) (.inl different)
        (.inl (parNew p (inNew p (.inr (.inl inside)))).symm)
  · refine rep.congr fun p inside => other p (fun equal => yr (equal ▸ inside))
      (ne_addr_or_nil nil fun inL => lr inL inside) (.inl (parNew p (inNew p (.inr (.inr inside)))).symm)
  · rw [addr_branch]
    have parent₁ : st₁.parent z.ptr = above nil ctx := by
      rw [Rbt.parent, zSame]
      exact holds.parent
    refine tree.linked (branch_ne_leaf _ _ _ _ _) .left _ ?_ fun notNil => ?_
    · rw [installSuccessor_root, parent₁, root]
    · have notLeft : ¬ (above nil ctx = addr nil l ∧ addr nil l ≠ nil) := fun both =>
        parNew _ (inNew _ (.inr (.inl (addr_mem_of_ne_nil both.2)))) both.1
      have parSame : st₁.heap (above nil ctx) = st.heap (above nil ctx) :=
        same _ (.inr (.inr (aboveCases.symm)))
      rw [heap, if_neg (parNew _ (inNew _ (.inl rfl))), if_neg notLeft, if_pos ⟨rfl, notNil⟩, parSame,
        addr_branch]
      rfl
  · intro p inside different
    rw [← same p (.inr (.inr (.inl inside)))]
    refine other p (fun equal => disjoint (inNew _ (.inl rfl)) (equal ▸ inside))
      (ne_addr_or_nil nil fun inL => disjoint (inNew _ (.inr (.inl inL))) inside) (.inl different)
  · rw [← same nil (.inr (.inr (.inr rfl)))]
    exact other nil yNil.symm (ne_addr_or_nil nil fun inL => fresh (inNew _ (.inr (.inl inL)))) (.inr rfl)

theorem before_left (left : ∀ frame ∈ path, frame.side = .left) : before path = [] := by
  induction path with
  | nil => rfl
  | cons frame path ih =>
    have side : frame.side = .left := left frame List.mem_cons_self
    rw [before, side, ih fun f member => left f (List.mem_cons_of_mem _ member)]
    rfl

/-- The nodes before and after `z` leaves, when its successor `y` takes its place. -/
theorem toList_successor (left : ∀ frame ∈ path, frame.side = .left) (ctx : Path δ) (c cy : Color) (l ry : CellTree δ)
    (z y : Cell δ) :
    (plug ctx (branch .left c l z (plug path (branch .left cy .leaf y ry)))).toList =
        (before ctx ++ l.toList) ++ z :: (y :: ry.toList ++ after path ++ after ctx) ∧
      (plug ctx (branch .left c l y (plug path ry))).toList =
        (before ctx ++ l.toList) ++ (y :: ry.toList ++ after path ++ after ctx) := by
  constructor <;> simp [toList_plug, branch, toList, before_left left]

theorem mem_pathPtrs_append {inner outer : Path δ} {p : Nat} :
    p ∈ pathPtrs (inner ++ outer) ↔ p ∈ pathPtrs inner ∨ p ∈ pathPtrs outer := by
  induction inner with
  | nil => simp [pathPtrs, before, after]
  | cons frame inner ih =>
    rw [List.cons_append, mem_pathPtrs_cons, mem_pathPtrs_cons, ih]
    tauto

/-- The stores for a left child replace it and leave its own node alone. -/
theorem RepTree.splice_left (tree : RepTree nil st (plug (frame :: ctx) (branch .left c .leaf y t)))
    (left : frame.side = .left) :
    RepTree nil (reparent nil (st.setChild .left frame.label.ptr (addr nil t)) (addr nil t)
        frame.label.ptr) (plug (frame :: ctx) t) ∧
      (reparent nil (st.setChild .left frame.label.ptr (addr nil t)) (addr nil t)
        frame.label.ptr).heap y.ptr = st.heap y.ptr := by
  have inY : ∀ p, p = y.ptr ∨ p ∈ ptrs t → p ∈ ptrs (branch .left c .leaf y t) := by
    rintro p (rfl | inside)
    · exact mem_ptrs_branch.mpr (.inl rfl)
    · exact mem_ptrs_branch.mpr (.inr (.inr inside))
  have labelOut : ∀ p, p = y.ptr ∨ p ∈ ptrs t → frame.label.ptr ≠ p := fun p inside =>
    tree.above_ne (inY p inside)
  have yt : y.ptr ∉ ptrs t := (nodup_branch.mp (nodup_plug.mp tree.nodup).1).2.1
  have nilOut : nil ∉ ptrs t := fun inside =>
    tree.fresh (mem_ptrs_plug.mpr (.inl (inY _ (.inr inside))))
  constructor
  · refine tree.splice ⟨reparent_root _ _ _ _, ?_⟩ (fun nonempty => ?_) fun p notAbove notChild => ?_
    · rw [reparent_heap, if_neg fun both => labelOut _ (.inr (addr_mem_of_ne_nil both.2)) both.1,
        Rbt.setChild_heap, if_pos rfl, left]
    · have inside := addr_mem_of_node nil nonempty
      have notNil : addr nil t ≠ nil := fun isNil => nilOut (isNil ▸ inside)
      rw [reparent_heap, if_pos ⟨rfl, notNil⟩, Rbt.setChild_heap, if_neg (labelOut _ (.inr inside)).symm]
      rfl
    · have inner : RepTree nil st (plug ctx (branch frame.side frame.color
        (branch .left c .leaf y t) frame.label frame.sibling)) := tree
      rw [reparent_heap, if_neg, Rbt.setChild_heap, if_neg]
      · rintro rfl
        exact notAbove.elim (fun ne => ne rfl) inner.ptr_ne_nil
      · rintro ⟨rfl, notNil⟩
        exact notChild.elim (fun ne => ne rfl) notNil
  · have notChild : ¬ (y.ptr = addr nil t ∧ addr nil t ≠ nil) := fun both =>
      yt (both.1 ▸ addr_mem_of_ne_nil both.2)
    rw [reparent_heap, if_neg notChild, Rbt.setChild_heap, if_neg (labelOut _ (.inl rfl)).symm]

/-- The successor takes the place of the node removed, and its child that of the successor. -/
theorem RepTree.successor {cy : Color} {ry : CellTree δ}
    (tree : RepTree nil st (plug ctx (branch .left c l z (plug path (branch .left cy .leaf y ry)))))
    (left : ∀ frame ∈ path, frame.side = .left) :
    RepTree nil (installSuccessor nil (detachSuccessor nil st z.ptr y.ptr).1 z.ptr y.ptr)
        (plug ctx (branch .left c l y (plug path ry))) ∧
      (detachSuccessor nil st z.ptr y.ptr).2 = above nil (path ++ ⟨.right, c, y, l⟩ :: ctx) := by
  obtain ⟨oldList, newList⟩ := toList_successor left ctx c cy l ry z y
  have oldNodup := tree.nodup
  have oldFresh := tree.fresh
  rw [ptrs, oldList, List.map_append, List.map_cons] at oldNodup oldFresh
  have newPtrs : ptrs (plug ctx (branch .left c l y (plug path ry))) =
      (before ctx ++ l.toList).map Cell.ptr ++
        (y :: ry.toList ++ after path ++ after ctx).map Cell.ptr := by
    rw [ptrs, newList, List.map_append]
  have nodup : (ptrs (plug ctx (branch .left c l y (plug path ry)))).Nodup := by
    rw [newPtrs]
    exact (List.nodup_middle.mp oldNodup).of_cons
  have zOut : z.ptr ∉ ptrs (plug ctx (branch .left c l y (plug path ry))) := by
    rw [newPtrs]
    exact (List.nodup_cons.mp (List.nodup_middle.mp oldNodup)).1
  have nilOut : nil ∉ ptrs (plug ctx (branch .left c l y (plug path ry))) := by
    rw [newPtrs]
    simp only [List.mem_append, List.mem_cons, not_or] at oldFresh ⊢
    exact ⟨oldFresh.1, oldFresh.2.2⟩
  have fresh : nil ∉ ptrs (branch .left c l y (plug path ry)) := fun inside =>
    nilOut (mem_ptrs_plug.mpr (.inl inside))
  have zOut' : z.ptr ∉ ptrs (branch .left c l y (plug path ry)) := fun inside =>
    zOut (mem_ptrs_plug.mpr (.inl inside))
  have atY : RepTree nil st (plug (path ++ ⟨.right, c, z, l⟩ :: ctx) (branch .left cy .leaf y ry)) := by
    rw [plug_append]
    exact tree
  have parentY : st.parent y.ptr = above nil (path ++ ⟨.right, c, z, l⟩ :: ctx) := atY.node.parent
  cases path with
  | nil =>
    -- the successor is the right child: it keeps its own right subtree
    have detached : detachSuccessor nil st z.ptr y.ptr = (st, y.ptr) := if_pos parentY
    rw [detached]
    obtain ⟨holds, -, repRy⟩ := rep_branch.mp (rep_plug.mp atY.rep).1
    exact ⟨tree.install rfl (fun _ _ => rfl) holds.data holds.far repRy nodup fresh zOut', rfl⟩
  | cons frame path =>
    have onPath : ∀ p, p = z.ptr ∨ p ∈ ptrs l ∨ p ∈ pathPtrs ctx →
        p ∈ pathPtrs (path ++ ⟨.right, c, z, l⟩ :: ctx) := fun p inside =>
      mem_pathPtrs_append.mpr (.inr (mem_pathPtrs_cons.mpr inside))
    have atLabel : RepTree nil st (plug (path ++ ⟨.right, c, z, l⟩ :: ctx)
      (frame.fill (branch .left cy .leaf y ry))) := atY
    have labelZ : frame.label.ptr ≠ z.ptr := by
      have different := atLabel.addr_ne (onPath _ (.inl rfl))
      rwa [Frame.fill, addr_branch] at different
    have childY : st.child .right y.ptr = addr nil ry := atY.node.far
    obtain ⟨spliced, yKept⟩ := atY.splice_left (left frame List.mem_cons_self)
    obtain ⟨st₁, isSt₁⟩ : ∃ st₁, st₁ = reparent nil (st.setChild .left frame.label.ptr (addr nil ry))
      (addr nil ry) frame.label.ptr := ⟨_, rfl⟩
    rw [← isSt₁] at spliced yKept
    -- the right subtree of `z` without the successor
    obtain ⟨r, isR⟩ : ∃ r, r = plug (frame :: path) ry := ⟨_, rfl⟩
    rw [← isR] at nodup fresh zOut' ⊢
    have tree₁ : RepTree nil st₁ (plug ctx (branch .left c l z r)) := by
      have moved : RepTree nil st₁ (plug ((frame :: path) ++ (⟨.right, c, z, l⟩ :: ctx)) ry) := spliced
      rw [plug_append, ← isR] at moved
      exact moved
    have childZ : st₁.child .right z.ptr = addr nil r := tree₁.node.far
    have rNonempty : r ≠ .leaf := by
      intro isLeaf
      have long := length_plug (frame :: path) ry
      rw [← isR, isLeaf] at long
      simp [toList] at long
    have labelY : frame.label.ptr ≠ y.ptr := atY.above_ne (mem_ptrs_branch.mpr (.inl rfl))
    have childY₁ : (st.setChild .left frame.label.ptr (addr nil ry)).child .right y.ptr = addr nil ry := by
      rw [Rbt.child, Rbt.setChild_heap, if_neg labelY.symm]
      exact childY
    have detached : detachSuccessor nil st z.ptr y.ptr =
        (reparent nil (st₁.setChild .right y.ptr (addr nil r)) (addr nil r) y.ptr,
          frame.label.ptr) := by
      have parent : st.parent y.ptr = frame.label.ptr := parentY
      have readBack : (st₁.setChild .right y.ptr (addr nil r)).child .right y.ptr = addr nil r := by
        rw [Rbt.child, Rbt.setChild_heap, if_pos rfl, (RbtNode.setChild_fields ..).1]
      simp only [detachSuccessor, parent, if_neg labelZ, childY, childY₁, ← isSt₁, childZ, readBack]
    rw [detached]
    obtain ⟨-, -, repR⟩ := rep_branch.mp (rep_plug.mp tree₁.rep).1
    obtain ⟨nodupNew, -, disjoint⟩ := nodup_plug.mp nodup
    obtain ⟨yl, yr, -, nodupR, lr⟩ := nodup_branch.mp nodupNew
    have rIn := addr_mem_of_node nil rNonempty
    have rNil : addr nil r ≠ nil := fun isNil =>
      fresh (mem_ptrs_branch.mpr (.inr (.inr (isNil ▸ rIn))))
    have yNil : y.ptr ≠ nil := fun isNil => fresh (mem_ptrs_branch.mpr (.inl isNil.symm))
    have ry : y.ptr ≠ addr nil r := fun equal => yr (equal ▸ rIn)
    have atYNode : (reparent nil (st₁.setChild .right y.ptr (addr nil r)) (addr nil r) y.ptr).heap y.ptr =
        (st.heap y.ptr).setChild .right (addr nil r) := by
      rw [reparent_heap, if_neg fun both => ry both.1, Rbt.setChild_heap, if_pos rfl, yKept]
    have other : ∀ p, p ≠ y.ptr → p ≠ addr nil r →
        (reparent nil (st₁.setChild .right y.ptr (addr nil r)) (addr nil r) y.ptr).heap p =
          st₁.heap p := by
      intro p notY notR
      rw [reparent_heap, if_neg fun both => notR both.1, Rbt.setChild_heap, if_neg notY]
    refine ⟨tree₁.install (reparent_root _ _ _ _) ?_ ?_ ?_ ?_ nodup fresh zOut', rfl⟩
    · rintro p (rfl | inL | inCtx | rfl)
      · refine other _ (fun equal => zOut' (mem_ptrs_branch.mpr (.inl equal))) fun equal => ?_
        exact zOut' (mem_ptrs_branch.mpr (.inr (.inr (equal ▸ rIn))))
      · exact other _ (fun equal => yl (equal ▸ inL)) fun equal => lr inL (equal ▸ rIn)
      · refine other _ (fun equal => ?_) fun equal => ?_
        · exact disjoint (mem_ptrs_branch.mpr (.inl rfl)) (equal ▸ inCtx)
        · exact disjoint (mem_ptrs_branch.mpr (.inr (.inr rIn))) (equal ▸ inCtx)
      · exact other _ yNil.symm rNil.symm
    · rw [atYNode]
      exact atY.node.data
    · rw [atYNode]
      rfl
    · refine repR.reparent nodupR (fun _ => ?_) fun p inside different => ?_
      · rw [reparent_heap, if_pos ⟨rfl, rNil⟩, Rbt.setChild_heap, if_neg ry.symm]
      · exact other p (fun equal => yr (equal ▸ inside)) different

/-! ### Removing a node -/

/-- The end of a removal, once a node of colour `c` with the one child `x` is out: a red one leaves a
red-black tree, a black one a short subtree. -/
theorem rbtRemoveNode_finish (fuel : Nat) (tree : RepTree nil st (plug ctx x)) (rb : RB (branch side c .leaf y x) n)
    (hole : Hole ctx n) (enough : ctx.length < fuel) :
    ∃ st' t', (if c = .black then rbtFixDelete nil fuel st (addr nil x) (above nil ctx) else some st) =
        some st' ∧ RepTree nil st' t' ∧ Balanced t' ∧ t'.toList = (plug ctx x).toList := by
  cases c with
  | red =>
    obtain ⟨-, black, -, xRB⟩ := (Lib.Tree.RB_red side).mp rb
    exact ⟨st, plug ctx x, if_neg (by decide), tree, xRB.plug hole (.inl black), rfl⟩
  | black =>
    obtain ⟨m, rfl⟩ : ∃ m, n = m + 1 := by
      cases side <;> exact ⟨_, rb.choose_spec.1⟩
    obtain ⟨-, xRB⟩ := (Lib.Tree.RB_black side).mp rb
    exact rbtFixDelete_spec tree (Short.of_rb xRB) hole enough

theorem rbtRemoveNode_one (tree : RepTree nil st (plug ctx (branch side c .leaf z x)))
    (balanced : Balanced (plug ctx (branch side c .leaf z x)))
    (enough : (plug ctx (branch side c .leaf z x)).toList.length < fuel)
    (branches : st.child .left z.ptr = nil ∨ st.child .right z.ptr = nil)
    (kept : (if st.child .left z.ptr = nil then st.child .right z.ptr else st.child .left z.ptr) =
      addr nil x) :
    ∃ st' t', rbtRemoveNode nil fuel st z.ptr = some st' ∧ RepTree nil st' t' ∧ Balanced t' ∧
      t'.toList = (plug ctx x).toList := by
  obtain ⟨n, rb, hole, -⟩ := balanced.unplug
  have bound := length_plug ctx (branch side c .leaf z x)
  obtain ⟨st', t', result, rep, isBalanced, nodes⟩ :=
    rbtRemoveNode_finish fuel tree.splice_node rb hole (by omega)
  refine ⟨st', t', ?_, rep, isBalanced, nodes⟩
  have color : st.color z.ptr = c := tree.node.color
  have parent : st.parent z.ptr = above nil ctx := tree.node.parent
  simp only [rbtRemoveNode, if_pos branches, kept, color, parent, Option.bind_eq_bind, Option.bind_some]
  exact result

/-- **Removal.** The node is out of the list of nodes, and the tree is red-black again. -/
theorem rbtRemoveNode_spec (tree : RepTree nil st (plug ctx (.node c l z r)))
    (balanced : Balanced (plug ctx (.node c l z r))) (enough : (plug ctx (.node c l z r)).toList.length < fuel) :
    ∃ st' t' smaller larger, rbtRemoveNode nil fuel st z.ptr = some st' ∧ RepTree nil st' t' ∧
      Balanced t' ∧ (plug ctx (.node c l z r)).toList = smaller ++ z :: larger ∧
      t'.toList = smaller ++ larger := by
  have whole : RepTree nil st (plug ctx (branch .left c l z r)) := tree
  obtain ⟨-, -, childL, childR, atLeft, atRight⟩ := tree.parts
  change st.child .left z.ptr = addr nil l at childL
  change st.child .right z.ptr = addr nil r at childR
  have nodes : (plug ctx (.node c l z r)).toList =
      (before ctx ++ l.toList) ++ z :: (r.toList ++ after ctx) := by
    simp [toList_plug, toList]
  by_cases leftLeaf : l = .leaf
  · subst leftLeaf
    have noLeft : st.child .left z.ptr = nil := childL
    obtain ⟨st', t', result, rep, isBalanced, same⟩ := rbtRemoveNode_one whole balanced enough
      (.inl noLeft) (by rw [if_pos noLeft, childR])
    refine ⟨st', t', _, _, result, rep, isBalanced, nodes, same.trans ?_⟩
    simp [toList_plug, toList]
  have leftNode : addr nil l ≠ nil := fun isNil => leftLeaf (atLeft.addr_eq_nil.mp isNil)
  by_cases rightLeaf : r = .leaf
  · subst rightLeaf
    have mirrored : RepTree nil st (plug ctx (branch .right c .leaf z l)) := tree
    obtain ⟨st', t', result, rep, isBalanced, same⟩ := rbtRemoveNode_one mirrored balanced enough
      (.inr childR) (by rw [childL, if_neg leftNode])
    refine ⟨st', t', _, _, result, rep, isBalanced, nodes, same.trans ?_⟩
    simp [toList_plug, toList]
  have rightNode : addr nil r ≠ nil := fun isNil => rightLeaf (atRight.addr_eq_nil.mp isNil)
  have sizes : r.toList.length < fuel := by
    rw [nodes] at enough
    simp only [List.length_append, List.length_cons] at enough
    omega
  obtain ⟨path, cy, y, ry, rfl, left, found⟩ := leftmost_spec atRight rightLeaf sizes
  obtain ⟨installed, xParent⟩ := whole.successor left
  have atY : RepTree nil st (plug (path ++ ⟨.right, c, z, l⟩ :: ctx) (branch .left cy .leaf y ry)) := by
    rw [plug_append]
    exact tree
  have balancedY : Balanced (plug (path ++ ⟨.right, c, z, l⟩ :: ctx) (branch .left cy .leaf y ry)) := by
    rw [plug_append]
    exact balanced
  obtain ⟨n, rb, hole, -⟩ := balancedY.unplug
  have atX : RepTree nil (installSuccessor nil (detachSuccessor nil st z.ptr y.ptr).1 z.ptr y.ptr)
      (plug (path ++ ⟨.right, c, y, l⟩ :: ctx) ry) := by
    rw [plug_append]
    exact installed
  obtain ⟨oldList, newList⟩ := toList_successor left ctx c cy l ry z y
  have newList' : (plug (path ++ ⟨.right, c, y, l⟩ :: ctx) ry).toList =
      (before ctx ++ l.toList) ++ (y :: ry.toList ++ after path ++ after ctx) := by
    rw [plug_append]
    exact newList
  have bound := length_plug (path ++ ⟨.right, c, y, l⟩ :: ctx) ry
  have shorter : (plug (path ++ ⟨.right, c, y, l⟩ :: ctx) ry).toList.length < fuel := by
    refine lt_of_le_of_lt ?_ enough
    rw [newList', show (plug ctx (.node c l z (plug path (branch .left cy .leaf y ry)))).toList = _ from
      oldList]
    simp only [List.length_append, List.length_cons]
    omega
  obtain ⟨st', t', result, rep, isBalanced, same⟩ :=
    rbtRemoveNode_finish fuel atX rb hole.relabel (by omega)
  refine ⟨st', t', _, _, ?_, rep, isBalanced, oldList, same.trans newList'⟩
  have color : st.color y.ptr = cy := atY.node.color
  have childY : st.child .right y.ptr = addr nil ry := atY.node.far
  have twoChildren : ¬ (st.child .left z.ptr = nil ∨ st.child .right z.ptr = nil) := by
    rw [childL, childR]
    exact fun either => either.elim leftNode rightNode
  rw [rbtRemoveNode, if_neg twoChildren]
  simp only [childR, found, Option.bind_eq_bind, Option.bind_some, childY, color, xParent]
  exact result

end Voxia.Tree
