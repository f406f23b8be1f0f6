/-
**Unmounting.**

`vfs_umount` first lets the file system go (its `umount` runs, the device loses a reference, `mountedhere` and the
flags are cleared), and only then asks dentry by dentry, in a post-order walk that takes the idle ones out of the
cache, whether one below is in use. `call_rcu` frees a dentry later, so within the walk a count changes only by the
dentry's own removal. The device is not below the mount point.
-/

import Voxia.Fd.FileTable

namespace Voxia.Vfs

open Fd (VnodeType)

/-- What the walk reads and changes of a dentry. -/
structure MountDentry where
  id : Nat
  refcount : Int
  pinned : Bool
  mountpoint : Bool
  inCache : Bool

/-- A dentry with the dentries of its `child_list`, in order. -/
inductive MountTree
  | node (dentry : MountDentry) (children : List MountTree)

def MountTree.dentry : MountTree → MountDentry
  | .node dentry _ => dentry

def MountDentry.remove (d : MountDentry) : MountDentry :=
  if d.inCache then { d with pinned := false, inCache := false, refcount := d.refcount - 1 } else d

mutual

/-- `vfs_umount_recursive`: whether it ends with `VFS_ERR_BUSY`, and the tree. -/
def umountRecursive : MountTree → Bool × MountTree
  | .node d children =>
    match umountChildren children with
    | (true, children) => (true, .node d children)
    | (false, children) => if 1 < d.refcount then (true, .node d children) else (false, .node d.remove children)

/-- The loop over the children. One that was in the cache is out of the list afterwards. -/
def umountChildren : List MountTree → Bool × List MountTree
  | [] => (false, [])
  | child :: rest =>
    match umountRecursive child with
    | (true, child) => (true, child :: rest)
    | (false, left) =>
      match umountChildren rest with
      | (busy, rest) => (busy, if child.dentry.inCache then rest else left :: rest)

end

mutual

def MountTree.dentries : MountTree → List MountDentry
  | .node d children => d :: belowOf children

def belowOf : List MountTree → List MountDentry
  | [] => []
  | child :: rest => child.dentries ++ belowOf rest

end

/-- What an unmount works on: the vnode, the references on the dentry of the device, how often the file system's
`umount` ran (it may have none), and the tree of the mount point. -/
structure Mounted where
  type : VnodeType
  mountedhere : Option Nat
  mount : Option Nat
  hasUmount : Bool
  umounts : Nat
  deviceRefs : Int
  tree : MountTree

/-- The mount point, whose flags are cleared and which loses a reference, and the walk; it gets the reference back
if the walk fails. `VFS_OK` and `VFS_ERR_BUSY` are 0 and -1. -/
def finishUmount (m : Mounted) : Int × Mounted :=
  match m.tree with
  | .node d children =>
    match umountRecursive (.node { d with pinned := false, mountpoint := false, refcount := d.refcount - 1 } children) with
    | (false, tree) => (0, { m with tree := tree })
    | (true, .node d children) => (-1, { m with tree := .node { d with refcount := d.refcount + 1 } children })

/-- `vfs_umount`; it is given nothing if the dentry or its vnode is null. `VFS_ERR` is -5. -/
def vfsUmount : Option Mounted → Int × Option Mounted
  | none => (-5, none)
  | some m =>
    let released : Option Mounted :=
      match m.type, m.mountedhere with
      | .dir, some _ => some { m with
          umounts := if m.hasUmount then m.umounts + 1 else m.umounts
          deviceRefs := m.deviceRefs - 1
          mountedhere := none }
      | .blk, _ => some { m with mount := none }
      | _, _ => none
    match released with
    | none => (-5, some m)
    | some m => ((finishUmount m).1, some (finishUmount m).2)

def Mounted.cachedBelow (m : Mounted) : List Nat :=
  (m.tree.dentries.tail.filter (·.inCache)).map (·.id)

/-- The file system is mounted as before, and the same dentries are cached. -/
def Mounted.Unchanged (m m' : Mounted) : Prop :=
  m'.mountedhere = m.mountedhere ∧ m'.deviceRefs = m.deviceRefs ∧ m'.umounts = m.umounts ∧
    m'.tree.dentry.pinned = m.tree.dentry.pinned ∧ m'.tree.dentry.mountpoint = m.tree.dentry.mountpoint ∧
    ∀ id, id ∈ m'.cachedBelow ↔ id ∈ m.cachedBelow

/-- Nothing below the mount point is in use, and the mount point only by the mount. -/
def Mounted.Idle (m : Mounted) : Prop :=
  m.tree.dentry.refcount ≤ 2 ∧ ∀ d ∈ m.tree.dentries.tail, d.refcount ≤ 1

mutual

theorem umountRecursive_busy_iff : ∀ tree : MountTree,
    (umountRecursive tree).1 ↔ ∃ d ∈ tree.dentries, 1 < d.refcount
  | .node d children => by
    have below := umountChildren_busy_iff children
    simp only [umountRecursive, MountTree.dentries, List.mem_cons, exists_eq_or_imp]
    generalize umountChildren children = walked at below ⊢
    obtain ⟨busy, children⟩ := walked
    cases busy with
    | true => exact ⟨fun _ => .inr (below.mp rfl), fun _ => rfl⟩
    | false =>
      have idle : ¬ ∃ d ∈ belowOf _, 1 < d.refcount := fun used => Bool.false_ne_true (below.mpr used)
      by_cases used : 1 < d.refcount
      · simp [used]
      · simp [used, idle]

theorem umountChildren_busy_iff : ∀ children : List MountTree,
    (umountChildren children).1 ↔ ∃ d ∈ belowOf children, 1 < d.refcount
  | [] => by simp [umountChildren, belowOf]
  | child :: rest => by
    have first := umountRecursive_busy_iff child
    have others := umountChildren_busy_iff rest
    have either : (∃ d ∈ belowOf (child :: rest), 1 < d.refcount) ↔
        (∃ d ∈ child.dentries, 1 < d.refcount) ∨ ∃ d ∈ belowOf rest, 1 < d.refcount := by
      simp only [belowOf, List.mem_append, or_and_right, exists_or]
    rw [umountChildren, either, ← first, ← others]
    generalize umountRecursive child = walked
    obtain ⟨busy, tree⟩ := walked
    cases busy <;> simp

end

/-- **A refused unmount of a mounted directory changes nothing if and only if it is not refused**, which is when
nothing below is in use. -/
theorem refused_umount_unchanged_iff (m : Mounted) (dir : m.type = .dir) (mounted : m.mountedhere ≠ none) :
    ((vfsUmount (some m)).1 = -1 → ∃ m', (vfsUmount (some m)).2 = some m' ∧ m.Unchanged m') ↔ m.Idle := by
  obtain ⟨cdev, isMounted⟩ := Option.ne_none_iff_exists'.mp mounted
  obtain ⟨type, mountedhere, mount, hasUmount, umounts, deviceRefs, ⟨d, children⟩⟩ := m
  obtain rfl : type = .dir := dir
  obtain rfl : mountedhere = some cdev := isMounted
  have busy := umountRecursive_busy_iff
    (.node { d with pinned := false, mountpoint := false, refcount := d.refcount - 1 } children)
  have idle : Mounted.Idle ⟨.dir, some cdev, mount, hasUmount, umounts, deviceRefs, .node d children⟩ ↔
      ¬ ∃ e ∈ MountTree.dentries (.node { d with pinned := false, mountpoint := false, refcount := d.refcount - 1 }
        children), 1 < e.refcount := by
    simp only [Mounted.Idle, MountTree.dentry, MountTree.dentries, List.tail_cons, List.mem_cons, exists_eq_or_imp,
      not_or, not_exists, not_and, not_lt]
    exact and_congr_left' (by omega)
  rw [idle, ← busy]
  simp only [vfsUmount, finishUmount]
  generalize umountRecursive
    (.node { d with pinned := false, mountpoint := false, refcount := d.refcount - 1 } children) = walked
  obtain ⟨refused, ⟨e, left⟩⟩ := walked
  cases refused with
  | false => exact ⟨fun _ => Bool.false_ne_true, fun _ wrong => absurd (show (0 : Int) = -1 from wrong) (by decide)⟩
  | true =>
    refine ⟨fun keeps => ?_, fun wrong => absurd rfl wrong⟩
    obtain ⟨m', result, same⟩ := keeps rfl
    have gone : some none = some m'.mountedhere := congrArg (Option.map Mounted.mountedhere) result
    rw [same.1] at gone
    exact nomatch gone

/-- A mount point with these dentries below it: it counts itself, the mount and each of them. -/
def mountOf (children : List MountTree) : Mounted :=
  ⟨.dir, some 0, none, true, 0, 1, .node ⟨0, 2 + children.length, true, true, true⟩ children⟩

/-- One file is below it, which is cached and open. -/
def busyMount : Mounted := mountOf [.node ⟨1, 2, false, false, true⟩ []]

/-- Its unmount is refused, and it is not mounted any more. -/
theorem refused_umount_unmounts : (vfsUmount (some busyMount)).1 = -1 ∧
    (vfsUmount (some busyMount)).2.map (fun m => (m.mountedhere, m.umounts, m.deviceRefs, m.tree.dentry.mountpoint)) =
      some (none, 1, 0, false) := by
  decide

/-- With nothing below it is unmounted, and with the open file the refusal is not without effect. -/
theorem refused_umount_unchanged_iff_busy :
    ((vfsUmount (some (mountOf []))).1 = -1 → ∃ m', (vfsUmount (some (mountOf []))).2 = some m' ∧
      (mountOf []).Unchanged m') ∧
    ¬ ((vfsUmount (some busyMount)).1 = -1 → ∃ m', (vfsUmount (some busyMount)).2 = some m' ∧
      busyMount.Unchanged m') := by
  rw [refused_umount_unchanged_iff (mountOf []) rfl (by decide), refused_umount_unchanged_iff busyMount rfl (by decide)]
  exact ⟨⟨by decide, List.forall_mem_nil _⟩, fun idle => absurd idle.1 (by decide)⟩

end Voxia.Vfs
