/-
**Dentries, the dentry cache, and the walk of a path.**

`resolve_dentry` (`vfs/dentry.c`) takes a path apart at its slashes and goes from dentry to dentry: by
the parent link, by a hit in the cache, by the file system's `lookup`, or by a new entry if it may make
one. The file systems are parameters (`FsOps`): what their `lookup` and `create` answer, and their state.
A dentry whose last reference is dropped is handed to `call_rcu`, which frees it later. The lists of
children and the locks are left out.
-/

import Voxia.Machine
import Mathlib.Logic.Function.Basic

namespace Voxia.Vfs

open Function

abbrev CStr := List UInt8

def slash : UInt8 := 47
def space : UInt8 := 32
def dot : UInt8 := 46

/-! ### Dentries -/

/-- What the walk asks of a mounted file system: which operations it has, and whether it has a device. -/
structure FsInstance where
  hasLookup : Bool
  hasCdev : Bool
  hasCreate : Bool
  deriving DecidableEq

structure Vnode where
  fsInstance : Option FsInstance
  deriving DecidableEq

structure Dentry where
  name : CStr
  parent : Option Nat
  vnode : Option Vnode
  hash : Nat
  inCache : Bool

/-- What a file system's `lookup` does with the null dentry it is given: it makes a dentry of that name
and returns `VFS_OK`, or it fails, without or with such a dentry. -/
inductive Lookup where
  | found (vnode : Vnode)
  | missing
  | missingCreated (vnode : Option Vnode)

/-- The operations of the file systems: the directory is given by its dentry. `create` gives the vnode
of the new file, or fails. -/
structure FsOps (σ : Type) where
  lookup : σ → Nat → CStr → σ × Lookup
  create : σ → Nat → CStr → σ × Option Vnode

/-- All dentries, their counts of references, the cache and the state of the file systems. Addresses
from `next` on are unused; `rcu` are the dentries handed to `call_rcu`. -/
structure VfsState (σ : Type) where
  dentries : Nat → Dentry
  refcount : Nat → Int
  buckets : Nat → List Nat
  next : Nat
  rcu : List Nat
  root : Nat
  fs : σ

variable {σ : Type}

variable (ops : FsOps σ) (createMissing : Bool) (w : VfsState σ) (path : CStr) (d : Nat)

def dentryGet : VfsState σ :=
  { w with refcount := update w.refcount d (w.refcount d + 1) }

def dentryPut : VfsState σ :=
  { w with
    refcount := update w.refcount d (w.refcount d - 1)
    rcu := if w.refcount d = 1 then d :: w.rcu else w.rcu }

variable (parent : Nat) (curr : Nat) (name : CStr)

def hash32 : Nat :=
  name.foldl (fun h b => u32 ((h ^^^ b.toNat) * 0x9e3779b)) 0xcbf29ce4

def hashDentry (parent : Option Nat) : Nat :=
  match parent with
  | none => hash32 name
  | some p => hash32 name ^^^ (p &&& 0xFFFFFFFF) ^^^ (p >>> 32)

def bucketOf (hash : Nat) : Nat := hash &&& 31

/-- `create_dentry` below a parent: it holds a reference on the parent and has none itself. -/
def createDentry (vnode : Option Vnode) (parent : Nat) : Nat × VfsState σ :=
  let dentry : Dentry := ⟨name, some parent, vnode, hashDentry name (some parent), false⟩
  let made := { w with
    dentries := update w.dentries w.next dentry
    refcount := update w.refcount w.next 0
    next := w.next + 1 }
  (w.next, dentryGet made parent)

def setVnode (vnode : Vnode) : VfsState σ :=
  { w with dentries := update w.dentries d { w.dentries d with vnode := some vnode } }

/-! ### The cache -/

def vfsCacheInsert : VfsState σ :=
  let w := dentryGet w d
  let idx := bucketOf (w.dentries d).hash
  { w with
    buckets := update w.buckets idx (d :: w.buckets idx)
    dentries := update w.dentries d { w.dentries d with inCache := true } }

/-- The dentry of a name below `parent` in its bucket. -/
def cacheFind : Option Nat :=
  (w.buckets (bucketOf (hashDentry name (some parent)))).find? fun d =>
    (w.dentries d).parent == some parent && (w.dentries d).name == name

/-- `cache_lookup`: a hit takes a reference. -/
def cacheLookup : Option Nat × VfsState σ :=
  match cacheFind w parent name with
  | some d => (some d, dentryGet w d)
  | none => (none, w)

/-! ### One component -/

def instanceOf : Option FsInstance := (w.dentries d).vnode.bind Vnode.fsInstance

/-- The file system's answer for a name that is not in the cache: its state, and the dentry it made, if
any, with whether it returned `VFS_OK`. -/
def fsLookup : Option Nat × VfsState σ :=
  match instanceOf w curr with
  | some inst =>
    if inst.hasLookup ∧ inst.hasCdev then
      let (fs, answer) := ops.lookup w.fs curr name
      let w := { w with fs := fs }
      match answer with
      | .found vnode =>
        let (next, w) := createDentry w name (some vnode) curr
        (some next, w)
      | .missing => (none, w)
      -- the dentry the file system made is not looked at again
      | .missingCreated vnode => (none, (createDentry w name vnode curr).2)
    else (none, w)
  | none => (none, w)

/-- The dentry is entered in the cache, and the walk goes on to it. -/
def enter (curr next : Nat) : VfsState σ :=
  dentryPut (dentryGet (vfsCacheInsert w next) next) curr

/-- The vnode of a new entry: of the file system, or a new one if the directory has no file system. -/
def newVnode : Option Vnode × VfsState σ :=
  match instanceOf w curr with
  | some inst =>
    if inst.hasCreate then
      let (fs, vnode) := ops.create w.fs curr name
      (vnode, { w with fs := fs })
    else (none, w)
  | none => (some ⟨none⟩, w)

/-- The branch for `CREATE_MISSING_ENTRY`. -/
def createEntry : Option Nat × VfsState σ :=
  let (entry, w) := createDentry w name none curr
  match newVnode ops w curr name with
  | (some vnode, w) => (some entry, enter (setVnode w entry vnode) curr entry)
  | (none, w) => (none, w)

/-- A name looked up below `curr`: the next dentry, or `none` where the walk fails. -/
def stepName : Option Nat × VfsState σ :=
  match cacheLookup w curr name with
  | (some next, w) => (some next, dentryPut w curr)
  | (none, w) =>
    match fsLookup ops w curr name with
    | (some next, w) => (some next, enter w curr next)
    | (none, w) => if createMissing then createEntry ops w curr name else (none, w)

def stepUp : Nat × VfsState σ :=
  match (w.dentries curr).parent with
  | some up => (up, dentryPut (dentryGet w up) curr)
  | none => (curr, w)

/-- The component without the slashes and spaces at its end. -/
def trimComponent (component : CStr) : CStr :=
  (component.reverse.dropWhile fun b => b == slash || b == space).reverse

def stepComponent (component : CStr) : Option Nat × VfsState σ :=
  let name := trimComponent component
  if name = [] ∨ name = [dot] then (some curr, w)
  else if name = [dot, dot] then
    let (up, w) := stepUp w curr
    (some up, w)
  else stepName ops createMissing w curr name

/-! ### The walk -/

/-- `strsep2` with the slash as the only delimiter: the first component and what is left of the path,
null if there was no slash. -/
def strsep2 : CStr × Option CStr :=
  match path.dropWhile (· != slash) with
  | [] => (path, none)
  | _ :: rest => (path.takeWhile (· != slash), some rest)

def resolveLoop (ops : FsOps σ) (createMissing : Bool) : Nat → VfsState σ → Nat → Option CStr → Option Nat × VfsState σ
  | 0, w, curr, _ => (some curr, w)
  | fuel + 1, w, curr, path =>
    match path with
    | none | some [] => (some curr, w)
    | some path =>
      let (component, rest) := strsep2 path
      match stepComponent ops createMissing w curr component with
      | (some next, w) => resolveLoop ops createMissing fuel w next rest
      | (none, w) => (none, dentryPut w curr)

/-- The longest text `str` copies: longer ones it refuses. -/
def strLimit : Nat := 4096

/-- `resolve_dentry` on its copy of the path. Every round takes a byte off the path, so its length bounds the
rounds. -/
def resolvePath (parent : Option Nat) (createMissing : Bool) : Option Nat × VfsState σ :=
  let curr := parent.getD w.root
  resolveLoop ops createMissing (path.length + 1) (dentryGet w curr) curr (some path)

/-- `resolve_dentry`: the dentry, or `none` for -1, and the state. -/
def resolveDentry (parent : Option Nat) (createMissing : Bool) : Option Nat × VfsState σ :=
  if strLimit < path.length then (none, w) else resolvePath ops w path parent createMissing

theorem update_field {α : Type} (f : Dentry → α) {dentries : Nat → Dentry} {d : Nat} {new : Dentry}
    (same : f new = f (dentries d)) (y : Nat) : f (update dentries d new y) = f (dentries y) := by
  by_cases here : y = d
  · rw [here, update_self, same]
  · rw [update_of_ne here]

end Voxia.Vfs
