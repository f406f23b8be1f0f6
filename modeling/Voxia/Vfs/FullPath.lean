/-
**The full path of a dentry leads back to it (`vfs/dentry.c`).**

`get_full_path_from_dentry` climbs from a dentry to the root and puts the names together; `resolve_dentry` takes such
a path apart. The state is reached by any sequence of calls of `resolve_dentry` (from any dentry whose names on the
way from the root are plain) and `vxnamei`, of removals from the cache, and of changes of vnodes and file systems.
`vxnamei` makes names that the walk of `resolve_dentry` never reaches, such as `.`; the names on the way to a dentry
that `resolve_dentry` returned are plain ones (`PathTo`).
-/

import Mathlib.Data.List.DropRight
import Voxia.Vfs.References

namespace Voxia.Vfs

open Function List Option Nat

variable {σ : Type}

/-! ### The full path -/

def str (src : CStr) : Option CStr := if strLimit < src.length then none else some src

/-- The loop of `get_full_path_from_dentry`; `none` if the rounds do not suffice. -/
def fullPathLoop (w : VfsState σ) : Nat → CStr → Nat → Option CStr
  | 0, _, _ => none
  | fuel + 1, currName, curr =>
    match (w.dentries curr).parent with
    | none => some ([slash] ++ currName)
    | some up => fullPathLoop w fuel (((w.dentries curr).name ++ [slash]) ++ currName) up

/-- `get_full_path_from_dentry`: the path, or `none` for a null pointer; `none` outside if the rounds do not suffice. -/
def getFullPathFromDentry (w : VfsState σ) (fuel d : Nat) : Option (Option CStr) :=
  match (w.dentries d).parent with
  | none => some (str (w.dentries d).name)
  | some up =>
    match str (w.dentries d).name with
    | none => some none
    | some currName => (fullPathLoop w fuel currName up).map some

/-! ### The other operations on the tree -/

/-- One component of `vxnamei`; `none` where `create_dentry` would read the name `str` refused to copy. -/
def nameiStep (w : VfsState σ) (curr : Nat) (component : CStr) : Option (Nat × VfsState σ) :=
  match cacheLookup w curr component with
  | (some next, w) => some (next, dentryPut w curr)
  | (none, w) =>
    if strLimit < component.length then none
    else
      let (entry, w) := createDentry w component none curr
      some (entry, enter (setVnode w entry ⟨none⟩) curr entry)

def nameiLoop : Nat → VfsState σ → Nat → Option CStr → Option (Nat × VfsState σ)
  | 0, w, curr, _ => some (curr, w)
  | fuel + 1, w, curr, path =>
    match path with
    | none | some [] => some (curr, w)
    | some path =>
      let (component, rest) := strsep2 path
      if component = [] then nameiLoop fuel w curr rest
      else (nameiStep w curr component).bind fun (next, w) => nameiLoop fuel w next rest

def vxnamei (w : VfsState σ) (path : CStr) : Option (Option Nat × VfsState σ) :=
  if path = [] then some (none, w)
  else (nameiLoop (path.length + 1) (dentryGet w w.root) w.root (some path)).map fun (d, w) => (some d, w)

def uncache (w : VfsState σ) (d : Nat) : VfsState σ :=
  { w with
    buckets := update w.buckets (bucketOf (w.dentries d).hash)
      ((w.buckets (bucketOf (w.dentries d).hash)).erase d)
    dentries := update w.dentries d { w.dentries d with inCache := false } }

def cacheRemove (w : VfsState σ) (d : Nat) : VfsState σ :=
  if (w.dentries d).inCache then dentryPut (uncache w d) d else w

/-! ### The tree -/

def Inside (w : VfsState σ) (d : Nat) : Prop := w.root < d ∧ d < w.next

def Absent (w : VfsState σ) (p : Nat) (name : CStr) : Prop :=
  ∀ e, Inside w e → (w.dentries e).inCache → ¬ ((w.dentries e).parent = some p ∧ (w.dentries e).name = name)

structure TreeInv (w : VfsState σ) : Prop where
  root : w.root < w.next
  top : (w.dentries w.root).parent = none
  parents : ∀ d, Inside w d → ∃ p, (w.dentries d).parent = some p ∧ w.root ≤ p ∧ p < d
  hash : ∀ d, Inside w d → (w.dentries d).hash = hashDentry (w.dentries d).name (w.dentries d).parent
  nodup : ∀ idx, (w.buckets idx).Nodup
  listed : ∀ idx, ∀ d ∈ w.buckets idx, Inside w d ∧ bucketOf (w.dentries d).hash = idx ∧ (w.dentries d).inCache
  cached : ∀ d, Inside w d → (w.dentries d).inCache → d ∈ w.buckets (bucketOf (w.dentries d).hash)
  unique : ∀ d e, Inside w d → Inside w e → (w.dentries d).inCache → (w.dentries e).inCache →
    (w.dentries d).parent = (w.dentries e).parent → (w.dentries d).name = (w.dentries e).name → d = e

/-- Dentries may have been made; those there were keep their names and parents. -/
structure Grows (w w' : VfsState σ) : Prop where
  root : w'.root = w.root
  next : w.next ≤ w'.next
  name : ∀ d < w.next, (w'.dentries d).name = (w.dentries d).name
  parent : ∀ d < w.next, (w'.dentries d).parent = (w.dentries d).parent

theorem Grows.refl (w : VfsState σ) : Grows w w := ⟨rfl, le_refl _, fun _ _ => rfl, fun _ _ => rfl⟩

variable {w w' w₀ : VfsState σ} {d p curr fuel : Nat} {name path component : CStr} {names : List CStr}

theorem Grows.trans {w'' : VfsState σ} (first : Grows w w') (second : Grows w' w'') : Grows w w'' where
  root := second.root.trans first.root
  next := le_trans first.next second.next
  name d below := (second.name d (lt_of_lt_of_le below first.next)).trans (first.name d below)
  parent d below := (second.parent d (lt_of_lt_of_le below first.next)).trans (first.parent d below)

theorem SameNodes.grows (same : SameNodes w w') : Grows w w' :=
  ⟨same.root, le_of_eq same.next.symm, fun d _ => same.name d, fun d _ => same.parent d⟩

theorem SameNodes.inside (same : SameNodes w w') (d : Nat) : Inside w' d ↔ Inside w d := by
  rw [Inside, Inside, same.root, same.next]

theorem Grows.inside (grows : Grows w w') (inside : Inside w d) : Inside w' d :=
  ⟨grows.root ▸ inside.1, lt_of_lt_of_le inside.2 grows.next⟩

theorem TreeInv.same (inv : TreeInv w) (same : SameNodes w w') : TreeInv w' := by
  constructor <;> simp only [same.root, same.next, same.buckets, same.name, same.parent, same.hash, same.inCache,
    same.inside]
  exacts [inv.root, inv.top, inv.parents, inv.hash, inv.nodup, inv.listed, inv.cached, inv.unique]

theorem Absent.same (absent : Absent w p name) (same : SameNodes w w') : Absent w' p name := by
  intro e inside set
  rw [same.inCache] at set
  rw [same.parent, same.name]
  exact absent e ((same.inside e).mp inside) set

/-! ### What the operations keep -/

/-- A new dentry keeps the tree in order. -/
theorem TreeInv.createDentry (inv : TreeInv w) (name : CStr) (vnode : Option Vnode) (below : w.root ≤ p ∧ p < w.next) :
    TreeInv (createDentry w name vnode p).2 ∧ Grows w (createDentry w name vnode p).2 := by
  have old : ∀ d < w.next, (Vfs.createDentry w name vnode p).2.dentries d = w.dentries d := fun d lt =>
    dentries_createDentry w name vnode p (Nat.ne_of_lt lt)
  have new := dentries_createDentry_self w name vnode p
  have rootLt := inv.root
  have cases' : ∀ d, Inside (Vfs.createDentry w name vnode p).2 d → d = w.next ∨ Inside w d := by
    rintro d ⟨above, lt⟩
    rcases Nat.lt_succ_iff_lt_or_eq.mp lt with lt | same
    · exact .inr ⟨above, lt⟩
    · exact .inl same
  have clear : ((Vfs.createDentry w name vnode p).2.dentries w.next).inCache = false := by rw [new]
  refine ⟨⟨lt_succ_of_lt rootLt, ?_, ?_, ?_, inv.nodup, ?_, ?_, ?_⟩,
    ⟨rfl, le_succ _, fun d lt => by rw [old d lt], fun d lt => by rw [old d lt]⟩⟩
  · change ((Vfs.createDentry w name vnode p).2.dentries w.root).parent = none
    rw [old _ rootLt]
    exact inv.top
  · intro d inside
    rcases cases' d inside with rfl | inside
    · exact ⟨p, by rw [new], below.1, below.2⟩
    · rw [old d inside.2]
      exact inv.parents d inside
  · intro d inside
    rcases cases' d inside with rfl | inside
    · rw [new]
    · rw [old d inside.2]
      exact inv.hash d inside
  · intro idx d listed
    obtain ⟨inside, bucket, set⟩ := inv.listed idx d listed
    rw [old d inside.2]
    exact ⟨⟨inside.1, lt_succ_of_lt inside.2⟩, bucket, set⟩
  · intro d inside set
    rcases cases' d inside with rfl | inside
    · rw [clear] at set
      exact absurd set (by decide)
    · rw [old d inside.2] at set ⊢
      exact inv.cached d inside set
  · intro d e insideD insideE setD setE
    rcases cases' d insideD with rfl | insideD
    · rw [clear] at setD
      exact absurd setD (by decide)
    rcases cases' e insideE with rfl | insideE
    · rw [clear] at setE
      exact absurd setE (by decide)
    rw [old d insideD.2] at setD ⊢
    rw [old e insideE.2] at setE ⊢
    exact inv.unique d e insideD insideE setD setE

theorem Absent.createDentry (absent : Absent w p name) (name' : CStr) (vnode : Option Vnode)
    (p' : Nat) : Absent (createDentry w name' vnode p').2 p name := by
  rintro e ⟨above, lt⟩ set
  rcases Nat.lt_succ_iff_lt_or_eq.mp lt with lt | rfl
  · rw [dentries_createDentry w name' vnode p' (Nat.ne_of_lt lt)] at set ⊢
    exact absent e ⟨above, lt⟩ set
  · rw [dentries_createDentry_self] at set
    exact absurd set Bool.false_ne_true

section

variable (inv : TreeInv w)

include inv

/-- **A dentry enters or leaves the cache**: its bucket gets or loses it, and no cached dentry has the parent and
name of one that enters. -/
theorem TreeInv.recache (d : Nat) (set : Bool) (buckets : Nat → List Nat) (refcount : Nat → Int)
    (nodup : ∀ idx, (buckets idx).Nodup)
    (mem : ∀ idx y, y ∈ buckets idx ↔ if y = d then set ∧ bucketOf (w.dentries d).hash = idx else y ∈ w.buckets idx)
    (fresh : set → Inside w d ∧ ∀ p, (w.dentries d).parent = some p → Absent w p (w.dentries d).name) :
    let w' := { w with
      buckets := buckets
      refcount := refcount
      dentries := update w.dentries d { w.dentries d with inCache := set } }
    TreeInv w' ∧ Grows w w' := by
  intro w'
  have name : ∀ y, (w'.dentries y).name = (w.dentries y).name := update_field Dentry.name rfl
  have parent : ∀ y, (w'.dentries y).parent = (w.dentries y).parent := update_field Dentry.parent rfl
  have hash : ∀ y, (w'.dentries y).hash = (w.dentries y).hash := update_field Dentry.hash rfl
  have inCache : ∀ y, (w'.dentries y).inCache = if y = d then set else (w.dentries y).inCache := by
    intro y
    change (update w.dentries d _ y).inCache = _
    split_ifs with same
    · rw [same, update_self]
    · rw [update_of_ne same]
  -- an old dentry with the parent and name of the new one is not there
  have alone : set → ∀ y, Inside w y → (w.dentries y).inCache → (w.dentries y).parent = (w.dentries d).parent →
      (w.dentries y).name ≠ (w.dentries d).name := by
    intro isSet y inside cached sameParent sameName
    obtain ⟨p, parent', -⟩ := inv.parents y inside
    exact (fresh isSet).2 p (sameParent ▸ parent') y inside cached ⟨parent', sameName⟩
  refine ⟨⟨inv.root, (parent _).trans inv.top, ?_, ?_, nodup, ?_, ?_, ?_⟩,
    ⟨rfl, le_refl _, fun y _ => name y, fun y _ => parent y⟩⟩
  · intro y inside
    rw [parent]
    exact inv.parents y inside
  · intro y inside
    rw [hash, name, parent]
    exact inv.hash y inside
  · intro idx y listed
    replace listed := (mem idx y).mp listed
    rw [hash, inCache]
    split_ifs at listed ⊢ with same
    · rw [same]
      exact ⟨(fresh listed.1).1, listed.2, listed.1⟩
    · exact inv.listed idx y listed
  · intro y inside cached
    rw [inCache] at cached
    rw [hash]
    refine (mem _ y).mpr ?_
    split_ifs at cached ⊢ with same
    · exact ⟨cached, by rw [same]⟩
    · exact inv.cached y inside cached
  · intro y z insideY insideZ cachedY cachedZ sameParent sameName
    rw [parent, parent] at sameParent
    rw [name, name] at sameName
    rw [inCache] at cachedY cachedZ
    split_ifs at cachedY cachedZ with isY isZ isZ
    · rw [isY, isZ]
    · rw [isY] at sameParent sameName
      exact absurd sameName.symm (alone cachedY z insideZ cachedZ sameParent.symm)
    · rw [isZ] at sameParent sameName
      exact absurd sameName (alone cachedZ y insideY cachedY sameParent)
    · exact inv.unique y z insideY insideZ cachedY cachedZ sameParent sameName

theorem TreeInv.vfsCacheInsert (inside : Inside w d) (parent : (w.dentries d).parent = some p)
    (uncached : (w.dentries d).inCache = false)
    (absent : Absent w p (w.dentries d).name) : TreeInv (vfsCacheInsert w d) ∧ Grows w (vfsCacheInsert w d) := by
  have unlisted : ∀ idx, d ∉ w.buckets idx := fun idx listed => by
    rw [(inv.listed idx d listed).2.2] at uncached
    exact absurd uncached (by decide)
  refine inv.recache d true _ _ (fun idx => ?_) (fun idx y => ?_) fun _ => ⟨inside, fun p' same => ?_⟩
  · rw [update_apply]
    split_ifs with here
    · exact here ▸ nodup_cons.mpr ⟨unlisted _, inv.nodup _⟩
    · exact inv.nodup idx
  · rw [update_apply]
    split_ifs with here same same
    · exact iff_of_true (same ▸ mem_cons_self) ⟨rfl, here.symm⟩
    · rw [here, mem_cons, or_iff_right same]
      rfl
    · exact iff_of_false (same ▸ unlisted idx) fun both => here both.2.symm
    · rfl
  · obtain rfl := some.inj (parent.symm.trans same)
    exact absent

theorem TreeInv.uncache (d : Nat) : TreeInv (uncache w d) ∧ Grows w (uncache w d) := by
  refine inv.recache d false _ _ (fun idx => ?_) (fun idx y => ?_) fun set => absurd set (by decide)
  · rw [update_apply]
    split_ifs
    · exact (inv.nodup _).erase d
    · exact inv.nodup idx
  · rw [update_apply]
    split_ifs with here same same
    · exact iff_of_false (fun listed => ((inv.nodup _).mem_erase_iff.mp listed).1 same) fun both => by cases both.1
    · rw [here, (inv.nodup _).mem_erase_iff, and_iff_right same]
    · exact iff_of_false (fun listed => here (inv.listed idx d (same ▸ listed)).2.1.symm) fun both => by cases both.1
    · rfl

theorem TreeInv.cacheRemove (d : Nat) : TreeInv (cacheRemove w d) ∧ Grows w (cacheRemove w d) := by
  rw [Vfs.cacheRemove]
  split_ifs
  · obtain ⟨kept, grown⟩ := inv.uncache d
    have put := SameNodes.dentryPut (Vfs.uncache w d) d
    exact ⟨kept.same put, grown.trans put.grows⟩
  · exact ⟨inv, Grows.refl w⟩

/-! ### Lookups -/

theorem TreeInv.cacheFind_some (hit : cacheFind w p name = some d) :
    Inside w d ∧ (w.dentries d).parent = some p ∧ (w.dentries d).name = name := by
  have inside := (inv.listed _ d (mem_of_find?_eq_some hit)).1
  have matches' := List.find?_some hit
  rw [Bool.and_eq_true, beq_iff_eq, beq_iff_eq] at matches'
  exact ⟨inside, matches'⟩

theorem TreeInv.cacheFind_none (miss : cacheFind w p name = none) : Absent w p name := by
  rintro e inside set ⟨parent, same⟩
  have listed := inv.cached e inside set
  rw [inv.hash e inside, parent, same] at listed
  have differs := List.find?_eq_none.mp miss e listed
  rw [Bool.and_eq_true, beq_iff_eq, beq_iff_eq] at differs
  exact differs ⟨parent, same⟩

theorem TreeInv.cacheFind_cached (inside : Inside w d) (set : (w.dentries d).inCache)
    (parent : (w.dentries d).parent = some p) : cacheFind w p (w.dentries d).name = some d := by
  cases found : cacheFind w p (w.dentries d).name with
  | none => exact absurd ⟨parent, rfl⟩ (inv.cacheFind_none found d inside set)
  | some e =>
    obtain ⟨insideE, parentE, nameE⟩ := inv.cacheFind_some found
    have setE := (inv.listed _ e (mem_of_find?_eq_some found)).2.2
    rw [inv.unique e d insideE inside setE set (parentE.trans parent.symm) nameE]

end

/-- What one component of a walk leaves: the tree in order, and the dentry it leads to, a child of that name. -/
def StepsTo (w : VfsState σ) (curr : Nat) (name : CStr) (result : Option Nat × VfsState σ) : Prop :=
  TreeInv result.2 ∧ Grows w result.2 ∧ ∀ next, result.1 = some next →
    Inside result.2 next ∧ (result.2.dentries next).parent = some curr ∧ (result.2.dentries next).name = name

theorem TreeInv.enter (inv : TreeInv w) (grows : Grows w₀ w) (inside : Inside w d)
    (parent : (w.dentries d).parent = some curr) (named : (w.dentries d).name = name)
    (uncached : (w.dentries d).inCache = false) (absent : Absent w curr name) :
    StepsTo w₀ curr name (some d, Vfs.enter w curr d) := by
  subst named
  obtain ⟨kept, grown⟩ := inv.vfsCacheInsert inside parent uncached absent
  have same := SameNodes.move (Vfs.vfsCacheInsert w d) d curr
  have all : Grows w (Vfs.enter w curr d) := grown.trans same.grows
  refine ⟨kept.same same, grows.trans all, ?_⟩
  rintro next same'
  cases same'
  exact ⟨all.inside inside, (all.parent d inside.2).trans parent, all.name d inside.2⟩

theorem TreeInv.enterNew (inv : TreeInv w) (grows : Grows w₀ w) (below : w.root ≤ curr ∧ curr < w.next)
    (absent : Absent w curr name) (vnode : Option Vnode) (same : SameNodes (Vfs.createDentry w name vnode curr).2 w') :
    StepsTo w₀ curr name (some w.next, Vfs.enter w' curr w.next) := by
  obtain ⟨kept, grown⟩ := inv.createDentry name vnode below
  have new := dentries_createDentry_self w name vnode curr
  refine (kept.same same).enter ((grows.trans grown).trans same.grows) ?_ ?_ ?_ ?_
    ((absent.createDentry name vnode curr).same same)
  · exact (same.inside _).mpr ⟨inv.root, lt_succ_self _⟩
  · rw [same.parent, new]
  · rw [same.name, new]
  · rw [same.inCache, new]

section Steps

variable (ops : FsOps σ) (createMissing : Bool)

variable {curr : Nat}

theorem createEntry_tree {w₀ w : VfsState σ} (inv : TreeInv w) (grows : Grows w₀ w) {name : CStr}
    (below : w.root ≤ curr ∧ curr < w.next) (absent : Absent w curr name) :
    StepsTo w₀ curr name (createEntry ops w curr name) := by
  obtain ⟨fs, created⟩ := newVnode_createDentry ops below.2 name
  have entry : (createDentry w name none curr).1 = w.next := rfl
  have sameFs := SameNodes.setFs (createDentry w name none curr).2 fs
  rw [createEntry]
  simp only [entry, created]
  cases (newVnode ops w curr name).1 with
  | none =>
    obtain ⟨kept, grown⟩ := inv.createDentry name none below
    exact ⟨kept.same sameFs, (grows.trans grown).trans sameFs.grows, fun next same => by cases same⟩
  | some vnode =>
    exact inv.enterNew grows below absent none
      (sameFs.trans (SameNodes.setVnode { (createDentry w name none curr).2 with fs := fs } w.next vnode))

/-- **One name**: the walk goes to the child of that name, or stays in order and fails. -/
theorem stepName_tree {w : VfsState σ} (inv : TreeInv w) (below : w.root ≤ curr ∧ curr < w.next)
    (name : CStr) : StepsTo w curr name (stepName ops createMissing w curr name) := by
  rw [stepName, cacheLookup]
  cases hit : cacheFind w curr name with
  | some next =>
    have moved := SameNodes.move w next curr
    refine ⟨inv.same moved, moved.grows, ?_⟩
    rintro next' same
    cases same
    exact inv.cacheFind_some hit
  | none =>
    have absent := inv.cacheFind_none hit
    rcases fsLookup_cases ops w curr name with ⟨vnode, fs, found, -⟩ | ⟨vnode, fs, missing, -⟩ | ⟨fs, missing, -⟩
    · simp only [found]
      have same := SameNodes.setFs w fs
      exact (inv.same same).enterNew same.grows below (absent.same same) (some vnode) (SameNodes.refl _)
    · have same := SameNodes.setFs w fs
      obtain ⟨kept, grown⟩ := (inv.same same).createDentry name vnode below
      have all := same.grows.trans grown
      simp only [missing]
      split_ifs
      · exact createEntry_tree ops kept all ⟨below.1, lt_succ_of_lt below.2⟩
          ((absent.same same).createDentry name vnode curr)
      · exact ⟨kept, all, fun next same => by cases same⟩
    · have same := SameNodes.setFs w fs
      simp only [missing]
      split_ifs
      · exact createEntry_tree ops (inv.same same) same.grows below (absent.same same)
      · exact ⟨inv.same same, same.grows, fun next same => by cases same⟩

end Steps

/-! ### Plain names -/

/-- A name that the walk of `resolve_dentry` can look up. -/
structure PlainName (name : CStr) : Prop where
  noSlash : slash ∉ name
  trimmed : trimComponent name = name
  notSelf : ¬ (name = [] ∨ name = [dot])
  notParent : name ≠ [dot, dot]
  short : name.length ≤ strLimit

/-- The names on the way from the root to a dentry, all of them plain. -/
inductive PathTo (w : VfsState σ) : List CStr → Nat → Prop
  | root : PathTo w [] w.root
  | child {names : List CStr} {p d : Nat} (up : PathTo w names p) (inside : Inside w d)
      (parent : (w.dentries d).parent = some p) (plain : PlainName (w.dentries d).name) :
      PathTo w (names ++ [(w.dentries d).name]) d

theorem PathTo.grows (grows : Grows w w') (path : PathTo w names d) : PathTo w' names d := by
  induction path with
  | root =>
    rw [← grows.root]
    exact .root
  | @child names p d _ inside parent plain ih =>
    rw [← grows.name d inside.2] at plain ⊢
    exact .child ih (grows.inside inside) ((grows.parent d inside.2).trans parent) plain

theorem Grows.paths {returned : List Nat} (grows : Grows w w') (paths : ∀ d ∈ returned, ∃ names, PathTo w names d) :
    ∀ d ∈ returned, ∃ names, PathTo w' names d :=
  fun d inside => (paths d inside).imp fun _ path => path.grows grows

theorem PathTo.inTree (inv : TreeInv w) (path : PathTo w names d) : w.root ≤ d ∧ d < w.next := by
  cases path with
  | root => exact ⟨le_refl _, inv.root⟩
  | child _ inside => exact ⟨le_of_lt inside.1, inside.2⟩

theorem strsep2_plain (path : CStr) : slash ∉ (strsep2 path).1 ∧ (strsep2 path).1.length ≤ path.length := by
  have split : path.takeWhile (· != slash) ++ path.dropWhile (· != slash) = path :=
    takeWhile_append_dropWhile
  have whole : (strsep2 path).1 = path.takeWhile (· != slash) := by
    rw [strsep2]
    cases tail : path.dropWhile (· != slash) with
    | nil =>
      rw [tail, append_nil] at split
      exact split.symm
    | cons c rest => rfl
  have length := congrArg List.length split
  rw [length_append] at length
  rw [whole]
  exact ⟨takeWhile_plain path, by omega⟩

theorem pieces_plain {path component : CStr} (piece : component ∈ pieces path) :
    slash ∉ component ∧ component.length ≤ path.length := by
  obtain ⟨plain, shorter⟩ := strsep2_plain path
  obtain ⟨-, whole⟩ | ⟨rest, -, whole, less⟩ := pieces_eq path
  · rw [whole, mem_singleton] at piece
    rw [piece]
    exact ⟨plain, shorter⟩
  · rw [whole] at piece
    rcases mem_cons.mp piece with first | later
    · rw [first]
      exact ⟨plain, shorter⟩
    · have rest' := pieces_plain later
      exact ⟨rest'.1, le_of_lt (lt_of_le_of_lt rest'.2 less)⟩
  termination_by path.length

theorem trimComponent_trim (component : CStr) : trimComponent (trimComponent component) = trimComponent component := by
  rw [trimComponent, trimComponent, reverse_reverse, dropWhile_idempotent]

theorem trimComponent_sublist (component : CStr) : (trimComponent component).Sublist component := by
  rw [trimComponent, ← reverse_sublist, reverse_reverse]
  exact dropWhile_sublist _

theorem plainName_trim (short : path.length ≤ strLimit) (piece : component ∈ pieces path)
    (notSelf : ¬ (trimComponent component = [] ∨ trimComponent component = [dot]))
    (notParent : trimComponent component ≠ [dot, dot]) : PlainName (trimComponent component) where
  noSlash inside := (pieces_plain piece).1 ((trimComponent_sublist component).subset inside)
  trimmed := trimComponent_trim component
  notSelf := notSelf
  notParent := notParent
  short := le_trans (trimComponent_sublist component).length_le (le_trans (pieces_plain piece).2 short)

/-! ### Walks -/

section Walks

variable (ops : FsOps σ) (createMissing : Bool)

/-- The tree is in order, and the dentry the walk stands at was reached by plain names. -/
def Stands (w : VfsState σ) (result : Option Nat × VfsState σ) : Prop :=
  TreeInv result.2 ∧ Grows w result.2 ∧ ∀ d, result.1 = some d → ∃ names, PathTo result.2 names d

variable {w : VfsState σ} {curr : Nat} {names : List CStr}

theorem PathTo.stands {w₀ : VfsState σ} (path : PathTo w names curr) (inv : TreeInv w) (grows : Grows w₀ w) :
    Stands w₀ (some curr, w) :=
  ⟨inv, grows, fun _ same => some.inj same ▸ ⟨names, path⟩⟩

/-- **Step**: a component leads to a dentry with a path of plain names. -/
theorem stepComponent_stands (inv : TreeInv w) (path : PathTo w names curr) {component : CStr}
    (plain : ¬ (trimComponent component = [] ∨ trimComponent component = [dot]) → trimComponent component ≠ [dot, dot] →
      PlainName (trimComponent component)) : Stands w (stepComponent ops createMissing w curr component) := by
  by_cases skip : trimComponent component = [] ∨ trimComponent component = [dot]
  · rw [stepComponent_skip ops createMissing w curr skip]
    exact path.stands inv (Grows.refl w)
  by_cases up : trimComponent component = [dot, dot]
  · simp only [stepComponent, if_neg skip, if_pos up, stepUp]
    cases path with
    | root =>
      rw [inv.top]
      exact PathTo.root.stands inv (Grows.refl w)
    | @child names p _ path inside parent =>
      rw [parent]
      have moved := SameNodes.move w p curr
      exact (path.grows moved.grows).stands (inv.same moved) moved.grows
  · simp only [stepComponent, if_neg skip, if_neg up]
    obtain ⟨kept, grown, child⟩ := stepName_tree ops createMissing inv (path.inTree inv) (trimComponent component)
    refine ⟨kept, grown, fun d same => ?_⟩
    obtain ⟨inside, parent, name⟩ := child d same
    refine ⟨_, .child (path.grows grown) inside parent ?_⟩
    rw [name]
    exact plain skip up

/-- **Run**: a walk leads to a dentry with a path of plain names. -/
theorem walk_stands (components : List CStr) (inv : TreeInv w) (path : PathTo w names curr)
    (plain : ∀ component ∈ components, ¬ (trimComponent component = [] ∨ trimComponent component = [dot]) →
      trimComponent component ≠ [dot, dot] → PlainName (trimComponent component)) :
    Stands w (walk ops createMissing w curr components) := by
  induction components generalizing w curr names with
  | nil =>
    exact path.stands inv (Grows.refl w)
  | cons component rest ih =>
    obtain ⟨kept, grown, stands⟩ := stepComponent_stands ops createMissing inv path (plain component mem_cons_self)
    rw [walk]
    cases step : stepComponent ops createMissing w curr component with
    | mk answer w' =>
      rw [step] at kept grown stands
      cases answer with
      | none =>
        have put := SameNodes.dentryPut w' curr
        exact ⟨kept.same put, grown.trans put.grows, fun d same => by cases same⟩
      | some next =>
        obtain ⟨names', path'⟩ := stands next rfl
        obtain ⟨kept', grown', stands'⟩ := ih kept path' fun c later => plain c (mem_cons_of_mem _ later)
        exact ⟨kept', grown.trans grown', stands'⟩

/-- **`resolve_dentry` keeps the tree in order**, and what it returns was reached by plain names. -/
theorem resolveDentry_stands (inv : TreeInv w) (path : CStr) (base : Option Nat)
    (known : PathTo w names (base.getD w.root)) : Stands w (resolveDentry ops w path base createMissing) := by
  by_cases long : strLimit < path.length
  · rw [resolveDentry, if_pos long]
    exact ⟨inv, Grows.refl w, fun d same => by cases same⟩
  · have short := Nat.le_of_not_lt long
    have got := SameNodes.dentryGet w (base.getD w.root)
    rw [resolveDentry_of_short ops createMissing w short, resolvePath_eq_walk]
    obtain ⟨kept, grown, stands⟩ := walk_stands ops createMissing (pieces path) (inv.same got) (known.grows got.grows)
      fun component piece => plainName_trim short piece
    exact ⟨kept, got.grows.trans grown, stands⟩

end Walks

theorem nameiStep_tree (inv : TreeInv w) {next : Nat} (below : w.root ≤ curr ∧ curr < w.next)
    (step : nameiStep w curr component = some (next, w')) :
    TreeInv w' ∧ Grows w w' ∧ w'.root ≤ next ∧ next < w'.next := by
  rw [nameiStep, cacheLookup] at step
  cases hit : cacheFind w curr component with
  | some found =>
    rw [hit] at step
    cases step
    have moved := SameNodes.move w next curr
    have inside := (inv.cacheFind_some hit).1
    exact ⟨inv.same moved, moved.grows, le_of_lt inside.1, inside.2⟩
  | none =>
    rw [hit] at step
    split_ifs at step
    cases step
    obtain ⟨kept, grown, child⟩ := inv.enterNew (Grows.refl w) below (inv.cacheFind_none hit) none
      (SameNodes.setVnode (createDentry w component none curr).2 w.next ⟨none⟩)
    have inside := (child w.next rfl).1
    exact ⟨kept, grown, le_of_lt inside.1, inside.2⟩

theorem nameiLoop_tree (inv : TreeInv w) (below : w.root ≤ curr ∧ curr < w.next) {path : Option CStr}
    (loop : nameiLoop fuel w curr path = some (d, w')) : TreeInv w' ∧ Grows w w' := by
  induction fuel generalizing w curr path with
  | zero =>
    cases loop
    exact ⟨inv, Grows.refl _⟩
  | succ fuel ih =>
    cases path with
    | none =>
      cases loop
      exact ⟨inv, Grows.refl _⟩
    | some path =>
      cases path with
      | nil =>
        cases loop
        exact ⟨inv, Grows.refl _⟩
      | cons b path =>
        simp only [nameiLoop] at loop
        split_ifs at loop
        · exact ih inv below loop
        · obtain ⟨⟨next, v⟩, step, rest⟩ := bind_eq_some_iff.mp loop
          obtain ⟨kept, grown, below'⟩ := nameiStep_tree inv below step
          obtain ⟨kept', grown'⟩ := ih kept below' rest
          exact ⟨kept', grown.trans grown'⟩

theorem vxnamei_tree (inv : TreeInv w) {result : Option Nat}
    (call : vxnamei w path = some (result, w')) : TreeInv w' ∧ Grows w w' := by
  rw [vxnamei] at call
  split_ifs at call
  · cases call
    exact ⟨inv, Grows.refl w⟩
  · obtain ⟨⟨d, v⟩, loop, same⟩ := map_eq_some_iff.mp call
    cases same
    have got := SameNodes.dentryGet w w.root
    obtain ⟨kept, grown⟩ := nameiLoop_tree (inv.same got) ⟨le_refl _, inv.root⟩ loop
    exact ⟨kept, got.grows.trans grown⟩

/-! ### Runs -/

/-- A root directory, and nothing in the cache. -/
structure VfsBoot (w : VfsState σ) : Prop where
  next : w.next = w.root + 1
  top : (w.dentries w.root).parent = none
  buckets : ∀ idx, w.buckets idx = []

/-- **The runs of the tree**: the list holds the dentries that `resolve_dentry` returned. It starts at the root or at any
dentry with plain names on the way to it. -/
inductive VfsRun (ops : FsOps σ) (start : VfsState σ) : List Nat → VfsState σ → Prop
  | start : VfsRun ops start [] start
  | resolveDentry {returned : List Nat} {w w' : VfsState σ} {result : Option Nat} (run : VfsRun ops start returned w)
      (path : CStr) (base : Option Nat) (createMissing : Bool)
      (plain : ∃ names, PathTo w names (base.getD w.root))
      (call : resolveDentry ops w path base createMissing = (result, w')) :
      VfsRun ops start (result.toList ++ returned) w'
  | vxnamei {returned : List Nat} {w w' : VfsState σ} {result : Option Nat} (run : VfsRun ops start returned w)
      (path : CStr) (call : vxnamei w path = some (result, w')) : VfsRun ops start returned w'
  | cacheRemove {returned : List Nat} {w : VfsState σ} (run : VfsRun ops start returned w) (d : Nat) :
      VfsRun ops start returned (cacheRemove w d)
  | setVnode {returned : List Nat} {w : VfsState σ} (run : VfsRun ops start returned w) (d : Nat) (vnode : Vnode) :
      VfsRun ops start returned (setVnode w d vnode)
  | setFs {returned : List Nat} {w : VfsState σ} (run : VfsRun ops start returned w) (fs : σ) :
      VfsRun ops start returned { w with fs := fs }

theorem VfsBoot.tree (boot : VfsBoot w) : TreeInv w := by
  have nothing : ∀ d, ¬ Inside w d := by
    rintro d ⟨above, below⟩
    rw [boot.next] at below
    omega
  refine ⟨?_, boot.top, fun d inside => absurd inside (nothing d), fun d inside => absurd inside (nothing d), ?_, ?_,
    fun d inside => absurd inside (nothing d), fun d e inside => absurd inside (nothing d)⟩
  · rw [boot.next]
    exact lt_succ_self _
  · intro idx
    rw [boot.buckets]
    exact nodup_nil
  · intro idx d listed
    rw [boot.buckets] at listed
    cases listed

/-- **Every run keeps the tree in order**, and the dentries returned were reached by plain names. -/
theorem VfsRun.tree {ops : FsOps σ} {start : VfsState σ} (boot : VfsBoot start) {returned : List Nat}
    (run : VfsRun ops start returned w) : TreeInv w ∧ ∀ d ∈ returned, ∃ names, PathTo w names d := by
  induction run with
  | start => exact ⟨boot.tree, fun d inside => by cases inside⟩
  | @resolveDentry returned w w' result _ path base createMissing plain call ih =>
    obtain ⟨inv, paths⟩ := ih
    obtain ⟨names, path'⟩ := plain
    have stands := resolveDentry_stands ops createMissing inv path base path'
    rw [call] at stands
    obtain ⟨kept, grown, stands⟩ := stands
    refine ⟨kept, fun d inside => ?_⟩
    rcases mem_append.mp inside with new | old
    · exact stands d (mem_toList.mp new)
    · exact grown.paths paths d old
  | vxnamei _ path call ih =>
    obtain ⟨kept, grown⟩ := vxnamei_tree ih.1 call
    exact ⟨kept, grown.paths ih.2⟩
  | cacheRemove _ d ih =>
    obtain ⟨kept, grown⟩ := ih.1.cacheRemove d
    exact ⟨kept, grown.paths ih.2⟩
  | @setVnode _ w _ d vnode ih =>
    have same := SameNodes.setVnode w d vnode
    exact ⟨ih.1.same same, same.grows.paths ih.2⟩
  | @setFs _ w _ fs ih =>
    have same := SameNodes.setFs w fs
    exact ⟨ih.1.same same, same.grows.paths ih.2⟩

/-! ### There and back -/

def joinNames (names : List CStr) (last : CStr) : CStr := names.foldr (fun name rest => name ++ slash :: rest) last

theorem fullPathLoop_eq (inv : TreeInv w) (path : PathTo w names d) (last : CStr) (enough : d < fuel) :
    fullPathLoop w fuel last d = some (slash :: joinNames names last) := by
  induction path generalizing last fuel with
  | root =>
    obtain ⟨fuel, rfl⟩ : ∃ n, fuel = n + 1 := ⟨fuel - 1, by omega⟩
    rw [fullPathLoop, inv.top]
    rfl
  | @child names p d _ inside parent _ ih =>
    obtain ⟨fuel, rfl⟩ : ∃ n, fuel = n + 1 := ⟨fuel - 1, by omega⟩
    obtain ⟨p', parent', -, older⟩ := inv.parents d inside
    rw [parent] at parent'
    cases parent'
    rw [fullPathLoop, parent]
    simp only
    rw [ih _ (by omega), joinNames, joinNames, foldr_append, append_assoc]
    rfl

theorem pieces_joinNames (plain : ∀ name ∈ names, slash ∉ name) {last : CStr}
    (lastPlain : slash ∉ last) : pieces (joinNames names last) = names ++ [last] := by
  induction names with
  | nil => exact pieces_of_no_slash lastPlain
  | cons name rest ih =>
    have tail := ih fun n later => plain n (mem_cons_of_mem _ later)
    change pieces (name ++ slash :: joinNames rest last) = name :: (rest ++ [last])
    rw [pieces_append, tail, pieces_of_no_slash (plain name mem_cons_self), singleton_append]

theorem PathTo.plain (path : PathTo w names d) : ∀ name ∈ names, PlainName name := by
  induction path with
  | root => exact fun name inside => by cases inside
  | child _ _ _ plain ih =>
    intro name inside
    rcases mem_append.mp inside with old | new
    · exact ih name old
    · rw [mem_singleton.mp new]
      exact plain

def AncestorsCached (w : VfsState σ) (d : Nat) : Prop :=
  ∀ a, Relation.ReflTransGen (fun child up => (w.dentries child).parent = some up) d a → a ≠ w.root →
    (w.dentries a).inCache

theorem walk_pathTo (ops : FsOps σ) (createMissing : Bool) (inv : TreeInv w) (path : PathTo w names d)
    (cached : AncestorsCached w d) (same : SameTree w w') :
    ∃ w'', walk ops createMissing w' w.root names = (some d, w'') ∧ SameTree w w'' := by
  induction path with
  | root => exact ⟨w', rfl, same⟩
  | @child names p d up inside parent plain ih =>
    obtain ⟨v, walked, sameV⟩ := ih fun a ancestor => cached a (Relation.ReflTransGen.head parent ancestor)
    have set := cached d .refl (ne_of_gt inside.1)
    have hit : cacheFind v p (w.dentries d).name = some d := by
      rw [← sameV.cacheFind]
      exact inv.cacheFind_cached inside set parent
    rw [walk_append, walked]
    simp only
    rw [walk, stepComponent, plain.trimmed, if_neg plain.notSelf, if_neg plain.notParent, stepName, cacheLookup, hit]
    exact ⟨_, rfl, ⟨sameV.dentries, sameV.buckets, sameV.next, sameV.root, sameV.fs⟩⟩

/-- **The full path of a dentry leads back to it.** In every state of every run, a dentry that `resolve_dentry` returned
and that is, like its ancestors, in the cache has a full path; `resolve_dentry` leads it back to the dentry, unless the
path is too long, and then it fails. -/
theorem fullPath_roundtrip (ops : FsOps σ) (start : VfsState σ) (boot : VfsBoot start) (returned : List Nat)
    (w : VfsState σ) (run : VfsRun ops start returned w) (d : Nat) (known : d ∈ returned) (notRoot : d ≠ w.root)
    (cached : AncestorsCached w d) (fuel : Nat) (enough : d < fuel) :
    ∃ path, getFullPathFromDentry w fuel d = some (some path) ∧
      (path.length ≤ strLimit → (resolveDentry ops w path none false).1 = some d) ∧
      (strLimit < path.length → resolveDentry ops w path none false = (none, w)) := by
  obtain ⟨inv, paths⟩ := run.tree boot
  obtain ⟨names, path⟩ := paths d known
  cases path with
  | root => exact absurd rfl notRoot
  | @child names p _ up inside parent plain =>
    have whole : PathTo w (names ++ [(w.dentries d).name]) d := .child up inside parent plain
    obtain ⟨p', parent', -, older⟩ := inv.parents d inside
    rw [parent] at parent'
    cases parent'
    have copied : str (w.dentries d).name = some (w.dentries d).name := if_neg (not_lt.mpr plain.short)
    refine ⟨slash :: joinNames names (w.dentries d).name, ?_, fun short => ?_, fun long => if_pos long⟩
    · rw [getFullPathFromDentry, parent]
      simp only [copied]
      rw [fullPathLoop_eq inv up _ (by omega)]
      rfl
    · have apart : pieces (slash :: joinNames names (w.dentries d).name) = [] :: (names ++ [(w.dentries d).name]) := by
        rw [← pieces_joinNames (fun name inside => (up.plain name inside).noSlash) plain.noSlash]
        exact pieces_append [] _
      obtain ⟨w', walked, -⟩ := walk_pathTo ops false inv whole cached ((SameTree.refl w).dentryGet_right w.root)
      rw [resolveDentry_of_short ops false w short, resolvePath_eq_walk, apart,
        walk_cons_skip ops false _ _ _ (.inl rfl)]
      exact congrArg Prod.fst walked

/-! ### Two directories -/

theorem AncestorsCached.root (top : (w.dentries w.root).parent = none) : AncestorsCached w w.root := by
  intro a ancestor notRoot
  rcases Relation.ReflTransGen.cases_head ancestor with same | ⟨up, parent, -⟩
  · exact absurd same.symm notRoot
  · rw [top] at parent
    cases parent

theorem AncestorsCached.child (up : AncestorsCached w p) (parent : (w.dentries d).parent = some p)
    (set : (w.dentries d).inCache) : AncestorsCached w d := by
  intro a ancestor notRoot
  rcases Relation.ReflTransGen.cases_head ancestor with same | ⟨up', parent', rest⟩
  · rwa [← same]
  · rw [parent] at parent'
    cases parent'
    exact up a rest notRoot

def bareRoot : VfsState Unit := { rootOnly with dentries := fun _ => ⟨[slash], none, some ⟨none⟩, 0, false⟩ }

theorem bareRoot_boot : VfsBoot bareRoot := ⟨rfl, rfl, fun _ => rfl⟩

def twoNames : VfsState Unit := (resolveDentry everyName bareRoot [97, slash, 98] none true).2

theorem twoNames_run : VfsRun everyName bareRoot [2] twoNames := by
  have call : resolveDentry everyName bareRoot [97, slash, 98] none true = (some 2, twoNames) :=
    Prod.ext (by decide +kernel) rfl
  exact VfsRun.resolveDentry .start [97, slash, 98] none true ⟨[], .root⟩ call

theorem twoNames_cached : AncestorsCached twoNames 2 :=
  have a : AncestorsCached twoNames 1 :=
    (AncestorsCached.root (by decide +kernel)).child (by decide +kernel) (by decide +kernel)
  a.child (by decide +kernel) (by decide +kernel)

/-- The file `b` in the directory `a`. -/
theorem twoNames_roundtrip :
    ∃ path, getFullPathFromDentry twoNames 3 2 = some (some path) ∧
      (path.length ≤ strLimit → (resolveDentry everyName twoNames path none false).1 = some 2) ∧
      (strLimit < path.length → resolveDentry everyName twoNames path none false = (none, twoNames)) :=
  fullPath_roundtrip everyName bareRoot bareRoot_boot [2] twoNames twoNames_run 2 (by decide) (by decide +kernel)
    twoNames_cached 3 (by decide)

/-- `vxnamei` makes a dentry of the name `.`, which is no plain name. -/
def dotName : VfsState Unit := ((vxnamei bareRoot [dot]).getD (none, bareRoot)).2

/-- A file is made below it. -/
def belowDot : VfsState Unit := (resolveDentry everyName dotName [97] (some 1) true).2

/-- The tree with a file whose name has 4096 bytes. -/
def longName : VfsState Unit := (resolveDentry everyName bareRoot (List.replicate 4096 97) none true).2

/-- **Full paths that do not lead back**: one of a byte too many, and one through a name that is not plain. -/
theorem longName_fails :
    (VfsRun everyName bareRoot [1] longName ∧ 1 ≠ longName.root ∧ AncestorsCached longName 1 ∧
      ∃ path, getFullPathFromDentry longName 2 1 = some (some path) ∧
        (resolveDentry everyName longName path none false).1 = none) ∧
    (resolveDentry everyName dotName [97] (some 1) true).1 = some 2 ∧ AncestorsCached belowDot 2 ∧
      getFullPathFromDentry belowDot 3 2 = some (some [slash, dot, slash, 97]) ∧
      (resolveDentry everyName belowDot [slash, dot, slash, 97] none false).1 = none := by
  have found : (resolveDentry everyName bareRoot (List.replicate 4096 97) none true).1 = some 1 := by decide +kernel
  have call : resolveDentry everyName bareRoot (List.replicate 4096 97) none true = (some 1, longName) := by
    rw [longName, ← found]
  have parent : (longName.dentries 1).parent = some 0 := by decide +kernel
  have top : (longName.dentries 0).parent = none := by decide +kernel
  have length : (longName.dentries 1).name.length = 4096 := by decide +kernel
  have copied : str (longName.dentries 1).name = some (longName.dentries 1).name :=
    if_neg (by rw [length]; decide)
  have zero : longName.root = 0 := by decide +kernel
  have dotCached : AncestorsCached belowDot 1 :=
    (AncestorsCached.root (by decide +kernel)).child (by decide +kernel) (by decide +kernel)
  refine ⟨⟨VfsRun.resolveDentry .start _ none true ⟨[], .root⟩ call, by rw [zero]; decide, ?_, ?_⟩, by decide +kernel,
    dotCached.child (by decide +kernel) (by decide +kernel), by decide +kernel, by decide +kernel⟩
  · have root : AncestorsCached longName longName.root := .root (by rw [zero]; exact top)
    rw [zero] at root
    exact root.child parent (by decide +kernel)
  · refine ⟨[slash] ++ (longName.dentries 1).name, ?_, ?_⟩
    · rw [getFullPathFromDentry, parent]
      simp only [copied]
      rw [fullPathLoop, top]
      rfl
    · rw [resolveDentry, if_pos (by rw [length_append, length]; decide)]

end Voxia.Vfs
