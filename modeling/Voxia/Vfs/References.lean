/-
**The references a walk takes and gives back.**

A walk holds one reference, on the dentry it stands at. Every dentry made on the way has a reference on its parent
from the start, and one of the cache once it is entered there; nothing else changes the counts. This is the invariant
`Ledger`. A dentry that was made and not entered in the cache is left behind with a reference on its parent. That
happens exactly if a file system's `lookup` fails after it has made a dentry, or if the creation of an entry fails
(`CleanWalk`).
-/

import Voxia.Vfs.Resolve
import Mathlib.Data.Finset.Card
import Mathlib.Order.Interval.Finset.Nat

namespace Voxia.Vfs

open Function Option Nat Finset

variable {σ : Type}

/-! ### What is counted -/

structure Closed (w : VfsState σ) : Prop where
  root : w.root < w.next
  cached : ∀ idx, ∀ d ∈ w.buckets idx, d < w.next
  parents : ∀ d < w.next, ∀ p, (w.dentries d).parent = some p → p < w.next

def made (w w' : VfsState σ) : Finset Nat := Finset.Ico w.next w'.next

def cachedMade (w w' : VfsState σ) : Finset Nat := (made w w').filter fun y => (w'.dentries y).inCache

def childrenIn (w : VfsState σ) (ys : Finset Nat) (x : Nat) : Finset Nat :=
  ys.filter fun y => (w.dentries y).parent = some x

def oldCount (w : VfsState σ) (x : Nat) : Int := if x < w.next then w.refcount x else 0

/-- **What `resolve_dentry` promises.** The returned dentry has one reference more, a dentry newly in the
cache has one of the cache and holds one on its parent, and nothing else has changed; a new dentry that
is neither in the cache nor returned is freed. -/
structure Accounted (w w' : VfsState σ) (result : Option Nat) : Prop where
  counts : ∀ x < w'.next, w'.refcount x =
    oldCount w x + (if result = some x then 1 else 0) + (if x ∈ cachedMade w w' then 1 else 0) +
      (childrenIn w' (cachedMade w w') x).card
  freed : ∀ y ∈ made w w', y ∉ cachedMade w w' → result ≠ some y → y ∈ w'.rcu

/-- The references as they are at any point of a walk from `w₀` that holds a reference on `held`: a new
dentry counts for its parent whether it is in the cache or not. -/
structure Ledger (w₀ w : VfsState σ) (held : Option Nat) : Prop where
  closed : Closed w
  later : w₀.next ≤ w.next
  holds : ∀ d, held = some d → d < w.next
  hasParent : ∀ y ∈ made w₀ w, ∃ p < w.next, (w.dentries y).parent = some p
  counts : ∀ x < w.next, w.refcount x =
    oldCount w₀ x + (if held = some x then 1 else 0) + (if x ∈ cachedMade w₀ w then 1 else 0) +
      (childrenIn w (made w₀ w) x).card

variable {w w' : VfsState σ} {y : Nat}

theorem mem_made : y ∈ made w w' ↔ w.next ≤ y ∧ y < w'.next := mem_Ico

theorem mem_cachedMade : y ∈ cachedMade w w' ↔ y ∈ made w w' ∧ (w'.dentries y).inCache := mem_filter

/-! ### The effect of the small steps on the counts -/

@[simp] theorem refcount_dentryGet (w : VfsState σ) (d x : Nat) :
    (dentryGet w d).refcount x = w.refcount x + if d = x then 1 else 0 := by
  by_cases same : d = x
  · subst same
    simp [dentryGet]
  · simp [dentryGet, same, update_of_ne (Ne.symm same)]

@[simp] theorem refcount_dentryPut (w : VfsState σ) (d x : Nat) :
    (dentryPut w d).refcount x = w.refcount x - if d = x then 1 else 0 := by
  by_cases same : d = x
  · subst same
    simp [dentryPut]
  · simp [dentryPut, same, update_of_ne (Ne.symm same)]

/-- States with the same tree and cache, whatever the vnodes, the counts and the file systems are. -/
structure SameNodes (w w' : VfsState σ) : Prop where
  root : w'.root = w.root
  next : w'.next = w.next
  buckets : w'.buckets = w.buckets
  name : ∀ d, (w'.dentries d).name = (w.dentries d).name
  parent : ∀ d, (w'.dentries d).parent = (w.dentries d).parent
  hash : ∀ d, (w'.dentries d).hash = (w.dentries d).hash
  inCache : ∀ d, (w'.dentries d).inCache = (w.dentries d).inCache

namespace SameNodes

theorem other (w : VfsState σ) (refcount : Nat → Int) (rcu : List Nat) (fs : σ) :
    SameNodes w { w with refcount := refcount, rcu := rcu, fs := fs } :=
  ⟨rfl, rfl, rfl, fun _ => rfl, fun _ => rfl, fun _ => rfl, fun _ => rfl⟩

theorem refl (w : VfsState σ) : SameNodes w w := other w _ _ _

theorem trans {w w' w'' : VfsState σ} (first : SameNodes w w') (second : SameNodes w' w'') : SameNodes w w'' where
  root := second.root.trans first.root
  next := second.next.trans first.next
  buckets := second.buckets.trans first.buckets
  name d := (second.name d).trans (first.name d)
  parent d := (second.parent d).trans (first.parent d)
  hash d := (second.hash d).trans (first.hash d)
  inCache d := (second.inCache d).trans (first.inCache d)

variable (w : VfsState σ)

theorem dentryGet (d : Nat) : SameNodes w (Vfs.dentryGet w d) := other w _ _ _

theorem dentryPut (d : Nat) : SameNodes w (Vfs.dentryPut w d) := other w _ _ _

/-- A walk takes a reference on where it goes, and gives the one back where it was. -/
theorem move (next curr : Nat) : SameNodes w (Vfs.dentryPut (Vfs.dentryGet w next) curr) := other w _ _ _

theorem setFs (fs : σ) : SameNodes w { w with fs := fs } := other w _ _ _

theorem setVnode (d : Nat) (vnode : Vnode) : SameNodes w (Vfs.setVnode w d vnode) :=
  ⟨rfl, rfl, rfl, update_field Dentry.name rfl, update_field Dentry.parent rfl, update_field Dentry.hash rfl,
    update_field Dentry.inCache rfl⟩

end SameNodes

section Moves

variable {w₀ w : VfsState σ} {held : Option Nat}

variable {w' : VfsState σ} {curr e : Nat}

theorem Ledger.of_counts {held' : Option Nat} (ledger : Ledger w₀ w held) (same : SameNodes w w')
    (holds : ∀ d, held' = some d → d < w.next)
    (counts : ∀ x < w.next, w'.refcount x - (if held' = some x then 1 else 0) =
      w.refcount x - if held = some x then 1 else 0) : Ledger w₀ w' held' := by
  have made' : made w₀ w' = made w₀ w := by rw [made, same.next, made]
  have cached : cachedMade w₀ w' = cachedMade w₀ w := by
    rw [cachedMade, made']
    exact filter_congr fun y _ => by rw [same.inCache]
  have children : ∀ x, childrenIn w' (made w₀ w) x = childrenIn w (made w₀ w) x := fun x =>
    filter_congr fun y _ => by rw [same.parent]
  refine ⟨⟨?_, ?_, ?_⟩, ?_, ?_, ?_, fun x below => ?_⟩
  · rw [same.root, same.next]
    exact ledger.closed.root
  · rw [same.buckets, same.next]
    exact ledger.closed.cached
  · simp only [same.parent, same.next]
    exact ledger.closed.parents
  · rw [same.next]
    exact ledger.later
  · rw [same.next]
    exact holds
  · simp only [made', same.parent, same.next]
    exact ledger.hasParent
  · rw [same.next] at below
    have before := ledger.counts x below
    have change := counts x below
    rw [made', cached, children]
    omega

theorem Ledger.same (ledger : Ledger w₀ w held) (same : SameNodes w w') (counts : w'.refcount = w.refcount) :
    Ledger w₀ w' held :=
  ledger.of_counts same ledger.holds fun x _ => by rw [counts]

theorem Ledger.move {next : Nat} (ledger : Ledger w₀ w (some curr)) (exists' : next < w.next) :
    Ledger w₀ (dentryPut (dentryGet w next) curr) (some next) := by
  refine ledger.of_counts (.move w next curr) ?_ ?_
  · rintro d same
    cases same
    exact exists'
  · intro x _
    simp only [refcount_dentryPut, refcount_dentryGet, some.injEq]
    omega

theorem Ledger.release (ledger : Ledger w₀ w (some curr)) : Ledger w₀ (dentryPut w curr) none := by
  refine ledger.of_counts (.dentryPut w curr) ?_ ?_
  · intro d same
    cases same
  · intro x _
    simp only [refcount_dentryPut, some.injEq, reduceCtorEq, if_false]
    omega

/-! ### A new dentry -/

section

variable (w : VfsState σ) (name : CStr) (vnode : Option Vnode) (parent : Nat)

theorem dentries_createDentry {y : Nat}
    (old : y ≠ w.next) : (createDentry w name vnode parent).2.dentries y = w.dentries y :=
  update_of_ne old _ _

theorem dentries_createDentry_self :
    (createDentry w name vnode parent).2.dentries w.next =
      ⟨name, some parent, vnode, hashDentry name (some parent), false⟩ :=
  update_self _ _ _

theorem refcount_createDentry (x : Nat) :
    (createDentry w name vnode parent).2.refcount x =
      (if x = w.next then 0 else w.refcount x) + if parent = x then 1 else 0 := by
  rw [createDentry, refcount_dentryGet]
  simp only [update_apply]

end

theorem made_createDentry (later : w₀.next ≤ w.next) (name : CStr) (vnode : Option Vnode) (parent : Nat) :
    made w₀ (createDentry w name vnode parent).2 = insert w.next (made w₀ w) :=
  Nat.Ico_succ_right_eq_insert_Ico later

theorem cachedMade_createDentry (later : w₀.next ≤ w.next) (name : CStr) (vnode : Option Vnode) (parent : Nat) :
    cachedMade w₀ (createDentry w name vnode parent).2 = cachedMade w₀ w := by
  ext y
  rw [mem_cachedMade, mem_cachedMade, made_createDentry later, mem_insert]
  by_cases new : y = w.next
  · subst new
    simp [dentries_createDentry_self, mem_made]
  · simp [new, dentries_createDentry w name vnode parent new]

theorem card_childrenIn_createDentry (later : w₀.next ≤ w.next) (name : CStr) (vnode : Option Vnode) (parent x : Nat) :
    (childrenIn (createDentry w name vnode parent).2 (made w₀ (createDentry w name vnode parent).2) x).card =
      (childrenIn w (made w₀ w) x).card + if parent = x then 1 else 0 := by
  have fresh : w.next ∉ made w₀ w := by simp [mem_made]
  have old : (made w₀ w).filter
      (fun y => ((createDentry w name vnode parent).2.dentries y).parent = some x) =
      childrenIn w (made w₀ w) x := by
    refine filter_congr fun y inside => ?_
    rw [dentries_createDentry w name vnode parent fun same => fresh (same ▸ inside)]
  rw [childrenIn, made_createDentry later, filter_insert, dentries_createDentry_self, old]
  by_cases child : parent = x
  · subst child
    rw [if_pos rfl, if_pos rfl, card_insert_of_notMem]
    exact fun inside => fresh (mem_filter.mp inside).1
  · rw [if_neg (by simpa using child), if_neg child, add_zero]

/-- A new dentry counts for its parent. -/
theorem Ledger.createDentry (ledger : Ledger w₀ w (some curr)) (name : CStr)
    (vnode : Option Vnode) : Ledger w₀ (Vfs.createDentry w name vnode curr).2 (some curr) := by
  have here : curr < w.next := ledger.holds curr rfl
  have later := ledger.later
  have nextEq : (Vfs.createDentry w name vnode curr).2.next = w.next + 1 := rfl
  refine ⟨⟨?_, ?_, ?_⟩, ?_, ?_, ?_, ?_⟩
  · exact lt_succ_of_lt ledger.closed.root
  · intro idx d inside
    exact lt_succ_of_lt (ledger.closed.cached idx d inside)
  · intro d below p parent
    by_cases new : d = w.next
    · subst new
      rw [dentries_createDentry_self] at parent
      cases parent
      omega
    · rw [dentries_createDentry w name vnode curr new] at parent
      exact lt_succ_of_lt (ledger.closed.parents d (by omega) p parent)
  · exact le_succ_of_le later
  · rintro d same
    cases same
    exact lt_succ_of_lt here
  · intro y inside
    rw [made_createDentry later, mem_insert] at inside
    by_cases new : y = w.next
    · subst new
      exact ⟨curr, lt_succ_of_lt here, by rw [dentries_createDentry_self]⟩
    · obtain ⟨p, below, parent⟩ := ledger.hasParent y (inside.resolve_left new)
      exact ⟨p, lt_succ_of_lt below, by rw [dentries_createDentry w name vnode curr new, parent]⟩
  · intro x below
    rw [refcount_createDentry, cachedMade_createDentry later, card_childrenIn_createDentry later]
    by_cases new : x = w.next
    · subst new
      have none : (childrenIn w (made w₀ w) w.next).card = 0 := by
        rw [Finset.card_eq_zero, childrenIn, Finset.filter_eq_empty_iff]
        intro y inside parent
        obtain ⟨p, below, same⟩ := ledger.hasParent y inside
        rw [same] at parent
        cases parent
        omega
      have notCached : w.next ∉ cachedMade w₀ w := fun inside => by
        have := mem_made.mp (mem_cachedMade.mp inside).1
        omega
      have unused : oldCount w₀ w.next = 0 := if_neg (Nat.not_lt.mpr later)
      simp [none, notCached, unused, Nat.ne_of_lt here]
    · have before := ledger.counts x (by omega)
      rw [if_neg new, before]
      push_cast
      ring

/-! ### A new dentry entered in the cache -/

theorem dentries_enter (w : VfsState σ) (curr e y : Nat) :
    (enter w curr e).dentries y = if y = e then { w.dentries e with inCache := true } else w.dentries y := by
  show update w.dentries e _ y = _
  rw [update_apply]
  rfl

theorem parent_enter (w : VfsState σ) (curr e : Nat) :
    ∀ y, ((enter w curr e).dentries y).parent = (w.dentries y).parent :=
  update_field Dentry.parent rfl

theorem refcount_enter (w : VfsState σ) (curr e x : Nat) :
    (enter w curr e).refcount x =
      w.refcount x + (if e = x then 1 else 0) + (if e = x then 1 else 0) - if curr = x then 1 else 0 := by
  have inserted : (vfsCacheInsert w e).refcount = (dentryGet w e).refcount := rfl
  rw [enter, refcount_dentryPut, refcount_dentryGet, inserted, refcount_dentryGet]

theorem cachedMade_enter (new : e ∈ made w₀ w) (curr : Nat) :
    cachedMade w₀ (enter w curr e) = insert e (cachedMade w₀ w) := by
  have sameMade : made w₀ (enter w curr e) = made w₀ w := rfl
  ext y
  rw [mem_cachedMade, mem_insert, mem_cachedMade, sameMade, dentries_enter]
  by_cases same : y = e
  · subst same
    simp [new]
  · simp [same]

/-- Entering a new dentry moves the walk's reference to it. -/
theorem Ledger.enter (ledger : Ledger w₀ w (some curr)) (new : e ∈ made w₀ w)
    (notCached : (w.dentries e).inCache = false) : Ledger w₀ (Vfs.enter w curr e) (some e) := by
  have exists' : e < w.next := (mem_made.mp new).2
  have fresh : e ∉ cachedMade w₀ w := fun inside => by
    rw [mem_cachedMade, notCached] at inside
    cases inside.2
  refine ⟨⟨ledger.closed.root, ?_, ?_⟩, ledger.later, ?_, ?_, ?_⟩
  · intro idx d inside
    have member : d ∈ update w.buckets (bucketOf (w.dentries e).hash)
        (e :: w.buckets (bucketOf (w.dentries e).hash)) idx := inside
    rw [update_apply] at member
    by_cases same : idx = bucketOf (w.dentries e).hash
    · rw [if_pos same] at member
      rcases List.mem_cons.mp member with rfl | older
      · exact exists'
      · exact ledger.closed.cached _ d older
    · rw [if_neg same] at member
      exact ledger.closed.cached idx d member
  · intro d below p parent
    rw [parent_enter] at parent
    exact ledger.closed.parents d below p parent
  · rintro d same
    cases same
    exact exists'
  · intro y inside
    obtain ⟨p, below, parent⟩ := ledger.hasParent y inside
    exact ⟨p, below, by rw [parent_enter, parent]⟩
  · intro x below
    have children : childrenIn (Vfs.enter w curr e) (made w₀ (Vfs.enter w curr e)) x = childrenIn w (made w₀ w) x :=
      filter_congr fun y _ => by rw [parent_enter]
    have before := ledger.counts x below
    rw [refcount_enter, cachedMade_enter new, children, before]
    simp only [mem_insert, some.injEq]
    by_cases same : e = x
    · subst same
      simp only [if_true, true_or, if_neg fresh]
      ring
    · simp only [if_neg same, Ne.symm same, false_or]
      ring

/-! ### Dentries left behind -/

/-- Every dentry made since `w₀` is in the cache. -/
def AllCached (w₀ w : VfsState σ) : Prop := ∀ y ∈ made w₀ w, (w.dentries y).inCache

theorem not_allCached_createDentry (later : w₀.next ≤ w.next) (name : CStr) (vnode : Option Vnode)
    (parent : Nat) : ¬ AllCached w₀ (createDentry w name vnode parent).2 := by
  intro all
  have cached := all w.next (by rw [made_createDentry later]; exact mem_insert_self _ _)
  rw [dentries_createDentry_self] at cached
  cases cached

/-- A state `w'` that is `w` with one new dentry: if that is entered in the cache, nothing is left
behind but what was before. -/
theorem allCached_enter (later : w₀.next ≤ w.next) (one : w'.next = w.next + 1)
    (old : ∀ y, y ≠ w.next → (w'.dentries y).inCache = (w.dentries y).inCache) (curr : Nat) :
    AllCached w₀ (enter w' curr w.next) ↔ AllCached w₀ w := by
  have range : made w₀ (enter w' curr w.next) = insert w.next (made w₀ w) := by
    show Finset.Ico w₀.next w'.next = _
    rw [one]
    exact Nat.Ico_succ_right_eq_insert_Ico later
  rw [AllCached, range, forall_mem_insert]
  simp only [dentries_enter, if_true, true_and]
  constructor
  · intro all y inside
    have fresh : y ≠ w.next := Nat.ne_of_lt (mem_made.mp inside).2
    have cached := all y inside
    rwa [if_neg fresh, old y fresh] at cached
  · intro all y inside
    have fresh : y ≠ w.next := Nat.ne_of_lt (mem_made.mp inside).2
    rw [if_neg fresh, old y fresh]
    exact all y inside

end Moves

section Clean

variable (ops : FsOps σ) (createMissing : Bool)

section

variable (w : VfsState σ) (curr : Nat) (name : CStr)

/-- The file system's `lookup` fails for a name after it has made a dentry for it. -/
def LookupLeaves : Prop :=
  ∃ inst, instanceOf w curr = some inst ∧ (inst.hasLookup ∧ inst.hasCdev) ∧
    ∃ vnode, (ops.lookup w.fs curr name).2 = .missingCreated vnode

def CreateFails : Prop := (newVnode ops w curr name).1 = none

/-- A name is looked up without a dentry left behind. -/
def CleanName : Prop :=
  cacheFind w curr name = none →
    ¬ LookupLeaves ops w curr name ∧
      ((fsLookup ops w curr name).1 = none ∧ createMissing →
        ¬ CreateFails ops (fsLookup ops w curr name).2 curr name)

/-- A component other than an empty one, `.` and `..` is looked up without a dentry left behind. -/
def CleanComponent (component : CStr) : Prop :=
  ¬ (trimComponent component = [] ∨ trimComponent component = [dot]) ∧ trimComponent component ≠ [dot, dot] →
    CleanName ops createMissing w curr (trimComponent component)

end

/-- **No dentry is left behind on the walk**: no `lookup` fails after it has made a dentry, and no
creation of an entry fails. -/
def CleanWalk : VfsState σ → Nat → List CStr → Prop
  | _, _, [] => True
  | w, curr, component :: rest =>
    CleanComponent ops createMissing w curr component ∧
      match stepComponent ops createMissing w curr component with
      | (some next, w) => CleanWalk w next rest
      | (none, _) => True

/-- What the file system's answer does: a dentry made below `curr`, returned or left behind, or none. -/
theorem fsLookup_cases (w : VfsState σ) (curr : Nat) (name : CStr) :
    (∃ vnode fs, fsLookup ops w curr name =
        (some w.next, (createDentry { w with fs := fs } name (some vnode) curr).2) ∧
        ¬ LookupLeaves ops w curr name) ∨
      (∃ vnode fs, fsLookup ops w curr name =
        (none, (createDentry { w with fs := fs } name vnode curr).2) ∧ LookupLeaves ops w curr name) ∨
      ∃ fs, fsLookup ops w curr name = (none, { w with fs := fs }) ∧ ¬ LookupLeaves ops w curr name := by
  rw [fsLookup]
  cases which : instanceOf w curr with
  | none => exact .inr (.inr ⟨w.fs, rfl, by simp [LookupLeaves, which]⟩)
  | some inst =>
    by_cases able : inst.hasLookup ∧ inst.hasCdev
    · simp only [if_pos able]
      cases answer : (ops.lookup w.fs curr name).2 with
      | found vnode => exact .inl ⟨vnode, _, rfl, by simp [LookupLeaves, answer]⟩
      | missing => exact .inr (.inr ⟨_, rfl, by simp [LookupLeaves, answer]⟩)
      | missingCreated vnode =>
        exact .inr (.inl ⟨vnode, _, rfl, inst, which, able, vnode, answer⟩)
    · simp only [if_neg able]
      refine .inr (.inr ⟨w.fs, rfl, ?_⟩)
      rintro ⟨inst', same, able', -⟩
      rw [which] at same
      cases same
      exact able able'

theorem newVnode_createDentry {w : VfsState σ} {curr : Nat} (here : curr < w.next) (name : CStr) :
    ∃ fs, newVnode ops (createDentry w name none curr).2 curr name =
      ((newVnode ops w curr name).1, { (createDentry w name none curr).2 with fs := fs }) := by
  have sameInstance : instanceOf (createDentry w name none curr).2 curr = instanceOf w curr := by
    rw [instanceOf, dentries_createDentry w name none curr (Nat.ne_of_lt here), instanceOf]
  have sameFs : (createDentry w name none curr).2.fs = w.fs := rfl
  rw [newVnode, newVnode, sameInstance, sameFs]
  cases instanceOf w curr with
  | none => exact ⟨_, rfl⟩
  | some inst =>
    by_cases able : inst.hasCreate
    · simp only [if_pos able]
      exact ⟨_, rfl⟩
    · simp only [if_neg able]
      exact ⟨_, rfl⟩

/-! ### One round -/

/-- What a step of the walk from `curr` keeps: the ledger of the dentry it ends at, or of `curr` if it
fails, and no dentry is left behind exactly if none was before and the step is clean. -/
def Steps (w₀ w : VfsState σ) (curr : Nat) (clean : Prop) (result : Option Nat × VfsState σ) : Prop :=
  Ledger w₀ result.2 (some (result.1.getD curr)) ∧ (AllCached w₀ result.2 ↔ AllCached w₀ w ∧ clean)

variable {w₀ w : VfsState σ} {curr : Nat}

section

variable (ledger : Ledger w₀ w (some curr))

include ledger

theorem createEntry_ledger (name : CStr) :
    Steps w₀ w curr (¬ CreateFails ops w curr name) (createEntry ops w curr name) := by
  obtain ⟨fs, created⟩ := newVnode_createDentry ops (ledger.holds curr rfl) name
  have entry : (createDentry w name none curr).1 = w.next := rfl
  have made := (ledger.createDentry name none).same (.setFs _ fs) rfl
  rw [Steps, createEntry]
  simp only [entry, created, CreateFails]
  cases (newVnode ops w curr name).1 with
  | none =>
    refine ⟨made, ⟨fun all => absurd all ?_, fun both => absurd rfl both.2⟩⟩
    exact not_allCached_createDentry ledger.later name none curr
  | some vnode =>
    have new : w.next ∈ Vfs.made w₀ (createDentry w name none curr).2 := by
      rw [made_createDentry ledger.later]
      exact mem_insert_self _ _
    refine ⟨(made.same (.setVnode _ w.next vnode) rfl).enter new ?_, ?_⟩
    · rw [(SameNodes.setVnode _ w.next vnode).inCache]
      exact congrArg Dentry.inCache (dentries_createDentry_self w name none curr)
    · simp only [reduceCtorEq, not_false_eq_true, and_true]
      refine allCached_enter ledger.later rfl (fun y old => ?_) curr
      rw [(SameNodes.setVnode _ w.next vnode).inCache]
      exact congrArg Dentry.inCache (dentries_createDentry w name none curr old)

/-- **Step**: a name keeps the ledger. -/
theorem stepName_ledger (name : CStr) :
    Steps w₀ w curr (CleanName ops createMissing w curr name) (stepName ops createMissing w curr name) := by
  rw [stepName, cacheLookup]
  cases hit : cacheFind w curr name with
  | some next =>
    have exists' : next < w.next := ledger.closed.cached _ next (List.mem_of_find?_eq_some hit)
    refine ⟨ledger.move exists', ?_⟩
    simp only [CleanName, hit, reduceCtorEq, false_implies, and_true]
    exact Iff.rfl
  | none =>
    simp only [CleanName, hit, forall_const]
    rcases fsLookup_cases ops w curr name with
      ⟨vnode, fs, found, clean⟩ | ⟨vnode, fs, missing, leaves⟩ | ⟨fs, missing, clean⟩
    · have later : w₀.next ≤ w.next := ledger.later
      have new : w.next ∈ made w₀ (createDentry { w with fs := fs } name (some vnode) curr).2 :=
        mem_made.mpr ⟨later, lt_succ_self _⟩
      have notCached := dentries_createDentry_self { w with fs := fs } name (some vnode) curr
      simp only [found]
      refine ⟨((ledger.same (.setFs w fs) rfl).createDentry name (some vnode)).enter new ?_, ?_⟩
      · exact congrArg Dentry.inCache notCached
      · simp only [clean, not_false_eq_true, reduceCtorEq, false_and, false_implies, and_true]
        refine allCached_enter later rfl (fun y old => ?_) curr
        exact congrArg Dentry.inCache (dentries_createDentry { w with fs := fs } name (some vnode) curr old)
    · have left : ¬ AllCached w₀ (createDentry { w with fs := fs } name vnode curr).2 :=
        not_allCached_createDentry ledger.later name vnode curr
      have after := (ledger.same (.setFs w fs) rfl).createDentry name vnode
      simp only [missing]
      cases createMissing with
      | false =>
        refine ⟨after, ?_⟩
        simp only [leaves, not_true_eq_false, false_and, and_false, iff_false]
        exact left
      | true =>
        obtain ⟨kept, all⟩ := createEntry_ledger ops after name
        refine ⟨kept, all.trans ?_⟩
        simp only [left, leaves, not_true_eq_false, false_and, and_false]
    · have after := ledger.same (.setFs w fs) rfl
      simp only [missing]
      cases createMissing with
      | false =>
        refine ⟨after, ?_⟩
        simp only [clean, not_false_eq_true, Bool.false_eq_true, and_false, false_implies, and_true]
        exact Iff.rfl
      | true =>
        obtain ⟨kept, all⟩ := createEntry_ledger ops after name
        refine ⟨kept, all.trans ?_⟩
        simp only [clean, not_false_eq_true, and_true, true_implies, true_and]
        exact Iff.rfl

/-- Every round of the walk keeps the ledger. -/
theorem stepComponent_ledger (component : CStr) : Steps w₀ w curr (CleanComponent ops createMissing w curr component)
      (stepComponent ops createMissing w curr component) := by
  rw [stepComponent]
  simp only [CleanComponent]
  by_cases stays : trimComponent component = [] ∨ trimComponent component = [dot]
  · rw [if_pos stays]
    refine ⟨ledger, ?_⟩
    simp only [stays, not_true_eq_false, false_and, false_implies, and_true]
  · rw [if_neg stays]
    by_cases goesUp : trimComponent component = [dot, dot]
    · rw [if_pos goesUp, stepUp]
      cases parent : (w.dentries curr).parent with
      | none =>
        refine ⟨ledger, ?_⟩
        simp only [goesUp, ne_eq, not_true_eq_false, and_false, false_implies, and_true]
      | some up =>
        refine ⟨ledger.move (ledger.closed.parents curr (ledger.holds curr rfl) up parent), ?_⟩
        simp only [goesUp, ne_eq, not_true_eq_false, and_false, false_implies, and_true]
        exact Iff.rfl
    · rw [if_neg goesUp]
      have step := stepName_ledger ops createMissing ledger (trimComponent component)
      simpa only [stays, goesUp, ne_eq, not_false_eq_true, and_self, true_implies] using step

end

/-! ### The whole walk -/

/-- **Run**: a walk keeps the ledger, and leaves no dentry behind exactly if it is clean. -/
theorem walk_ledger (components : List CStr) : ∀ {w : VfsState σ} {curr : Nat}, Ledger w₀ w (some curr) →
    Ledger w₀ (walk ops createMissing w curr components).2 (walk ops createMissing w curr components).1 ∧
      (AllCached w₀ (walk ops createMissing w curr components).2 ↔
        AllCached w₀ w ∧ CleanWalk ops createMissing w curr components) := by
  induction components with
  | nil =>
    intro w curr ledger
    exact ⟨ledger, (and_iff_left trivial).symm⟩
  | cons component rest ih =>
    intro w curr ledger
    have step := stepComponent_ledger ops createMissing ledger component
    rw [walk, CleanWalk]
    revert step
    rcases stepComponent ops createMissing w curr component with ⟨_ | next, w'⟩
    · rintro ⟨kept, all⟩
      refine ⟨kept.release, Iff.trans ?_ all |>.trans (and_congr_right fun _ => (and_iff_left trivial).symm)⟩
      exact Iff.rfl
    · rintro ⟨kept, all⟩
      obtain ⟨kept', all'⟩ := ih kept
      exact ⟨kept', all'.trans (by rw [all, and_assoc]; exact Iff.rfl)⟩

/-- The promise is kept exactly if no dentry was left behind: one that was counts for its parent. -/
theorem accounted_iff_allCached {result : Option Nat} (ledger : Ledger w₀ w result) :
    Accounted w₀ w result ↔ AllCached w₀ w := by
  constructor
  · intro accounted y inside
    obtain ⟨p, below, parent⟩ := ledger.hasParent y inside
    have sub : childrenIn w (cachedMade w₀ w) p ⊆ childrenIn w (made w₀ w) p :=
      filter_subset_filter _ (filter_subset _ _)
    have before := ledger.counts p below
    have after := accounted.counts p below
    have same : (childrenIn w (made w₀ w) p).card ≤ (childrenIn w (cachedMade w₀ w) p).card := by omega
    have child : y ∈ childrenIn w (made w₀ w) p := mem_filter.mpr ⟨inside, parent⟩
    rw [← eq_of_subset_of_card_le sub same] at child
    exact (mem_cachedMade.mp (mem_filter.mp child).1).2
  · intro all
    have same : cachedMade w₀ w = made w₀ w := filter_true_of_mem all
    refine ⟨?_, ?_⟩
    · intro x below
      have counts := ledger.counts x below
      rwa [same] at counts ⊢
    · intro y inside notCached
      exact absurd (same.symm ▸ inside) notCached

theorem allCached_self (w : VfsState σ) : AllCached w w := by
  intro y inside
  have range := mem_made.mp inside
  omega

theorem Ledger.init (closed : Closed w) : Ledger w w none := by
  refine ⟨closed, le_refl _, by simp, fun y inside => ?_, fun x below => ?_⟩
  · have range := mem_made.mp inside
    omega
  · rw [cachedMade, childrenIn, made, Finset.Ico_self, oldCount, if_pos below]
    simp

theorem Ledger.start (closed : Closed w) (here : curr < w.next) : Ledger w (dentryGet w curr) (some curr) := by
  refine (Ledger.init closed).of_counts (.dentryGet w curr) ?_ fun x _ => ?_
  · rintro d same
    cases same
    exact here
  · simp only [refcount_dentryGet, some.injEq, reduceCtorEq, if_false]
    omega

/-- **`resolve_dentry` accounts for its references exactly if the walk is clean**: for every state whose
links stay in the tree, every path, base, flag and behaviour of the file systems, the promise is kept if
and only if the path is too long to be walked, or no `lookup` fails after it has made a dentry and no creation
of an entry fails. -/
theorem resolveDentry_accounted_iff (path : CStr) (base : Option Nat) (closed : Closed w)
    (here : base.getD w.root < w.next) :
    Accounted w (resolveDentry ops w path base createMissing).2 (resolveDentry ops w path base createMissing).1 ↔
      (path.length ≤ strLimit →
        CleanWalk ops createMissing (dentryGet w (base.getD w.root)) (base.getD w.root) (pieces path)) := by
  by_cases long : strLimit < path.length
  · rw [resolveDentry, if_pos long]
    exact iff_of_true ((accounted_iff_allCached (.init closed)).mpr (allCached_self w)) fun short => absurd long (Nat.not_lt.mpr short)
  have short := Nat.le_of_not_lt long
  have start := Ledger.start closed here
  obtain ⟨kept, all⟩ := walk_ledger ops createMissing (pieces path) start
  rw [resolveDentry_of_short ops createMissing w short, resolvePath_eq_walk, accounted_iff_allCached kept, all,
    and_iff_right (show AllCached w (dentryGet w _) from allCached_self w)]
  exact (imp_iff_right short).symm

end Clean

/-! ### A tree with a root only -/

theorem closed_rootOnly : Closed rootOnly := by
  refine ⟨by decide, ?_, ?_⟩
  · intro idx d inside
    cases inside
  · intro d below p parent
    cases parent

/-- No name exists; like `iso9660_lookup`, the `lookup` makes the dentry before it looks for the entry. -/
def noName : FsOps Unit := ⟨fun _ _ _ => ((), .missingCreated (some ⟨none⟩)), fun _ _ _ => ((), none)⟩

theorem resolveDentry_accounted_everyName :
    Accounted rootOnly (resolveDentry everyName rootOnly [97] none false).2
      (resolveDentry everyName rootOnly [97] none false).1 := by
  refine (resolveDentry_accounted_iff everyName false [97] none closed_rootOnly (by decide)).mpr ?_
  refine fun _ => ⟨fun _ _ => ⟨?_, ?_⟩, trivial⟩
  · rintro ⟨inst, -, -, vnode, answer⟩
    cases answer
  · rintro ⟨-, create⟩
    cases create

/-- The walk to a name that does not exist leaves a dentry behind, with a reference on the root. -/
theorem resolveDentry_leaks :
    ¬ Accounted rootOnly (resolveDentry noName rootOnly [97] none false).2
      (resolveDentry noName rootOnly [97] none false).1 := by
  intro accounted
  have root := accounted.counts 0 (by decide +kernel)
  revert root
  decide +kernel

end Voxia.Vfs
