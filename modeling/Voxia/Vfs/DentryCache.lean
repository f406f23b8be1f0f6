/-
**The dentry cache with its links (`vfs/cache.c`).**

A cached dentry is on two lists: the chain of its bucket, which ends in a null pointer, and the circle of its
siblings, which runs through the `child_list` of its parent. The cache is used in any order: dentries that are not
cached are entered, and any dentry is taken out, by `cache_remove` or by `vfs_cache_remove_dentry`, also several
times. Somebody outside holds a reference on every dentry, so that none is freed.
-/

import Mathlib.Data.List.Pairwise
import Voxia.Lib.DoublyLinked
import Voxia.Vfs.Dentry

namespace Voxia.Vfs

open Lib Function List

/-! ### The links -/

/-- Where a link of the lists of children leads: a field of a dentry, or nowhere. -/
inductive ListPtr
  | null
  | siblings (d : Nat)
  | childList (d : Nat)
  deriving DecidableEq

/-- The dentries and the root cache: `hash_node` (0 is `NULL`), `siblings` and `child_list` of every dentry, and the
first dentry of every bucket. -/
structure CacheState where
  dentries : Nat → Dentry
  refcount : Nat → Int
  hashNext : Nat → Nat
  hashPrev : Nat → Nat
  listNext : ListPtr → ListPtr
  listPrev : ListPtr → ListPtr
  first : Nat → Nat
  count : Int

namespace CacheState

section

variable (w : CacheState) (d : Nat)

def get : CacheState :=
  { w with refcount := update w.refcount d (w.refcount d + 1) }

/-- `dentry_put` while there are other references. -/
def put : CacheState :=
  { w with refcount := update w.refcount d (w.refcount d - 1) }

def setInCache (flag : Bool) : CacheState :=
  { w with dentries := update w.dentries d { w.dentries d with inCache := flag } }

def hlistAddHead (idx : Nat) : CacheState :=
  let first := w.first idx
  let hashPrev := update w.hashPrev d 0
  { w with
    hashNext := update w.hashNext d first
    hashPrev := if first ≠ 0 then update hashPrev first d else hashPrev
    first := update w.first idx d }

def hlistDel (idx : Nat) : CacheState :=
  let next := w.hashNext d
  let prev := w.hashPrev d
  let hashNext := if prev ≠ 0 then update w.hashNext prev next else w.hashNext
  let first := if prev ≠ 0 then w.first else update w.first idx next
  let hashPrev := if hashNext d ≠ 0 then update w.hashPrev (hashNext d) prev else w.hashPrev
  { w with
    hashNext := update hashNext d 0
    hashPrev := update hashPrev d 0
    first := first }

def llistAdd (new next prev : ListPtr) : CacheState :=
  { w with
    listNext := update (update w.listNext new next) prev new
    listPrev := update (update w.listPrev new prev) next new }

def llistAddTail (new head : ListPtr) : CacheState := w.llistAdd new head (w.listPrev head)

def llistDel (entry : ListPtr) : CacheState :=
  let next := w.listNext entry
  let prev := w.listPrev entry
  { w with
    listNext := update (update w.listNext prev next) entry .null
    listPrev := update (update w.listPrev next prev) entry .null }

def llistInit (entry : ListPtr) : CacheState :=
  { w with
    listNext := update w.listNext entry entry
    listPrev := update w.listPrev entry entry }

end

end CacheState

/-! ### The operations -/

section

variable (w : CacheState) (d : Nat)

/-- The first half of `vfs_cache_insert`: the dentry is put in its bucket. -/
def CacheState.enterBucket : CacheState :=
  let w := w.get d
  let w := w.hlistAddHead d (bucketOf (w.dentries d).hash)
  let w := { w with count := w.count + 1 }
  w.setInCache d true

def CacheState.vfsCacheInsert : CacheState :=
  let w := w.enterBucket d
  match (w.dentries d).parent with
  | some p => w.llistAddTail (.siblings d) (.childList p)
  | none => w

/-- What `cache_remove` and `vfs_cache_remove_dentry` do with a cached dentry. -/
def CacheState.unlink : CacheState :=
  let w := w.hlistDel d (bucketOf (w.dentries d).hash)
  let w := { w with count := w.count - 1 }
  let w := w.setInCache d false
  if w.listNext (.siblings d) ≠ .null ∧ w.listNext (.siblings d) ≠ .siblings d then
    (w.llistDel (.siblings d)).llistInit (.siblings d)
  else w

def CacheState.vfsCacheRemoveDentry : CacheState :=
  if (w.dentries d).inCache then w.unlink d else w

def CacheState.cacheRemove : CacheState :=
  if (w.dentries d).inCache then (w.unlink d).put d else w

end

/-- The loop of `cache_lookup`; the result is 0 at the end of the chain. -/
def CacheState.lookupFrom (w : CacheState) (parent : Option Nat) (name : CStr) : Nat → Nat → Option Nat
  | 0, _ => none
  | fuel + 1, pos =>
    if pos = 0 then some 0
    else if (w.dentries pos).parent = parent ∧ (w.dentries pos).name = name then some pos
    else w.lookupFrom parent name fuel (w.hashNext pos)

def CacheState.cacheLookup (w : CacheState) (fuel : Nat) (parent : Option Nat) (name : CStr) : Option (Nat × CacheState) :=
  (w.lookupFrom parent name fuel (w.first (bucketOf (hashDentry name parent)))).map fun d =>
    (d, if d = 0 then w else w.get d)

/-! ### What the operations do to the fields -/

namespace CacheState

variable (w : CacheState) (d : Nat)

/-- The links of the lists of children after the dentry was put at the end of the circle of its siblings. -/
def addChild : CacheState :=
  match (w.dentries d).parent with
  | some p => w.llistAddTail (.siblings d) (.childList p)
  | none => w

theorem insert_eq : w.vfsCacheInsert d = { w.hlistAddHead d (bucketOf (w.dentries d).hash) with
    dentries := (w.setInCache d true).dentries
    refcount := (w.get d).refcount
    listNext := (w.addChild d).listNext
    listPrev := (w.addChild d).listPrev
    count := w.count + 1 } := by
  have parent : ((w.enterBucket d).dentries d).parent = (w.dentries d).parent := by
    change (update w.dentries d { w.dentries d with inCache := true } d).parent = _
    rw [update_self]
  simp only [vfsCacheInsert, addChild, parent]
  cases (w.dentries d).parent <;> rfl

/-- The links of the lists of children after the dentry was taken out of the circle of its siblings. -/
def dropChild : CacheState :=
  if w.listNext (.siblings d) ≠ .null ∧ w.listNext (.siblings d) ≠ .siblings d then
    (w.llistDel (.siblings d)).llistInit (.siblings d)
  else w

theorem unlink_eq : w.unlink d = { w.hlistDel d (bucketOf (w.dentries d).hash) with
    dentries := (w.setInCache d false).dentries
    listNext := (w.dropChild d).listNext
    listPrev := (w.dropChild d).listPrev
    count := w.count - 1 } := by
  by_cases inCircle : w.listNext (.siblings d) ≠ .null ∧ w.listNext (.siblings d) ≠ .siblings d
  · rw [dropChild, if_pos inCircle]
    exact if_pos inCircle
  · rw [dropChild, if_neg inCircle]
    exact if_neg inCircle

/-- The other dentries after `hlist_del`: the neighbours of the dentry are linked to each other. -/
theorem hlistDel_fields (idx : Nat) {c : Nat} (notNull : c ≠ 0) (other : c ≠ d) :
    (w.hlistDel d idx).hashNext c = (if c = w.hashPrev d then w.hashNext d else w.hashNext c) ∧
      (w.hlistDel d idx).hashPrev c = if c = w.hashNext d then w.hashPrev d else w.hashPrev c := by
  have still : (if w.hashPrev d ≠ 0 then update w.hashNext (w.hashPrev d) (w.hashNext d) else w.hashNext) d =
      w.hashNext d := by
    split_ifs
    · by_cases self : d = w.hashPrev d
      · rw [← self, update_self]
      · rw [update_of_ne self]
    · rfl
  simp only [hlistDel, still]
  rw [update_of_ne other, update_of_ne other]
  constructor
  · by_cases front : w.hashPrev d = 0
    · rw [if_neg (not_not_intro front), front, if_neg notNull]
    · rw [if_pos front, update_apply]
  · by_cases last : w.hashNext d = 0
    · rw [if_neg (not_not_intro last), last, if_neg notNull]
    · rw [if_pos last, update_apply]

theorem hlistDel_first (idx other : Nat) : (w.hlistDel d idx).first other =
    if w.hashPrev d = 0 ∧ other = idx then w.hashNext d else w.first other := by
  simp only [hlistDel]
  by_cases front : w.hashPrev d = 0
  · rw [if_neg (not_not_intro front), update_apply]
    simp only [front, true_and]
  · rw [if_pos front, if_neg fun both => front both.1]

/-- The other list heads after a dentry was taken out of the circle of its siblings. -/
theorem llistDel_fields {c : ListPtr} (other : c ≠ .siblings d) :
    ((w.llistDel (.siblings d)).llistInit (.siblings d)).listNext c =
        (if c = w.listPrev (.siblings d) then w.listNext (.siblings d) else w.listNext c) ∧
      ((w.llistDel (.siblings d)).llistInit (.siblings d)).listPrev c =
        if c = w.listNext (.siblings d) then w.listPrev (.siblings d) else w.listPrev c := by
  simp only [llistInit, llistDel]
  rw [update_of_ne other, update_of_ne other, update_of_ne other, update_of_ne other,
    update_apply, update_apply]
  exact ⟨rfl, rfl⟩

end CacheState

/-! ### The invariant -/

/-- The chain of a bucket: the newest dentry is in front. -/
def chainOf (dentries : Nat → Dentry) (cached : List Nat) (idx : Nat) : List Nat :=
  (cached.filter fun d => bucketOf (dentries d).hash = idx).reverse

/-- The cached children of a directory, in the order in which they were entered. -/
def childrenOf (dentries : Nat → Dentry) (cached : List Nat) (p : Nat) : List Nat :=
  cached.filter fun d => (dentries d).parent = some p

/-- **The cache in good order**: `cached` are its dentries in the order in which they were entered. -/
structure CacheInv (w : CacheState) (cached : List Nat) : Prop where
  nodup : cached.Nodup
  notNull : 0 ∉ cached
  flag : ∀ d, (w.dentries d).inCache ↔ d ∈ cached
  chains : ∀ idx, DLinked w.hashNext w.hashPrev 0 0 (w.first idx) (chainOf w.dentries cached idx)
  children : ∀ p, Circular w.listNext w.listPrev (.childList p) ((childrenOf w.dentries cached p).map .siblings)
  alone : ∀ d, (w.dentries d).parent = none → w.listNext (.siblings d) = .siblings d
  count : w.count = cached.length
  hash : ∀ d, (w.dentries d).hash = hashDentry (w.dentries d).name (w.dentries d).parent
  unique : cached.Pairwise fun d e => ¬ ((w.dentries d).parent = (w.dentries e).parent ∧
    (w.dentries d).name = (w.dentries e).name)

/-- Dentries that differ in their flags only. -/
structure SameButFlags (dentries dentries' : Nat → Dentry) : Prop where
  name : ∀ d, (dentries' d).name = (dentries d).name
  parent : ∀ d, (dentries' d).parent = (dentries d).parent
  hash : ∀ d, (dentries' d).hash = (dentries d).hash

theorem SameButFlags.update (dentries : Nat → Dentry) (d : Nat) (flag : Bool) :
    SameButFlags dentries (update dentries d { dentries d with inCache := flag }) :=
  ⟨update_field Dentry.name rfl, update_field Dentry.parent rfl, update_field Dentry.hash rfl⟩

section Lists

variable {dentries dentries' : Nat → Dentry} {cached : List Nat}

theorem SameButFlags.chainOf (same : SameButFlags dentries dentries') (cached : List Nat) (idx : Nat) :
    chainOf dentries' cached idx = chainOf dentries cached idx := by
  simp only [Vfs.chainOf, same.hash]

theorem SameButFlags.childrenOf (same : SameButFlags dentries dentries') (cached : List Nat) (p : Nat) :
    childrenOf dentries' cached p = childrenOf dentries cached p := by
  simp only [Vfs.childrenOf, same.parent]

theorem mem_chainOf {idx d : Nat} : d ∈ chainOf dentries cached idx ↔ d ∈ cached ∧ bucketOf (dentries d).hash = idx := by
  simp [chainOf]

/-- The link belongs to the circle of a directory. -/
def OfParent (dentries : Nat → Dentry) (p : Nat) : ListPtr → Prop
  | .null => False
  | .siblings d => (dentries d).parent = some p
  | .childList d => d = p

theorem mem_childrenOf {p d : Nat} : d ∈ childrenOf dentries cached p ↔ d ∈ cached ∧ (dentries d).parent = some p := by
  simp [childrenOf]

theorem OfParent.unique {p q : Nat} : ∀ {c : ListPtr}, OfParent dentries p c → OfParent dentries q c → p = q
  | .siblings _, first, second => Option.some.inj (first.symm.trans second)
  | .childList _, first, second => first.symm.trans second

theorem ofParent_mem {p : Nat} {c : ListPtr}
    (member : c ∈ .childList p :: (childrenOf dentries cached p).map ListPtr.siblings) : OfParent dentries p c := by
  rcases mem_cons.mp member with rfl | member
  · exact rfl
  · obtain ⟨x, inside, rfl⟩ := mem_map.mp member
    exact (mem_childrenOf.mp inside).2

theorem chainOf_snoc (d idx : Nat) : chainOf dentries (cached ++ [d]) idx =
    if bucketOf (dentries d).hash = idx then d :: chainOf dentries cached idx else chainOf dentries cached idx := by
  split_ifs with here <;> simp [chainOf, here]

theorem childrenOf_snoc (d p : Nat) : childrenOf dentries (cached ++ [d]) p =
    if (dentries d).parent = some p then childrenOf dentries cached p ++ [d] else childrenOf dentries cached p := by
  split_ifs with here <;> simp [childrenOf, here]

theorem chainOf_middle (before after : List Nat) (d idx : Nat) : chainOf dentries (before ++ d :: after) idx =
    if bucketOf (dentries d).hash = idx then chainOf dentries after idx ++ d :: chainOf dentries before idx
    else chainOf dentries (before ++ after) idx := by
  split_ifs with here <;> simp [chainOf, here]

theorem chainOf_append (before after : List Nat) (idx : Nat) :
    chainOf dentries (before ++ after) idx = chainOf dentries after idx ++ chainOf dentries before idx := by
  simp [chainOf]

theorem childrenOf_middle (before after : List Nat) (d p : Nat) : childrenOf dentries (before ++ d :: after) p =
    if (dentries d).parent = some p then childrenOf dentries before p ++ d :: childrenOf dentries after p
    else childrenOf dentries (before ++ after) p := by
  split_ifs with here <;> simp [childrenOf, here]

theorem childrenOf_append (before after : List Nat) (p : Nat) :
    childrenOf dentries (before ++ after) p = childrenOf dentries before p ++ childrenOf dentries after p := by
  simp [childrenOf]

end Lists

/-! ### Entering a dentry -/

section Insert

variable {w : CacheState} {cached : List Nat} {d : Nat}

section

variable (inv : CacheInv w cached)

include inv

theorem CacheInv.first_mem {idx : Nat} (some : w.first idx ≠ 0) : w.first idx ∈ chainOf w.dentries cached idx := by
  refine (inv.chains idx).linked.head_mem fun empty => some ?_
  have list := inv.chains idx
  rwa [empty] at list

/-- The chains of the hash table after an insertion. -/
theorem CacheInv.insert_chain (notNull : d ≠ 0) (uncached : d ∉ cached) (idx : Nat) :
    DLinked (w.vfsCacheInsert d).hashNext (w.vfsCacheInsert d).hashPrev 0 0 ((w.vfsCacheInsert d).first idx)
      (chainOf w.dentries (cached ++ [d]) idx) := by
  rw [w.insert_eq, chainOf_snoc]
  have fresh : ∀ {x idx}, x ∈ chainOf w.dentries cached idx → x ≠ d := fun member same =>
    uncached (same ▸ (mem_chainOf.mp member).1)
  simp only [CacheState.hlistAddHead]
  by_cases here : bucketOf (w.dentries d).hash = idx
  · subst here
    rw [if_pos rfl, update_self]
    refine (inv.chains _).push notNull (update_self _ _ _) ?_ (fun c member => ?_) fun c member => ?_
    · split_ifs with some
      · rw [update_of_ne (fresh (inv.first_mem some)).symm, update_self]
      · exact update_self _ _ _
    · exact update_of_ne (fresh member) _ _
    · by_cases front : c = w.first (bucketOf (w.dentries d).hash)
      · have some := (inv.chains _).ne_null member
        rw [front] at some ⊢
        rw [if_pos some, if_pos rfl, update_self]
      · split_ifs
        · rw [update_of_ne front, update_of_ne (fresh member)]
        · exact update_of_ne (fresh member) _ _
  · rw [if_neg here, update_of_ne (Ne.symm here)]
    refine (inv.chains idx).congr (fun c member => update_of_ne (fresh member) _ _) fun c member => ?_
    split_ifs with some
    · have head := inv.first_mem some
      have other : c ≠ w.first (bucketOf (w.dentries d).hash) := fun same => by
        rw [← same] at head
        exact here ((mem_chainOf.mp head).2.symm.trans (mem_chainOf.mp member).2)
      rw [update_of_ne other, update_of_ne (fresh member)]
    · exact update_of_ne (fresh member) _ _

theorem CacheInv.last_ofParent (q : Nat) : OfParent w.dentries q (w.listPrev (.childList q)) := by
  rw [(inv.children q).last]
  by_cases empty : (childrenOf w.dentries cached q).map ListPtr.siblings = []
  · rw [empty]
    exact rfl
  · exact ofParent_mem (mem_cons_of_mem _ (DLinked.getLastD_mem empty (.childList q)))

theorem CacheInv.insert_children (uncached : d ∉ cached) (p : Nat) :
    Circular (w.vfsCacheInsert d).listNext (w.vfsCacheInsert d).listPrev (.childList p)
      ((childrenOf w.dentries (cached ++ [d]) p).map .siblings) := by
  rw [w.insert_eq, childrenOf_snoc, CacheState.addChild]
  cases parent : (w.dentries d).parent with
  | none =>
    exact inv.children p
  | some q =>
    have circle := inv.children q
    have fresh : ∀ p, ListPtr.siblings d ∉ (childrenOf w.dentries cached p).map .siblings := by
      intro p member
      obtain ⟨x, inside, same⟩ := mem_map.mp member
      exact uncached (ListPtr.siblings.inj same ▸ (mem_childrenOf.mp inside).1)
    simp only [CacheState.llistAddTail, CacheState.llistAdd]
    by_cases here : q = p
    · subst here
      rw [if_pos rfl, map_append, map_singleton]
      refine circle.addTail (fresh q) (by simp) (fun c _ => ?_) fun c _ => ?_
      · simp only [update_apply]
      · simp only [update_apply]
    · rw [if_neg (by simpa using here)]
      -- the links that change are in the circle of another parent
      have apart : ∀ c ∈ ListPtr.childList p :: (childrenOf w.dentries cached p).map .siblings,
          ∀ c', OfParent w.dentries q c' → c ≠ c' :=
        fun c member c' other same => here (other.unique (same ▸ ofParent_mem member))
      refine (inv.children p).congr (fun c member => ?_) fun c member => ?_
      · rw [update_of_ne (apart c member _ (inv.last_ofParent q)), update_of_ne (apart c member (.siblings d) parent)]
      · rw [update_of_ne (apart c member (.childList q) rfl), update_of_ne (apart c member (.siblings d) parent)]

/-- An insertion keeps the cache in order. -/
theorem CacheInv.insert (notNull : d ≠ 0) (uncached : (w.dentries d).inCache = false)
    (unique : ∀ e ∈ cached, ¬ ((w.dentries e).parent = (w.dentries d).parent ∧ (w.dentries e).name = (w.dentries d).name)) :
    CacheInv (w.vfsCacheInsert d) (cached ++ [d]) := by
  have fresh : d ∉ cached := fun member => by
    rw [(inv.flag d).mpr member] at uncached
    exact absurd uncached (by decide)
  have same : SameButFlags w.dentries (w.vfsCacheInsert d).dentries := by
    rw [w.insert_eq]
    exact SameButFlags.update w.dentries d true
  refine ⟨?_, ?_, fun x => ?_, fun idx => ?_, fun p => ?_, fun x parent => ?_, ?_, fun x => ?_, ?_⟩
  · exact nodup_append.mpr ⟨inv.nodup, nodup_singleton d, fun x inside y member => by
      rw [mem_singleton.mp member]
      rintro rfl
      exact fresh inside⟩
  · rw [mem_append, mem_singleton]
    rintro (inside | rfl)
    · exact inv.notNull inside
    · exact notNull rfl
  · rw [w.insert_eq, mem_append, mem_singleton]
    dsimp only [CacheState.setInCache]
    by_cases here : x = d
    · subst here
      rw [update_self]
      exact ⟨fun _ => .inr rfl, fun _ => rfl⟩
    · rw [update_of_ne here, inv.flag x]
      exact ⟨.inl, fun member => member.resolve_right here⟩
  · rw [same.chainOf]
    exact inv.insert_chain notNull fresh idx
  · rw [same.childrenOf]
    exact inv.insert_children fresh p
  · rw [same.parent] at parent
    rw [w.insert_eq, CacheState.addChild]
    cases parent' : (w.dentries d).parent with
    | none => exact inv.alone x parent
    | some q =>
      have other : x ≠ d := fun eq => by
        rw [eq, parent'] at parent
        exact absurd parent (by simp)
      simp only [CacheState.llistAddTail, CacheState.llistAdd]
      -- the last cell of the circle has a parent
      have notLast : ListPtr.siblings x ≠ w.listPrev (.childList q) := fun eq => by
        have last := inv.last_ofParent q
        rw [← eq] at last
        exact absurd (parent.symm.trans last) (by simp)
      rw [update_of_ne notLast, update_of_ne (by simpa using other)]
      exact inv.alone x parent
  · rw [w.insert_eq, inv.count, length_append, length_singleton]
    rfl
  · rw [same.hash, same.name, same.parent]
    exact inv.hash x
  · simp only [same.name, same.parent]
    refine pairwise_append.mpr ⟨inv.unique, pairwise_singleton _ _, fun e member y inside => ?_⟩
    rw [mem_singleton.mp inside]
    exact unique e member

end

end Insert

/-! ### Taking a dentry out -/

section Remove

variable {w : CacheState} {before after : List Nat} {d : Nat}

/-- The chains after a dentry is unlinked. -/
theorem CacheInv.unlink_chain (inv : CacheInv w (before ++ d :: after)) (idx : Nat) :
    DLinked (w.unlink d).hashNext (w.unlink d).hashPrev 0 0 ((w.unlink d).first idx)
      (chainOf w.dentries (before ++ after) idx) := by
  rw [w.unlink_eq]
  have others := (nodup_cons.mp (nodup_middle.mp inv.nodup)).1
  have fresh : ∀ {x idx}, x ∈ chainOf w.dentries (before ++ after) idx → x ≠ d := fun member same =>
    others (same ▸ (mem_chainOf.mp member).1)
  have chain := inv.chains (bucketOf (w.dentries d).hash)
  rw [chainOf_middle, if_pos rfl] at chain
  have noNull := fun member => chain.ne_null (c := 0) member rfl
  by_cases here : bucketOf (w.dentries d).hash = idx
  · subst here
    have fields : ∀ c ∈ chainOf w.dentries after (bucketOf (w.dentries d).hash) ++
        chainOf w.dentries before (bucketOf (w.dentries d).hash), c ≠ 0 ∧ c ≠ d := by
      intro c member
      refine ⟨fun null => noNull ?_, fresh (by rw [chainOf_append]; exact member)⟩
      rw [← null]
      rcases mem_append.mp member with inside | inside
      · exact mem_append_left _ inside
      · exact mem_append_right _ (mem_cons_of_mem _ inside)
    have list := chain.remove noNull
      (fun c member => (w.hlistDel_fields d (bucketOf (w.dentries d).hash) (fields c member).1 (fields c member).2).1)
      fun c member => (w.hlistDel_fields d (bucketOf (w.dentries d).hash) (fields c member).1 (fields c member).2).2
    have head : (w.hlistDel d (bucketOf (w.dentries d).hash)).first (bucketOf (w.dentries d).hash) =
        if chainOf w.dentries after (bucketOf (w.dentries d).hash) = [] then w.hashNext d
        else w.first (bucketOf (w.dentries d).hash) := by
      rw [CacheState.hlistDel_first]
      rcases chain.prev_cases with ⟨front, null⟩ | ⟨behind, inside⟩
      · rw [if_pos front, if_pos ⟨null, rfl⟩]
      · rw [if_neg behind, if_neg fun both => noNull (by rw [← both.1]; exact mem_append_left _ inside)]
    rw [head, chainOf_append]
    exact list
  · rw [CacheState.hlistDel_first, if_neg fun both => here both.2.symm]
    have own := inv.chains idx
    rw [chainOf_middle, if_neg here] at own
    -- the neighbours of the dentry are in its own bucket
    have apart : ∀ c ∈ chainOf w.dentries (before ++ after) idx, c ≠ w.hashPrev d ∧ c ≠ w.hashNext d := by
      intro c member
      have notNull := own.ne_null member
      have bucket := (mem_chainOf.mp member).2
      refine ⟨fun same => ?_, fun same => ?_⟩
      · rcases chain.prev_cases with ⟨-, null⟩ | ⟨-, inside⟩
        · exact notNull (same.trans null)
        · rw [← same] at inside
          exact here ((mem_chainOf.mp inside).2.symm.trans bucket)
      · rcases chain.next_cases with null | inside
        · exact notNull (same.trans null)
        · rw [← same] at inside
          exact here ((mem_chainOf.mp inside).2.symm.trans bucket)
    refine own.congr (fun c member => ?_) fun c member => ?_
    · rw [(w.hlistDel_fields d _ (own.ne_null member) (fresh member)).1, if_neg (apart c member).1]
    · rw [(w.hlistDel_fields d _ (own.ne_null member) (fresh member)).2, if_neg (apart c member).2]

variable {q : Nat}

section

variable (inv : CacheInv w (before ++ d :: after))

include inv

section

variable (parent : (w.dentries d).parent = some q)

include parent

theorem CacheInv.circle :
    Circular w.listNext w.listPrev (.childList q) ((childrenOf w.dentries before q).map .siblings ++
      .siblings d :: (childrenOf w.dentries after q).map .siblings) := by
  have circle := inv.children q
  rwa [childrenOf_middle, if_pos parent, map_append, map_cons] at circle

theorem CacheInv.neighbour_cases {c : ListPtr}
    (neighbour : c = w.listNext (.siblings d) ∨ c = w.listPrev (.siblings d)) :
    OfParent w.dentries q c ∧ c ≠ .siblings d := by
  have circle := inv.circle parent
  have others := (nodup_cons.mp (nodup_middle.mp inv.nodup)).1
  have inList : ∀ list : List Nat, (∀ x ∈ list, x ∈ before ++ after) → c ∈ (childrenOf w.dentries list q).map .siblings →
      OfParent w.dentries q c ∧ c ≠ .siblings d := by
    intro list subset member
    obtain ⟨x, inside, rfl⟩ := mem_map.mp member
    obtain ⟨inList, parent'⟩ := mem_childrenOf.mp inside
    exact ⟨parent', fun same => others (ListPtr.siblings.inj same ▸ subset x inList)⟩
  rcases neighbour with rfl | rfl
  · rcases circle.linked.next_cases with head | inside
    · exact head ▸ ⟨rfl, by simp⟩
    · exact inList after (fun x member => mem_append_right _ member) inside
  · rcases circle.linked.prev_cases with ⟨-, head⟩ | ⟨-, inside⟩
    · exact head ▸ ⟨rfl, by simp⟩
    · exact inList before (fun x member => mem_append_left _ member) inside

theorem CacheInv.inCircle : w.listNext (.siblings d) ≠ .null ∧ w.listNext (.siblings d) ≠ .siblings d := by
  obtain ⟨ofParent, other⟩ := inv.neighbour_cases parent (.inl rfl)
  exact ⟨fun null => by rwa [null] at ofParent, other⟩

end

/-- The lists of children after a dentry is unlinked. -/
theorem CacheInv.unlink_children (p : Nat) : Circular (w.unlink d).listNext (w.unlink d).listPrev (.childList p)
      ((childrenOf w.dentries (before ++ after) p).map .siblings) := by
  have others := (nodup_cons.mp (nodup_middle.mp inv.nodup)).1
  rw [w.unlink_eq, CacheState.dropChild]
  cases parent : (w.dentries d).parent with
  | none =>
    have circle := inv.children p
    rw [childrenOf_middle, if_neg (by rw [parent]; simp)] at circle
    rw [if_neg fun inCircle => inCircle.2 (inv.alone d parent)]
    exact circle
  | some q =>
    rw [if_pos (inv.inCircle parent)]
    have different : ∀ c ∈ ListPtr.childList p :: (childrenOf w.dentries (before ++ after) p).map .siblings,
        c ≠ .siblings d := by
      intro c member
      rcases mem_cons.mp member with rfl | member
      · simp
      · obtain ⟨x, inside, rfl⟩ := mem_map.mp member
        intro same
        exact others (ListPtr.siblings.inj same ▸ (mem_childrenOf.mp inside).1)
    by_cases here : q = p
    · subst here
      have circle := inv.circle parent
      rw [childrenOf_append, map_append] at different ⊢
      exact circle.remove (fun c member => (w.llistDel_fields d (different c member)).1) fun c member =>
        (w.llistDel_fields d (different c member)).2
    · have circle := inv.children p
      rw [childrenOf_middle, if_neg (by rw [parent]; simpa using here)] at circle
      -- the neighbours of the dentry are in the circle of its own parent
      have apart : ∀ c ∈ ListPtr.childList p :: (childrenOf w.dentries (before ++ after) p).map .siblings,
          ¬ (c = w.listNext (.siblings d) ∨ c = w.listPrev (.siblings d)) := by
        intro c member neighbour
        exact here ((inv.neighbour_cases parent neighbour).1.unique (ofParent_mem member))
      refine circle.congr (fun c member => ?_) fun c member => ?_
      · rw [(w.llistDel_fields d (different c member)).1, if_neg fun same => apart c member (.inr same)]
      · rw [(w.llistDel_fields d (different c member)).2, if_neg fun same => apart c member (.inl same)]

theorem CacheInv.unlink_alone {x : Nat} (parent : (w.dentries x).parent = none) :
    (w.unlink d).listNext (.siblings x) = .siblings x := by
  rw [w.unlink_eq, CacheState.dropChild]
  cases parent' : (w.dentries d).parent with
  | none =>
    rw [if_neg fun inCircle => inCircle.2 (inv.alone d parent')]
    exact inv.alone x parent
  | some q =>
    have other : x ≠ d := fun same => by
      rw [same, parent'] at parent
      exact absurd parent (by simp)
    rw [if_pos (inv.inCircle parent'), (w.llistDel_fields d (by simpa using other)).1, if_neg, inv.alone x parent]
    intro same
    exact absurd (parent.symm.trans (inv.neighbour_cases parent' (.inr same)).1) (by simp)

end

theorem CacheInv.unlink {cached : List Nat} (inv : CacheInv w cached) (member : d ∈ cached) :
    CacheInv (w.unlink d) (cached.erase d) := by
  obtain ⟨before, after, rfl⟩ := append_of_mem member
  have others := (nodup_cons.mp (nodup_middle.mp inv.nodup)).1
  have notBefore : d ∉ before := fun inside => others (mem_append_left _ inside)
  have erased : (before ++ d :: after).erase d = before ++ after := by
    rw [erase_append_right _ notBefore, erase_cons_head]
  have less : List.Sublist (before ++ after) (before ++ d :: after) :=
    List.Sublist.append_left (sublist_cons_self d after) before
  have same : SameButFlags w.dentries (w.unlink d).dentries := by
    rw [w.unlink_eq]
    exact SameButFlags.update w.dentries d false
  rw [erased]
  refine ⟨inv.nodup.sublist less, fun null => inv.notNull (less.subset null), fun x => ?_, fun idx => ?_, fun p => ?_,
    fun x parent => ?_, ?_, fun x => ?_, ?_⟩
  · rw [w.unlink_eq]
    dsimp only [CacheState.setInCache]
    by_cases here : x = d
    · subst here
      exact ⟨fun flag => absurd flag (by simp), fun inside => absurd inside others⟩
    · rw [update_of_ne here, inv.flag x]
      simp [here]
  · rw [same.chainOf]
    exact inv.unlink_chain idx
  · rw [same.childrenOf]
    exact inv.unlink_children p
  · rw [same.parent] at parent
    exact inv.unlink_alone parent
  · rw [w.unlink_eq, inv.count, length_append, length_append, length_cons]
    push_cast
    ring
  · rw [same.hash, same.name, same.parent]
    exact inv.hash x
  · simp only [same.name, same.parent]
    exact inv.unique.sublist less

end Remove

/-! ### Runs -/

/-- An empty cache, and dentries as `create_dentry` leaves them. -/
structure CacheBoot (w : CacheState) : Prop where
  buckets : ∀ idx, w.first idx = 0
  count : w.count = 0
  flags : ∀ d, (w.dentries d).inCache = false
  siblings : ∀ d, w.listNext (.siblings d) = .siblings d
  children : ∀ d, w.listNext (.childList d) = .childList d ∧ w.listPrev (.childList d) = .childList d
  hash : ∀ d, (w.dentries d).hash = hashDentry (w.dentries d).name (w.dentries d).parent

/-- **The runs of the cache**: the list holds the cached dentries in the order in which they were entered. No two of
them have the same parent and name. -/
inductive CacheRun (start : CacheState) : List Nat → CacheState → Prop
  | start : CacheRun start [] start
  | insert {cached : List Nat} {w : CacheState} {d : Nat} (run : CacheRun start cached w) (notNull : d ≠ 0)
      (uncached : (w.dentries d).inCache = false)
      (unique : ∀ e ∈ cached, ¬ ((w.dentries e).parent = (w.dentries d).parent ∧ (w.dentries e).name = (w.dentries d).name)) :
      CacheRun start (cached ++ [d]) (w.vfsCacheInsert d)
  | cacheRemove {cached : List Nat} {w : CacheState} (run : CacheRun start cached w) (d : Nat) :
      CacheRun start (cached.erase d) (w.cacheRemove d)
  | vfsCacheRemoveDentry {cached : List Nat} {w : CacheState} (run : CacheRun start cached w) (d : Nat) :
      CacheRun start (cached.erase d) (w.vfsCacheRemoveDentry d)

variable {w : CacheState} {cached : List Nat}

theorem CacheBoot.inv (boot : CacheBoot w) : CacheInv w [] where
  nodup := nodup_nil
  notNull := not_mem_nil
  flag d := by rw [boot.flags]; simp
  chains idx := boot.buckets idx
  children p := Circular.empty (boot.children p).1 (boot.children p).2
  alone d _ := boot.siblings d
  count := boot.count
  hash := boot.hash
  unique := List.Pairwise.nil

theorem CacheInv.put (inv : CacheInv w cached) (d : Nat) : CacheInv (w.put d) cached :=
  { inv with }

theorem CacheInv.cached_iff (inv : CacheInv w cached) (d : Nat) :
    (w.dentries d).inCache ∧ d ∈ cached ∨ (w.dentries d).inCache = false ∧ cached.erase d = cached := by
  rcases Bool.eq_false_or_eq_true (w.dentries d).inCache with set | clear
  · exact .inl ⟨set, (inv.flag d).mp set⟩
  · refine .inr ⟨clear, erase_of_not_mem fun member => ?_⟩
    rw [(inv.flag d).mpr member] at clear
    exact absurd clear (by decide)

/-- **Every run keeps the cache in good order.** -/
theorem CacheRun.inv {start : CacheState} (boot : CacheBoot start)
    (run : CacheRun start cached w) : CacheInv w cached := by
  induction run with
  | start => exact boot.inv
  | insert _ notNull uncached unique ih => exact ih.insert notNull uncached unique
  | cacheRemove _ d ih =>
    rw [CacheState.cacheRemove]
    rcases ih.cached_iff d with ⟨set, member⟩ | ⟨clear, same⟩
    · rw [if_pos set]
      exact (ih.unlink member).put d
    · rw [if_neg (by rw [clear]; decide), same]
      exact ih
  | vfsCacheRemoveDentry _ d ih =>
    rw [CacheState.vfsCacheRemoveDentry]
    rcases ih.cached_iff d with ⟨set, member⟩ | ⟨clear, same⟩
    · rw [if_pos set]
      exact ih.unlink member
    · rw [if_neg (by rw [clear]; decide), same]
      exact ih

/-! ### Lookups -/

/-- The loop of `cache_lookup` finds the first dentry of the chain with the parent and the name. -/
theorem CacheState.lookupFrom_eq (w : CacheState) (parent : Option Nat) (name : CStr) {fuel pos : Nat} {chain : List Nat}
    (linked : Linked w.hashNext (· = 0) pos chain) (enough : chain.length < fuel) :
    w.lookupFrom parent name fuel pos =
      some ((chain.find? fun d => (w.dentries d).parent = parent ∧ (w.dentries d).name = name).getD 0) := by
  induction chain generalizing fuel pos with
  | nil =>
    obtain ⟨fuel, rfl⟩ := Nat.exists_eq_add_of_lt enough
    have ends : pos = 0 := linked
    rw [CacheState.lookupFrom, if_pos ends]
    rfl
  | cons c rest ih =>
    obtain ⟨rfl, notNull, tail⟩ := linked
    obtain ⟨fuel, rfl⟩ : ∃ n, fuel = n + 1 := ⟨fuel - 1, by omega⟩
    rw [length_cons] at enough
    rw [CacheState.lookupFrom, if_neg notNull]
    by_cases here : (w.dentries pos).parent = parent ∧ (w.dentries pos).name = name
    · rw [if_pos here, List.find?_cons_of_pos (by simpa using here)]
      rfl
    · rw [if_neg here, List.find?_cons_of_neg (by simpa using here)]
      exact ih tail (by omega)

/-- **What the cache promises** of the dentries entered and not taken out again, `cached` in this order. -/
structure CacheSound (w : CacheState) (cached : List Nat) : Prop where
  /-- The flag says whether a dentry is in the chain of its bucket, and it is there only once. -/
  flag : ∀ d, d ≠ 0 → ∃ chain, Linked w.hashNext (· = 0) (w.first (bucketOf (w.dentries d).hash)) chain ∧ chain.Nodup ∧
    ((w.dentries d).inCache ↔ d ∈ chain)
  inCache : ∀ d, (w.dentries d).inCache ↔ d ∈ cached
  /-- The child list of a directory holds its cached children in order. -/
  children : ∀ p, Circular w.listNext w.listPrev (.childList p)
    ((cached.filter fun d => (w.dentries d).parent = some p).map .siblings)
  count : w.count = cached.length
  /-- A lookup returns the cached dentry of the parent and name, and else `NULL`. -/
  lookup : ∀ fuel, cached.length < fuel → ∀ parent name, ∃ d w', w.cacheLookup fuel parent name = some (d, w') ∧
    (∀ e, (w.dentries e).inCache → (w.dentries e).parent = parent → (w.dentries e).name = name → d = e) ∧
    (d = 0 ∨ (w.dentries d).inCache ∧ (w.dentries d).parent = parent ∧ (w.dentries d).name = name)

/-- A lookup returns the one dentry of a parent and name, or none. -/
theorem CacheInv.lookup (inv : CacheInv w cached) {fuel : Nat} (enough : cached.length < fuel) (parent : Option Nat)
    (name : CStr) :
    ∃ d w', w.cacheLookup fuel parent name = some (d, w') ∧
      (∀ e, (w.dentries e).inCache → (w.dentries e).parent = parent → (w.dentries e).name = name → d = e) ∧
      (d = 0 ∨ (w.dentries d).inCache ∧ (w.dentries d).parent = parent ∧ (w.dentries d).name = name) := by
  have short : (chainOf w.dentries cached (bucketOf (hashDentry name parent))).length < fuel := by
    rw [chainOf, length_reverse]
    exact lt_of_le_of_lt (length_filter_le _ _) enough
  have found := w.lookupFrom_eq parent name (inv.chains (bucketOf (hashDentry name parent))).linked short
  refine ⟨_, _, by rw [CacheState.cacheLookup, found, Option.map_some], ?_⟩
  cases result : (chainOf w.dentries cached (bucketOf (hashDentry name parent))).find? fun d =>
      (w.dentries d).parent = parent ∧ (w.dentries d).name = name with
  | none =>
    refine ⟨fun e set parent' name' => ?_, .inl rfl⟩
    have member : e ∈ chainOf w.dentries cached (bucketOf (hashDentry name parent)) := by
      refine mem_chainOf.mpr ⟨(inv.flag e).mp set, ?_⟩
      rw [inv.hash, parent', name']
    exact absurd (decide_eq_true ⟨parent', name'⟩) (List.find?_eq_none.mp result e member)
  | some d =>
    have matches' := List.find?_some result
    rw [decide_eq_true_eq] at matches'
    have inside := (mem_chainOf.mp (mem_of_find?_eq_some result)).1
    refine ⟨fun e set parent' name' => ?_, .inr ⟨(inv.flag d).mpr inside, matches'⟩⟩
    by_contra different
    -- two cached dentries would have the same parent and name
    have : Std.Symm fun x y => ¬ ((w.dentries x).parent = (w.dentries y).parent ∧
        (w.dentries x).name = (w.dentries y).name) := ⟨fun _ _ apart both => apart ⟨both.1.symm, both.2.symm⟩⟩
    exact inv.unique.forall inside ((inv.flag e).mp set) different
      ⟨matches'.1.trans parent'.symm, matches'.2.trans name'.symm⟩

/-- **The cache keeps its promise in every state of every run.** -/
theorem cacheRun_sound (start : CacheState) (boot : CacheBoot start) (cached : List Nat) (w : CacheState)
    (run : CacheRun start cached w) : CacheSound w cached := by
  have inv := run.inv boot
  refine ⟨fun d _ => ?_, inv.flag, inv.children, inv.count, fun fuel enough => inv.lookup enough⟩
  refine ⟨_, (inv.chains _).linked, (inv.chains _).nodup, ?_⟩
  rw [inv.flag, mem_chainOf]
  exact ⟨fun member => ⟨member, rfl⟩, fun both => both.1⟩

/-- A directory and files in it, none of them cached. -/
def emptyCache : CacheState where
  dentries d := { name := [UInt8.ofNat d], parent := some 1, vnode := none,
                  hash := hashDentry [UInt8.ofNat d] (some 1), inCache := false }
  refcount _ := 1
  hashNext _ := 0
  hashPrev _ := 0
  listNext link := link
  listPrev link := link
  first _ := 0
  count := 0

theorem emptyCache_boot : CacheBoot emptyCache :=
  ⟨fun _ => rfl, rfl, fun _ => rfl, fun _ => rfl, fun _ => ⟨rfl, rfl⟩, fun _ => rfl⟩

/-- Two files are entered, and the first is taken out twice. -/
theorem emptyCache_removed_twice :
    CacheSound ((((emptyCache.vfsCacheInsert 2).vfsCacheInsert 3).cacheRemove 2).vfsCacheRemoveDentry 2) [3] := by
  have first : CacheRun emptyCache [2] (emptyCache.vfsCacheInsert 2) :=
    CacheRun.insert .start (by decide) rfl fun e member => absurd member not_mem_nil
  have second : CacheRun emptyCache [2, 3] ((emptyCache.vfsCacheInsert 2).vfsCacheInsert 3) := by
    refine CacheRun.insert first (by decide) (by decide) ?_
    intro e member
    rw [mem_singleton.mp member]
    decide
  exact cacheRun_sound emptyCache emptyCache_boot [3] _ ((second.cacheRemove 2).vfsCacheRemoveDentry 2)

end Voxia.Vfs
