/-
**The walk of a path is the walk of its components, one after the other.**

`resolve_dentry` goes through the pieces between the slashes (`walk`), and where a walk leads does not depend on the
counts of references (`SameTree`). Together these give the law for a path `p/q` (`resolveDentry_compositional`).
-/

import Voxia.Vfs.Dentry
import Mathlib.Data.List.Basic

namespace Voxia.Vfs

open List

variable {σ : Type}

/-! ### States that differ in their counts only -/

structure SameTree (w w' : VfsState σ) : Prop where
  dentries : w.dentries = w'.dentries
  buckets : w.buckets = w'.buckets
  next : w.next = w'.next
  root : w.root = w'.root
  fs : w.fs = w'.fs

theorem SameTree.refl (w : VfsState σ) : SameTree w w := ⟨rfl, rfl, rfl, rfl, rfl⟩

def SameStep {α : Type} (first second : α × VfsState σ) : Prop :=
  first.1 = second.1 ∧ SameTree first.2 second.2

section Same

variable {w w' : VfsState σ} (same : SameTree w w')

include same

theorem SameTree.dentryGet (d d' : Nat) : SameTree (dentryGet w d) (dentryGet w' d') :=
  { same with }

theorem SameTree.dentryGet_right (d : Nat) : SameTree w (Vfs.dentryGet w' d) :=
  { same with }

theorem SameTree.dentryPut (d d' : Nat) : SameTree (dentryPut w d) (dentryPut w' d') :=
  { same with }

theorem SameTree.setFs (fs : σ) : SameTree { w with fs := fs } { w' with fs := fs } :=
  ⟨same.dentries, same.buckets, same.next, same.root, rfl⟩

theorem SameTree.setVnode (d : Nat) (vnode : Vnode) : SameTree (setVnode w d vnode) (setVnode w' d vnode) := by
  refine ⟨?_, same.buckets, same.next, same.root, same.fs⟩
  simp only [Vfs.setVnode, same.dentries]

theorem SameTree.vfsCacheInsert (d : Nat) : SameTree (vfsCacheInsert w d) (vfsCacheInsert w' d) := by
  refine ⟨?_, ?_, same.next, same.root, same.fs⟩
  · simp only [Vfs.vfsCacheInsert, Vfs.dentryGet, same.dentries]
  · simp only [Vfs.vfsCacheInsert, Vfs.dentryGet, same.dentries, same.buckets]

theorem SameTree.enter (curr next : Nat) : SameTree (enter w curr next) (enter w' curr next) :=
  ((same.vfsCacheInsert next).dentryGet next next).dentryPut curr curr

theorem SameTree.createDentry (name : CStr) (vnode : Option Vnode) (parent : Nat) :
    SameStep (createDentry w name vnode parent) (createDentry w' name vnode parent) := by
  refine ⟨same.next, ?_, same.buckets, ?_, same.root, same.fs⟩
  · simp only [Vfs.createDentry, Vfs.dentryGet, same.dentries, same.next]
  · simp only [Vfs.createDentry, Vfs.dentryGet, same.next]

theorem SameTree.cacheFind (parent : Nat) (name : CStr) : cacheFind w parent name = cacheFind w' parent name := by
  simp only [Vfs.cacheFind, same.dentries, same.buckets]

theorem SameTree.instanceOf (d : Nat) : instanceOf w d = instanceOf w' d := by
  rw [Vfs.instanceOf, Vfs.instanceOf, same.dentries]

theorem SameTree.cacheLookup (parent : Nat) (name : CStr) :
    SameStep (cacheLookup w parent name) (cacheLookup w' parent name) := by
  rw [Vfs.cacheLookup, Vfs.cacheLookup, same.cacheFind]
  cases Vfs.cacheFind w' parent name with
  | none => exact ⟨rfl, same⟩
  | some d => exact ⟨rfl, same.dentryGet d d⟩

theorem SameTree.fsLookup (ops : FsOps σ) (curr : Nat) (name : CStr) :
    SameStep (fsLookup ops w curr name) (fsLookup ops w' curr name) := by
  rw [Vfs.fsLookup, Vfs.fsLookup, same.instanceOf, same.fs]
  cases Vfs.instanceOf w' curr with
  | none => exact ⟨rfl, same⟩
  | some inst =>
    by_cases able : inst.hasLookup ∧ inst.hasCdev
    · simp only [if_pos able]
      cases (ops.lookup w'.fs curr name).2 with
      | found vnode =>
        have made := (same.setFs (ops.lookup w'.fs curr name).1).createDentry name (some vnode) curr
        exact ⟨congrArg some made.1, made.2⟩
      | missing => exact ⟨rfl, same.setFs _⟩
      | missingCreated vnode => exact ⟨rfl, ((same.setFs _).createDentry name vnode curr).2⟩
    · simp only [if_neg able]
      exact ⟨rfl, same⟩

theorem SameTree.newVnode (ops : FsOps σ) (curr : Nat) (name : CStr) :
    SameStep (newVnode ops w curr name) (newVnode ops w' curr name) := by
  rw [Vfs.newVnode, Vfs.newVnode, same.instanceOf, same.fs]
  cases Vfs.instanceOf w' curr with
  | none => exact ⟨rfl, same⟩
  | some inst =>
    by_cases able : inst.hasCreate
    · simp only [if_pos able]
      exact ⟨rfl, same.setFs _⟩
    · simp only [if_neg able]
      exact ⟨rfl, same⟩

end Same

theorem SameStep.cases {α : Type} {first second : α × VfsState σ} (same : SameStep first second) :
    ∃ answer v v', first = (answer, v) ∧ second = (answer, v') ∧ SameTree v v' :=
  ⟨first.1, first.2, second.2, rfl, by rw [same.1], same.2⟩

section Walk

variable (ops : FsOps σ) (createMissing : Bool)

variable {w w' : VfsState σ} {component path : CStr}

section

variable (same : SameTree w w')

include same

theorem SameTree.createEntry (curr : Nat) (name : CStr) :
    SameStep (createEntry ops w curr name) (createEntry ops w' curr name) := by
  obtain ⟨entry, v, v', made, made', sameMade⟩ := (same.createDentry name none curr).cases
  obtain ⟨vnode, u, u', got, got', sameGot⟩ := (sameMade.newVnode ops curr name).cases
  rw [Vfs.createEntry, Vfs.createEntry, made, made']
  simp only [got, got']
  cases vnode with
  | none => exact ⟨rfl, sameGot⟩
  | some vnode => exact ⟨rfl, (sameGot.setVnode entry vnode).enter curr entry⟩

theorem SameTree.stepName (curr : Nat) (name : CStr) :
    SameStep (stepName ops createMissing w curr name) (stepName ops createMissing w' curr name) := by
  obtain ⟨hit, v, v', looked, looked', sameLooked⟩ := (same.cacheLookup curr name).cases
  rw [Vfs.stepName, Vfs.stepName, looked, looked']
  cases hit with
  | some next => exact ⟨rfl, sameLooked.dentryPut curr curr⟩
  | none =>
    obtain ⟨found, u, u', asked, asked', sameAsked⟩ := (sameLooked.fsLookup ops curr name).cases
    simp only [asked, asked']
    cases found with
    | some next => exact ⟨rfl, sameAsked.enter curr next⟩
    | none =>
      cases createMissing with
      | false => exact ⟨rfl, sameAsked⟩
      | true => exact sameAsked.createEntry ops curr name

theorem SameTree.stepUp (curr : Nat) : SameStep (stepUp w curr) (stepUp w' curr) := by
  rw [Vfs.stepUp, Vfs.stepUp, same.dentries]
  cases (w'.dentries curr).parent with
  | none => exact ⟨rfl, same⟩
  | some up => exact ⟨rfl, (same.dentryGet up up).dentryPut curr curr⟩

theorem SameTree.stepComponent (curr : Nat) (component : CStr) :
    SameStep (stepComponent ops createMissing w curr component)
      (stepComponent ops createMissing w' curr component) := by
  rw [Vfs.stepComponent, Vfs.stepComponent]
  by_cases skip : trimComponent component = [] ∨ trimComponent component = [dot]
  · rw [if_pos skip, if_pos skip]
    exact ⟨rfl, same⟩
  · rw [if_neg skip, if_neg skip]
    by_cases up : trimComponent component = [dot, dot]
    · rw [if_pos up, if_pos up]
      have moved := same.stepUp curr
      exact ⟨congrArg some moved.1, moved.2⟩
    · rw [if_neg up, if_neg up]
      exact same.stepName ops createMissing curr _

end

/-! ### The walk over the components -/

def walk : VfsState σ → Nat → List CStr → Option Nat × VfsState σ
  | w, curr, [] => (some curr, w)
  | w, curr, component :: rest =>
    match stepComponent ops createMissing w curr component with
    | (some next, w) => walk w next rest
    | (none, w) => (none, dentryPut w curr)

def pieces (path : CStr) : List CStr := path.splitOnP (· == slash)

section

variable (w : VfsState σ) (curr : Nat)

theorem pieces_append (p q : CStr) : pieces (p ++ slash :: q) = pieces p ++ pieces q :=
  splitOnP_append_cons p q (by decide)

theorem pieces_of_no_slash {p : CStr} (plain : slash ∉ p) : pieces p = [p] :=
  splitOnP_eq_singleton fun b inside => by
    rw [beq_eq_false_iff_ne]
    rintro rfl
    exact plain inside

theorem takeWhile_plain (path : CStr) : slash ∉ path.takeWhile (· != slash) := by
  intro inside
  have kept := all_eq_true.mp all_takeWhile slash inside
  simp at kept

theorem pieces_eq (path : CStr) :
    ((strsep2 path).2 = none ∧ pieces path = [(strsep2 path).1]) ∨
      ∃ rest, (strsep2 path).2 = some rest ∧ pieces path = (strsep2 path).1 :: pieces rest ∧
        rest.length < path.length := by
  have split : path.takeWhile (· != slash) ++ path.dropWhile (· != slash) = path :=
    takeWhile_append_dropWhile
  have plain := takeWhile_plain path
  rw [strsep2]
  cases tail : path.dropWhile (· != slash) with
  | nil =>
    refine .inl ⟨rfl, pieces_of_no_slash ?_⟩
    rw [tail, append_nil] at split
    rwa [split] at plain
  | cons c rest =>
    have isSlash : c = slash := by
      have first := List.head?_dropWhile_not (· != slash) path
      rw [tail] at first
      simpa using first
    subst isSlash
    rw [tail] at split
    refine .inr ⟨rest, rfl, ?_, ?_⟩
    · calc pieces path = pieces (path.takeWhile (· != slash) ++ slash :: rest) := by rw [split]
        _ = path.takeWhile (· != slash) :: pieces rest := by
          rw [pieces_append, pieces_of_no_slash plain, singleton_append]
    · have length := congrArg List.length split
      rw [length_append, length_cons] at length
      omega

theorem stepComponent_skip
    (skip : trimComponent component = [] ∨ trimComponent component = [dot]) :
    stepComponent ops createMissing w curr component = (some curr, w) := by
  rw [stepComponent, if_pos skip]

theorem walk_cons_skip (rest : List CStr) (skip : trimComponent component = [] ∨ trimComponent component = [dot]) :
    walk ops createMissing w curr (component :: rest) = walk ops createMissing w curr rest := by
  rw [walk, stepComponent_skip ops createMissing w curr skip]

theorem resolveLoop_eq_walk {fuel : Nat} (enough : path.length < fuel) (w : VfsState σ) (curr : Nat) :
    resolveLoop ops createMissing fuel w curr (some path) = walk ops createMissing w curr (pieces path) := by
  induction fuel generalizing path w curr with
  | zero => omega
  | succ fuel ih =>
    cases path with
    | nil =>
      rfl
    | cons b path =>
      rw [resolveLoop.eq_4 _ _ _ _ _ _ (cons_ne_nil b path)]
      obtain ⟨last, whole⟩ | ⟨rest, more, whole, shorter⟩ := pieces_eq (b :: path)
      · rw [whole, walk]
        simp only [last]
        cases stepComponent ops createMissing w curr (strsep2 (b :: path)).1 with
        | mk answer w' =>
          cases answer with
          | none => rfl
          | some next => cases fuel <;> rfl
      · rw [whole, walk]
        simp only [more]
        cases stepComponent ops createMissing w curr (strsep2 (b :: path)).1 with
        | mk answer w' =>
          cases answer with
          | none => rfl
          | some next => exact ih (by omega) w' next

/-- **`resolve_dentry` walks over the pieces of the path.** -/
theorem resolvePath_eq_walk (path : CStr) (parent : Option Nat) :
    resolvePath ops w path parent createMissing =
      walk ops createMissing (dentryGet w (parent.getD w.root)) (parent.getD w.root) (pieces path) :=
  resolveLoop_eq_walk ops createMissing (Nat.lt_succ_self _) _ _

theorem resolveDentry_of_short (short : path.length ≤ strLimit) (parent : Option Nat) :
    resolveDentry ops w path parent createMissing = resolvePath ops w path parent createMissing :=
  if_neg (Nat.not_lt.mpr short)

/-- A walk over two lists of components is the first walk and then, from where it ended, the second. -/
theorem walk_append (first second : List CStr) :
    walk ops createMissing w curr (first ++ second) =
      match walk ops createMissing w curr first with
      | (some d, w') => walk ops createMissing w' d second
      | (none, w') => (none, w') := by
  induction first generalizing w curr with
  | nil => rfl
  | cons component rest ih =>
    rw [cons_append, walk, walk]
    cases stepComponent ops createMissing w curr component with
    | mk answer w' =>
      cases answer with
      | none => rfl
      | some next => exact ih w' next

end

/-- Where a walk leads does not depend on the counts of references. -/
theorem walk_sameTree (same : SameTree w w') (curr : Nat) (components : List CStr) :
    SameStep (walk ops createMissing w curr components) (walk ops createMissing w' curr components) := by
  induction components generalizing w w' curr with
  | nil => exact ⟨rfl, same⟩
  | cons component rest ih =>
    obtain ⟨answer, v, v', step, step', sameStep⟩ :=
      (same.stepComponent ops createMissing curr component).cases
    rw [walk, walk, step, step']
    cases answer with
    | none => exact ⟨rfl, sameStep.dentryPut curr curr⟩
    | some next => exact ih sameStep next

/-! ### The law of paths -/

/-- A path followed by another one: the second is resolved where the first one ended. -/
theorem resolvePath_append (w : VfsState σ) (p q : CStr) (base : Option Nat) :
    (resolvePath ops w (p ++ slash :: q) base createMissing).1 =
      match resolvePath ops w p base createMissing with
      | (some d, w') => (resolvePath ops w' q (some d) createMissing).1
      | (none, _) => none := by
  rw [resolvePath_eq_walk, resolvePath_eq_walk, pieces_append, walk_append]
  cases walk ops createMissing (dentryGet w (base.getD w.root)) (base.getD w.root) (pieces p) with
  | mk answer w' =>
    cases answer with
    | none => rfl
    | some d =>
      show (walk ops createMissing w' d (pieces q)).1 = (resolvePath ops w' q (some d) createMissing).1
      rw [resolvePath_eq_walk]
      -- the second call holds one more reference on `d`, which changes no answer
      exact (walk_sameTree ops createMissing ((SameTree.refl w').dentryGet_right d) d (pieces q)).1

theorem walk_skip (w : VfsState σ) (curr : Nat) (first second : List CStr)
    (skip : trimComponent component = [] ∨ trimComponent component = [dot]) :
    walk ops createMissing w curr (first ++ component :: second) =
      walk ops createMissing w curr (first ++ second) := by
  rw [walk_append, walk_append]
  cases walk ops createMissing w curr first with
  | mk answer w' =>
    cases answer with
    | none => rfl
    | some d => exact walk_cons_skip ops createMissing w' d second skip

theorem resolveDentry_dotdot (w : VfsState σ) (d : Nat) :
    (resolveDentry ops w [dot, dot] (some d) createMissing).1 = some ((w.dentries d).parent.getD d) := by
  have step : (stepComponent ops createMissing (dentryGet w d) d [dot, dot]).1 =
      some ((w.dentries d).parent.getD d) := by
    have up : stepComponent ops createMissing (dentryGet w d) d [dot, dot] =
        (some (stepUp (dentryGet w d) d).1, (stepUp (dentryGet w d) d).2) := rfl
    rw [up, stepUp]
    simp only [dentryGet]
    cases (w.dentries d).parent <;> rfl
  rw [resolveDentry_of_short ops createMissing w (by decide), resolvePath_eq_walk, pieces_of_no_slash (by decide), walk]
  simp only [Option.getD_some]
  revert step
  cases stepComponent ops createMissing (dentryGet w d) d [dot, dot] with
  | mk answer w' =>
    rintro rfl
    rfl

/-- A path `p/q` leads to `e` exactly if `p` leads to some `d` from which `q` leads to `e`. -/
theorem resolvePath_append_iff (w : VfsState σ) (p q : CStr) (base : Option Nat) (e : Nat) :
    (resolvePath ops w (p ++ slash :: q) base createMissing).1 = some e ↔
      ∃ d w', resolvePath ops w p base createMissing = (some d, w') ∧
        (resolvePath ops w' q (some d) createMissing).1 = some e := by
  rw [resolvePath_append]
  cases first : resolvePath ops w p base createMissing with
  | mk answer w' =>
    cases answer with
    | none => simp
    | some d =>
      constructor
      · intro second
        exact ⟨d, w', rfl, second⟩
      · rintro ⟨d', w'', same, second⟩
        cases same
        exact second

/-- **Path resolution is compositional** as long as the paths are not too long. A path `p/q` leads to `e` exactly if
`p` leads to some `d` from which `q` leads to `e`; empty, blank and `.` components at the front, in the middle or at
the end change nothing, and `..` leads to the parent or, at a root, stays. -/
theorem resolveDentry_compositional (w : VfsState σ) (p q component : CStr) (base : Option Nat) (d : Nat) :
    ((p ++ slash :: q).length ≤ strLimit → ∀ e, (resolveDentry ops w (p ++ slash :: q) base createMissing).1 = some e ↔
      ∃ d w', resolveDentry ops w p base createMissing = (some d, w') ∧
        (resolveDentry ops w' q (some d) createMissing).1 = some e) ∧
    (slash ∉ component ∧ (trimComponent component = [] ∨ trimComponent component = [dot]) →
      ((component ++ slash :: q).length ≤ strLimit → resolveDentry ops w (component ++ slash :: q) base createMissing =
        resolveDentry ops w q base createMissing) ∧
      ((p ++ slash :: (component ++ slash :: q)).length ≤ strLimit →
        resolveDentry ops w (p ++ slash :: (component ++ slash :: q)) base createMissing =
          resolveDentry ops w (p ++ slash :: q) base createMissing) ∧
      ((p ++ slash :: component).length ≤ strLimit → resolveDentry ops w (p ++ slash :: component) base createMissing =
        resolveDentry ops w p base createMissing)) ∧
    (resolveDentry ops w [dot, dot] (some d) createMissing).1 = some ((w.dentries d).parent.getD d) := by
  refine ⟨fun short e => ?_, ?_, resolveDentry_dotdot ops createMissing w d⟩
  · have short' := short
    rw [length_append, length_cons] at short'
    have shortP : p.length ≤ strLimit := by omega
    have shortQ : q.length ≤ strLimit := by omega
    simp only [resolveDentry_of_short ops createMissing _ short, resolveDentry_of_short ops createMissing _ shortP,
      resolveDentry_of_short ops createMissing _ shortQ]
    exact resolvePath_append_iff ops createMissing w p q base e
  · rintro ⟨plain, skip⟩
    refine ⟨fun short => ?_, fun short => ?_, fun short => ?_⟩
    · have shortQ : q.length ≤ strLimit := by
        rw [length_append, length_cons] at short
        omega
      rw [resolveDentry_of_short ops createMissing w short, resolveDentry_of_short ops createMissing w shortQ,
        resolvePath_eq_walk, resolvePath_eq_walk, pieces_append, pieces_of_no_slash plain]
      exact walk_skip ops createMissing _ _ [] _ skip
    · have shortPQ : (p ++ slash :: q).length ≤ strLimit := by
        rw [length_append, length_cons, length_append, length_cons] at short
        rw [length_append, length_cons]
        omega
      rw [resolveDentry_of_short ops createMissing w short, resolveDentry_of_short ops createMissing w shortPQ,
        resolvePath_eq_walk, resolvePath_eq_walk, pieces_append, pieces_append, pieces_append, pieces_of_no_slash plain]
      exact walk_skip ops createMissing _ _ _ _ skip
    · have shortP : p.length ≤ strLimit := by
        rw [length_append, length_cons] at short
        omega
      rw [resolveDentry_of_short ops createMissing w short, resolveDentry_of_short ops createMissing w shortP,
        resolvePath_eq_walk, resolvePath_eq_walk, pieces_append, pieces_of_no_slash plain,
        walk_skip ops createMissing _ _ _ _ skip, append_nil]

end Walk

/-! ### A long path -/

def rootOnly : VfsState Unit where
  dentries := fun _ => ⟨[slash], none, some ⟨some ⟨true, true, false⟩⟩, 0, false⟩
  refcount := fun _ => 1
  buckets := fun _ => []
  next := 1
  rcu := []
  root := 0
  fs := ()

def everyName : FsOps Unit := ⟨fun _ _ _ => ((), .found ⟨none⟩), fun _ _ _ => ((), none)⟩

/-- 4096 spaces lead to the root, and so does the empty path from there; with a slash after the spaces the path is
too long. -/
theorem resolveDentry_too_long :
    (resolveDentry everyName rootOnly (List.replicate 4096 space) none false).1 = some 0 ∧
      (resolveDentry everyName (resolveDentry everyName rootOnly (List.replicate 4096 space) none false).2 [] (some 0)
        false).1 = some 0 ∧
      (resolveDentry everyName rootOnly (List.replicate 4096 space ++ [slash]) none false).1 = none := by
  decide +kernel

end Voxia.Vfs
