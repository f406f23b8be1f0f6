/-
**Objects counted by the places that point to them.**

Places (`held`) point to objects or to nothing. An object carries a count, and a log says how often it was released
(`Counted`). The set of places is a parameter: a loop that takes references away place by place is followed by taking
the places out of the set.
-/

import Mathlib.Data.Finset.Card
import Mathlib.Logic.Function.Basic

namespace Voxia.Lib

open Finset

variable {K V : Type} [DecidableEq V]

/-- The number of places of a set that point to an object. -/
def refs (held : K → Option V) (keys : Finset K) (v : V) : Nat := (keys.filter fun k => held k = some v).card

variable {held : K → Option V} {keys : Finset K} {k : K}

theorem refs_congr {held' : K → Option V} (same : ∀ k ∈ keys, held' k = held k) (v : V) :
    refs held' keys v = refs held keys v := by
  rw [refs, refs, filter_congr fun k inside => by rw [same k inside]]

theorem refs_pos {v : V} (inside : k ∈ keys) (points : held k = some v) : 0 < refs held keys v :=
  card_pos.mpr ⟨k, mem_filter.mpr ⟨inside, points⟩⟩

variable [DecidableEq K]

theorem refs_insert (new : k ∉ keys) (v : V) :
    refs held (insert k keys) v = refs held keys v + if held k = some v then 1 else 0 := by
  rw [refs, filter_insert]
  by_cases points : held k = some v
  · rw [if_pos points, if_pos points, card_insert_of_notMem fun inside => new (mem_filter.mp inside).1]
    rfl
  · rw [if_neg points, if_neg points]
    rfl

theorem refs_erase (held : K → Option V) (inside : k ∈ keys) (v : V) :
    refs held keys v = refs held (keys.erase k) v + if held k = some v then 1 else 0 := by
  rw [← refs_insert (notMem_erase k keys), insert_erase inside]

/-- The counts and the releases of all objects there were. -/
structure Counted (held : K → Option V) (keys : Finset K) (count : V → Int) (released : V → Nat)
    (known : V → Prop) : Prop where
  counts : ∀ v, known v → released v = 0 → count v = refs held keys v
  released : ∀ v, known v → released v = if refs held keys v = 0 then 1 else 0
  known : ∀ k ∈ keys, ∀ v, held k = some v → known v

namespace Counted

variable {held : K → Option V} {keys : Finset K} {count : V → Int} {released : V → Nat} {known : V → Prop}

variable {k : K} {v : V} {held' : K → Option V} {count' : V → Int} {released' : V → Nat}

omit [DecidableEq K] in
theorem released_eq_zero (counted : Counted held keys count released known) (inside : k ∈ keys)
    (points : held k = some v) : released v = 0 := by
  rw [counted.released v (counted.known k inside v points), if_neg (Nat.ne_of_gt (refs_pos inside points))]

omit [DecidableEq K] in
theorem congr (counted : Counted held keys count released known)
    (same : ∀ k ∈ keys, held' k = held k) : Counted held' keys count released known := by
  refine ⟨fun v exists' alive => ?_, fun v exists' => ?_, fun k inside v points => ?_⟩
  · rw [refs_congr same, counted.counts v exists' alive]
  · rw [refs_congr same, counted.released v exists']
  · rw [same k inside] at points
    exact counted.known k inside v points

theorem extend {keys' : Finset K} (counted : Counted held keys count released known) (sub : keys ⊆ keys')
    (nothing : ∀ k ∈ keys', k ∉ keys → held k = none) : Counted held keys' count released known := by
  have same : ∀ v, refs held keys' v = refs held keys v := by
    intro v
    refine congrArg card (Finset.Subset.antisymm ?_ (filter_subset_filter _ sub))
    intro k inside
    obtain ⟨within, points⟩ := mem_filter.mp inside
    refine mem_filter.mpr ⟨?_, points⟩
    by_contra outside
    rw [nothing k within outside] at points
    cases points
  refine ⟨fun v exists' alive => ?_, fun v exists' => ?_, fun k inside v points => ?_⟩
  · rw [same, counted.counts v exists' alive]
  · rw [same, counted.released v exists']
  · by_cases within : k ∈ keys
    · exact counted.known k within v points
    · rw [nothing k inside within] at points
      cases points

section

variable (counted : Counted held keys count released known)

include counted

theorem omit_none (nothing : held k = none) :
    Counted held (keys.erase k) count released known := by
  have same : ∀ v, refs held (keys.erase k) v = refs held keys v := by
    intro v
    rw [refs, filter_erase, erase_eq_of_notMem, ← refs]
    intro inside
    rw [(mem_filter.mp inside).2] at nothing
    cases nothing
  refine ⟨fun v exists' alive => ?_, fun v exists' => ?_, fun j inside v points => ?_⟩
  · rw [same, counted.counts v exists' alive]
  · rw [same, counted.released v exists']
  · exact counted.known j (mem_of_mem_erase inside) v points

/-- **A place is given up**: the count goes down by one, and the object is released if it is zero then. -/
theorem drop (inside : k ∈ keys) (points : held k = some v)
    (countEq : ∀ u, count' u = count u - if u = v then 1 else 0)
    (releasedEq : ∀ u, released' u = released u + if u = v ∧ count v - 1 = 0 then 1 else 0) :
    Counted held (keys.erase k) count' released' known := by
  have alive : released v = 0 := counted.released_eq_zero inside points
  have before := counted.counts v (counted.known k inside v points) alive
  have change := refs_erase held inside
  refine ⟨fun u exists' alive' => ?_, fun u exists' => ?_, fun j within u target => ?_⟩
  · specialize change u
    rw [countEq]
    by_cases same : u = v
    · subst same
      rw [points, if_pos rfl] at change
      rw [before, change, if_pos rfl]
      omega
    · rw [points, if_neg (by simpa using Ne.symm same), Nat.add_zero] at change
      rw [releasedEq, if_neg fun both => same both.1, Nat.add_zero] at alive'
      rw [counted.counts u exists' alive', change, if_neg same, Int.sub_zero]
  · specialize change u
    rw [releasedEq]
    by_cases same : u = v
    · subst same
      rw [points, if_pos rfl] at change
      have last : count u - 1 = 0 ↔ refs held (keys.erase k) u = 0 := by omega
      simp only [alive, Nat.zero_add, true_and, last]
    · rw [points, if_neg (by simpa using Ne.symm same), Nat.add_zero] at change
      have notLast : ¬ (u = v ∧ count v - 1 = 0) := fun both => same both.1
      rw [if_neg notLast, counted.released u exists', change, Nat.add_zero]
  · exact counted.known j (mem_of_mem_erase within) u target

/-- **The only place of an object is given up** and the object released. -/
theorem cancel (inside : k ∈ keys) (points : held k = some v)
    (only : refs held keys v = 1) (releasedEq : ∀ u, released' u = released u + if u = v then 1 else 0) :
    Counted held (keys.erase k) count released' known := by
  have alive : released v = 0 := counted.released_eq_zero inside points
  have one := counted.counts v (counted.known k inside v points) alive
  rw [only] at one
  have dropped : Counted held (keys.erase k) _ released' known :=
    counted.drop inside points (fun _ => rfl) fun u => by simp [releasedEq, one]
  refine ⟨fun u exists' alive' => ?_, dropped.released, dropped.known⟩
  have other : u ≠ v := fun same => by simp [releasedEq, same] at alive'
  rw [← dropped.counts u exists' alive', if_neg other, Int.sub_zero]

/-- **A place is made to point to an object** that has a reference already. -/
theorem acquire (new : k ∉ keys) (points : held' k = some v)
    (same : ∀ j ∈ keys, held' j = held j) (exists' : known v) (used : 0 < refs held keys v)
    (countEq : ∀ u, count' u = count u + if u = v then 1 else 0) :
    Counted held' (insert k keys) count' released known := by
  refine ⟨fun u known' alive => ?_, fun u known' => ?_, fun j within u target => ?_⟩
  · rw [refs_insert new, refs_congr same, countEq, counted.counts u known' alive, points]
    by_cases this : u = v
    · simp [this]
    · simp [this, Ne.symm this]
  · rw [refs_insert new, refs_congr same, counted.released u known', points]
    by_cases this : u = v
    · subst this
      have before : refs held keys u ≠ 0 := by omega
      simp [before]
    · simp [Ne.symm this]
  · rcases mem_insert.mp within with rfl | old
    · rw [points] at target
      cases target
      exact exists'
    · rw [same j old] at target
      exact counted.known j old u target

end

/-- **A place is made to point to a new object**, whose count starts at one. -/
theorem fresh {known' : V → Prop} (counted : Counted held keys count released known) (new : k ∉ keys)
    (points : held' k = some v)
    (same : ∀ j ∈ keys, held' j = held j) (unknown : ¬ known v) (knownEq : ∀ u, known' u ↔ known u ∨ u = v)
    (countEq : ∀ u, u ≠ v → count' u = count u) (one : count' v = 1) (zero : released v = 0) :
    Counted held' (insert k keys) count' released known' := by
  have none : refs held keys v = 0 := by
    rw [refs, card_eq_zero, filter_eq_empty_iff]
    intro j inside target
    exact unknown (counted.known j inside v target)
  refine ⟨fun u exists' alive => ?_, fun u exists' => ?_, fun j within u target => ?_⟩
  · rw [refs_insert new, refs_congr same, points]
    by_cases this : u = v
    · subst this
      simp [one, none]
    · have before := counted.counts u (((knownEq u).mp exists').resolve_right this) alive
      simp [countEq u this, before, Ne.symm this]
  · rw [refs_insert new, refs_congr same, points]
    by_cases this : u = v
    · subst this
      simp [zero]
    · have before := counted.released u (((knownEq u).mp exists').resolve_right this)
      simp [before, Ne.symm this]
  · rcases mem_insert.mp within with rfl | old
    · rw [points] at target
      cases target
      exact (knownEq v).mpr (.inr rfl)
    · rw [same j old] at target
      exact (knownEq u).mpr (.inl (counted.known j old u target))

end Counted

end Voxia.Lib
