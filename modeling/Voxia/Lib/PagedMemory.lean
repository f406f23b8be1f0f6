/-
**Memory behind a translation of addresses.**

A program reads and writes virtual addresses; a partial function sends each of them to a place of the real memory,
whole pages at a time. Two addresses may share a place, and some have none: an access there is a fault (`none`). On a
set of addresses that has its own places (`Owned`) the memory behaves like a flat image (`Shows`), wherever the pages
lie.
-/

import Voxia.Lib.Bytes

namespace Voxia.Lib.Paged

open Option Nat Bytes

variable (page : Nat) (tr : Nat → Option Nat)

def loadByte (ram : Bytes) (v : Nat) : Option UInt8 := (tr v).map ram

def loadWord (ram : Bytes) : Nat → Nat → Option Nat
  | 0, _ => some 0
  | n + 1, v => do
    let byte ← loadByte tr ram v
    let rest ← loadWord ram n (v + 1)
    some (byte.toNat + 256 * rest)

/-- `count` bytes of a block, page by page. Each turn stores at least one byte. -/
def storeFrom : Nat → Bytes → Nat → Bytes → Nat → Option Bytes
  | 0, ram, _, _, _ => some ram
  | fuel + 1, ram, v, block, count =>
    if count = 0 then some ram
    else do
      let p ← tr v
      let n := min count (page - v % page)
      storeFrom fuel (ram.copy p block n) (v + n) (block.window n) (count - n)

/-- The first `count` bytes of a block stored from `v` on. -/
def store (ram : Bytes) (v : Nat) (block : Bytes) (count : Nat) : Option Bytes :=
  storeFrom page tr count ram v block count

/-- The addresses of a set have places of their own, in whole pages. -/
structure Owned (own : Nat → Prop) : Prop where
  mapped : ∀ a, own a → ∃ p, tr a = some p
  inPage : ∀ a i, a % page + i < page → tr (a + i) = (tr a).map (· + i)
  injective : ∀ a b, own a → own b → tr a = tr b → a = b

/-- On the set the memory reads like the image. -/
def Shows (own : Nat → Prop) (ram image : Bytes) : Prop := ∀ a, own a → loadByte tr ram a = some (image a)

variable {page tr} {own : Nat → Prop} {ram image : Bytes}

theorem Shows.congr {image' : Bytes} (shows' : Shows tr own ram image) (same : ∀ a, own a → image' a = image a) :
    Shows tr own ram image' := by
  intro a inside
  rw [same a inside]
  exact shows' a inside

/-! ### Accesses to mapped addresses return -/

variable {n v count : Nat}

theorem loadWord_isSome (mapped : ∀ i < n, (tr (v + i)).isSome) : (loadWord tr ram n v).isSome := by
  induction n generalizing v with
  | zero => rfl
  | succ n ih =>
    obtain ⟨p, there⟩ := isSome_iff_exists.mp (mapped 0 (succ_pos n))
    obtain ⟨rest, loaded⟩ := isSome_iff_exists.mp (ih (v := v + 1) fun i less => by
      rw [Nat.add_assoc, add_comm 1 i]
      exact mapped (i + 1) (succ_lt_succ less))
    have first : tr v = some p := there
    simp [loadWord, loadByte, first, loaded]

theorem storeFrom_isSome {fuel : Nat} (block : Bytes) (mapped : ∀ i < count, (tr (v + i)).isSome) :
    (storeFrom page tr fuel ram v block count).isSome := by
  induction fuel generalizing ram v block count with
  | zero => rfl
  | succ fuel ih =>
    rw [storeFrom]
    split_ifs with done
    · rfl
    · obtain ⟨p, there⟩ := isSome_iff_exists.mp (mapped 0 (by omega))
      have first : tr v = some p := there
      simp only [first, bind_eq_bind, bind_some]
      refine ih _ fun i less => ?_
      rw [Nat.add_assoc]
      exact mapped _ (by omega)

/-! ### Loads -/

theorem loadWord_succ {rest : Nat} (shows' : Shows tr own ram image) (inside : own v)
    (tail : loadWord tr ram n (v + 1) = some rest) :
    loadWord tr ram (n + 1) v = some ((image v).toNat + 256 * rest) := by
  rw [loadWord, shows' v inside, tail]
  rfl

theorem loadWord32_shows (shows' : Shows tr own ram image) (inside : ∀ i < 4, own (v + i)) :
    loadWord tr ram 4 v = some (image.word32 v) := by
  have three := loadWord_succ shows' (inside 3 (by decide)) (rfl : loadWord tr ram 0 (v + 3 + 1) = some 0)
  have two := loadWord_succ shows' (inside 2 (by decide)) three
  have one := loadWord_succ shows' (inside 1 (by decide)) two
  have zero : loadWord tr ram 4 v = some _ := loadWord_succ shows' (inside 0 (by decide)) one
  rw [zero, word32, word16, word16, some.injEq, Nat.add_assoc v 2 1]
  omega

theorem loadWord_add {low high : Nat} (n m : Nat) (first : loadWord tr ram n v = some low)
    (second : loadWord tr ram m (v + n) = some high) : loadWord tr ram (n + m) v = some (low + 256 ^ n * high) := by
  induction n generalizing v low with
  | zero =>
    rw [loadWord, some.injEq] at first
    rw [zero_add, show v = v + 0 from rfl, second, ← first]
    simp
  | succ n ih =>
    rw [loadWord] at first
    simp only [bind_eq_bind, bind_eq_some_iff, some.injEq] at first
    obtain ⟨byte, here, rest, tail, rfl⟩ := first
    have later := ih tail (by rw [show v + 1 + n = v + (n + 1) by omega]; exact second)
    rw [show n + 1 + m = n + m + 1 by omega, loadWord, here, later]
    simp only [bind_eq_bind, bind_some, some.injEq]
    ring

/-- What is loaded is what the image holds. -/
theorem loadWord64_shows (shows' : Shows tr own ram image) (inside : ∀ i < 8, own (v + i)) :
    loadWord tr ram 8 v = some (image.word64 v) := by
  have low := loadWord32_shows shows' fun i less => inside i (by omega)
  have high : loadWord tr ram 4 (v + 4) = some (image.word32 (v + 4)) :=
    loadWord32_shows shows' fun i less => by rw [Nat.add_assoc]; exact inside (4 + i) (by omega)
  exact loadWord_add 4 4 low high

/-! ### Stores -/

theorem copy_shows {p : Nat} (block : Bytes) (owned : Owned page tr own) (shows' : Shows tr own ram image)
    (place : tr v = some p) (fits : v % page + n ≤ page) (inside : ∀ i < n, own (v + i)) :
    Shows tr own (ram.copy p block n) (image.copy v block n) := by
  intro a member
  obtain ⟨q, there⟩ := owned.mapped a member
  have places : ∀ i < n, tr (v + i) = some (p + i) := by
    intro i less
    rw [owned.inPage v i (by omega), place]
    rfl
  have before := shows' a member
  rw [loadByte, there, map_some, some.injEq] at before
  rw [loadByte, there, map_some, some.injEq]
  by_cases chunk : p ≤ q ∧ q < p + n
  · obtain ⟨i, rfl⟩ := Nat.exists_eq_add_of_le chunk.1
    have less : i < n := by omega
    have same : v + i = a := owned.injective _ _ (inside i less) member ((places i less).trans there.symm)
    rw [← same, copy_inside _ _ less, copy_inside _ _ less]
  · have outside : a < v ∨ v + n ≤ a := by
      by_contra within
      obtain ⟨i, rfl⟩ := Nat.exists_eq_add_of_le (show v ≤ a by omega)
      rw [places i (by omega), some.injEq] at there
      omega
    rw [copy_outside _ _ (by omega), copy_outside _ _ outside, before]

theorem copy_copy_window (image block : Bytes) (v n m : Nat) :
    (image.copy v block n).copy (v + n) (block.window n) m = image.copy v block (n + m) := by
  funext a
  by_cases first : v ≤ a ∧ a < v + n
  · obtain ⟨i, rfl⟩ := Nat.exists_eq_add_of_le first.1
    rw [copy_outside _ _ (by omega), copy_inside _ _ (by omega), copy_inside _ _ (by omega)]
  · by_cases second : v + n ≤ a ∧ a < v + n + m
    · obtain ⟨i, rfl⟩ := Nat.exists_eq_add_of_le second.1
      rw [copy_inside _ _ (by omega), Nat.add_assoc v n i, copy_inside _ _ (by omega),
        window_apply]
    · rw [copy_outside _ _ (by omega), copy_outside _ _ (by omega), copy_outside _ _ (by omega)]

/-- **A block stored in an owned set is a block copied into its image.** -/
theorem store_shows (block : Bytes) (positive : 0 < page) (owned : Owned page tr own)
    (shows' : Shows tr own ram image) (inside : ∀ i < count, own (v + i)) :
    ∃ ram', store page tr ram v block count = some ram' ∧ Shows tr own ram' (image.copy v block count) := by
  have general : ∀ (fuel : Nat) (ram image : Bytes) (v : Nat) (block : Bytes) (count : Nat), count ≤ fuel →
      Shows tr own ram image → (∀ i < count, own (v + i)) →
      ∃ ram', storeFrom page tr fuel ram v block count = some ram' ∧ Shows tr own ram' (image.copy v block count) := by
    -- induction on the turns, over the part of the block that is left
    intro fuel
    induction fuel with
    | zero =>
      intro ram image v block count enough shows' _
      exact ⟨ram, rfl, shows'.congr fun a _ => copy_outside _ _ (by omega)⟩
    | succ fuel ih =>
      intro ram image v block count enough shows' inside
      rw [storeFrom]
      by_cases done : count = 0
      · subst done
        exact ⟨ram, if_pos rfl, shows'.congr fun a _ => copy_outside _ _ (by omega)⟩
      · rw [if_neg done]
        obtain ⟨p, place⟩ := owned.mapped v (inside 0 (by omega))
        have inPage : v % page < page := mod_lt v positive
        generalize chunk : min count (page - v % page) = n
        have first := copy_shows block owned shows' place (by omega : v % page + n ≤ page)
          fun i less => inside i (by omega)
        obtain ⟨ram', stored, later⟩ := ih (ram.copy p block n) (image.copy v block n) (v + n) (block.window n)
          (count - n) (by omega) first fun i less => by rw [Nat.add_assoc]; exact inside (n + i) (by omega)
        refine ⟨ram', ?_, ?_⟩
        · rw [place, bind_eq_bind, bind_some]
          exact stored
        · rw [copy_copy_window, show n + (count - n) = count by omega] at later
          exact later
  exact general count ram image v block count le_rfl shows' inside

end Voxia.Lib.Paged
