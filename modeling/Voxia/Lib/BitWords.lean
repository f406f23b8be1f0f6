/-
**A bitmap kept in words.**

A bitmap in memory is an array of words of some width `w`: bit `i` is bit `i % w` of word `i / w`.
The usual C expressions test a bit (`words[i / w] & (1 << (i % w))`), set one (`|=`), clear one
(`&= ~`), or loop over a range of bits. Each is described here by what it does to `bitAt`, and for a
range that is `Lib.fill`.
-/

import Voxia.Lib.Spans

namespace Voxia.Lib

open Function

variable {w : Nat}

def bitAt (words : Nat → BitVec w) (i : Nat) : Bool := (words (i / w)).getLsbD (i % w)

/-- `words[j / w] |= (1 << (j % w))`. -/
def orBit (words : Nat → BitVec w) (j : Nat) : Nat → BitVec w :=
  update words (j / w) (words (j / w) ||| 1#w <<< (j % w))

/-- `words[j / w] &= ~(1 << (j % w))`. -/
def andNotBit (words : Nat → BitVec w) (j : Nat) : Nat → BitVec w :=
  update words (j / w) (words (j / w) &&& ~~~(1#w <<< (j % w)))

/-- The loop that sets the bits `j`, `j + 1`, ..., `count` of them. -/
def orRange (words : Nat → BitVec w) (j : Nat) : Nat → Nat → BitVec w
  | 0 => words
  | count + 1 => orRange (orBit words j) (j + 1) count

/-- The loop that clears the bits `j`, `j + 1`, ..., `count` of them. -/
def andNotRange (words : Nat → BitVec w) (j : Nat) : Nat → Nat → BitVec w
  | 0 => words
  | count + 1 => andNotRange (andNotBit words j) (j + 1) count

variable {k i : Nat}

theorem getLsbD_one_shiftLeft (inWord : i < w) : (1#w <<< k).getLsbD i = decide (i = k) := by
  by_cases here : i = k
  · subst here
    simp [inWord]
  · by_cases below : i < k
    · simp [below, here]
    · have shifted : i - k ≠ 0 := by omega
      simp [shifted, here]

theorem and_mask_eq_zero (word : BitVec w) (inWord : k < w) : word &&& 1#w <<< k = 0#w ↔ word.getLsbD k = false := by
  constructor
  · intro zero
    have bit := congrArg (fun masked => masked.getLsbD k) zero
    simpa [getLsbD_one_shiftLeft inWord] using bit
  · intro unset
    apply BitVec.eq_of_getLsbD_eq
    intro i inBounds
    rw [BitVec.getLsbD_and, getLsbD_one_shiftLeft inBounds, BitVec.getLsbD_zero]
    by_cases here : i = k
    · rw [here, unset, Bool.false_and]
    · simp [here]

theorem eq_of_div_mod {j : Nat} (word : i / w = j / w) (offset : i % w = j % w) : i = j := by
  rw [← Nat.div_add_mod i w, ← Nat.div_add_mod j w, word, offset]

section

variable (positive : 0 < w) (words : Nat → BitVec w) (j : Nat)

include positive

theorem bitAt_update {word : BitVec w} {value : Bool}
    (bits : ∀ k < w, word.getLsbD k = if k = j % w then value else (words (j / w)).getLsbD k) (i : Nat) :
    bitAt (update words (j / w) word) i = if i = j then value else bitAt words i := by
  unfold bitAt
  by_cases sameWord : i / w = j / w
  · rw [sameWord, update_self, bits _ (Nat.mod_lt i positive)]
    by_cases here : i = j
    · rw [here, if_pos rfl, if_pos rfl]
    · rw [if_neg here, if_neg fun offset => here (eq_of_div_mod sameWord offset)]
  · have different : i ≠ j := fun same => sameWord (by rw [same])
    rw [update_of_ne sameWord, if_neg different]

theorem bitAt_orBit (i : Nat) : bitAt (orBit words j) i = if i = j then true else bitAt words i := by
  refine bitAt_update positive words j (fun k inWord => ?_) i
  rw [BitVec.getLsbD_or, getLsbD_one_shiftLeft inWord]
  by_cases here : k = j % w <;> simp [here]

theorem bitAt_andNotBit (i : Nat) : bitAt (andNotBit words j) i = if i = j then false else bitAt words i := by
  refine bitAt_update positive words j (fun k inWord => ?_) i
  rw [BitVec.getLsbD_and, BitVec.getLsbD_not, getLsbD_one_shiftLeft inWord]
  by_cases here : k = j % w <;> simp [here, inWord]

theorem bitAt_orRange (count : Nat) : bitAt (orRange words j count) = fill (bitAt words) ⟨j, count⟩ true := by
  induction count generalizing words j with
  | zero => rw [orRange, fill_empty]
  | succ count ih => rw [orRange, ih, funext (bitAt_orBit positive words j), fill_cons]

theorem bitAt_andNotRange (count : Nat) : bitAt (andNotRange words j count) = fill (bitAt words) ⟨j, count⟩ false := by
  induction count generalizing words j with
  | zero => rw [andNotRange, fill_empty]
  | succ count ih => rw [andNotRange, ih, funext (bitAt_andNotBit positive words j), fill_cons]

end

end Voxia.Lib
