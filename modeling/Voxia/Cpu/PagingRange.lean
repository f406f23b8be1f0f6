/-
**Mapping a range, page by page.**

`_mmap_range_internal` maps a range in steps of 1 GB, 2 MB or 4 KB, as the alignment of the two addresses and the
bytes left allow. The range is mapped as by single calls, with one exception: the frame address is not advanced when
it is 0, which marks a range to be unmapped. A present mapping that comes to frame 0 before its last step maps the
rest of the range to the same frames again (`mmapRange_pageByPage`).
-/

import Voxia.Cpu.PagingSpec

namespace Voxia.Cpu

open Nat

/-! ### Pages and chunks -/

def rangePage (start i : Nat) : Nat := u64 (start + i * pageSize4KB)

/-- `n` single calls of `_mmap_internal`, one for each page of a range. -/
def mapPages (dir : PageDir) (virt phys flags : Nat) : Nat → PageDir
  | 0 => dir
  | n + 1 => mmapInternal 3 (mapPages dir virt phys flags n) (rangePage virt n) (rangePage phys n) flags

/-- The address is in one of the first `n` pages of a range. -/
def InPages (virt n v : Nat) : Prop := ∃ i < n, SameSlot 0 3 (rangePage virt i) v

instance (virt n v : Nat) : Decidable (InPages virt n v) :=
  inferInstanceAs (Decidable (∃ i, i < n ∧ SameSlot 0 3 (rangePage virt i) v))

def SamePage (dir dir' : PageDir) (v : Nat) : Prop :=
  vaddrToPaddr dir v = vaddrToPaddr dir' v ∧ pte 3 dir v = pte 3 dir' v

/-- The range is mapped as by single calls, and nothing else changes. -/
def PageByPage (dir : PageDir) (virt phys n flags : Nat) : Prop :=
  ∀ v, if InPages virt n v then SamePage (pagingMultipleMmap dir virt phys n flags) (mapPages dir virt phys flags n) v
    else SamePage (pagingMultipleMmap dir virt phys n flags) dir v

/-- `n` pages from `virt` on are mapped in one step from frame 0 on. -/
def OneStep (virt n : Nat) : Prop :=
  n = 1 ∨ (n = 512 ∧ virt % pageSize2MB = 0) ∨ (n = 512 * 512 ∧ virt % pageSize1GB = 0)

/-- Frame 0 is reached, if at all, with the last step of a present mapping. -/
def Advances (virt phys n flags : Nat) : Prop :=
  present flags → ∀ k < n, rangePage phys k = 0 → OneStep (rangePage virt k) (n - k)

theorem sameSlot_zero_iff (u v : Nat) : SameSlot 0 3 u v ↔ u / 4096 % 2 ^ 36 = v / 4096 % 2 ^ 36 := by
  simp only [SameSlot, tableIndex_eq]
  constructor
  · intro same
    have zero := same 0 le_rfl (by omega)
    have one := same 1 (by omega) (by omega)
    have two := same 2 (by omega) (by omega)
    have three := same 3 (by omega) le_rfl
    omega
  · intro same j _ high
    interval_cases j <;> omega

variable {s start : Nat}

/-- The address `v` is in the page `i` of the chunk of `512 ^ s` pages at `virt`. -/
theorem sameSlot_chunk {virt v : Nat} (small : s ≤ 2) (aligned : virt % levelSize s = 0) (i : Nat)
    (inside : i < 512 ^ s) : SameSlot 0 3 (virt + i * 4096) v ↔ SameSlot s 3 virt v ∧ i = v % levelSize s / 4096 := by
  rw [sameSlot_zero_iff]
  simp only [SameSlot, tableIndex_eq]
  unfold levelSize at *
  constructor
  · intro same
    refine ⟨fun j low high => ?_, ?_⟩
    · interval_cases s <;> interval_cases j <;> omega
    · interval_cases s <;> omega
  · rintro ⟨same, place⟩
    have three := same 3 (by omega) le_rfl
    have two := same 2 (by omega) (by omega)
    interval_cases s
    · have one := same 1 (by omega) (by omega)
      have zero := same 0 le_rfl (by omega)
      omega
    · have one := same 1 le_rfl (by omega)
      omega
    · omega

theorem rangePage_zero (small : start < 2 ^ 64) : rangePage start 0 = start := by
  rw [rangePage, Nat.zero_mul, add_zero, u64_of_lt small]

theorem rangePage_pageOf (start a i : Nat) : rangePage (rangePage start a) i = rangePage start (a + i) := by
  simp only [rangePage, u64, mod_add_mod, add_assoc, ← add_mul]

structure PageStart (start : Nat) : Prop where
  low : start < 2 ^ 64
  aligned : start % 4096 = 0

theorem PageStart.zero : PageStart 0 := ⟨by decide, rfl⟩

theorem PageStart.page (page : PageStart start) (i : Nat) : PageStart (rangePage start i) := by
  have aligned := page.aligned
  refine ⟨Nat.mod_lt _ (Nat.two_pow_pos 64), ?_⟩
  unfold rangePage u64 pageSize4KB
  omega

theorem rangePage_chunk {i : Nat} (small : s ≤ 2) (low : start < 2 ^ 64) (aligned : start % levelSize s = 0)
    (inside : i < 512 ^ s) : rangePage start i = start + i * 4096 := by
  unfold rangePage pageSize4KB
  refine u64_of_lt ?_
  unfold levelSize at aligned
  interval_cases s <;> omega

/-! ### Single calls -/

section

variable {dir dir' : PageDir} {virt phys flags : Nat}

theorem mappedLevel_clean (clean : Clean flags) : mappedLevel flags = 0 := by
  rw [mappedLevel, clean.2, clean.1]
  rfl

theorem wf_mmapInternal_clean (virt phys : Nat) (clean : Clean flags) (wf : Wf 3 dir) :
    Wf 3 (pagingMmap dir virt phys flags) := by
  refine wf_mmapInternal_any _ _ _ wf ?_
  rw [mappedLevel_clean clean]
  exact physOf_aligned _

theorem pte_single (dir : PageDir) (clean : Clean flags) (virt phys v : Nat) :
    pte 3 (mmapInternal 3 dir virt phys flags) v =
      if SameSlot 0 3 virt v then if present flags then leafEntry phys flags else 0 else pte 3 dir v := by
  rw [pte_mmapInternal 3 dir virt phys flags v (by rw [mappedLevel_clean clean]; omega), mappedLevel_clean clean]
  rfl

variable {n v i s extra m fuel : Nat}

theorem pte_mapPages_other (dir : PageDir) (clean : Clean flags) (virt phys : Nat)
    (outside : ∀ i < n, ¬ SameSlot 0 3 (rangePage virt i) v) :
    pte 3 (mapPages dir virt phys flags n) v = pte 3 dir v := by
  induction n with
  | zero => rfl
  | succ n ih =>
    rw [mapPages, pte_single _ clean, if_neg (outside n (lt_succ_self n))]
    exact ih fun i less => outside i (by omega)

theorem pte_mapPages_last (dir : PageDir) (clean : Clean flags) (virt phys : Nat) (inside : i < n)
    (here : SameSlot 0 3 (rangePage virt i) v) (last : ∀ j < n, i < j → ¬ SameSlot 0 3 (rangePage virt j) v) :
    pte 3 (mapPages dir virt phys flags n) v = if present flags then leafEntry (rangePage phys i) flags else 0 := by
  induction n with
  | zero => omega
  | succ n ih =>
    rw [mapPages, pte_single _ clean]
    by_cases now : i = n
    · rw [← now, if_pos here]
    · rw [if_neg (last n (lt_succ_self n) (by omega))]
      exact ih (by omega) fun j less => last j (by omega)

theorem pte_mapPages_congr (same : ∀ v, pte 3 dir v = pte 3 dir' v) (clean : Clean flags) (virt phys n v : Nat) :
    pte 3 (mapPages dir virt phys flags n) v = pte 3 (mapPages dir' virt phys flags n) v := by
  induction n with
  | zero => exact same v
  | succ n ih => rw [mapPages, mapPages, pte_single _ clean, pte_single _ clean, ih]

theorem pte_mapPages_absent (dir : PageDir) (clean : Clean flags) (absent : present flags = false)
    (virt phys phys' n v : Nat) :
    pte 3 (mapPages dir virt phys flags n) v = pte 3 (mapPages dir virt phys' flags n) v := by
  induction n with
  | zero => rfl
  | succ n ih => simp only [mapPages, pte_single _ clean, absent, Bool.false_eq_true, if_false, ih]

theorem mapPages_add (dir : PageDir) (virt phys flags a b : Nat) :
    mapPages dir virt phys flags (a + b) =
      mapPages (mapPages dir virt phys flags a) (rangePage virt a) (rangePage phys a) flags b := by
  induction b with
  | zero => rfl
  | succ b ih => rw [← add_assoc, mapPages, mapPages, ih, rangePage_pageOf, rangePage_pageOf]

theorem physOf_chunk {phys : Nat} (small : s ≤ 2) (low : phys < 2 ^ 64) (aligned : phys % levelSize s = 0)
    (inside : i < 512 ^ s) : physOf (rangePage phys i) = physOf phys + i * 4096 := by
  rw [rangePage_chunk small low aligned inside, physOf_eq, physOf_eq]
  unfold levelSize at aligned
  interval_cases s <;> omega

/-- **One step of the range loop is `512 ^ s` single calls.** -/
theorem pte_chunk_pages (dir : PageDir) (clean : Clean flags)
    (size : s = 0 ∧ extra = 0 ∨ s = 1 ∧ extra = page2MB ∨ s = 2 ∧ extra = page1GB)
    (virtLow : virt < 2 ^ 64) (virtAligned : virt % levelSize s = 0) (physLow : phys < 2 ^ 64)
    (physAligned : phys % levelSize s = 0) (v : Nat) :
    pte 3 (mmapInternal 3 dir virt phys (flags ||| extra)) v = pte 3 (mapPages dir virt phys flags (512 ^ s)) v := by
  have small : s ≤ 2 := by omega
  obtain ⟨level, hw, isPresent⟩ := rangeFlags clean size
  have frames := physOf_levelSize small physAligned
  rw [pte_mmapInternal 3 dir virt phys _ v (by omega), level]
  by_cases same : SameSlot s 3 virt v
  · have place : v % levelSize s / 4096 < 512 ^ s := by
      unfold levelSize
      interval_cases s <;> omega
    have chunk := fun i inside => sameSlot_chunk (v := v) small virtAligned i inside
    have last := pte_mapPages_last dir clean virt phys place (v := v)
      (by rw [rangePage_chunk small virtLow virtAligned place]; exact (chunk _ place).mpr ⟨same, rfl⟩)
      (fun j inside later here => by
        rw [rangePage_chunk small virtLow virtAligned inside] at here
        have := ((chunk j inside).mp here).2
        omega)
    rw [if_pos same, last, mappedEntry_eq v small frames, isPresent]
    have page := pageAddress_add (v := v) (pageAddress_physOf phys) small frames
    rw [leafEntry, leafEntry, hw, page.physOf_eq, physOf_chunk small physLow physAligned place, pageOffset]
  · rw [if_neg same, pte_mapPages_other dir clean virt phys fun i inside here => ?_]
    rw [rangePage_chunk small virtLow virtAligned inside] at here
    exact same ((sameSlot_chunk small virtAligned i inside).mp here).1

/-! ### The loop -/

/-- A step of the loop: a chunk of `512 ^ s` pages, as large as the alignment from frame 0 on allows. -/
structure Step (virt phys m s extra : Nat) : Prop where
  size : s = 0 ∧ extra = 0 ∨ s = 1 ∧ extra = page2MB ∨ s = 2 ∧ extra = page1GB
  fits : 512 ^ s ≤ m
  virtAligned : virt % levelSize s = 0
  physAligned : phys % levelSize s = 0
  largest : phys = 0 → ∀ s' ≤ 2, 512 ^ s' ≤ m → virt % levelSize s' = 0 → s' ≤ s

theorem levelSize_eq (s : Nat) : levelSize s = 512 ^ s * pageSize4KB := by
  rw [levelSize, pow_add, pow_mul, mul_comm]
  rfl

/-- **What one turn of the loop does**: it maps a page of the largest size that the bytes left and the two
addresses allow. -/
theorem mmapRangeLoop_turn (fuel : Nat) (dir : PageDir) (virt phys flags : Nat) {bytes : Nat} (more : bytes ≠ 0) :
    ∃ s extra, (s = 0 ∧ extra = 0 ∨ s = 1 ∧ extra = page2MB ∨ s = 2 ∧ extra = page1GB) ∧
      (s = 0 ∨ levelSize s ≤ bytes ∧ virt % levelSize s = 0 ∧ phys % levelSize s = 0) ∧
      (∀ s' ≤ 2, levelSize s' ≤ bytes → virt % levelSize s' = 0 → phys % levelSize s' = 0 → s' ≤ s) ∧
      mmapRangeLoop (fuel + 1) dir virt phys bytes flags =
        mmapRangeLoop fuel (mmapInternal 3 dir virt phys (flags ||| extra)) (u64 (virt + levelSize s))
          (if phys ≠ 0 then u64 (phys + levelSize s) else 0) (bytes - levelSize s) flags := by
  have sizes : levelSize 0 = pageSize4KB ∧ levelSize 1 = pageSize2MB ∧ levelSize 2 = pageSize1GB := by decide
  have frame : ∀ size, (phys = 0 ∨ phys % size = 0) ↔ phys % size = 0 := fun size =>
    or_iff_right_of_imp fun zero => by rw [zero, zero_mod]
  rw [mmapRangeLoop, if_neg more, ← sizes.2.2, ← sizes.2.1, ← sizes.1]
  simp only [frame]
  by_cases giga : levelSize 2 ≤ bytes ∧ virt % levelSize 2 = 0 ∧ phys % levelSize 2 = 0
  · rw [if_pos giga]
    exact ⟨2, page1GB, .inr (.inr ⟨rfl, rfl⟩), .inr giga, fun s' small _ _ _ => small, rfl⟩
  rw [if_neg giga]
  by_cases mega : levelSize 1 ≤ bytes ∧ virt % levelSize 1 = 0 ∧ phys % levelSize 1 = 0
  · rw [if_pos mega]
    refine ⟨1, page2MB, .inr (.inl ⟨rfl, rfl⟩), .inr mega, fun s' small fits virtAligned physAligned => ?_, rfl⟩
    by_contra above
    obtain rfl : s' = 2 := by omega
    exact giga ⟨fits, virtAligned, physAligned⟩
  · rw [if_neg mega]
    refine ⟨0, 0, .inl ⟨rfl, rfl⟩, .inl rfl, fun s' small fits virtAligned physAligned => ?_, by rw [or_zero]⟩
    by_contra above
    obtain rfl | rfl : s' = 1 ∨ s' = 2 := by omega
    · exact mega ⟨fits, virtAligned, physAligned⟩
    · exact giga ⟨fits, virtAligned, physAligned⟩

theorem mmapRangeLoop_done (fuel : Nat) (dir : PageDir) (virt phys flags : Nat) :
    mmapRangeLoop fuel dir virt phys 0 flags = dir := by
  cases fuel <;> simp [mmapRangeLoop]

theorem mmapRangeLoop_keeps {P : PageDir → Prop} {bytes : Nat}
    (step : ∀ dir virt phys flags, physOf phys % levelSize (mappedLevel flags) = 0 → P dir →
      P (mmapInternal 3 dir virt phys flags)) (clean : Clean flags) (holds : P dir) :
    P (mmapRangeLoop fuel dir virt phys bytes flags) := by
  induction fuel generalizing dir virt phys bytes with
  | zero => exact holds
  | succ fuel ih =>
    by_cases done : bytes = 0
    · rw [done, mmapRangeLoop_done]
      exact holds
    obtain ⟨s, extra, size, chunk, -, turn⟩ := mmapRangeLoop_turn fuel dir virt phys flags done
    rw [turn]
    refine ih (step dir virt phys _ ?_ holds)
    rw [(rangeFlags clean size).1]
    -- a huge step is taken only from an aligned frame
    obtain rfl | ⟨-, -, aligned⟩ := chunk
    · exact physOf_aligned phys
    · exact physOf_levelSize (by omega) aligned

theorem wf_pagingMultipleMmap (virt phys sizeInPages : Nat) (clean : Clean flags) (wf : Wf 3 dir) :
    Wf 3 (pagingMultipleMmap dir virt phys sizeInPages flags) :=
  mmapRangeLoop_keeps (fun _ virt phys flags aligned wf => wf_mmapInternal_any virt phys flags wf aligned) clean wf

theorem mmapRangeLoop_kernel (fuel : Nat) (phys flags : Nat) {bytes : Nat} (wf : Wf 3 dir)
    (low : 2 ^ 64 - 2 ^ 39 ≤ virt) (high : virt < 2 ^ 64) (fits : virt + bytes ≤ 2 ^ 64 + 4095)
    (whole : bytes % 4096 = 0) :
    Wf 3 (mmapRangeLoop fuel dir virt phys bytes flags) ∧
      ∀ w, UserAddr w → pte 3 (mmapRangeLoop fuel dir virt phys bytes flags) w = pte 3 dir w := by
  induction fuel generalizing dir virt phys bytes with
  | zero => exact ⟨wf, fun w _ => rfl⟩
  | succ fuel ih =>
    by_cases done : bytes = 0
    · rw [done, mmapRangeLoop_done]
      exact ⟨wf, fun w _ => rfl⟩
    obtain ⟨s, extra, size, chunk, -, turn⟩ := mmapRangeLoop_turn fuel dir virt phys flags done
    have kernel : 256 ≤ tableIndex 3 virt := le_tableIndex_kernel low high
    have wf' := wf_mmapInternal_kernel phys (flags ||| extra) wf kernel
    have pages : levelSize s % 4096 = 0 ∧ 0 < levelSize s := by
      obtain ⟨rfl, -⟩ | ⟨rfl, -⟩ | ⟨rfl, -⟩ := size <;> decide
    have long : levelSize s ≤ bytes := by
      obtain rfl | larger := chunk
      · show 4096 ≤ bytes
        omega
      · exact larger.1
    rw [turn]
    by_cases last : bytes = levelSize s
    · rw [last, Nat.sub_self, mmapRangeLoop_done]
      exact ⟨wf', fun w isUser => pte_mmapInternal_kernel phys _ kernel isUser⟩
    · rw [u64_of_lt (by omega)]
      obtain ⟨wfRest, rest⟩ := ih _ wf' (show 2 ^ 64 - 2 ^ 39 ≤ virt + levelSize s by omega) (by omega)
        (show virt + levelSize s + (bytes - levelSize s) ≤ _ by omega) (by omega)
      exact ⟨wfRest, fun w isUser => (rest w isUser).trans (pte_mmapInternal_kernel phys _ kernel isUser)⟩

theorem mmapRangeLoop_step (fuel : Nat) (dir : PageDir) (clean : Clean flags) (virtPage : PageStart virt)
    (physPage : PageStart phys) (positive : 0 < m) :
    ∃ s extra phys', Step virt phys m s extra ∧ PageStart phys' ∧
      phys' = (if phys ≠ 0 then rangePage phys (512 ^ s) else 0) ∧
      (∀ v, pte 3 (mmapInternal 3 dir virt phys (flags ||| extra)) v = pte 3 (mapPages dir virt phys flags (512 ^ s)) v) ∧
      mmapRangeLoop (fuel + 1) dir virt phys (m * 4096) flags =
        mmapRangeLoop fuel (mmapInternal 3 dir virt phys (flags ||| extra)) (rangePage virt (512 ^ s)) phys'
          ((m - 512 ^ s) * 4096) flags := by
  obtain ⟨s, extra, size, chunk, largest, turn⟩ :=
    mmapRangeLoop_turn fuel dir virt phys flags (show m * 4096 ≠ 0 by omega)
  have pages : ∀ s, levelSize s ≤ m * 4096 ↔ 512 ^ s ≤ m := fun s => by
    rw [levelSize_eq]
    exact Nat.mul_le_mul_right_iff (by decide)
  have whole : levelSize s ≤ m * 4096 ∧ virt % levelSize s = 0 ∧ phys % levelSize s = 0 := by
    obtain rfl | larger := chunk
    · exact ⟨(pages 0).mpr positive, virtPage.aligned, physPage.aligned⟩
    · exact larger
  refine ⟨s, extra, _, ⟨size, (pages s).mp whole.1, whole.2.1, whole.2.2, fun zero s' small fits aligned => ?_⟩, ?_, rfl,
    pte_chunk_pages dir clean size virtPage.low whole.2.1 physPage.low whole.2.2, ?_⟩
  · exact largest s' small ((pages s').mpr fits) aligned (by rw [zero, zero_mod])
  · split_ifs
    · exact physPage.page _
    · exact .zero
  · rw [turn, rangePage, rangePage, levelSize_eq, Nat.sub_mul]
    rfl

theorem Step.oneStep_iff {virt : Nat} (step : Step virt 0 m s extra) : OneStep virt m ↔ m = 512 ^ s := by
  have fits := step.fits
  have virtAligned := step.virtAligned
  have largest := step.largest rfl
  have small : s ≤ 2 := by
    have := step.size
    omega
  constructor
  · rintro (rfl | ⟨rfl, aligned⟩ | ⟨rfl, aligned⟩)
    · interval_cases s <;> omega
    · have := largest 1 (by decide) (by decide) aligned
      interval_cases s <;> omega
    · have := largest 2 (by decide) (by decide) aligned
      obtain rfl : s = 2 := by omega
      rfl
  · rintro rfl
    interval_cases s
    · exact .inl rfl
    · exact .inr (.inl ⟨rfl, virtAligned⟩)
    · exact .inr (.inr ⟨rfl, virtAligned⟩)

theorem Advances.rest {virt phys c flags : Nat} (advances : Advances virt phys m flags) :
    Advances (rangePage virt c) (rangePage phys c) (m - c) flags := by
  intro isPresent k inside zero
  rw [rangePage_pageOf] at zero ⊢
  have there := advances isPresent (c + k) (by omega) zero
  rwa [show m - (c + k) = m - c - k by omega] at there

/-- The loop maps what one call for every page would. -/
theorem pte_mmapRangeLoop (dir : PageDir) (clean : Clean flags) (virtPage : PageStart virt)
    (physPage : PageStart phys) (enough : m ≤ fuel) (advances : Advances virt phys m flags) (v : Nat) :
    pte 3 (mmapRangeLoop fuel dir virt phys (m * 4096) flags) v = pte 3 (mapPages dir virt phys flags m) v := by
  -- by induction on the turns, over what is left of the range
  induction fuel generalizing dir virt phys m with
  | zero =>
    obtain rfl : m = 0 := by omega
    rfl
  | succ fuel ih =>
    rcases Nat.eq_zero_or_pos m with rfl | positive
    · rfl
    obtain ⟨s, extra, phys', step, physPage', next, chunk, turn⟩ :=
      mmapRangeLoop_step fuel dir clean virtPage physPage positive
    have count : 0 < 512 ^ s := Nat.pow_pos (by decide)
    have fits := step.fits
    have whole : m = 512 ^ s + (m - 512 ^ s) := by omega
    have split := mapPages_add dir virt phys flags (512 ^ s) (m - 512 ^ s)
    rw [← whole] at split
    rw [turn, split]
    -- the rest of the range, from the frame where single calls go on
    have rest := fun advances' => (ih _ (virtPage.page _) physPage' (by omega) advances').trans
      (pte_mapPages_congr chunk clean (rangePage virt (512 ^ s)) phys' (m - 512 ^ s) v)
    by_cases zero : phys = 0
    · subst zero
      cases isPresent : present flags with
      | true =>
        -- frame 0 of a present mapping: nothing is left
        have last : m - 512 ^ s = 0 := by
          have one := advances isPresent 0 positive (rangePage_zero (by decide))
          rw [rangePage_zero virtPage.low, Nat.sub_zero] at one
          rw [← step.oneStep_iff.mp one, Nat.sub_self]
        rw [last, Nat.zero_mul, mmapRangeLoop_done]
        exact chunk v
      | false =>
        rw [rest fun here => by rw [isPresent] at here; cases here]
        exact pte_mapPages_absent _ clean isPresent _ _ _ _ v
    · rw [if_pos zero] at next
      subst next
      exact rest advances.rest

theorem wfAll_mapPages (clean : Clean flags) (wf : WfAll dir) (n : Nat) : WfAll (mapPages dir virt phys flags n) := by
  induction n with
  | zero => exact wf
  | succ n ih =>
    refine wfAll_mmapInternal _ _ _ ih fun _ => ?_
    rw [mappedLevel_clean clean]
    exact physOf_aligned _

theorem pte_mmapRangeLoop_other (clean : Clean flags) (virtPage : PageStart virt) (physPage : PageStart phys)
    (outside : ∀ i < m, ¬ SameSlot 0 3 (rangePage virt i) v) :
    pte 3 (mmapRangeLoop fuel dir virt phys (m * 4096) flags) v = pte 3 dir v := by
  induction fuel generalizing dir virt phys m with
  | zero => rfl
  | succ fuel ih =>
    rcases Nat.eq_zero_or_pos m with rfl | positive
    · rw [Nat.zero_mul, mmapRangeLoop_done]
    obtain ⟨s, extra, phys', step, physPage', -, chunk, turn⟩ :=
      mmapRangeLoop_step fuel dir clean virtPage physPage positive
    have fits := step.fits
    rw [turn, ih (virtPage.page _) physPage' fun i less => ?_, chunk]
    · exact pte_mapPages_other dir clean virt phys fun i less => outside i (by omega)
    · rw [rangePage_pageOf]
      exact outside _ (by omega)

/-! ### Ranges below the user limit -/

def rangeEntry (virt phys flags w : Nat) : Nat :=
  if present flags then leafEntry (phys + (w - virt) / 4096 * 4096) flags else 0

theorem rangeEntry_frame (virtAligned : virt % 4096 = 0) (physAligned : phys % 4096 = 0)
    (isPresent : present flags) (first : virt ≤ w) (low : phys + (w - virt) < 2 ^ 52) :
    present (rangeEntry virt phys flags w) ∧
      physOf (rangeEntry virt phys flags w) + w % 4096 = phys + (w - virt) := by
  have page : PageAddress (phys + (w - virt) / 4096 * 4096) := ⟨by omega, by omega⟩
  rw [rangeEntry, if_pos isPresent, present_leafEntry, physOf_leafEntry, page.physOf_eq]
  exact ⟨isPresent, by omega⟩

/-- The pages of a range that is mapped or unmapped: its frames, if it has any, are whole and inside
the address space of frames; without frames nothing is mapped. -/
def RangeFrames (phys bytes flags : Nat) : Prop :=
  (phys = 0 ∧ present flags = false) ∨ (phys ≠ 0 ∧ phys % 4096 = 0 ∧ phys + bytes ≤ 2 ^ 52)

/-- **Mapping or unmapping a range of pages** gives its addresses their entries, whatever the tables are. -/
theorem pte_pagingMultipleMmap (dir : PageDir) (clean : Clean flags) (virtAligned : virt % 4096 = 0)
    (virtLow : virt + sizeInPages * 4096 ≤ 2 ^ 47) (frames : RangeFrames phys (sizeInPages * 4096) flags) :
    (Wf 3 dir → Wf 3 (pagingMultipleMmap dir virt phys sizeInPages flags)) ∧
      ∀ w < 2 ^ 47, pte 3 (pagingMultipleMmap dir virt phys sizeInPages flags) w =
        if virt ≤ w ∧ w < virt + sizeInPages * 4096 then rangeEntry virt phys flags w
        else pte 3 dir w := by
  refine ⟨wf_pagingMultipleMmap virt phys sizeInPages clean, fun w below => ?_⟩
  have physPage : PageStart phys := by
    obtain ⟨rfl, -⟩ | ⟨-, aligned, bound⟩ := frames
    · exact .zero
    · exact ⟨by omega, aligned⟩
  have frame : ∀ i < sizeInPages, present flags → rangePage phys i = phys + i * 4096 ∧ 0 < phys := by
    intro i inside isPresent
    obtain ⟨-, absent⟩ | ⟨nonzero, -, bound⟩ := frames
    · rw [isPresent] at absent
      cases absent
    · exact ⟨u64_of_lt (by unfold pageSize4KB; omega), by omega⟩
  have advances : Advances virt phys sizeInPages flags := fun isPresent k inside zero => by
    have := frame k inside isPresent
    omega
  have slot : ∀ i < sizeInPages, SameSlot 0 3 (rangePage virt i) w ↔ virt ≤ w ∧ i = (w - virt) / 4096 := by
    intro i inside
    rw [sameSlot_zero_iff, rangePage, pageSize4KB, u64_of_lt (by omega)]
    omega
  rw [pagingMultipleMmap, pageSize4KB, u64_of_lt (by omega),
    pte_mmapRangeLoop dir clean ⟨by omega, virtAligned⟩ physPage le_rfl advances]
  by_cases inside : virt ≤ w ∧ w < virt + sizeInPages * 4096
  · have place : (w - virt) / 4096 < sizeInPages := by omega
    rw [if_pos inside, rangeEntry, pte_mapPages_last dir clean virt phys place ((slot _ place).mpr ⟨inside.1, rfl⟩)
      fun j less later same => absurd ((slot j less).mp same).2 (by omega)]
    cases isPresent : present flags with
    | false => rfl
    | true => rw [(frame _ place isPresent).1]
  · rw [if_neg inside, pte_mapPages_other dir clean virt phys fun i less same => ?_]
    have := (slot i less).mp same
    omega

/-- Below the user limit a range is mapped page by page. -/
theorem pagingMultipleMmap_spec (wf : Wf 3 dir) (clean : Clean flags) (virtAligned : virt % 4096 = 0)
    (virtLow : virt + sizeInPages * 4096 ≤ 2 ^ 47) (frames : RangeFrames phys (sizeInPages * 4096) flags) :
    Wf 3 (pagingMultipleMmap dir virt phys sizeInPages flags) ∧
      ∀ w < 2 ^ 47, pte 3 (pagingMultipleMmap dir virt phys sizeInPages flags) w =
        if virt ≤ w ∧ w < virt + sizeInPages * 4096 then rangeEntry virt phys flags w
        else pte 3 dir w :=
  (pte_pagingMultipleMmap dir clean virtAligned virtLow frames).imp_left fun keeps => keeps wf

/-! ### Frame 0 before the last step -/

theorem rangePage_apart {virt j : Nat} (virtAligned : virt % 4096 = 0) (short : n ≤ 2 ^ 36) (inside : j < n)
    (less : i < j) : ¬ SameSlot 0 3 (rangePage virt j) (rangePage virt i) := by
  rw [sameSlot_zero_iff]
  unfold rangePage u64 pageSize4KB
  omega

/-- The loop comes to frame 0 with a step, since no step passes the end of the frame addresses. -/
theorem mmapRangeLoop_reach (dir : PageDir) (clean : Clean flags) {k : Nat} (virtPage : PageStart virt)
    (physPage : PageStart phys) (enough : m ≤ fuel) (short : m ≤ 2 ^ 36) (inside : k < m) (zero : rangePage phys k = 0) :
    ∃ fuel' dir', m - k ≤ fuel' ∧ mmapRangeLoop fuel dir virt phys (m * 4096) flags =
      mmapRangeLoop fuel' dir' (rangePage virt k) 0 ((m - k) * 4096) flags := by
  induction fuel generalizing dir virt phys m k with
  | zero => omega
  | succ fuel ih =>
    by_cases now : phys = 0
    · subst now
      obtain rfl : k = 0 := by
        unfold rangePage u64 pageSize4KB at zero
        omega
      exact ⟨fuel + 1, dir, by omega, by rw [rangePage_zero virtPage.low, Nat.sub_zero]⟩
    obtain ⟨s, extra, phys', step, physPage', next, -, turn⟩ :=
      mmapRangeLoop_step fuel dir clean virtPage physPage (Nat.zero_lt_of_lt inside)
    rw [if_pos now] at next
    subst next
    have aligned := step.physAligned
    have before : 512 ^ s ≤ k := by
      have low := physPage.low
      have size := step.size
      have small : s ≤ 2 := by omega
      unfold rangePage u64 pageSize4KB at zero
      unfold levelSize at aligned
      interval_cases s <;> omega
    obtain ⟨c, rfl⟩ := Nat.exists_eq_add_of_le before
    have count : 0 < 512 ^ s := Nat.pow_pos (by decide)
    rw [← rangePage_pageOf] at zero
    rw [turn, ← rangePage_pageOf virt, ← Nat.sub_sub]
    exact ih _ (virtPage.page _) physPage' (by omega) (by omega) (by omega) zero

/-- **From frame 0 on the second step maps frame 0 again.** -/
theorem pte_mmapRangeLoop_stuck (dir : PageDir) (clean : Clean flags) (virtPage : PageStart virt)
    (enough : m ≤ fuel) (short : m ≤ 2 ^ 36) (positive : 0 < m) (isPresent : present flags) (long : ¬ OneStep virt m) :
    ∃ c, 0 < c ∧ c < m ∧ c ≤ 512 * 512 ∧
      pte 3 (mmapRangeLoop fuel dir virt 0 (m * 4096) flags) (rangePage virt c) = leafEntry 0 flags := by
  obtain ⟨fuel, rfl⟩ : ∃ f, fuel = f + 1 := ⟨fuel - 1, by omega⟩
  obtain ⟨s, extra, _, step, -, rfl, -, turn⟩ := mmapRangeLoop_step fuel dir clean virtPage .zero positive
  rw [step.oneStep_iff] at long
  have fits := step.fits
  have count : 0 < 512 ^ s := Nat.pow_pos (by decide)
  have bound : 512 ^ s ≤ 512 * 512 := by
    have size := step.size
    have small : s ≤ 2 := by omega
    exact Nat.pow_le_pow_right (by decide) small
  refine ⟨512 ^ s, count, by omega, bound, ?_⟩
  obtain ⟨fuel, rfl⟩ : ∃ f, fuel = f + 1 := ⟨fuel - 1, by omega⟩
  obtain ⟨s', extra', _, step', -, rfl, chunk, turn'⟩ := mmapRangeLoop_step fuel
    (mmapInternal 3 dir virt 0 (flags ||| extra)) clean (virtPage.page (512 ^ s)) .zero (show 0 < m - 512 ^ s by omega)
  have fits' := step'.fits
  have count' : 0 < 512 ^ s' := Nat.pow_pos (by decide)
  rw [turn, if_neg (not_not.mpr rfl), turn', if_neg (not_not.mpr rfl),
    pte_mmapRangeLoop_other clean ((virtPage.page _).page _) .zero, chunk]
  · rw [pte_mapPages_last _ clean _ _ count', if_pos isPresent, rangePage_zero (by decide)]
    · rw [rangePage_zero (virtPage.page _).low]
      exact fun _ _ _ => rfl
    · intro j less later
      rw [rangePage_pageOf]
      exact rangePage_apart virtPage.aligned short (by omega) (by omega)
  · intro i less
    rw [rangePage_pageOf, rangePage_pageOf]
    exact rangePage_apart virtPage.aligned short (by omega) (by omega)

/-- **Mapping a range page by page.** A range of fewer than `2 ^ 52` pages that comes to frame 0 with its last
step only is mapped as by single calls; a range no longer than the address space is not, otherwise. -/
theorem mmapRange_pageByPage (wf : WfAll dir) (virtLow : virt < 2 ^ 64) (virtAligned : virt % 4096 = 0)
    (physLow : phys < 2 ^ 64) (physAligned : phys % 4096 = 0) (clean : Clean flags) (n : Nat) :
    (n < 2 ^ 52 → Advances virt phys n flags → PageByPage dir virt phys n flags) ∧
      (n ≤ 2 ^ 36 → PageByPage dir virt phys n flags → Advances virt phys n flags) := by
  have range : n < 2 ^ 52 → pagingMultipleMmap dir virt phys n flags =
      mmapRangeLoop n dir virt phys (n * 4096) flags := by
    intro bound
    rw [pagingMultipleMmap, pageSize4KB, u64_of_lt (by omega)]
  constructor
  · intro bound advances v
    rw [range bound]
    have same := fun v => pte_mmapRangeLoop dir clean ⟨virtLow, virtAligned⟩ ⟨physLow, physAligned⟩ le_rfl advances v
    have wfRange : WfAll (mmapRangeLoop n dir virt phys (n * 4096) flags) :=
      mmapRangeLoop_keeps (fun _ virt phys flags aligned wf => wfAll_mmapInternal virt phys flags wf fun _ => aligned)
        clean wf
    have wfPages : WfAll (mapPages dir virt phys flags n) := wfAll_mapPages clean wf n
    by_cases inside : InPages virt n v
    · rw [if_pos inside]
      exact ⟨by rw [vaddrToPaddr_all wfRange, vaddrToPaddr_all wfPages, same], same v⟩
    · rw [if_neg inside]
      have other : pte 3 (mapPages dir virt phys flags n) v = pte 3 dir v :=
        pte_mapPages_other dir clean virt phys fun i less here => inside ⟨i, less, here⟩
      exact ⟨by rw [vaddrToPaddr_all wfRange, vaddrToPaddr_all wf, same, other], (same v).trans other⟩
  · intro short pages isPresent k inside zero
    by_contra long
    obtain ⟨fuel, dir', enough, reached⟩ :=
      mmapRangeLoop_reach dir clean ⟨virtLow, virtAligned⟩ ⟨physLow, physAligned⟩ le_rfl short inside zero
    obtain ⟨c, positive, less, small, stuck⟩ := pte_mmapRangeLoop_stuck dir' clean
      (PageStart.page ⟨virtLow, virtAligned⟩ k) enough (by omega) (by omega) isPresent long
    rw [rangePage_pageOf] at stuck
    have there := pages (rangePage virt (k + c))
    rw [if_pos ⟨k + c, by omega, fun _ _ _ => rfl⟩] at there
    have single : pte 3 (mapPages dir virt phys flags n) (rangePage virt (k + c)) =
        leafEntry (rangePage phys (k + c)) flags := by
      rw [pte_mapPages_last dir clean virt phys (show k + c < n by omega) (fun _ _ _ => rfl)
        fun j inside later => rangePage_apart virtAligned short inside later, if_pos isPresent]
    have frames := there.2
    rw [range (by omega), reached, stuck, single] at frames
    -- the frame of the page would be 0 as well as `c` pages further on
    have further : rangePage phys (k + c) = c * 4096 := by
      rw [← rangePage_pageOf, zero, rangePage, zero_add, pageSize4KB, u64_of_lt (by omega)]
    have frame := congrArg physOf frames
    rw [physOf_leafEntry, physOf_leafEntry, further, physOf_of_aligned (by omega) (by omega),
      physOf_of_aligned (by omega) (by omega)] at frame
    omega

/-- Two pages. -/
theorem mmapRange_pageByPage_two : PageByPage (.empty 3) 0x1000 0x5000 2 (pagePresent ||| pageWritable) := by
  refine (mmapRange_pageByPage wfAll_empty (by decide) (by decide) (by decide) (by decide) (by constructor <;> decide)
    2).1 (by decide) fun _ k inside zero => ?_
  interval_cases k
  · exact absurd zero (by decide)
  · exact absurd zero (by decide)

/-- **A range from frame 0 on.** The second page is mapped to frame 0 and not to the second frame. -/
theorem mmapRange_frameZero : WfAll (.empty 3) ∧ Clean pagePresent ∧ ¬ PageByPage (.empty 3) 0 0 2 pagePresent := by
  refine ⟨wfAll_empty, by constructor <;> decide, fun pages => ?_⟩
  have second := pages 0x1000
  exact absurd second.1 (by decide)

end

end Voxia.Cpu
