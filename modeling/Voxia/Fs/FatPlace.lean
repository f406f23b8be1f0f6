/-
**Where `fat32_create` puts the entries of a new file.**

The entries go where the directory has enough free ones in a row in a cluster, and else at the start of a new cluster.
The new cluster is taken to be large enough: the 21 entries of a name of 260 UTF-16 units are 672 bytes, so they run
over the end of a buffer of one sector of 512 bytes (`nameBuffers_inside_iff`).
-/

import Voxia.Fs.FatDir
import Voxia.Fs.FatCopies
import Voxia.Lib.Loops

namespace Voxia.Fs

open Lib Option

/-! ### Free entries -/

def IsFree (dirBuf : Bytes) (p : Nat) : Prop := dirBuf (32 * p) = 0x00 ∨ dirBuf (32 * p) = 0xE5

def FreeRow (dirBuf : Bytes) (needed j : Nat) : Prop := ∀ k < needed, IsFree dirBuf (j + k)

/-- What the loop over the entries found: a row of free ones below `high`, or there is none from `low` on. -/
def RowSearched (dirBuf : Bytes) (needed low high : Nat) (result : Nat × Nat) : Prop :=
  result.1 = needed ∧ (∃ j, j + needed ≤ high ∧ FreeRow dirBuf needed j ∧ result.2 = 32 * j) ∨
    result.1 ≠ needed ∧ ∀ j, low ≤ j → j + needed ≤ high → ¬ FreeRow dirBuf needed j

variable {needed : Nat}

/-- **The loop over the entries of a cluster** finds a row of free ones, if there is one. -/
theorem freeRun_spec {dirBuf : Bytes} {left p freeCount foundOffset : Nat} (few : freeCount < needed)
    (counted : freeCount ≤ p) (start : 0 < freeCount → foundOffset = 32 * (p - freeCount))
    (free : ∀ q, p - freeCount ≤ q → q < p → IsFree dirBuf q) :
    RowSearched dirBuf needed (p - freeCount) (p + left)
      (freeRun dirBuf needed left (32 * p) freeCount foundOffset) := by
  induction left generalizing p freeCount foundOffset with
  | zero => exact .inr ⟨few.ne, fun j low high _ => by omega⟩
  | succ left ih =>
    have more : p + (left + 1) = p + 1 + left := by omega
    rw [freeRun, more]
    by_cases here : IsFree dirBuf p
    · have first : (if freeCount = 0 then 32 * p else foundOffset) = 32 * (p + 1 - (freeCount + 1)) := by
        split_ifs with none
        · rw [none, Nat.add_sub_cancel]
        · rw [start (by omega), Nat.add_sub_add_right]
      have free' : ∀ q, p + 1 - (freeCount + 1) ≤ q → q < p + 1 → IsFree dirBuf q := fun q low high => by
        by_cases last : q = p
        · exact last ▸ here
        · exact free q (by omega) (by omega)
      rw [if_pos (show dirBuf (32 * p) = 0x00 ∨ dirBuf (32 * p) = 0xE5 from here), first]
      by_cases enough : freeCount + 1 = needed
      · rw [if_pos enough]
        exact .inl ⟨enough, _, by omega, fun k less => free' _ (by omega) (by omega), rfl⟩
      · have searched := ih (p := p + 1) (by omega) (by omega) (fun _ => rfl) free'
        rw [Nat.add_sub_add_right] at searched ⊢
        rw [if_neg enough]
        exact searched
    · rw [if_neg (show ¬ (dirBuf (32 * p) = 0x00 ∨ dirBuf (32 * p) = 0xE5) from here)]
      have searched := @ih (p + 1) 0 foundOffset (by omega) (by omega) (fun positive => absurd positive (by omega))
        fun q low high => by omega
      refine searched.imp_right fun ⟨other, missing⟩ => ⟨other, fun j low high row => ?_⟩
      -- a row does not lead over the entry in use, and those before it are too few
      by_cases before : j ≤ p
      · refine here ?_
        have free := row (p - j) (by omega)
        rwa [Nat.add_sub_cancel' before] at free
      · exact missing j (by omega) high row

def HasRow (disk : Disk) (info : FatGeometry) (needed c : Nat) : Prop :=
  ∃ j, j + needed ≤ info.entriesPerCluster ∧ FreeRow (disk.readCluster info c) needed j

section

variable (disk : Disk) (info : FatGeometry)

theorem freeRun_cluster (some : 0 < needed) (c : Nat) :
    RowSearched (disk.readCluster info c) needed 0 info.entriesPerCluster
      (freeRun (disk.readCluster info c) needed info.entriesPerCluster 0 0 0) := by
  have searched := @freeRun_spec needed (disk.readCluster info c) info.entriesPerCluster 0 0 0 some le_rfl
    (fun positive => absurd positive (by omega)) fun q low high => by omega
  rwa [Nat.zero_add] at searched

theorem freeRun_eq_iff (some : 0 < needed) (c : Nat) :
    (freeRun (disk.readCluster info c) needed info.entriesPerCluster 0 0 0).1 = needed ↔
      HasRow disk info needed c := by
  rcases freeRun_cluster disk info some c with ⟨found, j, inside, row, -⟩ | ⟨other, missing⟩
  · exact iff_of_true found ⟨j, inside, row⟩
  · exact iff_of_false other fun ⟨j, inside, row⟩ => missing j (Nat.zero_le _) inside row

/-! ### The loop over the clusters -/

def searchBody (needed : Nat) (state : Nat × Nat) : (Nat × Option Place) ⊕ (Nat × Nat) :=
  if state.1 < endOfChain then
    let dirBuf := disk.readCluster info state.1
    let result := freeRun dirBuf needed info.entriesPerCluster 0 0 0
    if result.1 = needed then .inl (state.1, some ⟨fat32ClusterToSector info state.1, dirBuf, result.2⟩)
    else .inr (fat32GetNextCluster disk info state.1, state.1)
  else .inl (state.2, none)

theorem searchLoop_eq (needed fuel currentCluster lastCluster : Nat) :
    searchLoop disk info needed fuel currentCluster lastCluster =
      runLoop (searchBody disk info needed) fuel (currentCluster, lastCluster) := by
  induction fuel generalizing currentCluster lastCluster with
  | zero => rfl
  | succ fuel ih =>
    rw [searchLoop, runLoop, searchBody]
    by_cases more : currentCluster < endOfChain
    · dsimp only
      split_ifs with found
      · rfl
      · exact ih _ _
    · rw [if_neg more, if_neg more]

def ChainEnds (c : Nat) : Prop :=
  ∃ n, endOfChain ≤ (fat32GetNextCluster disk info)^[n] c

end

section Search

variable {disk : Disk} {info : FatGeometry} {needed : Nat} (some' : 0 < needed)

include some'

theorem searchLoop_ends_iff (c last : Nat) :
    LoopEnds (searchBody disk info needed) (c, last) ↔
      ∃ n, endOfChain ≤ (fat32GetNextCluster disk info)^[n] c ∨
        HasRow disk info needed ((fat32GetNextCluster disk info)^[n] c) := by
  refine loopEnds_iff_iterate Prod.fst (fun c => endOfChain ≤ c ∨ HasRow disk info needed c) (fun state stop => ?_)
    (fun state goes => ?_) (c, last)
  · rw [searchBody]
    by_cases more : state.1 < endOfChain
    · have found := (freeRun_eq_iff disk info some' state.1).mpr (stop.resolve_left (by omega))
      rw [if_pos more]
      rw [if_pos found]
      exact ⟨_, rfl⟩
    · rw [if_neg more]
      exact ⟨_, rfl⟩
  · obtain ⟨more, missing⟩ := not_or.mp goes
    refine ⟨(fat32GetNextCluster disk info state.1, state.1), ?_, rfl⟩
    rw [searchBody, if_pos (by omega)]
    rw [if_neg fun found => missing ((freeRun_eq_iff disk info some' state.1).mp found)]

/-- What the search returns: a row that lies in its cluster, or that the chain has come to its end. -/
theorem searchLoop_result {fuel c last last' : Nat} {place : Option Place}
    (result : searchLoop disk info needed fuel c last = some (last', place)) :
    (∃ row, place = some row ∧ ∃ c j, row.dirBuf = disk.readCluster info c ∧ row.offset = 32 * j ∧
      j + needed ≤ info.entriesPerCluster ∧ FreeRow row.dirBuf needed j) ∨
    place = none ∧ ChainEnds disk info c := by
  induction fuel generalizing c last with
  | zero => cases result
  | succ fuel ih =>
    rw [searchLoop] at result
    by_cases more : c < endOfChain
    · rw [if_pos more] at result
      dsimp only at result
      rcases freeRun_cluster disk info some' c with ⟨found, j, inside, row, offset⟩ | ⟨other, -⟩
      · rw [if_pos found] at result
        obtain ⟨-, rfl⟩ := Prod.mk.inj (some.inj result)
        exact .inl ⟨_, rfl, c, j, rfl, offset, inside, row⟩
      · rw [if_neg other] at result
        exact (ih result).imp_right fun ⟨nothing, n, ends⟩ => ⟨nothing, n + 1, ends⟩
    · rw [if_neg more] at result
      obtain ⟨-, rfl⟩ := Prod.mk.inj (some.inj result)
      exact .inr ⟨rfl, 0, not_lt.mp more⟩

end Search

/-! ### The buffers -/

theorem entriesNeeded_pos (path : List UInt8) : 0 < entriesNeeded path := Nat.succ_pos _

/-- **No buffer of a name is overrun.** The units of a long name are read within their buffer and its bytes fit in
`name`, whatever the directory holds; the entries of a new file lie in the buffer of the cluster. -/
structure NameBuffersInside (s : FatNode) (path : List UInt8) : Prop where
  reads : ∀ lfn : Lfn, ∀ r ∈ (fat32Utf16ToUtf8 lfn.units 256).2, r < maxLongFilename
  writes : ∀ lfn : Lfn, (fat32Utf16ToUtf8 lfn.units 256).1.length + 1 ≤ 256
  entries : ∀ fuel place s', findPlace fuel s path = some (some place, s') →
    ∀ i < entriesNeeded path, place.offset + 32 * i + 32 ≤ s.info.bytesPerCluster

theorem WellFormed.entriesPerCluster_eq {geo : FatGeometry} (wf : WellFormed geo) :
    32 * geo.entriesPerCluster = geo.bytesPerCluster := by
  obtain ⟨k, sector⟩ := wf.slots
  have whole : geo.bytesPerCluster = 32 * (geo.sectorsPerCluster * k) := by
    rw [wf.bytesPerCluster_eq, sector]
    ring
  unfold FatGeometry.entriesPerCluster
  omega

/-- A new cluster for the directory: it is found if one is free, and the entries go to its start. -/
theorem growDirectory_place {s : FatNode} (wf : WellFormed s.info) (lastCluster : Nat) :
    (∃ d, ValidCluster s.info d ∧ fatOf s.info s.disk.bytes d = 0 ∧
      (growDirectory s lastCluster).1 = some ⟨fat32ClusterToSector s.info d, fun _ => 0, 0⟩) ∨
    (growDirectory s lastCluster).1 = none ∧
      ∀ d, ValidCluster s.info d → fatOf s.info s.disk.bytes d ≠ 0 := by
  rcases allocate_first wf with ⟨none, all⟩ | ⟨j, below, -, free, found⟩
  · refine .inr ⟨?_, all⟩
    rw [growDirectory, none]
    dsimp only
    rw [if_neg fun both => both.1 rfl]
  · have valid := ring_valid s.info s.searchStart j (by omega)
    have numbers := wf.numbers
    have low := valid.1
    have high := valid.2
    have below : s.info.ring s.searchStart j < endOfChain := lt_of_lt_of_le high (by unfold endOfChain; omega)
    refine .inl ⟨_, valid, free, ?_⟩
    rw [growDirectory, found]
    dsimp only
    rw [if_pos ⟨by omega, below⟩]
    rfl

/-- **The buffers are large enough** exactly if the entries fit in a cluster, the chain of the directory has no end, or
no cluster is free. -/
theorem nameBuffers_inside_iff (s : FatNode) (wf : WellFormed s.info) (path : List UInt8) :
    NameBuffersInside s path ↔
      32 * entriesNeeded path ≤ s.info.bytesPerCluster ∨
      ¬ ChainEnds s.disk s.info s.info.cluster ∨
      ∀ d, ValidCluster s.info d → fatOf s.info s.disk.bytes d ≠ 0 := by
  have whole := wf.entriesPerCluster_eq
  have some' := entriesNeeded_pos path
  constructor
  · intro inside
    by_contra bad
    simp only [not_or, not_not, not_le] at bad
    obtain ⟨large, ends, free⟩ := bad
    -- no cluster has so many entries, so the search comes to the end of the chain
    obtain ⟨n, ends⟩ := ends
    obtain ⟨fuel, ⟨last, place⟩, run⟩ := (searchLoop_ends_iff some' s.info.cluster s.info.cluster).mpr ⟨n, .inl ends⟩
    rw [← searchLoop_eq] at run
    rcases searchLoop_result some' run with ⟨row, -, c, j, -, -, fits, -⟩ | ⟨rfl, -⟩
    · omega
    rcases growDirectory_place wf last with ⟨d, -, -, found⟩ | ⟨-, full⟩
    · have result : findPlace fuel s path = some ((growDirectory s last).1, (growDirectory s last).2) := by
        rw [findPlace, run]
        rfl
      rw [found] at result
      have last := inside.entries fuel _ _ result (entriesNeeded path - 1) (by omega)
      omega
    · exact free full
  · intro large
    refine ⟨fun lfn => utf16ToUtf8_reads _ (by decide) (by decide), fun lfn => utf16ToUtf8_length _ (by decide),
      fun fuel place s' result i less => ?_⟩
    rw [findPlace] at result
    cases search : searchLoop s.disk s.info (entriesNeeded path) fuel s.info.cluster s.info.cluster with
    | none =>
      rw [search] at result
      cases result
    | some found =>
      obtain ⟨last, row⟩ := found
      rw [search] at result
      rcases searchLoop_result some' search with ⟨row, rfl, c, j, -, offset, fits, -⟩ | ⟨rfl, ends⟩
      · obtain ⟨same, -⟩ := Prod.mk.inj (some.inj result)
        obtain rfl := some.inj same
        omega
      · have grown : (growDirectory s last).1 = some place := congrArg Prod.fst (some.inj result)
        rcases growDirectory_place wf last with ⟨d, valid, free, found⟩ | ⟨none, -⟩
        · have fits := large.resolve_right (not_or.mpr ⟨not_not_intro ends, fun full => full d valid free⟩)
          obtain rfl := some.inj (grown.symm.trans found)
          dsimp only
          omega
        · rw [none] at grown
          cases grown

def oneCluster : FatNode := smallNode (smallFat 0x0FFFFFFF 0)

theorem nameBuffers_inside_short : NameBuffersInside oneCluster [97] :=
  (nameBuffers_inside_iff oneCluster smallVolume_wellFormed [97]).mpr (.inl (by decide))

/-- A name of 196 units needs 17 entries; a cluster has room for 16. -/
theorem nameBuffers_overrun : WellFormed oneCluster.info ∧
    ¬ NameBuffersInside oneCluster (List.replicate 196 97) := by
  refine ⟨smallVolume_wellFormed, fun inside => ?_⟩
  have run : (findPlace 2 oneCluster (List.replicate 196 97)).map (fun found => found.1.map (·.offset)) =
      some (some 0) := by decide +kernel
  obtain ⟨⟨place, s'⟩, found, start⟩ := map_eq_some_iff.mp run
  obtain ⟨place, rfl, offset⟩ := map_eq_some_iff.mp start
  have last := inside.entries 2 place s' found 16 (by decide +kernel)
  rw [offset] at last
  exact absurd last (by decide)

end Voxia.Fs
