/-
**When the walks through a directory end.**

The loops of `fat32_lookup`, `fat32_unlink`, `fat32_create` and `fat32_readdir` follow the chain of the directory, and
none of them counts its clusters. What ends them is read from the disk: an end mark, a terminator among the entries, a
row of free entries, the file itself. A chain that comes back to itself has no end mark, so it is left to the entries
of its clusters whether a walk along it ends (`walks_end_iff`).
-/

import Voxia.Fs.FatPlace
import Voxia.Fs.FatList
import Voxia.Fs.FatScan

namespace Voxia.Fs

open Lib Option

def Terminated (dirBuf : Bytes) (entries ptr : Nat) : Prop := ∃ k < entries, dirBuf (ptr + 32 * k) = 0x00

instance (dirBuf : Bytes) (entries ptr : Nat) : Decidable (Terminated dirBuf entries ptr) :=
  inferInstanceAs (Decidable (∃ k < _, _))

theorem terminated_succ (dirBuf : Bytes) (left ptr : Nat) :
    Terminated dirBuf (left + 1) ptr ↔ dirBuf ptr = 0x00 ∨ Terminated dirBuf left (ptr + 32) := by
  constructor
  · rintro ⟨k, less, zero⟩
    cases k with
    | zero => exact .inl zero
    | succ k =>
      refine .inr ⟨k, by omega, ?_⟩
      rwa [show ptr + 32 + 32 * k = ptr + 32 * (k + 1) by ring]
  · rintro (zero | ⟨k, less, zero⟩)
    · exact ⟨0, by omega, zero⟩
    · refine ⟨k + 1, by omega, ?_⟩
      rwa [show ptr + 32 * (k + 1) = ptr + 32 + 32 * k by ring]

theorem entryKind_terminator_iff (dirBuf : Bytes) (ptr : Nat) :
    entryKind dirBuf ptr = .terminator ↔ dirBuf ptr = 0x00 := by
  unfold entryKind
  split_ifs with zero
  · exact iff_of_true rfl zero
  all_goals exact iff_of_false (by decide) zero

/-! ### Names that no file has -/

theorem not_matchesPath_of_long {path : List UInt8} (long : 256 ≤ path.length) (lfn : Lfn) (dirBuf : Bytes) (ptr : Nat) :
    ¬ matchesPath lfn dirBuf ptr path := by
  rintro (⟨-, rfl⟩ | rfl)
  · have short : lfn.name.length < 256 := utf16ToUtf8_length lfn.units (by decide)
    rw [toLowercase, List.length_map] at long
    omega
  · have short := sfnName_length dirBuf ptr
    rw [toLowercase, List.length_map] at long
    omega

/-! ### `fat32_lookup` and `fat32_unlink` -/

section Loops

variable (disk : Disk) (info : FatGeometry)

def HasTerminator (c : Nat) : Prop := Terminated (disk.readCluster info c) info.entriesPerCluster 0

instance (c : Nat) : Decidable (HasTerminator disk info c) := inferInstanceAs (Decidable (Terminated _ _ _))

variable {disk info}

variable {σ : Type} {parser : Parser σ} {c : Nat}

/-- A loop over entries does not leave a cluster with a terminator, and leaves every other one if it takes no entry. -/
theorem passes_iff (none : ∀ r, ¬ parser.Takes (disk.readCluster info c) r) :
    (∀ r < info.entriesPerCluster, parser.Passes (disk.readCluster info c) r) ↔ ¬ HasTerminator disk info c := by
  simp only [Parser.Passes, none, not_false_eq_true, and_true, ne_eq, entryKind_terminator_iff, HasTerminator, Terminated,
    Nat.zero_add, not_exists, not_and]

theorem not_passes (terminated : HasTerminator disk info c) :
    ¬ ∀ r < info.entriesPerCluster, parser.Passes (disk.readCluster info c) r := by
  obtain ⟨k, less, zero⟩ := terminated
  rw [Nat.zero_add] at zero
  exact fun all => (all k less).1 ((entryKind_terminator_iff _ _).mpr zero)

/-- A cluster where a walk ends whatever the name is. -/
def StopsNames (disk : Disk) (info : FatGeometry) (c : Nat) : Prop := endOfChain ≤ c ∨ HasTerminator disk info c

/-- A walk that a name may end, ends for every name exactly if another thing ends it. -/
theorem nameWalk_ends_iff {α : Type} {scanned : List UInt8 → Nat → EntryScan α}
    (stays : ∀ path c, HasTerminator disk info c → scanned path c ≠ .exhausted)
    (leaves : ∀ path c, 256 ≤ path.length → ¬ HasTerminator disk info c → scanned path c = .exhausted) (c : Nat) :
    (∀ path, LoopEnds (walkBody disk info (scanned path)) c) ↔
      ∃ n, StopsNames disk info ((fat32GetNextCluster disk info)^[n] c) := by
  constructor
  · intro ends
    refine iterate_of_loopEnds id (StopsNames disk info) (fun c more => ⟨_, walkBody_goesOver ?_, rfl⟩)
      (ends (List.replicate 256 97))
    obtain ⟨more, missing⟩ := not_or.mp more
    exact ⟨not_le.mp more, leaves _ c List.length_replicate.ge missing⟩
  · rintro ⟨n, stop⟩ path
    refine loopEnds_of_iterate id (StopsNames disk info) (fun c stop => ?_) (fun c c' step => ?_) stop
    · rw [walkBody]
      split_ifs with more
      · have terminated := stays path c (stop.resolve_left (not_le.mpr more))
        split
        · exact ⟨_, rfl⟩
        · exact ⟨_, rfl⟩
        · contradiction
      · exact ⟨_, rfl⟩
    · rw [walkBody] at step
      split_ifs at step
      split at step
      all_goals cases step
      rfl

theorem lookup_ends_iff (c : Nat) : (∀ path, LoopEnds (walkBody disk info (lookupCluster disk info path)) c) ↔
    ∃ n, StopsNames disk info ((fat32GetNextCluster disk info)^[n] c) := by
  refine nameWalk_ends_iff (fun path c terminated => ?_) (fun path c long missing => ?_) c
  · rw [Ne, lookupCluster_exhausted_iff]
    exact not_passes terminated
  · rw [lookupCluster_exhausted_iff, passes_iff fun r taken => ?_]
    · exact missing
    · exact not_matchesPath_of_long long _ _ _ (lookupParser_takes.mp taken.2)

theorem unlink_ends_iff (c : Nat) : (∀ path, LoopEnds (walkBody disk info (unlinkCluster disk info path)) c) ↔
    ∃ n, StopsNames disk info ((fat32GetNextCluster disk info)^[n] c) := by
  refine nameWalk_ends_iff (fun path c terminated => ?_) (fun path c long missing => ?_) c
  · rw [Ne, unlinkCluster_exhausted_iff]
    exact not_passes terminated
  · rw [unlinkCluster_exhausted_iff, passes_iff fun r taken => ?_]
    · exact missing
    · exact not_matchesPath_of_long long _ _ _ (unlinkParser_takes.mp taken.2)

/-! ### `fat32_create` -/

theorem HasRow.mono {needed needed' : Nat} (less : needed' ≤ needed) (row : HasRow disk info needed c) :
    HasRow disk info needed' c := by
  obtain ⟨j, inside, free⟩ := row
  exact ⟨j, by omega, fun k below => free k (by omega)⟩

theorem entriesNeeded_le (path : List UInt8) : entriesNeeded path ≤ 21 := by
  have length := utf8ToUtf16_length path maxLongFilename
  unfold entriesNeeded lfnCount
  unfold maxLongFilename at length ⊢
  omega

theorem create_ends_iff (c : Nat) : (∀ path, LoopEnds (searchBody disk info (entriesNeeded path)) (c, c)) ↔
    ∃ n, endOfChain ≤ (fat32GetNextCluster disk info)^[n] c ∨
      HasRow disk info 21 ((fat32GetNextCluster disk info)^[n] c) := by
  constructor
  · intro ends
    have longest : entriesNeeded (List.replicate 260 97) = 21 := by decide +kernel
    have needed := (searchLoop_ends_iff (entriesNeeded_pos _) c c).mp (ends (List.replicate 260 97))
    rwa [longest] at needed
  · rintro ⟨n, stop⟩ path
    exact (searchLoop_ends_iff (entriesNeeded_pos path) c c).mpr ⟨n, stop.imp_right (HasRow.mono (entriesNeeded_le path))⟩

/-! ### `fat32_readdir` -/

def readdirNext (disk : Disk) (info : FatGeometry) (c : Nat) : Nat :=
  fat32GetNextCluster disk info (if HasTerminator disk info c then 0x0FFFFFFF else c)

def StopsListing (c : Nat) : Prop := ¬ (2 ≤ c ∧ c < endOfChain)

theorem listEntries_terminated_iff (dirBuf : Bytes) (left ptr : Nat) (lfn : Lfn) (index : Nat) :
    (listEntries dirBuf left ptr lfn index).2 ↔ Terminated dirBuf left ptr := by
  induction left generalizing ptr lfn index with
  | zero =>
    refine iff_of_false Bool.false_ne_true ?_
    rintro ⟨k, less, -⟩
    exact absurd less (Nat.not_lt_zero k)
  | succ left ih =>
    rw [listEntries, terminated_succ, ← entryKind_terminator_iff]
    cases entryKind dirBuf ptr with
    | terminator => exact iff_of_true rfl (.inl rfl)
    | deleted => exact (ih _ _ _).trans (or_iff_right (by decide)).symm
    | longName => exact (ih _ _ _).trans (or_iff_right (by decide)).symm
    | short => exact (ih _ _ _).trans (or_iff_right (by decide)).symm

theorem afterCluster_eq (c index : Nat) :
    afterCluster disk info c (clusterFiles disk info c index).2 = readdirNext disk info c := by
  have terminated : (clusterFiles disk info c index).2 ↔ HasTerminator disk info c :=
    listEntries_terminated_iff _ _ _ _ _
  unfold afterCluster readdirNext
  by_cases ends : HasTerminator disk info c
  · rw [if_pos ends, if_pos (terminated.mpr ends)]
  · rw [if_neg ends, if_neg fun flag => ends (terminated.mp flag)]

theorem listClusters_ended_iff (k c index : Nat) : (listClusters disk info k c index).2 ↔
    ∃ n < k, StopsListing ((readdirNext disk info)^[n] c) := by
  induction k generalizing c index with
  | zero => exact iff_of_false Bool.false_ne_true fun ⟨n, less, _⟩ => absurd less (Nat.not_lt_zero n)
  | succ k ih =>
    rw [listClusters]
    by_cases more : 2 ≤ c ∧ c < endOfChain
    · rw [if_pos more]
      dsimp only
      rw [afterCluster_eq, ih]
      constructor
      · rintro ⟨n, less, stop⟩
        exact ⟨n + 1, by omega, stop⟩
      · rintro ⟨n, less, stop⟩
        cases n with
        | zero => exact absurd more stop
        | succ n => exact ⟨n, by omega, stop⟩
    · rw [if_neg more]
      exact iff_of_true rfl ⟨0, Nat.succ_pos k, more⟩

theorem readdir_ends_iff (disk : Disk) (info : Fat32InternalData) :
    (∀ len pos, ∃ fuel, (fat32Readdir fuel disk info len pos).isSome) ↔
      ∃ n, StopsListing ((readdirNext disk info)^[n] info.cluster) := by
  constructor
  · intro ends
    -- a buffer of this length never gets full
    obtain ⟨fuel, returns⟩ := ends (2 ^ 31 - 1) 0
    rw [fat32Readdir, if_neg (by decide), isSome_map, readdirLoop_eq] at returns
    dsimp only at returns
    rw [fill_notFull (by decide), Bool.false_or] at returns
    split_ifs at returns with ended
    · obtain ⟨n, -, stop⟩ := (listClusters_ended_iff _ _ _).mp ended
      exact ⟨n, stop⟩
    · cases returns
  · rintro ⟨n, stop⟩ len pos
    have ended := (listClusters_ended_iff (n + 1) info.cluster 0).mpr ⟨n, Nat.lt_succ_self n, stop⟩
    refine ⟨n + 1, ?_⟩
    rw [fat32Readdir]
    split_ifs
    · rfl
    · rw [isSome_map, readdirLoop_eq]
      dsimp only
      rw [ended, Bool.or_true, if_pos rfl]
      rfl

end Loops

/-! ### All walks -/

/-- The loops over the clusters of a directory end, for every name, buffer and position. -/
structure WalksEnd (disk : Disk) (info : Fat32InternalData) : Prop where
  lookup : ∀ path, ∃ fuel, (lookupLoop disk info path fuel info.cluster).isSome
  create : ∀ path, ∃ fuel,
    (searchLoop disk info (entriesNeeded path) fuel info.cluster info.cluster).isSome
  unlink : ∀ path, ∃ fuel, (unlinkLoop disk info path fuel info.cluster).isSome
  readdir : ∀ len pos, ∃ fuel, (fat32Readdir fuel disk info len pos).isSome

/-- **The walks through a directory end** exactly if the chain comes to an end mark or to a cluster with a terminator,
to an end mark or to a cluster with 21 free entries in a row, and the walk of `fat32_readdir` comes to a value that is
not the number of a cluster. -/
theorem walks_end_iff (disk : Disk) (info : Fat32InternalData) :
    WalksEnd disk info ↔
      (∃ n, StopsNames disk info ((fat32GetNextCluster disk info)^[n] info.cluster)) ∧
      (∃ n, endOfChain ≤ (fat32GetNextCluster disk info)^[n] info.cluster ∨
        HasRow disk info 21 ((fat32GetNextCluster disk info)^[n] info.cluster)) ∧
      ∃ n, StopsListing ((readdirNext disk info)^[n] info.cluster) := by
  have ends : ∀ {σ β : Type} (body : σ → β ⊕ σ) (state : σ),
      (∃ fuel, (runLoop body fuel state).isSome) ↔ LoopEnds body state := fun body state =>
    exists_congr fun fuel => isSome_iff_exists
  rw [← readdir_ends_iff, ← create_ends_iff, ← lookup_ends_iff]
  constructor
  · intro walks
    refine ⟨fun path => ?_, fun path => ?_, walks.readdir⟩
    · rw [← ends]
      simpa only [lookupLoop_eq] using walks.lookup path
    · rw [← ends]
      simpa only [searchLoop_eq] using walks.create path
  · rintro ⟨lookup, create, readdir⟩
    have unlink := (unlink_ends_iff info.cluster).mpr ((lookup_ends_iff info.cluster).mp lookup)
    refine ⟨fun path => ?_, fun path => ?_, fun path => ?_, readdir⟩
    · simpa only [lookupLoop_eq, ends] using lookup path
    · simpa only [searchLoop_eq, ends] using create path
    · simpa only [unlinkLoop_eq, ends] using unlink path

/-- A directory of one cluster, full of entries of long names, whose FAT entry names the cluster itself. -/
def selfLoop : FatNode := smallNode fun a => if a < 2048 then smallFat 2 0 a else 0x0F

/-- No walk through this directory ends. -/
theorem walks_circle : ¬ WalksEnd selfLoop.disk selfLoop.info ∧ ∀ fuel,
    lookupLoop selfLoop.disk smallVolume [97] fuel 2 = none ∧
    searchLoop selfLoop.disk smallVolume (entriesNeeded [97]) fuel 2 2 = none ∧
    unlinkLoop selfLoop.disk smallVolume [97] fuel 2 = none ∧
    fat32Readdir fuel selfLoop.disk selfLoop.info 1024 0 = none := by
  have next : fat32GetNextCluster selfLoop.disk smallVolume 2 = 2 := by decide +kernel
  have looked : lookupEntries (selfLoop.disk.readCluster smallVolume 2) [97] smallVolume.entriesPerCluster 0 Lfn.empty =
      .exhausted := by decide +kernel
  have searched : (freeRun (selfLoop.disk.readCluster smallVolume 2) (entriesNeeded [97]) smallVolume.entriesPerCluster
      0 0 0).1 ≠ entriesNeeded [97] := by decide +kernel
  have unlinked : unlinkEntries (selfLoop.disk.readCluster smallVolume 2) [97] smallVolume.entriesPerCluster 0 Lfn.empty
      none = .exhausted := by decide +kernel
  have listed : readdirEntries (selfLoop.disk.readCluster smallVolume 2) (toInt 1024) smallVolume.entriesPerCluster 0
      Lfn.empty ⟨0, 0, 0, []⟩ = (.exhausted, ⟨0, 0, 0, []⟩) := by decide +kernel
  have lookup : ∀ fuel, lookupLoop selfLoop.disk smallVolume [97] fuel 2 = none := fun fuel => by
    induction fuel with
    | zero => rfl
    | succ fuel ih => rw [lookupLoop, if_pos (by decide), looked, next, ih]
  have endless : ¬ WalksEnd selfLoop.disk selfLoop.info := fun walks => by
    obtain ⟨fuel, ends⟩ := walks.lookup [97]
    exact absurd ((congrArg Option.isSome (lookup fuel)).symm.trans ends) Bool.false_ne_true
  refine ⟨endless, fun fuel => ⟨lookup fuel, ?_, ?_, ?_⟩⟩
  · induction fuel with
    | zero => rfl
    | succ fuel ih =>
      rw [searchLoop, if_pos (by decide)]
      dsimp only
      rw [if_neg searched, next, ih]
  · induction fuel with
    | zero => rfl
    | succ fuel ih => rw [unlinkLoop, if_pos (by decide), unlinked, next, ih]
  · have loop : readdirLoop selfLoop.disk smallVolume (toInt 1024) fuel 2 ⟨0, 0, 0, []⟩ = none := by
      induction fuel with
      | zero => rfl
      | succ fuel ih =>
        rw [readdirLoop, if_pos (by decide), listed]
        dsimp only
        rw [next, ih]
    rw [fat32Readdir, if_neg (by decide), show selfLoop.info.toFatGeometry = smallVolume from rfl,
      show selfLoop.info.cluster = 2 from rfl, loop]
    rfl

end Voxia.Fs
