/-
**`fat32_readdir` reads a directory in pages.**

Every call goes over the directory from its start and counts the files; those before the position are left out, the
others are put into the buffer until one does not fit. So the records of a call are a page, in the sense of
`Voxia.Lib.Pages`, of the listing, and the position is the number of files listed so far. The numbers are of type
`int`, so this is so for buffers and directories that an `int` can count (`readdir_paged`).
-/

import Voxia.Fs.FatDir
import Voxia.Fs.FatCopies
import Voxia.Lib.Pages

namespace Voxia.Fs

open Lib List Nat

/-! ### The files of a directory -/

/-- The records of the files of a cluster, from an entry on, and whether the entries end with a terminator. -/
def listEntries (dirBuf : Bytes) : Nat → Nat → Lfn → Nat → List Dirent × Bool
  | 0, _, _, _ => ([], false)
  | left + 1, ptr, lfn, index =>
    match entryKind dirBuf ptr with
    | .terminator => ([], true)
    | .deleted => listEntries dirBuf left (ptr + 32) lfn index
    | .longName => listEntries dirBuf left (ptr + 32) (lfn.readEntry dirBuf ptr) index
    | .short =>
      let rest := listEntries dirBuf left (ptr + 32) (if lfn.active then Lfn.empty else lfn) (u32 (index + 1))
      (makeDirent lfn dirBuf ptr index :: rest.1, rest.2)

/-- The records offered to the buffer one after the other; whether it is full, and what it holds then. -/
def fill (len : Int) : List Dirent → Listing → Bool × Listing
  | [], listing => (false, listing)
  | record :: rest, listing =>
    match listing.offer len record with
    | none => (true, listing)
    | some listing => fill len rest listing

theorem fill_append (len : Int) (first second : List Dirent) (listing : Listing) :
    fill len (first ++ second) listing =
      if (fill len first listing).1 then fill len first listing else fill len second (fill len first listing).2 := by
  induction first generalizing listing with
  | nil => rfl
  | cons record rest ih =>
    rw [cons_append, fill, fill]
    cases listing.offer len record with
    | none => rfl
    | some listing => exact ih listing

variable {listing : Listing} {len : Int} {disk : Disk} {k n fuel : Nat} {files : List Dirent}
  {info : Fat32InternalData}

theorem Listing.offer_index {listing' : Listing} {record : Dirent}
    (offered : listing.offer len record = some listing') : listing'.index = u32 (listing.index + 1) := by
  unfold Listing.offer at offered
  split_ifs at offered
  all_goals
    cases offered
    rfl

/-- **The loop over the entries** offers the files of the cluster. -/
theorem readdirEntries_eq (dirBuf : Bytes) (len : Int) (left ptr : Nat) (lfn : Lfn) (listing : Listing) :
    readdirEntries dirBuf len left ptr lfn listing =
      let files := listEntries dirBuf left ptr lfn listing.index
      let filled := fill len files.1 listing
      (if filled.1 then .found () else if files.2 then .terminated else .exhausted, filled.2) := by
  induction left generalizing ptr lfn listing with
  | zero => rfl
  | succ left ih =>
    rw [readdirEntries, listEntries]
    cases entryKind dirBuf ptr with
    | terminator => rfl
    | deleted => exact ih _ _ _
    | longName => exact ih _ _ _
    | short =>
      dsimp only
      rw [fill]
      cases offered : listing.offer len (makeDirent lfn dirBuf ptr listing.index) with
      | none => rfl
      | some listing' =>
        dsimp only
        rw [ih, Listing.offer_index offered]

def bump (index n : Nat) : Nat := (fun i => u32 (i + 1))^[n] index

theorem fill_index (len : Int) (files : List Dirent) (listing : Listing) :
    (fill len files listing).1 = false → (fill len files listing).2.index = bump listing.index files.length := by
  induction files generalizing listing with
  | nil => exact fun _ => rfl
  | cons record rest ih =>
    rw [fill]
    cases offered : listing.offer len record with
    | none => exact fun full => nomatch full
    | some listing' =>
      intro notFull
      rw [ih listing' notFull, Listing.offer_index offered]
      rfl

def clusterFiles (disk : Disk) (info : FatGeometry) (c index : Nat) : List Dirent × Bool :=
  listEntries (disk.readCluster info c) info.entriesPerCluster 0 Lfn.empty index

/-- The cluster `fat32_readdir` goes to from one whose entries end with a terminator, or do not. -/
def afterCluster (disk : Disk) (info : FatGeometry) (c : Nat) (terminated : Bool) : Nat :=
  fat32GetNextCluster disk info (if terminated then 0x0FFFFFFF else c)

/-- The files of the first `k` clusters `fat32_readdir` goes to, and whether its walk ends there. -/
def listClusters (disk : Disk) (info : FatGeometry) : Nat → Nat → Nat → List Dirent × Bool
  | 0, _, _ => ([], false)
  | k + 1, c, index =>
    if 2 ≤ c ∧ c < endOfChain then
      let files := clusterFiles disk info c index
      let rest := listClusters disk info k (afterCluster disk info c files.2) (bump index files.1.length)
      (files.1 ++ rest.1, rest.2)
    else ([], true)

theorem listClusters_mono {info : FatGeometry} {k' c index : Nat} (less : k ≤ k')
    (ended : (listClusters disk info k c index).2) :
    listClusters disk info k' c index = listClusters disk info k c index := by
  induction k generalizing k' c index with
  | zero => cases ended
  | succ k ih =>
    obtain ⟨k', rfl⟩ : ∃ n, k' = n + 1 := ⟨k' - 1, by omega⟩
    rw [listClusters] at ended
    rw [listClusters, listClusters]
    by_cases more : 2 ≤ c ∧ c < endOfChain
    · rw [if_pos more] at ended
      dsimp only
      rw [ih (le_of_succ_le_succ less) ended]
    · rw [if_neg more, if_neg more]

/-- **The loop over the clusters** offers the files of the directory. -/
theorem readdirLoop_eq (disk : Disk) (info : FatGeometry) (len : Int) (fuel c : Nat) (listing : Listing) :
    readdirLoop disk info len fuel c listing =
      let files := listClusters disk info fuel c listing.index
      let filled := fill len files.1 listing
      if filled.1 || files.2 then some filled.2 else none := by
  induction fuel generalizing c listing with
  | zero => rfl
  | succ fuel ih =>
    rw [readdirLoop, listClusters]
    by_cases more : 2 ≤ c ∧ c < endOfChain
    · rw [if_pos more, if_pos more, readdirEntries_eq]
      dsimp only
      rw [← clusterFiles, fill_append]
      cases full : (fill len (clusterFiles disk info c listing.index).1 listing).1 with
      | true => simp [full]
      | false =>
        have index := fill_index len _ listing full
        rw [← index]
        cases terminated : (clusterFiles disk info c listing.index).2 with
        | true => exact ih _ _
        | false => exact ih _ _
    · rw [if_neg more, if_neg more]
      rfl

/-! ### The buffer -/

theorem toInt_of_lt (less : n < 2 ^ 31) : toInt n = n := by
  rw [toInt, u32_of_lt (by omega), if_pos less]

theorem toInt_lt (n : Nat) : toInt n < 2 ^ 31 := by
  unfold toInt
  split_ifs with small
  · exact_mod_cast small
  · have : u32 n < 2 ^ 32 := mod_lt _ (by decide)
    omega

theorem intToU64_of_lt (less : n < 2 ^ 31) : intToU64 n = n := by
  rw [intToU64, u32_of_lt (by omega), if_pos less]

theorem intToU64_u32 (n : Nat) : intToU64 (u32 n) = intToU64 n := by
  have same : u32 (u32 n) = u32 n := mod_mod _ _
  rw [intToU64, same, intToU64]

def recordBytes (records : List Dirent) : Nat := (records.map Dirent.reclen).sum

/-- The files that go into the buffer: those from the position on, as long as they fit. -/
def Listing.page (listing : Listing) (len : Nat) (files : List Dirent) : List Dirent :=
  takeFit Dirent.reclen (len - listing.bytesWritten) (files.drop (listing.pos - listing.index))

structure Filled (listing : Listing) (page : List Dirent) (listing' : Listing) : Prop where
  records : listing'.records = listing.records ++ page
  bytes : listing'.bytesWritten = listing.bytesWritten + recordBytes page
  pos : listing'.pos = listing.pos + page.length

/-- The sums of the bytes written and a record stay below 2 GiB, up to the first record that does not fit. -/
def SumsInInt (len : Nat) : Nat → List Dirent → Prop
  | _, [] => True
  | bytes, record :: rest => bytes + record.reclen < 2 ^ 31 ∧
      (bytes + record.reclen ≤ len → SumsInInt len (bytes + record.reclen) rest)

theorem SumsInInt.bytes_lt {len bytes : Nat} (large : len = 2 ^ 31 - 1)
    (sums : SumsInInt len bytes files) (small : bytes < 2 ^ 31) : bytes + recordBytes files < 2 ^ 31 := by
  induction files generalizing bytes with
  | nil => exact small
  | cons record rest ih =>
    obtain ⟨first, later⟩ := sums
    have total := ih (later (by omega)) first
    rw [add_assoc] at total
    exact total

/-- **What the buffer holds at the end** of an offer of files. -/
theorem fill_spec {len : Nat} (few : listing.index + files.length < 2 ^ 31) (ahead : listing.index ≤ listing.pos)
    (room : listing.bytesWritten ≤ len)
    (sums : SumsInInt len listing.bytesWritten (files.drop (listing.pos - listing.index))) :
    Filled listing (listing.page len files) (fill len files listing).2 := by
  induction files generalizing listing with
  | nil =>
    rw [Listing.page, drop_nil]
    exact ⟨(append_nil _).symm, rfl, rfl⟩
  | cons record files ih =>
    rw [length_cons] at few
    rw [fill, Listing.offer, intToU64_of_lt (show listing.index < 2 ^ 31 by omega)]
    by_cases now : listing.pos ≤ listing.index
    · have here : listing.pos = listing.index := by omega
      rw [here, Nat.sub_self, drop_zero] at sums
      obtain ⟨small, rest⟩ := sums
      rw [if_pos now, toInt_of_lt small, Listing.page, here, Nat.sub_self, drop_zero, takeFit]
      by_cases fits : record.reclen ≤ len - listing.bytesWritten
      · rw [if_pos fits, if_neg (by omega), u32_of_lt (by omega), u32_of_lt (by omega), intToU64_of_lt (by omega)]
        obtain ⟨records, bytes, pos⟩ := @ih ⟨listing.index + 1, listing.index + 1,
          listing.bytesWritten + record.reclen, listing.records ++ [record]⟩ (by dsimp only; omega) le_rfl
          (by dsimp only; omega) (by rw [Nat.sub_self]; exact rest (by omega))
        rw [Listing.page, Nat.sub_self, drop_zero, sub_add_eq] at records bytes pos
        refine ⟨?_, ?_, ?_⟩
        · rw [records, append_assoc, singleton_append]
        · rw [bytes, add_assoc]
          rfl
        · rw [pos, here, length_cons, add_assoc, add_comm 1]
      · rw [if_neg fits, if_pos (by omega)]
        exact ⟨(append_nil _).symm, rfl, rfl⟩
    · have later : listing.pos - listing.index = listing.pos - (listing.index + 1) + 1 := by omega
      rw [later, drop_succ_cons] at sums
      have next := @ih { listing with index := listing.index + 1 } (by dsimp only; omega) (by dsimp only; omega)
        room sums
      rw [if_neg now, u32_of_lt (by omega), Listing.page, later, drop_succ_cons]
      exact ⟨next.records, next.bytes, next.pos⟩

theorem recordBytes_append (first second : List Dirent) :
    recordBytes (first ++ second) = recordBytes first + recordBytes second := by
  rw [recordBytes, map_append, sum_append_nat]
  rfl

/-- The number of bytes is that of the records, as an `int`, and never goes down. -/
theorem fill_bytes (len : Int) (files : List Dirent) (bytes : listing.bytesWritten = u32 (recordBytes listing.records)) :
    (fill len files listing).2.bytesWritten = u32 (recordBytes (fill len files listing).2.records) ∧
      recordBytes listing.records ≤ recordBytes (fill len files listing).2.records := by
  induction files generalizing listing with
  | nil => exact ⟨bytes, le_rfl⟩
  | cons record files ih =>
    rw [fill, Listing.offer]
    split_ifs
    · exact ⟨bytes, le_rfl⟩
    · have more := recordBytes_append listing.records [record]
      obtain ⟨same, atLeast⟩ := @ih ⟨u32 (listing.index + 1), intToU64 (listing.index + 1),
        u32 (listing.bytesWritten + record.reclen), listing.records ++ [record]⟩ (by
          rw [more, bytes]
          exact mod_add_mod _ _ _)
      exact ⟨same, le_trans (by rw [more]; exact le_add_right _ _) atLeast⟩
    · exact @ih { listing with index := u32 (listing.index + 1) } bytes

/-- **An overflow puts 2 GiB of records** into the buffer: the record that goes beyond seems to fit. -/
theorem fill_overflow {len : Nat} (small : len < 2 ^ 31) (short : ∀ record ∈ files, record.reclen ≤ 280)
    (few : listing.index + files.length < 2 ^ 31) (ahead : listing.index ≤ listing.pos)
    (room : listing.bytesWritten ≤ len) (bytes : listing.bytesWritten = recordBytes listing.records)
    (above : ¬ SumsInInt len listing.bytesWritten (files.drop (listing.pos - listing.index))) :
    2 ^ 31 ≤ recordBytes (fill len files listing).2.records := by
  induction files generalizing listing with
  | nil =>
    rw [drop_nil] at above
    exact absurd trivial above
  | cons record files ih =>
    rw [length_cons] at few
    have shorter : ∀ record ∈ files, record.reclen ≤ 280 := fun r member => short r (mem_cons_of_mem _ member)
    have size := short record mem_cons_self
    rw [fill, Listing.offer, intToU64_of_lt (show listing.index < 2 ^ 31 by omega)]
    by_cases now : listing.pos ≤ listing.index
    · have here : listing.pos = listing.index := by omega
      have more := recordBytes_append listing.records [record]
      have one : recordBytes [record] = record.reclen := rfl
      rw [here, Nat.sub_self, drop_zero, SumsInInt, not_and_or] at above
      rw [if_pos now]
      by_cases large : 2 ^ 31 ≤ listing.bytesWritten + record.reclen
      · have negative : toInt (listing.bytesWritten + record.reclen) < 0 := by
          rw [toInt, u32_of_lt (by omega)]
          split_ifs <;> omega
        rw [if_neg (by omega)]
        have rest := (@fill_bytes ⟨u32 (listing.index + 1), intToU64 (listing.index + 1),
          u32 (listing.bytesWritten + record.reclen), listing.records ++ [record]⟩ len files (by rw [more, one, bytes])).2
        dsimp only at rest ⊢
        omega
      · obtain ⟨fits, above⟩ := Classical.not_imp.mp (above.resolve_left (by omega))
        rw [toInt_of_lt (by omega), if_neg (by omega), u32_of_lt (by omega), u32_of_lt (by omega),
          intToU64_of_lt (by omega)]
        exact @ih ⟨listing.index + 1, listing.index + 1, listing.bytesWritten + record.reclen,
          listing.records ++ [record]⟩ shorter (by dsimp only; omega) le_rfl fits (by dsimp only; omega)
          (by rwa [Nat.sub_self])
    · have later : listing.pos - listing.index = listing.pos - (listing.index + 1) + 1 := by omega
      rw [later, drop_succ_cons] at above
      rw [if_neg now, u32_of_lt (by omega)]
      exact @ih { listing with index := listing.index + 1 } shorter (by dsimp only; omega) (by dsimp only; omega) room
        bytes above

/-- No `int` is greater than this length, so a buffer of it never gets full. -/
theorem fill_notFull (large : 2 ^ 31 - 1 ≤ len) (files : List Dirent) (listing : Listing) :
    (fill len files listing).1 = false := by
  induction files generalizing listing with
  | nil => rfl
  | cons record files ih =>
    have notFull : ¬ len < toInt (listing.bytesWritten + record.reclen) := by
      have := toInt_lt (listing.bytesWritten + record.reclen)
      omega
    rw [fill, Listing.offer, if_neg notFull]
    split_ifs
    · exact ih _
    · exact ih _

theorem fill_unlimited (files : List Dirent) (now : listing.pos ≤ intToU64 listing.index) :
    (fill (2 ^ 31) files listing).2.records = listing.records ++ files := by
  induction files generalizing listing with
  | nil => exact (append_nil _).symm
  | cons record files ih =>
    have notFull : ¬ (2 : Int) ^ 31 < toInt (listing.bytesWritten + record.reclen) := not_lt.mpr (toInt_lt _).le
    have rest := @ih ⟨u32 (listing.index + 1), intToU64 (listing.index + 1),
      u32 (listing.bytesWritten + record.reclen), listing.records ++ [record]⟩ (intToU64_u32 _).ge
    rw [append_assoc, singleton_append] at rest
    rw [fill, Listing.offer, if_pos now, if_neg notFull]
    exact rest

/-! ### A sequence of calls -/

/-- **The listing of a directory**: what `fat32_readdir` puts into an unlimited buffer. -/
def Listed (disk : Disk) (info : Fat32InternalData) (files : List Dirent) : Prop :=
  ∃ rounds, ∀ fuel, rounds ≤ fuel →
    (readdirLoop disk info (2 ^ 31) fuel info.cluster ⟨0, 0, 0, []⟩).map Listing.records = some files

theorem Listed.clusters (listed : Listed disk info files) :
    ∃ rounds, ∀ fuel, rounds ≤ fuel →
      listClusters disk info fuel info.cluster 0 = (files, true) := by
  obtain ⟨rounds, listed⟩ := listed
  refine ⟨rounds, fun fuel enough => ?_⟩
  have run := listed fuel enough
  rw [readdirLoop_eq] at run
  have records := @fill_unlimited ⟨0, 0, 0, []⟩ (listClusters disk info fuel info.cluster 0).1
    (zero_le _)
  dsimp only at run
  rw [fill_notFull (by decide), Bool.false_or] at run
  split_ifs at run with ended
  · rw [Option.map_some, Option.some.injEq, records, nil_append] at run
    exact Prod.ext run ended
  · cases run

theorem Listed.of_clusters
    (clusters : listClusters disk info k info.cluster 0 = (files, true)) : Listed disk info files := by
  refine ⟨k, fun fuel enough => ?_⟩
  have same := (listClusters_mono enough (congrArg Prod.snd clusters)).trans clusters
  have records := @fill_unlimited ⟨0, 0, 0, []⟩ files (zero_le _)
  rw [readdirLoop_eq]
  dsimp only
  rw [same, Bool.or_true, if_pos rfl, Option.map_some, records, nil_append]

theorem sfnName_length (dirBuf : Bytes) (ptr : Nat) : (sfnName dirBuf ptr).length ≤ 12 := by
  have base := length_filter_le (· ≠ 0x20) ((List.range 8).map fun i => dirBuf (ptr + i))
  have extension := length_filter_le (· ≠ 0x20) ((List.range 3).map fun i => dirBuf (ptr + 8 + i))
  rw [length_map, length_range] at base extension
  refine (List.takeWhile_prefix _).length_le.trans ?_
  rw [length_append]
  split_ifs
  · rw [length_cons]
    omega
  · rw [length_nil]
    omega

theorem listedName_length (lfn : Lfn) (dirBuf : Bytes) (ptr : Nat) : (listedName lfn dirBuf ptr).length ≤ 255 := by
  rw [listedName, toLowercase, length_map]
  split_ifs
  · exact le_of_lt_succ (utf16ToUtf8_length lfn.units (by decide))
  · exact (sfnName_length dirBuf ptr).trans (by decide)

theorem makeDirent_reclen (lfn : Lfn) (dirBuf : Bytes) (ptr index : Nat) :
    0 < (makeDirent lfn dirBuf ptr index).reclen ∧ (makeDirent lfn dirBuf ptr index).reclen ≤ 280 := by
  have name := listedName_length lfn dirBuf ptr
  rw [makeDirent]
  dsimp only
  unfold recordLength
  omega

theorem listEntries_reclen (dirBuf : Bytes) (left ptr : Nat) (lfn : Lfn) (index : Nat) :
    ∀ record ∈ (listEntries dirBuf left ptr lfn index).1, 0 < record.reclen ∧ record.reclen ≤ 280 := by
  induction left generalizing ptr lfn index with
  | zero => exact fun record member => absurd member not_mem_nil
  | succ left ih =>
    rw [listEntries]
    cases entryKind dirBuf ptr with
    | terminator => exact fun record member => absurd member not_mem_nil
    | deleted => exact ih _ _ _
    | longName => exact ih _ _ _
    | short =>
      intro record member
      rcases mem_cons.mp member with rfl | later
      · exact makeDirent_reclen _ _ _ _
      · exact ih _ _ _ record later

theorem listClusters_reclen (disk : Disk) (info : FatGeometry) (k c index : Nat) :
    ∀ record ∈ (listClusters disk info k c index).1, 0 < record.reclen ∧ record.reclen ≤ 280 := by
  induction k generalizing c index with
  | zero => exact fun record member => absurd member not_mem_nil
  | succ k ih =>
    rw [listClusters]
    split_ifs
    · intro record member
      rcases mem_append.mp member with here | later
      · exact listEntries_reclen _ _ _ _ _ record here
      · exact ih _ _ record later
    · exact fun record member => absurd member not_mem_nil

section Calls

variable (listed : listClusters disk info fuel info.cluster 0 = (files, true)) (few : files.length < 2 ^ 31)

include listed few

/-- **A call** returns a page of the listing, from the position on, if no sum overflows. -/
theorem readdir_page {len : Nat} (some' : 0 < len) (small : len < 2 ^ 31) {pos : Nat}
    (sums : SumsInInt len 0 (files.drop pos)) :
    fat32Readdir fuel disk info len pos =
      some ((recordBytes (takeFit Dirent.reclen len (files.drop pos)) : Int),
        takeFit Dirent.reclen len (files.drop pos), pos + (takeFit Dirent.reclen len (files.drop pos)).length) := by
  obtain ⟨records, bytes, position⟩ := @fill_spec ⟨0, pos, 0, []⟩ files len (by dsimp only; omega) (zero_le _)
    (zero_le _) sums
  have page : Listing.page ⟨0, pos, 0, []⟩ len files = takeFit Dirent.reclen len (files.drop pos) := rfl
  rw [page] at records bytes position
  have room : recordBytes (takeFit Dirent.reclen len (files.drop pos)) ≤ len := sum_takeFit_le _ len _
  rw [fat32Readdir, if_neg (by omega), toInt_of_lt (by omega), readdirLoop_eq, listed]
  dsimp only
  rw [Bool.or_true, if_pos rfl, Option.map_some, records, bytes, position, zero_add, toInt_of_lt (by omega),
    nil_append]

/-- If a sum overflows, the result is not the number of bytes. -/
theorem readdir_overflow {len : Nat} (some' : 0 < len) (small : len < 2 ^ 31) {pos : Nat}
    (above : ¬ SumsInInt len 0 (files.drop pos)) :
    ∃ result records pos', fat32Readdir fuel disk info len pos = some (result, records, pos') ∧
      result ≠ recordBytes records := by
  have short := listClusters_reclen disk info fuel info.cluster 0
  rw [listed] at short
  have large := @fill_overflow ⟨0, pos, 0, []⟩ files len small (fun r member => (short r member).2)
    (by dsimp only; omega) (zero_le _) (zero_le _) rfl above
  rw [fat32Readdir, if_neg (by omega), toInt_of_lt small, readdirLoop_eq, listed]
  dsimp only
  rw [Bool.or_true, if_pos rfl, Option.map_some]
  refine ⟨_, _, _, rfl, fun same => ?_⟩
  have less := toInt_lt (fill len files ⟨0, pos, 0, []⟩).2.bytesWritten
  omega

end Calls

/-- Calls of `fat32_readdir`, each from the position the last one returned: the results and the records. -/
def readCalls (fuel : Nat) (disk : Disk) (info : Fat32InternalData) : List Nat → Nat → Option (List (Int × List Dirent))
  | [], _ => some []
  | len :: lens, pos => do
    let (result, records, pos) ← fat32Readdir fuel disk info len pos
    let calls ← readCalls fuel disk info lens pos
    some ((result, records) :: calls)

/-- No sum of a sequence of calls overflows. -/
def CallsInInt : List Nat → List Dirent → Prop
  | [], _ => True
  | len :: lens, files => SumsInInt len 0 files ∧ CallsInInt lens (dropFit Dirent.reclen len files)

section Sequence

variable (listed : listClusters disk info fuel info.cluster 0 = (files, true)) (few : files.length < 2 ^ 31)
  {lens : List Nat} (sizes : ∀ len ∈ lens, 0 < len ∧ len < 2 ^ 31)

include listed few sizes

theorem readCalls_pages {pos : Nat} (sums : CallsInInt lens (files.drop pos)) :
    readCalls fuel disk info lens pos =
      some ((pages Dirent.reclen lens (files.drop pos)).map fun page => ((recordBytes page : Int), page)) := by
  induction lens generalizing pos with
  | nil => rfl
  | cons len lens ih =>
    obtain ⟨some', small⟩ := sizes len mem_cons_self
    have later := sums.2
    rw [dropFit, drop_drop] at later
    rw [readCalls, readdir_page listed few some' small sums.1]
    have rest := ih (fun len member => sizes len (mem_cons_of_mem _ member)) later
    rw [← drop_drop, ← dropFit] at rest
    rw [Option.bind_eq_bind, Option.bind_some]
    dsimp only
    rw [rest]
    rfl

/-- The results are the numbers of bytes only if no sum overflows. -/
theorem readCalls_counts {pos : Nat} {calls : List (Int × List Dirent)}
    (ran : readCalls fuel disk info lens pos = some calls) (counts : ∀ call ∈ calls, call.1 = recordBytes call.2) :
    CallsInInt lens (files.drop pos) := by
  induction lens generalizing pos calls with
  | nil => trivial
  | cons len lens ih =>
    obtain ⟨some', small⟩ := sizes len mem_cons_self
    rw [readCalls] at ran
    by_cases sums : SumsInInt len 0 (files.drop pos)
    · rw [readdir_page listed few some' small sums, Option.bind_eq_bind, Option.bind_some] at ran
      obtain ⟨later, rest, whole⟩ := Option.bind_eq_some_iff.mp ran
      rw [Option.some.injEq] at whole
      refine ⟨sums, ?_⟩
      rw [dropFit, drop_drop]
      refine ih (fun len member => sizes len (mem_cons_of_mem _ member)) rest fun call member => counts call ?_
      rw [← whole]
      exact mem_cons_of_mem _ member
    · obtain ⟨result, records, pos', returned, differs⟩ := readdir_overflow listed few some' small sums
      rw [returned, Option.bind_eq_bind, Option.bind_some] at ran
      obtain ⟨later, -, whole⟩ := Option.bind_eq_some_iff.mp ran
      rw [Option.some.injEq] at whole
      exact absurd (counts (result, records) (by rw [← whole]; exact mem_cons_self)) differs

end Sequence

/-- **What a sequence of calls returns**: the listing from its start on, in order, and with every record once. The
results are the lengths of the records. If every buffer can hold every record, a call returns 0 exactly if the listing
is complete, and so many calls are enough to come there. -/
structure Paged (files : List Dirent) (lens : List Nat) (calls : List (Int × List Dirent)) : Prop where
  number : calls.length = lens.length
  records : calls.flatMap Prod.snd <+: files
  counts : ∀ call ∈ calls, call.1 = recordBytes call.2
  ends : (∀ len ∈ lens, ∀ record ∈ files, record.reclen ≤ len) → ∀ i < lens.length,
    ((calls.map Prod.fst)[i]? = some 0 ↔ (calls.take i).flatMap Prod.snd = files)
  complete : (∀ len ∈ lens, ∀ record ∈ files, record.reclen ≤ len) → files.length < lens.length →
    0 ∈ calls.map Prod.fst

theorem recordBytes_eq_zero_iff {page : List Dirent} (positive : ∀ record ∈ page, 0 < record.reclen) :
    recordBytes page = 0 ↔ page = [] := by
  cases page with
  | nil => exact iff_of_true rfl rfl
  | cons record rest =>
    have first := positive record mem_cons_self
    have split : recordBytes (record :: rest) = record.reclen + recordBytes rest := rfl
    exact iff_of_false (by omega) (cons_ne_nil _ _)

/-- **`fat32_readdir` reads a directory in pages**, for all lengths that `getdents64` passes, if and only if no sum
overflows. -/
theorem readdir_paged (disk : Disk) (info : Fat32InternalData) (files : List Dirent) (listed : Listed disk info files)
    (few : files.length < 2 ^ 31) (lens : List Nat) (sizes : ∀ len ∈ lens, 0 < len ∧ len < 2 ^ 31) :
    (∃ rounds calls, (∀ fuel, rounds ≤ fuel → readCalls fuel disk info lens 0 = some calls) ∧ Paged files lens calls) ↔
      CallsInInt lens files := by
  obtain ⟨rounds, clusters⟩ := listed.clusters
  have short := listClusters_reclen disk info rounds info.cluster 0
  rw [clusters rounds le_rfl] at short
  constructor
  · rintro ⟨rounds', calls, ran, paged⟩
    exact readCalls_counts (clusters _ (le_max_left rounds rounds')) few sizes (ran _ (le_max_right _ _)) paged.counts
  intro sums
  refine ⟨rounds, _, fun fuel enough => readCalls_pages (clusters fuel enough) few sizes sums, ?_⟩
  rw [drop_zero]
  have positive : ∀ page ∈ pages Dirent.reclen lens files, ∀ record ∈ page, 0 < record.reclen := by
    intro page member record inside
    have listed := (pages_flatten_isPrefix Dirent.reclen lens files).subset (mem_flatten.mpr ⟨page, member, inside⟩)
    exact (short record listed).1
  have flat : ∀ list : List (List Dirent), (list.map fun page => ((recordBytes page : Int), page)).flatMap Prod.snd =
      list.flatten := fun list => by
    rw [flatMap_map]
    exact flatMap_id
  refine ⟨?_, ?_, ?_, fun fits i inside => ?_, fun fits many => ?_⟩
  · rw [length_map, pages_length]
  · rw [flat]
    exact pages_flatten_isPrefix _ _ _
  · intro call member
    obtain ⟨page, -, rfl⟩ := mem_map.mp member
    rfl
  · have within : i < (pages Dirent.reclen lens files).length := by rwa [pages_length]
    have here := List.getElem?_eq_getElem within
    have empty := recordBytes_eq_zero_iff (positive _ (getElem_mem within))
    rw [← map_take, flat, ← pages_nil_iff fits inside, map_map, List.getElem?_map, here, Option.map_some,
      Option.some.injEq, Option.some.injEq, ← empty]
    exact Int.natCast_eq_zero
  · have empty := nil_mem_pages fits many
    rw [map_map]
    exact mem_map.mpr ⟨[], empty, rfl⟩

def oneFile : FatNode := smallNode (Function.update (smallFat 0x0FFFFFFF 0) 2048 0x41)

def oneRecord : Dirent := ⟨2, 1, 24, 8, [97]⟩

theorem oneFile_listed : Listed oneFile.disk oneFile.info [oneRecord] :=
  .of_clusters (k := 2) (by decide +kernel)

/-- The second call has the largest buffer that `getdents64` takes. -/
theorem readdir_paged_one : ∃ rounds calls,
    (∀ fuel, rounds ≤ fuel → readCalls fuel oneFile.disk oneFile.info [100, 2 ^ 31 - 1] 0 = some calls) ∧
      Paged [oneRecord] [100, 2 ^ 31 - 1] calls :=
  (readdir_paged oneFile.disk oneFile.info [oneRecord] oneFile_listed (by decide) [100, 2 ^ 31 - 1] (by decide)).mpr
    ⟨⟨by decide, fun _ => trivial⟩, trivial, trivial⟩

/-! ### A directory of 2 GiB -/

/-- A volume with clusters of 64 KiB. -/
def largeVolume : Fat32InternalData where
  sizeInSectors := 257
  firstDataSector := 546
  sectorsPerCluster := 128
  bytesPerSector := 512
  fatStartSector := 32
  fsinfoSector := 1
  fatsCount := 2
  backupBootSector := 0
  dataSectors := 2 ^ 22
  cluster := 2
  size := 0
  flags := 0
  dirSector := 0
  dirOffset := 0
  fsinfo := ⟨0, 0, fun _ => 0⟩

/-- The `2 ^ 15` clusters of the volume are a chain, and every entry is of a file `AAAAAAAA.AAA`. -/
def largeDisk : Disk where
  bytes := fun a =>
    if a < 546 * 512 then
      let c := (a - 32 * 512) / 4
      Bytes.littleEndian (if c = 2 ^ 15 + 1 then 0x0FFFFFFF else c + 1) (a % 4)
    else 0x41
  writes := []

theorem largeDisk_next {c : Nat} (inside : c ≤ 2 ^ 15 + 1) :
    fat32GetNextCluster largeDisk largeVolume c = if c = 2 ^ 15 + 1 then 0x0FFFFFFF else c + 1 := by
  have offset : u32 (c * 4) = c * 4 := u32_of_lt (by omega)
  have sector : u32 (32 + c * 4 / 512) = 32 + c * 4 / 512 := u32_of_lt (by omega)
  have word : largeDisk.bytes.word32 (32 * 512 + 4 * c) = (if c = 2 ^ 15 + 1 then 0x0FFFFFFF else c + 1) % 2 ^ 32 :=
    Bytes.word32_of_bytes _ fun i small => by
      have entry : (32 * 512 + 4 * c + i - 32 * 512) / 4 = c := by omega
      have byte : (32 * 512 + 4 * c + i) % 4 = i := by omega
      show (if 32 * 512 + 4 * c + i < 546 * 512 then _ else _) = _
      rw [if_pos (by omega), entry, byte]
  have place : (32 + c * 4 / 512) * 512 + c * 4 % 512 = 32 * 512 + 4 * c := by omega
  have masked : (if c = 2 ^ 15 + 1 then 0x0FFFFFFF else c + 1) &&& entryMask =
      if c = 2 ^ 15 + 1 then 0x0FFFFFFF else c + 1 := by
    rw [entryMask, show 0x0FFFFFFF = 2 ^ 28 - 1 by rfl, Nat.and_two_pow_sub_one_eq_mod, mod_eq_of_lt]
    split_ifs <;> omega
  show (largeDisk.read 512 (u32 (32 + u32 (c * 4) / 512))).word32 (u32 (c * 4) % 512) &&& entryMask = _
  rw [offset, sector, Disk.read, Bytes.word32_window, place, word, mod_eq_of_lt, masked]
  split_ifs <;> omega

theorem largeDisk_cluster {c : Nat} (valid : 2 ≤ c) (inside : c ≤ 2 ^ 15 + 1) :
    largeDisk.readCluster largeVolume c = fun _ => 0x41 := by
  have low : u32 (c + (2 ^ 32 - 2)) = c - 2 := by
    unfold u32
    omega
  have sector : u32 (546 + (c - 2) * 128) = 546 + (c - 2) * 128 := u32_of_lt (by omega)
  funext i
  show largeDisk.bytes (u32 (546 + u32 (c + (2 ^ 32 - 2)) * 128) * 512 + i) = _
  rw [low, sector]
  exact if_neg (by omega)

theorem listEntries_same (left : Nat) : ∀ ptr index, ∃ files, listEntries (fun _ => 0x41) left ptr Lfn.empty index =
    (files, false) ∧ files.length = left ∧ recordBytes files = 32 * left := by
  induction left with
  | zero => exact fun ptr index => ⟨[], rfl, rfl, rfl⟩
  | succ left ih =>
    intro ptr index
    obtain ⟨files, listed, length, bytes⟩ := ih (ptr + 32) (u32 (index + 1))
    refine ⟨makeDirent Lfn.empty (fun _ => 0x41) ptr index :: files, ?_, by rw [length_cons, length], ?_⟩
    · have file : entryKind (fun _ => 0x41) ptr = .short := rfl
      have inactive : (if Lfn.empty.active then Lfn.empty else Lfn.empty) = Lfn.empty := rfl
      rw [listEntries, file]
      rw [inactive, listed]
    · have name : listedName Lfn.empty (fun _ => 0x41) ptr = [97, 97, 97, 97, 97, 97, 97, 97, 46, 97, 97, 97] := by
        rfl
      have size : (makeDirent Lfn.empty (fun _ => 0x41) ptr index).reclen = 32 := by
        rw [makeDirent]
        rw [name]
        rfl
      have more : recordBytes (makeDirent Lfn.empty (fun _ => 0x41) ptr index :: files) = _ + recordBytes files := sum_cons
      omega

theorem largeDisk_clusters (n : Nat) : ∀ c index, 2 ≤ c → c + n = 2 ^ 15 + 2 → ∃ files,
    listClusters largeDisk largeVolume (n + 1) (if n = 0 then 0x0FFFFFFF else c) index = (files, true) ∧
      files.length = 2048 * n ∧ recordBytes files = 65536 * n := by
  induction n with
  | zero => exact fun c index _ _ => ⟨[], rfl, rfl, rfl⟩
  | succ n ih =>
    intro c index valid last
    obtain ⟨files, listed, length, bytes⟩ := listEntries_same 2048 0 index
    have here : clusterFiles largeDisk largeVolume c index = (files, false) := by
      rw [clusterFiles, largeDisk_cluster valid (by omega)]
      exact listed
    have next : afterCluster largeDisk largeVolume c false = if n = 0 then 0x0FFFFFFF else c + 1 := by
      rw [afterCluster, if_neg Bool.false_ne_true, largeDisk_next (by omega)]
      exact if_congr (by omega) rfl rfl
    obtain ⟨files', listed', length', bytes'⟩ := ih (c + 1) (bump index files.length) (by omega) (by omega)
    have more : 2 ≤ c ∧ c < endOfChain := ⟨valid, by unfold endOfChain; omega⟩
    refine ⟨files ++ files', ?_, by rw [length_append]; omega, by rw [recordBytes_append]; omega⟩
    rw [if_neg (succ_ne_zero n), listClusters, if_pos more, here]
    dsimp only
    rw [next, listed']

/-- **A listing of 2 GiB**: the last record goes beyond the buffer, and the result is negative. -/
theorem readdir_huge_listing : ∃ files, Listed largeDisk largeVolume files ∧ files.length < 2 ^ 31 ∧
    ¬ ∃ rounds calls, (∀ fuel, rounds ≤ fuel → readCalls fuel largeDisk largeVolume [2 ^ 31 - 1] 0 = some calls) ∧
      Paged files [2 ^ 31 - 1] calls := by
  obtain ⟨files, listed, length, bytes⟩ := largeDisk_clusters (2 ^ 15) 2 0 le_rfl rfl
  refine ⟨files, .of_clusters listed, by omega, ?_⟩
  rintro ⟨rounds, calls, ran, paged⟩
  have enough := listClusters_mono (le_max_left (2 ^ 15 + 1) rounds) (congrArg Prod.snd listed)
  have sums := readCalls_counts (enough.trans listed) (by omega) (by decide) (ran _ (le_max_right _ _)) paged.counts
  have total := sums.1.bytes_lt rfl (show 0 < 2 ^ 31 by decide)
  rw [drop_zero] at total
  omega

end Voxia.Fs
