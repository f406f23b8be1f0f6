/-
**Volumes without an FSInfo sector.**

The lookup of the root fills in the private data that every vnode of the volume gets a copy of. It sets
`fsinfo_sector` and the copy of the sector only if the three signatures are there; else they stay what the memory from
`kalloc` held. `fat32_write_fsinfo` does not ask: whenever a cluster is taken or freed, 512 bytes go to that sector,
which is the boot sector if the memory was zero (`unsigned_safe`).
-/

import Voxia.Fs.FatUnlink

namespace Voxia.Fs

open Lib List Option Nat

/-! ### The root -/

def SignedFsinfo (fsinfo : Bytes) : Prop :=
  fsinfo.word32 0 = 0x41615252 ∧ fsinfo.word32 484 = 0x61417272 ∧ fsinfo.word32 508 = 0xAA550000

instance (fsinfo : Bytes) : Decidable (SignedFsinfo fsinfo) := inferInstanceAs (Decidable (_ ∧ _ ∧ _))

def namedFsinfo (disk : Disk) : Bytes := disk.read (disk.bytes.word16 11) (disk.bytes.word16 48)

/-- `fat32_lookup` without a parent: the private data of the root, or `none` for -2. The parameter block is the first
sector, `magic` the name of the file system, and `left` is what the memory of the private data held. -/
def rootInfo (magic : List UInt8) (left : Fat32InternalData) (disk : Disk) : Option Fat32InternalData :=
  let bpb := disk.bytes
  if (List.range magic.length).map (fun i => bpb (82 + i)) ≠ magic then none
  else
    let fsinfoSector := if SignedFsinfo (namedFsinfo disk) then bpb.word16 48 else left.fsinfoSector
    let fsinfo : Fsinfo :=
      if SignedFsinfo (namedFsinfo disk) then
        ⟨(namedFsinfo disk).word32 488, (namedFsinfo disk).word32 492, namedFsinfo disk⟩
      else left.fsinfo
    let bytesPerSector := if bpb.word16 11 = 0 then 512 else bpb.word16 11
    let reserved := bpb.word16 14
    let fats := (bpb 16).toNat
    let fatSize := if bpb.word16 22 ≠ 0 then bpb.word16 22 else bpb.word32 36
    let totalSector := if bpb.word16 19 ≠ 0 then bpb.word16 19 else bpb.word32 32
    let rootDirSectors := (bpb.word16 17 * 32 + (bytesPerSector - 1)) / bytesPerSector
    some
      { sizeInSectors := fatSize
        firstDataSector := u32 (reserved + fats * fatSize + rootDirSectors)
        sectorsPerCluster := (bpb 13).toNat
        bytesPerSector := bytesPerSector
        fatStartSector := reserved
        fsinfoSector := fsinfoSector
        fatsCount := if fats ≠ 0 then fats else 2
        backupBootSector := bpb.word16 50
        dataSectors := u32 (totalSector + (2 ^ 32 - reserved) + (2 ^ 32 - u32 (fats * fatSize)))
        cluster := if bpb.word32 44 = 0 then 2 else bpb.word32 44
        size := 0
        flags := 0x10
        dirSector := 0
        dirOffset := 0
        fsinfo := fsinfo }

variable {disk : Disk} {geo : FatGeometry} {fuel : Nat}

theorem rootInfo_fsinfoSector {magic : List UInt8} {left root : Fat32InternalData}
    (mounted : rootInfo magic left disk = some root) (unsigned : ¬ SignedFsinfo (namedFsinfo disk)) :
    root.fsinfoSector = left.fsinfoSector := by
  unfold rootInfo at mounted
  dsimp only at mounted
  split at mounted
  · cases mounted
  · obtain rfl := some.inj mounted
    rfl

/-! ### Calls -/

inductive FatCall
  | create (dir : Fat32InternalData) (path : List UInt8)
  | write (file : Vnode) (buf : Bytes) (len offset : Nat)
  | truncate (file : Vnode) (length : Nat)
  | unlink (dir : Fat32InternalData) (path : List UInt8)

def FatCall.info : FatCall → Fat32InternalData
  | create dir _ => dir
  | write file _ _ _ => file.vnodePrivate
  | truncate file _ => file.vnodePrivate
  | unlink dir _ => dir

def perform (fuel : Nat) (disk : Disk) : FatCall → Option Disk
  | .create dir path => (fat32Create fuel ⟨disk, dir⟩ path).map (·.2.disk)
  | .write file buf len offset => some (fat32Write disk file buf len offset).2.1
  | .truncate file length => (fat32Truncate fuel disk file length).map (·.2.1)
  | .unlink dir path => (fat32Unlink fuel ⟨disk, dir⟩ path).map (·.2.disk)

def performAll (fuel : Nat) : Disk → List FatCall → Option Disk
  | disk, [] => some disk
  | disk, call :: rest => (perform fuel disk call).bind fun disk => performAll fuel disk rest

/-! ### Calls that leave the FAT alone -/

/-- The entry of the vnode, if it has one, lies in a data cluster. -/
def EntryInside (info : Fat32InternalData) : Prop :=
  info.dirSector = 0 ∨ ∃ d, ValidCluster info d ∧
    info.dirSector = fat32ClusterToSector info d

/-- The call neither takes nor frees a cluster: a write stays in the clusters the file has, a file that is truncated or
unlinked has none. `fat32_create` takes one if there is one, so it is left out. -/
def Quiet (disk : Disk) : FatCall → Prop
  | .create _ _ => False
  | .write file _ len offset => len = 0 ∨ EntryInside file.vnodePrivate ∧
    ∀ i, i * file.vnodePrivate.bytesPerCluster < offset + len → ValidCluster file.vnodePrivate
      ((fat32GetNextCluster disk file.vnodePrivate)^[i] file.vnodePrivate.cluster)
  | .truncate file length => length ≠ 0 ∨ file.vnodePrivate.size = 0 ∨
    EntryInside file.vnodePrivate ∧ ChainStop file.vnodePrivate.cluster
  | .unlink dir path => ∀ c ptr start, UnlinkFinds ⟨disk, dir⟩ path c ptr start →
    ValidCluster dir c ∧ (isDirectory (disk.readCluster dir c) ptr ∨
      ChainStop (entryCluster (disk.readCluster dir c) ptr))

/-- All calls of a sequence are quiet, each in the state it is made in. -/
def QuietRun (fuel : Nat) : Disk → List FatCall → Prop
  | _, [] => True
  | disk, call :: rest => Quiet disk call ∧ ∀ disk', perform fuel disk call = some disk' → QuietRun fuel disk' rest

def InVolume (geo : FatGeometry) (a : Nat) : Prop :=
  InTable geo a ∨ ∃ c, ValidCluster geo c ∧ clusterAddr geo c ≤ a ∧ a < clusterAddr geo c + geo.bytesPerCluster

/-- **No write outside of the FATs and the data clusters**, and nothing before the FATs is changed. -/
structure SafeWrites (geo : FatGeometry) (disk disk' : Disk) : Prop where
  inside : ∃ made, disk'.writes = made ++ disk.writes ∧ ∀ w ∈ made, ∀ i < w.2, InVolume geo (w.1 + i)
  reserved : ∀ a < tableStart geo, disk'.bytes a = disk.bytes a

structure ClustersOnly (geo : FatGeometry) (disk disk' : Disk) : Prop where
  low : ∀ a < dataStart geo, disk'.bytes a = disk.bytes a
  writes : ∃ made, disk'.writes = made ++ disk.writes ∧
    ∀ w ∈ made, ∃ c, ValidCluster geo c ∧ w = (clusterAddr geo c, geo.bytesPerCluster)

namespace ClustersOnly

variable {geo : FatGeometry} {disk disk' disk'' : Disk}

theorem refl (disk : Disk) : ClustersOnly geo disk disk :=
  ⟨fun _ _ => rfl, [], rfl, fun _ inside => absurd inside not_mem_nil⟩

theorem trans (first : ClustersOnly geo disk disk') (second : ClustersOnly geo disk' disk'') :
    ClustersOnly geo disk disk'' where
  low a below := (second.low a below).trans (first.low a below)
  writes := by
    obtain ⟨made, eq, clusters⟩ := first.writes
    obtain ⟨made', eq', clusters'⟩ := second.writes
    refine ⟨made' ++ made, by rw [eq', eq, append_assoc], fun w inside => ?_⟩
    rcases mem_append.mp inside with late | early
    · exact clusters' w late
    · exact clusters w early

theorem safe (only : ClustersOnly geo disk disk') (before : tableStart geo ≤ dataStart geo) :
    SafeWrites geo disk disk' := by
  obtain ⟨made, eq, clusters⟩ := only.writes
  refine ⟨⟨made, eq, fun w inside i less => ?_⟩, fun a low => only.low a (lt_of_lt_of_le low before)⟩
  obtain ⟨c, valid, rfl⟩ := clusters w inside
  exact .inr ⟨c, valid, Nat.le_add_right _ _, Nat.add_lt_add_left less _⟩

end ClustersOnly

/-- The geometry without what the missing FSInfo sector leaves open. -/
def FatGeometry.unsigned (geo : FatGeometry) : FatGeometry := { geo with fsinfoSector := 0, backupBootSector := 0 }

section Writes

variable {geo : FatGeometry} (laid : WellFormed geo.unsigned)

include laid

variable {c : Nat}

theorem ClustersOnly.write (disk : Disk) (valid : ValidCluster geo c) (buf : Bytes) :
    ClustersOnly geo disk (disk.write geo.bytesPerSector (fat32ClusterToSector geo c) buf geo.bytesPerCluster) := by
  have place : fat32ClusterToSector geo c * geo.bytesPerSector = clusterAddr geo c := laid.clusterToSector_mul valid
  have high : dataStart geo ≤ clusterAddr geo c := dataStart_le_clusterAddr c
  unfold Disk.write
  rw [place]
  refine ⟨fun a low => Bytes.copy_outside _ _ (.inl (lt_of_lt_of_le low high)), [_], rfl, fun w inside => ?_⟩
  exact ⟨c, valid, mem_singleton.mp inside⟩

theorem ClustersOnly.next {disk disk' : Disk} (only : ClustersOnly geo disk disk')
    (valid : ValidCluster geo c) : fat32GetNextCluster disk' geo c = fat32GetNextCluster disk geo c :=
  calc fat32GetNextCluster disk' geo c = fatOf geo.unsigned disk'.bytes c := getNextCluster_eq laid disk' valid.2
    _ = fatOf geo.unsigned disk.bytes c := fatOf_of_low laid only.low valid
    _ = fat32GetNextCluster disk geo c := (getNextCluster_eq laid disk valid.2).symm

theorem valid_stays (valid : ValidCluster geo c) : ¬ (endOfChain ≤ c ∨ c = 0) := by
  have small : c < endOfChain := laid.valid_lt valid
  have := valid.1
  omega

end Writes

/-! ### A write inside the clusters of a file -/

/-- The second loop of `fat32_write` over any way to write a cluster and to go on to the next. -/
def writeLoop (write : FatNode → Nat → Nat → Nat → Nat → Bytes → FatNode × Bytes)
    (advance : FatNode → Nat → Nat × FatNode) : Nat → FatNode → Nat → Nat → Nat → Nat → Bytes → Nat × FatNode
  | 0, s, _, _, _, left, _ => (left, s)
  | fuel + 1, s, currentCluster, byteOffset, done, left, tempBuf =>
    if 0 < left ∧ currentCluster < endOfChain then
      let count := min (s.info.bytesPerCluster - byteOffset) left
      let (s, tempBuf) := write s currentCluster byteOffset done count tempBuf
      let left := left - count
      if 0 < left then
        let (next, s) := advance s currentCluster
        if next = 0 then (left, s)
        else writeLoop write advance fuel s next 0 (done + count) left tempBuf
      else (left, s)
    else (left, s)

theorem writeClusters_eq (buf : Bytes) :
    writeClusters buf = writeLoop (fun s cluster byteOffset done count tempBuf =>
      writeCluster s cluster byteOffset buf done count tempBuf) nextOrAllocate := by
  delta writeClusters writeLoop
  rfl

/-- The loop stays in the clusters of a file: every round keeps `P`, and the next cluster is there as long as bytes are
left. -/
theorem writeLoop_inside {P : Disk → Prop} {info : Fat32InternalData} {cells : Nat → Nat} {stop : Nat}
    {write : FatNode → Nat → Nat → Nat → Nat → Bytes → FatNode × Bytes} {advance : FatNode → Nat → Nat × FatNode}
    (writes : ∀ disk m byteOffset done count tempBuf, P disk → m * info.bytesPerCluster < stop → ∃ disk' tempBuf',
      write ⟨disk, info⟩ (cells m) byteOffset done count tempBuf = (⟨disk', info⟩, tempBuf') ∧ P disk')
    (advances : ∀ disk m, P disk → (m + 1) * info.bytesPerCluster < stop →
      advance ⟨disk, info⟩ (cells m) = (cells (m + 1), ⟨disk, info⟩) ∧ cells (m + 1) ≠ 0)
    (fuel m : Nat) (holds : P disk) (byteOffset done left : Nat) (tempBuf : Bytes)
    (inside : byteOffset ≤ info.bytesPerCluster) (range : m * info.bytesPerCluster + byteOffset + left ≤ stop) :
    ∃ rest disk', writeLoop write advance fuel ⟨disk, info⟩ (cells m) byteOffset done left tempBuf =
      (rest, ⟨disk', info⟩) ∧ P disk' := by
  induction fuel generalizing m disk byteOffset done left tempBuf with
  | zero => exact ⟨_, _, rfl, holds⟩
  | succ fuel ih =>
    rw [writeLoop]
    by_cases more : 0 < left ∧ cells m < endOfChain
    · obtain ⟨disk', tempBuf', wrote, holds'⟩ := writes disk m byteOffset done
        (min (info.bytesPerCluster - byteOffset) left) tempBuf holds (by omega)
      simp only [if_pos more, wrote]
      by_cases again : 0 < left - min (info.bytesPerCluster - byteOffset) left
      · have step : (m + 1) * info.bytesPerCluster = m * info.bytesPerCluster + info.bytesPerCluster := succ_mul _ _
        obtain ⟨next, some⟩ := advances disk' m holds' (by omega)
        rw [if_pos again, next]
        rw [if_neg some]
        exact ih (m + 1) holds' 0 _ _ _ (zero_le _) (by omega)
      · rw [if_neg again]
        exact ⟨_, _, rfl, holds'⟩
    · rw [if_neg more]
      exact ⟨_, _, rfl, holds⟩

section Write

variable {s : FatNode} (laid : WellFormed s.info.toFatGeometry.unsigned) {cells : Nat → Nat}
  (links : ∀ i, fat32GetNextCluster s.disk s.info (cells i) = cells (i + 1))

include laid links

theorem nextOrAllocate_quiet {disk : Disk} (only : ClustersOnly s.info s.disk disk) {i : Nat}
    (valid : ValidCluster s.info (cells i)) (valid' : ValidCluster s.info (cells (i + 1))) :
    nextOrAllocate ⟨disk, s.info⟩ (cells i) = (cells (i + 1), ⟨disk, s.info⟩) := by
  have next := (only.next laid valid).trans (links i)
  unfold nextOrAllocate
  rw [next, if_neg (valid_stays laid valid')]

/-- The cluster of the offset is one of the file, and nothing is written on the way to it. -/
theorem reachOffset_quiet {offset : Nat}
    (valid : ∀ i, i * s.info.bytesPerCluster ≤ offset → ValidCluster s.info (cells i)) (fuel k : Nat)
    (before : k * s.info.bytesPerCluster ≤ offset) :
    ∃ found, reachOffset offset fuel s (cells k) (k * s.info.bytesPerCluster) = (found, s) ∧
      ∀ cluster start, found = some (cluster, start) → ∃ m, start = m * s.info.bytesPerCluster ∧ cluster = cells m ∧
        start ≤ offset ∧ offset < start + s.info.bytesPerCluster := by
  induction fuel generalizing k with
  | zero => exact ⟨none, rfl, nofun⟩
  | succ fuel ih =>
    rw [reachOffset]
    split_ifs with more
    · rw [← succ_mul] at more
      have here := valid (k + 1) more
      rw [nextOrAllocate_quiet laid links (ClustersOnly.refl s.disk) (valid k before) here]
      dsimp only
      rw [if_neg fun zero => valid_stays laid here (.inr zero), ← succ_mul]
      exact ih (k + 1) more
    · refine ⟨_, rfl, fun cluster start found => ?_⟩
      cases found
      exact ⟨k, rfl, rfl, before, by omega⟩

theorem writeClusters_quiet (buf : Bytes) {stop : Nat}
    (valid : ∀ i, i * s.info.bytesPerCluster < stop → ValidCluster s.info (cells i)) (fuel m : Nat)
    (byteOffset len : Nat) (inside : byteOffset ≤ s.info.bytesPerCluster)
    (range : m * s.info.bytesPerCluster + byteOffset + len ≤ stop) :
    ∃ rest disk', writeClusters buf fuel s (cells m) byteOffset 0 len (fun _ => 0) = (rest, ⟨disk', s.info⟩) ∧
      ClustersOnly s.info s.disk disk' := by
  rw [writeClusters_eq]
  refine writeLoop_inside (fun disk m byteOffset done count tempBuf only here => ?_) (fun disk m only here => ?_) fuel m
    (ClustersOnly.refl s.disk) byteOffset 0 len _ inside range
  · exact ⟨_, _, rfl, only.trans (ClustersOnly.write laid disk (valid m here) _)⟩
  · have before := valid m (lt_of_le_of_lt (mul_le_mul_right _ (le_succ m)) here)
    have following := valid (m + 1) here
    exact ⟨nextOrAllocate_quiet laid links only before following, fun zero => valid_stays laid following (.inr zero)⟩

end Write

theorem updateDirEntry_quiet {info : Fat32InternalData} (laid : WellFormed info.toFatGeometry.unsigned)
    (inside : EntryInside info) :
    ClustersOnly info disk (if info.dirSector ≠ 0 then updateDirEntry disk info else disk) := by
  split_ifs with some
  · obtain ⟨d, valid, here⟩ := inside.resolve_left some
    unfold updateDirEntry
    rw [here]
    exact ClustersOnly.write laid disk valid _
  · exact ClustersOnly.refl disk

theorem writeFrom_quiet {s : FatNode} (laid : WellFormed s.info.toFatGeometry.unsigned) (entry : EntryInside s.info)
    {len offset : Nat} (valid : ∀ i, i * s.info.bytesPerCluster < offset + len → ValidCluster s.info
      ((fat32GetNextCluster s.disk s.info)^[i] s.info.cluster)) (some : 0 < len) (buf : Bytes) (fileExtended : Bool) :
    ClustersOnly s.info s.disk (writeFrom s buf len offset s.info.cluster fileExtended).2.disk := by
  have links : ∀ i, fat32GetNextCluster s.disk s.info
      ((fat32GetNextCluster s.disk s.info)^[i] s.info.cluster) =
        (fat32GetNextCluster s.disk s.info)^[i + 1] s.info.cluster := fun i =>
    (Function.iterate_succ_apply' _ _ _).symm
  obtain ⟨found, reached, place⟩ := reachOffset_quiet laid links
    (fun i low => valid i (lt_of_le_of_lt low (Nat.lt_add_of_pos_right some))) (offset + 1) 0 (by omega)
  rw [Nat.zero_mul, Function.iterate_zero, id_eq] at reached
  rw [writeFrom, reached]
  cases found with
  | none => exact ClustersOnly.refl s.disk
  | some found =>
    obtain ⟨m, start, cluster, low, high⟩ := place found.1 found.2 rfl
    obtain ⟨rest, disk', wrote, only⟩ := writeClusters_quiet laid links buf valid len m (offset - found.2) len
      (by omega) (by omega)
    dsimp only
    rw [cluster, wrote]
    by_cases extended : fileExtended
    · simp only [extended, true_and]
      exact only.trans (updateDirEntry_quiet laid entry)
    · rw [if_neg fun both => extended both.1]
      exact only

/-! ### Quiet calls -/

section Calls

variable {geo : FatGeometry} (laid : WellFormed geo.unsigned) {disk : Disk}

include laid

theorem fat32Write_quiet {file : Vnode} (node : file.vnodePrivate.toFatGeometry = geo) (buf : Bytes) (len offset : Nat)
    (quiet : Quiet disk (.write file buf len offset)) :
    ClustersOnly geo disk (fat32Write disk file buf len offset).2.1 := by
  subst node
  unfold fat32Write
  by_cases empty : len = 0
  · rw [if_pos empty]
    exact ClustersOnly.refl disk
  obtain ⟨entry, valid⟩ := quiet.resolve_left empty
  have first : ¬ file.vnodePrivate.cluster = 0 := fun zero =>
    valid_stays laid (valid 0 (by omega)) (.inr zero)
  rw [if_neg empty]
  -- the size is all that has changed of the private data
  have same : ∀ grown : Prop, [Decidable grown] → ∀ n, ∃ size, (if grown then file.extend n else file).vnodePrivate =
      { file.vnodePrivate with size := size } := by
    intro grown _ n
    split_ifs
    · exact ⟨n, rfl⟩
    · exact ⟨_, rfl⟩
  obtain ⟨size, same⟩ := same (file.vnodePrivate.size < u64 (offset + len)) (u32 (offset + len))
  dsimp only
  rw [same]
  unfold firstCluster
  rw [if_neg first]
  rw [if_neg first]
  exact writeFrom_quiet (s := ⟨disk, { file.vnodePrivate with size := size }⟩) laid entry valid
    (pos_of_ne_zero empty) buf _

variable {fuel : Nat}

omit laid in
theorem freeClusterChain_stop {s s' : FatNode} {start : Nat} (stop : ChainStop start)
    (freed : fat32FreeClusterChain fuel s start = some s') : s' = s := by
  unfold fat32FreeClusterChain at freed
  split_ifs at freed
  · exact (some.inj freed).symm
  · cases fuel with
    | zero => cases freed
    | succ fuel =>
      rw [freeChainFrom, if_neg stop] at freed
      exact (some.inj freed).symm

/-- **Step**: a quiet call changes no byte outside the data area. -/
theorem perform_quiet {disk' : Disk} {call : FatCall} (node : call.info.toFatGeometry = geo) (quiet : Quiet disk call)
    (result : perform fuel disk call = some disk') : ClustersOnly geo disk disk' := by
  cases call with
  | create => exact absurd quiet not_false
  | write file buf len offset =>
    cases result
    exact fat32Write_quiet laid node buf len offset quiet
  | truncate file length =>
    obtain ⟨⟨_, _, _⟩, done, rfl⟩ := map_eq_some_iff.mp result
    unfold fat32Truncate at done
    split_ifs at done with some small
    · cases done
      exact ClustersOnly.refl disk
    · cases done
      exact ClustersOnly.refl disk
    · obtain ⟨entry, stop⟩ := (quiet.resolve_left some).resolve_left small
      obtain ⟨s, freed, rest⟩ := bind_eq_some_iff.mp done
      obtain rfl := freeClusterChain_stop stop freed
      cases rest
      subst node
      exact @updateDirEntry_quiet _ { file.vnodePrivate with cluster := 0, size := 0 } laid entry
  | unlink dir path =>
    obtain ⟨⟨result, s'⟩, done, rfl⟩ := map_eq_some_iff.mp result
    obtain ⟨found, search, rest⟩ := bind_eq_some_iff.mp done
    cases found with
    | none =>
      cases rest
      exact ClustersOnly.refl disk
    | some entry =>
      obtain ⟨c, ptr, start⟩ := entry
      obtain ⟨valid, stop⟩ := quiet c ptr start ⟨fuel, search⟩
      subst node
      unfold removeEntry at rest
      dsimp only at rest
      split_ifs at rest with directory
      · cases rest
        exact ClustersOnly.refl disk
      · obtain ⟨s, freed, same⟩ := map_eq_some_iff.mp rest
        cases same
        obtain rfl := freeClusterChain_stop (stop.resolve_left directory) freed
        exact ClustersOnly.write laid disk valid _

end Calls

theorem performAll_quiet (laid : WellFormed geo.unsigned) {final : Disk} {calls : List FatCall}
    (nodes : ∀ call ∈ calls, call.info.toFatGeometry = geo) (quiet : QuietRun fuel disk calls)
    (run : performAll fuel disk calls = some final) : ClustersOnly geo disk final := by
  induction calls generalizing disk with
  | nil =>
    cases run
    exact ClustersOnly.refl _
  | cons call rest ih =>
    obtain ⟨disk', done, run⟩ := bind_eq_some_iff.mp run
    have first := perform_quiet laid (nodes call mem_cons_self) quiet.1 done
    exact first.trans (ih (fun call later => nodes call (mem_cons_of_mem _ later)) (quiet.2 disk' done) run)

/-! ### Calls that are not -/

theorem mem_writeFsinfo (disk : Disk) (info : Fat32InternalData) :
    (info.fsinfoSector * info.bytesPerSector, 512) ∈ (fat32WriteFsinfo disk info).writes := by
  unfold fat32WriteFsinfo
  split_ifs
  · exact mem_cons_of_mem _ mem_cons_self
  · exact mem_cons_self

theorem allocateFrom_writes (s : FatNode) (start left i : Nat) : allocateFrom s start left i = (0, s) ∨
    (s.info.fsinfoSector * s.info.bytesPerSector, 512) ∈ (allocateFrom s start left i).2.disk.writes := by
  induction left generalizing i with
  | zero => exact .inl rfl
  | succ left ih =>
    rw [allocateFrom]
    split_ifs
    · exact .inr (mem_writeFsinfo _ { s.info with fsinfo := _ })
    · exact ih (i + 1)

theorem freed_le {disk' : Disk} {buffer : FatBuffer} {current freed freed' : Nat}
    (run : freeChainFrom geo fuel disk buffer current freed = some (freed', disk')) : freed ≤ freed' := by
  induction fuel generalizing disk buffer current freed with
  | zero => cases run
  | succ fuel ih =>
    rw [freeChainFrom] at run
    split_ifs at run
    · exact le_trans (le_succ freed) (ih run)
    · cases run
      exact le_refl _

theorem freeClusterChain_writes {s s' : FatNode} {start : Nat} (chain : ¬ ChainStop start)
    (freed : fat32FreeClusterChain fuel s start = some s') :
    (s.info.fsinfoSector * s.info.bytesPerSector, 512) ∈ s'.disk.writes := by
  have inside := not_not.mp chain
  unfold fat32FreeClusterChain at freed
  rw [if_neg (by omega)] at freed
  obtain ⟨⟨count, disk⟩, run, rest⟩ := bind_eq_some_iff.mp freed
  cases fuel with
  | zero => cases run
  | succ fuel =>
    rw [freeChainFrom, if_pos inside] at run
    have some : 0 < count := freed_le run
    cases rest
    rw [addFreed, if_pos some]
    exact mem_writeFsinfo _ { s.info with fsinfo := _ }

/-- **A volume without an FSInfo sector**, mounted with `left` in the memory of the private data of its root. -/
theorem unsigned_safe {magic : List UInt8} {left root : Fat32InternalData} {disk : Disk}
    (mounted : rootInfo magic left disk = some root) (unsigned : ¬ SignedFsinfo (namedFsinfo disk))
    (laid : WellFormed root.toFatGeometry.unsigned) :
    (∀ fuel calls final, (∀ call ∈ calls, call.info.toFatGeometry = root.toFatGeometry) → QuietRun fuel disk calls →
      performAll fuel disk calls = some final → SafeWrites root disk final) ∧
    (∀ s : FatNode, s.info.toFatGeometry = root.toFatGeometry → fat32AllocateCluster s = (0, s) ∨
      (left.fsinfoSector * root.bytesPerSector, 512) ∈ (fat32AllocateCluster s).2.disk.writes) ∧
    ∀ fuel (s s' : FatNode) start, s.info.toFatGeometry = root.toFatGeometry → ¬ ChainStop start →
      fat32FreeClusterChain fuel s start = some s' →
      (left.fsinfoSector * root.bytesPerSector, 512) ∈ s'.disk.writes := by
  have sector := rootInfo_fsinfoSector mounted unsigned
  have table : tableStart root ≤ dataStart root :=
    le_trans (Nat.le_add_right _ _) laid.tableStart_le
  refine ⟨fun fuel calls final nodes quiet run => (performAll_quiet laid nodes quiet run).safe table,
    fun s node => ?_, fun fuel s s' start node chain freed => ?_⟩
  · rw [← sector, ← node]
    exact allocateFrom_writes s _ _ _
  · rw [← sector, ← node]
    exact freeClusterChain_writes chain freed

/-! ### A volume of five clusters -/

/-- The parameter block, and cluster 2, the root directory, in both copies of the FAT. -/
def bareVolume : Disk where
  bytes a := ([(12, 2), (13, 1), (14, 2), (16, 2), (19, 9), (22, 1), (44, 2), (82, 70), (83, 65), (84, 84), (85, 51),
    (86, 50), (1032, 255), (1033, 255), (1034, 255), (1035, 15), (1544, 255), (1545, 255), (1546, 255),
    (1547, 15)].lookup a).getD 0
  writes := []

def blankInfo : Fat32InternalData :=
  { sizeInSectors := 0, firstDataSector := 0, sectorsPerCluster := 0, bytesPerSector := 0, fatStartSector := 0
    fsinfoSector := 0, fatsCount := 0, backupBootSector := 0, dataSectors := 0, cluster := 0, size := 0, flags := 0
    dirSector := 0, dirOffset := 0, fsinfo := ⟨0, 0, fun _ => 0⟩ }

def bareRoot : Fat32InternalData :=
  { blankInfo with
    sizeInSectors := 1, firstDataSector := 4, sectorsPerCluster := 1, bytesPerSector := 512, fatStartSector := 2
    fatsCount := 2, dataSectors := 5, cluster := 2, flags := 0x10 }

theorem bareVolume_mounted : rootInfo [70, 65, 84, 51, 50] blankInfo bareVolume = some bareRoot := by
  rfl

theorem bareVolume_unsigned : ¬ SignedFsinfo (namedFsinfo bareVolume) := by decide +kernel

theorem bareRoot_laid : WellFormed bareRoot.toFatGeometry.unsigned := by
  constructor <;> decide

def oneWrite : FatCall := .write ⟨512, { bareRoot with size := 512 }⟩ (fun _ => 1) 1 0

theorem unsigned_safe_write : ∃ final, performAll 1 bareVolume [oneWrite] = some final ∧
    SafeWrites bareRoot bareVolume final := by
  refine ⟨_, rfl, (unsigned_safe bareVolume_mounted bareVolume_unsigned bareRoot_laid).1 1 [oneWrite] _
    (fun call inside => ?_) ?_ rfl⟩
  · rw [mem_singleton.mp inside]
    rfl
  · refine ⟨.inr ⟨.inl rfl, fun i inside => ?_⟩, fun _ _ => trivial⟩
    obtain rfl : i = 0 := by
      have size : i * 512 < 0 + 1 := inside
      omega
    exact ⟨le_refl _, by decide⟩

/-- **The first file that is created overwrites the parameter block.** -/
theorem parameterBlock_overwritten : rootInfo [70, 65, 84, 51, 50] blankInfo bareVolume = some bareRoot ∧
    ¬ SignedFsinfo (namedFsinfo bareVolume) ∧ WellFormed bareRoot.toFatGeometry.unsigned ∧
    ∃ final, performAll 3 bareVolume [.create bareRoot [97]] = some final ∧ final.bytes 12 ≠ bareVolume.bytes 12 ∧
      ¬ SafeWrites bareRoot bareVolume final := by
  refine ⟨bareVolume_mounted, bareVolume_unsigned, bareRoot_laid, ?_⟩
  have run : (performAll 3 bareVolume [.create bareRoot [97]]).map (·.bytes 12) = some 0 := by decide +kernel
  obtain ⟨final, done, byte⟩ := map_eq_some_iff.mp run
  have changed : final.bytes 12 ≠ bareVolume.bytes 12 := by
    rw [byte]
    decide +kernel
  exact ⟨final, done, changed, fun safe => changed (safe.reserved 12 (by decide))⟩

end Voxia.Fs
