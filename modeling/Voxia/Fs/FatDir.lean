/-
**FAT32: directories (`fs/fat32.c`).**

A directory is a chain of clusters, and a cluster is a row of entries of 32 bytes: free ones, entries of long names,
and the short entry of a file, which the entries of its long name stand before. Each loop over the clusters has no
other end than what it reads from the disk, so it is given a number of rounds and the result is `none` if they do not
suffice. Block reads and writes and `kalloc` succeed.
-/

import Voxia.Fs.Fat32
import Voxia.Fs.FatName

namespace Voxia.Fs

open Lib

/-! ### Entries -/

inductive EntryKind
  | terminator
  | deleted
  | longName
  | short
  deriving DecidableEq

variable (dirBuf : Bytes)

def entryKind (ptr : Nat) : EntryKind :=
  if dirBuf ptr = 0x00 then .terminator
  else if dirBuf ptr = 0xE5 then .deleted
  else if dirBuf (ptr + 11) = 0x0F then .longName
  else .short

/-- The number of rounds of the loop `while (ptr < end)`. -/
def FatGeometry.entriesPerCluster (info : FatGeometry) : Nat := (info.bytesPerCluster + 31) / 32

def toLowercase (name : List UInt8) : List UInt8 := name.map fun b => if 65 ≤ b ∧ b ≤ 90 then b + 32 else b

/-- The bytes of `sfn_name` up to the first zero: the name without its blanks, and a dot before the extension. -/
def sfnName (ptr : Nat) : List UInt8 :=
  let base := ((List.range 8).map fun i => dirBuf (ptr + i)).filter (· ≠ 0x20)
  let extension := ((List.range 3).map fun i => dirBuf (ptr + 8 + i)).filter (· ≠ 0x20)
  (base ++ if dirBuf (ptr + 8) ≠ 0x20 then 0x2E :: extension else []).takeWhile (· ≠ 0)

def Lfn.name (lfn : Lfn) : List UInt8 := (fat32Utf16ToUtf8 lfn.units 256).1

/-- Whether the short entry at `ptr`, after the entries of a long name, is of the file `path`. -/
def matchesPath (lfn : Lfn) (dirBuf : Bytes) (ptr : Nat) (path : List UInt8) : Prop :=
  lfn.active ∧ toLowercase lfn.name = path ∨ toLowercase (sfnName dirBuf ptr) = path

instance (lfn : Lfn) (dirBuf : Bytes) (ptr : Nat) (path : List UInt8) : Decidable (matchesPath lfn dirBuf ptr path) :=
  inferInstanceAs (Decidable (_ ∨ _))

def entryCluster (ptr : Nat) : Nat := dirBuf.word16 (ptr + 20) <<< 16 ||| dirBuf.word16 (ptr + 26)

def entryAttr (ptr : Nat) : Nat := (dirBuf (ptr + 11)).toNat

def isDirectory (dirBuf : Bytes) (ptr : Nat) : Prop := entryAttr dirBuf ptr &&& 0x10 ≠ 0

instance (dirBuf : Bytes) (ptr : Nat) : Decidable (isDirectory dirBuf ptr) := inferInstanceAs (Decidable (_ ≠ _))

def Disk.readCluster (disk : Disk) (info : FatGeometry) (cluster : Nat) : Bytes :=
  disk.read info.bytesPerSector (fat32ClusterToSector info cluster)

/-- How the loop over the entries of a cluster ends: at an entry, at a terminator, or at the end of the cluster. -/
inductive EntryScan (α : Type)
  | found (result : α)
  | terminated
  | exhausted
  deriving DecidableEq

/-! ### `fat32_lookup` -/

/-- The loop over the entries in `fat32_lookup`: the offset of the short entry it finds. -/
def lookupEntries (dirBuf : Bytes) (path : List UInt8) : Nat → Nat → Lfn → EntryScan Nat
  | 0, _, _ => .exhausted
  | left + 1, ptr, lfn =>
    match entryKind dirBuf ptr with
    | .terminator => .terminated
    | .deleted => lookupEntries dirBuf path left (ptr + 32) lfn
    | .longName => lookupEntries dirBuf path left (ptr + 32) (lfn.readEntry dirBuf ptr)
    | .short =>
      if matchesPath lfn dirBuf ptr path then .found ptr
      else lookupEntries dirBuf path left (ptr + 32) (if lfn.active then Lfn.empty else lfn)

/-- The loop over the clusters in `fat32_lookup`: the cluster and the offset of the entry. -/
def lookupLoop (disk : Disk) (info : FatGeometry) (path : List UInt8) : Nat → Nat → Option (Option (Nat × Nat))
  | 0, _ => none
  | fuel + 1, currentCluster =>
    if currentCluster < endOfChain then
      match lookupEntries (disk.readCluster info currentCluster) path info.entriesPerCluster 0 Lfn.empty with
      | .found ptr => some (some (currentCluster, ptr))
      | .terminated => some none
      | .exhausted => lookupLoop disk info path fuel (fat32GetNextCluster disk info currentCluster)
    else some none

/-- The private data of the vnode made for an entry of a directory. -/
def entryInfo (disk : Disk) (parent : Fat32InternalData) (cluster ptr : Nat) : Fat32InternalData :=
  let dirBuf := disk.readCluster parent cluster
  { parent with
    cluster := entryCluster dirBuf ptr
    size := dirBuf.word32 (ptr + 28)
    flags := entryAttr dirBuf ptr
    dirSector := fat32ClusterToSector parent cluster
    dirOffset := ptr }

variable (fuel : Nat)

/-- `fat32_lookup` in a directory: the private data of the file, or `none` for -1. -/
def fat32Lookup (disk : Disk) (parent : Fat32InternalData) (path : List UInt8) : Option (Option Fat32InternalData) :=
  (lookupLoop disk parent path fuel parent.cluster).map
    (Option.map fun (cluster, ptr) => entryInfo disk parent cluster ptr)

/-! ### `fat32_unlink` -/

/-- The loop over the entries in `fat32_unlink`: the offset of the short entry it finds, and of the first entry that is
deleted with it. -/
def unlinkEntries (dirBuf : Bytes) (path : List UInt8) : Nat → Nat → Lfn → Option Nat → EntryScan (Nat × Nat)
  | 0, _, _, _ => .exhausted
  | left + 1, ptr, lfn, lfnStart =>
    match entryKind dirBuf ptr with
    | .terminator => .terminated
    | .deleted => unlinkEntries dirBuf path left (ptr + 32) { lfn with active := false } none
    | .longName => unlinkEntries dirBuf path left (ptr + 32) (lfn.readEntry dirBuf ptr) (some (lfnStart.getD ptr))
    | .short =>
      if matchesPath lfn dirBuf ptr path then .found (ptr, lfnStart.getD ptr)
      else unlinkEntries dirBuf path left (ptr + 32) Lfn.empty none

def markDeleted (dirBuf : Bytes) (start : Nat) : Nat → Bytes
  | 0 => dirBuf
  | n + 1 => Function.update (markDeleted dirBuf start n) (start + n * 32) 0xE5

/-- What `fat32_unlink` returns: `VFS_OK`, -EISDIR, or -1. -/
inductive UnlinkResult
  | ok
  | isDir
  | missing
  deriving DecidableEq

variable (s : FatNode)

def removeEntry (cluster ptr start : Nat) : Option (UnlinkResult × FatNode) :=
  let info := s.info.toFatGeometry
  let dirBuf := s.disk.readCluster info cluster
  if isDirectory dirBuf ptr then some (.isDir, s)
  else
    let marked := markDeleted dirBuf start ((ptr + 32 - start + 31) / 32)
    let disk := s.disk.write info.bytesPerSector (fat32ClusterToSector info cluster) marked info.bytesPerCluster
    (fat32FreeClusterChain fuel ⟨disk, s.info⟩ (entryCluster dirBuf ptr)).map fun s => (.ok, s)

/-- The loop over the clusters in `fat32_unlink`: the cluster, the offset of the entry, and of the first entry that is
deleted with it. -/
def unlinkLoop (disk : Disk) (info : FatGeometry) (path : List UInt8) : Nat → Nat → Option (Option (Nat × Nat × Nat))
  | 0, _ => none
  | fuel + 1, currentCluster =>
    if currentCluster < endOfChain then
      match unlinkEntries (disk.readCluster info currentCluster) path info.entriesPerCluster 0 Lfn.empty none with
      | .found (ptr, start) => some (some (currentCluster, ptr, start))
      | .terminated => some none
      | .exhausted => unlinkLoop disk info path fuel (fat32GetNextCluster disk info currentCluster)
    else some none

variable (path : List UInt8)

/-- `fat32_unlink`; the private data are those of the directory. -/
def fat32Unlink : Option (UnlinkResult × FatNode) := do
  match ← unlinkLoop s.disk s.info path fuel s.info.cluster with
  | none => some (.missing, s)
  | some (cluster, ptr, start) => removeEntry fuel s cluster ptr start

/-! ### `fat32_create` -/

def toUppercase (b : UInt8) : UInt8 := if 97 ≤ b ∧ b ≤ 122 then b - 32 else b

/-- `name83`: up to eight bytes before a dot, and up to three after it. -/
def shortName : List UInt8 :=
  let base := (path.takeWhile (· ≠ 0x2E)).take 8
  let extension := match path.drop base.length with
    | 0x2E :: rest => rest.take 3
    | _ => []
  (base.map toUppercase).rightpad 8 0x20 ++ (extension.map toUppercase).rightpad 3 0x20

def fat32SfnChecksum (shortName : List UInt8) : Nat :=
  shortName.foldl (fun sum b => ((if sum % 2 = 1 then 0x80 else 0) ||| sum >>> 1) + b.toNat &&& 0xFF) 0

def entriesNeeded : Nat := lfnCount (fat32Utf8ToUtf16 path maxLongFilename) + 1

/-- The loop over the entries of a cluster in `fat32_create`: `free_count` and `found_offset` at its end. -/
def freeRun (dirBuf : Bytes) (needed : Nat) : Nat → Nat → Nat → Nat → Nat × Nat
  | 0, _, freeCount, foundOffset => (freeCount, foundOffset)
  | left + 1, i, freeCount, foundOffset =>
    if dirBuf i = 0x00 ∨ dirBuf i = 0xE5 then
      let foundOffset := if freeCount = 0 then i else foundOffset
      if freeCount + 1 = needed then (freeCount + 1, foundOffset)
      else freeRun dirBuf needed left (i + 32) (freeCount + 1) foundOffset
    else freeRun dirBuf needed left (i + 32) 0 foundOffset

/-- Where the new entries go: the sector and the buffer of the cluster, and the offset in it. -/
structure Place where
  sector : Nat
  dirBuf : Bytes
  offset : Nat

/-- The loop over the clusters in `fat32_create`: the last cluster it looked at, and the place it found. -/
def searchLoop (disk : Disk) (info : FatGeometry) (needed : Nat) : Nat → Nat → Nat → Option (Nat × Option Place)
  | 0, _, _ => none
  | fuel + 1, currentCluster, lastCluster =>
    if currentCluster < endOfChain then
      let dirBuf := disk.readCluster info currentCluster
      let (freeCount, foundOffset) := freeRun dirBuf needed info.entriesPerCluster 0 0 0
      if freeCount = needed then
        some (currentCluster, some ⟨fat32ClusterToSector info currentCluster, dirBuf, foundOffset⟩)
      else searchLoop disk info needed fuel (fat32GetNextCluster disk info currentCluster) currentCluster
    else some (lastCluster, none)

/-- `last_cluster` linked to a new cluster in every copy of the FAT; the top bits of the entry are not kept. -/
def linkCluster (disk : Disk) (info : FatGeometry) (lastCluster newCluster : Nat) : Disk :=
  let sector := u32 (info.fatStartSector + u32 (lastCluster * 4) / info.bytesPerSector)
  let fatBuf := disk.read info.bytesPerSector sector
  let offset := lastCluster % (info.bytesPerSector / 4)
  writeFats info sector (fatBuf.putWord32 (4 * offset) newCluster) info.fatsCount disk

def zeroCluster (disk : Disk) (info : FatGeometry) (cluster : Nat) : Disk :=
  disk.write info.bytesPerSector (fat32ClusterToSector info cluster) (fun _ => 0) info.bytesPerCluster

def growDirectory (lastCluster : Nat) : Option Place × FatNode :=
  let (newCluster, s) := fat32AllocateCluster s
  let info := s.info.toFatGeometry
  if newCluster ≠ 0 ∧ newCluster < endOfChain then
    let disk := zeroCluster (linkCluster s.disk info lastCluster newCluster) info newCluster
    (some ⟨fat32ClusterToSector info newCluster, fun _ => 0, 0⟩, ⟨disk, s.info⟩)
  else (none, s)

def findPlace : Option (Option Place × FatNode) := do
  let (lastCluster, place) ←
    searchLoop s.disk s.info (entriesNeeded path) fuel s.info.cluster s.info.cluster
  match place with
  | some place => some (some place, s)
  | none => some (growDirectory s lastCluster)

def shortEntry (name : List UInt8) (cluster : Nat) : Bytes := fun i =>
  if i < 11 then name.getD i 0
  else if i = 11 then 0x20
  else if i = 20 ∨ i = 21 then Bytes.littleEndian (cluster >>> 16 &&& 0xFFFF) (i - 20)
  else if i = 26 ∨ i = 27 then Bytes.littleEndian (cluster &&& 0xFFFF) (i - 26)
  else 0

def buildEntries (cluster : Nat) (place : Place) : Bytes :=
  let units := fat32Utf8ToUtf16 path maxLongFilename
  let name := shortName path
  let dirBuf := buildLfn units (fat32SfnChecksum name) place.offset (lfnCount units) place.dirBuf
  dirBuf.copy (place.offset + lfnCount units * 32) (shortEntry name cluster) 32

/-- The file is given a cluster, and its entries and the cluster are written; without a free cluster it is given
cluster 0. -/
def writeEntries (place : Place) : FatNode :=
  let (newCluster, s) := fat32AllocateCluster s
  let info := s.info.toFatGeometry
  let disk := s.disk.write info.bytesPerSector place.sector (buildEntries path newCluster place) info.bytesPerCluster
  ⟨zeroCluster disk info newCluster, s.info⟩

/-- `fat32_create`: the private data of the new file, or `none` for -1; the private data of the state are those of the
directory. -/
def fat32Create : Option (Option Fat32InternalData × FatNode) := do
  match ← findPlace fuel s path with
  | (some place, s) =>
    let s := writeEntries s path place
    let found ← fat32Lookup fuel s.disk s.info path
    some (found, s)
  | (none, s) => some (none, s)

/-! ### `fat32_readdir` -/

structure Dirent where
  ino : Nat
  off : Nat
  reclen : Nat
  type : Nat
  name : List UInt8
  deriving DecidableEq

/-- The length of a record: the 19 bytes before `d_name`, the name and a zero, up to a multiple of eight. -/
def recordLength (name : List UInt8) : Nat := (19 + name.length + 1 + 7) / 8 * 8

def listedName (lfn : Lfn) (dirBuf : Bytes) (ptr : Nat) : List UInt8 :=
  toLowercase (if lfn.active then lfn.name else sfnName dirBuf ptr)

/-- The conversion of an `int`, given by its 32 bits, to `uint64_t`. -/
def intToU64 (n : Nat) : Nat := if u32 n < 2 ^ 31 then u32 n else u32 n + (2 ^ 64 - 2 ^ 32)

/-- The record of the file at `ptr`, which is the one of number `index`. -/
def makeDirent (lfn : Lfn) (dirBuf : Bytes) (ptr index : Nat) : Dirent :=
  let name := listedName lfn dirBuf ptr
  { ino := if entryCluster dirBuf ptr = 0 then 2 else entryCluster dirBuf ptr
    off := intToU64 (index + 1)
    reclen := recordLength name
    type := if isDirectory dirBuf ptr then 4 else 8
    name := name }

/-- What `fat32_readdir` has done: the number of files it has seen, the position, the number of bytes and the records in
the buffer. The two numbers are the bits of an `int`. -/
structure Listing where
  index : Nat
  pos : Nat
  bytesWritten : Nat
  records : List Dirent
  deriving DecidableEq

/-- What is done with the record of a file: it is put into the buffer, or left out because it lies before the position;
`none` if the buffer is full. -/
def Listing.offer (listing : Listing) (len : Int) (record : Dirent) : Option Listing :=
  if listing.pos ≤ intToU64 listing.index then
    if len < toInt (listing.bytesWritten + record.reclen) then none
    else some
      { index := u32 (listing.index + 1)
        pos := intToU64 (listing.index + 1)
        bytesWritten := u32 (listing.bytesWritten + record.reclen)
        records := listing.records ++ [record] }
  else some { listing with index := u32 (listing.index + 1) }

/-- The loop over the entries in `fat32_readdir`; `found` means that the buffer is full. -/
def readdirEntries (dirBuf : Bytes) (len : Int) : Nat → Nat → Lfn → Listing → EntryScan Unit × Listing
  | 0, _, _, listing => (.exhausted, listing)
  | left + 1, ptr, lfn, listing =>
    match entryKind dirBuf ptr with
    | .terminator => (.terminated, listing)
    | .deleted => readdirEntries dirBuf len left (ptr + 32) lfn listing
    | .longName => readdirEntries dirBuf len left (ptr + 32) (lfn.readEntry dirBuf ptr) listing
    | .short =>
      match listing.offer len (makeDirent lfn dirBuf ptr listing.index) with
      | none => (.found (), listing)
      | some listing => readdirEntries dirBuf len left (ptr + 32) (if lfn.active then Lfn.empty else lfn) listing

/-- The loop over the clusters in `fat32_readdir`. After a terminator it reads the entry of cluster `0x0FFFFFFF`. -/
def readdirLoop (disk : Disk) (info : FatGeometry) (len : Int) : Nat → Nat → Listing → Option Listing
  | 0, _, _ => none
  | fuel + 1, currentCluster, listing =>
    if 2 ≤ currentCluster ∧ currentCluster < endOfChain then
      match readdirEntries (disk.readCluster info currentCluster) len info.entriesPerCluster 0 Lfn.empty listing with
      | (.found _, listing) => some listing
      | (.terminated, listing) => readdirLoop disk info len fuel (fat32GetNextCluster disk info 0x0FFFFFFF) listing
      | (.exhausted, listing) => readdirLoop disk info len fuel (fat32GetNextCluster disk info currentCluster) listing
    else some listing

def fat32Readdir (disk : Disk) (info : Fat32InternalData) (len pos : Nat) : Option (Int × List Dirent × Nat) :=
  if len = 0 then some (-1, [], pos)
  else
    (readdirLoop disk info (toInt len) fuel info.cluster ⟨0, pos, 0, []⟩).map fun listing =>
      (toInt listing.bytesWritten, listing.records, listing.pos)

end Voxia.Fs
