/-
**FAT32: the table of clusters, and writing and truncating a file.**

The functions of `fs/fat32.c` that work on the FAT, the FSInfo sector and the data clusters of a file.
The device is an image of bytes with a record of every write made to it. Each vnode has its own
`fat32_internal_data`, so each has its own copy of the FSInfo sector and writes it back whole. Block
reads and writes succeed, and so does `kalloc`; sector and cluster numbers are 32-bit words.
-/

import Voxia.Lib.Bytes
import Voxia.Machine

namespace Voxia.Fs

open Lib

/-! ### The block device -/

/-- A block device: its bytes, and the writes made to it (first byte and length), newest first. -/
structure Disk where
  bytes : Bytes
  writes : List (Nat × Nat)

variable (disk : Disk)

def Disk.read (bytesPerSector sector : Nat) : Bytes :=
  disk.bytes.window (sector * bytesPerSector)

def Disk.write (bytesPerSector sector : Nat) (buf : Bytes) (count : Nat) : Disk where
  bytes := disk.bytes.copy (sector * bytesPerSector) buf count
  writes := (sector * bytesPerSector, count) :: disk.writes

/-! ### What a vnode holds -/

/-- `struct fat32_fsinfo`: the two words the code changes, and the other bytes of the sector. -/
structure Fsinfo where
  freeClusterCount : Nat
  nextFreeCluster : Nat
  other : Bytes

def Fsinfo.toBytes (fsinfo : Fsinfo) : Bytes :=
  (fsinfo.other.putWord32 488 fsinfo.freeClusterCount).putWord32 492 fsinfo.nextFreeCluster

/-- The fields of `struct fat32_internal_data` that are the same for every vnode of a volume. -/
structure FatGeometry where
  sizeInSectors : Nat
  firstDataSector : Nat
  sectorsPerCluster : Nat
  bytesPerSector : Nat
  fatStartSector : Nat
  fsinfoSector : Nat
  fatsCount : Nat
  backupBootSector : Nat
  dataSectors : Nat
  deriving DecidableEq

structure Fat32InternalData extends FatGeometry where
  cluster : Nat
  size : Nat
  flags : Nat
  dirSector : Nat
  dirOffset : Nat
  fsinfo : Fsinfo

instance : Coe Fat32InternalData FatGeometry := ⟨Fat32InternalData.toFatGeometry⟩

/-- The device and the private data of the vnode an operation works with. -/
structure FatNode where
  disk : Disk
  info : Fat32InternalData

structure Vnode where
  size : Nat
  vnodePrivate : Fat32InternalData

/-- The marks at the end of a chain are the values from here on. -/
def endOfChain : Nat := 0x0FFFFFF8

def entryMask : Nat := 0x0FFFFFFF

def unknownCount : Nat := 0xFFFFFFFF

def FatGeometry.bytesPerCluster (geo : FatGeometry) : Nat := u32 (geo.sectorsPerCluster * geo.bytesPerSector)

def FatGeometry.maxCluster (geo : FatGeometry) : Nat := geo.dataSectors / geo.sectorsPerCluster

/-! ### The table -/

def fat32GetNextCluster (info : FatGeometry) (currentCluster : Nat) : Nat :=
  let fatOffset := u32 (currentCluster * 4)
  let fatSector := u32 (info.fatStartSector + fatOffset / info.bytesPerSector)
  let entOffset := fatOffset % info.bytesPerSector
  let secBuf := disk.read info.bytesPerSector fatSector
  secBuf.word32 entOffset &&& entryMask

/-- `fat32_cluster_to_sector`: `cluster - 2` wraps below 2. -/
def fat32ClusterToSector (info : FatGeometry) (cluster : Nat) : Nat :=
  u32 (info.firstDataSector + u32 (cluster + (2 ^ 32 - 2)) * info.sectorsPerCluster)

/-- The loop that writes a sector of the FAT to the first `count` copies of it. -/
def writeFats (info : FatGeometry) (sector : Nat) (buf : Bytes) : Nat → Disk → Disk
  | 0, disk => disk
  | f + 1, disk =>
    (writeFats info sector buf f disk).write info.bytesPerSector (u32 (sector + f * info.sizeInSectors)) buf
      info.bytesPerSector

variable (info : Fat32InternalData)

def fat32WriteFsinfo : Disk :=
  let disk := disk.write info.bytesPerSector info.fsinfoSector info.fsinfo.toBytes 512
  if info.backupBootSector ≠ 0 ∧ info.backupBootSector ≠ 0xFFFF then
    disk.write info.bytesPerSector (u32 (info.backupBootSector + info.fsinfoSector)) info.fsinfo.toBytes 512
  else disk

def Fsinfo.afterAllocate (fsinfo : Fsinfo) (maxCluster cluster : Nat) : Fsinfo :=
  { fsinfo with
    nextFreeCluster := if u32 (maxCluster + 2) ≤ u32 (cluster + 1) then 2 else u32 (cluster + 1)
    freeClusterCount :=
      if fsinfo.freeClusterCount ≠ unknownCount then u32 (fsinfo.freeClusterCount + (2 ^ 32 - 1))
      else fsinfo.freeClusterCount }

/-- What `fat32_allocate_cluster` does once the entry at `offset` of the sector in `fatBuf` is free. -/
def takeCluster (s : FatNode) (cluster sector offset : Nat) (fatBuf : Bytes) : FatNode :=
  let fatBuf := fatBuf.putWord32 (4 * offset) 0x0FFFFFFF
  let disk := writeFats s.info sector fatBuf s.info.fatsCount s.disk
  let info := { s.info with fsinfo := s.info.fsinfo.afterAllocate s.info.maxCluster cluster }
  ⟨fat32WriteFsinfo disk info, info⟩

/-- The loop of `fat32_allocate_cluster`: `left` rounds from round `i` on. -/
def allocateFrom (s : FatNode) (start : Nat) : Nat → Nat → Nat × FatNode
  | 0, _ => (0, s)
  | left + 1, i =>
    let cluster := u32 (u32 (start - 2 + i) % s.info.maxCluster + 2)
    let sector := u32 (s.info.fatStartSector + u32 (cluster * 4) / s.info.bytesPerSector)
    let fatBuf := s.disk.read s.info.bytesPerSector sector
    let offset := cluster % (s.info.bytesPerSector / 4)
    if fatBuf.word32 (4 * offset) &&& entryMask = 0 then (cluster, takeCluster s cluster sector offset fatBuf)
    else allocateFrom s start left (i + 1)

/-- `fat32_allocate_cluster`: the cluster, or 0 if none is free. -/
def fat32AllocateCluster (s : FatNode) : Nat × FatNode :=
  let maxCluster := s.info.maxCluster
  let hint := s.info.fsinfo.nextFreeCluster
  let start := if hint < 2 ∨ u32 (maxCluster + 2) ≤ hint then 2 else hint
  allocateFrom s start maxCluster 0

/-- `fat32_set_next_cluster`: the top four bits of the entry are kept. -/
def fat32SetNextCluster (info : FatGeometry) (currentCluster nextCluster : Nat) : Disk :=
  let fatOffset := u32 (currentCluster * 4)
  let fatSector := u32 (info.fatStartSector + fatOffset / info.bytesPerSector)
  let entOffset := fatOffset % info.bytesPerSector
  let secBuf := disk.read info.bytesPerSector fatSector
  let oldVal := secBuf.word32 entOffset
  let value := (oldVal &&& 0xF0000000) ||| (nextCluster &&& entryMask)
  writeFats info fatSector (secBuf.putWord32 entOffset value) info.fatsCount disk

/-- The buffer of one FAT sector in `fat32_free_cluster_chain`: the sector it holds, if any, its bytes,
and whether they differ from the disk's. -/
structure FatBuffer where
  sectorIdx : Option Nat
  bytes : Bytes
  dirty : Bool

def FatBuffer.flush (buffer : FatBuffer) (disk : Disk) (info : FatGeometry) : Disk :=
  match buffer.sectorIdx with
  | some idx =>
    if buffer.dirty then writeFats info (u32 (info.fatStartSector + idx)) buffer.bytes info.fatsCount disk
    else disk
  | none => disk

def FatBuffer.load (buffer : FatBuffer) (disk : Disk) (info : FatGeometry) (idx : Nat) : FatBuffer × Disk :=
  if buffer.sectorIdx = some idx then (buffer, disk)
  else
    let disk := buffer.flush disk info
    (⟨some idx, disk.read info.bytesPerSector (u32 (info.fatStartSector + idx)), false⟩, disk)

/-- The loop of `fat32_free_cluster_chain`: the number of entries cleared and the disk. -/
def freeChainFrom (info : FatGeometry) : Nat → Disk → FatBuffer → Nat → Nat → Option (Nat × Disk)
  | 0, _, _, _, _ => none
  | fuel + 1, disk, buffer, current, freed =>
    if 2 ≤ current ∧ current < endOfChain then
      let entries := info.bytesPerSector / 4
      let (buffer, disk) := buffer.load disk info (current / entries)
      let offset := 4 * (current % entries)
      let next := buffer.bytes.word32 offset &&& entryMask
      freeChainFrom info fuel disk ⟨buffer.sectorIdx, buffer.bytes.putWord32 offset 0, true⟩ next (freed + 1)
    else some (freed, buffer.flush disk info)

def Fsinfo.afterFree (fsinfo : Fsinfo) (freed : Nat) : Fsinfo :=
  { fsinfo with freeClusterCount := u32 (fsinfo.freeClusterCount + freed) }

/-- The count of free clusters of a vnode's copy, and the sector, after `freed` clusters were freed. -/
def addFreed (freed : Nat) : FatNode :=
  if 0 < freed then
    let info := { info with fsinfo := info.fsinfo.afterFree freed }
    ⟨fat32WriteFsinfo disk info, info⟩
  else ⟨disk, info⟩

def fat32FreeClusterChain (fuel : Nat) (s : FatNode) (startCluster : Nat) : Option FatNode :=
  if startCluster = 0 ∨ endOfChain ≤ startCluster then some s
  else do
    let (freed, disk) ← freeChainFrom s.info fuel s.disk ⟨none, fun _ => 0, false⟩ startCluster 0
    some (addFreed disk s.info freed)

/-! ### Writing a file -/

def toInt (n : Nat) : Int := if u32 n < 2 ^ 31 then u32 n else (u32 n : Int) - 2 ^ 32

/-- The step both loops of `fat32_write` make: the next cluster of the chain, or a new one linked to its
end, or 0 if no cluster is free. -/
def nextOrAllocate (s : FatNode) (currentCluster : Nat) : Nat × FatNode :=
  let next := fat32GetNextCluster s.disk s.info currentCluster
  if endOfChain ≤ next ∨ next = 0 then
    let (next, s) := fat32AllocateCluster s
    if next = 0 then (0, s)
    else (next, ⟨fat32SetNextCluster s.disk s.info currentCluster next, s.info⟩)
  else (next, s)

/-- The first cluster of the file, allocated if it has none; 0 if no cluster is free. -/
def firstCluster (s : FatNode) : Nat × FatNode :=
  if s.info.cluster = 0 then
    let (cluster, s) := fat32AllocateCluster s
    if cluster = 0 then (0, s) else (cluster, ⟨s.disk, { s.info with cluster := cluster }⟩)
  else (s.info.cluster, s)

/-- The first loop of `fat32_write`: the cluster that holds `offset` and the offset it starts at, or
`none` if the clusters ran out before. -/
def reachOffset (offset : Nat) : Nat → FatNode → Nat → Nat → Option (Nat × Nat) × FatNode
  | 0, s, _, _ => (none, s)
  | fuel + 1, s, currentCluster, currentOffset =>
    if currentOffset + s.info.bytesPerCluster ≤ offset then
      let (next, s) := nextOrAllocate s currentCluster
      if next = 0 then (none, s)
      else reachOffset offset fuel s next (currentOffset + s.info.bytesPerCluster)
    else (some (currentCluster, currentOffset), s)

/-- One cluster written: the bytes of `buf` from `done` on, at `byteOffset` of the cluster. A part of a
cluster is read, changed and written back; `tempBuf` is what the buffer held before. -/
def writeCluster (s : FatNode) (cluster byteOffset : Nat) (buf : Bytes) (done count : Nat) (tempBuf : Bytes) :
    FatNode × Bytes :=
  let bytesPerCluster := s.info.bytesPerCluster
  let sector := fat32ClusterToSector s.info cluster
  let tempBuf := if count < bytesPerCluster then s.disk.read s.info.bytesPerSector sector else tempBuf
  let tempBuf := tempBuf.copy byteOffset (buf.window done) count
  (⟨s.disk.write s.info.bytesPerSector sector tempBuf bytesPerCluster, s.info⟩, tempBuf)

/-- The second loop of `fat32_write`: the number of bytes not written. -/
def writeClusters (buf : Bytes) : Nat → FatNode → Nat → Nat → Nat → Nat → Bytes → Nat × FatNode
  | 0, s, _, _, _, left, _ => (left, s)
  | fuel + 1, s, currentCluster, byteOffset, done, left, tempBuf =>
    if 0 < left ∧ currentCluster < endOfChain then
      let count := min (s.info.bytesPerCluster - byteOffset) left
      let (s, tempBuf) := writeCluster s currentCluster byteOffset buf done count tempBuf
      let left := left - count
      if 0 < left then
        let (next, s) := nextOrAllocate s currentCluster
        if next = 0 then (left, s)
        else writeClusters buf fuel s next 0 (done + count) left tempBuf
      else (left, s)
    else (left, s)

def updateDirEntry : Disk :=
  let dirBuf := disk.read info.bytesPerSector info.dirSector
  let dirBuf := dirBuf.putWord32 (info.dirOffset + 28) info.size
  let dirBuf := dirBuf.putWord16 (info.dirOffset + 20) (info.cluster >>> 16)
  let dirBuf := dirBuf.putWord16 (info.dirOffset + 26) (info.cluster &&& 0xFFFF)
  disk.write info.bytesPerSector info.dirSector dirBuf info.bytesPerCluster

/-- The vnode once a write is known to reach past the end of the file. -/
def Vnode.extend (v : Vnode) (size : Nat) : Vnode :=
  { size := size, vnodePrivate := { v.vnodePrivate with size := size } }

/-- `fat32_write` after the first cluster is known: what it returns, and the state. -/
def writeFrom (s : FatNode) (buf : Bytes) (len offset cluster : Nat) (fileExtended : Bool) : Int × FatNode :=
  match reachOffset offset (offset + 1) s cluster 0 with
  | (none, s) => (0, s)
  | (some (cluster, currentOffset), s) =>
    let (left, s) := writeClusters buf len s cluster (offset - currentOffset) 0 len (fun _ => 0)
    let disk := if fileExtended ∧ s.info.dirSector ≠ 0 then updateDirEntry s.disk s.info else s.disk
    ((len - left : Nat), ⟨disk, s.info⟩)

def fat32Write (v : Vnode) (buf : Bytes) (len offset : Nat) : Int × Disk × Vnode :=
  if len = 0 then (-1, disk, v)
  else
    let grown := v.vnodePrivate.size < u64 (offset + len)
    let v := if grown then v.extend (u32 (offset + len)) else v
    let (cluster, s) := firstCluster ⟨disk, v.vnodePrivate⟩
    if cluster = 0 then (0, s.disk, { v with vnodePrivate := s.info })
    else
      let (written, s) := writeFrom s buf len offset cluster (grown ∨ v.vnodePrivate.cluster = 0)
      (written, s.disk, { v with vnodePrivate := s.info })

/-! ### Truncating a file -/

def fat32Truncate (fuel : Nat) (disk : Disk) (v : Vnode) (length : Nat) : Option (Int × Disk × Vnode) :=
  if length ≠ 0 then some (-1, disk, v)
  else if v.vnodePrivate.size = 0 then some (0, disk, v)
  else do
    let s ← fat32FreeClusterChain fuel ⟨disk, v.vnodePrivate⟩ v.vnodePrivate.cluster
    let info := { s.info with cluster := 0, size := 0 }
    let disk := if info.dirSector ≠ 0 then updateDirEntry s.disk info else s.disk
    some (0, disk, ⟨0, info⟩)

end Voxia.Fs
