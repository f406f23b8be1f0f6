/-
**What the functions on the FAT do to a volume.**

A volume of consistent geometry (`WellFormed`) has its reserved sectors with the FSInfo sector first, then the copies
of the FAT, then the data clusters. What matters of its bytes is the entry of every cluster in the first FAT
(`fatOf`). The functions that write a sector of the FAT write all its copies and nothing else (`TableOnly`).
-/

import Voxia.Fs.Fat32
import Voxia.Lib.Chains
import Mathlib.Data.Finset.Card
import Mathlib.Order.Interval.Finset.Nat

namespace Voxia.Fs

open Lib List Nat Bytes

/-! ### Geometry -/

/-- The layout a consistent parameter block describes. -/
structure WellFormed (geo : FatGeometry) : Prop where
  sectorBytes : 512 ≤ geo.bytesPerSector
  slots : 32 ∣ geo.bytesPerSector
  clusterSectors : 0 < geo.sectorsPerCluster
  clusterWord : geo.sectorsPerCluster * geo.bytesPerSector < 2 ^ 32
  copies : 0 < geo.fatsCount
  dataStart : geo.firstDataSector = geo.fatStartSector + geo.fatsCount * geo.sizeInSectors
  tableRoom : (geo.maxCluster + 2) * 4 ≤ geo.sizeInSectors * geo.bytesPerSector
  numbers : geo.maxCluster + 2 ≤ 0x0FFFFFF7
  sectors : geo.firstDataSector + geo.dataSectors < 2 ^ 32
  fsinfo : geo.fsinfoSector < geo.fatStartSector
  backup : geo.backupBootSector = 0 ∨ geo.backupBootSector = 0xFFFF ∨
    geo.backupBootSector + geo.fsinfoSector < geo.fatStartSector

def ValidCluster (geo : FatGeometry) (c : Nat) : Prop := 2 ≤ c ∧ c < geo.maxCluster + 2

instance (geo : FatGeometry) (c : Nat) : Decidable (ValidCluster geo c) :=
  inferInstanceAs (Decidable (_ ∧ _))

/-- The first byte of the FAT, of the data clusters, of a cluster and of its FAT entry. -/
def tableStart (geo : FatGeometry) : Nat := geo.fatStartSector * geo.bytesPerSector

def dataStart (geo : FatGeometry) : Nat := geo.firstDataSector * geo.bytesPerSector

def clusterAddr (geo : FatGeometry) (c : Nat) : Nat :=
  (geo.firstDataSector + (c - 2) * geo.sectorsPerCluster) * geo.bytesPerSector

/-! ### What matters of the bytes of a volume -/

def fatOf (geo : FatGeometry) (bytes : Bytes) (c : Nat) : Nat :=
  bytes.word32 (tableStart geo + 4 * c) &&& entryMask

def cell (geo : FatGeometry) (bytes : Bytes) (c i : Nat) : UInt8 := bytes (clusterAddr geo c + i)

section Layout

variable {geo : FatGeometry} (wf : WellFormed geo)

include wf

theorem WellFormed.bytes_pos : 0 < geo.bytesPerSector := by
  have := wf.sectorBytes
  omega

theorem WellFormed.bytesPerCluster_eq : geo.bytesPerCluster = geo.sectorsPerCluster * geo.bytesPerSector :=
  u32_of_lt wf.clusterWord

theorem WellFormed.four_mul : 4 * (geo.bytesPerSector / 4) = geo.bytesPerSector :=
  Nat.mul_div_cancel' (dvd_trans (by decide) wf.slots)

variable {c : Nat}

omit wf in
theorem ValidCluster.sectors (valid : ValidCluster geo c) :
    (c - 2) * geo.sectorsPerCluster + geo.sectorsPerCluster ≤ geo.dataSectors := by
  have below : c - 2 + 1 ≤ geo.maxCluster := by
    have := valid.1
    have := valid.2
    omega
  calc (c - 2) * geo.sectorsPerCluster + geo.sectorsPerCluster = (c - 2 + 1) * geo.sectorsPerCluster := by ring
    _ ≤ geo.maxCluster * geo.sectorsPerCluster := Nat.mul_le_mul_right _ below
    _ ≤ geo.dataSectors := div_mul_le_self _ _

theorem WellFormed.valid_lt (valid : ValidCluster geo c) : c < endOfChain := by
  have := valid.2
  have := wf.numbers
  unfold endOfChain
  omega

theorem WellFormed.clusterToSector_eq (valid : ValidCluster geo c) :
    fat32ClusterToSector geo c = geo.firstDataSector + (c - 2) * geo.sectorsPerCluster := by
  have fits := valid.sectors
  have room := wf.sectors
  have small := wf.valid_lt valid
  have low := valid.1
  have wrap : u32 (c + (2 ^ 32 - 2)) = c - 2 := by
    unfold u32 endOfChain at *
    omega
  rw [fat32ClusterToSector, wrap]
  exact u32_of_lt (by omega)

theorem WellFormed.clusterToSector_mul (valid : ValidCluster geo c) :
    fat32ClusterToSector geo c * geo.bytesPerSector = clusterAddr geo c := by
  rw [wf.clusterToSector_eq valid, clusterAddr]

theorem WellFormed.tableStart_le : tableStart geo + geo.sizeInSectors * geo.bytesPerSector ≤ Fs.dataStart geo := by
  have one : geo.sizeInSectors ≤ geo.fatsCount * geo.sizeInSectors := Nat.le_mul_of_pos_left _ wf.copies
  calc tableStart geo + geo.sizeInSectors * geo.bytesPerSector
      = (geo.fatStartSector + geo.sizeInSectors) * geo.bytesPerSector := by rw [tableStart]; ring
    _ ≤ (geo.fatStartSector + geo.fatsCount * geo.sizeInSectors) * geo.bytesPerSector :=
        Nat.mul_le_mul_right _ (Nat.add_le_add_left one _)
    _ = Fs.dataStart geo := by rw [Fs.dataStart, wf.dataStart]

theorem WellFormed.entry_room (valid : c < geo.maxCluster + 2) :
    4 * c + 4 ≤ geo.sizeInSectors * geo.bytesPerSector := by
  have := wf.tableRoom
  omega

theorem fatOf_of_low {bytes bytes' : Bytes} (same : ∀ a < Fs.dataStart geo, bytes' a = bytes a)
    (valid : ValidCluster geo c) : fatOf geo bytes' c = fatOf geo bytes c := by
  have room := wf.entry_room valid.2
  have table := wf.tableStart_le
  rw [fatOf, fatOf, word32_congr fun i less => same _ (by omega)]

omit wf in
theorem dataStart_le_clusterAddr (c : Nat) : Fs.dataStart geo ≤ clusterAddr geo c :=
  Nat.mul_le_mul_right _ (le_add_right _ _)

theorem WellFormed.clusterAddr_add_le {d : Nat} (low : 2 ≤ c) (less : c < d) :
    clusterAddr geo c + geo.bytesPerCluster ≤ clusterAddr geo d := by
  have steps : c - 2 + 1 ≤ d - 2 := by omega
  calc clusterAddr geo c + geo.bytesPerCluster
      = (geo.firstDataSector + (c - 2 + 1) * geo.sectorsPerCluster) * geo.bytesPerSector := by
        rw [clusterAddr, wf.bytesPerCluster_eq]; ring
    _ ≤ clusterAddr geo d :=
        Nat.mul_le_mul_right _ (Nat.add_le_add_left (Nat.mul_le_mul_right _ steps) _)

end Layout

/-! ### What a step changes -/

def InTable (geo : FatGeometry) (a : Nat) : Prop := tableStart geo ≤ a ∧ a < dataStart geo

/-- A step that writes to the FATs only. -/
structure TableOnly (geo : FatGeometry) (disk disk' : Disk) : Prop where
  outside : ∀ a, a < tableStart geo ∨ dataStart geo ≤ a → disk'.bytes a = disk.bytes a
  writes : ∃ made, disk'.writes = made ++ disk.writes ∧ ∀ w ∈ made, ∀ i < w.2, InTable geo (w.1 + i)

namespace TableOnly

variable {geo : FatGeometry} {disk disk' disk'' : Disk}

theorem refl (disk : Disk) : TableOnly geo disk disk :=
  ⟨fun _ _ => rfl, [], rfl, fun _ inside => absurd inside not_mem_nil⟩

theorem trans (first : TableOnly geo disk disk') (second : TableOnly geo disk' disk'') :
    TableOnly geo disk disk'' where
  outside a apart := (second.outside a apart).trans (first.outside a apart)
  writes := by
    obtain ⟨made, eq, regions⟩ := first.writes
    obtain ⟨made', eq', regions'⟩ := second.writes
    refine ⟨made' ++ made, by rw [eq', eq, append_assoc], fun w inside => ?_⟩
    rcases mem_append.mp inside with late | early
    · exact regions' w late
    · exact regions w early

end TableOnly

section Table

variable {geo : FatGeometry} (wf : WellFormed geo)

include wf

/-! ### One sector of the FAT -/

variable {q n c : Nat}

section

variable (inside : q < geo.sizeInSectors)

include inside

theorem WellFormed.copy_sector (few : n < geo.fatsCount) :
    geo.fatStartSector + q + n * geo.sizeInSectors + 1 ≤ geo.firstDataSector := by
  have copies : (n + 1) * geo.sizeInSectors ≤ geo.fatsCount * geo.sizeInSectors := Nat.mul_le_mul_right _ few
  rw [add_mul, one_mul] at copies
  rw [wf.dataStart]
  omega

theorem WellFormed.copy_word (few : n < geo.fatsCount) :
    u32 (geo.fatStartSector + q + n * geo.sizeInSectors) = geo.fatStartSector + q + n * geo.sizeInSectors := by
  have below := wf.copy_sector inside few
  have room := wf.sectors
  exact u32_of_lt (by omega)

theorem WellFormed.copy_bytes (few : n < geo.fatsCount) :
    tableStart geo + (q + n * geo.sizeInSectors) * geo.bytesPerSector =
        (geo.fatStartSector + q + n * geo.sizeInSectors) * geo.bytesPerSector ∧
      (geo.fatStartSector + q + n * geo.sizeInSectors) * geo.bytesPerSector + geo.bytesPerSector ≤
        Fs.dataStart geo := by
  refine ⟨by rw [tableStart]; ring, ?_⟩
  calc (geo.fatStartSector + q + n * geo.sizeInSectors) * geo.bytesPerSector + geo.bytesPerSector
      = (geo.fatStartSector + q + n * geo.sizeInSectors + 1) * geo.bytesPerSector := by ring
    _ ≤ Fs.dataStart geo := Nat.mul_le_mul_right _ (wf.copy_sector inside few)

theorem writeFats_tableOnly (buf : Bytes) (disk : Disk) :
    TableOnly geo disk (writeFats geo (geo.fatStartSector + q) buf geo.fatsCount disk) := by
  have first : ∀ n ≤ geo.fatsCount, TableOnly geo disk (writeFats geo (geo.fatStartSector + q) buf n disk) := by
    intro n few
    induction n with
    | zero => exact TableOnly.refl disk
    | succ n ih =>
      obtain ⟨start, stop⟩ := wf.copy_bytes inside (show n < geo.fatsCount by omega)
      refine (ih (by omega)).trans ?_
      rw [writeFats, wf.copy_word inside (by omega)]
      refine ⟨fun a apart => copy_outside _ _ (by omega), [(_, _)], rfl, fun w member i less => ?_⟩
      rw [mem_singleton.mp member] at less ⊢
      exact ⟨by omega, by dsimp only at less; omega⟩
  exact first _ le_rfl

end

/-! ### One entry -/

theorem WellFormed.entry_inside (valid : c < geo.maxCluster + 2) : 4 * c / geo.bytesPerSector < geo.sizeInSectors := by
  have room := wf.entry_room valid
  exact (div_lt_iff_lt_mul wf.bytes_pos).mpr (by omega)

theorem WellFormed.entry_index (c : Nat) : 4 * (c % (geo.bytesPerSector / 4)) = 4 * c % geo.bytesPerSector := by
  conv_rhs => rw [← wf.four_mul, mul_mod_mul_left]

theorem WellFormed.entry_offset (c : Nat) : 4 * c % geo.bytesPerSector + 4 ≤ geo.bytesPerSector := by
  rw [← wf.entry_index]
  have less : c % (geo.bytesPerSector / 4) < geo.bytesPerSector / 4 := mod_lt _ (by
    have := wf.sectorBytes
    omega)
  omega

omit wf in
theorem entry_addr (c : Nat) :
    (geo.fatStartSector + 4 * c / geo.bytesPerSector) * geo.bytesPerSector + 4 * c % geo.bytesPerSector =
      tableStart geo + 4 * c := by
  rw [add_mul, add_assoc, div_add_mod', tableStart]

theorem WellFormed.entry_words (valid : c < geo.maxCluster + 2) :
    u32 (c * 4) = 4 * c ∧
      u32 (geo.fatStartSector + 4 * c / geo.bytesPerSector) = geo.fatStartSector + 4 * c / geo.bytesPerSector := by
  have small := wf.numbers
  have word := wf.copy_word (wf.entry_inside valid) wf.copies
  rw [zero_mul, add_zero] at word
  exact ⟨by rw [mul_comm]; exact u32_of_lt (by omega), word⟩

theorem getNextCluster_eq (disk : Disk) (valid : c < geo.maxCluster + 2) :
    fat32GetNextCluster disk geo c = fatOf geo disk.bytes c := by
  obtain ⟨offset, sector⟩ := wf.entry_words valid
  unfold fat32GetNextCluster
  dsimp only
  rw [offset, sector, Disk.read, word32_window, entry_addr, fatOf]

end Table

/-- A word stored in the entry of a cluster, in every copy of the FAT. -/
def setEntry (geo : FatGeometry) (disk : Disk) (c value : Nat) : Disk :=
  let sector := geo.fatStartSector + 4 * c / geo.bytesPerSector
  writeFats geo sector ((disk.read geo.bytesPerSector sector).putWord32 (4 * c % geo.bytesPerSector) value)
    geo.fatsCount disk

/-! ### The FSInfo sector -/

variable {geo : FatGeometry}

theorem reserved_sector {sector : Nat} (before : sector < geo.fatStartSector) :
    sector * geo.bytesPerSector + geo.bytesPerSector ≤ tableStart geo := by
  have step : (sector + 1) * geo.bytesPerSector ≤ tableStart geo := Nat.mul_le_mul_right _ before
  rw [add_mul, one_mul] at step
  exact step

/-- The vnode has a backup of the FSInfo sector to write. -/
def FatGeometry.HasBackup (geo : FatGeometry) : Prop := geo.backupBootSector ≠ 0 ∧ geo.backupBootSector ≠ 0xFFFF

section Fsinfo

variable {info : Fat32InternalData} (wf : WellFormed info)

include wf

theorem WellFormed.backup_sector (backup : info.toFatGeometry.HasBackup) :
    info.backupBootSector + info.fsinfoSector < info.fatStartSector ∧
      u32 (info.backupBootSector + info.fsinfoSector) = info.backupBootSector + info.fsinfoSector := by
  have before : info.backupBootSector + info.fsinfoSector < info.fatStartSector := by
    rcases wf.backup with none | none | before
    · exact absurd none backup.1
    · exact absurd none backup.2
    · exact before
  have room := wf.sectors
  have start := wf.dataStart
  exact ⟨before, u32_of_lt (by omega)⟩

theorem bytes_writeFsinfo (disk : Disk) (a : Nat) :
    (fat32WriteFsinfo disk info).bytes a =
      (disk.bytes.copy (info.fsinfoSector * info.bytesPerSector) info.fsinfo.toBytes 512) a ∨
    info.toFatGeometry.HasBackup ∧
      (info.backupBootSector + info.fsinfoSector) * info.bytesPerSector ≤ a ∧
      a < (info.backupBootSector + info.fsinfoSector) * info.bytesPerSector + 512 := by
  unfold fat32WriteFsinfo
  split
  · next backup =>
    obtain ⟨-, word⟩ := wf.backup_sector backup
    rw [word, Disk.write, Disk.write]
    by_cases inside : (info.backupBootSector + info.fsinfoSector) * info.bytesPerSector ≤ a ∧
        a < (info.backupBootSector + info.fsinfoSector) * info.bytesPerSector + 512
    · exact .inr ⟨backup, inside⟩
    · exact .inl (copy_outside _ _ (by omega))
  · exact .inl rfl

theorem writeFsinfo_high (disk : Disk) {a : Nat} (high : tableStart info ≤ a) :
    (fat32WriteFsinfo disk info).bytes a = disk.bytes a := by
  have wide := wf.sectorBytes
  have before := reserved_sector wf.fsinfo
  rcases bytes_writeFsinfo wf disk a with copied | ⟨backup, -, less⟩
  · rw [copied, copy_outside _ _ (by omega)]
  · have before' := reserved_sector (wf.backup_sector backup).1
    omega

end Fsinfo

/-! ### A cluster taken -/

def FatNode.take (s : FatNode) (c : Nat) : FatNode :=
  let info := { s.info with fsinfo := s.info.fsinfo.afterAllocate s.info.maxCluster c }
  ⟨fat32WriteFsinfo (setEntry s.info s.disk c 0x0FFFFFFF) info, info⟩

/-- The cluster `i` places behind `start`, the clusters taken as a ring. -/
def FatGeometry.ring (geo : FatGeometry) (start i : Nat) : Nat := (start - 2 + i) % geo.maxCluster + 2

theorem ring_valid (geo : FatGeometry) (start i : Nat) (some : 0 < geo.maxCluster) :
    ValidCluster geo (geo.ring start i) := by
  have residue : (start - 2 + i) % geo.maxCluster < geo.maxCluster := mod_lt _ some
  exact ⟨Nat.le_add_left _ _, Nat.add_lt_add_right residue 2⟩

theorem ring_surjective {start c : Nat} (low : 2 ≤ start) (high : start < geo.maxCluster + 2)
    (valid : ValidCluster geo c) : ∃ i < geo.maxCluster, geo.ring start i = c := by
  have lowC := valid.1
  have highC := valid.2
  unfold FatGeometry.ring
  by_cases behind : start ≤ c
  · refine ⟨c - start, by omega, ?_⟩
    rw [show start - 2 + (c - start) = c - 2 by omega, Nat.mod_eq_of_lt (by omega), Nat.sub_add_cancel lowC]
  · refine ⟨geo.maxCluster + c - start, by omega, ?_⟩
    rw [show start - 2 + (geo.maxCluster + c - start) = c - 2 + geo.maxCluster by omega, Nat.add_mod_right,
      Nat.mod_eq_of_lt (by omega), Nat.sub_add_cancel lowC]

def FatNode.searchStart (s : FatNode) : Nat :=
  if s.info.fsinfo.nextFreeCluster < 2 ∨ s.info.maxCluster + 2 ≤ s.info.fsinfo.nextFreeCluster then 2
  else s.info.fsinfo.nextFreeCluster

section Allocate

variable {s : FatNode} (wf : WellFormed s.info)

include wf

theorem takeCluster_eq (c : Nat) :
    takeCluster s c (s.info.fatStartSector + 4 * c / s.info.bytesPerSector) (c % (s.info.bytesPerSector / 4))
      (s.disk.read s.info.bytesPerSector (s.info.fatStartSector + 4 * c / s.info.bytesPerSector)) = s.take c := by
  unfold takeCluster FatNode.take setEntry
  rw [wf.entry_index]

/-- **The search for a free cluster**: round `i` looks at the cluster `i` places behind the hint, the
clusters taken as a ring, and the first one whose entry is 0 is taken. -/
theorem allocateFrom_spec {start : Nat} (low : 2 ≤ start) (high : start < s.info.maxCluster + 2) (left i : Nat)
    (rounds : i + left = s.info.maxCluster) :
    (allocateFrom s start left i = (0, s) ∧ ∀ j, i ≤ j → j < s.info.maxCluster →
      fatOf s.info s.disk.bytes (s.info.ring start j) ≠ 0) ∨
    ∃ j, i ≤ j ∧ j < s.info.maxCluster ∧
      (∀ k, i ≤ k → k < j → fatOf s.info s.disk.bytes (s.info.ring start k) ≠ 0) ∧
      fatOf s.info s.disk.bytes (s.info.ring start j) = 0 ∧
      allocateFrom s start left i = (s.info.ring start j, s.take (s.info.ring start j)) := by
  induction left generalizing i with
  | zero => exact .inl ⟨rfl, fun j from' below => by omega⟩
  | succ left ih =>
    have numbers := wf.numbers
    have residue : (start - 2 + i) % s.info.maxCluster < s.info.maxCluster := mod_lt _ (by omega)
    have cluster : u32 (u32 (start - 2 + i) % s.info.maxCluster + 2) = s.info.ring start i := by
      rw [u32_of_lt (n := start - 2 + i) (by omega)]
      exact u32_of_lt (by omega)
    have valid := ring_valid s.info start i (by omega)
    rw [allocateFrom, cluster]
    generalize eq : s.info.ring start i = c at valid
    obtain ⟨word, sector⟩ := wf.entry_words valid.2
    have entry : (s.disk.read s.info.bytesPerSector (s.info.fatStartSector + 4 * c / s.info.bytesPerSector)).word32
        (4 * (c % (s.info.bytesPerSector / 4))) &&& entryMask = fatOf s.info s.disk.bytes c := by
      rw [wf.entry_index, Disk.read, word32_window, entry_addr, fatOf]
    rw [word, sector, entry, takeCluster_eq wf]
    split
    · next free =>
      refine .inr ⟨i, le_refl _, by omega, fun k from' below => by omega, ?_, ?_⟩
      · rw [eq]
        exact free
      · rw [eq]
    · next used =>
      have here : fatOf s.info s.disk.bytes (s.info.ring start i) ≠ 0 := by
        rw [eq]
        exact used
      rcases ih (i + 1) (by omega) with ⟨none, rest⟩ | ⟨j, after, below, before, free, found⟩
      · refine .inl ⟨none, fun j from' below => ?_⟩
        rcases eq_or_lt_of_le from' with rfl | later
        · exact here
        · exact rest j later below
      · refine .inr ⟨j, by omega, below, fun k from' less => ?_, free, found⟩
        rcases eq_or_lt_of_le from' with rfl | later
        · exact here
        · exact before k later less

/-- **`fat32_allocate_cluster`**: 0 if no entry is 0, and else the first cluster in the ring from the hint on whose entry
was 0, taken. -/
theorem allocate_first :
    (fat32AllocateCluster s = (0, s) ∧
      ∀ c, ValidCluster s.info c → fatOf s.info s.disk.bytes c ≠ 0) ∨
    ∃ j, j < s.info.maxCluster ∧
      (∀ k < j, fatOf s.info s.disk.bytes (s.info.ring s.searchStart k) ≠ 0) ∧
      fatOf s.info s.disk.bytes (s.info.ring s.searchStart j) = 0 ∧
      fat32AllocateCluster s = (s.info.ring s.searchStart j, s.take (s.info.ring s.searchStart j)) := by
  rcases Nat.eq_zero_or_pos s.info.maxCluster with none | some
  · refine .inl ⟨?_, fun c valid => ?_⟩
    · rw [fat32AllocateCluster, none]
      rfl
    · have := valid.1
      have := valid.2
      omega
  have numbers := wf.numbers
  have word : u32 (s.info.maxCluster + 2) = s.info.maxCluster + 2 := u32_of_lt (by omega)
  have start : fat32AllocateCluster s = allocateFrom s s.searchStart s.info.maxCluster 0 := by
    unfold fat32AllocateCluster
    dsimp only
    rw [word]
    rfl
  have range : 2 ≤ s.searchStart ∧ s.searchStart < s.info.maxCluster + 2 := by
    unfold FatNode.searchStart
    split <;> omega
  rw [start]
  rcases allocateFrom_spec wf range.1 range.2 s.info.maxCluster 0 (by omega) with
    ⟨none, all⟩ | ⟨j, -, below, before, free, found⟩
  · refine .inl ⟨none, fun c valid => ?_⟩
    obtain ⟨i, inside, here⟩ := ring_surjective range.1 range.2 valid
    rw [← here]
    exact all i (zero_le _) inside
  · exact .inr ⟨j, below, fun k less => before k (zero_le _) less, free, found⟩

end Allocate

end Voxia.Fs
