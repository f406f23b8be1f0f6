/-
**The copies of the FAT, and what a new cluster costs.**

A sector of the FAT is read from the first copy and written to all of them. So an entry changes in every copy alike,
and with it the rest of its sector in the other copies becomes that of the first one. A new cluster costs one such
write (`allocate_exact`).
-/

import Voxia.Fs.FatTable

namespace Voxia.Fs

open Lib Nat Bytes

def fatWord (geo : FatGeometry) (bytes : Bytes) (f d : Nat) : Nat :=
  bytes.word32 (tableStart geo + f * (geo.sizeInSectors * geo.bytesPerSector) + 4 * d)

/-- The entries a copy of the FAT has room for. -/
def InFat (geo : FatGeometry) (d : Nat) : Prop := 4 * d + 4 ≤ geo.sizeInSectors * geo.bytesPerSector

def fatSector (geo : FatGeometry) (d : Nat) : Nat := 4 * d / geo.bytesPerSector

theorem fatOf_eq (geo : FatGeometry) (bytes : Bytes) (d : Nat) :
    fatOf geo bytes d = fatWord geo bytes 0 d &&& entryMask := by
  rw [fatOf, fatWord, zero_mul, add_zero]

section Copies

variable {geo : FatGeometry} (wf : WellFormed geo)

include wf

variable {c d q f : Nat}

theorem WellFormed.inFat (valid : c < geo.maxCluster + 2) : InFat geo c := wf.entry_room valid

theorem WellFormed.fatSector_lt (inside : InFat geo d) : fatSector geo d < geo.sizeInSectors := by
  unfold InFat at inside
  exact (div_lt_iff_lt_mul wf.bytes_pos).mpr (by omega)

/-- `write_fats` stores the sector in the first `n` copies and changes no other byte of them. -/
theorem writeFats_copy (inside : q < geo.sizeInSectors) (buf : Bytes) (disk : Disk) {n : Nat}
    (few : n ≤ geo.fatsCount) {r : Nat} (room : r < geo.sizeInSectors * geo.bytesPerSector) :
    (writeFats geo (geo.fatStartSector + q) buf n disk).bytes
        (tableStart geo + f * (geo.sizeInSectors * geo.bytesPerSector) + r) =
      if f < n ∧ q * geo.bytesPerSector ≤ r ∧ r < q * geo.bytesPerSector + geo.bytesPerSector
      then buf (r - q * geo.bytesPerSector)
      else disk.bytes (tableStart geo + f * (geo.sizeInSectors * geo.bytesPerSector) + r) := by
  induction n with
  | zero => rw [if_neg (by omega)]; rfl
  | succ n ih =>
    obtain ⟨start, -⟩ := wf.copy_bytes inside (show n < geo.fatsCount by omega)
    have place : tableStart geo + (q + n * geo.sizeInSectors) * geo.bytesPerSector =
        tableStart geo + n * (geo.sizeInSectors * geo.bytesPerSector) + q * geo.bytesPerSector := by ring
    have bytes : (writeFats geo (geo.fatStartSector + q) buf (n + 1) disk).bytes =
        (writeFats geo (geo.fatStartSector + q) buf n disk).bytes.copy
          (tableStart geo + n * (geo.sizeInSectors * geo.bytesPerSector) + q * geo.bytesPerSector) buf
          geo.bytesPerSector := by
      rw [← place, start, writeFats, Disk.write, wf.copy_word inside (by omega)]
    have whole : (q + 1) * geo.bytesPerSector ≤ geo.sizeInSectors * geo.bytesPerSector :=
      mul_le_mul_right _ inside
    rw [add_mul, one_mul] at whole
    rw [bytes]
    by_cases own : f = n
    · subst own
      by_cases here : q * geo.bytesPerSector ≤ r ∧ r < q * geo.bytesPerSector + geo.bytesPerSector
      · rw [if_pos ⟨lt_succ_self _, here⟩]
        obtain ⟨i, rfl⟩ := Nat.exists_eq_add_of_le here.1
        rw [← Nat.add_assoc, copy_inside _ _ (by omega), Nat.add_sub_cancel_left]
      · rw [copy_outside _ _ (by omega), ih (by omega), if_neg (by omega), if_neg (by omega)]
    · have apart : tableStart geo + f * (geo.sizeInSectors * geo.bytesPerSector) + r <
            tableStart geo + n * (geo.sizeInSectors * geo.bytesPerSector) + q * geo.bytesPerSector ∨
          tableStart geo + n * (geo.sizeInSectors * geo.bytesPerSector) + q * geo.bytesPerSector + geo.bytesPerSector ≤
            tableStart geo + f * (geo.sizeInSectors * geo.bytesPerSector) + r := by
        rcases lt_or_gt_of_ne own with less | more
        · have step : (f + 1) * (geo.sizeInSectors * geo.bytesPerSector) ≤
              n * (geo.sizeInSectors * geo.bytesPerSector) := mul_le_mul_right _ less
          rw [add_mul, one_mul] at step
          omega
        · have step : (n + 1) * (geo.sizeInSectors * geo.bytesPerSector) ≤
              f * (geo.sizeInSectors * geo.bytesPerSector) := mul_le_mul_right _ more
          rw [add_mul, one_mul] at step
          omega
      rw [copy_outside _ _ apart, ih (by omega)]
      by_cases here : f < n ∧ q * geo.bytesPerSector ≤ r ∧ r < q * geo.bytesPerSector + geo.bytesPerSector
      · rw [if_pos here, if_pos ⟨by omega, here.2⟩]
      · rw [if_neg here, if_neg (by omega)]

/-- **The entries after a sector was written to every copy**: those of the sector are the ones of the buffer. -/
theorem writeFats_word (inside : q < geo.sizeInSectors) (buf : Bytes) (disk : Disk) (few : f < geo.fatsCount)
    (room : InFat geo d) :
    fatWord geo (writeFats geo (geo.fatStartSector + q) buf geo.fatsCount disk).bytes f d =
      if q = fatSector geo d then buf.word32 (4 * d % geo.bytesPerSector) else fatWord geo disk.bytes f d := by
  have offset := wf.entry_offset d
  have split : 4 * d / geo.bytesPerSector * geo.bytesPerSector + 4 * d % geo.bytesPerSector = 4 * d :=
    div_add_mod' _ _
  unfold InFat at room
  unfold fatSector
  by_cases own : q = 4 * d / geo.bytesPerSector
  · rw [if_pos own, fatWord]
    refine word32_shift fun i less => ?_
    rw [Nat.add_assoc, writeFats_copy wf inside buf disk le_rfl (by omega), own, if_pos ⟨few, by omega, by omega⟩]
    congr 1
    omega
  · rw [if_neg own, fatWord, fatWord]
    refine word32_congr fun i less => ?_
    rw [Nat.add_assoc, writeFats_copy wf inside buf disk le_rfl (by omega), if_neg]
    rintro ⟨-, low, high⟩
    rcases lt_or_gt_of_ne own with before | behind
    · have step : (q + 1) * geo.bytesPerSector ≤ 4 * d / geo.bytesPerSector * geo.bytesPerSector :=
        mul_le_mul_right _ before
      rw [add_mul, one_mul] at step
      omega
    · have step : (4 * d / geo.bytesPerSector + 1) * geo.bytesPerSector ≤ q * geo.bytesPerSector :=
        mul_le_mul_right _ behind
      rw [add_mul, one_mul] at step
      omega

omit wf in
theorem read_word (disk : Disk) (d : Nat) :
    (disk.read geo.bytesPerSector (geo.fatStartSector + fatSector geo d)).word32 (4 * d % geo.bytesPerSector) =
      fatWord geo disk.bytes 0 d := by
  rw [Disk.read, word32_window, fatSector, entry_addr, fatWord, zero_mul, add_zero]

theorem WellFormed.entries_apart (own : fatSector geo d = fatSector geo c) (other : d ≠ c) :
    4 * d % geo.bytesPerSector + 4 ≤ 4 * c % geo.bytesPerSector ∨
      4 * c % geo.bytesPerSector + 4 ≤ 4 * d % geo.bytesPerSector := by
  have different : 4 * d % geo.bytesPerSector ≠ 4 * c % geo.bytesPerSector := fun equal => by
    unfold fatSector at own
    have quotC := div_add_mod (4 * c) geo.bytesPerSector
    have quotD := div_add_mod (4 * d) geo.bytesPerSector
    rw [← own, ← equal, quotD] at quotC
    omega
  have alignedC := wf.entry_index c
  have alignedD := wf.entry_index d
  omega

/-- **One entry is set in every copy**, and with it the sector it is in becomes that of the first copy. -/
theorem setEntry_word (disk : Disk) (room : InFat geo c) {value : Nat} (word : value < 2 ^ 32)
    (few : f < geo.fatsCount) (room' : InFat geo d) :
    fatWord geo (setEntry geo disk c value).bytes f d =
      if d = c then value
      else if fatSector geo d = fatSector geo c then fatWord geo disk.bytes 0 d
      else fatWord geo disk.bytes f d := by
  rw [setEntry, ← fatSector, writeFats_word wf (wf.fatSector_lt room) _ disk few room']
  by_cases own : fatSector geo c = fatSector geo d
  · rw [if_pos own, if_pos own.symm]
    by_cases same : d = c
    · rw [if_pos same, same, word32_putWord32, mod_eq_of_lt word]
    · rw [if_neg same, word32_putWord32_apart _ (wf.entries_apart own.symm same), own, read_word]
  · have other : d ≠ c := fun same => own (by rw [same])
    rw [if_neg own, if_neg other, if_neg (Ne.symm own)]

end Copies

/-! ### A new cluster -/

/-- **What a new cluster costs.** It is the first free one in the ring from the hint on. Its entry is marked in every
copy; no other entry of the first copy changes, and in the other copies the sector of the entry becomes that of the
first copy. -/
structure AllocatesFirst (s : FatNode) (c : Nat) (s' : FatNode) : Prop where
  first : ∃ j < s.info.maxCluster, c = s.info.ring s.searchStart j ∧
    fatOf s.info s.disk.bytes c = 0 ∧
    ∀ k < j, fatOf s.info s.disk.bytes (s.info.ring s.searchStart k) ≠ 0
  marked : ∀ f < s.info.fatsCount, fatWord s.info s'.disk.bytes f c = 0x0FFFFFFF
  kept : ∀ d, InFat s.info d → d ≠ c →
    fatWord s.info s'.disk.bytes 0 d = fatWord s.info s.disk.bytes 0 d
  copied : ∀ f < s.info.fatsCount, ∀ d, InFat s.info d → d ≠ c →
    fatWord s.info s'.disk.bytes f d =
      if fatSector s.info d = fatSector s.info c
      then fatWord s.info s.disk.bytes 0 d else fatWord s.info s.disk.bytes f d

theorem fatWord_writeFsinfo {info : Fat32InternalData} (wf : WellFormed info) (disk : Disk) (f d : Nat) :
    fatWord info (fat32WriteFsinfo disk info).bytes f d = fatWord info disk.bytes f d :=
  word32_congr fun i _ => writeFsinfo_high wf disk (by omega)

theorem take_word {s : FatNode} (wf : WellFormed s.info) {c : Nat}
    (valid : ValidCluster s.info c) {f d : Nat} (few : f < s.info.fatsCount) (room : InFat s.info d) :
    fatWord s.info (s.take c).disk.bytes f d =
      if d = c then 0x0FFFFFFF
      else if fatSector s.info d = fatSector s.info c
        then fatWord s.info s.disk.bytes 0 d
      else fatWord s.info s.disk.bytes f d := by
  rw [← setEntry_word wf s.disk (wf.inFat valid.2) (show 0x0FFFFFFF < 2 ^ 32 by decide) few room]
  exact @fatWord_writeFsinfo (s.take c).info wf _ f d

/-- **`fat32_allocate_cluster` is exact**: it returns 0 and changes nothing exactly if no cluster is free, and else takes
the first free one from the hint on. -/
theorem allocate_exact (s : FatNode) (wf : WellFormed s.info) :
    ((fat32AllocateCluster s).1 = 0 ↔
      ∀ d, ValidCluster s.info d → fatOf s.info s.disk.bytes d ≠ 0) ∧
    ((fat32AllocateCluster s).1 = 0 → (fat32AllocateCluster s).2 = s) ∧
    ((fat32AllocateCluster s).1 ≠ 0 → AllocatesFirst s (fat32AllocateCluster s).1 (fat32AllocateCluster s).2) := by
  rcases allocate_first wf with ⟨none, all⟩ | ⟨j, below, before, free, found⟩
  · rw [none]
    exact ⟨iff_of_true rfl all, fun _ => rfl, fun some => absurd rfl some⟩
  · have valid := ring_valid s.info s.searchStart j (by omega)
    have positive : s.info.ring s.searchStart j ≠ 0 := by
      have := valid.1
      omega
    rw [found]
    refine ⟨iff_of_false positive fun all => all _ valid free, fun zero => absurd zero positive, fun _ => ?_⟩
    refine ⟨⟨j, below, rfl, free, before⟩, fun f few => ?_, fun d room other => ?_, fun f few d room other => ?_⟩
    · rw [take_word wf valid few (wf.inFat valid.2), if_pos rfl]
    · rw [take_word wf valid wf.copies room, if_neg other, ite_self]
    · rw [take_word wf valid few room, if_neg other]

def smallVolume : FatGeometry where
  sizeInSectors := 1
  firstDataSector := 4
  sectorsPerCluster := 1
  bytesPerSector := 512
  fatStartSector := 2
  fsinfoSector := 1
  fatsCount := 2
  backupBootSector := 0
  dataSectors := 2

theorem smallVolume_wellFormed : WellFormed smallVolume := by
  constructor <;> decide

def smallNode (bytes : Bytes) : FatNode :=
  { disk := ⟨bytes, []⟩
    info := { smallVolume with
      cluster := 2, size := 0, flags := 0, dirSector := 0, dirOffset := 0, fsinfo := ⟨0, 0, fun _ => 0⟩ } }

def smallFat (two three : Nat) : Bytes :=
  let empty : Bytes := fun _ => 0
  (((empty.putWord32 1032 two).putWord32 1036 three).putWord32 1544 two).putWord32 1548 three

/-- Four clusters, of which 2 and the last are used; the hint is the last. -/
def wrappingNode : FatNode :=
  let s := smallNode fun a => if a = 1032 ∨ a = 1044 ∨ a = 1544 ∨ a = 1556 then 0xFF else 0
  ⟨s.disk, { s.info with dataSectors := 4, fsinfo := ⟨2, 5, fun _ => 0⟩ }⟩

/-- The search goes over both used clusters and comes to 3. -/
theorem allocate_exact_wrapping : AllocatesFirst wrappingNode 3 (fat32AllocateCluster wrappingNode).2 := by
  have three : (fat32AllocateCluster wrappingNode).1 = 3 := by decide +kernel
  have exact := (allocate_exact wrappingNode (by constructor <;> decide)).2.2
  rw [three] at exact
  exact exact (by decide)

def disagreeing : Bytes := fun a => if a = 1536 + 12 then 1 else 0

/-- Cluster 2 is taken, and the entry of cluster 3 in the second copy changes. -/
theorem allocate_disagreeing :
    WellFormed (smallNode disagreeing).info ∧ (fat32AllocateCluster (smallNode disagreeing)).1 = 2 ∧
      fatWord smallVolume (smallNode disagreeing).disk.bytes 1 3 = 1 ∧
      fatWord smallVolume (fat32AllocateCluster (smallNode disagreeing)).2.disk.bytes 1 3 = 0 :=
  ⟨smallVolume_wellFormed, by decide +kernel, by decide +kernel, by decide +kernel⟩

end Voxia.Fs
