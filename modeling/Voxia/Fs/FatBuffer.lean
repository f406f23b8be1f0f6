/-
**The FAT through the buffer of `fat32_free_cluster_chain`.**

The loop that frees a chain keeps one sector of the FAT in a buffer and writes it back when it needs another one.
`seenWord` is what a copy of the FAT will hold once the buffer is written back.
-/

import Voxia.Fs.FatCopies

namespace Voxia.Fs

open Lib Option

/-- The entries as the loop of `fat32_free_cluster_chain` sees them: those of the sector in the buffer
are read from there. -/
def bufferedFat (geo : FatGeometry) (disk : Disk) (buffer : FatBuffer) (c : Nat) : Nat :=
  if buffer.sectorIdx = some (c / (geo.bytesPerSector / 4)) then
    buffer.bytes.word32 (4 * (c % (geo.bytesPerSector / 4))) &&& entryMask
  else fatOf geo disk.bytes c

/-- The buffer holds a sector of the FAT, and while it is not dirty that sector is the disk's. -/
structure Buffered (geo : FatGeometry) (disk : Disk) (buffer : FatBuffer) : Prop where
  inside : ∀ idx, buffer.sectorIdx = some idx → idx < geo.sizeInSectors
  clean : ∀ idx, buffer.sectorIdx = some idx → buffer.dirty = false →
    buffer.bytes = disk.read geo.bytesPerSector (geo.fatStartSector + idx)

/-- The word of an entry of a copy once the buffer is written back. -/
def seenWord (geo : FatGeometry) (disk : Disk) (buffer : FatBuffer) (f d : Nat) : Nat :=
  if buffer.dirty ∧ buffer.sectorIdx = some (fatSector geo d) then
    buffer.bytes.word32 (4 * d % geo.bytesPerSector)
  else fatWord geo disk.bytes f d

section Buffer

variable {geo : FatGeometry} (wf : WellFormed geo)

include wf

theorem WellFormed.entry_quot (c : Nat) : c / (geo.bytesPerSector / 4) = 4 * c / geo.bytesPerSector := by
  conv_rhs => rw [← wf.four_mul, Nat.mul_div_mul_left _ _ (by decide)]

theorem WellFormed.first_word {idx : Nat} (inside : idx < geo.sizeInSectors) :
    u32 (geo.fatStartSector + idx) = geo.fatStartSector + idx := by
  have word := wf.copy_word inside wf.copies
  rwa [Nat.zero_mul, Nat.add_zero] at word

variable {disk : Disk}

theorem flush_dirty {idx : Nat} (inside : idx < geo.sizeInSectors) (bytes : Bytes) :
    (FatBuffer.mk (some idx) bytes true).flush disk geo =
      writeFats geo (geo.fatStartSector + idx) bytes geo.fatsCount disk := by
  rw [FatBuffer.flush]
  dsimp only
  rw [if_pos rfl, wf.first_word inside]

variable {buffer : FatBuffer} (buffered : Buffered geo disk buffer)

include buffered

theorem flush_tableOnly : TableOnly geo disk (buffer.flush disk geo) := by
  obtain ⟨sectorIdx, bytes, dirty⟩ := buffer
  cases sectorIdx with
  | none => exact TableOnly.refl disk
  | some idx =>
    cases dirty with
    | false => exact TableOnly.refl disk
    | true =>
      rw [flush_dirty wf (buffered.inside idx rfl)]
      exact writeFats_tableOnly wf (buffered.inside idx rfl) bytes disk

theorem load_spec {idx : Nat} (inside : idx < geo.sizeInSectors) :
    TableOnly geo disk (buffer.load disk geo idx).2 ∧
      Buffered geo (buffer.load disk geo idx).2 (buffer.load disk geo idx).1 ∧
      (buffer.load disk geo idx).1.sectorIdx = some idx := by
  unfold FatBuffer.load
  split_ifs with here
  · exact ⟨TableOnly.refl disk, buffered, here⟩
  · refine ⟨flush_tableOnly wf buffered, ⟨fun idx' eq => ?_, fun idx' eq _ => ?_⟩, rfl⟩
    · rw [← some.inj eq]
      exact inside
    · rw [← some.inj eq, wf.first_word inside]

variable {f d : Nat}

/-- Writing the buffer back keeps the words that are seen. -/
theorem flush_word (few : f < geo.fatsCount) (room : InFat geo d) :
    fatWord geo (buffer.flush disk geo).bytes f d = seenWord geo disk buffer f d := by
  obtain ⟨sectorIdx, bytes, dirty⟩ := buffer
  unfold seenWord
  cases sectorIdx with
  | none =>
    rw [if_neg (by simp)]
    rfl
  | some idx =>
    cases dirty with
    | false =>
      rfl
    | true =>
      have inside := buffered.inside idx rfl
      rw [flush_dirty wf inside, writeFats_word wf inside bytes disk few room]
      simp only [some.injEq, true_and]

/-- Loading another sector keeps the words that are seen. -/
theorem load_word {idx : Nat} (few : f < geo.fatsCount) (room : InFat geo d) :
    seenWord geo (buffer.load disk geo idx).2 (buffer.load disk geo idx).1 f d = seenWord geo disk buffer f d := by
  unfold FatBuffer.load
  split_ifs with here
  · rfl
  · rw [← flush_word wf buffered few room, seenWord, if_neg (by simp)]

omit wf in
theorem buffer_word (here : buffer.sectorIdx = some (fatSector geo d)) :
    buffer.bytes.word32 (4 * d % geo.bytesPerSector) = seenWord geo disk buffer 0 d := by
  unfold seenWord
  by_cases dirty : buffer.dirty
  · rw [if_pos ⟨dirty, here⟩]
  · rw [if_neg fun both => dirty both.1, buffered.clean _ here (Bool.eq_false_iff.mpr dirty), read_word]

/-- An entry cleared in the buffer will be cleared in every copy, and the rest of its sector will be that of the first
copy. -/
theorem clear_word {c : Nat} (here : buffer.sectorIdx = some (fatSector geo c)) :
    seenWord geo disk ⟨buffer.sectorIdx, buffer.bytes.putWord32 (4 * c % geo.bytesPerSector) 0, true⟩ f d =
      if d = c then 0
      else if fatSector geo d = fatSector geo c then seenWord geo disk buffer 0 d
      else seenWord geo disk buffer f d := by
  have sector : ∀ x, buffer.sectorIdx = some (fatSector geo x) ↔ fatSector geo x = fatSector geo c := fun x => by
    rw [here, some.injEq, eq_comm]
  by_cases own : fatSector geo d = fatSector geo c
  · rw [seenWord, if_pos ⟨rfl, (sector d).mpr own⟩, if_pos own]
    by_cases same : d = c
    · rw [if_pos same, same, Bytes.word32_putWord32, Nat.zero_mod]
    · rw [if_neg same, Bytes.word32_putWord32_apart _ (wf.entries_apart own same), buffer_word buffered ((sector d).mpr own)]
  · have other : d ≠ c := fun same => own (by rw [same])
    have elsewhere : ¬ (buffer.dirty ∧ buffer.sectorIdx = some (fatSector geo d)) := fun both =>
      own ((sector d).mp both.2)
    rw [seenWord, if_neg fun both => own ((sector d).mp both.2), if_neg other, if_neg own, seenWord, if_neg elsewhere]

/-- The loop sees the words of the first copy. -/
theorem bufferedFat_eq : bufferedFat geo disk buffer d = seenWord geo disk buffer 0 d &&& entryMask := by
  rw [bufferedFat, wf.entry_quot, wf.entry_index]
  split_ifs with here
  · rw [buffer_word buffered here]
  · rw [seenWord, if_neg fun both => here both.2, fatOf_eq]

theorem clear_spec {c : Nat} (here : buffer.sectorIdx = some (c / (geo.bytesPerSector / 4))) :
    Buffered geo disk ⟨buffer.sectorIdx, buffer.bytes.putWord32 (4 * (c % (geo.bytesPerSector / 4))) 0, true⟩ ∧
      bufferedFat geo disk
          ⟨buffer.sectorIdx, buffer.bytes.putWord32 (4 * (c % (geo.bytesPerSector / 4))) 0, true⟩ d =
        if d = c then 0 else bufferedFat geo disk buffer d := by
  have cleared : Buffered geo disk
      ⟨buffer.sectorIdx, buffer.bytes.putWord32 (4 * (c % (geo.bytesPerSector / 4))) 0, true⟩ :=
    ⟨buffered.inside, fun _ _ dirty => absurd dirty (by simp)⟩
  refine ⟨cleared, ?_⟩
  rw [wf.entry_quot] at here
  rw [bufferedFat_eq wf cleared, wf.entry_index, clear_word wf buffered here, ite_self, bufferedFat_eq wf buffered]
  split_ifs
  · exact Nat.zero_and _
  · rfl

end Buffer

end Voxia.Fs
