/-
**Reading a file of an ISO 9660 volume.**

A file is one run of bytes from the first byte of a sector on. `iso9660_read` fetches the whole sectors around the
bytes asked for and copies the middle out of them, so over a block device that is exact on its sectors
(`VopsBlk.Exact`) reads one after the other are one read (`reads_are_slices`).
-/

import Voxia.Fd.FileTable
import Voxia.Lib.Bytes

namespace Voxia.Fs

open Lib List Bytes

/-- `vops_blk_t`: `read` is given a sector and a number of bytes; it returns a number, negative on failure,
and what the buffer holds then. -/
structure VopsBlk where
  read : (lba bytes : Nat) → Bytes → Int × Bytes

/-- What the buffer holds after a read that did not fail. -/
def VopsBlk.fetch (ops : VopsBlk) (lba bytes : Nat) (temp : Bytes) : Option Bytes :=
  if (ops.read lba bytes temp).1 < 0 then none else some (ops.read lba bytes temp).2

structure Iso9660InternalData where
  extent : Nat
  size : Nat
  extent_lt : extent < 2 ^ 32
  size_lt : size < 2 ^ 32

/-- What a read follows from the vnode of a file: its private data, and over the block dentry of the file
system the operations of the device. Each pointer may be null. -/
structure IsoVnode where
  vnodePrivate : Option Iso9660InternalData
  blockDentry : Option (Option (Option VopsBlk))

/-- `iso9660_read`: the value returned and what `buf` holds then. `temp` is the memory that `kalloc` finds
for the sectors. -/
def iso9660Read (vnode : Option IsoVnode) (buf : Option Bytes) (len offset : Nat) (temp : Option Bytes) :
    Int × Option Bytes :=
  match vnode, buf with
  | some vnode, some bytes =>
    if len = 0 then (-1, buf)
    else
      match vnode.vnodePrivate, vnode.blockDentry with
      | some isoNode, some (some blockVnode) =>
        match blockVnode with
        | none => (-3, buf)
        | some ops =>
          if isoNode.size ≤ offset then (0, buf)
          else
            let readLen := if isoNode.size < u64 (offset + len) then isoNode.size - offset else len
            let startLba := u64 (isoNode.extent + offset / 2048)
            let byteOffsetInLba := offset % 2048
            let lbaCount := u64 (byteOffsetInLba + readLen + 2047) / 2048
            let bytesToRead := u64 (lbaCount * 2048)
            match temp with
            | none => (-1, buf)
            | some tempBuf =>
              match ops.fetch startLba bytesToRead tempBuf with
              | none => (-3, buf)
              | some sectors => (Fd.toInt readLen, some (bytes.copy 0 (sectors.window byteOffsetInLba) readLen))
      | _, _ => (-2, buf)
  | _, _ => (-1, buf)

/-- Whole sectors are read as they are on the medium. -/
def VopsBlk.Exact (ops : VopsBlk) (medium : Bytes) (sectors : Nat) : Prop :=
  ∀ lba count temp, lba + count ≤ sectors →
    0 ≤ (ops.read lba (count * 2048) temp).1 ∧
      ∀ i < count * 2048, (ops.read lba (count * 2048) temp).2 i = medium (lba * 2048 + i)

structure OnDevice (node : Iso9660InternalData) (ops : VopsBlk) (medium : Bytes) : Prop where
  exact : ∃ sectors, ops.Exact medium sectors ∧ node.extent + (node.size + 2047) / 2048 ≤ sectors

def Iso9660InternalData.bytes (node : Iso9660InternalData) (medium : Bytes) : Bytes :=
  medium.window (node.extent * 2048)

def fileVnode (node : Iso9660InternalData) (ops : VopsBlk) : Option IsoVnode :=
  some ⟨some node, some (some (some ops))⟩

theorem within_sectors (offset : Nat) {a len : Nat} (inside : a < len) :
    offset % 2048 + a < (offset % 2048 + len + 2047) / 2048 * 2048 := by omega

theorem sector_place (extent offset a : Nat) :
    (extent + offset / 2048) * 2048 + (offset % 2048 + a) = extent * 2048 + (offset + a) := by omega

section Slices

variable {node : Iso9660InternalData} {ops : VopsBlk} {medium : Bytes}

/-- A read is the slice of the file. -/
theorem iso9660Read_eq (stored : OnDevice node ops medium) (buf temp : Bytes) {len offset : Nat}
    (some' : 1 ≤ len) (small : offset + len < 2 ^ 31) :
    iso9660Read (fileVnode node ops) (some buf) len offset (some temp) =
      (((min len (node.size - offset) : Nat) : Int),
        some (buf.copy 0 ((node.bytes medium).window offset) (min len (node.size - offset)))) := by
  have nonzero : len ≠ 0 := by omega
  unfold iso9660Read fileVnode
  simp only [if_neg nonzero]
  by_cases past : node.size ≤ offset
  · have nothing : min len (node.size - offset) = 0 := by omega
    rw [if_pos past, nothing]
    rfl
  rw [if_neg past, u64_of_lt (by omega : offset + len < 2 ^ 64)]
  have clipped : (if node.size < offset + len then node.size - offset else len) = min len (node.size - offset) := by
    split <;> omega
  rw [clipped]
  generalize taken : min len (node.size - offset) = readLen
  have extent := node.extent_lt
  have count : offset % 2048 + readLen + 2047 < 2 ^ 64 := by omega
  rw [u64_of_lt count, u64_of_lt (by omega : node.extent + offset / 2048 < 2 ^ 64),
    u64_of_lt (by omega : (offset % 2048 + readLen + 2047) / 2048 * 2048 < 2 ^ 64)]
  obtain ⟨sectors, exact, inside⟩ := stored.exact
  -- the last sector fetched holds a byte of the file, so it is one of the file's
  have fits : node.extent + offset / 2048 + (offset % 2048 + readLen + 2047) / 2048 ≤ sectors := by omega
  obtain ⟨worked, copies⟩ := exact _ _ temp fits
  have fetched : ops.fetch (node.extent + offset / 2048) ((offset % 2048 + readLen + 2047) / 2048 * 2048) temp =
      some _ := if_neg (Int.not_lt.mpr worked)
  have number : Fd.toInt readLen = readLen := by
    unfold Fd.toInt
    omega
  simp only [fetched, number]
  refine Prod.ext rfl (congrArg some (funext fun a => ?_))
  by_cases copied : 0 ≤ a ∧ a < 0 + readLen
  · simp only [copy, if_pos copied, window_apply, Iso9660InternalData.bytes, Nat.sub_zero]
    rw [copies _ (within_sectors offset (Nat.zero_add readLen ▸ copied.2)), sector_place]
  · simp only [copy, if_neg copied]

end Slices

def bytesRead (answer : Int × Option Bytes) : List UInt8 :=
  (List.range answer.1.toNat).map (answer.2.getD fun _ => 0)

/-- Reads of the given lengths, each from where the one before it ended. -/
def readInTurn (read : (len offset : Nat) → Int × Option Bytes) : List Nat → Nat → List UInt8
  | [], _ => []
  | len :: rest, offset =>
    let answer := read len offset
    bytesRead answer ++ readInTurn read rest (offset + answer.1.toNat)

section Runs

variable {node : Iso9660InternalData} {ops : VopsBlk} {medium : Bytes}

theorem bytesRead_iso9660Read (stored : OnDevice node ops medium) (buf temp : Bytes) {len offset : Nat}
    (some' : 1 ≤ len) (small : offset + len < 2 ^ 31) :
    bytesRead (iso9660Read (fileVnode node ops) (some buf) len offset (some temp)) =
      (List.range (min len (node.size - offset))).map ((node.bytes medium).window offset) := by
  rw [iso9660Read_eq stored buf temp some' small, bytesRead, Int.toNat_natCast]
  refine map_congr_left fun i inside => ?_
  have copied : 0 ≤ i ∧ i < 0 + min len (node.size - offset) := by
    have := mem_range.mp inside
    omega
  exact if_pos copied

theorem map_window_append (file : Bytes) (offset first second : Nat) :
    (List.range first).map (file.window offset) ++ (List.range second).map (file.window (offset + first)) =
      (List.range (first + second)).map (file.window offset) := by
  rw [range_add, map_append, map_map]
  refine congrArg _ (map_congr_left fun i _ => ?_)
  exact congrArg file (Nat.add_assoc offset first i)

theorem readInTurn_eq (stored : OnDevice node ops medium) (buf temp : Bytes) (lens : List Nat) :
    ∀ offset, (∀ len ∈ lens, 1 ≤ len) → offset + lens.sum < 2 ^ 31 →
      readInTurn (fun len offset => iso9660Read (fileVnode node ops) (some buf) len offset (some temp)) lens offset =
        (List.range (min lens.sum (node.size - offset))).map ((node.bytes medium).window offset) := by
  induction lens with
  | nil =>
    intro offset _ _
    rfl
  | cons len rest ih =>
    intro offset positive small
    rw [sum_cons] at small ⊢
    have some' := positive len mem_cons_self
    have ret : (iso9660Read (fileVnode node ops) (some buf) len offset (some temp)).1.toNat =
        min len (node.size - offset) := by
      rw [iso9660Read_eq stored buf temp some' (by omega), Int.toNat_natCast]
    -- a read that comes back short has reached the end, and the reads after it return nothing
    have left : min rest.sum (node.size - (offset + min len (node.size - offset))) =
        min (len + rest.sum) (node.size - offset) - min len (node.size - offset) := by omega
    simp only [readInTurn]
    rw [ret, bytesRead_iso9660Read stored buf temp some' (by omega),
      ih _ (fun l later => positive l (mem_cons_of_mem _ later)) (by omega), left, map_window_append]
    congr 2
    omega

/-- **Reads are slices.** A read returns the number of bytes that are there and stores exactly these, and reads
one after the other hand over the same bytes as one read of the whole range. -/
theorem reads_are_slices (stored : OnDevice node ops medium) (buf temp : Bytes) :
    (∀ len offset, 1 ≤ len → offset + len < 2 ^ 31 →
      iso9660Read (fileVnode node ops) (some buf) len offset (some temp) =
        (max 0 (min (len : Int) (node.size - offset)),
          some (buf.copy 0 ((node.bytes medium).window offset) (min len (node.size - offset))))) ∧
    ∀ lens offset, (∀ len ∈ lens, 1 ≤ len) → offset + lens.sum < 2 ^ 31 →
      readInTurn (fun len offset => iso9660Read (fileVnode node ops) (some buf) len offset (some temp)) lens offset =
        bytesRead (iso9660Read (fileVnode node ops) (some buf) lens.sum offset (some temp)) := by
  refine ⟨fun len offset some' small => ?_, fun lens offset positive small => ?_⟩
  · rw [iso9660Read_eq stored buf temp some' small]
    refine Prod.ext ?_ rfl
    omega
  · rw [readInTurn_eq stored buf temp lens offset positive small]
    by_cases nothing : lens.sum = 0
    · rw [nothing, Nat.zero_min]
      rfl
    · rw [bytesRead_iso9660Read stored buf temp (Nat.pos_of_ne_zero nothing) small]

end Runs

/-- A device of three sectors, with byte `i` holding `i` modulo 251. -/
def smallDevice : VopsBlk where
  read := fun lba bytes _ => (bytes, window (fun i => UInt8.ofNat (i % 251)) (lba * 2048))

def smallFile : Iso9660InternalData := ⟨1, 2100, by decide, by decide⟩

theorem smallFile_onDevice : OnDevice smallFile smallDevice fun i => UInt8.ofNat (i % 251) :=
  ⟨3, fun _ _ _ _ => ⟨Int.natCast_nonneg _, fun _ _ => rfl⟩, by decide⟩

/-- Three reads of the small file across its sectors and its end. -/
theorem reads_are_slices_small : (∀ len ∈ [2000, 90, 50], 1 ≤ len) ∧
    readInTurn (fun len offset => iso9660Read (fileVnode smallFile smallDevice) (some fun _ => 0) len offset
      (some fun _ => 0)) [2000, 90, 50] 5 =
      bytesRead (iso9660Read (fileVnode smallFile smallDevice) (some fun _ => 0) 2140 5 (some fun _ => 0)) :=
  ⟨by decide, (reads_are_slices smallFile_onDevice _ _).2 [2000, 90, 50] 5 (by decide) (by decide)⟩

end Voxia.Fs
