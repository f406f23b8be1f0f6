/-
**The AHCI commands of the block drivers, and what a drive does with them.**

`ata_rw` and `atapi_packet` (`modules/ahci/src/ahci.cpp`) put a command header, a register FIS, a packet and a PRDT
together and issue them; a drive executes exactly what these encode (`execute`). An ATA command has a 28-bit sector
number and an 8-bit count in which 0 stands for 256, a packet has 32 bits for each. The commands of `ata_identify` and
`ata_flush` move no data of the medium and are left out, as are the registers that `issue_and_wait` polls.
-/

import Voxia.Lib.Dma
import Voxia.Machine

namespace Voxia.Block

open Lib BitVec

/-- `ahci_fis_h2d_t`: the fields that select the command, the sector and the count. -/
structure FisH2d where
  command : Nat
  featurel : Nat
  lba0 : Nat
  lba1 : Nat
  lba2 : Nat
  device : Nat
  lba3 : Nat
  lba4 : Nat
  lba5 : Nat
  featureh : Nat
  countl : Nat
  counth : Nat

structure Prdt where
  dba : BitVec 32
  dbau : BitVec 32
  dbc : BitVec 22

/-- A command slot: the header's flags, the FIS, the packet and the PRDT. -/
structure AhciCmd where
  w : Bool
  a : Bool
  cfis : FisH2d
  acmd : List Nat
  prdt : List Prdt

inductive BlockOp
  | read | write | packet
  deriving DecidableEq

structure BlockRequest where
  op : BlockOp
  lba : Nat
  buffer : BitVec 64
  bufferSize : Nat
  blockCount : Nat
  flagDma : Bool
  flagWrite : Bool
  packetCmd : List Nat

/-! ### The commands -/

/-- The loop of `build_prdt` with `left` entries left. -/
def buildPrdtLoop : Nat → BitVec 64 → Nat → List Prdt
  | 0, _, _ => []
  | left + 1, addr, size =>
    if size = 0 then []
    else
      let bytes := if size > 0x400000 then 0x400000 else size
      ⟨addr.setWidth 32, (addr >>> 32).setWidth 32, BitVec.ofNat 22 (bytes - 1)⟩ ::
        buildPrdtLoop left (addr + BitVec.ofNat 64 bytes) (size - bytes)

def buildPrdt (buffer : BitVec 64) (size : Nat) : List Prdt :=
  if buffer = 0 ∨ size = 0 then [] else buildPrdtLoop 8 buffer size

variable (sectorSize : Nat) (req : BlockRequest)

def ataRw : AhciCmd where
  w := req.op = .write
  a := false
  prdt := buildPrdt req.buffer (req.blockCount * 512)
  acmd := []
  cfis :=
    { command := if req.op = .write then 0xCA else 0xC8
      featureh := 0
      featurel := 0
      lba0 := req.lba % 256
      lba1 := req.lba / 2 ^ 8 % 256
      lba2 := req.lba / 2 ^ 16 % 256
      device := 0xE0 ||| (req.lba / 2 ^ 24 % 16)
      lba3 := 0
      lba4 := 0
      lba5 := 0
      countl := req.blockCount % 256
      counth := 0 }

def atapiPacket : AhciCmd where
  w := req.flagWrite
  a := true
  prdt := buildPrdt req.buffer req.bufferSize
  acmd := req.packetCmd
  cfis :=
    let byteCount := if req.bufferSize ≠ 0 then req.bufferSize % 2 ^ 16 / 2 * 2 else 0xFFFE
    { command := 0xA0
      featureh := 0
      featurel := if req.flagDma then 1 else 0
      lba0 := 0
      lba1 := if req.flagDma then 0 else byteCount % 256
      lba2 := if req.flagDma then 0 else byteCount / 256 % 256
      device := 0
      lba3 := 0
      lba4 := 0
      lba5 := 0
      countl := 0
      counth := 0 }

/-! ### The drive -/

def Prdt.span (e : Prdt) : Sg := ⟨e.dbau ++ e.dba, e.dbc.toNat + 1⟩

/-- `n` bytes of the medium from `start` on go to the host. -/
def toHost (cmd : AhciCmd) (start n : Nat) (medium : Bytes) (mem : Memory) : Bytes × Memory :=
  if cmd.w then (medium, mem) else (medium, scatter (cmd.prdt.map Prdt.span) n (medium.window start) mem)

/-- `n` bytes from `start` on are taken from the host; what it does not provide stays. -/
def toMedium (cmd : AhciCmd) (start n : Nat) (medium : Bytes) (mem : Memory) : Bytes × Memory :=
  if cmd.w then
    (fun x => if start ≤ x ∧ x < start + n then (gather mem (cmd.prdt.map Prdt.span) (x - start)).getD (medium x)
      else medium x, mem)
  else (medium, mem)

/-- The sector of `READ DMA` and `WRITE DMA`: 28 bits. -/
def FisH2d.lba28 (fis : FisH2d) : Nat :=
  fis.lba0 + 2 ^ 8 * fis.lba1 + 2 ^ 16 * fis.lba2 + 2 ^ 24 * (fis.device % 16)

/-- The count of `READ DMA` and `WRITE DMA`: 0 stands for 256. -/
def FisH2d.count28 (fis : FisH2d) : Nat := if fis.countl = 0 then 256 else fis.countl

def packetWord (acmd : List Nat) (i : Nat) : Nat :=
  2 ^ 24 * acmd.getD i 0 + 2 ^ 16 * acmd.getD (i + 1) 0 + 2 ^ 8 * acmd.getD (i + 2) 0 + acmd.getD (i + 3) 0

/-- A drive with sectors of `sectorSize` bytes executes a command. -/
def execute (cmd : AhciCmd) (medium : Bytes) (mem : Memory) : Bytes × Memory :=
  if cmd.a then
    let start := sectorSize * packetWord cmd.acmd 2
    let n := sectorSize * packetWord cmd.acmd 6
    -- READ(12), WRITE(12)
    if cmd.acmd.getD 0 0 = 0xA8 then toHost cmd start n medium mem
    else if cmd.acmd.getD 0 0 = 0xAA then toMedium cmd start n medium mem
    else (medium, mem)
  else
    let start := sectorSize * cmd.cfis.lba28
    let n := sectorSize * cmd.cfis.count28
    -- READ DMA, WRITE DMA
    if cmd.cfis.command = 0xC8 then toHost cmd start n medium mem
    else if cmd.cfis.command = 0xCA then toMedium cmd start n medium mem
    else (medium, mem)

/-- How a command ends: `issue_and_wait` returns true, or false with this medium and memory. -/
inductive Completion
  | done
  | failed (medium : Bytes) (mem : Memory)

/-- `issue_and_wait`, with the medium and the memory after it. -/
def issueAndWait (cmd : AhciCmd) (medium : Bytes) (mem : Memory) : Completion → Int × Bytes × Memory
  | .done => (1, execute sectorSize cmd medium mem)
  | .failed medium' mem' => (0, medium', mem')

def submitImpl (medium : Bytes) (mem : Memory) (completion : Completion) : Int × Bytes × Memory :=
  match req.op with
  | .read | .write => issueAndWait sectorSize (ataRw req) medium mem completion
  | .packet =>
    if req.packetCmd.length = 0 ∨ req.packetCmd.length > 16 then (-1, medium, mem)
    else issueAndWait sectorSize (atapiPacket req) medium mem completion

/-! ### The PRDT of a buffer -/

theorem append_halves (addr : BitVec 64) : (addr >>> 32).setWidth 32 ++ addr.setWidth 32 = addr := by
  apply eq_of_getLsbD_eq
  intro i inWord
  rw [getLsbD_append]
  by_cases low : i < 32
  · simp [low]
  · simp only [low, if_false, getLsbD_setWidth, getLsbD_ushiftRight, decide_false]
    rw [Nat.add_sub_cancel' (by omega), decide_eq_true (by omega), Bool.true_and]

/-- The spans lie in a row, and have room for the buffer as far as 4 MiB for each entry go. -/
theorem buildPrdtLoop_spec (left : Nat) : ∀ (addr : BitVec 64) (size : Nat),
    Contiguous addr ((buildPrdtLoop left addr size).map Prdt.span) ∧
      room ((buildPrdtLoop left addr size).map Prdt.span) = min size (left * 0x400000) := by
  induction left with
  | zero =>
    intro addr size
    rw [Nat.zero_mul, Nat.min_zero]
    exact ⟨trivial, rfl⟩
  | succ left ih =>
    intro addr size
    rw [buildPrdtLoop]
    by_cases empty : size = 0
    · rw [if_pos empty, empty, Nat.zero_min]
      exact ⟨trivial, rfl⟩
    rw [if_neg empty]
    generalize chosen : (if size > 0x400000 then 0x400000 else size) = bytes
    have bounds : 0 < bytes ∧ bytes ≤ 0x400000 ∧ bytes ≤ size ∧ (bytes = size ∨ bytes = 0x400000) := by
      split at chosen <;> omega
    obtain ⟨row, rooms⟩ := ih (addr + BitVec.ofNat 64 bytes) (size - bytes)
    have count : (BitVec.ofNat 22 (bytes - 1)).toNat + 1 = bytes := by
      rw [BitVec.toNat_ofNat, Nat.mod_eq_of_lt (by omega)]
      omega
    refine ⟨⟨append_halves addr, ?_⟩, ?_⟩
    · rw [Prdt.span, count]
      exact row
    · rw [List.map_cons, room, rooms, Prdt.span, count]
      dsimp only
      omega

def covered (buffer : BitVec 64) (size : Nat) : Nat := if buffer = 0 then 0 else min size 0x2000000

/-- The PRDT of a buffer is the buffer in one row of spans, cut off behind 8 spans of 4 MiB; a null buffer has no
span. -/
theorem buildPrdt_spec (buffer : BitVec 64) (size : Nat) :
    Contiguous buffer ((buildPrdt buffer size).map Prdt.span) ∧
      room ((buildPrdt buffer size).map Prdt.span) = covered buffer size := by
  unfold buildPrdt covered
  by_cases null : buffer = 0
  · rw [if_pos (.inl null), if_pos null]
    exact ⟨trivial, rfl⟩
  by_cases empty : size = 0
  · rw [if_pos (.inr empty), if_neg null, empty]
    exact ⟨trivial, rfl⟩
  · rw [if_neg (not_or.mpr ⟨null, empty⟩), if_neg null]
    exact buildPrdtLoop_spec 8 buffer size

theorem covered_le (buffer : BitVec 64) (size : Nat) : covered buffer size ≤ size ∧ covered buffer size ≤ 0x2000000 := by
  unfold covered
  split <;> omega

/-! ### What a command does through the PRDT of a buffer -/

variable {cmd : AhciCmd} {buffer : BitVec 64} {size : Nat}

theorem toHost_buffer (prdt : cmd.prdt = buildPrdt buffer size) (read : cmd.w = false) (start n : Nat)
    (medium : Bytes) (mem : Memory) :
    toHost cmd start n medium mem = (medium, mem.store buffer (min n (covered buffer size)) (medium.window start)) := by
  obtain ⟨row, rooms⟩ := buildPrdt_spec buffer size
  have fits := (covered_le buffer size).2
  rw [toHost, read, prdt, if_neg Bool.false_ne_true, scatter_contiguous row (by rw [rooms]; omega), rooms]

theorem toMedium_buffer (prdt : cmd.prdt = buildPrdt buffer size) (write : cmd.w) (start n : Nat)
    (medium : Bytes) (mem : Memory) :
    toMedium cmd start n medium mem =
      (medium.copy start (mem.load buffer) (min n (covered buffer size)), mem) := by
  obtain ⟨row, rooms⟩ := buildPrdt_spec buffer size
  rw [toMedium, write, if_pos rfl, prdt]
  congr 1
  funext x
  rw [gather_contiguous row, rooms, Bytes.copy]
  by_cases inside : start ≤ x ∧ x < start + n
  · rw [if_pos inside]
    by_cases reached : x - start < covered buffer size
    · rw [if_pos reached, if_pos (by omega), Option.getD_some]
    · rw [if_neg reached, if_neg (by omega), Option.getD_none]
  · rw [if_neg inside, if_neg (by omega)]

theorem lba28_ataRw : (ataRw req).cfis.lba28 = req.lba % 2 ^ 28 := by
  have nibble : ∀ x < 16, (0xE0 ||| x) % 16 = x := by decide
  show req.lba % 256 + 2 ^ 8 * (req.lba / 2 ^ 8 % 256) + 2 ^ 16 * (req.lba / 2 ^ 16 % 256) +
    2 ^ 24 * ((0xE0 ||| (req.lba / 2 ^ 24 % 16)) % 16) = _
  rw [nibble _ (Nat.mod_lt _ (by decide))]
  omega

theorem count28_ataRw : (ataRw req).cfis.count28 = if req.blockCount % 256 = 0 then 256 else req.blockCount % 256 := rfl

end Voxia.Block
