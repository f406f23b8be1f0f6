/-
**The SATA and ATAPI drivers.**

`read` and `write` of `modules/sata/src/sata.cpp` and `modules/atapi/src/atapi.cpp`: a byte count becomes a 16-bit
count of sectors, the data goes through a DMA buffer (except in the ATAPI `write`, which gives the drive the virtual
address of the caller's buffer), and the result of `submit` becomes the return value. The physical address of the DMA
buffer is null if there is no memory, which is not checked; the memory behind the buffer is taken to be mapped. The
null checks of the vnode's operations and of the caller's buffer, and `ioforge_dma_free`, are left out.
-/

import Voxia.Block.Ahci

namespace Voxia.Block

open Lib

/-- `struct ioforge_block_device`: the sector size comes from a 32-bit word of the drive. -/
structure BlockDevice where
  sectorSize : Nat
  word : sectorSize < 2 ^ 32

/-- What a call finds: the medium, the memory, and how its command ends. -/
structure Env where
  medium : Bytes
  mem : Memory
  completion : Completion

/-- What a call leaves: its return value, the caller's buffer and the medium. -/
structure Outcome where
  ret : Int
  buf : Bytes
  medium : Bytes

def toInt (count : Nat) : Int := if count % 2 ^ 32 < 2 ^ 31 then count % 2 ^ 32 else (count % 2 ^ 32 : Int) - 2 ^ 32

/-- `(uint16_t)((count + sector_size - 1) / sector_size)`. -/
def sectorCount (count sectorSize : Nat) : Nat := u64 (count + sectorSize - 1) / sectorSize % 2 ^ 16

/-! ### SATA -/

/-- `SATAModule::identify` sets the sector size before it publishes the device. -/
def sataDevice : BlockDevice := ⟨512, by decide⟩

variable (block : BlockDevice)

def sataSectorSize : Nat := if block.sectorSize ≠ 0 then block.sectorSize else 512

variable (dma : Option (BitVec 64))

section

variable (env : Env) (addr count : Nat) (buf : Bytes)

def sataRead : Outcome :=
  if count = 0 then ⟨-22, buf, env.medium⟩
  else
    let sectors := sectorCount count (sataSectorSize block)
    match dma with
    | none => ⟨-2, buf, env.medium⟩
    | some buffPhys =>
      let mem := env.mem.store buffPhys (sectors * sataSectorSize block) fun _ => 0
      let req : BlockRequest :=
        { op := .read
          lba := u32 addr
          buffer := buffPhys
          bufferSize := sectors * sataSectorSize block
          blockCount := sectors
          flagDma := true
          flagWrite := false
          packetCmd := [] }
      match submitImpl 512 req env.medium mem env.completion with
      | (ret, medium, mem) =>
        if ret = 0 then ⟨-1, buf, medium⟩ else ⟨toInt count, buf.copy 0 (mem.load buffPhys) count, medium⟩

def sataWrite : Outcome :=
  if count = 0 then ⟨-22, buf, env.medium⟩
  else
    let sectors := sectorCount count (sataSectorSize block)
    match dma with
    | none => ⟨-2, buf, env.medium⟩
    | some buffPhys =>
      let mem := env.mem.store buffPhys count buf
      let req : BlockRequest :=
        { op := .write
          lba := u32 addr
          buffer := buffPhys
          bufferSize := sectors * sataSectorSize block
          blockCount := sectors
          flagDma := true
          flagWrite := false
          packetCmd := [] }
      match submitImpl 512 req env.medium mem env.completion with
      | (ret, medium, _) => if ret = 0 then ⟨-1, buf, medium⟩ else ⟨toInt count, buf, medium⟩

/-! ### ATAPI -/

def atapiSectorSize : Nat := if block.sectorSize ≠ 0 then block.sectorSize else 2048

/-- `build_acmd`: the first 12 bytes of the packet. -/
def buildAcmd (opcode lba sectors : Nat) : List Nat :=
  [opcode, 0, lba / 2 ^ 24 % 256, lba / 2 ^ 16 % 256, lba / 2 ^ 8 % 256, lba % 256] ++
    if opcode = 0xA8 ∨ opcode = 0xAA then
      [sectors / 2 ^ 24 % 256, sectors / 2 ^ 16 % 256, sectors / 2 ^ 8 % 256, sectors % 256, 0, 0]
    else [0, sectors / 2 ^ 8 % 256, sectors % 256, 0, 0, 0]

def atapiRead : Outcome :=
  if count = 0 then ⟨-22, buf, env.medium⟩
  else
    let sectors := sectorCount count (atapiSectorSize block)
    match dma with
    | none => ⟨-2, buf, env.medium⟩
    | some buffPhys =>
      let mem := env.mem.store buffPhys (sectors * atapiSectorSize block) fun _ => 0
      let req : BlockRequest :=
        { op := .packet
          lba := u32 addr
          buffer := buffPhys
          bufferSize := sectors * atapiSectorSize block
          blockCount := sectors
          flagDma := true
          flagWrite := false
          packetCmd := buildAcmd 0xA8 (u32 addr) sectors }
      match submitImpl (atapiSectorSize block) req env.medium mem env.completion with
      | (ret, medium, mem) =>
        if ret = 0 then ⟨-1, buf, medium⟩ else ⟨toInt count, buf.copy 0 (mem.load buffPhys) count, medium⟩

end

/-- `ATAPIModule::write`; `bufAddr` is the virtual address of the caller's buffer. The result of `submit`
is tested the wrong way round. -/
def atapiWrite (bufAddr : BitVec 64) (env : Env) (addr count : Nat) (buf : Bytes) : Outcome :=
  if count = 0 then ⟨-22, buf, env.medium⟩
  else
    let sectors := sectorCount count (atapiSectorSize block)
    let lba := u32 (addr / atapiSectorSize block)
    let req : BlockRequest :=
      { op := .packet
        lba := lba
        buffer := bufAddr
        bufferSize := sectors * atapiSectorSize block
        blockCount := sectors
        flagDma := true
        flagWrite := false
        packetCmd := buildAcmd 0xAA lba sectors }
    match submitImpl (atapiSectorSize block) req env.medium env.mem env.completion with
    | (ret, medium, _) => if ret ≠ 0 then ⟨ret, buf, medium⟩ else ⟨0, buf, medium⟩

end Voxia.Block
