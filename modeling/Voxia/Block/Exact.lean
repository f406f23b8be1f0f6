/-
**When the block drivers transfer exactly.**

A transfer through a DMA buffer is described by where it starts on the medium and how many bytes it moves. The rest is
arithmetic of the sector counts:

* the SATA driver keeps 28 bits of the sector and 8 bits of the count (0 for 256), and writes whole sectors;
* the ATAPI `read` keeps 32 bits of the sector and 16 of the count, and its PRDT ends behind 32 MiB;
* the ATAPI `write` reports success if and only if its command failed.
-/

import Voxia.Block.Drivers

namespace Voxia.Block

open Lib List Nat Bytes

/-! ### What exactness means -/

def Env.Failed (env : Env) : Prop := ∃ medium mem, env.completion = .failed medium mem

/-- If `read` returns `count`, the caller's buffer holds the bytes of the medium; it does not return
`count` for a command that failed. -/
def ReadExact (read : Env → Bytes → Outcome) (start count : Nat) : Prop :=
  ∀ env buf,
    ((read env buf).ret = count → ∀ k < count, (read env buf).buf k = env.medium (start + k)) ∧
    (env.Failed → (read env buf).ret ≠ count)

/-- If `write` reports success, the medium has changed to the caller's buffer in these bytes and nowhere
else; it does not report success for a command that failed. -/
def WriteExact (write : Env → Bytes → Outcome) (success : Int → Prop) (start count : Nat) : Prop :=
  ∀ env buf,
    (success (write env buf).ret → (write env buf).medium = env.medium.copy start buf count) ∧
    (env.Failed → ¬ success (write env buf).ret)

/-! ### Transfers through a buffer -/

variable {start moved want lba sectors : Nat} {req : BlockRequest} {read : Env → Bytes → Outcome}

/-- Some bytes moved into a zeroed buffer, and `count` bytes copied out of it, are right for every medium
and every old contents of the memory if and only if the transfer starts at the right byte and moves all of
them. -/
theorem read_exact_iff (base : BitVec 64) (zeroed : Nat) {count : Nat} (positive : 0 < count) (word : count < 2 ^ 64) :
    (∀ (medium buf : Bytes) (mem : Memory), ∀ k < count,
      buf.copy 0 (((mem.store base zeroed fun _ => 0).store base moved (medium.window start)).load base) count k =
        medium (want + k)) ↔ count ≤ moved ∧ start = want := by
  have byte : ∀ (medium buf : Bytes) (mem : Memory), ∀ k < count,
      buf.copy 0 (((mem.store base zeroed fun _ => 0).store base moved (medium.window start)).load base) count k =
        if k < moved then medium (start + k) else if k < zeroed then 0 else mem.load base k := by
    intro medium buf mem k inside
    have copied : ∀ block : Bytes, buf.copy 0 block count k = block k := fun block => by
      rw [copy, if_pos (by omega), Nat.sub_zero]
    rw [copied, Memory.load_store _ _ _ (by omega), Memory.load_store _ _ _ (by omega), window_apply]
  constructor
  · intro exact
    have all : count ≤ moved := by
      -- behind the moved bytes there are zeros, whatever the medium holds
      by_contra short
      have wrong := exact (fun _ => 1) (fun _ => 0) (fun _ => 0) moved (by omega)
      rw [byte _ _ _ moved (by omega), if_neg (lt_irrefl moved)] at wrong
      have zero : (0 : UInt8) = 1 := by
        split at wrong <;> exact wrong
      exact absurd zero (by decide)
    refine ⟨all, ?_⟩
    have first := exact (fun x => if x = want then 1 else 0) (fun _ => 0) (fun _ => 0) 0 positive
    rw [byte _ _ _ 0 positive, if_pos (by omega)] at first
    by_contra different
    simp [different] at first
  · rintro ⟨all, rfl⟩ medium buf mem k inside
    rw [byte medium buf mem k inside, if_pos (by omega)]

/-- A buffer filled with `count` bytes and moved to the medium gives the right medium for every contents if
and only if the transfer starts at the right byte and moves exactly `count` bytes. -/
theorem write_exact_iff (base : BitVec 64) (start want : Nat) {count : Nat} (positive : 0 < count)
    (small : moved < 2 ^ 64) :
    (∀ (medium buf : Bytes) (mem : Memory),
      medium.copy start ((mem.store base count buf).load base) moved = medium.copy want buf count) ↔
      moved = count ∧ start = want := by
  constructor
  · intro exact
    -- ones written onto zeros: the changed bytes are those moved
    have same : ∀ x, (start ≤ x ∧ x < start + moved) ↔ (want ≤ x ∧ x < want + count) := by
      intro x
      have here := congrFun (exact (fun _ => 0) (fun _ => 1) (fun _ => 1)) x
      have ones : ∀ k, (Memory.store (fun _ => 1) base count (fun _ => 1)).load base k = 1 := by
        intro k
        simp [Memory.load, Memory.store]
      simp only [copy, ones] at here
      by_cases left : start ≤ x ∧ x < start + moved <;> by_cases right : want ≤ x ∧ x < want + count
      · exact ⟨fun _ => right, fun _ => left⟩
      · rw [if_pos left, if_neg right] at here
        exact absurd here (by decide)
      · rw [if_neg left, if_pos right] at here
        exact absurd here (by decide)
      · exact ⟨fun inside => absurd inside left, fun inside => absurd inside right⟩
    have head := (same want).mpr ⟨le_refl _, by omega⟩
    have tail := (same (want + count - 1)).mpr ⟨by omega, by omega⟩
    have head' := (same start).mp ⟨le_refl _, by omega⟩
    have tail' := (same (start + moved - 1)).mp ⟨by omega, by omega⟩
    exact ⟨by omega, by omega⟩
  · rintro ⟨rfl, rfl⟩ medium buf mem
    funext x
    unfold copy
    by_cases inside : start ≤ x ∧ x < start + moved
    · rw [if_pos inside, if_pos inside, Memory.load_store _ _ _ (by omega), if_pos (by omega)]
    · rw [if_neg inside, if_neg inside]

/-! ### What the commands move -/

theorem execute_ataRw_read (op : req.op = .read) (sectorSize : Nat) (medium : Bytes) (mem : Memory) :
    execute sectorSize (ataRw req) medium mem =
      (medium, mem.store req.buffer
        (min (sectorSize * (ataRw req).cfis.count28) (covered req.buffer (req.blockCount * 512)))
        (medium.window (sectorSize * (req.lba % 2 ^ 28)))) := by
  have write : (ataRw req).w = false := by simp [ataRw, op]
  have command : (ataRw req).cfis.command = 0xC8 := by simp [ataRw, op]
  unfold execute
  rw [if_neg (show ¬ (ataRw req).a = true from Bool.false_ne_true), if_pos command, toHost_buffer rfl write, lba28_ataRw]

theorem execute_ataRw_write (op : req.op = .write) (sectorSize : Nat) (medium : Bytes) (mem : Memory) :
    execute sectorSize (ataRw req) medium mem =
      (medium.copy (sectorSize * (req.lba % 2 ^ 28)) (mem.load req.buffer)
        (min (sectorSize * (ataRw req).cfis.count28) (covered req.buffer (req.blockCount * 512))), mem) := by
  have write : (ataRw req).w := by simp [ataRw, op]
  have command : (ataRw req).cfis.command = 0xCA := by simp [ataRw, op]
  have other : (ataRw req).cfis.command ≠ 0xC8 := by rw [command]; decide
  unfold execute
  rw [if_neg (show ¬ (ataRw req).a = true from Bool.false_ne_true), if_neg other, if_pos command,
    toMedium_buffer rfl write, lba28_ataRw]

theorem packetWord_lba (opcode sectors : Nat) (word : lba < 2 ^ 32) :
    packetWord (buildAcmd opcode lba sectors) 2 = lba := by
  simp only [packetWord, buildAcmd, cons_append, getD_cons_succ, getD_cons_zero]
  omega

theorem packetWord_sectors (lba : Nat) (word : sectors < 2 ^ 32) :
    packetWord (buildAcmd 0xA8 lba sectors) 6 = sectors := by
  simp only [packetWord, buildAcmd, cons_append, nil_append, getD_cons_succ, getD_cons_zero,
    true_or, if_true]
  omega

theorem execute_read12 (packet : req.packetCmd = buildAcmd 0xA8 lba sectors) (read : req.flagWrite = false)
    (lbaWord : lba < 2 ^ 32) (sectorsWord : sectors < 2 ^ 32) (sectorSize : Nat) (medium : Bytes) (mem : Memory) :
    execute sectorSize (atapiPacket req) medium mem =
      (medium, mem.store req.buffer (min (sectorSize * sectors) (covered req.buffer req.bufferSize))
        (medium.window (sectorSize * lba))) := by
  have acmd : (atapiPacket req).acmd = buildAcmd 0xA8 lba sectors := packet
  have opcode : (buildAcmd 0xA8 lba sectors).getD 0 0 = 0xA8 := rfl
  unfold execute
  rw [if_pos (show (atapiPacket req).a = true from rfl), acmd, if_pos opcode, toHost_buffer rfl read,
    packetWord_lba _ _ lbaWord, packetWord_sectors _ sectorsWord]

/-! ### Return values -/

theorem toInt_eq_iff (count : Nat) : toInt count = count ↔ count < 2 ^ 31 := by
  unfold toInt
  split <;> omega

theorem toInt_nonneg_iff (count : Nat) : 0 ≤ toInt count ↔ count % 2 ^ 32 < 2 ^ 31 := by
  unfold toInt
  split <;> omega

theorem sectorCount_lt (count sectorSize : Nat) : sectorCount count sectorSize < 2 ^ 16 := mod_lt _ (by decide)

/-! ### The drivers' calls -/

theorem length_buildAcmd (opcode lba sectors : Nat) : (buildAcmd opcode lba sectors).length = 12 := by
  unfold buildAcmd
  split <;> rfl

theorem submitImpl_packet (op : req.op = .packet) (length : req.packetCmd.length = 12) (sectorSize : Nat)
    (medium : Bytes) (mem : Memory) (completion : Completion) :
    submitImpl sectorSize req medium mem completion = issueAndWait sectorSize (atapiPacket req) medium mem completion := by
  unfold submitImpl
  rw [op]
  rw [length, if_neg (by decide)]

/-- How many bytes `ata_rw` moves for a request of `count` bytes. -/
def sataMoved (base : BitVec 64) (count : Nat) : Nat :=
  min (512 * if sectorCount count 512 % 256 = 0 then 256 else sectorCount count 512 % 256)
    (covered base (sectorCount count 512 * 512))

variable (block : BlockDevice)

def atapiMoved (base : BitVec 64) (count : Nat) : Nat :=
  min (atapiSectorSize block * sectorCount count (atapiSectorSize block))
    (covered base (sectorCount count (atapiSectorSize block) * atapiSectorSize block))

variable {base : BitVec 64} {addr count : Nat}

/-- What is left of a read that zeroes a buffer at `base` and moves bytes of the medium into it. -/
def readThrough (base : BitVec 64) (zeroed moved start count : Nat) (env : Env) (buf : Bytes) : Outcome :=
  match env.completion with
  | .done => ⟨toInt count, buf.copy 0 (((env.mem.store base zeroed fun _ => 0).store base moved
      (env.medium.window start)).load base) count, env.medium⟩
  | .failed medium _ => ⟨-1, buf, medium⟩

section

variable (bufAddr : BitVec 64) (positive : 0 < count)

include positive

theorem sataRead_eq (env : Env) (buf : Bytes) :
    sataRead sataDevice (some base) env addr count buf =
      readThrough base (sectorCount count 512 * 512) (sataMoved base count) (512 * (u32 addr % 2 ^ 28)) count env buf := by
  obtain ⟨medium, mem, completion⟩ := env
  have size : sataSectorSize sataDevice = 512 := rfl
  unfold sataRead
  rw [if_neg (Nat.ne_of_gt positive)]
  dsimp only [submitImpl]
  cases completion with
  | failed medium' mem' => rfl
  | done =>
    rw [issueAndWait, execute_ataRw_read rfl, count28_ataRw, size]
    rfl

theorem sataWrite_eq (env : Env) (buf : Bytes) :
    sataWrite sataDevice (some base) env addr count buf =
      match env.completion with
      | .done => ⟨toInt count, buf, env.medium.copy (512 * (u32 addr % 2 ^ 28))
          ((env.mem.store base count buf).load base) (sataMoved base count)⟩
      | .failed medium _ => ⟨-1, buf, medium⟩ := by
  obtain ⟨medium, mem, completion⟩ := env
  have size : sataSectorSize sataDevice = 512 := rfl
  unfold sataWrite
  rw [if_neg (Nat.ne_of_gt positive)]
  dsimp only [submitImpl]
  cases completion with
  | failed medium' mem' => rfl
  | done =>
    rw [issueAndWait, execute_ataRw_write rfl, count28_ataRw, size]
    rfl

theorem atapiRead_eq (env : Env) (buf : Bytes) :
    atapiRead block (some base) env addr count buf =
      readThrough base (sectorCount count (atapiSectorSize block) * atapiSectorSize block) (atapiMoved block base count)
        (atapiSectorSize block * u32 addr) count env buf := by
  obtain ⟨medium, mem, completion⟩ := env
  have lba : u32 addr < 2 ^ 32 := mod_lt _ (by decide)
  have sectors : sectorCount count (atapiSectorSize block) < 2 ^ 32 :=
    lt_trans (sectorCount_lt count _) (by decide)
  unfold atapiRead
  rw [if_neg (Nat.ne_of_gt positive)]
  dsimp only
  rw [submitImpl_packet rfl (length_buildAcmd _ _ _)]
  cases completion with
  | failed medium' mem' => rfl
  | done =>
    rw [issueAndWait, execute_read12 rfl rfl lba sectors]
    rfl

theorem atapiWrite_ret (env : Env) (buf : Bytes) :
    (atapiWrite block bufAddr env addr count buf).ret = 0 ↔ env.Failed := by
  obtain ⟨medium, mem, completion⟩ := env
  unfold atapiWrite
  rw [if_neg (Nat.ne_of_gt positive)]
  cases completion with
  | failed medium' mem' => exact ⟨fun _ => ⟨medium', mem', rfl⟩, fun _ => rfl⟩
  | done =>
    constructor
    · intro zero
      exact absurd zero (show ¬ (1 : Int) = 0 by decide)
    · rintro ⟨medium', mem', failed⟩
      cases failed

/-! ### The conditions -/

theorem le_sataMoved_iff (small : count < 2 ^ 31) :
    count ≤ sataMoved base count ↔ base ≠ 0 ∧ count ≤ 256 * 512 := by
  unfold sataMoved covered sectorCount
  rw [u64_of_lt (by omega)]
  by_cases null : base = 0
  · rw [if_pos null, min_zero]
    exact ⟨fun none => absurd none (by omega), fun condition => absurd null condition.1⟩
  · rw [if_neg null]
    simp only [ne_eq, null, not_false_eq_true, true_and]
    split <;> omega

end

theorem sataMoved_eq_iff (base : BitVec 64) (positive : 0 < count) (word : count + 511 < 2 ^ 64) :
    sataMoved base count = count ↔ base ≠ 0 ∧ count ≤ 256 * 512 ∧ 512 ∣ count := by
  unfold sataMoved covered sectorCount
  rw [u64_of_lt (by omega)]
  by_cases null : base = 0
  · simp [null]
    omega
  · rw [if_neg null]
    simp only [ne_eq, null, not_false_eq_true, true_and]
    split <;> omega

theorem lba28_eq_iff : 512 * (u32 addr % 2 ^ 28) = 512 * addr ↔ addr < 2 ^ 28 := by
  unfold u32
  omega

theorem atapiSectorSize_pos : 0 < atapiSectorSize block ∧ atapiSectorSize block < 2 ^ 32 := by
  have word := block.word
  unfold atapiSectorSize
  split <;> omega

theorem roundUp_bounds {size : Nat} (positive : 0 < size) (count : Nat) :
    count ≤ (count + size - 1) / size * size ∧ (count + size - 1) / size * size < count + size := by
  have division := div_add_mod (count + size - 1) size
  have rest := mod_lt (count + size - 1) positive
  rw [mul_comm] at division
  omega

theorem le_atapiMoved_iff (positive : 0 < count) (small : count < 2 ^ 31) :
    count ≤ atapiMoved block base count ↔
      base ≠ 0 ∧ count ≤ 65535 * atapiSectorSize block ∧ count ≤ 0x2000000 := by
  obtain ⟨sizePos, sizeWord⟩ := atapiSectorSize_pos block
  unfold atapiMoved covered sectorCount
  rw [u64_of_lt (by omega)]
  generalize atapiSectorSize block = size at *
  by_cases null : base = 0
  · rw [if_pos null, min_zero]
    exact ⟨fun none => absurd none (by omega), fun condition => absurd null condition.1⟩
  rw [if_neg null]
  simp only [ne_eq, null, not_false_eq_true, true_and]
  obtain ⟨enough, least⟩ := roundUp_bounds sizePos count
  generalize (count + size - 1) / size = sectors at *
  rw [mul_comm size]
  by_cases fits : sectors < 2 ^ 16
  · rw [mod_eq_of_lt fits]
    have bound : sectors * size ≤ 65535 * size := mul_le_mul_right size (by omega)
    omega
  · have cut : sectors % 2 ^ 16 * size ≤ 65535 * size := mul_le_mul_right size (by omega)
    have many : 65536 * size ≤ sectors * size := mul_le_mul_right size (by omega)
    omega

/-! ### When a call is exact -/

theorem readExact_iff {zeroed : Nat} (positive : 0 < count) (word : count < 2 ^ 64)
    (spec : ∀ env buf, read env buf = readThrough base zeroed moved start count env buf) :
    ReadExact read want count ↔ 2 ^ 31 ≤ count ∨ (count ≤ moved ∧ start = want) := by
  have failure : ∀ env buf, env.Failed → (read env buf).ret ≠ count := by
    rintro ⟨medium, mem, completion⟩ buf ⟨medium', mem', rfl⟩
    rw [spec]
    dsimp only [readThrough]
    omega
  by_cases large : 2 ^ 31 ≤ count
  · refine iff_of_true (fun env buf => ⟨fun returned => ?_, failure env buf⟩) (.inl large)
    -- no `int` is this large
    rw [spec] at returned
    obtain ⟨medium, mem, completion⟩ := env
    cases completion with
    | done => exact absurd ((toInt_eq_iff count).mp returned) (by omega)
    | failed medium' mem' => dsimp only [readThrough] at returned; omega
  rw [or_iff_right large, ← read_exact_iff base zeroed positive word]
  have returns : toInt count = count := (toInt_eq_iff count).mpr (by omega)
  constructor
  · intro exact medium buf mem k inside
    have right := (exact ⟨medium, mem, .done⟩ buf).1
    rw [spec] at right
    exact right returns k inside
  · rintro exact ⟨medium, mem, completion⟩ buf
    refine ⟨fun returned k inside => ?_, failure _ buf⟩
    rw [spec] at returned ⊢
    cases completion with
    | done => exact exact medium buf mem k inside
    | failed medium' mem' => dsimp only [readThrough] at returned; omega

/-- A driver's read, by where it starts and how much it moves. Without memory for a buffer it is exact, as it fails. -/
theorem driverRead_exact_iff (read : Option (BitVec 64) → Env → Bytes → Outcome) {zeroed moved : BitVec 64 → Nat}
    {placed fits : Prop} (positive : 0 < count) (word : count < 2 ^ 64)
    (noMemory : ∀ env buf, (read none env buf).ret = -2)
    (spec : ∀ base env buf, read (some base) env buf = readThrough base (zeroed base) (moved base) start count env buf)
    (place : start = want ↔ placed) (moves : ∀ base, count < 2 ^ 31 → (count ≤ moved base ↔ base ≠ 0 ∧ fits))
    (dma : Option (BitVec 64)) :
    ReadExact (read dma) want count ↔ 2 ^ 31 ≤ count ∨ dma = none ∨ (dma ≠ some 0 ∧ placed ∧ fits) := by
  cases dma with
  | none =>
    refine iff_of_true (fun env buf => ?_) (.inr (.inl rfl))
    rw [noMemory]
    exact ⟨fun returned => by omega, fun _ => by omega⟩
  | some base =>
    rw [readExact_iff positive word (spec base), place]
    by_cases large : 2 ^ 31 ≤ count
    · exact iff_of_true (.inl large) (.inl large)
    · rw [moves base (by omega)]
      simp only [large, reduceCtorEq, false_or, ne_eq, Option.some.injEq]
      rw [and_assoc, and_comm (b := placed)]

variable (dma : Option (BitVec 64))

section

variable (positive : 0 < count) (word : count < 2 ^ 64)

include positive word

theorem sataRead_exact_iff :
    ReadExact (fun env buf => sataRead sataDevice dma env addr count buf) (512 * addr) count ↔
      2 ^ 31 ≤ count ∨ dma = none ∨ (dma ≠ some 0 ∧ addr < 2 ^ 28 ∧ count ≤ 256 * 512) := by
  refine driverRead_exact_iff (fun dma env buf => sataRead sataDevice dma env addr count buf) positive word
    (fun env buf => ?_) (fun base env buf => sataRead_eq positive env buf) lba28_eq_iff
    (fun base small => le_sataMoved_iff positive small) dma
  rw [sataRead, if_neg (Nat.ne_of_gt positive)]

theorem atapiRead_exact_iff :
    ReadExact (fun env buf => atapiRead block dma env addr count buf) (atapiSectorSize block * addr) count ↔
      2 ^ 31 ≤ count ∨ dma = none ∨
        (dma ≠ some 0 ∧ addr < 2 ^ 32 ∧ count ≤ 65535 * atapiSectorSize block ∧ count ≤ 0x2000000) := by
  have sector : atapiSectorSize block * u32 addr = atapiSectorSize block * addr ↔ addr < 2 ^ 32 := by
    rw [Nat.mul_right_inj (Nat.ne_of_gt (atapiSectorSize_pos block).1)]
    unfold u32
    omega
  refine driverRead_exact_iff (fun dma env buf => atapiRead block dma env addr count buf) positive word
    (fun env buf => ?_) (fun base env buf => atapiRead_eq block positive env buf) sector
    (fun base small => le_atapiMoved_iff block positive small) dma
  rw [atapiRead, if_neg (Nat.ne_of_gt positive)]

/-- `SATAModule::write` reports success with a return value that is not negative. -/
theorem sataWrite_exact_iff :
    WriteExact (fun env buf => sataWrite sataDevice dma env addr count buf) (0 ≤ ·) (512 * addr) count ↔
      2 ^ 31 ≤ count % 2 ^ 32 ∨ dma = none ∨
        (dma ≠ some 0 ∧ addr < 2 ^ 28 ∧ count ≤ 256 * 512 ∧ 512 ∣ count) := by
  cases dma with
  | none =>
    have negative : ∀ env buf, (sataWrite sataDevice none env addr count buf).ret < 0 := by
      intro env buf
      unfold sataWrite
      rw [if_neg (Nat.ne_of_gt positive)]
      exact (by decide : (-2 : Int) < 0)
    refine iff_of_true (fun env buf => ⟨fun success => ?_, fun _ success => ?_⟩) (.inr (.inl rfl))
    · exact absurd success (Int.not_le.mpr (negative env buf))
    · exact absurd success (Int.not_le.mpr (negative env buf))
  | some base =>
    have failure : ∀ env buf, env.Failed → ¬ 0 ≤ (sataWrite sataDevice (some base) env addr count buf).ret := by
      rintro ⟨medium, mem, completion⟩ buf ⟨medium', mem', rfl⟩
      rw [sataWrite_eq positive]
      dsimp only
      omega
    by_cases negative : 2 ^ 31 ≤ count % 2 ^ 32
    · refine iff_of_true (fun env buf => ⟨fun success => ?_, failure env buf⟩) (.inl negative)
      dsimp only at success
      rw [sataWrite_eq positive] at success
      obtain ⟨medium, mem, completion⟩ := env
      cases completion with
      | done => exact absurd ((toInt_nonneg_iff count).mp success) (by omega)
      | failed medium' mem' => dsimp only at success; omega
    have moved := sataMoved_eq_iff base positive (show count + 511 < 2 ^ 64 by omega)
    have small : sataMoved base count < 2 ^ 64 := by
      have cover := (covered_le base (sectorCount count 512 * 512)).2
      unfold sataMoved
      omega
    have exact := write_exact_iff base (512 * (u32 addr % 2 ^ 28)) (512 * addr) positive small
    rw [moved, lba28_eq_iff] at exact
    have condition : (base ≠ 0 ∧ count ≤ 256 * 512 ∧ 512 ∣ count) ∧ addr < 2 ^ 28 ↔
        2 ^ 31 ≤ count % 2 ^ 32 ∨ some base = none ∨
          (some base ≠ some 0 ∧ addr < 2 ^ 28 ∧ count ≤ 256 * 512 ∧ 512 ∣ count) := by
      simp only [negative, reduceCtorEq, false_or, ne_eq, Option.some.injEq]
      constructor
      · rintro ⟨⟨found, fits, whole⟩, low⟩
        exact ⟨found, low, fits, whole⟩
      · rintro ⟨found, low, fits, whole⟩
        exact ⟨⟨found, fits, whole⟩, low⟩
    rw [← condition, ← exact]
    constructor
    · intro right medium buf mem
      have result := (right ⟨medium, mem, .done⟩ buf).1
      dsimp only at result
      rw [sataWrite_eq positive] at result
      exact result ((toInt_nonneg_iff count).mpr (by omega))
    · rintro right ⟨medium, mem, completion⟩ buf
      refine ⟨fun success => ?_, failure _ buf⟩
      dsimp only at success ⊢
      rw [sataWrite_eq positive] at success ⊢
      cases completion with
      | done => exact right medium buf mem
      | failed medium' mem' => dsimp only at success; omega

end

/-! ### The devices -/

/-- The transfers of the block devices, for every count of bytes and every sector. `dma` is where the DMA
buffer is: `none` if it cannot be mapped, null if there was no memory for it.

The reads and the SATA write are exact if and only if the stated bounds hold (or the call cannot report
success at all). What the SATA write has stored, a read that returns `count` returns again. The ATAPI
write reports success, by returning 0, if and only if its command failed, and is never exact. -/
theorem blockDevices_exact (block : BlockDevice) (dma : Option (BitVec 64)) (bufAddr : BitVec 64) (addr : Nat)
    {count : Nat} (positive : 0 < count) (word : count < 2 ^ 64) :
    (ReadExact (fun env buf => sataRead sataDevice dma env addr count buf) (512 * addr) count ↔
      2 ^ 31 ≤ count ∨ dma = none ∨ (dma ≠ some 0 ∧ addr < 2 ^ 28 ∧ count ≤ 256 * 512)) ∧
    (WriteExact (fun env buf => sataWrite sataDevice dma env addr count buf) (0 ≤ ·) (512 * addr) count ↔
      2 ^ 31 ≤ count % 2 ^ 32 ∨ dma = none ∨ (dma ≠ some 0 ∧ addr < 2 ^ 28 ∧ count ≤ 256 * 512 ∧ 512 ∣ count)) ∧
    (dma ≠ some 0 ∧ addr < 2 ^ 28 ∧ count ≤ 256 * 512 ∧ 512 ∣ count → ∀ env env' buf old,
      0 ≤ (sataWrite sataDevice dma env addr count buf).ret →
      env'.medium = (sataWrite sataDevice dma env addr count buf).medium →
      (sataRead sataDevice dma env' addr count old).ret = count →
      ∀ k < count, (sataRead sataDevice dma env' addr count old).buf k = buf k) ∧
    (ReadExact (fun env buf => atapiRead block dma env addr count buf) (atapiSectorSize block * addr) count ↔
      2 ^ 31 ≤ count ∨ dma = none ∨
        (dma ≠ some 0 ∧ addr < 2 ^ 32 ∧ count ≤ 65535 * atapiSectorSize block ∧ count ≤ 0x2000000)) ∧
    (∀ env buf, (atapiWrite block bufAddr env addr count buf).ret = 0 ↔ env.Failed) ∧
    ¬ WriteExact (fun env buf => atapiWrite block bufAddr env addr count buf) (· = 0) (atapiSectorSize block * addr)
      count := by
  refine ⟨sataRead_exact_iff dma positive word, sataWrite_exact_iff dma positive word, ?_,
    atapiRead_exact_iff block dma positive word, atapiWrite_ret block bufAddr positive, ?_⟩
  · rintro ⟨found, low, fits, whole⟩ env env' buf old stored same returned k inside
    have write := (sataWrite_exact_iff dma positive word).mpr (.inr (.inr ⟨found, low, fits, whole⟩))
    have read := (sataRead_exact_iff dma positive word).mpr (.inr (.inr ⟨found, low, fits⟩))
    have medium := (write env buf).1 stored
    rw [(read env' old).1 returned k inside, same]
    rw [medium, copy_inside env.medium buf inside]
  · intro exact
    have failed : Env.Failed ⟨fun _ => 0, fun _ => 0, .failed (fun _ => 0) fun _ => 0⟩ := ⟨_, _, rfl⟩
    exact (exact _ fun _ => 0).2 failed ((atapiWrite_ret block bufAddr positive _ _).mpr failed)

/-- The bounds of one sector hold. -/
theorem blockDevices_exact_oneSector :
    ReadExact (fun env buf => sataRead sataDevice (some 4096) env 7 512 buf) (512 * 7) 512 :=
  (blockDevices_exact sataDevice (some 4096) 0 7 (by decide : 0 < 512) (by decide)).1.mpr
    (.inr (.inr ⟨by decide, by decide, by decide⟩))

/-- A write of one byte stores the old contents of the DMA buffer behind it; a read of sector `2 ^ 28`
returns sector 0; and an ATAPI write whose command fails returns 0. -/
theorem blockDevices_inexact :
    ((sataWrite sataDevice (some 4096) ⟨fun _ => 0, fun _ => 1, .done⟩ 0 1 fun _ => 2).ret = 1 ∧
      (sataWrite sataDevice (some 4096) ⟨fun _ => 0, fun _ => 1, .done⟩ 0 1 fun _ => 2).medium 1 = 1) ∧
    ((sataRead sataDevice (some 4096) ⟨fun x => if x = 0 then 1 else 0, fun _ => 0, .done⟩ (2 ^ 28) 1 fun _ => 0).ret = 1 ∧
      (sataRead sataDevice (some 4096) ⟨fun x => if x = 0 then 1 else 0, fun _ => 0, .done⟩ (2 ^ 28) 1 fun _ => 0).buf 0
        = 1) ∧
    (atapiWrite ⟨2048, by decide⟩ 4096 ⟨fun _ => 0, fun _ => 0, .failed (fun _ => 0) fun _ => 0⟩ 0 1 fun _ => 2).ret = 0 := by
  decide +kernel

end Voxia.Block
