/-
**Freeing a chain, whatever the FAT holds.**

`fat32_free_cluster_chain` clears every entry it reads, in a buffer of one sector that it writes to all copies of the
FAT. It is the clearing walk of `Voxia.Lib.ClearWalk`: it ends on every FAT whose links stay within the volume,
circles included. It counts its visits, so the count is right for a chain that neither comes back to itself nor ends
at a free cluster (`freeChain_exact`).
-/

import Voxia.Fs.FatBuffer
import Voxia.Lib.ClearWalk

namespace Voxia.Fs

open Lib List Nat

/-! ### The loop -/

def ChainStop (v : Nat) : Prop := ¬ (2 ≤ v ∧ v < endOfChain)

theorem chainStop_zero : ChainStop 0 := by
  unfold ChainStop
  omega

/-- What the copies hold after the entries of `visited` were cleared. -/
def clearedWord (geo : FatGeometry) (word : Nat → Nat → Nat) (visited : List Nat) (f d : Nat) : Nat :=
  if d ∈ visited then 0
  else if ∃ c ∈ visited, fatSector geo c = fatSector geo d then word 0 d
  else word f d

variable {geo : FatGeometry}

theorem clearedWord_cons {word word' : Nat → Nat → Nat} {c n f d : Nat} (visited : List Nat)
    (few : f < n) (cleared : ∀ g < n, word' g d =
      if d = c then 0 else if fatSector geo d = fatSector geo c then word 0 d else word g d) :
    clearedWord geo word' visited f d = clearedWord geo word (c :: visited) f d := by
  unfold clearedWord
  by_cases member : d ∈ visited
  · rw [if_pos member, if_pos (mem_cons_of_mem _ member)]
  have first := cleared 0 (by omega)
  have own := cleared f few
  rw [if_neg member]
  by_cases same : d = c
  · rw [if_pos same] at first own
    rw [first, own, ite_self, if_pos (mem_cons.mpr (.inl same))]
  have apart : d ∉ c :: visited := fun inside => (mem_cons.mp inside).elim same member
  rw [if_neg same, ite_self] at first
  rw [if_neg same] at own
  rw [if_neg apart, first, own]
  simp only [mem_cons, exists_eq_or_imp, eq_comm (a := fatSector geo c)]
  by_cases sector : fatSector geo d = fatSector geo c
  · simp only [sector, true_or, if_true, ite_self]
  · simp only [sector, false_or, if_false]

/-- **The loop of `fat32_free_cluster_chain`** visits the clusters of a clearing walk, and counts its visits. -/
theorem freeChainFrom_visits (wf : WellFormed geo) {disk : Disk} {buffer : FatBuffer} {current : Nat}
    {visited : List Nat} (freed : Nat) (buffered : Buffered geo disk buffer)
    (visits : Visits ChainStop 0 (bufferedFat geo disk buffer) current visited)
    (valid : ∀ c ∈ visited, ValidCluster geo c) :
    ∃ disk', (∀ fuel, visited.length < fuel →
        freeChainFrom geo fuel disk buffer current freed = some (freed + visited.length, disk')) ∧
      TableOnly geo disk disk' ∧
      ∀ f < geo.fatsCount, ∀ d, InFat geo d →
        fatWord geo disk'.bytes f d = clearedWord geo (seenWord geo disk buffer) visited f d := by
  induction visited generalizing disk buffer current freed with
  | nil =>
    cases visits with
    | stop ends =>
      refine ⟨buffer.flush disk geo, fun fuel enough => ?_, flush_tableOnly wf buffered, fun f few d room => ?_⟩
      · obtain ⟨fuel, rfl⟩ := exists_eq_succ_of_ne_zero (show fuel ≠ 0 by omega)
        rw [freeChainFrom, if_neg ends]
        rfl
      · rw [flush_word wf buffered few room, clearedWord, if_neg not_mem_nil, if_neg]
        rintro ⟨c, member, -⟩
        exact not_mem_nil member
  | cons c rest ih =>
    cases visits with
    | step cell tail =>
      have validC := valid c mem_cons_self
      have inside : c / (geo.bytesPerSector / 4) < geo.sizeInSectors := by
        rw [wf.entry_quot]
        exact wf.entry_inside validC.2
      obtain ⟨loadedOnly, loadedBuffer, here⟩ := load_spec wf buffered inside
      have words : ∀ f < geo.fatsCount, ∀ d, InFat geo d →
          seenWord geo (buffer.load disk geo (c / (geo.bytesPerSector / 4))).2 _ f d = seenWord geo disk buffer f d :=
        fun f few d room => load_word wf buffered few room
      generalize load : buffer.load disk geo (c / (geo.bytesPerSector / 4)) = loaded at *
      have seen : ∀ x, ValidCluster geo x → bufferedFat geo loaded.2 loaded.1 x = bufferedFat geo disk buffer x :=
        fun x valid => by
          rw [bufferedFat_eq wf loadedBuffer, bufferedFat_eq wf buffered, words 0 wf.copies x (wf.inFat valid.2)]
      -- the entry read is the one the walk goes on with
      have next : loaded.1.bytes.word32 (4 * (c % (geo.bytesPerSector / 4))) &&& entryMask =
          bufferedFat geo disk buffer c := by
        rw [← seen c validC, bufferedFat, if_pos here]
      have tail' : Visits ChainStop 0 (bufferedFat geo loaded.2 ⟨loaded.1.sectorIdx,
          loaded.1.bytes.putWord32 (4 * (c % (geo.bytesPerSector / 4))) 0, true⟩) (bufferedFat geo disk buffer c)
          rest := by
        refine tail.congr fun x member => ?_
        rw [(clear_spec wf loadedBuffer here).2, Function.update_apply, seen x (valid x (mem_cons_of_mem _ member))]
      obtain ⟨disk', result, only, fat⟩ := ih (freed + 1)
        (clear_spec (d := c) wf loadedBuffer here).1 tail' fun x member => valid x (mem_cons_of_mem _ member)
      refine ⟨disk', fun fuel enough => ?_, loadedOnly.trans only, fun f few d room => ?_⟩
      · obtain ⟨fuel, rfl⟩ := exists_eq_succ_of_ne_zero (show fuel ≠ 0 by omega)
        rw [length_cons] at enough ⊢
        rw [freeChainFrom, if_pos (not_not.mp cell)]
        dsimp only
        rw [load, next, result fuel (by omega), add_assoc, add_comm 1]
      · rw [fat f few d room]
        refine clearedWord_cons rest few fun g few => ?_
        rw [← words 0 wf.copies d room, ← words g few d room]
        rw [wf.entry_quot] at here
        rw [← clear_word wf loadedBuffer here, wf.entry_index]

/-! ### The chain of a vnode -/

def ReachedFrom (s : FatNode) (start : Nat) : Nat → Prop :=
  Reaches (fatOf s.info s.disk.bytes) ChainStop start

/-- The clusters whose entry changed from a value to 0. -/
def freedClusters (s s' : FatNode) : Finset Nat :=
  (Finset.Ico 2 (s.info.maxCluster + 2)).filter fun c =>
    fatOf s.info s.disk.bytes c ≠ 0 ∧ fatOf s.info s'.disk.bytes c = 0

def UsedChain (s : FatNode) (start : Nat) : Prop :=
  ∃ cells, Linked (fatOf s.info s.disk.bytes) ChainStop start cells ∧
    ∀ c ∈ cells, fatOf s.info s.disk.bytes c ≠ 0

section FreeNode

variable {s : FatNode} (wf : WellFormed s.info) {start : Nat}
  (inside : ∀ c, ReachedFrom s start c → ValidCluster s.info c)

structure AfterVisits (s : FatNode) (visited : List Nat) (s' : FatNode) : Prop where
  geometry : s'.info.toFatGeometry = s.info.toFatGeometry
  data : ∀ a, dataStart s.info ≤ a → s'.disk.bytes a = s.disk.bytes a
  count : s.info.fsinfo.freeClusterCount < 2 ^ 32 →
    s'.info.fsinfo.freeClusterCount = u32 (s.info.fsinfo.freeClusterCount + visited.length)
  word : ∀ f < s.info.fatsCount, ∀ d, InFat s.info d →
    fatWord s.info s'.disk.bytes f d =
      clearedWord s.info (fatWord s.info s.disk.bytes) visited f d

variable {visited : List Nat} {s' : FatNode}

/-- The count is raised, and the FSInfo sectors are written, only if there was a cluster to free. -/
theorem addFreed_afterVisits (wf : WellFormed s.info) {disk : Disk} (only : TableOnly s.info s.disk disk)
    (word : ∀ f < s.info.fatsCount, ∀ d, InFat s.info d → fatWord s.info disk.bytes f d =
      clearedWord s.info (fatWord s.info s.disk.bytes) visited f d) :
    AfterVisits s visited (addFreed disk s.info visited.length) := by
  unfold addFreed
  split_ifs with some
  · refine ⟨rfl, fun a high => ?_, fun _ => rfl, fun f few d room => ?_⟩
    · rw [← only.outside a (.inr high)]
      exact @writeFsinfo_high { s.info with fsinfo := s.info.fsinfo.afterFree visited.length } wf disk a
        ((le_add_right _ _).trans (wf.tableStart_le.trans high))
    rw [← word f few d room]
    exact @fatWord_writeFsinfo { s.info with fsinfo := s.info.fsinfo.afterFree visited.length } wf disk f d
  · have none : visited.length = 0 := by omega
    exact ⟨rfl, fun a high => only.outside a (.inr high), fun less => by rw [none, add_zero, u32_of_lt less], word⟩

include wf inside

/-- **`fat32_free_cluster_chain`** ends on every FAT, and clears the entries it visits. -/
theorem freeChain_visits :
    ∃ visited s', Visits ChainStop 0 (fatOf s.info s.disk.bytes) start visited ∧
      (∀ fuel, visited.length < fuel → fat32FreeClusterChain fuel s start = some s') ∧ AfterVisits s visited s' := by
  classical
  -- the clusters that can be reached are finitely many
  have closed : ∀ c ∈ (Finset.Ico 2 (s.info.maxCluster + 2)).filter (ReachedFrom s start),
      ChainStop (fatOf s.info s.disk.bytes c) ∨ fatOf s.info s.disk.bytes c ∈
        (Finset.Ico 2 (s.info.maxCluster + 2)).filter (ReachedFrom s start) := fun c member => by
    refine or_iff_not_imp_left.mpr fun cell => ?_
    have reached := (Finset.mem_filter.mp member).2.onward cell
    exact Finset.mem_filter.mpr ⟨Finset.mem_Ico.mpr (inside _ reached), reached⟩
  have first : ChainStop start ∨ start ∈ (Finset.Ico 2 (s.info.maxCluster + 2)).filter (ReachedFrom s start) := by
    refine or_iff_not_imp_left.mpr fun cell => ?_
    have reached : ReachedFrom s start start := .here cell
    exact Finset.mem_filter.mpr ⟨Finset.mem_Ico.mpr (inside _ reached), reached⟩
  obtain ⟨visited, visits, within⟩ := Visits.ends chainStop_zero _ closed first
  have valid : ∀ c ∈ visited, ValidCluster s.info c := fun c member =>
    inside c (Finset.mem_filter.mp (within c member)).2
  have empty : Buffered s.info s.disk ⟨none, fun _ => 0, false⟩ :=
    ⟨fun _ none => absurd none (by simp), fun _ none => absurd none (by simp)⟩
  have view : ∀ c, bufferedFat s.info s.disk ⟨none, fun _ => 0, false⟩ c =
      fatOf s.info s.disk.bytes c := fun c => by rw [bufferedFat, if_neg (by simp)]
  by_cases early : start = 0 ∨ endOfChain ≤ start
  · have stop : ChainStop start := by
      unfold ChainStop
      omega
    obtain rfl := visits.unique (.stop stop)
    refine ⟨[], s, visits, fun fuel _ => by rw [fat32FreeClusterChain, if_pos early],
      ⟨rfl, fun _ _ => rfl, fun less => (u32_of_lt less).symm, fun f few d room => ?_⟩⟩
    rw [clearedWord, if_neg not_mem_nil, if_neg]
    rintro ⟨c, member, -⟩
    exact not_mem_nil member
  · obtain ⟨disk', result, only, fat⟩ := freeChainFrom_visits wf 0 empty (visits.congr fun c _ => view c) valid
    refine ⟨visited, _, visits, fun fuel enough => ?_, addFreed_afterVisits wf only fat⟩
    rw [fat32FreeClusterChain, if_neg early, result fuel enough, zero_add]
    rfl

omit inside in
theorem AfterVisits.fatOf (after : AfterVisits s visited s') {d : Nat}
    (room : InFat s.info d) : Fs.fatOf s.info s'.disk.bytes d =
      if d ∈ visited then 0 else Fs.fatOf s.info s.disk.bytes d := by
  rw [fatOf_eq, fatOf_eq, after.word 0 wf.copies d room, clearedWord, ite_self]
  split_ifs
  · exact zero_and _
  · rfl

omit inside in
theorem AfterVisits.freedClusters_eq (after : AfterVisits s visited s') (valid : ∀ c ∈ visited, ValidCluster s.info c) :
    freedClusters s s' = visited.toFinset.filter fun c => Fs.fatOf s.info s.disk.bytes c ≠ 0 := by
  ext c
  rw [freedClusters, Finset.mem_filter, Finset.mem_filter, mem_toFinset, Finset.mem_Ico]
  constructor
  · rintro ⟨range, used, free⟩
    rw [after.fatOf wf (wf.inFat range.2)] at free
    by_cases member : c ∈ visited
    · exact ⟨member, used⟩
    · rw [if_neg member] at free
      exact absurd free used
  · rintro ⟨member, used⟩
    refine ⟨valid c member, used, ?_⟩
    rw [after.fatOf wf (wf.inFat (valid c member).2), if_pos member]

end FreeNode

/-- **What is freed from a cluster on.** The entries that can be reached are cleared in every copy. No other entry of
the first copy changes, and in the other copies the sectors of the cleared entries become those of the first copy. The
count of free clusters is raised by the number of entries cleared exactly if they form a chain in use. -/
structure FreesReached (s : FatNode) (start : Nat) (s' : FatNode) : Prop where
  cleared : ∀ d, ReachedFrom s start d → ∀ f < s.info.fatsCount, fatWord s.info s'.disk.bytes f d = 0
  kept : ∀ d, InFat s.info d → ¬ ReachedFrom s start d →
    fatWord s.info s'.disk.bytes 0 d = fatWord s.info s.disk.bytes 0 d
  copied : ∀ f < s.info.fatsCount, ∀ d, InFat s.info d → ¬ ReachedFrom s start d →
    ((∃ c, ReachedFrom s start c ∧ fatSector s.info c = fatSector s.info d) →
      fatWord s.info s'.disk.bytes f d = fatWord s.info s.disk.bytes 0 d) ∧
    ((¬ ∃ c, ReachedFrom s start c ∧ fatSector s.info c = fatSector s.info d) →
      fatWord s.info s'.disk.bytes f d = fatWord s.info s.disk.bytes f d)
  counted : s'.info.fsinfo.freeClusterCount = u32 (s.info.fsinfo.freeClusterCount + (freedClusters s s').card) ↔
    UsedChain s start

/-- **`fat32_free_cluster_chain` is exact and ends** on every FAT whose links stay within the volume. -/
theorem freeChain_exact (s : FatNode) (wf : WellFormed s.info) (start : Nat)
    (inside : ∀ c, ReachedFrom s start c → ValidCluster s.info c) (word : s.info.fsinfo.freeClusterCount < 2 ^ 32) :
    ∃ rounds s', (∀ fuel, rounds ≤ fuel → fat32FreeClusterChain fuel s start = some s') ∧ FreesReached s start s' := by
  obtain ⟨visited, s', visits, result, after⟩ := freeChain_visits wf inside
  have reached : ∀ d, d ∈ visited ↔ ReachedFrom s start d := visits.mem_iff chainStop_zero
  have valid : ∀ c ∈ visited, ValidCluster s.info c := fun c member => inside c ((reached c).mp member)
  refine ⟨visited.length + 1, s', result, ⟨fun d path f few => ?_, fun d room free => ?_, fun f few d room free => ?_, ?_⟩⟩
  · rw [after.word f few d (wf.inFat (inside d path).2), clearedWord, if_pos ((reached d).mpr path)]
  · rw [after.word 0 wf.copies d room, clearedWord, if_neg fun member => free ((reached d).mp member), ite_self]
  · rw [after.word f few d room, clearedWord, if_neg fun member => free ((reached d).mp member)]
    refine ⟨fun ⟨c, path, sector⟩ => if_pos ⟨c, (reached c).mpr path, sector⟩, fun none => if_neg ?_⟩
    rintro ⟨c, member, sector⟩
    exact none ⟨c, (reached c).mp member, sector⟩
  · rw [after.count word, after.freedClusters_eq wf valid, UsedChain, ← visits.length_eq_iff chainStop_zero]
    have atMost := visits.length_le chainStop_zero
    have atLeast := (Finset.card_filter_le visited.toFinset fun c =>
      fatOf s.info s.disk.bytes c ≠ 0).trans (toFinset_card_le visited)
    unfold u32
    omega

def twoClusters : Bytes := smallFat 3 0x0FFFFFFF

def circle : Bytes := smallFat 3 2

theorem reachedFrom_valid {s : FatNode} {start : Nat} (cells : List Nat) (first : start ∈ cells)
    (closed : ∀ c ∈ cells, ChainStop (fatOf s.info s.disk.bytes c) ∨
      fatOf s.info s.disk.bytes c ∈ cells) (valid : ∀ c ∈ cells, ValidCluster s.info c) :
    ∀ c, ReachedFrom s start c → ValidCluster s.info c :=
  fun c path => valid c (path.mem_of_closed closed first)

instance (v : Nat) : Decidable (ChainStop v) := inferInstanceAs (Decidable (¬ _))

theorem freeChain_exact_two : ∃ rounds s', (∀ fuel, rounds ≤ fuel →
    fat32FreeClusterChain fuel (smallNode twoClusters) 2 = some s') ∧ FreesReached (smallNode twoClusters) 2 s' :=
  freeChain_exact (smallNode twoClusters) smallVolume_wellFormed 2
    (reachedFrom_valid [2, 3] (by decide) (by decide +kernel) (by decide)) (by decide)

/-- On the circle, three visits are counted for two entries. From a free cluster, an entry of the second copy is lost
with no entry cleared. -/
theorem freeChain_circle :
    (∀ c, ReachedFrom (smallNode circle) 2 c → ValidCluster smallVolume c) ∧
    (fat32FreeClusterChain 4 (smallNode circle) 2).map (fun s' =>
      (s'.info.fsinfo.freeClusterCount, (freedClusters (smallNode circle) s').card)) = some (3, 2) ∧
    (∀ c, ReachedFrom (smallNode disagreeing) 2 c → ValidCluster smallVolume c) ∧
    ¬ ReachedFrom (smallNode disagreeing) 2 3 ∧
    fatWord smallVolume (smallNode disagreeing).disk.bytes 1 3 = 1 ∧
    (fat32FreeClusterChain 4 (smallNode disagreeing) 2).map (fun s' =>
      (s'.info.fsinfo.freeClusterCount, (freedClusters (smallNode disagreeing) s').card,
        fatWord smallVolume s'.disk.bytes 1 3)) = some (1, 0, 0) := by
  refine ⟨reachedFrom_valid [2, 3] (by decide) (by decide +kernel) (by decide), by decide +kernel,
    reachedFrom_valid [2] (by decide) (by decide +kernel) (by decide), fun path => ?_, by decide +kernel,
    by decide +kernel⟩
  have member : 3 ∈ [2] := path.mem_of_closed (by decide +kernel) (by decide)
  exact absurd member (by decide)

end Voxia.Fs
