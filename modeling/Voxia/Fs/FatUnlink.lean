/-
**The file `fat32_unlink` removes is the one `fat32_lookup` finds.**

Both functions collect the entries of long names and give the name to the next short entry. A deleted entry in between
makes `fat32_unlink` forget that it has seen a long name, but not `fat32_lookup`. So a short entry that follows stale
entries of another name behind a deleted one is found under that name by `fat32_lookup` and not by `fat32_unlink`
(`StaleName`); in all other cases the two agree (`sameFile_iff`).
-/

import Voxia.Fs.FatScan
import Voxia.Fs.FatFree
import Voxia.Fs.FatPlace
import Voxia.Fs.FatList

namespace Voxia.Fs

open Function Lib Nat Bytes

/-! ### What the parsers remember -/

section Parsers

variable (dirBuf : Bytes) (path : List UInt8)

/-- An entry of a long name whose number is one of 1..20. -/
def IsSlot (p : Nat) : Prop :=
  entryKind dirBuf (32 * p) = .longName ∧ 1 ≤ (dirBuf (32 * p)).toNat &&& 0x1F ∧ (dirBuf (32 * p)).toNat &&& 0x1F ≤ 20

/-- The entries of long names that stand before an entry without another one in between have a number. -/
def FreshSlot (q : Nat) : Prop :=
  ∃ v < q, IsSlot dirBuf v ∧ ∀ e, v < e → e < q → entryKind dirBuf (32 * e) = .longName

theorem freshSlot_succ (q : Nat) : FreshSlot dirBuf (q + 1) ↔
    entryKind dirBuf (32 * q) = .longName ∧ (IsSlot dirBuf q ∨ FreshSlot dirBuf q) := by
  constructor
  · rintro ⟨v, less, slot, between⟩
    by_cases last : v = q
    · subst last
      exact ⟨slot.1, .inl slot⟩
    · exact ⟨between q (by omega) (lt_succ_self q),
        .inr ⟨v, by omega, slot, fun e low high => between e low (by omega)⟩⟩
  · rintro ⟨long, slot | ⟨v, less, slot, between⟩⟩
    · exact ⟨q, lt_succ_self q, slot, fun e low high => by omega⟩
    · refine ⟨v, by omega, slot, fun e low high => ?_⟩
      by_cases last : e = q
      · exact last ▸ long
      · exact between e low (by omega)

theorem Lfn.readEntry_active (lfn : Lfn) {p : Nat} (long : entryKind dirBuf (32 * p) = .longName) :
    (lfn.readEntry dirBuf (32 * p)).active ↔ IsSlot dirBuf p ∨ lfn.active := by
  unfold Lfn.readEntry
  dsimp only
  split_ifs with number
  · exact iff_of_true rfl (.inl ⟨long, number⟩)
  · exact (or_iff_right fun slot => number slot.2).symm

theorem Lfn.readEntry_units {lfn lfn' : Lfn} (same : lfn.units = lfn'.units) (ptr : Nat) :
    (lfn.readEntry dirBuf ptr).units = (lfn'.readEntry dirBuf ptr).units := by
  unfold Lfn.readEntry
  dsimp only
  split_ifs
  · rw [same]
  · exact same

theorem Lfn.readEntry_of_inactive {lfn : Lfn} {ptr : Nat} (inactive : (lfn.readEntry dirBuf ptr).active = false) :
    lfn.readEntry dirBuf ptr = lfn := by
  unfold Lfn.readEntry at inactive ⊢
  by_cases number : 1 ≤ (dirBuf ptr).toNat &&& 0x1F ∧ (dirBuf ptr).toNat &&& 0x1F ≤ 20
  · rw [if_pos number] at inactive
    cases inactive
  · exact if_neg number

abbrev lookupLfn (q : Nat) : Lfn := (lookupParser dirBuf path).stateAt dirBuf q

abbrev unlinkLfn (q : Nat) : Lfn := ((unlinkParser dirBuf path).stateAt dirBuf q).1

/-- `fat32_unlink` has seen a long name if nothing but entries of long names stands behind one with a number. -/
theorem unlinkLfn_active_iff (q : Nat) : (unlinkLfn dirBuf path q).active ↔ FreshSlot dirBuf q := by
  induction q with
  | zero => exact iff_of_false Bool.false_ne_true fun ⟨v, less, _⟩ => absurd less (not_lt_zero v)
  | succ q ih =>
    rw [freshSlot_succ, unlinkLfn, Parser.stateAt]
    cases kind : entryKind dirBuf (32 * q) with
    | terminator => exact iff_of_false Bool.false_ne_true fun both => absurd both.1 (by decide)
    | deleted => exact iff_of_false Bool.false_ne_true fun both => absurd both.1 (by decide)
    | longName =>
      rw [← ih, ← Lfn.readEntry_active dirBuf _ kind]
      exact (and_iff_right rfl).symm
    | short => exact iff_of_false Bool.false_ne_true fun both => absurd both.1 (by decide)

/-- Both loops have collected the same units; if `fat32_lookup` has seen no long name, these are 0. -/
theorem lookupLfn_units (q : Nat) : (unlinkLfn dirBuf path q).units = (lookupLfn dirBuf path q).units ∧
    ((unlinkLfn dirBuf path q).active → (lookupLfn dirBuf path q).active) ∧
    ((lookupLfn dirBuf path q).active = false → (lookupLfn dirBuf path q).units = fun _ => 0) := by
  induction q with
  | zero => exact ⟨rfl, id, fun _ => rfl⟩
  | succ q ih =>
    obtain ⟨units, active, zero⟩ := ih
    rw [unlinkLfn, lookupLfn, Parser.stateAt, Parser.stateAt]
    cases kind : entryKind dirBuf (32 * q) with
    | terminator => exact ⟨units, fun flag => absurd flag Bool.false_ne_true, zero⟩
    | deleted => exact ⟨units, fun flag => absurd flag Bool.false_ne_true, zero⟩
    | longName =>
      refine ⟨Lfn.readEntry_units dirBuf units _, fun flag => ?_, fun flag => ?_⟩
      · have seen := (Lfn.readEntry_active dirBuf (unlinkLfn dirBuf path q) kind).mp flag
        exact (Lfn.readEntry_active dirBuf (lookupLfn dirBuf path q) kind).mpr (seen.imp_right active)
      · have unread := Lfn.readEntry_of_inactive dirBuf flag
        have inactive : (lookupLfn dirBuf path q).active = false := (congrArg Lfn.active unread).symm.trans flag
        exact (congrArg Lfn.units unread).trans (zero inactive)
    | short =>
      have cleared : (if (lookupLfn dirBuf path q).active then Lfn.empty else lookupLfn dirBuf path q).units =
          fun _ => 0 := by
        split_ifs with flag
        · rfl
        · exact zero (Bool.eq_false_iff.mpr flag)
      exact ⟨cleared.symm, fun flag => absurd flag Bool.false_ne_true, fun _ => cleared⟩

/-- A short entry behind a long name that `fat32_unlink` has forgotten. -/
def StaleName (q : Nat) : Prop := toLowercase (sfnName dirBuf (32 * q)) ≠ path ∧ ¬ FreshSlot dirBuf q

/-- **`fat32_unlink` takes the entries `fat32_lookup` takes**, but for stale names. -/
theorem unlink_takes_iff (q : Nat) : (unlinkParser dirBuf path).Takes dirBuf q ↔
    (lookupParser dirBuf path).Takes dirBuf q ∧ ¬ StaleName dirBuf path q := by
  obtain ⟨units, active, -⟩ := lookupLfn_units dirBuf path q
  have name : (unlinkLfn dirBuf path q).name = (lookupLfn dirBuf path q).name := by rw [Lfn.name, units, Lfn.name]
  have fresh := unlinkLfn_active_iff dirBuf path q
  unfold Parser.Takes
  rw [unlinkParser_takes, lookupParser_takes, matchesPath, matchesPath, name, StaleName, ← fresh]
  tauto

/-- The entries `fat32_unlink` deletes with a file are of long names and stand right before it. -/
theorem unlinkStart_spec (q : Nat) : ∃ j ≤ q,
    (((unlinkParser dirBuf path).stateAt dirBuf q).2).getD (32 * q) = 32 * j ∧
      ∀ r, j ≤ r → r < q → entryKind dirBuf (32 * r) = .longName := by
  induction q with
  | zero => exact ⟨0, le_rfl, rfl, fun r low high => absurd high (not_lt_zero r)⟩
  | succ q ih =>
    have here : ∃ j ≤ q + 1, 32 * (q + 1) = 32 * j ∧ ∀ r, j ≤ r → r < q + 1 → entryKind dirBuf (32 * r) = .longName :=
      ⟨q + 1, le_rfl, rfl, fun r low high => by omega⟩
    rw [Parser.stateAt]
    cases kind : entryKind dirBuf (32 * q) with
    | terminator => exact here
    | deleted => exact here
    | longName =>
      obtain ⟨j, below, start, long⟩ := ih
      refine ⟨j, by omega, start, fun r low high => ?_⟩
      by_cases last : r = q
      · exact last ▸ kind
      · exact long r low (by omega)
    | short => exact here

end Parsers

/-! ### The file of a name -/

section Files

variable (s : FatNode) (path : List UInt8)

abbrev FatNode.dirBuf (c : Nat) : Bytes := s.disk.readCluster s.info c

/-- **The file of a name** in a directory: the first short entry that `fat32_lookup` takes. -/
def Denotes (c q : Nat) : Prop :=
  ∃ n, (fat32GetNextCluster s.disk s.info)^[n] s.info.cluster = c ∧ c < endOfChain ∧
    q < s.info.entriesPerCluster ∧ (lookupParser (s.dirBuf c) path).Takes (s.dirBuf c) q ∧
    (∀ r < q, (lookupParser (s.dirBuf c) path).Passes (s.dirBuf c) r) ∧
    ∀ m < n, GoesOver (lookupCluster s.disk s.info path)
      ((fat32GetNextCluster s.disk s.info)^[m] s.info.cluster)

def LookupFinds (c ptr : Nat) : Prop :=
  ∃ fuel, lookupLoop s.disk s.info path fuel s.info.cluster = some (some (c, ptr))

variable {s path}

variable {c ptr q start : Nat} {disk : Disk} {info : FatGeometry}

theorem lookupFinds_iff : LookupFinds s path c ptr ↔ ∃ q, ptr = 32 * q ∧ Denotes s path c q := by
  unfold LookupFinds Denotes
  simp only [lookupLoop_eq]
  rw [walk_found_iff]
  constructor
  · rintro ⟨n, place, more, found, before⟩
    obtain ⟨q, inside, rfl, taken, passes⟩ := (lookupCluster_found_iff _ _ _ _ _).mp found
    exact ⟨q, rfl, n, place, more, inside, taken, passes, before⟩
  · rintro ⟨q, rfl, n, place, more, inside, taken, passes, before⟩
    exact ⟨n, place, more, (lookupCluster_found_iff _ _ _ _ _).mpr ⟨q, inside, rfl, taken, passes⟩, before⟩

theorem unlink_passes {dirBuf : Bytes} {r : Nat} (passes : (lookupParser dirBuf path).Passes dirBuf r) :
    (unlinkParser dirBuf path).Passes dirBuf r :=
  ⟨passes.1, fun taken => passes.2 ((unlink_takes_iff dirBuf path r).mp taken).1⟩

theorem unlink_goesOver
    (goes : GoesOver (lookupCluster disk info path) c) : GoesOver (unlinkCluster disk info path) c :=
  ⟨goes.1, (unlinkCluster_exhausted_iff _ _ _ _).mpr fun r less =>
    unlink_passes ((lookupCluster_exhausted_iff _ _ _ _).mp goes.2 r less)⟩

/-- The entry `fat32_unlink` acts on, and the first one that is deleted with it. -/
def UnlinkFinds (s : FatNode) (path : List UInt8) (c ptr start : Nat) : Prop :=
  ∃ fuel, unlinkLoop s.disk s.info path fuel s.info.cluster = some (some (c, ptr, start))

theorem unlinkFinds_of_denotes (denotes : Denotes s path c q) (fresh : ¬ StaleName (s.dirBuf c) path q) :
    ∃ j ≤ q, UnlinkFinds s path c (32 * q) (32 * j) ∧
      ∀ r, j ≤ r → r < q → entryKind (s.dirBuf c) (32 * r) = .longName := by
  obtain ⟨n, place, more, inside, taken, passes, before⟩ := denotes
  obtain ⟨j, below, start, long⟩ := unlinkStart_spec (s.dirBuf c) path q
  refine ⟨j, below, ?_, long⟩
  unfold UnlinkFinds
  simp only [unlinkLoop_eq]
  refine walk_found_iff.mpr ⟨n, place, more, ?_, fun m less => unlink_goesOver (before m less)⟩
  exact (unlinkCluster_found_iff _ _ _ _ _ _).mpr ⟨q, inside, rfl, start.symm,
    (unlink_takes_iff _ _ _).mpr ⟨taken, fresh⟩, fun r less => unlink_passes (passes r less)⟩

theorem not_stale_of_unlinkFinds (finds : UnlinkFinds s path c (32 * q) start) : ¬ StaleName (s.dirBuf c) path q := by
  unfold UnlinkFinds at finds
  simp only [unlinkLoop_eq] at finds
  obtain ⟨-, -, -, found, -⟩ := walk_found_iff.mp finds
  obtain ⟨q', -, same, -, taken, -⟩ := (unlinkCluster_found_iff _ _ _ _ _ _).mp found
  obtain rfl : q = q' := by omega
  exact ((unlink_takes_iff _ _ _).mp taken).2

theorem lookupCluster_of_unlinkCluster
    (found : unlinkCluster disk info path c = .found (ptr, start)) : ∃ ptr', lookupCluster disk info path c = .found ptr' := by
  obtain ⟨q, inside, -, -, taken, before⟩ := (unlinkCluster_found_iff _ _ _ _ _ _).mp found
  have lookupTaken := ((unlink_takes_iff _ _ _).mp taken).1
  cases result : lookupCluster disk info path c with
  | found ptr' => exact ⟨ptr', rfl⟩
  | terminated =>
    obtain ⟨q', -, zero, passes⟩ := exists_terminator_of_lookupCluster _ _ result
    rcases lt_trichotomy q' q with less | rfl | more
    · exact absurd zero (before q' less).1
    · exact absurd (zero.symm.trans taken.1) (by decide)
    · exact absurd lookupTaken (passes q more).2
  | exhausted => exact absurd lookupTaken ((lookupCluster_exhausted_iff _ _ _ _).mp result q inside).2

/-- **A file that `fat32_unlink` finds, `fat32_lookup` finds**, or another one before it. -/
theorem lookupFinds_of_unlinkFinds (finds : UnlinkFinds s path c ptr start) :
    ∃ c' ptr', LookupFinds s path c' ptr' := by
  unfold UnlinkFinds at finds
  unfold LookupFinds
  simp only [unlinkLoop_eq] at finds
  simp only [lookupLoop_eq]
  obtain ⟨n, rfl, more, found, before⟩ := walk_found_iff.mp finds
  clear finds
  generalize s.info.cluster = c₀ at more found before ⊢
  induction n generalizing c₀ with
  | zero =>
    obtain ⟨ptr', here⟩ := lookupCluster_of_unlinkCluster found
    exact ⟨c₀, ptr', 1, runLoop_inl (walkBody_found more here) 0⟩
  | succ n ih =>
    obtain ⟨below, exhausted⟩ : GoesOver _ c₀ := before 0 (succ_pos n)
    cases here : lookupCluster s.disk s.info path c₀ with
    | found ptr' => exact ⟨c₀, ptr', 1, runLoop_inl (walkBody_found below here) 0⟩
    | terminated =>
      obtain ⟨q, inside, zero, -⟩ := exists_terminator_of_lookupCluster _ _ here
      exact absurd zero ((unlinkCluster_exhausted_iff _ _ _ _).mp exhausted q inside).1
    | exhausted =>
      obtain ⟨c', ptr', fuel, run⟩ := ih _ more found fun m less => before (m + 1) (succ_lt_succ less)
      exact ⟨c', ptr', fuel + 1, (runLoop_inr (walkBody_goesOver ⟨below, here⟩) fuel).trans run⟩

end Files

/-! ### What is removed -/

variable {n c q d : Nat} {s : FatNode} {path : List UInt8}

theorem markDeleted_inside (dirBuf : Bytes) (start : Nat) {i : Nat} (less : i < n) :
    markDeleted dirBuf start n (start + i * 32) = 0xE5 := by
  induction n with
  | zero => exact absurd less (not_lt_zero i)
  | succ n ih =>
    rw [markDeleted]
    by_cases last : i = n
    · rw [last, update_self]
    · rw [update_of_ne (by omega), ih (by omega)]

theorem markDeleted_outside (dirBuf : Bytes) (start : Nat) {a : Nat} (outside : ∀ i < n, a ≠ start + i * 32) :
    markDeleted dirBuf start n a = dirBuf a := by
  induction n with
  | zero => rfl
  | succ n ih =>
    rw [markDeleted, update_of_ne (outside n (lt_succ_self n)), ih fun i less => outside i (by omega)]

/-- The entries from `j` to `q` of a cluster are marked as deleted, and no other byte of a cluster changes. -/
structure EntriesRemoved (s : FatNode) (c j q : Nat) (s' : FatNode) : Prop where
  deleted : ∀ r, j ≤ r → r ≤ q → cell s.info s'.disk.bytes c (32 * r) = 0xE5
  kept : ∀ d, ValidCluster s.info d → ∀ i < s.info.bytesPerCluster,
    (d = c → ∀ r, j ≤ r → r ≤ q → i ≠ 32 * r) →
    cell s.info s'.disk.bytes d i = cell s.info s.disk.bytes d i

section Remove

variable {s : FatNode} (wf : WellFormed s.info) {c : Nat} (valid : ValidCluster s.info c)

include wf valid

theorem readCluster_cell (i : Nat) : s.dirBuf c i = cell s.info s.disk.bytes c i := by
  rw [FatNode.dirBuf, Disk.readCluster, Disk.read, window, wf.clusterToSector_mul valid, cell]

theorem writeBack_cell (marked : Bytes) {d i : Nat} (valid' : ValidCluster s.info d)
    (inside : i < s.info.bytesPerCluster) :
    cell s.info (s.disk.write s.info.bytesPerSector (fat32ClusterToSector s.info c) marked
        s.info.bytesPerCluster).bytes d i =
      if d = c then marked i else cell s.info s.disk.bytes d i := by
  unfold cell Disk.write
  dsimp only
  rw [wf.clusterToSector_mul valid]
  by_cases own : d = c
  · rw [if_pos own, own, copy_inside _ _ inside]
  · rw [if_neg own, copy_outside]
    rcases lt_or_gt_of_ne own with less | more
    · have := wf.clusterAddr_add_le valid'.1 less
      omega
    · have := wf.clusterAddr_add_le valid.1 more
      omega

theorem writeBack_low (marked : Bytes) {a : Nat} (low : a < dataStart s.info) :
    (s.disk.write s.info.bytesPerSector (fat32ClusterToSector s.info c) marked
      s.info.bytesPerCluster).bytes a = s.disk.bytes a := by
  have high : dataStart s.info ≤ clusterAddr s.info c := dataStart_le_clusterAddr c
  unfold Disk.write
  dsimp only
  rw [wf.clusterToSector_mul valid, copy_outside _ _ (by omega)]

/-- A file whose chain is valid is removed, with every entry of its name. -/
theorem removeEntry_file {j q : Nat} (below : j ≤ q) (room : q < s.info.entriesPerCluster)
    (file : ¬ isDirectory (s.dirBuf c) (32 * q))
    (inside : ∀ d, ReachedFrom s (entryCluster (s.dirBuf c) (32 * q)) d → ValidCluster s.info d) :
    ∃ rounds s', (∀ fuel, rounds ≤ fuel → removeEntry fuel s c (32 * q) (32 * j) = some (.ok, s')) ∧
      EntriesRemoved s c j q s' := by
  generalize chain : entryCluster (s.dirBuf c) (32 * q) = start at inside
  have count : (32 * q + 32 - 32 * j + 31) / 32 = q - j + 1 := by omega
  set marked := markDeleted (s.dirBuf c) (32 * j) (q - j + 1) with marks
  set disk' := s.disk.write s.info.bytesPerSector (fat32ClusterToSector s.info c) marked
    s.info.bytesPerCluster with written
  -- the FAT is still the one before the directory was written
  have fat : ∀ d, ReachedFrom s start d → fatOf s.info disk'.bytes d =
      fatOf s.info s.disk.bytes d := fun d path =>
    fatOf_of_low wf (fun a low => writeBack_low wf valid marked low) (inside d path)
  have inside' : ∀ d, ReachedFrom ⟨disk', s.info⟩ start d → ValidCluster s.info d := fun d path =>
    inside d (Reaches.of_congr fat path)
  obtain ⟨visited, s', -, result, after⟩ := @freeChain_visits ⟨disk', s.info⟩ wf start inside'
  have cells : ∀ d, ValidCluster s.info d → ∀ i < s.info.bytesPerCluster,
      cell s.info s'.disk.bytes d i =
        if d = c then marked i else cell s.info s.disk.bytes d i := fun d valid' i less => by
    rw [← writeBack_cell wf valid marked valid' less]
    exact after.data _ ((dataStart_le_clusterAddr d).trans (le_add_right _ _))
  have whole := wf.entriesPerCluster_eq
  refine ⟨visited.length + 1, s', fun fuel enough => ?_, fun r low high => ?_, fun d valid' i less apart => ?_⟩
  · rw [removeEntry]
    dsimp only
    rw [if_neg file, count, ← marks, ← written, chain, result fuel enough]
    rfl
  · rw [cells c valid _ (by omega), if_pos rfl, marks, show 32 * r = 32 * j + (r - j) * 32 by omega,
      markDeleted_inside _ _ (by omega)]
  · rw [cells d valid' i less]
    split_ifs with own
    · rw [own, marks, markDeleted_outside _ _ fun k below => ?_]
      · exact readCluster_cell wf valid i
      · have := apart own (j + k) (by omega) (by omega)
        omega
    · rfl

end Remove

/-! ### Lookup and unlink -/

/-- **`fat32_unlink` removes the file of entry `q` of a cluster.** It acts on this entry. A directory is refused. A file
is removed: the entry is marked as deleted, with entries of long names that stand right before it, and all other bytes
of the clusters are kept. -/
structure Removes (s : FatNode) (path : List UInt8) (c q : Nat) : Prop where
  designates : ∃ start, UnlinkFinds s path c (32 * q) start
  directory : isDirectory (s.dirBuf c) (32 * q) →
    ∃ rounds, ∀ fuel, rounds ≤ fuel → fat32Unlink fuel s path = some (.isDir, s)
  file : ¬ isDirectory (s.dirBuf c) (32 * q) →
    ∃ rounds s' j, (∀ fuel, rounds ≤ fuel → fat32Unlink fuel s path = some (.ok, s')) ∧
      j ≤ q ∧ (∀ r, j ≤ r → r < q → entryKind (s.dirBuf c) (32 * r) = .longName) ∧
      (∀ r, j ≤ r → r ≤ q → cell s.info s'.disk.bytes c (32 * r) = 0xE5) ∧
      ∀ d, ValidCluster s.info d → ∀ i < s.info.bytesPerCluster, (d = c → ∀ r, j ≤ r → r ≤ q → i ≠ 32 * r) →
        cell s.info s'.disk.bytes d i = cell s.info s.disk.bytes d i

/-- **Lookup and unlink mean the same file**: `fat32_unlink` succeeds or refuses a directory exactly if `fat32_lookup`
succeeds, and acts on the entry that `fat32_lookup` returned. -/
structure SameFile (s : FatNode) (path : List UInt8) : Prop where
  only : ∀ fuel result s', fat32Unlink fuel s path = some (result, s') → result ≠ .missing →
    ∃ c ptr, LookupFinds s path c ptr
  removes : ∀ c ptr, LookupFinds s path c ptr → ∃ q, ptr = 32 * q ∧ Removes s path c q

/-- The rounds that suffice for the search of `fat32_unlink` suffice for the function, with those for the chain. -/
theorem unlink_eq {ptr start : Nat} (finds : UnlinkFinds s path c ptr start) :
    ∃ rounds, ∀ fuel, rounds ≤ fuel → fat32Unlink fuel s path = removeEntry fuel s c ptr start := by
  obtain ⟨rounds, run⟩ := finds
  refine ⟨rounds, fun fuel enough => ?_⟩
  rw [unlinkLoop_eq] at run
  rw [fat32Unlink, unlinkLoop_eq, runLoop_mono enough run]
  rfl

/-- **The two functions mean the same file** exactly if the file of the name has not got a stale name. -/
theorem sameFile_iff (s : FatNode) (wf : WellFormed s.info) (path : List UInt8)
    (places : ∀ c q, Denotes s path c q → ValidCluster s.info c ∧
      ∀ d, ReachedFrom s (entryCluster (s.dirBuf c) (32 * q)) d → ValidCluster s.info d) :
    SameFile s path ↔ ∀ c q, Denotes s path c q → ¬ StaleName (s.dirBuf c) path q := by
  constructor
  · intro same c q denotes
    obtain ⟨q', eq, removes⟩ := same.removes c (32 * q) (lookupFinds_iff.mpr ⟨q, rfl, denotes⟩)
    obtain rfl : q = q' := by omega
    obtain ⟨start, finds⟩ := removes.designates
    exact not_stale_of_unlinkFinds finds
  · intro fresh
    refine ⟨fun fuel result s' run notMissing => ?_, fun c ptr finds => ?_⟩
    · rw [fat32Unlink] at run
      cases search : unlinkLoop s.disk s.info path fuel s.info.cluster with
      | none =>
        rw [search] at run
        cases run
      | some found =>
        rw [search] at run
        cases found with
        | none =>
          obtain ⟨rfl, -⟩ := Prod.mk.inj (Option.some.inj run)
          exact absurd rfl notMissing
        | some place => exact lookupFinds_of_unlinkFinds ⟨fuel, search⟩
    · obtain ⟨q, rfl, denotes⟩ := lookupFinds_iff.mp finds
      obtain ⟨j, below, unlinks, long⟩ := unlinkFinds_of_denotes denotes (fresh c q denotes)
      obtain ⟨rounds, unlink⟩ := unlink_eq unlinks
      obtain ⟨valid, chain⟩ := places c q denotes
      refine ⟨q, rfl, ⟨_, unlinks⟩, fun isDir => ⟨rounds, fun fuel enough => ?_⟩, fun file => ?_⟩
      · rw [unlink fuel enough, removeEntry]
        exact if_pos isDir
      · obtain ⟨-, -, -, room, -⟩ := denotes
        obtain ⟨rounds', s', result, deleted, kept⟩ := removeEntry_file wf valid below room file chain
        refine ⟨max rounds rounds', s', j, fun fuel enough => ?_, below, long, deleted, kept⟩
        rw [unlink fuel (le_of_max_le_left enough), result fuel (le_of_max_le_right enough)]

theorem Denotes.first (last : endOfChain ≤ fat32GetNextCluster s.disk s.info s.info.cluster)
    (denotes : Denotes s path c q) : c = s.info.cluster := by
  obtain ⟨n, rfl, more, -, -, -, before⟩ := denotes
  obtain _ | _ | n := n
  · rfl
  · exact absurd more (not_lt.mpr last)
  · exact absurd (before 1 (by omega)).1 (not_lt.mpr last)

def deletedEntry : List UInt8 := 0xE5 :: List.replicate 31 0

/-- The entry of the long name `foo`. -/
def fooSlot : List UInt8 := [0x41, 102, 0, 111, 0, 111, 0, 0, 0, 0, 0, 0x0F] ++ List.replicate 20 0

def fooNode (fat : Bytes) (entries : List UInt8) : FatNode :=
  smallNode fun a => if a < 2048 then fat a else entries.getD (a - 2048) 0

/-- A deleted entry, and a file `BAR` of one cluster with the long name `foo`. -/
def namedFoo : FatNode :=
  fooNode (smallFat 0x0FFFFFFF 0x0FFFFFFF) (deletedEntry ++ fooSlot ++ [66, 65, 82] ++ List.replicate 23 0 ++ [3])

theorem namedFoo_denotes (denotes : Denotes namedFoo [102, 111, 111] c q) : c = 2 ∧ q = 2 := by
  obtain rfl : c = 2 := denotes.first (by decide +kernel)
  obtain ⟨-, -, -, room, taken, -⟩ := denotes
  have short : ∀ q < namedFoo.info.entriesPerCluster, entryKind (namedFoo.dirBuf 2) (32 * q) = .short → q = 2 := by
    decide +kernel
  exact ⟨rfl, short q room taken.1⟩

theorem sameFile_named : LookupFinds namedFoo [102, 111, 111] 2 64 ∧ SameFile namedFoo [102, 111, 111] := by
  refine ⟨⟨2, by decide +kernel⟩, (sameFile_iff namedFoo smallVolume_wellFormed _ fun c q denotes => ?_).mpr
    fun c q denotes stale => ?_⟩
  · obtain ⟨rfl, rfl⟩ := namedFoo_denotes denotes
    have chain : entryCluster (namedFoo.dirBuf 2) (32 * 2) = 3 ∧ ChainStop (fatOf namedFoo.info namedFoo.disk.bytes 3) := by
      decide +kernel
    refine ⟨by decide, fun d path => ?_⟩
    rw [chain.1] at path
    cases path with
    | here => decide
    | there _ rest => exact absurd chain.2 rest.cell
  · obtain ⟨rfl, rfl⟩ := namedFoo_denotes denotes
    exact stale.2 ⟨1, by decide, by unfold IsSlot; decide +kernel, fun e after before => by omega⟩

/-- The long name `foo` of a file that is gone, a deleted entry, and a file `BAR`. -/
def staleFoo : FatNode := fooNode (smallFat 0x0FFFFFFF 0) (fooSlot ++ deletedEntry ++ [66, 65, 82])

/-- `fat32_lookup` finds the file under the name `foo`, `fat32_unlink` does not. -/
theorem staleFoo_differs : LookupFinds staleFoo [102, 111, 111] 2 64 ∧
    (fat32Unlink 2 staleFoo [102, 111, 111]).map Prod.fst = some .missing ∧
    ¬ SameFile staleFoo [102, 111, 111] := by
  have found : LookupFinds staleFoo [102, 111, 111] 2 64 := ⟨2, by decide +kernel⟩
  refine ⟨found, by decide +kernel, fun same => ?_⟩
  obtain ⟨q, place, removes⟩ := same.removes 2 64 found
  obtain rfl : q = 2 := by omega
  obtain ⟨start, finds⟩ := removes.designates
  refine not_stale_of_unlinkFinds finds ⟨by decide +kernel, ?_⟩
  rintro ⟨v, less, slot, between⟩
  have deleted : entryKind (staleFoo.dirBuf 2) (32 * 1) = .deleted := by decide +kernel
  by_cases first : v = 0
  · exact absurd (deleted.symm.trans (between 1 (by omega) (by omega))) (by decide)
  · obtain rfl : v = 1 := by omega
    exact absurd (deleted.symm.trans slot.1) (by decide)

end Voxia.Fs
