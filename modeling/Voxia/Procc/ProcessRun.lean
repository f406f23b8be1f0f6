/-
**Runs of `create_process` and `destroy_process`.**

The bitmap holds the pids of the live processes in every run. The list of all processes and the buckets do not follow:
a destroyed head stays the head, and a destroyed process stays in its bucket and is found there
(`findProcessByPid_stale`). For an empty bucket `find_process_by_pid` reads through a null pointer.
`processTable_sound` has what is right, and in which runs.
-/

import Voxia.Procc.ProcessTable
import Mathlib.Data.Finset.Card
import Mathlib.Data.Finset.Image

namespace Voxia.Procc

open Lib Function List Nat

/-! ### Pids -/

variable {byte : BitVec 8} {bit pid p : Nat} {t : ProcessTable} {live cells : List Nat}

theorem lowestZero_some (found : lowestZero byte = some bit) : bit < 8 ∧ byte.getLsbD bit = false := by
  refine ⟨mem_range.mp (mem_of_find?_eq_some found), ?_⟩
  simpa using List.find?_some found

theorem lowestZero_none (full : lowestZero byte = none) (inByte : bit < 8) : byte.getLsbD bit := by
  simpa using List.find?_eq_none.mp full bit (mem_range.mpr inByte)

theorem scanPids_some :
    ∀ {rounds i : Nat}, scanPids t rounds i = some pid → pid < maxPid ∧ bitAt t.pidBitmap pid = false := by
  intro rounds
  induction rounds with
  | zero => intro i found; cases found
  | succ rounds ih =>
    intro i found
    rw [scanPids] at found
    have inBitmap : (t.lastPidIndex + i) % pidBytes < pidBytes := mod_lt _ (by decide)
    revert found
    cases zero : lowestZero (t.pidBitmap ((t.lastPidIndex + i) % pidBytes)) with
    | none => exact fun found => ih found
    | some bit =>
      intro found
      obtain ⟨inByte, unset⟩ := lowestZero_some zero
      obtain rfl : 8 * ((t.lastPidIndex + i) % pidBytes) + bit = pid := Option.some.inj found
      refine ⟨by unfold maxPid; omega, ?_⟩
      rw [bitAt, mul_add_div (by decide), div_eq_of_lt inByte, add_zero, mul_add_mod,
        mod_eq_of_lt inByte, unset]

theorem scanPids_none : ∀ {rounds i : Nat}, scanPids t rounds i = none →
    ∀ j < rounds, lowestZero (t.pidBitmap ((t.lastPidIndex + (i + j)) % pidBytes)) = none := by
  intro rounds
  induction rounds with
  | zero => intro i _ j inside; exact absurd inside (not_lt_zero j)
  | succ rounds ih =>
    intro i nothing j inside
    rw [scanPids] at nothing
    revert nothing
    cases zero : lowestZero (t.pidBitmap ((t.lastPidIndex + i) % pidBytes)) with
    | some bit => intro nothing; cases nothing
    | none =>
      intro nothing
      cases j with
      | zero => exact zero
      | succ j =>
        have later := ih nothing j (lt_of_succ_lt_succ inside)
        rwa [add_assoc, add_comm 1 j] at later

theorem exists_round {last idx : Nat} (lastIn : last < pidBytes) (idxIn : idx < pidBytes) :
    ∃ j < pidBytes, (last + (0 + j)) % pidBytes = idx := by
  by_cases before : last ≤ idx
  · refine ⟨idx - last, by omega, ?_⟩
    rw [show last + (0 + (idx - last)) = idx by omega]
    exact mod_eq_of_lt idxIn
  · refine ⟨idx + pidBytes - last, by omega, ?_⟩
    rw [show last + (0 + (idx + pidBytes - last)) = idx + pidBytes by omega, add_mod_right]
    exact mod_eq_of_lt idxIn

theorem bitAt_of_scanPids_none (lastIn : t.lastPidIndex < pidBytes) (nothing : scanPids t pidBytes 0 = none)
    (inRange : pid < maxPid) : bitAt t.pidBitmap pid := by
  have idxIn : pid / 8 < pidBytes := by unfold maxPid at inRange; omega
  obtain ⟨j, inside, here⟩ := exists_round lastIn idxIn
  have full := scanPids_none nothing j inside
  rw [here] at full
  exact lowestZero_none full (mod_lt _ (by decide))

/-! ### What the links are after each write -/

section LinkFields

variable (t : ProcessTable) (which : Links) (p x q : Nat)

@[simp] theorem mem_setNode (node : ProcessNode) : (setNode t p node).mem q = if q = p then node else t.mem q :=
  update_apply _ _ _ _

@[simp] theorem pid_setNext : ((setNext t which p x).mem q).pid = (t.mem q).pid := by
  unfold setNext
  by_cases here : q = p <;> simp [here]

@[simp] theorem pid_setPrev : ((setPrev t which p x).mem q).pid = (t.mem q).pid := by
  unfold setPrev
  by_cases here : q = p <;> simp [here]

@[simp] theorem next_setNext (other : Links) :
    ((setNext t which p x).mem q).next other = if q = p ∧ other = which then x else (t.mem q).next other := by
  unfold setNext
  by_cases here : q = p <;> simp [here, update_apply]

@[simp] theorem prev_setNext (other : Links) : ((setNext t which p x).mem q).prev other = (t.mem q).prev other := by
  unfold setNext
  by_cases here : q = p <;> simp [here]

@[simp] theorem next_setPrev (other : Links) : ((setPrev t which p x).mem q).next other = (t.mem q).next other := by
  unfold setPrev
  by_cases here : q = p <;> simp [here]

@[simp] theorem prev_setPrev (other : Links) :
    ((setPrev t which p x).mem q).prev other = if q = p ∧ other = which then x else (t.mem q).prev other := by
  unfold setPrev
  by_cases here : q = p <;> simp [here, update_apply]

@[simp] theorem pid_linkSelf : ((linkSelf t which p).mem q).pid = (t.mem q).pid := by simp [linkSelf]

@[simp] theorem pid_linkBefore (h : Nat) : ((linkBefore t which h p).mem q).pid = (t.mem q).pid := by simp [linkBefore]

end LinkFields

section

variable (t : ProcessTable) (p q : Nat)

@[simp] theorem pid_cacheInsert : ((cacheInsert t p).mem q).pid = (t.mem q).pid := by
  unfold cacheInsert
  dsimp only
  cases (linkSelf t .cache p).bucket ((t.mem p).pid % 256) <;> simp

@[simp] theorem pid_listInsert : ((listInsert t p).mem q).pid = (t.mem q).pid := by
  unfold listInsert
  dsimp only
  cases (linkSelf t .all p).processList <;> simp

def enterPid : ProcessTable :=
  setNode (allocPid t).2 p ⟨(allocPid t).1, fun _ => 0, fun _ => 0⟩

theorem createProcess_eq : createProcess t p = listInsert (cacheInsert (enterPid t p) p) p := rfl

theorem mem_allocPid : (allocPid t).2.mem = t.mem := by
  unfold allocPid
  cases scanPids t pidBytes 0 <;> rfl

theorem pid_createProcess : ((createProcess t p).mem q).pid = if q = p then (allocPid t).1 else (t.mem q).pid := by
  rw [createProcess_eq, pid_listInsert, pid_cacheInsert, enterPid, mem_setNode, mem_allocPid]
  by_cases here : q = p <;> simp [here]

theorem cacheInsert_eq : ∃ mem, cacheInsert t p =
    { t with mem := mem, bucket := update t.bucket ((t.mem p).pid % 256) (some p) } := by
  unfold cacheInsert
  dsimp only
  cases (linkSelf t .cache p).bucket ((t.mem p).pid % 256) <;> exact ⟨_, rfl⟩

theorem listInsert_eq : ∃ mem head, listInsert t p = { t with mem := mem, processList := head } := by
  unfold listInsert
  dsimp only
  cases (linkSelf t .all p).processList <;> exact ⟨_, _, rfl⟩

theorem createProcess_fields :
    (createProcess t p).pidBitmap = (allocPid t).2.pidBitmap ∧
      (createProcess t p).lastPidIndex = (allocPid t).2.lastPidIndex ∧
      (createProcess t p).bucket = update (enterPid t p).bucket (((enterPid t p).mem p).pid % 256) (some p) := by
  obtain ⟨mem, entered⟩ := cacheInsert_eq (enterPid t p) p
  obtain ⟨mem', head, listed⟩ := listInsert_eq (cacheInsert (enterPid t p) p) p
  rw [createProcess_eq, listed, entered]
  exact ⟨rfl, rfl, rfl⟩

theorem enterPid_fields : (enterPid t p).bucket = t.bucket ∧ (enterPid t p).processList = t.processList := by
  unfold enterPid allocPid
  cases scanPids t pidBytes 0 <;> exact ⟨rfl, rfl⟩

theorem pid_destroyProcess : ((destroyProcess t p).mem q).pid = (t.mem q).pid := by
  unfold destroyProcess
  dsimp only
  split
  · split <;> rfl
  · simp [freePid]

theorem bitmap_destroyProcess :
    (destroyProcess t p).pidBitmap = andNotBit t.pidBitmap (t.mem p).pid ∧
      (destroyProcess t p).lastPidIndex = t.lastPidIndex := by
  unfold destroyProcess
  dsimp only
  split
  · split <;> exact ⟨rfl, rfl⟩
  · exact ⟨rfl, rfl⟩

end

/-! ### Runs -/

/-- The tables reached by creating and destroying processes, with the live ones in the order of their
creation. A process is destroyed where `may` allows it; `create_process` gets an object the slab cache has
not given to a live process. -/
inductive ProcReach (may : ProcessTable → Nat → Prop) : ProcessTable → List Nat → Prop
  | start : ProcReach may emptyProcessTable []
  | create {t : ProcessTable} {live : List Nat} {p : Nat} : ProcReach may t live → p ∉ live → live.length < maxPid →
      ProcReach may (createProcess t p) (live ++ [p])
  | destroy {t : ProcessTable} {live : List Nat} {p : Nat} : ProcReach may t live → p ∈ live → may t p →
      ProcReach may (destroyProcess t p) (live.erase p)

/-- The bitmap holds the pids of the live processes, each of one process. -/
structure PidsSound (t : ProcessTable) (live : List Nat) : Prop where
  nodup : live.Nodup
  distinct : ∀ p ∈ live, ∀ q ∈ live, (t.mem p).pid = (t.mem q).pid → p = q
  used : ∀ p ∈ live, (t.mem p).pid < maxPid ∧ bitAt t.pidBitmap (t.mem p).pid
  owned : ∀ pid < maxPid, bitAt t.pidBitmap pid → ∃ p ∈ live, (t.mem p).pid = pid
  lastIn : t.lastPidIndex < pidBytes

theorem PidsSound.allocPid_spec (sound : PidsSound t live) (room : live.length < maxPid) :
    ∃ pid < maxPid, bitAt t.pidBitmap pid = false ∧
      allocPid t = (pid, { t with pidBitmap := orBit t.pidBitmap pid, lastPidIndex := pid / 8 }) := by
  cases found : scanPids t pidBytes 0 with
  | some pid =>
    obtain ⟨inRange, unset⟩ := scanPids_some found
    exact ⟨pid, inRange, unset, by rw [allocPid, found]⟩
  | none =>
    -- then each pid would belong to a process of its own
    have covered : Finset.range maxPid ⊆ live.toFinset.image fun p => (t.mem p).pid := by
      intro pid inRange
      rw [Finset.mem_range] at inRange
      obtain ⟨p, alive, owns⟩ := sound.owned pid inRange (bitAt_of_scanPids_none sound.lastIn found inRange)
      exact Finset.mem_image.mpr ⟨p, mem_toFinset.mpr alive, owns⟩
    have bound := (Finset.card_le_card covered).trans (Finset.card_image_le.trans live.toFinset_card_le)
    rw [Finset.card_range] at bound
    omega

/-- A new process takes a pid no other has. -/
theorem PidsSound.create (sound : PidsSound t live) (new : p ∉ live)
    (room : live.length < maxPid) : PidsSound (createProcess t p) (live ++ [p]) := by
  obtain ⟨pid, inRange, unset, allocated⟩ := sound.allocPid_spec room
  have pidOf := fun q => pid_createProcess t p q
  obtain ⟨bitmap, last, -⟩ := createProcess_fields t p
  rw [allocated] at bitmap last
  simp only [allocated] at pidOf
  have old : ∀ q ∈ live, ((createProcess t p).mem q).pid = (t.mem q).pid := by
    intro q alive
    rw [pidOf, if_neg]
    rintro rfl
    exact new alive
  have fresh : ((createProcess t p).mem p).pid = pid := by rw [pidOf, if_pos rfl]
  have notOld : ∀ q ∈ live, (t.mem q).pid ≠ pid := by
    rintro q alive rfl
    rw [(sound.used q alive).2] at unset
    cases unset
  refine ⟨?_, ?_, ?_, ?_, ?_⟩
  · exact sound.nodup.append (nodup_singleton p) (by simpa using new)
  · intro a aAlive b bAlive same
    rcases mem_append.mp aAlive with aOld | aNew <;> rcases mem_append.mp bAlive with bOld | bNew
    · rw [old a aOld, old b bOld] at same
      exact sound.distinct a aOld b bOld same
    · rw [mem_singleton.mp bNew, old a aOld, fresh] at same
      exact absurd same (notOld a aOld)
    · rw [mem_singleton.mp aNew, old b bOld, fresh] at same
      exact absurd same.symm (notOld b bOld)
    · rw [mem_singleton.mp aNew, mem_singleton.mp bNew]
  · intro q alive
    rw [bitmap, bitAt_orBit (by decide)]
    rcases mem_append.mp alive with isOld | isNew
    · rw [old q isOld, if_neg (notOld q isOld)]
      exact sound.used q isOld
    · rw [mem_singleton.mp isNew, fresh, if_pos rfl]
      exact ⟨inRange, rfl⟩
  · intro other otherIn set
    rw [bitmap, bitAt_orBit (by decide)] at set
    by_cases same : other = pid
    · exact ⟨p, mem_append_right _ (mem_singleton_self p), by rw [fresh, same]⟩
    · rw [if_neg same] at set
      obtain ⟨q, alive, owns⟩ := sound.owned other otherIn set
      exact ⟨q, mem_append_left _ alive, by rw [old q alive, owns]⟩
  · rw [last]
    unfold maxPid at inRange
    dsimp only
    omega

theorem PidsSound.destroy (sound : PidsSound t live) (alive : p ∈ live) :
    PidsSound (destroyProcess t p) (live.erase p) := by
  have remains : ∀ q, q ∈ live.erase p ↔ q ≠ p ∧ q ∈ live := fun q => sound.nodup.mem_erase_iff
  refine ⟨sound.nodup.erase p, ?_, ?_, ?_, ?_⟩
  · intro a aAlive b bAlive same
    rw [pid_destroyProcess, pid_destroyProcess] at same
    exact sound.distinct a ((remains a).mp aAlive).2 b ((remains b).mp bAlive).2 same
  · intro q qAlive
    obtain ⟨different, wasAlive⟩ := (remains q).mp qAlive
    obtain ⟨inRange, set⟩ := sound.used q wasAlive
    have otherPid : (t.mem q).pid ≠ (t.mem p).pid := fun same => different (sound.distinct q wasAlive p alive same)
    rw [pid_destroyProcess, (bitmap_destroyProcess t p).1, bitAt_andNotBit (by decide), if_neg otherPid]
    exact ⟨inRange, set⟩
  · intro pid inRange set
    rw [(bitmap_destroyProcess t p).1, bitAt_andNotBit (by decide)] at set
    by_cases same : pid = (t.mem p).pid
    · rw [if_pos same] at set
      cases set
    · rw [if_neg same] at set
      obtain ⟨q, wasAlive, owns⟩ := sound.owned pid inRange set
      refine ⟨q, (remains q).mpr ⟨?_, wasAlive⟩, by rw [pid_destroyProcess, owns]⟩
      rintro rfl
      exact same owns.symm
  · rw [(bitmap_destroyProcess t p).2]
    exact sound.lastIn

theorem pidsSound_empty : PidsSound emptyProcessTable [] where
  nodup := nodup_nil
  distinct := by simp
  used := by simp
  owned := by
    intro pid _ set
    simp [emptyProcessTable, bitAt] at set
  lastIn := by decide

/-- The pids of the live processes are in the bitmap and pairwise distinct, whatever is destroyed. -/
theorem ProcReach.pids {may : ProcessTable → Nat → Prop} (reach : ProcReach may t live) : PidsSound t live := by
  induction reach with
  | start => exact pidsSound_empty
  | create _ new room sound => exact sound.create new room
  | destroy _ alive _ sound => exact sound.destroy alive

/-! ### Rings of processes -/

def RingOn (t : ProcessTable) (which : Links) (cells : List Nat) : Prop :=
  Ring (fun q => (t.mem q).next which) (fun q => (t.mem q).prev which) cells

namespace RingOn

variable {t t' : ProcessTable} {which other : Links} {cells rest : List Nat} {h p : Nat}

theorem congr (ring : RingOn t which cells) (sameNext : ∀ q ∈ cells, (t'.mem q).next which = (t.mem q).next which)
    (samePrev : ∀ q ∈ cells, (t'.mem q).prev which = (t.mem q).prev which) : RingOn t' which cells :=
  Ring.congr ring sameNext samePrev

theorem enterPid (ring : RingOn t which cells) (new : p ∉ cells) : RingOn (enterPid t p) which cells := by
  have same : ∀ q ∈ cells, (Procc.enterPid t p).mem q = t.mem q := by
    intro q inside
    rw [Procc.enterPid, mem_setNode, mem_allocPid, if_neg]
    rintro rfl
    exact new inside
  exact ring.congr (fun q inside => by rw [same q inside]) fun q inside => by rw [same q inside]

theorem linkSelf (ring : RingOn t which cells) (new : p ∉ cells) : RingOn (linkSelf t other p) which cells := by
  have away : ∀ q ∈ cells, q ≠ p := fun q inside same => new (same ▸ inside)
  refine ring.congr (fun q inside => ?_) fun q inside => ?_ <;> simp [Procc.linkSelf, away q inside]

theorem self (t : ProcessTable) (which : Links) (p : Nat) : RingOn (Procc.linkSelf t which p) which [p] := by
  refine Ring.singleton ?_ ?_ <;> simp [Procc.linkSelf]

theorem linkSelf_other (ring : RingOn t which cells) (different : which ≠ other) :
    RingOn (Procc.linkSelf t other p) which cells := by
  refine ring.congr (fun q _ => ?_) fun q _ => ?_ <;> simp [Procc.linkSelf, different]

theorem linkBefore_other (ring : RingOn t which cells) (different : which ≠ other) :
    RingOn (linkBefore t other h p) which cells := by
  refine ring.congr (fun q _ => ?_) fun q _ => ?_ <;> simp [linkBefore, different]

theorem linkBefore (ring : RingOn t which (h :: rest)) (new : p ∉ h :: rest) :
    RingOn (linkBefore t which h p) which (h :: (rest ++ [p])) := by
  have notTail : (t.mem h).prev which ≠ p := fun same => new (same ▸ ring.2.prev_mem)
  have notHead : h ≠ p := fun same => new (same ▸ mem_cons_self)
  refine Ring.insert ring new ?_ ?_ (fun q inside notLast => ?_) ?_ ?_ fun q inside => ?_
  · simp [Procc.linkBefore]
  · simp [Procc.linkBefore, notTail]
  · have notNew : q ≠ p := fun same => new (same ▸ inside)
    simp [Procc.linkBefore, notNew, notLast]
  · simp [Procc.linkBefore, notHead.symm]
  · simp [Procc.linkBefore]
  · have notNew : q ≠ p := fun same => new (same ▸ mem_cons_of_mem _ inside)
    have notFirst : q ≠ h := fun same => (nodup_cons.mp ring.1).1 (same ▸ inside)
    simp [Procc.linkBefore, notNew, notFirst]

theorem linkBefore_disjoint (ring : RingOn t which cells) (changed : RingOn t which (h :: rest))
    (apart : ∀ q ∈ cells, q ∉ h :: rest) (new : p ∉ cells) : RingOn (Procc.linkBefore t which h p) which cells := by
  refine ring.congr (fun q inside => ?_) fun q inside => ?_
  · have notTail : q ≠ (t.mem h).prev which := fun same => apart q inside (same ▸ changed.2.prev_mem)
    have notNew : q ≠ p := fun same => new (same ▸ inside)
    simp [Procc.linkBefore, notNew, notTail]
  · have notHead : q ≠ h := fun same => apart q inside (same ▸ mem_cons_self)
    have notNew : q ≠ p := fun same => new (same ▸ inside)
    simp [Procc.linkBefore, notNew, notHead]

/-- The list of all processes is not touched when a process is entered in its bucket. -/
theorem cacheInsert (ring : RingOn t .all cells) : RingOn (cacheInsert t p) .all cells := by
  have linked : RingOn (Procc.linkSelf t .cache p) .all cells := ring.linkSelf_other (by decide)
  unfold Procc.cacheInsert
  dsimp only
  cases (Procc.linkSelf t .cache p).bucket ((t.mem p).pid % 256) with
  | none => exact linked
  | some h => exact linked.linkBefore_other (by decide)

/-- The buckets are not touched when a process is entered in the list of all processes. -/
theorem listInsert (ring : RingOn t .cache cells) : RingOn (listInsert t p) .cache cells := by
  have linked : RingOn (Procc.linkSelf t .all p) .cache cells := ring.linkSelf_other (by decide)
  unfold Procc.listInsert
  dsimp only
  cases (Procc.linkSelf t .all p).processList with
  | none => exact linked
  | some h => exact linked.linkBefore_other (by decide)

end RingOn

/-! ### The list of all processes -/

structure ListSound (t : ProcessTable) (live : List Nat) : Prop where
  head : t.processList = live.head?
  ring : RingOn t .all live

/-- A process that is not the head, or is alone in the list. -/
def KeepsHead (t : ProcessTable) (p : Nat) : Prop := t.processList ≠ some p ∨ (t.mem p).next .all = p

theorem ListSound.listInsert (sound : ListSound t live) (new : p ∉ live) :
    ListSound (listInsert t p) (live ++ [p]) := by
  have linked : RingOn (linkSelf t .all p) .all live := sound.ring.linkSelf new
  have headOf : (linkSelf t .all p).processList = live.head? := sound.head
  unfold Procc.listInsert
  dsimp only
  rw [headOf]
  cases live with
  | nil => exact ⟨rfl, RingOn.self t .all p⟩
  | cons h rest => exact ⟨headOf, linked.linkBefore new⟩

theorem ListSound.create (sound : ListSound t live) (new : p ∉ live) : ListSound (createProcess t p) (live ++ [p]) := by
  rw [createProcess_eq]
  refine ListSound.listInsert ⟨?_, (sound.ring.enterPid new).cacheInsert⟩ new
  obtain ⟨mem, entered⟩ := cacheInsert_eq (enterPid t p) p
  rw [entered]
  exact (enterPid_fields t p).2.trans sound.head

theorem destroyProcess_middle (notAlone : (t.mem p).prev .all ≠ p) :
    destroyProcess t p =
      setNext (setPrev (freePid t (t.mem p).pid) .all ((t.mem p).next .all) ((t.mem p).prev .all)) .all
        ((t.mem p).prev .all) ((t.mem p).next .all) := by
  unfold destroyProcess
  dsimp only [freePid]
  rw [if_neg notAlone]

/-- The list loses exactly the process destroyed. -/
theorem ListSound.destroy (sound : ListSound t live) (alive : p ∈ live)
    (keeps : KeepsHead t p) : ListSound (destroyProcess t p) (live.erase p) := by
  obtain ⟨h, rest, rfl⟩ := exists_cons_of_ne_nil (ne_nil_of_mem alive)
  obtain ⟨distinct, segment⟩ := sound.ring
  obtain ⟨notLater, -⟩ := nodup_cons.mp distinct
  by_cases first : p = h
  · subst first
    have forward : (t.mem p).next .all = p := keeps.resolve_left fun other => other sound.head
    obtain rfl : rest = [] := by
      cases rest with
      | nil => rfl
      | cons c rest =>
        have link : (t.mem p).next .all = c := segment.1.1
        exact absurd (by rw [← forward, link]; exact mem_cons_self) notLater
    have back : (t.mem p).prev .all = p := segment.2
    have emptied : (destroyProcess t p).processList = none := by
      unfold destroyProcess
      dsimp only [freePid]
      rw [if_pos back, if_pos forward]
    rw [erase_cons_head]
    exact ⟨emptied, trivial⟩
  · have inRest : p ∈ rest := (mem_cons.mp alive).resolve_left first
    obtain ⟨mid, later, rfl⟩ := append_of_mem inRest
    have back : (t.mem p).prev .all ∈ h :: mid := (Segment.append.mp segment).1.prev_mem
    have notAlone : (t.mem p).prev .all ≠ p := by
      intro same
      rw [same] at back
      refine (nodup_append.mp (cons_append ▸ distinct : ((h :: mid) ++ p :: later).Nodup)).2.2 p back p ?_ rfl
      exact mem_cons_self
    have outside : p ∉ mid := by
      intro inside
      have tail := (nodup_cons.mp distinct).2
      exact (nodup_append.mp tail).2.2 p inside p mem_cons_self rfl
    rw [erase_cons_tail (by simpa using fun same : h = p => first same.symm),
      erase_append_right _ outside, erase_cons_head, destroyProcess_middle notAlone]
    refine ⟨sound.head, Ring.remove sound.ring (fun q _ notLast => ?_) ?_ (fun q _ notFirst => ?_) ?_⟩
    · simp [freePid, notLast]
    · simp
    · simp [freePid, notFirst]
    · simp

/-- The list of all processes is the live ones, as long as its head is destroyed only when it is alone. -/
theorem ProcReach.ring (reach : ProcReach KeepsHead t live) : ListSound t live := by
  induction reach with
  | start => exact ⟨rfl, trivial⟩
  | create _ new _ sound => exact sound.create new
  | destroy _ alive keeps sound => exact sound.destroy alive keeps

/-! ### The buckets -/

/-- A bucket is the ring of the live processes with its pids. -/
def BucketSound (t : ProcessTable) (live : List Nat) (b : Nat) : Prop :=
  ∃ cells, t.bucket b = cells.head? ∧ RingOn t .cache cells ∧
    ∀ q, q ∈ cells ↔ q ∈ live ∧ (t.mem q).pid % 256 = b

theorem ring_cacheInsert_own (ring : RingOn t .cache cells) (head : t.bucket ((t.mem p).pid % 256) = cells.head?)
    (new : p ∉ cells) : RingOn (cacheInsert t p) .cache (p :: cells) := by
  have linked : RingOn (linkSelf t .cache p) .cache cells := ring.linkSelf new
  have headOf : (linkSelf t .cache p).bucket ((t.mem p).pid % 256) = cells.head? := head
  unfold cacheInsert
  dsimp only
  rw [headOf]
  cases cells with
  | nil => exact RingOn.self t .cache p
  | cons h rest => exact Ring.rotate (linked.linkBefore new)

theorem ring_cacheInsert_other {own : List Nat} (ring : RingOn t .cache cells) (ownRing : RingOn t .cache own)
    (head : t.bucket ((t.mem p).pid % 256) = own.head?)
    (apart : ∀ q ∈ cells, q ∉ own) (new : p ∉ cells) (notOwn : p ∉ own) : RingOn (cacheInsert t p) .cache cells := by
  have linked : RingOn (linkSelf t .cache p) .cache cells := ring.linkSelf new
  have headOf : (linkSelf t .cache p).bucket ((t.mem p).pid % 256) = own.head? := head
  unfold cacheInsert
  dsimp only
  rw [headOf]
  cases own with
  | nil => exact linked
  | cons h rest => exact linked.linkBefore_disjoint (ownRing.linkSelf notOwn) apart new

/-- A new process is the first of its bucket. -/
theorem BucketSound.create (sound : ∀ b, BucketSound t live b) (new : p ∉ live)
    (b : Nat) : BucketSound (createProcess t p) (live ++ [p]) b := by
  -- the table before the new process is linked in: each bucket is as it was
  have entered : ∀ b, ∃ cells, (enterPid t p).bucket b = cells.head? ∧ RingOn (enterPid t p) .cache cells ∧ p ∉ cells ∧
      ∀ q, q ∈ cells ↔ q ∈ live ∧ (t.mem q).pid % 256 = b := by
    intro b
    obtain ⟨cells, head, ring, members⟩ := sound b
    have outside : p ∉ cells := fun inside => new ((members p).mp inside).1
    exact ⟨cells, by rw [(enterPid_fields t p).1, head], ring.enterPid outside, outside, members⟩
  have pidOf : ∀ q, ((createProcess t p).mem q).pid = ((enterPid t p).mem q).pid := fun q => by
    rw [createProcess_eq, pid_listInsert, pid_cacheInsert]
  have old : ∀ q, q ≠ p → (enterPid t p).mem q = t.mem q := fun q different => by
    rw [enterPid, mem_setNode, mem_allocPid, if_neg different]
  obtain ⟨-, -, bucketOf⟩ := createProcess_fields t p
  obtain ⟨own, ownHead, ownRing, notOwn, ownMembers⟩ := entered (((enterPid t p).mem p).pid % 256)
  by_cases here : b = ((enterPid t p).mem p).pid % 256
  · refine ⟨p :: own, by rw [bucketOf, here, update_self]; rfl, ?_, fun q => ?_⟩
    · exact (ring_cacheInsert_own ownRing ownHead notOwn).listInsert
    · rw [pidOf, here, mem_cons, mem_append, mem_singleton, ownMembers]
      by_cases isNew : q = p
      · simp [isNew]
      · simp [isNew, old q isNew]
  · obtain ⟨cells, head, ring, outside, members⟩ := entered b
    refine ⟨cells, by rw [bucketOf, update_of_ne here, head], ?_, fun q => ?_⟩
    · refine (ring_cacheInsert_other ring ownRing ownHead (fun q inside inOwn => here ?_) outside notOwn).listInsert
      rw [← ((members q).mp inside).2, ((ownMembers q).mp inOwn).2]
    · rw [pidOf, mem_append, mem_singleton, members]
      by_cases isNew : q = p
      · subst isNew
        simp [new, Ne.symm here]
      · simp [isNew, old q isNew]

def Never (_ : ProcessTable) (_ : Nat) : Prop := False

/-- Each bucket holds the live processes with its pids, as long as nothing is destroyed. -/
theorem ProcReach.buckets (reach : ProcReach Never t live) : ∀ b, BucketSound t live b := by
  induction reach with
  | start => exact fun b => ⟨[], rfl, trivial, by simp⟩
  | create _ new _ sound => exact BucketSound.create sound new
  | destroy _ _ never _ => exact never.elim

/-- What `find_process_by_pid` answers in a table with sound pids and a sound bucket. -/
theorem findProcessByPid_spec {fuel : Nat} (pids : PidsSound t live) (bucket : BucketSound t live (pid % 256))
    (used : t.bucket (pid % 256) ≠ none) (enough : live.length ≤ fuel) :
    (∀ p ∈ live, (t.mem p).pid = pid → findProcessByPid fuel t pid = .process p) ∧
      ((∀ p ∈ live, (t.mem p).pid ≠ pid) → findProcessByPid fuel t pid = .null) := by
  obtain ⟨cells, head, ring, members⟩ := bucket
  obtain ⟨h, rest, rfl⟩ := exists_cons_of_ne_nil (l := cells) (fun empty => used (by rw [head, empty]; rfl))
  have fits : rest.length < fuel := by
    have sub : (h :: rest) ⊆ live := fun q inside => ((members q).mp inside).1
    have shorter := (subperm_of_subset ring.nodup sub).length_le
    simp only [length_cons] at shorter
    omega
  have walked := Ring.walk ring (fun q => (t.mem q).pid == pid) fits
  have answer : ∀ found, (h :: rest).find? (fun q => (t.mem q).pid == pid) = found →
      findProcessByPid fuel t pid = found.elim .null .process := by
    intro found result
    rw [findProcessByPid, head, List.head?_cons]
    dsimp only
    rw [walked, result]
    cases found <;> rfl
  constructor
  · intro p alive owns
    have inside : p ∈ h :: rest := (members p).mpr ⟨alive, by rw [owns]⟩
    cases result : (h :: rest).find? (fun q => (t.mem q).pid == pid) with
    | none => exact absurd owns (by simpa using List.find?_eq_none.mp result p inside)
    | some q =>
      have same : (t.mem q).pid = pid := by simpa using List.find?_some result
      have alive' := ((members q).mp (mem_of_find?_eq_some result)).1
      rw [answer _ result, pids.distinct q alive' p alive (by rw [same, owns]), Option.elim_some]
  · intro nobody
    refine answer none (List.find?_eq_none.mpr fun q inside => ?_)
    simpa using nobody q ((members q).mp inside).1

/-! ### The table as a whole -/

/-- The process table over all runs. The pids of the live processes are distinct in every run. The list of
all processes is exactly the live ones in every run that destroys the head only when it is alone.
`find_process_by_pid` answers rightly in every run that destroys nothing, for each pid whose bucket is not
empty; the bucket is empty if and only if no live process has a pid in it, and then the function
dereferences a null pointer. -/
theorem processTable_sound (t : ProcessTable) (live : List Nat) (pid fuel : Nat) :
    (ProcReach (fun _ _ => True) t live →
      live.Nodup ∧ ∀ p ∈ live, ∀ q ∈ live, (t.mem p).pid = (t.mem q).pid → p = q) ∧
    (ProcReach KeepsHead t live →
      t.processList = live.head? ∧ Ring (fun q => (t.mem q).next .all) (fun q => (t.mem q).prev .all) live) ∧
    (ProcReach Never t live → live.length ≤ fuel →
      (t.bucket (pid % 256) = none ↔ ∀ p ∈ live, (t.mem p).pid % 256 ≠ pid % 256) ∧
      (t.bucket (pid % 256) = none → findProcessByPid fuel t pid = .fault) ∧
      (t.bucket (pid % 256) ≠ none →
        (∀ p ∈ live, (t.mem p).pid = pid → findProcessByPid fuel t pid = .process p) ∧
        ((∀ p ∈ live, (t.mem p).pid ≠ pid) → findProcessByPid fuel t pid = .null))) := by
  refine ⟨fun reach => ⟨reach.pids.nodup, reach.pids.distinct⟩,
    fun reach => ⟨reach.ring.head, reach.ring.ring⟩, fun reach enough => ⟨?_, ?_, ?_⟩⟩
  · obtain ⟨cells, head, -, members⟩ := reach.buckets (pid % 256)
    rw [head, List.head?_eq_none_iff, eq_nil_iff_forall_not_mem]
    simp only [members, not_and, ne_eq]
  · intro empty
    rw [findProcessByPid, empty]
  · intro used
    exact findProcessByPid_spec reach.pids (reach.buckets _) used enough

def twoProcesses : ProcessTable := createProcess (createProcess emptyProcessTable 1) 2

theorem twoProcesses_reach (may : ProcessTable → Nat → Prop) : ProcReach may twoProcesses [1, 2] :=
  .create (.create .start (by simp) (by decide)) (by simp) (by decide)

/-- Two processes are created, and the second is destroyed. -/
theorem processTable_sound_two : (twoProcesses.mem 1).pid ≠ (twoProcesses.mem 2).pid ∧
    findProcessByPid 2 twoProcesses 1 = .process 2 ∧ (destroyProcess twoProcesses 2).processList = some 1 := by
  have distinct := ((processTable_sound twoProcesses [1, 2] 1 2).1 (twoProcesses_reach _)).2
  have found := ((processTable_sound twoProcesses [1, 2] 1 2).2.2 (twoProcesses_reach _) (by decide)).2.2
  have destroyed := (twoProcesses_reach KeepsHead).destroy (show 2 ∈ [1, 2] by decide) (.inl (by decide +kernel))
  refine ⟨fun same => ?_, (found (by decide +kernel)).1 2 (by decide) (by decide +kernel),
    ((processTable_sound _ [1] 1 2).2.1 destroyed).1⟩
  exact absurd (distinct 1 (by decide) 2 (by decide) same) (by decide)

/-- One process is created and destroyed: no process is live, and its pid still finds it; the pid of
another bucket makes the function fault. -/
theorem findProcessByPid_stale :
    ProcReach (fun _ _ => True) (destroyProcess (createProcess emptyProcessTable 1) 1) [] ∧
      findProcessByPid 1 (destroyProcess (createProcess emptyProcessTable 1) 1) 0 = .process 1 ∧
      findProcessByPid 1 (destroyProcess (createProcess emptyProcessTable 1) 1) 1 = .fault := by
  refine ⟨?_, by decide +kernel, by decide +kernel⟩
  have one : ProcReach (fun _ _ => True) (createProcess emptyProcessTable 1) [1] :=
    .create .start (by simp) (by decide)
  simpa using one.destroy (mem_singleton_self 1) trivial

end Voxia.Procc
