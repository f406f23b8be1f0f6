/-
**The search for a name in a directory.**

`fat32_lookup` and `fat32_unlink` have the same two loops: one over the clusters of the directory and one over the
entries of a cluster, which collects the entries of long names and asks at every short entry whether it is the one.
They differ in what they remember (`Parser`), so what the loops do is said once.
-/

import Voxia.Fs.FatDir
import Voxia.Lib.Loops

namespace Voxia.Fs

open Lib Nat

def EntryScan.map {α β : Type} (f : α → β) : EntryScan α → EntryScan β
  | .found result => .found (f result)
  | .terminated => .terminated
  | .exhausted => .exhausted

variable {α β : Type} {f : α → β} {result : EntryScan α} {dirBuf : Bytes} {path : List UInt8} {ptr : Nat}

theorem EntryScan.map_eq_found_iff {b : β} : result.map f = .found b ↔ ∃ a, result = .found a ∧ f a = b := by
  cases result with
  | found a => simp [EntryScan.map]
  | _ => exact iff_of_false nofun nofun

theorem EntryScan.map_eq_terminated_iff : result.map f = .terminated ↔ result = .terminated := by
  cases result with
  | terminated => exact iff_of_true rfl rfl
  | _ => exact iff_of_false nofun nofun

theorem EntryScan.map_eq_exhausted_iff : result.map f = .exhausted ↔ result = .exhausted := by
  cases result with
  | exhausted => exact iff_of_true rfl rfl
  | _ => exact iff_of_false nofun nofun

/-! ### The entries of a cluster -/

/-- A loop over entries: what it remembers after an entry, and which short entries it takes. -/
structure Parser (σ : Type) where
  start : σ
  after : EntryKind → Nat → σ → σ
  takes : σ → Nat → Bool

namespace Parser

variable {σ : Type} (parser : Parser σ) (dirBuf : Bytes)

/-- The loop: the entry it takes, and what it remembers then. -/
def scan : Nat → Nat → σ → EntryScan (Nat × σ)
  | 0, _, _ => .exhausted
  | left + 1, ptr, state =>
    match entryKind dirBuf ptr with
    | .terminator => .terminated
    | .deleted => scan left (ptr + 32) (parser.after .deleted ptr state)
    | .longName => scan left (ptr + 32) (parser.after .longName ptr state)
    | .short =>
      if parser.takes state ptr then .found (ptr, state) else scan left (ptr + 32) (parser.after .short ptr state)

def stateAt : Nat → σ
  | 0 => parser.start
  | p + 1 => parser.after (entryKind dirBuf (32 * p)) (32 * p) (stateAt p)

def Takes (q : Nat) : Prop :=
  entryKind dirBuf (32 * q) = .short ∧ parser.takes (parser.stateAt dirBuf q) (32 * q)

def Passes (r : Nat) : Prop := entryKind dirBuf (32 * r) ≠ .terminator ∧ ¬ parser.Takes dirBuf r

inductive Scanned (p left : Nat) : EntryScan (Nat × σ) → Prop
  | found {q : Nat} (low : p ≤ q) (high : q < p + left) (taken : parser.Takes dirBuf q)
      (before : ∀ r, p ≤ r → r < q → parser.Passes dirBuf r) :
      Scanned p left (.found (32 * q, parser.stateAt dirBuf q))
  | terminated {q : Nat} (low : p ≤ q) (high : q < p + left) (zero : entryKind dirBuf (32 * q) = .terminator)
      (before : ∀ r, p ≤ r → r < q → parser.Passes dirBuf r) : Scanned p left .terminated
  | exhausted (all : ∀ r, p ≤ r → r < p + left → parser.Passes dirBuf r) : Scanned p left .exhausted

variable {parser dirBuf}

variable {left : Nat}

theorem Scanned.cons {p : Nat} {result : EntryScan (Nat × σ)} (passes : parser.Passes dirBuf p)
    (rest : parser.Scanned dirBuf (p + 1) left result) : parser.Scanned dirBuf p (left + 1) result := by
  have later : ∀ {q}, (∀ r, p + 1 ≤ r → r < q → parser.Passes dirBuf r) → ∀ r, p ≤ r → r < q → parser.Passes dirBuf r :=
    fun before r low high => by
      by_cases here : r = p
      · exact here ▸ passes
      · exact before r (by omega) high
  cases rest with
  | found low high taken before => exact .found (by omega) (by omega) taken (later before)
  | terminated low high zero before => exact .terminated (by omega) (by omega) zero (later before)
  | exhausted all => exact .exhausted (later fun r low high => all r low (by omega))

variable (parser dirBuf)

/-- **The search in a cluster** ends at the first entry the loop does not go over. -/
theorem scan_spec (left p : Nat) :
    parser.Scanned dirBuf p left (parser.scan dirBuf left (32 * p) (parser.stateAt dirBuf p)) := by
  induction left generalizing p with
  | zero => exact .exhausted fun r low high => by omega
  | succ left ih =>
    have rest := ih (p + 1)
    rw [stateAt, mul_succ] at rest
    rw [scan]
    cases kind : entryKind dirBuf (32 * p) with
    | terminator => exact .terminated le_rfl (by omega) kind fun r low high => by omega
    | deleted =>
      rw [kind] at rest
      refine .cons ⟨by rw [kind]; decide, fun taken => ?_⟩ rest
      exact absurd (kind.symm.trans taken.1) (by decide)
    | longName =>
      rw [kind] at rest
      refine .cons ⟨by rw [kind]; decide, fun taken => ?_⟩ rest
      exact absurd (kind.symm.trans taken.1) (by decide)
    | short =>
      rw [kind] at rest
      split_ifs with taken
      · exact .found le_rfl (by omega) ⟨kind, taken⟩ fun r low high => by omega
      · exact .cons ⟨by rw [kind]; decide, fun takes => taken takes.2⟩ rest

theorem scan_start (left : Nat) : parser.Scanned dirBuf 0 left (parser.scan dirBuf left 0 parser.start) :=
  parser.scan_spec dirBuf left 0

variable {parser dirBuf}

theorem scan_eq_found {q : Nat} (inside : q < left) (taken : parser.Takes dirBuf q)
    (before : ∀ r < q, parser.Passes dirBuf r) :
    parser.scan dirBuf left 0 parser.start = .found (32 * q, parser.stateAt dirBuf q) := by
  have stays : ¬ parser.Passes dirBuf q := fun passes => passes.2 taken
  have spec := parser.scan_start dirBuf left
  generalize parser.scan dirBuf left 0 parser.start = result at spec ⊢
  cases spec with
  | @found q' low high taken' before' =>
    have same : q' = q := by
      rcases lt_trichotomy q' q with less | same | more
      · exact absurd taken' (before q' less).2
      · exact same
      · exact absurd (before' q (zero_le q) more) stays
    rw [same]
  | @terminated q' low high zero before' =>
    rcases lt_trichotomy q' q with less | same | more
    · exact absurd zero (before q' less).1
    · rw [same] at zero
      exact absurd (zero.symm.trans taken.1) (by decide)
    · exact absurd (before' q (zero_le q) more) stays
  | exhausted all => exact absurd (all q (zero_le q) (by omega)) stays

theorem scan_eq_exhausted_iff (left : Nat) :
    parser.scan dirBuf left 0 parser.start = .exhausted ↔ ∀ r < left, parser.Passes dirBuf r := by
  have spec := parser.scan_start dirBuf left
  generalize parser.scan dirBuf left 0 parser.start = result at spec ⊢
  cases spec with
  | @found q low high taken before => exact iff_of_false nofun fun all => (all q (by omega)).2 taken
  | @terminated q low high zero before => exact iff_of_false nofun fun all => (all q (by omega)).1 zero
  | exhausted all => exact iff_of_true rfl fun r less => all r (zero_le r) (by omega)

theorem scan_eq_found_iff (left : Nat) {result : Nat × σ} :
    parser.scan dirBuf left 0 parser.start = .found result ↔
      ∃ q < left, result = (32 * q, parser.stateAt dirBuf q) ∧ parser.Takes dirBuf q ∧
        ∀ r < q, parser.Passes dirBuf r := by
  constructor
  · intro found
    have spec := parser.scan_start dirBuf left
    rw [found] at spec
    cases spec with
    | @found q low high taken before =>
      exact ⟨q, by omega, rfl, taken, fun r less => before r (zero_le r) less⟩
  · rintro ⟨q, inside, rfl, taken, before⟩
    exact scan_eq_found inside taken before

theorem exists_terminator_of_scan (ended : parser.scan dirBuf left 0 parser.start = .terminated) :
    ∃ q < left, entryKind dirBuf (32 * q) = .terminator ∧ ∀ r < q, parser.Passes dirBuf r := by
  have spec := parser.scan_start dirBuf left
  rw [ended] at spec
  cases spec with
  | @terminated q low high zero before => exact ⟨q, by omega, zero, fun r less => before r (zero_le r) less⟩

end Parser

/-! ### The two parsers -/

/-- The loop over the entries in `fat32_lookup`. -/
def lookupParser (dirBuf : Bytes) (path : List UInt8) : Parser Lfn where
  start := Lfn.empty
  after kind ptr lfn :=
    match kind with
    | .terminator => lfn
    | .deleted => lfn
    | .longName => lfn.readEntry dirBuf ptr
    | .short => if lfn.active then Lfn.empty else lfn
  takes lfn ptr := decide (matchesPath lfn dirBuf ptr path)

theorem lookupParser_takes {lfn : Lfn} :
    (lookupParser dirBuf path).takes lfn ptr ↔ matchesPath lfn dirBuf ptr path := decide_eq_true_iff

theorem lookupEntries_eq (dirBuf : Bytes) (path : List UInt8) (left ptr : Nat) (lfn : Lfn) :
    lookupEntries dirBuf path left ptr lfn =
      ((lookupParser dirBuf path).scan dirBuf left ptr lfn).map Prod.fst := by
  induction left generalizing ptr lfn with
  | zero => rfl
  | succ left ih =>
    rw [lookupEntries, Parser.scan]
    cases entryKind dirBuf ptr with
    | terminator => rfl
    | deleted => exact ih _ _
    | longName => exact ih _ _
    | short =>
      dsimp only
      by_cases found : matchesPath lfn dirBuf ptr path
      · rw [if_pos found, if_pos (lookupParser_takes.mpr found)]
        rfl
      · rw [if_neg found, if_neg fun taken => found (lookupParser_takes.mp taken), ih]
        rfl

/-- The loop over the entries in `fat32_unlink`, with `lfn_start_offset`. -/
def unlinkParser (dirBuf : Bytes) (path : List UInt8) : Parser (Lfn × Option Nat) where
  start := (Lfn.empty, none)
  after kind ptr state :=
    match kind with
    | .terminator => ({ state.1 with active := false }, none)
    | .deleted => ({ state.1 with active := false }, none)
    | .longName => (state.1.readEntry dirBuf ptr, some (state.2.getD ptr))
    | .short => (Lfn.empty, none)
  takes state ptr := decide (matchesPath state.1 dirBuf ptr path)

theorem unlinkParser_takes {state : Lfn × Option Nat} :
    (unlinkParser dirBuf path).takes state ptr ↔ matchesPath state.1 dirBuf ptr path := decide_eq_true_iff

theorem unlinkEntries_eq (dirBuf : Bytes) (path : List UInt8) (left ptr : Nat) (lfn : Lfn) (lfnStart : Option Nat) :
    unlinkEntries dirBuf path left ptr lfn lfnStart =
      ((unlinkParser dirBuf path).scan dirBuf left ptr (lfn, lfnStart)).map fun (ptr, state) =>
        (ptr, state.2.getD ptr) := by
  induction left generalizing ptr lfn lfnStart with
  | zero => rfl
  | succ left ih =>
    rw [unlinkEntries, Parser.scan]
    cases entryKind dirBuf ptr with
    | terminator => rfl
    | deleted => exact ih _ _ _
    | longName => exact ih _ _ _
    | short =>
      dsimp only
      by_cases found : matchesPath lfn dirBuf ptr path
      · rw [if_pos found, if_pos (unlinkParser_takes.mpr found)]
        rfl
      · rw [if_neg found, if_neg fun taken => found (unlinkParser_takes.mp taken), ih]
        rfl

/-! ### The clusters of a directory -/

section Walk

variable (disk : Disk) (info : FatGeometry) {α : Type}

/-- The body of the loop over the clusters; `scanned` is the search in a cluster. -/
def walkBody (scanned : Nat → EntryScan α) (c : Nat) : Option (Nat × α) ⊕ Nat :=
  if c < endOfChain then
    match scanned c with
    | .found result => .inl (some (c, result))
    | .terminated => .inl none
    | .exhausted => .inr (fat32GetNextCluster disk info c)
  else .inl none

def lookupCluster (path : List UInt8) (c : Nat) : EntryScan Nat :=
  lookupEntries (disk.readCluster info c) path info.entriesPerCluster 0 Lfn.empty

theorem lookupCluster_exhausted_iff (path : List UInt8) (c : Nat) :
    lookupCluster disk info path c = .exhausted ↔ ∀ r < info.entriesPerCluster,
      (lookupParser (disk.readCluster info c) path).Passes (disk.readCluster info c) r := by
  rw [lookupCluster, lookupEntries_eq, EntryScan.map_eq_exhausted_iff]
  exact Parser.scan_eq_exhausted_iff _

theorem lookupCluster_found_iff (path : List UInt8) (c ptr : Nat) :
    lookupCluster disk info path c = .found ptr ↔ ∃ q < info.entriesPerCluster, ptr = 32 * q ∧
      (lookupParser (disk.readCluster info c) path).Takes (disk.readCluster info c) q ∧
      ∀ r < q, (lookupParser (disk.readCluster info c) path).Passes (disk.readCluster info c) r := by
  rw [lookupCluster, lookupEntries_eq, EntryScan.map_eq_found_iff]
  constructor
  · rintro ⟨result, found, rfl⟩
    obtain ⟨q, inside, rfl, spec⟩ := (Parser.scan_eq_found_iff _).mp found
    exact ⟨q, inside, rfl, spec⟩
  · rintro ⟨q, inside, rfl, spec⟩
    exact ⟨_, (Parser.scan_eq_found_iff _).mpr ⟨q, inside, rfl, spec⟩, rfl⟩

variable {c : Nat} {result : α}

theorem exists_terminator_of_lookupCluster {path : List UInt8}
    (ended : lookupCluster disk info path c = .terminated) : ∃ q < info.entriesPerCluster,
      entryKind (disk.readCluster info c) (32 * q) = .terminator ∧
      ∀ r < q, (lookupParser (disk.readCluster info c) path).Passes (disk.readCluster info c) r := by
  rw [lookupCluster, lookupEntries_eq, EntryScan.map_eq_terminated_iff] at ended
  exact Parser.exists_terminator_of_scan ended

section

variable (path : List UInt8) (c : Nat)

theorem lookupLoop_eq (fuel c : Nat) :
    lookupLoop disk info path fuel c = runLoop (walkBody disk info (lookupCluster disk info path)) fuel c := by
  induction fuel generalizing c with
  | zero => rfl
  | succ fuel ih =>
    rw [lookupLoop, runLoop, walkBody, ← lookupCluster]
    by_cases more : c < endOfChain
    · rw [if_pos more, if_pos more]
      cases lookupCluster disk info path c with
      | found ptr => rfl
      | terminated => rfl
      | exhausted => exact ih _
    · rw [if_neg more, if_neg more]

def unlinkCluster : EntryScan (Nat × Nat) :=
  unlinkEntries (disk.readCluster info c) path info.entriesPerCluster 0 Lfn.empty none

theorem unlinkCluster_exhausted_iff :
    unlinkCluster disk info path c = .exhausted ↔ ∀ r < info.entriesPerCluster,
      (unlinkParser (disk.readCluster info c) path).Passes (disk.readCluster info c) r := by
  rw [unlinkCluster, unlinkEntries_eq, EntryScan.map_eq_exhausted_iff]
  exact Parser.scan_eq_exhausted_iff _

theorem unlinkCluster_found_iff (ptr start : Nat) :
    unlinkCluster disk info path c = .found (ptr, start) ↔ ∃ q < info.entriesPerCluster, ptr = 32 * q ∧
      start = (((unlinkParser (disk.readCluster info c) path).stateAt (disk.readCluster info c) q).2).getD (32 * q) ∧
      (unlinkParser (disk.readCluster info c) path).Takes (disk.readCluster info c) q ∧
      ∀ r < q, (unlinkParser (disk.readCluster info c) path).Passes (disk.readCluster info c) r := by
  rw [unlinkCluster, unlinkEntries_eq, EntryScan.map_eq_found_iff]
  constructor
  · rintro ⟨result, found, same⟩
    obtain ⟨q, inside, rfl, spec⟩ := (Parser.scan_eq_found_iff _).mp found
    obtain ⟨rfl, rfl⟩ := Prod.mk.inj same
    exact ⟨q, inside, rfl, rfl, spec⟩
  · rintro ⟨q, inside, rfl, rfl, spec⟩
    exact ⟨_, (Parser.scan_eq_found_iff _).mpr ⟨q, inside, rfl, spec⟩, rfl⟩

theorem unlinkLoop_eq (fuel c : Nat) :
    unlinkLoop disk info path fuel c = runLoop (walkBody disk info (unlinkCluster disk info path)) fuel c := by
  induction fuel generalizing c with
  | zero => rfl
  | succ fuel ih =>
    rw [unlinkLoop, runLoop, walkBody, ← unlinkCluster]
    by_cases more : c < endOfChain
    · rw [if_pos more, if_pos more]
      cases unlinkCluster disk info path c with
      | found place => rfl
      | terminated => rfl
      | exhausted => exact ih _
    · rw [if_neg more, if_neg more]

end

variable {disk info} {scanned : Nat → EntryScan α}

def GoesOver (scanned : Nat → EntryScan α) (c : Nat) : Prop := c < endOfChain ∧ scanned c = .exhausted

theorem walkBody_found (more : c < endOfChain) (found : scanned c = .found result) :
    walkBody disk info scanned c = .inl (some (c, result)) := by
  rw [walkBody, if_pos more, found]

theorem walkBody_goesOver (goes : GoesOver scanned c) :
    walkBody disk info scanned c = .inr (fat32GetNextCluster disk info c) := by
  rw [walkBody, if_pos goes.1, goes.2]

/-- **The search in the directory** finds the entry of the first cluster whose search ends. -/
theorem walk_found_iff {c₀ : Nat} :
    (∃ fuel, runLoop (walkBody disk info scanned) fuel c₀ = some (some (c, result))) ↔
      ∃ n, (fat32GetNextCluster disk info)^[n] c₀ = c ∧ c < endOfChain ∧ scanned c = .found result ∧
        ∀ m < n, GoesOver scanned ((fat32GetNextCluster disk info)^[m] c₀) := by
  constructor
  · rintro ⟨fuel, run⟩
    induction fuel generalizing c₀ with
    | zero => cases run
    | succ fuel ih =>
      rw [runLoop, walkBody] at run
      by_cases more : c₀ < endOfChain
      · rw [if_pos more] at run
        cases here : scanned c₀ with
        | found result' =>
          rw [here] at run
          obtain ⟨rfl, rfl⟩ := Prod.mk.inj (Option.some.inj (Option.some.inj run))
          exact ⟨0, rfl, more, here, fun m less => absurd less (not_lt_zero m)⟩
        | terminated =>
          rw [here] at run
          cases run
        | exhausted =>
          rw [here] at run
          obtain ⟨n, place, inside, found, before⟩ := ih run
          refine ⟨n + 1, place, inside, found, fun m less => ?_⟩
          cases m with
          | zero => exact ⟨more, here⟩
          | succ m => exact before m (lt_of_succ_lt_succ less)
      · rw [if_neg more] at run
        cases run
  · rintro ⟨n, place, inside, found, before⟩
    induction n generalizing c₀ with
    | zero =>
      obtain rfl : c₀ = c := place
      exact ⟨1, runLoop_inl (walkBody_found inside found) 0⟩
    | succ n ih =>
      obtain ⟨fuel, run⟩ := ih place fun m less => before (m + 1) (succ_lt_succ less)
      exact ⟨fuel + 1, (runLoop_inr (walkBody_goesOver (before 0 (succ_pos n))) fuel).trans run⟩

end Walk

end Voxia.Fs
