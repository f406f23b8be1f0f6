/-
**When an ELF file is loaded exactly.**

Every segment is loaded into frames of its own, the mapping of an address is that of the last segment whose run of
pages contains it, and an area is registered for a segment unless an earlier one starts at the same page. So a file is
loaded exactly if its segments do not get in each other's way (`Separate`). Two segments that share a page are the
counterexample.
-/

import Voxia.Exec.Elf

namespace Voxia.Exec

open Lib Cpu Memory Voxia.Tree Nat Bytes List

namespace Seg

section

variable (base : Nat) (s : Seg)

def start : Nat := base + s.phdr.alignedVaddr

def bytes : Nat := s.phdr.sz * 4096

def flags : Nat := elfPflagsToPageFlags s.phdr.pFlags

def Covers (w : Nat) : Prop := s.start base ≤ w ∧ w < s.start base + s.bytes

def Owns (x : Nat) : Prop := s.frame ≤ x ∧ x < s.frame + s.bytes

/-- The address, less the base, is one of the segment. -/
def Has (a : Nat) : Prop := s.phdr.pVaddr ≤ a ∧ a < s.phdr.pVaddr + s.phdr.pMemsz

def content (data : Bytes) (s : Seg) (j : Nat) : UInt8 := if j < s.phdr.pFilesz then data (s.phdr.pOffset + j) else 0

def area : VirtualMemory := newArea s.frame (s.start base) s.bytes s.flags

end

end Seg

/-- The segments of a valid file for this address space, with frames of their own: the addresses are
those of the user half, the segments are disjoint, and the file does not have more of a segment than
there is in memory. -/
structure Loadable (nil base : Nat) (l : List Seg) : Prop where
  baseAligned : base % 4096 = 0
  inUser : ∀ s ∈ l, base + s.phdr.pVaddr + s.phdr.pMemsz ≤ 2 ^ 47
  filesz : ∀ s ∈ l, s.phdr.pFilesz ≤ s.phdr.pMemsz
  disjoint : l.Pairwise fun s t => ∀ a, s.Has a → ¬ t.Has a
  frames : ∀ s ∈ l, 0 < s.phdr.sz → s.frame ≠ 0 ∧ s.frame % 4096 = 0 ∧ s.frame + s.bytes ≤ 2 ^ 52
  framesApart : l.Pairwise fun s t => ∀ x, s.Owns x → ¬ t.Owns x
  nodes : (l.map Seg.node).Nodup ∧ nil ∉ l.map Seg.node

/-- What of this the contents of memory depend on: the base is page-aligned, `p_filesz` is at most `p_memsz`, and the
frames of the segments are their own. -/
structure Placed (base : Nat) (l : List Seg) : Prop where
  baseAligned : base % 4096 = 0
  inUser : ∀ s ∈ l, base + s.phdr.pVaddr + s.phdr.pMemsz ≤ 2 ^ 47
  filesz : ∀ s ∈ l, s.phdr.pFilesz ≤ s.phdr.pMemsz
  frames : ∀ s ∈ l, 0 < s.phdr.sz → s.frame ≠ 0 ∧ s.frame % 4096 = 0 ∧ s.frame + s.bytes ≤ 2 ^ 52
  framesApart : l.Pairwise fun s t => ∀ x, s.Owns x → ¬ t.Owns x

variable {nil base pFlags : Nat} {α : Type}

theorem Loadable.placed {l : List Seg} (valid : Loadable nil base l) : Placed base l :=
  { valid with }

/-! ### One segment -/

theorem Phdr.geometry {p : Phdr} (low : p.pVaddr + p.pMemsz ≤ 2 ^ 47) :
    p.alignedVaddr = p.pVaddr / 4096 * 4096 ∧ p.vaddrOffset = p.pVaddr % 4096 ∧
      p.sz = (p.pVaddr % 4096 + p.pMemsz + 4095) / 4096 := by
  have aligned : p.alignedVaddr = p.pVaddr / 4096 * 4096 := alignDown_blockSize (by omega)
  have offset : p.vaddrOffset = p.pVaddr % 4096 := by
    rw [Phdr.vaddrOffset, aligned]
    omega
  refine ⟨aligned, offset, ?_⟩
  rw [Phdr.sz, offset, blockSize, u64_of_lt (by omega)]
  rfl

theorem clean_elfFlags (pFlags : Nat) : Clean (elfPflagsToPageFlags pFlags) := by
  unfold elfPflagsToPageFlags
  split <;> split <;> split <;> exact ⟨by decide, by decide⟩

theorem user_elfFlags (pFlags : Nat) : user (elfPflagsToPageFlags pFlags) := by
  unfold elfPflagsToPageFlags
  split <;> split <;> split <;> decide

theorem present_elfFlags (pFlags : Nat) :
    present (elfPflagsToPageFlags pFlags) ↔ pFlags &&& pfR ≠ 0 ∨ pFlags &&& pfW ≠ 0 ∨ pFlags &&& pfX ≠ 0 := by
  unfold elfPflagsToPageFlags
  split <;> split <;> split <;> simp_all <;> decide

theorem writable_elfFlags (writes : pFlags &&& pfW ≠ 0) : writable (elfPflagsToPageFlags pFlags) := by
  unfold elfPflagsToPageFlags
  split <;> split <;> decide

theorem noExecute_elfFlags (executes : pFlags &&& pfX ≠ 0) : noExecute (elfPflagsToPageFlags pFlags) = false := by
  unfold elfPflagsToPageFlags
  split <;> split <;> decide

namespace Placed

variable {base : Nat} {l : List Seg} {s : Seg} {data : Bytes}

theorem geometry (valid : Placed base l) (inside : s ∈ l) :
    s.phdr.alignedVaddr = s.phdr.pVaddr / 4096 * 4096 ∧ s.phdr.vaddrOffset = s.phdr.pVaddr % 4096 ∧
      s.bytes = (s.phdr.pVaddr % 4096 + s.phdr.pMemsz + 4095) / 4096 * 4096 ∧ s.start base % 4096 = 0 ∧
      s.start base + s.bytes ≤ 2 ^ 47 := by
  have bound := valid.inUser s inside
  have aligned := valid.baseAligned
  obtain ⟨rounded, offset, pages⟩ := Phdr.geometry (p := s.phdr) (by omega)
  unfold Seg.start Seg.bytes
  omega

theorem covers_of_has (valid : Placed base l) (inside : s ∈ l) {a : Nat} (has : s.Has a) :
    s.Covers base (base + a) := by
  obtain ⟨rounded, -, length, -, -⟩ := valid.geometry inside
  obtain ⟨low, high⟩ := has
  unfold Seg.Covers Seg.start
  omega

/-- **A segment is mapped**: its run of pages leads to its frames, and nothing else changes. -/
theorem page_loadSegment (data : Bytes) (valid : Placed base l) (inside : s ∈ l) {st : LoadState} (wf : Wf 3 st.page) :
    Wf 3 (loadSegment data base s.phdr s.frame st).page ∧
      ∀ w < 2 ^ 47, (s.Covers base w →
        pte 3 (loadSegment data base s.phdr s.frame st).page w = rangeEntry (s.start base) s.frame s.flags w) ∧
        (¬ s.Covers base w → pte 3 (loadSegment data base s.phdr s.frame st).page w = pte 3 st.page w) := by
  obtain ⟨-, -, -, aligned, below⟩ := valid.geometry inside
  have word : u64 (base + s.phdr.alignedVaddr) = s.start base :=
    u64_of_lt (lt_of_le_of_lt (le_trans (Nat.le_add_right _ s.bytes) below) (by decide))
  have mapped : (loadSegment data base s.phdr s.frame st).page =
      pagingMultipleMmap st.page (s.start base) s.frame s.phdr.sz s.flags := by
    rw [← word]
    rfl
  rw [mapped]
  by_cases empty : s.phdr.sz = 0
  · have nothing : pagingMultipleMmap st.page (s.start base) s.frame s.phdr.sz s.flags = st.page := by
      rw [empty, pagingMultipleMmap, mmapRangeLoop]
    rw [nothing]
    refine ⟨wf, fun w _ => ⟨fun covered => ?_, fun _ => rfl⟩⟩
    unfold Seg.Covers Seg.bytes at covered
    omega
  · obtain ⟨nonzero, frameAligned, frameBelow⟩ := valid.frames s inside (by omega)
    have clean : Clean s.flags := clean_elfFlags _
    obtain ⟨wf', entries⟩ := pagingMultipleMmap_spec wf clean aligned below (.inr ⟨nonzero, frameAligned, frameBelow⟩)
    refine ⟨wf', fun w low => ?_⟩
    rw [entries w low]
    exact ⟨fun covered => if_pos covered, fun outside => if_neg outside⟩

/-- **The frames of a segment are filled**: with its bytes, at its offset in the page. -/
theorem phys_loadSegment (valid : Placed base l) (inside : s ∈ l) (st : LoadState) (x : Nat) :
    (loadSegment data base s.phdr s.frame st).phys x =
      if s.frame + s.phdr.vaddrOffset ≤ x ∧ x < s.frame + s.phdr.vaddrOffset + s.phdr.pMemsz then
        s.content data (x - (s.frame + s.phdr.vaddrOffset))
      else st.phys x := by
  have sizes := valid.filesz s inside
  unfold loadSegment Seg.content
  dsimp only
  by_cases file : s.phdr.pFilesz > 0
  · rw [if_pos file]
    unfold copy
    by_cases first : s.frame + s.phdr.vaddrOffset ≤ x ∧ x < s.frame + s.phdr.vaddrOffset + s.phdr.pFilesz
    · rw [if_pos first, if_pos (by omega), if_pos (by omega), window_apply]
    · rw [if_neg first]
      by_cases second : s.frame + s.phdr.vaddrOffset ≤ x ∧ x < s.frame + s.phdr.vaddrOffset + s.phdr.pMemsz
      · rw [if_pos second, if_pos second, if_neg (by omega)]
      · rw [if_neg second, if_neg second]
  · rw [if_neg file]
    unfold copy
    by_cases second : s.frame + s.phdr.vaddrOffset ≤ x ∧ x < s.frame + s.phdr.vaddrOffset + s.phdr.pMemsz
    · rw [if_pos second, if_pos second, if_neg (by omega)]
    · rw [if_neg second, if_neg second]

theorem phys_loadSegment_outside (valid : Placed base l) (inside : s ∈ l) (st : LoadState) {x : Nat}
    (outside : ¬ s.Owns x) : (loadSegment data base s.phdr s.frame st).phys x = st.phys x := by
  obtain ⟨-, offset, length, -, -⟩ := valid.geometry inside
  rw [valid.phys_loadSegment inside, if_neg]
  intro written
  refine outside ⟨by omega, ?_⟩
  omega

end Placed

/-! ### All segments -/

theorem loadAll_append (data : Bytes) (base : Nat) (l l' : List Seg) (st : LoadState) :
    loadAll data base (l ++ l') st = loadAll data base l' (loadAll data base l st) := foldl_append

namespace Placed

variable {base : Nat} {all l pre post : List Seg} {s : Seg} {data : Bytes}

variable {st : LoadState}

theorem loadAll_outside (data : Bytes) (valid : Placed base all) (part : ∀ s ∈ l, s ∈ all) (wf : Wf 3 st.page) :
    Wf 3 (loadAll data base l st).page ∧
      (∀ w < 2 ^ 47, (∀ s ∈ l, ¬ s.Covers base w) → pte 3 (loadAll data base l st).page w = pte 3 st.page w) ∧
      ∀ x, (∀ s ∈ l, ¬ s.Owns x) → (loadAll data base l st).phys x = st.phys x := by
  induction l generalizing st with
  | nil => exact ⟨wf, fun w _ _ => rfl, fun x _ => rfl⟩
  | cons s l ih =>
    have isSeg := part s mem_cons_self
    obtain ⟨wf', mapped⟩ := valid.page_loadSegment data isSeg wf
    obtain ⟨wfAll, keeps, same⟩ := ih (fun t inside => part t (mem_cons_of_mem _ inside)) wf'
    refine ⟨wfAll, fun w low outside => ?_, fun x outside => ?_⟩
    · exact (keeps w low fun t inside => outside t (mem_cons_of_mem _ inside)).trans
        ((mapped w low).2 (outside s mem_cons_self))
    · exact (same x fun t inside => outside t (mem_cons_of_mem _ inside)).trans
        (valid.phys_loadSegment_outside isSeg st (outside s mem_cons_self))

/-- **The last segment whose pages contain an address maps it.** -/
theorem pte_loadAll_last (valid : Placed base (pre ++ s :: post)) (wf : Wf 3 st.page) {w : Nat} (low : w < 2 ^ 47)
    (covers : s.Covers base w) (last : ∀ t ∈ post, ¬ t.Covers base w) :
    pte 3 (loadAll data base (pre ++ s :: post) st).page w = rangeEntry (s.start base) s.frame s.flags w := by
  obtain ⟨wfPre, -, -⟩ := valid.loadAll_outside data (l := pre) (fun t inside => mem_append_left _ inside) wf
  obtain ⟨wfSeg, mapped⟩ := valid.page_loadSegment data (s := s) mem_append_cons_self wfPre
  obtain ⟨-, keeps, -⟩ := valid.loadAll_outside data (l := post)
    (fun t inside => mem_append_right pre (mem_cons_of_mem s inside)) wfSeg
  rw [loadAll_append]
  exact (keeps w low last).trans ((mapped w low).1 covers)

/-- **The frames of a segment** hold its bytes, and around them what they held before. -/
theorem phys_loadAll_own (valid : Placed base (pre ++ s :: post)) (wf : Wf 3 st.page) {x : Nat} (owns : s.Owns x) :
    (loadAll data base (pre ++ s :: post) st).phys x =
      if s.frame + s.phdr.vaddrOffset ≤ x ∧ x < s.frame + s.phdr.vaddrOffset + s.phdr.pMemsz then
        s.content data (x - (s.frame + s.phdr.vaddrOffset))
      else st.phys x := by
  obtain ⟨-, apart, across⟩ := pairwise_append.mp valid.framesApart
  obtain ⟨before, -⟩ := pairwise_cons.mp apart
  obtain ⟨wfPre, -, same⟩ := valid.loadAll_outside data (l := pre) (fun t inside => mem_append_left _ inside) wf
  have isSeg : s ∈ pre ++ s :: post := mem_append_cons_self
  obtain ⟨wfSeg, -⟩ := valid.page_loadSegment data isSeg wfPre
  obtain ⟨-, -, later⟩ := valid.loadAll_outside data (l := post)
    (fun t inside => mem_append_right pre (mem_cons_of_mem s inside)) wfSeg
  rw [loadAll_append]
  refine (later x fun t inside owned => before t inside x owns owned).trans ?_
  rw [valid.phys_loadSegment isSeg, same x fun t inside owned => across t inside s mem_cons_self x owned owns]

end Placed

/-! ### The areas -/

/-- **Registering the areas**: each segment gets its own, unless its page is the start of an area already. -/
theorem registerAll_spec {fuel : Nat} (l : List Seg) : ∀ {vmPage : VirtualMemoryPage} {t : CellTree VirtualMemory},
    VmaHolds nil vmPage.tree t → t.toList.length + l.length ≤ fuel →
    (∀ s ∈ l, s.node ∉ ptrs t) → (l.map Seg.node).Nodup → nil ∉ l.map Seg.node →
    (∀ s ∈ l, u64 (base + s.phdr.alignedVaddr) = s.start base ∧ u64 (s.phdr.sz * 4096) = s.bytes) →
    ∃ vmPage' t', registerAll nil fuel base l vmPage = some vmPage' ∧ VmaHolds nil vmPage'.tree t' ∧
      ∀ x, x ∈ t'.toList ↔ x ∈ t.toList ∨ ∃ pre s post, l = pre ++ s :: post ∧ x = ⟨s.node, s.area base⟩ ∧
        s.start base ∉ starts t ∧ ∀ u ∈ pre, u.start base ≠ s.start base := by
  induction l with
  | nil =>
    intro vmPage t holds _ _ _ _ _
    refine ⟨vmPage, t, rfl, holds, fun x => ⟨.inl, ?_⟩⟩
    rintro (old | ⟨pre, s, post, split, -⟩)
    · exact old
    · simp at split
  | cons s l ih =>
    intro vmPage t holds enough unused distinct notNil words
    rw [map_cons, nodup_cons] at distinct
    rw [map_cons, mem_cons, not_or] at notNil
    rw [length_cons] at enough
    obtain ⟨startWord, sizeWord⟩ := words s mem_cons_self
    obtain ⟨tree, t', result, holds', new, -⟩ := holds.register s.frame (s.start base) s.bytes s.flags
      (unused s mem_cons_self) (Ne.symm notNil.1) (show t.toList.length < fuel by omega)
    have step : registerAll nil fuel base (s :: l) vmPage =
        registerAll nil fuel base l { vmPage with tree := tree } := by
      rw [registerAll, startWord, sizeWord]
      unfold Sys.registerArea
      rw [← Seg.flags, result]
      rfl
    have grown : ∀ x, x ∈ t'.toList ↔ (x = ⟨s.node, s.area base⟩ ∧ s.start base ∉ starts t) ∨ x ∈ t.toList := by
      intro x
      rw [new.mem_iff]
      split_ifs with taken
      · simp [taken]
      · simp [taken, Seg.area]
    have startsOf : ∀ a, a ∈ starts t' ↔ a = s.start base ∨ a ∈ starts t := by
      intro a
      refine (new.map fun x => x.data.startAddress).mem_iff.trans ?_
      split_ifs with taken
      · exact (or_iff_right_of_imp fun same => same ▸ taken).symm
      · exact mem_cons
    have length : t'.toList.length ≤ t.toList.length + 1 := by
      rw [new.length_eq]
      split_ifs
      · exact le_succ _
      · exact le_rfl
    have fresh : ∀ u ∈ l, u.node ∉ ptrs t' := by
      intro u inside used
      obtain ⟨x, member, same⟩ := mem_map.mp used
      rcases (grown x).mp member with ⟨rfl, -⟩ | old
      · exact distinct.1 (mem_map.mpr ⟨u, inside, same.symm⟩)
      · exact unused u (mem_cons_of_mem s inside) (mem_map.mpr ⟨x, old, same⟩)
    have holdsNew : VmaHolds nil ({ vmPage with tree := tree } : VirtualMemoryPage).tree t' := holds'
    obtain ⟨vmPage', tAll, done, holdsAll, members⟩ := ih holdsNew (by omega) fresh distinct.2 notNil.2
      fun u inside => words u (mem_cons_of_mem s inside)
    refine ⟨vmPage', tAll, step.trans done, holdsAll, fun x => ?_⟩
    rw [members x, grown x]
    simp only [startsOf, not_or]
    constructor
    · rintro ((⟨rfl, absent⟩ | old) | ⟨pre, u, post, rfl, same, new, first⟩)
      · exact .inr ⟨[], s, l, rfl, rfl, absent, by simp⟩
      · exact .inl old
      · exact .inr ⟨s :: pre, u, post, rfl, same, new.2, forall_mem_cons.mpr ⟨Ne.symm new.1, first⟩⟩
    · rintro (old | ⟨pre, u, post, split, same, new, first⟩)
      · exact .inl (.inr old)
      cases pre with
      | nil =>
        obtain ⟨rfl, rfl⟩ := cons.inj split
        exact .inl (.inl ⟨same, new⟩)
      | cons v pre =>
        obtain ⟨rfl, rfl⟩ := cons.inj split
        obtain ⟨other, first⟩ := forall_mem_cons.mp first
        exact .inr ⟨pre, u, post, rfl, same, ⟨Ne.symm other, new⟩, first⟩

/-! ### Exact loading -/

/-- Byte `j` of a segment is where the file wants it: its page is accessible with the permissions of the
segment, holds the byte, and is part of an area that records the same frame. -/
structure LoadedAt (data : Bytes) (base : Nat) (st : LoadState) (t : CellTree VirtualMemory) (s : Seg) (j : Nat) :
    Prop where
  isPresent : present (pte 3 st.page (base + s.phdr.pVaddr + j))
  isUser : user (pte 3 st.page (base + s.phdr.pVaddr + j))
  isWritable : s.phdr.pFlags &&& pfW ≠ 0 → writable (pte 3 st.page (base + s.phdr.pVaddr + j))
  isExecutable : s.phdr.pFlags &&& pfX ≠ 0 → noExecute (pte 3 st.page (base + s.phdr.pVaddr + j)) = false
  byte : st.phys (physOf (pte 3 st.page (base + s.phdr.pVaddr + j)) + (base + s.phdr.pVaddr + j) % 4096) =
    s.content data j
  area : ∃ x ∈ t.toList, x.data.Contains (base + s.phdr.pVaddr + j) ∧
    x.data.physAddress + (base + s.phdr.pVaddr + j - x.data.startAddress) =
      physOf (pte 3 st.page (base + s.phdr.pVaddr + j)) + (base + s.phdr.pVaddr + j) % 4096

/-- The file is loaded exactly, whatever the frames held before. -/
def LoadExact (nil fuel : Nat) (data : Bytes) (base : Nat) (frames nodes : Nat → Nat) (dir : PageDir)
    (vmPage : VirtualMemoryPage) : Prop :=
  ∀ phys : Bytes, ∃ vmPage' t,
    registerElfVmas nil fuel base nodes 0 (elfLoad data base frames ⟨phys, dir⟩).2.1 vmPage = some vmPage' ∧
    VmaHolds nil vmPage'.tree t ∧
    ∀ s ∈ segs data frames nodes, ∀ j < s.phdr.pMemsz,
      LoadedAt data base (elfLoad data base frames ⟨phys, dir⟩).1 t s j

/-- Each segment with bytes has some permission, no page in common with a later segment, and no earlier
segment at its first page. -/
def Separate (base : Nat) (l : List Seg) : Prop :=
  ∀ pre s post, l = pre ++ s :: post → 0 < s.phdr.pMemsz →
    (s.phdr.pFlags &&& pfR ≠ 0 ∨ s.phdr.pFlags &&& pfW ≠ 0 ∨ s.phdr.pFlags &&& pfX ≠ 0) ∧
    (∀ t ∈ post, ∀ w, s.Covers base w → ¬ t.Covers base w) ∧
    ∀ t ∈ pre, t.start base ≠ s.start base

namespace Placed

variable {base : Nat} {l pre post : List Seg} {s : Seg} {data : Bytes}

variable {w : Nat}

theorem physOf_rangeEntry (valid : Placed base l) (inside : s ∈ l) (covers : s.Covers base w)
    (isPresent : present s.flags) :
    physOf (rangeEntry (s.start base) s.frame s.flags w) + w % 4096 = s.frame + (w - s.start base) := by
  obtain ⟨-, -, length, aligned, -⟩ := valid.geometry inside
  obtain ⟨low, high⟩ := covers
  have pages : 0 < s.phdr.sz := by
    unfold Seg.bytes at high
    omega
  obtain ⟨-, frameAligned, frameBelow⟩ := valid.frames s inside pages
  exact (rangeEntry_frame (by omega) frameAligned isPresent low (by omega)).2

/-- An address of the page run that is an address of the segment, in the page of any given one. -/
theorem exists_byte (valid : Placed base l) (inside : s ∈ l) (some' : 0 < s.phdr.pMemsz)
    (covers : s.Covers base w) : ∃ j < s.phdr.pMemsz, (base + s.phdr.pVaddr + j) / 4096 = w / 4096 := by
  obtain ⟨rounded, -, length, -, -⟩ := valid.geometry inside
  have aligned := valid.baseAligned
  unfold Seg.Covers Seg.start at covers
  by_cases before : w < base + s.phdr.pVaddr
  · exact ⟨0, some', by omega⟩
  · by_cases within : w < base + s.phdr.pVaddr + s.phdr.pMemsz
    · exact ⟨w - (base + s.phdr.pVaddr), by omega, by congr 1; omega⟩
    · exact ⟨s.phdr.pMemsz - 1, by omega, by omega⟩

theorem covers_congr (valid : Placed base l) (inside : s ∈ l) {w' : Nat} (same : w' / 4096 = w / 4096)
    (covers : s.Covers base w) : s.Covers base w' := by
  obtain ⟨-, -, length, aligned, -⟩ := valid.geometry inside
  unfold Seg.Covers at covers ⊢
  omega

end Placed

theorem exists_last {p : α → Prop} (l : List α) :
    (∃ a ∈ l, p a) → ∃ pre a post, l = pre ++ a :: post ∧ p a ∧ ∀ b ∈ post, ¬ p b := by
  induction l with
  | nil => rintro ⟨a, inside, -⟩; cases inside
  | cons b l ih =>
    rintro ⟨a, inside, holds⟩
    by_cases later : ∃ a ∈ l, p a
    · obtain ⟨pre, c, post, rfl, found, rest⟩ := ih later
      exact ⟨b :: pre, c, post, rfl, found, rest⟩
    · rcases mem_cons.mp inside with rfl | further
      · exact ⟨[], a, l, rfl, holds, fun c inLater holds' => later ⟨c, inLater, holds'⟩⟩
      · exact absurd ⟨a, further, holds⟩ later

theorem place_cases {pre post pre' post' : List α} {a b : α} (same : pre ++ a :: post = pre' ++ b :: post') :
    pre = pre' ∧ a = b ∨ b ∈ pre ∨ b ∈ post := by
  rcases append_eq_append_iff.mp same with ⟨mid, rfl, rest⟩ | ⟨mid, rfl, rest⟩
  · cases mid with
    | nil =>
      obtain ⟨rfl, -⟩ := cons.inj rest
      exact .inl ⟨(append_nil pre).symm, rfl⟩
    | cons c mid =>
      obtain ⟨-, rfl⟩ := cons.inj rest
      exact .inr (.inr (mem_append_right mid mem_cons_self))
  · cases mid with
    | nil =>
      obtain ⟨rfl, -⟩ := cons.inj rest
      exact .inl ⟨append_nil pre', rfl⟩
    | cons c mid =>
      obtain ⟨rfl, -⟩ := cons.inj rest
      exact .inr (.inl (mem_append_right pre' mem_cons_self))

theorem byte_succ_ne (c : UInt8) : c + 1 ≠ c := by
  intro same
  have values := congrArg UInt8.toNat same
  rw [UInt8.toNat_add] at values
  have one : (1 : UInt8).toNat = 1 := rfl
  omega

section Exact

variable {nil fuel base : Nat} {data : Bytes} {frames nodes : Nat → Nat} {dir : PageDir} {vmPage : VirtualMemoryPage}

theorem registered (dir : PageDir) (valid : Loadable nil base (segs data frames nodes)) (fresh : VmaHolds nil vmPage.tree .leaf)
    (enough : (segs data frames nodes).length ≤ fuel) (phys : Bytes) :
    ∃ vmPage' t,
      registerElfVmas nil fuel base nodes 0 (elfLoad data base frames ⟨phys, dir⟩).2.1 vmPage = some vmPage' ∧
      VmaHolds nil vmPage'.tree t ∧
      ∀ x, x ∈ t.toList ↔ ∃ pre s post, segs data frames nodes = pre ++ s :: post ∧ x = ⟨s.node, s.area base⟩ ∧
        ∀ u ∈ pre, u.start base ≠ s.start base := by
  have words : ∀ s ∈ segs data frames nodes,
      u64 (base + s.phdr.alignedVaddr) = s.start base ∧ u64 (s.phdr.sz * 4096) = s.bytes := by
    intro s inside
    obtain ⟨-, -, -, -, below⟩ := valid.placed.geometry inside
    exact ⟨u64_of_lt (lt_of_le_of_lt (le_trans (Nat.le_add_right _ s.bytes) below) (by decide)),
      u64_of_lt (lt_of_le_of_lt (le_trans (le_add_left s.bytes _) below) (by decide))⟩
  have length : (Lib.Tree.leaf : CellTree VirtualMemory).toList.length + (segs data frames nodes).length ≤ fuel := by
    simpa [Lib.Tree.toList] using enough
  obtain ⟨vmPage', t, done, holds, members⟩ := registerAll_spec (segs data frames nodes) fresh length
    (by simp [ptrs, Lib.Tree.toList]) valid.nodes.1 valid.nodes.2 words
  refine ⟨vmPage', t, by rw [registerElfVmas_elfLoad, done], holds, fun x => ?_⟩
  rw [members x]
  simp [starts, Voxia.Tree.keys, Lib.Tree.toList]

theorem pte_elfLoad (valid : Loadable nil base (segs data frames nodes)) (wf : Wf 3 dir) {pre post : List Seg} {s : Seg}
    (split : segs data frames nodes = pre ++ s :: post) {w : Nat} (covers : s.Covers base w)
    (last : ∀ t ∈ post, ¬ t.Covers base w) (phys : Bytes) :
    pte 3 (elfLoad data base frames ⟨phys, dir⟩).1.page w = rangeEntry (s.start base) s.frame s.flags w := by
  have placed := valid.placed
  rw [split] at placed
  obtain ⟨-, -, -, -, below⟩ := placed.geometry mem_append_cons_self
  rw [elfLoad_state data base frames nodes, split]
  exact placed.pte_loadAll_last wf (lt_of_lt_of_le covers.2 below) covers last

theorem present_of_rangeEntry {start frame flags w : Nat} (visible : present (rangeEntry start frame flags w)) :
    present flags := by
  by_contra absent
  rw [rangeEntry, if_neg absent] at visible
  exact absurd visible (by decide)

/-- Segments on pages of their own are loaded exactly. -/
theorem loadExact_of_separate (valid : Loadable nil base (segs data frames nodes)) (wf : Wf 3 dir)
    (fresh : VmaHolds nil vmPage.tree .leaf) (enough : (segs data frames nodes).length ≤ fuel)
    (separate : Separate base (segs data frames nodes)) : LoadExact nil fuel data base frames nodes dir vmPage := by
  intro phys
  obtain ⟨vmPage', t, done, holds, members⟩ := registered dir valid fresh enough phys
  refine ⟨vmPage', t, done, holds, fun s inside j within => ?_⟩
  obtain ⟨pre, post, split⟩ := append_of_mem inside
  obtain ⟨permitted, later, first⟩ := separate pre s post split (by omega)
  have has : s.Has (s.phdr.pVaddr + j) := ⟨Nat.le_add_right _ _, by omega⟩
  have covers := valid.placed.covers_of_has inside has
  rw [← add_assoc] at covers
  have isPresent : present s.flags := (present_elfFlags _).mpr permitted
  obtain ⟨rounded, offset, length, -, below⟩ := valid.placed.geometry inside
  have entry := pte_elfLoad valid wf split covers (fun u inPost => later u inPost _ covers) phys
  have physical := valid.placed.physOf_rangeEntry inside covers isPresent
  have position : base + s.phdr.pVaddr + j - s.start base = s.phdr.vaddrOffset + j := by
    unfold Seg.start
    omega
  refine ⟨?_, ?_, ?_, ?_, ?_, ?_⟩
  · rw [entry, rangeEntry, if_pos isPresent, present_leafEntry, isPresent]
  · rw [entry, rangeEntry, if_pos isPresent, user_leafEntry]
    exact user_elfFlags _
  · intro writes
    rw [entry, rangeEntry, if_pos isPresent, writable_leafEntry]
    exact writable_elfFlags writes
  · intro executes
    rw [entry, rangeEntry, if_pos isPresent, noExecute, flag_leafEntry _ _ (.inr rfl)]
    exact noExecute_elfFlags executes
  · rw [entry, physical, position, elfLoad_state data base frames nodes, split]
    have owns : s.Owns (s.frame + (s.phdr.vaddrOffset + j)) := by
      refine ⟨Nat.le_add_right _ _, Nat.add_lt_add_left ?_ s.frame⟩
      omega
    rw [split] at valid
    rw [valid.placed.phys_loadAll_own wf owns, if_pos (by omega)]
    congr 1
    omega
  · refine ⟨⟨s.node, s.area base⟩, (members _).mpr ⟨pre, s, post, split, rfl, first⟩, ⟨covers.1, ?_⟩, ?_⟩
    · show _ < u64 (s.start base + s.bytes)
      rw [u64_of_lt (by omega)]
      exact covers.2
    · rw [entry, physical]
      rfl

/-- A byte on a page that a later segment maps too is not the file's for every old contents. -/
theorem LoadExact.later (exact : LoadExact nil fuel data base frames nodes dir vmPage)
    (valid : Loadable nil base (segs data frames nodes)) (wf : Wf 3 dir) {pre post : List Seg} {s : Seg}
    (split : segs data frames nodes = pre ++ s :: post) (some' : 0 < s.phdr.pMemsz) :
    ∀ t ∈ post, ∀ w, s.Covers base w → ¬ t.Covers base w := by
  intro t inPost w covers covers'
  have inside : s ∈ segs data frames nodes := split ▸ mem_append_cons_self
  have later : ∀ u ∈ post, u ∈ segs data frames nodes := by
    intro u member
    rw [split]
    exact mem_append_right pre (mem_cons_of_mem s member)
  obtain ⟨j, within, page⟩ := valid.placed.exists_byte inside some' covers
  -- the mapping is that of the last segment with this page
  obtain ⟨mid, u, rest, rfl, uCovers, last⟩ :=
    exists_last (p := fun u => u.Covers base (base + s.phdr.pVaddr + j)) post ⟨t, inPost, valid.placed.covers_congr (later t inPost) page covers'⟩
  have isSeg := later u mem_append_cons_self
  obtain ⟨rounded, offset, -, -, -⟩ := valid.placed.geometry isSeg
  have split' : segs data frames nodes = (pre ++ s :: mid) ++ u :: rest := by
    rw [split, append_assoc, cons_append]
  obtain ⟨-, t', -, -, loaded⟩ := exact fun _ => s.content data j + 1
  have found := loaded s inside j within
  have entry := pte_elfLoad valid wf split' uCovers last fun _ => s.content data j + 1
  have isPresent : present u.flags := present_of_rangeEntry (entry ▸ found.isPresent)
  have byte := found.byte
  rw [entry, valid.placed.physOf_rangeEntry isSeg uCovers isPresent, elfLoad_state data base frames nodes, split'] at byte
  have owns : u.Owns (u.frame + (base + s.phdr.pVaddr + j - u.start base)) := by
    have inRun := uCovers
    unfold Seg.Covers at inRun
    exact ⟨Nat.le_add_right _ _, by omega⟩
  have notHas : ¬ u.Has (s.phdr.pVaddr + j) := by
    have pairs := valid.disjoint
    rw [split] at pairs
    obtain ⟨-, pairs, -⟩ := pairwise_append.mp pairs
    exact (pairwise_cons.mp pairs).1 u (mem_append_right mid mem_cons_self) _
      ⟨Nat.le_add_right _ _, by omega⟩
  rw [split'] at valid
  rw [valid.placed.phys_loadAll_own wf owns, if_neg] at byte
  · exact byte_succ_ne _ byte
  · intro written
    refine notHas ?_
    have inRun := uCovers
    unfold Seg.Covers Seg.start at inRun
    unfold Seg.start at written
    unfold Seg.Has
    omega

/-- If the image is exact, no two segments share a page. -/
theorem separate_of_loadExact (valid : Loadable nil base (segs data frames nodes)) (wf : Wf 3 dir)
    (fresh : VmaHolds nil vmPage.tree .leaf) (enough : (segs data frames nodes).length ≤ fuel)
    (exact : LoadExact nil fuel data base frames nodes dir vmPage) : Separate base (segs data frames nodes) := by
  intro pre s post split some'
  have later := exact.later valid wf split some'
  have inside : s ∈ segs data frames nodes := split ▸ mem_append_cons_self
  have covers := valid.placed.covers_of_has inside (show s.Has (s.phdr.pVaddr + 0) from ⟨le_refl _, by omega⟩)
  rw [← add_assoc] at covers
  obtain ⟨vmPage', t, done, holds, loaded⟩ := exact fun _ => 0
  obtain ⟨vmPage'', t', done', holds', members⟩ := registered dir valid fresh enough fun _ => 0
  obtain rfl : vmPage' = vmPage'' := Option.some.inj (done.symm.trans done')
  obtain rfl : t = t' := holds.rep.unique holds'.rep
  have found := loaded s inside 0 some'
  have entry := pte_elfLoad valid wf split covers (fun u inPost => later u inPost _ covers) fun _ => 0
  have isPresent : present s.flags := present_of_rangeEntry (entry ▸ found.isPresent)
  refine ⟨(present_elfFlags _).mp isPresent, later, ?_⟩
  -- the area that records the frame can only be the segment's own
  obtain ⟨x, member, contains, frame⟩ := found.area
  obtain ⟨pre', u, post', split', rfl, first⟩ := (members x).mp member
  rw [entry, valid.placed.physOf_rangeEntry inside covers isPresent] at frame
  have isSeg : u ∈ segs data frames nodes := split' ▸ mem_append_cons_self
  obtain ⟨-, -, -, -, below'⟩ := valid.placed.geometry isSeg
  obtain ⟨areaLow, areaHigh⟩ := contains
  have areaLow' : u.start base ≤ base + s.phdr.pVaddr + 0 := areaLow
  have areaHigh' : base + s.phdr.pVaddr + 0 < u.start base + u.bytes := by
    have bound : base + s.phdr.pVaddr + 0 < u64 (u.start base + u.bytes) := areaHigh
    rwa [u64_of_lt (by omega)] at bound
  have frame' : u.frame + (base + s.phdr.pVaddr + 0 - u.start base) =
      s.frame + (base + s.phdr.pVaddr + 0 - s.start base) := frame
  have ownsU : u.Owns (s.frame + (base + s.phdr.pVaddr + 0 - s.start base)) := by
    rw [← frame']
    exact ⟨Nat.le_add_right _ _, by omega⟩
  have ownsS : s.Owns (s.frame + (base + s.phdr.pVaddr + 0 - s.start base)) := by
    unfold Seg.Covers at covers
    exact ⟨Nat.le_add_right _ _, by omega⟩
  have apart := valid.framesApart
  rw [split] at apart
  obtain ⟨-, apart, across⟩ := pairwise_append.mp apart
  rcases place_cases (split.symm.trans split') with ⟨rfl, rfl⟩ | before | after
  · exact first
  · exact absurd ownsS (across u before s mem_cons_self _ ownsU)
  · exact absurd ownsU ((pairwise_cons.mp apart).1 u after _ ownsS)

/-- **Program loading.** For every file with disjoint segments in the user half, the segments are loaded
exactly, whatever the frames held before, if and only if they are separate. -/
theorem elfLoad_exact_iff (valid : Loadable nil base (segs data frames nodes)) (wf : Wf 3 dir)
    (fresh : VmaHolds nil vmPage.tree .leaf) (enough : (segs data frames nodes).length ≤ fuel) :
    LoadExact nil fuel data base frames nodes dir vmPage ↔ Separate base (segs data frames nodes) :=
  ⟨separate_of_loadExact valid wf fresh enough, loadExact_of_separate valid wf fresh enough⟩

end Exact

/-! ### Two segments -/

/-- A file with two segments of 256 bytes: one that can be read and executed at `0x400000`, and one that
can be read and written in the page of `0x400000` or behind it, at an offset of 256 bytes times `page`. -/
def twoSegments (page : UInt8) : Bytes := fun i =>
  if i = 32 then 64 else if i = 54 then 56 else if i = 56 then 2
  else if i = 64 then 1 else if i = 68 then 5 else if i = 82 then 0x40 else if i = 105 then 1
  else if i = 120 then 1 else if i = 124 then 6 else if i = 137 then page else if i = 138 then 0x40
  else if i = 161 then 1 else 0

def sampleFrames (i : Nat) : Nat := 0x10000 * (i + 1)

def sampleNodes (i : Nat) : Nat := i + 2

def sampleSpace : VirtualMemoryPage := ⟨createVmmPage 1 (initSentinel 1 fun _ => ⟨none, 0, 0, 0, .red⟩), fun _ => []⟩

theorem holds_sampleSpace : VmaHolds 1 sampleSpace.tree .leaf := VmaHolds.empty 1 _

def sampleSegs (vaddr : Nat) : List Seg :=
  [⟨⟨1, 5, 0, 0x400000, 0, 0x100⟩, 0x10000, 2⟩, ⟨⟨1, 6, 0, vaddr, 0, 0x100⟩, 0x20000, 3⟩]

theorem segs_onePage : segs (twoSegments 8) sampleFrames sampleNodes = sampleSegs 0x400800 := by decide +kernel

theorem segs_twoPages : segs (twoSegments 0x10) sampleFrames sampleNodes = sampleSegs 0x401000 := by decide +kernel

theorem loadable_sampleSegs {vaddr : Nat} (behind : 0x400100 ≤ vaddr) (near : vaddr ≤ 0x401000) :
    Loadable 1 0 (sampleSegs vaddr) := by
  obtain ⟨-, -, pages⟩ := Phdr.geometry (p := ⟨1, 6, 0, vaddr, 0, 0x100⟩) (show vaddr + 0x100 ≤ 2 ^ 47 by omega)
  have first : (⟨1, 5, 0, 0x400000, 0, 0x100⟩ : Phdr).sz = 1 := by decide +kernel
  refine ⟨rfl, ?_, ?_, ?_, ?_, ?_, by simp [sampleSegs]⟩ <;>
    simp only [sampleSegs, forall_mem_cons, pairwise_cons, not_mem_nil, IsEmpty.forall_iff,
      implies_true, and_true, true_and, Seg.Has, Seg.Owns, Seg.bytes, first, pages, List.Pairwise.nil]
  · omega
  · omega
  · intro a low high
    omega
  · omega
  · intro x low high
    omega

/-- Two segments on pages of their own are loaded exactly. -/
theorem elfLoad_exact_twoPages : LoadExact 1 8 (twoSegments 0x10) 0 sampleFrames sampleNodes (.empty 3) sampleSpace := by
  have valid : Loadable 1 0 (segs (twoSegments 0x10) sampleFrames sampleNodes) := by
    rw [segs_twoPages]
    exact loadable_sampleSegs (by decide) (by decide)
  refine (elfLoad_exact_iff valid (wf_empty 3) holds_sampleSpace (by rw [segs_twoPages]; decide)).mpr ?_
  rw [segs_twoPages]
  have first : (⟨1, 5, 0, 0x400000, 0, 0x100⟩ : Phdr).alignedVaddr = 0x400000 ∧
      (⟨1, 5, 0, 0x400000, 0, 0x100⟩ : Phdr).sz = 1 := by decide +kernel
  have second : (⟨1, 6, 0, 0x401000, 0, 0x100⟩ : Phdr).alignedVaddr = 0x401000 := by decide +kernel
  intro pre s post split _
  match pre, split with
  | [], split =>
    obtain ⟨rfl, rfl⟩ := cons.inj split
    refine ⟨.inl (by decide), ?_, by simp⟩
    intro t inside w
    obtain rfl := mem_singleton.mp inside
    simp only [Seg.Covers, Seg.start, Seg.bytes, first, second]
    omega
  | [a], split =>
    obtain ⟨rfl, rest⟩ := cons.inj split
    obtain ⟨rfl, rfl⟩ := cons.inj rest
    refine ⟨.inl (by decide), by simp, ?_⟩
    intro t inside
    obtain rfl := mem_singleton.mp inside
    decide
  | a :: b :: more, split => simp [sampleSegs] at split

/-- Two segments on one page are not: the page holds the second one only. -/
theorem elfLoad_sharedPage :
    Loadable 1 0 (segs (twoSegments 8) sampleFrames sampleNodes) ∧
      ¬ LoadExact 1 8 (twoSegments 8) 0 sampleFrames sampleNodes (.empty 3) sampleSpace := by
  have valid : Loadable 1 0 (segs (twoSegments 8) sampleFrames sampleNodes) := by
    rw [segs_onePage]
    exact loadable_sampleSegs (by decide) (by decide)
  refine ⟨valid, fun exact => ?_⟩
  have split : segs (twoSegments 8) sampleFrames sampleNodes = [] ++ _ :: _ := segs_onePage
  have apart := exact.later valid (wf_empty 3) split (by decide) ⟨⟨1, 6, 0, 0x400800, 0, 0x100⟩, 0x20000, 3⟩ mem_cons_self 0x400000
  have both : (⟨1, 5, 0, 0x400000, 0, 0x100⟩ : Phdr).alignedVaddr = 0x400000 ∧
      (⟨1, 5, 0, 0x400000, 0, 0x100⟩ : Phdr).sz = 1 ∧ (⟨1, 6, 0, 0x400800, 0, 0x100⟩ : Phdr).alignedVaddr = 0x400000 ∧
      (⟨1, 6, 0, 0x400800, 0, 0x100⟩ : Phdr).sz = 1 := by decide +kernel
  simp only [Seg.Covers, Seg.start, Seg.bytes, both] at apart
  omega

end Voxia.Exec
