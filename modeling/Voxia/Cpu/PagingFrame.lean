/-
**What a mapping leaves alone.**

The processor takes the permissions of an address from all entries on its way: `effective` is their conjunction.
`_mmap_internal` splits a huge page around its target; the 511 pages beside it keep their entries, but the entry of
the new table takes its user bit from the new mapping. So a mapping without that bit takes it from the neighbours.
-/

import Voxia.Cpu.PagingSpec

namespace Voxia.Cpu

open Option Nat

/-! ### Permissions -/

/-- What an entry lets its addresses be used for. -/
structure Access where
  user : Bool
  write : Bool
  execute : Bool
  deriving DecidableEq

def accessOf (entry : Nat) : Access := ⟨user entry, writable entry, !noExecute entry⟩

/-- What two entries on the way of an address both permit. -/
def Access.meet (a b : Access) : Access := ⟨a.user && b.user, a.write && b.write, a.execute && b.execute⟩

/-- The effective permissions of an address; none if it is not mapped. -/
def effective : (k : Nat) → Table k → Nat → Option Access
  | 0, t, v =>
    let entry := t.entry (tableIndex 0 v)
    if present entry then some (accessOf entry) else none
  | k + 1, t, v =>
    let entry := t.entry (tableIndex (k + 1) v)
    if !present entry then none
    else if (k + 1 = 2 ∨ k + 1 = 1) ∧ huge entry then some (accessOf entry)
    else (effective k (t.next (tableIndex (k + 1) v)) v).map (accessOf entry).meet

theorem accessOf_leafEntry (phys flags : Nat) : accessOf (leafEntry phys flags) = accessOf flags := by
  rw [accessOf, user_leafEntry, writable_leafEntry, noExecute, flag_leafEntry phys flags (.inr rfl)]
  rfl

theorem accessOf_huge (entry : Nat) : accessOf (entry ||| pageHuge) = accessOf entry := by
  have constant : pageHuge.testBit 2 = false ∧ pageHuge.testBit 1 = false ∧ pageHuge.testBit 63 = false := by
    decide
  simp only [accessOf, user, writable, noExecute, testBit_or, constant, Bool.or_false]

/-- A table that is linked in adds the user bit of the mapping, and forbids nothing else. -/
theorem accessOf_or_swTableFlags (entry flags : Nat) :
    accessOf (entry ||| swTableFlags flags) = ⟨user entry || user flags, true, !noExecute entry⟩ := by
  have bits : (pagePresent ||| pageWritable).testBit 2 = false ∧ (pagePresent ||| pageWritable).testBit 1 ∧
      (pagePresent ||| pageWritable).testBit 63 = false ∧ pageUser.testBit 2 ∧
      pageUser.testBit 1 = false ∧ pageUser.testBit 63 = false := by
    decide
  simp [accessOf, swTableFlags, user, writable, noExecute, testBit_or, testBit_and, bits]

theorem accessOf_swTableFlags (flags : Nat) : accessOf (swTableFlags flags) = ⟨user flags, true, true⟩ := by
  have zero := accessOf_or_swTableFlags 0 flags
  rw [zero_or] at zero
  rw [zero]
  simp [user, noExecute]

/-! ### Tables that take no permission from a page -/

def OpenTable (k : Nat) (t : Table k) : Prop := ∃ v a, effective k t v = some a ∧ a.user

/-- Huge pages are aligned; an entry that leads to a table permits writing and execution, and use by the
user if some page under it does. -/
def SoundTable : (k : Nat) → Table k → Prop
  | 0, _ => True
  | k + 1, t => ∀ i < 512, present (t.entry i) →
      if huge (t.entry i) then k + 1 ≤ 2 ∧ physOf (t.entry i) % levelSize (k + 1) = 0
      else writable (t.entry i) ∧ noExecute (t.entry i) = false ∧
        (OpenTable k (t.next i) → user (t.entry i)) ∧ SoundTable k (t.next i)

theorem sound_empty (k : Nat) : SoundTable k (.empty k) := by
  cases k with
  | zero => trivial
  | succ k =>
    intro i _ isPresent
    simp [Table.empty, Table.entry, present] at isPresent

theorem effective_empty (k v : Nat) : effective k (.empty k) v = none := by
  cases k <;> simp [effective, Table.empty, Table.entry, present]

variable {k entry v virt flags phys levelOut level : Nat} {t : Table k} {dir : PageDir}

theorem effective_splitHuge (small : k + 1 ≤ 2) (isPresent : present entry) (isHuge : huge entry)
    (aligned : physOf entry % levelSize (k + 1) = 0) (v : Nat) :
    effective k (splitHuge k entry) v = some (accessOf entry) := by
  obtain rfl | rfl : k = 0 ∨ k = 1 := by omega
  · have inner := pageAddress_split small aligned (tableIndex_lt 0 v)
    have flag := fun k small => flag_splitEntry inner entry (k := k) small
    have stays : present (splitEntry entry (physOf entry + tableIndex 0 v * splitStep 1)) := by
      rw [present, flag 0 (.inl (by decide))]
      exact isPresent
    simp only [effective, entry_splitHuge_zero, stays, if_true, accessOf, user, writable, noExecute]
    rw [flag 2 (.inl (by decide)), flag 1 (.inl (by decide)), flag 63 (.inr rfl)]
  · have inner := pageAddress_split small aligned (tableIndex_lt 1 v)
    have flag := fun k small => flag_or_flagsOf inner entry (k := k) small
    have stays : present ((physOf entry + tableIndex 1 v * splitStep 2) ||| flagsOf entry) := by
      rw [present, flag 0 (.inl (by decide))]
      exact isPresent
    have stillHuge : huge ((physOf entry + tableIndex 1 v * splitStep 2) ||| flagsOf entry) := by
      rw [huge, flag 7 (.inl (by decide))]
      exact isHuge
    simp only [effective, entry_splitHuge_one, stays, stillHuge, Bool.not_true, Bool.false_eq_true, if_false,
      Nat.reduceAdd, or_true, and_self, if_true, accessOf, user, writable, noExecute]
    rw [flag 2 (.inl (by decide)), flag 1 (.inl (by decide)), flag 63 (.inr rfl)]

theorem sound_splitHuge (small : k + 1 ≤ 2) (isHuge : huge entry)
    (aligned : physOf entry % levelSize (k + 1) = 0) : SoundTable k (splitHuge k entry) := by
  obtain rfl | rfl : k = 0 ∨ k = 1 := by omega
  · trivial
  · intro i below _
    have inner := pageAddress_split small aligned below
    have stillHuge : huge ((splitHuge 1 entry).entry i) := by
      rw [entry_splitHuge_one, huge, flag_or_flagsOf inner entry (.inl (by decide))]
      exact isHuge
    rw [if_pos stillHuge, entry_splitHuge_one, physOf_or_flagsOf inner, splitStep_two]
    refine ⟨by decide, ?_⟩
    have size : levelSize (1 + 1) = 2 ^ 30 ∧ levelSize (0 + 1) = 2 ^ 21 := ⟨rfl, rfl⟩
    rw [size.1] at aligned
    rw [size.2]
    unfold pageSize2MB
    omega

/-! ### One mapping -/

/-- What a mapping writes in the slot of its address: the page itself, or the way to a table below, which
is new, made of the page that was there, or there already. -/
inductive Written {k : Nat} (t : Table (k + 1)) (virt phys flags : Nat) (entry : Nat) (next : Table k) : Prop
  | page (level : mappedLevel flags = k + 1) (size : k + 1 = 2 ∨ k + 1 = 1)
      (isEntry : entry = leafEntry phys flags ||| pageHuge)
  | fresh (below : mappedLevel flags ≤ k) (absent : present (t.entry (tableIndex (k + 1) virt)) = false)
      (isEntry : entry = swTableFlags flags) (isNext : next = mmapInternal k (.empty k) virt phys flags)
  | split (below : mappedLevel flags ≤ k) (isPresent : present (t.entry (tableIndex (k + 1) virt)))
      (isHuge : huge (t.entry (tableIndex (k + 1) virt))) (isEntry : entry = swTableFlags flags)
      (isNext : next = mmapInternal k (splitHuge k (t.entry (tableIndex (k + 1) virt))) virt phys flags)
  | table (below : mappedLevel flags ≤ k) (isPresent : present (t.entry (tableIndex (k + 1) virt)))
      (notHuge : huge (t.entry (tableIndex (k + 1) virt)) = false)
      (isEntry : entry = t.entry (tableIndex (k + 1) virt) ||| swTableFlags flags)
      (isNext : next = mmapInternal k (t.next (tableIndex (k + 1) virt)) virt phys flags)

theorem written_mmapInternal (t : Table (k + 1)) (virt phys flags : Nat) (reach : mappedLevel flags ≤ k + 1) :
    Written t virt phys flags ((mmapInternal (k + 1) t virt phys flags).entry (tableIndex (k + 1) virt))
      ((mmapInternal (k + 1) t virt phys flags).next (tableIndex (k + 1) virt)) := by
  have test := mappedLevel_test reach
  rw [mmapInternal]
  by_cases top : (k + 1 = 2 ∧ flags.testBit 62) ∨ (k + 1 = 1 ∧ flags.testBit 61)
  · rw [if_pos top]
    exact .page (test.mp top) (top.imp And.left And.left) (if_pos rfl)
  have below : mappedLevel flags ≤ k := by
    rw [test] at top
    omega
  rw [if_neg top]
  cases isPresent : present (t.entry (tableIndex (k + 1) virt)) with
  | false => exact .fresh below isPresent (if_pos rfl) (if_pos rfl)
  | true =>
    cases isHuge : huge (t.entry (tableIndex (k + 1) virt)) with
    | true => exact .split below isPresent isHuge (if_pos rfl) (if_pos rfl)
    | false => exact .table below isPresent isHuge (if_pos rfl) (if_pos rfl)

theorem Access.meet_open {u : Bool} {a : Access} (opened : a.user → u) : (⟨u, true, true⟩ : Access).meet a = a := by
  obtain ⟨user, write, execute⟩ := a
  cases user with
  | false => simp [Access.meet]
  | true => simp [Access.meet, opened rfl]

theorem effective_node {t : Table (k + 1)} (isPresent : present (t.entry (tableIndex (k + 1) v)))
    (notHuge : huge (t.entry (tableIndex (k + 1) v)) = false) :
    effective (k + 1) t v = (effective k (t.next (tableIndex (k + 1) v)) v).map
      (accessOf (t.entry (tableIndex (k + 1) v))).meet := by
  simp [effective, isPresent, notHuge]

theorem effective_huge {t : Table (k + 1)} (size : k + 1 = 2 ∨ k + 1 = 1)
    (isHuge : huge (t.entry (tableIndex (k + 1) v))) :
    effective (k + 1) t v = if present (t.entry (tableIndex (k + 1) v)) then
      some (accessOf (t.entry (tableIndex (k + 1) v))) else none := by
  rw [effective,
    if_pos (show (k + 1 = 2 ∨ k + 1 = 1) ∧ huge (t.entry (tableIndex (k + 1) v)) = true from ⟨size, isHuge⟩)]
  cases present (t.entry (tableIndex (k + 1) v)) <;> rfl

theorem effective_absent {t : Table (k + 1)}
    (absent : present (t.entry (tableIndex (k + 1) v)) = false) : effective (k + 1) t v = none := by
  simp [effective, absent]

theorem effective_descend {t : Table (k + 1)} {u : Bool} (isPresent : present (t.entry (tableIndex (k + 1) v)))
    (notHuge : huge (t.entry (tableIndex (k + 1) v)) = false)
    (access : accessOf (t.entry (tableIndex (k + 1) v)) = ⟨u, true, true⟩)
    (opened : OpenTable k (t.next (tableIndex (k + 1) v)) → u) :
    effective (k + 1) t v = effective k (t.next (tableIndex (k + 1) v)) v := by
  rw [effective_node isPresent notHuge, access]
  cases found : effective k (t.next (tableIndex (k + 1) v)) v with
  | none => rfl
  | some a => exact congrArg some (Access.meet_open fun isUser => opened ⟨v, a, found, isUser⟩)

/-- The page an address lies in, if it is larger than the mapping and open to the user, is mapped for the
user again: no user bit is lost by a split. -/
def KeepsUserFrom (k : Nat) (t : Table k) (virt flags levelOut : Nat) : Prop :=
  mappedLevel flags < (getEntryFrom k t virt levelOut).2 → user (getEntryFrom k t virt levelOut).1 →
    user flags

theorem keepsUser_empty (k virt flags : Nat) : KeepsUserFrom k (.empty k) virt flags 0 := by
  cases k <;> simp [KeepsUserFrom, getEntryFrom, Table.empty, Table.entry, present, user]

theorem getEntryFrom_huge {t : Table (k + 1)} (levelOut : Nat) (size : k + 1 = 2 ∨ k + 1 = 1)
    (isPresent : present (t.entry (tableIndex (k + 1) v))) (isHuge : huge (t.entry (tableIndex (k + 1) v))) :
    getEntryFrom (k + 1) t v levelOut = (t.entry (tableIndex (k + 1) v), k + 1) := by
  rw [getEntryFrom, isPresent, if_neg (by decide), if_pos ⟨size, isHuge⟩]

theorem getEntryFrom_node {t : Table (k + 1)} (levelOut : Nat) (isPresent : present (t.entry (tableIndex (k + 1) v)))
    (notHuge : huge (t.entry (tableIndex (k + 1) v)) = false) :
    getEntryFrom (k + 1) t v levelOut = getEntryFrom k (t.next (tableIndex (k + 1) v)) v (k + 1) := by
  simp [getEntryFrom, isPresent, notHuge]

theorem keepsUser_splitHuge (small : k + 1 ≤ 2) (isPresent : present entry) (isHuge : huge entry)
    (aligned : physOf entry % levelSize (k + 1) = 0)
    (kept : user entry → user flags) : KeepsUserFrom k (splitHuge k entry) virt flags 0 := by
  intro larger found
  obtain rfl | rfl : k = 0 ∨ k = 1 := by omega
  · simp only [getEntryFrom] at larger
    split_ifs at larger <;> omega
  · have inner := pageAddress_split (by omega) aligned (tableIndex_lt 1 virt)
    have flag : ∀ bit, bit < 12 → ((splitHuge 1 entry).entry (tableIndex 1 virt)).testBit bit = entry.testBit bit :=
      fun bit low => by rw [entry_splitHuge_one, flag_or_flagsOf inner entry (.inl low)]
    rw [getEntryFrom_huge 0 (.inr rfl) ((flag 0 (by decide)).trans isPresent) ((flag 7 (by decide)).trans isHuge)]
      at found
    exact kept ((flag 2 (by decide)).symm.trans found)

/-- **Where a mapping goes on**: in a table with the permissions the slot had, below an entry that forbids
nothing they or the mapping permit. -/
theorem Written.descend {t : Table (k + 1)} {next : Table k} (written : Written t virt phys flags entry next)
    (below : mappedLevel flags ≤ k) (sound : SoundTable (k + 1) t)
    (keeps : KeepsUserFrom (k + 1) t virt flags levelOut) :
    ∃ t₀ level₀ u, next = mmapInternal k t₀ virt phys flags ∧ SoundTable k t₀ ∧ KeepsUserFrom k t₀ virt flags level₀ ∧
      (∀ v, tableIndex (k + 1) v = tableIndex (k + 1) virt → effective (k + 1) t v = effective k t₀ v) ∧
      present entry ∧ huge entry = false ∧ accessOf entry = ⟨u, true, true⟩ ∧ (user flags ∨ OpenTable k t₀ → u) := by
  have slot := sound _ (tableIndex_lt (k + 1) virt)
  unfold KeepsUserFrom at keeps
  cases written with
  | page level => omega
  | fresh _ absent isEntry isNext =>
    refine ⟨.empty k, 0, user flags, isNext, sound_empty k, keepsUser_empty k virt flags, fun v index => ?_, ?_, ?_, ?_,
      fun opened => opened.resolve_right ?_⟩
    · rw [effective_absent (index ▸ absent), effective_empty]
    · rw [isEntry, present_swTableFlags]
    · rw [isEntry, huge_swTableFlags]
    · rw [isEntry, accessOf_swTableFlags]
    · rintro ⟨v, a, found, -⟩
      rw [effective_empty] at found
      cases found
  | split _ isPresent isHuge isEntry isNext =>
    replace slot := slot isPresent
    rw [if_pos isHuge] at slot
    have size : k + 1 = 2 ∨ k + 1 = 1 := by omega
    rw [getEntryFrom_huge levelOut size isPresent isHuge] at keeps
    have kept := keeps (by omega)
    have all := effective_splitHuge slot.1 isPresent isHuge slot.2
    refine ⟨_, 0, user flags, isNext, sound_splitHuge slot.1 isHuge slot.2,
      keepsUser_splitHuge slot.1 isPresent isHuge slot.2 kept, fun v index => ?_, ?_, ?_, ?_, ?_⟩
    · rw [effective_huge size (index ▸ isHuge), index, if_pos isPresent, all]
    · rw [isEntry, present_swTableFlags]
    · rw [isEntry, huge_swTableFlags]
    · rw [isEntry, accessOf_swTableFlags]
    · rintro (isUser | ⟨v, a, found, isUser⟩)
      · exact isUser
      · rw [all] at found
        obtain rfl := some.inj found
        exact kept isUser
  | table _ isPresent notHuge isEntry isNext =>
    replace slot := slot isPresent
    rw [notHuge, if_neg (by decide)] at slot
    obtain ⟨isWritable, executable, opened, soundNext⟩ := slot
    rw [getEntryFrom_node levelOut isPresent notHuge] at keeps
    refine ⟨_, k + 1, user (t.entry (tableIndex (k + 1) virt)) || user flags, isNext, soundNext, keeps,
      fun v index => ?_, ?_, ?_, ?_, ?_⟩
    · rw [effective_descend (index ▸ isPresent) (index ▸ notHuge) (by rw [index, accessOf, isWritable, executable]; rfl)
        (index ▸ opened), index]
    · rw [isEntry, present_or_swTableFlags]
    · rw [isEntry, huge_or_swTableFlags, notHuge]
    · rw [isEntry, accessOf_or_swTableFlags, executable]
      rfl
    · rintro (isUser | before)
      · rw [isUser, Bool.or_true]
      · rw [opened before, Bool.true_or]

section

variable (sound : SoundTable k t)

include sound

/-- **One mapping that keeps user bits**: its page has the permissions asked for and every other address its
own, and the tables stay sound. -/
theorem mmapInternal_sound (phys : Nat) (reach : mappedLevel flags ≤ k)
    (keeps : KeepsUserFrom k t virt flags levelOut) :
    (∀ v, effective k (mmapInternal k t virt phys flags) v =
      if SameSlot (mappedLevel flags) k virt v then if present flags then some (accessOf flags) else none
      else effective k t v) ∧
    ((present flags → physOf phys % levelSize (mappedLevel flags) = 0) →
      SoundTable k (mmapInternal k t virt phys flags)) := by
  induction k generalizing levelOut with
  | zero =>
    refine ⟨fun v => ?_, fun _ => trivial⟩
    have here : SameSlot (mappedLevel flags) 0 virt v ↔ tableIndex 0 v = tableIndex 0 virt := by
      refine ⟨fun same => (same 0 reach le_rfl).symm, fun index j _ high => ?_⟩
      obtain rfl : j = 0 := by omega
      exact index.symm
    simp only [effective, mmapInternal, Table.entry_setLeaf, here]
    by_cases index : tableIndex 0 v = tableIndex 0 virt
    · simp only [if_pos index]
      rw [show physOf phys ||| hwFlags flags = leafEntry phys flags from rfl, present_leafEntry, accessOf_leafEntry]
    · simp only [if_neg index]
  | succ k ih =>
    have written := written_mmapInternal t virt phys flags reach
    -- only the slot of the address changes
    have apart {i : Nat} := slot_mmapInternal (i := i) t virt phys flags
    rcases lt_or_eq_of_le reach with below | top
    · obtain ⟨t₀, level₀, u, isNext, sound₀, keeps₀, before, isPresent, notHuge, access, opened⟩ :=
        written.descend (le_of_lt_succ below) sound keeps
      obtain ⟨mapped, stays⟩ := ih sound₀ (le_of_lt_succ below) keeps₀
      have open' : OpenTable k (mmapInternal k t₀ virt phys flags) → u := by
        rintro ⟨v, a, found, isUser⟩
        rw [mapped] at found
        split_ifs at found
        · obtain rfl := some.inj found
          exact opened (.inl isUser)
        · exact opened (.inr ⟨v, a, found, isUser⟩)
      rw [← isNext] at mapped stays open'
      refine ⟨fun v => ?_, fun aligned i inside _ => ?_⟩
      · simp only [SameSlot.succ reach]
        by_cases index : tableIndex (k + 1) v = tableIndex (k + 1) virt
        · rw [← index] at isPresent notHuge access mapped open'
          rw [effective_descend isPresent notHuge access open', mapped, before v index]
          simp only [index, true_and]
        · rw [if_neg fun same => index same.1.symm]
          simp only [effective, apart index]
      · by_cases here : i = tableIndex (k + 1) virt
        · rw [here, notHuge, if_neg (by decide)]
          simp only [accessOf, Access.mk.injEq, Bool.not_eq_true'] at access
          exact ⟨access.2.1, access.2.2, fun opened => access.1.trans (open' opened), stays aligned⟩
        · rw [(apart here).1, (apart here).2] at *
          exact sound i inside ‹_›
    · obtain ⟨size, isEntry⟩ : (k + 1 = 2 ∨ k + 1 = 1) ∧ _ := by
        cases written with
        | page _ size isEntry => exact ⟨size, isEntry⟩
        | fresh | split | table => omega
      refine ⟨fun v => ?_, fun aligned i inside => ?_⟩
      · simp only [SameSlot.succ reach]
        by_cases index : tableIndex (k + 1) v = tableIndex (k + 1) virt
        · rw [if_pos ⟨index.symm, fun j low high => by omega⟩,
            effective_huge size (by rw [index, isEntry, huge_huge]), index, isEntry, present_huge,
            present_leafEntry, accessOf_huge, accessOf_leafEntry]
        · rw [if_neg fun same => index same.1.symm]
          simp only [effective, apart index]
      · by_cases here : i = tableIndex (k + 1) virt
        · rw [here, isEntry, if_pos (huge_huge _), present_huge, present_leafEntry, physOf_huge,
            physOf_leafEntry, ← top]
          exact fun isPresent => ⟨by omega, aligned isPresent⟩
        · rw [(apart here).1, (apart here).2]
          exact sound i inside

/-! ### What a split without the user bit does -/

theorem effective_user (isUser : user (getEntryFrom k t v levelOut).1) : ∃ a, effective k t v = some a ∧ a.user := by
  have nothing : user 0 = false := by simp [user]
  induction k generalizing levelOut with
  | zero =>
    rw [getEntryFrom] at isUser
    cases isPresent : present (t.entry (tableIndex 0 v)) with
    | false =>
      rw [isPresent] at isUser
      exact absurd isUser (by simp [nothing])
    | true =>
      rw [isPresent] at isUser
      exact ⟨_, if_pos isPresent, isUser⟩
  | succ k ih =>
    have slot := sound _ (tableIndex_lt (k + 1) v)
    cases isPresent : present (t.entry (tableIndex (k + 1) v)) with
    | false =>
      rw [getEntryFrom, isPresent] at isUser
      exact absurd isUser (by simp [nothing])
    | true =>
      replace slot := slot isPresent
      cases isHuge : huge (t.entry (tableIndex (k + 1) v)) with
      | true =>
        rw [if_pos isHuge] at slot
        have size : k + 1 = 2 ∨ k + 1 = 1 := by omega
        rw [getEntryFrom_huge levelOut size isPresent isHuge] at isUser
        exact ⟨_, (effective_huge size isHuge).trans (if_pos isPresent), isUser⟩
      | false =>
        rw [isHuge, if_neg (by decide)] at slot
        rw [getEntryFrom_node levelOut isPresent isHuge] at isUser
        obtain ⟨a, found, open'⟩ := ih slot.2.2.2 isUser
        refine ⟨_, (effective_node isPresent isHuge).trans (by rw [found]; rfl), ?_⟩
        show (user _ && a.user)
        rw [slot.2.2.1 ⟨v, a, found, open'⟩, open']
        rfl

/-- A page in a larger one that is split by a mapping without the user bit is closed to the user. -/
theorem effective_split_lost (reach : mappedLevel flags ≤ k) (found : user (getEntryFrom k t virt levelOut).1)
    (larger : mappedLevel flags < (getEntryFrom k t virt levelOut).2) (kernel : user flags = false)
    (same : SameSlot (getEntryFrom k t virt levelOut).2 k virt v) :
    ∀ a, effective k (mmapInternal k t virt phys flags) v = some a → a.user = false := by
  have nothing : user 0 = false := by simp [user]
  have nonzero : (getEntryFrom k t virt levelOut).1 ≠ 0 := by
    intro zero
    rw [zero, nothing] at found
    cases found
  induction k generalizing levelOut with
  | zero =>
    rw [getEntryFrom] at larger found
    cases isPresent : present (t.entry (tableIndex 0 virt)) with
    | false =>
      rw [isPresent] at found
      exact absurd found (by simp [nothing])
    | true =>
      rw [isPresent] at larger
      exact absurd larger (by simp)
  | succ k ih =>
    have index : tableIndex (k + 1) v = tableIndex (k + 1) virt :=
      (same (k + 1) (getEntryFrom_level_le t virt levelOut nonzero) le_rfl).symm
    have slot := sound _ (tableIndex_lt (k + 1) virt)
    intro a after
    cases written_mmapInternal t virt phys flags reach with
    | page level size isEntry =>
      have := getEntryFrom_level_le t virt levelOut nonzero
      omega
    | fresh below absent isEntry isNext =>
      rw [getEntryFrom, absent] at found
      exact absurd found (by simp [nothing])
    | split below isPresent isHuge isEntry isNext =>
      rw [← index] at isEntry
      rw [effective_node (by rw [isEntry, present_swTableFlags]) (by rw [isEntry, huge_swTableFlags]), isEntry,
        accessOf_swTableFlags, kernel, map_eq_some_iff] at after
      obtain ⟨b, -, rfl⟩ := after
      rfl
    | table below isPresent notHuge isEntry isNext =>
      replace slot := slot isPresent
      rw [notHuge, if_neg (by decide)] at slot
      rw [getEntryFrom_node levelOut isPresent notHuge] at found larger same nonzero
      rw [← index] at isEntry isNext
      rw [effective_node (by rw [isEntry, present_or_swTableFlags])
        (by rw [isEntry, huge_or_swTableFlags, index, notHuge]), isNext, map_eq_some_iff] at after
      obtain ⟨b, below', rfl⟩ := after
      rw [index] at below'
      have closed := ih slot.2.2.2 below found larger
        (fun j low high => same j low (by omega)) nonzero b below'
      show (_ && b.user) = false
      rw [closed, Bool.and_false]

end

/-- The address beside another: the pages of a level in pairs. -/
def beside (level virt : Nat) : Nat := virt ^^^ 2 ^ (12 + 9 * level)

theorem tableIndex_beside {j : Nat} (above : level < j) : tableIndex j (beside level virt) = tableIndex j virt := by
  have small : 2 ^ (12 + 9 * level) < 2 ^ (12 + 9 * j) := Nat.pow_lt_pow_right (by decide) (by omega)
  rw [tableIndex, beside, Nat.shiftRight_xor_distrib, Nat.shiftRight_eq_div_pow (2 ^ _), Nat.div_eq_of_lt small,
    Nat.xor_zero, tableIndex]

theorem tableIndex_beside_ne (level virt : Nat) : tableIndex level virt ≠ tableIndex level (beside level virt) := by
  have bit : ∀ v, (tableIndex level v).testBit 0 = v.testBit (12 + 9 * level) := by
    intro v
    rw [tableIndex, testBit_and, testBit_shiftRight, show (0x1FF : Nat).testBit 0 = true from rfl,
      Bool.and_true, add_zero]
  intro same
  have both := bit (beside level virt)
  rw [← same, bit virt, beside, testBit_xor, testBit_two_pow_self, Bool.xor_true] at both
  cases h : virt.testBit (12 + 9 * level) <;> simp [h] at both

/-! ### Calls of `_mmap_internal` -/

def WholeFrame (phys flags : Nat) : Prop := phys < 2 ^ 52 ∧ phys % levelSize (mappedLevel flags) = 0

/-- The address does not lie in a page that is larger than the mapping and open to the user, unless the
mapping is for the user too. -/
def KeepsUser (dir : PageDir) (virt flags : Nat) : Prop :=
  mappedLevel flags < (pagingGetEntryExt dir virt).2 → user (pagingGetEntryExt dir virt).1 →
    user flags

/-- A call that maps a whole frame, or nothing, and splits no page of the user for the kernel. -/
def Harmless (dir : PageDir) (virt phys flags : Nat) : Prop :=
  (present flags → WholeFrame phys flags) ∧ KeepsUser dir virt flags

inductive Built : PageDir → Prop
  | empty : Built (.empty 3)
  | mmap {dir : PageDir} (virt phys flags : Nat) (built : Built dir) (harmless : Harmless dir virt phys flags) :
      Built (mmapInternal 3 dir virt phys flags)

/-- What an address of the mapped page has afterwards: the frame and the permissions asked for, or nothing
if the mapping is not present. -/
def Mapped (dir : PageDir) (phys flags v : Nat) : Prop :=
  if present flags then
    vaddrToPaddr dir v = phys + v % levelSize (mappedLevel flags) ∧ effective 3 dir v = some (accessOf flags)
  else vaddrToPaddr dir v = 0 ∧ effective 3 dir v = none

/-- The call maps its page as asked and leaves every other address alone. Two addresses are in one page of
a level if their walks take the same slots down to that level. -/
def Framed (dir : PageDir) (virt phys flags : Nat) : Prop :=
  ∀ v, if SameSlot (mappedLevel flags) 3 virt v then Mapped (mmapInternal 3 dir virt phys flags) phys flags v
    else vaddrToPaddr (mmapInternal 3 dir virt phys flags) v = vaddrToPaddr dir v ∧
      effective 3 (mmapInternal 3 dir virt phys flags) v = effective 3 dir v

theorem levelSize_dvd {s : Nat} (small : s ≤ level) : levelSize s ∣ levelSize level :=
  pow_dvd_pow 2 (by omega)

theorem WholeFrame.page (whole : WholeFrame phys flags) : PageAddress phys :=
  ⟨mod_eq_zero_of_dvd ((levelSize_dvd (zero_le _)).trans (dvd_of_mod_eq_zero whole.2)), whole.1⟩

/-- Both invariants of the directories that harmless calls build. -/
theorem Built.sound (built : Built dir) : SoundTable 3 dir ∧ WfAll dir := by
  induction built with
  | empty => exact ⟨sound_empty 3, wfAll_empty⟩
  | mmap virt phys flags _ harmless ih =>
    have aligned : present flags → physOf phys % levelSize (mappedLevel flags) = 0 := fun isPresent => by
      have whole := harmless.1 isPresent
      rw [whole.page.physOf_eq]
      exact whole.2
    have reach := mappedLevel_le flags
    exact ⟨(mmapInternal_sound ih.1 phys (by omega) harmless.2).2 aligned,
      wfAll_mmapInternal virt phys flags ih.2 aligned⟩

theorem getEntryFrom_mapped (t : Table k) (virt phys levelOut : Nat) (reach : mappedLevel flags ≤ k)
    (isPresent : present flags) :
    getEntryFrom k (mmapInternal k t virt phys flags) virt levelOut =
      (if mappedLevel flags = 0 then leafEntry phys flags else leafEntry phys flags ||| pageHuge,
        mappedLevel flags) := by
  induction k generalizing levelOut with
  | zero =>
    have level : mappedLevel flags = 0 := by omega
    rw [getEntryFrom, level, if_pos rfl, mmapInternal, Table.entry_setLeaf, if_pos rfl,
      show physOf phys ||| hwFlags flags = leafEntry phys flags from rfl, present_leafEntry, isPresent]
    rfl
  | succ k ih =>
    cases written_mmapInternal t virt phys flags reach with
    | page level size isEntry =>
      rw [getEntryFrom_huge levelOut size (by rw [isEntry, present_huge, present_leafEntry, isPresent])
        (by rw [isEntry, huge_huge]), isEntry, level, if_neg (by omega)]
    | fresh below absent isEntry isNext =>
      rw [getEntryFrom_node levelOut (by rw [isEntry, present_swTableFlags]) (by rw [isEntry, huge_swTableFlags]),
        isNext]
      exact ih _ _ below
    | split below wasPresent isHuge isEntry isNext =>
      rw [getEntryFrom_node levelOut (by rw [isEntry, present_swTableFlags]) (by rw [isEntry, huge_swTableFlags]),
        isNext]
      exact ih _ _ below
    | table below wasPresent notHuge isEntry isNext =>
      rw [getEntryFrom_node levelOut (by rw [isEntry, present_or_swTableFlags])
        (by rw [isEntry, huge_or_swTableFlags, notHuge]), isNext]
      exact ih _ _ below

theorem without_aligned (phys bits : Nat) (small : bits ≤ 64) : without phys (2 ^ bits - 1) % 2 ^ bits = 0 := by
  apply eq_of_testBit_eq
  intro i
  rw [testBit_mod_two_pow, testBit_without, testBit_two_pow_sub_one, zero_testBit]
  by_cases low : i < bits
  · have wide : i < 64 := by omega
    simp [low, wide]
  · simp [low]

/-- **The masks drop the rest of a frame**: only a whole frame translates to itself. -/
theorem wholeFrame_of_translates (isPresent : present flags)
    (translates : vaddrToPaddr (mmapInternal 3 dir virt phys flags) virt
      = phys + virt % levelSize (mappedLevel flags)) : WholeFrame phys flags := by
  have walk : pagingGetEntryExt (mmapInternal 3 dir virt phys flags) virt = _ :=
    getEntryFrom_mapped dir virt phys 0 ((mappedLevel_le flags).trans (by decide)) isPresent
  have masked : ∀ bits ≤ 30, levelSize (mappedLevel flags) = 2 ^ bits →
      without (physOf phys) (2 ^ bits - 1) ||| (virt &&& (2 ^ bits - 1)) = phys + virt % levelSize (mappedLevel flags) →
      WholeFrame phys flags := by
    intro bits small size equal
    have aligned := without_aligned (physOf phys) bits (by omega)
    rw [size, or_offset bits virt aligned, add_right_cancel_iff] at equal
    rw [equal] at aligned
    refine ⟨?_, by rw [size, aligned]⟩
    have less : without (physOf phys) (2 ^ bits - 1) ≤ physOf phys := and_le_left
    have bound := physOf_lt phys
    omega
  have nonzero : ∀ entry, present entry → entry ≠ 0 := by
    rintro _ here rfl
    simp [present] at here
  rw [vaddrToPaddr, walk] at translates
  dsimp only at translates
  have leaf : present (leafEntry phys flags) := (present_leafEntry phys flags).trans isPresent
  have cases : mappedLevel flags = 0 ∨ mappedLevel flags = 1 ∨ mappedLevel flags = 2 := by
    have := mappedLevel_le flags
    omega
  rcases cases with level | level | level
  · rw [level, if_pos rfl, if_neg (nonzero _ leaf), huge_leafEntry, if_neg (by decide), physOf_leafEntry,
      ← level] at translates
    refine masked 12 (by decide) (by rw [level]; rfl) ?_
    rw [without_offset 12 (physOf_lt phys) (physOf_aligned phys)]
    exact translates
  · rw [level, if_neg one_ne_zero, if_neg (nonzero _ ((present_huge _).trans leaf)), if_pos (huge_huge _),
      if_neg (show (1 : Nat) ≠ 2 by decide), physOf_huge, physOf_leafEntry, ← level] at translates
    exact masked 21 (by decide) (by rw [level]; rfl) translates
  · rw [level, if_neg (show (2 : Nat) ≠ 0 by decide), if_neg (nonzero _ ((present_huge _).trans leaf)), if_pos (huge_huge _),
      if_pos rfl, physOf_huge, physOf_leafEntry, ← level] at translates
    exact masked 30 (by decide) (by rw [level]; rfl) translates

theorem vaddrToPaddr_mapped (wf : WfAll (mmapInternal 3 dir virt phys flags))
    (whole : present flags → WholeFrame phys flags) (same : SameSlot (mappedLevel flags) 3 virt v) :
    vaddrToPaddr (mmapInternal 3 dir virt phys flags) v =
      if present flags then phys + v % levelSize (mappedLevel flags) else 0 := by
  have reach := mappedLevel_le flags
  rw [vaddrToPaddr_all wf, pte_mmapInternal 3 dir virt phys flags v (by omega), if_pos same]
  cases isPresent : present flags with
  | false =>
    have nothing : mappedEntry (mappedLevel flags) phys flags v = 0 := by
      exact if_neg (by simp [isPresent])
    rw [nothing]
    rfl
  | true =>
    have whole := whole isPresent
    have aligned : physOf phys % levelSize (mappedLevel flags) = 0 := by
      rw [whole.page.physOf_eq]
      exact whole.2
    have page := pageAddress_add (v := v) whole.page reach whole.2
    rw [mappedEntry_eq v reach aligned, isPresent, if_pos rfl, present_leafEntry, isPresent, if_pos rfl, if_pos rfl,
      physOf_leafEntry, whole.page.physOf_eq, page.physOf_eq, pageOffset, add_assoc]
    have split : v % 4096 = v % levelSize (mappedLevel flags) % 4096 :=
      (mod_mod_of_dvd v (levelSize_dvd (zero_le _))).symm
    omega

/-- **What a mapping leaves alone.** On a directory that harmless calls have built, a call maps its page and
leaves all other addresses alone exactly if it is harmless. -/
theorem mmapInternal_framed_iff {dir : PageDir} (built : Built dir) (virt phys flags : Nat) :
    Framed dir virt phys flags ↔ Harmless dir virt phys flags := by
  obtain ⟨sound, wf⟩ := built.sound
  have reach : mappedLevel flags ≤ 3 := (mappedLevel_le flags).trans (by decide)
  constructor
  · intro framed
    refine ⟨fun isPresent => ?_, fun larger isUser => ?_⟩
    · have here := framed virt
      rw [if_pos (show SameSlot _ 3 virt virt from fun _ _ _ => rfl), Mapped, if_pos isPresent] at here
      exact wholeFrame_of_translates isPresent here.1
    · by_contra kernel
      rw [Bool.not_eq_true] at kernel
      -- the address beside it lies in the same larger page
      have same : SameSlot (pagingGetEntryExt dir virt).2 3 virt (beside (mappedLevel flags) virt) :=
        fun j low _ => (tableIndex_beside (by omega)).symm
      have found : (pagingGetEntryExt dir virt).1 ≠ 0 := by
        intro zero
        rw [zero] at isUser
        simp [user] at isUser
      have walk : pagingGetEntryExt dir (beside (mappedLevel flags) virt) = pagingGetEntryExt dir virt :=
        getEntryFrom_congr found same
      have isUser' : user (pagingGetEntryExt dir (beside (mappedLevel flags) virt)).1 := by
        rw [walk]
        exact isUser
      obtain ⟨a, before, opened⟩ := effective_user sound isUser'
      have closed : effective 3 (mmapInternal 3 dir virt phys flags) _ = some a → a.user = false :=
        effective_split_lost sound reach isUser larger kernel same a
      have there := framed (beside (mappedLevel flags) virt)
      rw [if_neg fun all => tableIndex_beside_ne _ _ (all _ le_rfl reach)] at there
      rw [closed (there.2.trans before)] at opened
      cases opened
  · rintro harmless v
    have built' : Built (mmapInternal 3 dir virt phys flags) := .mmap virt phys flags built harmless
    obtain ⟨-, wf'⟩ := built'.sound
    have access := (mmapInternal_sound sound phys reach harmless.2).1 v
    by_cases same : SameSlot (mappedLevel flags) 3 virt v
    · rw [if_pos same, Mapped]
      have frame := vaddrToPaddr_mapped wf' harmless.1 same
      split_ifs at frame access ⊢
      · exact ⟨frame, access⟩
      · exact ⟨frame, access⟩
    · rw [if_neg same] at access
      rw [if_neg same]
      refine ⟨?_, access⟩
      rw [vaddrToPaddr_all wf', vaddrToPaddr_all wf, pte_mmapInternal 3 dir virt phys flags v reach, if_neg same]

/-- A directory with one page of 2 MB, for the user, at address 0. -/
def megaPage : PageDir := mmapInternal 3 (.empty 3) 0 0x200000 (pagePresent ||| pageWritable ||| pageUser ||| page2MB)

theorem megaPage_built : Built megaPage := by
  refine .mmap 0 0x200000 _ .empty ⟨fun _ => by constructor <;> decide, fun larger => ?_⟩
  exact absurd larger (by decide)

/-- Mapping another frame for the user in the middle of the page. -/
theorem mmapInternal_framed_user : Framed megaPage 0x1000 0x5000 (pagePresent ||| pageUser) :=
  (mmapInternal_framed_iff megaPage_built 0x1000 0x5000 (pagePresent ||| pageUser)).mpr
    ⟨fun _ => by constructor <;> decide, fun _ _ => by decide⟩

/-- **Unmapping one page closes its neighbours.** The address 0x1000 is in the page of 2 MB, and the first
4 KB of that page are unmapped: the user can no longer use it. -/
theorem mmapInternal_not_framed : Built megaPage ∧ ¬ Framed megaPage 0 0 0 := by
  refine ⟨megaPage_built, fun framed => ?_⟩
  have neighbour := framed 0x1000
  exact absurd neighbour.2 (by decide)

end Voxia.Cpu
