/-
**The write buffers are not seen, while nobody looks past them.**

A run of the kernel is compared with one where every write is applied to the file when it is issued (`performDirect`),
over an ideal file. This needs that there is never more than one nonempty buffer, and that none is left when the file
is read (`Quiet`). The code does not see to that: `read` does not flush, and a buffer is not seen through other open
files.
-/

import Voxia.Fd.WriteBuffer

namespace Voxia.Fd

/-! ### The unbuffered execution -/

section Direct

variable {σ : Type}

/-- Every call of the kernel, with writes that go to the file at once. -/
def performDirect (sys : FileSystem σ) (st : Files σ) (p : Nat) : Call → Answer × Files σ
  | .write fd data =>
    let (s, st) := writeWith writeThrough sys st p fd data
    (.value (toInt s), st)
  | .writev fd iov => answerValue (writevWith plainPiece sys st p fd iov)
  | call => perform sys st p call

end Direct

/-- An open regular file of a mounted file system, which can be read and written. -/
def Regular (file : FileDescriptor) : Prop :=
  ∃ vnode, file.vnode = some vnode ∧ vnode.type = .file ∧ vnode.fsInstance ∧ file.ops = some ⟨true, true⟩

def OthersClean (st : Files Contents) (f : Nat) : Prop := ∀ g, g ≠ f → (st.files g).pending = []

/-- The calls that do not look past a buffer: a file is read when no buffer holds bytes; it is written,
and its end is sought, when no other open file's buffer does; and the position stays below `2 ^ 64`. All
open files are on the one regular file, and `open` does not truncate it. -/
def Quiet (st : Files Contents) (p : Nat) : Call → Prop
  | .write fd data => ∀ i f, lookup st p fd = some (i, f) →
      OthersClean st f ∧ (st.files f).pos + data.length < 2 ^ 64
  | .writev fd iov => ∀ i f, lookup st p fd = some (i, f) →
      OthersClean st f ∧ (st.files f).pos + iov.flatten.length < 2 ^ 64
  | .read fd _ => ∀ i f, lookup st p fd = some (i, f) → ∀ g, (st.files g).pending = []
  | .lseek fd _ whence => ∀ i f, lookup st p fd = some (i, f) → whence = 2 → OthersClean st f
  | .openFile target trunc _ _ => trunc = false ∧ ∀ t, target = some t →
      t.vnode.type = .file ∧ t.vnode.fsInstance ∧ t.ops = some ⟨true, true⟩
  | .pipe2 .. | .socket .. | .accept .. => False
  | _ => True

def QuietRun : Files Contents → List (Nat × Call) → Prop
  | _, [] => True
  | st, (p, call) :: rest =>
    ((st.procs p).isSome ∧ st.exited p = false → Quiet st p call) ∧
      QuietRun (step (perform idealFile) st p call).2 rest

/-! ### The relation of the two runs -/

/-- The unbuffered state `sd` mirrors the state `st`, in which only the buffer of `owner` may hold bytes. -/
structure MirrorsAt (st sd : Files Contents) (owner : Option Nat) : Prop where
  procs : sd.procs = st.procs
  nextProc : sd.nextProc = st.nextProc
  exited : sd.exited = st.exited
  next : sd.next = st.next
  files : ∀ f, sd.files f = (st.files f).erase
  regular : ∀ f < st.next, Regular (st.files f)
  bounds : ∀ f, InBounds (st.files f)
  clean : ∀ f, owner ≠ some f → (st.files f).pending = []
  alive : ∀ f, owner = some f → f < st.next ∧ releases st f = 0
  contents : sd.fs = (owner.elim st.fs fun f => view st f)

def Mirrors (st sd : Files Contents) : Prop := ∃ owner, MirrorsAt st sd owner

def Agree {α : Type} (result direct : α × Files Contents) : Prop := result.1 = direct.1 ∧ Mirrors result.2 direct.2

theorem Agree.map {α β : Type} {result direct : α × Files Contents} (agree : Agree result direct) (g : α → β) :
    Agree (g result.1, result.2) (g direct.1, direct.2) := ⟨congrArg g agree.1, agree.2⟩

theorem view_of_clean {st : Files Contents} {f : Nat} (empty : (st.files f).pending = []) : view st f = st.fs := by
  rw [view, empty, Contents.write_nil]

section Relation

variable {st sd : Files Contents} {owner : Option Nat}

variable {f : Nat}

section

variable (mirrors : MirrorsAt st sd owner)

include mirrors

/-- The file of the unbuffered run, seen through an open file whose buffer may hold bytes. -/
theorem MirrorsAt.view_eq (others : OthersClean st f) : sd.fs = view st f := by
  rw [mirrors.contents]
  cases owner with
  | none => exact (view_of_clean (mirrors.clean f (by simp))).symm
  | some g =>
    by_cases same : g = f
    · rw [same]
      rfl
    · show view st g = view st f
      rw [view_of_clean (others g same), view_of_clean (mirrors.clean f (by simpa using same))]

theorem MirrorsAt.held_eq : held sd = held st := by
  funext k
  rw [held, mirrors.procs, held]

theorem MirrorsAt.lookup_eq (p : Nat) (fd : Int) : lookup sd p fd = lookup st p fd := by
  rw [lookup, mirrors.held_eq, lookup]

theorem MirrorsAt.lowestFree_eq (p start : Nat) : lowestFree sd p start = lowestFree st p start := by
  rw [lowestFree, mirrors.held_eq, lowestFree]

theorem MirrorsAt.fdFlag_eq (p : Nat) (i : Fin maxFds) : fdFlag sd p i = fdFlag st p i := by
  rw [fdFlag, mirrors.procs, fdFlag]

/-! ### Moves that keep it -/

theorem MirrorsAt.tables {st' sd' : Files Contents} (files : st'.files = st.files)
    (next : st'.next = st.next) (released : st'.released = st.released) (fs : st'.fs = st.fs)
    (directFiles : sd'.files = sd.files) (directNext : sd'.next = sd.next) (directFs : sd'.fs = sd.fs)
    (procs : sd'.procs = st'.procs) (nextProc : sd'.nextProc = st'.nextProc) (exited : sd'.exited = st'.exited) :
    MirrorsAt st' sd' owner := by
  have views : (owner.elim st'.fs fun f => view st' f) = owner.elim st.fs fun f => view st f := by
    cases owner with
    | none => exact fs
    | some f => simp only [Option.elim_some, view, files, fs]
  refine ⟨procs, nextProc, exited, ?_, ?_, ?_, ?_, ?_, ?_, ?_⟩
  · rw [directNext, next, mirrors.next]
  · rw [directFiles, files]
    exact mirrors.files
  · rw [next, files]
    exact mirrors.regular
  · rw [files]
    exact mirrors.bounds
  · rw [files]
    exact mirrors.clean
  · rw [next]
    intro f same
    rw [releases, released]
    exact mirrors.alive f same
  · rw [directFs, views, mirrors.contents]

theorem MirrorsAt.setSlot (p : Nat) (i : Fin maxFds) (file : Option Nat) :
    MirrorsAt (setSlot st p i file) (setSlot sd p i file) owner :=
  mirrors.tables rfl rfl rfl rfl rfl rfl rfl (by rw [Fd.setSlot, Fd.setSlot, mirrors.procs]) mirrors.nextProc
    mirrors.exited

theorem MirrorsAt.setFdFlag (p : Nat) (i : Fin maxFds) (flag : Nat) :
    MirrorsAt (setFdFlag st p i flag) (setFdFlag sd p i flag) owner :=
  mirrors.tables rfl rfl rfl rfl rfl rfl rfl (by rw [Fd.setFdFlag, Fd.setFdFlag, mirrors.procs]) mirrors.nextProc
    mirrors.exited

theorem MirrorsAt.createProcess : MirrorsAt (createProcess st) (createProcess sd) owner := by
  refine mirrors.tables rfl rfl rfl rfl rfl rfl rfl ?_ ?_ ?_
  · rw [Fd.createProcess, Fd.createProcess, mirrors.procs, mirrors.nextProc]
  · rw [Fd.createProcess, Fd.createProcess, mirrors.nextProc]
  · rw [Fd.createProcess, Fd.createProcess, mirrors.exited, mirrors.nextProc]

/-- Two states that differ from these in one open file, and not in how many there are. -/
theorem MirrorsAt.one {st' sd' : Files Contents} {owner' : Option Nat} (procs : sd'.procs = st'.procs)
    (nextProc : sd'.nextProc = st'.nextProc) (exited : sd'.exited = st'.exited) (next : sd'.next = st'.next)
    (known : ∀ g, g ≠ f → g < st'.next → g < st.next) (others : ∀ g, g ≠ f → st'.files g = st.files g)
    (direct : ∀ g, g ≠ f → sd'.files g = sd.files g) (self : sd'.files f = (st'.files f).erase)
    (regular : f < st'.next → Regular (st'.files f)) (bounds : InBounds (st'.files f))
    (clean : owner' ≠ some f → (st'.files f).pending = [])
    (cleanOthers : ∀ g, g ≠ f → owner' ≠ some g → (st.files g).pending = [])
    (alive : ∀ g, owner' = some g → g < st'.next ∧ releases st' g = 0)
    (contents : sd'.fs = (owner'.elim st'.fs fun g => view st' g)) : MirrorsAt st' sd' owner' := by
  refine ⟨procs, nextProc, exited, next, fun g => ?_, fun g below => ?_, fun g => ?_, fun g other => ?_, alive, contents⟩
  all_goals by_cases same : g = f
  · rw [same, self]
  · rw [direct g same, others g same, mirrors.files g]
  · exact same ▸ regular (same ▸ below)
  · rw [others g same]
    exact mirrors.regular g (known g same below)
  · rw [same]
    exact bounds
  · rw [others g same]
    exact mirrors.bounds g
  · rw [same]
    exact clean (same ▸ other)
  · rw [others g same]
    exact cleanOthers g same other

/-- A change of an open file that leaves its buffer alone, and its position unless the buffer is empty. -/
theorem MirrorsAt.change {file : FileDescriptor}
    (buffer : file.pending = (st.files f).pending) (pos : file.pos = (st.files f).pos ∨ (st.files f).pending = [])
    (bounds : InBounds file) (vnode : file.vnode = (st.files f).vnode) (ops : file.ops = (st.files f).ops) :
    MirrorsAt (Fd.setFile st f file) (Fd.setFile sd f file.erase) owner := by
  have here : (Fd.setFile st f file).files f = file := (files_setFile st f _ f).trans (if_pos rfl)
  have there : ∀ g, g ≠ f → (Fd.setFile st f file).files g = st.files g := fun g other =>
    (files_setFile st f _ g).trans (if_neg other)
  refine mirrors.one mirrors.procs mirrors.nextProc mirrors.exited mirrors.next (fun _ _ => id) there
    (fun g other => (files_setFile sd f _ g).trans (if_neg other)) ?_ (fun exists' => ?_)
    (by rw [here]; exact bounds) (fun other => ?_) (fun g _ => mirrors.clean g) mirrors.alive ?_
  · rw [here, files_setFile, if_pos rfl]
  · obtain ⟨v, isVnode, type, mounted, able⟩ := mirrors.regular f exists'
    rw [here]
    exact ⟨v, vnode.trans isVnode, type, mounted, ops.trans able⟩
  · rw [here, buffer, mirrors.clean f other]
  · show sd.fs = _
    rw [mirrors.contents]
    cases owner with
    | none => rfl
    | some g =>
      show view st g = st.fs.write _ _
      by_cases same : g = f
      · subst same
        rw [here, buffer]
        rcases pos with samePos | empty
        · rw [view, samePos]
        · rw [view_of_clean empty, empty, Contents.write_nil]
      · rw [view, there g same]

theorem MirrorsAt.addReference (f : Nat) : MirrorsAt (addReference st f) (addReference sd f) owner := by
  have direct : Fd.addReference sd f =
      Fd.setFile sd f ({ st.files f with count := (st.files f).count + 1 } : FileDescriptor).erase := by
    rw [Fd.addReference, mirrors.files f]
    rfl
  rw [direct]
  obtain ⟨fits, before, word⟩ := mirrors.bounds f
  exact mirrors.change rfl (.inl rfl) ⟨fits, before, word⟩ rfl rfl

theorem MirrorsAt.share (p : Nat) (i : Fin maxFds) (f flag : Nat) :
    MirrorsAt (share st p i f flag) (share sd p i f flag) owner :=
  ((mirrors.addReference f).setFdFlag p i flag).setSlot p i (some f)

/-- A new file has no buffer and mirrors itself. -/
theorem MirrorsAt.allocFd {vnode : Vnode} (type : vnode.type = .file)
    (mounted : vnode.fsInstance) (dentry : Option Nat) :
    MirrorsAt (allocFd st (some vnode) dentry (some ⟨true, true⟩) false)
      (allocFd sd (some vnode) dentry (some ⟨true, true⟩) false) owner := by
  have old : ∀ g, g ≠ st.next → (Fd.allocFd st (some vnode) dentry (some ⟨true, true⟩) false).files g = st.files g :=
    fun g other => (files_setFile st st.next _ g).trans (if_neg other)
  have new : (Fd.allocFd st (some vnode) dentry (some ⟨true, true⟩) false).files st.next =
      ⟨1, some vnode, dentry, some ⟨true, true⟩, 0, false, none⟩ := (files_setFile st st.next _ _).trans (if_pos rfl)
  refine mirrors.one (f := st.next) mirrors.procs mirrors.nextProc mirrors.exited (congrArg (· + 1) mirrors.next)
    (fun g other below => Nat.lt_of_le_of_ne (Nat.le_of_lt_succ below) other) old
    (fun g other => (files_setFile sd sd.next _ g).trans (if_neg (mirrors.next ▸ other))) ?_ (fun _ => ?_) ?_
    (fun _ => congrArg FileDescriptor.pending new) (fun g _ => mirrors.clean g) (fun g same => ?_) ?_
  · rw [new, ← mirrors.next]
    exact (files_setFile sd sd.next _ _).trans (if_pos rfl)
  · rw [new]
    exact ⟨vnode, rfl, type, mounted, rfl⟩
  · rw [new]
    exact ⟨Nat.zero_le _, Nat.zero_le _, Nat.two_pow_pos 64⟩
  · obtain ⟨exists', unreleased⟩ := mirrors.alive g same
    exact ⟨Nat.lt_succ_of_lt exists', unreleased⟩
  · show sd.fs = _
    rw [mirrors.contents]
    cases owner with
    | none => rfl
    | some g =>
      show view st g = st.fs.write _ _
      rw [old g (Nat.ne_of_lt (mirrors.alive g rfl).1), view]

theorem MirrorsAt.log {r r' : Release} (other : ∀ f, owner = some f → r.file ≠ f) :
    MirrorsAt { st with released := st.released ++ [r] } { sd with released := sd.released ++ [r'] } owner := by
  refine ⟨mirrors.procs, mirrors.nextProc, mirrors.exited, mirrors.next, mirrors.files, mirrors.regular, mirrors.bounds,
    mirrors.clean, fun f same => ?_, mirrors.contents⟩
  obtain ⟨exists', unreleased⟩ := mirrors.alive f same
  exact ⟨exists', by rw [releases_append, unreleased, if_neg (other f same)]⟩

end

def writtenBack (st : Files Contents) (f : Nat) (buffer : Option (List UInt8)) : Files Contents :=
  { setFile st f { st.files f with writeBuffer := buffer } with fs := view st f }

section

variable (mirrors : MirrorsAt st sd owner)

include mirrors

/-- A file written back mirrors the direct one without its buffer. -/
theorem MirrorsAt.writtenBack {buffer : Option (List UInt8)} (f : Nat)
    (empty : buffer.getD [] = []) : ∃ owner', owner' ≠ some f ∧ MirrorsAt (writtenBack st f buffer) sd owner' := by
  have here : (Fd.writtenBack st f buffer).files f = { st.files f with writeBuffer := buffer } :=
    (files_setFile st f _ f).trans (if_pos rfl)
  have there : ∀ g, g ≠ f → (Fd.writtenBack st f buffer).files g = st.files g := fun g other =>
    (files_setFile st f _ g).trans (if_neg other)
  have cleaned : ((Fd.writtenBack st f buffer).files f).pending = [] := by rw [here, FileDescriptor.pending, empty]
  have one {owner' : Option Nat} : (∀ g, g ≠ f → owner' ≠ some g → (st.files g).pending = []) →
      (∀ g, owner' = some g → g < st.next ∧ releases st g = 0) →
      sd.fs = (owner'.elim (view st f) fun g => view (Fd.writtenBack st f buffer) g) →
      MirrorsAt (Fd.writtenBack st f buffer) sd owner' := by
    intro others alive contents
    refine mirrors.one mirrors.procs mirrors.nextProc mirrors.exited mirrors.next (fun _ _ => id) there (fun _ _ => rfl)
      ?_ (fun exists' => ?_) ⟨?_, ?_, ?_⟩ (fun _ => cleaned) others alive contents
    · rw [here, mirrors.files f]
      rfl
    · rw [here]
      exact mirrors.regular f exists'
    · rw [cleaned]
      exact Nat.zero_le _
    · rw [cleaned]
      exact Nat.zero_le _
    · rw [here]
      exact (mirrors.bounds f).word
  by_cases owns : owner = some f
  · refine ⟨none, by simp, one (fun g other _ => ?_) (fun g owned => absurd owned (by simp)) ?_⟩
    · exact mirrors.clean g fun this => other (Option.some.inj (owns.symm.trans this)).symm
    · rw [mirrors.contents, owns]
      rfl
  · have unchanged : view st f = st.fs := view_of_clean (mirrors.clean f owns)
    refine ⟨owner, owns, one (fun g _ => mirrors.clean g) mirrors.alive ?_⟩
    rw [mirrors.contents]
    cases owner with
    | none => exact unchanged.symm
    | some g =>
      show view st g = (view st f).write _ _
      rw [there g fun same => owns (by rw [same]), unchanged, view]

theorem MirrorsAt.release_eq (f : Nat) : release idealFile st f =
      { Fd.writtenBack st f none with released := st.released ++ [releaseRecord f (st.files f)] } := by
  rw [Fd.release, Fd.writtenBack]
  by_cases empty : (st.files f).pending = []
  · have nothing : flushOnRelease (st.files f) = none := by
      rw [flushOnRelease]
      split
      · exact if_neg fun all => all.1 empty
      · rfl
    rw [nothing, view_of_clean empty]
  · have owns : owner = some f := by
      by_contra other
      exact empty (mirrors.clean f other)
    obtain ⟨vnode, isVnode, type, -, able⟩ := mirrors.regular f (mirrors.alive f owns).1
    have flushed : flushOnRelease (st.files f) = some (vnode.id, (st.files f).pending, (st.files f).bufferOffset) := by
      rw [flushOnRelease, isVnode, able]
      exact if_pos ⟨empty, type, rfl⟩
    rw [flushed, bufferOffset_eq (mirrors.bounds f)]
    rfl

theorem MirrorsAt.release (f : Nat) : Mirrors (release idealFile st f) (release idealFile sd f) := by
  have direct : Fd.release idealFile sd f =
      { sd with released := sd.released ++ [releaseRecord f (sd.files f)] } := by
    have nothing : flushOnRelease (sd.files f) = none := by
      rw [flushOnRelease]
      split
      · rw [mirrors.files f]
        rfl
      · rfl
    have same : Fd.setFile sd f { sd.files f with writeBuffer := none } = sd := by
      have unchanged : ({ sd.files f with writeBuffer := none } : FileDescriptor) = sd.files f := by
        rw [mirrors.files f]
        rfl
      rw [unchanged, Fd.setFile, Function.update_eq_self]
    rw [Fd.release, nothing]
    rw [same]
  obtain ⟨owner', notOwner, mirrors'⟩ := mirrors.writtenBack f (rfl : (none : Option (List UInt8)).getD [] = [])
  rw [mirrors.release_eq f, direct]
  refine ⟨owner', mirrors'.log fun g same equal => notOwner ?_⟩
  have here : f = g := equal
  rw [here, same]

theorem MirrorsAt.dropReference (f : Nat) : Mirrors (dropReference idealFile st f) (dropReference idealFile sd f) := by
  have less : MirrorsAt (Fd.setFile st f { st.files f with count := (st.files f).count - 1 })
      (Fd.setFile sd f { sd.files f with count := (sd.files f).count - 1 }) owner := by
    have direct : ({ sd.files f with count := (sd.files f).count - 1 } : FileDescriptor) =
        ({ st.files f with count := (st.files f).count - 1 } : FileDescriptor).erase := by
      rw [mirrors.files f]
      rfl
    rw [direct]
    obtain ⟨fits, before, word⟩ := mirrors.bounds f
    exact mirrors.change rfl (.inl rfl) ⟨fits, before, word⟩ rfl rfl
  have count : ((Fd.setFile sd f { sd.files f with count := (sd.files f).count - 1 }).files f).count =
      ((Fd.setFile st f { st.files f with count := (st.files f).count - 1 }).files f).count := by
    rw [less.files f]
    rfl
  rw [Fd.dropReference, Fd.dropReference]
  rw [count]
  split
  · exact less.release f
  · exact ⟨owner, less⟩

end

end Relation

/-! ### Calls on the tables -/

section Tables

variable {st sd : Files Contents} {p : Nat}

section

variable (mirrors : Mirrors st sd)

include mirrors

theorem Mirrors.dupFrom (oldfd : Int) (start flag : Nat) :
    Agree (dupFrom st p oldfd start flag) (dupFrom sd p oldfd start flag) := by
  obtain ⟨owner, mirrors⟩ := mirrors
  rw [Fd.dupFrom, Fd.dupFrom, mirrors.lookup_eq, mirrors.lowestFree_eq]
  rcases lookup st p oldfd with _ | ⟨i, f⟩
  · exact ⟨rfl, owner, mirrors⟩
  · rcases lowestFree st p start with _ | newfd
    · exact ⟨rfl, owner, mirrors⟩
    · exact ⟨rfl, owner, mirrors.share p newfd f flag⟩

theorem Mirrors.syscallClose (fd : Int) : Agree (syscallClose idealFile st p fd) (syscallClose idealFile sd p fd) := by
  obtain ⟨owner, mirrors⟩ := mirrors
  rw [Fd.syscallClose, Fd.syscallClose, mirrors.lookup_eq]
  rcases lookup st p fd with _ | ⟨i, f⟩
  · exact ⟨rfl, owner, mirrors⟩
  · exact ⟨rfl, (mirrors.setSlot p i none).dropReference f⟩

theorem Mirrors.syscallDup2 (oldfd newfd : Int) :
    Agree (syscallDup2 idealFile st p oldfd newfd) (syscallDup2 idealFile sd p oldfd newfd) := by
  obtain ⟨owner, same⟩ := mirrors
  rw [Fd.syscallDup2, Fd.syscallDup2, same.lookup_eq]
  rcases lookup st p oldfd with _ | ⟨j, g⟩
  · exact ⟨rfl, owner, same⟩
  · rcases slotOf newfd with _ | i
    · exact ⟨rfl, owner, same⟩
    · dsimp only
      split
      · exact ⟨rfl, owner, same⟩
      · have closed : Mirrors (if held st (p, i) ≠ none then (Fd.syscallClose idealFile st p newfd).2 else st)
            (if held sd (p, i) ≠ none then (Fd.syscallClose idealFile sd p newfd).2 else sd) := by
          rw [same.held_eq]
          split
          · exact (Mirrors.syscallClose ⟨owner, same⟩ newfd).2
          · exact ⟨owner, same⟩
        revert closed
        generalize (if held st (p, i) ≠ none then (Fd.syscallClose idealFile st p newfd).2 else st) = st'
        rintro ⟨owner', mirrors'⟩
        rw [mirrors'.lookup_eq]
        rcases lookup st' p oldfd with _ | ⟨j, f⟩
        · exact ⟨rfl, owner', mirrors'⟩
        · exact ⟨rfl, owner', mirrors'.share p i f 0⟩

theorem Mirrors.syscallOpen (target : Option OpenTarget) (cloexec procEntry : Bool)
    (regular : ∀ t, target = some t → t.vnode.type = .file ∧ t.vnode.fsInstance ∧ t.ops = some ⟨true, true⟩) :
    Agree (syscallOpen idealFile st p target false cloexec procEntry)
      (syscallOpen idealFile sd p target false cloexec procEntry) := by
  obtain ⟨owner, mirrors⟩ := mirrors
  rcases target with _ | target
  · exact ⟨rfl, owner, mirrors⟩
  · obtain ⟨type, mounted, able⟩ := regular target rfl
    have notTruncated : ¬ (false ∧ target.vnode.type = .file) := fun both => nomatch both.1
    rw [Fd.syscallOpen, Fd.syscallOpen]
    simp only [if_neg notTruncated, mirrors.lowestFree_eq]
    rcases lowestFree st p 0 with _ | i
    · exact ⟨rfl, owner, mirrors⟩
    · dsimp only
      rw [able, mirrors.next]
      have opened := ((mirrors.allocFd type mounted (some target.dentry)).setFdFlag p i
        (if cloexec then 1 else 0)).setSlot p i (some st.next)
      split
      · exact ⟨rfl, owner, opened⟩
      · refine ⟨rfl, owner, (opened.setSlot p i none).log fun f same => ?_⟩
        exact Nat.ne_of_gt (mirrors.alive f same).1

end

theorem Mirrors.cloneSlots (mirrors : Mirrors st sd) (parent child : Nat) (slots : List (Fin maxFds)) :
    Mirrors (slots.foldl (cloneSlot parent child) st) (slots.foldl (cloneSlot parent child) sd) := by
  refine List.foldl_rel mirrors fun i _ st sd ⟨owner, mirrors⟩ => ?_
  rw [cloneSlot, cloneSlot, mirrors.held_eq, mirrors.fdFlag_eq]
  rcases held st (parent, i) with _ | f
  · exact ⟨owner, mirrors.setSlot child i none⟩
  · exact ⟨owner, mirrors.share child i f _⟩

theorem Mirrors.forkProcess (mirrors : Mirrors st sd) (outcome : ForkOutcome) :
    Mirrors (forkProcess st p outcome) (forkProcess sd p outcome) := by
  obtain ⟨owner, mirrors⟩ := mirrors
  cases outcome with
  | noProcess => exact ⟨owner, mirrors⟩
  | beforeFds => exact ⟨owner, mirrors.createProcess⟩
  | cloned =>
    rw [Fd.forkProcess, Fd.forkProcess, mirrors.nextProc]
    exact Mirrors.cloneSlots ⟨owner, mirrors.createProcess⟩ p st.nextProc _

theorem Mirrors.execve (mirrors : Mirrors st sd) (success : Bool) :
    Mirrors (execve idealFile st p success) (execve idealFile sd p success) := by
  rw [Fd.execve, Fd.execve]
  cases success with
  | false => exact mirrors
  | true =>
    rw [if_pos rfl, if_pos rfl]
    refine List.foldl_rel mirrors fun i _ st sd mirrors => ?_
    obtain ⟨owner, same⟩ := mirrors
    rw [closeOnExec, closeOnExec, same.held_eq, same.fdFlag_eq]
    split
    · exact (Mirrors.syscallClose ⟨owner, same⟩ _).2
    · exact ⟨owner, same⟩

theorem Mirrors.freeSlots (mirrors : Mirrors st sd) (table : FdTable) (slots : List (Fin maxFds)) :
    Mirrors (slots.foldl (freeSlot idealFile table) st) (slots.foldl (freeSlot idealFile table) sd) := by
  refine List.foldl_rel mirrors fun i _ st sd ⟨owner, mirrors⟩ => ?_
  rw [freeSlot, freeSlot]
  cases table.fds i with
  | none => exact ⟨owner, mirrors⟩
  | some f => exact mirrors.dropReference f

theorem Mirrors.reap (mirrors : Mirrors st sd) (child : Nat) :
    Mirrors (reap idealFile st child) (reap idealFile sd child) := by
  obtain ⟨owner, same⟩ := mirrors
  rw [Fd.reap, Fd.reap, same.procs, same.exited]
  rcases st.procs child with _ | table
  · exact ⟨owner, same⟩
  · dsimp only
    split
    · rw [freeFdtable, freeFdtable]
      have freed := Mirrors.freeSlots ⟨owner, same⟩ table (List.finRange maxFds)
      revert freed
      rintro ⟨owner', freed⟩
      exact ⟨owner', freed.tables rfl rfl rfl rfl rfl rfl rfl (by rw [freed.procs]) freed.nextProc freed.exited⟩
    · exact ⟨owner, same⟩

end Tables

/-! ### Reading and writing -/

section ReadWrite

variable {st sd : Files Contents} {p : Nat} {owner : Option Nat} {f : Nat}

variable {data : List UInt8} {fd : Int} {whence : Nat}

theorem MirrorsAt.writes {st' sd' : Files Contents} (mirrors : MirrorsAt st sd owner) (others : OthersClean st f)
    (exists' : f < st.next) (unreleased : releases st f = 0)
    (writes : Writes f data st st') (direct : Writes f data sd sd') (noBuffer : (sd'.files f).writeBuffer = none) :
    MirrorsAt st' sd' (some f) := by
  have position : (sd.files f).pos = (st.files f).pos := by rw [mirrors.files f]; rfl
  have noBytes : (sd.files f).pending = [] := by rw [mirrors.files f]; rfl
  have noBytes' : (sd'.files f).pending = [] := by rw [FileDescriptor.pending, noBuffer]; rfl
  refine mirrors.one (f := f) ?_ ?_ ?_ ?_ (fun g _ => writes.next ▸ id) writes.others direct.others ?_ (fun _ => ?_)
    writes.bounds (absurd rfl) (fun g other _ => others g other) (fun g same => ?_) ?_
  · rw [direct.procs, writes.procs, mirrors.procs]
  · rw [direct.nextProc, writes.nextProc, mirrors.nextProc]
  · rw [direct.exited, writes.exited, mirrors.exited]
  · rw [direct.next, writes.next, mirrors.next]
  · have erased : (sd'.files f).erase = sd'.files f := by
      rw [FileDescriptor.erase, ← noBuffer]
    rw [← erased, direct.self, writes.self, mirrors.files f]
    rfl
  · obtain ⟨vnode, isVnode, type, mounted, able⟩ := mirrors.regular f exists'
    exact ⟨vnode, writes.vnode.trans isVnode, type, mounted, writes.ops.trans able⟩
  · cases same
    rw [writes.next]
    exact ⟨exists', by rw [releases, writes.released]; exact unreleased⟩
  · show sd'.fs = view st' f
    rw [writes.view, ← mirrors.view_eq others, ← view_of_clean noBytes', direct.view, view_of_clean noBytes, position]

theorem MirrorsAt.found {i : Fin maxFds} (mirrors : MirrorsAt st sd owner) (sound : Sound st)
    (here : lookup st p fd = some (i, f)) : (f < st.next ∧ releases st f = 0) ∧ ∃ vnode : Vnode,
      vnode.type = .file ∧ vnode.fsInstance ∧ (st.files f).vnode = some vnode ∧ (st.files f).ops = some ⟨true, true⟩ ∧
      (sd.files f).pos = (st.files f).pos ∧ (sd.files f).vnode = some vnode ∧
      (sd.files f).ops = some ⟨true, true⟩ ∧ (sd.files f).writeBuffer = none := by
  have points := (lookup_eq_some here).2
  have inside := sound.mem_places (procs_of_held points) i
  have exists' := sound.counted.known _ inside f points
  obtain ⟨vnode, isVnode, type, mounted, able⟩ := mirrors.regular f exists'
  refine ⟨⟨exists', sound.counted.released_eq_zero inside points⟩, vnode, type, mounted, isVnode, able, ?_⟩
  rw [mirrors.files f, ← isVnode, ← able]
  exact ⟨rfl, rfl, rfl, rfl⟩

section

variable (mirrors : MirrorsAt st sd owner)

include mirrors

theorem MirrorsAt.writeWith (sound : Sound st) (quiet : Quiet st p (.write fd data)) :
    Agree (writeWith bufferedWrite idealFile st p fd data) (writeWith writeThrough idealFile sd p fd data) := by
  rw [Fd.writeWith, Fd.writeWith, mirrors.lookup_eq]
  rcases here : lookup st p fd with _ | ⟨i, f⟩
  · exact ⟨rfl, owner, mirrors⟩
  · obtain ⟨others, word⟩ := quiet i f here
    obtain ⟨⟨exists', unreleased⟩, vnode, type, mounted, isVnode, able, directPos, directVnode, directOps, noBuffer⟩ :=
      mirrors.found sound here
    have directEmpty : (sd.files f).pending = [] := by rw [FileDescriptor.pending, noBuffer]; rfl
    simp only [isVnode, able, directVnode, directOps, if_true, if_pos (And.intro type mounted)]
    obtain ⟨st', written, writes⟩ := bufferedWrite_writes (mirrors.bounds f) word vnode
    have directWord : (sd.files f).pos + data.length < 2 ^ 64 := by rw [directPos]; exact word
    rw [written, writeThrough_eq directWord]
    refine ⟨rfl, some f, mirrors.writes others exists' unreleased writes (writeThrough_writes directEmpty directWord) ?_⟩
    rw [files_setFile, if_pos rfl, ← noBuffer]

/-- writev answers as without buffers. -/
theorem MirrorsAt.writevWith (sound : Sound st) {iov : List (List UInt8)} (quiet : Quiet st p (.writev fd iov)) :
    Agree (writevWith bufferedPiece idealFile st p fd iov) (writevWith plainPiece idealFile sd p fd iov) := by
  rw [Fd.writevWith, Fd.writevWith, mirrors.lookup_eq]
  rcases here : lookup st p fd with _ | ⟨i, f⟩
  · exact ⟨rfl, owner, mirrors⟩
  · obtain ⟨others, word⟩ := quiet i f here
    obtain ⟨⟨exists', unreleased⟩, vnode, type, mounted, isVnode, able, directPos, directVnode, directOps, unbuffered⟩ :=
      mirrors.found sound here
    have directReady : (sd.files f).writeBuffer = none ∧ (sd.files f).pos < 2 ^ 64 :=
      ⟨unbuffered, directPos ▸ (mirrors.bounds f).word⟩
    simp only [isVnode, able, directVnode, directOps, if_true, if_pos (And.intro type mounted)]
    split
    · exact ⟨rfl, owner, mirrors⟩
    · obtain ⟨st', written, writes, -⟩ := writePieces_writes (fun _ ready => ready) iov
        (fun data _ st ready _ word => by
          obtain ⟨st', taken, writes⟩ := bufferedPiece_writes ready word vnode
          exact ⟨st', taken, writes, writes.bounds⟩) st 0 (mirrors.bounds f) word
      -- without a buffer the open file stays without one
      obtain ⟨sd', directWritten, directWrites, noBuffer, -⟩ := writePieces_writes
        (fun sd (ready : (sd.files f).writeBuffer = none ∧ (sd.files f).pos < 2 ^ 64) => by
          have empty : (sd.files f).pending = [] := by rw [FileDescriptor.pending, ready.1]; rfl
          exact ⟨by rw [empty]; exact Nat.zero_le _, by rw [empty]; exact Nat.zero_le _, ready.2⟩)
        iov (fun data _ sd ready some word => by
          have empty : (sd.files f).pending = [] := by rw [FileDescriptor.pending, ready.1]; rfl
          refine ⟨_, plainPiece_eq some word vnode, writeThrough_writes empty word, ?_⟩
          rw [files_setFile, if_pos rfl]
          exact ⟨ready.1, word⟩) sd 0 directReady (by rw [directPos]; exact word)
      rw [written, directWritten]
      exact ⟨rfl, some f, mirrors.writes others exists' unreleased writes directWrites noBuffer⟩

theorem MirrorsAt.setPos (empty : (st.files f).pending = []) {pos : Nat} (word : pos < 2 ^ 64) :
    MirrorsAt (Fd.setFile st f { st.files f with pos := pos }) (Fd.setFile sd f { sd.files f with pos := pos })
      owner := by
  have direct : ({ sd.files f with pos := pos } : FileDescriptor) =
      ({ st.files f with pos := pos } : FileDescriptor).erase := by
    rw [mirrors.files f]
    rfl
  have noBytes : ({ st.files f with pos := pos } : FileDescriptor).pending = [] := empty
  rw [direct]
  refine mirrors.change rfl (.inr empty) ⟨?_, ?_, word⟩ rfl rfl
  · rw [noBytes]
    exact Nat.zero_le _
  · rw [noBytes]
    exact Nat.zero_le _

theorem MirrorsAt.advance (empty : (st.files f).pending = []) (count : Nat) :
    MirrorsAt (advance st f count) (advance sd f count) owner := by
  have directPos : (sd.files f).pos = (st.files f).pos := by rw [mirrors.files f]; rfl
  rw [Fd.advance, Fd.advance, directPos]
  exact mirrors.setPos empty (u64_lt _)

theorem MirrorsAt.syscallRead (sound : Sound st) {count : Nat} (quiet : Quiet st p (.read fd count)) :
    Agree (syscallRead idealFile st p fd count) (syscallRead idealFile sd p fd count) := by
  rw [Fd.syscallRead, Fd.syscallRead, mirrors.lookup_eq]
  rcases here : lookup st p fd with _ | ⟨i, f⟩
  · exact ⟨rfl, owner, mirrors⟩
  · have clean := quiet i f here
    obtain ⟨-, vnode, type, mounted, isVnode, able, directPos, directVnode, directOps, -⟩ := mirrors.found sound here
    have sameFile : sd.fs = st.fs := by
      rw [mirrors.view_eq fun g _ => clean g, view_of_clean (clean f)]
    have notDir : ¬ vnode.type = .dir := by rw [type]; decide
    simp only [isVnode, able, directVnode, directOps, if_neg notDir, if_true]
    by_cases nothing : count = 0
    · simp only [if_pos nothing]
      exact ⟨rfl, owner, mirrors⟩
    simp only [if_neg nothing]
    have sameRead : idealFile.read sd.fs vnode.id count (sd.files f).pos =
        (.ok (st.fs.read count (st.files f).pos), sd.fs) := by
      rw [directPos]
      show (Except.ok (sd.fs.read count (st.files f).pos), sd.fs) = _
      rw [sameFile]
    have read : idealFile.read st.fs vnode.id count (st.files f).pos =
        (.ok (st.fs.read count (st.files f).pos), st.fs) := rfl
    rw [read, sameRead]
    exact ⟨rfl, owner, mirrors.advance (clean f) _⟩

end

theorem seekTarget_size (notEnd : whence ≠ 2) (pos size size' : Nat) (offset : Int) :
    seekTarget pos size offset whence = seekTarget pos size' offset whence := by
  match whence with
  | 0 => simp only [seekTarget]
  | 1 => simp only [seekTarget]
  | 2 => exact absurd rfl notEnd
  | _ + 3 => simp only [seekTarget]

theorem MirrorsAt.flushOnSeek {vnode : Vnode} (mirrors : MirrorsAt st sd owner) (type : vnode.type = .file)
    (able : (st.files f).ops = some ⟨true, true⟩) :
    ∃ st' owner', flushOnSeek idealFile st f vnode = (none, st') ∧ MirrorsAt st' sd owner' ∧
      (st'.files f).pending = [] ∧ (st'.files f).pos = (st.files f).pos ∧
      (OthersClean st f → st'.fs = sd.fs) := by
  by_cases empty : (st.files f).pending = []
  · have nothing : ¬ ((st.files f).pending ≠ [] ∧ vnode.type = .file) := fun both => both.1 empty
    rw [Fd.flushOnSeek, if_neg nothing]
    refine ⟨st, owner, rfl, mirrors, empty, rfl, fun others => ?_⟩
    rw [mirrors.view_eq others, view_of_clean empty]
  · have taken : ¬ (((st.files f).pending.length : Int) ≤ 0) := by
      have := List.length_pos_iff.mpr empty
      omega
    have whole : Fd.flushOnSeek idealFile st f vnode = (none, Fd.writtenBack st f (some [])) := by
      have canWrite : (some (VopsFile.mk true true)).any (·.write) := rfl
      rw [Fd.flushOnSeek, if_pos ⟨empty, type⟩, able, if_pos canWrite, writeBack, bufferOffset_eq (mirrors.bounds f)]
      exact if_neg taken
    rw [whole]
    obtain ⟨owner', -, mirrors'⟩ := mirrors.writtenBack f (rfl : (some ([] : List UInt8)).getD [] = [])
    have here : (Fd.writtenBack st f (some [])).files f = { st.files f with writeBuffer := some [] } :=
      (files_setFile st f _ f).trans (if_pos rfl)
    refine ⟨_, owner', rfl, mirrors', ?_, ?_, fun others => ?_⟩
    · rw [here]
      rfl
    · rw [here]
    · rw [mirrors.view_eq others]
      rfl

/-- lseek answers as without buffers. -/
theorem MirrorsAt.syscallLseek (mirrors : MirrorsAt st sd owner) (sound : Sound st) {offset : Int}
    (quiet : Quiet st p (.lseek fd offset whence)) :
    Agree (syscallLseek idealFile st p fd offset whence) (syscallLseek idealFile sd p fd offset whence) := by
  rw [Fd.syscallLseek, Fd.syscallLseek, mirrors.lookup_eq]
  rcases here : lookup st p fd with _ | ⟨i, f⟩
  · exact ⟨rfl, owner, mirrors⟩
  · have others := quiet i f here
    obtain ⟨-, vnode, type, mounted, isVnode, able, directPos, directVnode, -⟩ := mirrors.found sound here
    have seekable : ¬ (vnode.type = .fifo ∨ vnode.type = .sock) := by rw [type]; decide
    have directFlush : Fd.flushOnSeek idealFile sd f vnode = (none, sd) := by
      refine if_neg fun both => both.1 ?_
      rw [mirrors.files f]
      rfl
    obtain ⟨st', owner', flush, mirrors', empty, samePos, sameFile⟩ := mirrors.flushOnSeek type able
    simp only [isVnode, directVnode, if_neg seekable, flush, directFlush, directPos, samePos]
    have sameTarget : seekTarget (st.files f).pos (idealFile.size sd.fs vnode.id) offset whence =
        seekTarget (st.files f).pos (idealFile.size st'.fs vnode.id) offset whence := by
      by_cases isEnd : whence = 2
      · rw [sameFile (others isEnd)]
      · exact seekTarget_size isEnd _ _ _ _
    rw [sameTarget]
    cases seekTarget (st.files f).pos (idealFile.size st'.fs vnode.id) offset whence with
    | none => exact ⟨rfl, owner', mirrors'⟩
    | some target =>
      have word : (target % 2 ^ 64).toNat < 2 ^ 64 := by omega
      have moved := mirrors'.setPos empty word
      dsimp only at moved ⊢
      rw [directVnode] at moved
      exact ⟨rfl, owner', moved⟩

end ReadWrite

/-! ### Runs -/

section Runs

variable {st sd : Files Contents} {p : Nat}

/-- **Step**: a quiet call answers as without buffers. -/
theorem Mirrors.perform (mirrors : Mirrors st sd) (sound : Sound st) {call : Call} (quiet : Quiet st p call) :
    Agree (perform idealFile st p call) (performDirect idealFile sd p call) := by
  cases call with
  | create =>
    obtain ⟨owner, mirrors⟩ := mirrors
    exact ⟨rfl, owner, mirrors.createProcess⟩
  | openFile target trunc cloexec procEntry =>
    obtain ⟨notTruncated, regular⟩ := quiet
    subst notTruncated
    exact (mirrors.syscallOpen (p := p) target cloexec procEntry regular).map Answer.value
  | pipe2 cloexec rvnode wvnode => exact quiet.elim
  | socket created cloexec => exact quiet.elim
  | accept fd refused => exact quiet.elim
  | dup fd =>
    exact (mirrors.dupFrom (p := p) fd 0 0).map Answer.value
  | dup2 oldfd newfd =>
    exact (mirrors.syscallDup2 (p := p) oldfd newfd).map Answer.value
  | dupfd fd arg =>
    exact (mirrors.dupFrom (p := p) fd arg.toNat 0).map Answer.value
  | dupfdCloexec fd arg =>
    exact (mirrors.dupFrom (p := p) fd arg.toNat 1).map Answer.value
  | fork outcome =>
    refine ⟨?_, mirrors.forkProcess outcome⟩
    obtain ⟨owner, same⟩ := mirrors
    show Answer.value (st.nextProc : Int) = Answer.value (sd.nextProc : Int)
    rw [same.nextProc]
  | close fd =>
    exact (mirrors.syscallClose (p := p) fd).map Answer.value
  | execve success => exact ⟨rfl, mirrors.execve success⟩
  | exit =>
    obtain ⟨owner, same⟩ := mirrors
    exact ⟨rfl, owner, same.tables rfl rfl rfl rfl rfl rfl rfl same.procs same.nextProc (by
      show Function.update sd.exited p true = Function.update st.exited p true
      rw [same.exited])⟩
  | reap child => exact ⟨rfl, mirrors.reap child⟩
  | write fd data =>
    obtain ⟨owner, same⟩ := mirrors
    exact (same.writeWith sound quiet).map fun s => Answer.value (toInt s)
  | writev fd iov =>
    obtain ⟨owner, same⟩ := mirrors
    exact (same.writevWith sound quiet).map Answer.value
  | read fd count =>
    obtain ⟨owner, same⟩ := mirrors
    obtain ⟨answer, mirrors'⟩ := same.syscallRead sound quiet
    show Agree (answerRead _) (answerRead _)
    revert answer mirrors'
    rcases Fd.syscallRead idealFile st p fd count with ⟨_ | _, st'⟩
    · rcases Fd.syscallRead idealFile sd p fd count with ⟨_ | _, sd'⟩
      · exact fun answer mirrors' => ⟨congrArg Answer.value (Except.error.inj answer), mirrors'⟩
      · exact fun answer => nomatch answer
    · rcases Fd.syscallRead idealFile sd p fd count with ⟨_ | _, sd'⟩
      · exact fun answer => nomatch answer
      · exact fun answer mirrors' => ⟨congrArg Answer.bytes (Except.ok.inj answer), mirrors'⟩
  | lseek fd offset whence =>
    obtain ⟨owner, same⟩ := mirrors
    exact (same.syscallLseek sound quiet).map Answer.value

/-- **Run**: every quiet run answers as without buffers. -/
theorem Mirrors.run (calls : List (Nat × Call)) : ∀ st sd : Files Contents, Mirrors st sd → Sound st →
    QuietRun st calls → Agree (run (Fd.perform idealFile) st calls) (run (performDirect idealFile) sd calls) := by
  induction calls with
  | nil => exact fun st sd mirrors _ _ => ⟨rfl, mirrors⟩
  | cons call rest ih =>
    intro st sd mirrors sound quiet
    obtain ⟨p, call⟩ := call
    have first : Agree (step (Fd.perform idealFile) st p call) (step (performDirect idealFile) sd p call) := by
      obtain ⟨owner, same⟩ := mirrors
      rw [step, step, same.procs, same.exited]
      by_cases active : (st.procs p).isSome ∧ st.exited p = false
      · rw [if_pos active, if_pos active]
        exact Mirrors.perform ⟨owner, same⟩ sound (quiet.1 active)
      · rw [if_neg active, if_neg active]
        exact ⟨rfl, owner, same⟩
    obtain ⟨answers, mirrors'⟩ := ih _ _ first.2 (sound.step idealFile call) quiet.2
    exact ⟨congrArg₂ List.cons first.1 answers, mirrors'⟩

theorem Mirrors.start (file : Contents) : Mirrors (start file) (start file) :=
  ⟨none, rfl, rfl, rfl, rfl, fun _ => rfl, fun f exists' => absurd exists' (Nat.not_lt_zero f),
    fun _ => ⟨Nat.zero_le _, Nat.zero_le _, Nat.two_pow_pos 64⟩, fun _ _ => rfl, fun _ none => (nomatch none), rfl⟩

/-- **The buffers are not seen in a quiet run**: all calls answer as in the unbuffered execution, and once
no descriptor is left the file is that of the unbuffered execution. -/
theorem run_transparent (file : Contents) (calls : List (Nat × Call)) (quiet : QuietRun (start file) calls) :
    (run (perform idealFile) (start file) calls).1 = (run (performDirect idealFile) (start file) calls).1 ∧
    ((∀ slot, held (run (perform idealFile) (start file) calls).2 slot = none) →
      (run (perform idealFile) (start file) calls).2.fs = (run (performDirect idealFile) (start file) calls).2.fs) := by
  obtain ⟨answers, owner, mirrors⟩ := Mirrors.run calls _ _ (Mirrors.start file) (Sound.start file) quiet
  refine ⟨answers, fun closed => ?_⟩
  have sound := Sound.run idealFile calls _ (Sound.start file)
  rw [mirrors.contents]
  cases owner with
  | none => rfl
  | some f =>
    -- the owner was not released, so a slot points to it
    obtain ⟨exists', unreleased⟩ := mirrors.alive f rfl
    have none := sound.counted.released f exists'
    rw [unreleased] at none
    have noRefs : Lib.refs (held (Fd.run (perform idealFile) (start file) calls).2)
        (places (Fd.run (perform idealFile) (start file) calls).2) f = 0 := by
      rw [Lib.refs, Finset.card_eq_zero, Finset.filter_eq_empty_iff]
      intro slot _ points
      rw [closed slot] at points
      cases points
    rw [if_pos noRefs] at none
    cases none

/-! ### Two runs -/

theorem quietRun_snoc (p : Nat) (call : Call) (calls : List (Nat × Call)) : ∀ st : Files Contents, QuietRun st calls →
    Quiet (run (perform idealFile) st calls).2 p call → QuietRun st (calls ++ [(p, call)]) := by
  induction calls with
  | nil => exact fun st _ last => ⟨fun _ => last, trivial⟩
  | cons first rest ih => exact fun st quiet last => ⟨quiet.1, ih _ quiet.2 last⟩

theorem Mirrors.othersClean (mirrors : Mirrors st sd) (one : st.next = 1) : OthersClean st 0 := by
  obtain ⟨owner, mirrors⟩ := mirrors
  intro g other
  refine mirrors.clean g fun same => ?_
  have exists' := (mirrors.alive g same).1
  omega

def emptyFile : Contents := ⟨fun _ => 0, 0⟩

def openCall : Nat × Call := (0, .openFile (some ⟨⟨7, .file, true⟩, 1, some ⟨true, true⟩⟩) false false true)

def writeSeekRead : List (Nat × Call) := [openCall] ++ [(0, .write 0 [1, 2])] ++ [(0, .lseek 0 0 0)] ++ [(0, .read 0 2)]

theorem run_transparent_writeSeekRead :
    (run (perform idealFile) (start emptyFile) writeSeekRead).1 =
      (run (performDirect idealFile) (start emptyFile) writeSeekRead).1 := by
  have opened : QuietRun (start emptyFile) [openCall] := by
    refine ⟨fun _ => ⟨rfl, ?_⟩, trivial⟩
    rintro t ⟨⟩
    exact ⟨rfl, rfl, rfl⟩
  have clean := (Mirrors.run _ _ _ (Mirrors.start emptyFile) (Sound.start emptyFile) opened).2.othersClean rfl
  have written := quietRun_snoc 0 (.write 0 [1, 2]) _ _ opened fun i f here => by
    have first : lookup (run (perform idealFile) (start emptyFile) [openCall]).2 0 0 = some (0, 0) := by decide +kernel
    cases first.symm.trans here
    exact ⟨clean, by decide +kernel⟩
  have sought := quietRun_snoc 0 (.lseek 0 0 0) _ _ written fun _ _ _ isEnd => nomatch isEnd
  have clean' := (Mirrors.run _ _ _ (Mirrors.start emptyFile) (Sound.start emptyFile) sought).2.othersClean
    (by decide +kernel)
  refine (run_transparent emptyFile writeSeekRead (quietRun_snoc 0 (.read 0 2) _ _ sought fun _ _ _ g => ?_)).1
  by_cases this : g = 0
  · subst this
    decide +kernel
  · exact clean' g this

def writeThenRead : List (Nat × Call) :=
  [openCall, openCall, (0, .write 0 [1]), (0, .read 1 1)]

/-- The read returns nothing, where the unbuffered execution returns the byte. -/
theorem read_misses_write :
    (run (perform idealFile) (start emptyFile) writeThenRead).1 ≠
      (run (performDirect idealFile) (start emptyFile) writeThenRead).1 := by
  decide +kernel

end Runs

end Voxia.Fd
