/-
**The registries of file systems, libraries and network devices.**

`retrieve_filesystem` and `library_load` take the first entry of a list whose name begins with the name asked for
(`strncmp` with the length of that name); `lookup_netdev` takes the latest device in the bucket of the name's hash.
Registrations are listed with the latest first. A network device's name is one that fits its array.
-/

import Voxia.Lib.Bytes
import Mathlib.Data.List.Nodup
import Mathlib.Logic.Function.Basic

namespace Voxia.Registry

open Function Lib List

/-! ### Searches -/

/-- Every entry that is named meets the test, and one that meets it and is not named stands behind one that
is. -/
def Unshadowed {ρ : Type} (meets named : ρ → Prop) (order : List ρ) : Prop :=
  (∀ e ∈ order, named e → meets e) ∧
    ∀ before e after, order = before ++ e :: after → meets e → ¬ named e → ∃ e' ∈ before, named e'

variable {ρ : Type} {order : List ρ}

/-- A search by the test finds the entry that is named if and only if that entry is not shadowed. -/
theorem find?_eq_find?_iff {meets named : ρ → Prop} [DecidablePred meets] [DecidablePred named]
    (unique : ∀ a ∈ order, ∀ b ∈ order, named a → named b → a = b) :
    order.find? (decide <| meets ·) = order.find? (decide <| named ·) ↔ Unshadowed meets named order := by
  constructor
  · intro same
    refine ⟨fun e member isNamed => ?_, fun before e after split meetsE notNamed => ?_⟩
    · cases found : order.find? (decide <| named ·) with
      | none => exact absurd isNamed (by simpa using List.find?_eq_none.mp found e member)
      | some e' =>
        have isNamed' : named e' := by simpa using List.find?_some found
        rw [unique e member e' (mem_of_find?_eq_some found) isNamed isNamed']
        simpa using List.find?_some (same.trans found)
    · cases ahead : before.find? (decide <| meets ·) with
      | none =>
        -- then `e` itself is what the search finds
        have found : order.find? (decide <| meets ·) = some e := by
          rw [split, List.find?_append, ahead, Option.none_or, List.find?_cons_of_pos (by simpa using meetsE)]
        exact absurd (by simpa using List.find?_some (same.symm.trans found)) notNamed
      | some e' =>
        have found : order.find? (decide <| meets ·) = some e' := by
          rw [split, List.find?_append, ahead, Option.some_or]
        exact ⟨e', mem_of_find?_eq_some ahead, by simpa using List.find?_some (same.symm.trans found)⟩
  · rintro ⟨meetsNamed, ahead⟩
    cases found : order.find? (decide <| meets ·) with
    | none =>
      refine (List.find?_eq_none.mpr fun e member isNamed => ?_).symm
      exact List.find?_eq_none.mp found e member (by simpa using meetsNamed e member (by simpa using isNamed))
    | some e =>
      obtain ⟨meetsE, before, after, split, none'⟩ := List.find?_eq_some_iff_append.mp found
      have missed : ∀ e' ∈ before, ¬ named e' := fun e' member isNamed => by
        have inOrder : e' ∈ order := split ▸ mem_append_left _ member
        simpa [meetsNamed e' inOrder isNamed] using none' e' member
      have isNamed : named e := by
        by_contra notNamed
        obtain ⟨e', member, isNamed⟩ := ahead before e after split (by simpa using meetsE) notNamed
        exact missed e' member isNamed
      exact (List.find?_eq_some_iff_append.mpr
        ⟨by simpa using isNamed, before, after, split, fun e' member => by simpa using missed e' member⟩).symm

/-! ### Names -/

/-- A C string: the bytes before its terminator. -/
structure Name where
  bytes : List UInt8
  nonzero : 0 ∉ bytes
  deriving DecidableEq

def Name.cStr (name : Name) : Bytes := fun i => name.bytes.getD i 0

def Name.strlen (name : Name) : Nat := name.bytes.length

/-- The loop of `strncmp`, at byte `i` with `n` bytes to go. -/
def strncmpFrom (s1 s2 : Bytes) (i : Nat) : Nat → Int
  | 0 => 0
  | n + 1 =>
    if s1 i ≠ s2 i then (s1 i).toNat - (s2 i).toNat
    else if s1 i = 0 then 0
    else strncmpFrom s1 s2 (i + 1) n

def strncmp (s1 s2 : Bytes) (n : Nat) : Int := strncmpFrom s1 s2 0 n

def hash (name : Name) (maxSize : Nat) : Nat :=
  let h := name.bytes.foldl (fun h byte => (h ^^^ byte.toUInt64) * 0x9e3779b97f4a7c15) (0xcbf29ce484222325 : UInt64)
  let h := h ^^^ (h >>> 32)
  if maxSize = 0 then h.toNat else h.toNat % maxSize

theorem Name.cStr_ne_zero (name : Name) {i : Nat} (inside : i < name.strlen) : name.cStr i ≠ 0 := by
  intro zero
  rw [cStr, getD_eq_getElem _ _ inside] at zero
  exact name.nonzero (zero ▸ getElem_mem inside)

/-- Against the bytes of a name, `strncmp` is 0 if and only if all of them agree. -/
theorem strncmpFrom_eq_zero_iff (s : Bytes) (name : Name) (n : Nat) :
    ∀ i, i + n ≤ name.strlen → (strncmpFrom s name.cStr i n = 0 ↔ ∀ j < n, s (i + j) = name.cStr (i + j)) := by
  induction n with
  | zero => exact fun i _ => ⟨fun _ j inside => absurd inside (Nat.not_lt_zero j), fun _ => rfl⟩
  | succ n ih =>
    intro i within
    have rest := ih (i + 1) (by omega)
    rw [strncmpFrom]
    by_cases differ : s i ≠ name.cStr i
    · have apart : ((s i).toNat : Int) - ((name.cStr i).toNat : Int) ≠ 0 := fun zero =>
        differ (UInt8.toNat_inj.mp (by omega))
      rw [if_pos differ]
      exact ⟨fun zero => absurd zero apart, fun all => absurd (all 0 (Nat.succ_pos n)) differ⟩
    · have same := not_not.mp differ
      rw [if_neg differ, if_neg (by rw [same]; exact name.cStr_ne_zero (by omega)), rest]
      constructor
      · intro all j inside
        cases j with
        | zero => exact same
        | succ j => exact (Nat.add_right_comm i 1 j) ▸ all j (by omega)
      · intro all j inside
        exact (Nat.add_right_comm i 1 j) ▸ all (j + 1) (by omega)

theorem strncmp_eq_zero_iff (s : Bytes) (name : Name) :
    strncmp s name.cStr name.strlen = 0 ↔ ∀ i < name.strlen, s i = name.cStr i := by
  have loop := strncmpFrom_eq_zero_iff s name name.strlen 0 (by omega)
  simp only [Nat.zero_add] at loop
  exact loop

/-! ### File systems -/

/-- `struct fs_data`: whether it has operations, and its bytes in memory. -/
structure FsData where
  ops : Bool
  image : Bytes

/-- `struct filesystem`. The kernel keeps only `nameField` of the name. -/
structure Filesystem where
  name : Name
  data : FsData

/-- What stands from `fs->name` on: 16 bytes written by `strncpy`, without a terminator if the name fills them,
and the data behind them. -/
def Filesystem.nameField (fs : Filesystem) : Bytes := fun i =>
  if i < 16 then fs.name.cStr i else fs.data.image (i - 16)

/-- `create_filesystem`: `VFS_OK` or `VFS_ERR`, and the list. -/
def createFilesystem (registered : List Filesystem) (fs : Filesystem) : Int × List Filesystem :=
  if fs.data.ops then (0, registered ++ [fs]) else (-5, registered)

def retrieveFilesystem (registered : List Filesystem) (name : Name) : Option Filesystem :=
  registered.find? fun fs => strncmp fs.nameField name.cStr name.strlen = 0

def filesystemsAfter : List Filesystem → List Filesystem
  | [] => []
  | fs :: earlier => (createFilesystem (filesystemsAfter earlier) fs).2

theorem filesystemsAfter_eq (registrations : List Filesystem) :
    filesystemsAfter registrations = (registrations.filter (·.data.ops)).reverse := by
  induction registrations with
  | nil => rfl
  | cons fs earlier ih =>
    rw [filesystemsAfter, createFilesystem, ih]
    cases ops : fs.data.ops with
    | true => rw [if_pos rfl, filter_cons_of_pos (by exact ops), reverse_cons]
    | false => rw [if_neg (by decide), filter_cons_of_neg (by rw [ops]; decide)]

/-! ### Libraries -/

/-- `struct Library`: the name of its dentry, and where the file was loaded. -/
structure Library where
  name : Name
  entry : Nat

/-- `library_register`: nothing happens if the path does not resolve. -/
def libraryRegister (libraries : List Library) : Option Library → List Library
  | none => libraries
  | some lib => libraries ++ [lib]

def libraryLoad (libraries : List Library) (name : Name) : Option Library :=
  libraries.find? fun lib => strncmp lib.name.cStr name.cStr name.strlen = 0

def librariesAfter : List (Option Library) → List Library
  | [] => []
  | lib :: earlier => libraryRegister (librariesAfter earlier) lib

theorem librariesAfter_eq (registrations : List (Option Library)) :
    librariesAfter registrations = (registrations.filterMap id).reverse := by
  induction registrations with
  | nil => rfl
  | cons lib earlier ih =>
    cases lib with
    | none => exact ih
    | some lib =>
      rw [librariesAfter, libraryRegister, ih]
      exact reverse_cons.symm

/-! ### Network devices -/

inductive NetdevType
  | ethernet | loopback | bridge | tun | tap
  deriving DecidableEq

structure Netdev where
  name : Name
  hash : Nat

/-- A call of `create_netdev`; `stale` is what the memory of the new device holds as its `next`, which is not
set for the first device of a bucket. -/
structure NetdevRequest where
  name : Name
  type : NetdevType
  stale : List Netdev

def NetdevRequest.device (request : NetdevRequest) : Netdev := ⟨request.name, hash request.name 512⟩

def createNetdev (buckets : Nat → List Netdev) (request : NetdevRequest) : Int × (Nat → List Netdev) :=
  match request.type with
  | .ethernet =>
    let hashName := hash request.name 512
    let next := if buckets hashName = [] then request.stale else buckets hashName
    (0, update buckets hashName (request.device :: next))
  | _ => (-1, buckets)

def lookupNetdev (buckets : Nat → List Netdev) (name : Name) : Option Netdev :=
  (buckets (hash name 512)).find? fun netdev => netdev.hash = hash name 512

def netdevsAfter : List NetdevRequest → Nat → List Netdev
  | [] => fun _ => []
  | request :: earlier => (createNetdev (netdevsAfter earlier) request).2

def ethernetDevices (requests : List NetdevRequest) : List Netdev :=
  (requests.filter (·.type = .ethernet)).map (·.device)

theorem lookupNetdev_eq (requests : List NetdevRequest) (name : Name) :
    lookupNetdev (netdevsAfter requests) name =
      (ethernetDevices requests).find? fun netdev => netdev.hash = hash name 512 := by
  induction requests with
  | nil => rfl
  | cons request earlier ih =>
    unfold lookupNetdev at ih ⊢
    rw [netdevsAfter, createNetdev, ethernetDevices]
    cases type : request.type with
    | ethernet =>
      rw [filter_cons_of_pos (by simpa using type), map_cons]
      by_cases bucket : hash request.name 512 = hash name 512
      · have first : decide (request.device.hash = hash name 512) := decide_eq_true bucket
        dsimp only
        rw [bucket, update_self]
        simp only [List.find?_cons, first]
      · have other : decide (request.device.hash = hash name 512) = false := decide_eq_false bucket
        dsimp only
        rw [update_of_ne (Ne.symm bucket), ih]
        simp only [List.find?_cons, other, ethernetDevices]
    | _ =>
      rw [filter_cons_of_neg (by simp [type])]
      exact ih

/-! ### Exact names -/

def under {ρ : Type} (nameOf : ρ → Name) (order : List ρ) (name : Name) : Option ρ :=
  order.find? fun e => nameOf e = name

theorem unique_of_nodup {nameOf : ρ → Name} (distinct : (order.map nameOf).Nodup)
    (name : Name) : ∀ a ∈ order, ∀ b ∈ order, nameOf a = name → nameOf b = name → a = b :=
  fun _ memberA _ memberB nameA nameB =>
    inj_on_of_nodup_map distinct memberA memberB (nameA.trans nameB.symm)

/-- **When the registries are exact.** With distinct names, a query answers with the entry under exactly the
name asked for, or with none, if and only if that entry passes the registry's own test and every other entry
that passes it stands behind it. -/
theorem registries_exact_iff (filesystems : List Filesystem) (libraries : List (Option Library))
    (requests : List NetdevRequest) (name : Name)
    (fsDistinct : ((filesystems.filter (·.data.ops)).reverse.map (·.name)).Nodup)
    (libDistinct : ((libraries.filterMap id).reverse.map (·.name)).Nodup)
    (devDistinct : ((ethernetDevices requests).map (·.name)).Nodup) :
    (retrieveFilesystem (filesystemsAfter filesystems) name =
        under (·.name) (filesystems.filter (·.data.ops)).reverse name ↔
      Unshadowed (fun fs => ∀ i < name.strlen, fs.nameField i = name.cStr i) (·.name = name)
        (filesystems.filter (·.data.ops)).reverse) ∧
    (libraryLoad (librariesAfter libraries) name = under (·.name) (libraries.filterMap id).reverse name ↔
      Unshadowed (fun lib => ∀ i < name.strlen, lib.name.cStr i = name.cStr i) (·.name = name)
        (libraries.filterMap id).reverse) ∧
    (lookupNetdev (netdevsAfter requests) name = under (·.name) (ethernetDevices requests) name ↔
      Unshadowed (·.hash = hash name 512) (·.name = name) (ethernetDevices requests)) := by
  refine ⟨?_, ?_, ?_⟩
  · rw [filesystemsAfter_eq, retrieveFilesystem, under,
      find?_eq_find?_iff (unique_of_nodup fsDistinct name)]
    simp only [strncmp_eq_zero_iff]
  · rw [librariesAfter_eq, libraryLoad, under, find?_eq_find?_iff (unique_of_nodup libDistinct name)]
    simp only [strncmp_eq_zero_iff]
  · rw [lookupNetdev_eq]
    exact find?_eq_find?_iff (unique_of_nodup devDistinct name)

def ext : Name := ⟨[101, 120, 116], by decide⟩
def ext4 : Name := ⟨[101, 120, 116, 52], by decide⟩
def eth29 : Name := ⟨[101, 116, 104, 50, 57], by decide⟩
def eth52 : Name := ⟨[101, 116, 104, 53, 50], by decide⟩

/-- Each registry answers a query for a name that was never registered. -/
theorem registries_inexact :
    ((retrieveFilesystem (filesystemsAfter [⟨ext4, true, fun _ => 0⟩]) ext).map (·.name) = some ext4 ∧
      (libraryLoad (librariesAfter [some ⟨ext4, 0⟩]) ext).map (·.name) = some ext4 ∧
      (lookupNetdev (netdevsAfter [⟨eth29, .ethernet, []⟩]) eth52).map (·.name) = some eth29) ∧
    ext ≠ ext4 ∧ eth52 ≠ eth29 := by
  decide +kernel

theorem Unshadowed.of_iff {meets named : ρ → Prop} (same : ∀ e ∈ order, meets e ↔ named e) :
    Unshadowed meets named order := by
  refine ⟨fun e member => (same e member).mpr, fun before e after split isMet notNamed => ?_⟩
  exact absurd ((same e (by rw [split]; exact mem_append_right _ mem_cons_self)).mp isMet) notNamed

def extensions : List Filesystem := [⟨ext4, true, fun _ => 0⟩, ⟨ext, true, fun _ => 0⟩]

def extLibraries : List (Option Library) := [some ⟨ext, 0⟩, none, some ⟨ext4, 1⟩]

def extDevices : List NetdevRequest := [⟨eth29, .ethernet, []⟩, ⟨ext4, .ethernet, []⟩]

/-- Among names of which one begins with the other, the longer one is found in each registry. -/
theorem registries_exact_iff_extensions :
    retrieveFilesystem (filesystemsAfter extensions) ext4 = under (·.name) (extensions.filter (·.data.ops)).reverse ext4 ∧
      libraryLoad (librariesAfter extLibraries) ext4 = under (·.name) (extLibraries.filterMap id).reverse ext4 ∧
      lookupNetdev (netdevsAfter extDevices) ext4 = under (·.name) (ethernetDevices extDevices) ext4 := by
  obtain ⟨filesystem, library, device⟩ := registries_exact_iff extensions extLibraries extDevices ext4 (by decide)
    (by decide) (by decide)
  exact ⟨filesystem.mpr (.of_iff (by decide)), library.mpr (.of_iff (by decide)), device.mpr (.of_iff (by decide))⟩

end Voxia.Registry
