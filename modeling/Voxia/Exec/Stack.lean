/-
**The initial stack of a program.**

`setup_process_stack` (`procc/process.c`) allocates 256 frames, maps them at the top of the user half and has
`elf_prepare_stack` write the environment, the arguments, 16 fixed bytes, the auxiliary vector and the pointers, from
the top downwards. The stack is addressed by its depth, the distance from its top; `top` is the physical address
behind it.
-/

import Voxia.Exec.Elf
import Voxia.Vfs.Dentry

namespace Voxia.Exec

open Lib Cpu Memory List Bytes
open Vfs (CStr)

def userStackPages : Nat := 256

def userStackSize : Nat := userStackPages * 4096

def userStackVaddr : Nat := 0x7FFFFFFFE000

def userStackBottom : Nat := userStackVaddr - userStackSize + 4096

/-- The stack pointer, as a depth, and the memory. -/
structure StackTop where
  depth : Nat
  mem : Bytes

/-- `sp -= len; memcopy(sp, block, len)`. -/
def push (top : Nat) (block : Bytes) (len : Nat) (st : StackTop) : StackTop :=
  ⟨st.depth + len, st.mem.copy (top - (st.depth + len)) block len⟩

/-- `*(--sp) = value` for each value. -/
def pushWords (top : Nat) (values : List Nat) (st : StackTop) : StackTop :=
  values.foldl (fun st value => push top (littleEndian value) 8 st) st

/-- The strings with their final zero, the last one first, and the user addresses of all. -/
def pushStrings (top topUser : Nat) : List CStr → StackTop → StackTop × List Nat
  | [], st => (st, [])
  | string :: rest, st =>
    match pushStrings top topUser rest st with
    | (st, addrs) =>
      let st := push top (fun i => string.getD i 0) (string.length + 1) st
      (st, (topUser - st.depth) :: addrs)

def randomBytes : List UInt8 :=
  [0xDE, 0xAD, 0xBE, 0xEF, 0xCA, 0xFE, 0xBA, 0xBE, 0x12, 0x34, 0x56, 0x78, 0x9A, 0xBC, 0xDE, 0xF0]

/-- The auxiliary vector, in the order it is pushed in. -/
def auxWords (ehdr : Ehdr) (entryAddr randomAddr phdrVaddr interpBase : Nat) : List Nat :=
  [0, 0, entryAddr, 9, randomAddr, 25, 0, 16, 0, 23, 1000, 11, 1000, 13, 1000, 14, 1000, 12] ++
    (if interpBase ≠ 0 then [interpBase, 7] else []) ++
    [0x1000, 6, ehdr.ePhnum, 5, ehdr.ePhentsize, 4, phdrVaddr, 3]

def elfPrepareStack (top topUser : Nat) (argv envp : List CStr) (ehdr : Ehdr) (entryAddr phdrVaddr interpBase : Nat)
    (mem : Bytes) : Nat × Bytes :=
  match pushStrings top topUser envp ⟨0, mem⟩ with
  | (st, envpUser) =>
    match pushStrings top topUser argv st with
    | (st, argvUser) =>
      let st := push top (fun i => randomBytes.getD i 0) 16 st
      let randomAddr := topUser - st.depth
      -- the pointer is rounded down to 16 bytes
      let st : StackTop := ⟨(st.depth + 15) / 16 * 16, st.mem⟩
      let st := pushWords top (auxWords ehdr entryAddr randomAddr phdrVaddr interpBase) st
      let st := pushWords top (0 :: envpUser.reverse) st
      let st := pushWords top (0 :: argvUser.reverse) st
      let st := pushWords top [argv.length] st
      (topUser - st.depth, st.mem)

/-- `setup_process_stack`: the user's stack pointer, and the state with the stack mapped. -/
def setupProcessStack (path : CStr) (argv envp : List CStr) (ehdr : Ehdr) (entryAddr phdrVaddr interpBase stackPhys : Nat)
    (st : LoadState) : Nat × LoadState :=
  let argv := if argv = [] then [path] else argv
  let page := pagingMultipleMmap st.page userStackBottom stackPhys userStackPages 7
  match elfPrepareStack (stackPhys + userStackSize) (userStackVaddr + 4096) argv envp ehdr entryAddr phdrVaddr interpBase
      st.phys with
  | (userRsp, phys) => (userRsp, ⟨phys, page⟩)

/-! ### What is written -/

/-- The stack has grown to a depth, and nothing below it was written. -/
structure Pushed (top : Nat) (st st' : StackTop) : Prop where
  deeper : st.depth ≤ st'.depth
  below : ∀ x, x + st'.depth < top → st'.mem x = st.mem x

theorem Pushed.trans {top : Nat} {st st' st'' : StackTop} (first : Pushed top st st') (second : Pushed top st' st'') :
    Pushed top st st'' :=
  ⟨Nat.le_trans first.deeper second.deeper, fun x low => by
    have deeper := second.deeper
    rw [second.below x low, first.below x (by omega)]⟩

theorem pushed_push (top : Nat) (block : Bytes) (len : Nat) (st : StackTop) : Pushed top st (push top block len st) := by
  refine ⟨Nat.le_add_right _ _, fun x low => ?_⟩
  have deep : (push top block len st).depth = st.depth + len := rfl
  exact copy_outside st.mem block (.inl (by omega))

theorem pushed_pushWords (top : Nat) (values : List Nat) : ∀ st : StackTop,
    Pushed top st (pushWords top values st) ∧ (pushWords top values st).depth = st.depth + 8 * values.length := by
  induction values with
  | nil => exact fun st => ⟨⟨Nat.le_refl _, fun x _ => rfl⟩, rfl⟩
  | cons value values ih =>
    intro st
    obtain ⟨pushed, depth⟩ := ih (push top (littleEndian value) 8 st)
    refine ⟨(pushed_push top (littleEndian value) 8 st).trans pushed, ?_⟩
    have step : (pushWords top (value :: values) st).depth = st.depth + 8 + 8 * values.length := depth
    rw [step, length_cons]
    omega

def stringBytes (strings : List CStr) : Nat := (strings.map fun string => string.length + 1).sum

theorem pushed_pushStrings (top topUser : Nat) (strings : List CStr) : ∀ st : StackTop,
    Pushed top st (pushStrings top topUser strings st).1 ∧
      (pushStrings top topUser strings st).1.depth = st.depth + stringBytes strings ∧
      (pushStrings top topUser strings st).2.length = strings.length := by
  induction strings with
  | nil => exact fun st => ⟨⟨Nat.le_refl _, fun x _ => rfl⟩, rfl, rfl⟩
  | cons string rest ih =>
    intro st
    obtain ⟨pushed, depth, length⟩ := ih st
    refine ⟨pushed.trans (pushed_push top _ _ _), ?_, ?_⟩
    · show (pushStrings top topUser rest st).1.depth + (string.length + 1) = _
      rw [depth, stringBytes, stringBytes, map_cons, sum_cons]
      omega
    · show (pushStrings top topUser rest st).2.length + 1 = _
      rw [length, length_cons]

def stackDepth (argv envp : List CStr) (interpBase : Nat) : Nat :=
  (stringBytes envp + stringBytes argv + 16 + 15) / 16 * 16 +
    8 * (26 + (if interpBase ≠ 0 then 2 else 0) + (envp.length + 1) + (argv.length + 1) + 1)

theorem length_auxWords (ehdr : Ehdr) (entryAddr randomAddr phdrVaddr interpBase : Nat) :
    (auxWords ehdr entryAddr randomAddr phdrVaddr interpBase).length = 26 + if interpBase ≠ 0 then 2 else 0 := by
  unfold auxWords
  split <;> rfl

/-- The stack is written from its top down to the depth that is returned, and nowhere else. -/
theorem elfPrepareStack_spec (top topUser : Nat) (argv envp : List CStr) (ehdr : Ehdr)
    (entryAddr phdrVaddr interpBase : Nat) (mem : Bytes) {x : Nat} (low : x + stackDepth argv envp interpBase < top) :
    (elfPrepareStack top topUser argv envp ehdr entryAddr phdrVaddr interpBase mem).2 x = mem x := by
  obtain ⟨pushedEnv, depthEnv, lengthEnv⟩ := pushed_pushStrings top topUser envp ⟨0, mem⟩
  unfold elfPrepareStack
  revert pushedEnv depthEnv lengthEnv
  rcases pushStrings top topUser envp ⟨0, mem⟩ with ⟨st₁, envpUser⟩
  intro pushedEnv depthEnv lengthEnv
  obtain ⟨pushedArgs, depthArgs, lengthArgs⟩ := pushed_pushStrings top topUser argv st₁
  dsimp only at pushedEnv depthEnv lengthEnv ⊢
  revert pushedArgs depthArgs lengthArgs
  rcases pushStrings top topUser argv st₁ with ⟨st₂, argvUser⟩
  intro pushedArgs depthArgs lengthArgs
  dsimp only at pushedArgs depthArgs lengthArgs ⊢
  have pushedRandom := pushed_push top (fun i => randomBytes.getD i 0) 16 st₂
  generalize made : push top (fun i => randomBytes.getD i 0) 16 st₂ = st₃ at pushedRandom
  have depthRandom : st₃.depth = st₂.depth + 16 := by rw [← made]; rfl
  have rounded : Pushed top st₃ ⟨(st₃.depth + 15) / 16 * 16, st₃.mem⟩ :=
    ⟨show st₃.depth ≤ (st₃.depth + 15) / 16 * 16 by omega, fun x _ => rfl⟩
  obtain ⟨pushedAux, depthAux⟩ := pushed_pushWords top
    (auxWords ehdr entryAddr (topUser - st₃.depth) phdrVaddr interpBase) ⟨(st₃.depth + 15) / 16 * 16, st₃.mem⟩
  generalize pushWords top (auxWords ehdr entryAddr (topUser - st₃.depth) phdrVaddr interpBase)
    ⟨(st₃.depth + 15) / 16 * 16, st₃.mem⟩ = st₄ at pushedAux depthAux
  obtain ⟨pushedEnvp, depthEnvp⟩ := pushed_pushWords top (0 :: envpUser.reverse) st₄
  generalize pushWords top (0 :: envpUser.reverse) st₄ = st₅ at pushedEnvp depthEnvp
  obtain ⟨pushedArgv, depthArgv⟩ := pushed_pushWords top (0 :: argvUser.reverse) st₅
  generalize pushWords top (0 :: argvUser.reverse) st₅ = st₆ at pushedArgv depthArgv
  obtain ⟨pushedArgc, depthArgc⟩ := pushed_pushWords top [argv.length] st₆
  have all := ((((((pushedEnv.trans pushedArgs).trans pushedRandom).trans rounded).trans pushedAux).trans
    pushedEnvp).trans pushedArgv).trans pushedArgc
  refine all.below x ?_
  rw [length_cons, length_reverse] at depthEnvp depthArgv
  rw [length_auxWords] at depthAux
  dsimp only at depthAux depthEnv
  rw [length_singleton] at depthArgc
  unfold stackDepth at low
  omega

/-- The strings `copy_string_array` accepts: at most 32, each shorter than a page. -/
def Copied (strings : List CStr) : Prop := strings.length ≤ 32 ∧ ∀ string ∈ strings, string.length < 4096

theorem stringBytes_le {strings : List CStr} (short : ∀ string ∈ strings, string.length < 4096) :
    stringBytes strings ≤ 4096 * strings.length := by
  induction strings with
  | nil => exact Nat.le_refl _
  | cons string rest ih =>
    have first := short string mem_cons_self
    have others := ih fun other inside => short other (mem_cons_of_mem string inside)
    unfold stringBytes at others ⊢
    rw [map_cons, sum_cons, length_cons]
    omega

/-- For the strings `copy_string_array` accepts, less than a third of the stack is written. -/
theorem stackDepth_lt {argv envp : List CStr} (args : Copied argv) (env : Copied envp) (interpBase : Nat) :
    3 * stackDepth argv envp interpBase < userStackSize := by
  have first := stringBytes_le args.2
  have second := stringBytes_le env.2
  have counts := And.intro args.1 env.1
  unfold stackDepth userStackSize userStackPages
  split <;> omega

end Voxia.Exec
