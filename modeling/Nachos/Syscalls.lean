import Nachos.FileCalls
import Nachos.LoadDelayRuns
import Nachos.StateEffects

/-!
# System calls

`ExceptionHandler` of `userprog/exception.cc`: the system call code is in
register 2, the arguments are in registers 4 to 6, the result goes to
register 2, and `IncreasePC` steps over the `SYSCALL` instruction. `handle`
is the switch over the codes, one case for each.

What is behind a call, in `userprog/ksyscall.h` and below, is not modelled
here: `Services` has for each `Sys…` function some function of its arguments,
of the kernel and of the user memory, which may also not return. None of them
reaches the registers of the caller. (A call during which other processes run
finds its registers again: `RestoreUserState`.) `SysCreate` and `SysExec`
write register 2 themselves, on every path; here the value they write is
their result.

An access to user memory that raises an exception ends in `SysHalt`, as all
exceptions but `SyscallException` do.

`IncreasePC` does not use `NextPC`, and the `default` case does not call it.
`syscall_consumed_iff` says when a call that returns has advanced the program
counters as an instruction does.
-/

namespace Nachos

namespace Syscalls

open ByteMemory StateEffects Mips

/-- The codes of `userprog/syscall.h` that have a `case`. -/
inductive Code where
  | halt | exit | exec | join | create | remove | open | read | write | seek | close
  | threadFork | threadYield | execV | threadExit | threadJoin
  | createSemaphore | wait | signal | getPID
  | socketTCP | connect | send | receive | closeSocket
  | add | readNum | printNum | readChar | printChar | readString | printString | createFile
deriving DecidableEq

def Code.ofType : Int → Option Code
  | 0 => some .halt
  | 1 => some .exit
  | 2 => some .exec
  | 3 => some .join
  | 4 => some .create
  | 5 => some .remove
  | 6 => some .open
  | 7 => some .read
  | 8 => some .write
  | 9 => some .seek
  | 10 => some .close
  | 11 => some .threadFork
  | 12 => some .threadYield
  | 13 => some .execV
  | 14 => some .threadExit
  | 15 => some .threadJoin
  | 16 => some .createSemaphore
  | 17 => some .wait
  | 18 => some .signal
  | 19 => some .getPID
  | 20 => some .socketTCP
  | 21 => some .connect
  | 22 => some .send
  | 23 => some .receive
  | 24 => some .closeSocket
  | 42 => some .add
  | 43 => some .readNum
  | 44 => some .printNum
  | 45 => some .readChar
  | 46 => some .printChar
  | 48 => some .readString
  | 49 => some .printString
  | 50 => some .createFile
  | _ => none

/-! ## What is behind the calls -/

/-- All that a service reaches: the kernel, and the memory with the page table
of the caller. -/
structure Outside (ω : Type) where
  world : ω
  mainMemory : Memory
  pageTable : List TranslationEntry

/-- A function of the kernel; `none` when it does not return to the caller. -/
abbrev Service (ω α : Type) := Outside ω → Option (α × Outside ω)

/-- A buffer of the kernel. -/
abbrev Buffer := List UInt8

structure Services (ω : Type) where
  sysReadNum : Service ω Int
  sysPrintNum : Int → Service ω Unit
  sysReadChar : Service ω UInt8
  sysPrintChar : UInt8 → Service ω Unit
  sysReadString : Buffer → Int → Service ω Buffer
  sysPrintString : Buffer → Service ω Unit
  sysCreate : Buffer → Service ω Int
  sysOpen : Buffer → Int → Service ω Int
  sysClose : Int → Service ω Int
  sysRead : Buffer → Int → Int → Service ω (Int × Buffer)
  sysWrite : Buffer → Int → Int → Service ω Int
  sysSeek : Int → Int → Service ω Int
  sysRemove : Buffer → Service ω Int
  sysExec : Buffer → Service ω Int
  sysJoin : Int → Service ω Int
  sysExit : Int → Service ω Unit
  processID : Service ω Int
  sysCreateSemaphore : Buffer → Int → Service ω Int
  sysWait : Buffer → Service ω Int
  sysSignal : Buffer → Service ω Int

/-! ## The handler -/

/-- Code of the handler, over the kernel and the machine. -/
abbrev Handler (ω : Type) := StateT (ω × State) Option

section Handler

variable {ω α : Type}

def readRegister (num : Fin 40) : Handler ω Int :=
  fun k => some ((k.2.registers num).toInt, k)

def writeRegister (num : Fin 40) (value : Int) : Handler ω Unit :=
  fun k => some ((), (k.1, k.2.set num (BitVec.ofInt 32 value)))

def increasePC : Handler ω Unit := do
  writeRegister prevPCReg (← readRegister pcReg)
  writeRegister pcReg ((← readRegister pcReg) + 4)
  writeRegister nextPCReg ((← readRegister pcReg) + 4)

/-- `SysHalt`. -/
def sysHalt : Handler ω α := fun _ => none

/-- A service is called. -/
def call (service : Service ω α) : Handler ω α := fun (world, s) => do
  let (a, o) ← service ⟨world, s.mainMemory, s.pageTable⟩
  some (a, (o.world, { s with mainMemory := o.mainMemory, pageTable := o.pageTable }))

/-- `User2System`. -/
def user2System (virtAddr limit : Int) : Handler ω Buffer := fun (world, s) => do
  let (buffer, pageTable) ←
    (Nachos.user2System s.pageTable s.mainMemory virtAddr limit).toOption
  some (buffer, (world, { s with pageTable := pageTable }))

/-- `System2User`. -/
def system2User (virtAddr len : Int) (buffer : Buffer) : Handler ω Unit := fun (world, s) => do
  let (m, pageTable) ←
    (Nachos.system2User s.pageTable s.mainMemory virtAddr len buffer).toOption
  some ((), (world, { s with mainMemory := m, pageTable := pageTable }))

/-- `MaxFileLength`, and `MAX_FILENAME_LENGTH`. -/
def maxFileLength : Int := 32

/-- The registers of the arguments and of the result. -/
abbrev arg1 : Fin 40 := 4
abbrev arg2 : Fin 40 := 5
abbrev arg3 : Fin 40 := 6
abbrev resultReg : Fin 40 := 2

/-- The cases that are one shape: the name at the first argument, and the
result of a service for it. -/
def byName (service : Buffer → Service ω Int) : Handler ω Unit := do
  let name ← user2System (← readRegister arg1) (maxFileLength + 1)
  writeRegister resultReg (← call (service name))
  increasePC

variable (S : Services ω)

/-- The switch over the codes. -/
def handle : Code → Handler ω Unit
  | .halt => sysHalt
  | .add => do
      let op1 ← readRegister arg1
      let op2 ← readRegister arg2
      writeRegister resultReg (op1 + op2)
      increasePC
  | .readNum => do
      writeRegister resultReg (← call S.sysReadNum)
      increasePC
  | .printNum => do
      call (S.sysPrintNum (← readRegister arg1))
      increasePC
  | .readChar => do
      writeRegister resultReg (Machine.signedChar (← call S.sysReadChar))
      increasePC
  | .printChar => do
      call (S.sysPrintChar (UInt8.ofNat (CInt.u32 (← readRegister arg1)).toNat))
      increasePC
  | .readString => do
      let virtualAddr ← readRegister arg1
      let length ← readRegister arg2
      let buffer ← user2System virtualAddr length
      let buffer ← call (S.sysReadString buffer length)
      system2User virtualAddr length buffer
      increasePC
  | .printString => do
      let buffer ← user2System (← readRegister arg1) 255
      call (S.sysPrintString buffer)
      increasePC
  | .create => byName S.sysCreate
  | .open => do
      let virtAddr ← readRegister arg1
      let type ← readRegister arg2
      let filename ← user2System virtAddr (maxFileLength + 1)
      writeRegister resultReg (← call (S.sysOpen filename type))
      increasePC
  | .close => do
      writeRegister resultReg (← call (S.sysClose (← readRegister arg1)))
      increasePC
  | .read => do
      let virtAddr ← readRegister arg1
      let size ← readRegister arg2
      let id ← readRegister arg3
      let buffer ← user2System virtAddr size
      let (res, buffer) ← call (S.sysRead buffer size id)
      writeRegister resultReg res
      if res ≠ -1 ∧ res ≠ -2 then system2User virtAddr res buffer
      increasePC
  | .write => do
      let virtAddr ← readRegister arg1
      let size ← readRegister arg2
      let id ← readRegister arg3
      let buffer ← user2System virtAddr size
      writeRegister resultReg (← call (S.sysWrite buffer size id))
      increasePC
  | .seek => do
      let position ← readRegister arg1
      let id ← readRegister arg2
      writeRegister resultReg (← call (S.sysSeek position id))
      increasePC
  | .remove => byName S.sysRemove
  | .exec => byName S.sysExec
  | .join => do
      writeRegister resultReg (← call (S.sysJoin (← readRegister arg1)))
      increasePC
  | .exit => do
      call (S.sysExit (← readRegister arg1))
      increasePC
  | .getPID => do
      writeRegister resultReg (← call S.processID)
      increasePC
  | .createSemaphore => do
      let virtualAddr ← readRegister arg1
      let semVal ← readRegister arg2
      let name ← user2System virtualAddr (maxFileLength + 1)
      writeRegister resultReg (← call (S.sysCreateSemaphore name semVal))
      increasePC
  | .wait => byName S.sysWait
  | .signal => byName S.sysSignal
  | .socketTCP | .connect | .send | .receive | .closeSocket => sysHalt
  | .execV | .createFile | .threadFork | .threadYield | .threadExit | .threadJoin => sysHalt

/-- `ExceptionHandler`. -/
def exceptionHandler : ExceptionType → Handler ω Unit
  | .syscall => do
      match Code.ofType (← readRegister resultReg) with
      | some code => handle S code
      -- "Unexpected system call"
      | none => pure ()
  | _ => sysHalt

end Handler

/-! ## What the handler does to the registers -/

section Effects

variable {ω α τ : Type} {v : Registers → τ} {f : τ → τ}

/-- A part of the registers. -/
abbrev onRegisters (v : Registers → τ) (k : ω × State) : τ := v k.2.registers

theorem keeps_readRegister (num : Fin 40) : Keeps (onRegisters (ω := ω) v) (readRegister num) := by
  intro k a k' h
  cases h
  rfl

theorem keeps_writeRegister {num : Fin 40} (hnum : ∀ r x, v (Function.update r num x) = v r)
    (value : Int) : Keeps (onRegisters (ω := ω) v) (writeRegister num value) := by
  intro k a k' h
  cases h
  exact hnum _ _

theorem keeps_call (service : Service ω α) : Keeps (onRegisters v) (call service) := by
  intro k a k' h
  obtain ⟨⟨b, o⟩, -, hk⟩ := Option.bind_eq_some_iff.mp h
  cases hk
  rfl

theorem keeps_user2System (virtAddr limit : Int) :
    Keeps (onRegisters (ω := ω) v) (user2System virtAddr limit) := by
  intro k a k' h
  obtain ⟨⟨b, pageTable⟩, -, hk⟩ := Option.bind_eq_some_iff.mp h
  cases hk
  rfl

theorem keeps_system2User (virtAddr len : Int) (buffer : Buffer) :
    Keeps (onRegisters (ω := ω) v) (system2User virtAddr len buffer) := by
  intro k a k' h
  obtain ⟨⟨b, pageTable⟩, -, hk⟩ := Option.bind_eq_some_iff.mp h
  cases hk
  rfl

/-- A part of the registers that does not have register 2 in it is changed by
`IncreasePC` alone, whatever the call. -/
theorem handle_acts (S : Services ω) (hresult : ∀ r x, v (Function.update r resultReg x) = v r)
    (hpc : Acts (onRegisters v) f (increasePC (ω := ω))) (code : Code) :
    Acts (onRegisters v) f (handle S code) := by
  have hwrite : ∀ value, Keeps (onRegisters (ω := ω) v) (writeRegister resultReg value) :=
    keeps_writeRegister hresult
  have hname : ∀ service, Acts (onRegisters v) f (byName (ω := ω) service) := fun service =>
    (keeps_readRegister _).bind fun _ => (keeps_user2System _ _).bind fun _ =>
      (keeps_call _).bind fun _ => (hwrite _).bind fun _ => hpc
  cases code with
  | halt => exact acts_none
  | socketTCP | connect | send | receive | closeSocket => exact acts_none
  | execV | createFile | threadFork | threadYield | threadExit | threadJoin => exact acts_none
  | create | remove | exec | wait | signal => exact hname _
  | add =>
      exact (keeps_readRegister _).bind fun _ => (keeps_readRegister _).bind fun _ =>
        (hwrite _).bind fun _ => hpc
  | readNum | readChar | getPID =>
      exact (keeps_call _).bind fun _ => (hwrite _).bind fun _ => hpc
  | printNum | printChar | exit =>
      exact (keeps_readRegister _).bind fun _ => (keeps_call _).bind fun _ => hpc
  | close | join =>
      exact (keeps_readRegister _).bind fun _ => (keeps_call _).bind fun _ =>
        (hwrite _).bind fun _ => hpc
  | seek =>
      exact (keeps_readRegister _).bind fun _ => (keeps_readRegister _).bind fun _ =>
        (keeps_call _).bind fun _ => (hwrite _).bind fun _ => hpc
  | printString =>
      exact (keeps_readRegister _).bind fun _ => (keeps_user2System _ _).bind fun _ =>
        (keeps_call _).bind fun _ => hpc
  | readString =>
      exact (keeps_readRegister _).bind fun _ => (keeps_readRegister _).bind fun _ =>
        (keeps_user2System _ _).bind fun _ => (keeps_call _).bind fun _ =>
          (keeps_system2User _ _ _).bind fun _ => hpc
  | «open» | createSemaphore =>
      exact (keeps_readRegister _).bind fun _ => (keeps_readRegister _).bind fun _ =>
        (keeps_user2System _ _).bind fun _ => (keeps_call _).bind fun _ =>
          (hwrite _).bind fun _ => hpc
  | write =>
      exact (keeps_readRegister _).bind fun _ => (keeps_readRegister _).bind fun _ =>
        (keeps_readRegister _).bind fun _ => (keeps_user2System _ _).bind fun _ =>
          (keeps_call _).bind fun _ => (hwrite _).bind fun _ => hpc
  | read =>
      refine (keeps_readRegister _).bind fun _ => (keeps_readRegister _).bind fun _ =>
        (keeps_readRegister _).bind fun _ => (keeps_user2System _ _).bind fun _ =>
          (keeps_call _).bind fun _ => (hwrite _).bind fun _ => ?_
      split
      next => exact (keeps_system2User _ _ _).bind fun _ => hpc
      next => exact hpc

variable {S : Services ω} {k k' : ω × State} {which : ExceptionType}

/-- What a handler that returns has done: the call of its code, or nothing. -/
theorem exceptionHandler_cases (h : exceptionHandler S which k = some ((), k')) :
    which = .syscall
      ∧ ((Code.ofType (k.2.registers resultReg).toInt = none ∧ k' = k)
        ∨ ∃ code, Code.ofType (k.2.registers resultReg).toInt = some code
            ∧ handle S code k = some ((), k')) := by
  cases which with
  | syscall =>
      refine ⟨rfl, ?_⟩
      change (match Code.ofType (k.2.registers resultReg).toInt with
        | some code => handle S code
        | none => pure ()) k = some ((), k') at h
      cases hcode : Code.ofType (k.2.registers resultReg).toInt with
      | none =>
          rw [hcode] at h
          cases h
          exact Or.inl ⟨rfl, rfl⟩
      | some code =>
          rw [hcode] at h
          exact Or.inr ⟨code, rfl, h⟩
  | access e => cases h
  | overflow => cases h
  | illegalInstr => cases h

/-- Register 0 and the pending load, which no call touches. -/
theorem increasePC_keeps :
    Keeps (onRegisters fun r => (r (gpr 0), r loadReg)) (increasePC (ω := ω)) := by
  have hwrite : ∀ num ∈ [prevPCReg, pcReg, nextPCReg], ∀ value,
      Keeps (onRegisters (ω := ω) fun r => (r (gpr 0), r loadReg)) (writeRegister num value) := by
    intro num hnum
    refine keeps_writeRegister fun r x => ?_
    have hne : gpr 0 ≠ num ∧ loadReg ≠ num := by
      revert num
      decide
    rw [Function.update_of_ne hne.1, Function.update_of_ne hne.2]
  exact (keeps_readRegister _).bind fun _ => (hwrite _ (by simp) _).bind fun _ =>
    (keeps_readRegister _).bind fun _ => (hwrite _ (by simp) _).bind fun _ =>
      (keeps_readRegister _).bind fun _ => hwrite _ (by simp) _

/-- The handler of `exception.cc` as the handler of the machine. -/
def kernel (S : Services ω) : Kernel ω where
  handle which world s := (exceptionHandler S which (world, s)).map Prod.snd
  keeps := by
    intro which w s w' s' h
    obtain ⟨⟨_, k'⟩, hk, rfl⟩ := Option.map_eq_some_iff.mp h
    obtain ⟨-, ⟨-, heq⟩ | ⟨code, -, hcode⟩⟩ := exceptionHandler_cases hk
    · cases heq
      exact ⟨rfl, rfl⟩
    · have hview := handle_acts S (fun r x => by
        rw [Function.update_of_ne (by decide), Function.update_of_ne (by decide)])
        increasePC_keeps code _ _ _ hcode
      exact Prod.mk.inj hview

/-! ## The program counters -/

/-- `(PrevPC, PC, NextPC)`. -/
def counters (r : Registers) : Word × Word × Word := (r prevPCReg, r pcReg, r nextPCReg)

theorem ofInt_toInt_add (x : Word) : BitVec.ofInt 32 (x.toInt + 4) = x + 4 := by
  rw [BitVec.ofInt_add, BitVec.ofInt_toInt]
  rfl

theorem increasePC_acts :
    Acts (onRegisters counters) (fun c => (c.2.1, c.2.1 + 4, c.2.1 + 4 + 4))
      (increasePC (ω := ω)) := by
  intro k a k' h
  cases h
  have hpc : ∀ (s : State) (x : Word), (s.set prevPCReg x).registers pcReg = s.registers pcReg :=
    State.registers_set_of_ne (by decide)
  simp only [onRegisters, hpc, State.registers_set_self, ofInt_toInt_add, BitVec.ofInt_toInt]
  simp only [counters]
  rw [State.registers_set_of_ne (by decide), State.registers_set_of_ne (by decide),
    State.registers_set_self, State.registers_set_of_ne (by decide), State.registers_set_self,
    State.registers_set_self]

/-- The counters behind an instruction that does not branch. -/
theorem counters_advance (s : State) :
    counters (advance s (s.registers nextPCReg + 4)).registers
      = (s.registers pcReg, s.registers nextPCReg, s.registers nextPCReg + 4) := by
  simp only [advance, counters]
  rw [State.registers_set_of_ne (by decide), State.registers_set_of_ne (by decide),
    State.registers_set_self, State.registers_set_of_ne (by decide), State.registers_set_self,
    State.registers_set_self, State.registers_set_of_ne (by decide)]

/-- **When a system call is one instruction.** A call that returns has
advanced the program counters as an instruction that does not branch would
have, if and only if the code is one of those the switch has and the next
instruction was the one behind the call. -/
theorem syscall_consumed_iff (S : Services ω) (w w' : ω) (s s' : State)
    (h : (kernel S).handle .syscall w s = some (w', s')) :
    counters s'.registers = counters (advance s (s.registers nextPCReg + 4)).registers
      ↔ (Code.ofType (s.registers resultReg).toInt).isSome = true
          ∧ s.registers nextPCReg = s.registers pcReg + 4 := by
  obtain ⟨⟨_, k'⟩, hk, hk'⟩ := Option.map_eq_some_iff.mp h
  obtain rfl : k' = (w', s') := hk'
  rw [counters_advance]
  obtain ⟨-, ⟨hnone, heq⟩ | ⟨code, hsome, hcode⟩⟩ := exceptionHandler_cases hk
  · -- the counters stay, and `NextPC` is not `NextPC + 4`
    cases heq
    rw [hnone]
    constructor
    · intro hc
      have hnext : s.registers nextPCReg = s.registers nextPCReg + 4 :=
        (Prod.mk.inj (Prod.mk.inj hc).2).2
      exact absurd hnext (by bv_omega)
    · rintro ⟨hfalse, -⟩
      cases hfalse
  · have hcounters : counters s'.registers
        = (s.registers pcReg, s.registers pcReg + 4, s.registers pcReg + 4 + 4) :=
      handle_acts S (fun r x => by
        simp only [counters]
        rw [Function.update_of_ne (by decide), Function.update_of_ne (by decide),
          Function.update_of_ne (by decide)]) increasePC_acts code _ _ _ hcode
    rw [hcounters, hsome]
    constructor
    · intro hc
      exact ⟨rfl, (Prod.mk.inj (Prod.mk.inj hc).2).1.symm⟩
    · rintro ⟨-, hnext⟩
      rw [hnext]

end Effects

/-- A kernel where no call fails and nothing is ever read or written. -/
def quiet : Services Unit where
  sysReadNum o := some (0, o)
  sysPrintNum _ o := some ((), o)
  sysReadChar o := some (0, o)
  sysPrintChar _ o := some ((), o)
  sysReadString buffer _ o := some (buffer, o)
  sysPrintString _ o := some ((), o)
  sysCreate _ o := some (0, o)
  sysOpen _ _ o := some (2, o)
  sysClose _ o := some (0, o)
  sysRead buffer _ _ o := some ((0, buffer), o)
  sysWrite _ _ _ o := some (0, o)
  sysSeek _ _ o := some (0, o)
  sysRemove _ o := some (0, o)
  sysExec _ o := some (1, o)
  sysJoin _ o := some (0, o)
  sysExit _ _ := none
  processID o := some (0, o)
  sysCreateSemaphore _ _ o := some (0, o)
  sysWait _ o := some (1, o)
  sysSignal _ o := some (1, o)

/-- A program at the address 8 that makes the call `type`, with `nextPC` to
come. -/
def caller (type nextPC : Word) : State where
  registers := fun r => if r = resultReg then type else if r = pcReg then 8
    else if r = nextPCReg then nextPC else 0
  mainMemory := fun _ => 0
  pageTable := []

/-- `SC_Add` on a straight line. -/
theorem syscall_consumed_add :
    ∃ s', (kernel quiet).handle .syscall () (caller 42 12) = some ((), s')
      ∧ (counters s'.registers = counters (advance (caller 42 12) (12 + 4)).registers
        ↔ (Code.ofType 42).isSome = true ∧ (12 : Word) = 8 + 4) :=
  ⟨_, rfl, syscall_consumed_iff quiet () () (caller 42 12) _ rfl⟩

/-- `SC_Add` in the delay slot of a branch to 40 loses the branch, and the
code 25 does not advance at all. -/
theorem syscall_consumed_fails :
    (∃ s', (kernel quiet).handle .syscall () (caller 42 40) = some ((), s')
      ∧ counters s'.registers = (8, 12, 16)
      ∧ counters (advance (caller 42 40) (40 + 4)).registers = (8, 40, 44))
    ∧ ∃ s', (kernel quiet).handle .syscall () (caller 25 12) = some ((), s')
      ∧ counters s'.registers = (0, 8, 12)
      ∧ counters (advance (caller 25 12) (12 + 4)).registers = (8, 12, 16) :=
  ⟨⟨_, rfl, by decide, by decide⟩, _, rfl, by decide, by decide⟩

end Syscalls

end Nachos
