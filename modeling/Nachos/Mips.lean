import Nachos.Machine
import Mathlib.Logic.Function.Basic

/-!
# The MIPS simulator

`Machine::OneInstruction`, `Machine::DelayedLoad`, `Instruction::Decode`
and `Mult` of `machine/mipssim.cc`, the decode tables of
`machine/mipssim.h` and `Machine::RaiseException` of `machine/machine.cc`,
in the build the Makefile describes (`-DSIM_FIX`).

A register holds an `int`, here a `Word` of 32 bits, so the wrapping
arithmetic, the masks and the shifts are those of the host: `>>` on an
`int` is `sshiftRight`, and `<` on an `unsigned int` is the order of
`BitVec`. The register array has `NumTotalRegs` = 40 entries. The numbers
`rs`, `rt` and `rd` of a decoded instruction are below 32 by their type; the
index that `DelayedLoad` finds in `registers[LoadReg]` is whatever the
register holds, and a store beyond the array is `Stop.wildStore`.

An instruction ends well, or in `Stop.raise` with the state in which
`RaiseException` calls the `ExceptionHandler`, or it takes the simulator
down: by an assertion, or by the host's own trap for a quotient that does
not fit an `int`. A case of the switch in `OneInstruction` is a line of
`execute`; what follows the switch is `oneInstruction`.

The trace that `debug->IsEnabled('m')` prints, with `TypeToReg` and the
table `opStrings`, is left out.
-/

namespace Nachos

namespace Mips

open ByteMemory

/-! ## Decoding -/

/-- An `int` or an `unsigned int`. -/
abbrev Word := BitVec 32

/-- There are registers to number, here all of them and below those that an
instruction can name. -/
scoped instance neZero_numTotalRegs : NeZero 40 := ⟨by decide⟩

scoped instance neZero_numGPRegs : NeZero 32 := ⟨by decide⟩

/-- The values of `opCode`: the `OP_` constants, and the two marks of
`opTable` for further decoding. -/
inductive OpCode where
  | add | addi | addiu | addu | and | andi | beq | bgez | bgezal | bgtz | blez | bltz | bltzal | bne
  | div | divu | j | jal | jalr | jr | lb | lbu | lh | lhu | lui | lw | lwl | lwr | mfhi | mflo
  | mthi | mtlo | mult | multu | nor | or | ori | rfe | sb | sh | sll | sllv | slt | slti | sltiu
  | sltu | sra | srav | srl | srlv | sub | subu | sw | swl | swr | xor | xori | syscall | unimp
  | res | special | bcond
deriving DecidableEq

inductive Format where
  | ifmt | jfmt | rfmt
deriving DecidableEq

structure OpInfo where
  opCode : OpCode
  format : Format

def opTable : Vector OpInfo 64 :=
  #v[⟨.special, .rfmt⟩, ⟨.bcond, .ifmt⟩, ⟨.j, .jfmt⟩, ⟨.jal, .jfmt⟩,
    ⟨.beq, .ifmt⟩, ⟨.bne, .ifmt⟩, ⟨.blez, .ifmt⟩, ⟨.bgtz, .ifmt⟩,
    ⟨.addi, .ifmt⟩, ⟨.addiu, .ifmt⟩, ⟨.slti, .ifmt⟩, ⟨.sltiu, .ifmt⟩,
    ⟨.andi, .ifmt⟩, ⟨.ori, .ifmt⟩, ⟨.xori, .ifmt⟩, ⟨.lui, .ifmt⟩,
    ⟨.unimp, .ifmt⟩, ⟨.unimp, .ifmt⟩, ⟨.unimp, .ifmt⟩, ⟨.unimp, .ifmt⟩,
    ⟨.res, .ifmt⟩, ⟨.res, .ifmt⟩, ⟨.res, .ifmt⟩, ⟨.res, .ifmt⟩,
    ⟨.res, .ifmt⟩, ⟨.res, .ifmt⟩, ⟨.res, .ifmt⟩, ⟨.res, .ifmt⟩,
    ⟨.res, .ifmt⟩, ⟨.res, .ifmt⟩, ⟨.res, .ifmt⟩, ⟨.res, .ifmt⟩,
    ⟨.lb, .ifmt⟩, ⟨.lh, .ifmt⟩, ⟨.lwl, .ifmt⟩, ⟨.lw, .ifmt⟩,
    ⟨.lbu, .ifmt⟩, ⟨.lhu, .ifmt⟩, ⟨.lwr, .ifmt⟩, ⟨.res, .ifmt⟩,
    ⟨.sb, .ifmt⟩, ⟨.sh, .ifmt⟩, ⟨.swl, .ifmt⟩, ⟨.sw, .ifmt⟩,
    ⟨.res, .ifmt⟩, ⟨.res, .ifmt⟩, ⟨.swr, .ifmt⟩, ⟨.res, .ifmt⟩,
    ⟨.unimp, .ifmt⟩, ⟨.unimp, .ifmt⟩, ⟨.unimp, .ifmt⟩, ⟨.unimp, .ifmt⟩,
    ⟨.res, .ifmt⟩, ⟨.res, .ifmt⟩, ⟨.res, .ifmt⟩, ⟨.res, .ifmt⟩,
    ⟨.unimp, .ifmt⟩, ⟨.unimp, .ifmt⟩, ⟨.unimp, .ifmt⟩, ⟨.unimp, .ifmt⟩,
    ⟨.res, .ifmt⟩, ⟨.res, .ifmt⟩, ⟨.res, .ifmt⟩, ⟨.res, .ifmt⟩]

def specialTable : Vector OpCode 64 :=
  #v[.sll, .res, .srl, .sra, .sllv, .res, .srlv, .srav,
    .jr, .jalr, .res, .res, .syscall, .unimp, .res, .res,
    .mfhi, .mthi, .mflo, .mtlo, .res, .res, .res, .res,
    .mult, .multu, .div, .divu, .res, .res, .res, .res,
    .add, .addu, .sub, .subu, .and, .or, .xor, .nor,
    .res, .res, .slt, .sltu, .res, .res, .res, .res,
    .res, .res, .res, .res, .res, .res, .res, .res,
    .res, .res, .res, .res, .res, .res, .res, .res]

/-- A decoded `Instruction`. -/
structure Instruction where
  opCode : OpCode
  rs : Fin 32
  rt : Fin 32
  rd : Fin 32
  extra : Word

/-- `(value >> shift) & 0x1f`. -/
def registerField (value : Word) (shift : Nat) : Fin 32 := Fin.ofNat 32 (value >>> shift).toNat

/-- The field `extra`: a sign-extended immediate, a shift amount or a target. -/
def extraField (value : Word) : Format → Word
  | .ifmt =>
      let extra := value &&& 0xffff#32
      if extra &&& 0x8000#32 ≠ 0 then extra ||| 0xffff0000#32 else extra
  | .rfmt => (value >>> 6) &&& 0x1f#32
  | .jfmt => value &&& 0x3ffffff#32

/-- The second look at the word that `SPECIAL` and `BCOND` ask for. -/
def furtherDecode (value : Word) : OpCode → OpCode
  | .special => specialTable.get (Fin.ofNat 64 value.toNat)
  | .bcond =>
      let i := value &&& 0x1f0000#32
      if i = 0 then .bltz
      else if i = 0x10000#32 then .bgez
      else if i = 0x100000#32 then .bltzal
      else if i = 0x110000#32 then .bgezal
      else .unimp
  | opCode => opCode

/-- `Instruction::Decode`. -/
def decode (value : Word) : Instruction :=
  let opPtr := opTable.get (Fin.ofNat 64 (value >>> 26).toNat)
  { opCode := furtherDecode value opPtr.opCode
    rs := registerField value 21
    rt := registerField value 16
    rd := registerField value 11
    extra := extraField value opPtr.format }

/-! ## The machine -/

abbrev Registers := Fin 40 → Word

/-- The place of a general register in the register array. -/
def gpr (r : Fin 32) : Fin 40 := r.castLE (by decide)

abbrev hiReg : Fin 40 := 32
abbrev loReg : Fin 40 := 33
abbrev pcReg : Fin 40 := 34
abbrev nextPCReg : Fin 40 := 35
abbrev prevPCReg : Fin 40 := 36
abbrev loadReg : Fin 40 := 37
abbrev loadValueReg : Fin 40 := 38
abbrev badVAddrReg : Fin 40 := 39

structure State where
  registers : Registers
  mainMemory : Memory
  pageTable : List TranslationEntry

def State.reg (s : State) (r : Fin 32) : Word := s.registers (gpr r)

def State.set (s : State) (r : Fin 40) (x : Word) : State :=
  { s with registers := Function.update s.registers r x }

theorem State.registers_set_self (s : State) (r : Fin 40) (x : Word) :
    (s.set r x).registers r = x := by
  simp only [State.set, Function.update_self]

theorem State.registers_set_of_ne {r q : Fin 40} (h : q ≠ r) (s : State) (x : Word) :
    (s.set r x).registers q = s.registers q := by
  simp only [State.set, Function.update_of_ne h]

/-- The exceptions an instruction raises. -/
inductive ExceptionType where
  | access (e : Machine.ExceptionType)
  | overflow
  | illegalInstr
  | syscall
deriving DecidableEq

/-- `AddressErrorException`. -/
abbrev ExceptionType.addressError : ExceptionType := .access .addressError

/-- How an instruction ends other than well: in the `ExceptionHandler`, which
is called in the state `s`, or with the end of the simulator. -/
inductive Stop where
  | raise (which : ExceptionType) (s : State)
  | assert
  | wildStore
  | hostTrap

/-- `Machine::DelayedLoad`. -/
def delayedLoad (s : State) (nextReg nextValue : Word) : Except Stop State :=
  if h : (s.registers loadReg).toNat < 40 then
    .ok ((((s.set ⟨(s.registers loadReg).toNat, h⟩ (s.registers loadValueReg)).set
      loadReg nextReg).set loadValueReg nextValue).set (gpr 0) 0)
  else .error .wildStore

/-- `Machine::RaiseException` up to the call of the handler. -/
def raiseException {α : Type} (s : State) (which : ExceptionType) (badVAddr : Word) :
    Except Stop α :=
  match delayedLoad (s.set badVAddrReg badVAddr) 0 0 with
  | .ok s' => .error (.raise which s')
  | .error e => .error e

/-- `ReadMem` as an instruction calls it: an exception is raised in there. -/
def readMem (s : State) (addr : Word) (size : Nat) : Except Stop (Word × State) :=
  match Machine.readMem s.pageTable s.mainMemory addr.toInt size with
  | .ok (value, pageTable) => .ok (BitVec.ofInt 32 value, { s with pageTable := pageTable })
  | .error (.raise e) => raiseException s (.access e) addr
  | .error .assert => .error .assert

/-- `WriteMem`. -/
def writeMem (s : State) (addr : Word) (size : Nat) (value : Word) : Except Stop State :=
  match Machine.writeMem s.pageTable s.mainMemory addr.toInt size value.toInt with
  | .ok (mainMemory, pageTable) => .ok { s with mainMemory := mainMemory, pageTable := pageTable }
  | .error (.raise e) => raiseException s (.access e) addr
  | .error .assert => .error .assert

/-! ## Multiplication -/

/-- The loop of `Mult`, with `n` rounds to go; the result is `hi` and `lo`. -/
def multLoop : Nat → (a bLo bHi lo hi : Word) → Word × Word
  | 0, _, _, _, lo, hi => (hi, lo)
  | n + 1, a, bLo, bHi, lo, hi =>
      let odd := a &&& 1#32 ≠ 0
      let lo' := if odd then lo + bLo else lo
      let carry := if odd ∧ lo' < bLo then 1#32 else 0#32
      let hi' := if odd then hi + carry + bHi else hi
      if odd ∧ a &&& 0xfffffffe#32 = 0 then (hi', lo')
      else
        let bHi' := if bLo &&& 0x80000000#32 ≠ 0 then (bHi <<< 1) ||| 1#32 else bHi <<< 1
        multLoop n (a.sshiftRight 1) (bLo <<< 1) bHi' lo' hi'

/-- `Mult`: what it leaves at `hiPtr` and `loPtr`. -/
def mult (a b : Word) (signedArith : Bool) : Word × Word :=
  if a = 0 ∨ b = 0 then (0, 0)
  else
    let negative := signedArith && (a.slt 0 ^^ b.slt 0)
    let a' := if signedArith && a.slt 0 then -a else a
    let b' := if signedArith && b.slt 0 then -b else b
    let (hi, lo) := multLoop 32 a' b' 0 0 0
    if negative then
      let lo' := ~~~lo + 1
      (if lo' = 0 then ~~~hi + 1 else ~~~hi, lo')
    else (hi, lo)

/-! ## The merges of the unaligned accesses

`byte` is `tmp & 0x3`; the switches are on `3 - byte`. -/

def lwlMerge (byte : Nat) (nextLoadValue value : Word) : Word :=
  match 3 - byte with
  | 0 => value
  | 1 => (nextLoadValue &&& 0xff#32) ||| (value <<< 8)
  | 2 => (nextLoadValue &&& 0xffff#32) ||| (value <<< 16)
  | _ => (nextLoadValue &&& 0xffffff#32) ||| (value <<< 24)

def lwrMerge (byte : Nat) (nextLoadValue value : Word) : Word :=
  match 3 - byte with
  | 0 => (nextLoadValue &&& 0xffffff00#32) ||| ((value.sshiftRight 24) &&& 0xff#32)
  | 1 => (nextLoadValue &&& 0xffff0000#32) ||| ((value.sshiftRight 16) &&& 0xffff#32)
  | 2 => (nextLoadValue &&& 0xff000000#32) ||| ((value.sshiftRight 8) &&& 0xffffff#32)
  | _ => value

def swlMerge (byte : Nat) (rt value : Word) : Word :=
  match 3 - byte with
  | 0 => rt
  | 1 => (value &&& 0xff000000#32) ||| ((rt.sshiftRight 8) &&& 0xffffff#32)
  | 2 => (value &&& 0xffff0000#32) ||| ((rt.sshiftRight 16) &&& 0xffff#32)
  | _ => (value &&& 0xffffff00#32) ||| ((rt.sshiftRight 24) &&& 0xff#32)

def swrMerge (byte : Nat) (rt value : Word) : Word :=
  match 3 - byte with
  | 0 => (value &&& 0xffffff#32) ||| (rt <<< 24)
  | 1 => (value &&& 0xffff#32) ||| (rt <<< 16)
  | 2 => (value &&& 0xff#32) ||| (rt <<< 8)
  | _ => rt

/-! ## The switch -/

/-- What the switch leaves for the code behind it. -/
structure Done where
  state : State
  pcAfter : Word
  nextLoadReg : Word
  nextLoadValue : Word

/-- `x & SIGN_BIT`. -/
def signBit (x : Word) : Bool := x &&& 0x80000000#32 ≠ 0

/-- `IndexToAddr`. -/
def indexToAddr (x : Word) : Word := x <<< 2

/-- The number of a general register, as the `int` in `nextLoadReg`. -/
def regWord (r : Fin 32) : Word := BitVec.ofNat 32 r.val

namespace State

variable (s : State)

/-- `break` with no load to delay. -/
def done (pcAfter : Word) : Except Stop Done := .ok ⟨s, pcAfter, 0, 0⟩

/-- `break` with a load into `rt` to delay. -/
def load (pcAfter : Word) (rt : Fin 32) (value : Word) : Except Stop Done :=
  .ok ⟨s, pcAfter, regWord rt, value⟩

/-- `registers[LoReg]` and `registers[HiReg]`. -/
def setHiLo (hi lo : Word) : State := (s.set loReg lo).set hiReg hi

/-- The old value of `rt` that `LWL` and `LWR` merge into. -/
def forwarded (rt : Fin 32) : Word :=
  if s.registers loadReg = regWord rt then s.registers loadValueReg else s.reg rt

end State

/-- `tmp & 0x3`. -/
def byteOf (tmp : Word) : Nat := (tmp &&& 3#32).toNat

/-- The word an unaligned access reads, at `tmp - byte`. -/
def wordBase (tmp : Word) : Word := tmp - BitVec.ofNat 32 (byteOf tmp)

/-- `OP_LB` and `OP_LBU`. -/
def loadByte (i : Instruction) (s : State) (pcAfter : Word) : Except Stop Done := do
  let (value, s) ← readMem s (s.reg i.rs + i.extra) 1
  if value &&& 0x80#32 ≠ 0 ∧ i.opCode = .lb then s.load pcAfter i.rt (value ||| 0xffffff00#32)
  else s.load pcAfter i.rt (value &&& 0xff#32)

/-- `OP_LH` and `OP_LHU`. -/
def loadHalf (i : Instruction) (s : State) (pcAfter : Word) : Except Stop Done :=
  let tmp := s.reg i.rs + i.extra
  if tmp &&& 1#32 ≠ 0 then raiseException s .addressError tmp
  else do
    let (value, s) ← readMem s tmp 2
    if value &&& 0x8000#32 ≠ 0 ∧ i.opCode = .lh then s.load pcAfter i.rt (value ||| 0xffff0000#32)
    else s.load pcAfter i.rt (value &&& 0xffff#32)

/-- `OP_LW`. -/
def loadWord (i : Instruction) (s : State) (pcAfter : Word) : Except Stop Done :=
  let tmp := s.reg i.rs + i.extra
  if tmp &&& 3#32 ≠ 0 then raiseException s .addressError tmp
  else do
    let (value, s) ← readMem s tmp 4
    s.load pcAfter i.rt value

/-- `OP_LWL` and `OP_LWR`, which differ in the merge. -/
def loadPart (merge : Nat → Word → Word → Word) (i : Instruction) (s : State) (pcAfter : Word) :
    Except Stop Done := do
  let tmp := s.reg i.rs + i.extra
  let (value, s) ← readMem s (wordBase tmp) 4
  s.load pcAfter i.rt (merge (byteOf tmp) (s.forwarded i.rt) value)

/-- `OP_SB`, `OP_SH` and `OP_SW`. -/
def store (size : Nat) (i : Instruction) (s : State) (pcAfter : Word) : Except Stop Done := do
  let s ← writeMem s (s.reg i.rs + i.extra) size (s.reg i.rt)
  s.done pcAfter

/-- `OP_SWL` and `OP_SWR`, which differ in the merge. -/
def storePart (merge : Nat → Word → Word → Word) (i : Instruction) (s : State) (pcAfter : Word) :
    Except Stop Done := do
  let tmp := s.reg i.rs + i.extra
  let (value, s) ← readMem s (wordBase tmp) 4
  let s ← writeMem s (wordBase tmp) 4 (merge (byteOf tmp) (s.reg i.rt) value)
  s.done pcAfter

/-- The branches: to the target when the condition holds. -/
def branch (taken : Bool) (i : Instruction) (s : State) (pcAfter : Word) : Except Stop Done :=
  s.done (if taken then s.registers nextPCReg + indexToAddr i.extra else pcAfter)

/-- The link of `OP_BGEZAL`, `OP_BLTZAL`, `OP_JAL` and `OP_JALR`. -/
def link (r : Fin 32) (s : State) : State := s.set (gpr r) (s.registers nextPCReg + 4)

/-- `OP_J`, and the second half of `OP_JAL`. -/
def jump (i : Instruction) (s : State) (pcAfter : Word) : Except Stop Done :=
  s.done ((pcAfter &&& 0xf0000000#32) ||| indexToAddr i.extra)

/-- The instructions that compute a value and put it into a register. -/
def put (r : Fin 32) (x : Word) (s : State) (pcAfter : Word) : Except Stop Done :=
  (s.set (gpr r) x).done pcAfter

/-- `1` or `0`, as the comparisons leave it. -/
def flag (b : Bool) : Word := if b then 1 else 0

/-- `OP_DIV`. A quotient that does not fit is the host's trap. -/
def divide (i : Instruction) (s : State) (pcAfter : Word) : Except Stop Done :=
  let rs := s.reg i.rs
  let rt := s.reg i.rt
  if rt = 0 then (s.setHiLo 0 0).done pcAfter
  else if rs = BitVec.intMin 32 ∧ rt = -1 then .error .hostTrap
  else (s.setHiLo (rs.srem rt) (rs.sdiv rt)).done pcAfter

/-- `OP_DIVU`. -/
def divideUnsigned (i : Instruction) (s : State) (pcAfter : Word) : Except Stop Done :=
  let rs := s.reg i.rs
  let rt := s.reg i.rt
  if rt = 0 then (s.setHiLo 0 0).done pcAfter
  else (s.setHiLo (rs % rt) (rs / rt)).done pcAfter

/-- `OP_MULT` and `OP_MULTU`. -/
def multiply (signedArith : Bool) (i : Instruction) (s : State) (pcAfter : Word) :
    Except Stop Done :=
  let (hi, lo) := mult (s.reg i.rs) (s.reg i.rt) signedArith
  (s.setHiLo hi lo).done pcAfter

/-- The switch of `OneInstruction`. -/
def execute (i : Instruction) (s : State) : Except Stop Done :=
  let pcAfter := s.registers nextPCReg + 4
  let rs := s.reg i.rs
  let rt := s.reg i.rt
  let extra := i.extra
  -- how far the shifts by a register shift
  let amount := (rs &&& 0x1f#32).toNat
  match i.opCode with
  | .add =>
      let sum := rs + rt
      if !signBit (rs ^^^ rt) && signBit (rs ^^^ sum) then raiseException s .overflow 0
      else put i.rd sum s pcAfter
  | .addi =>
      let sum := rs + extra
      if !signBit (rs ^^^ extra) && signBit (extra ^^^ sum) then raiseException s .overflow 0
      else put i.rt sum s pcAfter
  | .addiu => put i.rt (rs + extra) s pcAfter
  | .addu => put i.rd (rs + rt) s pcAfter
  | .and => put i.rd (rs &&& rt) s pcAfter
  | .andi => put i.rt (rs &&& (extra &&& 0xffff#32)) s pcAfter
  | .beq => branch (rs == rt) i s pcAfter
  -- the links are set before the branch reads its register
  | .bgezal => branch (!signBit ((link 31 s).reg i.rs)) i (link 31 s) pcAfter
  | .bgez => branch (!signBit rs) i s pcAfter
  | .bgtz => branch (BitVec.slt 0 rs) i s pcAfter
  | .blez => branch (BitVec.sle rs 0) i s pcAfter
  | .bltzal => branch (signBit ((link 31 s).reg i.rs)) i (link 31 s) pcAfter
  | .bltz => branch (signBit rs) i s pcAfter
  | .bne => branch (rs != rt) i s pcAfter
  | .div => divide i s pcAfter
  | .divu => divideUnsigned i s pcAfter
  | .jal => jump i (link 31 s) pcAfter
  | .j => jump i s pcAfter
  | .jalr => (link i.rd s).done ((link i.rd s).reg i.rs)
  | .jr => s.done rs
  | .lb | .lbu => loadByte i s pcAfter
  | .lh | .lhu => loadHalf i s pcAfter
  | .lui => put i.rt (extra <<< 16) s pcAfter
  | .lw => loadWord i s pcAfter
  | .lwl => loadPart lwlMerge i s pcAfter
  | .lwr => loadPart lwrMerge i s pcAfter
  | .mfhi => put i.rd (s.registers hiReg) s pcAfter
  | .mflo => put i.rd (s.registers loReg) s pcAfter
  | .mthi => (s.set hiReg rs).done pcAfter
  | .mtlo => (s.set loReg rs).done pcAfter
  | .mult => multiply true i s pcAfter
  | .multu => multiply false i s pcAfter
  | .nor => put i.rd (~~~(rs ||| rt)) s pcAfter
  | .or => put i.rd (rs ||| rt) s pcAfter
  | .ori => put i.rt (rs ||| (extra &&& 0xffff#32)) s pcAfter
  | .sb => store 1 i s pcAfter
  | .sh => store 2 i s pcAfter
  | .sll => put i.rd (rt <<< extra.toNat) s pcAfter
  | .sllv => put i.rd (rt <<< amount) s pcAfter
  | .slt => put i.rd (flag (rs.slt rt)) s pcAfter
  | .slti => put i.rt (flag (rs.slt extra)) s pcAfter
  | .sltiu => put i.rt (flag (rs.ult extra)) s pcAfter
  | .sltu => put i.rd (flag (rs.ult rt)) s pcAfter
  | .sra => put i.rd (rt.sshiftRight extra.toNat) s pcAfter
  | .srav => put i.rd (rt.sshiftRight amount) s pcAfter
  -- `tmp` is an `int`, so these two shift as the two above
  | .srl => put i.rd (rt.sshiftRight extra.toNat) s pcAfter
  | .srlv => put i.rd (rt.sshiftRight amount) s pcAfter
  | .sub =>
      let diff := rs - rt
      if signBit (rs ^^^ rt) && signBit (rs ^^^ diff) then raiseException s .overflow 0
      else put i.rd diff s pcAfter
  | .subu => put i.rd (rs - rt) s pcAfter
  | .sw => store 4 i s pcAfter
  | .swl => storePart swlMerge i s pcAfter
  | .swr => storePart swrMerge i s pcAfter
  | .syscall => raiseException s .syscall 0
  | .xor => put i.rd (rs ^^^ rt) s pcAfter
  | .xori => put i.rt (rs ^^^ (extra &&& 0xffff#32)) s pcAfter
  | .res | .unimp => raiseException s .illegalInstr 0
  | .rfe | .special | .bcond => .error .assert

/-- The program counters at the end of `OneInstruction`. -/
def advance (s : State) (pcAfter : Word) : State :=
  let s := s.set prevPCReg (s.registers pcReg)
  let s := s.set pcReg (s.registers nextPCReg)
  s.set nextPCReg pcAfter

/-- `Machine::OneInstruction`. -/
def oneInstruction (s : State) : Except Stop State := do
  let (raw, s) ← readMem s (s.registers pcReg) 4
  let d ← execute (decode raw) s
  let s ← delayedLoad d.state d.nextLoadReg d.nextLoadValue
  return advance s d.pcAfter

end Mips

end Nachos
