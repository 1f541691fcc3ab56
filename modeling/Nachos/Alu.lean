import Nachos.CInt
import Nachos.LoadDelay

/-!
# Arithmetic, logic, shifts and comparisons against the manual

The instructions that compute a word from two registers, or from a register
and an immediate or a shift amount. `AluOp.manual` is what the manual of the
R2000 gives for them, in integers: the exact sum or difference or the
overflow exception, the result modulo 2^32, an operation on each bit, a
product or a quotient with a power of two, a comparison of the signed or of
the unsigned values. `effect` is the whole instruction: a load that is
pending arrives before the result is stored, and register 0 stays 0.
`AluOp.computed` is what the cases of the switch do, on words, and
`execute_alu` what the switch does with it.

The two agree (`computed_eq_manual_iff`) but for `SRL` and `SRLV`: there
`tmp` is an `int`, and the shift fills with the sign. `OneInstruction` does
`DelayedLoad` behind the switch, so a load that is pending into the
destination goes over the result (`delayedLoad_put`).
-/

namespace Nachos

namespace Mips

open CInt

/-! ## The manual -/

inductive AluOp where
  | add | addi | addiu | addu | and | andi | nor | or | ori | sll | sllv | slt | slti | sltiu | sltu
  | sra | srav | srl | srlv | sub | subu | xor | xori
deriving DecidableEq

namespace AluOp

def opCode : AluOp → OpCode
  | add => .add
  | addi => .addi
  | addiu => .addiu
  | addu => .addu
  | and => .and
  | andi => .andi
  | nor => .nor
  | or => .or
  | ori => .ori
  | sll => .sll
  | sllv => .sllv
  | slt => .slt
  | slti => .slti
  | sltiu => .sltiu
  | sltu => .sltu
  | sra => .sra
  | srav => .srav
  | srl => .srl
  | srlv => .srlv
  | sub => .sub
  | subu => .subu
  | xor => .xor
  | xori => .xori

/-- The second operand is the immediate, and the result goes to `rt`. -/
def immediate : AluOp → Bool
  | addi | addiu | andi | ori | slti | sltiu | xori => true
  | _ => false

/-- The shift amount is a field of the instruction. -/
def fixedShift : AluOp → Bool
  | sll | sra | srl => true
  | _ => false

/-- How far the instruction shifts: by the field, or by the low five bits of
`rs`. -/
def amount (op : AluOp) (rs : Word) (sa : Nat) : Nat := if op.fixedShift then sa else rs.toNat % 32

end AluOp

/-- The exact result, or `none` for the overflow exception. -/
def exactly (x : Int) : Option Word := if IsInt x then some (BitVec.ofInt 32 x) else none

/-- An operation on each bit. -/
def bitwise (f : Bool → Bool → Bool) (x y : Word) : Word :=
  (BitVec.iunfoldr (fun i (_ : Unit) => ((), f (x.getLsb i) (y.getLsb i))) ()).2

/-- What the instruction leaves according to the manual, `none` for the
overflow exception, for the operands in `rs` and `rt`, the 16 bits of the
immediate and the shift amount. -/
def AluOp.manual (op : AluOp) (rs rt : Word) (imm : BitVec 16) (sa : Nat) : Option Word :=
  match op with
  | add => exactly (rs.toInt + rt.toInt)
  | addi => exactly (rs.toInt + imm.toInt)
  | sub => exactly (rs.toInt - rt.toInt)
  | addu => some (BitVec.ofNat 32 (rs.toNat + rt.toNat))
  | addiu => some (BitVec.ofInt 32 (rs.toNat + imm.toInt))
  | subu => some (BitVec.ofInt 32 (rs.toNat - rt.toNat))
  | and => some (bitwise (· && ·) rs rt)
  | or => some (bitwise (· || ·) rs rt)
  | xor => some (bitwise (· ^^ ·) rs rt)
  | nor => some (bitwise (fun a b => !(a || b)) rs rt)
  | andi => some (bitwise (· && ·) rs (imm.zeroExtend 32))
  | ori => some (bitwise (· || ·) rs (imm.zeroExtend 32))
  | xori => some (bitwise (· ^^ ·) rs (imm.zeroExtend 32))
  | sll | sllv => some (BitVec.ofNat 32 (rt.toNat * 2 ^ op.amount rs sa))
  | srl | srlv => some (BitVec.ofNat 32 (rt.toNat / 2 ^ op.amount rs sa))
  | sra | srav => some (BitVec.ofInt 32 (rt.toInt / 2 ^ op.amount rs sa))
  | slt => some (if rs.toInt < rt.toInt then 1 else 0)
  | slti => some (if rs.toInt < imm.toInt then 1 else 0)
  | sltu => some (if rs.toNat < rt.toNat then 1 else 0)
  | sltiu => some (if rs.toNat < (imm.signExtend 32).toNat then 1 else 0)

/-- The immediate of an instruction word. -/
def immediateOf (value : Word) : BitVec 16 := value.setWidth 16

/-- The shift amount of an instruction word. -/
def shamtOf (value : Word) : Nat := value.toNat / 64 % 32

/-- The register the result goes to. -/
def AluOp.dest (op : AluOp) (i : Instruction) : Fin 32 := if op.immediate then i.rt else i.rd

/-- What the manual gives for an instruction word. -/
def AluOp.result (op : AluOp) (value : Word) (s : State) : Option Word :=
  op.manual (s.reg (decode value).rs) (s.reg (decode value).rt) (immediateOf value) (shamtOf value)

/-- The effect of an instruction with the result `r`: the pending load, the
result in the register and the next instruction, or the exception. -/
def effect (dest : Fin 32) (s : State) : Option Word → Except Stop State
  | none => raiseException s .overflow 0
  | some x => (settle s).map fun f =>
      advance (f.set (gpr dest) (if dest = 0 then 0 else x)) (s.registers nextPCReg + 4)

/-- What the switch does with the result `r`. -/
def outcome (dest : Fin 32) (s : State) : Option Word → Except Stop Done
  | none => raiseException s .overflow 0
  | some x => put dest x s (s.registers nextPCReg + 4)

/-! ## The code -/

/-- What the case of the switch computes from `rs`, `rt` and `extra`. -/
def AluOp.computed (op : AluOp) (rs rt extra : Word) : Option Word :=
  match op with
  | add => if !signBit (rs ^^^ rt) && signBit (rs ^^^ (rs + rt)) then none else some (rs + rt)
  | addi =>
      if !signBit (rs ^^^ extra) && signBit (extra ^^^ (rs + extra)) then none
      else some (rs + extra)
  | sub => if signBit (rs ^^^ rt) && signBit (rs ^^^ (rs - rt)) then none else some (rs - rt)
  | addu => some (rs + rt)
  | addiu => some (rs + extra)
  | subu => some (rs - rt)
  | and => some (rs &&& rt)
  | or => some (rs ||| rt)
  | xor => some (rs ^^^ rt)
  | nor => some (~~~(rs ||| rt))
  | andi => some (rs &&& (extra &&& 0xffff#32))
  | ori => some (rs ||| (extra &&& 0xffff#32))
  | xori => some (rs ^^^ (extra &&& 0xffff#32))
  | sll => some (rt <<< extra.toNat)
  | sllv => some (rt <<< (rs &&& 0x1f#32).toNat)
  | sra | srl => some (rt.sshiftRight extra.toNat)
  | srav | srlv => some (rt.sshiftRight (rs &&& 0x1f#32).toNat)
  | slt => some (flag (rs.slt rt))
  | slti => some (flag (rs.slt extra))
  | sltu => some (flag (rs.ult rt))
  | sltiu => some (flag (rs.ult extra))

theorem execute_alu (op : AluOp) {i : Instruction} (hop : i.opCode = op.opCode) (s : State) :
    execute i s = outcome (op.dest i) s (op.computed (s.reg i.rs) (s.reg i.rt) i.extra) := by
  cases op with
  | add | addi | sub =>
      simp only [execute, hop, AluOp.opCode, AluOp.computed]
      split <;> rfl
  | _ => simp only [execute, hop, AluOp.opCode, AluOp.computed]; rfl

theorem advance_gpr (s : State) (pcAfter : Word) (r : Fin 32) :
    (advance s pcAfter).registers (gpr r) = s.registers (gpr r) := by
  rw [advance, State.registers_set_of_ne (gpr_ne (by decide)),
    State.registers_set_of_ne (gpr_ne (by decide)), State.registers_set_of_ne (gpr_ne (by decide))]

/-- A load that is pending is delivered behind the result. -/
theorem delayedLoad_put {t : Fin 32} {s : State} (h : s.registers loadReg = regWord t)
    (dest : Fin 32) (x : Word) :
    delayedLoad (s.set (gpr dest) x) 0 0 = (settle s).map fun f => f.set (gpr dest)
      (if dest = 0 then 0 else if dest = t then s.registers loadValueReg else x) := by
  have hkeep : ∀ q : Fin 40, 32 ≤ q.val → (s.set (gpr dest) x).registers q = s.registers q :=
    fun q hq => State.registers_set_of_ne (gpr_ne hq).symm s x
  have hinj : ∀ r q : Fin 32, gpr r = gpr q ↔ r = q := fun r q => ⟨gpr_inj, congrArg gpr⟩
  rw [settle, delayedLoad_eq h, delayedLoad_eq ((hkeep loadReg (by decide)).trans h),
    hkeep loadValueReg (by decide), Except.map]
  simp only [State.set]
  congr 2
  funext q
  simp only [Function.update_apply]
  by_cases hq : q = gpr dest
  · have hload : gpr dest ≠ loadReg := gpr_ne (by decide)
    have hvalue : gpr dest ≠ loadValueReg := gpr_ne (by decide)
    simp only [hq, hinj, hload, hvalue, if_false, if_true]
  · rw [if_neg hq, if_neg hq]

/-! ## Decoding the operands -/

/-- The format of these opcodes. -/
def OpCode.aluFormat : OpCode → Option Format
  | .addi | .addiu | .andi | .ori | .slti | .sltiu | .xori => some .ifmt
  | .add | .addu | .and | .nor | .or | .sll | .sllv | .slt | .sltu | .sra | .srav | .srl | .srlv
  | .sub | .subu | .xor => some .rfmt
  | _ => none

theorem AluOp.aluFormat_opCode (op : AluOp) :
    op.opCode.aluFormat = some (if op.immediate then .ifmt else .rfmt) := by
  cases op <;> rfl

theorem opTable_format : ∀ i : Fin 64,
    ((opTable.get i).opCode = .special ∧ (opTable.get i).format = .rfmt)
      ∨ (opTable.get i).opCode = .bcond
      ∨ ((opTable.get i).opCode ≠ .special ∧ (opTable.get i).opCode ≠ .bcond
        ∧ ((opTable.get i).opCode.aluFormat = none
          ∨ (opTable.get i).opCode.aluFormat = some (opTable.get i).format)) := by
  decide

theorem specialTable_format : ∀ i : Fin 64,
    (specialTable.get i).aluFormat = none ∨ (specialTable.get i).aluFormat = some .rfmt := by
  decide

theorem furtherDecode_of_ne {opCode : OpCode} (hspecial : opCode ≠ .special)
    (hbcond : opCode ≠ .bcond) (value : Word) : furtherDecode value opCode = opCode := by
  cases opCode <;> first | rfl | contradiction

theorem furtherDecode_bcond (value : Word) : (furtherDecode value .bcond).aluFormat = none := by
  simp only [furtherDecode]
  repeat' split
  all_goals rfl

/-- The tables give the opcode its format. -/
theorem decode_format {value : Word} {format : Format}
    (h : (decode value).opCode.aluFormat = some format) :
    (decode value).extra = extraField value format := by
  have hentry := opTable_format (Fin.ofNat 64 (value >>> 26).toNat)
  simp only [decode] at h ⊢
  generalize opTable.get (Fin.ofNat 64 (value >>> 26).toNat) = entry at h hentry ⊢
  obtain ⟨hop, hformat⟩ | hop | ⟨hspecial, hbcond, hformat⟩ := hentry
  · rw [hop] at h
    have hcases := specialTable_format (Fin.ofNat 64 value.toNat)
    rw [show furtherDecode value .special =
        specialTable.get (Fin.ofNat 64 value.toNat) from rfl] at h
    rw [h] at hcases
    rw [hformat]
    obtain hnone | hsome := hcases
    · cases hnone
    · rw [Option.some.inj hsome]
  · rw [hop, furtherDecode_bcond] at h
    cases h
  · rw [furtherDecode_of_ne hspecial hbcond] at h
    rw [h] at hformat
    obtain hnone | hsome := hformat
    · cases hnone
    · rw [Option.some.inj hsome]

theorem getLsbD_0xffff : ∀ i < 32, (0xffff#32).getLsbD i = decide (i < 16) := by decide

theorem getLsbD_0xffff0000 : ∀ i < 32, (0xffff0000#32).getLsbD i = decide (16 ≤ i) := by decide

/-- `x & SIGN_BIT` is the sign. -/
theorem signBit_eq_msb (x : Word) : signBit x = x.msb := by
  have hand := BitVec.and_twoPow x 31
  rw [show BitVec.twoPow 32 31 = 0x80000000#32 from rfl] at hand
  rw [signBit, hand, BitVec.msb_eq_getLsbD_last]
  cases x.getLsbD 31 <;> rfl

/-- The test of bit 15 decides about the upper half. -/
theorem extraField_ifmt_cases (value : Word) :
    extraField value .ifmt =
      if value.getLsbD 15 then (value &&& 0xffff#32) ||| 0xffff0000#32
      else value &&& 0xffff#32 := by
  have hand := BitVec.and_twoPow value 15
  rw [show BitVec.twoPow 32 15 = 0x8000#32 from rfl] at hand
  have htest : (value &&& 0xffff#32) &&& 0x8000#32
      = if value.getLsbD 15 then 0x8000#32 else 0#32 := by
    rw [BitVec.and_assoc, show 0xffff#32 &&& 0x8000#32 = 0x8000#32 from rfl, hand]
  simp only [extraField, htest]
  cases value.getLsbD 15 <;> rfl

theorem extraField_ifmt (value : Word) :
    extraField value .ifmt = (immediateOf value).signExtend 32 := by
  have hsign : (immediateOf value).msb = value.getLsbD 15 := by
    rw [BitVec.msb_eq_getLsbD_last, immediateOf, BitVec.getLsbD_setWidth]
    rfl
  apply BitVec.eq_of_getLsbD_eq
  intro i hi
  rw [extraField_ifmt_cases, BitVec.getLsbD_signExtend, hsign, immediateOf,
    BitVec.getLsbD_setWidth]
  have hlo := getLsbD_0xffff i hi
  have hhi := getLsbD_0xffff0000 i hi
  cases value.getLsbD 15 with
  | false =>
      rw [if_neg Bool.false_ne_true, BitVec.getLsbD_and, hlo]
      by_cases hlow : i < 16 <;> simp [hi, hlow]
  | true =>
      rw [if_pos rfl, BitVec.getLsbD_or, BitVec.getLsbD_and, hlo, hhi]
      by_cases hlow : i < 16 <;> simp [hi, hlow]
      omega

theorem toNat_and_0x1f (x : Word) : (x &&& 0x1f#32).toNat = x.toNat % 32 :=
  Nat.and_two_pow_sub_one_eq_mod x.toNat 5

theorem extraField_rfmt (value : Word) : (extraField value .rfmt).toNat = shamtOf value := by
  rw [extraField, toNat_and_0x1f, BitVec.toNat_ushiftRight, Nat.shiftRight_eq_div_pow]
  rfl

/-! ## The code against the manual -/

theorem isInt_add_iff (x y : Word) :
    IsInt (x.toInt + y.toInt) ↔ BitVec.saddOverflow x y = false := by
  simp only [IsInt, intMin, intMax, BitVec.saddOverflow, Bool.or_eq_false_iff,
    decide_eq_false_iff_not]
  omega

theorem isInt_sub_iff (x y : Word) :
    IsInt (x.toInt - y.toInt) ↔ BitVec.ssubOverflow x y = false := by
  simp only [IsInt, intMin, intMax, BitVec.ssubOverflow, Bool.or_eq_false_iff,
    decide_eq_false_iff_not]
  omega

theorem ofInt_toInt_sub (x y : Word) : BitVec.ofInt 32 (x.toInt - y.toInt) = x - y := by
  rw [Int.sub_eq_add_neg, BitVec.ofInt_add, BitVec.ofInt_neg, BitVec.ofInt_toInt,
    BitVec.ofInt_toInt, BitVec.sub_eq_add_neg]

theorem exactly_eq {n : Int} {x : Word} {wraps : Bool} (hx : BitVec.ofInt 32 n = x)
    (hint : IsInt n ↔ wraps = false) : exactly n = if wraps then none else some x := by
  rw [exactly, hx]
  cases wraps with
  | false => rw [if_pos (hint.mpr rfl)]; rfl
  | true => rw [if_neg fun h => Bool.noConfusion (hint.mp h)]; rfl

/-- The test of `OP_ADD`: the operands have the same sign and the sum another
one. -/
theorem exactly_add (x y : Word) :
    exactly (x.toInt + y.toInt) =
      if !signBit (x ^^^ y) && signBit (x ^^^ (x + y)) then none else some (x + y) := by
  have htest : (!signBit (x ^^^ y) && signBit (x ^^^ (x + y))) = BitVec.saddOverflow x y := by
    rw [signBit_eq_msb, signBit_eq_msb, BitVec.msb_xor, BitVec.msb_xor, BitVec.saddOverflow_eq]
    cases x.msb <;> cases y.msb <;> cases (x + y).msb <;> rfl
  rw [htest]
  refine exactly_eq ?_ (isInt_add_iff x y)
  rw [BitVec.ofInt_add, BitVec.ofInt_toInt, BitVec.ofInt_toInt]

/-- The test of `OP_SUB`: the operands have different signs and the
difference not that of the first. -/
theorem exactly_sub (x y : Word) :
    exactly (x.toInt - y.toInt) =
      if signBit (x ^^^ y) && signBit (x ^^^ (x - y)) then none else some (x - y) := by
  have htest : (signBit (x ^^^ y) && signBit (x ^^^ (x - y))) = BitVec.ssubOverflow x y := by
    rw [signBit_eq_msb, signBit_eq_msb, BitVec.msb_xor, BitVec.msb_xor, BitVec.ssubOverflow_eq]
    cases x.msb <;> cases y.msb <;> cases (x - y).msb <;> rfl
  rw [htest]
  exact exactly_eq (ofInt_toInt_sub x y) (isInt_sub_iff x y)

theorem bitwise_eq {f : Bool → Bool → Bool} {x y z : Word}
    (h : ∀ i < 32, z.getLsbD i = f (x.getLsbD i) (y.getLsbD i)) : z = bitwise f x y := by
  apply BitVec.eq_of_getLsbD_eq
  intro i hi
  rw [h i hi]
  exact (BitVec.iunfoldr_getLsbD
    (f := fun i (_ : Unit) => ((), f (x.getLsb i) (y.getLsb i))) (fun _ => ()) ⟨i, hi⟩
    fun _ => rfl).symm

theorem signExtend_and_0xffff (imm : BitVec 16) :
    imm.signExtend 32 &&& 0xffff#32 = imm.zeroExtend 32 := by
  apply BitVec.eq_of_getLsbD_eq
  intro i hi
  rw [BitVec.getLsbD_and, BitVec.getLsbD_signExtend, getLsbD_0xffff i hi, BitVec.zeroExtend,
    BitVec.getLsbD_setWidth]
  by_cases hlow : i < 16
  · simp [hi, hlow]
  · simp [hlow, BitVec.getLsbD_of_ge imm i (Nat.not_lt.mp hlow)]

theorem ofNat_shiftLeft (x : Word) (n : Nat) : x <<< n = BitVec.ofNat 32 (x.toNat * 2 ^ n) := by
  apply BitVec.eq_of_toNat_eq
  rw [BitVec.toNat_shiftLeft, BitVec.toNat_ofNat, Nat.shiftLeft_eq]

theorem ofNat_shiftRight (x : Word) (n : Nat) : x >>> n = BitVec.ofNat 32 (x.toNat / 2 ^ n) := by
  apply BitVec.eq_of_toNat_eq
  rw [BitVec.toNat_ushiftRight, BitVec.toNat_ofNat, Nat.shiftRight_eq_div_pow,
    Nat.mod_eq_of_lt (Nat.lt_of_le_of_lt (Nat.div_le_self _ _) x.isLt)]

theorem ofInt_sshiftRight (x : Word) (n : Nat) :
    x.sshiftRight n = BitVec.ofInt 32 (x.toInt / 2 ^ n) := by
  rw [← BitVec.ofInt_toInt (x := x.sshiftRight n), BitVec.toInt_sshiftRight,
    Int.shiftRight_eq_div_pow]
  rfl

/-- The shift of an `int` fills with zeros if it is not negative or does not
move. -/
theorem sshiftRight_eq_iff (x : Word) (n : Nat) :
    x.sshiftRight n = x >>> n ↔ 0 ≤ x.toInt ∨ n = 0 := by
  have hsign : 0 ≤ x.toInt ↔ x.msb = false := by
    rw [BitVec.msb_eq_toInt, decide_eq_false_iff_not, Int.not_lt]
  rw [hsign]
  constructor
  · intro h
    have hmsb := congrArg BitVec.msb h
    rw [BitVec.msb_sshiftRight, BitVec.msb_ushiftRight] at hmsb
    cases hx : x.msb with
    | false => exact Or.inl rfl
    | true =>
        rw [hx] at hmsb
        refine Or.inr ?_
        simpa using hmsb
  · rintro (hx | rfl)
    · exact BitVec.sshiftRight_eq_of_msb_false hx
    · rw [BitVec.sshiftRight_zero, BitVec.ushiftRight_zero]

/-- The instruction is not a logical right shift that moves a negative
word. -/
def AluOp.Agrees (op : AluOp) (rs rt : Word) (sa : Nat) : Prop :=
  (op = srl ∨ op = srlv) → 0 ≤ rt.toInt ∨ op.amount rs sa = 0

theorem flag_decide (p : Prop) [Decidable p] : flag (decide p) = if p then 1 else 0 := by
  by_cases hp : p <;> simp [flag, hp]

/-- All but the two shifts do what the manual says. -/
theorem computed_eq_manual {op : AluOp} (hsrl : op ≠ .srl) (hsrlv : op ≠ .srlv) (rs rt : Word)
    (imm : BitVec 16) {extra : Word} {sa : Nat}
    (himm : op.immediate = true → extra = imm.signExtend 32)
    (hsa : op.fixedShift = true → extra.toNat = sa) :
    op.computed rs rt extra = op.manual rs rt imm sa := by
  have hext : (imm.signExtend 32).toInt = imm.toInt := BitVec.toInt_signExtend_of_le (by decide)
  have hnat : ∀ x : Word, BitVec.ofInt 32 x.toNat = x := fun x => by
    rw [BitVec.ofInt_natCast, BitVec.ofNat_toNat, BitVec.setWidth_eq]
  cases op with
  | add => exact (exactly_add rs rt).symm
  | addi =>
      obtain rfl := himm rfl
      simp only [AluOp.computed, AluOp.manual]
      rw [← hext, Int.add_comm, exactly_add, BitVec.xor_comm rs, BitVec.add_comm rs]
  | sub => exact (exactly_sub rs rt).symm
  | addu =>
      refine congrArg some ?_
      rw [BitVec.ofNat_add, BitVec.ofNat_toNat, BitVec.ofNat_toNat, BitVec.setWidth_eq,
        BitVec.setWidth_eq]
  | addiu =>
      obtain rfl := himm rfl
      refine congrArg some ?_
      rw [BitVec.ofInt_add, hnat]
      rfl
  | subu =>
      refine congrArg some ?_
      rw [Int.sub_eq_add_neg, BitVec.ofInt_add, BitVec.ofInt_neg, hnat, hnat, BitVec.sub_eq_add_neg]
  | and => exact congrArg some (bitwise_eq fun i _ => BitVec.getLsbD_and)
  | or => exact congrArg some (bitwise_eq fun i _ => BitVec.getLsbD_or)
  | xor => exact congrArg some (bitwise_eq fun i _ => BitVec.getLsbD_xor)
  | nor =>
      refine congrArg some (bitwise_eq fun i hi => ?_)
      rw [BitVec.getLsbD_not, BitVec.getLsbD_or, decide_eq_true hi, Bool.true_and]
  | andi =>
      obtain rfl := himm rfl
      simp only [AluOp.computed, AluOp.manual, signExtend_and_0xffff]
      exact congrArg some (bitwise_eq fun i _ => BitVec.getLsbD_and)
  | ori =>
      obtain rfl := himm rfl
      simp only [AluOp.computed, AluOp.manual, signExtend_and_0xffff]
      exact congrArg some (bitwise_eq fun i _ => BitVec.getLsbD_or)
  | xori =>
      obtain rfl := himm rfl
      simp only [AluOp.computed, AluOp.manual, signExtend_and_0xffff]
      exact congrArg some (bitwise_eq fun i _ => BitVec.getLsbD_xor)
  | sll =>
      obtain rfl := hsa rfl
      exact congrArg some (ofNat_shiftLeft rt extra.toNat)
  | sllv =>
      simp only [AluOp.computed, toNat_and_0x1f]
      exact congrArg some (ofNat_shiftLeft rt (rs.toNat % 32))
  | sra =>
      obtain rfl := hsa rfl
      exact congrArg some (ofInt_sshiftRight rt extra.toNat)
  | srav =>
      simp only [AluOp.computed, toNat_and_0x1f]
      exact congrArg some (ofInt_sshiftRight rt (rs.toNat % 32))
  | slt =>
      simp only [AluOp.computed, BitVec.slt_eq_decide]
      exact congrArg some (flag_decide _)
  | slti =>
      obtain rfl := himm rfl
      simp only [AluOp.computed, BitVec.slt_eq_decide, hext]
      exact congrArg some (flag_decide _)
  | sltu => exact congrArg some (flag_decide (rs.toNat < rt.toNat))
  | sltiu =>
      obtain rfl := himm rfl
      exact congrArg some (flag_decide (rs.toNat < (imm.signExtend 32).toNat))
  | srl => exact absurd rfl hsrl
  | srlv => exact absurd rfl hsrlv

theorem computed_eq_manual_iff (op : AluOp) (rs rt : Word) (imm : BitVec 16) {extra : Word}
    {sa : Nat} (himm : op.immediate = true → extra = imm.signExtend 32)
    (hsa : op.fixedShift = true → extra.toNat = sa) :
    op.computed rs rt extra = op.manual rs rt imm sa ↔ op.Agrees rs rt sa := by
  by_cases hsrl : op = .srl
  · subst hsrl
    obtain rfl := hsa rfl
    simp only [AluOp.computed, AluOp.manual, AluOp.Agrees, Option.some.injEq, ← ofNat_shiftRight,
      true_or, true_implies]
    exact sshiftRight_eq_iff rt extra.toNat
  by_cases hsrlv : op = .srlv
  · subst hsrlv
    simp only [AluOp.computed, AluOp.manual, AluOp.Agrees, Option.some.injEq, ← ofNat_shiftRight,
      or_true, true_implies, toNat_and_0x1f]
    exact sshiftRight_eq_iff rt (rs.toNat % 32)
  · refine iff_of_true (computed_eq_manual hsrl hsrlv rs rt imm himm hsa) fun h => ?_
    exact absurd h (not_or.mpr ⟨hsrl, hsrlv⟩)

/-- The overflow exception is raised by both or by none. -/
theorem computed_none_iff (op : AluOp) (rs rt : Word) (imm : BitVec 16) {extra : Word}
    {sa : Nat} (himm : op.immediate = true → extra = imm.signExtend 32)
    (hsa : op.fixedShift = true → extra.toNat = sa) :
    op.computed rs rt extra = none ↔ op.manual rs rt imm sa = none := by
  by_cases hshift : op = .srl ∨ op = .srlv
  · rcases hshift with rfl | rfl
    all_goals exact iff_of_false (Option.some_ne_none _) (Option.some_ne_none _)
  · obtain ⟨hsrl, hsrlv⟩ := not_or.mp hshift
    rw [computed_eq_manual hsrl hsrlv rs rt imm himm hsa]

/-- The immediate and the shift amount are those of the instruction word. -/
theorem extra_of_opCode {op : AluOp} {value : Word} (hop : (decode value).opCode = op.opCode) :
    (op.immediate = true → (decode value).extra = (immediateOf value).signExtend 32)
      ∧ (op.fixedShift = true → (decode value).extra.toNat = shamtOf value) := by
  have hformat : (decode value).extra
      = extraField value (if op.immediate then .ifmt else .rfmt) :=
    decode_format (by rw [hop, op.aluFormat_opCode])
  refine ⟨fun h => by rw [hformat, if_pos h, extraField_ifmt], fun h => ?_⟩
  have hnot : op.immediate = false := by cases op <;> first | rfl | cases h
  rw [hformat, hnot, if_neg Bool.false_ne_true, extraField_rfmt]

section Instructions

variable {t : Fin 32} {s : State}

theorem oneInstruction_alu {op : AluOp} {value : Word} {pageTable : List TranslationEntry}
    (hfetch : readMem s (s.registers pcReg) 4 = .ok (value, { s with pageTable := pageTable }))
    (hop : (decode value).opCode = op.opCode) :
    oneInstruction s = outcome (op.dest (decode value)) { s with pageTable := pageTable }
      (op.computed (s.reg (decode value).rs) (s.reg (decode value).rt) (decode value).extra)
        >>= finish := by
  rw [oneInstruction, hfetch]
  change execute (decode value) { s with pageTable := pageTable } >>= finish = _
  rw [execute_alu op hop]
  rfl

/-- An instruction with the result `x` has the effect of one with the result
`y` if the destination is register 0, or else if `y` is what gets there: the
word loaded, if a load into it is pending, and `x` if not. -/
theorem put_eq_effect_iff (h : s.registers loadReg = regWord t) (dest : Fin 32) (x y : Word) :
    put dest x s (s.registers nextPCReg + 4) >>= finish = effect dest s (some y)
      ↔ (dest ≠ 0 → (if dest = t then s.registers loadValueReg else x) = y) := by
  obtain ⟨f, hf⟩ : ∃ f, settle s = .ok f := ⟨_, delayedLoad_eq h 0 0⟩
  change delayedLoad (s.set (gpr dest) x) 0 0 >>= _ = _ ↔ _
  rw [delayedLoad_put h, effect, hf]
  change Except.ok _ = Except.ok _ ↔ _
  constructor
  · intro heq hdest
    have hreg := congrArg (fun s' => s'.registers (gpr dest)) (Except.ok.inj heq)
    simp only [advance_gpr, State.registers_set_self, if_neg hdest] at hreg
    exact hreg
  · intro hreg
    by_cases hdest : dest = 0
    · rw [if_pos hdest, if_pos hdest]
    · rw [if_neg hdest, if_neg hdest, hreg hdest]

/-- For every instruction word with one of the opcodes, fetched in any state
between two instructions, `OneInstruction` has the effect that the manual
gives it exactly if the destination is register 0, or no load into it is
pending and the instruction is not a logical right shift that moves a
negative word. If a load into the destination is pending, the result has to
be the word that is loaded, or the exception. -/
theorem oneInstruction_eq_manual_iff (op : AluOp) {value : Word}
    {pageTable : List TranslationEntry} (h : Boundary t s)
    (hfetch : readMem s (s.registers pcReg) 4 = .ok (value, { s with pageTable := pageTable }))
    (hop : (decode value).opCode = op.opCode) :
    oneInstruction s
        = effect (op.dest (decode value)) { s with pageTable := pageTable } (op.result value s)
      ↔ (op.dest (decode value) ≠ 0 →
          if op.dest (decode value) = t then ∀ x ∈ op.result value s, s.registers loadValueReg = x
          else op.Agrees (s.reg (decode value).rs) (s.reg (decode value).rt) (shamtOf value)) := by
  obtain ⟨himm, hsa⟩ := extra_of_opCode hop
  have hiff := computed_eq_manual_iff op (s.reg (decode value).rs) (s.reg (decode value).rt)
    (immediateOf value) himm hsa
  have hnone := computed_none_iff op (s.reg (decode value).rs) (s.reg (decode value).rt)
    (immediateOf value) himm hsa
  rw [oneInstruction_alu hfetch hop, AluOp.result, ← hiff]
  generalize op.computed (s.reg (decode value).rs) _ _ = computed at hnone ⊢
  generalize op.manual (s.reg (decode value).rs) _ _ _ = manual at hnone ⊢
  cases manual with
  | none =>
      obtain rfl := hnone.mpr rfl
      refine iff_of_true ?_ fun _ => ?_
      · simp only [outcome, effect, raiseException]
        split <;> rfl
      · split
        · exact fun x hx => absurd hx (Option.not_mem_none x)
        · rfl
  | some y =>
      cases computed with
      | none => cases hnone.mp rfl
      | some x =>
          refine (put_eq_effect_iff (s := { s with pageTable := pageTable }) h.loadReg _ x y).trans
            (imp_congr_right fun _ => ?_)
          split
          · simp
          · simp

end Instructions

/-- The instruction `value` at the address 0, with `x` in `$1` and `y` in
`$2`. -/
def operands (value x y : Word) : State where
  registers := fun r => if r = gpr 1 then x else if r = gpr 2 then y else
    if r = nextPCReg then 4 else 0
  mainMemory := ByteMemory.write (fun _ => 0) 0 (ByteMemory.leBytes 4 value.toNat)
  pageTable := [⟨0, 0, true, false, false, false⟩]

theorem fetch_operands (value x y : Word) :
    readMem (operands value x y) 0 4
      = .ok (value,
          { operands value x y with pageTable := [⟨0, 0, true, false, true, false⟩] }) := by
  have hbytes : ByteMemory.read (operands value x y).mainMemory 0 4
      = ByteMemory.leBytes 4 value.toNat := rfl
  have hword : BitVec.ofInt 32 (wrap32 (ByteMemory.leNat
      (ByteMemory.read (operands value x y).mainMemory 0 4))) = value := by
    have hlt := value.isLt
    apply BitVec.eq_of_toNat_eq
    rw [hbytes, ByteMemory.leNat_leBytes, BitVec.toNat_ofInt, wrap32]
    omega
  exact congrArg (fun w => Except.ok (w, _)) hword

/-- `ADD $3, $1, $2` of the largest number and 1 raises the exception. -/
theorem oneInstruction_add_overflow :
    ∃ s, readMem (operands 0x00221820 0x7fffffff 1) 0 4 = .ok (0x00221820, s)
      ∧ oneInstruction (operands 0x00221820 0x7fffffff 1) = raiseException s .overflow 0 := by
  have hfetch := fetch_operands 0x00221820 0x7fffffff 1
  have hresult : AluOp.add.result 0x00221820 (operands 0x00221820 0x7fffffff 1) = none := by decide
  have hone := (oneInstruction_eq_manual_iff .add (t := 0) ⟨rfl, rfl⟩ hfetch rfl).mpr fun _ => by
    rw [if_neg (by decide)]
    exact fun h => by simp at h
  rw [hresult] at hone
  exact ⟨_, hfetch, hone⟩

/-- `SRL $3, $1, 1` of the most negative number leaves the sign where it
is. -/
theorem oneInstruction_srl_keeps_sign :
    ∃ s, readMem (operands 0x00011842 0x80000000 0) 0 4 = .ok (0x00011842, s)
      ∧ (decode 0x00011842).opCode = AluOp.srl.opCode
      ∧ (oneInstruction (operands 0x00011842 0x80000000 0)).toOption.map (fun s' => s'.reg 3)
        = some 0xc0000000
      ∧ oneInstruction (operands 0x00011842 0x80000000 0)
        ≠ effect 3 s (AluOp.srl.result 0x00011842 (operands 0x00011842 0x80000000 0)) := by
  refine ⟨_, fetch_operands 0x00011842 0x80000000 0, rfl, by decide +kernel, fun h => ?_⟩
  have hreg := congrArg (fun r => r.toOption.map fun s' => s'.reg 3) h
  revert hreg
  decide +kernel

end Mips

end Nachos
