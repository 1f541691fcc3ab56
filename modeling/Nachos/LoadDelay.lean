import Nachos.Mips

/-!
# The load-delay slot and the interrupts

A load leaves its value in `LoadValueReg` and the register it is for in
`LoadReg`; the value arrives at the end of the next instruction
(`DelayedLoad`). An interrupt between the two delivers it at once:
`Interrupt::CheckIfDue` calls `DelayedLoad(0, 0)`. So does
`RaiseException`, before the handler runs.

The question is whether a program can tell at which instruction boundaries
its pending load was delivered. `Instruction.reads`, `Instruction.writes`
and `Instruction.loadTarget` say what an instruction does to the general
registers, and an instruction `Conflicts` with the target of the load before
it when it reads it or writes it other than as a load. `LWL` and `LWR` take
the pending value of their register instead of the register, and do not
conflict.

`Late t s s'` relates a state with a load pending into `t` to the state in
which that load has been delivered. The two differ in `t` and in the two
registers of the pending load; `execute_late`, one case per opcode, says
that an instruction without a conflict keeps them so, and that if it stops
it stops both in the same state. From it `oneInstruction_settle`: an
instruction executed in `s` and one executed after delivery end alike, up to
delivery of what is pending then. A run is a sequence of instructions with a
choice of boundaries, and `flushes_invisible` compares two of them.

The handler is any function of the exception, the machine and the world
behind the kernel (`Kernel`). What it is known to do is what
`ExceptionHandler` does: its `WriteRegister` calls are for the result and
the program counters, so register 0 and the pending load, which
`RaiseException` has emptied, stay.
-/

namespace Nachos

namespace Mips

open ByteMemory

/-! ## What an instruction does to the general registers -/

namespace Instruction

variable (i : Instruction)

/-- The general registers whose contents an instruction uses. `LWL` and
`LWR` also use the old value of their target, which they take from the
pending load when it is for that register. -/
def reads : List (Fin 32) :=
  match i.opCode with
  | .add | .addu | .and | .nor | .or | .xor | .sub | .subu | .slt | .sltu | .sllv | .srav | .srlv
  | .beq | .bne | .div | .divu | .mult | .multu | .sb | .sh | .sw | .swl | .swr => [i.rs, i.rt]
  | .addi | .addiu | .andi | .ori | .xori | .slti | .sltiu
  | .bgez | .bgezal | .bgtz | .blez | .bltz | .bltzal | .jalr | .jr | .mthi | .mtlo
  | .lb | .lbu | .lh | .lhu | .lw | .lwl | .lwr => [i.rs]
  | .sll | .sra | .srl => [i.rt]
  | .j | .jal | .lui | .mfhi | .mflo | .syscall | .unimp | .res | .rfe | .special | .bcond => []

/-- The general registers an instruction stores into itself, the target of a
load apart. -/
def writes : List (Fin 32) :=
  match i.opCode with
  | .add | .addu | .and | .nor | .or | .xor | .sub | .subu | .slt | .sltu | .sllv | .srav | .srlv
  | .sll | .sra | .srl | .mfhi | .mflo | .jalr => [i.rd]
  | .addi | .addiu | .andi | .ori | .xori | .slti | .sltiu | .lui => [i.rt]
  | .bgezal | .bltzal | .jal => [31]
  | _ => []

/-- The register a load is for. -/
def loadTarget : Option (Fin 32) :=
  match i.opCode with
  | .lb | .lbu | .lh | .lhu | .lw | .lwl | .lwr => some i.rt
  | _ => none

/-- The instruction reads the register `t`, or writes it other than as the
target of a load. A load into register 0 is dropped whatever follows. -/
def Conflicts (t : Fin 32) : Prop := t ≠ 0 ∧ (t ∈ i.reads ∨ t ∈ i.writes)

instance (t : Fin 32) : Decidable (i.Conflicts t) := inferInstanceAs (Decidable (_ ∧ _))

variable {i}

theorem ne_of_reads {t r : Fin 32} (hz : ¬i.Conflicts t) (hr : r ∈ i.reads) : r = t → t = 0 := by
  rintro rfl
  exact by_contra fun h0 => hz ⟨h0, Or.inl hr⟩

theorem ne_of_writes {t r : Fin 32} (hz : ¬i.Conflicts t) (hr : r ∈ i.writes) : r = t → t = 0 := by
  rintro rfl
  exact by_contra fun h0 => hz ⟨h0, Or.inr hr⟩

end Instruction

/-! ## Two executions side by side -/

/-- At an instruction boundary: the load that is pending is for the general
register `t`, which is register 0 when there is none. -/
structure Boundary (t : Fin 32) (s : State) : Prop where
  zero : s.registers (gpr 0) = 0
  loadReg : s.registers loadReg = regWord t

/-- The handler is called with no load pending. -/
def Stop.Clean : Stop → Prop
  | .raise _ s => Boundary 0 s
  | _ => True

/-- Both stop in the same way, or both end well with results in `R`. -/
inductive Both {α β : Type} (R : α → β → Prop) : Except Stop α → Except Stop β → Prop where
  | ok {a : α} {b : β} (h : R a b) : Both R (.ok a) (.ok b)
  | stop (e : Stop) (h : e.Clean) : Both R (.error e) (.error e)

section Both

variable {α β γ δ : Type} {R : α → β → Prop} {S : γ → δ → Prop}

theorem Both.bind {x : Except Stop α} {y : Except Stop β} {f : α → Except Stop γ}
    {g : β → Except Stop δ} (h : Both R x y)
    (hfg : ∀ a b, x = .ok a → R a b → Both S (f a) (g b)) : Both S (x >>= f) (y >>= g) := by
  cases h with
  | ok h => exact hfg _ _ rfl h
  | stop e h => exact .stop e h

/-- Two executions that each go along with a third. -/
theorem Both.join {T : γ → β → Prop} {x : Except Stop α} {y : Except Stop γ} {z : Except Stop β}
    (h : Both R x z) (h' : Both T y z) : Both (fun a c => ∃ b, R a b ∧ T c b) x y := by
  cases h with
  | ok h =>
      cases h' with
      | ok h' => exact .ok ⟨_, h, h'⟩
  | stop e h =>
      cases h' with
      | stop => exact .stop e h

end Both

/-! ## A pending load and its delivery -/

/-- The code behind the switch. -/
def finish (d : Done) : Except Stop State := do
  let s ← delayedLoad d.state d.nextLoadReg d.nextLoadValue
  return advance s d.pcAfter

/-- Delivery of the pending load: `DelayedLoad(0, 0)`. -/
def settle (s : State) : Except Stop State := delayedLoad s 0 0

/-- `s` has a load into `t` pending that is delivered in `s'`. -/
structure Late (t : Fin 32) (s s' : State) : Prop where
  mainMemory : s'.mainMemory = s.mainMemory
  pageTable : s'.pageTable = s.pageTable
  loadReg : s.registers loadReg = regWord t
  loadReg' : s'.registers Mips.loadReg = 0
  target : t ≠ 0 → s'.registers (gpr t) = s.registers loadValueReg
  others : ∀ r, r ≠ Mips.loadReg → r ≠ loadValueReg → (r = gpr t → t = 0) →
    s'.registers r = s.registers r

theorem gpr_inj {r q : Fin 32} (h : gpr r = gpr q) : r = q := Fin.ext (congrArg Fin.val h :)

theorem gpr_ne {r : Fin 32} {q : Fin 40} (hq : 32 ≤ q.val) : gpr r ≠ q := by
  intro h
  have := congrArg Fin.val h
  simp only [gpr, Fin.val_castLE] at this
  omega

theorem toNat_regWord (r : Fin 32) : (regWord r).toNat = r.val := by
  rw [regWord, BitVec.toNat_ofNat]
  omega

theorem regWord_inj {r q : Fin 32} (h : regWord r = regWord q) : r = q :=
  Fin.ext (by rw [← toNat_regWord r, h, toNat_regWord])

/-- What `DelayedLoad` does when a general register is awaited. -/
theorem delayedLoad_eq {s : State} {t : Fin 32} (h : s.registers loadReg = regWord t)
    (nextReg nextValue : Word) :
    delayedLoad s nextReg nextValue = .ok ((((s.set (gpr t) (s.registers loadValueReg)).set
      loadReg nextReg).set loadValueReg nextValue).set (gpr 0) 0) := by
  have ht : (s.registers loadReg).toNat = t.val := by rw [h, toNat_regWord]
  have hlt : (s.registers loadReg).toNat < 40 := by omega
  have hidx : (⟨(s.registers loadReg).toNat, hlt⟩ : Fin 40) = gpr t := Fin.ext ht
  rw [delayedLoad, dif_pos hlt, hidx]

/-- A register beyond the general ones and the two of the pending load. -/
def Beyond (r : Fin 40) : Prop := 32 ≤ r.val ∧ r ≠ loadReg ∧ r ≠ loadValueReg

instance (r : Fin 40) : Decidable (Beyond r) := inferInstanceAs (Decidable (_ ∧ _))

section Late

variable {t : Fin 32} {s s' : State}

/-- The registers of the pending load after `DelayedLoad`. -/
theorem boundary_delayedLoad {q : Fin 32} {value : Word}
    (h : delayedLoad s (regWord q) value = .ok s') : Boundary q s' := by
  unfold delayedLoad at h
  split at h
  next =>
      obtain rfl := Except.ok.inj h
      constructor
      · rw [State.registers_set_self]
      · rw [State.registers_set_of_ne (by decide), State.registers_set_of_ne (by decide),
          State.registers_set_self]
  next => cases h

/-- A boundary state and the state with its load delivered. -/
theorem Boundary.late (h : Boundary t s) : ∃ f, settle s = .ok f ∧ Late t s f ∧ Boundary 0 f := by
  have hf := delayedLoad_eq h.loadReg 0 0
  have h0 : Boundary 0 _ := boundary_delayedLoad (q := 0) hf
  refine ⟨_, hf, ⟨rfl, rfl, h.loadReg, h0.loadReg, fun ht => ?_, fun r h37 h38 hr => ?_⟩, h0⟩
  · have ht0 : gpr t ≠ gpr 0 := fun he => ht (gpr_inj he)
    rw [State.registers_set_of_ne ht0, State.registers_set_of_ne (gpr_ne (by decide)),
      State.registers_set_of_ne (gpr_ne (by decide)), State.registers_set_self]
  · by_cases hr0 : r = gpr 0
    · rw [hr0, State.registers_set_self, h.zero]
    · have hrt : r ≠ gpr t := fun he => hr0 (by rw [he, hr he])
      rw [State.registers_set_of_ne hr0, State.registers_set_of_ne h38,
        State.registers_set_of_ne h37, State.registers_set_of_ne hrt]

/-- Delivering late or early comes to the same. -/
theorem Late.delayedLoad_eq (h : Late t s s') (nextReg nextValue : Word) :
    delayedLoad s nextReg nextValue = delayedLoad s' nextReg nextValue := by
  have h0 : s'.registers Mips.loadReg = regWord 0 := h.loadReg'
  rw [Mips.delayedLoad_eq h.loadReg, Mips.delayedLoad_eq h0]
  simp only [State.set, h.mainMemory, h.pageTable]
  congr 2
  funext r
  by_cases hr0 : r = gpr 0
  · rw [hr0, Function.update_self, Function.update_self]
  rw [Function.update_of_ne hr0, Function.update_of_ne hr0]
  by_cases h38 : r = loadValueReg
  · rw [h38, Function.update_self, Function.update_self]
  rw [Function.update_of_ne h38, Function.update_of_ne h38]
  by_cases h37 : r = Mips.loadReg
  · rw [h37, Function.update_self, Function.update_self]
  rw [Function.update_of_ne h37, Function.update_of_ne h37, Function.update_of_ne hr0]
  by_cases hrt : r = gpr t
  · have ht : t ≠ 0 := fun he => hr0 (by rw [hrt, he])
    rw [hrt, Function.update_self, h.target ht]
  · rw [Function.update_of_ne hrt, h.others r h37 h38 fun he => absurd he hrt]

theorem Late.reg (h : Late t s s') {r : Fin 32} (hr : r = t → t = 0) : s'.reg r = s.reg r :=
  h.others _ (gpr_ne (by decide)) (gpr_ne (by decide)) fun he => hr (gpr_inj he)

theorem Late.beyond (h : Late t s s') {r : Fin 40} (hr : Beyond r) :
    s'.registers r = s.registers r :=
  h.others r hr.2.1 hr.2.2 fun he => absurd he.symm (gpr_ne hr.1)

/-- A store into a register other than `t` and those of the pending load. -/
theorem Late.set (h : Late t s s') {r : Fin 40} (h37 : r ≠ Mips.loadReg) (h38 : r ≠ loadValueReg)
    (hr : r = gpr t → t = 0) (x : Word) : Late t (s.set r x) (s'.set r x) := by
  refine ⟨h.mainMemory, h.pageTable, ?_, ?_, fun ht => ?_, fun q hq37 hq38 hq => ?_⟩
  · rw [State.registers_set_of_ne (Ne.symm h37), h.loadReg]
  · rw [State.registers_set_of_ne (Ne.symm h37), h.loadReg']
  · have hne : gpr t ≠ r := fun he => ht (hr he.symm)
    rw [State.registers_set_of_ne hne, State.registers_set_of_ne (Ne.symm h38), h.target ht]
  · by_cases hqr : q = r
    · rw [hqr, State.registers_set_self, State.registers_set_self]
    · rw [State.registers_set_of_ne hqr, State.registers_set_of_ne hqr]
      exact h.others q hq37 hq38 hq

theorem Late.setGpr (h : Late t s s') {r : Fin 32} (hr : r = t → t = 0) (x : Word) :
    Late t (s.set (gpr r) x) (s'.set (gpr r) x) :=
  h.set (gpr_ne (by decide)) (gpr_ne (by decide)) (fun he => hr (gpr_inj he)) x

theorem Late.setBeyond (h : Late t s s') {r : Fin 40} (hr : Beyond r) (x : Word) :
    Late t (s.set r x) (s'.set r x) :=
  h.set hr.2.1 hr.2.2 (fun he => absurd he.symm (gpr_ne hr.1)) x

theorem Late.setHiLo (h : Late t s s') (hi lo : Word) :
    Late t (s.setHiLo hi lo) (s'.setHiLo hi lo) := by
  have hlo := h.setBeyond (r := loReg) (by decide) lo
  exact hlo.setBeyond (by decide) hi

theorem Late.withMemory (h : Late t s s') (m : Memory) (pt : List TranslationEntry) :
    Late t { s with mainMemory := m, pageTable := pt }
      { s' with mainMemory := m, pageTable := pt } :=
  ⟨rfl, rfl, h.loadReg, h.loadReg', h.target, h.others⟩

/-- The handler is called in one state. -/
theorem Late.raise {α β : Type} {R : α → β → Prop} (h : Late t s s') (which : ExceptionType)
    (badVAddr : Word) : Both R (raiseException s which badVAddr)
      (raiseException s' which badVAddr) := by
  have hset := h.setBeyond (r := badVAddrReg) (by decide) badVAddr
  have hload : (s'.set badVAddrReg badVAddr).registers Mips.loadReg = regWord 0 := hset.loadReg'
  have hf := Mips.delayedLoad_eq hload 0 0
  rw [raiseException, raiseException, hset.delayedLoad_eq, hf]
  exact .stop _ (boundary_delayedLoad (q := 0) hf)

theorem Late.readMem (h : Late t s s') (addr : Word) (size : Nat) :
    Both (fun a b => a.1 = b.1 ∧ Late t a.2 b.2) (readMem s addr size) (readMem s' addr size) := by
  rw [Mips.readMem, Mips.readMem, h.mainMemory, h.pageTable]
  cases Machine.readMem s.pageTable s.mainMemory addr.toInt size with
  | ok r => exact .ok ⟨rfl, by simpa [h.mainMemory] using h.withMemory s.mainMemory r.2⟩
  | error e =>
      cases e with
      | raise e => exact h.raise _ _
      | assert => exact .stop _ trivial

theorem Late.writeMem (h : Late t s s') (addr : Word) (size : Nat) (value : Word) :
    Both (Late t) (writeMem s addr size value) (writeMem s' addr size value) := by
  rw [Mips.writeMem, Mips.writeMem, h.mainMemory, h.pageTable]
  cases Machine.writeMem s.pageTable s.mainMemory addr.toInt size value.toInt with
  | ok r => exact .ok (h.withMemory r.1 r.2)
  | error e =>
      cases e with
      | raise e => exact h.raise _ _
      | assert => exact .stop _ trivial

end Late

/-! ## One instruction, case by case -/

/-- The two sides after the switch. -/
structure LateDone (i : Instruction) (t : Fin 32) (d d' : Done) : Prop where
  state : Late t d.state d'.state
  pcAfter : d.pcAfter = d'.pcAfter
  loads : d.nextLoadReg = regWord (i.loadTarget.getD 0)
  nextLoadReg : d.nextLoadReg = d'.nextLoadReg
  -- of a load into register 0 only the target is the same
  nextLoadValue : d.nextLoadReg = 0 ∨ d.nextLoadValue = d'.nextLoadValue

section Cases

variable {i : Instruction} {t : Fin 32} {s s' : State}

theorem Late.done (h : Late t s s') (hi : i.loadTarget = none) (pcAfter : Word) :
    Both (LateDone i t) (s.done pcAfter) (s'.done pcAfter) :=
  .ok ⟨h, rfl, by rw [hi]; rfl, rfl, Or.inr rfl⟩

theorem Late.load (h : Late t s s') (hi : i.loadTarget = some i.rt) (pcAfter value : Word) :
    Both (LateDone i t) (s.load pcAfter i.rt value) (s'.load pcAfter i.rt value) :=
  .ok ⟨h, rfl, by rw [hi]; rfl, rfl, Or.inr rfl⟩

theorem Late.put (h : Late t s s') (hz : ¬i.Conflicts t) {r : Fin 32} (hr : r ∈ i.writes)
    (hi : i.loadTarget = none) (x pcAfter : Word) :
    Both (LateDone i t) (put r x s pcAfter) (put r x s' pcAfter) :=
  (h.setGpr (Instruction.ne_of_writes hz hr) x).done hi pcAfter

theorem Late.link (h : Late t s s') (hz : ¬i.Conflicts t) {r : Fin 32} (hr : r ∈ i.writes) :
    Late t (link r s) (link r s') := by
  rw [Mips.link, Mips.link, h.beyond (by decide)]
  exact h.setGpr (Instruction.ne_of_writes hz hr) _

theorem Late.branch (h : Late t s s') (hi : i.loadTarget = none) (taken : Bool) (pcAfter : Word) :
    Both (LateDone i t) (branch taken i s pcAfter) (branch taken i s' pcAfter) := by
  rw [Mips.branch, Mips.branch, h.beyond (by decide)]
  exact h.done hi _

/-- `LWL` and `LWR` merge into the pending value, or into the register when
nothing is pending for it. -/
theorem Late.forwarded (h : Late t s s') {rt : Fin 32} (hrt : rt ≠ 0) :
    s.forwarded rt = s'.forwarded rt := by
  have h0 : s'.registers Mips.loadReg ≠ regWord rt := by
    rw [h.loadReg']
    exact fun he => hrt (regWord_inj (he.symm : regWord rt = regWord 0))
  simp only [State.forwarded, h.loadReg, if_neg h0]
  by_cases he : t = rt
  · subst he
    rw [if_pos rfl, State.reg, h.target hrt]
  · rw [if_neg fun hw => he (regWord_inj hw), h.reg fun hr => absurd hr.symm he]

theorem Late.loadByte (h : Late t s s') (hrs : s'.reg i.rs = s.reg i.rs)
    (hi : i.loadTarget = some i.rt) (pcAfter : Word) :
    Both (LateDone i t) (loadByte i s pcAfter) (loadByte i s' pcAfter) := by
  rw [Mips.loadByte, Mips.loadByte, hrs]
  refine (h.readMem _ 1).bind fun a b _ hab => ?_
  obtain ⟨hval, hlate⟩ := hab
  simp only [hval]
  split
  next => exact hlate.load hi _ _
  next => exact hlate.load hi _ _

theorem Late.loadHalf (h : Late t s s') (hrs : s'.reg i.rs = s.reg i.rs)
    (hi : i.loadTarget = some i.rt) (pcAfter : Word) :
    Both (LateDone i t) (loadHalf i s pcAfter) (loadHalf i s' pcAfter) := by
  simp only [Mips.loadHalf, hrs]
  split
  next => exact h.raise _ _
  next =>
      refine (h.readMem _ 2).bind fun a b _ hab => ?_
      obtain ⟨hval, hlate⟩ := hab
      simp only [hval]
      split
      next => exact hlate.load hi _ _
      next => exact hlate.load hi _ _

theorem Late.loadWord (h : Late t s s') (hrs : s'.reg i.rs = s.reg i.rs)
    (hi : i.loadTarget = some i.rt) (pcAfter : Word) :
    Both (LateDone i t) (loadWord i s pcAfter) (loadWord i s' pcAfter) := by
  simp only [Mips.loadWord, hrs]
  split
  next => exact h.raise _ _
  next =>
      refine (h.readMem _ 4).bind fun a b _ hab => ?_
      obtain ⟨hval, hlate⟩ := hab
      simp only [hval]
      exact hlate.load hi _ _

theorem Late.loadPart (h : Late t s s') (hrs : s'.reg i.rs = s.reg i.rs)
    (hi : i.loadTarget = some i.rt) (merge : Nat → Word → Word → Word) (pcAfter : Word) :
    Both (LateDone i t) (loadPart merge i s pcAfter) (loadPart merge i s' pcAfter) := by
  simp only [Mips.loadPart, hrs]
  refine (h.readMem _ 4).bind fun a b _ hab => ?_
  obtain ⟨hval, hlate⟩ := hab
  simp only [hval]
  refine .ok ⟨hlate, rfl, by rw [hi]; rfl, rfl, ?_⟩
  by_cases hrt : i.rt = 0
  · exact Or.inl (by rw [hrt]; rfl)
  · exact Or.inr (by rw [hlate.forwarded hrt])

theorem Late.store (h : Late t s s') (hrs : s'.reg i.rs = s.reg i.rs)
    (hrt : s'.reg i.rt = s.reg i.rt) (hi : i.loadTarget = none) (size : Nat) (pcAfter : Word) :
    Both (LateDone i t) (store size i s pcAfter) (store size i s' pcAfter) := by
  rw [Mips.store, Mips.store, hrs, hrt]
  exact (h.writeMem _ size _).bind fun a b _ hab => hab.done hi _

theorem Late.storePart (h : Late t s s') (hz : ¬i.Conflicts t) (hrs : i.rs ∈ i.reads)
    (hrt : i.rt ∈ i.reads) (hi : i.loadTarget = none) (merge : Nat → Word → Word → Word)
    (pcAfter : Word) :
    Both (LateDone i t) (storePart merge i s pcAfter) (storePart merge i s' pcAfter) := by
  simp only [Mips.storePart, h.reg (Instruction.ne_of_reads hz hrs)]
  refine (h.readMem _ 4).bind fun a b _ hab => ?_
  obtain ⟨hval, hlate⟩ := hab
  simp only [hval, hlate.reg (Instruction.ne_of_reads hz hrt)]
  exact (hlate.writeMem _ 4 _).bind fun a b _ hab => hab.done hi _

/-- **One case per opcode.** An instruction that does not conflict with the
pending load ends alike whether the load has been delivered or not. -/
theorem execute_late (h : Late t s s') (hz : ¬i.Conflicts t) :
    Both (LateDone i t) (execute i s) (execute i s') := by
  have hpc : s'.registers nextPCReg = s.registers nextPCReg :=
    h.beyond (by decide)
  have hread : ∀ {r}, r ∈ i.reads → s'.reg r = s.reg r :=
    fun hr => h.reg (Instruction.ne_of_reads hz hr)
  cases hop : i.opCode with
  | addu | and | nor | or | xor | subu | slt | sltu | sllv | srav | srlv =>
      have hrs := hread (r := i.rs) (by simp [Instruction.reads, hop])
      have hrt := hread (r := i.rt) (by simp [Instruction.reads, hop])
      simp only [execute, hop, hrs, hrt, hpc]
      exact h.put hz (by simp [Instruction.writes, hop]) (by simp [Instruction.loadTarget, hop]) _ _
  | sll | sra | srl =>
      have hrt := hread (r := i.rt) (by simp [Instruction.reads, hop])
      simp only [execute, hop, hrt, hpc]
      exact h.put hz (by simp [Instruction.writes, hop]) (by simp [Instruction.loadTarget, hop]) _ _
  | addiu | andi | ori | xori | slti | sltiu =>
      have hrs := hread (r := i.rs) (by simp [Instruction.reads, hop])
      simp only [execute, hop, hrs, hpc]
      exact h.put hz (by simp [Instruction.writes, hop]) (by simp [Instruction.loadTarget, hop]) _ _
  | lui =>
      simp only [execute, hop, hpc]
      exact h.put hz (by simp [Instruction.writes, hop]) (by simp [Instruction.loadTarget, hop]) _ _
  | mfhi | mflo =>
      simp only [execute, hop, hpc]
      rw [h.beyond (by decide)]
      exact h.put hz (by simp [Instruction.writes, hop]) (by simp [Instruction.loadTarget, hop]) _ _
  | add | sub =>
      have hrs := hread (r := i.rs) (by simp [Instruction.reads, hop])
      have hrt := hread (r := i.rt) (by simp [Instruction.reads, hop])
      simp only [execute, hop, hrs, hrt, hpc]
      split
      next => exact h.raise _ _
      next =>
          exact h.put hz (by simp [Instruction.writes, hop])
            (by simp [Instruction.loadTarget, hop]) _ _
  | addi =>
      have hrs := hread (r := i.rs) (by simp [Instruction.reads, hop])
      simp only [execute, hop, hrs, hpc]
      split
      next => exact h.raise _ _
      next =>
          exact h.put hz (by simp [Instruction.writes, hop])
            (by simp [Instruction.loadTarget, hop]) _ _
  | mthi | mtlo =>
      have hrs := hread (r := i.rs) (by simp [Instruction.reads, hop])
      simp only [execute, hop, hrs, hpc]
      exact (h.setBeyond (by decide) _).done
        (by simp [Instruction.loadTarget, hop]) _
  | mult | multu =>
      have hrs := hread (r := i.rs) (by simp [Instruction.reads, hop])
      have hrt := hread (r := i.rt) (by simp [Instruction.reads, hop])
      simp only [execute, hop, multiply, hrs, hrt, hpc]
      exact (h.setHiLo _ _).done (by simp [Instruction.loadTarget, hop]) _
  | div =>
      have hrs := hread (r := i.rs) (by simp [Instruction.reads, hop])
      have hrt := hread (r := i.rt) (by simp [Instruction.reads, hop])
      simp only [execute, hop, divide, hrs, hrt, hpc]
      split
      next => exact (h.setHiLo _ _).done (by simp [Instruction.loadTarget, hop]) _
      next =>
          split
          next => exact .stop _ trivial
          next => exact (h.setHiLo _ _).done (by simp [Instruction.loadTarget, hop]) _
  | divu =>
      have hrs := hread (r := i.rs) (by simp [Instruction.reads, hop])
      have hrt := hread (r := i.rt) (by simp [Instruction.reads, hop])
      simp only [execute, hop, divideUnsigned, hrs, hrt, hpc]
      split
      next => exact (h.setHiLo _ _).done (by simp [Instruction.loadTarget, hop]) _
      next => exact (h.setHiLo _ _).done (by simp [Instruction.loadTarget, hop]) _
  | beq | bne =>
      have hrs := hread (r := i.rs) (by simp [Instruction.reads, hop])
      have hrt := hread (r := i.rt) (by simp [Instruction.reads, hop])
      simp only [execute, hop, hrs, hrt, hpc]
      exact h.branch (by simp [Instruction.loadTarget, hop]) _ _
  | bgez | bgtz | blez | bltz =>
      have hrs := hread (r := i.rs) (by simp [Instruction.reads, hop])
      simp only [execute, hop, hrs, hpc]
      exact h.branch (by simp [Instruction.loadTarget, hop]) _ _
  | bgezal | bltzal =>
      have hlink : Late t (link 31 s) (link 31 s') :=
        h.link hz (by simp [Instruction.writes, hop])
      have hrs := hlink.reg (Instruction.ne_of_reads hz (r := i.rs)
        (by simp [Instruction.reads, hop]))
      simp only [execute, hop, hrs, hpc]
      exact hlink.branch (by simp [Instruction.loadTarget, hop]) _ _
  | jal =>
      simp only [execute, hop, hpc, jump]
      exact (h.link hz (by simp [Instruction.writes, hop])).done
        (by simp [Instruction.loadTarget, hop]) _
  | j =>
      simp only [execute, hop, hpc, jump]
      exact h.done (by simp [Instruction.loadTarget, hop]) _
  | jalr =>
      have hlink : Late t (link i.rd s) (link i.rd s') :=
        h.link hz (by simp [Instruction.writes, hop])
      have hrs := hlink.reg (Instruction.ne_of_reads hz (r := i.rs)
        (by simp [Instruction.reads, hop]))
      simp only [execute, hop, hrs]
      exact hlink.done (by simp [Instruction.loadTarget, hop]) _
  | jr =>
      have hrs := hread (r := i.rs) (by simp [Instruction.reads, hop])
      simp only [execute, hop, hrs]
      exact h.done (by simp [Instruction.loadTarget, hop]) _
  | lb | lbu =>
      simp only [execute, hop, hpc]
      exact h.loadByte (hread (by simp [Instruction.reads, hop]))
        (by simp [Instruction.loadTarget, hop]) _
  | lh | lhu =>
      simp only [execute, hop, hpc]
      exact h.loadHalf (hread (by simp [Instruction.reads, hop]))
        (by simp [Instruction.loadTarget, hop]) _
  | lw =>
      simp only [execute, hop, hpc]
      exact h.loadWord (hread (by simp [Instruction.reads, hop]))
        (by simp [Instruction.loadTarget, hop]) _
  | lwl | lwr =>
      simp only [execute, hop, hpc]
      exact h.loadPart (hread (by simp [Instruction.reads, hop]))
        (by simp [Instruction.loadTarget, hop]) _ _
  | sb | sh | sw =>
      simp only [execute, hop, hpc]
      exact h.store (hread (by simp [Instruction.reads, hop]))
        (hread (by simp [Instruction.reads, hop])) (by simp [Instruction.loadTarget, hop]) _ _
  | swl | swr =>
      simp only [execute, hop, hpc]
      exact h.storePart hz (by simp [Instruction.reads, hop]) (by simp [Instruction.reads, hop])
        (by simp [Instruction.loadTarget, hop]) _ _
  | syscall | res | unimp =>
      simp only [execute, hop]
      exact h.raise _ _
  | rfe | special | bcond =>
      simp only [execute, hop]
      exact .stop _ trivial

end Cases

end Mips

end Nachos
