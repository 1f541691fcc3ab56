import Nachos.LoadDelayRuns
import Nachos.Run

/-!
# How an instruction ends

Every instruction ends well, or with one exception for the kernel, or takes
the simulator down. `Ends t s R` says of a computation of the simulator,
started in a state `s` with a load into `t` pending, that it ends well with a
result in `R` or raises an exception that has no effect of its own
(`Trapped`): at the entry of the handler the memory, the program counters,
`Hi` and `Lo` and the general registers are as before the instruction, but
for the pending load, which has been delivered. It is closed under sequence,
so there is one lemma for each memory access and one case per opcode in
`execute_ends`.

The ends that `Ends` excludes are those that bring the kernel down with the
program: an opcode the switch does not know, a translation that leaves the
memory, a store beyond the register array and a quotient that does not fit
an `int`. The first does not come out of `Decode` (`decode_handled`), the
second is excluded by the alignment check together with the check of the
frame number (`translate_ne_assert`), and the third by what `LoadReg` holds.
The last is possible, and `instruction_sound_iff` says that it is the only
one.
-/

namespace Nachos

namespace Machine

/-- The final assertion of `Translate` holds. -/
theorem translate_ne_assert {pt : List TranslationEntry} {a : Int} {size : Nat} {w : Bool}
    (hs : size = 1 ∨ size = 2 ∨ size = 4) : translate pt a size w ≠ .error .assert := by
  intro h
  unfold translate at h
  split at h
  next => cases h
  next hal =>
      split at h
      next => cases h
      next e _ =>
          split at h
          next => cases h
          split at h
          next => cases h
          split at h
          next => cases h
          next hframe =>
              split at h
              next => cases h
              next hlimit =>
                  have hoff := offset_add_size (by simpa using hal) hs
                  omega

theorem readMem_ne_assert {pt : List TranslationEntry} {m : ByteMemory.Memory} {a : Int}
    {size : Nat} (hs : size = 1 ∨ size = 2 ∨ size = 4) : readMem pt m a size ≠ .error .assert := by
  intro h
  unfold readMem at h
  cases ht : translate pt a size false with
  | error e =>
      rw [ht] at h
      cases h
      exact translate_ne_assert hs ht
  | ok r =>
      rw [ht] at h
      rcases hs with rfl | rfl | rfl <;> cases h

theorem writeMem_ne_assert {pt : List TranslationEntry} {m : ByteMemory.Memory} {a v : Int}
    {size : Nat} (hs : size = 1 ∨ size = 2 ∨ size = 4) :
    writeMem pt m a size v ≠ .error .assert := by
  intro h
  unfold writeMem at h
  cases ht : translate pt a size true with
  | error e =>
      rw [ht] at h
      cases h
      exact translate_ne_assert hs ht
  | ok r =>
      rw [ht] at h
      simp only [if_pos hs] at h
      cases h

end Machine

namespace Mips

open ByteMemory

/-! ## Exceptions without an effect -/

/-- `s'` is `s` with the pending load into `t` delivered and nothing else
changed that a restart would see. -/
structure Trapped (t : Fin 32) (s s' : State) : Prop where
  mainMemory : s'.mainMemory = s.mainMemory
  counters : ∀ r ∈ [hiReg, loReg, pcReg, nextPCReg, prevPCReg], s'.registers r = s.registers r
  others : ∀ r : Fin 32, r ≠ t → s'.reg r = s.reg r
  applied : t ≠ 0 → s'.reg t = s.registers loadValueReg
  cleared : s'.registers loadReg = 0 ∧ s'.registers loadValueReg = 0
  zero : s'.reg 0 = 0

section

variable {t : Fin 32} {s s₁ s' : State} {α β : Type}

theorem Trapped.boundary (h : Trapped t s s') : Boundary 0 s' := ⟨h.zero, h.cleared.1⟩

/-- `RaiseException` in a state with the same registers and memory. -/
theorem Boundary.trapped (h : Boundary t s) (hreg : s₁.registers = s.registers)
    (hmem : s₁.mainMemory = s.mainMemory) (which : ExceptionType) (badVAddr : Word) :
    ∃ s', (raiseException s₁ which badVAddr : Except Stop α) = .error (.raise which s')
      ∧ Trapped t s s' := by
  -- `BadVAddrReg` is the only register set before the delivery
  have hset : ∀ r, r ≠ badVAddrReg →
      (s₁.set badVAddrReg badVAddr).registers r = s.registers r := by
    intro r hr
    rw [← hreg]
    exact Function.update_of_ne hr _ _
  have hbdy : Boundary t (s₁.set badVAddrReg badVAddr) :=
    ⟨(hset _ (gpr_ne (by decide))).trans h.zero, (hset _ (by decide)).trans h.loadReg⟩
  obtain ⟨f, hf, hlate, h0⟩ := hbdy.late
  have hvalue : f.registers loadValueReg = 0 := by
    rw [settle, delayedLoad_eq hbdy.loadReg] at hf
    obtain rfl := Except.ok.inj hf
    rw [State.registers_set_of_ne (by decide), State.registers_set_self]
  rw [settle] at hf
  refine ⟨f, by rw [raiseException, hf], ⟨hlate.mainMemory.trans hmem, fun r hr => ?_,
    fun r hr => ?_, fun ht => ?_, ⟨h0.loadReg, hvalue⟩, h0.zero⟩⟩
  · have hbeyond : Beyond r ∧ r ≠ badVAddrReg := by
      revert r
      decide
    rw [hlate.beyond hbeyond.1, hset r hbeyond.2]
  · rw [hlate.reg fun he => absurd he hr]
    exact hset _ (gpr_ne (by decide))
  · exact (hlate.target ht).trans (hset _ (by decide))

/-- The computation ends well with a result in `R`, or with an exception that
has no effect. -/
inductive Ends (t : Fin 32) (s : State) (R : α → Prop) : Except Stop α → Prop
  | ok {a : α} (h : R a) : Ends t s R (.ok a)
  | raise {which : ExceptionType} {s' : State} (h : Trapped t s s') :
      Ends t s R (.error (.raise which s'))

variable {R : α → Prop} {Q : β → Prop}

theorem Ends.bind {x : Except Stop α} {f : α → Except Stop β} (h : Ends t s R x)
    (hf : ∀ a, R a → Ends t s Q (f a)) : Ends t s Q (x >>= f) := by
  cases h with
  | ok ha => exact hf _ ha
  | raise ht => exact .raise ht

theorem Boundary.raise_ends (h : Boundary t s) (hreg : s₁.registers = s.registers)
    (hmem : s₁.mainMemory = s.mainMemory) (which : ExceptionType) (badVAddr : Word) :
    Ends t s R (raiseException s₁ which badVAddr) := by
  obtain ⟨s', heq, ht⟩ := h.trapped hreg hmem which badVAddr
  rw [heq]
  exact .raise ht

/-- What a load leaves alone. -/
def Untouched (s s' : State) : Prop := s'.registers = s.registers ∧ s'.mainMemory = s.mainMemory

theorem Boundary.readMem_ends (h : Boundary t s) (hs : Untouched s s₁) (addr : Word) {size : Nat}
    (hsize : size = 1 ∨ size = 2 ∨ size = 4) :
    Ends t s (fun r => Untouched s r.2) (readMem s₁ addr size) := by
  rw [readMem]
  cases hread : Machine.readMem s₁.pageTable s₁.mainMemory addr.toInt size with
  | ok r => exact .ok hs
  | error e =>
      cases e with
      | raise e => exact h.raise_ends hs.1 hs.2 _ _
      | assert => exact absurd hread (Machine.readMem_ne_assert hsize)

theorem Boundary.writeMem_ends (h : Boundary t s) (hs : Untouched s s₁) (addr : Word) {size : Nat}
    (hsize : size = 1 ∨ size = 2 ∨ size = 4) (value : Word) :
    Ends t s (fun s' => s'.registers = s.registers) (writeMem s₁ addr size value) := by
  rw [writeMem]
  cases hwrite : Machine.writeMem s₁.pageTable s₁.mainMemory addr.toInt size value.toInt with
  | ok r => exact .ok hs.1
  | error e =>
      cases e with
      | raise e => exact h.raise_ends hs.1 hs.2 _ _
      | assert => exact absurd hwrite (Machine.writeMem_ne_assert hsize)

end

/-! ## One case per opcode -/

/-- What the switch leaves when it does not stop: the pending load is still
there, and the next one is for a general register. -/
def Leaves (t : Fin 32) (d : Done) : Prop :=
  d.state.registers loadReg = regWord t ∧ ∃ q, d.nextLoadReg = regWord q

section Cases

variable {i : Instruction} {t : Fin 32} {s s₁ : State}

theorem done_ends (h : s₁.registers loadReg = regWord t) (pcAfter : Word) :
    Ends t s (Leaves t) (s₁.done pcAfter) := .ok ⟨h, 0, rfl⟩

theorem load_ends (h : s₁.registers loadReg = regWord t) (pcAfter : Word) (rt : Fin 32)
    (value : Word) : Ends t s (Leaves t) (s₁.load pcAfter rt value) := .ok ⟨h, rt, rfl⟩

/-- A store into a register that is not `LoadReg`. -/
theorem set_loadReg (h : s₁.registers loadReg = regWord t) {r : Fin 40} (hr : r ≠ loadReg)
    (x : Word) : (s₁.set r x).registers loadReg = regWord t :=
  (Function.update_of_ne hr.symm _ _).trans h

theorem link_loadReg (h : s₁.registers loadReg = regWord t) (r : Fin 32) :
    (link r s₁).registers loadReg = regWord t := set_loadReg h (gpr_ne (by decide)) _

theorem put_ends (h : s₁.registers loadReg = regWord t) (r : Fin 32) (x pcAfter : Word) :
    Ends t s (Leaves t) (put r x s₁ pcAfter) := done_ends (set_loadReg h (gpr_ne (by decide)) x) _

theorem setHiLo_ends (h : s₁.registers loadReg = regWord t) (hi lo pcAfter : Word) :
    Ends t s (Leaves t) ((s₁.setHiLo hi lo).done pcAfter) :=
  done_ends (set_loadReg (set_loadReg h (by decide) lo) (by decide) hi) _

variable (h : Boundary t s)

include h

theorem loadByte_ends (pcAfter : Word) : Ends t s (Leaves t) (loadByte i s pcAfter) := by
  refine (h.readMem_ends ⟨rfl, rfl⟩ _ (by decide)).bind fun r hr => ?_
  have hload : r.2.registers loadReg = regWord t := by rw [hr.1, h.loadReg]
  dsimp only
  split
  next => exact load_ends hload _ _ _
  next => exact load_ends hload _ _ _

theorem loadHalf_ends (pcAfter : Word) : Ends t s (Leaves t) (loadHalf i s pcAfter) := by
  simp only [loadHalf]
  split
  next => exact h.raise_ends rfl rfl _ _
  next =>
      refine (h.readMem_ends ⟨rfl, rfl⟩ _ (by decide)).bind fun r hr => ?_
      have hload : r.2.registers loadReg = regWord t := by rw [hr.1, h.loadReg]
      split
      next => exact load_ends hload _ _ _
      next => exact load_ends hload _ _ _

theorem loadWord_ends (pcAfter : Word) : Ends t s (Leaves t) (loadWord i s pcAfter) := by
  simp only [loadWord]
  split
  next => exact h.raise_ends rfl rfl _ _
  next =>
      refine (h.readMem_ends ⟨rfl, rfl⟩ _ (by decide)).bind fun r hr => ?_
      exact load_ends (by rw [hr.1, h.loadReg]) _ _ _

theorem loadPart_ends (merge : Nat → Word → Word → Word) (pcAfter : Word) :
    Ends t s (Leaves t) (loadPart merge i s pcAfter) := by
  refine (h.readMem_ends ⟨rfl, rfl⟩ _ (by decide)).bind fun r hr => ?_
  exact load_ends (by rw [hr.1, h.loadReg]) _ _ _

theorem store_ends {size : Nat} (hsize : size = 1 ∨ size = 2 ∨ size = 4) (pcAfter : Word) :
    Ends t s (Leaves t) (store size i s pcAfter) := by
  refine (h.writeMem_ends ⟨rfl, rfl⟩ _ hsize _).bind fun s₂ hs₂ => ?_
  exact done_ends (by rw [hs₂, h.loadReg]) _

/-- The word is read and written; only a store that goes through changes
anything. -/
theorem storePart_ends (merge : Nat → Word → Word → Word) (pcAfter : Word) :
    Ends t s (Leaves t) (storePart merge i s pcAfter) := by
  refine (h.readMem_ends ⟨rfl, rfl⟩ _ (by decide)).bind fun r hr => ?_
  refine (h.writeMem_ends hr _ (by decide) _).bind fun s₂ hs₂ => ?_
  exact done_ends (by rw [hs₂, h.loadReg]) _

end Cases

/-- `OP_DIV` with a quotient that does not fit an `int`. -/
def Instruction.DivOverflows (i : Instruction) (s : State) : Prop :=
  i.opCode = .div ∧ s.reg i.rs = BitVec.intMin 32 ∧ s.reg i.rt = -1

instance (i : Instruction) (s : State) : Decidable (i.DivOverflows s) :=
  inferInstanceAs (Decidable (i.opCode = .div ∧ s.reg i.rs = BitVec.intMin 32 ∧ s.reg i.rt = -1))

/-- The opcodes that are not in the switch. -/
def OpCode.Unhandled (o : OpCode) : Prop := o = .rfe ∨ o = .special ∨ o = .bcond

section Execute

variable {i : Instruction} {t : Fin 32} {s : State}

theorem divide_ends (h : Boundary t s) (hop : i.opCode = .div) (hdiv : ¬i.DivOverflows s)
    (pcAfter : Word) : Ends t s (Leaves t) (divide i s pcAfter) := by
  simp only [divide]
  split
  next => exact setHiLo_ends h.loadReg _ _ _
  next =>
      rw [if_neg fun hq => hdiv ⟨hop, hq⟩]
      exact setHiLo_ends h.loadReg _ _ _

/-- **The switch.** Every opcode that is handled, but for the one division,
ends well or has no effect. -/
theorem execute_ends (h : Boundary t s) (hop : ¬i.opCode.Unhandled) (hdiv : ¬i.DivOverflows s) :
    Ends t s (Leaves t) (execute i s) := by
  have hlink : ∀ r, (link r s).registers loadReg = regWord t := link_loadReg h.loadReg
  cases ho : i.opCode with
  | addu | and | nor | or | xor | subu | slt | sltu | sllv | srav | srlv | sll | sra | srl | addiu
  | andi | ori | xori | slti | sltiu | lui | mfhi | mflo =>
      simp only [execute, ho]
      exact put_ends h.loadReg _ _ _
  | add | sub | addi =>
      simp only [execute, ho]
      split
      next => exact h.raise_ends rfl rfl _ _
      next => exact put_ends h.loadReg _ _ _
  | mthi | mtlo =>
      simp only [execute, ho]
      exact done_ends (set_loadReg h.loadReg (by decide) _) _
  | mult | multu =>
      simp only [execute, ho]
      exact setHiLo_ends h.loadReg _ _ _
  | div =>
      simp only [execute, ho]
      exact divide_ends h ho hdiv _
  | divu =>
      simp only [execute, ho, divideUnsigned]
      split
      next => exact setHiLo_ends h.loadReg _ _ _
      next => exact setHiLo_ends h.loadReg _ _ _
  | beq | bne | bgez | bgtz | blez | bltz | j | jr =>
      simp only [execute, ho]
      exact done_ends h.loadReg _
  | bgezal | bltzal | jal | jalr =>
      simp only [execute, ho]
      exact done_ends (hlink _) _
  | lb | lbu =>
      simp only [execute, ho]
      exact loadByte_ends h _
  | lh | lhu =>
      simp only [execute, ho]
      exact loadHalf_ends h _
  | lw =>
      simp only [execute, ho]
      exact loadWord_ends h _
  | lwl | lwr =>
      simp only [execute, ho]
      exact loadPart_ends h _ _
  | sb | sh | sw =>
      simp only [execute, ho]
      exact store_ends h (by decide) _
  | swl | swr =>
      simp only [execute, ho]
      exact storePart_ends h _ _
  | syscall | res | unimp =>
      simp only [execute, ho]
      exact h.raise_ends rfl rfl _ _
  | rfe | special | bcond => exact absurd (by simp [OpCode.Unhandled, ho]) hop

theorem execute_divOverflows (hdiv : i.DivOverflows s) : execute i s = .error .hostTrap := by
  obtain ⟨hop, hrs, hrt⟩ := hdiv
  have hne : s.reg i.rt ≠ 0 := by
    rw [hrt]
    decide
  simp only [execute, hop, divide]
  rw [if_neg hne, if_pos ⟨hrs, hrt⟩]

end Execute

/-! ## Decoding -/

theorem specialTable_handled : ∀ k : Fin 64, ¬(specialTable.get k).Unhandled := by
  unfold OpCode.Unhandled
  decide

theorem opTable_ne_rfe : ∀ k : Fin 64, (opTable.get k).opCode ≠ .rfe := by decide

/-- Every word decodes to an opcode of the switch: the entries `SPECIAL` and
`BCOND` of the first table are replaced, by entries of the second or by a
branch. -/
theorem decode_handled (value : Word) : ¬(decode value).opCode.Unhandled := by
  have hrfe := opTable_ne_rfe (Fin.ofNat 64 (value >>> 26).toNat)
  simp only [decode]
  generalize (opTable.get (Fin.ofNat 64 (value >>> 26).toNat)).opCode = o at hrfe
  unfold furtherDecode
  split
  next => exact specialTable_handled _
  next =>
      simp only [OpCode.Unhandled]
      split_ifs <;> decide
  next hspecial hbcond => exact fun h => h.elim hrfe fun h => h.elim hspecial hbcond

/-! ## One instruction -/

section Instructions

variable {α : Type} {t : Fin 32} {s s₁ s' : State} {R : α → Prop} {x : Except Stop α}

/-- What is left alone is where a restart starts from. -/
theorem Trapped.of_untouched (h : Trapped t s₁ s') (hs : Untouched s s₁) : Trapped t s s' := by
  obtain ⟨hreg, hmem⟩ := hs
  have hgpr : ∀ r, s₁.reg r = s.reg r := fun r => congrFun hreg _
  exact ⟨h.mainMemory.trans hmem, fun r hr => (h.counters r hr).trans (congrFun hreg r),
    fun r hr => (h.others r hr).trans (hgpr r), fun ht => (h.applied ht).trans (congrFun hreg _),
    h.cleared, h.zero⟩

theorem Ends.of_untouched (h : Ends t s₁ R x) (hs : Untouched s s₁) : Ends t s R x := by
  cases h with
  | ok ha => exact .ok ha
  | raise ht => exact .raise (ht.of_untouched hs)

theorem Boundary.of_untouched (h : Boundary t s) (hs : Untouched s s₁) : Boundary t s₁ :=
  ⟨(congrFun hs.1 _).trans h.zero, (congrFun hs.1 _).trans h.loadReg⟩

/-- The instruction at the program counter is the division that traps. -/
def DivOverflow (s : State) : Prop := ∃ i ∈ fetch s, i.DivOverflows s

instance (s : State) : Decidable (DivOverflow s) :=
  inferInstanceAs (Decidable (∃ i ∈ fetch s, i.DivOverflows s))

/-- An instruction is fetched and executed, or the fetch raises the
exception. -/
theorem oneInstruction_cases (h : Boundary t s) :
    (fetch s = none ∧ ∃ which s', oneInstruction s = .error (.raise which s') ∧ Trapped t s s')
      ∨ ∃ value s₁, fetch s = some (decode value) ∧ Untouched s s₁
          ∧ oneInstruction s = execute (decode value) s₁ >>= finish := by
  have hread := h.readMem_ends ⟨rfl, rfl⟩ (s.registers pcReg) (by decide : 4 = 1 ∨ 4 = 2 ∨ 4 = 4)
  rw [fetch, oneInstruction]
  generalize readMem s (s.registers pcReg) 4 = x at hread
  cases hread with
  | ok hs => exact Or.inr ⟨_, _, rfl, hs, rfl⟩
  | raise ht => exact Or.inl ⟨rfl, _, _, rfl, ht⟩

theorem Leaves.finish {d : Done} (h : Leaves t d) : ∃ q s', finish d = .ok s' ∧ Boundary q s' := by
  obtain ⟨hload, q, hq⟩ := h
  obtain ⟨s', hs'⟩ : ∃ s', delayedLoad d.state d.nextLoadReg d.nextLoadValue = .ok s' :=
    ⟨_, delayedLoad_eq hload _ _⟩
  refine ⟨q, advance s' d.pcAfter, by rw [Mips.finish, hs']; rfl, ?_⟩
  rw [hq] at hs'
  exact (boundary_delayedLoad hs').advance d.pcAfter

theorem divOverflows_untouched {i : Instruction} (hs : Untouched s s₁) :
    i.DivOverflows s₁ ↔ i.DivOverflows s := by
  simp only [Instruction.DivOverflows, State.reg, hs.1]

/-- **One instruction.** It ends at a boundary or in an exception without an
effect, unless it is the division that traps. -/
theorem oneInstruction_ends (h : Boundary t s) (hdiv : ¬DivOverflow s) :
    Ends t s (fun s' => ∃ q, Boundary q s') (oneInstruction s) := by
  rcases oneInstruction_cases h with ⟨-, which, s', heq, ht⟩ | ⟨value, s₁, hi, hs, heq⟩
  · rw [heq]
    exact .raise ht
  have hdiv₁ : ¬(decode value).DivOverflows s₁ := by
    rw [divOverflows_untouched hs]
    exact fun hq => hdiv ⟨_, hi, hq⟩
  rw [heq]
  refine ((execute_ends (h.of_untouched hs) (decode_handled value) hdiv₁).of_untouched hs).bind
    fun d hd => ?_
  obtain ⟨q, s', hs', hbdy⟩ := hd.finish
  rw [hs']
  exact .ok ⟨q, hbdy⟩

theorem oneInstruction_divOverflow (h : Boundary t s) (hdiv : DivOverflow s) :
    oneInstruction s = .error .hostTrap := by
  obtain ⟨i, hi, hq⟩ := hdiv
  rcases oneInstruction_cases h with ⟨hnone, -⟩ | ⟨value, s₁, hsome, hs, heq⟩
  · exact absurd (hnone.symm.trans hi) (by simp)
  · obtain rfl := Option.some.inj (hsome.symm.trans hi)
    rw [heq, execute_divOverflows ((divOverflows_untouched hs).mpr hq)]
    rfl

theorem boundary_of_lt (hzero : s.reg 0 = 0) (hload : (s.registers loadReg).toNat < 32) :
    Boundary ⟨_, hload⟩ s := by
  refine ⟨hzero, BitVec.eq_of_toNat_eq ?_⟩
  rw [toNat_regWord]

/-- **Exceptions are precise.** An instruction that raises an exception,
`SyscallException` or another, has done nothing when the handler is called
but deliver the load that was pending, and can be restarted. -/
theorem exceptions_precise (s s' : State) (which : ExceptionType) (hzero : s.reg 0 = 0)
    (hload : (s.registers loadReg).toNat < 32)
    (hraise : oneInstruction s = .error (.raise which s')) : Trapped ⟨_, hload⟩ s s' := by
  have hbdy := boundary_of_lt hzero hload
  have hdiv : ¬DivOverflow s := by
    intro hq
    rw [oneInstruction_divOverflow hbdy hq] at hraise
    cases hraise
  have hends := oneInstruction_ends hbdy hdiv
  rw [hraise] at hends
  cases hends with
  | raise ht => exact ht

end Instructions

/-- `SWL r2,1(r1)` with a load into `r1` pending, on a page that may be read
and not written. -/
def readOnlyStore : State where
  registers := fun r => if r = nextPCReg then 4 else if r = loadReg then 1 else
    if r = loadValueReg then 64 else if r = gpr 1 then 32 else if r = gpr 2 then 7 else 0
  mainMemory := write (fun _ => 0) 0 (leBytes 4 0xA8220001)
  pageTable := [⟨0, 0, true, true, false, false⟩]

/-- The word is read, the store is refused; the load into `r1` has arrived. -/
theorem exceptions_precise_readOnlyStore :
    ∃ s', oneInstruction readOnlyStore = .error (.raise (.access .readOnly) s')
      ∧ Trapped 1 readOnlyStore s' :=
  ⟨_, rfl, exceptions_precise readOnlyStore _ (.access .readOnly) rfl (by decide) rfl⟩

/-! ## Runs -/

/-- Between two instructions. -/
def State.AtBoundary (s : State) : Prop := s.reg 0 = 0 ∧ (s.registers loadReg).toNat < 32

/-- The next instruction ends well or in the handler, in either case between
two instructions again, and not with the end of the simulator. -/
def Sound (s : State) : Prop :=
  match oneInstruction s with
  | .ok s' => s'.AtBoundary
  | .error (.raise _ s') => s'.AtBoundary
  | .error _ => False

section Runs

open Run

variable {ω : Type} {K : Kernel ω} {t : Fin 32} {s : State} {x₀ x : Proc ω}

theorem Boundary.atBoundary (h : Boundary t s) : s.AtBoundary := by
  refine ⟨h.zero, ?_⟩
  rw [h.loadReg, toNat_regWord]
  exact t.isLt

theorem Boundary.sound_iff (h : Boundary t s) : Sound s ↔ ¬DivOverflow s := by
  unfold Sound
  constructor
  · intro hsound hdiv
    rw [oneInstruction_divOverflow h hdiv] at hsound
    exact hsound
  · intro hdiv
    have hends := oneInstruction_ends h hdiv
    generalize oneInstruction s = o at hends
    cases hends with
    | ok hq => exact hq.choose_spec.atBoundary
    | raise ht => exact ht.boundary.atBoundary

theorem Boundary.ticked {flush : Bool} {world : ω} {last : Option (Fin 32)} (h : Boundary t s)
    (hs : (Mips.oneTick flush s).map (fun s => (⟨world, s, last⟩ : Proc ω)) = some x) :
    ∃ q, Boundary q x.state := by
  obtain ⟨s', hs', -, q, hq, -⟩ := h.oneTick flush
  rw [hs'] at hs
  obtain rfl := Option.some.inj hs
  exact ⟨q, hq⟩

/-- One round of `Machine::Run`. -/
theorem Boundary.step {flush : Bool} (h : Boundary t x₀.state) (hs : step K x₀ flush = some x) :
    ∃ q, Boundary q x.state := by
  by_cases hdiv : DivOverflow x₀.state
  · rw [Mips.step, oneInstruction_divOverflow h hdiv] at hs
    cases hs
  have hends := oneInstruction_ends h hdiv
  rw [Mips.step] at hs
  generalize oneInstruction x₀.state = o at hends hs
  cases hends with
  | ok hq =>
      obtain ⟨q, hq⟩ := hq
      exact hq.ticked hs
  | raise ht =>
      obtain ⟨r, hk, hs⟩ := Option.bind_eq_some_iff.mp hs
      obtain ⟨hzero, hload⟩ := K.keeps hk
      have hr : Boundary 0 r.2 := ⟨hzero.trans ht.zero, hload.trans ht.cleared.1⟩
      exact hr.ticked hs

/-- From a state with no load pending every instruction of a run starts
between two instructions. -/
theorem reach_boundary (hzero : x₀.state.reg 0 = 0) (hload : x₀.state.registers loadReg = 0)
    (h : Reach (Mips.step K) Any x₀ x) : ∃ t, Boundary t x.state :=
  h.invariant (I := fun x => ∃ t, Boundary t x.state) ⟨0, hzero, hload⟩
    fun _ _ _ _ ⟨_, hb⟩ _ hs => hb.step hs

/-- **What an instruction can do to the kernel.** Whatever the program, after
any number of its instructions and system calls, the next instruction is one
the switch handles, stays inside the registers and the memory and ends with
register 0 and `LoadReg` as the next one needs them, if and only if it is not
a division of the least `int` by -1. -/
theorem instruction_sound_iff (K : Kernel ω) (x₀ x : Proc ω) (hzero : x₀.state.reg 0 = 0)
    (hload : x₀.state.registers loadReg = 0) (h : Reach (Mips.step K) Any x₀ x) :
    Sound x.state ↔ ¬DivOverflow x.state := by
  obtain ⟨t, hb⟩ := reach_boundary hzero hload h
  exact hb.sound_iff

end Runs

/-- `LUI r1,0x8000`, `ADDIU r2,r0,-1` and `DIV r1,r2`. -/
def divider : Proc Unit where
  world := ()
  state :=
    { registers := fun r => if r = nextPCReg then 4 else 0
      mainMemory := write (fun _ => 0) 0 ([0x3C018000, 0x2402FFFF, 0x0022001A].flatMap (leBytes 4))
      pageTable := [⟨0, 0, true, false, false, false⟩] }
  last := none

/-- The second instruction of that program. -/
theorem instruction_sound_divider :
    ∃ x, Run.Reach (step halting) Run.Any divider x ∧ x.state.registers pcReg = 4
      ∧ (Sound x.state ↔ ¬DivOverflow x.state) := by
  have hexec : (Run.exec (step halting) Run.Any divider [false]).map
      (fun x => x.state.registers pcReg) = some 4 := by decide +kernel
  obtain ⟨x, hexec, hpc⟩ := Option.map_eq_some_iff.mp hexec
  have hreach := Run.Reach.of_exec _ hexec
  exact ⟨x, hreach, hpc, instruction_sound_iff halting divider x rfl rfl hreach⟩

/-- Its third instruction traps the host. -/
theorem instruction_sound_fails_on_division :
    ∃ x, Run.Reach (step halting) Run.Any divider x ∧ x.state.registers pcReg = 8
      ∧ ¬Sound x.state := by
  have hexec : (Run.exec (step halting) Run.Any divider [false, false]).map
      (fun x => (x.state.registers pcReg, decide (DivOverflow x.state))) = some (8, true) := by
    decide +kernel
  obtain ⟨x, hexec, hx⟩ := Option.map_eq_some_iff.mp hexec
  obtain ⟨hpc, hdiv⟩ := Prod.mk.inj hx
  have hreach := Run.Reach.of_exec _ hexec
  obtain ⟨t, hb⟩ := reach_boundary rfl rfl hreach
  exact ⟨x, hreach, hpc, fun hsound => hb.sound_iff.mp hsound (of_decide_eq_true hdiv)⟩

end Mips

end Nachos
