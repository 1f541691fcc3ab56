import Nachos.LoadDelay

/-!
# Interrupts and the load-delay slot over whole runs

`Machine::Run` executes one instruction after the other and calls
`Interrupt::OneTick` between two of them, whose `CheckIfDue` may deliver the
pending load. A `step` is one round of that loop, with the choice of whether
`CheckIfDue` delivers as its input; `run` takes a choice for every boundary.
An exception goes to the handler, a function of the machine and of the world
the kernel keeps behind it, which may also not return. Interrupts that are
due while the handler runs find nothing pending.

`oneInstruction_settle` compares one instruction executed with a load
pending and executed after its delivery. The two runs of
`flushes_invisible` are then both compared, instruction by instruction, with
the one where everything has been delivered (`Twins.step`).
-/

namespace Nachos

namespace Mips

open ByteMemory

/-! ## One instruction, before and after delivery -/

/-- The instruction that is next. -/
def fetch (s : State) : Option Instruction :=
  match readMem s (s.registers pcReg) 4 with
  | .ok (raw, _) => some (decode raw)
  | .error _ => none

section Instructions

variable {t : Fin 32} {s s' f : State}

theorem Late.fetch (h : Late t s s') : fetch s = fetch s' := by
  rw [Mips.fetch, Mips.fetch, h.beyond (by decide)]
  have hread := h.readMem (s.registers pcReg) 4
  cases hr : Mips.readMem s (s.registers pcReg) 4 with
  | ok a =>
      cases hr' : Mips.readMem s' (s.registers pcReg) 4 with
      | ok b =>
          rw [hr, hr'] at hread
          cases hread with
          | ok hab => exact congrArg (fun raw => some (decode raw)) hab.1
      | error e =>
          rw [hr, hr'] at hread
          cases hread
  | error e =>
      cases hr' : Mips.readMem s' (s.registers pcReg) 4 with
      | ok b =>
          rw [hr, hr'] at hread
          cases hread
      | error e' => rfl

theorem Late.advance (h : Late t s s') (pcAfter : Word) :
    Late t (advance s pcAfter) (advance s' pcAfter) := by
  have h₁ := h.setBeyond (r := prevPCReg) (by decide) (s.registers pcReg)
  have h₂ := h₁.setBeyond (r := pcReg) (by decide)
    ((s.set prevPCReg (s.registers pcReg)).registers nextPCReg)
  have h₃ := h₂.setBeyond (r := nextPCReg) (by decide) pcAfter
  have hpc : s'.registers pcReg = s.registers pcReg := h.beyond (by decide)
  have hnext := h₁.beyond (r := nextPCReg) (by decide)
  simp only [Mips.advance, hpc, hnext]
  exact h₃

theorem Boundary.advance (h : Boundary t s) (pcAfter : Word) : Boundary t (advance s pcAfter) := by
  have hkeeps : ∀ r, r ≠ prevPCReg ∧ r ≠ pcReg ∧ r ≠ nextPCReg →
      (Mips.advance s pcAfter).registers r = s.registers r := by
    intro r hr
    rw [Mips.advance, State.registers_set_of_ne hr.2.2, State.registers_set_of_ne hr.2.1,
      State.registers_set_of_ne hr.1]
  constructor
  · rw [hkeeps _ ⟨gpr_ne (by decide), gpr_ne (by decide), gpr_ne (by decide)⟩, h.zero]
  · rw [hkeeps _ (by decide), h.loadReg]

/-- A load into register 0 leaves nothing to deliver. -/
theorem late_of_load_zero {v v' : Word} {a b : State} (h : Late t s s')
    (ha : delayedLoad s 0 v = .ok a) (hb : delayedLoad s' 0 v' = .ok b) : Late 0 a b := by
  have hbdy : Boundary 0 a := boundary_delayedLoad (q := 0) ha
  have hbdy' : Boundary 0 b := boundary_delayedLoad (q := 0) hb
  rw [h.delayedLoad_eq, delayedLoad_eq (t := 0) h.loadReg'] at ha
  rw [delayedLoad_eq (t := 0) h.loadReg'] at hb
  obtain rfl := Except.ok.inj ha
  obtain rfl := Except.ok.inj hb
  refine ⟨rfl, rfl, hbdy.loadReg, hbdy'.loadReg, fun h0 => absurd rfl h0, fun r h37 h38 _ => ?_⟩
  simp only [State.set]
  by_cases hr0 : r = gpr 0
  · rw [hr0, Function.update_self, Function.update_self]
  · rw [Function.update_of_ne hr0, Function.update_of_ne hr0, Function.update_of_ne h38,
      Function.update_of_ne h38]

/-- **One instruction.** Executed with a load pending it does not conflict
with, or after the delivery of that load, an instruction ends in the same
state, up to the delivery of what it leaves pending itself. -/
theorem oneInstruction_settle (h : Late t s f) (hz : ∀ i ∈ fetch s, ¬i.Conflicts t) :
    Both (fun a b => settle a = settle b ∧ ∀ i ∈ fetch s, Boundary (i.loadTarget.getD 0) a)
      (oneInstruction s) (oneInstruction f) := by
  have hpc : f.registers pcReg = s.registers pcReg := h.beyond (by decide)
  rw [oneInstruction, oneInstruction, hpc]
  refine (h.readMem _ 4).bind fun a b ha hab => ?_
  obtain ⟨hraw, hlate⟩ := hab
  have hfetch : fetch s = some (decode a.1) := by rw [fetch, ha]
  simp only [← hraw]
  refine (execute_late hlate (hz _ hfetch)).bind fun d d' _ hd => ?_
  obtain ⟨g, hg⟩ : ∃ g, delayedLoad d.state d.nextLoadReg d.nextLoadValue = .ok g :=
    ⟨_, delayedLoad_eq hd.state.loadReg _ _⟩
  obtain ⟨g', hg'⟩ : ∃ g', delayedLoad d'.state d.nextLoadReg d'.nextLoadValue = .ok g' :=
    ⟨_, delayedLoad_eq (t := 0) hd.state.loadReg' _ _⟩
  rw [← hd.nextLoadReg, ← hd.pcAfter, hg, hg']
  refine .ok ⟨?_, fun i hi => ?_⟩
  · rcases hd.nextLoadValue with h0 | hval
    · rw [h0] at hg hg'
      exact ((late_of_load_zero hd.state hg hg').advance d.pcAfter).delayedLoad_eq 0 0
    · rw [hd.state.delayedLoad_eq, hval, hg'] at hg
      rw [Except.ok.inj hg]
  · obtain rfl : decode a.1 = i := Option.some.inj (hfetch.symm.trans hi)
    rw [hd.loads] at hg
    exact (boundary_delayedLoad hg).advance d.pcAfter

end Instructions

/-! ## Runs -/

/-- `ExceptionHandler`, with the world it acts on; `none` when it does not
return to the program. -/
structure Kernel (ω : Type) where
  handle : ExceptionType → ω → State → Option (ω × State)
  -- it writes the result and the program counters
  keeps : ∀ {which w s w' s'}, handle which w s = some (w', s') →
    s'.registers (gpr 0) = s.registers (gpr 0) ∧ s'.registers loadReg = s.registers loadReg

/-- A program between two instructions. `last` is the target of the
instruction before, if that was a load; no code reads it. -/
structure Proc (ω : Type) where
  world : ω
  state : State
  last : Option (Fin 32)

section Runs

variable {ω : Type}

/-- `OneTick` at an instruction boundary. -/
def oneTick (flush : Bool) (s : State) : Option State :=
  if flush then (settle s).toOption else some s

/-- One round of `Machine::Run`. -/
def step (K : Kernel ω) (x : Proc ω) (flush : Bool) : Option (Proc ω) :=
  match oneInstruction x.state with
  | .ok s => (oneTick flush s).map fun s => ⟨x.world, s, (fetch x.state).bind (·.loadTarget)⟩
  | .error (.raise which s) =>
      (K.handle which x.world s).bind fun (world, s) =>
        (oneTick flush s).map fun s => ⟨world, s, none⟩
  | .error _ => none

/-- The first `n` instructions; `flush k` says whether the pending load is
delivered after instruction `k`. -/
def run (K : Kernel ω) (flush : Nat → Bool) (x : Proc ω) : Nat → Option (Proc ω)
  | 0 => some x
  | n + 1 => (run K flush x n).bind fun y => step K y (flush n)

/-- The next instruction does not conflict with the load before it. -/
def HazardFree (x : Proc ω) : Prop := ∀ t ∈ x.last, ∀ i ∈ fetch x.state, ¬i.Conflicts t

instance (x : Proc ω) : Decidable (HazardFree x) :=
  inferInstanceAs (Decidable (∀ t ∈ x.last, ∀ i ∈ fetch x.state, ¬i.Conflicts t))

/-- The same memory and, once the pending load is applied, the same
registers. -/
def Alike (x y : Proc ω) : Prop :=
  x.world = y.world ∧ x.state.mainMemory = y.state.mainMemory
    ∧ x.state.pageTable = y.state.pageTable
    ∧ ∃ f f', settle x.state = .ok f ∧ settle y.state = .ok f' ∧ f.registers = f'.registers

/-- What is pending is the load of the instruction before. -/
def Proc.Pending (x : Proc ω) : Prop := ∃ t, Boundary t x.state ∧ (t = 0 ∨ x.last = some t)

/-- The two runs after the same number of instructions. -/
structure Twins (x y : Proc ω) : Prop where
  world : x.world = y.world
  last : x.last = y.last
  settles : settle x.state = settle y.state
  left : x.Pending
  right : y.Pending

variable {x y : Proc ω} {K : Kernel ω}

theorem HazardFree.of_pending {t : Fin 32} (h : HazardFree x) (ht : t = 0 ∨ x.last = some t) :
    ∀ i ∈ fetch x.state, ¬i.Conflicts t := by
  intro i hi
  rcases ht with rfl | ht
  · exact fun hc => hc.1 rfl
  · exact h t ht i hi

/-- A boundary state after the tick. -/
theorem Boundary.oneTick {t : Fin 32} {s : State} (h : Boundary t s) (flush : Bool) :
    ∃ s', oneTick flush s = some s' ∧ settle s' = settle s
      ∧ ∃ q, Boundary q s' ∧ (q = 0 ∨ q = t) := by
  cases flush with
  | false => exact ⟨s, rfl, rfl, t, h, Or.inr rfl⟩
  | true =>
      obtain ⟨f, hf, hlate, h0⟩ := h.late
      refine ⟨f, ?_, (hlate.delayedLoad_eq 0 0).symm, 0, h0, Or.inl rfl⟩
      rw [Mips.oneTick, if_pos rfl, hf]
      rfl

/-- Two states that settle alike, each after its own tick. -/
theorem twins_oneTick {t : Fin 32} {s s' : State} {w : ω} {last : Option (Fin 32)}
    (h : Boundary t s) (h' : Boundary t s') (heq : settle s = settle s')
    (ht : t = 0 ∨ last = some t) (flush flush' : Bool) :
    Option.Rel Twins ((oneTick flush s).map fun s => (⟨w, s, last⟩ : Proc ω))
      ((oneTick flush' s').map fun s => ⟨w, s, last⟩) := by
  obtain ⟨a, ha, hsa, q, hq, hqt⟩ := h.oneTick flush
  obtain ⟨b, hb, hsb, q', hq', hqt'⟩ := h'.oneTick flush'
  rw [ha, hb]
  refine .some ⟨rfl, rfl, hsa.trans (heq.trans hsb.symm), ⟨q, hq, ?_⟩, ⟨q', hq', ?_⟩⟩
  · rcases hqt with rfl | rfl
    · exact Or.inl rfl
    · exact ht
  · rcases hqt' with rfl | rfl
    · exact Or.inl rfl
    · exact ht

/-- **One round of the loop**, in two runs. -/
theorem Twins.step (h : Twins x y) (hz : HazardFree x) (flush flush' : Bool) :
    Option.Rel Twins (step K x flush) (step K y flush') := by
  obtain ⟨t, hb, ht⟩ := h.left
  obtain ⟨t', hb', ht'⟩ := h.right
  obtain ⟨f, hf, hlate, -⟩ := hb.late
  obtain ⟨f', hf', hlate', -⟩ := hb'.late
  obtain rfl : f = f' := Except.ok.inj (hf.symm.trans (h.settles.trans hf'))
  have hfetch : fetch x.state = fetch y.state := hlate.fetch.trans hlate'.fetch.symm
  have hz' : ∀ i ∈ fetch y.state, ¬i.Conflicts t' := by
    rw [← hfetch]
    exact hz.of_pending (by rwa [h.last])
  have hboth := (oneInstruction_settle hlate (hz.of_pending ht)).join
    (oneInstruction_settle hlate' hz')
  simp only [Mips.step, ← hfetch, ← h.world]
  generalize hx : oneInstruction x.state = ox at hboth
  generalize oneInstruction y.state = oy at hboth
  cases hboth with
  | ok hab =>
      obtain ⟨c, ⟨hac, hba⟩, ⟨hbc, hbb⟩⟩ := hab
      -- an instruction that was executed was fetched
      cases hi : fetch x.state with
      | none =>
          rw [oneInstruction] at hx
          rw [fetch] at hi
          cases hr : readMem x.state (x.state.registers pcReg) 4 with
          | ok a => rw [hr] at hi; cases hi
          | error e => rw [hr] at hx; cases hx
      | some i =>
          refine twins_oneTick (hba i hi) (hbb i (hfetch ▸ hi)) (hac.trans hbc.symm) ?_ _ _
          rw [Option.bind_some]
          cases i.loadTarget with
          | none => exact Or.inl rfl
          | some r => exact Or.inr rfl
  | stop e he =>
      cases e with
      | raise which s =>
          simp only
          cases hk : K.handle which x.world s with
          | none => exact .none
          | some r =>
              obtain ⟨h0, hl⟩ := K.keeps hk
              have hr : Boundary 0 r.2 := ⟨h0.trans he.zero, hl.trans he.loadReg⟩
              exact twins_oneTick hr hr rfl (Or.inl rfl) _ _
      | assert => exact .none
      | wildStore => exact .none
      | hostTrap => exact .none

theorem twins_run (h : Twins x x) (flush flush' : Nat → Bool) :
    ∀ n, (∀ k < n, ∀ y ∈ run K flush x k, HazardFree y) →
      Option.Rel Twins (run K flush x n) (run K flush' x n) := by
  intro n
  induction n with
  | zero => exact fun _ => .some h
  | succ n ih =>
      intro hz
      have hrun := ih fun k hk => hz k (by omega)
      have hfree := hz n (by omega)
      rw [run, run]
      generalize run K flush x n = a at hrun hfree
      generalize run K flush' x n = b at hrun
      cases hrun with
      | none => exact .none
      | some htw => exact htw.step (hfree _ rfl) _ _

theorem Twins.alike (h : Twins x y) : Alike x y := by
  obtain ⟨t, hb, -⟩ := h.left
  obtain ⟨t', hb', -⟩ := h.right
  obtain ⟨f, hf, hlate, -⟩ := hb.late
  obtain ⟨f', hf', hlate', -⟩ := hb'.late
  obtain rfl : f = f' := Except.ok.inj (hf.symm.trans (h.settles.trans hf'))
  exact ⟨h.world, hlate.mainMemory.symm.trans hlate'.mainMemory,
    hlate.pageTable.symm.trans hlate'.pageTable, f, f, hf, hf', rfl⟩

/-- **The boundaries at which interrupts deliver the pending load cannot be
told.** From a state with no load pending, two runs of a program whose
instructions do not conflict with the load before them have, after every
instruction, the same memory and the same registers once the pending load is
applied; and one ends when the other does. -/
theorem flushes_invisible (K : Kernel ω) (x : Proc ω) (hzero : x.state.registers (gpr 0) = 0)
    (hload : x.state.registers loadReg = 0) (flush flush' : Nat → Bool) (n : Nat)
    (hfree : ∀ k < n, ∀ y ∈ run K flush x k, HazardFree y) :
    Option.Rel Alike (run K flush x n) (run K flush' x n) := by
  have hpending : x.Pending := ⟨0, ⟨hzero, hload⟩, Or.inl rfl⟩
  have hrun := twins_run (K := K) ⟨rfl, rfl, rfl, hpending, hpending⟩ flush flush' n hfree
  generalize run K flush x n = a at hrun
  generalize run K flush' x n = b at hrun
  cases hrun with
  | none => exact .none
  | some h => exact .some h.alike

end Runs

/-- `LWR r5,33(r0)`, `LWL r5,36(r0)`, a `NOP` and `SW r5,40(r0)`, and the
bytes they are about. -/
def sample : Proc Unit where
  world := ()
  state :=
    { registers := fun r => if r = nextPCReg then 4 else 0
      mainMemory := write (write (fun _ => 0) 0
        ([0x98050021, 0x88050024, 0, 0xAC050028].flatMap (leBytes 4))) 32 [1, 2, 3, 4, 5, 6, 7, 8]
      pageTable := [⟨0, 0, true, false, false, false⟩] }
  last := none

/-- A kernel that lets no program go on after an exception. -/
def halting : Kernel Unit := ⟨fun _ _ _ => none, fun h => (Option.some_ne_none _ h.symm).elim⟩

/-- A word loaded from an odd address in two halves and stored again, without
an interrupt and with one after every instruction. -/
theorem flushes_invisible_unaligned_load :
    (run halting (fun _ => false) sample 4).map (fun x => x.state.mainMemory 40) = some 2
    ∧ (run halting (fun _ => true) sample 4).map (fun x => x.state.mainMemory 43) = some 5
    ∧ Option.Rel Alike (run halting (fun _ => false) sample 4)
        (run halting (fun _ => true) sample 4) :=
  ⟨by decide +kernel, by decide +kernel,
    flushes_invisible halting sample rfl rfl (fun _ => false) (fun _ => true) 4
      (by decide +kernel)⟩

end Mips

end Nachos
