import Nachos.Mips
import Nachos.SwitchSteps

/-!
# Context switches and user registers

The machine has one set of user registers and one page table register for
all user programs. `Scheduler::Run` saves the registers of the thread it
switches from into its `userRegisters`, and when a thread comes back behind
its own `SWITCH` it restores them and the page table of its address space;
a thread without an address space does neither. `AddrSpace::Execute` gives
the current thread an address space, sets the registers of the machine and
installs the page table.

`step` is this machine, on top of the scheduler of `Nachos.Scheduler`;
`Own.step` is the machine in which every user thread has registers and a
page table register of its own and a switch touches none of them. Both take
the same labels: a scheduler call, a stretch of instructions or system call
code of a user program as a function of the registers, the page table and
the rest of the system (`ω`), kernel code of a thread without a program, and
the parts of `StartProcess`. Interrupts finish a delayed load in the
registers of the machine; they are stretches of the current thread, which
may be one without a program, and then what they do to the registers is
lost. `State.abs` forgets where the registers of a thread are. This file has
the two machines, the invariant and the scheduler calls; that every step of
the first machine is one of the second, and what follows for runs, is in
`Nachos.ContextSwitchRuns`.
-/

namespace Nachos

open Run
open Mips (Registers gpr pcReg nextPCReg)

namespace Switch

/-! ## Registers and page tables -/

def stackReg : Fin 40 := gpr 29

/-- A page table as it is installed: where it is, and its number of pages. -/
structure Table where
  pageTable : Nat
  numPages : Int

/-- `AddrSpace::InitRegisters`. -/
def initRegisters (numPages : Int) : Registers :=
  Function.update (Function.update (Function.update (fun _ => 0) pcReg 0) nextPCReg 4)
    stackReg (BitVec.ofInt 32 (numPages * 128 - 16))

variable {ω : Type}

/-- `user f`: instructions or system call code of the current program, or an
interrupt in it. `kernel f g`: the same of a current thread that has no
program. Of `StartProcess`: `newSpace` with what the heap had in `pageTable`,
`load x` when `Load` has come to `pageTable` and `numPages` as in `x`, and
`execute`. `exit x`: `FreeSpace` and `Finish`, `x` being what the freed
address space then holds. -/
inductive Action (ω : Type) where
  | sched (a : Sched.Action)
  | user (f : Registers → Table → ω → Registers × ω)
  | kernel (f : Registers → Registers) (g : ω → ω)
  | newSpace (junk : Nat)
  | load (x : Table)
  | execute
  | exit (x : Table)

/-! ## The machine -/

/-- `registers` and `table` are those of the machine. Address spaces are
numbered in the order of their allocation; `space t` is the pointer of thread
`t` and `loading t` the local variable of `StartProcess` before `Execute`.
`ended` is history: the threads that have called `Finish`. -/
structure State (ω : Type) where
  sched : Sched.State
  registers : Registers
  table : Table
  userRegisters : Nat → Registers
  space : Nat → Option Nat
  loading : Nat → Option Nat
  addrSpace : Nat → Table
  nextSpace : Nat
  ended : Nat → Bool
  world : ω

namespace State

abbrev cur (s : State ω) : Nat := s.sched.currentThread

abbrev mode (s : State ω) : Sched.Mode := s.sched.mode

/-- `t` runs a program. -/
def IsUser (s : State ω) (t : Nat) : Prop := s.ended t = false ∧ s.space t ≠ none

instance (s : State ω) (t : Nat) : Decidable (s.IsUser t) := inferInstanceAs (Decidable (_ ∧ _))

/-- The first part of `Run`: `SaveUserState`, if there is an address space. -/
def save (s : State ω) : State ω :=
  if s.space s.cur ≠ none then
    { s with userRegisters := Function.update s.userRegisters s.cur s.registers }
  else s

/-- Behind `SWITCH`: a new thread is in `Begin`, the others in `Run`, which
does `RestoreUserState` and `RestoreState` if there is an address space. -/
def restore (s : State ω) : State ω :=
  if s.sched.kont s.cur = .begin then s
  else match s.space s.cur with
    | some k => { s with registers := s.userRegisters s.cur, table := s.addrSpace k }
    | none => s

/-- `delete space`. -/
def freeSpace (s : State ω) (k : Nat) (x : Table) : State ω :=
  { s with addrSpace := Function.update s.addrSpace k x }

/-- After a scheduler call that led to `sched`. -/
def follow (s : State ω) (a : Sched.Action) (sched : Sched.State) : State ω :=
  if sched.failed ≠ none then { s with sched := sched }
  else if sched.mode = .switched then { s.save with sched := sched }
  else match a with
    | .resume => { s.restore with sched := sched }
    | .finish => { s with sched := sched, ended := Function.update s.ended s.cur true }
    | _ => { s with sched := sched }

end State

def step (s : State ω) (a : Action ω) : Option (State ω) :=
  match a with
  | .sched a => (Sched.step s.sched a).map (s.follow a)
  | .user f =>
      if s.mode ≠ .switched ∧ s.IsUser s.cur then
        let (registers, world) := f s.registers s.table s.world
        some { s with registers := registers, world := world }
      else none
  | .kernel f g =>
      if s.mode ≠ .switched ∧ ¬s.IsUser s.cur then
        some { s with registers := f s.registers, world := g s.world }
      else none
  | .newSpace junk =>
      if s.mode = .running then
        some { s with
          loading := Function.update s.loading s.cur (some s.nextSpace)
          addrSpace := Function.update s.addrSpace s.nextSpace ⟨junk, 0⟩
          nextSpace := s.nextSpace + 1 }
      else none
  | .load x =>
      if s.mode = .running then
        (s.loading s.cur).map fun k =>
          { s with addrSpace := Function.update s.addrSpace k x }
      else none
  | .execute =>
      if s.mode = .running then
        (s.loading s.cur).map fun k =>
          { s with
            space := Function.update s.space s.cur (some k)
            loading := Function.update s.loading s.cur none
            registers := initRegisters (s.addrSpace k).numPages
            table := s.addrSpace k }
      else none
  | .exit x =>
      if s.mode = .running ∧ s.ended s.cur = false then
        (s.space s.cur).bind fun k =>
          (Sched.step s.sched .finish).map ((s.freeSpace k x).follow .finish)
      else none

/-- The machine when the thread "main" starts: no program, and what memory
holds that has not been written yet. -/
def State.init (table : Table) (userRegisters : Nat → Registers) (addrSpace : Nat → Table)
    (world : ω) : State ω where
  sched := .init
  registers := fun _ => 0
  table := table
  userRegisters := userRegisters
  space := fun _ => none
  loading := fun _ => none
  addrSpace := addrSpace
  nextSpace := 0
  ended := fun _ => false
  world := world

/-! ## The machine with registers for every thread -/

namespace Own

/-- `cpu t`: the registers and the page table of `t`, if it runs a program;
`loading t`: the page table of the program it is loading. -/
structure State (ω : Type) where
  sched : Sched.State
  cpu : Nat → Option (Registers × Table)
  loading : Nat → Option Table
  world : ω

abbrev State.cur (s : State ω) : Nat := s.sched.currentThread

abbrev State.mode (s : State ω) : Sched.Mode := s.sched.mode

/-- After a scheduler call: nobody's registers change, and a thread that
finishes has none any more. -/
def State.follow (s : State ω) (a : Sched.Action) (sched : Sched.State) : State ω :=
  { s with
    sched := sched
    cpu := match a with
      | .finish => Function.update s.cpu s.cur none
      | _ => s.cpu }

def step (s : State ω) (a : Action ω) : Option (State ω) :=
  match a with
  | .sched a => (Sched.step s.sched a).map (s.follow a)
  | .user f =>
      if s.mode ≠ .switched then
        (s.cpu s.cur).map fun (registers, table) =>
          let (registers, world) := f registers table s.world
          { s with cpu := Function.update s.cpu s.cur (some (registers, table)), world := world }
      else none
  | .kernel _ g =>
      if s.mode ≠ .switched ∧ s.cpu s.cur = none then some { s with world := g s.world } else none
  | .newSpace junk =>
      if s.mode = .running then
        some { s with loading := Function.update s.loading s.cur (some ⟨junk, 0⟩) }
      else none
  | .load x =>
      if s.mode = .running then
        (s.loading s.cur).map fun _ =>
          { s with loading := Function.update s.loading s.cur (some x) }
      else none
  | .execute =>
      if s.mode = .running then
        (s.loading s.cur).map fun table =>
          { s with
            cpu := Function.update s.cpu s.cur (some (initRegisters table.numPages, table))
            loading := Function.update s.loading s.cur none }
      else none
  | .exit _ =>
      if s.mode = .running ∧ s.cpu s.cur ≠ none then
        (Sched.step s.sched .finish).map (s.follow .finish)
      else none

def State.init (world : ω) : State ω where
  sched := .init
  cpu := fun _ => none
  loading := fun _ => none
  world := world

end Own

/-! ## The abstraction -/

namespace State

/-- The registers of the current thread are in the machine, but for a moment
behind `SWITCH`. -/
def onCpu (s : State ω) (t : Nat) : Prop := t = s.cur ∧ s.mode ≠ .switched

instance (s : State ω) (t : Nat) : Decidable (s.onCpu t) := inferInstanceAs (Decidable (_ ∧ _))

def cpu (s : State ω) (t : Nat) : Option (Registers × Table) :=
  if s.ended t then none
  else (s.space t).map fun k =>
    if s.onCpu t then (s.registers, s.table) else (s.userRegisters t, s.addrSpace k)

def abs (s : State ω) : Own.State ω where
  sched := s.sched
  cpu := s.cpu
  loading t := (s.loading t).map s.addrSpace
  world := s.world

end State

section Cpu

theorem save_eq (s : State ω) : s.save = { s with userRegisters := s.save.userRegisters } := by
  unfold State.save
  split <;> rfl

theorem restore_eq (s : State ω) :
    s.restore = { s with registers := s.restore.registers, table := s.restore.table } := by
  unfold State.restore
  split
  next => rfl
  next => split <;> rfl

variable {s : State ω} {t : Nat}

theorem cpu_of_onCpu (ht : s.IsUser t) (hcpu : s.onCpu t) :
    s.cpu t = some (s.registers, s.table) := by
  obtain ⟨k, hk⟩ := Option.ne_none_iff_exists'.mp ht.2
  simp [State.cpu, ht.1, hk, hcpu]

theorem cpu_parked (hcpu : ¬s.onCpu t) : s.cpu t =
    if s.ended t then none else (s.space t).map fun k => (s.userRegisters t, s.addrSpace k) := by
  simp [State.cpu, hcpu]

theorem cpu_eq_none_iff : s.cpu t = none ↔ ¬s.IsUser t := by
  unfold State.cpu State.IsUser
  cases s.ended t <;> simp

end Cpu

/-! ## The invariant -/

/-- Threads that have finished do not come back; a program that is not
running was switched out in `Run`; the installed page table is that of the
current program; and no two pointers lead to one address space. -/
structure Inv (s : State ω) : Prop where
  sched : Sched.Inv s.sched
  ended : ∀ t, s.ended t = true → t < s.sched.next
    ∧ (s.sched.live t = true → t = s.cur ∧ s.mode = .finishing ∨ s.sched.toBeDestroyed = some t)
  finishing : s.mode = .finishing → s.ended s.cur = true
  born : ∀ t, s.space t ≠ none → t < s.sched.next
  kont : ∀ t, s.IsUser t → t = s.cur ∧ s.mode = .running ∨ s.sched.kont t ≠ .begin
  table : ∀ k, s.IsUser s.cur → s.mode ≠ .switched → s.space s.cur = some k →
    s.table = s.addrSpace k
  space_lt : ∀ t k, s.space t = some k → k < s.nextSpace
  loading_lt : ∀ t k, s.loading t = some k → k < s.nextSpace
  space_inj : ∀ t t' k, s.space t = some k → s.space t' = some k → t = t'
  loading_inj : ∀ t t' k, s.loading t = some k → s.loading t' = some k → t = t'
  apart : ∀ t t' k, s.space t = some k → s.loading t' ≠ some k

namespace Inv

variable {s s' : State ω}

theorem init (table : Table) (userRegisters : Nat → Registers) (addrSpace : Nat → Table)
    (world : ω) : Inv (State.init table userRegisters addrSpace world) where
  sched := Sched.Inv.init
  ended _ h := absurd h Bool.false_ne_true
  finishing h := by cases h
  born _ h := absurd rfl h
  kont _ h := absurd rfl h.2
  table _ h := absurd rfl h.2
  space_lt _ _ h := by cases h
  loading_lt _ _ h := by cases h
  space_inj _ _ _ h := by cases h
  loading_inj _ _ _ h := by cases h
  apart _ _ _ h := by cases h

/-- The current thread has not finished, unless it is in `Sleep` for it. -/
theorem not_ended (h : Inv s) (hs : s.mode ≠ .sleeping) (hf : s.mode ≠ .finishing) :
    s.ended s.cur = false := by
  by_contra he
  obtain ⟨hlive, -, -, -, hdoomed⟩ := h.sched.current hs
  rcases (h.ended _ (Bool.of_not_eq_false he)).2 hlive with ⟨-, hm⟩ | hd
  · exact hf hm
  · rw [Sched.State.doomed, if_pos hd] at hdoomed
    cases hdoomed

theorem running (h : Inv s) (hm : s.mode = .running) : s.ended s.cur = false :=
  h.not_ended (by rw [hm]; exact Sched.Mode.noConfusion) (by rw [hm]; exact Sched.Mode.noConfusion)

/-- A scheduler call without a switch that the current thread comes back
from. -/
theorem stay (h : Inv s) {sched : Sched.State} (hinv : Sched.Inv sched)
    (hcur : sched.currentThread = s.cur) (hm : s.mode ≠ .switched) (hm' : sched.mode ≠ .switched)
    (hfin : sched.mode = .finishing ↔ s.mode = .finishing)
    (hlive : ∀ t, t < s.sched.next → sched.live t = true → s.sched.live t = true
      ∧ (s.sched.toBeDestroyed = some t → sched.toBeDestroyed = some t))
    (hnext : s.sched.next ≤ sched.next)
    (hkont : ∀ t, t < s.sched.next → s.IsUser t →
      t = s.cur ∧ sched.mode = .running ∨ sched.kont t ≠ .begin) :
    Inv { s with sched := sched } ∧ ({ s with sched := sched } : State ω).cpu = s.cpu := by
  constructor
  · refine { h with
      sched := hinv, ended := fun t ht => ?_, finishing := fun hf => ?_, born := fun t ht => ?_,
      kont := fun t ht => ?_, table := fun k hu _ hk => ?_ }
    · obtain ⟨hlt, hover⟩ := h.ended t ht
      refine ⟨Nat.lt_of_lt_of_le hlt hnext, fun hl => ?_⟩
      obtain ⟨hl, hd⟩ := hlive t hlt hl
      exact (hover hl).imp (fun hc => ⟨hc.1.trans hcur.symm, hfin.mpr hc.2⟩) hd
    · rw [show State.cur { s with sched := sched } = s.cur from hcur]
      exact h.finishing (hfin.mp hf)
    · exact Nat.lt_of_lt_of_le (h.born t ht) hnext
    · exact (hkont t (h.born t ht.2) ht).imp_left fun hc => ⟨hc.1.trans hcur.symm, hc.2⟩
    · rw [show State.cur { s with sched := sched } = s.cur from hcur] at hu hk
      exact h.table k hu hm hk
  · funext t
    have hon : State.onCpu { s with sched := sched } t ↔ s.onCpu t :=
      and_congr (by rw [show State.cur { s with sched := sched } = s.cur from hcur])
        (iff_of_true hm' hm)
    simp only [State.cpu, hon]

/-- `Run`: the registers go where the abstraction looks for them. -/
theorem switch (h : Inv s) {sched : Sched.State} (hinv : Sched.Inv sched)
    (hm : s.mode ≠ .switched) (hm' : sched.mode = .switched)
    (hkont : sched.kont = Function.update s.sched.kont s.cur .yield
      ∨ s.mode ≠ .running ∧ sched.kont = s.sched.kont)
    (hdoomed : sched.toBeDestroyed
      = if s.mode = .finishing then some s.cur else s.sched.toBeDestroyed)
    (hlive : sched.live = s.sched.live) (hnext : sched.next = s.sched.next) :
    Inv { s.save with sched := sched }
      ∧ ({ s.save with sched := sched } : State ω).cpu = s.cpu := by
  have hsave := save_eq s
  have hother : ∀ t, t ≠ s.cur → s.save.userRegisters t = s.userRegisters t := by
    intro t ht
    unfold State.save
    split
    next => exact Function.update_of_ne ht _ _
    next => rfl
  have hown : s.space s.cur ≠ none → s.save.userRegisters s.cur = s.registers := by
    intro hsp
    rw [State.save, if_pos hsp]
    exact Function.update_self _ _ _
  have htbd : s.sched.toBeDestroyed = none := by
    by_contra hne
    exact hm (h.sched.destroy hne)
  generalize s.save.userRegisters = saved at hsave hother hown
  rw [hsave]
  constructor
  · refine { h with
      sched := hinv, ended := fun t ht => ?_, finishing := fun hf => ?_, born := fun t ht => ?_,
      kont := fun t ht => ?_, table := fun k hu hns _ => ?_ }
    · obtain ⟨hlt, hover⟩ := h.ended t ht
      refine ⟨by rw [hnext]; exact hlt, fun hl => Or.inr ?_⟩
      rw [hlive] at hl
      rcases hover hl with ⟨rfl, hf⟩ | hd
      · exact hdoomed.trans (if_pos hf)
      · rw [htbd] at hd
        cases hd
    · exact absurd (hm'.symm.trans hf) Sched.Mode.noConfusion
    · rw [hnext]
      exact h.born t ht
    · refine Or.inr ?_
      rcases hkont with hk | ⟨hnr, hk⟩
      · rw [hk]
        by_cases htc : t = s.cur
        · subst htc
          rw [Function.update_self]
          exact Sched.Kont.noConfusion
        · rw [Function.update_of_ne htc]
          exact (h.kont t ht).resolve_left fun hc => htc hc.1
      · rw [hk]
        exact (h.kont t ht).resolve_left fun hc => hnr hc.2
    · exact absurd hm' hns
  · funext t
    rw [cpu_parked (fun hc => hc.2 hm')]
    by_cases htc : t = s.cur
    · subst htc
      by_cases hu : s.IsUser s.cur
      · obtain ⟨k, hk⟩ := Option.ne_none_iff_exists'.mp hu.2
        rw [cpu_of_onCpu hu ⟨rfl, hm⟩]
        simp [hu.1, hk, hown hu.2, h.table k hu hm hk]
      · rw [cpu_eq_none_iff.mpr hu]
        unfold State.IsUser at hu
        cases he : s.ended s.cur
        · simp [he] at hu
          simp [hu]
        · rfl
    · rw [cpu_parked fun hc => htc hc.1]
      simp only [hother t htc]

/-- Behind `SWITCH`: they are fetched from there. -/
theorem resume (h : Inv s) {sched : Sched.State} (hinv : Sched.Inv sched)
    (hm : s.mode = .switched) (hcur : sched.currentThread = s.cur)
    (hm' : sched.mode = .running ∨ sched.mode = .sleeping)
    (hkont : ∀ t, s.sched.kont t ≠ .begin → sched.kont t ≠ .begin)
    (hlive : ∀ t, sched.live t = true →
      s.sched.live t = true ∧ s.sched.toBeDestroyed ≠ some t)
    (hnext : sched.next = s.sched.next) :
    Inv { s.restore with sched := sched }
      ∧ ({ s.restore with sched := sched } : State ω).cpu = s.cpu := by
  have hnr : s.mode ≠ .running := by rw [hm]; exact Sched.Mode.noConfusion
  have hnf : s.mode ≠ .finishing := by rw [hm]; exact Sched.Mode.noConfusion
  have hbegin : ∀ t, s.IsUser t → s.sched.kont t ≠ .begin := fun t ht =>
    (h.kont t ht).resolve_left fun hc => hnr hc.2
  have hrestore := restore_eq s
  have hown : ∀ k, s.IsUser s.cur → s.space s.cur = some k →
      s.restore.registers = s.userRegisters s.cur ∧ s.restore.table = s.addrSpace k := by
    intro k hu hk
    rw [State.restore, if_neg (hbegin _ hu), hk]
    exact ⟨rfl, rfl⟩
  generalize s.restore.registers = regs at hrestore hown
  generalize s.restore.table = tab at hrestore hown
  rw [hrestore]
  have hons : sched.mode ≠ .switched := by
    rcases hm' with hm' | hm' <;> rw [hm'] <;> exact Sched.Mode.noConfusion
  constructor
  · refine { h with
      sched := hinv, ended := fun t ht => ?_, finishing := fun hf => ?_, born := fun t ht => ?_,
      kont := fun t ht => ?_, table := fun k hu _ hk => ?_ }
    · obtain ⟨hlt, hover⟩ := h.ended t ht
      refine ⟨by rw [hnext]; exact hlt, fun hl => ?_⟩
      obtain ⟨hl, hd⟩ := hlive t hl
      rcases hover hl with ⟨-, hf⟩ | hd'
      · exact absurd hf hnf
      · exact absurd hd' hd
    · rcases hm' with hm' | hm' <;> exact absurd (hm'.symm.trans hf) Sched.Mode.noConfusion
    · rw [hnext]
      exact h.born t ht
    · exact Or.inr (hkont t (hbegin t ht))
    · change (s.IsUser sched.currentThread) at hu
      change s.space sched.currentThread = some k at hk
      rw [hcur] at hu hk
      exact (hown k hu hk).2
  · funext t
    by_cases htc : t = s.cur
    · subst htc
      rw [cpu_parked (s := s) fun hc => hc.2 hm]
      by_cases hu : s.IsUser s.cur
      · obtain ⟨k, hk⟩ := Option.ne_none_iff_exists'.mp hu.2
        refine (cpu_of_onCpu (s := { s with registers := regs, table := tab, sched := sched }) hu
          ⟨hcur.symm, hons⟩).trans ?_
        simp [hu.1, hk, hown k hu hk]
      · refine ((cpu_eq_none_iff
          (s := { s with registers := regs, table := tab, sched := sched })).mpr hu).trans ?_
        unfold State.IsUser at hu
        cases he : s.ended s.cur
        · simp [he] at hu
          simp [hu]
        · rfl
    · rw [cpu_parked (s := s) fun hc => htc hc.1]
      exact cpu_parked fun hc => htc (hc.1.trans hcur)

/-- `Finish`, which may find the address space of the current thread
deleted. -/
theorem finish (h : Inv s) {sched : Sched.State} (hinv : Sched.Inv sched)
    (hm : s.mode = .running) (hcur : sched.currentThread = s.cur)
    (hm' : sched.mode = .finishing) (hkont : sched.kont = s.sched.kont)
    (hlive : sched.live = s.sched.live) (hnext : sched.next = s.sched.next)
    {addrSpace : Nat → Table}
    (hspace : ∀ t k, t ≠ s.cur → s.space t = some k → addrSpace k = s.addrSpace k)
    (hloading : ∀ t k, s.loading t = some k → addrSpace k = s.addrSpace k) :
    Inv { s with
        sched := sched, addrSpace := addrSpace, ended := Function.update s.ended s.cur true }
      ∧ State.abs { s with
          sched := sched, addrSpace := addrSpace, ended := Function.update s.ended s.cur true }
        = s.abs.follow .finish sched := by
  have hns : s.mode ≠ .sleeping := by rw [hm]; exact Sched.Mode.noConfusion
  have htbd : s.sched.toBeDestroyed = none := by
    by_contra hne
    exact absurd (hm.symm.trans (h.sched.destroy hne)) Sched.Mode.noConfusion
  have hlt : s.cur < s.sched.next := by
    by_contra hge
    have := (h.sched.current hns).1
    rw [h.sched.fresh _ (Nat.not_lt.mp hge)] at this
    cases this
  constructor
  · refine { h with
      sched := hinv, ended := fun t ht => ?_, finishing := fun _ => ?_, born := fun t ht => ?_,
      kont := fun t ht => ?_, table := fun k hu _ hk => ?_ }
    · by_cases htc : t = s.cur
      · subst htc
        exact ⟨by rw [hnext]; exact hlt, fun _ => Or.inl ⟨hcur.symm, hm'⟩⟩
      · obtain ⟨hlt, hover⟩ := h.ended t (by simpa [htc] using ht)
        refine ⟨by rw [hnext]; exact hlt, fun hl => ?_⟩
        rw [hlive] at hl
        rcases hover hl with ⟨hc, -⟩ | hd
        · exact absurd hc htc
        · rw [htbd] at hd
          cases hd
    · rw [show State.cur { s with sched := sched } = s.cur from hcur]
      exact Function.update_self _ _ _
    · rw [hnext]
      exact h.born t ht
    · have htc : t ≠ s.cur := by
        rintro rfl
        simp [State.IsUser] at ht
      refine Or.inr ?_
      rw [hkont]
      refine (h.kont t ⟨?_, ht.2⟩).resolve_left fun hc => htc hc.1
      simpa [htc] using ht.1
    · rw [show State.cur { s with sched := sched } = s.cur from hcur] at hu
      simp [State.IsUser] at hu
  · refine (Own.State.mk.injEq ..).mpr ⟨rfl, ?_, ?_, rfl⟩
    · funext t
      change State.cpu _ t = Function.update s.cpu s.cur none t
      by_cases htc : t = s.cur
      · subst htc
        rw [cpu_eq_none_iff.mpr (by simp [State.IsUser]), Function.update_self]
      · rw [cpu_parked fun hc => htc (hc.1.trans hcur), Function.update_of_ne htc,
          cpu_parked (s := s) fun hc => htc hc.1]
        simp only [Function.update_of_ne htc]
        cases hk : s.space t with
        | none => rfl
        | some k => simp only [Option.map_some, hspace t k htc hk]
    · funext t
      cases hk : s.loading t with
      | none => simp [State.abs, hk]
      | some k => simp [State.abs, hk, hloading t k hk]

theorem abs_sched {a : Sched.Action} (ha : a ≠ .finish) (hcpu : s'.cpu = s.cpu)
    (hloading : s'.loading = s.loading) (haddrSpace : s'.addrSpace = s.addrSpace)
    (hworld : s'.world = s.world) : s'.abs = s.abs.follow a s'.sched := by
  refine (Own.State.mk.injEq ..).mpr ⟨rfl, ?_, ?_, hworld⟩
  · refine hcpu.trans ?_
    cases a with
    | finish => exact absurd rfl ha
    | _ => rfl
  · rw [hloading, haddrSpace]
    rfl

/-- A scheduler call. -/
theorem follow (h : Inv s) {a : Sched.Action} {sched : Sched.State}
    (hs : Sched.step s.sched a = some sched) :
    Inv (s.follow a sched) ∧ (s.follow a sched).abs = s.abs.follow a sched := by
  have hinv := h.sched.step hs
  obtain ⟨hfailed, heff⟩ := Sched.effect_of_step h.sched hs
  unfold State.follow
  rw [if_neg (not_not.mpr hfailed)]
  cases heff with
  | stay _ hnf hnr hns hcur hm hkont htbd hlive hnext =>
      have hm' : sched.mode ≠ .switched := by rw [hm]; exact hns
      obtain ⟨hi, hcpu⟩ := h.stay hinv hcur hns hm' (by rw [hm])
        (fun t _ hl => ⟨by rw [← hlive]; exact hl, fun hd => htbd.trans hd⟩)
        (Nat.le_of_eq hnext.symm) (fun t _ ht => by rw [hkont, hm]; exact h.kont t ht)
      rw [if_neg hm']
      cases a with
      | finish => exact absurd rfl hnf
      | resume => exact absurd rfl hnr
      | _ => exact ⟨hi, abs_sched hnf hcpu rfl rfl rfl⟩
  | create hm hcur hm' hkont htbd hlive hnext =>
      have hns : s.mode ≠ .switched := by
        rw [show s.mode = .running from hm]
        exact Sched.Mode.noConfusion
      have hns' : sched.mode ≠ .switched := by rw [hm']; exact Sched.Mode.noConfusion
      obtain ⟨hi, hcpu⟩ := h.stay hinv hcur hns hns' (by rw [hm', show s.mode = .running from hm])
        (fun t ht hl => ⟨by simpa [hlive, Nat.ne_of_lt ht] using hl, fun hd => htbd.trans hd⟩)
        (by rw [hnext]; exact Nat.le_succ _)
        (fun t ht hu => by
          rw [hkont, Function.update_of_ne (Nat.ne_of_lt ht)]
          exact (h.kont t hu).imp_left fun hc => ⟨hc.1, hm'⟩)
      rw [if_neg hns']
      exact ⟨hi, abs_sched Sched.Action.noConfusion hcpu rfl rfl rfl⟩
  | p i k hm hcur hm' hkont hk htbd hlive hnext =>
      have hns : s.mode ≠ .switched := by
        rw [show s.mode = .running from hm]
        exact Sched.Mode.noConfusion
      have hns' : sched.mode ≠ .switched := by
        rcases hm' with hm' | hm' <;> rw [hm'] <;> exact Sched.Mode.noConfusion
      have hfin : sched.mode = .finishing ↔ s.mode = .finishing := by
        rw [show s.mode = .running from hm]
        rcases hm' with hm' | hm' <;> simp [hm']
      obtain ⟨hi, hcpu⟩ := h.stay hinv hcur hns hns' hfin
        (fun t _ hl => ⟨by rw [← hlive]; exact hl, fun hd => htbd.trans hd⟩)
        (Nat.le_of_eq hnext.symm)
        (fun t _ ht => by
          refine Or.inr ?_
          rw [hkont]
          by_cases htc : t = s.cur
          · subst htc
            rw [Function.update_self]
            exact hk
          · rw [Function.update_of_ne htc]
            exact (h.kont t ht).resolve_left fun hc => htc hc.1)
      rw [if_neg hns']
      exact ⟨hi, abs_sched Sched.Action.noConfusion hcpu rfl rfl rfl⟩
  | switch _ hnf hnr hns hm' hkont htbd hlive hnext =>
      obtain ⟨hi, hcpu⟩ := h.switch hinv hns hm' hkont htbd hlive hnext
      rw [if_pos hm']
      have hloading : s.save.loading = s.loading := by rw [save_eq]
      have haddr : s.save.addrSpace = s.addrSpace := by rw [save_eq]
      have hworld : s.save.world = s.world := by rw [save_eq]
      exact ⟨hi, abs_sched hnf hcpu hloading haddr hworld⟩
  | finish hm hcur hm' hkont htbd hlive hnext =>
      rw [if_neg (by rw [hm']; exact Sched.Mode.noConfusion)]
      exact h.finish hinv hm hcur hm' hkont hlive hnext (fun _ _ _ _ => rfl) (fun _ _ _ => rfl)
  | resume hm hcur hkont hlive hnext =>
      have hm' : sched.mode = .running ∨ sched.mode = .sleeping :=
        hkont.elim (fun hk => Or.inl hk.1) And.left
      obtain ⟨hi, hcpu⟩ := h.resume hinv hm hcur hm'
        (fun t ht => by
          rcases hkont with ⟨-, hk⟩ | ⟨-, k, hk, hk'⟩
          · rwa [hk]
          · rw [hk']
            by_cases htc : t = s.cur
            · subst htc
              rwa [Function.update_self]
            · rwa [Function.update_of_ne htc]) hlive hnext
      have hns' : sched.mode ≠ .switched := by
        rcases hm' with hm' | hm' <;> rw [hm'] <;> exact Sched.Mode.noConfusion
      rw [if_neg hns']
      have hloading : s.restore.loading = s.loading := by rw [restore_eq]
      have haddr : s.restore.addrSpace = s.addrSpace := by rw [restore_eq]
      have hworld : s.restore.world = s.world := by rw [restore_eq]
      exact ⟨hi, abs_sched Sched.Action.noConfusion hcpu hloading haddr hworld⟩

end Inv

end Switch

end Nachos
