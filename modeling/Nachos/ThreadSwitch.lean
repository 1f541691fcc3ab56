import Nachos.X86

/-!
# `SWITCH`

The switch from one kernel thread to another, `SWITCH` of
`threads/switch.S` as it is for the 386, instruction by instruction. The
first fields of a `Thread` are `stackTop` and `machineState`
(`threads/thread.h`); `threads/switch.h` gives the offset in them that each
register is kept at, and the return address behind them.

`eax` is needed to point to the thread, so its value passes through the
variable `_eax_save`. The return address is saved in the thread as well, and
copied to the stack when the thread goes on, but to 4(%esp), where the first
argument was; `ret` finds the return address where the call has put it.

`Holds mem p t` says that the thread at `p` is suspended with the registers
`t`. `switch_run`: `SWITCH` suspends its first argument with the registers it
was called with and goes on with those that its second argument was suspended
with, and apart from the words of the first thread it writes `_eax_save` and
one word of the stack it goes on with.
-/

namespace Nachos

namespace ThreadSwitch

open X86

/-! ## The text -/

/-- The offsets of the registers from the beginning of a `Thread`. -/
def offset : Reg → Word
  | .esp => 0
  | .eax => 4
  | .ebx => 8
  | .ecx => 12
  | .edx => 16
  | .ebp => 20
  | .esi => 24
  | .edi => 28

/-- `_PC`. -/
def pcOffset : Word := 32

/-- A field of the thread that `eax` points to. -/
def field (r : Reg) : Place := ⟨some .eax, offset r⟩

/-- A word of the stack. -/
def onStack (disp : Word) : Place := ⟨some .esp, disp⟩

/-- The first half of `SWITCH`: the thread in 4(%esp) is saved. -/
def saveText (eaxSave : Word) : List Instr :=
  [.store .eax ⟨none, eaxSave⟩, .load (onStack 4) .eax, .store .ebx (field .ebx),
    .store .ecx (field .ecx), .store .edx (field .edx), .store .esi (field .esi),
    .store .edi (field .edi), .store .ebp (field .ebp), .store .esp (field .esp),
    .load ⟨none, eaxSave⟩ .ebx, .store .ebx (field .eax), .load (onStack 0) .ebx,
    .store .ebx ⟨some .eax, pcOffset⟩]

/-- The second half without its `ret`: the thread in 8(%esp) goes on. -/
def restoreText (eaxSave : Word) : List Instr :=
  [.load (onStack 8) .eax, .load (field .eax) .ebx, .store .ebx ⟨none, eaxSave⟩,
    .load (field .ebx) .ebx, .load (field .ecx) .ecx, .load (field .edx) .edx,
    .load (field .esi) .esi, .load (field .edi) .edi, .load (field .ebp) .ebp,
    .load (field .esp) .esp, .load ⟨some .eax, pcOffset⟩ .eax, .store .eax (onStack 4),
    .load ⟨none, eaxSave⟩ .eax]

/-- `SWITCH`. -/
def switchText (eaxSave : Word) : List Instr := saveText eaxSave ++ restoreText eaxSave ++ [.ret]

/-! ## Suspended threads -/

/-- The registers and the return address of a call of `SWITCH`. -/
structure Context where
  reg : Reg → Word
  pc : Word

/-- The context of a call that has just been made. -/
def contextOf (c : Cpu) : Context := ⟨c.get, c.mem c.esp⟩

/-- The nine words of a thread that `SWITCH` uses. -/
def SaveArea (p a : Word) : Prop := (∃ r, a = p + offset r) ∨ a = p + pcOffset

/-- The thread at `p` is suspended with the context `t`, and the return
address is on its stack. -/
structure Holds (mem : Word → Word) (p : Word) (t : Context) : Prop where
  regs : ∀ r, mem (p + offset r) = t.reg r
  pc : mem (p + pcOffset) = t.pc
  onStack : mem (t.reg .esp) = t.pc

/-- The CPU goes on with `t`: the `ret` has taken the return address. -/
structure Resumed (c : Cpu) (t : Context) : Prop where
  regs : ∀ r, r ≠ .esp → c.get r = t.reg r
  esp : c.esp = t.reg .esp + 4
  eip : c.eip = t.pc

/-! ## Execution -/

/-- The memory after the first half of `SWITCH`. -/
def saved (c : Cpu) (eaxSave p : Word) : Word → Word :=
  let m := Function.update c.mem eaxSave c.eax
  let m := Function.update m (p + offset .ebx) c.ebx
  let m := Function.update m (p + offset .ecx) c.ecx
  let m := Function.update m (p + offset .edx) c.edx
  let m := Function.update m (p + offset .esi) c.esi
  let m := Function.update m (p + offset .edi) c.edi
  let m := Function.update m (p + offset .ebp) c.ebp
  let m := Function.update m (p + offset .esp) c.esp
  let m := Function.update m (p + offset .eax) c.eax
  Function.update m (p + pcOffset) (c.mem c.esp)

theorem aligned_offset (r : Reg) : Aligned (offset r) := by
  cases r <;> decide

/-- The two threads, the stack of the first and `_eax_save` are in different
places. -/
structure Apart (c : Cpu) (eaxSave p : Word) : Prop where
  stackAligned : Aligned c.esp
  threadAligned : Aligned p
  saveAligned : Aligned eaxSave
  arg : c.mem (c.esp + 4) = p
  save : ¬SaveArea p eaxSave
  ret : ¬SaveArea p c.esp ∧ c.esp ≠ eaxSave
  first : c.esp + 4 ≠ eaxSave

theorem save_run {c : Cpu} {eaxSave p : Word} (h : Apart c eaxSave p) (place : Nat → Word) :
    runText place (saveText eaxSave) c
      = some
          { c with eax := p, ebx := c.mem c.esp, eip := place 13, mem := saved c eaxSave p } := by
  have h4 : Aligned (c.esp + 4) := h.stackAligned.add (by decide)
  have h0 : c.esp + 0 = c.esp := BitVec.add_zero c.esp
  have hf : ∀ r, Aligned (p + offset r) := fun r => h.threadAligned.add (aligned_offset r)
  have hpc : Aligned (p + pcOffset) := h.threadAligned.add (by decide)
  have hne : ∀ r, eaxSave ≠ p + offset r := fun r he => h.save (Or.inl ⟨r, he⟩)
  have hret : ∀ r, c.esp ≠ p + offset r := fun r he => h.ret.1 (Or.inl ⟨r, he⟩)
  simp only [saveText, runText, exec, Place.address, field, onStack, Cpu.get, Cpu.set, Cpu.read_eq,
    Cpu.write_eq, h.saveAligned, h4, h0, hf, hpc, h.stackAligned, Option.map_some, Option.bind_some,
    Function.update_of_ne h.first, h.arg, Function.update_of_ne (hne _), Function.update_self,
    Function.update_of_ne (hret _), Function.update_of_ne h.ret.2, saved]

theorem pcOffset_ne (r : Reg) : offset r ≠ pcOffset := by
  cases r <;> decide

section Saved

variable {c : Cpu} {eaxSave p : Word}

theorem saved_pc : saved c eaxSave p (p + pcOffset) = c.mem c.esp := Function.update_self ..

theorem saved_reg (r : Reg) : saved c eaxSave p (p + offset r) = c.get r := by
  have hne : ∀ k k' : Word, k ≠ k' → p + k ≠ p + k' := fun k k' hk he =>
    hk ((BitVec.add_right_inj p).mp he)
  rw [saved, Function.update_of_ne (hne _ _ (pcOffset_ne r))]
  cases r <;> simp [Function.update, offset, Cpu.get]

theorem saved_other {a : Word} (ha : ¬SaveArea p a) (hsave : a ≠ eaxSave) :
    saved c eaxSave p a = c.mem a := by
  have hr : ∀ r, a ≠ p + offset r := fun r he => ha (Or.inl ⟨r, he⟩)
  have hpc : a ≠ p + pcOffset := fun he => ha (Or.inr he)
  simp only [saved, Function.update_of_ne hpc, Function.update_of_ne (hr _),
    Function.update_of_ne hsave]

end Saved

/-- A thread that `SWITCH` can go on with. -/
structure Ready (mem : Word → Word) (eaxSave q : Word) (t : Context) : Prop where
  holds : Holds mem q t
  threadAligned : Aligned q
  stackAligned : Aligned (t.reg .esp)
  save : ¬SaveArea q eaxSave
  ret : t.reg .esp ≠ eaxSave
  first : t.reg .esp + 4 ≠ eaxSave

/-- The memory after the second half of `SWITCH`. -/
def restored (mem : Word → Word) (eaxSave : Word) (t : Context) : Word → Word :=
  Function.update (Function.update mem eaxSave (t.reg .eax)) (t.reg .esp + 4) t.pc

theorem restore_run {c : Cpu} {eaxSave q : Word} {t : Context} (h : Ready c.mem eaxSave q t)
    (hsave : Aligned eaxSave) (hstack : Aligned c.esp) (harg : c.mem (c.esp + 8) = q)
    (place : Nat → Word) :
    ∃ c', runText place (restoreText eaxSave ++ [.ret]) c = some c' ∧ Resumed c' t
      ∧ c'.mem = restored c.mem eaxSave t := by
  have h8 : Aligned (c.esp + 8) := hstack.add (by decide)
  have hf : ∀ r, Aligned (q + offset r) := fun r => h.threadAligned.add (aligned_offset r)
  have hpc : Aligned (q + pcOffset) := h.threadAligned.add (by decide)
  have h4 : Aligned (t.reg .esp + 4) := h.stackAligned.add (by decide)
  have hne : ∀ r, q + offset r ≠ eaxSave := fun r he => h.save (Or.inl ⟨r, he.symm⟩)
  have hne' : q + pcOffset ≠ eaxSave := fun he => h.save (Or.inr he.symm)
  have htop : t.reg .esp ≠ t.reg .esp + 4 := by
    intro he
    have := (BitVec.add_right_inj (t.reg .esp)).mp ((BitVec.add_zero (t.reg .esp)).trans he)
    exact absurd this (by decide)
  refine ⟨⟨t.reg .eax, t.reg .ebx, t.reg .ecx, t.reg .edx, t.reg .esi, t.reg .edi, t.reg .ebp,
    t.reg .esp + 4, t.pc, restored c.mem eaxSave t⟩, ?_, ⟨fun r hr => ?_, rfl, rfl⟩, rfl⟩
  · simp only [restoreText, List.cons_append, List.nil_append, runText, exec, Place.address, field,
      onStack, Cpu.get, Cpu.set, Cpu.read_eq, Cpu.write_eq, h8, hf, hpc, h4, hsave, h.stackAligned,
      harg, h.holds.regs, h.holds.pc, h.holds.onStack, Option.map_some, Option.bind_some,
      Function.update_of_ne (hne _), Function.update_of_ne hne', Function.update_self,
      Function.update_of_ne (Ne.symm h.first), Function.update_of_ne htop,
      Function.update_of_ne h.ret, restored]
  · cases r <;> first | rfl | exact absurd rfl hr

theorem switchText_straight (eaxSave : Word) :
    ∀ i ∈ saveText eaxSave ++ restoreText eaxSave, i.Straight := by
  intro i hi
  simp only [saveText, restoreText, List.cons_append, List.nil_append, List.mem_cons,
    List.not_mem_nil, or_false] at hi
  rcases hi with rfl | rfl | rfl | rfl | rfl | rfl | rfl | rfl | rfl | rfl | rfl | rfl | rfl | rfl
    | rfl | rfl | rfl | rfl | rfl | rfl | rfl | rfl | rfl | rfl | rfl | rfl <;> trivial

/-- **`SWITCH`** from the thread `p`, whose call it is, to the thread `q`. -/
theorem switch_run {code : Code} {place : Nat → Word} {eaxSave p q : Word} {c : Cpu} {t : Context}
    (hcode : Placed code place (switchText eaxSave)) (hc : c.eip = place 0)
    (hp : Apart c eaxSave p) (harg : c.mem (c.esp + 8) = q)
    (hargs : ¬SaveArea p (c.esp + 8) ∧ c.esp + 8 ≠ eaxSave)
    (hq : Ready (saved c eaxSave p) eaxSave q t) :
    ∃ c', steps code 27 c = some c' ∧ Resumed c' t
      ∧ c'.mem = restored (saved c eaxSave p) eaxSave t := by
  have hsteps := steps_text (saveText eaxSave ++ restoreText eaxSave) .ret
    (switchText_straight eaxSave) hcode hc
  obtain ⟨c', hrun, hres, hmem⟩ := restore_run
    (c := { c with eax := p, ebx := c.mem c.esp, eip := place 13, mem := saved c eaxSave p }) hq
    hp.saveAligned hp.stackAligned ((saved_other hargs.1 hargs.2).trans harg)
    (fun k => place (13 + k))
  refine ⟨c', ?_, hres, hmem⟩
  rw [List.append_assoc, runText_append, save_run hp, Option.bind_some] at hsteps
  exact hsteps.trans hrun

end ThreadSwitch

end Nachos
