import Nachos.Run
import Nachos.ThreadSwitch

/-!
# Kernel threads

Any number of threads on one processor. The running thread executes code of
its own (`compute`), creates threads (`fork`: the constructor of `Thread` and
`Thread::StackAllocate` of `threads/thread.cc`), has them destroyed, and calls
`SWITCH` (`switch`), which is executed instruction by instruction.

What a thread does on its own is not looked at. It is asked that it leaves
alone what `SWITCH` has saved of the others: the nine words in the object and
the return address on the stack. Objects and stacks are given out as the
allocator does, without overlap (`region`), and can be used again when their
thread is gone. `suspended` records the registers each thread was suspended
with; the code keeps them in the memory only.

`switch_transparent`: whatever the others do, and however often they switch,
a thread that is switched to finds the registers, the stack pointer and the
return address of its own call of `SWITCH`. `forked_thread_calls`: a thread
that was created begins in `ThreadRoot`, which calls `ThreadBegin`, then the
function it was created for with its argument, then `ThreadFinish`.
-/

namespace Nachos

namespace ThreadSwitch

open X86 Run

/-! ## The system -/

/-- What a word of the memory is used for. -/
inductive Region where
  | object (thread : Word)
  | stack (thread : Word)
  | eaxSave
  | other
deriving DecidableEq

/-- The text of `ThreadRoot`, with the registers that `switch.h` names. -/
def threadRootText : List Instr :=
  [.push .ebp, .move .esp .ebp, .push .edx, .call .ecx, .call .esi, .call .edi, .move .ebp .esp,
    .pop .ebp, .ret]

/-- The program in memory. -/
structure Image where
  code : Code
  switch : Nat → Word
  root : Nat → Word
  eaxSave : Word
  threadBegin : Word
  threadFinish : Word
  switchPlaced : Placed code switch (switchText eaxSave)
  rootPlaced : Placed code root threadRootText
  saveAligned : Aligned eaxSave

structure Kernel where
  cpu : Cpu
  current : Word
  suspended : Word → Option Context
  region : Word → Region

/-- `MachineStateSize`, in words. -/
def machineStateSize : Nat := 75

/-- A word of `stackTop` or of `machineState` in the thread at `p`. -/
def InObject (p a : Word) : Prop := (a - p).toNat < 4 * (1 + machineStateSize)

instance (p a : Word) : Decidable (InObject p a) := inferInstanceAs (Decidable (_ < _))

/-- `StackSize`, in words. -/
def stackSize : Nat := 8 * 1024

/-- A word of the stack that begins at `stack`. -/
def InStack (stack a : Word) : Prop := (a - stack).toNat < 4 * stackSize

instance (stack a : Word) : Decidable (InStack stack a) := inferInstanceAs (Decidable (_ < _))

/-- `stackTop` after `StackAllocate`. -/
def stackTop (stack : Word) : Word := stack + BitVec.ofNat 32 (4 * (stackSize - 4)) - 4

/-- The context that `StackAllocate` leaves in a new `Thread`. -/
def initialContext (image : Image) (stack func arg : Word) : Context where
  reg
    | .esp => stackTop stack
    | .ecx => image.threadBegin
    | .edx => arg
    | .esi => func
    | .edi => image.threadFinish
    | .eax => 0
    | .ebx => 0
    | .ebp => 0
  pc := image.root 0

/-- The constructor of `Thread`, as far as it matters here: `stackTop` and
`machineState` are zero. -/
def construct (mem : Word → Word) (p : Word) : Word → Word := fun a =>
  if InObject p a then 0 else mem a

/-- `Thread::StackAllocate`. -/
def stackAllocate (image : Image) (mem : Word → Word) (p stack func arg : Word) : Word → Word :=
  let m := Function.update mem (p + offset .esp) (stackTop stack)
  let m := Function.update m (stackTop stack) (image.root 0)
  let m := Function.update m stack 0xdedbeef
  let m := Function.update m (p + pcOffset) (image.root 0)
  let m := Function.update m (p + offset .ecx) image.threadBegin
  let m := Function.update m (p + offset .esi) func
  let m := Function.update m (p + offset .edx) arg
  Function.update m (p + offset .edi) image.threadFinish

inductive Event where
  | compute (cpu : Cpu)
  | fork (p stack func arg : Word)
  | destroy (p : Word)
  | switch (q : Word)

namespace Kernel

def afterFork (image : Image) (k : Kernel) (p stack func arg : Word) : Kernel where
  cpu := { k.cpu with mem := stackAllocate image (construct k.cpu.mem p) p stack func arg }
  current := k.current
  suspended := Function.update k.suspended p (some (initialContext image stack func arg))
  region := fun a =>
    if InObject p a then .object p else if InStack stack a then .stack p else k.region a

def afterDestroy (k : Kernel) (p : Word) : Kernel :=
  { k with
    suspended := Function.update k.suspended p none
    region := fun a =>
      if k.region a = .object p ∨ k.region a = .stack p then .other else k.region a }

def afterSwitch (k : Kernel) (q : Word) (cpu : Cpu) : Kernel :=
  { k with
    cpu := cpu
    current := q
    suspended :=
      Function.update (Function.update k.suspended k.current (some (contextOf k.cpu))) q none }

def step (image : Image) (k : Kernel) : Event → Option Kernel
  | .compute cpu => some { k with cpu := cpu }
  | .fork p stack func arg => some (k.afterFork image p stack func arg)
  | .destroy p => some (k.afterDestroy p)
  | .switch q => (steps image.code 27 k.cpu).map (k.afterSwitch q)

/-- The words are not in use. -/
def Unused (k : Kernel) (p stack : Word) : Prop :=
  ∀ a, InObject p a ∨ InStack stack a → k.region a = .other

/-- What is asked of the running thread. -/
def Allowed (image : Image) (k : Kernel) : Event → Prop
  | .compute cpu => ∀ p t, k.suspended p = some t →
      (∀ a, SaveArea p a → cpu.mem a = k.cpu.mem a)
        ∧ cpu.mem (t.reg .esp) = k.cpu.mem (t.reg .esp)
  | .fork p stack _ _ => Aligned p ∧ Aligned stack ∧ p ≠ k.current ∧ k.suspended p = none
      ∧ k.Unused p stack ∧ ∀ a, InObject p a → ¬InStack stack a
  | .destroy p => p ≠ k.current
  | .switch q => k.cpu.eip = image.switch 0 ∧ Aligned k.cpu.esp
      ∧ k.region k.cpu.esp = .stack k.current ∧ k.region (k.cpu.esp + 4) = .stack k.current
      ∧ k.region (k.cpu.esp + 8) = .stack k.current ∧ k.cpu.mem (k.cpu.esp + 4) = k.current
      ∧ k.cpu.mem (k.cpu.esp + 8) = q ∧ k.suspended q ≠ none

/-- One thread runs and there is no other. -/
structure Booted (image : Image) (k : Kernel) : Prop where
  alone : ∀ p, k.suspended p = none
  aligned : Aligned k.current
  object : ∀ a, SaveArea k.current a → k.region a = .object k.current
  save : k.region image.eaxSave = .eaxSave

end Kernel

/-! ## The invariant -/

/-- A suspended thread, with its words. -/
structure Suspended (k : Kernel) (p : Word) (t : Context) : Prop where
  holds : Holds k.cpu.mem p t
  aligned : Aligned p
  stackAligned : Aligned (t.reg .esp)
  object : ∀ a, SaveArea p a → k.region a = .object p
  ret : k.region (t.reg .esp) = .stack p
  first : k.region (t.reg .esp + 4) = .stack p

structure Kernel.OK (image : Image) (k : Kernel) : Prop where
  save : k.region image.eaxSave = .eaxSave
  aligned : Aligned k.current
  object : ∀ a, SaveArea k.current a → k.region a = .object k.current
  running : k.suspended k.current = none
  suspended : ∀ p t, k.suspended p = some t → Suspended k p t

section Steps

variable {image : Image} {k k' : Kernel}

/-- Words that are used for different things are different words. -/
theorem apart {a b : Word} {r r' : Region} (ha : k.region a = r) (hb : k.region b = r')
    (hr : r ≠ r') : a ≠ b := fun he => hr (ha.symm.trans (he ▸ hb))

theorem not_saveArea {p a : Word} {r : Region} (hp : ∀ a, SaveArea p a → k.region a = .object p)
    (ha : k.region a = r) (hr : r ≠ .object p) : ¬SaveArea p a := fun h =>
  hr (ha.symm.trans (hp a h))

theorem Booted.ok (h : k.Booted image) : k.OK image :=
  ⟨h.save, h.aligned, h.object, h.alone _, fun p t hp => by rw [h.alone] at hp; cases hp⟩

theorem saveArea_reg (p : Word) (r : Reg) : SaveArea p (p + offset r) := Or.inl ⟨r, rfl⟩

theorem saveArea_pc (p : Word) : SaveArea p (p + pcOffset) := Or.inr rfl

/-- What is held depends on the words of the thread and on its return
address. -/
theorem Holds.congr {mem mem' : Word → Word} {p : Word} {t : Context} (h : Holds mem p t)
    (harea : ∀ a, SaveArea p a → mem' a = mem a) (hret : mem' (t.reg .esp) = mem (t.reg .esp)) :
    Holds mem' p t :=
  ⟨fun r => (harea _ (saveArea_reg p r)).trans (h.regs r), (harea _ (saveArea_pc p)).trans h.pc,
    hret.trans h.onStack⟩

/-- A thread whose words and their use are as before is still suspended. -/
theorem Suspended.congr {p : Word} {t : Context} (h : Suspended k p t)
    (hmem : ∀ a, k.region a = .object p ∨ k.region a = .stack p → k'.cpu.mem a = k.cpu.mem a)
    (hregion : ∀ a, k.region a = .object p ∨ k.region a = .stack p →
      k'.region a = k.region a) : Suspended k' p t where
  holds := h.holds.congr (fun a ha => hmem a (Or.inl (h.object a ha))) (hmem _ (Or.inr h.ret))
  aligned := h.aligned
  stackAligned := h.stackAligned
  object := fun a ha => (hregion a (Or.inl (h.object a ha))).trans (h.object a ha)
  ret := (hregion _ (Or.inr h.ret)).trans h.ret
  first := (hregion _ (Or.inr h.first)).trans h.first

/-- **What one call of `SWITCH` does.** -/
theorem switch_step (hk : k.OK image) {q : Word} (hok : k.Allowed image (.switch q)) :
    ∃ t c', k.suspended q = some t ∧ q ≠ k.current
      ∧ k.step image (.switch q) = some (k.afterSwitch q c') ∧ Resumed c' t
      ∧ c'.mem = restored (saved k.cpu image.eaxSave k.current) image.eaxSave t := by
  obtain ⟨heip, hesp, hret, hfirst, hsecond, harg, harg', hq⟩ := hok
  obtain ⟨t, ht⟩ := Option.ne_none_iff_exists'.mp hq
  have hs := hk.suspended q t ht
  have hqp : q ≠ k.current := by
    rintro rfl
    rw [hk.running] at ht
    cases ht
  have hp : Apart k.cpu image.eaxSave k.current :=
    ⟨hesp, hk.aligned, image.saveAligned, harg, not_saveArea hk.object hk.save (by simp),
      ⟨not_saveArea hk.object hret (by simp), apart hret hk.save (by simp)⟩,
      apart hfirst hk.save (by simp)⟩
  have hqs : ∀ a, SaveArea q a → saved k.cpu image.eaxSave k.current a = k.cpu.mem a := by
    intro a ha
    have hobj := hs.object a ha
    exact saved_other (not_saveArea hk.object hobj (by simpa using hqp))
      (apart hobj hk.save (by simp))
  have hqret : saved k.cpu image.eaxSave k.current (t.reg .esp) = k.cpu.mem (t.reg .esp) :=
    saved_other (not_saveArea hk.object hs.ret (by simp)) (apart hs.ret hk.save (by simp))
  have hready : Ready (saved k.cpu image.eaxSave k.current) image.eaxSave q t :=
    ⟨hs.holds.congr hqs hqret, hs.aligned, hs.stackAligned,
      not_saveArea hs.object hk.save (by simp), apart hs.ret hk.save (by simp),
      apart hs.first hk.save (by simp)⟩
  obtain ⟨c', hrun, hres, hmem⟩ := switch_run image.switchPlaced heip hp harg'
    ⟨not_saveArea hk.object hsecond (by simp), apart hsecond hk.save (by simp)⟩ hready
  exact ⟨t, c', ht, hqp, by rw [Kernel.step, hrun, Option.map_some], hres, hmem⟩

/-- The words that a call of `SWITCH` leaves alone. -/
theorem switch_other {c : Cpu} {eaxSave p a : Word} {t : Context} (hp : ¬SaveArea p a)
    (hsave : a ≠ eaxSave) (hfirst : a ≠ t.reg .esp + 4) :
    restored (saved c eaxSave p) eaxSave t a = c.mem a := by
  rw [restored, Function.update_of_ne hfirst, Function.update_of_ne hsave, saved_other hp hsave]

theorem switch_ok (hk : k.OK image) {q : Word} (hok : k.Allowed image (.switch q))
    (hs : k.step image (.switch q) = some k') : k'.OK image := by
  obtain ⟨t, c', ht, hqp, hstep, -, hmem⟩ := switch_step hk hok
  obtain rfl := Option.some.inj (hs.symm.trans hstep)
  obtain ⟨-, hesp, hret, hfirst, -, -, -, -⟩ := hok
  have hq := hk.suspended q t ht
  refine ⟨hk.save, hq.aligned, hq.object, Function.update_self .., fun u t' hu => ?_⟩
  have huq : u ≠ q := by
    rintro rfl
    simp [Kernel.afterSwitch] at hu
  simp only [Kernel.afterSwitch, Function.update_of_ne huq] at hu
  -- neither `_eax_save` nor the word on the stack of `q` is of another thread
  have hrest : ∀ {a r}, k.region a = r → r ≠ .eaxSave → r ≠ .stack q →
      c'.mem a = saved k.cpu image.eaxSave k.current a := fun ha hsave hstack => by
    rw [hmem, restored, Function.update_of_ne (apart ha hq.first hstack),
      Function.update_of_ne (apart ha hk.save hsave)]
  by_cases hup : u = k.current
  · subst hup
    rw [Function.update_self] at hu
    obtain rfl := Option.some.inj hu
    have harea : ∀ a, SaveArea k.current a → c'.mem a = saved k.cpu image.eaxSave k.current a :=
      fun a ha => hrest (hk.object a ha) (by simp) (by simp)
    refine ⟨⟨fun r => ?_, ?_, ?_⟩, hk.aligned, hesp, hk.object, hret, hfirst⟩
    · exact (harea _ (saveArea_reg _ r)).trans (saved_reg r)
    · exact (harea _ (saveArea_pc _)).trans saved_pc
    · exact (hrest hret (by simp) (by simpa using Ne.symm hqp)).trans
        (saved_other (not_saveArea hk.object hret (by simp)) (apart hret hk.save (by simp)))
  · rw [Function.update_of_ne hup] at hu
    refine (hk.suspended u t' hu).congr (fun a ha => ?_) fun _ _ => rfl
    rcases ha with ha | ha
    · exact (hrest ha (by simp) (by simp)).trans
        (saved_other (not_saveArea hk.object ha (by simpa using hup)) (apart ha hk.save (by simp)))
    · exact (hrest ha (by simp) (by simpa using huq)).trans
        (saved_other (not_saveArea hk.object ha (by simp)) (apart ha hk.save (by simp)))

/-! ## The other events -/

theorem InObject.of_saveArea {p a : Word} (h : SaveArea p a) : InObject p a := by
  rw [InObject, machineStateSize]
  rcases h with ⟨r, rfl⟩ | rfl
  · rw [BitVec.add_comm, BitVec.add_sub_cancel]
    cases r <;> decide
  · rw [BitVec.add_comm, BitVec.add_sub_cancel]
    decide

theorem inStack_self (stack : Word) : InStack stack stack := by
  rw [InStack, BitVec.sub_self]
  decide

theorem inStack_top (stack : Word) :
    InStack stack (stackTop stack) ∧ InStack stack (stackTop stack + 4)
      ∧ stackTop stack ≠ stack := by
  simp only [InStack, stackTop, stackSize]
  bv_omega

theorem aligned_stackTop {stack : Word} (h : Aligned stack) : Aligned (stackTop stack) :=
  (h.add (by decide)).sub (by decide)

section Fork

variable {mem : Word → Word} {p stack func arg : Word}

theorem stackAllocate_other {a : Word} (hobj : ¬InObject p a) (hstack : ¬InStack stack a) :
    stackAllocate image (construct mem p) p stack func arg a = mem a := by
  have hr : ∀ r, a ≠ p + offset r := by
    rintro r rfl
    exact hobj (.of_saveArea (saveArea_reg p r))
  have hpc : a ≠ p + pcOffset := by
    rintro rfl
    exact hobj (.of_saveArea (saveArea_pc p))
  have hbottom : a ≠ stack := by
    rintro rfl
    exact hstack (inStack_self a)
  have htop : a ≠ stackTop stack := by
    rintro rfl
    exact hstack (inStack_top stack).1
  simp only [stackAllocate, Function.update_of_ne (hr _), Function.update_of_ne hpc,
    Function.update_of_ne hbottom, Function.update_of_ne htop, construct, if_neg hobj]

/-- **A new thread** is left as if it had called `SWITCH` from the beginning
of `ThreadRoot`. -/
theorem stackAllocate_holds (hapart : ∀ a, InObject p a → ¬InStack stack a) :
    Holds (stackAllocate image (construct mem p) p stack func arg) p
      (initialContext image stack func arg) := by
  have harea : ∀ r, InObject p (p + offset r) := fun r => .of_saveArea (saveArea_reg p r)
  have hpcIn : InObject p (p + pcOffset) := .of_saveArea (saveArea_pc p)
  have hne : ∀ a, InObject p a → a ≠ stack ∧ a ≠ stackTop stack := fun a ha =>
    ⟨fun he => hapart a ha (he ▸ inStack_self stack),
      fun he => hapart a ha (he ▸ (inStack_top stack).1)⟩
  refine ⟨fun r => ?_, ?_, ?_⟩
  · have hr := hne _ (harea r)
    have hz : construct mem p (p + offset r) = 0 := if_pos (harea r)
    cases r <;> simp_all [stackAllocate, Function.update, offset, pcOffset, initialContext]
  · simp [stackAllocate, Function.update, offset, pcOffset, initialContext]
  · have hr : ∀ r, stackTop stack ≠ p + offset r := fun r he => (hne _ (harea r)).2 he.symm
    have hpc : stackTop stack ≠ p + pcOffset := fun he => (hne _ hpcIn).2 he.symm
    simp only [stackAllocate, initialContext, Function.update_of_ne (hr _),
      Function.update_of_ne hpc, Function.update_of_ne (inStack_top stack).2.2,
      Function.update_self]

end Fork

theorem compute_ok (hk : k.OK image) {cpu : Cpu} (hok : k.Allowed image (.compute cpu)) :
    Kernel.OK image { k with cpu := cpu } := by
  refine ⟨hk.save, hk.aligned, hk.object, hk.running, fun p t hp => ?_⟩
  have hs := hk.suspended p t hp
  obtain ⟨harea, hret⟩ := hok p t hp
  exact ⟨hs.holds.congr harea hret, hs.aligned, hs.stackAligned, hs.object, hs.ret, hs.first⟩

theorem fork_ok (hk : k.OK image) {p stack func arg : Word}
    (hok : k.Allowed image (.fork p stack func arg)) :
    (k.afterFork image p stack func arg).OK image := by
  obtain ⟨hp, hstack, hcur, -, hunused, hapart⟩ := hok
  have hused : ∀ a, k.region a ≠ .other → ¬InObject p a ∧ ¬InStack stack a := fun a ha =>
    ⟨fun h => ha (hunused a (Or.inl h)), fun h => ha (hunused a (Or.inr h))⟩
  have hregion : ∀ a, k.region a ≠ .other →
      (k.afterFork image p stack func arg).region a = k.region a := fun a ha => by
    simp only [Kernel.afterFork, if_neg (hused a ha).1, if_neg (hused a ha).2]
  refine ⟨?_, hk.aligned, fun a ha => ?_, ?_, fun u t hu => ?_⟩
  · exact (hregion _ (by rw [hk.save]; simp)).trans hk.save
  · exact (hregion a (by rw [hk.object a ha]; simp)).trans (hk.object a ha)
  · exact (Function.update_of_ne (Ne.symm hcur) ..).trans hk.running
  · by_cases hup : u = p
    · subst hup
      obtain rfl : initialContext image stack func arg = t := by
        simpa [Kernel.afterFork] using hu
      have hstackOf : ∀ a, InStack stack a →
          (k.afterFork image u stack func arg).region a = .stack u := fun a ha => by
        simp only [Kernel.afterFork, if_neg fun h => hapart a h ha, if_pos ha]
      exact ⟨stackAllocate_holds hapart, hp, aligned_stackTop hstack,
        fun a ha => if_pos (.of_saveArea ha), hstackOf _ (inStack_top stack).1,
        hstackOf _ (inStack_top stack).2.1⟩
    · have hu' : k.suspended u = some t := by
        simpa [Kernel.afterFork, Function.update_of_ne hup] using hu
      have hne : ∀ a, k.region a = .object u ∨ k.region a = .stack u → k.region a ≠ .other := by
        rintro a (ha | ha) <;> rw [ha] <;> simp
      exact (hk.suspended u t hu').congr
        (fun a ha => stackAllocate_other (hused a (hne a ha)).1 (hused a (hne a ha)).2)
        (fun a ha => hregion a (hne a ha))

theorem destroy_ok (hk : k.OK image) {p : Word} (hcur : p ≠ k.current) :
    (k.afterDestroy p).OK image := by
  have hregion : ∀ a, k.region a ≠ .object p → k.region a ≠ .stack p →
      (k.afterDestroy p).region a = k.region a := fun a ho hs => if_neg (not_or.mpr ⟨ho, hs⟩)
  refine ⟨?_, hk.aligned, fun a ha => ?_, ?_, fun u t hu => ?_⟩
  · exact (hregion _ (by rw [hk.save]; simp) (by rw [hk.save]; simp)).trans hk.save
  · have ho := hk.object a ha
    exact (hregion a (by rw [ho]; simpa using hcur.symm) (by rw [ho]; simp)).trans ho
  · exact (Function.update_of_ne (Ne.symm hcur) ..).trans hk.running
  · have hup : u ≠ p := by
      rintro rfl
      simp [Kernel.afterDestroy] at hu
    simp only [Kernel.afterDestroy, Function.update_of_ne hup] at hu
    refine (hk.suspended u t hu).congr (fun a _ => rfl) fun a ha => hregion a ?_ ?_
    · rcases ha with ha | ha <;> rw [ha] <;> simp [hup]
    · rcases ha with ha | ha <;> rw [ha] <;> simp [hup]

/-- **One event** keeps the invariant. -/
theorem step_ok (hk : k.OK image) {e : Event} (hok : k.Allowed image e)
    (hs : k.step image e = some k') : k'.OK image := by
  cases e with
  | compute cpu =>
      obtain rfl := Option.some.inj hs
      exact compute_ok hk hok
  | fork p stack func arg =>
      obtain rfl := Option.some.inj hs
      exact fork_ok hk hok
  | destroy p =>
      obtain rfl := Option.some.inj hs
      exact destroy_ok hk hok
  | switch q => exact switch_ok hk hok hs

end Steps

/-! ## Runs -/

/-- The event does not end the wait of `p`. -/
def Event.Spares (p : Word) : Event → Prop
  | .compute _ => True
  | .fork _ _ _ _ => True
  | .destroy q => q ≠ p
  | .switch q => q ≠ p

/-- A run of allowed events. -/
abbrev Runs (image : Image) : Kernel → Kernel → Prop :=
  Reach (Kernel.step image) (Kernel.Allowed image)

/-- A run in which `p` waits. -/
abbrev RunsWithout (image : Image) (p : Word) : Kernel → Kernel → Prop :=
  Reach (Kernel.step image) fun k e => k.Allowed image e ∧ e.Spares p

section Runs

variable {image : Image} {k k' : Kernel}

theorem Runs.ok (hk : k.OK image) (h : Runs image k k') : k'.OK image :=
  h.invariant hk fun _ _ _ _ hi hok hs => step_ok hi hok hs

/-- What a suspended thread waits with is not changed while it waits. -/
theorem step_suspended (hk : k.OK image) {p : Word} {t : Context} (hp : k.suspended p = some t)
    {e : Event} (hok : k.Allowed image e) (he : e.Spares p) (hs : k.step image e = some k') :
    k'.suspended p = some t := by
  cases e with
  | compute cpu =>
      obtain rfl := Option.some.inj hs
      exact hp
  | fork q stack func arg =>
      obtain rfl := Option.some.inj hs
      have hqp : p ≠ q := by
        rintro rfl
        rw [hok.2.2.2.1] at hp
        cases hp
      exact (Function.update_of_ne hqp ..).trans hp
  | destroy q =>
      obtain rfl := Option.some.inj hs
      exact (Function.update_of_ne (Ne.symm he) ..).trans hp
  | switch q =>
      obtain ⟨c, -, rfl⟩ := Option.map_eq_some_iff.mp hs
      have hcur : p ≠ k.current := by
        rintro rfl
        rw [hk.running] at hp
        cases hp
      exact (Function.update_of_ne (Ne.symm he) ..).trans
        ((Function.update_of_ne hcur ..).trans hp)

theorem RunsWithout.suspended (hk : k.OK image) {p : Word} {t : Context}
    (hp : k.suspended p = some t) (h : RunsWithout image p k k') :
    k'.OK image ∧ k'.suspended p = some t :=
  h.invariant (I := fun k => k.OK image ∧ k.suspended p = some t) ⟨hk, hp⟩
    fun _ _ _ _ hi hok hs => ⟨step_ok hi.1 hok.1 hs, step_suspended hi.1 hi.2 hok.1 hok.2 hs⟩

/-- **Switching to a thread that has waited** goes on with what it waits
with. -/
theorem resume (hk : k.OK image) {p : Word} {t : Context} (hp : k.suspended p = some t)
    (h : RunsWithout image p k k') (hok : k'.Allowed image (.switch p)) :
    ∃ c, k'.step image (.switch p) = some (k'.afterSwitch p c) ∧ Resumed c t
      ∧ ∀ a, ¬SaveArea k'.current a → a ≠ image.eaxSave → a ≠ t.reg .esp + 4 →
        c.mem a = k'.cpu.mem a := by
  obtain ⟨hk', hp'⟩ := RunsWithout.suspended hk hp h
  obtain ⟨t', c, ht', -, hstep, hres, hmem⟩ := switch_step hk' hok
  obtain rfl := Option.some.inj (ht'.symm.trans hp')
  refine ⟨c, hstep, hres, fun a harea hsave hfirst => ?_⟩
  rw [hmem, switch_other harea hsave hfirst]

/-! A program in memory, a first thread with a second one that it creates, and
its call of `SWITCH`. -/

/-- A text that lies at `base`, one word for each instruction. -/
def textAt (base : Word) (text : List Instr) : Code := fun a =>
  text[(a - base).toNat]?.map fun i => (i, a + 1)

theorem textAt_eq {base : Word} {text : List Instr} {n : Nat} {i : Instr}
    (hlen : text.length ≤ 100) (hi : text[n]? = some i) :
    textAt base text (base + BitVec.ofNat 32 n) = some (i, base + BitVec.ofNat 32 (n + 1)) := by
  obtain ⟨hn, -⟩ := List.getElem?_eq_some_iff.mp hi
  have hoff : (base + BitVec.ofNat 32 n - base).toNat = n := by bv_omega
  have hnext : base + BitVec.ofNat 32 n + 1 = base + BitVec.ofNat 32 (n + 1) := by bv_omega
  rw [textAt, hoff, hi, Option.map_some, hnext]

def twoTexts : Code := fun a =>
  if a < 0x2000 then textAt 0x1000 (switchText 0x500) a else textAt 0x2000 threadRootText a

def twoImage : Image where
  code := twoTexts
  switch n := 0x1000 + BitVec.ofNat 32 n
  root n := 0x2000 + BitVec.ofNat 32 n
  eaxSave := 0x500
  threadBegin := 0x3000
  threadFinish := 0x3100
  switchPlaced := by
    intro n i hi
    obtain ⟨hn, -⟩ := List.getElem?_eq_some_iff.mp hi
    have hlen : (switchText 0x500).length = 27 := rfl
    rw [twoTexts, if_pos (by bv_omega)]
    exact textAt_eq (by omega) hi
  rootPlaced := by
    intro n i hi
    obtain ⟨hn, -⟩ := List.getElem?_eq_some_iff.mp hi
    have hlen : threadRootText.length = 9 := rfl
    rw [twoTexts, if_neg (by bv_omega)]
    exact textAt_eq (by omega) hi
  saveAligned := by decide

def firstThread : Word := 0x10000

def secondThread : Word := 0x11000

def bootKernel : Kernel where
  cpu := ⟨1, 2, 3, 4, 5, 6, 7, 0x21000, 0, fun _ => 0⟩
  current := firstThread
  suspended := fun _ => none
  region := fun a =>
    if a = 0x500 then .eaxSave
    else if InObject firstThread a then .object firstThread
    else if InStack 0x20000 a then .stack firstThread
    else .other

/-- The running thread calls `SWITCH(p, q)`. -/
def callSwitch (c : Cpu) (p q : Word) : Cpu :=
  { c with
    eip := 0x1000
    mem := Function.update (Function.update (Function.update c.mem c.esp 0x3500) (c.esp + 4) p)
      (c.esp + 8) q }

def forkedKernel : Kernel := bootKernel.afterFork twoImage secondThread 0x40000 0x3200 7

def callingKernel : Kernel :=
  { forkedKernel with cpu := callSwitch forkedKernel.cpu firstThread secondThread }

theorem bootKernel_booted : bootKernel.Booted twoImage where
  alone := fun _ => rfl
  aligned := by decide
  object := fun a ha => by
    have hin := InObject.of_saveArea ha
    have hne : a ≠ 0x500 := by
      rintro rfl
      exact absurd hin (by decide)
    exact (if_neg hne).trans (if_pos hin)
  save := rfl

theorem fork_allowed : bootKernel.Allowed twoImage (.fork secondThread 0x40000 0x3200 7) := by
  refine ⟨by decide, by decide, by decide, rfl, fun a ha => ?_, fun a ha hs => ?_⟩
  · have hfar : a ≠ 0x500 ∧ ¬InObject firstThread a ∧ ¬InStack 0x20000 a := by
      simp only [InObject, InStack, secondThread, firstThread, machineStateSize, stackSize] at ha ⊢
      bv_omega
    simp only [bootKernel, if_neg hfar.1, if_neg hfar.2.1, if_neg hfar.2.2]
  · simp only [InObject, InStack, secondThread, machineStateSize, stackSize] at ha hs
    bv_omega

/-- A call of `SWITCH` touches the stack of its thread only. -/
theorem callSwitch_allowed {p q : Word} (hk : k.OK image)
    (h0 : k.region k.cpu.esp = .stack k.current) (h4 : k.region (k.cpu.esp + 4) = .stack k.current)
    (h8 : k.region (k.cpu.esp + 8) = .stack k.current) :
    k.Allowed image (.compute (callSwitch k.cpu p q)) := by
  intro u t hu
  have hs := hk.suspended u t hu
  have hcur : u ≠ k.current := by
    rintro rfl
    rw [hk.running] at hu
    cases hu
  have hmem : ∀ {a r}, k.region a = r → r ≠ .stack k.current →
      (callSwitch k.cpu p q).mem a = k.cpu.mem a := fun ha hr => by
    simp only [callSwitch, Function.update_of_ne (apart ha h0 hr),
      Function.update_of_ne (apart ha h4 hr), Function.update_of_ne (apart ha h8 hr)]
  exact ⟨fun a ha => hmem (hs.object a ha) (by simp), hmem hs.ret (by simpa using hcur)⟩

theorem callSwitch_mem (c : Cpu) (p q : Word) :
    (callSwitch c p q).mem (c.esp + 4) = p ∧ (callSwitch c p q).mem (c.esp + 8) = q := by
  refine ⟨(Function.update_of_ne ?_ ..).trans (Function.update_self ..), Function.update_self ..⟩
  bv_omega

theorem calling_waits : RunsWithout twoImage secondThread forkedKernel callingKernel :=
  .single ⟨.compute (callSwitch forkedKernel.cpu firstThread secondThread),
    ⟨callSwitch_allowed (fork_ok (Booted.ok bootKernel_booted) fork_allowed) (by decide)
      (by decide) (by decide), trivial⟩, rfl⟩

theorem calling_allowed : callingKernel.Allowed twoImage (.switch secondThread) :=
  ⟨rfl, by decide, by decide, by decide, by decide, (callSwitch_mem _ _ _).1,
    (callSwitch_mem _ _ _).2, by decide⟩

/-- **The switch is transparent**: a thread calls `SWITCH`, others run, create
and destroy threads and switch among themselves, and when it is switched to
again the registers are those of its call, the call returns, and the switch
has written nothing but what it saves of the thread it leaves, `_eax_save` and
the place of its own first argument. -/
theorem switch_transparent {k₀ k₁ k₂ k₃ : Kernel} {q : Word} (hboot : k₀.Booted image)
    (hbefore : Runs image k₀ k₁) (hcall : k₁.Allowed image (.switch q))
    (hleft : k₁.step image (.switch q) = some k₂)
    (hwaits : RunsWithout image k₁.current k₂ k₃)
    (hback : k₃.Allowed image (.switch k₁.current)) :
    ∃ k₄, k₃.step image (.switch k₁.current) = some k₄ ∧ k₄.current = k₁.current
      ∧ Resumed k₄.cpu (contextOf k₁.cpu)
      ∧ ∀ a, ¬SaveArea k₃.current a → a ≠ image.eaxSave → a ≠ k₁.cpu.esp + 4 →
        k₄.cpu.mem a = k₃.cpu.mem a := by
  have hk₁ : k₁.OK image := Runs.ok (Booted.ok hboot) hbefore
  obtain ⟨t, c, -, hqp, hstep, -, -⟩ := switch_step hk₁ hcall
  obtain rfl := Option.some.inj (hleft.symm.trans hstep)
  have hsusp : (k₁.afterSwitch q c).suspended k₁.current = some (contextOf k₁.cpu) := by
    simp only [Kernel.afterSwitch, Function.update_of_ne (Ne.symm hqp), Function.update_self]
  obtain ⟨c', hs, hres, hmem⟩ := resume (step_ok hk₁ hcall hstep) hsusp hwaits hback
  exact ⟨k₃.afterSwitch k₁.current c', hs, rfl, hres, hmem⟩

theorem switch_transparent_two : ∃ k₂ k₃ k₄,
    callingKernel.step twoImage (.switch secondThread) = some k₂
      ∧ RunsWithout twoImage firstThread k₂ k₃
      ∧ k₃.step twoImage (.switch firstThread) = some k₄ ∧ k₄.current = firstThread
      ∧ Resumed k₄.cpu (contextOf callingKernel.cpu) := by
  have hruns : Runs twoImage bootKernel callingKernel :=
    .head ⟨.fork secondThread 0x40000 0x3200 7, fork_allowed, rfl⟩
      (calling_waits.mono fun _ _ h => h.1)
  have hk : callingKernel.OK twoImage := Runs.ok (Booted.ok bootKernel_booted) hruns
  obtain ⟨t, c, ht, -, hstep, hres, -⟩ := switch_step hk calling_allowed
  obtain rfl : initialContext twoImage 0x40000 0x3200 7 = t := Option.some.inj ht
  have hk₂ := step_ok hk calling_allowed hstep
  have hesp : c.esp = 0x47ff0 := hres.esp
  have h0 : callingKernel.region c.esp = .stack secondThread := by rw [hesp]; decide
  have h4 : callingKernel.region (c.esp + 4) = .stack secondThread := by rw [hesp]; decide
  have h8 : callingKernel.region (c.esp + 8) = .stack secondThread := by rw [hesp]; decide
  have hsusp : (callingKernel.afterSwitch secondThread c).suspended firstThread ≠ none := by
    simp only [Kernel.afterSwitch, Function.update_of_ne
      (show firstThread ≠ secondThread by decide)]
    exact fun h => absurd ((Function.update_self ..).symm.trans h) (Option.some_ne_none _)
  have hwaits : RunsWithout twoImage firstThread (callingKernel.afterSwitch secondThread c)
      { callingKernel.afterSwitch secondThread c with
        cpu := callSwitch c secondThread firstThread } :=
    .single ⟨.compute (callSwitch c secondThread firstThread),
      ⟨callSwitch_allowed hk₂ h0 h4 h8, trivial⟩, rfl⟩
  obtain ⟨k₄, hs, hcur, hres', -⟩ := switch_transparent bootKernel_booted hruns calling_allowed
    hstep hwaits ⟨rfl, show Aligned c.esp by rw [hesp]; decide, h0, h4, h8,
      (callSwitch_mem ..).1, (callSwitch_mem ..).2, hsusp⟩
  exact ⟨_, _, k₄, hstep, hwaits, hs, hcur, hres'⟩

end Runs

/-! ## `ThreadRoot` -/

/-- A call that was at its first instruction in `c` has returned in `c'`, as
the convention for calls has it. -/
structure Returned (c c' : Cpu) : Prop where
  eip : c'.eip = c.mem c.esp
  esp : c'.esp = c.esp + 4
  ebx : c'.ebx = c.ebx
  esi : c'.esi = c.esi
  edi : c'.edi = c.edi
  ebp : c'.ebp = c.ebp

section Root

variable {image : Image}

/-- `ThreadRoot` up to its first call. -/
theorem root_begin {c : Cpu} {stack func arg : Word} (halign : Aligned (stackTop stack))
    (hc : Resumed c (initialContext image stack func arg)) :
    ∃ c', steps image.code 4 c = some c' ∧ c'.eip = image.threadBegin
      ∧ c'.esp = stackTop stack - 8 ∧ c'.esi = func ∧ c'.edi = image.threadFinish
      ∧ c'.mem (stackTop stack - 8) = image.root 4 ∧ c'.mem (stackTop stack - 4) = arg := by
  have hesp : c.esp = stackTop stack + 4 := hc.esp
  have hecx : c.ecx = image.threadBegin := hc.regs .ecx (by decide)
  have hedx : c.edx = arg := hc.regs .edx (by decide)
  have hesi : c.esi = func := hc.regs .esi (by decide)
  have hedi : c.edi = image.threadFinish := hc.regs .edi (by decide)
  have htext : Placed image.code image.root
      (([.push .ebp, .move .esp .ebp, .push .edx] ++ [.call .ecx])
        ++ [.call .esi, .call .edi, .move .ebp .esp, .pop .ebp, .ret]) := image.rootPlaced
  have hrun := steps_text _ _ (by simp [Instr.Straight]) htext.left hc.eip
  generalize stackTop stack = top at halign hesp ⊢
  have h0 : top + 4 - 4 = top := BitVec.add_sub_cancel ..
  have h44 : top - 4 - 4 = top - 8 := by bv_omega
  have hne : top - 4 ≠ top - 8 := by bv_omega
  have h4 : Aligned (top - 4) := halign.sub (by decide)
  have h8 : Aligned (top - 8) := halign.sub (by decide)
  refine ⟨{ c with
    ebp := top
    esp := top - 8
    eip := image.threadBegin
    mem := Function.update (Function.update (Function.update c.mem top c.ebp) (top - 4) arg)
      (top - 8) (image.root 4) }, hrun.trans ?_, rfl, rfl, hesi, hedi, Function.update_self .., ?_⟩
  · simp only [List.cons_append, List.nil_append, runText, X86.exec, Cpu.get, Cpu.set, hesp, h0,
      h44, hecx, hedx, Cpu.write_eq, halign, h4, h8, Option.map_some, Option.bind_some]
  · exact (Function.update_of_ne hne ..).trans (Function.update_self ..)

theorem root_call (image : Image) {c : Cpu} {n : Nat} {r : Reg}
    (hn : threadRootText[n]? = some (.call r))
    (heip : c.eip = image.root n) (halign : Aligned (c.esp - 4)) :
    steps image.code 1 c
      = some { c with
          esp := c.esp - 4
          eip := c.get r
          mem := Function.update c.mem (c.esp - 4) (image.root (n + 1)) } := by
  simp only [steps, heip, image.rootPlaced n _ hn, Option.bind_some, X86.exec,
    Cpu.write_eq _ halign, Option.map_some]

/-- **A created thread** that is switched to for the first time calls
`ThreadBegin`, then its function with its argument, then `ThreadFinish`, all
on its own stack. The calls may switch to other threads and back; it is asked
that they return as the convention has it, and that `ThreadBegin`, which has
no argument, leaves the argument on the stack alone. -/
theorem forked_thread_calls {k₀ k₁ k₂ : Kernel} {p stack func arg : Word}
    (hboot : k₀.Booted image) (hbefore : Runs image k₀ k₁)
    (hfork : k₁.Allowed image (.fork p stack func arg))
    (hwaits : RunsWithout image p (k₁.afterFork image p stack func arg) k₂)
    (hswitch : k₂.Allowed image (.switch p)) :
    ∃ k₃ c₁, k₂.step image (.switch p) = some k₃ ∧ steps image.code 4 k₃.cpu = some c₁
      ∧ c₁.eip = image.threadBegin ∧ InStack stack c₁.esp
      ∧ ∀ c₂, Returned c₁ c₂ → c₂.mem (c₁.esp + 4) = c₁.mem (c₁.esp + 4) →
        ∃ c₃, steps image.code 1 c₂ = some c₃ ∧ c₃.eip = func ∧ InStack stack c₃.esp
          ∧ c₃.mem (c₃.esp + 4) = arg
          ∧ ∀ c₄, Returned c₃ c₄ →
            ∃ c₅, steps image.code 1 c₄ = some c₅ ∧ c₅.eip = image.threadFinish
              ∧ InStack stack c₅.esp := by
  have hk₁ : k₁.OK image := Runs.ok (Booted.ok hboot) hbefore
  have hsusp : (k₁.afterFork image p stack func arg).suspended p
      = some (initialContext image stack func arg) := Function.update_self ..
  obtain ⟨c, hstep, hres, -⟩ := resume (fork_ok hk₁ hfork) hsusp hwaits hswitch
  have htop : Aligned (stackTop stack) := aligned_stackTop hfork.2.1
  obtain ⟨c₁, hrun₁, heip₁, hesp₁, hesi₁, hedi₁, hret₁, harg₁⟩ := root_begin htop hres
  have h8 : Aligned (stackTop stack - 8) := htop.sub (by decide)
  have hin : InStack stack (stackTop stack - 8) := by
    simp only [InStack, stackTop, stackSize]
    bv_omega
  generalize stackTop stack = top at hesp₁ hret₁ harg₁ h8 hin
  have h84 : top - 8 + 4 = top - 4 := by bv_omega
  have h44 : top - 4 - 4 = top - 8 := by bv_omega
  have hne : top - 4 ≠ top - 8 := by bv_omega
  refine ⟨_, c₁, hstep, hrun₁, heip₁, hesp₁ ▸ hin, fun c₂ h₂ harg₂ => ?_⟩
  have hesp₂ : c₂.esp = top - 4 := by rw [h₂.esp, hesp₁, h84]
  have hrun₃ := root_call image (c := c₂) (n := 4) (r := .esi) rfl
    (by rw [h₂.eip, hesp₁, hret₁]) (by rwa [hesp₂, h44])
  rw [hesp₂, h44] at hrun₃
  refine ⟨_, hrun₃, h₂.esi.trans hesi₁, hin, ?_, fun c₄ h₄ => ?_⟩
  · show Function.update c₂.mem (top - 8) _ (top - 8 + 4) = arg
    rw [h84, Function.update_of_ne hne, ← harg₁, ← h84, ← hesp₁, harg₂]
  · have hesp₄ : c₄.esp = top - 4 := h₄.esp.trans h84
    have hrun₅ := root_call image (c := c₄) (n := 5) (r := .edi) rfl
      (by rw [h₄.eip]; exact Function.update_self ..) (by rwa [hesp₄, h44])
    rw [hesp₄, h44] at hrun₅
    exact ⟨_, hrun₅, h₄.edi.trans (h₂.edi.trans hedi₁), hin⟩

theorem forked_thread_calls_two : ∃ k₃ c₁,
    callingKernel.step twoImage (.switch secondThread) = some k₃
      ∧ steps twoImage.code 4 k₃.cpu = some c₁ ∧ c₁.eip = 0x3000
      ∧ ∀ c₂, Returned c₁ c₂ → c₂.mem (c₁.esp + 4) = c₁.mem (c₁.esp + 4) →
        ∃ c₃, steps twoImage.code 1 c₂ = some c₃ ∧ c₃.eip = 0x3200 ∧ c₃.mem (c₃.esp + 4) = 7 := by
  obtain ⟨k₃, c₁, hs, hrun, heip, -, hrest⟩ := forked_thread_calls bootKernel_booted .refl
    fork_allowed calling_waits calling_allowed
  refine ⟨k₃, c₁, hs, hrun, heip, fun c₂ h₂ harg => ?_⟩
  obtain ⟨c₃, hrun₃, heip₃, -, harg₃, -⟩ := hrest c₂ h₂ harg
  exact ⟨c₃, hrun₃, heip₃, harg₃⟩

end Root

end ThreadSwitch

end Nachos
