import Mathlib.Logic.Function.Basic

/-!
# A few instructions of the 386

The part of the processor that hand-written assembler for procedure calls and
context switches needs: the eight general registers, the instruction pointer,
and moves, pushes, pops, calls and returns on words of four bytes. The memory
is its words, by the address of the first byte; an access at an address that
is not a multiple of four is outside the model (`none`).

The length of an instruction does not matter here: `Code` gives the
instruction at an address together with the address of the next one, and
`Placed` says that a text lies there one instruction after the other.
`steps_text` is the rule to execute such a text by looking at the text alone.
-/

namespace X86

abbrev Word := BitVec 32

inductive Reg where
  | eax | ebx | ecx | edx | esi | edi | ebp | esp
deriving DecidableEq

structure Cpu where
  eax : Word
  ebx : Word
  ecx : Word
  edx : Word
  esi : Word
  edi : Word
  ebp : Word
  esp : Word
  eip : Word
  mem : Word → Word

def Aligned (a : Word) : Prop := a.toNat % 4 = 0

instance (a : Word) : Decidable (Aligned a) := inferInstanceAs (Decidable (_ = _))

theorem Aligned.add {a k : Word} (ha : Aligned a) (hk : Aligned k) : Aligned (a + k) := by
  rw [Aligned] at ha hk ⊢
  rw [BitVec.toNat_add]
  omega

theorem Aligned.sub {a k : Word} (ha : Aligned a) (hk : Aligned k) : Aligned (a - k) := by
  rw [Aligned] at ha hk ⊢
  rw [BitVec.toNat_sub]
  omega

namespace Cpu

def get (c : Cpu) : Reg → Word
  | .eax => c.eax
  | .ebx => c.ebx
  | .ecx => c.ecx
  | .edx => c.edx
  | .esi => c.esi
  | .edi => c.edi
  | .ebp => c.ebp
  | .esp => c.esp

def set (c : Cpu) (v : Word) : Reg → Cpu
  | .eax => { c with eax := v }
  | .ebx => { c with ebx := v }
  | .ecx => { c with ecx := v }
  | .edx => { c with edx := v }
  | .esi => { c with esi := v }
  | .edi => { c with edi := v }
  | .ebp => { c with ebp := v }
  | .esp => { c with esp := v }

/-- The word at an address. -/
def read (c : Cpu) (a : Word) : Option Word := if Aligned a then some (c.mem a) else none

def write (c : Cpu) (a v : Word) : Option Cpu :=
  if Aligned a then some { c with mem := Function.update c.mem a v } else none

theorem read_eq (c : Cpu) {a : Word} (ha : Aligned a) : c.read a = some (c.mem a) := if_pos ha

theorem write_eq (c : Cpu) {a : Word} (ha : Aligned a) (v : Word) :
    c.write a v = some { c with mem := Function.update c.mem a v } := if_pos ha

end Cpu

/-! ## Instructions -/

/-- `disp(base)`, or `disp` alone. -/
structure Place where
  base : Option Reg
  disp : Word

def Place.address (p : Place) (c : Cpu) : Word :=
  match p.base with
  | some r => c.get r + p.disp
  | none => p.disp

inductive Instr where
  /-- `movl place,dst` -/
  | load (src : Place) (dst : Reg)
  /-- `movl src,place` -/
  | store (src : Reg) (dst : Place)
  /-- `movl src,dst` -/
  | move (src dst : Reg)
  | push (src : Reg)
  | pop (dst : Reg)
  /-- `call *target` -/
  | call (target : Reg)
  | ret

/-- One instruction; `next` is the address of the one behind it. -/
def exec (i : Instr) (next : Word) (c : Cpu) : Option Cpu :=
  match i with
  | .load src dst => (c.read (src.address c)).map fun v => { c.set v dst with eip := next }
  | .store src dst => (c.write (dst.address c) (c.get src)).map fun c => { c with eip := next }
  | .move src dst => some { c.set (c.get src) dst with eip := next }
  | .push src =>
      (c.write (c.esp - 4) (c.get src)).map fun c' => { c' with esp := c.esp - 4, eip := next }
  | .pop dst =>
      (c.read c.esp).map fun v =>
        { ({ c with esp := c.esp + 4 } : Cpu).set v dst with eip := next }
  | .call target =>
      (c.write (c.esp - 4) next).map fun c' =>
        { c' with esp := c.esp - 4, eip := c.get target }
  | .ret => (c.read c.esp).map fun v => { c with esp := c.esp + 4, eip := v }

/-- Control goes on with the instruction behind it. -/
def Instr.Straight : Instr → Prop
  | .call _ => False
  | .ret => False
  | _ => True

theorem eip_of_straight {i : Instr} (hi : i.Straight) {next : Word} {c c' : Cpu}
    (h : exec i next c = some c') : c'.eip = next := by
  cases i with
  | call target => exact hi.elim
  | ret => exact hi.elim
  | move src dst =>
      obtain rfl := Option.some.inj h
      rfl
  | load src dst =>
      obtain ⟨v, -, rfl⟩ := Option.map_eq_some_iff.mp h
      rfl
  | store src dst =>
      obtain ⟨v, -, rfl⟩ := Option.map_eq_some_iff.mp h
      rfl
  | push src =>
      obtain ⟨v, -, rfl⟩ := Option.map_eq_some_iff.mp h
      rfl
  | pop dst =>
      obtain ⟨v, -, rfl⟩ := Option.map_eq_some_iff.mp h
      rfl

/-! ## Programs -/

/-- The instruction at an address and the address of the next. -/
abbrev Code := Word → Option (Instr × Word)

/-- The number of steps that are left, and the state after them. -/
def steps (code : Code) : Nat → Cpu → Option Cpu
  | 0, c => some c
  | n + 1, c => (code c.eip).bind fun i => (exec i.1 i.2 c).bind (steps code n)

/-- The instructions of a text lie at `place 0`, `place 1`, and so on. -/
def Placed (code : Code) (place : Nat → Word) (text : List Instr) : Prop :=
  ∀ k i, text[k]? = some i → code (place k) = some (i, place (k + 1))

/-- The instructions of a text, each with the address of the one behind it. -/
def runText (place : Nat → Word) : List Instr → Cpu → Option Cpu
  | [], c => some c
  | i :: text, c => (exec i (place 1) c).bind (runText (fun k => place (k + 1)) text)

theorem runText_append (place : Nat → Word) (text text' : List Instr) (c : Cpu) :
    runText place (text ++ text') c
      = (runText place text c).bind (runText (fun k => place (text.length + k)) text') := by
  induction text generalizing place c with
  | nil =>
      rw [List.nil_append, runText, Option.bind_some, List.length_nil]
      simp only [Nat.zero_add]
  | cons i text ih =>
      rw [List.cons_append, runText, runText, Option.bind_assoc]
      refine Option.bind_congr fun c' _ => ?_
      rw [ih, List.length_cons]
      simp only [Nat.add_right_comm]

theorem Placed.tail {code : Code} {place : Nat → Word} {i : Instr} {text : List Instr}
    (h : Placed code place (i :: text)) : Placed code (fun k => place (k + 1)) text :=
  fun k j hj => h (k + 1) j (by rw [List.getElem?_cons_succ]; exact hj)

theorem Placed.left {code : Code} {place : Nat → Word} {text text' : List Instr}
    (h : Placed code place (text ++ text')) : Placed code place text := by
  intro k i hi
  obtain ⟨hlt, -⟩ := List.getElem?_eq_some_iff.mp hi
  exact h k i (by rw [List.getElem?_append_left hlt]; exact hi)

/-- **Execution of a text** whose instructions, but for the last, go on with
the next. -/
theorem steps_text {code : Code} {place : Nat → Word} (text : List Instr) (last : Instr)
    (hstraight : ∀ i ∈ text, i.Straight) (hp : Placed code place (text ++ [last])) {c : Cpu}
    (hc : c.eip = place 0) :
    steps code (text.length + 1) c = runText place (text ++ [last]) c := by
  induction text generalizing place c with
  | nil =>
      rw [List.length_nil, Nat.zero_add, steps, hc, hp 0 last rfl, Option.bind_some,
        List.nil_append, runText]
      rfl
  | cons i text ih =>
      rw [List.length_cons, steps, hc, hp 0 i rfl, Option.bind_some, List.cons_append, runText]
      refine Option.bind_congr fun c' hc' => ?_
      refine ih (fun j hj => hstraight j (List.mem_cons_of_mem i hj)) hp.tail ?_
      exact eip_of_straight (hstraight i List.mem_cons_self) hc'

end X86
