import Nachos.FileRoundTrip
import Nachos.VirtualBytes

/-!
# The name of a program in its `PCB`

`SC_Exec` fetches the name with `User2System(virtualAddr, MAX_FILENAME_LENGTH
+ 1)`, and `SysExec` and `ExecUpdate` hand the buffer on to
`PCB::SetFileName`, which copies the string with `strcpy` into
`filename[MAX_FILENAME_LENGTH]`. The buffer has room for 33 characters and
a zero, the field for 31 and a zero.

A `PCB` is here what it is to `strcpy`, bytes in the memory of the kernel,
with its fields where the 32-bit build puts them (`Field.offset`). The
string fits, and nothing but the field is written, exactly if there is a
zero among the first 32 bytes of the program at the address
(`exec_name_fits_iff`); the two longer lengths run into `exitcode`.
-/

namespace Nachos

open CInt ByteMemory Machine

/-! ## The buffer -/

section Fetch

variable {pt pt' : List TranslationEntry} {m : Memory} {a : Int} {k n : Nat} {buffer : List UInt8}

theorem byteAt_congr {b : Int} (h : u32 a = u32 b) : byteAt pt m a = byteAt pt m b := by
  have hvpn : vpn a = vpn b := by rw [vpn, vpn, h]
  have hoffset : offset a = offset b := by rw [offset, offset, h]
  rw [byteAt, byteAt, Machine.translate, Machine.translate, hvpn, hoffset]
  rfl

theorem Machine.SameMap.byteAt_eq (h : SameMap pt pt') (a : Int) :
    byteAt pt' m a = byteAt pt m a := by
  rw [byteAt_eq_map, byteAt_eq_map, h.place]

theorem readMem_byte {c : Int} (h : readMem pt m a 1 = .ok (c, pt')) :
    ∃ b, byteAt pt m a = some b ∧ c = signedChar b := by
  rw [readMem] at h
  rw [byteAt]
  cases ht : translate pt a 1 false with
  | error e =>
      rw [ht] at h
      cases h
  | ok r =>
      rw [ht] at h
      obtain ⟨rfl, -⟩ := Prod.mk.inj (Except.ok.inj h)
      exact ⟨m r.1, rfl, rfl⟩

/-- The bytes `strcpy` copies from a buffer: up to the first zero. -/
def cString (buffer : List UInt8) : List UInt8 := buffer.takeWhile (· ≠ 0) ++ [0]

theorem length_cString_zero (k : Nat) : (cString (List.replicate (k + 1) 0)).length = 1 := by
  rw [List.replicate_succ]
  rfl

theorem length_cString_cons {b : UInt8} (hb : b ≠ 0) (buffer : List UInt8) :
    (cString (b :: buffer)).length = (cString buffer).length + 1 := by
  rw [cString, cString, List.takeWhile_cons_of_pos (by simpa using hb), List.cons_append,
    List.length_cons]

/-- How long the string is that the loop of `User2System` has copied. -/
theorem length_cString_le_iff (h : copyIn pt m a k = .ok (buffer, pt')) (hn : n ≤ k) :
    (cString buffer).length ≤ n ↔ ∃ i < n, byteAt pt m (a + i) = some 0 := by
  induction k generalizing pt a buffer n with
  | zero =>
      obtain rfl := Nat.le_zero.mp hn
      obtain ⟨rfl, -⟩ := Prod.mk.inj (Except.ok.inj h)
      exact iff_of_false (by decide) fun ⟨i, hi, _⟩ => absurd hi (Nat.not_lt_zero i)
  | succ k ih =>
      rw [copyIn] at h
      split at h
      next => cases h
      next oneChar pt₁ hread =>
          obtain ⟨b, hb, rfl⟩ := readMem_byte hread
          cases n with
          | zero =>
              refine iff_of_false (fun hle => ?_) fun ⟨i, hi, _⟩ => absurd hi (Nat.not_lt_zero i)
              rw [cString, List.length_append] at hle
              exact absurd hle (Nat.not_succ_le_zero _)
          | succ n =>
              by_cases hzero : b = 0
              · rw [if_pos (signedChar_eq_zero.mpr hzero)] at h
                obtain ⟨rfl, -⟩ := Prod.mk.inj (Except.ok.inj h)
                rw [length_cString_zero]
                refine iff_of_true (Nat.succ_le_succ (Nat.zero_le n)) ⟨0, Nat.succ_pos n, ?_⟩
                rw [Nat.cast_zero, add_zero, hb, hzero]
              · rw [if_neg (mt signedChar_eq_zero.mp hzero), ofNat_signedChar] at h
                split at h
                next buffer₁ pt₂ hcopy =>
                    obtain ⟨rfl, rfl⟩ := Prod.mk.inj (Except.ok.inj h)
                    have hnext : ∀ i : Nat, byteAt pt₁ m (wrap32 (a + 1) + i)
                        = byteAt pt m (a + (i + 1 : Nat)) := by
                      intro i
                      rw [(sameMap_of_readMem hread).byteAt_eq, byteAt_congr (u32_next a i)]
                    rw [length_cString_cons hzero, Nat.add_le_add_iff_right,
                      ih hcopy (Nat.le_of_succ_le_succ hn)]
                    constructor
                    · rintro ⟨i, hi, hbyte⟩
                      exact ⟨i + 1, Nat.succ_lt_succ hi, (hnext i).symm.trans hbyte⟩
                    · rintro ⟨i, hi, hbyte⟩
                      cases i with
                      | zero =>
                          rw [Nat.cast_zero, add_zero, hb] at hbyte
                          exact absurd (Option.some.inj hbyte) hzero
                      | succ i => exact ⟨i, Nat.lt_of_succ_lt_succ hi, (hnext i).trans hbyte⟩
                next => cases h

end Fetch

/-! ## The `PCB` -/

/-- `MAX_FILENAME_LENGTH`. -/
def maxFilenameLength : Nat := 32

/-- The fields of a `PCB`, in their order. -/
inductive Field where
  | joinsem
  | exitsem
  | multex
  | thread
  | filename
  | exitcode
  | numwait
  | parentID
  | fileTable
  | index
deriving DecidableEq

namespace Field

def size : Field → Nat
  | filename => maxFilenameLength
  | _ => 4

def offset : Field → Nat
  | joinsem => 0
  | exitsem => 4
  | multex => 8
  | thread => 12
  | filename => 16
  | exitcode => 48
  | numwait => 52
  | parentID => 56
  | fileTable => 60
  | index => 64

/-- The other fields are before `filename` or behind it. -/
theorem apart {f : Field} (hf : f ≠ filename) :
    f.offset + f.size ≤ filename.offset ∨ filename.offset + filename.size ≤ f.offset := by
  cases f <;> first | exact absurd rfl hf | decide

end Field

/-- The bytes of a field of the `PCB` at `pcb`. -/
def fieldBytes (m : Memory) (pcb : Int) (f : Field) : List UInt8 := read m (pcb + f.offset) f.size

/-- `PCB::SetFileName`. -/
def setFileName (m : Memory) (pcb : Int) (fn : List UInt8) : Memory :=
  write m (pcb + Field.filename.offset) (cString fn)

/-- The string with its zero is no longer than the field, and `SetFileName`
changes no other byte, and so no other field. -/
structure NameFits (m : Memory) (pcb : Int) (fn : List UInt8) : Prop where
  length : (cString fn).length ≤ maxFilenameLength
  frame : ∀ x, ¬(pcb + Field.filename.offset ≤ x
    ∧ x < pcb + Field.filename.offset + Field.filename.size) → setFileName m pcb fn x = m x
  fields : ∀ f, f ≠ Field.filename → fieldBytes (setFileName m pcb fn) pcb f = fieldBytes m pcb f

theorem nameFits_iff (m : Memory) (pcb : Int) (fn : List UInt8) :
    NameFits m pcb fn ↔ (cString fn).length ≤ maxFilenameLength := by
  refine ⟨NameFits.length, fun hlen => ?_⟩
  have hframe : ∀ x, ¬(pcb + Field.filename.offset ≤ x
      ∧ x < pcb + Field.filename.offset + Field.filename.size) → setFileName m pcb fn x = m x := by
    intro x hx
    refine write_of_not_mem fun hin => hx ⟨hin.1, hin.2.trans_le ?_⟩
    exact Int.add_le_add_left (Int.ofNat_le.mpr hlen) _
  refine ⟨hlen, hframe, fun f hf => read_congr fun x hlo hhi => hframe x fun hin => ?_⟩
  rcases Field.apart hf with hbefore | hbehind
  · omega
  · omega

/-! ## `SC_Exec` -/

/-- The name `SC_Exec` fetches. -/
def execName (pageTable : List TranslationEntry) (m : Memory) (virtualAddr : Int) :
    Except Trap (List UInt8 × List TranslationEntry) :=
  user2System pageTable m virtualAddr (maxFilenameLength + 1)

theorem execName_eq (pt : List TranslationEntry) (m : Memory) (virtualAddr : Int) :
    execName pt m virtualAddr = copyIn pt m virtualAddr (maxFilenameLength + 1) := by
  rw [execName, user2System, if_neg (by decide), if_neg (by decide)]
  rfl

/-- **Names fit the `PCB`**, whatever the kernel memory and wherever the `PCB`
is, exactly if the program has a zero among the first 32 bytes of its name. -/
theorem exec_name_fits_iff {pt pt' : List TranslationEntry} {m : Memory} {virtualAddr : Int}
    {name : List UInt8} (h : execName pt m virtualAddr = .ok (name, pt')) (kernelMemory : Memory)
    (pcb : Int) :
    NameFits kernelMemory pcb name ↔ ∃ i < 32, byteAt pt m (virtualAddr + (i : Nat)) = some 0 := by
  rw [execName_eq] at h
  rw [nameFits_iff]
  exact length_cString_le_iff h (Nat.le_succ _)

/-- A page on frame 0 with `n` letters `a` and zeros behind them. -/
def letters (n : Nat) : Memory := fun x => if 0 ≤ x ∧ x < n then 97 else 0

def onePage : List TranslationEntry := [⟨0, 0, true, false, false, false⟩]

theorem execName_ok (n : Nat) (name : List UInt8)
    (h : (execName onePage (letters n) 0).toOption.map Prod.fst = some name) :
    ∃ pt', execName onePage (letters n) 0 = .ok (name, pt') := by
  cases hname : execName onePage (letters n) 0 with
  | error e =>
      rw [hname] at h
      cases h
  | ok r =>
      rw [hname] at h
      refine ⟨r.2, ?_⟩
      rw [← Option.some.inj h]

/-- 31 letters fit. -/
theorem exec_name_fits_thirtyone :
    ∃ name pt', execName onePage (letters 31) 0 = .ok (name, pt')
      ∧ NameFits (fun _ => 0) 0 name := by
  obtain ⟨pt', hname⟩ := execName_ok 31 (List.replicate 31 97 ++ [0, 0, 0])
    (by decide +kernel)
  exact ⟨_, pt', hname, (exec_name_fits_iff hname _ 0).mpr ⟨31, by decide, by decide +kernel⟩⟩

/-- Of 33 letters the last one ends up in `exitcode`. -/
theorem exec_name_overwrites_exitcode :
    ∃ name pt', execName onePage (letters 33) 0 = .ok (name, pt') ∧ (cString name).length = 34
      ∧ fieldBytes (fun _ => 0) 0 .exitcode = [0, 0, 0, 0]
      ∧ fieldBytes (setFileName (fun _ => 0) 0 name) 0 .exitcode = [97, 0, 0, 0] := by
  obtain ⟨pt', hname⟩ := execName_ok 33 (List.replicate 33 97 ++ [0])
    (by decide +kernel)
  exact ⟨_, pt', hname, by decide +kernel, by decide +kernel, by decide +kernel⟩

end Nachos
