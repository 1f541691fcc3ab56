import Mathlib.Data.List.TakeDrop
import Mathlib.Logic.Function.Basic
import Mathlib.Tactic.Common

/-!
# Files of a host: byte arrays with cursors

The part of a UNIX system a kernel built on it sees: files are lists of
bytes, and a descriptor is a file with a cursor. `lseek`, `read` and `write`
are the calls of that name; `none` is their error return. Positions are
numbers up to `limit`, the largest value of the host's `off_t`, and a write
that would end behind it fails (the host then writes less than asked for or
nothing, which a caller that insists on the full count cannot tell apart).

A write replaces the bytes from the cursor on and fills a gap before it with
zeros (`splice`), so that what was written is what is read back from there
(`take_drop_splice`).
-/

namespace HostFiles

/-- An open descriptor. -/
structure Desc where
  inode : Nat
  cursor : Nat

structure Host where
  data : Nat → List UInt8
  desc : Nat → Option Desc

/-- What a position counts from. -/
inductive Whence where
  | set
  | cur
  | fileEnd
deriving DecidableEq

/-- `bs` written at `p`. -/
def splice (d : List UInt8) (p : Nat) (bs : List UInt8) : List UInt8 :=
  d.take p ++ List.replicate (p - d.length) 0 ++ bs ++ d.drop (p + bs.length)

namespace Host

def setCursor (h : Host) (fd : Nat) (d : Desc) (p : Nat) : Host :=
  { h with desc := Function.update h.desc fd (some { d with cursor := p }) }

/-- The position `whence` names. -/
def base (h : Host) (d : Desc) : Whence → Nat
  | .set => 0
  | .cur => d.cursor
  | .fileEnd => (h.data d.inode).length

def lseek (limit : Nat) (h : Host) (fd : Nat) (offset : Int) (whence : Whence) :
    Option (Nat × Host) :=
  match h.desc fd with
  | none => none
  | some d =>
      let p := (h.base d whence : Int) + offset
      if 0 ≤ p ∧ p ≤ limit then some (p.toNat, h.setCursor fd d p.toNat) else none

def read (h : Host) (fd : Nat) (n : Int) : Option (List UInt8 × Host) :=
  match h.desc fd with
  | none => none
  | some d =>
      if n < 0 then none
      else
        let bs := ((h.data d.inode).drop d.cursor).take n.toNat
        some (bs, h.setCursor fd d (d.cursor + bs.length))

def write (limit : Nat) (h : Host) (fd : Nat) (bs : List UInt8) : Option Host :=
  match h.desc fd with
  | none => none
  | some d =>
      if d.cursor + bs.length ≤ limit then
        some (({ h with
          data := Function.update h.data d.inode (splice (h.data d.inode) d.cursor bs) } :
            Host).setCursor fd d (d.cursor + bs.length))
      else none

end Host

/-! ## Reading back -/

theorem length_splice (d : List UInt8) (p : Nat) (bs : List UInt8) :
    (splice d p bs).length = max d.length (p + bs.length) := by
  simp only [splice, List.length_append, List.length_take, List.length_replicate,
    List.length_drop]
  omega

theorem take_drop_splice (d : List UInt8) (p : Nat) (bs : List UInt8) :
    ((splice d p bs).drop p).take bs.length = bs := by
  have hlen : (d.take p ++ List.replicate (p - d.length) 0).length = p := by
    simp only [List.length_append, List.length_take, List.length_replicate]
    omega
  rw [splice, List.append_assoc, List.drop_append_of_le_length (Nat.le_of_eq hlen.symm),
    List.drop_eq_nil_of_le (Nat.le_of_eq hlen), List.nil_append, List.take_left]

section Cursor

variable {limit fd : Nat} {h : Host} {d : Desc}

@[simp] theorem desc_setCursor (h : Host) (fd : Nat) (d : Desc) (p : Nat) :
    (h.setCursor fd d p).desc fd = some { d with cursor := p } :=
  Function.update_self ..

@[simp] theorem setCursor_setCursor (h : Host) (fd : Nat) (d d' : Desc) (p q : Nat) :
    (h.setCursor fd d p).setCursor fd d' q = h.setCursor fd d' q := by
  simp only [Host.setCursor, Function.update_idem]

/-- Moving the cursor where it is. -/
theorem setCursor_self (hd : h.desc fd = some d) : h.setCursor fd d d.cursor = h := by
  have hsome : some ({ d with cursor := d.cursor } : Desc) = h.desc fd := hd.symm
  rw [Host.setCursor, hsome, Function.update_eq_self]

theorem lseek_of (hd : h.desc fd = some d) {offset : Int} {whence : Whence} {p : Nat}
    (hpos : (h.base d whence : Int) + offset = p) (hp : p ≤ limit) :
    h.lseek limit fd offset whence = some (p, h.setCursor fd d p) := by
  rw [Host.lseek, hd]
  simp only [hpos, Int.toNat_natCast]
  exact if_pos ⟨Int.natCast_nonneg p, Int.ofNat_le.mpr hp⟩

theorem lseek_set (hd : h.desc fd = some d) {p : Nat} (hp : p ≤ limit) :
    h.lseek limit fd p .set = some (p, h.setCursor fd d p) :=
  lseek_of hd (Int.zero_add _) hp

theorem lseek_cur (hd : h.desc fd = some d) (hp : d.cursor ≤ limit) :
    h.lseek limit fd 0 .cur = some (d.cursor, h) := by
  have hseek : h.lseek limit fd 0 .cur = some (d.cursor, h.setCursor fd d d.cursor) :=
    lseek_of hd (Int.add_zero _) hp
  rw [hseek, setCursor_self hd]

theorem lseek_end (hd : h.desc fd = some d) (hl : (h.data d.inode).length ≤ limit) :
    h.lseek limit fd 0 .fileEnd
      = some ((h.data d.inode).length, h.setCursor fd d (h.data d.inode).length) :=
  lseek_of hd (Int.add_zero _) hl

end Cursor

end HostFiles
