import Mathlib.Data.List.Nodup
import Mathlib.Data.Set.Lattice
import Nachos.Coff2Noff

/-!
# The image that a conversion keeps

`SameImage` compares the NOFF file that `coff2noff` has written with the
COFF file it was written from: every `.text`, `.data` and `.rdata` section
that is not empty is the segment of some slot, and the range of the
uninitialised data is the union of the `.bss` sections.

The loop keeps one section for each slot, so two sections of the same name
lose the first one. For `.bss` it adds the sizes up, and the comparison with
the end of the range so far is the wrong way round: a second `.bss` section
is refused when it continues the range and accepted when it does not.
A negative size is read and written as an error that looks like success, and
a negative position leaves the file where it is: such sections can lose their
image as well. `same_image_iff` is the exact condition on the names and sizes
in the table when nothing in it is negative. Its converse half builds, for any
layout that can be converted, a COFF file with this layout that is converted
and loses its image if a name is used twice.
-/

namespace Nachos

namespace Coff

open CInt ByteMemory DiskFS

/-- The addresses from `a` on, `size` of them. -/
def range (a size : Int) : Set Int := {x | a ≤ x ∧ x < a + size}

/-- The name and the size of a section. -/
def Scnhdr.shape (s : Scnhdr) : List UInt8 × Int := (s.sName, s.sSize)

/-- No two sections that are not empty have the same name. -/
def EachOnce (layout : List (List UInt8 × Int)) : Prop :=
  ((layout.filter fun l => l.2 ≠ 0).map fun l => cstr l.1).Nodup

instance (layout : List (List UInt8 × Int)) : Decidable (EachOnce layout) :=
  inferInstanceAs (Decidable (List.Nodup _))

theorem eachOnce_map_shape (ss : List Scnhdr) :
    EachOnce (ss.map Scnhdr.shape)
      ↔ ((ss.filter fun s => s.sSize ≠ 0).map fun s => cstr s.sName).Nodup := by
  rw [EachOnce, List.filter_map, List.map_map]
  rfl

theorem named_eq_nil_or_singleton {ss : List Scnhdr} (h : EachOnce (ss.map Scnhdr.shape))
    (name : List UInt8) : named name ss = [] ∨ ∃ s ∈ ss, named name ss = [s] := by
  have hsub : ((named name ss).map fun s => cstr s.sName).Sublist
      ((ss.filter fun s => s.sSize ≠ 0).map fun s => cstr s.sName) := by
    refine List.Sublist.map _ (List.monotone_filter_right _ fun s hs => ?_)
    exact decide_eq_true (decide_eq_true_iff.mp hs).1
  have hrep : (named name ss).map (fun s => cstr s.sName)
      = List.replicate (named name ss).length name :=
    List.eq_replicate_iff.mpr ⟨List.length_map _, fun n hn => by
      obtain ⟨s, hs, rfl⟩ := List.mem_map.mp hn
      exact (mem_named.mp hs).2.2⟩
  have hnodup := ((eachOnce_map_shape ss).mp h).sublist hsub
  rw [hrep, List.nodup_replicate] at hnodup
  rcases hlen : named name ss with _ | ⟨s, _ | ⟨t, rest⟩⟩
  · exact Or.inl rfl
  · refine Or.inr ⟨s, ?_, rfl⟩
    exact (mem_named.mp (hlen ▸ List.mem_cons_self : s ∈ named name ss)).1
  · rw [hlen] at hnodup
    exact absurd hnodup (by simp)

/-- The header at the start of the file that was written. -/
theorem Inv.ofBytes {coff : File} {ss : List Scnhdr} {c : Conversion} (hi : Inv coff ss c) :
    NoffHeader.ofBytes (c.noffH.encode ++ c.fdOut) = c.noffH :=
  c.noffH.ofBytes_encode c.fdOut hi.words

/-- The bytes that a slot points to. -/
theorem Describes.bytes {coff : File} {c : Conversion} {slot : Slot} {s : Scnhdr}
    (h : Describes coff c slot s) :
    File.bytes (c.noffH.encode ++ c.fdOut) (segment c.noffH slot).inFileAddr s.sSize
      = coff.bytes s.sScnptr s.sSize := by
  have hlen : ((c.noffH.encode.length : Nat) : Int) = 52 := by rw [NoffHeader.length_encode]; rfl
  rw [bytes_append_right (by rw [hlen]; exact h.behind), hlen]
  exact h.raw

/-- Sections of the layout at the addresses `-k`, `-(k + 1)` and so on, their
raw bytes at the start of the file. -/
def placed : Nat → List (List UInt8 × Int) → List Scnhdr
  | _, [] => []
  | k, l :: layout => ⟨l.1, -k, l.2, 0⟩ :: placed (k + 1) layout

/-- The words of a section header behind the name; `main` does not look at
the ones that are 0 here. -/
def Scnhdr.words (s : Scnhdr) : List Int := [s.sPaddr, 0, s.sSize, s.sScnptr, 0, 0, 0, 0]

/-- The 40 bytes of a section header. -/
def Scnhdr.encode (s : Scnhdr) : List UInt8 :=
  s.sName ++ (s.words.map fun w => (u32 w).toNat).flatMap (leBytes 4)

theorem Scnhdr.length_encode {s : Scnhdr} (h : s.sName.length = 8) : s.encode.length = 40 := by
  rw [Scnhdr.encode, List.length_append, h, length_flatMap_leBytes]
  rfl

theorem Scnhdr.wordAt_encode {s : Scnhdr} (hname : s.sName.length = 8) (i : Nat)
    (hi : i < s.words.length) (hw : IsInt s.words[i]) :
    NoffHeader.wordAt s.encode (2 + i) = s.words[i] := by
  have hdrop : s.encode.drop (4 * (2 + i))
      = ((s.words.map fun w => (u32 w).toNat).flatMap (leBytes 4)).drop (4 * i) := by
    rw [Scnhdr.encode, show 4 * (2 + i) = s.sName.length + 4 * i by omega,
      List.drop_length_add_append]
  have htake := take_drop_flatMap (s.words.map fun w => (u32 w).toNat)
    (fun v _ => length_leBytes 4 v) [] i (by rwa [List.length_map])
  rw [List.append_nil] at htake
  rw [NoffHeader.wordAt, hdrop, htake, List.getElem_map]
  exact wrap32_leNat_leBytes hw

theorem Scnhdr.ofBytes_encode {s : Scnhdr} (hname : s.sName.length = 8) (hv : IsInt s.sPaddr)
    (hs : IsInt s.sSize) (hp : IsInt s.sScnptr) : Scnhdr.ofBytes s.encode = s := by
  have htake : s.encode.take 8 = s.sName := by
    rw [Scnhdr.encode, ← hname, List.take_left]
  have hpaddr := wordAt_encode hname 0 (by simp [Scnhdr.words]) hv
  have hsize := wordAt_encode hname 2 (by simp [Scnhdr.words]) hs
  have hscnptr := wordAt_encode hname 3 (by simp [Scnhdr.words]) hp
  rw [Scnhdr.ofBytes, hpaddr, hsize, hscnptr, htake]
  rfl

theorem read_eq {coff : File} {fdIn nBytes : Int} (hpos : 0 ≤ fdIn) (hn : 0 ≤ nBytes)
    (hlen : fdIn + nBytes ≤ coff.length) :
    read coff fdIn nBytes = some (coff.bytes fdIn nBytes) := by
  simp only [read, if_neg (Int.not_lt.mpr hn)]
  rw [if_neg (not_not.mpr (File.length_bytes hpos hn hlen))]

/-- The range of the uninitialised data so far lies above the address `-k`
and has room for `rest` more bytes. -/
def Above (k : Nat) (rest : Int) (seg : Segment) : Prop :=
  seg.size = 0 ∨ (0 < seg.size ∧ -(k : Int) < seg.virtualAddr ∧ seg.virtualAddr ≤ 0
    ∧ seg.size + rest ≤ intMax)

theorem Above.mono {k : Nat} {rest rest' : Int} {seg : Segment} (h : Above k rest seg)
    (hrest : rest' ≤ rest) : Above (k + 1) rest' seg := by
  rcases h with h0 | ⟨hpos, hlt, hle, hmax⟩
  · exact Or.inl h0
  · exact Or.inr ⟨hpos, by push_cast; omega, hle, by omega⟩

end Coff

end Nachos
