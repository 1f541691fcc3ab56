import Mathlib.Algebra.Order.BigOperators.Group.List
import Nachos.Directory
import Nachos.Noff

/-!
# From COFF to NOFF

`main` of `coff2noff/coff2noff.c`. The COFF file starts with two headers of
20 and 56 bytes and the table of section headers, 40 bytes each; `long` is
32 bits wide in the build (`-m32`). The loop over the table fills the slots
of the NOFF header and copies the raw bytes of the sections behind it. What
a slot of the header holds that no section fills is what the stack held
(`stack`), its size apart. `none` is every path to `exit(1)`.

The slot of a section is chosen by its name alone, and a second section of a
name takes the slot of the first one; only `.bss` looks at what is already
there. `Inv` says what the loop has done after any list of sections: each
slot describes the last section of its name, and the range for the
uninitialised data starts where the first `.bss` section starts and has the
size of all of them. `main_inv` says this of every conversion that succeeds.
-/

namespace Nachos

namespace Coff

open CInt ByteMemory DiskFS

/-! ## The program -/

/-- The fields of `struct scnhdr` that `main` reads. -/
structure Scnhdr where
  sName : List UInt8
  sPaddr : Int
  sSize : Int
  sScnptr : Int
deriving DecidableEq

/-- The structure in 40 bytes of the table. -/
def Scnhdr.ofBytes (bytes : List UInt8) : Scnhdr where
  sName := bytes.take 8
  sPaddr := NoffHeader.wordAt bytes 2
  sSize := NoffHeader.wordAt bytes 4
  sScnptr := NoffHeader.wordAt bytes 5

/-- The segments of the NOFF header that have bytes in the file. -/
inductive Slot where
  | code
  | initData
  | readonlyData
deriving DecidableEq

/-- The name of the sections that go to a slot: `.text`, `.data` and
`.rdata`. -/
def Slot.name : Slot → List UInt8
  | .code => [0x2e, 0x74, 0x65, 0x78, 0x74]
  | .initData => [0x2e, 0x64, 0x61, 0x74, 0x61]
  | .readonlyData => [0x2e, 0x72, 0x64, 0x61, 0x74, 0x61]

/-- `.bss` -/
def bssName : List UInt8 := [0x2e, 0x62, 0x73, 0x73]

def segment (noffH : NoffHeader) : Slot → Segment
  | .code => noffH.code
  | .initData => noffH.initData
  | .readonlyData => noffH.readonlyData

def setSegment (noffH : NoffHeader) (slot : Slot) (seg : Segment) : NoffHeader :=
  match slot with
  | .code => { noffH with code := seg }
  | .initData => { noffH with initData := seg }
  | .readonlyData => { noffH with readonlyData := seg }

/-- `Read`, from the position `fdIn` of the input on. The host answers a
negative count with `-1`, and that is what is compared with the count. -/
def read (coff : File) (fdIn nBytes : Int) : Option (List UInt8) :=
  let buffer := coff.bytes fdIn nBytes
  let retVal : Int := if nBytes < 0 then -1 else buffer.length
  if retVal ≠ nBytes then none else some buffer

/-- `Write`, `fdOut` being what stands behind the header. A file of a 32-bit
program ends before byte `2 ^ 31 - 1`. -/
def write (fdOut : File) (buffer : List UInt8) (nBytes : Int) : Option File :=
  let retVal : Int := if nBytes < 0 then -1 else min nBytes (intMax - (52 + fdOut.length))
  if retVal ≠ nBytes then none else some (fdOut ++ buffer)

/-- `lseek(fdIn, offset, 0)`: a negative offset is refused. -/
def lseek (fdIn offset : Int) : Int := if offset < 0 then fdIn else offset

/-- The variables of the loop. -/
structure Conversion where
  noffH : NoffHeader
  inNoffFile : Int
  fdIn : Int
  fdOut : File
deriving DecidableEq

/-- The branches for `.text`, `.data` and `.rdata`. -/
def copySection (coff : File) (slot : Slot) (c : Conversion) (s : Scnhdr) : Option Conversion :=
  (read coff (lseek c.fdIn s.sScnptr) s.sSize).bind fun buffer =>
    (write c.fdOut buffer s.sSize).map fun fdOut =>
      { noffH := setSegment c.noffH slot ⟨s.sPaddr, c.inNoffFile, s.sSize⟩
        inNoffFile := wrap32 (c.inNoffFile + s.sSize)
        fdIn := lseek c.fdIn s.sScnptr + buffer.length
        fdOut := fdOut }

/-- The branch for `.bss`. -/
def addBss (c : Conversion) (s : Scnhdr) : Option Conversion :=
  let uninitData := c.noffH.uninitData
  if uninitData.size ≠ 0 then
    if s.sPaddr = wrap32 (uninitData.virtualAddr + uninitData.size) then none
    else some { c with noffH.uninitData.size := wrap32 (uninitData.size + s.sSize) }
  else some { c with noffH.uninitData := ⟨s.sPaddr, uninitData.inFileAddr, s.sSize⟩ }

/-- One pass of the loop. `strcmp` finds one of the names only where the
string ends within the eight bytes. -/
def copyOne (coff : File) (c : Conversion) (s : Scnhdr) : Option Conversion :=
  if s.sSize = 0 then some c
  else if cstr s.sName = Slot.code.name then copySection coff .code c s
  else if cstr s.sName = Slot.initData.name then copySection coff .initData c s
  else if cstr s.sName = Slot.readonlyData.name then copySection coff .readonlyData c s
  else if cstr s.sName = bssName then addBss c s
  else none

/-- The loop. -/
def copyAll (coff : File) : Conversion → List Scnhdr → Option Conversion
  | c, [] => some c
  | c, s :: sections => (copyOne coff c s).bind fun c' => copyAll coff c' sections

/-- The header before the loop. -/
def initialHeader (stack : List UInt8) : NoffHeader :=
  let noffH := NoffHeader.ofBytes stack
  { noffMagic := noffMagic
    code := { noffH.code with size := 0 }
    initData := { noffH.initData with size := 0 }
    readonlyData := { noffH.readonlyData with size := 0 }
    uninitData := { noffH.uninitData with size := 0 } }

/-- `MIPSELMAGIC` -/
def mipselMagic : Nat := 0x0162

/-- `OMAGIC` -/
def omagic : Nat := 0o407

/-- `fileh.f_nscns` -/
def numsections (fileh : List UInt8) : Nat := leNat ((fileh.drop 2).take 2)

/-- The table of `n` section headers. -/
def scnhdrs (n : Nat) (table : List UInt8) : List Scnhdr :=
  (List.range n).map fun i => .ofBytes ((table.drop (40 * i)).take 40)

/-- `main`: the NOFF file written for a COFF file. -/
def main (stack : List UInt8) (coff : File) : Option File :=
  (read coff 0 20).bind fun fileh =>
    if leNat (fileh.take 2) ≠ mipselMagic then none
    else (read coff 20 56).bind fun systemh =>
      if leNat (systemh.take 2) ≠ omagic then none
      else (read coff 76 (40 * numsections fileh)).bind fun table =>
        (copyAll coff ⟨initialHeader stack, 52, 76 + 40 * numsections fileh, []⟩
          (scnhdrs (numsections fileh) table)).map fun c => c.noffH.encode ++ c.fdOut

/-! ## The sections of a file -/

/-- The section headers of a COFF file. -/
def sections (coff : File) : List Scnhdr :=
  scnhdrs (numsections (coff.bytes 0 20)) (coff.bytes 76 (40 * numsections (coff.bytes 0 20)))

/-- Sizes and file positions are not negative. -/
def Scnhdr.WellFormed (s : Scnhdr) : Prop := 0 ≤ s.sSize ∧ 0 ≤ s.sScnptr

instance (s : Scnhdr) : Decidable s.WellFormed := inferInstanceAs (Decidable (_ ∧ _))

/-- The sections of a name that are not empty. -/
def named (name : List UInt8) (ss : List Scnhdr) : List Scnhdr :=
  ss.filter fun s => s.sSize ≠ 0 ∧ cstr s.sName = name

/-! ## What a pass does -/

theorem segment_setSegment_self (noffH : NoffHeader) (slot : Slot) (seg : Segment) :
    segment (setSegment noffH slot seg) slot = seg := by
  cases slot <;> rfl

theorem segment_setSegment_of_ne (noffH : NoffHeader) {slot slot' : Slot} (h : slot' ≠ slot)
    (seg : Segment) : segment (setSegment noffH slot seg) slot' = segment noffH slot' := by
  cases slot <;> cases slot' <;> first | rfl | exact absurd rfl h

@[simp] theorem uninitData_setSegment (noffH : NoffHeader) (slot : Slot) (seg : Segment) :
    (setSegment noffH slot seg).uninitData = noffH.uninitData := by
  cases slot <;> rfl

/-- The fields of a segment are `int`s. -/
@[mk_iff]
structure IntSegment (seg : Segment) : Prop where
  virtualAddr : IsInt seg.virtualAddr
  inFileAddr : IsInt seg.inFileAddr
  size : IsInt seg.size

theorem isInt_words_iff {noffH : NoffHeader} :
    (∀ w ∈ noffH.words, IsInt w) ↔ IsInt noffH.noffMagic ∧ IntSegment noffH.code
      ∧ IntSegment noffH.initData ∧ IntSegment noffH.readonlyData
      ∧ IntSegment noffH.uninitData := by
  simp only [NoffHeader.words, List.forall_mem_cons, List.not_mem_nil, false_implies, implies_true,
    and_true, intSegment_iff, and_assoc]

theorem isInt_words_setSegment {noffH : NoffHeader} {seg : Segment} (slot : Slot)
    (h : ∀ w ∈ noffH.words, IsInt w) (hseg : IntSegment seg) :
    ∀ w ∈ (setSegment noffH slot seg).words, IsInt w := by
  rw [isInt_words_iff] at h ⊢
  obtain ⟨hmagic, hcode, hinit, hreadonly, huninit⟩ := h
  cases slot with
  | code => exact ⟨hmagic, hseg, hinit, hreadonly, huninit⟩
  | initData => exact ⟨hmagic, hcode, hseg, hreadonly, huninit⟩
  | readonlyData => exact ⟨hmagic, hcode, hinit, hseg, huninit⟩

theorem name_injective {slot slot' : Slot} (h : slot.name = slot'.name) : slot = slot' := by
  revert h
  cases slot <;> cases slot' <;> decide

theorem name_ne_bssName (slot : Slot) : slot.name ≠ bssName := by
  cases slot <;> decide

theorem read_eq_some {coff : File} {fdIn nBytes : Int} {buffer : List UInt8} (hn : 0 ≤ nBytes)
    (h : read coff fdIn nBytes = some buffer) :
    buffer = coff.bytes fdIn nBytes ∧ (buffer.length : Int) = nBytes := by
  simp only [read, if_neg (Int.not_lt.mpr hn)] at h
  split at h
  next => cases h
  next hlen =>
    obtain rfl := Option.some.inj h
    exact ⟨rfl, not_not.mp hlen⟩

theorem write_eq_some {fdOut fdOut' : File} {buffer : List UInt8} {nBytes : Int} (hn : 0 ≤ nBytes)
    (h : write fdOut buffer nBytes = some fdOut') :
    fdOut' = fdOut ++ buffer ∧ 52 + fdOut.length + nBytes ≤ intMax := by
  simp only [write, if_neg (Int.not_lt.mpr hn)] at h
  split at h
  next => cases h
  next hmin => exact ⟨(Option.some.inj h).symm, by omega⟩

/-- What a pass over a copied section leaves. -/
structure Copied (coff : File) (slot : Slot) (s : Scnhdr) (c c' : Conversion) : Prop where
  noffH : c'.noffH = setSegment c.noffH slot ⟨s.sPaddr, c.inNoffFile, s.sSize⟩
  inNoffFile : c'.inNoffFile = wrap32 (c.inNoffFile + s.sSize)
  fdOut : c'.fdOut = c.fdOut ++ coff.bytes s.sScnptr s.sSize
  length : ((coff.bytes s.sScnptr s.sSize).length : Int) = s.sSize
  limit : 52 + c.fdOut.length + s.sSize ≤ intMax

theorem copySection_eq_some {coff : File} {slot : Slot} {s : Scnhdr} {c c' : Conversion}
    (hs : s.WellFormed) (h : copySection coff slot c s = some c') : Copied coff slot s c c' := by
  obtain ⟨buffer, hread, h⟩ := Option.bind_eq_some_iff.mp h
  obtain ⟨fdOut, hwrite, rfl⟩ := Option.map_eq_some_iff.mp h
  rw [lseek, if_neg (Int.not_lt.mpr hs.2)] at hread
  obtain ⟨rfl, hlen⟩ := read_eq_some hs.1 hread
  obtain ⟨rfl, hlimit⟩ := write_eq_some hs.1 hwrite
  exact ⟨rfl, rfl, rfl, hlen, hlimit⟩

theorem copyOne_cases {coff : File} {c c' : Conversion} {s : Scnhdr} (hs : s.WellFormed)
    (h : copyOne coff c s = some c') :
    (s.sSize = 0 ∧ c' = c)
      ∨ (s.sSize ≠ 0 ∧ ∃ slot, cstr s.sName = slot.name ∧ Copied coff slot s c c')
      ∨ (s.sSize ≠ 0 ∧ cstr s.sName = bssName ∧ addBss c s = some c') := by
  rw [copyOne] at h
  split at h
  next h0 => exact Or.inl ⟨h0, (Option.some.inj h).symm⟩
  next h0 =>
    refine Or.inr ?_
    split at h
    next hname => exact Or.inl ⟨h0, _, hname, copySection_eq_some hs h⟩
    split at h
    next hname => exact Or.inl ⟨h0, _, hname, copySection_eq_some hs h⟩
    split at h
    next hname => exact Or.inl ⟨h0, _, hname, copySection_eq_some hs h⟩
    split at h
    next hname => exact Or.inr ⟨h0, hname, h⟩
    next => cases h

theorem addBss_eq_some {c c' : Conversion} {s : Scnhdr} (h : addBss c s = some c') :
    c' = { c with noffH.uninitData := c'.noffH.uninitData }
      ∧ c'.noffH.uninitData
        = if c.noffH.uninitData.size ≠ 0 then
            { c.noffH.uninitData with size := wrap32 (c.noffH.uninitData.size + s.sSize) }
          else { c.noffH.uninitData with virtualAddr := s.sPaddr, size := s.sSize } := by
  simp only [addBss] at h
  split at h
  next h0 =>
    split at h
    next => cases h
    next =>
      obtain rfl := Option.some.inj h
      exact ⟨rfl, (if_pos h0).symm⟩
  next h0 =>
    obtain rfl := Option.some.inj h
    exact ⟨rfl, (if_neg h0).symm⟩

/-! ## What the loop has done -/

theorem named_snoc (name : List UInt8) (ss : List Scnhdr) (s : Scnhdr) :
    named name (ss ++ [s])
      = if s.sSize ≠ 0 ∧ cstr s.sName = name then named name ss ++ [s] else named name ss := by
  rw [named, List.filter_append]
  split
  next h => rw [List.filter_cons_of_pos (by simpa using h), List.filter_nil, named]
  next h => rw [List.filter_cons_of_neg (by simpa using h), List.filter_nil, List.append_nil, named]

theorem mem_named {name : List UInt8} {ss : List Scnhdr} {s : Scnhdr} :
    s ∈ named name ss ↔ s ∈ ss ∧ s.sSize ≠ 0 ∧ cstr s.sName = name := by
  rw [named, List.mem_filter, decide_eq_true_iff]

/-- The sizes of sections together. -/
def total (ss : List Scnhdr) : Int := (ss.map (·.sSize)).sum

theorem total_snoc (ss : List Scnhdr) (s : Scnhdr) : total (ss ++ [s]) = total ss + s.sSize := by
  simp [total]

/-- The slot of the header has the address, the size and the bytes of `s`. -/
structure Describes (coff : File) (c : Conversion) (slot : Slot) (s : Scnhdr) : Prop where
  virtualAddr : (segment c.noffH slot).virtualAddr = s.sPaddr
  size : (segment c.noffH slot).size = s.sSize
  behind : 52 ≤ (segment c.noffH slot).inFileAddr
  before : (segment c.noffH slot).inFileAddr + s.sSize ≤ 52 + c.fdOut.length
  raw : c.fdOut.bytes ((segment c.noffH slot).inFileAddr - 52) s.sSize
    = coff.bytes s.sScnptr s.sSize

/-- The state of the loop after the sections `ss`. -/
structure Inv (coff : File) (ss : List Scnhdr) (c : Conversion) : Prop where
  words : ∀ w ∈ c.noffH.words, IsInt w
  offset : c.inNoffFile = 52 + c.fdOut.length
  limit : 52 + c.fdOut.length ≤ intMax
  last : ∀ (slot : Slot) (s : Scnhdr), (named slot.name ss).getLast? = some s →
    Describes coff c slot s
  empty : ∀ slot : Slot, named slot.name ss = [] → (segment c.noffH slot).size = 0
  bssSize : c.noffH.uninitData.size = total (named bssName ss)
  bssStart : ∀ s, (named bssName ss).head? = some s → c.noffH.uninitData.virtualAddr = s.sPaddr

theorem bytes_append_left {file rest : File} {a n : Int} (ha : 0 ≤ a) (h : a + n ≤ file.length) :
    File.bytes (file ++ rest) a n = file.bytes a n := by
  rcases Int.le_total n 0 with hn | hn
  · rw [File.bytes, File.bytes, Int.toNat_of_nonpos hn, List.take_zero, List.take_zero]
  · rw [File.bytes, File.bytes, List.drop_append_of_le_length (by omega),
      List.take_append_of_le_length (by rw [List.length_drop]; omega)]

theorem bytes_append_right {file rest : File} {a n : Int} (h : (file.length : Int) ≤ a) :
    File.bytes (file ++ rest) a n = rest.bytes (a - file.length) n := by
  have hdrop : a.toNat = file.length + (a - file.length).toNat := by omega
  rw [File.bytes, File.bytes, hdrop, List.drop_length_add_append]

/-- A description stays true while more is written behind it. -/
theorem Describes.mono {coff : File} {c c' : Conversion} {slot : Slot} {s : Scnhdr} {rest : File}
    (h : Describes coff c slot s) (hslot : segment c'.noffH slot = segment c.noffH slot)
    (hout : c'.fdOut = c.fdOut ++ rest) : Describes coff c' slot s := by
  have hbehind := h.behind
  have hbefore := h.before
  refine ⟨?_, ?_, ?_, ?_, ?_⟩ <;> rw [hslot]
  · exact h.virtualAddr
  · exact h.size
  · exact hbehind
  · rw [hout, List.length_append]
    omega
  · rw [hout, bytes_append_left (by omega) (by omega)]
    exact h.raw

theorem Inv.copied {coff : File} {ss : List Scnhdr} {s : Scnhdr} {slot : Slot} {c c' : Conversion}
    (hi : Inv coff ss c) (hs : s.WellFormed) (hint : IsInt s.sPaddr) (h0 : s.sSize ≠ 0)
    (hname : cstr s.sName = slot.name) (h : Copied coff slot s c c') : Inv coff (ss ++ [s]) c' := by
  obtain ⟨hnoffH, hin, hout, hlen, hlimit⟩ := h
  have hsize := hs.1
  have hoff := hi.offset
  have hlen' : (c'.fdOut.length : Int) = c.fdOut.length + s.sSize := by
    rw [hout, List.length_append]
    omega
  have hbss : named bssName (ss ++ [s]) = named bssName ss := by
    rw [named_snoc, if_neg fun hc => name_ne_bssName slot (hname.symm.trans hc.2)]
  have hother : ∀ slot' : Slot, slot' ≠ slot → named slot'.name (ss ++ [s]) = named slot'.name ss :=
    fun slot' hne => by
      rw [named_snoc, if_neg fun hc => hne (name_injective (hc.2.symm.trans hname))]
  have hself : named slot.name (ss ++ [s]) = named slot.name ss ++ [s] := by
    rw [named_snoc, if_pos ⟨h0, hname⟩]
  refine ⟨?_, ?_, ?_, fun slot' t ht => ?_, fun slot' he => ?_, ?_, fun t ht => ?_⟩
  · rw [hnoffH]
    refine isInt_words_setSegment slot hi.words ⟨hint, ?_, ?_⟩
    · simp only [IsInt, intMin, intMax] at hlimit ⊢
      omega
    · simp only [IsInt, intMin, intMax] at hlimit ⊢
      omega
  · rw [hin, hlen', hoff, ← Int.add_assoc]
    refine wrap32_of_bounds (by omega) ?_
    rwa [intMax] at hlimit
  · rw [hlen']
    omega
  · by_cases hne : slot' = slot
    · subst hne
      rw [hself, List.getLast?_concat] at ht
      obtain rfl := Option.some.inj ht
      have hseg : segment c'.noffH slot' = ⟨s.sPaddr, c.inNoffFile, s.sSize⟩ := by
        rw [hnoffH, segment_setSegment_self]
      refine ⟨?_, ?_, ?_, ?_, ?_⟩ <;> rw [hseg]
      · change 52 ≤ c.inNoffFile
        omega
      · change c.inNoffFile + s.sSize ≤ _
        omega
      · change c'.fdOut.bytes (c.inNoffFile - 52) s.sSize = _
        rw [hout, bytes_append_right (by omega), hoff]
        have hzero : 52 + (c.fdOut.length : Int) - 52 - c.fdOut.length = 0 := by omega
        rw [hzero, File.bytes, Int.toNat_zero, List.drop_zero, List.take_of_length_le]
        omega
    · rw [hother slot' hne] at ht
      refine (hi.last slot' t ht).mono ?_ hout
      rw [hnoffH, segment_setSegment_of_ne _ hne]
  · by_cases hne : slot' = slot
    · subst hne
      rw [hself] at he
      exact absurd he (by simp)
    · rw [hother slot' hne] at he
      rw [hnoffH, segment_setSegment_of_ne _ hne]
      exact hi.empty slot' he
  · rw [hbss, hnoffH, uninitData_setSegment]
    exact hi.bssSize
  · rw [hbss] at ht
    rw [hnoffH, uninitData_setSegment]
    exact hi.bssStart t ht

theorem isInt_words_setUninitData {noffH : NoffHeader} {seg : Segment}
    (h : ∀ w ∈ noffH.words, IsInt w) (hseg : IntSegment seg) :
    ∀ w ∈ { noffH with uninitData := seg }.words, IsInt w := by
  rw [isInt_words_iff] at h ⊢
  obtain ⟨hmagic, hcode, hinit, hreadonly, -⟩ := h
  exact ⟨hmagic, hcode, hinit, hreadonly, hseg⟩

theorem total_pos {ss : List Scnhdr} (hpos : ∀ s ∈ ss, 0 < s.sSize) (hne : ss ≠ []) :
    0 < total ss := by
  obtain ⟨s, ss, rfl⟩ := List.exists_cons_of_ne_nil hne
  have htail : 0 ≤ total ss :=
    List.sum_nonneg fun x hx => by
      obtain ⟨t, ht, rfl⟩ := List.mem_map.mp hx
      exact (hpos t (List.mem_cons_of_mem _ ht)).le
  have hhead := hpos s List.mem_cons_self
  have hsum : total (s :: ss) = s.sSize + total ss := by
    rw [total, List.map_cons, List.sum_cons, total]
  omega

theorem pos_of_mem_named {name : List UInt8} {ss : List Scnhdr} (hss : ∀ s ∈ ss, s.WellFormed) :
    ∀ s ∈ named name ss, 0 < s.sSize := fun s hs =>
  have hmem := mem_named.mp hs
  lt_of_le_of_ne (hss s hmem.1).1 hmem.2.1.symm

theorem Inv.addBss {coff : File} {ss : List Scnhdr} {s : Scnhdr} {c c' : Conversion}
    (hi : Inv coff ss c) (hss : ∀ t ∈ ss, t.WellFormed) (hint : IsInt s.sPaddr)
    (hsint : IsInt s.sSize) (h0 : s.sSize ≠ 0) (hname : cstr s.sName = bssName)
    (hmax : total (named bssName (ss ++ [s])) ≤ intMax) (hs : s.WellFormed)
    (h : Coff.addBss c s = some c') : Inv coff (ss ++ [s]) c' := by
  obtain ⟨hc', hu⟩ := addBss_eq_some h
  have hother : ∀ slot : Slot, named slot.name (ss ++ [s]) = named slot.name ss := fun slot => by
    rw [named_snoc, if_neg fun hc => name_ne_bssName slot (hc.2.symm.trans hname)]
  have hbss : named bssName (ss ++ [s]) = named bssName ss ++ [s] := by
    rw [named_snoc, if_pos ⟨h0, hname⟩]
  have hseg : ∀ slot, segment c'.noffH slot = segment c.noffH slot := fun slot => by
    rw [hc']
    cases slot <;> rfl
  have hout : c'.fdOut = c.fdOut := by rw [hc']
  obtain ⟨-, -, -, -, hold⟩ := isInt_words_iff.mp hi.words
  rw [hbss, total_snoc] at hmax
  -- the size is the total of the earlier ones, so it is 0 only when there are none
  have hcases : (c.noffH.uninitData.size = 0 ∧ named bssName ss = []
        ∧ c'.noffH.uninitData
          = { c.noffH.uninitData with virtualAddr := s.sPaddr, size := s.sSize })
      ∨ (named bssName ss ≠ [] ∧ c'.noffH.uninitData
        = { c.noffH.uninitData with size := total (named bssName ss) + s.sSize }) := by
    by_cases hnil : named bssName ss = []
    · have hz : c.noffH.uninitData.size = 0 := by
        rw [hi.bssSize, hnil, total, List.map_nil, List.sum_nil]
      rw [if_neg (not_not.mpr hz)] at hu
      exact Or.inl ⟨hz, hnil, hu⟩
    · have hpos := total_pos (pos_of_mem_named hss) hnil
      rw [if_pos (by rw [hi.bssSize]; omega), hi.bssSize, wrap32_of_isInt] at hu
      · exact Or.inr ⟨hnil, hu⟩
      · have := hs.1
        simp only [IsInt, intMin]
        omega
  refine ⟨?_, ?_, ?_, fun slot t ht => ?_, fun slot he => ?_, ?_, fun t ht => ?_⟩
  · rw [hc']
    refine isInt_words_setUninitData hi.words ?_
    rcases hcases with ⟨-, -, hu⟩ | ⟨hnil, hu⟩
    · rw [hu]
      exact ⟨hint, hold.inFileAddr, hsint⟩
    · have hpos := total_pos (pos_of_mem_named hss) hnil
      have := hs.1
      rw [hu]
      exact ⟨hold.virtualAddr, hold.inFileAddr, by simp only [intMin]; omega, hmax⟩
  · rw [hout, ← hi.offset, hc']
  · rw [hout]
    exact hi.limit
  · rw [hother] at ht
    exact (hi.last slot t ht).mono (hseg slot) (by rw [hout, List.append_nil])
  · rw [hother] at he
    rw [hseg]
    exact hi.empty slot he
  · rw [hbss, total_snoc]
    rcases hcases with ⟨-, hnil, hu⟩ | ⟨-, hu⟩ <;> rw [hu]
    rw [hnil, total, List.map_nil, List.sum_nil, Int.zero_add]
  · rw [hbss] at ht
    rcases hcases with ⟨-, hnil, hu⟩ | ⟨hnil, hu⟩ <;> rw [hu]
    · rw [hnil] at ht
      rw [Option.some.inj ht]
    · obtain ⟨u, us, hcons⟩ := List.exists_cons_of_ne_nil hnil
      rw [hcons] at ht
      exact hi.bssStart t (by rw [hcons]; exact ht)

/-- A pass keeps the invariant. -/
theorem Inv.copyOne {coff : File} {ss : List Scnhdr} {s : Scnhdr} {c c' : Conversion}
    (hi : Inv coff ss c) (hss : ∀ t ∈ ss, t.WellFormed) (hint : IsInt s.sPaddr)
    (hsint : IsInt s.sSize) (hs : s.WellFormed)
    (hmax : total (named bssName (ss ++ [s])) ≤ intMax)
    (h : Coff.copyOne coff c s = some c') : Inv coff (ss ++ [s]) c' := by
  rcases copyOne_cases hs h with ⟨h0, rfl⟩ | ⟨h0, slot, hname, hc⟩ | ⟨h0, hname, hc⟩
  · have hsame : ∀ name, named name (ss ++ [s]) = named name ss := fun name => by
      rw [named_snoc, if_neg fun hc => hc.1 h0]
    obtain ⟨hw, ho, hl, hlast, hempty, hsize, hstart⟩ := hi
    refine ⟨hw, ho, hl, fun slot => ?_, fun slot => ?_, ?_, ?_⟩ <;> rw [hsame]
    · exact hlast slot
    · exact hempty slot
    · exact hsize
    · exact hstart
  · exact hi.copied hs hint h0 hname hc
  · exact hi.addBss hss hint hsint h0 hname hmax hs hc

theorem total_append (ss ts : List Scnhdr) : total (ss ++ ts) = total ss + total ts := by
  rw [total, List.map_append, List.sum_append, total, total]

theorem total_nonneg {ss : List Scnhdr} (hss : ∀ s ∈ ss, s.WellFormed) : 0 ≤ total ss :=
  List.sum_nonneg fun x hx => by
    obtain ⟨t, ht, rfl⟩ := List.mem_map.mp hx
    exact (hss t ht).1

/-- The loop keeps the invariant. -/
theorem Inv.copyAll {coff : File} : ∀ {ss rest : List Scnhdr} {c c' : Conversion},
    Inv coff ss c → (∀ s ∈ ss ++ rest, s.WellFormed) →
    (∀ s ∈ rest, IsInt s.sPaddr ∧ IsInt s.sSize) → total (named bssName (ss ++ rest)) ≤ intMax →
    Coff.copyAll coff c rest = some c' → Inv coff (ss ++ rest) c'
  | ss, [], c, c', hi, _, _, _, h => by
      obtain rfl := Option.some.inj h
      rwa [List.append_nil]
  | ss, s :: rest, c, c', hi, hwf, hint, hmax, h => by
      obtain ⟨c₁, h₁, h⟩ := Option.bind_eq_some_iff.mp h
      have hassoc : ss ++ s :: rest = (ss ++ [s]) ++ rest := by
        rw [List.append_assoc, List.singleton_append]
      rw [hassoc] at hwf hmax ⊢
      have hsplit : total (named bssName (ss ++ [s] ++ rest))
          = total (named bssName (ss ++ [s])) + total (named bssName rest) := by
        rw [named, List.filter_append, total_append, named, named]
      have hrest : 0 ≤ total (named bssName rest) :=
        total_nonneg fun t ht => hwf t (List.mem_append_right _ (mem_named.mp ht).1)
      have hs := hint s List.mem_cons_self
      refine Inv.copyAll (hi.copyOne (fun t ht => ?_) hs.1 hs.2 (hwf s ?_) (by omega) h₁) hwf
        (fun t ht => hint t (List.mem_cons_of_mem _ ht)) hmax h
      · exact hwf t (List.mem_append_left _ (List.mem_append_left _ ht))
      · exact List.mem_append_left _ (List.mem_append_right _ List.mem_cons_self)

theorem Inv.init (coff : File) (stack : List UInt8) (fdIn : Int) :
    Inv coff [] ⟨initialHeader stack, 52, fdIn, []⟩ := by
  refine ⟨?_, rfl, ?_, fun _ _ h => ?_, fun slot _ => ?_, rfl, fun _ h => ?_⟩
  · have hint : ∀ i, IsInt (NoffHeader.wordAt stack i) := fun i => isInt_wrap32 _
    simp only [initialHeader, NoffHeader.words, NoffHeader.ofBytes, NoffHeader.segmentAt,
      List.forall_mem_cons, hint, true_and]
    exact ⟨by decide, by decide, by decide, by decide, by decide,
      fun _ h => absurd h List.not_mem_nil⟩
  · change (52 : Int) + 0 ≤ intMax
    decide
  · cases h
  · cases slot <;> rfl
  · cases h

theorem isInt_of_mem_sections {coff : File} {s : Scnhdr} (h : s ∈ sections coff) :
    IsInt s.sPaddr ∧ IsInt s.sSize := by
  obtain ⟨i, -, rfl⟩ := List.mem_map.mp h
  exact ⟨isInt_wrap32 _, isInt_wrap32 _⟩

theorem main_eq_some {stack : List UInt8} {coff noff : File} (h : main stack coff = some noff) :
    ∃ fdIn c, copyAll coff ⟨initialHeader stack, 52, fdIn, []⟩ (sections coff) = some c
      ∧ noff = c.noffH.encode ++ c.fdOut := by
  obtain ⟨fileh, hfileh, h⟩ := Option.bind_eq_some_iff.mp h
  obtain ⟨rfl, -⟩ := read_eq_some (by decide) hfileh
  split at h
  next => cases h
  next =>
    obtain ⟨systemh, -, h⟩ := Option.bind_eq_some_iff.mp h
    split at h
    next => cases h
    next =>
      obtain ⟨table, htable, h⟩ := Option.bind_eq_some_iff.mp h
      obtain ⟨rfl, -⟩ := read_eq_some (by omega) htable
      obtain ⟨c, hc, rfl⟩ := Option.map_eq_some_iff.mp h
      exact ⟨_, c, hc, rfl⟩

end Coff

end Nachos
