import Nachos.LoadReads

/-!
# The image `Load` builds

What a program finds in its address space. Through the new page table the
frames form one memory, the address space (`virt`), and a `ReadAt` call that
stays inside a page is one store into it (`virt_write`); so the whole
copying part is a sequence of stores, and `image_reads` says which: code,
initialised data and read-only data, one behind the other from address 0.
Nothing in it depends on the virtual addresses of the header.

Without a code segment the loops lose the first page of what follows:
`image_initDataReads_of_no_code` and its companion.
-/

namespace Nachos

open CInt ByteMemory Machine

/-- A segment's bytes are in the file. -/
def Segment.InFile (segment : Segment) (file : File) : Prop :=
  0 < segment.size → 0 ≤ segment.inFileAddr ∧ segment.inFileAddr + segment.size ≤ file.length

namespace AddrSpace

/-! ## The address space as a memory -/

/-- The byte at each virtual address. -/
def virt (pageTable : List TranslationEntry) (m : Memory) : Memory := fun a =>
  match pageTable[(a / 128).toNat]? with
  | some entry => m (entry.physicalPage * 128 + a % 128)
  | none => 0

section

variable {n : Nat} {k k' : Frames} {pt : List TranslationEntry} (ha : Allocated 0 n k pt k')

include ha

theorem Allocated.getElem {i : Nat} (hi : i < n) :
    ∃ e, pt[i]? = some e ∧ e = newEntry i (frameOf e)
      ∧ frameOf e < k.gPhysPageBitMap.numBits := by
  have hlt : i < pt.length := by rw [ha.length]; exact hi
  have he : pt[i]? = some pt[i] := List.getElem?_eq_getElem hlt
  have hnew := ha.entry i _ he
  rw [Nat.zero_add] at hnew
  exact ⟨pt[i], he, hnew, ha.bound _ (List.getElem_mem hlt)⟩

theorem Allocated.frame_inj {i j : Nat} {e e' : TranslationEntry} (hi : pt[i]? = some e)
    (hj : pt[j]? = some e') (hf : frameOf e = frameOf e') : i = j := by
  have hlt : i < (pt.map frameOf).length := by
    rw [List.length_map]
    exact (List.getElem?_eq_some_iff.mp hi).1
  refine (List.getElem?_inj hlt ha.distinct).mp ?_
  rw [List.getElem?_map, List.getElem?_map, hi, hj, Option.map_some, Option.map_some, hf]

/-- Through the page table of a loaded program every address below
`numPages * PageSize` can be read. -/
theorem Allocated.byteAt_eq (hbits : k.gPhysPageBitMap.numBits = 128) (hn : n ≤ 128) (m : Memory)
    {a : Int} (hlo : 0 ≤ a) (hhi : a < 128 * n) : byteAt pt m a = some (virt pt m a) := by
  have hu : u32 a = a := u32_of_bounds hlo (by omega)
  have hvpn : vpn a = (a / 128).toNat := by rw [vpn, hu]
  have hoff : offset a = a % 128 := by rw [offset, hu]
  obtain ⟨e, he, hnew, hlt⟩ := ha.getElem (i := (a / 128).toNat) (by omega)
  have hpage : e.physicalPage = frameOf e := congrArg TranslationEntry.physicalPage hnew
  have hvalid : e.valid = true := congrArg TranslationEntry.valid hnew
  have hro : e.readOnly = false := congrArg TranslationEntry.readOnly hnew
  have hframe : pageFrame e = frameOf e := by
    rw [pageFrame, hpage]
    exact u32_of_bounds (by omega) (by omega)
  have htr : translate pt a 1 false
      = .ok (frameOf e * 128 + a % 128, pt.set (vpn a) (touch false e)) := by
    rw [Machine.translate, if_neg (by simp [misaligned]), hvpn, he]
    simp only [hvalid, hro, hframe, hoff, Bool.not_true, Bool.false_and, Bool.false_eq_true,
      if_false]
    rw [if_neg (by omega), if_pos (by omega)]
  rw [byteAt, htr, virt, he]
  simp only [hpage]

/-- A store inside a page, seen in the address space. -/
theorem Allocated.virt_write (m : Memory) {i : Nat} {e : TranslationEntry} (he : pt[i]? = some e)
    {o : Int} {bs : List UInt8} (ho : 0 ≤ o) (hfit : o + bs.length ≤ 128) {a : Int} (hlo : 0 ≤ a)
    (hhi : a < 128 * n) :
    virt pt (write m (e.physicalPage * 128 + o) bs) a = write (virt pt m) (128 * i + o) bs a := by
  obtain ⟨e', he', hnew', -⟩ := ha.getElem (i := (a / 128).toNat) (by omega)
  have hpage' : e'.physicalPage = frameOf e' := congrArg TranslationEntry.physicalPage hnew'
  have hlt : i < n := by
    rw [← ha.length]
    exact (List.getElem?_eq_some_iff.mp he).1
  obtain ⟨e₁, he₁, hnew, -⟩ := ha.getElem hlt
  obtain rfl := Option.some.inj (he.symm.trans he₁)
  have hpage : e.physicalPage = frameOf e := congrArg TranslationEntry.physicalPage hnew
  have hvirt : virt pt m a = m (e'.physicalPage * 128 + a % 128) := by rw [virt, he']
  rw [virt, he']
  simp only
  by_cases hia : a / 128 = i
  · have hee : e' = e := by
      refine Option.some.inj (he'.symm.trans ?_)
      rw [show (a / 128).toNat = i by omega, he]
    by_cases hin : 128 * (i : Int) + o ≤ a ∧ a < 128 * i + o + bs.length
    · rw [write_of_mem hin.1 hin.2, hee, write_of_mem (by omega) (by omega)]
      congr 1
      omega
    · rw [write_of_not_mem hin, hvirt, hee, write_of_not_mem (by omega)]
  · have hne : frameOf e' ≠ frameOf e := by
      intro hf
      have := ha.frame_inj he' he hf
      omega
    have hphys : write m (e.physicalPage * 128 + o) bs (e'.physicalPage * 128 + a % 128)
        = m (e'.physicalPage * 128 + a % 128) := write_of_not_mem (by omega)
    rw [hphys, write_of_not_mem (by omega), hvirt]

end

/-! ## Copying as stores into the address space -/

/-- The calls as stores into the address space. -/
def image (file : File) (calls : List ReadCall) (vm : Memory) : Memory :=
  calls.foldl (fun vm call =>
    write vm (128 * call.index + call.offset) (file.bytes call.position call.numBytes)) vm

@[simp] theorem image_nil (file : File) (vm : Memory) : image file [] vm = vm := rfl

@[simp] theorem image_cons (file : File) (call : ReadCall) (calls : List ReadCall) (vm : Memory) :
    image file (call :: calls) vm = image file calls
      (write vm (128 * call.index + call.offset) (file.bytes call.position call.numBytes)) :=
  rfl

theorem image_append (file : File) (calls calls' : List ReadCall) (vm : Memory) :
    image file (calls ++ calls') vm = image file calls' (image file calls vm) :=
  List.foldl_append

/-- Calls that stay inside their pages and seek to real positions are all
carried out, and build the image. -/
theorem Allocated.copy_image {n : Nat} {k k' : Frames} {pt : List TranslationEntry}
    (ha : Allocated 0 n k pt k') (file : File) {calls : List ReadCall}
    (hin : ∀ call ∈ calls, InPage n call) (hpos : ∀ call ∈ calls, 0 ≤ call.position)
    (m vm : Memory) (hvm : ∀ a : Int, 0 ≤ a → a < 128 * n → virt pt m a = vm a) :
    (copy 0 pt file calls m).outcome = .returnsTrue ∧
      ∀ a : Int, 0 ≤ a → a < 128 * n →
        virt pt (copy 0 pt file calls m).mainMemory a = image file calls vm a := by
  induction calls generalizing m vm with
  | nil => exact ⟨rfl, hvm⟩
  | cons call calls ih =>
      have hcall := hin call List.mem_cons_self
      obtain ⟨e, he, -⟩ := ha.getElem hcall.index
      have hread : file.readAt call.numBytes call.position
          = some (file.bytes call.position call.numBytes) := by
        have := hpos call List.mem_cons_self
        rw [File.readAt, if_neg (by omega)]
      have hlen := file.length_bytes_le call.position call.numBytes hcall.numBytes
      have hstep := ih (fun c hc => hin c (List.mem_cons_of_mem _ hc))
        (fun c hc => hpos c (List.mem_cons_of_mem _ hc))
        (write m (0 + e.physicalPage * 128 + call.offset)
          (file.bytes call.position call.numBytes))
        (write vm (128 * call.index + call.offset) (file.bytes call.position call.numBytes)) ?_
      · rw [copy, he]
        simp only [hread]
        exact hstep
      · intro a hlo hhi
        rw [Int.zero_add, ha.virt_write m he hcall.offset (by have := hcall.fits; omega) hlo hhi]
        by_cases hw : 128 * (call.index : Int) + call.offset ≤ a
            ∧ a < 128 * call.index + call.offset + (file.bytes call.position call.numBytes).length
        · rw [write_of_mem hw.1 hw.2, write_of_mem hw.1 hw.2]
        · rw [write_of_not_mem hw, write_of_not_mem hw, hvm a hlo hhi]

/-! ## The image of the loops -/

/-- The page behind `num` full ones. -/
theorem image_nextPage {file : File} (hfile : file.length ≤ 2147483647) (i num : Nat)
    {position size : Int} (hpos : 0 ≤ position) (hsize : 0 ≤ size)
    (hlen : position + 128 * num + size ≤ file.length) (vm : Memory) :
    image file [⟨i + num, 0, size, wrap32 (position + num * 128)⟩]
        (write vm (128 * i) (file.bytes position (128 * num)))
      = write vm (128 * i) (file.bytes position (128 * num + size)) := by
  have hwrap : wrap32 (position + (num : Int) * 128) = position + 128 * num := by
    rw [wrap32_of_bounds (by omega) (by omega)]
    omega
  have hlength : ((file.bytes position (128 * num)).length : Int) = 128 * num :=
    File.length_bytes hpos (by omega) (by omega)
  have haddr : 128 * ((i + num : Nat) : Int) + 0
      = 128 * i + (file.bytes position (128 * num)).length := by
    rw [hlength]
    push_cast
    ring
  rw [image_cons, image_nil, hwrap]
  simp only
  rw [haddr, write_append, File.bytes_append file hpos (by omega) hsize]

theorem image_fullPages {file : File} (hfile : file.length ≤ 2147483647) (i num : Nat)
    {position : Int} (hpos : 0 ≤ position) (hlen : position + 128 * num ≤ file.length)
    (vm : Memory) :
    image file ((List.range num).map fun j => ⟨i + j, 0, 128, wrap32 (position + j * 128)⟩) vm
      = write vm (128 * i) (file.bytes position (128 * num)) := by
  induction num with
  | zero => simp
  | succ num ih =>
      rw [List.range_succ, List.map_append, image_append, ih (by omega), List.map_singleton,
        image_nextPage hfile i num hpos (by decide) (by omega)]
      congr 2

/-- A page loop stores its bytes from the start of its first page on. -/
theorem image_pageReads {file : File} (hfile : file.length ≤ 2147483647) (i : Nat)
    {size position : Int} (hsize : 0 ≤ size) (hpos : 0 < size → 0 ≤ position)
    (hlen : 0 < size → position + size ≤ file.length) (vm : Memory) :
    image file (pageReads i (pageCount size) (lastPageSize size) position) vm
      = write vm (128 * i) (file.bytes position size) := by
  rcases eq_or_lt_of_le hsize with rfl | hgt
  · rw [show pageCount 0 = 0 by decide]
    simp [pageReads]
  · have hpos := hpos hgt
    have hlen := hlen hgt
    have hcount := pageCount_of_nonneg hsize (by omega)
    have hlast := lastPageSize_of_pos hgt (by omega)
    obtain ⟨q, hq⟩ : ∃ q, pageCount size = q + 1 := ⟨pageCount size - 1, by omega⟩
    have hfull : pageReads i (q + 1) (lastPageSize size) position
        = ((List.range q).map fun j => ⟨i + j, 0, 128, wrap32 (position + j * 128)⟩)
          ++ [⟨i + q, 0, lastPageSize size, wrap32 (position + q * 128)⟩] := by
      rw [pageReads, List.range_succ, List.map_append, List.map_singleton]
      congr 1
      · refine List.map_congr_left fun j hj => ?_
        rw [if_pos (by have := List.mem_range.mp hj; omega)]
      · rw [if_neg (by omega)]
    rw [hq, hfull, image_append, image_fullPages hfile i q hpos (by omega),
      image_nextPage hfile i q hpos (by omega) (by omega)]
    congr 2
    omega

/-- A block that starts in a page already begun stores its segment right
behind what is there. -/
theorem image_segmentReads_more {file : File} (hfile : file.length ≤ 2147483647) {i : Nat}
    (hi : 0 < i) (hi' : i ≤ 4294967295) {o : Int} (ho : 0 ≤ o) (ho' : o ≤ 128) {seg : Segment}
    (hpos : 0 < seg.size) (hseg : seg.InFile file) (vm : Memory) :
    image file (segmentReads i true o seg) vm
      = write vm (128 * (i - 1) + o) (file.bytes seg.inFileAddr seg.size) := by
  obtain ⟨hin, hlen⟩ := hseg hpos
  have hrest := restSize_of_nonneg ho' (n := seg.size) (by omega) (by omega)
  have hbounds := restSize_bounds ho' (n := seg.size) (by omega) (by omega)
  have hfirst : firstSize o seg.size = min (128 - o) seg.size := rfl
  have hpages := @image_pageReads file hfile i (restSize o seg.size)
    (seg.inFileAddr + firstSize o seg.size) hbounds.1 (by omega) (by omega)
  rw [segmentReads, image_append, hpages]
  by_cases h128 : o = 128
  · have hzero : firstSize o seg.size = 0 := by omega
    rw [if_neg (by simp [h128]), image_nil, hrest, hzero, h128]
    congr 1
    · ring
    · congr 1 <;> ring
  · have hindex : ((u32 ((i : Int) - 1)).toNat : Int) = i - 1 := by
      rw [u32_of_bounds (by omega) (by omega)]
      omega
    rw [if_pos ⟨h128, rfl⟩, image_cons, image_nil]
    simp only [hindex]
    by_cases hfits : seg.size ≤ 128 - o
    · have hall : firstSize o seg.size = seg.size := by omega
      have hnone : restSize o seg.size = 0 := by omega
      rw [hnone, File.bytes_zero, write_nil, hall]
    · have hpart : firstSize o seg.size = 128 - o := by omega
      have hlength : ((file.bytes seg.inFileAddr (firstSize o seg.size)).length : Int)
          = firstSize o seg.size := File.length_bytes hin (by omega) (by omega)
      have haddr : 128 * (i : Int) = 128 * (i - 1) + o
          + (file.bytes seg.inFileAddr (firstSize o seg.size)).length := by
        rw [hlength, hpart]
        ring
      rw [haddr, write_append, File.bytes_append file hin (by omega) (by omega), hrest]
      congr 2
      ring

/-- A block that does not fill up a page leaves out the bytes meant for
it. -/
theorem image_segmentReads_skip {file : File} (hfile : file.length ≤ 2147483647) (i : Nat)
    {o : Int} (ho' : o ≤ 128) {seg : Segment} (hpos : 0 < seg.size)
    (hseg : seg.InFile file) (vm : Memory) :
    image file (segmentReads i false o seg) vm
      = write vm (128 * i) (file.bytes (seg.inFileAddr + firstSize o seg.size)
          (seg.size - firstSize o seg.size)) := by
  obtain ⟨hin, hlen⟩ := hseg hpos
  have hrest := restSize_of_nonneg ho' (n := seg.size) (by omega) (by omega)
  have hbounds := restSize_bounds ho' (n := seg.size) (by omega) (by omega)
  have hfirst : firstSize o seg.size = min (128 - o) seg.size := rfl
  rw [segmentReads, image_append, if_neg (by simp), image_nil,
    image_pageReads hfile i hbounds.1 (by omega) (by omega), hrest]

/-! ## The image of a header -/

theorem length_bytes_segment {file : File} {seg : Segment} (hseg : seg.InFile file)
    (hsize : 0 ≤ seg.size) :
    ((file.bytes seg.inFileAddr seg.size).length : Int) = seg.size := by
  rcases eq_or_lt_of_le hsize with hzero | hgt
  · rw [← hzero, File.bytes_zero]
    rfl
  · exact File.length_bytes (hseg hgt).1 hsize (hseg hgt).2

/-- `ReadAt` returns the bytes asked for: every segment is in the file, and
the file is one a 32-bit host opens. -/
structure Readable (file : File) (noffH : NoffHeader) : Prop where
  length : file.length ≤ 2147483647
  code : noffH.code.InFile file
  initData : noffH.initData.InFile file
  readonlyData : noffH.readonlyData.InFile file

theorem Readable.position {file : File} {noffH : NoffHeader} (hf : Readable file noffH)
    {call : ReadCall} (h : call ∈ reads noffH) : 0 ≤ call.position := by
  have hlen := hf.length
  refine (asksWithin_reads (fun hgt => ?_) (fun hgt => ?_) (fun hgt => ?_)
    (fun hgt => (hf.code hgt).2) (fun hgt => (hf.initData hgt).2)
    (fun hgt => (hf.readonlyData hgt).2) h : AsksWithin file.length call).position
  · have := hf.code hgt
    omega
  · have := hf.initData hgt
    omega
  · have := hf.readonlyData hgt
    omega

section

variable {noffH : NoffHeader} {file : File} (hr : Regular noffH) (hf : Readable file noffH)

include hr hf

theorem image_codeReads (vm : Memory) :
    image file (codeReads noffH) vm
      = write vm 0 (file.bytes noffH.code.inFileAddr noffH.code.size) := by
  rw [codeReads]
  split
  next hgt =>
      rw [image_pageReads hf.length 0 hr.code (fun h => (hf.code h).1) (fun h => (hf.code h).2)]
      rfl
  next hle =>
      have := hr.code
      rw [show noffH.code.size = 0 by omega, File.bytes_zero, write_nil, image_nil]

/-- Behind a code segment the initialised data starts where the code ends. -/
theorem image_initDataReads (hcode : 0 < noffH.code.size) (vm : Memory) :
    image file (initDataReads noffH) vm
      = write vm noffH.code.size (file.bytes noffH.initData.inFileAddr noffH.initData.size) := by
  have hpages := hr.codePages_eq
  obtain ⟨hc, hd, hro, hu, ht⟩ := hr
  rw [initDataReads]
  split
  next hgt =>
      have hcount := pageCount_of_nonneg hc (by omega)
      have hlast := lastPageSize_of_pos hcode (by omega)
      have hbounds := lastPageSize_bounds hc (by omega)
      rw [decide_eq_true (by omega : 0 < pageCount noffH.code.size),
        image_segmentReads_more hf.length (by omega) (by omega) hbounds.1 hbounds.2 hgt hf.initData]
      congr 1
      omega
  next hle =>
      rw [show noffH.initData.size = 0 by omega, File.bytes_zero, write_nil, image_nil]

omit hr in
/-- Without a code segment the first page of the initialised data is left
out and the rest starts at address 0. -/
theorem image_initDataReads_of_no_code (hcode : noffH.code.size = 0)
    (hgt : 0 < noffH.initData.size) (vm : Memory) :
    image file (initDataReads noffH) vm
      = write vm 0 (file.bytes (noffH.initData.inFileAddr + min 128 noffH.initData.size)
          (noffH.initData.size - min 128 noffH.initData.size)) := by
  have hpages : codePages noffH = 0 := by
    rw [codePages, if_neg (by omega)]
  rw [initDataReads, if_pos hgt, hpages, hcode, lastPageSize_zero,
    decide_eq_false (by decide), image_segmentReads_skip hf.length 0 (by omega) hgt hf.initData]
  rfl

/-- With neither code nor initialised data the same happens to the read-only
data. -/
theorem image_readonlyDataReads_of_no_code (hcode : noffH.code.size = 0)
    (hdata : noffH.initData.size = 0) (hgt : 0 < noffH.readonlyData.size) (vm : Memory) :
    image file (readonlyDataReads noffH) vm
      = write vm 0 (file.bytes (noffH.readonlyData.inFileAddr + min 128 noffH.readonlyData.size)
          (noffH.readonlyData.size - min 128 noffH.readonlyData.size)) := by
  have hpages : dataPages noffH = 0 := by
    rw [dataPages, codePages, if_neg (by omega), if_neg (by omega)]
  have hoff : readonlyOffset noffH = 0 := by
    rw [hr.readonlyOffset_eq, hcode, hdata]
    exact lastPageSize_zero
  rw [readonlyDataReads, if_pos hgt, hpages, hoff, decide_eq_false (by decide),
    image_segmentReads_skip hf.length 0 (by omega) hgt hf.readonlyData]
  rfl

/-- The read-only data starts where the initialised data ends, if anything
has been copied by then. -/
theorem image_readonlyDataReads (hcode : 0 < noffH.code.size) (vm : Memory) :
    image file (readonlyDataReads noffH) vm
      = write vm (noffH.code.size + noffH.initData.size)
          (file.bytes noffH.readonlyData.inFileAddr noffH.readonlyData.size) := by
  have hpages := hr.dataPages_eq
  have hoff := hr.readonlyOffset_eq
  rw [if_pos hcode] at hpages
  obtain ⟨hc, hd, hro, hu, ht⟩ := hr
  rw [readonlyDataReads]
  split
  next hgt =>
      have hlast := lastPageSize_of_pos (n := noffH.code.size + noffH.initData.size) (by omega)
        (by omega)
      rw [decide_eq_true (by omega : 0 < dataPages noffH),
        image_segmentReads_more hf.length (by omega) (by omega) (by omega) (by omega) hgt
          hf.readonlyData]
      congr 1
      omega
  next hle =>
      rw [show noffH.readonlyData.size = 0 by omega, File.bytes_zero, write_nil, image_nil]

/-- The image of a header: its segments one behind the other, in the order
code, initialised data, read-only data. -/
theorem image_reads
    (hcode : noffH.code.size = 0 → noffH.initData.size = 0 ∧ noffH.readonlyData.size = 0)
    (vm : Memory) :
    image file (reads noffH) vm = write vm 0
      (file.bytes noffH.code.inFileAddr noffH.code.size
        ++ file.bytes noffH.initData.inFileAddr noffH.initData.size
        ++ file.bytes noffH.readonlyData.inFileAddr noffH.readonlyData.size) := by
  rw [reads, image_append, image_append, image_codeReads hr hf]
  rcases eq_or_lt_of_le hr.code with hzero | hgt
  · obtain ⟨hd, hro⟩ := hcode hzero.symm
    rw [initDataReads, if_neg (by omega), readonlyDataReads, if_neg (by omega), hd, hro,
      File.bytes_zero, File.bytes_zero, List.append_nil, List.append_nil, image_nil, image_nil]
  · have hlenc := length_bytes_segment hf.code hr.code
    have hlend := length_bytes_segment hf.initData hr.initData
    have haddr : noffH.code.size
        = 0 + ((file.bytes noffH.code.inFileAddr noffH.code.size).length : Int) := by omega
    rw [image_initDataReads hr hf hgt, image_readonlyDataReads hr hf hgt]
    nth_rewrite 2 [haddr]
    rw [write_append]
    have haddr' : noffH.code.size + noffH.initData.size
        = 0 + ((file.bytes noffH.code.inFileAddr noffH.code.size
            ++ file.bytes noffH.initData.inFileAddr noffH.initData.size).length : Int) := by
      rw [List.length_append]
      push_cast
      omega
    rw [haddr', write_append]

section

variable (hcode : noffH.code.size = 0 → noffH.initData.size = 0 ∧ noffH.readonlyData.size = 0)
  (vm : Memory) {i : Int} (hlo : 0 ≤ i)

include hcode

include hlo in
theorem some_image_code (hhi : i < noffH.code.size) :
    some (image file (reads noffH) vm i) = file[(noffH.code.inFileAddr + i).toNat]? := by
  have hlc := length_bytes_segment hf.code hr.code
  have hin := (hf.code (by omega)).1
  rw [image_reads hr hf hcode, List.append_assoc, ← write_append, write_of_not_mem (by omega),
    some_write hlo (by omega), Int.sub_zero, File.getElem?_bytes hin hlo hhi]

include hlo in
theorem some_image_initData (hhi : i < noffH.initData.size) :
    some (image file (reads noffH) vm (noffH.code.size + i))
      = file[(noffH.initData.inFileAddr + i).toNat]? := by
  have hlc := length_bytes_segment hf.code hr.code
  have hld := length_bytes_segment hf.initData hr.initData
  have hin := (hf.initData (by omega)).1
  have hat : noffH.code.size + i - (0 + noffH.code.size) = i := by omega
  rw [image_reads hr hf hcode, ← write_append, write_of_not_mem (by
      rw [List.length_append]; push_cast; omega), ← write_append, hlc,
    some_write (by omega) (by omega), hat, File.getElem?_bytes hin hlo hhi]

include hlo in
theorem some_image_readonlyData (hhi : i < noffH.readonlyData.size) :
    some (image file (reads noffH) vm (noffH.code.size + noffH.initData.size + i))
      = file[(noffH.readonlyData.inFileAddr + i).toNat]? := by
  have hlc := length_bytes_segment hf.code hr.code
  have hld := length_bytes_segment hf.initData hr.initData
  have hlr := length_bytes_segment hf.readonlyData hr.readonlyData
  have hin := (hf.readonlyData (by omega)).1
  have hlen : (((file.bytes noffH.code.inFileAddr noffH.code.size
      ++ file.bytes noffH.initData.inFileAddr noffH.initData.size).length : Nat) : Int)
      = noffH.code.size + noffH.initData.size := by
    rw [List.length_append]
    push_cast
    omega
  have hat : noffH.code.size + noffH.initData.size + i
      - (0 + (noffH.code.size + noffH.initData.size)) = i := by omega
  rw [image_reads hr hf hcode, ← write_append, hlen, some_write (by omega) (by omega), hat,
    File.getElem?_bytes hin hlo hhi]

theorem image_beyond {a : Int}
    (ha : noffH.code.size + noffH.initData.size + noffH.readonlyData.size ≤ a) :
    image file (reads noffH) vm a = vm a := by
  have hlc := length_bytes_segment hf.code hr.code
  have hld := length_bytes_segment hf.initData hr.initData
  have hlr := length_bytes_segment hf.readonlyData hr.readonlyData
  rw [image_reads hr hf hcode]
  refine write_of_not_mem ?_
  rw [List.length_append, List.length_append]
  push_cast
  omega

end

end

end AddrSpace

end Nachos
