import Nachos.LoadImage

/-!
# Segments at the addresses their header gives

Whether a program finds each of its segments at the address its header asks
for, and zeros elsewhere. The image is right exactly when the segments lie
in the order code, initialised data, read-only data without gaps, with a
code segment present (`load_image_iff`). The linker script of the repository
puts the read-only data second.

For one direction the image of a header is compared with what is asked for.
For the other a file tells the segments apart: `probeFile` has a stretch of
zeros and a stretch of ones, and a header takes one of its segments from the
ones, so that a byte says which segment it came from.
-/

namespace Nachos

open CInt ByteMemory Machine

namespace AddrSpace

/-! ## What the header asks for -/

/-- Where a segment lies in the address space. -/
structure Extent where
  virtualAddr : Int
  size : Int
deriving DecidableEq

/-- The address in the extent. -/
def Extent.Covers (s : Extent) (a : Int) : Prop := s.virtualAddr ≤ a ∧ a < s.virtualAddr + s.size

/-- No address is in both. -/
def Extent.Apart (s t : Extent) : Prop :=
  s.size = 0 ∨ t.size = 0 ∨ s.virtualAddr + s.size ≤ t.virtualAddr
    ∨ t.virtualAddr + t.size ≤ s.virtualAddr

instance (s t : Extent) : Decidable (s.Apart t) := inferInstanceAs (Decidable (_ ∨ _))

/-- The extents of a header's segments. -/
structure Layout where
  code : Extent
  initData : Extent
  readonlyData : Extent
  uninitData : Extent
deriving DecidableEq

/-- The extents a header gives. -/
def layoutOf (noffH : NoffHeader) : Layout where
  code := ⟨noffH.code.virtualAddr, noffH.code.size⟩
  initData := ⟨noffH.initData.virtualAddr, noffH.initData.size⟩
  readonlyData := ⟨noffH.readonlyData.virtualAddr, noffH.readonlyData.size⟩
  uninitData := ⟨noffH.uninitData.virtualAddr, noffH.uninitData.size⟩

namespace Layout

/-- The bytes of all segments. -/
def total (l : Layout) : Int :=
  l.code.size + l.readonlyData.size + l.initData.size + l.uninitData.size

/-- The segments in the order of the header. -/
def segments (l : Layout) : List Extent := [l.code, l.initData, l.readonlyData, l.uninitData]

/-- Segments that are pairwise disjoint and fill `[0, total)`, the code
segment first. -/
structure Tiled (l : Layout) : Prop where
  isInt : ∀ s ∈ l.segments, IsInt s.virtualAddr ∧ IsInt s.size
  nonneg : ∀ s ∈ l.segments, 0 ≤ s.size
  start : l.code.virtualAddr = 0
  inside : ∀ s ∈ l.segments, s.size = 0 ∨ 0 ≤ s.virtualAddr ∧ s.virtualAddr + s.size ≤ l.total
  apart : l.segments.Pairwise Extent.Apart

/-- The layouts `Load` is right about: those too big to load, and those that
continue the code with the initialised data and this with the read-only
data. -/
def InOrder (l : Layout) : Prop :=
  16384 < l.total + 1024
    ∨ (l.code.size = 0 → l.initData.size = 0 ∧ l.readonlyData.size = 0)
      ∧ (l.initData.size = 0 ∨ l.initData.virtualAddr = l.code.size)
      ∧ (l.readonlyData.size = 0 ∨ l.readonlyData.virtualAddr = l.code.size + l.initData.size)

end Layout

/-- The byte at `virtualAddr + k` is the byte of the file at
`inFileAddr + k`, for every byte of the segment. -/
def SegmentLoaded (segment : Segment) (file : File) (pt : List TranslationEntry) (m : Memory) :
    Prop :=
  ∀ k, 0 ≤ k → k < segment.size →
    byteAt pt m (segment.virtualAddr + k) = file[(segment.inFileAddr + k).toNat]?

/-- The address space a header describes: its three segments from the file,
and zeros elsewhere. -/
structure ImageOK (noffH : NoffHeader) (file : File) (pt : List TranslationEntry) (m : Memory) :
    Prop where
  code : SegmentLoaded noffH.code file pt m
  initData : SegmentLoaded noffH.initData file pt m
  readonlyData : SegmentLoaded noffH.readonlyData file pt m
  zero : ∀ a : Int, 0 ≤ a → a < 128 * pt.length → ¬(layoutOf noffH).code.Covers a →
    ¬(layoutOf noffH).initData.Covers a → ¬(layoutOf noffH).readonlyData.Covers a →
    byteAt pt m a = some 0

/-- Whenever `Load` returns `TRUE` on a file with the layout, whatever the
frames and the stack held, the image is the one its header asks for. -/
def Layout.Loads (l : Layout) : Prop :=
  ∀ (stack : List UInt8) (file : File) (k : Frames), k.gPhysPageBitMap.numBits = 128 →
    layoutOf (readHeader stack file) = l → Readable file (readHeader stack file) →
    (load stack (some file) k).outcome = .returnsTrue →
    ImageOK (readHeader stack file) file (load stack (some file) k).pageTable
      (load stack (some file) k).frames.mainMemory

/-! ## Headers too big to load -/

theorem index_of_copy_true {va : Int} {pt : List TranslationEntry} {file : File}
    {calls : List ReadCall} {m : Memory} (h : (copy va pt file calls m).outcome = .returnsTrue) :
    ∀ call ∈ calls, call.index < pt.length := by
  induction calls generalizing m with
  | nil => nofun
  | cons call calls ih =>
      rw [copy] at h
      cases he : pt[call.index]? with
      | none => rw [he] at h; cases h
      | some e =>
          rw [he] at h
          simp only at h
          cases hread : file.readAt call.numBytes call.position with
          | none => rw [hread] at h; cases h
          | some bytes =>
              rw [hread] at h
              intro c hc
              rcases List.mem_cons.mp hc with rfl | hc
              · exact (List.getElem?_eq_some_iff.mp he).1
              · exact ih h c hc

theorem exists_index_pageReads {i : Nat} {size last position : Int} (hlo : 16384 < size)
    (hhi : size ≤ 2147483647) :
    ∃ call ∈ pageReads i (pageCount size) last position, 128 ≤ call.index := by
  have hcount := pageCount_of_nonneg (n := size) (by omega) hhi
  exact ⟨_, List.mem_map.mpr ⟨128, List.mem_range.mpr (by omega), rfl⟩, Nat.le_add_left 128 i⟩

theorem exists_index_segmentReads {i : Nat} {more : Bool} {o : Int} (ho : -128 ≤ o)
    (ho' : o ≤ 128) {seg : Segment} (hlo : 16640 < seg.size) (hhi : seg.size ≤ 2147483647) :
    ∃ call ∈ segmentReads i more o seg, 128 ≤ call.index := by
  have hrest := restSize_of_nonneg ho' (n := seg.size) (by omega) hhi
  have hfirst : firstSize o seg.size = min (128 - o) seg.size := rfl
  obtain ⟨call, hmem, hidx⟩ := @exists_index_pageReads i (restSize o seg.size)
    (lastPageSize (restSize o seg.size)) (seg.inFileAddr + firstSize o seg.size) (by omega)
    (by omega)
  exact ⟨call, List.mem_append_right _ hmem, hidx⟩

theorem length_fill {file : File} {noffH : NoffHeader} {k : Frames} (had : Admitted noffH k) :
    (fill file noffH k).pageTable.length = numPages noffH :=
  (allocated 0 (numPages noffH) k had.free).length

theorem Layout.Tiled.size_bounds {l : Layout} (hl : l.Tiled) {s : Extent} (hs : s ∈ l.segments) :
    0 ≤ s.size ∧ s.size ≤ 2147483647 :=
  ⟨hl.nonneg s hs, (hl.isInt s hs).2.2⟩

/-- A layout bigger than the memory is never loaded: the size is refused, or
it overflowed and the copying runs past the page table. -/
theorem total_of_fill_true {file : File} {noffH : NoffHeader} {k : Frames}
    (hl : (layoutOf noffH).Tiled) (had : Admitted noffH k)
    (h : (fill file noffH k).outcome = .returnsTrue) : (layoutOf noffH).total + 1024 ≤ 16384 := by
  have hidx : ∀ call ∈ reads noffH, ¬128 ≤ call.index := by
    intro call hcall hge
    have hcopy : (copy noffH.code.virtualAddr (allocate 0 (numPages noffH) k).1 file (reads noffH)
      (allocate 0 (numPages noffH) k).2.mainMemory).outcome = .returnsTrue := h
    have hlt := index_of_copy_true hcopy call hcall
    rw [(allocated 0 (numPages noffH) k had.free).length] at hlt
    have := had.pages
    omega
  have hnum := numPages_eq noffH
  have hpages := had.pages
  have hc : 0 ≤ noffH.code.size ∧ noffH.code.size ≤ 2147483647 :=
    hl.size_bounds (s := (layoutOf noffH).code) (by simp [Layout.segments])
  have hd : 0 ≤ noffH.initData.size ∧ noffH.initData.size ≤ 2147483647 :=
    hl.size_bounds (s := (layoutOf noffH).initData) (by simp [Layout.segments])
  have hro : 0 ≤ noffH.readonlyData.size ∧ noffH.readonlyData.size ≤ 2147483647 :=
    hl.size_bounds (s := (layoutOf noffH).readonlyData) (by simp [Layout.segments])
  have hu : 0 ≤ noffH.uninitData.size ∧ noffH.uninitData.size ≤ 2147483647 :=
    hl.size_bounds (s := (layoutOf noffH).uninitData) (by simp [Layout.segments])
  -- a segment of more than a memory has a call beyond the last page
  have hcode : ¬16384 < noffH.code.size := by
    intro hbig
    obtain ⟨call, hmem, hge⟩ := @exists_index_pageReads 0 noffH.code.size
      (lastPageSize noffH.code.size) noffH.code.inFileAddr hbig hc.2
    refine hidx call (List.mem_append_left _ (List.mem_append_left _ ?_)) hge
    rw [codeReads, if_pos (by omega)]
    exact hmem
  have hdata : ¬16640 < noffH.initData.size := by
    intro hbig
    have hrange := lastPageSize_range noffH.code.size
    obtain ⟨call, hmem, hge⟩ := @exists_index_segmentReads (codePages noffH)
      (decide (0 < pageCount noffH.code.size)) _ hrange.1 hrange.2 _ hbig hd.2
    refine hidx call (List.mem_append_left _ (List.mem_append_right _ ?_)) hge
    rw [initDataReads, if_pos (by omega)]
    exact hmem
  have hread : ¬16640 < noffH.readonlyData.size := by
    intro hbig
    have hrange := lastPageSize_range (wrap32 (noffH.code.size + noffH.initData.size))
    obtain ⟨call, hmem, hge⟩ := @exists_index_segmentReads (dataPages noffH)
      (decide (0 < dataPages noffH)) _ hrange.1 hrange.2 _ hbig hro.2
    refine hidx call (List.mem_append_right _ ?_) hge
    rw [readonlyDataReads, if_pos (by omega)]
    exact hmem
  simp only [size, u32] at hnum
  simp only [Layout.total, layoutOf]
  omega

/-! ## The loaded image -/

section

variable {noffH : NoffHeader} {file : File} {k : Frames}

/-- `Load` behind its checks when the code starts at address 0. -/
theorem fill_of_start (file : File) (k : Frames) (hva : noffH.code.virtualAddr = 0) :
    fill file noffH k = ⟨(copy 0 (allocate 0 (numPages noffH) k).1 file (reads noffH)
        (allocate 0 (numPages noffH) k).2.mainMemory).outcome,
      ⟨(allocate 0 (numPages noffH) k).2.gPhysPageBitMap,
        (copy 0 (allocate 0 (numPages noffH) k).1 file (reads noffH)
          (allocate 0 (numPages noffH) k).2.mainMemory).mainMemory⟩,
      (allocate 0 (numPages noffH) k).1,
      (copy 0 (allocate 0 (numPages noffH) k).1 file (reads noffH)
        (allocate 0 (numPages noffH) k).2.mainMemory).writes⟩ := by
  rw [fill, hva]

/-- What a readable header whose calls stay inside its pages leaves in its
address space. -/
theorem fill_byteAt_of_inPage (hin : ∀ call ∈ reads noffH, InPage (numPages noffH) call)
    (hf : Readable file noffH) (hva : noffH.code.virtualAddr = 0) (had : Admitted noffH k)
    (hbits : k.gPhysPageBitMap.numBits = 128) :
    (fill file noffH k).outcome = .returnsTrue ∧ ∀ a : Int, 0 ≤ a → a < 128 * numPages noffH →
      byteAt (fill file noffH k).pageTable (fill file noffH k).frames.mainMemory a
        = some (image file (reads noffH) (fun _ => 0) a) := by
  have hal := allocated 0 (numPages noffH) k had.free
  have hzero : ∀ a : Int, 0 ≤ a → a < 128 * numPages noffH →
      virt (allocate 0 (numPages noffH) k).1 (allocate 0 (numPages noffH) k).2.mainMemory a
        = (fun _ => 0 : Memory) a := by
    intro a hlo hhi
    obtain ⟨e, he, hnew, -⟩ := hal.getElem (i := (a / 128).toNat) (by omega)
    have hpage : e.physicalPage = frameOf e := congrArg TranslationEntry.physicalPage hnew
    rw [virt, he]
    exact hal.zeroed e (List.mem_of_getElem? he) _ (by omega)
  obtain ⟨htrue, himage⟩ := hal.copy_image file hin (fun _ hcall => hf.position hcall) _ _ hzero
  rw [fill_of_start file k hva]
  refine ⟨htrue, fun a hlo hhi => ?_⟩
  rw [hal.byteAt_eq hbits had.pages _ hlo hhi, himage a hlo hhi]

theorem Layout.Tiled.regular (hl : (layoutOf noffH).Tiled)
    (ht : (layoutOf noffH).total + 1024 ≤ 16384) : Regular noffH := by
  have hpos := fun s hs => hl.nonneg s hs
  have hc : 0 ≤ noffH.code.size := hpos (layoutOf noffH).code (by simp [Layout.segments])
  have hd : 0 ≤ noffH.initData.size := hpos (layoutOf noffH).initData (by simp [Layout.segments])
  have hro : 0 ≤ noffH.readonlyData.size :=
    hpos (layoutOf noffH).readonlyData (by simp [Layout.segments])
  have hu : 0 ≤ noffH.uninitData.size :=
    hpos (layoutOf noffH).uninitData (by simp [Layout.segments])
  simp only [Layout.total, layoutOf] at ht
  exact ⟨hc, hd, hro, hu, by omega⟩

/-- Segments in the order `Load` copies them are loaded where they belong. -/
theorem imageOK_of_inOrder (hr : Regular noffH) (hf : Readable file noffH)
    (hva : noffH.code.virtualAddr = 0) (had : Admitted noffH k)
    (hbits : k.gPhysPageBitMap.numBits = 128)
    (hcode : noffH.code.size = 0 → noffH.initData.size = 0 ∧ noffH.readonlyData.size = 0)
    (hdata : noffH.initData.size = 0 ∨ noffH.initData.virtualAddr = noffH.code.size)
    (hread : noffH.readonlyData.size = 0
      ∨ noffH.readonlyData.virtualAddr = noffH.code.size + noffH.initData.size) :
    ImageOK noffH file (fill file noffH k).pageTable (fill file noffH k).frames.mainMemory := by
  obtain ⟨-, hbyte⟩ := fill_byteAt_of_inPage (fun _ => hr.inPage) hf hva had hbits
  have hlen : (fill file noffH k).pageTable.length = numPages noffH := length_fill had
  have hnum := numPages_eq noffH
  rw [hr.size_eq] at hnum
  have hc := hr.code
  have hd := hr.initData
  have hro := hr.readonlyData
  have hu := hr.uninitData
  refine ⟨fun i hlo hhi => ?_, fun i hlo hhi => ?_, fun i hlo hhi => ?_, ?_⟩
  · rw [hva, Int.zero_add, hbyte i hlo (by omega), some_image_code hr hf hcode _ hlo hhi]
  · have hva' : noffH.initData.virtualAddr = noffH.code.size := by omega
    rw [hva', hbyte _ (by omega) (by omega), some_image_initData hr hf hcode _ hlo hhi]
  · have hva' : noffH.readonlyData.virtualAddr = noffH.code.size + noffH.initData.size := by omega
    rw [hva', hbyte _ (by omega) (by omega), some_image_readonlyData hr hf hcode _ hlo hhi]
  · intro a hlo hhi hnc hnd hnr
    simp only [Extent.Covers, layoutOf] at hnc hnd hnr
    rw [hbyte a hlo (by omega), image_beyond hr hf hcode _ (by omega)]

end

/-! ## Telling the segments apart -/

/-- A header with the given layout whose initialised and read-only data are
taken from the given places. -/
def probe (l : Layout) (dataAt readAt : Int) : NoffHeader where
  noffMagic := noffMagic
  code := ⟨l.code.virtualAddr, 52, l.code.size⟩
  initData := ⟨l.initData.virtualAddr, dataAt, l.initData.size⟩
  readonlyData := ⟨l.readonlyData.virtualAddr, readAt, l.readonlyData.size⟩
  uninitData := ⟨l.uninitData.virtualAddr, 52, l.uninitData.size⟩

/-- A file with a stretch of zeros at 52 and a stretch of ones at 16436. -/
def probeFile (noffH : NoffHeader) : File :=
  noffH.encode ++ (List.replicate 16384 0 ++ List.replicate 16384 1)

/-- The machine before any program is loaded. -/
def freshFrames : Frames := ⟨Bitmap.new 128, fun _ => 0⟩

theorem length_probeFile (noffH : NoffHeader) : (probeFile noffH).length = 32820 := by
  rw [probeFile, List.length_append, List.length_append, List.length_replicate,
    List.length_replicate, noffH.length_encode]

theorem getElem?_probeFile_zero (noffH : NoffHeader) {i : Nat} (hlo : 52 ≤ i) (hhi : i < 16436) :
    (probeFile noffH)[i]? = some 0 := by
  rw [probeFile, List.getElem?_append_right (by rw [noffH.length_encode]; exact hlo),
    List.getElem?_append_left (by rw [noffH.length_encode, List.length_replicate]; omega),
    List.getElem?_replicate, if_pos (by rw [noffH.length_encode]; omega)]

theorem getElem?_probeFile_one (noffH : NoffHeader) {i : Nat} (hlo : 16436 ≤ i) (hhi : i < 32820) :
    (probeFile noffH)[i]? = some 1 := by
  rw [probeFile, List.getElem?_append_right (by rw [noffH.length_encode]; omega),
    List.getElem?_append_right (by rw [noffH.length_encode, List.length_replicate]; omega),
    List.getElem?_replicate,
    if_pos (by rw [noffH.length_encode, List.length_replicate]; omega)]

theorem bytes_probeFile_zero (noffH : NoffHeader) {p s : Int} (hlo : 52 ≤ p) (hhi : p + s ≤ 16436) :
    ∀ b ∈ (probeFile noffH).bytes p s, b = 0 := by
  intro b hb
  obtain ⟨i, hi, rfl⟩ := List.mem_iff_getElem.mp hb
  have hlen : i < s.toNat := by
    rw [File.bytes, List.length_take] at hi
    omega
  have hget := @File.getElem?_bytes (probeFile noffH) p s i (by omega) (by omega) (by omega)
  rw [Int.toNat_natCast, List.getElem?_eq_getElem hi,
    getElem?_probeFile_zero noffH (by omega) (by omega)] at hget
  exact Option.some.inj hget

section

variable {l : Layout} {dataAt readAt : Int} (hl : l.Tiled) (ht : l.total + 1024 ≤ 16384)
  (hd : dataAt = 52 ∨ dataAt = 16436) (hr : readAt = 52 ∨ readAt = 16436)

include hl hd hr

theorem probe_isInt : ∀ w ∈ (probe l dataAt readAt).words, IsInt w := by
  have hc := hl.isInt l.code (by simp [Layout.segments])
  have hi := hl.isInt l.initData (by simp [Layout.segments])
  have hro := hl.isInt l.readonlyData (by simp [Layout.segments])
  have hu := hl.isInt l.uninitData (by simp [Layout.segments])
  have hdi : IsInt dataAt := by rcases hd with rfl | rfl <;> decide
  have hri : IsInt readAt := by rcases hr with rfl | rfl <;> decide
  have hat : IsInt 52 := by decide
  have hmagic : IsInt noffMagic := by decide
  intro w hw
  simp only [NoffHeader.words, probe, List.mem_cons, List.not_mem_nil, or_false] at hw
  rcases hw with rfl | rfl | rfl | rfl | rfl | rfl | rfl | rfl | rfl | rfl | rfl | rfl | rfl
  exacts [hmagic, hc.1, hat, hc.2, hi.1, hdi, hi.2, hro.1, hri, hro.2, hu.1, hat, hu.2]

include ht

theorem probe_readable : Readable (probeFile (probe l dataAt readAt)) (probe l dataAt readAt) := by
  have hreg : Regular (probe l dataAt readAt) :=
    @Layout.Tiled.regular (probe l dataAt readAt) hl ht
  have hlen := length_probeFile (probe l dataAt readAt)
  obtain ⟨hc, hi, hro, hu, -⟩ := hreg
  simp only [Layout.total] at ht
  simp only [probe] at hc hi hro hu
  refine ⟨by omega, fun _ => ?_, fun _ => ?_, fun _ => ?_⟩ <;>
    (rw [hlen]; simp only [probe]; omega)

omit hd hr in
theorem probe_admitted : Admitted (probe l dataAt readAt) freshFrames := by
  have hreg : Regular (probe l dataAt readAt) :=
    @Layout.Tiled.regular (probe l dataAt readAt) hl ht
  have hnum := numPages_eq (probe l dataAt readAt)
  rw [hreg.size_eq] at hnum
  simp only [Layout.total] at ht
  simp only [probe] at hnum
  have hclear : freshFrames.gPhysPageBitMap.numClear = 128 := Bitmap.numClear_new 128
  have hle : numPages (probe l dataAt readAt) ≤ 128 := by
    simp only [probe]
    omega
  exact ⟨rfl, hle, by rw [hclear]; exact hle⟩

/-- What the layout being right about every file says of the stores the probe
makes. -/
theorem Layout.Loads.probe (hloads : l.Loads) :
    let noffH := probe l dataAt readAt
    let vm := image (probeFile noffH) (reads noffH) fun _ => 0
    (∀ i, 0 ≤ i → i < l.initData.size →
      some (vm (l.initData.virtualAddr + i)) = (probeFile noffH)[(dataAt + i).toNat]?)
    ∧ (∀ i, 0 ≤ i → i < l.readonlyData.size →
      some (vm (l.readonlyData.virtualAddr + i)) = (probeFile noffH)[(readAt + i).toNat]?)
    ∧ ∀ a : Int, 0 ≤ a → a < l.total → ¬l.code.Covers a → ¬l.initData.Covers a →
      ¬l.readonlyData.Covers a → vm a = 0 := by
  intro noffH vm
  have hreg : Regular noffH := @Layout.Tiled.regular noffH hl ht
  have hread : Readable (probeFile noffH) noffH := probe_readable hl ht hd hr
  have had : Admitted noffH freshFrames := probe_admitted hl ht
  have hheader : readHeader [] (probeFile noffH) = noffH :=
    readHeader_encode [] noffH _ (probe_isInt hl hd hr)
  obtain ⟨htrue, hbyte⟩ :=
    fill_byteAt_of_inPage (fun _ => hreg.inPage) hread hl.start had rfl
  have hload : load [] (some (probeFile noffH)) freshFrames
      = fill (probeFile noffH) noffH freshFrames := by
    have := @load_of_admitted [] (probeFile noffH) freshFrames
      (by rw [hheader]; exact had)
    rwa [hheader] at this
  have hok := hloads [] (probeFile noffH) freshFrames rfl (by rw [hheader]; rfl)
    (by rw [hheader]; exact hread) (by rw [hload]; exact htrue)
  rw [hheader, hload] at hok
  have hnum := numPages_eq noffH
  rw [hreg.size_eq] at hnum
  have htotal : l.total ≤ 128 * numPages noffH := by
    simp only [Layout.total]
    simp only [noffH, AddrSpace.probe] at hnum ⊢
    omega
  refine ⟨fun i hlo hhi => ?_, fun i hlo hhi => ?_, fun a hlo hhi hc hi hro => ?_⟩
  · have hin := hl.inside l.initData (by simp [Layout.segments])
    have := hok.initData i hlo hhi
    rw [← hbyte _ (by omega) (by omega)]
    exact this
  · have hin := hl.inside l.readonlyData (by simp [Layout.segments])
    have := hok.readonlyData i hlo hhi
    rw [← hbyte _ (by omega) (by omega)]
    exact this
  · have := hok.zero a hlo (by rw [length_fill had]; omega) hc hi hro
    rw [hbyte a hlo (by omega)] at this
    exact Option.some.inj this

end

section

variable {l : Layout} (hl : l.Tiled) (ht : l.total + 1024 ≤ 16384)

include hl ht

theorem probe_regular (dataAt readAt : Int) : Regular (probe l dataAt readAt) :=
  @Layout.Tiled.regular (probe l dataAt readAt) hl ht

theorem initData_le : l.initData.size ≤ 15360 := by
  obtain ⟨hc, hd, hro, hu, -⟩ := probe_regular hl ht 52 52
  simp only [Layout.total] at ht
  simp only [probe] at hc hd hro hu
  omega

theorem readonlyData_le : l.readonlyData.size ≤ 15360 := by
  obtain ⟨hc, hd, hro, hu, -⟩ := probe_regular hl ht 52 52
  simp only [Layout.total] at ht
  simp only [probe] at hc hd hro hu
  omega

/-- Read-only data taken from the zeros leaves zeros. -/
theorem image_readonlyDataReads_zero {dataAt : Int} (hd : dataAt = 52 ∨ dataAt = 16436)
    {vm : Memory} {a : Int} (ha : vm a = 0) :
    image (probeFile (probe l dataAt 52)) (readonlyDataReads (probe l dataAt 52)) vm a = 0 := by
  have hreg := probe_regular hl ht dataAt 52
  have hf := probe_readable hl ht hd (Or.inl rfl : (52 : Int) = 52 ∨ (52 : Int) = 16436)
  have hpages := hreg.dataPages_eq
  have hoff := hreg.readonlyOffset_eq
  obtain ⟨hc, hi, hro, hu, htot⟩ := hreg
  have hsmall : (probe l dataAt 52).readonlyData.size ≤ 16384 := by
    simp only [Layout.total] at ht
    simp only [probe] at hc hi hro hu ⊢
    omega
  have hat : (probe l dataAt 52).readonlyData.inFileAddr = 52 := rfl
  have hlast := lastPageSize_bounds (n := (probe l dataAt 52).code.size
    + (probe l dataAt 52).initData.size) (by omega) (by omega)
  generalize hh : probe l dataAt 52 = noffH at *
  rw [readonlyDataReads]
  split
  next hgt =>
      by_cases hmore : 0 < dataPages noffH
      · rw [decide_eq_true hmore, image_segmentReads_more hf.length hmore
          (by split at hpages <;> omega) (by omega) (by omega) hgt hf.readonlyData]
        exact write_eq_zero (bytes_probeFile_zero noffH (by omega) (by omega)) ha
      · have hfirst : firstSize (readonlyOffset noffH) noffH.readonlyData.size
            = min (128 - readonlyOffset noffH) noffH.readonlyData.size := rfl
        rw [decide_eq_false hmore, image_segmentReads_skip hf.length _ (by omega) hgt
          hf.readonlyData]
        exact write_eq_zero (bytes_probeFile_zero noffH (by omega) (by omega)) ha
  next => exact ha

/-- Without a code segment there must be no initialised data: its last byte
would be missing. -/
theorem initData_of_loads (hloads : l.Loads) (hc : l.code.size = 0) : l.initData.size = 0 := by
  by_contra hne
  have hreg := probe_regular hl ht 16436 52
  have hf := probe_readable hl ht (Or.inr rfl) (Or.inl rfl)
  obtain ⟨hdata, -, -⟩ := hloads.probe hl ht (Or.inr rfl) (Or.inl rfl)
  have hin := hl.inside l.initData (by simp [Layout.segments])
  have hbig := initData_le hl ht
  have hnonneg := hl.nonneg l.initData (by simp [Layout.segments])
  have hsize : (probe l 16436 52).initData.size = l.initData.size := rfl
  have hcode : (probe l 16436 52).code.size = 0 := hc
  have hzero : image (probeFile (probe l 16436 52)) (reads (probe l 16436 52)) (fun _ => 0)
      (l.initData.virtualAddr + (l.initData.size - 1)) = 0 := by
    rw [reads, image_append, image_append, image_codeReads hreg hf, hcode, File.bytes_zero,
      write_nil, image_initDataReads_of_no_code hf hcode (by omega)]
    refine image_readonlyDataReads_zero hl ht (Or.inr rfl) (write_of_not_mem ?_)
    have hlen := (probeFile (probe l 16436 52)).length_bytes_le
      ((probe l 16436 52).initData.inFileAddr + min 128 (probe l 16436 52).initData.size)
      ((probe l 16436 52).initData.size - min 128 (probe l 16436 52).initData.size)
      (by omega)
    omega
  have hone := hdata (l.initData.size - 1) (by omega) (by omega)
  rw [hzero, getElem?_probeFile_one _ (by omega) (by omega)] at hone
  exact absurd (Option.some.inj hone) (by decide)

/-- Nor any read-only data. -/
theorem readonlyData_of_loads (hloads : l.Loads) (hc : l.code.size = 0) :
    l.readonlyData.size = 0 := by
  by_contra hne
  have hd := initData_of_loads hl ht hloads hc
  have hreg := probe_regular hl ht 52 16436
  have hf := probe_readable hl ht (Or.inl rfl) (Or.inr rfl)
  obtain ⟨-, hread, -⟩ := hloads.probe hl ht (Or.inl rfl) (Or.inr rfl)
  have hin := hl.inside l.readonlyData (by simp [Layout.segments])
  have hbig := readonlyData_le hl ht
  have hnonneg := hl.nonneg l.readonlyData (by simp [Layout.segments])
  have hsize : (probe l 52 16436).readonlyData.size = l.readonlyData.size := rfl
  have hcode : (probe l 52 16436).code.size = 0 := hc
  have hdata : (probe l 52 16436).initData.size = 0 := hd
  have hzero : image (probeFile (probe l 52 16436)) (reads (probe l 52 16436)) (fun _ => 0)
      (l.readonlyData.virtualAddr + (l.readonlyData.size - 1)) = 0 := by
    rw [reads, image_append, image_append, image_codeReads hreg hf, hcode, File.bytes_zero,
      write_nil, initDataReads, if_neg (by omega), image_nil,
      image_readonlyDataReads_of_no_code hreg hf hcode hdata (by omega)]
    refine write_of_not_mem ?_
    have hlen := (probeFile (probe l 52 16436)).length_bytes_le
      ((probe l 52 16436).readonlyData.inFileAddr + min 128 (probe l 52 16436).readonlyData.size)
      ((probe l 52 16436).readonlyData.size
        - min 128 (probe l 52 16436).readonlyData.size)
      (by omega)
    omega
  have hone := hread (l.readonlyData.size - 1) (by omega) (by omega)
  rw [hzero, getElem?_probeFile_one _ (by omega) (by omega)] at hone
  exact absurd (Option.some.inj hone) (by decide)

/-- Behind code, initialised data that is not next would be found at the end
of the code all the same. -/
theorem initData_virtualAddr_of_loads (hloads : l.Loads) (hc : 0 < l.code.size)
    (hd : 0 < l.initData.size) : l.initData.virtualAddr = l.code.size := by
  by_contra hne
  have hreg := probe_regular hl ht 16436 52
  have hf := probe_readable hl ht (Or.inr rfl) (Or.inl rfl)
  obtain ⟨-, hread, hzero⟩ := hloads.probe hl ht (Or.inr rfl) (Or.inl rfl)
  have hone := some_image_initData hreg hf (fun h => absurd h (by simp only [probe]; omega))
    (fun _ => 0) le_rfl hd
  have hcsize : (probe l 16436 52).code.size = l.code.size := rfl
  have hdat : (probe l 16436 52).initData.inFileAddr = 16436 := rfl
  rw [Int.add_zero, hcsize, getElem?_probeFile_one _ (by omega) (by omega)] at hone
  have hin := hl.inside l.initData (by simp [Layout.segments])
  have hapart : l.code.Apart l.initData := (List.pairwise_cons.mp hl.apart).1 _ (by simp)
  have hstart := hl.start
  have hnr := hl.nonneg l.readonlyData (by simp [Layout.segments])
  have hnu := hl.nonneg l.uninitData (by simp [Layout.segments])
  simp only [Extent.Apart] at hapart
  by_cases hcov : l.readonlyData.Covers l.code.size
  · have hro := hread (l.code.size - l.readonlyData.virtualAddr)
      (by have := hcov.1; omega) (by have := hcov.2; omega)
    have hle := readonlyData_le hl ht
    have hcov' := hcov.2
    rw [show l.readonlyData.virtualAddr + (l.code.size - l.readonlyData.virtualAddr)
      = l.code.size by omega, hone, getElem?_probeFile_zero _ (by have := hcov.1; omega)
      (by omega)] at hro
    exact absurd (Option.some.inj hro) (by decide)
  · have hz := hzero l.code.size (by omega) (by simp only [Layout.total]; omega)
      (fun h => by have := h.2; omega) (fun h => by have := h.1; omega) hcov
    rw [hz] at hone
    exact absurd (Option.some.inj hone) (by decide)

/-- Likewise for the read-only data behind both. -/
theorem readonlyData_virtualAddr_of_loads (hloads : l.Loads) (hc : 0 < l.code.size)
    (hr : 0 < l.readonlyData.size) :
    l.readonlyData.virtualAddr = l.code.size + l.initData.size := by
  by_contra hne
  have hreg := probe_regular hl ht 52 16436
  have hf := probe_readable hl ht (Or.inl rfl) (Or.inr rfl)
  obtain ⟨hdata, hread, hzero⟩ := hloads.probe hl ht (Or.inl rfl) (Or.inr rfl)
  have hcode : (probe l 52 16436).code.size = 0 → (probe l 52 16436).initData.size = 0
      ∧ (probe l 52 16436).readonlyData.size = 0 :=
    fun h => absurd h (by simp only [probe]; omega)
  have hcsize : (probe l 52 16436).code.size = l.code.size := rfl
  have hdsize : (probe l 52 16436).initData.size = l.initData.size := rfl
  have hcat : (probe l 52 16436).code.inFileAddr = 52 := rfl
  have hdat : (probe l 52 16436).initData.inFileAddr = 52 := rfl
  have hrat : (probe l 52 16436).readonlyData.inFileAddr = 16436 := rfl
  have hin := hl.inside l.readonlyData (by simp [Layout.segments])
  have hnd := hl.nonneg l.initData (by simp [Layout.segments])
  have hnu := hl.nonneg l.uninitData (by simp [Layout.segments])
  have hstart := hl.start
  have hdle := initData_le hl ht
  have hcle : l.code.size ≤ 15360 := by
    simp only [Layout.total] at ht
    omega
  rcases lt_or_gt_of_ne hne with hlt | hgt
  · -- the first byte of the segment is still code or initialised data
    have hone := hread 0 le_rfl hr
    rw [getElem?_probeFile_one _ (by omega) (by omega), Int.add_zero] at hone
    by_cases hin' : l.readonlyData.virtualAddr < l.code.size
    · have hz := some_image_code hreg hf hcode (fun _ => 0)
        (i := l.readonlyData.virtualAddr) (by omega) (by omega)
      rw [hone, getElem?_probeFile_zero _ (by omega) (by omega)] at hz
      exact absurd (Option.some.inj hz) (by decide)
    · have hz := some_image_initData hreg hf hcode (fun _ => 0)
        (i := l.readonlyData.virtualAddr - l.code.size) (by omega) (by omega)
      rw [hcsize, show l.code.size + (l.readonlyData.virtualAddr - l.code.size)
        = l.readonlyData.virtualAddr by omega, hone,
        getElem?_probeFile_zero _ (by omega) (by omega)] at hz
      exact absurd (Option.some.inj hz) (by decide)
  · -- it is found before its first byte
    have hone := some_image_readonlyData hreg hf hcode (fun _ => 0) le_rfl hr
    rw [Int.add_zero, hcsize, hdsize, getElem?_probeFile_one _ (by omega) (by omega)] at hone
    by_cases hcov : l.initData.Covers (l.code.size + l.initData.size)
    · have hlo := hcov.1
      have hhi := hcov.2
      have hz := hdata (l.code.size + l.initData.size - l.initData.virtualAddr) (by omega)
        (by omega)
      rw [show l.initData.virtualAddr + (l.code.size + l.initData.size - l.initData.virtualAddr)
        = l.code.size + l.initData.size by omega, hone,
        getElem?_probeFile_zero _ (by omega) (by omega)] at hz
      exact absurd (Option.some.inj hz) (by decide)
    · have hz := hzero (l.code.size + l.initData.size) (by omega)
        (by simp only [Layout.total]; omega) (fun h => by have := h.2; omega) hcov
        (fun h => by have := h.1; omega)
      rw [hz] at hone
      exact absurd (Option.some.inj hone) (by decide)

end

/-! ## When the image is right -/

/-- `Load` builds the image a header asks for exactly when it lists its
segments in the order the loader copies them. -/
theorem load_image_iff (l : Layout) (hl : l.Tiled) : l.Loads ↔ l.InOrder := by
  constructor
  · intro hloads
    by_cases ht : 16384 < l.total + 1024
    · exact Or.inl ht
    · have ht' : l.total + 1024 ≤ 16384 := by omega
      have hc := hl.nonneg l.code (by simp [Layout.segments])
      have hd := hl.nonneg l.initData (by simp [Layout.segments])
      have hr := hl.nonneg l.readonlyData (by simp [Layout.segments])
      have hnone : l.code.size = 0 → l.initData.size = 0 ∧ l.readonlyData.size = 0 :=
        fun hz => ⟨initData_of_loads hl ht' hloads hz, readonlyData_of_loads hl ht' hloads hz⟩
      refine Or.inr ⟨hnone, ?_, ?_⟩
      · rcases eq_or_lt_of_le hd with hz | hgt
        · exact Or.inl hz.symm
        · have hcode : 0 < l.code.size :=
            lt_of_le_of_ne hc fun hz => by have := (hnone hz.symm).1; omega
          exact Or.inr (initData_virtualAddr_of_loads hl ht' hloads hcode hgt)
      · rcases eq_or_lt_of_le hr with hz | hgt
        · exact Or.inl hz.symm
        · have hcode : 0 < l.code.size :=
            lt_of_le_of_ne hc fun hz => by have := (hnone hz.symm).2; omega
          exact Or.inr (readonlyData_virtualAddr_of_loads hl ht' hloads hcode hgt)
  · intro hord stack file k hbits hlay hf htrue
    have had := admitted_of_true htrue
    rw [load_of_admitted had] at htrue ⊢
    subst hlay
    have ht := total_of_fill_true hl had htrue
    rcases hord with hbig | ⟨hcode, hdata, hread⟩
    · omega
    · exact imageOK_of_inOrder (hl.regular ht) hf hl.start had hbits hcode hdata hread

/-- Code, initialised data and read-only data in the order `Load` copies
them, then zeroed data. -/
def orderedLayout : Layout where
  code := ⟨0, 200⟩
  initData := ⟨200, 100⟩
  readonlyData := ⟨300, 50⟩
  uninitData := ⟨350, 30⟩

theorem load_image_ordered : orderedLayout.Loads :=
  (load_image_iff orderedLayout ⟨by decide, by decide, rfl, by decide, by decide⟩).mpr
    (Or.inr ⟨by decide, by decide, by decide⟩)

/-- A program of four bytes a segment as the linker script of the repository
lays it out: the read-only data behind the code. -/
def linkedHeader : NoffHeader where
  noffMagic := noffMagic
  code := ⟨0, 52, 4⟩
  initData := ⟨8, 60, 4⟩
  readonlyData := ⟨4, 56, 4⟩
  uninitData := ⟨12, 64, 0⟩

/-- Code of ones, read-only data of twos, initialised data of threes. -/
def linkedFile : File := linkedHeader.encode ++ [1, 1, 1, 1, 2, 2, 2, 2, 3, 3, 3, 3]

/-- The program finds its initialised data where its read-only data should
be. -/
theorem load_swaps_linked_segments :
    readHeader [] linkedFile = linkedHeader ∧ (layoutOf linkedHeader).Tiled
      ∧ Readable linkedFile linkedHeader
      ∧ (load [] (some linkedFile) freshFrames).outcome = .returnsTrue
      ∧ linkedFile[56]? = some 2
      ∧ byteAt (load [] (some linkedFile) freshFrames).pageTable
          (load [] (some linkedFile) freshFrames).frames.mainMemory 4 = some 3
      ∧ ¬(layoutOf linkedHeader).Loads := by
  have hheader : readHeader [] linkedFile = linkedHeader := by decide +kernel
  have htiled : (layoutOf linkedHeader).Tiled :=
    ⟨by decide, by decide, rfl, by decide, by decide⟩
  have hread : Readable linkedFile linkedHeader :=
    ⟨by decide +kernel, fun _ => by decide +kernel, fun _ => by decide +kernel,
      fun _ => by decide +kernel⟩
  have htrue : (load [] (some linkedFile) freshFrames).outcome = .returnsTrue := by decide +kernel
  have hfile : linkedFile[56]? = some 2 := by decide +kernel
  have hbyte : byteAt (load [] (some linkedFile) freshFrames).pageTable
      (load [] (some linkedFile) freshFrames).frames.mainMemory 4 = some 3 := by decide +kernel
  refine ⟨hheader, htiled, hread, htrue, hfile, hbyte, fun hloads => ?_⟩
  have hok := hloads [] linkedFile freshFrames rfl (by rw [hheader]) (by rw [hheader]; exact hread)
    htrue
  rw [hheader] at hok
  have := hok.readonlyData 0 le_rfl (by decide)
  exact absurd (hbyte.symm.trans (this.trans hfile)) (by decide)

end AddrSpace

end Nachos
