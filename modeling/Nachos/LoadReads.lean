import Nachos.AddrSpace

/-!
# What the copying loops of `Load` ask for

The page arithmetic of `Load` in closed form, and from it the shape of the
`ReadAt` calls. Under sizes that are not negative the truncating divisions
are the flooring ones: a segment of `n` bytes takes `(n + 127) / 128` pages
and its last page holds `(n - 1) % 128 + 1` bytes.

A header is `Regular` when its sizes are not negative and add up without
overflow. For such a header `Regular.codePages_eq` and `Regular.dataPages_eq`
give the running index after each block, and `Regular.inPage_of_room` is the
result: every call stays inside one page, and indexes `pageTable` below any
bound that leaves room for the segments; `numPages` is one (`Regular.inPage`).
-/

namespace Nachos

open CInt ByteMemory

namespace AddrSpace

/-! ## Closed forms -/

theorem lastPageSize_of_pos {n : Int} (hlo : 0 < n) (hhi : n ≤ 2147483647) :
    lastPageSize n = (n - 1) % 128 + 1 := by
  rw [lastPageSize, wrap32_of_bounds (by omega) (by omega),
    Int.tmod_eq_emod_of_nonneg (by omega)]

theorem lastPageSize_range (n : Int) : -128 ≤ lastPageSize n ∧ lastPageSize n ≤ 128 := by
  have hlo := Int.lt_tmod_of_pos (wrap32 (n - 1)) (show (0 : Int) < 128 by decide)
  have hhi := Int.tmod_lt_of_pos (wrap32 (n - 1)) (show (0 : Int) < 128 by decide)
  rw [lastPageSize]
  omega

theorem lastPageSize_zero : lastPageSize 0 = 0 := by decide

theorem lastPageSize_bounds {n : Int} (hlo : 0 ≤ n) (hhi : n ≤ 2147483647) :
    0 ≤ lastPageSize n ∧ lastPageSize n ≤ 128 := by
  rcases eq_or_lt_of_le hlo with rfl | hpos
  · rw [lastPageSize_zero]
    omega
  · rw [lastPageSize_of_pos hpos hhi]
    omega

theorem pageCount_of_nonneg {n : Int} (hlo : 0 ≤ n) (hhi : n ≤ 2147483647) :
    (pageCount n : Int) = (n + 127) / 128 := by
  rw [pageCount, divRoundUp_of_nonneg hlo]
  split <;> (rw [u32_of_bounds (by omega) (by omega)]; omega)

theorem restSize_of_nonneg {o n : Int} (ho : o ≤ 128) (hlo : 0 ≤ n) (hhi : n ≤ 2147483647) :
    restSize o n = n - firstSize o n := by
  rw [restSize, wrap32_of_bounds] <;> (simp only [firstSize]; omega)

theorem restSize_bounds {o n : Int} (ho : o ≤ 128) (hlo : 0 ≤ n) (hhi : n ≤ 2147483647) :
    0 ≤ restSize o n ∧ restSize o n ≤ n := by
  rw [restSize_of_nonneg ho hlo hhi, firstSize]
  omega

theorem size_nonneg (noffH : NoffHeader) : 0 ≤ size noffH := (u32_bounds _).1

theorem numPages_eq (noffH : NoffHeader) : (numPages noffH : Int) = (size noffH + 127) / 128 := by
  have hsize := size_nonneg noffH
  rw [numPages, divRoundUp_of_nonneg hsize]
  by_cases hmod : size noffH % 128 > 0
  · rw [if_pos hmod]
    omega
  · rw [if_neg hmod]
    omega

/-! ## The calls of a loop -/

theorem mem_pageReads {i num : Nat} {last position : Int} {call : ReadCall}
    (h : call ∈ pageReads i num last position) :
    ∃ j < num, call = ⟨i + j, 0, if j + 1 < num then 128 else last,
      wrap32 (position + j * 128)⟩ := by
  obtain ⟨j, hj, rfl⟩ := List.mem_map.mp h
  exact ⟨j, List.mem_range.mp hj, rfl⟩

theorem mem_segmentReads {i : Nat} {more : Bool} {o : Int} {seg : Segment} {call : ReadCall}
    (h : call ∈ segmentReads i more o seg) :
    (o ≠ 128 ∧ more = true ∧
      call = ⟨(u32 (i - 1)).toNat, o, firstSize o seg.size, seg.inFileAddr⟩)
    ∨ call ∈ pageReads i (pageCount (restSize o seg.size)) (lastPageSize (restSize o seg.size))
        (seg.inFileAddr + firstSize o seg.size) := by
  rcases List.mem_append.mp h with hfirst | hpage
  · split at hfirst
    next hc => exact Or.inl ⟨hc.1, hc.2, List.mem_singleton.mp hfirst⟩
    next => cases hfirst
  · exact Or.inr hpage

/-- A call that stays inside one of the first `n` pages. -/
structure InPage (n : Nat) (call : ReadCall) : Prop where
  index : call.index < n
  offset : 0 ≤ call.offset
  numBytes : 0 ≤ call.numBytes
  fits : call.offset + call.numBytes ≤ 128

theorem inPage_pageReads {i n : Nat} {size position : Int} {call : ReadCall} (hlo : 0 ≤ size)
    (hhi : size ≤ 2147483647) (hn : i + (size + 127) / 128 ≤ n)
    (h : call ∈ pageReads i (pageCount size) (lastPageSize size) position) : InPage n call := by
  obtain ⟨j, hj, rfl⟩ := mem_pageReads h
  have hcount := pageCount_of_nonneg hlo hhi
  have hlast := lastPageSize_bounds hlo hhi
  refine ⟨?_, le_rfl, ?_, ?_⟩
  · simp only
    omega
  · simp only
    split <;> omega
  · simp only
    split <;> omega

theorem inPage_segmentReads {i n : Nat} {more : Bool} {o : Int} {seg : Segment} {call : ReadCall}
    (hlo : 0 ≤ seg.size) (hhi : seg.size ≤ 2147483647) (ho : 0 ≤ o) (ho' : o ≤ 128)
    (hmore : more = true → 0 < i) (hn : i + (restSize o seg.size + 127) / 128 ≤ n)
    (h : call ∈ segmentReads i more o seg) : InPage n call := by
  have hrest := restSize_bounds ho' hlo hhi
  rcases mem_segmentReads h with ⟨-, hm, rfl⟩ | hpage
  · have hi := hmore hm
    have hindex : (u32 ((i : Int) - 1)).toNat < n := by
      simp only [u32]
      omega
    refine ⟨hindex, ho, ?_, ?_⟩ <;> (simp only [firstSize]; omega)
  · exact inPage_pageReads hrest.1 (by omega) hn hpage

/-! ## File positions -/

/-- A segment whose file positions are `int`s. -/
def Seekable (seg : Segment) : Prop :=
  0 < seg.size → 0 ≤ seg.inFileAddr ∧ seg.inFileAddr + seg.size ≤ 2147483647

/-- A call asks for at least one byte, all of them at positions up to `bound`. -/
structure AsksWithin (bound : Int) (call : ReadCall) : Prop where
  position : 0 ≤ call.position
  numBytes : 0 < call.numBytes
  bound : call.position + call.numBytes ≤ bound

theorem asksWithin_pageReads {i : Nat} {size position bound : Int} (hsize : 0 ≤ size)
    (hpos : 0 ≤ position) (hend : position + size ≤ bound) (hint : bound ≤ 2147483647)
    {call : ReadCall} (h : call ∈ pageReads i (pageCount size) (lastPageSize size) position) :
    AsksWithin bound call := by
  obtain ⟨j, hj, rfl⟩ := mem_pageReads h
  have hcount := pageCount_of_nonneg hsize (by omega)
  have hlast := lastPageSize_of_pos (n := size) (by omega) (by omega)
  have hwrap : wrap32 (position + (j : Int) * 128) = position + j * 128 :=
    wrap32_of_bounds (by omega) (by omega)
  refine ⟨by simp only; omega, ?_, ?_⟩
  · simp only
    split <;> omega
  · simp only
    split <;> omega

theorem asksWithin_segmentReads {i : Nat} {more : Bool} {o : Int} (ho : o ≤ 128) {seg : Segment}
    (hgt : 0 < seg.size) (hseg : Seekable seg) {call : ReadCall}
    (h : call ∈ segmentReads i more o seg) : AsksWithin (seg.inFileAddr + seg.size) call := by
  obtain ⟨hlo, hhi⟩ := hseg hgt
  have hfirst : firstSize o seg.size = min (128 - o) seg.size := rfl
  rcases mem_segmentReads h with ⟨hne, -, rfl⟩ | h
  · exact ⟨hlo, by simp only; omega, by simp only; omega⟩
  · have hrest := restSize_of_nonneg ho (n := seg.size) (by omega) (by omega)
    have hbounds := restSize_bounds ho (n := seg.size) (by omega) (by omega)
    exact asksWithin_pageReads hbounds.1 (by omega) (by omega) hhi h

/-- Every call asks for bytes of its segment. -/
theorem asksWithin_reads {noffH : NoffHeader} {bound : Int} (hc : Seekable noffH.code)
    (hd : Seekable noffH.initData) (hr : Seekable noffH.readonlyData)
    (hbc : 0 < noffH.code.size → noffH.code.inFileAddr + noffH.code.size ≤ bound)
    (hbd : 0 < noffH.initData.size → noffH.initData.inFileAddr + noffH.initData.size ≤ bound)
    (hbr : 0 < noffH.readonlyData.size →
      noffH.readonlyData.inFileAddr + noffH.readonlyData.size ≤ bound)
    {call : ReadCall} (h : call ∈ reads noffH) : AsksWithin bound call := by
  have weaken : ∀ {b}, b ≤ bound → AsksWithin b call → AsksWithin bound call :=
    fun hb ha => ⟨ha.position, ha.numBytes, ha.bound.trans hb⟩
  rcases List.mem_append.mp h with h | h
  · rcases List.mem_append.mp h with h | h
    · rw [codeReads] at h
      split at h
      next hgt =>
          obtain ⟨hlo, hhi⟩ := hc hgt
          exact weaken (hbc hgt) (asksWithin_pageReads (by omega) hlo le_rfl hhi h)
      next => cases h
    · rw [initDataReads] at h
      split at h
      next hgt =>
          exact weaken (hbd hgt) (asksWithin_segmentReads (lastPageSize_range _).2 hgt hd h)
      next => cases h
  · rw [readonlyDataReads] at h
    split at h
    next hgt => exact weaken (hbr hgt) (asksWithin_segmentReads (lastPageSize_range _).2 hgt hr h)
    next => cases h

/-! ## Regular headers -/

/-- The headers whose sizes are not negative and add up to an address space
whose size does not overflow. -/
structure Regular (noffH : NoffHeader) : Prop where
  code : 0 ≤ noffH.code.size
  initData : 0 ≤ noffH.initData.size
  readonlyData : 0 ≤ noffH.readonlyData.size
  uninitData : 0 ≤ noffH.uninitData.size
  total : noffH.code.size + noffH.readonlyData.size + noffH.initData.size + noffH.uninitData.size
    + 1024 ≤ 2147483647

instance (noffH : NoffHeader) : Decidable (Regular noffH) :=
  decidable_of_iff (0 ≤ noffH.code.size ∧ 0 ≤ noffH.initData.size ∧ 0 ≤ noffH.readonlyData.size
      ∧ 0 ≤ noffH.uninitData.size ∧ noffH.code.size + noffH.readonlyData.size
        + noffH.initData.size + noffH.uninitData.size + 1024 ≤ 2147483647)
    ⟨fun ⟨hc, hd, hr, hu, ht⟩ => ⟨hc, hd, hr, hu, ht⟩, fun ⟨hc, hd, hr, hu, ht⟩ =>
      ⟨hc, hd, hr, hu, ht⟩⟩

section

variable {noffH : NoffHeader} (hr : Regular noffH)

include hr

theorem Regular.size_eq : size noffH = noffH.code.size + noffH.readonlyData.size
    + noffH.initData.size + noffH.uninitData.size + 1024 := by
  obtain ⟨hc, hd, hr, hu, ht⟩ := hr
  exact u32_of_bounds (by omega) (by omega)

theorem Regular.codePages_eq : (codePages noffH : Int) = (noffH.code.size + 127) / 128 := by
  obtain ⟨hc, hd, hr, hu, ht⟩ := hr
  rw [codePages]
  split
  next => exact pageCount_of_nonneg hc (by omega)
  next => omega

/-- Behind a code segment the data pages continue its last page; without
one they lose up to a page. -/
theorem Regular.dataPages_eq : (dataPages noffH : Int) =
    if 0 < noffH.code.size then (noffH.code.size + noffH.initData.size + 127) / 128
    else (max (noffH.initData.size - 128) 0 + 127) / 128 := by
  have hcode := hr.codePages_eq
  obtain ⟨hc, hd, hr, hu, ht⟩ := hr
  have hlast := lastPageSize_bounds hc (by omega)
  have hrest := restSize_bounds hlast.2 hd (by omega)
  have hcount := pageCount_of_nonneg hrest.1 (by omega)
  have heq := restSize_of_nonneg hlast.2 hd (by omega)
  simp only [firstSize] at heq
  have hdata : (dataPages noffH : Int) = codePages noffH +
      if 0 < noffH.initData.size then (restSize (lastPageSize noffH.code.size)
        noffH.initData.size + 127) / 128 else 0 := by
    rw [dataPages, ← hcount]
    split <;> simp
  rw [hdata, hcode]
  by_cases hpos : 0 < noffH.code.size
  · have hl := lastPageSize_of_pos hpos (by omega)
    rw [if_pos hpos]
    split <;> omega
  · have hl : lastPageSize noffH.code.size = 0 := by
      rw [show noffH.code.size = 0 by omega, lastPageSize_zero]
    rw [if_neg hpos]
    split <;> omega

theorem Regular.readonlyOffset_eq :
    readonlyOffset noffH = lastPageSize (noffH.code.size + noffH.initData.size) := by
  obtain ⟨hc, hd, hr, hu, ht⟩ := hr
  rw [readonlyOffset, wrap32_of_bounds (by omega) (by omega)]

/-- The calls keep to as many pages as the three segments need. -/
theorem Regular.inPage_of_room {n : Nat}
    (hn : noffH.code.size + noffH.initData.size + noffH.readonlyData.size ≤ 128 * n)
    {call : ReadCall} (h : call ∈ reads noffH) : InPage n call := by
  have hcode := hr.codePages_eq
  have hdata := hr.dataPages_eq
  have hoff := hr.readonlyOffset_eq
  obtain ⟨hc, hd, hr, hu, ht⟩ := hr
  have hlast := lastPageSize_bounds hc (by omega)
  have hcount := pageCount_of_nonneg hc (by omega)
  rcases List.mem_append.mp h with h | h
  · rcases List.mem_append.mp h with h | h
    · rw [codeReads] at h
      split at h
      next => exact inPage_pageReads hc (by omega) (by omega) h
      next => cases h
    · rw [initDataReads] at h
      split at h
      next hpos =>
          have hrest := restSize_bounds hlast.2 hd (by omega)
          have hrc := pageCount_of_nonneg hrest.1 (by omega)
          have heq : (dataPages noffH : Int) = codePages noffH + (restSize
              (lastPageSize noffH.code.size) noffH.initData.size + 127) / 128 := by
            rw [dataPages, if_pos hpos, ← hrc]
            simp
          refine inPage_segmentReads hd (by omega) hlast.1 hlast.2 ?_ ?_ h
          · intro hm
            have := of_decide_eq_true hm
            omega
          · split at hdata <;> omega
      next => cases h
  · rw [readonlyDataReads] at h
    split at h
    next hpos =>
        have hro := lastPageSize_bounds (n := noffH.code.size + noffH.initData.size)
          (by omega) (by omega)
        have heq := restSize_of_nonneg (o := readonlyOffset noffH) (by omega) hr (by omega)
        refine inPage_segmentReads hr (by omega) (by omega) (by omega)
          (fun hm => of_decide_eq_true hm) ?_ h
        rw [heq, firstSize, hoff]
        rcases eq_or_lt_of_le (show 0 ≤ noffH.code.size + noffH.initData.size by omega) with
          hz | hz
        · rw [← hz, lastPageSize_zero]
          split at hdata <;> omega
        · rw [lastPageSize_of_pos hz (by omega)]
          split at hdata <;> omega
    next => cases h

/-- The pages of everything that is copied are pages of the address space. -/
theorem Regular.inPage {call : ReadCall} (h : call ∈ reads noffH) :
    InPage (numPages noffH) call := by
  have hsize := hr.size_eq
  have hnum := numPages_eq noffH
  refine hr.inPage_of_room ?_ h
  have hu := hr.uninitData
  omega

end

end AddrSpace

end Nachos
