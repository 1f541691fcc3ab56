import Nachos.FreeMap

/-!
# The sector table of a file header

A header is one sector: two `int`s and a table of `NumDirect` = 30 sector
numbers. `FileHeader::Allocate` computes the number of sectors from the size
alone and compares it only with the number of free sectors, so nothing keeps
its loop inside the table.

`TakesSectors` says what a successful `Allocate` is to have done, down to
`Deallocate` giving the very same map back, and `Serves` adds the refusal.
`allocate_serves_iff` says for which sizes and maps `Allocate` keeps to it:
the size is at most `MaxFileSize`, or the map has too few free sectors for it
anyway. In every other case the 31st sector goes to `dataSectors[30]`, behind
the header.
-/

namespace Nachos

namespace Bitmap

/-- Where the words are full, a map is no more than its bits. -/
theorem eq_of_testBit {b b' : Bitmap} (hbits : b'.numBits = b.numBits) (hfull : 32 ∣ b.numBits)
    (h : ∀ i, i < b.numBits → b'.testBit i = b.testBit i) : b' = b := by
  have hlen : b'.map.length = b.map.length := by rw [b'.numWords, b.numWords, hbits]
  have hwords : b.map.length * 32 = b.numBits := by
    rw [b.numWords, divRoundUp_of_nonneg (by omega)]
    split <;> omega
  have hmap : b'.map = b.map := by
    refine List.ext_getElem hlen fun k hk' hk => BitVec.eq_of_getLsbD_eq fun j hj => ?_
    have hbit := h (k * 32 + j) (by omega)
    have hdiv : (k * 32 + j) / 32 = k := by omega
    have hmod : (k * 32 + j) % 32 = j := by omega
    rw [testBit_eq, testBit_eq, word, word, hdiv, hmod, List.getD_eq_getElem _ _ hk',
      List.getD_eq_getElem _ _ hk] at hbit
    exact hbit
  obtain ⟨numBits, map, hwf⟩ := b
  obtain ⟨numBits', map', hwf'⟩ := b'
  obtain rfl : numBits' = numBits := hbits
  obtain rfl : map' = map := hmap
  rfl

end Bitmap

namespace DiskFS

open CInt ByteMemory

/-- A map of the sectors of the disk is what `Test` says of them. -/
theorem eq_of_marks {b b' : Bitmap} (hb : b.numBits = 1024) (hb' : b'.numBits = 1024)
    (h : ∀ s, b'.Marks s ↔ b.Marks s) : b' = b := by
  refine Bitmap.eq_of_testBit (by omega) (by omega) fun i hi => ?_
  have hi' := h i
  rw [marks_iff, marks_iff, Int.toNat_natCast] at hi'
  rw [Bool.eq_iff_iff]
  exact ⟨fun ht => (hi'.mp ⟨by omega, by omega, ht⟩).2.2,
    fun ht => (hi'.mpr ⟨by omega, by omega, ht⟩).2.2⟩

theorem test_of_not_marks {b : Bitmap} {s : Int} (hs : b.InRange s) (h : ¬b.Marks s) :
    b.test s = some false := by
  rw [Bitmap.test, if_pos hs]
  refine congrArg some (Bool.eq_false_iff.mpr fun ht => h ?_)
  exact marks_iff.mpr ⟨hs.1, hs.2, ht⟩

/-! ## Inside the header -/

section Loops

variable {h h' : FileHeader} {b b' : Bitmap}

/-- The loop stays inside the header as long as it goes on at all. -/
theorem allocateSectors_outside {n : Nat} (heq : h.allocateSectors b n = some (h', b')) {x : Int}
    (hx : x < 0 ∨ 128 ≤ x) : h' x = h x := by
  induction n generalizing h' b' with
  | zero =>
      obtain ⟨rfl, -⟩ := Prod.mk.inj (Option.some.inj heq)
      rfl
  | succ n ih =>
      rw [FileHeader.allocateSectors] at heq
      obtain ⟨⟨h₁, b₁⟩, hloop, hround⟩ := Option.bind_eq_some_iff.mp heq
      dsimp only at hround
      split at hround
      next =>
          split at hround
          next hlt =>
              obtain ⟨rfl, -⟩ := Prod.mk.inj (Option.some.inj hround)
              rw [setWord_of_not_mem (by omega), ih hloop]
          next => exact (Option.some_ne_none _ hround.symm).elim
      next => exact (Option.some_ne_none _ hround.symm).elim

theorem allocate_outside {fileSize : Int} {ok : Bool}
    (heq : h.allocate b fileSize = some (ok, h', b')) {x : Int} (hx : x < 0 ∨ 128 ≤ x) :
    h' x = h x := by
  have hstart : setWord (setWord h 0 fileSize) 4 (divRoundUp fileSize 128) x = h x := by
    rw [setWord_of_not_mem (by omega), setWord_of_not_mem (by omega)]
  simp only [FileHeader.allocate] at heq
  split at heq
  next =>
      obtain ⟨-, rfl, -⟩ := Prod.mk.inj (Option.some.inj heq) |>.imp id Prod.mk.inj
      exact hstart
  next =>
      obtain ⟨r, hloop, hr⟩ := Option.map_eq_some_iff.mp heq
      obtain ⟨-, rfl⟩ := Prod.mk.inj hr
      rw [allocateSectors_outside hloop hx, hstart]

/-- The 31st round, and with it every later one, stores behind the table. -/
theorem allocateSectors_eq_none {n : Nat} (hn : 30 < n) : h.allocateSectors b n = none := by
  obtain ⟨n, rfl⟩ : ∃ m, n = m + 1 := ⟨n - 1, by omega⟩
  rw [FileHeader.allocateSectors, Option.bind_eq_none_iff]
  rintro ⟨h₁, b₁⟩ -
  dsimp only
  split
  next => exact if_neg (by omega)
  next => rfl

end Loops

/-! ## What `Allocate` is to do -/

/-- The number of sectors of `fileSize` bytes. -/
theorem divRoundUp_eq_ceil {n : Int} (h0 : 0 ≤ n) : divRoundUp n 128 = (n + 127) / 128 := by
  have := divRoundUp_bounds h0
  omega

/-- `Allocate` has returned true, with the header `h'` and the map `b'` made
of `h` and `b`. -/
structure TakesSectors (fileSize : Int) (h : FileHeader) (b : Bitmap) (h' : FileHeader)
    (b' : Bitmap) : Prop where
  returns : h.allocate b fileSize = some (true, h', b')
  count : (h'.sectors.length : Int) = (fileSize + 127) / 128
  direct : h'.sectors.length ≤ 30
  inside : ∀ x, x < 0 ∨ 128 ≤ x → h' x = h x
  distinct : h'.sectors.Nodup
  wereClear : ∀ s ∈ h'.sectors, b.test s = some false
  marks : ∀ s, b'.test s = some true ↔ b.test s = some true ∨ s ∈ h'.sectors
  restores : h'.deallocate b' = some b

/-- `Allocate` has returned false and left the map alone. -/
def Refuses (fileSize : Int) (h : FileHeader) (b : Bitmap) : Prop :=
  ∃ h', h.allocate b fileSize = some (false, h', b)

theorem refuses_of_lt {fileSize : Int} {h : FileHeader} {b : Bitmap}
    (hfull : b.numClear < divRoundUp fileSize 128) : Refuses fileSize h b :=
  ⟨_, if_pos hfull⟩

/-- A header that `Allocate` has filled gives the map back as it was. -/
theorem Allocated.restores {fileSize : Int} {h : FileHeader} {b b' : Bitmap}
    (ha : Allocated fileSize b h b') (hb : b.numBits = 1024) : h.deallocate b' = some b := by
  obtain ⟨b'', heq, hb'', hmarks⟩ := deallocate_eq ha.numBits ha.sound
    fun s hs => (ha.marks s).mpr (Or.inr hs)
  rw [heq]
  refine congrArg some (eq_of_marks hb hb'' fun s => ?_)
  rw [hmarks, ha.marks]
  exact ⟨fun hs => hs.1.resolve_right hs.2, fun hs => ⟨Or.inl hs, fun hmem => ha.fresh s hmem hs⟩⟩

theorem Allocated.takes {fileSize : Int} {h h' : FileHeader} {b b' : Bitmap}
    (ha : Allocated fileSize b h' b') (heq : h.allocate b fileSize = some (true, h', b'))
    (h0 : 0 ≤ fileSize) (hb : b.numBits = 1024) : TakesSectors fileSize h b h' b' := by
  have hceil := divRoundUp_eq_ceil h0
  have hlength : (h'.sectors.length : Int) = (fileSize + 127) / 128 := by
    rw [FileHeader.sectors, List.length_map, List.length_range, ha.numSectors]
    omega
  have hdirect : h'.numSectors ≤ 30 := ha.sound.direct
  rw [ha.numSectors] at hdirect
  refine ⟨heq, hlength, by omega, fun x => allocate_outside heq, ha.sound.nodup, fun s hs => ?_,
    ha.marks, ha.restores hb⟩
  refine test_of_not_marks ?_ (ha.fresh s hs)
  obtain ⟨i, hi, hlt, rfl⟩ := mem_sectors.mp hs
  have hrange := ha.sound.inRange i hi hlt
  exact ⟨hrange.1, by rw [hb]; exact hrange.2⟩

/-- The two ways for `Allocate` to serve a request. -/
def Serves (fileSize : Int) (h : FileHeader) (b : Bitmap) : Prop :=
  Refuses fileSize h b ∨ ∃ h' b', TakesSectors fileSize h b h' b'

theorem not_serves_of_none {fileSize : Int} {h : FileHeader} {b : Bitmap}
    (hnone : h.allocate b fileSize = none) : ¬Serves fileSize h b := by
  rintro (⟨h', heq⟩ | ⟨h', b', htakes⟩)
  · exact Option.some_ne_none _ (heq.symm.trans hnone)
  · exact Option.some_ne_none _ (htakes.returns.symm.trans hnone)

/-- A file that fits the free sectors and no header. -/
theorem allocate_eq_none {fileSize : Int} {h : FileHeader} {b : Bitmap} (hmax : 3840 < fileSize)
    (hclear : (fileSize + 127) / 128 ≤ b.numClear) : h.allocate b fileSize = none := by
  have hceil := divRoundUp_eq_ceil (n := fileSize) (by omega)
  simp only [FileHeader.allocate]
  rw [if_neg (by omega), allocateSectors_eq_none (by omega), Option.map_none]

/-- **Which requests `Allocate` serves**: it refuses, or fills the table with
fresh sectors and nothing else, exactly when the file fits a header or does
not fit the free sectors. -/
theorem allocate_serves_iff (h : FileHeader) (b : Bitmap) (fileSize : Int)
    (hb : b.numBits = 1024) (h0 : 0 ≤ fileSize) :
    Serves fileSize h b ↔ fileSize ≤ 3840 ∨ b.numClear < (fileSize + 127) / 128 := by
  constructor
  · intro hserves
    by_contra hnot
    rw [not_or] at hnot
    exact not_serves_of_none (allocate_eq_none (by omega) (by omega)) hserves
  · rintro (hmax | hfull)
    · rcases allocate_cases (h := h) hb h0 hmax with ⟨-, hrefused⟩ | ⟨h', b', heq, ha⟩
      · exact Or.inl hrefused
      · exact Or.inr ⟨h', b', ha.takes heq h0 hb⟩
    · exact Or.inl (refuses_of_lt (by rw [divRoundUp_eq_ceil h0]; exact hfull))

/-- A file of exactly `MaxFileSize` bytes on an empty disk. -/
theorem allocate_serves_maxFile :
    (Bitmap.new 1024).numBits = 1024 ∧ Serves 3840 (fun _ => 255) (Bitmap.new 1024) :=
  ⟨rfl, (allocate_serves_iff (fun _ => 255) (Bitmap.new 1024) 3840 rfl (by decide)).mpr
    (Or.inl (by decide))⟩

/-- A byte more, with all of the disk free: the store of the 31st sector goes
behind the header. -/
theorem allocate_stores_behind_table :
    FileHeader.allocate (fun _ => 255) (Bitmap.new 1024) 3841 = none
      ∧ ¬Serves 3841 (fun _ => 255) (Bitmap.new 1024) := by
  have hnone : FileHeader.allocate (fun _ => 255) (Bitmap.new 1024) 3841 = none := by
    refine allocate_eq_none (by decide) ?_
    rw [Bitmap.numClear_new]
    decide
  exact ⟨hnone, not_serves_of_none hnone⟩

end DiskFS

end Nachos
