import Nachos.Bitmap
import Nachos.DiskFiles

/-!
# The map of free sectors

`PersistentBitmap` of `filesys/pbitmap.cc`, the bitmap that is kept in a
file, and `FileHeader::Allocate` and `Deallocate`, which take the sectors of
a file from it and give them back.

`Allocate` fills a header that `new` has left uninitialised: its table keeps
what was there beyond the sectors of the file. The number of sectors comes
from the size alone, so a size beyond `MaxFileSize` = 30 * 128 bytes would
make the loop store behind the table; that is `none` here, like the failed
assertion on the sector number.

`allocate_cases` says what `Allocate` does for a size that is allowed, and
`deallocate_eq` that `Deallocate` frees exactly the sectors of the header.
-/

namespace Nachos

/-- `Test` answers that the bit is set. -/
def Bitmap.Marks (b : Bitmap) (s : Int) : Prop := b.test s = some true

namespace DiskFS

open CInt ByteMemory

/-! ## The bitmap in a file -/

/-- The bitmap of `numItems` bits whose words are the first bytes of `m`. -/
def wordsOf (numItems : Nat) (m : Memory) : Bitmap where
  numBits := numItems
  map := (List.range (divRoundUp numItems 32).toNat).map fun k : Nat =>
    BitVec.ofNat 32 (leNat (read m (0 + (4 * k : Nat)) 4))
  numWords := by rw [List.length_map, List.length_range]

/-- The bitmap of `NumSectors` bits whose words are the first 128 bytes of
`m`. -/
def bitmapOf (m : Memory) : Bitmap := wordsOf 1024 m

/-- The array `map` as bytes. -/
def mapBytes (b : Bitmap) : Memory :=
  write (fun _ => 0) 0 ((b.map.map BitVec.toNat).flatMap (leBytes 4))

/-- `PersistentBitmap::PersistentBitmap(file, NumSectors)`, which reads over
the words that the constructor of `Bitmap` has set to zero. -/
def fetchMap (d : Disk) (h : FileHeader) : Option Bitmap :=
  (readAt d h 128 0).map fun bytes => bitmapOf (write (fun _ => 0) 0 bytes)

/-- `PersistentBitmap::WriteBack`. -/
def writeBackMap (d : Disk) (h : FileHeader) (junk : Memory) (b : Bitmap) : Option Disk :=
  (writeAt d h junk (mapBytes b) 128 0).map Prod.snd

theorem wordsOf_congr {n : Nat} {m m' : Memory}
    (h : ∀ x, 0 ≤ x → x < 4 * divRoundUp n 32 → m' x = m x) : wordsOf n m' = wordsOf n m := by
  have hmap : (wordsOf n m').map = (wordsOf n m).map := by
    simp only [wordsOf]
    refine List.map_congr_left fun k hk => ?_
    have := List.mem_range.mp hk
    rw [read_congr fun x _ _ => h x (by omega) (by omega)]
  simp only [wordsOf] at hmap ⊢
  simp only [hmap]

/-- The words of a bitmap, written as bytes and read back. -/
theorem wordsOf_mapBytes (b : Bitmap) : wordsOf b.numBits (mapBytes b) = b := by
  obtain ⟨n, map, hlen⟩ := b
  have hbytes : ((map.map BitVec.toNat).flatMap (leBytes 4)).length = 4 * map.length := by
    rw [length_flatMap_leBytes, List.length_map]
  have hmap : (wordsOf n (mapBytes ⟨n, map, hlen⟩)).map = map := by
    refine List.ext_getElem (by rw [wordsOf, List.length_map, List.length_range, hlen])
      fun k hk hk' => ?_
    have hread := take_drop_flatMap_leBytes 4 (map.map BitVec.toNat) [] k
      (by rwa [List.length_map])
    rw [List.append_nil] at hread
    simp only [wordsOf, List.getElem_map, List.getElem_range, mapBytes]
    rw [read_write (by omega), hread, leNat_leBytes,
      List.getD_eq_getElem _ _ (by rwa [List.length_map]), List.getElem_map]
    refine BitVec.eq_of_toNat_eq ?_
    rw [BitVec.toNat_ofNat]
    have := map[k].isLt
    omega
  simp only [wordsOf] at hmap ⊢
  simp only [hmap]

theorem bitmapOf_congr {m m' : Memory} (h : ∀ x, 0 ≤ x → x < 128 → m' x = m x) :
    bitmapOf m' = bitmapOf m :=
  wordsOf_congr (n := 1024) h

/-- A bitmap written to a file and read back. -/
theorem bitmapOf_mapBytes {b : Bitmap} (hb : b.numBits = 1024) : bitmapOf (mapBytes b) = b := by
  have hwords := wordsOf_mapBytes b
  rw [hb] at hwords
  exact hwords

/-! ## Marks -/

theorem marks_iff {b : Bitmap} {s : Int} :
    b.Marks s ↔ 0 ≤ s ∧ s < b.numBits ∧ b.testBit s.toNat = true := by
  rw [Bitmap.Marks, Bitmap.test]
  split
  next h => rw [Option.some_inj]; exact ⟨fun ht => ⟨h.1, h.2, ht⟩, fun ht => ht.2.2⟩
  next h => exact ⟨fun he => (Option.some_ne_none _ he.symm).elim,
      fun ht => absurd ⟨ht.1, ht.2.1⟩ h⟩

theorem marks_markBit {b : Bitmap} {i : Nat} (hi : i < b.numBits) (s : Int) :
    (b.markBit i).Marks s ↔ b.Marks s ∨ s = i := by
  rw [marks_iff, marks_iff, Bitmap.numBits_markBit, Bitmap.testBit_markBit hi, Bool.or_eq_true,
    decide_eq_true_eq]
  constructor
  · rintro ⟨h0, hlt, hs | hs⟩
    · exact Or.inr (by omega)
    · exact Or.inl ⟨h0, hlt, hs⟩
  · rintro (⟨h0, hlt, hs⟩ | rfl)
    · exact ⟨h0, hlt, Or.inr hs⟩
    · exact ⟨by omega, by omega, Or.inl (by omega)⟩

theorem marks_clearBit {b : Bitmap} {i : Nat} (hi : i < b.numBits) (s : Int) :
    (b.clearBit i).Marks s ↔ b.Marks s ∧ s ≠ i := by
  rw [marks_iff, marks_iff, Bitmap.numBits_clearBit, Bitmap.testBit_clearBit hi,
    Bool.and_eq_true, Bool.not_eq_true', decide_eq_false_iff_not]
  constructor
  · rintro ⟨h0, hlt, hne, hs⟩
    exact ⟨⟨h0, hlt, hs⟩, by omega⟩
  · rintro ⟨⟨h0, hlt, hs⟩, hne⟩
    exact ⟨h0, hlt, by omega, hs⟩

/-! ## Taking and giving back sectors -/

namespace FileHeader

/-- The loop of `Allocate`, `n` rounds of it. -/
def allocateSectors (h : FileHeader) (freeMap : Bitmap) : Nat → Option (FileHeader × Bitmap)
  | 0 => some (h, freeMap)
  | n + 1 =>
      (allocateSectors h freeMap n).bind fun r =>
        match r.2.findAndSet with
        | (some sector, freeMap) =>
            if n < 30 then some (setWord r.1 (8 + 4 * n) sector, freeMap) else none
        | (none, _) => none

/-- `FileHeader::Allocate`, on a header with any bytes. -/
def allocate (h : FileHeader) (freeMap : Bitmap) (fileSize : Int) :
    Option (Bool × FileHeader × Bitmap) :=
  let numSectors := divRoundUp fileSize 128
  let h := setWord (setWord h 0 fileSize) 4 numSectors
  if freeMap.numClear < numSectors then some (false, h, freeMap)
  else (allocateSectors h freeMap numSectors.toNat).map fun r => (true, r)

/-- The loop of `Deallocate`, `n` rounds of it. -/
def deallocateSectors (h : FileHeader) (freeMap : Bitmap) : Nat → Option Bitmap
  | 0 => some freeMap
  | n + 1 =>
      (deallocateSectors h freeMap n).bind fun freeMap =>
        if n < 30 ∧ freeMap.test (dataSector h n) = some true then freeMap.clear (dataSector h n)
        else none

/-- `FileHeader::Deallocate`. -/
def deallocate (h : FileHeader) (freeMap : Bitmap) : Option Bitmap :=
  deallocateSectors h freeMap (numSectors h).toNat

end FileHeader

/-- The header and the map after `n` rounds of the loop of `Allocate`. -/
structure Taken (n : Nat) (h₀ : FileHeader) (b₀ : Bitmap) (h : FileHeader) (b : Bitmap) :
    Prop where
  numBits : b.numBits = 1024
  numClear : b.numClear + n = b₀.numClear
  numBytes : h.numBytes = h₀.numBytes
  numSectors : h.numSectors = h₀.numSectors
  fresh : ∀ i : Int, 0 ≤ i → i < n → InRange (h.dataSector i) ∧ ¬b₀.Marks (h.dataSector i)
  distinct : ∀ i j : Int, 0 ≤ i → i < n → 0 ≤ j → j < n → h.dataSector i = h.dataSector j → i = j
  marks : ∀ s, b.Marks s ↔ b₀.Marks s ∨ ∃ i : Int, 0 ≤ i ∧ i < n ∧ h.dataSector i = s

section Loops

variable {h h' : FileHeader} {b b' : Bitmap}

theorem dataSector_setWord {i n : Int} {w : Int} (hi : i ≠ n) :
    FileHeader.dataSector (setWord h (8 + 4 * n) w) i = h.dataSector i :=
  word_setWord_of_disjoint (by omega)

/-- One round: the least free sector goes to the next place of the table. -/
theorem Taken.step {n : Nat} {h₀ : FileHeader} {b₀ : Bitmap} (ht : Taken n h₀ b₀ h b) {k : Nat}
    (hk : k < b.numBits) (hfree : b.testBit k = false) :
    Taken (n + 1) h₀ b₀ (setWord h (8 + 4 * n) k) (b.markBit k) := by
  have hb := ht.numBits
  have hint : IsInt (k : Int) := ⟨by simp only [intMin]; omega, by simp only [intMax]; omega⟩
  have hnew : FileHeader.dataSector (setWord h (8 + 4 * n) k) n = k := word_setWord hint
  have hold : ∀ i : Int, i ≠ n → FileHeader.dataSector (setWord h (8 + 4 * n) k) i
      = h.dataSector i :=
    fun i hi => dataSector_setWord hi
  have hnot : ¬b.Marks k := by
    rw [marks_iff, Int.toNat_natCast, hfree]
    exact fun hm => Bool.noConfusion hm.2.2
  have hused : ∀ i : Int, 0 ≤ i → i < n → h.dataSector i ≠ k := fun i h0 hi he =>
    hnot ((ht.marks _).mpr (Or.inr ⟨i, h0, hi, he⟩))
  refine ⟨ht.numBits, ?_, ?_, ?_, fun i h0 hi => ?_, fun i j h0 hi h0' hj he => ?_, fun s => ?_⟩
  · have := Bitmap.numClear_markBit hk hfree
    have := ht.numClear
    omega
  · rw [← ht.numBytes]
    exact word_setWord_of_disjoint (by omega)
  · rw [← ht.numSectors]
    exact word_setWord_of_disjoint (by omega)
  · by_cases hin : i = n
    · rw [hin, hnew]
      exact ⟨⟨by omega, by omega⟩, fun hm => hnot ((ht.marks _).mpr (Or.inl hm))⟩
    · rw [hold i hin]
      exact ht.fresh i h0 (by omega)
  · by_cases hin : i = n
    · by_cases hjn : j = n
      · exact hin.trans hjn.symm
      · rw [hin, hnew, hold j hjn] at he
        exact absurd he.symm (hused j h0' (by omega))
    · by_cases hjn : j = n
      · rw [hjn, hnew, hold i hin] at he
        exact absurd he (hused i h0 (by omega))
      · rw [hold i hin, hold j hjn] at he
        exact ht.distinct i j h0 (by omega) h0' (by omega) he
  · rw [marks_markBit hk, ht.marks]
    constructor
    · rintro ((hm | ⟨i, h0, hi, rfl⟩) | rfl)
      · exact Or.inl hm
      · exact Or.inr ⟨i, h0, by omega, hold i (by omega)⟩
      · exact Or.inr ⟨n, by omega, by omega, hnew⟩
    · rintro (hm | ⟨i, h0, hi, rfl⟩)
      · exact Or.inl (Or.inl hm)
      · by_cases hin : i = n
        · rw [hin, hnew]
          exact Or.inr rfl
        · rw [hold i hin]
          exact Or.inl (Or.inr ⟨i, h0, by omega, rfl⟩)

theorem allocateSectors_eq (hb : b.numBits = 1024) (n : Nat) (hn : n ≤ 30)
    (hclear : n ≤ b.numClear) :
    ∃ h' b', h.allocateSectors b n = some (h', b') ∧ Taken n h b h' b' := by
  induction n with
  | zero =>
      refine ⟨h, b, rfl, hb, rfl, rfl, rfl, fun i _ hi => by omega, fun i _ _ hi => by omega, ?_⟩
      exact fun s => ⟨Or.inl, fun hs => hs.resolve_right fun ⟨i, h0, hi, _⟩ => by omega⟩
  | succ n ih =>
      obtain ⟨h₁, b₁, heq, ht⟩ := ih (by omega) (by omega)
      have hcount := ht.numClear
      obtain ⟨k, hfind, hk, hfree, -⟩ := Bitmap.findAndSet_of_clear (b := b₁) (by omega)
      refine ⟨_, _, ?_, ht.step hk hfree⟩
      rw [FileHeader.allocateSectors, heq, Option.bind_some, hfind]
      exact if_pos (by omega)

end Loops

/-- What `Allocate` has done when it returns true. -/
structure Allocated (fileSize : Int) (b : Bitmap) (h : FileHeader) (b' : Bitmap) : Prop where
  numBits : b'.numBits = 1024
  numClear : b'.numClear + (divRoundUp fileSize 128).toNat = b.numClear
  numBytes : h.numBytes = fileSize
  numSectors : h.numSectors = divRoundUp fileSize 128
  sound : Sound h
  fresh : ∀ s ∈ h.sectors, ¬b.Marks s
  marks : ∀ s, b'.Marks s ↔ b.Marks s ∨ s ∈ h.sectors

/-- A sound header lists no sector twice. -/
theorem Sound.nodup {h : FileHeader} (hs : Sound h) : h.sectors.Nodup := by
  rw [FileHeader.sectors, List.nodup_map_iff_inj_on List.nodup_range]
  intro i hi j hj he
  have hi' := List.mem_range.mp hi
  have hj' := List.mem_range.mp hj
  have := hs.distinct i j (by omega) (by omega) (by omega) (by omega) he
  omega

theorem divRoundUp_bounds {n : Int} (h0 : 0 ≤ n) :
    0 ≤ divRoundUp n 128 ∧ n ≤ 128 * divRoundUp n 128 ∧ 128 * divRoundUp n 128 < n + 128 := by
  rw [divRoundUp_of_nonneg h0]
  split <;> omega

/-- **`Allocate`** with a size that is allowed: it refuses, or it takes fresh
sectors for the whole file. -/
theorem allocate_cases {h : FileHeader} {b : Bitmap} (hb : b.numBits = 1024) {fileSize : Int}
    (h0 : 0 ≤ fileSize) (hmax : fileSize ≤ 3840) :
    (b.numClear < divRoundUp fileSize 128 ∧ ∃ h', h.allocate b fileSize = some (false, h', b))
      ∨ ∃ h' b', h.allocate b fileSize = some (true, h', b') ∧ Allocated fileSize b h' b' := by
  have hbounds := divRoundUp_bounds h0
  simp only [FileHeader.allocate]
  split
  next hfull => exact Or.inl ⟨hfull, _, rfl⟩
  next hclear =>
      right
      obtain ⟨h', b', heq, ht⟩ := allocateSectors_eq
        (h := setWord (setWord h 0 fileSize) 4 (divRoundUp fileSize 128)) hb
        (divRoundUp fileSize 128).toNat (by omega) (by omega)
      have hbytes : h'.numBytes = fileSize := by
        rw [ht.numBytes, FileHeader.numBytes, word_setWord_of_disjoint (by omega)]
        exact word_setWord ⟨by simp only [intMin]; omega, by simp only [intMax]; omega⟩
      have hsectors : h'.numSectors = divRoundUp fileSize 128 := by
        rw [ht.numSectors]
        exact word_setWord ⟨by simp only [intMin]; omega, by simp only [intMax]; omega⟩
      refine ⟨h', b', by rw [heq, Option.map_some], ht.numBits, ht.numClear, hbytes, hsectors,
        ⟨by omega, by omega, by omega, fun i hi hlt => (ht.fresh i hi (by omega)).1,
          fun i j h1 h2 h3 h4 => ht.distinct i j h1 (by omega) h3 (by omega)⟩, ?_, ?_⟩
      · intro s hs
        obtain ⟨i, hi, hlt, rfl⟩ := mem_sectors.mp hs
        exact (ht.fresh i hi (by omega)).2
      · intro s
        rw [ht.marks, mem_sectors, hsectors, Int.toNat_of_nonneg hbounds.1]

/-- **`Deallocate`** frees the sectors of the header. -/
theorem deallocate_eq {h : FileHeader} {b : Bitmap} (hb : b.numBits = 1024) (hs : Sound h)
    (hmarked : ∀ s ∈ h.sectors, b.Marks s) :
    ∃ b', h.deallocate b = some b' ∧ b'.numBits = 1024
      ∧ ∀ s, b'.Marks s ↔ b.Marks s ∧ s ∉ h.sectors := by
  have hloop : ∀ n : Nat, n ≤ h.numSectors.toNat → ∃ b', h.deallocateSectors b n = some b'
      ∧ b'.numBits = 1024
      ∧ ∀ s, b'.Marks s ↔ b.Marks s ∧ ¬∃ i : Int, 0 ≤ i ∧ i < n ∧ h.dataSector i = s := by
    intro n
    induction n with
    | zero =>
        intro _
        exact ⟨b, rfl, hb, fun s => ⟨fun hm => ⟨hm, fun ⟨i, h0, hi, _⟩ => by omega⟩, And.left⟩⟩
    | succ n ih =>
        intro hn
        obtain ⟨b₁, heq, hb₁, hm₁⟩ := ih (by omega)
        have hdirect := hs.direct
        have hrange := hs.inRange n (by omega) (by omega)
        -- the sector of this round is none of those before
        have hmark : b₁.Marks (h.dataSector n) := by
          refine (hm₁ _).mpr ⟨hmarked _ (mem_sectors.mpr ⟨n, by omega, by omega, rfl⟩), ?_⟩
          rintro ⟨i, h0, hi, he⟩
          have := hs.distinct i n h0 (by omega) (by omega) (by omega) he
          omega
        have hlt : (h.dataSector n).toNat < b₁.numBits := by
          have := hrange.1
          have := hrange.2
          omega
        refine ⟨b₁.clearBit (h.dataSector n).toNat, ?_, hb₁, fun s => ?_⟩
        · rw [FileHeader.deallocateSectors, heq, Option.bind_some, if_pos ⟨by omega, hmark⟩,
            Bitmap.clear, if_pos ⟨hrange.1, by rw [hb₁]; exact hrange.2⟩]
        · rw [marks_clearBit hlt, hm₁, Int.toNat_of_nonneg hrange.1, and_assoc]
          refine and_congr_right fun _ => ?_
          constructor
          · rintro ⟨hnone, hne⟩ ⟨i, h0, hi, rfl⟩
            by_cases hin : i = n
            · exact hne (by rw [hin])
            · exact hnone ⟨i, h0, by omega, rfl⟩
          · intro hnone
            exact ⟨fun ⟨i, h0, hi, he⟩ => hnone ⟨i, h0, by omega, he⟩,
              fun he => hnone ⟨n, by omega, by omega, he.symm⟩⟩
  obtain ⟨b', heq, hb', hm⟩ := hloop h.numSectors.toNat le_rfl
  refine ⟨b', heq, hb', fun s => ?_⟩
  rw [hm, mem_sectors]
  refine and_congr_right fun _ => not_congr (exists_congr fun i => ?_)
  refine and_congr_right fun h0 => and_congr_left fun _ => ?_
  omega

end DiskFS

end Nachos
