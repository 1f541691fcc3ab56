import Nachos.FileSystem
import Nachos.Run

/-!
# The disk stays consistent

Every disk that is formatted and then changed by calls of `Create` and
`Remove` is consistent (`disk_consistent`): the sectors of the system, of the
headers and of the files are distinct, the bitmap on the disk marks exactly
these, and no two names agree in the characters that count. No assertion of
the file system fails on the way, and a `Create` that returns false has not
touched the disk.

`format_consistent` is the start, `create_cases` and `remove_cases` say what
one call does. Both calls change one entry of the directory, so what they
share is `Consistent.changed` and `Consistent.change`; the sectors go from
the pool to the entry (`Tracks.takeAll`) or back (`Tracks.giveAll`).
-/

namespace Nachos

namespace DiskFS

open CInt ByteMemory Ownership Run

/-! ## Formatting -/

theorem marks_new (s : Int) : ¬(Bitmap.new 1024).Marks s := by
  rw [marks_iff, Bitmap.testBit_new]
  exact fun h => Bool.noConfusion h.2.2

/-- `Allocate` succeeds when there is room. -/
theorem allocate_of_clear {h : FileHeader} {b : Bitmap} (hb : b.numBits = 1024) {fileSize : Int}
    (h0 : 0 ≤ fileSize) (hmax : fileSize ≤ 3840) (hclear : divRoundUp fileSize 128 ≤ b.numClear) :
    ∃ h' b', (h.allocate b fileSize).bind asserted = some (h', b')
      ∧ Allocated fileSize b h' b' := by
  rcases allocate_cases (h := h) hb h0 hmax with ⟨hfull, -⟩ | ⟨h', b', heq, hal⟩
  · omega
  · exact ⟨h', b', by rw [heq, Option.bind_some, asserted], hal⟩

/-- The bitmap with the sectors of the two headers. -/
def headersMap : Bitmap := ((Bitmap.new 1024).markBit 0).markBit 1

theorem numBits_headersMap : headersMap.numBits = 1024 := by
  rw [headersMap, Bitmap.numBits_markBit, Bitmap.numBits_markBit, Bitmap.numBits_new]

theorem marks_headersMap (s : Int) : headersMap.Marks s ↔ s = 0 ∨ s = 1 := by
  rw [headersMap, marks_markBit (by decide), marks_markBit (by decide)]
  have := marks_new s
  simp [this]

theorem numClear_headersMap : headersMap.numClear = 1022 := by
  have h₀ := Bitmap.numClear_markBit (b := Bitmap.new 1024) (i := 0) (by decide)
    (Bitmap.testBit_new ..)
  have h₁ := Bitmap.numClear_markBit (b := (Bitmap.new 1024).markBit 0) (i := 1) (by decide)
    (by rw [Bitmap.testBit_markBit (by decide), Bitmap.testBit_new]; rfl)
  rw [Bitmap.numClear_new] at h₀
  rw [headersMap]
  omega

/-- What `Format` takes from the free map: the sectors of the two files, which
are distinct and not those of the headers. -/
structure Formatted (mapHdr dirHdr : FileHeader) (b : Bitmap) : Prop where
  mapNot : ∀ a ∈ mapHdr.sectors, a ≠ 0 ∧ a ≠ 1
  dirNot : ∀ a ∈ dirHdr.sectors, (a ≠ 0 ∧ a ≠ 1) ∧ a ∉ mapHdr.sectors
  nodup : (0 :: 1 :: (mapHdr.sectors ++ dirHdr.sectors)).Nodup
  marks : ∀ a, b.Marks a ↔ a ∈ 0 :: 1 :: (mapHdr.sectors ++ dirHdr.sectors)

theorem formatted_of_allocated {mapHdr dirHdr : FileHeader} {b₁ b₂ : Bitmap} {m n : Int}
    (hmap : Allocated m headersMap mapHdr b₁) (hdir : Allocated n b₁ dirHdr b₂) :
    Formatted mapHdr dirHdr b₂ := by
  have hmapNot : ∀ a ∈ mapHdr.sectors, a ≠ 0 ∧ a ≠ 1 := fun a ha =>
    not_or.mp fun h => hmap.fresh a ha ((marks_headersMap a).mpr h)
  have hdirNot : ∀ a ∈ dirHdr.sectors, (a ≠ 0 ∧ a ≠ 1) ∧ a ∉ mapHdr.sectors := fun a ha =>
    have hfree : ¬((a = 0 ∨ a = 1) ∨ a ∈ mapHdr.sectors) := fun hm =>
      hdir.fresh a ha ((hmap.marks a).mpr (hm.imp_left (marks_headersMap a).mpr))
    ⟨not_or.mp fun h => hfree (Or.inl h), fun h => hfree (Or.inr h)⟩
  refine ⟨hmapNot, hdirNot, ?_, fun a => ?_⟩
  · refine List.nodup_cons.mpr ⟨fun hm => ?_, List.nodup_cons.mpr ⟨fun hm => ?_, ?_⟩⟩
    · rcases List.mem_cons.mp hm with he | hm
      · exact absurd he (by decide)
      · rcases List.mem_append.mp hm with hm | hm
        · exact (hmapNot 0 hm).1 rfl
        · exact (hdirNot 0 hm).1.1 rfl
    · rcases List.mem_append.mp hm with hm | hm
      · exact (hmapNot 1 hm).2 rfl
      · exact (hdirNot 1 hm).1.2 rfl
    · refine List.nodup_append.mpr ⟨hmap.sound.nodup, hdir.sound.nodup, ?_⟩
      rintro a ha c hc rfl
      exact (hdirNot a hc).2 ha
  · rw [hdir.marks, hmap.marks, marks_headersMap, List.mem_cons, List.mem_cons, List.mem_append,
      or_assoc, or_assoc]

/-- **Formatting** any disk gives a consistent one without files, on which
the system has five sectors. -/
theorem format_spec (d : Disk) (heap : Heap) :
    ∃ s, format d heap = some s ∧ Consistent s ∧ s.freeMapFile.numSectors = 1
      ∧ s.directoryFile.numSectors = 2 ∧ ∀ i, s.entry i = none := by
  have hmark₀ : (Bitmap.new 1024).mark 0 = some ((Bitmap.new 1024).markBit 0) :=
    if_pos ⟨by decide, by decide⟩
  have hmark₁ : ((Bitmap.new 1024).markBit 0).mark 1 = some headersMap :=
    if_pos ⟨by decide, by decide⟩
  have hclear := numClear_headersMap
  -- the two files
  have hone : divRoundUp 128 128 = 1 := by decide
  have htwo : divRoundUp 200 128 = 2 := by decide
  obtain ⟨mapHdr, b₁, hmap, halm⟩ := allocate_of_clear (h := heap 1) numBits_headersMap
    (show (0 : Int) ≤ 128 by decide) (by decide) (by omega)
  have hclear₁ := halm.numClear
  obtain ⟨dirHdr, b₂, hdir, hald⟩ := allocate_of_clear (h := heap 2) halm.numBits
    (show (0 : Int) ≤ 200 by decide) (by decide) (by omega)
  have hformatted := formatted_of_allocated halm hald
  -- the headers on the disk, and the copies of them
  obtain ⟨d₁, hd₁, hsame₁, hframe₁⟩ := writeBack_eq (d := d) (h := mapHdr)
    (show InRange 0 from ⟨by decide, by decide⟩)
  obtain ⟨d₂, hd₂, hsame₂, hframe₂⟩ := writeBack_eq (d := d₁) (h := dirHdr)
    (show InRange 1 from ⟨by decide, by decide⟩)
  obtain ⟨mapFile, hopen₀, hcopy₀⟩ := fetchFrom_eq (d := d₂) (h := heap 3)
    (show InRange 0 from ⟨by decide, by decide⟩)
  obtain ⟨dirFile, hopen₁, hcopy₁⟩ := fetchFrom_eq (d := d₂) (h := heap 4)
    (show InRange 1 from ⟨by decide, by decide⟩)
  have hmapSame : SameHeader mapFile mapHdr :=
    hcopy₀.trans ((sameHeader_of_frame fun x hx => hframe₂ x (by omega)).trans hsame₁)
  have hdirSame : SameHeader dirFile dirHdr := hcopy₁.trans hsame₂
  have hmapSound := hmapSame.sound halm.sound
  have hdirSound := hdirSame.sound hald.sound
  have hmapSectors := hmapSame.sectors halm.sound
  have hdirSectors := hdirSame.sectors hald.sound
  have hmapLen : mapFile.numBytes = 128 := hmapSame.numBytes.trans halm.numBytes
  have hdirLen : dirFile.numBytes = 200 := hdirSame.numBytes.trans hald.numBytes
  -- their contents
  obtain ⟨d₃, hd₃, hbits₃, hframe₃⟩ := writeBackMap_eq (d := d₂) hmapSound hmapLen (heap 5)
    hald.numBits
  obtain ⟨d₄, hd₄, hentry₄, hframe₄⟩ := directory_writeBack_eq (d := d₃) hdirSound hdirLen
    (Directory.new (heap 0)) (heap 6)
  have hkept : ∀ sector, sector = 0 ∨ sector = 1 →
      SameHeader (header d₄ sector) (header d₂ sector) := fun sector hsec =>
    sameHeader_of_frame fun x hx => by
      rw [hframe₄ x fun hm => ?_, hframe₃ x fun hm => ?_]
      · have := hformatted.mapNot _ (hmapSectors ▸ hm)
        omega
      · have := (hformatted.dirNot _ (hdirSectors ▸ hm)).1
        omega
  have hnone : ∀ i, (⟨d₄, mapFile, dirFile⟩ : State).entry i = none := fun i =>
    (hentry₄ i).trans (entry_new (heap 0) i)
  have hfreeMap : (⟨d₄, mapFile, dirFile⟩ : State).freeMap = b₂ := by
    refine Eq.trans (bitmapOf_frame hmapSound hmapLen fun x hx => hframe₄ x fun hm => ?_) hbits₃
    exact (hformatted.dirNot _ (hdirSectors ▸ hm)).2 (hmapSectors ▸ hx)
  have hsystem : (⟨d₄, mapFile, dirFile⟩ : State).held none
      = 0 :: 1 :: (mapHdr.sectors ++ dirHdr.sectors) := by
    simp only [State.held, hmapSectors, hdirSectors]
  refine ⟨⟨d₄, mapFile, dirFile⟩, ?_, ⟨hmapSound, hmapLen,
    (hkept 0 (Or.inl rfl)).trans hcopy₀.symm, hdirSound, hdirLen,
    (hkept 1 (Or.inr rfl)).trans hcopy₁.symm, fun i a k he => ?_,
    Tracks.alone (p := none) ?_ (fun q hq => ?_) fun a => ?_, fun i j a c k he => ?_⟩,
    hmapSame.numSectors.trans (halm.numSectors.trans hone),
    hdirSame.numSectors.trans (hald.numSectors.trans htwo), hnone⟩
  · rw [format, hmark₀, Option.bind_some, hmark₁, Option.bind_some, hmap, Option.bind_some, hdir,
      Option.bind_some, hd₁, Option.bind_some, hd₂, Option.bind_some, hopen₀, Option.bind_some,
      hopen₁, Option.bind_some, hd₃, Option.bind_some, hd₄, Option.map_some]
  · rw [hnone] at he
    cases he
  · rw [hsystem]
    exact hformatted.nodup
  · obtain ⟨i, rfl⟩ := Option.ne_none_iff_exists'.mp hq
    simp only [State.held, hnone, State.fileSectors]
  · rw [hfreeMap, hsystem]
    exact hformatted.marks a
  · rw [hnone] at he
    cases he

theorem format_consistent (d : Disk) (heap : Heap) :
    ∃ s, format d heap = some s ∧ Consistent s := by
  obtain ⟨s, hf, hc, -⟩ := format_spec d heap
  exact ⟨s, hf, hc⟩

/-! ## One call -/

section Calls

variable {s : State}

/-- What a lookup finds in a consistent state. -/
theorem Consistent.find (hc : Consistent s) {t : Directory} (ht : ∀ i, t.entry i = s.entry i)
    (name : List UInt8) :
    t.findIndex name = none ∧ t.find name = -1 ∧ (∀ i a, s.entry i ≠ some (a, key name))
      ∨ ∃ i, t.findIndex name = some i ∧ s.entry i = some (t.find name, key name)
          ∧ InRange (t.find name) := by
  cases hf : t.findIndex name with
  | none =>
      exact Or.inl ⟨rfl, by rw [Directory.find, hf], fun i a => ht i ▸ findIndex_none hf i a⟩
  | some i =>
      have he := (ht i).symm.trans (findIndex_some hf)
      exact Or.inr ⟨i, rfl, he, hc.inRange (mem_held_of_entry he)⟩

theorem Consistent.not_held (hc : Consistent s) {a : Int} (ha : ¬s.freeMap.Marks a)
    (p : Option Nat) : a ∉ s.held p := fun hm => ha ((hc.tracks.taken a).mpr ⟨p, hm⟩)

/-- Why `Create` returns false: the name is taken, the directory is full, or
there are too few free sectors for the header and the data. -/
def Refused (s : State) (name : List UInt8) (initialSize : Int) : Prop :=
  (∃ j b, s.entry j = some (b, key name)) ∨ (∀ j < 10, s.entry j ≠ none)
    ∨ (s.freeMap.numClear : Int) < 1 + divRoundUp initialSize 128

/-- What `Create` has done when it returns true: entry `i` and the sectors
from the header in sector `a` on are those of the new file. -/
structure Created (s : State) (name : List UInt8) (initialSize : Int) (s' : State) (i : Nat)
    (a : Int) : Prop where
  free : i < 10 ∧ s.entry i = none
  absent : ∀ j b, s.entry j ≠ some (b, key name)
  room : 1 + divRoundUp initialSize 128 ≤ (s.freeMap.numClear : Int)
  changed : Changed s s' i (some (a, key name))
  numBytes : (DiskFS.header s'.disk a).numBytes = initialSize
  numSectors : (DiskFS.header s'.disk a).numSectors = divRoundUp initialSize 128
  kept : ∀ j x, x / 128 ∈ s.held (some j) → s'.disk x = s.disk x
  consistent : Consistent s'

/-- **`Create`**: it returns false and nothing has changed, or it fills a free
entry. -/
theorem create_spec (hc : Consistent s) (name : List UInt8) {initialSize : Int} (heap : Heap)
    (h0 : 0 ≤ initialSize) (hmax : initialSize ≤ 3840) :
    (create s name initialSize heap = some (false, s) ∧ Refused s name initialSize)
      ∨ ∃ s' i a, create s name initialSize heap = some (true, s')
          ∧ Created s name initialSize s' i a := by
  obtain ⟨t, ht, hentry⟩ := directory_fetchFrom_eq (d := s.disk) hc.directorySound
    hc.directoryLength (Directory.new (heap 0))
  rw [create, ht, Option.bind_some]
  have hdiv := (divRoundUp_bounds h0).1
  rcases hc.find hentry name with ⟨hindex, hfind, habsent⟩ | ⟨i, -, he, hrange⟩
  case inr =>
    have := hrange.1
    exact Or.inl ⟨if_pos (by omega), Or.inl ⟨i, _, he⟩⟩
  rw [if_neg (not_not.mpr hfind), fetchMap_eq hc.mapSound hc.mapLength, Option.bind_some]
  rcases Bitmap.findAndSet_cases (bitmapOf (content s.disk s.freeMapFile)) with
    ⟨hfull, -⟩ | ⟨sector, hset, hlt, hfree, -⟩
  · have hnone : s.freeMap.numClear = 0 := by
      by_contra hne
      obtain ⟨i, hset, -⟩ := Bitmap.findAndSet_of_clear (Nat.pos_of_ne_zero hne)
      exact absurd (congrArg Prod.fst (hfull.symm.trans hset)).symm (Option.some_ne_none i)
    rw [hfull]
    exact Or.inl ⟨rfl, Or.inr (Or.inr (by omega))⟩
  rw [hset]
  have hsec : InRange sector := ⟨by omega, Int.ofNat_lt.mpr hlt⟩
  have hint : IsInt (sector : Int) :=
    ⟨by simp only [intMin]; omega, by have := hsec.2; simp only [intMax]; omega⟩
  rcases add_cases hindex hint with hadd | ⟨i, t', hi, hempty, hadd, hentry'⟩
  · refine Or.inl ⟨by simp only [hadd], Or.inr (Or.inl fun j hj he => ?_)⟩
    exact add_full hindex hadd hj ((hentry j).trans he)
  simp only [hadd]
  -- the sector of the header is taken, then those of the data
  have hmarked := marks_markBit (b := bitmapOf (content s.disk s.freeMapFile)) hlt
  have hnot : ¬s.freeMap.Marks sector := by
    rw [marks_iff, Int.toNat_natCast]
    exact fun h => absurd (hfree.symm.trans h.2.2) Bool.false_ne_true
  have hcount : ((bitmapOf (content s.disk s.freeMapFile)).markBit sector).numClear + 1
      = s.freeMap.numClear := Bitmap.numClear_markBit hlt hfree
  rcases allocate_cases (h := heap 1)
      (b := (bitmapOf (content s.disk s.freeMapFile)).markBit sector) rfl h0 hmax with
    ⟨hfew, h', heq⟩ | ⟨hdr, b', heq, hal⟩
  · exact Or.inl ⟨by rw [heq, Option.bind_some], Or.inr (Or.inr (by omega))⟩
  right
  have hroom := hal.numClear
  have hnotMap : (sector : Int) ∉ s.freeMapFile.sectors := fun hm =>
    hc.not_held hnot none (mem_held_of_mapFile hm)
  have hnotDir : (sector : Int) ∉ s.directoryFile.sectors := fun hm =>
    hc.not_held hnot none (mem_held_of_directoryFile hm)
  obtain ⟨d₁, hd₁, hsame₁, hframe₁⟩ := writeBack_eq (d := s.disk) (h := hdr) hsec
  obtain ⟨d₂, hd₂, hentry₂, hframe₂⟩ := directory_writeBack_eq (d := d₁) hc.directorySound
    hc.directoryLength t' (heap 2)
  obtain ⟨d₃, hd₃, hbits₃, hframe₃⟩ := writeBackMap_eq (d := d₂) hc.mapSound hc.mapLength (heap 3)
    hal.numBits
  have hheader : SameHeader (header d₃ sector) hdr := (sameHeader_of_frame fun x hx => by
    rw [hframe₃ x (hx ▸ hnotMap), hframe₂ x (hx ▸ hnotDir)]).trans hsame₁
  have hch : Changed s { s with disk := d₃ } i (some ((sector : Int), key name)) := by
    refine hc.changed (fun x h₁ h₂ h₃ => ?_) (fun p _ => hc.not_held hnot p) fun j => ?_
    · rw [hframe₃ x h₁, hframe₂ x h₂, hframe₁ x h₃]
    · rw [entry_frame hc.directorySound hc.directoryLength fun x hx =>
        hframe₃ x fun hm => (hc.system.1 _ hm).2.2 hx, hentry₂, hentry', hentry]
      rfl
  have hempty' : s.entry i = none := (hentry i).symm.trans hempty
  refine ⟨{ s with disk := d₃ }, i, sector, ?_, ⟨hi, hempty'⟩, habsent, by omega, hch,
    hheader.numBytes.trans hal.numBytes, hheader.numSectors.trans hal.numSectors,
    fun j x hx => ?_, ?_⟩
  · rw [heq, Option.bind_some]
    simp only [hd₁]
    rw [Option.bind_some, hd₂, Option.bind_some, hd₃, Option.map_some]
  · have hsystem : x / 128 ∉ s.held none := hc.tracks.disjoint (some j) none (by simp) _ hx
    dsimp only
    rw [hframe₃ x fun hm => hsystem (mem_held_of_mapFile hm),
      hframe₂ x fun hm => hsystem (mem_held_of_directoryFile hm),
      hframe₁ x fun he => hc.not_held hnot (some j) (he ▸ hx)]
  refine hc.change hch (fun a k he => ?_) (fun a k j b _ he => ?_) ?_
  · obtain ⟨rfl, -⟩ := Prod.mk.inj (Option.some.inj he)
    exact hheader.sound hal.sound
  · obtain ⟨-, rfl⟩ := Prod.mk.inj (Option.some.inj he)
    exact habsent j b
  · have hnil : s.held (some i) = [] := by
      simp only [State.held, hempty', State.fileSectors]
    have hnodup : ((sector : Int) :: hdr.sectors).Nodup := List.nodup_cons.mpr
      ⟨fun hm => hal.fresh _ hm ((hmarked _).mpr (Or.inr rfl)), hal.sound.nodup⟩
    have hmarks : ∀ a, b'.Marks a ↔ s.freeMap.Marks a ∨ a ∈ (sector : Int) :: hdr.sectors := by
      intro a
      rw [hal.marks, hmarked, List.mem_cons, or_assoc]
      rfl
    have htake := hc.tracks.takeAll (p := some i) hnodup (fun a ha => ?_) hmarks
    · rw [hnil, List.nil_append] at htake
      rw [State.fileSectors, hheader.sectors hal.sound, State.freeMap, hbits₃]
      exact htake
    · rcases List.mem_cons.mp ha with rfl | ha
      · exact hnot
      · exact fun hm => hal.fresh a ha ((hmarked a).mpr (Or.inl hm))

theorem create_cases (hc : Consistent s) (name : List UInt8) {initialSize : Int} (heap : Heap)
    (h0 : 0 ≤ initialSize) (hmax : initialSize ≤ 3840) :
    create s name initialSize heap = some (false, s)
      ∨ ∃ s' i a, create s name initialSize heap = some (true, s') ∧ s.entry i = none
          ∧ (∀ j b, s.entry j ≠ some (b, key name)) ∧ Changed s s' i (some (a, key name))
          ∧ Consistent s' := by
  rcases create_spec hc name heap h0 hmax with ⟨heq, -⟩ | ⟨s', i, a, heq, hcr⟩
  · exact Or.inl heq
  · exact Or.inr ⟨s', i, a, heq, hcr.free.2, hcr.absent, hcr.changed, hcr.consistent⟩

/-- What `Remove` has done when it returns true: entry `i` is free, and the
other files are as they were. -/
structure Removed (s : State) (name : List UInt8) (s' : State) (i : Nat) (a : Int) : Prop where
  present : s.entry i = some (a, key name)
  changed : Changed s s' i none
  kept : ∀ j x, x / 128 ∈ s.held (some j) → s'.disk x = s.disk x
  consistent : Consistent s'

/-- **`Remove`**: there is no such file and nothing changes, or its entry is
freed. -/
theorem remove_spec (hc : Consistent s) (name : List UInt8) (heap : Heap) :
    (remove s name heap = some (false, s) ∧ ∀ i a, s.entry i ≠ some (a, key name))
      ∨ ∃ s' i a, remove s name heap = some (true, s') ∧ Removed s name s' i a := by
  obtain ⟨t, ht, hentry⟩ := directory_fetchFrom_eq (d := s.disk) hc.directorySound
    hc.directoryLength (Directory.new (heap 0))
  rw [remove, ht, Option.bind_some]
  rcases hc.find hentry name with ⟨-, hfind, habsent⟩ | ⟨i, hindex, he, hrange⟩
  · exact Or.inl ⟨if_pos hfind, habsent⟩
  right
  have hne : t.find name ≠ -1 := by
    have := hrange.1
    omega
  obtain ⟨hdr, hfetch, hsame⟩ := fetchFrom_eq (d := s.disk) (h := heap 1) hrange
  have hsound := hc.fileSound i _ _ he
  have hsectors := hsame.sectors hsound
  have hheld : s.held (some i) = t.find name :: hdr.sectors := by
    simp only [State.held, he, State.fileSectors]
    rw [hsectors]
  have hmarked : ∀ a ∈ t.find name :: hdr.sectors, s.freeMap.Marks a := fun a ha =>
    (hc.tracks.taken a).mpr ⟨some i, hheld ▸ ha⟩
  have hown : t.find name ∉ hdr.sectors := (List.nodup_cons.mp (hheld ▸ hc.tracks.nodup (some i))).1
  -- the data sectors go back, then the sector of the header
  obtain ⟨b₁, hdeal, hbits₁, hmarks₁⟩ := deallocate_eq (h := hdr) (b := s.freeMap) rfl
    (hsame.sound hsound) fun a ha => hmarked a (List.mem_cons_of_mem _ ha)
  have hlt : (t.find name).toNat < b₁.numBits := by
    have := hrange.1
    have := hrange.2
    omega
  have hclear : b₁.clear (t.find name) = some (b₁.clearBit (t.find name).toNat) :=
    if_pos ⟨hrange.1, by rw [hbits₁]; exact hrange.2⟩
  obtain ⟨t', ht', hentry'⟩ := remove_eq hindex
  obtain ⟨d₁, hd₁, hbits, hframe₁⟩ := writeBackMap_eq (d := s.disk) hc.mapSound hc.mapLength
    (heap 2) (b := b₁.clearBit (t.find name).toNat) hbits₁
  obtain ⟨d₂, hd₂, hentry₂, hframe₂⟩ := directory_writeBack_eq (d := d₁) hc.directorySound
    hc.directoryLength t' (heap 3)
  have hch : Changed s { s with disk := d₂ } i none := by
    have hother : ∀ p, p ≠ some i → t.find name ∉ s.held p := fun p hp hm =>
      hc.tracks.disjoint (some i) p hp.symm _ (mem_held_of_entry he) hm
    refine hc.changed (fun x h₁ h₂ _ => ?_) hother fun j => ?_
    · rw [hframe₂ x h₂, hframe₁ x h₁]
    · rw [hentry₂, hentry', hentry]
      rfl
  refine ⟨{ s with disk := d₂ }, i, t.find name, ?_, he, hch, fun j x hx => ?_, ?_⟩
  · rw [if_neg hne, hfetch, Option.bind_some, fetchMap_eq hc.mapSound hc.mapLength,
      Option.bind_some]
    rw [State.freeMap] at hdeal
    rw [hdeal, Option.bind_some, hclear, Option.bind_some, hd₁, Option.bind_some, ht']
    simp only [hd₂]
    rw [Option.map_some]
  · have hsystem : x / 128 ∉ s.held none := hc.tracks.disjoint (some j) none (by simp) _ hx
    dsimp only
    rw [hframe₂ x fun hm => hsystem (mem_held_of_directoryFile hm),
      hframe₁ x fun hm => hsystem (mem_held_of_mapFile hm)]
  refine hc.change hch (by rintro a k ⟨⟩) (by rintro a k j b - ⟨⟩) ?_
  have hbits' : ({ s with disk := d₂ } : State).freeMap = b₁.clearBit (t.find name).toNat := by
    refine Eq.trans (bitmapOf_frame hc.mapSound hc.mapLength fun x hx => hframe₂ x fun hm => ?_)
      hbits
    exact (hc.system.1 _ hx).2.2 hm
  rw [hbits', State.fileSectors]
  refine hc.tracks.giveAll hheld fun a => ?_
  rw [marks_clearBit hlt, hmarks₁, List.mem_cons, not_or, Int.toNat_of_nonneg hrange.1, and_assoc]
  exact and_congr_right fun _ => And.comm

theorem remove_cases (hc : Consistent s) (name : List UInt8) (heap : Heap) :
    (remove s name heap = some (false, s) ∧ ∀ i a, s.entry i ≠ some (a, key name))
      ∨ ∃ s' i a, remove s name heap = some (true, s') ∧ s.entry i = some (a, key name)
          ∧ Changed s s' i none ∧ Consistent s' := by
  rcases remove_spec hc name heap with hnone | ⟨s', i, a, heq, hrm⟩
  · exact Or.inl hnone
  · exact Or.inr ⟨s', i, a, heq, hrm.present, hrm.changed, hrm.consistent⟩

theorem create_false {s' : State} {name : List UInt8} {initialSize : Int} {heap : Heap}
    (h : create s name initialSize heap = some (false, s')) : s' = s := by
  rw [create] at h
  obtain ⟨t, -, h⟩ := Option.bind_eq_some_iff.mp h
  split at h
  next => exact (Prod.mk.inj (Option.some.inj h)).2.symm
  next =>
      obtain ⟨b, -, h⟩ := Option.bind_eq_some_iff.mp h
      split at h
      next => exact (Prod.mk.inj (Option.some.inj h)).2.symm
      next =>
          split at h
          next => exact (Prod.mk.inj (Option.some.inj h)).2.symm
          next =>
              obtain ⟨r, -, h⟩ := Option.bind_eq_some_iff.mp h
              split at h
              next => exact (Prod.mk.inj (Option.some.inj h)).2.symm
              next =>
                  obtain ⟨d₁, -, h⟩ := Option.bind_eq_some_iff.mp h
                  obtain ⟨d₂, -, h⟩ := Option.bind_eq_some_iff.mp h
                  obtain ⟨d₃, -, h⟩ := Option.map_eq_some_iff.mp h
                  exact absurd (Prod.mk.inj h).1 (by decide)

end Calls

/-! ## Runs -/

/-- The calls that change the directory. -/
inductive Call where
  | create (name : List UInt8) (initialSize : Int) (heap : Heap)
  | remove (name : List UInt8) (heap : Heap)

def step (s : State) : Call → Option State
  | .create name initialSize heap => (create s name initialSize heap).map Prod.snd
  | .remove name heap => (remove s name heap).map Prod.snd

/-- No file is larger than `MaxFileSize`. -/
def SizeOK (_ : State) : Call → Prop
  | .create _ initialSize _ => 0 ≤ initialSize ∧ initialSize ≤ 3840
  | .remove _ _ => True

theorem step_consistent {s : State} (hc : Consistent s) (c : Call) (hok : SizeOK s c) :
    ∃ s', step s c = some s' ∧ Consistent s' := by
  cases c with
  | create name initialSize heap =>
      rcases create_cases hc name heap hok.1 hok.2 with heq | ⟨s', i, a, heq, -, -, -, hc'⟩
      · exact ⟨s, by rw [step, heq, Option.map_some], hc⟩
      · exact ⟨s', by rw [step, heq, Option.map_some], hc'⟩
  | remove name heap =>
      rcases remove_cases hc name heap with ⟨heq, -⟩ | ⟨s', i, a, heq, -, -, hc'⟩
      · exact ⟨s, by rw [step, heq, Option.map_some], hc⟩
      · exact ⟨s', by rw [step, heq, Option.map_some], hc'⟩

theorem reach_consistent {s₀ s : State} (h₀ : Consistent s₀) (h : Reach step SizeOK s₀ s) :
    Consistent s := by
  refine Reach.invariant h₀ (fun s c s' _ hc hok hs => ?_) h
  obtain ⟨s₁, hs₁, hc₁⟩ := step_consistent hc c hok
  obtain rfl := Option.some.inj (hs.symm.trans hs₁)
  exact hc₁

/-! ## The disk itself -/

/-- The directory on a disk: the content of the file with the header in
sector 1. -/
def directoryOf (d : Disk) : Directory := content d (header d 1)

/-- The sectors that are in use on a disk. -/
def usedSectors (d : Disk) : List Int :=
  [0, 1] ++ (header d 0).sectors ++ (header d 1).sectors
    ++ (List.range 10).flatMap fun i =>
      if (directoryOf d).inUse i then
        (directoryOf d).sector i :: (header d ((directoryOf d).sector i)).sectors
      else []

/-- What is asked of a disk. -/
structure DiskOK (d : Disk) : Prop where
  distinct : (usedSectors d).Nodup
  inRange : ∀ a ∈ usedSectors d, 0 ≤ a ∧ a < 1024
  bitmap : ∀ a, (bitmapOf (content d (header d 0))).test a = some true ↔ a ∈ usedSectors d
  names : ∀ i < 10, ∀ j < 10, (directoryOf d).inUse i → (directoryOf d).inUse j →
    strncmpEq 9 ((directoryOf d).name i) ((directoryOf d).name j) → i = j

section Disk

variable {s : State}

theorem Consistent.entry_directoryOf (hc : Consistent s) (i : Nat) :
    (directoryOf s.disk).entry i = s.entry i := by
  rw [State.entry]
  by_cases hi : i < 10
  · exact entry_congr fun x h0 hx => hc.directoryHeader.content (by omega) (by omega)
  · rw [entry_of_le (by omega), entry_of_le (by omega)]

theorem Consistent.freeMap_eq (hc : Consistent s) :
    bitmapOf (content s.disk (header s.disk 0)) = s.freeMap := by
  rw [State.freeMap]
  exact bitmapOf_congr fun x h0 hx => hc.mapHeader.content h0 (by omega)

theorem fileSectors_entry (d : Disk) (t : Directory) {i : Nat} (hi : i < 10) :
    State.fileSectors d (t.entry i)
      = if t.inUse i then t.sector i :: (header d (t.sector i)).sectors else [] := by
  rw [Directory.entry]
  by_cases huse : t.inUse i = true
  · rw [if_pos huse, if_pos ⟨hi, huse⟩, State.fileSectors]
  · rw [if_neg huse, if_neg fun h => huse h.2, State.fileSectors]

theorem Consistent.usedSectors_eq (hc : Consistent s) :
    usedSectors s.disk = s.held none ++ (List.range 10).flatMap fun i => s.held (some i) := by
  have hfile : ∀ i ∈ List.range 10, (if (directoryOf s.disk).inUse i = true then
      (directoryOf s.disk).sector i :: (header s.disk ((directoryOf s.disk).sector i)).sectors
      else []) = s.held (some i) := fun i hi => by
    rw [State.held, ← hc.entry_directoryOf, fileSectors_entry _ _ (List.mem_range.mp hi)]
  have hsystem : ∀ xs ys : List Int, [0, 1] ++ xs ++ ys = 0 :: 1 :: (xs ++ ys) := fun _ _ => rfl
  rw [usedSectors, hc.mapHeader.sectors hc.mapSound, hc.directoryHeader.sectors hc.directorySound,
    List.flatMap_congr hfile, hsystem, State.held]

theorem Consistent.mem_usedSectors (hc : Consistent s) (a : Int) :
    a ∈ usedSectors s.disk ↔ ∃ p, a ∈ s.held p := by
  rw [hc.usedSectors_eq, List.mem_append, List.mem_flatMap]
  constructor
  · rintro (ha | ⟨i, -, ha⟩)
    · exact ⟨none, ha⟩
    · exact ⟨some i, ha⟩
  · rintro ⟨p, ha⟩
    cases p with
    | none => exact Or.inl ha
    | some i =>
        refine Or.inr ⟨i, List.mem_range.mpr ?_, ha⟩
        by_contra hi
        rw [State.held, State.entry, entry_of_le (by omega)] at ha
        exact absurd ha List.not_mem_nil

theorem Consistent.diskOK (hc : Consistent s) : DiskOK s.disk := by
  refine ⟨?_, fun a ha => ?_, fun a => ?_, fun i hi j hj hi' hj' hname => ?_⟩
  · rw [hc.usedSectors_eq]
    refine List.nodup_append.mpr ⟨hc.tracks.nodup none, ?_, ?_⟩
    · refine List.nodup_flatMap.mpr ⟨fun i _ => hc.tracks.nodup (some i), ?_⟩
      refine List.Pairwise.imp (fun {i j} (hij : i < j) a ha hb => ?_) List.pairwise_lt_range
      exact hc.tracks.disjoint (some i) (some j) (by simp; omega) a ha hb
    · rintro a ha b hb rfl
      obtain ⟨i, -, hb⟩ := List.mem_flatMap.mp hb
      exact hc.tracks.disjoint none (some i) (by simp) a ha hb
  · obtain ⟨p, hp⟩ := (hc.mem_usedSectors a).mp ha
    exact hc.inRange hp
  · rw [hc.freeMap_eq, hc.mem_usedSectors, ← hc.tracks.taken, Bitmap.Marks]
  · have hkey := (strncmpEq_iff ..).mp hname
    have hi := entry_eq_some.mpr ⟨hi, hi', rfl, hkey⟩
    have hj := entry_eq_some.mpr ⟨hj, hj', rfl, rfl⟩
    rw [hc.entry_directoryOf] at hi hj
    exact hc.names i j _ _ _ hi hj

end Disk

/-- **The disk stays consistent.** Formatting succeeds on every disk; in every
state that calls of `Create` and `Remove` lead to from there the disk is
consistent, the next call returns, and a `Create` that returns false leaves
the disk as it was. -/
theorem disk_consistent (d : Disk) (heap : Heap) :
    ∃ s₀, format d heap = some s₀ ∧ ∀ s, Reach step SizeOK s₀ s →
      DiskOK s.disk ∧ (∀ c, SizeOK s c → (step s c).isSome)
        ∧ ∀ name initialSize heap s', create s name initialSize heap = some (false, s') →
            s'.disk = s.disk := by
  obtain ⟨s₀, hf, hc₀⟩ := format_consistent d heap
  refine ⟨s₀, hf, fun s hr => ?_⟩
  have hc := reach_consistent hc₀ hr
  refine ⟨hc.diskOK, fun c hok => ?_, fun name initialSize heap s' h => ?_⟩
  · obtain ⟨s', hs', -⟩ := step_consistent hc c hok
    rw [hs', Option.isSome_some]
  · rw [create_false h]

end DiskFS

end Nachos
