import Nachos.Directory
import Nachos.FreeMap
import Nachos.Ownership

/-!
# The file system on the disk

`FileSystem` of `filesys/filesys.cc` in the build without `FILESYS_STUB`:
formatting, `Create`, `Open` and `Remove` over the bitmap and the directory,
which are themselves files whose headers are in sectors 0 and 1.

The two files stay open, so their headers are copies in memory
(`freeMapFile`, `directoryFile`); of an `OpenFile` only the header is kept
here, as no operation below reads a seek position. What an operation finds in
the memory it allocates is an argument, by the order of the allocations
(`heap`). `none` stands for a failed assertion.

The last block of the constructor, which creates "stdin" and "stdout" and opens
them, is left out. It does not compile in this build: the table `openfile` and
`Open` with a type are members of the stub only.

`Consistent` is the invariant that ties the bitmap, the directory and the
headers together. Who holds which sector is the subject of `Ownership`: the
holders are the system and the ten entries of the directory.
-/

namespace Nachos

namespace DiskFS

open CInt ByteMemory Ownership

/-! ## The operations -/

/-- The bytes that the allocations of an operation find, in order. -/
abbrev Heap := Nat → Memory

structure State where
  disk : Disk
  freeMapFile : FileHeader
  directoryFile : FileHeader

/-- `ASSERT` on a result. -/
def asserted {α : Type} : Bool × α → Option α
  | (true, x) => some x
  | (false, _) => none

/-- The formatting of the disk in `FileSystem::FileSystem(TRUE)`. -/
def format (d : Disk) (heap : Heap) : Option State :=
  ((Bitmap.new 1024).mark 0).bind fun freeMap =>
  (freeMap.mark 1).bind fun freeMap =>
  ((FileHeader.allocate (heap 1) freeMap 128).bind asserted).bind fun map =>
  ((FileHeader.allocate (heap 2) map.2 200).bind asserted).bind fun dir =>
  (map.1.writeBack d 0).bind fun d =>
  (dir.1.writeBack d 1).bind fun d =>
  (FileHeader.fetchFrom (heap 3) d 0).bind fun freeMapFile =>
  (FileHeader.fetchFrom (heap 4) d 1).bind fun directoryFile =>
  (writeBackMap d freeMapFile (heap 5) dir.2).bind fun d =>
  ((Directory.new (heap 0)).writeBack d directoryFile (heap 6)).map fun d =>
    ⟨d, freeMapFile, directoryFile⟩

/-- `FileSystem::Create`. -/
def create (s : State) (name : List UInt8) (initialSize : Int) (heap : Heap) :
    Option (Bool × State) :=
  ((Directory.new (heap 0)).fetchFrom s.disk s.directoryFile).bind fun directory =>
    if directory.find name ≠ -1 then some (false, s)
    else
      (fetchMap s.disk s.freeMapFile).bind fun freeMap =>
        match freeMap.findAndSet with
        | (none, _) => some (false, s)
        | (some sector, freeMap) =>
            match directory.add name sector with
            | (false, _) => some (false, s)
            | (true, directory) =>
                (FileHeader.allocate (heap 1) freeMap initialSize).bind fun r =>
                  match r with
                  | (false, _) => some (false, s)
                  | (true, hdr, freeMap) =>
                      (hdr.writeBack s.disk sector).bind fun d =>
                      (directory.writeBack d s.directoryFile (heap 2)).bind fun d =>
                      (writeBackMap d s.freeMapFile (heap 3) freeMap).map fun d =>
                        (true, { s with disk := d })

/-- `FileSystem::Open`: the header of the `OpenFile`, or `none` within for
`NULL`. -/
def openFile (s : State) (name : List UInt8) (heap : Heap) : Option (Option FileHeader) :=
  ((Directory.new (heap 0)).fetchFrom s.disk s.directoryFile).bind fun directory =>
    if directory.find name ≥ 0 then
      (FileHeader.fetchFrom (heap 1) s.disk (directory.find name)).map some
    else some none

/-- `FileSystem::Remove`. -/
def remove (s : State) (name : List UInt8) (heap : Heap) : Option (Bool × State) :=
  ((Directory.new (heap 0)).fetchFrom s.disk s.directoryFile).bind fun directory =>
    if directory.find name = -1 then some (false, s)
    else
      (FileHeader.fetchFrom (heap 1) s.disk (directory.find name)).bind fun fileHdr =>
      (fetchMap s.disk s.freeMapFile).bind fun freeMap =>
      (fileHdr.deallocate freeMap).bind fun freeMap =>
      (freeMap.clear (directory.find name)).bind fun freeMap =>
      (writeBackMap s.disk s.freeMapFile (heap 2) freeMap).bind fun d =>
      ((directory.remove name).2.writeBack d s.directoryFile (heap 3)).map fun d =>
        (true, { s with disk := d })

/-! ## Headers on the disk -/

/-- The header in a sector. -/
def header (d : Disk) (sector : Int) : FileHeader := fun x => d (sector * 128 + x)

/-- Headers with the same bytes. -/
def SameHeader (h h' : FileHeader) : Prop := ∀ x, 0 ≤ x → x < 128 → h x = h' x

section Headers

variable {d d' : Disk} {h h' : FileHeader} {sector : Int}

theorem SameHeader.symm (hh : SameHeader h h') : SameHeader h' h := fun x h0 hx => (hh x h0 hx).symm

theorem SameHeader.trans {h'' : FileHeader} (hh : SameHeader h h') (hh' : SameHeader h' h'') :
    SameHeader h h'' := fun x h0 hx => (hh x h0 hx).trans (hh' x h0 hx)

theorem SameHeader.numBytes (hh : SameHeader h h') : h.numBytes = h'.numBytes :=
  word_congr fun x _ _ => hh _ (by omega) (by omega)

theorem SameHeader.numSectors (hh : SameHeader h h') : h.numSectors = h'.numSectors :=
  word_congr fun x _ _ => hh _ (by omega) (by omega)

theorem SameHeader.dataSector (hh : SameHeader h h') {i : Int} (h0 : 0 ≤ i) (hi : i < 30) :
    h.dataSector i = h'.dataSector i :=
  word_congr fun x _ _ => hh _ (by omega) (by omega)

theorem SameHeader.sound (hh : SameHeader h h') (hs : Sound h') : Sound h := by
  have hbytes := hh.numBytes
  have hsectors := hh.numSectors
  have hdirect := hs.direct
  have hdata : ∀ i, 0 ≤ i → i < h.numSectors → h.dataSector i = h'.dataSector i :=
    fun i h0 hi => hh.dataSector h0 (by omega)
  have hnonneg := hs.nonneg
  refine ⟨by omega, by rw [hbytes, hsectors]; exact hs.covers, by omega,
    fun i h0 hi => ?_, fun i j h0 hi h0' hj he => ?_⟩
  · rw [hdata i h0 hi]
    exact hs.inRange i h0 (by omega)
  · rw [hdata i h0 hi, hdata j h0' hj] at he
    exact hs.distinct i j h0 (by omega) h0' (by omega) he

theorem SameHeader.sectors (hh : SameHeader h h') (hs : Sound h') : h.sectors = h'.sectors := by
  rw [FileHeader.sectors, FileHeader.sectors, hh.numSectors]
  refine List.map_congr_left fun i hi => hh.dataSector (by omega) ?_
  have := List.mem_range.mp hi
  have := hs.direct
  omega

theorem SameHeader.content (hh : SameHeader h h') {k : Int} (h0 : 0 ≤ k) (hk : k < 3840) :
    content d h k = content d h' k := by
  simp only [DiskFS.content]
  rw [hh.dataSector (by omega) (by omega)]

theorem sameHeader_of_frame (hd : ∀ x, x / 128 = sector → d' x = d x) :
    SameHeader (header d' sector) (header d sector) :=
  fun x h0 hx => hd _ (by omega)

theorem fetchFrom_eq (hr : InRange sector) :
    ∃ h', h.fetchFrom d sector = some h' ∧ SameHeader h' (header d sector) := by
  refine ⟨_, by rw [FileHeader.fetchFrom, readSector, if_pos hr, Option.map_some],
    fun x h0 hx => ?_⟩
  rw [write_read_of_mem h0 (by omega)]
  exact congrArg d (by omega)

theorem writeBack_eq (hr : InRange sector) :
    ∃ d', h.writeBack d sector = some d' ∧ SameHeader (header d' sector) h
      ∧ ∀ x, x / 128 ≠ sector → d' x = d x := by
  refine ⟨_, by rw [FileHeader.writeBack, writeSector, if_pos hr], fun x h0 hx => ?_,
    fun x hx => write_read_of_not_mem (by omega)⟩
  simp only [header]
  rw [write_read_of_mem (by omega) (by omega)]
  exact congrArg h (by omega)

/-! ## The two files of the system -/

/-- A file none of whose sectors changes keeps its content. -/
theorem content_frame (hs : Sound h) (hd : ∀ x, x / 128 ∈ h.sectors → d' x = d x) {k : Int}
    (h0 : 0 ≤ k) (hk : k < h.numBytes) : content d' h k = content d h k := by
  have hcov := hs.covers
  refine hd _ (mem_sectors.mpr ⟨k / 128, by omega, by omega, ?_⟩)
  omega

theorem transferred_all (h0 : 0 ≤ h.numBytes) : transferred h h.numBytes 0 = h.numBytes := by
  rw [transferred]
  omega

theorem isInt_length (hs : Sound h) : IsInt (0 + h.numBytes) := by
  have := hs.length_le
  have := hs.nonneg
  exact ⟨by simp only [intMin]; omega, by simp only [intMax]; omega⟩

/-- A whole file read. -/
theorem readAt_all (hs : Sound h) :
    readAt d h h.numBytes 0 = some (read (content d h) 0 h.numBytes.toNat) := by
  rw [readAt_eq hs le_rfl (isInt_length hs), transferred_all hs.nonneg]

/-- A whole file written. -/
theorem writeAt_all (hs : Sound h) (junk data : Memory) :
    ∃ d', (writeAt d h junk data h.numBytes 0).map Prod.snd = some d'
      ∧ (∀ k, 0 ≤ k → k < h.numBytes → content d' h k = data k)
      ∧ ∀ x, x / 128 ∉ h.sectors → d' x = d x := by
  obtain ⟨d', hw, hin, hframe⟩ := writeAt_eq (d := d) hs junk data le_rfl (isInt_length hs)
  refine ⟨d', by rw [hw, Option.map_some], fun k h0 hk => ?_, hframe⟩
  rw [hin k h0 hk, transferred_all hs.nonneg, if_pos ⟨h0, by omega⟩, Int.sub_zero]

theorem fetchMap_eq (hs : Sound h) (hlen : h.numBytes = 128) :
    fetchMap d h = some (bitmapOf (content d h)) := by
  have hread := readAt_all (d := d) hs
  rw [hlen] at hread
  rw [fetchMap, hread, Option.map_some]
  refine congrArg some (bitmapOf_congr fun x h0 hx => ?_)
  rw [write_read_of_mem h0 (by omega)]
  exact congrArg (content d h) (by omega)

theorem writeBackMap_eq (hs : Sound h) (hlen : h.numBytes = 128) (junk : Memory) {b : Bitmap}
    (hb : b.numBits = 1024) :
    ∃ d', writeBackMap d h junk b = some d' ∧ bitmapOf (content d' h) = b
      ∧ ∀ x, x / 128 ∉ h.sectors → d' x = d x := by
  obtain ⟨d', hw, hin, hframe⟩ := writeAt_all (d := d) hs junk (mapBytes b)
  rw [hlen] at hw
  refine ⟨d', hw, ?_, hframe⟩
  rw [bitmapOf_congr fun x h0 hx => hin x h0 (by omega), bitmapOf_mapBytes hb]

theorem directory_fetchFrom_eq (hs : Sound h) (hlen : h.numBytes = 200) (t : Directory) :
    ∃ t', t.fetchFrom d h = some t' ∧ ∀ i, t'.entry i = Directory.entry (content d h) i := by
  have hread := readAt_all (d := d) hs
  rw [hlen] at hread
  refine ⟨_, by rw [Directory.fetchFrom, hread, Option.map_some], fun i => ?_⟩
  by_cases hi : i < 10
  · refine entry_congr fun x h0 hx => ?_
    rw [write_read_of_mem (by omega) (by omega)]
    exact congrArg (content d h) (by omega)
  · rw [entry_of_le (by omega), entry_of_le (by omega)]

theorem directory_writeBack_eq (hs : Sound h) (hlen : h.numBytes = 200) (t : Directory)
    (junk : Memory) :
    ∃ d', t.writeBack d h junk = some d'
      ∧ (∀ i, Directory.entry (content d' h) i = t.entry i)
      ∧ ∀ x, x / 128 ∉ h.sectors → d' x = d x := by
  obtain ⟨d', hw, hin, hframe⟩ := writeAt_all (d := d) hs junk t
  rw [hlen] at hw
  refine ⟨d', hw, fun i => ?_, hframe⟩
  by_cases hi : i < 10
  · exact entry_congr fun x h0 hx => hin x (by omega) (by omega)
  · rw [entry_of_le (by omega), entry_of_le (by omega)]

/-- The directory and the bitmap, where no sector of their file changes. -/
theorem entry_frame (hs : Sound h) (hlen : h.numBytes = 200)
    (hd : ∀ x, x / 128 ∈ h.sectors → d' x = d x) (i : Nat) :
    Directory.entry (content d' h) i = Directory.entry (content d h) i := by
  by_cases hi : i < 10
  · exact entry_congr fun x h0 hx => content_frame hs hd (by omega) (by omega)
  · rw [entry_of_le (by omega), entry_of_le (by omega)]

theorem bitmapOf_frame (hs : Sound h) (hlen : h.numBytes = 128)
    (hd : ∀ x, x / 128 ∈ h.sectors → d' x = d x) :
    bitmapOf (content d' h) = bitmapOf (content d h) :=
  bitmapOf_congr fun _ h0 hx => content_frame hs hd h0 (by omega)

end Headers

/-! ## Consistency -/

namespace State

/-- The bitmap on the disk. -/
def freeMap (s : State) : Bitmap := bitmapOf (content s.disk s.freeMapFile)

/-- An entry of the directory on the disk. -/
def entry (s : State) (i : Nat) : Option (Int × List UInt8) :=
  Directory.entry (content s.disk s.directoryFile) i

/-- The sectors of a file: its header and its data. -/
def fileSectors (d : Disk) : Option (Int × List UInt8) → List Int
  | some e => e.1 :: (header d e.1).sectors
  | none => []

/-- Who holds which sectors: the system, and each entry of the directory. -/
def held (s : State) : Option Nat → List Int
  | none => 0 :: 1 :: (s.freeMapFile.sectors ++ s.directoryFile.sectors)
  | some i => fileSectors s.disk (s.entry i)

end State

/-- The bitmap, the directory and the headers on the disk agree. -/
structure Consistent (s : State) : Prop where
  mapSound : Sound s.freeMapFile
  mapLength : s.freeMapFile.numBytes = 128
  mapHeader : SameHeader (header s.disk 0) s.freeMapFile
  directorySound : Sound s.directoryFile
  directoryLength : s.directoryFile.numBytes = 200
  directoryHeader : SameHeader (header s.disk 1) s.directoryFile
  fileSound : ∀ i sector k, s.entry i = some (sector, k) → Sound (header s.disk sector)
  tracks : Tracks s.freeMap.Marks s.held
  names : ∀ i j a b k, s.entry i = some (a, k) → s.entry j = some (b, k) → i = j

section Invariant

variable {s : State} {d' : Disk} {i : Nat}

theorem mem_held_of_entry {sector : Int} {k : List UInt8} (he : s.entry i = some (sector, k)) :
    sector ∈ s.held (some i) := by
  simp only [State.held, he, State.fileSectors]
  exact List.mem_cons_self

theorem mem_held_of_mapFile {a : Int} (ha : a ∈ s.freeMapFile.sectors) : a ∈ s.held none :=
  List.mem_cons_of_mem _ (List.mem_cons_of_mem _ (List.mem_append_left _ ha))

theorem mem_held_of_directoryFile {a : Int} (ha : a ∈ s.directoryFile.sectors) : a ∈ s.held none :=
  List.mem_cons_of_mem _ (List.mem_cons_of_mem _ (List.mem_append_right _ ha))

theorem Consistent.inRange (hc : Consistent s) {p : Option Nat} {a : Int} (ha : a ∈ s.held p) :
    InRange a := by
  obtain ⟨h0, hlt, -⟩ := marks_iff.mp ((hc.tracks.taken a).mpr ⟨p, ha⟩)
  exact ⟨h0, hlt⟩

/-- The sectors of the system are distinct. -/
theorem Consistent.system (hc : Consistent s) :
    (∀ a ∈ s.freeMapFile.sectors, a ≠ 0 ∧ a ≠ 1 ∧ a ∉ s.directoryFile.sectors)
      ∧ ∀ a ∈ s.directoryFile.sectors, a ≠ 0 ∧ a ≠ 1 := by
  have hnd := hc.tracks.nodup none
  simp only [State.held] at hnd
  obtain ⟨h0, hnd⟩ := List.nodup_cons.mp hnd
  obtain ⟨h1, hnd⟩ := List.nodup_cons.mp hnd
  have hdisj := (List.nodup_append.mp hnd).2.2
  refine ⟨fun a ha => ⟨?_, ?_, fun hb => hdisj a ha a hb rfl⟩, fun a ha => ⟨?_, ?_⟩⟩
  · rintro rfl
    exact h0 (List.mem_cons_of_mem _ (List.mem_append_left _ ha))
  · rintro rfl
    exact h1 (List.mem_append_left _ ha)
  · rintro rfl
    exact h0 (List.mem_cons_of_mem _ (List.mem_append_right _ ha))
  · rintro rfl
    exact h1 (List.mem_append_right _ ha)

/-- What an operation leaves of a state when it changes the entry `i` to `e`. -/
structure Changed (s s' : State) (i : Nat) (e : Option (Int × List UInt8)) : Prop where
  freeMapFile : s'.freeMapFile = s.freeMapFile
  directoryFile : s'.directoryFile = s.directoryFile
  mapHeader : SameHeader (header s'.disk 0) (header s.disk 0)
  directoryHeader : SameHeader (header s'.disk 1) (header s.disk 1)
  entry : ∀ j, s'.entry j = if j = i then e else s.entry j
  header : ∀ j a k, j ≠ i → s.entry j = some (a, k) →
    SameHeader (header s'.disk a) (header s.disk a)

/-- The disk differs in the files of the system and in one sector that no
other file has. -/
theorem Consistent.changed (hc : Consistent s) {e : Option (Int × List UInt8)} {sector : Int}
    (hframe : ∀ x, x / 128 ∉ s.freeMapFile.sectors → x / 128 ∉ s.directoryFile.sectors →
      x / 128 ≠ sector → d' x = s.disk x)
    (hsector : ∀ p, p ≠ some i → sector ∉ s.held p)
    (hentry : ∀ j, Directory.entry (content d' s.directoryFile) j
      = if j = i then e else s.entry j) :
    Changed s { s with disk := d' } i e := by
  obtain ⟨hmap, hdir⟩ := hc.system
  have hzero : sector ≠ 0 := fun he => hsector none (by simp) (he ▸ List.mem_cons_self)
  have hone : sector ≠ 1 := fun he =>
    hsector none (by simp) (he ▸ List.mem_cons_of_mem _ List.mem_cons_self)
  refine ⟨rfl, rfl, ?_, ?_, hentry, fun j a k hji he => ?_⟩
  · exact sameHeader_of_frame fun x hx => hframe x (fun hm => (hmap _ hm).1 hx)
      (fun hm => (hdir _ hm).1 hx) (by omega)
  · exact sameHeader_of_frame fun x hx => hframe x (fun hm => (hmap _ hm).2.1 hx)
      (fun hm => (hdir _ hm).2 hx) (by omega)
  · have hin := mem_held_of_entry he
    refine sameHeader_of_frame fun x hx => hframe x (fun hm => ?_) (fun hm => ?_) fun he => ?_
    · exact hc.tracks.disjoint none (some j) (by simp) a (mem_held_of_mapFile (hx ▸ hm)) hin
    · exact hc.tracks.disjoint none (some j) (by simp) a (mem_held_of_directoryFile (hx ▸ hm)) hin
    · exact hsector (some j) (by simpa using hji) (he ▸ hx ▸ hin)

/-- The invariant after such a change, when the bitmap goes with it. -/
theorem Consistent.change {s' : State} (hc : Consistent s) {e : Option (Int × List UInt8)}
    (hch : Changed s s' i e) (hsound : ∀ a k, e = some (a, k) → Sound (header s'.disk a))
    (hname : ∀ a k j b, j ≠ i → e = some (a, k) → s.entry j ≠ some (b, k))
    (htracks : Tracks s'.freeMap.Marks
      (Function.update s.held (some i) (State.fileSectors s'.disk e))) :
    Consistent s' := by
  have hold : ∀ j a k, s'.entry j = some (a, k) →
      j = i ∧ e = some (a, k) ∨ j ≠ i ∧ s.entry j = some (a, k) := by
    intro j a k he
    rw [hch.entry] at he
    by_cases hji : j = i
    · rw [if_pos hji] at he
      exact Or.inl ⟨hji, he⟩
    · rw [if_neg hji] at he
      exact Or.inr ⟨hji, he⟩
  have hheld : s'.held = Function.update s.held (some i) (State.fileSectors s'.disk e) := by
    funext p
    cases p with
    | none =>
        rw [Function.update_of_ne (by simp), State.held, hch.freeMapFile, hch.directoryFile]
        rfl
    | some j =>
        simp only [State.held]
        rw [hch.entry]
        by_cases hji : j = i
        · rw [if_pos hji, hji, Function.update_self]
        · rw [if_neg hji, Function.update_of_ne (by simpa using hji)]
          cases he : s.entry j with
          | none => simp only [State.held, he, State.fileSectors]
          | some e' =>
              simp only [State.held, he, State.fileSectors]
              rw [(hch.header j e'.1 e'.2 hji he).sectors (hc.fileSound j e'.1 e'.2 he)]
  refine ⟨hch.freeMapFile ▸ hc.mapSound, hch.freeMapFile ▸ hc.mapLength,
    hch.freeMapFile ▸ hch.mapHeader.trans hc.mapHeader, hch.directoryFile ▸ hc.directorySound,
    hch.directoryFile ▸ hc.directoryLength,
    hch.directoryFile ▸ hch.directoryHeader.trans hc.directoryHeader, fun j a k he => ?_, ?_,
    fun j j' a b k he he' => ?_⟩
  · rcases hold j a k he with ⟨-, he⟩ | ⟨hji, he⟩
    · exact hsound a k he
    · exact (hch.header j a k hji he).sound (hc.fileSound j a k he)
  · rw [hheld]
    exact htracks
  · rcases hold j a k he with ⟨hj, he⟩ | ⟨hj, he⟩
    · rcases hold j' b k he' with ⟨hj', -⟩ | ⟨hj', he'⟩
      · exact hj.trans hj'.symm
      · exact absurd he' (hname a k j' b hj' he)
    · rcases hold j' b k he' with ⟨-, he'⟩ | ⟨-, he'⟩
      · exact absurd he (hname b k j a hj he')
      · exact hc.names j j' a b k he he'

end Invariant

end DiskFS

end Nachos
