import Nachos.DiskSystem
import Mathlib.Algebra.BigOperators.Fin
import Mathlib.Data.Finset.Card

/-!
# What a disk holds

`Stores s A` says that the file system in the state `s` holds the files `A`:
the names of `A` are those of the directory, and the content of a file is
what its header leads to. `limits` is the capacity of the disk: ten files,
and the 1019 sectors that formatting leaves free.

Free sectors are counted by the bitmap on the disk, used ones by the files
(`Stores.accounting`), so `Create` returns true exactly when the limits admit
the file (`create_stores`). `Removed.stores`, `writeAt_stores` and
`mount_stores` say what the other calls do to the files, and `list_stores`
what `List` prints.
-/

namespace Nachos

namespace DiskFS

open CInt ByteMemory Ownership FileStore

/-- The capacity of the disk for files. -/
def limits : Limits := ⟨10, 1019, 128⟩

/-- The content of the file whose header is in sector `a`. -/
def fileBytes (d : Disk) (a : Int) : List UInt8 :=
  ByteMemory.read (content d (header d a)) 0 (header d a).numBytes.toNat

/-- The names of files that the directory tells apart, and their bytes. -/
abbrev DiskStore := Store (List UInt8) UInt8

structure Stores (s : State) (A : DiskStore) : Prop where
  consistent : Consistent s
  mapSectors : s.freeMapFile.numSectors = 1
  directorySectors : s.directoryFile.numSectors = 2
  exact : ∀ i a k, s.entry i = some (a, k) →
    (header s.disk a).numSectors = divRoundUp (header s.disk a).numBytes 128
  files : ∀ k bytes, A.lookup k = some bytes ↔
    ∃ i a, s.entry i = some (a, k) ∧ fileBytes s.disk a = bytes

/-! ## Contents of files -/

section Contents

variable {d d' : Disk} {a : Int} {h : FileHeader}

@[simp] theorem length_fileBytes (d : Disk) (a : Int) :
    (fileBytes d a).length = (header d a).numBytes.toNat := length_read ..

/-- A file none of whose sectors changes keeps its bytes. -/
theorem fileBytes_kept (hs : Sound (header d a))
    (hd : ∀ x, x / 128 ∈ a :: (header d a).sectors → d' x = d x) :
    fileBytes d' a = fileBytes d a := by
  have hsame : SameHeader (header d' a) (header d a) :=
    sameHeader_of_frame fun x hx => hd x (hx ▸ List.mem_cons_self)
  have hlen := hs.length_le
  rw [fileBytes, fileBytes, hsame.numBytes]
  refine read_congr fun x h0 hx => ?_
  rw [hsame.content h0 (by omega)]
  exact content_frame hs (fun y hy => hd y (List.mem_cons_of_mem _ hy)) h0 (by omega)

/-- The bytes of a file, by the copy of its header that an object has. -/
theorem fileBytes_of_same (hs : Sound (header d a)) (hsame : SameHeader h (header d a)) :
    fileBytes d a = ByteMemory.read (content d h) 0 h.numBytes.toNat := by
  have hlen := hs.length_le
  rw [fileBytes, hsame.numBytes]
  exact read_congr fun x h0 hx => (hsame.content h0 (by omega)).symm

theorem toNat_transferred (h : FileHeader) (numBytes : Int) {position : Int} (hp : 0 ≤ position) :
    (transferred h numBytes position).toNat
      = within h.numBytes.toNat numBytes.toNat position.toNat := by
  rw [transferred, within]
  generalize h.numBytes = length
  omega

theorem transferred_eq (h : FileHeader) {numBytes position : Int} (hp : 0 ≤ position) :
    transferred h numBytes position
      = (within h.numBytes.toNat numBytes.toNat position.toNat : Nat) := by
  have hle : 0 ≤ transferred h numBytes position := le_max_left ..
  rw [← toNat_transferred h numBytes hp, Int.toNat_of_nonneg hle]

theorem readAt_fileBytes (hs : Sound (header d a)) (hsame : SameHeader h (header d a))
    {numBytes position : Int} (hp : 0 ≤ position) (hint : IsInt (position + numBytes)) :
    readAt d h numBytes position
      = some (((fileBytes d a).drop position.toNat).take numBytes.toNat) := by
  rw [readAt_eq (hsame.sound hs) hp hint, fileBytes_of_same hs hsame, take_drop_read,
    toNat_transferred h numBytes hp, within, Int.toNat_of_nonneg hp, Int.zero_add]

/-- `WriteAt` puts the bytes over the content of the file. -/
theorem writeAt_fileBytes (hs : Sound (header d a)) (hsame : SameHeader h (header d a))
    (hown : a ∉ h.sectors) (junk data : Memory) {numBytes position : Int} (hp : 0 ≤ position)
    (hint : IsInt (position + numBytes)) :
    ∃ d', writeAt d h junk data numBytes position = some (transferred h numBytes position, d')
      ∧ fileBytes d' a
        = overlay (fileBytes d a) (ByteMemory.read data 0 numBytes.toNat) position.toNat
      ∧ ∀ x, x / 128 ∉ h.sectors → d' x = d x := by
  obtain ⟨d', hw, hin, hframe⟩ := writeAt_eq (d := d) (hsame.sound hs) junk data hp hint
  refine ⟨d', hw, ?_, hframe⟩
  have hkept : SameHeader (header d' a) (header d a) :=
    sameHeader_of_frame fun x hx => hframe x (hx ▸ hown)
  have hnew := fileBytes_of_same (hkept.sound hs) (hsame.trans hkept.symm)
  have hnonneg := (hsame.sound hs).nonneg
  rw [hnew, fileBytes_of_same hs hsame]
  refine List.ext_getElem (by rw [length_overlay, length_read, length_read]) fun i hi hi' => ?_
  rw [length_read] at hi
  have hlen := toNat_transferred h numBytes hp
  have hlt : (i : Int) < h.numBytes := Int.lt_toNat.mp hi
  have hold : i < (ByteMemory.read (content d h) 0 h.numBytes.toNat).length := by
    rw [length_read]
    exact hi
  rw [← List.getD_eq_getElem _ 0, ← List.getD_eq_getElem _ 0, getD_overlay _ _ _ hold, getD_read hi,
    getD_read hi, length_read, Int.zero_add, hin i (Int.natCast_nonneg i) hlt]
  have hle : 0 ≤ transferred h numBytes position := le_max_left ..
  rw [within] at hlen
  generalize h.numBytes = length at hi hlen hlt hnonneg
  generalize transferred h numBytes position = n at hlen hle
  by_cases hmem : position ≤ i ∧ (i : Int) < position + n
  · rw [if_pos hmem, if_pos (by omega), getD_read (by omega)]
    exact congrArg data (by omega)
  · rw [if_neg hmem, if_neg (by omega)]

end Contents

/-! ## Counting -/

/-- The entries of the directory in use. -/
def slots (s : State) : Finset Nat := (Finset.range 10).filter fun i => (s.entry i).isSome

/-- The name in an entry. -/
def slotName (s : State) (i : Nat) : List UInt8 := ((s.entry i).map Prod.snd).getD []

section Counting

variable {s : State} {A : DiskStore} {i : Nat}

theorem entry_lt {e : Int × List UInt8} (he : s.entry i = some e) : i < 10 := by
  by_contra hi
  rw [State.entry, entry_of_le (by omega)] at he
  cases he

theorem mem_slots : i ∈ slots s ↔ ∃ a k, s.entry i = some (a, k) := by
  rw [slots, Finset.mem_filter, Finset.mem_range, Option.isSome_iff_exists]
  constructor
  · rintro ⟨-, e, he⟩
    exact ⟨e.1, e.2, he⟩
  · rintro ⟨a, k, he⟩
    exact ⟨entry_lt he, _, he⟩

theorem slotName_eq {a : Int} {k : List UInt8} (he : s.entry i = some (a, k)) :
    slotName s i = k := by
  rw [slotName, he, Option.map_some, Option.getD_some]

theorem Stores.mem_iff (h : Stores s A) (k : List UInt8) :
    k ∈ A ↔ ∃ i a, s.entry i = some (a, k) := by
  rw [Finmap.mem_iff]
  constructor
  · rintro ⟨bytes, hb⟩
    obtain ⟨i, a, he, -⟩ := (h.files k bytes).mp hb
    exact ⟨i, a, he⟩
  · rintro ⟨i, a, he⟩
    exact ⟨_, (h.files k _).mpr ⟨i, a, he, rfl⟩⟩

theorem Stores.keys (h : Stores s A) : A.keys = (slots s).image (slotName s) := by
  ext k
  rw [Finmap.mem_keys, h.mem_iff, Finset.mem_image]
  constructor
  · rintro ⟨i, a, he⟩
    exact ⟨i, mem_slots.mpr ⟨a, k, he⟩, slotName_eq he⟩
  · rintro ⟨i, hi, rfl⟩
    obtain ⟨a, k, he⟩ := mem_slots.mp hi
    exact ⟨i, a, by rw [slotName_eq he, he]⟩

theorem Stores.slotName_injOn (h : Stores s A) : Set.InjOn (slotName s) (slots s) := by
  intro i hi j hj heq
  obtain ⟨a, k, he⟩ := mem_slots.mp hi
  obtain ⟨b, k', he'⟩ := mem_slots.mp hj
  rw [slotName_eq he, slotName_eq he'] at heq
  subst heq
  exact h.consistent.names i j a b k he he'

theorem Stores.card (h : Stores s A) : A.keys.card = (slots s).card := by
  rw [h.keys, Finset.card_image_of_injOn h.slotName_injOn]

theorem card_slots_lt : (slots s).card < 10 ↔ ∃ i < 10, s.entry i = none := by
  constructor
  · intro hlt
    obtain ⟨i, hi, hnot⟩ := Finset.exists_mem_notMem_of_card_lt_card
      (s := slots s) (t := Finset.range 10) (by rwa [Finset.card_range])
    refine ⟨i, Finset.mem_range.mp hi, ?_⟩
    by_contra hne
    obtain ⟨e, he⟩ := Option.ne_none_iff_exists'.mp hne
    exact hnot (mem_slots.mpr ⟨e.1, e.2, he⟩)
  · rintro ⟨i, hi, hnone⟩
    have hsub : slots s ⊂ Finset.range 10 := by
      refine Finset.ssubset_iff_subset_ne.mpr ⟨Finset.filter_subset .., fun heq => ?_⟩
      obtain ⟨a, k, he⟩ := mem_slots.mp (heq.symm ▸ Finset.mem_range.mpr hi)
      rw [hnone] at he
      cases he
    have hlt := Finset.card_lt_card hsub
    rwa [Finset.card_range] at hlt

/-- The sectors of a file are those its length needs, and one for the
header. -/
theorem Stores.cost (h : Stores s A) {a : Int} {k : List UInt8} (he : s.entry i = some (a, k)) :
    (s.held (some i)).length = limits.cost (fileBytes s.disk a).length := by
  have hexact := h.exact i a k he
  have hnonneg := (h.consistent.fileSound i a k he).nonneg
  rw [divRoundUp_of_nonneg hnonneg] at hexact
  rw [State.held, he, State.fileSectors, List.length_cons, FileHeader.sectors, List.length_map,
    List.length_range, length_fileBytes, Limits.cost, hexact, Nat.ceilDiv_eq_add_pred_div]
  change _ = 1 + (_ + 128 - 1) / 128
  generalize (header s.disk a).numBytes = n at hnonneg
  split <;> omega

theorem Stores.used (h : Stores s A) :
    limits.used A = ∑ i ∈ Finset.range 10, (s.held (some i)).length := by
  have hslots : ∑ i ∈ Finset.range 10, (s.held (some i)).length
      = ∑ i ∈ slots s, (s.held (some i)).length := by
    refine (Finset.sum_subset (Finset.filter_subset ..) fun i _ hi => ?_).symm
    have hnone : s.entry i = none := by
      by_contra hne
      obtain ⟨e, he⟩ := Option.ne_none_iff_exists'.mp hne
      exact hi (mem_slots.mpr ⟨e.1, e.2, he⟩)
    rw [State.held, hnone, State.fileSectors, List.length_nil]
  rw [hslots, Limits.used, h.keys, Finset.sum_image h.slotName_injOn]
  refine Finset.sum_congr rfl fun i hi => ?_
  obtain ⟨a, k, he⟩ := mem_slots.mp hi
  rw [slotName_eq he, (h.files k _).mpr ⟨i, a, he, rfl⟩, Option.getD_some, h.cost he]

/-- Every sector is free, or has one holder. -/
theorem Consistent.accounting (hc : Consistent s) :
    s.freeMap.numClear + (usedSectors s.disk).length = 1024 := by
  have hok := hc.diskOK
  have hcard : s.freeMap.marked.card = (usedSectors s.disk).length := by
    rw [← List.toFinset_card_of_nodup hok.distinct]
    refine Finset.card_bij (fun i _ => (i : Int)) (fun i hi => ?_) (fun i _ j _ heq => by omega)
      fun a ha => ?_
    · obtain ⟨hlt, htest⟩ := Bitmap.mem_marked.mp hi
      rw [List.mem_toFinset, ← hok.bitmap, hc.freeMap_eq]
      exact marks_iff.mpr ⟨by omega, by omega, by rwa [Int.toNat_natCast]⟩
    · rw [List.mem_toFinset, ← hok.bitmap, hc.freeMap_eq] at ha
      obtain ⟨h0, hlt, htest⟩ := marks_iff.mp ha
      exact ⟨a.toNat, Bitmap.mem_marked.mpr ⟨by omega, htest⟩, Int.toNat_of_nonneg h0⟩
  have hle := Finset.card_le_card s.freeMap.marked_subset_range
  have hbits : s.freeMap.numBits = 1024 := rfl
  rw [Finset.card_range] at hle
  rw [Bitmap.numClear_eq, hcard]
  omega

/-- **Accounting**: of the sectors that formatting leaves free, the files have
those they need and the bitmap shows the rest as free. -/
theorem Stores.accounting (h : Stores s A) : limits.used A + s.freeMap.numClear = 1019 := by
  have hall := h.consistent.accounting
  have hflat : ((List.range 10).flatMap fun i => s.held (some i)).length
      = ∑ i ∈ Finset.range 10, (s.held (some i)).length := by
    rw [List.length_flatMap, Finset.sum_range, ← List.sum_ofFn]
    rfl
  have hsystem : (s.held none).length = 5 := by
    simp only [State.held, List.length_cons, List.length_append, FileHeader.sectors,
      List.length_map, List.length_range, h.mapSectors, h.directorySectors]
    rfl
  rw [h.consistent.usedSectors_eq, List.length_append, hflat, hsystem, ← h.used] at hall
  omega

end Counting

/-! ## The calls -/

section Calls

variable {s s' : State} {A : DiskStore} {name : List UInt8}

/-- A file whose sectors no call touches keeps its bytes. -/
theorem Consistent.fileBytes_kept (hc : Consistent s) {d' : Disk} {j : Nat} {b : Int}
    {k : List UInt8} (he : s.entry j = some (b, k))
    (hkept : ∀ x, x / 128 ∈ s.held (some j) → d' x = s.disk x) :
    fileBytes d' b = fileBytes s.disk b := by
  refine DiskFS.fileBytes_kept (hc.fileSound j b k he) fun x hx => hkept x ?_
  rw [State.held, he, State.fileSectors]
  exact hx

/-- A call after which only the file of one name may be another. -/
theorem Stores.files_update (h : Stores s A) {A' : DiskStore} {k₀ : List UInt8}
    (hlookup : ∀ k, k ≠ k₀ → A'.lookup k = A.lookup k)
    (hentry : ∀ j b k, k ≠ k₀ → (s'.entry j = some (b, k) ↔ s.entry j = some (b, k)))
    (hkept : ∀ j b k, k ≠ k₀ → s.entry j = some (b, k) → fileBytes s'.disk b = fileBytes s.disk b)
    (hone : ∀ bytes, A'.lookup k₀ = some bytes ↔
      ∃ i a, s'.entry i = some (a, k₀) ∧ fileBytes s'.disk a = bytes) (k bytes : List UInt8) :
    A'.lookup k = some bytes ↔ ∃ i a, s'.entry i = some (a, k) ∧ fileBytes s'.disk a = bytes := by
  by_cases hk : k = k₀
  · exact hk ▸ hone bytes
  · rw [hlookup k hk, h.files]
    refine exists_congr fun j => exists_congr fun b => ?_
    rw [hentry j b k hk]
    exact and_congr_right fun he => by rw [hkept j b k hk he]

/-- The names and files of a new disk. -/
theorem format_stores (d : Disk) (heap : Heap) :
    ∃ s, format d heap = some s ∧ Stores s ∅ := by
  obtain ⟨s, hf, hc, hmap, hdir, hnone⟩ := format_spec d heap
  refine ⟨s, hf, hc, hmap, hdir, fun i a k he => ?_, fun k bytes => ?_⟩
  · rw [hnone] at he
    cases he
  · rw [Finmap.lookup_empty]
    refine ⟨nofun, fun ⟨i, a, he, _⟩ => ?_⟩
    rw [hnone] at he
    cases he

theorem Created.stores (h : Stores s A) {initialSize : Int} {i : Nat} {a : Int}
    (hcr : Created s name initialSize s' i a) :
    Stores s' (A.insert (key name) (fileBytes s'.disk a)) := by
  have hch := hcr.changed
  refine ⟨hcr.consistent, hch.freeMapFile ▸ h.mapSectors, hch.directoryFile ▸ h.directorySectors,
    fun j b k he => ?_, h.files_update (fun k hk => Finmap.lookup_insert_of_ne _ hk)
      (fun j b k hk => ?_) (fun j b k _ he => h.consistent.fileBytes_kept he (hcr.kept j))
      fun bytes => ?_⟩
  · rw [hch.entry] at he
    split at he
    next =>
        obtain ⟨rfl, -⟩ := Prod.mk.inj (Option.some.inj he)
        rw [hcr.numSectors, hcr.numBytes]
    next hji =>
        have hsame := hch.header j b k hji he
        rw [hsame.numSectors, hsame.numBytes]
        exact h.exact j b k he
  · rw [hch.entry]
    split
    next hji =>
        rw [hji, hcr.free.2]
        simp [Ne.symm hk]
    next => rfl
  · rw [Finmap.lookup_insert, Option.some_inj]
    constructor
    · rintro rfl
      exact ⟨i, a, by rw [hch.entry, if_pos rfl], rfl⟩
    · rintro ⟨j, b, he, rfl⟩
      rw [hch.entry] at he
      split at he
      next => rw [(Prod.mk.inj (Option.some.inj he)).1]
      next => exact absurd he (hcr.absent j b)

/-- **`Create`** returns true exactly when there is room for the file. -/
theorem create_stores (h : Stores s A) (name : List UInt8) {initialSize : Int} (heap : Heap)
    (h0 : 0 ≤ initialSize) (hmax : initialSize ≤ 3840) :
    (create s name initialSize heap = some (false, s)
        ∧ ¬limits.Admits A (key name) initialSize.toNat)
      ∨ ∃ s' i a, create s name initialSize heap = some (true, s')
          ∧ limits.Admits A (key name) initialSize.toNat ∧ Created s name initialSize s' i a := by
  have haccount := h.accounting
  have hcost : (limits.cost initialSize.toNat : Int) = 1 + divRoundUp initialSize 128 := by
    rw [divRoundUp_of_nonneg h0, Limits.cost, Nat.ceilDiv_eq_add_pred_div]
    change ((1 + (initialSize.toNat + 128 - 1) / 128 : Nat) : Int) = _
    split <;> omega
  have hblocks : limits.blocks = 1019 := rfl
  rcases create_spec h.consistent name heap h0 hmax with ⟨heq, hwhy⟩ | ⟨s', i, a, heq, hcr⟩
  · refine Or.inl ⟨heq, fun hadm => ?_⟩
    rcases hwhy with ⟨j, b, he⟩ | hfull | hfew
    · exact hadm.fresh ((h.mem_iff _).mpr ⟨j, b, he⟩)
    · obtain ⟨j, hj, hnone⟩ := card_slots_lt.mp (h.card ▸ hadm.files)
      exact hfull j hj hnone
    · have := hadm.blocks
      omega
  · refine Or.inr ⟨s', i, a, heq, ⟨fun hmem => ?_, ?_, ?_⟩, hcr⟩
    · obtain ⟨j, b, he⟩ := (h.mem_iff _).mp hmem
      exact hcr.absent j b he
    · rw [h.card]
      exact card_slots_lt.mpr ⟨i, hcr.free⟩
    · have := hcr.room
      omega

theorem Removed.stores (h : Stores s A) {i : Nat} {a : Int} (hrm : Removed s name s' i a) :
    Stores s' (A.erase (key name)) := by
  have hch := hrm.changed
  refine ⟨hrm.consistent, hch.freeMapFile ▸ h.mapSectors, hch.directoryFile ▸ h.directorySectors,
    fun j b k he => ?_, h.files_update (fun k hk => Finmap.lookup_erase_ne hk)
      (fun j b k hk => ?_) (fun j b k _ he => h.consistent.fileBytes_kept he (hrm.kept j))
      fun bytes => ?_⟩
  · rw [hch.entry] at he
    split at he
    next => cases he
    next hji =>
        have hsame := hch.header j b k hji he
        rw [hsame.numSectors, hsame.numBytes]
        exact h.exact j b k he
  · rw [hch.entry]
    split
    next hji =>
        rw [hji, hrm.present]
        simp [Ne.symm hk]
    next => rfl
  · rw [Finmap.lookup_erase]
    refine ⟨nofun, fun ⟨j, b, he, _⟩ => ?_⟩
    rw [hch.entry] at he
    split at he
    next => cases he
    next hji => exact absurd (h.consistent.names j i b a _ he hrm.present) hji

/-- **`WriteAt`** through an object that has its file. -/
theorem writeAt_stores (h : Stores s A) {o : Opened} {i : Nat} {a : Int}
    (he : s.entry i = some (a, key o.name)) (hsame : SameHeader o.hdr (header s.disk a))
    (junk data : Memory) {numBytes position : Int} (hp : 0 ≤ position)
    (hint : IsInt (position + numBytes)) :
    ∃ d', writeAt s.disk o.hdr junk data numBytes position
        = some (transferred o.hdr numBytes position, d')
      ∧ Stores { s with disk := d' } (A.insert (key o.name)
          (overlay (fileBytes s.disk a) (ByteMemory.read data 0 numBytes.toNat) position.toNat))
      ∧ (∀ j, ({ s with disk := d' } : State).entry j = s.entry j)
      ∧ ∀ j b k, s.entry j = some (b, k) → SameHeader (header d' b) (header s.disk b) := by
  obtain ⟨-, hheld, hown⟩ := Fresh.sectors h.consistent he hsame
  obtain ⟨d', hw, hbytes, hframe⟩ := writeAt_fileBytes (h.consistent.fileSound i a _ he) hsame hown
    junk data hp hint
  obtain ⟨hc, hentry, hheader⟩ := h.consistent.data_changed he hsame hframe
  refine ⟨d', hw, ⟨hc, h.mapSectors, h.directorySectors, fun j b k hj => ?_,
    h.files_update (fun k hk => Finmap.lookup_insert_of_ne _ hk) (fun j b k _ => by rw [hentry j])
      (fun j b k hk hj => ?_) fun bytes => ?_⟩, hentry, hheader⟩
  · rw [hentry] at hj
    rw [(hheader j b k hj).numSectors, (hheader j b k hj).numBytes]
    exact h.exact j b k hj
  · refine h.consistent.fileBytes_kept hj fun x hx => hframe x fun hm => ?_
    have hji : j ≠ i := by
      rintro rfl
      exact hk (Prod.mk.inj (Option.some.inj (hj.symm.trans he))).2
    exact h.consistent.tracks.disjoint (some j) (some i) (by simpa using hji) _ hx
      (hheld ▸ List.mem_cons_of_mem _ hm)
  · rw [Finmap.lookup_insert, Option.some_inj]
    constructor
    · rintro rfl
      exact ⟨i, a, (hentry i).trans he, hbytes⟩
    · rintro ⟨j, b, hj, rfl⟩
      rw [hentry] at hj
      obtain rfl := h.consistent.names j i b a _ hj he
      obtain ⟨rfl, -⟩ := Prod.mk.inj (Option.some.inj (hj.symm.trans he))
      exact hbytes.symm

/-- **Starting again** finds the files on the disk. -/
theorem mount_stores (h : Stores s A) (heap : Heap) :
    ∃ s', mount s.disk heap = some s' ∧ Stores s' A := by
  have hc := h.consistent
  obtain ⟨map, hmap, hsame₀⟩ := fetchFrom_eq (d := s.disk) (h := heap 0)
    (show InRange 0 from ⟨by decide, by decide⟩)
  obtain ⟨dir, hdir, hsame₁⟩ := fetchFrom_eq (d := s.disk) (h := heap 1)
    (show InRange 1 from ⟨by decide, by decide⟩)
  have hmapSame : SameHeader map s.freeMapFile := hsame₀.trans hc.mapHeader
  have hdirSame : SameHeader dir s.directoryFile := hsame₁.trans hc.directoryHeader
  have hentry : ∀ i, (⟨s.disk, map, dir⟩ : State).entry i = s.entry i := by
    intro i
    by_cases hi : i < 10
    · exact entry_congr fun x h0 hx => hdirSame.content (by omega) (by omega)
    · rw [State.entry, State.entry, entry_of_le (by omega), entry_of_le (by omega)]
  have hfree : (⟨s.disk, map, dir⟩ : State).freeMap = s.freeMap :=
    bitmapOf_congr fun x h0 hx => hmapSame.content h0 (by omega)
  have hheld : (⟨s.disk, map, dir⟩ : State).held = s.held := by
    funext p
    cases p with
    | none =>
        simp only [State.held, hmapSame.sectors hc.mapSound, hdirSame.sectors hc.directorySound]
    | some i => simp only [State.held, hentry]
  refine ⟨⟨s.disk, map, dir⟩, by rw [mount, hmap, Option.bind_some, hdir, Option.map_some],
    ⟨hmapSame.sound hc.mapSound, hmapSame.numBytes.trans hc.mapLength, hsame₀.symm,
      hdirSame.sound hc.directorySound, hdirSame.numBytes.trans hc.directoryLength, hsame₁.symm,
      fun i a k he => hc.fileSound i a k (hentry i ▸ he), ?_, fun i j a b k he he' =>
        hc.names i j a b k (hentry i ▸ he) (hentry j ▸ he')⟩,
    hmapSame.numSectors.trans h.mapSectors, hdirSame.numSectors.trans h.directorySectors,
    fun i a k he => h.exact i a k (hentry i ▸ he), fun k bytes => ?_⟩
  · rw [hfree, hheld]
    exact hc.tracks
  · simp only [hentry]
    exact h.files k bytes

/-- A string that ends before its buffer does. -/
theorem cstr_append_of_short {l : List UInt8} (hl : (cstr l).length < l.length)
    (r : List UInt8) : (0 : UInt8) ∈ l ++ r ∧ cstr (l ++ r) = cstr l := by
  induction l with
  | nil => exact absurd hl (Nat.lt_irrefl 0)
  | cons b l ih =>
      rw [List.cons_append, cstr_cons, cstr_cons]
      by_cases hb : b = 0
      · rw [if_pos hb, if_pos hb, hb]
        exact ⟨List.mem_cons_self, rfl⟩
      · rw [cstr_cons, if_neg hb, List.length_cons, List.length_cons] at hl
        obtain ⟨hmem, heq⟩ := ih (by omega)
        rw [if_neg hb, if_neg hb, heq]
        exact ⟨List.mem_cons_of_mem b hmem, rfl⟩

/-- The string of a short name ends in its entry. -/
theorem stringAt_of_entry {t : Directory} {i : Nat} {a : Int} {k : List UInt8}
    (he : t.entry i = some (a, k)) (hk : k.length < 9) : t.stringAt (20 * i + 8) = some k := by
  obtain ⟨hi, -, -, hname⟩ := entry_eq_some.mp he
  have hsplit : ByteMemory.read t ((20 * i + 8 : Nat) : Int) (200 - (20 * i + 8))
      = ByteMemory.read t (20 * i + 8) 9
        ++ ByteMemory.read t (20 * i + 8 + (9 : Nat)) (200 - (20 * i + 8) - 9) := by
    rw [← read_add]
    congr 1
    omega
  rw [key_name] at hname
  obtain ⟨hmem, hstr⟩ := cstr_append_of_short (l := ByteMemory.read t (20 * i + 8) 9)
    (by rw [hname, length_read]; exact hk)
    (ByteMemory.read t (20 * i + 8 + (9 : Nat)) (200 - (20 * i + 8) - 9))
  rw [Directory.stringAt, hsplit, if_pos hmem, hstr, hname]

/-- **`List`** prints every name once. -/
theorem list_stores (h : Stores s A) (heap : Heap)
    (hshort : ∀ i < 10, ∀ e ∈ s.entry i, e.2.length < 9) :
    ∃ names, list s heap = some names ∧ names.Nodup ∧ ∀ k, k ∈ names ↔ k ∈ A := by
  have hc := h.consistent
  obtain ⟨t, ht, hentry⟩ := directory_fetchFrom_eq (d := s.disk) hc.directorySound
    hc.directoryLength (Directory.new (heap 0))
  have huse : ∀ i, i ∈ (List.range 10).filter t.inUse ↔ i ∈ slots s := by
    intro i
    rw [List.mem_filter, List.mem_range, mem_slots]
    constructor
    · rintro ⟨hi, hu⟩
      exact ⟨_, _, (hentry i).symm.trans (entry_eq_some.mpr ⟨hi, hu, rfl, rfl⟩)⟩
    · rintro ⟨a, k, he⟩
      obtain ⟨hi, hu, -⟩ := entry_eq_some.mp ((hentry i).trans he)
      exact ⟨hi, hu⟩
  have hline : ∀ i ∈ (List.range 10).filter t.inUse,
      t.stringAt (20 * i + 8) = some (slotName s i) := by
    intro i hi
    obtain ⟨a, k, he⟩ := mem_slots.mp ((huse i).mp hi)
    rw [slotName_eq he]
    exact stringAt_of_entry ((hentry i).trans he) (hshort i (entry_lt he) _ he)
  refine ⟨((List.range 10).filter t.inUse).map (slotName s), ?_, ?_, fun k => ?_⟩
  · rw [list, ht, Option.bind_some, Directory.list]
    generalize (List.range 10).filter t.inUse = l at hline
    induction l with
    | nil => rfl
    | cons i l ih =>
        rw [List.mapM_cons, hline i List.mem_cons_self,
          ih fun j hj => hline j (List.mem_cons_of_mem i hj)]
        rfl
  · refine (List.nodup_map_iff_inj_on (List.nodup_range.filter _)).mpr fun i hi j hj heq => ?_
    exact h.slotName_injOn ((huse i).mp hi) ((huse j).mp hj) heq
  · rw [List.mem_map, ← Finmap.mem_keys, h.keys, Finset.mem_image]
    simp only [huse]

end Calls

end DiskFS

end Nachos
