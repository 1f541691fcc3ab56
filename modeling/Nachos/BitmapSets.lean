import Nachos.FileBytes
import Nachos.FileCursor
import Nachos.FreeMap
import Nachos.Run
import Mathlib.Data.Finset.Max

/-!
# Bitmaps as finite sets

A `Bitmap` of `lib/bitmap.cc` stands for a set of numbers below `numBits`,
the set `marked`. Here the whole interface is served by both: `serve`
answers a request with the words, `serveSet` with the set, and
`serve_matches` says that the answers agree and that the relation is kept,
so that no sequence of requests tells the two apart.

`Mark` and `Clear` end in an assertion on the bit they have just written
(`markAsserting`, `clearAsserting`); it never fails. The constructor clears
every bit once more after it has set the words to zero.

`PersistentBitmap` of `filesys/pbitmap.cc` moves the words to and from a
file with one call of `WriteAt` and one of `ReadAt`. The file may be one of
the Nachos disk (`diskFile`) or, in the build with the stub file system, one
of the host (`hostFile`); a file that gives back what was written to it
(`FileOps.Keeps`) gives back the bitmap.
-/

namespace Nachos

open CInt ByteMemory HostFiles

namespace Bitmap

/-! ## Requests and answers -/

/-- The calls of the interface. -/
inductive Request where
  | mark (which : Int)
  | clear (which : Int)
  | test (which : Int)
  | findAndSet
  | numClear

/-- The argument is a bit of the map. -/
def Request.InRange (numItems : Int) : Request → Prop
  | .mark which | .clear which | .test which => 0 ≤ which ∧ which < numItems
  | .findAndSet | .numClear => True

/-- What a call returns. -/
inductive Answer where
  | void
  | bool (b : Bool)
  | int (i : Int)
deriving DecidableEq

/-- `Mark` with the assertion at its end. -/
def markAsserting (b : Bitmap) (which : Int) : Option Bitmap :=
  (b.mark which).filter fun b => b.test which == some true

/-- `Clear` with the assertion at its end. -/
def clearAsserting (b : Bitmap) (which : Int) : Option Bitmap :=
  (b.clear which).filter fun b => b.test which == some false

/-- The constructor: `Clear` of every bit of a map of zero words. -/
def construct (numItems : Int) : Option Bitmap :=
  if numItems > 0 then
    (List.range numItems.toNat).foldlM (fun b (i : Nat) => b.clearAsserting i)
      (new numItems.toNat)
  else none

/-- A failed assertion aborts. -/
def asserted {α : Type} : Option α → Except Trap α
  | some a => .ok a
  | none => .error .abort

/-- A call on the words. -/
def serve (b : Bitmap) : Request → Except Trap (Answer × Bitmap)
  | .mark which => asserted ((b.markAsserting which).map fun b => (.void, b))
  | .clear which => asserted ((b.clearAsserting which).map fun b => (.void, b))
  | .test which => asserted ((b.test which).map fun bit => (.bool bit, b))
  | .findAndSet =>
      match b.findAndSet with
      | (some i, b) => .ok (.int i, b)
      | (none, b) => .ok (.int (-1), b)
  | .numClear => .ok (.int b.numClear, b)

/-- The same call on a set of numbers below `n`. -/
def serveSet (n : Nat) (s : Finset Nat) : Request → Except Trap (Answer × Finset Nat)
  | .mark which =>
      if 0 ≤ which ∧ which < n then .ok (.void, insert which.toNat s) else .error .abort
  | .clear which =>
      if 0 ≤ which ∧ which < n then .ok (.void, s.erase which.toNat) else .error .abort
  | .test which =>
      if 0 ≤ which ∧ which < n then .ok (.bool (which.toNat ∈ s), s) else .error .abort
  | .findAndSet =>
      if h : (Finset.range n \ s).Nonempty then
        .ok (.int ((Finset.range n \ s).min' h), insert ((Finset.range n \ s).min' h) s)
      else .ok (.int (-1), s)
  | .numClear => .ok (.int (Finset.range n \ s).card, s)

/-- The bitmap has `n` bits and `s` is the set of those that are marked. -/
def Represents (n : Nat) (b : Bitmap) (s : Finset Nat) : Prop := b.numBits = n ∧ b.marked = s

section Calls

variable {b : Bitmap}

theorem testBit_toNat_mark {which : Int} (h : b.InRange which) :
    (b.markBit which.toNat).test which = some true := by
  have hlt : which.toNat < b.numBits := by
    have := h.1
    have := h.2
    omega
  rw [test, if_pos (show (b.markBit which.toNat).InRange which from h), testBit_markBit hlt,
    decide_eq_true rfl, Bool.true_or]

theorem testBit_toNat_clear {which : Int} (h : b.InRange which) :
    (b.clearBit which.toNat).test which = some false := by
  have hlt : which.toNat < b.numBits := by
    have := h.1
    have := h.2
    omega
  rw [test, if_pos (show (b.clearBit which.toNat).InRange which from h), testBit_clearBit hlt,
    decide_eq_true rfl, Bool.not_true, Bool.false_and]

/-- The assertion at the end of `Mark` holds. -/
theorem markAsserting_eq (which : Int) : b.markAsserting which = b.mark which := by
  rw [markAsserting, mark]
  split
  next h => rw [Option.filter_some, testBit_toNat_mark h]; rfl
  next => rfl

/-- The assertion at the end of `Clear` holds. -/
theorem clearAsserting_eq (which : Int) : b.clearAsserting which = b.clear which := by
  rw [clearAsserting, clear]
  split
  next h => rw [Option.filter_some, testBit_toNat_clear h]; rfl
  next => rfl

end Calls

/-! ## The constructor -/

theorem clearBit_new (n i : Nat) : (new n).clearBit i = new n := by
  have hword : (new n).word i = 0#32 := by
    rw [word, new, List.getD_eq_getElem?_getD, List.getElem?_replicate]
    split <;> rfl
  have hset : (new n).map.set (i / 32) 0#32 = (new n).map := by
    refine List.ext_getElem (List.length_set ..) fun k hk hk' => ?_
    rw [List.getElem_set]
    split
    next => simp only [new, List.getElem_replicate]; rfl
    next => rfl
  rw [clearBit, hword, BitVec.zero_and]
  simp only [setWord, hset]

/-- Clearing the bits of an empty map changes nothing. -/
theorem construct_eq {numItems : Int} (h : 0 < numItems) :
    construct numItems = some (new numItems.toNat) := by
  have hloop : ∀ is : List Nat, (∀ i ∈ is, i < numItems.toNat) →
      is.foldlM (fun (b : Bitmap) (i : Nat) => b.clearAsserting i) (new numItems.toNat)
        = some (new numItems.toNat) := by
    intro is his
    induction is with
    | nil => rfl
    | cons i is ih =>
        have hi := his i List.mem_cons_self
        have hclear : (new numItems.toNat).clearAsserting i = some (new numItems.toNat) := by
          rw [clearAsserting_eq, clear, if_pos ⟨by omega, by rw [numBits_new]; omega⟩,
            Int.toNat_natCast, clearBit_new]
        rw [List.foldlM_cons, hclear]
        exact ih fun j hj => his j (List.mem_cons_of_mem i hj)
  rw [construct, if_pos h]
  exact hloop _ fun i hi => List.mem_range.mp hi

/-! ## Words and sets answer alike -/

section Sets

variable {b : Bitmap} {n : Nat} {s : Finset Nat}

theorem represents_new (n : Nat) : Represents n (new n) ∅ := ⟨numBits_new n, marked_new n⟩

theorem mem_compl_iff (h : Represents n b s) {i : Nat} :
    i ∈ Finset.range n \ s ↔ i < n ∧ b.testBit i = false := by
  obtain ⟨rfl, rfl⟩ := h
  rw [Finset.mem_sdiff, Finset.mem_range, mem_marked, not_and, Bool.not_eq_true]
  exact ⟨fun hi => ⟨hi.1, hi.2 hi.1⟩, fun hi => ⟨hi.1, fun _ => hi.2⟩⟩

theorem numClear_eq_card (h : Represents n b s) : b.numClear = (Finset.range n \ s).card := by
  obtain ⟨rfl, rfl⟩ := h
  rw [numClear_eq, Finset.card_sdiff_of_subset (marked_subset_range b), Finset.card_range]

theorem findAndSet_matches (h : Represents n b s) :
    Run.Matches (Represents n) (b.serve .findAndSet) (serveSet n s .findAndSet) := by
  rcases b.findAndSet_cases with ⟨hfind, hall⟩ | ⟨i, hfind, hi, hclear, hleast⟩
  · have hempty : ¬(Finset.range n \ s).Nonempty := by
      rintro ⟨i, hi⟩
      obtain ⟨hlt, hfalse⟩ := (mem_compl_iff h).mp hi
      rw [hall i (by rw [h.1]; exact hlt)] at hfalse
      exact Bool.noConfusion hfalse
    simp only [serve, serveSet, hfind, dif_neg hempty]
    exact .ok _ h
  · have hmem : i ∈ Finset.range n \ s := (mem_compl_iff h).mpr ⟨h.1 ▸ hi, hclear⟩
    have hne : (Finset.range n \ s).Nonempty := ⟨i, hmem⟩
    have hmin : (Finset.range n \ s).min' hne = i := by
      refine le_antisymm (Finset.min'_le _ _ hmem) (Finset.le_min' _ _ _ fun j hj => ?_)
      by_contra hlt
      have := hleast j (by omega)
      rw [((mem_compl_iff h).mp hj).2] at this
      exact Bool.noConfusion this
    simp only [serve, serveSet, hfind, dif_pos hne, hmin]
    exact .ok _ ⟨h.1, by rw [marked_markBit hi, h.2]⟩

/-- One call. -/
theorem serve_matches (h : Represents n b s) (r : Request) :
    Run.Matches (Represents n) (b.serve r) (serveSet n s r) := by
  obtain ⟨hn, hs⟩ := h
  cases r with
  | mark which =>
      simp only [serve, serveSet, markAsserting_eq, mark, InRange, hn]
      split
      next hin =>
          exact .ok _ ⟨hn, by rw [marked_markBit (by omega), hs]⟩
      next => exact .error _
  | clear which =>
      simp only [serve, serveSet, clearAsserting_eq, clear, InRange, hn]
      split
      next hin =>
          exact .ok _ ⟨hn, by rw [marked_clearBit (by omega), hs]⟩
      next => exact .error _
  | test which =>
      simp only [serve, serveSet, test, InRange, hn]
      split
      next hin =>
          have hbit : b.testBit which.toNat = decide (which.toNat ∈ s) := by
            rw [← hs, Bool.eq_iff_iff, decide_eq_true_eq, mem_marked, and_iff_right (by omega)]
          rw [Option.map_some, hbit]
          exact .ok _ ⟨hn, hs⟩
      next => exact .error _
  | findAndSet => exact findAndSet_matches ⟨hn, hs⟩
  | numClear =>
      simp only [serve, serveSet, numClear_eq_card ⟨hn, hs⟩]
      exact .ok _ ⟨hn, hs⟩

/-- With its argument in range a call aborts on no set. -/
theorem serveSet_ok {r : Request} (h : r.InRange n) (s : Finset Nat) :
    ∃ a s', serveSet n s r = .ok (a, s') := by
  cases r with
  | mark which => exact ⟨_, _, if_pos h⟩
  | clear which => exact ⟨_, _, if_pos h⟩
  | test which => exact ⟨_, _, if_pos h⟩
  | findAndSet =>
      rw [serveSet]
      split <;> exact ⟨_, _, rfl⟩
  | numClear => exact ⟨_, _, rfl⟩

theorem transcript_serveSet_ok {rs : List Request} (h : ∀ r ∈ rs, r.InRange n) (s : Finset Nat) :
    (Run.transcript (serveSet n) s rs).2 = none := by
  induction rs generalizing s with
  | nil => rfl
  | cons r rs ih =>
      obtain ⟨a, s', hr⟩ := serveSet_ok (h r List.mem_cons_self) s
      rw [Run.transcript, hr]
      exact ih (fun r' hr' => h r' (List.mem_cons_of_mem r hr')) s'

theorem findAndSet_refuses_iff (n : Nat) (s : Finset Nat) :
    serveSet n s .findAndSet = .ok (.int (-1), s) ↔ serveSet n s .numClear = .ok (.int 0, s) := by
  simp only [serveSet]
  split
  next h =>
      refine ⟨fun he => ?_, fun he => ?_⟩
      · simp only [Except.ok.injEq, Prod.mk.injEq, Answer.int.injEq] at he
        exact absurd he.1 (by omega)
      · simp only [Except.ok.injEq, Prod.mk.injEq, Answer.int.injEq, and_true,
          Int.natCast_eq_zero, Finset.card_eq_zero] at he
        exact absurd he h.ne_empty
  next h =>
      rw [Finset.not_nonempty_iff_eq_empty.mp h]
      exact ⟨fun _ => rfl, fun _ => rfl⟩

end Sets

end Bitmap

/-! ## The words in a file -/

/-- The calls of `OpenFile` that `PersistentBitmap` makes, with the state of
the file system; `none` is an abort. -/
structure FileOps (σ : Type) where
  readAt : σ → (numBytes position : Int) → Option (List UInt8 × σ)
  writeAt : σ → (data : Memory) → (numBytes position : Int) → Option σ

namespace FileOps

variable {σ : Type}

/-- `numWords * sizeof(unsigned)`. -/
def mapSize (numItems : Nat) : Int := 4 * divRoundUp numItems 32

/-- `PersistentBitmap::FetchFrom`, and the constructor from a file on the
bitmap that the constructor of `Bitmap` has made. -/
def fetchFrom (file : FileOps σ) (s : σ) (b : Bitmap) : Option (Bitmap × σ) :=
  (file.readAt s (mapSize b.numBits) 0).map fun r =>
    (DiskFS.wordsOf b.numBits (write (DiskFS.mapBytes b) 0 r.1), r.2)

/-- `PersistentBitmap::WriteBack`. -/
def writeBack (file : FileOps σ) (s : σ) (b : Bitmap) : Option σ :=
  file.writeAt s (DiskFS.mapBytes b) (mapSize b.numBits) 0

/-- What is written to the first `size` bytes of the file is read there. -/
def Keeps (file : FileOps σ) (s : σ) (size : Int) : Prop :=
  ∀ data, ∃ s' s'', file.writeAt s data size 0 = some s'
    ∧ file.readAt s' size 0 = some (read data 0 size.toNat, s'')

/-- A bitmap written back, and fetched into a bitmap of the same size. -/
def RoundTrips (file : FileOps σ) (s : σ) (b b' : Bitmap) : Prop :=
  ∃ s' s'', file.writeBack s b = some s' ∧ file.fetchFrom s' b' = some (b, s'')

theorem Keeps.roundTrips {file : FileOps σ} {s : σ} {b b' : Bitmap}
    (h : file.Keeps s (mapSize b.numBits)) (hb : b'.numBits = b.numBits) :
    file.RoundTrips s b b' := by
  obtain ⟨s', s'', hw, hr⟩ := h (DiskFS.mapBytes b)
  refine ⟨s', s'', hw, ?_⟩
  rw [fetchFrom, hb, hr, Option.map_some]
  have hwords : DiskFS.wordsOf b.numBits (write (DiskFS.mapBytes b') 0
      (read (DiskFS.mapBytes b) 0 (mapSize b.numBits).toNat)) = b := by
    rw [DiskFS.wordsOf_congr (m := DiskFS.mapBytes b) fun x h0 hx => ?_, DiskFS.wordsOf_mapBytes]
    rw [mapSize, write_read_of_mem h0 (by omega), Int.sub_zero, Int.zero_add]
  rw [hwords]

end FileOps

/-- A file of the Nachos disk, with the buffer that `WriteAt` allocates. -/
def DiskFS.diskFile (h : FileHeader) (junk : Memory) : FileOps Disk where
  readAt d numBytes position := (readAt d h numBytes position).map fun bytes => (bytes, d)
  writeAt d data numBytes position := (writeAt d h junk data numBytes position).map Prod.snd

/-- A file of the host, `ReadAt` and `WriteAt` of the stub. -/
def hostFile (f : OpenFile) : FileOps Host where
  readAt h numBytes position :=
    match ({ f with currentOffset := position } : OpenFile).read h numBytes with
    | .ok (bytes, _, _, h) => some (bytes, h)
    | .error _ => none
  writeAt h data numBytes position :=
    match ({ f with currentOffset := position } : OpenFile).write h
        (read data 0 numBytes.toNat) numBytes with
    | .ok (_, h) => some h
    | .error _ => none

theorem DiskFS.diskFile_keeps {h : FileHeader} (hs : Sound h) (junk : Memory) (d : Disk)
    {size : Int} (h0 : 0 ≤ size) (hlong : size ≤ h.numBytes) :
    (diskFile h junk).Keeps d size := by
  intro data
  have hlen := hs.length_le
  have hint : IsInt (0 + size) := ⟨by simp only [intMin]; omega, by simp only [intMax]; omega⟩
  have hall : transferred h size 0 = size := by
    rw [transferred]
    omega
  obtain ⟨d', hw, hbytes, -⟩ := writeAt_eq (d := d) hs junk data le_rfl hint
  refine ⟨d', d', by simp only [diskFile, hw, Option.map_some], ?_⟩
  simp only [diskFile, readAt_eq hs le_rfl hint, Option.map_some, hall]
  rw [read_congr fun x hx hlt => ?_]
  rw [hbytes x hx (by omega), hall, if_pos ⟨hx, by omega⟩, Int.sub_zero]

section HostFile

variable {f : OpenFile} {h : Host} {d : Desc}

theorem hostFile_writeAt (hd : h.desc f.file = some d) (data : Memory) {size : Int}
    (h0 : 0 ≤ size) (hsize : size ≤ intMax) :
    (hostFile f).writeAt h data size 0
      = some (written (h.setCursor f.file d 0) f.file { d with cursor := 0 }
          (read data 0 size.toNat)) := by
  have hlen : (read data 0 size.toNat).length = size.toNat := length_read ..
  have htake : (read data 0 size.toNat).take size.toNat = read data 0 size.toNat :=
    List.take_of_length_le (Nat.le_of_eq hlen)
  have hseek : lseek h f.file 0 .set = .ok (h.setCursor f.file d 0) :=
    lseek_eq (p := 0) hd (Nat.zero_le _)
  have hfits : 0 + size.toNat ≤ offsetLimit := by
    simp only [intMax] at hsize
    simp only [offsetLimit]
    omega
  simp only [hostFile, OpenFile.write, hseek, bind, Except.bind, if_neg (not_lt.mpr h0), htake,
    Host.write, desc_setCursor, hlen, if_pos hfits, written]
  rfl

theorem hostFile_readAt (hd : h.desc f.file = some d) {size : Int} (h0 : 0 ≤ size) :
    ∃ h', (hostFile f).readAt h size 0 = some ((h.data d.inode).take size.toNat, h') := by
  have hseek : lseek h f.file 0 .set = .ok (h.setCursor f.file d 0) :=
    lseek_eq (p := 0) hd (Nat.zero_le _)
  simp only [hostFile, OpenFile.read, hseek, bind, Except.bind, Host.read, desc_setCursor,
    if_neg (not_lt.mpr h0), List.drop_zero]
  exact ⟨_, rfl⟩

/-- A file that is open on the host, of any length. -/
theorem hostFile_keeps (hd : h.desc f.file = some d) {size : Int} (h0 : 0 ≤ size)
    (hsize : size ≤ intMax) : (hostFile f).Keeps h size := by
  intro data
  obtain ⟨h', hr⟩ := hostFile_readAt (h := written (h.setCursor f.file d 0) f.file
    { d with cursor := 0 } (read data 0 size.toNat)) (desc_written ..) h0
  have hback := take_drop_splice ((h.setCursor f.file d 0).data d.inode) 0
    (read data 0 size.toNat)
  rw [List.drop_zero, length_read] at hback
  rw [data_written _ _ { d with cursor := 0 }] at hr
  exact ⟨_, h', hostFile_writeAt hd data h0 hsize, by rw [hr, hback]⟩

end HostFile

/-! ## The refinement -/

theorem mapSize_bounds {numItems : Int} (h0 : 0 < numItems) (hint : numItems ≤ intMax) :
    0 ≤ FileOps.mapSize numItems.toNat ∧ FileOps.mapSize numItems.toNat ≤ intMax := by
  simp only [intMax] at hint ⊢
  rw [FileOps.mapSize, Int.toNat_of_nonneg (by omega), divRoundUp_of_nonneg (by omega)]
  split <;> omega

/-- **A bitmap is a finite set.** From the constructor on, any sequence of
calls is answered as the set of the marked bits answers it, `FindAndSet`
refuses just when `NumClear` is zero, and a file long enough for the words
gives the bitmap back. -/
theorem bitmap_refines_set (numItems : Int) (hpos : 0 < numItems) (hint : numItems ≤ intMax) :
    ∃ b₀, Bitmap.construct numItems = some b₀
      ∧ (∀ requests, Run.transcript Bitmap.serve b₀ requests
          = Run.transcript (Bitmap.serveSet numItems.toNat) ∅ requests)
      ∧ (∀ requests, (∀ r ∈ requests, Bitmap.Request.InRange numItems r) →
          (Run.transcript Bitmap.serve b₀ requests).2 = none)
      ∧ (∀ s, Bitmap.serveSet numItems.toNat s .findAndSet = .ok (.int (-1), s)
          ↔ Bitmap.serveSet numItems.toNat s .numClear = .ok (.int 0, s))
      ∧ ∀ b b' : Bitmap, b.numBits = numItems.toNat → b'.numBits = numItems.toNat →
          (∀ d h junk, DiskFS.Sound h → FileOps.mapSize numItems.toNat ≤ h.numBytes →
            (DiskFS.diskFile h junk).RoundTrips d b b')
          ∧ ∀ host f, host.desc f.file ≠ none → (hostFile f).RoundTrips host b b' := by
  have hcast : (numItems.toNat : Int) = numItems := Int.toNat_of_nonneg (by omega)
  have hsame : ∀ requests, Run.transcript Bitmap.serve (Bitmap.new numItems.toNat) requests
      = Run.transcript (Bitmap.serveSet numItems.toNat) ∅ requests := fun requests =>
    Run.transcript_eq requests (fun r _ _ _ hr => Bitmap.serve_matches hr r)
      (Bitmap.represents_new _)
  obtain ⟨h0, hsize⟩ := mapSize_bounds hpos hint
  refine ⟨_, Bitmap.construct_eq hpos, hsame, fun requests hin => ?_,
    Bitmap.findAndSet_refuses_iff _, fun b b' hb hb' => ⟨fun d h junk hs hlong => ?_,
      fun host f hopen => ?_⟩⟩
  · rw [hsame]
    exact Bitmap.transcript_serveSet_ok (by rwa [hcast]) ∅
  · refine FileOps.Keeps.roundTrips ?_ (hb'.trans hb.symm)
    rw [hb]
    exact DiskFS.diskFile_keeps hs junk d h0 hlong
  · obtain ⟨d, hd⟩ := Option.ne_none_iff_exists'.mp hopen
    refine FileOps.Keeps.roundTrips ?_ (hb'.trans hb.symm)
    rw [hb]
    exact hostFile_keeps hd h0 hsize

theorem DiskFS.sound_shortFile : Sound shortFile := by
  have hcases : ∀ i : Int, 0 ≤ i → i < shortFile.numSectors → i = 0 ∨ i = 1 ∨ i = 2 := by
    intro i h0 hi
    have hthree : shortFile.numSectors = 3 := by decide
    omega
  refine ⟨by decide, by decide, by decide, fun i h0 hi => ?_, fun i j h0 hi h0' hj => ?_⟩
  · rcases hcases i h0 hi with rfl | rfl | rfl <;> decide
  · rcases hcases i h0 hi with rfl | rfl | rfl <;> rcases hcases j h0' hj with rfl | rfl | rfl <;>
      decide

/-- 33 bits: the sign bit of the first word, and the one bit of the second;
the map goes to a file of 300 bytes and to a file of the host. -/
theorem bitmap_refines_set_thirtythree :
    (∃ b₀, Bitmap.construct 33 = some b₀
      ∧ Run.transcript Bitmap.serve b₀
          [.mark 31, .test 31, .mark 32, .findAndSet, .clear 32, .numClear]
        = ([.void, .bool true, .void, .int 0, .void, .int 31], none))
      ∧ (DiskFS.diskFile DiskFS.shortFile fun _ => 255).RoundTrips (fun _ => 0)
          ((Bitmap.new 33).markBit 32) (Bitmap.new 33)
      ∧ (hostFile ⟨3, 0, 0, "map"⟩).RoundTrips ⟨fun _ => [], fun _ => some ⟨0, 7⟩⟩
          ((Bitmap.new 33).markBit 32) (Bitmap.new 33) := by
  obtain ⟨b₀, hb₀, hrun, -, -, hfile⟩ := bitmap_refines_set 33 (by decide) (by decide)
  obtain ⟨hdisk, hhost⟩ := hfile ((Bitmap.new 33).markBit 32) (Bitmap.new 33) rfl rfl
  exact ⟨⟨b₀, hb₀, (hrun _).trans (by decide)⟩,
    hdisk _ _ _ DiskFS.sound_shortFile (by decide), hhost _ _ (Option.some_ne_none _)⟩

end Nachos
