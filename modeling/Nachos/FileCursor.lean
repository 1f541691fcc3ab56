import Nachos.FileTable
import Nachos.Run

/-!
# Files as byte sequences with a cursor

The position of an open file exists twice: the host keeps an offset for the
descriptor, and `OpenFile` of the stub file system (`filesys/openfile.h`)
keeps `currentOffset`. `GetCurrentPos` sets the second from the first, `Read`
and `Write` go to `currentOffset` and then add what they have moved, and
`Length` runs to the end and back.

The first half says what `PCB::Read`, `Write` and `Seek` (`threads/pcb.cc`)
come to on an entry that is open (`read_eq`, `write_eq`, `seek_eq`). The
second half is the abstraction: `ByteFile` is a sequence of bytes with one
cursor, which no call can bring outside, and `file_refines` says that every
sequence of calls on a descriptor opened with type 0 gets the answers of the
`ByteFile`, with both positions at its cursor after every call. Others may do
what they like in between as long as they do not write the file.

The positions of the host end at `offsetLimit`. `open` fails on a longer
file; a `write` that would go on behind it fails the assertion of
`WriteFile`, which ends everything.
-/

namespace Nachos

open CInt HostFiles

/-! ## One call on an open entry -/

/-- Entry `id` of the table is an open file, on the descriptor `d` of the
host. -/
structure Holds (s : Files) (id : Int) (f : OpenFile) (d : Desc) : Prop where
  low : 2 ≤ id
  high : id ≤ 9
  entry : s.fileTable id.toNat = some f
  desc : s.host.desc f.file = some d

/-- The files after a call that ended with the host `h` and the cursor where
`currentOffset` says. -/
def after (s : Files) (id : Int) (f : OpenFile) (h : Host) (p : Nat) : Files :=
  { s.setFile id { f with currentOffset := p } with host := h }

section Descriptor

variable {s : Files} {id : Int} {f : OpenFile} {d : Desc}

theorem lseek_eq {h : Host} {fd : Nat} {d : Desc} (hd : h.desc fd = some d) {p : Nat}
    (hp : p ≤ offsetLimit) : lseek h fd p .set = .ok (h.setCursor fd d p) := by
  rw [lseek, lseek_set hd hp]

theorem tell_eq {h : Host} {fd : Nat} {d : Desc} (hd : h.desc fd = some d)
    (hp : d.cursor ≤ offsetLimit) : tell h fd = d.cursor := by
  rw [tell, lseek_cur hd hp]

theorem holds_after (hs : Holds s id f d) {h : Host} {p : Nat} {d' : Desc}
    (hd : h.desc f.file = some d') :
    Holds (after s id f h p) id { f with currentOffset := p } d' :=
  ⟨hs.low, hs.high, Function.update_self .., hd⟩

theorem moved_eq {h : Host} {d' : Desc} (hd : h.desc f.file = some d')
    (hp : d'.cursor ≤ offsetLimit) (s : Files) (id oldPos : Int) (offset : Int) :
    s.moved id oldPos { f with currentOffset := offset } h
      = (wrap32 (d'.cursor - oldPos), after s id f h d'.cursor) := by
  have htell : tell h f.file = d'.cursor := tell_eq hd hp
  simp only [Files.moved, OpenFile.getCurrentPos, htell, after]

/-- The way from one position of a file to a later one. -/
theorem wrap32_way {p n : Nat} (h : p + n ≤ offsetLimit) :
    wrap32 ((p + n : Nat) - (p : Int)) = n := by
  rw [offsetLimit] at h
  rw [wrap32_of_bounds (by omega) (by omega)]
  omega

theorem wrap32_position {p : Nat} (h : p ≤ offsetLimit) : wrap32 p = p := by
  rw [offsetLimit] at h
  exact wrap32_of_bounds (by omega) (by omega)

/-- The host after `bs` has been written at the cursor. -/
def written (h : Host) (fd : Nat) (d : Desc) (bs : List UInt8) : Host :=
  ({ h with data := Function.update h.data d.inode (splice (h.data d.inode) d.cursor bs) } :
    Host).setCursor fd d (d.cursor + bs.length)

theorem desc_written (h : Host) (fd : Nat) (d : Desc) (bs : List UInt8) :
    (written h fd d bs).desc fd = some { d with cursor := d.cursor + bs.length } :=
  desc_setCursor ..

theorem data_written (h : Host) (fd : Nat) (d : Desc) (bs : List UInt8) :
    (written h fd d bs).data d.inode = splice (h.data d.inode) d.cursor bs :=
  Function.update_self ..

/-- `OpenFile::Write` at the cursor. -/
theorem openFile_write {h : Host} (hd : h.desc f.file = some d) (hlim : d.cursor ≤ offsetLimit)
    {buffer : List UInt8} {n : Nat} (hlen : n ≤ buffer.length) :
    ({ f with currentOffset := d.cursor } : OpenFile).write h buffer n =
      if d.cursor + n ≤ offsetLimit then
        .ok ({ f with currentOffset := wrap32 (d.cursor + n) },
          written h f.file d (buffer.take n))
      else .error .abort := by
  have htake : (buffer.take n).length = n := by
    rw [List.length_take]
    omega
  have hneg : ¬(n : Int) < 0 := by omega
  simp only [OpenFile.write, lseek_eq hd hlim, setCursor_self hd, if_neg hneg, Int.toNat_natCast,
    Host.write, hd, htake, bind, Except.bind]
  by_cases hfits : d.cursor + n ≤ offsetLimit
  · simp only [if_pos hfits, written, htake]
    rfl
  · simp only [if_neg hfits]
    rfl

/-- `PCB::Write`. Nothing to write is answered like an error. -/
theorem write_eq (hs : Holds s id f d) (htype : f.type = 0) {buffer : List UInt8} {n : Nat}
    (hlen : n ≤ buffer.length) (hp : d.cursor ≤ offsetLimit) :
    s.write buffer n id =
      if d.cursor + n ≤ offsetLimit then
        .ok (if 0 < n then n else -1,
          after s id f (written s.host f.file d (buffer.take n)) (d.cursor + n))
      else .error .abort := by
  have hlow := hs.low
  have hhigh := hs.high
  have hread : ¬f.type = 1 := by rw [htype]; decide
  have htake : (buffer.take n).length = n := by
    rw [List.length_take]
    omega
  rw [Files.write, if_neg (by omega), if_neg (by omega), hs.entry]
  simp only [if_neg hread, OpenFile.getCurrentPos, tell_eq hs.desc hp,
    if_neg (show ¬id = 1 by omega), openFile_write hs.desc hp hlen, bind, Except.bind]
  by_cases hfits : d.cursor + n ≤ offsetLimit
  · simp only [if_pos hfits]
    by_cases hn : 0 < n
    · have hdesc := desc_written s.host f.file d (buffer.take n)
      rw [htake] at hdesc
      have hmoved := moved_eq hdesc hfits s id d.cursor (wrap32 (d.cursor + n))
      rw [wrap32_way hfits] at hmoved
      rw [if_pos hn, if_pos (show (0 : Int) < n by omega)]
      exact congrArg Except.ok hmoved
    · have hoffset : wrap32 ((d.cursor : Int) + n) = (d.cursor + n : Nat) := wrap32_position hfits
      rw [if_neg hn, if_neg (show ¬(0 : Int) < n by omega), hoffset]
      rfl
  · simp only [if_neg hfits]

/-- `Length`, the cursor where `currentOffset` says. -/
theorem length_eq {h : Host} {p : Nat} (hd : h.desc f.file = some d) (hp : d.cursor = p)
    (hlim : p ≤ offsetLimit) (hlen : (h.data d.inode).length ≤ offsetLimit) :
    ({ f with currentOffset := p } : OpenFile).length h = .ok ((h.data d.inode).length, h) := by
  subst hp
  have hend : lseek h f.file 0 .fileEnd = .ok (h.setCursor f.file d (h.data d.inode).length) := by
    rw [lseek, lseek_end hd hlen]
  have hback : lseek (h.setCursor f.file d (h.data d.inode).length) f.file d.cursor .set
      = .ok h := by
    rw [lseek_eq (desc_setCursor _ _ _ _) hlim, setCursor_setCursor]
    exact congrArg Except.ok (setCursor_self hd)
  have htell : tell (h.setCursor f.file d (h.data d.inode).length) f.file
      = (h.data d.inode).length := tell_eq (desc_setCursor _ _ _ _) hlen
  simp only [OpenFile.length, hend, htell, hback, bind, Except.bind]
  rfl

/-- The position `Seek` goes to; -1 is the end. -/
def seekTarget (position : Int) (length : Nat) : Int := if position = -1 then length else position

/-- `PCB::Seek`. -/
theorem seek_eq {p : Nat} (hs : Holds s id { f with currentOffset := p } d) (hp : d.cursor = p)
    (hlim : p ≤ offsetLimit) (hlen : (s.host.data d.inode).length ≤ offsetLimit) (position : Int)
    {target : Int} (htarget : seekTarget position (s.host.data d.inode).length = target) :
    s.seek position id =
      if 0 ≤ target ∧ target ≤ (s.host.data d.inode).length then
        .ok (target, after s id f (s.host.setCursor f.file d target.toNat) target.toNat)
      else .ok (-1, s) := by
  have hlow := hs.low
  have hhigh := hs.high
  have hdesc : s.host.desc f.file = some d := hs.desc
  have hlength := length_eq hdesc hp hlim hlen
  have hsplit : s.seek position id =
      if (s.host.data d.inode).length < target ∨ target < 0 then .ok (-1, s)
      else (OpenFile.seek { f with currentOffset := p } s.host target).bind fun r =>
        .ok (target, { s.setFile id r.1 with host := r.2 }) := by
    rw [← htarget, seekTarget, Files.seek, if_neg (by omega), hs.entry]
    by_cases hend : position = -1
    · simp only [if_neg (show ¬(id = 1 ∨ id = 0) by omega), if_pos hend, hlength, bind,
        Except.bind]
      rfl
    · simp only [if_neg (show ¬(id = 1 ∨ id = 0) by omega), if_neg hend, pure, Except.pure, hlength,
        bind, Except.bind]
  rw [hsplit]
  by_cases hin : 0 ≤ target ∧ target ≤ (s.host.data d.inode).length
  · have hnat : ((target.toNat : Nat) : Int) = target := Int.toNat_of_nonneg hin.1
    have hseek : lseek s.host f.file target .set
        = .ok (s.host.setCursor f.file d target.toNat) := by
      rw [← hnat, lseek_eq hdesc (by omega), Int.toNat_natCast]
    have htell : tell (s.host.setCursor f.file d target.toNat) f.file = target.toNat :=
      tell_eq (desc_setCursor _ _ _ _) (by simp only; omega)
    rw [if_pos hin, if_neg (by omega)]
    simp only [OpenFile.seek, hseek, htell, bind, Except.bind, pure, Except.pure]
    rfl
  · rw [if_neg hin, if_pos (by omega)]

/-- `PCB::Read`, of what is left of the file. -/
theorem read_eq (hs : Holds s id f d) (buffer : List UInt8) (n : Nat) {bs : List UInt8}
    (hbs : ((s.host.data d.inode).drop d.cursor).take n = bs)
    (hp : d.cursor + bs.length ≤ offsetLimit) :
    s.read buffer n id = .ok (if 0 < bs.length then bs.length else -2,
      bs ++ buffer.drop bs.length,
      after s id f (s.host.setCursor f.file d (d.cursor + bs.length)) (d.cursor + bs.length)) := by
  have hlow := hs.low
  have hhigh := hs.high
  have hcur : d.cursor ≤ offsetLimit := by omega
  have hread : s.host.read f.file n
      = some (bs, s.host.setCursor f.file d (d.cursor + bs.length)) := by
    rw [Host.read, hs.desc]
    simp only [if_neg (show ¬(n : Int) < 0 by omega), Int.toNat_natCast, hbs]
  rw [Files.read, if_neg (by omega), if_neg (by omega), hs.entry]
  simp only [OpenFile.getCurrentPos, tell_eq hs.desc hcur, if_neg (show ¬id = 0 by omega),
    OpenFile.read, lseek_eq hs.desc hcur, setCursor_self hs.desc, hread, bind, Except.bind, pure,
    Except.pure]
  by_cases hpos : 0 < bs.length
  · simp only [if_pos hpos, if_pos (show (0 : Int) < bs.length by omega),
      moved_eq (desc_setCursor s.host f.file d (d.cursor + bs.length)) hp, wrap32_way hp]
  · obtain rfl : bs = [] := List.length_eq_zero_iff.mp (by omega)
    have hoffset : wrap32 ((d.cursor : Int) + (List.length ([] : List UInt8) : Int))
        = (d.cursor + 0 : Nat) := wrap32_position hp
    simp only [if_neg hpos, if_neg (show ¬(0 : Int) < (List.length ([] : List UInt8) : Int)
      by simp), hoffset]
    rfl

end Descriptor

/-! ## Opening -/

/-- `PCB::Open` down to the host, where the name leads to the file `inode`
and `o` is the answer of `open`: a new descriptor, at the start of the file.
The host does not open a file whose length is no `off_t`. -/
def Files.openFile (s : Files) (name : String) (type : Int) (o : Opening) (inode : Nat) :
    Int × Files :=
  let o := if (s.host.data inode).length ≤ offsetLimit then o else { o with fd := none }
  match FileTable.openFile s.fileTable name type o with
  | (r, some (i, f)) =>
      (r, { s with
        fileTable := Function.update s.fileTable i (some f)
        host := { s.host with desc := Function.update s.host.desc f.file (some ⟨inode, 0⟩) } })
  | (r, none) => (r, s)

/-- A successful `Open` of a file of type 0. -/
theorem FileTable.openFile_zero {t : FileTable} {name : String} {o : Opening} {r : Int}
    {e : Option (Nat × OpenFile)} (h : t.openFile name 0 o = (r, e)) (hr : 0 ≤ r) :
    ∃ fd, o.fd = some fd ∧ 2 ≤ r ∧ r ≤ 9
      ∧ e = some (r.toNat,
          { file := fd, type := 0, currentOffset := 0, filename := name ++ o.tail }) := by
  simp only [FileTable.openFile] at h
  split at h
  next =>
      obtain ⟨rfl, -⟩ := Prod.mk.inj h
      omega
  next =>
      split at h
      next =>
          obtain ⟨rfl, -⟩ := Prod.mk.inj h
          omega
      next slot hslot =>
          rw [if_pos (Or.inl trivial)] at h
          obtain ⟨hlow, hhigh, -⟩ := findFreeSlot_some hslot
          rw [size] at hhigh
          cases hfd : o.fd with
          | none =>
              simp only [Opening.file, hfd, Option.map_none] at h
              obtain ⟨rfl, -⟩ := Prod.mk.inj h
              omega
          | some fd =>
              simp only [Opening.file, hfd, Option.map_some] at h
              obtain ⟨rfl, rfl⟩ := Prod.mk.inj h
              exact ⟨fd, rfl, by omega, by omega, by rw [Int.toNat_natCast]⟩

/-! ## The abstract file -/

/-- A sequence of bytes with a cursor in it or at its end. -/
structure ByteFile where
  bytes : List UInt8
  cursor : Nat
  inside : cursor ≤ bytes.length
  size : bytes.length ≤ offsetLimit

/-- A buffer with room for the `size` bytes of a request. -/
structure Request where
  buffer : List UInt8
  size : Nat
  room : size ≤ buffer.length

/-- The bytes of a `Write`. -/
def Request.data (q : Request) : List UInt8 := q.buffer.take q.size

theorem Request.length_data (q : Request) : q.data.length = q.size := by
  rw [Request.data, List.length_take]
  exact Nat.min_eq_left q.room

/-- What happens to an open file: a call through its descriptor, or something
else. -/
inductive FileEvent where
  | read (q : Request)
  | write (q : Request)
  | seek (position : Int)
  | other (change : Files → Files)

/-- The result of a call, and the buffer of a `Read` after it. -/
structure Answer where
  result : Int
  buffer : Option (List UInt8)
deriving DecidableEq

/-- What there is to see of an open file: its bytes, `currentOffset` and the
offset of the host. -/
structure FileView where
  bytes : List UInt8
  currentOffset : Int
  offset : Nat
deriving DecidableEq

namespace ByteFile

/-- The file just opened. -/
def opened (bytes : List UInt8) (h : bytes.length ≤ offsetLimit) : ByteFile :=
  ⟨bytes, 0, Nat.zero_le _, h⟩

/-- The number of bytes a request can get. -/
def available (a : ByteFile) (size : Nat) : Nat := min size (a.bytes.length - a.cursor)

theorem cursor_add_available (a : ByteFile) (size : Nat) :
    a.cursor + a.available size ≤ a.bytes.length := by
  have := a.inside
  rw [available]
  omega

/-- The bytes with `data` over those at the cursor, or behind the last. -/
def overwritten (a : ByteFile) (data : List UInt8) : List UInt8 :=
  a.bytes.take a.cursor ++ data ++ a.bytes.drop (a.cursor + data.length)

theorem length_overwritten (a : ByteFile) (data : List UInt8) :
    (a.overwritten data).length = max a.bytes.length (a.cursor + data.length) := by
  have := a.inside
  simp only [overwritten, List.length_append, List.length_take, List.length_drop]
  omega

def moveTo (a : ByteFile) (p : Nat) (h : p ≤ a.bytes.length) : ByteFile := { a with
  cursor := p
  inside := h }

def overwrite (a : ByteFile) (data : List UInt8) (h : a.cursor + data.length ≤ offsetLimit) :
    ByteFile where
  bytes := a.overwritten data
  cursor := a.cursor + data.length
  inside := by
    rw [length_overwritten]
    omega
  size := by
    have := a.size
    rw [length_overwritten]
    omega

def read (a : ByteFile) (q : Request) : Answer × ByteFile :=
  if 0 < a.available q.size then
    (⟨a.available q.size, some ((a.bytes.drop a.cursor).take (a.available q.size)
        ++ q.buffer.drop (a.available q.size))⟩,
      a.moveTo (a.cursor + a.available q.size) (a.cursor_add_available q.size))
  else (⟨-2, some q.buffer⟩, a)

/-- The host takes no byte behind its largest offset, and then the kernel
stops. -/
def write (a : ByteFile) (q : Request) : Except Trap (Answer × ByteFile) :=
  if q.size = 0 then .ok (⟨-1, none⟩, a)
  else if h : a.cursor + q.data.length ≤ offsetLimit then
    .ok (⟨q.size, none⟩, a.overwrite q.data h)
  else .error .abort

def seek (a : ByteFile) (position : Int) : Answer × ByteFile :=
  if position = -1 then (⟨a.bytes.length, none⟩, a.moveTo a.bytes.length le_rfl)
  else if h : 0 ≤ position ∧ position ≤ a.bytes.length then
    (⟨position, none⟩, a.moveTo position.toNat (Int.toNat_le.mpr h.2))
  else (⟨-1, none⟩, a)

def view (a : ByteFile) : FileView := ⟨a.bytes, a.cursor, a.cursor⟩

/-- The answer to an event, and what there is to see after it. -/
def step (a : ByteFile) (e : FileEvent) :
    Except Trap ((Option Answer × Option FileView) × ByteFile) :=
  match e with
  | .read q => .ok ((some (a.read q).1, some (a.read q).2.view), (a.read q).2)
  | .write q => (a.write q).map fun r => ((some r.1, some r.2.view), r.2)
  | .seek position =>
      .ok ((some (a.seek position).1, some (a.seek position).2.view), (a.seek position).2)
  | .other _ => .ok ((none, some a.view), a)

end ByteFile

/-! ## The refinement -/

namespace Files

/-- What there is to see through entry `id`. -/
def view (s : Files) (id : Int) : Option FileView :=
  (s.fileTable id.toNat).bind fun f => (s.host.desc f.file).map fun d =>
    ⟨s.host.data d.inode, f.currentOffset, d.cursor⟩

def answered (id : Int) (answer : Option Answer) (s : Files) :
    (Option Answer × Option FileView) × Files :=
  ((answer, s.view id), s)

/-- The calls on descriptor `id`, and what others do. -/
def step (id : Int) (s : Files) (e : FileEvent) :
    Except Trap ((Option Answer × Option FileView) × Files) :=
  match e with
  | .read q => (s.read q.buffer q.size id).map fun r =>
      answered id (some ⟨r.1, some r.2.1⟩) r.2.2
  | .write q => (s.write q.buffer q.size id).map fun r => answered id (some ⟨r.1, none⟩) r.2
  | .seek position => (s.seek position id).map fun r => answered id (some ⟨r.1, none⟩) r.2
  | .other change => .ok (answered id none (change s))

end Files

/-- Not a writer of the file behind entry `id`: the entry, its descriptor and
its bytes stay. -/
structure Untouched (id : Int) (s s' : Files) : Prop where
  entry : s'.fileTable id.toNat = s.fileTable id.toNat
  desc : ∀ f, s.fileTable id.toNat = some f → s'.host.desc f.file = s.host.desc f.file
  data : ∀ f d, s.fileTable id.toNat = some f → s.host.desc f.file = some d →
    s'.host.data d.inode = s.host.data d.inode

theorem untouched_refl (id : Int) (s : Files) : Untouched id s s :=
  ⟨rfl, fun _ _ => rfl, fun _ _ _ _ => rfl⟩

/-- No other writer. -/
def FileEvent.Quiet (id : Int) : FileEvent → Prop
  | .other change => ∀ s, Untouched id s (change s)
  | _ => True

/-- Entry `id` is open with type 0, and both its positions are the cursor. -/
def Represents (id : Int) (s : Files) (a : ByteFile) : Prop :=
  ∃ (f : OpenFile) (d : Desc), Holds s id { f with currentOffset := a.cursor } d ∧ f.type = 0
    ∧ d.cursor = a.cursor ∧ s.host.data d.inode = a.bytes

section Refinement

variable {id : Int} {s : Files} {a : ByteFile}

theorem Represents.view (h : Represents id s a) : s.view id = some a.view := by
  obtain ⟨f, d, hs, -, hcur, hdata⟩ := h
  have hdesc : s.host.desc f.file = some d := hs.desc
  rw [Files.view, hs.entry, Option.bind_some, hdesc, Option.map_some, ByteFile.view, hdata, hcur]

theorem Represents.matches {s' : Files} {a' : ByteFile} (h : Represents id s' a')
    (answer : Option Answer) :
    Run.Matches (Represents id) (.ok (Files.answered id answer s') : Except Trap _)
      (.ok ((answer, some a'.view), a')) := by
  rw [Files.answered, h.view]
  exact .ok _ h

/-- The entry after a call that has set both positions to `p`. -/
theorem represents_after {f : OpenFile} {d d' : Desc} {c : Int} {h : Host}
    (hs : Holds s id { f with currentOffset := c } d) (htype : f.type = 0) {b : ByteFile}
    (hd : h.desc f.file = some d') (hcur : d'.cursor = b.cursor)
    (hdata : h.data d'.inode = b.bytes) : Represents id (after s id f h b.cursor) b :=
  ⟨f, d', holds_after hs hd, htype, hcur, hdata⟩

theorem Represents.read (h : Represents id s a) (q : Request) :
    Run.Matches (Represents id) (Files.step id s (.read q)) (a.step (.read q)) := by
  obtain ⟨f, d, hs, htype, hcur, hdata⟩ := h
  have hsize := a.size
  have hin := a.cursor_add_available q.size
  have hlen : ((a.bytes.drop a.cursor).take q.size).length = a.available q.size := by
    rw [List.length_take, List.length_drop, ByteFile.available]
  have hbs : ((s.host.data d.inode).drop d.cursor).take q.size
      = (a.bytes.drop a.cursor).take q.size := by rw [hdata, hcur]
  have hread := read_eq hs q.buffer q.size hbs (by rw [hlen]; omega)
  rw [hlen, hcur] at hread
  simp only [Files.step, hread, Except.map, ByteFile.step, ByteFile.read]
  have hafter : ∀ a' : ByteFile, a'.cursor = a.cursor + a.available q.size → a'.bytes = a.bytes →
      Represents id (after s id f (s.host.setCursor f.file d a'.cursor) a'.cursor) a' :=
    fun a' _ hbytes => represents_after hs htype (desc_setCursor ..) rfl (hdata.trans hbytes.symm)
  by_cases hpos : 0 < a.available q.size
  · have hbytes : (a.bytes.drop a.cursor).take q.size
        = (a.bytes.drop a.cursor).take (a.available q.size) := by
      rw [List.take_eq_take_min, List.length_drop, ByteFile.available]
    rw [if_pos hpos, if_pos hpos, hbytes]
    exact (hafter (a.moveTo (a.cursor + a.available q.size) hin) rfl rfl).matches _
  · have hzero : a.available q.size = 0 := by omega
    have hnil : (a.bytes.drop a.cursor).take q.size = [] :=
      List.length_eq_zero_iff.mp (hlen.trans hzero)
    rw [if_neg hpos, if_neg hpos, hnil, hzero]
    exact (hafter a (by omega) rfl).matches _

theorem Represents.write (h : Represents id s a) (q : Request) :
    Run.Matches (Represents id) (Files.step id s (.write q)) (a.step (.write q)) := by
  obtain ⟨f, d, hs, htype, hcur, hdata⟩ := h
  have hsize := a.size
  have hin := a.inside
  have hlength := q.length_data
  have hwrite : s.write q.buffer q.size id =
      if a.cursor + q.data.length ≤ offsetLimit then
        .ok (if 0 < q.size then q.size else -1,
          after s id f (written s.host f.file d q.data) (a.cursor + q.data.length))
      else .error .abort := by
    rw [hlength, ← hcur]
    exact write_eq hs htype q.room (by omega)
  have hsplice : splice (s.host.data d.inode) d.cursor q.data = a.overwritten q.data := by
    rw [splice, ByteFile.overwritten, hdata, hcur, Nat.sub_eq_zero_of_le hin, List.replicate_zero,
      List.append_nil]
  have hafter : ∀ a' : ByteFile, a'.cursor = a.cursor + q.data.length →
      a'.bytes = a.overwritten q.data →
      Represents id (after s id f (written s.host f.file d q.data) a'.cursor) a' := by
    intro a' hcur' hbytes
    refine represents_after hs htype (desc_written ..) ?_ ?_
    · rw [hcur', hcur]
    · rw [data_written, hsplice, hbytes]
  simp only [Files.step, hwrite, ByteFile.step, ByteFile.write]
  by_cases hzero : q.size = 0
  · have hnil : q.data = [] := List.length_eq_zero_iff.mp (hlength.trans hzero)
    have hsame : a.overwritten q.data = a.bytes := by
      rw [ByteFile.overwritten, hnil, List.append_nil]
      exact List.take_append_drop ..
    have hend : a.cursor + q.data.length = a.cursor := by omega
    rw [if_pos (by omega), if_pos hzero, if_neg (by omega), hend]
    exact (hafter a hend.symm hsame.symm).matches _
  · have hpos : 0 < q.size := by omega
    rw [if_neg hzero]
    by_cases hfits : a.cursor + q.data.length ≤ offsetLimit
    · rw [if_pos hfits, dif_pos hfits, if_pos hpos]
      exact (hafter (a.overwrite q.data hfits) rfl rfl).matches _
    · rw [if_neg hfits, dif_neg hfits]
      exact .error _

theorem Represents.seek (h : Represents id s a) (position : Int) :
    Run.Matches (Represents id) (Files.step id s (.seek position)) (a.step (.seek position)) := by
  have hsame := h
  obtain ⟨f, d, hs, htype, hcur, hdata⟩ := h
  have hsize := a.size
  have hin := a.inside
  have hseek := seek_eq hs hcur (by omega) (by rw [hdata]; exact hsize) position rfl
  rw [hdata] at hseek
  have hafter : ∀ (p : Nat) (hp : p ≤ a.bytes.length),
      Represents id (after s id f (s.host.setCursor f.file d p) p) (a.moveTo p hp) :=
    fun p hp => represents_after (b := a.moveTo p hp) hs htype (desc_setCursor ..) rfl hdata
  simp only [Files.step, hseek, ByteFile.step, ByteFile.seek, seekTarget]
  by_cases hend : position = -1
  · simp only [if_pos hend, Int.toNat_natCast]
    rw [if_pos ⟨by omega, le_rfl⟩]
    exact (hafter a.bytes.length le_rfl).matches _
  · simp only [if_neg hend]
    by_cases htarget : 0 ≤ position ∧ position ≤ a.bytes.length
    · rw [if_pos htarget, dif_pos htarget]
      exact (hafter position.toNat (Int.toNat_le.mpr htarget.2)).matches _
    · rw [if_neg htarget, dif_neg htarget]
      exact hsame.matches _

theorem Represents.untouched (h : Represents id s a) {s' : Files} (hu : Untouched id s s') :
    Represents id s' a := by
  obtain ⟨f, d, hs, htype, hcur, hdata⟩ := h
  refine ⟨f, d, ⟨hs.low, hs.high, hu.entry.trans hs.entry, ?_⟩, htype, hcur, ?_⟩
  · exact (hu.desc _ hs.entry).trans hs.desc
  · exact (hu.data _ _ hs.entry hs.desc).trans hdata

/-- Each event is answered by the entry as by the abstract file. -/
theorem Represents.step (h : Represents id s a) {e : FileEvent} (he : e.Quiet id) :
    Run.Matches (Represents id) (Files.step id s e) (a.step e) := by
  cases e with
  | read q => exact h.read q
  | write q => exact h.write q
  | seek position => exact h.seek position
  | other change => exact (h.untouched (he s)).matches none

/-- Whole sequences of events. -/
theorem Represents.transcript_eq (h : Represents id s a) {events : List FileEvent}
    (hquiet : ∀ e ∈ events, e.Quiet id) :
    Run.transcript (Files.step id) s events = Run.transcript ByteFile.step a events :=
  Run.transcript_eq events (fun e he _ _ hr => hr.step (hquiet e he)) h

/-- A file just opened with type 0. -/
theorem represents_openFile {s' : Files} {name : String} {o : Opening} {inode : Nat}
    (hopen : s.openFile name 0 o inode = (id, s')) (hid : 0 ≤ id) :
    ∃ hsize : (s.host.data inode).length ≤ offsetLimit,
      Represents id s' (ByteFile.opened (s.host.data inode) hsize) := by
  simp only [Files.openFile] at hopen
  generalize hanswer : (if (s.host.data inode).length ≤ offsetLimit then o
    else { o with fd := none }) = o' at hopen
  generalize htable : FileTable.openFile s.fileTable name 0 o' = r at hopen
  obtain ⟨r, e⟩ := r
  have hr : r = id := by
    cases e with
    | none => exact (Prod.mk.inj hopen).1
    | some e => exact (Prod.mk.inj hopen).1
  subst hr
  obtain ⟨fd, hfd, hlow, hhigh, rfl⟩ := FileTable.openFile_zero htable hid
  obtain ⟨-, rfl⟩ := Prod.mk.inj hopen
  have hsize : (s.host.data inode).length ≤ offsetLimit := by
    by_contra hlong
    rw [if_neg hlong] at hanswer
    subst hanswer
    exact Option.some_ne_none _ hfd.symm
  exact ⟨hsize, { file := fd, type := 0, currentOffset := 0, filename := name ++ o'.tail },
    ⟨inode, 0⟩, ⟨hlow, hhigh, Function.update_self .., Function.update_self ..⟩, rfl, rfl, rfl⟩

end Refinement

/-- **A descriptor is a byte sequence with a cursor.** Any sequence of calls
on a descriptor opened with type 0, others not writing the file, is answered
as by the abstract file; after every call the file has its bytes, and
`currentOffset` and the offset of the host are its cursor. -/
theorem file_refines (s s' : Files) (name : String) (o : Opening) (inode : Nat) (id : Int)
    (hopen : s.openFile name 0 o inode = (id, s')) (hid : 0 ≤ id) (events : List FileEvent)
    (hquiet : ∀ e ∈ events, e.Quiet id) :
    ∃ hsize : (s.host.data inode).length ≤ offsetLimit,
      Run.transcript (Files.step id) s' events
        = Run.transcript ByteFile.step (ByteFile.opened (s.host.data inode) hsize) events := by
  obtain ⟨hsize, hr⟩ := represents_openFile hopen hid
  exact ⟨hsize, hr.transcript_eq hquiet⟩

/-- An empty table, over a host whose files all have these bytes. -/
def freshFiles (bytes : List UInt8) : Files where
  fileTable := fun _ => none
  host := { data := fun _ => bytes, desc := fun _ => none }
  console := ⟨[], []⟩

/-- Its first `Open`. -/
def firstOpen (bytes : List UInt8) : Int × Files :=
  (freshFiles bytes).openFile "notes" 0 ⟨some 3, ""⟩ 5

theorem firstOpen_fst {bytes : List UInt8} (hsize : bytes.length ≤ offsetLimit) :
    (firstOpen bytes).1 = 2 := by
  have hlength : ((freshFiles bytes).host.data 5).length ≤ offsetLimit := hsize
  simp only [firstOpen, Files.openFile, if_pos hlength]
  rfl

/-- `n` bytes of value `b`, in a buffer of just this size. -/
def bytesOf (n : Nat) (b : UInt8) : Request := ⟨List.replicate n b, n, by simp⟩

/-- Over a file of two bytes: a write behind the first, a seek too far, the
end, and reading from the second byte on, once more than there is. -/
def sampleEvents : List FileEvent :=
  [.read (bytesOf 1 0), .write (bytesOf 2 9), .seek 4, .seek (-1), .seek 1, .other id,
    .read (bytesOf 4 0), .read (bytesOf 4 0)]

theorem file_refines_sample :
    (firstOpen [7, 8]).1 = 2
      ∧ Run.transcript (Files.step 2) (firstOpen [7, 8]).2 sampleEvents
        = ([(some ⟨1, some [7]⟩, some ⟨[7, 8], 1, 1⟩), (some ⟨2, none⟩, some ⟨[7, 9, 9], 3, 3⟩),
            (some ⟨-1, none⟩, some ⟨[7, 9, 9], 3, 3⟩), (some ⟨3, none⟩, some ⟨[7, 9, 9], 3, 3⟩),
            (some ⟨1, none⟩, some ⟨[7, 9, 9], 1, 1⟩), (none, some ⟨[7, 9, 9], 1, 1⟩),
            (some ⟨2, some [9, 9, 0, 0]⟩, some ⟨[7, 9, 9], 3, 3⟩),
            (some ⟨-2, some [0, 0, 0, 0]⟩, some ⟨[7, 9, 9], 3, 3⟩)], none) := by
  have hopen : (firstOpen [7, 8]).1 = 2 := firstOpen_fst (by decide)
  obtain ⟨_, htranscript⟩ := file_refines (freshFiles [7, 8]) (firstOpen [7, 8]).2 "notes"
    ⟨some 3, ""⟩ 5 2 (Prod.ext hopen rfl) (by decide) sampleEvents
    (by simp [sampleEvents, FileEvent.Quiet, untouched_refl])
  refine ⟨hopen, htranscript.trans ?_⟩
  show Run.transcript ByteFile.step (ByteFile.opened [7, 8] (by decide)) sampleEvents = _
  decide

/-- A byte more for a file that ends at the largest offset. -/
theorem ByteFile.transcript_full {bytes : List UInt8} (hsize : bytes.length ≤ offsetLimit)
    (hfull : bytes.length = offsetLimit) :
    (Run.transcript ByteFile.step (ByteFile.opened bytes hsize)
      [.seek (-1), .write (bytesOf 1 9)]).2 = some .abort := by
  have hwrite : ((ByteFile.opened bytes hsize).seek (-1)).2.write (bytesOf 1 9)
      = .error .abort := by
    rw [ByteFile.write, if_neg (by decide), dif_neg]
    rw [Request.length_data, ByteFile.seek, if_pos rfl]
    show ¬bytes.length + 1 ≤ offsetLimit
    omega
  simp only [Run.transcript, ByteFile.step, hwrite, Except.map]

/-- There the kernel stops, in the assertion of `WriteFile`. -/
theorem write_aborts_of_full {bytes : List UInt8} (hfull : bytes.length = offsetLimit) :
    (firstOpen bytes).1 = 2
      ∧ (Run.transcript (Files.step 2) (firstOpen bytes).2 [.seek (-1), .write (bytesOf 1 9)]).2
        = some .abort := by
  have hopen := firstOpen_fst (Nat.le_of_eq hfull)
  have hfirst : firstOpen bytes = (2, (firstOpen bytes).2) := Prod.ext hopen rfl
  obtain ⟨hsize, hr⟩ := represents_openFile hfirst (by decide)
  refine ⟨hopen, ?_⟩
  rw [hr.transcript_eq (by simp [FileEvent.Quiet])]
  exact ByteFile.transcript_full hsize hfull

theorem file_write_aborts :
    (firstOpen (List.replicate offsetLimit 0)).1 = 2
      ∧ (Run.transcript (Files.step 2) (firstOpen (List.replicate offsetLimit 0)).2
          [.seek (-1), .write (bytesOf 1 9)]).2 = some .abort :=
  write_aborts_of_full List.length_replicate

end Nachos
