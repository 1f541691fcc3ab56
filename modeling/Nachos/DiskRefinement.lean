import Nachos.DiskContents

/-!
# The file system refines the store

Every history of legal calls on a disk that was formatted gets the answers of
a `FileStore` with the capacity of the disk (`disk_refines`): no assertion of
the code fails, files have the bytes that were written to them and no others,
`Create` fails exactly when there is no room, and all of it is still there
when Nachos is started again on the same disk.

`Represents` is the relation between the two. A handle of the store is an
object whose file has not been removed, with `seekPosition` as its cursor; an
object keeps its own copy of the header, which stays right as long as the
file exists (`Fresh`).
-/

namespace Nachos

namespace DiskFS

open CInt ByteMemory FileStore Run

/-- The handle that an object is, unless its file is gone. -/
def OpenObject.handle (o : OpenObject) : Option (Handle (List UInt8)) :=
  if o.stale then none else some ⟨key o.name, o.seekPosition.toNat⟩

/-- A call as the store sees it. -/
def DiskCall.spec : DiskCall → FileStore.Call (List UInt8) UInt8
  | .create name initialSize _ => .create (key name) initialSize.toNat
  | .open name _ => .open (key name)
  | .remove name _ => .remove (key name)
  | .readAt file numBytes position => .readAt file numBytes.toNat position.toNat
  | .writeAt file _ data numBytes position =>
      .writeAt file (ByteMemory.read data 0 numBytes.toNat) position.toNat
  | .read file numBytes => .read file numBytes.toNat
  | .write file _ data numBytes => .write file (ByteMemory.read data 0 numBytes.toNat)
  | .seek file position => .seek file position.toNat
  | .length file => .length file
  | .close file => .close file
  | .list _ => .list
  | .remount _ => .restart

structure Represents (m : Mounted) (A : FileStore.System (List UInt8) UInt8) : Prop where
  stores : Stores m.fs A.store
  handles : A.handles = m.objects.map fun o => o.bind OpenObject.handle
  fresh : ∀ o, some o ∈ m.objects → o.stale = false → Fresh m.fs o.toOpened
  cursor : ∀ o, some o ∈ m.objects → 0 ≤ o.seekPosition ∧ o.seekPosition ≤ intMax

section Objects

variable {m : Mounted} {A : FileStore.System (List UInt8) UInt8} {file : Nat} {o : OpenObject}

theorem object_eq_some : m.object file = some o ↔ m.objects[file]? = some (some o) := by
  rw [Mounted.object]
  cases m.objects[file]? with
  | none => simp
  | some o' => simp

/-- An object that may be used is a handle of a file of the store. -/
theorem Represents.usable (h : Represents m A) (ho : m.object file = some o)
    (hlive : o.stale = false) :
    A.handles[file]? = some (some ⟨key o.name, o.seekPosition.toNat⟩)
      ∧ ∃ i a, m.fs.entry i = some (a, key o.name) ∧ SameHeader o.hdr (header m.fs.disk a)
          ∧ A.store.lookup (key o.name) = some (fileBytes m.fs.disk a)
          ∧ Sound (header m.fs.disk a)
          ∧ (fileBytes m.fs.disk a).length = o.hdr.numBytes.toNat := by
  have hget := object_eq_some.mp ho
  refine ⟨?_, ?_⟩
  · rw [h.handles, List.getElem?_map, hget, Option.map_some, Option.bind_some, OpenObject.handle,
      hlive]
    rfl
  · obtain ⟨i, a, he, hsame⟩ := h.fresh o (List.mem_of_getElem? hget) hlive
    refine ⟨i, a, he, hsame, (h.stores.files _ _).mpr ⟨i, a, he, rfl⟩,
      h.stores.consistent.fileSound i a _ he, ?_⟩
    rw [length_fileBytes, hsame.numBytes]

theorem map_set_handle (objects : List (Option OpenObject)) (file : Nat) (o : Option OpenObject) :
    (objects.set file o).map (fun o => o.bind OpenObject.handle)
      = (objects.map fun o => o.bind OpenObject.handle).set file (o.bind OpenObject.handle) :=
  List.map_set

/-- The cursor of an object moves. -/
theorem Represents.moved (h : Represents m A) (ho : m.object file = some o)
    (hlive : o.stale = false) {position : Int} (hp : 0 ≤ position ∧ position ≤ intMax) :
    Represents (m.setObject file { o with seekPosition := position })
      { A with handles := A.handles.set file (some ⟨key o.name, position.toNat⟩) } := by
  have hget := object_eq_some.mp ho
  have hmem : ∀ o', some o' ∈ m.objects.set file (some { o with seekPosition := position }) →
      some o' ∈ m.objects ∨ o' = { o with seekPosition := position } := fun o' ho' =>
    (List.mem_or_eq_of_mem_set ho').imp_right Option.some.inj
  refine ⟨h.stores, ?_, fun o' ho' hlive' => ?_, fun o' ho' => ?_⟩
  · rw [Mounted.setObject, map_set_handle, ← h.handles, Option.bind_some, OpenObject.handle]
    simp only [hlive, Bool.false_eq_true, if_false]
  · rcases hmem o' ho' with ho' | rfl
    · exact h.fresh o' ho' hlive'
    · exact h.fresh o (List.mem_of_getElem? hget) hlive
  · rcases hmem o' ho' with ho' | rfl
    · exact h.cursor o' ho'
    · exact hp

/-- The files change and the objects do not. -/
theorem Represents.withStore (h : Represents m A) {s' : State} {S : DiskStore}
    (hs : Stores s' S)
    (hfresh : ∀ o, some o ∈ m.objects → o.stale = false → Fresh m.fs o.toOpened →
      Fresh s' o.toOpened) :
    Represents { m with fs := s' } { A with store := S } :=
  ⟨hs, h.handles, fun o ho hlive => hfresh o ho hlive (h.fresh o ho hlive), h.cursor⟩

end Objects

/-! ## One call -/

section Steps

variable {m : Mounted} {A : FileStore.System (List UInt8) UInt8}

/-- What a legal call comes to. -/
abbrev Matched (m : Mounted) (A : FileStore.System (List UInt8) UInt8) (c : DiskCall) : Prop :=
  ∃ r m' A', m.step c = some (r, m') ∧ Step limits A c.spec r A' ∧ Represents m' A'

theorem matched_create (h : Represents m A) (name : List UInt8) (initialSize : Int) (heap : Heap)
    (hl : m.Legal (.create name initialSize heap)) :
    Matched m A (.create name initialSize heap) := by
  rcases create_stores h.stores name heap hl.1 hl.2 with ⟨heq, hno⟩ | ⟨s', i, a, heq, hyes, hcr⟩
  · exact ⟨.ok false, m, A, by rw [Mounted.step, heq, Option.map_some], .refused hno, h⟩
  · have hlen : (fileBytes s'.disk a).length = initialSize.toNat := by
      rw [length_fileBytes, hcr.numBytes]
    refine ⟨.ok true, { m with fs := s' }, _, by rw [Mounted.step, heq, Option.map_some],
      .created hyes hlen,
      h.withStore (hcr.stores h.stores) fun o _ _ hf => hf.changed hcr.changed fun b hb => ?_⟩
    rw [hcr.free.2] at hb
    cases hb

theorem matched_open (h : Represents m A) (name : List UInt8) (heap : Heap) :
    Matched m A (.open name heap) := by
  rcases openFile_cases h.stores.consistent name heap with
    ⟨heq, habsent⟩ | ⟨hdr, i, a, heq, he, hsame⟩
  · refine ⟨.handle none, m, A, by rw [Mounted.step, heq, Option.map_some], .missing fun hmem => ?_,
      h⟩
    obtain ⟨j, b, hj⟩ := (h.stores.mem_iff _).mp hmem
    exact habsent j b hj
  · have hlen : A.handles.length = m.objects.length := by rw [h.handles, List.length_map]
    have hmem : ∀ o, some o ∈ m.objects ++ [some (⟨⟨hdr, name, false⟩, 0⟩ : OpenObject)] →
        some o ∈ m.objects ∨ o = ⟨⟨hdr, name, false⟩, 0⟩ := fun o ho =>
      (List.mem_append.mp ho).imp_right fun ho => Option.some.inj (List.mem_singleton.mp ho)
    have hstep : Step limits A (.open (key name)) (.handle (some m.objects.length)) _ :=
      hlen ▸ Step.opened ((h.stores.mem_iff _).mpr ⟨i, a, he⟩)
    refine ⟨_, { m with objects := m.objects ++ [some ⟨⟨hdr, name, false⟩, 0⟩] }, _,
      by rw [Mounted.step, heq, Option.map_some], hstep, h.stores, ?_, fun o ho hlive => ?_,
      fun o ho => ?_⟩
    · rw [List.map_append, ← h.handles]
      rfl
    · rcases hmem o ho with ho | rfl
      · exact h.fresh o ho hlive
      · exact ⟨i, a, he, hsame⟩
    · rcases hmem o ho with ho | rfl
      · exact h.cursor o ho
      · exact ⟨le_rfl, show (0 : Int) ≤ intMax by decide⟩

theorem handle_retire (name : List UInt8) (o : OpenObject) :
    OpenObject.handle { o with stale := o.stale || key o.name == key name }
      = o.handle.filter fun f => f.name ≠ key name := by
  simp only [OpenObject.handle]
  cases o.stale with
  | true => rfl
  | false =>
      by_cases hk : key o.name = key name <;> simp [hk, Option.filter_some]

theorem matched_remove (h : Represents m A) (name : List UInt8) (heap : Heap) :
    Matched m A (.remove name heap) := by
  rcases remove_spec h.stores.consistent name heap with ⟨heq, habsent⟩ | ⟨s', i, a, heq, hrm⟩
  · refine ⟨.ok false, m, A, by rw [Mounted.step, heq, Option.map_some]; rfl,
      .absent fun hmem => ?_, h⟩
    obtain ⟨j, b, hj⟩ := (h.stores.mem_iff _).mp hmem
    exact habsent j b hj
  · have hmem : ∀ o', some o' ∈ Mounted.retire name m.objects →
        ∃ o, some o ∈ m.objects ∧ o' = { o with stale := o.stale || key o.name == key name } := by
      intro o' ho'
      obtain ⟨o, ho, heq⟩ := List.mem_map.mp ho'
      obtain ⟨o, rfl, rfl⟩ := Option.map_eq_some_iff.mp heq
      exact ⟨o, ho, rfl⟩
    refine ⟨.ok true, ⟨s', Mounted.retire name m.objects⟩, _,
      by rw [Mounted.step, heq, Option.map_some]; rfl,
      .removed ((h.stores.mem_iff _).mpr ⟨i, a, hrm.present⟩), hrm.stores h.stores, ?_,
      fun o' ho' hlive => ?_, fun o' ho' => ?_⟩
    · rw [dropName, h.handles, Mounted.retire, List.map_map, List.map_map]
      refine List.map_congr_left fun o _ => ?_
      cases o with
      | none => rfl
      | some o => exact (handle_retire name o).symm
    · obtain ⟨o, ho, rfl⟩ := hmem o' ho'
      obtain ⟨hold, hne⟩ := Bool.or_eq_false_iff.mp hlive
      -- an object that is still not stale has another name
      refine Fresh.changed (o := ⟨o.hdr, o.name, _⟩) (h.fresh o ho hold) hrm.changed fun b hb => ?_
      have hkey := (Prod.mk.inj (Option.some.inj (hrm.present.symm.trans hb))).2
      exact absurd hkey.symm (beq_eq_false_iff_ne.mp hne)
    · obtain ⟨o, ho, rfl⟩ := hmem o' ho'
      exact h.cursor o ho

/-- A write leaves every object its file. -/
theorem fresh_of_write {s : State} {d' : Disk}
    (hentry : ∀ j, ({ s with disk := d' } : State).entry j = s.entry j)
    (hheader : ∀ j b k, s.entry j = some (b, k) → SameHeader (header d' b) (header s.disk b))
    {o : Opened} (hf : Fresh s o) : Fresh { s with disk := d' } o := by
  obtain ⟨j, b, hj, hsame⟩ := hf
  exact ⟨j, b, (hentry j).trans hj, hsame.trans (hheader j b _ hj).symm⟩

theorem matched_readAt (h : Represents m A) {file : Nat} {numBytes position : Int}
    (hl : m.Legal (.readAt file numBytes position)) :
    Matched m A (.readAt file numBytes position) := by
  obtain ⟨o, ho, hlive, hp, hint⟩ := hl
  obtain ⟨hhandle, i, a, -, hsame, hlookup, hsound, -⟩ := h.usable ho hlive
  exact ⟨_, m, A, by rw [Mounted.step, ho, Option.bind_some, readAt_fileBytes hsound hsame hp hint,
    Option.map_some], .readAt hhandle hlookup, h⟩

/-- Where a cursor comes to. -/
theorem cursor_moves {length : Nat} (count : Nat) {position : Int} (hlen : length ≤ 3840)
    (hp : 0 ≤ position ∧ position ≤ intMax) :
    wrap32 (position + (within length count position.toNat : Nat))
        = (position.toNat + within length count position.toNat : Nat)
      ∧ ((position.toNat + within length count position.toNat : Nat) : Int) ≤ intMax := by
  simp only [intMax, within] at hp ⊢
  rw [wrap32_of_bounds (by omega) (by omega)]
  omega

/-- The object behind a legal `Read` or `Write`, and where its cursor goes. -/
theorem Represents.cursor_moved (h : Represents m A) {file : Nat} {o : OpenObject} (count : Nat)
    (ho : m.object file = some o) (hlive : o.stale = false) (hs : Sound o.hdr) :
    Represents (m.setObject file { o with seekPosition := wrap32 (o.seekPosition
        + (within o.hdr.numBytes.toNat count o.seekPosition.toNat : Nat)) })
      { A with handles := A.handles.set file (some ⟨key o.name,
          o.seekPosition.toNat + within o.hdr.numBytes.toNat count o.seekPosition.toNat⟩) } := by
  have hcur := h.cursor o (List.mem_of_getElem? (object_eq_some.mp ho))
  have hlen : o.hdr.numBytes.toNat ≤ 3840 := Int.toNat_le.mpr hs.length_le
  obtain ⟨hnext, hmax⟩ := cursor_moves count hlen hcur
  rw [hnext]
  have hmoved := h.moved ho hlive ⟨Int.natCast_nonneg _, hmax⟩
  rw [Int.toNat_natCast] at hmoved
  exact hmoved

theorem matched_read (h : Represents m A) {file : Nat} {numBytes : Int}
    (hl : m.Legal (.read file numBytes)) : Matched m A (.read file numBytes) := by
  obtain ⟨o, ho, hlive, hp, hint⟩ := hl
  obtain ⟨hhandle, i, a, -, hsame, hlookup, hsound, hlen⟩ := h.usable ho hlive
  have hmoved := h.cursor_moved numBytes.toNat ho hlive (hsame.sound hsound)
  have hcount : (((fileBytes m.fs.disk a).drop o.seekPosition.toNat).take numBytes.toNat).length
      = within o.hdr.numBytes.toNat numBytes.toNat o.seekPosition.toNat := by
    rw [List.length_take, List.length_drop, hlen, within]
  refine ⟨_, _, _, by rw [Mounted.step, ho, Option.bind_some,
    readAt_fileBytes hsound hsame hp hint, Option.map_some], .read hhandle hlookup, ?_⟩
  rw [hcount, hlen]
  exact hmoved

/-- What a write does to the disk, and that the objects stay right. -/
theorem Represents.written (h : Represents m A) {file : Nat} {o : OpenObject}
    (ho : m.object file = some o) (hlive : o.stale = false) (junk data : Memory)
    {numBytes position : Int} (hp : 0 ≤ position) (hint : IsInt (position + numBytes)) :
    ∃ old d', A.handles[file]? = some (some ⟨key o.name, o.seekPosition.toNat⟩)
      ∧ A.store.lookup (key o.name) = some old ∧ old.length = o.hdr.numBytes.toNat
      ∧ Sound o.hdr
      ∧ writeAt m.fs.disk o.hdr junk data numBytes position
        = some (((within o.hdr.numBytes.toNat numBytes.toNat position.toNat : Nat) : Int), d')
      ∧ Represents { m with fs := { m.fs with disk := d' } }
          ⟨A.store.insert (key o.name)
            (overlay old (ByteMemory.read data 0 numBytes.toNat) position.toNat), A.handles⟩ := by
  obtain ⟨hhandle, i, a, he, hsame, hlookup, hsound, hlen⟩ := h.usable ho hlive
  obtain ⟨d', hw, hstores, hentry, hheader⟩ := writeAt_stores h.stores he hsame junk data hp hint
  rw [transferred_eq _ hp] at hw
  exact ⟨_, d', hhandle, hlookup, hlen, hsame.sound hsound, hw,
    h.withStore hstores fun o' _ _ hf => fresh_of_write hentry hheader hf⟩

theorem matched_writeAt (h : Represents m A) {file : Nat} {junk data : Memory}
    {numBytes position : Int} (hl : m.Legal (.writeAt file junk data numBytes position)) :
    Matched m A (.writeAt file junk data numBytes position) := by
  obtain ⟨o, ho, hlive, hp, hint⟩ := hl
  obtain ⟨old, d', hhandle, hlookup, hlen, -, hw, hrep⟩ := h.written ho hlive junk data hp hint
  refine ⟨_, _, _, by rw [Mounted.step, ho, Option.bind_some, hw, Option.map_some], ?_, hrep⟩
  have hstep : Step limits A
      (.writeAt file (ByteMemory.read data 0 numBytes.toNat) position.toNat) _ _ :=
    .writeAt hhandle hlookup
  rw [length_read, hlen] at hstep
  rw [Mounted.answer, Int.toNat_natCast]
  exact hstep

theorem matched_write (h : Represents m A) {file : Nat} (junk data : Memory) {numBytes : Int}
    (hl : m.Legal (.write file junk data numBytes)) :
    Matched m A (.write file junk data numBytes) := by
  obtain ⟨o, ho, hlive, hp, hint⟩ := hl
  obtain ⟨old, d', hhandle, hlookup, hlen, hsound, hw, hrep⟩ := h.written ho hlive junk data hp hint
  refine ⟨_, _, _, by rw [Mounted.step, ho, Option.bind_some, hw, Option.map_some], ?_,
    hrep.cursor_moved _ ho hlive hsound⟩
  have hstep : Step limits A (.write file (ByteMemory.read data 0 numBytes.toNat)) _ _ :=
    .write hhandle hlookup
  rw [length_read, hlen] at hstep
  rw [Mounted.answer, Int.toNat_natCast]
  exact hstep

theorem matched_seek (h : Represents m A) {file : Nat} {position : Int}
    (hl : m.Legal (.seek file position)) : Matched m A (.seek file position) := by
  obtain ⟨o, ho, hlive, hp, hint⟩ := hl
  obtain ⟨hhandle, -⟩ := h.usable ho hlive
  have hmax : position ≤ intMax := by simpa using hint.2
  exact ⟨_, _, _, by rw [Mounted.step, ho, Option.map_some], .seek hhandle,
    h.moved ho hlive ⟨hp, hmax⟩⟩

theorem matched_length (h : Represents m A) {file : Nat} (hl : m.Legal (.length file)) :
    Matched m A (.length file) := by
  obtain ⟨o, ho, hlive, -, -⟩ := hl
  obtain ⟨hhandle, i, a, -, -, hlookup, -, hlen⟩ := h.usable ho hlive
  refine ⟨_, m, A, by rw [Mounted.step, ho, Option.map_some], ?_, h⟩
  rw [Mounted.answer, ← hlen]
  exact .length hhandle hlookup

theorem matched_close (h : Represents m A) {file : Nat} (hl : m.Legal (.close file)) :
    Matched m A (.close file) := by
  obtain ⟨o, ho⟩ := Option.isSome_iff_exists.mp hl
  have hmem : ∀ o', some o' ∈ m.objects.set file none → some o' ∈ m.objects := fun o' ho' =>
    (List.mem_or_eq_of_mem_set ho').resolve_right fun hnone => Option.some_ne_none _ hnone
  refine ⟨_, { m with objects := m.objects.set file none }, _,
    by rw [Mounted.step, ho, Option.map_some], .close, h.stores, ?_,
    fun o' ho' => h.fresh o' (hmem o' ho'), fun o' ho' => h.cursor o' (hmem o' ho')⟩
  rw [map_set_handle, ← h.handles]
  rfl

theorem matched_list (h : Represents m A) (heap : Heap) (hl : m.Legal (.list heap)) :
    Matched m A (.list heap) := by
  obtain ⟨names, heq, hnodup, hmem⟩ := list_stores h.stores heap hl
  exact ⟨_, m, A, by rw [Mounted.step, heq, Option.map_some], .list hnodup hmem, h⟩

theorem matched_remount (h : Represents m A) (heap : Heap) : Matched m A (.remount heap) := by
  obtain ⟨s', heq, hs'⟩ := mount_stores h.stores heap
  exact ⟨_, _, _, by rw [Mounted.step, heq, Option.map_some], .restart, hs', rfl,
    fun o ho => absurd ho List.not_mem_nil, fun o ho => absurd ho List.not_mem_nil⟩

/-- Every legal call is answered as the store allows. -/
theorem matched (h : Represents m A) (c : DiskCall) (hl : m.Legal c) : Matched m A c := by
  cases c with
  | create name initialSize heap => exact matched_create h name initialSize heap hl
  | «open» name heap => exact matched_open h name heap
  | remove name heap => exact matched_remove h name heap
  | readAt file numBytes position => exact matched_readAt h hl
  | writeAt file junk data numBytes position => exact matched_writeAt h hl
  | read file numBytes => exact matched_read h hl
  | write file junk data numBytes => exact matched_write h junk data hl
  | seek file position => exact matched_seek h hl
  | length file => exact matched_length h hl
  | close file => exact matched_close h hl
  | list heap => exact matched_list h heap hl
  | remount heap => exact matched_remount h heap

end Steps

/-! ## Histories -/

/-- **The file system refines the store.** On a disk that was formatted, every
history of legal calls is answered to the end, and the answers are those of a
store of named files with the capacity of the disk, empty at the start. -/
theorem disk_refines {d : Disk} {heap : Heap} {s₀ : State} (h₀ : format d heap = some s₀)
    {calls : List DiskCall} (hl : Lawful Mounted.step Mounted.Legal ⟨s₀, []⟩ calls) :
    ∃ answers m A, session Mounted.step ⟨s₀, []⟩ calls = some (answers, m)
      ∧ Explains (Step limits) ⟨∅, []⟩ (calls.map DiskCall.spec) answers A
      ∧ Represents m A := by
  obtain ⟨s, hf, hs⟩ := format_stores d heap
  obtain rfl := Option.some.inj (h₀.symm.trans hf)
  refine session_explained (R := Represents) (fun m A c h hok => matched h c hok) calls ?_ hl
  exact ⟨hs, rfl, fun o ho => absurd ho List.not_mem_nil, fun o ho => absurd ho List.not_mem_nil⟩

/-- A file is created, written and read, and after a new start it is listed
and read again. -/
def restartHistory : List DiskCall :=
  [.create [97] 3 zeros, .open [97] zeros,
    .write 0 (zeros 0) (fun i => UInt8.ofNat (i + 1).toNat) 5,
    .seek 0 1, .read 0 9, .remount zeros, .list zeros, .open [97] zeros, .readAt 0 2 0]

theorem disk_refines_restart :
    ∃ s₀ answers m A, format (zeros 0) zeros = some s₀
      ∧ Lawful Mounted.step Mounted.Legal ⟨s₀, []⟩ restartHistory
      ∧ session Mounted.step ⟨s₀, []⟩ restartHistory = some (answers, m)
      ∧ Explains (Step limits) ⟨∅, []⟩ (restartHistory.map DiskCall.spec) answers A
      ∧ Represents m A := by
  have hrun : ((format (zeros 0) zeros).map fun s₀ =>
      decide (Lawful Mounted.step Mounted.Legal ⟨s₀, []⟩ restartHistory)) = some true := by
    decide +kernel
  obtain ⟨s₀, h₀, hl⟩ := Option.map_eq_some_iff.mp hrun
  have hl := of_decide_eq_true hl
  obtain ⟨answers, m, A, hs, hexp, hrep⟩ := disk_refines h₀ hl
  exact ⟨s₀, answers, m, A, h₀, hl, hs, hexp, hrep⟩

end DiskFS

end Nachos
