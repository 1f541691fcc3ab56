import Nachos.DiskConsistent

/-!
# Isolation of the files on the disk

`OpenFile` objects next to `Create` and `Remove`. An object keeps its own
copy of the header of its file for as long as it is open, and nothing tells
it when the file is removed; `WriteAt` goes by that copy.

`System` is the file system with the objects that were opened, each with the
name it was opened by. `stale` records what the code does not: that a
`Remove` of that name has succeeded since. An object that is not stale still
has the header of the file (`Fresh`), so its `WriteAt` stays within the data
sectors of this file and the rest of the disk keeps its bytes
(`writeAt_isolated`). Through a stale object `WriteAt` goes to sectors that
may belong to another file by now (`writeAt_after_remove`). The position has
to be one of the file as well: below it `ByteToSector` takes the length or
the number of sectors in the header for the number of a sector.
-/

namespace Nachos

namespace DiskFS

open CInt ByteMemory Ownership Run

/-! ## Objects and calls -/

/-- An `OpenFile`: the header it read, the name it was opened by, and whether
a file of this name has been removed since. -/
structure Opened where
  hdr : FileHeader
  name : List UInt8
  stale : Bool

structure System where
  fs : State
  files : List Opened

inductive FileCall where
  | create (name : List UInt8) (initialSize : Int) (heap : Heap)
  | open (name : List UInt8) (heap : Heap)
  | remove (name : List UInt8) (heap : Heap)
  | writeAt (file : Nat) (junk «from» : Memory) (numBytes position : Int)

namespace System

/-- The objects after a `Remove` that returned true. -/
def retire (name : List UInt8) (files : List Opened) : List Opened :=
  files.map fun o => { o with stale := o.stale || key o.name == key name }

def call (s : System) : FileCall → Option System
  | .create name initialSize heap =>
      (create s.fs name initialSize heap).map fun r => { s with fs := r.2 }
  | .open name heap =>
      (openFile s.fs name heap).map fun
        | some hdr => { s with files := s.files ++ [⟨hdr, name, false⟩] }
        | none => s
  | .remove name heap =>
      (remove s.fs name heap).map fun r =>
        ⟨r.2, if r.1 then retire name s.files else s.files⟩
  | .writeAt file junk data numBytes position =>
      match s.files[file]? with
      | some o =>
          (writeAt s.fs.disk o.hdr junk data numBytes position).map fun r =>
            { s with fs := { s.fs with disk := r.2 } }
      | none => none

/-- The arguments are those of the C types, and sizes are at most
`MaxFileSize`. -/
def ArgsOK (_ : System) : FileCall → Prop
  | .create _ initialSize _ => 0 ≤ initialSize ∧ initialSize ≤ 3840
  | .open _ _ => True
  | .remove _ _ => True
  | .writeAt _ _ _ numBytes position => IsInt numBytes ∧ IsInt position

/-- No `WriteAt` through an object whose file has been removed, at a negative
position or with an end beyond the `int`s. -/
def Guarded (s : System) (c : FileCall) : Prop :=
  s.ArgsOK c ∧ match c with
    | .writeAt file _ _ numBytes position =>
        0 ≤ position ∧ IsInt (position + numBytes) ∧ ∀ o ∈ s.files[file]?, o.stale = false
    | _ => True

end System

instance (s : System) : (c : FileCall) → Decidable (s.ArgsOK c)
  | .create _ _ _ => inferInstanceAs (Decidable (_ ∧ _))
  | .open _ _ => inferInstanceAs (Decidable True)
  | .remove _ _ => inferInstanceAs (Decidable True)
  | .writeAt _ _ _ _ _ => inferInstanceAs (Decidable (_ ∧ _))

instance (s : System) : (c : FileCall) → Decidable (s.Guarded c)
  | .create _ _ _ => inferInstanceAs (Decidable (_ ∧ True))
  | .open _ _ => inferInstanceAs (Decidable (_ ∧ True))
  | .remove _ _ => inferInstanceAs (Decidable (_ ∧ True))
  | .writeAt _ _ _ _ _ => inferInstanceAs (Decidable (_ ∧ _ ∧ _ ∧ ∀ o ∈ _, _))

/-! ## What a write must not touch -/

/-- The sectors that a write to the file `name` leaves alone: the headers and
the data of the bitmap and of the directory, and the header and the data of
every other file. -/
def othersSectors (d : Disk) (name : List UInt8) : List Int :=
  [0, 1] ++ (header d 0).sectors ++ (header d 1).sectors
    ++ (List.range 10).flatMap fun i =>
      if (directoryOf d).inUse i && !strncmpEq 9 ((directoryOf d).name i) name then
        (directoryOf d).sector i :: (header d ((directoryOf d).sector i)).sectors
      else []

/-- No byte of these sectors differs. -/
def Isolated (d d' : Disk) (name : List UInt8) : Prop :=
  ∀ x, x / 128 ∈ othersSectors d name → d' x = d x

theorem Consistent.mem_othersSectors {s : State} (hc : Consistent s) {name : List UInt8} {a : Int}
    (ha : a ∈ othersSectors s.disk name) :
    a ∈ s.held none ∨ ∃ i b k, s.entry i = some (b, k) ∧ k ≠ key name ∧ a ∈ s.held (some i) := by
  rw [othersSectors, hc.mapHeader.sectors hc.mapSound, hc.directoryHeader.sectors hc.directorySound,
    List.mem_append, List.mem_flatMap] at ha
  rcases ha with ha | ⟨i, hi, ha⟩
  · rw [List.append_assoc, List.mem_append, List.mem_cons, List.mem_singleton] at ha
    rw [State.held, List.mem_cons, List.mem_cons]
    exact Or.inl (or_assoc.mp ha)
  · split at ha
    next hother =>
        rw [Bool.and_eq_true, Bool.not_eq_true', ← Bool.not_eq_true, strncmpEq_iff] at hother
        have he := hc.entry_directoryOf i
        rw [Directory.entry, if_pos ⟨List.mem_range.mp hi, hother.1⟩] at he
        refine Or.inr ⟨i, _, _, he.symm, hother.2, ?_⟩
        rw [State.held, ← he, State.fileSectors]
        exact ha
    next => exact absurd ha List.not_mem_nil

/-! ## Objects whose file is there -/

/-- The object has the header of a file in the directory under its name. -/
def Fresh (s : State) (o : Opened) : Prop :=
  ∃ i a, s.entry i = some (a, key o.name) ∧ SameHeader o.hdr (header s.disk a)

/-- The invariant of guarded runs. -/
structure System.OK (s : System) : Prop where
  consistent : Consistent s.fs
  fresh : ∀ o ∈ s.files, o.stale = false → Fresh s.fs o

section Steps

variable {s : State} {o : Opened}

/-- A change of another entry leaves the object its file. -/
theorem Fresh.changed {s' : State} {i : Nat} {e : Option (Int × List UInt8)} (hf : Fresh s o)
    (hch : Changed s s' i e) (hi : ∀ a, s.entry i ≠ some (a, key o.name)) : Fresh s' o := by
  obtain ⟨j, a, he, hsame⟩ := hf
  have hji : j ≠ i := fun h => hi a (h ▸ he)
  exact ⟨j, a, by rw [hch.entry, if_neg hji, he], hsame.trans (hch.header j a _ hji he).symm⟩

/-- **`Open`** reads the header of the file, or there is no such file. -/
theorem openFile_cases (hc : Consistent s) (name : List UInt8) (heap : Heap) :
    (openFile s name heap = some none ∧ ∀ i a, s.entry i ≠ some (a, key name))
      ∨ ∃ h i a, openFile s name heap = some (some h) ∧ s.entry i = some (a, key name)
          ∧ SameHeader h (header s.disk a) := by
  obtain ⟨t, ht, hentry⟩ := directory_fetchFrom_eq (d := s.disk) hc.directorySound
    hc.directoryLength (Directory.new (heap 0))
  rw [openFile, ht, Option.bind_some]
  rcases hc.find hentry name with ⟨-, hfind, habsent⟩ | ⟨i, -, he, hrange⟩
  · left
    exact ⟨if_neg (by rw [hfind]; decide), habsent⟩
  · right
    obtain ⟨h, hfetch, hsame⟩ := fetchFrom_eq (d := s.disk) (h := heap 1) hrange
    exact ⟨h, i, _, by rw [if_pos hrange.1, hfetch, Option.map_some], he, hsame⟩

/-- The data sectors of a file belong to no other holder, and its header is
none of them. -/
theorem Fresh.sectors (hc : Consistent s) {i : Nat} {a : Int} {k : List UInt8}
    (he : s.entry i = some (a, k)) (hsame : SameHeader o.hdr (header s.disk a)) :
    Sound o.hdr ∧ s.held (some i) = a :: o.hdr.sectors ∧ a ∉ o.hdr.sectors := by
  have hsound := hc.fileSound i a k he
  have hheld : s.held (some i) = a :: o.hdr.sectors := by
    rw [State.held, he, State.fileSectors, hsame.sectors hsound]
  have hnodup := hc.tracks.nodup (some i)
  rw [hheld] at hnodup
  exact ⟨hsame.sound hsound, hheld, (List.nodup_cons.mp hnodup).1⟩

/-- A disk that differs in the data of one file only. -/
theorem Consistent.data_changed (hc : Consistent s) {i : Nat} {a : Int} {k : List UInt8} {d' : Disk}
    (he : s.entry i = some (a, k)) (hsame : SameHeader o.hdr (header s.disk a))
    (hframe : ∀ x, x / 128 ∉ o.hdr.sectors → d' x = s.disk x) :
    Consistent { s with disk := d' }
      ∧ (∀ j, ({ s with disk := d' } : State).entry j = s.entry j)
      ∧ ∀ j b k, s.entry j = some (b, k) → SameHeader (header d' b) (header s.disk b) := by
  obtain ⟨-, hheld, hown⟩ := Fresh.sectors hc he hsame
  -- the sectors of the other holders are kept, and so is the header of the file
  have hkept : ∀ p x, p ≠ some i → x / 128 ∈ s.held p → d' x = s.disk x := fun p x hp hx =>
    hframe x fun hm => hc.tracks.disjoint p (some i) hp _ hx (hheld ▸ List.mem_cons_of_mem _ hm)
  have hheader : ∀ j b k, s.entry j = some (b, k) →
      SameHeader (header d' b) (header s.disk b) := by
    intro j b k hj
    refine sameHeader_of_frame fun x hx => ?_
    by_cases hji : j = i
    · subst hji
      obtain ⟨rfl, -⟩ := Prod.mk.inj (Option.some.inj (he.symm.trans hj))
      exact hframe x (hx ▸ hown)
    · exact hkept (some j) x (by simpa using hji) (hx ▸ mem_held_of_entry hj)
  have hentry : ∀ j, ({ s with disk := d' } : State).entry j = s.entry j := fun j =>
    entry_frame hc.directorySound hc.directoryLength
      (fun x hx => hkept none x (by simp) (mem_held_of_directoryFile hx)) j
  have hmap : ({ s with disk := d' } : State).freeMap = s.freeMap :=
    bitmapOf_frame hc.mapSound hc.mapLength fun x hx =>
      hkept none x (by simp) (mem_held_of_mapFile hx)
  have hch : Changed s { s with disk := d' } i (s.entry i) := by
    refine ⟨rfl, rfl, ?_, ?_, fun j => ?_, fun j b k _ hj => hheader j b k hj⟩
    · exact sameHeader_of_frame fun x hx => hkept none x (by simp) (hx ▸ List.mem_cons_self)
    · exact sameHeader_of_frame fun x hx =>
        hkept none x (by simp) (hx ▸ List.mem_cons_of_mem _ List.mem_cons_self)
    · by_cases hji : j = i
      · rw [if_pos hji, hentry, hji]
      · rw [if_neg hji, hentry]
  refine ⟨hc.change hch (fun b k hb => ?_) (fun b k j c hji hb hj => ?_) ?_, hentry, hheader⟩
  · exact (hheader i b k hb).sound (hc.fileSound i b k hb)
  · exact hji (hc.names j i c b k hj hb)
  · have hfile : State.fileSectors d' (s.entry i) = s.held (some i) := by
      rw [State.held, he, State.fileSectors, State.fileSectors,
        (hheader i a k he).sectors (hc.fileSound i a k he)]
    rw [hmap, hfile, Function.update_eq_self]
    exact hc.tracks

/-- A write through an object that has its file leaves the others alone. -/
theorem Fresh.isolated (hc : Consistent s) (hf : Fresh s o) {d' : Disk}
    (hframe : ∀ x, x / 128 ∉ o.hdr.sectors → d' x = s.disk x) :
    Isolated s.disk d' o.name := by
  obtain ⟨i, a, he, hsame⟩ := hf
  obtain ⟨-, hheld, -⟩ := Fresh.sectors hc he hsame
  have hkept : ∀ p x, p ≠ some i → x / 128 ∈ s.held p → d' x = s.disk x := fun p x hp hx =>
    hframe x fun hm => hc.tracks.disjoint p (some i) hp _ hx (hheld ▸ List.mem_cons_of_mem _ hm)
  intro x hx
  rcases hc.mem_othersSectors hx with hx | ⟨j, b, k, hj, hk, hx⟩
  · exact hkept none x (by simp) hx
  · have hji : j ≠ i := by
      rintro rfl
      exact hk (Prod.mk.inj (Option.some.inj (hj.symm.trans he))).2
    exact hkept (some j) x (by simpa using hji) hx

end Steps

/-! ## Runs -/

section Runs

variable {s s' : System}

/-- A `WriteAt` of a guarded run. -/
theorem System.OK.writeAt (hok : s.OK) {file : Nat} {junk data : Memory} {numBytes position : Int}
    (hg : s.Guarded (.writeAt file junk data numBytes position))
    (hs : s.call (.writeAt file junk data numBytes position) = some s') :
    ∃ o ∈ s.files[file]?, Fresh s.fs o ∧ s'.files = s.files
      ∧ ∃ d', s'.fs = { s.fs with disk := d' }
          ∧ ∀ x, x / 128 ∉ o.hdr.sectors → d' x = s.fs.disk x := by
  rw [System.call] at hs
  cases ho : s.files[file]? with
  | none =>
      rw [ho] at hs
      cases hs
  | some o =>
      rw [ho] at hs
      obtain ⟨⟨n, d'⟩, hw, rfl⟩ := Option.map_eq_some_iff.mp hs
      obtain ⟨-, hpos, hint, hstale⟩ := hg
      obtain ⟨i, a, he, hsame⟩ := hok.fresh o (List.mem_of_getElem? ho) (hstale o ho)
      have hsound := (Fresh.sectors hok.consistent he hsame).1
      obtain ⟨d₁, hw₁, -, hframe⟩ := writeAt_eq (d := s.fs.disk) hsound junk data hpos hint
      obtain ⟨-, rfl⟩ := Prod.mk.inj (Option.some.inj (hw.symm.trans hw₁))
      exact ⟨o, rfl, ⟨i, a, he, hsame⟩, rfl, d', rfl, hframe⟩

theorem System.OK.call (hok : s.OK) {c : FileCall} (hg : s.Guarded c) (hs : s.call c = some s') :
    s'.OK := by
  cases c with
  | create name initialSize heap =>
      rw [System.call] at hs
      obtain ⟨r, hr, rfl⟩ := Option.map_eq_some_iff.mp hs
      rcases create_cases hok.consistent name heap hg.1.1 hg.1.2 with
        heq | ⟨t, i, a, heq, hi, -, hch, hc⟩
      · obtain rfl := Option.some.inj (hr.symm.trans heq)
        exact hok
      · obtain rfl := Option.some.inj (hr.symm.trans heq)
        refine ⟨hc, fun o ho hstale => (hok.fresh o ho hstale).changed hch fun b hb => ?_⟩
        exact absurd (hb.symm.trans hi) (Option.some_ne_none _)
  | «open» name heap =>
      rw [System.call] at hs
      obtain ⟨r, hr, rfl⟩ := Option.map_eq_some_iff.mp hs
      rcases openFile_cases hok.consistent name heap with ⟨heq, -⟩ | ⟨h, i, a, heq, he, hsame⟩
      · obtain rfl := Option.some.inj (hr.symm.trans heq)
        exact hok
      · obtain rfl := Option.some.inj (hr.symm.trans heq)
        refine ⟨hok.consistent, fun o ho hstale => ?_⟩
        rcases List.mem_append.mp ho with ho | ho
        · exact hok.fresh o ho hstale
        · obtain rfl := List.mem_singleton.mp ho
          exact ⟨i, a, he, hsame⟩
  | remove name heap =>
      rw [System.call] at hs
      obtain ⟨r, hr, rfl⟩ := Option.map_eq_some_iff.mp hs
      rcases remove_cases hok.consistent name heap with ⟨heq, -⟩ | ⟨t, i, a, heq, he, hch, hc⟩
      · obtain rfl := Option.some.inj (hr.symm.trans heq)
        exact hok
      · obtain rfl := Option.some.inj (hr.symm.trans heq)
        refine ⟨hc, fun o' ho' hstale => ?_⟩
        obtain ⟨o, ho, rfl⟩ := List.mem_map.mp ho'
        -- an object that is still not stale has another name
        obtain ⟨hold, hne⟩ := Bool.or_eq_false_iff.mp hstale
        refine Fresh.changed (o := ⟨o.hdr, o.name, _⟩) (hok.fresh o ho hold) hch fun b hb => ?_
        have hkey := (Prod.mk.inj (Option.some.inj (he.symm.trans hb))).2
        exact absurd hkey.symm (beq_eq_false_iff_ne.mp hne)
  | writeAt file junk data numBytes position =>
      obtain ⟨o, -, ⟨i, a, he, hsame⟩, hfiles, d', hfs, hframe⟩ := hok.writeAt hg hs
      obtain ⟨hc, hentry, hheader⟩ := hok.consistent.data_changed he hsame hframe
      refine ⟨hfs ▸ hc, fun o' ho' hstale => ?_⟩
      obtain ⟨j, b, hj, hsame'⟩ := hok.fresh o' (hfiles ▸ ho') hstale
      rw [hfs]
      exact ⟨j, b, (hentry j).trans hj, hsame'.trans (hheader j b _ hj).symm⟩

end Runs

/-! ## A concrete disk -/

/-- Memory that happens to hold zeros. -/
def zeros : Heap := fun _ _ => 0

/-- `WriteAt` of the byte 7 at the start of the first file that was opened. -/
def writeSeven : FileCall := .writeAt 0 (zeros 0) (fun _ => 7) 1 0

/-- The states before and after `writeSeven`, when `calls` come first on a
disk that was formatted. -/
def aroundWrite (ok : System → FileCall → Prop) [∀ s c, Decidable (ok s c)]
    (calls : List FileCall) : Option (System × System) :=
  (format (zeros 0) zeros).bind fun s₀ =>
    (exec System.call ok ⟨s₀, []⟩ calls).bind fun s =>
      if ok s writeSeven then (s.call writeSeven).map fun s' => (s, s') else none

theorem aroundWrite_eq_some {ok : System → FileCall → Prop} [∀ s c, Decidable (ok s c)]
    {calls : List FileCall} {s s' : System} (h : aroundWrite ok calls = some (s, s')) :
    ∃ s₀, format (zeros 0) zeros = some s₀ ∧ Reach System.call ok ⟨s₀, []⟩ s ∧ ok s writeSeven
      ∧ s.call writeSeven = some s' := by
  rw [aroundWrite] at h
  obtain ⟨s₀, h₀, h⟩ := Option.bind_eq_some_iff.mp h
  obtain ⟨s₁, h₁, h⟩ := Option.bind_eq_some_iff.mp h
  split at h
  next hok =>
      obtain ⟨s₂, h₂, h⟩ := Option.map_eq_some_iff.mp h
      obtain ⟨rfl, rfl⟩ := Prod.mk.inj h
      exact ⟨s₀, h₀, Reach.of_exec calls h₁, hok, h₂⟩
  next => cases h

/-- **Files are isolated** as long as no `WriteAt` goes through an object
whose file has been removed or to a position that no file has: from a
formatted disk, every such `WriteAt` changes no byte of the bitmap, of the
directory, of a header or of another file. -/
theorem writeAt_isolated {d : Disk} {heap : Heap} {s₀ : State} {s s' : System} {file : Nat}
    {junk data : Memory} {numBytes position : Int} (h₀ : format d heap = some s₀)
    (hr : Reach System.call System.Guarded ⟨s₀, []⟩ s)
    (hg : s.Guarded (.writeAt file junk data numBytes position))
    (hs : s.call (.writeAt file junk data numBytes position) = some s') :
    ∃ o ∈ s.files[file]?, Isolated s.fs.disk s'.fs.disk o.name := by
  obtain ⟨s₁, hf, hc⟩ := format_consistent d heap
  obtain rfl := Option.some.inj (h₀.symm.trans hf)
  have hok : s.OK := by
    refine Reach.invariant (I := System.OK) ⟨hc, fun o ho => absurd ho List.not_mem_nil⟩ ?_ hr
    exact fun t c t' _ hok hg hs => hok.call hg hs
  obtain ⟨o, ho, hfresh, -, d', hfs, hframe⟩ := hok.writeAt hg hs
  refine ⟨o, ho, ?_⟩
  rw [hfs]
  exact hfresh.isolated hok.consistent hframe

/-- "a" is created, opened and written. -/
theorem writeAt_isolated_after_open :
    ∃ s₀ s s', format (zeros 0) zeros = some s₀
      ∧ Reach System.call System.Guarded ⟨s₀, []⟩ s ∧ s.Guarded writeSeven
      ∧ s.call writeSeven = some s' ∧ ∃ o ∈ s.files[0]?, Isolated s.fs.disk s'.fs.disk o.name := by
  have hrun : (aroundWrite System.Guarded [.create [97] 128 zeros, .open [97] zeros]).isSome := by
    decide +kernel
  obtain ⟨⟨s, s'⟩, hrun⟩ := Option.isSome_iff_exists.mp hrun
  obtain ⟨s₀, h₀, hr, hok, hs⟩ := aroundWrite_eq_some hrun
  exact ⟨s₀, s, s', h₀, hr, hok, hs, writeAt_isolated h₀ hr hok hs⟩

/-- "a" is created, opened and removed, and "b" gets its sectors: the write
through the object that was opened on "a" changes a byte of "b". -/
theorem writeAt_after_remove :
    ∃ s₀ s s', format (zeros 0) zeros = some s₀
      ∧ Reach System.call System.ArgsOK ⟨s₀, []⟩ s ∧ s.ArgsOK writeSeven
      ∧ s.call writeSeven = some s' ∧ ∃ o ∈ s.files[0]?, ¬Isolated s.fs.disk s'.fs.disk o.name := by
  have hrun : (aroundWrite System.ArgsOK [.create [97] 128 zeros, .open [97] zeros,
        .remove [97] zeros, .create [98] 128 zeros]).map (fun r =>
          (r.1.files.map Opened.name, decide (6 ∈ othersSectors r.1.fs.disk [97]),
            r.1.fs.disk (6 * 128), r.2.fs.disk (6 * 128)))
      = some ([[97]], true, 0, 7) := by
    decide +kernel
  obtain ⟨⟨s, s'⟩, hrun, hsee⟩ := Option.map_eq_some_iff.mp hrun
  obtain ⟨s₀, h₀, hr, hok, hs⟩ := aroundWrite_eq_some hrun
  obtain ⟨hfiles, hmem, hbefore, hafter⟩ : s.files.map Opened.name = [[97]]
      ∧ decide (6 ∈ othersSectors s.fs.disk [97]) = true ∧ s.fs.disk (6 * 128) = 0
      ∧ s'.fs.disk (6 * 128) = 7 := by
    simpa only [Prod.mk.injEq] using hsee
  obtain ⟨o, os, hlist, hname, -⟩ := List.map_eq_cons_iff.mp hfiles
  have ho : o ∈ s.files[0]? := by rw [hlist, List.getElem?_cons_zero, Option.mem_some_iff]
  refine ⟨s₀, s, s', h₀, hr, hok, hs, o, ho, fun hiso => ?_⟩
  rw [hname] at hiso
  have hsector : (6 * 128 : Int) / 128 = 6 := by decide
  have hsame := hiso (6 * 128) (by rw [hsector]; exact of_decide_eq_true hmem)
  rw [hbefore, hafter] at hsame
  exact absurd hsame (by decide)

end DiskFS

end Nachos
