import Nachos.DiskFiles

/-!
# The directory

`Directory` of `filesys/directory.cc`: a table of `NumDirEntries` = 10
entries of 20 bytes, each a flag, the sector of a file header and a name of
at most `FileNameMaxLen` = 9 characters.

Like a header, a table is its bytes, which are also the bytes of the
directory file. What `new` leaves in it (`junk`) stays in the sectors and
names of the entries not in use. A file name is the bytes from a pointer on;
the string ends at the first zero or at the end of the list. `strncmp` and
`strncpy` look at 9 characters, and the tenth byte of the name in an entry is
never written.

`entry` is what an entry says when it is in use: the sector, and the
characters of the name that count (`key`). The lemmas say what the
operations do in these terms.
-/

namespace Nachos

namespace DiskFS

open CInt ByteMemory

/-! ## Strings -/

/-- The string in a buffer: the bytes before the first zero. -/
def cstr (bytes : List UInt8) : List UInt8 := bytes.takeWhile (· != 0)

/-- `!strncmp(a, b, n)`. -/
def strncmpEq : Nat → List UInt8 → List UInt8 → Bool
  | 0, _, _ => true
  | n + 1, a, b => a.headD 0 == b.headD 0 && (a.headD 0 == 0 || strncmpEq n a.tail b.tail)

/-- The `n` bytes that `strncpy(dst, src, n)` stores. -/
def strncpy (n : Nat) (src : List UInt8) : List UInt8 := (cstr src ++ List.replicate n 0).take n

theorem cstr_cons (a : UInt8) (l : List UInt8) :
    cstr (a :: l) = if a = 0 then [] else a :: cstr l := by
  by_cases ha : a = 0
  · rw [if_pos ha, cstr, List.takeWhile_cons_of_neg (by simp [ha])]
  · rw [if_neg ha, cstr, List.takeWhile_cons_of_pos (by simp [ha])]
    rfl

theorem cstr_take (n : Nat) (l : List UInt8) : cstr (l.take n) = (cstr l).take n := by
  induction l generalizing n with
  | nil => simp [cstr]
  | cons a l ih =>
      cases n with
      | zero => rfl
      | succ n =>
          rw [List.take_succ_cons, cstr_cons, cstr_cons, ih]
          split
          next => rfl
          next => rw [List.take_succ_cons]

theorem cstr_append_zeros (l : List UInt8) (n : Nat) :
    cstr (cstr l ++ List.replicate n 0) = cstr l := by
  induction l with
  | nil =>
      cases n with
      | zero => rfl
      | succ n => rfl
  | cons a l ih =>
      rw [cstr_cons]
      by_cases ha : a = 0
      · rw [if_pos ha]
        cases n with
        | zero => rfl
        | succ n => rfl
      · rw [if_neg ha, List.cons_append, cstr_cons, if_neg ha, ih]

/-- Two strings that `strncmp` takes for equal agree in their first `n`
characters. -/
theorem strncmpEq_iff (n : Nat) (a b : List UInt8) :
    strncmpEq n a b = true ↔ cstr (a.take n) = cstr (b.take n) := by
  induction n generalizing a b with
  | zero => simp [strncmpEq]
  | succ n ih =>
      rw [strncmpEq, Bool.and_eq_true, Bool.or_eq_true, beq_iff_eq, beq_iff_eq, ih]
      cases a with
      | nil =>
          cases b with
          | nil => simp
          | cons y b =>
              rw [List.take_nil, List.take_succ_cons, cstr_cons]
              by_cases hy : y = 0
              · simp [hy, cstr]
              · simp [hy, cstr, Ne.symm hy]
      | cons x a =>
          cases b with
          | nil =>
              rw [List.take_nil, List.take_succ_cons, cstr_cons]
              by_cases hx : x = 0 <;> simp [hx, cstr]
          | cons y b =>
              rw [List.take_succ_cons, List.take_succ_cons, cstr_cons, cstr_cons]
              by_cases hx : x = 0
              · by_cases hy : y = 0
                · simp [hx, hy]
                · simp [hx, hy, Ne.symm hy]
              · by_cases hy : y = 0 <;> simp [hx, hy]

theorem length_strncpy (n : Nat) (src : List UInt8) : (strncpy n src).length = n := by
  rw [strncpy, List.length_take, List.length_append, List.length_replicate]
  omega

theorem cstr_strncpy (n : Nat) (src : List UInt8) : cstr (strncpy n src) = cstr (src.take n) := by
  rw [strncpy, cstr_take, cstr_append_zeros, cstr_take]

/-! ## The table -/

/-- The bytes of `table`. -/
abbrev Directory := Memory

namespace Directory

def inUse (t : Directory) (i : Nat) : Bool := t (20 * i) != 0

def sector (t : Directory) (i : Nat) : Int := word t (20 * i + 4)

/-- The bytes of `name`. -/
def name (t : Directory) (i : Nat) : List UInt8 := read t (20 * i + 8) 10

/-- `Directory::Directory(NumDirEntries)`. -/
def new (junk : Memory) : Directory :=
  (List.range 10).foldl (fun t (i : Nat) => write t (20 * i) [0]) junk

/-- `Directory::FetchFrom`. -/
def fetchFrom (t : Directory) (d : Disk) (file : FileHeader) : Option Directory :=
  (readAt d file 200 0).map (write t 0)

/-- `Directory::WriteBack`, with the buffer that `WriteAt` allocates. -/
def writeBack (t : Directory) (d : Disk) (file : FileHeader) (junk : Memory) : Option Disk :=
  (writeAt d file junk t 200 0).map Prod.snd

/-- `Directory::FindIndex`, `none` for -1. -/
def findIndex (t : Directory) (name : List UInt8) : Option Nat :=
  (List.range 10).find? fun i => t.inUse i && strncmpEq 9 (t.name i) name

/-- `Directory::Find`. -/
def find (t : Directory) (name : List UInt8) : Int :=
  match t.findIndex name with
  | some i => t.sector i
  | none => -1

/-- `Directory::Add`. -/
def add (t : Directory) (name : List UInt8) (newSector : Int) : Bool × Directory :=
  match t.findIndex name with
  | some _ => (false, t)
  | none =>
      match (List.range 10).find? fun i => !t.inUse i with
      | some i =>
          let t := write t (20 * i) [1]
          let t := write t (20 * i + 8) (strncpy 9 name)
          (true, setWord t (20 * i + 4) newSector)
      | none => (false, t)

/-- `Directory::Remove`. -/
def remove (t : Directory) (name : List UInt8) : Bool × Directory :=
  match t.findIndex name with
  | some i => (true, write t (20 * i) [0])
  | none => (false, t)

end Directory

/-! ## Entries -/

/-- The characters of a name that count. -/
def key (name : List UInt8) : List UInt8 := cstr (name.take 9)

/-- The sector and the name of an entry in use. -/
def Directory.entry (t : Directory) (i : Nat) : Option (Int × List UInt8) :=
  if i < 10 ∧ t.inUse i = true then some (t.sector i, key (t.name i)) else none

section Entries

variable {t t' : Directory} {name : List UInt8} {i : Nat}

theorem key_name (t : Directory) (i : Nat) : key (t.name i) = cstr (read t (20 * i + 8) 9) := by
  have hsplit : t.name i = read t (20 * i + 8) 9 ++ read t (20 * i + 8 + 9) 1 :=
    read_add t (20 * i + 8) 9 1
  rw [key, hsplit, List.take_left' (length_read ..)]

theorem entry_eq_some {sector : Int} {k : List UInt8} :
    t.entry i = some (sector, k)
      ↔ i < 10 ∧ t.inUse i = true ∧ t.sector i = sector ∧ key (t.name i) = k := by
  rw [Directory.entry]
  split
  next h => rw [Option.some_inj, Prod.mk.injEq]; exact ⟨fun he => ⟨h.1, h.2, he⟩, fun he => he.2.2⟩
  next h =>
      exact ⟨fun he => (Option.some_ne_none _ he.symm).elim, fun he => absurd ⟨he.1, he.2.1⟩ h⟩

/-- An entry is 20 bytes of the table. -/
theorem entry_congr (h : ∀ x, 20 * (i : Int) ≤ x → x < 20 * i + 20 → t' x = t x) :
    t'.entry i = t.entry i := by
  have huse : t'.inUse i = t.inUse i := by
    rw [Directory.inUse, Directory.inUse, h _ (by omega) (by omega)]
  have hsector : t'.sector i = t.sector i := word_congr fun x _ _ => h _ (by omega) (by omega)
  have hname : t'.name i = t.name i := read_congr fun x _ _ => h x (by omega) (by omega)
  rw [Directory.entry, Directory.entry, huse, hsector, hname]

theorem entry_of_le (hi : 10 ≤ i) : t.entry i = none := if_neg (by omega)

theorem entry_eq_none (hi : i < 10) : t.entry i = none ↔ t.inUse i = false := by
  rw [Directory.entry]
  cases t.inUse i <;> simp [hi]

theorem findIndex_some (h : t.findIndex name = some i) :
    t.entry i = some (t.find name, key name) := by
  have hmem := List.mem_range.mp (List.mem_of_find?_eq_some h)
  have hp := List.find?_some h
  rw [Bool.and_eq_true, strncmpEq_iff] at hp
  have hfind : t.find name = t.sector i := by rw [Directory.find, h]
  exact entry_eq_some.mpr ⟨hmem, hp.1, hfind.symm, hp.2⟩

theorem findIndex_none (h : t.findIndex name = none) (i : Nat) (sector : Int) :
    t.entry i ≠ some (sector, key name) := by
  intro he
  obtain ⟨hi, huse, -, hkey⟩ := entry_eq_some.mp he
  have hp := List.find?_eq_none.mp h i (List.mem_range.mpr hi)
  exact hp (Bool.and_eq_true _ _ ▸ ⟨huse, (strncmpEq_iff ..).mpr hkey⟩)

/-- A new directory has no entry in use. -/
theorem entry_new (junk : Memory) (i : Nat) : (Directory.new junk).entry i = none := by
  by_cases hi : i < 10
  · -- the loop of the constructor has cleared the flags below its counter
    have hloop : ∀ n : Nat, ∀ j < n,
        (List.range n).foldl (fun t (i : Nat) => write t (20 * i) [0]) junk (20 * j) = 0 := by
      intro n
      induction n with
      | zero => exact fun j hj => absurd hj (Nat.not_lt_zero j)
      | succ n ih =>
          intro j hj
          rw [List.range_succ, List.foldl_append, List.foldl_cons, List.foldl_nil]
          by_cases hjn : j = n
          · rw [hjn, write_of_mem (by omega) (by simp)]
            simp
          · rw [write_of_not_mem (by simp; omega)]
            exact ih j (by omega)
    refine (entry_eq_none hi).mpr ?_
    rw [Directory.inUse, Directory.new, hloop 10 i hi]
    rfl
  · exact entry_of_le (by omega)

/-- `Add` fills the first entry that is free. -/
theorem add_cases (hnone : t.findIndex name = none) {newSector : Int} (hint : IsInt newSector) :
    t.add name newSector = (false, t)
      ∨ ∃ i t', i < 10 ∧ t.entry i = none ∧ t.add name newSector = (true, t')
          ∧ ∀ j, t'.entry j = if j = i then some (newSector, key name) else t.entry j := by
  simp only [Directory.add, hnone]
  cases hfree : (List.range 10).find? fun i => !t.inUse i with
  | none => exact Or.inl rfl
  | some i =>
      have hi := List.mem_range.mp (List.mem_of_find?_eq_some hfree)
      have hp : t.inUse i = false := by simpa using List.find?_some hfree
      refine Or.inr ⟨i, _, hi, (entry_eq_none hi).mpr hp, rfl, fun j => ?_⟩
      have hlen := length_strncpy 9 name
      by_cases hj : j = i
      · rw [if_pos hj, hj]
        refine entry_eq_some.mpr ⟨hi, ?_, word_setWord hint, ?_⟩
        · rw [Directory.inUse, setWord_of_not_mem (by omega), write_of_not_mem (by omega),
            write_of_mem (by omega) (by simp)]
          simp
        · have hname : read (write (write t (20 * i) [1]) (20 * i + 8) (strncpy 9 name))
              (20 * i + 8) 9 = strncpy 9 name := by
            have := read_write (m := write t (20 * i) [1]) (a := 20 * i + 8)
              (show 0 + 9 ≤ (strncpy 9 name).length by omega)
            rw [Int.ofNat_zero, Int.add_zero, List.drop_zero, List.take_of_length_le (by omega)]
              at this
            exact this
          rw [key_name, read_congr fun x _ _ => setWord_of_not_mem (by omega), hname, cstr_strncpy,
            key]
      · rw [if_neg hj]
        refine entry_congr fun x h1 h2 => ?_
        rw [setWord_of_not_mem (by omega), write_of_not_mem (by omega),
          write_of_not_mem (by simp; omega)]

/-- `Add` of a new name fails on a full table only. -/
theorem add_full (hnone : t.findIndex name = none) {newSector : Int}
    (hadd : t.add name newSector = (false, t')) {j : Nat} (hj : j < 10) : t.entry j ≠ none := by
  simp only [Directory.add, hnone] at hadd
  cases hfree : (List.range 10).find? fun i => !t.inUse i with
  | none =>
      have huse := List.find?_eq_none.mp hfree j (List.mem_range.mpr hj)
      rw [Ne, entry_eq_none hj]
      simpa using huse
  | some i =>
      simp only [hfree] at hadd
      exact absurd (Prod.mk.inj hadd).1 (by decide)

/-- `Remove` frees the entry with that name. -/
theorem remove_eq (h : t.findIndex name = some i) :
    ∃ t', t.remove name = (true, t') ∧ ∀ j, t'.entry j = if j = i then none else t.entry j := by
  refine ⟨write t (20 * i) [0], by rw [Directory.remove, h], fun j => ?_⟩
  by_cases hj : j = i
  · rw [if_pos hj, hj]
    refine (entry_eq_none (List.mem_range.mp (List.mem_of_find?_eq_some h))).mpr ?_
    rw [Directory.inUse, write_of_mem (by omega) (by simp)]
    simp
  · rw [if_neg hj]
    exact entry_congr fun x h1 h2 => write_of_not_mem (by simp; omega)

end Entries

end DiskFS

end Nachos
