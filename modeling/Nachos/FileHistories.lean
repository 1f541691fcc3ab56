import Nachos.FileTable

/-!
# Histories of a file table

Sequences of `PCB::Open` and `PCB::Close` on the table that `PCB::PCB` has
made (`threads/pcb.cc`), with any names, types and descriptors, any answers
of the host and any previous contents of the heap.

Entries 0 and 1 are the console. `Open` answers 0 for type 2 and 1 for every
type above it or below 0 without a look at the entry, and `FindFreeSlot`
never comes to these two, so once they are closed they stay null
(`console_run`) and the answers name nothing. `open_usable_iff` says which
calls are answered by a descriptor one can use.

`Open` refuses a name by comparing it with the copies in the entries. The
copy of `OpenFile::OpenFile` ends where the heap happens to have a zero, so
the comparison finds the name again only if that zero comes at once.
`open_once_iff` says that this is just what is needed of the heap for no file
to be open twice.
-/

namespace Nachos

/-- A call of `Open`, with what the host and the heap have for it, or of
`Close`. -/
inductive TableCall where
  | openFile (name : String) (type : Int) (o : Opening)
  | close (id : Int)

/-- What the heap holds behind the copy of the name is one of `tails`. -/
def TableCall.TailIn (tails : Set String) : TableCall → Prop
  | .openFile _ _ o => o.tail ∈ tails
  | .close _ => True

/-- The table of a process, and the names its entries were opened under. -/
structure NamedTable where
  files : FileTable
  openedAs : Nat → String

namespace NamedTable

/-- The files of `PCB::PCB`. -/
def construct (stdin stdout : Opening) : NamedTable where
  files := fun i => if i = 0 then stdin.stdin else if i = 1 then stdout.stdout else none
  openedAs := fun i => if i = 0 then "stdin" else "stdout"

/-- Entry `i` becomes `f`, opened under `name`. -/
def enter (s : NamedTable) (i : Nat) (f : OpenFile) (name : String) : NamedTable :=
  ⟨Function.update s.files i (some f), Function.update s.openedAs i name⟩

/-- Entry `i` becomes null. -/
def remove (s : NamedTable) (i : Nat) : NamedTable :=
  { s with files := Function.update s.files i none }

/-- The result of a call, and the table after it. -/
def call (s : NamedTable) : TableCall → Int × NamedTable
  | .openFile name type o =>
      match s.files.openFile name type o with
      | (r, some (i, f)) => (r, s.enter i f name)
      | (r, none) => (r, s)
  | .close id =>
      match s.files.close id with
      | (r, some (i, _)) => (r, s.remove i)
      | (r, none) => (r, s)

/-- The table after a history of calls. -/
def run (s : NamedTable) (history : List TableCall) : NamedTable :=
  history.foldl (fun s c => (s.call c).2) s

theorem files_enter (s : NamedTable) (i : Nat) (f : OpenFile) (name : String) (j : Nat) :
    (s.enter i f name).files j = if j = i then some f else s.files j :=
  Function.update_apply ..

theorem openedAs_enter (s : NamedTable) (i : Nat) (f : OpenFile) (name : String) (j : Nat) :
    (s.enter i f name).openedAs j = if j = i then name else s.openedAs j :=
  Function.update_apply ..

theorem files_remove (s : NamedTable) (i j : Nat) :
    (s.remove i).files j = if j = i then none else s.files j :=
  Function.update_apply ..

end NamedTable

/-- The entry `Open` answers with for a type that is neither 0 nor 1. -/
def consoleEntry (type : Int) : Nat := if type = 2 then 0 else 1

theorem consoleEntry_lt (type : Int) : consoleEntry type < 2 := by
  rw [consoleEntry]
  split <;> decide

namespace NamedTable

/-- Everything a call can do. -/
inductive Called (s : NamedTable) : TableCall → Int → NamedTable → Prop where
  | refused {name : String} {type : Int} {o : Opening} :
      s.files.hasName name = true ∨ s.files.findFreeSlot = none →
      Called s (.openFile name type o) (-1) s
  | failed {name : String} {type : Int} {o : Opening} :
      type = 0 ∨ type = 1 → o.file name type = none → Called s (.openFile name type o) (-1) s
  | opened {name : String} {type : Int} {o : Opening} {i : Nat} {f : OpenFile} :
      s.files.hasName name = false → s.files.findFreeSlot = some i → type = 0 ∨ type = 1 →
      o.file name type = some f →
      Called s (.openFile name type o) i (s.enter i f name)
  | console {name : String} {type : Int} {o : Opening} :
      s.files.hasName name = false → s.files.findFreeSlot ≠ none → ¬(type = 0 ∨ type = 1) →
      Called s (.openFile name type o) (consoleEntry type) s
  | closed {id : Int} :
      0 ≤ id → s.files id.toNat ≠ none → Called s (.close id) 0 (s.remove id.toNat)
  | notOpen {id : Int} :
      ¬(0 ≤ id ∧ id ≤ 9) ∨ s.files id.toNat = none → Called s (.close id) (-1) s

theorem called_openFile (s : NamedTable) (name : String) (type : Int) (o : Opening) :
    Called s (.openFile name type o) (s.call (.openFile name type o)).1
      (s.call (.openFile name type o)).2 := by
  simp only [call, FileTable.openFile]
  cases hname : s.files.hasName name with
  | true => exact .refused (Or.inl hname)
  | false =>
      cases hslot : s.files.findFreeSlot with
      | none => exact .refused (Or.inr hslot)
      | some i =>
          have hsome : s.files.findFreeSlot ≠ none := by rw [hslot]; exact Option.some_ne_none i
          by_cases htype : type = 0 ∨ type = 1
          · simp only [if_pos htype]
            cases hfile : o.file name type with
            | none => exact .failed htype hfile
            | some f => exact .opened hname hslot htype hfile
          · have hanswer := Called.console (o := o) hname hsome htype
            rw [consoleEntry] at hanswer
            by_cases htwo : type = 2
            · simp only [if_neg htype, if_pos htwo] at hanswer ⊢
              exact hanswer
            · simp only [if_neg htype, if_neg htwo] at hanswer ⊢
              exact hanswer

theorem called_close (s : NamedTable) (id : Int) :
    Called s (.close id) (s.call (.close id)).1 (s.call (.close id)).2 := by
  simp only [call, FileTable.close]
  by_cases hid : 0 ≤ id ∧ id ≤ 9
  · simp only [if_pos hid]
    cases hentry : s.files id.toNat with
    | none => exact .notOpen (Or.inr hentry)
    | some f => exact .closed hid.1 (by rw [hentry]; exact Option.some_ne_none f)
  · simp only [if_neg hid]
    exact .notOpen (Or.inl hid)

theorem called (s : NamedTable) (c : TableCall) : Called s c (s.call c).1 (s.call c).2 := by
  cases c with
  | openFile name type o => exact called_openFile s name type o
  | close id => exact called_close s id

/-! ## The console entries -/

/-- A call leaves a console entry alone, or closes it. -/
theorem Called.console_iff {s s' : NamedTable} {c : TableCall} {r : Int} (h : Called s c r s')
    {i : Nat} (hi : i < 2) : s'.files i ≠ none ↔ s.files i ≠ none ∧ .close i ≠ c := by
  cases h with
  | refused _ => exact (and_iff_left TableCall.noConfusion).symm
  | failed _ _ => exact (and_iff_left TableCall.noConfusion).symm
  | console _ _ _ => exact (and_iff_left TableCall.noConfusion).symm
  | opened _ hslot _ _ =>
      obtain ⟨hlow, -, -⟩ := FileTable.findFreeSlot_some hslot
      rw [files_enter, if_neg (by omega)]
      exact (and_iff_left TableCall.noConfusion).symm
  | @closed id h0 hentry =>
      by_cases hid : i = id
      · subst hid
        rw [Int.toNat_natCast, files_remove, if_pos rfl]
        exact ⟨fun hne => absurd rfl hne, fun hne => absurd rfl hne.2⟩
      · rw [files_remove, if_neg (by omega)]
        exact (and_iff_left fun heq => hid (TableCall.close.inj heq)).symm
  | notOpen hnot =>
      refine ⟨fun hne => ⟨hne, fun heq => ?_⟩, And.left⟩
      obtain rfl := TableCall.close.inj heq
      rw [Int.toNat_natCast] at hnot
      exact hnot.elim (fun hrange => hrange ⟨by omega, by omega⟩) hne

/-- A console entry is open as long as nobody has closed it. -/
theorem console_run (s : NamedTable) (history : List TableCall) {i : Nat} (hi : i < 2) :
    (s.run history).files i ≠ none ↔ s.files i ≠ none ∧ .close i ∉ history := by
  induction history generalizing s with
  | nil => simp [run]
  | cons c history ih =>
      have hrun : s.run (c :: history) = (s.call c).2.run history := rfl
      rw [hrun, ih, (s.called c).console_iff hi, List.mem_cons, not_or, and_assoc]

/-! ## Answers one can use -/

/-- A descriptor `r` that `Open` answers is an entry of the table that is not
null, and the call has changed no other entry; after an answer of -1 the
table is as it was. -/
def Usable (s : NamedTable) (c : TableCall) (r : Int) (s' : NamedTable) : Prop :=
  match c with
  | .openFile .. =>
      (0 ≤ r → r ≤ 9 ∧ s'.files r.toNat ≠ none ∧ ∀ i, i ≠ r.toNat → s'.files i = s.files i)
      ∧ (r = -1 → s'.files = s.files)
  | .close _ => r = -1 → s'.files = s.files

/-- The constructor has got entry `i` from the host, and no call of the
history has closed it. -/
def ConsoleOpen (stdin stdout : Opening) (history : List TableCall) (i : Nat) : Prop :=
  (if i = 0 then stdin.fd else stdout.fd) ≠ none ∧ .close i ∉ history

/-- Before the call: `Open` is to open a file, or refuses, or names a console
entry that is open. -/
def Backed (stdin stdout : Opening) (history : List TableCall) : TableCall → Prop
  | .openFile name type _ =>
      (type = 0 ∨ type = 1)
      ∨ (((construct stdin stdout).run history).files.hasName name = true
        ∨ ((construct stdin stdout).run history).files.findFreeSlot = none)
      ∨ ConsoleOpen stdin stdout history (consoleEntry type)
  | .close _ => True

theorem consoleOpen_iff (stdin stdout : Opening) (history : List TableCall) {i : Nat} (hi : i < 2) :
    ((construct stdin stdout).run history).files i ≠ none
      ↔ ConsoleOpen stdin stdout history i := by
  rw [console_run _ _ hi, ConsoleOpen]
  refine and_congr_left fun _ => ?_
  have hcases : i = 0 ∨ i = 1 := by omega
  rcases hcases with rfl | rfl
  · simp [construct, Opening.stdin, Opening.file]
  · simp [construct, Opening.stdout, Opening.file]

/-- **Which answers can be used**, after any history of the table. -/
theorem open_usable_iff (stdin stdout : Opening) (history : List TableCall) (c : TableCall) :
    let s := (construct stdin stdout).run history
    Usable s c (s.call c).1 (s.call c).2 ↔ Backed stdin stdout history c := by
  intro s
  have hcalled := s.called c
  generalize (s.call c).1 = r at hcalled ⊢
  generalize (s.call c).2 = s' at hcalled ⊢
  cases hcalled with
  | refused hrefused =>
      exact iff_of_true ⟨fun h => by omega, fun _ => rfl⟩ (Or.inr (Or.inl hrefused))
  | failed htype _ => exact iff_of_true ⟨fun h => by omega, fun _ => rfl⟩ (Or.inl htype)
  | @opened name type o i f hname hslot htype hfile =>
      obtain ⟨hlow, hhigh, -⟩ := FileTable.findFreeSlot_some hslot
      rw [FileTable.size] at hhigh
      refine iff_of_true ⟨fun _ => ⟨by omega, ?_, fun j hj => ?_⟩, fun h => by omega⟩ (Or.inl htype)
      · rw [Int.toNat_natCast, files_enter, if_pos rfl]
        exact Option.some_ne_none f
      · rw [Int.toNat_natCast] at hj
        rw [files_enter, if_neg hj]
  | @console name type o hname hslot htype =>
      -- neither refused nor a file: all hangs on the console entry
      have hlt := consoleEntry_lt type
      have hrefused : ¬(s.files.hasName name = true ∨ s.files.findFreeSlot = none) := by
        rintro (htrue | hnone)
        · rw [hname] at htrue
          exact Bool.noConfusion htrue
        · exact hslot hnone
      rw [Backed, or_iff_right htype, or_iff_right hrefused, ← consoleOpen_iff _ _ _ hlt]
      constructor
      · intro husable
        exact (husable.1 (by omega)).2.1
      · intro hopen
        exact ⟨fun _ => ⟨by omega, hopen, fun _ _ => rfl⟩, fun h => by omega⟩
  | closed _ _ => exact iff_of_true (fun h => by omega) trivial
  | notOpen _ => exact iff_of_true (fun _ => rfl) trivial

/-- `Close(0)`, then `Open("notes", 2)`: the answer is 0, and entry 0 is
null. -/
theorem open_answers_closed_console :
    (((construct ⟨some 3, ""⟩ ⟨some 4, ""⟩).run [.close 0]).call
        (.openFile "notes" 2 ⟨some 5, ""⟩)).1 = 0
      ∧ (((construct ⟨some 3, ""⟩ ⟨some 4, ""⟩).run [.close 0]).call
        (.openFile "notes" 2 ⟨some 5, ""⟩)).2.files 0 = none :=
  ⟨rfl, rfl⟩

/-! ## Opening once -/

theorem hasName_iff {t : FileTable} {name : String} :
    t.hasName name = true ↔ ∃ i f, i < FileTable.size ∧ t i = some f ∧ f.filename = name := by
  rw [FileTable.hasName, List.any_eq_true]
  constructor
  · rintro ⟨i, hi, hany⟩
    cases hf : t i with
    | none =>
        rw [hf, Option.any_none] at hany
        exact Bool.noConfusion hany
    | some f =>
        rw [hf, Option.any_some] at hany
        exact ⟨i, f, List.mem_range.mp hi, hf, eq_of_beq hany⟩
  · rintro ⟨i, f, hi, hf, rfl⟩
    exact ⟨i, List.mem_range.mpr hi, by rw [hf, Option.any_some, beq_self_eq_true]⟩

/-- No two entries were opened under one name, and the name of an entry is
refused. -/
structure OpenOnce (s : NamedTable) : Prop where
  distinct : ∀ i j, i < FileTable.size → j < FileTable.size → s.files i ≠ none →
    s.files j ≠ none → s.openedAs i = s.openedAs j → i = j
  refuses : ∀ i, i < FileTable.size → s.files i ≠ none → ∀ type o,
    s.call (.openFile (s.openedAs i) type o) = (-1, s)

/-- The copies of the names are whole and end with them. -/
structure Terminated (s : NamedTable) : Prop where
  copies : ∀ i f, s.files i = some f → f.filename = s.openedAs i
  distinct : ∀ i j, i < FileTable.size → j < FileTable.size → s.files i ≠ none →
    s.files j ≠ none → s.openedAs i = s.openedAs j → i = j

theorem Terminated.openOnce {s : NamedTable} (h : Terminated s) : OpenOnce s := by
  refine ⟨h.distinct, fun i hi hne type o => ?_⟩
  obtain ⟨f, hf⟩ := Option.ne_none_iff_exists'.mp hne
  have hname : s.files.hasName (s.openedAs i) = true :=
    hasName_iff.mpr ⟨i, f, hi, hf, h.copies i f hf⟩
  simp only [call, FileTable.openFile, if_pos hname]

theorem filename_of_file {o : Opening} {name : String} {type : Int} {f : OpenFile}
    (h : o.file name type = some f) : f.filename = name ++ o.tail := by
  obtain ⟨fd, -, rfl⟩ := Option.map_eq_some_iff.mp h
  rfl

theorem terminated_construct {stdin stdout : Opening} (hin : stdin.tail = "")
    (hout : stdout.tail = "") : Terminated (construct stdin stdout) := by
  constructor
  · intro i f hf
    simp only [construct] at hf ⊢
    split at hf
    next h0 => rw [filename_of_file hf, hin, if_pos h0]; rfl
    next h0 =>
        split at hf
        next => rw [filename_of_file hf, hout, if_neg h0]; rfl
        next => cases hf
  · have hconsole : ∀ i, (construct stdin stdout).files i ≠ none → i = 0 ∨ i = 1 := by
      intro i hne
      by_contra hnot
      rw [not_or] at hnot
      exact hne (by simp only [construct, if_neg hnot.1, if_neg hnot.2])
    intro i j _ _ hi hj heq
    rcases hconsole i hi with rfl | rfl <;> rcases hconsole j hj with rfl | rfl <;>
      simp [construct] at heq ⊢

/-- One call with a terminated copy. -/
theorem Terminated.called {s s' : NamedTable} {c : TableCall} {r : Int} (h : Terminated s)
    (hc : c.TailIn {""}) (hcalled : Called s c r s') : Terminated s' := by
  cases hcalled with
  | refused _ => exact h
  | failed _ _ => exact h
  | console _ _ _ => exact h
  | notOpen _ => exact h
  | @opened name type o i f hname hslot htype hfile =>
      have hfilename : f.filename = name := by
        rw [filename_of_file hfile, Set.mem_singleton_iff.mp hc, String.append_empty]
      -- the test has compared the name with those of all other entries
      have hnew : ∀ j, j < FileTable.size → s.files j ≠ none → s.openedAs j ≠ name := by
        intro j hj hne heq
        obtain ⟨g, hg⟩ := Option.ne_none_iff_exists'.mp hne
        rw [hasName_iff.mpr ⟨j, g, hj, hg, (h.copies j g hg).trans heq⟩] at hname
        exact Bool.noConfusion hname
      constructor
      · intro j g hg
        rw [files_enter] at hg
        rw [openedAs_enter]
        split at hg
        next hj => rw [if_pos hj, ← Option.some.inj hg, hfilename]
        next hj => rw [if_neg hj, h.copies j g hg]
      · intro j k hj hk hjne hkne heq
        rw [files_enter] at hjne hkne
        rw [openedAs_enter, openedAs_enter] at heq
        by_cases hji : j = i
        · by_cases hki : k = i
          · exact hji.trans hki.symm
          · rw [if_neg hki] at hkne
            rw [if_pos hji, if_neg hki] at heq
            exact absurd heq.symm (hnew k hk hkne)
        · rw [if_neg hji] at hjne
          by_cases hki : k = i
          · rw [if_neg hji, if_pos hki] at heq
            exact absurd heq (hnew j hj hjne)
          · rw [if_neg hki] at hkne
            rw [if_neg hji, if_neg hki] at heq
            exact h.distinct j k hj hk hjne hkne heq
  | @closed id _ _ =>
      have hstays : ∀ j, (s.remove id.toNat).files j ≠ none → s.files j ≠ none := by
        intro j hne
        rw [files_remove] at hne
        split at hne
        next => exact absurd rfl hne
        next => exact hne
      constructor
      · intro j g hg
        rw [files_remove] at hg
        split at hg
        next => cases hg
        next => exact h.copies j g hg
      · exact fun j k hj hk hjne hkne => h.distinct j k hj hk (hstays j hjne) (hstays k hkne)

/-- A whole history with terminated copies. -/
theorem Terminated.run {s : NamedTable} (h : Terminated s) (history : List TableCall)
    (hc : ∀ c ∈ history, c.TailIn {""}) : Terminated (s.run history) := by
  induction history generalizing s with
  | nil => exact h
  | cons c history ih =>
      exact ih (h.called (hc c List.mem_cons_self) (s.called c))
        fun d hd => hc d (List.mem_cons_of_mem c hd)

/-- `Open` of a file that no copy names. -/
theorem call_openFile {s : NamedTable} {name tail : String} {i fd : Nat}
    (hname : s.files.hasName name = false) (hslot : s.files.findFreeSlot = some i) :
    s.call (.openFile name 0 ⟨some fd, tail⟩)
      = ((i : Int), s.enter i ⟨fd, 0, 0, name ++ tail⟩ name) := by
  simp only [call, FileTable.openFile, hname, hslot]
  rfl

/-- Any other tail lets a name in twice. -/
theorem not_openOnce {x : String} (hx : x ≠ "") :
    ¬OpenOnce ((construct ⟨none, x⟩ ⟨none, x⟩).run
      [.openFile "a" 0 ⟨some 3, x⟩, .openFile "a" 0 ⟨some 4, x⟩]) := by
  have hempty : ∀ i, (construct ⟨none, x⟩ ⟨none, x⟩).files i = none := by
    intro i
    simp [construct, Opening.stdin, Opening.stdout, Opening.file]
  have hname : (construct ⟨none, x⟩ ⟨none, x⟩).files.hasName "a" = false := by
    rw [Bool.eq_false_iff]
    intro htrue
    obtain ⟨i, f, -, hf, -⟩ := hasName_iff.mp htrue
    rw [hempty i] at hf
    cases hf
  have hfirst : (construct ⟨none, x⟩ ⟨none, x⟩).call (.openFile "a" 0 ⟨some 3, x⟩)
      = (2, (construct ⟨none, x⟩ ⟨none, x⟩).enter 2 ⟨3, 0, 0, "a" ++ x⟩ "a") :=
    call_openFile hname rfl
  generalize hs : (construct ⟨none, x⟩ ⟨none, x⟩).enter 2 ⟨3, 0, 0, "a" ++ x⟩ "a" = s at hfirst
  -- the second call compares the name with the copy in entry 2
  have hname' : s.files.hasName "a" = false := by
    rw [Bool.eq_false_iff]
    intro htrue
    obtain ⟨i, f, -, hf, heq⟩ := hasName_iff.mp htrue
    rw [← hs, files_enter, hempty] at hf
    split at hf
    next =>
        rw [← Option.some.inj hf] at heq
        exact hx (by simpa using heq)
    next => cases hf
  have hsecond : s.call (.openFile "a" 0 ⟨some 4, x⟩) = (3, s.enter 3 ⟨4, 0, 0, "a" ++ x⟩ "a") :=
    call_openFile hname' (by rw [← hs]; rfl)
  have hrun : (construct ⟨none, x⟩ ⟨none, x⟩).run
      [.openFile "a" 0 ⟨some 3, x⟩, .openFile "a" 0 ⟨some 4, x⟩]
      = s.enter 3 ⟨4, 0, 0, "a" ++ x⟩ "a" := by
    simp only [run, List.foldl, hfirst, hsecond]
  rw [hrun]
  intro honce
  have heq := honce.distinct 2 3 (by decide) (by decide)
    (by rw [files_enter, if_neg (by decide), ← hs]; exact Option.some_ne_none _)
    (by rw [files_enter, if_pos rfl]; exact Option.some_ne_none _)
    (by rw [openedAs_enter, if_neg (by decide), openedAs_enter, if_pos rfl, ← hs]; rfl)
  exact absurd heq (by decide)

/-- **What keeps files from being open twice**: whatever the names, types and
answers of the host, no two entries were opened under one name, just in case
all the heap can hold behind a copied name is a zero. -/
theorem open_once_iff (tails : Set String) :
    (∀ (stdin stdout : Opening) (history : List TableCall), stdin.tail ∈ tails →
        stdout.tail ∈ tails → (∀ c ∈ history, c.TailIn tails) →
        OpenOnce ((construct stdin stdout).run history))
      ↔ ∀ x ∈ tails, x = "" := by
  constructor
  · intro honce x hx
    by_contra hne
    refine not_openOnce hne (honce _ _ _ hx hx fun c hc => ?_)
    rcases List.mem_cons.mp hc with rfl | hc
    · exact hx
    · rw [List.mem_singleton.mp hc]
      exact hx
  · intro hempty stdin stdout history hin hout hc
    have hstart := terminated_construct (hempty _ hin) (hempty _ hout)
    refine (hstart.run history fun c hmem => ?_).openOnce
    cases c with
    | openFile name type o => exact hempty _ (hc _ hmem)
    | close id => trivial

/-- A byte `b` left in the block behind the copy of `a`: the second `Open`
does not find the name, and entries 2 and 3 are the same file. -/
theorem open_twice :
    let s := (construct ⟨some 3, ""⟩ ⟨some 4, ""⟩).run
      [.openFile "a" 0 ⟨some 5, "b"⟩, .openFile "a" 0 ⟨some 6, ""⟩]
    s.files 2 ≠ none ∧ s.files 3 ≠ none ∧ s.openedAs 2 = "a" ∧ s.openedAs 3 = "a" :=
  ⟨Option.some_ne_none _, Option.some_ne_none _, rfl, rfl⟩

end NamedTable

end Nachos
