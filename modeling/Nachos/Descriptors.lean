import Nachos.FileTable
import Nachos.Ownership
import Nachos.TableSteps

/-!
# Descriptors of the host

Who opens and closes descriptors of the host, over whole runs of the process
table: `PCB::PCB` opens `stdin` and `stdout`, `Open` and `Close` work on the
caller's table, `AddrSpace::Load` holds the executable open from its start to
its end, and the destructor of a `PCB` should close the rest. It does not get
there: `~PCB` calls `thread->Finish()` before the loop over `fileTable`, and
`Finish` of the running thread does not return (`State.destructs`). What a
process has not closed itself by the time of its `Remove` stays open.

`Tidy` says that it has closed everything. This file has the system, the
property `DescriptorsOK`, and `Books`, the account of descriptors it rests
on: each open one is held by exactly one table entry or executable
(`Ownership.Tracks`, with a list of at most one descriptor for each), and the
history of openings and closings of every `PCB` balances with what its table
still holds. `Nachos.DescriptorsReturned` follows the processes. `SysExec`
and `Create` also open a file, and close it again before anything else runs;
they leave no trace here.
-/

namespace Nachos

open Run Ownership

namespace Descriptors

/-! ## The system -/

inductive Event where
  | opened (k fd : Nat)
  | closed (k fd : Nat)
deriving DecidableEq

/-- `fileTable k` is that of `PCB` `k`, `executable p` the descriptor process
`p` reads its program from while it is in `Load`, and `isOpen` says which
descriptors of the host are open for either. `log` is history. -/
structure State where
  table : PTable.State
  fileTable : Nat → FileTable
  executable : Nat → Option Nat
  isOpen : Nat → Bool
  log : List Event

/-- `sys`: a part of `Exec`, `Join`, `Exit` or `StartProcess`; if it makes a
`PCB`, `creates` says whether the host lets it create `stdin` and `stdout`,
and the openings what it gets for them. `load p fd`: `Load` of `p` gets `fd`
for the executable. `openFile`, `close`: the system calls of `p`. -/
inductive Action where
  | sys (a : PTable.Action) (creates : Bool) (stdin stdout : Opening)
  | load (p fd : Nat)
  | openFile (p : Nat) (name : String) (type : Int) (o : Opening)
  | close (p : Nat) (id : Int)

namespace State

def halt (s : State) (why : PTable.Stop) : State := { s with table := s.table.halt why }

def setFile (s : State) (k i : Nat) (f : Option OpenFile) : State :=
  { s with fileTable := Function.update s.fileTable k (Function.update (s.fileTable k) i f) }

/-- Entry `i` of `PCB` `k` becomes `f`, which the host has just opened. -/
def acquire (s : State) (k i : Nat) (f : OpenFile) : State :=
  { s.setFile k i (some f) with
    isOpen := Function.update s.isOpen f.file true
    log := .opened k f.file :: s.log }

/-- The same for what `FileSystem::Open` returned. The host never hands out a
descriptor that is open. -/
def fill (s : State) (k i : Nat) : Option OpenFile → Option State
  | none => some s
  | some f => if s.isOpen f.file then none else some (s.acquire k i f)

/-- `delete fileTable[i]`, where entry `i` of `PCB` `k` is `f`: `Close`
asserts that the host has closed the descriptor. -/
def release (s : State) (k i : Nat) (f : OpenFile) : State :=
  if s.isOpen f.file then
    { s.setFile k i none with
      isOpen := Function.update s.isOpen f.file false
      log := .closed k f.file :: s.log }
  else s.halt .abort

/-- The file part of `PCB::PCB`, for `PCB` `k`. -/
def construct (s : State) (k : Nat) (stdin stdout : Opening) : Option State := do
  let s := { s with fileTable := Function.update s.fileTable k fun _ => none }
  let s ← s.fill k 0 stdin.stdin
  s.fill k 1 stdout.stdout

/-- The loop at the end of `~PCB`. -/
def closeAll (s : State) (k : Nat) : State :=
  (List.range FileTable.size).foldl
    (fun s i => match s.fileTable k i with
      | some f => s.release k i f
      | none => s) s

/-- The `PCB` whose destructor `p` is about to run to its end: without a
thread there is no `Finish` in the way. -/
def destructs (s : State) (p : Nat) : Option Nat :=
  if (s.table.thr p).phase = .exitRemove then
    (s.table.pcbAt (s.table.thr p).processID).filter fun k => (s.table.obj k).thread = none
  else none

/-- The end of `Load`: `delete executable`. -/
def loaded (s : State) (p : Nat) : Option State :=
  match s.executable p with
  | none => none
  | some fd =>
      if s.isOpen fd then
        some { s with
          executable := Function.update s.executable p none
          isOpen := Function.update s.isOpen fd false }
      else some (s.halt .abort)

/-- A part of a call that leads the table to `table`. -/
def follow (s : State) (a : PTable.Action) (creates : Bool) (stdin stdout : Opening)
    (table : PTable.State) : Option State :=
  if table.next ≠ s.table.next then
    if creates then construct { s with table := table } s.table.next stdin stdout
    else some (s.halt .abort)
  else if table.stop ≠ none then some { s with table := table }
  else match a with
    | .load p _ => loaded { s with table := table } p
    | .go p _ =>
        match s.destructs p with
        | some k => some (closeAll { s with table := table } k)
        | none => some { s with table := table }
    | _ => some { s with table := table }

end State

def step (s : State) (a : Action) : Option State :=
  if s.table.stop ≠ none then none
  else match a with
    | .sys a creates stdin stdout =>
        (PTable.step s.table a).bind (s.follow a creates stdin stdout)
    | .load p fd =>
        if (s.table.thr p).phase = .start ∧ s.executable p = none ∧ s.isOpen fd = false then
          some { s with
            executable := Function.update s.executable p (some fd)
            isOpen := Function.update s.isOpen fd true }
        else none
    | .openFile p name type o =>
        if s.table.inUser p then
          match s.table.pcbAt (s.table.thr p).processID with
          | none => some (s.halt .crash)
          | some k =>
              match ((s.fileTable k).openFile name type o).2 with
              | some (i, f) => s.fill k i (some f)
              | none => some s
        else none
    | .close p id =>
        if s.table.inUser p then
          match s.table.pcbAt (s.table.thr p).processID with
          | none => some (s.halt .crash)
          | some k =>
              match ((s.fileTable k).close id).2 with
              | some (i, f) => some (s.release k i f)
              | none => some s
        else none

/-- The first program running in `PCB` 0. -/
def boot (name : String) (heap : Int) (stdin stdout : Opening) : Option State :=
  State.construct
    { table := PTable.State.init name heap
      fileTable := fun _ _ => none
      executable := fun _ => none
      isOpen := fun _ => false
      log := [] } 0 stdin stdout

/-- `Remove` finds a table without open files. -/
def Tidy (s : State) : Action → Prop
  | .sys (.go p _) _ _ _ => (s.table.thr p).phase = .exitRemove →
      ∀ k ∈ s.table.pcbAt (s.table.thr p).processID, ∀ i < FileTable.size, s.fileTable k i = none
  | _ => True

/-! ## The property -/

/-- `fd` is in an entry of a `PCB` in a slot in use. -/
def State.Referenced (s : State) (fd : Nat) : Prop :=
  ∃ slot k i f, slot < PTable.maxProcess ∧ s.table.bm.testBit slot = true
    ∧ s.table.pcb slot = some k ∧ i < FileTable.size ∧ s.fileTable k i = some f ∧ f.file = fd

/-- The open descriptors, apart from executables being loaded, are those the
tables refer to, and of a process that is gone every opening has been
followed by its closing. -/
structure DescriptorsOK (s : State) : Prop where
  exact : ∀ fd, s.isOpen fd = true ∧ (∀ p, s.executable p ≠ some fd) ↔ s.Referenced fd
  gone : ∀ k, (s.table.thr k).phase = .gone → (∀ i, s.fileTable k i = none)
    ∧ ∀ fd, s.log.count (.opened k fd) = s.log.count (.closed k fd)

/-! ## The account of descriptors -/

/-- What can hold a descriptor. -/
inductive Ref where
  | entry (k i : Nat)
  | executable (p : Nat)
deriving DecidableEq

def State.held (s : State) : Ref → List Nat
  | .entry k i => ((s.fileTable k i).map OpenFile.file).toList
  | .executable p => (s.executable p).toList

/-- `fd` is in the table of `PCB` `k`. -/
def State.Has (s : State) (k fd : Nat) : Prop := ∃ i f, s.fileTable k i = some f ∧ f.file = fd

structure Books (s : State) : Prop where
  tracks : Tracks (fun fd => s.isOpen fd = true) s.held
  size : ∀ k i, FileTable.size ≤ i → s.fileTable k i = none
  has : ∀ k fd, s.Has k fd → s.log.count (.opened k fd) = s.log.count (.closed k fd) + 1
  hasNot : ∀ k fd, ¬s.Has k fd → s.log.count (.opened k fd) = s.log.count (.closed k fd)

section Books

variable {s : State} {k i : Nat} {f : OpenFile}

theorem mem_held_entry {fd : Nat} :
    fd ∈ s.held (.entry k i) ↔ ∃ f, s.fileTable k i = some f ∧ f.file = fd := by
  simp [State.held]

theorem setFile_apply (s : State) (k i : Nat) (f : Option OpenFile) (k' i' : Nat) :
    (s.setFile k i f).fileTable k' i' = if k' = k ∧ i' = i then f else s.fileTable k' i' := by
  by_cases hk : k' = k
  · subst hk
    by_cases hi : i' = i
    · subst hi
      simp [State.setFile]
    · simp [State.setFile, hi]
  · simp [State.setFile, hk]

theorem held_setFile (s : State) (k i : Nat) (f : Option OpenFile) :
    (s.setFile k i f).held = Function.update s.held (.entry k i) (f.map OpenFile.file).toList := by
  funext r
  cases r with
  | entry k' i' =>
      rw [State.held, setFile_apply]
      by_cases h : k' = k ∧ i' = i
      · obtain ⟨rfl, rfl⟩ := h
        simp
      · rw [if_neg h, Function.update_of_ne]
        · rfl
        · rintro ⟨rfl, rfl⟩
          exact h ⟨rfl, rfl⟩
  | executable p => exact (Function.update_of_ne Ref.noConfusion _ _).symm

theorem held_executable (s : State) (p : Nat) (o : Option Nat) (isOpen : Nat → Bool) :
    State.held { s with executable := Function.update s.executable p o, isOpen := isOpen }
      = Function.update s.held (.executable p) o.toList := by
  funext r
  cases r with
  | entry k i => exact (Function.update_of_ne Ref.noConfusion _ _).symm
  | executable q =>
      by_cases hq : q = p
      · subst hq
        simp [State.held]
      · rw [Function.update_of_ne fun he => hq (Ref.executable.inj he)]
        simp [State.held, hq]

theorem Books.acquire (h : Books s) (hfree : s.isOpen f.file = false)
    (hnone : s.fileTable k i = none) (hi : i < FileTable.size) : Books (s.acquire k i f) := by
  have hempty : s.held (.entry k i) = [] := by simp [State.held, hnone]
  have hno : ∀ k', ¬s.Has k' f.file := by
    rintro k' ⟨i', f', hf', hfd⟩
    have := (h.tracks.taken f.file).mpr ⟨.entry k' i', mem_held_entry.mpr ⟨f', hf', hfd⟩⟩
    rw [hfree] at this
    cases this
  have hhas : ∀ k' fd, (s.acquire k i f).Has k' fd ↔ s.Has k' fd ∨ k = k' ∧ f.file = fd := by
    intro k' fd
    constructor
    · rintro ⟨i', f', hf', rfl⟩
      change (s.setFile k i (some f)).fileTable k' i' = some f' at hf'
      rw [setFile_apply] at hf'
      split at hf'
      next he =>
          obtain rfl := Option.some.inj hf'
          exact Or.inr ⟨he.1.symm, rfl⟩
      next => exact Or.inl ⟨i', f', hf', rfl⟩
    · rintro (⟨i', f', hf', hfd⟩ | ⟨rfl, rfl⟩)
      · refine ⟨i', f', ?_, hfd⟩
        change (s.setFile k i (some f)).fileTable k' i' = some f'
        rw [setFile_apply, if_neg]
        · exact hf'
        · rintro ⟨rfl, rfl⟩
          rw [hnone] at hf'
          cases hf'
      · refine ⟨i, f, ?_, rfl⟩
        change (s.setFile k i (some f)).fileTable k i = some f
        rw [setFile_apply, if_pos ⟨rfl, rfl⟩]
  have hopened : ∀ k' fd, (s.acquire k i f).log.count (.opened k' fd)
      = s.log.count (.opened k' fd) + if k = k' ∧ f.file = fd then 1 else 0 := by
    intro k' fd
    simp [State.acquire, List.count_cons]
  have hclosed : ∀ k' fd, (s.acquire k i f).log.count (.closed k' fd)
      = s.log.count (.closed k' fd) := by
    intro k' fd
    simp [State.acquire]
  refine ⟨?_, fun k' i' hi' => ?_, fun k' fd hh => ?_, fun k' fd hh => ?_⟩
  · have hopen : ∀ y, (s.acquire k i f).isOpen y = true ↔ s.isOpen y = true ∨ y = f.file := by
      intro y
      by_cases hy : y = f.file <;> simp [State.acquire, hy]
    have := h.tracks.take (p := .entry k i) (by rw [hfree]; decide) hopen
    rw [hempty] at this
    exact (held_setFile s k i (some f)) ▸ this
  · change (s.setFile k i (some f)).fileTable k' i' = none
    rw [setFile_apply, if_neg fun he => absurd hi (by omega)]
    exact h.size k' i' hi'
  · rw [hopened, hclosed]
    rcases (hhas k' fd).mp hh with hold | ⟨rfl, rfl⟩
    · rw [h.has k' fd hold, if_neg]
      rintro ⟨rfl, rfl⟩
      exact hno _ hold
    · rw [if_pos ⟨rfl, rfl⟩, h.hasNot _ _ (hno _)]
  · rw [hhas, not_or] at hh
    rw [hopened, hclosed, if_neg hh.2, Nat.add_zero, h.hasNot _ _ hh.1]

theorem Books.fill (h : Books s) {o : Option OpenFile} {s' : State} (hs : s.fill k i o = some s')
    (hnone : s.fileTable k i = none) (hi : i < FileTable.size) :
    Books s' ∧ s'.table = s.table ∧ ∀ k' i', ¬(k' = k ∧ i' = i) →
      s'.fileTable k' i' = s.fileTable k' i' := by
  cases o with
  | none =>
      obtain rfl := Option.some.inj hs
      exact ⟨h, rfl, fun _ _ _ => rfl⟩
  | some f =>
      rw [State.fill] at hs
      split at hs
      next => cases hs
      next hfree =>
          obtain rfl := Option.some.inj hs
          refine ⟨h.acquire (by simpa using hfree) hnone hi, rfl, fun k' i' hne => ?_⟩
          exact (setFile_apply s k i (some f) k' i').trans (if_neg hne)

/-- An entry's descriptor is open. -/
theorem Books.isOpen (h : Books s) (hf : s.fileTable k i = some f) : s.isOpen f.file = true :=
  (h.tracks.taken f.file).mpr ⟨.entry k i, mem_held_entry.mpr ⟨f, hf, rfl⟩⟩

/-- No other entry has it. -/
theorem Books.eq_of_file (h : Books s) {k' i' : Nat} {f' : OpenFile}
    (hf : s.fileTable k i = some f) (hf' : s.fileTable k' i' = some f')
    (heq : f'.file = f.file) : k' = k ∧ i' = i := by
  by_contra hne
  refine h.tracks.disjoint (.entry k' i') (.entry k i) ?_ f.file
    (mem_held_entry.mpr ⟨f', hf', heq⟩) (mem_held_entry.mpr ⟨f, hf, rfl⟩)
  rintro ⟨rfl, rfl⟩
  exact hne ⟨rfl, rfl⟩

theorem Books.release (h : Books s) (hf : s.fileTable k i = some f) :
    Books (s.release k i f) ∧ (s.release k i f).table = s.table
      ∧ (s.release k i f).fileTable = (s.setFile k i none).fileTable := by
  have hopen := h.isOpen hf
  rw [State.release, if_pos hopen]
  refine ⟨?_, rfl, rfl⟩
  have hentry : s.held (.entry k i) = [f.file] := by simp [State.held, hf]
  generalize hs' : ({ s.setFile k i none with
    isOpen := Function.update s.isOpen f.file false,
    log := .closed k f.file :: s.log } : State) = s'
  have htable : s'.fileTable = (s.setFile k i none).fileTable := by rw [← hs']
  have hhas : ∀ k' fd, s'.Has k' fd ↔ s.Has k' fd ∧ ¬(k = k' ∧ f.file = fd) := by
    intro k' fd
    constructor
    · rintro ⟨i', f', hf', rfl⟩
      rw [htable, setFile_apply] at hf'
      split at hf'
      next => cases hf'
      next hne =>
          refine ⟨⟨i', f', hf', rfl⟩, ?_⟩
          rintro ⟨rfl, heq⟩
          exact hne (h.eq_of_file hf hf' heq.symm)
    · rintro ⟨⟨i', f', hf', rfl⟩, hne⟩
      refine ⟨i', f', ?_, rfl⟩
      rw [htable, setFile_apply, if_neg]
      · exact hf'
      · rintro ⟨rfl, rfl⟩
        rw [hf] at hf'
        exact hne ⟨rfl, congrArg OpenFile.file (Option.some.inj hf')⟩
  have hopened : ∀ k' fd, s'.log.count (.opened k' fd) = s.log.count (.opened k' fd) := by
    intro k' fd
    rw [← hs']
    simp
  have hclosed : ∀ k' fd, s'.log.count (.closed k' fd)
      = s.log.count (.closed k' fd) + if k = k' ∧ f.file = fd then 1 else 0 := by
    intro k' fd
    rw [← hs']
    simp [List.count_cons]
  refine ⟨?_, fun k' i' hi' => ?_, fun k' fd hh => ?_, fun k' fd hh => ?_⟩
  · have hopen : ∀ y, s'.isOpen y = true ↔ s.isOpen y = true ∧ y ≠ f.file := by
      intro y
      rw [← hs']
      by_cases hy : y = f.file <;> simp [hy]
    have := h.tracks.give (p := .entry k i) hentry hopen
    have hheld : s'.held = Function.update s.held (.entry k i) [] := by
      rw [← hs']
      exact held_setFile s k i none
    rwa [hheld]
  · rw [htable, setFile_apply]
    split
    next => rfl
    next => exact h.size k' i' hi'
  · obtain ⟨hold, hne⟩ := (hhas k' fd).mp hh
    rw [hopened, hclosed, if_neg hne, h.has k' fd hold]
  · rw [hopened, hclosed]
    split
    next he =>
        obtain ⟨rfl, rfl⟩ := he
        exact h.has _ _ ⟨i, f, hf, rfl⟩
    next hne =>
        rw [hhas, not_and_not_right] at hh
        exact h.hasNot _ _ fun hold => hne (hh hold)

/-- The start of a `Load`. -/
theorem Books.load {p fd : Nat} (h : Books s) (hnone : s.executable p = none)
    (hfree : s.isOpen fd = false) :
    Books { s with
      executable := Function.update s.executable p (some fd)
      isOpen := Function.update s.isOpen fd true } := by
  have hempty : s.held (.executable p) = [] := by simp [State.held, hnone]
  refine ⟨?_, h.size, h.has, h.hasNot⟩
  have hopen : ∀ y, Function.update s.isOpen fd true y = true ↔ s.isOpen y = true ∨ y = fd := by
    intro y
    by_cases hy : y = fd <;> simp [hy]
  have := h.tracks.take (p := .executable p) (by rw [hfree]; decide) hopen
  rw [hempty, List.nil_append] at this
  rw [held_executable]
  exact this

/-- The end of a `Load`. -/
theorem Books.loaded {p : Nat} {s' : State} (h : Books s) (hs : s.loaded p = some s') :
    Books s' ∧ s'.table = s.table ∧ s'.fileTable = s.fileTable := by
  rw [State.loaded] at hs
  split at hs
  next => cases hs
  next fd hfd =>
      have hheld : s.held (.executable p) = [fd] := by simp [State.held, hfd]
      have hopen : s.isOpen fd = true :=
        (h.tracks.taken fd).mpr ⟨.executable p, by rw [hheld]; exact List.mem_singleton_self fd⟩
      rw [if_pos hopen] at hs
      obtain rfl := Option.some.inj hs
      refine ⟨⟨?_, h.size, h.has, h.hasNot⟩, rfl, rfl⟩
      have hclosed : ∀ y, Function.update s.isOpen fd false y = true
          ↔ s.isOpen y = true ∧ y ≠ fd := by
        intro y
        by_cases hy : y = fd <;> simp [hy]
      have := h.tracks.give hheld hclosed
      rw [held_executable]
      exact this

end Books

end Descriptors

end Nachos
