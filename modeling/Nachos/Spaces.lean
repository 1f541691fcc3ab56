import Nachos.LoadConfined
import Nachos.Ownership
import Nachos.Run
import Nachos.Semaphore

/-!
# Address spaces side by side

Any number of processes that load programs, run them and exit, over one
frame bitmap and one memory: `AddrSpace::Load` taken apart at every point
where another process could be between its parts, the destructor
`~AddrSpace` frame by frame, and the memory accesses of the programs through
`Machine::ReadMem` and `WriteMem`.

`Load` holds the semaphore `addrLock` from before it looks at the bitmap
until it has taken its last frame; the destructor clears bits without it. A
`Phase` says how far a process is. Of `Load`: `lockP` is asleep in
`addrLock->P()` or woken from it, `check` holds the lock before the size
checks, `alloc i` has filled in `i` entries, `unlock ok` is before
`addrLock->V()`, `copy` before the copying, which involves no switch;
`refused` has returned `FALSE`. `user` runs its program, `clear i` has given
back `i` frames in the destructor, and `gone` has finished. Taking and
giving back frames one at a time allows more interleavings than the kernel
has, which switches only at the semaphore operations.

The table register of the machine is the process whose table it holds:
`RestoreState` sets it, when `Execute` starts a program and when the
scheduler switches to one. The entries of `pageTable` that the loop of
`Load` has not reached yet are read by nobody and left out.
-/

namespace Nachos

open CInt Run ByteMemory Machine Ownership
open AddrSpace (frameOf newEntry Regular)

namespace Spaces

/-- Why nothing runs any more: a failed assertion, or an index outside
`pageTable`. -/
inductive Fault where
  | abort
  | crash
deriving DecidableEq

inductive Phase where
  | fresh
  | lockP
  | check
  | alloc (i : Nat)
  | unlock (ok : Bool)
  | copy
  | user
  | refused
  | clear (i : Nat)
  | gone
deriving DecidableEq

/-- An `AddrSpace` with the local variables of its `Load`. -/
structure Space where
  phase : Phase
  file : File
  noffH : NoffHeader
  numPages : Nat
  pageTable : List TranslationEntry

structure State where
  frames : Frames
  addrLock : Semaphore Nat
  space : Nat → Space
  running : Nat
  stop : Option Fault

/-- `load`: process `p` calls `Load`, on a file or on one that cannot be
opened (`none`), its stack holding `stack`. `go p`: it continues the call it
is in. `exit p`: its address space is deleted. `switch p`: the scheduler
restores the table of `p`. `read` and `write` are accesses of the running
program. -/
inductive Action where
  | load (p : Nat) (stack : List UInt8) (executable : Option File)
  | go (p : Nat)
  | exit (p : Nat)
  | switch (p : Nat)
  | read (addr : Int) (size : Nat)
  | write (addr : Int) (size : Nat) (value : Int)

/-! ## State updates -/

namespace State

def halt (s : State) (why : Fault) : State := { s with stop := some why }

def setSpace (s : State) (p : Nat) (x : Space) : State :=
  { s with space := Function.update s.space p x }

def goto (s : State) (p : Nat) (ph : Phase) : State :=
  s.setSpace p { s.space p with phase := ph }

/-- One pass of `addrLock->P()`. -/
def lock (s : State) (p : Nat) : State :=
  match s.addrLock.p p with
  | (true, x) => ({ s with addrLock := x } : State).goto p .check
  | (false, x) => ({ s with addrLock := x } : State).goto p .lockP

/-- `Load` up to `addrLock->P()`. -/
def load (s : State) (p : Nat) (stack : List UInt8) (executable : Option File) : State :=
  match executable with
  | none => s.goto p .refused
  | some file =>
      let noffH := readHeader stack file
      if noffH.noffMagic ≠ noffMagic then s.halt .abort
      else (s.setSpace p { s.space p with file := file, noffH := noffH }).lock p

/-- The size checks under the lock. -/
def check (s : State) (p : Nat) : State :=
  let numPages := AddrSpace.numPages (s.space p).noffH
  if 128 < numPages then s.halt .abort
  else if s.frames.gPhysPageBitMap.numClear < numPages then
    s.setSpace p { s.space p with phase := .unlock false, numPages := 0 }
  else s.setSpace p { s.space p with phase := .alloc 0, numPages := numPages, pageTable := [] }

/-- One turn of the allocation loop, or its end. -/
def alloc (s : State) (p i : Nat) : State :=
  if i < (s.space p).numPages then
    let (physicalPage, frames) := AddrSpace.allocPage s.frames
    ({ s with frames := frames } : State).setSpace p
      { s.space p with
        phase := .alloc (i + 1)
        pageTable := (s.space p).pageTable ++ [newEntry i physicalPage] }
  else s.goto p (.unlock true)

/-- `addrLock->V()`. -/
def unlock (s : State) (p : Nat) (ok : Bool) : State :=
  ({ s with addrLock := s.addrLock.v.2 } : State).goto p (if ok then .copy else .refused)

/-- The copying, and `Execute` up to the first user instruction. -/
def copySegments (s : State) (p : Nat) : State :=
  let copied := AddrSpace.copy (s.space p).noffH.code.virtualAddr (s.space p).pageTable
    (s.space p).file (AddrSpace.reads (s.space p).noffH) s.frames.mainMemory
  match copied.outcome with
  | .returnsTrue =>
      ({ s with
          frames := ⟨s.frames.gPhysPageBitMap, copied.mainMemory⟩
          running := p } : State).goto p .user
  | .wildIndex => s.halt .crash
  | _ => s.halt .abort

/-- One turn of the destructor's loop, or its end. -/
def clear (s : State) (p i : Nat) : State :=
  if i < (s.space p).numPages then
    match (s.space p).pageTable[i]? with
    | none => s.halt .crash
    | some entry =>
        match s.frames.gPhysPageBitMap.clear entry.physicalPage with
        | none => s.halt .abort
        | some b => ({ s with frames := ⟨b, s.frames.mainMemory⟩ } : State).goto p (.clear (i + 1))
  else s.goto p .gone

/-- `p` continues the call it is in. -/
def go (s : State) (p : Nat) : Option State :=
  match (s.space p).phase with
  | .fresh | .user | .refused | .gone => none
  | .lockP => if p ∈ s.addrLock.queue then none else some (s.lock p)
  | .check => some (s.check p)
  | .alloc i => some (s.alloc p i)
  | .unlock ok => some (s.unlock p ok)
  | .copy => some (s.copySegments p)
  | .clear i => some (s.clear p i)

/-- The table with the bits a translation set. -/
def touchTable (s : State) (pageTable : List TranslationEntry) : State :=
  s.setSpace s.running { s.space s.running with pageTable := pageTable }

/-- `ReadMem` by the running program; an exception changes nothing here. -/
def read (s : State) (addr : Int) (size : Nat) : State :=
  match readMem (s.space s.running).pageTable s.frames.mainMemory addr size with
  | .ok (_, pageTable) => s.touchTable pageTable
  | .error (.raise _) => s
  | .error .assert => s.halt .abort

/-- `WriteMem` by the running program. -/
def write (s : State) (addr : Int) (size : Nat) (value : Int) : State :=
  match writeMem (s.space s.running).pageTable s.frames.mainMemory addr size value with
  | .ok (m, pageTable) =>
      ({ s with frames := ⟨s.frames.gPhysPageBitMap, m⟩ } : State).touchTable pageTable
  | .error (.raise _) => s
  | .error .assert => s.halt .abort

/-- `p` runs its program. -/
def inUser (s : State) (p : Nat) : Prop := (s.space p).phase = .user

instance (s : State) (p : Nat) : Decidable (s.inUser p) := inferInstanceAs (Decidable (_ = _))

end State

/-! ## The system -/

/-- The machine before the first program is loaded. -/
def State.init : State where
  frames := AddrSpace.freshFrames
  addrLock := .new 1
  space := fun _ => ⟨.fresh, [], .ofBytes [], 0, []⟩
  running := 0
  stop := none

/-- One step. -/
def step (s : State) (a : Action) : Option State :=
  if s.stop ≠ none then none
  else match a with
    | .load p stack executable =>
        if (s.space p).phase = .fresh then some (s.load p stack executable) else none
    | .go p => s.go p
    | .exit p => if s.inUser p then some (s.goto p (.clear 0)) else none
    | .switch p => if s.inUser p then some { s with running := p } else none
    | .read addr size => if s.inUser s.running then some (s.read addr size) else none
    | .write addr size value =>
        if s.inUser s.running then some (s.write addr size value) else none

/-- What a step does, action by action. -/
inductive Does (s : State) : Action → State → Prop where
  | load (p : Nat) (stack : List UInt8) (executable : Option File) :
      (s.space p).phase = .fresh → Does s (.load p stack executable) (s.load p stack executable)
  | go (p : Nat) {s' : State} : s.go p = some s' → Does s (.go p) s'
  | exit (p : Nat) : s.inUser p → Does s (.exit p) (s.goto p (.clear 0))
  | switch (p : Nat) : s.inUser p → Does s (.switch p) { s with running := p }
  | read (addr : Int) (size : Nat) : s.inUser s.running →
      Does s (.read addr size) (s.read addr size)
  | write (addr : Int) (size : Nat) (value : Int) : s.inUser s.running →
      Does s (.write addr size value) (s.write addr size value)

/-- **Inversion.** -/
theorem does_of_step {s s' : State} {a : Action} (hs : step s a = some s') :
    s.stop = none ∧ Does s a s' := by
  have of_guard : ∀ {g : Prop} [Decidable g] {t : State}, (g → Does s a t) →
      (if g then some t else none) = some s' → Does s a s' := by
    intro g _ t hdoes h
    split at h
    next hg =>
        obtain rfl := Option.some.inj h
        exact hdoes hg
    next => cases h
  unfold step at hs
  split at hs
  next => cases hs
  next hstop =>
      refine ⟨not_not.mp hstop, ?_⟩
      cases a with
      | load p stack executable => exact of_guard (Does.load p stack executable) hs
      | go p => exact Does.go p hs
      | exit p => exact of_guard (Does.exit p) hs
      | switch p => exact of_guard (Does.switch p) hs
      | read addr size => exact of_guard (Does.read addr size) hs
      | write addr size value => exact of_guard (Does.write addr size value) hs

/-- The programs loaded have headers whose sizes are not negative and add up
without overflow, with the code at address 0. -/
def Regularly (_ : State) : Action → Prop
  | .load _ stack (some file) => (readHeader stack file).noffMagic = noffMagic →
      Regular (readHeader stack file) ∧ (readHeader stack file).code.virtualAddr = 0
  | _ => True

/-! ## The invariant -/

/-- Holding `addrLock`. -/
def Phase.inside : Phase → Bool
  | .check | .alloc _ | .unlock _ => true
  | _ => false

/-- With a program in memory. -/
def Phase.live : Phase → Bool
  | .copy | .user => true
  | _ => false

/-- The frames a process has taken and not given back. -/
def Space.held (x : Space) : List Nat :=
  match x.phase with
  | .alloc _ | .unlock true | .copy | .user => x.pageTable.map frameOf
  | .clear i => (x.pageTable.map frameOf).drop i
  | _ => []

/-- Entries on frames of the machine. -/
def Entries (pageTable : List TranslationEntry) : Prop :=
  ∀ e ∈ pageTable, e.physicalPage = frameOf e ∧ frameOf e < 128

/-- What holds of a process in each phase, `free` frames being free. -/
def Space.OK (free : Nat) (x : Space) : Prop :=
  match x.phase with
  | .fresh | .refused | .gone | .unlock false => True
  | .lockP | .check => Regular x.noffH ∧ x.noffH.code.virtualAddr = 0
  | .alloc i => (Regular x.noffH ∧ x.noffH.code.virtualAddr = 0)
      ∧ x.numPages = AddrSpace.numPages x.noffH ∧ x.pageTable.length = i
      ∧ Entries x.pageTable ∧ i ≤ x.numPages ∧ x.numPages ≤ i + free
  | .unlock true | .copy => (Regular x.noffH ∧ x.noffH.code.virtualAddr = 0)
      ∧ x.numPages = AddrSpace.numPages x.noffH ∧ x.pageTable.length = x.numPages
      ∧ Entries x.pageTable
  | .user | .clear _ => x.pageTable.length = x.numPages ∧ Entries x.pageTable

/-- The frames every process holds. -/
def State.held (s : State) (p : Nat) : List Nat := (s.space p).held

structure Inv (s : State) : Prop where
  numBits : s.frames.gPhysPageBitMap.numBits = 128
  tracks : Tracks (fun f => s.frames.gPhysPageBitMap.testBit f = true) s.held
  ok : ∀ p, (s.space p).OK s.frames.gPhysPageBitMap.numClear
  one : ∀ p q, (s.space p).phase.inside = true → (s.space q).phase.inside = true → p = q
  lock : s.addrLock.value = 0 ∨ s.addrLock.value = 1 ∧ ∀ p, (s.space p).phase.inside = false

theorem Space.OK.mono {x : Space} {free free' : Nat} (h : x.OK free) (hle : free ≤ free') :
    x.OK free' := by
  obtain ⟨phase, file, noffH, numPages, pageTable⟩ := x
  cases phase with
  | alloc i =>
      obtain ⟨hh, hn, hl, he, hi, hr⟩ := h
      exact ⟨hh, hn, hl, he, hi, by omega⟩
  | unlock ok => cases ok <;> exact h
  | fresh | lockP | check | copy | user | refused | clear _ | gone => exact h

/-- Away from the allocation loop the free frames do not matter. -/
theorem Space.OK.of_not_inside {x : Space} {free free' : Nat} (h : x.OK free)
    (hx : x.phase.inside = false) : x.OK free' := by
  obtain ⟨phase, file, noffH, numPages, pageTable⟩ := x
  cases phase with
  | alloc i => cases hx
  | unlock ok => cases hx
  | fresh | lockP | check | copy | user | refused | clear _ | gone => exact h

namespace Inv

theorem init : Inv State.init := by
  have hnone : ∀ p, (State.init.space p).phase.inside = false := fun _ => rfl
  refine ⟨rfl, ⟨fun _ => List.nodup_nil, ?_, fun f => ?_⟩, fun _ => trivial, ?_,
    Or.inr ⟨rfl, hnone⟩⟩
  · intro p q _ f hf
    exact absurd hf List.not_mem_nil
  · constructor
    · intro hf
      have hnew : (Bitmap.new 128).testBit f = true := hf
      rw [Bitmap.testBit_new] at hnew
      cases hnew
    · rintro ⟨p, hp⟩
      exact absurd hp List.not_mem_nil
  · intro p q hp
    rw [hnone p] at hp
    cases hp

theorem held_setSpace (s : State) (p : Nat) (x : Space) :
    (s.setSpace p x).held = Function.update s.held p x.held := by
  funext q
  by_cases hq : q = p
  · subst hq
    simp [State.held, State.setSpace]
  · simp [State.held, State.setSpace, hq]

/-- How a step of `p` may treat the lock: keep it as it is, take it, or
release it. -/
inductive LockStep (old new : Phase) (l l' : Semaphore Nat) : Prop where
  | keep (hin : new.inside = old.inside) (hl : l'.value = l.value)
  | enter (hl : l.value ≠ 0) (hl' : l'.value = 0)
  | leave (hold : old.inside = true) (hnew : new.inside = false) (hl' : l'.value = 1)

/-- A step that moves one process from phase to phase and changes the bitmap
only as that process's list of frames says. -/
theorem move {s : State} (h : Inv s) {p : Nat} {x : Space} {b : Bitmap} {m : Memory}
    {l : Semaphore Nat} (r : Nat) (hbits : b.numBits = 128)
    (htracks : Tracks (fun f => b.testBit f = true) (Function.update s.held p x.held))
    (hok : x.OK b.numClear)
    (hfree : s.frames.gPhysPageBitMap.numClear ≤ b.numClear ∨ (s.space p).phase.inside = true)
    (hlock : LockStep (s.space p).phase x.phase s.addrLock l) :
    Inv (({ s with frames := ⟨b, m⟩, addrLock := l, running := r } : State).setSpace p x) := by
  have hself : (Function.update s.space p x) p = x := Function.update_self ..
  have hother : ∀ q, q ≠ p → (Function.update s.space p x) q = s.space q :=
    fun q hq => Function.update_of_ne hq ..
  refine ⟨hbits, ?_, ?_, ?_, ?_⟩
  · rw [held_setSpace]
    exact htracks
  · intro q
    by_cases hq : q = p
    · subst hq
      simp only [State.setSpace, hself]
      exact hok
    · simp only [State.setSpace, hother q hq]
      rcases hfree with hle | hin
      · exact (h.ok q).mono hle
      · refine (h.ok q).of_not_inside ?_
        by_contra hne
        exact hq (h.one q p (by simpa using hne) hin)
  · intro q q' hq hq'
    simp only [State.setSpace] at hq hq'
    by_cases hqp : q = p
    · by_cases hqp' : q' = p
      · rw [hqp, hqp']
      · subst hqp
        rw [hself] at hq
        rw [hother q' hqp'] at hq'
        cases hlock with
        | keep hin _ => exact h.one q q' (hin ▸ hq) hq'
        | enter hl _ =>
            rcases h.lock with hl' | ⟨-, hnone⟩
            · exact absurd hl' hl
            · rw [hnone q'] at hq'
              cases hq'
        | leave _ hnew _ => rw [hnew] at hq; cases hq
    · rw [hother q hqp] at hq
      by_cases hqp' : q' = p
      · subst hqp'
        rw [hself] at hq'
        cases hlock with
        | keep hin _ => exact h.one q q' hq (hin ▸ hq')
        | enter hl _ =>
            rcases h.lock with hl' | ⟨-, hnone⟩
            · exact absurd hl' hl
            · rw [hnone q] at hq
              cases hq
        | leave _ hnew _ => rw [hnew] at hq'; cases hq'
      · rw [hother q' hqp'] at hq'
        exact h.one q q' hq hq'
  · simp only [State.setSpace]
    cases hlock with
    | keep hin hl =>
        rw [hl]
        refine h.lock.imp_right fun ⟨hone, hnone⟩ => ⟨hone, fun q => ?_⟩
        by_cases hq : q = p
        · subst hq
          rw [hself, hin]
          exact hnone q
        · rw [hother q hq]
          exact hnone q
    | enter _ hl' => exact Or.inl hl'
    | leave hold hnew hl' =>
        refine Or.inr ⟨hl', fun q => ?_⟩
        by_cases hq : q = p
        · subst hq
          rw [hself]
          exact hnew
        · rw [hother q hq]
          by_contra hne
          exact hq (h.one q p (by simpa using hne) hold)

/-- The same when nothing is taken or given back. -/
theorem move_same {s : State} (h : Inv s) {p : Nat} {x : Space} (m : Memory) {l : Semaphore Nat}
    (r : Nat) (hheld : x.held = s.held p) (hok : x.OK s.frames.gPhysPageBitMap.numClear)
    (hlock : LockStep (s.space p).phase x.phase s.addrLock l) :
    Inv (({ s with frames := ⟨s.frames.gPhysPageBitMap, m⟩, addrLock := l, running := r } :
      State).setSpace p x) := by
  refine h.move r h.numBits ?_ hok (Or.inl le_rfl) hlock
  rw [hheld, Function.update_eq_self]
  exact h.tracks

theorem halt {s : State} (h : Inv s) (why : Fault) : Inv (s.halt why) :=
  ⟨h.numBits, h.tracks, h.ok, h.one, h.lock⟩

/-- `addrLock->P()` by a process that holds no frame, with its header read. -/
theorem lockP {s : State} (h : Inv s) {p : Nat} {x : Space} (hheld : s.held p = [])
    (hout : (s.space p).phase.inside = false)
    (hx : Regular x.noffH ∧ x.noffH.code.virtualAddr = 0) : Inv ((s.setSpace p x).lock p) := by
  have hgoto : ∀ l ph, ({ s.setSpace p x with addrLock := l } : State).goto p ph
      = ({ s with addrLock := l } : State).setSpace p { x with phase := ph } := by
    intro l ph
    simp [State.goto, State.setSpace]
  have haddr : (s.setSpace p x).addrLock = s.addrLock := rfl
  rw [State.lock, haddr]
  by_cases hv : s.addrLock.value = 0
  · rw [Semaphore.p_sleep hv]
    simp only [hgoto]
    exact h.move_same s.frames.mainMemory s.running hheld.symm hx
      (.keep (by rw [hout]; rfl) rfl)
  · rw [Semaphore.p_pass hv]
    simp only [hgoto]
    refine h.move_same s.frames.mainMemory s.running hheld.symm hx (.enter hv ?_)
    have hone := (h.lock.resolve_left hv).1
    simp only [hone]
    decide

theorem load {s : State} (h : Inv s) {p : Nat} {stack : List UInt8} {executable : Option File}
    (hp : (s.space p).phase = .fresh)
    (hreg : ∀ file, executable = some file → (readHeader stack file).noffMagic = noffMagic →
      Regular (readHeader stack file) ∧ (readHeader stack file).code.virtualAddr = 0) :
    Inv (s.load p stack executable) := by
  have hheld : s.held p = [] := by rw [State.held, Space.held, hp]
  have hout : (s.space p).phase.inside = false := by rw [hp]; rfl
  cases executable with
  | none =>
      exact h.move_same s.frames.mainMemory s.running hheld.symm trivial
        (.keep (by rw [hout]; rfl) rfl)
  | some file =>
      simp only [State.load]
      split
      next => exact h.halt _
      next hmagic => exact h.lockP hheld hout (hreg file rfl (not_not.mp hmagic))

theorem check {s : State} (h : Inv s) {p : Nat} (hp : (s.space p).phase = .check) :
    Inv (s.check p) := by
  have hheld : s.held p = [] := by rw [State.held, Space.held, hp]
  have hin : (s.space p).phase.inside = true := by rw [hp]; rfl
  have hok : Regular (s.space p).noffH ∧ (s.space p).noffH.code.virtualAddr = 0 := by
    have := h.ok p
    rwa [Space.OK, hp] at this
  simp only [State.check]
  split
  next => exact h.halt _
  next =>
      split
      next =>
          exact h.move_same s.frames.mainMemory s.running hheld.symm trivial
            (.keep (by rw [hin]; rfl) rfl)
      next hroom =>
          exact h.move_same s.frames.mainMemory s.running hheld.symm
            ⟨hok, rfl, rfl, nofun, Nat.zero_le _, by simp only; omega⟩
            (.keep (by rw [hin]; rfl) rfl)

theorem alloc {s : State} (h : Inv s) {p i : Nat} (hp : (s.space p).phase = .alloc i) :
    Inv (s.alloc p i) := by
  have hin : (s.space p).phase.inside = true := by rw [hp]; rfl
  have hheld : s.held p = (s.space p).pageTable.map frameOf := by rw [State.held, Space.held, hp]
  have hok := h.ok p
  rw [Space.OK, hp] at hok
  obtain ⟨hhead, hnum, hlen, hent, hi, hroom⟩ := hok
  rw [State.alloc]
  split
  next hlt =>
      obtain ⟨f, hpage, hfb, hfree, -⟩ := AddrSpace.allocPage_of_clear (k := s.frames) (by omega)
      have hframe : frameOf (newEntry i f) = f := Int.toNat_natCast f
      have hclear := Bitmap.numClear_markBit hfb hfree
      rw [hpage]
      refine h.move s.running h.numBits ?_ ?_ (Or.inr hin) (.keep (by rw [hin]; rfl) rfl)
      · have hx : Space.held { s.space p with
            phase := .alloc (i + 1)
            pageTable := (s.space p).pageTable ++ [newEntry i f] } = s.held p ++ [f] := by
          rw [hheld, Space.held, List.map_append, List.map_singleton, hframe]
        rw [hx]
        refine h.tracks.take (by rw [hfree]; decide) fun g => ?_
        rw [Bitmap.testBit_markBit hfb, Bool.or_eq_true, decide_eq_true_eq]
        exact or_comm
      · refine ⟨hhead, hnum, ?_, ?_, hlt, by simp only; omega⟩
        · rw [List.length_append, hlen]
          rfl
        · intro e he
          rcases List.mem_append.mp he with he | he
          · exact hent e he
          · rw [List.mem_singleton.mp he, hframe]
            have hbits := h.numBits
            exact ⟨rfl, by omega⟩
  next hge =>
      have hfull : (s.space p).pageTable.length = (s.space p).numPages := by omega
      exact h.move_same s.frames.mainMemory s.running hheld.symm ⟨hhead, hnum, hfull, hent⟩
        (.keep (by rw [hin]; rfl) rfl)

theorem unlock {s : State} (h : Inv s) {p : Nat} {ok : Bool}
    (hp : (s.space p).phase = .unlock ok) : Inv (s.unlock p ok) := by
  have hin : (s.space p).phase.inside = true := by rw [hp]; rfl
  have hv : s.addrLock.value = 0 := by
    rcases h.lock with hv | ⟨-, hnone⟩
    · exact hv
    · rw [hnone p] at hin
      cases hin
  have hv' : s.addrLock.v.2.value = 1 := by
    rw [Semaphore.v_value, hv]
    decide
  have hok := h.ok p
  rw [Space.OK, hp] at hok
  cases ok with
  | false =>
      have hheld : s.held p = [] := by rw [State.held, Space.held, hp]
      exact h.move_same s.frames.mainMemory s.running hheld.symm trivial (.leave hin rfl hv')
  | true =>
      have hheld : s.held p = (s.space p).pageTable.map frameOf := by
        rw [State.held, Space.held, hp]
      exact h.move_same s.frames.mainMemory s.running hheld.symm hok (.leave hin rfl hv')

theorem copySegments {s : State} (h : Inv s) {p : Nat} (hp : (s.space p).phase = .copy) :
    Inv (s.copySegments p) := by
  have hheld : s.held p = (s.space p).pageTable.map frameOf := by rw [State.held, Space.held, hp]
  have hout : (s.space p).phase.inside = false := by rw [hp]; rfl
  have hok := h.ok p
  rw [Space.OK, hp] at hok
  simp only [State.copySegments]
  split
  next => exact h.move_same _ p hheld.symm hok.2.2 (.keep (by rw [hout]; rfl) rfl)
  next => exact h.halt _
  next => exact h.halt _

/-- The destructor gives back the frame it is at. -/
theorem clear_eq {s : State} (h : Inv s) {p i : Nat} (hp : (s.space p).phase = .clear i)
    (hi : i < (s.space p).numPages) :
    ∃ e, (s.space p).pageTable[i]? = some e
      ∧ s.held p = frameOf e :: ((s.space p).pageTable.map frameOf).drop (i + 1)
      ∧ frameOf e < s.frames.gPhysPageBitMap.numBits
      ∧ s.clear p i = ({ s with frames := ⟨s.frames.gPhysPageBitMap.clearBit (frameOf e),
          s.frames.mainMemory⟩ } : State).goto p (.clear (i + 1)) := by
  have hok := h.ok p
  rw [Space.OK, hp] at hok
  obtain ⟨hlen, hent⟩ := hok
  have hlt : i < (s.space p).pageTable.length := by rw [hlen]; exact hi
  have he : (s.space p).pageTable[i]? = some ((s.space p).pageTable.get ⟨i, hlt⟩) :=
    List.getElem?_eq_getElem hlt
  have hmem := List.mem_of_getElem? he
  generalize hge : (s.space p).pageTable.get ⟨i, hlt⟩ = e at he hmem
  obtain ⟨hpage, hfr⟩ := hent e hmem
  have hbits := h.numBits
  refine ⟨e, he, ?_, by omega, ?_⟩
  · have hlt' : i < ((s.space p).pageTable.map frameOf).length := by
      rw [List.length_map]
      exact hlt
    have hget : ((s.space p).pageTable.map frameOf)[i] = frameOf e := by
      rw [List.getElem_map, ← hge]
      rfl
    rw [State.held, Space.held, hp]
    simp only
    rw [List.drop_eq_getElem_cons hlt', hget]
  · rw [State.clear, if_pos hi, he]
    simp only
    have hrange : s.frames.gPhysPageBitMap.InRange e.physicalPage := by
      rw [Bitmap.InRange]
      omega
    rw [Bitmap.clear, if_pos hrange]
    rfl

theorem clear {s : State} (h : Inv s) {p i : Nat} (hp : (s.space p).phase = .clear i) :
    Inv (s.clear p i) := by
  have hout : (s.space p).phase.inside = false := by rw [hp]; rfl
  have hok := h.ok p
  rw [Space.OK, hp] at hok
  by_cases hi : i < (s.space p).numPages
  · obtain ⟨e, he, hheld, hfb, heq⟩ := h.clear_eq hp hi
    rw [heq]
    have hbit : s.frames.gPhysPageBitMap.testBit (frameOf e) = true :=
      (h.tracks.taken _).mpr ⟨p, by rw [hheld]; exact List.mem_cons_self⟩
    have hnum : s.frames.gPhysPageBitMap.numClear
        ≤ (s.frames.gPhysPageBitMap.clearBit (frameOf e)).numClear := by
      rw [Bitmap.numClear_eq, Bitmap.numClear_eq, Bitmap.marked_clearBit hfb,
        Bitmap.numBits_clearBit]
      have := Finset.card_erase_le (s := s.frames.gPhysPageBitMap.marked) (a := frameOf e)
      omega
    refine h.move s.running h.numBits ?_ hok (Or.inl hnum) (.keep (by rw [hout]; rfl) rfl)
    refine h.tracks.give hheld fun g => ?_
    rw [Bitmap.testBit_clearBit hfb, Bool.and_eq_true, Bool.not_eq_true', decide_eq_false_iff_not]
    exact and_comm
  · rw [State.clear, if_neg hi]
    have hheld : s.held p = [] := by
      rw [State.held, Space.held, hp]
      simp only
      rw [List.drop_eq_nil_iff, List.length_map, hok.1]
      omega
    exact h.move_same s.frames.mainMemory s.running hheld.symm trivial
      (.keep (by rw [hout]; rfl) rfl)

/-- An access of the running program changes only bits of its table. -/
theorem touchTable {s : State} (h : Inv s) (m : Memory) (hrun : s.inUser s.running)
    {pt : List TranslationEntry} {i : Nat} {e : TranslationEntry} {w : Bool}
    (he : (s.space s.running).pageTable[i]? = some e)
    (hpt : pt = (s.space s.running).pageTable.set i (touch w e)) :
    Inv (({ s with frames := ⟨s.frames.gPhysPageBitMap, m⟩ } : State).touchTable pt) := by
  have hok := h.ok s.running
  rw [Space.OK, hrun] at hok
  obtain ⟨hlen, hent⟩ := hok
  have hframe : frameOf (touch w e) = frameOf e := rfl
  have hmap : pt.map frameOf = (s.space s.running).pageTable.map frameOf := by
    rw [hpt, List.map_set, hframe]
    refine List.ext_getElem? fun j => ?_
    rw [List.getElem?_set]
    split
    next hij =>
        subst hij
        rw [List.getElem?_map, he, List.length_map, if_pos (List.getElem?_eq_some_iff.mp he).1]
        rfl
    next => rfl
  refine h.move_same m s.running ?_ ?_ (.keep rfl rfl)
  · rw [State.held, Space.held, Space.held, hrun]
    exact hmap
  · simp only [Space.OK, (show (s.space s.running).phase = .user from hrun)]
    refine ⟨?_, fun e' he' => ?_⟩
    · rw [hpt, List.length_set, hlen]
    · rw [hpt] at he'
      rcases List.mem_or_eq_of_mem_set he' with hmem | rfl
      · exact hent e' hmem
      · exact hent e (List.mem_of_getElem? he)

theorem read {s : State} (h : Inv s) (hrun : s.inUser s.running) (addr : Int) (size : Nat) :
    Inv (s.read addr size) := by
  unfold State.read
  split
  next hr =>
      obtain ⟨i, e, he, hpt⟩ := readMem_table hr
      exact h.touchTable s.frames.mainMemory hrun he hpt
  next => exact h
  next => exact h.halt _

theorem write {s : State} (h : Inv s) (hrun : s.inUser s.running) (addr : Int) (size : Nat)
    (value : Int) : Inv (s.write addr size value) := by
  unfold State.write
  split
  next hw =>
      obtain ⟨i, e, he, hpt⟩ := writeMem_table hw
      exact h.touchTable _ hrun he hpt
  next => exact h
  next => exact h.halt _

theorem go {s s' : State} (h : Inv s) {p : Nat} (hs : s.go p = some s') : Inv s' := by
  unfold State.go at hs
  split at hs
  next => cases hs
  next => cases hs
  next => cases hs
  next => cases hs
  next hp =>
      split at hs
      next => cases hs
      next =>
          obtain rfl := Option.some.inj hs
          have hok := h.ok p
          rw [Space.OK, hp] at hok
          have hsame : s.setSpace p (s.space p) = s := by
            simp [State.setSpace]
          have := h.lockP (p := p) (x := s.space p) (by rw [State.held, Space.held, hp])
            (by rw [hp]; rfl) hok
          rwa [hsame] at this
  next hp => obtain rfl := Option.some.inj hs; exact h.check hp
  next hp => obtain rfl := Option.some.inj hs; exact h.alloc hp
  next hp => obtain rfl := Option.some.inj hs; exact h.unlock hp
  next hp => obtain rfl := Option.some.inj hs; exact h.copySegments hp
  next hp => obtain rfl := Option.some.inj hs; exact h.clear hp

theorem step {s s' : State} {a : Action} (h : Inv s) (hreg : Regularly s a)
    (hs : Spaces.step s a = some s') : Inv s' := by
  cases (does_of_step hs).2 with
  | load p stack executable hp =>
      refine h.load hp ?_
      rintro file rfl
      exact hreg
  | go p hgo => exact h.go hgo
  | exit p hp =>
      have hok := h.ok p
      rw [Space.OK, hp] at hok
      refine h.move_same s.frames.mainMemory s.running ?_ hok (.keep (by rw [hp]; rfl) rfl)
      rw [State.held, Space.held, Space.held, hp]
      rfl
  | switch p _ => exact ⟨h.numBits, h.tracks, h.ok, h.one, h.lock⟩
  | read addr size hrun => exact h.read hrun addr size
  | write addr size value hrun => exact h.write hrun addr size value

end Inv

end Spaces

end Nachos
