import Nachos.DiskFiles
import Nachos.Lock

/-!
# Synchronous use of an asynchronous device

`SynchDisk` of `filesys/synchdisk.cc` over `Disk` of `machine/disk.cc`, and
`SynchConsoleOutput` of `userprog/synchconsole.cc` over `ConsoleOutput` of
`machine/console.cc`. The two are the same protocol: a call acquires the
lock, gives the device its request, waits on a semaphore that starts at 0 and
releases the lock. The device asserts that it is not at work, does the input
or output at once and schedules an interrupt, whose handler ends the work and
calls `V`. What a request does to the data of the device is the parameter
`perform`; when the interrupt comes is up to the environment.

Requests are numbered in the order in which they are issued. Beside the
program's data the state records which interrupts have come (`completed`),
which of them have given the semaphore a unit that is still there (`units`),
whose unit each caller took (`consumed`, the caller's own request first), and
which calls have returned. `Phase` is the joint state of lock, semaphore and
device that every step keeps.
-/

namespace Nachos

namespace SynchDevice

open Run CInt

/-- What a request of type `R` does to the data `D` of a device, and what it
answers; `none` is a failed assertion about the request itself. -/
structure Device (R D A : Type) where
  perform : D → R → Option (D × A)

/-- Where a thread is in a call. -/
inductive Pc (R A : Type) where
  | idle
  /-- in `P` of `Acquire` -/
  | acquire (r : R)
  /-- that `P` has taken the unit -/
  | acquired (r : R)
  /-- the request is issued: in `P` of the semaphore -/
  | waiting (id : Nat) (answer : A)
  /-- that `P` has taken a unit -/
  | releasing (id : Nat) (answer : A)

/-- The thread has passed `P` of `Acquire` and not yet `V` of `Release`. -/
def Pc.Inside {R A : Type} : Pc R A → Prop
  | acquired _ => True
  | waiting _ _ => True
  | releasing _ _ => True
  | _ => False

structure State (T R D A : Type) where
  data : D
  active : Bool
  pending : List Nat
  lock : Lock T
  semaphore : Semaphore T
  pc : T → Pc R A
  issued : Nat
  completed : List Nat
  units : List Nat
  consumed : List (Nat × Nat)
  returned : List (T × Nat × A)

inductive Action (T R : Type) where
  | call (t : T) (r : R)
  | run (t : T)
  | callBack (id : Nat)

variable {T R D A : Type}

namespace State

/-- The constructors, no thread being in a call. -/
def init (data : D) : State T R D A :=
  ⟨data, false, [], .new, .new 0, fun _ => .idle, 0, [], [], [], []⟩

variable [DecidableEq T]

def goto (s : State T R D A) (t : T) (next : Pc R A) : State T R D A :=
  { s with pc := Function.update s.pc t next }

/-- The thread sleeps in the queue of a semaphore. -/
def Asleep (s : State T R D A) (t : T) : Prop := t ∈ s.lock.queue ∨ t ∈ s.semaphore.queue

instance (s : State T R D A) (t : T) : Decidable (s.Asleep t) :=
  inferInstanceAs (Decidable (_ ∨ _))

/-- A pass of `P` in `Acquire`. -/
def acquire (s : State T R D A) (t : T) (r : R) : State T R D A :=
  if (s.lock.acquire t).1 then
    ({ s with lock := (s.lock.acquire t).2 } : State T R D A).goto t (.acquired r)
  else { s with lock := (s.lock.acquire t).2 }

/-- `Disk::ReadRequest` and `WriteRequest`, `ConsoleOutput::PutChar`. -/
def request (dev : Device R D A) (s : State T R D A) (t : T) (r : R) : Option (State T R D A) :=
  if s.active then none
  else
    (dev.perform s.data r).map fun (data, answer) =>
      ({ s with
          data := data
          active := true
          pending := s.pending ++ [s.issued]
          issued := s.issued + 1 } : State T R D A).goto t (.waiting s.issued answer)

/-- A pass of `P` of the semaphore. -/
def wait (s : State T R D A) (t : T) (id : Nat) (answer : A) : State T R D A :=
  if (s.semaphore.p t).1 then
    ({ s with
        semaphore := (s.semaphore.p t).2
        units := s.units.drop 1
        consumed := s.consumed ++ (s.units.take 1).map fun unit => (id, unit) }
      : State T R D A).goto t (.releasing id answer)
  else { s with semaphore := (s.semaphore.p t).2 }

/-- `Release`, and the call returns. -/
def release (s : State T R D A) (t : T) (id : Nat) (answer : A) : Option (State T R D A) :=
  (s.lock.release t).map fun l =>
    ({ s with lock := l, returned := s.returned ++ [(t, id, answer)] } : State T R D A).goto t .idle

/-- `Disk::CallBack` with `SynchDisk::CallBack`, `ConsoleOutput::CallBack` with
`SynchConsoleOutput::CallBack`. -/
def callBack (s : State T R D A) (id : Nat) : State T R D A :=
  { s with
    active := false
    pending := s.pending.erase id
    semaphore := s.semaphore.v.2
    completed := s.completed ++ [id]
    units := s.units ++ [id] }

def advance (dev : Device R D A) (s : State T R D A) (t : T) : Option (State T R D A) :=
  match s.pc t with
  | .idle => none
  | .acquire r => some (s.acquire t r)
  | .acquired r => ({ s with lock := s.lock.take t } : State T R D A).request dev t r
  | .waiting id answer => some (s.wait t id answer)
  | .releasing id answer => s.release t id answer

end State

variable [DecidableEq T]

def step (dev : Device R D A) (s : State T R D A) : Action T R → Option (State T R D A)
  | .call t r =>
      match s.pc t with
      | .idle => some (s.goto t (.acquire r))
      | _ => none
  | .run t => if s.Asleep t then none else s.advance dev t
  | .callBack id => if id ∈ s.pending then some (s.callBack id) else none

/-! ## Lock, semaphore and device -/

/-- No request is out; one is, and its caller waits; its interrupt has come,
and its caller has not yet passed the semaphore. -/
inductive Phase (s : State T R D A) : Prop
  | free (hactive : s.active = false) (hpending : s.pending = []) (hunits : s.units = [])
      (hvalue : s.semaphore.value = 0) (hnone : ∀ t id answer, s.pc t ≠ .waiting id answer)
  | busy (t : T) (id : Nat) (answer : A) (hpc : s.pc t = .waiting id answer)
      (hpending : s.pending = [id]) (hunits : s.units = []) (hvalue : s.semaphore.value = 0)
  | done (t : T) (id : Nat) (answer : A) (hpc : s.pc t = .waiting id answer)
      (hactive : s.active = false) (hpending : s.pending = []) (hunits : s.units = [id])
      (hvalue : s.semaphore.value = 1) (hcompleted : id ∈ s.completed)

structure Inv (s : State T R D A) : Prop where
  guards : s.lock.Guards fun t => (s.pc t).Inside
  phase : Phase s
  own : ∀ c ∈ s.consumed, c.1 = c.2
  releasing : ∀ t id answer, s.pc t = .releasing id answer → id ∈ s.completed
  returned : ∀ r ∈ s.returned, r.2.1 ∈ s.completed

omit [DecidableEq T] in
theorem Inv.init (data : D) : Inv (State.init data : State T R D A) := by
  refine ⟨Lock.Guards.new.congr rfl fun _ => Iff.rfl, .free rfl rfl rfl rfl fun _ _ _ h => ?_,
    fun _ hc => absurd hc List.not_mem_nil, fun _ _ _ h => ?_,
    fun _ hr => absurd hr List.not_mem_nil⟩
  · simp [State.init] at h
  · simp [State.init] at h

variable {dev : Device R D A} {s s' : State T R D A} {t : T}

theorem pc_goto_self (s : State T R D A) (t : T) (next : Pc R A) : (s.goto t next).pc t = next := by
  simp only [State.goto, Function.update_self]

theorem pc_goto_of_ne (s : State T R D A) {u : T} (hu : u ≠ t) (next : Pc R A) :
    (s.goto t next).pc u = s.pc u := by
  simp only [State.goto, Function.update_of_ne hu]

/-- A program counter that another thread has, or that `t` had or has. -/
theorem pc_goto_cases {next : Pc R A} {u : T} {p : Pc R A} (h : (s.goto t next).pc u = p) :
    (u = t ∧ next = p) ∨ (u ≠ t ∧ s.pc u = p) := by
  by_cases hu : u = t
  · subst hu
    exact Or.inl ⟨rfl, (pc_goto_self s u next).symm.trans h⟩
  · exact Or.inr ⟨hu, (pc_goto_of_ne s hu next).symm.trans h⟩

omit [DecidableEq T] in
theorem Phase.congr (h : Phase s) (hactive : s'.active = s.active)
    (hpending : s'.pending = s.pending)
    (hunits : s'.units = s.units) (hvalue : s'.semaphore.value = s.semaphore.value)
    (hpc : s'.pc = s.pc) (hcompleted : s'.completed = s.completed) : Phase s' := by
  cases h with
  | free ha hp hu hv hnone =>
      exact .free (hactive.trans ha) (hpending.trans hp) (hunits.trans hu) (hvalue.trans hv)
        (by rwa [hpc])
  | busy u id answer hw hp hu hv =>
      exact .busy u id answer (by rwa [hpc]) (hpending.trans hp) (hunits.trans hu) (hvalue.trans hv)
  | done u id answer hw ha hp hu hv hc =>
      exact .done u id answer (by rwa [hpc]) (hactive.trans ha) (hpending.trans hp)
        (hunits.trans hu) (hvalue.trans hv) (by rwa [hcompleted])

/-- A step of a thread that does not wait for the device, neither before nor
after. -/
theorem Phase.goto {next : Pc R A} (h : Phase s) (hpc : ∀ id answer, s.pc t ≠ .waiting id answer)
    (hnext : ∀ id answer, next ≠ .waiting id answer) : Phase (s.goto t next) := by
  have hkeep : ∀ u id answer, s.pc u = .waiting id answer →
      (s.goto t next).pc u = .waiting id answer := fun u id answer hu => by
    have hne : u ≠ t := by
      rintro rfl
      exact hpc id answer hu
    rw [pc_goto_of_ne s hne, hu]
  cases h with
  | free ha hp hu hv hnone =>
      refine .free ha hp hu hv fun u id answer hc => ?_
      rcases pc_goto_cases hc with ⟨-, hc⟩ | ⟨-, hc⟩
      · exact hnext id answer hc
      · exact hnone u id answer hc
  | busy u id answer hpc hp hu hv => exact .busy u id answer (hkeep u id answer hpc) hp hu hv
  | done u id answer hpc ha hp hu hv hc =>
      exact .done u id answer (hkeep u id answer hpc) ha hp hu hv hc

/-- Such a step keeps the invariant if it keeps mutual exclusion. -/
theorem Inv.goto {next : Pc R A} {l : Lock T} (h : Inv s)
    (hguards : l.Guards fun u => ((s.goto t next).pc u).Inside)
    (hpc : ∀ id answer, s.pc t ≠ .waiting id answer)
    (hnext : ∀ id answer, next ≠ .waiting id answer)
    (hrel : ∀ id answer, next ≠ .releasing id answer) :
    Inv ({ s with lock := l }.goto t next) := by
  have hphase : Phase { s with lock := l } := h.phase.congr rfl rfl rfl rfl rfl rfl
  refine ⟨hguards, hphase.goto hpc hnext, h.own, fun u id answer hu => ?_, h.returned⟩
  rcases pc_goto_cases hu with ⟨-, hc⟩ | ⟨-, hc⟩
  · exact absurd hc (hrel id answer)
  · exact h.releasing u id answer hc

theorem Inv.acquire {r : R} (h : Inv s) (hpc : s.pc t = .acquire r) : Inv (s.acquire t r) := by
  rcases s.lock.acquire_cases t with ⟨h0, heq⟩ | ⟨h0, heq⟩
  · rw [State.acquire, heq]
    exact ⟨h.guards.congr h0.symm fun _ => Iff.rfl, h.phase.congr rfl rfl rfl rfl rfl rfl, h.own,
      h.releasing, h.returned⟩
  · rw [State.acquire, heq]
    refine h.goto (h.guards.enter h0 rfl (Lock.inside_update_enter trivial)) ?_ ?_ ?_
    · rw [hpc]
      simp
    · simp
    · simp

omit [DecidableEq T] in
/-- The holder of the lock that has issued no request finds the device free. -/
theorem Inv.free {r : R} (h : Inv s) (hpc : s.pc t = .acquired r) :
    s.active = false ∧ s.pending = [] ∧ s.units = [] ∧ s.semaphore.value = 0 := by
  have hin : (s.pc t).Inside := by rw [hpc]; trivial
  have hother : ∀ u id answer, s.pc u ≠ .waiting id answer := fun u id answer hu => by
    have hu' : (s.pc u).Inside := by rw [hu]; trivial
    rw [h.guards.unique hu' hin, hpc] at hu
    simp at hu
  cases h.phase with
  | free ha hp hu hv hnone => exact ⟨ha, hp, hu, hv⟩
  | busy u id answer hu => exact absurd hu (hother u id answer)
  | done u id answer hu => exact absurd hu (hother u id answer)

theorem Inv.request {r : R} (h : Inv s) (hpc : s.pc t = .acquired r)
    (hs : ({ s with lock := s.lock.take t } : State T R D A).request dev t r = some s') :
    Inv s' := by
  obtain ⟨hactive, hpending, hunits, hvalue⟩ := h.free hpc
  rw [State.request, if_neg (by rw [hactive]; exact Bool.false_ne_true)] at hs
  obtain ⟨⟨data, answer⟩, -, rfl⟩ := Option.map_eq_some_iff.mp hs
  have hin : (s.pc t).Inside := by rw [hpc]; trivial
  refine ⟨?_, .busy t s.issued answer (pc_goto_self _ t _) ?_ hunits hvalue, h.own,
    fun u id answer' hu => ?_, h.returned⟩
  · exact h.guards.congr rfl (Lock.inside_update_same (iff_of_true trivial hin))
  · change s.pending ++ [s.issued] = [s.issued]
    rw [hpending, List.nil_append]
  · rcases pc_goto_cases hu with ⟨-, hc⟩ | ⟨-, hc⟩
    · simp at hc
    · exact h.releasing u id answer' hc

/-- The unit that a waiting caller takes is that of its own request. -/
theorem Inv.wait {id : Nat} {answer : A} (h : Inv s) (hpc : s.pc t = .waiting id answer) :
    Inv (s.wait t id answer) := by
  have hin : (s.pc t).Inside := by rw [hpc]; trivial
  have hone : ∀ u id' answer', s.pc u = .waiting id' answer' → u = t ∧ id' = id :=
    fun u id' answer' hu => by
      have heq := h.guards.unique (by rw [hu]; trivial) hin
      rw [heq, hpc] at hu
      exact ⟨heq, ((Pc.waiting.injEq ..).mp hu).1.symm⟩
  cases hphase : h.phase with
  | free ha hp hu hv hnone => exact absurd hpc (hnone t id answer)
  | busy u id' answer' hu hp hun hv =>
      rw [State.wait, Semaphore.p_sleep hv]
      exact ⟨h.guards, .busy u id' answer' hu hp hun hv, h.own, h.releasing, h.returned⟩
  | done u id' answer' hu ha hp hun hv hc =>
      obtain ⟨-, rfl⟩ := hone u id' answer' hu
      rw [State.wait, Semaphore.p_pass (by rw [hv]; exact Int.one_ne_zero)]
      refine ⟨?_, .free ha hp ?_ ?_ fun v id'' answer'' hv' => ?_, fun c hmem => ?_,
        fun v id'' answer'' hv' => ?_, h.returned⟩
      · exact h.guards.congr rfl (Lock.inside_update_same (iff_of_true trivial hin))
      · change s.units.drop 1 = []
        rw [hun]
        rfl
      · change wrap32 (s.semaphore.value - 1) = 0
        rw [hv]
        rfl
      · rcases pc_goto_cases hv' with ⟨-, hc'⟩ | ⟨hne, hc'⟩
        · simp at hc'
        · exact hne (hone v id'' answer'' hc').1
      · change c ∈ s.consumed ++ (s.units.take 1).map (fun unit => (id', unit)) at hmem
        rw [hun] at hmem
        rcases List.mem_append.mp hmem with hmem | hmem
        · exact h.own c hmem
        · obtain rfl := List.mem_singleton.mp hmem
          rfl
      · rcases pc_goto_cases hv' with ⟨-, hc'⟩ | ⟨-, hc'⟩
        · rw [← ((Pc.releasing.injEq ..).mp hc').1]
          exact hc
        · exact h.releasing v id'' answer'' hc'

theorem Inv.release {id : Nat} {answer : A} (h : Inv s) (hpc : s.pc t = .releasing id answer)
    (hs : s.release t id answer = some s') : Inv s' := by
  obtain ⟨l, hl, rfl⟩ := Option.map_eq_some_iff.mp hs
  obtain ⟨-, rfl⟩ := Lock.release_eq_some hl
  have hin : (s.pc t).Inside := by rw [hpc]; trivial
  have hreturned : Inv { s with returned := s.returned ++ [(t, id, answer)] } := by
    refine ⟨h.guards, h.phase.congr rfl rfl rfl rfl rfl rfl, h.own, h.releasing, fun r hr => ?_⟩
    rcases List.mem_append.mp hr with hr | hr
    · exact h.returned r hr
    · obtain rfl := List.mem_singleton.mp hr
      exact h.releasing t id answer hpc
  refine hreturned.goto
    (h.guards.leave hin (Semaphore.v_value _) (Lock.inside_update_leave not_false)) ?_ ?_ ?_
  · change ∀ id' answer', s.pc t ≠ _
    rw [hpc]
    simp
  · simp
  · simp

omit [DecidableEq T] in
/-- The interrupt is that of the one request that is out. -/
theorem Inv.callBack {id : Nat} (h : Inv s) (hid : id ∈ s.pending) : Inv (s.callBack id) := by
  have hmono : ∀ {k : Nat}, k ∈ s.completed → k ∈ s.completed ++ [id] := fun hk =>
    List.mem_append_left _ hk
  refine ⟨h.guards, ?_, h.own, fun u k answer hu => hmono (h.releasing u k answer hu),
    fun r hr => hmono (h.returned r hr)⟩
  cases h.phase with
  | free ha hp hu hv hnone =>
      rw [hp] at hid
      exact absurd hid List.not_mem_nil
  | done u id answer hpc ha hp hu hv hc =>
      rw [hp] at hid
      exact absurd hid List.not_mem_nil
  | busy u k answer hpc hp hu hv =>
      rw [hp] at hid
      obtain rfl := List.mem_singleton.mp hid
      refine .done u id answer hpc rfl ?_ ?_ ?_ (List.mem_append_right _ List.mem_cons_self)
      · change s.pending.erase id = []
        rw [hp, List.erase_cons_head]
      · change s.units ++ [id] = [id]
        rw [hu, List.nil_append]
      · change s.semaphore.v.2.value = 1
        rw [Semaphore.v_value, hv]
        rfl

theorem Inv.step {a : Action T R} (h : Inv s) (hs : step dev s a = some s') : Inv s' := by
  cases a with
  | call t r =>
      simp only [SynchDevice.step] at hs
      split at hs
      next hpc =>
        obtain rfl := Option.some.inj hs
        refine h.goto (h.guards.congr rfl (Lock.inside_update_same ?_)) ?_ ?_ ?_
        · rw [hpc]
          exact Iff.rfl
        · rw [hpc]
          simp
        · simp
        · simp
      next => cases hs
  | callBack id =>
      simp only [SynchDevice.step] at hs
      split at hs
      next hid =>
        obtain rfl := Option.some.inj hs
        exact h.callBack hid
      next => cases hs
  | run t =>
      simp only [SynchDevice.step] at hs
      split at hs
      next => cases hs
      next =>
        rw [State.advance] at hs
        split at hs
        next => cases hs
        next r hpc =>
          obtain rfl := Option.some.inj hs
          exact h.acquire hpc
        next r hpc => exact h.request hpc hs
        next id answer hpc =>
          obtain rfl := Option.some.inj hs
          exact h.wait hpc
        next id answer hpc => exact h.release hpc hs

/-! ## The disk and the console -/

/-- `ReadSector(sectorNumber, data)` and `WriteSector(sectorNumber, data)`. -/
inductive DiskRequest where
  | read (sectorNumber : Int)
  | write (sectorNumber : Int) (data : List UInt8)
deriving DecidableEq

/-- `Disk`: a read answers with the bytes of the sector. -/
def disk : Device DiskRequest DiskFS.Disk (List UInt8) where
  perform
    | d, .read sectorNumber => (DiskFS.readSector d sectorNumber).map fun data => (d, data)
    | d, .write sectorNumber data => (DiskFS.writeSector d sectorNumber data).map fun d' => (d', [])

/-- `ConsoleOutput`: the characters written so far. -/
def consoleOutput : Device UInt8 (List UInt8) Unit where
  perform written ch := some (written ++ [ch], ())

/-- Both devices, used by the same threads. -/
structure System (T : Type) where
  synchDisk : State T DiskRequest DiskFS.Disk (List UInt8)
  synchConsoleOut : State T UInt8 (List UInt8) Unit

inductive System.Action (T : Type) where
  | disk (a : SynchDevice.Action T DiskRequest)
  | console (a : SynchDevice.Action T UInt8)

def System.init (d : DiskFS.Disk) : System T := ⟨.init d, .init []⟩

def System.step (s : System T) : System.Action T → Option (System T)
  | .disk a => (SynchDevice.step disk s.synchDisk a).map fun d => { s with synchDisk := d }
  | .console a =>
      (SynchDevice.step consoleOutput s.synchConsoleOut a).map fun c =>
        { s with synchConsoleOut := c }

/-- One request at a time: a caller finds the device not at work, takes only
the completion of its own request, and has returned only after it. -/
structure OneAtATime (s : State T R D A) : Prop where
  assertion : ∀ t r, s.pc t = .acquired r → s.active = false
  own : ∀ c ∈ s.consumed, c.1 = c.2
  after : ∀ r ∈ s.returned, r.2.1 ∈ s.completed

theorem oneAtATime_of_reach {data : D} (h : Reach (step dev) Any (State.init data) s) :
    OneAtATime s := by
  have hinv : Inv s := h.invariant (Inv.init data) fun _ _ _ _ hi _ hs => hi.step hs
  exact ⟨fun t r hpc => (hinv.free hpc).1, hinv.own, hinv.returned⟩

/-- **One request at a time.** In every run of any threads on the disk and the
console. -/
theorem one_request_at_a_time {d : DiskFS.Disk} {s : System T}
    (h : Reach System.step Any (System.init d) s) :
    OneAtATime s.synchDisk ∧ OneAtATime s.synchConsoleOut := by
  have hdisk : Reach (SynchDevice.step disk) Any (State.init d) s.synchDisk := by
    refine h.map System.synchDisk fun s a s' _ _ hs => ?_
    cases a with
    | disk a =>
        obtain ⟨d', hd, rfl⟩ := Option.map_eq_some_iff.mp hs
        exact Or.inr ⟨a, trivial, hd⟩
    | console a =>
        obtain ⟨c, -, rfl⟩ := Option.map_eq_some_iff.mp hs
        exact Or.inl rfl
  have hconsole : Reach (SynchDevice.step consoleOutput) Any (State.init []) s.synchConsoleOut := by
    refine h.map System.synchConsoleOut fun s a s' _ _ hs => ?_
    cases a with
    | disk a =>
        obtain ⟨d', -, rfl⟩ := Option.map_eq_some_iff.mp hs
        exact Or.inl rfl
    | console a =>
        obtain ⟨c, hc, rfl⟩ := Option.map_eq_some_iff.mp hs
        exact Or.inr ⟨a, trivial, hc⟩
  exact ⟨oneAtATime_of_reach hdisk, oneAtATime_of_reach hconsole⟩

/-- Two threads write a character each while a third reads a sector. -/
theorem one_request_at_a_time_two_writers :
    ∃ s : System (Fin 3), Reach System.step Any (System.init fun _ => 0) s
      ∧ s.synchConsoleOut.returned = [(0, 0, ()), (1, 1, ())] ∧ s.synchDisk.active = true
      ∧ OneAtATime s.synchDisk ∧ OneAtATime s.synchConsoleOut := by
  have hrun : (exec System.step Any (System.init (fun _ => 0) : System (Fin 3))
      [.console (.call 0 104), .console (.run 0), .console (.run 0), .console (.call 1 105),
        .console (.run 1), .disk (.call 2 (.read 5)), .disk (.run 2), .disk (.run 2),
        .console (.run 0), .console (.callBack 0), .console (.run 0), .console (.run 0),
        .console (.run 1), .console (.run 1), .console (.callBack 1), .console (.run 1),
        .console (.run 1)]).map (fun s => (s.synchConsoleOut.returned, s.synchDisk.active))
      = some ([(0, 0, ()), (1, 1, ())], true) := by
    decide +kernel
  obtain ⟨s, hexec, hsee⟩ := Option.map_eq_some_iff.mp hrun
  have hreach := Reach.of_exec _ hexec
  exact ⟨s, hreach, (Prod.mk.inj hsee).1, (Prod.mk.inj hsee).2, one_request_at_a_time hreach⟩

end SynchDevice

end Nachos
