import Nachos.Bitmap
import Nachos.Rendezvous
import Nachos.Semaphore
import Mathlib.Logic.Function.Basic

/-!
# The process table

`PTable` and the protocol part of `PCB` (`threads/ptable.cc`,
`threads/pcb.cc`): the system calls `Exec`, `Join` and `Exit` of any number
of processes over one table of ten slots.

Kernel code is preempted only where interrupts are switched back on, that
is at the end of every `Semaphore::P` and `V` and of `Thread::Fork`. A
`Phase` is such a point: it says which part of which call a process still
has to run, and one step runs it up to and including its next semaphore
operation (or `Fork`). Which process moves next is left open, so the runs
of `step` are all interleavings of these parts.

Two kinds of object are numbered by one counter in the order of their
allocation: number `k` is both the `k`-th `PCB` and the thread `PCB::Exec`
makes for it, and number 0 is the first program. Slots point to `PCB`s. The
destructor of a `PCB` with a thread ends in `Thread::Finish`, which does
not return, so after `Remove` the slot's pointer stays and only the three
semaphores are gone: using one of them, a null or an out-of-range slot is
`crash`, a failed assertion is `abort`, and nothing runs after either. A
part of a call that stops the machine is recorded as the stop alone.

Three components are history and are read by no step: `creator` and
`slotOf` (who ran the `Exec` a process comes from, and the slot it got),
`joinStage` (how far its parent's `Join` has come) and `log`.
-/

namespace Nachos

open CInt Run
open Rendezvous (Stage)

namespace PTable

/-! ## The data

A `Phase` between two switch points is named after the call it is in. Of
`ExecUpdate`: `execP` is in `bmsem->P()`, `execBody` holds `bmsem` and is
before the checks, `execFork k` holds the `multex` of the new `PCB` `k` and
is before `new Thread`, `execUnlock k` before `multex->V()`, `execV` before
`bmsem->V()`; `ret` is about to return. Of `JoinUpdate(id)`: `joinInc` is in
the `multex->P()` of `IncNumWait` on `PCB` `m` and `joinIncd` holds it,
`joinWait` is before `pcb[id]->JoinWait()` and `joinSleep` asleep in it,
`joinRead` is before `GetExitCode` and `ExitRelease`, `joinRet` about to
return; all of them carry the process that occupied slot `id` when the call
was made. Of `ExitUpdate`: `exitDec` and `exitDecd` are in `DecNumWait` on
`PCB` `m`, `exitRelease` before `JoinRelease`, `exitWait` before `ExitWait`
and `exitSleep` asleep in it, `exitRemove` before `Remove`. `start` is in
`StartProcess` before `Execute`, and `gone` has called `Thread::Finish`.
-/

/-- `MAX_PROCESS`. -/
def maxProcess : Nat := 10

inductive Stop where
  | halt
  | abort
  | crash
deriving Repr, DecidableEq

/-- The table's own semaphore, and the three of each `PCB`. -/
inductive SemRef where
  | bmsem
  | joinsem (k : Nat)
  | exitsem (k : Nat)
  | multex (k : Nat)
deriving Repr, DecidableEq

inductive Phase where
  | unborn
  | start
  | user
  | execP (name : String)
  | execBody (name : String)
  | execFork (k : Nat)
  | execUnlock (k : Nat)
  | execV (pid : Int)
  | ret (result : Int)
  | joinInc (id : Int) (child m : Nat)
  | joinIncd (id : Int) (child m : Nat)
  | joinWait (id : Int) (child : Nat)
  | joinSleep (id : Int) (child m : Nat)
  | joinRead (id : Int) (child : Nat)
  | joinRet (id : Int) (child : Nat) (ec : Int)
  | exitDec (m : Nat)
  | exitDecd (m : Nat)
  | exitRelease
  | exitWait
  | exitSleep (m : Nat)
  | exitRemove
  | gone
deriving Repr, DecidableEq

/-- The data of a `PCB`. `thread` is the thread pointer; `deleted` says that
the destructor has deleted the three semaphores. -/
structure Pcb where
  parentID : Int
  exitcode : Int
  numwait : Int
  filename : String
  thread : Option Nat
  deleted : Bool

/-- The part of a `Thread` the table depends on. `name` is what
`getName()` reads when the pointer is good; a thread made by `Exec` points
into a buffer that is freed when the call returns (`none`). -/
structure Thread where
  processID : Int
  name : Option String
  phase : Phase
  blocked : Bool

inductive Event where
  | exec (p k slot : Nat)
  | exit (k : Nat) (ec : Int)
  | joinRead (p : Nat) (id : Int) (k : Nat) (ec : Int)
  | joinReturn (p : Nat) (id : Int) (k : Nat) (ec : Int)
  | removed (k : Nat)
deriving Repr, DecidableEq

structure State where
  bm : Bitmap
  pcb : Nat → Option Nat
  obj : Nat → Pcb
  thr : Nat → Thread
  sem : SemRef → Semaphore Nat
  next : Nat
  stop : Option Stop
  creator : Nat → Nat
  slotOf : Nat → Nat
  joinStage : Nat → Stage
  log : List Event

/-- What memory that the program reads before writing it holds: the word of
a fresh `Thread` at `processID`, and the text a dangling thread name points
to. -/
structure Heap where
  word : Int
  text : String

/-- `exec`, `join`, `exit`: process `p` makes the system call, and runs up
to its next switch point; for `exec`, `opens` says whether
`fileSystem->Open(name)` in `SysExec` succeeds. `load p ok`: `StartProcess`
of `p` runs `Load`, with result `ok`. `go p heap`: `p` continues the call it
is in. -/
inductive Action where
  | exec (p : Nat) (name : String) (opens : Bool)
  | join (p : Nat) (id : Int)
  | exit (p : Nat) (ec : Int)
  | load (p : Nat) (ok : Bool)
  | go (p : Nat) (heap : Heap)

/-! ## State updates -/

namespace State

def halt (s : State) (why : Stop) : State := { s with stop := some why }

def goto (s : State) (p : Nat) (ph : Phase) : State :=
  { s with thr := Function.update s.thr p { s.thr p with phase := ph } }

def setBlocked (s : State) (p : Nat) (b : Bool) : State :=
  { s with thr := Function.update s.thr p { s.thr p with blocked := b } }

def setObj (s : State) (k : Nat) (o : Pcb) : State :=
  { s with obj := Function.update s.obj k o }

def setSem (s : State) (r : SemRef) (x : Semaphore Nat) : State :=
  { s with sem := Function.update s.sem r x }

def setJoinStage (s : State) (k : Nat) (j : Stage) : State :=
  { s with joinStage := Function.update s.joinStage k j }

def record (s : State) (e : Event) : State := { s with log := e :: s.log }

/-- `pcb[i]`, with an index outside the array read as a bad pointer. -/
def pcbAt (s : State) (i : Int) : Option Nat :=
  if 0 ≤ i ∧ i < maxProcess then s.pcb i.toNat else none

/-- The semaphore behind `r` has been deleted. -/
def dangling (s : State) : SemRef → Bool
  | .bmsem => false
  | .joinsem k | .exitsem k | .multex k => (s.obj k).deleted

/-- One pass of `P` on `r` by `p`: on to `next`, or asleep at `wait`. -/
def passP (s : State) (p : Nat) (r : SemRef) (wait next : Phase) : State :=
  if s.dangling r then s.halt .crash
  else match (s.sem r).p p with
    | (true, x) => (s.setSem r x).goto p next
    | (false, x) => ((s.setSem r x).goto p wait).setBlocked p true

/-- `V` on `r` by `p`, which goes on to `next`. -/
def doV (s : State) (p : Nat) (r : SemRef) (next : Phase) : State :=
  if s.dangling r then s.halt .crash
  else match (s.sem r).v with
    | (none, x) => (s.setSem r x).goto p next
    | (some t, x) => ((s.setSem r x).goto p next).setBlocked t false

end State

/-! ## Initialization -/

/-- `PCB::PCB(id)`, then `SetFileName(name)`. -/
def Pcb.new (parentID : Int) (name : String) : Pcb :=
  { parentID := parentID, exitcode := 0, numwait := 0, filename := name,
    thread := none, deleted := false }

/-- `Thread::Thread`: `processID` is left as the heap had it. -/
def Thread.new (heap : Int) (name : Option String) (phase : Phase) : Thread :=
  { processID := heap, name := name, phase := phase, blocked := false }

/-- The three semaphores `PCB::PCB` makes for object `k`. -/
def newSems (sem : SemRef → Semaphore Nat) (k : Nat) : SemRef → Semaphore Nat
  | .bmsem => sem .bmsem
  | .joinsem j => if j = k then .new 0 else sem (.joinsem j)
  | .exitsem j => if j = k then .new 0 else sem (.exitsem j)
  | .multex j => if j = k then .new 1 else sem (.multex j)

/-- The table after `Kernel::Initialize` and `initStartProcess(name)`, with
the first program running. `heap` is the word `new Thread("main")` found at
`processID`. -/
def State.init (name : String) (heap : Int) : State where
  bm := (Bitmap.new maxProcess).markBit 0
  pcb := Function.update (fun _ => none) 0 (some 0)
  obj := fun _ => .new (-1) name
  thr := Function.update (fun _ => .new 0 none .unborn) 0 (.new heap (some "main") .user)
  sem := newSems (fun _ => .new 1) 0
  next := 1
  stop := none
  creator := fun _ => 0
  slotOf := fun _ => 0
  joinStage := fun _ => .idle
  log := []

/-! ## The system calls, part by part -/

namespace State

/-- `pcb[index] = new PCB(index)` with its name and parent. -/
def newPcb (s : State) (p : Nat) (name : String) (i : Nat) (bm : Bitmap) : State :=
  { s with
    bm := bm
    pcb := Function.update s.pcb i (some s.next)
    obj := Function.update s.obj s.next (.new (s.thr p).processID name)
    sem := newSems s.sem s.next
    next := s.next + 1
    creator := Function.update s.creator s.next p
    slotOf := Function.update s.slotOf s.next i
    log := .exec p s.next i :: s.log }

/-- `ExecUpdate` from the return of `bmsem->P()`: the refusals, or a slot, a
`PCB` in it, and `PCB::Exec` up to its `multex->P()`. -/
def execUpdate (s : State) (p : Nat) (name : String) (heap : Heap) : State :=
  if name = (s.thr p).name.getD heap.text then s.doV p .bmsem (.ret (-1))
  else match s.pcb 0 with
    | none => s.halt .crash
    | some m =>
        if name = (s.obj m).filename then s.doV p .bmsem (.ret (-1))
        else match s.bm.findAndSet with
          | (none, _) => s.doV p .bmsem (.ret (-1))
          | (some i, bm) => (s.newPcb p name i bm).passP p (.multex s.next)
              (.execFork s.next) (.execFork s.next)

/-- `PCB::Exec` from the return of `multex->P()`: the thread of child `k`,
its `processID` and the `parentID` of its `PCB`, and `Fork`. -/
def execFork (s : State) (p k : Nat) (heap : Heap) : State :=
  ({ s with
      thr := Function.update s.thr k
        { Thread.new heap.word none .start with processID := s.slotOf k }
      obj := Function.update s.obj k
        { s.obj k with thread := some k, parentID := (s.thr p).processID } } : State).goto p
    (.execUnlock k)

/-- `JoinUpdate(id)` up to the first pass of `IncNumWait`'s `multex->P()`. -/
def joinUpdate (s : State) (p : Nat) (id : Int) : State :=
  if id < 0 then s.goto p (.ret (-1))
  else match s.pcbAt id with
    | none => s.halt .crash
    | some k =>
        if (s.thr p).processID ≠ (s.obj k).parentID then s.goto p (.ret (-1))
        else match s.pcbAt (s.obj k).parentID with
          | none => s.halt .crash
          | some m => (s.setJoinStage k .begun).passP p (.multex m) (.joinInc id k m)
              (.joinIncd id k m)

/-- `pcb[id]->JoinWait()`, first or later pass, on `PCB` `m`. -/
def joinPass (s : State) (p : Nat) (id : Int) (child m : Nat) : State :=
  if s.dangling (.joinsem m) then s.halt .crash
  else match (s.sem (.joinsem m)).p p with
    | (true, x) => ((s.setSem (.joinsem m) x).setJoinStage child .waited).goto p
        (.joinRead id child)
    | (false, x) => ((s.setSem (.joinsem m) x).goto p (.joinSleep id child m)).setBlocked p true

/-- `GetExitCode` and `ExitRelease`. -/
def joinRead (s : State) (p : Nat) (id : Int) (child : Nat) : State :=
  match s.pcbAt id with
  | none => s.halt .crash
  | some k => ((s.setJoinStage child .collected).record
      (.joinRead p id k (s.obj k).exitcode)).doV p (.exitsem k)
      (.joinRet id child (s.obj k).exitcode)

/-- `ExitUpdate(ec)` up to the first pass of `DecNumWait`'s `multex->P()`. -/
def exitUpdate (s : State) (p : Nat) (ec : Int) : State :=
  if (s.thr p).processID = 0 then s.halt .halt
  else match s.bm.test (s.thr p).processID with
    | none => s.halt .abort
    | some _ =>
        match s.pcbAt (s.thr p).processID with
        | none => s.halt .crash
        | some k =>
            match s.pcbAt (s.obj k).parentID with
            | none => s.halt .crash
            | some m => ((s.setObj k { s.obj k with exitcode := ec }).record (.exit p ec)).passP p
                (.multex m) (.exitDec m) (.exitDecd m)

/-- `DecNumWait` of `PCB` `m` under its `multex`. -/
def decNumWait (s : State) (m : Nat) : State :=
  if (s.obj m).numwait > 0 then
    s.setObj m { s.obj m with numwait := wrap32 ((s.obj m).numwait - 1) }
  else s

/-- `Remove(processID)`: the bit is cleared, the `PCB`'s destructor deletes
its semaphores and finishes its thread, which must be the running one. A
`PCB` without a thread is destroyed to the end and `SysExit` finishes the
running thread itself. -/
def remove (s : State) (p : Nat) : State :=
  match s.bm.clear (s.thr p).processID with
  | none => s.halt .abort
  | some bm =>
      match s.pcbAt (s.thr p).processID with
      | none => ({ s with bm := bm } : State).goto p .gone
      | some k =>
          if (s.obj k).deleted then s.halt .crash
          else if (s.obj k).thread = some p ∨ (s.obj k).thread = none then
            ((({ s with bm := bm } : State).setObj k { s.obj k with deleted := true }).record
              (.removed k)).goto p .gone
          else s.halt .abort

/-- `p` continues from its phase to its next switch point. -/
def go (s : State) (p : Nat) (heap : Heap) : Option State :=
  match (s.thr p).phase with
  | .unborn | .start | .user | .gone => none
  | .execP name => some (s.passP p .bmsem (.execP name) (.execBody name))
  | .execBody name => some (s.execUpdate p name heap)
  | .execFork k => some (s.execFork p k heap)
  | .execUnlock k => some (s.doV p (.multex k) (.execV (s.slotOf k)))
  | .execV pid => some (s.doV p .bmsem (.ret pid))
  | .ret _ => some (s.goto p .user)
  | .joinInc id k m => some (s.passP p (.multex m) (.joinInc id k m) (.joinIncd id k m))
  | .joinIncd id k m =>
      some ((s.setObj m { s.obj m with numwait := wrap32 ((s.obj m).numwait + 1) }).doV p
        (.multex m) (.joinWait id k))
  | .joinWait id k =>
      match s.pcbAt id with
      | none => some (s.halt .crash)
      | some m => some (s.joinPass p id k m)
  | .joinSleep id k m => some (s.joinPass p id k m)
  | .joinRead id k => some (s.joinRead p id k)
  | .joinRet id k ec => some ((s.record (.joinReturn p id k ec)).goto p .user)
  | .exitDec m => some (s.passP p (.multex m) (.exitDec m) (.exitDecd m))
  | .exitDecd m => some ((s.decNumWait m).doV p (.multex m) .exitRelease)
  | .exitRelease =>
      match s.pcbAt (s.thr p).processID with
      | none => some (s.halt .crash)
      | some k => some (s.doV p (.joinsem k) .exitWait)
  | .exitWait =>
      match s.pcbAt (s.thr p).processID with
      | none => some (s.halt .crash)
      | some k => some (s.passP p (.exitsem k) (.exitSleep k) .exitRemove)
  | .exitSleep k => some (s.passP p (.exitsem k) (.exitSleep k) .exitRemove)
  | .exitRemove => some (s.remove p)

/-- `p` runs its program. -/
def inUser (s : State) (p : Nat) : Prop := (s.thr p).phase = .user

instance (s : State) (p : Nat) : Decidable (s.inUser p) := inferInstanceAs (Decidable (_ = _))

end State

/-- The part of a call that `a` runs, up to its next switch point. -/
def act (s : State) (a : Action) : Option State :=
  match a with
  | .exec p name opens =>
      if s.inUser p then
        if opens then some (s.passP p .bmsem (.execP name) (.execBody name))
        else some (s.goto p (.ret (-1)))
      else none
  | .join p id => if s.inUser p then some (s.joinUpdate p id) else none
  | .exit p ec => if s.inUser p then some (s.exitUpdate p ec) else none
  | .load p ok =>
      if (s.thr p).phase = .start then
        if ok then some (s.goto p .user) else some (s.halt .abort)
      else none
  | .go p heap => if (s.thr p).blocked then none else s.go p heap

/-- One step of the table. -/
def step (s : State) (a : Action) : Option State :=
  if s.stop ≠ none then none
  else (act s a).map fun s' => if s'.stop = none then s' else { s with stop := s'.stop }

end PTable

end Nachos
