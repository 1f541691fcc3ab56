import Nachos.Semaphore
import Mathlib.Data.List.GetD
import Mathlib.Logic.Function.Basic

/-!
# The scheduler

`Scheduler` and the context-switching part of `Thread`
(`threads/scheduler.cc`, `threads/thread.cc`) over any number of threads
and semaphores.

All of this code runs with interrupts off, so a call is atomic up to
`SWITCH`, and what happens at `SWITCH` is that the thread switched to goes
on where it left: a new thread in `Begin`, the others behind their own
`SWITCH` in `Run`. Both first call `CheckToBeDestroyed`; a thread that was
in `Yield` then returns, one that was in `P` tests the semaphore again. A
thread's `Kont` says which of these it is. A `Mode` says where the current
thread is: running, just behind `SWITCH`, or in the loop of `Sleep` that
idles until an interrupt handler has made some thread ready. In that loop
the current thread is not running; it waits on the queue it has put itself
on, unless it is finishing and there is no queue it could be on.

Failed assertions are explicit (`Fault`), and so is a `P` that is resumed
on a deleted semaphore. The theorem of this module is that in every run all
threads are accounted for, each in one place and once, and that therefore
no fault occurs.
-/

namespace Nachos

open CInt Run

namespace Sched

/-! ## The model -/

/-- `ThreadStatus`. -/
inductive ThreadStatus where
  | justCreated
  | running
  | ready
  | blocked
deriving Repr, DecidableEq

/-- The assertions in `List::Append`, `Scheduler::Run` and
`Thread::~Thread`, and the use of a deleted semaphore. -/
inductive Fault where
  | append
  | run
  | destroy
  | semaphore
deriving Repr, DecidableEq

inductive Mode where
  | running
  | switched
  | sleeping
  | finishing
deriving Repr, DecidableEq

inductive Kont where
  | begin
  | yield
  | retest (i : Nat)
deriving Repr, DecidableEq

/-- Threads and semaphores are numbered in the order of their creation;
`live` are the threads created and not yet destroyed. -/
structure State where
  next : Nat
  live : Nat → Bool
  status : Nat → ThreadStatus
  kont : Nat → Kont
  currentThread : Nat
  mode : Mode
  readyList : List Nat
  sems : List (Option (Semaphore Nat))
  toBeDestroyed : Option Nat
  failed : Option Fault

inductive Action where
  | create
  | fork (t : Nat)
  | yield
  | p (i : Nat)
  | v (i : Nat)
  | finish
  | dispatch
  | resume
  | newSem (initialValue : Int)
  | deleteSem (i : Nat)

/-- After `Kernel::Initialize`: the thread "main" runs. -/
def State.init : State where
  next := 1
  live := Function.update (fun _ => false) 0 true
  status := fun _ => .running
  kont := fun _ => .yield
  currentThread := 0
  mode := .running
  readyList := []
  sems := []
  toBeDestroyed := none
  failed := none

/-- `List<T>::Append`. -/
def append (l : List Nat) (t : Nat) : Except Fault (List Nat) :=
  if t ∈ l then .error .append else .ok (l ++ [t])

namespace State

def sem (s : State) (i : Nat) : Option (Semaphore Nat) := s.sems.getD i none

def setSem (s : State) (i : Nat) (x : Semaphore Nat) : State :=
  { s with sems := s.sems.set i (some x) }

def setStatus (s : State) (t : Nat) (st : ThreadStatus) : State :=
  { s with status := Function.update s.status t st }

def setKont (s : State) (t : Nat) (k : Kont) : State :=
  { s with kont := Function.update s.kont t k }

/-- `Scheduler::ReadyToRun`. -/
def readyToRun (s : State) (t : Nat) : Except Fault State := do
  let l ← append s.readyList t
  return { s.setStatus t .ready with readyList := l }

/-- `Scheduler::Run`, up to `SWITCH`. -/
def run (s : State) (nextThread : Nat) (finishing : Bool) : Except Fault State :=
  if finishing = true ∧ s.toBeDestroyed ≠ none then .error .run
  else .ok { s.setStatus nextThread .running with
    toBeDestroyed := if finishing then some s.currentThread else s.toBeDestroyed
    currentThread := nextThread
    mode := .switched }

/-- `Scheduler::CheckToBeDestroyed`. -/
def checkToBeDestroyed (s : State) : Except Fault State :=
  match s.toBeDestroyed with
  | none => .ok s
  | some t =>
      if t = s.currentThread then .error .destroy
      else .ok { s with live := Function.update s.live t false, toBeDestroyed := none }

/-- `Thread::Yield`. -/
def yield (s : State) : Except Fault State :=
  match s.readyList with
  | [] => .ok s
  | nextThread :: rest => do
      let s' ← { s.setKont s.currentThread .yield with readyList := rest }.readyToRun
        s.currentThread
      s'.run nextThread false

/-- One pass of the loop in `Semaphore::P`; a thread that does not get its
unit goes into `Sleep`. -/
def passP (s : State) (i : Nat) (x : Semaphore Nat) : Except Fault State :=
  match x.p s.currentThread with
  | (true, y) => .ok { (s.setSem i y).setKont s.currentThread .yield with mode := .running }
  | (false, y) => do
      let _ ← append x.queue s.currentThread
      return { ((s.setSem i y).setKont s.currentThread (.retest i)).setStatus s.currentThread
        .blocked with mode := .sleeping }

/-- `Semaphore::V`. -/
def doV (s : State) (i : Nat) (x : Semaphore Nat) : Except Fault State :=
  match x.v with
  | (none, y) => .ok (s.setSem i y)
  | (some t, y) => (s.setSem i y).readyToRun t

/-- Behind `SWITCH`. -/
def resume (s : State) : Except Fault State := do
  let s' ← s.checkToBeDestroyed
  match s'.kont s'.currentThread with
  | .begin | .yield => return { s' with mode := .running }
  | .retest i =>
      match s'.sem i with
      | none => .error .semaphore
      | some x => s'.passP i x

end State

/-- The call that `a` makes; `none` if it cannot be made in this state.
`P`, `Fork`, `Yield` and `Finish` are called by the running thread, `V` also
by interrupt handlers, who run between its instructions or when it idles. A
semaphore is deleted only when no thread is in `P` on it. -/
def act (s : State) (a : Action) : Option (Except Fault State) :=
  match a with
  | .create =>
      if s.mode = .running then
        some (.ok { (s.setStatus s.next .justCreated).setKont s.next .begin with
          next := s.next + 1
          live := Function.update s.live s.next true })
      else none
  | .fork t =>
      if s.mode = .running ∧ s.live t = true ∧ s.status t = .justCreated then
        some (s.readyToRun t)
      else none
  | .yield => if s.mode = .running then some s.yield else none
  | .p i =>
      if s.mode = .running then (s.sem i).map (s.passP i) else none
  | .v i =>
      if s.mode ≠ .switched then (s.sem i).map (s.doV i) else none
  | .finish =>
      if s.mode = .running then
        some (.ok { s.setStatus s.currentThread .blocked with mode := .finishing })
      else none
  | .dispatch =>
      if s.mode = .sleeping ∨ s.mode = .finishing then
        match s.readyList with
        | [] => none
        | nextThread :: rest =>
            some ({ s with readyList := rest }.run nextThread (s.mode == Mode.finishing))
      else none
  | .resume => if s.mode = .switched then some s.resume else none
  | .newSem n => if s.mode = .running then
      some (.ok { s with sems := s.sems ++ [some (.new n)] }) else none
  | .deleteSem i =>
      if s.mode = .running ∧ ((s.sem i).any fun x => x.queue.isEmpty) = true
          ∧ ∀ t, t < s.next → s.live t = true → s.kont t ≠ .retest i then
        some (.ok { s with sems := s.sems.set i none })
      else none

def step (s : State) (a : Action) : Option State :=
  if s.failed ≠ none then none
  else (act s a).map fun r =>
    match r with
    | .ok s' => s'
    | .error e => { s with failed := some e }

/-! ## Where a thread is -/

def queueOf : Option (Semaphore Nat) → List Nat
  | some x => x.queue
  | none => []

/-- The wait queues of all semaphores, one after the other. -/
def State.queues (s : State) : List Nat := s.sems.flatMap queueOf

/-- `t` has been created and not forked. -/
def State.created (s : State) (t : Nat) : Nat :=
  if s.live t = true ∧ s.status t = .justCreated then 1 else 0

/-- `t` is the current thread, and not waiting in `Sleep`. -/
def State.onCpu (s : State) (t : Nat) : Nat :=
  if s.currentThread = t ∧ s.mode ≠ .sleeping then 1 else 0

def State.doomed (s : State) (t : Nat) : Nat :=
  if s.toBeDestroyed = some t then 1 else 0

/-- In how many places `t` is: just created, running, on the ready list, on
wait queues, in `toBeDestroyed`. Every occurrence on a list counts. -/
def State.places (s : State) (t : Nat) : Nat :=
  s.created t + s.onCpu t + s.readyList.count t + s.queues.count t + s.doomed t

/-! ## Counting -/

section Counting

variable {s : State} {t u : Nat}

theorem created_setStatus_self (st : ThreadStatus) (hst : st ≠ .justCreated) :
    (s.setStatus t st).created t = 0 := by
  unfold State.created State.setStatus
  rw [if_neg fun h => hst (by simpa using h.2)]

theorem created_setStatus_other (st : ThreadStatus) (hu : u ≠ t) :
    (s.setStatus t st).created u = s.created u := by
  simp only [State.created, State.setStatus, Function.update_of_ne hu]

theorem onCpu_self (hm : s.mode ≠ .sleeping) : s.onCpu s.currentThread = 1 := if_pos ⟨rfl, hm⟩

theorem onCpu_other (hu : u ≠ s.currentThread) : s.onCpu u = 0 := if_neg fun h => hu h.1.symm

theorem onCpu_sleeping (hm : s.mode = .sleeping) : s.onCpu u = 0 := if_neg fun h => h.2 hm

theorem count_snoc (l : List Nat) (t u : Nat) :
    (l ++ [t]).count u = l.count u + if t = u then 1 else 0 := by
  rw [List.count_append, List.count_singleton]
  simp only [beq_iff_eq]

theorem count_front (l : List Nat) (t u : Nat) :
    (t :: l).count u = l.count u + if t = u then 1 else 0 := by
  rw [List.count_cons]
  simp only [beq_iff_eq]

end Counting

/-- Replacing one semaphore exchanges its queue for the new one. -/
theorem count_queues_set {l : List (Option (Semaphore Nat))} {i : Nat} {x : Semaphore Nat}
    (hx : l.getD i none = some x) (o : Option (Semaphore Nat)) (t : Nat) :
    ((l.set i o).flatMap queueOf).count t + x.queue.count t
      = (l.flatMap queueOf).count t + (queueOf o).count t := by
  induction l generalizing i with
  | nil => cases hx
  | cons a l ih =>
      cases i with
      | zero =>
          obtain rfl : a = some x := hx
          simp only [List.set_cons_zero, List.flatMap_cons, List.count_append, queueOf]
          omega
      | succ i =>
          have := ih (i := i) hx
          simp only [List.set_cons_succ, List.flatMap_cons, List.count_append]
          omega

theorem State.queues_setSem {s : State} {i : Nat} {x : Semaphore Nat} (hx : s.sem i = some x)
    (y : Semaphore Nat) (t : Nat) :
    (s.setSem i y).queues.count t + x.queue.count t = s.queues.count t + y.queue.count t :=
  count_queues_set hx (some y) t

theorem State.queue_le {s : State} {i : Nat} {x : Semaphore Nat} (hx : s.sem i = some x)
    (t : Nat) : x.queue.count t ≤ s.queues.count t := by
  have := s.queues_setSem hx ⟨0, []⟩ t
  rw [List.count_nil] at this
  omega

theorem State.sem_setSem {s : State} {i j : Nat} (y : Semaphore Nat) (hj : s.sem j ≠ none) :
    (s.setSem i y).sem j ≠ none := by
  unfold State.sem State.setSem at *
  rw [List.getD_eq_getElem?_getD] at *
  rw [List.getElem?_set]
  split
  · split
    · exact Option.some_ne_none _
    · rename_i hij hi
      subst hij
      rw [List.getElem?_eq_none (Nat.not_lt.mp hi)] at hj
      exact absurd rfl hj
  · exact hj

/-! ## The invariant -/

structure Inv (s : State) : Prop where
  failed : s.failed = none
  places : ∀ t, s.places t = if s.live t = true then 1 else 0
  fresh : ∀ t, s.next ≤ t → s.live t = false
  destroy : s.toBeDestroyed ≠ none → s.mode = .switched
  waits : ∀ t i, s.live t = true → s.kont t = .retest i → s.sem i ≠ none

namespace Inv

variable {s s' : State} {t i : Nat}

theorem places_le (h : Inv s) (t : Nat) : s.places t ≤ 1 := by
  rw [h.places t]
  split <;> omega

theorem live_of_places (h : Inv s) (ht : 0 < s.places t) : s.live t = true := by
  rw [h.places t] at ht
  by_contra hl
  rw [if_neg hl] at ht
  exact absurd ht (Nat.lt_irrefl 0)

theorem not_mem_ready (h : Inv s) (ht : s.readyList.count t < s.places t) :
    t ∉ s.readyList := by
  have hle := h.places_le t
  exact List.count_eq_zero.mp (by omega)

end Inv

theorem readyToRun_eq {s : State} {t : Nat} (ht : t ∉ s.readyList) :
    s.readyToRun t = .ok { s.setStatus t .ready with readyList := s.readyList ++ [t] } := by
  unfold State.readyToRun append
  rw [if_neg ht]
  rfl

namespace Inv

variable {s s' : State} {t i : Nat}

/-- The thread on the CPU is nowhere else. -/
theorem current (h : Inv s) (hm : s.mode ≠ .sleeping) :
    s.live s.currentThread = true ∧ s.created s.currentThread = 0
      ∧ s.readyList.count s.currentThread = 0 ∧ s.queues.count s.currentThread = 0
      ∧ s.doomed s.currentThread = 0 := by
  have hcpu := onCpu_self hm
  have hle := h.places_le s.currentThread
  have hlive := h.live_of_places (t := s.currentThread) (by unfold State.places; omega)
  unfold State.places at hle
  exact ⟨hlive, by omega, by omega, by omega, by omega⟩

/-- The first thread on the ready list is nowhere else. -/
theorem front (h : Inv s) {r : Nat} {rest : List Nat} (hr : s.readyList = r :: rest) :
    s.live r = true ∧ s.created r = 0 ∧ s.onCpu r = 0 ∧ rest.count r = 0
      ∧ s.queues.count r = 0 ∧ s.doomed r = 0 := by
  have hcount : s.readyList.count r = rest.count r + 1 := by
    rw [hr, count_front, if_pos rfl]
  have hle := h.places_le r
  have hlive := h.live_of_places (t := r) (by unfold State.places; omega)
  unfold State.places at hle
  exact ⟨hlive, by omega, by omega, by omega, by omega, by omega⟩

/-- A thread on a wait queue is nowhere else. -/
theorem queued (h : Inv s) {x : Semaphore Nat} (hx : s.sem i = some x) {t : Nat} {q : List Nat}
    (hq : x.queue = t :: q) :
    s.created t = 0 ∧ s.onCpu t = 0 ∧ s.readyList.count t = 0 ∧ s.doomed t = 0 := by
  have hqueue := s.queue_le hx t
  rw [hq, count_front, if_pos rfl] at hqueue
  have hle := h.places_le t
  unfold State.places at hle
  exact ⟨by omega, by omega, by omega, by omega⟩

/-- A step that only takes threads from one place to another. -/
theorem moved (h : Inv s) (hlive : s'.live = s.live) (hnext : s'.next = s.next)
    (hfailed : s'.failed = none) (hplaces : ∀ u, s'.places u = s.places u)
    (hdestroy : s'.toBeDestroyed ≠ none → s'.mode = .switched)
    (hwaits : ∀ t i, s.live t = true → s'.kont t = .retest i → s'.sem i ≠ none) : Inv s' where
  failed := hfailed
  places u := by rw [hplaces u, hlive, h.places u]
  fresh t ht := by
    rw [hnext] at ht
    rw [hlive]
    exact h.fresh t ht
  destroy := hdestroy
  waits t i ht := by
    rw [hlive] at ht
    exact hwaits t i ht

theorem fork (h : Inv s) (ht : s.live t = true) (hst : s.status t = .justCreated) :
    Inv { s.setStatus t .ready with readyList := s.readyList ++ [t] } := by
  refine h.moved rfl rfl h.failed (fun u => ?_) h.destroy h.waits
  change (s.setStatus t .ready).created u + s.onCpu u + (s.readyList ++ [t]).count u
    + s.queues.count u + s.doomed u = s.places u
  unfold State.places
  rw [count_snoc]
  by_cases hut : u = t
  · subst hut
    rw [created_setStatus_self .ready nofun, show s.created u = 1 from if_pos ⟨ht, hst⟩, if_pos rfl]
    omega
  · rw [created_setStatus_other _ hut, if_neg (Ne.symm hut)]
    omega

theorem create (h : Inv s) :
    Inv { (s.setStatus s.next .justCreated).setKont s.next .begin with
      next := s.next + 1
      live := Function.update s.live s.next true } := by
  have hnext : s.live s.next = false := h.fresh s.next le_rfl
  refine ⟨h.failed, fun u => ?_, fun u hu => ?_, h.destroy, fun u j hu hk => ?_⟩
  · have hu := h.places u
    have h0 : s.places s.next = 0 := by rw [h.places, hnext, if_neg nofun]
    simp only [State.places, State.created] at hu h0 ⊢
    by_cases hun : u = s.next
    · subst hun
      rw [if_pos ⟨Function.update_self _ _ _, Function.update_self _ _ _⟩,
        if_pos (Function.update_self _ _ _)]
      change 1 + s.onCpu s.next + s.readyList.count s.next + s.queues.count s.next
        + s.doomed s.next = 1
      omega
    · simp only [State.setStatus, State.setKont, Function.update_of_ne hun]
      exact hu
  · have hun : u ≠ s.next := by
      change s.next + 1 ≤ u at hu
      omega
    exact (Function.update_of_ne hun _ _).trans (h.fresh u (Nat.le_of_succ_le hu))
  · by_cases hun : u = s.next
    · subst hun
      simp [State.setKont] at hk
    · refine h.waits u j ?_ ?_
      · simpa [hun] using hu
      · simpa [State.setKont, State.setStatus, hun] using hk

theorem yield (h : Inv s) (hm : s.mode = .running) : ∃ s', s.yield = .ok s' ∧ Inv s' := by
  have hns : s.mode ≠ .sleeping := by rw [hm]; nofun
  obtain ⟨_, hc, hcr, hcq, hcd⟩ := h.current hns
  unfold State.yield
  split
  · exact ⟨s, rfl, h⟩
  · rename_i r rest hr
    obtain ⟨_, hrc, hrcpu, hrr, hrq, hrd⟩ := h.front hr
    have hne : r ≠ s.currentThread := by
      rintro rfl
      rw [onCpu_self hns] at hrcpu
      cases hrcpu
    rw [hr, count_front, if_neg hne, Nat.add_zero] at hcr
    rw [readyToRun_eq (List.count_eq_zero.mp hcr)]
    refine ⟨_, rfl, h.moved rfl rfl h.failed (fun u => ?_) (fun _ => rfl) fun t i ht hk => ?_⟩
    · change ((s.setStatus s.currentThread .ready).setStatus r .running).created u
        + (if r = u ∧ Mode.switched ≠ .sleeping then 1 else 0)
        + (rest ++ [s.currentThread]).count u + s.queues.count u + s.doomed u = s.places u
      unfold State.places
      rw [hr, count_snoc, count_front]
      by_cases hur : u = r
      · subst hur
        rw [created_setStatus_self .running nofun, if_pos ⟨rfl, nofun⟩, if_neg (Ne.symm hne),
          if_pos rfl]
        omega
      · rw [created_setStatus_other _ hur, if_neg fun hh => hur hh.1.symm, if_neg (Ne.symm hur)]
        by_cases huc : u = s.currentThread
        · subst huc
          rw [created_setStatus_self .ready nofun, if_pos rfl, onCpu_self hns]
          omega
        · rw [created_setStatus_other _ huc, if_neg (Ne.symm huc), onCpu_other huc]
    · refine h.waits t i ht ?_
      by_cases htc : t = s.currentThread
      · subst htc
        simp [State.setKont, State.setStatus] at hk
      · simpa [State.setKont, State.setStatus, htc] using hk

/-- One pass of `P`, by a running thread or by one that has been resumed. -/
theorem passP (h : Inv s) (hm : s.mode ≠ .sleeping) (hd : s.toBeDestroyed = none)
    {x : Semaphore Nat} (hx : s.sem i = some x) : ∃ s', s.passP i x = .ok s' ∧ Inv s' := by
  obtain ⟨_, hc, hcr, hcq, hcd⟩ := h.current hm
  have hwaits : ∀ (y : Semaphore Nat) (k : Kont), (∀ j, k = .retest j → j = i) → ∀ t j,
      s.live t = true → Function.update s.kont s.currentThread k t = .retest j →
        (s.setSem i y).sem j ≠ none := by
    intro y k hk t j ht hkt
    refine s.sem_setSem y ?_
    by_cases htc : t = s.currentThread
    · subst htc
      rw [Function.update_self] at hkt
      rw [hk j hkt, hx]
      exact Option.some_ne_none _
    · rw [Function.update_of_ne htc] at hkt
      exact h.waits t j ht hkt
  unfold State.passP
  by_cases h0 : x.value = 0
  · rw [Semaphore.p_sleep h0]
    have hnot : s.currentThread ∉ x.queue := by
      have := s.queue_le hx s.currentThread
      exact List.count_eq_zero.mp (by omega)
    dsimp only
    rw [append, if_neg hnot]
    refine ⟨_, rfl, h.moved rfl rfl h.failed (fun u => ?_) (fun hne => absurd hd hne)
      (hwaits _ (.retest i) fun j hj => by cases hj; rfl)⟩
    have hq := s.queues_setSem hx { x with queue := x.queue ++ [s.currentThread] } u
    rw [count_snoc] at hq
    change (s.setStatus s.currentThread .blocked).created u
      + (if s.currentThread = u ∧ Mode.sleeping ≠ .sleeping then 1 else 0) + s.readyList.count u
      + (s.setSem i { x with queue := x.queue ++ [s.currentThread] }).queues.count u + s.doomed u
      = s.places u
    unfold State.places
    rw [if_neg fun hh => hh.2 rfl]
    by_cases huc : u = s.currentThread
    · subst huc
      rw [created_setStatus_self .blocked nofun, onCpu_self hm]
      rw [if_pos rfl] at hq
      omega
    · rw [created_setStatus_other _ huc, onCpu_other huc]
      rw [if_neg (Ne.symm huc)] at hq
      omega
  · rw [Semaphore.p_pass h0]
    refine ⟨_, rfl, h.moved rfl rfl h.failed (fun u => ?_) (fun hne => absurd hd hne)
      (hwaits _ .yield nofun)⟩
    have hq := s.queues_setSem hx { x with value := wrap32 (x.value - 1) } u
    change s.created u + (if s.currentThread = u ∧ Mode.running ≠ .sleeping then 1 else 0)
      + s.readyList.count u
      + (s.setSem i { x with value := wrap32 (x.value - 1) }).queues.count u + s.doomed u
      = s.places u
    unfold State.places
    by_cases huc : u = s.currentThread
    · subst huc
      rw [if_pos ⟨rfl, nofun⟩, onCpu_self hm]
      dsimp only at hq
      omega
    · rw [if_neg fun hh => huc hh.1.symm, onCpu_other huc]
      dsimp only at hq
      omega

theorem doV (h : Inv s) {x : Semaphore Nat} (hx : s.sem i = some x) :
    ∃ s', s.doV i x = .ok s' ∧ Inv s' := by
  unfold State.doV
  cases hq : x.queue with
  | nil =>
      rw [Semaphore.v_of_empty hq]
      refine ⟨_, rfl, h.moved rfl rfl h.failed (fun u => ?_) h.destroy
        fun t j ht hk => s.sem_setSem _ (h.waits t j ht hk)⟩
      have hqueue := s.queues_setSem hx { x with value := wrap32 (x.value + 1) } u
      change s.created u + s.onCpu u + s.readyList.count u
        + (s.setSem i { x with value := wrap32 (x.value + 1) }).queues.count u + s.doomed u
        = s.places u
      unfold State.places
      dsimp only at hqueue
      omega
  | cons t q =>
      rw [Semaphore.v_of_cons hq]
      obtain ⟨htc, htcpu, htr, htd⟩ := h.queued hx hq
      have hnot : t ∉ (s.setSem i ⟨wrap32 (x.value + 1), q⟩).readyList :=
        List.count_eq_zero.mp htr
      dsimp only
      rw [readyToRun_eq hnot]
      refine ⟨_, rfl, h.moved rfl rfl h.failed (fun u => ?_) h.destroy
        fun t j ht hk => s.sem_setSem _ (h.waits t j ht hk)⟩
      have hqueue := s.queues_setSem hx ⟨wrap32 (x.value + 1), q⟩ u
      rw [hq, count_front] at hqueue
      change (s.setStatus t .ready).created u + s.onCpu u + (s.readyList ++ [t]).count u
        + (s.setSem i ⟨wrap32 (x.value + 1), q⟩).queues.count u + s.doomed u = s.places u
      unfold State.places
      rw [count_snoc]
      by_cases hut : u = t
      · subst hut
        rw [created_setStatus_self .ready nofun, if_pos rfl]
        rw [if_pos rfl] at hqueue
        dsimp only at hqueue
        omega
      · rw [created_setStatus_other _ hut, if_neg (Ne.symm hut)]
        rw [if_neg (Ne.symm hut)] at hqueue
        dsimp only at hqueue
        omega

theorem finish (h : Inv s) (hm : s.mode = .running) :
    Inv { s.setStatus s.currentThread .blocked with mode := .finishing } := by
  have hns : s.mode ≠ .sleeping := by rw [hm]; nofun
  obtain ⟨_, hc, _⟩ := h.current hns
  refine h.moved rfl rfl h.failed (fun u => ?_) (fun hd => ?_) h.waits
  · change (s.setStatus s.currentThread .blocked).created u
      + (if s.currentThread = u ∧ Mode.finishing ≠ .sleeping then 1 else 0) + s.readyList.count u
      + s.queues.count u + s.doomed u = s.places u
    unfold State.places
    by_cases huc : u = s.currentThread
    · subst huc
      rw [created_setStatus_self .blocked nofun, if_pos ⟨rfl, nofun⟩, onCpu_self hns, hc]
    · rw [created_setStatus_other _ huc, if_neg fun hh => huc hh.1.symm, onCpu_other huc]
  · have := h.destroy hd
    rw [hm] at this
    cases this

/-- Leaving the loop of `Sleep`. -/
theorem dispatch (h : Inv s) (hm : s.mode = .sleeping ∨ s.mode = .finishing) {r : Nat}
    {rest : List Nat} (hr : s.readyList = r :: rest) :
    ∃ s', { s with readyList := rest }.run r (s.mode == Mode.finishing) = .ok s' ∧ Inv s' := by
  obtain ⟨_, hrc, hrcpu, hrr, hrq, hrd⟩ := h.front hr
  have hd : s.toBeDestroyed = none := by
    by_contra hne
    have := h.destroy hne
    rcases hm with hm | hm <;> rw [hm] at this <;> cases this
  unfold State.run
  rw [if_neg fun hh => hh.2 hd]
  refine ⟨_, rfl, h.moved rfl rfl h.failed (fun u => ?_) (fun _ => rfl) h.waits⟩
  change (s.setStatus r .running).created u
    + (if r = u ∧ Mode.switched ≠ .sleeping then 1 else 0) + rest.count u + s.queues.count u
    + (if (if (s.mode == Mode.finishing) = true then some s.currentThread else s.toBeDestroyed)
        = some u then 1 else 0) = s.places u
  have hdoomed : s.doomed u = 0 := by
    unfold State.doomed
    rw [hd, if_neg nofun]
  unfold State.places
  rw [hr, count_front, hdoomed]
  rcases hm with hm | hm
  · rw [onCpu_sleeping hm, hm, hd, if_neg (by decide : ¬ (Mode.sleeping == Mode.finishing) = true),
      if_neg (nofun : ¬ (none : Option Nat) = some u)]
    by_cases hur : u = r
    · subst hur
      rw [created_setStatus_self .running nofun, if_pos ⟨rfl, nofun⟩, if_pos rfl]
      omega
    · rw [created_setStatus_other _ hur, if_neg fun hh => hur hh.1.symm, if_neg (Ne.symm hur)]
      rfl
  · have hns : s.mode ≠ .sleeping := by rw [hm]; nofun
    have hne : r ≠ s.currentThread := by
      rintro rfl
      rw [onCpu_self hns] at hrcpu
      cases hrcpu
    rw [hm, if_pos (by decide : (Mode.finishing == Mode.finishing) = true)]
    by_cases hur : u = r
    · subst hur
      rw [created_setStatus_self .running nofun, if_pos ⟨rfl, nofun⟩, if_pos rfl,
        if_neg fun hh => hne (Option.some.inj hh).symm]
      omega
    · rw [created_setStatus_other _ hur, if_neg fun hh => hur hh.1.symm, if_neg (Ne.symm hur)]
      by_cases huc : u = s.currentThread
      · subst huc
        rw [if_pos rfl, onCpu_self hns]
        omega
      · rw [if_neg fun hh => huc (Option.some.inj hh).symm, onCpu_other huc]
        rfl

/-- `CheckToBeDestroyed` deletes a thread that is not the current one. -/
theorem checkToBeDestroyed (h : Inv s) (hm : s.mode = .switched) :
    ∃ s', s.checkToBeDestroyed = .ok s' ∧ Inv s' ∧ s'.mode = .switched
      ∧ s'.toBeDestroyed = none := by
  have hns : s.mode ≠ .sleeping := by rw [hm]; nofun
  obtain ⟨_, _, _, _, hcd⟩ := h.current hns
  unfold State.checkToBeDestroyed
  split
  · rename_i hd
    exact ⟨s, rfl, h, hm, hd⟩
  · rename_i t hd
    have htd : s.doomed t = 1 := if_pos hd
    have htc : t ≠ s.currentThread := by
      rintro rfl
      rw [hcd] at htd
      cases htd
    have hle := h.places_le t
    unfold State.places at hle
    rw [if_neg htc]
    refine ⟨_, rfl, ⟨h.failed, fun u => ?_, fun u hu => ?_, nofun, fun u j hu hk => ?_⟩, hm, rfl⟩
    · change (if Function.update s.live t false u = true ∧ s.status u = .justCreated then 1 else 0)
        + s.onCpu u + s.readyList.count u + s.queues.count u
        + (if (none : Option Nat) = some u then 1 else 0)
        = if Function.update s.live t false u = true then 1 else 0
      rw [if_neg (nofun : ¬ (none : Option Nat) = some u)]
      by_cases hut : u = t
      · subst hut
        rw [Function.update_self, if_neg (fun hh => Bool.false_ne_true hh.1),
          if_neg Bool.false_ne_true]
        omega
      · simp only [Function.update_of_ne hut]
        have hu := h.places u
        have hud : s.doomed u = 0 := if_neg fun hh => hut (Option.some.inj (hd.symm.trans hh)).symm
        unfold State.places at hu
        rw [hud] at hu
        exact hu
    · by_cases hut : u = t
      · subst hut
        exact Function.update_self _ _ _
      · exact (Function.update_of_ne hut _ _).trans (h.fresh u hu)
    · refine h.waits u j ?_ hk
      by_cases hut : u = t
      · subst hut
        simp at hu
      · simpa [hut] using hu

theorem resume (h : Inv s) (hm : s.mode = .switched) : ∃ s', s.resume = .ok s' ∧ Inv s' := by
  obtain ⟨s₁, hcheck, h₁, hm₁, hd₁⟩ := h.checkToBeDestroyed hm
  have hns : s₁.mode ≠ .sleeping := by rw [hm₁]; nofun
  have hback : Inv { s₁ with mode := .running } := by
    refine h₁.moved rfl rfl h₁.failed (fun u => ?_) (fun hne => absurd hd₁ hne) h₁.waits
    change s₁.created u + (if s₁.currentThread = u ∧ Mode.running ≠ .sleeping then 1 else 0)
      + s₁.readyList.count u + s₁.queues.count u + s₁.doomed u = s₁.places u
    unfold State.places
    by_cases huc : u = s₁.currentThread
    · subst huc
      rw [if_pos ⟨rfl, nofun⟩, onCpu_self hns]
    · rw [if_neg fun hh => huc hh.1.symm, onCpu_other huc]
  unfold State.resume
  rw [hcheck]
  change ∃ s', (match s₁.kont s₁.currentThread with
    | .begin | .yield => (.ok { s₁ with mode := .running } : Except Fault State)
    | .retest i =>
        match s₁.sem i with
        | none => .error Fault.semaphore
        | some x => s₁.passP i x) = .ok s' ∧ Inv s'
  cases hk : s₁.kont s₁.currentThread with
  | begin => exact ⟨_, rfl, hback⟩
  | yield => exact ⟨_, rfl, hback⟩
  | retest i =>
      have hlive := (h₁.current hns).1
      cases hx : s₁.sem i with
      | none => exact absurd hx (h₁.waits _ i hlive hk)
      | some x =>
          simp only [hx]
          exact h₁.passP hns hd₁ hx

theorem newSem (h : Inv s) (n : Int) : Inv { s with sems := s.sems ++ [some (.new n)] } := by
  have hqueues : ({ s with sems := s.sems ++ [some (.new n)] } : State).queues = s.queues := by
    unfold State.queues
    rw [List.flatMap_append]
    exact List.append_nil _
  refine h.moved rfl rfl h.failed (fun u => ?_) h.destroy fun t j ht hk => ?_
  · change s.created u + s.onCpu u + s.readyList.count u
      + ({ s with sems := s.sems ++ [some (.new n)] } : State).queues.count u + s.doomed u
      = s.places u
    rw [hqueues]
    rfl
  · have hj := h.waits t j ht hk
    unfold State.sem at hj ⊢
    have hlt : j < s.sems.length := by
      by_contra hge
      exact hj (List.getD_eq_default _ _ (Nat.not_lt.mp hge))
    dsimp only
    rw [List.getD_append _ _ _ _ hlt]
    exact hj

theorem deleteSem (h : Inv s) (hq : ((s.sem i).any fun x => x.queue.isEmpty) = true)
    (hno : ∀ t, t < s.next → s.live t = true → s.kont t ≠ .retest i) :
    Inv { s with sems := s.sems.set i none } := by
  obtain ⟨x, hx, hempty⟩ : ∃ x, s.sem i = some x ∧ x.queue.isEmpty = true := by
    cases hx : s.sem i with
    | none =>
        rw [hx] at hq
        cases hq
    | some x =>
        rw [hx] at hq
        exact ⟨x, rfl, hq⟩
  refine h.moved rfl rfl h.failed (fun u => ?_) h.destroy fun t j ht hk => ?_
  · have hcount : ({ s with sems := s.sems.set i none } : State).queues.count u
        + x.queue.count u = s.queues.count u + ([] : List Nat).count u :=
      count_queues_set hx none u
    rw [List.isEmpty_iff.mp hempty, List.count_nil] at hcount
    change s.created u + s.onCpu u + s.readyList.count u
      + ({ s with sems := s.sems.set i none } : State).queues.count u + s.doomed u = s.places u
    unfold State.places
    omega
  · have htn : t < s.next := by
      by_contra hge
      rw [h.fresh t (Nat.not_lt.mp hge)] at ht
      cases ht
    have hji : i ≠ j := by
      rintro rfl
      exact hno t htn ht hk
    have hj := h.waits t j ht hk
    unfold State.sem at hj ⊢
    rw [List.getD_eq_getElem?_getD] at hj ⊢
    rw [List.getElem?_set_ne hji]
    exact hj

theorem init : Inv State.init := by
  refine ⟨rfl, fun t => ?_, fun t ht => ?_, nofun, nofun⟩
  · by_cases ht : t = 0
    · subst ht
      rfl
    · have hlive : State.init.live t = false := by simp [State.init, ht]
      rw [hlive, if_neg Bool.false_ne_true]
      unfold State.places
      rw [onCpu_other ht, State.created, if_neg fun hh => nomatch hh.2]
      rfl
  · exact Function.update_of_ne (Nat.one_le_iff_ne_zero.mp ht) true fun _ => false

/-- No call fails, and each keeps the invariant. -/
theorem act (h : Inv s) {a : Action} {r : Except Fault State} (hr : Sched.act s a = some r) :
    ∃ s', r = .ok s' ∧ Inv s' := by
  unfold Sched.act at hr
  cases a with
  | create =>
      dsimp only at hr
      split at hr
      · obtain rfl := Option.some.inj hr
        exact ⟨_, rfl, h.create⟩
      · cases hr
  | fork t =>
      dsimp only at hr
      split at hr
      · rename_i hg
        obtain rfl := Option.some.inj hr
        have hcreated : s.created t = 1 := if_pos hg.2
        have hnot : t ∉ s.readyList := h.not_mem_ready (by unfold State.places; omega)
        exact ⟨_, readyToRun_eq hnot, h.fork hg.2.1 hg.2.2⟩
      · cases hr
  | yield =>
      dsimp only at hr
      split at hr
      · rename_i hm
        obtain rfl := Option.some.inj hr
        exact h.yield hm
      · cases hr
  | p i =>
      dsimp only at hr
      split at hr
      · rename_i hm
        obtain ⟨x, hx, rfl⟩ := Option.map_eq_some_iff.mp hr
        refine h.passP (by rw [hm]; nofun) ?_ hx
        by_contra hd
        have := h.destroy hd
        rw [hm] at this
        cases this
      · cases hr
  | v i =>
      dsimp only at hr
      split at hr
      · obtain ⟨x, hx, rfl⟩ := Option.map_eq_some_iff.mp hr
        exact h.doV hx
      · cases hr
  | finish =>
      dsimp only at hr
      split at hr
      · rename_i hm
        obtain rfl := Option.some.inj hr
        exact ⟨_, rfl, h.finish hm⟩
      · cases hr
  | dispatch =>
      dsimp only at hr
      split at hr
      · rename_i hm
        split at hr
        · cases hr
        · rename_i t rest hready
          obtain rfl := Option.some.inj hr
          exact h.dispatch hm hready
      · cases hr
  | resume =>
      dsimp only at hr
      split at hr
      · rename_i hm
        obtain rfl := Option.some.inj hr
        exact h.resume hm
      · cases hr
  | newSem n =>
      dsimp only at hr
      split at hr
      · obtain rfl := Option.some.inj hr
        exact ⟨_, rfl, h.newSem n⟩
      · cases hr
  | deleteSem i =>
      dsimp only at hr
      split at hr
      · rename_i hg
        obtain rfl := Option.some.inj hr
        exact ⟨_, rfl, h.deleteSem hg.2.1 hg.2.2⟩
      · cases hr

theorem step (h : Inv s) {a : Action} (hs : Sched.step s a = some s') : Inv s' := by
  unfold Sched.step at hs
  split at hs
  · cases hs
  · obtain ⟨r, hr, rfl⟩ := Option.map_eq_some_iff.mp hs
    obtain ⟨s₁, rfl, h₁⟩ := h.act hr
    exact h₁

end Inv

/-- **Partition.** In every run each thread that has been created and not
yet destroyed is in exactly one place and once there, a destroyed one is
nowhere, and no assertion fails. -/
theorem threads_partitioned {s : State} (h : Reach step Any State.init s) :
    (∀ t, s.live t = true → s.places t = 1) ∧ (∀ t, s.live t = false → s.places t = 0)
      ∧ s.failed = none := by
  have hinv : Inv s := Reach.invariant Inv.init (fun _ _ _ _ hi _ hs => hi.step hs) h
  refine ⟨fun t ht => ?_, fun t ht => ?_, hinv.failed⟩
  · rw [hinv.places t, if_pos ht]
  · rw [hinv.places t, ht, if_neg Bool.false_ne_true]

/-- Thread 0 sleeps in `P` until thread 1, which then finishes, signals it. -/
theorem threads_partitioned_handoff :
    ∃ s, Reach step Any State.init s ∧ s.live 0 = true ∧ s.live 1 = false ∧ s.places 0 = 1
      ∧ s.places 1 = 0 := by
  have hrun : (exec step Any State.init [.create, .newSem 0, .fork 1, .p 0, .dispatch, .resume,
      .v 0, .finish, .dispatch, .resume]).map (fun s => (s.live 0, s.live 1))
        = some (true, false) := rfl
  obtain ⟨s, hs, heq⟩ := Option.map_eq_some_iff.mp hrun
  obtain ⟨h0, h1⟩ : s.live 0 = true ∧ s.live 1 = false := by simpa only [Prod.mk.injEq] using heq
  have hreach := Reach.of_exec _ hs
  obtain ⟨hlive, hdead, _⟩ := threads_partitioned hreach
  exact ⟨s, hreach, h0, h1, hlive 0 h0, hdead 1 h1⟩

end Sched

end Nachos
