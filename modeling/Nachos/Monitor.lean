import Nachos.Lock
import Nachos.Mesa

/-!
# Locks and condition variables

A `Lock` with any number of `Condition`s (`threads/synch.cc`) around shared
data, used by any number of threads: `Acquire`, `Release`, `Wait`, `Signal`
and `Broadcast` in any order that the caller of a monitor may choose. As in
`SynchList`, a step is what a thread does from one point where another thread
can get the processor to the next: the end of `P` and of `V`, or sleep. A
`Broadcast` has such a point behind every `V`, and a `Wait` between `Release`
and `P`, between `P` and `Acquire`, and within `Acquire`.

A `Condition` is a list of semaphores, one for each `Wait` that has not been
signalled; a thread is in one `Wait` at a time, so the semaphore goes by the
name of the thread (`waiter t`).

`abs` forgets the semaphores and keeps for every thread whether it is outside,
inside, waiting or woken. The lemmas of this module say of one step that it
keeps the invariant and is, through `abs`, a step of the monitor of `Mesa` or
not seen by the other threads (`step_matched`); `MonitorRuns` draws the
conclusions for whole runs.
-/

namespace Nachos

namespace Monitor

open Run CInt

/-! ## The model -/

/-- Where a thread is. -/
inductive Pc (C : Type) where
  | outside
  /-- in `P` of `Acquire` -/
  | acquire
  /-- that `P` has taken the unit -/
  | acquired
  | inside
  /-- in `Broadcast`, past a `V` -/
  | broadcasting (c : C)
  /-- in `Wait`, past the `V` of `Release`: in `P` of the waiter -/
  | waiting (c : C)
  /-- in `P` of the `Acquire` of `Wait` -/
  | reacquire
  /-- that `P` has taken the unit -/
  | reacquired
deriving DecidableEq

namespace Pc

variable {C : Type}

/-- The thread has passed `P` of an `Acquire` and not yet `V` of the
`Release`. -/
def Inside : Pc C → Prop
  | acquired => True
  | inside => True
  | broadcasting _ => True
  | reacquired => True
  | _ => False

/-- The thread is in `P` of an `Acquire`. -/
def Wants : Pc C → Prop
  | acquire => True
  | reacquire => True
  | _ => False

/-- The lock has been recorded as held. -/
def Holds : Pc C → Prop
  | inside => True
  | broadcasting _ => True
  | _ => False

theorem Holds.inside {p : Pc C} (h : p.Holds) : p.Inside ∧ ¬p.Wants ∧ ∀ c, p ≠ .waiting c := by
  cases p <;> simp_all [Holds, Inside, Wants]

end Pc

structure State (T C σ : Type) where
  lock : Lock T
  waitQueue : C → List T
  waiter : T → Semaphore T
  pc : T → Pc C
  data : σ

/-- What a thread that is inside can do. -/
inductive Op (C σ : Type) where
  | release
  | wait (c : C)
  | signal (c : C)
  | broadcast (c : C)
  | assign (d : σ)

inductive Action (T C σ : Type) where
  | call (t : T)
  | op (t : T) (o : Op C σ)
  | run (t : T)

variable {T C σ : Type} [DecidableEq T]

namespace State

def init (d : σ) : State T C σ := ⟨.new, fun _ => [], fun _ => .new 0, fun _ => .outside, d⟩

def goto (s : State T C σ) (t : T) (next : Pc C) : State T C σ :=
  { s with pc := Function.update s.pc t next }

/-- The thread sleeps in the queue of a semaphore. -/
def Asleep (s : State T C σ) (t : T) : Prop := t ∈ s.lock.queue ∨ t ∈ (s.waiter t).queue

instance (s : State T C σ) (t : T) : Decidable (s.Asleep t) := inferInstanceAs (Decidable (_ ∨ _))

/-- A pass of `P` in `Acquire`. -/
def acquire (s : State T C σ) (t : T) (next : Pc C) : State T C σ :=
  if (s.lock.acquire t).1 then ({ s with lock := (s.lock.acquire t).2 } : State T C σ).goto t next
  else { s with lock := (s.lock.acquire t).2 }

/-- The rest of `Acquire`. -/
def take (s : State T C σ) (t : T) : State T C σ :=
  ({ s with lock := s.lock.take t } : State T C σ).goto t .inside

/-- `Lock::Release`, and on to `next`. -/
def release (s : State T C σ) (t : T) (next : Pc C) : Option (State T C σ) :=
  (s.lock.release t).map fun l => ({ s with lock := l } : State T C σ).goto t next

/-- `Condition::Wait` up to the end of its `Release`. -/
def wait [DecidableEq C] (s : State T C σ) (t : T) (c : C) : Option (State T C σ) :=
  if s.lock.HeldBy t then
    ({ s with
      waiter := Function.update s.waiter t (.new 0)
      waitQueue := Function.update s.waitQueue c (s.waitQueue c ++ [t]) } : State T C σ).release t
      (.waiting c)
  else none

/-- The front of the queue is taken off and its `V` called. -/
def wake [DecidableEq C] (s : State T C σ) (c : C) (w : T) (rest : List T) : State T C σ :=
  { s with
    waitQueue := Function.update s.waitQueue c rest
    waiter := Function.update s.waiter w (s.waiter w).v.2 }

/-- `Condition::Signal` -/
def signal [DecidableEq C] (s : State T C σ) (t : T) (c : C) : Option (State T C σ) :=
  if s.lock.HeldBy t then
    match s.waitQueue c with
    | [] => some s
    | w :: rest => some (s.wake c w rest)
  else none

/-- The loop of `Condition::Broadcast`, up to the next `V` or its end. -/
def broadcast [DecidableEq C] (s : State T C σ) (t : T) (c : C) : Option (State T C σ) :=
  if (s.waitQueue c).isEmpty then some (s.goto t .inside)
  else (s.signal t c).map fun s => s.goto t (.broadcasting c)

/-- A pass of `P` of the waiter. -/
def pass (s : State T C σ) (t : T) : State T C σ :=
  let s' := { s with waiter := Function.update s.waiter t ((s.waiter t).p t).2 }
  if ((s.waiter t).p t).1 then s'.goto t .reacquire else s'

def doOp [DecidableEq C] (s : State T C σ) (t : T) : Op C σ → Option (State T C σ)
  | .release => s.release t .outside
  | .wait c => s.wait t c
  | .signal c => s.signal t c
  | .broadcast c => s.broadcast t c
  | .assign d => some { s with data := d }

def advance [DecidableEq C] (s : State T C σ) (t : T) : Option (State T C σ) :=
  match s.pc t with
  | .outside => none
  | .acquire => some (s.acquire t .acquired)
  | .acquired => some (s.take t)
  | .inside => none
  | .broadcasting c => s.broadcast t c
  | .waiting _ => some (s.pass t)
  | .reacquire => some (s.acquire t .reacquired)
  | .reacquired => some (s.take t)

end State

def step [DecidableEq C] (s : State T C σ) : Action T C σ → Option (State T C σ)
  | .call t => if s.pc t = .outside then some (s.goto t .acquire) else none
  | .op t o => if s.pc t = .inside then s.doOp t o else none
  | .run t => if s.Asleep t then none else s.advance t

/-- The invariant of the data is true when a thread leaves or waits. -/
def Restores (I : σ → Prop) (s : State T C σ) : Action T C σ → Prop
  | .op _ .release => I s.data
  | .op _ (.wait _) => I s.data
  | _ => True

instance (I : σ → Prop) [DecidablePred I] (s : State T C σ) :
    (a : Action T C σ) → Decidable (Restores I s a)
  | .op _ .release => inferInstanceAs (Decidable (I s.data))
  | .op _ (.wait _) => inferInstanceAs (Decidable (I s.data))
  | .op _ (.signal _) | .op _ (.broadcast _) | .op _ (.assign _) | .call _ | .run _ =>
      inferInstanceAs (Decidable True)

/-! ## The monitor it is -/

/-- What a place in the code means to the other threads. -/
def statusOf (waitQueue : C → List T) (t : T) : Pc C → Mesa.Status C
  | .outside => .outside
  | .acquire => .entering
  | .acquired => .inside
  | .inside => .inside
  | .broadcasting _ => .inside
  | .waiting c => if t ∈ waitQueue c then .waiting c else .woken
  | .reacquire => .woken
  | .reacquired => .inside

def abs (s : State T C σ) : Mesa.State T C σ :=
  ⟨fun t => statusOf s.waitQueue t (s.pc t), s.waitQueue, s.data⟩

section Abs

variable {s : State T C σ} {t : T} {next : Pc C}

theorem pc_goto (s : State T C σ) (t : T) (next : Pc C) (u : T) :
    (s.goto t next).pc u = if u = t then next else s.pc u :=
  Function.update_apply ..

theorem statusOf_inside {waitQueue : C → List T} {p : Pc C} :
    statusOf waitQueue t p = .inside ↔ p.Inside := by
  cases p with
  | waiting c =>
      rw [statusOf]
      refine iff_of_false ?_ fun h => h
      split <;> simp
  | _ => simp [statusOf, Pc.Inside]

theorem statusOf_wants {waitQueue : C → List T} {p : Pc C} (h : p.Wants) :
    statusOf waitQueue t p = .entering ∨ statusOf waitQueue t p = .woken := by
  cases p <;> simp_all [statusOf, Pc.Wants]

theorem abs_goto (s : State T C σ) (t : T) (next : Pc C) :
    abs (s.goto t next) = (abs s).setStatus t (statusOf s.waitQueue t next) := by
  have hstatus : (abs (s.goto t next)).status
      = ((abs s).setStatus t (statusOf s.waitQueue t next)).status := by
    funext u
    rw [Mesa.status_setStatus]
    change statusOf s.waitQueue u ((s.goto t next).pc u) = _
    rw [pc_goto]
    split
    next hut => rw [hut]
    next => rfl
  exact congrArg (fun f => (⟨f, s.waitQueue, s.data⟩ : Mesa.State T C σ)) hstatus

/-- A move that the other threads do not see. -/
theorem abs_goto_same (h : statusOf s.waitQueue t next = statusOf s.waitQueue t (s.pc t)) :
    abs (s.goto t next) = abs s := by
  rw [abs_goto, h]
  exact congrArg (fun f => (⟨f, s.waitQueue, s.data⟩ : Mesa.State T C σ))
    (Function.update_eq_self t (abs s).status)

end Abs

/-! ## The invariant -/

structure Inv (s : State T C σ) : Prop where
  guards : s.lock.Guards fun t => (s.pc t).Inside
  holder : ∀ t, (s.pc t).Holds → s.lock.HeldBy t
  queueing : s.lock.Queueing fun t => (s.pc t).Wants
  nodup : ∀ c, (s.waitQueue c).Nodup
  queued : ∀ c, ∀ t ∈ s.waitQueue c,
    s.pc t = .waiting c ∧ (s.waiter t = ⟨0, []⟩ ∨ s.waiter t = ⟨0, [t]⟩)
  woken : ∀ c t, s.pc t = .waiting c → t ∉ s.waitQueue c → s.waiter t = ⟨1, []⟩
  unused : ∀ t, (∀ c, s.pc t ≠ .waiting c) → (s.waiter t).queue = []

omit [DecidableEq T] in
theorem Inv.init (d : σ) : Inv (State.init d : State T C σ) where
  guards := Lock.Guards.new
  holder := fun _ h => h.elim
  queueing := ⟨fun _ hu => absurd hu List.not_mem_nil, List.nodup_nil, fun _ h => absurd rfl h⟩
  nodup := fun _ => List.nodup_nil
  queued := fun _ _ hu => absurd hu List.not_mem_nil
  woken := fun _ _ h => absurd h (by simp [State.init])
  unused := fun _ _ => rfl

section Steps

variable {s s' : State T C σ} {t : T} {next : Pc C} {c : C}

theorem pc_goto_self : (s.goto t next).pc t = next := by rw [pc_goto, if_pos rfl]

theorem pc_goto_other {u : T} (h : u ≠ t) : (s.goto t next).pc u = s.pc u := by
  rw [pc_goto, if_neg h]

omit [DecidableEq T] in
theorem Inv.not_queued (h : Inv s) (ht : ∀ c, s.pc t ≠ .waiting c) (c : C) : t ∉ s.waitQueue c :=
  fun hmem => ht c (h.queued c t hmem).1

/-- A thread moves between places that are not `Wait`, and the lock changes. -/
theorem Inv.move (h : Inv s) {l : Lock T} (hbefore : ∀ c, s.pc t ≠ .waiting c)
    (hafter : ∀ c, next ≠ .waiting c)
    (hguards : l.Guards fun u => ((s.goto t next).pc u).Inside)
    (hholder : ∀ u, ((s.goto t next).pc u).Holds → l.HeldBy u)
    (hqueueing : l.Queueing fun u => ((s.goto t next).pc u).Wants) :
    Inv (({ s with lock := l } : State T C σ).goto t next) := by
  refine ⟨hguards, hholder, hqueueing, h.nodup, fun c u hu => ?_, fun c u hu hnot => ?_,
    fun u hu => ?_⟩
  · have hut : u ≠ t := fun he => hbefore c (he ▸ (h.queued c u hu).1)
    change (s.goto t next).pc u = _ ∧ _
    rw [pc_goto_other hut]
    exact h.queued c u hu
  · change (s.goto t next).pc u = _ at hu
    by_cases hut : u = t
    · rw [hut, pc_goto_self] at hu
      exact absurd hu (hafter c)
    · rw [pc_goto_other hut] at hu
      exact h.woken c u hu hnot
  · by_cases hut : u = t
    · exact hut ▸ h.unused t hbefore
    · refine h.unused u fun c hc => hu c ?_
      change (s.goto t next).pc u = _
      rw [pc_goto_other hut, hc]

/-- The holder of the lock, when the thread inside moves. -/
theorem Inv.holder_goto (h : Inv s) {l : Lock T} (hin : (s.pc t).Inside)
    (ht : next.Holds → l.HeldBy t) (u : T) (hu : ((s.goto t next).pc u).Holds) : l.HeldBy u := by
  by_cases hut : u = t
  · rw [hut, pc_goto_self] at hu
    exact hut ▸ ht hu
  · rw [pc_goto_other hut] at hu
    exact absurd (h.guards.unique hu.inside.1 hin) hut

/-- The same when the thread that moves does not hold it then. -/
theorem Inv.holder_other (h : Inv s) (hnot : ¬next.Holds) (u : T)
    (hu : ((s.goto t next).pc u).Holds) : s.lock.HeldBy u := by
  by_cases hut : u = t
  · rw [hut, pc_goto_self] at hu
    exact absurd hu hnot
  · rw [pc_goto_other hut] at hu
    exact h.holder u hu

theorem inside_goto_same (h : next.Inside ↔ (s.pc t).Inside) (u : T) :
    ((s.goto t next).pc u).Inside ↔ (s.pc u).Inside :=
  Lock.inside_update_same h u

theorem wants_goto (h : ¬(s.pc t).Wants) (u : T) (hu : (s.pc u).Wants) :
    ((s.goto t next).pc u).Wants := by
  have hut : u ≠ t := fun he => h (he ▸ hu)
  rwa [pc_goto_other hut]

/-- Nobody is inside when the lock is free. -/
theorem Inv.free (h : Inv s) (hval : s.lock.semaphore.value ≠ 0) : (abs s).Free := by
  intro u hu
  rcases h.guards with ⟨-, hnone⟩ | ⟨hzero, -⟩
  · exact hnone u (statusOf_inside.mp hu)
  · exact hval hzero

/-- What a step comes to: the invariant, and a step of the monitor that the
other threads see, or none. -/
def Matched [DecidableEq C] (I : σ → Prop) (s s' : State T C σ) : Prop :=
  Inv s' ∧ (abs s' = abs s ∨ Mesa.Step I (abs s) (abs s'))

variable [DecidableEq C] {I : σ → Prop}

/-- A pass of `P` in `Acquire`. -/
theorem acquire_matched (h : Inv s) (hwants : (s.pc t).Wants) (hin : next.Inside)
    (hnot : ¬next.Holds) (hawake : t ∉ s.lock.queue) : Matched I s (s.acquire t next) := by
  have hbefore : ∀ c, s.pc t ≠ .waiting c := fun c hc => by rw [hc] at hwants; exact hwants
  have hafter : ∀ c, next ≠ .waiting c := fun c hc => by rw [hc] at hin; exact hin
  rw [State.acquire]
  rcases s.lock.acquire_cases t with ⟨hzero, heq⟩ | ⟨hne, heq⟩
  · rw [heq, if_neg Bool.false_ne_true]
    exact ⟨⟨h.guards.congr hzero.symm fun _ => Iff.rfl, h.holder, h.queueing.sleep hwants hawake,
      h.nodup, h.queued, h.woken, h.unused⟩, Or.inl rfl⟩
  · rw [heq, if_pos rfl]
    have hone : s.lock.semaphore.value = 1 := by
      rcases h.guards with ⟨hone, -⟩ | ⟨hzero, -⟩
      · exact hone
      · exact absurd hzero hne
    refine ⟨h.move hbefore hafter (h.guards.enter hne rfl (Lock.inside_update_enter hin))
      (h.holder_other hnot) (h.queueing.taken hawake (by rw [hone]; decide) fun u hut hu => ?_),
      Or.inr ?_⟩
    · rwa [pc_goto_other hut]
    · rw [abs_goto]
      have hstatus : statusOf s.waitQueue t next = .inside := statusOf_inside.mpr hin
      change Mesa.Step I (abs s) ((abs s).setStatus t (statusOf s.waitQueue t next))
      rw [hstatus]
      exact .enter (statusOf_wants hwants) (h.free hne)

/-- The rest of `Acquire`. -/
theorem take_matched (h : Inv s) (hin : (s.pc t).Inside) : Matched I s (s.take t) := by
  have hbefore : ∀ c, s.pc t ≠ .waiting c := fun c hc => by rw [hc] at hin; exact hin
  have hnot : ¬(s.pc t).Wants := fun hw => by
    cases hpc : s.pc t <;> rw [hpc] at hw hin <;> first | exact hw | exact hin
  refine ⟨h.move (l := s.lock.take t) hbefore (by simp)
    (h.guards.congr rfl (inside_goto_same (iff_of_true trivial hin)))
    (h.holder_goto hin fun _ => s.lock.heldBy_take t)
    (h.queueing.take.mono fun u hu => wants_goto hnot u hu), Or.inl ?_⟩
  refine abs_goto_same (s := { s with lock := s.lock.take t }) ?_
  exact (statusOf_inside.mpr hin).symm

/-- `Release`, by the thread inside. -/
theorem release_matched (h : Inv s) (hpc : s.pc t = .inside) (hdata : I s.data) :
    ∃ s', s.release t .outside = some s' ∧ Matched I s s' := by
  have hin : (s.pc t).Inside := by rw [hpc]; trivial
  have hheld := h.holder t (by rw [hpc]; trivial)
  rw [State.release, Lock.release_eq hheld]
  refine ⟨_, rfl, h.move (by simp [hpc]) (by simp)
    (h.guards.leave hin (Semaphore.v_value _) (Lock.inside_update_leave fun hn => hn))
    (h.holder_goto hin fun hn => hn.elim)
    (h.queueing.release.mono fun u hu => wants_goto (by rw [hpc]; exact fun hn => hn) u hu),
    Or.inr ?_⟩
  rw [abs_goto]
  exact .leave (statusOf_inside.mpr hin) hdata

omit [DecidableEq C] in
theorem statusOf_congr {q q' : C → List T} {u : T} (hq : ∀ c, u ∈ q c ↔ u ∈ q' c) (p : Pc C) :
    statusOf q u p = statusOf q' u p := by
  cases p with
  | waiting c => simp only [statusOf, hq c]
  | _ => rfl

/-- `Wait` up to the end of its `Release`. -/
theorem wait_matched (h : Inv s) (hpc : s.pc t = .inside) (hdata : I s.data) :
    ∃ s', s.wait t c = some s' ∧ Matched I s s' := by
  have hin : (s.pc t).Inside := by rw [hpc]; trivial
  have hheld := h.holder t (by rw [hpc]; trivial)
  have hnot := h.not_queued (t := t) (by simp [hpc])
  rw [State.wait, if_pos hheld, State.release, Lock.release_eq hheld]
  have hmem : ∀ c' u, u ∈ Function.update s.waitQueue c (s.waitQueue c ++ [t]) c'
      ↔ u ∈ s.waitQueue c' ∨ u = t ∧ c' = c := fun c' u => by
    rw [Function.update_apply]
    split
    next hcc => simp [hcc]
    next hcc => simp [hcc]
  refine ⟨_, rfl, ⟨h.guards.leave hin (Semaphore.v_value _)
    (Lock.inside_update_leave fun hn => hn), h.holder_goto hin fun hn => hn.elim,
    h.queueing.release.mono fun u hu => wants_goto (by rw [hpc]; exact fun hn => hn) u hu,
    fun c' => ?_, fun c' u hu => ?_, fun c' u hu hunot => ?_, fun u hu => ?_⟩, Or.inr ?_⟩
  · change (Function.update s.waitQueue c (s.waitQueue c ++ [t]) c').Nodup
    rw [Function.update_apply]
    split
    · exact List.nodup_append.mpr ⟨h.nodup c, List.nodup_singleton t,
        fun a ha b hb hab => hnot c (List.mem_singleton.mp hb ▸ hab ▸ ha)⟩
    · exact h.nodup c'
  · change (s.goto t (.waiting c)).pc u = _ ∧ (Function.update s.waiter t (.new 0) u = _
      ∨ Function.update s.waiter t (.new 0) u = _)
    rcases (hmem c' u).mp hu with hu | ⟨rfl, rfl⟩
    · have hut : u ≠ t := fun he => hnot c' (he ▸ hu)
      rw [pc_goto_other hut, Function.update_of_ne hut]
      exact h.queued c' u hu
    · rw [pc_goto_self, Function.update_self]
      exact ⟨rfl, Or.inl rfl⟩
  · change (s.goto t (.waiting c)).pc u = _ at hu
    change Function.update s.waiter t (.new 0) u = _
    have hold : u ∉ s.waitQueue c' ∧ ¬(u = t ∧ c' = c) := not_or.mp ((hmem c' u).not.mp hunot)
    by_cases hut : u = t
    · rw [hut, pc_goto_self] at hu
      exact absurd ⟨hut, (Pc.waiting.inj hu).symm⟩ hold.2
    · rw [pc_goto_other hut] at hu
      rw [Function.update_of_ne hut]
      exact h.woken c' u hu hold.1
  · change (Function.update s.waiter t (.new 0) u).queue = []
    by_cases hut : u = t
    · rw [hut, Function.update_self]
      rfl
    · rw [Function.update_of_ne hut]
      refine h.unused u fun c' hc' => hu c' ?_
      change (s.goto t (.waiting c)).pc u = _
      rw [pc_goto_other hut, hc']
  · have hstep := Mesa.Step.wait (I := I) (s := abs s) c (statusOf_inside.mpr hin) hdata
    convert hstep using 1
    have hstatus : (fun u => statusOf (Function.update s.waitQueue c (s.waitQueue c ++ [t])) u
        ((s.goto t (.waiting c)).pc u)) = ((abs s).setStatus t (.waiting c)).status := by
      funext u
      rw [Mesa.status_setStatus, pc_goto]
      split
      next hut =>
        rw [statusOf, if_pos ((hmem c u).mpr (Or.inr ⟨hut, rfl⟩))]
      next hut =>
        exact statusOf_congr (fun c' => (hmem c' u).trans (or_iff_left fun hh => hut hh.1)) _
    exact congrArg (fun f => (⟨f, Function.update s.waitQueue c (s.waitQueue c ++ [t]), s.data⟩ :
      Mesa.State T C σ)) hstatus

omit [DecidableEq T] in
/-- Who is on the queues when the front of one has been taken off. -/
theorem Inv.mem_wake (h : Inv s) {w : T} {rest : List T} (hq : s.waitQueue c = w :: rest) (c' : C)
    (u : T) : u ∈ Function.update s.waitQueue c rest c' ↔ u ∈ s.waitQueue c' ∧ u ≠ w := by
  have hnodup := h.nodup c
  rw [hq, List.nodup_cons] at hnodup
  rw [Function.update_apply]
  split
  next hcc =>
    rw [hcc, hq, List.mem_cons]
    constructor
    · intro hu
      exact ⟨Or.inr hu, fun he => hnodup.1 (he ▸ hu)⟩
    · rintro ⟨rfl | hu, hne⟩
      · exact absurd rfl hne
      · exact hu
  next hcc =>
    refine (and_iff_left_of_imp fun hu he => hcc ?_).symm
    have hpc := (h.queued c' u hu).1
    rw [he, (h.queued c w (by rw [hq]; exact List.mem_cons_self)).1] at hpc
    exact (Pc.waiting.inj hpc).symm

theorem abs_wake (h : Inv s) {w : T} {rest : List T} (hq : s.waitQueue c = w :: rest) :
    abs (s.wake c w rest) = ((abs s).setStatus w .woken).setQueue c rest := by
  have hstatus : (fun u => statusOf (Function.update s.waitQueue c rest) u (s.pc u))
      = ((abs s).setStatus w .woken).status := by
    funext u
    rw [Mesa.status_setStatus]
    split
    next huw =>
      rw [huw, (h.queued c w (by rw [hq]; exact List.mem_cons_self)).1, statusOf,
        if_neg fun hw => ((h.mem_wake hq c w).mp hw).2 rfl]
    next huw =>
      exact statusOf_congr (fun c' => (h.mem_wake hq c' u).trans (and_iff_left huw)) _
  exact congrArg (fun f => (⟨f, Function.update s.waitQueue c rest, s.data⟩ :
    Mesa.State T C σ)) hstatus

/-- The front of the queue of a condition is woken. -/
theorem wake_matched (h : Inv s) (hin : (s.pc t).Inside) {w : T} {rest : List T}
    (hq : s.waitQueue c = w :: rest) : Matched I s (s.wake c w rest) := by
  have hnodup := h.nodup c
  rw [hq, List.nodup_cons] at hnodup
  obtain ⟨hpcw, hwaiter⟩ := h.queued c w (by rw [hq]; exact List.mem_cons_self)
  have hv : (s.waiter w).v.2 = ⟨1, []⟩ := by
    rcases hwaiter with hw | hw <;> rw [hw] <;> rfl
  have hmem := h.mem_wake hq
  refine ⟨⟨h.guards, h.holder, h.queueing, fun c' => ?_, fun c' u hu => ?_, fun c' u hu hunot => ?_,
    fun u hu => ?_⟩, Or.inr ?_⟩
  · change (Function.update s.waitQueue c rest c').Nodup
    rw [Function.update_apply]
    split
    · exact hnodup.2
    · exact h.nodup c'
  · obtain ⟨hu, huw⟩ := (hmem c' u).mp hu
    change _ ∧ (Function.update s.waiter w _ u = _ ∨ Function.update s.waiter w _ u = _)
    rw [Function.update_of_ne huw]
    exact h.queued c' u hu
  · change Function.update s.waiter w (s.waiter w).v.2 u = _
    by_cases huw : u = w
    · rw [huw, Function.update_self, hv]
    · rw [Function.update_of_ne huw]
      exact h.woken c' u hu fun hold => hunot ((hmem c' u).mpr ⟨hold, huw⟩)
  · change (Function.update s.waiter w (s.waiter w).v.2 u).queue = []
    have huw : u ≠ w := fun he => hu c (he ▸ hpcw)
    rw [Function.update_of_ne huw]
    exact h.unused u hu
  · rw [abs_wake h hq]
    exact .signal (statusOf_inside.mpr hin) hq

omit [DecidableEq C] in
/-- The thread that holds the lock moves to another place in `Broadcast`. -/
theorem goto_matched (next : Pc C) (h : Inv s) (hin : (s.pc t).Holds) (hnext : next.Holds) :
    Inv (s.goto t next) ∧ abs (s.goto t next) = abs s := by
  obtain ⟨hin', hnot, hne⟩ := hin.inside
  obtain ⟨hnext', -, hne'⟩ := hnext.inside
  exact ⟨h.move (l := s.lock) hne hne' (h.guards.congr rfl
      (inside_goto_same (iff_of_true hnext' hin')))
    (h.holder_goto hin' fun _ => h.holder t hin) (h.queueing.mono fun u hu => wants_goto hnot u hu),
    abs_goto_same ((statusOf_inside.mpr hnext').trans (statusOf_inside.mpr hin').symm)⟩

theorem signal_matched (h : Inv s) (hin : (s.pc t).Holds) (c : C) :
    ∃ s', s.signal t c = some s' ∧ s'.pc = s.pc ∧ Matched I s s' := by
  rw [State.signal, if_pos (h.holder t hin)]
  split
  next => exact ⟨s, rfl, rfl, h, Or.inl rfl⟩
  next w rest hq => exact ⟨_, rfl, rfl, wake_matched h hin.inside.1 hq⟩

theorem broadcast_matched (h : Inv s) (hin : (s.pc t).Holds) (c : C) :
    ∃ s', s.broadcast t c = some s' ∧ Matched I s s' := by
  rw [State.broadcast]
  split
  next =>
    obtain ⟨hinv, habs⟩ := goto_matched .inside h hin trivial
    exact ⟨_, rfl, hinv, Or.inl habs⟩
  next =>
    obtain ⟨s₁, hs₁, hpc, hinv, hstep⟩ := signal_matched (I := I) h hin c
    obtain ⟨hinv', habs⟩ := goto_matched (.broadcasting c) hinv (by rw [hpc]; exact hin)
      trivial
    refine ⟨_, by rw [hs₁, Option.map_some], hinv', ?_⟩
    rw [habs]
    exact hstep

omit [DecidableEq C] in
/-- A pass of `P` of the waiter. -/
theorem pass_keeps (h : Inv s) (hpc : s.pc t = .waiting c) (hawake : t ∉ (s.waiter t).queue) :
    Inv (s.pass t) ∧ abs (s.pass t) = abs s := by
  by_cases hq : t ∈ s.waitQueue c
  · have hw : s.waiter t = ⟨0, []⟩ := by
      rcases (h.queued c t hq).2 with hw | hw
      · exact hw
      · rw [hw] at hawake
        exact absurd List.mem_cons_self hawake
    have hpass : s.pass t = { s with waiter := Function.update s.waiter t ⟨0, [t]⟩ } := by
      rw [State.pass, hw]
      rfl
    rw [hpass]
    refine ⟨⟨h.guards, h.holder, h.queueing, h.nodup, fun c' u hu => ?_, fun c' u hu hunot => ?_,
      fun u hu => ?_⟩, rfl⟩
    · refine ⟨(h.queued c' u hu).1, ?_⟩
      by_cases hut : u = t
      · subst hut
        exact Or.inr (Function.update_self ..)
      · dsimp only
        rw [Function.update_of_ne hut]
        exact (h.queued c' u hu).2
    · have hut : u ≠ t := by
        rintro rfl
        obtain rfl := Pc.waiting.inj (hpc.symm.trans hu)
        exact hunot hq
      dsimp only
      rw [Function.update_of_ne hut]
      exact h.woken c' u hu hunot
    · have hut : u ≠ t := by
        rintro rfl
        exact hu c hpc
      dsimp only
      rw [Function.update_of_ne hut]
      exact h.unused u hu
  · have hw := h.woken c t hpc hq
    have hpass : s.pass t
        = ({ s with waiter := Function.update s.waiter t ⟨0, []⟩ } : State T C σ).goto t
          .reacquire := by
      rw [State.pass, hw]
      rfl
    have hnone : ∀ c', t ∉ s.waitQueue c' := fun c' hmem => by
      obtain rfl := Pc.waiting.inj (hpc.symm.trans (h.queued c' t hmem).1)
      exact hq hmem
    have hout : ¬(s.pc t).Inside := by rw [hpc]; exact fun hn => hn
    rw [hpass]
    refine ⟨⟨h.guards.congr rfl (inside_goto_same (iff_of_false (fun hn => hn) hout)),
      h.holder_other fun hn => hn,
      h.queueing.mono fun u hu => wants_goto (by rw [hpc]; exact fun hn => hn) u hu, h.nodup,
      fun c' u hu => ?_, fun c' u hu hunot => ?_, fun u hu => ?_⟩, ?_⟩
    · have hut : u ≠ t := fun he => hnone c' (he ▸ hu)
      change (s.goto t .reacquire).pc u = _ ∧ (Function.update s.waiter t _ u = _
        ∨ Function.update s.waiter t _ u = _)
      rw [pc_goto_other hut, Function.update_of_ne hut]
      exact h.queued c' u hu
    · change (s.goto t .reacquire).pc u = _ at hu
      change Function.update s.waiter t _ u = _
      have hut : u ≠ t := by
        rintro rfl
        rw [pc_goto_self] at hu
        cases hu
      rw [pc_goto_other hut] at hu
      rw [Function.update_of_ne hut]
      exact h.woken c' u hu hunot
    · change (Function.update s.waiter t _ u).queue = []
      by_cases hut : u = t
      · rw [hut, Function.update_self]
      · rw [Function.update_of_ne hut]
        refine h.unused u fun c' hc' => hu c' ?_
        change (s.goto t .reacquire).pc u = _
        rw [pc_goto_other hut, hc']
    · refine abs_goto_same (s := { s with waiter := Function.update s.waiter t ⟨0, []⟩ }) ?_
      change Mesa.Status.woken = statusOf s.waitQueue t (s.pc t)
      rw [hpc, statusOf, if_neg hq]

/-- **One step**: no assertion fails, and the step is one of the monitor or
unseen. -/
theorem op_matched (h : Inv s) (hpc : s.pc t = .inside) (o : Op C σ)
    (hok : Restores I s (.op t o)) : ∃ s', step s (.op t o) = some s' ∧ Matched I s s' := by
  have hin : (s.pc t).Holds := by rw [hpc]; trivial
  rw [step, if_pos hpc]
  cases o with
  | release => exact release_matched h hpc hok
  | wait c => exact wait_matched h hpc hok
  | signal c =>
      obtain ⟨s', hs', -, hm⟩ := signal_matched (I := I) h hin c
      exact ⟨s', hs', hm⟩
  | broadcast c => exact broadcast_matched h hin c
  | assign d =>
      refine ⟨_, rfl, ⟨h.guards, h.holder, h.queueing, h.nodup, h.queued, h.woken, h.unused⟩,
        Or.inr (.assign d (t := t) (statusOf_inside.mpr ?_))⟩
      rw [hpc]
      trivial

theorem advance_matched (h : Inv s) (hawake : ¬s.Asleep t) (hs : s.advance t = some s') :
    Matched I s s' := by
  obtain ⟨hlock, hwaiter⟩ := not_or.mp hawake
  rw [State.advance] at hs
  split at hs
  next => cases hs
  next hpc =>
    obtain rfl := Option.some.inj hs
    exact acquire_matched h (by rw [hpc]; trivial) trivial (fun hn => hn) hlock
  next hpc =>
    obtain rfl := Option.some.inj hs
    exact take_matched h (by rw [hpc]; trivial)
  next => cases hs
  next c hpc =>
    obtain ⟨s₁, hs₁, hm⟩ := broadcast_matched (I := I) h (t := t) (by rw [hpc]; trivial) c
    obtain rfl := Option.some.inj (hs.symm.trans hs₁)
    exact hm
  next c hpc =>
    obtain rfl := Option.some.inj hs
    exact (pass_keeps h hpc hwaiter).imp_right Or.inl
  next hpc =>
    obtain rfl := Option.some.inj hs
    exact acquire_matched h (by rw [hpc]; trivial) trivial (fun hn => hn) hlock
  next hpc =>
    obtain rfl := Option.some.inj hs
    exact take_matched h (by rw [hpc]; trivial)

theorem call_matched (h : Inv s) (hpc : s.pc t = .outside) : Matched I s (s.goto t .acquire) := by
  refine ⟨h.move (l := s.lock) (by simp [hpc]) (by simp)
    (h.guards.congr rfl (inside_goto_same (by rw [hpc]; exact Iff.rfl)))
    (h.holder_other fun hn => hn)
    (h.queueing.mono fun u hu => wants_goto (by rw [hpc]; exact fun hn => hn) u hu), Or.inr ?_⟩
  rw [abs_goto]
  refine .call ?_
  change statusOf s.waitQueue t (s.pc t) = _
  rw [hpc, statusOf]

theorem step_matched (h : Inv s) {a : Action T C σ} (hok : Restores I s a)
    (hs : step s a = some s') : Matched I s s' := by
  cases a with
  | call t =>
      rw [step] at hs
      split at hs
      next hpc =>
        obtain rfl := Option.some.inj hs
        exact call_matched h hpc
      next => cases hs
  | op t o =>
      by_cases hpc : s.pc t = .inside
      · obtain ⟨s₁, hs₁, hm⟩ := op_matched h hpc o hok
        obtain rfl := Option.some.inj (hs.symm.trans hs₁)
        exact hm
      · rw [step, if_neg hpc] at hs
        cases hs
  | run t =>
      rw [step] at hs
      split at hs
      next => cases hs
      next hawake => exact advance_matched h hawake hs

end Steps

end Monitor

end Nachos
