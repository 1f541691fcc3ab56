import Nachos.CInt
import Nachos.Run
import Nachos.SortedInsert

/-!
# The interrupt simulation

`Interrupt` of `machine/interrupt.cc` together with the clock it advances
(`Statistics` of `machine/stats.h`). A pending interrupt is the object
whose `CallBack` is to be called, the time it is due at and its kind; the
list is sorted by `PendingCompare`.

A handler is any code that calls `Schedule`. The loop of `CheckIfDue` is
therefore taken handler by handler: `oneTick` and `idle` go up to the call
of the first handler, if one is due, and `callBackReturns` goes from its
return to the call of the next one or out of the loop and to the end of the
routine that called `CheckIfDue`. `inHandler` says which routine that is.
Handlers neither enable interrupts, which `SetLevel` asserts, nor run user
instructions or wait. `Halt` ends the run, and so does a failed assertion.
The `Yield` at the end of `OneTick` runs other threads; that it puts the
status back afterwards is a step `setStatus` of its own.

Three fields are not the program's: `id` numbers the calls of `Schedule`,
`called` are the calls of handlers so far, each with the value of the clock
at the call, and `time` is the clock without its bound of 32 bits. The guard
`InRange` is that no call of `Schedule` computes a sum above the range of
`int`.

`Ordered` keeps the calls made and the pending interrupts as one list, in
which a call only moves the boundary.
-/

namespace Nachos

open CInt

/-- `IntStatus` -/
inductive IntStatus where
  | intOff
  | intOn
deriving DecidableEq

/-- `MachineStatus` -/
inductive MachineStatus where
  | idleMode
  | systemMode
  | userMode
deriving DecidableEq

/-- `IntType` -/
inductive IntType where
  | timerInt
  | diskInt
  | consoleWriteInt
  | consoleReadInt
  | networkSendInt
  | networkRecvInt
deriving DecidableEq

/-- `PendingInterrupt` -/
structure PendingInterrupt (C : Type) where
  callOnInterrupt : C
  when : Int
  type : IntType
  id : Nat
deriving DecidableEq

/-- `PendingCompare` -/
def pendingCompare {C : Type} (x y : PendingInterrupt C) : Int :=
  if x.when < y.when then -1 else if x.when > y.when then 1 else 0

/-- `Statistics`, the part that is the clock. -/
structure Statistics where
  totalTicks : Int
  idleTicks : Int
  systemTicks : Int
  userTicks : Int
deriving DecidableEq

/-- `UserTick` -/
def userTick : Int := 1

/-- `SystemTick` -/
def systemTick : Int := 10

namespace Interrupt

/-- The routines that call `CheckIfDue`. -/
inductive Caller where
  | oneTick
  | idle
deriving DecidableEq

structure State (C : Type) where
  level : IntStatus
  pending : List (PendingInterrupt C)
  inHandler : Option Caller
  yieldOnReturn : Bool
  status : MachineStatus
  stats : Statistics
  scheduled : Nat
  called : List (PendingInterrupt C × Int)
  time : Int
deriving DecidableEq

inductive Action (C : Type) where
  | schedule (toCall : C) (fromNow : Int) (type : IntType)
  | setLevel (now : IntStatus)
  | oneTick
  | idle
  | callBackReturns
  | callYieldOnReturn
  | setStatus (status : MachineStatus)
deriving DecidableEq

variable {C : Type}

/-- `Interrupt::Interrupt`, the clock at 0. -/
def new : State C := ⟨.intOff, [], none, false, .systemMode, ⟨0, 0, 0, 0⟩, 0, [], 0⟩

/-- `Interrupt::Schedule` -/
def schedule (s : State C) (toCall : C) (fromNow : Int) (type : IntType) : Option (State C) :=
  if fromNow > 0 then
    let toOccur : PendingInterrupt C :=
      ⟨toCall, wrap32 (s.stats.totalTicks + fromNow), type, s.scheduled⟩
    some { s with
      pending := SortedList.insert pendingCompare toOccur s.pending
      scheduled := s.scheduled + 1 }
  else none

/-- The clock at the start of `OneTick`. -/
def advance (s : State C) : State C :=
  if s.status = .systemMode then
    { s with
      stats.totalTicks := wrap32 (s.stats.totalTicks + systemTick)
      stats.systemTicks := wrap32 (s.stats.systemTicks + systemTick)
      time := s.time + systemTick }
  else
    { s with
      stats.totalTicks := wrap32 (s.stats.totalTicks + userTick)
      stats.userTicks := wrap32 (s.stats.userTicks + userTick)
      time := s.time + userTick }

/-- The clock moved to the next interrupt. -/
def advanceTo (s : State C) (when : Int) : State C :=
  { s with
    stats.idleTicks := wrap32 (s.stats.idleTicks + (when - s.stats.totalTicks))
    stats.totalTicks := when
    time := s.time + (when - s.stats.totalTicks) }

/-- `next` is taken off the list and its handler called. -/
def call (s : State C) (next : PendingInterrupt C) (rest : List (PendingInterrupt C)) : State C :=
  { s with pending := rest, called := s.called ++ [(next, s.stats.totalTicks)] }

/-- `CheckIfDue` up to the call of the first handler; `none` is the return of
`FALSE`. -/
def checkIfDue (s : State C) (caller : Caller) (advanceClock : Bool) : Option (State C) :=
  match s.pending with
  | [] => none
  | next :: rest =>
      if next.when > s.stats.totalTicks then
        if advanceClock then
          some (call { advanceTo s next.when with inHandler := some caller } next rest)
        else none
      else some (call { s with inHandler := some caller } next rest)

/-- What is left of the routine when `CheckIfDue` has returned. -/
def finish (s : State C) : Caller → State C
  | .oneTick =>
      if s.yieldOnReturn then
        { s with level := .intOn, yieldOnReturn := false, status := .systemMode }
      else { s with level := .intOn }
  | .idle => { s with status := .systemMode }

/-- `Interrupt::OneTick` up to the first handler, or to its end. -/
def oneTick (s : State C) : State C :=
  let s := { advance s with level := .intOff }
  (checkIfDue s .oneTick false).getD (finish s .oneTick)

/-- `Interrupt::Idle` up to the first handler. -/
def idle (s : State C) : Option (State C) :=
  if s.level = .intOff then checkIfDue { s with status := .idleMode } .idle true else none

/-- The end of a pass of the loop of `CheckIfDue`. -/
def callBackReturns (s : State C) (caller : Caller) : State C :=
  match s.pending with
  | [] => finish { s with inHandler := none } caller
  | next :: rest =>
      if next.when ≤ s.stats.totalTicks then call s next rest
      else finish { s with inHandler := none } caller

def step (s : State C) : Action C → Option (State C)
  | .schedule toCall fromNow type => schedule s toCall fromNow type
  | .setLevel now =>
      if now = .intOff ∨ s.inHandler = none then
        if now = .intOn ∧ s.level = .intOff then some (oneTick { s with level := now })
        else some { s with level := now }
      else none
  | .oneTick => if s.inHandler = none then some (oneTick s) else none
  | .idle => if s.inHandler = none then idle s else none
  | .callBackReturns => s.inHandler.map (callBackReturns s)
  | .callYieldOnReturn => if s.inHandler ≠ none then some { s with yieldOnReturn := true } else none
  | .setStatus status => some { s with status := status }

/-- The time that `Schedule` computes is not above the range of `int`. -/
def InRange (s : State C) : Action C → Prop
  | .schedule _ fromNow _ => s.time + fromNow ≤ intMax
  | _ => True

instance (s : State C) : (a : Action C) → Decidable (InRange s a)
  | .schedule _ _ _ => inferInstanceAs (Decidable (_ ≤ _))
  | .setLevel _ | .oneTick | .idle | .callBackReturns | .callYieldOnReturn | .setStatus _ =>
      inferInstanceAs (Decidable True)

/-! ## Order of the calls -/

/-- `x` is due before `y`, or at the same time and was scheduled earlier. -/
def Before (x y : PendingInterrupt C) : Prop := x.when < y.when ∨ (x.when = y.when ∧ x.id < y.id)

theorem Before.trans {x y z : PendingInterrupt C} (hxy : Before x y) (hyz : Before y z) :
    Before x z := by
  simp only [Before] at *
  omega

theorem pendingCompare_neg {x y : PendingInterrupt C} :
    pendingCompare x y < 0 ↔ x.when < y.when := by
  rw [pendingCompare]
  split
  · simp [*]
  · split <;> simp [*]

/-- The interrupts whose handlers have been called, in the order of the
calls, and the pending ones, in the order of the list. -/
def State.history (s : State C) : List (PendingInterrupt C) := s.called.map Prod.fst ++ s.pending

/-- No pending interrupt is due. -/
def State.Quiet (s : State C) : Prop := ∀ p ∈ s.pending, s.stats.totalTicks < p.when

/-- What holds throughout a run, within handlers too. As long as the clock has
not overflowed, the handlers called were due by now. -/
structure Ordered (s : State C) : Prop where
  sorted : s.history.Pairwise Before
  ids : (s.history.map (·.id)).Perm (List.range s.scheduled)
  nonneg : 0 ≤ s.time
  clock : s.time ≤ intMax → s.stats.totalTicks = s.time
  past : s.time ≤ intMax → ∀ c ∈ s.called, c.1.when ≤ s.stats.totalTicks
  due : ∀ c ∈ s.called, c.1.when ≤ c.2

/-- The clock moves forward, by `d` as long as it does not overflow. -/
theorem Ordered.tick {s s' : State C} {d : Int} (h : Ordered s) (hd : 0 ≤ d)
    (hp : s'.pending = s.pending) (hc : s'.called = s.called) (hs : s'.scheduled = s.scheduled)
    (ht : s'.time = s.time + d)
    (hk : s'.time ≤ intMax → s'.stats.totalTicks = s.stats.totalTicks + d) : Ordered s' := by
  have hh : s'.history = s.history := by rw [State.history, State.history, hp, hc]
  have hnonneg := h.nonneg
  refine ⟨?_, ?_, by omega, fun hmax => ?_, fun hmax c hmem => ?_, ?_⟩
  · rw [hh]; exact h.sorted
  · rw [hh, hs]; exact h.ids
  · have hold := h.clock (by omega)
    have hnew := hk hmax
    omega
  · rw [hc] at hmem
    have hold := h.past (by omega) c hmem
    have hnew := hk hmax
    omega
  · rw [hc]; exact h.due

theorem Ordered.congr {s s' : State C} (h : Ordered s) (hp : s'.pending = s.pending)
    (hc : s'.called = s.called) (hs : s'.scheduled = s.scheduled) (ht : s'.time = s.time)
    (hk : s'.stats.totalTicks = s.stats.totalTicks) : Ordered s' :=
  h.tick le_rfl hp hc hs (by rw [ht, Int.add_zero]) fun _ => by rw [hk, Int.add_zero]

theorem Ordered.advance {s : State C} (h : Ordered s) : Ordered (advance s) := by
  have hclock : ∀ d, 0 ≤ d → s.time + d ≤ intMax →
      wrap32 (s.stats.totalTicks + d) = s.stats.totalTicks + d := fun d hd hmax => by
    have hnonneg := h.nonneg
    have hold := h.clock (by omega)
    exact wrap32_of_bounds (by omega) (by simp only [intMax] at hmax; omega)
  rw [Interrupt.advance]
  split
  · exact h.tick (by decide) rfl rfl rfl rfl (hclock systemTick (by decide))
  · exact h.tick (by decide) rfl rfl rfl rfl (hclock userTick (by decide))

theorem Ordered.advanceTo {s : State C} {when : Int} (h : Ordered s)
    (hlt : s.stats.totalTicks < when) : Ordered (advanceTo s when) :=
  h.tick (d := when - s.stats.totalTicks) (by omega) rfl rfl rfl rfl fun _ => by
    change when = s.stats.totalTicks + (when - s.stats.totalTicks)
    omega

/-- A new interrupt is due after everything that has been called. -/
theorem Ordered.schedule {s s' : State C} {toCall : C} {fromNow : Int} {type : IntType}
    (h : Ordered s) (hmax : s.time + fromNow ≤ intMax)
    (hs : schedule s toCall fromNow type = some s') : Ordered s' := by
  rw [Interrupt.schedule] at hs
  split at hs
  next hpos =>
    obtain rfl := Option.some.inj hs
    have hnonneg := h.nonneg
    have hclock := h.clock (by omega)
    have hwhen : wrap32 (s.stats.totalTicks + fromNow) = s.stats.totalTicks + fromNow :=
      wrap32_of_bounds (by omega) (by simp only [intMax] at hmax; omega)
    rw [hwhen]
    generalize hnew : (⟨toCall, s.stats.totalTicks + fromNow, type, s.scheduled⟩ :
      PendingInterrupt C) = new
    obtain ⟨hcalled, hpending, hcross⟩ := List.pairwise_append.mp h.sorted
    have hid : ∀ p ∈ s.history, p.id < new.id := fun p hp => by
      have hmem := h.ids.subset (List.mem_map_of_mem hp)
      rw [← hnew]
      exact List.mem_range.mp hmem
    refine ⟨?_, ?_, h.nonneg, h.clock, h.past, h.due⟩
    · refine List.pairwise_append.mpr ⟨hcalled, ?_, fun x hx y hy => ?_⟩
      · refine SortedList.pairwise_insert hpending (fun x hx hge => ?_)
          (fun x _ hlt => Or.inl (pendingCompare_neg.mp hlt)) fun _ _ => Before.trans
        have hxid := hid x (List.mem_append_right _ hx)
        rw [pendingCompare_neg] at hge
        simp only [Before]
        omega
      · rcases SortedList.mem_insert.mp hy with rfl | hy
        · obtain ⟨c, hc, rfl⟩ := List.mem_map.mp hx
          have hpast := h.past (by omega) c hc
          refine Or.inl ?_
          rw [← hnew]
          change c.1.when < s.stats.totalTicks + fromNow
          omega
        · exact hcross x hx y hy
    · have hperm : (s.called.map Prod.fst ++ SortedList.insert pendingCompare new s.pending).Perm
          (new :: s.history) :=
        (SortedList.perm_insert.append_left _).trans List.perm_middle
      refine (hperm.map _).trans ?_
      rw [List.map_cons, List.range_succ]
      refine (List.Perm.cons _ h.ids).trans ?_
      rw [← hnew]
      exact (List.perm_append_singleton _ _).symm
  next => cases hs

/-- A call moves the boundary between the calls made and the pending
interrupts. -/
theorem Ordered.call {s : State C} {next : PendingInterrupt C} {rest : List (PendingInterrupt C)}
    (h : Ordered s) (hp : s.pending = next :: rest) (hdue : next.when ≤ s.stats.totalTicks) :
    Ordered (call s next rest) := by
  have hh : (Interrupt.call s next rest).history = s.history := by
    change (s.called ++ [(next, s.stats.totalTicks)]).map Prod.fst ++ rest = _
    rw [List.map_append, List.append_assoc, State.history, hp]
    rfl
  refine ⟨?_, ?_, h.nonneg, h.clock, fun hmax c hc => ?_, fun c hc => ?_⟩
  · rw [hh]; exact h.sorted
  · rw [hh]; exact h.ids
  · rcases List.mem_append.mp hc with hc | hc
    · exact h.past hmax c hc
    · obtain rfl := List.mem_singleton.mp hc
      exact hdue
  · rcases List.mem_append.mp hc with hc | hc
    · exact h.due c hc
    · obtain rfl := List.mem_singleton.mp hc
      exact hdue

/-- If the first pending interrupt is not due, none is. -/
theorem Ordered.quiet {s : State C} {next : PendingInterrupt C} {rest : List (PendingInterrupt C)}
    (h : Ordered s) (hp : s.pending = next :: rest) (hlt : s.stats.totalTicks < next.when) :
    s.Quiet := by
  have hsorted := (List.pairwise_append.mp h.sorted).2.1
  rw [hp, List.pairwise_cons] at hsorted
  intro p hmem
  rw [hp] at hmem
  rcases List.mem_cons.mp hmem with rfl | hmem
  · exact hlt
  · have hbefore := hsorted.1 p hmem
    simp only [Before] at hbefore
    omega

/-- The invariant of a run. -/
structure Inv (s : State C) : Prop where
  ordered : Ordered s
  quiet : s.inHandler = none → s.Quiet

theorem quiet_of_nil {s : State C} (hp : s.pending = []) : s.Quiet := by
  intro p hmem
  rw [hp] at hmem
  exact absurd hmem List.not_mem_nil

theorem Ordered.checkIfDue_some {s s' : State C} {caller : Caller} {advanceClock : Bool}
    (h : Ordered s) (hs : checkIfDue s caller advanceClock = some s') : Inv s' := by
  rw [checkIfDue] at hs
  split at hs
  next => cases hs
  next next rest hp =>
    split at hs
    next hlt =>
      split at hs
      next =>
        obtain rfl := Option.some.inj hs
        have hto : Ordered { Interrupt.advanceTo s next.when with inHandler := some caller } :=
          (h.advanceTo hlt).congr rfl rfl rfl rfl rfl
        exact ⟨hto.call hp le_rfl, fun hnone => absurd hnone (Option.some_ne_none _)⟩
      next => cases hs
    next hge =>
      obtain rfl := Option.some.inj hs
      have hin : Ordered { s with inHandler := some caller } := h.congr rfl rfl rfl rfl rfl
      exact ⟨hin.call hp (Int.not_lt.mp hge), fun hnone => absurd hnone (Option.some_ne_none _)⟩

/-- `CheckIfDue` returns `FALSE` only if nothing is due. -/
theorem Ordered.checkIfDue_none {s : State C} {caller : Caller} {advanceClock : Bool}
    (h : Ordered s) (hs : checkIfDue s caller advanceClock = none) : s.Quiet := by
  rw [checkIfDue] at hs
  split at hs
  next hp => exact quiet_of_nil hp
  next next rest hp =>
    split at hs
    next hlt => exact h.quiet hp hlt
    next => exact absurd hs (Option.some_ne_none _)

theorem finish_fields (s : State C) (caller : Caller) :
    (finish s caller).pending = s.pending ∧ (finish s caller).called = s.called
      ∧ (finish s caller).scheduled = s.scheduled ∧ (finish s caller).time = s.time
      ∧ (finish s caller).stats = s.stats := by
  cases caller with
  | oneTick =>
      rw [finish]
      split <;> exact ⟨rfl, rfl, rfl, rfl, rfl⟩
  | idle => exact ⟨rfl, rfl, rfl, rfl, rfl⟩

theorem Ordered.finish {s : State C} (h : Ordered s) (hq : s.Quiet) (caller : Caller) :
    Inv (finish s caller) := by
  obtain ⟨hp, hc, hs, ht, hk⟩ := finish_fields s caller
  refine ⟨h.congr hp hc hs ht (by rw [hk]), fun _ p hmem => ?_⟩
  rw [hp] at hmem
  rw [hk]
  exact hq p hmem

theorem Ordered.oneTick {s : State C} (h : Ordered s) : Inv (oneTick s) := by
  have hlevel : Ordered { Interrupt.advance s with level := .intOff } :=
    h.advance.congr rfl rfl rfl rfl rfl
  rw [Interrupt.oneTick]
  cases hcheck : checkIfDue { Interrupt.advance s with level := .intOff } .oneTick false with
  | some s' => exact hlevel.checkIfDue_some hcheck
  | none => exact hlevel.finish (hlevel.checkIfDue_none hcheck) .oneTick

theorem Ordered.callBackReturns {s : State C} {caller : Caller} (h : Ordered s)
    (hin : s.inHandler = some caller) : Inv (callBackReturns s caller) := by
  have hout : Ordered { s with inHandler := none } := h.congr rfl rfl rfl rfl rfl
  rw [Interrupt.callBackReturns]
  split
  next hp => exact hout.finish (quiet_of_nil hp) caller
  next next rest hp =>
    split
    next hdue =>
      refine ⟨h.call hp hdue, fun hnone => ?_⟩
      exact absurd (hin.symm.trans hnone) (Option.some_ne_none _)
    next hnot => exact hout.finish (hout.quiet hp (Int.not_le.mp hnot)) caller

theorem Inv.schedule {s s' : State C} {toCall : C} {fromNow : Int} {type : IntType} (h : Inv s)
    (hmax : s.time + fromNow ≤ intMax) (hs : schedule s toCall fromNow type = some s') :
    Inv s' := by
  refine ⟨h.ordered.schedule hmax hs, fun hnone p hmem => ?_⟩
  rw [Interrupt.schedule] at hs
  split at hs
  next hpos =>
    obtain rfl := Option.some.inj hs
    rcases SortedList.mem_insert.mp hmem with rfl | hmem
    · have hnonneg := h.ordered.nonneg
      have hclock := h.ordered.clock (by omega)
      change s.stats.totalTicks < wrap32 (s.stats.totalTicks + fromNow)
      rw [wrap32_of_bounds (by omega) (by simp only [intMax] at hmax; omega)]
      omega
    · exact h.quiet hnone p hmem
  next => cases hs

theorem Inv.step {s s' : State C} {a : Action C} (h : Inv s) (hok : InRange s a)
    (hs : step s a = some s') : Inv s' := by
  cases a with
  | schedule toCall fromNow type => exact h.schedule hok hs
  | setLevel now =>
      simp only [Interrupt.step] at hs
      split at hs
      next =>
        split at hs
        next =>
          obtain rfl := Option.some.inj hs
          exact (h.ordered.congr rfl rfl rfl rfl rfl : Ordered { s with level := now }).oneTick
        next =>
          obtain rfl := Option.some.inj hs
          exact ⟨h.ordered.congr rfl rfl rfl rfl rfl, h.quiet⟩
      next => cases hs
  | oneTick =>
      simp only [Interrupt.step] at hs
      split at hs
      next =>
        obtain rfl := Option.some.inj hs
        exact h.ordered.oneTick
      next => cases hs
  | idle =>
      simp only [Interrupt.step, idle] at hs
      split at hs
      next =>
        split at hs
        next =>
          exact (h.ordered.congr rfl rfl rfl rfl rfl :
            Ordered { s with status := .idleMode }).checkIfDue_some hs
        next => cases hs
      next => cases hs
  | callBackReturns =>
      obtain ⟨caller, hin, rfl⟩ := Option.map_eq_some_iff.mp hs
      exact h.ordered.callBackReturns hin
  | callYieldOnReturn =>
      simp only [Interrupt.step] at hs
      split at hs
      next =>
        obtain rfl := Option.some.inj hs
        exact ⟨h.ordered.congr rfl rfl rfl rfl rfl, h.quiet⟩
      next => cases hs
  | setStatus status =>
      obtain rfl := Option.some.inj hs
      exact ⟨h.ordered.congr rfl rfl rfl rfl rfl, h.quiet⟩

theorem Inv.new : Inv (new : State C) := by
  refine ⟨⟨List.Pairwise.nil, List.Perm.refl _, le_rfl, fun _ => rfl, fun _ c hc => ?_,
    fun c hc => ?_⟩, fun _ p hp => ?_⟩
  · exact absurd hc List.not_mem_nil
  · exact absurd hc List.not_mem_nil
  · exact absurd hp List.not_mem_nil

/-! ## Delivery -/

/-- Delivery in order, of the calls made so far: each at most once, none
before its time, in the order of their times and of the calls of `Schedule`,
and nothing due left over outside the loop of `CheckIfDue`. -/
structure Delivered (s : State C) : Prop where
  once : (s.called.map fun c => c.1.id).Nodup
  due : ∀ c ∈ s.called, c.1.when ≤ c.2
  ordered : (s.called.map Prod.fst).Pairwise Before
  quiet : s.inHandler = none → s.Quiet

/-- **Delivery order.** In every run in which `Schedule` stays in the range of
`int`, the handlers are called in order. -/
theorem delivered_in_order {s : State C} (h : Run.Reach step InRange new s) : Delivered s := by
  have hinv : Inv s := h.invariant Inv.new fun s a s' _ hi hok hs => hi.step hok hs
  have hnodup : (s.history.map (·.id)).Nodup := hinv.ordered.ids.nodup_iff.mpr List.nodup_range
  rw [State.history, List.map_append, List.map_map] at hnodup
  exact ⟨(List.nodup_append.mp hnodup).1, hinv.ordered.due,
    (List.pairwise_append.mp hinv.ordered.sorted).1, hinv.quiet⟩

/-- Two interrupts due at the same time, the first of which schedules a third
one that the idle machine then waits for. -/
theorem delivered_in_order_three :
    ∃ s : State Nat, Run.Reach step InRange new s
      ∧ s.called.map (fun c => (c.1.callOnInterrupt, c.2)) = [(7, 20), (8, 20), (9, 25)]
      ∧ Delivered s := by
  have hrun : (Run.exec step InRange (new : State Nat)
      [.schedule 7 20 .timerInt, .schedule 8 20 .diskInt, .oneTick, .oneTick,
        .schedule 9 5 .consoleReadInt, .callBackReturns, .callBackReturns, .setLevel .intOff, .idle,
        .callBackReturns]).map (fun s => s.called.map fun c => (c.1.callOnInterrupt, c.2))
      = some [(7, 20), (8, 20), (9, 25)] := by
    decide
  obtain ⟨s, hexec, hcalled⟩ := Option.map_eq_some_iff.mp hrun
  have hreach := Run.Reach.of_exec _ hexec
  exact ⟨s, hreach, hcalled, delivered_in_order hreach⟩

end Interrupt

end Nachos
