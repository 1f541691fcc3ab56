import Nachos.Interrupt

/-!
# The loop of `CheckIfDue` with the handlers in it

`Interrupt` takes the loop of `CheckIfDue` handler by handler and leaves open
what a handler does. Here the handlers are part of the loop: `Handlers` says
for the state of the devices and the interrupt that is served which calls of
`Schedule` its `CallBack` makes, and `checkIfDueAll` is the routine from its
call to its return. The loop takes from a queue that its own handlers refill,
so it is run with fuel, and that it returns is that some fuel is enough.

The clock stands still within the loop. What decides is therefore how many
pending interrupts are due (`numDue`): a pass takes one off, and an interrupt
scheduled with a positive delay is due later than now, unless the sum of the
clock and the delay leaves the range of `int` (`scheduleAll_numDue`). If it
does, the new time is negative, so it is due at once, and a device that
schedules itself again is served forever (`loop_none`).

`devices` are the devices that poll: the timer, the console input and the
network input.
-/

namespace Nachos

namespace Interrupt

open CInt Run

variable {C D : Type}

/-! ## The loop -/

/-- The arguments of a call of `Schedule`. -/
structure Request (C : Type) where
  toCall : C
  fromNow : Int
  type : IntType
deriving DecidableEq

/-- The calls of `Schedule` that the `CallBack` of an interrupt makes, and the
state it leaves the devices in. -/
def Handlers (D C : Type) : Type := D → PendingInterrupt C → List (Request C) × D

def scheduleAll (s : State C) : List (Request C) → Option (State C)
  | [] => some s
  | r :: rs => (schedule s r.toCall r.fromNow r.type).bind fun s' => scheduleAll s' rs

/-- The condition of the loop of `CheckIfDue`. -/
def frontDue (s : State C) : Bool :=
  match s.pending with
  | [] => false
  | next :: _ => next.when ≤ s.stats.totalTicks

/-- The loop of `CheckIfDue`, for at most `fuel` passes. -/
def loop (handlers : Handlers D C) : Nat → D → State C → Option (D × State C)
  | 0, _, _ => none
  | fuel + 1, w, s =>
      match s.pending with
      | [] => none
      | next :: rest =>
          (scheduleAll (call s next rest) (handlers w next).1).bind fun s' =>
            if frontDue s' then loop handlers fuel (handlers w next).2 s'
            else some ((handlers w next).2, s')

/-- `CheckIfDue` up to its loop; `none` is the return of `FALSE`. -/
def loopEntry (advanceClock : Bool) (s : State C) : Option (State C) :=
  match s.pending with
  | [] => none
  | next :: _ =>
      if next.when > s.stats.totalTicks then
        if advanceClock then some (advanceTo s next.when) else none
      else some s

/-- `Interrupt::CheckIfDue`: what it returns, the devices and the state. -/
def checkIfDueAll (handlers : Handlers D C) (caller : Caller) (advanceClock : Bool) (fuel : Nat)
    (w : D) (s : State C) : Option (Bool × D × State C) :=
  match loopEntry advanceClock s with
  | none => some (false, w, s)
  | some s =>
      (loop handlers fuel w { s with inHandler := some caller }).map fun r =>
        (true, r.1, { r.2 with inHandler := none })

/-- The clock while `CheckIfDue` runs its loop. -/
def loopClock (advanceClock : Bool) (s : State C) : Int :=
  ((loopEntry advanceClock s).getD s).stats.totalTicks

/-- Every delay that a handler schedules with is positive and at most `d`. -/
def Handlers.Within (handlers : Handlers D C) (d : Int) : Prop :=
  ∀ w next, ∀ r ∈ (handlers w next).1, 0 < r.fromNow ∧ r.fromNow ≤ d

/-- `CheckIfDue` comes back after finitely many handlers. -/
def Returns (handlers : Handlers D C) (caller : Caller) (advanceClock : Bool) (w : D)
    (s : State C) : Prop :=
  ∃ fuel r, checkIfDueAll handlers caller advanceClock fuel w s = some r

/-! ## The loop is a run of the steps -/

theorem scheduleAll_reach {rs : List (Request C)} :
    ∀ {s s' : State C}, scheduleAll s rs = some s' → Reach step Any s s' := by
  induction rs with
  | nil =>
      intro s s' hs
      obtain rfl := Option.some.inj hs
      exact Relation.ReflTransGen.refl
  | cons r rs ih =>
      intro s s' hs
      obtain ⟨s₁, hs₁, hrest⟩ := Option.bind_eq_some_iff.mp hs
      exact Relation.ReflTransGen.head ⟨.schedule r.toCall r.fromNow r.type, trivial, hs₁⟩
        (ih hrest)

theorem schedule_fields {s s' : State C} {toCall : C} {fromNow : Int} {type : IntType}
    (hs : schedule s toCall fromNow type = some s') :
    s'.inHandler = s.inHandler ∧ s'.stats = s.stats := by
  rw [schedule] at hs
  split at hs
  · obtain rfl := Option.some.inj hs
    exact ⟨rfl, rfl⟩
  · cases hs

theorem scheduleAll_fields {rs : List (Request C)} :
    ∀ {s s' : State C}, scheduleAll s rs = some s' →
      s'.inHandler = s.inHandler ∧ s'.stats = s.stats := by
  induction rs with
  | nil =>
      intro s s' hs
      obtain rfl := Option.some.inj hs
      exact ⟨rfl, rfl⟩
  | cons r rs ih =>
      intro s s' hs
      obtain ⟨s₁, hs₁, hrest⟩ := Option.bind_eq_some_iff.mp hs
      obtain ⟨hin, hstats⟩ := schedule_fields hs₁
      obtain ⟨hin', hstats'⟩ := ih hrest
      exact ⟨hin'.trans hin, hstats'.trans hstats⟩

theorem frontDue_cases {s : State C} (hdue : frontDue s = true) :
    ∃ next rest, s.pending = next :: rest ∧ next.when ≤ s.stats.totalTicks := by
  cases hp : s.pending with
  | nil => rw [frontDue, hp] at hdue; cases hdue
  | cons next rest =>
      rw [frontDue, hp] at hdue
      exact ⟨next, rest, rfl, of_decide_eq_true hdue⟩

theorem callBackReturns_of_due {s : State C} {next : PendingInterrupt C}
    {rest : List (PendingInterrupt C)} (hp : s.pending = next :: rest)
    (hdue : next.when ≤ s.stats.totalTicks) (caller : Caller) :
    callBackReturns s caller = call s next rest := by
  simp only [callBackReturns, hp, hdue, if_true]

theorem callBackReturns_of_not {s : State C} (hnot : ¬frontDue s = true) (caller : Caller) :
    callBackReturns s caller = finish { s with inHandler := none } caller := by
  rw [callBackReturns]
  split
  next => rfl
  next next rest hp =>
    rw [frontDue, hp, decide_eq_true_eq] at hnot
    rw [if_neg hnot]

/-- From the call of a handler on, the loop takes the steps of its handlers
and of the passes, and comes out where the routine that called `CheckIfDue`
goes on. -/
theorem loop_reach {handlers : Handlers D C} {caller : Caller} :
    ∀ {fuel : Nat} {w w' : D} {s s' : State C} {next : PendingInterrupt C}
      {rest : List (PendingInterrupt C)}, s.pending = next :: rest →
      s.inHandler = some caller → loop handlers fuel w s = some (w', s') →
      Reach step Any (call s next rest) (finish { s' with inHandler := none } caller) := by
  intro fuel
  induction fuel with
  | zero => intro w w' s s' next rest _ _ hs; cases hs
  | succ fuel ih =>
      intro w w' s s' next rest hp hin hs
      rw [loop, hp] at hs
      obtain ⟨s₁, hs₁, hs⟩ := Option.bind_eq_some_iff.mp hs
      obtain ⟨hin₁, -⟩ := scheduleAll_fields hs₁
      have hin₁ : s₁.inHandler = some caller := hin₁.trans hin
      refine (scheduleAll_reach hs₁).trans ?_
      have hback : Next step Any s₁ (callBackReturns s₁ caller) :=
        ⟨.callBackReturns, trivial, by rw [step, hin₁]; rfl⟩
      split at hs
      next hdue =>
        obtain ⟨next₁, rest₁, hp₁, hle⟩ := frontDue_cases hdue
        rw [callBackReturns_of_due hp₁ hle] at hback
        exact Relation.ReflTransGen.head hback (ih hp₁ hin₁ hs)
      next hnot =>
        rw [callBackReturns_of_not hnot] at hback
        obtain rfl : s₁ = s' := (Prod.mk.inj (Option.some.inj hs)).2
        exact Relation.ReflTransGen.single hback

/-! ## The loop ends -/

/-- How many pending interrupts are due. -/
def numDue (s : State C) : Nat := s.pending.countP fun p => p.when ≤ s.stats.totalTicks

/-- An interrupt scheduled within the range of `int` is not due. -/
theorem schedule_numDue {s : State C} {d : Int} (r : Request C) (hclock : IsInt s.stats.totalTicks)
    (hmax : s.stats.totalTicks + d ≤ intMax) (hr : 0 < r.fromNow ∧ r.fromNow ≤ d) :
    ∃ s', schedule s r.toCall r.fromNow r.type = some s' ∧ numDue s' = numDue s := by
  obtain ⟨hpos, hle⟩ := hr
  simp only [IsInt, intMin, intMax] at hclock hmax
  rw [schedule, if_pos hpos]
  refine ⟨_, rfl, ?_⟩
  rw [numDue, numDue, SortedList.perm_insert.countP_eq, List.countP_cons_of_neg]
  have hwhen : wrap32 (s.stats.totalTicks + r.fromNow) = s.stats.totalTicks + r.fromNow :=
    wrap32_of_bounds (by omega) (by omega)
  rw [hwhen, decide_eq_true_eq]
  change ¬s.stats.totalTicks + r.fromNow ≤ s.stats.totalTicks
  omega

theorem scheduleAll_numDue {d : Int} {rs : List (Request C)} :
    ∀ {s : State C}, IsInt s.stats.totalTicks → s.stats.totalTicks + d ≤ intMax →
      (∀ r ∈ rs, 0 < r.fromNow ∧ r.fromNow ≤ d) →
      ∃ s', scheduleAll s rs = some s' ∧ numDue s' = numDue s := by
  induction rs with
  | nil => intro s _ _ _; exact ⟨s, rfl, rfl⟩
  | cons r rs ih =>
      intro s hclock hmax hrs
      obtain ⟨s₁, hs₁, hdue₁⟩ := schedule_numDue r hclock hmax (hrs r List.mem_cons_self)
      have hstats := (schedule_fields hs₁).2
      obtain ⟨s₂, hs₂, hdue₂⟩ := ih (by rw [hstats]; exact hclock) (by rw [hstats]; exact hmax)
        fun r' hr' => hrs r' (List.mem_cons_of_mem _ hr')
      exact ⟨s₂, Option.bind_eq_some_iff.mpr ⟨s₁, hs₁, hs₂⟩, hdue₂.trans hdue₁⟩

/-- A call of a handler that is due leaves one less. -/
theorem numDue_call {s : State C} {next : PendingInterrupt C} {rest : List (PendingInterrupt C)}
    (hp : s.pending = next :: rest) (hdue : next.when ≤ s.stats.totalTicks) :
    numDue s = numDue (call s next rest) + 1 := by
  have hpos : decide (next.when ≤ s.stats.totalTicks) = true := decide_eq_true hdue
  rw [numDue, hp, List.countP_cons, hpos]
  rfl

/-- As many passes as there are interrupts due are enough. -/
theorem loop_some {handlers : Handlers D C} {d : Int} (hwithin : handlers.Within d) :
    ∀ {fuel : Nat} {w : D} {s : State C}, IsInt s.stats.totalTicks →
      s.stats.totalTicks + d ≤ intMax → frontDue s = true → numDue s ≤ fuel →
      ∃ r, loop handlers fuel w s = some r := by
  intro fuel
  induction fuel with
  | zero =>
      intro w s _ _ hdue hfuel
      obtain ⟨next, rest, hp, hle⟩ := frontDue_cases hdue
      have hcall := numDue_call hp hle
      omega
  | succ fuel ih =>
      intro w s hclock hmax hdue hfuel
      obtain ⟨next, rest, hp, hle⟩ := frontDue_cases hdue
      have hcall := numDue_call hp hle
      obtain ⟨s₁, hs₁, hdue₁⟩ :=
        scheduleAll_numDue (s := call s next rest) hclock hmax (hwithin w next)
      have hstats : s₁.stats = s.stats := (scheduleAll_fields hs₁).2
      simp only [loop, hp, hs₁, Option.bind_some]
      split
      next hagain =>
        exact ih (by rw [hstats]; exact hclock) (by rw [hstats]; exact hmax) hagain (by omega)
      next => exact ⟨_, rfl⟩

/-! ## The loop does not end -/

/-- A time that leaves the range of `int` compares earlier than the clock. -/
theorem wrap32_le_of_overflow {t d : Int} (ht : IsInt t) (hd : IsInt d) (hmax : intMax < t + d) :
    wrap32 (t + d) ≤ t := by
  simp only [IsInt, intMin, intMax, wrap32] at *
  omega

/-- An interrupt that is alone and schedules itself again, at a time that
overflows, is served forever. -/
theorem loop_none {handlers : Handlers D C} {c : C} {d : Int} {type : IntType} {P : D → Prop}
    (hself : ∀ w p, P w → p.callOnInterrupt = c →
      (handlers w p).1 = [⟨c, d, type⟩] ∧ P (handlers w p).2) (hd : IsInt d) (hpos : 0 < d) :
    ∀ (fuel : Nat) {w : D} {s : State C} {p : PendingInterrupt C}, P w → s.pending = [p] →
      p.callOnInterrupt = c → IsInt s.stats.totalTicks → intMax < s.stats.totalTicks + d →
      loop handlers fuel w s = none := by
  intro fuel
  induction fuel with
  | zero => intro w s p _ _ _ _ _; rfl
  | succ fuel ih =>
      intro w s p hw hp hc hclock hmax
      obtain ⟨hrequests, hw'⟩ := hself w p hw hc
      have hdue := wrap32_le_of_overflow hclock hd hmax
      simp only [loop, hp, hrequests, scheduleAll, schedule, gt_iff_lt, hpos, if_true,
        Option.bind_some, call, SortedList.insert, frontDue, hdue, decide_true]
      exact ih hw' rfl rfl hclock hmax

/-! ## When `CheckIfDue` returns -/

theorem loopEntry_some {advanceClock : Bool} {s s' : State C}
    (hs : loopEntry advanceClock s = some s') :
    s'.pending = s.pending ∧ frontDue s' = true
      ∧ s'.stats.totalTicks = loopClock advanceClock s := by
  refine ⟨?_, ?_, by rw [loopClock, hs]; rfl⟩
  all_goals
    rw [loopEntry] at hs
    split at hs
    next => cases hs
    next next rest hp =>
      split at hs
      next =>
        split at hs
        · obtain rfl := Option.some.inj hs
          simp [advanceTo, frontDue, hp]
        · cases hs
      next hnot =>
        obtain rfl := Option.some.inj hs
        simp [frontDue, hp, Int.not_lt.mp hnot]

theorem returns_of_within {handlers : Handlers D C} {caller : Caller} {advanceClock : Bool}
    {d : Int} (hwithin : handlers.Within d) (w : D) {s : State C}
    (hclock : IsInt (loopClock advanceClock s)) (hmax : loopClock advanceClock s + d ≤ intMax) :
    Returns handlers caller advanceClock w s := by
  cases hentry : loopEntry advanceClock s with
  | none => exact ⟨0, (false, w, s), by rw [checkIfDueAll, hentry]⟩
  | some s₁ =>
      obtain ⟨-, hdue, heq⟩ := loopEntry_some hentry
      rw [← heq] at hclock hmax
      obtain ⟨r, hr⟩ := loop_some (s := { s₁ with inHandler := some caller }) (w := w)
        hwithin hclock hmax hdue le_rfl
      refine ⟨numDue s₁, (true, r.1, { r.2 with inHandler := none }), ?_⟩
      rw [checkIfDueAll, hentry]
      exact congrArg (Option.map _) hr

theorem not_returns {handlers : Handlers D C} {c : C} {d : Int} {type : IntType} {P : D → Prop}
    (hself : ∀ w p, P w → p.callOnInterrupt = c →
      (handlers w p).1 = [⟨c, d, type⟩] ∧ P (handlers w p).2) (hd : IsInt d) (hpos : 0 < d)
    {caller : Caller} {advanceClock : Bool} {w : D} {s s₁ : State C} {p : PendingInterrupt C}
    (hw : P w) (hp : s.pending = [p]) (hc : p.callOnInterrupt = c)
    (hentry : loopEntry advanceClock s = some s₁)
    (hclock : IsInt s₁.stats.totalTicks) (hmax : intMax < s₁.stats.totalTicks + d) :
    ¬Returns handlers caller advanceClock w s := by
  rintro ⟨fuel, r, hr⟩
  have hp₁ : s₁.pending = [p] := (loopEntry_some hentry).1.trans hp
  have hnone := loop_none (s := { s₁ with inHandler := some caller }) hself hd hpos fuel hw hp₁
    hc hclock hmax
  rw [checkIfDueAll, hentry] at hr
  simp only [hnone] at hr
  cases hr

/-! ## The devices -/

/-- `TimerTicks` -/
def timerTicks : Int := 100

/-- `ConsoleTime` -/
def consoleTime : Int := 100

/-- `NetworkTime` -/
def networkTime : Int := 100

/-- The objects that interrupts are scheduled for. -/
inductive Device where
  | timer
  | consoleInput
  | consoleOutput
  | networkInput
  | networkOutput
  | disk
deriving DecidableEq, Inhabited

/-- What the handlers of the devices read: the fields of the timer, the
answers of `RandomNumber` and of `PollFile`, one for each interrupt served. -/
structure Devices where
  randomize : Bool
  disable : Bool
  randomNumber : Nat → Nat
  pollFile : Nat → Bool
  served : Nat
deriving Inhabited

/-- The delay of `Timer::SetInterrupt`. -/
def Devices.delay (w : Devices) : Int :=
  if w.randomize then 1 + w.randomNumber w.served % (timerTicks * 2) else timerTicks

/-- `CallBack` of the devices. The output devices and the disk wait for the
next request. -/
def devices : Handlers Devices Device := fun w next =>
  (match next.callOnInterrupt with
    | .timer => if w.disable then [] else [⟨.timer, w.delay, .timerInt⟩]
    | .consoleInput =>
        if w.pollFile w.served then [] else [⟨.consoleInput, consoleTime, .consoleReadInt⟩]
    | .networkInput => [⟨.networkInput, networkTime, .networkRecvInt⟩]
    | .consoleOutput | .networkOutput | .disk => [],
    { w with served := w.served + 1 })

theorem Devices.delay_bounds (w : Devices) : 0 < w.delay ∧ w.delay ≤ 200 := by
  rw [delay]
  split
  · simp only [timerTicks]
    omega
  · decide

/-- The devices schedule with delays of at most twice `TimerTicks`. -/
theorem devices_within : devices.Within 200 := by
  intro w next r hr
  rw [devices] at hr
  split at hr
  next =>
    split at hr
    · exact absurd hr List.not_mem_nil
    · obtain rfl := List.mem_singleton.mp hr
      exact w.delay_bounds
  next =>
    split at hr
    · exact absurd hr List.not_mem_nil
    · obtain rfl := List.mem_singleton.mp hr
      decide
  next =>
    obtain rfl := List.mem_singleton.mp hr
    decide
  all_goals exact absurd hr List.not_mem_nil

theorem step_idle_later {s : State C} {next : PendingInterrupt C}
    {rest : List (PendingInterrupt C)} (hin : s.inHandler = none) (hlevel : s.level = .intOff)
    (hp : s.pending = next :: rest) (hlater : next.when > s.stats.totalTicks) :
    step s .idle = some (call
      { advanceTo { s with status := .idleMode } next.when with inHandler := some .idle }
      next rest) := by
  have hp' : ({ s with status := .idleMode } : State C).pending = next :: rest := hp
  rw [step, if_pos hin, idle, if_pos hlevel, checkIfDue, hp']
  exact if_pos hlater

/-- A machine that idles with the timer alone: the clock stands at a multiple
of `TimerTicks` and the next interrupt is `TimerTicks` away. -/
theorem idle_reaches : ∀ n : Nat, 100 * ((n : Int) + 1) ≤ intMax →
    ∃ (s : State Device) (id : Nat), Reach step InRange new s ∧ s.level = .intOff
      ∧ s.inHandler = none ∧ s.stats.totalTicks = 100 * n ∧ s.time = 100 * n
      ∧ s.pending = [⟨.timer, 100 * (n + 1), .timerInt, id⟩] := by
  intro n
  induction n with
  | zero =>
      intro _
      obtain ⟨s, hexec, hs⟩ := Option.map_eq_some_iff.mp
        (rfl : (exec step InRange (new : State Device) [.schedule .timer 100 .timerInt]).map
          (fun s => (s.level, s.inHandler, s.stats.totalTicks, s.time, s.pending))
            = some (.intOff, none, 0, 0, [⟨.timer, 100, .timerInt, 0⟩]))
      simp only [Prod.mk.injEq] at hs
      exact ⟨s, 0, Reach.of_exec _ hexec, hs⟩
  | succ n ih =>
      intro hmax
      rw [Nat.cast_succ] at hmax ⊢
      obtain ⟨s, id, hreach, hlevel, hin, hclock, htime, hp⟩ := ih (by omega)
      have hlater : (100 * ((n : Int) + 1)) > s.stats.totalTicks := by omega
      -- the clock moves to the timer's interrupt
      obtain ⟨s₁, hs₁, hlevel₁, hin₁, hclock₁, htime₁, hp₁⟩ : ∃ s₁ : State Device,
          step s .idle = some s₁ ∧ s₁.level = .intOff ∧ s₁.inHandler = some .idle
            ∧ s₁.stats.totalTicks = 100 * (n + 1) ∧ s₁.time = 100 * (n + 1) ∧ s₁.pending = [] := by
        refine ⟨_, step_idle_later hin hlevel hp hlater, hlevel, rfl, rfl, ?_, rfl⟩
        change s.time + (100 * ((n : Int) + 1) - s.stats.totalTicks) = _
        omega
      have hwhen : wrap32 (s₁.stats.totalTicks + 100) = 100 * ((n : Int) + 1 + 1) := by
        rw [hclock₁, wrap32_of_bounds (by omega) (by simp only [intMax] at hmax; omega)]
        omega
      obtain ⟨s₂, hs₂, hlevel₂, hin₂, hclock₂, htime₂, hp₂⟩ : ∃ s₂ : State Device,
          step s₁ (.schedule .timer 100 .timerInt) = some s₂ ∧ s₂.level = .intOff
            ∧ s₂.inHandler = some .idle ∧ s₂.stats.totalTicks = 100 * (n + 1)
            ∧ s₂.time = 100 * (n + 1)
            ∧ s₂.pending = [⟨.timer, 100 * (n + 1 + 1), .timerInt, s₁.scheduled⟩] := by
        refine ⟨_, rfl, hlevel₁, hin₁, hclock₁, htime₁, ?_⟩
        rw [← hwhen, hp₁]
        rfl
      have hnot : ¬frontDue s₂ = true := by
        rw [frontDue, hp₂, decide_eq_true_eq, hclock₂]
        change ¬100 * ((n : Int) + 1 + 1) ≤ 100 * ((n : Int) + 1)
        omega
      have hs₃ : step s₂ .callBackReturns = some (finish { s₂ with inHandler := none } .idle) := by
        rw [step, hin₂, Option.map_some, callBackReturns_of_not hnot]
      have hrange : InRange s₁ (.schedule .timer 100 .timerInt) := by
        change s₁.time + 100 ≤ intMax
        omega
      exact ⟨_, s₁.scheduled, ((hreach.tail ⟨.idle, trivial, hs₁⟩).tail ⟨_, hrange, hs₂⟩).tail
        ⟨.callBackReturns, trivial, hs₃⟩, hlevel₂, rfl, hclock₂, htime₂, hp₂⟩

/-! ## For which clocks `CheckIfDue` returns -/

/-- With the clock at `t`, `CheckIfDue` returns for all handlers that schedule
with delays of at most `d`, and from all pending lists, exactly if `t + d` is
an `int`. -/
theorem checkIfDue_returns_iff [Nonempty C] [Nonempty D] (caller : Caller) (advanceClock : Bool)
    (t d : Int) (ht : IsInt t) (hd : IsInt d) (hpos : 0 < d) :
    (∀ handlers : Handlers D C, handlers.Within d → ∀ (w : D) (s : State C),
        loopClock advanceClock s = t → Returns handlers caller advanceClock w s)
      ↔ t + d ≤ intMax := by
  constructor
  · intro hall
    by_contra hover
    obtain ⟨c⟩ := ‹Nonempty C›
    obtain ⟨w⟩ := ‹Nonempty D›
    let again : Handlers D C := fun w _ => ([⟨c, d, .timerInt⟩], w)
    have hwithin : again.Within d := fun _ _ r hr => by
      obtain rfl := List.mem_singleton.mp hr
      exact ⟨hpos, le_rfl⟩
    let s : State C := { new with stats.totalTicks := t, pending := [⟨c, t, .timerInt, 0⟩] }
    have hentry : loopEntry advanceClock s = some s := by
      simp only [loopEntry, s, gt_iff_lt, lt_irrefl, if_false]
    have hself : ∀ (w : D) (p : PendingInterrupt C), True → p.callOnInterrupt = c →
        (again w p).1 = [⟨c, d, .timerInt⟩] ∧ True := fun _ _ _ _ => ⟨rfl, trivial⟩
    exact not_returns hself hd hpos trivial rfl rfl hentry ht (Int.not_le.mp hover)
      (hall again hwithin w s (by rw [loopClock, hentry]; rfl))
  · intro hmax handlers hwithin w s hclock
    refine returns_of_within hwithin w ?_ ?_
    · rw [hclock]
      exact ht
    · rw [hclock]
      exact hmax

/-- Early in a run it returns whatever the devices do. -/
theorem checkIfDue_returns_at_start :
    IsInt 0 ∧ IsInt 200 ∧ (0 : Int) < 200
      ∧ ∀ (w : Devices) (s : State Device), loopClock true s = 0 →
        Returns devices .idle true w s :=
  ⟨by decide, by decide, by decide,
    (checkIfDue_returns_iff .idle true 0 200 (by decide) (by decide) (by decide)).mpr (by decide)
      devices devices_within⟩

/-- A machine that idles with a periodic timer reaches 2147483500 on the
clock. The next interrupt is served at 2147483600, and the one after it is
scheduled at 2147483700, which is a negative `int`. -/
theorem checkIfDue_serves_forever :
    ∃ s : State Device, Reach step InRange new s ∧ s.inHandler = none ∧ s.level = .intOff
      ∧ ∀ w : Devices, w.randomize = false → w.disable = false →
        ¬Returns devices .idle true w { s with status := .idleMode } := by
  obtain ⟨s, id, hreach, hlevel, hin, hclock, -, hp⟩ := idle_reaches 21474835 (by decide)
  refine ⟨s, hreach, hin, hlevel, fun w hrandomize hdisable => ?_⟩
  have hself : ∀ (w : Devices) (p : PendingInterrupt Device),
      (w.randomize = false ∧ w.disable = false) → p.callOnInterrupt = .timer →
      (devices w p).1 = [⟨.timer, 100, .timerInt⟩]
        ∧ ((devices w p).2.randomize = false ∧ (devices w p).2.disable = false) :=
    fun w p hw hc => by
      refine ⟨?_, hw⟩
      simp only [devices, hc, hw.2, Devices.delay, hw.1, timerTicks, Bool.false_eq_true, if_false]
  have hlater : (100 * (((21474835 : Nat) : Int) + 1)) > s.stats.totalTicks := by
    rw [hclock]
    decide
  have hentry : loopEntry true { s with status := .idleMode }
      = some (advanceTo { s with status := .idleMode } (100 * (((21474835 : Nat) : Int) + 1))) := by
    simp only [loopEntry, hp, hlater, if_true]
  exact not_returns hself (by decide) (by decide) ⟨hrandomize, hdisable⟩ hp rfl hentry
    (show IsInt (100 * (((21474835 : Nat) : Int) + 1)) by decide)
    (show intMax < 100 * (((21474835 : Nat) : Int) + 1) + 100 by decide)

end Interrupt

end Nachos
