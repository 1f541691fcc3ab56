import Nachos.InterruptLoop
import Nachos.ReadyOrder

/-!
# Time slices

The scheduler, the interrupt simulation and the devices together, as far as
they decide which thread runs. `Timer::CallBack` (`machine/timer.cc`) calls
`Alarm::CallBack` (`threads/alarm.cc`), which asks for a `Yield` unless the
machine is idle, and schedules the next timer interrupt; `OneTick` makes the
`Yield` when `CheckIfDue` has returned. `Idle` is called in the loop of
`Sleep` while no thread is ready.

A step is a call of the running thread, a `V` of a handler, a tick of the
clock up to its first handler, or a handler together with what follows it up
to the next one. `Devices` and their handlers are those of `InterruptLoop`.

The result of this module is about the timer (`Punctual`): there is always
exactly one timer interrupt to come or being served, at most `2 * TimerTicks`
away, it is served at the first tick that reaches its time, and a `Yield` is
asked for at most once in a tick and not on behalf of an idle machine. What
ticks, idling and handlers do is said here; `BoundedWaiting` follows it over
runs.
-/

namespace Nachos

namespace TimeSlices

open Run CInt Interrupt

/-! ## The system -/

structure System where
  int : State Device
  sched : Sched.State
  devices : Devices

inductive Action where
  | thread (a : Sched.Action)
  | schedule (device : Device) (fromNow : Int) (type : IntType)
  | setLevel (now : IntStatus)
  | setStatus (status : MachineStatus)
  | oneTick
  | idle
  | callBackReturns

namespace System

/-- The `Yield` at the end of `OneTick`, if `CheckIfDue` has returned and a
handler has asked for it. -/
def afterTick (s : System) (asked : Bool) (int : State Device) : Option System :=
  if asked = true ∧ int.inHandler = none then
    (Sched.step s.sched .yield).map fun sched => { s with int := int, sched := sched }
  else some { s with int := int }

/-- `OneTick`, up to the first handler. -/
def tick (s : System) : Option System := s.afterTick s.int.yieldOnReturn (Interrupt.oneTick s.int)

/-- `Alarm::CallBack` -/
def alarmCallBack (int : State Device) : State Device :=
  if int.status ≠ .idleMode then { int with yieldOnReturn := true } else int

/-- `CallBack` of the device that `next` is for. The calls of `V` that it
makes are steps of their own. -/
def callBack (s : System) (next : PendingInterrupt Device) : Option System :=
  (scheduleAll (if next.callOnInterrupt = .timer then alarmCallBack s.int else s.int)
    (Interrupt.devices s.devices next).1).map fun int =>
      { s with int := int, devices := (Interrupt.devices s.devices next).2 }

def step (s : System) : Action → Option System
  | .thread a =>
      match a with
      | .v _ => (Sched.step s.sched a).map fun sched => { s with sched := sched }
      | _ =>
          if s.int.inHandler = none then
            (Sched.step s.sched a).map fun sched => { s with sched := sched }
          else none
  | .schedule device fromNow type =>
      if device = .timer then none
      else (Interrupt.schedule s.int device fromNow type).map fun int => { s with int := int }
  | .setLevel now =>
      if now = .intOff then some { s with int.level := now }
      else if s.int.inHandler = none ∧ s.sched.mode = .running then
        if s.int.level = .intOff then { s with int.level := now }.tick else some s
      else none
  | .setStatus status =>
      if s.int.inHandler = none ∧ status ≠ .idleMode then some { s with int.status := status }
      else none
  | .oneTick => if s.int.inHandler = none ∧ s.sched.mode = .running then s.tick else none
  | .idle =>
      if s.int.inHandler = none ∧ (s.sched.mode = .sleeping ∨ s.sched.mode = .finishing)
          ∧ s.sched.readyList = [] then
        (Interrupt.idle s.int).map fun int => { s with int := int }
      else none
  | .callBackReturns =>
      match s.int.inHandler, s.int.called.getLast? with
      | some caller, some (next, _) =>
          (s.callBack next).bind fun s' =>
            s'.afterTick (caller == .oneTick && s'.int.yieldOnReturn)
              (Interrupt.callBackReturns s'.int caller)
      | _, _ => none

/-- After `Kernel::Initialize`, in which `Alarm::Alarm` starts the timer. -/
def boot (w : Devices) : Option System :=
  (Interrupt.schedule Interrupt.new .timer w.delay .timerInt).map fun int =>
    ⟨int, .init, { w with served := w.served + 1 }⟩

/-- The clock, and what is computed from it, stay in the range of `int`. -/
def InRange (s : System) : Action → Prop
  | .schedule _ fromNow _ => s.int.time + fromNow ≤ intMax
  | _ => s.int.time + 200 ≤ intMax

instance (s : System) : (a : Action) → Decidable (s.InRange a)
  | .schedule _ _ _ => inferInstanceAs (Decidable (_ ≤ _))
  | .thread _ | .setLevel _ | .setStatus _ | .oneTick | .idle | .callBackReturns =>
      inferInstanceAs (Decidable (_ ≤ _))

/-- A step, with the threads switched to so far. -/
def tracedStep (x : System × List Nat) (a : Action) : Option (System × List Nat) :=
  (step x.1 a).map fun s' => (s', x.2 ++ Sched.switchedTo x.1.sched s'.sched)

end System

/-! ## The timer interrupt -/

def isTimer (p : PendingInterrupt Device) : Bool := p.callOnInterrupt = .timer

/-- The handler that is being called is the timer's. -/
def serving (s : State Device) : Bool :=
  s.inHandler.isSome && s.called.getLast?.any fun c => isTimer c.1

/-- `k` timer interrupts are pending, and no interrupt is served as late as
`SystemTick` after its time. -/
structure Counted (s : State Device) (k : Nat) : Prop where
  ordered : Ordered s
  range : s.time ≤ intMax
  due : ∀ p ∈ s.pending, p.when ≤ intMax ∧ s.stats.totalTicks < p.when + 10
  timers : s.pending.countP isTimer = k
  soon : ∀ p ∈ s.pending, isTimer p = true → p.when ≤ s.stats.totalTicks + 200

section Counting

variable {s s' : State Device} {k : Nat}

theorem Counted.clock (h : Counted s k) : s.stats.totalTicks = s.time := h.ordered.clock h.range

theorem Counted.congr (h : Counted s k) (hp : s'.pending = s.pending) (hc : s'.called = s.called)
    (hs : s'.scheduled = s.scheduled) (ht : s'.time = s.time) (hk : s'.stats = s.stats) :
    Counted s' k := by
  refine ⟨h.ordered.congr hp hc hs ht (by rw [hk]), ht ▸ h.range, ?_, hp ▸ h.timers, ?_⟩
  · rw [hp, hk]; exact h.due
  · rw [hp, hk]; exact h.soon

/-- What `OneTick` adds to the clock. -/
theorem advance_eq (s : State Device) : ∃ d, 1 ≤ d ∧ d ≤ 10
    ∧ (advance s).stats.totalTicks = wrap32 (s.stats.totalTicks + d)
    ∧ (advance s).time = s.time + d ∧ (advance s).pending = s.pending
    ∧ (advance s).called = s.called ∧ (advance s).inHandler = s.inHandler
    ∧ (advance s).yieldOnReturn = s.yieldOnReturn ∧ (advance s).status = s.status := by
  rw [advance]
  split
  · exact ⟨systemTick, by decide, by decide, rfl, rfl, rfl, rfl, rfl, rfl, rfl⟩
  · exact ⟨userTick, by decide, by decide, rfl, rfl, rfl, rfl, rfl, rfl, rfl⟩

/-- In range the clock goes forward by at most `SystemTick`. -/
theorem Counted.advance_clock (h : Counted s k) (hrange : s.time + 200 ≤ intMax) :
    s.stats.totalTicks < (advance s).stats.totalTicks
      ∧ (advance s).stats.totalTicks ≤ s.stats.totalTicks + 10
      ∧ (advance s).time ≤ intMax := by
  obtain ⟨d, h1, h10, hclock, htime, -⟩ := advance_eq s
  have hnow := h.clock
  have hpos := h.ordered.nonneg
  simp only [intMax] at hrange ⊢
  rw [hclock, wrap32_of_bounds (by omega) (by omega), htime]
  omega

theorem Counted.advance (h : Counted s k) (hq : s.Quiet) (hrange : s.time + 200 ≤ intMax) :
    Counted (advance s) k := by
  obtain ⟨hlt, hle, hmax⟩ := h.advance_clock hrange
  obtain ⟨-, -, -, -, -, hp, -⟩ := advance_eq s
  refine ⟨h.ordered.advance, hmax, fun p hmem => ?_, by rw [hp]; exact h.timers,
    fun p hmem ht => ?_⟩
  · rw [hp] at hmem
    have hdue := h.due p hmem
    have hquiet := hq p hmem
    omega
  · rw [hp] at hmem
    have hsoon := h.soon p hmem ht
    omega

/-- The clock of an idle machine goes to the first interrupt. -/
theorem Counted.advanceTo (h : Counted s k) {next : PendingInterrupt Device}
    {rest : List (PendingInterrupt Device)} (hp : s.pending = next :: rest)
    (hlt : s.stats.totalTicks < next.when) : Counted (advanceTo s next.when) k := by
  have hclock := h.clock
  have hmax := (h.due next (by rw [hp]; exact List.mem_cons_self)).1
  have hsorted := (List.pairwise_append.mp h.ordered.sorted).2.1
  rw [hp, List.pairwise_cons] at hsorted
  refine ⟨h.ordered.advanceTo hlt, ?_, fun p hmem => ⟨(h.due p hmem).1, ?_⟩, h.timers,
    fun p hmem ht => ?_⟩
  · change s.time + (next.when - s.stats.totalTicks) ≤ intMax
    omega
  · change next.when < p.when + 10
    have hmem' : p ∈ s.pending := hmem
    rw [hp] at hmem'
    rcases List.mem_cons.mp hmem' with rfl | hmem'
    · omega
    · have hbefore := hsorted.1 p hmem'
      simp only [Before] at hbefore
      omega
  · change p.when ≤ next.when + 200
    have hsoon := h.soon p hmem ht
    omega

/-- What a call of `Schedule` does in range. -/
theorem Counted.schedule_eq (h : Counted s k) {device : Device} {fromNow : Int} {type : IntType}
    (hrange : s.time + fromNow ≤ intMax) (hs : schedule s device fromNow type = some s') :
    0 < fromNow ∧ s' = { s with
      pending := SortedList.insert pendingCompare
        ⟨device, s.stats.totalTicks + fromNow, type, s.scheduled⟩ s.pending
      scheduled := s.scheduled + 1 } := by
  rw [schedule] at hs
  split at hs
  next hpos =>
    obtain rfl := Option.some.inj hs
    have hclock := h.clock
    have hnonneg := h.ordered.nonneg
    rw [wrap32_of_bounds (by omega) (by simp only [intMax] at hrange; omega)]
    exact ⟨hpos, rfl⟩
  next => cases hs

theorem Counted.schedule (h : Counted s k) {device : Device} {fromNow : Int} {type : IntType}
    (hrange : s.time + fromNow ≤ intMax) (hsoon : device = .timer → fromNow ≤ 200)
    (hs : schedule s device fromNow type = some s') :
    Counted s' (k + if device = .timer then 1 else 0) := by
  have hordered := h.ordered.schedule hrange hs
  obtain ⟨hpos, rfl⟩ := h.schedule_eq hrange hs
  have hclock := h.clock
  refine ⟨hordered, h.range, fun p hmem => ?_, ?_, fun p hmem ht => ?_⟩
  · rcases SortedList.mem_insert.mp hmem with rfl | hmem
    · dsimp only
      omega
    · exact h.due p hmem
  · change (SortedList.insert pendingCompare _ s.pending).countP isTimer = _
    rw [SortedList.perm_insert.countP_eq, List.countP_cons, h.timers]
    simp only [isTimer, decide_eq_true_eq]
  · rcases SortedList.mem_insert.mp hmem with rfl | hmem
    · have hle := hsoon (of_decide_eq_true ht)
      dsimp only
      omega
    · exact h.soon p hmem ht

/-- A handler is called. -/
theorem Counted.call (h : Counted s k) {next : PendingInterrupt Device}
    {rest : List (PendingInterrupt Device)} (hp : s.pending = next :: rest)
    (hdue : next.when ≤ s.stats.totalTicks) :
    Counted (call s next rest) (k - if isTimer next then 1 else 0) := by
  have hsub : ∀ p ∈ rest, p ∈ s.pending := fun p hmem => by
    rw [hp]
    exact List.mem_cons_of_mem next hmem
  refine ⟨h.ordered.call hp hdue, h.range, fun p hmem => h.due p (hsub p hmem), ?_,
    fun p hmem => h.soon p (hsub p hmem)⟩
  have hcount := h.timers
  rw [hp, List.countP_cons] at hcount
  change rest.countP isTimer = _
  omega

end Counting

/-! ## The invariant -/

/-- Exactly one timer interrupt is to come or being served, and a `Yield` is
asked for only on behalf of a running thread, once in a tick. -/
structure Punctual (s : State Device) : Prop where
  counted : Counted s (if serving s then 0 else 1)
  quiet : s.inHandler = none → s.Quiet
  status : s.status = .idleMode ↔ s.inHandler = some .idle
  asked : s.yieldOnReturn = true → s.inHandler = some .oneTick ∧ serving s = false
    ∧ ∀ p ∈ s.pending, isTimer p = true → s.stats.totalTicks < p.when

section Punctual

variable {s s' : State Device} {caller : Caller} {next : PendingInterrupt Device}
  {rest : List (PendingInterrupt Device)}

theorem serving_of_none (h : s.inHandler = none) : serving s = false := by
  rw [serving, h]
  rfl

theorem serving_of_last {c : Int} (h : s.inHandler = some caller)
    (hlast : s.called.getLast? = some (next, c)) : serving s = isTimer next := by
  rw [serving, h, hlast]
  rfl

theorem serving_call (h : s.inHandler = some caller) : serving (call s next rest) = isTimer next :=
  serving_of_last (s := call s next rest) h List.getLast?_concat

theorem Punctual.not_asked (h : Punctual s) (hin : s.inHandler = none) :
    s.yieldOnReturn = false := by
  by_contra hy
  have hcaller := (h.asked (Bool.not_eq_false _ ▸ hy)).1
  rw [hin] at hcaller
  cases hcaller

/-- Outside handlers one timer interrupt is pending. -/
theorem Punctual.counted_one (h : Punctual s) (hin : s.inHandler = none) : Counted s 1 := by
  have hcounted := h.counted
  rwa [serving_of_none hin] at hcounted

/-- The call of the next handler of a tick or of an idle machine. -/
theorem Punctual.call (hc : Counted s 1) (hin : s.inHandler = some caller)
    (hstatus : s.status = .idleMode ↔ caller = .idle)
    (hasked : s.yieldOnReturn = true → caller = .oneTick
      ∧ ∀ p ∈ s.pending, isTimer p = true → s.stats.totalTicks < p.when)
    (hp : s.pending = next :: rest) (hdue : next.when ≤ s.stats.totalTicks) :
    Punctual (call s next rest) := by
  refine ⟨?_, fun hnone => ?_, ?_, fun hy => ?_⟩
  · have hcall := hc.call hp hdue
    rw [serving_call hin]
    cases hnext : isTimer next with
    | true => rw [hnext] at hcall; exact hcall
    | false => rw [hnext] at hcall; exact hcall
  · exact absurd (hin.symm.trans hnone) (Option.some_ne_none _)
  · change s.status = .idleMode ↔ s.inHandler = some .idle
    rw [hin, hstatus, Option.some_inj]
  · obtain ⟨hcaller, htimers⟩ := hasked hy
    have hnext : isTimer next = false := by
      by_contra ht
      have hlt := htimers next (by rw [hp]; exact List.mem_cons_self) (Bool.not_eq_false _ ▸ ht)
      omega
    refine ⟨hin.trans (by rw [hcaller]), by rw [serving_call hin, hnext], fun p hmem => ?_⟩
    refine htimers p ?_
    rw [hp]
    exact List.mem_cons_of_mem next hmem

/-- The end of `OneTick` or `Idle`. -/
theorem Punctual.finish (caller : Caller) (hc : Counted s 1) (hq : s.Quiet)
    (hin : s.inHandler = none)
    (hstatus : caller = .oneTick → s.status ≠ .idleMode)
    (hasked : caller = .idle → s.yieldOnReturn = false) :
    Punctual (finish s caller) ∧ (finish s caller).yieldOnReturn = false := by
  obtain ⟨hp, hcalled, hs, ht, hk⟩ := finish_fields s caller
  have hin' : (Interrupt.finish s caller).inHandler = none := by
    cases caller with
    | oneTick => rw [Interrupt.finish]; split <;> exact hin
    | idle => exact hin
  have hst : (Interrupt.finish s caller).status ≠ .idleMode := by
    cases caller with
    | oneTick =>
        rw [Interrupt.finish]
        split
        · simp
        · exact hstatus rfl
    | idle => simp [Interrupt.finish]
  have hy : (Interrupt.finish s caller).yieldOnReturn = false := by
    cases caller with
    | oneTick =>
        rw [Interrupt.finish]
        split
        · rfl
        next hno => exact Bool.not_eq_true _ ▸ hno
    | idle => exact hasked rfl
  refine ⟨⟨?_, fun _ p hmem => ?_, ?_, fun hyes => ?_⟩, hy⟩
  · rw [serving_of_none hin']
    exact hc.congr hp hcalled hs ht hk
  · rw [hp] at hmem
    rw [hk]
    exact hq p hmem
  · rw [hin']
    exact iff_of_false hst (by simp)
  · rw [hy] at hyes
    cases hyes

/-- The loop of `CheckIfDue` goes on: a handler is called, or the routine that
called `CheckIfDue` comes to its end. -/
theorem pass_cases (hc : Counted s 1) (hin : s.inHandler = some caller)
    (hstatus : s.status = .idleMode ↔ caller = .idle)
    (hasked : s.yieldOnReturn = true → caller = .oneTick
      ∧ ∀ p ∈ s.pending, isTimer p = true → s.stats.totalTicks < p.when) :
    Punctual (callBackReturns s caller) ∧ (callBackReturns s caller).stats = s.stats
      ∧ (∀ p ∈ (callBackReturns s caller).pending, p ∈ s.pending)
      ∧ ((callBackReturns s caller).inHandler = none
          ∧ (callBackReturns s caller).yieldOnReturn = false
        ∨ (callBackReturns s caller).inHandler = some caller
          ∧ (callBackReturns s caller).yieldOnReturn = s.yieldOnReturn) := by
  by_cases hdue : frontDue s = true
  · obtain ⟨next, rest, hp, hle⟩ := frontDue_cases hdue
    rw [callBackReturns_of_due hp hle]
    refine ⟨Punctual.call hc hin hstatus hasked hp hle, rfl, fun p hmem => ?_,
      Or.inr ⟨hin, rfl⟩⟩
    rw [hp]
    exact List.mem_cons_of_mem next hmem
  · rw [callBackReturns_of_not hdue]
    have hout : Counted { s with inHandler := none } 1 := hc.congr rfl rfl rfl rfl rfl
    have hq : s.Quiet := by
      cases hp : s.pending with
      | nil => exact quiet_of_nil hp
      | cons next rest =>
          rw [frontDue, hp, decide_eq_true_eq, Int.not_le] at hdue
          exact hc.ordered.quiet hp hdue
    obtain ⟨hfp, -, -, -, hfk⟩ := finish_fields ({ s with inHandler := none } : State Device) caller
    obtain ⟨hpun, hno⟩ := Punctual.finish caller hout hq rfl
      (fun hone hidle => by
        rw [hstatus.mp hidle] at hone
        cases hone)
      (fun hidle => by
        by_contra hy
        have hone := (hasked (Bool.not_eq_false _ ▸ hy)).1
        rw [hidle] at hone
        cases hone)
    refine ⟨hpun, hfk, fun p hmem => ?_, Or.inl ⟨?_, hno⟩⟩
    · rw [hfp] at hmem
      exact hmem
    · cases caller with
      | oneTick => rw [Interrupt.finish]; split <;> rfl
      | idle => rfl

/-- `OneTick` advances the clock and enters the loop. -/
theorem oneTick_eq (hin : s.inHandler = none) :
    oneTick s
      = callBackReturns { advance s with level := .intOff, inHandler := some .oneTick }
          .oneTick := by
  have hin' : (advance s).inHandler = none := by
    rw [advance]
    split <;> exact hin
  rw [oneTick, checkIfDue, callBackReturns]
  simp only
  split
  next => simp only [Option.getD_none, ← hin']
  next next rest hp =>
    by_cases hlt : next.when > (advance s).stats.totalTicks
    · simp only [if_pos hlt, if_neg (Int.not_le.mpr hlt), Bool.false_eq_true, if_false,
        Option.getD_none, ← hin']
    · simp only [if_neg hlt, if_pos (Int.not_lt.mp hlt), Option.getD_some]

theorem oneTick_cases (h : Punctual s) (hin : s.inHandler = none)
    (hrange : s.time + 200 ≤ intMax) :
    Punctual (oneTick s) ∧ (oneTick s).stats.totalTicks ≤ s.stats.totalTicks + 10
      ∧ (∀ p ∈ (oneTick s).pending, p ∈ s.pending) ∧ (oneTick s).yieldOnReturn = false
      ∧ ((oneTick s).inHandler = none ∨ (oneTick s).inHandler = some .oneTick) := by
  have hcounted := h.counted_one hin
  obtain ⟨-, hle, -⟩ := hcounted.advance_clock hrange
  obtain ⟨-, -, -, -, -, hp, -, -, hy, hst⟩ := advance_eq s
  have hno : (advance s).yieldOnReturn = false := hy.trans (h.not_asked hin)
  obtain ⟨hpun, hk, hsub, hend⟩ := pass_cases
    (s := { advance s with level := .intOff, inHandler := some .oneTick })
    ((hcounted.advance (h.quiet hin) hrange).congr rfl rfl rfl rfl rfl) rfl
    (iff_of_false (by rw [hst, h.status, hin]; simp) (by simp))
    (fun hyes => by rw [hno] at hyes; cases hyes)
  rw [oneTick_eq hin]
  refine ⟨hpun, by rw [hk]; exact hle, fun p hmem => hp ▸ hsub p hmem, ?_, ?_⟩
  · rcases hend with ⟨-, hyes⟩ | ⟨-, hyes⟩
    · exact hyes
    · exact hyes.trans hno
  · exact hend.imp And.left And.left

/-- `Idle` advances the clock to the first interrupt and calls its handler. -/
theorem idle_cases (h : Punctual s) (hin : s.inHandler = none) (hs : idle s = some s') :
    Punctual s' ∧ s'.inHandler = some .idle ∧ s'.yieldOnReturn = false := by
  rw [idle] at hs
  split at hs
  next =>
    rw [checkIfDue] at hs
    split at hs
    next => cases hs
    next next rest hp =>
      have hlt : s.stats.totalTicks < next.when :=
        h.quiet hin next (by rw [show s.pending = next :: rest from hp]; exact List.mem_cons_self)
      rw [if_pos hlt, if_pos rfl] at hs
      obtain rfl := Option.some.inj hs
      have hto : Counted { advanceTo { s with status := .idleMode } next.when with
          inHandler := some .idle } 1 :=
        ((h.counted_one hin).advanceTo hp hlt).congr rfl rfl rfl rfl rfl
      have hno := h.not_asked hin
      exact ⟨Punctual.call hto rfl (iff_of_true rfl rfl)
        (fun hyes => by rw [show _ = false from hno] at hyes; cases hyes) hp le_rfl, rfl, hno⟩
  next => cases hs

end Punctual

/-! ## Handlers -/

section Handlers

variable {s s' : System} {caller : Caller} {next : PendingInterrupt Device} {c : Int}

theorem alarmCallBack_fields (int : State Device) :
    (System.alarmCallBack int).pending = int.pending
      ∧ (System.alarmCallBack int).called = int.called
      ∧ (System.alarmCallBack int).scheduled = int.scheduled
      ∧ (System.alarmCallBack int).time = int.time ∧ (System.alarmCallBack int).stats = int.stats
      ∧ (System.alarmCallBack int).inHandler = int.inHandler
      ∧ (System.alarmCallBack int).status = int.status
      ∧ ((System.alarmCallBack int).yieldOnReturn = true ↔
        int.yieldOnReturn = true ∨ int.status ≠ .idleMode) := by
  rw [System.alarmCallBack]
  split
  next hne => exact ⟨rfl, rfl, rfl, rfl, rfl, rfl, rfl, iff_of_true rfl (Or.inr hne)⟩
  next hidle => exact ⟨rfl, rfl, rfl, rfl, rfl, rfl, rfl, (or_iff_left hidle).symm⟩

/-- What a device other than the timer schedules is not for the timer. -/
theorem devices_other {w : Devices} (hnext : isTimer next = false) :
    (devices w next).1 = []
      ∨ ∃ d type, d ≠ .timer ∧ (devices w next).1 = [⟨d, 100, type⟩] := by
  obtain ⟨device, when, type, id⟩ := next
  rw [devices]
  cases device with
  | timer => cases hnext
  | consoleInput =>
      dsimp only
      split
      · exact Or.inl rfl
      · exact Or.inr ⟨.consoleInput, .consoleReadInt, by simp, rfl⟩
  | networkInput => exact Or.inr ⟨.networkInput, .networkRecvInt, by simp, rfl⟩
  | consoleOutput => exact Or.inl rfl
  | networkOutput => exact Or.inl rfl
  | disk => exact Or.inl rfl

theorem devices_timer {w : Devices} (hw : w.disable = false) (hnext : isTimer next = true) :
    (devices w next).1 = [⟨.timer, w.delay, .timerInt⟩] := by
  have hd : next.callOnInterrupt = .timer := of_decide_eq_true hnext
  rw [devices, hd]
  simp only [hw, Bool.false_eq_true, if_false]

/-- What is known of the interrupts when a handler has done its work. -/
structure Handled (s s' : System) (caller : Caller) (next : PendingInterrupt Device) : Prop where
  counted : Counted s'.int 1
  sched : s'.sched = s.sched
  enabled : s'.devices.disable = false
  inHandler : s'.int.inHandler = some caller
  stats : s'.int.stats = s.int.stats
  status : s'.int.status = s.int.status
  timers : ∀ p ∈ s'.int.pending, isTimer p = true →
    p ∈ s.int.pending ∧ isTimer next = false
      ∨ isTimer next = true ∧ s.int.stats.totalTicks < p.when
        ∧ p.when ≤ s.int.stats.totalTicks + 200
  asked : s'.int.yieldOnReturn = true ↔
    s.int.yieldOnReturn = true ∨ isTimer next = true ∧ s.int.status ≠ .idleMode
  once : s.int.yieldOnReturn = true → isTimer next = false

theorem callBack_handled (h : Punctual s.int) (hw : s.devices.disable = false)
    (hrange : s.int.time + 200 ≤ intMax) (hin : s.int.inHandler = some caller)
    (hlast : s.int.called.getLast? = some (next, c)) (hs : s.callBack next = some s') :
    Handled s s' caller next := by
  obtain ⟨int, hint, rfl⟩ := Option.map_eq_some_iff.mp hs
  have hserving := serving_of_last hin hlast
  have hcounted := h.counted
  rw [hserving] at hcounted
  have hdevices : (devices s.devices next).2.disable = false := hw
  have honce : s.int.yieldOnReturn = true → isTimer next = false := fun hyes =>
    hserving ▸ (h.asked hyes).2.1
  cases hnext : isTimer next with
  | true =>
      rw [hnext] at hcounted
      rw [if_pos (of_decide_eq_true hnext), devices_timer hw hnext, scheduleAll] at hint
      obtain ⟨int₁, hsch, hint⟩ := Option.bind_eq_some_iff.mp hint
      obtain rfl := Option.some.inj hint
      obtain ⟨hp, hc, hsc, ht, hk, hin', hst, hy⟩ := alarmCallBack_fields s.int
      have halarm : Counted (System.alarmCallBack s.int) 0 := hcounted.congr hp hc hsc ht hk
      obtain ⟨hd0, hd200⟩ := s.devices.delay_bounds
      have hfit : (System.alarmCallBack s.int).time + s.devices.delay ≤ intMax := by
        rw [ht]
        omega
      have hdone := halarm.schedule hfit (fun _ => hd200) hsch
      obtain ⟨-, rfl⟩ := halarm.schedule_eq hfit hsch
      refine ⟨hdone, rfl, hdevices, hin'.trans hin, hk, hst, fun p hmem htimer => ?_, ?_, honce⟩
      · rcases SortedList.mem_insert.mp hmem with rfl | hmem
        · refine Or.inr ⟨hnext, ?_⟩
          dsimp only
          rw [hk]
          omega
        · -- no other timer interrupt is pending
          exact absurd htimer ((List.countP_eq_zero.mp halarm.timers) p hmem)
      · exact hy.trans (or_congr_right (and_iff_right hnext).symm)
  | false =>
      rw [hnext] at hcounted
      rw [if_neg (fun hd => by
        rw [isTimer, decide_eq_false_iff_not] at hnext
        exact hnext hd)] at hint
      have hsame : s.int.yieldOnReturn = true ↔
          s.int.yieldOnReturn = true ∨ isTimer next = true ∧ s.int.status ≠ .idleMode :=
        (or_iff_left fun hh => by rw [hnext] at hh; exact Bool.false_ne_true hh.1).symm
      rcases devices_other (w := s.devices) hnext with hnil | ⟨d, type, hd, hone⟩
      · rw [hnil, scheduleAll] at hint
        obtain rfl := Option.some.inj hint
        exact ⟨hcounted, rfl, hdevices, hin, rfl, rfl, fun p hmem _ => Or.inl ⟨hmem, hnext⟩, hsame,
          honce⟩
      · rw [hone, scheduleAll] at hint
        obtain ⟨int₁, hsch, hint⟩ := Option.bind_eq_some_iff.mp hint
        obtain rfl := Option.some.inj hint
        have hdone := hcounted.schedule (by dsimp only; omega) (fun he => absurd he hd) hsch
        rw [if_neg hd] at hdone
        obtain ⟨-, rfl⟩ := hcounted.schedule_eq (by dsimp only; omega) hsch
        refine ⟨hdone, rfl, hdevices, hin, rfl, rfl, fun p hmem htimer => ?_, hsame, honce⟩
        rcases SortedList.mem_insert.mp hmem with rfl | hmem
        · exact absurd (of_decide_eq_true htimer) hd
        · exact Or.inl ⟨hmem, hnext⟩

end Handlers

end TimeSlices

end Nachos
