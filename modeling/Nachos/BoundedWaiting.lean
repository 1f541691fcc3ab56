import Nachos.TimeSlices

/-!
# Bounded waiting

How long a thread waits on the ready list, in ticks of the clock. While some
thread is ready the machine does not idle, so every timer interrupt is served
in a tick and ends in a `Yield`, and the `Yield` switches. The next interrupt
is at most `2 * TimerTicks` away and is served at most `SystemTick - 1` ticks
late: at most 209 ticks for a switch (`Waits`). With the order of the ready
list (`ReadyOrder`), a thread that has `i` others before it runs within
`209 * (i + 1)` ticks (`bounded_waiting`).

The guard `InRange` keeps the clock, and what is computed from it, in the
range of `int`.
-/

namespace Nachos

namespace TimeSlices

open Run CInt Interrupt

/-! ## One step -/

/-- The invariant of the system. -/
structure Timely (s : System) : Prop where
  int : Punctual s.int
  sched : Sched.Inv s.sched
  enabled : s.devices.disable = false
  running : s.int.inHandler = some .oneTick → s.sched.mode = .running

/-- `n` switches after the clock stood at `start`, and all the time some
thread was ready: how far the clock can have gone, and when the next `Yield`
is asked for. -/
structure Waits (start : Int) (n : Nat) (s : System) : Prop where
  clock : s.int.stats.totalTicks ≤ start + 209 * (n + 1)
  timers : ∀ p ∈ s.int.pending, isTimer p = true →
    p.when ≤ start + 200 + 209 * (n + if s.int.yieldOnReturn then 1 else 0)
  idle : s.int.inHandler = some .idle → s.int.stats.totalTicks ≤ start

theorem Waits.mono {start : Int} {n m : Nat} {s : System} (h : Waits start n s) (hnm : n ≤ m) :
    Waits start m s := by
  have hclock := h.clock
  refine ⟨by omega, fun p hmem ht => ?_, h.idle⟩
  have hp := h.timers p hmem ht
  split at hp <;> rename_i hy
  · rw [if_pos hy]
    omega
  · rw [if_neg hy]
    omega

/-- What is switched to comes off the front of the ready list, and what becomes
ready goes to its end. -/
def Queues (s s' : System) : Prop :=
  ∃ added, Sched.switchedTo s.sched s'.sched ++ s'.sched.readyList = s.sched.readyList ++ added

section Steps

variable {s s' : System} {start : Int} {n : Nat}

theorem Queues.same (h : s'.sched = s.sched) : Queues s s' :=
  ⟨[], by rw [Sched.switchedTo_same (by rw [h]), h, List.nil_append, List.append_nil]⟩

theorem tick_eq (h : Timely s) (hin : s.int.inHandler = none) :
    s.tick = some { s with int := oneTick s.int } := by
  rw [System.tick, System.afterTick, h.int.not_asked hin,
    if_neg fun hh => Bool.false_ne_true hh.1]

theorem Timely.tick (h : Timely s) (hin : s.int.inHandler = none) (hmode : s.sched.mode = .running)
    (hrange : s.int.time + 200 ≤ intMax) : Timely { s with int := oneTick s.int } :=
  ⟨(oneTick_cases h.int hin hrange).1, h.sched, h.enabled, fun _ => hmode⟩

/-- A tick while some thread waits: the next timer interrupt is not due yet. -/
theorem Waits.tick (hw : Waits start n s) (h : Timely s) (hin : s.int.inHandler = none)
    (hrange : s.int.time + 200 ≤ intMax) : Waits start n { s with int := oneTick s.int } := by
  have hno := h.int.not_asked hin
  obtain ⟨-, hclock, hsub, hno', hend⟩ := oneTick_cases h.int hin hrange
  have hcount := (h.int.counted_one hin).timers
  obtain ⟨p, hmem, htimer⟩ := List.countP_pos_iff.mp (hcount ▸ Nat.zero_lt_one)
  have hquiet := h.int.quiet hin p hmem
  have hnext := hw.timers p hmem htimer
  rw [hno] at hnext
  refine ⟨?_, fun q hq htq => ?_, fun hidle => ?_⟩
  · simp only [Bool.false_eq_true, if_false] at hnext
    dsimp only
    omega
  · have hbound := hw.timers q (hsub q hq) htq
    rw [hno] at hbound
    dsimp only
    rw [hno']
    exact hbound
  · rcases hend with hnone | hone
    · rw [show _ = none from hnone] at hidle
      cases hidle
    · rw [show _ = some Caller.oneTick from hone] at hidle
      cases hidle

/-- A handler returns and the loop of `CheckIfDue` goes on. -/
theorem returns_cases (h : Timely s) (hrange : s.int.time + 200 ≤ intMax)
    (hs : s.step .callBackReturns = some s') :
    ∃ caller next s₁, s.int.inHandler = some caller ∧ Handled s s₁ caller next
      ∧ s₁.afterTick (caller == .oneTick && s₁.int.yieldOnReturn)
          (callBackReturns s₁.int caller) = some s' := by
  rw [System.step] at hs
  split at hs
  next caller next c hin hlast =>
    obtain ⟨s₁, hs₁, hafter⟩ := Option.bind_eq_some_iff.mp hs
    exact ⟨caller, next, s₁, hin, callBack_handled h.int h.enabled hrange hin hlast hs₁, hafter⟩
  next => cases hs

theorem Punctual.idle_iff (h : Punctual s.int) {caller : Caller}
    (hin : s.int.inHandler = some caller) : s.int.status = .idleMode ↔ caller = .idle := by
  rw [h.status, hin, Option.some_inj]

/-- A `Yield` is asked for in `OneTick` only, and then the next timer interrupt
is still to come. -/
theorem Handled.asks {s₁ : System} {caller : Caller} {next : PendingInterrupt Device}
    (hh : Handled s s₁ caller next) (h : Punctual s.int) (hin : s.int.inHandler = some caller)
    (hyes : s₁.int.yieldOnReturn = true) :
    caller = .oneTick
      ∧ ∀ p ∈ s₁.int.pending, isTimer p = true → s₁.int.stats.totalTicks < p.when := by
  rw [hh.stats]
  rcases hh.asked.mp hyes with hold | ⟨hnext, hne⟩
  · obtain ⟨hone, -, htimers⟩ := h.asked hold
    refine ⟨Option.some.inj (hin.symm.trans hone), fun p hmem htimer => ?_⟩
    rcases hh.timers p hmem htimer with ⟨hmem', -⟩ | ⟨hnext, -⟩
    · exact htimers p hmem' htimer
    · rw [hh.once hold] at hnext
      cases hnext
  · refine ⟨?_, fun p hmem htimer => ?_⟩
    · cases caller with
      | oneTick => rfl
      | idle => exact absurd ((h.idle_iff hin).mpr rfl) hne
    · rcases hh.timers p hmem htimer with ⟨-, hno⟩ | ⟨-, hlt, -⟩
      · rw [hnext] at hno
        cases hno
      · exact hlt

/-- The end of a tick that a handler has asked to end with `Yield`. -/
theorem yield_switches (h : Sched.Inv s.sched) (hmode : s.sched.mode = .running)
    {sched : Sched.State} (hs : Sched.step s.sched .yield = some sched) :
    Sched.Inv sched
      ∧ (s.sched.readyList ≠ [] → (Sched.switchedTo s.sched sched).length = 1) := by
  refine ⟨h.step hs, fun hready => ?_⟩
  obtain ⟨s₁, hs₁, -⟩ := h.yield hmode
  rw [Sched.step, if_neg (not_not.mpr h.failed), Sched.act, if_pos hmode, hs₁] at hs
  obtain rfl := Option.some.inj hs
  rcases Sched.yield_ready hmode hs₁ with ⟨hnil, -⟩ | ⟨-, hswitched⟩
  · exact absurd hnil hready
  · rw [Sched.switchedTo, if_pos ⟨by rw [hmode]; simp, hswitched⟩]
    rfl

theorem returns_keeps (h : Timely s) (hrange : s.int.time + 200 ≤ intMax)
    (hs : s.step .callBackReturns = some s') :
    Timely s' ∧ Queues s s' ∧ (Waits start n s → s.sched.readyList ≠ [] →
      Waits start (n + (Sched.switchedTo s.sched s'.sched).length) s') := by
  obtain ⟨caller, next, s₁, hin, hh, hafter⟩ := returns_cases h hrange hs
  obtain ⟨hpun, hstats, hsub, hend⟩ := pass_cases hh.counted hh.inHandler
    (by rw [hh.status, h.int.idle_iff hin]) (hh.asks h.int hin)
  -- the bound is kept if a `Yield` that was asked for has been made or is still asked for
  have hwaits : ∀ (m : Nat) (sched : Sched.State), Waits start n s →
      (s₁.int.yieldOnReturn = true →
        1 ≤ m + if (callBackReturns s₁.int caller).yieldOnReturn then 1 else 0) →
      Waits start (n + m) { s₁ with int := callBackReturns s₁.int caller, sched := sched } := by
    intro m sched hw hm
    have hclock := hw.clock
    refine ⟨?_, fun p hmem htimer => ?_, fun hsome => ?_⟩
    · dsimp only
      rw [hstats, hh.stats]
      omega
    · have hcast : (if (callBackReturns s₁.int caller).yieldOnReturn then 1 else 0 : Int)
          = ((if (callBackReturns s₁.int caller).yieldOnReturn then 1 else 0 : Nat) : Int) :=
        (Nat.cast_ite ..).symm
      dsimp only
      rw [hcast]
      generalize (if (callBackReturns s₁.int caller).yieldOnReturn then 1 else 0 : Nat) = k at hm ⊢
      rcases hh.timers p (hsub p hmem) htimer with ⟨hmem', -⟩ | ⟨hnext, -, hle⟩
      · have hp := hw.timers p hmem' htimer
        split at hp
        next hyes =>
          have := hm (hh.asked.mpr (Or.inl hyes))
          omega
        next => omega
      · by_cases hidle : s.int.status = .idleMode
        · have := hw.idle (h.int.status.mp hidle)
          omega
        · have := hm (hh.asked.mpr (Or.inr ⟨hnext, hidle⟩))
          omega
    · dsimp only at hsome ⊢
      rw [hstats, hh.stats]
      rcases hend with ⟨hnone, -⟩ | ⟨hcaller, -⟩
      · rw [hnone] at hsome
        cases hsome
      · exact hw.idle (hin.trans (hcaller.symm.trans hsome))
  rw [System.afterTick] at hafter
  split at hafter
  next hyield =>
    rw [Bool.and_eq_true, beq_iff_eq] at hyield
    obtain ⟨⟨rfl, -⟩, hnone⟩ := hyield
    obtain ⟨sched, hsched, rfl⟩ := Option.map_eq_some_iff.mp hafter
    rw [hh.sched] at hsched
    obtain ⟨hinv, hone⟩ := yield_switches h.sched (h.running hin) hsched
    refine ⟨⟨hpun, hinv, hh.enabled, fun hsome => ?_⟩, Sched.step_ready h.sched hsched,
      fun hw hready => ?_⟩
    · rw [show _ = none from hnone] at hsome
      cases hsome
    · rw [hone hready]
      exact hwaits 1 sched hw fun _ => Nat.le_add_right 1 _
  next hnot =>
    obtain rfl := Option.some.inj hafter
    have hsame : Sched.switchedTo s.sched s₁.sched = [] :=
      Sched.switchedTo_same (by rw [hh.sched])
    refine ⟨⟨hpun, hh.sched ▸ h.sched, hh.enabled, fun hsome => ?_⟩, .same hh.sched,
      fun hw _ => ?_⟩
    · dsimp only
      rw [hh.sched]
      refine h.running (hin.trans ?_)
      rcases hend with ⟨hnone, -⟩ | ⟨hcaller, -⟩
      · rw [show _ = none from hnone] at hsome
        cases hsome
      · exact hcaller.symm.trans hsome
    · dsimp only
      rw [hsame, List.length_nil]
      refine hwaits 0 s₁.sched hw fun hyes => ?_
      -- if a `Yield` is asked for and not made, the loop goes on
      rcases hend with ⟨hnone, -⟩ | ⟨-, hkept⟩
      · refine absurd ⟨?_, hnone⟩ hnot
        rw [(hh.asks h.int hin hyes).1, hyes]
        rfl
      · rw [hkept, if_pos hyes]

/-- `V` does not switch. -/
theorem v_mode (h : Sched.Inv s.sched) {i : Nat} {sched : Sched.State}
    (hs : Sched.step s.sched (.v i) = some sched) : sched.mode = s.sched.mode := by
  rw [Sched.step, if_neg (not_not.mpr h.failed)] at hs
  obtain ⟨r, hr, rfl⟩ := Option.map_eq_some_iff.mp hs
  obtain ⟨s₁, rfl, -⟩ := h.act hr
  rw [Sched.act] at hr
  split at hr
  · obtain ⟨x, -, hx⟩ := Option.map_eq_some_iff.mp hr
    exact (Sched.doV_ready hx).2
  · cases hr

/-- A call of the running thread, or `V` in a handler. -/
theorem thread_cases {a : Sched.Action} (hs : s.step (.thread a) = some s') :
    (s.int.inHandler = none ∨ ∃ i, a = .v i)
      ∧ ∃ sched, Sched.step s.sched a = some sched ∧ s' = { s with sched := sched } := by
  cases a with
  | v i =>
      obtain ⟨sched, hsched, rfl⟩ := Option.map_eq_some_iff.mp hs
      exact ⟨Or.inr ⟨i, rfl⟩, sched, hsched, rfl⟩
  | _ =>
      simp only [System.step] at hs
      split at hs
      next hin =>
        obtain ⟨sched, hsched, rfl⟩ := Option.map_eq_some_iff.mp hs
        exact ⟨Or.inl hin, sched, hsched, rfl⟩
      next => cases hs

theorem thread_keeps (start : Int) (n : Nat) (h : Timely s) {a : Sched.Action}
    (hs : s.step (.thread a) = some s') :
    Timely s' ∧ Queues s s' ∧ (Waits start n s →
      Waits start (n + (Sched.switchedTo s.sched s'.sched).length) s') := by
  obtain ⟨hwho, sched, hsched, rfl⟩ := thread_cases hs
  refine ⟨⟨h.int, h.sched.step hsched, h.enabled, fun hone => ?_⟩, Sched.step_ready h.sched hsched,
    fun hw => ?_⟩
  · rcases hwho with hnone | ⟨i, rfl⟩
    · rw [show _ = none from hnone] at hone
      cases hone
    · exact (v_mode h.sched hsched).trans (h.running hone)
  · have hmore := hw.mono (Nat.le_add_right n (Sched.switchedTo s.sched sched).length)
    exact ⟨hmore.clock, hmore.timers, hmore.idle⟩

/-- A change of the level leaves the interrupts as they are. -/
theorem Timely.setLevel (h : Timely s) (now : IntStatus) : Timely { s with int.level := now } :=
  ⟨⟨h.int.counted.congr rfl rfl rfl rfl rfl, h.int.quiet, h.int.status, h.int.asked⟩, h.sched,
    h.enabled, h.running⟩

theorem Waits.setLevel (h : Waits start n s) (now : IntStatus) :
    Waits start n { s with int.level := now } := ⟨h.clock, h.timers, h.idle⟩

theorem Timely.schedule (start : Int) (n : Nat) (h : Timely s) {device : Device} {fromNow : Int}
    {type : IntType} {int : State Device} (hd : device ≠ .timer)
    (hrange : s.int.time + fromNow ≤ intMax)
    (hs : Interrupt.schedule s.int device fromNow type = some int) :
    Timely { s with int := int } ∧ (Waits start n s → Waits start n { s with int := int }) := by
  have hcounted := h.int.counted.schedule hrange (fun he => absurd he hd) hs
  rw [if_neg hd, Nat.add_zero] at hcounted
  obtain ⟨hpos, rfl⟩ := h.int.counted.schedule_eq hrange hs
  have hold : ∀ p ∈ SortedList.insert pendingCompare
      (⟨device, s.int.stats.totalTicks + fromNow, type, s.int.scheduled⟩ :
        PendingInterrupt Device) s.int.pending, isTimer p = true → p ∈ s.int.pending := by
    intro p hmem htimer
    rcases SortedList.mem_insert.mp hmem with rfl | hmem
    · exact absurd (of_decide_eq_true htimer) hd
    · exact hmem
  refine ⟨⟨⟨hcounted, fun hnone p hmem => ?_, h.int.status, fun hyes => ?_⟩, h.sched, h.enabled,
    h.running⟩, fun hw => ⟨hw.clock, fun p hmem htimer => ?_, hw.idle⟩⟩
  · rcases SortedList.mem_insert.mp hmem with rfl | hmem
    · dsimp only
      omega
    · exact h.int.quiet hnone p hmem
  · obtain ⟨hone, hserving, htimers⟩ := h.int.asked hyes
    exact ⟨hone, hserving, fun p hmem htimer => htimers p (hold p hmem htimer) htimer⟩
  · exact hw.timers p (hold p hmem htimer) htimer

/-- **One step** keeps the invariant and the order, and while some thread is
ready it keeps the bound, in which every switch counts. -/
theorem step_keeps (start : Int) (n : Nat) (h : Timely s) {a : Action} (hok : s.InRange a)
    (hs : s.step a = some s') :
    Timely s' ∧ Queues s s' ∧ (Waits start n s → s.sched.readyList ≠ [] →
      Waits start (n + (Sched.switchedTo s.sched s'.sched).length) s') := by
  -- a step that leaves the scheduler alone
  have hkept : ∀ {s₁ : System}, s₁.sched = s.sched → (Waits start n s → Waits start n s₁) →
      Queues s s₁ ∧ (Waits start n s → s.sched.readyList ≠ [] →
        Waits start (n + (Sched.switchedTo s.sched s₁.sched).length) s₁) :=
    fun hsched hw => ⟨.same hsched, fun hw' _ => (hw hw').mono (Nat.le_add_right ..)⟩
  cases a with
  | thread a =>
      obtain ⟨ht, hq, hw⟩ := thread_keeps start n h hs
      exact ⟨ht, hq, fun hw' _ => hw hw'⟩
  | schedule device fromNow type =>
      rw [System.step] at hs
      split at hs
      next => cases hs
      next hd =>
        obtain ⟨int, hint, rfl⟩ := Option.map_eq_some_iff.mp hs
        obtain ⟨ht, hw⟩ := h.schedule start n hd hok hint
        exact ⟨ht, hkept rfl hw⟩
  | setLevel now =>
      rw [System.step] at hs
      split at hs
      next =>
        obtain rfl := Option.some.inj hs
        exact ⟨h.setLevel now, hkept rfl fun hw => hw.setLevel now⟩
      next =>
        split at hs
        next hg =>
          split at hs
          next =>
            rw [tick_eq (h.setLevel now) hg.1] at hs
            obtain rfl := Option.some.inj hs
            exact ⟨(h.setLevel now).tick hg.1 hg.2 hok,
              hkept rfl fun hw => (hw.setLevel now).tick (h.setLevel now) hg.1 hok⟩
          next =>
            obtain rfl := Option.some.inj hs
            exact ⟨h, hkept rfl id⟩
        next => cases hs
  | setStatus status =>
      rw [System.step] at hs
      split at hs
      next hg =>
        obtain rfl := Option.some.inj hs
        refine ⟨⟨⟨h.int.counted.congr rfl rfl rfl rfl rfl, h.int.quiet,
          iff_of_false hg.2 (by rw [show _ = none from hg.1]; simp), h.int.asked⟩, h.sched,
          h.enabled, h.running⟩, hkept rfl fun hw => ⟨hw.clock, hw.timers, hw.idle⟩⟩
      next => cases hs
  | oneTick =>
      rw [System.step] at hs
      split at hs
      next hg =>
        rw [tick_eq h hg.1] at hs
        obtain rfl := Option.some.inj hs
        exact ⟨h.tick hg.1 hg.2 hok, hkept rfl fun hw => hw.tick h hg.1 hok⟩
      next => cases hs
  | idle =>
      rw [System.step] at hs
      split at hs
      next hg =>
        obtain ⟨int, hint, rfl⟩ := Option.map_eq_some_iff.mp hs
        obtain ⟨hpun, hidle, -⟩ := idle_cases h.int hg.1 hint
        refine ⟨⟨hpun, h.sched, h.enabled, fun hone => ?_⟩, .same rfl,
          fun _ hready => absurd hg.2.2 hready⟩
        rw [show _ = some Caller.idle from hidle] at hone
        cases hone
      next => cases hs
  | callBackReturns => exact returns_keeps h hok hs

end Steps

/-! ## Runs -/

theorem Timely.boot {w : Devices} {s : System} (hw : w.disable = false)
    (hs : System.boot w = some s) : Timely s := by
  obtain ⟨int, hint, rfl⟩ := Option.map_eq_some_iff.mp hs
  have hnew : Counted (Interrupt.new : State Device) 0 :=
    ⟨Inv.new.ordered, by decide, fun p hp => absurd hp List.not_mem_nil, rfl,
      fun p hp => absurd hp List.not_mem_nil⟩
  obtain ⟨hd0, hd200⟩ := w.delay_bounds
  have hfit : (Interrupt.new : State Device).time + w.delay ≤ intMax := by
    simp only [Interrupt.new, intMax]
    omega
  have hcounted := hnew.schedule hfit (fun _ => hd200) hint
  obtain ⟨-, rfl⟩ := hnew.schedule_eq hfit hint
  refine ⟨⟨hcounted, fun _ p hmem => ?_, iff_of_false (by simp [Interrupt.new])
    (by simp [Interrupt.new]), fun hyes => by cases hyes⟩, Sched.Inv.init, hw,
    fun hone => by cases hone⟩
  rcases SortedList.mem_insert.mp hmem with rfl | hmem
  · dsimp only [Interrupt.new]
    omega
  · exact absurd hmem List.not_mem_nil

/-- How a thread begins to wait. -/
theorem Waits.start {s : System} (h : Timely s) : Waits s.int.stats.totalTicks 0 s := by
  refine ⟨by omega, fun p hmem htimer => ?_, fun _ => le_rfl⟩
  have hsoon := h.int.counted.soon p hmem htimer
  split <;> omega

/-- **Bounded waiting.** A thread that has `i` others before it on the ready
list is switched to, after them, before the clock has gone on by more than
`209 * (i + 1)` ticks: whatever the threads, the devices and the user programs
do in the meantime, and however the timer draws its delays. -/
theorem bounded_waiting {w : Devices} {s₀ s s' : System} {ds : List Nat} {i t : Nat}
    (hw : w.disable = false) (hboot : System.boot w = some s₀)
    (hreach : Reach System.step System.InRange s₀ s) (ht : s.sched.readyList[i]? = some t)
    (hrun : Reach System.tracedStep (fun x => x.1.InRange) (s, []) (s', ds))
    (hlong : s.int.stats.totalTicks + 209 * (i + 1) < s'.int.stats.totalTicks) :
    ds[i]? = some t := by
  have hs : Timely s := hreach.invariant (Timely.boot hw hboot) fun _ _ _ _ hi hok hs =>
    (step_keeps 0 0 hi hok hs).1
  obtain ⟨hlt, -⟩ := List.getElem?_eq_some_iff.mp ht
  obtain ⟨-, ⟨added, hq⟩, hend⟩ := hrun.invariant
    (I := fun x => Timely x.1
      ∧ (∃ added, x.2 ++ x.1.sched.readyList = s.sched.readyList ++ added)
      ∧ (x.2.length ≤ i → Waits s.int.stats.totalTicks x.2.length x.1))
    ⟨hs, ⟨[], by rw [List.nil_append, List.append_nil]⟩, fun _ => Waits.start hs⟩ (by
      rintro ⟨u, us⟩ a x' - ⟨hu, ⟨added, hq⟩, hwaits⟩ hok hstep
      obtain ⟨u', hu', rfl⟩ := Option.map_eq_some_iff.mp hstep
      obtain ⟨ht', ⟨more, hmore⟩, hw'⟩ := step_keeps s.int.stats.totalTicks us.length hu hok hu'
      refine ⟨ht', ⟨added ++ more, ?_⟩, fun hle => ?_⟩
      · dsimp only at hq ⊢
        rw [List.append_assoc, hmore, ← List.append_assoc, hq, List.append_assoc]
      · rw [List.length_append] at hle ⊢
        dsimp only at hle hq hwaits
        refine hw' (hwaits (by omega)) fun hnil => ?_
        -- `t` is still on the list
        have hlen := congrArg List.length hq
        rw [hnil, List.append_nil, List.length_append] at hlen
        omega)
  by_cases hle : ds.length ≤ i
  · have hclock := (hend hle).clock
    dsimp only at hclock
    omega
  · have hat : (ds ++ s'.sched.readyList)[i]? = some t := by
      rw [show _ = _ from hq, List.getElem?_append_left hlt, ht]
    rwa [List.getElem?_append_left (by omega)] at hat

/-- A thread that never gives up the processor, and one that is ready: two
time slices. -/
theorem bounded_waiting_two_slices :
    ∃ s₀ s s' ds, System.boot ⟨false, false, fun _ => 0, fun _ => false, 0⟩ = some s₀
      ∧ Reach System.step System.InRange s₀ s ∧ s.sched.readyList[0]? = some 1
      ∧ Reach System.tracedStep (fun x => x.1.InRange) (s, []) (s', ds)
      ∧ s.int.stats.totalTicks + 209 * ((0 : Nat) + 1) < s'.int.stats.totalTicks
      ∧ ds[0]? = some 1 := by
  have hrun : ((System.boot ⟨false, false, fun _ => 0, fun _ => false, 0⟩).bind fun s₀ =>
      (exec System.step System.InRange s₀
        [.thread .create, .thread (.fork 1), .setLevel .intOn]).bind fun s =>
      (exec System.tracedStep (fun x => x.1.InRange) (s, [])
        (List.replicate 9 .oneTick ++ [.callBackReturns, .thread .resume]
          ++ List.replicate 10 .oneTick ++ [.callBackReturns, .thread .resume]
          ++ List.replicate 2 .oneTick)).map fun x =>
      (s.sched.readyList[0]?, s.int.stats.totalTicks, x.1.int.stats.totalTicks))
      = some (some 1, 10, 220) := by
    decide +kernel
  obtain ⟨s₀, hboot, hrun⟩ := Option.bind_eq_some_iff.mp hrun
  obtain ⟨s, hs, hrun⟩ := Option.bind_eq_some_iff.mp hrun
  obtain ⟨⟨s', ds⟩, hs', heq⟩ := Option.map_eq_some_iff.mp hrun
  simp only [Prod.mk.injEq] at heq
  obtain ⟨hready, hstart, hend⟩ := heq
  have hlong : s.int.stats.totalTicks + 209 * ((0 : Nat) + 1) < s'.int.stats.totalTicks := by
    rw [hstart, hend]
    decide
  exact ⟨s₀, s, s', ds, hboot, Reach.of_exec _ hs, hready, Reach.of_exec _ hs', hlong,
    bounded_waiting rfl hboot (Reach.of_exec _ hs) hready (Reach.of_exec _ hs') hlong⟩

end TimeSlices

end Nachos
