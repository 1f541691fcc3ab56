import Nachos.Run
import Nachos.CInt

/-!
# Semaphores

`Semaphore` of `threads/synch.cc`: an `int` value and the FIFO of threads
asleep in `P`. Both operations run with interrupts off, so one pass of the
loop in `P` (test, then either go to sleep or take a unit) and the whole of
`V` are atomic; a thread that `V` has taken off the queue is on the ready
list and tests again when it next runs, and any other thread may run in
between.

The second half is the system of one semaphore used by any number of
threads. Besides the semaphore its state keeps the threads that `V` has
moved to the ready list and that have not yet tested again (`woken`), and
how many `P`s and `V`s have completed. A `V` at the largest `int` wraps the
value to a negative one (`value_negative_after_overflow`), so the counting laws are about the
runs in which no `V` does that (`NoOverflow`).
-/

namespace Nachos

open CInt Run

/-- A semaphore with its wait queue, front first. -/
structure Semaphore (T : Type) where
  value : Int
  queue : List T
deriving Repr, DecidableEq

namespace Semaphore

variable {T : Type}

/-- `Semaphore::Semaphore(debugName, initialValue)`. -/
def new (initialValue : Int) : Semaphore T := ⟨initialValue, []⟩

/-- One pass of the loop in `Semaphore::P` by thread `t`: `true` when the
unit is taken and `P` returns, `false` when `t` has put itself on the queue
and gone to sleep. -/
def p (s : Semaphore T) (t : T) : Bool × Semaphore T :=
  if s.value = 0 then (false, { s with queue := s.queue ++ [t] })
  else (true, { s with value := wrap32 (s.value - 1) })

/-- `Semaphore::V`: the thread moved to the ready list, if one was waiting,
and the semaphore afterwards. -/
def v (s : Semaphore T) : Option T × Semaphore T :=
  match s.queue with
  | [] => (none, { s with value := wrap32 (s.value + 1) })
  | t :: rest => (some t, ⟨wrap32 (s.value + 1), rest⟩)

theorem p_sleep {s : Semaphore T} (h : s.value = 0) (t : T) :
    s.p t = (false, { s with queue := s.queue ++ [t] }) := if_pos h

theorem p_pass {s : Semaphore T} (h : s.value ≠ 0) (t : T) :
    s.p t = (true, { s with value := wrap32 (s.value - 1) }) := if_neg h

@[simp] theorem v_value (s : Semaphore T) : s.v.2.value = wrap32 (s.value + 1) := by
  unfold v
  split <;> rfl

theorem v_of_empty {s : Semaphore T} (h : s.queue = []) :
    s.v = (none, { s with value := wrap32 (s.value + 1) }) := by
  unfold v
  rw [h]

theorem v_of_cons {s : Semaphore T} {t : T} {rest : List T} (h : s.queue = t :: rest) :
    s.v = (some t, ⟨wrap32 (s.value + 1), rest⟩) := by
  unfold v
  rw [h]

end Semaphore

/-! ## One semaphore, any number of threads -/

namespace SemRun

/-- A semaphore in use. `woken` are the threads that `V` has put on the
ready list and that have not run since; `ps` and `vs` count the completed
operations. -/
structure State (T : Type) where
  sem : Semaphore T
  woken : List T
  ps : Nat
  vs : Nat

/-- `p t`: a thread calls `P`; `retest t`: a woken thread runs again and
goes round the loop in `P`; `v`: some thread, or an interrupt handler,
calls `V`. -/
inductive Action (T : Type) where
  | p (t : T)
  | retest (t : T)
  | v

variable {T : Type}

def State.new (initialValue : Int) : State T := ⟨.new initialValue, [], 0, 0⟩

/-- One pass of `P`'s loop by `t`, counted when it takes the unit. -/
def State.pass (s : State T) (t : T) : State T :=
  match s.sem.p t with
  | (true, sem) => { s with sem := sem, ps := s.ps + 1 }
  | (false, sem) => { s with sem := sem }

theorem pass_cases (s : State T) (t : T) :
    (s.sem.value = 0 ∧ s.pass t = { s with sem := ⟨0, s.sem.queue ++ [t]⟩ })
      ∨ (s.sem.value ≠ 0 ∧ s.pass t =
          { s with sem := ⟨wrap32 (s.sem.value - 1), s.sem.queue⟩, ps := s.ps + 1 }) := by
  by_cases h : s.sem.value = 0
  · left
    refine ⟨h, ?_⟩
    simp only [State.pass, Semaphore.p_sleep h, h]
  · right
    refine ⟨h, ?_⟩
    simp only [State.pass, Semaphore.p_pass h]

/-- A thread that is asleep in `P`, or woken and about to test again, is
inside its call and cannot start another one. -/
def step [DecidableEq T] (s : State T) : Action T → Option (State T)
  | .p t => if t ∈ s.sem.queue ∨ t ∈ s.woken then none else some (s.pass t)
  | .retest t =>
      if t ∈ s.woken then some (({ s with woken := s.woken.erase t } : State T).pass t)
      else none
  | .v =>
      match s.sem.v with
      | (some t, sem) => some { s with sem := sem, woken := s.woken ++ [t], vs := s.vs + 1 }
      | (none, sem) => some { s with sem := sem, vs := s.vs + 1 }

theorem step_v_cases [DecidableEq T] {s s' : State T} (h : step s .v = some s') :
    (s.sem.queue = [] ∧ s' = { s with sem := ⟨wrap32 (s.sem.value + 1), []⟩, vs := s.vs + 1 })
      ∨ ∃ t rest, s.sem.queue = t :: rest ∧
          s' = { s with sem := ⟨wrap32 (s.sem.value + 1), rest⟩,
                        woken := s.woken ++ [t], vs := s.vs + 1 } := by
  cases hq : s.sem.queue with
  | nil =>
      simp only [step, Semaphore.v_of_empty hq] at h
      exact Or.inl ⟨rfl, by rw [← Option.some.inj h, hq]⟩
  | cons t rest =>
      simp only [step, Semaphore.v_of_cons hq] at h
      exact Or.inr ⟨t, rest, rfl, (Option.some.inj h).symm⟩

/-- No `V` is performed at the largest `int`. -/
def NoOverflow (s : State T) : Action T → Prop
  | .v => s.sem.value ≠ intMax
  | _ => True

instance (s : State T) : (a : Action T) → Decidable (NoOverflow s a)
  | .v => inferInstanceAs (Decidable (s.sem.value ≠ intMax))
  | .p _ => inferInstanceAs (Decidable True)
  | .retest _ => inferInstanceAs (Decidable True)

/-! ## Counting and wakeups -/

/-- The counting law and the wakeup law of one semaphore started at `n`. -/
structure Inv (n : Int) (s : State T) : Prop where
  isInt : s.sem.value ≤ intMax
  nonneg : 0 ≤ s.sem.value
  count : s.sem.value = n + s.vs - s.ps
  wakeup : s.sem.queue ≠ [] → s.sem.value ≤ s.woken.length

theorem Inv.new {n : Int} (h0 : 0 ≤ n) (hn : n ≤ intMax) : Inv n (State.new n : State T) :=
  ⟨hn, h0, by simp [State.new, Semaphore.new], fun h => absurd rfl h⟩

/-- A pass of `P`'s loop re-establishes the wakeup law from a bound that is
one too weak: the pass takes a unit away, or there was none. The slack is
what a woken thread leaves behind when it stops counting as woken. -/
theorem Inv.pass {n : Int} {s : State T} (hint : s.sem.value ≤ intMax)
    (hnn : 0 ≤ s.sem.value) (hcount : s.sem.value = n + s.vs - s.ps)
    (hwake : s.sem.queue ≠ [] → s.sem.value ≤ s.woken.length + 1) (t : T) :
    Inv n (s.pass t) := by
  rcases pass_cases s t with ⟨h0, heq⟩ | ⟨h0, heq⟩
  · rw [heq]
    refine ⟨by simp [intMax], by simp, ?_, fun _ => ?_⟩
    · show (0 : Int) = n + s.vs - s.ps
      omega
    · show (0 : Int) ≤ s.woken.length
      omega
  · rw [heq]
    have hwrap : wrap32 (s.sem.value - 1) = s.sem.value - 1 :=
      wrap32_of_bounds (by omega) (by simp only [intMax] at hint; omega)
    refine ⟨?_, ?_, ?_, fun hq => ?_⟩
    · show wrap32 (s.sem.value - 1) ≤ intMax
      omega
    · show 0 ≤ wrap32 (s.sem.value - 1)
      omega
    · show wrap32 (s.sem.value - 1) = n + s.vs - (s.ps + 1 : Nat)
      omega
    · show wrap32 (s.sem.value - 1) ≤ s.woken.length
      have hle := hwake hq
      omega

theorem Inv.step [DecidableEq T] {n : Int} {s s' : State T} {a : Action T} (h : Inv n s)
    (hok : NoOverflow s a) (hs : step s a = some s') : Inv n s' := by
  obtain ⟨hint, hnn, hcount, hwake⟩ := h
  cases a with
  | p t =>
      simp only [SemRun.step] at hs
      split at hs
      · cases hs
      · obtain rfl := Option.some.inj hs
        exact Inv.pass hint hnn hcount (fun hq => by have := hwake hq; omega) t
  | retest t =>
      simp only [SemRun.step] at hs
      split at hs
      · rename_i hmem
        obtain rfl := Option.some.inj hs
        refine Inv.pass (s := { s with woken := s.woken.erase t }) hint hnn hcount
          (fun hq => ?_) t
        have hlen := List.length_erase_of_mem hmem
        have hpos := List.length_pos_of_mem hmem
        have hle := hwake hq
        simp only
        omega
      · cases hs
  | v =>
      simp only [NoOverflow, intMax] at hok
      simp only [intMax] at hint
      have hwrap : wrap32 (s.sem.value + 1) = s.sem.value + 1 :=
        wrap32_of_bounds (by omega) (by omega)
      rcases step_v_cases hs with ⟨hq, rfl⟩ | ⟨t, rest, hq, rfl⟩
      · refine ⟨?_, ?_, ?_, fun h => absurd rfl h⟩
        · simp only [hwrap, intMax]; omega
        · simp only [hwrap]; omega
        · simp only [hwrap]; omega
      · refine ⟨?_, ?_, ?_, fun _ => ?_⟩
        · simp only [hwrap, intMax]; omega
        · simp only [hwrap]; omega
        · simp only [hwrap]; omega
        · have hle := hwake (by rw [hq]; exact List.cons_ne_nil t rest)
          simp only [hwrap, List.length_append, List.length_singleton]
          omega

/-- **Counting and no lost wakeup.** Along every run without a `V` at the
largest `int`, the value is non-negative, it is the initial value plus the
completed `V`s minus the completed `P`s, and while threads sleep there is a
wakeup on its way for every unit; in particular no unit is available when
threads sleep and none has been woken. -/
theorem value_counts_and_wakes [DecidableEq T] {n : Int} (hn : IsInt n) (h0 : 0 ≤ n)
    {s : State T} (h : Reach step NoOverflow (State.new n) s) :
    0 ≤ s.sem.value
      ∧ s.sem.value = n + s.vs - s.ps
      ∧ (s.sem.queue ≠ [] → s.sem.value ≤ s.woken.length)
      ∧ (s.sem.queue ≠ [] → s.woken = [] → s.sem.value = 0) := by
  have hinv : Inv n s :=
    Reach.invariant (Inv.new h0 hn.2) (fun _ _ _ _ hi hok hs => hi.step hok hs) h
  refine ⟨hinv.nonneg, hinv.count, hinv.wakeup, fun hq hw => ?_⟩
  have hle := hinv.wakeup hq
  have hnn := hinv.nonneg
  rw [hw, List.length_nil] at hle
  omega

/-- A run with two sleepers, a wakeup, a third thread that barges in and
takes the unit, and the woken thread going back to sleep. -/
theorem value_counts_and_wakes_barging :
    ∃ s : State Nat,
      exec step NoOverflow (State.new 0) [.p 1, .p 2, .v, .p 3, .retest 1] = some s
        ∧ s.sem.queue = [2, 1] ∧ s.woken = []
        ∧ s.sem.value = 0 + s.vs - s.ps ∧ s.sem.value = 0 := by
  refine ⟨_, rfl, rfl, rfl, ?_⟩
  have h := value_counts_and_wakes (T := Nat) (n := 0) (by decide) (by decide)
    (Reach.of_exec [.p 1, .p 2, .v, .p 3, .retest 1] rfl)
  exact ⟨h.2.1, h.2.2.2 (by decide) (by decide)⟩

/-- One `V` on a semaphore created with the largest `int` makes its value
negative. -/
theorem value_negative_after_overflow :
    ¬ ∀ (n : Int) (s : State Nat), IsInt n → 0 ≤ n →
      Reach step Any (State.new n) s →
      0 ≤ s.sem.value ∧ s.sem.value = n + s.vs - s.ps
        ∧ (s.sem.queue ≠ [] → s.sem.value ≤ s.woken.length) := by
  intro h
  have h1 := h intMax _ (by decide) (by decide)
    (Reach.of_exec [.v] rfl)
  exact absurd h1.1 (by decide)

end SemRun

end Nachos
