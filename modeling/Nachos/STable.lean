import Nachos.Bitmap
import Nachos.Semaphore
import Mathlib.Logic.Function.Basic

/-!
# User semaphores

`STable` and `Sem` (`threads/stable.cc`) behind the system calls
`CreateSemaphore`, `Wait` and `Signal` (`SysCreateSemaphore`, `SysWait` and
`SysSignal` of `userprog/ksyscall.h`): ten named semaphores that any process
may create, wait for and signal. `Create`, `Signal` and the search for a
name enable no interrupts before they are done, so they are atomic; a
process in `Wait` is in `P` of the semaphore it found.

Each entry carries its semaphore as a `SemRun.State`, that is with the
processes that have been woken and not yet tested again and with the number
of completed `P`s and `V`s, and the value it was created with. What holds of
one semaphore is taken from there; the table adds that an operation reaches
one entry and leaves the others alone.

Neither `Create` nor `Semaphore::Semaphore` looks at the value it is given,
and `P` tests for zero only: a semaphore created with a negative value never
blocks (`wait_returns_on_negative`).
-/

namespace Nachos

open CInt Run

namespace STable

/-- `MAX_SEMAPHORE`. -/
def maxSemaphore : Nat := 10

structure Sem where
  name : String
  value : Int
  run : SemRun.State Nat

structure State where
  mSemBitMap : Bitmap
  semTable : Nat → Option Sem

/-- `STable::STable`. -/
def State.init : State := ⟨.new maxSemaphore, fun _ => none⟩

/-- The calls of process `p`, a null name being `none`; `retest p i` is
process `p`, woken in `P` of semaphore `i`, running again. -/
inductive Action where
  | create (p : Nat) (name : Option String) (value : Int)
  | wait (p : Nat) (name : Option String)
  | signal (p : Nat) (name : Option String)
  | retest (p i : Nat)

namespace State

/-- The search that `Create`, `Wait` and `Signal` start with. -/
def find (s : State) (name : String) : Option Nat :=
  (List.range maxSemaphore).find? fun i =>
    s.mSemBitMap.testBit i && (s.semTable i).any fun x => x.name == name

/-- `STable::FindFreeSlot`. -/
def findFreeSlot (s : State) : Option Nat × Bitmap := s.mSemBitMap.findAndSet

def setSem (s : State) (i : Nat) (x : Sem) : State :=
  { s with semTable := Function.update s.semTable i (some x) }

/-- `STable::Create`. -/
def create (s : State) (name : String) (value : Int) : Int × State :=
  match s.find name with
  | some _ => (-1, s)
  | none =>
      match s.findFreeSlot with
      | (none, _) => (-1, s)
      | (some i, bm) =>
          (i, { s with mSemBitMap := bm }.setSem i ⟨name, value, .new value⟩)

/-- One operation on the semaphore of entry `i`. -/
def operate (s : State) (i : Nat) (a : SemRun.Action Nat) : Option State :=
  match s.semTable i with
  | none => none
  | some x => (SemRun.step x.run a).map fun r => s.setSem i { x with run := r }

/-- The search for a name and an operation on what it finds, with the result
of the call. -/
def onName (s : State) (name : String) (a : SemRun.Action Nat) : Option (Int × State) :=
  match s.find name with
  | none => some (-1, s)
  | some i => (s.operate i a).map fun s' => (1, s')

/-- `STable::Wait`, up to the end of the first pass of `P`; the result is what
it returns when it comes back from `P`. -/
def wait (s : State) (p : Nat) (name : String) : Option (Int × State) := s.onName name (.p p)

/-- `STable::Signal`. -/
def signal (s : State) (name : String) : Option (Int × State) := s.onName name .v

/-- `p` is inside `Wait`. -/
def busy (s : State) (p : Nat) : Bool :=
  (List.range maxSemaphore).any fun i => (s.semTable i).any fun x =>
    x.run.sem.queue.contains p || x.run.woken.contains p

end State

def step (s : State) (a : Action) : Option State :=
  match a with
  | .create p name value =>
      if s.busy p = true ∨ ¬ IsInt value then none
      else match name with
        | none => some s
        | some n => some (s.create n value).2
  | .wait p name =>
      if s.busy p = true then none
      else match name with
        | none => some s
        | some n => (s.wait p n).map Prod.snd
  | .signal p name =>
      if s.busy p = true then none
      else match name with
        | none => some s
        | some n => (s.signal n).map Prod.snd
  | .retest p i => s.operate i (.retest p)

/-! ## The bound on `Wait` -/

/-- No semaphore is negative, and no more `Wait`s have returned than its
initial value and the `Signal`s on it allow. -/
def WaitBound (s : State) : Prop :=
  ∀ i x, s.semTable i = some x →
    0 ≤ x.run.sem.value ∧ (x.run.ps : Int) ≤ max x.value 0 + x.run.vs

/-- A `CreateSemaphore` that succeeds is given a value that is not negative,
and no semaphore is signalled at the largest `int`. -/
def Sane (s : State) : Action → Prop
  | .create _ (some name) value =>
      s.find name = none → s.findFreeSlot.1 ≠ none → 0 ≤ value
  | .signal _ (some name) =>
      ∀ i, s.find name = some i → ∀ x, s.semTable i = some x → x.run.sem.value ≠ intMax
  | _ => True

def Inv (s : State) : Prop := ∀ i x, s.semTable i = some x → SemRun.Inv x.value x.run

namespace Inv

variable {s s' : State} {i : Nat}

theorem init : Inv State.init := by
  intro i x hx
  cases hx

theorem waitBound (h : Inv s) : WaitBound s := by
  intro i x hx
  have hinv := h i x hx
  have hnn := hinv.nonneg
  have hcount := hinv.count
  refine ⟨hnn, ?_⟩
  have hmax := le_max_left x.value 0
  omega

theorem setSem (h : Inv s) {x : Sem} (hx : SemRun.Inv x.value x.run) : Inv (s.setSem i x) := by
  intro j y hy
  by_cases hji : j = i
  · subst hji
    obtain rfl : x = y := by simpa [State.setSem] using hy
    exact hx
  · exact h j y (by simpa [State.setSem, hji] using hy)

theorem operate (h : Inv s) {a : SemRun.Action Nat}
    (hok : ∀ x, s.semTable i = some x → SemRun.NoOverflow x.run a)
    (hs : s.operate i a = some s') : Inv s' := by
  unfold State.operate at hs
  split at hs
  · cases hs
  · rename_i x hx
    obtain ⟨r, hr, rfl⟩ := Option.map_eq_some_iff.mp hs
    exact h.setSem ((h i x hx).step (hok x hx) hr)

theorem onName (h : Inv s) {name : String} {a : SemRun.Action Nat} {r : Int}
    (hok : ∀ i, s.find name = some i → ∀ x, s.semTable i = some x → SemRun.NoOverflow x.run a)
    (hs : s.onName name a = some (r, s')) : Inv s' := by
  unfold State.onName at hs
  split at hs
  · obtain ⟨-, rfl⟩ := Prod.mk.inj (Option.some.inj hs)
    exact h
  · rename_i i hi
    obtain ⟨t, ht, hr⟩ := Option.map_eq_some_iff.mp hs
    obtain ⟨-, rfl⟩ := Prod.mk.inj hr
    exact h.operate (hok i hi) ht

theorem create (h : Inv s) {name : String} {value : Int} (hint : IsInt value)
    (hval : s.find name = none → s.findFreeSlot.1 ≠ none → 0 ≤ value) :
    Inv (s.create name value).2 := by
  unfold State.create
  split
  · exact h
  · rename_i hfind
    split
    · exact h
    · rename_i j bm hfree
      have hv := hval hfind (by rw [hfree]; exact Option.some_ne_none _)
      exact Inv.setSem (s := { s with mSemBitMap := bm }) h (SemRun.Inv.new hv hint.2)

theorem step (h : Inv s) {a : Action} (hok : Sane s a) (hs : STable.step s a = some s') :
    Inv s' := by
  unfold STable.step at hs
  cases a with
  | create p name value =>
      dsimp only at hs
      split at hs
      · cases hs
      · rename_i hg
        cases name with
        | none =>
            obtain rfl := Option.some.inj hs
            exact h
        | some n =>
            obtain rfl := Option.some.inj hs
            exact h.create (not_not.mp (not_or.mp hg).2) hok
  | wait p name =>
      dsimp only at hs
      split at hs
      · cases hs
      · cases name with
        | none =>
            obtain rfl := Option.some.inj hs
            exact h
        | some n =>
            obtain ⟨⟨r, t⟩, hr, rfl⟩ := Option.map_eq_some_iff.mp hs
            exact h.onName (a := .p p) (fun _ _ _ _ => trivial) hr
  | signal p name =>
      dsimp only at hs
      split at hs
      · cases hs
      · cases name with
        | none =>
            obtain rfl := Option.some.inj hs
            exact h
        | some n =>
            obtain ⟨⟨r, t⟩, hr, rfl⟩ := Option.map_eq_some_iff.mp hs
            exact h.onName (a := .v) (fun i hi x hx => hok i hi x hx) hr
  | retest p j => exact h.operate (a := .retest p) (fun _ _ => trivial) hs

end Inv

/-- **User semaphores block.** In every run whose `CreateSemaphore` calls
pass no negative value and whose `Signal`s do not overflow. -/
theorem waits_bounded {s : State} (h : Reach step Sane State.init s) : WaitBound s :=
  (Reach.invariant Inv.init (fun _ _ _ _ hi hok hs => hi.step hok hs) h).waitBound

instance (s : State) : DecidablePred (Sane s)
  | .create _ (some name) value =>
      inferInstanceAs (Decidable (s.find name = none → s.findFreeSlot.1 ≠ none → 0 ≤ value))
  | .signal _ (some name) =>
      match hi : s.find name with
      | none => .isTrue fun i hi' => by rw [hi] at hi'; cases hi'
      | some i =>
          match hx : s.semTable i with
          | none => .isTrue fun j hj x hx' => by
              rw [hi] at hj
              cases hj
              rw [hx] at hx'
              cases hx'
          | some x => decidable_of_iff (x.run.sem.value ≠ intMax)
              ⟨fun h j hj y hy => by
                rw [hi] at hj
                cases hj
                rw [hx] at hy
                cases hy
                exact h, fun h => h i hi x hx⟩
  | .create _ none _ | .wait _ _ | .signal _ none | .retest _ _ => .isTrue trivial

/-- Process 1 waits, process 2 signals, process 1 goes on. -/
theorem waits_bounded_handoff :
    ∃ s, Reach step Sane State.init s ∧ WaitBound s
      ∧ (s.semTable 0).map (fun x => (x.run.ps, x.run.vs)) = some (1, 1) := by
  have hrun : (exec step Sane State.init [.create 1 (some "a") 0, .wait 1 (some "a"),
      .signal 2 (some "a"), .retest 1 0]).map
        (fun s => (s.semTable 0).map fun x => (x.run.ps, x.run.vs)) = some (some (1, 1)) := rfl
  obtain ⟨s, hs, heq⟩ := Option.map_eq_some_iff.mp hrun
  have hreach := Reach.of_exec _ hs
  exact ⟨s, hreach, waits_bounded hreach, heq⟩

/-- `Wait` on a semaphore created with -1 returns without any `Signal`, and
leaves its value at -2. -/
theorem wait_returns_on_negative : ∃ s, Reach step Any State.init s ∧ ¬ WaitBound s := by
  have hrun : (exec step Any State.init [.create 1 (some "a") (-1), .wait 1 (some "a")]).map
      (fun s => (s.semTable 0).map fun x => (x.run.sem.value, x.run.ps, x.run.vs))
        = some (some (-2, 1, 0)) := rfl
  obtain ⟨s, hs, heq⟩ := Option.map_eq_some_iff.mp hrun
  refine ⟨s, Reach.of_exec _ hs, fun h => ?_⟩
  obtain ⟨x, hx, hval⟩ := Option.map_eq_some_iff.mp heq
  have hnn := (h 0 x hx).1
  rw [(Prod.mk.inj hval).1] at hnn
  exact absurd hnn (by decide)

end STable

end Nachos
