import Mathlib.Logic.Function.Basic
import Mathlib.Logic.Relation

/-!
# A parent collects what its child leaves

An abstract protocol between processes and the children they start, over
any type `α` of process names and any type `ε` of exit values. A child that
ends stores its value, adds one to its counter `post`, and may go only when
it can take one from its counter `leave`; a parent that waits for a child
takes one from `post`, reads the value and adds one to `leave`:

    child   exit e · post += 1 · await leave > 0, leave -= 1 · remove
    parent  join c · await post > 0, post -= 1 · read, leave += 1 · return

The counters are tested for being non-zero and never for being positive,
so that they count at all is part of what has to be shown. `Step` has two
conditions that are not the protocol's own but promises of its users: a
process waits for a child of its own, and once (`join`), and ends only when
it has collected all its children (`exit`). Under them every interleaving
hands each parent the value its child ended with, and no child is removed
before its parent has read it.

The state keeps how far the wait for each process has come (`stage`) and a
history, newest event first.
-/

namespace Rendezvous

inductive Status (α ε : Type) where
  | absent
  | running
  | waiting (c : α)
  | reading (c : α)
  | returning (c : α) (e : ε)
  | exiting
  | posted
  | leaving
  | gone

namespace Status

variable {α ε : Type}

/-- The exit value has been stored. -/
def ended : Status α ε → Prop
  | exiting | posted | leaving | gone => True
  | _ => False

/-- `post` has been raised. -/
def released : Status α ε → Prop
  | posted | leaving | gone => True
  | _ => False

/-- `leave` has been taken. -/
def granted : Status α ε → Prop
  | leaving | gone => True
  | _ => False

/-- The child it is waiting for or reading from. -/
def awaits : Status α ε → Option α
  | waiting c | reading c => some c
  | _ => none

instance : DecidablePred (released : Status α ε → Prop)
  | posted | leaving | gone => .isTrue trivial
  | absent | running | waiting _ | reading _ | returning _ _ | exiting => .isFalse id

instance : DecidablePred (granted : Status α ε → Prop)
  | leaving | gone => .isTrue trivial
  | absent | running | waiting _ | reading _ | returning _ _ | exiting | posted => .isFalse id

theorem released.ended {x : Status α ε} (h : x.released) : x.ended := by
  cases x <;> trivial

end Status

inductive Stage where
  | idle
  | begun
  | waited
  | collected
deriving DecidableEq

/-- The waiter has taken its unit of `post`. -/
def Stage.taken : Stage → Prop
  | waited | collected => True
  | _ => False

instance : DecidablePred Stage.taken
  | .waited | .collected => .isTrue trivial
  | .idle | .begun => .isFalse id

inductive Event (α ε : Type) where
  | exited (c : α) (e : ε)
  | read (p c : α) (e : ε)
  | returned (p c : α) (e : ε)
  | removed (c : α)

structure State (α ε : Type) where
  status : α → Status α ε
  parent : α → Option α
  stage : α → Stage
  code : α → ε
  post : α → Int
  leave : α → Int
  log : List (Event α ε)

variable {α ε : Type} [DecidableEq α]

inductive Step (s : State α ε) : State α ε → Prop where
  | spawn (p c : α) (e : ε) : s.status p = .running → s.status c = .absent → s.stage c = .idle →
      Step s { s with
        status := Function.update s.status c .running
        parent := Function.update s.parent c (some p)
        code := Function.update s.code c e
        post := Function.update s.post c 0
        leave := Function.update s.leave c 0 }
  | join (p c : α) : s.status p = .running → s.parent c = some p → s.stage c = .idle →
      Step s { s with
        status := Function.update s.status p (.waiting c)
        stage := Function.update s.stage c .begun }
  | wait (p c : α) : s.status p = .waiting c → s.post c ≠ 0 →
      Step s { s with
        status := Function.update s.status p (.reading c)
        stage := Function.update s.stage c .waited
        post := Function.update s.post c (s.post c - 1) }
  | read (p c : α) : s.status p = .reading c →
      Step s { s with
        status := Function.update s.status p (.returning c (s.code c))
        stage := Function.update s.stage c .collected
        leave := Function.update s.leave c (s.leave c + 1)
        log := .read p c (s.code c) :: s.log }
  | ret (p c : α) (e : ε) : s.status p = .returning c e →
      Step s { s with
        status := Function.update s.status p .running
        log := .returned p c e :: s.log }
  | exit (p : α) (e : ε) : s.status p = .running →
      (∀ c, s.parent c = some p → s.stage c = .collected) →
      Step s { s with
        status := Function.update s.status p .exiting
        code := Function.update s.code p e
        log := .exited p e :: s.log }
  | post (p : α) : s.status p = .exiting →
      Step s { s with
        status := Function.update s.status p .posted
        post := Function.update s.post p (s.post p + 1) }
  | leave (p : α) : s.status p = .posted → s.leave p ≠ 0 →
      Step s { s with
        status := Function.update s.status p .leaving
        leave := Function.update s.leave p (s.leave p - 1) }
  | remove (p : α) : s.status p = .leaving →
      Step s { s with
        status := Function.update s.status p .gone
        log := .removed p :: s.log }

/-! ## The invariant

In three layers. `Links` ties a waiting process to its child; it makes a
process the only one that waits for a given child. `Counters` says what the
counters are and orders the two sides of each hand-over: nothing is taken
before it is posted, nobody is granted leave before it is collected.
`History` ties the recorded events to the state.
-/

structure Links (s : State α ε) : Prop where
  born : ∀ c p, s.parent c = some p → s.status c ≠ .absent
  waiting : ∀ p c, s.status p = .waiting c → s.parent c = some p ∧ s.stage c = .begun
  reading : ∀ p c, s.status p = .reading c → s.parent c = some p ∧ s.stage c = .waited
  begun : ∀ c, s.stage c = .begun → ∃ p, s.status p = .waiting c
  waited : ∀ c, s.stage c = .waited → ∃ p, s.status p = .reading c
  done : ∀ p c, (s.status p).ended → s.parent c = some p → s.stage c = .collected

structure Counters (s : State α ε) : Prop where
  post : ∀ c, s.status c ≠ .absent → s.post c =
    (if (s.status c).released then 1 else 0) - (if (s.stage c).taken then 1 else 0)
  leave : ∀ c, s.status c ≠ .absent → s.leave c =
    (if s.stage c = .collected then 1 else 0) - (if (s.status c).granted then 1 else 0)
  taken : ∀ c, s.status c ≠ .absent → (s.stage c).taken → (s.status c).released
  granted : ∀ c, (s.status c).granted → s.stage c = .collected

structure History (s : State α ε) : Prop where
  code : ∀ c, (s.status c).ended → .exited c (s.code c) ∈ s.log
  exited : ∀ c e, .exited c e ∈ s.log → (s.status c).ended ∧ s.code c = e
  returning : ∀ p c e, s.status p = .returning c e → s.parent c = some p ∧ .exited c e ∈ s.log
  collected : ∀ c, s.status c ≠ .absent → s.stage c = .collected → ∃ p e, .read p c e ∈ s.log
  read : ∀ p c e, .read p c e ∈ s.log → s.parent c = some p ∧ .exited c e ∈ s.log
  returned : ∀ p c e, .returned p c e ∈ s.log → s.parent c = some p ∧ .exited c e ∈ s.log
  removed : ∀ c l₁ l₂, s.log = l₂ ++ .removed c :: l₁ → ∃ p e, .read p c e ∈ l₁

variable {s : State α ε}

structure Inv (s : State α ε) : Prop where
  links : Links s
  counters : Counters s
  history : History s

namespace Inv

omit [DecidableEq α] in
theorem post_bounds (h : Inv s) {c : α} (hc : s.status c ≠ .absent) :
    0 ≤ s.post c ∧ s.post c ≤ 1 := by
  have hpost := h.counters.post c hc
  have htaken := h.counters.taken c hc
  split at hpost <;> split at hpost <;> first | omega | exact absurd (htaken ‹_›) ‹_›

omit [DecidableEq α] in
theorem leave_bounds (h : Inv s) {c : α} (hc : s.status c ≠ .absent) :
    0 ≤ s.leave c ∧ s.leave c ≤ 1 := by
  have hleave := h.counters.leave c hc
  have hgranted := h.counters.granted c
  split at hleave <;> split at hleave <;> first | omega | exact absurd (hgranted ‹_›) ‹_›

omit [DecidableEq α] in
/-- A process somebody still waits for has not been granted leave. -/
theorem not_granted (h : Inv s) {p c : α}
    (hp : s.status p = .waiting c ∨ s.status p = .reading c) : ¬ (s.status c).granted := by
  intro hg
  have hcol := h.counters.granted c hg
  rcases hp with hp | hp
  · rw [(h.links.waiting p c hp).2] at hcol
    cases hcol
  · rw [(h.links.reading p c hp).2] at hcol
    cases hcol

end Inv

end Rendezvous
