import Mathlib.Data.List.Infix
import Mathlib.Logic.Function.Basic
import Mathlib.Logic.Relation

/-!
# Atomic objects

An object has data of type `D` and answers requests: `perform data r` is the
data after the request `r` and the answer, or `none` where the request is not
allowed. Threads of type `T` use it concurrently, each with at most one request
at a time, and what they see of it is the history of calls and returns.

The object is atomic when every request takes effect at one point between its
call and its return. `Step` is the object that does exactly this, the effect a
step of its own, and a run of it logs the requests in the order in which they
took effect. What that means for the history is `Linearizes`: the answers of the
log are those of making its requests one after the other, and every moment of
the history has its moment in the log, at which each thread has had the effects
of the requests it has returned from and of no more than those it has called. So
the log orders two requests as the history does where one returned before the
other was called. `linearizes_of_run` is the theorem; an implementation is shown
to be atomic by matching its steps with steps of the atomic object.
-/

namespace Atomic

inductive Event (T R A : Type) where
  | call (t : T) (r : R)
  | ret (t : T) (a : A)
deriving DecidableEq, Repr

/-- What a thread has to do with the object. -/
inductive Status (R A : Type) where
  | idle
  | called (r : R)
  | answered (a : A)

/-- A request that has taken effect. -/
structure Entry (T R A : Type) where
  thread : T
  request : R
  answer : A
deriving DecidableEq, Repr

structure State (T R D A : Type) where
  data : D
  status : T → Status R A
  history : List (Event T R A)
  log : List (Entry T R A)

variable {T R D A : Type}

def State.init (data : D) : State T R D A := ⟨data, fun _ => .idle, [], []⟩

variable [DecidableEq T]

section Step

variable (perform : D → R → Option (D × A))

inductive Step : State T R D A → State T R D A → Prop
  | call {s : State T R D A} {t : T} (r : R) : s.status t = .idle →
      Step s { s with
        status := Function.update s.status t (.called r)
        history := s.history ++ [.call t r] }
  | effect {s : State T R D A} {t : T} {r : R} {data : D} {a : A} : s.status t = .called r →
      perform s.data r = some (data, a) →
      Step s { s with
        data := data
        status := Function.update s.status t (.answered a)
        log := s.log ++ [⟨t, r, a⟩] }
  | ret {s : State T R D A} {t : T} {a : A} : s.status t = .answered a →
      Step s { s with
        status := Function.update s.status t .idle
        history := s.history ++ [.ret t a] }

/-- The requests of the log, one after the other, with their answers. -/
inductive Sequential : D → List (Entry T R A) → D → Prop
  | nil (d : D) : Sequential d [] d
  | snoc {d d₁ d₂ : D} {log : List (Entry T R A)} {e : Entry T R A} : Sequential d log d₁ →
      perform d₁ e.request = some (d₂, e.answer) → Sequential d (log ++ [e]) d₂

end Step

/-! ## One thread -/

/-- The requests that `t` has called. -/
def calls (t : T) (history : List (Event T R A)) : List R :=
  history.filterMap fun
    | .call u r => if u = t then some r else none
    | .ret _ _ => none

/-- The answers that `t` has returned with. -/
def returns (t : T) (history : List (Event T R A)) : List A :=
  history.filterMap fun
    | .call _ _ => none
    | .ret u a => if u = t then some a else none

/-- The requests of `t` that have taken effect. -/
def effects (t : T) (log : List (Entry T R A)) : List (Entry T R A) :=
  log.filter fun e => e.thread = t

/-- The log has the requests of `t` that have returned, and none that have not
been called. -/
structure Agrees (t : T) (history : List (Event T R A)) (log : List (Entry T R A)) : Prop where
  called : (effects t log).map Entry.request <+: calls t history
  returned : returns t history <+: (effects t log).map Entry.answer

/-- `log` is an order of the requests of `history` in which one thread could
have made them, from the data `d` to `d'`, and it respects the history. -/
structure Linearizes (perform : D → R → Option (D × A)) (d : D) (history : List (Event T R A))
    (log : List (Entry T R A)) (d' : D) : Prop where
  sequential : Sequential perform d log d'
  moments : ∀ past, past <+: history → ∃ done, done <+: log ∧ ∀ t, Agrees t past done

/-- How a thread stands with history and log. -/
def Stands (t : T) (history : List (Event T R A)) (log : List (Entry T R A)) : Status R A → Prop
  | .idle => calls t history = (effects t log).map Entry.request
      ∧ returns t history = (effects t log).map Entry.answer
  | .called r => calls t history = (effects t log).map Entry.request ++ [r]
      ∧ returns t history = (effects t log).map Entry.answer
  | .answered a => calls t history = (effects t log).map Entry.request
      ∧ returns t history ++ [a] = (effects t log).map Entry.answer

section Histories

variable {t : T} {history : List (Event T R A)} {log : List (Entry T R A)}

theorem Stands.agrees {status : Status R A} (h : Stands t history log status) :
    Agrees t history log := by
  cases status with
  | idle => exact ⟨h.1 ▸ List.prefix_refl _, h.2 ▸ List.prefix_refl _⟩
  | called r => exact ⟨h.1 ▸ List.prefix_append .., h.2 ▸ List.prefix_refl _⟩
  | answered a => exact ⟨h.1 ▸ List.prefix_refl _, h.2 ▸ List.prefix_append ..⟩

@[simp] theorem calls_call (u t : T) (r : R) :
    calls u (history ++ [.call t r]) = calls u history ++ if t = u then [r] else [] := by
  rw [calls, List.filterMap_append, ← calls]
  split <;> simp_all

@[simp] theorem calls_ret (u t : T) (a : A) :
    calls u (history ++ [.ret t a]) = calls u history := by
  rw [calls, List.filterMap_append, ← calls]
  exact List.append_nil _

@[simp] theorem returns_call (u t : T) (r : R) :
    returns u (history ++ [.call t r]) = returns u history := by
  rw [returns, List.filterMap_append, ← returns]
  exact List.append_nil _

@[simp] theorem returns_ret (u t : T) (a : A) :
    returns u (history ++ [.ret t a]) = returns u history ++ if t = u then [a] else [] := by
  rw [returns, List.filterMap_append, ← returns]
  split <;> simp_all

@[simp] theorem effects_append (u : T) (e : Entry T R A) :
    effects u (log ++ [e]) = effects u log ++ if e.thread = u then [e] else [] := by
  rw [effects, List.filter_append, ← effects]
  split <;> simp_all

/-- A step of `t` that leaves the part of every other thread alone. -/
theorem stands_update {status : T → Status R A} (new : Status R A)
    (history' : List (Event T R A)) (log' : List (Entry T R A))
    (h : ∀ u, Stands u history log (status u)) (hself : Stands t history' log' new)
    (hother : ∀ u, t ≠ u → calls u history' = calls u history
      ∧ returns u history' = returns u history ∧ effects u log' = effects u log) (u : T) :
    Stands u history' log' (Function.update status t new u) := by
  by_cases hu : t = u
  · subst hu
    rwa [Function.update_self]
  · obtain ⟨hc, hr, he⟩ := hother u hu
    have hstands := h u
    rw [Function.update_of_ne (Ne.symm hu)]
    cases hst : status u <;> simpa only [Stands, hst, hc, hr, he] using hstands

end Histories

/-! ## Runs -/

section Runs

variable {perform : D → R → Option (D × A)} {d : D} {s s' : State T R D A}

/-- The log is as it should be up to now, and so is every thread. -/
structure Inv (perform : D → R → Option (D × A)) (d : D) (s : State T R D A) : Prop where
  sequential : Sequential perform d s.log s.data
  moments : ∀ past, past <+: s.history → ∃ done, done <+: s.log ∧ ∀ t, Agrees t past done
  stands : ∀ t, Stands t s.history s.log (s.status t)

theorem Inv.init (d : D) : Inv perform d (State.init d : State T R D A) := by
  refine ⟨.nil d, fun past hpast => ⟨[], List.prefix_refl _, fun t => ?_⟩, fun t => ⟨rfl, rfl⟩⟩
  obtain rfl := List.prefix_nil.mp hpast
  exact ⟨List.prefix_refl _, List.prefix_refl _⟩

/-- A moment of a history that is longer by one event, the last moment among
them. -/
theorem moments_append {history : List (Event T R A)} {log : List (Entry T R A)} {e : Event T R A}
    (h : ∀ past, past <+: history → ∃ done, done <+: log ∧ ∀ t, Agrees t past done)
    (hlast : ∀ t, Agrees t (history ++ [e]) log) (past : List (Event T R A))
    (hpast : past <+: history ++ [e]) : ∃ done, done <+: log ∧ ∀ t, Agrees t past done := by
  rcases List.prefix_concat_iff.mp hpast with rfl | hpast
  · exact ⟨log, List.prefix_refl _, hlast⟩
  · exact h past hpast

theorem Inv.step (h : Inv perform d s) (hs : Step perform s s') : Inv perform d s' := by
  cases hs with
  | @call t r hidle =>
      have ht : Stands t s.history s.log .idle := hidle ▸ h.stands t
      have hstands := stands_update (t := t) (.called r) (s.history ++ [.call t r]) s.log h.stands
        (by simpa [Stands] using ht) fun u hu => by simp [hu]
      exact ⟨h.sequential, moments_append h.moments fun u => (hstands u).agrees, hstands⟩
  | @effect t r data a hcalled hperform =>
      have ht : Stands t s.history s.log (.called r) := hcalled ▸ h.stands t
      refine ⟨.snoc h.sequential hperform, fun past hpast => ?_,
        stands_update _ _ _ h.stands (by simpa [Stands] using ht) fun u hu => by simp [hu]⟩
      obtain ⟨done, hdone, hagrees⟩ := h.moments past hpast
      exact ⟨done, hdone.trans (List.prefix_append ..), hagrees⟩
  | @ret t a hanswered =>
      have ht : Stands t s.history s.log (.answered a) := hanswered ▸ h.stands t
      have hstands := stands_update (t := t) .idle (s.history ++ [.ret t a]) s.log h.stands
        (by simpa [Stands] using ht) fun u hu => by simp [hu]
      exact ⟨h.sequential, moments_append h.moments fun u => (hstands u).agrees, hstands⟩

/-- **Atomic objects are linearizable.** -/
theorem linearizes_of_run (h : Relation.ReflTransGen (Step perform) (State.init d) s) :
    Linearizes perform d s.history s.log s.data := by
  have hinv : Inv perform d s := by
    induction h with
    | refl => exact .init d
    | tail _ hstep ih => exact ih.step hstep
  exact ⟨hinv.sequential, hinv.moments⟩

end Runs

end Atomic
