import Nachos.Scheduler

/-!
# The order in which threads run

`FindNextToRun` takes the front of the ready list and `ReadyToRun` appends to
it, whoever calls them: `Yield`, `Sleep`, `Finish`, `Fork`, or `V` in an
interrupt handler. `Traced` adds to a run of the scheduler the threads it has
switched to, in order. What was switched to followed by what is ready is what
was ready at the start followed by what became ready since
(`Traced.queue`), so no thread is overtaken: one that has `i` threads before
it on the ready list is the one that the scheduler switches to after `i`
others, in every run (`ready_threads_run_in_order`).
-/

namespace Nachos

namespace Sched

open Run

/-- The thread that a step has switched to. -/
def switchedTo (s s' : State) : List Nat :=
  if s.mode ≠ .switched ∧ s'.mode = .switched then [s'.currentThread] else []

/-- A step, with the threads switched to so far. -/
def tracedStep (x : State × List Nat) (a : Action) : Option (State × List Nat) :=
  (step x.1 a).map fun s' => (s', x.2 ++ switchedTo x.1 s')

/-- A run leads from `s` to `s'` and switches to the threads `ds`. -/
def Traced (s s' : State) (ds : List Nat) : Prop := Reach tracedStep Any (s, []) (s', ds)

/-! ## One step -/

section Steps

variable {s s' : State} {t i : Nat}

theorem switchedTo_of_mode (h : s'.mode ≠ .switched) : switchedTo s s' = [] :=
  if_neg fun hh => h hh.2

theorem switchedTo_same (h : s'.mode = s.mode) : switchedTo s s' = [] :=
  if_neg fun hh => hh.1 (h.symm.trans hh.2)

theorem readyToRun_ready (h : s.readyToRun t = .ok s') :
    s'.readyList = s.readyList ++ [t] ∧ s'.mode = s.mode := by
  unfold State.readyToRun append at h
  split at h
  · cases h
  · obtain rfl := Except.ok.inj h
    exact ⟨rfl, rfl⟩

theorem run_ready {finishing : Bool} (h : s.run t finishing = .ok s') :
    s'.readyList = s.readyList ∧ s'.mode = .switched ∧ s'.currentThread = t := by
  unfold State.run at h
  split at h
  · cases h
  · obtain rfl := Except.ok.inj h
    exact ⟨rfl, rfl, rfl⟩

theorem passP_ready {x : Semaphore Nat} (h : s.passP i x = .ok s') :
    s'.readyList = s.readyList ∧ s'.mode ≠ .switched := by
  unfold State.passP at h
  split at h
  · obtain rfl := Except.ok.inj h
    exact ⟨rfl, by simp⟩
  · unfold append at h
    split at h
    · cases h
    · obtain rfl := Except.ok.inj h
      exact ⟨rfl, by simp⟩

theorem doV_ready {x : Semaphore Nat} (h : s.doV i x = .ok s') :
    (∃ added, s'.readyList = s.readyList ++ added) ∧ s'.mode = s.mode := by
  unfold State.doV at h
  split at h
  · obtain rfl := Except.ok.inj h
    exact ⟨⟨[], (List.append_nil _).symm⟩, rfl⟩
  · obtain ⟨hl, hm⟩ := readyToRun_ready h
    exact ⟨⟨_, hl⟩, hm⟩

theorem checkToBeDestroyed_ready (h : s.checkToBeDestroyed = .ok s') :
    s'.readyList = s.readyList := by
  unfold State.checkToBeDestroyed at h
  split at h
  · obtain rfl := Except.ok.inj h
    rfl
  · split at h
    · cases h
    · obtain rfl := Except.ok.inj h
      rfl

theorem resume_ready (h : s.resume = .ok s') :
    s'.readyList = s.readyList ∧ s'.mode ≠ .switched := by
  unfold State.resume at h
  cases hc : s.checkToBeDestroyed with
  | error e =>
      rw [hc] at h
      cases h
  | ok s₁ =>
      rw [hc] at h
      rw [← checkToBeDestroyed_ready hc]
      simp only [bind, Except.bind] at h
      split at h
      · obtain rfl := Except.ok.inj h
        exact ⟨rfl, by simp⟩
      · obtain rfl := Except.ok.inj h
        exact ⟨rfl, by simp⟩
      · split at h
        · cases h
        · exact passP_ready h

theorem yield_ready (hm : s.mode = .running) (h : s.yield = .ok s') :
    s.readyList = [] ∧ s' = s
      ∨ switchedTo s s' ++ s'.readyList = s.readyList ++ [s.currentThread]
        ∧ s'.mode = .switched := by
  unfold State.yield at h
  split at h
  next hr =>
    obtain rfl := Except.ok.inj h
    exact Or.inl ⟨hr, rfl⟩
  next r rest hr =>
    refine Or.inr ?_
    simp only [bind, Except.bind] at h
    split at h
    · cases h
    · rename_i s₁ hs₁
      obtain ⟨hl₁, hm₁⟩ := readyToRun_ready hs₁
      obtain ⟨hl, hm', hc⟩ := run_ready h
      rw [switchedTo, if_pos ⟨by rw [hm]; simp, hm'⟩, hc, hl, hl₁, hr]
      exact ⟨rfl, hm'⟩

/-- **One step takes from the front and adds at the end.** -/
theorem step_ready (hi : Inv s) {a : Action} (hs : step s a = some s') :
    ∃ added, switchedTo s s' ++ s'.readyList = s.readyList ++ added := by
  unfold step at hs
  rw [if_neg (not_not.mpr hi.failed)] at hs
  obtain ⟨r, hr, rfl⟩ := Option.map_eq_some_iff.mp hs
  obtain ⟨s₁, rfl, -⟩ := hi.act hr
  dsimp only
  -- a step that does not switch and keeps the list as it is
  have hkept : s₁.readyList = s.readyList → switchedTo s s₁ = [] →
      ∃ added, switchedTo s s₁ ++ s₁.readyList = s.readyList ++ added := fun hl hsw =>
    ⟨[], by rw [hsw, hl, List.nil_append, List.append_nil]⟩
  unfold act at hr
  cases a with
  | create =>
      dsimp only at hr
      split at hr
      · obtain rfl := Except.ok.inj (Option.some.inj hr)
        exact hkept rfl (switchedTo_same rfl)
      · cases hr
  | fork t =>
      dsimp only at hr
      split at hr
      · obtain ⟨hl, hm⟩ := readyToRun_ready (Option.some.inj hr)
        exact ⟨[t], by rw [switchedTo_same hm, hl, List.nil_append]⟩
      · cases hr
  | yield =>
      dsimp only at hr
      split at hr
      next hm =>
        rcases yield_ready hm (Option.some.inj hr) with ⟨-, rfl⟩ | ⟨hl, -⟩
        · exact hkept rfl (switchedTo_same rfl)
        · exact ⟨_, hl⟩
      next => cases hr
  | p i =>
      dsimp only at hr
      split at hr
      · obtain ⟨x, -, hx⟩ := Option.map_eq_some_iff.mp hr
        obtain ⟨hl, hm⟩ := passP_ready hx
        exact hkept hl (switchedTo_of_mode hm)
      · cases hr
  | v i =>
      dsimp only at hr
      split at hr
      · obtain ⟨x, -, hx⟩ := Option.map_eq_some_iff.mp hr
        obtain ⟨⟨added, hl⟩, hm⟩ := doV_ready hx
        exact ⟨added, by rw [switchedTo_same hm, hl, List.nil_append]⟩
      · cases hr
  | finish =>
      dsimp only at hr
      split at hr
      · obtain rfl := Except.ok.inj (Option.some.inj hr)
        exact hkept rfl (switchedTo_of_mode (by simp))
      · cases hr
  | dispatch =>
      dsimp only at hr
      split at hr
      next hm =>
        split at hr
        · cases hr
        next r rest hl =>
          obtain ⟨hl₁, hm₁, hc₁⟩ := run_ready (Option.some.inj hr)
          have hns : s.mode ≠ .switched := by rcases hm with hm | hm <;> rw [hm] <;> simp
          exact ⟨[], by rw [switchedTo, if_pos ⟨hns, hm₁⟩, hc₁, hl₁, hl, List.append_nil]; rfl⟩
      next => cases hr
  | resume =>
      dsimp only at hr
      split at hr
      · obtain ⟨hl, hm⟩ := resume_ready (Option.some.inj hr)
        exact hkept hl (switchedTo_of_mode hm)
      · cases hr
  | newSem n =>
      dsimp only at hr
      split at hr
      · obtain rfl := Except.ok.inj (Option.some.inj hr)
        exact hkept rfl (switchedTo_same rfl)
      · cases hr
  | deleteSem i =>
      dsimp only at hr
      split at hr
      · obtain rfl := Except.ok.inj (Option.some.inj hr)
        exact hkept rfl (switchedTo_same rfl)
      · cases hr

end Steps

/-! ## Runs -/

/-- The threads switched to and then the ready list, at the end of a run. -/
theorem Traced.queue {s s' : State} {ds : List Nat} (hi : Inv s) (h : Traced s s' ds) :
    Inv s' ∧ ∃ added, ds ++ s'.readyList = s.readyList ++ added := by
  refine Reach.invariant
    (I := fun x => Inv x.1 ∧ ∃ added, x.2 ++ x.1.readyList = s.readyList ++ added)
    ⟨hi, [], by rw [List.nil_append, List.append_nil]⟩ ?_ h
  rintro ⟨u, us⟩ a x' - ⟨hu, added, hq⟩ - hs
  obtain ⟨u', hu', rfl⟩ := Option.map_eq_some_iff.mp hs
  obtain ⟨more, hmore⟩ := step_ready hu hu'
  refine ⟨hu.step hu', added ++ more, ?_⟩
  dsimp only
  rw [List.append_assoc, hmore, ← List.append_assoc, hq, List.append_assoc]

/-- **Nobody is overtaken.** A thread that has `i` others before it on the
ready list is the one that the scheduler switches to after `i` switches, in
every run that makes so many, and until then it stays on the list behind
those of the others that have not run. -/
theorem ready_threads_run_in_order {s s' : State} {ds : List Nat} {i t : Nat}
    (hreach : Reach step Any State.init s) (ht : s.readyList[i]? = some t)
    (hrun : Traced s s' ds) :
    (i < ds.length → ds[i]? = some t)
      ∧ (ds.length ≤ i → s'.readyList[i - ds.length]? = some t) := by
  have hi : Inv s := hreach.invariant Inv.init fun _ _ _ _ hi _ hs => hi.step hs
  obtain ⟨-, added, hq⟩ := hrun.queue hi
  obtain ⟨hlt, -⟩ := List.getElem?_eq_some_iff.mp ht
  have hat : (ds ++ s'.readyList)[i]? = some t := by
    rw [hq, List.getElem?_append_left hlt, ht]
  refine ⟨fun h => ?_, fun h => ?_⟩
  · rwa [List.getElem?_append_left h] at hat
  · rwa [List.getElem?_append_right h] at hat

/-- Two threads that were forked run in this order when the first thread
yields and finishes. -/
theorem ready_threads_run_in_order_two :
    ∃ s s' ds, Reach step Any State.init s ∧ s.readyList = [1, 2] ∧ Traced s s' ds
      ∧ ds = [1, 2] ∧ ds[1]? = some 2 := by
  have hrun : (exec step Any State.init [.create, .create, .fork 1, .fork 2]).map
      (fun s => (s.readyList,
        (exec tracedStep Any (s, []) [.yield, .resume, .yield, .resume]).map Prod.snd))
      = some ([1, 2], some [1, 2]) := rfl
  obtain ⟨s, hs, heq⟩ := Option.map_eq_some_iff.mp hrun
  obtain ⟨hl, hds⟩ := Prod.mk.inj heq
  obtain ⟨⟨s', ds⟩, hs', rfl⟩ := Option.map_eq_some_iff.mp hds
  have hreach := Reach.of_exec _ hs
  have htraced : Traced s s' [1, 2] := Reach.of_exec _ hs'
  exact ⟨s, s', [1, 2], hreach, hl, htraced, rfl,
    (ready_threads_run_in_order hreach (by rw [hl]; rfl) htraced).1 (by simp)⟩

end Sched

end Nachos
