import Nachos.Scheduler

/-!
# What a scheduler call does to control points

For everything above the scheduler it matters who is the current thread,
where it is (`mode`), where the others will go on (`kont`), and who is gone;
ready list, wait queues and statuses only decide which of the possible
switches is made. `Effect` lists what a call can do to the former, one
constructor for each way, and `effect_of_step` is the one place where the
bodies of the calls are taken apart for this. `Run` is called by `switch`
only: from `Yield`, whose caller will return from it, and from the loop of
`Sleep`.
-/

namespace Nachos

open Run

namespace Sched

/-- What `a` leads to: `s'` as far as control points go. -/
inductive Effect (s s' : State) : Action → Prop where
  | stay (a : Action) : a ≠ .finish → a ≠ .resume → s.mode ≠ .switched →
      s'.currentThread = s.currentThread → s'.mode = s.mode → s'.kont = s.kont →
      s'.toBeDestroyed = s.toBeDestroyed → s'.live = s.live → s'.next = s.next → Effect s s' a
  | create : s.mode = .running → s'.currentThread = s.currentThread → s'.mode = .running →
      s'.kont = Function.update s.kont s.next .begin → s'.toBeDestroyed = s.toBeDestroyed →
      s'.live = Function.update s.live s.next true → s'.next = s.next + 1 → Effect s s' .create
  | p (i : Nat) (k : Kont) : s.mode = .running → s'.currentThread = s.currentThread →
      s'.mode = .running ∨ s'.mode = .sleeping →
      s'.kont = Function.update s.kont s.currentThread k → k ≠ .begin →
      s'.toBeDestroyed = s.toBeDestroyed → s'.live = s.live → s'.next = s.next →
      Effect s s' (.p i)
  | switch (a : Action) : a ≠ .finish → a ≠ .resume → s.mode ≠ .switched → s'.mode = .switched →
      s'.kont = Function.update s.kont s.currentThread .yield
        ∨ s.mode ≠ .running ∧ s'.kont = s.kont →
      s'.toBeDestroyed = (if s.mode = .finishing then some s.currentThread else s.toBeDestroyed) →
      s'.live = s.live → s'.next = s.next → Effect s s' a
  | finish : s.mode = .running → s'.currentThread = s.currentThread → s'.mode = .finishing →
      s'.kont = s.kont → s'.toBeDestroyed = s.toBeDestroyed → s'.live = s.live →
      s'.next = s.next → Effect s s' .finish
  | resume : s.mode = .switched → s'.currentThread = s.currentThread →
      s'.mode = .running ∧ s'.kont = s.kont ∨ ((s'.mode = .running ∨ s'.mode = .sleeping)
        ∧ ∃ k, k ≠ .begin ∧ s'.kont = Function.update s.kont s.currentThread k) →
      (∀ t, s'.live t = true → s.live t = true ∧ s.toBeDestroyed ≠ some t) →
      s'.next = s.next → Effect s s' .resume

section Calls

variable {s s' s₁ : State} {i : Nat}

theorem passP_ok {x : Semaphore Nat} (h : s.passP i x = .ok s') :
    s'.currentThread = s.currentThread ∧ (s'.mode = .running ∨ s'.mode = .sleeping)
      ∧ (∃ k, k ≠ .begin ∧ s'.kont = Function.update s.kont s.currentThread k)
      ∧ s'.toBeDestroyed = s.toBeDestroyed ∧ s'.live = s.live ∧ s'.next = s.next := by
  unfold State.passP at h
  split at h
  next y _ =>
      obtain rfl := Except.ok.inj h
      exact ⟨rfl, Or.inl rfl, ⟨.yield, Kont.noConfusion, rfl⟩, rfl, rfl, rfl⟩
  next y _ =>
      cases hq : append x.queue s.currentThread with
      | error e =>
          rw [hq] at h
          cases h
      | ok q =>
          rw [hq] at h
          obtain rfl := Except.ok.inj h
          exact ⟨rfl, Or.inr rfl, ⟨.retest i, Kont.noConfusion, rfl⟩, rfl, rfl, rfl⟩

theorem readyToRun_ok {t : Nat} (h : s.readyToRun t = .ok s') :
    s'.currentThread = s.currentThread ∧ s'.mode = s.mode ∧ s'.kont = s.kont
      ∧ s'.toBeDestroyed = s.toBeDestroyed ∧ s'.live = s.live ∧ s'.next = s.next := by
  unfold State.readyToRun at h
  cases hl : append s.readyList t with
  | error e =>
      rw [hl] at h
      cases h
  | ok l =>
      rw [hl] at h
      obtain rfl := Except.ok.inj h
      exact ⟨rfl, rfl, rfl, rfl, rfl, rfl⟩

theorem run_ok {t : Nat} {finishing : Bool} (h : s.run t finishing = .ok s') :
    s'.mode = .switched ∧ s'.kont = s.kont
      ∧ s'.toBeDestroyed = (if finishing then some s.currentThread else s.toBeDestroyed)
      ∧ s'.live = s.live ∧ s'.next = s.next := by
  unfold State.run at h
  split at h
  next => cases h
  next =>
      obtain rfl := Except.ok.inj h
      exact ⟨rfl, rfl, rfl, rfl, rfl⟩

theorem checkToBeDestroyed_ok (h : s.checkToBeDestroyed = .ok s') :
    s'.currentThread = s.currentThread ∧ s'.kont = s.kont ∧ s'.next = s.next
      ∧ ∀ t, s'.live t = true → s.live t = true ∧ s.toBeDestroyed ≠ some t := by
  unfold State.checkToBeDestroyed at h
  split at h
  next hd =>
      obtain rfl := Except.ok.inj h
      exact ⟨rfl, rfl, rfl, fun t ht => ⟨ht, by rw [hd]; exact (Option.some_ne_none t).symm⟩⟩
  next u hd =>
      split at h
      next => cases h
      next =>
          obtain rfl := Except.ok.inj h
          refine ⟨rfl, rfl, rfl, fun t ht => ?_⟩
          have htu : t ≠ u := by
            rintro rfl
            simp at ht
          refine ⟨by simpa [htu] using ht, ?_⟩
          rw [hd]
          exact fun he => htu (Option.some.inj he).symm

theorem effect_yield (hm : s.mode = .running) (h : s.yield = .ok s') : Effect s s' .yield := by
  have hns : s.mode ≠ .switched := by rw [hm]; exact Mode.noConfusion
  unfold State.yield at h
  split at h
  next =>
      obtain rfl := Except.ok.inj h
      exact .stay _ Action.noConfusion Action.noConfusion hns rfl rfl rfl rfl rfl rfl
  next r rest _ =>
      cases hr : ({ s.setKont s.currentThread .yield with readyList := rest } : State).readyToRun
          s.currentThread with
      | error e =>
          rw [hr] at h
          cases h
      | ok s₁ =>
          rw [hr] at h
          obtain ⟨_, _, hk, hd, hl, hn⟩ := readyToRun_ok hr
          obtain ⟨hm', hk', hd', hl', hn'⟩ := run_ok (show s₁.run r false = .ok s' from h)
          refine .switch _ Action.noConfusion Action.noConfusion hns hm' (Or.inl (hk'.trans hk)) ?_
            (hl'.trans hl) (hn'.trans hn)
          rw [hd', hm]
          exact hd

theorem effect_resume (hm : s.mode = .switched) (h : s.resume = .ok s') : Effect s s' .resume := by
  unfold State.resume at h
  cases hc : s.checkToBeDestroyed with
  | error e =>
      rw [hc] at h
      cases h
  | ok s₁ =>
      obtain ⟨hcur, hkont, hnext, hlive⟩ := checkToBeDestroyed_ok hc
      simp only [hc, bind, Except.bind] at h
      split at h
      · obtain rfl := Except.ok.inj h
        exact .resume hm hcur (Or.inl ⟨rfl, hkont⟩) hlive hnext
      · obtain rfl := Except.ok.inj h
        exact .resume hm hcur (Or.inl ⟨rfl, hkont⟩) hlive hnext
      · split at h
        · cases h
        · obtain ⟨hc', hm', ⟨k, hk, hk'⟩, -, hl', hn'⟩ := passP_ok h
          refine .resume hm (hc'.trans hcur) (Or.inr ⟨hm', k, hk, ?_⟩) ?_ (hn'.trans hnext)
          · rw [hk', hkont, hcur]
          · rw [hl']
            exact hlive

end Calls

/-- **Inversion.** No call fails in a run, and each has one of the listed
effects. -/
theorem effect_of_step {s s' : State} {a : Action} (hi : Inv s) (hs : step s a = some s') :
    s'.failed = none ∧ Effect s s' a := by
  refine ⟨(hi.step hs).failed, ?_⟩
  unfold step at hs
  rw [if_neg (not_not.mpr hi.failed)] at hs
  obtain ⟨r, hr, hs⟩ := Option.map_eq_some_iff.mp hs
  obtain ⟨s₁, rfl, -⟩ := hi.act hr
  obtain rfl : s₁ = s' := hs
  unfold act at hr
  cases a with
  | create =>
      dsimp only at hr
      split at hr
      next hm =>
          obtain rfl := Except.ok.inj (Option.some.inj hr)
          exact .create hm rfl hm rfl rfl rfl rfl
      next => cases hr
  | fork t =>
      dsimp only at hr
      split at hr
      next hg =>
          obtain ⟨hc, hm, hk, hd, hl, hn⟩ := readyToRun_ok (Option.some.inj hr)
          exact .stay _ Action.noConfusion Action.noConfusion
            (by rw [hg.1]; exact Mode.noConfusion) hc hm hk hd hl hn
      next => cases hr
  | yield =>
      dsimp only at hr
      split at hr
      next hm => exact effect_yield hm (Option.some.inj hr)
      next => cases hr
  | p i =>
      dsimp only at hr
      split at hr
      next hm =>
          obtain ⟨x, -, hr⟩ := Option.map_eq_some_iff.mp hr
          obtain ⟨hc, hm', ⟨k, hk, hk'⟩, hd, hl, hn⟩ := passP_ok hr
          exact .p i k hm hc hm' hk' hk hd hl hn
      next => cases hr
  | v i =>
      dsimp only at hr
      split at hr
      next hm =>
          obtain ⟨x, -, hr⟩ := Option.map_eq_some_iff.mp hr
          unfold State.doV at hr
          split at hr
          · obtain rfl := Except.ok.inj hr
            exact .stay _ Action.noConfusion Action.noConfusion hm rfl rfl rfl rfl rfl rfl
          · obtain ⟨hc, hm', hk, hd, hl, hn⟩ := readyToRun_ok hr
            exact .stay _ Action.noConfusion Action.noConfusion hm hc hm' hk hd hl hn
      next => cases hr
  | finish =>
      dsimp only at hr
      split at hr
      next hm =>
          obtain rfl := Except.ok.inj (Option.some.inj hr)
          exact .finish hm rfl rfl rfl rfl rfl rfl
      next => cases hr
  | dispatch =>
      dsimp only at hr
      split at hr
      next hm =>
          have hns : s.mode ≠ .switched ∧ s.mode ≠ .running := by
            rcases hm with hm | hm <;> rw [hm] <;> exact ⟨Mode.noConfusion, Mode.noConfusion⟩
          split at hr
          · cases hr
          · obtain ⟨hm', hk, hd, hl, hn⟩ := run_ok (Option.some.inj hr)
            refine .switch _ Action.noConfusion Action.noConfusion hns.1 hm'
              (Or.inr ⟨hns.2, hk⟩) ?_ hl hn
            rw [hd]
            simp only [beq_iff_eq]
      next => cases hr
  | resume =>
      dsimp only at hr
      split at hr
      next hm => exact effect_resume hm (Option.some.inj hr)
      next => cases hr
  | newSem n =>
      dsimp only at hr
      split at hr
      next hm =>
          obtain rfl := Except.ok.inj (Option.some.inj hr)
          exact .stay _ Action.noConfusion Action.noConfusion
            (by rw [hm]; exact Mode.noConfusion) rfl rfl rfl rfl rfl rfl
      next => cases hr
  | deleteSem i =>
      dsimp only at hr
      split at hr
      next hg =>
          obtain rfl := Except.ok.inj (Option.some.inj hr)
          exact .stay _ Action.noConfusion Action.noConfusion
            (by rw [hg.1]; exact Mode.noConfusion) rfl rfl rfl rfl rfl rfl
      next => cases hr

end Sched

end Nachos
