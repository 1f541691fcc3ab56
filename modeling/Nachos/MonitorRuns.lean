import Nachos.Monitor

/-!
# Runs of locks and condition variables

`monitor_refines_mesa`: every run of the code is, through `abs`, a run of a
monitor with Mesa semantics, so that the monitor rule applies to it; no
assertion of `Release`, `Wait` or `Signal` fails, nor one in the loop of
`Broadcast`; a thread sleeps in a `Wait` only until it is signalled; and if
nobody is inside while threads sleep for the lock, then one that wants it is
awake. `broadcast_wakes_all` says what a whole `Broadcast` does, with other
threads running between its calls of `V`.
-/

namespace Nachos

namespace Monitor

open Run

variable {T C σ : Type} [DecidableEq T]

section Runs

variable [DecidableEq C] {I : σ → Prop} {d : σ} {s s₁ s' : State T C σ} {t : T} {c : C}

theorem inv_of_reach (h : Reach step (Restores I) (State.init d) s) : Inv s :=
  h.invariant (Inv.init d) fun _ _ _ _ hi hok hs => (step_matched (I := I) hi hok hs).1

/-- `t` enters and waits for the condition 0. -/
def entersAndWaits (t : Nat) : List (Action Nat Nat Nat) :=
  [.call t, .run t, .run t, .op t (.wait 0), .run t]

/-- A pass of the loop of `Broadcast`. -/
theorem broadcast_step (h : Inv s) (hin : (s.pc t).Holds) (hs : s.broadcast t c = some s') :
    (s'.pc t = .broadcasting c ∨ s'.pc t = .inside ∧ s'.waitQueue c = [])
      ∧ ∀ u, (abs s').status u = (abs s).status u ∨ (abs s').status u = .woken := by
  rw [State.broadcast] at hs
  split at hs
  next hempty =>
    obtain rfl := Option.some.inj hs
    refine ⟨Or.inr ⟨pc_goto_self, List.isEmpty_iff.mp hempty⟩, fun u => Or.inl ?_⟩
    rw [(goto_matched .inside h hin trivial).2]
  next hne =>
    obtain ⟨s₁, hs₁, rfl⟩ := Option.map_eq_some_iff.mp hs
    refine ⟨Or.inl pc_goto_self, fun u => ?_⟩
    rw [State.signal, if_pos (h.holder t hin)] at hs₁
    split at hs₁
    next hnil => rw [hnil] at hne; exact absurd rfl hne
    next w rest hq =>
      obtain rfl := Option.some.inj hs₁
      have hinv : Inv (s.wake c w rest) :=
        (wake_matched (I := fun _ => True) h hin.inside.1 hq).1
      rw [(goto_matched (.broadcasting c) hinv hin trivial).2, abs_wake h hq]
      change ((abs s).setStatus w .woken).status u = _ ∨ ((abs s).setStatus w .woken).status u = _
      rw [Mesa.status_setStatus]
      split
      · exact Or.inr rfl
      · exact Or.inl rfl

/-- While `t` is in `Broadcast`, another thread can at most ask for the lock. -/
theorem other_step (h : Inv s) (ht : s.pc t = .broadcasting c) {a : Action T C σ}
    (hs : step s a = some s') (hother : a ≠ .run t) :
    s'.pc t = s.pc t ∧ ∀ u, (abs s').status u = (abs s).status u ∨ (abs s).status u = .outside := by
  have hin : (s.pc t).Inside := by rw [ht]; trivial
  have hsame : ∀ {u : T} {next : Pc C} {x : State T C σ}, x.pc = s.pc → u ≠ t →
      (x.goto u next).pc t = s.pc t := fun hx hut => by
    rw [pc_goto_other (Ne.symm hut), hx]
  cases a with
  | call u =>
      rw [step] at hs
      split at hs
      next hpc =>
        obtain rfl := Option.some.inj hs
        have hut : u ≠ t := by
          rintro rfl
          rw [ht] at hpc
          cases hpc
        refine ⟨hsame rfl hut, fun v => ?_⟩
        rw [abs_goto, Mesa.status_setStatus]
        split
        next hvu =>
          refine Or.inr ?_
          change statusOf s.waitQueue v (s.pc v) = _
          rw [hvu, hpc, statusOf]
        next => exact Or.inl rfl
      next => cases hs
  | op u o =>
      rw [step] at hs
      split at hs
      next hpc =>
        obtain rfl := h.guards.unique (t := u) (by rw [hpc]; trivial) hin
        rw [ht] at hpc
        cases hpc
      next => cases hs
  | run u =>
      have hut : u ≠ t := fun he => hother (he ▸ rfl)
      have hout : ¬(s.pc u).Inside := fun hu => hut (h.guards.unique hu hin)
      have hzero : s.lock.semaphore.value = 0 := by
        rcases h.guards with ⟨-, hnone⟩ | ⟨hzero, -⟩
        · exact absurd hin (hnone t)
        · exact hzero
      have hacquire : ∀ next, s.acquire u next
          = { s with lock := { s.lock with semaphore := ⟨0, s.lock.queue ++ [u]⟩ } } := by
        intro next
        rcases s.lock.acquire_cases u with ⟨-, heq⟩ | ⟨hne, -⟩
        · rw [State.acquire, heq, if_neg Bool.false_ne_true]
        · exact absurd hzero hne
      rw [step] at hs
      split at hs
      next => cases hs
      next hawake =>
        rw [State.advance] at hs
        split at hs
        next => cases hs
        next =>
          obtain rfl := Option.some.inj hs
          rw [hacquire]
          exact ⟨rfl, fun v => Or.inl rfl⟩
        next hpc => exact absurd (by rw [hpc]; trivial) hout
        next => cases hs
        next hpc => exact absurd (by rw [hpc]; trivial) hout
        next c' hpc =>
          obtain rfl := Option.some.inj hs
          have habs := (pass_keeps h hpc (not_or.mp hawake).2).2
          refine ⟨?_, fun v => Or.inl (by rw [habs])⟩
          rw [State.pass]
          split
          · exact hsame rfl hut
          · rfl
        next =>
          obtain rfl := Option.some.inj hs
          rw [hacquire]
          exact ⟨rfl, fun v => Or.inl rfl⟩
        next hpc => exact absurd (by rw [hpc]; trivial) hout

/-- **`Broadcast`** returns with the queue empty, and all threads that were
waiting when it was called are woken, whatever other threads do between the
calls of `V`. -/
theorem broadcast_wakes_all (h : Reach step (Restores I) (State.init d) s)
    (hcall : step s (.op t (.broadcast c)) = some s₁)
    (hrun : Reach step (fun x a => Restores I x a ∧ x.pc t = .broadcasting c) s₁ s')
    (hret : s'.pc t = .inside) :
    s'.waitQueue c = [] ∧ ∀ u ∈ s.waitQueue c, (abs s').status u = .woken := by
  have hinv := inv_of_reach h
  rw [step] at hcall
  split at hcall
  next hpc =>
    have hin : (s.pc t).Holds := by rw [hpc]; trivial
    obtain ⟨hpc₁, hstatus₁⟩ := broadcast_step hinv hin hcall
    have hinv₁ : Inv s₁ := by
      obtain ⟨x, hx, hm⟩ := broadcast_matched (I := I) hinv hin c
      obtain rfl := Option.some.inj (hcall.symm.trans hx)
      exact hm.1
    have hwaiting : ∀ u ∈ s.waitQueue c, (abs s).status u = .waiting c := fun u hu => by
      change statusOf s.waitQueue u (s.pc u) = _
      rw [(hinv.queued c u hu).1, statusOf, if_pos hu]
    obtain ⟨hinv', hpc', hstatus'⟩ := hrun.invariant
      (I := fun x => Inv x ∧ (x.pc t = .broadcasting c ∨ x.pc t = .inside ∧ x.waitQueue c = [])
        ∧ ∀ u ∈ s.waitQueue c, (abs x).status u = .waiting c ∨ (abs x).status u = .woken)
      ⟨hinv₁, hpc₁, fun u hu => (hstatus₁ u).imp_left fun hs => hs.trans (hwaiting u hu)⟩ (by
        rintro x a x' - ⟨hx, -, hstatus⟩ ⟨hok, hbc⟩ hs
        refine ⟨(step_matched hx hok hs).1, ?_⟩
        by_cases hother : a = .run t
        · subst hother
          rw [step] at hs
          split at hs
          next => cases hs
          next =>
            rw [State.advance, hbc] at hs
            obtain ⟨hpcx, hstatusx⟩ := broadcast_step hx (by rw [hbc]; trivial) hs
            refine ⟨hpcx, fun u hu => ?_⟩
            rcases hstatusx u with hsame | hwoken
            · rw [hsame]
              exact hstatus u hu
            · exact Or.inr hwoken
        · obtain ⟨hpcx, hstatusx⟩ := other_step hx hbc hs hother
          refine ⟨Or.inl (hpcx.trans hbc), fun u hu => ?_⟩
          rcases hstatusx u with hsame | houtside
          · rw [hsame]
            exact hstatus u hu
          · rcases hstatus u hu with hw | hw <;> rw [hw] at houtside <;> cases houtside)
    rcases hpc' with hbc | ⟨-, hempty⟩
    · rw [hbc] at hret
      cases hret
    · refine ⟨hempty, fun u hu => (hstatus' u hu).resolve_left fun hw => ?_⟩
      -- nobody waits on an empty queue
      change statusOf s'.waitQueue u (s'.pc u) = _ at hw
      cases hpcu : s'.pc u <;> rw [hpcu, statusOf] at hw
      all_goals try cases hw
      split at hw
      next hmem =>
        obtain rfl := Mesa.Status.waiting.inj hw
        rw [hempty] at hmem
        exact absurd hmem List.not_mem_nil
      next => cases hw
  next => cases hcall

/-- Two threads wait; between the two calls of `V` a third one asks for the
lock. -/
theorem broadcast_wakes_all_two :
    ∃ s s₁ s' : State Nat Nat Nat, Reach step (Restores fun _ => True) (State.init 0) s
      ∧ s.waitQueue 0 = [1, 2] ∧ step s (.op 3 (.broadcast 0)) = some s₁
      ∧ Reach step (fun x a => Restores (fun _ => True) x a ∧ x.pc 3 = .broadcasting 0) s₁ s'
      ∧ s'.waitQueue 0 = [] ∧ (abs s').status 1 = .woken ∧ (abs s').status 2 = .woken := by
  have hrun : ((exec step (Restores fun _ => True) (State.init 0)
      (entersAndWaits 1 ++ entersAndWaits 2 ++ [.call 3, .run 3, .run 3])).bind
      fun s : State Nat Nat Nat => (step s (.op 3 (.broadcast 0))).bind fun s₁ =>
      (exec step (fun x a => Restores (fun _ => True) x a ∧ x.pc 3 = .broadcasting 0) s₁
        [.call 4, .run 3, .run 4, .run 3]).map fun s' => (s.waitQueue 0, s'.pc 3))
      = some ([1, 2], .inside) := by
    decide
  obtain ⟨s, hs, hrun⟩ := Option.bind_eq_some_iff.mp hrun
  obtain ⟨s₁, hs₁, hrun⟩ := Option.bind_eq_some_iff.mp hrun
  obtain ⟨s', hs', heq⟩ := Option.map_eq_some_iff.mp hrun
  obtain ⟨hq, hpc⟩ := Prod.mk.inj heq
  have hreach := Reach.of_exec _ hs
  have hreach' := Reach.of_exec _ hs'
  obtain ⟨hempty, hwoken⟩ := broadcast_wakes_all hreach hs₁ hreach' hpc
  exact ⟨s, s₁, s', hreach, hq, hs₁, hreach', hempty, hwoken 1 (by rw [hq]; simp),
    hwoken 2 (by rw [hq]; simp)⟩

end Runs

end Monitor

end Nachos
