import Nachos.ProcessIdentity

/-!
# What a step does to `numwait`

`State.view` does not show the wait counts. They change in two places only,
`++numwait` in `IncNumWait` and `--numwait` in `DecNumWait`, both with the
`multex` of the `PCB` held (`Phase.locked`), and `new PCB` sets one to zero.
A step of a process that holds no such `multex` is `Quiet`: it leaves the
counts, and those who hold one, alone. The steps of the others are given by
`step_inc` and `step_dec`.
-/

namespace Nachos

open CInt Run

namespace PTable

/-- Holds the `multex` for a change of `numwait`. -/
def Phase.locked : Phase → Bool
  | .joinIncd _ _ _ | .exitDecd _ => true
  | _ => false

/-! ## Frames -/

section Frames

variable (s : State) (p : Nat) (r : SemRef) (wait next : Phase)

theorem setObj_obj (k : Nat) (o : Pcb) (j : Nat) :
    (s.setObj k o).obj j = if j = k then o else s.obj j :=
  Function.update_apply s.obj k o j

@[simp] theorem passP_obj : (s.passP p r wait next).obj = s.obj := by
  unfold State.passP
  split
  · rfl
  · split <;> rfl

@[simp] theorem passP_next : (s.passP p r wait next).next = s.next := by
  unfold State.passP
  split
  · rfl
  · split <;> rfl

@[simp] theorem doV_obj : (s.doV p r next).obj = s.obj := by
  unfold State.doV
  split
  · rfl
  · split <;> rfl

@[simp] theorem doV_next : (s.doV p r next).next = s.next := by
  unfold State.doV
  split
  · rfl
  · split <;> rfl

end Frames

/-! ## Quiet steps -/

/-- Nobody moves who holds a `multex` for a change of `numwait`, and none is
changed. -/
structure Quiet (s s' : State) : Prop where
  held : ∀ q, (s.thr q).phase.locked = true → (s'.thr q).phase = (s.thr q).phase
  numwait : ∀ k, k < s.next → (s'.obj k).numwait = (s.obj k).numwait
  fresh : ∀ k, s.next ≤ k → k < s'.next → (s'.obj k).numwait = 0

section Quietness

variable {s s' : State} {p : Nat}

theorem numwait_update {k : Nat} {o : Pcb} (ho : o.numwait = (s.obj k).numwait) (j : Nat) :
    (Function.update s.obj k o j).numwait = (s.obj j).numwait := by
  by_cases hj : j = k
  · subst hj
    rw [Function.update_self, ho]
  · rw [Function.update_of_ne hj]

theorem quiet_of_obj (hp : (s.thr p).phase.locked = false)
    (hphase : ∀ q, q ≠ p → (s'.thr q).phase = (s.thr q).phase)
    (hobj : ∀ k, (s'.obj k).numwait = (s.obj k).numwait) (hnext : s'.next = s.next) :
    Quiet s s' where
  held q hq := hphase q fun heq => by rw [heq, hp] at hq; cases hq
  numwait k _ := hobj k
  fresh k hle hlt := absurd (hnext ▸ hlt : k < s.next) (Nat.not_lt.mpr hle)

theorem quiet_halt (why : Stop) : Quiet s (s.halt why) where
  held _ _ := rfl
  numwait _ _ := rfl
  fresh _ hle hlt := absurd hlt (Nat.not_lt.mpr hle)

theorem quiet_goto (hp : (s.thr p).phase.locked = false) (b : Phase) : Quiet s (s.goto p b) :=
  quiet_of_obj hp (fun _ hq => phase_goto_of_ne hq b) (fun _ => rfl) rfl

theorem quiet_passP (hp : (s.thr p).phase.locked = false) (r : SemRef) (wait next : Phase) :
    Quiet s (s.passP p r wait next) :=
  quiet_of_obj hp (fun _ hq => phase_passP_of_ne hq r wait next)
    (fun k => by rw [passP_obj]) (passP_next ..)

theorem quiet_doV (hp : (s.thr p).phase.locked = false) (r : SemRef) (next : Phase) :
    Quiet s (s.doV p r next) :=
  quiet_of_obj hp (fun _ hq => phase_doV_of_ne hq r next) (fun k => by rw [doV_obj]) (doV_next ..)

theorem quiet_execUpdate (hp : (s.thr p).phase.locked = false) (name : String) (heap : Heap) :
    Quiet s (s.execUpdate p name heap) := by
  unfold State.execUpdate
  split
  · exact quiet_doV hp _ _
  · split
    · exact quiet_halt _
    · split
      · exact quiet_doV hp _ _
      · split
        · exact quiet_doV hp _ _
        · rename_i i bm _
          constructor
          · intro q hq
            have hqp : q ≠ p := fun heq => by rw [heq, hp] at hq; cases hq
            exact phase_passP_of_ne hqp _ _ _
          · intro k hk
            rw [passP_obj]
            exact congrArg Pcb.numwait (Function.update_of_ne (Nat.ne_of_lt hk) _ _)
          · intro k hle hlt
            rw [passP_next] at hlt
            obtain rfl : k = s.next := Nat.le_antisymm (Nat.lt_succ_iff.mp hlt) hle
            rw [passP_obj]
            show (Function.update s.obj s.next (.new (s.thr p).processID name) s.next).numwait = 0
            rw [Function.update_self]
            rfl

theorem quiet_execFork {k : Nat} (hp : (s.thr p).phase = .execFork k)
    (hk : (s.thr k).phase = .unborn) (heap : Heap) : Quiet s (s.execFork p k heap) := by
  unfold State.execFork
  constructor
  · intro q hq
    have hqp : q ≠ p := fun heq => by rw [heq, hp] at hq; cases hq
    have hqk : q ≠ k := fun heq => by rw [heq, hk] at hq; cases hq
    rw [phase_goto_of_ne hqp]
    simp only [Function.update_of_ne hqk]
  · exact fun j _ => numwait_update (by rfl) j
  · exact fun j hle hlt => absurd hlt (Nat.not_lt.mpr hle)

theorem quiet_joinUpdate (hp : (s.thr p).phase.locked = false) (id : Int) :
    Quiet s (s.joinUpdate p id) := by
  unfold State.joinUpdate
  split
  · exact quiet_goto hp _
  · split
    · exact quiet_halt _
    · split
      · exact quiet_goto hp _
      · split
        · exact quiet_halt _
        · exact quiet_of_obj hp (fun _ hq => phase_passP_of_ne hq _ _ _)
            (fun j => by rw [passP_obj]; rfl) (passP_next ..)

theorem quiet_joinPass (hp : (s.thr p).phase.locked = false) (id : Int) (child m : Nat) :
    Quiet s (s.joinPass p id child m) := by
  unfold State.joinPass
  split
  · exact quiet_halt _
  · split
    · exact quiet_of_obj hp (fun _ hq => phase_goto_of_ne hq _) (fun _ => rfl) rfl
    · refine quiet_of_obj hp (fun _ hq => ?_) (fun _ => rfl) rfl
      rw [phase_setBlocked]
      exact phase_goto_of_ne hq _

theorem quiet_joinRead (hp : (s.thr p).phase.locked = false) (id : Int) (child : Nat) :
    Quiet s (s.joinRead p id child) := by
  unfold State.joinRead
  split
  · exact quiet_halt _
  · exact quiet_of_obj hp (fun _ hq => phase_doV_of_ne hq _ _)
      (fun j => by rw [doV_obj]; rfl) (doV_next ..)

theorem quiet_exitUpdate (hp : (s.thr p).phase.locked = false) (ec : Int) :
    Quiet s (s.exitUpdate p ec) := by
  unfold State.exitUpdate
  split
  · exact quiet_halt _
  · split
    · exact quiet_halt _
    · split
      · exact quiet_halt _
      · split
        · exact quiet_halt _
        · refine quiet_of_obj hp (fun _ hq => phase_passP_of_ne hq _ _ _) (fun j => ?_)
            (passP_next ..)
          rw [passP_obj]
          exact numwait_update (by rfl) j

theorem quiet_remove (hp : (s.thr p).phase.locked = false) : Quiet s (s.remove p) := by
  unfold State.remove
  split
  · exact quiet_halt _
  · split
    · exact quiet_of_obj hp (fun _ hq => phase_goto_of_ne hq _) (fun _ => rfl) rfl
    · split
      · exact quiet_halt _
      · split
        · exact quiet_of_obj hp (fun _ hq => phase_goto_of_ne hq _) (numwait_update (by rfl)) rfl
        · exact quiet_halt _

/-- What `p` does with no `multex` held. -/
theorem quiet_go {g : Int} (hslots : SlotInv g s.view) (hp : (s.thr p).phase.locked = false)
    {heap : Heap} (h : s.go p heap = some s') : Quiet s s' := by
  unfold State.go at h
  split at h
  case h_1 | h_2 | h_3 | h_4 => cases h
  case h_5 | h_11 | h_17 | h_21 =>
    obtain rfl := Option.some.inj h
    exact quiet_passP hp _ _ _
  case h_6 name hph =>
    obtain rfl := Option.some.inj h
    exact quiet_execUpdate hp name heap
  case h_7 k hph =>
    obtain rfl := Option.some.inj h
    exact quiet_execFork hph (hslots.forking p k hph).2.2.1 heap
  case h_8 | h_9 =>
    obtain rfl := Option.some.inj h
    exact quiet_doV hp _ _
  case h_10 r hph =>
    obtain rfl := Option.some.inj h
    exact quiet_goto hp _
  case h_12 _ _ _ hph | h_18 _ hph =>
    rw [hph] at hp
    cases hp
  case h_13 id k hph =>
    split at h
    · obtain rfl := Option.some.inj h
      exact quiet_halt _
    · obtain rfl := Option.some.inj h
      exact quiet_joinPass hp _ _ _
  case h_14 id k m hph =>
    obtain rfl := Option.some.inj h
    exact quiet_joinPass hp _ _ _
  case h_15 id k hph =>
    obtain rfl := Option.some.inj h
    exact quiet_joinRead hp _ _
  case h_16 id k ec hph =>
    obtain rfl := Option.some.inj h
    exact quiet_of_obj hp (fun _ hq => phase_goto_of_ne hq _) (fun _ => rfl) rfl
  case h_19 hph =>
    split at h
    · obtain rfl := Option.some.inj h
      exact quiet_halt _
    · obtain rfl := Option.some.inj h
      exact quiet_doV hp _ _
  case h_20 hph =>
    split at h
    · obtain rfl := Option.some.inj h
      exact quiet_halt _
    · obtain rfl := Option.some.inj h
      exact quiet_passP hp _ _ _
  case h_22 hph =>
    obtain rfl := Option.some.inj h
    exact quiet_remove hp

/-- `a` goes on with a call whose `multex` is held. -/
def Adjusts (s : State) (a : Action) : Prop :=
  ∃ p heap, a = .go p heap ∧ (s.thr p).phase.locked = true

theorem quiet_act {g : Int} {a : Action} (hslots : SlotInv g s.view) (ha : ¬Adjusts s a)
    (h : act s a = some s') : Quiet s s' := by
  have huser : ∀ {q}, s.inUser q → (s.thr q).phase.locked = false := fun hq => by
    rw [show (s.thr _).phase = .user from hq]
    rfl
  unfold act at h
  cases a with
  | exec p name opens =>
      dsimp only at h
      split at h
      · rename_i hp
        split at h
        · obtain rfl := Option.some.inj h
          exact quiet_passP (huser hp) _ _ _
        · obtain rfl := Option.some.inj h
          exact quiet_goto (huser hp) _
      · cases h
  | join p id =>
      dsimp only at h
      split at h
      · rename_i hp
        obtain rfl := Option.some.inj h
        exact quiet_joinUpdate (huser hp) id
      · cases h
  | exit p ec =>
      dsimp only at h
      split at h
      · rename_i hp
        obtain rfl := Option.some.inj h
        exact quiet_exitUpdate (huser hp) ec
      · cases h
  | load p ok =>
      dsimp only at h
      split at h
      · rename_i hp
        split at h
        · obtain rfl := Option.some.inj h
          exact quiet_goto (by rw [hp]; rfl) _
        · obtain rfl := Option.some.inj h
          exact quiet_halt _
      · cases h
  | go p heap =>
      dsimp only at h
      split at h
      · cases h
      · refine quiet_go hslots ?_ h
        exact Bool.eq_false_iff.mpr fun hp => ha ⟨p, heap, rfl, hp⟩

theorem quiet_step {g : Int} {a : Action} (hslots : SlotInv g s.view) (ha : ¬Adjusts s a)
    (h : step s a = some s') : Quiet s s' := by
  obtain ⟨-, s₁, hact, ⟨-, rfl⟩ | ⟨-, rfl⟩⟩ := step_cases h
  · exact quiet_act hslots ha hact
  · exact ⟨fun _ _ => rfl, fun _ _ => rfl, fun _ hle hlt => absurd hlt (Nat.not_lt.mpr hle)⟩

end Quietness

/-! ## The two adjustments -/

section Adjustments

variable {s s' : State} {p k m : Nat} {id : Int} {heap : Heap}

/-- `multex->V()` on a `PCB` that is there, after a change of `numwait`. -/
theorem step_unlock {s₁ : State} {b : Phase} (hstep : step s (.go p heap) = some s')
    (hgo : s.go p heap = some (s₁.doV p (.multex m) b)) (hview : s₁.view = s.view)
    (hstop : s₁.stop = s.stop) (hd : (s.obj m).deleted = false) :
    s'.view = s.view.goto p b ∧ s'.obj = s₁.obj ∧ s'.next = s.next := by
  have hnext : s₁.next = s.next := congrArg View.next hview
  have hd₁ : s₁.dangling (.multex m) = false :=
    (congrFun (congrArg View.deleted hview) m).trans hd
  obtain ⟨hrunning, s₂, hact, hs⟩ := step_cases hstep
  have hnone : (s₁.doV p (.multex m) b).stop = none := by
    rw [← hrunning, ← hstop]
    unfold State.doV
    rw [hd₁, if_neg Bool.false_ne_true]
    split <;> rfl
  obtain rfl : s₁.doV p (.multex m) b = s₂ := by
    unfold act at hact
    dsimp only at hact
    split at hact
    · cases hact
    · rw [hgo] at hact
      exact Option.some.inj hact
  obtain ⟨-, rfl⟩ := hs.resolve_right fun hne => hne.1 hnone
  refine ⟨?_, doV_obj .., (doV_next ..).trans hnext⟩
  rcases doV_cases s₁ p (.multex m) b with h | ⟨x, -, h⟩
  · exact absurd hnone h
  · rw [h, view_setSem_of_mute s₁ rfl, hview]

theorem step_inc (hstep : step s (.go p heap) = some s')
    (hp : (s.thr p).phase = .joinIncd id k m) (hd : (s.obj m).deleted = false) :
    s'.view = s.view.goto p (.joinWait id k) ∧ s'.next = s.next
      ∧ ∀ j, (s'.obj j).numwait
        = if j = m then wrap32 ((s.obj m).numwait + 1) else (s.obj j).numwait := by
  have hgo : s.go p heap = some ((s.setObj m { s.obj m with
      numwait := wrap32 ((s.obj m).numwait + 1) }).doV p (.multex m) (.joinWait id k)) := by
    rw [State.go, hp]
  obtain ⟨hview, hobj, hnext⟩ := step_unlock hstep hgo (view_setNumwait s m _) rfl hd
  refine ⟨hview, hnext, fun j => ?_⟩
  rw [hobj, setObj_obj]
  split <;> rfl

theorem step_dec (hstep : step s (.go p heap) = some s') (hp : (s.thr p).phase = .exitDecd m)
    (hd : (s.obj m).deleted = false) :
    s'.view = s.view.goto p .exitRelease ∧ s'.next = s.next
      ∧ ∀ j, (s'.obj j).numwait
        = if j = m ∧ 0 < (s.obj m).numwait then wrap32 ((s.obj m).numwait - 1)
          else (s.obj j).numwait := by
  have hgo : s.go p heap = some ((s.decNumWait m).doV p (.multex m) .exitRelease) := by
    rw [State.go, hp]
  have hstop : (s.decNumWait m).stop = s.stop := by
    unfold State.decNumWait
    split <;> rfl
  obtain ⟨hview, hobj, hnext⟩ := step_unlock hstep hgo (view_decNumWait s m) hstop hd
  refine ⟨hview, hnext, fun j => ?_⟩
  rw [hobj, State.decNumWait]
  by_cases hpos : (s.obj m).numwait > 0
  · rw [if_pos hpos, setObj_obj]
    by_cases hj : j = m
    · rw [if_pos hj, if_pos ⟨hj, hpos⟩]
    · rw [if_neg hj, if_neg fun h => hj h.1]
  · rw [if_neg hpos, if_neg fun h => hpos h.2]

end Adjustments

end PTable

end Nachos
