import Nachos.ParentLiveness

/-!
# What `JoinUpdate` checks

`JoinUpdate(id)` compares `id` with 0 and the `parentID` of `pcb[id]` with
the caller's `processID`. It does not look whether `id` is below
`MAX_PROCESS`, whether the slot was ever used, or whether its process is
still there; `Remove` clears the bit of a slot and leaves its pointer. So
the check is right for a part of the numbers only, and `join_validates_iff`
says for which: negative ones, and slots that have been used and do not hold
the `PCB` of a removed child, or of a child left behind by an earlier process
with the caller's number (`Names`).

The second part follows an accepted call to its end. It sleeps at most
twice, each time reading `pcb[id]` anew, and finds its child there as long as
nobody joins a child that has been joined already: until its parent has read
its exit code a child is not let go (`Held.kept`), and only its parent gets to
read it (`Held.own`). Unlike for the value `Join` returns, when processes exit
does not matter here.
-/

namespace Nachos

open CInt Run
open Rendezvous (Stage)

namespace PTable

/-! ## The property and the condition -/

/-- Process `k`, started by `p`, is in slot `id` and has not been removed. -/
structure LiveChild (s : State) (p : Nat) (id : Int) (k : Nat) : Prop where
  slot : s.pcbAt id = some k
  ne_zero : k ≠ 0
  creator : s.creator k = p
  present : (s.obj k).deleted = false

/-- `Join(id)` by `p` returns -1 and does nothing else when no child of `p`
is in slot `id`, and otherwise goes on to wait for that child. -/
structure Validates (s : State) (p : Nat) (id : Int) : Prop where
  refuses : (∀ k, ¬LiveChild s p id k) → step s (.join p id) = some (s.goto p (.ret (-1)))
  accepts : ∀ k, LiveChild s p id k → ∃ s', step s (.join p id) = some s' ∧ s'.stop = none
    ∧ (s'.thr p).phase.joins = some (id, k)

/-- The numbers `JoinUpdate` gets right: the negative ones, and slots that
have been used and hold the `PCB` of a child of `p` that is still there if
they hold one whose `parentID` is the number of `p`. -/
def Names (s : State) (p : Nat) (id : Int) : Prop :=
  id < 0 ∨ ∃ k, s.pcbAt id = some k ∧
    ((s.obj k).parentID = (s.thr p).processID → s.creator k = p ∧ (s.obj k).deleted = false)

/-- Every `Join` is for such a number, and not for a child of the caller
that an earlier `Join` has collected. -/
def Careful (s : State) : Action → Prop
  | .join p id => Names s p id
      ∧ ∀ k, s.pcbAt id = some k → s.creator k = p → s.joinStage k ≠ .collected
  | _ => True

/-- Whoever is in `JoinUpdate` is there for a child of its own; up to the
read of the exit code the slot holds this child and its semaphores exist, the
semaphore it sleeps on is the child's, and it gets behind the wait only when
the child has called `Exit`. -/
structure AwaitsChild (s : State) : Prop where
  own : ∀ p id k, (s.thr p).phase.joins = some (id, k) → k ≠ 0 ∧ s.creator k = p
  there : ∀ p id k, (s.thr p).phase.joins = some (id, k) →
    (∃ ec, (s.thr p).phase = .joinRet id k ec)
      ∨ (s.pcbAt id = some k ∧ (s.obj k).deleted = false)
  asleep : ∀ p id k m, (s.thr p).phase = .joinSleep id k m → m = k
  exited : ∀ p id k, (s.thr p).phase = .joinRead id k
    ∨ (∃ ec, (s.thr p).phase = .joinRet id k ec) → (s.thr k).phase.exiting = true

/-! ## One call -/

section Call

variable {s : State} {p : Nat} {id : Int}

theorem step_join (hrun : s.stop = none) (hp : s.inUser p) (id : Int) :
    step s (.join p id) = some (if (s.joinUpdate p id).stop = none then s.joinUpdate p id
      else { s with stop := (s.joinUpdate p id).stop }) := by
  rw [step, if_neg (by simp [hrun]), act, if_pos hp]
  rfl

theorem stop_goto (s : State) (p : Nat) (ph : Phase) : (s.goto p ph).stop = s.stop := rfl

/-- A pass of `P` on a semaphore that exists. -/
theorem passP_running (s : State) (p : Nat) {r : SemRef} (hr : s.dangling r = false)
    (wait next : Phase) :
    (s.passP p r wait next).stop = s.stop
      ∧ (((s.passP p r wait next).thr p).phase = wait
        ∨ ((s.passP p r wait next).thr p).phase = next) := by
  rw [State.passP, if_neg (by simp [hr])]
  split
  next x _ => exact ⟨rfl, Or.inr (phase_goto _ p next)⟩
  next x _ =>
      refine ⟨rfl, Or.inl ?_⟩
      rw [phase_setBlocked]
      exact phase_goto _ p wait

theorem joinUpdate_neg (h : id < 0) : s.joinUpdate p id = s.goto p (.ret (-1)) := by
  rw [State.joinUpdate, if_pos h]

theorem joinUpdate_null (h0 : ¬id < 0) (h : s.pcbAt id = none) :
    s.joinUpdate p id = s.halt .crash := by
  rw [State.joinUpdate, if_neg h0, h]

theorem joinUpdate_other (h0 : ¬id < 0) {k : Nat} (h : s.pcbAt id = some k)
    (hne : (s.obj k).parentID ≠ (s.thr p).processID) :
    s.joinUpdate p id = s.goto p (.ret (-1)) := by
  rw [State.joinUpdate, if_neg h0, h]
  simp only
  rw [if_pos fun he => hne he.symm]

theorem joinUpdate_own (h0 : ¬id < 0) {k m : Nat} (h : s.pcbAt id = some k)
    (heq : (s.obj k).parentID = (s.thr p).processID) (hm : s.pcbAt (s.thr p).processID = some m) :
    s.joinUpdate p id = (s.setJoinStage k .begun).passP p (.multex m) (.joinInc id k m)
      (.joinIncd id k m) := by
  rw [State.joinUpdate, if_neg h0, h]
  simp only
  rw [if_neg (not_not.mpr heq.symm), heq, hm]

/-- Behind a check that passes the call is under way, for the process in the
slot. -/
theorem join_accepted (hrun : s.stop = none) (hp : s.inUser p) (h0 : ¬id < 0) {k m : Nat}
    (h : s.pcbAt id = some k) (heq : (s.obj k).parentID = (s.thr p).processID)
    (hm : s.pcbAt (s.thr p).processID = some m) (hdel : (s.obj m).deleted = false) :
    ∃ s', step s (.join p id) = some s' ∧ s'.stop = none
      ∧ (s'.thr p).phase.joins = some (id, k) := by
  obtain ⟨hstop, hphase⟩ := passP_running (s.setJoinStage k .begun) p
    (show (s.setJoinStage k .begun).dangling (.multex m) = false from hdel) (.joinInc id k m)
    (.joinIncd id k m)
  rw [← joinUpdate_own h0 h heq hm] at hstop hphase
  have hnone : (s.joinUpdate p id).stop = none := hstop.trans hrun
  refine ⟨s.joinUpdate p id, ?_, hnone, ?_⟩
  · rw [step_join hrun hp, if_pos hnone]
  · rcases hphase with hphase | hphase <;> rw [hphase] <;> rfl

theorem join_refused (hrun : s.stop = none) (hp : s.inUser p)
    (h : s.joinUpdate p id = s.goto p (.ret (-1))) :
    step s (.join p id) = some (s.goto p (.ret (-1))) := by
  rw [step_join hrun hp, h, if_pos ((stop_goto s p _).trans hrun)]

/-- The first program and those that `Exec` started, in a table in order. -/
structure Caller (s : State) (p : Nat) : Prop where
  running : s.stop = none
  user : s.inUser p
  slots : SlotInv 0 s.view
  deleted : ∀ k, (s.obj k).deleted = true → (s.thr k).phase = .gone

namespace Caller

variable (h : Caller s p)

include h

theorem phase_eq : s.view.phase p = .user := h.user

theorem ne_unborn : s.view.phase p ≠ .unborn := by
  rw [h.phase_eq]
  nofun

/-- What the caller computes from its own number is its own `PCB`. -/
theorem pcbAt_processID : s.pcbAt (s.thr p).processID = some p := by
  have hlive : (s.view.phase p).live = true := by rw [h.phase_eq]; rfl
  exact h.slots.pcbAt_processID hlive

theorem present : (s.obj p).deleted = false := by
  refine Bool.eq_false_iff.mpr fun hd => ?_
  have hg := h.deleted p hd
  rw [show (s.thr p).phase = .user from h.user] at hg
  cases hg

/-- The `PCB` of a child carries the number of its parent. -/
theorem parentID_of_creator {k : Nat} (hk : s.pcbAt id = some k) (hk0 : k ≠ 0)
    (hc : s.creator k = p) : (s.obj k).parentID = (s.thr p).processID := by
  have hpar := h.slots.parentID k hk0 (h.slots.pcbAt_eq_some hk).1
  rw [show s.view.creator k = p from hc] at hpar
  exact hpar

/-- With a matching `parentID` the call is accepted, whoever is in the
slot. -/
theorem accepted (h0 : ¬id < 0) {k : Nat} (hk : s.pcbAt id = some k)
    (heq : (s.obj k).parentID = (s.thr p).processID) :
    ∃ s', step s (.join p id) = some s' ∧ s'.stop = none
      ∧ (s'.thr p).phase.joins = some (id, k) :=
  join_accepted h.running h.user h0 hk heq h.pcbAt_processID h.present

theorem validates (hn : Names s p id) : Validates s p id := by
  rcases hn with hneg | ⟨k, hk, hown⟩
  · have hnone : s.pcbAt id = none := by
      rw [State.pcbAt, if_neg (by omega)]
    refine ⟨fun _ => join_refused h.running h.user (joinUpdate_neg hneg), fun k hl => ?_⟩
    cases hnone.symm.trans hl.slot
  · have h0 : ¬id < 0 := by
      intro hneg
      rw [State.pcbAt, if_neg (by omega)] at hk
      cases hk
    by_cases heq : (s.obj k).parentID = (s.thr p).processID
    · obtain ⟨hc, hdel⟩ := hown heq
      have hk0 := h.slots.ne_zero_of_parentID h.ne_unborn heq.symm
      refine ⟨fun hnot => absurd ⟨hk, hk0, hc, hdel⟩ (hnot k), ?_⟩
      intro j hl
      obtain rfl : k = j := Option.some.inj (hk.symm.trans hl.slot)
      exact h.accepted h0 hk heq
    · refine ⟨fun _ => join_refused h.running h.user (joinUpdate_other h0 hk heq), ?_⟩
      intro j hl
      obtain rfl : k = j := Option.some.inj (hk.symm.trans hl.slot)
      exact absurd (h.parentID_of_creator hk hl.ne_zero hl.creator) heq

theorem names (hv : Validates s p id) : Names s p id := by
  by_cases h0 : id < 0
  · exact Or.inl h0
  refine Or.inr ?_
  cases hk : s.pcbAt id with
  | none =>
      -- an unused slot, or none: the call follows a bad pointer
      have hstep := hv.refuses fun k hl => by cases hk.symm.trans hl.slot
      have hcrash : (s.halt .crash).stop ≠ none := Option.some_ne_none _
      rw [step_join h.running h.user, joinUpdate_null h0 hk, if_neg hcrash] at hstep
      have hstop := congrArg State.stop (Option.some.inj hstep)
      rw [stop_goto, h.running] at hstop
      cases hstop
  | some k =>
      refine ⟨k, rfl, fun heq => ?_⟩
      by_contra hnot
      -- the call is accepted, but must not be
      have hstep := hv.refuses fun j hl => by
        obtain rfl : k = j := Option.some.inj (hk.symm.trans hl.slot)
        exact hnot ⟨hl.creator, hl.present⟩
      obtain ⟨s', hs', -, hjoins⟩ := h.accepted h0 hk heq
      obtain rfl := Option.some.inj (hs'.symm.trans hstep)
      rw [phase_goto] at hjoins
      cases hjoins

end Caller

end Call

/-- Only a process that is gone has its semaphores deleted, whatever the
processes do. -/
theorem gone_of_deleted {name : String} {ok : State → Action → Prop} {s : State}
    (h : Reach step ok (State.init name 0) s) (k : Nat) (hk : (s.obj k).deleted = true) :
    (s.thr k).phase = .gone := by
  have hinv : SlotInv 0 s.view ∧ ∀ k, s.view.deleted k = true → s.view.phase k = .gone := by
    refine Reach.invariant (I := fun s => SlotInv 0 s.view
      ∧ ∀ k, s.view.deleted k = true → s.view.phase k = .gone) ⟨SlotInv.init name 0, nofun⟩ ?_ h
    rintro s a s' - ⟨hslots, hdel⟩ - hs
    rcases view_step hs with heq | hm
    · rw [heq]
      exact ⟨hslots, hdel⟩
    · refine ⟨(hslots.step hm).resolve_right fun hf => hf.1 rfl, fun k hk => ?_⟩
      rcases hm.deleted hslots hk with hold | hg
      · exact hm.gone hslots (hdel k hold)
      · exact hg
  exact hinv.2 k hk

/-! ## The child of an accepted call -/

/-- In `JoinUpdate` for `k`, before the exit code has been read. -/
def Phase.awaits (b : Phase) (k : Nat) : Prop := b.status = .waiting k ∨ b.status = .reading k

/-- Past the wait for `k`. -/
def Phase.past (b : Phase) (k : Nat) : Prop :=
  b.status = .reading k ∨ ∃ ec, b.status = .returning k ec

structure Held (v : View) : Prop where
  own : ∀ p k, (v.phase p).awaits k → v.joinStage k ≠ .collected
  creator : ∀ p id k, (v.phase p).joins = some (id, k) → v.creator k = p
  kept : ∀ k, k < v.next → v.joinStage k ≠ .collected →
    v.leave k = 0 ∧ v.phase k ≠ .exitRemove ∧ v.phase k ≠ .gone
  posted : ∀ k, k < v.next → v.post k ≠ 0 → (v.phase k).exiting = true
  past : ∀ p k, (v.phase p).past k → (v.phase k).exiting = true

theorem Phase.awaits.joins {b : Phase} {k : Nat} (h : b.awaits k) :
    ∃ id, b.joins = some (id, k) := by
  cases b <;> rcases h with h | h <;> cases h <;> exact ⟨_, rfl⟩

theorem Phase.past.joins {b : Phase} {k : Nat} (h : b.past k) : ∃ id, b.joins = some (id, k) := by
  cases b <;> rcases h with h | ⟨ec, h⟩ <;> cases h <;> exact ⟨_, rfl⟩

theorem Phase.not_awaits {b : Phase} (hb : b.joins = none) (k : Nat) : ¬b.awaits k := by
  intro h
  obtain ⟨id, hj⟩ := h.joins
  cases hb.symm.trans hj

theorem Phase.not_past {b : Phase} (hb : b.joins = none) (k : Nat) : ¬b.past k := by
  intro h
  obtain ⟨id, hj⟩ := h.joins
  cases hb.symm.trans hj

namespace Held

variable {v v' : View} {p k : Nat} {a : Action}

theorem record (h : Held v) (e : Event) : Held (v.record e) := { h with }

theorem setExitcode (h : Held v) (k : Nat) (ec : Int) : Held (v.setExitcode k ec) := { h with }

theorem setPost (h : Held v) (hx : (v.phase k).exiting = true) (x : Int) :
    Held (v.setPost k x) where
  __ := h
  posted j hj hne := by
    by_cases hjk : j = k
    · rw [hjk]
      exact hx
    · exact h.posted j hj (by simpa [View.setPost, hjk] using hne)

theorem setLeave (h : Held v) (hc : v.joinStage k = .collected) (x : Int) :
    Held (v.setLeave k x) where
  __ := h
  kept j hj hne := by
    have hjk : j ≠ k := by
      rintro rfl
      exact hne hc
    obtain ⟨hleave, hphase⟩ := h.kept j hj hne
    exact ⟨(Function.update_of_ne hjk _ _).trans hleave, hphase⟩

/-- A `Join` gets on without collecting its child. -/
theorem setJoinStage (h : Held v) (hk : v.joinStage k ≠ .collected) {j : Stage}
    (hj : j ≠ .collected) : Held (v.setJoinStage k j) where
  __ := h
  own p i hp := by
    by_cases hik : i = k
    · subst hik
      simpa [View.setJoinStage] using hj
    · simpa [View.setJoinStage, hik] using h.own p i hp
  kept i hi hne := by
    by_cases hik : i = k
    · subst hik
      exact h.kept i hi hk
    · exact h.kept i hi (by simpa [View.setJoinStage, hik] using hne)

/-- A child is collected that nobody waits for any more. -/
theorem collect (h : Held v) (hno : ∀ p, ¬(v.phase p).awaits k) :
    Held (v.setJoinStage k .collected) where
  __ := h
  own p i hp := by
    have hik : i ≠ k := by
      rintro rfl
      exact hno p hp
    simpa [View.setJoinStage, hik] using h.own p i hp
  kept i hi hne := by
    have hik : i ≠ k := by
      rintro rfl
      simp [View.setJoinStage] at hne
    exact h.kept i hi (by simpa [View.setJoinStage, hik] using hne)

/-- One process goes on: into a `Join` only for a child of its own that is
not collected, behind the wait only for one that has exited, out of `ExitWait`
only when collected. -/
theorem goto (h : Held v) {b : Phase} (hown : ∀ k, b.awaits k → v.joinStage k ≠ .collected)
    (hcreator : ∀ id k, b.joins = some (id, k) → v.creator k = p)
    (hkept : b = .exitRemove ∨ b = .gone → v.joinStage p = .collected)
    (hexit : (v.phase p).exiting = true → b.exiting = true)
    (hpast : ∀ k, b.past k → (v.phase k).exiting = true) : Held (v.goto p b) := by
  have hself : (v.goto p b).phase p = b := Function.update_self _ _ _
  have hother : ∀ {q}, q ≠ p → (v.goto p b).phase q = v.phase q := fun hq =>
    Function.update_of_ne hq _ _
  have hexiting : ∀ q, (v.phase q).exiting = true → ((v.goto p b).phase q).exiting = true := by
    intro q hq
    by_cases hqp : q = p
    · subst hqp
      rw [hself]
      exact hexit hq
    · rw [hother hqp]
      exact hq
  constructor
  case own =>
    intro q k hq
    by_cases hqp : q = p
    · rw [hqp, hself] at hq
      exact hown k hq
    · rw [hother hqp] at hq
      exact h.own q k hq
  case creator =>
    intro q id k hq
    by_cases hqp : q = p
    · rw [hqp, hself] at hq
      exact (hcreator id k hq).trans hqp.symm
    · rw [hother hqp] at hq
      exact h.creator q id k hq
  case kept =>
    intro k hk hne
    obtain ⟨hleave, hphase⟩ := h.kept k hk hne
    refine ⟨hleave, ?_⟩
    by_cases hkp : k = p
    · subst hkp
      rw [hself]
      exact ⟨fun hb => hne (hkept (Or.inl hb)), fun hb => hne (hkept (Or.inr hb))⟩
    · rw [hother hkp]
      exact hphase
  case posted => exact fun k hk hne => hexiting k (h.posted k hk hne)
  case past =>
    intro q k hq
    refine hexiting k ?_
    by_cases hqp : q = p
    · rw [hqp, hself] at hq
      exact hpast k hq
    · rw [hother hqp] at hq
      exact h.past q k hq

/-- The same for a phase outside `JoinUpdate`. -/
theorem goto_plain (h : Held v) {b : Phase} (hb : b.joins = none)
    (hkept : b = .exitRemove ∨ b = .gone → v.joinStage p = .collected)
    (hexit : (v.phase p).exiting = true → b.exiting = true) : Held (v.goto p b) := by
  refine h.goto (fun k hk => absurd hk (Phase.not_awaits hb k)) ?_ hkept hexit
    (fun k hk => absurd hk (Phase.not_past hb k))
  intro id k hj
  rw [hb] at hj
  cases hj

theorem follow (h : Held v) {b : Phase} (hf : Follows (v.phase p) b) : Held (v.goto p b) := by
  have hstatus := hf.status_eq
  refine h.goto ?_ ?_ ?_ ?_ ?_
  · exact fun k hk => h.own p k (by rwa [Phase.awaits, hstatus] at hk)
  · exact fun id k hj => h.creator p id k (by rwa [hf.joins_eq] at hj)
  · intro hb
    generalize v.phase p = c at hf
    rcases hb with rfl | rfl <;> cases hf
  · rw [hf.exiting_eq]
    exact id
  · exact fun k hk => h.past p k (by rwa [Phase.past, hstatus] at hk)

theorem newPcb (h : Held v) (hs : SlotInv 0 v) (hA : Args v) (p i : Nat) :
    Held (v.newPcb p i) := by
  have hcases : ∀ {k}, k < v.next + 1 → k < v.next ∨ k = v.next := Nat.lt_succ_iff_lt_or_eq.mp
  have hne : ∀ {k}, k < v.next → k ≠ v.next := fun hk => Nat.ne_of_lt hk
  constructor
  case own => exact h.own
  case creator =>
    intro q id k hq
    have hk := (hA.joins q id k hq).2.1
    exact (Function.update_of_ne (hne hk) _ _).trans (h.creator q id k hq)
  case kept =>
    intro k hk hstage
    rcases hcases hk with hk | rfl
    · obtain ⟨hleave, hphase⟩ := h.kept k hk hstage
      exact ⟨(Function.update_of_ne (hne hk) _ _).trans hleave, hphase⟩
    · refine ⟨Function.update_self _ _ _, ?_⟩
      change v.phase v.next ≠ _ ∧ v.phase v.next ≠ _
      rw [hs.fresh v.next le_rfl]
      exact ⟨nofun, nofun⟩
  case posted =>
    intro k hk hpost
    rcases hcases hk with hk | rfl
    · exact h.posted k hk (by simpa [View.newPcb, hne hk] using hpost)
    · exact absurd (Function.update_self _ _ _) hpost
  case past => exact h.past

theorem fork (h : Held v) (hk : v.phase k = .unborn) (p : Nat) : Held (v.fork p k) := by
  have h' := @goto_plain v k h .start rfl nofun (by rw [hk]; exact id)
  exact { h' with }

/-- Who is past `ExitWait` has been collected. -/
theorem collected (h : Held v) (hk : k < v.next)
    (hphase : v.leave k ≠ 0 ∨ v.phase k = .exitRemove) : v.joinStage k = .collected := by
  by_contra hne
  obtain ⟨hleave, hremove, -⟩ := h.kept k hk hne
  rcases hphase with hp | hp
  · exact hp hleave
  · exact hremove hp

/-- A child that is waited for still holds its slot. -/
theorem pcbAt_child (h : Held v) (hs : SlotInv 0 v) (hA : Args v) {id : Int}
    (hj : (v.phase p).joins = some (id, k)) (hp : (v.phase p).awaits k) :
    v.pcbAt id = some k ∧ v.phase k ≠ .gone := by
  obtain ⟨-, hk, rfl⟩ := hA.joins p id k hj
  have hg := (h.kept k hk (h.own p k hp)).2.2
  exact ⟨hs.pcbAt_slotOf hk hg, hg⟩

theorem step (h : Held v) (hs : SlotInv 0 v) (hA : Args v) (hm : Moves v a v')
    (hjoin : ∀ p id, a = .join p id → v.phase p = .user → ∀ k, v.pcbAt id = some k →
      v.pid p = v.parentID k → v.creator k = p ∧ v.joinStage k ≠ .collected) : Held v' := by
  have hlt : ∀ {p b}, v.phase p = b → b ≠ .unborn → p < v.next := fun hp hb =>
    hs.lt_next (by rw [hp]; exact hb)
  cases hm with
  | follow p hf => exact h.follow hf
  | spawn p name i hp hi hclear =>
      exact (h.newPcb hs hA p i).goto_plain rfl nofun (by
        rw [show (v.newPcb p i).phase p = .execBody name from hp]; exact id)
  | fork p k hp =>
      obtain ⟨-, -, hku, -⟩ := hs.forking p k hp
      have hpk : p ≠ k := by
        rintro rfl
        rw [hp] at hku
        cases hku
      refine (h.fork hku p).goto_plain rfl nofun ?_
      rw [show (v.fork p k).phase p = v.phase p from Function.update_of_ne hpk _ _, hp]
      exact id
  | join p id k m b hp _ hk hpid _ hb =>
      obtain ⟨hc, hstage⟩ := hjoin p id rfl hp k hk hpid
      have h' := h.setJoinStage hstage (j := .begun) nofun
      have hp' : (v.setJoinStage k .begun).phase p = .user := hp
      have hbegun : (v.setJoinStage k .begun).joinStage k ≠ .collected := by
        simp [View.setJoinStage]
      rcases hb with rfl | rfl <;>
      · refine h'.goto ?_ ?_ nofun (by rw [hp']; nofun) ?_
        · rintro j (⟨⟨⟩⟩ | hj)
          · exact hbegun
          · cases hj
        · rintro id' j ⟨⟩
          exact hc
        · rintro j (hj | ⟨ec, hj⟩) <;> cases hj
  | joinSleep p id k m hp _ =>
      have hown := h.own p k (by rw [hp]; exact Or.inl rfl)
      refine h.goto ?_ ?_ nofun (by rw [hp]; nofun) ?_
      · rintro j (⟨⟨⟩⟩ | hj)
        · exact hown
        · cases hj
      · rintro id' j ⟨⟩
        exact h.creator p id k (by rw [hp]; rfl)
      · rintro j (hj | ⟨ec, hj⟩) <;> cases hj
  | joinPass p id k m hp hpost =>
      have hphase : (v.phase p).joins = some (id, k) ∧ (v.phase p).awaits k
          ∧ (v.phase p).exiting = false := by
        rcases hp with ⟨hp, -⟩ | hp <;> rw [hp] <;> exact ⟨rfl, Or.inl rfl, rfl⟩
      obtain ⟨hjoins, hawaits, hnot⟩ := hphase
      have hmk : m = k := by
        rcases hp with ⟨-, hm⟩ | hp
        · rw [(h.pcbAt_child hs hA hjoins hawaits).1] at hm
          exact (Option.some.inj hm).symm
        · exact hA.joinSleep p id k m hp
      subst hmk
      have hexited := h.posted m (hA.joins p id m hjoins).2.1 hpost
      have h' := (h.setPost hexited (wrap32 (v.post m - 1))).setJoinStage (k := m)
        (h.own p m hawaits) (j := .waited) nofun
      refine h'.goto ?_ ?_ nofun (by
        rw [show ((v.setPost m _).setJoinStage m .waited).phase p = v.phase p from rfl, hnot]
        nofun) ?_
      · rintro j (hj | ⟨⟨⟩⟩)
        · cases hj
        · simp [View.setJoinStage]
      · rintro id' j ⟨⟩
        exact h.creator p id m hjoins
      · rintro j (⟨⟨⟩⟩ | ⟨ec, hj⟩)
        · exact hexited
        · cases hj
  | joinRead p id k j hp hj =>
      have hjoins : (v.phase p).joins = some (id, k) := by rw [hp]; rfl
      have hjk : j = k := by
        rw [(h.pcbAt_child hs hA hjoins (by rw [hp]; exact Or.inr rfl)).1] at hj
        exact (Option.some.inj hj).symm
      subst hjk
      have hcreator := h.creator p id j hjoins
      -- the reader leaves first: then nobody waits for the child it collects
      have hleft : Held (v.goto p (.joinRet id j (v.exitcode j))) := by
        refine h.goto ?_ ?_ nofun (by rw [hp]; nofun) ?_
        · rintro i (hi | hi) <;> cases hi
        · rintro id' i ⟨⟩
          exact hcreator
        · rintro i (hi | ⟨ec, ⟨⟩⟩)
          · cases hi
          · exact h.past p j (by rw [hp]; exact Or.inl rfl)
      have hno : ∀ q, ¬((v.goto p (.joinRet id j (v.exitcode j))).phase q).awaits j := by
        intro q hq
        obtain ⟨id', hq'⟩ := hq.joins
        obtain rfl : p = q := hcreator.symm.trans (hleft.creator q id' j hq')
        rw [show (v.goto p (.joinRet id j (v.exitcode j))).phase p = .joinRet id j (v.exitcode j)
          from Function.update_self _ _ _] at hq
        rcases hq with hq | hq <;> cases hq
      exact ((hleft.collect hno).record (.joinRead p id j (v.exitcode j))).setLeave
        (Function.update_self _ _ _) (wrap32 (v.leave j + 1))
  | joinRet p id k ec hp =>
      exact (h.record _).goto_plain rfl nofun (by
        rw [show (v.record (.joinReturn p id k ec)).phase p = .joinRet id k ec from hp]; nofun)
  | exit p ec k m b hp _ _ _ hb =>
      rcases hb with rfl | rfl
      · exact ((h.setExitcode k ec).record _).goto_plain rfl nofun (fun _ => rfl)
      · exact ((h.setExitcode k ec).record _).goto_plain rfl nofun (fun _ => rfl)
  | exitRelease p k hp hk =>
      obtain rfl : k = p := hs.eq_of_pcbAt_pid (by rw [hp]; rfl) (by rw [hp]; rfl) hk
      exact (h.setPost (by rw [hp]; rfl) _).goto_plain rfl nofun (fun _ => rfl)
  | exitSleep p k hp _ => exact h.goto_plain rfl nofun (fun _ => rfl)
  | exitPass p k hp hleave =>
      have hphase : (v.phase p).exiting = true ∧ (v.phase p).live = true := by
        rcases hp with ⟨hp, -⟩ | hp <;> rw [hp] <;> exact ⟨rfl, rfl⟩
      have hkp : k = p := by
        rcases hp with ⟨-, hk⟩ | hp
        · exact hs.eq_of_pcbAt_pid hphase.2 hphase.1 hk
        · exact hA.exitSleep p k hp
      subst hkp
      have hc := h.collected (hs.lt_next (Phase.live_iff.mp hphase.2).1) (Or.inl hleave)
      exact (h.setLeave hc _).goto_plain rfl (fun _ => hc) (fun _ => rfl)
  | remove p k hp hk _ =>
      obtain rfl : k = p := hs.eq_of_pcbAt_pid (by rw [hp]; rfl) (by rw [hp]; rfl) hk
      have hc := h.collected (hlt hp nofun) (Or.inr hp)
      have h' := h.goto_plain (p := k) (b := .gone) rfl (fun _ => hc) (fun _ => rfl)
      exact { h' with }
  | removeNull p hp hnull =>
      rw [hs.pcbAt_pid (hs.ne_zero_of_exiting (by rw [hp]; rfl)) (by rw [hp]; rfl)] at hnull
      cases hnull

end Held

/-! ## Runs -/

structure CarefulInv (v : View) : Prop where
  slots : SlotInv 0 v
  args : Args v
  held : Held v

namespace CarefulInv

variable {v v' : View} {a : Action}

theorem init (name : String) : CarefulInv (State.init name 0).view := by
  have hj := JoinInv.init name 0
  have hphase : ∀ p, (State.init name 0).view.phase p = .user
      ∨ (State.init name 0).view.phase p = .unborn := by
    intro p
    by_cases hp : p = 0
    · subst hp
      exact Or.inl rfl
    · exact Or.inr (hj.slots.fresh p (Nat.one_le_iff_ne_zero.mpr hp))
  have hjoins : ∀ p, ((State.init name 0).view.phase p).joins = none := by
    intro p
    rcases hphase p with hp | hp <;> rw [hp] <;> rfl
  refine ⟨hj.slots, hj.args, ?_⟩
  constructor
  case own => exact fun p k hp => absurd hp (Phase.not_awaits (hjoins p) k)
  case creator =>
    intro p id k hp
    rw [hjoins p] at hp
    cases hp
  case kept =>
    intro k hk _
    obtain rfl : k = 0 := Nat.lt_one_iff.mp hk
    exact ⟨rfl, nofun, nofun⟩
  case posted =>
    intro k hk hne
    obtain rfl : k = 0 := Nat.lt_one_iff.mp hk
    exact absurd rfl hne
  case past => exact fun p k hp => absurd hp (Phase.not_past (hjoins p) k)

/-- What a careful `Join` that passes the check is for. -/
theorem child_of_careful {s : State} (h : CarefulInv s.view) (hc : Careful s a) :
    ∀ p id, a = .join p id → s.view.phase p = .user → ∀ k, s.view.pcbAt id = some k →
      s.view.pid p = s.view.parentID k →
      k ≠ 0 ∧ k < s.view.next ∧ (s.view.slotOf k : Int) = id
        ∧ s.view.creator k = p ∧ s.view.joinStage k ≠ .collected := by
  rintro p id rfl hp k hk hpid
  obtain ⟨hnames, hstage⟩ := hc
  obtain ⟨hkn, hslot⟩ := h.slots.pcbAt_eq_some hk
  have hcreator : s.creator k = p := by
    rcases hnames with hneg | ⟨j, hj, hown⟩
    · omega
    · obtain rfl : k = j := Option.some.inj (hk.symm.trans hj)
      exact (hown hpid.symm).1
  exact ⟨h.slots.ne_zero_of_parentID (by rw [hp]; nofun) hpid, hkn, hslot, hcreator,
    hstage k hk hcreator⟩

theorem step {s : State} (h : CarefulInv s.view) (hc : Careful s a) (hm : Moves s.view a v') :
    CarefulInv v' := by
  have hchild := h.child_of_careful hc
  refine ⟨(h.slots.step hm).resolve_right fun hf => hf.1 rfl, ?_, ?_⟩
  · refine h.args.step h.slots ?_ ?_ hm
    · exact fun p id k hj hw => (h.held.pcbAt_child h.slots h.args hj (Or.inl hw)).1
    · intro p id ha hp k hk hpid
      obtain ⟨hk0, hkn, hslot, -⟩ := hchild p id ha hp k hk hpid
      exact ⟨hk0, hkn, hslot⟩
  · refine h.held.step h.slots h.args hm ?_
    intro p id ha hp k hk hpid
    obtain ⟨-, -, -, hown⟩ := hchild p id ha hp k hk hpid
    exact hown

theorem awaitsChild {s : State} (h : CarefulInv s.view)
    (hdel : ∀ k, (s.obj k).deleted = true → (s.thr k).phase = .gone) : AwaitsChild s := by
  constructor
  case own =>
    intro p id k hj
    exact ⟨(h.args.joins p id k hj).1, h.held.creator p id k hj⟩
  case there =>
    intro p id k hj
    have hchild : (s.view.phase p).awaits k → s.pcbAt id = some k ∧ (s.obj k).deleted = false := by
      intro hp
      obtain ⟨hat, hg⟩ := h.held.pcbAt_child h.slots h.args hj hp
      exact ⟨hat, Bool.eq_false_iff.mpr fun hd => hg (hdel k hd)⟩
    have hawaits : (∃ ec, (s.thr p).phase = .joinRet id k ec) ∨ (s.view.phase p).awaits k := by
      change _ ∨ ((s.thr p).phase).awaits k
      cases hp : (s.thr p).phase <;> rw [hp] at hj <;> cases hj
      case joinInc => exact Or.inr (Or.inl rfl)
      case joinIncd => exact Or.inr (Or.inl rfl)
      case joinWait => exact Or.inr (Or.inl rfl)
      case joinSleep => exact Or.inr (Or.inl rfl)
      case joinRead => exact Or.inr (Or.inr rfl)
      case joinRet => exact Or.inl ⟨_, rfl⟩
    exact hawaits.imp_right hchild
  case asleep => exact h.args.joinSleep
  case exited =>
    intro p id k hp
    refine h.held.past p k ?_
    change ((s.thr p).phase).past k
    rcases hp with hp | ⟨ec, hp⟩ <;> rw [hp]
    · exact Or.inl rfl
    · exact Or.inr ⟨ec, rfl⟩

end CarefulInv

/-- **Join's argument.** In every reachable state `Join(id)` answers as it
should exactly for the numbers of `Names`; and in every run in which all
calls are for such numbers, and none for a child already collected, whoever
is in `JoinUpdate` waits for its child. -/
theorem join_validates_iff (name : String) :
    (∀ s, Reach step Any (State.init name 0) s → s.stop = none → ∀ p, s.inUser p → ∀ id,
      (Validates s p id ↔ Names s p id))
    ∧ ∀ s, Reach step Careful (State.init name 0) s → AwaitsChild s := by
  constructor
  · intro s hs hrun p hp id
    have hcaller : Caller s p := ⟨hrun, hp, SlotInv.reach hs, gone_of_deleted hs⟩
    exact ⟨hcaller.names, hcaller.validates⟩
  · intro s hs
    have hinv : CarefulInv s.view := by
      refine Reach.invariant (I := fun s => CarefulInv s.view) (CarefulInv.init name) ?_ hs
      intro s a s' _ hi hc hstep
      rcases view_step hstep with heq | hm
      · rw [heq]
        exact hi
      · exact hi.step hc hm
    exact hinv.awaitsChild (gone_of_deleted hs)

instance (s : State) (p : Nat) (id : Int) : Decidable (Names s p id) :=
  inferInstanceAs (Decidable (id < 0 ∨ ∃ k ∈ s.pcbAt id, ((s.obj k).parentID
    = (s.thr p).processID → s.creator k = p ∧ (s.obj k).deleted = false)))

instance (s : State) : DecidablePred (Careful s)
  | .join p id => inferInstanceAs (Decidable (Names s p id
      ∧ ∀ k ∈ s.pcbAt id, s.creator k = p → s.joinStage k ≠ .collected))
  | .exec _ _ _ | .exit _ _ | .load _ _ | .go _ _ => .isTrue trivial

/-- The child is in slot 1 when its parent joins it, and its parent asleep
on its semaphore after that. -/
theorem join_validates_child :
    (∃ s, Reach step Any (State.init "shell" 0) s ∧ LiveChild s 0 1 1 ∧ Validates s 0 1
      ∧ Validates s 0 (-1))
    ∧ ∃ s, Reach step Careful (State.init "shell" 0) s ∧ AwaitsChild s
      ∧ (s.thr 0).phase = .joinSleep 1 1 1 := by
  constructor
  · have hrun : (exec step Any (State.init "shell" 0) (execRun 0 "job")).map (fun s =>
        (s.stop, (s.thr 0).phase, s.pcbAt 1, s.creator 1, (s.obj 1).deleted))
        = some (none, .user, some 1, 0, false) := rfl
    obtain ⟨s, hs, heq⟩ := Option.map_eq_some_iff.mp hrun
    obtain ⟨hstop, huser, hpcb, hcreator, hdel⟩ : s.stop = none ∧ (s.thr 0).phase = .user
        ∧ s.pcbAt 1 = some 1 ∧ s.creator 1 = 0 ∧ (s.obj 1).deleted = false := by
      simpa only [Prod.mk.injEq] using heq
    have hreach := Reach.of_exec _ hs
    have hiff := (join_validates_iff "shell").1 s hreach hstop 0 huser
    exact ⟨s, hreach, ⟨hpcb, by decide, hcreator, hdel⟩,
      (hiff 1).mpr (Or.inr ⟨1, hpcb, fun _ => ⟨hcreator, hdel⟩⟩),
      (hiff (-1)).mpr (Or.inl (by decide))⟩
  · have hrun : (exec step Careful (State.init "shell" 0) (execRun 0 "job" ++ [.load 1 true,
        .join 0 1, .go 0 zeroHeap, .go 0 zeroHeap])).map (fun s => (s.thr 0).phase)
        = some (.joinSleep 1 1 1) := rfl
    obtain ⟨s, hs, hphase⟩ := Option.map_eq_some_iff.mp hrun
    have hreach := Reach.of_exec _ hs
    exact ⟨s, hreach, (join_validates_iff "shell").2 s hreach, hphase⟩

/-- The numbers of no slot, of a slot never used and of the removed child 1
are not refused: the first two calls follow a bad pointer at once, the third
one when it gets to the deleted semaphore. -/
theorem join_follows_bad_slot :
    ¬Validates (State.init "shell" 0) 0 10 ∧ ¬Validates (State.init "shell" 0) 0 5
      ∧ (step (State.init "shell" 0) (.join 0 10)).map State.stop = some (some .crash)
      ∧ (step (State.init "shell" 0) (.join 0 5)).map State.stop = some (some .crash)
      ∧ ∃ s, Reach step Any (State.init "shell" 0) s ∧ .removed 1 ∈ s.log ∧ ¬Validates s 0 1
        ∧ (exec step Any s [.join 0 1, .go 0 zeroHeap, .go 0 zeroHeap]).map State.stop
          = some (some .crash) := by
  have hinit : Caller (State.init "shell" 0) 0 := ⟨rfl, rfl, SlotInv.init "shell" 0, nofun⟩
  refine ⟨fun h => absurd (hinit.names h) (by decide), fun h => absurd (hinit.names h) (by decide),
    rfl, rfl, ?_⟩
  have hrun : (exec step Any (State.init "shell" 0) joinRun).map (fun s =>
      (s.stop, (s.thr 0).phase, s.log.head?, decide (Names s 0 1),
        (exec step Any s [.join 0 1, .go 0 zeroHeap, .go 0 zeroHeap]).map State.stop))
      = some (none, .user, some (.removed 1), false, some (some .crash)) := rfl
  obtain ⟨s, hs, heq⟩ := Option.map_eq_some_iff.mp hrun
  obtain ⟨hstop, huser, hlog, hnames, hcrash⟩ : s.stop = none ∧ (s.thr 0).phase = .user
      ∧ s.log.head? = some (.removed 1) ∧ decide (Names s 0 1) = false
      ∧ (exec step Any s [.join 0 1, .go 0 zeroHeap, .go 0 zeroHeap]).map State.stop
        = some (some .crash) := by
    simpa only [Prod.mk.injEq] using heq
  have hreach := Reach.of_exec _ hs
  have hcaller : Caller s 0 := ⟨hstop, huser, SlotInv.reach hreach, gone_of_deleted hreach⟩
  exact ⟨s, hreach, List.mem_of_mem_head? hlog,
    fun h => of_decide_eq_false hnames (hcaller.names h), hcrash⟩

end PTable

end Nachos
