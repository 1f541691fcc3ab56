import Nachos.JoinExit

/-!
# Parents outlive their children, if they wait for them

Nothing in `ExitUpdate` looks at the children of the process that exits. A
parent that is joined by its own parent is removed while its children are
still there: their `parentID` then names a slot that is free or somebody
else's, `pcb[pcb[id]->parentID]` in their `ExitUpdate` leads to a `PCB`
whose semaphores are deleted, and nobody is left who would let them go
(`parent_removed_first`).

What does hold is a property of well-behaved processes (`Patient`): if
every `Exit` is called only once the caller's children have all left the
table, and no child is joined a second time, then parents are where their
children look for them (`parents_live`).
-/

namespace Nachos

open CInt Run
open Rendezvous (Stage)

namespace PTable

/-! ## The condition and the property -/

/-- A `Join` that passes the check of `JoinUpdate` is the first one for a
child of the caller, and `Exit` is called when no child of the caller is
left in the table (or by the first program, which it halts). -/
def Patient (s : State) : Action → Prop
  | .join p id => ∀ k, s.pcbAt id = some k → (s.thr p).processID = (s.obj k).parentID →
      s.creator k = p ∧ s.joinStage k = .idle
  | .exit p _ => (s.thr p).processID ≠ 0 →
      ∀ k, k < s.next → k ≠ 0 → s.creator k = p → (s.thr k).phase = .gone
  | _ => True

/-- `p` can let `k` go: it is there and not exiting itself, a `Join` of `k`
by it is under way or would be accepted, and it is not asleep on a semaphore
that has been deleted. -/
structure CanRelease (s : State) (p k : Nat) : Prop where
  live : (s.thr p).phase.live = true ∧ (s.thr p).phase.exiting = false
  accepted : s.pcbAt (s.slotOf k) = some k ∧ (s.thr p).processID = (s.obj k).parentID
    ∧ (s.obj k).deleted = false
  unjoined : s.joinStage k = .idle ∨ (s.thr p).phase.joins = some ((s.slotOf k : Int), k)
  awake : ∀ id j, (s.thr p).phase.joins = some (id, j) →
    (∃ ec, (s.thr p).phase = .joinRet id j ec) ∨ (s.obj j).deleted = false

/-- Every slot in use but the first has a parent slot in use, holding the
live process that executed the `Exec`; and whoever is in `ExitWait` has been
let go already or has a parent that can do it. -/
structure ParentOK (s : State) : Prop where
  parent : ∀ i, i ≠ 0 → i < maxProcess → s.bm.testBit i = true →
    ∃ k j : Nat, s.pcb i = some k ∧ k ≠ 0 ∧ (s.obj k).parentID = j ∧ j < maxProcess
      ∧ s.bm.testBit j = true ∧ s.pcb j = some (s.creator k)
      ∧ (s.thr (s.creator k)).phase.live = true
  release : ∀ k, (s.thr k).phase = .exitWait ∨ (∃ m, (s.thr k).phase = .exitSleep m) →
    (s.sem (.exitsem k)).value = 1 ∨ CanRelease s (s.creator k) k

/-! ## What a move does to phases -/

section Effects

variable {g : Int} {v v' : View} {a : Action}

theorem Moves.gone (hs : SlotInv g v) (hm : Moves v a v') {k : Nat} (hk : v.phase k = .gone) :
    v'.phase k = .gone := by
  obtain ⟨p, hp⟩ := hm.moved hs
  have hkp : k ≠ p := by
    rintro rfl
    have hlive := hp.live
    rw [hk] at hlive
    cases hlive
  rcases hp.others k hkp with he | ⟨hu, _⟩
  · rw [he, hk]
  · rw [hk] at hu
    cases hu

theorem Moves.exiting (hs : SlotInv g v) (hm : Moves v a v') {k : Nat}
    (hk : (v'.phase k).exiting = true) : (v.phase k).exiting = true ∨ ∃ ec, a = .exit k ec := by
  obtain ⟨p, hp⟩ := hm.moved hs
  by_cases hkp : k = p
  · subst hkp
    exact hp.exiting hk
  · rcases hp.others k hkp with he | ⟨_, he⟩
    · rw [he] at hk
      exact Or.inl hk
    · rw [he] at hk
      cases hk

/-- Children are only added, by processes that are not exiting. -/
theorem Moves.children (hm : Moves v a v') {k : Nat} (hk : k < v'.next) :
    (k < v.next ∧ v'.creator k = v.creator k)
      ∨ (v.phase (v'.creator k)).exiting = false ∧ (v'.phase (v'.creator k)).exiting = false := by
  cases hm with
  | spawn p name i hp _ _ =>
      rcases Nat.lt_succ_iff_lt_or_eq.mp hk with hk | rfl
      · exact Or.inl ⟨hk, Function.update_of_ne (Nat.ne_of_lt hk) _ _⟩
      · refine Or.inr ?_
        rw [show ((v.newPcb p i).goto p (.execFork v.next)).creator v.next = p from
          Function.update_self _ _ _, hp]
        refine ⟨rfl, ?_⟩
        rw [show ((v.newPcb p i).goto p (.execFork v.next)).phase p = .execFork v.next from
          Function.update_self _ _ _]
        rfl
  | _ => exact Or.inl ⟨hk, rfl⟩

theorem Moves.deleted (hs : SlotInv g v) (hm : Moves v a v') {k : Nat}
    (hk : v'.deleted k = true) : v.deleted k = true ∨ v'.phase k = .gone := by
  cases hm with
  | spawn p name i hp _ _ =>
      by_cases hkn : k = v.next
      · subst hkn
        simp [View.goto, View.newPcb] at hk
      · exact Or.inl (by simpa [View.goto, View.newPcb, hkn] using hk)
  | remove p j hp hj _ =>
      obtain rfl : j = p := hs.eq_of_pcbAt_pid (by rw [hp]; rfl) (by rw [hp]; rfl) hj
      by_cases hkj : k = j
      · subst hkj
        exact Or.inr (Function.update_self _ _ _)
      · exact Or.inl (by simpa [View.goto, View.remove, hkj] using hk)
  | _ => exact Or.inl hk

end Effects

/-! ## The invariant -/

structure LiveInv (v : View) : Prop where
  join : JoinInv 0 v
  done : ∀ k, k ≠ 0 → k < v.next → (v.phase (v.creator k)).exiting = true → v.phase k = .gone
  deleted : ∀ k, v.deleted k = true → v.phase k = .gone

namespace LiveInv

variable {v v' : View} {a : Action}

theorem init (name : String) : LiveInv (State.init name 0).view where
  join := JoinInv.init name 0
  done _ hk0 hk _ := absurd (Nat.lt_one_iff.mp hk) hk0
  deleted _ hk := nomatch hk

/-- The first program exits only by halting the machine. -/
theorem pid_ne_zero (h : LiveInv v) {p : Nat} (hp : p ≠ 0) (hu : v.phase p ≠ .unborn) :
    v.pid p ≠ 0 := by
  have hslot := h.join.slots.slot_ne_zero p hp (h.join.slots.lt_next hu)
  have hpid := h.join.slots.pid p hp hu
  omega

theorem permits {s : State} (h : LiveInv s.view) (hp : Patient s a) : Permits s.view a := by
  cases a with
  | join p id =>
      intro hu k hk hpid
      obtain ⟨hkc, hidle⟩ := hp k hk hpid
      obtain ⟨hkn, hslot⟩ := h.join.slots.pcbAt_eq_some hk
      exact ⟨h.join.slots.ne_zero_of_parentID (by rw [hu]; nofun) hpid, hkn, hkc, hslot, hidle⟩
  | exit p ec =>
      intro hpid k hk0 hk hkc
      refine h.join.proto.counters.granted k ?_
      rw [abs_status hk, show s.view.phase k = .gone from hp hpid k hk hk0 hkc]
      trivial
  | exec p name opens => trivial
  | load p ok => trivial
  | go p heap => trivial

theorem step {s : State} (h : LiveInv s.view) (hp : Patient s a) (hm : Moves s.view a v') :
    LiveInv v' := by
  have hslots := h.join.slots
  have hjoin : JoinInv 0 v' := h.join.step hm (h.permits hp) fun hf => hf.1 rfl
  refine ⟨hjoin, ?_, ?_⟩
  · intro k hk0 hk hx
    rcases hm.children hk with ⟨hkn, hc⟩ | ⟨_, hx'⟩
    · have hc0 : v'.creator k ≠ 0 := hjoin.slots.ne_zero_of_exiting hx
      rw [hc] at hx hc0
      refine hm.gone hslots ?_
      rcases hm.exiting hslots hx with hold | ⟨ec, rfl⟩
      · exact h.done k hk0 hkn hold
      · have hu := (hslots.creator k hk0 hkn).2
        exact hp (h.pid_ne_zero hc0 hu) k hkn hk0 rfl
    · rw [hx'] at hx
      cases hx
  · intro k hk
    rcases hm.deleted hslots hk with hold | hg
    · exact hm.gone hslots (h.deleted k hold)
    · exact hg

/-- The parent of a process that has not left the table. -/
theorem parent_live (h : LiveInv v) {k : Nat} (hk0 : k ≠ 0) (hk : k < v.next)
    (hg : v.phase k ≠ .gone) :
    (v.phase (v.creator k)).live = true ∧ (v.phase (v.creator k)).exiting = false := by
  have hu := (h.join.slots.creator k hk0 hk).2
  have hx : (v.phase (v.creator k)).exiting = false :=
    Bool.eq_false_iff.mpr fun he => hg (h.done k hk0 hk he)
  refine ⟨Phase.live_iff.mpr ⟨hu, ?_⟩, hx⟩
  intro he
  rw [he] at hx
  cases hx

theorem parentID_eq (h : LiveInv v) {k : Nat} (hk0 : k ≠ 0) (hk : k < v.next) :
    v.parentID k = v.slotOf (v.creator k) := by
  rw [h.join.slots.parentID k hk0 hk]
  by_cases hc : v.creator k = 0
  · rw [hc, h.join.slots.zero_pid, h.join.slots.zero_slot]
    rfl
  · exact h.join.slots.pid _ hc (h.join.slots.creator k hk0 hk).2

theorem joins_parent (h : LiveInv v) {p k : Nat} (hp : v.abs.status p = .waiting k
    ∨ v.abs.status p = .reading k) : p = v.creator k
      ∧ (v.phase p).joins = some ((v.slotOf k : Int), k) := by
  have hpar : v.abs.parent k = some p := by
    rcases hp with hp | hp
    · exact (h.join.proto.links.waiting p k hp).1
    · exact (h.join.proto.links.reading p k hp).1
  obtain ⟨_, _, hc⟩ := abs_parent.mp hpar
  refine ⟨hc.symm, ?_⟩
  have hpn : p < v.next := by
    by_contra hlt
    have habs : v.abs.status p = .absent := if_neg hlt
    rw [habs] at hp
    rcases hp with hp | hp <;> cases hp
  rw [abs_status hpn] at hp
  obtain ⟨id, hj⟩ : ∃ id, (v.phase p).joins = some (id, k) := by
    cases hph : v.phase p <;> rw [hph] at hp <;> rcases hp with hp | hp <;> cases hp <;>
      exact ⟨_, rfl⟩
  rw [hj, (h.join.args.joins p id k hj).2.2]

theorem canRelease {s : State} (h : LiveInv s.view) {k : Nat} (hk0 : k ≠ 0) (hk : k < s.next)
    (hg : (s.thr k).phase ≠ .gone) (hc : s.joinStage k ≠ .collected) :
    CanRelease s (s.creator k) k := by
  have hslots := h.join.slots
  constructor
  case live => exact h.parent_live hk0 hk hg
  case accepted =>
    refine ⟨hslots.pcbAt_slotOf hk hg, (hslots.parentID k hk0 hk).symm, ?_⟩
    exact Bool.eq_false_iff.mpr fun hd => hg (h.deleted k hd)
  case unjoined =>
    cases hstage : s.joinStage k with
    | idle => exact Or.inl rfl
    | begun =>
        obtain ⟨p, hp⟩ := h.join.proto.links.begun k hstage
        obtain ⟨rfl, hj⟩ := h.joins_parent (Or.inl hp)
        exact Or.inr hj
    | waited =>
        obtain ⟨p, hp⟩ := h.join.proto.links.waited k hstage
        obtain ⟨rfl, hj⟩ := h.joins_parent (Or.inr hp)
        exact Or.inr hj
    | collected => exact absurd hstage hc
  case awake =>
    intro id j hj
    rcases h.join.joining hj with hret | ⟨_, hjg⟩
    · exact Or.inl hret
    · exact Or.inr (Bool.eq_false_iff.mpr fun hd => hjg (h.deleted j hd))

theorem parentOK {s : State} (h : LiveInv s.view) : ParentOK s := by
  have hslots := h.join.slots
  constructor
  case parent =>
    intro i hi0 hi hbit
    obtain ⟨k, hk, rfl, hg⟩ := hslots.occupied i hi hbit
    have hk0 : k ≠ 0 := by
      rintro rfl
      exact hi0 hslots.zero_slot
    have hlive := (h.parent_live hk0 hk hg).1
    have hcn : s.creator k < s.next := (hslots.creator k hk0 hk).1.trans hk
    have hcg := (Phase.live_iff.mp hlive).2
    exact ⟨k, s.slotOf (s.creator k), hslots.holds k hk hg, hk0, h.parentID_eq hk0 hk,
      hslots.slot_lt _ hcn, hslots.bit _ hcn hcg, hslots.holds _ hcn hcg, hlive⟩
  case release =>
    intro k hk
    have hposted : (s.thr k).phase.status = .posted ∧ (s.thr k).phase.exiting = true
        ∧ (s.thr k).phase.live = true := by
      rcases hk with hk | ⟨m, hk⟩ <;> rw [hk] <;> exact ⟨rfl, rfl, rfl⟩
    obtain ⟨hst, hx, hlive⟩ := hposted
    obtain ⟨hu, hg⟩ := Phase.live_iff.mp hlive
    have hk0 := hslots.ne_zero_of_exiting hx
    have hkn := hslots.lt_next hu
    by_cases hc : s.joinStage k = .collected
    · refine Or.inl ?_
      have hleave := h.join.proto.counters.leave k (abs_status_ne_absent hkn)
      rw [abs_status hkn, show (s.view.phase k).status = .posted from hst,
        if_pos (show s.view.abs.stage k = .collected from hc)] at hleave
      exact hleave
    · exact Or.inr (h.canRelease hk0 hkn hg hc)

end LiveInv

/-- **Parent liveness.** In every run of patient processes, with the first
program's `processID` zeroed, every process in the table finds its parent
there, and none waits in `ExitWait` for somebody who is gone. -/
theorem parents_live {name : String} {s : State}
    (h : Reach step Patient (State.init name 0) s) : ParentOK s := by
  refine (Reach.invariant (I := fun s => LiveInv s.view) (LiveInv.init name) ?_ h).parentOK
  intro s a s' _ hi hp hs
  rcases view_step hs with heq | hm
  · rw [heq]
    exact hi
  · exact hi.step hp hm

instance (s : State) : DecidablePred (Patient s)
  | .join p id => inferInstanceAs (Decidable (∀ k ∈ s.pcbAt id,
      (s.thr p).processID = (s.obj k).parentID → s.creator k = p ∧ s.joinStage k = .idle))
  | .exit p _ => inferInstanceAs (Decidable ((s.thr p).processID ≠ 0 →
      ∀ k, k < s.next → k ≠ 0 → s.creator k = p → (s.thr k).phase = .gone))
  | .exec _ _ _ | .load _ _ | .go _ _ => .isTrue trivial

/-- The child is asleep in `ExitWait` before its parent has called `Join`. -/
theorem parents_live_child_waits :
    ∃ s, Reach step Patient (State.init "shell" 0) s ∧ ParentOK s
      ∧ (s.thr 1).phase = .exitSleep 1 ∧ (s.sem (.exitsem 1)).value = 0 := by
  have hrun : (exec step Patient (State.init "shell" 0)
      (execRun 0 "job" ++ [.load 1 true, .exit 1 42, .go 1 zeroHeap, .go 1 zeroHeap,
        .go 1 zeroHeap])).map (fun s => ((s.thr 1).phase, (s.sem (.exitsem 1)).value))
      = some (.exitSleep 1, 0) := rfl
  obtain ⟨s, hs, heq⟩ := Option.map_eq_some_iff.mp hrun
  have hreach := Reach.of_exec _ hs
  exact ⟨s, hreach, parents_live hreach, congrArg Prod.fst heq, congrArg Prod.snd heq⟩

/-- Process 1 starts process 2 and exits; its parent joins it. -/
def orphanRun : List Action :=
  execRun 0 "job" ++ [.load 1 true] ++ execRun 1 "task" ++ [.load 2 true, .exit 1 0,
    .go 1 zeroHeap, .go 1 zeroHeap, .go 1 zeroHeap, .join 0 1, .go 0 zeroHeap, .go 0 zeroHeap,
    .go 0 zeroHeap, .go 1 zeroHeap, .go 1 zeroHeap]

/-- Slot 2 is in use with parent slot 1, slot 1 is free, and the `Exit` of
process 2 uses the deleted `multex` of its removed parent. -/
theorem parent_removed_first :
    ∃ s, Reach step Any (State.init "shell" 0) s ∧ ¬ ParentOK s
      ∧ s.bm.testBit 2 = true ∧ s.bm.testBit 1 = false
      ∧ (step s (.exit 2 0)).map State.stop = some (some .crash) := by
  have hrun : (exec step Any (State.init "shell" 0) orphanRun).map (fun s =>
      (s.bm.testBit 2, s.pcb 2, (s.obj 2).parentID, s.bm.testBit 1,
        (step s (.exit 2 0)).map State.stop))
      = some (true, some 2, 1, false, some (some .crash)) := rfl
  obtain ⟨s, hs, heq⟩ := Option.map_eq_some_iff.mp hrun
  obtain ⟨h2, hpcb, hpar, h1, hstop⟩ : s.bm.testBit 2 = true ∧ s.pcb 2 = some 2
      ∧ (s.obj 2).parentID = 1 ∧ s.bm.testBit 1 = false
      ∧ (step s (.exit 2 0)).map State.stop = some (some .crash) := by
    simpa only [Prod.mk.injEq] using heq
  refine ⟨s, Reach.of_exec _ hs, fun hok => ?_, h2, h1, hstop⟩
  obtain ⟨k, j, hk, _, hj, _, hbit, _⟩ := hok.parent 2 (by decide) (by decide) h2
  rw [hpcb] at hk
  obtain rfl := Option.some.inj hk
  rw [hpar] at hj
  obtain rfl : j = 1 := by omega
  rw [h1] at hbit
  cases hbit

end PTable

end Nachos
