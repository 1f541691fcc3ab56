import Nachos.ProcessIdentity
import Nachos.RendezvousSteps

/-!
# Join and Exit

The table runs the protocol of `Nachos.Rendezvous`: `joinsem` is the counter
a child posts to and `exitsem` the one its parent lets it leave with. The
abstraction `View.abs` forgets slots, the `numwait` bookkeeping and the
order of the source's calls, and keeps for each process where it is in the
protocol. `View.abs_step` is the refinement: under the slot discipline each
move of the table is a step of the protocol or no step at all, as long as
the processes keep the two promises the protocol asks for (`Permits`).

The pointers are where the two levels could part. `JoinUpdate` reads
`pcb[id]` again after each of its sleeps, so that it still finds its child
there has to be known at each of these points; it follows from the
protocol's own invariant, because a child that is waited for has not been
let go and so still holds its slot (`JoinInv.pcbAt_child`).

The first program needs a word. If the heap gives it a `processID` other
than 0 it is not stopped by its own `Exit` and works on somebody else's
`PCB`. By then every other process has been collected (`all_collected`),
so nothing that `Join` returns can still change: `Closing` describes what
is left.
-/

namespace Nachos

open CInt Run
open Rendezvous (Stage)

namespace PTable

/-! ## The abstraction -/

def Phase.status : Phase → Rendezvous.Status Nat Int
  | .joinInc _ k _ | .joinIncd _ k _ | .joinWait _ k | .joinSleep _ k _ => .waiting k
  | .joinRead _ k => .reading k
  | .joinRet _ k ec => .returning k ec
  | .exitDec _ | .exitDecd _ | .exitRelease => .exiting
  | .exitWait | .exitSleep _ => .posted
  | .exitRemove => .leaving
  | .gone => .gone
  | .unborn | .start | .user | .execP _ | .execBody _ | .execFork _ | .execUnlock _ | .execV _
  | .ret _ => .running

def Event.abs : Event → Option (Rendezvous.Event Nat Int)
  | .exec _ _ _ => none
  | .exit k ec => some (.exited k ec)
  | .joinRead p _ k ec => some (.read p k ec)
  | .joinReturn p _ k ec => some (.returned p k ec)
  | .removed k => some (.removed k)

def View.abs (v : View) : Rendezvous.State Nat Int where
  status k := if k < v.next then (v.phase k).status else .absent
  parent k := if k ≠ 0 ∧ k < v.next then some (v.creator k) else none
  stage := v.joinStage
  code := v.exitcode
  post := v.post
  leave := v.leave
  log := v.log.filterMap Event.abs

section Abs

variable {v : View} {p k : Nat}

theorem abs_status (hk : k < v.next) : v.abs.status k = (v.phase k).status := if_pos hk

theorem abs_parent : v.abs.parent k = some p ↔ k ≠ 0 ∧ k < v.next ∧ v.creator k = p := by
  unfold View.abs
  dsimp only
  split
  · rename_i h
    rw [Option.some.injEq]
    exact ⟨fun he => ⟨h.1, h.2, he⟩, fun he => he.2.2⟩
  · rename_i h
    exact ⟨nofun, fun he => absurd ⟨he.1, he.2.1⟩ h⟩

theorem abs_goto (hp : p < v.next) (b : Phase) :
    (v.goto p b).abs = { v.abs with status := Function.update v.abs.status p b.status } := by
  refine congrArg (fun f => { v.abs with status := f }) (funext fun k => ?_)
  by_cases hk : k = p
  · subst hk
    simp [View.goto, hp]
  · simp [View.goto, View.abs, hk]

theorem abs_status_ne_absent (hk : k < v.next) : v.abs.status k ≠ .absent := by
  rw [abs_status hk]
  cases v.phase k <;> exact nofun

theorem Follows.status_eq {a b : Phase} (h : Follows a b) : b.status = a.status := by
  cases h <;> rfl

theorem Phase.ended_iff_exiting (b : Phase) : b.status.ended ↔ b.exiting = true := by
  cases b <;> simp [Phase.status, Phase.exiting, Rendezvous.Status.ended]

theorem abs_newPcb (hp : p < v.next) (hn : v.phase v.next = .unborn) (hn0 : v.next ≠ 0) (i : Nat)
    {b : Phase} (hb : b.status = (v.phase p).status) :
    ((v.newPcb p i).goto p b).abs =
      { v.abs with
        status := Function.update v.abs.status v.next .running
        parent := Function.update v.abs.parent v.next (some p)
        code := Function.update v.abs.code v.next 0
        post := Function.update v.abs.post v.next 0
        leave := Function.update v.abs.leave v.next 0 } := by
  have hstatus : ((v.newPcb p i).goto p b).abs.status
      = Function.update v.abs.status v.next .running := by
    funext k
    rw [abs_goto (Nat.lt_succ_of_lt hp)]
    by_cases hkn : k = v.next
    · subst hkn
      simp [View.abs, View.newPcb, Nat.ne_of_gt hp, hn, Phase.status]
    · by_cases hkp : k = p
      · subst hkp
        simp [View.abs, hkn, hp, hb]
      · have hiff : k < v.next + 1 ↔ k < v.next := by omega
        simp only [View.abs, View.newPcb, hkn, hkp, hiff, ne_eq, not_false_eq_true,
          Function.update_of_ne]
  have hparent : ((v.newPcb p i).goto p b).abs.parent
      = Function.update v.abs.parent v.next (some p) := by
    funext k
    by_cases hkn : k = v.next
    · subst hkn
      simp [View.abs, View.newPcb, View.goto, hn0]
    · have hiff : k < v.next + 1 ↔ k < v.next := by omega
      simp only [View.abs, View.newPcb, View.goto, hkn, hiff, ne_eq, not_false_eq_true,
        Function.update_of_ne]
  rw [← hstatus, ← hparent]
  rfl

theorem abs_fork (hp : v.phase p = .execFork k) (hpn : p < v.next) (hpk : p ≠ k)
    (hk : v.phase k = .unborn) :
    ((v.fork p k).goto p (.execUnlock k)).abs = v.abs := by
  refine congrArg (fun f => { v.abs with status := f }) (funext fun j => ?_)
  by_cases hjp : j = p
  · subst hjp
    simp [View.goto, View.fork, hp, Phase.status]
  · by_cases hjk : j = k
    · subst hjk
      simp [View.goto, View.fork, hjp, hk, Phase.status]
    · simp [View.goto, View.fork, hjp, hjk]

theorem abs_goto_same (hp : p < v.next) {b : Phase} (hb : b.status = (v.phase p).status) :
    (v.goto p b).abs = v.abs := by
  rw [abs_goto hp, hb, ← abs_status hp, Function.update_eq_self]

end Abs

/-! ## The promises of the processes, and what holds under them -/

/-- What the processes promise: a `Join` that passes the check of
`JoinUpdate` is the first one for a child the caller itself created, and
`Exit` is called by a process that has collected its children. -/
def Permits (v : View) : Action → Prop
  | .join p id => v.phase p = .user → ∀ k, v.pcbAt id = some k → v.pid p = v.parentID k →
      k ≠ 0 ∧ k < v.next ∧ v.creator k = p ∧ (v.slotOf k : Int) = id ∧ v.joinStage k = .idle
  | .exit p _ => v.pid p ≠ 0 →
      ∀ k, k ≠ 0 → k < v.next → v.creator k = p → v.joinStage k = .collected
  | _ => True

/-- The slot and the child of a process inside `JoinUpdate`. -/
def Phase.joins : Phase → Option (Int × Nat)
  | .joinInc id k _ | .joinIncd id k _ | .joinWait id k | .joinSleep id k _ | .joinRead id k
  | .joinRet id k _ => some (id, k)
  | _ => none

structure Args (v : View) : Prop where
  stage : ∀ k, v.next ≤ k → v.joinStage k = .idle
  joins : ∀ p id k, (v.phase p).joins = some (id, k) →
    k ≠ 0 ∧ k < v.next ∧ (v.slotOf k : Int) = id
  joinSleep : ∀ p id k m, v.phase p = .joinSleep id k m → m = k
  exitSleep : ∀ p m, v.phase p = .exitSleep m → m = p
  returned : ∀ p id k ec, .joinReturn p id k ec ∈ v.log →
    k ≠ 0 ∧ k < v.next ∧ (v.slotOf k : Int) = id

theorem Phase.joins_of_exiting {b : Phase} (h : b.exiting = true) : b.joins = none := by
  cases b <;> first | rfl | cases h

theorem Follows.joins_eq {a b : Phase} (h : Follows a b) : b.joins = a.joins := by
  cases h <;> rfl

theorem Follows.awake {a b : Phase} (h : Follows a b) :
    (∀ id k m, b ≠ .joinSleep id k m) ∧ ∀ m, b ≠ .exitSleep m := by
  cases h <;> exact ⟨nofun, nofun⟩

/-! ## What a move does to phases -/

/-- The live process `p` moves, and nobody else, but for a thread that is
made. Only `Exit` takes it into `ExitUpdate`, only `Remove` makes it go, and it
leaves `JoinUpdate` only by returning. -/
structure MovedBy (v : View) (a : Action) (v' : View) (p : Nat) : Prop where
  live : (v.phase p).live = true
  others : ∀ k, k ≠ p → v'.phase k = v.phase k ∨ (v.phase k = .unborn ∧ v'.phase k = .start)
  exiting : (v'.phase p).exiting = true → (v.phase p).exiting = true ∨ ∃ ec, a = .exit p ec
  gone : v'.phase p = .gone → v.phase p = .exitRemove
  joins : (v.phase p).joins = none ∨ (v'.phase p).joins = (v.phase p).joins
    ∨ ∃ id k ec, (v.phase p).joins = some (id, k) ∧ v'.log = .joinReturn p id k ec :: v.log

section Moved

variable {g : Int} {v v' : View} {a : Action}

theorem MovedBy.goto {w : View} {p : Nat} {b c : Phase} (hp : v.phase p = c)
    (hw : w.phase = v.phase) (hlive : c.live = true)
    (hexiting : b.exiting = true → c.exiting = true ∨ ∃ ec, a = .exit p ec)
    (hgone : b = .gone → c = .exitRemove)
    (hjoins : c.joins = none ∨ b.joins = c.joins
      ∨ ∃ id k ec, c.joins = some (id, k) ∧ w.log = .joinReturn p id k ec :: v.log) :
    MovedBy v a (w.goto p b) p := by
  subst hp
  have hself : (w.goto p b).phase p = b := Function.update_self ..
  refine ⟨hlive, fun k hk => Or.inl ?_, by rwa [hself], by rwa [hself], by rwa [hself]⟩
  rw [← hw]
  exact Function.update_of_ne hk _ _

theorem Moves.moved (hs : SlotInv g v) (hm : Moves v a v') : ∃ p, MovedBy v a v' p := by
  cases hm with
  | follow p hf =>
      refine ⟨p, .goto rfl rfl hf.live_left ?_ ?_ (Or.inr (Or.inl hf.joins_eq))⟩
      · rw [hf.exiting_eq]
        exact Or.inl
      · rintro rfl
        cases hf.plain_right
  | spawn p name i hp _ _ => exact ⟨p, .goto hp rfl rfl nofun nofun (Or.inl rfl)⟩
  | fork p k hp =>
      obtain ⟨-, -, hku, -⟩ := hs.forking p k hp
      have hself : ((v.fork p k).goto p (.execUnlock k)).phase p = .execUnlock k :=
        Function.update_self ..
      refine ⟨p, by rw [hp]; rfl, fun j hj => ?_, by rw [hself]; nofun,
        by rw [hself]; nofun, by rw [hp]; exact Or.inl rfl⟩
      rw [show ((v.fork p k).goto p (.execUnlock k)).phase j = (v.fork p k).phase j from
        Function.update_of_ne hj _ _]
      by_cases hjk : j = k
      · subst hjk
        exact Or.inr ⟨hku, Function.update_self _ _ _⟩
      · exact Or.inl (Function.update_of_ne hjk _ _)
  | join p id k m b hp _ _ _ _ hb =>
      rcases hb with rfl | rfl
      · exact ⟨p, .goto hp rfl rfl nofun nofun (Or.inl rfl)⟩
      · exact ⟨p, .goto hp rfl rfl nofun nofun (Or.inl rfl)⟩
  | joinSleep p id k m hp _ => exact ⟨p, .goto hp rfl rfl nofun nofun (Or.inr (Or.inl rfl))⟩
  | joinPass p id k m hp _ =>
      rcases hp with ⟨hp, _⟩ | hp
      · exact ⟨p, .goto hp rfl rfl nofun nofun (Or.inr (Or.inl rfl))⟩
      · exact ⟨p, .goto hp rfl rfl nofun nofun (Or.inr (Or.inl rfl))⟩
  | joinRead p id k j hp _ => exact ⟨p, .goto hp rfl rfl nofun nofun (Or.inr (Or.inl rfl))⟩
  | joinRet p id k ec hp =>
      exact ⟨p, .goto hp rfl rfl nofun nofun (Or.inr (Or.inr ⟨id, k, ec, rfl, rfl⟩))⟩
  | exit p ec k m b hp _ _ _ hb =>
      refine ⟨p, .goto hp rfl rfl (fun _ => Or.inr ⟨ec, rfl⟩) ?_ (Or.inl rfl)⟩
      rcases hb with rfl | rfl <;> nofun
  | exitRelease p k hp _ => exact ⟨p, .goto hp rfl rfl (fun _ => Or.inl rfl) nofun (Or.inl rfl)⟩
  | exitSleep p k hp _ => exact ⟨p, .goto hp rfl rfl (fun _ => Or.inl rfl) nofun (Or.inl rfl)⟩
  | exitPass p k hp _ =>
      rcases hp with ⟨hp, _⟩ | hp
      · exact ⟨p, .goto hp rfl rfl (fun _ => Or.inl rfl) nofun (Or.inl rfl)⟩
      · exact ⟨p, .goto hp rfl rfl (fun _ => Or.inl rfl) nofun (Or.inl rfl)⟩
  | remove p k hp _ _ =>
      exact ⟨p, .goto hp rfl rfl (fun _ => Or.inl rfl) (fun _ => rfl) (Or.inl rfl)⟩
  | removeNull p hp _ =>
      exact ⟨p, .goto hp rfl rfl (fun _ => Or.inl rfl) (fun _ => rfl) (Or.inl rfl)⟩

end Moved

namespace Args

variable {v : View} {p k : Nat}

theorem setJoinStage (h : Args v) (hk : k < v.next) (j : Stage) : Args (v.setJoinStage k j) where
  __ := h
  stage i hi := by
    have hik : i ≠ k := fun he => absurd hk (by rw [← he]; exact Nat.not_lt.mpr hi)
    exact (Function.update_of_ne hik _ _).trans (h.stage i hi)

theorem record (h : Args v) {e : Event} (he : ∀ p id k ec, e = .joinReturn p id k ec →
    k ≠ 0 ∧ k < v.next ∧ (v.slotOf k : Int) = id) : Args (v.record e) where
  __ := h
  returned p id k ec hmem := by
    rcases List.mem_cons.mp hmem with heq | hmem
    · exact he p id k ec heq.symm
    · exact h.returned p id k ec hmem

theorem goto (h : Args v) {b : Phase}
    (hj : ∀ id k, b.joins = some (id, k) → k ≠ 0 ∧ k < v.next ∧ (v.slotOf k : Int) = id)
    (hs : ∀ id k m, b = .joinSleep id k m → m = k) (he : ∀ m, b = .exitSleep m → m = p) :
    Args (v.goto p b) := by
  have hphase : ∀ q, (q = p ∧ (v.goto p b).phase q = b) ∨ (v.goto p b).phase q = v.phase q := by
    intro q
    by_cases hq : q = p
    · subst hq
      exact Or.inl ⟨rfl, Function.update_self _ _ _⟩
    · exact Or.inr (Function.update_of_ne hq _ _)
  constructor
  case stage => exact h.stage
  case joins =>
    intro q id k hq
    rcases hphase q with ⟨_, hb⟩ | hb
    · exact hj id k (by rw [← hb]; exact hq)
    · exact h.joins q id k (by rw [← hb]; exact hq)
  case joinSleep =>
    intro q id k m hq
    rcases hphase q with ⟨_, hb⟩ | hb
    · exact hs id k m (hb.symm.trans hq)
    · exact h.joinSleep q id k m (hb.symm.trans hq)
  case exitSleep =>
    intro q m hq
    rcases hphase q with ⟨rfl, hb⟩ | hb
    · exact he m (hb.symm.trans hq)
    · exact h.exitSleep q m (hb.symm.trans hq)
  case returned => exact h.returned

/-- A phase outside `JoinUpdate` and not asleep in `ExitWait`. -/
theorem goto_plain (h : Args v) {b : Phase} (hb : b.joins = none) (hs : ∀ m, b ≠ .exitSleep m) :
    Args (v.goto p b) := by
  refine h.goto ?_ ?_ (fun m hm => absurd hm (hs m))
  · intro id k hj
    rw [hb] at hj
    cases hj
  · rintro id k m rfl
    cases hb

theorem newPcb (h : Args v) (p i : Nat) : Args (v.newPcb p i) := by
  have hold : ∀ {k : Nat} {id : Int}, k ≠ 0 ∧ k < v.next ∧ (v.slotOf k : Int) = id →
      k ≠ 0 ∧ k < v.next + 1 ∧ ((v.newPcb p i).slotOf k : Int) = id := by
    rintro k id ⟨hk0, hk, hslot⟩
    refine ⟨hk0, Nat.lt_succ_of_lt hk, ?_⟩
    rw [show (v.newPcb p i).slotOf k = v.slotOf k from
      Function.update_of_ne (Nat.ne_of_lt hk) _ _]
    exact hslot
  constructor
  case stage => exact fun k hk => h.stage k (Nat.le_of_succ_le hk)
  case joins => exact fun q id k hq => hold (h.joins q id k hq)
  case joinSleep => exact h.joinSleep
  case exitSleep => exact h.exitSleep
  case returned =>
    intro q id k ec hmem
    rcases List.mem_cons.mp hmem with heq | hmem
    · cases heq
    · exact hold (h.returned q id k ec hmem)

theorem fork (h : Args v) (p k : Nat) : Args (v.fork p k) := by
  have h' := h.goto_plain (p := k) (b := .start) rfl nofun
  exact ⟨h'.stage, h'.joins, h'.joinSleep, h'.exitSleep, h'.returned⟩

theorem remove (h : Args v) (p k : Nat) : Args (v.remove p k) := by
  have h' := h.record (e := .removed k) nofun
  exact ⟨h'.stage, h'.joins, h'.joinSleep, h'.exitSleep, h'.returned⟩

/-- A step keeps them as long as a `Join` that passes the check is for the
child in its slot, and a child that is waited for stays there. -/
theorem step {g : Int} {v' : View} {a : Action} (hA : Args v) (hs : SlotInv g v)
    (hchild : ∀ p id k, (v.phase p).joins = some (id, k) → (v.phase p).status = .waiting k →
      v.pcbAt id = some k)
    (hjoin : ∀ p id, a = .join p id → v.phase p = .user → ∀ k, v.pcbAt id = some k →
      v.pid p = v.parentID k → k ≠ 0 ∧ k < v.next ∧ (v.slotOf k : Int) = id)
    (hm : Moves v a v') : Args v' := by
  cases hm with
  | follow p hf =>
      refine hA.goto ?_ ?_ ?_
      · exact fun id k hj => hA.joins p id k (by rw [← hf.joins_eq]; exact hj)
      · exact fun id k m hb => absurd hb (hf.awake.1 id k m)
      · exact fun m hb => absurd hb (hf.awake.2 m)
  | spawn p name i hp hi hclear => exact (hA.newPcb p i).goto_plain rfl nofun
  | fork p k hp => exact (hA.fork p k).goto_plain rfl nofun
  | join p id k m b hp hid hk hpid _ hb =>
      obtain ⟨hk0, hkn, hslot⟩ := hjoin p id rfl hp k hk hpid
      refine (hA.setJoinStage hkn _).goto ?_ ?_ ?_
      · rcases hb with rfl | rfl <;>
        · rintro id' k' ⟨⟩
          exact ⟨hk0, hkn, hslot⟩
      · rcases hb with rfl | rfl <;> exact nofun
      · rcases hb with rfl | rfl <;> exact nofun
  | joinSleep p id k m hp hm =>
      have hjoins : (v.phase p).joins = some (id, k) := by rw [hp]; rfl
      refine hA.goto ?_ ?_ nofun
      · rintro id' k' ⟨⟩
        exact hA.joins p id k hjoins
      · rintro id' k' m' ⟨⟩
        rw [hchild p id k hjoins (by rw [hp]; rfl)] at hm
        exact (Option.some.inj hm).symm
  | joinPass p id k m hp hpost =>
      have hjoins : (v.phase p).joins = some (id, k) := by
        rcases hp with ⟨hp, _⟩ | hp <;> rw [hp] <;> rfl
      have hk := hA.joins p id k hjoins
      have hA' : Args (v.setPost m (wrap32 (v.post m - 1))) := { hA with }
      refine (hA'.setJoinStage hk.2.1 _).goto ?_ nofun nofun
      rintro id' k' ⟨⟩
      exact hk
  | joinRead p id k j hp hj =>
      have hk := hA.joins p id k (by rw [hp]; rfl)
      have hA' : Args (((v.setJoinStage k .collected).record
          (.joinRead p id j (v.exitcode j))).setLeave j (wrap32 (v.leave j + 1))) :=
        { (hA.setJoinStage hk.2.1 .collected).record (e := .joinRead p id j (v.exitcode j)) nofun
          with }
      refine hA'.goto ?_ nofun nofun
      rintro id' k' ⟨⟩
      exact hk
  | joinRet p id k ec hp =>
      refine (hA.record ?_).goto_plain rfl nofun
      rintro p' id' k' ec' ⟨⟩
      exact hA.joins p id k (by rw [hp]; rfl)
  | exit p ec k m b hp hpid hk _ hb =>
      have hA' : Args (v.setExitcode k ec) := { hA with }
      rcases hb with rfl | rfl
      · exact (hA'.record (e := .exit p ec) nofun).goto_plain rfl nofun
      · exact (hA'.record (e := .exit p ec) nofun).goto_plain rfl nofun
  | exitRelease p k hp hk =>
      have hA' : Args (v.setPost k (wrap32 (v.post k + 1))) := { hA with }
      exact hA'.goto_plain rfl nofun
  | exitSleep p k hp hk =>
      refine hA.goto nofun nofun ?_
      rintro m ⟨⟩
      exact hs.eq_of_pcbAt_pid (by rw [hp]; rfl) (by rw [hp]; rfl) hk
  | exitPass p k hp hleave =>
      have hA' : Args (v.setLeave k (wrap32 (v.leave k - 1))) := { hA with }
      exact hA'.goto_plain rfl nofun
  | remove p k hp hk _ => exact (hA.remove p k).goto_plain rfl nofun
  | removeNull p hp hnull =>
      have hA' : Args { v with bm := v.bm.clearBit (v.pid p).toNat } := { hA with }
      exact hA'.goto_plain rfl nofun

end Args

structure JoinInv (g : Int) (v : View) : Prop where
  slots : SlotInv g v
  args : Args v
  proto : Rendezvous.Inv v.abs

namespace JoinInv

variable {g : Int} {v v' : View} {p k : Nat} {a : Action}

/-- A child that is waited for still holds its slot. -/
theorem pcbAt_child (h : JoinInv g v) {id : Int} (hj : (v.phase p).joins = some (id, k))
    (hp : (v.phase p).status = .waiting k ∨ (v.phase p).status = .reading k) :
    v.pcbAt id = some k ∧ v.phase k ≠ .gone := by
  obtain ⟨_, hk, rfl⟩ := h.args.joins p id k hj
  have hpn : p < v.next := h.slots.lt_next (by
    intro he
    rw [he] at hj
    cases hj)
  rw [← abs_status hpn] at hp
  have hg : v.phase k ≠ .gone := by
    intro he
    refine h.proto.not_granted hp ?_
    rw [abs_status hk, he]
    trivial
  exact ⟨h.slots.pcbAt_slotOf hk hg, hg⟩

theorem post_bounds (h : JoinInv g v) (hk : k < v.next) : 0 ≤ v.post k ∧ v.post k ≤ 1 :=
  h.proto.post_bounds (abs_status_ne_absent hk)

theorem leave_bounds (h : JoinInv g v) (hk : k < v.next) : 0 ≤ v.leave k ∧ v.leave k ≤ 1 :=
  h.proto.leave_bounds (abs_status_ne_absent hk)

/-- **Refinement.** A move of the table is a step of the protocol, or none. -/
theorem abs_step (h : JoinInv g v) (hm : Moves v a v') (hok : Permits v a)
    (hfirst : ¬ FirstExit g v a v') : v'.abs = v.abs ∨ Rendezvous.Step v.abs v'.abs := by
  have hlt : ∀ {p b}, v.phase p = b → b ≠ .unborn → p < v.next := fun hp hb =>
    h.slots.lt_next (by rw [hp]; exact hb)
  have hst : ∀ {p b}, v.phase p = b → b ≠ .unborn → v.abs.status p = b.status := fun hp hb => by
    rw [abs_status (hlt hp hb), hp]
  cases hm with
  | follow p hf =>
      have hp := h.slots.lt_next (Phase.live_iff.mp hf.live_left).1
      exact Or.inl (abs_goto_same hp hf.status_eq)
  | spawn p name i hp hi hclear =>
      have hpn := hlt hp nofun
      have hu := h.slots.fresh v.next le_rfl
      rw [abs_newPcb hpn hu (by omega) i (by rw [hp]; rfl)]
      exact Or.inr (.spawn p v.next 0 (hst hp nofun) (if_neg (Nat.lt_irrefl _))
        (h.args.stage v.next le_rfl))
  | fork p k hp =>
      obtain ⟨_, _, hku, _⟩ := h.slots.forking p k hp
      refine Or.inl (abs_fork hp (hlt hp nofun) ?_ hku)
      rintro rfl
      rw [hp] at hku
      cases hku
  | join p id k m b hp hid hk hpid _ hb =>
      obtain ⟨hk0, hkn, hkc, _, hstage⟩ := hok hp k hk hpid
      have hbs : b.status = .waiting k := by rcases hb with rfl | rfl <;> rfl
      rw [abs_goto (v := v.setJoinStage k .begun) (hlt hp nofun), hbs]
      exact Or.inr (.join p k (hst hp nofun) (abs_parent.mpr ⟨hk0, hkn, hkc⟩) hstage)
  | joinSleep p id k m hp hm =>
      exact Or.inl (abs_goto_same (hlt hp nofun) (by rw [hp]; rfl))
  | joinPass p id k m hp hpost =>
      have hjoin : (v.phase p).joins = some (id, k) ∧ (v.phase p).status = .waiting k := by
        rcases hp with ⟨hp, _⟩ | hp <;> rw [hp] <;> exact ⟨rfl, rfl⟩
      have hmk : m = k := by
        rcases hp with ⟨_, hm⟩ | hp
        · rw [(h.pcbAt_child hjoin.1 (Or.inl hjoin.2)).1] at hm
          exact (Option.some.inj hm).symm
        · exact h.args.joinSleep p id k m hp
      subst hmk
      have hpn : p < v.next := by
        rcases hp with ⟨hp, _⟩ | hp <;> exact hlt hp nofun
      obtain ⟨_, hmn, _⟩ := h.args.joins p id m hjoin.1
      obtain ⟨hlo, hhi⟩ := h.post_bounds hmn
      rw [wrap32_of_bounds (x := v.post m - 1) (by omega) (by omega)]
      rw [abs_goto (v := (v.setPost m _).setJoinStage m .waited) hpn]
      exact Or.inr (.wait p m (by rw [abs_status hpn]; exact hjoin.2) hpost)
  | joinRead p id k j hp hj =>
      have hpn := hlt hp nofun
      have hjoin : (v.phase p).joins = some (id, k) := by rw [hp]; rfl
      have hjk : j = k := by
        rw [(h.pcbAt_child hjoin (Or.inr (by rw [hp]; rfl))).1] at hj
        exact (Option.some.inj hj).symm
      subst hjk
      obtain ⟨_, hjn, _⟩ := h.args.joins p id j hjoin
      obtain ⟨hlo, hhi⟩ := h.leave_bounds hjn
      rw [wrap32_of_bounds (x := v.leave j + 1) (by omega) (by omega)]
      rw [abs_goto (v := ((v.setJoinStage j .collected).record _).setLeave j _) hpn]
      exact Or.inr (.read p j (hst hp nofun))
  | joinRet p id k ec hp =>
      rw [abs_goto (v := v.record _) (hlt hp nofun)]
      exact Or.inr (.ret p k ec (hst hp nofun))
  | exit p ec k m b hp hpid hk _ hb =>
      have hp0 : p ≠ 0 := by
        rintro rfl
        refine hfirst ⟨by rw [← h.slots.zero_pid]; exact hpid, ec, k, b, rfl, ?_, rfl⟩
        rcases hb with rfl | rfl <;> rfl
      have hkp : k = p := by
        rw [h.slots.pcbAt_pid hp0 (by rw [hp]; rfl)] at hk
        exact (Option.some.inj hk).symm
      subst hkp
      have hbs : b.status = .exiting := by rcases hb with rfl | rfl <;> rfl
      rw [abs_goto (v := (v.setExitcode k ec).record _) (hlt hp nofun), hbs]
      refine Or.inr (.exit k ec (hst hp nofun) fun c hc => ?_)
      obtain ⟨hc0, hcn, hcc⟩ := abs_parent.mp hc
      exact hok hpid c hc0 hcn hcc
  | exitRelease p k hp hk =>
      have hpn := hlt hp nofun
      obtain rfl : k = p := h.slots.eq_of_pcbAt_pid (by rw [hp]; rfl) (by rw [hp]; rfl) hk
      obtain ⟨hlo, hhi⟩ := h.post_bounds hpn
      rw [wrap32_of_bounds (x := v.post k + 1) (by omega) (by omega)]
      rw [abs_goto (v := v.setPost k _) hpn]
      exact Or.inr (.post k (hst hp nofun))
  | exitSleep p k hp hk =>
      exact Or.inl (abs_goto_same (hlt hp nofun) (by rw [hp]; rfl))
  | exitPass p k hp hleave =>
      have hphase : (v.phase p).status = .posted ∧ (v.phase p).exiting = true
          ∧ (v.phase p).live = true := by
        rcases hp with ⟨hp, _⟩ | hp <;> rw [hp] <;> exact ⟨rfl, rfl, rfl⟩
      have hkp : k = p := by
        rcases hp with ⟨_, hk⟩ | hp
        · exact h.slots.eq_of_pcbAt_pid hphase.2.2 hphase.2.1 hk
        · exact h.args.exitSleep p k hp
      subst hkp
      have hpn : k < v.next := h.slots.lt_next (Phase.live_iff.mp hphase.2.2).1
      obtain ⟨hlo, hhi⟩ := h.leave_bounds hpn
      rw [wrap32_of_bounds (x := v.leave k - 1) (by omega) (by omega)]
      rw [abs_goto (v := v.setLeave k _) hpn]
      exact Or.inr (.leave k (by rw [abs_status hpn]; exact hphase.1) hleave)
  | remove p k hp hk _ =>
      obtain rfl : k = p := h.slots.eq_of_pcbAt_pid (by rw [hp]; rfl) (by rw [hp]; rfl) hk
      rw [abs_goto (v := v.remove k k) (hlt hp nofun)]
      exact Or.inr (.remove k (hst hp nofun))
  | removeNull p hp hnull =>
      rw [h.slots.pcbAt_pid (h.slots.ne_zero_of_exiting (by rw [hp]; rfl)) (by rw [hp]; rfl)]
        at hnull
      cases hnull

theorem args_step (h : JoinInv g v) (hm : Moves v a v') (hok : Permits v a) : Args v' := by
  refine h.args.step h.slots (fun p id k hj hw => (h.pcbAt_child hj (Or.inl hw)).1) ?_ hm
  rintro p id rfl hp k hk hpid
  obtain ⟨hk0, hkn, _, hslot, _⟩ := hok hp k hk hpid
  exact ⟨hk0, hkn, hslot⟩

theorem step (h : JoinInv g v) (hm : Moves v a v') (hok : Permits v a)
    (hfirst : ¬ FirstExit g v a v') : JoinInv g v' := by
  refine ⟨(h.slots.step hm).resolve_right hfirst, h.args_step hm hok, ?_⟩
  · rcases h.abs_step hm hok hfirst with heq | hs
    · rw [heq]
      exact h.proto
    · exact h.proto.step hs

theorem init (name : String) (g : Int) : JoinInv g (State.init name g).view := by
  have hs := SlotInv.init name g
  have hlt : ∀ k, k < (State.init name g).view.next → k = 0 := fun k hk => Nat.lt_one_iff.mp hk
  have h0 : (State.init name g).view.abs.status 0 = .running := rfl
  have hst : ∀ k x, (State.init name g).view.abs.status k = x → x = .running ∨ x = .absent := by
    rintro k x rfl
    by_cases hk : k < (State.init name g).view.next
    · rw [hlt k hk]
      exact Or.inl h0
    · exact Or.inr (if_neg hk)
  have hpar : ∀ k p, (State.init name g).view.abs.parent k ≠ some p := by
    intro k p hp
    obtain ⟨hk0, hk, _⟩ := abs_parent.mp hp
    exact hk0 (hlt k hk)
  have hphase : ∀ p, (State.init name g).view.phase p = .user
      ∨ (State.init name g).view.phase p = .unborn := by
    intro p
    by_cases hp : p = 0
    · subst hp
      exact Or.inl rfl
    · exact Or.inr (hs.fresh p (Nat.one_le_iff_ne_zero.mpr hp))
  have hzero : ∀ k, (State.init name g).view.abs.status k ≠ .absent → k = 0 := by
    intro k hk
    by_contra hne
    exact hk (if_neg fun hlt' => hne (hlt k hlt'))
  refine ⟨hs, ?_, ?_, ?_, ?_⟩
  · constructor
    case stage => exact fun _ _ => rfl
    case joins =>
      intro p id k hj
      rcases hphase p with hp | hp <;> rw [hp] at hj <;> cases hj
    case joinSleep =>
      intro p id k m hj
      rcases hphase p with hp | hp <;> rw [hp] at hj <;> cases hj
    case exitSleep =>
      intro p m hj
      rcases hphase p with hp | hp <;> rw [hp] at hj <;> cases hj
    case returned => exact nofun
  · constructor
    case born => exact fun k p hp => absurd hp (hpar k p)
    case waiting => exact fun p c hp => by rcases hst p _ hp with he | he <;> cases he
    case reading => exact fun p c hp => by rcases hst p _ hp with he | he <;> cases he
    case begun => exact nofun
    case waited => exact nofun
    case done => exact fun p c _ hc => absurd hc (hpar c p)
  · constructor
    case post =>
      intro k hk
      rw [hzero k hk]
      rfl
    case leave =>
      intro k hk
      rw [hzero k hk]
      rfl
    case taken => exact fun k _ ht => ht.elim
    case granted =>
      intro k hg
      rcases hst k _ rfl with he | he <;> rw [he] at hg <;> exact hg.elim
  · constructor
    case code =>
      intro k hg
      rcases hst k _ rfl with he | he <;> rw [he] at hg <;> exact hg.elim
    case exited => exact nofun
    case returning => exact fun p c e hp => by rcases hst p _ hp with he | he <;> cases he
    case collected => exact nofun
    case read => exact nofun
    case returned => exact nofun
    case removed =>
      intro c l₁ l₂ hl
      exact absurd hl.symm (List.append_ne_nil_of_right_ne_nil _ (List.cons_ne_nil _ _))

end JoinInv

/-! ## What the processes get -/

/-- Every returned `Join` gave the one exit code that the child it was
called for passed to `Exit`; every `Remove` comes after the parent's read
of that code; and until the read, slot `id` is in use and holds the child. -/
structure JoinExitOK (v : View) : Prop where
  returned : ∀ p id k ec, .joinReturn p id k ec ∈ v.log →
    .exit k ec ∈ v.log ∧ (∀ ec', .exit k ec' ∈ v.log → ec' = ec)
      ∧ k ≠ 0 ∧ v.creator k = p ∧ (v.slotOf k : Int) = id
  removed : ∀ k l₁ l₂, v.log = l₂ ++ .removed k :: l₁ →
    ∃ p id ec, .joinRead p id k ec ∈ l₁ ∧ v.creator k = p ∧ .exit k ec ∈ v.log
  joining : ∀ p id k, (v.phase p).joins = some (id, k) →
    (∃ ec, v.phase p = .joinRet id k ec)
      ∨ (v.pcbAt id = some k ∧ v.bm.testBit (v.slotOf k) = true)

/-- A `Join` that is called is under way for the child in that slot, and one
that is under way stays so until it returns. -/
structure JoinsKept (v : View) (a : Action) (v' : View) : Prop where
  called : ∀ p id, a = .join p id → ∃ k, v.creator k = p ∧ (v.slotOf k : Int) = id
    ∧ (v'.phase p).joins = some (id, k)
  kept : ∀ p id k, (v.phase p).joins = some (id, k) →
    (v'.phase p).joins = some (id, k) ∨ ∃ ec, v'.log = .joinReturn p id k ec :: v.log

section Events

variable {l : List Event} {p k : Nat} {ec : Int}

theorem exited_mem : .exited k ec ∈ l.filterMap Event.abs ↔ .exit k ec ∈ l := by
  rw [List.mem_filterMap]
  constructor
  · rintro ⟨e, he, habs⟩
    cases e <;> cases habs
    exact he
  · exact fun he => ⟨_, he, rfl⟩

theorem read_mem (h : .read p k ec ∈ l.filterMap Event.abs) : ∃ id, .joinRead p id k ec ∈ l := by
  obtain ⟨e, he, habs⟩ := List.mem_filterMap.mp h
  cases e <;> cases habs
  exact ⟨_, he⟩

end Events

namespace JoinInv

variable {g : Int} {v v' : View} {p k : Nat} {a : Action}

/-- Inside `JoinUpdate`, up to the read, the child is where it was. -/
theorem joining (h : JoinInv g v) {id : Int} (hj : (v.phase p).joins = some (id, k)) :
    (∃ ec, v.phase p = .joinRet id k ec) ∨ (v.pcbAt id = some k ∧ v.phase k ≠ .gone) := by
  have hchild := h.pcbAt_child hj
  cases hp : v.phase p <;> rw [hp] at hj hchild <;> cases hj
  case joinInc => exact Or.inr (hchild (Or.inl rfl))
  case joinIncd => exact Or.inr (hchild (Or.inl rfl))
  case joinWait => exact Or.inr (hchild (Or.inl rfl))
  case joinSleep => exact Or.inr (hchild (Or.inl rfl))
  case joinRead => exact Or.inr (hchild (Or.inr rfl))
  case joinRet => exact Or.inl ⟨_, rfl⟩

theorem joinExitOK (h : JoinInv g v) : JoinExitOK v := by
  constructor
  case returned =>
    intro p id k ec hmem
    have hret : .returned p k ec ∈ v.abs.log := List.mem_filterMap.mpr ⟨_, hmem, rfl⟩
    obtain ⟨hpar, hex⟩ := h.proto.history.returned p k ec hret
    obtain ⟨hk0, _, hkc⟩ := abs_parent.mp hpar
    refine ⟨exited_mem.mp hex, fun ec' hec' => ?_, hk0, hkc, (h.args.returned p id k ec hmem).2.2⟩
    have h1 := (h.proto.history.exited k ec' (exited_mem.mpr hec')).2
    have h2 := (h.proto.history.exited k ec hex).2
    exact h1.symm.trans h2
  case removed =>
    intro k l₁ l₂ hlog
    have habs : v.abs.log = l₂.filterMap Event.abs ++ .removed k :: l₁.filterMap Event.abs := by
      change v.log.filterMap Event.abs = _
      rw [hlog, List.filterMap_append]
      rfl
    obtain ⟨p, ec, hread⟩ := h.proto.history.removed k _ _ habs
    have hall : .read p k ec ∈ v.abs.log := by
      rw [habs]
      exact List.mem_append_right _ (List.mem_cons_of_mem _ hread)
    obtain ⟨hpar, hex⟩ := h.proto.history.read p k ec hall
    obtain ⟨id, hid⟩ := read_mem hread
    exact ⟨p, id, ec, hid, (abs_parent.mp hpar).2.2, exited_mem.mp hex⟩
  case joining =>
    intro p id k hj
    rcases h.joining hj with hret | ⟨hpcb, hg⟩
    · exact Or.inl hret
    · exact Or.inr ⟨hpcb, h.slots.bit k (h.args.joins p id k hj).2.1 hg⟩

theorem exiting_of_collected (h : JoinInv g v) (hk : k < v.next)
    (hc : v.joinStage k = .collected) : (v.phase k).exiting = true := by
  have htaken : (v.abs.stage k).taken := by
    rw [show v.abs.stage k = .collected from hc]
    trivial
  have hrel := h.proto.counters.taken k (abs_status_ne_absent hk) htaken
  rw [abs_status hk] at hrel
  exact (Phase.ended_iff_exiting _).mp hrel.ended

/-- When the children of the first program are collected, everybody is:
whoever has exited has collected its own children before. -/
theorem all_collected (h : JoinInv g v)
    (h0 : ∀ k, k ≠ 0 → k < v.next → v.creator k = 0 → v.joinStage k = .collected) :
    ∀ k, k ≠ 0 → k < v.next → v.joinStage k = .collected := by
  intro k
  induction k using Nat.strong_induction_on with
  | _ k ih =>
      intro hk0 hk
      by_cases hc0 : v.creator k = 0
      · exact h0 k hk0 hk hc0
      · obtain ⟨hlt, _⟩ := h.slots.creator k hk0 hk
        have hcn : v.creator k < v.next := hlt.trans hk
        have hex := h.exiting_of_collected hcn (ih _ hlt hc0 hcn)
        refine h.proto.links.done (v.creator k) k ?_ (abs_parent.mpr ⟨hk0, hk, rfl⟩)
        rw [abs_status hcn]
        exact (Phase.ended_iff_exiting _).mpr hex

theorem read_of_collected (h : JoinInv g v) (hk : k < v.next)
    (hc : v.joinStage k = .collected) :
    ∃ p id ec, .joinRead p id k ec ∈ v.log ∧ v.creator k = p ∧ .exit k ec ∈ v.log := by
  obtain ⟨p, ec, hread⟩ := h.proto.history.collected k (abs_status_ne_absent hk) hc
  obtain ⟨hpar, hex⟩ := h.proto.history.read p k ec hread
  obtain ⟨id, hid⟩ := read_mem hread
  exact ⟨p, id, ec, hid, (abs_parent.mp hpar).2.2, exited_mem.mp hex⟩

/-- A child that nobody has joined is there. -/
theorem not_gone_of_idle (h : JoinInv g v) (hk : k < v.next) (hidle : v.joinStage k = .idle) :
    v.phase k ≠ .gone := by
  intro he
  have hc := h.proto.counters.granted k (by
    rw [abs_status hk, he]
    trivial)
  rw [show v.abs.stage k = .idle from hidle] at hc
  cases hc

/-- A call of `Join` that is under way goes on, whoever moves. -/
theorem kept (h : JoinInv g v) (hm : Moves v a v') {id : Int}
    (hj : (v.phase p).joins = some (id, k)) :
    (v'.phase p).joins = some (id, k) ∨ ∃ ec, v'.log = .joinReturn p id k ec :: v.log := by
  obtain ⟨q, hq⟩ := hm.moved h.slots
  by_cases hpq : p = q
  · subst hpq
    rcases hq.joins with hnone | hsame | ⟨id', k', ec, hsome, hlog⟩
    · rw [hnone] at hj
      cases hj
    · exact Or.inl (hsame.trans hj)
    · obtain ⟨rfl, rfl⟩ := Prod.mk.inj (Option.some.inj (hsome.symm.trans hj))
      exact Or.inr ⟨ec, hlog⟩
  · rcases hq.others p hpq with hsame | ⟨hu, -⟩
    · exact Or.inl (hsame ▸ hj)
    · rw [hu] at hj
      cases hj

end JoinInv

/-! ## After an `Exit` of a first program with a wrong `processID` -/

theorem joins_ne_some {v : View} (h : ∀ k, v.phase k ≠ .unborn → (v.phase k).exiting = true)
    (q : Nat) {x : Int × Nat} : (v.phase q).joins ≠ some x := by
  by_cases hq : v.phase q = .unborn
  · rw [hq]
    nofun
  · rw [Phase.joins_of_exiting (h q hq)]
    nofun

structure Closing (v : View) : Prop where
  exiting : ∀ k, v.phase k ≠ .unborn → (v.phase k).exiting = true
  pcb : ∀ i k, v.pcb i = some k → k < v.next ∧ v.slotOf k = i
  pid : ∀ p, v.phase p ≠ .unborn → v.pid p ≠ 0
  zero_slot : v.slotOf 0 = 0
  read : ∀ k, k ≠ 0 → k < v.next →
    ∃ p id ec, .joinRead p id k ec ∈ v.log ∧ v.creator k = p ∧ .exit k ec ∈ v.log
  ok : JoinExitOK v

namespace Closing

variable {v v' : View} {p k : Nat} {a : Action}

/-- No process works on the `PCB` of the first program any more. -/
theorem ne_zero_of_pcbAt (h : Closing v) (hp : v.phase p ≠ .unborn)
    (hk : v.pcbAt (v.pid p) = some k) : k ≠ 0 ∧ k < v.next := by
  unfold View.pcbAt at hk
  split at hk
  · rename_i hrange
    obtain ⟨hkn, hslot⟩ := h.pcb _ _ hk
    refine ⟨?_, hkn⟩
    rintro rfl
    rw [h.zero_slot] at hslot
    have := h.pid p hp
    omega
  · cases hk

/-- A process that moves on inside `ExitUpdate`. -/
theorem goto (h : Closing v) {b : Phase} (hp : v.phase p ≠ .unborn) (hb : b.exiting = true) :
    Closing (v.goto p b) := by
  have hborn : ∀ k, (v.goto p b).phase k ≠ .unborn → v.phase k ≠ .unborn := by
    intro k hk
    by_cases hkp : k = p
    · rw [hkp]
      exact hp
    · simpa [View.goto, hkp] using hk
  have hexit : ∀ k, (v.goto p b).phase k ≠ .unborn → ((v.goto p b).phase k).exiting = true := by
    intro k hk
    by_cases hkp : k = p
    · subst hkp
      simpa [View.goto] using hb
    · simpa [View.goto, hkp] using h.exiting k (hborn k hk)
  refine ⟨hexit, h.pcb, fun q hq => h.pid q (hborn q hq), h.zero_slot, h.read,
    h.ok.returned, h.ok.removed, fun q id k hj => ?_⟩
  exact absurd hj (joins_ne_some hexit q)

theorem setPost (h : Closing v) (k : Nat) (x : Int) : Closing (v.setPost k x) :=
  { h with ok := { h.ok with } }

theorem setLeave (h : Closing v) (k : Nat) (x : Int) : Closing (v.setLeave k x) :=
  { h with ok := { h.ok with } }

theorem remove (h : Closing v) (hk0 : k ≠ 0) (hk : k < v.next) : Closing (v.remove p k) := by
  refine ⟨h.exiting, h.pcb, h.pid, h.zero_slot, fun j hj0 hj => ?_, ?_, ?_, ?_⟩
  · obtain ⟨q, id, ec, hread, hc, hex⟩ := h.read j hj0 hj
    exact ⟨q, id, ec, List.mem_cons_of_mem _ hread, hc, List.mem_cons_of_mem _ hex⟩
  · intro q id j ec hmem
    obtain ⟨hex, huniq, hj⟩ :=
      h.ok.returned q id j ec ((List.mem_cons.mp hmem).resolve_left nofun)
    exact ⟨List.mem_cons_of_mem _ hex,
      fun ec' hec' => huniq ec' ((List.mem_cons.mp hec').resolve_left nofun), hj⟩
  · intro j l₁ l₂ hlog
    cases l₂ with
    | nil =>
        obtain ⟨hj, rfl⟩ := List.cons.inj hlog
        cases hj
        obtain ⟨q, id, ec, hread, hc, hex⟩ := h.read k hk0 hk
        exact ⟨q, id, ec, hread, hc, List.mem_cons_of_mem _ hex⟩
    | cons e l₂ =>
        obtain ⟨q, id, ec, hread, hc, hex⟩ := h.ok.removed j l₁ l₂ (List.cons.inj hlog).2
        exact ⟨q, id, ec, hread, hc, List.mem_cons_of_mem _ hex⟩
  · intro q id j hj
    exact absurd hj (joins_ne_some h.exiting q)

theorem step (h : Closing v) (hm : Moves v a v') : Closing v' := by
  have hno : ∀ {p b}, v.phase p = b → b ≠ .unborn → b.exiting = true := by
    rintro p b rfl hb
    exact h.exiting p hb
  cases hm with
  | follow p hf =>
      have hb : v.phase p ≠ .unborn := (Phase.live_iff.mp hf.live_left).1
      exact h.goto hb (by rw [hf.exiting_eq]; exact h.exiting p hb)
  | spawn p name i hp _ _ => cases hno hp nofun
  | fork p k hp => cases hno hp nofun
  | join p id k m b hp _ _ _ _ _ => cases hno hp nofun
  | joinSleep p id k m hp _ => cases hno hp nofun
  | joinPass p id k m hp _ => rcases hp with ⟨hp, _⟩ | hp <;> cases hno hp nofun
  | joinRead p id k j hp _ => cases hno hp nofun
  | joinRet p id k ec hp => cases hno hp nofun
  | exit p ec k m b hp _ _ _ _ => cases hno hp nofun
  | exitRelease p k hp _ => exact (h.setPost k _).goto (by change v.phase p ≠ _; rw [hp]; nofun) rfl
  | exitSleep p k hp _ => exact h.goto (by rw [hp]; nofun) rfl
  | exitPass p k hp _ =>
      refine (h.setLeave k _).goto (p := p) ?_ rfl
      change v.phase p ≠ .unborn
      rcases hp with ⟨hp, _⟩ | hp <;> rw [hp] <;> nofun
  | remove p k hp hk _ =>
      have hb : v.phase p ≠ .unborn := by rw [hp]; nofun
      obtain ⟨hk0, hkn⟩ := h.ne_zero_of_pcbAt hb hk
      exact (h.remove (p := p) hk0 hkn).goto hb rfl
  | removeNull p hp _ =>
      have h' : Closing { v with bm := v.bm.clearBit (v.pid p).toNat } := by
        refine { h with ok := { h.ok with joining := fun q id k hj => ?_ } }
        exact absurd hj (joins_ne_some h.exiting q)
      exact h'.goto (by change v.phase p ≠ _; rw [hp]; nofun) rfl

end Closing

/-- The `Exit` after which the slot discipline is lost. -/
theorem JoinInv.close {g : Int} {v v' : View} {a : Action} (h : JoinInv g v)
    (hfirst : FirstExit g v a v') (hok : Permits v a) : Closing v' := by
  obtain ⟨hg, ec, k, b, rfl, hb, rfl⟩ := hfirst
  have hall := h.all_collected (hok (by rw [h.slots.zero_pid]; exact hg))
  have hphase : ∀ {q}, q ≠ 0 →
      (((v.setExitcode k ec).record (.exit 0 ec)).goto 0 b).phase q = v.phase q := fun hq =>
    Function.update_of_ne hq _ _
  have hexit : ∀ q, (((v.setExitcode k ec).record (.exit 0 ec)).goto 0 b).phase q ≠ .unborn →
      ((((v.setExitcode k ec).record (.exit 0 ec)).goto 0 b).phase q).exiting = true := by
    intro q hq
    by_cases hq0 : q = 0
    · subst hq0
      exact hb
    · rw [hphase hq0] at hq ⊢
      have hqn := h.slots.lt_next hq
      exact h.exiting_of_collected hqn (hall q hq0 hqn)
  constructor
  case exiting => exact hexit
  case pcb => exact h.slots.pcb
  case pid =>
    intro q hq
    by_cases hq0 : q = 0
    · subst hq0
      rw [← h.slots.zero_pid] at hg
      exact hg
    · rw [hphase hq0] at hq
      have hslot := h.slots.slot_ne_zero q hq0 (h.slots.lt_next hq)
      have hpid := h.slots.pid q hq0 hq
      change v.pid q ≠ 0
      omega
  case zero_slot => exact h.slots.zero_slot
  case read =>
    intro j hj0 hj
    obtain ⟨q, id, ec', hread, hc, hex⟩ := h.read_of_collected hj (hall j hj0 hj)
    exact ⟨q, id, ec', List.mem_cons_of_mem _ hread, hc, List.mem_cons_of_mem _ hex⟩
  case ok =>
    refine ⟨?_, ?_, ?_⟩
    · intro q id j ec' hmem
      obtain ⟨hex, huniq, hj0, hj⟩ :=
        h.joinExitOK.returned q id j ec' ((List.mem_cons.mp hmem).resolve_left nofun)
      refine ⟨List.mem_cons_of_mem _ hex, fun ec'' hec'' => ?_, hj0, hj⟩
      rcases List.mem_cons.mp hec'' with heq | hec''
      · cases heq
        exact absurd rfl hj0
      · exact huniq ec'' hec''
    · intro j l₁ l₂ hlog
      cases l₂ with
      | nil => cases (List.cons.inj hlog).1
      | cons e l₂ =>
          obtain ⟨q, id, ec', hread, hc, hex⟩ :=
            h.joinExitOK.removed j l₁ l₂ (List.cons.inj hlog).2
          exact ⟨q, id, ec', hread, hc, List.mem_cons_of_mem _ hex⟩
    · intro q id j hj
      exact absurd hj (joins_ne_some hexit q)

/-! ## The theorem -/

/-- Processes join only children they created, each at most once, and exit
only when all their children have been joined. -/
def Disciplined (s : State) : Action → Prop
  | .join p id => ∃ k, k < s.next ∧ k ≠ 0 ∧ s.creator k = p ∧ (s.slotOf k : Int) = id
      ∧ s.joinStage k = .idle
  | .exit p _ => ∀ k, k < s.next → k ≠ 0 → s.creator k = p → s.joinStage k = .collected
  | _ => True

theorem JoinInv.permits {g : Int} {s : State} {a : Action} (h : JoinInv g s.view)
    (hd : Disciplined s a) : Permits s.view a := by
  cases a with
  | join p id =>
      obtain ⟨k, hk, hk0, hkc, rfl, hidle⟩ := hd
      intro _ j hj _
      have hg := h.not_gone_of_idle hk hidle
      obtain rfl : k = j := Option.some.inj ((h.slots.pcbAt_slotOf hk hg).symm.trans hj)
      exact ⟨hk0, hk, hkc, rfl, hidle⟩
  | exit p ec => exact fun _ k hk0 hk hkc => hd k hk hk0 hkc
  | exec p name opens => trivial
  | load p ok => trivial
  | go p heap => trivial

theorem joinUpdate_of_step {s s' : State} {p : Nat} {id : Int}
    (h : step s (.join p id) = some s') (hstop : s'.stop = none) :
    (s.thr p).phase = .user ∧ s.joinUpdate p id = s' := by
  obtain ⟨-, s₁, hact, ⟨-, rfl⟩ | ⟨hne, rfl⟩⟩ := step_cases h
  · rw [act] at hact
    split at hact
    · rename_i huser
      exact ⟨huser, Option.some.inj hact⟩
    · cases hact
  · exact absurd hstop hne

/-- A disciplined `Join` passes the checks of `JoinUpdate`. -/
theorem JoinInv.called {g : Int} {s s' : State} {p : Nat} {id : Int} (h : JoinInv g s.view)
    (hd : Disciplined s (.join p id)) (hs : PTable.step s (.join p id) = some s')
    (hstop : s'.stop = none) :
    ∃ k, s.view.creator k = p ∧ (s.view.slotOf k : Int) = id
      ∧ (s'.view.phase p).joins = some (id, k) := by
  obtain ⟨k, hk, hk0, rfl, rfl, hidle⟩ := hd
  have hpcb : s.pcbAt (s.slotOf k) = some k :=
    h.slots.pcbAt_slotOf hk (h.not_gone_of_idle hk hidle)
  have hparent : (s.thr (s.creator k)).processID = (s.obj k).parentID :=
    (h.slots.parentID k hk0 hk).symm
  refine ⟨k, rfl, rfl, ?_⟩
  obtain ⟨-, rfl⟩ := joinUpdate_of_step hs hstop
  rw [State.joinUpdate, if_neg (by omega), hpcb] at hstop ⊢
  simp only [hparent, ne_eq, not_true, if_false] at hstop ⊢
  split at hstop
  · cases hstop
  · rename_i m hm
    rcases passP_cases (s.setJoinStage k .begun) (s.creator k) (.multex m)
      (.joinInc (s.slotOf k) k m) (.joinIncd (s.slotOf k) k m) with hne | hv | ⟨-, hv⟩
    · exact absurd hstop hne
    · simp [hv, View.goto, Phase.joins]
    · simp [hv, View.goto, Phase.joins]

/-- **Join and Exit.** In every interleaving of `Exec`, `Join` and `Exit` by
disciplined processes, whatever word the heap gave the first program, `Join`
returns the exit code of the child it was called for; and unless the machine
stops, every call of `Join` is under way until it returns that way. -/
theorem join_returns_exit_code {name : String} {g : Int} {s : State}
    (h : Reach step Disciplined (State.init name g) s) :
    JoinExitOK s.view ∧ ∀ a s', Disciplined s a → step s a = some s' → s'.stop = none →
      JoinsKept s.view a s'.view := by
  have hinv : JoinInv g s.view ∨ Closing s.view := by
    refine Reach.invariant (I := fun s => JoinInv g s.view ∨ Closing s.view)
      (Or.inl (JoinInv.init name g)) ?_ h
    intro s a s' _ hi hd hs
    rcases view_step hs with heq | hm
    · rw [heq]
      exact hi
    · rcases hi with hi | hi
      · have hok := hi.permits hd
        by_cases hfirst : FirstExit g s.view a s'.view
        · exact Or.inr (hi.close hfirst hok)
        · exact Or.inl (hi.step hm hok hfirst)
      · exact Or.inr (hi.step hm)
  rcases hinv with hi | hi
  · refine ⟨hi.joinExitOK, fun a s' hd hs hstop => ⟨?_, fun p id k hj => ?_⟩⟩
    · rintro p id rfl
      exact hi.called hd hs hstop
    · rcases view_step hs with heq | hm
      · exact Or.inl (heq ▸ hj)
      · exact hi.kept hm hj
  · refine ⟨hi.ok, fun a s' hd hs hstop => ⟨?_, fun p id k hj => ?_⟩⟩
    · rintro p id rfl
      have huser : s.view.phase p = .user := (joinUpdate_of_step hs hstop).1
      have hexiting := hi.exiting p (by rw [huser]; nofun)
      rw [huser] at hexiting
      cases hexiting
    · exact absurd hj (joins_ne_some hi.exiting p)

instance (s : State) : DecidablePred (Disciplined s)
  | .join p id => inferInstanceAs (Decidable (∃ k, k < s.next ∧ k ≠ 0 ∧ s.creator k = p
      ∧ (s.slotOf k : Int) = id ∧ s.joinStage k = .idle))
  | .exit p _ => inferInstanceAs (Decidable (∀ k, k < s.next → k ≠ 0 → s.creator k = p →
      s.joinStage k = .collected))
  | .exec _ _ _ | .load _ _ | .go _ _ => .isTrue trivial

def zeroHeap : Heap := ⟨0, ""⟩

/-- A successful `Exec`, from the call to its return. -/
def execRun (p : Nat) (name : String) : List Action :=
  .exec p name true :: List.replicate 5 (.go p zeroHeap)

/-- The parent is asleep in `JoinWait` when its child calls `Exit(42)`. -/
def joinRun : List Action :=
  execRun 0 "job" ++ [.load 1 true, .join 0 1, .go 0 zeroHeap, .go 0 zeroHeap, .exit 1 42,
    .go 1 zeroHeap, .go 1 zeroHeap, .go 1 zeroHeap, .go 0 zeroHeap, .go 0 zeroHeap,
    .go 0 zeroHeap, .go 1 zeroHeap, .go 1 zeroHeap]

theorem join_returns_exit_code_42 :
    ∃ s, Reach step Disciplined (State.init "shell" 0) s ∧ JoinExitOK s.view
      ∧ s.log = [.removed 1, .joinReturn 0 1 1 42, .joinRead 0 1 1 42,
        .exit 1 42, .exec 0 1 1] := by
  have hrun : (exec step Disciplined (State.init "shell" 0) joinRun).map State.log
      = some [.removed 1, .joinReturn 0 1 1 42, .joinRead 0 1 1 42, .exit 1 42, .exec 0 1 1] := rfl
  obtain ⟨s, hs, hlog⟩ := Option.map_eq_some_iff.mp hrun
  have hreach := Reach.of_exec joinRun hs
  exact ⟨s, hreach, (join_returns_exit_code hreach).1, hlog⟩

end PTable

end Nachos
