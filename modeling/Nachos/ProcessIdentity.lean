import Nachos.TableSteps

/-!
# Who owns a slot

The table's slot discipline, in every run and whatever the processes join or
exit: a process that has not finished holds the slot it was created in
(`SlotInv.holds`), and its thread carries that slot number as `processID`
(`SlotInv.pid`). Most moves take one process from phase to phase
(`SlotInv.goto`). Three do more and get a lemma each: `ExecUpdate` taking a
slot, `PCB::Exec` making the thread, `Remove` giving the slot back.

The one gap is the first program. `Thread::Thread` does not set
`processID`, and unlike the threads made by `PCB::Exec` the first one never
gets it assigned: it keeps the word `g` that the heap had there. The
invariant is stated for any `g` and survives every move but one, an `Exit`
of a first program that does not take itself for the first program.
-/

namespace Nachos

open CInt Run
open Rendezvous (Stage)

namespace PTable

/-! ## Phases -/

/-- The thread has been forked and has not finished. -/
def Phase.live : Phase → Bool
  | .unborn | .gone => false
  | _ => true

/-- Live, and not about to make a thread. -/
def Phase.plain : Phase → Bool
  | .unborn | .gone | .execFork _ => false
  | _ => true

/-- In `ExitUpdate`, or past it. -/
def Phase.exiting : Phase → Bool
  | .exitDec _ | .exitDecd _ | .exitRelease | .exitWait | .exitSleep _ | .exitRemove | .gone => true
  | _ => false

theorem Phase.live_iff {b : Phase} : b.live = true ↔ b ≠ .unborn ∧ b ≠ .gone := by
  cases b <;> simp [Phase.live]

theorem Phase.live_of_plain {b : Phase} (h : b.plain = true) : b.live = true := by
  cases b <;> first | rfl | cases h

namespace Follows

variable {a b : Phase}

theorem live_left (h : Follows a b) : a.live = true := by cases h <;> rfl

theorem plain_right (h : Follows a b) : b.plain = true := by cases h <;> rfl

theorem exiting_eq (h : Follows a b) : b.exiting = a.exiting := by cases h <;> rfl

end Follows

/-! ## The invariant -/

/-- `Exit` of a first program that finds a `processID` other than 0. -/
def FirstExit (g : Int) (v : View) (a : Action) (v' : View) : Prop :=
  g ≠ 0 ∧ ∃ ec k b, a = .exit 0 ec ∧ b.exiting = true
    ∧ v' = ((v.setExitcode k ec).record (.exit 0 ec)).goto 0 b

structure SlotInv (g : Int) (v : View) : Prop where
  numBits : v.bm.numBits = maxProcess
  fresh : ∀ k, v.next ≤ k → v.phase k = .unborn
  slot_lt : ∀ k, k < v.next → v.slotOf k < maxProcess
  bit : ∀ k, k < v.next → v.phase k ≠ .gone → v.bm.testBit (v.slotOf k) = true
  holds : ∀ k, k < v.next → v.phase k ≠ .gone → v.pcb (v.slotOf k) = some k
  occupied : ∀ i, i < maxProcess → v.bm.testBit i = true →
    ∃ k, k < v.next ∧ v.slotOf k = i ∧ v.phase k ≠ .gone
  pcb : ∀ i k, v.pcb i = some k → k < v.next ∧ v.slotOf k = i
  pid : ∀ k, k ≠ 0 → v.phase k ≠ .unborn → v.pid k = v.slotOf k
  thread : ∀ k, k ≠ 0 → v.phase k ≠ .unborn → v.thread k = some k
  zero_pid : v.pid 0 = g
  zero_slot : v.slotOf 0 = 0
  zero_parent : v.parentID 0 = -1
  slot_ne_zero : ∀ k, k ≠ 0 → k < v.next → v.slotOf k ≠ 0
  zero_phase : v.phase 0 ≠ .unborn ∧ (v.phase 0).exiting = false
  forking : ∀ p k, v.phase p = .execFork k →
    k ≠ 0 ∧ k < v.next ∧ v.phase k = .unborn ∧ v.creator k = p
  creator : ∀ k, k ≠ 0 → k < v.next → v.creator k < k ∧ v.phase (v.creator k) ≠ .unborn
  parentID : ∀ k, k ≠ 0 → k < v.next → v.parentID k = v.pid (v.creator k)

namespace SlotInv

variable {g : Int} {v : View} {p k : Nat}

theorem init (name : String) (g : Int) : SlotInv g (State.init name g).view := by
  have hph : ∀ k, k ≠ 0 → (State.init name g).view.phase k = .unborn := by
    intro k hk
    simp [State.view, State.init, Thread.new, hk]
  have hph0 : (State.init name g).view.phase 0 = .user := rfl
  have hlt : ∀ k, k < (State.init name g).view.next → k = 0 := fun k hk => Nat.lt_one_iff.mp hk
  have hbit : ∀ i, (State.init name g).view.bm.testBit i = true ↔ i = 0 := by
    intro i
    change ((Bitmap.new maxProcess).markBit 0).testBit i = true ↔ i = 0
    rw [Bitmap.testBit_markBit (show 0 < (Bitmap.new maxProcess).numBits by decide)]
    simp
  constructor
  case numBits => rfl
  case fresh => exact fun k hk => hph k (Nat.one_le_iff_ne_zero.mp hk)
  case slot_lt => exact fun k _ => (by decide : 0 < maxProcess)
  case bit => exact fun k _ _ => (hbit _).mpr rfl
  case holds =>
    intro k hk _
    obtain rfl := hlt k hk
    rfl
  case occupied =>
    intro i _ hi
    exact ⟨0, Nat.one_pos, ((hbit i).mp hi).symm, by rw [hph0]; exact Phase.noConfusion⟩
  case pcb =>
    intro i k hi
    by_cases hi0 : i = 0
    · subst hi0
      obtain rfl : (0 : Nat) = k := Option.some.inj hi
      exact ⟨Nat.one_pos, rfl⟩
    · simp [State.view, State.init, hi0] at hi
  case pid => exact fun k hk hu => absurd (hph k hk) hu
  case thread => exact fun k hk hu => absurd (hph k hk) hu
  case zero_pid => rfl
  case zero_slot => rfl
  case zero_parent => rfl
  case slot_ne_zero => exact fun k hk hlt' => absurd (hlt k hlt') hk
  case zero_phase => exact ⟨Phase.noConfusion, rfl⟩
  case forking =>
    intro q k hq
    by_cases hq0 : q = 0
    · subst hq0
      rw [hph0] at hq
      cases hq
    · rw [hph q hq0] at hq
      cases hq
  case creator => exact fun k hk hlt' => absurd (hlt k hlt') hk
  case parentID => exact fun k hk hlt' => absurd (hlt k hlt') hk

theorem lt_next (h : SlotInv g v) (hk : v.phase k ≠ .unborn) : k < v.next :=
  Nat.lt_of_not_le fun hle => hk (h.fresh k hle)

/-- Two objects that have not finished hold different slots. -/
theorem slot_inj (h : SlotInv g v) {j k : Nat} (hj : j < v.next) (hk : k < v.next)
    (hjg : v.phase j ≠ .gone) (hkg : v.phase k ≠ .gone) (heq : v.slotOf j = v.slotOf k) :
    j = k := by
  have h1 := h.holds j hj hjg
  rw [heq, h.holds k hk hkg] at h1
  exact (Option.some.inj h1).symm

theorem zero_ne_gone (h : SlotInv g v) : v.phase 0 ≠ .gone := by
  intro h0
  have := h.zero_phase.2
  rw [h0] at this
  cases this

/-- The slot number of an object that has not finished leads to it. -/
theorem pcbAt_slotOf (h : SlotInv g v) (hk : k < v.next) (hg : v.phase k ≠ .gone) :
    v.pcbAt (v.slotOf k) = some k := by
  have hlt := h.slot_lt k hk
  rw [View.pcbAt, if_pos ⟨by omega, by omega⟩]
  exact h.holds k hk hg

/-- What a process other than the first computes from its `processID` is
its own `PCB`. -/
theorem pcbAt_pid (h : SlotInv g v) (h0 : p ≠ 0) (hp : (v.phase p).live = true) :
    v.pcbAt (v.pid p) = some p := by
  obtain ⟨hu, hg⟩ := Phase.live_iff.mp hp
  rw [h.pid p h0 hu]
  exact h.pcbAt_slotOf (h.lt_next hu) hg

theorem pcbAt_eq_some (h : SlotInv g v) {id : Int} (hk : v.pcbAt id = some k) :
    k < v.next ∧ (v.slotOf k : Int) = id := by
  rw [View.pcbAt] at hk
  split at hk
  next hrange =>
      obtain ⟨hkn, hslot⟩ := h.pcb _ _ hk
      exact ⟨hkn, by rw [hslot]; exact Int.toNat_of_nonneg hrange.1⟩
  next => cases hk

theorem pid_nonneg (h : SlotInv 0 v) (hp : v.phase p ≠ .unborn) : 0 ≤ v.pid p := by
  by_cases hp0 : p = 0
  · rw [hp0]
    exact h.zero_pid.ge
  · rw [h.pid p hp0 hp]
    exact Int.natCast_nonneg _

/-- Nobody is the parent of the first program. -/
theorem ne_zero_of_parentID (h : SlotInv 0 v) (hp : v.phase p ≠ .unborn)
    (heq : v.pid p = v.parentID k) : k ≠ 0 := by
  rintro rfl
  have hpid := h.pid_nonneg hp
  rw [heq, h.zero_parent] at hpid
  exact absurd hpid (by decide)

/-! ## Moves -/

section Silent

variable (h : SlotInv g v)

include h

theorem setJoinStage (k : Nat) (j : Stage) : SlotInv g (v.setJoinStage k j) := { h with }

theorem record (e : Event) : SlotInv g (v.record e) := { h with }

theorem setExitcode (k : Nat) (ec : Int) : SlotInv g (v.setExitcode k ec) := { h with }

theorem setPost (k : Nat) (x : Int) : SlotInv g (v.setPost k x) := { h with }

theorem setLeave (k : Nat) (x : Int) : SlotInv g (v.setLeave k x) := { h with }

end Silent

theorem goto (h : SlotInv g v) {b : Phase} (hp : (v.phase p).live = true) (hb : b.live = true)
    (hfork : ∀ k, b = .execFork k →
      k ≠ 0 ∧ k < v.next ∧ v.phase k = .unborn ∧ v.creator k = p)
    (hexit : b.exiting = true → p ≠ 0) : SlotInv g (v.goto p b) := by
  obtain ⟨hu, hg⟩ := Phase.live_iff.mp hp
  obtain ⟨hbu, hbg⟩ := Phase.live_iff.mp hb
  have hunborn : ∀ k, (v.goto p b).phase k = .unborn ↔ v.phase k = .unborn := by
    intro k
    by_cases hk : k = p
    · subst hk
      simp [View.goto, hbu, hu]
    · simp [View.goto, hk]
  have hgone : ∀ k, (v.goto p b).phase k = .gone ↔ v.phase k = .gone := by
    intro k
    by_cases hk : k = p
    · subst hk
      simp [View.goto, hbg, hg]
    · simp [View.goto, hk]
  constructor
  case numBits => exact h.numBits
  case fresh => exact fun k hk => (hunborn k).mpr (h.fresh k hk)
  case slot_lt => exact h.slot_lt
  case bit => exact fun k hk hkg => h.bit k hk (mt (hgone k).mpr hkg)
  case holds => exact fun k hk hkg => h.holds k hk (mt (hgone k).mpr hkg)
  case occupied =>
    intro i hi hbit
    obtain ⟨k, hk, hslot, hkg⟩ := h.occupied i hi hbit
    exact ⟨k, hk, hslot, mt (hgone k).mp hkg⟩
  case pcb => exact h.pcb
  case pid => exact fun k hk0 hk => h.pid k hk0 (mt (hunborn k).mpr hk)
  case thread => exact fun k hk0 hk => h.thread k hk0 (mt (hunborn k).mpr hk)
  case zero_pid => exact h.zero_pid
  case zero_slot => exact h.zero_slot
  case zero_parent => exact h.zero_parent
  case slot_ne_zero => exact h.slot_ne_zero
  case zero_phase =>
    refine ⟨mt (hunborn 0).mp h.zero_phase.1, ?_⟩
    by_cases h0 : 0 = p
    · subst h0
      simpa [View.goto] using fun hb' => hexit hb' rfl
    · simpa [View.goto, h0] using h.zero_phase.2
  case forking =>
    intro q k hq
    rw [hunborn]
    by_cases hqp : q = p
    · subst hqp
      exact hfork k (by simpa [View.goto] using hq)
    · exact h.forking q k (by simpa [View.goto, hqp] using hq)
  case creator =>
    intro k hk0 hk
    obtain ⟨hlt, hcu⟩ := h.creator k hk0 hk
    exact ⟨hlt, mt (hunborn _).mp hcu⟩
  case parentID => exact h.parentID

theorem goto_plain (h : SlotInv g v) {b : Phase} (hp : (v.phase p).live = true)
    (hb : b.plain = true) (hexit : b.exiting = true → p ≠ 0) : SlotInv g (v.goto p b) := by
  refine h.goto hp (Phase.live_of_plain hb) ?_ hexit
  rintro k rfl
  cases hb

theorem follow (h : SlotInv g v) {b : Phase} (hf : Follows (v.phase p) b) :
    SlotInv g (v.goto p b) := by
  refine h.goto_plain hf.live_left hf.plain_right ?_
  rintro hb rfl
  rw [hf.exiting_eq, h.zero_phase.2] at hb
  cases hb

theorem newPcb (h : SlotInv g v) {i : Nat} (hp : (v.phase p).live = true)
    (hi : i < v.bm.numBits) (hclear : v.bm.testBit i = false) : SlotInv g (v.newPcb p i) := by
  have hne : ∀ {k}, k < v.next → k ≠ v.next := fun hk => Nat.ne_of_lt hk
  have hslot : ∀ {k}, k < v.next → (v.newPcb p i).slotOf k = v.slotOf k := fun hk =>
    Function.update_of_ne (hne hk) _ _
  have hslotNew : (v.newPcb p i).slotOf v.next = i := Function.update_self _ _ _
  have hother : ∀ {k}, k < v.next → v.phase k ≠ .gone → v.slotOf k ≠ i := by
    intro k hk hkg he
    have hbit := h.bit k hk hkg
    rw [he, hclear] at hbit
    cases hbit
  have hcreator : ∀ {k}, k < v.next → (v.newPcb p i).creator k = v.creator k := fun hk =>
    Function.update_of_ne (hne hk) _ _
  have hcreatorNew : (v.newPcb p i).creator v.next = p := Function.update_self _ _ _
  have hpu := (Phase.live_iff.mp hp).1
  have hpn := h.lt_next hpu
  have hbit : ∀ j, (v.newPcb p i).bm.testBit j = (decide (j = i) || v.bm.testBit j) :=
    Bitmap.testBit_markBit hi
  have hcases : ∀ {k}, k < v.next + 1 → k < v.next ∨ k = v.next := Nat.lt_succ_iff_lt_or_eq.mp
  constructor
  case numBits => exact (Bitmap.numBits_markBit _ _).trans h.numBits
  case fresh => exact fun k hk => h.fresh k (Nat.le_of_succ_le hk)
  case slot_lt =>
    intro k hk
    rcases hcases hk with hk | rfl
    · rw [hslot hk]
      exact h.slot_lt k hk
    · rw [hslotNew, ← h.numBits]
      exact hi
  case bit =>
    intro k hk hkg
    rw [hbit]
    rcases hcases hk with hk | rfl
    · rw [hslot hk, h.bit k hk hkg, Bool.or_true]
    · rw [hslotNew]
      simp
  case holds =>
    intro k hk hkg
    rcases hcases hk with hk | rfl
    · rw [hslot hk]
      exact (Function.update_of_ne (hother hk hkg) _ _).trans (h.holds k hk hkg)
    · rw [hslotNew]
      exact Function.update_self _ _ _
  case occupied =>
    intro j hj hbj
    rw [hbit] at hbj
    by_cases hji : j = i
    · subst hji
      refine ⟨v.next, Nat.lt_succ_self _, Function.update_self _ _ _, ?_⟩
      change v.phase v.next ≠ .gone
      rw [h.fresh v.next le_rfl]
      exact Phase.noConfusion
    · obtain ⟨k, hk, hks, hkg⟩ := h.occupied j hj (by simpa [hji] using hbj)
      exact ⟨k, Nat.lt_succ_of_lt hk, (hslot hk).trans hks, hkg⟩
  case pcb =>
    intro j k hj
    by_cases hji : j = i
    · subst hji
      obtain rfl : v.next = k := by simpa [View.newPcb] using hj
      exact ⟨Nat.lt_succ_self _, Function.update_self _ _ _⟩
    · obtain ⟨hk, hks⟩ := h.pcb j k (by simpa [View.newPcb, hji] using hj)
      exact ⟨Nat.lt_succ_of_lt hk, (hslot hk).trans hks⟩
  case pid =>
    intro k hk0 hk
    rw [hslot (h.lt_next hk)]
    exact h.pid k hk0 hk
  case thread =>
    intro k hk0 hk
    exact (Function.update_of_ne (hne (h.lt_next hk)) _ _).trans (h.thread k hk0 hk)
  case zero_pid => exact h.zero_pid
  case zero_slot =>
    rw [hslot (h.lt_next h.zero_phase.1)]
    exact h.zero_slot
  case zero_parent =>
    exact (Function.update_of_ne (hne (h.lt_next h.zero_phase.1)) _ _).trans h.zero_parent
  case slot_ne_zero =>
    intro k hk0 hk
    rcases hcases hk with hk | rfl
    · rw [hslot hk]
      exact h.slot_ne_zero k hk0 hk
    · rw [hslotNew]
      rintro rfl
      exact hother (h.lt_next h.zero_phase.1) h.zero_ne_gone h.zero_slot
  case zero_phase => exact h.zero_phase
  case forking =>
    intro q k hq
    obtain ⟨hk0, hk, hku, hkc⟩ := h.forking q k hq
    exact ⟨hk0, Nat.lt_succ_of_lt hk, hku, (hcreator hk).trans hkc⟩
  case creator =>
    intro k hk0 hk
    rcases hcases hk with hk | rfl
    · rw [hcreator hk]
      exact h.creator k hk0 hk
    · rw [hcreatorNew]
      exact ⟨hpn, hpu⟩
  case parentID =>
    intro k hk0 hk
    rcases hcases hk with hk | rfl
    · rw [hcreator hk]
      exact (Function.update_of_ne (hne hk) _ _).trans (h.parentID k hk0 hk)
    · rw [hcreatorNew]
      exact Function.update_self _ _ _

theorem fork (h : SlotInv g v) (hk0 : k ≠ 0) (hk : k < v.next) (hku : v.phase k = .unborn)
    (hkc : v.creator k = p) (hnone : ∀ q, v.phase q ≠ .execFork k) : SlotInv g (v.fork p k) := by
  have hgone : ∀ j, (v.fork p k).phase j = .gone ↔ v.phase j = .gone := by
    intro j
    by_cases hj : j = k
    · subst hj
      simp [View.fork, hku]
    · simp [View.fork, hj]
  have hunborn : ∀ j, (v.fork p k).phase j ≠ .unborn → j ≠ k → v.phase j ≠ .unborn := by
    intro j hj hjk
    simpa [View.fork, hjk] using hj
  constructor
  case numBits => exact h.numBits
  case fresh =>
    intro j hj
    have hjk : j ≠ k := fun he => absurd hk (by rw [← he]; exact Nat.not_lt.mpr hj)
    exact (Function.update_of_ne hjk _ _).trans (h.fresh j hj)
  case slot_lt => exact h.slot_lt
  case bit => exact fun j hj hjg => h.bit j hj (mt (hgone j).mpr hjg)
  case holds => exact fun j hj hjg => h.holds j hj (mt (hgone j).mpr hjg)
  case occupied =>
    intro i hi hbit
    obtain ⟨j, hj, hslot, hjg⟩ := h.occupied i hi hbit
    exact ⟨j, hj, hslot, mt (hgone j).mp hjg⟩
  case pcb => exact h.pcb
  case pid =>
    intro j hj0 hj
    by_cases hjk : j = k
    · subst hjk
      exact Function.update_self _ _ _
    · exact (Function.update_of_ne hjk _ _).trans (h.pid j hj0 (hunborn j hj hjk))
  case thread =>
    intro j hj0 hj
    by_cases hjk : j = k
    · subst hjk
      exact Function.update_self _ _ _
    · exact (Function.update_of_ne hjk _ _).trans (h.thread j hj0 (hunborn j hj hjk))
  case zero_pid => exact (Function.update_of_ne hk0.symm _ _).trans h.zero_pid
  case zero_slot => exact h.zero_slot
  case zero_parent => exact (Function.update_of_ne hk0.symm _ _).trans h.zero_parent
  case slot_ne_zero => exact h.slot_ne_zero
  case zero_phase =>
    rw [show (v.fork p k).phase 0 = v.phase 0 from Function.update_of_ne hk0.symm _ _]
    exact h.zero_phase
  case forking =>
    intro q j hq
    have hqk : q ≠ k := by
      rintro rfl
      simp [View.fork] at hq
    have hq' : v.phase q = .execFork j := by simpa [View.fork, hqk] using hq
    have hjk : j ≠ k := by
      rintro rfl
      exact hnone q hq'
    rw [show (v.fork p k).phase j = v.phase j from Function.update_of_ne hjk _ _]
    exact h.forking q j hq'
  case creator =>
    intro j hj0 hj
    obtain ⟨hlt, hcu⟩ := h.creator j hj0 hj
    refine ⟨hlt, ?_⟩
    change Function.update v.phase k .start (v.creator j) ≠ .unborn
    rw [Function.update_of_ne (fun he => hcu (by rw [he, hku]))]
    exact hcu
  case parentID =>
    intro j hj0 hj
    have hcu := (h.creator j hj0 hj).2
    have hck : v.creator j ≠ k := fun he => hcu (by rw [he, hku])
    rw [show (v.fork p k).pid ((v.fork p k).creator j) = v.pid (v.creator j) from
      Function.update_of_ne hck _ _]
    by_cases hjk : j = k
    · subst hjk
      rw [hkc]
      exact Function.update_self _ _ _
    · exact (Function.update_of_ne hjk _ _).trans (h.parentID j hj0 hj)

theorem remove (h : SlotInv g v) (h0 : p ≠ 0) (hp : (v.phase p).live = true) :
    SlotInv g ((v.remove p k).goto p .gone) := by
  obtain ⟨hpu, hpg⟩ := Phase.live_iff.mp hp
  have hpn := h.lt_next hpu
  have hlt : v.slotOf p < v.bm.numBits := by
    rw [h.numBits]
    exact h.slot_lt p hpn
  have hbit : ∀ j, ((v.remove p k).goto p .gone).bm.testBit j
      = (!decide (j = v.slotOf p) && v.bm.testBit j) := by
    intro j
    change (v.bm.clearBit (v.pid p).toNat).testBit j = _
    rw [h.pid p h0 hpu, Int.toNat_natCast]
    exact Bitmap.testBit_clearBit hlt j
  have hphase : ∀ j, j ≠ p → ((v.remove p k).goto p .gone).phase j = v.phase j := fun j hj =>
    Function.update_of_ne hj _ _
  have hself : ((v.remove p k).goto p .gone).phase p = .gone := Function.update_self _ _ _
  have hnotgone : ∀ j, ((v.remove p k).goto p .gone).phase j ≠ .gone →
      j ≠ p ∧ v.phase j ≠ .gone := by
    intro j hj
    have hjp : j ≠ p := fun he => hj (by rw [he]; exact hself)
    exact ⟨hjp, by rw [← hphase j hjp]; exact hj⟩
  have hborn : ∀ j, ((v.remove p k).goto p .gone).phase j ≠ .unborn → v.phase j ≠ .unborn := by
    intro j hj
    by_cases hjp : j = p
    · rw [hjp]
      exact hpu
    · rw [← hphase j hjp]
      exact hj
  constructor
  case numBits => exact (Bitmap.numBits_clearBit _ _).trans h.numBits
  case fresh =>
    intro j hj
    rw [hphase j (fun he => absurd hpn (by rw [← he]; exact Nat.not_lt.mpr hj))]
    exact h.fresh j hj
  case slot_lt => exact h.slot_lt
  case bit =>
    intro j hj hjg
    obtain ⟨hjp, hjg⟩ := hnotgone j hjg
    have hne : v.slotOf j ≠ v.slotOf p := fun he => hjp (h.slot_inj hj hpn hjg hpg he)
    rw [hbit]
    simpa [View.goto, View.remove, hne] using h.bit j hj hjg
  case holds => exact fun j hj hjg => h.holds j hj (hnotgone j hjg).2
  case occupied =>
    intro i hi hbi
    rw [hbit, Bool.and_eq_true, Bool.not_eq_true', decide_eq_false_iff_not] at hbi
    obtain ⟨j, hj, hslot, hjg⟩ := h.occupied i hi hbi.2
    have hjp : j ≠ p := fun he => hbi.1 (by rw [← hslot, he])
    exact ⟨j, hj, hslot, by rw [hphase j hjp]; exact hjg⟩
  case pcb => exact h.pcb
  case pid => exact fun j hj0 hj => h.pid j hj0 (hborn j hj)
  case thread => exact fun j hj0 hj => h.thread j hj0 (hborn j hj)
  case zero_pid => exact h.zero_pid
  case zero_slot => exact h.zero_slot
  case zero_parent => exact h.zero_parent
  case slot_ne_zero => exact h.slot_ne_zero
  case zero_phase =>
    rw [hphase 0 h0.symm]
    exact h.zero_phase
  case forking =>
    intro q j hq
    have hqp : q ≠ p := by
      rintro rfl
      rw [hself] at hq
      cases hq
    rw [hphase q hqp] at hq
    obtain ⟨hj0, hj, hju, hjc⟩ := h.forking q j hq
    rw [hphase j (fun he => hpu (by rw [← he, hju]))]
    exact ⟨hj0, hj, hju, hjc⟩
  case creator =>
    intro j hj0 hj
    obtain ⟨hlt, hcu⟩ := h.creator j hj0 hj
    refine ⟨hlt, ?_⟩
    by_cases hcp : v.creator j = p
    · rw [show ((v.remove p k).goto p .gone).creator j = p from hcp, hself]
      exact Phase.noConfusion
    · exact fun he => hcu ((hphase _ hcp).symm.trans he)
  case parentID => exact h.parentID

/-- A process in `ExitUpdate` is not the first program. -/
theorem ne_zero_of_exiting (h : SlotInv g v) (hp : (v.phase p).exiting = true) : p ≠ 0 := by
  rintro rfl
  rw [h.zero_phase.2] at hp
  cases hp

/-- The `PCB` that `ExitUpdate` works on is the caller's. -/
theorem eq_of_pcbAt_pid (h : SlotInv g v) (hp : (v.phase p).live = true)
    (hx : (v.phase p).exiting = true) (hk : v.pcbAt (v.pid p) = some k) : k = p := by
  rw [h.pcbAt_pid (h.ne_zero_of_exiting hx) hp] at hk
  exact (Option.some.inj hk).symm

/-- With a first program that has `processID` 0, every live process leads to
its own `PCB`. -/
theorem pcbAt_processID (h : SlotInv 0 v) (hp : (v.phase p).live = true) :
    v.pcbAt (v.pid p) = some p := by
  by_cases hp0 : p = 0
  · subst hp0
    obtain ⟨hu, hg⟩ := Phase.live_iff.mp hp
    have := h.pcbAt_slotOf (h.lt_next hu) hg
    rwa [h.zero_slot, Nat.cast_zero, ← h.zero_pid] at this
  · exact h.pcbAt_pid hp0 hp

theorem step {a : Action} {v' : View} (h : SlotInv g v) (hm : Moves v a v') :
    SlotInv g v' ∨ FirstExit g v a v' := by
  cases hm with
  | follow p hf => exact Or.inl (h.follow hf)
  | spawn p name i hp hi hclear =>
      have hlive : (v.phase p).live = true := by rw [hp]; rfl
      have hp0 : v.next ≠ 0 := fun he => by
        have := h.lt_next h.zero_phase.1
        omega
      refine Or.inl ((h.newPcb hlive hi hclear).goto hlive rfl ?_
        (fun hb => absurd hb Bool.false_ne_true))
      rintro k ⟨rfl⟩
      exact ⟨hp0, Nat.lt_succ_self _, h.fresh _ le_rfl, Function.update_self _ _ _⟩
  | fork p k hp =>
      have hlive : (v.phase p).live = true := by rw [hp]; rfl
      obtain ⟨hk0, hk, hku, hkc⟩ := h.forking p k hp
      have hpk : p ≠ k := by
        rintro rfl
        rw [hp] at hku
        cases hku
      have h' : SlotInv g (v.goto p (.execUnlock k)) :=
        h.goto_plain hlive rfl (fun hb => absurd hb Bool.false_ne_true)
      have hcomm : (v.fork p k).goto p (.execUnlock k) = (v.goto p (.execUnlock k)).fork p k :=
        congrArg (fun f => { v.fork p k with phase := f })
          (Function.update_comm hpk.symm _ _ _)
      rw [hcomm]
      refine Or.inl (h'.fork hk0 hk ?_ hkc ?_)
      · exact (Function.update_of_ne hpk.symm _ _).trans hku
      · intro q hq
        by_cases hqp : q = p
        · subst hqp
          simp [View.goto] at hq
        · have hq' : v.phase q = .execFork k := by simpa [View.goto, hqp] using hq
          exact hqp ((h.forking q k hq').2.2.2.symm.trans hkc)
  | join p id k m b hp _ _ _ _ hb =>
      have hlive : (v.phase p).live = true := by rw [hp]; rfl
      refine Or.inl ?_
      rcases hb with rfl | rfl
      · exact (h.setJoinStage k _).goto_plain hlive rfl (fun hb => absurd hb Bool.false_ne_true)
      · exact (h.setJoinStage k _).goto_plain hlive rfl (fun hb => absurd hb Bool.false_ne_true)
  | joinSleep p id k m hp _ =>
      have hlive : (v.phase p).live = true := by rw [hp]; rfl
      exact Or.inl (h.goto_plain hlive rfl (fun hb => absurd hb Bool.false_ne_true))
  | joinPass p id k m hp _ =>
      have hlive : (v.phase p).live = true := by
        rcases hp with ⟨hp, _⟩ | hp <;> rw [hp] <;> rfl
      exact Or.inl (((h.setPost m _).setJoinStage k _).goto_plain hlive rfl
        (fun hb => absurd hb Bool.false_ne_true))
  | joinRead p id k j hp _ =>
      have hlive : (v.phase p).live = true := by rw [hp]; rfl
      exact Or.inl ((((h.setJoinStage k _).record _).setLeave j _).goto_plain hlive rfl
        (fun hb => absurd hb Bool.false_ne_true))
  | joinRet p id k ec hp =>
      have hlive : (v.phase p).live = true := by rw [hp]; rfl
      exact Or.inl ((h.record _).goto_plain hlive rfl (fun hb => absurd hb Bool.false_ne_true))
  | exit p ec k m b hp hpid _ _ hb =>
      have hlive : (v.phase p).live = true := by rw [hp]; rfl
      by_cases hp0 : p = 0
      · subst hp0
        refine Or.inr ⟨by rw [← h.zero_pid]; exact hpid, ec, k, b, rfl, ?_, rfl⟩
        rcases hb with rfl | rfl <;> rfl
      · refine Or.inl ?_
        rcases hb with rfl | rfl
        · exact ((h.setExitcode k _).record _).goto_plain hlive rfl (fun _ => hp0)
        · exact ((h.setExitcode k _).record _).goto_plain hlive rfl (fun _ => hp0)
  | exitRelease p k hp _ =>
      have hlive : (v.phase p).live = true := by rw [hp]; rfl
      have hp0 := h.ne_zero_of_exiting (p := p) (by rw [hp]; rfl)
      exact Or.inl ((h.setPost k _).goto_plain hlive rfl (fun _ => hp0))
  | exitSleep p k hp _ =>
      have hlive : (v.phase p).live = true := by rw [hp]; rfl
      have hp0 := h.ne_zero_of_exiting (p := p) (by rw [hp]; rfl)
      exact Or.inl (h.goto_plain hlive rfl (fun _ => hp0))
  | exitPass p k hp _ =>
      have hlive : (v.phase p).live = true := by
        rcases hp with ⟨hp, _⟩ | hp <;> rw [hp] <;> rfl
      have hp0 := h.ne_zero_of_exiting (p := p) (by
        rcases hp with ⟨hp, _⟩ | hp <;> rw [hp] <;> rfl)
      exact Or.inl ((h.setLeave k _).goto_plain hlive rfl (fun _ => hp0))
  | remove p k hp _ _ =>
      have hlive : (v.phase p).live = true := by rw [hp]; rfl
      exact Or.inl (h.remove (h.ne_zero_of_exiting (by rw [hp]; rfl)) hlive)
  | removeNull p hp hnull =>
      have hlive : (v.phase p).live = true := by rw [hp]; rfl
      rw [h.pcbAt_pid (h.ne_zero_of_exiting (by rw [hp]; rfl)) hlive] at hnull
      cases hnull

theorem reach {name : String} {ok : State → Action → Prop} {s : State}
    (h : Reach PTable.step ok (State.init name 0) s) : SlotInv 0 s.view := by
  refine Reach.invariant (I := fun s => SlotInv 0 s.view) (init name 0) ?_ h
  intro s a s' _ hi _ hs
  rcases view_step hs with heq | hm
  · rw [heq]
    exact hi
  · rcases hi.step hm with hi' | ⟨h0, _⟩
    · exact hi'
    · exact absurd rfl h0

end SlotInv

/-! ## Identity of processes -/

/-- Every live thread has the number of a slot in use that holds its own
`PCB`, the first program has number 0, and no two live threads have the
same number. -/
structure IdentityOK (s : State) : Prop where
  own : ∀ p, (s.thr p).phase.live = true → ∃ i : Nat, (s.thr p).processID = i ∧ i < maxProcess
    ∧ s.bm.testBit i = true ∧ s.pcb i = some p ∧ (p ≠ 0 → (s.obj p).thread = some p)
  first : (s.thr 0).processID = 0
  distinct : ∀ p q, (s.thr p).phase.live = true → (s.thr q).phase.live = true →
    (s.thr p).processID = (s.thr q).processID → p = q

theorem SlotInv.identity {s : State} (h : SlotInv 0 s.view) : IdentityOK s := by
  have hpid : ∀ p, (s.thr p).phase.live = true → (s.thr p).processID = s.slotOf p := by
    intro p hp
    by_cases hp0 : p = 0
    · subst hp0
      exact h.zero_pid.trans (congrArg Nat.cast h.zero_slot.symm)
    · exact h.pid p hp0 (Phase.live_iff.mp hp).1
  constructor
  case own =>
    intro p hp
    obtain ⟨hu, hg⟩ := Phase.live_iff.mp hp
    have hlt := h.lt_next hu
    exact ⟨s.slotOf p, hpid p hp, h.slot_lt p hlt, h.bit p hlt hg, h.holds p hlt hg,
      fun hp0 => h.thread p hp0 hu⟩
  case first => exact h.zero_pid
  case distinct =>
    intro p q hp hq heq
    obtain ⟨hpu, hpg⟩ := Phase.live_iff.mp hp
    obtain ⟨hqu, hqg⟩ := Phase.live_iff.mp hq
    rw [hpid p hp, hpid q hq] at heq
    exact h.slot_inj (h.lt_next hpu) (h.lt_next hqu) hpg hqg (Int.ofNat_inj.mp heq)

/-- Process identity holds in every run exactly when the word that
`new Thread("main")` finds at `processID` is zero. -/
theorem identity_iff_heap_zero (name : String) (g : Int) :
    (∀ s, Reach step Any (State.init name g) s → IdentityOK s) ↔ g = 0 := by
  constructor
  · intro h
    exact (h _ Relation.ReflTransGen.refl).first
  · rintro rfl s hs
    exact (SlotInv.reach hs).identity

/-- With 7 there, the first program takes itself for the process in the
empty slot 7, and its `Exit` follows a null pointer. -/
theorem identity_lost_at_heap_seven :
    ¬ IdentityOK (State.init "shell" 7)
      ∧ (step (State.init "shell" 7) (.exit 0 0)).map State.stop = some (some .crash) := by
  refine ⟨fun h => ?_, ?_⟩
  · have := h.first
    simp [State.init, Thread.new] at this
  · rfl

end PTable

end Nachos
