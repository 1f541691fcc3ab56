import Nachos.NumwaitSteps
import Nachos.ParentLiveness
import Mathlib.Data.Finset.Card

/-!
# What `numwait` counts

`JoinUpdate` adds one to the `numwait` of the parent and `ExitUpdate` takes
one off, unless it is zero. Nothing ties the two together: the increment is
made by the parent, the decrement by whichever child exits, joined or not.
The count that is meant is `openJoins`, the `Join`s of a process that have
come past `IncNumWait` and whose child has not come past `DecNumWait`.

Two orders of events lose it. A child that exits before its `Join` finds
zero and takes nothing off, and the `Join` then adds one that stays for ever
(`numwait_stays_one`); or it finds the one that belongs to the `Join` of a
sibling, and takes that off. They are all (`numwait_counts`): as long as every
increment is for a child that has not exited, and every decrement by a child
whose `Join` has been counted or with no `Join` open (`Timely`), the two
agree in every state, and the first step that is not timely makes them
differ.
-/

namespace Nachos

open CInt Run
open Rendezvous (Stage)

namespace PTable

/-! ## Open joins -/

/-- In the `IncNumWait` of a `Join` of `k`. -/
def Phase.incs (k : Nat) : Phase → Bool
  | .joinInc _ j _ | .joinIncd _ j _ => j = k
  | _ => false

/-- In `ExitUpdate`, past `DecNumWait`. -/
def Phase.decd : Phase → Bool
  | .exitRelease | .exitWait | .exitSleep _ | .exitRemove | .gone => true
  | _ => false

/-- The `Join` of `k` has come past `IncNumWait`. -/
def View.Incd (v : View) (k : Nat) : Prop :=
  v.joinStage k ≠ .idle ∧ (v.phase (v.creator k)).incs k = false

instance (v : View) (k : Nat) : Decidable (v.Incd k) := inferInstanceAs (Decidable (_ ∧ _))

/-- The children whose `Join` by `p` has begun and that have not exited. -/
def View.openJoins (v : View) (p : Nat) : Finset Nat :=
  (Finset.range v.next).filter fun k =>
    k ≠ 0 ∧ v.creator k = p ∧ v.Incd k ∧ (v.phase k).decd = false

/-- `numwait` is the number of open `Join`s, in every `PCB`. -/
def Counts (s : State) : Prop :=
  ∀ p, p < s.next → (s.obj p).numwait = (s.view.openJoins p).card

/-- When `p` may go on from a phase: it raises the count for a child that has
not exited, and lowers it if its own `Join` has been counted, or with no
`Join` of its parent open. -/
def TimelyFrom (s : State) (p : Nat) : Phase → Prop
  | .joinIncd _ k _ => (s.thr k).phase.decd = false
  | .exitDecd _ => s.view.Incd p ∨ s.view.openJoins (s.creator p) = ∅
  | _ => True

def Timely (s : State) : Action → Prop
  | .go p _ => TimelyFrom s p (s.thr p).phase
  | _ => True

section Sets

variable {v w : View} {p q k : Nat} {a b : Phase}

theorem mem_openJoins : k ∈ v.openJoins p ↔
    k < v.next ∧ k ≠ 0 ∧ v.creator k = p ∧ v.Incd k ∧ (v.phase k).decd = false := by
  rw [View.openJoins, Finset.mem_filter, Finset.mem_range]

theorem openJoins_congr (hnext : v.next ≤ w.next)
    (hnew : ∀ k, v.next ≤ k → k < w.next → ¬w.Incd k)
    (h : ∀ k, k ≠ 0 → k < v.next → w.creator k = v.creator k ∧ (w.Incd k ↔ v.Incd k)
      ∧ (w.phase k).decd = (v.phase k).decd) (p : Nat) : w.openJoins p = v.openJoins p := by
  ext k
  rw [mem_openJoins, mem_openJoins]
  constructor
  · rintro ⟨hk, hk0, hc, hincd, hdecd⟩
    have hlt : k < v.next := Nat.lt_of_not_le fun hle => hnew k hle hk hincd
    obtain ⟨hcreator, hiff, heq⟩ := h k hk0 hlt
    exact ⟨hlt, hk0, hcreator ▸ hc, hiff.mp hincd, heq ▸ hdecd⟩
  · rintro ⟨hk, hk0, hc, hincd, hdecd⟩
    obtain ⟨hcreator, hiff, heq⟩ := h k hk0 hk
    exact ⟨hk.trans_le hnext, hk0, hcreator.trans hc, hiff.mpr hincd, heq.trans hdecd⟩

theorem goto_phase (v : View) (p : Nat) (b : Phase) (k : Nat) :
    (v.goto p b).phase k = if k = p then b else v.phase k :=
  Function.update_apply v.phase p b k

/-- A step of `p` that has nothing to do with the count, with changes of other
components in `w`. -/
theorem openJoins_goto (w : View) (b : Phase) (hp : v.phase p = a) (hnext : w.next = v.next)
    (hcreator : w.creator = v.creator) (hphase : w.phase = v.phase)
    (hstage : ∀ k, w.joinStage k = .idle ↔ v.joinStage k = .idle)
    (hincs : ∀ k, b.incs k = a.incs k) (hdecd : b.decd = a.decd) (q : Nat) :
    (w.goto p b).openJoins q = v.openJoins q := by
  have hsame : ∀ {α : Type} (f : Phase → α) (k : Nat), f b = f a →
      f ((w.goto p b).phase k) = f (v.phase k) := by
    intro α f k hf
    rw [goto_phase, hphase]
    split
    next hk => rw [hf, hk, hp]
    next => rfl
  refine openJoins_congr (w := w.goto p b) hnext.ge (fun k hle hlt => ?_)
    (fun k _ _ => ⟨?_, ?_, ?_⟩) q
  · exact absurd (hnext ▸ hlt : k < v.next) (Nat.not_lt.mpr hle)
  · exact congrFun hcreator k
  · rw [View.Incd, View.Incd, show (w.goto p b).creator k = v.creator k from congrFun hcreator k,
      hsame (Phase.incs k) _ (hincs k)]
    exact and_congr_left' (not_congr (hstage k))
  · exact hsame Phase.decd k hdecd

end Sets

/-! ## In patient runs -/

section Patience

variable {v v' : View} {p k m : Nat} {id : Int} {a : Action}

/-- An open `Join` is the one its process is in. -/
theorem LiveInv.joins_of_open (h : LiveInv v) (hk : k ∈ v.openJoins p) :
    (∃ id, (v.phase p).joins = some (id, k)) ∧ (v.phase p).incs k = false := by
  obtain ⟨hkn, hk0, rfl, ⟨hstage, hincs⟩, hdecd⟩ := mem_openJoins.mp hk
  refine ⟨?_, hincs⟩
  have hnot : ¬(v.abs.stage k).taken := by
    intro htaken
    have hrel := h.join.proto.counters.taken k (abs_status_ne_absent hkn) htaken
    rw [abs_status hkn] at hrel
    cases hph : v.phase k <;> rw [hph] at hrel hdecd <;> first | exact hrel | cases hdecd
  have htaken : v.abs.stage k = v.joinStage k := rfl
  rw [htaken] at hnot
  have hbegun : v.joinStage k = .begun := by
    cases hst : v.joinStage k with
    | idle => exact absurd hst hstage
    | begun => rfl
    | waited =>
        rw [hst] at hnot
        exact absurd trivial hnot
    | collected =>
        rw [hst] at hnot
        exact absurd trivial hnot
  obtain ⟨q, hq⟩ := h.join.proto.links.begun k hbegun
  obtain ⟨rfl, hjoins⟩ := h.joins_parent (Or.inl hq)
  exact ⟨_, hjoins⟩

/-- A process has one `Join` open at most. -/
theorem LiveInv.openJoins_subset (h : LiveInv v) (hp : (v.phase p).joins = some (id, k)) :
    v.openJoins p ⊆ {k} := by
  intro j hj
  obtain ⟨⟨id', hjoins⟩, -⟩ := h.joins_of_open hj
  rw [hp] at hjoins
  rw [Finset.mem_singleton]
  exact (congrArg Prod.snd (Option.some.inj hjoins)).symm

theorem LiveInv.card_openJoins_le (h : LiveInv v) (p : Nat) : (v.openJoins p).card ≤ 1 := by
  rw [Finset.card_le_one]
  intro i hi j hj
  obtain ⟨⟨id, hjoins⟩, -⟩ := h.joins_of_open hi
  have hsub := h.openJoins_subset hjoins
  exact (Finset.mem_singleton.mp (hsub hj)).symm

/-- Who has not been made has no children. -/
theorem LiveInv.openJoins_fresh (h : LiveInv v) (hp : v.next ≤ p) : v.openJoins p = ∅ := by
  rw [Finset.eq_empty_iff_forall_notMem]
  intro k hk
  obtain ⟨hkn, hk0, hc, -⟩ := mem_openJoins.mp hk
  have hlt := (h.join.slots.creator k hk0 hkn).1
  omega

/-- The `PCB`s whose `numwait` is changed: the caller's own in `JoinUpdate`,
the parent's in `ExitUpdate`. -/
structure Targets (v : View) : Prop where
  inc : ∀ p id k m, v.phase p = .joinInc id k m ∨ v.phase p = .joinIncd id k m → m = p
  dec : ∀ p m, v.phase p = .exitDec m ∨ v.phase p = .exitDecd m → m = v.creator p

/-- The other phases have no target. -/
def Phase.free : Phase → Bool
  | .joinInc _ _ _ | .joinIncd _ _ _ | .exitDec _ | .exitDecd _ => false
  | _ => true

theorem Targets.goto {w : View} {b : Phase} (h : Targets v) (hphase : w.phase = v.phase)
    (hcreator : ∀ k, v.phase k ≠ .unborn → w.creator k = v.creator k)
    (hinc : ∀ id k m, b = .joinInc id k m ∨ b = .joinIncd id k m → m = p)
    (hdec : ∀ m, b = .exitDec m ∨ b = .exitDecd m → m = w.creator p) : Targets (w.goto p b) := by
  constructor
  · intro q id k m hq
    rw [goto_phase, hphase] at hq
    by_cases hqp : q = p
    · rw [if_pos hqp] at hq
      exact (hinc id k m hq).trans hqp.symm
    · rw [if_neg hqp] at hq
      exact h.inc q id k m hq
  · intro q m hq
    rw [goto_phase, hphase] at hq
    by_cases hqp : q = p
    · rw [if_pos hqp] at hq
      rw [hqp]
      exact hdec m hq
    · rw [if_neg hqp] at hq
      rw [h.dec q m hq]
      refine (hcreator q ?_).symm
      rcases hq with hq | hq <;> rw [hq] <;> exact Phase.noConfusion

theorem Targets.goto_free {w : View} {b : Phase} (h : Targets v) (hphase : w.phase = v.phase)
    (hcreator : ∀ k, v.phase k ≠ .unborn → w.creator k = v.creator k) (hb : b.free = true) :
    Targets (w.goto p b) := by
  refine h.goto hphase hcreator ?_ ?_
  · rintro id k m (rfl | rfl) <;> cases hb
  · rintro m (rfl | rfl) <;> cases hb

theorem Targets.init (name : String) : Targets (State.init name 0).view := by
  have hphase : ∀ p, (State.init name 0).view.phase p = .user
      ∨ (State.init name 0).view.phase p = .unborn := by
    intro p
    by_cases hp : p = 0
    · subst hp
      exact Or.inl rfl
    · exact Or.inr (by simp [State.view, State.init, Thread.new, hp])
  constructor
  · intro p id k m hp
    rcases hphase p with h | h <;> rw [h] at hp <;> rcases hp with hp | hp <;> cases hp
  · intro p m hp
    rcases hphase p with h | h <;> rw [h] at hp <;> rcases hp with hp | hp <;> cases hp

theorem Targets.step (h : Targets v) (hlive : LiveInv v) (hm : Moves v a v') : Targets v' := by
  have hslots := hlive.join.slots
  cases hm with
  | follow p hf =>
      refine h.goto rfl (fun _ _ => rfl) ?_ ?_
      · rintro id k m (rfl | rfl)
        · cases hph : v.phase p <;> rw [hph] at hf <;> cases hf
        · cases hph : v.phase p <;> rw [hph] at hf <;> cases hf
          exact h.inc p id k m (Or.inl hph)
      · rintro m (rfl | rfl)
        · cases hph : v.phase p <;> rw [hph] at hf <;> cases hf
        · cases hph : v.phase p <;> rw [hph] at hf <;> cases hf
          exact h.dec p m (Or.inl hph)
  | spawn p name i hp _ _ =>
      refine h.goto_free rfl (fun k hk => ?_) rfl
      exact Function.update_of_ne (Nat.ne_of_lt (hslots.lt_next hk)) _ _
  | fork p k hp =>
      obtain ⟨-, -, hku, -⟩ := hslots.forking p k hp
      have hfork : Targets (v.fork p k) := by
        have hstart := h.goto_free (p := k) (b := .start) rfl (fun _ _ => rfl) rfl
        exact ⟨hstart.inc, hstart.dec⟩
      exact hfork.goto_free rfl (fun _ _ => rfl) rfl
  | join p id k m b hp _ _ hpid hm hb =>
      have hmp : m = p := by
        rw [← hpid] at hm
        have hself := hlive.join.slots.pcbAt_processID
          (show (v.phase p).live = true by rw [hp]; rfl)
        exact Option.some.inj (hm.symm.trans hself)
      refine h.goto rfl (fun _ _ => rfl) ?_ ?_
      · rintro id' k' m' hb'
        rcases hb with rfl | rfl <;> rcases hb' with hb' | hb' <;> cases hb' <;> exact hmp
      · rintro m' hb'
        rcases hb with rfl | rfl <;> rcases hb' with hb' | hb' <;> cases hb'
  | joinSleep p id k m hp _ => exact h.goto_free rfl (fun _ _ => rfl) rfl
  | joinPass p id k m hp _ => exact h.goto_free rfl (fun _ _ => rfl) rfl
  | joinRead p id k j hp _ => exact h.goto_free rfl (fun _ _ => rfl) rfl
  | joinRet p id k ec hp => exact h.goto_free rfl (fun _ _ => rfl) rfl
  | exit p ec k m b hp hpid hk hm hb =>
      have hu : v.phase p ≠ .unborn := by rw [hp]; exact Phase.noConfusion
      have hg : v.phase p ≠ .gone := by rw [hp]; exact Phase.noConfusion
      have hpn := hslots.lt_next hu
      have hp0 : p ≠ 0 := by
        rintro rfl
        exact hpid hslots.zero_pid
      have hmc : m = v.creator p := by
        have hself := hslots.pcbAt_processID (show (v.phase p).live = true by rw [hp]; rfl)
        obtain rfl : k = p := Option.some.inj (hk.symm.trans hself)
        have hparent := Phase.live_iff.mp (hlive.parent_live hp0 hpn hg).1
        have hcn := (hslots.creator k hp0 hpn).1.trans hpn
        rw [hlive.parentID_eq hp0 hpn, hslots.pcbAt_slotOf hcn hparent.2] at hm
        exact (Option.some.inj hm).symm
      refine h.goto rfl (fun _ _ => rfl) ?_ ?_
      · rintro id' k' m' hb'
        rcases hb with rfl | rfl <;> rcases hb' with hb' | hb' <;> cases hb'
      · rintro m' hb'
        rcases hb with rfl | rfl <;> rcases hb' with hb' | hb' <;> cases hb' <;> exact hmc
  | exitRelease p k hp _ => exact h.goto_free rfl (fun _ _ => rfl) rfl
  | exitSleep p k hp _ => exact h.goto_free rfl (fun _ _ => rfl) rfl
  | exitPass p k hp _ => exact h.goto_free rfl (fun _ _ => rfl) rfl
  | remove p k hp _ _ => exact h.goto_free rfl (fun _ _ => rfl) rfl
  | removeNull p hp _ => exact h.goto_free rfl (fun _ _ => rfl) rfl

/-- A `Join` that begins is not open yet. -/
theorem openJoins_join {b : Phase} (hp : v.phase p = .user) (hkc : v.creator k = p)
    (hidle : v.joinStage k = .idle) (hb : b = .joinInc id k m ∨ b = .joinIncd id k m) (q : Nat) :
    ((v.setJoinStage k .begun).goto p b).openJoins q = v.openJoins q := by
  have hincs : ∀ j, b.incs j = decide (k = j) := by
    intro j
    rcases hb with rfl | rfl <;> rfl
  have hdecd : b.decd = false := by rcases hb with rfl | rfl <;> rfl
  refine openJoins_congr (v := v) (w := (v.setJoinStage k .begun).goto p b) le_rfl
    (fun j hle hlt => absurd hlt (Nat.not_lt.mpr hle)) (fun j _ _ => ⟨rfl, ?_, ?_⟩) q
  · rw [View.Incd, View.Incd, goto_phase]
    show Function.update v.joinStage k .begun j ≠ .idle
      ∧ (if v.creator j = p then b else v.phase (v.creator j)).incs j = false ↔ _
    by_cases hjk : j = k
    · subst hjk
      rw [if_pos hkc, hincs, hidle]
      simp
    · rw [Function.update_of_ne hjk]
      split
      next hc =>
          rw [hincs, hc, hp, decide_eq_false (Ne.symm hjk)]
          rfl
      next => rfl
  · rw [goto_phase]
    split
    next hj => rw [hdecd, hj, hp]; rfl
    next => rfl

/-- The count stays as long as nobody who holds a `multex` moves. -/
theorem Moves.openJoins_eq {s : State} (h : LiveInv s.view) (hp : Patient s a)
    (hm : Moves s.view a v')
    (hheld : ∀ q, (s.view.phase q).locked = true → v'.phase q = s.view.phase q) (q : Nat) :
    v'.openJoins q = s.view.openJoins q := by
  have hslots := h.join.slots
  have hidle : ∀ {w : View} {k : Nat} {j : Stage}, w.joinStage k ≠ .idle → j ≠ .idle →
      ∀ i, (w.setJoinStage k j).joinStage i = .idle ↔ w.joinStage i = .idle := by
    intro w k j hk hj i
    show Function.update w.joinStage k j i = .idle ↔ _
    by_cases hik : i = k
    · subst hik
      rw [Function.update_self]
      exact iff_of_false hj hk
    · rw [Function.update_of_ne hik]
  have hfree : ∀ k, (s.view.phase k).live = true → s.view.abs.status k = (s.view.phase k).status :=
    fun k hk => abs_status (hslots.lt_next (Phase.live_iff.mp hk).1)
  cases hm with
  | follow p hf =>
      rename_i b
      by_cases hlocked : (s.view.phase p).locked = true
      · have hb := hheld p hlocked
        rw [goto_phase, if_pos rfl] at hb
        rw [hb]
        exact openJoins_goto s.view _ rfl rfl rfl rfl (fun _ => Iff.rfl) (fun _ => rfl) rfl q
      · rw [Bool.not_eq_true] at hlocked
        have hsame : (∀ k, b.incs k = (s.view.phase p).incs k)
            ∧ b.decd = (s.view.phase p).decd := by
          revert hlocked hf
          generalize s.view.phase p = ph
          intro hf hlocked
          cases hf <;> first | exact ⟨fun _ => rfl, rfl⟩ | cases hlocked
        exact openJoins_goto s.view b rfl rfl rfl rfl (fun _ => Iff.rfl) hsame.1 hsame.2 q
  | spawn p name i hph _ _ =>
      have hpn : p < s.next := hslots.lt_next (by rw [hph]; exact Phase.noConfusion)
      have hcreator : ∀ k, k < s.next →
          ((s.view.newPcb p i).goto p (.execFork s.next)).creator k = s.creator k :=
        fun k hk => Function.update_of_ne (Nat.ne_of_lt hk) _ _
      have hphase : ∀ k, (((s.view.newPcb p i).goto p (.execFork s.next)).phase k).decd
          = (s.view.phase k).decd
          ∧ ∀ j, (((s.view.newPcb p i).goto p (.execFork s.next)).phase k).incs j
            = (s.view.phase k).incs j := by
        intro k
        rw [goto_phase]
        split
        next hk => rw [hk, hph]; exact ⟨rfl, fun _ => rfl⟩
        next => exact ⟨rfl, fun _ => rfl⟩
      refine openJoins_congr (w := (s.view.newPcb p i).goto p (.execFork s.next))
        (Nat.le_succ s.next) (fun k hle hlt hincd => ?_) (fun k _ hk => ⟨hcreator k hk, ?_, ?_⟩) q
      · exact hincd.1 (h.join.args.stage k hle)
      · rw [View.Incd, View.Incd, hcreator k hk, (hphase _).2]
        rfl
      · exact (hphase k).1
  | fork p k hph =>
      obtain ⟨-, -, hku, -⟩ := hslots.forking p k hph
      have hpk : p ≠ k := by
        rintro rfl
        rw [hku] at hph
        cases hph
      have hstart : ∀ j, ((s.view.fork p k).phase j).decd = (s.view.phase j).decd
          ∧ ∀ i, ((s.view.fork p k).phase j).incs i = (s.view.phase j).incs i := by
        intro j
        show (Function.update s.view.phase k .start j).decd = _
          ∧ ∀ i, (Function.update s.view.phase k .start j).incs i = _
        by_cases hjk : j = k
        · subst hjk
          rw [Function.update_self, hku]
          exact ⟨rfl, fun _ => rfl⟩
        · rw [Function.update_of_ne hjk]
          exact ⟨rfl, fun _ => rfl⟩
      have hpp : (s.view.fork p k).phase p = .execFork k :=
        (Function.update_of_ne hpk _ _).trans hph
      have hgoto := openJoins_goto (s.view.fork p k) (.execUnlock k) hpp rfl rfl rfl
        (fun _ => Iff.rfl) (fun _ => rfl) rfl q
      refine hgoto.trans (openJoins_congr (v := s.view) (w := s.view.fork p k) le_rfl
        (fun j hle hlt => absurd hlt (Nat.not_lt.mpr hle)) (fun j _ _ => ⟨rfl, ?_, (hstart j).1⟩) q)
      rw [View.Incd, View.Incd, (hstart _).2]
      rfl
  | join p id k m b hph _ hk hpid _ hb =>
      obtain ⟨hkc, hkidle⟩ := hp k hk hpid
      exact openJoins_join hph hkc hkidle hb q
  | joinSleep p id k m hph _ =>
      exact openJoins_goto s.view (.joinSleep id k m) hph rfl rfl rfl
        (fun _ => Iff.rfl) (fun _ => rfl)
        rfl q
  | joinPass p id k m hph _ =>
      have hphase : (s.view.phase p).status = .waiting k ∧ (s.view.phase p).live = true
          ∧ (∀ j, (s.view.phase p).incs j = false) ∧ (s.view.phase p).decd = false := by
        rcases hph with ⟨hph, -⟩ | hph <;> rw [hph] <;> exact ⟨rfl, rfl, fun _ => rfl, rfl⟩
      have hbegun := (h.join.proto.links.waiting p k (by rw [hfree p hphase.2.1, hphase.1])).2
      refine openJoins_goto ((s.view.setPost m _).setJoinStage k .waited) (.joinRead id k)
        (v := s.view) rfl rfl rfl rfl (hidle (w := s.view.setPost m _) ?_ (by decide))
        (fun j => (hphase.2.2.1 j).symm) hphase.2.2.2.symm q
      rw [show (s.view.setPost m _).joinStage k = .begun from hbegun]
      decide
  | joinRead p id k j hph _ =>
      have hlive : (s.view.phase p).live = true := by rw [hph]; rfl
      have hwaited := (h.join.proto.links.reading p k (by rw [hfree p hlive, hph]; rfl)).2
      refine openJoins_goto (((s.view.setJoinStage k .collected).record _).setLeave j _)
        (.joinRet id k _) hph rfl rfl rfl (hidle (w := s.view) ?_ (by decide)) (fun _ => rfl) rfl q
      rw [show s.view.joinStage k = .waited from hwaited]
      decide
  | joinRet p id k ec hph =>
      exact openJoins_goto (s.view.record _) .user hph rfl rfl rfl (fun _ => Iff.rfl) (fun _ => rfl)
        rfl q
  | exit p ec k m b hph _ _ _ hb =>
      refine openJoins_goto ((s.view.setExitcode k ec).record _) b hph rfl rfl rfl
        (fun _ => Iff.rfl) (fun _ => ?_) ?_ q
      · rcases hb with rfl | rfl <;> rfl
      · rcases hb with rfl | rfl <;> rfl
  | exitRelease p k hph _ =>
      exact openJoins_goto (s.view.setPost k _) .exitWait hph rfl rfl rfl
        (fun _ => Iff.rfl) (fun _ => rfl)
        rfl q
  | exitSleep p k hph _ =>
      exact openJoins_goto s.view (.exitSleep k) hph rfl rfl rfl (fun _ => Iff.rfl) (fun _ => rfl)
        rfl q
  | exitPass p k hph _ =>
      rcases hph with ⟨hph, -⟩ | hph
      · exact openJoins_goto (s.view.setLeave k _) .exitRemove hph rfl rfl rfl (fun _ => Iff.rfl)
          (fun _ => rfl) rfl q
      · exact openJoins_goto (s.view.setLeave k _) .exitRemove hph rfl rfl rfl (fun _ => Iff.rfl)
          (fun _ => rfl) rfl q
  | remove p k hph _ _ =>
      exact openJoins_goto (s.view.remove p k) .gone hph rfl rfl rfl
        (fun _ => Iff.rfl) (fun _ => rfl)
        rfl q
  | removeNull p hph _ =>
      exact openJoins_goto { s.view with bm := _ } .gone hph rfl rfl rfl
        (fun _ => Iff.rfl) (fun _ => rfl)
        rfl q

end Patience

/-! ## The sets after an adjustment -/

section Adjusted

variable {v : View} {p q k m : Nat} {id : Int} {a b : Phase}

theorem openJoins_goto_ne (b : Phase) (hp : v.phase p = a) (hdecd : b.decd = a.decd)
    (hq : q ≠ p) :
    (v.goto p b).openJoins q = v.openJoins q := by
  ext j
  rw [mem_openJoins, mem_openJoins]
  refine and_congr_right fun _ => and_congr_right fun _ => and_congr_right fun hc => ?_
  have hcp : v.creator j ≠ p := fun heq => hq (hc.symm.trans heq)
  have hincd : (v.goto p b).Incd j ↔ v.Incd j := by
    rw [View.Incd, View.Incd, goto_phase, show (v.goto p b).creator j = v.creator j from rfl,
      if_neg hcp]
    rfl
  rw [hincd, goto_phase]
  refine and_congr_right fun _ => ?_
  split
  next hj => rw [hj, hp, hdecd]
  next => rfl

/-- Nothing is open while the count is being raised. -/
theorem LiveInv.openJoins_incs (h : LiveInv v) (hp : v.phase p = .joinIncd id k m) :
    v.openJoins p = ∅ := by
  rw [Finset.eq_empty_iff_forall_notMem]
  intro j hj
  have hjoins : (v.phase p).joins = some (id, k) := by rw [hp]; rfl
  obtain rfl := Finset.mem_singleton.mp (h.openJoins_subset hjoins hj)
  have hincs := (h.joins_of_open hj).2
  rw [hp] at hincs
  exact absurd hincs (by simp [Phase.incs])

/-- Afterwards the `Join` is open, if its child has not exited. -/
theorem LiveInv.openJoins_incd (h : LiveInv v) (hp : v.phase p = .joinIncd id k m)
    (h' : LiveInv (v.goto p (.joinWait id k))) :
    ((v.goto p (.joinWait id k)).openJoins p).card = if (v.phase k).decd then 0 else 1 := by
  have hpn : p < v.next := h.join.slots.lt_next (by rw [hp]; exact Phase.noConfusion)
  have hwaiting : v.abs.status p = .waiting k := by
    rw [abs_status hpn, hp]
    rfl
  obtain ⟨hparent, hbegun⟩ := h.join.proto.links.waiting p k hwaiting
  obtain ⟨hk0, hkn, hkc⟩ := abs_parent.mp hparent
  have hself : (v.goto p (.joinWait id k)).phase p = .joinWait id k := by
    rw [goto_phase, if_pos rfl]
  have hdecd : ((v.goto p (.joinWait id k)).phase k).decd = (v.phase k).decd := by
    rw [goto_phase]
    split
    next hkp => rw [hkp, hp]; rfl
    next => rfl
  have hincd : (v.goto p (.joinWait id k)).Incd k := by
    refine ⟨?_, ?_⟩
    · rw [show (v.goto p (.joinWait id k)).joinStage k = .begun from hbegun]
      decide
    · rw [show (v.goto p (.joinWait id k)).creator k = p from hkc, hself]
      rfl
  have hjoins : ((v.goto p (.joinWait id k)).phase p).joins = some (id, k) := by rw [hself]; rfl
  have hsub := h'.openJoins_subset hjoins
  cases hd : (v.phase k).decd with
  | true =>
      rw [if_pos rfl, Finset.card_eq_zero, Finset.eq_empty_iff_forall_notMem]
      intro j hj
      obtain rfl := Finset.mem_singleton.mp (hsub hj)
      have hopen := (mem_openJoins.mp hj).2.2.2.2
      rw [hdecd, hd] at hopen
      cases hopen
  | false =>
      rw [if_neg Bool.false_ne_true, Finset.card_eq_one]
      refine ⟨k, Finset.Subset.antisymm hsub (Finset.singleton_subset_iff.mpr ?_)⟩
      exact mem_openJoins.mpr ⟨hkn, hk0, hkc, hincd, hdecd.trans hd⟩

/-- A child that comes past `DecNumWait` leaves its parent's set. -/
theorem openJoins_decd (hk : v.phase k = .exitDecd m) (q : Nat) :
    (v.goto k .exitRelease).openJoins q = (v.openJoins q).erase k := by
  ext j
  rw [Finset.mem_erase, mem_openJoins, mem_openJoins]
  have hincd : (v.goto k .exitRelease).Incd j ↔ v.Incd j := by
    rw [View.Incd, View.Incd, goto_phase]
    refine and_congr_right fun _ => ?_
    split
    next hc => rw [show v.creator j = k from hc, hk]; exact Iff.rfl
    next => exact Iff.rfl
  rw [hincd, goto_phase]
  by_cases hj : j = k
  · rw [if_pos hj]
    exact iff_of_false (fun h => absurd h.2.2.2.2 (by decide)) fun h => h.1 hj
  · rw [if_neg hj, and_iff_right hj]
    rfl

end Adjusted

/-! ## The count -/

/-- The state of a patient run in which the counts are right. -/
structure CountInv (s : State) : Prop where
  live : LiveInv s.view
  targets : Targets s.view
  counts : Counts s

namespace CountInv

variable {s s' : State} {a : Action} {p k m : Nat} {id : Int} {heap : Heap}

theorem init (name : String) : CountInv (State.init name 0) where
  live := LiveInv.init name
  targets := Targets.init name
  counts := by
    intro p hp
    obtain rfl : p = 0 := Nat.lt_one_iff.mp hp
    have hempty : (State.init name 0).view.openJoins 0 = ∅ := by
      rw [Finset.eq_empty_iff_forall_notMem]
      intro k hk
      obtain ⟨hkn, hk0, -⟩ := mem_openJoins.mp hk
      exact hk0 (Nat.lt_one_iff.mp hkn)
    rw [hempty]
    rfl

/-- Everything but the counts, after a step. -/
theorem next (h : CountInv s) (hp : Patient s a) (hs : step s a = some s') :
    LiveInv s'.view ∧ Targets s'.view := by
  rcases view_step hs with heq | hm
  · rw [heq]
    exact ⟨h.live, h.targets⟩
  · exact ⟨h.live.step hp hm, h.targets.step h.live hm⟩

/-- Other steps keep the counts. -/
theorem quiet (h : CountInv s) (hp : Patient s a) (hs : step s a = some s')
    (ha : ¬Adjusts s a) : Counts s' := by
  have hquiet := quiet_step h.live.join.slots ha hs
  have hsets : ∀ q, s'.view.openJoins q = s.view.openJoins q := by
    rcases view_step hs with heq | hm
    · rw [heq]
      exact fun _ => rfl
    · exact hm.openJoins_eq h.live hp hquiet.held
  intro q hq
  rw [hsets]
  rcases Nat.lt_or_ge q s.next with hlt | hge
  · rw [hquiet.numwait q hlt]
    exact h.counts q hlt
  · rw [hquiet.fresh q hge hq, h.live.openJoins_fresh hge]
    rfl

/-- Raising the count is right if the child has not exited. -/
theorem inc_iff (h : CountInv s) (hs : step s (.go p heap) = some s')
    (hp : (s.thr p).phase = .joinIncd id k m) :
    Counts s' ↔ (s.thr k).phase.decd = false := by
  obtain rfl : m = p := h.targets.inc p id k m (Or.inr hp)
  have hlive' := (h.next (a := .go m heap) trivial hs).1
  have hmn : m < s.next := h.live.join.slots.lt_next (v := s.view) (k := m)
    (by rw [show s.view.phase m = _ from hp]; exact Phase.noConfusion)
  have hd : (s.obj m).deleted = false := Bool.eq_false_iff.mpr fun hdel => by
    have hgone := h.live.deleted m hdel
    rw [show s.view.phase m = _ from hp] at hgone
    cases hgone
  obtain ⟨hview, hnext, hnumwait⟩ := step_inc hs hp hd
  rw [hview] at hlive'
  have hzero : (s.obj m).numwait = 0 := by
    rw [h.counts m hmn, h.live.openJoins_incs hp]
    rfl
  have hcard := h.live.openJoins_incd hp hlive'
  have hone : (s'.obj m).numwait = 1 := by
    rw [hnumwait, if_pos rfl, hzero]
    rfl
  constructor
  · intro hcounts
    have hm := hcounts m (hnext ▸ hmn)
    rw [hone, hview, hcard] at hm
    cases hdecd : (s.thr k).phase.decd with
    | false => rfl
    | true =>
        rw [show (s.view.phase k).decd = true from hdecd] at hm
        cases hm
  · intro hdecd q hq
    rw [hview]
    by_cases hqm : q = m
    · rw [hqm, hcard, hone, show (s.view.phase k).decd = false from hdecd]
      rfl
    · rw [openJoins_goto_ne (v := s.view) (a := .joinIncd id k m) (.joinWait id k) hp rfl hqm,
        hnumwait, if_neg hqm]
      exact h.counts q (hnext ▸ hq)

/-- Lowering it is right if the child's `Join` is in it, or it is zero. -/
theorem dec_iff (h : CountInv s) (hs : step s (.go k heap) = some s')
    (hk : (s.thr k).phase = .exitDecd m) :
    Counts s' ↔ s.view.Incd k ∨ s.view.openJoins (s.creator k) = ∅ := by
  obtain rfl : m = s.creator k := h.targets.dec k m (Or.inr hk)
  have hku : s.view.phase k ≠ .unborn := by
    rw [show s.view.phase k = _ from hk]
    exact Phase.noConfusion
  have hkg : s.view.phase k ≠ .gone := by
    rw [show s.view.phase k = _ from hk]
    exact Phase.noConfusion
  have hslots := h.live.join.slots
  have hkn : k < s.next := hslots.lt_next hku
  have hk0 : k ≠ 0 := hslots.ne_zero_of_exiting (by rw [show s.view.phase k = _ from hk]; rfl)
  have hparent := (h.live.parent_live hk0 hkn hkg).1
  have hmn : s.creator k < s.next := (hslots.creator k hk0 hkn).1.trans hkn
  have hd : (s.obj (s.creator k)).deleted = false := Bool.eq_false_iff.mpr fun hdel =>
    (Phase.live_iff.mp hparent).2 (h.live.deleted _ hdel)
  obtain ⟨hview, hnext, hnumwait⟩ := step_dec hs hk hd
  have hsets := openJoins_decd (v := s.view) hk
  have hcount := h.counts _ hmn
  have hle := h.live.card_openJoins_le (s.creator k)
  have hmem : k ∈ s.view.openJoins (s.creator k) ↔ s.view.Incd k := by
    rw [mem_openJoins]
    refine ⟨fun hopen => hopen.2.2.2.1, fun hincd => ⟨hkn, hk0, rfl, hincd, ?_⟩⟩
    rw [show s.view.phase k = _ from hk]
    rfl
  have hothers : ∀ q, q ≠ s.creator k → q < s'.next →
      (s'.obj q).numwait = (s'.view.openJoins q).card := by
    intro q hqm hq
    have hnot : k ∉ s.view.openJoins q := fun hopen => hqm (mem_openJoins.mp hopen).2.2.1.symm
    rw [hview, hsets, Finset.erase_eq_of_notMem hnot, hnumwait, if_neg fun hq' => hqm hq'.1]
    exact h.counts q (hnext ▸ hq)
  have hself : Counts s' ↔ (s'.obj (s.creator k)).numwait
      = ((s.view.openJoins (s.creator k)).erase k).card := by
    constructor
    · intro hcounts
      rw [← hsets, ← hview]
      exact hcounts _ (hnext ▸ hmn)
    · intro heq q hq
      by_cases hqm : q = s.creator k
      · rw [hqm, heq, hview, hsets]
      · exact hothers q hqm hq
  rw [hself, hnumwait]
  by_cases hincd : s.view.Incd k
  · -- its own `Join` is the open one
    have hone : (s.view.openJoins (s.creator k)).card = 1 :=
      Nat.le_antisymm hle (Finset.card_pos.mpr ⟨k, hmem.mpr hincd⟩)
    rw [Finset.card_erase_of_mem (hmem.mpr hincd), hcount, hone, if_pos ⟨rfl, by decide⟩]
    exact iff_of_true rfl (Or.inl hincd)
  · rw [or_iff_right hincd, Finset.erase_eq_of_notMem (mt hmem.mp hincd), hcount,
      ← Finset.card_eq_zero]
    rcases Nat.le_one_iff_eq_zero_or_eq_one.mp hle with h0 | h1
    · rw [h0, if_neg fun hpos => absurd hpos.2 (by decide)]
      exact iff_of_true rfl rfl
    · rw [h1, if_pos ⟨rfl, by decide⟩]
      exact iff_of_false (by decide) (by decide)

/-- A step of a patient process keeps the counts exactly if it is timely. -/
theorem step_iff (h : CountInv s) (hp : Patient s a) (hs : step s a = some s') :
    Counts s' ↔ Timely s a := by
  by_cases ha : Adjusts s a
  · obtain ⟨p, heap, rfl, hlocked⟩ := ha
    rw [Timely]
    cases hph : (s.thr p).phase with
    | joinIncd id k m => exact h.inc_iff hs hph
    | exitDecd m => exact h.dec_iff hs hph
    | _ =>
        rw [hph] at hlocked
        cases hlocked
  · refine iff_of_true (h.quiet hp hs ha) ?_
    cases a with
    | go p heap =>
        rw [Timely]
        cases hph : (s.thr p).phase with
        | joinIncd id k m => exact absurd ⟨p, heap, rfl, by rw [hph]; rfl⟩ ha
        | exitDecd m => exact absurd ⟨p, heap, rfl, by rw [hph]; rfl⟩ ha
        | _ => trivial
    | exec p name opens => trivial
    | join p id => trivial
    | exit p ec => trivial
    | load p ok => trivial

end CountInv

/-- **Join accounting.** In every run of patient processes with timely steps,
and the first program's `processID` zeroed, `numwait` is the number of open
`Join`s, 0 when the children have exited; and the next step of a patient
process keeps it so exactly if it is timely. -/
theorem numwait_counts {name : String} {s : State}
    (h : Reach step (fun s a => Patient s a ∧ Timely s a) (State.init name 0) s) :
    Counts s
      ∧ (∀ p, p < s.next → (∀ k, k ≠ 0 → k < s.next → s.creator k = p →
          (s.thr k).phase.decd = true) → (s.obj p).numwait = 0)
      ∧ ∀ a s', Patient s a → step s a = some s' → (Counts s' ↔ Timely s a) := by
  have hinv : CountInv s := by
    refine Reach.invariant (I := CountInv) (CountInv.init name) ?_ h
    intro s a s' _ hi hok hs
    obtain ⟨hlive, htargets⟩ := hi.next hok.1 hs
    exact ⟨hlive, htargets, (hi.step_iff hok.1 hs).mpr hok.2⟩
  refine ⟨hinv.counts, fun p hp hall => ?_, fun a s' hp hs => hinv.step_iff hp hs⟩
  have hempty : s.view.openJoins p = ∅ := by
    rw [Finset.eq_empty_iff_forall_notMem]
    intro k hk
    obtain ⟨hkn, hk0, hkc, -, hopen⟩ := mem_openJoins.mp hk
    rw [show (s.view.phase k).decd = true from hall k hk0 hkn hkc] at hopen
    cases hopen
  rw [hinv.counts p hp, hempty]
  rfl

instance (s : State) (p : Nat) : DecidablePred (TimelyFrom s p)
  | .joinIncd _ k _ => inferInstanceAs (Decidable ((s.thr k).phase.decd = false))
  | .exitDecd _ =>
      inferInstanceAs (Decidable (s.view.Incd p ∨ s.view.openJoins (s.creator p) = ∅))
  | .unborn | .start | .user | .execP _ | .execBody _ | .execFork _ | .execUnlock _ | .execV _
  | .ret _ | .joinInc _ _ _ | .joinWait _ _ | .joinSleep _ _ _ | .joinRead _ _ | .joinRet _ _ _
  | .exitDec _ | .exitRelease | .exitWait | .exitSleep _ | .exitRemove | .gone => .isTrue trivial

instance (s : State) : DecidablePred (Timely s)
  | .go p _ => inferInstanceAs (Decidable (TimelyFrom s p (s.thr p).phase))
  | .exec _ _ _ | .join _ _ | .exit _ _ | .load _ _ => .isTrue trivial

/-- The parent is asleep in `JoinWait` when its child exits. -/
theorem numwait_counts_join_first :
    ∃ s, Reach step (fun s a => Patient s a ∧ Timely s a) (State.init "shell" 0) s ∧ Counts s
      ∧ (s.thr 0).phase = .joinSleep 1 1 1 ∧ (s.obj 0).numwait = 1 := by
  have hrun : (exec step (fun s a => Patient s a ∧ Timely s a) (State.init "shell" 0)
      (joinRun.take 10)).map (fun s => ((s.thr 0).phase, (s.obj 0).numwait))
      = some (.joinSleep 1 1 1, 1) := rfl
  obtain ⟨s, hs, heq⟩ := Option.map_eq_some_iff.mp hrun
  have hreach := Reach.of_exec _ hs
  exact ⟨s, hreach, (numwait_counts hreach).1, congrArg Prod.fst heq, congrArg Prod.snd heq⟩

/-- The child is in `ExitWait` when its parent calls `Join`. -/
def lateJoinRun : List Action :=
  execRun 0 "job" ++ [.load 1 true, .exit 1 42, .go 1 zeroHeap, .go 1 zeroHeap, .go 1 zeroHeap,
    .join 0 1, .go 0 zeroHeap, .go 0 zeroHeap, .go 0 zeroHeap, .go 0 zeroHeap, .go 1 zeroHeap,
    .go 1 zeroHeap]

/-- The only child of the first program has exited, been joined and left the
table, and the count is 1. -/
theorem numwait_stays_one :
    ∃ s, Reach step Patient (State.init "shell" 0) s ∧ s.next = 2 ∧ (s.thr 0).phase = .user
      ∧ (s.thr 1).phase = .gone ∧ s.joinStage 1 = .collected ∧ s.view.openJoins 0 = ∅
      ∧ (s.obj 0).numwait = 1 := by
  have hrun : (exec step Patient (State.init "shell" 0) lateJoinRun).map (fun s =>
      (s.next, (s.thr 0).phase, (s.thr 1).phase, s.joinStage 1, s.view.openJoins 0,
        (s.obj 0).numwait))
      = some (2, .user, .gone, .collected, ∅, 1) := rfl
  obtain ⟨s, hs, heq⟩ := Option.map_eq_some_iff.mp hrun
  refine ⟨s, Reach.of_exec _ hs, ?_⟩
  simpa only [Prod.mk.injEq] using heq

end PTable

end Nachos
