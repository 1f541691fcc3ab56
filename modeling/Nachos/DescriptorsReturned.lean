import Nachos.Descriptors
import Nachos.ParentLiveness

/-!
# Descriptors over whole runs

A table entry belongs to a process that is in the process table, as long as
no process is removed with entries in use. The table model tells which
processes are removed but not by whose step, so the first part of this file
says that a part of a call changes the phase of the process that runs it and
of nobody else, the thread made by `Fork` apart (`phase_step_of_ne`): a
process that goes does so in its own `Remove` (`go_of_gone`), which is where
the guard `Tidy` looks at its entries.
-/

namespace Nachos

open Run Ownership

namespace Descriptors

/-! ## Who is removed -/

/-- The process whose step it is. -/
def actor : PTable.Action → Nat
  | .exec p _ _ | .join p _ | .exit p _ | .load p _ | .go p _ => p

section Table

variable {t t' : PTable.State} {p k : Nat}

theorem phase_joinPass_of_ne (hk : k ≠ p) (id : Int) (c m : Nat) :
    ((t.joinPass p id c m).thr k).phase = (t.thr k).phase := by
  unfold PTable.State.joinPass
  split
  next => rfl
  next =>
      split <;> simp [PTable.State.goto, PTable.State.setSem, PTable.State.setBlocked,
        PTable.State.setJoinStage, hk]

theorem phase_remove_of_ne (hk : k ≠ p) : ((t.remove p).thr k).phase = (t.thr k).phase := by
  unfold PTable.State.remove
  repeat' split
  all_goals first
    | rfl
    | exact PTable.phase_goto_of_ne hk _

theorem phase_go_of_ne (hk : k ≠ p) {heap : PTable.Heap} (h : t.go p heap = some t') :
    (t'.thr k).phase = (t.thr k).phase ∨ (t'.thr k).phase = .start := by
  have hdec : ∀ m, (t.decNumWait m).thr = t.thr := by
    intro m
    unfold PTable.State.decNumWait
    split <;> rfl
  unfold PTable.State.go at h
  split at h
  case h_1 | h_2 | h_3 | h_4 => cases h
  case h_7 c hp =>
    obtain rfl := Option.some.inj h
    rw [PTable.State.execFork, PTable.phase_goto_of_ne hk]
    by_cases hkc : k = c
    · subst hkc
      simp [PTable.Thread.new]
    · simp [hkc]
  case h_6 name hp =>
    obtain rfl := Option.some.inj h
    refine Or.inl ?_
    unfold PTable.State.execUpdate
    repeat' split
    all_goals first
      | rfl
      | exact PTable.phase_doV_of_ne hk _ _
      | exact PTable.phase_passP_of_ne hk _ _ _
  case h_18 m hp =>
    obtain rfl := Option.some.inj h
    rw [PTable.phase_doV_of_ne hk, hdec]
    exact Or.inl rfl
  all_goals refine Or.inl ?_
  case h_13 | h_19 | h_20 =>
    split at h
    all_goals
      obtain rfl := Option.some.inj h
      first
        | rfl
        | exact phase_joinPass_of_ne hk _ _ _
        | exact PTable.phase_doV_of_ne hk _ _
        | exact PTable.phase_passP_of_ne hk _ _ _
  case h_15 id c hp =>
    obtain rfl := Option.some.inj h
    unfold PTable.State.joinRead
    split
    · rfl
    · exact PTable.phase_doV_of_ne hk _ _
  all_goals
    obtain rfl := Option.some.inj h
    first
      | exact PTable.phase_passP_of_ne hk _ _ _
      | exact PTable.phase_doV_of_ne hk _ _
      | exact PTable.phase_goto_of_ne hk _
      | exact phase_joinPass_of_ne hk _ _ _
      | exact phase_remove_of_ne hk

/-- A part of a call changes the phase of the process that runs it, and of
the thread it makes. -/
theorem phase_act_of_ne {a : PTable.Action} (h : PTable.act t a = some t') (hk : k ≠ actor a) :
    (t'.thr k).phase = (t.thr k).phase ∨ (t'.thr k).phase = .start := by
  unfold PTable.act at h
  cases a with
  | go p heap =>
      dsimp only at h
      split at h
      · cases h
      · exact phase_go_of_ne hk h
  | exec p name opens =>
      refine Or.inl ?_
      dsimp only at h
      split at h
      · split at h
        all_goals obtain rfl := Option.some.inj h
        · exact PTable.phase_passP_of_ne hk _ _ _
        · exact PTable.phase_goto_of_ne hk _
      · cases h
  | load p ok =>
      refine Or.inl ?_
      dsimp only at h
      split at h
      · split at h
        all_goals obtain rfl := Option.some.inj h
        · exact PTable.phase_goto_of_ne hk _
        · rfl
      · cases h
  | join p id =>
      refine Or.inl ?_
      dsimp only at h
      split at h
      · obtain rfl := Option.some.inj h
        unfold PTable.State.joinUpdate
        repeat' split
        all_goals first
          | rfl
          | exact PTable.phase_goto_of_ne hk _
          | exact PTable.phase_passP_of_ne hk _ _ _
      · cases h
  | exit p ec =>
      refine Or.inl ?_
      dsimp only at h
      split at h
      · obtain rfl := Option.some.inj h
        unfold PTable.State.exitUpdate
        repeat' split
        all_goals first
          | rfl
          | exact PTable.phase_passP_of_ne hk _ _ _
      · cases h

theorem phase_step_of_ne {a : PTable.Action} (h : PTable.step t a = some t') (hk : k ≠ actor a) :
    (t'.thr k).phase = (t.thr k).phase ∨ (t'.thr k).phase = .start := by
  obtain ⟨-, t₁, hact, ⟨-, rfl⟩ | ⟨-, rfl⟩⟩ := PTable.step_cases h
  · exact phase_act_of_ne hact hk
  · exact Or.inl rfl

/-- A process that goes does so in its own `Remove`. -/
theorem go_of_gone {g : Int} {a : PTable.Action} (hs : PTable.SlotInv g t.view)
    (h : PTable.step t a = some t') (hk : (t'.thr k).phase = .gone)
    (hne : (t.thr k).phase ≠ .gone) :
    (t.thr k).phase = .exitRemove ∧ ∃ heap, a = .go k heap := by
  have hremove : (t.thr k).phase = .exitRemove := by
    rcases PTable.view_step h with hv | hm
    · exact absurd ((congrFun (congrArg PTable.View.phase hv) k).symm.trans hk) hne
    · obtain ⟨p, hp⟩ := hm.moved hs
      by_cases hkp : k = p
      · subst hkp
        exact hp.gone hk
      · rcases hp.others k hkp with he | ⟨-, he⟩
        · exact absurd (he.symm.trans hk) hne
        · cases he.symm.trans hk
  have hactor : k = actor a := by
    by_contra hka
    rcases phase_step_of_ne h hka with he | he
    · exact hne (he.symm.trans hk)
    · rw [hk] at he
      cases he
  refine ⟨hremove, ?_⟩
  unfold PTable.step PTable.act at h
  cases a with
  | go p heap => exact ⟨heap, by rw [hactor]; rfl⟩
  | exec p name opens | join p id | exit p ec | load p ok =>
      obtain rfl : k = p := hactor
      simp [PTable.State.inUser, hremove] at h

end Table

/-! ## The invariant -/

structure Inv (s : State) : Prop where
  books : Books s
  slots : PTable.SlotInv 0 s.table.view
  empty : ∀ k, s.table.next ≤ k ∨ (s.table.thr k).phase = .gone → ∀ i, s.fileTable k i = none

section Inv

variable {s s' : State} {p k : Nat}

theorem next_step {t t' : PTable.State} {a : PTable.Action} (h : PTable.step t a = some t') :
    t'.next = t.next ∨ t'.next = t.next + 1 := by
  rcases PTable.view_step h with hv | hm
  · exact Or.inl (congrArg PTable.View.next hv)
  · change t'.view.next = t.view.next ∨ t'.view.next = t.view.next + 1
    generalize t'.view = v' at hm
    cases hm with
    | spawn => exact Or.inr rfl
    | _ => exact Or.inl rfl

theorem slots_step {t t' : PTable.State} {a : PTable.Action} (h : PTable.SlotInv 0 t.view)
    (ht : PTable.step t a = some t') : PTable.SlotInv 0 t'.view := by
  rcases PTable.view_step ht with hv | hm
  · rw [hv]
    exact h
  · rcases h.step hm with h' | ⟨h0, -⟩
    · exact h'
    · exact absurd rfl h0

theorem Inv.empty_step (h : Inv s) {a : PTable.Action} {creates : Bool} {stdin stdout : Opening}
    (hok : Tidy s (.sys a creates stdin stdout)) {t' : PTable.State}
    (ht : PTable.step s.table a = some t') (hk : s.table.next ≤ k ∨ (t'.thr k).phase = .gone)
    (i : Nat) : s.fileTable k i = none := by
  by_cases hold : s.table.next ≤ k ∨ (s.table.thr k).phase = .gone
  · exact h.empty k hold i
  rw [not_or] at hold
  obtain ⟨hremove, heap, rfl⟩ := go_of_gone h.slots ht (hk.resolve_left hold.1) hold.2
  by_cases hi : i < FileTable.size
  · refine hok hremove k ?_ i hi
    exact h.slots.pcbAt_processID (by rw [show s.table.view.phase k = _ from hremove]; rfl)
  · exact h.books.size k i (Nat.not_lt.mp hi)

theorem Inv.follow (h : Inv s) {a : PTable.Action} {creates : Bool} {stdin stdout : Opening}
    (hok : Tidy s (.sys a creates stdin stdout)) {t' : PTable.State}
    (ht : PTable.step s.table a = some t') (hs : s.follow a creates stdin stdout t' = some s') :
    Inv s' := by
  have hslots := slots_step h.slots ht
  have hempty := fun k hk => h.empty_step (k := k) hok ht hk
  have hbooks : Books { s with table := t' } := { h.books with }
  unfold State.follow at hs
  split at hs
  next hnext =>
      split at hs
      next =>
          have hsucc : t'.next = s.table.next + 1 := (next_step ht).resolve_left hnext
          have hnew : Function.update s.fileTable s.table.next (fun _ => none) = s.fileTable := by
            rw [Function.update_eq_self_iff]
            funext i
            exact (h.empty _ (Or.inl le_rfl) i).symm
          simp only [State.construct, hnew] at hs
          obtain ⟨s₁, hs₁, hs₂⟩ := Option.bind_eq_some_iff.mp hs
          have hempty₀ := h.empty _ (Or.inl le_rfl)
          obtain ⟨hb₁, ht₁, hf₁⟩ := hbooks.fill hs₁ (hempty₀ 0) (by decide)
          obtain ⟨hb₂, ht₂, hf₂⟩ := hb₁.fill hs₂
            ((hf₁ _ 1 (by omega)).trans (hempty₀ 1)) (by decide)
          refine ⟨hb₂, by rw [ht₂, ht₁]; exact hslots, fun k hk i => ?_⟩
          rw [ht₂, ht₁] at hk
          have hkn : k ≠ s.table.next := by
            rintro rfl
            rcases hk with hk | hk
            · exact absurd hk (by simp only [hsucc]; omega)
            · have hunborn : (s.table.thr s.table.next).phase = .unborn :=
                h.slots.fresh _ le_rfl
              obtain ⟨hremove, -⟩ := go_of_gone h.slots ht hk
                (by rw [hunborn]; exact PTable.Phase.noConfusion)
              rw [hunborn] at hremove
              cases hremove
          rw [hf₂ k i fun he => hkn he.1, hf₁ k i fun he => hkn he.1]
          exact hempty k (hk.imp_left fun hle => by simp only [hsucc] at hle; omega) i
      next =>
          obtain rfl := Option.some.inj hs
          exact ⟨{ h.books with }, h.slots, h.empty⟩
  next hnext =>
      have hnext : t'.next = s.table.next := not_not.mp hnext
      have hinv : Inv { s with table := t' } :=
        ⟨hbooks, hslots, fun k hk => hempty k (hk.imp_left fun hle => hnext ▸ hle)⟩
      split at hs
      next =>
          obtain rfl := Option.some.inj hs
          exact hinv
      next =>
          split at hs
          next p ok =>
              obtain ⟨hb, htab, hft⟩ := hbooks.loaded hs
              exact ⟨hb, by rw [htab]; exact hinv.slots, by rw [htab, hft]; exact hinv.empty⟩
          next p heap =>
              split at hs
              next k hk =>
                  unfold State.destructs at hk
                  split at hk
                  next hremove =>
                      obtain ⟨hpcb, hthread⟩ := Option.filter_eq_some_iff.mp hk
                      have hlive : (s.table.view.phase p).live = true := by
                        rw [show s.table.view.phase p = _ from hremove]
                        rfl
                      obtain rfl : p = k :=
                        Option.some.inj ((h.slots.pcbAt_processID hlive).symm.trans hpcb)
                      have hp0 := h.slots.ne_zero_of_exiting (p := p)
                        (by rw [show s.table.view.phase p = _ from hremove]; rfl)
                      have hsome : (s.table.obj p).thread = some p :=
                        h.slots.thread p hp0 (PTable.Phase.live_iff.mp hlive).1
                      simp [hsome] at hthread
                  next => cases hk
              next =>
                  obtain rfl := Option.some.inj hs
                  exact hinv
          next =>
              obtain rfl := Option.some.inj hs
              exact hinv

/-- A change of the caller's own table. -/
theorem Inv.own (h : Inv s) (hp : s.table.inUser p)
    (hk : s.table.pcbAt (s.table.thr p).processID = some k) (hbooks : Books s')
    (htable : s'.table = s.table)
    (hother : ∀ k' i, k' ≠ k → s'.fileTable k' i = s.fileTable k' i) : Inv s' := by
  have hlive : (s.table.view.phase p).live = true := by
    rw [show s.table.view.phase p = _ from hp]
    rfl
  obtain rfl : p = k := Option.some.inj ((h.slots.pcbAt_processID hlive).symm.trans hk)
  obtain ⟨hu, hg⟩ := PTable.Phase.live_iff.mp hlive
  have hlt := h.slots.lt_next hu
  refine ⟨hbooks, by rw [htable]; exact h.slots, fun k' hk' i => ?_⟩
  rw [htable] at hk'
  have hne : k' ≠ p := by
    rintro rfl
    rcases hk' with hle | hgone
    · exact absurd hlt (Nat.not_lt.mpr hle)
    · exact hg hgone
  rw [hother k' i hne]
  exact h.empty k' hk' i

theorem Inv.halt (h : Inv s) (why : PTable.Stop) : Inv (s.halt why) :=
  ⟨{ h.books with }, h.slots, h.empty⟩

theorem Inv.step {a : Action} (h : Inv s) (hok : Tidy s a) (hs : step s a = some s') :
    Inv s' := by
  unfold Descriptors.step at hs
  split at hs
  next => cases hs
  next =>
      cases a with
      | sys a creates stdin stdout =>
          obtain ⟨t', ht, hs⟩ := Option.bind_eq_some_iff.mp hs
          exact h.follow hok ht hs
      | load p fd =>
          dsimp only at hs
          split at hs
          next hc =>
              obtain rfl := Option.some.inj hs
              exact ⟨h.books.load hc.2.1 hc.2.2, h.slots, h.empty⟩
          next => cases hs
      | openFile p name type o =>
          dsimp only at hs
          split at hs
          next hp =>
              split at hs
              next =>
                  obtain rfl := Option.some.inj hs
                  exact h.halt _
              next k hk =>
                  split at hs
                  next i f hf =>
                      obtain ⟨hi, hnone, -⟩ := FileTable.openFile_some (Prod.ext rfl hf)
                      obtain ⟨hb, htab, hft⟩ := h.books.fill hs hnone hi
                      exact h.own hp hk hb htab fun k' i' hne => hft k' i' fun he => hne he.1
                  next =>
                      obtain rfl := Option.some.inj hs
                      exact h
          next => cases hs
      | close p id =>
          dsimp only at hs
          split at hs
          next hp =>
              split at hs
              next =>
                  obtain rfl := Option.some.inj hs
                  exact h.halt _
              next k hk =>
                  split at hs
                  next i f hf =>
                      obtain rfl := Option.some.inj hs
                      obtain ⟨-, hentry⟩ := FileTable.close_some (Prod.ext rfl hf)
                      obtain ⟨hb, htab, hft⟩ := h.books.release hentry
                      refine h.own hp hk hb htab fun k' i' hne => ?_
                      rw [hft, setFile_apply, if_neg fun he => hne he.1]
                  next =>
                      obtain rfl := Option.some.inj hs
                      exact h
          next => cases hs

theorem Inv.boot {name : String} {stdin stdout : Opening}
    (h : boot name 0 stdin stdout = some s) : Inv s := by
  have hnew : Function.update (fun _ _ => none : Nat → FileTable) 0 (fun _ => none)
      = fun _ _ => none := Function.update_eq_self_iff.mpr rfl
  simp only [Descriptors.boot, State.construct, hnew] at h
  obtain ⟨s₁, hs₁, hs₂⟩ := Option.bind_eq_some_iff.mp h
  have hbooks : Books
      { table := PTable.State.init name 0, fileTable := fun _ _ => none,
        executable := fun _ => none, isOpen := fun _ => false, log := [] } := by
    refine ⟨⟨fun r => ?_, fun r r' _ x hx => ?_, fun x => ?_⟩, fun _ _ _ => rfl, ?_,
      fun _ _ _ => rfl⟩
    · cases r <;> exact List.nodup_nil
    · cases r <;> cases hx
    · refine ⟨fun hx => absurd hx Bool.false_ne_true, ?_⟩
      rintro ⟨r, hr⟩
      cases r <;> cases hr
    · rintro k fd ⟨i, f, hf, -⟩
      cases hf
  obtain ⟨hb₁, ht₁, hf₁⟩ := hbooks.fill hs₁ rfl (by decide)
  obtain ⟨hb₂, ht₂, hf₂⟩ := hb₁.fill hs₂ (hf₁ 0 1 (by decide)) (by decide)
  refine ⟨hb₂, by rw [ht₂, ht₁]; exact PTable.SlotInv.init name 0, fun k hk i => ?_⟩
  rw [ht₂, ht₁] at hk
  have hk0 : k ≠ 0 := by
    rintro rfl
    rcases hk with hk | hk
    · exact absurd hk (by decide : ¬ 1 ≤ 0)
    · exact absurd hk PTable.Phase.noConfusion
  rw [hf₂ k i fun he => hk0 he.1, hf₁ k i fun he => hk0 he.1]

theorem Inv.descriptorsOK (h : Inv s) : DescriptorsOK s := by
  have hentry : ∀ {k i f}, s.fileTable k i = some f → i < FileTable.size
      ∧ k < s.table.next ∧ (s.table.thr k).phase ≠ .gone := by
    intro k i f hf
    have hne : s.fileTable k i ≠ none := by rw [hf]; exact Option.some_ne_none _
    refine ⟨Nat.lt_of_not_le fun hle => hne (h.books.size k i hle),
      Nat.lt_of_not_le fun hle => hne (h.empty k (Or.inl hle) i),
      fun hg => hne (h.empty k (Or.inr hg) i)⟩
  constructor
  case exact =>
    intro fd
    constructor
    · rintro ⟨hopen, hexec⟩
      obtain ⟨r, hr⟩ := (h.books.tracks.taken fd).mp hopen
      cases r with
      | entry k i =>
          obtain ⟨f, hf, hfd⟩ := mem_held_entry.mp hr
          obtain ⟨hi, hk, hg⟩ := hentry hf
          exact ⟨s.table.slotOf k, k, i, f, h.slots.slot_lt k hk, h.slots.bit k hk hg,
            h.slots.holds k hk hg, hi, hf, hfd⟩
      | executable p => exact absurd (Option.mem_toList.mp hr) (hexec p)
    · rintro ⟨slot, k, i, f, -, -, -, -, hf, rfl⟩
      refine ⟨h.books.isOpen hf, fun p hp => ?_⟩
      exact h.books.tracks.disjoint (.executable p) (.entry k i) Ref.noConfusion f.file
        (Option.mem_toList.mpr hp) (mem_held_entry.mpr ⟨f, hf, rfl⟩)
  case gone =>
    intro k hk
    have hnone := h.empty k (Or.inr hk)
    refine ⟨hnone, fun fd => h.books.hasNot k fd ?_⟩
    rintro ⟨i, f, hf, -⟩
    rw [hnone i] at hf
    cases hf

end Inv

/-- **Descriptors are returned** in every run in which each process has closed
its files when it is removed. -/
theorem descriptors_returned {name : String} {stdin stdout : Opening} {s₀ s : State}
    (h₀ : boot name 0 stdin stdout = some s₀) (h : Reach step Tidy s₀ s) : DescriptorsOK s :=
  (Reach.invariant (Inv.boot h₀) (fun _ _ _ _ hi hok hs => hi.step hok hs) h).descriptorsOK

instance (s : State) : DecidablePred (Tidy s)
  | .sys (.go p _) _ _ _ => inferInstanceAs (Decidable ((s.table.thr p).phase = .exitRemove →
      ∀ k ∈ s.table.pcbAt (s.table.thr p).processID, ∀ i < FileTable.size, s.fileTable k i = none))
  | .sys (.exec _ _ _) _ _ _ | .sys (.join _ _) _ _ _ | .sys (.exit _ _) _ _ _
  | .sys (.load _ _) _ _ _ | .load _ _ | .openFile _ _ _ _ | .close _ _ =>
      inferInstanceAs (Decidable True)

/-- Parts of calls, in which a new `PCB` gets descriptors 5 and 6. -/
def calls (as : List PTable.Action) : List Action :=
  as.map fun a => .sys a true ⟨some 5, ""⟩ ⟨some 6, ""⟩

/-- The first program runs `job` and joins it; `job` does `own` and exits. -/
def jobRun (own : List Action) : List Action :=
  calls (PTable.execRun 0 "job") ++ .load 1 7 :: calls [.load 1 true] ++ own
    ++ calls (PTable.joinRun.drop 7)

def bootSample : Option State := boot "shell" 0 ⟨some 3, ""⟩ ⟨some 4, ""⟩

/-- What is left of `job` when it is gone. -/
def traces (s : State) : Bool × List Nat × Nat × Nat :=
  (s.table.bm.testBit 1, [5, 6].filter s.isOpen, s.log.count (.opened 1 5),
    s.log.count (.closed 1 5))

theorem descriptors_returned_tidy_job :
    ∃ s₀ s, bootSample = some s₀ ∧ Reach step Tidy s₀ s ∧ DescriptorsOK s
      ∧ (s.table.thr 1).phase = .gone ∧ traces s = (false, [], 1, 1) := by
  have hrun : (bootSample.bind fun s₀ => exec step Tidy s₀ (jobRun [.close 1 0, .close 1 1])).map
      (fun s => ((s.table.thr 1).phase, traces s)) = some (.gone, false, [], 1, 1) := by
    decide +kernel
  obtain ⟨s, hs, hobs⟩ := Option.map_eq_some_iff.mp hrun
  obtain ⟨hgone, htraces⟩ := Prod.mk.inj hobs
  obtain ⟨s₀, h₀, hs⟩ := Option.bind_eq_some_iff.mp hs
  have hreach := Reach.of_exec _ hs
  exact ⟨s₀, s, h₀, hreach, descriptors_returned h₀ hreach, hgone, htraces⟩

/-- A child that exits without closing anything leaves its `stdin` and
`stdout` open. -/
theorem descriptors_leak_at_exit :
    ∃ s₀ s, bootSample = some s₀ ∧ Reach step Any s₀ s ∧ (s.table.thr 1).phase = .gone
      ∧ traces s = (false, [5, 6], 1, 0) ∧ ¬DescriptorsOK s := by
  have hrun : (bootSample.bind fun s₀ => exec step Any s₀ (jobRun [])).map
      (fun s => ((s.table.thr 1).phase, traces s)) = some (.gone, false, [5, 6], 1, 0) := by
    decide +kernel
  obtain ⟨s, hs, hobs⟩ := Option.map_eq_some_iff.mp hrun
  obtain ⟨s₀, h₀, hs⟩ := Option.bind_eq_some_iff.mp hs
  obtain ⟨hgone, htraces⟩ := Prod.mk.inj hobs
  refine ⟨s₀, s, h₀, Reach.of_exec _ hs, hgone, htraces, fun h => ?_⟩
  have hopened : s.log.count (.opened 1 5) = 1 := congrArg (fun x => x.2.2.1) htraces
  have hclosed : s.log.count (.closed 1 5) = 0 := congrArg (fun x => x.2.2.2) htraces
  have := (h.gone 1 hgone).2 5
  omega

end Descriptors

end Nachos
