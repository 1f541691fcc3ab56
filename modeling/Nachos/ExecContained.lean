import Nachos.Exec

/-!
# Failures of `Exec` are contained

The invariant behind `Exec.Contained`, kept by every `Loadable` step: the
address spaces keep theirs, every `Load` under way is on a well-formed header
and none is about to return `FALSE` (`Ready`), and slot 0 of the table has a
`PCB`. From it, `StartProcess` always comes to `Execute`.

Without `Loadable` the machine stops: the last result runs an `Exec` on an
empty file and on one that has been removed after `SysExec` opened it.
-/

namespace Nachos

open CInt Run ByteMemory Machine
open AddrSpace (Regular Seekable)

namespace Exec

/-! ## The invariant -/

structure Inv (s : State) : Prop where
  spaces : Spaces.Inv s.sp
  ready : ∀ p, Ready (s.sp.space p)
  first : s.tab.pcb 0 ≠ none

namespace Inv

variable {s s' : State} {p : Nat}

theorem init {name : String} {heap : Int} {sp : Spaces.State} (hb : Booted sp) :
    Inv (State.init name heap sp) := by
  refine ⟨Reach.invariant Spaces.Inv.init (fun _ _ _ _ hi hreg hs => hi.step hreg hs) hb.reach,
    fun p => ?_, Option.some_ne_none 0⟩
  change Ready (sp.space p)
  by_cases hp : p = 0
  · subst hp
    rw [Ready, show (sp.space 0).phase = .user from hb.first]
    trivial
  · rw [Ready, hb.others p hp]
    trivial

theorem ready_other {sp : Spaces.State} (h : Inv s) {a : Spaces.Action}
    (hs : Spaces.step s.sp a = some sp) (hself : Ready (sp.space (a.actor s.sp))) (q : Nat) :
    Ready (sp.space q) := by
  by_cases hq : q = a.actor s.sp
  · rw [hq]
    exact hself
  · rw [Spaces.Inv.space_step_of_ne hs hq]
    exact h.ready q

/-- What a step of the address spaces in an `Exec` or a destructor leaves. -/
structure Advanced (s : State) (p : Nat) (sp : Spaces.State) : Prop where
  spaces : Spaces.Inv sp
  ready : ∀ q, Ready (sp.space q)
  goes : sp.stop = none

theorem load (h : Inv s) {stack : List UInt8} {executable : Option File} {sp : Spaces.State}
    (hok : Loadable s (.load p stack executable))
    (hs : Spaces.step s.sp (.load p stack executable) = some sp) : Advanced s p sp := by
  cases executable with
  | none => exact hok.elim
  | some file =>
      have hw : WellFormed (readHeader stack file) := hok
      have hreg : Spaces.Regularly s.sp (.load p stack (some file)) :=
        fun _ => ⟨hw.regular, hw.virtualAddr⟩
      have hinv := h.spaces.step hreg hs
      have hself : Ready (sp.space p) ∧ sp.stop = none := by
        obtain ⟨hnone, hdoes⟩ := Spaces.does_of_step hs
        cases hdoes with
        | load _ _ _ _ => exact (ready_load hw).imp_right fun hst => hst.trans hnone
      exact ⟨hinv, h.ready_other hs hself.1, hself.2⟩

theorem space (h : Inv s) {sp : Spaces.State} (hok : Loadable s (.space p))
    (hs : Spaces.step s.sp (.go p) = some sp) : Advanced s p sp := by
  have hself := ready_go h.spaces (h.ready p) hok hs
  have hreg : Spaces.Regularly s.sp (.go p) := trivial
  exact ⟨h.spaces.step hreg hs, h.ready_other hs hself.1, hself.2⟩

/-- `StartProcess` goes on. -/
theorem settle (h : Inv s) (hrun : s.Running) {sp : Spaces.State} (hadv : Advanced s p sp) :
    Inv (s.settle p sp) ∧ (s.settle p sp).Running := by
  have hsame : Inv ⟨s.tab, sp⟩ ∧ State.Running ⟨s.tab, sp⟩ :=
    ⟨⟨hadv.spaces, hadv.ready, h.first⟩, hrun.1, hadv.goes⟩
  unfold State.settle
  split
  next hstart =>
      split
      next =>
          have hload : PTable.step s.tab (.load p true) = some (s.tab.goto p .user) := by
            have hstop : (s.tab.goto p .user).stop = none := hrun.1
            simp only [PTable.step, PTable.act, hstart, hrun.1, if_true, Option.map_some, hstop,
              ne_eq, not_true_eq_false, if_false]
          rw [hload]
          exact ⟨⟨hadv.spaces, hadv.ready, h.first⟩, hrun.1, hadv.goes⟩
      next href =>
          have := hadv.ready p
          rw [Ready, href] at this
          exact this.elim
      next => exact hsame
  next => exact hsame

theorem freeSpace (h : Inv s) (a : PTable.Action) (tab : PTable.State) :
    Spaces.Inv (s.freeSpace a tab) ∧ ∀ q, Ready ((s.freeSpace a tab).space q) := by
  have hsame : Spaces.Inv s.sp ∧ ∀ q, Ready (s.sp.space q) := ⟨h.spaces, h.ready⟩
  unfold State.freeSpace
  split
  next p _ =>
      split
      next =>
          cases hs : Spaces.step s.sp (.exit p) with
          | none => exact hsame
          | some sp =>
              have hreg : Spaces.Regularly s.sp (.exit p) := trivial
              refine ⟨h.spaces.step hreg hs, h.ready_other hs ?_⟩
              cases (Spaces.does_of_step hs).2 with
              | exit _ _ =>
                  change Ready ((s.sp.goto p (.clear 0)).space p)
                  rw [Ready, Spaces.Inv.phase_goto]
                  trivial
      next => exact hsame
  next => exact hsame

theorem sysCall (h : Inv s) {a : PTable.Action} {opens : Bool}
    (hs : s.sysCall a opens = some s') : Inv s' := by
  obtain ⟨tab, htab, rfl⟩ := Option.map_eq_some_iff.mp hs
  split
  next => exact ⟨h.spaces, h.ready, h.first⟩
  next =>
      obtain ⟨hsp, hready⟩ := h.freeSpace a tab
      exact ⟨hsp, hready, pcb_zero_step htab h.first⟩

/-- An access leaves the running program running. -/
theorem access (h : Inv s) {a : Spaces.Action} {sp : Spaces.State}
    (hreg : Spaces.Regularly s.sp a) (hs : Spaces.step s.sp a = some sp)
    (hself : Ready (sp.space (a.actor s.sp))) : Inv ⟨s.tab, sp⟩ :=
  ⟨h.spaces.step hreg hs, h.ready_other hs hself, h.first⟩

theorem mem (h : Inv s) {a : Spaces.Action} (hs : Exec.step s (.mem a) = some s') : Inv s' := by
  have ready_user : ∀ {x : Spaces.Space}, x.phase = .user → Ready x := by
    intro x hx
    rw [Ready, hx]
    trivial
  unfold Exec.step at hs
  split at hs
  next =>
      cases a with
      | load _ _ _ | go _ | exit _ => cases hs
      | switch p =>
          obtain ⟨sp, hsp, rfl⟩ := Option.map_eq_some_iff.mp hs
          have hreg : Spaces.Regularly s.sp (.switch p) := trivial
          refine h.access hreg hsp ?_
          cases (Spaces.does_of_step hsp).2 with
          | switch _ hu => exact ready_user hu
      | read addr size =>
          obtain ⟨sp, hsp, rfl⟩ := Option.map_eq_some_iff.mp hs
          have hreg : Spaces.Regularly s.sp (.read addr size) := trivial
          refine h.access hreg hsp ?_
          cases (Spaces.does_of_step hsp).2 with
          | read _ _ hu => exact ready_user (Spaces.Inv.phase_read hu addr size)
      | write addr size value =>
          obtain ⟨sp, hsp, rfl⟩ := Option.map_eq_some_iff.mp hs
          have hreg : Spaces.Regularly s.sp (.write addr size value) := trivial
          refine h.access hreg hsp ?_
          cases (Spaces.does_of_step hsp).2 with
          | write _ _ _ hu => exact ready_user (Spaces.Inv.phase_write hu addr size value)
  next => cases hs

end Inv

/-! ## The steps, taken apart -/

section Steps

variable {s s' : State} {p : Nat}

theorem running_of_step {a : Action} (hs : step s a = some s') : s.Running := by
  unfold step at hs
  split at hs
  next hrun => exact hrun
  next => cases hs

theorem step_sys {a : PTable.Action} {opens : Bool} (hs : step s (.sys a opens) = some s') :
    s.sysCall a opens = some s' := by
  have hrun := running_of_step hs
  cases a with
  | load _ _ =>
      rw [step, if_pos hrun] at hs
      cases hs
  | exec _ _ _ | join _ _ | exit _ _ | go _ _ =>
      rwa [step, if_pos hrun] at hs
      all_goals nofun

theorem step_load {stack : List UInt8} {executable : Option File}
    (hs : step s (.load p stack executable) = some s') :
    ∃ sp, Spaces.step s.sp (.load p stack executable) = some sp ∧ s' = s.settle p sp := by
  have hrun := running_of_step hs
  rw [step, if_pos hrun] at hs
  split at hs
  next =>
      obtain ⟨sp, hsp, rfl⟩ := Option.map_eq_some_iff.mp hs
      exact ⟨sp, hsp, rfl⟩
  next => cases hs

theorem step_space (hs : step s (.space p) = some s') :
    ∃ sp, Spaces.step s.sp (.go p) = some sp ∧ s' = s.settle p sp := by
  have hrun := running_of_step hs
  rw [step, if_pos hrun] at hs
  obtain ⟨sp, hsp, rfl⟩ := Option.map_eq_some_iff.mp hs
  exact ⟨sp, hsp, rfl⟩

@[simp] theorem sp_settle (s : State) (p : Nat) (sp : Spaces.State) :
    (s.settle p sp).sp = sp := by
  unfold State.settle
  split
  next => split <;> rfl
  next => rfl

theorem Inv.step {a : Action} (h : Inv s) (hok : Loadable s a) (hs : Exec.step s a = some s') :
    Inv s' := by
  have hrun := running_of_step hs
  cases a with
  | sys a opens => exact h.sysCall (step_sys hs)
  | load p stack executable =>
      obtain ⟨sp, hsp, rfl⟩ := step_load hs
      exact (h.settle hrun (h.load hok hsp)).1
  | space p =>
      obtain ⟨sp, hsp, rfl⟩ := step_space hs
      exact (h.settle hrun (h.space hok hsp)).1
  | mem a => exact h.mem hs

/-- Nothing an `Exec` does in the caller concerns an address space. -/
theorem freeSpace_of_exec {a : PTable.Action} {opens : Bool} (he : ExecStep s (.sys a opens))
    (tab : PTable.State) : s.freeSpace a tab = s.sp := by
  cases a with
  | go p heap =>
      have hexec : inExec (s.tab.thr p).phase = true := he
      rw [State.freeSpace, if_neg]
      rintro ⟨hph, -⟩
      rw [hph] at hexec
      cases hexec
  | exec _ _ _ | join _ _ | exit _ _ | load _ _ => rfl

theorem sp_sysCall {a : PTable.Action} {opens : Bool} (he : ExecStep s (.sys a opens))
    (hs : s.sysCall a opens = some s') : s'.sp = s.sp := by
  obtain ⟨tab, -, rfl⟩ := Option.map_eq_some_iff.mp hs
  split
  next => rfl
  next => exact freeSpace_of_exec he tab

/-- The part of an `Exec` in the caller, once the machine has run it. -/
theorem stop_act (h0 : s.tab.pcb 0 ≠ none) {a : PTable.Action} {opens : Bool}
    (hok : Loadable s (.sys a opens)) (he : ExecStep s (.sys a opens)) {t : PTable.State}
    (hact : PTable.act s.tab a = some t) : t.stop = s.tab.stop := by
  cases a with
  | exec p name exists_ =>
      simp only [PTable.act] at hact
      split at hact
      next =>
          split at hact
          next => obtain rfl := Option.some.inj hact; exact stop_passP rfl _ _
          next => obtain rfl := Option.some.inj hact; rfl
      next => cases hact
  | go p heap =>
      simp only [PTable.act] at hact
      split at hact
      next => cases hact
      next =>
          refine stop_go h0 he (fun k hk => ?_) hact
          have halive := hok.2
          rwa [MultexAlive, hk] at halive
  | join _ _ | exit _ _ | load _ _ => exact he.elim

theorem bm_act {a : PTable.Action} {opens : Bool} (he : ExecStep s (.sys a opens))
    {t : PTable.State} (hact : PTable.act s.tab a = some t) (hstop : t.stop = none)
    (href : refusing (t.thr (Action.actor (.sys a opens))).phase = true) :
    t.bm = s.tab.bm := by
  cases a with
  | exec p name exists_ =>
      simp only [PTable.act] at hact
      split at hact
      next =>
          split at hact
          next => obtain rfl := Option.some.inj hact; exact bm_passP _ _ _
          next => obtain rfl := Option.some.inj hact; rfl
      next => cases hact
  | go p heap =>
      simp only [PTable.act] at hact
      split at hact
      next => cases hact
      next => exact bm_go he hact hstop href
  | join _ _ | exit _ _ | load _ _ => exact he.elim

theorem running_sysCall (h : Inv s) (hrun : s.Running) {a : PTable.Action} {opens : Bool}
    (hok : Loadable s (.sys a opens)) (he : ExecStep s (.sys a opens))
    (hs : s.sysCall a opens = some s') : s'.Running := by
  have hopens : opens = true := by
    cases a with
    | go _ _ => exact hok.1
    | exec _ _ _ | join _ _ | exit _ _ | load _ _ => exact hok
  refine ⟨?_, by rw [sp_sysCall he hs]; exact hrun.2⟩
  obtain ⟨tab, htab, rfl⟩ := Option.map_eq_some_iff.mp hs
  rw [if_neg (by rw [hopens]; simp)]
  obtain ⟨hnone, t₁, hact, ⟨hgo, rfl⟩ | ⟨hne, -⟩⟩ := PTable.step_cases htab
  · exact hgo
  · exact absurd ((stop_act h.first hok he hact).trans hnone) hne

theorem bm_sysCall {a : PTable.Action} {opens : Bool} (he : ExecStep s (.sys a opens))
    (hs : s.sysCall a opens = some s')
    (href : refusing (s'.tab.thr (Action.actor (.sys a opens))).phase = true) :
    s'.tab.bm = s.tab.bm := by
  obtain ⟨tab, htab, rfl⟩ := Option.map_eq_some_iff.mp hs
  split at href
  next hfail => rw [if_pos hfail]; rfl
  next hfail =>
      rw [if_neg hfail]
      obtain ⟨-, t₁, hact, ⟨hgo, rfl⟩ | ⟨-, rfl⟩⟩ := PTable.step_cases htab
      · exact bm_act he hact hgo href
      · rfl

end Steps

/-! ## The theorem -/

theorem Inv.contained {s : State} (h : Inv s) : Contained s where
  goes := by
    intro a s' hok he hs
    have hrun := running_of_step hs
    cases a with
    | sys a opens => exact running_sysCall h hrun hok he (step_sys hs)
    | load p stack executable =>
        obtain ⟨sp, hsp, rfl⟩ := step_load hs
        exact (h.settle hrun (h.load hok hsp)).2
    | space p =>
        obtain ⟨sp, hsp, rfl⟩ := step_space hs
        exact (h.settle hrun (h.space hok hsp)).2
    | mem a => exact he.elim
  refused := fun _ _ _ he hs href =>
    ⟨bm_sysCall he (step_sys hs) href, sp_sysCall he (step_sys hs)⟩
  isolated := by
    intro a s' he hs q hq hpq
    have hown := h.spaces.ownershipOK
    cases a with
    | sys a opens =>
        rw [sp_sysCall he (step_sys hs)]
        exact ⟨rfl, fun _ _ => rfl⟩
    | load p stack executable =>
        obtain ⟨sp, hsp, rfl⟩ := step_load hs
        rw [sp_settle]
        exact hown.isolated _ _ hsp q hq hpq
    | space p =>
        obtain ⟨sp, hsp, rfl⟩ := step_space hs
        rw [sp_settle]
        exact hown.isolated _ _ hsp q hq hpq
    | mem a => exact he.elim

/-- **Failures of `Exec` are contained** in every run whose loads are
`Loadable`. -/
theorem exec_contained {name : String} {heap : Int} {sp : Spaces.State} {s : State}
    (hb : Booted sp) (h : Reach step Loadable (State.init name heap sp) s) : Contained s := by
  have hinv : Inv s :=
    Reach.invariant (Inv.init hb) (fun _ _ _ _ hi hok hs => hi.step hok hs) h
  exact hinv.contained

instance (noffH : NoffHeader) : Decidable (WellFormed noffH) :=
  have (seg : Segment) : Decidable (Seekable seg) := inferInstanceAs (Decidable (_ → _))
  decidable_of_iff (noffH.noffMagic = noffMagic ∧ Regular noffH ∧ noffH.code.virtualAddr = 0
      ∧ AddrSpace.numPages noffH ≤ 128 ∧ Seekable noffH.code ∧ Seekable noffH.initData
      ∧ Seekable noffH.readonlyData)
    ⟨fun ⟨hm, hr, hv, hp, hc, hd, ho⟩ => ⟨hm, hr, hv, hp, hc, hd, ho⟩,
      fun ⟨hm, hr, hv, hp, hc, hd, ho⟩ => ⟨hm, hr, hv, hp, hc, hd, ho⟩⟩

instance (s : State) (p : Nat) : Decidable (MultexAlive s p) := by
  unfold MultexAlive
  split <;> infer_instance

instance (s : State) : DecidablePred (Loadable s)
  | .sys (.go p _) opens => inferInstanceAs (Decidable (opens = true ∧ MultexAlive s p))
  | .sys (.exec _ _ _) opens | .sys (.join _ _) opens | .sys (.exit _ _) opens
  | .sys (.load _ _) opens => inferInstanceAs (Decidable (opens = true))
  | .load _ stack (some file) => inferInstanceAs (Decidable (WellFormed (readHeader stack file)))
  | .load _ _ none => .isFalse id
  | .space p => inferInstanceAs (Decidable ((s.sp.space p).phase = .check →
      AddrSpace.numPages (s.sp.space p).noffH ≤ s.sp.frames.gPhysPageBitMap.numClear))
  | .mem _ => .isTrue trivial

/-- The first program is loaded. -/
def bootRun : List Spaces.Action :=
  .load 0 [] (some AddrSpace.linkedFile) :: List.replicate 13 (.go 0)

def bootSpaces : Spaces.State :=
  (exec Spaces.step Spaces.Regularly Spaces.State.init bootRun).getD Spaces.State.init

/-- A run of one process leaves the others as they were. -/
theorem space_exec_of_ne {p q : Nat} (hq : q ≠ p) : ∀ {as : List Spaces.Action}
    {s s' : Spaces.State}, (∀ a ∈ as, ∀ s, a.actor s = p) →
    exec Spaces.step Spaces.Regularly s as = some s' → s'.space q = s.space q
  | [], _, _, _, h => by
      obtain rfl := Option.some.inj h
      rfl
  | a :: as, s, s', hall, h => by
      rw [exec] at h
      split at h
      next =>
          split at h
          next s₁ hs =>
              have hne : q ≠ a.actor s := by
                rw [hall a List.mem_cons_self s]
                exact hq
              rw [space_exec_of_ne hq (fun b hb => hall b (List.mem_cons_of_mem _ hb)) h,
                Spaces.Inv.space_step_of_ne hs hne]
          next => cases h
      next => cases h

theorem booted : Booted bootSpaces := by
  have hrun : (exec Spaces.step Spaces.Regularly Spaces.State.init bootRun).map
      (fun sp => (sp.space 0).phase) = some .user := by decide +kernel
  obtain ⟨sp, hsp, hphase⟩ := Option.map_eq_some_iff.mp hrun
  have heq : bootSpaces = sp := by
    rw [bootSpaces, hsp]
    rfl
  rw [heq]
  refine ⟨Reach.of_exec bootRun hsp, hphase, fun p hp => ?_⟩
  rw [space_exec_of_ne hp (fun a ha s => ?_) hsp]
  · rfl
  · rcases List.mem_cons.mp ha with rfl | ha
    · rfl
    · rw [List.eq_of_mem_replicate ha]
      rfl

/-- The caller's part of an `Exec` of `name`. -/
def callRun (p : Nat) (name : String) : List Action :=
  (PTable.execRun p name).map (.sys · true)

/-- An `Exec` whose program is loaded, and one of a file that is not there. -/
def loadRun : List Action :=
  callRun 0 "job" ++ .load 1 [] (some AddrSpace.linkedFile) :: List.replicate 13 (.space 1)
    ++ [.sys (.exec 0 "none" false) true]

theorem exec_contained_job :
    ∃ s, Reach step Loadable (State.init "shell" 0 bootSpaces) s ∧ Contained s
      ∧ (s.tab.thr 1).phase = .user ∧ (s.sp.space 1).phase = .user
      ∧ (s.tab.thr 0).phase = .ret (-1) ∧ s.tab.bm.testBit 2 = false := by
  have hrun : (exec step Loadable (State.init "shell" 0 bootSpaces) loadRun).map (fun s =>
      ((s.tab.thr 1).phase, (s.sp.space 1).phase, (s.tab.thr 0).phase, s.tab.bm.testBit 2))
      = some (.user, .user, .ret (-1), false) := by decide +kernel
  obtain ⟨s, hs, hres⟩ := Option.map_eq_some_iff.mp hrun
  simp only [Prod.mk.injEq] at hres
  have hreach := Reach.of_exec loadRun hs
  exact ⟨s, hreach, exec_contained booted hreach, hres⟩

/-- The shell has executed `job` and holds its `pid`. An empty file, or one
that has gone since `SysExec` looked, stops the machine with the slot of the
child still taken. -/
theorem exec_aborts_on_bad_file :
    ∃ s, Booted bootSpaces ∧ Reach step Any (State.init "shell" 0 bootSpaces) s ∧ s.Running
      ∧ (s.tab.thr 0).phase = .user ∧ s.tab.bm.testBit 1 = true
      ∧ ExecStep s (.load 1 [] (some [])) ∧ ExecStep s (.load 1 [] none)
      ∧ (step s (.load 1 [] (some []))).map (fun s' => (s'.sp.stop, s'.tab.bm.testBit 1))
          = some (some .abort, true)
      ∧ (step s (.load 1 [] none)).map (fun s' => (s'.tab.stop, s'.tab.bm.testBit 1))
          = some (some .abort, true) := by
  have hrun : (exec step Any (State.init "shell" 0 bootSpaces) (callRun 0 "job")).map (fun s =>
      (decide s.Running, (s.tab.thr 0).phase, s.tab.bm.testBit 1,
        decide ((step s (.load 1 [] (some []))).map (fun s' => (s'.sp.stop, s'.tab.bm.testBit 1))
          = some (some .abort, true)),
        decide ((step s (.load 1 [] none)).map (fun s' => (s'.tab.stop, s'.tab.bm.testBit 1))
          = some (some .abort, true))))
      = some (true, .user, true, true, true) := by decide +kernel
  obtain ⟨s, hs, hres⟩ := Option.map_eq_some_iff.mp hrun
  simp only [Prod.mk.injEq, decide_eq_true_eq] at hres
  obtain ⟨hgo, hphase, hbit, hempty, hnone⟩ := hres
  exact ⟨s, booted, Reach.of_exec _ hs, hgo, hphase, hbit, trivial, trivial, hempty, hnone⟩

end Exec

end Nachos
