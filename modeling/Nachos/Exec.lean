import Nachos.FrameOwnership
import Nachos.JoinExit

/-!
# A whole `Exec`

The process table and the address spaces as one system. An `Exec` crosses
both: `SysExec` and `ExecUpdate` run in the calling process, reserve a slot
and fork a thread, and that thread's `StartProcess` calls `Load` later, when
the caller may long have its `pid`. Process `k` of the table has address
space `k`. `StartProcess` follows its `Load`: a `Load` that returns `TRUE`
goes on to `Execute`, one that returns `FALSE` runs into `ASSERT(FALSE)`
(`State.settle`). The destructor of a `PCB` starts `~AddrSpace` of its
thread (`State.freeSpace`).

Nothing on the way from `StartProcess` gives the slot back, so every failure
of `Load` stops the machine. `Loadable` is what has to hold before the steps
of an `Exec` for none of them to do so; a call that is refused before it has
a slot changes nothing in any run. This file has the system, the property
`Contained` and what one part of a call does to the table or to the address
spaces; `Nachos.ExecContained` puts the parts together.
-/

namespace Nachos

open CInt Run ByteMemory Machine
open AddrSpace (Regular Seekable)

namespace Exec

/-! ## The system -/

structure State where
  tab : PTable.State
  sp : Spaces.State

/-- `sys a opens`: a part of a system call, `opens` saying whether the host
opens `stdin` and `stdout` for a `PCB` made in it. `load`: `StartProcess` of
`p` calls `Load`. `space p`: `p` continues its `Load` or its destructor.
`mem a`: a switch of the table register or an access of a program. -/
inductive Action where
  | sys (a : PTable.Action) (opens : Bool)
  | load (p : Nat) (stack : List UInt8) (executable : Option File)
  | space (p : Nat)
  | mem (a : Spaces.Action)

namespace State

def Running (s : State) : Prop := s.tab.stop = none ∧ s.sp.stop = none

instance (s : State) : Decidable s.Running := inferInstanceAs (Decidable (_ ∧ _))

/-- The address spaces after a part of a call that led to `tab`: `Remove`
deletes the space of the thread its `PCB` points to. -/
def freeSpace (s : State) (a : PTable.Action) (tab : PTable.State) : Spaces.State :=
  match a with
  | .go p _ =>
      if (s.tab.thr p).phase = .exitRemove ∧ tab.stop = none
          ∧ (s.tab.pcbAt (s.tab.thr p).processID).any (fun k => (s.tab.obj k).thread = some p) then
        (Spaces.step s.sp (.exit p)).getD s.sp
      else s.sp
  | _ => s.sp

/-- A part of a system call. `PCB::PCB` fails an assertion of `OpenForWrite`
when the host does not open its two files. -/
def sysCall (s : State) (a : PTable.Action) (opens : Bool) : Option State :=
  (PTable.step s.tab a).map fun tab =>
    if tab.next ≠ s.tab.next ∧ opens = false then { s with tab := s.tab.halt .abort }
    else ⟨tab, s.freeSpace a tab⟩

/-- `StartProcess` of `p` once the address spaces are `sp`. -/
def settle (s : State) (p : Nat) (sp : Spaces.State) : State :=
  if (s.tab.thr p).phase = .start then
    match (sp.space p).phase with
    | .user => ⟨(PTable.step s.tab (.load p true)).getD s.tab, sp⟩
    | .refused => ⟨(PTable.step s.tab (.load p false)).getD s.tab, sp⟩
    | _ => ⟨s.tab, sp⟩
  else ⟨s.tab, sp⟩

end State

/-- One step. -/
def step (s : State) (a : Action) : Option State :=
  if s.Running then
    match a with
    | .sys (.load _ _) _ => none
    | .sys a opens => s.sysCall a opens
    | .load p stack executable =>
        if (s.tab.thr p).phase = .start then
          (Spaces.step s.sp (.load p stack executable)).map (s.settle p)
        else none
    | .space p => (Spaces.step s.sp (.go p)).map (s.settle p)
    | .mem (.load _ _ _) | .mem (.go _) | .mem (.exit _) => none
    | .mem a => (Spaces.step s.sp a).map fun sp => ⟨s.tab, sp⟩
  else none

/-- The machine with the first program `name` running in `sp`. -/
def State.init (name : String) (heap : Int) (sp : Spaces.State) : State :=
  ⟨PTable.State.init name heap, sp⟩

/-- The address spaces when the first program, a regular one, has been
loaded. -/
structure Booted (sp : Spaces.State) : Prop where
  reach : Reach Spaces.step Spaces.Regularly Spaces.State.init sp
  first : sp.inUser 0
  others : ∀ p, p ≠ 0 → (sp.space p).phase = .fresh

/-! ## What an `Exec` needs -/

/-- A header `Load` gets through when there are frames: the magic number,
regular sizes with the code at address 0, at most the pages of the machine,
and file positions that are `int`s. -/
structure WellFormed (noffH : NoffHeader) : Prop where
  magic : noffH.noffMagic = noffMagic
  regular : Regular noffH
  virtualAddr : noffH.code.virtualAddr = 0
  pages : AddrSpace.numPages noffH ≤ 128
  code : Seekable noffH.code
  initData : Seekable noffH.initData
  readonlyData : Seekable noffH.readonlyData

/-- `multex->V()` of `PCB::Exec` finds its semaphore. -/
def MultexAlive (s : State) (p : Nat) : Prop :=
  match (s.tab.thr p).phase with
  | .execUnlock k => (s.tab.obj k).deleted = false
  | _ => True

/-- Before a step: the host opens the files of a new `PCB`, a program to load
opens and is well formed, enough frames are free when `Load` counts them, and
the `PCB` of a new child has not been deleted while its `Exec` still uses
it. -/
def Loadable (s : State) : Action → Prop
  | .sys (.go p _) opens => opens = true ∧ MultexAlive s p
  | .sys _ opens => opens = true
  | .load _ stack (some file) => WellFormed (readHeader stack file)
  | .load _ _ none => False
  | .space p => (s.sp.space p).phase = .check →
      AddrSpace.numPages (s.sp.space p).noffH ≤ s.sp.frames.gPhysPageBitMap.numClear
  | .mem _ => True

/-- In `ExecUpdate` or `PCB::Exec`. -/
def inExec : PTable.Phase → Bool
  | .execP _ | .execBody _ | .execFork _ | .execUnlock _ | .execV _ => true
  | _ => false

/-- The steps of an `Exec`: `SysExec` and `ExecUpdate` in the caller,
`StartProcess` and `Load` in the child. -/
def ExecStep (s : State) : Action → Prop
  | .sys (.exec _ _ _) _ => True
  | .sys (.go p _) _ => inExec (s.tab.thr p).phase = true
  | .load _ _ _ => True
  | .space p => (s.tab.thr p).phase = .start
  | _ => False

/-- The process whose step it is. -/
def Action.actor : Action → Nat
  | .sys (.exec p _ _) _ | .sys (.join p _) _ | .sys (.exit p _) _ | .sys (.load p _) _
  | .sys (.go p _) _ | .load p _ _ | .space p => p
  | .mem _ => 0

/-- Where a call of `Exec` that is refused can be: waiting for the table,
before the checks, and about to return -1. -/
def refusing : PTable.Phase → Bool
  | .execP _ | .execBody _ | .ret (-1) => true
  | _ => false

/-- Failures of `Exec` are contained: its steps do not stop the machine, the
steps of a refused call leave the bits of the table and all of the address
spaces alone, and no step of an `Exec` touches the program of another
process. -/
structure Contained (s : State) : Prop where
  goes : ∀ a s', Loadable s a → ExecStep s a → step s a = some s' → s'.Running
  refused : ∀ a opens s', ExecStep s (.sys a opens) → step s (.sys a opens) = some s' →
    refusing (s'.tab.thr (Action.actor (.sys a opens))).phase = true →
    s'.tab.bm = s.tab.bm ∧ s'.sp = s.sp
  isolated : ∀ a s', ExecStep s a → step s a = some s' → ∀ q, s.sp.Live q → a.actor ≠ q →
    s'.sp.space q = s.sp.space q ∧ ∀ addr size,
      readMem (s.sp.table q) s'.sp.frames.mainMemory addr size
        = readMem (s.sp.table q) s.sp.frames.mainMemory addr size

/-! ## The table's part -/

section Table

variable {t t' t₁ : PTable.State} {p : Nat}

theorem stop_passP {r : PTable.SemRef} (hr : t.dangling r = false) (w n : PTable.Phase) :
    (t.passP p r w n).stop = t.stop := by
  rw [PTable.State.passP, if_neg (by rw [hr]; decide)]
  split <;> rfl

theorem stop_doV {r : PTable.SemRef} (hr : t.dangling r = false) (n : PTable.Phase) :
    (t.doV p r n).stop = t.stop := by
  rw [PTable.State.doV, if_neg (by rw [hr]; decide)]
  split <;> rfl

theorem bm_passP (r : PTable.SemRef) (w n : PTable.Phase) : (t.passP p r w n).bm = t.bm := by
  unfold PTable.State.passP
  split
  next => rfl
  next => split <;> rfl

theorem bm_doV (r : PTable.SemRef) (n : PTable.Phase) : (t.doV p r n).bm = t.bm := by
  unfold PTable.State.doV
  split
  next => rfl
  next => split <;> rfl

/-- Slot 0 is never emptied. -/
theorem pcb_zero_step {a : PTable.Action} (h : PTable.step t a = some t') (h0 : t.pcb 0 ≠ none) :
    t'.pcb 0 ≠ none := by
  rcases PTable.view_step h with hv | hm
  · have hpcb : t'.pcb = t.pcb := congrArg PTable.View.pcb hv
    rwa [hpcb]
  · change t'.view.pcb 0 ≠ none
    generalize t'.view = v' at hm
    cases hm with
    | spawn p name i _ _ _ =>
        change Function.update t.view.pcb i (some t.view.next) 0 ≠ none
        by_cases hi : 0 = i
        · subst hi
          rw [Function.update_self]
          exact Option.some_ne_none _
        · rw [Function.update_of_ne hi]
          exact h0
    | follow | fork | join | joinSleep | joinPass | joinRead | joinRet | exit | exitRelease
    | exitSleep | exitPass | remove | removeNull => exact h0

theorem stop_execUpdate (h0 : t.pcb 0 ≠ none) (name : String) (heap : PTable.Heap) :
    (t.execUpdate p name heap).stop = t.stop := by
  unfold PTable.State.execUpdate
  split
  next => exact stop_doV rfl _
  next =>
      split
      next hnone => exact absurd hnone h0
      next =>
          split
          next => exact stop_doV rfl _
          next =>
              split
              next => exact stop_doV rfl _
              next =>
                  refine stop_passP ?_ _ _
                  change (Function.update t.obj t.next _ t.next).deleted = false
                  rw [Function.update_self]
                  rfl

/-- A part of `ExecUpdate` does not stop the machine. -/
theorem stop_go (h0 : t.pcb 0 ≠ none) (hexec : inExec (t.thr p).phase = true)
    (halive : ∀ k, (t.thr p).phase = .execUnlock k → (t.obj k).deleted = false)
    {heap : PTable.Heap} (h : t.go p heap = some t₁) : t₁.stop = t.stop := by
  unfold PTable.State.go at h
  cases hp : (t.thr p).phase with
  | execP name =>
      rw [hp] at h
      obtain rfl := Option.some.inj h
      exact stop_passP rfl _ _
  | execBody name =>
      rw [hp] at h
      obtain rfl := Option.some.inj h
      exact stop_execUpdate h0 name heap
  | execFork k =>
      rw [hp] at h
      obtain rfl := Option.some.inj h
      rfl
  | execUnlock k =>
      rw [hp] at h
      obtain rfl := Option.some.inj h
      exact stop_doV (r := .multex k) (halive k hp) _
  | execV pid =>
      rw [hp] at h
      obtain rfl := Option.some.inj h
      exact stop_doV rfl _
  | _ =>
      rw [hp] at hexec
      cases hexec

/-- A slot is taken on the way to `execFork` only. -/
theorem bm_execUpdate (name : String) (heap : PTable.Heap)
    (hstop : (t.execUpdate p name heap).stop = none)
    (href : refusing ((t.execUpdate p name heap).thr p).phase = true) :
    (t.execUpdate p name heap).bm = t.bm := by
  unfold PTable.State.execUpdate at hstop href ⊢
  split
  next => exact bm_doV _ _
  next hname =>
      rw [if_neg hname] at hstop href
      split
      next => rfl
      next m hm =>
          rw [hm] at hstop href
          simp only at hstop href
          split
          next => exact bm_doV _ _
          next hfile =>
              rw [if_neg hfile] at hstop href
              split
              next => exact bm_doV _ _
              next i bm hfind =>
                  rw [hfind] at hstop href
                  simp only [PTable.State.passP] at hstop href
                  split at href
                  next hd =>
                      rw [if_pos hd] at hstop
                      cases hstop
                  next =>
                      split at href
                      next => rw [PTable.phase_goto] at href; cases href
                      next =>
                          simp [PTable.State.setBlocked, PTable.State.goto, refusing] at href

theorem bm_go (hexec : inExec (t.thr p).phase = true) {heap : PTable.Heap}
    (h : t.go p heap = some t₁) (hstop : t₁.stop = none)
    (href : refusing (t₁.thr p).phase = true) : t₁.bm = t.bm := by
  unfold PTable.State.go at h
  cases hp : (t.thr p).phase with
  | execP name =>
      rw [hp] at h
      obtain rfl := Option.some.inj h
      exact bm_passP _ _ _
  | execBody name =>
      rw [hp] at h
      obtain rfl := Option.some.inj h
      exact bm_execUpdate name heap hstop href
  | execFork k =>
      rw [hp] at h
      obtain rfl := Option.some.inj h
      rfl
  | execUnlock k =>
      rw [hp] at h
      obtain rfl := Option.some.inj h
      exact bm_doV _ _
  | execV pid =>
      rw [hp] at h
      obtain rfl := Option.some.inj h
      exact bm_doV _ _
  | _ =>
      rw [hp] at hexec
      cases hexec

end Table

/-! ## The address spaces' part -/

/-- A `Load` under way is on a well-formed header and not about to return
`FALSE`. -/
def Ready (x : Spaces.Space) : Prop :=
  match x.phase with
  | .lockP | .check | .alloc _ | .unlock true | .copy => WellFormed x.noffH
  | .unlock false | .refused => False
  | .fresh | .user | .clear _ | .gone => True

/-- Calls that find their entry and a position to seek to all succeed. -/
theorem copy_true {va : Int} {pt : List TranslationEntry} {file : File}
    {calls : List AddrSpace.ReadCall}
    (hcalls : ∀ call ∈ calls, call.index < pt.length ∧ 0 ≤ call.position) (m : Memory) :
    (AddrSpace.copy va pt file calls m).outcome = .returnsTrue := by
  induction calls generalizing m with
  | nil => rfl
  | cons call calls ih =>
      obtain ⟨hindex, hpos⟩ := hcalls call List.mem_cons_self
      rw [AddrSpace.copy, List.getElem?_eq_getElem hindex]
      simp only
      rw [File.readAt, if_neg (by omega)]
      exact ih (fun c hc => hcalls c (List.mem_cons_of_mem _ hc)) _

theorem WellFormed.calls {noffH : NoffHeader} (h : WellFormed noffH) {call : AddrSpace.ReadCall}
    (hcall : call ∈ AddrSpace.reads noffH) :
    call.index < AddrSpace.numPages noffH ∧ 0 ≤ call.position :=
  ⟨(h.regular.inPage hcall).index,
    (AddrSpace.asksWithin_reads h.code h.initData h.readonlyData (fun hgt => (h.code hgt).2)
      (fun hgt => (h.initData hgt).2) (fun hgt => (h.readonlyData hgt).2) hcall).position⟩

section Spaces

variable {s s' : Spaces.State} {p : Nat}

theorem ready_lock (hw : WellFormed (s.space p).noffH) :
    Ready ((s.lock p).space p) ∧ (s.lock p).stop = s.stop := by
  unfold Spaces.State.lock
  split
  all_goals
    refine ⟨?_, rfl⟩
    rw [Spaces.State.goto, Spaces.Inv.space_setSpace_self]
    exact hw

theorem ready_load {stack : List UInt8} {file : File} (hw : WellFormed (readHeader stack file)) :
    Ready ((s.load p stack (some file)).space p) ∧ (s.load p stack (some file)).stop = s.stop := by
  simp only [Spaces.State.load]
  rw [if_neg (not_not.mpr hw.magic)]
  refine ready_lock ?_
  rw [Spaces.Inv.space_setSpace_self]
  exact hw

/-- One part of a `Load` of a well-formed program, or of a destructor. -/
theorem ready_go (h : Spaces.Inv s) (hr : Ready (s.space p))
    (hfree : (s.space p).phase = .check →
      AddrSpace.numPages (s.space p).noffH ≤ s.frames.gPhysPageBitMap.numClear)
    (hs : Spaces.step s (.go p) = some s') : Ready (s'.space p) ∧ s'.stop = none := by
  obtain ⟨hnone, hdoes⟩ := Spaces.does_of_step hs
  have hgo : s.go p = some s' := by
    cases hdoes with
    | go _ hgo => exact hgo
  have hok := h.ok p
  unfold Spaces.State.go at hgo
  cases hp : (s.space p).phase with
  | fresh | user | refused | gone =>
      rw [hp] at hgo
      cases hgo
  | lockP =>
      rw [Ready, hp] at hr
      rw [hp] at hgo
      simp only at hgo
      split at hgo
      next => cases hgo
      next =>
          obtain rfl := Option.some.inj hgo
          exact (ready_lock hr).imp_right fun hst => hst.trans hnone
  | check =>
      rw [Ready, hp] at hr
      rw [hp] at hgo
      obtain rfl := Option.some.inj hgo
      have hroom := hfree hp
      have hpages := hr.pages
      simp only [Spaces.State.check]
      rw [if_neg (by omega), if_neg (by omega), Spaces.Inv.space_setSpace_self]
      exact ⟨hr, hnone⟩
  | alloc i =>
      rw [Ready, hp] at hr
      rw [hp] at hgo
      obtain rfl := Option.some.inj hgo
      rw [Spaces.State.alloc]
      split
      next =>
          rw [Spaces.Inv.space_setSpace_self]
          exact ⟨hr, hnone⟩
      next =>
          rw [Spaces.State.goto, Spaces.Inv.space_setSpace_self]
          exact ⟨hr, hnone⟩
  | unlock ok =>
      rw [Ready, hp] at hr
      cases ok with
      | false => exact hr.elim
      | true =>
          rw [hp] at hgo
          obtain rfl := Option.some.inj hgo
          rw [Spaces.State.unlock, Spaces.State.goto, Spaces.Inv.space_setSpace_self]
          exact ⟨hr, hnone⟩
  | copy =>
      rw [Ready, hp] at hr
      rw [Spaces.Space.OK, hp] at hok
      obtain ⟨-, hnum, hlen, -⟩ := hok
      rw [hp] at hgo
      obtain rfl := Option.some.inj hgo
      have htrue : (AddrSpace.copy (s.space p).noffH.code.virtualAddr (s.space p).pageTable
          (s.space p).file (AddrSpace.reads (s.space p).noffH) s.frames.mainMemory).outcome
          = .returnsTrue :=
        copy_true (fun call hcall => by rw [hlen, hnum]; exact hr.calls hcall) _
      simp only [Spaces.State.copySegments, htrue]
      rw [Spaces.State.goto, Spaces.Inv.space_setSpace_self]
      exact ⟨trivial, hnone⟩
  | clear i =>
      have hret := h.returns hp hs
      refine ⟨?_, hret.goes⟩
      by_cases hi : i < (s.space p).numPages
      · rw [Ready, (hret.frame hi).1]
        trivial
      · rw [Ready, (hret.done (by omega)).1]
        trivial

end Spaces

end Exec

end Nachos
