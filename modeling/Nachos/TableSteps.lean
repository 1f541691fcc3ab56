import Nachos.PTable

/-!
# What a step of the table does

The invariants of the process table are about slots, phases, exit codes and
the two semaphores of each `PCB` that parent and child meet at. None of
them depends on wait queues, on who is blocked, on the wait counts, or on
`bmsem` and the `multex`es. `State.view` keeps the first and drops the
second, and `Moves` lists every change a step can make to the view, one
constructor for each; `view_step` is the one place where the bodies of
`ExecUpdate`, `JoinUpdate`, `ExitUpdate` and `Remove` are taken apart.

Most steps only take a process from one phase to the next. These are
`Follows`, in the order of the source.
-/

namespace Nachos

open CInt Run
open Rendezvous (Stage)

namespace PTable

@[ext] structure View where
  bm : Bitmap
  pcb : Nat → Option Nat
  next : Nat
  creator : Nat → Nat
  slotOf : Nat → Nat
  joinStage : Nat → Stage
  log : List Event
  pid : Nat → Int
  phase : Nat → Phase
  thread : Nat → Option Nat
  parentID : Nat → Int
  exitcode : Nat → Int
  deleted : Nat → Bool
  post : Nat → Int
  leave : Nat → Int

def State.view (s : State) : View where
  bm := s.bm
  pcb := s.pcb
  next := s.next
  creator := s.creator
  slotOf := s.slotOf
  joinStage := s.joinStage
  log := s.log
  pid k := (s.thr k).processID
  phase k := (s.thr k).phase
  thread k := (s.obj k).thread
  parentID k := (s.obj k).parentID
  exitcode k := (s.obj k).exitcode
  deleted k := (s.obj k).deleted
  post k := (s.sem (.joinsem k)).value
  leave k := (s.sem (.exitsem k)).value

namespace View

def goto (v : View) (p : Nat) (ph : Phase) : View :=
  { v with phase := Function.update v.phase p ph }

def setJoinStage (v : View) (k : Nat) (j : Stage) : View :=
  { v with joinStage := Function.update v.joinStage k j }

def record (v : View) (e : Event) : View := { v with log := e :: v.log }

def setExitcode (v : View) (k : Nat) (ec : Int) : View :=
  { v with exitcode := Function.update v.exitcode k ec }

def setPost (v : View) (k : Nat) (x : Int) : View :=
  { v with post := Function.update v.post k x }

def setLeave (v : View) (k : Nat) (x : Int) : View :=
  { v with leave := Function.update v.leave k x }

def pcbAt (v : View) (i : Int) : Option Nat :=
  if 0 ≤ i ∧ i < maxProcess then v.pcb i.toNat else none

/-- A new `PCB` in slot `i`, made by `p`. -/
def newPcb (v : View) (p i : Nat) : View :=
  { v with
    bm := v.bm.markBit i
    pcb := Function.update v.pcb i (some v.next)
    next := v.next + 1
    creator := Function.update v.creator v.next p
    slotOf := Function.update v.slotOf v.next i
    log := .exec p v.next i :: v.log
    thread := Function.update v.thread v.next none
    parentID := Function.update v.parentID v.next (v.pid p)
    exitcode := Function.update v.exitcode v.next 0
    deleted := Function.update v.deleted v.next false
    post := Function.update v.post v.next 0
    leave := Function.update v.leave v.next 0 }

/-- The thread of `PCB` `k`, made by `p`. -/
def fork (v : View) (p k : Nat) : View :=
  { v with
    pid := Function.update v.pid k (v.slotOf k)
    phase := Function.update v.phase k .start
    thread := Function.update v.thread k (some k)
    parentID := Function.update v.parentID k (v.pid p) }

def remove (v : View) (p k : Nat) : View :=
  { v with
    bm := v.bm.clearBit (v.pid p).toNat
    deleted := Function.update v.deleted k true
    log := .removed k :: v.log }

end View

/-! ## Phase changes -/

inductive Follows : Phase → Phase → Prop where
  | load : Follows .start .user
  | execP (name : String) : Follows .user (.execP name)
  | execLock (name : String) : Follows .user (.execBody name)
  | refuse : Follows .user (.ret (-1))
  | execWake (name : String) : Follows (.execP name) (.execBody name)
  | execRefuse (name : String) : Follows (.execBody name) (.ret (-1))
  | execUnlock (k : Nat) (pid : Int) : Follows (.execUnlock k) (.execV pid)
  | execV (pid : Int) : Follows (.execV pid) (.ret pid)
  | ret (r : Int) : Follows (.ret r) .user
  | joinWake (id : Int) (k m : Nat) : Follows (.joinInc id k m) (.joinIncd id k m)
  | joinUnlock (id : Int) (k m : Nat) : Follows (.joinIncd id k m) (.joinWait id k)
  | exitWake (m : Nat) : Follows (.exitDec m) (.exitDecd m)
  | exitUnlock (m : Nat) : Follows (.exitDecd m) .exitRelease

inductive Moves (v : View) : Action → View → Prop where
  | follow {a : Action} (p : Nat) {b : Phase} : Follows (v.phase p) b → Moves v a (v.goto p b)
  | spawn {a : Action} (p : Nat) (name : String) (i : Nat) : v.phase p = .execBody name →
      i < v.bm.numBits → v.bm.testBit i = false →
      Moves v a ((v.newPcb p i).goto p (.execFork v.next))
  | fork {a : Action} (p k : Nat) : v.phase p = .execFork k →
      Moves v a ((v.fork p k).goto p (.execUnlock k))
  | join (p : Nat) (id : Int) (k m : Nat) (b : Phase) : v.phase p = .user → 0 ≤ id →
      v.pcbAt id = some k → v.pid p = v.parentID k → v.pcbAt (v.parentID k) = some m →
      b = .joinInc id k m ∨ b = .joinIncd id k m →
      Moves v (.join p id) ((v.setJoinStage k .begun).goto p b)
  | joinSleep {a : Action} (p : Nat) (id : Int) (k m : Nat) : v.phase p = .joinWait id k →
      v.pcbAt id = some m → Moves v a (v.goto p (.joinSleep id k m))
  | joinPass {a : Action} (p : Nat) (id : Int) (k m : Nat) :
      (v.phase p = .joinWait id k ∧ v.pcbAt id = some m) ∨ v.phase p = .joinSleep id k m →
      v.post m ≠ 0 →
      Moves v a (((v.setPost m (wrap32 (v.post m - 1))).setJoinStage k .waited).goto p
        (.joinRead id k))
  | joinRead {a : Action} (p : Nat) (id : Int) (k j : Nat) : v.phase p = .joinRead id k →
      v.pcbAt id = some j →
      Moves v a ((((v.setJoinStage k .collected).record (.joinRead p id j (v.exitcode j))).setLeave
        j (wrap32 (v.leave j + 1))).goto p (.joinRet id k (v.exitcode j)))
  | joinRet {a : Action} (p : Nat) (id : Int) (k : Nat) (ec : Int) :
      v.phase p = .joinRet id k ec →
      Moves v a ((v.record (.joinReturn p id k ec)).goto p .user)
  | exit (p : Nat) (ec : Int) (k m : Nat) (b : Phase) : v.phase p = .user → v.pid p ≠ 0 →
      v.pcbAt (v.pid p) = some k → v.pcbAt (v.parentID k) = some m →
      b = .exitDec m ∨ b = .exitDecd m →
      Moves v (.exit p ec) (((v.setExitcode k ec).record (.exit p ec)).goto p b)
  | exitRelease {a : Action} (p k : Nat) : v.phase p = .exitRelease →
      v.pcbAt (v.pid p) = some k →
      Moves v a ((v.setPost k (wrap32 (v.post k + 1))).goto p .exitWait)
  | exitSleep {a : Action} (p k : Nat) : v.phase p = .exitWait → v.pcbAt (v.pid p) = some k →
      Moves v a (v.goto p (.exitSleep k))
  | exitPass {a : Action} (p k : Nat) :
      (v.phase p = .exitWait ∧ v.pcbAt (v.pid p) = some k) ∨ v.phase p = .exitSleep k →
      v.leave k ≠ 0 →
      Moves v a ((v.setLeave k (wrap32 (v.leave k - 1))).goto p .exitRemove)
  | remove {a : Action} (p k : Nat) : v.phase p = .exitRemove → v.pcbAt (v.pid p) = some k →
      v.thread k = some p ∨ v.thread k = none →
      Moves v a ((v.remove p k).goto p .gone)
  | removeNull {a : Action} (p : Nat) : v.phase p = .exitRemove → v.pcbAt (v.pid p) = none →
      Moves v a ({ v with bm := v.bm.clearBit (v.pid p).toNat }.goto p .gone)

/-! ## The view of each update -/

section Updates

variable (s : State) (p k : Nat)

@[simp] theorem view_record (e : Event) : (s.record e).view = s.view.record e := rfl

@[simp] theorem view_setJoinStage (j : Stage) :
    (s.setJoinStage k j).view = s.view.setJoinStage k j := rfl

@[simp] theorem view_setBlocked (b : Bool) : (s.setBlocked p b).view = s.view := by
  ext k : 2 <;> first
    | rfl
    | by_cases hk : k = p <;> simp [State.view, State.setBlocked, hk]

@[simp] theorem view_goto (ph : Phase) : (s.goto p ph).view = s.view.goto p ph := by
  ext k : 2 <;> first
    | rfl
    | by_cases hk : k = p <;> simp [State.view, State.goto, View.goto, hk]

@[simp] theorem view_setNumwait (n : Int) :
    (s.setObj k { s.obj k with numwait := n }).view = s.view := by
  ext j : 2 <;> first
    | rfl
    | by_cases hj : j = k <;> simp [State.view, State.setObj, hj]

@[simp] theorem view_setExitcode (ec : Int) :
    (s.setObj k { s.obj k with exitcode := ec }).view = s.view.setExitcode k ec := by
  ext j : 2 <;> first
    | rfl
    | by_cases hj : j = k <;> simp [State.view, State.setObj, View.setExitcode, hj]

/-- The semaphores the view does not show. -/
def SemRef.mute : SemRef → Bool
  | .bmsem | .multex _ => true
  | .joinsem _ | .exitsem _ => false

theorem view_setSem_of_mute {r : SemRef} (hr : r.mute = true) (x : Semaphore Nat) :
    (s.setSem r x).view = s.view := by
  cases r with
  | bmsem => rfl
  | multex m => rfl
  | joinsem m => cases hr
  | exitsem m => cases hr

@[simp] theorem view_setSem_joinsem (x : Semaphore Nat) :
    (s.setSem (.joinsem k) x).view = s.view.setPost k x.value := by
  ext j : 2 <;> first
    | rfl
    | by_cases hj : j = k <;> simp [State.view, State.setSem, View.setPost, hj]

@[simp] theorem view_setSem_exitsem (x : Semaphore Nat) :
    (s.setSem (.exitsem k) x).view = s.view.setLeave k x.value := by
  ext j : 2 <;> first
    | rfl
    | by_cases hj : j = k <;> simp [State.view, State.setSem, View.setLeave, hj]

theorem view_setSem_queue (r : SemRef) (q : List Nat) :
    (s.setSem r ⟨(s.sem r).value, q⟩).view = s.view := by
  cases r with
  | bmsem => rfl
  | multex m => rfl
  | joinsem m =>
      rw [view_setSem_joinsem]
      exact congrArg (fun f => { s.view with post := f }) (Function.update_eq_self _ _)
  | exitsem m =>
      rw [view_setSem_exitsem]
      exact congrArg (fun f => { s.view with leave := f }) (Function.update_eq_self _ _)

@[simp] theorem view_decNumWait : (s.decNumWait k).view = s.view := by
  unfold State.decNumWait
  split
  · exact view_setNumwait s k _
  · rfl

theorem view_newPcb (name : String) (i : Nat) :
    (s.newPcb p name i (s.bm.markBit i)).view = s.view.newPcb p i := by
  ext j : 2 <;> first
    | rfl
    | by_cases hj : j = s.next <;>
        simp [State.view, State.newPcb, View.newPcb, newSems, Pcb.new, Semaphore.new, hj]

theorem view_execFork (heap : Heap) :
    (s.execFork p k heap).view = (s.view.fork p k).goto p (.execUnlock k) := by
  unfold State.execFork
  rw [view_goto]
  congr 1
  ext j : 2 <;> first
    | rfl
    | by_cases hj : j = k <;> simp [State.view, View.fork, Thread.new, hj]

theorem view_remove :
    ((({ s with bm := s.bm.clearBit (s.thr p).processID.toNat } : State).setObj k
      { s.obj k with deleted := true }).record (.removed k)).view = s.view.remove p k := by
  ext j : 2 <;> first
    | rfl
    | by_cases hj : j = k <;> simp [State.view, State.setObj, State.record, View.remove, hj]

end Updates

/-! ## The view of each semaphore operation -/

theorem passP_cases (s : State) (p : Nat) (r : SemRef) (wait next : Phase) :
    (s.passP p r wait next).stop ≠ none
      ∨ (s.passP p r wait next).view = s.view.goto p wait
      ∨ ((s.sem r).value ≠ 0 ∧ (s.passP p r wait next).view =
          (s.setSem r ⟨wrap32 ((s.sem r).value - 1), (s.sem r).queue⟩).view.goto p next) := by
  unfold State.passP
  split
  · exact Or.inl (Option.some_ne_none _)
  · by_cases h0 : (s.sem r).value = 0
    · refine Or.inr (Or.inl ?_)
      rw [Semaphore.p_sleep h0]
      dsimp only
      rw [view_setBlocked, view_goto, view_setSem_queue]
    · refine Or.inr (Or.inr ⟨h0, ?_⟩)
      rw [Semaphore.p_pass h0]
      exact view_goto _ p next

theorem doV_cases (s : State) (p : Nat) (r : SemRef) (next : Phase) :
    (s.doV p r next).stop ≠ none
      ∨ ∃ x : Semaphore Nat, x.value = wrap32 ((s.sem r).value + 1)
          ∧ (s.doV p r next).view = (s.setSem r x).view.goto p next := by
  unfold State.doV
  split
  · exact Or.inl (Option.some_ne_none _)
  · refine Or.inr ⟨(s.sem r).v.2, Semaphore.v_value _, ?_⟩
    split
    · rename_i x hx
      rw [hx, view_goto]
    · rename_i t x hx
      rw [hx, view_setBlocked, view_goto]

/-! ## Whose phase an update changes -/

section Phases

variable {s : State} {p q : Nat}

theorem phase_setBlocked (s : State) (p q : Nat) (b : Bool) :
    ((s.setBlocked q b).thr p).phase = (s.thr p).phase :=
  congrFun (congrArg View.phase (view_setBlocked s q b)) p

theorem phase_goto (s : State) (p : Nat) (ph : Phase) : ((s.goto p ph).thr p).phase = ph := by
  simp [State.goto]

theorem phase_goto_of_ne (hq : q ≠ p) (ph : Phase) :
    ((s.goto p ph).thr q).phase = (s.thr q).phase := by
  simp [State.goto, hq]

theorem phase_passP_of_ne (hq : q ≠ p) (r : SemRef) (wait next : Phase) :
    ((s.passP p r wait next).thr q).phase = (s.thr q).phase := by
  unfold State.passP
  split
  · rfl
  · split
    · exact phase_goto_of_ne hq next
    · rw [phase_setBlocked]
      exact phase_goto_of_ne hq wait

theorem phase_doV_of_ne (hq : q ≠ p) (r : SemRef) (next : Phase) :
    ((s.doV p r next).thr q).phase = (s.thr q).phase := by
  unfold State.doV
  split
  · rfl
  · split
    · exact phase_goto_of_ne hq next
    · rw [phase_setBlocked]
      exact phase_goto_of_ne hq next

end Phases

theorem View.goto_self {v : View} {p : Nat} {ph : Phase} (h : v.phase p = ph) :
    v.goto p ph = v := by
  subst h
  exact congrArg (fun f => { v with phase := f }) (Function.update_eq_self _ _)

/-! ## The view of each part of a call -/

/-- What running a part of a call from `s` can lead to. -/
def Does (s : State) (a : Action) (s' : State) : Prop :=
  s'.stop ≠ none ∨ s'.view = s.view ∨ Moves s.view a s'.view

section Calls

variable {s : State} {p : Nat} {a : Action}

theorem does_halt (s : State) (a : Action) (why : Stop) : Does s a (s.halt why) :=
  Or.inl (Option.some_ne_none _)

theorem does_goto {b : Phase} (h : Follows (s.thr p).phase b) : Does s a (s.goto p b) := by
  refine Or.inr (Or.inr ?_)
  rw [view_goto]
  exact .follow p h

/-- A pass of `P` on a semaphore the view does not show. -/
theorem does_passP {r : SemRef} {wait next : Phase} (hr : r.mute = true)
    (hw : (s.thr p).phase = wait ∨ Follows (s.thr p).phase wait)
    (hn : Follows (s.thr p).phase next) : Does s a (s.passP p r wait next) := by
  rcases passP_cases s p r wait next with h | h | ⟨_, h⟩
  · exact Or.inl h
  · refine Or.inr ?_
    rw [h]
    rcases hw with hw | hw
    · exact Or.inl (View.goto_self hw)
    · exact Or.inr (.follow p hw)
  · refine Or.inr (Or.inr ?_)
    rw [h, view_setSem_of_mute s hr]
    exact .follow p hn

/-- `V` on a semaphore the view does not show, after a change it does not
show either. -/
theorem does_doV {s₁ : State} {r : SemRef} {next : Phase} (h₁ : s₁.view = s.view)
    (hr : r.mute = true) (hn : Follows (s.thr p).phase next) : Does s a (s₁.doV p r next) := by
  rcases doV_cases s₁ p r next with h | ⟨x, _, h⟩
  · exact Or.inl h
  · refine Or.inr (Or.inr ?_)
    rw [h, view_setSem_of_mute s₁ hr, h₁]
    exact .follow p hn

theorem does_execUpdate {name : String} (heap : Heap) (hp : (s.thr p).phase = .execBody name) :
    Does s a (s.execUpdate p name heap) := by
  have hrefuse : Does s a (s.doV p .bmsem (.ret (-1))) :=
    does_doV rfl rfl (hp ▸ .execRefuse name)
  unfold State.execUpdate
  split
  · exact hrefuse
  · split
    · exact does_halt s a _
    · split
      · exact hrefuse
      · rcases Bitmap.findAndSet_cases s.bm with ⟨hfind, _⟩ | ⟨i, hfind, hlt, hclear, _⟩
        · rw [hfind]
          exact hrefuse
        · rw [hfind]
          dsimp only
          have hmove : Moves s.view a ((s.view.newPcb p i).goto p (.execFork s.next)) :=
            .spawn p name i hp hlt hclear
          rcases passP_cases (s.newPcb p name i (s.bm.markBit i)) p (.multex s.next)
            (.execFork s.next) (.execFork s.next) with h | h | ⟨_, h⟩
          · exact Or.inl h
          · refine Or.inr (Or.inr ?_)
            rw [h, view_newPcb]
            exact hmove
          · refine Or.inr (Or.inr ?_)
            rw [h, view_setSem_of_mute _ rfl, view_newPcb]
            exact hmove

theorem does_joinUpdate {id : Int} (hp : (s.thr p).phase = .user) :
    Does s (.join p id) (s.joinUpdate p id) := by
  have hrefuse : Does s (.join p id) (s.goto p (.ret (-1))) := does_goto (hp ▸ .refuse)
  unfold State.joinUpdate
  split
  · exact hrefuse
  · rename_i hid
    split
    · exact does_halt s _ _
    · rename_i k hk
      split
      · exact hrefuse
      · rename_i hpid
        split
        · exact does_halt s _ _
        · rename_i m hm
          have hmove : ∀ b, b = .joinInc id k m ∨ b = .joinIncd id k m →
              Moves s.view (.join p id) ((s.view.setJoinStage k .begun).goto p b) :=
            fun b hb => .join p id k m b hp (not_lt.mp hid) hk (not_not.mp hpid) hm hb
          rcases passP_cases (s.setJoinStage k .begun) p (.multex m) (.joinInc id k m)
            (.joinIncd id k m) with h | h | ⟨_, h⟩
          · exact Or.inl h
          · refine Or.inr (Or.inr ?_)
            rw [h]
            exact hmove _ (Or.inl rfl)
          · refine Or.inr (Or.inr ?_)
            rw [h, view_setSem_of_mute _ rfl]
            exact hmove _ (Or.inr rfl)

theorem does_joinPass {id : Int} {k m : Nat}
    (hp : ((s.thr p).phase = .joinWait id k ∧ s.pcbAt id = some m)
      ∨ (s.thr p).phase = .joinSleep id k m) : Does s a (s.joinPass p id k m) := by
  unfold State.joinPass
  split
  · exact does_halt s a _
  · by_cases h0 : (s.sem (.joinsem m)).value = 0
    · rw [Semaphore.p_sleep h0]
      refine Or.inr ?_
      dsimp only
      rw [view_setBlocked, view_goto, view_setSem_queue]
      rcases hp with ⟨hp, hm⟩ | hp
      · exact Or.inr (.joinSleep p id k m hp hm)
      · exact Or.inl (View.goto_self hp)
    · rw [Semaphore.p_pass h0]
      refine Or.inr (Or.inr ?_)
      dsimp only
      rw [view_goto, view_setJoinStage, view_setSem_joinsem]
      exact .joinPass p id k m hp h0

theorem does_joinRead {id : Int} {k : Nat} (hp : (s.thr p).phase = .joinRead id k) :
    Does s a (s.joinRead p id k) := by
  unfold State.joinRead
  split
  · exact does_halt s a _
  · rename_i j hj
    rcases doV_cases ((s.setJoinStage k .collected).record (.joinRead p id j (s.obj j).exitcode)) p
      (.exitsem j) (.joinRet id k (s.obj j).exitcode) with h | ⟨x, hx, h⟩
    · exact Or.inl h
    · refine Or.inr (Or.inr ?_)
      rw [h, view_setSem_exitsem, hx]
      exact .joinRead p id k j hp hj

theorem does_exitUpdate {ec : Int} (hp : (s.thr p).phase = .user) :
    Does s (.exit p ec) (s.exitUpdate p ec) := by
  unfold State.exitUpdate
  split
  · exact does_halt s _ _
  · rename_i hpid
    split
    · exact does_halt s _ _
    · split
      · exact does_halt s _ _
      · rename_i k hk
        split
        · exact does_halt s _ _
        · rename_i m hm
          have hmove : ∀ b, b = .exitDec m ∨ b = .exitDecd m →
              Moves s.view (.exit p ec)
                (((s.view.setExitcode k ec).record (.exit p ec)).goto p b) :=
            fun b hb => .exit p ec k m b hp hpid hk hm hb
          rcases passP_cases ((s.setObj k { s.obj k with exitcode := ec }).record (.exit p ec)) p
            (.multex m) (.exitDec m) (.exitDecd m) with h | h | ⟨_, h⟩
          · exact Or.inl h
          · refine Or.inr (Or.inr ?_)
            rw [h, view_record, view_setExitcode]
            exact hmove _ (Or.inl rfl)
          · refine Or.inr (Or.inr ?_)
            rw [h, view_setSem_of_mute _ rfl, view_record, view_setExitcode]
            exact hmove _ (Or.inr rfl)

theorem does_exitRelease {k : Nat} (hp : (s.thr p).phase = .exitRelease)
    (hk : s.pcbAt (s.thr p).processID = some k) : Does s a (s.doV p (.joinsem k) .exitWait) := by
  rcases doV_cases s p (.joinsem k) .exitWait with h | ⟨x, hx, h⟩
  · exact Or.inl h
  · refine Or.inr (Or.inr ?_)
    rw [h, view_setSem_joinsem, hx]
    exact .exitRelease p k hp hk

theorem does_exitWait {k : Nat}
    (hp : ((s.thr p).phase = .exitWait ∧ s.pcbAt (s.thr p).processID = some k)
      ∨ (s.thr p).phase = .exitSleep k) :
    Does s a (s.passP p (.exitsem k) (.exitSleep k) .exitRemove) := by
  rcases passP_cases s p (.exitsem k) (.exitSleep k) .exitRemove with h | h | ⟨h0, h⟩
  · exact Or.inl h
  · refine Or.inr ?_
    rw [h]
    rcases hp with ⟨hp, hk⟩ | hp
    · exact Or.inr (.exitSleep p k hp hk)
    · exact Or.inl (View.goto_self hp)
  · refine Or.inr (Or.inr ?_)
    rw [h, view_setSem_exitsem]
    exact .exitPass p k hp h0

theorem does_remove (hp : (s.thr p).phase = .exitRemove) : Does s a (s.remove p) := by
  unfold State.remove
  split
  · exact does_halt s a _
  · rename_i bm hbm
    have hbm : bm = s.bm.clearBit (s.thr p).processID.toNat := by
      unfold Bitmap.clear at hbm
      split at hbm
      · exact (Option.some.inj hbm).symm
      · cases hbm
    subst hbm
    split
    · rename_i hk
      refine Or.inr (Or.inr ?_)
      rw [view_goto]
      exact .removeNull p hp hk
    · rename_i k hk
      split
      · exact does_halt s a _
      · split
        · rename_i hthread
          refine Or.inr (Or.inr ?_)
          rw [view_goto, view_remove]
          exact .remove p k hp hk hthread
        · exact does_halt s a _

theorem does_go {s' : State} {heap : Heap} (h : s.go p heap = some s') : Does s a s' := by
  unfold State.go at h
  split at h
  case h_1 | h_2 | h_3 | h_4 => cases h
  case h_5 name hp =>
    obtain rfl := Option.some.inj h
    exact does_passP rfl (Or.inl hp) (hp ▸ .execWake name)
  case h_6 name hp =>
    obtain rfl := Option.some.inj h
    exact does_execUpdate heap hp
  case h_7 k hp =>
    obtain rfl := Option.some.inj h
    refine Or.inr (Or.inr ?_)
    rw [view_execFork]
    exact .fork p k hp
  case h_8 k hp =>
    obtain rfl := Option.some.inj h
    exact does_doV rfl rfl (hp ▸ .execUnlock k _)
  case h_9 pid hp =>
    obtain rfl := Option.some.inj h
    exact does_doV rfl rfl (hp ▸ .execV pid)
  case h_10 r hp =>
    obtain rfl := Option.some.inj h
    exact does_goto (hp ▸ .ret r)
  case h_11 id k m hp =>
    obtain rfl := Option.some.inj h
    exact does_passP rfl (Or.inl hp) (hp ▸ .joinWake id k m)
  case h_12 id k m hp =>
    obtain rfl := Option.some.inj h
    exact does_doV (view_setNumwait s m _) rfl (hp ▸ .joinUnlock id k m)
  case h_13 id k hp =>
    split at h
    · obtain rfl := Option.some.inj h
      exact does_halt s a _
    · rename_i m hm
      obtain rfl := Option.some.inj h
      exact does_joinPass (Or.inl ⟨hp, hm⟩)
  case h_14 id k m hp =>
    obtain rfl := Option.some.inj h
    exact does_joinPass (Or.inr hp)
  case h_15 id k hp =>
    obtain rfl := Option.some.inj h
    exact does_joinRead hp
  case h_16 id k ec hp =>
    obtain rfl := Option.some.inj h
    refine Or.inr (Or.inr ?_)
    rw [view_goto, view_record]
    exact .joinRet p id k ec hp
  case h_17 m hp =>
    obtain rfl := Option.some.inj h
    exact does_passP rfl (Or.inl hp) (hp ▸ .exitWake m)
  case h_18 m hp =>
    obtain rfl := Option.some.inj h
    exact does_doV (view_decNumWait s m) rfl (hp ▸ .exitUnlock m)
  case h_19 hp =>
    split at h
    · obtain rfl := Option.some.inj h
      exact does_halt s a _
    · rename_i k hk
      obtain rfl := Option.some.inj h
      exact does_exitRelease hp hk
  case h_20 hp =>
    split at h
    · obtain rfl := Option.some.inj h
      exact does_halt s a _
    · rename_i k hk
      obtain rfl := Option.some.inj h
      exact does_exitWait (Or.inl ⟨hp, hk⟩)
  case h_21 k hp =>
    obtain rfl := Option.some.inj h
    exact does_exitWait (Or.inr hp)
  case h_22 hp =>
    obtain rfl := Option.some.inj h
    exact does_remove hp

theorem does_act {s' : State} (h : act s a = some s') : Does s a s' := by
  unfold act at h
  cases a with
  | exec p name opens =>
      dsimp only at h
      split at h
      · rename_i hp
        split at h
        · obtain rfl := Option.some.inj h
          exact does_passP rfl (Or.inr (hp ▸ .execP name)) (hp ▸ .execLock name)
        · obtain rfl := Option.some.inj h
          exact does_goto (hp ▸ .refuse)
      · cases h
  | join p id =>
      dsimp only at h
      split at h
      · rename_i hp
        obtain rfl := Option.some.inj h
        exact does_joinUpdate hp
      · cases h
  | exit p ec =>
      dsimp only at h
      split at h
      · rename_i hp
        obtain rfl := Option.some.inj h
        exact does_exitUpdate hp
      · cases h
  | load p ok =>
      dsimp only at h
      split at h
      · rename_i hp
        split at h
        · obtain rfl := Option.some.inj h
          exact does_goto (hp ▸ .load)
        · obtain rfl := Option.some.inj h
          exact does_halt s _ _
      · cases h
  | go p heap =>
      dsimp only at h
      split at h
      · cases h
      · exact does_go h

end Calls

/-- A step is the action, or it stops the machine and changes nothing else. -/
theorem step_cases {s s' : State} {a : Action} (h : step s a = some s') :
    s.stop = none ∧ ∃ s₁, act s a = some s₁
      ∧ (s₁.stop = none ∧ s' = s₁ ∨ s₁.stop ≠ none ∧ s' = { s with stop := s₁.stop }) := by
  unfold step at h
  split at h
  next => cases h
  next hstop =>
      obtain ⟨s₁, hact, rfl⟩ := Option.map_eq_some_iff.mp h
      refine ⟨not_not.mp hstop, s₁, hact, ?_⟩
      split
      next hgo => exact Or.inl ⟨hgo, rfl⟩
      next hne => exact Or.inr ⟨hne, rfl⟩

/-- **Inversion.** A step stops the machine and changes nothing else, or
leaves the view as it is, or makes one of the listed moves. -/
theorem view_step {s s' : State} {a : Action} (h : step s a = some s') :
    s'.view = s.view ∨ Moves s.view a s'.view := by
  obtain ⟨-, s₁, hact, ⟨hstop, rfl⟩ | ⟨-, rfl⟩⟩ := step_cases h
  · exact (does_act hact).resolve_left (absurd hstop)
  · exact Or.inl rfl

end PTable

end Nachos
