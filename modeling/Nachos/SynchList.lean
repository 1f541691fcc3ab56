import Mathlib.Data.Set.Card
import Nachos.Lock

/-!
# Synchronized lists

`SynchList` of `threads/synchlist.cc` with `Condition` of `threads/synch.cc`,
used by any number of threads. On the one processor of the machine a thread
switch can come only where interrupts are enabled again, which is the end of
`P` and of `V`, or where a thread goes to sleep; so a step is what a thread
does from one such point to the next, and `Pc` are these points. A thread
that is asleep in the queue of a semaphore takes no step until a `V` has
taken it off the queue.

A `Condition` is a list of semaphores, one for each `Wait` that has not been
signalled. A thread is in one `Wait` at a time, so the semaphore it allocated
there goes by the thread's name (`waiter t`).

Besides the data of the source the state has three records: what was put on
the list, what each `RemoveFront` took off it, and what each `RemoveFront`
returned. The invariant `Inv` relates the lock, the condition and the list;
`fifo_without_lost_wakeups` is what it comes to.
-/

namespace Nachos

namespace SynchList

open Run CInt

/-- The calls: `Append(item)` and `RemoveFront()`. -/
inductive Call (α : Type) where
  | append (item : α)
  | removeFront

/-- Where a thread is. -/
inductive Pc (α : Type) where
  /-- in none of the calls -/
  | idle
  /-- in `P` of the first `Acquire` -/
  | acquire (c : Call α)
  /-- that `P` has taken the unit -/
  | acquired (c : Call α)
  /-- in `Append`, past the `V` of `Signal` -/
  | signalled
  /-- in `Wait`, past the `V` of `Release`: in `P` of the waiter -/
  | waiting
  /-- in `P` of the `Acquire` of `Wait` -/
  | reacquire
  /-- that `P` has taken the unit -/
  | reacquired
  /-- in `RemoveFront`, past the `V` of `Release` -/
  | returning (item : α)

namespace Pc

variable {α : Type}

/-- The thread has passed `P` of an `Acquire` and not yet `V` of the
`Release`. -/
def Inside : Pc α → Prop
  | acquired _ => True
  | signalled => True
  | reacquired => True
  | _ => False

/-- The thread has let go of the lock in `Wait` and `Wait` has not yet made
it the holder again. -/
def InWait : Pc α → Prop
  | waiting => True
  | reacquire => True
  | reacquired => True
  | _ => False

/-- What `Append` is about to put on the list. -/
def inFlight : Pc α → List α
  | acquire (.append item) => [item]
  | acquired (.append item) => [item]
  | _ => []

/-- What `RemoveFront` is about to return. -/
def inHand : Pc α → List α
  | returning item => [item]
  | _ => []

end Pc

structure State (T α : Type) where
  list : List α
  lock : Lock T
  waitQueue : List T
  waiter : T → Semaphore T
  pc : T → Pc α
  appended : List α
  removed : List (T × α)
  returned : List (T × α)

inductive Action (T α : Type) where
  | call (t : T) (c : Call α)
  | run (t : T)

variable {T α : Type} [DecidableEq T]

namespace State

/-- `SynchList::SynchList`, and no thread in a call. -/
def init : State T α := ⟨[], .new, [], fun _ => .new 0, fun _ => .idle, [], [], []⟩

def goto (s : State T α) (t : T) (next : Pc α) : State T α :=
  { s with pc := Function.update s.pc t next }

/-- The thread sleeps in the queue of a semaphore. -/
def Asleep (s : State T α) (t : T) : Prop := t ∈ s.lock.queue ∨ t ∈ (s.waiter t).queue

instance (s : State T α) (t : T) : Decidable (s.Asleep t) := inferInstanceAs (Decidable (_ ∨ _))

/-- A pass of `P` in `Acquire`. -/
def acquire (s : State T α) (t : T) (next : Pc α) : State T α :=
  if (s.lock.acquire t).1 then ({ s with lock := (s.lock.acquire t).2 } : State T α).goto t next
  else { s with lock := (s.lock.acquire t).2 }

/-- `Lock::Release`, and on to `next`. -/
def release (s : State T α) (t : T) (next : Pc α) : Option (State T α) :=
  (s.lock.release t).map fun l => ({ s with lock := l } : State T α).goto t next

/-- `Condition::Signal`: whether there was a waiter to wake. -/
def signal (s : State T α) (t : T) : Option (Bool × State T α) :=
  if s.lock.HeldBy t then
    match s.waitQueue with
    | [] => some (false, s)
    | w :: rest =>
        some (true, { s with
          waitQueue := rest, waiter := Function.update s.waiter w (s.waiter w).v.2 })
  else none

/-- `Condition::Wait` up to the end of its `Release`. -/
def wait (s : State T α) (t : T) : Option (State T α) :=
  if s.lock.HeldBy t then
    ({ s with waiter := Function.update s.waiter t (.new 0),
              waitQueue := s.waitQueue ++ [t] } : State T α).release t .waiting
  else none

/-- `List::Append`, which asserts that the item is not in the list. -/
def listAppend [DecidableEq α] (s : State T α) (item : α) : Option (State T α) :=
  if item ∈ s.list then none
  else some { s with list := s.list ++ [item], appended := s.appended ++ [item] }

/-- `List::RemoveFront`, which asserts that the list is not empty. -/
def listRemoveFront (s : State T α) (t : T) : Option (α × State T α) :=
  match s.list with
  | [] => none
  | item :: rest => some (item, { s with list := rest, removed := s.removed ++ [(t, item)] })

/-- `SynchList::Append` once `P` of `Acquire` has returned, up to the first
`V`. -/
def append [DecidableEq α] (s : State T α) (t : T) (item : α) : Option (State T α) :=
  (listAppend { s with lock := s.lock.take t } item).bind fun s =>
    (s.signal t).bind fun r => if r.1 then some (r.2.goto t .signalled) else r.2.release t .idle

/-- The loop of `SynchList::RemoveFront` from the test on, up to the next
`V`. -/
def removeFront (s : State T α) (t : T) : Option (State T α) :=
  if s.list.isEmpty then ({ s with lock := s.lock.take t } : State T α).wait t
  else
    (listRemoveFront { s with lock := s.lock.take t } t).bind fun r =>
      r.2.release t (.returning r.1)

/-- A pass of `P` of the waiter. -/
def pass (s : State T α) (t : T) : State T α :=
  let s' := { s with waiter := Function.update s.waiter t ((s.waiter t).p t).2 }
  if ((s.waiter t).p t).1 then s'.goto t .reacquire else s'

def advance [DecidableEq α] (s : State T α) (t : T) : Option (State T α) :=
  match s.pc t with
  | .idle => none
  | .acquire c => some (s.acquire t (.acquired c))
  | .acquired (.append item) => s.append t item
  | .acquired .removeFront => s.removeFront t
  | .signalled => s.release t .idle
  | .waiting => some (s.pass t)
  | .reacquire => some (s.acquire t .reacquired)
  | .reacquired => s.removeFront t
  | .returning item =>
      some (({ s with returned := s.returned ++ [(t, item)] } : State T α).goto t .idle)

end State

def step [DecidableEq α] (s : State T α) : Action T α → Option (State T α)
  | .call t c =>
      match s.pc t with
      | .idle => some (s.goto t (.acquire c))
      | _ => none
  | .run t => if s.Asleep t then none else s.advance t

/-! ## The invariant -/

/-- The waiter of `t` has been signalled, and `Wait` has not yet made `t` the
holder of the lock again. -/
def State.Signalled (s : State T α) (t : T) : Prop := (s.pc t).InWait ∧ t ∉ s.waitQueue

/-- The items of a record that belong to `t`. -/
def itemsOf (t : T) (l : List (T × α)) : List α := (l.filter fun x => x.1 = t).map Prod.snd

structure Inv (s : State T α) : Prop where
  guards : s.lock.Guards fun t => (s.pc t).Inside
  holder : ∀ t, s.pc t = .signalled → s.lock.HeldBy t
  fifo : s.appended = s.removed.map Prod.snd ++ s.list
  nodup : s.waitQueue.Nodup
  queued : ∀ t ∈ s.waitQueue,
    s.pc t = .waiting ∧ (s.waiter t = ⟨0, []⟩ ∨ s.waiter t = ⟨0, [t]⟩)
  woken : ∀ t, t ∉ s.waitQueue →
    (s.waiter t).queue = [] ∧ (s.pc t = .waiting → (s.waiter t).value = 1)
  wakeups : s.waitQueue ≠ [] → (s.list.length : ℕ∞) ≤ {t | s.Signalled t}.encard
  returns : ∀ t, itemsOf t s.removed = itemsOf t s.returned ++ (s.pc t).inHand

section Lemmas

variable {s s' : State T α} {t : T} {next : Pc α}

theorem pc_goto (s : State T α) (t : T) (next : Pc α) (u : T) :
    (s.goto t next).pc u = if u = t then next else s.pc u :=
  Function.update_apply ..

theorem itemsOf_append_self (t : T) (l : List (T × α)) (item : α) :
    itemsOf t (l ++ [(t, item)]) = itemsOf t l ++ [item] := by
  simp [itemsOf, List.filter_append]

theorem itemsOf_append_other {t u : T} (h : u ≠ t) (l : List (T × α)) (item : α) :
    itemsOf u (l ++ [(t, item)]) = itemsOf u l := by
  simp [itemsOf, List.filter_append, Ne.symm h]

/-- `t` moves from inside to inside, or from outside to outside. -/
theorem inside_goto_same (h : next.Inside ↔ (s.pc t).Inside) (u : T) :
    ((s.goto t next).pc u).Inside ↔ (s.pc u).Inside :=
  Lock.inside_update_same h u

theorem inside_goto_enter (h : next.Inside) (u : T) :
    ((s.goto t next).pc u).Inside ↔ (s.pc u).Inside ∨ u = t :=
  Lock.inside_update_enter h u

theorem inside_goto_leave (h : ¬next.Inside) (u : T) :
    ((s.goto t next).pc u).Inside ↔ (s.pc u).Inside ∧ u ≠ t :=
  Lock.inside_update_leave h u

theorem pc_goto_self : (s.goto t next).pc t = next := by rw [pc_goto, if_pos rfl]

theorem pc_goto_other {u : T} (h : u ≠ t) : (s.goto t next).pc u = s.pc u := by
  rw [pc_goto, if_neg h]

/-- A thread that is not in `P` of its waiter is not in the queue of the
condition. -/
theorem Inv.not_queued (h : Inv s) (ht : s.pc t ≠ .waiting) : t ∉ s.waitQueue :=
  fun hm => ht (h.queued t hm).1

/-- `t` moves neither into nor out of `Wait`. -/
theorem signalled_goto (hwait : next.InWait ↔ (s.pc t).InWait) :
    {u | (s.goto t next).Signalled u} = {u | s.Signalled u} := by
  ext u
  refine and_congr_left fun _ => ?_
  by_cases hut : u = t
  · rw [hut, pc_goto_self, hwait]
  · rw [pc_goto_other hut]

theorem Inv.holder_other (h : Inv s) (hnext : next ≠ .signalled) (u : T)
    (hu : (s.goto t next).pc u = .signalled) : s.lock.HeldBy u := by
  by_cases hut : u = t
  · rw [hut, pc_goto_self] at hu
    exact absurd hu hnext
  · rw [pc_goto_other hut] at hu
    exact h.holder u hu

theorem Inv.queued_goto (h : Inv s) (hfrom : s.pc t ≠ .waiting) (u : T) (hu : u ∈ s.waitQueue) :
    (s.goto t next).pc u = .waiting ∧ (s.waiter u = ⟨0, []⟩ ∨ s.waiter u = ⟨0, [u]⟩) := by
  have hut : u ≠ t := fun he => h.not_queued hfrom (he ▸ hu)
  rw [pc_goto_other hut]
  exact h.queued u hu

theorem Inv.woken_goto (h : Inv s) (hto : next ≠ .waiting) (u : T) (hu : u ∉ s.waitQueue) :
    (s.waiter u).queue = [] ∧ ((s.goto t next).pc u = .waiting → (s.waiter u).value = 1) := by
  refine ⟨(h.woken u hu).1, fun hpc => ?_⟩
  by_cases hut : u = t
  · rw [hut, pc_goto_self] at hpc
    exact absurd hpc hto
  · rw [pc_goto_other hut] at hpc
    exact (h.woken u hu).2 hpc

theorem Inv.returns_goto (h : Inv s) (hhand : next.inHand = (s.pc t).inHand) (u : T) :
    itemsOf u s.removed = itemsOf u s.returned ++ ((s.goto t next).pc u).inHand := by
  by_cases hut : u = t
  · rw [hut, pc_goto_self, hhand]
    exact h.returns t
  · rw [pc_goto_other hut]
    exact h.returns u

end Lemmas

/-! ## One step -/

section Steps

variable {s s' : State T α} {t : T}

/-- A step that changes the lock and the place of one thread, and moves that
thread neither into nor out of `Wait`. -/
theorem Inv.move (h : Inv s) {l : Lock T} {next : Pc α}
    (hguards : l.Guards fun u => ((s.goto t next).pc u).Inside)
    (hholder : ∀ u, (s.goto t next).pc u = .signalled → l.HeldBy u) (hfrom : s.pc t ≠ .waiting)
    (hto : next ≠ .waiting) (hwait : next.InWait ↔ (s.pc t).InWait)
    (hhand : next.inHand = (s.pc t).inHand) :
    Inv (({ s with lock := l } : State T α).goto t next) := by
  refine ⟨hguards, hholder, h.fifo, h.nodup, h.queued_goto hfrom, h.woken_goto hto, fun hq => ?_,
    h.returns_goto hhand⟩
  exact (h.wakeups hq).trans_eq (congrArg Set.encard (signalled_goto hwait).symm)

/-- The holder is none of the threads that `t` is not. -/
theorem Inv.holder_goto (h : Inv s) {l : Lock T} {next : Pc α} (hin : (s.pc t).Inside)
    (ht : next = .signalled → l.HeldBy t) (u : T) (hu : (s.goto t next).pc u = .signalled) :
    l.HeldBy u := by
  by_cases hut : u = t
  · rw [hut, pc_goto_self] at hu
    rw [hut]
    exact ht hu
  · rw [pc_goto_other hut] at hu
    exact absurd (h.guards.unique (by rw [hu]; trivial) hin) hut

theorem Inv.acquire (h : Inv s) {next : Pc α} (hfrom : s.pc t ≠ .waiting) (hin : next.Inside)
    (hto : next ≠ .waiting) (hsig : next ≠ .signalled) (hwait : next.InWait ↔ (s.pc t).InWait)
    (hhand : next.inHand = (s.pc t).inHand) : Inv (s.acquire t next) := by
  rw [State.acquire]
  rcases s.lock.acquire_cases t with ⟨hzero, heq⟩ | ⟨hne, heq⟩
  · rw [heq, if_neg Bool.false_ne_true]
    exact ⟨h.guards.congr hzero.symm fun _ => Iff.rfl, h.holder, h.fifo, h.nodup, h.queued, h.woken,
      h.wakeups, h.returns⟩
  · rw [heq, if_pos rfl]
    exact h.move (h.guards.enter hne rfl (inside_goto_enter hin)) (h.holder_other hsig) hfrom hto
      hwait hhand

/-- `Release` by the thread inside. -/
theorem Inv.guards_release (h : Inv s) {l : Lock T} {next : Pc α} (hin : (s.pc t).Inside)
    (hout : ¬next.Inside) (hl : l.semaphore = s.lock.semaphore.v.2) :
    l.Guards fun u => ((s.goto t next).pc u).Inside :=
  h.guards.leave hin (by rw [hl, Semaphore.v_value]) (inside_goto_leave hout)

theorem Inv.release (h : Inv s) (hin : s.pc t = .signalled) (hs : s.release t .idle = some s') :
    Inv s' := by
  obtain ⟨l, hl, rfl⟩ := Option.map_eq_some_iff.mp hs
  obtain ⟨-, rfl⟩ := Lock.release_eq_some hl
  have hin' : (s.pc t).Inside := by rw [hin]; trivial
  refine h.move (h.guards_release hin' (fun hn => hn) rfl) (h.holder_goto hin' fun hn => ?_)
    (by simp [hin]) (by simp) (by rw [hin]; rfl) (by rw [hin]; rfl)
  simp at hn

/-- An item is put on the list while nobody waits. -/
theorem Inv.push (h : Inv s) (hq : s.waitQueue = []) (item : α) :
    Inv { s with list := s.list ++ [item], appended := s.appended ++ [item] } :=
  ⟨h.guards, h.holder, by simp only [h.fifo, List.append_assoc], h.nodup, h.queued, h.woken,
    fun hne => absurd hq hne, h.returns⟩

/-- An item is put on the list and the first waiter is signalled. -/
theorem Inv.push_wake (h : Inv s) {w : T} {rest : List T} (hq : s.waitQueue = w :: rest)
    (item : α) :
    Inv { s with
      list := s.list ++ [item], appended := s.appended ++ [item], waitQueue := rest,
      waiter := Function.update s.waiter w (s.waiter w).v.2 } := by
  have hnd := h.nodup
  rw [hq] at hnd
  obtain ⟨hw, hrest⟩ := List.nodup_cons.mp hnd
  have hmem : ∀ u, u ∈ s.waitQueue ↔ u = w ∨ u ∈ rest := fun u => by rw [hq, List.mem_cons]
  obtain ⟨hpcw, hsem⟩ := h.queued w ((hmem w).mpr (Or.inl rfl))
  have hset : {u | (s.pc u).InWait ∧ u ∉ rest} = insert w {u | s.Signalled u} := by
    ext u
    rw [Set.mem_insert_iff, Set.mem_ofPred_eq, Set.mem_ofPred_eq, State.Signalled, hmem]
    by_cases huw : u = w
    · subst huw
      exact ⟨fun _ => Or.inl rfl, fun _ => ⟨by rw [hpcw]; trivial, hw⟩⟩
    · simp [huw]
  refine ⟨h.guards, h.holder, by simp only [h.fifo, List.append_assoc], hrest, fun u hu => ?_,
    fun u hnot => ?_, fun _ => ?_, h.returns⟩
  · have huw : u ≠ w := fun he => hw (he ▸ hu)
    simp only [Function.update_of_ne huw]
    exact h.queued u ((hmem u).mpr (Or.inr hu))
  · by_cases huw : u = w
    · subst huw
      simp only [Function.update_self]
      rcases hsem with hsem | hsem
      · rw [hsem]
        exact ⟨rfl, fun _ => rfl⟩
      · rw [hsem]
        exact ⟨rfl, fun _ => rfl⟩
    · simp only [Function.update_of_ne huw]
      exact h.woken u fun hm => ((hmem u).mp hm).elim huw hnot
  · have hfree : w ∉ {u | s.Signalled u} := fun hs => hs.2 ((hmem w).mpr (Or.inl rfl))
    have hold := h.wakeups (by rw [hq]; exact List.cons_ne_nil _ _)
    have hset' : {u | State.Signalled { s with
        list := s.list ++ [item], appended := s.appended ++ [item], waitQueue := rest,
        waiter := Function.update s.waiter w (s.waiter w).v.2 } u}
          = insert w {u | s.Signalled u} := hset
    rw [hset', Set.encard_insert_of_notMem hfree, List.length_append, List.length_singleton,
      Nat.cast_add, Nat.cast_one]
    exact add_le_add_left hold 1

theorem signal_nil (hh : s.lock.HeldBy t) (hq : s.waitQueue = []) :
    s.signal t = some (false, s) := by
  rw [State.signal, if_pos hh, hq]

theorem signal_cons (hh : s.lock.HeldBy t) {w : T} {rest : List T} (hq : s.waitQueue = w :: rest) :
    s.signal t = some (true, { s with
      waitQueue := rest, waiter := Function.update s.waiter w (s.waiter w).v.2 }) := by
  rw [State.signal, if_pos hh, hq]

theorem release_eq {next : Pc α} (hh : s.lock.HeldBy t) :
    s.release t next
      = some (({ s with lock := ⟨s.lock.semaphore.v.2, none⟩ } : State T α).goto t next) := by
  rw [State.release, Lock.release_eq hh, Option.map_some]

/-- What `Append` does with an item that is not in the list. -/
theorem append_cases [DecidableEq α] {item : α} (hnew : item ∉ s.list) :
    (s.waitQueue = [] ∧ s.append t item
        = some (({ s with
            lock := ⟨s.lock.semaphore.v.2, none⟩, list := s.list ++ [item],
            appended := s.appended ++ [item] } : State T α).goto t .idle))
      ∨ ∃ w rest, s.waitQueue = w :: rest ∧ s.append t item
        = some (({ s with
            lock := s.lock.take t, list := s.list ++ [item], appended := s.appended ++ [item],
            waitQueue := rest,
            waiter := Function.update s.waiter w (s.waiter w).v.2 } : State T α).goto t
              .signalled) := by
  have hpush : State.listAppend { s with lock := s.lock.take t } item
      = some { s with
          lock := s.lock.take t, list := s.list ++ [item], appended := s.appended ++ [item] } :=
    if_neg hnew
  rw [State.append, hpush, Option.bind_some]
  generalize hp : ({ s with
    lock := s.lock.take t, list := s.list ++ [item],
    appended := s.appended ++ [item] } : State T α) = p
  have hheld : p.lock.HeldBy t := hp ▸ Lock.heldBy_take s.lock t
  have hqueue : p.waitQueue = s.waitQueue := by rw [← hp]
  by_cases hq : s.waitQueue = []
  · refine Or.inl ⟨hq, ?_⟩
    rw [signal_nil hheld (hqueue.trans hq), Option.bind_some, if_neg Bool.false_ne_true,
      release_eq hheld,
      ← hp, Lock.semaphore_take]
  · obtain ⟨w, rest, hq⟩ := List.exists_cons_of_ne_nil hq
    refine Or.inr ⟨w, rest, hq, ?_⟩
    rw [signal_cons hheld (hqueue.trans hq), Option.bind_some, if_pos rfl, ← hp]

theorem append_new [DecidableEq α] {item : α} (hs : s.append t item = some s') : item ∉ s.list := by
  intro hmem
  rw [State.append, State.listAppend, if_pos hmem, Option.bind_none] at hs
  cases hs

theorem Inv.append [DecidableEq α] (h : Inv s) {item : α} (hin : s.pc t = .acquired (.append item))
    (hs : s.append t item = some s') : Inv s' := by
  have hin' : (s.pc t).Inside := by rw [hin]; trivial
  rcases append_cases (t := t) (append_new hs) with ⟨hq, heq⟩ | ⟨w, rest, hq, heq⟩
  · obtain rfl := Option.some.inj (hs.symm.trans heq)
    have hmove : Inv (({ s with lock := ⟨s.lock.semaphore.v.2, none⟩ } : State T α).goto t
        .idle) := by
      refine h.move (h.guards_release hin' (fun hn => hn) rfl) (h.holder_goto hin' fun hn => ?_)
        (by simp [hin]) (by simp) (by rw [hin]; rfl) (by rw [hin]; rfl)
      simp at hn
    exact hmove.push hq item
  · obtain rfl := Option.some.inj (hs.symm.trans heq)
    have hmove : Inv (({ s with lock := s.lock.take t } : State T α).goto t .signalled) :=
      h.move (h.guards.congr rfl (inside_goto_same (by rw [hin]; rfl)))
        (h.holder_goto hin' fun _ => Lock.heldBy_take ..) (by simp [hin]) (by simp)
        (by rw [hin]; rfl) (by rw [hin]; rfl)
    exact hmove.push_wake hq item

/-- What the body of `RemoveFront` does. -/
theorem removeFront_cases :
    (s.list = [] ∧ s.removeFront t
        = some (({ s with
            lock := ⟨s.lock.semaphore.v.2, none⟩, waiter := Function.update s.waiter t (.new 0),
            waitQueue := s.waitQueue ++ [t] } : State T α).goto t .waiting))
      ∨ ∃ item rest, s.list = item :: rest ∧ s.removeFront t
        = some (({ s with
            lock := ⟨s.lock.semaphore.v.2, none⟩, list := rest,
            removed := s.removed ++ [(t, item)] } : State T α).goto t (.returning item)) := by
  by_cases hl : s.list = []
  · refine Or.inl ⟨hl, ?_⟩
    have hwait : State.wait { s with lock := s.lock.take t } t
        = State.release { s with
            lock := s.lock.take t, waiter := Function.update s.waiter t (.new 0),
            waitQueue := s.waitQueue ++ [t] } t .waiting := if_pos (Lock.heldBy_take s.lock t)
    rw [State.removeFront, if_pos (by rw [hl]; rfl), hwait, release_eq (Lock.heldBy_take s.lock t),
      Lock.semaphore_take]
  · obtain ⟨item, rest, hl⟩ := List.exists_cons_of_ne_nil hl
    refine Or.inr ⟨item, rest, hl, ?_⟩
    have htake : State.listRemoveFront { s with lock := s.lock.take t } t
        = some (item, { s with
            lock := s.lock.take t, list := rest, removed := s.removed ++ [(t, item)] }) := by
      rw [State.listRemoveFront]
      simp only [hl]
    rw [State.removeFront, if_neg (by rw [hl]; exact Bool.false_ne_true), htake, Option.bind_some,
      release_eq (Lock.heldBy_take s.lock t), Lock.semaphore_take]

theorem Inv.removeFront (h : Inv s) (hin : (s.pc t).Inside) (hhand : (s.pc t).inHand = [])
    (hs : s.removeFront t = some s') : Inv s' := by
  have hpc : s.pc t ≠ .waiting := by
    intro he
    rw [he] at hin
    exact hin
  have hnot := h.not_queued hpc
  rcases removeFront_cases (s := s) (t := t) with ⟨hl, heq⟩ | ⟨item, rest, hl, heq⟩
  · obtain rfl := Option.some.inj (hs.symm.trans heq)
    -- the list is empty, so nothing is asked of the wakeups
    refine ⟨h.guards_release hin (fun hn => hn) rfl, fun u hu => ?_, h.fifo, ?_, fun u hu => ?_,
      fun u hq => ?_, fun _ => ?_, h.returns_goto hhand.symm⟩
    · exact h.holder_goto (l := ⟨s.lock.semaphore.v.2, none⟩) hin (fun hn => by simp at hn) u hu
    · refine List.nodup_append.mpr ⟨h.nodup, List.nodup_singleton t, ?_⟩
      rintro a ha b hb rfl
      exact hnot (List.mem_singleton.mp hb ▸ ha)
    · rcases List.mem_append.mp hu with hu | hu
      · have hut : u ≠ t := fun he => hnot (he ▸ hu)
        rw [pc_goto_other hut]
        simp only [State.goto, Function.update_of_ne hut]
        exact h.queued u hu
      · obtain rfl := List.mem_singleton.mp hu
        rw [pc_goto_self]
        exact ⟨rfl, Or.inl (Function.update_self ..)⟩
    · obtain ⟨hu', hut⟩ := not_or.mp fun hm => hq (List.mem_append.mpr hm)
      have hut' : u ≠ t := fun he => hut (List.mem_singleton.mpr he)
      rw [pc_goto_other hut']
      simp only [State.goto, Function.update_of_ne hut']
      exact h.woken u hu'
    · simp only [State.goto, hl, List.length_nil, Nat.cast_zero]
      exact zero_le
  · obtain rfl := Option.some.inj (hs.symm.trans heq)
    refine ⟨h.guards_release hin (fun hn => hn) rfl, fun u hu => ?_, ?_, h.nodup,
      h.queued_goto hpc, h.woken_goto (by simp), fun hq => ?_, fun u => ?_⟩
    · exact h.holder_goto (l := ⟨s.lock.semaphore.v.2, none⟩) hin (fun hn => by simp at hn) u hu
    · simp [State.goto, h.fifo, hl]
    · -- at most the thread itself leaves the signalled ones
      have hold := h.wakeups hq
      have hsub : {u | s.Signalled u} ⊆ insert t {u | State.Signalled (({ s with
            lock := ⟨s.lock.semaphore.v.2, none⟩, list := rest,
            removed := s.removed ++ [(t, item)] } : State T α).goto t (.returning item)) u} := by
        intro u hu
        by_cases hut : u = t
        · exact Set.mem_insert_iff.mpr (Or.inl hut)
        · refine Set.mem_insert_of_mem _ ⟨?_, hu.2⟩
          rw [pc_goto_other hut]
          exact hu.1
      have hle := (hold.trans (Set.encard_le_encard hsub)).trans (Set.encard_insert_le _ _)
      rw [hl, List.length_cons, Nat.cast_add, Nat.cast_one] at hle
      exact (ENat.add_le_add_iff_right ENat.one_ne_top).mp hle
    · by_cases hut : u = t
      · rw [hut, pc_goto_self]
        simp only [State.goto, itemsOf_append_self, Pc.inHand]
        rw [h.returns t, hhand, List.append_nil]
      · rw [pc_goto_other hut]
        simp only [State.goto, itemsOf_append_other hut]
        exact h.returns u

theorem Inv.pass (h : Inv s) (hin : s.pc t = .waiting) (hawake : ¬s.Asleep t) : Inv (s.pass t) := by
  by_cases hq : t ∈ s.waitQueue
  · -- not signalled: the thread goes to sleep
    have hsem : s.waiter t = ⟨0, []⟩ := by
      refine (h.queued t hq).2.resolve_right fun hsem => hawake (Or.inr ?_)
      rw [hsem]
      exact List.mem_singleton_self t
    have hpass : s.pass t = { s with waiter := Function.update s.waiter t ⟨0, [t]⟩ } := by
      simp only [State.pass, hsem]
      rfl
    rw [hpass]
    refine ⟨h.guards, h.holder, h.fifo, h.nodup, fun u hu => ?_, fun u hnot => ?_, h.wakeups,
      h.returns⟩
    · by_cases hut : u = t
      · subst hut
        exact ⟨hin, Or.inr (Function.update_self ..)⟩
      · simp only [Function.update_of_ne hut]
        exact h.queued u hu
    · have hut : u ≠ t := fun he => hnot (he ▸ hq)
      simp only [Function.update_of_ne hut]
      exact h.woken u hnot
  · have hsem : s.waiter t = ⟨1, []⟩ :=
      congrArg₂ Semaphore.mk ((h.woken t hq).2 hin) (h.woken t hq).1
    have hpass : s.pass t
        = ({ s with waiter := Function.update s.waiter t ⟨0, []⟩ } : State T α).goto t
            .reacquire := by
      simp only [State.pass, hsem]
      rfl
    rw [hpass]
    refine ⟨h.guards.congr rfl (inside_goto_same (by rw [hin]; rfl)), h.holder_other (by simp),
      h.fifo, h.nodup, fun u hu => ?_, fun u hnot => ?_, fun hne => ?_,
      h.returns_goto (by rw [hin]; rfl)⟩
    · have hut : u ≠ t := fun he => hq (he ▸ hu)
      rw [pc_goto_other hut]
      simp only [State.goto, Function.update_of_ne hut]
      exact h.queued u hu
    · by_cases hut : u = t
      · subst hut
        refine ⟨congrArg Semaphore.queue (Function.update_self u _ s.waiter), fun hpc => ?_⟩
        rw [pc_goto_self] at hpc
        simp at hpc
      · rw [pc_goto_other hut]
        simp only [State.goto, Function.update_of_ne hut]
        exact h.woken u hnot
    · refine (h.wakeups hne).trans_eq (congrArg Set.encard (signalled_goto ?_).symm)
      rw [hin]
      rfl

theorem Inv.returning (h : Inv s) {item : α} (hin : s.pc t = .returning item) :
    Inv (({ s with returned := s.returned ++ [(t, item)] } : State T α).goto t .idle) := by
  have hpc : s.pc t ≠ .waiting := by simp [hin]
  refine ⟨h.guards.congr rfl (inside_goto_same (by rw [hin]; rfl)), h.holder_other (by simp),
    h.fifo, h.nodup, h.queued_goto hpc, h.woken_goto (by simp), fun hne => ?_, fun u => ?_⟩
  · refine (h.wakeups hne).trans_eq (congrArg Set.encard (signalled_goto ?_).symm)
    rw [hin]
    rfl
  · by_cases hut : u = t
    · rw [hut, pc_goto_self]
      simp only [State.goto, itemsOf_append_self, Pc.inHand, List.append_nil]
      exact (h.returns t).trans (by rw [hin]; rfl)
    · rw [pc_goto_other hut]
      simp only [State.goto, itemsOf_append_other hut]
      exact h.returns u

theorem Inv.step [DecidableEq α] {a : Action T α} (h : Inv s) (hs : step s a = some s') :
    Inv s' := by
  cases a with
  | call t c =>
      cases hpc : s.pc t with
      | idle =>
          simp only [SynchList.step, hpc] at hs
          obtain rfl := Option.some.inj hs
          refine h.move (l := s.lock) (h.guards.congr rfl (inside_goto_same (by rw [hpc]; rfl)))
            (fun u hu => ?_) (by simp [hpc]) (by simp) (by rw [hpc]; rfl) (by rw [hpc]; rfl)
          by_cases hut : u = t
          · rw [hut, pc_goto_self] at hu
            simp at hu
          · rw [pc_goto_other hut] at hu
            exact h.holder u hu
      | _ =>
          simp only [SynchList.step, hpc] at hs
          cases hs
  | run t =>
      rw [SynchList.step] at hs
      split at hs
      next => cases hs
      next hawake =>
          cases hpc : s.pc t with
          | idle =>
              simp only [State.advance, hpc] at hs
              cases hs
          | acquire c =>
              simp only [State.advance, hpc] at hs
              obtain rfl := Option.some.inj hs
              exact h.acquire (by simp [hpc]) trivial (by simp) (by simp) (by rw [hpc]; rfl)
                (by rw [hpc]; rfl)
          | acquired c =>
              cases c with
              | append item =>
                  simp only [State.advance, hpc] at hs
                  exact h.append hpc hs
              | removeFront =>
                  simp only [State.advance, hpc] at hs
                  exact h.removeFront (by rw [hpc]; trivial) (by rw [hpc]; rfl) hs
          | signalled =>
              simp only [State.advance, hpc] at hs
              exact h.release hpc hs
          | waiting =>
              simp only [State.advance, hpc] at hs
              obtain rfl := Option.some.inj hs
              exact h.pass hpc hawake
          | reacquire =>
              simp only [State.advance, hpc] at hs
              obtain rfl := Option.some.inj hs
              exact h.acquire (by simp [hpc]) trivial (by simp) (by simp) (by rw [hpc]; rfl)
                (by rw [hpc]; rfl)
          | reacquired =>
              simp only [State.advance, hpc] at hs
              exact h.removeFront (by rw [hpc]; trivial) (by rw [hpc]; rfl) hs
          | returning item =>
              simp only [State.advance, hpc] at hs
              obtain rfl := Option.some.inj hs
              exact h.returning hpc

/-- The start of a call. -/
theorem call_eq_some [DecidableEq α] {c : Call α} (hs : SynchList.step s (.call t c) = some s') :
    s.pc t = .idle ∧ s' = s.goto t (.acquire c) := by
  cases hpc : s.pc t with
  | idle =>
      simp only [SynchList.step, hpc] at hs
      exact ⟨rfl, (Option.some.inj hs).symm⟩
  | _ =>
      simp only [SynchList.step, hpc] at hs
      cases hs

/-- What a step of a thread does with the item it is about to append. -/
def Conserves (s s' : State T α) (t : T) : Prop :=
  (s'.appended = s.appended ∧ (s'.pc t).inFlight = (s.pc t).inFlight)
    ∨ ∃ item, (s.pc t).inFlight = [item] ∧ (s'.pc t).inFlight = []
        ∧ s'.appended = s.appended ++ [item]

/-- An item stays with its thread until it is on the list, and a step of one
thread moves no other. -/
theorem run_conserves [DecidableEq α] (hs : SynchList.step s (.run t) = some s') :
    Conserves s s' t ∧ ∀ u, u ≠ t → s'.pc u = s.pc u := by
  have hgoto : ∀ (p : State T α) (next : Pc α), p.pc = s.pc → p.appended = s.appended →
      next.inFlight = (s.pc t).inFlight →
      Conserves s (p.goto t next) t ∧ ∀ u, u ≠ t → (p.goto t next).pc u = s.pc u := by
    intro p next hpc happ hnext
    refine ⟨Or.inl ⟨happ, by rw [pc_goto_self, hnext]⟩, fun u hu => ?_⟩
    rw [pc_goto_other hu, hpc]
  have hremove : (s.pc t).inFlight = [] → s.removeFront t = some s' →
      Conserves s s' t ∧ ∀ u, u ≠ t → s'.pc u = s.pc u := by
    intro hnone hs
    rcases removeFront_cases (s := s) (t := t) with ⟨-, heq⟩ | ⟨item, rest, -, heq⟩
    · obtain rfl := Option.some.inj (hs.symm.trans heq)
      exact hgoto _ _ rfl rfl hnone.symm
    · obtain rfl := Option.some.inj (hs.symm.trans heq)
      exact hgoto _ _ rfl rfl hnone.symm
  have hacquire : ∀ next : Pc α, next.inFlight = (s.pc t).inFlight →
      Conserves s (s.acquire t next) t ∧ ∀ u, u ≠ t → (s.acquire t next).pc u = s.pc u := by
    intro next hnext
    rw [State.acquire]
    split
    next => exact hgoto _ _ rfl rfl hnext
    next => exact ⟨Or.inl ⟨rfl, rfl⟩, fun _ _ => rfl⟩
  rw [SynchList.step] at hs
  split at hs
  next => cases hs
  next =>
      cases hpc : s.pc t with
      | idle =>
          simp only [State.advance, hpc] at hs
          cases hs
      | acquire c =>
          simp only [State.advance, hpc] at hs
          obtain rfl := Option.some.inj hs
          exact hacquire _ (by rw [hpc]; cases c <;> rfl)
      | acquired c =>
          cases c with
          | append item =>
              simp only [State.advance, hpc] at hs
              have hitem : (s.pc t).inFlight = [item] := by rw [hpc]; rfl
              rcases append_cases (t := t) (append_new hs) with ⟨-, heq⟩ | ⟨w, rest, -, heq⟩
              · obtain rfl := Option.some.inj (hs.symm.trans heq)
                exact ⟨Or.inr ⟨item, hitem, by rw [pc_goto_self]; rfl, rfl⟩,
                  fun u hu => pc_goto_other hu⟩
              · obtain rfl := Option.some.inj (hs.symm.trans heq)
                exact ⟨Or.inr ⟨item, hitem, by rw [pc_goto_self]; rfl, rfl⟩,
                  fun u hu => pc_goto_other hu⟩
          | removeFront =>
              simp only [State.advance, hpc] at hs
              exact hremove (by rw [hpc]; rfl) hs
      | signalled =>
          simp only [State.advance, hpc] at hs
          obtain ⟨l, -, rfl⟩ := Option.map_eq_some_iff.mp hs
          exact hgoto _ _ rfl rfl (by rw [hpc]; rfl)
      | waiting =>
          simp only [State.advance, hpc] at hs
          obtain rfl := Option.some.inj hs
          simp only [State.pass]
          split
          next => exact hgoto _ _ rfl rfl (by rw [hpc]; rfl)
          next => exact ⟨Or.inl ⟨rfl, rfl⟩, fun _ _ => rfl⟩
      | reacquire =>
          simp only [State.advance, hpc] at hs
          obtain rfl := Option.some.inj hs
          exact hacquire _ (by rw [hpc]; rfl)
      | reacquired =>
          simp only [State.advance, hpc] at hs
          exact hremove (by rw [hpc]; rfl) hs
      | returning item =>
          simp only [State.advance, hpc] at hs
          obtain rfl := Option.some.inj hs
          exact hgoto _ _ rfl rfl (by rw [hpc]; rfl)

/-- A thread in a call that is not asleep can go on: no assertion fails, but
for the one of `List::Append` about the item. -/
theorem Inv.runs [DecidableEq α] (h : Inv s) (hcall : s.pc t ≠ .idle) (hawake : ¬s.Asleep t)
    (hnew : ∀ item, s.pc t = .acquired (.append item) → item ∉ s.list) :
    (SynchList.step s (.run t)).isSome := by
  have hremove : (s.removeFront t).isSome := by
    rcases removeFront_cases (s := s) (t := t) with ⟨-, heq⟩ | ⟨item, rest, -, heq⟩
    · rw [heq, Option.isSome_some]
    · rw [heq, Option.isSome_some]
  rw [SynchList.step, if_neg hawake]
  cases hpc : s.pc t with
  | idle => exact absurd hpc hcall
  | acquired c =>
      cases c with
      | append item =>
          simp only [State.advance, hpc]
          rcases append_cases (t := t) (hnew item hpc) with ⟨-, heq⟩ | ⟨w, rest, -, heq⟩
          · rw [heq, Option.isSome_some]
          · rw [heq, Option.isSome_some]
      | removeFront =>
          simp only [State.advance, hpc]
          exact hremove
  | signalled =>
      simp only [State.advance, hpc]
      rw [release_eq (h.holder t hpc), Option.isSome_some]
  | reacquired =>
      simp only [State.advance, hpc]
      exact hremove
  | _ => simp only [State.advance, hpc, Option.isSome_some]

end Steps

/-! ## Runs -/

theorem Inv.init : Inv (State.init : State T α) :=
  ⟨Lock.Guards.new, fun _ h => by simp [State.init] at h, rfl, List.nodup_nil,
    fun _ h => absurd h List.not_mem_nil, fun _ _ => ⟨rfl, fun h => by simp [State.init] at h⟩,
    fun h => absurd rfl h, fun _ => rfl⟩

/-- What a list must be like in every state. -/
structure ListOK [DecidableEq α] (s : State T α) : Prop where
  /-- at most one thread is between `Acquire` and `Release` -/
  exclusive : ∀ t u, (s.pc t).Inside → (s.pc u).Inside → t = u
  /-- what was taken off, followed by what is on the list, is what was put on -/
  fifo : s.appended = s.removed.map Prod.snd ++ s.list
  /-- every thread gets what its calls took off, in that order -/
  returns : ∀ t, itemsOf t s.removed = itemsOf t s.returned ++ (s.pc t).inHand
  /-- no assertion fails, in particular not the one of `List::RemoveFront` -/
  runs : ∀ t, s.pc t ≠ .idle → ¬s.Asleep t →
    (∀ item, s.pc t = .acquired (.append item) → item ∉ s.list) → (step s (.run t)).isSome
  /-- while a consumer waits for a signal, every item has a signalled consumer -/
  wakeups : s.waitQueue ≠ [] → (s.list.length : ℕ∞) ≤ {t | s.Signalled t}.encard
  /-- a signalled consumer is not asleep on its waiter -/
  awake : ∀ t, s.Signalled t → t ∉ (s.waiter t).queue

/-- **A synchronized list** is a FIFO without lost wakeups, however many
threads use it and however their steps interleave. -/
theorem fifo_without_lost_wakeups [DecidableEq α] {s : State T α}
    (h : Reach step Any State.init s) : ListOK s := by
  have hinv : Inv s := Reach.invariant Inv.init (fun _ _ _ _ hi _ hs => hi.step hs) h
  refine ⟨fun t u => hinv.guards.unique, hinv.fifo, hinv.returns, fun t => hinv.runs, hinv.wakeups,
    fun t ht => ?_⟩
  rw [(hinv.woken t ht.2).1]
  exact List.not_mem_nil

/-- Threads 1 and 2 wait, and thread 0 has appended 7 and signalled 1. -/
theorem fifo_without_lost_wakeups_two_waiting :
    ∃ s : State Nat Nat, Reach step Any State.init s ∧ s.waitQueue = [2] ∧ s.list = [7]
      ∧ ListOK s := by
  have hrun : (exec step Any (State.init : State Nat Nat)
      [.call 1 .removeFront, .run 1, .run 1, .run 1, .call 2 .removeFront, .run 2, .run 2,
        .call 0 (.append 7), .run 0, .run 0]).map (fun s => (s.waitQueue, s.list))
      = some ([2], [7]) := by
    decide
  obtain ⟨s, hexec, hsee⟩ := Option.map_eq_some_iff.mp hrun
  have hreach := Reach.of_exec _ hexec
  exact ⟨s, hreach, (Prod.mk.inj hsee).1, (Prod.mk.inj hsee).2, fifo_without_lost_wakeups hreach⟩

end SynchList

end Nachos
