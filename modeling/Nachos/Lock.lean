import Nachos.Semaphore

/-!
# Locks

`Lock` of `threads/synch.cc`: a semaphore that starts at 1 and a record of
the holder. `Acquire` is `P` of the semaphore, whose loop is taken pass by
pass as in `Semaphore`, and then the store of the holder (`take`); a thread
switch may come between the two. `Release` asserts that the caller is the
holder.

`Guards` is mutual exclusion as an invariant of the semaphore: `inside` are
the threads between the pass of `P` that took the unit and the `V` that
gives it back. It is kept by each operation on the lock; who is inside is up
to the code that uses it. `Queueing` is the same for the threads asleep in
`Acquire`: no wakeup is lost.
-/

namespace Nachos

open CInt

structure Lock (T : Type) where
  semaphore : Semaphore T
  lockHolder : Option T
deriving Repr, DecidableEq

namespace Lock

variable {T : Type}

/-- `Lock::Lock`. -/
def new : Lock T := ⟨.new 1, none⟩

/-- One pass of the loop of `P` in `Lock::Acquire`. -/
def acquire (l : Lock T) (t : T) : Bool × Lock T :=
  ((l.semaphore.p t).1, { l with semaphore := (l.semaphore.p t).2 })

/-- The rest of `Lock::Acquire`. -/
def take (l : Lock T) (t : T) : Lock T := { l with lockHolder := some t }

/-- `Lock::IsHeldByCurrentThread`. -/
def HeldBy (l : Lock T) (t : T) : Prop := l.lockHolder = some t

instance [DecidableEq T] (l : Lock T) (t : T) : Decidable (l.HeldBy t) :=
  inferInstanceAs (Decidable (_ = _))

/-- `Lock::Release`. -/
def release [DecidableEq T] (l : Lock T) (t : T) : Option (Lock T) :=
  if l.HeldBy t then some ⟨l.semaphore.v.2, none⟩ else none

/-- The threads asleep in `Acquire`. -/
def queue (l : Lock T) : List T := l.semaphore.queue

@[simp] theorem semaphore_take (l : Lock T) (t : T) : (l.take t).semaphore = l.semaphore := rfl

theorem heldBy_take (l : Lock T) (t : T) : (l.take t).HeldBy t := rfl

theorem acquire_cases (l : Lock T) (t : T) :
    (l.semaphore.value = 0
        ∧ l.acquire t = (false, { l with semaphore := ⟨0, l.queue ++ [t]⟩ }))
      ∨ (l.semaphore.value ≠ 0
        ∧ l.acquire t
          = (true, { l with semaphore := ⟨wrap32 (l.semaphore.value - 1), l.queue⟩ })) := by
  by_cases h0 : l.semaphore.value = 0
  · refine Or.inl ⟨h0, ?_⟩
    rw [acquire, Semaphore.p_sleep h0, queue, h0]
  · refine Or.inr ⟨h0, ?_⟩
    rw [acquire, Semaphore.p_pass h0, queue]

theorem release_eq [DecidableEq T] {l : Lock T} {t : T} (h : l.HeldBy t) :
    l.release t = some ⟨l.semaphore.v.2, none⟩ := if_pos h

theorem release_eq_some [DecidableEq T] {l l' : Lock T} {t : T} (h : l.release t = some l') :
    l.HeldBy t ∧ l' = ⟨l.semaphore.v.2, none⟩ := by
  rw [release] at h
  split at h
  next hh => exact ⟨hh, (Option.some.inj h).symm⟩
  next => cases h

/-! ## Mutual exclusion -/

/-- The lock is free and nobody is inside, or it is taken and exactly one
thread is. -/
def Guards (l : Lock T) (inside : T → Prop) : Prop :=
  (l.semaphore.value = 1 ∧ ∀ t, ¬inside t)
    ∨ (l.semaphore.value = 0 ∧ ∃ t, ∀ u, inside u ↔ u = t)

variable {l l' : Lock T} {inside inside' : T → Prop} {t : T}

theorem Guards.new : (Lock.new : Lock T).Guards fun _ => False :=
  Or.inl ⟨rfl, fun _ h => h⟩

theorem Guards.unique (h : l.Guards inside) {u : T} (ht : inside t) (hu : inside u) : t = u := by
  rcases h with ⟨-, hnone⟩ | ⟨-, v, hv⟩
  · exact absurd ht (hnone t)
  · exact ((hv t).mp ht).trans ((hv u).mp hu).symm

/-- Nothing about the semaphore's value or the threads inside has changed. -/
theorem Guards.congr (h : l.Guards inside) (hval : l'.semaphore.value = l.semaphore.value)
    (hin : ∀ u, inside' u ↔ inside u) : l'.Guards inside' := by
  rcases h with ⟨hone, hnone⟩ | ⟨hzero, v, hv⟩
  · exact Or.inl ⟨hval.trans hone, fun u hu => hnone u ((hin u).mp hu)⟩
  · exact Or.inr ⟨hval.trans hzero, v, fun u => (hin u).trans (hv u)⟩

/-- A pass of `Acquire` that takes the unit. -/
theorem Guards.enter (h : l.Guards inside) (hval : l.semaphore.value ≠ 0)
    (hval' : l'.semaphore.value = wrap32 (l.semaphore.value - 1))
    (hin : ∀ u, inside' u ↔ inside u ∨ u = t) : l'.Guards inside' := by
  rcases h with ⟨hone, hnone⟩ | ⟨hzero, -⟩
  · refine Or.inr ⟨by rw [hval', hone]; rfl, t, fun u => (hin u).trans ?_⟩
    exact ⟨fun hu => hu.resolve_left (hnone u), Or.inr⟩
  · exact absurd hzero hval

/-- A `Release` by the thread inside. -/
theorem Guards.leave (h : l.Guards inside) (ht : inside t)
    (hval' : l'.semaphore.value = wrap32 (l.semaphore.value + 1))
    (hin : ∀ u, inside' u ↔ inside u ∧ u ≠ t) : l'.Guards inside' := by
  rcases h with ⟨-, hnone⟩ | ⟨hzero, v, hv⟩
  · exact absurd ht (hnone t)
  · refine Or.inl ⟨by rw [hval', hzero]; rfl, fun u hu => ?_⟩
    obtain ⟨hu, hne⟩ := (hin u).mp hu
    exact hne (((hv u).mp hu).trans ((hv t).mp ht).symm)

/-! ## Threads by their program counters

Who is inside is read off the program counter of each thread, and a step
changes the counter of one thread. -/

section

variable [DecidableEq T] {P : Type} {In : P → Prop} {pc : T → P} {next : P}

/-- The thread stays inside, or outside. -/
theorem inside_update_same (h : In next ↔ In (pc t)) (u : T) :
    In (Function.update pc t next u) ↔ In (pc u) := by
  by_cases hu : u = t
  · rw [hu, Function.update_self, h]
  · rw [Function.update_of_ne hu]

theorem inside_update_enter (h : In next) (u : T) :
    In (Function.update pc t next u) ↔ In (pc u) ∨ u = t := by
  by_cases hu : u = t
  · rw [hu, Function.update_self]
    exact ⟨fun _ => Or.inr rfl, fun _ => h⟩
  · rw [Function.update_of_ne hu, or_iff_left hu]

theorem inside_update_leave (h : ¬In next) (u : T) :
    In (Function.update pc t next u) ↔ In (pc u) ∧ u ≠ t := by
  by_cases hu : u = t
  · rw [hu, Function.update_self]
    exact ⟨fun hn => absurd hn h, fun hc => absurd rfl hc.2⟩
  · rw [Function.update_of_ne hu, and_iff_left hu]

end

/-! ## Threads that sleep for the lock -/

/-- The queue of the lock: who sleeps there wants the lock, and if it is free
then some thread that wants it is awake. -/
structure Queueing (l : Lock T) (wants : T → Prop) : Prop where
  sleepers : ∀ t ∈ l.queue, wants t
  nodup : l.queue.Nodup
  awake : l.semaphore.value = 1 → l.queue ≠ [] → ∃ t, t ∉ l.queue ∧ wants t

section Queueing

variable {wants wants' : T → Prop}

theorem Queueing.mono (h : l.Queueing wants) (hmono : ∀ u, wants u → wants' u) :
    l.Queueing wants' :=
  ⟨fun u hu => hmono u (h.sleepers u hu), h.nodup, fun h1 hq =>
    let ⟨u, hu, hw⟩ := h.awake h1 hq
    ⟨u, hu, hmono u hw⟩⟩

theorem Queueing.take (h : l.Queueing wants) : (l.take t).Queueing wants :=
  ⟨h.sleepers, h.nodup, h.awake⟩

/-- A pass of `P` that has to sleep. -/
theorem Queueing.sleep (h : l.Queueing wants) (ht : wants t) (hnot : t ∉ l.queue) :
    Queueing { l with semaphore := ⟨0, l.queue ++ [t]⟩ } wants := by
  refine ⟨fun u hu => ?_, ?_, fun h1 => absurd h1 (by simp)⟩
  · rcases List.mem_append.mp hu with hu | hu
    · exact h.sleepers u hu
    · exact List.mem_singleton.mp hu ▸ ht
  · exact List.nodup_append.mpr ⟨h.nodup, List.pairwise_singleton _ t,
      fun a ha b hb hab => hnot (List.mem_singleton.mp hb ▸ hab ▸ ha)⟩

/-- A pass of `P` that takes the unit. -/
theorem Queueing.taken (h : l.Queueing wants) (hnot : t ∉ l.queue) {value : Int} (hv : value ≠ 1)
    (hwants : ∀ u, u ≠ t → wants u → wants' u) :
    Queueing { l with semaphore := ⟨value, l.queue⟩ } wants' := by
  refine ⟨fun u hu => hwants u ?_ (h.sleepers u hu), h.nodup, fun h1 => absurd h1 hv⟩
  rintro rfl
  exact hnot hu

/-- `V` of `Release`: the front of the queue is awake. -/
theorem Queueing.release (h : l.Queueing wants) : Queueing ⟨l.semaphore.v.2, none⟩ wants := by
  cases hq : l.queue with
  | nil =>
      have hv := Semaphore.v_of_empty (s := l.semaphore) hq
      have hnil : (⟨l.semaphore.v.2, none⟩ : Lock T).queue = [] := by
        rw [Lock.queue, hv]
        exact hq
      exact ⟨fun u hu => absurd (hnil ▸ hu) List.not_mem_nil, hnil ▸ List.nodup_nil,
        fun _ hne => absurd hnil hne⟩
  | cons w rest =>
      have hv := Semaphore.v_of_cons (s := l.semaphore) hq
      have hrest : (⟨l.semaphore.v.2, none⟩ : Lock T).queue = rest := by rw [Lock.queue, hv]
      have hnodup := h.nodup
      rw [hq, List.nodup_cons] at hnodup
      have hmem : ∀ u ∈ w :: rest, wants u := fun u hu => h.sleepers u (hq ▸ hu)
      refine ⟨fun u hu => hmem u (List.mem_cons_of_mem w (hrest ▸ hu)), hrest ▸ hnodup.2,
        fun _ _ => ⟨w, hrest ▸ hnodup.1, hmem w List.mem_cons_self⟩⟩

end Queueing

end Lock

end Nachos
