import Nachos.AtomicObject
import Nachos.SynchDevice

/-!
# The synchronous devices are atomic

`SynchDisk` and `SynchConsoleOutput`, used by any number of threads: the sectors
read and the characters written are those of a disk, or a console, that serves
one call after the other. The device of `SynchDevice` does its input or output
when it gets the request, so that is the point at which the call takes effect;
what comes before it and after it, up to the return, no other thread can tell.

The steps are matched with those of the atomic object of `AtomicObject` through
`view`. For the calls to return as well, nobody may sleep in vain: `Sleeping`
has for every queue what its sleepers wait for, and from it follows that a device
in use goes on (`goes_on`).
-/

namespace Nachos

namespace SynchDevice

open Run CInt

variable {T R D A : Type}

/-! ## The history -/

/-- What the step shows of calls and returns. -/
def shown (s : State T R D A) : Action T R → List (Atomic.Event T R A)
  | .call t r => [.call t r]
  | .run t =>
      match s.pc t with
      | .releasing _ answer => [.ret t answer]
      | _ => []
  | .callBack _ => []

variable [DecidableEq T]

/-- A step, with the history so far. -/
def tracedStep (dev : Device R D A) (x : State T R D A × List (Atomic.Event T R A))
    (a : Action T R) : Option (State T R D A × List (Atomic.Event T R A)) :=
  (step dev x.1 a).map fun s' => (s', x.2 ++ shown x.1 a)

/-- What the call of a thread has come to. -/
def Pc.status : Pc R A → Atomic.Status R A
  | idle => .idle
  | acquire r => .called r
  | acquired r => .called r
  | waiting _ answer => .answered answer
  | releasing _ answer => .answered answer

/-- The device as an atomic object. -/
def view (s : State T R D A) (history : List (Atomic.Event T R A))
    (log : List (Atomic.Entry T R A)) : Atomic.State T R D A :=
  ⟨s.data, fun t => (s.pc t).status, history, log⟩

section Views

variable {dev : Device R D A} {s s' : State T R D A} {t : T}
  {history : List (Atomic.Event T R A)} {log : List (Atomic.Entry T R A)}

omit [DecidableEq T] in
theorem view_congr (hdata : s'.data = s.data) (hpc : s'.pc = s.pc) :
    view s' history log = view s history log := by
  rw [view, view, hdata, hpc]

omit [DecidableEq T] in
theorem status_view {p : Pc R A} (hpc : s.pc t = p) : (view s history log).status t = p.status :=
  congrArg Pc.status hpc

theorem view_goto (s : State T R D A) (t : T) (next : Pc R A) :
    view (s.goto t next) history log
      = ⟨s.data, Function.update (fun u => (s.pc u).status) t next.status, history, log⟩ := by
  have hstatus : (fun u => ((s.goto t next).pc u).status)
      = Function.update (fun u => (s.pc u).status) t next.status := by
    funext u
    by_cases hu : u = t
    · rw [hu, pc_goto_self, Function.update_self]
    · rw [pc_goto_of_ne s hu, Function.update_of_ne hu]
  rw [view, hstatus]
  rfl

/-- The thread moves on, and no other thread can tell. -/
theorem view_goto_same {next : Pc R A} (h : next.status = (s.pc t).status) :
    view (s.goto t next) history log = view s history log := by
  rw [view_goto, h, Function.update_eq_self_iff.mpr rfl]
  rfl

/-- **Every step is one of the atomic object**, or is not seen. -/
theorem step_viewed (history : List (Atomic.Event T R A)) (log : List (Atomic.Entry T R A))
    {a : Action T R} (hs : step dev s a = some s') :
    ∃ log', view s' (history ++ shown s a) log' = view s history log
      ∨ Atomic.Step dev.perform (view s history log) (view s' (history ++ shown s a) log') := by
  cases a with
  | call t r =>
      rw [step] at hs
      split at hs
      next hpc =>
        obtain rfl := Option.some.inj hs
        refine ⟨log, Or.inr ?_⟩
        rw [view_goto]
        exact .call r (status_view hpc)
      next => cases hs
  | callBack id =>
      rw [step] at hs
      split at hs
      next =>
        obtain rfl := Option.some.inj hs
        exact ⟨log, Or.inl (by rw [shown, List.append_nil]; rfl)⟩
      next => cases hs
  | run t =>
      rw [step] at hs
      split at hs
      next => cases hs
      next =>
        rw [State.advance] at hs
        split at hs
        next => cases hs
        next r hpc =>
          obtain rfl := Option.some.inj hs
          refine ⟨log, Or.inl ?_⟩
          simp only [shown, hpc, List.append_nil, State.acquire]
          split
          next => exact (view_goto_same (by dsimp only; rw [hpc]; rfl)).trans (view_congr rfl rfl)
          next => exact view_congr rfl rfl
        next r hpc =>
          rw [State.request] at hs
          split at hs
          next => cases hs
          next =>
            obtain ⟨⟨data, answer⟩, hperform, rfl⟩ := Option.map_eq_some_iff.mp hs
            refine ⟨log ++ [⟨t, r, answer⟩], Or.inr ?_⟩
            simp only [shown, hpc, List.append_nil]
            rw [view_goto]
            exact .effect (status_view hpc) hperform
        next id answer hpc =>
          obtain rfl := Option.some.inj hs
          refine ⟨log, Or.inl ?_⟩
          simp only [shown, hpc, List.append_nil, State.wait]
          split
          next => exact (view_goto_same (by dsimp only; rw [hpc]; rfl)).trans (view_congr rfl rfl)
          next => exact view_congr rfl rfl
        next id answer hpc =>
          obtain ⟨l, -, rfl⟩ := Option.map_eq_some_iff.mp hs
          refine ⟨log, Or.inr ?_⟩
          simp only [shown, hpc]
          rw [view_goto]
          exact .ret (status_view hpc)

end Views

/-! ## Sleeping threads -/

/-- The thread is in `P` of `Acquire`. -/
def Pc.Wants : Pc R A → Prop
  | acquire _ => True
  | _ => False

theorem Pc.Inside.not_wants {p : Pc R A} (h : p.Inside) : ¬p.Wants := by
  cases p <;> simp_all [Pc.Inside, Pc.Wants]

/-- Who sleeps for the lock wants it, and who sleeps on the semaphore waits for
the request that is out. -/
structure Sleeping (s : State T R D A) : Prop where
  lock : s.lock.Queueing fun t => (s.pc t).Wants
  semaphore : ∀ t ∈ s.semaphore.queue,
    s.semaphore.queue = [t] ∧ ∃ id answer, s.pc t = .waiting id answer ∧ s.pending = [id]

section Sleepers

variable {dev : Device R D A} {s s' : State T R D A} {t : T}

omit [DecidableEq T] in
theorem Sleeping.init (data : D) : Sleeping (State.init data : State T R D A) :=
  ⟨⟨fun _ ht => absurd ht List.not_mem_nil, List.nodup_nil, fun _ hq => absurd rfl hq⟩,
    fun _ ht => absurd ht List.not_mem_nil⟩

theorem wants_goto {next : Pc R A} (hpc : ¬(s.pc t).Wants) (u : T) (hu : (s.pc u).Wants) :
    ((s.goto t next).pc u).Wants := by
  have hne : u ≠ t := by
    rintro rfl
    exact hpc hu
  rwa [pc_goto_of_ne s hne]

/-- A step of a thread that does not wait for the device. -/
theorem Sleeping.goto {next : Pc R A} {l : Lock T} (h : Sleeping s)
    (hpc : ∀ id answer, s.pc t ≠ .waiting id answer)
    (hlock : l.Queueing fun u => ((s.goto t next).pc u).Wants) :
    Sleeping ({ s with lock := l }.goto t next) := by
  refine ⟨hlock, fun u hu => ?_⟩
  obtain ⟨hone, id, answer, hwaiting, hpending⟩ := h.semaphore u hu
  have hne : u ≠ t := by
    rintro rfl
    exact hpc id answer hwaiting
  exact ⟨hone, id, answer, (pc_goto_of_ne _ hne next).trans hwaiting, hpending⟩

theorem Sleeping.acquire {r : R} (h : Sleeping s) (hinv : Inv s) (hpc : s.pc t = .acquire r)
    (hawake : t ∉ s.lock.queue) : Sleeping (s.acquire t r) := by
  have hwants : (s.pc t).Wants := by rw [hpc]; trivial
  have hnot : ∀ id answer, s.pc t ≠ .waiting id answer := by rw [hpc]; simp
  rcases s.lock.acquire_cases t with ⟨-, heq⟩ | ⟨h0, heq⟩
  · rw [State.acquire, heq]
    exact ⟨h.lock.sleep hwants hawake, h.semaphore⟩
  · rw [State.acquire, heq]
    refine h.goto hnot (h.lock.taken hawake ?_ fun u hu hw => ?_)
    · rcases hinv.guards with ⟨hone, -⟩ | ⟨hzero, -⟩
      · rw [hone]
        decide
      · exact absurd hzero h0
    · rwa [pc_goto_of_ne s hu]

theorem Sleeping.request {r : R} (h : Sleeping s) (hinv : Inv s) (hpc : s.pc t = .acquired r)
    (hs : ({ s with lock := s.lock.take t } : State T R D A).request dev t r = some s') :
    Sleeping s' := by
  obtain ⟨hactive, hpending, -, -⟩ := hinv.free hpc
  have hempty : s.semaphore.queue = [] := List.eq_nil_iff_forall_not_mem.mpr fun u hu => by
    obtain ⟨-, id, -, -, hp⟩ := h.semaphore u hu
    rw [hpending] at hp
    cases hp
  rw [State.request, if_neg (by rw [hactive]; exact Bool.false_ne_true)] at hs
  obtain ⟨⟨data, answer⟩, -, rfl⟩ := Option.map_eq_some_iff.mp hs
  refine ⟨h.lock.take.mono fun u hu => wants_goto ?_ u hu, fun u hu => ?_⟩
  · dsimp only
    rw [hpc]
    exact not_false
  · have hu' : u ∈ s.semaphore.queue := hu
    rw [hempty] at hu'
    cases hu'

/-- The one thread that waits for the device sleeps when its interrupt has not
come. -/
theorem Sleeping.wait {id : Nat} {answer : A} (h : Sleeping s) (hinv : Inv s)
    (hpc : s.pc t = .waiting id answer) (hawake : t ∉ s.semaphore.queue) :
    Sleeping (s.wait t id answer) := by
  have hin : (s.pc t).Inside := by rw [hpc]; trivial
  have hempty : s.semaphore.queue = [] := List.eq_nil_iff_forall_not_mem.mpr fun u hu => by
    obtain ⟨-, id', answer', hwaiting, -⟩ := h.semaphore u hu
    have hut := hinv.guards.unique (by rw [hwaiting]; trivial) hin
    exact hawake (hut ▸ hu)
  have hpass : s.semaphore.value ≠ 0 → Sleeping (s.wait t id answer) := fun h0 => by
    rw [State.wait, Semaphore.p_pass h0]
    refine ⟨h.lock.mono fun u hu => wants_goto (by rw [hpc]; exact not_false) u hu, fun u hu => ?_⟩
    have hu' : u ∈ s.semaphore.queue := hu
    rw [hempty] at hu'
    cases hu'
  cases hinv.phase with
  | free ha hp hu hv hnone => exact absurd hpc (hnone t id answer)
  | done u id' answer' hu ha hp hun hv hc => exact hpass (by rw [hv]; exact Int.one_ne_zero)
  | busy u id' answer' hu hp hun hv =>
      have hut := hinv.guards.unique (by rw [hu]; trivial) hin
      rw [hut] at hu
      rw [State.wait, Semaphore.p_sleep hv]
      refine ⟨h.lock, fun v hv => ?_⟩
      have hv' : v ∈ s.semaphore.queue ++ [t] := hv
      rw [hempty, List.nil_append, List.mem_singleton] at hv'
      subst hv'
      refine ⟨?_, id', answer', hu, hp⟩
      change s.semaphore.queue ++ [v] = [v]
      rw [hempty, List.nil_append]

theorem Sleeping.release {id : Nat} {answer : A} (h : Sleeping s)
    (hpc : s.pc t = .releasing id answer) (hs : s.release t id answer = some s') : Sleeping s' := by
  obtain ⟨l, hl, rfl⟩ := Option.map_eq_some_iff.mp hs
  obtain ⟨-, rfl⟩ := Lock.release_eq_some hl
  have hreturned : Sleeping { s with returned := s.returned ++ [(t, id, answer)] } :=
    ⟨h.lock, h.semaphore⟩
  refine hreturned.goto ?_ (h.lock.release.mono fun u hu => wants_goto ?_ u hu)
  · dsimp only
    rw [hpc]
    simp
  · dsimp only
    rw [hpc]
    exact not_false

omit [DecidableEq T] in
/-- The interrupt wakes the one that sleeps. -/
theorem Sleeping.callBack (h : Sleeping s) (id : Nat) : Sleeping (s.callBack id) := by
  have hempty : (s.callBack id).semaphore.queue = [] := by
    rw [State.callBack]
    dsimp only
    cases hq : s.semaphore.queue with
    | nil => rw [Semaphore.v_of_empty hq, hq]
    | cons u rest =>
        obtain ⟨hone, -⟩ := h.semaphore u (hq ▸ List.mem_cons_self)
        rw [Semaphore.v_of_cons hq]
        exact (List.cons.inj (hq.symm.trans hone)).2
  refine ⟨h.lock, fun u hu => ?_⟩
  rw [hempty] at hu
  cases hu

theorem Sleeping.step {a : Action T R} (h : Sleeping s) (hinv : Inv s)
    (hs : step dev s a = some s') : Sleeping s' := by
  cases a with
  | call t r =>
      rw [SynchDevice.step] at hs
      split at hs
      next hpc =>
        obtain rfl := Option.some.inj hs
        exact h.goto (by rw [hpc]; simp)
          (h.lock.mono fun u hu => wants_goto (by rw [hpc]; exact not_false) u hu)
      next => cases hs
  | callBack id =>
      rw [SynchDevice.step] at hs
      split at hs
      next =>
        obtain rfl := Option.some.inj hs
        exact h.callBack id
      next => cases hs
  | run t =>
      rw [SynchDevice.step] at hs
      split at hs
      next => cases hs
      next hawake =>
        obtain ⟨hlock, hsem⟩ := not_or.mp hawake
        rw [State.advance] at hs
        split at hs
        next => cases hs
        next r hpc =>
          obtain rfl := Option.some.inj hs
          exact h.acquire hinv hpc hlock
        next r hpc => exact h.request hinv hpc hs
        next id answer hpc =>
          obtain rfl := Option.some.inj hs
          exact h.wait hinv hpc hsem
        next id answer hpc => exact h.release hpc hs

omit [DecidableEq T] in
/-- While a thread is in a call, an interrupt is to come or a thread in a call
is awake. -/
theorem goes_on (h : Sleeping s) (hinv : Inv s) (ht : s.pc t ≠ .idle) :
    s.pending ≠ [] ∨ ∃ u, s.pc u ≠ .idle ∧ u ∉ s.lock.queue ∧ u ∉ s.semaphore.queue := by
  -- a thread that sleeps on the semaphore settles it, so nobody does
  by_cases hnobody : s.semaphore.queue = []
  · right
    by_cases hlock : s.lock.queue = []
    · exact ⟨t, ht, by simp [hlock], by simp [hnobody]⟩
    · rcases hinv.guards with ⟨hone, -⟩ | ⟨-, u, hu⟩
      · obtain ⟨u, hu, hw⟩ := h.lock.awake hone hlock
        refine ⟨u, fun hidle => ?_, hu, by simp [hnobody]⟩
        rw [hidle] at hw
        exact hw
      · -- the one inside is not in `P` of `Acquire`
        have hin : (s.pc u).Inside := (hu u).mpr rfl
        refine ⟨u, fun hidle => ?_, fun hq => ?_, by simp [hnobody]⟩
        · rw [hidle] at hin
          exact hin
        · exact hin.not_wants (h.lock.sleepers u hq)
  · obtain ⟨u, hu⟩ := List.exists_mem_of_ne_nil _ hnobody
    obtain ⟨-, id, -, -, hpending⟩ := h.semaphore u hu
    exact Or.inl (by rw [hpending]; exact List.cons_ne_nil _ _)

end Sleepers

/-! ## Whole runs -/

/-- **Synchronous devices are atomic.** In every run of any threads, the calls
and returns are those of a device that serves one call after the other, and
while a thread is in a call the run is not stuck: the interrupt of the request
that is out is to come, or a thread in a call is awake. -/
theorem synchronous_is_atomic {dev : Device R D A} {d : D} {s : State T R D A}
    {history : List (Atomic.Event T R A)}
    (h : Reach (tracedStep dev) Any (State.init d, []) (s, history)) :
    (∃ log, Atomic.Linearizes dev.perform d history log s.data)
      ∧ ∀ t, s.pc t ≠ .idle → s.pending ≠ [] ∨ ∃ u, s.pc u ≠ .idle ∧ ¬s.Asleep u := by
  obtain ⟨hinv, hsleep, log, hrun⟩ := h.invariant
    (I := fun x => Inv x.1 ∧ Sleeping x.1 ∧ ∃ log,
      Relation.ReflTransGen (Atomic.Step dev.perform) (Atomic.State.init d) (view x.1 x.2 log))
    ⟨.init d, .init d, [], .refl⟩ (by
      rintro ⟨u, past⟩ a x' - ⟨hu, hsleep, log, hrun⟩ - hs
      obtain ⟨u', hu', rfl⟩ := Option.map_eq_some_iff.mp hs
      obtain ⟨log', hsame | hstep⟩ := step_viewed past log hu'
      · exact ⟨hu.step hu', hsleep.step hu hu', log', by rw [hsame]; exact hrun⟩
      · exact ⟨hu.step hu', hsleep.step hu hu', log', hrun.tail hstep⟩)
  refine ⟨⟨log, Atomic.linearizes_of_run hrun⟩, fun t ht => ?_⟩
  rcases goes_on hsleep hinv ht with hpending | ⟨u, hu, hl, hs⟩
  · exact Or.inl hpending
  · exact Or.inr ⟨u, hu, not_or.mpr ⟨hl, hs⟩⟩

/-- The bytes of a sector. -/
def sevens : List UInt8 := List.replicate 128 7

/-- A thread asks for a sector while another one writes it. -/
theorem synchronous_is_atomic_read_write :
    ∃ d' log, Atomic.Linearizes disk.perform (fun _ => 0)
      [.call (0 : Fin 2) (.write 5 sevens), .call 1 (.read 5), .ret 0 [], .ret 1 sevens]
      log d' := by
  have hrun : (exec (tracedStep disk) Any (State.init (fun _ => 0), [])
      [.call (0 : Fin 2) (.write 5 sevens), .run 0, .call 1 (.read 5), .run 1, .run 0,
        .callBack 0, .run 0, .run 0, .run 1, .run 1, .run 1, .callBack 1, .run 1,
        .run 1]).map Prod.snd
      = some [.call 0 (.write 5 sevens), .call 1 (.read 5), .ret 0 [], .ret 1 sevens] := by
    decide +kernel
  obtain ⟨⟨s, history⟩, hexec, rfl⟩ := Option.map_eq_some_iff.mp hrun
  exact ⟨s.data, (synchronous_is_atomic (Reach.of_exec _ hexec)).1⟩

end SynchDevice

end Nachos
