import Mathlib.Data.List.Basic
import Nachos.Lock

/-!
# Console input

`ConsoleInput` of `machine/console.cc` under `SynchConsoleInput` of
`userprog/synchconsole.cc`, with any number of readers. The device has a
buffer of one `char`; its `CallBack` polls the host file and fills the
buffer, and the reader that empties it schedules the next poll. A step of a
reader goes from one point where a thread switch can come to the next: the
passes of `P` in `Acquire` and of `P` of `waitFor`, and `GetChar` of the
device with the `Release` behind it. What the poll of the host file answers
is up to the environment (`available`); at the end of the file it answers
that it can be read.

The buffer marks that it is empty with `EOF`. A `char` is signed on the host,
so `EOF` is the byte 255, and an input byte 255 is taken for an empty buffer:
it is returned, but the next poll is not scheduled. `lossless_iff` is that
this is the only way in which input gets lost.
-/

namespace Nachos

namespace ConsoleInput

open Run CInt

/-- `EOF` as a `char`. -/
def eof : UInt8 := 255

/-- Where a reader is in `SynchConsoleInput::GetChar`. -/
inductive Pc where
  | idle
  /-- in `P` of `Acquire` -/
  | acquire
  /-- that `P` has taken the unit -/
  | acquired
  /-- in `P` of `waitFor`, having slept -/
  | waiting
  /-- that `P` has taken the unit -/
  | reading
deriving DecidableEq

/-- The reader has passed `P` of `Acquire` and not yet `V` of `Release`. -/
def Pc.Inside : Pc → Prop
  | acquired => True
  | waiting => True
  | reading => True
  | _ => False

/-- `unread` is what is left of the host file, `pending` the number of
`ConsoleReadInt`s that are scheduled, `returned` what each reader got, in the
order in which they read. -/
structure State (T : Type) where
  incoming : UInt8
  unread : List UInt8
  pending : Nat
  lock : Lock T
  waitFor : Semaphore T
  pc : T → Pc
  returned : List (T × UInt8)

inductive Action (T : Type) where
  | call (t : T)
  | run (t : T)
  | callBack (available : Bool)

variable {T : Type} [DecidableEq T]

namespace State

/-- The constructors, with `input` in the host file. -/
def init (input : List UInt8) : State T :=
  ⟨eof, input, 1, .new, .new 0, fun _ => .idle, []⟩

def goto (s : State T) (t : T) (next : Pc) : State T :=
  { s with pc := Function.update s.pc t next }

/-- The reader sleeps in the queue of a semaphore. -/
def Asleep (s : State T) (t : T) : Prop := t ∈ s.lock.queue ∨ t ∈ s.waitFor.queue

instance (s : State T) (t : T) : Decidable (s.Asleep t) := inferInstanceAs (Decidable (_ ∨ _))

/-- A pass of `P` in `Acquire`. -/
def acquire (s : State T) (t : T) : State T :=
  if (s.lock.acquire t).1 then ({ s with lock := (s.lock.acquire t).2 } : State T).goto t .acquired
  else { s with lock := (s.lock.acquire t).2 }

/-- A pass of `P` of `waitFor`. -/
def wait (s : State T) (t : T) : State T :=
  ({ s with waitFor := (s.waitFor.p t).2 } : State T).goto t
    (if (s.waitFor.p t).1 then .reading else .waiting)

/-- `ConsoleInput::GetChar` -/
def getChar (s : State T) : UInt8 × State T :=
  (s.incoming,
    { s with
      pending := if s.incoming ≠ eof then s.pending + 1 else s.pending
      incoming := eof })

/-- `GetChar` of the device and `Release`. -/
def read (s : State T) (t : T) : Option (State T) :=
  let (ch, s) := s.getChar
  (s.lock.release t).map fun l =>
    ({ s with lock := l, returned := s.returned ++ [(t, ch)] } : State T).goto t .idle

/-- `ConsoleInput::CallBack` with `SynchConsoleInput::CallBack`. -/
def callBack (s : State T) (available : Bool) : Option (State T) :=
  if s.incoming = eof then
    if available then
      match s.unread with
      | [] => some { s with waitFor := s.waitFor.v.2 }
      | c :: rest => some { s with incoming := c, unread := rest, waitFor := s.waitFor.v.2 }
    else some { s with pending := s.pending + 1 }
  else none

def advance (s : State T) (t : T) : Option (State T) :=
  match s.pc t with
  | .idle => none
  | .acquire => some (s.acquire t)
  | .acquired => some (({ s with lock := s.lock.take t } : State T).wait t)
  | .waiting => some (s.wait t)
  | .reading => s.read t

end State

def step (s : State T) : Action T → Option (State T)
  | .call t => if s.pc t = .idle then some (s.goto t .acquire) else none
  | .run t => if s.Asleep t then none else s.advance t
  | .callBack available =>
      match s.pending with
      | 0 => none
      | n + 1 => ({ s with pending := n } : State T).callBack available

/-! ## What holds along a run -/

/-- The characters returned, in order. -/
def State.chars (s : State T) : List UInt8 := s.returned.map Prod.snd

/-- A wakeup has been given that no reader has acted upon. -/
def State.Unconsumed (s : State T) : Prop :=
  (s.waitFor.value = 1 ∧ ∀ t, s.pc t ≠ .reading) ∨ (s.waitFor.value = 0 ∧ ∃ t, s.pc t = .reading)

/-- No such wakeup. -/
def State.Consumed (s : State T) : Prop := s.waitFor.value = 0 ∧ ∀ t, s.pc t ≠ .reading

/-- The device between the polls: a poll is scheduled; the byte that was read
is in the buffer; the end of the file was read; nothing more will happen. -/
inductive Phase (input : List UInt8) (s : State T) : Prop
  | polling (hpending : s.pending = 1) (hincoming : s.incoming = eof) (hwake : s.Consumed)
      (hinput : input = s.chars ++ s.unread)
  | ready (hpending : s.pending = 0) (hwake : s.Unconsumed)
      (hinput : input = s.chars ++ s.incoming :: s.unread)
  | atEnd (hpending : s.pending = 0) (hincoming : s.incoming = eof) (hwake : s.Unconsumed)
      (hunread : s.unread = []) (hinput : input = s.chars)
  | ended (hpending : s.pending = 0) (hincoming : s.incoming = eof) (hwake : s.Consumed)
      (hunread : s.unread = []) (hinput : s.chars = input ∨ s.chars = input ++ [eof])

structure Inv (input : List UInt8) (s : State T) : Prop where
  guards : s.lock.Guards fun t => (s.pc t).Inside
  phase : Phase input s

omit [DecidableEq T] in
theorem Inv.init (input : List UInt8) : Inv input (State.init input : State T) :=
  ⟨Lock.Guards.new.congr rfl fun _ => Iff.rfl,
    .polling rfl rfl ⟨rfl, fun _ => Pc.noConfusion⟩ rfl⟩

theorem pc_goto_self (s : State T) (t : T) (next : Pc) : (s.goto t next).pc t = next := by
  simp only [State.goto, Function.update_self]

theorem pc_goto_of_ne (s : State T) {t u : T} (hu : u ≠ t) (next : Pc) :
    (s.goto t next).pc u = s.pc u := by
  simp only [State.goto, Function.update_of_ne hu]

theorem inside_goto {s : State T} {t : T} {next : Pc} (h : next.Inside ↔ (s.pc t).Inside) (u : T) :
    ((s.goto t next).pc u).Inside ↔ (s.pc u).Inside :=
  Lock.inside_update_same h u

omit [DecidableEq T] in
/-- A step that the device does not take part in. -/
theorem Phase.congr {input : List UInt8} {s s' : State T} (h : Phase input s)
    (hpending : s'.pending = s.pending) (hincoming : s'.incoming = s.incoming)
    (hunread : s'.unread = s.unread) (hreturned : s'.returned = s.returned)
    (hcons : s.Consumed → s'.Consumed) (huncons : s.Unconsumed → s'.Unconsumed) :
    Phase input s' := by
  have hchars : s'.chars = s.chars := by rw [State.chars, State.chars, hreturned]
  cases h with
  | polling hp hi hw hin =>
      exact .polling (hpending.trans hp) (hincoming.trans hi) (hcons hw)
        (by rw [hchars, hunread, hin])
  | ready hp hw hin =>
      exact .ready (hpending.trans hp) (huncons hw) (by rw [hchars, hincoming, hunread]; exact hin)
  | atEnd hp hi hw hu hin =>
      exact .atEnd (hpending.trans hp) (hincoming.trans hi) (huncons hw) (hunread.trans hu)
        (by rw [hchars, hin])
  | ended hp hi hw hu hin =>
      exact .ended (hpending.trans hp) (hincoming.trans hi) (hcons hw) (hunread.trans hu)
        (by rwa [hchars])

/-- A step of a reader that stays away from `reading`. -/
theorem Phase.goto {input : List UInt8} {s : State T} {t : T} {next : Pc} (h : Phase input s)
    (hpc : s.pc t ≠ .reading) (hnext : next ≠ .reading) : Phase input (s.goto t next) := by
  have hiff : ∀ u, (s.goto t next).pc u = .reading ↔ s.pc u = .reading := fun u => by
    by_cases hu : u = t
    · rw [hu, pc_goto_self]
      exact ⟨fun h => absurd h hnext, fun h => absurd h hpc⟩
    · rw [pc_goto_of_ne s hu]
  refine h.congr rfl rfl rfl rfl (fun hc => ⟨hc.1, fun u => (hiff u).not.mpr (hc.2 u)⟩) fun hc => ?_
  rcases hc with ⟨h1, hnone⟩ | ⟨h0, u, hu⟩
  · exact Or.inl ⟨h1, fun u => (hiff u).not.mpr (hnone u)⟩
  · exact Or.inr ⟨h0, u, (hiff u).mpr hu⟩

/-- A pass of `P` of `waitFor` takes the unit, if there is one, to `t`. -/
theorem Phase.wait {input : List UInt8} {s : State T} {t : T} (h : Phase input s)
    (hpc : s.pc t ≠ .reading) : Phase input (s.wait t) := by
  by_cases h0 : s.waitFor.value = 0
  · have heq : s.wait t
        = ({ s with waitFor := { s.waitFor with queue := s.waitFor.queue ++ [t] } } : State T).goto
            t .waiting := by
      rw [State.wait, Semaphore.p_sleep h0]
      rfl
    rw [heq]
    exact (h.congr rfl rfl rfl rfl id id :
      Phase input { s with waitFor := { s.waitFor with queue := s.waitFor.queue ++ [t] } }).goto hpc
        Pc.noConfusion
  · have heq : s.wait t
        = ({ s with waitFor := { s.waitFor with value := wrap32 (s.waitFor.value - 1) } }
            : State T).goto t .reading := by
      rw [State.wait, Semaphore.p_pass h0]
      rfl
    rw [heq]
    refine h.congr rfl rfl rfl rfl (fun hc => absurd hc.1 h0) fun hc => Or.inr ⟨?_, t, ?_⟩
    · rcases hc with ⟨h1, -⟩ | ⟨hz, -⟩
      · change wrap32 (s.waitFor.value - 1) = 0
        rw [h1]
        rfl
      · exact absurd hz h0
    · exact pc_goto_self _ t .reading

/-- The reader that has taken the unit empties the buffer. -/
theorem Phase.read {input : List UInt8} {s s' : State T} {t : T} (h : Phase input s)
    (hbytes : eof ∉ input.dropLast) (hpc : s.pc t = .reading)
    (hone : ∀ u, s.pc u = .reading → u = t) (hs : s.read t = some s') : Phase input s' := by
  obtain ⟨l, -, rfl⟩ := Option.map_eq_some_iff.mp hs
  have hnone : ∀ u, (Function.update s.pc t Pc.idle) u ≠ .reading := fun u => by
    by_cases hu : u = t
    · rw [hu, Function.update_self]
      exact Pc.noConfusion
    · rw [Function.update_of_ne hu]
      exact fun hc => hu (hone u hc)
  have hwake : s.Unconsumed → s.waitFor.value = 0 := fun hc => by
    rcases hc with ⟨-, hno⟩ | ⟨h0, -⟩
    · exact absurd hpc (hno t)
    · exact h0
  have hchars : ∀ ch, (s.returned ++ [(t, ch)]).map Prod.snd = s.chars ++ [ch] := fun ch => by
    rw [List.map_append, State.chars]
    rfl
  cases h with
  | polling hp hi hw hin => exact absurd hpc (hw.2 t)
  | ended hp hi hw hu hin => exact absurd hpc (hw.2 t)
  | atEnd hp hi hw hu hin =>
      refine .ended ?_ rfl ⟨hwake hw, hnone⟩ hu (Or.inr ?_)
      · change (if s.incoming ≠ eof then s.pending + 1 else s.pending) = 0
        rw [if_neg (not_not.mpr hi), hp]
      · change (s.returned ++ [(t, s.incoming)]).map Prod.snd = _
        rw [hchars, hi, hin]
  | ready hp hw hin =>
      by_cases hi : s.incoming = eof
      · have hu : s.unread = [] := by
          by_contra hne
          refine hbytes ?_
          rw [hin, hi, List.dropLast_append_of_ne_nil (List.cons_ne_nil _ _),
            List.dropLast_cons_of_ne_nil hne]
          exact List.mem_append_right _ List.mem_cons_self
        refine .ended ?_ rfl ⟨hwake hw, hnone⟩ hu (Or.inl ?_)
        · change (if s.incoming ≠ eof then s.pending + 1 else s.pending) = 0
          rw [if_neg (not_not.mpr hi), hp]
        · change (s.returned ++ [(t, s.incoming)]).map Prod.snd = _
          rw [hchars, hin, hu]
      · refine .polling ?_ rfl ⟨hwake hw, hnone⟩ ?_
        · change (if s.incoming ≠ eof then s.pending + 1 else s.pending) = 1
          rw [if_pos hi, hp]
        · change input = (s.returned ++ [(t, s.incoming)]).map Prod.snd ++ s.unread
          rw [hchars, hin, List.append_assoc]
          rfl

omit [DecidableEq T] in
/-- The interrupt finds the buffer empty. -/
theorem Phase.callBack {input : List UInt8} {s s' : State T} {n : Nat} {available : Bool}
    (h : Phase input s) (hn : s.pending = n + 1)
    (hs : ({ s with pending := n } : State T).callBack available = some s') : Phase input s' := by
  cases h with
  | ready hp | atEnd hp | ended hp => exact absurd (hn.symm.trans hp) (Nat.succ_ne_zero n)
  | polling hp hi hw hin =>
      obtain rfl : n = 0 := Nat.succ.inj (hn.symm.trans hp)
      have hv : s.waitFor.v.2.value = 1 := by
        rw [Semaphore.v_value, hw.1]
        rfl
      simp only [State.callBack] at hs
      rw [if_pos hi] at hs
      split at hs
      next =>
        split at hs
        next hu =>
          obtain rfl := Option.some.inj hs
          exact .atEnd rfl hi (Or.inl ⟨hv, hw.2⟩) hu (by rw [hin, hu, List.append_nil]; rfl)
        next c rest hu =>
          obtain rfl := Option.some.inj hs
          exact .ready rfl (Or.inl ⟨hv, hw.2⟩) (by rw [hin, hu]; rfl)
      next =>
        obtain rfl := Option.some.inj hs
        exact .polling rfl hi hw hin

omit [DecidableEq T] in
/-- The interrupt leaves the readers where they are. -/
theorem callBack_frame {s s' : State T} {available : Bool} (h : s.callBack available = some s') :
    s'.lock = s.lock ∧ s'.pc = s.pc := by
  rw [State.callBack] at h
  split at h
  next =>
    split at h
    next =>
      split at h <;>
        · obtain rfl := Option.some.inj h
          exact ⟨rfl, rfl⟩
    next =>
      obtain rfl := Option.some.inj h
      exact ⟨rfl, rfl⟩
  next => cases h

theorem Inv.acquire {input : List UInt8} {s : State T} {t : T} (h : Inv input s)
    (hpc : s.pc t = .acquire) : Inv input (s.acquire t) := by
  obtain ⟨hg, hph⟩ := h
  have hne : s.pc t ≠ .reading := by rw [hpc]; exact Pc.noConfusion
  rcases s.lock.acquire_cases t with ⟨h0, heq⟩ | ⟨h0, heq⟩
  · rw [State.acquire, heq]
    exact ⟨hg.congr h0.symm fun _ => Iff.rfl, hph.congr rfl rfl rfl rfl id id⟩
  · rw [State.acquire, heq]
    refine ⟨hg.enter h0 rfl (Lock.inside_update_enter trivial), ?_⟩
    exact Phase.goto (hph.congr rfl rfl rfl rfl id id) hne Pc.noConfusion

theorem Inv.wait {input : List UInt8} {s : State T} {t : T} (h : Inv input s)
    (hin : (s.pc t).Inside) (hpc : s.pc t ≠ .reading) : Inv input (s.wait t) := by
  refine ⟨h.guards.congr rfl fun u => inside_goto (iff_of_true ?_ hin) u, h.phase.wait hpc⟩
  split <;> trivial

theorem Inv.read {input : List UInt8} {s s' : State T} {t : T} (h : Inv input s)
    (hbytes : eof ∉ input.dropLast) (hpc : s.pc t = .reading) (hs : s.read t = some s') :
    Inv input s' := by
  have hin : (s.pc t).Inside := by rw [hpc]; trivial
  have hone : ∀ u, s.pc u = .reading → u = t := fun u hu =>
    h.guards.unique (by rw [hu]; trivial) hin
  refine ⟨?_, h.phase.read hbytes hpc hone hs⟩
  obtain ⟨l, hl, rfl⟩ := Option.map_eq_some_iff.mp hs
  obtain ⟨-, rfl⟩ := Lock.release_eq_some hl
  exact h.guards.leave hin (Semaphore.v_value _) (Lock.inside_update_leave not_false)

/-- A step keeps the invariant. -/
theorem Inv.step {input : List UInt8} {s s' : State T} {a : Action T} (h : Inv input s)
    (hbytes : eof ∉ input.dropLast) (hs : step s a = some s') : Inv input s' := by
  cases a with
  | call t =>
      simp only [ConsoleInput.step] at hs
      split at hs
      next hpc =>
        obtain rfl := Option.some.inj hs
        refine ⟨h.guards.congr rfl (inside_goto ?_), h.phase.goto ?_ Pc.noConfusion⟩
        · rw [hpc]
          exact Iff.rfl
        · rw [hpc]
          exact Pc.noConfusion
      next => cases hs
  | callBack available =>
      simp only [ConsoleInput.step] at hs
      split at hs
      next => cases hs
      next n hn =>
        obtain ⟨hlock, hpc⟩ := callBack_frame hs
        refine ⟨h.guards.congr (by rw [hlock]) fun u => ?_, h.phase.callBack hn hs⟩
        rw [hpc]
  | run t =>
      simp only [ConsoleInput.step] at hs
      split at hs
      next => cases hs
      next =>
        rw [State.advance] at hs
        split at hs
        next => cases hs
        next hpc =>
          obtain rfl := Option.some.inj hs
          exact h.acquire hpc
        next hpc =>
          obtain rfl := Option.some.inj hs
          have htake : Inv input { s with lock := s.lock.take t } :=
            ⟨h.guards.congr rfl fun _ => Iff.rfl, h.phase.congr rfl rfl rfl rfl id id⟩
          refine htake.wait ?_ ?_
          · change (s.pc t).Inside
            rw [hpc]
            trivial
          · change s.pc t ≠ .reading
            rw [hpc]
            exact Pc.noConfusion
        next hpc =>
          obtain rfl := Option.some.inj hs
          refine h.wait ?_ ?_
          · rw [hpc]
            trivial
          · rw [hpc]
            exact Pc.noConfusion
        next hpc => exact h.read hbytes hpc hs

/-! ## Lossless input -/

/-- Console input is lossless: the characters returned are the input, with the
`EOF` at its end; as long as input is unread, a poll is scheduled, or the
byte read last is in the buffer with its wakeup not consumed; and a poll
finds the buffer empty. -/
structure Lossless (input : List UInt8) (s : State T) : Prop where
  exact : s.chars <+: input ++ [eof]
  live : s.unread ≠ [] → 0 < s.pending
    ∨ (input = s.chars ++ s.incoming :: s.unread ∧ s.Unconsumed)
  assertion : 0 < s.pending → s.incoming = eof

omit [DecidableEq T] in
theorem Inv.lossless {input : List UInt8} {s : State T} (h : Inv input s) : Lossless input s := by
  obtain ⟨-, hph⟩ := h
  cases hph with
  | polling hp hi hw hin =>
      refine ⟨?_, fun _ => Or.inl (by rw [hp]; exact Nat.one_pos), fun _ => hi⟩
      exact ⟨s.unread ++ [eof], by rw [hin, List.append_assoc]⟩
  | ready hp hw hin =>
      refine ⟨?_, fun _ => Or.inr ⟨hin, hw⟩, fun hpos => ?_⟩
      · exact ⟨s.incoming :: s.unread ++ [eof], by rw [← List.append_assoc, ← hin]⟩
      · exact absurd hp hpos.ne'
  | atEnd hp hi hw hu hin =>
      exact ⟨⟨[eof], by rw [hin]⟩, fun hne => absurd hu hne, fun _ => hi⟩
  | ended hp hi hw hu hin =>
      refine ⟨?_, fun hne => absurd hu hne, fun _ => hi⟩
      rcases hin with hin | hin
      · exact ⟨[eof], by rw [hin]⟩
      · exact ⟨[], by rw [hin, List.append_nil]⟩

/-- No reader is in a call, and nothing is in the buffer. -/
def atRest (unread : List UInt8) (pending : Nat) (returned : List (T × UInt8)) : State T :=
  ⟨eof, unread, pending, .new, .new 0, fun _ => .idle, returned⟩

/-- The byte that has come in is read. The next poll is scheduled if the byte
is not the mark of the empty buffer. -/
theorem reach_served (t : T) (c : UInt8) (rest : List UInt8) (returned : List (T × UInt8)) :
    Reach step Any ⟨c, rest, 0, .new, .new 1, fun _ => .idle, returned⟩
      (atRest rest (if c ≠ eof then 1 else 0) (returned ++ [(t, c)])) := by
  refine Reach.of_exec [.call t, .run t, .run t, .run t] ?_
  have hone : wrap32 1 = 1 := rfl
  have hzero : wrap32 0 = 0 := rfl
  simp [exec, step, Any, atRest, State.goto, State.Asleep, State.advance, State.acquire,
    State.wait, State.read, State.getChar, Lock.new, Lock.acquire, Lock.take, Lock.release,
    Lock.HeldBy, Lock.queue, Semaphore.new, Semaphore.p, Semaphore.v, hone, hzero]

/-- One byte comes in and is read. -/
theorem reach_read (t : T) (c : UInt8) (rest : List UInt8) (returned : List (T × UInt8)) :
    Reach step Any (atRest (c :: rest) 1 returned)
      (atRest rest (if c ≠ eof then 1 else 0) (returned ++ [(t, c)])) :=
  Relation.ReflTransGen.head ⟨.callBack true, trivial, rfl⟩ (reach_served t c rest returned)

theorem reach_atRest (t : T) : ∀ (bytes rest : List UInt8) (returned : List (T × UInt8)),
    eof ∉ bytes → ∃ returned', Reach step Any (atRest (bytes ++ rest) 1 returned)
      (atRest rest 1 returned')
  | [], rest, returned, _ => ⟨returned, Relation.ReflTransGen.refl⟩
  | c :: bytes, rest, returned, h => by
      have hc : c ≠ eof := (List.ne_of_not_mem_cons h).symm
      have hfirst := reach_read t c (bytes ++ rest) returned
      rw [if_pos hc] at hfirst
      obtain ⟨returned', hrest⟩ := reach_atRest t bytes rest (returned ++ [(t, c)])
        (List.not_mem_of_not_mem_cons h)
      exact ⟨returned', hfirst.trans hrest⟩

/-- After a byte 255 that is not the last one, the readers wait for ever. -/
theorem not_lossless (t : T) {input : List UInt8} (h : eof ∈ input.dropLast) :
    ∃ s : State T, Reach step Any (State.init input) s ∧ ¬Lossless input s := by
  obtain ⟨bytes, tail, hsplit, hbytes⟩ := List.eq_append_cons_of_mem h
  have hne : input ≠ [] := by
    rintro rfl
    exact absurd h List.not_mem_nil
  have hinput : input = bytes ++ eof :: (tail ++ [input.getLast hne]) := by
    conv_lhs => rw [← List.dropLast_append_getLast hne, hsplit]
    rw [List.append_assoc, List.cons_append]
  obtain ⟨returned, hreach⟩ := reach_atRest t bytes (eof :: (tail ++ [input.getLast hne])) [] hbytes
  rw [← hinput] at hreach
  have hlast := reach_read t eof (tail ++ [input.getLast hne]) returned
  rw [if_neg (not_not.mpr rfl)] at hlast
  refine ⟨_, hreach.trans hlast, fun hloss => ?_⟩
  rcases hloss.live (by simp [atRest]) with hpos | ⟨-, hwake⟩
  · exact absurd hpos (Nat.lt_irrefl 0)
  · rcases hwake with ⟨hone, -⟩ | ⟨-, u, hu⟩
    · exact absurd hone Int.zero_ne_one
    · exact absurd hu Pc.noConfusion

/-- **Lossless console input.** Exactly the inputs without a byte 255 before
their last byte are read without loss in every run. -/
theorem lossless_iff [Nonempty T] (input : List UInt8) :
    (∀ s : State T, Reach step Any (State.init input) s → Lossless input s)
      ↔ eof ∉ input.dropLast := by
  constructor
  · intro h hmem
    obtain ⟨t⟩ := ‹Nonempty T›
    obtain ⟨s, hreach, hnot⟩ := not_lossless t hmem
    exact hnot (h s hreach)
  · intro hbytes s hreach
    have hinv : Inv input s :=
      hreach.invariant (Inv.init input) fun _ _ _ _ hi _ hs => hi.step hbytes hs
    exact hinv.lossless

/-- Two readers and the bytes 104 and 105. -/
theorem lossless_two_bytes :
    ∃ s : State (Fin 2), Reach step Any (State.init [104, 105]) s ∧ s.unread = [105]
      ∧ Lossless [104, 105] s := by
  have hreach := reach_read (0 : Fin 2) 104 [105] []
  exact ⟨_, hreach, rfl, (lossless_iff [104, 105]).mpr (by decide) _ hreach⟩

/-- The byte 255 is followed by another one, which is never read. -/
theorem lossless_fails_on_255 :
    ∃ s : State (Fin 1), Reach step Any (State.init [255, 105]) s ∧ s.unread = [105]
      ∧ s.pending = 0 ∧ s.waitFor.value = 0 ∧ ¬Lossless [255, 105] s := by
  have hreach := reach_read (0 : Fin 1) 255 [105] []
  refine ⟨_, hreach, rfl, rfl, rfl, fun hloss => ?_⟩
  rcases hloss.live (List.cons_ne_nil _ _) with hpos | ⟨hin, -⟩
  · exact absurd hpos (by decide)
  · exact absurd hin (by decide)

end ConsoleInput

end Nachos
