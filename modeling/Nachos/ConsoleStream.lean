import Nachos.ConsoleInput

/-!
# What `GetChar` returns

`heard input` is what one call of `SynchConsoleInput::GetChar` after the
other returns when `input` is in the host file: the bytes before the first
255, and then `EOF`, once. After that no poll is scheduled and every further
call waits for ever. All readers together hear a beginning of `heard input`
(`chars_prefix_heard`), and one that keeps calling hears the whole of it
(`reach_heard`), so that a function that reads the console is a function of
this list.

Behind a byte 255 the invariant of `Nachos.ConsoleInput` is lost. But a run
over `input` cannot be told from one over `cut input`, which ends with that
byte, and there it holds (`Trimmed`).
-/

namespace Nachos

namespace ConsoleInput

open Run CInt

variable {T : Type} [DecidableEq T]

/-! ## The two lists -/

/-- The bytes before the first 255, and `EOF`. -/
def heard (input : List UInt8) : List UInt8 := input.takeWhile (· ≠ eof) ++ [eof]

/-- The input without what comes behind its first byte 255. -/
def cut : List UInt8 → List UInt8
  | [] => []
  | c :: input => if c = eof then [eof] else c :: cut input

theorem heard_cons {c : UInt8} (hc : c ≠ eof) (input : List UInt8) :
    heard (c :: input) = c :: heard input := by
  rw [heard, heard, List.takeWhile_cons_of_pos (by simpa using hc), List.cons_append]

theorem heard_append {bytes : List UInt8} (hbytes : eof ∉ bytes) (input : List UInt8) :
    heard (bytes ++ input) = bytes ++ heard input := by
  induction bytes with
  | nil => rfl
  | cons c bytes ih =>
      have hc : c ≠ eof := (List.ne_of_not_mem_cons hbytes).symm
      rw [List.cons_append, heard_cons hc, ih (List.not_mem_of_not_mem_cons hbytes),
        List.cons_append]

theorem heard_eof (input : List UInt8) : heard (eof :: input) = [eof] := rfl

theorem eof_not_mem_dropLast_cut (input : List UInt8) : eof ∉ (cut input).dropLast := by
  induction input with
  | nil => exact List.not_mem_nil
  | cons c input ih =>
      rw [cut]
      split
      next => exact List.not_mem_nil
      next hc =>
          cases hrest : cut input with
          | nil => exact List.not_mem_nil
          | cons b rest =>
              rw [List.dropLast_cons_of_ne_nil (List.cons_ne_nil b rest), List.mem_cons, not_or,
                ← hrest]
              exact ⟨Ne.symm hc, ih⟩

/-- Where there is no byte 255, the end of the input is heard as well. -/
theorem cut_cases (input : List UInt8) :
    cut input = heard input ∨ (eof ∉ cut input ∧ cut input ++ [eof] = heard input) := by
  induction input with
  | nil => exact Or.inr ⟨List.not_mem_nil, rfl⟩
  | cons c input ih =>
      rw [cut]
      split
      next hc =>
          subst hc
          exact Or.inl rfl
      next hc =>
          rw [heard_cons hc]
          rcases ih with heq | ⟨hnot, heq⟩
          · exact Or.inl (by rw [heq])
          · refine Or.inr ⟨?_, by rw [List.cons_append, heq]⟩
            rw [List.mem_cons, not_or]
            exact ⟨Ne.symm hc, hnot⟩

/-! ## Readers and the host file -/

/-- The same state over another rest of the host file. -/
def State.withUnread (s : State T) (unread : List UInt8) : State T := { s with unread := unread }

theorem advance_over (s : State T) (t : T) (unread : List UInt8) :
    (s.withUnread unread).advance t = (s.advance t).map fun s' => s'.withUnread unread := by
  rw [State.advance, State.advance, show (s.withUnread unread).pc = s.pc from rfl]
  split
  next => rfl
  next =>
      rw [Option.map_some, State.acquire, State.acquire,
        show (s.withUnread unread).lock = s.lock from rfl]
      split <;> rfl
  next => rfl
  next => rfl
  next =>
      simp only [State.read, State.getChar, Option.map_map]
      rfl

/-- A reader does not look at the host file. -/
theorem step_over (s : State T) {a : Action T} (ha : ∀ available, a ≠ .callBack available)
    (unread : List UInt8) :
    step (s.withUnread unread) a = (step s a).map fun s' => s'.withUnread unread := by
  cases a with
  | callBack available => exact absurd rfl (ha available)
  | call t =>
      simp only [step]
      rw [show (s.withUnread unread).pc = s.pc from rfl]
      split <;> rfl
  | run t =>
      simp only [step]
      by_cases hasleep : s.Asleep t
      · rw [if_pos hasleep, if_pos (show (s.withUnread unread).Asleep t from hasleep)]
        rfl
      · rw [if_neg hasleep, if_neg (show ¬(s.withUnread unread).Asleep t from hasleep)]
        exact advance_over s t unread

theorem State.Consumed.goto {s : State T} (h : s.Consumed) (t : T) {next : Pc}
    (hnext : next ≠ .reading) : (s.goto t next).Consumed := by
  refine ⟨h.1, fun u => ?_⟩
  by_cases hu : u = t
  · rw [hu, pc_goto_self]
    exact hnext
  · rw [pc_goto_of_ne s hu]
    exact h.2 u

theorem State.Consumed.wait {s : State T} (h : s.Consumed) (t : T) : (s.wait t).Consumed := by
  rw [State.wait, Semaphore.p_sleep h.1]
  exact State.Consumed.goto (s := { s with
    waitFor := { s.waitFor with queue := s.waitFor.queue ++ [t] } }) h t Pc.noConfusion

/-- The reader at `reading` takes the byte in the buffer; any other step leaves
the device alone. -/
theorem reader_cases {s s' : State T} {a : Action T} (ha : ∀ available, a ≠ .callBack available)
    (hs : step s a = some s') :
    s'.unread = s.unread
      ∧ ((s'.pending = s.pending ∧ s'.incoming = s.incoming ∧ s'.chars = s.chars
          ∧ (s.Consumed → s'.Consumed))
        ∨ ∃ t, s.pc t = .reading ∧ s'.pc = Function.update s.pc t .idle
            ∧ s'.waitFor = s.waitFor
            ∧ s'.pending = (if s.incoming ≠ eof then s.pending + 1 else s.pending)
            ∧ s'.incoming = eof ∧ s'.chars = s.chars ++ [s.incoming]) := by
  cases a with
  | callBack available => exact absurd rfl (ha available)
  | call t =>
      simp only [step] at hs
      split at hs
      next =>
          obtain rfl := Option.some.inj hs
          exact ⟨rfl, Or.inl ⟨rfl, rfl, rfl, fun hc => hc.goto t Pc.noConfusion⟩⟩
      next => cases hs
  | run t =>
      simp only [step] at hs
      split at hs
      next => cases hs
      next =>
          rw [State.advance] at hs
          split at hs
          next => cases hs
          next =>
              obtain rfl := Option.some.inj hs
              rw [State.acquire]
              split
              next => exact ⟨rfl, Or.inl ⟨rfl, rfl, rfl, fun hc =>
                State.Consumed.goto (s := { s with lock := (s.lock.acquire t).2 }) hc t
                  Pc.noConfusion⟩⟩
              next => exact ⟨rfl, Or.inl ⟨rfl, rfl, rfl, id⟩⟩
          next =>
              obtain rfl := Option.some.inj hs
              exact ⟨rfl, Or.inl ⟨rfl, rfl, rfl, fun hc =>
                State.Consumed.wait (s := { s with lock := s.lock.take t }) hc t⟩⟩
          next =>
              obtain rfl := Option.some.inj hs
              exact ⟨rfl, Or.inl ⟨rfl, rfl, rfl, fun hc => hc.wait t⟩⟩
          next hpc =>
              obtain ⟨l, -, rfl⟩ := Option.map_eq_some_iff.mp hs
              refine ⟨rfl, Or.inr ⟨t, hpc, rfl, rfl, rfl, rfl, ?_⟩⟩
              exact List.map_append

/-! ## Runs over the shorter input -/

/-- The state of a run over `input`, as one of a run over `cut input`. The rest
of the host file counts only while a poll can come. -/
structure Trimmed (input : List UInt8) (s : State T) : Prop where
  shorter : ∃ unread, Inv (cut input) (s.withUnread unread)
    ∧ (unread = cut s.unread ∨ s.pending = 0 ∧ s.incoming = eof)
  once : eof ∈ s.chars → s.pending = 0 ∧ s.Consumed
  last : eof ∉ s.chars.dropLast

omit [DecidableEq T] in
theorem Trimmed.init (input : List UInt8) : Trimmed input (State.init input : State T) :=
  ⟨⟨cut input, Inv.init (cut input), Or.inl rfl⟩, fun h => absurd h List.not_mem_nil,
    List.not_mem_nil⟩

omit [DecidableEq T] in
theorem Inv.pending_le {input : List UInt8} {s : State T} (h : Inv input s) : s.pending ≤ 1 := by
  cases h.phase with
  | polling hp => exact hp.le
  | ready hp | atEnd hp | ended hp => exact hp.trans_le (Nat.zero_le 1)

omit [DecidableEq T] in
/-- Somebody who reads has taken the only wakeup, and no poll is scheduled. -/
theorem Inv.reading {input : List UInt8} {s : State T} (h : Inv input s) {t : T}
    (hpc : s.pc t = .reading) :
    s.pending = 0 ∧ s.waitFor.value = 0 ∧ ∀ u, s.pc u = .reading → u = t := by
  have hzero : s.Unconsumed → s.waitFor.value = 0 := by
    rintro (⟨-, hno⟩ | ⟨h0, -⟩)
    · exact absurd hpc (hno t)
    · exact h0
  have hone : ∀ u, s.pc u = .reading → u = t := fun u hu =>
    h.guards.unique (by rw [hu]; trivial) (by rw [hpc]; trivial)
  cases h.phase with
  | polling hp hi hw | ended hp hi hw => exact absurd hpc (hw.2 t)
  | ready hp hw => exact ⟨hp, hzero hw, hone⟩
  | atEnd hp hi hw => exact ⟨hp, hzero hw, hone⟩

theorem Trimmed.reader {input : List UInt8} {s s' : State T} {a : Action T} (h : Trimmed input s)
    (ha : ∀ available, a ≠ .callBack available) (hs : step s a = some s') : Trimmed input s' := by
  obtain ⟨unread, hinv, hunread⟩ := h.shorter
  have hstep : step (s.withUnread unread) a = some (s'.withUnread unread) := by
    rw [step_over s ha, hs, Option.map_some]
  have hinv' := hinv.step (eof_not_mem_dropLast_cut input) hstep
  obtain ⟨hsame, ⟨hp, hi, hchars, hcons⟩ | ⟨t, hpc, hpcs, hwait, hp, hi, hchars⟩⟩ :=
    reader_cases ha hs
  · refine ⟨⟨unread, hinv', ?_⟩, fun hmem => ?_, hchars ▸ h.last⟩
    · rw [hsame, hp, hi]
      exact hunread
    · obtain ⟨hzero, hc⟩ := h.once (hchars ▸ hmem)
      exact ⟨hp.trans hzero, hcons hc⟩
  · obtain ⟨hpend, hval, hone⟩ := hinv.reading (t := t) hpc
    have hpend : s.pending = 0 := hpend
    have hbefore : eof ∉ s.chars := fun hmem => (h.once hmem).2.2 t hpc
    refine ⟨⟨unread, hinv', ?_⟩, fun hmem => ?_, ?_⟩
    · rw [hsame]
      rcases hunread with hcut | ⟨-, heof⟩
      · exact Or.inl hcut
      · exact Or.inr ⟨by rw [hp, if_neg (not_not.mpr heof), hpend], hi⟩
    · rw [hchars, List.mem_append, List.mem_singleton] at hmem
      have heof : s.incoming = eof := (hmem.resolve_left hbefore).symm
      refine ⟨by rw [hp, if_neg (not_not.mpr heof), hpend], by rw [hwait]; exact hval, fun u => ?_⟩
      rw [hpcs]
      by_cases hu : u = t
      · rw [hu, Function.update_self]
        exact Pc.noConfusion
      · rw [Function.update_of_ne hu]
        exact fun hc => hu (hone u hc)
    · rw [hchars, List.dropLast_concat]
      exact hbefore

theorem Trimmed.callBack {input : List UInt8} {s s' : State T} {available : Bool}
    (h : Trimmed input s) (hs : step s (.callBack available) = some s') : Trimmed input s' := by
  obtain ⟨unread, hinv, hunread⟩ := h.shorter
  simp only [step] at hs
  split at hs
  next => cases hs
  next n hn =>
      have hcut : unread = cut s.unread :=
        hunread.resolve_right fun hzero => by rw [hn] at hzero; exact absurd hzero.1 (by simp)
      have hn0 : n = 0 := by
        have hle : s.pending ≤ 1 := hinv.pending_le
        omega
      have hbefore : eof ∉ s.chars := fun hmem => by
        have hzero := (h.once hmem).1
        omega
      have hinput : ∀ r, (({ s with pending := n } : State T).withUnread unread).callBack available
          = some r → Inv (cut input) r := by
        intro r hr
        refine hinv.step (a := .callBack available) (eof_not_mem_dropLast_cut input) ?_
        simp only [step]
        rw [show (s.withUnread unread).pending = n + 1 from hn]
        exact hr
      rw [State.callBack] at hs
      split at hs
      next hi =>
          have hback : ∀ u, (({ s with pending := n } : State T).withUnread u).callBack available
              = if available then
                  match u with
                  | [] => some (({ s with
                      pending := n, waitFor := s.waitFor.v.2 } : State T).withUnread [])
                  | c :: rest => some (({ s with
                      incoming := c, pending := n,
                      waitFor := s.waitFor.v.2 } : State T).withUnread rest)
                else some (({ s with pending := n + 1 } : State T).withUnread u) := by
            intro u
            rw [State.callBack,
              if_pos (show (State.withUnread { s with pending := n } u).incoming = eof from hi)]
            cases u <;> rfl
          rw [hback] at hinput
          cases available with
          | false =>
              obtain rfl := Option.some.inj hs
              exact ⟨⟨unread, hinput _ rfl, Or.inl hcut⟩, fun hmem => absurd hmem hbefore, h.last⟩
          | true =>
              rw [if_pos rfl] at hs hinput
              split at hs
              next hu =>
                  rw [hcut, show s.unread = [] from hu] at hinput
                  obtain rfl := Option.some.inj hs
                  refine ⟨⟨[], hinput _ rfl, Or.inl (by rw [show s.unread = [] from hu]; rfl)⟩,
                    fun hmem => absurd hmem hbefore, h.last⟩
              next c rest hu =>
                  rw [hcut, show s.unread = c :: rest from hu, cut] at hinput
                  obtain rfl := Option.some.inj hs
                  by_cases hc : c = eof
                  · rw [if_pos hc] at hinput
                    refine ⟨⟨[], ?_, Or.inr ⟨hn0, hc⟩⟩, fun hmem => absurd hmem hbefore, h.last⟩
                    rw [hc]
                    exact hinput _ rfl
                  · rw [if_neg hc] at hinput
                    exact ⟨⟨cut rest, hinput _ rfl, Or.inl rfl⟩,
                      fun hmem => absurd hmem hbefore, h.last⟩
      next => cases hs

/-- **What the readers hear**, all of them together, is the beginning of
`heard input`. -/
theorem chars_prefix_heard {input : List UInt8} {s : State T}
    (h : Reach step Any (State.init input) s) : s.chars <+: heard input := by
  have htrim : Trimmed input s := by
    refine h.invariant (Trimmed.init input) fun s a s' _ ht _ hs => ?_
    cases a with
    | callBack available => exact ht.callBack hs
    | call t => exact ht.reader (by simp) hs
    | run t => exact ht.reader (by simp) hs
  obtain ⟨unread, hinv, -⟩ := htrim.shorter
  have hcut : cut input <+: heard input := by
    rcases cut_cases input with heq | ⟨-, heq⟩
    · exact heq ▸ List.prefix_refl _
    · exact heq ▸ List.prefix_append _ _
  cases hinv.phase with
  | polling hp hi hw hin => exact List.IsPrefix.trans ⟨unread, hin.symm⟩ hcut
  | ready hp hw hin => exact List.IsPrefix.trans ⟨s.incoming :: unread, hin.symm⟩ hcut
  | atEnd hp hi hw hu hin => exact hin ▸ hcut
  | ended hp hi hw hu hin =>
      have hchars : s.chars = cut input ∨ s.chars = cut input ++ [eof] := hin
      rcases hchars with hchars | hchars
      · exact hchars ▸ hcut
      · have hlast := htrim.last
        rw [hchars, List.dropLast_concat] at hlast
        rcases cut_cases input with heq | ⟨-, heq⟩
        · rw [heq, heard] at hlast
          exact absurd (List.mem_append_right _ List.mem_cons_self) hlast
        · exact hchars ▸ heq ▸ List.prefix_refl _

/-- The end of the input is read. -/
theorem reach_end (t : T) (returned : List (T × UInt8)) :
    Reach step Any (atRest [] 1 returned) (atRest [] 0 (returned ++ [(t, eof)])) :=
  Relation.ReflTransGen.head ⟨.callBack true, trivial, rfl⟩ (reach_served t eof [] returned)

/-- A reader that keeps calling hears all of it. -/
theorem reach_heard (t : T) (input : List UInt8) (returned : List (T × UInt8)) :
    ∃ s : State T, Reach step Any (atRest input 1 returned) s
      ∧ s.chars = returned.map Prod.snd ++ heard input := by
  induction input generalizing returned with
  | nil => exact ⟨_, reach_end t returned, List.map_append⟩
  | cons c input ih =>
      have hread := reach_read t c input returned
      by_cases hc : c = eof
      · subst hc
        exact ⟨_, hread, List.map_append⟩
      · rw [if_pos hc] at hread
        obtain ⟨s, hreach, hchars⟩ := ih (returned ++ [(t, c)])
        refine ⟨s, hread.trans hreach, ?_⟩
        rw [hchars, heard_cons hc, List.map_append, List.append_assoc]
        rfl

end ConsoleInput

end Nachos
