import Nachos.FileCalls
import Nachos.Numbers
import Mathlib.Data.List.TakeWhile

/-!
# Functions that read the console

`SysReadNum`, `SysReadString` of `userprog/ksyscall.h` and `readString` of
`threads/pcb.cc` take one character after the other from `GetChar`. Each is
run here on `heard file`, all that `GetChar` ever returns when `file` is in
the host file, the end of the input included (`Nachos.ConsoleStream`); one
that has used it up and calls once more waits for ever.

None of them takes `EOF` as an end. `SysReadNum` looks for a blank behind its
token, the other two skip `EOF` and look for a newline, so that they return
only if what they look for comes before the end of the input, or for a
string enough characters to fill the buffer (`reader_returns_iff`).

The last store of `readString`, `buffer[idx + 1] = 0`, is behind the
`size + 1` bytes `User2System` has allocated when `size` characters have come
before a newline, also for `size = 0`. With `stringStores` all its stores are
in view, and `SC_Read` on descriptor 0 keeps to its buffer exactly if the
line is shorter than `size` (`console_read_iff`).
-/

namespace Nachos

open CInt Run ByteMemory Machine ConsoleInput

/-! ## The readers -/

/-- The loop of both string readers: at most `room` characters, up to one at
which it stops; `none` if there are no more. -/
def readUntil (stop : UInt8 → Bool) : Nat → List UInt8 → Option (List UInt8 × List UInt8)
  | 0, input => some ([], input)
  | _ + 1, [] => none
  | room + 1, ch :: input =>
      if ch = eof then readUntil stop (room + 1) input
      else if stop ch then some ([], input)
      else (readUntil stop room input).map fun r => (ch :: r.1, r.2)

/-- `ch` is `'\n'`. -/
def isNewline (ch : UInt8) : Bool := ch = 10

/-- `ch` is `'\001'` or `'\n'`. -/
def isEnter (ch : UInt8) : Bool := ch = 1 ∨ ch = 10

theorem readLine_eq (room : Nat) (input : List UInt8) :
    Files.readLine room input = (readUntil isNewline room input).elim (.error .wait) .ok := by
  induction input generalizing room with
  | nil => cases room <;> rfl
  | cons ch input ih =>
      cases room with
      | zero => rfl
      | succ room =>
          have hnewline : isNewline ch = true ↔ ch = 10 := decide_eq_true_iff
          rw [Files.readLine, readUntil, show eof = 255 from rfl]
          by_cases heof : ch = 255
          · rw [if_pos heof, if_pos heof, ih]
          · rw [if_neg heof, if_neg heof]
            by_cases hstop : ch = 10
            · rw [if_pos hstop, if_pos (hnewline.mpr hstop)]
              rfl
            · rw [if_neg hstop, if_neg (mt hnewline.mp hstop), ih]
              cases readUntil isNewline room input <;> rfl

/-- `SysReadString`: the buffer and the rest of the input. -/
def sysReadString (buffer : List UInt8) (length : Int) (input : List UInt8) :
    Option (List UInt8 × List UInt8) :=
  (readUntil isEnter length.toNat input).map fun r =>
    (r.1 ++ (List.replicate length.toNat 0 ++ buffer.drop length.toNat).drop r.1.length, r.2)

inductive Reader where
  | sysReadNum
  | sysReadString (buffer : List UInt8) (length : Int)
  | readString (buffer : List UInt8) (length : Int)

/-- What a reader leaves of the characters `GetChar` has to return, `none` if
it calls `GetChar` again after the last of them. -/
def Reader.rest : Reader → List UInt8 → Option (List UInt8)
  | .sysReadNum, input => (Numbers.sysReadNum input).map Prod.snd
  | .sysReadString buffer length, input => (Nachos.sysReadString buffer length input).map Prod.snd
  | .readString buffer length, input =>
      (Files.readString buffer length input).toOption.map fun r => r.2.2

theorem rest_sysReadString (buffer : List UInt8) (length : Int) (input : List UInt8) :
    (Reader.sysReadString buffer length).rest input
      = (readUntil isEnter length.toNat input).map Prod.snd := by
  rw [Reader.rest, Nachos.sysReadString, Option.map_map]
  rfl

theorem rest_readString (buffer : List UInt8) (length : Int) (input : List UInt8) :
    (Reader.readString buffer length).rest input
      = (readUntil isNewline length.toNat input).map Prod.snd := by
  rw [Reader.rest, Files.readString, readLine_eq]
  cases readUntil isNewline length.toNat input <;> rfl

/-! ## More input -/

theorem readUntil_append {stop : UInt8 → Bool} {room : Nat} {input : List UInt8}
    {r : List UInt8 × List UInt8} (h : readUntil stop room input = some r) (more : List UInt8) :
    readUntil stop room (input ++ more) = some (r.1, r.2 ++ more) := by
  induction input generalizing room r with
  | nil =>
      cases room with
      | zero =>
          obtain rfl := Option.some.inj h
          rw [readUntil]
      | succ room => exact absurd h.symm (Option.some_ne_none r)
  | cons ch input ih =>
      cases room with
      | zero =>
          obtain rfl := Option.some.inj h
          rw [readUntil]
      | succ room =>
          rw [List.cons_append]
          rw [readUntil] at h ⊢
          by_cases heof : ch = eof
          · rw [if_pos heof] at h ⊢
            exact ih h
          · rw [if_neg heof] at h ⊢
            by_cases hstop : stop ch = true
            · rw [if_pos hstop] at h ⊢
              obtain rfl := Option.some.inj h
              rfl
            · rw [if_neg hstop] at h ⊢
              obtain ⟨r', hr', rfl⟩ := Option.map_eq_some_iff.mp h
              rw [ih hr', Option.map_some]

theorem skipBlanks_more {input : List UInt8} {r : UInt8 × List UInt8}
    (h : Numbers.skipBlanks input = some r) (more : List UInt8) :
    Numbers.skipBlanks (input ++ more) = some (r.1, r.2 ++ more) := by
  induction input with
  | nil => exact absurd h.symm (Option.some_ne_none r)
  | cons c input ih =>
      rw [List.cons_append]
      rw [Numbers.skipBlanks] at h ⊢
      by_cases hblank : Numbers.isBlank c = true
      · rw [if_pos hblank] at h ⊢
        exact ih h
      · rw [if_neg hblank] at h ⊢
        obtain rfl := Option.some.inj h
        rfl

theorem readDigits_more {input : List UInt8} {num : Int} {isInteger : Bool} {c : UInt8}
    {r : Int × Bool × List UInt8} (h : Numbers.readDigits num isInteger c input = some r)
    (more : List UInt8) :
    Numbers.readDigits num isInteger c (input ++ more) = some (r.1, r.2.1, r.2.2 ++ more) := by
  induction input generalizing num isInteger c with
  | nil => exact absurd h.symm (Option.some_ne_none r)
  | cons d input ih =>
      rw [List.cons_append]
      rw [Numbers.readDigits] at h ⊢
      by_cases hblank : Numbers.isBlank d = true
      · simp only [if_pos hblank] at h ⊢
        obtain rfl := Option.some.inj h
        rfl
      · simp only [if_neg hblank] at h ⊢
        exact ih h

theorem readUnsigned_more {input : List UInt8} {isSign : Bool} {c : UInt8}
    {r : Int × List UInt8} (h : Numbers.readUnsigned isSign c input = some r)
    (more : List UInt8) :
    Numbers.readUnsigned isSign c (input ++ more) = some (r.1, r.2 ++ more) := by
  rw [Numbers.readUnsigned] at h ⊢
  obtain ⟨r', hr', rfl⟩ := Option.map_eq_some_iff.mp h
  rw [readDigits_more hr', Option.map_some]

theorem sysReadNum_more {input : List UInt8} {r : Int × List UInt8}
    (h : Numbers.sysReadNum input = some r) (more : List UInt8) :
    Numbers.sysReadNum (input ++ more) = some (r.1, r.2 ++ more) := by
  rw [Numbers.sysReadNum] at h ⊢
  obtain ⟨⟨c, behind⟩, hskip, hread⟩ := Option.bind_eq_some_iff.mp h
  rw [skipBlanks_more hskip, Option.bind_some]
  by_cases hsign : c = 45
  · simp only [if_pos hsign] at hread ⊢
    cases behind with
    | nil => exact absurd hread.symm (Option.some_ne_none r)
    | cons d behind =>
        simp only [List.cons_append] at hread ⊢
        by_cases hblank : Numbers.isBlank d = true
        · rw [if_pos hblank] at hread ⊢
          obtain rfl := Option.some.inj hread
          rfl
        · rw [if_neg hblank] at hread ⊢
          exact readUnsigned_more hread more
  · simp only [if_neg hsign] at hread ⊢
    exact readUnsigned_more hread more

/-- A reader looks at no more than it takes. -/
theorem Reader.rest_append (r : Reader) {input rest : List UInt8} (h : r.rest input = some rest)
    (more : List UInt8) : r.rest (input ++ more) = some (rest ++ more) := by
  cases r with
  | sysReadNum =>
      obtain ⟨x, hx, rfl⟩ := Option.map_eq_some_iff.mp h
      rw [Reader.rest, sysReadNum_more hx, Option.map_some]
  | sysReadString buffer length =>
      rw [rest_sysReadString] at h ⊢
      obtain ⟨x, hx, rfl⟩ := Option.map_eq_some_iff.mp h
      rw [readUntil_append hx, Option.map_some]
  | readString buffer length =>
      rw [rest_readString] at h ⊢
      obtain ⟨x, hx, rfl⟩ := Option.map_eq_some_iff.mp h
      rw [readUntil_append hx, Option.map_some]

/-! ## What has to be typed -/

/-- The characters before the end of the input. -/
def typed (file : List UInt8) : List UInt8 := file.takeWhile (· ≠ eof)

theorem eof_not_mem_typed (file : List UInt8) : eof ∉ typed file := fun hmem => by
  have := List.mem_takeWhile_imp hmem
  simp at this

/-- What a reader needs: an entry with its blank, or a buffer full of
characters, or the character at which it stops. -/
def Reader.Served : Reader → List UInt8 → Prop
  | .sysReadNum, file =>
      ∃ (e : Numbers.Entry) (behind : List UInt8), file = e.bytes ++ behind ∧ eof ∉ e.token
  | .sysReadString _ length, file =>
      length ≤ (typed file).length ∨ ∃ ch ∈ typed file, ch = 1 ∨ ch = 10
  | .readString _ length, file => length ≤ (typed file).length ∨ 10 ∈ typed file

theorem readUntil_eq_none_iff {stop : UInt8 → Bool} {chars : List UInt8} (hchars : eof ∉ chars)
    (room : Nat) : readUntil stop room (chars ++ [eof]) = none ↔
      chars.length < room ∧ ∀ ch ∈ chars, stop ch = false := by
  induction chars generalizing room with
  | nil =>
      cases room with
      | zero => exact iff_of_false (by simp [readUntil]) fun h => absurd h.1 (Nat.lt_irrefl 0)
      | succ room => exact iff_of_true rfl ⟨Nat.succ_pos room, by simp⟩
  | cons ch chars ih =>
      cases room with
      | zero => exact iff_of_false (by simp [readUntil]) fun h => absurd h.1 (Nat.not_lt_zero _)
      | succ room =>
          have heof : ch ≠ eof := (List.ne_of_not_mem_cons hchars).symm
          rw [List.cons_append, readUntil, if_neg heof, List.forall_mem_cons, List.length_cons,
            Nat.add_lt_add_iff_right]
          by_cases hstop : stop ch = true
          · rw [if_pos hstop]
            exact iff_of_false (by simp) fun h => absurd h.2.1 (by simp [hstop])
          · rw [if_neg hstop, Option.map_eq_none_iff, ih (List.not_mem_of_not_mem_cons hchars)]
            simp only [Bool.not_eq_true] at hstop
            simp only [hstop, true_and]

/-- The first blanks, the token behind them, and what follows it. -/
theorem exists_token (chars : List UInt8) :
    (∃ blanks token, chars = blanks ++ token ∧ (∀ c ∈ blanks, Numbers.isBlank c = true)
        ∧ ∀ c ∈ token, Numbers.isBlank c = false)
      ∨ ∃ (e : Numbers.Entry) (behind : List UInt8), chars = e.bytes ++ behind := by
  induction chars with
  | nil => exact Or.inl ⟨[], [], rfl, by simp, by simp⟩
  | cons c chars ih =>
      by_cases hc : Numbers.isBlank c = true
      · rcases ih with ⟨blanks, token, rfl, hblanks, htoken⟩ | ⟨e, behind, rfl⟩
        · exact Or.inl ⟨c :: blanks, token, rfl, List.forall_mem_cons.mpr ⟨hc, hblanks⟩, htoken⟩
        · exact Or.inr ⟨{ e with
            blanks := c :: e.blanks
            isBlank_blanks := List.forall_mem_cons.mpr ⟨hc, e.isBlank_blanks⟩ }, behind, rfl⟩
      · rw [Bool.not_eq_true] at hc
        clear ih
        have hsplit := List.takeWhile_append_dropWhile (p := fun c => !Numbers.isBlank c)
          (l := chars)
        have htoken : ∀ x ∈ c :: chars.takeWhile (fun c => !Numbers.isBlank c),
            Numbers.isBlank x = false := by
          refine List.forall_mem_cons.mpr ⟨hc, fun x hx => ?_⟩
          simpa using List.mem_takeWhile_imp hx
        cases hrest : chars.dropWhile (fun c => !Numbers.isBlank c) with
        | nil =>
            rw [hrest, List.append_nil] at hsplit
            refine Or.inl ⟨[], c :: chars, rfl, by simp, ?_⟩
            rwa [hsplit] at htoken
        | cons t behind =>
            have hhead := List.head?_dropWhile_not (fun c => !Numbers.isBlank c) chars
            rw [hrest] at hhead hsplit
            refine Or.inr ⟨⟨[], c :: chars.takeWhile (fun c => !Numbers.isBlank c), t, by simp,
              List.cons_ne_nil _ _, htoken, by simpa using hhead⟩, behind, ?_⟩
            simp only [Numbers.Entry.bytes, List.nil_append, List.cons_append, List.append_assoc]
            rw [hsplit]

theorem sysReadNum_heard_isSome (file : List UInt8) :
    (Numbers.sysReadNum (heard file)).isSome ↔ Reader.sysReadNum.Served file := by
  constructor
  · intro hsome
    rcases exists_token (typed file) with ⟨blanks, token, heq, hblanks, htoken⟩ | ⟨e, behind, heq⟩
    · have hheard : heard file = blanks ++ (token ++ [eof]) := by
        rw [← List.append_assoc, ← heq]
        rfl
      have hplain : ∀ c ∈ token ++ [eof], Numbers.isBlank c = false := by
        intro c hc
        rcases List.mem_append.mp hc with hmem | hmem
        · exact htoken c hmem
        · rw [List.mem_singleton.mp hmem]
          decide
      rw [hheard, Numbers.sysReadNum_none hblanks hplain] at hsome
      exact absurd hsome (by simp)
    · refine ⟨e, behind ++ file.dropWhile (· ≠ eof), ?_, fun hmem => ?_⟩
      · rw [← List.append_assoc, ← heq, typed, List.takeWhile_append_dropWhile]
      · refine eof_not_mem_typed file ?_
        rw [heq, Numbers.Entry.bytes]
        simp only [List.mem_append]
        exact Or.inl (Or.inl (Or.inr hmem))
  · rintro ⟨e, behind, rfl, htoken⟩
    have hread := Numbers.sysReadNum_token e.isBlank_blanks e.token_ne_nil e.isBlank_token
      e.isBlank_terminator (heard behind)
    rw [← e.heard_eq htoken] at hread
    rw [← Numbers.Entry.heard, hread]
    rfl

/-- The reader does not call `GetChar` again after the end of the input. -/
theorem rest_heard_isSome (r : Reader) (file : List UInt8) :
    (r.rest (heard file)).isSome ↔ r.Served file := by
  have huntil : ∀ stop room, (readUntil stop room (heard file)).isSome
      ↔ room ≤ (typed file).length ∨ ∃ ch ∈ typed file, stop ch = true := by
    intro stop room
    rw [← Option.not_isNone, Bool.not_eq_true', ← Bool.not_eq_true, Option.isNone_iff_eq_none,
      show heard file = typed file ++ [eof] from rfl,
      readUntil_eq_none_iff (eof_not_mem_typed file) room]
    simp only [not_and_or, not_lt, not_forall, Bool.not_eq_false, exists_prop]
  cases r with
  | sysReadNum =>
      rw [Reader.rest, Option.isSome_map]
      exact sysReadNum_heard_isSome file
  | sysReadString buffer length =>
      rw [rest_sysReadString, Option.isSome_map, huntil, Reader.Served]
      simp only [isEnter, decide_eq_true_eq]
      exact or_congr_left (by omega)
  | readString buffer length =>
      rw [rest_readString, Option.isSome_map, huntil, Reader.Served]
      simp only [isNewline, decide_eq_true_eq, exists_eq_right]
      exact or_congr_left (by omega)

/-! ## On the console -/

/-- With the reader as its only user, the console comes to a state in which
the characters it has returned are enough. -/
def Reader.Returns (r : Reader) (file : List UInt8) : Prop :=
  ∃ s : ConsoleInput.State Unit, Reach step Any (State.init file) s ∧ (r.rest s.chars).isSome

/-- **Readers at the end of the input.** A reader goes on calling `GetChar`
after `EOF`, and returns in no run of the console, exactly if its input does
not have what it looks for. -/
theorem reader_returns_iff (r : Reader) (file : List UInt8) :
    (r.rest (heard file) ≠ none ↔ r.Served file) ∧ (r.Returns file ↔ r.Served file) := by
  have hheard := rest_heard_isSome r file
  refine ⟨by rw [← hheard, Option.isSome_iff_ne_none], ?_⟩
  rw [← hheard]
  constructor
  · rintro ⟨s, hreach, hsome⟩
    obtain ⟨rest, hrest⟩ := Option.isSome_iff_exists.mp hsome
    obtain ⟨more, hmore⟩ := chars_prefix_heard hreach
    rw [← hmore, r.rest_append hrest]
    rfl
  · intro hsome
    obtain ⟨s, hreach, hchars⟩ := reach_heard () file []
    refine ⟨s, hreach, ?_⟩
    rw [hchars, List.map_nil, List.nil_append]
    exact hsome

/-- On `12` without a newline `SysReadNum` waits for ever, and so do the
string readers on an empty input. -/
theorem readers_wait_at_end :
    Reader.sysReadNum.rest (heard [49, 50]) = none
      ∧ (Reader.sysReadString [0, 0] 1).rest (heard []) = none
      ∧ (Reader.readString [0, 0] 1).rest (heard []) = none := by
  decide

/-! ## The stores of `readString` -/

/-- The stores that put `bs` at the index `i`. -/
def storesFrom (i : Nat) : List UInt8 → List (Nat × UInt8)
  | [] => []
  | b :: bs => (i, b) :: storesFrom (i + 1) bs

/-- The stores of `readString` in their order, when it finds `line`: the
buffer is cleared, the characters come in, and a zero comes behind the next
one. -/
def stringStores (length : Int) (line : List UInt8) : List (Nat × UInt8) :=
  storesFrom 0 (List.replicate length.toNat 0) ++ storesFrom 0 line ++ [(line.length + 1, 0)]

/-- A buffer after some stores; those behind it do not show. -/
def applyStores (buffer : List UInt8) (stores : List (Nat × UInt8)) : List UInt8 :=
  stores.foldl (fun buffer store => buffer.set store.1 store.2) buffer

theorem applyStores_append (buffer : List UInt8) (stores stores' : List (Nat × UInt8)) :
    applyStores buffer (stores ++ stores') = applyStores (applyStores buffer stores) stores' :=
  List.foldl_append

theorem applyStores_storesFrom (i : Nat) {bs buffer : List UInt8}
    (h : i + bs.length ≤ buffer.length) :
    applyStores buffer (storesFrom i bs) = buffer.take i ++ bs ++ buffer.drop (i + bs.length) := by
  induction bs generalizing i buffer with
  | nil =>
      rw [List.append_nil, List.length_nil, Nat.add_zero, List.take_append_drop]
      rfl
  | cons b bs ih =>
      rw [List.length_cons] at h
      have hstep : applyStores buffer (storesFrom i (b :: bs))
          = applyStores (buffer.set i b) (storesFrom (i + 1) bs) := rfl
      have htake : (buffer.set i b).take (i + 1) = buffer.take i ++ [b] := by
        rw [List.take_set, List.take_succ_eq_append_getElem (by omega), List.set_append_right _ _
          (by rw [List.length_take]; omega), List.length_take, Nat.min_eq_left (by omega),
          Nat.sub_self]
        rfl
      rw [hstep, ih (i + 1) (by rw [List.length_set]; omega), htake, List.drop_set_of_lt (by omega),
        List.append_assoc, List.length_cons, Nat.add_assoc, Nat.add_comm 1]
      simp only [List.append_assoc, List.cons_append, List.nil_append]

theorem length_le_of_readUntil {stop : UInt8 → Bool} {room : Nat} {input line rest : List UInt8}
    (h : readUntil stop room input = some (line, rest)) : line.length ≤ room := by
  induction input generalizing room line with
  | nil =>
      cases room with
      | zero =>
          obtain ⟨rfl, -⟩ := Prod.mk.inj (Option.some.inj h)
          exact le_rfl
      | succ room => cases h
  | cons ch input ih =>
      cases room with
      | zero =>
          obtain ⟨rfl, -⟩ := Prod.mk.inj (Option.some.inj h)
          exact le_rfl
      | succ room =>
          rw [readUntil] at h
          split at h
          next => exact ih h
          next =>
              split at h
              next =>
                  obtain ⟨rfl, -⟩ := Prod.mk.inj (Option.some.inj h)
                  exact Nat.zero_le _
              next =>
                  obtain ⟨⟨line', rest'⟩, hrest, heq⟩ := Option.map_eq_some_iff.mp h
                  obtain ⟨rfl, rfl⟩ := Prod.mk.inj heq
                  exact Nat.succ_le_succ (ih hrest)

theorem applyStores_stringStores {buffer line : List UInt8} {length : Int}
    (hlen : length.toNat ≤ buffer.length) (hline : line.length ≤ length.toNat) :
    applyStores buffer (stringStores length line)
      = (line ++ (List.replicate length.toNat 0 ++ buffer.drop length.toNat).drop line.length).set
          (line.length + 1) 0 := by
  have hclear : applyStores buffer (storesFrom 0 (List.replicate length.toNat 0))
      = List.replicate length.toNat 0 ++ buffer.drop length.toNat := by
    rw [applyStores_storesFrom 0 (by rw [List.length_replicate]; omega), List.take_zero,
      List.nil_append, List.length_replicate, Nat.zero_add]
  rw [stringStores, applyStores_append, applyStores_append, hclear, applyStores_storesFrom 0
    (by rw [List.length_append, List.length_replicate]; omega), List.take_zero, List.nil_append,
    Nat.zero_add]
  rfl

/-- `readString` makes these stores. -/
theorem readString_eq {buffer : List UInt8} {length : Int} (hlen : length.toNat ≤ buffer.length)
    {input line rest : List UInt8}
    (h : readUntil isNewline length.toNat input = some (line, rest)) :
    Files.readString buffer length input
      = .ok (applyStores buffer (stringStores length line), line.length, rest) := by
  have hline : Files.readLine length.toNat input = .ok (line, rest) := by
    rw [readLine_eq, h]
    rfl
  rw [applyStores_stringStores hlen (length_le_of_readUntil h), Files.readString, hline]
  rfl

/-! ## `SC_Read` on descriptor 0 -/

/-- `readString` as the stores it makes. -/
def readStringStores (length : Int) (input : List UInt8) : Except Trap (List (Nat × UInt8)) := do
  let (line, _) ← Files.readLine length.toNat input
  return stringStores length line

/-- `SC_Read` on descriptor 0 up to the copy back into the program: the stores
of `readString`, what `PCB::Read` returns, and the kernel buffer. -/
def Proc.readConsole (s : Proc) (virtAddr size : Int) :
    Except Trap (List (Nat × UInt8) × Int × List UInt8) := do
  let (buffer, _) ← user2System s.pageTable s.mainMemory virtAddr size
  let stores ← readStringStores size s.files.console.input
  let (res, buffer, _) ← s.files.read buffer size 0
  return (stores, res, buffer)

/-- The characters to be stored: those up to the first newline, or the first
`size`. -/
def lineOf (size : Int) (file : List UInt8) : List UInt8 :=
  (file.takeWhile (· ≠ 10)).take size.toNat

/-- The call allocates `size + 1` bytes, stores at the indices up to `size`
only, leaves the characters with a zero behind them, and returns their
number. -/
def Proc.ReadsLine (s : Proc) (virtAddr size : Int) (file : List UInt8) : Prop :=
  ∃ stores buffer, s.readConsole virtAddr size = .ok (stores, (lineOf size file).length, buffer)
    ∧ (buffer.length : Int) = size + 1
    ∧ (∀ store ∈ stores, (store.1 : Int) ≤ size)
    ∧ buffer.take ((lineOf size file).length + 1) = lineOf size file ++ [0]

/-- Descriptor 0 is open, the program can be read at `virtAddr` up to a zero
or the end of the request, and `file` is in the host file. -/
structure ConsoleRead (s : Proc) (virtAddr size : Int) (file : List UInt8) : Prop where
  opened : ∃ f, s.files.fileTable 0 = some f
  readable : ∃ r, copyIn s.pageTable s.mainMemory virtAddr size.toNat = .ok r
  input : s.files.console.input = heard file
  nonneg : 0 ≤ size
  int : size ≤ intMax

theorem length_copyIn {pt : List TranslationEntry} {m : Memory} {a : Int} {k : Nat}
    {r : List UInt8 × List TranslationEntry} (h : copyIn pt m a k = .ok r) :
    r.1.length = k + 1 := by
  induction k generalizing pt a r with
  | zero =>
      obtain rfl := Except.ok.inj h
      rfl
  | succ k ih =>
      rw [copyIn] at h
      split at h
      next => cases h
      next oneChar pt' _ =>
          split at h
          next =>
              obtain rfl := Except.ok.inj h
              exact List.length_replicate
          next =>
              cases hnext : copyIn pt' m (wrap32 (a + 1)) k with
              | error e =>
                  rw [hnext] at h
                  cases h
              | ok r' =>
                  rw [hnext] at h
                  obtain rfl := Except.ok.inj h
                  rw [List.length_cons, ih hnext]

theorem user2System_ok {pt : List TranslationEntry} {m : Memory} {virtAddr limit : Int}
    (hlimit : 0 ≤ limit) (hlt : limit < intMax) :
    user2System pt m virtAddr limit = copyIn pt m virtAddr limit.toNat := by
  have hwrap : wrap32 (limit + 1) = limit + 1 := by
    simp only [intMax] at hlt
    exact wrap32_of_bounds (by omega) (by omega)
  rw [user2System, hwrap, if_neg (by omega), if_neg (by omega)]

theorem user2System_intMax (pt : List TranslationEntry) (m : Memory) (virtAddr : Int) :
    user2System pt m virtAddr intMax = .error .abort := by
  rw [user2System, if_pos (by decide)]

theorem read_console {s : Files} {f : OpenFile} (hopen : s.fileTable 0 = some f)
    {buffer buffer' rest : List UInt8} {size count : Int}
    (hread : Files.readString buffer size s.console.input = .ok (buffer', count, rest)) :
    ∃ s', s.read buffer size 0 = .ok (count, buffer', s') := by
  refine ⟨{ s.setFile 0 (f.getCurrentPos s.host).2 with
    console := { s.console with input := rest } }, ?_⟩
  rw [Files.read, if_neg (by decide), if_neg (by decide), show (0 : Int).toNat = 0 from rfl, hopen]
  simp only [hread, if_true, bind, Except.bind, pure, Except.pure]

theorem readUntil_found {stop : UInt8 → Bool} {line : List UInt8} (heof : eof ∉ line)
    (hline : ∀ ch ∈ line, stop ch = false) {ch : UInt8} (hch : stop ch = true) (hne : ch ≠ eof)
    {room : Nat} (hroom : line.length < room) (input : List UInt8) :
    readUntil stop room (line ++ ch :: input) = some (line, input) := by
  induction line generalizing room with
  | nil =>
      cases room with
      | zero => exact absurd hroom (Nat.lt_irrefl 0)
      | succ room => rw [List.nil_append, readUntil, if_neg hne, if_pos hch]
  | cons c line ih =>
      cases room with
      | zero => exact absurd hroom (Nat.not_lt_zero _)
      | succ room =>
          rw [List.cons_append, readUntil, if_neg (List.ne_of_not_mem_cons heof).symm,
            hline c List.mem_cons_self, if_neg Bool.false_ne_true,
            ih (List.not_mem_of_not_mem_cons heof)
              (fun x hx => hline x (List.mem_cons_of_mem c hx)) (Nat.lt_of_succ_lt_succ hroom)]
          rfl

/-- A line shorter than the buffer ends at a character that stops it. -/
theorem exists_of_readUntil {stop : UInt8 → Bool} {chars : List UInt8} (hchars : eof ∉ chars)
    {room : Nat} {line rest : List UInt8}
    (h : readUntil stop room (chars ++ [eof]) = some (line, rest)) (hlt : line.length < room) :
    ∃ ch behind, chars = line ++ ch :: behind ∧ stop ch = true ∧ ∀ c ∈ line, stop c = false := by
  induction chars generalizing room line with
  | nil =>
      cases room with
      | zero => exact absurd hlt (Nat.not_lt_zero _)
      | succ room => cases h
  | cons c chars ih =>
      cases room with
      | zero => exact absurd hlt (Nat.not_lt_zero _)
      | succ room =>
          rw [List.cons_append, readUntil, if_neg (List.ne_of_not_mem_cons hchars).symm] at h
          by_cases hstop : stop c = true
          · rw [if_pos hstop] at h
            obtain ⟨rfl, -⟩ := Prod.mk.inj (Option.some.inj h)
            exact ⟨c, chars, rfl, hstop, by simp⟩
          · rw [if_neg hstop] at h
            obtain ⟨⟨line', rest'⟩, hrest, heq⟩ := Option.map_eq_some_iff.mp h
            obtain ⟨rfl, rfl⟩ := Prod.mk.inj heq
            obtain ⟨ch, behind, rfl, hch, hline⟩ :=
              ih (List.not_mem_of_not_mem_cons hchars) hrest (Nat.lt_of_succ_lt_succ hlt)
            exact ⟨ch, behind, rfl, hch, List.forall_mem_cons.mpr
              ⟨Bool.not_eq_true _ ▸ hstop, hline⟩⟩

theorem take_applyStores {buffer line : List UInt8} {size : Int} (hlen : size.toNat ≤ buffer.length)
    (hline : line.length < size.toNat) :
    (applyStores buffer (stringStores size line)).take (line.length + 1) = line ++ [0] := by
  obtain ⟨k, hk⟩ := Nat.exists_eq_add_of_lt hline
  rw [applyStores_stringStores hlen hline.le, List.take_set_of_le le_rfl, List.take_append,
    List.take_of_length_le (Nat.le_succ _), Nat.add_sub_cancel_left, hk]
  rw [List.drop_append_of_le_length (by rw [List.length_replicate]; omega), List.drop_replicate,
    show line.length + k + 1 - line.length = k + 1 by omega, List.replicate_succ]
  rfl

theorem length_applyStores (buffer : List UInt8) (stores : List (Nat × UInt8)) :
    (applyStores buffer stores).length = buffer.length := by
  induction stores generalizing buffer with
  | nil => rfl
  | cons store stores ih =>
      have hstep : applyStores buffer (store :: stores)
          = applyStores (buffer.set store.1 store.2) stores := rfl
      rw [hstep, ih, List.length_set]

theorem storesFrom_lt {i : Nat} {bs : List UInt8} {store : Nat × UInt8}
    (h : store ∈ storesFrom i bs) : store.1 < i + bs.length := by
  induction bs generalizing i with
  | nil => exact absurd h List.not_mem_nil
  | cons b bs ih =>
      rw [List.length_cons]
      rcases List.mem_cons.mp h with rfl | hmem
      · exact Nat.lt_add_of_pos_right (Nat.succ_pos _)
      · have := ih hmem
        omega

/-- All the stores are at indices up to `size` exactly if the last one is. -/
theorem stringStores_le_iff {size : Int} (hsize : 0 ≤ size) {line : List UInt8}
    (hline : line.length ≤ size.toNat) :
    (∀ store ∈ stringStores size line, (store.1 : Int) ≤ size) ↔ line.length < size.toNat := by
  constructor
  · intro h
    have hlast := h (line.length + 1, 0)
      (List.mem_append_right _ (List.mem_singleton.mpr rfl))
    simp only at hlast
    omega
  · intro hlt store hmem
    rw [stringStores, List.mem_append, List.mem_append, List.mem_singleton] at hmem
    rcases hmem with (hmem | hmem) | rfl
    · have hbound := storesFrom_lt hmem
      rw [List.length_replicate] at hbound
      omega
    · have hbound := storesFrom_lt hmem
      omega
    · simp only
      omega

theorem lineOf_append {size : Int} {line rest : List UInt8} (hline : (10 : UInt8) ∉ line)
    (hlt : line.length < size.toNat) : lineOf size (line ++ 10 :: rest) = line := by
  rw [lineOf, List.takeWhile_append_of_pos (by
    intro ch hch
    rw [decide_eq_true_eq]
    exact fun heq => hline (heq ▸ hch)), List.takeWhile_cons_of_neg (by simp), List.append_nil,
    List.take_of_length_le hlt.le]

section ConsoleReadLaw

variable {s : Proc} {virtAddr size : Int} {file : List UInt8}

/-- The call when `readString` finds a line. -/
theorem ConsoleRead.readConsole_eq (h : ConsoleRead s virtAddr size file) (hlt : size < intMax)
    {line rest : List UInt8}
    (hline : readUntil isNewline size.toNat (heard file) = some (line, rest)) :
    ∃ buffer : List UInt8, buffer.length = size.toNat + 1
      ∧ s.readConsole virtAddr size
        = .ok (stringStores size line, line.length,
            applyStores buffer (stringStores size line)) := by
  obtain ⟨f, hopen⟩ := h.opened
  obtain ⟨⟨buffer, pt⟩, hcopy⟩ := h.readable
  have hlen : buffer.length = size.toNat + 1 := length_copyIn hcopy
  have hstring := readString_eq (by omega : size.toNat ≤ buffer.length) hline
  rw [← h.input] at hstring
  obtain ⟨files, hread⟩ := read_console hopen hstring
  have hstores : readStringStores size s.files.console.input = .ok (stringStores size line) := by
    rw [readStringStores, readLine_eq, h.input, hline]
    rfl
  refine ⟨buffer, hlen, ?_⟩
  rw [Proc.readConsole, user2System_ok h.nonneg hlt, hcopy]
  simp only [hstores, hread, bind, Except.bind, pure, Except.pure]

/-- What a call that comes to the copy back has found. -/
theorem ConsoleRead.of_readConsole (h : ConsoleRead s virtAddr size file)
    {r : List (Nat × UInt8) × Int × List UInt8} (hr : s.readConsole virtAddr size = .ok r) :
    size < intMax ∧
      ∃ line rest, readUntil isNewline size.toNat (heard file) = some (line, rest) := by
  have hlt : size < intMax := by
    refine lt_of_le_of_ne h.int fun heq => ?_
    rw [heq, Proc.readConsole, user2System_intMax] at hr
    cases hr
  refine ⟨hlt, ?_⟩
  cases hline : readUntil isNewline size.toNat (heard file) with
  | some r => exact ⟨r.1, r.2, rfl⟩
  | none =>
      obtain ⟨⟨buffer, pt⟩, hcopy⟩ := h.readable
      have hstores : readStringStores size s.files.console.input = .error .wait := by
        rw [readStringStores, readLine_eq, h.input, hline]
        rfl
      rw [Proc.readConsole, user2System_ok h.nonneg hlt, hcopy] at hr
      simp only [hstores, bind, Except.bind] at hr
      cases hr

/-- **Console reads in their buffer**: exactly when a line shorter than `size`
is there, with its newline, and `size + 1` is an `int`. -/
theorem console_read_iff (h : ConsoleRead s virtAddr size file) :
    s.ReadsLine virtAddr size file ↔ size < intMax
      ∧ ∃ line rest, file = line ++ 10 :: rest ∧ 10 ∉ line ∧ eof ∉ line
        ∧ (line.length : Int) < size := by
  constructor
  · rintro ⟨stores, buffer, hrun, -, hstores, -⟩
    obtain ⟨hlt, line, rest, hline⟩ := h.of_readConsole hrun
    obtain ⟨buffer', -, hrun'⟩ := h.readConsole_eq hlt hline
    obtain rfl : stringStores size line = stores :=
      congrArg Prod.fst (Except.ok.inj (hrun'.symm.trans hrun))
    have hshort := (stringStores_le_iff h.nonneg (length_le_of_readUntil hline)).mp hstores
    obtain ⟨ch, behind, hchars, hch, hnone⟩ :=
      exists_of_readUntil (eof_not_mem_typed file) hline hshort
    have hnewline : ch = 10 := of_decide_eq_true hch
    refine ⟨hlt, line, behind ++ file.dropWhile (· ≠ eof), ?_, fun hmem => ?_, fun hmem => ?_,
      by omega⟩
    · rw [← List.cons_append, ← List.append_assoc, ← hnewline, ← hchars, typed,
        List.takeWhile_append_dropWhile]
    · exact absurd (hnone 10 hmem) (by decide)
    · refine eof_not_mem_typed file ?_
      rw [hchars]
      exact List.mem_append_left _ hmem
  · rintro ⟨hlt, line, rest, rfl, hline, heof, hshort⟩
    have hshort' : line.length < size.toNat := by omega
    have hread : readUntil isNewline size.toNat (heard (line ++ 10 :: rest))
        = some (line, heard rest) := by
      rw [heard_append heof, heard_cons (by decide)]
      refine readUntil_found heof (fun ch hch => ?_) (by decide) (by decide) hshort' _
      exact decide_eq_false fun heq => hline (heq ▸ hch)
    obtain ⟨buffer, hlen, hrun⟩ := h.readConsole_eq hlt hread
    rw [Proc.ReadsLine, lineOf_append hline hshort']
    refine ⟨_, _, hrun, ?_, (stringStores_le_iff h.nonneg hshort'.le).mpr hshort',
      take_applyStores (by omega) hshort'⟩
    rw [length_applyStores, hlen]
    have := h.nonneg
    omega

end ConsoleReadLaw

/-- A process with one page of zeros on frame 0, descriptor 0 open, and `file`
to be read. -/
def consoleProc (file : List UInt8) : Proc where
  pageTable := [⟨0, 0, true, false, false, false⟩]
  mainMemory _ := 0
  files :=
    { fileTable := Function.update (fun _ => none) 0 (some ⟨0, 0, 0, "stdin"⟩)
      host := ⟨fun _ => [], fun _ => none⟩
      console := ⟨heard file, []⟩ }

theorem consoleRead_consoleProc (file : List UInt8) {size : Nat} (hsize : size ≤ 128) :
    ConsoleRead (consoleProc file) 0 size file where
  opened := ⟨⟨0, 0, 0, "stdin"⟩, rfl⟩
  readable := by
    rw [Int.toNat_natCast]
    cases size with
    | zero => exact ⟨_, rfl⟩
    | succ size => exact ⟨_, rfl⟩
  input := rfl
  nonneg := Int.natCast_nonneg size
  int := by
    simp only [intMax]
    omega

/-- `hi` in a line, into a buffer for 3. -/
theorem console_read_hi :
    ConsoleRead (consoleProc [104, 105, 10]) 0 3 [104, 105, 10]
      ∧ (consoleProc [104, 105, 10]).ReadsLine 0 3 [104, 105, 10] :=
  ⟨consoleRead_consoleProc _ (by decide),
    (console_read_iff (consoleRead_consoleProc _ (by decide))).mpr
      ⟨by decide, [104, 105], [], rfl, by decide, by decide, by decide⟩⟩

/-- With `hi` and a newline typed, a read of 2 characters returns 2 after a
store at index 3, behind the 3 bytes of the buffer. -/
theorem console_read_behind_buffer :
    ConsoleRead (consoleProc [104, 105, 10]) 0 2 [104, 105, 10]
      ∧ (consoleProc [104, 105, 10]).readConsole 0 2
        = .ok ([(0, 0), (1, 0), (0, 104), (1, 105), (3, 0)], 2, [104, 105, 0]) :=
  ⟨consoleRead_consoleProc _ (by decide), by rfl⟩

end Nachos
