import Nachos.ConsoleStream
import Nachos.Machine
import Mathlib.Data.Nat.Digits.Defs

/-!
# Printing and reading numbers

`SysPrintNum` and `SysReadNum` of `userprog/ksyscall.h`. The printer takes
the digits off with the `%` and `/` of the language into an array of ten
`char`s; a store behind it is `none` here. The reader skips blanks and
newlines, takes a sign, and adds up `num * 10 + c - '0'` for every character
up to a blank or a newline, remembering whether all of them were digits; a
call that finds no more input waits, which is `none` as well.

`decimal` is the notation both are about. The reader gets every `int` back
from it (`sysReadNum_decimal`): where `num` overflows on the way, at both
ends of the range, the sum is the right one again in the end. The printer
writes it for every `int` but the smallest, whose negation is itself: its
digits come out negative (`print_read_iff`).

On the console an entry is a token between blanks, and what the reader takes
of it is given by `sysReadNum_token`: a token that is not a number counts as
0, but one whose number is no `int` as that number modulo 2^32
(`reads_entry_iff`).
-/

namespace Nachos

open CInt Machine

namespace Numbers

/-! ## The two functions -/

/-- The `char` an `int` is converted to. -/
def toChar (x : Int) : UInt8 := UInt8.ofNat (u32 x).toNat

def isDigit (c : UInt8) : Bool := 48 ≤ signedChar c ∧ signedChar c ≤ 57

/-- `c` is `' '` or `'\n'`. -/
def isBlank (c : UInt8) : Bool := c = 32 ∨ c = 10

/-- The loop that fills `arr`, with `room` entries left: the digits, the last
one first. -/
def fillArr : Nat → Int → Option (List Int)
  | 0, op1 => if op1 = 0 then some [] else none
  | room + 1, op1 =>
      if op1 = 0 then some []
      else (fillArr room (op1.tdiv 10)).map fun arr => op1.tmod 10 :: arr

/-- `SysPrintNum`: the characters it puts on the console. -/
def sysPrintNum (op1 : Int) : Option (List UInt8) :=
  if op1 = 0 then some [48]
  else
    let sign := if op1 < 0 then [45] else []
    let op1 := if op1 < 0 then wrap32 (-op1) else op1
    (fillArr 10 op1).map fun arr => sign ++ arr.reverse.map fun r => toChar (48 + r)

/-- The first character that is not a blank, and the input behind it. -/
def skipBlanks : List UInt8 → Option (UInt8 × List UInt8)
  | [] => none
  | c :: input => if isBlank c then skipBlanks input else some (c, input)

/-- The loop that reads digits, with the character `c` read last. -/
def readDigits (num : Int) (isInteger : Bool) (c : UInt8) :
    List UInt8 → Option (Int × Bool × List UInt8)
  | [] => none
  | c' :: input =>
      let num := wrap32 (wrap32 (wrap32 (num * 10) + signedChar c) - 48)
      let isInteger := if !isDigit c' && !isBlank c' then false else isInteger
      if isBlank c' then some (num, isInteger, input) else readDigits num isInteger c' input

/-- What `SysReadNum` makes of the characters from `c` on. -/
def readUnsigned (isSign : Bool) (c : UInt8) (input : List UInt8) : Option (Int × List UInt8) :=
  (readDigits 0 (isDigit c) c input).map fun r =>
    (if r.2.1 then if isSign then wrap32 (-r.1) else r.1 else 0, r.2.2)

/-- `SysReadNum`: the number, and the rest of the input. -/
def sysReadNum (input : List UInt8) : Option (Int × List UInt8) :=
  (skipBlanks input).bind fun r =>
    if r.1 = 45 then
      match r.2 with
      | [] => none
      | c :: input => if isBlank c then some (0, input) else readUnsigned true c input
    else readUnsigned false r.1 r.2

/-! ## Decimal notation -/

/-- The character of a digit. -/
def digitChar (d : Nat) : UInt8 := UInt8.ofNat (48 + d)

/-- The digits of a number, the first one first; 0 has a digit too. -/
def decimalNat (m : Nat) : List UInt8 :=
  if m = 0 then [digitChar 0] else (Nat.digits 10 m).reverse.map digitChar

def decimal (n : Int) : List UInt8 := (if n < 0 then [45] else []) ++ decimalNat n.natAbs

theorem signedChar_digitChar {d : Nat} (hd : d < 10) : signedChar (digitChar d) = 48 + d := by
  have hnat : (digitChar d).toNat = 48 + d := by
    rw [digitChar, UInt8.toNat_ofNat']
    omega
  rw [signedChar, hnat, if_pos (by omega)]
  omega

theorem isDigit_digitChar {d : Nat} (hd : d < 10) : isDigit (digitChar d) = true := by
  rw [isDigit, signedChar_digitChar hd, decide_eq_true_eq]
  omega

theorem digitChar_ne {d : Nat} (hd : d < 10) {c : UInt8} (hc : signedChar c < 48) :
    digitChar d ≠ c := by
  rintro rfl
  rw [signedChar_digitChar hd] at hc
  omega

theorem isBlank_digitChar {d : Nat} (hd : d < 10) : isBlank (digitChar d) = false := by
  rw [isBlank, decide_eq_false_iff_not, not_or]
  exact ⟨digitChar_ne hd (by decide), digitChar_ne hd (by decide)⟩

theorem toChar_digit {d : Nat} (hd : d < 10) : toChar (48 + (d : Int)) = digitChar d := by
  rw [toChar, digitChar, u32_of_bounds (by omega) (by omega)]
  congr 1

/-! ## The printer -/

/-- The loop takes the digits off, and ten entries are enough for an `int`. -/
theorem fillArr_eq (room : Nat) {m : Nat} (hm : m < 10 ^ room) :
    fillArr room m = some ((Nat.digits 10 m).map fun d : Nat => (d : Int)) := by
  induction room generalizing m with
  | zero =>
      obtain rfl : m = 0 := by omega
      rfl
  | succ room ih =>
      rw [fillArr]
      by_cases h0 : m = 0
      · subst h0
        rfl
      · have hdiv : (m : Int).tdiv 10 = (m / 10 : Nat) := Int.ofNat_tdiv m 10
        have hmod : (m : Int).tmod 10 = (m % 10 : Nat) := Int.ofNat_tmod m 10
        have hlt : m / 10 < 10 ^ room := by
          rw [pow_succ] at hm
          omega
        have hdigits := Nat.digits_def' (b := 10) (by decide) (Nat.pos_of_ne_zero h0)
        rw [if_neg (by omega), hdiv, hmod, ih hlt, Option.map_some, hdigits, List.map_cons]

theorem map_toChar {ds : List Nat} (hds : ∀ d ∈ ds, d < 10) :
    ((ds.map fun d : Nat => (d : Int)).reverse.map fun r => toChar (48 + r))
      = ds.reverse.map digitChar := by
  rw [← List.map_reverse, List.map_map]
  refine List.map_congr_left fun d hd => ?_
  exact toChar_digit (hds d (List.mem_reverse.mp hd))

/-- **`SysPrintNum`** writes the decimal notation. -/
theorem sysPrintNum_eq {n : Int} (hn : IsInt n) (hmin : n ≠ intMin) :
    sysPrintNum n = some (decimal n) := by
  simp only [IsInt, intMin, intMax] at hn hmin
  by_cases h0 : n = 0
  · subst h0
    rfl
  · have habs : (if n < 0 then wrap32 (-n) else n) = (n.natAbs : Int) := by
      split
      · rw [wrap32_of_bounds (by omega) (by omega)]
        omega
      · omega
    have hfill := fillArr_eq 10 (m := n.natAbs) (by omega)
    have hdigits : ∀ d ∈ Nat.digits 10 n.natAbs, d < 10 := fun d hd =>
      Nat.digits_lt_base (by decide) hd
    simp only [sysPrintNum, if_neg h0, habs, hfill, Option.map_some, map_toChar hdigits, decimal,
      decimalNat, if_neg (show ¬n.natAbs = 0 by omega)]

/-! ## The reader -/

/-- The number whose decimal notation `ds` continues that of `v`. -/
def valueFrom (v : Int) (ds : List Nat) : Int := ds.foldl (fun v (d : Nat) => v * 10 + d) v

theorem wrap32_accumulate (v : Int) {d : Nat} :
    wrap32 (wrap32 (wrap32 (wrap32 v * 10) + (48 + (d : Int))) - 48) = wrap32 (v * 10 + d) := by
  simp only [wrap32]
  omega

/-- The loop over the characters of digits, the number so far wrapped. -/
theorem readDigits_eq (v : Int) (d : Nat) (ds : List Nat) {terminator : UInt8}
    (hblank : isBlank terminator = true) (rest : List UInt8) (hds : ∀ e ∈ d :: ds, e < 10) :
    readDigits (wrap32 v) true (digitChar d) (ds.map digitChar ++ terminator :: rest)
      = some (wrap32 (valueFrom v (d :: ds)), true, rest) := by
  induction ds generalizing v d with
  | nil =>
      simp only [List.map_nil, List.nil_append, readDigits,
        signedChar_digitChar (hds d List.mem_cons_self), wrap32_accumulate, hblank, if_true,
        Bool.not_true, Bool.and_false, if_neg Bool.false_ne_true]
      rfl
  | cons e ds ih =>
      have he : e < 10 := hds e (List.mem_cons_of_mem d List.mem_cons_self)
      simp only [List.map_cons, List.cons_append, readDigits,
        signedChar_digitChar (hds d List.mem_cons_self), wrap32_accumulate, isDigit_digitChar he,
        isBlank_digitChar he, Bool.not_true, Bool.false_and, if_neg Bool.false_ne_true]
      exact ih _ e fun x hx => hds x (List.mem_cons_of_mem d hx)

theorem valueFrom_digits (m : Nat) : valueFrom 0 (Nat.digits 10 m).reverse = m := by
  have hstep : (fun (d : Nat) (v : Int) => v * 10 + d) = fun (d : Nat) v => (d : Int) + 10 * v := by
    funext d v
    omega
  rw [valueFrom, List.foldl_reverse, hstep, ← Nat.ofDigits_eq_foldr, ← Nat.cast_ofNat,
    ← Nat.coe_ofDigits, Nat.ofDigits_digits]

/-- A notation has a first digit. -/
theorem decimalNat_eq (m : Nat) :
    ∃ d ds, decimalNat m = (d :: ds).map digitChar ∧ (∀ e ∈ d :: ds, e < 10)
      ∧ valueFrom 0 (d :: ds) = m := by
  by_cases h0 : m = 0
  · subst h0
    exact ⟨0, [], rfl, by decide, rfl⟩
  · have hne : (Nat.digits 10 m).reverse ≠ [] := by
      rw [ne_eq, List.reverse_eq_nil_iff]
      exact Nat.digits_ne_nil_iff_ne_zero.mpr h0
    obtain ⟨d, ds, hdigits⟩ := List.exists_cons_of_ne_nil hne
    refine ⟨d, ds, ?_, fun e he => ?_, ?_⟩
    · rw [decimalNat, if_neg h0, hdigits]
    · rw [← hdigits, List.mem_reverse] at he
      exact Nat.digits_lt_base (by decide) he
    · rw [← hdigits, valueFrom_digits]

/-- What the reader makes of a notation, after its sign. -/
theorem readUnsigned_decimalNat (isSign : Bool) (m : Nat) (rest : List UInt8) :
    ∃ c input, decimalNat m ++ 10 :: rest = c :: input ∧ isBlank c = false ∧ c ≠ 45
      ∧ readUnsigned isSign c input
        = some (if isSign then wrap32 (-wrap32 m) else wrap32 m, rest) := by
  obtain ⟨d, ds, hdecimal, hds, hvalue⟩ := decimalNat_eq m
  have hd : d < 10 := hds d List.mem_cons_self
  have hread := readDigits_eq 0 d ds (show isBlank 10 = true by decide) rest hds
  rw [hvalue] at hread
  refine ⟨digitChar d, ds.map digitChar ++ 10 :: rest, ?_, isBlank_digitChar hd,
    digitChar_ne hd (by decide), ?_⟩
  · rw [hdecimal, List.map_cons, List.cons_append]
  · have hzero : wrap32 0 = 0 := rfl
    rw [hzero] at hread
    simp only [readUnsigned, isDigit_digitChar hd, hread, Option.map_some, if_true]

/-- **`SysReadNum`** gets every `int` back from its notation. -/
theorem sysReadNum_decimal {n : Int} (hn : IsInt n) (rest : List UInt8) :
    sysReadNum (decimal n ++ 10 :: rest) = some (n, rest) := by
  simp only [IsInt, intMin, intMax] at hn
  by_cases hneg : n < 0
  · obtain ⟨c, input, heq, hblank, -, hread⟩ := readUnsigned_decimalNat true n.natAbs rest
    have hskip : skipBlanks (45 :: c :: input) = some (45, c :: input) := rfl
    have hvalue : wrap32 (-wrap32 n.natAbs) = n := by
      simp only [wrap32]
      omega
    rw [decimal, if_pos hneg, List.append_assoc, heq, List.singleton_append, sysReadNum, hskip,
      Option.bind_some]
    simp only [if_true, hblank, if_neg Bool.false_ne_true, hread, hvalue]
  · obtain ⟨c, input, heq, hblank, hsign, hread⟩ := readUnsigned_decimalNat false n.natAbs rest
    have hskip : skipBlanks (c :: input) = some (c, input) := by
      rw [skipBlanks, hblank]
      rfl
    have hvalue : wrap32 n.natAbs = n := by
      simp only [wrap32]
      omega
    rw [decimal, if_neg hneg, List.nil_append, heq, sysReadNum, hskip, Option.bind_some]
    simp only [if_neg hsign, hread, if_neg Bool.false_ne_true, hvalue]

/-! ## Both together -/

/-- `n` is printed in decimal notation, within the array, and read back. -/
def PrintsAndReads (n : Int) : Prop :=
  ∃ chars, sysPrintNum n = some chars ∧ chars = decimal n
    ∧ ∀ rest, sysReadNum (chars ++ 10 :: rest) = some (n, rest)

/-- The characters for the smallest `int`: a minus sign, and `'0'` less each
digit. -/
theorem sysPrintNum_intMin :
    sysPrintNum intMin = some [45, 46, 47, 44, 41, 44, 40, 45, 42, 44, 40] := by
  decide

/-- **Print and read agree** on every `int` but the smallest. -/
theorem print_read_iff (n : Int) (hn : IsInt n) : PrintsAndReads n ↔ n ≠ intMin := by
  constructor
  · rintro ⟨chars, hprint, -, hread⟩ rfl
    rw [sysPrintNum_intMin] at hprint
    have hread' := hread []
    rw [← Option.some.inj hprint] at hread'
    exact absurd hread' (by decide)
  · intro hmin
    exact ⟨decimal n, sysPrintNum_eq hn hmin, rfl, sysReadNum_decimal hn⟩

/-- Next to the smallest. -/
theorem print_read_near_intMin :
    IsInt (-2147483647) ∧ PrintsAndReads (-2147483647) :=
  ⟨by decide, (print_read_iff (-2147483647) (by decide)).mpr (by decide)⟩

/-- The smallest `int` is printed as `-./,),(-*,(`, and that is read as 0. -/
theorem print_intMin_read_zero :
    sysPrintNum intMin = some [45, 46, 47, 44, 41, 44, 40, 45, 42, 44, 40]
      ∧ sysReadNum ([45, 46, 47, 44, 41, 44, 40, 45, 42, 44, 40] ++ [10]) = some (0, []) := by
  decide

/-! ## Entries on the console -/

/-- The number a string of digits denotes, if it is one. -/
def magnitude (token : List UInt8) : Option Int :=
  if token ≠ [] ∧ token.all isDigit then some (valueFrom 0 (token.map fun c => c.toNat - 48))
  else none

/-- The number a token denotes: digits, or a minus sign and digits. -/
def denoted : List UInt8 → Option Int
  | [] => none
  | c :: token => if c = 45 then (magnitude token).map (- ·) else magnitude (c :: token)

/-- What is to be read for a token: its number if it is an `int`, and 0
otherwise. -/
def answer (token : List UInt8) : Int :=
  match denoted token with
  | some n => if IsInt n then n else 0
  | none => 0

/-- What somebody enters: blanks, a token, and a blank that ends it. -/
structure Entry where
  blanks : List UInt8
  token : List UInt8
  terminator : UInt8
  isBlank_blanks : ∀ c ∈ blanks, isBlank c = true
  token_ne_nil : token ≠ []
  isBlank_token : ∀ c ∈ token, isBlank c = false
  isBlank_terminator : isBlank terminator = true

def Entry.bytes (e : Entry) : List UInt8 := e.blanks ++ e.token ++ [e.terminator]

theorem isBlank_ne_eof {c : UInt8} (hc : isBlank c = true) : c ≠ ConsoleInput.eof := by
  rintro rfl
  exact absurd hc (by decide)

theorem digitChar_of_isDigit {c : UInt8} (hc : isDigit c = true) :
    c.toNat - 48 < 10 ∧ c = digitChar (c.toNat - 48) := by
  have hlt : c.toNat < 256 := c.toNat_lt
  have hbounds : 48 ≤ c.toNat ∧ c.toNat ≤ 57 := by
    rw [isDigit, decide_eq_true_eq, signedChar] at hc
    split at hc <;> omega
  refine ⟨by omega, ?_⟩
  rw [digitChar, show 48 + (c.toNat - 48) = c.toNat by omega, UInt8.ofNat_toNat]

theorem map_digitChar {token : List UInt8} (h : ∀ c ∈ token, isDigit c = true) :
    (token.map fun c => c.toNat - 48).map digitChar = token := by
  rw [List.map_map]
  conv_rhs => rw [← List.map_id token]
  exact List.map_congr_left fun c hc => (digitChar_of_isDigit (h c hc)).2.symm

theorem skipBlanks_append {blanks : List UInt8} (hblanks : ∀ c ∈ blanks, isBlank c = true)
    {c : UInt8} (hc : isBlank c = false) (input : List UInt8) :
    skipBlanks (blanks ++ c :: input) = some (c, input) := by
  induction blanks with
  | nil => rw [List.nil_append, skipBlanks, hc, if_neg Bool.false_ne_true]
  | cons b blanks ih =>
      rw [List.cons_append, skipBlanks, hblanks b List.mem_cons_self, if_pos rfl]
      exact ih fun x hx => hblanks x (List.mem_cons_of_mem b hx)

/-- The loop runs to the end of the token, and its flag says whether all the
characters were digits. -/
theorem readDigits_token (num : Int) (isInteger : Bool) (c : UInt8) {token : List UInt8}
    (htoken : ∀ c ∈ token, isBlank c = false) {terminator : UInt8}
    (hblank : isBlank terminator = true) (rest : List UInt8) :
    ∃ num', readDigits num isInteger c (token ++ terminator :: rest)
      = some (num', isInteger && token.all isDigit, rest) := by
  induction token generalizing num isInteger c with
  | nil =>
      refine ⟨wrap32 (wrap32 (wrap32 (num * 10) + signedChar c) - 48), ?_⟩
      rw [List.nil_append, readDigits]
      simp only [hblank, Bool.not_true, Bool.and_false, if_neg Bool.false_ne_true, if_true,
        List.all_nil, Bool.and_true]
  | cons d token ih =>
      have hd : isBlank d = false := htoken d List.mem_cons_self
      obtain ⟨num', hnum⟩ := ih
        (wrap32 (wrap32 (wrap32 (num * 10) + signedChar c) - 48))
        (isInteger && isDigit d) d fun x hx => htoken x (List.mem_cons_of_mem d hx)
      refine ⟨num', ?_⟩
      have hflag : (if !isDigit d && !false then false else isInteger)
          = (isInteger && isDigit d) := by
        cases isDigit d <;> cases isInteger <;> rfl
      rw [List.cons_append, readDigits]
      simp only [hd, if_neg Bool.false_ne_true]
      rw [hflag, hnum, List.all_cons, Bool.and_assoc]

/-- Without a blank the loop does not come to an end. -/
theorem readDigits_none (num : Int) (isInteger : Bool) (c : UInt8) {token : List UInt8}
    (htoken : ∀ c ∈ token, isBlank c = false) : readDigits num isInteger c token = none := by
  induction token generalizing num isInteger c with
  | nil => rfl
  | cons d token ih =>
      rw [readDigits]
      simp only [htoken d List.mem_cons_self, if_neg Bool.false_ne_true]
      exact ih _ _ d fun x hx => htoken x (List.mem_cons_of_mem d hx)

theorem readUnsigned_token (isSign : Bool) (c : UInt8) {token : List UInt8}
    (htoken : ∀ c ∈ token, isBlank c = false) {terminator : UInt8}
    (hblank : isBlank terminator = true) (rest : List UInt8) :
    readUnsigned isSign c (token ++ terminator :: rest)
      = some (((magnitude (c :: token)).map fun m => wrap32 (if isSign then -m else m)).getD 0,
          rest) := by
  by_cases hdigits : ∀ x ∈ c :: token, isDigit x
  · have hc := digitChar_of_isDigit (hdigits c List.mem_cons_self)
    have hread := readDigits_eq 0 (c.toNat - 48) (token.map fun c => c.toNat - 48) hblank rest
      (fun e he => by
        rw [← List.map_cons (f := fun c : UInt8 => c.toNat - 48)] at he
        obtain ⟨x, hx, rfl⟩ := List.mem_map.mp he
        exact (digitChar_of_isDigit (hdigits x hx)).1)
    have hwrap : ∀ v, wrap32 (-wrap32 v) = wrap32 (-v) := fun v => by
      simp only [wrap32]
      omega
    rw [map_digitChar fun x hx => hdigits x (List.mem_cons_of_mem c hx), ← hc.2,
      show wrap32 0 = 0 from rfl] at hread
    rw [readUnsigned, hdigits c List.mem_cons_self, hread, magnitude,
      if_pos ⟨List.cons_ne_nil c token, List.all_eq_true.mpr hdigits⟩]
    cases isSign with
    | false => rfl
    | true =>
        simp only [Option.map_some, if_true, hwrap]
        rfl
  · obtain ⟨num', hnum⟩ := readDigits_token 0 (isDigit c) c htoken hblank rest
    have hflag : (isDigit c && token.all isDigit) = false := by
      rw [← List.all_cons, ← Bool.not_eq_true, List.all_eq_true]
      exact hdigits
    rw [readUnsigned, hnum, hflag, magnitude, if_neg fun h => hdigits (List.all_eq_true.mp h.2)]
    rfl

/-- **What `SysReadNum` reads of a token**: its number, wrapped, or 0. -/
theorem sysReadNum_token {blanks token : List UInt8} {terminator : UInt8}
    (hblanks : ∀ c ∈ blanks, isBlank c = true) (hne : token ≠ [])
    (htoken : ∀ c ∈ token, isBlank c = false) (hblank : isBlank terminator = true)
    (rest : List UInt8) :
    sysReadNum (blanks ++ token ++ terminator :: rest)
      = some (((denoted token).map wrap32).getD 0, rest) := by
  cases token with
  | nil => exact absurd rfl hne
  | cons c token =>
      have htail : ∀ x ∈ token, isBlank x = false := fun x hx =>
        htoken x (List.mem_cons_of_mem c hx)
      rw [List.append_assoc, List.cons_append, sysReadNum,
        skipBlanks_append hblanks (htoken c List.mem_cons_self), Option.bind_some, denoted]
      by_cases hsign : c = 45
      · rw [if_pos hsign, if_pos hsign]
        cases token with
        | nil =>
            simp only [List.nil_append, hblank, if_true]
            rfl
        | cons d token =>
            have hd : isBlank d = false := htail d List.mem_cons_self
            simp only [List.cons_append, hd, if_neg Bool.false_ne_true]
            rw [readUnsigned_token true d (fun x hx => htail x (List.mem_cons_of_mem d hx)) hblank,
              Option.map_map]
            rfl
      · rw [if_neg hsign, if_neg hsign, readUnsigned_token false c htail hblank]
        rfl

/-- Without a blank behind the token it waits. -/
theorem sysReadNum_none {blanks token : List UInt8}
    (hblanks : ∀ c ∈ blanks, isBlank c = true) (htoken : ∀ c ∈ token, isBlank c = false) :
    sysReadNum (blanks ++ token) = none := by
  cases token with
  | nil =>
      have hskip : skipBlanks blanks = none := by
        clear htoken
        induction blanks with
        | nil => rfl
        | cons b blanks ih =>
            rw [skipBlanks, hblanks b List.mem_cons_self, if_pos rfl]
            exact ih fun x hx => hblanks x (List.mem_cons_of_mem b hx)
      rw [List.append_nil, sysReadNum, hskip, Option.bind_none]
  | cons c token =>
      have htail : ∀ x ∈ token, isBlank x = false := fun x hx =>
        htoken x (List.mem_cons_of_mem c hx)
      rw [sysReadNum, skipBlanks_append hblanks (htoken c List.mem_cons_self), Option.bind_some]
      by_cases hsign : c = 45
      · rw [if_pos hsign]
        cases token with
        | nil => rfl
        | cons d token =>
            have hd : isBlank d = false := htail d List.mem_cons_self
            simp only [hd, if_neg Bool.false_ne_true, readUnsigned]
            rw [readDigits_none _ _ d fun x hx => htail x (List.mem_cons_of_mem d hx),
              Option.map_none]
      · rw [if_neg hsign, readUnsigned, readDigits_none _ _ c htail, Option.map_none]

/-- The entry, with more input behind it, as the calls of `GetChar` hand it
over. -/
def Entry.heard (e : Entry) (rest : List UInt8) : List UInt8 :=
  ConsoleInput.heard (e.bytes ++ rest)

theorem Entry.heard_eq (e : Entry) (htoken : ConsoleInput.eof ∉ e.token) (rest : List UInt8) :
    e.heard rest = e.blanks ++ e.token ++ e.terminator :: ConsoleInput.heard rest := by
  have hbytes : ConsoleInput.eof ∉ e.bytes := by
    intro hmem
    rw [Entry.bytes, List.mem_append, List.mem_append, List.mem_singleton] at hmem
    rcases hmem with (hmem | hmem) | heq
    · exact isBlank_ne_eof (e.isBlank_blanks _ hmem) rfl
    · exact htoken hmem
    · exact isBlank_ne_eof e.isBlank_terminator heq.symm
  rw [Entry.heard, ConsoleInput.heard_append hbytes, Entry.bytes, List.append_assoc,
    List.singleton_append]

/-- A byte 255 in the token is the last one that is heard. -/
theorem Entry.heard_eof (e : Entry) (htoken : ConsoleInput.eof ∈ e.token) (rest : List UInt8) :
    ∃ token, e.heard rest = e.blanks ++ token ∧ ∀ c ∈ token, isBlank c = false := by
  obtain ⟨before, behind, heq, hbefore⟩ := List.eq_append_cons_of_mem htoken
  have hblanks : ConsoleInput.eof ∉ e.blanks ++ before := by
    rw [List.mem_append, not_or]
    exact ⟨fun hmem => isBlank_ne_eof (e.isBlank_blanks _ hmem) rfl, hbefore⟩
  have hbytes : e.bytes ++ rest
      = (e.blanks ++ before) ++ ConsoleInput.eof :: (behind ++ [e.terminator] ++ rest) := by
    rw [Entry.bytes, heq]
    simp only [List.append_assoc, List.cons_append]
  refine ⟨before ++ [ConsoleInput.eof], ?_, fun c hc => ?_⟩
  · rw [Entry.heard, hbytes, ConsoleInput.heard_append hblanks, ConsoleInput.heard_eof,
      List.append_assoc]
  · refine e.isBlank_token c ?_
    rw [heq, List.append_cons]
    exact List.mem_append_left behind hc

/-- **`SysReadNum` reads an entry** as it should exactly if the token has no
byte 255, which is the end of the input to it, and its number is an `int` or
a multiple of 2^32. -/
theorem reads_entry_iff (e : Entry) (rest : List UInt8) :
    sysReadNum (e.heard rest) = some (answer e.token, ConsoleInput.heard rest) ↔
      ConsoleInput.eof ∉ e.token ∧ ∀ n, denoted e.token = some n → IsInt n ∨ 4294967296 ∣ n := by
  by_cases hmem : ConsoleInput.eof ∈ e.token
  · obtain ⟨token, heq, htoken⟩ := e.heard_eof hmem rest
    rw [heq, sysReadNum_none e.isBlank_blanks htoken]
    exact iff_of_false (by simp) fun h => h.1 hmem
  · rw [e.heard_eq hmem, sysReadNum_token e.isBlank_blanks e.token_ne_nil e.isBlank_token
      e.isBlank_terminator, Option.some.injEq, Prod.mk.injEq, and_iff_left rfl,
      and_iff_right hmem, answer]
    cases hnumber : denoted e.token with
    | none => exact iff_of_true rfl fun n hn => absurd hn (by simp)
    | some n =>
        have hforall : (∀ m, some n = some m → IsInt m ∨ 4294967296 ∣ m)
            ↔ IsInt n ∨ 4294967296 ∣ n :=
          ⟨fun h => h n rfl, fun h m hm => Option.some.inj hm ▸ h⟩
        rw [hforall]
        show wrap32 n = (if IsInt n then n else 0) ↔ _
        by_cases hint : IsInt n
        · rw [if_pos hint]
          exact iff_of_true (wrap32_of_isInt hint) (Or.inl hint)
        · rw [if_neg hint, or_iff_right hint, wrap32]
          omega

/-- `4294967297`, entered in a line, is read as 1. -/
theorem reads_four_billion_as_one :
    sysReadNum (ConsoleInput.heard [52, 50, 57, 52, 57, 54, 55, 50, 57, 55, 10])
        = some (1, ConsoleInput.heard [])
      ∧ denoted [52, 50, 57, 52, 57, 54, 55, 50, 57, 55] = some 4294967297
      ∧ answer [52, 50, 57, 52, 57, 54, 55, 50, 57, 55] = 0 := by
  decide +kernel

end Numbers

end Nachos
