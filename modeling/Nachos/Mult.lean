import Nachos.Mips

/-!
# Multiplication is exact

`Mult` adds up shifted copies of `b`, one for each bit of `a`, in a double
word that it keeps in two words with a carry of its own. The double word is
`hi ++ lo`, a number of 64 bits, and the loop is read in the arithmetic of
these: a pass adds (`append_add`) and doubles (`append_double`), and with `n`
rounds to go the loop adds `b` times the `n` low bits of `a`
(`multLoop_append`).

`a` is an `int`, so it is shifted with its sign. The sign comes in at the top
while the rounds look at the bits below it, and 32 rounds are not enough for
a copy of it to arrive (`toNat_sshiftRight_one`); for the same reason the
early exit is not taken while `a` is negative.

For a signed product the operands are made positive first. The most negative
number stays what it is, which is right as a number without a sign
(`toNat_magnitude`); the double word is complemented at the end
(`append_complement`).
-/

namespace Nachos

namespace Mips

/-! ## Double words -/

theorem toNat_append (hi lo : Word) :
    (hi ++ lo).toNat = hi.toNat * 4294967296 + lo.toNat := by
  rw [BitVec.toNat_append, ← Nat.shiftLeft_add_eq_or_of_lt lo.isLt, Nat.shiftLeft_eq]

/-- An addition of double words, the carry found by comparing. -/
theorem append_add (hi lo bHi bLo : Word) :
    (hi + (if lo + bLo < bLo then 1#32 else 0#32) + bHi) ++ (lo + bLo)
      = (hi ++ lo) + (bHi ++ bLo) := by
  apply BitVec.eq_of_toNat_eq
  have hlo := lo.isLt
  have hbLo := bLo.isLt
  rw [toNat_append, BitVec.toNat_add (hi ++ lo), toNat_append, toNat_append, BitVec.toNat_add,
    BitVec.toNat_add, BitVec.toNat_add]
  split
  next hlt =>
    rw [BitVec.lt_def, BitVec.toNat_add] at hlt
    simp only [BitVec.toNat_ofNat]
    omega
  next hge =>
    rw [BitVec.lt_def, BitVec.toNat_add] at hge
    simp only [BitVec.toNat_ofNat]
    omega

/-- `bHi` and `bLo` after a pass. -/
theorem append_double (bHi bLo : Word) :
    (if bLo &&& 0x80000000#32 ≠ 0 then (bHi <<< 1) ||| 1#32 else bHi <<< 1) ++ (bLo <<< 1)
      = (bHi ++ bLo) + (bHi ++ bLo) := by
  have hlsb : (bHi <<< 1) ||| 1#32 = (bHi <<< 1) + 1#32 := by
    refine (BitVec.add_eq_or_of_and_eq_zero _ _ ?_).symm
    apply BitVec.eq_of_getLsbD_eq
    intro i _
    cases i <;> simp
  have hand := BitVec.and_twoPow bLo 31
  rw [show BitVec.twoPow 32 31 = 0x80000000#32 from rfl, ← BitVec.msb_eq_getLsbD_last,
    BitVec.msb_eq_decide] at hand
  apply BitVec.eq_of_toNat_eq
  have hHi := bHi.isLt
  have hLo := bLo.isLt
  rw [toNat_append, BitVec.toNat_add, toNat_append, hlsb, hand]
  by_cases hcarry : 2 ^ (32 - 1) ≤ bLo.toNat
  · simp only [hcarry, decide_true, if_true]
    rw [if_pos (by decide)]
    simp only [BitVec.toNat_add, BitVec.toNat_shiftLeft, BitVec.toNat_ofNat, Nat.shiftLeft_eq]
    omega
  · simp only [hcarry, decide_false, Bool.false_eq_true, if_false]
    rw [if_neg (by decide)]
    simp only [BitVec.toNat_shiftLeft, Nat.shiftLeft_eq]
    omega

/-- The complement at the end. -/
theorem append_complement (hi lo : Word) :
    (if ~~~lo + 1 = 0 then ~~~hi + 1 else ~~~hi) ++ (~~~lo + 1) = -(hi ++ lo) := by
  apply BitVec.eq_of_toNat_eq
  have hhi := hi.isLt
  have hlo := lo.isLt
  have hone : (1 : Word).toNat = 1 := rfl
  have hzero : (0 : Word).toNat = 0 := rfl
  rw [toNat_append, BitVec.toNat_neg, toNat_append]
  split
  next h =>
    rw [← BitVec.toNat_inj] at h
    simp only [BitVec.toNat_add, BitVec.toNat_not, hone, hzero] at h ⊢
    omega
  next h =>
    rw [← BitVec.toNat_inj] at h
    simp only [BitVec.toNat_add, BitVec.toNat_not, hone, hzero] at h ⊢
    omega

/-! ## The loop -/

theorem odd_iff (a : Word) : a &&& 1#32 ≠ 0 ↔ a.toNat % 2 = 1 := by
  rw [Ne, ← BitVec.toNat_inj, BitVec.toNat_and]
  change ¬a.toNat &&& 1 = 0 ↔ _
  rw [Nat.and_one_is_mod]
  omega

/-- The early exit is taken on the last bit. -/
theorem toNat_of_exit {a : Word} (hodd : a &&& 1#32 ≠ 0) (hexit : a &&& 0xfffffffe#32 = 0) :
    a.toNat = 1 := by
  have hlast : a = a &&& 1#32 := calc
    a = a &&& (0xfffffffe#32 ||| 1#32) := (BitVec.and_allOnes (x := a)).symm
    _ = (a &&& 0xfffffffe#32) ||| (a &&& 1#32) := BitVec.and_or_distrib_left
    _ = a &&& 1#32 := by rw [hexit]; exact BitVec.zero_or
  have hnat := congrArg BitVec.toNat hlast
  rw [BitVec.toNat_and, show (1#32).toNat = 1 from rfl, Nat.and_one_is_mod] at hnat
  rw [odd_iff] at hodd
  omega

/-- The copy of the sign comes in at bit 31. -/
theorem toNat_sshiftRight_one (a : Word) :
    (a.sshiftRight 1).toNat = a.toNat / 2 + (if a.msb then 2 ^ 31 else 0) := by
  have ha := a.isLt
  rw [BitVec.toNat_sshiftRight, Nat.shiftRight_eq_div_pow, Nat.shiftRight_eq_div_pow]
  cases hsign : a.msb with
  | false => simp
  | true =>
      rw [BitVec.msb_eq_decide, decide_eq_true_eq] at hsign
      simp only [if_true]
      omega

/-- The copy of the sign is above the bits that are left to look at. -/
theorem bits_succ {n : Nat} (hn : n < 32) (a : Word) :
    a.toNat % 2 ^ (n + 1) = a.toNat % 2 + 2 * ((a.sshiftRight 1).toNat % 2 ^ n) := by
  have hmod : (a.sshiftRight 1).toNat % 2 ^ n = a.toNat / 2 % 2 ^ n := by
    rw [toNat_sshiftRight_one]
    split
    next =>
      obtain ⟨k, hk⟩ := Nat.pow_dvd_pow 2 (Nat.le_of_lt_succ hn)
      rw [hk, Nat.add_mul_mod_self_left]
    next => rfl
  rw [hmod, Nat.pow_succ, Nat.mul_comm, Nat.mod_mul]

section Rounds

variable {a : Word} (n : Nat) (bLo bHi lo hi : Word)

theorem multLoop_even (heven : ¬a &&& 1#32 ≠ 0) :
    multLoop (n + 1) a bLo bHi lo hi =
      multLoop n (a.sshiftRight 1) (bLo <<< 1)
        (if bLo &&& 0x80000000#32 ≠ 0 then (bHi <<< 1) ||| 1#32 else bHi <<< 1) lo hi := by
  simp only [multLoop, heven, false_and, if_false]

theorem multLoop_exit (hodd : a &&& 1#32 ≠ 0) (hexit : a &&& 0xfffffffe#32 = 0) :
    multLoop (n + 1) a bLo bHi lo hi =
      (hi + (if lo + bLo < bLo then 1#32 else 0#32) + bHi, lo + bLo) := by
  simp only [multLoop, ne_eq, hodd, not_false_eq_true, hexit, true_and, and_self, if_true]

theorem multLoop_odd (hodd : a &&& 1#32 ≠ 0) (hmore : ¬a &&& 0xfffffffe#32 = 0) :
    multLoop (n + 1) a bLo bHi lo hi =
      multLoop n (a.sshiftRight 1) (bLo <<< 1)
        (if bLo &&& 0x80000000#32 ≠ 0 then (bHi <<< 1) ||| 1#32 else bHi <<< 1) (lo + bLo)
        (hi + (if lo + bLo < bLo then 1#32 else 0#32) + bHi) := by
  simp only [multLoop, ne_eq, hodd, not_false_eq_true, hmore,
    true_and, and_false, if_true, if_false]

end Rounds

/-- With `n` rounds to go the loop adds the product with the `n` low bits of
`a`. -/
theorem multLoop_append : ∀ {n : Nat}, n ≤ 32 → ∀ a bLo bHi lo hi : Word,
    (multLoop n a bLo bHi lo hi).1 ++ (multLoop n a bLo bHi lo hi).2
      = (hi ++ lo) + (bHi ++ bLo) * BitVec.ofNat 64 (a.toNat % 2 ^ n) := by
  intro n
  induction n with
  | zero =>
      intro _ a bLo bHi lo hi
      rw [multLoop, Nat.pow_zero, Nat.mod_one, BitVec.mul_zero, BitVec.add_zero]
  | succ n ih =>
      intro hn a bLo bHi lo hi
      have hround : BitVec.ofNat 64 (a.toNat % 2 ^ (n + 1)) = BitVec.ofNat 64 (a.toNat % 2)
          + (BitVec.ofNat 64 ((a.sshiftRight 1).toNat % 2 ^ n)
            + BitVec.ofNat 64 ((a.sshiftRight 1).toNat % 2 ^ n)) := by
        rw [bits_succ (Nat.lt_of_succ_le hn), Nat.two_mul, BitVec.ofNat_add, BitVec.ofNat_add]
      have hn' : n ≤ 32 := Nat.le_of_succ_le hn
      by_cases hodd : a &&& 1#32 ≠ 0
      · have hlast := (odd_iff a).mp hodd
        by_cases hexit : a &&& 0xfffffffe#32 = 0
        · have hone : a.toNat % 2 ^ (n + 1) = 1 := by
            rw [toNat_of_exit hodd hexit,
              Nat.mod_eq_of_lt (Nat.one_lt_two_pow (Nat.succ_ne_zero n))]
          rw [multLoop_exit n bLo bHi lo hi hodd hexit, hone, append_add, BitVec.mul_one]
        · rw [multLoop_odd n bLo bHi lo hi hodd hexit, ih hn', append_add, append_double, hround,
            hlast, BitVec.mul_add, BitVec.mul_add, BitVec.mul_one, BitVec.add_mul, BitVec.add_assoc]
      · have hlast : a.toNat % 2 = 0 := by
          rw [odd_iff] at hodd
          omega
        rw [multLoop_even n bLo bHi lo hi hodd, ih hn', append_double, hround, hlast,
          BitVec.mul_add, BitVec.mul_add, BitVec.mul_zero, BitVec.zero_add, BitVec.add_mul]

/-- The whole loop multiplies. -/
theorem multLoop_eq (a b : Word) :
    ((multLoop 32 a b 0 0 0).1 ++ (multLoop 32 a b 0 0 0).2).toNat = a.toNat * b.toNat := by
  have ha := a.isLt
  have hb := b.isLt
  have hlt : a.toNat * b.toNat < 2 ^ 64 := calc
    a.toNat * b.toNat < 2 ^ 32 * 2 ^ 32 := Nat.mul_lt_mul'' ha hb
    _ = 2 ^ 64 := by decide
  have hzero : (0 : Word).toNat = 0 := rfl
  rw [multLoop_append le_rfl, Nat.mod_eq_of_lt ha, BitVec.toNat_add, BitVec.toNat_mul, toNat_append,
    toNat_append, BitVec.toNat_ofNat, hzero, Nat.zero_mul, Nat.zero_add, Nat.zero_add,
    Nat.mod_mod, Nat.mod_eq_of_lt (Nat.lt_trans ha (by decide)), Nat.mul_comm]
  exact Nat.mod_eq_of_lt hlt

/-! ## The sign -/

/-- The operand made positive, as a number without a sign. -/
theorem toNat_magnitude (x : Word) : (if x.slt 0 then -x else x).toNat = x.toInt.natAbs := by
  have hx := x.isLt
  have hint := x.toInt_eq_toNat_cond
  rw [BitVec.slt_eq_decide, show (0 : Word).toInt = 0 from rfl]
  by_cases hneg : x.toInt < 0
  · rw [decide_eq_true hneg, if_pos rfl, BitVec.toNat_neg]
    omega
  · rw [decide_eq_false hneg, if_neg Bool.false_ne_true]
    omega

theorem natAbs_toInt_le (x : Word) : x.toInt.natAbs ≤ 2 ^ 31 := by
  have hx := x.isLt
  have hint := x.toInt_eq_toNat_cond
  omega

/-- The double word that `Mult` leaves: that of the loop, or its
complement. -/
theorem mult_append {a b : Word} (ha : a ≠ 0) (hb : b ≠ 0) (signedArith : Bool) :
    (mult a b signedArith).1 ++ (mult a b signedArith).2 =
      let r := multLoop 32 (if signedArith && a.slt 0 then -a else a)
        (if signedArith && b.slt 0 then -b else b) 0 0 0
      if signedArith && (a.slt 0 ^^ b.slt 0) then -(r.1 ++ r.2) else r.1 ++ r.2 := by
  simp only [mult, ha, hb, or_self, if_false]
  cases signedArith && (a.slt 0 ^^ b.slt 0) with
  | false => rfl
  | true => exact append_complement _ _

/-- A product of magnitudes read as a signed double word. -/
theorem toInt_of_le {x : BitVec 64} (hx : x.toNat ≤ 2 ^ 62) :
    x.toInt = x.toNat ∧ (-x).toInt = -x.toNat := by
  have hpos := x.toInt_eq_toNat_cond
  have hneg := (-x).toInt_eq_toNat_cond
  rw [BitVec.toNat_neg] at hneg
  omega

theorem mul_eq_of_signs (x y : Int) :
    x * y = if decide (x < 0) ^^ decide (y < 0) then -((x.natAbs : Int) * y.natAbs)
      else (x.natAbs : Int) * y.natAbs := by
  by_cases hx : x < 0 <;> by_cases hy : y < 0
  · simp [hx, hy, abs_of_neg hx, abs_of_neg hy]
  · simp [hx, hy, abs_of_neg hx, abs_of_nonneg (Int.not_lt.mp hy)]
  · simp [hx, hy, abs_of_nonneg (Int.not_lt.mp hx), abs_of_neg hy]
  · simp [hx, hy, abs_of_nonneg (Int.not_lt.mp hx), abs_of_nonneg (Int.not_lt.mp hy)]

theorem mult_unsigned (a b : Word) :
    ((mult a b false).1 ++ (mult a b false).2).toNat = a.toNat * b.toNat := by
  by_cases ha : a = 0
  · subst ha
    simp [mult]
  by_cases hb : b = 0
  · subst hb
    simp [mult]
  rw [mult_append ha hb]
  exact multLoop_eq a b

theorem mult_signed (a b : Word) :
    ((mult a b true).1 ++ (mult a b true).2).toInt = a.toInt * b.toInt := by
  by_cases ha : a = 0
  · subst ha
    simp [mult]
  by_cases hb : b = 0
  · subst hb
    simp [mult]
  rw [mult_append ha hb]
  simp only [Bool.true_and]
  generalize hr : multLoop 32 (if a.slt 0 then -a else a) (if b.slt 0 then -b else b) 0 0 0 = r
  have hnat : (r.1 ++ r.2).toNat = a.toInt.natAbs * b.toInt.natAbs := by
    rw [← hr, multLoop_eq, toNat_magnitude, toNat_magnitude]
  have hle : (r.1 ++ r.2).toNat ≤ 2 ^ 62 := calc
    (r.1 ++ r.2).toNat = a.toInt.natAbs * b.toInt.natAbs := hnat
    _ ≤ 2 ^ 31 * 2 ^ 31 := Nat.mul_le_mul (natAbs_toInt_le a) (natAbs_toInt_le b)
    _ = 2 ^ 62 := by decide
  obtain ⟨hpos, hneg⟩ := toInt_of_le hle
  rw [hnat, Nat.cast_mul] at hpos hneg
  rw [mul_eq_of_signs, BitVec.slt_eq_decide, BitVec.slt_eq_decide,
    show (0 : Word).toInt = 0 from rfl]
  split
  · exact hneg
  · exact hpos

/-- `Mult` leaves the exact product in `hi` and `lo`. -/
theorem mult_exact (a b : Word) :
    ((mult a b true).1 ++ (mult a b true).2).toInt = a.toInt * b.toInt
      ∧ ((mult a b false).1 ++ (mult a b false).2).toNat = a.toNat * b.toNat :=
  ⟨mult_signed a b, mult_unsigned a b⟩

/-- `OP_MULT` leaves it in `HiReg` and `LoReg`. -/
theorem execute_mult {i : Instruction} (hop : i.opCode = .mult) (s : State) :
    ∃ d, execute i s = .ok d
      ∧ (d.state.registers hiReg ++ d.state.registers loReg).toInt
        = (s.reg i.rs).toInt * (s.reg i.rt).toInt := by
  refine ⟨_, by simp only [execute, hop]; rfl, ?_⟩
  rw [← mult_signed]
  rfl

/-- `OP_MULTU` too. -/
theorem execute_multu {i : Instruction} (hop : i.opCode = .multu) (s : State) :
    ∃ d, execute i s = .ok d
      ∧ (d.state.registers hiReg ++ d.state.registers loReg).toNat
        = (s.reg i.rs).toNat * (s.reg i.rt).toNat := by
  refine ⟨_, by simp only [execute, hop]; rfl, ?_⟩
  rw [← mult_unsigned]
  rfl

end Mips

end Nachos
