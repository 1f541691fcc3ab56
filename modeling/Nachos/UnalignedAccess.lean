import Nachos.InstructionEnds
import Nachos.VirtualBytes

/-!
# Words at addresses of any alignment

`LWR` and `LWL` each load a part of a word that lies across two words of the
memory, and `SWR` and `SWL` each store one, with masks and shifts by the
alignment. They are read bit by bit. The memory from an address on is a
string of bits (`State.bit`) in which a step of one byte is a shift by eight,
so that the word at the address is its first 32 bits; a merge takes each bit
from one of its two words (`getLsbD_lwrMerge` and its three relatives). From
this each instruction of a pair is seen to load or store, in its own place,
just those of the four bytes that it reaches, and between them the two reach
all (`reach_all`).
-/

namespace Nachos

namespace Mips

open ByteMemory CInt

/-! ## The merges, bit by bit -/

section Merges

variable {n j : Nat}

theorem getLsbD_lowMask (hj : j < 32) : (BitVec.ofNat 32 (2 ^ n - 1)).getLsbD j =
    decide (j < n) := by
  rw [BitVec.getLsbD_ofNat, Nat.testBit_two_pow_sub_one, decide_eq_true hj, Bool.true_and]

theorem getLsbD_highMask (hj : j < 32) :
    (BitVec.ofNat 32 (2 ^ 32 - 2 ^ n)).getLsbD j = decide (n ≤ j) := by
  have hpos : 2 ^ n - 1 + 1 = 2 ^ n := Nat.sub_add_cancel Nat.one_le_two_pow
  by_cases hn : n < 32
  · have hlt : 2 ^ n - 1 < 2 ^ 32 := Nat.lt_of_le_of_lt (Nat.sub_le _ _)
      (Nat.pow_lt_pow_right (by decide) hn)
    rw [BitVec.getLsbD_ofNat, ← hpos, Nat.testBit_two_pow_sub_succ hlt, Nat.testBit_two_pow_sub_one]
    by_cases hle : n ≤ j
    · simp [hj, hle, Nat.not_lt.mpr hle]
    · simp [hle, Nat.not_le.mp hle]
  · have hzero : 2 ^ 32 - 2 ^ n = 0 :=
      Nat.sub_eq_zero_of_le (Nat.pow_le_pow_right (by decide) (Nat.not_lt.mp hn))
    have hnot : ¬n ≤ j := by omega
    rw [hzero, BitVec.getLsbD_ofNat, Nat.zero_testBit, decide_eq_false hnot, Bool.and_false]

/-- The low `n` bits of one word below the low bits of another. -/
theorem getLsbD_mergeLow (n : Nat) (x v : Word) (hj : j < 32) :
    ((x &&& BitVec.ofNat 32 (2 ^ n - 1)) ||| (v <<< n)).getLsbD j
      = if n ≤ j then v.getLsbD (j - n) else x.getLsbD j := by
  rw [BitVec.getLsbD_or, BitVec.getLsbD_and, BitVec.getLsbD_shiftLeft, getLsbD_lowMask hj]
  by_cases hn : n ≤ j
  · simp [hn, hj, Nat.not_lt.mpr hn]
  · simp [hn, Nat.not_le.mp hn]

/-- The bits of one word from `n` on above the high bits of another. -/
theorem getLsbD_mergeHigh (n : Nat) (x v : Word) (hj : j < 32) :
    ((x &&& BitVec.ofNat 32 (2 ^ 32 - 2 ^ n))
        ||| ((v.sshiftRight (32 - n)) &&& BitVec.ofNat 32 (2 ^ n - 1))).getLsbD j
      = if j < n then v.getLsbD (j + (32 - n)) else x.getLsbD j := by
  rw [BitVec.getLsbD_or, BitVec.getLsbD_and, BitVec.getLsbD_and, BitVec.getLsbD_sshiftRight,
    getLsbD_lowMask hj, getLsbD_highMask hj]
  by_cases hlt : j < n
  · have hin : 32 - n + j < 32 := by omega
    rw [if_pos hin, if_pos hlt, Nat.add_comm]
    simp [hlt, hj, Nat.not_le.mpr hlt]
  · simp [hlt, Nat.not_lt.mp hlt]

theorem getLsbD_lwlMerge {byte : Nat} (hbyte : byte < 4) (next value : Word) (hj : j < 32) :
    (lwlMerge byte next value).getLsbD j
      = if 24 - 8 * byte ≤ j then value.getLsbD (j - (24 - 8 * byte)) else next.getLsbD j := by
  obtain rfl | rfl | rfl | rfl : byte = 0 ∨ byte = 1 ∨ byte = 2 ∨ byte = 3 := by omega
  · exact getLsbD_mergeLow 24 next value hj
  · exact getLsbD_mergeLow 16 next value hj
  · exact getLsbD_mergeLow 8 next value hj
  · simp [lwlMerge]

theorem getLsbD_lwrMerge {byte : Nat} (hbyte : byte < 4) (next value : Word) (hj : j < 32) :
    (lwrMerge byte next value).getLsbD j
      = if j < 32 - 8 * byte then value.getLsbD (j + 8 * byte) else next.getLsbD j := by
  obtain rfl | rfl | rfl | rfl : byte = 0 ∨ byte = 1 ∨ byte = 2 ∨ byte = 3 := by omega
  · simp [lwrMerge, hj]
  · exact getLsbD_mergeHigh 24 next value hj
  · exact getLsbD_mergeHigh 16 next value hj
  · exact getLsbD_mergeHigh 8 next value hj

theorem getLsbD_swlMerge {byte : Nat} (hbyte : byte < 4) (rt value : Word) (hj : j < 32) :
    (swlMerge byte rt value).getLsbD j
      = if j < 8 + 8 * byte then rt.getLsbD (j + (24 - 8 * byte)) else value.getLsbD j := by
  obtain rfl | rfl | rfl | rfl : byte = 0 ∨ byte = 1 ∨ byte = 2 ∨ byte = 3 := by omega
  · exact getLsbD_mergeHigh 8 value rt hj
  · exact getLsbD_mergeHigh 16 value rt hj
  · exact getLsbD_mergeHigh 24 value rt hj
  · simp [swlMerge, hj]

theorem getLsbD_swrMerge {byte : Nat} (hbyte : byte < 4) (rt value : Word) (hj : j < 32) :
    (swrMerge byte rt value).getLsbD j
      = if 8 * byte ≤ j then rt.getLsbD (j - 8 * byte) else value.getLsbD j := by
  obtain rfl | rfl | rfl | rfl : byte = 0 ∨ byte = 1 ∨ byte = 2 ∨ byte = 3 := by omega
  · simp [swrMerge]
  · exact getLsbD_mergeLow 8 value rt hj
  · exact getLsbD_mergeLow 16 value rt hj
  · exact getLsbD_mergeLow 24 value rt hj

end Merges

/-! ## The memory from an address on -/

/-- The byte at `a`, as the program sees it. -/
def State.byte (s : State) (a : Word) : Option UInt8 :=
  Machine.byteAt s.pageTable s.mainMemory a.toInt

/-- The little-endian word of the bytes from `a` on. -/
def State.wordAt (s : State) (a : Word) : Option Word :=
  ((List.range 4).mapM fun k => s.byte (a + BitVec.ofNat 32 k)).map fun bytes =>
    BitVec.ofNat 32 (leNat bytes)

/-- Where the byte at `a` is in `mainMemory`. -/
def State.place (s : State) (a : Word) : Option Int := Machine.place s.pageTable a.toInt

/-- The words that the bytes from `a` to `a + 3` are in are mapped. -/
def State.Covered (s : State) (writing : Bool) (a : Word) : Prop :=
  (∃ p, Machine.Maps s.pageTable (wordBase a).toInt 4 writing p)
    ∧ ∃ p, Machine.Maps s.pageTable (wordBase (a + 3)).toInt 4 writing p

/-- Bit `j` of the memory from `a` on. -/
def State.bit (s : State) (a : Word) (j : Nat) : Bool :=
  ((s.byte (a + BitVec.ofNat 32 (j / 8))).getD 0).toBitVec.getLsbD (j % 8)

theorem u32_toInt (x : Word) : u32 x.toInt = x.toNat := by
  have hx := x.isLt
  rw [u32, BitVec.toInt_eq_toNat_cond]
  split <;> omega

theorem byteOf_eq (x : Word) : byteOf x = x.toNat % 4 :=
  Nat.and_two_pow_sub_one_eq_mod x.toNat 2

theorem byteOf_lt (x : Word) : byteOf x < 4 := by
  rw [byteOf_eq]
  omega

theorem wordBase_add (x : Word) : wordBase x + BitVec.ofNat 32 (byteOf x) = x :=
  BitVec.sub_add_cancel _ _

/-- The byte reached from `a` and the byte reached from `a + 3`. -/
theorem byteOf_add_three (a : Word) : byteOf (a + 3) = (byteOf a + 3) % 4 := by
  have ha := a.isLt
  rw [byteOf_eq, byteOf_eq, BitVec.toNat_add, show (3 : Word).toNat = 3 from rfl]
  omega

/-- A step of `k` bytes is a shift by `8 * k`. -/
theorem State.bit_add (s : State) (a : Word) (k j : Nat) :
    s.bit (a + BitVec.ofNat 32 k) j = s.bit a (j + 8 * k) := by
  have hdiv : (j + 8 * k) / 8 = k + j / 8 := by omega
  have hmod : (j + 8 * k) % 8 = j % 8 := by omega
  rw [bit, bit, hdiv, hmod, BitVec.ofNat_add, BitVec.add_assoc]

section Bytes

variable {s : State} {a b : Word} {p : Int} {w : Bool}

theorem State.byte_eq_map (s : State) (a : Word) : s.byte a = (s.place a).map s.mainMemory :=
  Machine.byteAt_eq_map _ _ _

/-- The bytes of a word that is mapped. -/
theorem place_of_maps (h : Machine.Maps s.pageTable b.toInt 4 w p) {k : Nat} (hk : k < 4) :
    s.place (b + BitVec.ofNat 32 k) = some (p + k) := by
  refine Machine.place_eq_some_iff.mpr (h.byte ⟨by omega, by omega⟩ ?_)
  rw [u32_toInt, BitVec.toNat_add, BitVec.toNat_ofNat, Nat.mod_eq_of_lt (by omega : k < 2 ^ 32)]
  have hb := u32_toInt b
  have hlt := b.isLt
  simp only [u32] at hb ⊢
  omega

theorem getLsbD_memory (m : Memory) (p : Int) {j : Nat} (hj : j < 32) :
    (BitVec.ofInt 32 (word m p)).getLsbD j
      = (m (p + ((j / 8 : Nat) : Int))).toBitVec.getLsbD (j % 8) := by
  have hk : j / 8 < 4 := by omega
  have hword : BitVec.ofInt 32 (word m p) = BitVec.ofNat 32 (leNat (read m p 4)) := by
    rw [← BitVec.ofInt_natCast]
    apply BitVec.eq_of_toNat_eq
    rw [BitVec.toNat_ofInt, BitVec.toNat_ofInt, word, wrap32]
    omega
  rw [hword, BitVec.getLsbD_ofNat, decide_eq_true hj, Bool.true_and, testBit_leNat, getD_read hk]

/-- A word that is read is the first 32 bits from its address on. -/
theorem getLsbD_word (h : Machine.Maps s.pageTable b.toInt 4 w p) {j : Nat} (hj : j < 32) :
    (BitVec.ofInt 32 (word s.mainMemory p)).getLsbD j = s.bit b j := by
  have hk : j / 8 < 4 := by omega
  rw [getLsbD_memory _ _ hj, State.bit, State.byte_eq_map, place_of_maps h hk]
  rfl

/-- From a word that holds the byte at `a` to the bytes behind it. -/
theorem wordBase_right {k : Nat} :
    wordBase a + BitVec.ofNat 32 (byteOf a + k) = a + BitVec.ofNat 32 k := by
  rw [BitVec.ofNat_add, ← BitVec.add_assoc, wordBase_add]

/-- From the word that holds the byte at `a + 3` to the bytes before it. -/
theorem wordBase_left {k : Nat} (hk : 3 ≤ byteOf (a + 3) + k) :
    wordBase (a + 3) + BitVec.ofNat 32 (byteOf (a + 3) + k - 3) = a + BitVec.ofNat 32 k := by
  have hsum : BitVec.ofNat 32 (byteOf (a + 3) + k - 3) + 3
      = BitVec.ofNat 32 (byteOf (a + 3)) + BitVec.ofNat 32 k := by
    refine (BitVec.ofNat_add _ 3).symm.trans ?_
    rw [Nat.sub_add_cancel hk, BitVec.ofNat_add]
  refine (BitVec.add_left_inj 3).mp ?_
  rw [BitVec.add_assoc, hsum, ← BitVec.add_assoc, wordBase_add, BitVec.add_assoc, BitVec.add_assoc,
    BitVec.add_comm 3]

/-- Each of the four bytes is in one of the two words. -/
theorem reach_all (a : Word) (k : Nat) : byteOf a + k < 4 ∨ 3 ≤ byteOf (a + 3) + k := by
  have ha := byteOf_lt a
  rw [byteOf_add_three]
  omega

theorem State.Covered.place (h : s.Covered w a) {k : Nat} (hk : k < 4) :
    ∃ p, s.place (a + BitVec.ofNat 32 k) = some p := by
  obtain ⟨⟨p, hp⟩, q, hq⟩ := h
  rcases reach_all a k with hr | hl
  · exact ⟨_, wordBase_right ▸ place_of_maps hp hr⟩
  · have hlt := byteOf_lt (a + 3)
    exact ⟨_, wordBase_left hl ▸ place_of_maps hq (by omega)⟩

/-- The word at `a`, by its bits. -/
theorem wordAt_eq (h : s.Covered w a) {x : Word} (hbits : ∀ j < 32, x.getLsbD j = s.bit a j) :
    s.wordAt a = some x := by
  have hbyte : ∀ k < 4, s.byte (a + BitVec.ofNat 32 k)
      = some ((s.byte (a + BitVec.ofNat 32 k)).getD 0) := by
    intro k hk
    obtain ⟨p, hp⟩ := h.place hk
    rw [State.byte_eq_map, hp]
    rfl
  have hmap : (List.range 4).mapM (fun k => s.byte (a + BitVec.ofNat 32 k))
      = some ((List.range 4).map fun k => (s.byte (a + BitVec.ofNat 32 k)).getD 0) := by
    change ([0, 1, 2, 3] : List Nat).mapM (fun k => s.byte (a + BitVec.ofNat 32 k)) = _
    simp only [List.mapM_cons, List.mapM_nil]
    rw [hbyte 0 (by decide), hbyte 1 (by decide), hbyte 2 (by decide), hbyte 3 (by decide)]
    rfl
  rw [State.wordAt, hmap, Option.map_some, Option.some.injEq]
  apply BitVec.eq_of_getLsbD_eq
  intro j hj
  have hk : j / 8 < 4 := by omega
  rw [hbits j hj, BitVec.getLsbD_ofNat, decide_eq_true hj, Bool.true_and, testBit_leNat,
    List.getD_eq_getElem?_getD, List.getElem?_map, List.getElem?_range hk]
  rfl

/-! ## What each instruction reaches -/

/-- `LWR` at `a` loads the bytes of the first word. -/
theorem getLsbD_lwr (h : Machine.Maps s.pageTable (wordBase a).toInt 4 w p) (next : Word) {j : Nat}
    (hj : j < 32) :
    (lwrMerge (byteOf a) next (BitVec.ofInt 32 (word s.mainMemory p))).getLsbD j
      = if byteOf a + j / 8 < 4 then s.bit a j else next.getLsbD j := by
  have hlt := byteOf_lt a
  rw [getLsbD_lwrMerge hlt next _ hj]
  by_cases hr : byteOf a + j / 8 < 4
  · rw [if_pos (by omega), if_pos hr, getLsbD_word h (by omega), ← State.bit_add, wordBase_add]
  · rw [if_neg (by omega), if_neg hr]

/-- `LWL` at `a + 3` loads the bytes of the second. -/
theorem getLsbD_lwl (h : Machine.Maps s.pageTable (wordBase (a + 3)).toInt 4 w p) (next : Word)
    {j : Nat} (hj : j < 32) :
    (lwlMerge (byteOf (a + 3)) next (BitVec.ofInt 32 (word s.mainMemory p))).getLsbD j
      = if 3 ≤ byteOf (a + 3) + j / 8 then s.bit a j else next.getLsbD j := by
  have hlt := byteOf_lt (a + 3)
  rw [getLsbD_lwlMerge hlt next _ hj]
  by_cases hl : 3 ≤ byteOf (a + 3) + j / 8
  · have hbase : a + BitVec.ofNat 32 (3 - byteOf (a + 3)) = wordBase (a + 3) := by
      rw [← wordBase_left (by omega), show byteOf (a + 3) + (3 - byteOf (a + 3)) - 3 = 0 by omega,
        BitVec.ofNat_eq_ofNat]
      exact BitVec.add_zero _
    rw [if_pos (by omega), if_pos hl, getLsbD_word h (by omega), ← hbase, State.bit_add]
    congr 1
    omega
  · rw [if_neg (by omega), if_neg hl]

/-- Byte `k` of a word. -/
def wordByte (x : Word) (k : Nat) : UInt8 := (leBytes 4 x.toNat).getD k 0

theorem getLsbD_wordByte (x : Word) (k : Nat) {i : Nat} (hi : i < 8) :
    (wordByte x k).toBitVec.getLsbD i = x.getLsbD (8 * k + i) := by
  have hbit := testBit_leNat (leBytes 4 x.toNat) (8 * k + i)
  have hdiv : (8 * k + i) / 8 = k := by omega
  have hmod : (8 * k + i) % 8 = i := by omega
  have hx : x.toNat % 256 ^ 4 = x.toNat := Nat.mod_eq_of_lt x.isLt
  rw [hdiv, hmod, leNat_leBytes, hx] at hbit
  exact hbit.symm

theorem byte_ext {x y : UInt8} (h : ∀ i < 8, x.toBitVec.getLsbD i = y.toBitVec.getLsbD i) : x = y :=
  UInt8.eq_of_toBitVec_eq (BitVec.eq_of_getLsbD_eq fun i hi => h i hi)

/-- The bytes of a word stored. -/
theorem setWord_toInt (m : Memory) (p : Int) (x : Word) {k : Nat} (hk : k < 4) :
    setWord m p x.toInt (p + k) = wordByte x k := by
  have hlen : (leBytes 4 x.toNat).length = 4 := length_leBytes 4 _
  rw [setWord, u32_toInt, Int.toNat_natCast, write_of_mem (by omega) (by omega), wordByte]
  congr 1
  omega

/-- What a store of a part leaves: the bytes of `x` that it reaches, and all
other bytes as they were. -/
structure Stored (s : State) (a x : Word) (reach : Nat → Prop) (m : Memory) : Prop where
  stored : ∀ k < 4, reach k → ∀ y, s.place (a + BitVec.ofNat 32 k) = some y → m y = wordByte x k
  others : ∀ y, (∀ k < 4, reach k → s.place (a + BitVec.ofNat 32 k) ≠ some y) →
    m y = s.mainMemory y

/-- A word stored over the word at `b`: byte `k` of `x` goes to byte `idx k`,
if it is reached, and the other bytes stay. -/
theorem stored_setWord (h : Machine.Maps s.pageTable b.toInt 4 w p) {x merged : Word}
    {reach : Nat → Prop} {idx : Nat → Nat}
    (hidx : ∀ k < 4, reach k → idx k < 4 ∧ b + BitVec.ofNat 32 (idx k) = a + BitVec.ofNat 32 k)
    (hnew : ∀ k < 4, reach k → ∀ i < 8,
      merged.getLsbD (8 * idx k + i) = x.getLsbD (8 * k + i))
    (hold : ∀ l < 4, (∀ k < 4, reach k → idx k ≠ l) → ∀ i < 8,
      merged.getLsbD (8 * l + i) = (BitVec.ofInt 32 (word s.mainMemory p)).getLsbD (8 * l + i)) :
    Stored s a x reach (setWord s.mainMemory p merged.toInt) := by
  constructor
  · intro k hk hr y hy
    obtain ⟨hlt, haddr⟩ := hidx k hk hr
    rw [← haddr, place_of_maps h hlt] at hy
    obtain rfl := Option.some.inj hy
    rw [setWord_toInt _ _ _ hlt]
    refine byte_ext fun i hi => ?_
    rw [getLsbD_wordByte _ _ hi, getLsbD_wordByte _ _ hi, hnew k hk hr i hi]
  · intro y hy
    by_cases hin : p ≤ y ∧ y < p + 4
    · obtain ⟨l, rfl⟩ : ∃ l : Nat, y = p + l := ⟨(y - p).toNat, by omega⟩
      have hl : l < 4 := by omega
      have hfree : ∀ k < 4, reach k → idx k ≠ l := by
        rintro k hk hr rfl
        exact hy k hk hr ((hidx k hk hr).2 ▸ place_of_maps h hl)
      rw [setWord_toInt _ _ _ hl]
      refine byte_ext fun i hi => ?_
      have hdiv : (8 * l + i) / 8 = l := by omega
      have hmod : (8 * l + i) % 8 = i := by omega
      rw [getLsbD_wordByte _ _ hi, hold l hl hfree i hi, getLsbD_memory _ _ (by omega), hdiv, hmod]
    · exact setWord_of_not_mem hin

/-- `SWR` at `a` stores into the first word. -/
theorem stored_swr (h : Machine.Maps s.pageTable (wordBase a).toInt 4 w p) (x : Word) :
    Stored s a x (fun k => byteOf a + k < 4) (setWord s.mainMemory p
      (swrMerge (byteOf a) x (BitVec.ofInt 32 (word s.mainMemory p))).toInt) := by
  have hlt := byteOf_lt a
  refine stored_setWord h (fun k _ hr => ⟨hr, wordBase_right⟩) (fun k _ hr i hi => ?_)
    fun l hl hfree i hi => ?_
  · rw [getLsbD_swrMerge hlt _ _ (by omega), if_pos (by omega)]
    congr 1
    omega
  · have hbelow : l < byteOf a := by
      by_contra hle
      exact hfree (l - byteOf a) (by omega) (by omega) (by omega)
    rw [getLsbD_swrMerge hlt _ _ (by omega), if_neg (by omega)]

/-- `SWL` at `a + 3` stores into the second. -/
theorem stored_swl (h : Machine.Maps s.pageTable (wordBase (a + 3)).toInt 4 w p) (x : Word) :
    Stored s a x (fun k => 3 ≤ byteOf (a + 3) + k) (setWord s.mainMemory p
      (swlMerge (byteOf (a + 3)) x (BitVec.ofInt 32 (word s.mainMemory p))).toInt) := by
  have hlt := byteOf_lt (a + 3)
  refine stored_setWord h (fun k _ hr => ⟨by omega, wordBase_left hr⟩) (fun k _ hr i hi => ?_)
    fun l hl hfree i hi => ?_
  · rw [getLsbD_swlMerge hlt _ _ (by omega), if_pos (by omega)]
    congr 1
    omega
  · have habove : byteOf (a + 3) < l := by
      by_contra hle
      exact hfree (l + 3 - byteOf (a + 3)) (by omega) (by omega) (by omega)
    rw [getLsbD_swlMerge hlt _ _ (by omega), if_neg (by omega)]

end Bytes

end Mips

end Nachos
