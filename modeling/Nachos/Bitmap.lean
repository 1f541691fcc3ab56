import Nachos.CInt
import Mathlib.Data.Finset.Card
import Mathlib.Data.Finset.Range
import Mathlib.Data.List.GetD
import Mathlib.Tactic.Common

/-!
# Bitmaps

`Bitmap` of `lib/bitmap.cc`: `numBits` bits packed into 32-bit words, the
word count being `divRoundUp(numBits, BitsInWord)` as in the constructor.
`Mark`, `Clear` and `Test` assert that their argument is a bit of the map;
here a failing assertion is `none`. `FindAndSet` answers `-1`, here `none`,
when every bit is set.

After the word-level lemmas no proof looks at words again: a bitmap is
what `testBit` says of each bit, and its set of marked bits is the finite
set `marked`.
-/

namespace Nachos

/-- `divRoundUp(n, s)` of `lib/utility.h`. -/
def divRoundUp (n s : Int) : Int := n.tdiv s + if n.tmod s > 0 then 1 else 0

theorem divRoundUp_of_nonneg {n : Int} (h : 0 ≤ n) (s : Int) :
    divRoundUp n s = n / s + if n % s > 0 then 1 else 0 := by
  rw [divRoundUp, Int.tdiv_eq_ediv_of_nonneg h, Int.tmod_eq_emod_of_nonneg h]

/-- The bits, `BitsInWord` to a word. -/
structure Bitmap where
  numBits : Nat
  map : List (BitVec 32)
  numWords : map.length = (divRoundUp numBits 32).toNat
deriving DecidableEq

namespace Bitmap

/-- `Bitmap::Bitmap(numItems)`: every word zero. -/
def new (numItems : Nat) : Bitmap :=
  ⟨numItems, List.replicate (divRoundUp numItems 32).toNat 0, List.length_replicate⟩

/-- The mask `1 << (which % BitsInWord)`. -/
def mask (which : Nat) : BitVec 32 := 1#32 <<< (which % 32)

/-- The word a bit lives in. -/
def word (b : Bitmap) (which : Nat) : BitVec 32 := b.map.getD (which / 32) 0

def setWord (b : Bitmap) (which : Nat) (w : BitVec 32) : Bitmap :=
  { b with map := b.map.set (which / 32) w, numWords := by rw [List.length_set, b.numWords] }

/-- `Test` past its assertion. -/
def testBit (b : Bitmap) (which : Nat) : Bool := b.word which &&& mask which != 0

/-- `Mark` past its assertion. -/
def markBit (b : Bitmap) (which : Nat) : Bitmap :=
  b.setWord which (b.word which ||| mask which)

/-- `Clear` past its assertion. -/
def clearBit (b : Bitmap) (which : Nat) : Bitmap :=
  b.setWord which (b.word which &&& ~~~(mask which))

/-- The assertion that `which` is a bit of the map. -/
def InRange (b : Bitmap) (which : Int) : Prop := 0 ≤ which ∧ which < b.numBits

instance (b : Bitmap) (which : Int) : Decidable (b.InRange which) :=
  inferInstanceAs (Decidable (_ ∧ _))

/-- `Bitmap::Test`. -/
def test (b : Bitmap) (which : Int) : Option Bool :=
  if b.InRange which then some (b.testBit which.toNat) else none

/-- `Bitmap::Mark`. -/
def mark (b : Bitmap) (which : Int) : Option Bitmap :=
  if b.InRange which then some (b.markBit which.toNat) else none

/-- `Bitmap::Clear`. -/
def clear (b : Bitmap) (which : Int) : Option Bitmap :=
  if b.InRange which then some (b.clearBit which.toNat) else none

/-- `Bitmap::FindAndSet`: the first clear bit, now marked. -/
def findAndSet (b : Bitmap) : Option Nat × Bitmap :=
  match (List.range b.numBits).find? fun i => !b.testBit i with
  | some i => (some i, b.markBit i)
  | none => (none, b)

/-- `Bitmap::NumClear`. -/
def numClear (b : Bitmap) : Nat := (List.range b.numBits).countP fun i => !b.testBit i

/-! ## Words to bits -/

theorem testBit_eq (b : Bitmap) (i : Nat) : b.testBit i = (b.word i).getLsbD (i % 32) := by
  have hlt : i % 32 < 32 := Nat.mod_lt i (by decide)
  rw [testBit, mask, ← BitVec.twoPow_eq]
  cases hbit : (b.word i).getLsbD (i % 32) with
  | false =>
      rw [BitVec.and_twoPow, hbit]
      rfl
  | true =>
      rw [BitVec.and_twoPow, hbit]
      simp only [if_true, bne_iff_ne, ne_eq]
      intro h0
      have h1 := congrArg (fun w => w.getLsbD (i % 32)) h0
      simp [hlt] at h1

theorem word_lt {b : Bitmap} {i : Nat} (h : i < b.numBits) : i / 32 < b.map.length := by
  rw [b.numWords, divRoundUp_of_nonneg (by omega)]
  split <;> omega

theorem word_setWord_same {b : Bitmap} {i j : Nat} (h : i < b.numBits) (hij : j / 32 = i / 32)
    (w : BitVec 32) : (b.setWord i w).word j = w := by
  simp only [word, setWord, hij]
  rw [List.getD_eq_getElem?_getD, List.getElem?_set_self (word_lt h), Option.getD_some]

theorem word_setWord_other {b : Bitmap} {i j : Nat} (hij : j / 32 ≠ i / 32) (w : BitVec 32) :
    (b.setWord i w).word j = b.word j := by
  simp only [word, setWord]
  rw [List.getD_eq_getElem?_getD, List.getD_eq_getElem?_getD,
    List.getElem?_set_ne (fun h => hij h.symm)]

theorem getLsbD_mask (i j : Nat) (hj : j < 32) :
    (mask i).getLsbD j = decide (j = i % 32) := by
  rw [mask, ← BitVec.twoPow_eq, BitVec.getLsbD_twoPow]
  by_cases h : i % 32 = j
  · subst h; simp [hj]
  · have h' : ¬ j = i % 32 := fun e => h e.symm
    simp [h, h']

theorem testBit_markBit {b : Bitmap} {i : Nat} (h : i < b.numBits) (j : Nat) :
    (b.markBit i).testBit j = (decide (j = i) || b.testBit j) := by
  have hlt : j % 32 < 32 := Nat.mod_lt j (by decide)
  rw [testBit_eq, testBit_eq, markBit]
  by_cases hw : j / 32 = i / 32
  · rw [word_setWord_same h hw, BitVec.getLsbD_or, getLsbD_mask i _ hlt,
      show b.word i = b.word j by simp only [word, hw], Bool.or_comm]
    congr 1
    rw [decide_eq_decide]
    omega
  · rw [word_setWord_other hw]
    have hne : ¬ j = i := fun e => hw (by rw [e])
    simp [hne]

theorem testBit_clearBit {b : Bitmap} {i : Nat} (h : i < b.numBits) (j : Nat) :
    (b.clearBit i).testBit j = (!decide (j = i) && b.testBit j) := by
  have hlt : j % 32 < 32 := Nat.mod_lt j (by decide)
  rw [testBit_eq, testBit_eq, clearBit]
  by_cases hw : j / 32 = i / 32
  · rw [word_setWord_same h hw, BitVec.getLsbD_and, BitVec.getLsbD_not, getLsbD_mask i _ hlt,
      show b.word i = b.word j by simp only [word, hw], Bool.and_comm]
    have hiff : decide (j % 32 = i % 32) = decide (j = i) := by
      rw [decide_eq_decide]
      omega
    simp [hlt, hiff]
  · rw [word_setWord_other hw]
    have hne : ¬ j = i := fun e => hw (by rw [e])
    simp [hne]

@[simp] theorem numBits_markBit (b : Bitmap) (i : Nat) : (b.markBit i).numBits = b.numBits := rfl

@[simp] theorem numBits_clearBit (b : Bitmap) (i : Nat) : (b.clearBit i).numBits = b.numBits := rfl

@[simp] theorem numBits_new (n : Nat) : (new n).numBits = n := rfl

@[simp] theorem testBit_new (n i : Nat) : (new n).testBit i = false := by
  rw [testBit_eq, word, new, List.getD_eq_getElem?_getD, List.getElem?_replicate]
  split <;> simp

/-! ## The set of marked bits -/

/-- The marked bits of the map. -/
def marked (b : Bitmap) : Finset Nat := (Finset.range b.numBits).filter fun i => b.testBit i = true

theorem mem_marked {b : Bitmap} {i : Nat} : i ∈ b.marked ↔ i < b.numBits ∧ b.testBit i = true := by
  rw [marked, Finset.mem_filter, Finset.mem_range]

@[simp] theorem marked_new (n : Nat) : (new n).marked = ∅ := by
  ext i
  simp [mem_marked]

theorem marked_markBit {b : Bitmap} {i : Nat} (h : i < b.numBits) :
    (b.markBit i).marked = insert i b.marked := by
  ext j
  rw [mem_marked, Finset.mem_insert, mem_marked, testBit_markBit h, numBits_markBit]
  by_cases hji : j = i
  · subst hji; simp [h]
  · simp [hji]

theorem marked_clearBit {b : Bitmap} {i : Nat} (h : i < b.numBits) :
    (b.clearBit i).marked = b.marked.erase i := by
  ext j
  rw [mem_marked, Finset.mem_erase, mem_marked, testBit_clearBit h, numBits_clearBit]
  by_cases hji : j = i
  · subst hji; simp
  · simp [hji]

theorem marked_subset_range (b : Bitmap) : b.marked ⊆ Finset.range b.numBits :=
  Finset.filter_subset _ _

theorem numClear_eq (b : Bitmap) : b.numClear = b.numBits - b.marked.card := by
  have hcard : b.marked.card = (List.range b.numBits).countP fun i => b.testBit i = true := by
    rw [List.countP_eq_length_filter]
    rfl
  have hlen := List.length_eq_countP_add_countP (fun i => decide (b.testBit i = true))
    (l := List.range b.numBits)
  have hneg : b.numClear = (List.range b.numBits).countP
      fun i => decide ¬decide (b.testBit i = true) = true := by
    rw [numClear]
    congr 1
    funext i
    cases b.testBit i <;> rfl
  rw [List.length_range, ← hcard, ← hneg] at hlen
  omega

@[simp] theorem numClear_new (n : Nat) : (new n).numClear = n := by
  rw [numClear_eq, marked_new, Finset.card_empty, numBits_new, Nat.sub_zero]

/-- What `FindAndSet` does: it marks the least clear bit, or there is none
and it changes nothing. -/
theorem findAndSet_cases (b : Bitmap) :
    (b.findAndSet = (none, b) ∧ ∀ i < b.numBits, b.testBit i = true)
      ∨ ∃ i, b.findAndSet = (some i, b.markBit i) ∧ i < b.numBits ∧ b.testBit i = false
          ∧ ∀ j < i, b.testBit j = true := by
  unfold findAndSet
  cases hf : (List.range b.numBits).find? fun i => !b.testBit i with
  | none =>
      refine Or.inl ⟨rfl, fun i hi => ?_⟩
      have := List.find?_eq_none.mp hf i (List.mem_range.mpr hi)
      simpa using this
  | some i =>
      refine Or.inr ⟨i, rfl, List.mem_range.mp (List.mem_of_find?_eq_some hf), ?_, ?_⟩
      · have := List.find?_some hf
        simpa using this
      · intro j hj
        obtain ⟨-, hmin⟩ := List.find?_range_eq_some.mp hf
        have := hmin.2 j hj
        simpa using this

/-- With a clear bit left, `FindAndSet` marks the least one. -/
theorem findAndSet_of_clear {b : Bitmap} (h : 0 < b.numClear) :
    ∃ i, b.findAndSet = (some i, b.markBit i) ∧ i < b.numBits ∧ b.testBit i = false
      ∧ ∀ j < i, b.testBit j = true := by
  rcases b.findAndSet_cases with ⟨-, hall⟩ | hsome
  · have hzero : b.numClear = 0 := by
      rw [numClear, List.countP_eq_zero]
      intro i hi
      simp [hall i (List.mem_range.mp hi)]
    omega
  · exact hsome

theorem numClear_markBit {b : Bitmap} {i : Nat} (hi : i < b.numBits)
    (hclear : b.testBit i = false) :
    (b.markBit i).numClear + 1 = b.numClear := by
  have hnot : i ∉ b.marked := by
    rw [mem_marked, hclear]
    simp
  have hcard : (insert i b.marked).card ≤ b.numBits := by
    rw [← marked_markBit hi, ← Finset.card_range b.numBits]
    exact Finset.card_le_card (marked_subset_range _)
  rw [Finset.card_insert_of_notMem hnot] at hcard
  rw [numClear_eq, numClear_eq, marked_markBit hi, Finset.card_insert_of_notMem hnot,
    numBits_markBit]
  omega

end Bitmap

end Nachos
