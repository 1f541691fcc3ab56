import Nachos.ByteMemory
import Nachos.CInt

/-!
# Words in byte-addressed memory

An object of a C program is the bytes it occupies, and an `int` in it is
the four bytes at its offset, little-endian. `word` reads one and `setWord`
stores one.
-/

namespace ByteMemory

open CInt

/-- A word written and read back. -/
theorem wrap32_leNat_leBytes {w : Int} (hw : IsInt w) :
    wrap32 (leNat (leBytes 4 (u32 w).toNat)) = w := by
  simp only [IsInt, intMin, intMax] at hw
  rw [leNat_leBytes]
  simp only [wrap32, u32]
  omega

/-- The `int` at `a`. -/
def word (m : Memory) (a : Int) : Int := wrap32 (leNat (read m a 4))

/-- The `int` `w` stored at `a`. -/
def setWord (m : Memory) (a w : Int) : Memory := write m a (leBytes 4 (u32 w).toNat)

theorem word_congr {m m' : Memory} {a b : Int} (h : ∀ x, 0 ≤ x → x < 4 → m' (b + x) = m (a + x)) :
    word m' b = word m a := by
  have hread : read m' b 4 = read m a 4 := by
    refine List.map_congr_left fun t ht => h _ ?_ ?_
    · omega
    · have := List.mem_range.mp ht
      omega
  rw [word, word, hread]

theorem setWord_of_not_mem {m : Memory} {a w x : Int} (h : ¬(a ≤ x ∧ x < a + 4)) :
    setWord m a w x = m x :=
  write_of_not_mem (by rw [length_leBytes]; exact h)

theorem word_setWord {m : Memory} {a w : Int} (hw : IsInt w) : word (setWord m a w) a = w := by
  have hread : read (setWord m a w) a 4 = leBytes 4 (u32 w).toNat := by
    refine List.ext_getElem (by rw [length_read, length_leBytes]) fun i hi hi' => ?_
    rw [length_leBytes] at hi'
    rw [← List.getD_eq_getElem _ 0 hi, getD_read hi', setWord,
      write_of_mem (by omega) (by rw [length_leBytes]; omega), ← List.getD_eq_getElem _ 0]
    congr 1
    omega
  rw [word, hread, wrap32_leNat_leBytes hw]

theorem word_setWord_of_disjoint {m : Memory} {a b w : Int} (h : b + 4 ≤ a ∨ a + 4 ≤ b) :
    word (setWord m a w) b = word m b :=
  word_congr fun _ _ _ => setWord_of_not_mem (by omega)

end ByteMemory
