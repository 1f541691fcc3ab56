import Mathlib.Data.List.GetD
import Mathlib.Data.List.TakeDrop
import Mathlib.Tactic.Common
import Mathlib.Tactic.Ring

/-!
# Byte-addressed memory and little-endian numbers

A memory is a byte for every integer address; a program's own region is an
interval of it, and an address outside is still an address, so that a store
that leaves its region is a store like any other. `write` puts a list of
bytes at an address and `read` takes as many as asked for. Stores side by
side are one store (`write_append`), so a loop that stores piece by piece is
compared with the one store it amounts to.

`leBytes w v` are the `w` low-order bytes of `v`, least significant first,
and `leNat` reads such a list back.
-/

namespace ByteMemory

/-- A byte at every address. -/
abbrev Memory := Int → UInt8

/-- The bytes `bs` stored at `a`, `a + 1`, and so on. -/
def write (m : Memory) (a : Int) (bs : List UInt8) : Memory := fun x =>
  if a ≤ x ∧ x < a + bs.length then bs.getD (x - a).toNat 0 else m x

theorem write_of_mem {m : Memory} {a x : Int} {bs : List UInt8} (hlo : a ≤ x)
    (hhi : x < a + bs.length) : write m a bs x = bs.getD (x - a).toNat 0 := by
  rw [write, if_pos ⟨hlo, hhi⟩]

theorem write_of_not_mem {m : Memory} {a x : Int} {bs : List UInt8}
    (h : ¬(a ≤ x ∧ x < a + bs.length)) : write m a bs x = m x := by
  rw [write, if_neg h]

/-- Bytes stored from address 0 on over zeros. -/
theorem write_zeros (bs : List UInt8) {a : Int} (hlo : 0 ≤ a) :
    write (fun _ => 0) 0 bs a = bs.getD a.toNat 0 := by
  by_cases hhi : a < bs.length
  · rw [write_of_mem hlo (by omega), Int.sub_zero]
  · rw [write_of_not_mem (by omega), List.getD_eq_default _ _ (by omega)]

theorem some_write {m : Memory} {a x : Int} {bs : List UInt8} (hlo : a ≤ x)
    (hhi : x < a + bs.length) : some (write m a bs x) = bs[(x - a).toNat]? := by
  have hlt : (x - a).toNat < bs.length := by omega
  rw [write_of_mem hlo hhi, List.getD_eq_getElem _ _ hlt, List.getElem?_eq_getElem hlt]

@[simp] theorem write_nil (m : Memory) (a : Int) : write m a [] = m := by
  funext x
  refine write_of_not_mem ?_
  rw [List.length_nil]
  omega

/-- Zeros stored leave a zero a zero. -/
theorem write_eq_zero {m : Memory} {a x : Int} {bs : List UInt8} (hbs : ∀ b ∈ bs, b = 0)
    (hx : m x = 0) : write m a bs x = 0 := by
  by_cases hin : a ≤ x ∧ x < a + bs.length
  · have hlt : (x - a).toNat < bs.length := by omega
    rw [write_of_mem hin.1 hin.2, List.getD_eq_getElem _ _ hlt]
    exact hbs _ (List.getElem_mem hlt)
  · rw [write_of_not_mem hin, hx]

/-- Two stores side by side are one store. -/
theorem write_append (m : Memory) (a : Int) (bs cs : List UInt8) :
    write (write m a bs) (a + bs.length) cs = write m a (bs ++ cs) := by
  funext x
  have hlen : ((bs ++ cs).length : Int) = bs.length + cs.length := by
    rw [List.length_append]
    push_cast
    rfl
  by_cases hsecond : a + bs.length ≤ x ∧ x < a + bs.length + cs.length
  · rw [write_of_mem hsecond.1 hsecond.2, write_of_mem (by omega) (by omega),
      List.getD_append_right _ _ _ _ (by omega)]
    congr 1
    omega
  · rw [write_of_not_mem hsecond]
    by_cases hfirst : a ≤ x ∧ x < a + bs.length
    · rw [write_of_mem hfirst.1 hfirst.2, write_of_mem hfirst.1 (by omega),
        List.getD_append _ _ _ _ (by omega)]
    · rw [write_of_not_mem hfirst, write_of_not_mem (by omega)]

/-- The `n` bytes from `a` on. -/
def read (m : Memory) (a : Int) (n : Nat) : List UInt8 :=
  (List.range n).map fun t : Nat => m (a + t)

theorem read_congr {m m' : Memory} {a : Int} {n : Nat}
    (h : ∀ x, a ≤ x → x < a + n → m' x = m x) : read m' a n = read m a n := by
  refine List.map_congr_left fun t ht => h _ ?_ ?_
  · omega
  · have := List.mem_range.mp ht
    omega

@[simp] theorem length_read (m : Memory) (a : Int) (n : Nat) : (read m a n).length = n := by
  rw [read, List.length_map, List.length_range]

theorem getD_read {m : Memory} {a : Int} {n i : Nat} (hi : i < n) :
    (read m a n).getD i 0 = m (a + i) := by
  rw [List.getD_eq_getElem _ _ (by rwa [length_read])]
  simp [read]

theorem read_add (m : Memory) (a : Int) (n k : Nat) :
    read m a (n + k) = read m a n ++ read m (a + n) k := by
  rw [read, read, read, List.range_add, List.map_append, List.map_map]
  congr 1
  refine List.map_congr_left fun t _ => ?_
  simp only [Function.comp_apply]
  congr 1
  omega

/-- A part of what was stored, read back. -/
theorem read_write {m : Memory} {a : Int} {bs : List UInt8} {k n : Nat} (h : k + n ≤ bs.length) :
    read (write m a bs) (a + k) n = (bs.drop k).take n := by
  refine List.ext_getElem (by simp; omega) fun i hi hi' => ?_
  rw [length_read] at hi
  rw [← List.getD_eq_getElem _ 0, getD_read hi, write_of_mem (by omega) (by omega),
    List.getElem_take, List.getElem_drop, List.getD_eq_getElem _ 0 (by omega)]
  exact getElem_congr_idx (by omega)

/-- A block of bytes copied from `b` to `a`. -/
theorem write_read_of_mem {m m' : Memory} {a b x : Int} {n : Nat} (hlo : a ≤ x) (hhi : x < a + n) :
    write m a (read m' b n) x = m' (b + (x - a)) := by
  rw [write_of_mem hlo (by rwa [length_read]), getD_read (by omega)]
  congr 1
  omega

theorem write_read_of_not_mem {m m' : Memory} {a b x : Int} {n : Nat}
    (h : ¬(a ≤ x ∧ x < a + n)) : write m a (read m' b n) x = m x :=
  write_of_not_mem (by rwa [length_read])

/-- A part of what was read. -/
theorem take_drop_read (m : Memory) (a : Int) (n k j : Nat) :
    ((read m a n).drop k).take j = read m (a + k) (min j (n - k)) := by
  refine List.ext_getElem (by simp) fun i hi hi' => ?_
  simp only [read, List.getElem_take, List.getElem_drop, List.getElem_map, List.getElem_range]
  exact congrArg m (by omega)

/-- The `w` low-order bytes of `v`, least significant first. -/
def leBytes : Nat → Nat → List UInt8
  | 0, _ => []
  | w + 1, v => UInt8.ofNat v :: leBytes w (v / 256)

/-- The number a list of bytes spells, least significant first. -/
def leNat : List UInt8 → Nat
  | [] => 0
  | b :: bs => b.toNat + 256 * leNat bs

@[simp] theorem length_leBytes (w v : Nat) : (leBytes w v).length = w := by
  induction w generalizing v with
  | zero => rfl
  | succ w ih => rw [leBytes, List.length_cons, ih]

theorem leNat_leBytes (w v : Nat) : leNat (leBytes w v) = v % 256 ^ w := by
  induction w generalizing v with
  | zero => rw [leBytes, leNat, pow_zero, Nat.mod_one]
  | succ w ih =>
      have hmod : v % 256 ^ (w + 1) = v % 256 + 256 * (v / 256 % 256 ^ w) := by
        rw [pow_succ', Nat.mod_mul]
      rw [leBytes, leNat, ih, UInt8.toNat_ofNat', hmod]

theorem length_flatMap_leBytes (w : Nat) (vs : List Nat) :
    (vs.flatMap (leBytes w)).length = w * vs.length := by
  induction vs with
  | nil => rfl
  | cons v vs ih =>
      rw [List.flatMap_cons, List.length_append, length_leBytes, ih, List.length_cons,
        Nat.mul_add, Nat.mul_one, Nat.add_comm]

/-- Fixed-width fields one after the other: the `i`-th is found at its
place. -/
theorem take_drop_flatMap {α : Type*} {f : α → List UInt8} {w : Nat} (xs : List α)
    (hf : ∀ x ∈ xs, (f x).length = w) (rest : List UInt8) (i : Nat) (hi : i < xs.length) :
    ((xs.flatMap f ++ rest).drop (w * i)).take w = f xs[i] := by
  induction xs generalizing i with
  | nil => exact absurd hi (Nat.not_lt_zero i)
  | cons x xs ih =>
      have hx := hf x List.mem_cons_self
      rw [List.flatMap_cons, List.append_assoc]
      cases i with
      | zero =>
          rw [Nat.mul_zero, List.drop_zero, List.take_append_of_le_length (Nat.le_of_eq hx.symm),
            List.take_of_length_le (Nat.le_of_eq hx), List.getElem_cons_zero]
      | succ i =>
          have hsplit : w * (i + 1) = (f x).length + w * i := by
            rw [hx]; ring
          rw [hsplit, List.drop_length_add_append, List.getElem_cons_succ]
          exact ih (fun y hy => hf y (List.mem_cons_of_mem _ hy)) i (Nat.lt_of_succ_lt_succ hi)

theorem take_drop_flatMap_leBytes (w : Nat) (vs : List Nat) (rest : List UInt8) (i : Nat)
    (hi : i < vs.length) :
    ((vs.flatMap (leBytes w) ++ rest).drop (w * i)).take w = leBytes w (vs.getD i 0) := by
  rw [take_drop_flatMap vs (fun v _ => length_leBytes w v) rest i hi, List.getD_eq_getElem]

/-- A bit of a number is a bit of one of its bytes. -/
theorem testBit_leNat (bytes : List UInt8) :
    ∀ j, (leNat bytes).testBit j = (bytes.getD (j / 8) 0).toBitVec.getLsbD (j % 8) := by
  induction bytes with
  | nil => intro j; simp [leNat]
  | cons b bs ih =>
      intro j
      have hb : b.toNat < 2 ^ 8 := b.toNat_lt
      rw [leNat, Nat.add_comm, show 256 = 2 ^ 8 from rfl, Nat.testBit_two_pow_mul_add _ hb]
      by_cases hj : j < 8
      · rw [if_pos hj, Nat.div_eq_of_lt hj, Nat.mod_eq_of_lt hj]
        rfl
      · have hdiv : j / 8 = (j - 8) / 8 + 1 := by omega
        have hmod : j % 8 = (j - 8) % 8 := by omega
        rw [if_neg hj, ih, hdiv, hmod]
        rfl

end ByteMemory
