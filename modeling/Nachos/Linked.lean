import Mathlib.Data.List.Perm.Subperm
import Mathlib.Logic.Function.Basic

/-!
# Singly linked cells in a heap

A heap has at some addresses a cell with an item and the address of the next
cell. `Seg h p c q` says that whoever follows the `next` fields from `p`
meets the addresses and items of `c`, in this order, and then stands at `q`;
with `q` the null pointer `c` is a whole list. The rules are those a program
that relinks cells needs: segments are joined (`seg_append`), a store outside
a segment leaves it alone (`Seg.frame`), its last cell can be made to point
elsewhere (`Seg.relink`), and a cell in the middle can be taken out
(`Seg.unlink`) or linked in (`Seg.link`).
-/

namespace Linked

variable {α : Type*}

/-- An item and the address of the next cell. -/
structure Cell (α : Type*) where
  item : α
  next : Option Nat

abbrev Heap (α : Type*) := Nat → Option (Cell α)

/-- From `p` through the cells of `c` to `q`. -/
def Seg (h : Heap α) : Option Nat → List (Nat × α) → Option Nat → Prop
  | p, [], q => p = q
  | p, (a, x) :: c, q => p = some a ∧ ∃ n, h a = some ⟨x, n⟩ ∧ Seg h n c q

/-- The addresses of a segment. -/
def addresses (c : List (Nat × α)) : List Nat := c.map Prod.fst

/-- The items of a segment. -/
def items (c : List (Nat × α)) : List α := c.map Prod.snd

variable {h : Heap α} {p q r : Option Nat} {a b : Nat} {x y : α} {c d : List (Nat × α)}

@[simp] theorem addresses_cons : addresses ((a, x) :: c) = a :: addresses c := rfl

@[simp] theorem addresses_append : addresses (c ++ d) = addresses c ++ addresses d :=
  List.map_append

@[simp] theorem items_cons : items ((a, x) :: c) = x :: items c := rfl

@[simp] theorem items_append : items (c ++ d) = items c ++ items d := List.map_append

@[simp] theorem length_items : (items c).length = c.length := List.length_map _

/-- Fuel for a list that is not empty. -/
theorem exists_fuel {β : Type*} {y : β} {ys : List β} {n : Nat} (hn : (y :: ys).length ≤ n) :
    ∃ m, n = m + 1 ∧ ys.length ≤ m := by
  rw [List.length_cons] at hn
  exact ⟨n - 1, by omega, by omega⟩

theorem items_eq_cons {xs : List α} (hc : items c = x :: xs) :
    ∃ a d, c = (a, x) :: d ∧ items d = xs := by
  cases c with
  | nil => cases hc
  | cons ay d =>
      obtain ⟨a, y⟩ := ay
      obtain ⟨rfl, hd⟩ := List.cons.inj hc
      exact ⟨a, d, rfl, hd⟩

theorem seg_cons : Seg h p ((a, x) :: c) q ↔ p = some a ∧ ∃ n, h a = some ⟨x, n⟩ ∧ Seg h n c q :=
  Iff.rfl

theorem seg_append : Seg h p (c ++ d) q ↔ ∃ r, Seg h p c r ∧ Seg h r d q := by
  induction c generalizing p with
  | nil => exact ⟨fun hd => ⟨p, rfl, hd⟩, fun ⟨_, hp, hd⟩ => hp ▸ hd⟩
  | cons ax c ih =>
      obtain ⟨a, x⟩ := ax
      simp only [List.cons_append, seg_cons, ih]
      constructor
      · rintro ⟨hp, n, hn, r, hc, hd⟩
        exact ⟨r, ⟨hp, n, hn, hc⟩, hd⟩
      · rintro ⟨r, ⟨hp, n, hn, hc⟩, hd⟩
        exact ⟨hp, n, hn, r, hc, hd⟩

/-- A segment starts at its first address. -/
theorem Seg.start (hc : Seg h p c none) : p = (addresses c).head? := by
  cases c with
  | nil => exact hc
  | cons ax c => exact hc.1

/-- A store outside the segment. -/
theorem Seg.frame (hc : Seg h p c q) (ha : a ∉ addresses c) (v : Option (Cell α)) :
    Seg (Function.update h a v) p c q := by
  induction c generalizing p with
  | nil => exact hc
  | cons bx c ih =>
      obtain ⟨b, x⟩ := bx
      obtain ⟨hp, n, hn, hc⟩ := hc
      have hab := List.ne_of_not_mem_cons ha
      have hac := List.not_mem_of_not_mem_cons ha
      refine ⟨hp, n, ?_, ih hc hac⟩
      rw [Function.update_of_ne (Ne.symm hab), hn]

/-- The last cell is made to point to `r`. -/
theorem Seg.relink (hc : Seg h p (c ++ [(a, x)]) q) (ha : a ∉ addresses c) :
    Seg (Function.update h a (some ⟨x, r⟩)) p (c ++ [(a, x)]) r := by
  obtain ⟨s, hc, hs, -⟩ := seg_append.mp hc
  refine seg_append.mpr ⟨s, hc.frame ha _, hs, r, ?_, rfl⟩
  rw [Function.update_self]

/-- The cell behind `b` is taken out and its place in the heap given up. -/
theorem Seg.unlink (hc : Seg h p (c ++ (b, y) :: (a, x) :: d) q)
    (hnodup : (addresses (c ++ (b, y) :: (a, x) :: d)).Nodup) :
    ∃ n, h b = some ⟨y, some a⟩ ∧ h a = some ⟨x, n⟩ ∧ Seg h n d q
      ∧ Seg (Function.update (Function.update h b (some ⟨y, n⟩)) a none) p (c ++ (b, y) :: d) q :=
    by
  obtain ⟨s, hc, hs, t, hb, rfl, n, ha, hd⟩ := seg_append.mp hc
  simp only [addresses_append, addresses_cons, List.nodup_append, List.nodup_cons,
    List.mem_cons, not_or] at hnodup
  obtain ⟨-, ⟨⟨hba, hbd⟩, had, -⟩, hdisj⟩ := hnodup
  have hbc : b ∉ addresses c := fun hm => hdisj b hm b (Or.inl rfl) rfl
  have hac : a ∉ addresses c := fun hm => hdisj a hm a (Or.inr (Or.inl rfl)) rfl
  refine ⟨n, hb, ha, hd, seg_append.mpr ⟨s, (hc.frame hbc _).frame hac _, hs, n, ?_,
    (hd.frame hbd _).frame had _⟩⟩
  rw [Function.update_of_ne hba, Function.update_self]

/-- A cell at `b`, outside the segment, is linked in behind `a`. -/
theorem Seg.link (hc : Seg h p (c ++ (a, x) :: d) q)
    (hnodup : (addresses (c ++ (a, x) :: d)).Nodup) (hb : b ∉ addresses (c ++ (a, x) :: d)) :
    ∃ n, h a = some ⟨x, n⟩ ∧ Seg h n d q
      ∧ Seg (Function.update (Function.update h b (some ⟨y, n⟩)) a (some ⟨x, some b⟩)) p
          (c ++ (a, x) :: (b, y) :: d) q := by
  obtain ⟨s, hc, hs, n, ha, hd⟩ := seg_append.mp hc
  simp only [addresses_append, addresses_cons, List.nodup_append, List.nodup_cons] at hnodup
  obtain ⟨-, ⟨had, -⟩, hdisj⟩ := hnodup
  simp only [addresses_append, addresses_cons, List.mem_append, List.mem_cons, not_or] at hb
  obtain ⟨hbc, hba, hbd⟩ := hb
  have hac : a ∉ addresses c := fun hm => hdisj a hm a List.mem_cons_self rfl
  refine ⟨n, ha, hd, seg_append.mpr ⟨s, (hc.frame hbc _).frame hac _, hs, some b, ?_, rfl, n, ?_,
    (hd.frame hbd _).frame had _⟩⟩
  · rw [Function.update_self]
  · rw [Function.update_of_ne hba, Function.update_self]

/-- Different addresses below `n` are at most `n`. -/
theorem length_le_of_nodup (hnodup : (addresses c).Nodup) {n : Nat}
    (hlt : ∀ a ∈ addresses c, a < n) : c.length ≤ n := by
  have hsub : addresses c ⊆ List.range n := fun a ha => List.mem_range.mpr (hlt a ha)
  have hle := (hnodup.subperm hsub).length_le
  rwa [addresses, List.length_map, List.length_range] at hle

end Linked
