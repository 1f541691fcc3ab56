import Mathlib.Data.List.Basic

/-!
# Insertion into a sorted list by a comparison function

The comparison answers with a number whose sign counts, as C comparison
functions do. The new item goes in front of the first element that compares
greater than it, so it goes behind all that compare equal: `pairwise_insert`
is stated for any relation that follows the comparison, in particular for
one that settles ties by age.

For a comparison that is a total preorder, a list into which all items have
been inserted one after another is a queue by priority: `Stable q l` says
that `l` is sorted and has the items of `q`, the order of arrival, with ties
in that order. Insertion and removal keep it, and the head of `l` is the
first of the minimal items of `q`.
-/

namespace SortedList

variable {α : Type*}

/-- `item` put in front of the first element that compares greater. -/
def insert (compare : α → α → Int) (item : α) : List α → List α
  | [] => [item]
  | x :: xs => if compare item x < 0 then item :: x :: xs else x :: insert compare item xs

variable {compare : α → α → Int} {item : α} {l : List α}

theorem perm_insert : (insert compare item l).Perm (item :: l) := by
  induction l with
  | nil => exact List.Perm.refl _
  | cons x xs ih =>
      rw [insert]
      split
      · exact List.Perm.refl _
      · exact (ih.cons x).trans (List.Perm.swap item x xs)

theorem mem_insert {y : α} : y ∈ insert compare item l ↔ y = item ∨ y ∈ l := by
  rw [perm_insert.mem_iff, List.mem_cons]

/-- A relation that holds between neighbours of the new item on either side
holds throughout the new list. -/
theorem pairwise_insert {R : α → α → Prop} (hl : l.Pairwise R)
    (hbefore : ∀ x ∈ l, ¬compare item x < 0 → R x item)
    (hafter : ∀ x ∈ l, compare item x < 0 → R item x)
    (htrans : ∀ x y, R item x → R x y → R item y) : (insert compare item l).Pairwise R := by
  induction l with
  | nil => exact List.pairwise_singleton R item
  | cons x xs ih =>
      obtain ⟨hx, hxs⟩ := List.pairwise_cons.mp hl
      rw [insert]
      split
      next hlt =>
        have hitem := hafter x List.mem_cons_self hlt
        refine List.pairwise_cons.mpr ⟨fun y hy => ?_, hl⟩
        rcases List.mem_cons.mp hy with rfl | hy
        · exact hitem
        · exact htrans x y hitem (hx y hy)
      next hge =>
        refine List.pairwise_cons.mpr ⟨fun y hy => ?_, ih hxs
          (fun z hz => hbefore z (List.mem_cons_of_mem _ hz))
          (fun z hz => hafter z (List.mem_cons_of_mem _ hz))⟩
        rcases mem_insert.mp hy with rfl | hy
        · exact hbefore x List.mem_cons_self hge
        · exact hx y hy

/-! ## Comparisons that are total preorders -/

/-- The sign of the comparison is that of a total preorder. -/
structure Comparison (compare : α → α → Int) : Prop where
  flip : ∀ x y, compare x y < 0 ↔ 0 < compare y x
  trans : ∀ x y z, compare x y ≤ 0 → compare y z ≤ 0 → compare x z ≤ 0

section Preorder

variable {x y z : α}

theorem Comparison.self (hc : Comparison compare) (x : α) : compare x x = 0 := by
  have := hc.flip x x
  omega

theorem Comparison.tie_comm (hc : Comparison compare) : compare x y = 0 ↔ compare y x = 0 := by
  have := hc.flip x y
  have := hc.flip y x
  omega

theorem Comparison.le_of_not_lt (hc : Comparison compare) (h : ¬compare x y < 0) :
    compare y x ≤ 0 := by
  have := hc.flip x y
  omega

theorem Comparison.lt_of_lt_of_le (hc : Comparison compare) (hxy : compare x y < 0)
    (hyz : compare y z ≤ 0) : compare x z < 0 := by
  by_contra hxz
  have hyx := hc.trans y z x hyz (hc.le_of_not_lt hxz)
  have := hc.flip x y
  omega

/-- What comes after an item comes after those tied with it. -/
theorem Comparison.lt_of_tie (hc : Comparison compare) (hzx : compare z x = 0)
    (hxy : compare x y < 0) : compare z y < 0 := by
  by_contra hzy
  have hyx := hc.trans y z x (hc.le_of_not_lt hzy) (by omega)
  have := hc.flip x y
  omega

/-- The new item goes between those it does not precede and those it does. -/
theorem insert_eq_append (hc : Comparison compare) (item : α)
    (hl : l.Pairwise fun x y => compare x y ≤ 0) :
    ∃ l₁ l₂, l = l₁ ++ l₂ ∧ insert compare item l = l₁ ++ item :: l₂
      ∧ (∀ x ∈ l₁, compare x item ≤ 0) ∧ ∀ x ∈ l₂, compare item x < 0 := by
  induction l with
  | nil =>
      exact ⟨[], [], rfl, rfl, fun _ hx => absurd hx List.not_mem_nil,
        fun _ hx => absurd hx List.not_mem_nil⟩
  | cons y ys ih =>
      obtain ⟨hy, hys⟩ := List.pairwise_cons.mp hl
      rw [insert]
      split
      next hlt =>
          refine ⟨[], y :: ys, rfl, rfl, fun _ hx => absurd hx List.not_mem_nil, fun x hx => ?_⟩
          rcases List.mem_cons.mp hx with rfl | hx
          · exact hlt
          · exact hc.lt_of_lt_of_le hlt (hy x hx)
      next hge =>
          obtain ⟨l₁, l₂, rfl, heq, hbefore, hafter⟩ := ih hys
          refine ⟨y :: l₁, l₂, rfl, by rw [heq]; rfl, fun x hx => ?_, hafter⟩
          rcases List.mem_cons.mp hx with rfl | hx
          · exact hc.le_of_not_lt hge
          · exact hbefore x hx

/-- Insertion keeps a list sorted. -/
theorem sorted_insert (hc : Comparison compare) (item : α)
    (hl : l.Pairwise fun x y => compare x y ≤ 0) :
    (insert compare item l).Pairwise fun x y => compare x y ≤ 0 :=
  pairwise_insert hl (fun _ _ => hc.le_of_not_lt) (fun _ _ hlt => by omega)
    fun x y => hc.trans item x y

end Preorder

/-! ## Queues by priority -/

/-- The items of `q`, sorted, and tied ones in the order of `q`. -/
structure Stable (compare : α → α → Int) (q l : List α) : Prop where
  sorted : l.Pairwise fun x y => compare x y ≤ 0
  perm : l.Perm q
  ties : ∀ z, (l.filter fun y => compare z y = 0) = q.filter fun y => compare z y = 0

/-- The first of the minimal items of `q`. -/
def earliestMin (compare : α → α → Int) (q : List α) : Option α :=
  q.find? fun x => q.all fun y => compare x y ≤ 0

section Queue

variable {q : List α} {x : α}

theorem stable_nil : Stable compare [] [] := ⟨List.Pairwise.nil, List.Perm.refl _, fun _ => rfl⟩

theorem Stable.insert (hc : Comparison compare) (h : Stable compare q l) :
    Stable compare (q ++ [item]) (insert compare item l) := by
  refine ⟨sorted_insert hc item h.sorted,
    perm_insert.trans ((h.perm.cons item).trans (List.perm_append_singleton item q).symm),
    fun z => ?_⟩
  obtain ⟨l₁, l₂, hl, heq, -, hafter⟩ := insert_eq_append hc item h.sorted
  have hties := h.ties z
  rw [hl, List.filter_append] at hties
  rw [heq, List.filter_append, List.filter_append, ← hties, List.append_assoc]
  by_cases hz : compare z item = 0
  · have hnone : (l₂.filter fun y => compare z y = 0) = [] := by
      refine List.filter_eq_nil_iff.mpr fun y hy => ?_
      have := hc.lt_of_tie hz (hafter y hy)
      rw [decide_eq_true_eq]
      omega
    simp only [List.filter_cons, hz, decide_true, if_true, hnone, List.filter_nil,
      List.nil_append]
  · simp only [List.filter_cons, hz, decide_false, Bool.false_eq_true, if_false,
      List.filter_nil, List.append_nil]

theorem Stable.erase [DecidableEq α] (h : Stable compare q l) (hq : q.Nodup) (x : α) :
    Stable compare (q.erase x) (l.erase x) := by
  have hl : l.Nodup := h.perm.nodup_iff.mpr hq
  refine ⟨h.sorted.sublist List.erase_sublist, h.perm.erase x, fun z => ?_⟩
  rw [hl.erase_eq_filter, hq.erase_eq_filter, List.filter_comm, h.ties z, List.filter_comm]

/-- The head of the sorted list. -/
theorem Stable.earliestMin_eq (hc : Comparison compare) (h : Stable compare q (x :: l)) :
    earliestMin compare q = some x := by
  have hfirst : ∀ y ∈ q, compare x y ≤ 0 := by
    intro y hy
    rcases List.mem_cons.mp (h.perm.mem_iff.mpr hy) with rfl | hy
    · exact Int.le_of_eq (hc.self y)
    · exact (List.pairwise_cons.mp h.sorted).1 y hy
  have hmem : x ∈ q := h.perm.mem_iff.mp List.mem_cons_self
  have hminimal : (q.filter fun y => q.all fun z => compare y z ≤ 0)
      = q.filter fun y => compare x y = 0 := by
    refine List.filter_congr fun y hy => ?_
    rw [Bool.eq_iff_iff, List.all_eq_true, decide_eq_true_eq]
    constructor
    · intro hall
      have hyx := of_decide_eq_true (hall x hmem)
      have hxy := hfirst y hy
      have := hc.flip x y
      omega
    · intro htie z hz
      exact decide_eq_true (hc.trans y x z (Int.le_of_eq (hc.tie_comm.mp htie)) (hfirst z hz))
  rw [earliestMin, ← List.head?_filter, hminimal, ← h.ties x, List.filter_cons,
    if_pos (decide_eq_true (hc.self x)), List.head?_cons]

end Queue

end SortedList
