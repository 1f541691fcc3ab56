import Mathlib.Data.List.Forall2
import Mathlib.Data.List.Nodup

/-!
# Items distributed over buckets

A hash table with chaining, as an array of lists: `index` says for every item
in which of the lists it belongs, and in a table that is `Placed` it is
there. A change of one bucket changes what the table holds by what the bucket
gains or loses (`perm_flatten_set`, and from it `perm_add` and
`perm_remove`). With unique keys a search in the one bucket a key leads to
finds what a search of the whole table would find (`Placed.find?_eq_some`).

The lists may themselves be represented by something else, bucket by bucket;
the lemmas about `List.Forall₂` are for that.
-/

namespace Chaining

variable {α β κ : Type*}

/-! ## Two arrays, entry by entry -/

section Forall₂

variable {R : α → β → Prop} {as : List α} {bs : List β}

theorem getElem?_of_forall₂ (h : List.Forall₂ R as bs) {i : Nat} {b : β} (hb : bs[i]? = some b) :
    ∃ a, as[i]? = some a ∧ R a b := by
  induction h generalizing i with
  | nil => simp at hb
  | cons hab _ ih =>
      cases i with
      | zero => exact ⟨_, rfl, Option.some.inj hb ▸ hab⟩
      | succ i => exact ih hb

theorem getElem?_of_forall₂' (h : List.Forall₂ R as bs) {i : Nat} {a : α} (ha : as[i]? = some a) :
    ∃ b, bs[i]? = some b ∧ R a b := getElem?_of_forall₂ h.flip ha

theorem forall₂_set (h : List.Forall₂ R as bs) (i : Nat) {a : α} {b : β} (hab : R a b) :
    List.Forall₂ R (as.set i a) (bs.set i b) := by
  induction h generalizing i with
  | nil => exact .nil
  | cons hxy hrest ih =>
      cases i with
      | zero => exact .cons hab hrest
      | succ i => exact .cons hxy (ih i)

theorem forall₂_replicate {a : α} {b : β} (hab : R a b) (n : Nat) :
    List.Forall₂ R (List.replicate n a) (List.replicate n b) := by
  induction n with
  | zero => exact .nil
  | succ n ih => exact .cons hab ih

end Forall₂

/-! ## One bucket and the table -/

section Buckets

variable {xss : List (List α)} {xs ys : List α} {x : α} {b : Nat}

/-- What one bucket gains the table gains. -/
theorem perm_flatten_set (hb : xss[b]? = some xs) (ys : List α) :
    ((xss.set b ys).flatten ++ xs).Perm (xss.flatten ++ ys) := by
  induction xss generalizing b with
  | nil => simp at hb
  | cons zs xss ih =>
      cases b with
      | zero =>
          obtain rfl : zs = xs := Option.some.inj hb
          simp only [List.set_cons_zero, List.flatten_cons, List.append_assoc]
          exact List.perm_append_comm.trans (by
            rw [List.append_assoc]
            exact List.perm_append_comm_assoc _ _ _)
      | succ b =>
          simp only [List.set_cons_succ, List.flatten_cons, List.append_assoc]
          exact (ih hb).append_left zs

theorem perm_add (hb : xss[b]? = some xs) (x : α) :
    (xss.set b (xs ++ [x])).flatten.Perm (xss.flatten ++ [x]) := by
  have h := perm_flatten_set hb (xs ++ [x])
  have h' : (xss.flatten ++ (xs ++ [x])).Perm ((xss.flatten ++ [x]) ++ xs) := by
    rw [List.append_assoc]
    exact List.perm_append_comm.append_left _
  exact (List.perm_append_right_iff xs).mp (h.trans h')

theorem perm_remove [DecidableEq α] (hb : xss[b]? = some xs) (hx : x ∈ xs) :
    (x :: (xss.set b (xs.erase x)).flatten).Perm xss.flatten := by
  have h := perm_flatten_set hb (xs.erase x)
  have h' : ((x :: (xss.set b (xs.erase x)).flatten) ++ xs.erase x).Perm
      ((xss.set b (xs.erase x)).flatten ++ xs) :=
    List.perm_middle.symm.trans ((List.perm_cons_erase hx).symm.append_left _)
  exact (List.perm_append_right_iff _).mp (h'.trans h)

variable {index : α → Nat}

/-- Every item is in the bucket it belongs to. -/
def Placed (index : α → Nat) (xss : List (List α)) : Prop :=
  ∀ b xs, xss[b]? = some xs → ∀ x ∈ xs, index x = b

theorem placed_replicate (n : Nat) : Placed index (List.replicate n []) := by
  intro b xs hb x hx
  obtain rfl : xs = [] := (List.mem_replicate.mp (List.mem_of_getElem? hb)).2
  exact absurd hx List.not_mem_nil

theorem Placed.set (h : Placed index xss) (hy : ∀ y ∈ ys, index y = b) :
    Placed index (xss.set b ys) := by
  intro c zs hc z hz
  by_cases hbc : b = c
  · subst hbc
    rw [List.getElem?_set_self'] at hc
    obtain ⟨_, -, rfl⟩ := Option.map_eq_some_iff.mp hc
    exact hy z hz
  · rw [List.getElem?_set_ne hbc] at hc
    exact h c zs hc z hz

/-- What the table holds is found where it belongs. -/
theorem Placed.mem_flatten (h : Placed index xss) :
    x ∈ xss.flatten ↔ ∃ xs, xss[index x]? = some xs ∧ x ∈ xs := by
  constructor
  · intro hx
    obtain ⟨xs, hxs, hx⟩ := List.mem_flatten.mp hx
    obtain ⟨b, hb⟩ := List.mem_iff_getElem?.mp hxs
    exact ⟨xs, h b xs hb x hx ▸ hb, hx⟩
  · rintro ⟨xs, hxs, hx⟩
    exact List.mem_flatten.mpr ⟨xs, List.mem_of_getElem? hxs, hx⟩

theorem nodup_of_getElem? (h : xss.flatten.Nodup) (hb : xss[b]? = some xs) : xs.Nodup :=
  (List.nodup_flatten.mp h).1 xs (List.mem_of_getElem? hb)

/-- With unique keys the search in one bucket is the search in the table. -/
theorem Placed.find?_eq_some [DecidableEq κ] {key : α → κ} {slot : κ → Nat} {k : κ}
    (h : Placed (fun x => slot (key x)) xss) (hnodup : (xss.flatten.map key).Nodup)
    (hb : xss[slot k]? = some xs) :
    xs.find? (fun x => decide (k = key x)) = some x ↔ x ∈ xss.flatten ∧ key x = k := by
  constructor
  · intro hx
    have hmem := List.mem_of_find?_eq_some hx
    have hkey : k = key x := by simpa using List.find?_some hx
    exact ⟨List.mem_flatten.mpr ⟨xs, List.mem_of_getElem? hb, hmem⟩, hkey.symm⟩
  · rintro ⟨hx, rfl⟩
    obtain ⟨ys, hys, hmem⟩ := h.mem_flatten.mp hx
    obtain rfl : ys = xs := Option.some.inj (hys.symm.trans hb)
    cases hfind : ys.find? (fun y => decide (key x = key y)) with
    | none =>
        have hnot := List.find?_eq_none.mp hfind x hmem
        exact absurd (decide_eq_true rfl) hnot
    | some y =>
        have hy : y ∈ xss.flatten :=
          List.mem_flatten.mpr ⟨ys, List.mem_of_getElem? hb, List.mem_of_find?_eq_some hfind⟩
        have hkey : key x = key y := by simpa using List.find?_some hfind
        rw [List.inj_on_of_nodup_map hnodup hx hy hkey]

end Buckets

end Chaining
