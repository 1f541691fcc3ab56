import Mathlib.Data.List.Nodup
import Mathlib.Logic.Function.Basic

/-!
# Units and their holders

A pool of units, a map that says which are taken, and holders that each
keep a list of the units they took. `Tracks` is the invariant that relates
the two sides: no unit is held twice, by one holder or by two, and the map
marks exactly the units held. It holds when one holder has them all
(`Tracks.alone`), and it is kept when a holder takes a unit that is free
(`Tracks.take`, `Tracks.takeAll`) and when it gives back the first of its
units (`Tracks.give`) or all of them (`Tracks.giveAll`); what the pool and
the units are does not matter.
-/

namespace Ownership

variable {ι ρ : Type*}

/-- The units marked `taken` are those on the holders' lists, each once. -/
structure Tracks (taken : ρ → Prop) (held : ι → List ρ) : Prop where
  nodup : ∀ p, (held p).Nodup
  disjoint : ∀ p q, p ≠ q → ∀ x ∈ held p, x ∉ held q
  taken : ∀ x, taken x ↔ ∃ p, x ∈ held p

variable [DecidableEq ι] {taken taken' : ρ → Prop} {held : ι → List ρ} {p : ι} {x : ρ}

omit [DecidableEq ι] in
/-- One holder has all the units that are taken. -/
theorem Tracks.alone (hnd : (held p).Nodup) (hothers : ∀ q, q ≠ p → held q = [])
    (ht : ∀ y, taken y ↔ y ∈ held p) : Tracks taken held := by
  have hmem : ∀ q y, y ∈ held q → q = p := fun q y hy =>
    by_contra fun hq => List.not_mem_nil (hothers q hq ▸ hy)
  refine ⟨fun q => ?_, fun q r hqr y hq hr => hqr ((hmem q y hq).trans (hmem r y hr).symm),
    fun y => (ht y).trans ⟨fun hy => ⟨p, hy⟩, fun ⟨q, hq⟩ => hmem q y hq ▸ hq⟩⟩
  by_cases hq : q = p
  · rwa [hq]
  · rw [hothers q hq]
    exact List.nodup_nil

/-- A free unit goes to the end of a holder's list. -/
theorem Tracks.take (h : Tracks taken held) (hx : ¬taken x)
    (ht : ∀ y, taken' y ↔ taken y ∨ y = x) :
    Tracks taken' (Function.update held p (held p ++ [x])) := by
  have hfree : ∀ q, x ∉ held q := fun q hq => hx ((h.taken x).mpr ⟨q, hq⟩)
  have hmem : ∀ q y, y ∈ Function.update held p (held p ++ [x]) q →
      y ∈ held q ∨ y = x ∧ q = p := by
    intro q y hy
    by_cases hqp : q = p
    · subst hqp
      rw [Function.update_self, List.mem_append, List.mem_singleton] at hy
      exact hy.imp_right fun hyx => ⟨hyx, rfl⟩
    · rw [Function.update_of_ne hqp] at hy
      exact Or.inl hy
  refine ⟨fun q => ?_, fun q r hqr y hq hr => ?_, fun y => ?_⟩
  · by_cases hqp : q = p
    · subst hqp
      rw [Function.update_self]
      refine List.nodup_append.mpr ⟨h.nodup q, List.nodup_singleton x, ?_⟩
      rintro a ha b hb rfl
      exact hfree q (List.mem_singleton.mp hb ▸ ha)
    · rw [Function.update_of_ne hqp]
      exact h.nodup q
  · rcases hmem q y hq with hq' | ⟨hyx, hqp⟩
    · rcases hmem r y hr with hr' | ⟨hyx, -⟩
      · exact h.disjoint q r hqr y hq' hr'
      · exact hfree q (hyx ▸ hq')
    · rcases hmem r y hr with hr' | ⟨-, hrp⟩
      · exact hfree r (hyx ▸ hr')
      · exact hqr (hqp.trans hrp.symm)
  · rw [ht, h.taken]
    constructor
    · rintro (⟨q, hq⟩ | rfl)
      · refine ⟨q, ?_⟩
        by_cases hqp : q = p
        · subst hqp
          rw [Function.update_self]
          exact List.mem_append_left _ hq
        · rwa [Function.update_of_ne hqp]
      · exact ⟨p, by rw [Function.update_self]; exact List.mem_append_right _ List.mem_cons_self⟩
    · rintro ⟨q, hq⟩
      rcases hmem q y hq with hq | ⟨rfl, -⟩
      · exact Or.inl ⟨q, hq⟩
      · exact Or.inr rfl

/-- The first unit of a holder's list goes back. -/
theorem Tracks.give {rest : List ρ} (h : Tracks taken held) (hp : held p = x :: rest)
    (ht : ∀ y, taken' y ↔ taken y ∧ y ≠ x) : Tracks taken' (Function.update held p rest) := by
  have hnd := h.nodup p
  rw [hp] at hnd
  have hx : x ∉ rest := (List.nodup_cons.mp hnd).1
  have hmem : ∀ q y, y ∈ Function.update held p rest q → y ∈ held q := by
    intro q y hy
    by_cases hqp : q = p
    · subst hqp
      rw [Function.update_self] at hy
      rw [hp]
      exact List.mem_cons_of_mem _ hy
    · rwa [Function.update_of_ne hqp] at hy
  refine ⟨fun q => ?_, fun q r hqr y hq hr => h.disjoint q r hqr y (hmem q y hq) (hmem r y hr),
    fun y => ?_⟩
  · by_cases hqp : q = p
    · subst hqp
      rw [Function.update_self]
      exact (List.nodup_cons.mp hnd).2
    · rw [Function.update_of_ne hqp]
      exact h.nodup q
  · rw [ht, h.taken]
    constructor
    · rintro ⟨⟨q, hq⟩, hne⟩
      refine ⟨q, ?_⟩
      by_cases hqp : q = p
      · subst hqp
        rw [hp] at hq
        rw [Function.update_self]
        exact (List.mem_cons.mp hq).resolve_left hne
      · rwa [Function.update_of_ne hqp]
    · rintro ⟨q, hq⟩
      refine ⟨⟨q, hmem q y hq⟩, ?_⟩
      rintro rfl
      by_cases hqp : q = p
      · subst hqp
        rw [Function.update_self] at hq
        exact hx hq
      · refine h.disjoint p q (fun e => hqp e.symm) y ?_ (hmem q y hq)
        rw [hp]
        exact List.mem_cons_self

/-- Several free units go to the end of a holder's list. -/
theorem Tracks.takeAll {xs : List ρ} (h : Tracks taken held) (hnd : xs.Nodup)
    (hfree : ∀ x ∈ xs, ¬taken x) (ht : ∀ y, taken' y ↔ taken y ∨ y ∈ xs) :
    Tracks taken' (Function.update held p (held p ++ xs)) := by
  induction xs generalizing taken held with
  | nil =>
      rw [List.append_nil, Function.update_eq_self]
      exact ⟨h.nodup, h.disjoint, fun y => (ht y).trans (by simp [h.taken])⟩
  | cons x xs ih =>
      obtain ⟨hx, hnd'⟩ := List.nodup_cons.mp hnd
      have hfirst : Tracks (fun y => taken y ∨ y = x) (Function.update held p (held p ++ [x])) :=
        h.take (hfree x List.mem_cons_self) fun _ => Iff.rfl
      have hrest : ∀ y ∈ xs, ¬(taken y ∨ y = x) := by
        rintro y hy (hy' | rfl)
        · exact hfree y (List.mem_cons_of_mem _ hy) hy'
        · exact hx hy
      have := ih hfirst hnd' hrest fun y => (ht y).trans (by rw [List.mem_cons, or_assoc])
      rw [Function.update_self, Function.update_idem, List.append_assoc] at this
      exact this

/-- All units of a holder go back. -/
theorem Tracks.giveAll {xs : List ρ} (h : Tracks taken held) (hp : held p = xs)
    (ht : ∀ y, taken' y ↔ taken y ∧ y ∉ xs) : Tracks taken' (Function.update held p []) := by
  induction xs generalizing taken held with
  | nil =>
      rw [← hp, Function.update_eq_self]
      exact ⟨h.nodup, h.disjoint, fun y => (ht y).trans (by simp [h.taken])⟩
  | cons x xs ih =>
      have hfirst : Tracks (fun y => taken y ∧ y ≠ x) (Function.update held p xs) :=
        h.give hp fun _ => Iff.rfl
      have := ih hfirst (Function.update_self _ _ _)
        fun y => (ht y).trans (by rw [List.mem_cons, not_or, and_assoc])
      rw [Function.update_idem] at this
      exact this

end Ownership
