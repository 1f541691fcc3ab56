import Nachos.STable

/-!
# The names of user semaphores

`STable` keeps its entries in two places, the bitmap `mSemBitMap` and the
array `semTable`, which `FindAndSet` and an assignment behind it change one
after the other; the names are only kept apart by the search that `Create`
starts with. `Named` is the invariant: the two agree, and no two entries have
one name. It makes the search for a name exact (`Named.find_eq_some_iff`), and
what each call does follows from there (`Lawful`). Nothing is assumed of the
values: an overflow or a negative initial value does not touch the names.
-/

namespace Nachos

namespace STable

open Run

/-- Entry `i` has the name `name`. -/
def State.HasName (s : State) (i : Nat) (name : String) : Prop :=
  ∃ x, s.semTable i = some x ∧ x.name = name

structure Named (s : State) : Prop where
  numBits : s.mSemBitMap.numBits = maxSemaphore
  bits : ∀ i < maxSemaphore, s.mSemBitMap.testBit i = true ↔ s.semTable i ≠ none
  beyond : ∀ i, maxSemaphore ≤ i → s.semTable i = none
  names : ∀ i j name, s.HasName i name → s.HasName j name → i = j

section

variable {s s' : State} {name : String} {i : Nat}

/-! ## The search -/

theorem Named.lt (h : Named s) (hi : s.semTable i ≠ none) : i < maxSemaphore := by
  by_contra hge
  exact hi (h.beyond i (by omega))

/-- An entry the search looks at and takes. -/
theorem Named.matches_iff (h : Named s) (hi : i < maxSemaphore) :
    (s.mSemBitMap.testBit i && (s.semTable i).any fun x => x.name == name) = true
      ↔ s.HasName i name := by
  rw [Bool.and_eq_true, h.bits i hi]
  cases hx : s.semTable i with
  | none => simp [State.HasName, hx]
  | some x => simp [State.HasName, hx]

theorem Named.find_eq_some_iff (h : Named s) : s.find name = some i ↔ s.HasName i name := by
  rw [State.find, List.find?_range_eq_some]
  constructor
  · rintro ⟨hmatch, hi, -⟩
    exact (h.matches_iff (List.mem_range.mp hi)).mp hmatch
  · intro hname
    obtain ⟨x, hx, hxn⟩ := id hname
    have hi : i < maxSemaphore := h.lt (by rw [hx]; exact Option.some_ne_none x)
    refine ⟨(h.matches_iff hi).mpr hname, List.mem_range.mpr hi, fun j hj => ?_⟩
    have hj' : j < maxSemaphore := by omega
    rw [Bool.not_eq_true', ← Bool.not_eq_true, h.matches_iff hj']
    exact fun hother => absurd (h.names j i name hother hname) (by omega)

theorem Named.find_eq_none_iff (h : Named s) : s.find name = none ↔ ∀ i, ¬s.HasName i name := by
  constructor
  · intro hnone i hi
    rw [h.find_eq_some_iff.mpr hi] at hnone
    cases hnone
  · intro hno
    cases hf : s.find name with
    | none => rfl
    | some i => exact absurd (h.find_eq_some_iff.mp hf) (hno i)

/-! ## The calls keep the names -/

theorem setSem_ne_none {x : Sem} {j : Nat} :
    (s.setSem i x).semTable j ≠ none ↔ j = i ∨ s.semTable j ≠ none := by
  by_cases hj : j = i
  · subst hj
    simp [State.setSem]
  · simp [State.setSem, hj]

theorem hasName_setSem {x : Sem} {j : Nat} :
    (s.setSem i x).HasName j name ↔ j = i ∧ x.name = name ∨ j ≠ i ∧ s.HasName j name := by
  by_cases hj : j = i
  · subst hj
    simp [State.HasName, State.setSem]
  · simp [State.HasName, State.setSem, hj]

/-- An operation on one semaphore. -/
theorem Named.setRun {x : Sem} (h : Named s) (hx : s.semTable i = some x) (r : SemRun.State Nat) :
    Named (s.setSem i { x with run := r }) := by
  have hi : s.semTable i ≠ none := by
    rw [hx]
    exact Option.some_ne_none x
  have hentry : ∀ j, (s.setSem i { x with run := r }).semTable j ≠ none ↔ s.semTable j ≠ none := by
    intro j
    rw [setSem_ne_none]
    exact ⟨fun hj => hj.elim (fun he => he ▸ hi) id, Or.inr⟩
  have hname : ∀ j n, (s.setSem i { x with run := r }).HasName j n ↔ s.HasName j n := by
    intro j n
    rw [hasName_setSem]
    by_cases hj : j = i
    · subst hj
      simp [State.HasName, hx]
    · simp [hj]
  refine ⟨h.numBits, fun j hj => ?_, fun j hj => ?_, fun j k n hjn hkn => ?_⟩
  · rw [hentry]
    exact h.bits j hj
  · by_contra hne
    exact (hentry j).mp hne (h.beyond j hj)
  · exact h.names j k n ((hname j n).mp hjn) ((hname k n).mp hkn)

/-- A new entry in a free slot, under a new name. -/
theorem Named.insert (h : Named s) (hi : i < maxSemaphore) (hnew : ∀ j, ¬s.HasName j name)
    (value : Int) :
    Named ({ s with mSemBitMap := s.mSemBitMap.markBit i }.setSem i ⟨name, value, .new value⟩) := by
  refine ⟨h.numBits, fun j hj => ?_, fun j hj => ?_, fun j k n hjn hkn => ?_⟩
  · rw [setSem_ne_none]
    simp only [State.setSem]
    rw [Bitmap.testBit_markBit (by rwa [h.numBits]), Bool.or_eq_true, decide_eq_true_eq,
      h.bits j hj]
  · by_contra hne
    rcases setSem_ne_none.mp hne with rfl | hne
    · omega
    · exact hne (h.beyond j hj)
  · rcases hasName_setSem.mp hjn with ⟨rfl, rfl⟩ | ⟨-, hjn⟩
    · rcases hasName_setSem.mp hkn with ⟨rfl, -⟩ | ⟨-, hkn⟩
      · rfl
      · exact absurd hkn (hnew k)
    · rcases hasName_setSem.mp hkn with ⟨rfl, rfl⟩ | ⟨-, hkn⟩
      · exact absurd hjn (hnew j)
      · exact h.names j k n hjn hkn

/-- What `Create` does: it finds the name, or no slot, or takes the first free
slot. -/
theorem Named.create_cases (h : Named s) (name : String) (value : Int) :
    ((∃ i, s.HasName i name) ∧ s.create name value = (-1, s))
      ∨ ((∀ i, ¬s.HasName i name) ∧ (∀ i < maxSemaphore, s.semTable i ≠ none)
          ∧ s.create name value = (-1, s))
      ∨ ((∀ i, ¬s.HasName i name) ∧ ∃ i < maxSemaphore, s.semTable i = none
          ∧ (∀ j < i, s.semTable j ≠ none)
          ∧ s.create name value = ((i : Int),
              { s with mSemBitMap := s.mSemBitMap.markBit i }.setSem i
                ⟨name, value, .new value⟩)) := by
  rw [State.create]
  cases hf : s.find name with
  | some i => exact Or.inl ⟨⟨i, h.find_eq_some_iff.mp hf⟩, rfl⟩
  | none =>
      have hno := h.find_eq_none_iff.mp hf
      refine Or.inr ?_
      simp only [State.findFreeSlot]
      rcases s.mSemBitMap.findAndSet_cases with ⟨heq, hall⟩ | ⟨i, heq, hi, hclear, hbelow⟩
      · rw [heq]
        rw [h.numBits] at hall
        exact Or.inl ⟨hno, fun i hi => (h.bits i hi).mp (hall i hi), rfl⟩
      · rw [heq]
        rw [h.numBits] at hi
        refine Or.inr ⟨hno, i, hi, ?_, fun j hj => (h.bits j (by omega)).mp (hbelow j hj), rfl⟩
        by_contra hne
        rw [(h.bits i hi).mpr hne] at hclear
        cases hclear

theorem Named.create (h : Named s) (name : String) (value : Int) :
    Named (s.create name value).2 := by
  rcases h.create_cases name value with ⟨-, heq⟩ | ⟨-, -, heq⟩ | ⟨hno, i, hi, -, -, heq⟩
  · rwa [heq]
  · rwa [heq]
  · rw [heq]
    exact h.insert hi hno value

theorem Named.operate {a : SemRun.Action Nat} (h : Named s) (hs : s.operate i a = some s') :
    Named s' := by
  rw [State.operate] at hs
  cases hx : s.semTable i with
  | none =>
      rw [hx] at hs
      cases hs
  | some x =>
      rw [hx] at hs
      obtain ⟨r, -, rfl⟩ := Option.map_eq_some_iff.mp hs
      exact h.setRun hx r

theorem Named.onName {a : SemRun.Action Nat} (h : Named s)
    (hs : (s.onName name a).map Prod.snd = some s') : Named s' := by
  rw [State.onName] at hs
  cases hf : s.find name with
  | none =>
      rw [hf] at hs
      exact Option.some.inj hs ▸ h
  | some i =>
      rw [hf] at hs
      obtain ⟨r, hr, rfl⟩ := Option.map_eq_some_iff.mp hs
      obtain ⟨t, ht, rfl⟩ := Option.map_eq_some_iff.mp hr
      exact h.operate ht

theorem Named.step {a : Action} (h : Named s) (hs : STable.step s a = some s') : Named s' := by
  cases a with
  | create p name value =>
      simp only [STable.step] at hs
      split at hs
      next => cases hs
      next =>
          cases name with
          | none => exact Option.some.inj hs ▸ h
          | some n => exact Option.some.inj hs ▸ h.create n value
  | wait p name =>
      simp only [STable.step] at hs
      split at hs
      next => cases hs
      next =>
          cases name with
          | none => exact Option.some.inj hs ▸ h
          | some n => exact h.onName hs
  | signal p name =>
      simp only [STable.step] at hs
      split at hs
      next => cases hs
      next =>
          cases name with
          | none => exact Option.some.inj hs ▸ h
          | some n => exact h.onName hs
  | retest p i => exact h.operate hs

theorem Named.init : Named State.init :=
  ⟨rfl, fun i _ => by simp [State.init], fun _ _ => rfl, fun i _ _ hi => absurd hi (by
    simp [State.HasName, State.init])⟩

end

/-! ## The law -/

/-- What the calls do in a state `s`. -/
structure Lawful (s : State) : Prop where
  bits : ∀ i < maxSemaphore, s.mSemBitMap.testBit i = true ↔ s.semTable i ≠ none
  names : ∀ i j name, s.HasName i name → s.HasName j name → i = j
  create_fails : ∀ name value, (s.create name value).1 = -1 ↔
    (∃ i, s.HasName i name) ∨ ∀ i < maxSemaphore, s.semTable i ≠ none
  create_unchanged : ∀ name value, (s.create name value).1 = -1 → (s.create name value).2 = s
  create_slot : ∀ name value, (s.create name value).1 ≠ -1 →
    ∃ i < maxSemaphore, (s.create name value).1 = i ∧ s.semTable i = none
      ∧ (∀ j < i, s.semTable j ≠ none)
      ∧ (s.create name value).2.semTable
          = Function.update s.semTable i (some ⟨name, value, .new value⟩)
  -- a process that is not itself waiting
  wait : ∀ p name, s.busy p = false → ∃ result s', s.wait p name = some (result, s')
    ∧ (result = -1 ↔ ∀ i, ¬s.HasName i name)
    ∧ ((∀ i, ¬s.HasName i name) → s' = s)
    ∧ ∀ i x, s.semTable i = some x → x.name = name →
        result = 1 ∧ s' = s.setSem i { x with run := x.run.pass p }
  signal : ∀ name, ∃ result s', s.signal name = some (result, s')
    ∧ (result = -1 ↔ ∀ i, ¬s.HasName i name)
    ∧ ((∀ i, ¬s.HasName i name) → s' = s)
    ∧ ∀ i x, s.semTable i = some x → x.name = name →
        result = 1 ∧ ∃ r, SemRun.step x.run .v = some r ∧ s' = s.setSem i { x with run := r }

section

variable {s : State}

/-- The search and the operation behind it, when the semaphore found allows
it. -/
theorem Named.onName_eq (h : Named s) (name : String) (a : SemRun.Action Nat)
    (henabled : ∀ i x, s.semTable i = some x → ∃ r, SemRun.step x.run a = some r) :
    ∃ result s', s.onName name a = some (result, s')
      ∧ (result = -1 ↔ ∀ i, ¬s.HasName i name)
      ∧ ((∀ i, ¬s.HasName i name) → s' = s)
      ∧ ∀ i x, s.semTable i = some x → x.name = name →
          result = 1 ∧ ∃ r, SemRun.step x.run a = some r ∧ s' = s.setSem i { x with run := r } := by
  rw [State.onName]
  cases hf : s.find name with
  | none =>
      have hno := h.find_eq_none_iff.mp hf
      exact ⟨-1, s, rfl, iff_of_true rfl hno, fun _ => rfl,
        fun i x hx hn => absurd ⟨x, hx, hn⟩ (hno i)⟩
  | some i =>
      have hname := h.find_eq_some_iff.mp hf
      obtain ⟨x, hx, hxn⟩ := id hname
      obtain ⟨r, hr⟩ := henabled i x hx
      refine ⟨1, s.setSem i { x with run := r }, by simp [State.operate, hx, hr],
        iff_of_false (by decide) fun hno => hno i hname, fun hno => absurd hname (hno i),
        fun j y hy hyn => ⟨rfl, ?_⟩⟩
      obtain rfl := h.names j i name ⟨y, hy, hyn⟩ hname
      obtain rfl : x = y := Option.some.inj (hx.symm.trans hy)
      exact ⟨r, hr, rfl⟩

/-- A process that is not inside `Wait` can start `P`. -/
theorem Named.step_p (h : Named s) {p i : Nat} {x : Sem} (hp : s.busy p = false)
    (hx : s.semTable i = some x) : SemRun.step x.run (.p p) = some (x.run.pass p) := by
  have hi : i < maxSemaphore := h.lt (by rw [hx]; exact Option.some_ne_none x)
  have hout := List.any_eq_false.mp hp i (List.mem_range.mpr hi)
  rw [hx] at hout
  have hnot : ¬(p ∈ x.run.sem.queue ∨ p ∈ x.run.woken) := by simpa using hout
  rw [SemRun.step, if_neg hnot]

theorem step_v_enabled (r : SemRun.State Nat) : ∃ r', SemRun.step r .v = some r' := by
  rw [SemRun.step]
  split
  next => exact ⟨_, rfl⟩
  next => exact ⟨_, rfl⟩

theorem Named.lawful (h : Named s) : Lawful s where
  bits := h.bits
  names := h.names
  create_fails name value := by
    rcases h.create_cases name value with ⟨hin, heq⟩ | ⟨-, hfull, heq⟩ | ⟨hno, i, hi, hfree, -, heq⟩
    · simp [heq, hin]
    · rw [heq]
      exact ⟨fun _ => Or.inr hfull, fun _ => rfl⟩
    · rw [heq]
      constructor
      · intro hneg
        exact absurd hneg (by omega)
      · rintro (⟨j, hj⟩ | hfull)
        · exact absurd hj (hno j)
        · exact absurd hfree (hfull i hi)
  create_unchanged name value hfail := by
    rcases h.create_cases name value with ⟨-, heq⟩ | ⟨-, -, heq⟩ | ⟨-, i, -, -, -, heq⟩
    · rw [heq]
    · rw [heq]
    · rw [heq] at hfail
      exact absurd hfail (by omega)
  create_slot name value hok := by
    rcases h.create_cases name value with ⟨-, heq⟩ | ⟨-, -, heq⟩ | ⟨-, i, hi, hfree, hbelow, heq⟩
    · exact absurd (by rw [heq]) hok
    · exact absurd (by rw [heq]) hok
    · rw [heq]
      exact ⟨i, hi, rfl, hfree, hbelow, rfl⟩
  wait p name hp := by
    obtain ⟨result, s', hs', hiff, hno, hfound⟩ :=
      h.onName_eq name (.p p) fun i x hx => ⟨_, h.step_p hp hx⟩
    refine ⟨result, s', hs', hiff, hno, fun i x hx hn => ?_⟩
    obtain ⟨hone, r, hr, rfl⟩ := hfound i x hx hn
    rw [← Option.some.inj ((h.step_p hp hx).symm.trans hr)]
    exact ⟨hone, rfl⟩
  signal name := h.onName_eq name .v fun _ x _ => step_v_enabled x.run

/-- **The names of semaphores.** In every state that any calls lead to, the
bitmap marks the entries that are there, no two of them have the same name,
and every call does what its name asks for: `Create` fails exactly when the
name is there or no slot is free, and otherwise takes the first free slot;
`Wait` and `Signal` fail exactly when the name is not there, and otherwise
work on the one semaphore of that name. -/
theorem names_lawful (h : Reach step Any State.init s) : Lawful s :=
  (Reach.invariant Named.init (fun _ _ _ _ hi _ hs => hi.step hs) h).lawful

end

/-- A name created twice, a wait and a signal. -/
theorem names_lawful_handoff :
    ∃ s, Reach step Any State.init s ∧ (s.semTable 0).map (·.name) = some "a"
      ∧ s.semTable 1 = none ∧ Lawful s := by
  have hrun : (exec step Any State.init [.create 1 (some "a") 0, .create 2 (some "a") 7,
      .wait 1 (some "a"), .signal 2 (some "a"), .signal 2 (some "b"), .retest 1 0]).map
        (fun s => ((s.semTable 0).map (·.name), (s.semTable 1).isNone))
        = some (some "a", true) := rfl
  obtain ⟨s, hs, heq⟩ := Option.map_eq_some_iff.mp hrun
  obtain ⟨hname, hnone⟩ := Prod.mk.inj heq
  have hreach := Reach.of_exec _ hs
  exact ⟨s, hreach, hname, Option.isNone_iff_eq_none.mp hnone, names_lawful hreach⟩

end STable

end Nachos
