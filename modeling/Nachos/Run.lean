import Mathlib.Logic.Relation

/-!
# Runs of an executable step function

A system is a partial step function `step : σ → α → Option σ`: the label
says which party moves and what it asks for, `none` says that the move is
not possible in this state. A run may in addition be restricted by a guard
`ok : σ → α → Prop` on the state a step starts from, so that "in every run
whose steps all satisfy `ok`" is the reachability relation `Reach step ok`.

Every safety proof over such a system has the same two halves, and they
are stated once here: an invariant is checked at the start and over one
step (`Reach.invariant`), and a system whose steps all have a counterpart
in another one has the reachable states of the other one (`Reach.map`).
`exec` folds a list of labels and is what a concrete run is evaluated with;
`exec_map` is the simulation rule for systems that move label by label.

A system that answers is a step function into `Except ε (β × σ)`, and what is
seen of it from outside is its `transcript`: the answers, and the error that
ended them. Two systems whose steps match have equal transcripts
(`transcript_eq`). Where the state in the end counts as well and there is one
way to fail, the step function goes into `Option (β × σ)` and `session` has
the answers with that state; systems whose steps are `Alike` have sessions
that are (`session_alike`). A specification that leaves choices is a relation
`spec t a c t'`, and it `Explains` the answers of a session when every legal
call is matched by one of its steps (`session_explained`).
-/

namespace Run

variable {σ α τ β : Type*}

/-- The guard that lets every step through. -/
def Any (_ : σ) (_ : α) : Prop := True

/-- One step of the system, its label forgotten. -/
def Next (step : σ → α → Option σ) (ok : σ → α → Prop) (s s' : σ) : Prop :=
  ∃ a, ok s a ∧ step s a = some s'

/-- `Reach step ok s₀ s`: a run of steps that all satisfy `ok` leads from
`s₀` to `s`. -/
abbrev Reach (step : σ → α → Option σ) (ok : σ → α → Prop) : σ → σ → Prop :=
  Relation.ReflTransGen (Next step ok)

/-- Folding a list of labels, every step checked against a decidable
guard. -/
def exec (step : σ → α → Option σ) (ok : σ → α → Prop)
    [∀ s a, Decidable (ok s a)] : σ → List α → Option σ
  | s, [] => some s
  | s, a :: as =>
      if ok s a then
        match step s a with
        | some s' => exec step ok s' as
        | none => none
      else none

variable {step : σ → α → Option σ} {ok : σ → α → Prop} {s₀ s : σ}

/-- **The invariant rule.** The step obligation may use that the state the
step starts from is itself reachable. -/
theorem Reach.invariant {I : σ → Prop} (h0 : I s₀)
    (hstep : ∀ s a s', Reach step ok s₀ s → I s → ok s a →
      step s a = some s' → I s')
    (h : Reach step ok s₀ s) : I s := by
  induction h with
  | refl => exact h0
  | tail hpre hnext ih =>
      obtain ⟨a, hok, hs⟩ := hnext
      exact hstep _ a _ hpre ih hok hs

/-- A weaker guard reaches at least as much. -/
theorem Reach.mono {ok' : σ → α → Prop} (himp : ∀ s a, ok s a → ok' s a)
    (h : Reach step ok s₀ s) : Reach step ok' s₀ s :=
  Relation.ReflTransGen.mono
    (fun s _ ⟨a, hok, hs⟩ => ⟨a, himp s a hok, hs⟩) _ _ h

/-- **The simulation rule.** If every step is matched through `f` by a step
of the second system, which is given as a relation, or changes nothing there,
then `f` carries reachable states to reachable states. -/
theorem Reach.lift {r : τ → τ → Prop} (f : σ → τ)
    (hstep : ∀ s a s', Reach step ok s₀ s → ok s a → step s a = some s' →
      f s' = f s ∨ r (f s) (f s'))
    (h : Reach step ok s₀ s) : Relation.ReflTransGen r (f s₀) (f s) := by
  induction h with
  | refl => exact Relation.ReflTransGen.refl
  | tail hpre hnext ih =>
      obtain ⟨a, hok, hs⟩ := hnext
      rcases hstep _ a _ hpre hok hs with heq | hr
      · rw [heq]; exact ih
      · exact ih.tail hr

/-- The same into a system that is given as a step function. -/
theorem Reach.map {step' : τ → β → Option τ} {ok' : τ → β → Prop} (f : σ → τ)
    (hstep : ∀ s a s', Reach step ok s₀ s → ok s a → step s a = some s' →
      f s' = f s ∨ ∃ b, ok' (f s) b ∧ step' (f s) b = some (f s'))
    (h : Reach step ok s₀ s) : Reach step' ok' (f s₀) (f s) :=
  h.lift f hstep

/-- A concrete run that evaluates is a run. -/
theorem Reach.of_exec [∀ s a, Decidable (ok s a)] :
    ∀ (as : List α) {s₀ s : σ}, exec step ok s₀ as = some s →
      Reach step ok s₀ s
  | [], _, _, h => by
      obtain rfl := Option.some.inj h
      exact Relation.ReflTransGen.refl
  | a :: as, s₀, s, h => by
      rw [exec] at h
      split at h
      · rename_i hok
        split at h
        · rename_i s' hs
          exact Relation.ReflTransGen.head ⟨a, hok, hs⟩ (Reach.of_exec as h)
        · cases h
      · cases h

/-- **Simulation along the labels.** A second system that takes every step of
the first one under the same label, related states going to related states,
runs every list of labels the first one runs. -/
theorem exec_simulates [∀ s a, Decidable (ok s a)] {step' : τ → α → Option τ} {ok' : τ → α → Prop}
    [∀ s a, Decidable (ok' s a)] {R : σ → τ → Prop}
    (hstep : ∀ s t a s', R s t → ok s a → step s a = some s' →
      ∃ t', ok' t a ∧ step' t a = some t' ∧ R s' t') :
    ∀ (as : List α) {s s' : σ} {t : τ}, R s t → exec step ok s as = some s' →
      ∃ t', exec step' ok' t as = some t' ∧ R s' t'
  | [], s, s', t, hr, h => by
      obtain rfl := Option.some.inj h
      exact ⟨t, rfl, hr⟩
  | a :: as, s, s', t, hr, h => by
      rw [exec] at h
      split at h
      · rename_i hok
        split at h
        · rename_i s₁ hs
          obtain ⟨t₁, hok₁, ht₁, hr₁⟩ := hstep s t a s₁ hr hok hs
          rw [exec, if_pos hok₁, ht₁]
          exact exec_simulates hstep as hr₁ h
        · cases h
      · cases h

/-- The same for a second system whose state is a function of the state of
the first. -/
theorem exec_map [∀ s a, Decidable (ok s a)] {step' : τ → α → Option τ} {ok' : τ → α → Prop}
    [∀ s a, Decidable (ok' s a)] {I : σ → Prop} (f : σ → τ)
    (hstep : ∀ s a s', I s → ok s a → step s a = some s' →
      I s' ∧ ok' (f s) a ∧ step' (f s) a = some (f s')) (as : List α) {s s' : σ} (hi : I s)
    (h : exec step ok s as = some s') : I s' ∧ exec step' ok' (f s) as = some (f s') := by
  have hsim : ∀ s t a s', (I s ∧ t = f s) → ok s a → step s a = some s' →
      ∃ t', ok' t a ∧ step' t a = some t' ∧ I s' ∧ t' = f s' := by
    rintro s _ a s' ⟨hi, rfl⟩ hok hs
    obtain ⟨hi', hok', hs'⟩ := hstep s a s' hi hok hs
    exact ⟨f s', hok', hs', hi', rfl⟩
  obtain ⟨t', ht', hi', rfl⟩ := exec_simulates hsim as ⟨hi, rfl⟩ h
  exact ⟨hi', ht'⟩

instance (s : σ) (a : α) : Decidable (Any s a) := inferInstanceAs (Decidable True)

/-! ## Systems that answer -/

section Transcripts

variable {γ ε : Type*}

/-- The answers to a list of labels, up to the first error. -/
def transcript (step : σ → α → Except ε (γ × σ)) : σ → List α → List γ × Option ε
  | _, [] => ([], none)
  | s, a :: as =>
      match step s a with
      | .ok (c, s') => (c :: (transcript step s' as).1, (transcript step s' as).2)
      | .error e => ([], some e)

/-- The same answer and related states, or the same error. -/
inductive Matches (R : σ → τ → Prop) : Except ε (γ × σ) → Except ε (γ × τ) → Prop where
  | ok (c : γ) {s : σ} {t : τ} : R s t → Matches R (.ok (c, s)) (.ok (c, t))
  | error (e : ε) : Matches R (.error e) (.error e)

/-- **Refinement by answers.** -/
theorem transcript_eq {step : σ → α → Except ε (γ × σ)} {step' : τ → α → Except ε (γ × τ)}
    {R : σ → τ → Prop} (as : List α)
    (hstep : ∀ a ∈ as, ∀ s t, R s t → Matches R (step s a) (step' t a)) {s : σ} {t : τ}
    (hr : R s t) : transcript step s as = transcript step' t as := by
  induction as generalizing s t with
  | nil => rfl
  | cons a as ih =>
      have hmatch := hstep a List.mem_cons_self s t hr
      rw [transcript, transcript]
      generalize step s a = x at hmatch ⊢
      generalize step' t a = y at hmatch ⊢
      cases hmatch with
      | ok c hr' =>
          dsimp only
          rw [ih (fun b hb => hstep b (List.mem_cons_of_mem a hb)) hr']
      | error e => rfl

end Transcripts

/-! ## Sessions -/

section Sessions

variable {γ : Type*}

/-- The answers to a list of labels and the state they lead to. -/
def session (step : σ → α → Option (γ × σ)) : σ → List α → Option (List γ × σ)
  | s, [] => some ([], s)
  | s, a :: as =>
      (step s a).bind fun r => (session step r.2 as).map fun rs => (r.1 :: rs.1, rs.2)

/-- Both fail, or both answer the same and are left in related states. -/
def Alike (R : σ → τ → Prop) : Option (γ × σ) → Option (γ × τ) → Prop :=
  Option.Rel fun x y => x.1 = y.1 ∧ R x.2 y.2

theorem alike_some {R : σ → τ → Prop} {c : γ} {s : σ} {t : τ} (hr : R s t) :
    Alike R (some (c, s)) (some (c, t)) :=
  .some ⟨rfl, hr⟩

theorem alike_none {R : σ → τ → Prop} :
    Alike R (none : Option (γ × σ)) (none : Option (γ × τ)) := .none

/-- What the second system answers, the first one does. -/
theorem Alike.of_some {R : σ → τ → Prop} {x : Option (γ × σ)} {c : γ} {t : τ}
    (h : Alike R x (some (c, t))) : ∃ s, x = some (c, s) ∧ R s t := by
  cases h with
  | some h =>
      obtain ⟨rfl, hr⟩ := h
      exact ⟨_, rfl, hr⟩

/-- **Refinement by sessions.** -/
theorem session_alike {step : σ → α → Option (γ × σ)} {step' : τ → α → Option (γ × τ)}
    {R : σ → τ → Prop} (hstep : ∀ a s t, R s t → Alike R (step s a) (step' t a)) (as : List α)
    {s : σ} {t : τ} (hr : R s t) : Alike R (session step s as) (session step' t as) := by
  induction as generalizing s t with
  | nil => exact alike_some hr
  | cons a as ih =>
      have hfirst := hstep a s t hr
      rw [session, session]
      generalize step s a = x at hfirst ⊢
      generalize step' t a = y at hfirst ⊢
      cases hfirst with
      | none => exact alike_none
      | some h =>
          obtain ⟨hc, hr'⟩ := h
          have hrest := ih hr'
          rw [Option.bind_some, Option.bind_some, hc]
          generalize session step _ as = u at hrest ⊢
          generalize session step' _ as = v at hrest ⊢
          cases hrest with
          | none => exact alike_none
          | some h' =>
              obtain ⟨hcs, hr''⟩ := h'
              rw [Option.map_some, Option.map_some, hcs]
              exact alike_some hr''

/-- Every call of the list is legal in the state it is made in. -/
def Lawful (step : σ → α → Option (γ × σ)) (ok : σ → α → Prop) : σ → List α → Prop
  | _, [] => True
  | s, a :: as => ok s a ∧ ∀ r ∈ step s a, Lawful step ok r.2 as

/-- A specification allows these answers to these calls, and may then be in
that state. -/
inductive Explains (spec : τ → β → γ → τ → Prop) : τ → List β → List γ → τ → Prop where
  | nil (t : τ) : Explains spec t [] [] t
  | cons {t t' t'' : τ} {b : β} {c : γ} {bs : List β} {cs : List γ} :
      spec t b c t' → Explains spec t' bs cs t'' → Explains spec t (b :: bs) (c :: cs) t''

/-- **Refinement of a specification that leaves choices.** Legal calls are all
answered, and the answers are among those allowed. -/
theorem session_explained {step : σ → α → Option (γ × σ)} {ok : σ → α → Prop}
    {spec : τ → β → γ → τ → Prop} {f : α → β} {R : σ → τ → Prop}
    (hstep : ∀ s t a, R s t → ok s a →
      ∃ c s' t', step s a = some (c, s') ∧ spec t (f a) c t' ∧ R s' t') (as : List α) {s : σ}
    {t : τ} (hr : R s t) (hok : Lawful step ok s as) :
    ∃ cs s' t', session step s as = some (cs, s') ∧ Explains spec t (as.map f) cs t' ∧ R s' t' := by
  induction as generalizing s t with
  | nil => exact ⟨[], s, t, rfl, .nil t, hr⟩
  | cons a as ih =>
      obtain ⟨c, s₁, t₁, hs, hspec, hr₁⟩ := hstep s t a hr hok.1
      obtain ⟨cs, s', t', hrest, hexp, hr'⟩ := ih hr₁ (hok.2 _ hs)
      refine ⟨c :: cs, s', t', ?_, .cons hspec hexp, hr'⟩
      rw [session, hs, Option.bind_some, hrest, Option.map_some]

/-- Lawful calls, decided by running them. -/
instance decidableLawful (step : σ → α → Option (γ × σ)) (ok : σ → α → Prop)
    [∀ s a, Decidable (ok s a)] : (s : σ) → (as : List α) → Decidable (Lawful step ok s as)
  | _, [] => inferInstanceAs (Decidable True)
  | s, a :: as =>
      have : ∀ r : γ × σ, Decidable (Lawful step ok r.2 as) := fun r =>
        decidableLawful step ok r.2 as
      inferInstanceAs (Decidable (_ ∧ ∀ r ∈ step s a, Lawful step ok r.2 as))

end Sessions

end Run
