import Mathlib.Logic.Function.Basic

/-!
# What a computation does to a part of its state

For computations with a state that may also stop without a result: `Acts view
f m` says that, whenever `m` has a result, it has changed the part `view` of
the state by `f`, and `Keeps view m` that it has left that part alone. The
effect of a sequence is the composition of the effects, so a long program of
which only a few steps touch the part needs no more than one lemma for each
kind of step.
-/

namespace StateEffects

variable {σ τ α β : Type} {view : σ → τ} {f g : τ → τ} {m : StateT σ Option α}
  {n : α → StateT σ Option β}

/-- Whenever `m` has a result it has changed the view by `f`. -/
def Acts (view : σ → τ) (f : τ → τ) (m : StateT σ Option α) : Prop :=
  ∀ s a s', m s = some (a, s') → view s' = f (view s)

/-- `m` leaves the view alone. -/
abbrev Keeps (view : σ → τ) (m : StateT σ Option α) : Prop := Acts view id m

theorem Acts.bind (hm : Acts view f m) (hn : ∀ a, Acts view g (n a)) :
    Acts view (g ∘ f) (m >>= n) := by
  intro s b s'' h
  obtain ⟨⟨a, s'⟩, hs', h'⟩ := Option.bind_eq_some_iff.mp h
  rw [hn a s' b s'' h', hm s a s' hs']
  rfl

/-- A step that leaves the view alone comes first. -/
theorem Keeps.bind (hm : Keeps view m) (hn : ∀ a, Acts view g (n a)) : Acts view g (m >>= n) :=
  Acts.bind hm hn

/-- A computation without a result. -/
theorem acts_none : Acts view f (fun _ => none : StateT σ Option α) := by
  intro s a s' h
  cases h

end StateEffects
