import Nachos.ContextSwitch

/-!
# Context switches are invisible

The steps of programs, of kernel threads and of `StartProcess` under the
abstraction of `Nachos.ContextSwitch`, and whole runs: label by label the
machine does what the machine with registers for every thread does
(`Inv.step`), so what a thread finds when it is resumed is what nobody but
itself could have changed in between (`cpu_of_away`).

The steps that write to an address space rest on pointers being apart: a
thread is loading a space that nobody runs in, and frees one that nobody
else runs in.
-/

namespace Nachos

open Run
open Mips (Registers Word)

namespace Switch

variable {ω : Type}

namespace Inv

variable {s s' : State ω}

/-- Writing to an address space that no thread runs in. -/
theorem cpu_addrSpace {k : Nat} (hk : ∀ t, s.space t ≠ some k) (x : Table)
    (loading : Nat → Option Nat) (nextSpace : Nat) :
    State.cpu { s with
      addrSpace := Function.update s.addrSpace k x, loading := loading, nextSpace := nextSpace }
      = s.cpu := by
  funext t
  unfold State.cpu
  cases ht : s.space t with
  | none => simp
  | some j =>
      have hjk : j ≠ k := by
        rintro rfl
        exact hk t ht
      simp only [Option.map_some, Function.update_of_ne hjk]
      rfl

theorem user (h : Inv s) {f : Registers → Table → ω → Registers × ω}
    (hs : Switch.step s (.user f) = some s') : Inv s' ∧ Own.step s.abs (.user f) = some s'.abs := by
  simp only [Switch.step] at hs
  split at hs
  next hc =>
      obtain rfl := Option.some.inj hs
      refine ⟨{ h with }, ?_⟩
      have hcpu : s.abs.cpu s.abs.cur = some (s.registers, s.table) :=
        cpu_of_onCpu hc.2 ⟨rfl, hc.1⟩
      simp only [Own.step]
      rw [if_pos (show s.abs.mode ≠ .switched from hc.1), hcpu, Option.map_some]
      refine congrArg some ((Own.State.mk.injEq ..).mpr ⟨rfl, ?_, rfl, rfl⟩)
      funext t
      by_cases ht : t = s.cur
      · subst ht
        refine (Function.update_self _ _ _).trans (Eq.symm ?_)
        exact cpu_of_onCpu hc.2 ⟨rfl, hc.1⟩
      · refine (Function.update_of_ne ht _ _).trans ?_
        refine (cpu_parked fun hcp => ht hcp.1).trans (Eq.symm ?_)
        exact cpu_parked fun hcp => ht hcp.1
  next => cases hs

theorem kernel (h : Inv s) {f : Registers → Registers} {g : ω → ω}
    (hs : Switch.step s (.kernel f g) = some s') :
    Inv s' ∧ Own.step s.abs (.kernel f g) = some s'.abs := by
  simp only [Switch.step] at hs
  split at hs
  next hc =>
      obtain rfl := Option.some.inj hs
      refine ⟨{ h with }, ?_⟩
      have hnone : s.abs.cpu s.abs.cur = none := cpu_eq_none_iff.mpr hc.2
      simp only [Own.step]
      rw [if_pos ⟨show s.abs.mode ≠ .switched from hc.1, hnone⟩]
      refine congrArg some ((Own.State.mk.injEq ..).mpr ⟨rfl, ?_, rfl, rfl⟩)
      funext t
      by_cases ht : t = s.cur
      · subst ht
        refine hnone.trans (Eq.symm ?_)
        exact cpu_eq_none_iff.mpr hc.2
      · refine (cpu_parked fun hcp => ht hcp.1).trans (Eq.symm ?_)
        exact cpu_parked fun hcp => ht hcp.1
  next => cases hs

theorem newSpace (h : Inv s) {junk : Nat} (hs : Switch.step s (.newSpace junk) = some s') :
    Inv s' ∧ Own.step s.abs (.newSpace junk) = some s'.abs := by
  simp only [Switch.step] at hs
  split at hs
  next hm =>
      obtain rfl := Option.some.inj hs
      have hloading : ∀ t k, Function.update s.loading s.cur (some s.nextSpace) t = some k →
          t = s.cur ∧ k = s.nextSpace ∨ t ≠ s.cur ∧ s.loading t = some k := by
        intro t k hk
        by_cases ht : t = s.cur
        · subst ht
          rw [Function.update_self] at hk
          exact Or.inl ⟨rfl, (Option.some.inj hk).symm⟩
        · rw [Function.update_of_ne ht] at hk
          exact Or.inr ⟨ht, hk⟩
      constructor
      · refine { h with
          table := fun k hu hns hk => ?_, space_lt := fun t k hk => ?_,
          loading_lt := fun t k hk => ?_, loading_inj := fun t t' k hk hk' => ?_,
          apart := fun t t' k hk hk' => ?_ }
        · exact (h.table k hu hns hk).trans
            (Function.update_of_ne (Nat.ne_of_lt (h.space_lt _ k hk)) _ _).symm
        · exact Nat.lt_succ_of_lt (h.space_lt t k hk)
        · rcases hloading t k hk with ⟨-, rfl⟩ | ⟨-, hk⟩
          · exact Nat.lt_succ_self _
          · exact Nat.lt_succ_of_lt (h.loading_lt t k hk)
        · rcases hloading t k hk with ⟨rfl, rfl⟩ | ⟨-, hk⟩
          · rcases hloading t' _ hk' with ⟨rfl, -⟩ | ⟨-, hk'⟩
            · rfl
            · exact absurd (h.loading_lt t' _ hk') (Nat.lt_irrefl _)
          · rcases hloading t' _ hk' with ⟨-, rfl⟩ | ⟨-, hk'⟩
            · exact absurd (h.loading_lt t _ hk) (Nat.lt_irrefl _)
            · exact h.loading_inj t t' k hk hk'
        · rcases hloading t' k hk' with ⟨-, rfl⟩ | ⟨-, hk'⟩
          · exact absurd (h.space_lt t _ hk) (Nat.lt_irrefl _)
          · exact h.apart t t' k hk hk'
      · simp only [Own.step]
        rw [if_pos (show s.abs.mode = .running from hm)]
        refine congrArg some ((Own.State.mk.injEq ..).mpr ⟨rfl, ?_, ?_, rfl⟩)
        · exact (cpu_addrSpace (fun t ht => absurd (h.space_lt t _ ht) (Nat.lt_irrefl _))
            _ _ _).symm
        · funext t
          by_cases ht : t = s.cur
          · subst ht
            simp [State.abs]
          · cases hk : s.loading t with
            | none => simp [State.abs, ht, hk]
            | some k => simp [State.abs, ht, hk, Nat.ne_of_lt (h.loading_lt t k hk)]
  next => cases hs

theorem load (h : Inv s) {x : Table} (hs : Switch.step s (.load x) = some s') :
    Inv s' ∧ Own.step s.abs (.load x) = some s'.abs := by
  simp only [Switch.step] at hs
  split at hs
  next hm =>
      obtain ⟨k, hk, rfl⟩ := Option.map_eq_some_iff.mp hs
      have hspace : ∀ t, s.space t ≠ some k := fun t ht => h.apart t s.cur k ht hk
      constructor
      · refine { h with table := fun j hu hns hj => ?_ }
        have hjk : j ≠ k := by
          rintro rfl
          exact hspace _ hj
        exact (h.table j hu hns hj).trans (Function.update_of_ne hjk _ _).symm
      · have habs : s.abs.loading s.abs.cur = some (s.addrSpace k) := by
          simp [State.abs, hk]
        simp only [Own.step]
        rw [if_pos (show s.abs.mode = .running from hm), habs, Option.map_some]
        refine congrArg some ((Own.State.mk.injEq ..).mpr ⟨rfl, ?_, ?_, rfl⟩)
        · exact (cpu_addrSpace hspace _ _ _).symm
        · funext t
          by_cases ht : t = s.cur
          · subst ht
            simp [State.abs, hk]
          · cases hj : s.loading t with
            | none => simp [State.abs, ht, hj]
            | some j =>
                have hjk : j ≠ k := by
                  rintro rfl
                  exact ht (h.loading_inj _ _ _ hj hk)
                simp [State.abs, ht, hj, hjk]
  next => cases hs

theorem execute (h : Inv s) (hs : Switch.step s .execute = some s') :
    Inv s' ∧ Own.step s.abs .execute = some s'.abs := by
  simp only [Switch.step] at hs
  split at hs
  next hm =>
      obtain ⟨k, hk, rfl⟩ := Option.map_eq_some_iff.mp hs
      have hns : s.mode ≠ .switched := by rw [hm]; exact Sched.Mode.noConfusion
      have hsl : s.mode ≠ .sleeping := by rw [hm]; exact Sched.Mode.noConfusion
      have hended := h.running hm
      have hspace : ∀ t j, Function.update s.space s.cur (some k) t = some j →
          t = s.cur ∧ j = k ∨ t ≠ s.cur ∧ s.space t = some j := by
        intro t j hj
        by_cases ht : t = s.cur
        · subst ht
          rw [Function.update_self] at hj
          exact Or.inl ⟨rfl, (Option.some.inj hj).symm⟩
        · rw [Function.update_of_ne ht] at hj
          exact Or.inr ⟨ht, hj⟩
      have hloading : ∀ t j, Function.update s.loading s.cur none t = some j →
          t ≠ s.cur ∧ s.loading t = some j := by
        intro t j hj
        by_cases ht : t = s.cur
        · subst ht
          rw [Function.update_self] at hj
          cases hj
        · rw [Function.update_of_ne ht] at hj
          exact ⟨ht, hj⟩
      have huser : State.IsUser { s with space := Function.update s.space s.cur (some k) } s.cur :=
        ⟨hended, by simp⟩
      constructor
      · refine { h with
          born := fun t ht => ?_, kont := fun t ht => ?_, table := fun j _ _ hj => ?_,
          space_lt := fun t j hj => ?_, loading_lt := fun t j hj => ?_,
          space_inj := fun t t' j hj hj' => ?_, loading_inj := fun t t' j hj hj' => ?_,
          apart := fun t t' j hj hj' => ?_ }
        · by_cases htc : t = s.cur
          · subst htc
            by_contra hge
            have := (h.sched.current hsl).1
            rw [h.sched.fresh _ (Nat.not_lt.mp hge)] at this
            cases this
          · exact h.born t (by simpa [htc] using ht)
        · by_cases htc : t = s.cur
          · exact Or.inl ⟨htc, hm⟩
          · exact h.kont t ⟨ht.1, by simpa [htc] using ht.2⟩
        · rcases hspace _ j hj with ⟨-, rfl⟩ | ⟨hne, -⟩
          · rfl
          · exact absurd rfl hne
        · rcases hspace t j hj with ⟨-, rfl⟩ | ⟨-, hj⟩
          · exact h.loading_lt _ _ hk
          · exact h.space_lt t j hj
        · exact h.loading_lt t j (hloading t j hj).2
        · rcases hspace t j hj with ⟨rfl, rfl⟩ | ⟨-, ht⟩
          · rcases hspace t' _ hj' with ⟨rfl, -⟩ | ⟨-, ht'⟩
            · rfl
            · exact absurd hk (h.apart t' _ _ ht')
          · rcases hspace t' _ hj' with ⟨-, rfl⟩ | ⟨-, ht'⟩
            · exact absurd hk (h.apart t _ _ ht)
            · exact h.space_inj t t' j ht ht'
        · exact h.loading_inj t t' j (hloading t j hj).2 (hloading t' j hj').2
        · obtain ⟨hne, ht'⟩ := hloading t' j hj'
          rcases hspace t j hj with ⟨-, rfl⟩ | ⟨-, ht⟩
          · exact hne (h.loading_inj _ _ _ ht' hk)
          · exact h.apart t t' j ht ht'
      · have habs : s.abs.loading s.abs.cur = some (s.addrSpace k) := by
          simp [State.abs, hk]
        simp only [Own.step]
        rw [if_pos (show s.abs.mode = .running from hm), habs, Option.map_some]
        refine congrArg some ((Own.State.mk.injEq ..).mpr ⟨rfl, ?_, ?_, rfl⟩)
        · funext t
          by_cases ht : t = s.cur
          · subst ht
            refine (Function.update_self _ _ _).trans (Eq.symm ?_)
            exact cpu_of_onCpu huser ⟨rfl, hns⟩
          · refine (Function.update_of_ne ht _ _).trans ?_
            refine (cpu_parked fun hcp => ht hcp.1).trans (Eq.symm ?_)
            refine Eq.trans (cpu_parked ?_) ?_
            · exact fun hcp => ht hcp.1
            · simp only [Function.update_of_ne ht]
        · funext t
          by_cases ht : t = s.cur
          · subst ht
            simp [State.abs]
          · simp [State.abs, ht]
  next => cases hs

theorem exit (h : Inv s) {x : Table} (hs : Switch.step s (.exit x) = some s') :
    Inv s' ∧ Own.step s.abs (.exit x) = some s'.abs := by
  simp only [Switch.step] at hs
  split at hs
  next hm =>
      obtain ⟨k, hk, hs⟩ := Option.bind_eq_some_iff.mp hs
      obtain ⟨sched, hsched, rfl⟩ := Option.map_eq_some_iff.mp hs
      have hinv := h.sched.step hsched
      obtain ⟨hfailed, heff⟩ := Sched.effect_of_step h.sched hsched
      have hcpu : s.abs.cpu s.abs.cur ≠ none := fun hnone =>
        cpu_eq_none_iff.mp hnone ⟨hm.2, fun hnil => by cases hk.symm.trans hnil⟩
      simp only [Own.step]
      rw [if_pos ⟨show s.abs.mode = .running from hm.1, hcpu⟩,
        show Sched.step s.abs.sched .finish = some sched from hsched, Option.map_some]
      cases heff with
      | stay _ hnf => exact absurd rfl hnf
      | switch _ hnf => exact absurd rfl hnf
      | finish hm' hcur hmode hkont htbd hlive hnext =>
          unfold State.follow
          rw [if_neg (not_not.mpr hfailed), if_neg (by rw [hmode]; exact Sched.Mode.noConfusion)]
          have hothers : ∀ t j, t ≠ s.cur → s.space t = some j →
              Function.update s.addrSpace k x j = s.addrSpace j := fun t j ht hj =>
            Function.update_of_ne (by rintro rfl; exact ht (h.space_inj _ _ _ hj hk)) _ _
          have hloading : ∀ t j, s.loading t = some j →
              Function.update s.addrSpace k x j = s.addrSpace j := fun t j hj =>
            Function.update_of_ne (by rintro rfl; exact h.apart _ _ _ hk hj) _ _
          obtain ⟨hi, habs⟩ := h.finish hinv hm' hcur hmode hkont hlive hnext hothers hloading
          exact ⟨hi, congrArg some habs.symm⟩
  next => cases hs

/-- **One step.** -/
theorem step {a : Action ω} (h : Inv s) (hs : Switch.step s a = some s') :
    Inv s' ∧ Own.step s.abs a = some s'.abs := by
  cases a with
  | sched a =>
      obtain ⟨sched, hsched, rfl⟩ := Option.map_eq_some_iff.mp hs
      obtain ⟨hi, habs⟩ := h.follow hsched
      refine ⟨hi, ?_⟩
      simp only [Own.step]
      rw [show Sched.step s.abs.sched a = some sched from hsched, Option.map_some, habs]
  | user f => exact h.user hs
  | kernel f g => exact h.kernel hs
  | newSpace junk => exact h.newSpace hs
  | load x => exact h.load hs
  | execute => exact h.execute hs
  | exit x => exact h.exit hs

end Inv

/-! ## Runs -/

/-- `a` knows of the running program what the machine shows it. -/
structure Agrees (s : State ω) (a : Own.State ω) : Prop where
  sched : a.sched = s.sched
  world : a.world = s.world
  user : ∀ t, s.IsUser t → s.onCpu t → a.cpu t = some (s.registers, s.table)

/-- `t` is switched out. -/
def Away (t : Nat) (s : State ω) (_ : Action ω) : Prop := ¬s.onCpu t

instance (t : Nat) (s : State ω) (a : Action ω) : Decidable (Away t s a) :=
  inferInstanceAs (Decidable (¬_))

/-- Where everybody has registers of their own, a step changes those of the
current thread only, and none behind `SWITCH`. -/
theorem Own.cpu_of_step {s s' : Own.State ω} {a : Action ω} {t : Nat}
    (hs : Own.step s a = some s') (ht : t ≠ s.cur ∨ s.mode = .switched) :
    s'.cpu t = s.cpu t := by
  have hcur : s.mode ≠ .switched → t ≠ s.cur := fun hm => ht.resolve_right hm
  have hrun : s.mode = .running → t ≠ s.cur := fun hm =>
    hcur (by rw [hm]; exact Sched.Mode.noConfusion)
  have hfinish : ∀ {sched}, Sched.step s.sched .finish = some sched → s.mode = .running := by
    intro sched hf
    by_contra hm
    simp [Sched.step, Sched.act, hm] at hf
  unfold Own.step at hs
  cases a with
  | sched a =>
      obtain ⟨sched, hsched, rfl⟩ := Option.map_eq_some_iff.mp hs
      cases a with
      | finish => exact Function.update_of_ne (hrun (hfinish hsched)) _ _
      | _ => rfl
  | user f =>
      dsimp only at hs
      split at hs
      next hm =>
          obtain ⟨x, -, rfl⟩ := Option.map_eq_some_iff.mp hs
          exact Function.update_of_ne (hcur hm) _ _
      next => cases hs
  | kernel f g =>
      dsimp only at hs
      split at hs
      next =>
          obtain rfl := Option.some.inj hs
          rfl
      next => cases hs
  | newSpace junk =>
      dsimp only at hs
      split at hs
      next =>
          obtain rfl := Option.some.inj hs
          rfl
      next => cases hs
  | load x =>
      dsimp only at hs
      split at hs
      next =>
          obtain ⟨x, -, rfl⟩ := Option.map_eq_some_iff.mp hs
          rfl
      next => cases hs
  | execute =>
      dsimp only at hs
      split at hs
      next hm =>
          obtain ⟨x, -, rfl⟩ := Option.map_eq_some_iff.mp hs
          exact Function.update_of_ne (hrun hm) _ _
      next => cases hs
  | exit x =>
      dsimp only at hs
      split at hs
      next hm =>
          obtain ⟨sched, -, rfl⟩ := Option.map_eq_some_iff.mp hs
          exact Function.update_of_ne (hrun hm.1) _ _
      next => cases hs

section Runs

variable {s s' s₀ s₁ s₂ s₃ : State ω} {t : Nat}

theorem Inv.reach {ok : State ω → Action ω → Prop} (h : Inv s)
    (hr : Reach Switch.step ok s s') : Inv s' :=
  Reach.invariant h (fun _ _ _ _ hi _ hs => (hi.step hs).1) hr

/-- While `t` is away nobody touches its registers. -/
theorem cpu_of_away (h : Inv s) (hr : Reach step (Away t) s s') : s'.cpu t = s.cpu t := by
  refine Reach.invariant (I := fun x => x.cpu t = s.cpu t) rfl ?_ hr
  intro x a x' hx hi haway hs
  have hown := ((h.reach hx).step hs).2
  rw [← hi]
  refine @Own.cpu_of_step _ x.abs x'.abs _ _ hown ?_
  by_cases ht : t = x.cur
  · exact Or.inr (by_contra fun hm => haway ⟨ht, hm⟩)
  · exact Or.inl ht

/-- A program that is switched out finds its registers and its page table
when it is back. -/
theorem resumed_as_left {a : Sched.Action} (h : Inv s₀) (hu : s₀.IsUser t) (hon : s₀.onCpu t)
    (hout : step s₀ (.sched a) = some s₁) (hswitch : s₁.mode = .switched)
    (haway : Reach step (Away t) s₁ s₂) (hback : step s₂ (.sched .resume) = some s₃)
    (hon' : s₃.onCpu t) : s₃.registers = s₀.registers ∧ s₃.table = s₀.table := by
  obtain ⟨h₁, hown₁⟩ := h.step hout
  have h₂ := h₁.reach haway
  obtain ⟨h₃, hown₃⟩ := h₂.step hback
  have hnf : a ≠ .finish := by
    rintro rfl
    obtain ⟨sched, hsched, rfl⟩ := Option.map_eq_some_iff.mp hout
    obtain ⟨hfailed, heff⟩ := Sched.effect_of_step h.sched hsched
    cases heff with
    | stay _ hnf => exact hnf rfl
    | switch _ hnf => exact hnf rfl
    | finish hm hcur hm' =>
        have hmode : (s₀.follow .finish sched).sched = sched := by
          unfold State.follow
          rw [if_neg (not_not.mpr hfailed), if_neg (by rw [hm']; exact Sched.Mode.noConfusion)]
        rw [State.mode, hmode, hm'] at hswitch
        cases hswitch
  have hfollow : ∀ {x y : State ω} {b : Sched.Action}, b ≠ .finish →
      Own.step x.abs (.sched b) = some y.abs → y.cpu = x.cpu := by
    intro x y b hb hs
    obtain ⟨sched, -, heq⟩ := Option.map_eq_some_iff.mp hs
    refine (congrArg Own.State.cpu heq).symm.trans ?_
    cases b with
    | finish => exact absurd rfl hb
    | _ => rfl
  have hcpu : s₃.cpu t = s₀.cpu t := by
    rw [hfollow Sched.Action.noConfusion hown₃, cpu_of_away h₁ haway, hfollow hnf hown₁]
  rw [cpu_of_onCpu hu hon] at hcpu
  have hu' : s₃.IsUser t := by
    by_contra hn
    rw [cpu_eq_none_iff.mpr hn] at hcpu
    cases hcpu
  rw [cpu_of_onCpu hu' hon'] at hcpu
  exact Prod.mk.inj (Option.some.inj hcpu)

end Runs

/-- **Context switches are invisible.** The machine runs every sequence of
labels as the one with registers for every thread does, and a program finds
its registers and its page table as it left them. -/
theorem context_switches_invisible (table : Table) (userRegisters : Nat → Registers)
    (addrSpace : Nat → Table) (world : ω) :
    (∀ as s, exec step Any (State.init table userRegisters addrSpace world) as = some s →
      ∃ a, exec Own.step Any (Own.State.init world) as = some a ∧ Agrees s a)
    ∧ ∀ t a (s₀ s₁ s₂ s₃ : State ω),
        Reach step Any (State.init table userRegisters addrSpace world) s₀ →
        s₀.IsUser t → s₀.onCpu t → step s₀ (.sched a) = some s₁ → s₁.mode = .switched →
        Reach step (Away t) s₁ s₂ → step s₂ (.sched .resume) = some s₃ → s₃.onCpu t →
        s₃.registers = s₀.registers ∧ s₃.table = s₀.table := by
  have hinit := Inv.init table userRegisters addrSpace world
  constructor
  · intro as s hs
    have hrun : exec Own.step Any (State.init table userRegisters addrSpace world).abs as
        = some s.abs :=
      (exec_map State.abs
        (fun x a x' hi _ hstep => ⟨(hi.step hstep).1, trivial, (hi.step hstep).2⟩) as hinit hs).2
    exact ⟨s.abs, hrun, rfl, rfl, fun t => cpu_of_onCpu⟩
  · intro t a s₀ s₁ s₂ s₃ h₀ hu hon hout hswitch haway hback hon'
    exact resumed_as_left (hinit.reach h₀) hu hon hout hswitch haway hback hon'

/-- A store to register 5. -/
def setFive (x : Word) : Action Unit :=
  .user fun registers _ w => (Function.update registers 5 x, w)

/-- Loading and starting a program of nine pages. -/
def start (pageTable : Nat) : List (Action Unit) := [.newSpace 0, .load ⟨pageTable, 9⟩, .execute]

def zeroInit : State Unit := State.init ⟨0, 0⟩ (fun _ _ => 0) (fun _ => ⟨0, 0⟩) ()

/-- Thread 0 runs a program, is switched out to thread 1, which loads and runs
another one and yields. -/
theorem context_switches_invisible_two_programs :
    ∃ s₀ s₁ s₂ s₃ : State Unit, Reach step Any zeroInit s₀ ∧ step s₀ (.sched .yield) = some s₁
      ∧ Reach step (Away 0) s₁ s₂ ∧ step s₂ (.sched .resume) = some s₃
      ∧ s₂.registers 5 = 9 ∧ s₀.registers 5 = 7 ∧ s₃.registers = s₀.registers
      ∧ s₃.table = s₀.table := by
  have hrun : ((exec step Any zeroInit
        ([.sched .create, .sched (.fork 1)] ++ start 3 ++ [setFive 7])).bind fun s₀ =>
      (step s₀ (.sched .yield)).bind fun s₁ =>
      (exec step (Away 0) s₁
        (.sched .resume :: start 4 ++ [setFive 9, .sched .yield])).bind fun s₂ =>
      (step s₂ (.sched .resume)).map fun s₃ =>
        (decide (s₀.IsUser 0 ∧ s₀.onCpu 0 ∧ s₃.onCpu 0), s₁.mode, s₂.registers 5, s₀.registers 5))
      = some (true, .switched, 9, 7) := by decide +kernel
  obtain ⟨s₀, h₀, hrun⟩ := Option.bind_eq_some_iff.mp hrun
  obtain ⟨s₁, h₁, hrun⟩ := Option.bind_eq_some_iff.mp hrun
  obtain ⟨s₂, h₂, hrun⟩ := Option.bind_eq_some_iff.mp hrun
  obtain ⟨s₃, h₃, hobs⟩ := Option.map_eq_some_iff.mp hrun
  simp only [Prod.mk.injEq, decide_eq_true_eq] at hobs
  obtain ⟨⟨hu, hon, hon'⟩, hswitch, h9, h7⟩ := hobs
  have hreach := Reach.of_exec _ h₀
  have haway := Reach.of_exec _ h₂
  have := (context_switches_invisible ⟨0, 0⟩ (fun _ _ => 0) (fun _ => ⟨0, 0⟩) ()).2 0
    .yield s₀ s₁ s₂ s₃ hreach hu hon h₁ hswitch haway h₃ hon'
  exact ⟨s₀, s₁, s₂, s₃, hreach, h₁, haway, h₃, h9, h7, this⟩

end Switch

end Nachos
