import Nachos.Rendezvous

/-!
# The rendezvous protocol keeps its invariant

Each layer of `Rendezvous.Inv` is kept by every step, and each by its own
argument. For `Links` a step either leaves the `join`s alone
(`Links.setStatus`) or takes one process on to the next point of its `join`
(`Links.advance`). The `Counters` of a process depend on its own status and
on the stage of the wait for it only, so that it is enough to balance those
two (`Balanced`). Of the `History` every step but `exit` and `spawn` is a
change of one status, and then perhaps one event that fits the state.
-/

namespace Rendezvous

variable {α ε : Type} [DecidableEq α]

variable {s s' : State α ε}

/-- The three points of a `join` of `c`. -/
inductive Joining (c : α) : Status α ε → Stage → Prop where
  | begun : Joining c (.waiting c) .begun
  | waited : Joining c (.reading c) .waited
  | collected (e : ε) : Joining c (.returning c e) .collected

section Links

variable (h : Links s) {p c : α} {x : Status α ε}
  (hstatus : s'.status = Function.update s.status p x)

include h hstatus

/-- `p` goes on without entering or leaving a `join`. -/
theorem Links.setStatus (hparent : s'.parent = s.parent) (hstage : s'.stage = s.stage)
    (hx : x ≠ .absent) (hold : (s.status p).awaits = none) (hnew : x.awaits = none)
    (hend : x.ended → ∀ d, s.parent d = some p → s.stage d = .collected) : Links s' := by
  have hself : s'.status p = x := by rw [hstatus, Function.update_self]
  have hother : ∀ {q}, q ≠ p → s'.status q = s.status q := fun hq => by
    rw [hstatus, Function.update_of_ne hq]
  constructor
  case born =>
    intro d q hd
    by_cases hdp : d = p
    · rw [hdp, hself]
      exact hx
    · rw [hother hdp]
      exact h.born d q (hparent ▸ hd)
  case waiting =>
    intro q d hq
    rw [hparent, hstage]
    by_cases hqp : q = p
    · rw [hqp, hself] at hq
      rw [hq] at hnew
      cases hnew
    · exact h.waiting q d ((hother hqp).symm.trans hq)
  case reading =>
    intro q d hq
    rw [hparent, hstage]
    by_cases hqp : q = p
    · rw [hqp, hself] at hq
      rw [hq] at hnew
      cases hnew
    · exact h.reading q d ((hother hqp).symm.trans hq)
  case begun =>
    intro d hd
    obtain ⟨q, hq⟩ := h.begun d (hstage ▸ hd)
    have hqp : q ≠ p := by
      rintro rfl
      rw [hq] at hold
      cases hold
    exact ⟨q, (hother hqp).trans hq⟩
  case waited =>
    intro d hd
    obtain ⟨q, hq⟩ := h.waited d (hstage ▸ hd)
    have hqp : q ≠ p := by
      rintro rfl
      rw [hq] at hold
      cases hold
    exact ⟨q, (hother hqp).trans hq⟩
  case done =>
    intro q d hq hd
    rw [hparent] at hd
    rw [hstage]
    by_cases hqp : q = p
    · subst hqp
      rw [hself] at hq
      exact hend hq d hd
    · rw [hother hqp] at hq
      exact h.done q d hq hd

/-- `p` gets on with the `join` of its child `c`: into it, to the read, or
out of it. -/
theorem Links.advance {j : Stage} (hparent : s'.parent = s.parent)
    (hstage : s'.stage = Function.update s.stage c j) (hj : Joining c x j)
    (hpar : s.parent c = some p) (hold : ∀ d, (s.status p).awaits = some d → d = c) :
    Links s' := by
  have hself : s'.status p = x := by rw [hstatus, Function.update_self]
  have hother : ∀ {q}, q ≠ p → s'.status q = s.status q := fun hq => by
    rw [hstatus, Function.update_of_ne hq]
  have hchild : s'.stage c = j := by rw [hstage, Function.update_self]
  have hrest : ∀ {d}, d ≠ c → s'.stage d = s.stage d := fun hd => by
    rw [hstage, Function.update_of_ne hd]
  -- nobody else is in a `join` of `c`
  have hmine : ∀ {q}, s.parent c = some q → q = p := fun hq =>
    Option.some.inj (hq.symm.trans hpar)
  constructor
  case born =>
    intro d q hd
    by_cases hdp : d = p
    · rw [hdp, hself]
      cases hj <;> nofun
    · rw [hother hdp]
      exact h.born d q (hparent ▸ hd)
  case waiting =>
    intro q d hq
    rw [hparent]
    by_cases hqp : q = p
    · subst hqp
      rw [hself] at hq
      subst hq
      cases hj
      exact ⟨hpar, hchild⟩
    · rw [hother hqp] at hq
      obtain ⟨hd, hbegun⟩ := h.waiting q d hq
      have hdc : d ≠ c := fun he => hqp (hmine (he ▸ hd))
      exact ⟨hd, (hrest hdc).trans hbegun⟩
  case reading =>
    intro q d hq
    rw [hparent]
    by_cases hqp : q = p
    · subst hqp
      rw [hself] at hq
      subst hq
      cases hj
      exact ⟨hpar, hchild⟩
    · rw [hother hqp] at hq
      obtain ⟨hd, hwaited⟩ := h.reading q d hq
      have hdc : d ≠ c := fun he => hqp (hmine (he ▸ hd))
      exact ⟨hd, (hrest hdc).trans hwaited⟩
  case begun =>
    intro d hd
    by_cases hdc : d = c
    · subst hdc
      rw [hchild] at hd
      subst hd
      cases hj
      exact ⟨p, hself⟩
    · rw [hrest hdc] at hd
      obtain ⟨q, hq⟩ := h.begun d hd
      have hqp : q ≠ p := fun he => hdc (hold d (by rw [← he, hq]; rfl))
      exact ⟨q, (hother hqp).trans hq⟩
  case waited =>
    intro d hd
    by_cases hdc : d = c
    · subst hdc
      rw [hchild] at hd
      subst hd
      cases hj
      exact ⟨p, hself⟩
    · rw [hrest hdc] at hd
      obtain ⟨q, hq⟩ := h.waited d hd
      have hqp : q ≠ p := fun he => hdc (hold d (by rw [← he, hq]; rfl))
      exact ⟨q, (hother hqp).trans hq⟩
  case done =>
    intro q d hq hd
    have hqp : q ≠ p := by
      rintro rfl
      rw [hself] at hq
      cases hj <;> exact hq
    rw [hother hqp] at hq
    rw [hparent] at hd
    have hdc : d ≠ c := fun he => hqp (hmine (he ▸ hd))
    exact (hrest hdc).trans (h.done q d hq hd)

end Links

/-- A new process is nobody's parent, and only its creator's child. -/
theorem Links.spawn (h : Links s) {p c : α}
    (hstatus : s'.status = Function.update s.status c .running)
    (hparent : s'.parent = Function.update s.parent c (some p)) (hstage : s'.stage = s.stage)
    (hp : s.status p = .running) (hc : s.status c = .absent) : Links s' := by
  have hrun : Links { s with status := s'.status } :=
    h.setStatus hstatus rfl rfl nofun (by rw [hc]; rfl) rfl False.elim
  have hself : s'.parent c = some p := by rw [hparent, Function.update_self]
  have hother : ∀ {d}, d ≠ c → s'.parent d = s.parent d := fun hd => by
    rw [hparent, Function.update_of_ne hd]
  have hkept : ∀ {d q}, s.parent d = some q → s'.parent d = some q := by
    intro d q hd
    have hdc : d ≠ c := fun he => h.born d q hd (he ▸ hc)
    rw [hother hdc, hd]
  constructor
  case born =>
    intro d q hd
    by_cases hdc : d = c
    · rw [hdc, hstatus, Function.update_self]
      nofun
    · exact hrun.born d q ((hother hdc).symm.trans hd)
  case waiting =>
    intro q d hq
    rw [hstage]
    exact (hrun.waiting q d hq).imp_left hkept
  case reading =>
    intro q d hq
    rw [hstage]
    exact (hrun.reading q d hq).imp_left hkept
  case begun => exact fun d hd => hrun.begun d (hstage ▸ hd)
  case waited => exact fun d hd => hrun.waited d (hstage ▸ hd)
  case done =>
    intro q d hq hd
    rw [hstage]
    by_cases hdc : d = c
    · rw [hdc, hself] at hd
      obtain rfl := Option.some.inj hd
      have hpc : p ≠ c := by
        rintro rfl
        rw [hp] at hc
        cases hc
      rw [hstatus, Function.update_of_ne hpc, hp] at hq
      exact hq.elim
    · exact hrun.done q d hq ((hother hdc).symm.trans hd)

theorem Links.step (h : Links s) (hs : Step s s') : Links s' := by
  cases hs with
  | spawn p c e hp hc hst => exact h.spawn rfl rfl rfl hp hc
  | join p c hp hpar hst =>
      refine h.advance rfl rfl rfl .begun hpar ?_
      rw [hp]
      nofun
  | wait p c hp hpost =>
      refine h.advance rfl rfl rfl .waited (h.waiting p c hp).1 ?_
      rw [hp]
      rintro d ⟨⟩
      rfl
  | read p c hp =>
      refine h.advance rfl rfl rfl (.collected _) (h.reading p c hp).1 ?_
      rw [hp]
      rintro d ⟨⟩
      rfl
  | ret p c e hp => exact h.setStatus rfl rfl rfl nofun (by rw [hp]; rfl) rfl False.elim
  | exit p e hp hch => exact h.setStatus rfl rfl rfl nofun (by rw [hp]; rfl) rfl fun _ => hch
  | post p hp =>
      exact h.setStatus rfl rfl rfl nofun (by rw [hp]; rfl) rfl fun _ d =>
        h.done p d (by rw [hp]; trivial)
  | leave p hp hl =>
      exact h.setStatus rfl rfl rfl nofun (by rw [hp]; rfl) rfl fun _ d =>
        h.done p d (by rw [hp]; trivial)
  | remove p hp =>
      exact h.setStatus rfl rfl rfl nofun (by rw [hp]; rfl) rfl fun _ d =>
        h.done p d (by rw [hp]; trivial)

/-! The counters of a process depend on nothing but its own status and how
far the wait for it has come. -/

structure Balanced (x : Status α ε) (j : Stage) (post leave : Int) : Prop where
  post : x ≠ .absent → post = (if x.released then 1 else 0) - (if j.taken then 1 else 0)
  leave : x ≠ .absent → leave = (if j = .collected then 1 else 0) - (if x.granted then 1 else 0)
  taken : x ≠ .absent → j.taken → x.released
  granted : x.granted → j = .collected

section Counters

variable (h : Counters s)

include h

omit [DecidableEq α] in
theorem Counters.balanced (c : α) :
    Balanced (s.status c) (s.stage c) (s.post c) (s.leave c) :=
  ⟨h.post c, h.leave c, h.taken c, h.granted c⟩

omit [DecidableEq α] in
/-- Only the counters of `c` have to be looked at. -/
theorem Counters.at {c : α} (hstatus : ∀ d, d ≠ c → s'.status d = s.status d)
    (hstage : ∀ d, d ≠ c → s'.stage d = s.stage d) (hpost : ∀ d, d ≠ c → s'.post d = s.post d)
    (hleave : ∀ d, d ≠ c → s'.leave d = s.leave d)
    (hc : Balanced (s'.status c) (s'.stage c) (s'.post c) (s'.leave c)) : Counters s' := by
  have hall : ∀ d, Balanced (s'.status d) (s'.stage d) (s'.post d) (s'.leave d) := by
    intro d
    by_cases hd : d = c
    · rw [hd]
      exact hc
    · rw [hstatus d hd, hstage d hd, hpost d hd, hleave d hd]
      exact h.balanced d
  exact ⟨fun d => (hall d).post, fun d => (hall d).leave, fun d => (hall d).taken,
    fun d => (hall d).granted⟩

end Counters

namespace Balanced

variable {x y : Status α ε} {j j' : Stage} {m n : Int}

omit [DecidableEq α] in
theorem new : Balanced (.running : Status α ε) .idle 0 0 :=
  ⟨fun _ => rfl, fun _ => rfl, fun _ => False.elim, False.elim⟩

omit [DecidableEq α] in
/-- Nothing has been posted, taken or granted in between. -/
theorem congr (h : Balanced x j m n) (hx : x ≠ .absent) (hreleased : y.released ↔ x.released)
    (hgranted : y.granted ↔ x.granted) (htaken : j'.taken ↔ j.taken)
    (hcollected : j' = .collected ↔ j = .collected) : Balanced y j' m n where
  post _ := by simp only [hreleased, htaken, h.post hx]
  leave _ := by simp only [hgranted, hcollected, h.leave hx]
  taken _ ht := hreleased.mpr (h.taken hx (htaken.mp ht))
  granted hg := hcollected.mpr (h.granted (hgranted.mp hg))

omit [DecidableEq α] in
theorem congr_stage (h : Balanced x j m n) (htaken : j'.taken ↔ j.taken)
    (hcollected : j' = .collected ↔ j = .collected) : Balanced x j' m n where
  post hx := by simp only [htaken, h.post hx]
  leave hx := by simp only [hcollected, h.leave hx]
  taken hx ht := h.taken hx (htaken.mp ht)
  granted hg := hcollected.mpr (h.granted hg)

omit [DecidableEq α] in
/-- The parent takes what the child has posted. -/
theorem take (h : Balanced x .begun m n) (hx : x ≠ .absent) (hm : m ≠ 0) :
    Balanced x .waited (m - 1) n := by
  have hpost := h.post hx
  have hreleased : x.released := by
    by_contra hnot
    rw [if_neg hnot] at hpost
    exact hm hpost
  refine ⟨fun _ => ?_, h.leave, fun _ _ => hreleased, fun hg => nomatch h.granted hg⟩
  rw [hpost, if_pos hreleased]
  rfl

omit [DecidableEq α] in
/-- The parent grants the child its leave. -/
theorem grant (h : Balanced x .waited m n) : Balanced x .collected m (n + 1) := by
  refine ⟨h.post, fun hx => ?_, h.taken, fun _ => rfl⟩
  have hnot : ¬x.granted := fun hg => nomatch h.granted hg
  rw [h.leave hx, if_neg hnot]
  rfl

omit [DecidableEq α] in
/-- The child posts. -/
theorem release (h : Balanced (.exiting : Status α ε) j m n) :
    Balanced (.posted : Status α ε) j (m + 1) n := by
  have hpost := h.post nofun
  refine ⟨fun _ => ?_, fun _ => h.leave nofun, fun _ _ => trivial, False.elim⟩
  rw [hpost, if_neg (show ¬(Status.exiting : Status α ε).released from id),
    if_pos (show (Status.posted : Status α ε).released from trivial)]
  omega

omit [DecidableEq α] in
/-- The child takes its leave. -/
theorem depart (h : Balanced (.posted : Status α ε) j m n) (hn : n ≠ 0) :
    Balanced (.leaving : Status α ε) j m (n - 1) := by
  have hleave := h.leave nofun
  have hcollected : j = .collected := by
    by_contra hnot
    rw [if_neg hnot] at hleave
    exact hn hleave
  subst hcollected
  refine ⟨fun _ => h.post nofun, fun _ => ?_, fun _ _ => trivial, fun _ => rfl⟩
  rw [hleave]
  rfl

end Balanced

theorem Counters.setStatus (h : Counters s) {p : α} {x : Status α ε}
    (hstatus : s'.status = Function.update s.status p x) (hstage : s'.stage = s.stage)
    (hpost : s'.post = s.post) (hleave : s'.leave = s.leave) (hp : s.status p ≠ .absent)
    (hreleased : x.released ↔ (s.status p).released) (hgranted : x.granted ↔ (s.status p).granted) :
    Counters s' := by
  refine h.at (c := p) (fun d hd => by rw [hstatus, Function.update_of_ne hd])
    (fun d _ => by rw [hstage]) (fun d _ => by rw [hpost]) (fun d _ => by rw [hleave]) ?_
  rw [hstatus, Function.update_self, hstage, hpost, hleave]
  exact (h.balanced p).congr hp hreleased hgranted Iff.rfl Iff.rfl

theorem Counters.step (h : Counters s) (hl : Links s) (hs : Step s s') : Counters s' := by
  -- a parent's own counters do not change with its progress through a `join`
  have hparent : ∀ {p x}, (∀ y, s.status p = y → y ≠ .absent ∧ ¬y.released ∧ ¬y.granted) →
      ¬x.released → ¬x.granted → Counters { s with status := Function.update s.status p x } := by
    intro p x hp hr hg
    obtain ⟨habs, hr', hg'⟩ := hp _ rfl
    exact h.setStatus rfl rfl rfl rfl habs (iff_of_false hr hr') (iff_of_false hg hg')
  cases hs with
  | spawn p c e hp hc hst =>
      refine h.at (c := c) (fun d hd => Function.update_of_ne hd _ _) (fun d _ => rfl)
        (fun d hd => Function.update_of_ne hd _ _) (fun d hd => Function.update_of_ne hd _ _) ?_
      simp only [Function.update_self, hst]
      exact .new
  | join p c hp hpar hst =>
      have h₁ := hparent (p := p) (x := .waiting c)
        (by rintro _ rfl; rw [hp]; exact ⟨nofun, id, id⟩) id id
      refine h₁.at (c := c) (fun d _ => rfl) (fun d hd => Function.update_of_ne hd _ _)
        (fun d _ => rfl) (fun d _ => rfl) ?_
      have hc := h₁.balanced c
      simp only [Function.update_self, hst] at hc ⊢
      exact hc.congr_stage Iff.rfl (iff_of_false nofun nofun)
  | wait p c hp hne =>
      obtain ⟨hpar, hst⟩ := hl.waiting p c hp
      have h₁ := hparent (p := p) (x := .reading c)
        (by rintro _ rfl; rw [hp]; exact ⟨nofun, id, id⟩) id id
      have hborn : Function.update s.status p (.reading c) c ≠ .absent := by
        by_cases hcp : c = p
        · rw [hcp, Function.update_self]
          nofun
        · rw [Function.update_of_ne hcp]
          exact hl.born c p hpar
      refine h₁.at (c := c) (fun d _ => rfl) (fun d hd => Function.update_of_ne hd _ _)
        (fun d hd => Function.update_of_ne hd _ _) (fun d _ => rfl) ?_
      have hc := h₁.balanced c
      simp only [Function.update_self, hst] at hc ⊢
      exact hc.take hborn hne
  | read p c hp =>
      obtain ⟨hpar, hst⟩ := hl.reading p c hp
      have h₁ := hparent (p := p) (x := .returning c (s.code c))
        (by rintro _ rfl; rw [hp]; exact ⟨nofun, id, id⟩) id id
      refine h₁.at (c := c) (fun d _ => rfl) (fun d hd => Function.update_of_ne hd _ _)
        (fun d _ => rfl) (fun d hd => Function.update_of_ne hd _ _) ?_
      have hc := h₁.balanced c
      simp only [Function.update_self, hst] at hc ⊢
      exact hc.grant
  | ret p c e hp =>
      have h₁ := hparent (p := p) (x := .running) (by rintro _ rfl; rw [hp]; exact ⟨nofun, id, id⟩)
        id id
      exact { h₁ with }
  | exit p e hp hch =>
      have h₁ := hparent (p := p) (x := .exiting) (by rintro _ rfl; rw [hp]; exact ⟨nofun, id, id⟩)
        id id
      exact { h₁ with }
  | post p hp =>
      refine h.at (c := p) (fun d hd => Function.update_of_ne hd _ _) (fun d _ => rfl)
        (fun d hd => Function.update_of_ne hd _ _) (fun d _ => rfl) ?_
      have hc := h.balanced p
      simp only [Function.update_self, hp] at hc ⊢
      exact hc.release
  | leave p hp hne =>
      refine h.at (c := p) (fun d hd => Function.update_of_ne hd _ _) (fun d _ => rfl)
        (fun d _ => rfl) (fun d hd => Function.update_of_ne hd _ _) ?_
      have hc := h.balanced p
      simp only [Function.update_self, hp] at hc ⊢
      exact hc.depart hne
  | remove p hp =>
      exact h.setStatus rfl rfl rfl rfl (by rw [hp]; nofun) (by rw [hp]; exact Iff.rfl)
        (by rw [hp]; exact Iff.rfl)

omit [DecidableEq α] in
theorem History.removed_cons {log : List (Event α ε)} {x : Event α ε}
    (h : ∀ c l₁ l₂, log = l₂ ++ .removed c :: l₁ → ∃ p e, .read p c e ∈ l₁)
    (hx : ∀ c, x = .removed c → ∃ p e, .read p c e ∈ log) :
    ∀ c l₁ l₂, x :: log = l₂ ++ .removed c :: l₁ → ∃ p e, .read p c e ∈ l₁ := by
  intro c l₁ l₂ heq
  cases l₂ with
  | nil =>
      obtain ⟨rfl, rfl⟩ := List.cons.inj heq
      exact hx c rfl
  | cons y l₂ => exact h c l₁ l₂ (List.cons.inj heq).2

section History

variable (h : History s) {p : α} {x : Status α ε}

include h

/-- `p` goes on, and nothing is recorded. -/
theorem History.setStatus (hstatus : s'.status = Function.update s.status p x)
    (hparent : s'.parent = s.parent) (hcode : s'.code = s.code) (hlog : s'.log = s.log)
    (hstage : ∀ d, s'.stage d = .collected → s.stage d = .collected) (hp : s.status p ≠ .absent)
    (hend : x.ended ↔ (s.status p).ended)
    (hreturning : ∀ d e, x = .returning d e → s.parent d = some p ∧ .exited d e ∈ s.log) :
    History s' := by
  have hself : s'.status p = x := by rw [hstatus, Function.update_self]
  have hother : ∀ {q}, q ≠ p → s'.status q = s.status q := fun hq => by
    rw [hstatus, Function.update_of_ne hq]
  have hended : ∀ q, (s'.status q).ended ↔ (s.status q).ended := by
    intro q
    by_cases hqp : q = p
    · rw [hqp, hself]
      exact hend
    · rw [hother hqp]
  constructor
  case code =>
    intro d hd
    rw [hcode, hlog]
    exact h.code d ((hended d).mp hd)
  case exited =>
    intro d e hd
    rw [hlog] at hd
    obtain ⟨hend', heq⟩ := h.exited d e hd
    exact ⟨(hended d).mpr hend', by rw [hcode, heq]⟩
  case returning =>
    intro q d e hq
    rw [hparent, hlog]
    by_cases hqp : q = p
    · rw [hqp, hself] at hq
      rw [hqp]
      exact hreturning d e hq
    · exact h.returning q d e ((hother hqp).symm.trans hq)
  case collected =>
    intro d hd hst
    rw [hlog]
    refine h.collected d ?_ (hstage d hst)
    by_cases hdp : d = p
    · rw [hdp]
      exact hp
    · rw [← hother hdp]
      exact hd
  case read =>
    rw [hparent, hlog]
    exact h.read
  case returned =>
    rw [hparent, hlog]
    exact h.returned
  case removed =>
    rw [hlog]
    exact h.removed

omit [DecidableEq α] in
/-- An event is recorded that fits the state, and with a read its child is
collected. -/
theorem History.record {ev : Event α ε} (hlog : s'.log = ev :: s.log)
    (hstatus : s'.status = s.status) (hparent : s'.parent = s.parent) (hcode : s'.code = s.code)
    (hstage : ∀ d, s'.stage d = .collected → s.stage d = .collected ∨ ∃ q e, ev = .read q d e)
    (hexited : ∀ d e, ev ≠ .exited d e)
    (hread : ∀ q d e, ev = .read q d e ∨ ev = .returned q d e →
      s.parent d = some q ∧ .exited d e ∈ s.log)
    (hremoved : ∀ d, ev = .removed d → ∃ q e, .read q d e ∈ s.log) : History s' := by
  have hold : ∀ {e}, e ∈ s.log → e ∈ s'.log := fun he => by
    rw [hlog]
    exact List.mem_cons_of_mem _ he
  have hcases : ∀ {e}, e ∈ s'.log → ev = e ∨ e ∈ s.log := fun he => by
    rw [hlog] at he
    exact (List.mem_cons.mp he).imp_left Eq.symm
  constructor
  case code =>
    intro d hd
    rw [hcode]
    exact hold (h.code d (hstatus ▸ hd))
  case exited =>
    intro d e hd
    rw [hstatus, hcode]
    exact h.exited d e ((hcases hd).resolve_left (hexited d e))
  case returning =>
    intro q d e hq
    rw [hparent]
    exact (h.returning q d e (hstatus ▸ hq)).imp_right hold
  case collected =>
    intro d hd hst
    rcases hstage d hst with hst | ⟨q, e, rfl⟩
    · obtain ⟨q, e, hq⟩ := h.collected d (hstatus ▸ hd) hst
      exact ⟨q, e, hold hq⟩
    · exact ⟨q, e, by rw [hlog]; exact List.mem_cons_self⟩
  case read =>
    intro q d e hq
    rw [hparent]
    rcases hcases hq with hq | hq
    · exact (hread q d e (Or.inl hq)).imp_right hold
    · exact (h.read q d e hq).imp_right hold
  case returned =>
    intro q d e hq
    rw [hparent]
    rcases hcases hq with hq | hq
    · exact (hread q d e (Or.inr hq)).imp_right hold
    · exact (h.returned q d e hq).imp_right hold
  case removed =>
    rw [hlog]
    exact History.removed_cons h.removed hremoved

/-- A process that has not ended yet ends. -/
theorem History.exit {e : ε} (hstatus : s'.status = Function.update s.status p .exiting)
    (hparent : s'.parent = s.parent) (hcode : s'.code = Function.update s.code p e)
    (hstage : s'.stage = s.stage) (hlog : s'.log = .exited p e :: s.log)
    (hp : s.status p = .running) : History s' := by
  have hself : s'.status p = .exiting := by rw [hstatus, Function.update_self]
  have hother : ∀ {q}, q ≠ p → s'.status q = s.status q := fun hq => by
    rw [hstatus, Function.update_of_ne hq]
  have hcode' : s'.code p = e := by rw [hcode, Function.update_self]
  have hrest : ∀ {q}, q ≠ p → s'.code q = s.code q := fun hq => by
    rw [hcode, Function.update_of_ne hq]
  have hold : ∀ {ev}, ev ∈ s.log → ev ∈ s'.log := fun he => by
    rw [hlog]
    exact List.mem_cons_of_mem _ he
  have hnew : ∀ {ev}, ev ∈ s'.log → ev = .exited p e ∨ ev ∈ s.log := fun he => by
    rw [hlog] at he
    exact List.mem_cons.mp he
  constructor
  case code =>
    intro d hd
    by_cases hdp : d = p
    · rw [hdp, hcode', hlog]
      exact List.mem_cons_self
    · rw [hother hdp] at hd
      rw [hrest hdp]
      exact hold (h.code d hd)
  case exited =>
    intro d e' hd
    rcases hnew hd with heq | hd
    · cases heq
      exact ⟨by rw [hself]; trivial, hcode'⟩
    · obtain ⟨hend, heq⟩ := h.exited d e' hd
      have hdp : d ≠ p := by
        rintro rfl
        rw [hp] at hend
        exact hend
      rw [hother hdp, hrest hdp]
      exact ⟨hend, heq⟩
  case returning =>
    intro q d e' hq
    have hqp : q ≠ p := by
      rintro rfl
      rw [hself] at hq
      cases hq
    rw [hparent]
    exact (h.returning q d e' ((hother hqp).symm.trans hq)).imp_right hold
  case collected =>
    intro d hd hst
    rw [hstage] at hst
    have hd' : s.status d ≠ .absent := by
      by_cases hdp : d = p
      · rw [hdp, hp]
        nofun
      · rw [← hother hdp]
        exact hd
    obtain ⟨q, e', hq⟩ := h.collected d hd' hst
    exact ⟨q, e', hold hq⟩
  case read =>
    intro q d e' hq
    rw [hparent]
    exact (h.read q d e' ((hnew hq).resolve_left nofun)).imp_right hold
  case returned =>
    intro q d e' hq
    rw [hparent]
    exact (h.returned q d e' ((hnew hq).resolve_left nofun)).imp_right hold
  case removed =>
    rw [hlog]
    exact History.removed_cons h.removed nofun

/-- Nothing is recorded of a new process. -/
theorem History.spawn (hl : Links s) {c : α} {e : ε}
    (hstatus : s'.status = Function.update s.status c .running)
    (hparent : s'.parent = Function.update s.parent c (some p))
    (hcode : s'.code = Function.update s.code c e) (hstage : s'.stage = s.stage)
    (hlog : s'.log = s.log) (hc : s.status c = .absent) (hst : s.stage c = .idle) :
    History s' := by
  have hself : s'.status c = .running := by rw [hstatus, Function.update_self]
  have hother : ∀ {q}, q ≠ c → s'.status q = s.status q := fun hq => by
    rw [hstatus, Function.update_of_ne hq]
  have hkept : ∀ {d q}, s.parent d = some q → s'.parent d = some q := by
    intro d q hd
    have hdc : d ≠ c := fun he => hl.born d q hd (he ▸ hc)
    rw [hparent, Function.update_of_ne hdc, hd]
  have hrest : ∀ {q}, q ≠ c → s'.code q = s.code q := fun hq => by
    rw [hcode, Function.update_of_ne hq]
  constructor
  case code =>
    intro d hd
    have hdc : d ≠ c := by
      rintro rfl
      rw [hself] at hd
      exact hd
    rw [hother hdc] at hd
    rw [hrest hdc, hlog]
    exact h.code d hd
  case exited =>
    intro d e' hd
    rw [hlog] at hd
    obtain ⟨hend, heq⟩ := h.exited d e' hd
    have hdc : d ≠ c := by
      rintro rfl
      rw [hc] at hend
      exact hend
    rw [hother hdc, hrest hdc]
    exact ⟨hend, heq⟩
  case returning =>
    intro q d e' hq
    have hqc : q ≠ c := by
      rintro rfl
      rw [hself] at hq
      cases hq
    rw [hlog]
    exact (h.returning q d e' ((hother hqc).symm.trans hq)).imp_left hkept
  case collected =>
    intro d hd hcol
    rw [hstage] at hcol
    have hdc : d ≠ c := by
      rintro rfl
      rw [hst] at hcol
      cases hcol
    rw [hlog]
    exact h.collected d (hother hdc ▸ hd) hcol
  case read =>
    intro q d e' hq
    rw [hlog] at hq ⊢
    exact (h.read q d e' hq).imp_left hkept
  case returned =>
    intro q d e' hq
    rw [hlog] at hq ⊢
    exact (h.returned q d e' hq).imp_left hkept
  case removed =>
    rw [hlog]
    exact h.removed

end History

theorem History.step (h : History s) (hl : Links s) (hc : Counters s) (hs : Step s s') :
    History s' := by
  have hstage : ∀ {c j}, j ≠ .collected →
      ∀ d, Function.update s.stage c j d = .collected → s.stage d = .collected := by
    intro c j hj d hd
    by_cases hdc : d = c
    · rw [hdc, Function.update_self] at hd
      exact absurd hd hj
    · rwa [Function.update_of_ne hdc] at hd
  cases hs with
  | spawn p c e hp ha hst => exact h.spawn hl rfl rfl rfl rfl rfl ha hst
  | join p c hp hpar hst =>
      exact h.setStatus rfl rfl rfl rfl (hstage nofun) (by rw [hp]; nofun)
        (by rw [hp]; exact Iff.rfl) nofun
  | wait p c hp hpost =>
      exact h.setStatus rfl rfl rfl rfl (hstage nofun) (by rw [hp]; nofun)
        (by rw [hp]; exact Iff.rfl) nofun
  | read p c hp =>
      obtain ⟨hpar, hst⟩ := hl.reading p c hp
      have hend : (s.status c).ended :=
        (hc.taken c (hl.born c p hpar) (by rw [hst]; trivial)).ended
      have hexited := h.code c hend
      have h₁ : History { s with
          status := Function.update s.status p (.returning c (s.code c)) } := by
        refine h.setStatus rfl rfl rfl rfl (fun _ => id) (by rw [hp]; nofun)
          (by rw [hp]; exact Iff.rfl) ?_
        rintro d e ⟨⟩
        exact ⟨hpar, hexited⟩
      refine h₁.record rfl rfl rfl rfl ?_ nofun ?_ nofun
      · intro d hd
        by_cases hdc : d = c
        · exact Or.inr ⟨p, s.code c, by rw [hdc]⟩
        · exact Or.inl ((Function.update_of_ne hdc _ _).symm.trans hd)
      · rintro q d e (⟨⟨⟩⟩ | hd)
        · exact ⟨hpar, hexited⟩
        · cases hd
  | ret p c e hp =>
      obtain ⟨hpar, hexited⟩ := h.returning p c e hp
      have h₁ : History { s with status := Function.update s.status p .running } :=
        h.setStatus rfl rfl rfl rfl (fun _ => id) (by rw [hp]; nofun) (by rw [hp]; exact Iff.rfl)
          nofun
      refine h₁.record rfl rfl rfl rfl (fun _ => Or.inl) nofun ?_ nofun
      rintro q d e' (hd | ⟨⟨⟩⟩)
      · cases hd
      · exact ⟨hpar, hexited⟩
  | exit p e hp hch => exact h.exit rfl rfl rfl rfl rfl hp
  | post p hp =>
      exact h.setStatus rfl rfl rfl rfl (fun _ => id) (by rw [hp]; nofun)
        (by rw [hp]; exact Iff.rfl) nofun
  | leave p hp hl =>
      exact h.setStatus rfl rfl rfl rfl (fun _ => id) (by rw [hp]; nofun)
        (by rw [hp]; exact Iff.rfl) nofun
  | remove p hp =>
      have hcp : s.stage p = .collected := hc.granted p (by rw [hp]; trivial)
      have h₁ : History { s with status := Function.update s.status p .gone } :=
        h.setStatus rfl rfl rfl rfl (fun _ => id) (by rw [hp]; nofun) (by rw [hp]; exact Iff.rfl)
          nofun
      refine h₁.record rfl rfl rfl rfl (fun _ => Or.inl) nofun ?_ ?_
      · rintro q d e (hd | hd) <;> cases hd
      · rintro d ⟨⟩
        exact h.collected p (by rw [hp]; nofun) hcp

theorem Inv.step (h : Inv s) (hs : Step s s') : Inv s' :=
  ⟨h.links.step hs, h.counters.step h.links hs, h.history.step h.links h.counters hs⟩

end Rendezvous
