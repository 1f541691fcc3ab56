import Mathlib.Algebra.Order.Ring.Int
import Mathlib.Data.List.Basic
import Mathlib.Tactic.Linarith

/-!
# A rotating disk with one head

Time is counted in ticks. A track has `sectors` sectors, and the disk turns by
one of them in `sectorTime` ticks, all tracks together: in the `k`-th turn, from
`k * sectorTime` to `(k + 1) * sectorTime`, the sectors pass under the head whose
number leaves the remainder of `k`. The head stays on a track until an access
asks for another one and then takes `seekTime` for each track that it crosses.

An access is *served* (`Serves`) when its sector has passed under the head,
from beginning to end, after the head had come to the track and before the
access was finished; for an access that writes, after it was issued. A disk that
keeps what passes under its head may answer a read from an earlier turn, but no
access waits longer than for the next turn of its sector after the seek. The
first turn from a given time on is `nextPass`, and the two ways of serving an
access are `Serves.of_nextPass` and `Serves.of_kept`.
-/

namespace Rotation

/-- What a disk is like. -/
structure Drive where
  sectors : Int
  sectorTime : Int
  seekTime : Int
  sectors_pos : 0 < sectors
  sectorTime_pos : 0 < sectorTime
  seekTime_nonneg : 0 ≤ seekTime

/-- The track the head is on, and since when. -/
structure Head where
  track : Int
  since : Int
deriving DecidableEq

/-- One access: what was asked for and when, and when it was finished. -/
structure Access where
  sector : Int
  writing : Bool
  issued : Int
  finished : Int
deriving DecidableEq, Repr

namespace Drive

variable (g : Drive)

/-- The track of a sector. -/
def track (sector : Int) : Int := sector / g.sectors

/-- `sector` passes under the head in the `k`-th turn. -/
def Passes (sector k : Int) : Prop := k % g.sectors = sector % g.sectors

/-- When the head is on the track of the access. -/
def reached (h : Head) (a : Access) : Int :=
  a.issued + |g.track a.sector - h.track| * g.seekTime

/-- The head after the access. -/
def after (h : Head) (a : Access) : Head :=
  if g.track a.sector = h.track then h else ⟨g.track a.sector, g.reached h a⟩

/-- The access is one that the disk can make, and makes without delay. -/
structure Serves (h : Head) (a : Access) : Prop where
  passed : ∃ k, g.Passes a.sector k ∧ (g.after h a).since ≤ k * g.sectorTime
    ∧ (a.writing = true → g.reached h a ≤ k * g.sectorTime)
    ∧ (k + 1) * g.sectorTime ≤ a.finished
  prompt : ∀ k, g.Passes a.sector k → g.reached h a ≤ k * g.sectorTime →
    a.finished ≤ (k + 1) * g.sectorTime

/-- A sequence of accesses, one after the other, that the disk can make. -/
def Lawful (h : Head) (log : List Access) : Prop :=
  ∀ before a behind, log = before ++ a :: behind →
    g.Serves (before.foldl g.after h) a ∧ ∀ b ∈ before, b.finished ≤ a.issued

/-- The first turn of `sector` that begins at `t` or later. -/
def nextPass (sector t : Int) : Int :=
  -(-t / g.sectorTime) + (sector - -(-t / g.sectorTime)) % g.sectors

variable {g} {h : Head} {a : Access} {log : List Access}

theorem passes_nextPass (sector t : Int) : g.Passes sector (g.nextPass sector t) := by
  rw [Passes, nextPass, Int.add_emod_emod]
  congr 1
  omega

theorem le_nextPass (sector t : Int) : t ≤ g.nextPass sector t * g.sectorTime := by
  have hceil : t ≤ -(-t / g.sectorTime) * g.sectorTime := by
    have := Int.ediv_mul_le (-t) (ne_of_gt g.sectorTime_pos)
    linarith
  have hwait := Int.emod_nonneg (sector - -(-t / g.sectorTime)) (ne_of_gt g.sectors_pos)
  have := Int.mul_nonneg hwait (le_of_lt g.sectorTime_pos)
  rw [nextPass, Int.add_mul]
  linarith

/-- No earlier turn will do. -/
theorem nextPass_le {sector t k : Int} (hp : g.Passes sector k) (hk : t ≤ k * g.sectorTime) :
    g.nextPass sector t ≤ k := by
  have hceil : -(-t / g.sectorTime) ≤ k := by
    have : -k ≤ -t / g.sectorTime := Int.le_ediv_of_mul_le g.sectorTime_pos (by linarith)
    linarith
  have hsame : (sector - -(-t / g.sectorTime)) % g.sectors
      = (k - -(-t / g.sectorTime)) % g.sectors := by
    rw [Int.sub_emod, ← hp, ← Int.sub_emod]
  have hle : (k - -(-t / g.sectorTime)) % g.sectors ≤ k - -(-t / g.sectorTime) := by
    have hdiv := Int.emod_add_mul_ediv (k - -(-t / g.sectorTime)) g.sectors
    have hq := Int.mul_nonneg (le_of_lt g.sectors_pos)
      (Int.ediv_nonneg (sub_nonneg.mpr hceil) (le_of_lt g.sectors_pos))
    linarith
  rw [nextPass, hsame]
  linarith

/-- Waiting for the next turn after the seek. -/
theorem Serves.of_nextPass (hsince : h.since ≤ a.issued)
    (hf : a.finished = (g.nextPass a.sector (g.reached h a) + 1) * g.sectorTime) :
    g.Serves h a := by
  have hle := le_nextPass (g := g) a.sector (g.reached h a)
  have hreached : a.issued ≤ g.reached h a := by
    have := Int.mul_nonneg (abs_nonneg (g.track a.sector - h.track)) g.seekTime_nonneg
    rw [reached]
    linarith
  refine ⟨⟨_, passes_nextPass _ _, ?_, fun _ => hle, hf.ge⟩, fun k hp hk => ?_⟩
  · rw [after]
    split
    next => linarith
    next => exact hle
  · have hnext := nextPass_le hp hk
    rw [hf]
    exact Int.mul_le_mul_of_nonneg_right (by linarith) (le_of_lt g.sectorTime_pos)

/-- Reading what has passed since the head came to the track. -/
theorem Serves.of_kept (hread : a.writing = false) (htrack : g.track a.sector = h.track)
    (hkept : (g.nextPass a.sector h.since + 1) * g.sectorTime ≤ a.finished)
    (hf : a.finished = a.issued + g.sectorTime) : g.Serves h a := by
  refine ⟨⟨_, passes_nextPass a.sector h.since, ?_, fun hw => ?_, hkept⟩, fun k hp hk => ?_⟩
  · rw [after, if_pos htrack]
    exact le_nextPass _ _
  · rw [hread] at hw
    cases hw
  · rw [reached, htrack, sub_self, abs_zero, Int.zero_mul, Int.add_zero] at hk
    rw [hf, Int.add_mul, Int.one_mul]
    linarith

theorem Lawful.nil (h : Head) : g.Lawful h [] := by
  intro before a behind heq
  exact absurd heq (by simp)

theorem Lawful.append (hl : g.Lawful h log) (ha : g.Serves (log.foldl g.after h) a)
    (hlast : ∀ b ∈ log, b.finished ≤ a.issued) : g.Lawful h (log ++ [a]) := by
  intro before b behind heq
  rcases List.eq_nil_or_concat' behind with rfl | ⟨behind, c, rfl⟩
  · obtain ⟨rfl, hone⟩ := List.append_inj' heq rfl
    obtain rfl := List.head_eq_of_cons_eq hone
    exact ⟨ha, hlast⟩
  · rw [← List.cons_append, ← List.append_assoc] at heq
    exact hl before b behind (List.append_inj' heq rfl).1

end Drive

end Rotation
