import Nachos.CInt
import Nachos.Rotation
import Nachos.Run

/-!
# How long the disk takes

`Disk` does the transfer of a request at once, in the Unix file that stands for
the disk, and what it simulates is the time: the interrupt that ends a request
comes `ComputeLatency` ticks later. That number is computed from the clock, from
the sector of the last request and from `bufferInit`, the time from which on the
track buffer holds what passes under the head.

The modelled system is the disk with the clock and the one interrupt that it
schedules. The clock moves as it likes, requests are made when it pleases the
kernel, and the interrupt is delivered at its time or later. A request while one
is in progress, or for a sector that does not exist, fails an assertion. What was
asked for and when is logged.

A disk of 32 tracks of 32 sectors that turns by a sector in `RotationTime` ticks
and crosses a track in `SeekTime` is the drive `nachosDrive` of `Rotation`, and the
log of every run is one that this drive can make.
-/

namespace Nachos.DiskTiming

open CInt Run Rotation

def sectorsPerTrack : Int := 32

def numTracks : Int := 32

/-- Total number of sectors per disk. -/
def numSectors : Int := sectorsPerTrack * numTracks

/-- Time disk takes to rotate one sector. -/
def rotationTime : Int := 500

/-- Time disk takes to seek past one track. -/
def seekTime : Int := 500

/-! ## `Disk` -/

structure Disk where
  active : Bool
  lastSector : Int
  bufferInit : Int
deriving DecidableEq, Repr

/-- `Disk::Disk`. -/
def Disk.new : Disk := ⟨false, 0, 0⟩

/-- `Disk::TimeToSeek`: the time of the seek, and from there to the next full
sector. -/
def timeToSeek (d : Disk) (totalTicks newSector : Int) : Int × Int :=
  let newTrack := newSector.tdiv sectorsPerTrack
  let oldTrack := d.lastSector.tdiv sectorsPerTrack
  let seek := wrap32 (|newTrack - oldTrack| * seekTime)
  let past := (wrap32 (totalTicks + seek)).tmod rotationTime
  (seek, if past > 0 then rotationTime - past else 0)

/-- `Disk::ModuloDiff`: number of sectors of rotational delay. -/
def moduloDiff (target current : Int) : Int :=
  let toOffset := target.tmod sectorsPerTrack
  let fromOffset := current.tmod sectorsPerTrack
  (toOffset - fromOffset + sectorsPerTrack).tmod sectorsPerTrack

/-- `Disk::ComputeLatency`. -/
def computeLatency (d : Disk) (totalTicks newSector : Int) (writing : Bool) : Int :=
  let (seek, rotation) := timeToSeek d totalTicks newSector
  let timeAfter := wrap32 (wrap32 (totalTicks + seek) + rotation)
  if writing = false ∧ seek = 0
      ∧ (wrap32 (timeAfter - d.bufferInit)).tdiv rotationTime
        > moduloDiff newSector (d.bufferInit.tdiv rotationTime) then
    rotationTime
  else
    let rotation := rotation + moduloDiff newSector (timeAfter.tdiv rotationTime) * rotationTime
    wrap32 (wrap32 (seek + rotation) + rotationTime)

/-- `Disk::UpdateLast`. -/
def updateLast (d : Disk) (totalTicks newSector : Int) : Disk :=
  let (seek, rotate) := timeToSeek d totalTicks newSector
  { d with
    bufferInit := if seek ≠ 0 then wrap32 (wrap32 (totalTicks + seek) + rotate) else d.bufferInit
    lastSector := newSector }

/-! ## The system -/

structure State where
  disk : Disk
  totalTicks : Int
  -- when the disk interrupt is to occur
  due : Option Int
  log : List Access
deriving DecidableEq, Repr

def State.init : State := ⟨Disk.new, 0, none, []⟩

/-- `Disk::ReadRequest` and `Disk::WriteRequest`, which differ in the direction
of the transfer. -/
def request (s : State) (sectorNumber : Int) (writing : Bool) : Option State :=
  let ticks := computeLatency s.disk s.totalTicks sectorNumber writing
  if s.disk.active = true then none
  else if 0 ≤ sectorNumber ∧ sectorNumber < numSectors then
    -- `Interrupt::Schedule` asserts that the interrupt is in the future
    if ticks > 0 then
      let due := wrap32 (s.totalTicks + ticks)
      some { s with
        disk := updateLast { s.disk with active := true } s.totalTicks sectorNumber
        due := some due
        log := s.log ++ [⟨sectorNumber, writing, s.totalTicks, due⟩] }
    else none
  else none

/-- `Disk::ReadRequest`. -/
def readRequest (s : State) (sectorNumber : Int) : Option State :=
  request s sectorNumber false

/-- `Disk::WriteRequest`. -/
def writeRequest (s : State) (sectorNumber : Int) : Option State :=
  request s sectorNumber true

/-- The interrupt occurs: `Disk::CallBack`. -/
def callBack (s : State) : Option State :=
  match s.due with
  | some due =>
      if due ≤ s.totalTicks then
        some { s with disk := { s.disk with active := false }, due := none }
      else none
  | none => none

inductive Action where
  | pass (ticks : Nat)
  | read (sectorNumber : Int)
  | write (sectorNumber : Int)
  | interrupt
deriving DecidableEq, Repr

def step (s : State) : Action → Option State
  | .pass ticks => some { s with totalTicks := wrap32 (s.totalTicks + ticks) }
  | .read sectorNumber => readRequest s sectorNumber
  | .write sectorNumber => writeRequest s sectorNumber
  | .interrupt => callBack s

/-- The clock is an `int`: it does not turn over, and a request is made while
there is time for it. The longest one is a seek over all tracks and a whole
turn. -/
def InRange (s : State) : Action → Prop
  | .pass ticks => s.totalTicks + ticks ≤ intMax
  | .read _ => s.totalTicks + 32000 ≤ intMax
  | .write _ => s.totalTicks + 32000 ≤ intMax
  | .interrupt => True

instance (s : State) : (a : Action) → Decidable (InRange s a)
  | .pass _ => inferInstanceAs (Decidable (_ ≤ _))
  | .read _ => inferInstanceAs (Decidable (_ ≤ _))
  | .write _ => inferInstanceAs (Decidable (_ ≤ _))
  | .interrupt => inferInstanceAs (Decidable True)

/-! ## The drive -/

/-- The disk that is simulated. -/
def nachosDrive : Drive where
  sectors := sectorsPerTrack
  sectorTime := rotationTime
  seekTime := seekTime
  sectors_pos := by decide
  sectorTime_pos := by decide
  seekTime_nonneg := by decide

/-- The head when the machine is switched on. -/
def parked : Head := ⟨0, 0⟩

/-- The first full sector at `t` or later. -/
def boundary (t : Int) : Int := -(-t / 500)

theorem nextPass_eq (sector t : Int) :
    nachosDrive.nextPass sector t = boundary t + (sector - boundary t) % 32 := rfl

theorem moduloDiff_eq {target current : Int} (ht : 0 ≤ target) (hc : 0 ≤ current) :
    moduloDiff target current = (target - current) % 32 := by
  rw [moduloDiff, sectorsPerTrack, Int.tmod_eq_emod_of_nonneg ht, Int.tmod_eq_emod_of_nonneg hc,
    Int.tmod_eq_emod_of_nonneg (by omega)]
  omega

theorem boundary_spec (t : Int) : t ≤ 500 * boundary t ∧ 500 * boundary t < t + 500 := by
  rw [boundary]
  omega

/-! ## One request -/

/-- The disk knows where the head is, and the buffer is filled since the first
full sector after it came there. -/
structure Tracks (d : Disk) (h : Head) : Prop where
  sector : 0 ≤ d.lastSector ∧ d.lastSector < 1024
  track : d.lastSector / 32 = h.track
  since : 0 ≤ h.since
  room : h.since + 500 ≤ intMax
  buffer : d.bufferInit = 500 * boundary h.since

section Request

variable {d : Disk} {h : Head} {now sector : Int} {writing : Bool}

theorem seek_bounds (hd : Tracks d h) (hs : 0 ≤ sector ∧ sector < 1024) :
    0 ≤ |sector / 32 - h.track| * 500 ∧ |sector / 32 - h.track| * 500 ≤ 15500
      ∧ (|sector / 32 - h.track| * 500 = 0 ↔ sector / 32 = h.track) := by
  have habs := abs_cases (sector / 32 - h.track)
  have := hd.track
  have := hd.sector
  omega

theorem timeToSeek_eq (hd : Tracks d h) (hnow : 0 ≤ now) (hroom : now + 32000 ≤ intMax)
    (hs : 0 ≤ sector ∧ sector < 1024) :
    timeToSeek d now sector = (|sector / 32 - h.track| * 500,
      500 * boundary (now + |sector / 32 - h.track| * 500)
        - (now + |sector / 32 - h.track| * 500)) := by
  obtain ⟨hpos, hmax, -⟩ := seek_bounds hd hs
  rw [intMax] at hroom
  simp only [timeToSeek, sectorsPerTrack, seekTime, rotationTime,
    Int.tdiv_eq_ediv_of_nonneg hs.1, Int.tdiv_eq_ediv_of_nonneg hd.sector.1, hd.track]
  generalize |sector / 32 - h.track| * 500 = seek at hpos hmax ⊢
  rw [wrap32_of_bounds (by omega) (by omega), wrap32_of_bounds (by omega) (by omega),
    Int.tmod_eq_emod_of_nonneg (by omega), boundary]
  congr 1
  split <;> omega

/-- A request is served from the buffer or in the next turn. -/
theorem computeLatency_cases (writing : Bool) (hd : Tracks d h) (harrived : h.since ≤ now)
    (hroom : now + 32000 ≤ intMax) (hs : 0 ≤ sector ∧ sector < 1024) :
    (writing = false ∧ sector / 32 = h.track ∧ computeLatency d now sector writing = 500
        ∧ (nachosDrive.nextPass sector h.since + 1) * 500 < now + 500)
      ∨ now + computeLatency d now sector writing
          = (nachosDrive.nextPass sector (now + |sector / 32 - h.track| * 500) + 1) * 500
        ∧ computeLatency d now sector writing ≤ 32000 := by
  obtain ⟨hpos, hmax, hzero⟩ := seek_bounds hd hs
  have hbuffer := boundary_spec h.since
  have hsince := hd.since
  have htime := timeToSeek_eq hd (hsince.trans harrived) hroom hs
  rw [intMax] at hroom
  rw [nextPass_eq, nextPass_eq]
  generalize |sector / 32 - h.track| * 500 = seek at hpos hmax hzero htime ⊢
  have hafter := boundary_spec (now + seek)
  have hkept := hd.buffer
  generalize boundary (now + seek) = b at hafter htime ⊢
  generalize boundary h.since = c at hbuffer hkept ⊢
  have htimeAfter : wrap32 (wrap32 (now + seek) + (500 * b - (now + seek))) = 500 * b := by
    rw [wrap32_of_bounds (x := now + seek) (by omega) (by omega),
      wrap32_of_bounds (by omega) (by omega)]
    omega
  have hdiv : ∀ {x : Int}, 0 ≤ x → (500 * x).tdiv 500 = x := fun hx => by
    rw [Int.tdiv_eq_ediv_of_nonneg (by omega)]
    omega
  simp only [computeLatency, htime, rotationTime, htimeAfter, hkept, hdiv (x := b) (by omega),
    hdiv (x := c) (by omega), moduloDiff_eq hs.1 (show 0 ≤ b by omega),
    moduloDiff_eq hs.1 (show 0 ≤ c by omega)]
  split
  next hbuf =>
    obtain ⟨hread, hseek, hlong⟩ := hbuf
    rw [wrap32_of_bounds (by omega) (by omega), ← Int.mul_sub, hdiv (by omega)] at hlong
    exact Or.inl ⟨hread, hzero.mp hseek, rfl, by omega⟩
  next =>
    right
    rw [wrap32_of_bounds (x := seek + _) (by omega) (by omega),
      wrap32_of_bounds (by omega) (by omega)]
    omega

/-- **One request** is served, and the disk keeps track of the head. -/
theorem request_serves (writing : Bool) (hd : Tracks d h) (harrived : h.since ≤ now)
    (hroom : now + 32000 ≤ intMax) (hs : 0 ≤ sector ∧ sector < 1024) :
    0 < computeLatency d now sector writing ∧ computeLatency d now sector writing ≤ 32000
      ∧ nachosDrive.Serves h
        ⟨sector, writing, now, now + computeLatency d now sector writing⟩ := by
  obtain ⟨hpos, hmax, hzero⟩ := seek_bounds hd hs
  rcases computeLatency_cases writing hd harrived hroom hs with
    ⟨hread, htrack, hlat, hkept⟩ | ⟨hlat, hle⟩
  · rw [hlat]
    exact ⟨by omega, by omega, .of_kept hread htrack (le_of_lt hkept) rfl⟩
  · have hbegin := Drive.le_nextPass (g := nachosDrive) sector (now + |sector / 32 - h.track| * 500)
    rw [show nachosDrive.sectorTime = 500 from rfl] at hbegin
    exact ⟨by omega, hle, .of_nextPass harrived hlat⟩

theorem updateLast_tracks (hd : Tracks d h) (hnow : 0 ≤ now) (hroom : now + 32000 ≤ intMax)
    (hs : 0 ≤ sector ∧ sector < 1024) (finished : Int) :
    Tracks (updateLast d now sector)
      (nachosDrive.after h ⟨sector, writing, now, finished⟩) := by
  obtain ⟨hpos, hmax, hzero⟩ := seek_bounds hd hs
  have htime := timeToSeek_eq hd hnow hroom hs
  have hafter := boundary_spec (now + |sector / 32 - h.track| * 500)
  rw [Drive.after, show nachosDrive.track sector = sector / 32 from rfl,
    show nachosDrive.reached h _ = now + |sector / 32 - h.track| * 500 from rfl]
  by_cases htrack : sector / 32 = h.track
  · rw [if_pos htrack]
    have hsame : updateLast d now sector = { d with lastSector := sector } := by
      rw [updateLast, htime]
      simp only [hzero.mpr htrack, ne_eq, not_true_eq_false, if_false]
    rw [hsame]
    exact ⟨hs, htrack, hd.since, hd.room, hd.buffer⟩
  · have hne : |sector / 32 - h.track| * 500 ≠ 0 := fun he => htrack (hzero.mp he)
    rw [if_neg htrack, updateLast, htime]
    simp only [if_pos hne]
    rw [intMax] at hroom
    generalize |sector / 32 - h.track| * 500 = seek at hpos hmax hafter
    refine ⟨hs, rfl, by dsimp only; omega, by dsimp only [intMax]; omega, ?_⟩
    rw [wrap32_of_bounds (x := now + seek) (by omega) (by omega),
      wrap32_of_bounds (by omega) (by omega)]
    dsimp only
    omega

end Request

/-! ## Whole runs -/

/-- The head after the accesses of a log. -/
def headAfter (log : List Access) : Head := log.foldl nachosDrive.after parked

/-- At `t` the accesses of the log are over. -/
structure Over (log : List Access) (t : Int) : Prop where
  arrived : (headAfter log).since ≤ t
  finished : ∀ b ∈ log, b.finished ≤ t

theorem Over.mono {log : List Access} {t t' : Int} (h : Over log t) (hle : t ≤ t') : Over log t' :=
  ⟨h.arrived.trans hle, fun b hb => (h.finished b hb).trans hle⟩

structure Inv (s : State) : Prop where
  log : nachosDrive.Lawful parked s.log
  tracks : Tracks s.disk (headAfter s.log)
  clock : 0 ≤ s.totalTicks
  active : s.disk.active = s.due.isSome
  idle : s.disk.active = false → Over s.log s.totalTicks
  due : ∀ w, s.due = some w → Over s.log w

theorem Inv.init : Inv State.init := by
  have hnone : Over [] 0 := ⟨le_rfl, fun b hb => absurd hb List.not_mem_nil⟩
  refine ⟨.nil _, ⟨by decide, rfl, le_rfl, by decide, rfl⟩, le_rfl, rfl, fun _ => hnone, ?_⟩
  intro w hw
  cases hw

section Steps

variable {s s' : State} {sector : Int} {writing : Bool}

/-- A request that is made when it may be made is accepted. -/
theorem request_eq (h : Inv s) (hidle : s.disk.active = false)
    (hs : 0 ≤ sector ∧ sector < numSectors) (hroom : s.totalTicks + 32000 ≤ intMax) :
    request s sector writing = some { s with
      disk := updateLast { s.disk with active := true } s.totalTicks sector
      due := some (s.totalTicks + computeLatency s.disk s.totalTicks sector writing)
      log := s.log ++ [⟨sector, writing, s.totalTicks,
        s.totalTicks + computeLatency s.disk s.totalTicks sector writing⟩] } := by
  obtain ⟨hpos, hmax, -⟩ :=
    request_serves writing h.tracks (h.idle hidle).arrived hroom hs
  have hclock := h.clock
  rw [intMax] at hroom
  rw [request, if_neg (by rw [hidle]; exact Bool.false_ne_true), if_pos hs]
  simp only [if_pos hpos]
  rw [wrap32_of_bounds (by omega) (by omega)]

theorem request_cases (hreq : request s sector writing = some s') :
    s.disk.active = false ∧ 0 ≤ sector ∧ sector < numSectors := by
  rw [request] at hreq
  split at hreq
  next => cases hreq
  next hidle =>
    split at hreq
    next hs => exact ⟨Bool.not_eq_true _ ▸ hidle, hs⟩
    next => cases hreq

theorem Inv.request (h : Inv s) (hroom : s.totalTicks + 32000 ≤ intMax)
    (hreq : request s sector writing = some s') : Inv s' := by
  obtain ⟨hidle, hs⟩ := request_cases hreq
  have hover := h.idle hidle
  obtain ⟨hpos, -, hserves⟩ :=
    request_serves writing h.tracks hover.arrived hroom hs
  rw [request_eq h hidle hs hroom] at hreq
  obtain rfl := Option.some.inj hreq
  generalize computeLatency s.disk s.totalTicks sector writing = latency at hpos hserves ⊢
  have htracks : Tracks { s.disk with active := true } (headAfter s.log) :=
    ⟨h.tracks.sector, h.tracks.track, h.tracks.since, h.tracks.room, h.tracks.buffer⟩
  have hhead : headAfter (s.log ++ [⟨sector, writing, s.totalTicks, s.totalTicks + latency⟩])
      = nachosDrive.after (headAfter s.log)
        ⟨sector, writing, s.totalTicks, s.totalTicks + latency⟩ :=
    List.foldl_concat ..
  refine ⟨h.log.append hserves hover.finished, ?_, h.clock, rfl, fun hno => ?_, fun w hw => ?_⟩
  · exact hhead ▸ updateLast_tracks htracks h.clock hroom hs _
  · cases hno
  · obtain rfl := Option.some.inj hw
    obtain ⟨k, -, hsince, -, hend⟩ := hserves.passed
    refine ⟨?_, fun b hb => ?_⟩
    · -- the head is on the track before the turn in which the sector passes
      have hturn := Int.add_mul k 1 nachosDrive.sectorTime
      have := nachosDrive.sectorTime_pos
      rw [hhead]
      dsimp only at hend ⊢
      omega
    · rcases List.mem_append.mp hb with hb | hb
      · have := hover.finished b hb
        omega
      · obtain rfl := List.mem_singleton.mp hb
        exact le_rfl

theorem Inv.step (h : Inv s) {a : Action} (hok : InRange s a) (hs : step s a = some s') :
    Inv s' := by
  cases a with
  | pass ticks =>
      obtain rfl := Option.some.inj hs
      have hclock := h.clock
      have hmax : s.totalTicks + ticks ≤ intMax := hok
      rw [intMax] at hmax
      rw [wrap32_of_bounds (by omega) (by omega)]
      exact ⟨h.log, h.tracks, by dsimp only; omega, h.active,
        fun hidle => (h.idle hidle).mono (by dsimp only; omega), h.due⟩
  | read sector => exact h.request hok hs
  | write sector => exact h.request hok hs
  | interrupt =>
      rw [DiskTiming.step, callBack] at hs
      split at hs
      next due hdue =>
        split at hs
        next hle =>
          obtain rfl := Option.some.inj hs
          refine ⟨h.log, ⟨h.tracks.sector, h.tracks.track, h.tracks.since, h.tracks.room,
            h.tracks.buffer⟩, h.clock, rfl, fun _ => (h.due due hdue).mono hle, fun w hw => ?_⟩
          cases hw
        next => cases hs
      next => cases hs

end Steps

/-- **The disk is one that could exist.** In every run in which the clock stays an
`int` with room for one more access, each access is finished only when its sector
has passed under the head on its track, for a write after it was asked for, and
never later than after the next turn of the sector; no two accesses overlap. The
disk is busy exactly while the interrupt that ends the access is to come, and
when it is not, every access to one of its sectors is accepted. -/
theorem accesses_physical {s : State} (h : Reach step InRange State.init s) :
    nachosDrive.Lawful parked s.log ∧ (s.disk.active = true ↔ ∃ w, s.due = some w)
      ∧ ∀ sector, 0 ≤ sector → sector < numSectors → s.disk.active = false →
        (InRange s (.read sector) → (step s (.read sector)).isSome)
          ∧ (InRange s (.write sector) → (step s (.write sector)).isSome) := by
  have hi : Inv s := h.invariant Inv.init fun _ _ _ _ hi hok hs => hi.step hok hs
  refine ⟨hi.log, by rw [hi.active, Option.isSome_iff_exists], fun sector hlo hhi hidle => ?_⟩
  have haccepted : ∀ writing, s.totalTicks + 32000 ≤ intMax →
      (request s sector writing).isSome := fun writing hroom => by
    rw [request_eq hi hidle ⟨hlo, hhi⟩ hroom]
    rfl
  exact ⟨haccepted false, haccepted true⟩

/-- A write to the second track, then a read from the buffer. -/
theorem accesses_physical_buffered :
    nachosDrive.Lawful parked [⟨40, true, 0, 4500⟩, ⟨36, false, 20000, 20500⟩] :=
  (accesses_physical (s := ⟨⟨true, 36, 500⟩, 20000, some 20500,
      [⟨40, true, 0, 4500⟩, ⟨36, false, 20000, 20500⟩]⟩)
    (.of_exec [.write 40, .pass 4500, .interrupt, .pass 15500, .read 36] (by decide))).1

end Nachos.DiskTiming
