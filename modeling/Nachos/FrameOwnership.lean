import Nachos.Spaces

/-!
# Frames belong to one process

What the invariant of the address spaces says to a process. When no `Load`
is inside its `addrLock` section and no destructor is in its loop, the
tables of the programs in memory are on frames of the machine, no two
entries on one frame, and the bitmap marks exactly these (`FramesOwned`). In
every state, quiet or not, a step of one process leaves another process's
table alone and every byte it can read through it (`OwnershipOK.isolated`):
a frame just handed out was free, the copying of a regular header keeps to
the frames of its own table, and so does a store of the program.
-/

namespace Nachos

open CInt Run ByteMemory Machine Ownership
open AddrSpace (frameOf newEntry Regular)

namespace Spaces

/-- Whose step an action is. -/
def Action.actor (s : State) : Action → Nat
  | .load p _ _ | .go p | .exit p | .switch p => p
  | .read _ _ | .write _ _ _ => s.running

namespace State

/-- `p` has a program in memory. -/
def Live (s : State) (p : Nat) : Prop := (s.space p).phase.live = true

/-- Nobody is inside the `addrLock` section or in a destructor. -/
def Quiet (s : State) : Prop :=
  ∀ p, (s.space p).phase.inside = false ∧ ∀ i, (s.space p).phase ≠ .clear i

/-- The page table of `p`. -/
def table (s : State) (p : Nat) : List TranslationEntry := (s.space p).pageTable

end State

/-- The tables of the programs in memory and the bitmap agree. -/
structure FramesOwned (s : State) : Prop where
  bound : ∀ p, s.Live p → ∀ e ∈ s.table p, 0 ≤ e.physicalPage ∧ e.physicalPage < 128
  within : ∀ p, s.Live p → ((s.table p).map TranslationEntry.physicalPage).Nodup
  across : ∀ p q, s.Live p → s.Live q → p ≠ q → ∀ e ∈ s.table p, ∀ e' ∈ s.table q,
    e.physicalPage ≠ e'.physicalPage
  marked : ∀ f : Nat, s.frames.gPhysPageBitMap.testBit f = true ↔
    ∃ p, s.Live p ∧ ∃ e ∈ s.table p, e.physicalPage = f

/-- The phases of a call of `Load` that returns `FALSE`. -/
def Phase.failing : Phase → Bool
  | .lockP | .check | .unlock false | .refused => true
  | _ => false

/-- The destructor of `p` at its `i`-th frame: the frame was marked, and its
mark is the only one that goes; past the last frame nothing changes. -/
structure Returns (s : State) (p i : Nat) (s' : State) : Prop where
  goes : s'.stop = none
  frame : i < (s.space p).numPages → (s'.space p).phase = .clear (i + 1) ∧
    ∃ e, (s.table p)[i]? = some e ∧ s.frames.gPhysPageBitMap.testBit (frameOf e) = true
      ∧ ∀ f, s'.frames.gPhysPageBitMap.testBit f = true ↔
          s.frames.gPhysPageBitMap.testBit f = true ∧ f ≠ frameOf e
  done : (s.space p).numPages ≤ i → (s'.space p).phase = .gone ∧ s'.frames = s.frames

/-- Frame ownership and memory isolation. -/
structure OwnershipOK (s : State) : Prop where
  owned : s.Quiet → FramesOwned s
  failed : ∀ a s', step s a = some s' → (s'.space (a.actor s)).phase.failing = true →
    s'.frames = s.frames ∧ ∀ q, q ≠ a.actor s → s'.space q = s.space q
  returned : ∀ p i s', (s.space p).phase = .clear i → step s (.go p) = some s' →
    Returns s p i s'
  isolated : ∀ a s', step s a = some s' → ∀ q, s.Live q → a.actor s ≠ q →
    s'.space q = s.space q ∧ ∀ addr size,
      readMem (s.table q) s'.frames.mainMemory addr size
        = readMem (s.table q) s.frames.mainMemory addr size
  written : ∀ p q, s.Live p → s.Live q → p ≠ q → ∀ addr size value m pt,
    writeMem (s.table p) s.frames.mainMemory addr size value = .ok (m, pt) →
    ∀ addr' size', readMem (s.table q) m addr' size'
      = readMem (s.table q) s.frames.mainMemory addr' size'

/-! ## The tables of live processes -/

namespace Inv

variable {s s' : State} {p q : Nat}

theorem live_held (hp : s.Live p) : s.held p = (s.table p).map frameOf := by
  rw [State.Live] at hp
  rw [State.held, Space.held, State.table]
  cases hph : (s.space p).phase with
  | copy | user | alloc _ => rfl
  | fresh | lockP | check | unlock _ | refused | clear _ | gone =>
      rw [hph] at hp
      cases hp

theorem live_entries (h : Inv s) (hp : s.Live p) : Entries (s.table p) := by
  rw [State.Live] at hp
  have hok := h.ok p
  rw [Space.OK] at hok
  cases hph : (s.space p).phase with
  | copy =>
      rw [hph] at hok
      exact hok.2.2.2
  | user =>
      rw [hph] at hok
      exact hok.2
  | fresh | lockP | check | alloc _ | unlock _ | refused | clear _ | gone =>
      rw [hph] at hp
      cases hp

theorem pageFrame_of_entries {pt : List TranslationEntry} (h : Entries pt) {e : TranslationEntry}
    (he : e ∈ pt) : pageFrame e = frameOf e := by
  obtain ⟨hpage, hlt⟩ := h e he
  rw [pageFrame, hpage]
  exact u32_of_bounds (by omega) (by omega)

/-- A byte in a frame of a live process is in no frame anybody else holds. -/
theorem not_held (h : Inv s) (hq : s.Live q) (hpq : p ≠ q) {x : Int}
    (hx : inFrames (s.table q) x) : ∀ f ∈ s.held p, x / 128 ≠ f := by
  obtain ⟨e, he, hxe⟩ := hx
  rw [pageFrame_of_entries (h.live_entries hq) he] at hxe
  intro f hf hxf
  have hfe : f = frameOf e := by omega
  refine h.tracks.disjoint p q hpq f hf ?_
  rw [live_held hq, hfe]
  exact List.mem_map_of_mem he

/-- Two live processes share no frame. -/
theorem apart (h : Inv s) (hp : s.Live p) (hq : s.Live q) (hpq : p ≠ q) {x : Int}
    (hx : inFrames (s.table q) x) : ¬inFrames (s.table p) x := by
  rintro ⟨e, he, hxe⟩
  rw [pageFrame_of_entries (h.live_entries hp) he] at hxe
  refine h.not_held hq hpq hx (frameOf e) ?_ hxe
  rw [live_held hp]
  exact List.mem_map_of_mem he

theorem framesOwned (h : Inv s) (hquiet : s.Quiet) : FramesOwned s := by
  have hlive : ∀ p, s.held p ≠ [] → s.Live p := by
    intro p hne
    obtain ⟨hin, hclear⟩ := hquiet p
    rw [State.held, Space.held] at hne
    rw [State.Live]
    cases hph : (s.space p).phase with
    | copy | user => rfl
    | alloc i | unlock ok => rw [hph] at hin; cases hin
    | clear i => exact absurd hph (hclear i)
    | fresh | lockP | check | refused | gone =>
        rw [hph] at hne
        exact absurd rfl hne
  refine ⟨fun p hp e he => ?_, fun p hp => ?_, fun p q hp hq hpq e he e' he' heq => ?_,
    fun f => ?_⟩
  · obtain ⟨hpage, hlt⟩ := h.live_entries hp e he
    omega
  · have hmap : (s.table p).map TranslationEntry.physicalPage
        = ((s.table p).map frameOf).map Int.ofNat := by
      rw [List.map_map]
      exact List.map_congr_left fun e he => (h.live_entries hp e he).1
    have hnodup := h.tracks.nodup p
    rw [live_held hp] at hnodup
    rw [hmap]
    exact hnodup.map fun a b hab => Int.ofNat.inj hab
  · refine h.tracks.disjoint p q hpq (frameOf e) ?_ ?_
    · rw [live_held hp]
      exact List.mem_map_of_mem he
    · rw [live_held hq, show frameOf e = frameOf e' from congrArg Int.toNat heq]
      exact List.mem_map_of_mem he'
  · refine (h.tracks.taken f).trans ⟨?_, ?_⟩
    · rintro ⟨p, hp⟩
      have hl := hlive p (List.ne_nil_of_mem hp)
      rw [live_held hl] at hp
      obtain ⟨e, he, rfl⟩ := List.mem_map.mp hp
      exact ⟨p, hl, e, he, (h.live_entries hl e he).1⟩
    · rintro ⟨p, hl, e, he, hfe⟩
      refine ⟨p, ?_⟩
      rw [live_held hl]
      refine List.mem_map.mpr ⟨e, he, ?_⟩
      have := (h.live_entries hl e he).1
      omega

/-! ## What a step leaves alone -/

theorem space_setSpace_of_ne (hq : q ≠ p) (x : Space) : (s.setSpace p x).space q = s.space q :=
  Function.update_of_ne hq ..

theorem space_setSpace_self (s : State) (p : Nat) (x : Space) : (s.setSpace p x).space p = x :=
  Function.update_self ..

theorem space_lock_of_ne (hq : q ≠ p) : (s.lock p).space q = s.space q := by
  unfold State.lock
  split <;> exact Function.update_of_ne hq ..

theorem frames_lock : (s.lock p).frames = s.frames := by
  unfold State.lock
  split <;> rfl

theorem space_load_of_ne (hq : q ≠ p) (stack : List UInt8) (executable : Option File) :
    (s.load p stack executable).space q = s.space q := by
  cases executable with
  | none => exact space_setSpace_of_ne hq _
  | some file =>
      simp only [State.load]
      split
      next => rfl
      next => exact (space_lock_of_ne hq).trans (space_setSpace_of_ne hq _)

theorem frames_load (stack : List UInt8) (executable : Option File) :
    (s.load p stack executable).frames = s.frames := by
  cases executable with
  | none => rfl
  | some file =>
      simp only [State.load]
      split
      next => rfl
      next => exact frames_lock

theorem space_go_of_ne (hs : s.go p = some s') (hq : q ≠ p) : s'.space q = s.space q := by
  unfold State.go at hs
  split at hs
  next => cases hs
  next => cases hs
  next => cases hs
  next => cases hs
  next =>
      split at hs
      next => cases hs
      next => obtain rfl := Option.some.inj hs; exact space_lock_of_ne hq
  next =>
      obtain rfl := Option.some.inj hs
      simp only [State.check]
      split
      next => rfl
      next => split <;> exact space_setSpace_of_ne hq _
  next =>
      obtain rfl := Option.some.inj hs
      rw [State.alloc]
      split <;> exact Function.update_of_ne hq ..
  next => obtain rfl := Option.some.inj hs; exact Function.update_of_ne hq ..
  next =>
      obtain rfl := Option.some.inj hs
      simp only [State.copySegments]
      split
      next => exact Function.update_of_ne hq ..
      next => rfl
      next => rfl
  next =>
      obtain rfl := Option.some.inj hs
      rw [State.clear]
      split
      next =>
          split
          next => rfl
          next =>
              split
              next => rfl
              next => exact Function.update_of_ne hq ..
      next => exact space_setSpace_of_ne hq _

/-- The calls of a regular header keep to the frames of the table they were
made for. -/
theorem callOK_of_regular {pt : List TranslationEntry} {noffH : NoffHeader} (hr : Regular noffH)
    (hlen : pt.length = AddrSpace.numPages noffH) (hent : Entries pt) {call : AddrSpace.ReadCall}
    (hcall : call ∈ AddrSpace.reads noffH) : AddrSpace.CallOK pt 0 call := by
  have hin := hr.inPage hcall
  refine ⟨by rw [hlen]; exact hin.index, fun e he x hlo hhi => ?_⟩
  have hmem := List.mem_of_getElem? he
  have hframe := pageFrame_of_entries hent hmem
  have hpage := (hent e hmem).1
  have hoff := hin.offset
  have hfits := hin.fits
  exact ⟨e, hmem, by omega⟩

/-- A part of a call changes no byte of another live process. -/
theorem mem_go (h : Inv s) (hs : s.go p = some s') (hq : s.Live q) (hpq : p ≠ q) {x : Int}
    (hx : inFrames (s.table q) x) : s'.frames.mainMemory x = s.frames.mainMemory x := by
  unfold State.go at hs
  split at hs
  next => cases hs
  next => cases hs
  next => cases hs
  next => cases hs
  next =>
      split at hs
      next => cases hs
      next => obtain rfl := Option.some.inj hs; rw [frames_lock]
  next =>
      obtain rfl := Option.some.inj hs
      simp only [State.check]
      split
      next => rfl
      next => split <;> rfl
  next i hp =>
      obtain rfl := Option.some.inj hs
      have hok := h.ok p
      rw [Space.OK, hp] at hok
      obtain ⟨-, -, -, -, -, hroom⟩ := hok
      rw [State.alloc]
      split
      next hlt =>
          -- the frame handed out was free, so it is none of `q`'s
          obtain ⟨f, hpage, -, hfree, -⟩ := AddrSpace.allocPage_of_clear (k := s.frames) (by omega)
          rw [hpage]
          refine AddrSpace.bzero_of_not_mem fun hxf => ?_
          obtain ⟨e, he, hxe⟩ := hx
          rw [pageFrame_of_entries (h.live_entries hq) he] at hxe
          have hfe : f = frameOf e := by omega
          have hbit : s.frames.gPhysPageBitMap.testBit f = true := by
            refine (h.tracks.taken f).mpr ⟨q, ?_⟩
            rw [live_held hq, hfe]
            exact List.mem_map_of_mem he
          rw [hfree] at hbit
          cases hbit
      next => rfl
  next => obtain rfl := Option.some.inj hs; rfl
  next hp =>
      obtain rfl := Option.some.inj hs
      have hok := h.ok p
      rw [Space.OK, hp] at hok
      obtain ⟨⟨hr, hva⟩, hnum, hlen, hent⟩ := hok
      have hlive : s.Live p := by rw [State.Live, hp]; rfl
      obtain ⟨-, -, hkept⟩ := AddrSpace.copy_confined (s.space p).file
        (fun call hcall => callOK_of_regular hr (hlen.trans hnum) hent hcall) s.frames.mainMemory
      simp only [State.copySegments, hva]
      split
      next => exact hkept x (h.apart hlive hq hpq hx)
      next => rfl
      next => rfl
  next i hp =>
      obtain rfl := Option.some.inj hs
      rw [State.clear]
      split
      next =>
          split
          next => rfl
          next =>
              split
              next => rfl
              next => rfl
      next => rfl

/-- An access of the running program changes no byte of another live
process, and only its own table. -/
theorem mem_write (h : Inv s) (hrun : s.inUser s.running) (addr : Int) (size : Nat) (value : Int)
    (hq : s.Live q) (hpq : s.running ≠ q) {x : Int} (hx : inFrames (s.table q) x) :
    (s.write addr size value).frames.mainMemory x = s.frames.mainMemory x := by
  have hlive : s.Live s.running := by
    rw [State.Live, show (s.space s.running).phase = .user from hrun]
    rfl
  unfold State.write
  split
  next hw => exact writeMem_of_not_inFrames hw (h.apart hlive hq hpq hx)
  next => rfl
  next => rfl

theorem space_read_of_ne (hq : q ≠ s.running) (addr : Int) (size : Nat) :
    (s.read addr size).space q = s.space q := by
  unfold State.read
  split
  next => exact space_setSpace_of_ne hq _
  next => rfl
  next => rfl

theorem frames_read (addr : Int) (size : Nat) : (s.read addr size).frames = s.frames := by
  unfold State.read
  split <;> rfl

theorem space_write_of_ne (hq : q ≠ s.running) (addr : Int) (size : Nat) (value : Int) :
    (s.write addr size value).space q = s.space q := by
  unfold State.write
  split
  next => exact Function.update_of_ne hq ..
  next => rfl
  next => rfl

theorem phase_read (hrun : s.inUser s.running) (addr : Int) (size : Nat) :
    ((s.read addr size).space s.running).phase = .user := by
  unfold State.read
  split
  next => exact (congrArg Space.phase (space_setSpace_self ..)).trans hrun
  next => exact hrun
  next => exact hrun

theorem phase_write (hrun : s.inUser s.running) (addr : Int) (size : Nat) (value : Int) :
    ((s.write addr size value).space s.running).phase = .user := by
  unfold State.write
  split
  next => exact (congrArg Space.phase (space_setSpace_self ..)).trans hrun
  next => exact hrun
  next => exact hrun

theorem space_step_of_ne {a : Action} (hs : Spaces.step s a = some s') (hq : q ≠ a.actor s) :
    s'.space q = s.space q := by
  cases (does_of_step hs).2 with
  | load p stack executable _ => exact space_load_of_ne hq stack executable
  | go p hgo => exact space_go_of_ne hgo hq
  | exit p _ => exact space_setSpace_of_ne hq _
  | switch p _ => rfl
  | read addr size _ => exact space_read_of_ne hq addr size
  | write addr size value _ => exact space_write_of_ne hq addr size value

theorem mem_step (h : Inv s) {a : Action} (hs : Spaces.step s a = some s') (hq : s.Live q)
    (hpq : a.actor s ≠ q) {x : Int} (hx : inFrames (s.table q) x) :
    s'.frames.mainMemory x = s.frames.mainMemory x := by
  cases (does_of_step hs).2 with
  | load p stack executable _ => rw [frames_load]
  | go p hgo => exact h.mem_go hgo hq hpq hx
  | exit p _ => rfl
  | switch p _ => rfl
  | read addr size _ => rw [frames_read]
  | write addr size value hrun => exact h.mem_write hrun addr size value hq hpq hx

/-! ## Failed loads and destructors -/

theorem phase_goto (s : State) (p : Nat) (ph : Phase) : ((s.goto p ph).space p).phase = ph := by
  rw [State.goto, space_setSpace_self]

/-- A part of a call that ends in a phase of a failing `Load` has not touched
the frames. -/
theorem frames_go_of_failing (hs : s.go p = some s')
    (hfail : (s'.space p).phase.failing = true) : s'.frames = s.frames := by
  unfold State.go at hs
  split at hs
  next => cases hs
  next => cases hs
  next => cases hs
  next => cases hs
  next =>
      split at hs
      next => cases hs
      next => obtain rfl := Option.some.inj hs; exact frames_lock
  next =>
      obtain rfl := Option.some.inj hs
      simp only [State.check]
      split
      next => rfl
      next => split <;> rfl
  next =>
      obtain rfl := Option.some.inj hs
      rw [State.alloc] at hfail ⊢
      split at hfail
      next =>
          rw [space_setSpace_self] at hfail
          cases hfail
      next hge => rw [if_neg hge]; rfl
  next => obtain rfl := Option.some.inj hs; rfl
  next hp =>
      obtain rfl := Option.some.inj hs
      simp only [State.copySegments] at hfail ⊢
      split at hfail
      next =>
          rw [phase_goto] at hfail
          cases hfail
      next => rw [State.halt, hp] at hfail; cases hfail
      next => rw [State.halt, hp] at hfail; cases hfail
  next hp =>
      obtain rfl := Option.some.inj hs
      rw [State.clear] at hfail ⊢
      split at hfail
      next =>
          split at hfail
          next => rw [State.halt, hp] at hfail; cases hfail
          next =>
              split at hfail
              next => rw [State.halt, hp] at hfail; cases hfail
              next => rw [phase_goto] at hfail; cases hfail
      next => rw [phase_goto] at hfail; cases hfail

theorem frames_step_of_failing {a : Action} (hs : Spaces.step s a = some s')
    (hfail : (s'.space (a.actor s)).phase.failing = true) : s'.frames = s.frames := by
  cases (does_of_step hs).2 with
  | load p stack executable _ => exact frames_load stack executable
  | go p hgo => exact frames_go_of_failing hgo hfail
  | exit p _ => rfl
  | switch p _ => rfl
  | read addr size _ => exact frames_read addr size
  | write addr size value hrun =>
      rw [show Action.actor s (.write addr size value) = s.running from rfl,
        phase_write hrun] at hfail
      cases hfail

theorem returns (h : Inv s) {i : Nat} (hp : (s.space p).phase = .clear i)
    (hs : Spaces.step s (.go p) = some s') : Returns s p i s' := by
  unfold Spaces.step at hs
  split at hs
  next => cases hs
  next hstop =>
      have hnone : s.stop = none := not_not.mp hstop
      simp only [State.go, hp] at hs
      obtain rfl := Option.some.inj hs
      by_cases hi : i < (s.space p).numPages
      · obtain ⟨e, he, hheld, hfb, heq⟩ := h.clear_eq hp hi
        rw [heq]
        refine ⟨hnone, fun _ => ⟨phase_goto _ p _, e, he, ?_, fun f => ?_⟩, fun hge => by omega⟩
        · exact (h.tracks.taken _).mpr ⟨p, by rw [hheld]; exact List.mem_cons_self⟩
        · change (s.frames.gPhysPageBitMap.clearBit (frameOf e)).testBit f = true ↔ _
          rw [Bitmap.testBit_clearBit hfb, Bool.and_eq_true, Bool.not_eq_true',
            decide_eq_false_iff_not]
          exact and_comm
      · rw [State.clear, if_neg hi]
        exact ⟨hnone, fun hlt => absurd hlt hi, fun _ => ⟨phase_goto s p _, rfl⟩⟩

end Inv

/-! ## The theorem -/

theorem Inv.ownershipOK {s : State} (h : Inv s) : OwnershipOK s where
  owned := h.framesOwned
  failed := fun _ _ hs hfail =>
    ⟨Inv.frames_step_of_failing hs hfail, fun _ hq => Inv.space_step_of_ne hs hq⟩
  returned := fun _ _ _ hp hs => h.returns hp hs
  isolated := fun _ _ hs _ hq hpq =>
    ⟨Inv.space_step_of_ne hs (fun e => hpq e.symm),
      readMem_congr fun _ hx => h.mem_step hs hq hpq hx⟩
  written := fun _ _ hp hq hpq _ _ _ _ _ hw =>
    readMem_congr fun _ hx => writeMem_of_not_inFrames hw (h.apart hp hq hpq hx)

/-- **Frame ownership and memory isolation**, in every interleaving of
loads of regular programs, deletions and accesses. -/
theorem frames_owned {s : State} (h : Reach step Regularly State.init s) : OwnershipOK s := by
  have hinv : Inv s := Reach.invariant Inv.init (fun _ _ _ _ hi hreg hs => hi.step hreg hs) h
  exact hinv.ownershipOK

instance (s : State) : DecidablePred (Regularly s)
  | .load _ stack (some file) => inferInstanceAs (Decidable
      ((readHeader stack file).noffMagic = noffMagic → Regular (readHeader stack file)
        ∧ (readHeader stack file).code.virtualAddr = 0))
  | .load _ _ none | .go _ | .exit _ | .switch _ | .read _ _ | .write _ _ _ => .isTrue trivial

/-- Process 1 calls `Load` while process 0 is inside its own and waits for the
lock; both run, 1 stores a byte, and 0 exits. -/
def handoverRun : List Action :=
  [.load 0 [] (some AddrSpace.linkedFile), .load 1 [] (some AddrSpace.linkedFile)]
    ++ List.replicate 12 (.go 0) ++ [.go 1, .go 0] ++ List.replicate 13 (.go 1)
    ++ [.write 20 1 5, .exit 0] ++ List.replicate 10 (.go 0)

theorem frames_owned_handover :
    ∃ s, Reach step Regularly State.init s ∧ OwnershipOK s
      ∧ (s.space 0).phase = .gone ∧ (s.space 1).phase = .user
      ∧ (s.table 1).map frameOf = [9, 10, 11, 12, 13, 14, 15, 16, 17]
      ∧ s.frames.gPhysPageBitMap.testBit 8 = false := by
  have hrun : (exec step Regularly State.init handoverRun).map (fun s =>
      ((s.space 0).phase, (s.space 1).phase, (s.table 1).map frameOf,
        s.frames.gPhysPageBitMap.testBit 8))
      = some (.gone, .user, [9, 10, 11, 12, 13, 14, 15, 16, 17], false) := by decide +kernel
  obtain ⟨s, hs, hres⟩ := Option.map_eq_some_iff.mp hrun
  simp only [Prod.mk.injEq] at hres
  have hreach := Reach.of_exec handoverRun hs
  exact ⟨s, hreach, frames_owned hreach, hres⟩

end Spaces

end Nachos
