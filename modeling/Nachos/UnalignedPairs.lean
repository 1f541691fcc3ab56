import Nachos.UnalignedAccess

/-!
# Pairs of unaligned loads and stores

`LWR rt, 0(base)` next to `LWL rt, 3(base)` loads the word at any address,
and `SWR` next to `SWL` stores one, in either order. The second load of a
pair finds the first one pending and merges into what has not arrived yet;
`forwarded` is how it sees it.

`Effect` is what any of the four leaves of the machine besides its result: the
load pending before has arrived, the page table translates as before. A
part of a load or a store is given by what it reaches (`LoadsPart`,
`StoresPart`), and two parts that reach all make a whole in either order
(`LoadsPart.pair`, `StoresPart.pair`).

Programs are given as the instructions that are fetched: `Runs P is s` says
that from `s` on, as long as these are fetched, each of them ends well, and
that `P` holds at the end.
-/

namespace Nachos

namespace Mips

open ByteMemory CInt

/-! ## Instructions in a row -/

/-- The instructions `is` are fetched one after the other: each ends well,
and then `P` holds. -/
def Runs (P : State → Prop) : List Instruction → State → Prop
  | [], s => P s
  | i :: is, s => fetch s = some i → ∃ s', oneInstruction s = .ok s' ∧ Runs P is s'

theorem Runs.mono {P Q : State → Prop} (hPQ : ∀ s, P s → Q s) :
    ∀ {is : List Instruction} {s : State}, Runs P is s → Runs Q is s
  | [], _, h => hPQ _ h
  | _ :: _, _, h => fun hf => by
      obtain ⟨s', hs', h'⟩ := h hf
      exact ⟨s', hs', h'.mono hPQ⟩

theorem Runs.append {P : State → Prop} {js : List Instruction} :
    ∀ {is : List Instruction} {s : State}, Runs (Runs P js) is s → Runs P (is ++ js) s
  | [], _, h => h
  | _ :: _, _, h => fun hf => by
      obtain ⟨s', hs', h'⟩ := h hf
      exact ⟨s', hs', h'.append⟩

/-- `LWR rt, 0(base)`. -/
def lwr (rt base : Fin 32) : Instruction := ⟨.lwr, base, rt, 0, 0⟩

/-- `LWL rt, 3(base)`. -/
def lwl (rt base : Fin 32) : Instruction := ⟨.lwl, base, rt, 0, 3⟩

/-- `SWR rt, 0(base)`. -/
def swr (rt base : Fin 32) : Instruction := ⟨.swr, base, rt, 0, 0⟩

/-- `SWL rt, 3(base)`. -/
def swl (rt base : Fin 32) : Instruction := ⟨.swl, base, rt, 0, 3⟩

/-- From `s`, where a load into `t` is pending, to `s'`, where a load of
`value` into `q` is. -/
structure Effect (t q : Fin 32) (value : Word) (s s' : State) : Prop where
  boundary : Boundary q s'
  pending : s'.registers loadValueReg = value
  sameMap : Machine.SameMap s.pageTable s'.pageTable
  regs : ∀ r : Fin 32, (r = t → t = 0) → s'.reg r = s.reg r

section Instructions

variable {t q : Fin 32} {s s₁ s' : State}

theorem advance_reg (s : State) (pcAfter : Word) (r : Fin 32) :
    (advance s pcAfter).reg r = s.reg r := by
  simp only [State.reg, advance]
  rw [State.registers_set_of_ne (gpr_ne (by decide)),
    State.registers_set_of_ne (gpr_ne (by decide)), State.registers_set_of_ne (gpr_ne (by decide))]

theorem advance_loadValue (s : State) (pcAfter : Word) :
    (advance s pcAfter).registers loadValueReg = s.registers loadValueReg := by
  simp only [advance]
  rw [State.registers_set_of_ne (by decide), State.registers_set_of_ne (by decide),
    State.registers_set_of_ne (by decide)]

/-- The code behind the switch. -/
theorem finish_effect (h : Boundary t s) {d : Done} (hregs : d.state.registers = s.registers)
    (hmap : Machine.SameMap s.pageTable d.state.pageTable) (hq : d.nextLoadReg = regWord q) :
    ∃ s', finish d = .ok s' ∧ s'.mainMemory = d.state.mainMemory
      ∧ Effect t q d.nextLoadValue s s' := by
  have hload : d.state.registers loadReg = regWord t := by rw [hregs]; exact h.loadReg
  have hdelayed := delayedLoad_eq hload d.nextLoadReg d.nextLoadValue
  refine ⟨advance ((((d.state.set (gpr t) (d.state.registers loadValueReg)).set loadReg
    d.nextLoadReg).set loadValueReg d.nextLoadValue).set (gpr 0) 0) d.pcAfter,
    by rw [finish, hdelayed]; rfl, rfl, ?_, ?_, hmap, fun r hr => ?_⟩
  · rw [hq] at hdelayed ⊢
    exact (boundary_delayedLoad hdelayed).advance d.pcAfter
  · rw [advance_loadValue, State.registers_set_of_ne (by decide), State.registers_set_self]
  · rw [advance_reg]
    by_cases h0 : r = 0
    · rw [h0]
      exact (State.registers_set_self _ _ _).trans h.zero.symm
    · have hne : gpr r ≠ gpr t := fun he => h0 (by rw [gpr_inj he, hr (gpr_inj he)])
      rw [State.reg, State.registers_set_of_ne fun he => h0 (gpr_inj he),
        State.registers_set_of_ne (gpr_ne (by decide)),
        State.registers_set_of_ne (gpr_ne (by decide)), State.registers_set_of_ne hne, hregs]
      rfl

/-- The instruction fetched is executed in a state that differs in bits of
the page table. -/
theorem oneInstruction_of_fetch {i : Instruction} (hf : fetch s = some i) :
    ∃ pageTable, Machine.SameMap s.pageTable pageTable
      ∧ oneInstruction s = execute i { s with pageTable := pageTable } >>= finish := by
  rw [fetch] at hf
  cases hread : readMem s (s.registers pcReg) 4 with
  | error e => rw [hread] at hf; cases hf
  | ok r =>
      obtain ⟨raw, s₁⟩ := r
      rw [hread] at hf
      obtain rfl := Option.some.inj hf
      have hone : oneInstruction s = execute (decode raw) s₁ >>= finish := by
        rw [oneInstruction, hread]
        rfl
      rw [readMem] at hread
      split at hread
      next value pageTable hmem =>
        obtain ⟨rfl, rfl⟩ := Prod.mk.injEq .. |>.mp (Except.ok.inj hread)
        exact ⟨pageTable, Machine.sameMap_of_readMem hmem, hone⟩
      next =>
        rw [raiseException] at hread
        split at hread <;> cases hread
      next => cases hread

theorem readMem_ok {a : Word} {p : Int} {w : Bool} (h : Machine.Maps s.pageTable a.toInt 4 w p) :
    ∃ pageTable, readMem s a 4
        = .ok (BitVec.ofInt 32 (word s.mainMemory p), { s with pageTable := pageTable })
      ∧ Machine.SameMap s.pageTable pageTable := by
  obtain ⟨pageTable, hread⟩ := Machine.readMem_of_maps h s.mainMemory
  exact ⟨pageTable, by rw [readMem, hread], Machine.sameMap_of_readMem hread⟩

theorem writeMem_ok {a : Word} {p : Int} (h : Machine.Maps s.pageTable a.toInt 4 true p)
    (value : Word) :
    ∃ pageTable, writeMem s a 4 value
        = .ok { s with mainMemory := setWord s.mainMemory p value.toInt, pageTable := pageTable }
      ∧ Machine.SameMap s.pageTable pageTable := by
  obtain ⟨pageTable, hwrite⟩ := Machine.writeMem_of_maps h s.mainMemory value.toInt
  exact ⟨pageTable, by rw [writeMem, hwrite], Machine.sameMap_of_writeMem hwrite⟩

/-- One load of a part. -/
theorem oneInstruction_loadPart (h : Boundary t s) {i : Instruction}
    (merge : Nat → Word → Word → Word)
    (hexec : ∀ s, execute i s = loadPart merge i s (s.registers nextPCReg + 4)) {p : Int}
    {w : Bool} (hmap : Machine.Maps s.pageTable (wordBase (s.reg i.rs + i.extra)).toInt 4 w p)
    (hf : fetch s = some i) :
    ∃ s', oneInstruction s = .ok s' ∧ s'.mainMemory = s.mainMemory
      ∧ Effect t i.rt (merge (byteOf (s.reg i.rs + i.extra)) (s.forwarded i.rt)
        (BitVec.ofInt 32 (word s.mainMemory p))) s s' := by
  obtain ⟨pageTable, hsame, hone⟩ := oneInstruction_of_fetch hf
  obtain ⟨pageTable', hread, hsame'⟩ := readMem_ok
    (s := { s with pageTable := pageTable }) (hsame.maps hmap)
  obtain ⟨s', hs', hmem, heffect⟩ := finish_effect h (q := i.rt)
    (d := ⟨{ s with pageTable := pageTable' }, s.registers nextPCReg + 4, regWord i.rt,
      merge (byteOf (s.reg i.rs + i.extra)) (s.forwarded i.rt)
        (BitVec.ofInt 32 (word s.mainMemory p))⟩) rfl (hsame.trans hsame') rfl
  refine ⟨s', ?_, hmem, heffect⟩
  have hload : execute i { s with pageTable := pageTable } =
      .ok ⟨{ s with pageTable := pageTable' },
      s.registers nextPCReg + 4, regWord i.rt, merge (byteOf (s.reg i.rs + i.extra))
        (s.forwarded i.rt) (BitVec.ofInt 32 (word s.mainMemory p))⟩ := by
    rw [hexec]
    exact congrArg (· >>= _) hread
  rw [hone, hload]
  exact hs'

/-- One store of a part. -/
theorem oneInstruction_storePart (h : Boundary t s) {i : Instruction}
    (merge : Nat → Word → Word → Word)
    (hexec : ∀ s, execute i s = storePart merge i s (s.registers nextPCReg + 4)) {p : Int}
    (hmap : Machine.Maps s.pageTable (wordBase (s.reg i.rs + i.extra)).toInt 4 true p)
    (hf : fetch s = some i) :
    ∃ s', oneInstruction s = .ok s' ∧ s'.mainMemory = setWord s.mainMemory p
        (merge (byteOf (s.reg i.rs + i.extra)) (s.reg i.rt)
          (BitVec.ofInt 32 (word s.mainMemory p))).toInt
      ∧ Effect t 0 0 s s' := by
  obtain ⟨pageTable, hsame, hone⟩ := oneInstruction_of_fetch hf
  obtain ⟨pageTable₁, hread, hsame₁⟩ := readMem_ok
    (s := { s with pageTable := pageTable }) (hsame.maps hmap)
  generalize hmerged : merge (byteOf (s.reg i.rs + i.extra)) (s.reg i.rt)
    (BitVec.ofInt 32 (word s.mainMemory p)) = merged
  obtain ⟨pageTable₂, hwrite, hsame₂⟩ := writeMem_ok
    (s := { s with pageTable := pageTable₁ }) (hsame₁.maps (hsame.maps hmap)) merged
  obtain ⟨s', hs', hmem, heffect⟩ := finish_effect h (q := 0)
    (d := ⟨⟨s.registers, setWord s.mainMemory p merged.toInt, pageTable₂⟩,
      s.registers nextPCReg + 4, 0, 0⟩) rfl ((hsame.trans hsame₁).trans hsame₂) rfl
  refine ⟨s', ?_, hmem, heffect⟩
  have hstore : execute i { s with pageTable := pageTable }
      = .ok ⟨⟨s.registers, setWord s.mainMemory p merged.toInt, pageTable₂⟩,
        s.registers nextPCReg + 4, 0, 0⟩ := by
    rw [hexec]
    refine (congrArg (· >>= _) hread).trans ?_
    rw [← hmerged] at hwrite ⊢
    exact congrArg (· >>= fun s' : State => s'.done (s.registers nextPCReg + 4)) hwrite
  rw [hone, hstore]
  exact hs'

end Instructions

/-! ## Parts and wholes -/

/-- A load of a part: of the bits from `a` on it loads those of the bytes in
`reach`, the others are those that `rt` has or is about to have. -/
def LoadsPart (i : Instruction) (base rt : Fin 32) (a : Word) (reach : Nat → Prop) : Prop :=
  ∀ {t : Fin 32} {s : State}, Boundary t s → s.reg base = a → s.Covered false a →
    fetch s = some i →
    ∃ s' value, oneInstruction s = .ok s' ∧ s'.mainMemory = s.mainMemory ∧ Effect t rt value s s'
      ∧ (∀ j < 32, reach (j / 8) → value.getLsbD j = s.bit a j)
      ∧ ∀ j < 32, ¬reach (j / 8) → value.getLsbD j = (s.forwarded rt).getLsbD j

/-- A store of a part. -/
def StoresPart (i : Instruction) (base rt : Fin 32) (a : Word) (reach : Nat → Prop) : Prop :=
  ∀ {t : Fin 32} {s : State}, Boundary t s → s.reg base = a → s.Covered true a →
    fetch s = some i →
    ∃ s', oneInstruction s = .ok s' ∧ Effect t 0 0 s s' ∧ Stored s a (s.reg rt) reach s'.mainMemory

section Parts

variable {base rt : Fin 32} {a : Word}

theorem loadsPart_lwr : LoadsPart (lwr rt base) base rt a fun k => byteOf a + k < 4 := by
  intro t s h hbase hcov hf
  obtain ⟨⟨p, hp⟩, -⟩ := hcov
  have haddr : s.reg (lwr rt base).rs + (lwr rt base).extra = a := by
    rw [← hbase]
    exact BitVec.add_zero _
  obtain ⟨s', hs', hmem, heffect⟩ := oneInstruction_loadPart h lwrMerge (fun _ => rfl)
    (by rw [haddr]; exact hp) hf
  rw [haddr] at heffect
  refine ⟨s', _, hs', hmem, heffect, fun j hj hr => ?_, fun j hj hr => ?_⟩
  · rw [getLsbD_lwr hp _ hj, if_pos hr]
  · rw [getLsbD_lwr hp _ hj, if_neg hr]
    rfl

theorem loadsPart_lwl : LoadsPart (lwl rt base) base rt a fun k => 3 ≤ byteOf (a + 3) + k := by
  intro t s h hbase hcov hf
  obtain ⟨-, p, hp⟩ := hcov
  have haddr : s.reg (lwl rt base).rs + (lwl rt base).extra = a + 3 := by rw [← hbase]; rfl
  obtain ⟨s', hs', hmem, heffect⟩ := oneInstruction_loadPart h lwlMerge (fun _ => rfl)
    (by rw [haddr]; exact hp) hf
  rw [haddr] at heffect
  refine ⟨s', _, hs', hmem, heffect, fun j hj hr => ?_, fun j hj hr => ?_⟩
  · rw [getLsbD_lwl hp _ hj, if_pos hr]
  · rw [getLsbD_lwl hp _ hj, if_neg hr]
    rfl

theorem storesPart_swr : StoresPart (swr rt base) base rt a fun k => byteOf a + k < 4 := by
  intro t s h hbase hcov hf
  obtain ⟨⟨p, hp⟩, -⟩ := hcov
  have haddr : s.reg (swr rt base).rs + (swr rt base).extra = a := by
    rw [← hbase]
    exact BitVec.add_zero _
  obtain ⟨s', hs', hmem, heffect⟩ := oneInstruction_storePart h swrMerge (fun _ => rfl)
    (by rw [haddr]; exact hp) hf
  refine ⟨s', hs', heffect, ?_⟩
  rw [hmem, haddr]
  exact stored_swr hp (s.reg rt)

theorem storesPart_swl : StoresPart (swl rt base) base rt a fun k => 3 ≤ byteOf (a + 3) + k := by
  intro t s h hbase hcov hf
  obtain ⟨-, p, hp⟩ := hcov
  have haddr : s.reg (swl rt base).rs + (swl rt base).extra = a + 3 := by rw [← hbase]; rfl
  obtain ⟨s', hs', hmem, heffect⟩ := oneInstruction_storePart h swlMerge (fun _ => rfl)
    (by rw [haddr]; exact hp) hf
  refine ⟨s', hs', heffect, ?_⟩
  rw [hmem, haddr]
  exact stored_swl hp (s.reg rt)

variable {t : Fin 32} {s s' : State} {value : Word}

theorem place_of_sameMap (h : Machine.SameMap s.pageTable s'.pageTable) (a : Word) :
    s'.place a = s.place a := h.place a.toInt

theorem bit_of_sameMap (h : Machine.SameMap s.pageTable s'.pageTable)
    (hmem : s'.mainMemory = s.mainMemory) (a : Word) (j : Nat) : s'.bit a j = s.bit a j := by
  rw [State.bit, State.bit, State.byte_eq_map, State.byte_eq_map, place_of_sameMap h, hmem]

theorem covered_of_sameMap (h : Machine.SameMap s.pageTable s'.pageTable) {w : Bool}
    (hcov : s.Covered w a) : s'.Covered w a := by
  obtain ⟨⟨p, hp⟩, q, hq⟩ := hcov
  exact ⟨⟨p, h.maps hp⟩, q, h.maps hq⟩

theorem State.Covered.read {w : Bool} (h : s.Covered w a) : s.Covered false a := by
  obtain ⟨⟨p, hp⟩, q, hq⟩ := h
  exact ⟨⟨p, hp.read⟩, q, hq.read⟩

/-- The load that is pending is what the next part merges into. -/
theorem Effect.forwarded (h : Effect t rt value s s') : s'.forwarded rt = value := by
  rw [State.forwarded, if_pos h.boundary.loadReg, h.pending]

/-- Two loads of parts that reach all load the word. -/
theorem LoadsPart.pair {i₁ i₂ : Instruction} {reach₁ reach₂ : Nat → Prop}
    (h₁ : LoadsPart i₁ base rt a reach₁) (h₂ : LoadsPart i₂ base rt a reach₂)
    (hall : ∀ k, reach₁ k ∨ reach₂ k) (hrt : rt ≠ 0) (hb : Boundary t s) (hbase : s.reg base = a)
    (ht : base = t → t = 0) (hcov : s.Covered false a) :
    Runs (fun s' => ∃ f, settle s' = .ok f ∧ s.wordAt a = some (f.reg rt)) [i₁, i₂] s := by
  intro hf₁
  obtain ⟨s₁, value₁, hs₁, hmem₁, heff₁, hin₁, -⟩ := h₁ hb hbase hcov hf₁
  have hbase₁ : s₁.reg base = a := (heff₁.regs base ht).trans hbase
  refine ⟨s₁, hs₁, fun hf₂ => ?_⟩
  obtain ⟨s₂, value₂, hs₂, -, heff₂, hin₂, hout₂⟩ :=
    h₂ heff₁.boundary hbase₁ (covered_of_sameMap heff₁.sameMap hcov) hf₂
  obtain ⟨f, hsettle, hlate, -⟩ := heff₂.boundary.late
  refine ⟨s₂, hs₂, f, hsettle, wordAt_eq hcov fun j hj => ?_⟩
  have hvalue : f.reg rt = value₂ := (hlate.target hrt).trans heff₂.pending
  have hbit : s₁.bit a j = s.bit a j := bit_of_sameMap heff₁.sameMap hmem₁ a j
  rw [hvalue]
  by_cases hreach : reach₂ (j / 8)
  · rw [hin₂ j hj hreach, hbit]
  · rw [hout₂ j hj hreach, heff₁.forwarded, hin₁ j hj ((hall _).resolve_right hreach)]

/-- Two stores one after the other. -/
theorem Stored.trans {x : Word} {reach₁ reach₂ : Nat → Prop} {m : Memory}
    (h₁ : Stored s a x reach₁ s'.mainMemory) (h₂ : Stored s' a x reach₂ m)
    (hsame : Machine.SameMap s.pageTable s'.pageTable) :
    Stored s a x (fun k => reach₁ k ∨ reach₂ k) m := by
  constructor
  · intro k hk hreach y hy
    by_cases hagain : ∃ l < 4, reach₂ l ∧ s.place (a + BitVec.ofNat 32 l) = some y
    · obtain ⟨l, hl, hreach', hy'⟩ := hagain
      -- the four bytes are at different places
      obtain rfl : l = k := by
        have hmod := Machine.place_inj hy hy'
        rw [u32_toInt, u32_toInt, BitVec.toNat_add, BitVec.toNat_add, BitVec.toNat_ofNat,
          BitVec.toNat_ofNat] at hmod
        omega
      exact h₂.stored l hl hreach' y (by rw [place_of_sameMap hsame]; exact hy)
    · have hkeep : m y = s'.mainMemory y := h₂.others y fun l hl hreach' hy' =>
        hagain ⟨l, hl, hreach', by rw [← place_of_sameMap hsame]; exact hy'⟩
      rw [hkeep]
      refine h₁.stored k hk (hreach.resolve_right fun hreach' => hagain ⟨k, hk, hreach', hy⟩) y hy
  · intro y hy
    have hkeep : m y = s'.mainMemory y := h₂.others y fun k hk hreach' hy' =>
      hy k hk (Or.inr hreach') (by rw [← place_of_sameMap hsame]; exact hy')
    rw [hkeep]
    exact h₁.others y fun k hk hreach => hy k hk (Or.inl hreach)

/-- What a whole store leaves. -/
structure StoredWord (s : State) (a x : Word) (s' : State) : Prop where
  boundary : Boundary 0 s'
  sameMap : Machine.SameMap s.pageTable s'.pageTable
  stored : Stored s a x (fun _ => True) s'.mainMemory

/-- Two stores of parts that reach all store the word. -/
theorem StoresPart.pair {i₁ i₂ : Instruction} {reach₁ reach₂ : Nat → Prop}
    (h₁ : StoresPart i₁ base rt a reach₁) (h₂ : StoresPart i₂ base rt a reach₂)
    (hall : ∀ k, reach₁ k ∨ reach₂ k) (hb : Boundary t s) (hbase : s.reg base = a)
    (ht : base = t → t = 0) (ht' : rt = t → t = 0) (hcov : s.Covered true a) :
    Runs (fun s' => s'.reg base = a ∧ StoredWord s a (s.reg rt) s') [i₁, i₂] s := by
  intro hf₁
  obtain ⟨s₁, hs₁, heff₁, hst₁⟩ := h₁ hb hbase hcov hf₁
  have hbase₁ : s₁.reg base = a := (heff₁.regs base ht).trans hbase
  have hrt₁ : s₁.reg rt = s.reg rt := heff₁.regs rt ht'
  refine ⟨s₁, hs₁, fun hf₂ => ?_⟩
  obtain ⟨s₂, hs₂, heff₂, hst₂⟩ :=
    h₂ heff₁.boundary hbase₁ (covered_of_sameMap heff₁.sameMap hcov) hf₂
  rw [hrt₁] at hst₂
  refine ⟨s₂, hs₂, (heff₂.regs base fun _ => rfl).trans hbase₁, heff₂.boundary,
    heff₁.sameMap.trans heff₂.sameMap, ?_⟩
  have hboth := hst₁.trans hst₂ heff₁.sameMap
  exact ⟨fun k hk _ => hboth.stored k hk (hall k), fun y hy => hboth.others y fun k hk _ =>
    hy k hk trivial⟩

/-- The bytes of the word after the store. -/
theorem StoredWord.byte {x : Word} (h : StoredWord s a x s') {w : Bool} (hcov : s.Covered w a)
    {k : Nat} (hk : k < 4) : s'.byte (a + BitVec.ofNat 32 k) = some (wordByte x k) := by
  obtain ⟨p, hp⟩ := hcov.place hk
  rw [State.byte_eq_map, place_of_sameMap h.sameMap, hp, Option.map_some,
    h.stored.stored k hk trivial p hp]

/-- The word after the store. -/
theorem StoredWord.wordAt {x : Word} (h : StoredWord s a x s') {w : Bool} (hcov : s.Covered w a) :
    s'.wordAt a = some x := by
  refine wordAt_eq (covered_of_sameMap h.sameMap hcov) fun j hj => ?_
  rw [State.bit, h.byte hcov (by omega), Option.getD_some, getLsbD_wordByte _ _ (by omega),
    Nat.div_add_mod]

end Parts

/-- The two orders of a pair. -/
def Pair (i j : Instruction) (is : List Instruction) : Prop := is = [i, j] ∨ is = [j, i]

section Pairs

variable {base rt t : Fin 32} {s : State}

theorem loads_pair (hrt : rt ≠ 0) (hb : Boundary t s) (ht : base = t → t = 0)
    (hcov : s.Covered false (s.reg base)) {is : List Instruction}
    (his : Pair (lwr rt base) (lwl rt base) is) :
    Runs (fun s' => ∃ f, settle s' = .ok f ∧ s.wordAt (s.reg base) = some (f.reg rt)) is s := by
  rcases his with rfl | rfl
  · exact loadsPart_lwr.pair loadsPart_lwl (reach_all _) hrt hb rfl ht hcov
  · exact loadsPart_lwl.pair loadsPart_lwr (fun k => (reach_all _ k).symm) hrt hb rfl ht hcov

theorem stores_pair (hb : Boundary t s) (ht : base = t → t = 0) (ht' : rt = t → t = 0)
    (hcov : s.Covered true (s.reg base)) {is : List Instruction}
    (his : Pair (swr rt base) (swl rt base) is) :
    Runs (fun s' => s'.reg base = s.reg base ∧ StoredWord s (s.reg base) (s.reg rt) s') is s := by
  rcases his with rfl | rfl
  · exact storesPart_swr.pair storesPart_swl (reach_all _) hb rfl ht ht' hcov
  · exact storesPart_swl.pair storesPart_swr (fun k => (reach_all _ k).symm) hb rfl ht ht' hcov

end Pairs

/-- From a state in which no load into `rt` or the base register is pending,
the pair of loads leaves the word at the base address in `rt`, once it has
arrived; the pair of stores puts the four bytes of `rt` there and changes no
other byte; and the stores followed by the loads bring the word back. -/
theorem unaligned_pairs (s : State) (t base rt : Fin 32) (hb : Boundary t s) (hrt : rt ≠ 0)
    (ht : t ≠ 0 → t ≠ rt ∧ t ≠ base) :
    (s.Covered false (s.reg base) → ∀ is, Pair (lwr rt base) (lwl rt base) is →
      Runs (fun s' => ∃ f, settle s' = .ok f ∧ s.wordAt (s.reg base) = some (f.reg rt)) is s)
    ∧ (s.Covered true (s.reg base) → ∀ is, Pair (swr rt base) (swl rt base) is →
      Runs (fun s' =>
        (∀ k < 4, s'.byte (s.reg base + BitVec.ofNat 32 k) = some (wordByte (s.reg rt) k))
        ∧ ∀ y, (∀ k < 4, s.place (s.reg base + BitVec.ofNat 32 k) ≠ some y) →
          s'.mainMemory y = s.mainMemory y) is s)
    ∧ (s.Covered true (s.reg base) → ∀ is, Pair (swr rt base) (swl rt base) is →
      ∀ rt' js, rt' ≠ 0 → Pair (lwr rt' base) (lwl rt' base) js →
        Runs (fun s' => ∃ f, settle s' = .ok f ∧ f.reg rt' = s.reg rt) (is ++ js) s) := by
  have htb : base = t → t = 0 := fun he => by
    by_contra h0
    exact (ht h0).2 he.symm
  have htr : rt = t → t = 0 := fun he => by
    by_contra h0
    exact (ht h0).1 he.symm
  refine ⟨fun hcov is his => loads_pair hrt hb htb hcov his, fun hcov is his => ?_,
    fun hcov is his rt' js hrt' hjs => ?_⟩
  · refine (stores_pair hb htb htr hcov his).mono fun s' ⟨_, h⟩ => ⟨fun k hk => h.byte hcov hk, ?_⟩
    exact fun y hy => h.stored.others y fun k hk _ => hy k hk
  · refine ((stores_pair hb htb htr hcov his).mono fun s' ⟨hbase, h⟩ => ?_).append
    have hcov' : s'.Covered false (s'.reg base) := by
      rw [hbase]
      exact (covered_of_sameMap h.sameMap hcov).read
    refine (loads_pair hrt' h.boundary (fun _ => rfl) hcov' hjs).mono fun s₂ ⟨f, hf, hword⟩ => ?_
    rw [hbase, h.wordAt hcov] at hword
    exact ⟨f, hf, (Option.some.inj hword).symm⟩

/-- `SWR`, `SWL`, `LWR` and `LWL` at an address two bytes before the end of a
page. -/
def crossing : State where
  registers := fun r => if r = nextPCReg then 4 else if r = gpr 1 then 126 else
    if r = gpr 5 then 0x12345678 else 0
  mainMemory := write (fun _ => 0) 0
    ([0xB8250000, 0xA8250003, 0x98260000, 0x88260003].flatMap (leBytes 4))
  pageTable := [⟨0, 0, true, false, false, false⟩, ⟨1, 5, true, false, false, false⟩]

theorem unaligned_pairs_across_pages :
    fetch crossing = some (swr 5 1) ∧ Boundary 0 crossing ∧ crossing.Covered true (crossing.reg 1)
      ∧ Runs (fun s' => ∃ f, settle s' = .ok f ∧ f.reg 6 = 0x12345678)
        [swr 5 1, swl 5 1, lwr 6 1, lwl 6 1] crossing
      ∧ (oneInstruction crossing >>= oneInstruction >>= oneInstruction >>= oneInstruction
        >>= settle).toOption.map (fun f => f.reg 6) = some 0x12345678 := by
  have hb : Boundary 0 crossing := ⟨rfl, rfl⟩
  have hcov : crossing.Covered true (crossing.reg 1) := ⟨⟨124, _, rfl⟩, 640, _, rfl⟩
  exact ⟨rfl, hb, hcov, (unaligned_pairs crossing 0 1 5 hb (by decide) fun h => absurd rfl h).2.2
    hcov _ (Or.inl rfl) 6 _ (by decide) (Or.inl rfl), by decide +kernel⟩

end Mips

end Nachos
