import Nachos.LoadLayout

/-!
# What a hostile file makes `Load` write

Whether `Load` keeps to the frames it takes, for every file whatsoever. The
checks it makes bound the sum of the sizes only, and the sum is unsigned
while each size is signed; `code.virtualAddr` is added to physical addresses
unchecked. So the answer depends on the header, and `load_confined_iff` says
how: on five words, the four sizes and the virtual address of the code
(`Confinable`).

The condition speaks of each copying loop once (`PagesFit`, `SegmentFits`).
With fewer than 128 pages the frames taken can be any, so a call must stay
inside its page; with all 128 the whole memory is the program's and a call
must stay inside that. That it is needed is shown with a bitmap where a
single frame is taken, the one the call strays into: then the frames handed
out skip just that one (`allocate_skip`).
-/

namespace Nachos

open CInt ByteMemory Machine

namespace AddrSpace

/-- `Load` stays inside: it indexes `pageTable` below its length, its copying
writes only into the frames of the new table, these were free, and all other
memory is as before. -/
structure Confined (k : Frames) (r : Loaded) : Prop where
  index : r.outcome ≠ .wildIndex
  writes : ∀ w ∈ r.writes, ∀ x : Int, w.1 ≤ x → x < w.1 + w.2 → inFrames r.pageTable x
  own : ∀ e ∈ r.pageTable, k.gPhysPageBitMap.testBit (frameOf e) = false
  kept : ∀ x, ¬inFrames r.pageTable x → r.frames.mainMemory x = k.mainMemory x

/-! ## Calls that keep to the table's frames -/

/-- A call finds its entry and writes only into frames of the table. -/
structure CallOK (pt : List TranslationEntry) (va : Int) (call : ReadCall) : Prop where
  index : call.index < pt.length
  region : ∀ e, pt[call.index]? = some e → ∀ x, va + e.physicalPage * 128 + call.offset ≤ x →
    x < va + e.physicalPage * 128 + call.offset + call.numBytes → inFrames pt x

theorem copy_confined {pt : List TranslationEntry} {va : Int} (file : File) {calls : List ReadCall}
    (hcalls : ∀ call ∈ calls, CallOK pt va call) (m : Memory) :
    (copy va pt file calls m).outcome ≠ .wildIndex
    ∧ (∀ w ∈ (copy va pt file calls m).writes, ∀ x : Int, w.1 ≤ x → x < w.1 + w.2 → inFrames pt x)
    ∧ ∀ x, ¬inFrames pt x → (copy va pt file calls m).mainMemory x = m x := by
  induction calls generalizing m with
  | nil => exact ⟨nofun, nofun, fun _ _ => rfl⟩
  | cons call calls ih =>
      have hcall := hcalls call List.mem_cons_self
      have he : pt[call.index]? = some (pt.get ⟨call.index, hcall.index⟩) :=
        List.getElem?_eq_getElem hcall.index
      rw [copy, he]
      generalize pt.get ⟨call.index, hcall.index⟩ = e at he
      simp only
      cases hread : file.readAt call.numBytes call.position with
      | none =>
          refine ⟨fun h => ?_, fun w hw => ?_, fun _ _ => rfl⟩
          · cases h
          · cases hw
      | some bytes =>
          have hlen : ∀ x, x < va + e.physicalPage * 128 + call.offset + bytes.length →
              va + e.physicalPage * 128 + call.offset ≤ x → inFrames pt x := by
            intro x hhi hlo
            refine hcall.region e he x hlo ?_
            rw [File.readAt] at hread
            split at hread
            next => cases hread
            next =>
                obtain rfl := Option.some.inj hread
                rw [File.bytes, List.length_take] at hhi
                omega
          obtain ⟨hout, hwrites, hkept⟩ := ih (fun c hc => hcalls c (List.mem_cons_of_mem _ hc))
            (write m (va + e.physicalPage * 128 + call.offset) bytes)
          refine ⟨hout, ?_, ?_⟩
          · intro w hw x hlo hhi
            rcases List.mem_cons.mp hw with rfl | hw
            · exact hlen x hhi hlo
            · exact hwrites w hw x hlo hhi
          · intro x hx
            rw [hkept x hx]
            exact write_of_not_mem fun hin => hx (hlen x hin.2 hin.1)

/-- Conversely, when every call asks for bytes that are there, each one that
is reached is recorded. -/
theorem mem_writes {pt : List TranslationEntry} {va : Int} {file : File} {calls : List ReadCall}
    (hasks : ∀ call ∈ calls, AsksWithin file.length call) {m : Memory}
    (hout : (copy va pt file calls m).outcome ≠ .wildIndex) :
    ∀ call ∈ calls, ∃ e, pt[call.index]? = some e
      ∧ (va + e.physicalPage * 128 + call.offset, call.numBytes.toNat)
          ∈ (copy va pt file calls m).writes := by
  induction calls generalizing m with
  | nil => nofun
  | cons call calls ih =>
      have hask := hasks call List.mem_cons_self
      have hread : file.readAt call.numBytes call.position
          = some (file.bytes call.position call.numBytes) := by
        rw [File.readAt, if_neg (not_lt.mpr hask.position)]
      have hlen := File.length_bytes hask.position hask.numBytes.le hask.bound
      rw [copy] at hout ⊢
      cases he : pt[call.index]? with
      | none => rw [he] at hout; exact absurd rfl hout
      | some e =>
          rw [he] at hout
          simp only [hread] at hout ⊢
          intro c hc
          rcases List.mem_cons.mp hc with rfl | hc
          · have hnat : c.numBytes.toNat = (file.bytes c.position c.numBytes).length := by omega
            exact ⟨e, he, List.mem_cons.mpr (Or.inl (by rw [hnat]))⟩
          · obtain ⟨e', he', hmem⟩ := ih (fun c hc => hasks c (List.mem_cons_of_mem _ hc)) hout c hc
            exact ⟨e', he', List.mem_cons_of_mem _ hmem⟩

/-! ## The frames handed out when one is taken -/

/-- The `j`-th number that is not `x`. -/
def skip (x j : Nat) : Nat := if j < x then j else j + 1

/-- With only frame `x` taken the frames are handed out in order, `x` left
out; `s` of them are gone already. -/
theorem allocate_skip {x : Nat} (i s n : Nat) (k : Frames)
    (hbits : k.gPhysPageBitMap.numBits = 128)
    (htest : ∀ y < 128, k.gPhysPageBitMap.testBit y = true ↔ y = x ∨ y < skip x s)
    (hroom : n = 0 ∨ skip x (s + n - 1) < 128) :
    ∀ j < n, (allocate i n k).1[j]? = some (newEntry (i + j) (skip x (s + j))) := by
  induction n generalizing i s k with
  | zero => nofun
  | succ n ih =>
      have hlt : skip x s < 128 := by
        simp only [skip] at hroom ⊢
        split at hroom <;> split <;> omega
      have hclear : ¬(k.gPhysPageBitMap.testBit (skip x s) = true) := by
        rw [htest _ hlt]
        simp only [skip]
        split <;> omega
      rcases k.gPhysPageBitMap.findAndSet_cases with ⟨-, hall⟩ | ⟨f, hf, hfb, hft, hleast⟩
      · exact absurd (hall _ (by omega)) hclear
      · have hfs : f = skip x s := by
          have hge : ¬(f = x ∨ f < skip x s) := by
            rw [← htest f (by omega), hft]
            decide
          rcases lt_trichotomy f (skip x s) with h | h | h
          · exact absurd (Or.inr h) hge
          · exact h
          · exact absurd (hleast _ h) hclear
        subst hfs
        have hpage : allocPage k = (((skip x s : Nat) : Int),
            ⟨k.gPhysPageBitMap.markBit (skip x s), bzero k.mainMemory (skip x s : Nat)⟩) := by
          rw [allocPage, hf]
        have hrest := ih (i + 1) (s + 1)
          ⟨k.gPhysPageBitMap.markBit (skip x s), bzero k.mainMemory (skip x s : Nat)⟩ hbits
          (by
            intro y hy
            simp only
            rw [Bitmap.testBit_markBit hfb, Bool.or_eq_true, decide_eq_true_eq, htest y hy]
            simp only [skip]
            split <;> split <;> omega)
          (by
            rcases Nat.eq_zero_or_pos n with h0 | h0
            · exact Or.inl h0
            · refine Or.inr ?_
              rw [show s + 1 + n - 1 = s + (n + 1) - 1 by omega]
              exact hroom.resolve_left (by omega))
        intro j hj
        rw [allocate, hpage]
        cases j with
        | zero => rfl
        | succ j =>
            have := hrest j (by omega)
            rw [show i + 1 + j = i + (j + 1) by omega,
              show s + 1 + j = s + (j + 1) by omega] at this
            exact this

/-- The frames with only `x` taken; a number past the last frame takes none. -/
def framesBut (x : Nat) : Frames :=
  ⟨if x < 128 then (Bitmap.new 128).markBit x else Bitmap.new 128, fun _ => 0⟩

theorem numBits_framesBut (x : Nat) : (framesBut x).gPhysPageBitMap.numBits = 128 := by
  simp only [framesBut]
  split <;> rfl

theorem testBit_framesBut {x y : Nat} (hy : y < 128) :
    (framesBut x).gPhysPageBitMap.testBit y = true ↔ y = x := by
  simp only [framesBut]
  split
  next hx => rw [Bitmap.testBit_markBit hx, Bitmap.testBit_new]; simp
  next hx =>
      rw [Bitmap.testBit_new]
      simp only [Bool.false_eq_true, false_iff]
      omega

theorem numClear_framesBut (x : Nat) :
    127 ≤ (framesBut x).gPhysPageBitMap.numClear
      ∧ (128 ≤ x → (framesBut x).gPhysPageBitMap.numClear = 128) := by
  simp only [framesBut]
  split
  next hx =>
      have := Bitmap.numClear_markBit (b := Bitmap.new 128) hx (Bitmap.testBit_new 128 x)
      rw [Bitmap.numClear_new] at this
      omega
  next hx =>
      rw [Bitmap.numClear_new]
      omega

theorem allocate_framesBut (x n : Nat) (hn : n ≤ 127 ∨ n ≤ 128 ∧ 128 ≤ x) :
    ∀ j < n, (allocate 0 n (framesBut x)).1[j]? = some (newEntry j (skip x j)) := by
  intro j hj
  have hskip := allocate_skip (x := x) 0 0 n (framesBut x) (numBits_framesBut x)
    (fun y hy => by
      rw [testBit_framesBut hy]
      simp only [skip]
      split <;> omega)
    (by
      rcases Nat.eq_zero_or_pos n with h0 | h0
      · exact Or.inl h0
      · refine Or.inr ?_
        simp only [skip]
        split <;> omega) j hj
  simpa only [Nat.zero_add] using hskip

/-! ## Calls that keep to the frames whatever they are -/

/-- With fewer than all frames a call stays in its page; with all of them it
stays in the memory. -/
def InReach (n : Nat) (va : Int) (i : Int) (offset numBytes : Int) : Prop :=
  if n = 128 then 0 ≤ va + 128 * i + offset ∧ va + 128 * i + offset + numBytes ≤ 16384
  else 0 ≤ va + offset ∧ va + offset + numBytes ≤ 128

instance (n : Nat) (va i offset numBytes : Int) : Decidable (InReach n va i offset numBytes) :=
  inferInstanceAs (Decidable (if n = 128 then _ ∧ _ else _ ∧ _))

/-- A call that keeps to the frames of `n` pages whatever frames they are. -/
structure CallFits (n : Nat) (va : Int) (call : ReadCall) : Prop where
  index : call.index < n
  reach : InReach n va call.index call.offset call.numBytes

theorem callOK_of_fits {n : Nat} {va : Int} {k : Frames}
    (hbits : k.gPhysPageBitMap.numBits = 128) (hfree : n ≤ k.gPhysPageBitMap.numClear)
    {call : ReadCall} (h : CallFits n va call) :
    CallOK (allocate 0 n k).1 va call := by
  have ha := allocated 0 n k hfree
  refine ⟨by rw [ha.length]; exact h.index, fun e he x hlo hhi => ?_⟩
  have hreach := h.reach
  have hmem := List.mem_of_getElem? he
  obtain ⟨hpage, hframe, hlt⟩ := ha.pageFrame_eq hbits hmem
  rw [InReach] at hreach
  split at hreach
  next hall =>
      -- every frame is free, so they are handed out in order
      have hmarked : k.gPhysPageBitMap.marked.card = 0 := by
        have := k.gPhysPageBitMap.numClear_eq
        have := Finset.card_le_card k.gPhysPageBitMap.marked_subset_range
        rw [Finset.card_range] at this
        omega
      have htest : ∀ y < 128, k.gPhysPageBitMap.testBit y = true ↔ y = 128 ∨ y < skip 128 0 := by
        intro y hy
        have hnot : y ∉ k.gPhysPageBitMap.marked := by
          rw [Finset.card_eq_zero.mp hmarked]
          exact Finset.notMem_empty y
        rw [Bitmap.mem_marked] at hnot
        have hskip : skip 128 0 = 0 := rfl
        rw [hskip]
        constructor
        · intro ht
          exact absurd ⟨by omega, ht⟩ hnot
        · omega
      have hget := allocate_skip (x := 128) 0 0 n k hbits htest
        (Or.inr (by rw [hall]; decide))
      have horder : ∀ j < 128, (allocate 0 n k).1[j]? = some (newEntry j j) := by
        intro j hj
        have := hget j (by omega)
        rw [Nat.zero_add, skip, if_pos (by omega)] at this
        exact this
      have hindex := h.index
      have hown := horder call.index (by omega)
      obtain rfl := Option.some.inj (he.symm.trans hown)
      have hphys : (newEntry call.index call.index).physicalPage = (call.index : Int) := rfl
      have hx := horder (x / 128).toNat (by omega)
      have hxf := ha.pageFrame_eq hbits (List.mem_of_getElem? hx)
      refine ⟨_, List.mem_of_getElem? hx, ?_⟩
      have hxp : (newEntry (x / 128).toNat (x / 128).toNat).physicalPage
          = ((x / 128).toNat : Int) := rfl
      omega
  next => exact ⟨e, hmem, by omega⟩

/-- A call that keeps to the frames when any single frame is taken keeps to
them always: a byte outside its page would be in some other frame, and that
one may be the frame taken. -/
theorem fits_of_callOK {n : Nat} {va : Int} (hn : n ≤ 128) {call : ReadCall}
    (hbytes : 0 < call.numBytes)
    (h : ∀ x, (n ≤ 127 ∨ 128 ≤ x) → CallOK (allocate 0 n (framesBut x)).1 va call) :
    CallFits n va call := by
  have hlength : ∀ x, (n ≤ 127 ∨ 128 ≤ x) → (allocate 0 n (framesBut x)).1.length = n := by
    intro x hx
    have := numClear_framesBut x
    exact (allocated 0 n (framesBut x) (by omega)).length
  have hindex : call.index < n := by
    have := (h 128 (Or.inr le_rfl)).index
    rwa [hlength 128 (Or.inr le_rfl)] at this
  -- a byte of the region is in a frame other than the one left out
  have hstray : ∀ x, (n ≤ 127 ∨ 128 ≤ x) → ∀ y : Int,
      va + call.offset ≤ y → y < va + call.offset + call.numBytes →
      ∃ j : Nat, j < n ∧ (skip x call.index : Int) + y / 128 = skip x j := by
    intro x hx y hlo hhi
    have hget := allocate_framesBut x n (by omega)
    obtain ⟨e, he, hfe⟩ := (h x hx).region _ (hget call.index hindex)
      (128 * (skip x call.index : Int) + y)
      (by simp only [newEntry]; omega) (by simp only [newEntry]; omega)
    obtain ⟨j, hj⟩ := List.mem_iff_getElem?.mp he
    have hjn : j < n := by
      rw [← hlength x hx]
      exact (List.getElem?_eq_some_iff.mp hj).1
    have hej := Option.some.inj (hj.symm.trans (hget j hjn))
    have hskip : skip x j < 4294967296 := by
      simp only [skip]
      split <;> omega
    have hframe : pageFrame e = skip x j := by
      rw [hej, pageFrame]
      exact u32_of_bounds (by simp only [newEntry]; omega) (by simp only [newEntry]; omega)
    exact ⟨j, hjn, by omega⟩
  refine ⟨hindex, ?_⟩
  rw [InReach]
  split
  next hall =>
      have hskip : ∀ j < n, skip 128 j = j := fun j hj => if_pos (by omega)
      have hown := hskip call.index hindex
      obtain ⟨j₁, hj₁, hq₁⟩ := hstray 128 (Or.inr le_rfl) (va + call.offset) le_rfl (by omega)
      obtain ⟨j₂, hj₂, hq₂⟩ := hstray 128 (Or.inr le_rfl)
        (va + call.offset + call.numBytes - 1) (by omega) (by omega)
      rw [hskip j₁ hj₁, hown] at hq₁
      rw [hskip j₂ hj₂, hown] at hq₂
      omega
  next hless =>
      have hn' : n ≤ 127 := by omega
      have hno : ∀ y : Int, va + call.offset ≤ y → y < va + call.offset + call.numBytes →
          y / 128 = 0 := by
        intro y hlo hhi
        rcases lt_trichotomy (y / 128) 0 with hneg | hzero | hpos
        · by_cases hx : 0 ≤ (call.index : Int) + 1 + y / 128
          · obtain ⟨j, -, hq⟩ := hstray ((call.index : Int) + 1 + y / 128).toNat (Or.inl hn') y hlo
              hhi
            simp only [skip] at hq
            split at hq <;> split at hq <;> omega
          · obtain ⟨j, -, hq⟩ := hstray 128 (Or.inl hn') y hlo hhi
            simp only [skip] at hq
            split at hq <;> split at hq <;> omega
        · exact hzero
        · obtain ⟨j, hj, hq⟩ := hstray ((call.index : Int) + y / 128).toNat (Or.inl hn') y hlo hhi
          simp only [skip] at hq
          split at hq <;> split at hq <;> omega
      have hlo := hno (va + call.offset) le_rfl (by omega)
      have hhi := hno (va + call.offset + call.numBytes - 1) (by omega) (by omega)
      omega

/-! ## The condition on a header -/

/-- A page loop over `size` bytes from page `i` on. -/
def PagesFit (n : Nat) (va : Int) (i : Nat) (size : Int) : Prop :=
  0 < size → i + (size + 127) / 128 ≤ n
    ∧ if n = 128 then 0 ≤ va + 128 * i ∧ va + 128 * i + size ≤ 16384
      else 0 ≤ va ∧ va + min size 128 ≤ 128

instance (n : Nat) (va : Int) (i : Nat) (size : Int) : Decidable (PagesFit n va i size) :=
  inferInstanceAs (Decidable (_ → _ ∧ if n = 128 then _ ∧ _ else _ ∧ _))

/-- A block that appends `size` bytes behind offset `o` of page `i - 1`. -/
def SegmentFits (n : Nat) (va : Int) (i : Nat) (more : Bool) (o size : Int) : Prop :=
  0 < size →
    (o ≠ 128 ∧ more → 0 < i ∧ i ≤ n ∧ InReach n va (i - 1) o (min (128 - o) size))
    ∧ PagesFit n va i (size - min (128 - o) size)

instance (n : Nat) (va : Int) (i : Nat) (more : Bool) (o size : Int) :
    Decidable (SegmentFits n va i more o size) :=
  inferInstanceAs (Decidable (_ → (_ → _ ∧ _ ∧ InReach ..) ∧ PagesFit ..))

theorem fits_pageReads {n i : Nat} {va size position : Int} (hlo : 0 ≤ size)
    (hhi : size ≤ 2147483647) :
    (∀ call ∈ pageReads i (pageCount size) (lastPageSize size) position, CallFits n va call)
      ↔ PagesFit n va i size := by
  have hcount := pageCount_of_nonneg hlo hhi
  constructor
  · intro h hpos
    have hlast := lastPageSize_of_pos hpos hhi
    have hfirst := h _ (List.mem_map.mpr ⟨0, List.mem_range.mpr (by omega), rfl⟩)
    have hend := h _ (List.mem_map.mpr ⟨pageCount size - 1, List.mem_range.mpr (by omega), rfl⟩)
    have hi := hend.index
    have hr := hend.reach
    have hr₀ := hfirst.reach
    simp only [InReach] at hi hr hr₀
    refine ⟨by omega, ?_⟩
    split
    next hall =>
        rw [if_pos hall, if_neg (by omega)] at hr
        rw [if_pos hall] at hr₀
        omega
    next hless =>
        rw [if_neg hless] at hr₀
        split at hr₀ <;> omega
  · intro h call hcall
    obtain ⟨j, hj, rfl⟩ := mem_pageReads hcall
    have hpos : 0 < size := by omega
    have hlast := lastPageSize_of_pos hpos hhi
    obtain ⟨hi, hr⟩ := h hpos
    refine ⟨by simp only; omega, ?_⟩
    simp only [InReach]
    by_cases hall : n = 128
    · rw [if_pos hall] at hr ⊢
      push_cast
      split <;> omega
    · rw [if_neg hall] at hr ⊢
      split <;> omega

theorem fits_segmentReads {n i : Nat} {va o : Int} {more : Bool} {seg : Segment} (hn : n ≤ 128)
    (hi : i ≤ 4294967295) (ho : o ≤ 128) (hpos : 0 < seg.size) (hhi : seg.size ≤ 2147483647) :
    (∀ call ∈ segmentReads i more o seg, CallFits n va call)
      ↔ SegmentFits n va i more o seg.size := by
  have hrest := restSize_of_nonneg ho hpos.le hhi
  have hbounds := restSize_bounds ho hpos.le hhi
  have hpages := @fits_pageReads n i va (restSize o seg.size)
    (seg.inFileAddr + firstSize o seg.size) hbounds.1 (by omega)
  have hindex : 0 < i → ((u32 ((i : Int) - 1)).toNat : Int) = i - 1 := by
    intro h
    rw [u32_of_bounds (by omega) (by omega)]
    omega
  have hwild : i = 0 → (u32 ((i : Int) - 1)).toNat = 4294967295 := by
    rintro rfl
    rfl
  constructor
  · intro h _
    refine ⟨fun hc => ?_, ?_⟩
    · have hfirst := h ⟨(u32 ((i : Int) - 1)).toNat, o, firstSize o seg.size, seg.inFileAddr⟩
        (List.mem_append_left _ (by rw [if_pos hc]; exact List.mem_singleton_self _))
      have hlt := hfirst.index
      have hreach := hfirst.reach
      rcases Nat.eq_zero_or_pos i with h0 | h0
      · simp only [hwild h0] at hlt
        omega
      · simp only [hindex h0] at hreach
        have := hindex h0
        simp only at hlt
        exact ⟨h0, by omega, hreach⟩
    · rw [hrest, firstSize] at hpages
      exact hpages.mp fun call hcall => h call
        (List.mem_append_right _ (by rw [hrest]; exact hcall))
  · intro h call hcall
    obtain ⟨hfirst, hrests⟩ := h hpos
    rcases mem_segmentReads hcall with ⟨hne, hm, rfl⟩ | hcall
    · obtain ⟨h0, hle, hreach⟩ := hfirst ⟨hne, hm⟩
      have := hindex h0
      refine ⟨by simp only; omega, ?_⟩
      simp only [hindex h0]
      exact hreach
    · refine hpages.mpr ?_ call hcall
      rw [hrest]
      exact hrests

namespace Layout

/-- The words of a layout are `int`s. -/
def IsInts (l : Layout) : Prop := ∀ s ∈ l.segments, IsInt s.virtualAddr ∧ IsInt s.size

instance (l : Layout) : Decidable l.IsInts :=
  inferInstanceAs (Decidable (∀ s ∈ l.segments, IsInt s.virtualAddr ∧ IsInt s.size))

/-- The unsigned size of the address space. -/
def space (l : Layout) : Int := (l.total + 1024) % 4294967296

/-- Its pages. -/
def pages (l : Layout) : Nat := ((l.space + 127) / 128).toNat

/-- The pages of the code. -/
def codeIndex (l : Layout) : Nat := ((max l.code.size 0 + 127) / 128).toNat

/-- The pages once the initialised data is behind it. -/
def dataIndex (l : Layout) : Nat :=
  l.codeIndex + ((max l.initData.size 0
    - min (128 - lastPageSize l.code.size) (max l.initData.size 0) + 127) / 128).toNat

/-- The layouts that keep `Load` to its frames. -/
def Confinable (l : Layout) : Prop :=
  16384 < l.space
    ∨ PagesFit l.pages l.code.virtualAddr 0 l.code.size
      ∧ SegmentFits l.pages l.code.virtualAddr l.codeIndex
          (decide (0 < l.code.size ∨ l.code.size ≤ -128)) (lastPageSize l.code.size)
          l.initData.size
      ∧ SegmentFits l.pages l.code.virtualAddr l.dataIndex (decide (0 < l.dataIndex))
          (lastPageSize (wrap32 (l.code.size + l.initData.size))) l.readonlyData.size

instance (l : Layout) : Decidable l.Confinable :=
  inferInstanceAs (Decidable (_ ∨ PagesFit .. ∧ SegmentFits .. ∧ SegmentFits ..))

/-- `Load` stays inside on every file with the layout, whatever else is in the
file, on the stack and in the frames. -/
def AlwaysConfined (l : Layout) : Prop :=
  ∀ (stack : List UInt8) (file : File) (k : Frames), k.gPhysPageBitMap.numBits = 128 →
    layoutOf (readHeader stack file) = l → Confined k (load stack (some file) k)

end Layout

section

variable {noffH : NoffHeader} (hl : (layoutOf noffH).IsInts)

theorem size_eq_space : size noffH = (layoutOf noffH).space := rfl

theorem numPages_eq_pages : numPages noffH = (layoutOf noffH).pages := by
  have := numPages_eq noffH
  rw [size_eq_space] at this
  rw [Layout.pages]
  omega

include hl

theorem Layout.IsInts.size_bounds {s : Extent} (hs : s ∈ (layoutOf noffH).segments) :
    -2147483648 ≤ s.size ∧ s.size ≤ 2147483647 := (hl s hs).2

theorem codePages_eq_codeIndex : codePages noffH = (layoutOf noffH).codeIndex := by
  have hc : -2147483648 ≤ noffH.code.size ∧ noffH.code.size ≤ 2147483647 :=
    hl.size_bounds (s := (layoutOf noffH).code) (by simp [Layout.segments])
  rw [codePages, Layout.codeIndex]
  simp only [layoutOf]
  split
  next hpos =>
      have := pageCount_of_nonneg hpos.le hc.2
      omega
  next => omega

theorem dataPages_eq_dataIndex : dataPages noffH = (layoutOf noffH).dataIndex := by
  have hd : -2147483648 ≤ noffH.initData.size ∧ noffH.initData.size ≤ 2147483647 :=
    hl.size_bounds (s := (layoutOf noffH).initData) (by simp [Layout.segments])
  have ho := (lastPageSize_range noffH.code.size).2
  rw [dataPages, Layout.dataIndex, codePages_eq_codeIndex hl]
  simp only [layoutOf]
  congr 1
  split
  next hpos =>
      have hrest := restSize_of_nonneg ho hpos.le hd.2
      have hbounds := restSize_bounds ho hpos.le hd.2
      have := pageCount_of_nonneg hbounds.1 (by omega)
      simp only [firstSize] at hrest
      omega
  next => omega

/-- A negative size counts as many pages as an `unsigned int` can once it is
a page or more. -/
theorem pageCount_pos_iff : 0 < pageCount noffH.code.size ↔
    0 < noffH.code.size ∨ noffH.code.size ≤ -128 := by
  have hc : -2147483648 ≤ noffH.code.size ∧ noffH.code.size ≤ 2147483647 :=
    hl.size_bounds (s := (layoutOf noffH).code) (by simp [Layout.segments])
  generalize noffH.code.size = c at hc
  rcases le_or_gt 0 c with hpos | hneg
  · have := pageCount_of_nonneg hpos hc.2
    omega
  · obtain ⟨m, hm⟩ : ∃ m, c = -m := ⟨-c, (neg_neg c).symm⟩
    have hdiv : c.tdiv 128 = -(m / 128) := by
      rw [hm, Int.neg_tdiv, Int.tdiv_eq_ediv_of_nonneg (by omega)]
    have hmod : c.tmod 128 = -(m % 128) := by
      rw [hm, Int.neg_tmod, Int.tmod_eq_emod_of_nonneg (by omega)]
    rw [pageCount, divRoundUp, hdiv, hmod, if_neg (by omega)]
    simp only [u32]
    omega

/-- The calls of a header keep to the frames exactly when its loops do. -/
theorem fits_reads_iff (hn : numPages noffH ≤ 128) :
    (∀ call ∈ reads noffH, CallFits (numPages noffH) noffH.code.virtualAddr call) ↔
      PagesFit (numPages noffH) noffH.code.virtualAddr 0 noffH.code.size
      ∧ SegmentFits (numPages noffH) noffH.code.virtualAddr (codePages noffH)
          (decide (0 < pageCount noffH.code.size)) (lastPageSize noffH.code.size)
          noffH.initData.size
      ∧ SegmentFits (numPages noffH) noffH.code.virtualAddr (dataPages noffH)
          (decide (0 < dataPages noffH)) (readonlyOffset noffH) noffH.readonlyData.size := by
  have hc : -2147483648 ≤ noffH.code.size ∧ noffH.code.size ≤ 2147483647 :=
    hl.size_bounds (s := (layoutOf noffH).code) (by simp [Layout.segments])
  have hd : -2147483648 ≤ noffH.initData.size ∧ noffH.initData.size ≤ 2147483647 :=
    hl.size_bounds (s := (layoutOf noffH).initData) (by simp [Layout.segments])
  have hr : -2147483648 ≤ noffH.readonlyData.size ∧ noffH.readonlyData.size ≤ 2147483647 :=
    hl.size_bounds (s := (layoutOf noffH).readonlyData) (by simp [Layout.segments])
  have hci : codePages noffH ≤ 16777216 := by
    rw [codePages]
    split
    next hpos =>
        have := pageCount_of_nonneg hpos.le hc.2
        omega
    next => omega
  have ho := (lastPageSize_range noffH.code.size).2
  have hdi : dataPages noffH ≤ 33554432 := by
    rw [dataPages]
    split
    next hpos =>
        have hbounds := restSize_bounds ho hpos.le hd.2
        have := pageCount_of_nonneg hbounds.1 (by omega)
        omega
    next => omega
  have hcode : (∀ call ∈ codeReads noffH, CallFits (numPages noffH) noffH.code.virtualAddr call) ↔
      PagesFit (numPages noffH) noffH.code.virtualAddr 0 noffH.code.size := by
    rw [codeReads]
    split
    next hpos => exact fits_pageReads hpos.le hc.2
    next hneg => exact ⟨fun _ h => absurd h hneg, fun _ c hc => absurd hc List.not_mem_nil⟩
  have hdata : (∀ call ∈ initDataReads noffH,
      CallFits (numPages noffH) noffH.code.virtualAddr call) ↔
      SegmentFits (numPages noffH) noffH.code.virtualAddr (codePages noffH)
        (decide (0 < pageCount noffH.code.size)) (lastPageSize noffH.code.size)
        noffH.initData.size := by
    rw [initDataReads]
    split
    next hpos => exact fits_segmentReads hn (by omega) ho hpos hd.2
    next hneg => exact ⟨fun _ h => absurd h hneg, fun _ c hc => absurd hc List.not_mem_nil⟩
  have hread : (∀ call ∈ readonlyDataReads noffH,
      CallFits (numPages noffH) noffH.code.virtualAddr call) ↔
      SegmentFits (numPages noffH) noffH.code.virtualAddr (dataPages noffH)
        (decide (0 < dataPages noffH)) (readonlyOffset noffH) noffH.readonlyData.size := by
    rw [readonlyDataReads]
    split
    next hpos =>
        exact fits_segmentReads hn (by omega) (lastPageSize_range _).2 hpos hr.2
    next hneg => exact ⟨fun _ h => absurd h hneg, fun _ c hc => absurd hc List.not_mem_nil⟩
  rw [← hcode, ← hdata, ← hread, reads]
  simp only [List.mem_append]
  constructor
  · intro h
    exact ⟨fun c hc => h c (Or.inl (Or.inl hc)), fun c hc => h c (Or.inl (Or.inr hc)),
      fun c hc => h c (Or.inr hc)⟩
  · rintro ⟨h₁, h₂, h₃⟩ c ((hc | hc) | hc)
    exacts [h₁ c hc, h₂ c hc, h₃ c hc]

theorem confinable_iff : (layoutOf noffH).Confinable ↔ 128 < numPages noffH
    ∨ ∀ call ∈ reads noffH, CallFits (numPages noffH) noffH.code.virtualAddr call := by
  have hbig : 128 < numPages noffH ↔ 16384 < (layoutOf noffH).space := by
    have := numPages_eq noffH
    rw [size_eq_space] at this
    omega
  rw [hbig, Layout.Confinable]
  by_cases hspace : 16384 < (layoutOf noffH).space
  · simp only [hspace, true_or]
  · have hdec : decide (0 < pageCount noffH.code.size)
        = decide (0 < noffH.code.size ∨ noffH.code.size ≤ -128) := by
      rw [decide_eq_decide]
      exact pageCount_pos_iff hl
    rw [fits_reads_iff hl (by omega), numPages_eq_pages, codePages_eq_codeIndex hl,
      dataPages_eq_dataIndex hl, hdec]
    rfl

end

/-! ## Every file with a layout -/

/-- Calls that fit keep the whole of `Load` inside. -/
theorem confined_fill {file : File} {noffH : NoffHeader} {k : Frames}
    (hbits : k.gPhysPageBitMap.numBits = 128) (had : Admitted noffH k)
    (h : ∀ call ∈ reads noffH, CallFits (numPages noffH) noffH.code.virtualAddr call) :
    Confined k (fill file noffH k) := by
  have ha := allocated 0 (numPages noffH) k had.free
  obtain ⟨hout, hwrites, hkept⟩ := copy_confined file
    (fun call hcall => callOK_of_fits hbits had.free (h call hcall))
    (allocate 0 (numPages noffH) k).2.mainMemory
  refine ⟨hout, hwrites, ha.fresh, fun x hx => ?_⟩
  refine (hkept x hx).trans (ha.kept x fun e he hxe => hx ⟨e, he, ?_⟩)
  rw [(ha.pageFrame_eq hbits he).2.1]
  exact hxe

/-- A header with the given layout whose segments all start at the beginning
of the file. -/
def blankHeader (l : Layout) : NoffHeader where
  noffMagic := noffMagic
  code := ⟨l.code.virtualAddr, 0, l.code.size⟩
  initData := ⟨l.initData.virtualAddr, 0, l.initData.size⟩
  readonlyData := ⟨l.readonlyData.virtualAddr, 0, l.readonlyData.size⟩
  uninitData := ⟨l.uninitData.virtualAddr, 0, l.uninitData.size⟩

/-- A file long enough for every segment. -/
def blankFile (l : Layout) : File := (blankHeader l).encode ++ List.replicate 2147483647 0

section

variable {l : Layout} (hl : l.IsInts)

include hl

theorem readHeader_blankFile : readHeader [] (blankFile l) = blankHeader l := by
  have hc := hl l.code (by simp [Layout.segments])
  have hd := hl l.initData (by simp [Layout.segments])
  have hr := hl l.readonlyData (by simp [Layout.segments])
  have hu := hl l.uninitData (by simp [Layout.segments])
  have hzero : IsInt 0 := by decide
  have hmagic : IsInt noffMagic := by decide
  refine readHeader_encode [] _ _ fun w hw => ?_
  simp only [NoffHeader.words, blankHeader, List.mem_cons, List.not_mem_nil, or_false] at hw
  rcases hw with rfl | rfl | rfl | rfl | rfl | rfl | rfl | rfl | rfl | rfl | rfl | rfl | rfl
  exacts [hmagic, hc.1, hzero, hc.2, hd.1, hzero, hd.2, hr.1, hzero, hr.2, hu.1, hzero, hu.2]

theorem asksWithin_blankFile {call : ReadCall} (h : call ∈ reads (blankHeader l)) :
    AsksWithin (blankFile l).length call := by
  have hlen : (2147483647 : Int) ≤ (blankFile l).length := by
    rw [blankFile, List.length_append, List.length_replicate, (blankHeader l).length_encode]
    norm_num
  have hsize : ∀ s ∈ l.segments, s.size ≤ 2147483647 := fun s hs => (hl s hs).2.2
  have hc : (blankHeader l).code.size ≤ 2147483647 := hsize l.code (by simp [Layout.segments])
  have hd : (blankHeader l).initData.size ≤ 2147483647 :=
    hsize l.initData (by simp [Layout.segments])
  have hr : (blankHeader l).readonlyData.size ≤ 2147483647 :=
    hsize l.readonlyData (by simp [Layout.segments])
  have hask : AsksWithin 2147483647 call := asksWithin_reads
    (fun _ => ⟨le_rfl, by simpa [blankHeader] using hc⟩)
    (fun _ => ⟨le_rfl, by simpa [blankHeader] using hd⟩)
    (fun _ => ⟨le_rfl, by simpa [blankHeader] using hr⟩)
    (fun _ => by simpa [blankHeader] using hc) (fun _ => by simpa [blankHeader] using hd)
    (fun _ => by simpa [blankHeader] using hr) h
  exact ⟨hask.position, hask.numBytes, hask.bound.trans hlen⟩

/-- A layout that always keeps `Load` inside keeps each call inside. -/
theorem fits_of_alwaysConfined (hall : l.AlwaysConfined) (hn : numPages (blankHeader l) ≤ 128)
    {call : ReadCall} (h : call ∈ reads (blankHeader l)) :
    CallFits (numPages (blankHeader l)) (blankHeader l).code.virtualAddr call := by
  refine fits_of_callOK hn (asksWithin_blankFile hl h).numBytes fun x hx => ?_
  have hclear := numClear_framesBut x
  have had : Admitted (readHeader [] (blankFile l)) (framesBut x) := by
    rw [readHeader_blankFile hl]
    exact ⟨rfl, hn, by omega⟩
  have hconf := hall [] (blankFile l) (framesBut x) (numBits_framesBut x)
    (by rw [readHeader_blankFile hl]; rfl)
  rw [load_of_admitted had, readHeader_blankFile hl] at hconf
  obtain ⟨e, he, hmem⟩ := mem_writes (fun c hc => asksWithin_blankFile hl hc) hconf.index call h
  refine ⟨(List.getElem?_eq_some_iff.mp he).1, fun e' he' y hlo hhi => ?_⟩
  obtain rfl := Option.some.inj (he.symm.trans he')
  exact hconf.writes _ hmem y hlo (by simp only; omega)

end

/-- `Load` stays inside on every file with a layout exactly when the size
check stops it or each of its loops fits. -/
theorem load_confined_iff (l : Layout) (hl : l.IsInts) : l.AlwaysConfined ↔ l.Confinable := by
  constructor
  · intro hall
    refine (@confinable_iff (blankHeader l) hl).mpr ?_
    by_cases hn : 128 < numPages (blankHeader l)
    · exact Or.inl hn
    · exact Or.inr fun call hcall => fits_of_alwaysConfined hl hall (by omega) hcall
  · intro hconf stack file k hbits hlay
    subst hlay
    rcases admitted_or_unchanged stack file k with had | hload | hload
    · rw [load_of_admitted had]
      rcases (confinable_iff hl).mp hconf with hbig | hfits
      · have := had.pages
        omega
      · exact confined_fill hbits had hfits
    · rw [hload]
      exact ⟨nofun, nofun, nofun, fun _ _ => rfl⟩
    · rw [hload]
      exact ⟨nofun, nofun, nofun, fun _ _ => rfl⟩

theorem load_confined_ordered : orderedLayout.AlwaysConfined :=
  (load_confined_iff orderedLayout (by decide)).mpr (by decide)

/-- One byte of code that asks to be nine pages before its frame. -/
def strayHeader : NoffHeader where
  noffMagic := noffMagic
  code := ⟨-1152, 52, 1⟩
  initData := ⟨0, 0, 0⟩
  readonlyData := ⟨0, 0, 0⟩
  uninitData := ⟨0, 0, 0⟩

def strayFile : File := strayHeader.encode ++ [7]

/-- Loaded behind another program, it replaces the first byte of that
program's code. -/
theorem load_overwrites_other_program :
    let first := load [] (some linkedFile) freshFrames
    let second := load [] (some strayFile) first.frames
    first.outcome = .returnsTrue ∧ second.outcome = .returnsTrue
      ∧ byteAt first.pageTable first.frames.mainMemory 0 = some 1
      ∧ byteAt first.pageTable second.frames.mainMemory 0 = some 7
      ∧ ¬Confined first.frames second := by
  intro first second
  have hwrites : second.writes = [(0, 1)] := by decide +kernel
  have hframes : ∀ e ∈ second.pageTable, (0 : Int) ≠ pageFrame e := by decide +kernel
  refine ⟨by decide +kernel, by decide +kernel, by decide +kernel, by decide +kernel, fun h => ?_⟩
  obtain ⟨e, he, hfe⟩ := h.writes (0, 1) (by rw [hwrites]; exact List.mem_singleton_self _) 0
    le_rfl (by decide)
  exact hframes e he hfe

end AddrSpace

end Nachos
