import Nachos.FileCursor
import Nachos.FrameOwnership
import Mathlib.Data.Int.Interval

/-!
# Bytes through the system call boundary

What a program gets back when it writes bytes to a file and reads them again
from the same position. Both copy loops treat the buffer as text:
`User2System` stops behind the first zero and leaves zeros in the rest of
the kernel buffer, so the file gets the bytes up to the first zero and then
zeros (`wire`); `System2User` stops behind the first zero as well, so of what
is read only the part up to the first zero reaches the program. The law
therefore holds exactly when what stands in the target behind the first zero
is what should come there (`file_roundtrip_iff`).

`Mapped` and `phys` describe single bytes of a program. The bits a
translation sets leave both alone (`SameFrames`), and on a table whose frames
are distinct, as those made by `Load` are (`nodup_of_live`), different
addresses are different bytes of the memory.
-/

namespace Nachos

open CInt ByteMemory Machine HostFiles

/-! ## Single bytes of a program -/

/-- `a` can be read, or with `w` written, through the table. -/
def Mapped (pt : List TranslationEntry) (w : Bool) (a : Int) : Prop :=
  ∃ e, pt[vpn a]? = some e ∧ e.valid = true ∧ (w = true → e.readOnly = false) ∧ pageFrame e < 128

/-- The place of `a` in the memory. -/
def phys (pt : List TranslationEntry) (a : Int) : Int :=
  match pt[vpn a]? with
  | some e => pageFrame e * 128 + offset a
  | none => 0

/-- An entry without the bits a translation sets. -/
def bare (e : TranslationEntry) : TranslationEntry := { e with use := false, dirty := false }

/-- The tables differ at most in `use` and `dirty` bits. -/
def SameFrames (pt pt' : List TranslationEntry) : Prop := pt'.map bare = pt.map bare

section Bytes

variable {pt pt' pt'' : List TranslationEntry} {m : Memory} {a : Int} {w : Bool}

theorem SameFrames.refl (pt : List TranslationEntry) : SameFrames pt pt := rfl

theorem SameFrames.trans (h : SameFrames pt pt') (h' : SameFrames pt' pt'') :
    SameFrames pt pt'' :=
  Eq.trans h' h

theorem sameFrames_touch {i : Nat} {e : TranslationEntry} (he : pt[i]? = some e) :
    SameFrames pt (pt.set i (touch w e)) := by
  have hbare : bare (touch w e) = bare e := rfl
  rw [SameFrames, List.map_set, hbare]
  refine List.ext_getElem? fun j => ?_
  rw [List.getElem?_set]
  split
  next hij =>
      subst hij
      rw [List.getElem?_map, he, List.length_map, if_pos (List.getElem?_eq_some_iff.mp he).1]
      rfl
  next => rfl

/-- An entry of one table is that of the other, up to the bits. -/
theorem SameFrames.entry (h : SameFrames pt pt') {i : Nat} {e : TranslationEntry}
    (he : pt[i]? = some e) : ∃ e', pt'[i]? = some e' ∧ pageFrame e' = pageFrame e
      ∧ e'.valid = e.valid ∧ e'.readOnly = e.readOnly := by
  have hmap : (pt'[i]?).map bare = some (bare e) := by
    rw [← List.getElem?_map, h, List.getElem?_map, he]
    rfl
  obtain ⟨e', he', hbare⟩ := Option.map_eq_some_iff.mp hmap
  simp only [bare, TranslationEntry.mk.injEq] at hbare
  exact ⟨e', he', congrArg u32 hbare.2.1, hbare.2.2.1, hbare.2.2.2.1⟩

theorem SameFrames.mapped (h : SameFrames pt pt') (hm : Mapped pt w a) : Mapped pt' w a := by
  obtain ⟨e, he, hv, hro, hf⟩ := hm
  obtain ⟨e', he', hframe, hvalid, hread⟩ := h.entry he
  exact ⟨e', he', by rw [hvalid, hv], fun hw => by rw [hread, hro hw], by rw [hframe]; exact hf⟩

theorem SameFrames.phys_eq (h : SameFrames pt pt') (a : Int) : phys pt' a = phys pt a := by
  cases he : pt[vpn a]? with
  | some e =>
      obtain ⟨e', he', hframe, -⟩ := h.entry he
      rw [phys, phys, he, he']
      simp only [hframe]
  | none =>
      have hlen : pt'.length = pt.length := by
        have := congrArg List.length h
        rwa [List.length_map, List.length_map] at this
      have he' : pt'[vpn a]? = none := by
        rw [List.getElem?_eq_none_iff, hlen]
        exact List.getElem?_eq_none_iff.mp he
      rw [phys, phys, he, he']

theorem Mapped.read (h : Mapped pt true a) : Mapped pt false a := by
  obtain ⟨e, he, hv, -, hf⟩ := h
  exact ⟨e, he, hv, nofun, hf⟩

/-- The addresses of a loop that counts with `int`s. -/
theorem u32_next (a : Int) (i : Nat) : u32 (wrap32 (a + 1) + i) = u32 (a + (i + 1 : Nat)) := by
  simp only [u32, wrap32]
  omega

theorem translate_of_mapped (h : Mapped pt w a) :
    ∃ pt', translate pt a 1 w = .ok (phys pt a, pt') ∧ SameFrames pt pt' := by
  obtain ⟨e, he, hv, hro, hf⟩ := h
  have hoff := offset_bounds a
  refine ⟨pt.set (vpn a) (touch w e), ?_, sameFrames_touch he⟩
  have hwrite : (e.readOnly && w) = false := by
    cases w with
    | false => exact Bool.and_false _
    | true => rw [hro rfl]; rfl
  have hneg : misaligned a 1 = false := rfl
  rw [Machine.translate, hneg, phys, he]
  simp only [hv, hwrite, Bool.not_true, Bool.false_eq_true, if_false]
  rw [if_neg (by omega), if_pos (by omega)]

theorem byteAt_of_mapped (m : Memory) (h : Mapped pt false a) :
    byteAt pt m a = some (m (phys pt a)) := by
  obtain ⟨pt', ht, -⟩ := translate_of_mapped h
  rw [byteAt, ht]

theorem readMem_of_mapped (m : Memory) (h : Mapped pt false a) :
    ∃ pt', readMem pt m a 1 = .ok (signedChar (m (phys pt a)), pt') ∧ SameFrames pt pt' := by
  obtain ⟨pt', ht, hsame⟩ := translate_of_mapped h
  refine ⟨pt', ?_, hsame⟩
  rw [readMem, ht]
  rfl

theorem signedChar_eq_zero {b : UInt8} : signedChar b = 0 ↔ b = 0 := by
  have hlt := b.toNat_lt
  rw [← UInt8.toNat_inj, signedChar]
  change _ ↔ b.toNat = 0
  split <;> omega

/-- `(char)oneChar` is the byte that was read, and `value & 0xff` too. -/
theorem ofNat_signedChar (b : UInt8) : UInt8.ofNat (u32 (signedChar b)).toNat = b := by
  have hlt := b.toNat_lt
  rw [← UInt8.toNat_inj, UInt8.toNat_ofNat', signedChar, u32]
  split <;> omega

theorem writeMem_of_mapped (m : Memory) (b : UInt8) (h : Mapped pt true a) :
    ∃ pt', writeMem pt m a 1 (signedChar b) = .ok (write m (phys pt a) [b], pt')
      ∧ SameFrames pt pt' := by
  obtain ⟨pt', ht, hsame⟩ := translate_of_mapped h
  refine ⟨pt', ?_, hsame⟩
  have hbytes : leBytes 1 (u32 (signedChar b)).toNat = [b] := by
    rw [leBytes, leBytes, ofNat_signedChar]
  rw [writeMem, ht]
  simp only [hbytes, true_or, if_true]

theorem write_one (m : Memory) (p x : Int) (b : UInt8) :
    write m p [b] x = if x = p then b else m x := by
  by_cases hx : x = p
  · subst hx
    rw [write_of_mem le_rfl (by simp), if_pos rfl, sub_self]
    rfl
  · rw [write_of_not_mem (by simp; omega), if_neg hx]

theorem phys_bounds (h : Mapped pt w a) : 0 ≤ phys pt a ∧ phys pt a < 16384 := by
  obtain ⟨e, he, -, -, hf⟩ := h
  have hframe : 0 ≤ pageFrame e := (u32_bounds _).1
  have hoff := offset_bounds a
  rw [phys, he]
  simp only
  omega

/-- On distinct frames, different addresses are different bytes. -/
theorem phys_inj {b : Int} {w' : Bool} (hnodup : (pt.map pageFrame).Nodup) (ha : Mapped pt w a)
    (hb : Mapped pt w' b) (h : phys pt a = phys pt b) : u32 a = u32 b := by
  obtain ⟨e, he, -⟩ := ha
  obtain ⟨e', he', -⟩ := hb
  have hoff := offset_bounds a
  have hoff' := offset_bounds b
  rw [phys, phys, he, he'] at h
  simp only at h
  have hframe : pageFrame e = pageFrame e' := by omega
  have hindex : vpn a = vpn b := by
    obtain ⟨hi, rfl⟩ := List.getElem?_eq_some_iff.mp he
    obtain ⟨hj, rfl⟩ := List.getElem?_eq_some_iff.mp he'
    have hi' : vpn a < (pt.map pageFrame).length := by rwa [List.length_map]
    have hj' : vpn b < (pt.map pageFrame).length := by rwa [List.length_map]
    have heq : (pt.map pageFrame)[vpn a] = (pt.map pageFrame)[vpn b] := by
      rw [List.getElem_map, List.getElem_map]
      exact hframe
    exact (List.Nodup.getElem_inj_iff hnodup).mp heq
  have hoffset : offset a = offset b := by omega
  have hu := u32_bounds a
  have hu' := u32_bounds b
  simp only [vpn, offset] at hindex hoffset
  omega

end Bytes

/-! ## The copy loops -/

/-- The places of the bytes from `a` on. -/
def place (pt : List TranslationEntry) (a : Int) (i : Nat) : Int := phys pt (a + i)

/-- The `k` bytes of a program from `a` on. -/
def userBytes (pt : List TranslationEntry) (m : Memory) (a : Int) (k : Nat) : List UInt8 :=
  (List.range k).map fun i => m (place pt a i)

/-- A kernel buffer filled from `bs`: zeros from the first zero on. -/
def kernelBuffer : List UInt8 → List UInt8
  | [] => [0]
  | b :: bs => if b = 0 then List.replicate (bs.length + 2) 0 else b :: kernelBuffer bs

/-- The memory after storing a buffer, up to its first zero, at the places
`at₀ 0`, `at₀ 1` and so on. -/
def stores (at₀ : Nat → Int) (m : Memory) : List UInt8 → Memory
  | [] => m
  | b :: bs =>
      if b = 0 then write m (at₀ 0) [b]
      else stores (fun i => at₀ (i + 1)) (write m (at₀ 0) [b]) bs

section Loops

variable {pt : List TranslationEntry} {m : Memory} {a : Int}

theorem place_next {pt' : List TranslationEntry} (h : SameFrames pt pt') (a : Int) :
    place pt' (wrap32 (a + 1)) = fun i => place pt a (i + 1) := by
  funext i
  rw [place, place, h.phys_eq, phys, phys, vpn, vpn, offset, offset, u32_next]

theorem mapped_next {pt' : List TranslationEntry} {w : Bool} {k : Nat} (h : SameFrames pt pt')
    (hm : ∀ i < k + 1, Mapped pt w (a + i)) : ∀ i < k, Mapped pt' w (wrap32 (a + 1) + i) := by
  intro i hi
  have hnext := h.mapped (hm (i + 1) (Nat.succ_lt_succ hi))
  rw [Mapped, vpn] at hnext ⊢
  rwa [u32_next]

theorem mapped_first {w : Bool} {k : Nat} (hm : ∀ i < k + 1, Mapped pt w (a + i)) :
    Mapped pt w a := by
  have hfirst := hm 0 (Nat.succ_pos k)
  rwa [Nat.cast_zero, add_zero] at hfirst

theorem phys_eq_place (pt : List TranslationEntry) (a : Int) : phys pt a = place pt a 0 := by
  rw [place, Nat.cast_zero, add_zero]

@[simp] theorem length_userBytes (pt : List TranslationEntry) (m : Memory) (a : Int) (k : Nat) :
    (userBytes pt m a k).length = k := by
  rw [userBytes, List.length_map, List.length_range]

theorem getElem?_userBytes (pt : List TranslationEntry) (m : Memory) (a : Int) {k i : Nat}
    (hi : i < k) : (userBytes pt m a k)[i]? = some (m (place pt a i)) := by
  rw [userBytes, List.getElem?_map, List.getElem?_range hi]
  rfl

theorem userBytes_succ {pt' : List TranslationEntry} (h : SameFrames pt pt') (m : Memory) (a : Int)
    (k : Nat) : userBytes pt m a (k + 1)
      = m (phys pt a) :: userBytes pt' m (wrap32 (a + 1)) k := by
  rw [userBytes, userBytes, List.range_succ_eq_map, List.map_cons, List.map_map, place_next h,
    phys_eq_place]
  rfl

/-- `User2System` on mapped memory. -/
theorem copyIn_eq {k : Nat} (hm : ∀ i < k, Mapped pt false (a + i)) :
    ∃ pt', copyIn pt m a k = .ok (kernelBuffer (userBytes pt m a k), pt') ∧ SameFrames pt pt' := by
  induction k generalizing pt a with
  | zero => exact ⟨pt, rfl, .refl pt⟩
  | succ k ih =>
      obtain ⟨pt₁, hread, hsame⟩ := readMem_of_mapped m (mapped_first hm)
      rw [copyIn, hread, userBytes_succ hsame, kernelBuffer, length_userBytes]
      simp only [signedChar_eq_zero]
      by_cases hzero : m (phys pt a) = 0
      · rw [if_pos hzero, if_pos hzero]
        exact ⟨pt₁, rfl, hsame⟩
      · obtain ⟨pt₂, hcopy, hsame₂⟩ := ih (mapped_next hsame hm)
        rw [if_neg hzero, if_neg hzero, hcopy]
        simp only [ofNat_signedChar]
        exact ⟨pt₂, rfl, hsame.trans hsame₂⟩

/-- `System2User` on mapped memory. -/
theorem copyOut_eq {bs : List UInt8} (hm : ∀ i < bs.length, Mapped pt true (a + i)) :
    ∃ pt', copyOut pt m a bs = .ok (stores (place pt a) m bs, pt') ∧ SameFrames pt pt' := by
  induction bs generalizing pt m a with
  | nil => exact ⟨pt, rfl, .refl pt⟩
  | cons b bs ih =>
      obtain ⟨pt₁, hwrite, hsame⟩ := writeMem_of_mapped m b (mapped_first hm)
      rw [copyOut, hwrite, stores, phys_eq_place]
      by_cases hzero : b = 0
      · simp only [if_pos hzero]
        exact ⟨pt₁, rfl, hsame⟩
      · obtain ⟨pt₂, hcopy, hsame₂⟩ := ih (mapped_next hsame hm)
        simp only [if_neg hzero]
        rw [hcopy, place_next hsame]
        exact ⟨pt₂, rfl, hsame.trans hsame₂⟩

end Loops

/-! ## What gets through -/

/-- A zero stands before place `j`. -/
def ZeroBefore (bs : List UInt8) (j : Nat) : Prop := ∃ i, i < j ∧ bs[i]? = some 0

/-- The bytes that reach the file. -/
def wire (bs : List UInt8) : List UInt8 := (kernelBuffer bs).take bs.length

theorem length_kernelBuffer (bs : List UInt8) : (kernelBuffer bs).length = bs.length + 1 := by
  induction bs with
  | nil => rfl
  | cons b bs ih =>
      rw [kernelBuffer]
      split
      next => rw [List.length_replicate, List.length_cons]
      next => rw [List.length_cons, ih, List.length_cons]

theorem length_wire (bs : List UInt8) : (wire bs).length = bs.length := by
  rw [wire, List.length_take, length_kernelBuffer]
  omega

theorem wire_cons (b : UInt8) (bs : List UInt8) :
    wire (b :: bs) = if b = 0 then List.replicate (bs.length + 1) 0 else b :: wire bs := by
  rw [wire, kernelBuffer]
  split
  next =>
      rw [List.take_replicate, List.length_cons]
      congr 1
      omega
  next => rfl

theorem zeroBefore_cons {b : UInt8} {bs : List UInt8} {j : Nat} :
    ZeroBefore (b :: bs) (j + 1) ↔ b = 0 ∨ ZeroBefore bs j := by
  constructor
  · rintro ⟨i, hi, hz⟩
    cases i with
    | zero => exact Or.inl (Option.some.inj hz)
    | succ i => exact Or.inr ⟨i, Nat.lt_of_succ_lt_succ hi, hz⟩
  · rintro (rfl | ⟨i, hi, hz⟩)
    · exact ⟨0, Nat.succ_pos j, rfl⟩
    · exact ⟨i + 1, Nat.succ_lt_succ hi, hz⟩

/-- Nothing else is stored. -/
theorem stores_of_ne {at₀ : Nat → Int} (bs : List UInt8) (m : Memory) {x : Int}
    (hx : ∀ i < bs.length, x ≠ at₀ i) : stores at₀ m bs x = m x := by
  induction bs generalizing at₀ m with
  | nil => rfl
  | cons b bs ih =>
      have hfirst : write m (at₀ 0) [b] x = m x := by
        rw [write_one, if_neg (hx 0 (Nat.succ_pos _))]
      rw [stores]
      split
      next => exact hfirst
      next => rw [ih _ (fun i hi => hx (i + 1) (Nat.succ_lt_succ hi)), hfirst]

/-- Storing what came over the wire: behind the first zero the target is as
it was, up to it there are the bytes written. -/
theorem stores_wire {at₀ : Nat → Int} {bs : List UInt8} (m : Memory)
    (hinj : ∀ i j, i < bs.length → j < bs.length → at₀ i = at₀ j → i = j) {j : Nat} {b : UInt8}
    (hj : bs[j]? = some b) :
    (ZeroBefore bs j → stores at₀ m (wire bs) (at₀ j) = m (at₀ j))
    ∧ (¬ZeroBefore bs j → stores at₀ m (wire bs) (at₀ j) = b) := by
  induction bs generalizing at₀ m j with
  | nil => cases hj
  | cons b₀ bs ih =>
      have hlt : j < (b₀ :: bs).length := (List.getElem?_eq_some_iff.mp hj).1
      have hone : ∀ i, i < bs.length → at₀ (i + 1) ≠ at₀ 0 := by
        intro i hi heq
        exact absurd (hinj _ _ (Nat.succ_lt_succ hi) (Nat.succ_pos _) heq) (Nat.succ_ne_zero i)
      rw [wire_cons]
      by_cases hzero : b₀ = 0
      · rw [if_pos hzero, List.replicate_succ, stores, if_pos rfl]
        cases j with
        | zero =>
            obtain rfl := Option.some.inj hj
            refine ⟨fun ⟨i, hi, _⟩ => absurd hi (Nat.not_lt_zero i), fun _ => ?_⟩
            rw [write_one, if_pos rfl, hzero]
        | succ j =>
            refine ⟨fun _ => ?_, fun hno => absurd (zeroBefore_cons.mpr (Or.inl hzero)) hno⟩
            rw [write_one, if_neg (hone j (Nat.lt_of_succ_lt_succ hlt))]
      · rw [if_neg hzero, stores, if_neg hzero]
        cases j with
        | zero =>
            obtain rfl := Option.some.inj hj
            refine ⟨fun ⟨i, hi, _⟩ => absurd hi (Nat.not_lt_zero i), fun _ => ?_⟩
            rw [stores_of_ne, write_one, if_pos rfl]
            intro i hi heq
            rw [length_wire] at hi
            exact hone i hi heq.symm
        | succ j =>
            have hinj' : ∀ i k, i < bs.length → k < bs.length → at₀ (i + 1) = at₀ (k + 1) → i = k :=
              fun i k hi hk heq => Nat.succ.inj
                (hinj _ _ (Nat.succ_lt_succ hi) (Nat.succ_lt_succ hk) heq)
            obtain ⟨hold, hnew⟩ := ih (write m (at₀ 0) [b₀]) hinj' hj
            rw [zeroBefore_cons, or_iff_right hzero]
            refine ⟨fun hz => ?_, hnew⟩
            rw [hold hz, write_one, if_neg (hone j (Nat.lt_of_succ_lt_succ hlt))]

/-! ## Through the descriptor -/

section Descriptor

variable {s : Files} {id : Int} {f : OpenFile} {d : Desc}

/-- Entry `id` and its descriptor both stand at `p`, in a file of these
bytes. -/
def Positioned (s : Files) (id : Int) (p : Nat) (bytes : List UInt8) : Prop :=
  ∃ (f : OpenFile) (d : Desc), Holds s id { f with currentOffset := p } d ∧ d.cursor = p
    ∧ s.host.data d.inode = bytes

theorem write_positioned (hs : Holds s id f d) (htype : f.type = 0) {buffer : List UInt8} {n : Nat}
    (hn : 0 < n) (hlen : n ≤ buffer.length) (hlim : d.cursor + n ≤ offsetLimit) :
    ∃ s', s.write buffer n id = .ok (n, s') ∧ Positioned s' id (d.cursor + n)
      (splice (s.host.data d.inode) d.cursor (buffer.take n)) := by
  have hwrite := write_eq hs htype hlen (by omega)
  rw [if_pos hlim, if_pos hn] at hwrite
  have hdesc := desc_written s.host f.file d (buffer.take n)
  rw [List.length_take, Nat.min_eq_left hlen] at hdesc
  exact ⟨_, hwrite, f, _, holds_after hs hdesc, rfl, data_written ..⟩

theorem seek_positioned {p q : Nat} {bytes : List UInt8} (hs : Positioned s id p bytes)
    (hlim : p ≤ offsetLimit) (hlen : bytes.length ≤ offsetLimit) (hq : q ≤ bytes.length) :
    ∃ s', s.seek q id = .ok (q, s') ∧ Positioned s' id q bytes := by
  obtain ⟨f, d, hf, hcur, rfl⟩ := hs
  have htarget : seekTarget q (s.host.data d.inode).length = q := if_neg (by omega)
  have hseek := seek_eq hf hcur hlim hlen q htarget
  rw [if_pos ⟨by omega, by omega⟩, Int.toNat_natCast] at hseek
  exact ⟨_, hseek, f, _, holds_after hf (desc_setCursor _ _ _ _), rfl, rfl⟩

theorem read_positioned {p : Nat} {bytes bs : List UInt8} (hs : Positioned s id p bytes)
    (buffer : List UInt8) (hlim : p + bs.length ≤ offsetLimit) (hpos : 0 < bs.length)
    (hbs : (bytes.drop p).take bs.length = bs) :
    ∃ s', s.read buffer bs.length id = .ok (bs.length, bs ++ buffer.drop bs.length, s') := by
  obtain ⟨f, d, hf, rfl, rfl⟩ := hs
  have hread := read_eq hf buffer bs.length hbs hlim
  rw [if_pos hpos] at hread
  exact ⟨_, hread⟩

end Descriptor

/-! ## The law -/

/-- `SC_Write` of `n` bytes from `src`, `SC_Seek` to `p` and `SC_Read` of `n`
bytes into `dst`: the three results and the process after them. -/
def Proc.writeSeekRead (s : Proc) (id p n src dst : Int) :
    Except Trap ((Int × Int × Int) × Proc) := do
  let (written, s) ← s.scWrite src n id
  let (position, s) ← s.scSeek p id
  let (count, s) ← s.scRead dst n id
  return ((written, position, count), s)

section Copied

variable {s : Proc} {virtAddr size id res : Int} {buffer : List UInt8}
  {pt : List TranslationEntry} {files : Files}

theorem scWrite_copied
    (hcopy : user2System s.pageTable s.mainMemory virtAddr size = .ok (buffer, pt))
    (hwrite : s.files.write buffer size id = .ok (res, files)) :
    s.scWrite virtAddr size id = .ok (res, ⟨pt, s.mainMemory, files⟩) := by
  rw [Proc.scWrite, hcopy]
  simp only [hwrite, bind, Except.bind, pure, Except.pure]

theorem scWrite_copied_error {e : Trap}
    (hcopy : user2System s.pageTable s.mainMemory virtAddr size = .ok (buffer, pt))
    (hwrite : s.files.write buffer size id = .error e) : s.scWrite virtAddr size id = .error e := by
  rw [Proc.scWrite, hcopy]
  simp only [hwrite, bind, Except.bind]

theorem scRead_copied {buffer' : List UInt8} {m : Memory} {pt' : List TranslationEntry}
    (hcopy : user2System s.pageTable s.mainMemory virtAddr size = .ok (buffer, pt))
    (hread : s.files.read buffer size id = .ok (res, buffer', files)) (hres : res ≠ -1 ∧ res ≠ -2)
    (hout : system2User pt s.mainMemory virtAddr res buffer' = .ok (m, pt')) :
    s.scRead virtAddr size id = .ok (res, ⟨pt', m, files⟩) := by
  rw [Proc.scRead, hcopy]
  simp only [hread, if_pos hres, hout, bind, Except.bind, pure, Except.pure]

theorem writeSeekRead_ok {s₁ s₂ s₃ : Proc} {p n src dst written position count : Int}
    (hwrite : s.scWrite src n id = .ok (written, s₁))
    (hseek : s₁.scSeek p id = .ok (position, s₂))
    (hread : s₂.scRead dst n id = .ok (count, s₃)) :
    s.writeSeekRead id p n src dst = .ok ((written, position, count), s₃) := by
  rw [Proc.writeSeekRead, hwrite]
  simp only [hseek, hread, bind, Except.bind, pure, Except.pure]

theorem writeSeekRead_error {p n src dst : Int} {e : Trap}
    (hwrite : s.scWrite src n id = .error e) : s.writeSeekRead id p n src dst = .error e := by
  rw [Proc.writeSeekRead, hwrite]
  rfl

end Copied

/-- The byte of a program at `a`. -/
def Proc.byte (s : Proc) (a : Int) : Option UInt8 := byteAt s.pageTable s.mainMemory a

/-- The calls return `n`, `p` and `n`, the target holds the bytes of the
source, and no other byte of the memory has changed. -/
def RoundTrips (s : Proc) (id : Int) (p n : Nat) (src dst : Int) : Prop :=
  ∃ s', s.writeSeekRead id p n src dst = .ok ((n, p, n), s')
    ∧ (∀ i < n, s'.byte (dst + i) = s.byte (src + i))
    ∧ ∀ x, (∀ i < n, x ≠ place s.pageTable dst i) → s'.mainMemory x = s.mainMemory x

/-- Descriptor `id` was opened with type 0 and has its cursor at `p`, and the
two buffers are mapped, on distinct frames. -/
structure Setting (s : Proc) (id : Int) (p n : Nat) (src dst : Int) : Prop where
  opened : ∃ f d, Holds s.files id f d ∧ f.type = 0 ∧ d.cursor = p
    ∧ (s.files.host.data d.inode).length ≤ offsetLimit
  cursor : p ≤ offsetLimit
  frames : (s.pageTable.map pageFrame).Nodup
  source : ∀ i < n, Mapped s.pageTable false (src + i)
  target : ∀ i < n, Mapped s.pageTable true (dst + i)
  pos : 0 < n
  int : (n : Int) ≤ intMax

/-- The tables of programs in memory are on distinct frames. -/
theorem nodup_of_live {s : Spaces.State} (h : Spaces.Inv s) {p : Nat} (hp : s.Live p) :
    ((s.table p).map pageFrame).Nodup := by
  have hmap : (s.table p).map pageFrame = ((s.table p).map AddrSpace.frameOf).map Int.ofNat := by
    rw [List.map_map]
    exact List.map_congr_left fun e he =>
      Spaces.Inv.pageFrame_of_entries (h.live_entries hp) he
  have hnodup := h.tracks.nodup p
  rw [Spaces.Inv.live_held hp] at hnodup
  rw [hmap]
  exact hnodup.map fun a b hab => Int.ofNat.inj hab

section Law

variable {s : Proc} {id : Int} {p n : Nat} {src dst : Int}

theorem place_inj (h : Setting s id p n src dst) {i j : Nat} (hi : i < n) (hj : j < n)
    (heq : place s.pageTable dst i = place s.pageTable dst j) : i = j := by
  have hu := phys_inj h.frames (h.target i hi) (h.target j hj) heq
  have hint := h.int
  simp only [u32, intMax] at hu hint
  omega

/-- Distinct places below `size` are at most `size` many. -/
theorem count_le_of_inj {f : Nat → Int} {size : Nat} (hf : ∀ i < n, 0 ≤ f i ∧ f i < size)
    (hinj : ∀ i < n, ∀ j < n, f i = f j → i = j) : n ≤ size := by
  have hmaps : Set.MapsTo f (Finset.range n) (Finset.Ico (0 : Int) size) := fun i hi =>
    Finset.mem_coe.mpr (Finset.mem_Ico.mpr (hf i (Finset.mem_range.mp hi)))
  have hcard := Finset.card_le_card_of_injOn f hmaps fun i hi j hj =>
    hinj i (Finset.mem_range.mp hi) j (Finset.mem_range.mp hj)
  rw [Finset.card_range, Int.card_Ico] at hcard
  omega

theorem Setting.count_lt (h : Setting s id p n src dst) : (n : Int) < intMax := by
  have hle : n ≤ 16384 := count_le_of_inj (f := place s.pageTable dst)
    (fun i hi => phys_bounds (h.target i hi)) fun i hi j hj => place_inj h hi hj
  simp only [intMax]
  omega

theorem user2System_eq {pt : List TranslationEntry} {m : Memory} {a : Int}
    (hm : ∀ i < n, Mapped pt false (a + i)) (hn : (n : Int) < intMax) :
    ∃ pt', user2System pt m a n = .ok (kernelBuffer (userBytes pt m a n), pt')
      ∧ SameFrames pt pt' := by
  have hwrap : wrap32 (n + 1) = n + 1 := by
    simp only [intMax] at hn
    exact wrap32_of_bounds (by omega) (by omega)
  rw [user2System, hwrap, if_neg (by omega), if_neg (by omega), Int.toNat_natCast]
  exact copyIn_eq hm

/-- Behind the largest offset the write fails. -/
theorem scWrite_abort (h : Setting s id p n src dst) (hlim : ¬p + n ≤ offsetLimit) :
    s.scWrite src n id = .error .abort := by
  obtain ⟨f, d, hs, htype, hcur, -⟩ := h.opened
  obtain ⟨pt₁, hcopy, -⟩ := user2System_eq (m := s.mainMemory) h.source h.count_lt
  have hbuf : n ≤ (kernelBuffer (userBytes s.pageTable s.mainMemory src n)).length := by
    rw [length_kernelBuffer, length_userBytes]
    omega
  have hwrite := write_eq hs htype hbuf (by rw [hcur]; exact h.cursor)
  rw [hcur, if_neg hlim] at hwrite
  exact scWrite_copied_error hcopy hwrite

/-- The three calls, and what they leave in the memory. -/
theorem writeSeekRead_eq (h : Setting s id p n src dst) (hlim : p + n ≤ offsetLimit) :
    ∃ s', s.writeSeekRead id p n src dst = .ok ((n, p, n), s')
      ∧ SameFrames s.pageTable s'.pageTable
      ∧ s'.mainMemory = stores (place s.pageTable dst) s.mainMemory
          (wire (userBytes s.pageTable s.mainMemory src n)) := by
  obtain ⟨f, d, hs, htype, hcur, hlen⟩ := h.opened
  generalize hbs : userBytes s.pageTable s.mainMemory src n = bs
  have hbsn : bs.length = n := by rw [← hbs, length_userBytes]
  -- the write
  obtain ⟨pt₁, hcopy, hsame₁⟩ := user2System_eq (m := s.mainMemory) h.source h.count_lt
  rw [hbs] at hcopy
  have hbuf : n ≤ (kernelBuffer bs).length := by
    rw [length_kernelBuffer, hbsn]
    omega
  have hwire : (kernelBuffer bs).take n = wire bs := by rw [wire, hbsn]
  have hwirelen : (wire bs).length = n := by rw [length_wire, hbsn]
  obtain ⟨fs₁, hwrite, hat₁⟩ := write_positioned hs htype h.pos hbuf (by rw [hcur]; exact hlim)
  rw [hcur, hwire] at hat₁
  -- the seek
  have hlen₁ : (splice (s.files.host.data d.inode) p (wire bs)).length
      = max (s.files.host.data d.inode).length (p + n) := by
    rw [length_splice, hwirelen]
  obtain ⟨fs₂, hseek, hat₂⟩ := seek_positioned hat₁ hlim (q := p)
    (by rw [hlen₁]; omega) (by rw [hlen₁]; omega)
  -- the read
  obtain ⟨pt₂, hcopy₂, hsame₂⟩ := user2System_eq (m := s.mainMemory)
    (fun i hi => hsame₁.mapped (h.target i hi).read) h.count_lt
  obtain ⟨fs₃, hread⟩ := read_positioned hat₂ (kernelBuffer (userBytes pt₁ s.mainMemory dst n))
    (by rw [hwirelen]; exact hlim) (by rw [hwirelen]; exact h.pos) (take_drop_splice _ p (wire bs))
  rw [hwirelen] at hread
  have htarget : ∀ i < (wire bs).length, Mapped pt₂ true (dst + i) := by
    intro i hi
    rw [hwirelen] at hi
    exact (hsame₁.trans hsame₂).mapped (h.target i hi)
  obtain ⟨pt₃, hout, hsame₃⟩ := copyOut_eq (m := s.mainMemory) htarget
  have hplace : place pt₂ dst = place s.pageTable dst := by
    funext i
    exact (hsame₁.trans hsame₂).phys_eq _
  have hsystem : ∀ rest, system2User pt₂ s.mainMemory dst n (wire bs ++ rest)
      = .ok (stores (place s.pageTable dst) s.mainMemory (wire bs), pt₃) := by
    intro rest
    rw [system2User, Int.toNat_natCast, List.take_append_of_le_length (by rw [hwirelen]),
      List.take_of_length_le (by rw [hwirelen]), hout, hplace]
  have hpos := h.pos
  have hres : (n : Int) ≠ -1 ∧ (n : Int) ≠ -2 := by omega
  refine ⟨⟨pt₃, stores (place s.pageTable dst) s.mainMemory (wire bs), fs₃⟩, ?_,
    hsame₁.trans (hsame₂.trans hsame₃), rfl⟩
  have hscWrite : s.scWrite src n id = .ok (n, ⟨pt₁, s.mainMemory, fs₁⟩) := by
    exact scWrite_copied hcopy hwrite
  have hscSeek : Proc.scSeek ⟨pt₁, s.mainMemory, fs₁⟩ p id = .ok (p, ⟨pt₁, s.mainMemory, fs₂⟩) := by
    rw [Proc.scSeek, hseek]
    simp only [bind, Except.bind, pure, Except.pure]
  have hscRead : Proc.scRead ⟨pt₁, s.mainMemory, fs₂⟩ dst n id
      = .ok (n, ⟨pt₃, stores (place s.pageTable dst) s.mainMemory (wire bs), fs₃⟩) := by
    exact scRead_copied hcopy₂ hread hres (hsystem _)
  exact writeSeekRead_ok hscWrite hscSeek hscRead

theorem zeroBefore_iff (h : Setting s id p n src dst) {j : Nat} (hj : j < n) :
    ZeroBefore (userBytes s.pageTable s.mainMemory src n) j
      ↔ ∃ i < j, s.byte (src + i) = some 0 := by
  refine exists_congr fun i => and_congr_right fun hi => ?_
  rw [getElem?_userBytes _ _ _ (hi.trans hj), Proc.byte,
    byteAt_of_mapped _ (h.source i (hi.trans hj))]
  rfl

/-- **Bytes survive the round trip** exactly when the file stays within the
host's limit and the target already holds, behind the first zero written,
what should come there. -/
theorem file_roundtrip_iff (h : Setting s id p n src dst) :
    RoundTrips s id p n src dst ↔ p + n ≤ offsetLimit
      ∧ ∀ j < n, (∃ i < j, s.byte (src + i) = some 0) → s.byte (dst + j) = s.byte (src + j) := by
  by_cases hlim : p + n ≤ offsetLimit
  · obtain ⟨s', hrun, hsame, hmem⟩ := writeSeekRead_eq h hlim
    have hdst : ∀ j < n, s'.byte (dst + j)
        = some (stores (place s.pageTable dst) s.mainMemory
            (wire (userBytes s.pageTable s.mainMemory src n)) (place s.pageTable dst j)) := by
      intro j hj
      rw [Proc.byte, byteAt_of_mapped _ (hsame.mapped (h.target j hj).read), hmem, hsame.phys_eq]
      rfl
    have hstore : ∀ j < n, _ := fun j hj => stores_wire s.mainMemory
      (fun i k hi hk => place_inj h (by simpa using hi) (by simpa using hk))
      (getElem?_userBytes s.pageTable s.mainMemory src hj)
    have hsrc : ∀ j < n, s.byte (src + j) = some (s.mainMemory (place s.pageTable src j)) :=
      fun j hj => byteAt_of_mapped _ (h.source j hj)
    have hold : ∀ j < n, s.byte (dst + j) = some (s.mainMemory (place s.pageTable dst j)) :=
      fun j hj => byteAt_of_mapped _ (h.target j hj).read
    constructor
    · rintro ⟨s'', hrun', hbytes, -⟩
      obtain rfl : s' = s'' := congrArg Prod.snd (Except.ok.inj (hrun.symm.trans hrun'))
      refine ⟨hlim, fun j hj hz => ?_⟩
      rw [← hbytes j hj, hdst j hj, (hstore j hj).1 ((zeroBefore_iff h hj).mpr hz), hold j hj]
    · rintro ⟨-, htail⟩
      refine ⟨s', hrun, fun j hj => ?_, fun x hx => ?_⟩
      · rw [hdst j hj]
        by_cases hz : ZeroBefore (userBytes s.pageTable s.mainMemory src n) j
        · rw [(hstore j hj).1 hz, ← hold j hj, htail j hj ((zeroBefore_iff h hj).mp hz)]
        · rw [(hstore j hj).2 hz, hsrc j hj]
      · rw [hmem]
        refine stores_of_ne _ _ fun i hi => hx i ?_
        rwa [length_wire, length_userBytes] at hi
  · refine ⟨fun ⟨s', hrun, _⟩ => ?_, fun hcond => absurd hcond.1 hlim⟩
    rw [writeSeekRead_error (scWrite_abort h hlim)] at hrun
    cases hrun

end Law

/-- One page on frame 0 that holds `bs` and zeros, and an empty file open as
descriptor 2. -/
def sampleProc (bs : List UInt8) : Proc where
  pageTable := [AddrSpace.newEntry 0 0]
  mainMemory x := bs.getD x.toNat 0
  files :=
    { fileTable := Function.update (fun _ => none) 2 (some ⟨3, 0, 0, "out"⟩)
      host := ⟨fun _ => [], Function.update (fun _ => none) 3 (some ⟨0, 0⟩)⟩
      console := ⟨[], []⟩ }

theorem sample_page {a : Int} (ha : 0 ≤ a ∧ a < 128) :
    [AddrSpace.newEntry 0 0][vpn a]? = some (AddrSpace.newEntry 0 0) := by
  have hvpn : vpn a = 0 := by
    simp only [vpn, u32]
    omega
  rw [hvpn]
  rfl

theorem setting_sampleProc (bs : List UInt8) : Setting (sampleProc bs) 2 0 3 0 10 where
  opened := ⟨⟨3, 0, 0, "out"⟩, ⟨0, 0⟩,
    ⟨by decide, by decide, rfl, rfl⟩, rfl, rfl,
    Nat.zero_le _⟩
  cursor := Nat.zero_le _
  frames := List.nodup_singleton _
  source := by
    intro i hi
    exact ⟨AddrSpace.newEntry 0 0, sample_page (by omega), rfl, by decide, by decide⟩
  target := by
    intro i hi
    exact ⟨AddrSpace.newEntry 0 0, sample_page (by omega), rfl, by decide, by decide⟩
  pos := by decide
  int := by decide

/-- Text comes back. -/
theorem file_roundtrip_text : RoundTrips (sampleProc [104, 105, 33]) 2 0 3 0 10 := by
  refine (file_roundtrip_iff (setting_sampleProc [104, 105, 33])).mpr ⟨by decide, ?_⟩
  decide +kernel

/-- Of the bytes 1, 0, 2 the last one is lost. -/
theorem file_roundtrip_loses_last_byte :
    Setting (sampleProc [1, 0, 2]) 2 0 3 0 10
      ∧ ((sampleProc [1, 0, 2]).writeSeekRead 2 0 3 0 10).toOption.map
          (fun r => (r.1, r.2.byte 10, r.2.byte 11, r.2.byte 12))
        = some ((3, 0, 3), some 1, some 0, some 0)
      ∧ (sampleProc [1, 0, 2]).byte 2 = some 2
      ∧ ¬RoundTrips (sampleProc [1, 0, 2]) 2 0 3 0 10 := by
  have hrun : ((sampleProc [1, 0, 2]).writeSeekRead 2 0 3 0 10).toOption.map
      (fun r => (r.1, r.2.byte 10, r.2.byte 11, r.2.byte 12))
      = some ((3, 0, 3), some 1, some 0, some 0) := by decide +kernel
  have hlast : (sampleProc [1, 0, 2]).byte 2 = some 2 := by decide +kernel
  refine ⟨setting_sampleProc _, hrun, hlast, ?_⟩
  rintro ⟨s', hrun', hbytes, -⟩
  have hrun'' : (sampleProc [1, 0, 2]).writeSeekRead 2 0 3 0 10 = .ok ((3, 0, 3), s') := hrun'
  rw [hrun''] at hrun
  simp only [Except.toOption, Option.map_some, Option.some.injEq, Prod.mk.injEq] at hrun
  have := hbytes 2 (by decide)
  exact absurd (hrun.2.2.2.symm.trans (this.trans hlast)) (by decide)

end Nachos
