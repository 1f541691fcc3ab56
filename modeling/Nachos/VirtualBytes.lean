import Nachos.ByteWords
import Nachos.Machine

/-!
# Bytes seen through a page table

A word access that translates is four byte accesses that translate to
neighbouring addresses (`Maps.byte`), and the accesses of a program leave the
table with the same translations (`SameMap`): only `use` and `dirty` bits
change. Bytes at addresses less than a page apart have different places in
the memory (`place_inj`), whatever the table; two pages may share a frame.
-/

namespace Nachos

namespace Machine

open CInt ByteMemory

/-- The access at `a` translates to `p`. -/
def Maps (pt : List TranslationEntry) (a : Int) (size : Nat) (writing : Bool) (p : Int) : Prop :=
  ∃ pt', translate pt a size writing = .ok (p, pt')

/-! ## Translations -/

/-- What a translation that succeeds needs. -/
theorem translate_eq_ok_iff {pt pt' : List TranslationEntry} {a p : Int} {size : Nat} {w : Bool} :
    translate pt a size w = .ok (p, pt') ↔
      misaligned a size = false ∧ ∃ e, pt[vpn a]? = some e ∧ e.valid = true
        ∧ (e.readOnly && w) = false ∧ pageFrame e < 128 ∧ p = pageFrame e * 128 + offset a
        ∧ p + size ≤ 16384 ∧ pt' = pt.set (vpn a) (touch w e) := by
  constructor
  · intro h
    obtain ⟨e, he, hframe, hp, hset, hal⟩ := translate_ok h
    refine ⟨hal, e, he, ?_⟩
    rw [translate, hal, if_neg Bool.false_ne_true, he] at h
    simp only at h
    split at h
    next => cases h
    next hvalid =>
      split at h
      next => cases h
      next hwritable =>
        split at h
        next => cases h
        next =>
          split at h
          next hroom =>
            exact ⟨by simpa using hvalid, by simpa using hwritable, hframe, hp, by omega, hset⟩
          next => cases h
  · rintro ⟨hal, e, he, hvalid, hwritable, hframe, rfl, hroom, rfl⟩
    rw [translate, hal, if_neg Bool.false_ne_true, he]
    simp only [hvalid, hwritable, Bool.not_true, Bool.false_eq_true, if_false]
    rw [if_neg (Int.not_le.mpr hframe), if_pos hroom]

theorem maps_iff {pt : List TranslationEntry} {a p : Int} {size : Nat} {w : Bool} :
    Maps pt a size w p ↔
      misaligned a size = false ∧ ∃ e, pt[vpn a]? = some e ∧ e.valid = true
        ∧ (e.readOnly && w) = false ∧ pageFrame e < 128 ∧ p = pageFrame e * 128 + offset a
        ∧ p + size ≤ 16384 := by
  constructor
  · rintro ⟨pt', h⟩
    obtain ⟨hal, e, he, hvalid, hwritable, hframe, hp, hroom, -⟩ := translate_eq_ok_iff.mp h
    exact ⟨hal, e, he, hvalid, hwritable, hframe, hp, hroom⟩
  · rintro ⟨hal, e, he, hvalid, hwritable, hframe, hp, hroom⟩
    exact ⟨_, translate_eq_ok_iff.mpr ⟨hal, e, he, hvalid, hwritable, hframe, hp, hroom, rfl⟩⟩

/-- What may be written may be read. -/
theorem Maps.read {pt : List TranslationEntry} {a p : Int} {size : Nat} {w : Bool}
    (h : Maps pt a size w p) : Maps pt a size false p := by
  obtain ⟨hal, e, he, hvalid, -, hrest⟩ := maps_iff.mp h
  exact maps_iff.mpr ⟨hal, e, he, hvalid, Bool.and_false _, hrest⟩

/-- A byte of a word that translates. -/
theorem Maps.byte {pt : List TranslationEntry} {b a p k : Int} {w : Bool} (h : Maps pt b 4 w p)
    (hk : 0 ≤ k ∧ k < 4) (ha : u32 a = u32 (b + k)) : Maps pt a 1 false (p + k) := by
  obtain ⟨hal, e, he, hvalid, -, hframe, rfl, hroom⟩ := maps_iff.mp h
  have hb : b % 4 = 0 := by simpa [misaligned] using hal
  have hpage : vpn a = vpn b := by
    simp only [vpn, u32] at ha ⊢
    omega
  have hoff : offset a = offset b + k := by
    simp only [offset, u32] at ha ⊢
    omega
  refine maps_iff.mpr ⟨rfl, e, by rw [hpage]; exact he, hvalid, Bool.and_false _, hframe, ?_, ?_⟩
  · rw [hoff]
    omega
  · omega

/-- Where the byte at `a` is. -/
def place (pt : List TranslationEntry) (a : Int) : Option Int :=
  match translate pt a 1 false with
  | .error _ => none
  | .ok (physicalAddress, _) => some physicalAddress

theorem place_eq_some_iff {pt : List TranslationEntry} {a p : Int} :
    place pt a = some p ↔ Maps pt a 1 false p := by
  rw [place, Maps]
  cases translate pt a 1 false with
  | error e => simp
  | ok r => simp [Prod.ext_iff]

theorem byteAt_eq_map (pt : List TranslationEntry) (m : Memory) (a : Int) :
    byteAt pt m a = (place pt a).map m := by
  rw [byteAt, place]
  cases translate pt a 1 false with
  | error e => rfl
  | ok r => rfl

/-- Bytes less than a page apart are at different places. -/
theorem place_inj {pt : List TranslationEntry} {a b p : Int} (ha : place pt a = some p)
    (hb : place pt b = some p) : u32 a % 128 = u32 b % 128 := by
  obtain ⟨-, e, -, -, -, -, hp, -⟩ := maps_iff.mp (place_eq_some_iff.mp ha)
  obtain ⟨-, e', -, -, -, -, hp', -⟩ := maps_iff.mp (place_eq_some_iff.mp hb)
  have := offset_bounds a
  have := offset_bounds b
  simp only [offset] at *
  omega

/-! ## Tables with the same translations -/

/-- What of an entry a translation reads. -/
def mapping (e : TranslationEntry) : Int × Bool × Bool := (e.physicalPage, e.valid, e.readOnly)

def SameMap (pt pt' : List TranslationEntry) : Prop := pt'.map mapping = pt.map mapping

theorem SameMap.trans {pt₁ pt₂ pt₃ : List TranslationEntry} (h : SameMap pt₁ pt₂)
    (h' : SameMap pt₂ pt₃) : SameMap pt₁ pt₃ := Eq.trans h' h

theorem sameMap_set {pt : List TranslationEntry} {i : Nat} {e : TranslationEntry}
    (h : pt[i]? = some e) (w : Bool) : SameMap pt (pt.set i (touch w e)) := by
  have hmap : (pt.map mapping)[i]? = some (mapping e) := by rw [List.getElem?_map, h]; rfl
  rw [SameMap, List.map_set]
  apply List.ext_getElem?
  intro j
  rw [List.getElem?_set]
  split
  next hij =>
    subst hij
    obtain ⟨hlt, -⟩ := List.getElem?_eq_some_iff.mp hmap
    rw [if_pos hlt, hmap]
    rfl
  next => rfl

theorem SameMap.maps {pt pt' : List TranslationEntry} (h : SameMap pt pt') {a p : Int}
    {size : Nat} {w : Bool} (hm : Maps pt a size w p) : Maps pt' a size w p := by
  obtain ⟨hal, e, he, hvalid, hwritable, hframe, hp, hroom⟩ := maps_iff.mp hm
  have hentry : (pt'[vpn a]?).map mapping = some (mapping e) := by
    rw [← List.getElem?_map, h, List.getElem?_map, he]
    rfl
  obtain ⟨e', he', hsame⟩ := Option.map_eq_some_iff.mp hentry
  obtain ⟨hpage, hvalid', hro⟩ : e'.physicalPage = e.physicalPage ∧ e'.valid = e.valid
      ∧ e'.readOnly = e.readOnly := by simpa [mapping] using hsame
  have hf : pageFrame e' = pageFrame e := by rw [pageFrame, hpage]; rfl
  refine maps_iff.mpr ⟨hal, e', he', hvalid'.trans hvalid, by rw [hro]; exact hwritable, ?_, ?_,
    hroom⟩
  · rw [hf]; exact hframe
  · rw [hf]; exact hp

theorem SameMap.place {pt pt' : List TranslationEntry} (h : SameMap pt pt') (a : Int) :
    place pt' a = place pt a := by
  apply Option.ext
  intro p
  rw [place_eq_some_iff, place_eq_some_iff]
  exact ⟨fun hm => SameMap.maps (Eq.symm h) hm, h.maps⟩

theorem sameMap_of_readMem {pt pt' : List TranslationEntry} {m : Memory} {a v : Int} {size : Nat}
    (h : readMem pt m a size = .ok (v, pt')) : SameMap pt pt' := by
  obtain ⟨i, e, he, rfl⟩ := readMem_table h
  exact sameMap_set he false

theorem sameMap_of_writeMem {pt pt' : List TranslationEntry} {m m' : Memory} {a v : Int}
    {size : Nat} (h : writeMem pt m a size v = .ok (m', pt')) : SameMap pt pt' := by
  obtain ⟨i, e, he, rfl⟩ := writeMem_table h
  exact sameMap_set he true

/-! ## Reading and writing a word -/

theorem readMem_of_maps {pt : List TranslationEntry} {a p : Int} {w : Bool}
    (h : Maps pt a 4 w p) (m : Memory) : ∃ pt', readMem pt m a 4 = .ok (word m p, pt') := by
  obtain ⟨pt', ht⟩ := h.read
  exact ⟨pt', by rw [readMem, ht]; rfl⟩

theorem writeMem_of_maps {pt : List TranslationEntry} {a p : Int} (h : Maps pt a 4 true p)
    (m : Memory) (v : Int) : ∃ pt', writeMem pt m a 4 v = .ok (setWord m p v, pt') := by
  obtain ⟨pt', ht⟩ := h
  exact ⟨pt', by rw [writeMem, ht]; rfl⟩

end Machine

end Nachos
