import Nachos.LinkedList
import Nachos.Run
import Nachos.SortedInsert

/-!
# Lists as sequences, sorted lists as queues

The rest of `lib/list.cc`: `Prepend`, and `SortedList` with `Insert` and its
own `SanityCheck`. A `SortedList` is a `List` with a comparison function; it
inherits `RemoveFront` and `Remove`.

`Insert` has three ways to link the element in: in front of the first one,
behind an element whose successor compares greater, and behind the last one.
The one in the middle returns at once and skips the assertion at the end.

A list serves calls as a sequence does (`serveSequence`), and a sorted list
whose comparison is a total preorder serves them as a queue that knows its
items by order of arrival only and looks for the earliest minimal one
(`serveQueue`). The relations of the two refinements say that the elements
are linked correctly and that `SanityCheck` passes.
-/

namespace Nachos

open Linked

namespace LinkedList

variable {T : Type} [DecidableEq T]

/-! ## The operations -/

/-- The end of `Append`, `Prepend` and `Insert`. -/
def counted (l : LinkedList T) (item : T) : Option (LinkedList T) := do
  let l := { l with numInList := l.numInList + 1 }
  assert (← l.isInList item)
  some l

/-- `List::Prepend`. -/
def prepend (l : LinkedList T) (item : T) : Option (LinkedList T) := do
  let element := l.brk
  let l := l.allocate item
  assert (!(← l.isInList item))
  if l.isEmpty then counted { l with first := some element, last := some element } item
  else do
    let l ← l.setNext (some element) l.first
    counted { l with first := some element } item

/-- The loop of `SortedList::Insert` from `ptr` on: the list with the new
element behind the first one whose successor compares greater, if there is
one. -/
def insertFrom (compare : T → T → Int) (l : LinkedList T) (item : T) (element : Nat) :
    Nat → (ptr : Option Nat) → Option (Option (LinkedList T))
  | 0, _ => none
  | n + 1, ptr => do
      let e ← l.deref ptr
      if e.next = none then some none
      else do
        let e' ← l.deref e.next
        if compare item e'.item < 0 then do
          let l ← l.setNext (some element) e.next
          let l ← l.setNext ptr (some element)
          some (some { l with numInList := l.numInList + 1 })
        else insertFrom compare l item element n e.next

/-- `SortedList::Insert`. -/
def insert (compare : T → T → Int) (l : LinkedList T) (item : T) : Option (LinkedList T) := do
  let element := l.brk
  let l := l.allocate item
  assert (!(← l.isInList item))
  if l.isEmpty then counted { l with first := some element, last := some element } item
  else do
    let e ← l.deref l.first
    if compare item e.item < 0 then do
      let l ← l.setNext (some element) l.first
      counted { l with first := some element } item
    else do
      match ← l.insertFrom compare item element l.brk l.first with
      | some l => some l
      | none => do
          let l ← l.setNext l.last (some element)
          counted { l with last := some element } item

/-- The loop of `SortedList::SanityCheck`. -/
def sortedFrom (compare : T → T → Int) (l : LinkedList T) :
    Nat → (prev ptr : Option Nat) → Option Unit
  | _, _, none => some ()
  | 0, _, some _ => none
  | n + 1, prev, some ptr => do
      let e ← l.deref prev
      let e' ← l.elements ptr
      assert (compare e.item e'.item ≤ 0)
      sortedFrom compare l n (some ptr) e'.next

/-- `SortedList::SanityCheck`. -/
def sortedSanityCheck (compare : T → T → Int) (l : LinkedList T) : Option Unit := do
  l.sanityCheck
  if l.first ≠ l.last then do
    let e ← l.deref l.first
    l.sortedFrom compare l.brk l.first e.next
  else some ()

/-! ## Linking in -/

section Links

variable {l : LinkedList T} {c d : List (Nat × T)} {x y item : T} {xs : List T} {a b e n : Nat}

omit [DecidableEq T] in
/-- The element at `b` is linked in before the first one. -/
theorem Links.push (h : Links l c) (hne : c ≠ []) (hfresh : b ∉ addresses c) (hlt : b < l.brk) :
    Links
      { l with
        elements := Function.update l.elements b (some ⟨item, l.first⟩), first := some b,
        numInList := l.numInList + 1 }
      ((b, item) :: c) := by
  refine ⟨⟨rfl, l.first, Function.update_self .., h.seg.frame hfresh _⟩, ?_,
    List.nodup_cons.mpr ⟨hfresh, h.nodup⟩, fun e he => ?_, ?_⟩
  · rw [addresses_cons, List.getLast?_cons_of_ne_nil (by simpa [addresses] using hne)]
    exact h.last
  · rcases List.mem_cons.mp he with rfl | he
    · exact hlt
    · exact h.lt e he
  · simp only [h.numInList, List.length_cons]
    omega

omit [DecidableEq T] in
/-- The element at `b` is linked in between those at `a` and at `e`. -/
theorem Links.between (h : Links l (c ++ (a, x) :: (e, y) :: d)) (item : T)
    (hfresh : b ∉ addresses (c ++ (a, x) :: (e, y) :: d)) (hlt : b < l.brk) :
    l.elements a = some ⟨x, some e⟩
      ∧ Links
          { l with
            elements := Function.update
              (Function.update l.elements b (some ⟨item, some e⟩)) a (some ⟨x, some b⟩),
            numInList := l.numInList + 1 }
          (c ++ (a, x) :: (b, item) :: (e, y) :: d) := by
  obtain ⟨n, ha, ⟨rfl, -⟩, hseg⟩ := h.seg.link (y := item) h.nodup hfresh
  have hperm : (addresses (c ++ (a, x) :: (b, item) :: (e, y) :: d)).Perm
      (b :: addresses (c ++ (a, x) :: (e, y) :: d)) := by
    have hassoc : c ++ (a, x) :: (b, item) :: (e, y) :: d
        = (c ++ [(a, x)]) ++ (b, item) :: (e, y) :: d := by simp
    have hassoc' : c ++ (a, x) :: (e, y) :: d = (c ++ [(a, x)]) ++ (e, y) :: d := by simp
    rw [hassoc, hassoc']
    exact List.perm_middle.map Prod.fst
  refine ⟨ha, hseg, ?_, hperm.nodup_iff.mpr (List.nodup_cons.mpr ⟨hfresh, h.nodup⟩),
    fun f hf => ?_, ?_⟩
  · rw [h.last]
    simp [List.getLast?_append, List.getLast?_cons_cons]
  · rcases List.mem_cons.mp (hperm.mem_iff.mp hf) with rfl | hf
    · exact hlt
    · exact h.lt f hf
  · simp only [h.numInList, List.length_append, List.length_cons]
    omega

/-- The assertion at the end holds when the item is on the list. -/
theorem counted_eq {l' : LinkedList T} (hl : l' = { l with numInList := l.numInList + 1 })
    (h : Rep l' xs) (hitem : item ∈ xs) : l.counted item = some l' := by
  subst hl
  have hin := h.isInList item
  rw [decide_eq_true hitem] at hin
  simp only [counted, hin, assert, if_true, Option.bind_eq_bind, Option.bind_some]

omit [DecidableEq T] in
theorem setNext_new (hb : l.elements b = some ⟨item, none⟩) (p : Option Nat) :
    l.setNext (some b) p
      = some { l with elements := Function.update l.elements b (some ⟨item, p⟩) } := by
  simp only [setNext, hb, Option.bind_eq_bind, Option.bind_some]

theorem Rep.prepend (h : Rep l xs) (hitem : item ∉ xs) :
    ∃ l', l.prepend item = some l' ∧ Rep l' (item :: xs) := by
  obtain ⟨c, rfl, hlinks, hfresh, hnew, hlt, hout, hempty⟩ := h.allocated hitem
  simp only [LinkedList.prepend, hout, assert, Bool.not_false, if_true, Option.bind_eq_bind,
    Option.bind_some]
  by_cases hc : c = []
  · subst hc
    have hrep : Rep _ (item :: items []) := ⟨_, hlinks.single hnew hlt, rfl⟩
    rw [if_pos (hempty.mpr rfl)]
    exact ⟨_, counted_eq rfl hrep List.mem_cons_self, hrep⟩
  · have hrep : Rep _ (item :: items c) := ⟨_, hlinks.push hc hfresh hlt, rfl⟩
    rw [if_neg (mt hempty.mp hc), setNext_new hnew]
    exact ⟨_, counted_eq rfl hrep List.mem_cons_self, hrep⟩

omit [DecidableEq T] in
/-- The loop of `Insert`, with the element of `ptr` and then `d` to come: it
ends without an insertion if the item belongs behind them all. -/
theorem insertFrom_spec (compare : T → T → Int) (h : Links l (c ++ (a, x) :: d))
    (hfresh : b ∉ addresses (c ++ (a, x) :: d)) (hb : l.elements b = some ⟨item, none⟩)
    (hlt : b < l.brk) (hn : d.length < n) :
    (l.insertFrom compare item b n (some a) = some none
        ∧ SortedList.insert compare item (items d) = items d ++ [item])
      ∨ ∃ l', l.insertFrom compare item b n (some a) = some (some l')
          ∧ Rep l' (items c ++ x :: SortedList.insert compare item (items d)) := by
  obtain ⟨m, rfl⟩ : ∃ m, n = m + 1 := ⟨n - 1, by omega⟩
  induction d generalizing c a x m with
  | nil =>
      obtain ⟨s, -, rfl, q, ha, hq⟩ := seg_append.mp h.seg
      obtain rfl : q = none := hq
      refine Or.inl ⟨?_, rfl⟩
      simp only [insertFrom, deref, ha, Option.bind_eq_bind, Option.bind_some, if_true]
  | cons ey d ih =>
      obtain ⟨e, y⟩ := ey
      have ha : l.elements a = some ⟨x, some e⟩ := (h.between item hfresh hlt).1
      obtain ⟨s, -, -, q, -, -, q', he, -⟩ := seg_append.mp h.seg
      rw [insertFrom]
      simp only [deref, ha, he, Option.bind_eq_bind, Option.bind_some,
        if_neg (Option.some_ne_none e)]
      rw [items_cons, SortedList.insert]
      by_cases hy : compare item y < 0
      · right
        have hab : a ≠ b := by
          rintro rfl
          exact hfresh (by simp)
        have hset : Function.update l.elements b (some ⟨item, some e⟩) a = some ⟨x, some e⟩ := by
          rw [Function.update_of_ne hab, ha]
        rw [if_pos hy, if_pos hy, setNext_new hb, Option.bind_some]
        simp only [setNext, hset, Option.bind_eq_bind, Option.bind_some]
        exact ⟨_, rfl, _, (h.between item hfresh hlt).2, by simp⟩
      · rw [if_neg hy, if_neg hy]
        have hassoc : c ++ (a, x) :: (e, y) :: d = (c ++ [(a, x)]) ++ (e, y) :: d := by simp
        rw [hassoc] at h hfresh
        simp only [List.length_cons] at hn
        obtain ⟨k, rfl⟩ : ∃ k, m = k + 1 := ⟨m - 1, by omega⟩
        rcases ih h hfresh k (by omega) with ⟨hend, heq⟩ | ⟨l', hl', hrep⟩
        · exact Or.inl ⟨hend, by rw [heq]; rfl⟩
        · exact Or.inr ⟨l', hl', by simpa [items] using hrep⟩

/-- **`Insert`** puts the item where it belongs, whatever the comparison. -/
theorem Rep.insert (compare : T → T → Int) (h : Rep l xs) (hitem : item ∉ xs) :
    ∃ l', l.insert compare item = some l' ∧ Rep l' (SortedList.insert compare item xs) := by
  obtain ⟨c, rfl, hlinks, hfresh, hnew, hlt, hout, hempty⟩ := h.allocated hitem
  have hmem : item ∈ SortedList.insert compare item (items c) :=
    SortedList.mem_insert.mpr (Or.inl rfl)
  simp only [LinkedList.insert, hout, assert, Bool.not_false, if_true, Option.bind_eq_bind,
    Option.bind_some]
  cases c with
  | nil =>
      have hrep : Rep _ (SortedList.insert compare item (items [])) :=
        ⟨_, hlinks.single hnew hlt, rfl⟩
      rw [if_pos (hempty.mpr rfl)]
      exact ⟨_, counted_eq rfl hrep hmem, hrep⟩
  | cons ax d =>
      obtain ⟨a, x⟩ := ax
      obtain ⟨hfirst, q, ha, -⟩ := hlinks.seg
      rw [if_neg (mt hempty.mp (List.cons_ne_nil _ _))]
      rw [items_cons, SortedList.insert] at hmem ⊢
      have hderef : (l.allocate item).deref (l.allocate item).first = some ⟨x, q⟩ := by
        rw [hfirst, deref, Option.bind_some, ha]
      rw [hderef, Option.bind_some]
      by_cases hx : compare item x < 0
      · rw [if_pos hx] at hmem ⊢
        have hrep : Rep _ (item :: x :: items d) :=
          ⟨_, hlinks.push (List.cons_ne_nil _ _) hfresh hlt, rfl⟩
        rw [if_pos hx, setNext_new hnew]
        exact ⟨_, counted_eq rfl hrep hmem, hrep⟩
      · rw [if_neg hx] at hmem ⊢
        rw [if_neg hx, hfirst]
        have hlen : d.length < (l.allocate item).brk := hlinks.length_le
        rcases insertFrom_spec compare (c := []) hlinks hfresh hnew hlt hlen with
          ⟨hend, heq⟩ | ⟨l', hl', hrep⟩
        · obtain ⟨l', hl', hlinks'⟩ := hlinks.atEnd (List.cons_ne_nil _ _) hfresh hnew hlt
          have hrep : Rep _ (x :: SortedList.insert compare item (items d)) :=
            ⟨_, hlinks', by rw [heq]; simp [items]⟩
          rw [hend, Option.bind_some]
          simp only [hl', Option.bind_some]
          exact ⟨_, counted_eq rfl hrep hmem, hrep⟩
        · rw [hl']
          exact ⟨l', rfl, hrep⟩

/-! ## The check of a sorted list -/

omit [DecidableEq T] in
/-- The loop of the check, with the element of `prev` and then `d` to come. -/
theorem sortedFrom_eq {compare : T → T → Int} {p : Option Nat}
    (ha : l.elements a = some ⟨x, p⟩) (hd : Seg l.elements p d none)
    (hs : (x :: items d).Pairwise fun x y => compare x y ≤ 0) (hn : d.length ≤ n) :
    l.sortedFrom compare n (some a) p = some () := by
  induction d generalizing a x p n with
  | nil =>
      obtain rfl : p = none := hd
      cases n <;> rfl
  | cons ey d ih =>
      obtain ⟨e, y⟩ := ey
      obtain ⟨rfl, q, he, hd⟩ := hd
      obtain ⟨hx, hs⟩ := List.pairwise_cons.mp hs
      obtain ⟨m, rfl, hm⟩ := exists_fuel hn
      have hxy : compare x y ≤ 0 := hx y List.mem_cons_self
      rw [sortedFrom]
      simp only [deref, ha, he, assert, hxy, decide_true, if_true, Option.bind_eq_bind,
        Option.bind_some]
      exact ih he hd hs hm

omit [DecidableEq T] in
theorem Rep.sortedSanityCheck {compare : T → T → Int} (h : Rep l xs)
    (hs : xs.Pairwise fun x y => compare x y ≤ 0) : l.sortedSanityCheck compare = some () := by
  rw [LinkedList.sortedSanityCheck, h.sanityCheck]
  simp only [Option.bind_eq_bind, Option.bind_some]
  split
  next hne =>
      obtain ⟨c, hc, rfl⟩ := h
      cases c with
      | nil =>
          have hfirst : l.first = none := hc.seg
          exact absurd (hfirst.trans hc.last.symm) hne
      | cons ax d =>
          obtain ⟨a, x⟩ := ax
          obtain ⟨hfirst, q, ha, hd⟩ := hc.seg
          rw [hfirst, deref, Option.bind_some, ha, Option.bind_some]
          exact sortedFrom_eq ha hd hs (Nat.le_of_succ_le hc.length_le)
  next => rfl

/-! ## Failed assertions -/

theorem Rep.append_eq_none (h : Rep l xs) (hitem : item ∈ xs) : l.append item = none := by
  simp [LinkedList.append, h.isInList_allocate item, hitem, assert]

theorem Rep.prepend_eq_none (h : Rep l xs) (hitem : item ∈ xs) : l.prepend item = none := by
  simp [LinkedList.prepend, h.isInList_allocate item, hitem, assert]

theorem Rep.insert_eq_none {compare : T → T → Int} (h : Rep l xs) (hitem : item ∈ xs) :
    l.insert compare item = none := by
  simp [LinkedList.insert, h.isInList_allocate item, hitem, assert]

theorem Rep.remove_eq_none (h : Rep l xs) (hitem : item ∉ xs) : l.remove item = none := by
  simp [LinkedList.remove, h.isInList item, hitem, assert]

omit [DecidableEq T] in
theorem Rep.removeFront_eq_none (h : Rep l []) : l.removeFront = none := by
  simp [LinkedList.removeFront, h.isEmpty_iff.mpr rfl, assert]

end Links

/-! ## Calls -/

/-- The calls that change a `List`. -/
inductive ListCall (T : Type) where
  | append (item : T)
  | prepend (item : T)
  | removeFront
  | remove (item : T)

/-- The calls that change a `SortedList`. -/
inductive SortedCall (T : Type) where
  | insert (item : T)
  | removeFront
  | remove (item : T)

/-- A call of a `List`, with the item that it returns. -/
def serve (l : LinkedList T) : ListCall T → Option (Option T × LinkedList T)
  | .append item => (l.append item).map fun l => (none, l)
  | .prepend item => (l.prepend item).map fun l => (none, l)
  | .removeFront => l.removeFront.map fun r => (some r.1, r.2)
  | .remove item => (l.remove item).map fun l => (none, l)

/-- The same call of a sequence. -/
def serveSequence (xs : List T) : ListCall T → Option (Option T × List T)
  | .append item => if item ∈ xs then none else some (none, xs ++ [item])
  | .prepend item => if item ∈ xs then none else some (none, item :: xs)
  | .removeFront =>
      match xs with
      | [] => none
      | x :: xs => some (some x, xs)
  | .remove item => if item ∈ xs then some (none, xs.erase item) else none

/-- A call of a `SortedList`. -/
def serveSorted (compare : T → T → Int) (l : LinkedList T) :
    SortedCall T → Option (Option T × LinkedList T)
  | .insert item => (l.insert compare item).map fun l => (none, l)
  | .removeFront => l.removeFront.map fun r => (some r.1, r.2)
  | .remove item => (l.remove item).map fun l => (none, l)

/-- The same call of the items in the order of their arrival. -/
def serveQueue (compare : T → T → Int) (q : List T) :
    SortedCall T → Option (Option T × List T)
  | .insert item => if item ∈ q then none else some (none, q ++ [item])
  | .removeFront => (SortedList.earliestMin compare q).map fun x => (some x, q.erase x)
  | .remove item => if item ∈ q then some (none, q.erase item) else none

/-- A sound list of the items `xs`. -/
structure IsSequence (l : LinkedList T) (xs : List T) : Prop where
  rep : Rep l xs
  nodup : xs.Nodup
  sane : l.sanityCheck = some ()

/-- A sound list of the items of `q`, sorted, the earlier ones first among
equals. -/
def IsQueue (compare : T → T → Int) (l : LinkedList T) (q : List T) : Prop :=
  ∃ xs, IsSequence l xs ∧ SortedList.Stable compare q xs ∧ l.sortedSanityCheck compare = some ()

section Calls

variable {l : LinkedList T} {xs q : List T} {compare : T → T → Int}

omit [DecidableEq T] in
theorem Rep.isSequence (h : Rep l xs) (hnodup : xs.Nodup) : IsSequence l xs :=
  ⟨h, hnodup, h.sanityCheck⟩

omit [DecidableEq T] in
theorem isQueue_of_rep (h : Rep l xs) (hs : SortedList.Stable compare q xs) (hq : q.Nodup) :
    IsQueue compare l q :=
  ⟨xs, h.isSequence (hs.perm.nodup_iff.mpr hq), hs, h.sortedSanityCheck hs.sorted⟩

theorem serve_alike (call : ListCall T) (l : LinkedList T) (xs : List T) (h : IsSequence l xs) :
    Run.Alike IsSequence (l.serve call) (serveSequence xs call) := by
  obtain ⟨hrep, hnodup, -⟩ := h
  cases call with
  | append item =>
      by_cases hitem : item ∈ xs
      · simp only [serve, serveSequence, hrep.append_eq_none hitem, if_pos hitem]
        exact Run.alike_none
      · obtain ⟨l', hl', hrep'⟩ := hrep.append hitem
        simp only [serve, serveSequence, hl', if_neg hitem]
        refine Run.alike_some (hrep'.isSequence ?_)
        exact ((List.perm_append_singleton item xs).nodup_iff).mpr
          (List.nodup_cons.mpr ⟨hitem, hnodup⟩)
  | prepend item =>
      by_cases hitem : item ∈ xs
      · simp only [serve, serveSequence, hrep.prepend_eq_none hitem, if_pos hitem]
        exact Run.alike_none
      · obtain ⟨l', hl', hrep'⟩ := hrep.prepend hitem
        simp only [serve, serveSequence, hl', if_neg hitem]
        exact Run.alike_some (hrep'.isSequence (List.nodup_cons.mpr ⟨hitem, hnodup⟩))
  | removeFront =>
      cases xs with
      | nil =>
          simp only [serve, serveSequence, hrep.removeFront_eq_none]
          exact Run.alike_none
      | cons x xs =>
          obtain ⟨l', hl', hrep'⟩ := hrep.removeFront
          simp only [serve, serveSequence, hl']
          exact Run.alike_some (hrep'.isSequence (List.nodup_cons.mp hnodup).2)
  | remove item =>
      by_cases hitem : item ∈ xs
      · obtain ⟨l', hl', hrep'⟩ := hrep.remove hnodup hitem
        simp only [serve, serveSequence, hl', if_pos hitem]
        exact Run.alike_some (hrep'.isSequence (hnodup.erase item))
      · simp only [serve, serveSequence, hrep.remove_eq_none hitem, if_neg hitem]
        exact Run.alike_none

theorem serveSorted_alike (hc : SortedList.Comparison compare) (call : SortedCall T)
    (l : LinkedList T) (q : List T) (h : IsQueue compare l q) :
    Run.Alike (IsQueue compare) (l.serveSorted compare call) (serveQueue compare q call) := by
  obtain ⟨xs, ⟨hrep, hnodup, -⟩, hs, -⟩ := h
  have hq : q.Nodup := hs.perm.nodup_iff.mp hnodup
  have hmem : ∀ item, item ∈ xs ↔ item ∈ q := fun item => hs.perm.mem_iff
  cases call with
  | insert item =>
      by_cases hitem : item ∈ q
      · simp only [serveSorted, serveQueue, hrep.insert_eq_none ((hmem item).mpr hitem),
          if_pos hitem]
        exact Run.alike_none
      · obtain ⟨l', hl', hrep'⟩ := hrep.insert compare (mt (hmem item).mp hitem)
        simp only [serveSorted, serveQueue, hl', if_neg hitem]
        refine Run.alike_some (isQueue_of_rep hrep' (hs.insert hc) ?_)
        exact ((List.perm_append_singleton item q).nodup_iff).mpr
          (List.nodup_cons.mpr ⟨hitem, hq⟩)
  | removeFront =>
      cases xs with
      | nil =>
          obtain rfl := hs.perm.nil_eq
          simp only [serveSorted, serveQueue, hrep.removeFront_eq_none]
          exact Run.alike_none
      | cons x xs =>
          obtain ⟨l', hl', hrep'⟩ := hrep.removeFront
          have hs' := hs.erase hq x
          rw [List.erase_cons_head] at hs'
          simp only [serveSorted, serveQueue, hl', hs.earliestMin_eq hc]
          exact Run.alike_some (isQueue_of_rep hrep' hs' (hq.erase x))
  | remove item =>
      by_cases hitem : item ∈ q
      · obtain ⟨l', hl', hrep'⟩ := hrep.remove hnodup ((hmem item).mpr hitem)
        simp only [serveSorted, serveQueue, hl', if_pos hitem]
        exact Run.alike_some (isQueue_of_rep hrep' (hs.erase hq item) (hq.erase item))
      · simp only [serveSorted, serveQueue, hrep.remove_eq_none (mt (hmem item).mp hitem),
          if_neg hitem]
        exact Run.alike_none

end Calls

/-! ## The refinements -/

/-- **A `List` is a sequence and a `SortedList` a queue by priority**, along
every sequence of calls, and `Insert` puts the item behind those that compare
equal. -/
theorem lists_refine (compare : T → T → Int) (hc : SortedList.Comparison compare) :
    (∀ calls, Run.Alike IsSequence (Run.session serve (empty : LinkedList T) calls)
        (Run.session serveSequence [] calls))
      ∧ (∀ calls, Run.Alike (IsQueue compare)
          (Run.session (serveSorted compare) (empty : LinkedList T) calls)
          (Run.session (serveQueue compare) [] calls))
      ∧ ∀ (l : LinkedList T) xs item, Rep l xs → (xs.Pairwise fun x y => compare x y ≤ 0) →
          item ∉ xs → ∃ l' ys zs, l.insert compare item = some l' ∧ xs = ys ++ zs
            ∧ Rep l' (ys ++ item :: zs)
            ∧ ((ys ++ item :: zs).Pairwise fun x y => compare x y ≤ 0)
            ∧ (∀ y ∈ ys, compare y item ≤ 0) ∧ ∀ z ∈ zs, compare item z < 0 := by
  refine ⟨fun calls => Run.session_alike serve_alike calls (rep_empty.isSequence List.nodup_nil),
    fun calls => Run.session_alike (serveSorted_alike hc) calls
      (isQueue_of_rep rep_empty SortedList.stable_nil List.nodup_nil),
    fun l xs item hrep hs hitem => ?_⟩
  obtain ⟨l', hl', hrep'⟩ := hrep.insert compare hitem
  obtain ⟨ys, zs, hxs, heq, hbefore, hafter⟩ := SortedList.insert_eq_append hc item hs
  have hs' := SortedList.sorted_insert hc item hs
  rw [heq] at hrep' hs'
  exact ⟨l', ys, zs, hl', hxs, hrep', hs', hbefore, hafter⟩

/-- Entries with a key, compared by their keys. -/
def compareKeys (x y : Int × String) : Int := x.1 - y.1

/-- Two pairs of equal keys, one entry of each removed before its turn or
after it. -/
theorem lists_refine_keys :
    SortedList.Comparison compareKeys
      ∧ (∃ l, Run.session serve empty
            [.append 'a', .prepend 'b', .append 'c', .remove 'c', .removeFront, .append 'd']
          = some ([none, none, none, none, some 'b', none], l)
          ∧ IsSequence l ['a', 'd'])
      ∧ ∃ l, Run.session (serveSorted compareKeys) empty
            [.insert (2, "a"), .insert (1, "b"), .insert (2, "c"), .insert (1, "d"),
              .removeFront, .remove (2, "a"), .removeFront]
          = some ([none, none, none, none, some (1, "b"), none, some (1, "d")], l)
          ∧ IsQueue compareKeys l [(2, "c")] := by
  have hc : SortedList.Comparison compareKeys := by
    refine ⟨fun x y => ?_, fun x y z => ?_⟩ <;> simp only [compareKeys] <;> omega
  obtain ⟨hlist, -, -⟩ := lists_refine (fun _ _ : Char => 0) ⟨by simp, by simp⟩
  obtain ⟨-, hsorted, -⟩ := lists_refine compareKeys hc
  refine ⟨hc, Run.Alike.of_some ?_, Run.Alike.of_some ?_⟩
  · exact hlist _
  · exact hsorted _

end LinkedList

end Nachos
