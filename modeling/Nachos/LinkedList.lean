import Nachos.Linked

/-!
# Lists

`List` and `ListIterator` of `lib/list.h` and `lib/list.cc`: elements linked
by their `next` pointers, with pointers to the first and the last of them and
their number. The elements of one list are kept in a heap of their own, for
no element is ever on two lists; `new` hands out an address that was never
used and `delete` takes the element away, so that a use of a deleted element
shows.

An operation has no result (`none`) when an assertion fails, when a null
pointer or the pointer to a deleted element is followed, and when a loop does
not end. A list never has more elements than addresses were handed out; a
walk that is longer goes round in a circle, so the loops give up there.

`Rep l xs` says that `l` is a correctly linked list of the items `xs`. There
is one lemma for each operation: from a list of `xs` it comes to its end and
leaves a list of what it should.
-/

namespace Nachos

open Linked

abbrev ListElement := Linked.Cell

/-- `List<T>`. -/
structure LinkedList (T : Type) where
  elements : Heap T
  -- the addresses below have been handed out
  brk : Nat
  first : Option Nat
  last : Option Nat
  numInList : Int

namespace LinkedList

variable {T : Type}

/-! ## The operations -/

/-- `ASSERT`. -/
def assert (b : Bool) : Option Unit := if b then some () else none

/-- `List::List`. -/
def empty : LinkedList T := ⟨fun _ => none, 0, none, none, 0⟩

def isEmpty (l : LinkedList T) : Bool := l.numInList = 0

/-- What a pointer points to. -/
def deref (l : LinkedList T) (p : Option Nat) : Option (ListElement T) := p.bind l.elements

/-- `p->next = next`. -/
def setNext (l : LinkedList T) (p next : Option Nat) : Option (LinkedList T) := do
  let a ← p
  let e ← l.elements a
  some { l with elements := Function.update l.elements a (some { e with next := next }) }

/-- `new ListElement<T>(item)`, at the address `brk`. -/
def allocate (l : LinkedList T) (item : T) : LinkedList T :=
  { l with elements := Function.update l.elements l.brk (some ⟨item, none⟩), brk := l.brk + 1 }

/-- `delete`. -/
def delete (l : LinkedList T) (a : Nat) : LinkedList T :=
  { l with elements := Function.update l.elements a none }

/-- The loop of a search from `p` on, for at most `n` elements. -/
def searchFrom (l : LinkedList T) (found : T → Bool) : Nat → Option Nat → Option (Option T)
  | _, none => some none
  | 0, some _ => none
  | n + 1, some a => do
      let e ← l.elements a
      if found e.item then some (some e.item) else searchFrom l found n e.next

/-- A search with a `ListIterator`, or with a pointer in its place. -/
def search (l : LinkedList T) (found : T → Bool) : Option (Option T) :=
  searchFrom l found l.brk l.first

/-- `ListIterator::Item`. -/
def item (l : LinkedList T) (current : Option Nat) : Option T := (l.deref current).map (·.item)

/-- `ListIterator::Next`. -/
def next (l : LinkedList T) (current : Option Nat) : Option (Option Nat) :=
  (l.deref current).map (·.next)

/-- The loop of `SanityCheck`, for at most `n` elements. -/
def count (l : LinkedList T) : Nat → (numFound : Int) → (ptr : Option Nat) → Option Int
  | 0, numFound, ptr => if ptr = l.last then some numFound else none
  | n + 1, numFound, ptr =>
      if ptr = l.last then some numFound
      else do
        assert (numFound + 1 ≤ l.numInList)
        let e ← l.deref ptr
        count l n (numFound + 1) e.next

/-- `List::SanityCheck`. -/
def sanityCheck (l : LinkedList T) : Option Unit :=
  if l.first = none then assert (l.numInList = 0 ∧ l.last = none)
  else if l.first = l.last then do
    let e ← l.deref l.last
    assert (l.numInList = 1 ∧ e.next = none)
  else do
    let numFound ← l.count l.numInList.toNat 1 l.first
    assert (numFound = l.numInList)
    let e ← l.deref l.last
    assert (e.next = none)

/-- `List::RemoveFront`. -/
def removeFront (l : LinkedList T) : Option (T × LinkedList T) := do
  assert (!l.isEmpty)
  let element ← l.first
  let e ← l.elements element
  let l :=
    if l.first = l.last then { l with first := none, last := none }
    else { l with first := e.next }
  some (e.item, { l with numInList := l.numInList - 1 }.delete element)

variable [DecidableEq T]

/-- `List::IsInList`. -/
def isInList (l : LinkedList T) (item : T) : Option Bool := do
  let found ← l.search (item = ·)
  some found.isSome

/-- `List::Append`. -/
def append (l : LinkedList T) (item : T) : Option (LinkedList T) := do
  let element := l.brk
  let l := l.allocate item
  assert (!(← l.isInList item))
  let l ←
    if l.isEmpty then some { l with first := some element, last := some element }
    else do
      let l ← l.setNext l.last (some element)
      some { l with last := some element }
  let l := { l with numInList := l.numInList + 1 }
  assert (← l.isInList item)
  some l

/-- The loop of `Remove` behind the first element. -/
def removeFrom (l : LinkedList T) (item : T) :
    Nat → (prev ptr : Option Nat) → Option (LinkedList T)
  -- `ASSERT(ptr != NULL)`
  | _, _, none => none
  | 0, _, some _ => none
  | n + 1, prev, some ptr => do
      let e ← l.elements ptr
      if item = e.item then
        let l ← l.setNext prev e.next
        let l := if e.next = none then { l with last := prev } else l
        some { l.delete ptr with numInList := l.numInList - 1 }
      else removeFrom l item n (some ptr) e.next

/-- `List::Remove`. -/
def remove (l : LinkedList T) (item : T) : Option (LinkedList T) := do
  assert (← l.isInList item)
  let e ← l.deref l.first
  let l ←
    if item = e.item then do
      let (removed, l) ← l.removeFront
      assert (item = removed)
      some l
    else l.removeFrom item l.brk l.first e.next
  assert (!(← l.isInList item))
  some l

/-! ## Correctly linked lists -/

omit [DecidableEq T]

/-- The cells of `l` are those of `c`. -/
structure Links (l : LinkedList T) (c : List (Nat × T)) : Prop where
  seg : Seg l.elements l.first c none
  last : l.last = (addresses c).getLast?
  nodup : (addresses c).Nodup
  lt : ∀ a ∈ addresses c, a < l.brk
  numInList : l.numInList = c.length

/-- `l` is a list of the items `xs`. -/
def Rep (l : LinkedList T) (xs : List T) : Prop := ∃ c, Links l c ∧ items c = xs

/-- From the position `p` of an iterator the items `xs` are still to come. -/
def At (l : LinkedList T) (p : Option Nat) (xs : List T) : Prop :=
  ∃ c, Seg l.elements p c none ∧ items c = xs

variable {l : LinkedList T} {c d : List (Nat × T)} {x y item : T} {xs : List T} {p : Option Nat}
  {a b n : Nat}

theorem rep_empty : Rep (empty : LinkedList T) [] :=
  ⟨[], ⟨rfl, rfl, List.nodup_nil, fun _ h => absurd h List.not_mem_nil, rfl⟩, rfl⟩

theorem Rep.numInList (h : Rep l xs) : l.numInList = xs.length := by
  obtain ⟨c, hc, rfl⟩ := h
  rw [hc.numInList, length_items]

theorem Rep.isEmpty_iff (h : Rep l xs) : l.isEmpty = true ↔ xs = [] := by
  rw [isEmpty, decide_eq_true_eq, h.numInList]
  simp

/-! ### Iterators -/

theorem Rep.at_first (h : Rep l xs) : At l l.first xs := by
  obtain ⟨c, hc, hxs⟩ := h
  exact ⟨c, hc.seg, hxs⟩

theorem At.isDone (h : At l p []) : p = none := by
  obtain ⟨c, hc, hxs⟩ := h
  obtain rfl := List.map_eq_nil_iff.mp hxs
  exact hc

theorem At.step (h : At l p (x :: xs)) :
    p ≠ none ∧ l.item p = some x ∧ ∃ q, l.next p = some q ∧ At l q xs := by
  obtain ⟨c, hc, hxs⟩ := h
  obtain ⟨a, d, rfl, rfl⟩ := items_eq_cons hxs
  obtain ⟨rfl, n, hn, hd⟩ := hc
  refine ⟨Option.some_ne_none a, ?_, n, ?_, d, hd, rfl⟩
  · simp [LinkedList.item, deref, hn]
  · simp [LinkedList.next, deref, hn]

theorem searchFrom_eq {found : T → Bool} (hc : Seg l.elements p c none) (hn : c.length ≤ n) :
    l.searchFrom found n p = some ((items c).find? found) := by
  induction c generalizing p n with
  | nil =>
      obtain rfl : p = none := hc
      simp [searchFrom, items]
  | cons ax c ih =>
      obtain ⟨a, x⟩ := ax
      obtain ⟨rfl, q, hq, hc⟩ := hc
      obtain ⟨m, rfl, hm⟩ := exists_fuel hn
      rw [searchFrom, hq, items_cons, List.find?_cons]
      simp only [Option.bind_eq_bind, Option.bind_some]
      cases found x with
      | true => rfl
      | false => exact ih hc hm

theorem Links.length_le (h : Links l c) : c.length ≤ l.brk := length_le_of_nodup h.nodup h.lt

/-- A search comes to its end, with the first item that is looked for. -/
theorem Rep.search (h : Rep l xs) (found : T → Bool) : l.search found = some (xs.find? found) := by
  obtain ⟨c, hc, rfl⟩ := h
  exact searchFrom_eq hc.seg hc.length_le

theorem Rep.isInList [DecidableEq T] (h : Rep l xs) (item : T) :
    l.isInList item = some (decide (item ∈ xs)) := by
  rw [LinkedList.isInList, h.search]
  simp only [Option.bind_eq_bind, Option.bind_some, Option.some.injEq]
  rw [Bool.eq_iff_iff, List.find?_isSome]
  simp

/-! ### Removal -/

/-- The first element is also the last one when there is no other. -/
theorem Links.first_eq_last_iff (h : Links l ((a, x) :: c)) : l.first = l.last ↔ c = [] := by
  rw [h.seg.1, h.last, addresses_cons]
  constructor
  · intro heq
    by_contra hne
    have hlast : a ∈ addresses c := by
      rw [List.getLast?_cons_of_ne_nil (by simpa [addresses] using hne)] at heq
      exact List.mem_of_getLast? heq.symm
    exact (List.nodup_cons.mp h.nodup).1 hlast
  · rintro rfl
    rfl

theorem Rep.removeFront (h : Rep l (x :: xs)) :
    ∃ l', l.removeFront = some (x, l') ∧ Rep l' xs := by
  have hempty : l.isEmpty = false := by
    rw [← Bool.not_eq_true, h.isEmpty_iff]
    exact List.cons_ne_nil x xs
  obtain ⟨c, hc, hxs⟩ := h
  obtain ⟨a, d, rfl, rfl⟩ := items_eq_cons hxs
  obtain ⟨hfirst, n, hn, hd⟩ := hc.seg
  obtain ⟨had, hnodup⟩ := List.nodup_cons.mp hc.nodup
  have hlt : ∀ b ∈ addresses d, b < l.brk := fun b hb => hc.lt b (List.mem_cons_of_mem a hb)
  have hnum : l.numInList - 1 = d.length := by
    rw [hc.numInList, List.length_cons]
    omega
  have hiff := hc.first_eq_last_iff
  simp only [LinkedList.removeFront, hempty, assert, hfirst, hn, Option.bind_eq_bind,
    Option.bind_some, Bool.not_false, if_true]
  rw [← hfirst]
  refine ⟨_, rfl, d, ?_, rfl⟩
  split
  next heq =>
      obtain rfl := hiff.mp heq
      exact ⟨rfl, rfl, List.nodup_nil, hlt, hnum⟩
  next hne =>
      have hdne : addresses d ≠ [] := by
        simpa [addresses] using mt hiff.mpr hne
      refine ⟨hd.frame had none, ?_, hnodup, hlt, hnum⟩
      rw [← List.getLast?_cons_of_ne_nil hdne]
      exact hc.last

/-- The cell behind `b` is taken out. -/
theorem Links.unlink (h : Links l (c ++ (b, y) :: (a, x) :: d)) :
    l.elements b = some ⟨y, some a⟩ ∧ l.elements a = some ⟨x, (addresses d).head?⟩
      ∧ ∀ l' : LinkedList T,
          l'.elements = Function.update
            (Function.update l.elements b (some ⟨y, (addresses d).head?⟩)) a none →
          l'.brk = l.brk → l'.first = l.first →
          l'.last = (if (addresses d).head? = none then some b else l.last) →
          l'.numInList = l.numInList - 1 → Links l' (c ++ (b, y) :: d) := by
  obtain ⟨q, hb, ha, hd, hseg⟩ := h.seg.unlink h.nodup
  obtain rfl := hd.start
  refine ⟨hb, ha, fun l' helements hbrk hfirst hlast hnum => ?_⟩
  have hsub : (addresses (c ++ (b, y) :: d)).Sublist (addresses (c ++ (b, y) :: (a, x) :: d)) := by
    simp
  refine ⟨by rwa [helements, hfirst], ?_, h.nodup.sublist hsub, fun e he => ?_, ?_⟩
  · rw [hlast, h.last]
    cases hd : addresses d with
    | nil => simp [hd]
    | cons e es => simp [hd, List.getLast?_append, List.getLast?_cons_cons]
  · rw [hbrk]
    exact h.lt e (hsub.subset he)
  · rw [hnum, h.numInList]
    simp only [List.length_append, List.length_cons]
    omega

variable [DecidableEq T]

/-- The loop of `Remove`, with the cells `c` and the one of `prev` behind it
and `d` to come. -/
theorem removeFrom_spec (h : Links l (c ++ (b, y) :: d)) (hn : d.length ≤ n)
    (hitem : item ∈ items d) :
    ∃ l', l.removeFrom item n (some b) (addresses d).head? = some l'
      ∧ Rep l' (items c ++ y :: (items d).erase item) := by
  induction d generalizing c b y n with
  | nil => exact absurd hitem List.not_mem_nil
  | cons ax d ih =>
      obtain ⟨a, x⟩ := ax
      obtain ⟨m, rfl, hm⟩ := exists_fuel hn
      obtain ⟨hb, ha, hlinks⟩ := h.unlink
      simp only [addresses_cons, List.head?_cons, removeFrom, ha, Option.bind_eq_bind,
        Option.bind_some]
      by_cases hx : item = x
      · subst hx
        simp only [if_pos, setNext, hb, Option.bind_eq_bind, Option.bind_some]
        refine ⟨_, rfl, c ++ (b, y) :: d, ?_, by simp⟩
        split
        next hnone => exact hlinks _ rfl rfl rfl (if_pos hnone).symm rfl
        next hsome => exact hlinks _ rfl rfl rfl (if_neg hsome).symm rfl
      · rw [if_neg hx]
        have hitem' : item ∈ items d := (List.mem_cons.mp hitem).resolve_left hx
        have hassoc : c ++ (b, y) :: (a, x) :: d = (c ++ [(b, y)]) ++ (a, x) :: d := by simp
        obtain ⟨l', hl', hrep⟩ := ih (hassoc ▸ h) hm hitem'
        refine ⟨l', hl', ?_⟩
        rw [items_cons, List.erase_cons_tail (by simpa using Ne.symm hx)]
        simpa [items] using hrep

/-- On a list without repetitions `Remove` comes to its end with the item
taken off. -/
theorem Rep.remove (h : Rep l xs) (hnodup : xs.Nodup) (hitem : item ∈ xs) :
    ∃ l', l.remove item = some l' ∧ Rep l' (xs.erase item) := by
  have hin := h.isInList item
  rw [decide_eq_true hitem] at hin
  have hout : ∀ l', Rep l' (xs.erase item) → l'.isInList item = some false := by
    intro l' hl'
    rw [hl'.isInList, decide_eq_false hnodup.not_mem_erase]
  cases xs with
  | nil => exact absurd hitem List.not_mem_nil
  | cons y ys =>
      obtain ⟨c, hc, hxs⟩ := id h
      obtain ⟨a, d, rfl, rfl⟩ := items_eq_cons hxs
      obtain ⟨hfirst, n, hn, hd⟩ := hc.seg
      by_cases hy : item = y
      · subst hy
        obtain ⟨l', hl', hrep⟩ := h.removeFront
        rw [← List.erase_cons_head item (items d)] at hrep
        refine ⟨l', ?_, hrep⟩
        simp [LinkedList.remove, hin, assert, deref, hfirst, hn, hl', hout l' hrep]
      · have hitem' : item ∈ items d := (List.mem_cons.mp hitem).resolve_left hy
        have hlen : d.length ≤ l.brk := Nat.le_of_succ_le hc.length_le
        obtain ⟨l', hl', hrep⟩ := removeFrom_spec (c := []) hc hlen hitem'
        have herase : (y :: items d).erase item = items [] ++ y :: (items d).erase item :=
          List.erase_cons_tail (by simpa using Ne.symm hy)
        rw [← herase] at hrep
        rw [← hd.start] at hl'
        refine ⟨l', ?_, hrep⟩
        simp [LinkedList.remove, hin, assert, deref, hfirst, hn, hy, hl', hout l' hrep]

/-! ### Appending -/

omit [DecidableEq T] in
/-- An element that has been allocated is not yet on the list. -/
theorem Links.allocate (h : Links l c) (item : T) :
    l.brk ∉ addresses c ∧ Links (l.allocate item) c := by
  have hfresh : l.brk ∉ addresses c := fun hm => Nat.lt_irrefl _ (h.lt _ hm)
  exact ⟨hfresh, h.seg.frame hfresh _, h.last, h.nodup,
    fun a ha => Nat.lt_succ_of_lt (h.lt a ha), h.numInList⟩

omit [DecidableEq T] in
/-- The element at `b` becomes the first one. -/
theorem Links.single (h : Links l []) (hb : l.elements b = some ⟨item, none⟩) (hlt : b < l.brk) :
    Links { l with first := some b, last := some b, numInList := l.numInList + 1 } [(b, item)] := by
  refine ⟨⟨rfl, none, hb, rfl⟩, rfl, List.nodup_cons.mpr ⟨List.not_mem_nil, List.nodup_nil⟩,
    fun a ha => ?_, ?_⟩
  · obtain rfl := List.mem_singleton.mp ha
    exact hlt
  · simp only [h.numInList]
    rfl

omit [DecidableEq T] in
/-- The element at `b` is linked in behind the last one, at `a`. -/
theorem Links.concat (h : Links l (c ++ [(a, x)])) (hb : l.elements b = some ⟨item, none⟩)
    (hfresh : b ∉ addresses (c ++ [(a, x)])) (hlt : b < l.brk) :
    l.elements a = some ⟨x, none⟩
      ∧ Links
          { l with
            elements := Function.update l.elements a (some ⟨x, some b⟩), last := some b,
            numInList := l.numInList + 1 }
          ((c ++ [(a, x)]) ++ [(b, item)]) := by
  obtain ⟨s, -, -, q, ha, hq⟩ := seg_append.mp h.seg
  obtain rfl : q = none := hq
  have hnodup := h.nodup
  rw [addresses_append] at hnodup
  have hac : a ∉ addresses c := fun hm =>
    (List.nodup_append.mp hnodup).2.2 a hm a (by simp [addresses]) rfl
  have hba : b ≠ a := by
    rintro rfl
    exact hfresh (by simp [addresses])
  have hnew : Function.update l.elements a (some ⟨x, some b⟩) b = some ⟨item, none⟩ := by
    rw [Function.update_of_ne hba, hb]
  refine ⟨ha, ⟨seg_append.mpr ⟨some b, h.seg.relink hac, rfl, none, hnew, rfl⟩, ?_, ?_, ?_, ?_⟩⟩
  · simp [addresses]
  · rw [addresses_append]
    refine List.nodup_append.mpr
      ⟨h.nodup, List.nodup_cons.mpr ⟨List.not_mem_nil, List.nodup_nil⟩, ?_⟩
    intro e he f hf
    obtain rfl := List.mem_singleton.mp hf
    exact fun hef => hfresh (hef ▸ he)
  · intro e he
    rw [addresses_append] at he
    rcases List.mem_append.mp he with he | he
    · exact h.lt e he
    · obtain rfl := List.mem_singleton.mp he
      exact hlt
  · simp only [h.numInList, List.length_append, List.length_singleton]
    rfl

omit [DecidableEq T] in
/-- The element at `b` is linked in behind the last one. -/
theorem Links.atEnd (h : Links l c) (hne : c ≠ []) (hfresh : b ∉ addresses c)
    (hb : l.elements b = some ⟨item, none⟩) (hlt : b < l.brk) :
    ∃ l', l.setNext l.last (some b) = some l'
      ∧ Links { l' with last := some b, numInList := l'.numInList + 1 } (c ++ [(b, item)]) := by
  obtain ⟨c, ⟨a, x⟩, rfl⟩ := (List.eq_nil_or_concat c).resolve_left hne
  rw [List.concat_eq_append] at h hfresh ⊢
  obtain ⟨ha, hlinks⟩ := h.concat hb hfresh hlt
  have hlast : l.last = some a := by
    rw [h.last]
    simp [addresses]
  refine ⟨{ l with elements := Function.update l.elements a (some ⟨x, some b⟩) }, ?_, hlinks⟩
  simp only [setNext, hlast, ha, Option.bind_eq_bind, Option.bind_some]

theorem Rep.isInList_allocate (h : Rep l xs) (item : T) :
    (l.allocate item).isInList item = some (decide (item ∈ xs)) := by
  obtain ⟨c, hc, rfl⟩ := h
  exact Rep.isInList ⟨c, (hc.allocate item).2, rfl⟩ item

/-- What `Append` finds after its first assertion: a new element that is not
linked in yet. -/
theorem Rep.allocated (h : Rep l xs) (hitem : item ∉ xs) :
    ∃ c, items c = xs ∧ Links (l.allocate item) c ∧ l.brk ∉ addresses c
      ∧ (l.allocate item).elements l.brk = some ⟨item, none⟩
      ∧ l.brk < (l.allocate item).brk
      ∧ (l.allocate item).isInList item = some false
      ∧ ((l.allocate item).isEmpty = true ↔ c = []) := by
  have hout := h.isInList_allocate item
  rw [decide_eq_false hitem] at hout
  obtain ⟨c, hc, rfl⟩ := h
  obtain ⟨hfresh, hlinks⟩ := hc.allocate item
  have hrep : Rep (l.allocate item) (items c) := ⟨c, hlinks, rfl⟩
  refine ⟨c, rfl, hlinks, hfresh, Function.update_self .., Nat.lt_succ_self _, hout, ?_⟩
  rw [hrep.isEmpty_iff]
  exact List.map_eq_nil_iff

theorem Rep.append (h : Rep l xs) (hitem : item ∉ xs) :
    ∃ l', l.append item = some l' ∧ Rep l' (xs ++ [item]) := by
  obtain ⟨c, rfl, hlinks, hfresh, hnew, hlt, hout, hempty⟩ := h.allocated hitem
  have hin : ∀ l' : LinkedList T, Rep l' (items c ++ [item]) → l'.isInList item = some true := by
    intro l' hl'
    rw [hl'.isInList, decide_eq_true (by simp)]
  by_cases hc : c = []
  · subst hc
    have hrep : Rep _ (items [] ++ [item]) := ⟨_, hlinks.single hnew hlt, rfl⟩
    refine ⟨_, ?_, hrep⟩
    simp only [LinkedList.append, hout, assert, hempty.mpr rfl, Option.bind_eq_bind,
      Option.bind_some, Bool.not_false, if_true, hin _ hrep]
  · have hne : (l.allocate item).isEmpty = false := by
      rw [← Bool.not_eq_true, hempty]
      exact hc
    obtain ⟨l', hl', hlinks'⟩ := hlinks.atEnd hc hfresh hnew hlt
    have hrep : Rep _ (items c ++ [item]) := ⟨_, hlinks', by simp [items]⟩
    refine ⟨_, ?_, hrep⟩
    simp only [LinkedList.append, hout, assert, hne, hl', Option.bind_eq_bind, Option.bind_some,
      Bool.not_false, if_true, Bool.false_eq_true, if_false]
    rw [hin _ hrep]
    rfl

/-! ### The check -/

omit [DecidableEq T] in
/-- The loop of `SanityCheck` with the cells `c` before the last one to
come. -/
theorem count_eq (hseg : Seg l.elements p (c ++ [(a, x)]) none) (hlast : l.last = some a)
    (hnodup : (addresses (c ++ [(a, x)])).Nodup) {numFound : Int}
    (hnum : numFound + c.length = l.numInList) (hn : c.length ≤ n) :
    l.count n numFound p = some l.numInList := by
  induction c generalizing p numFound n with
  | nil =>
      obtain ⟨rfl, -⟩ := hseg
      have hnum : numFound = l.numInList := by simpa using hnum
      cases n with
      | zero => rw [count, if_pos hlast.symm, hnum]
      | succ n => rw [count, if_pos hlast.symm, hnum]
  | cons bx c ih =>
      obtain ⟨b, y⟩ := bx
      obtain ⟨rfl, q, hq, hseg⟩ := hseg
      obtain ⟨hb, hnodup⟩ := List.nodup_cons.mp hnodup
      have hba : some b ≠ l.last := by
        rw [hlast]
        rintro heq
        exact hb (by simp [Option.some.inj heq])
      obtain ⟨m, rfl, hm⟩ := exists_fuel hn
      rw [List.length_cons] at hnum
      have hle : numFound + 1 ≤ l.numInList := by omega
      rw [count, if_neg hba]
      simp only [assert, hle, deref, hq, decide_true, if_true, Option.bind_eq_bind,
        Option.bind_some]
      exact ih hseg hnodup (by omega) hm

omit [DecidableEq T] in
/-- A correctly linked list passes its own check. -/
theorem Rep.sanityCheck (h : Rep l xs) : l.sanityCheck = some () := by
  obtain ⟨c, hc, rfl⟩ := h
  rcases List.eq_nil_or_concat c with rfl | ⟨c, ⟨a, x⟩, rfl⟩
  · have hfirst : l.first = none := hc.seg
    have hlast : l.last = none := hc.last
    have hnum : l.numInList = 0 := hc.numInList
    simp [LinkedList.sanityCheck, hfirst, hlast, hnum, assert]
  · rw [List.concat_eq_append] at hc
    have hlast : l.last = some a := by
      rw [hc.last]
      simp [addresses]
    obtain ⟨s, -, -, q, ha, hq⟩ := seg_append.mp hc.seg
    obtain rfl : q = none := hq
    have hnum : l.numInList = c.length + 1 := by
      rw [hc.numInList]
      simp
    have hcount : l.count l.numInList.toNat 1 l.first = some l.numInList :=
      count_eq hc.seg hlast hc.nodup (by omega) (by omega)
    have hfirst : l.first ≠ none := by
      rw [hc.seg.start]
      simp [addresses]
    by_cases heq : l.first = l.last
    · have hone : l.numInList = 1 := by
        cases c with
        | nil => exact hnum
        | cons by' c => exact absurd (hc.first_eq_last_iff.mp heq) (by simp)
      rw [LinkedList.sanityCheck, if_neg hfirst, if_pos heq]
      simp [deref, hlast, ha, hone, assert]
    · rw [LinkedList.sanityCheck, if_neg hfirst, if_neg heq]
      simp [deref, hlast, ha, hcount, assert]

end LinkedList

end Nachos
