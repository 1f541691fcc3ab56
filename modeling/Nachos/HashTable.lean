import Nachos.Chaining
import Nachos.LinkedList
import Nachos.Run

/-!
# The hash table

`HashTable` and `HashIterator` of `lib/hash.h` and `lib/hash.cc`, over the
lists of `LinkedList`. The array of buckets with its size is one list. As for
the lists an operation has no result when an assertion fails, its own or one
of the lists. The counters are exact: a table would fill the address space of
the host long before an `int` overflows.

What a table is for is a finite map, from keys to items (`Op.spec`). `Stores`
relates the two, with the contents of the buckets in between: every bucket is
a correctly linked list of items that belong there, no two items have the
same key, and the items are those of the map. The operations keep it
(`Stores.insert`, `Stores.remove`), `ReHash` with one item after the other on
its way to a new bucket (`Table.moveItems`). A table that `Stores` a map
answers for it (`Refines`).
-/

namespace Nachos

open LinkedList (assert)

structure HashTable (T : Type) where
  buckets : List (LinkedList T)
  numItems : Int

namespace HashTable

variable {K T : Type}

/-! ## The code -/

def initialBuckets : Nat := 4
def resizeRatio : Int := 3
def increaseSizeBy : Nat := 4

def numBuckets (t : HashTable T) : Nat := t.buckets.length

/-- The array `InitBuckets` makes. -/
def initBuckets (sz : Nat) : List (LinkedList T) := List.replicate sz LinkedList.empty

/-- `HashTable::HashTable`. -/
def init : HashTable T := ⟨initBuckets initialBuckets, 0⟩

section Code

variable [DecidableEq K] [DecidableEq T] (getKey : T → K) (hash : K → UInt32) (t : HashTable T)

def hashValue (key : K) : Option Nat :=
  let result := (hash key).toNat % t.numBuckets
  if result < t.numBuckets then some result else none

def findInBucket (bucket : Nat) (key : K) : Option (Option T) := do
  let l ← t.buckets[bucket]?
  l.search fun x => key = getKey x

def find (key : K) : Option (Option T) := do
  let bucket ← t.hashValue hash key
  t.findInBucket getKey bucket key

def isInTable (key : K) : Option Bool := do
  let found ← t.find getKey hash key
  some found.isSome

/-- `buckets[HashValue(getKey(item))]->Append(item)`. -/
def append (item : T) : Option (HashTable T) := do
  let bucket ← t.hashValue hash (getKey item)
  let l ← t.buckets[bucket]?
  let l ← l.append item
  some { t with buckets := t.buckets.set bucket l }

/-- The loop of `SanityCheck`, from bucket `i` on. -/
def countItems : (i : Nat) → (numFound : Int) → List (LinkedList T) → Option Int
  | _, numFound, [] => some numFound
  | i, numFound, l :: ls => do
      l.sanityCheck
      let misplaced ← l.search fun x => t.hashValue hash (getKey x) ≠ some i
      assert misplaced.isNone
      countItems (i + 1) (numFound + l.numInList) ls

def sanityCheck : Option Unit := do
  let numFound ← t.countItems getKey hash 0 0 t.buckets
  assert (t.numItems = numFound)

/-- The inner loop of `ReHash`, for at most `n` items: the old bucket `l` is
emptied into the new table. -/
def moveItems : Nat → LinkedList T → HashTable T → Option (HashTable T)
  | 0, l, t => if l.isEmpty then some t else none
  | n + 1, l, t =>
      if l.isEmpty then some t
      else do
        let (item, l) ← l.removeFront
        let t ← t.append getKey hash item
        moveItems n l t

/-- The outer loop of `ReHash`. -/
def moveBuckets : List (LinkedList T) → HashTable T → Option (HashTable T)
  | [], t => some t
  | l :: ls, t => do
      let t ← moveItems getKey hash l.numInList.toNat l t
      moveBuckets ls t

def reHash : Option (HashTable T) := do
  t.sanityCheck getKey hash
  let new : HashTable T := { t with buckets := initBuckets (t.numBuckets * increaseSizeBy) }
  let new ← moveBuckets getKey hash t.buckets new
  new.sanityCheck getKey hash
  some new

/-- `if ((numItems / numBuckets) >= ResizeRatio) ReHash();` -/
def resize : Option (HashTable T) :=
  if resizeRatio ≤ t.numItems.tdiv t.numBuckets then t.reHash getKey hash else some t

def insert (item : T) : Option (HashTable T) := do
  let key := getKey item
  assert (!(← t.isInTable getKey hash key))
  let t ← t.resize getKey hash
  let t ← t.append getKey hash item
  let t := { t with numItems := t.numItems + 1 }
  assert (← t.isInTable getKey hash key)
  some t

def remove (key : K) : Option (T × HashTable T) := do
  let bucket ← t.hashValue hash key
  let found ← t.findInBucket getKey bucket key
  -- `ASSERT(found)`
  let item ← found
  let l ← t.buckets[bucket]?
  let l ← l.remove item
  let t : HashTable T := ⟨t.buckets.set bucket l, t.numItems - 1⟩
  assert (!(← t.isInTable getKey hash key))
  some (item, t)

end Code

/-- The loop of `FindNextFullBucket`. -/
def nextFull : List (LinkedList T) → Nat → Nat
  | [], bucket => bucket
  | l :: ls, bucket => if l.isEmpty then nextFull ls (bucket + 1) else bucket

def findNextFullBucket (t : HashTable T) (bucket : Nat) : Nat :=
  nextFull (t.buckets.drop bucket) bucket

end HashTable

/-- `HashIterator`. `bucketIter` is null or a `ListIterator` of the bucket. -/
structure HashIterator where
  bucket : Nat
  bucketIter : Option (Option Nat)

namespace HashIterator

variable {T : Type} (table : HashTable T)

/-- The next full bucket from `bucket` on, and an iterator for it. -/
def start (bucket : Nat) : HashIterator :=
  let bucket := table.findNextFullBucket bucket
  ⟨bucket, table.buckets[bucket]?.map (·.first)⟩

/-- `HashIterator::HashIterator`. -/
def init : HashIterator := start table 0

def isDone (it : HashIterator) : Bool := it.bucket = table.numBuckets

def item (it : HashIterator) : Option T := do
  assert (!it.isDone table)
  let current ← it.bucketIter
  let l ← table.buckets[it.bucket]?
  l.item current

def next (it : HashIterator) : Option HashIterator := do
  let current ← it.bucketIter
  let l ← table.buckets[it.bucket]?
  let current ← l.next current
  if current = none then some (start table (it.bucket + 1))
  else some { it with bucketIter := some current }

/-- The loop `for (; !iter.IsDone(); iter.Next())` with the items it sees, for
at most `n` of them. -/
def visit : Nat → HashIterator → Option (List T)
  | 0, it => if it.isDone table then some [] else none
  | n + 1, it =>
      if it.isDone table then some []
      else do
        let x ← it.item table
        let it ← it.next table
        let xs ← visit n it
        some (x :: xs)

end HashIterator

/-! ## Correct tables -/

namespace HashTable

open Chaining LinkedList

section Tables

variable {K T : Type} {getKey : T → K} {hash : K → UInt32} {t : HashTable T}
  {xss : List (List T)} {items xs : List T} {x : T}

/-- The bucket of a key in a table of `n` buckets. -/
def slot (hash : K → UInt32) (n : Nat) (key : K) : Nat := (hash key).toNat % n

/-- The buckets of `t` are correctly linked lists of `xss`, every item is in
its bucket and no two have the same key. -/
structure Table (getKey : T → K) (hash : K → UInt32) (t : HashTable T) (xss : List (List T)) :
    Prop where
  buckets : List.Forall₂ Rep t.buckets xss
  pos : 0 < xss.length
  placed : Placed (fun x => slot hash xss.length (getKey x)) xss
  nodup : (xss.flatten.map getKey).Nodup

/-- A correct table with the items `items`, in any order. -/
def Holds (getKey : T → K) (hash : K → UInt32) (t : HashTable T) (items : List T) : Prop :=
  ∃ xss, Table getKey hash t xss ∧ xss.flatten.Perm items

theorem holds_initBuckets {n : Nat} (hn : 0 < n) (numItems : Int) :
    Holds getKey hash ⟨initBuckets n, numItems⟩ [] := by
  have hflatten : (List.replicate n ([] : List T)).flatten = [] := by simp
  refine ⟨List.replicate n [], ⟨forall₂_replicate rep_empty n, ?_, placed_replicate n, ?_⟩, ?_⟩
  · rwa [List.length_replicate]
  · rw [hflatten]
    exact List.nodup_nil
  · rw [hflatten]

/-- `numItems` has no part in it. -/
theorem Holds.of_buckets {t' : HashTable T} (h : Holds getKey hash t items)
    (hbuckets : t'.buckets = t.buckets) : Holds getKey hash t' items := by
  obtain ⟨xss, ht, hperm⟩ := h
  exact ⟨xss, ⟨hbuckets ▸ ht.buckets, ht.pos, ht.placed, ht.nodup⟩, hperm⟩

theorem Holds.nodup (h : Holds getKey hash t items) : (items.map getKey).Nodup := by
  obtain ⟨xss, ht, hperm⟩ := h
  exact (hperm.map getKey).nodup_iff.mp ht.nodup

/-- Where a key leads. -/
theorem Table.bucket (h : Table getKey hash t xss) (key : K) :
    t.hashValue hash key = some (slot hash xss.length key)
      ∧ ∃ l xs, t.buckets[slot hash xss.length key]? = some l
          ∧ xss[slot hash xss.length key]? = some xs ∧ Rep l xs := by
  have hlt : slot hash xss.length key < xss.length := Nat.mod_lt _ h.pos
  have hlen : t.numBuckets = xss.length := h.buckets.length_eq
  obtain ⟨l, hl, hrep⟩ := getElem?_of_forall₂ h.buckets (List.getElem?_eq_getElem hlt)
  refine ⟨?_, l, _, hl, List.getElem?_eq_getElem hlt, hrep⟩
  rw [hashValue, hlen]
  exact if_pos hlt

variable [DecidableEq K]

/-- A search of the table comes to its end, with the item of that key. -/
theorem Holds.find (h : Holds getKey hash t items) (key : K) :
    ∃ found, t.find getKey hash key = some found
      ∧ ∀ x, found = some x ↔ x ∈ items ∧ getKey x = key := by
  obtain ⟨xss, ht, hperm⟩ := h
  obtain ⟨hvalue, l, xs, hl, hxs, hrep⟩ := ht.bucket key
  refine ⟨xs.find? fun x => key = getKey x, ?_, fun x => ?_⟩
  · simp [HashTable.find, findInBucket, hvalue, hl, hrep.search]
  · rw [← hperm.mem_iff]
    exact ht.placed.find?_eq_some ht.nodup hxs

theorem Holds.isInTable (h : Holds getKey hash t items) (key : K) :
    t.isInTable getKey hash key = some (decide (key ∈ items.map getKey)) := by
  obtain ⟨found, hfound, hiff⟩ := h.find key
  rw [HashTable.isInTable, hfound]
  simp only [Option.bind_eq_bind, Option.bind_some, Option.some.injEq]
  rw [Bool.eq_iff_iff, decide_eq_true_eq, Option.isSome_iff_exists, List.mem_map]
  simp only [hiff]

omit [DecidableEq K] in
/-- The loop of `SanityCheck`, from bucket `i` on. -/
theorem Table.countItems {ls : List (LinkedList T)} {yss : List (List T)}
    (h : Table getKey hash t xss) (hls : List.Forall₂ Rep ls yss) {i : Nat}
    (hdrop : xss.drop i = yss) (numFound : Int) :
    t.countItems getKey hash i numFound ls = some (numFound + yss.flatten.length) := by
  induction hls generalizing i numFound with
  | nil => simp [HashTable.countItems]
  | @cons l ys ls yss hl _ ih =>
      have hys : xss[i]? = some ys := by
        rw [← List.head?_drop, hdrop, List.head?_cons]
      have hdrop' : xss.drop (i + 1) = yss := by
        rw [← List.tail_drop, hdrop, List.tail_cons]
      have hplaced : ys.find? (fun x => decide (t.hashValue hash (getKey x) ≠ some i)) = none := by
        refine List.find?_eq_none.mpr fun y hy => ?_
        have hi : slot hash xss.length (getKey y) = i := h.placed i ys hys y hy
        rw [(h.bucket (getKey y)).1, hi]
        simp
      simp only [HashTable.countItems, hl.sanityCheck, hl.search, hplaced, assert, hl.numInList,
        Option.isNone_none, if_true, Option.bind_eq_bind, Option.bind_some]
      rw [ih hdrop', List.flatten_cons, List.length_append]
      congr 1
      omega

omit [DecidableEq K] in
/-- A correct table passes its own check. -/
theorem Holds.sanityCheck (h : Holds getKey hash t items) (hnum : t.numItems = items.length) :
    t.sanityCheck getKey hash = some () := by
  obtain ⟨xss, ht, hperm⟩ := h
  rw [HashTable.sanityCheck, ht.countItems ht.buckets rfl]
  simp [assert, hnum, hperm.length_eq]

variable [DecidableEq T]

omit [DecidableEq K] in
/-- An item with a new key goes into its bucket. -/
theorem Holds.append (h : Holds getKey hash t items)
    (hnodup : ((items ++ [x]).map getKey).Nodup) :
    ∃ t', t.append getKey hash x = some t' ∧ t'.numItems = t.numItems
      ∧ Holds getKey hash t' (items ++ [x]) := by
  obtain ⟨xss, ht, hperm⟩ := h
  obtain ⟨hvalue, l, xs, hl, hxs, hrep⟩ := ht.bucket (getKey x)
  have hperm' := (perm_add hxs x).trans (hperm.append_right _)
  have hnot : x ∉ xs := by
    intro hm
    have hitem := hperm.mem_iff.mp (List.mem_flatten.mpr ⟨xs, List.mem_of_getElem? hxs, hm⟩)
    rw [List.map_append, List.nodup_append] at hnodup
    exact hnodup.2.2 _ (List.mem_map_of_mem hitem) _ (by simp) rfl
  obtain ⟨l', hl', hrep'⟩ := hrep.append hnot
  refine ⟨{ t with buckets := t.buckets.set (slot hash xss.length (getKey x)) l' }, ?_, rfl,
    xss.set (slot hash xss.length (getKey x)) (xs ++ [x]),
    ⟨forall₂_set ht.buckets _ hrep', ?_, ?_, (hperm'.map getKey).nodup_iff.mpr hnodup⟩, hperm'⟩
  · simp [HashTable.append, hvalue, hl, hl']
  · rw [List.length_set]
    exact ht.pos
  · rw [List.length_set]
    refine ht.placed.set fun y hy => ?_
    rcases List.mem_append.mp hy with hy | hy
    · exact ht.placed _ _ hxs y hy
    · rw [List.mem_singleton.mp hy]

/-! ### `ReHash` -/

omit [DecidableEq K] in
/-- An old bucket is emptied into the new table. -/
theorem Holds.moveItems {l : LinkedList T} {n : Nat} (h : Holds getKey hash t items) (hl : Rep l xs)
    (hnodup : ((items ++ xs).map getKey).Nodup) (hn : xs.length ≤ n) :
    ∃ t', HashTable.moveItems getKey hash n l t = some t' ∧ t'.numItems = t.numItems
      ∧ Holds getKey hash t' (items ++ xs) := by
  induction xs generalizing l t items n with
  | nil =>
      have hempty := hl.isEmpty_iff.mpr rfl
      refine ⟨t, ?_, rfl, by rwa [List.append_nil]⟩
      cases n with
      | zero => rw [HashTable.moveItems, if_pos hempty]
      | succ n => rw [HashTable.moveItems, if_pos hempty]
  | cons x xs ih =>
      obtain ⟨m, rfl, hm⟩ := Linked.exists_fuel hn
      have hempty : ¬l.isEmpty = true := fun he => List.cons_ne_nil x xs (hl.isEmpty_iff.mp he)
      have hassoc : items ++ x :: xs = (items ++ [x]) ++ xs := by simp
      rw [hassoc] at hnodup ⊢
      obtain ⟨l', hl', hrep⟩ := hl.removeFront
      have hfirst : ((items ++ [x]).map getKey).Nodup := by
        rw [List.map_append] at hnodup
        exact (List.nodup_append.mp hnodup).1
      obtain ⟨t₁, ht₁, hnum₁, h₁⟩ := h.append hfirst
      obtain ⟨t', ht', hnum', h'⟩ := ih h₁ hrep hnodup hm
      refine ⟨t', ?_, hnum'.trans hnum₁, h'⟩
      rw [HashTable.moveItems, if_neg hempty]
      simp [hl', ht₁, ht']

omit [DecidableEq K] in
theorem Holds.moveBuckets {ls : List (LinkedList T)} (h : Holds getKey hash t items)
    (hls : List.Forall₂ Rep ls xss) (hnodup : ((items ++ xss.flatten).map getKey).Nodup) :
    ∃ t', HashTable.moveBuckets getKey hash ls t = some t' ∧ t'.numItems = t.numItems
      ∧ Holds getKey hash t' (items ++ xss.flatten) := by
  induction hls generalizing t items with
  | nil => exact ⟨t, rfl, rfl, by simpa using h⟩
  | @cons l xs ls xss hl _ ih =>
      rw [List.flatten_cons, ← List.append_assoc] at hnodup ⊢
      have hfirst : ((items ++ xs).map getKey).Nodup := by
        rw [List.map_append] at hnodup
        exact (List.nodup_append.mp hnodup).1
      have hlen : xs.length ≤ l.numInList.toNat := by
        rw [hl.numInList]
        omega
      obtain ⟨t₁, ht₁, hnum₁, h₁⟩ := h.moveItems hl hfirst hlen
      obtain ⟨t', ht', hnum', h'⟩ := ih h₁ hnodup
      exact ⟨t', by simp [HashTable.moveBuckets, ht₁, ht'], hnum'.trans hnum₁, h'⟩

omit [DecidableEq K] in
/-- The items stay, in other buckets. -/
theorem Holds.reHash (h : Holds getKey hash t items) (hnum : t.numItems = items.length) :
    ∃ t', t.reHash getKey hash = some t' ∧ t'.numItems = t.numItems
      ∧ Holds getKey hash t' items := by
  have hcheck := h.sanityCheck hnum
  obtain ⟨xss, ht, hperm⟩ := h
  have hlen : 0 < t.numBuckets * increaseSizeBy := by
    rw [numBuckets, ht.buckets.length_eq]
    exact Nat.mul_pos ht.pos (by decide)
  obtain ⟨t', ht', hnum', xss', htable, hperm'⟩ :=
    (holds_initBuckets hlen t.numItems).moveBuckets ht.buckets (by simpa using ht.nodup)
  have h' : Holds getKey hash t' items := ⟨xss', htable, hperm'.trans hperm⟩
  have hcheck' := h'.sanityCheck (hnum'.trans hnum)
  refine ⟨t', ?_, hnum', h'⟩
  simp [HashTable.reHash, hcheck, ht', hcheck']

omit [DecidableEq K] in
theorem Holds.resize (h : Holds getKey hash t items) (hnum : t.numItems = items.length) :
    ∃ t', t.resize getKey hash = some t' ∧ t'.numItems = t.numItems
      ∧ Holds getKey hash t' items := by
  rw [HashTable.resize]
  split
  next => exact h.reHash hnum
  next => exact ⟨t, rfl, rfl, h⟩

/-! ### The two operations -/

/-- `t` stands for the map `m`. -/
def Stores (getKey : T → K) (hash : K → UInt32) (t : HashTable T) (m : K → Option T) : Prop :=
  ∃ items, Holds getKey hash t items ∧ t.numItems = items.length
    ∧ ∀ k x, m k = some x ↔ x ∈ items ∧ getKey x = k

variable {m : K → Option T}

/-- An item whose key is absent is inserted, with the table resized if need
be. -/
theorem Stores.insert (h : Stores getKey hash t m) (hx : m (getKey x) = none) :
    ∃ t', t.insert getKey hash x = some t'
      ∧ Stores getKey hash t' (Function.update m (getKey x) (some x)) := by
  obtain ⟨items, hholds, hnum, hm⟩ := h
  have habsent : getKey x ∉ items.map getKey := by
    intro hmem
    obtain ⟨y, hy, hkey⟩ := List.mem_map.mp hmem
    rw [(hm (getKey x) y).mpr ⟨hy, hkey⟩] at hx
    cases hx
  have hnodup : ((items ++ [x]).map getKey).Nodup := by
    rw [List.map_append]
    refine List.nodup_append.mpr ⟨hholds.nodup, by simp, fun k hk k' hk' => ?_⟩
    rw [List.mem_singleton.mp hk']
    rintro rfl
    exact habsent hk
  obtain ⟨t₁, ht₁, hnum₁, h₁⟩ := hholds.resize hnum
  obtain ⟨t₂, ht₂, hnum₂, h₂⟩ := h₁.append hnodup
  have h₃ : Holds getKey hash { t₂ with numItems := t₂.numItems + 1 } (items ++ [x]) :=
    h₂.of_buckets rfl
  refine ⟨{ t₂ with numItems := t₂.numItems + 1 }, ?_, items ++ [x], h₃, ?_, fun k y => ?_⟩
  · simp [HashTable.insert, hholds.isInTable, habsent, assert, ht₁, ht₂, h₃.isInTable]
  · simp only [hnum₂, hnum₁, hnum, List.length_append, List.length_singleton]
    rfl
  · by_cases hk : k = getKey x
    · subst hk
      rw [Function.update_self, Option.some.injEq, List.mem_append, List.mem_singleton]
      constructor
      · rintro rfl
        exact ⟨Or.inr rfl, rfl⟩
      · rintro ⟨hy | rfl, hkey⟩
        · exact absurd (hkey ▸ List.mem_map_of_mem hy) habsent
        · rfl
    · rw [Function.update_of_ne hk, hm, List.mem_append, List.mem_singleton]
      constructor
      · rintro ⟨hy, hkey⟩
        exact ⟨Or.inl hy, hkey⟩
      · rintro ⟨hy | rfl, hkey⟩
        · exact ⟨hy, hkey⟩
        · exact absurd hkey.symm hk

/-- The search of `Remove` and the removal from the bucket. -/
theorem Holds.unlink (h : Holds getKey hash t items) (hx : x ∈ items) :
    ∃ bucket l l' rest, t.hashValue hash (getKey x) = some bucket
      ∧ t.findInBucket getKey bucket (getKey x) = some (some x)
      ∧ t.buckets[bucket]? = some l ∧ l.remove x = some l' ∧ (x :: rest).Perm items
      ∧ ∀ numItems, Holds getKey hash ⟨t.buckets.set bucket l', numItems⟩ rest := by
  obtain ⟨xss, ht, hperm⟩ := h
  obtain ⟨hvalue, l, xs, hl, hxs, hrep⟩ := ht.bucket (getKey x)
  have hfind : xs.find? (fun y => decide (getKey x = getKey y)) = some x :=
    (ht.placed.find?_eq_some ht.nodup hxs).mpr ⟨hperm.mem_iff.mpr hx, rfl⟩
  have hmem : x ∈ xs := List.mem_of_find?_eq_some hfind
  obtain ⟨l', hl', hrep'⟩ := hrep.remove (nodup_of_getElem? ht.nodup.of_map hxs) hmem
  have hperm' := perm_remove hxs hmem
  refine ⟨_, l, l', _, hvalue, ?_, hl, hl', hperm'.trans hperm, fun numItems => ⟨_, ?_, .refl _⟩⟩
  · simp [findInBucket, hl, hrep.search, hfind]
  · refine ⟨forall₂_set ht.buckets _ hrep', ?_, ?_, ?_⟩
    · rw [List.length_set]
      exact ht.pos
    · rw [List.length_set]
      exact ht.placed.set fun y hy => ht.placed _ _ hxs y (List.mem_of_mem_erase hy)
    · have hkeys := (hperm'.map getKey).nodup_iff.mpr ht.nodup
      exact (List.nodup_cons.mp hkeys).2

/-- The item of a key that is present is removed and returned. -/
theorem Stores.remove {key : K} (h : Stores getKey hash t m) (hx : m key = some x) :
    ∃ t', t.remove getKey hash key = some (x, t')
      ∧ Stores getKey hash t' (Function.update m key none) := by
  obtain ⟨items, hholds, hnum, hm⟩ := h
  obtain ⟨hitem, rfl⟩ := (hm key x).mp hx
  obtain ⟨bucket, l, l', rest, hvalue, hfind, hl, hl', hperm, hrest⟩ := hholds.unlink hitem
  have hkeys := (hperm.map getKey).nodup_iff.mpr hholds.nodup
  have habsent : getKey x ∉ rest.map getKey := (List.nodup_cons.mp hkeys).1
  refine ⟨⟨t.buckets.set bucket l', t.numItems - 1⟩, ?_, rest, hrest _, ?_, fun k y => ?_⟩
  · simp [HashTable.remove, hvalue, hfind, hl, hl', assert, (hrest _).isInTable, habsent]
  · have hlen := hperm.length_eq
    simp only [List.length_cons] at hlen
    simp only [hnum]
    omega
  · by_cases hk : k = getKey x
    · subst hk
      rw [Function.update_self]
      constructor
      · intro hnone
        cases hnone
      · rintro ⟨hy, hkey⟩
        exact absurd (hkey ▸ List.mem_map_of_mem hy) habsent
    · rw [Function.update_of_ne hk, hm, ← hperm.mem_iff, List.mem_cons]
      constructor
      · rintro ⟨rfl | hy, hkey⟩
        · exact absurd hkey.symm hk
        · exact ⟨hy, hkey⟩
      · rintro ⟨hy, hkey⟩
        exact ⟨Or.inr hy, hkey⟩

end Tables

end HashTable

/-! ## The iterator -/

namespace HashIterator

open Chaining LinkedList

variable {T : Type} {t : HashTable T} {xss : List (List T)} {it : HashIterator} {ys : List T}

/-- The items `ys` are still to come: the iterator is done, or it stands at
one of a bucket and behind the rest of the bucket come the other buckets. -/
def Ahead (t : HashTable T) (xss : List (List T)) (it : HashIterator) (ys : List T) : Prop :=
  it.bucket = t.numBuckets ∧ ys = []
    ∨ ∃ l p z zs, t.buckets[it.bucket]? = some l ∧ it.bucketIter = some p ∧ At l p (z :: zs)
        ∧ ys = (z :: zs) ++ (xss.drop (it.bucket + 1)).flatten

theorem findNextFullBucket_eq {b : Nat} {l : LinkedList T} (hl : t.buckets[b]? = some l) :
    t.findNextFullBucket b = if l.isEmpty then t.findNextFullBucket (b + 1) else b := by
  obtain ⟨hb, hl⟩ := List.getElem?_eq_some_iff.mp hl
  rw [HashTable.findNextFullBucket, List.drop_eq_getElem_cons hb, hl]
  rfl

/-- The empty buckets from `b` on are skipped. -/
theorem start_ahead (h : List.Forall₂ Rep t.buckets xss) {b : Nat} (hb : b ≤ t.numBuckets) :
    Ahead t xss (start t b) (xss.drop b).flatten := by
  have hlen : t.numBuckets = xss.length := h.length_eq
  induction hk : t.numBuckets - b generalizing b with
  | zero =>
      obtain rfl : b = t.numBuckets := by omega
      refine Or.inl ⟨?_, ?_⟩
      · simp only [start, HashTable.findNextFullBucket, HashTable.numBuckets, List.drop_length]
        rfl
      · rw [hlen, List.drop_length, List.flatten_nil]
  | succ k ih =>
      have hlt : b < xss.length := by omega
      obtain ⟨l, hl, hrep⟩ := getElem?_of_forall₂ h (List.getElem?_eq_getElem hlt)
      have hnext := findNextFullBucket_eq hl
      rw [List.drop_eq_getElem_cons hlt, List.flatten_cons]
      generalize xss[b] = xs at hrep
      cases xs with
      | nil =>
          rw [if_pos (hrep.isEmpty_iff.mpr rfl)] at hnext
          rw [start, hnext]
          exact ih (by omega) (by omega)
      | cons z zs =>
          rw [if_neg fun he => List.cons_ne_nil z zs (hrep.isEmpty_iff.mp he)] at hnext
          rw [start, hnext]
          exact Or.inr ⟨l, l.first, z, zs, hl, by simp [hl], hrep.at_first, rfl⟩

theorem Ahead.next {y : T} (h : Ahead t xss it (y :: ys)) (hxss : List.Forall₂ Rep t.buckets xss) :
    it.isDone t = false ∧ it.item t = some y
      ∧ ∃ it', it.next t = some it' ∧ Ahead t xss it' ys := by
  rcases h with ⟨-, hys⟩ | ⟨l, p, z, zs, hl, hp, hat, hys⟩
  · cases hys
  obtain ⟨rfl, rfl⟩ := List.cons.inj hys
  obtain ⟨-, hitem, q, hq, hat'⟩ := hat.step
  have hlt : it.bucket < t.numBuckets := (List.getElem?_eq_some_iff.mp hl).1
  have hdone : it.isDone t = false := decide_eq_false (Nat.ne_of_lt hlt)
  refine ⟨hdone, by simp [item, hdone, assert, hp, hl, hitem], ?_⟩
  cases zs with
  | nil =>
      obtain rfl := hat'.isDone
      exact ⟨start t (it.bucket + 1), by simp [HashIterator.next, hp, hl, hq], start_ahead hxss hlt⟩
  | cons z zs =>
      have hne := hat'.step.1
      exact ⟨{ it with bucketIter := some q }, by simp [HashIterator.next, hp, hl, hq, hne],
        Or.inr ⟨l, q, z, zs, hl, rfl, hat', rfl⟩⟩

/-- The loop sees what is to come. -/
theorem Ahead.visit {n : Nat} (h : Ahead t xss it ys) (hxss : List.Forall₂ Rep t.buckets xss)
    (hn : ys.length ≤ n) : visit t n it = some ys := by
  induction ys generalizing it n with
  | nil =>
      have hdone : it.isDone t = true := by
        rcases h with ⟨hb, -⟩ | ⟨l, p, z, zs, -, -, -, hys⟩
        · exact decide_eq_true hb
        · simp at hys
      cases n with
      | zero => rw [HashIterator.visit, if_pos hdone]
      | succ n => rw [HashIterator.visit, if_pos hdone]
  | cons y ys ih =>
      obtain ⟨m, rfl, hm⟩ := Linked.exists_fuel hn
      obtain ⟨hdone, hitem, it', hnext, h'⟩ := h.next hxss
      rw [HashIterator.visit, hdone]
      simp [hitem, hnext, ih h' hm]

end HashIterator

/-! ## The map -/

namespace HashTable

open Chaining LinkedList

/-- The calls that change a table. -/
inductive Op (K T : Type) where
  | insert (item : T)
  | remove (key : K)

section Map

variable {K T : Type} [DecidableEq K] [DecidableEq T] (getKey : T → K) (hash : K → UInt32)

def step (t : HashTable T) : Op K T → Option (HashTable T)
  | .insert item => t.insert getKey hash item
  | .remove key => (t.remove getKey hash key).map Prod.snd

/-- What the calls do to the map, in the cases they may be made: to insert an
item whose key is absent, and to remove a key that is present. -/
def Op.spec (m : K → Option T) : Op K T → Option (K → Option T)
  | .insert item =>
      if m (getKey item) = none then some (Function.update m (getKey item) (some item)) else none
  | .remove key => if m key = none then none else some (Function.update m key none)

/-- A table that answers for the map `m`. -/
structure Refines (t : HashTable T) (m : K → Option T) : Prop where
  find : ∀ key, t.find getKey hash key = some (m key)
  -- every bucket is a list, of items that hash to it
  placed : ∀ b l, t.buckets[b]? = some l →
    ∃ xs, Rep l xs ∧ ∀ x ∈ xs, t.hashValue hash (getKey x) = some b
  sanityCheck : t.sanityCheck getKey hash = some ()
  -- the iterator sees every stored item once, and `numItems` is how many there are
  items : ∃ xs, xs.Nodup ∧ (∀ x, x ∈ xs ↔ m (getKey x) = some x) ∧ t.numItems = xs.length
    ∧ ∀ n, xs.length ≤ n → HashIterator.visit t n (HashIterator.init t) = some xs

variable {getKey hash} {t : HashTable T} {m : K → Option T}

theorem Stores.step {m' : K → Option T} {o : Op K T} (h : Stores getKey hash t m)
    (hs : o.spec getKey m = some m') :
    ∃ t', t.step getKey hash o = some t' ∧ Stores getKey hash t' m' := by
  cases o with
  | insert item =>
      rw [Op.spec] at hs
      split at hs
      next hnone =>
          obtain rfl := Option.some.inj hs
          exact h.insert hnone
      next => cases hs
  | remove key =>
      rw [Op.spec] at hs
      split at hs
      next => cases hs
      next hsome =>
          obtain rfl := Option.some.inj hs
          obtain ⟨x, hx⟩ := Option.ne_none_iff_exists'.mp hsome
          obtain ⟨t', ht', hst⟩ := h.remove hx
          exact ⟨t', by simp [HashTable.step, ht'], hst⟩

omit [DecidableEq T] in
theorem Stores.refines (h : Stores getKey hash t m) : Refines getKey hash t m := by
  obtain ⟨items, hholds, hnum, hm⟩ := h
  refine ⟨fun key => ?_, fun b l hl => ?_, hholds.sanityCheck hnum, ?_⟩
  · obtain ⟨found, hfound, hiff⟩ := hholds.find key
    rw [hfound]
    congr 1
    ext x
    rw [hiff, hm]
  · obtain ⟨xss, ht, -⟩ := hholds
    obtain ⟨xs, hxs, hrep⟩ := getElem?_of_forall₂' ht.buckets hl
    refine ⟨xs, hrep, fun x hx => ?_⟩
    rw [(ht.bucket (getKey x)).1, ← ht.placed b xs hxs x hx]
  · obtain ⟨xss, ht, hperm⟩ := hholds
    have hlen : t.numItems = xss.flatten.length := by rw [hnum, hperm.length_eq]
    refine ⟨xss.flatten, ht.nodup.of_map, fun x => ?_, hlen, fun n hn => ?_⟩
    · rw [hm, hperm.mem_iff]
      exact (and_iff_left rfl).symm
    · have hahead := HashIterator.start_ahead ht.buckets (Nat.zero_le _)
      rw [List.drop_zero] at hahead
      exact hahead.visit ht.buckets hn

variable (getKey hash)

open Run in
/-- **A hash table is a finite map.** For every key extraction and every hash
function, and every sequence of calls that the map allows, the calls come to
their end with no assertion failed, resizing the table any number of times,
and the table they leave answers for the map. -/
theorem refines_map (ops : List (Op K T)) (m : K → Option T)
    (h : exec (Op.spec getKey) Any (fun _ => none) ops = some m) :
    ∃ t, exec (step getKey hash) Any HashTable.init ops = some t ∧ Refines getKey hash t m := by
  have hinit : Stores getKey hash HashTable.init (fun _ => none) :=
    ⟨[], holds_initBuckets (by decide) 0, rfl, fun k x => by simp⟩
  have hsim : ∀ (m : K → Option T) (t : HashTable T) (o : Op K T) m', Stores getKey hash t m →
      Any m o → o.spec getKey m = some m' →
      ∃ t', Any t o ∧ t.step getKey hash o = some t' ∧ Stores getKey hash t' m' := by
    intro m t o m' hst _ hs
    obtain ⟨t', ht', hst'⟩ := hst.step hs
    exact ⟨t', trivial, ht', hst'⟩
  obtain ⟨t, ht, hst⟩ := exec_simulates (R := fun m t => Stores getKey hash t m) hsim ops hinit h
  exact ⟨t, ht, hst.refines⟩

end Map

/-- The numbers 0 to 12, then 5 taken out: the last insertion resizes the
table. -/
def sampleOps : List (Op Nat Nat) := (List.range 13).map .insert ++ [.remove 5]

theorem refines_map_sampleOps :
    ∃ m t, Run.exec (Op.spec id) Run.Any (fun _ => none) sampleOps = some m
      ∧ Run.exec (step id UInt32.ofNat) Run.Any HashTable.init sampleOps = some t
      ∧ t.numBuckets = 16 ∧ Refines id UInt32.ofNat t m := by
  have hspec : (Run.exec (Op.spec id) Run.Any (fun _ => none) sampleOps).isSome = true := by
    decide +kernel
  obtain ⟨m, hm⟩ := Option.isSome_iff_exists.mp hspec
  obtain ⟨t, ht, href⟩ := refines_map id UInt32.ofNat sampleOps m hm
  have hsize : (Run.exec (step id UInt32.ofNat) Run.Any HashTable.init sampleOps).map numBuckets
      = some 16 := by decide +kernel
  rw [ht] at hsize
  exact ⟨m, t, hm, ht, Option.some.inj hsize, href⟩

end HashTable

end Nachos
