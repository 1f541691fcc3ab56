import Mathlib.Algebra.BigOperators.Group.Finset.Basic
import Mathlib.Algebra.Order.Floor.Div
import Mathlib.Data.Finmap
import Mathlib.Data.List.GetD

/-!
# A store of named files

What a file system of fixed capacity is for. A store is a finite map from
names to contents. A file is created with a size that it keeps, its first
content is anything, and what is written to it later replaces elements of it
from a position on, as far as the file reaches. A file takes one block and as
many more as its content fills, and there is a limit on the files and on the
blocks.

Clients work through handles, each with the name it was opened by and a
cursor. A handle ends when it is closed, when its file is removed, and when
the system is started again; the store does not end then.

`Step` is the specification: which answers a call may have, and what it
leaves. It is a relation because of the first content of a file and of the
order in which names are listed.
-/

namespace FileStore

variable {κ β : Type*}

/-! ## Contents -/

/-- `new` put over `old` from `position` on. -/
def overlay (old new : List β) (position : Nat) : List β :=
  old.mapIdx fun i b => if position ≤ i then new.getD (i - position) b else b

@[simp] theorem length_overlay (old new : List β) (position : Nat) :
    (overlay old new position).length = old.length := by
  rw [overlay, List.length_mapIdx]

theorem getD_overlay (old new : List β) (position : Nat) {i : Nat} (hi : i < old.length) (z : β) :
    (overlay old new position).getD i z
      = if position ≤ i ∧ i < position + new.length then new.getD (i - position) z
        else old.getD i z := by
  rw [List.getD_eq_getElem _ _ (by rwa [length_overlay]), List.getD_eq_getElem _ z hi]
  simp only [overlay, List.getElem_mapIdx]
  by_cases hlo : position ≤ i
  · rw [if_pos hlo]
    by_cases hhi : i < position + new.length
    · have hlt : i - position < new.length := by omega
      rw [if_pos ⟨hlo, hhi⟩, List.getD_eq_getElem _ _ hlt, List.getD_eq_getElem _ _ hlt]
    · rw [if_neg fun h => hhi h.2, List.getD_eq_default _ _ (by omega)]
  · rw [if_neg hlo, if_neg fun h => hlo h.1]

/-! ## Capacity -/

/-- How many files and blocks there is room for. -/
structure Limits where
  files : Nat
  blocks : Nat
  blockSize : Nat

/-- The files by name. -/
abbrev Store (κ β : Type*) := Finmap fun _ : κ => List β

section Capacity

variable [DecidableEq κ]

/-- The blocks of a file of that length. -/
def Limits.cost (g : Limits) (length : Nat) : Nat := 1 + length ⌈/⌉ g.blockSize

/-- The blocks of all files. -/
def Limits.used (g : Limits) (A : Store κ β) : Nat :=
  ∑ k ∈ A.keys, g.cost ((A.lookup k).getD []).length

/-- There is room for a new file of that name and size. -/
structure Limits.Admits (g : Limits) (A : Store κ β) (name : κ) (size : Nat) : Prop where
  fresh : name ∉ A
  files : A.keys.card < g.files
  blocks : g.used A + g.cost size ≤ g.blocks

end Capacity

/-! ## Calls -/

structure Handle (κ : Type*) where
  name : κ
  cursor : Nat

/-- The store and the handles that were given out, `none` for one that has
ended. -/
structure System (κ β : Type*) where
  store : Store κ β
  handles : List (Option (Handle κ))

inductive Call (κ β : Type*) where
  | create (name : κ) (size : Nat)
  | open (name : κ)
  | remove (name : κ)
  | readAt (handle count position : Nat)
  | writeAt (handle : Nat) (data : List β) (position : Nat)
  | read (handle count : Nat)
  | write (handle : Nat) (data : List β)
  | seek (handle position : Nat)
  | length (handle : Nat)
  | close (handle : Nat)
  | list
  | restart

inductive Answer (κ β : Type*) where
  | ok (success : Bool)
  | handle (number : Option Nat)
  | data (bytes : List β)
  | count (number : Nat)
  | names (names : List κ)
  | done
deriving DecidableEq

section Specification

variable [DecidableEq κ]

/-- The handles after the file of that name is gone. -/
def dropName (name : κ) (handles : List (Option (Handle κ))) : List (Option (Handle κ)) :=
  handles.map fun h => h.filter fun f => f.name ≠ name

/-- How much of a request lies within a file of that length. -/
def within (length count position : Nat) : Nat := min count (length - position)

inductive Step (g : Limits) : System κ β → Call κ β → Answer κ β → System κ β → Prop where
  | created {A : System κ β} {name : κ} {size : Nat} {bytes : List β} :
      g.Admits A.store name size → bytes.length = size →
      Step g A (.create name size) (.ok true) { A with store := A.store.insert name bytes }
  | refused {A : System κ β} {name : κ} {size : Nat} :
      ¬g.Admits A.store name size → Step g A (.create name size) (.ok false) A
  | opened {A : System κ β} {name : κ} :
      name ∈ A.store →
      Step g A (.open name) (.handle (some A.handles.length))
        { A with handles := A.handles ++ [some ⟨name, 0⟩] }
  | missing {A : System κ β} {name : κ} :
      name ∉ A.store → Step g A (.open name) (.handle none) A
  | removed {A : System κ β} {name : κ} :
      name ∈ A.store →
      Step g A (.remove name) (.ok true) ⟨A.store.erase name, dropName name A.handles⟩
  | absent {A : System κ β} {name : κ} :
      name ∉ A.store → Step g A (.remove name) (.ok false) A
  | readAt {A : System κ β} {h n p : Nat} {f : Handle κ} {old : List β} :
      A.handles[h]? = some (some f) → A.store.lookup f.name = some old →
      Step g A (.readAt h n p) (.data ((old.drop p).take n)) A
  | writeAt {A : System κ β} {h p : Nat} {data : List β} {f : Handle κ} {old : List β} :
      A.handles[h]? = some (some f) → A.store.lookup f.name = some old →
      Step g A (.writeAt h data p) (.count (within old.length data.length p))
        { A with store := A.store.insert f.name (overlay old data p) }
  | read {A : System κ β} {h n : Nat} {f : Handle κ} {old : List β} :
      A.handles[h]? = some (some f) → A.store.lookup f.name = some old →
      Step g A (.read h n) (.data ((old.drop f.cursor).take n))
        { A with handles :=
            A.handles.set h (some { f with cursor := f.cursor + within old.length n f.cursor }) }
  | write {A : System κ β} {h : Nat} {data : List β} {f : Handle κ} {old : List β} :
      A.handles[h]? = some (some f) → A.store.lookup f.name = some old →
      Step g A (.write h data) (.count (within old.length data.length f.cursor))
        ⟨A.store.insert f.name (overlay old data f.cursor),
          A.handles.set h
            (some { f with cursor := f.cursor + within old.length data.length f.cursor })⟩
  | seek {A : System κ β} {h p : Nat} {f : Handle κ} :
      A.handles[h]? = some (some f) →
      Step g A (.seek h p) .done
        { A with handles := A.handles.set h (some { f with cursor := p }) }
  | length {A : System κ β} {h : Nat} {f : Handle κ} {old : List β} :
      A.handles[h]? = some (some f) → A.store.lookup f.name = some old →
      Step g A (.length h) (.count old.length) A
  | close {A : System κ β} {h : Nat} :
      Step g A (.close h) .done { A with handles := A.handles.set h none }
  | list {A : System κ β} {names : List κ} :
      names.Nodup → (∀ k, k ∈ names ↔ k ∈ A.store) → Step g A .list (.names names) A
  | restart {A : System κ β} : Step g A .restart .done { A with handles := [] }

end Specification

end FileStore
