/-!
# Ordered maps

A finite map kept as the list of its entries in strictly increasing key order. The order is part
of the type: `Entries κ α bound` holds only entries whose keys exceed `bound`, and the tail of an
entry is a list above that entry's key, so two maps with the same entries are the same value.

`OrderedMap κ α` is the case without a lower bound. Types that contain maps of themselves name
`Entries κ α none`.

* `get?` is the view of a map: `Lemmas` gives `get?` of every operation, and extensionality.
* `insert`, `erase` and `ofList` are the ways to change one; a later insertion wins.
-/

namespace FieldMask

/-- Entries in strictly increasing key order, all keys above `bound` if there is one. -/
inductive Entries (κ : Type) [LT κ] (α : Type) : Option κ → Type where
  | nil {bound : Option κ} : Entries κ α bound
  | cons {bound : Option κ} (key : κ) (value : α) (above : ∀ b ∈ bound, b < key)
      (rest : Entries κ α (some key)) : Entries κ α bound
deriving DecidableEq

/-- A finite map from `κ` to `α`, in key order. -/
abbrev OrderedMap (κ : Type) [LT κ] (α : Type) : Type := Entries κ α none

namespace Entries

variable {κ α : Type} [LT κ] {bound : Option κ}

instance : Inhabited (Entries κ α bound) := ⟨nil⟩

instance : EmptyCollection (Entries κ α bound) := ⟨nil⟩

/-- The entries as pairs, in key order. -/
def toList {bound : Option κ} : Entries κ α bound → List (κ × α)
  | nil => []
  | cons key value _ rest => (key, value) :: rest.toList

/-- The keys in increasing order. -/
def keys (m : Entries κ α bound) : List κ := m.toList.map Prod.fst

/-- The values in key order. -/
def values (m : Entries κ α bound) : List α := m.toList.map Prod.snd

/-- The number of entries. -/
def size (m : Entries κ α bound) : Nat := m.toList.length

/-- Whether there is no entry. -/
def isEmpty : Entries κ α bound → Bool
  | nil => true
  | cons .. => false

section Lookup

variable [DecidableEq κ]

/-- The value at a key. -/
def get? {bound : Option κ} : Entries κ α bound → κ → Option α
  | nil, _ => none
  | cons k v _ rest, key => if k = key then some v else rest.get? key

/-- Whether the key has an entry. -/
def contains (m : Entries κ α bound) (key : κ) : Bool := (m.get? key).isSome

end Lookup

section Update

variable [DecidableEq κ] [DecidableLT κ]

/-- Put a value at a key above the bound, replacing the one that is there. -/
def insertAbove {bound : Option κ} (key : κ) (value : α) (above : ∀ b ∈ bound, b < key) :
    Entries κ α bound → Entries κ α bound
  | nil => cons key value above nil
  | cons k v h rest =>
    if lt : key < k then
      cons key value above (cons k v (fun _ hb => Option.some.inj hb ▸ lt) rest)
    else if gt : k < key then
      cons k v h (rest.insertAbove key value fun _ hb => Option.some.inj hb ▸ gt)
    else
      cons k value h rest

/-- Put a value at a key, replacing the one that is there. -/
def insert (m : OrderedMap κ α) (key : κ) (value : α) : OrderedMap κ α :=
  insertAbove key value nofun m

/-- The map of a list of pairs; of several pairs with one key the last counts. -/
def ofList (pairs : List (κ × α)) : OrderedMap κ α :=
  pairs.foldl (fun m (key, value) => m.insert key value) nil

end Update

section Erase

variable [LE κ] [Std.IsLinearOrder κ] [Std.LawfulOrderLT κ]

/-- The same entries under a lower bound. -/
def weaken {key : κ} (above : ∀ b ∈ bound, b < key) :
    Entries κ α (some key) → Entries κ α bound
  | nil => nil
  | cons k v h rest => cons k v (fun b hb => Std.lt_trans (above b hb) (h key rfl)) rest

/-- Drop the entry at a key. -/
def erase [DecidableEq κ] {bound : Option κ} :
    Entries κ α bound → κ → Entries κ α bound
  | nil, _ => nil
  | cons k v h rest, key => if k = key then rest.weaken h else cons k v h (rest.erase key)

end Erase

end Entries

end FieldMask
