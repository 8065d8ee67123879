import Stencil.Decimal.Binary64

/-!
# Data

The values that a template is rendered with: a tree of lists and maps over simple values.  A map
keeps its keys in order and each of them once, so it does not remember how it was put together.
-/

namespace Stencil.Data

/-- A value of the data. -/
inductive Value where
  /-- No value. -/
  | none
  /-- A truth value. -/
  | bool (b : Bool)
  /-- An integer of 64 bits. -/
  | int (n : Int64)
  /-- A floating-point number. -/
  | float (x : Binary64)
  /-- A string. -/
  | text (s : String)
  /-- A list. -/
  | list (items : List Value)
  /-- A map, with its keys in ascending order. -/
  | map (entries : List (String × Value))
  deriving Repr, Inhabited

/-- Puts a key into entries with ascending keys, in the place of an equal one. -/
def insertEntry {α : Type} (key : String) (value : α) : List (String × α) → List (String × α)
  | [] => [(key, value)]
  | (k, v) :: rest =>
    if key < k then (key, value) :: (k, v) :: rest
    else if key = k then (key, value) :: rest
    else (k, v) :: insertEntry key value rest

/-- Entries in ascending order of their keys; of equal keys the last one counts. -/
def sortEntries {α : Type} (entries : List (String × α)) : List (String × α) :=
  entries.foldl (fun sorted entry => insertEntry entry.1 entry.2 sorted) []

namespace Value

/-- The map of some entries; of equal keys the last one counts. -/
def ofEntries (entries : List (String × Value)) : Value := .map (sortEntries entries)

/-- The value of what may be absent. -/
def ofOption : Option Value → Value
  | .none => .none
  | .some v => v

/-- The value used when none is given: a map without entries. -/
def default : Value := .map []

mutual

/-- Equality of values.  Floats are compared as numbers, so NaN differs from itself and the two
zeros are equal; an integer never equals a float. -/
def same : Value → Value → Bool
  | .none, .none => true
  | .bool a, .bool b => a == b
  | .int a, .int b => a == b
  | .float a, .float b => a.same b
  | .text a, .text b => a == b
  | .list a, .list b => sameItems a b
  | .map a, .map b => sameEntries a b
  | _, _ => false

/-- Equality of lists, item by item. -/
def sameItems : List Value → List Value → Bool
  | [], [] => true
  | a :: as, b :: bs => same a b && sameItems as bs
  | _, _ => false

/-- Equality of entries in order. -/
def sameEntries : List (String × Value) → List (String × Value) → Bool
  | [], [] => true
  | (k, a) :: as, (l, b) :: bs => k == l && same a b && sameEntries as bs
  | _, _ => false

end

end Value

end Stencil.Data
