import Stencil.Script.Value

/-!
# Tables

A table has a list part, which holds the values of the keys `1`, `2`, … without a gap between the
keys, and a list of entries for all other keys in the order in which they were first set.  A key
that loses its value keeps its place.  This fixes the order in which the keys are gone through: the
list part first, then the other keys in order.
-/

namespace Stencil.Script

/-- A table. -/
structure Table where
  /-- The values of the keys from one on. -/
  items : Array Value := #[]
  /-- The values of all other keys. -/
  entries : Array (Value × Value) := #[]
  /-- The table that says how this one behaves. -/
  behaviour : Option Nat := none
  deriving Inhabited

namespace Table

/-- The position of a key in the list part. -/
def position? (t : Table) (key : Value) : Option Nat :=
  match key with
  | .number (.int n) =>
    let i := n.toInt
    if 1 ≤ i ∧ i ≤ t.items.size then some (i.toNat - 1) else none
  | _ => none

/-- The place of a key among the entries. -/
def place? (t : Table) (key : Value) : Option Nat :=
  t.entries.findIdx? fun e => e.1 == key

/-- The value of a key. -/
def get (t : Table) (key : Value) : Value :=
  let key := key.asKey
  match t.position? key with
  | some i => t.items.getD i .nil
  | none =>
    match t.entries.find? fun e => e.1 == key with
    | some e => e.2
    | none => .nil

/-- Moves the entries that go on with the list part over to it; there are at most `count`. -/
def gather : (count : Nat) → Table → Table
  | 0, t => t
  | count + 1, t =>
    match t.place? (.int (t.items.size + 1)) with
    | some i =>
      match t.entries[i]? with
      | some e =>
        if e.2 == .nil then t
        else gather count
          { t with items := t.items.push e.2, entries := t.entries.eraseIdxIfInBounds i }
      | none => t
    | none => t

/-- Gives a key its value; the key is neither `nil` nor NaN. -/
def set (t : Table) (key value : Value) : Table :=
  let key := key.asKey
  match t.position? key with
  | some i => { t with items := t.items.setIfInBounds i value }
  | none =>
    match t.place? key with
    | some i => { t with entries := t.entries.setIfInBounds i (key, value) }
    | none =>
      if value == .nil then t
      else if key == .int (t.items.size + 1) then
        { t with items := t.items.push value }.gather t.entries.size
      else { t with entries := t.entries.push (key, value) }

/-- Gives the keys from one on their values, in place of those that they have. -/
def withItems (t : Table) (values : List Value) : Table :=
  let n := values.length
  let isListed (key : Value) : Bool :=
    match key with
    | .number (.int i) => decide (1 ≤ i.toInt ∧ i.toInt ≤ n)
    | _ => false
  let start : Table :=
    { t with items := values.toArray, entries := t.entries.filter fun e => !isListed e.1 }
  (t.items.toList.drop n).foldl (fun t v => t.set (.int (t.items.size + 1)) v) start

/-- A number of items with a value at it and none after it, between `low`, where there is a value
or nothing before, and `high`, where there is none; `steps` halvings are enough. -/
def borderBetween (t : Table) : (steps low high : Nat) → Nat
  | 0, low, _ => low
  | steps + 1, low, high =>
    if high ≤ low + 1 then low
    else
      let middle := (low + high) / 2
      if t.items.getD (middle - 1) .nil == .nil then t.borderBetween steps low middle
      else t.borderBetween steps middle high

/-- The number of entries that go on with the list part, from key `n + 1`. -/
def beyond (t : Table) : (steps n : Nat) → Nat
  | 0, n => n
  | steps + 1, n => if t.get (.int (n + 1)) == .nil then n else t.beyond steps (n + 1)

/-- The length of the list that a table holds: a key with a value such that the next one has
none. -/
def length (t : Table) : Nat :=
  let n := t.items.size
  if n = 0 then t.beyond t.entries.size 0
  else if t.items.getD (n - 1) .nil == .nil then
    if n ≥ 2 ∧ t.items.getD (n - 2) .nil != .nil then n - 1 else t.borderBetween n 0 n
  else t.beyond t.entries.size n

/-- The first of the list items from index `i` on that has a value, with its key; at most `count`
are looked at. -/
def nextItem (t : Table) : (count i : Nat) → Option (Value × Value)
  | 0, _ => none
  | count + 1, i =>
    match t.items[i]? with
    | some v => if v == .nil then t.nextItem count (i + 1) else some (.int (i + 1), v)
    | none => none

/-- The first of the entries from index `i` on that has a value. -/
def nextEntry (t : Table) (i : Nat) : Option (Value × Value) :=
  (t.entries.toList.drop i).find? fun e => e.2 != .nil

/-- The entry after list index `i`, or the first one of the others. -/
def nextFrom (t : Table) (i : Nat) : Option (Value × Value) :=
  (t.nextItem t.items.size i).or (t.nextEntry 0)

/-- What comes after a key, if the key is in the table: an entry, or nothing at the end. -/
def next? (t : Table) (key : Value) : Option (Option (Value × Value)) :=
  let key := key.asKey
  if key == .nil then some (t.nextFrom 0)
  else
    match t.position? key with
    | some i => some (t.nextFrom (i + 1))
    | none => (t.place? key).map fun i => t.nextEntry (i + 1)

end Table

end Stencil.Script
