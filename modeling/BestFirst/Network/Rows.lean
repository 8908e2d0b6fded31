namespace BestFirst

-- Row `r` is the part of `items` from `offsets[r]` up to, not including, `offsets[r + 1]`.
structure Rows where
  offsets : Array Nat := #[0]
  items   : Array Nat := #[]

namespace Rows

structure Entry where
  row  : Nat
  item : Nat
  deriving DecidableEq

def count (c : Array Nat) (e : Entry) : Array Nat :=
  c.modify e.row (· + 1)

def sizes (n : Nat) (es : List Entry) : Array Nat :=
  es.foldl count (Array.replicate n 0)

def starts (n : Nat) (es : List Entry) : Array Nat :=
  ((sizes n es).toList.scanl (· + ·) 0).toArray

-- The items placed so far, and for each row the place of the item that comes next in it.
structure Filling where
  next  : Array Nat
  items : Array Nat

def Filling.place (f : Filling) (e : Entry) : Filling :=
  let i := f.next.getD e.row 0
  { next := f.next.modify e.row (· + 1), items := f.items.setIfInBounds i e.item }

def Filling.empty (n : Nat) (es : List Entry) : Filling where
  next  := starts n es
  items := Array.replicate ((starts n es).getD n 0) 0

def ofEntries (n : Nat) (es : List Entry) : Rows where
  offsets := starts n es
  items   := (es.foldl Filling.place (.empty n es)).items

def row (rows : Rows) (r : Nat) : List Nat :=
  (rows.items.extract (rows.offsets.getD r 0) (rows.offsets.getD (r + 1) 0)).toList

end Rows
end BestFirst
