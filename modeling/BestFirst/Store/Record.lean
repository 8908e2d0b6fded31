import BestFirst.Index

namespace BestFirst

variable {α : Type}

structure Record (α : Type) where
  node   : NodeIndex
  via    : Option EdgeIndex
  parent : Option Nat
  -- What it cost to come here, and what is estimated to be left.
  g      : α
  h      : α

def Record.rank [Add α] (r : Record α) : α :=
  r.g + r.h

structure Arena (α : Type) where
  records   : Array (Record α)
  parent_lt : ∀ {i p : Nat} {r : Record α}, records[i]? = some r → r.parent = some p → p < i

namespace Arena

def empty : Arena α where
  records   := #[]
  parent_lt := by simp

instance : EmptyCollection (Arena α) := ⟨empty⟩

def size (a : Arena α) : Nat :=
  a.records.size

def get? (a : Arena α) (i : Nat) : Option (Record α) :=
  a.records[i]?

def push (a : Arena α) (r : Record α) (hr : ∀ {p : Nat}, r.parent = some p → p < a.size) : Arena α where
  records   := a.records.push r
  parent_lt := by
    intro i s p hs hp
    rw [Array.getElem?_push] at hs
    split at hs
    · obtain rfl := Option.some.inj hs
      have := hr hp
      simp_all [size]
    · exact a.parent_lt hs hp

@[simp]
theorem size_push (a : Arena α) (r : Record α) (hr) : (a.push r hr).size = a.size + 1 := by
  simp [push, size]

theorem get?_push (a : Arena α) (r : Record α) (hr) (i : Nat) :
    (a.push r hr).get? i = if i = a.size then some r else a.get? i :=
  Array.getElem?_push

theorem get?_isSome_iff (a : Arena α) (i : Nat) : (a.get? i).isSome ↔ i < a.size := by
  simp [get?, size]

def chain (a : Arena α) (i : Nat) : List (Record α) :=
  match hr : a.get? i with
  | none   => []
  | some r =>
    match hp : r.parent with
    | none   => [r]
    | some p =>
      have := a.parent_lt hr hp
      r :: a.chain p
termination_by i

end Arena
end BestFirst
