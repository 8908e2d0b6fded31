import BestFirst.Graph
import BestFirst.Scalar

namespace BestFirst

variable {α : Type}

structure Position (α : Type) where
  x    : α
  y    : α
  z    : α
  is3D : Bool

namespace Position

variable [Zero α]

def ofVector (v : List α) : Position α where
  x    := v.getD 0 0
  y    := v.getD 1 0
  z    := v.getD 2 0
  is3D := 2 < v.length

def ofNumbers (x : α) (y? z? : Option α) : Position α where
  x    := x
  y    := y?.getD 0
  z    := z?.getD 0
  is3D := z?.isSome

variable [Add α] [Sub α] [Mul α] [Scalar α]

def distance (a b : Position α) : α :=
  let dx := b.x - a.x
  let dy := b.y - a.y
  let dz := if a.is3D ∧ b.is3D then b.z - a.z else 0
  Scalar.sqrt (dx * dx + dy * dy + dz * dz)

end Position

namespace Graph

variable [Zero α]

-- The vector "xyz" comes first, then the vector "xy", then the numbers "x", "y" and "z". Of the
-- numbers only "x" makes a position; the other two complete it.
def position (g : Graph α) (u : NodeIndex) : Except Failure (Position α) := do
  let xyz ← g.nodeVector u "xyz"
  if !xyz.isEmpty then
    return .ofVector xyz
  let xy ← g.nodeVector u "xy"
  if !xy.isEmpty then
    return .ofVector xy
  match ← g.nodeNumber? u "x" with
  | some x => return .ofNumbers x (← g.nodeNumber? u "y") (← g.nodeNumber? u "z")
  | none   => throw (.noPosition (← g.nodeId u))

def edgeLength [Add α] [Sub α] [Mul α] [Scalar α] (g : Graph α) (e : EdgeIndex) :
    Except Failure α := do
  let (a, b) ← g.endpoints e
  return (← g.position a).distance (← g.position b)

end Graph
end BestFirst
