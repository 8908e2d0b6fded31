import BestFirst.Failure

namespace BestFirst

variable {α : Type}

structure Graph (α : Type) where
  nodeCount    : Nat
  edgeCount    : Nat
  findNode?    : String → Option NodeIndex
  nodeId       : NodeIndex → Except Failure String
  edgeId       : EdgeIndex → Except Failure String
  -- The edges along which the node can be left, in the order in which they are to be tried.
  leavingEdges : NodeIndex → Except Failure (List EdgeIndex)
  -- Both ends as they were given; the first is the source of a directed edge.
  endpoints    : EdgeIndex → Except Failure (NodeIndex × NodeIndex)
  isDirected   : EdgeIndex → Except Failure Bool
  nodeNumber?  : NodeIndex → String → Except Failure (Option α)
  edgeNumber?  : EdgeIndex → String → Except Failure (Option α)
  -- Empty where the node has no such vector.
  nodeVector   : NodeIndex → String → Except Failure (List α)

namespace Graph

-- The other end of `e` as seen from `u`, which is `u` itself for a loop. Only `e` is checked: any
-- `u` that is not an end of it has no other end.
def opposite? (g : Graph α) (e : EdgeIndex) (u : NodeIndex) : Except Failure (Option NodeIndex) := do
  let (a, b) ← g.endpoints e
  return if u = a then some b else if u = b then some a else none

def resolve (g : Graph α) (role : Role) (id : String) : Except Failure NodeIndex :=
  match g.findNode? id with
  | some u => .ok u
  | none   => .error (.endpointNotFound role id)

end Graph
end BestFirst
