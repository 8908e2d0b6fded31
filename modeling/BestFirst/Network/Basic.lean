import BestFirst.Graph
import BestFirst.Network.Rows
import Std.Data.HashMap

namespace BestFirst

open Std (HashMap)

variable {α : Type}

structure Node (α : Type) where
  id      : String
  numbers : HashMap String α := ∅
  vectors : HashMap String (List α) := ∅

structure Edge (α : Type) where
  id       : String
  source   : Nat
  target   : Nat
  directed : Bool
  numbers  : HashMap String α := ∅

-- An undirected edge can be left from both of its ends, a loop from its only one.
def Edge.leaves (e : Edge α) : List Nat :=
  if e.directed ∨ e.target = e.source then [e.source] else [e.source, e.target]

structure Draft (α : Type) where
  nodes     : Array (Node α) := #[]
  edges     : Array (Edge α) := #[]
  nodeIndex : HashMap String Nat := ∅
  edgeIndex : HashMap String Nat := ∅

namespace Draft

def nodeAt (d : Draft α) (u : NodeIndex) : Except Failure (Node α) :=
  match u.toNat?.bind (d.nodes[·]?) with
  | some node => .ok node
  | none      => .error (.nodeOutOfRange u)

def edgeAt (d : Draft α) (e : EdgeIndex) : Except Failure (Edge α) :=
  match e.toNat?.bind (d.edges[·]?) with
  | some edge => .ok edge
  | none      => .error (.edgeOutOfRange e)

def findNode? (d : Draft α) (id : String) : Option NodeIndex :=
  d.nodeIndex[id]?.map fun u : Nat => (u : NodeIndex)

def findEdge? (d : Draft α) (id : String) : Option EdgeIndex :=
  d.edgeIndex[id]?.map fun e : Nat => (e : EdgeIndex)

def entries (d : Draft α) : List Rows.Entry :=
  d.edges.toList.zipIdx.flatMap fun (edge, e) => edge.leaves.map (⟨·, e⟩)

end Draft

structure Network (α : Type) extends Draft α where
  rows : Rows := {}

namespace Network

def ofDraft (d : Draft α) : Network α where
  toDraft := d
  rows    := .ofEntries d.nodes.size d.entries

def leavingEdges (g : Network α) (u : NodeIndex) : Except Failure (List EdgeIndex) := do
  let _ ← g.nodeAt u
  return (g.rows.row u.toNat).map fun e : Nat => (e : EdgeIndex)

def toGraph (g : Network α) : Graph α where
  nodeCount           := g.nodes.size
  edgeCount           := g.edges.size
  findNode?           := g.findNode?
  nodeId u            := (·.id) <$> g.nodeAt u
  edgeId e            := (·.id) <$> g.edgeAt e
  leavingEdges        := g.leavingEdges
  endpoints e         := (fun edge => (edge.source, edge.target)) <$> g.edgeAt e
  isDirected e        := (·.directed) <$> g.edgeAt e
  nodeNumber? u key   := (·.numbers[key]?) <$> g.nodeAt u
  edgeNumber? e key   := (·.numbers[key]?) <$> g.edgeAt e
  nodeVector u key    := (·.vectors.getD key []) <$> g.nodeAt u

end Network
end BestFirst
